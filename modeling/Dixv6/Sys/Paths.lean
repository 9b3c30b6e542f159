import Dixv6.Sys.Fail

/-!
# What a path stands for

The components of a path are its maximal runs of bytes other than `/`, and `look` is the lookup of one
of them. **`namei` folds `look` over the components, and `nameiparent` over all but the last**
(`namei_resolves`), with one reference more in the inode cache and nothing else changed, if and only if
the cache has an entry for every inode on the way and none of these inodes has been freed.

Both can fail: a process may stay in a directory whose parent has been removed, and the next lookup
through `..` panics (`namei_through_freed`).
-/

namespace Dixv6.Sys

open Lib Fs

/-! ## Components -/

/-- The maximal runs of bytes other than `/`. -/
def runs (path : Path) : List (List UInt8) := (path.splitOnP (· == slash)).filter (· ≠ [])

/-- The components of a path: its runs, cut to `DIRSIZ` bytes. -/
def components (path : Path) : List Name := (runs path).map (List.take DIRSIZ)

theorem runs_slash (path : Path) : runs (slash :: path) = runs path := by
  simp [runs, List.splitOnP_cons_eq_if_modifyHead]

theorem runs_dropWhile (path : Path) : runs (path.dropWhile (· = slash)) = runs path := by
  induction path with
  | nil => rfl
  | cons c path ih =>
    by_cases hc : c = slash
    · rw [List.dropWhile_cons_of_pos (by simpa using hc), ih, hc, runs_slash]
    · rw [List.dropWhile_cons_of_neg (by simpa using hc)]

/-- The first run, and those that follow. -/
theorem runs_append {w rest : Path} (hw : ∀ x ∈ w, (x == slash) = false) (hne : w ≠ [])
    (hrest : ∀ x, rest.head? = some x → x = slash) : runs (w ++ rest) = w :: runs rest := by
  cases rest with
  | nil => simp [runs, List.splitOnP_eq_singleton hw, hne]
  | cons s rest =>
    obtain rfl := hrest s rfl
    rw [runs_slash, runs, List.splitOnP_append_cons_of_forall_mem hw slash (by simp),
      List.filter_cons, if_pos (by simpa using hne)]
    rfl

/-- What is left after a `dropWhile` starts with something else. -/
theorem head_dropWhile {q : UInt8 → Bool} {path : Path} {x : UInt8}
    (h : (path.dropWhile q).head? = some x) : q x = false := by
  have := List.head?_dropWhile_not q path
  rw [h] at this
  simpa using this

theorem runs_cons {c : UInt8} (hc : c ≠ slash) (path : Path) : runs (c :: path) =
    (c :: path).takeWhile (· ≠ slash) :: runs ((c :: path).dropWhile (· ≠ slash)) := by
  conv_lhs => rw [← List.takeWhile_append_dropWhile (p := fun x => decide (x ≠ slash))
    (l := c :: path)]
  refine runs_append (fun x hx => ?_) ?_ fun x hx => ?_
  · have := List.all_eq_true.1 List.all_takeWhile x hx
    simpa using this
  · rw [List.takeWhile_cons_of_pos (by simpa using hc)]
    simp
  · simpa using head_dropWhile hx

/-- The elements that `skipelem` takes off a path are its components. -/
theorem elems_eq_components (path : Path) : elems path = components path := by
  have hall : ∀ fuel (path : Path), path.length ≤ fuel →
      elemsFrom fuel path = (runs path).map (List.take DIRSIZ) := by
    intro fuel
    induction fuel with
    | zero =>
      intro path h
      rw [List.length_eq_zero_iff.1 (Nat.le_zero.1 h)]
      rfl
    | succ fuel ih =>
      intro path h
      rw [← runs_dropWhile path, elemsFrom, skipelem]
      cases hd : path.dropWhile (· = slash) with
      | nil => rfl
      | cons c rest =>
        have hc : c ≠ slash := by simpa using head_dropWhile (congrArg List.head? hd)
        rw [runs_cons hc, List.map_cons, ← runs_dropWhile ((c :: rest).dropWhile (· ≠ slash))]
        refine congrArg _ (ih _ ?_)
        have h1 := (List.dropWhile_sublist (fun x => decide (x = slash)) (l := path)).length_le
        have h2 := (List.dropWhile_sublist (fun x => decide (x = slash))
          (l := (c :: rest).dropWhile (· ≠ slash))).length_le
        have h3 := (List.dropWhile_sublist (fun x => decide (x ≠ slash)) (l := rest)).length_le
        rw [List.dropWhile_cons_of_pos (by simpa using hc)] at h2 ⊢
        rw [hd, List.length_cons] at h1
        omega
  exact hall _ path le_rfl

example : components [47, 47, 97, 98, 47, 99, 47] = [[97, 98], [99]] := by decide

/-! ## Looking up components one after the other -/

/-- The lookup of one name: the inode that it stands for in directory `m`. -/
def look (files : Nat → Option AFile) (m : Nat) (name : Name) : Option Nat :=
  (files m).bind fun f =>
    if f.type = T_DIR then (f.lookup name).map fun j => (f.dirent j).inum else none

/-- The inode, if it is a directory. -/
def asDir (files : Nat → Option AFile) (m : Nat) : Option Nat :=
  (files m).bind fun f => if f.type = T_DIR then some m else none

/-- The inode that a path stands for. -/
def View.target (v : View) (p : Nat) (path : Path) : Option Nat :=
  (v.start p path).bind fun m => (components path).foldlM (look v.files) m

/-- The directory that the last component of a path is looked up in. -/
def View.parent (v : View) (p : Nat) (path : Path) : Option Nat :=
  if components path = [] then none
  else (v.start p path).bind fun m =>
    ((components path).dropLast.foldlM (look v.files) m).bind (asDir v.files)

section
variable {files : Nat → Option AFile}

theorem walk_cons (name : Name) (names : List Name) (m : Nat) :
    walk files false (name :: names) m = (look files m name).bind (walk files false names) := by
  cases hf : files m with
  | none => simp [walk, look, hf]
  | some f => by_cases ht : f.type = T_DIR <;> cases hj : f.lookup name <;> simp [walk, look, hf, ht, hj]

theorem walk_eq_foldlM (names : List Name) (m : Nat) :
    walk files false names m = names.foldlM (look files) m := by
  induction names generalizing m with
  | nil => rfl
  | cons name names ih =>
    rw [walk_cons, List.foldlM_cons]
    exact congrArg _ (funext ih)

theorem walk_parent_eq_foldlM : ∀ (names : List Name) (m : Nat), names ≠ [] →
    walk files true names m = (names.dropLast.foldlM (look files) m).bind (asDir files)
  | [], _, h => absurd rfl h
  | [name], m, _ => by
    cases hf : files m with
    | none => simp [walk, asDir, hf]
    | some f => by_cases ht : f.type = T_DIR <;> simp [walk, asDir, hf, ht]
  | name :: next :: names, m, _ => by
    have ih := fun m => walk_parent_eq_foldlM (next :: names) m (by simp)
    rw [List.dropLast_cons_of_ne_nil (by simp), List.foldlM_cons]
    cases hf : files m with
    | none => simp [walk, look, hf]
    | some f =>
      rw [walk, hf, Option.bind_some, look, hf, Option.bind_some]
      by_cases ht : f.type = T_DIR
      · cases hj : f.lookup name with
        | none => simp [ht]
        | some j => simp [ht, ← ih]
      · simp [ht]

/-- The last step of a walk. -/
theorem walk_last (names : List Name) (m : Nat) (h : names ≠ []) : walk files false names m =
    (walk files true names m).bind fun d => look files d (names.getLastD []) := by
  rw [walk_parent_eq_foldlM names m h, walk_eq_foldlM]
  obtain ⟨init, name, rfl⟩ := (List.eq_nil_or_concat names).resolve_left h
  rw [List.concat_eq_append, List.foldlM_append, List.dropLast_concat, List.getLastD_concat]
  cases hm : init.foldlM (look files) m with
  | none => rfl
  | some d =>
    cases hf : files d with
    | none => simp [look, asDir, hf]
    | some f => by_cases ht : f.type = T_DIR <;> simp [look, asDir, hf, ht]

/-- The last lookup of a walk is one of its steps. -/
theorem mem_trail_last {md : Nat} {d : AFile} {j : Nat} (hd : files md = some d) :
    ∀ (names : List Name) (m : Nat), walk files true names m = some md →
      d.lookup (names.getLastD []) = some j → (md, some (d.dirent j).inum) ∈ trail files false names m
  | [], _, h, _ => by simp [walk] at h
  | name :: names, m, h, hj => by
    rw [walk] at h
    obtain ⟨f, hf, h⟩ := Option.bind_eq_some_iff.1 h
    split at h
    · cases h
    next ht =>
    rw [trail, hf]
    cases names with
    | nil =>
      obtain rfl : m = md := by simpa using h
      obtain rfl := Option.some.inj (hf.symm.trans hd)
      rw [List.getLastD_cons, List.getLastD_nil] at hj
      simp [ht, hj]
    | cons next names =>
      rw [if_neg (by simp)] at h
      obtain ⟨j', hj', h⟩ := Option.bind_eq_some_iff.1 h
      have hj : d.lookup ((next :: names).getLastD []) = some j := by simpa using hj
      simp [ht, hj', mem_trail_last hd (next :: names) _ h hj]

end

/-! ## The kernel -/

/-- The last component is looked up, under its lock, in the directory that `nameiparent` returns. -/
def lookupLast (path : Path) : P (Option Nat) := do
  match ← nameiparent path with
  | none => pure none
  | some (dp, name) =>
    call (.ilock dp)
    match ← dirlookup dp name with
    | none =>
      iunlockput dp
      pure none
    | some (ip, _) =>
      iunlockput dp
      pure (some ip)

/-- A lookup has returned the cache entry of inode `o`, or none. -/
structure Returned (g : Geo) (k : Kernel) (o : Option Nat) (r : Option Nat) (k' : Kernel) : Prop where
  inum : r.map (fun i => (k'.fs.inode i).inum) = o
  /-- There is one reference more, the one returned. -/
  refs : ∀ i, (k'.fs.inode i).ref = (k.fs.inode i).ref + if r = some i then 1 else 0
  files : ∀ m, fileOf g k'.fs.disk m = fileOf g k.fs.disk m

/-- Path resolution is folding lookup over components. -/
structure Resolves (g : Geo) (k : Kernel) (v : View) (p : Nat) (path : Path) : Prop where
  namei : ∃ r k', (namei path).run (exec p) k = .ok (r, k') ∧ Returned g k (v.target p path) r k'
  nameiparent : ∃ r k', (nameiparent path).run (exec p) k = .ok (r, k') ∧
    Returned g k (v.parent p path) (r.map Prod.fst) k' ∧
    ∀ d ∈ r, (components path).getLast? = some d.2
  last : components path ≠ [] → ∃ r k', (lookupLast path).run (exec p) k = .ok (r, k') ∧
    Returned g k (v.target p path) r k'

/-- Every inode on the way fits in the cache and is allocated. -/
def CanWalk (v : View) (H : Nat → Nat) (p : Nat) (path : Path) : Prop :=
  ∀ parent, v.PathFits H p path parent ∧ v.PathSolid p path parent

section
variable {c : Terms} {g : Geo} {X : Prop} {k k' : Kernel} {v v' : View} {H : Nat → Nat} {p : Nat}
  {path : Path}

theorem View.resolve_target : v.resolve p path false = v.target p path := by
  simp only [View.resolve, View.target, elems_eq_components, walk_eq_foldlM]

theorem View.resolve_parent : v.resolve p path true = v.parent p path := by
  unfold View.resolve View.parent
  rw [elems_eq_components]
  split
  · next h => cases v.start p path <;> simp [h, walk]
  · next h => simp only [walk_parent_eq_foldlM _ _ h]

/-- What a lookup on views says about the kernel. -/
theorem Walked.returned {o r : Option Nat} (hk : Rep c k v) (hc : Calm v H ∅) (h : Walked H o v r v')
    (hk' : Rep c k' v') : Returned c.g k o r k' := by
  have hrefs : ∀ {H' i}, Calm v' H' ∅ → Frame H v v' →
      (k'.fs.inode i).ref + H i = (k.fs.inode i).ref + H' i := fun {H' i} hc' hf => by
    rw [hk.refs, hk'.refs, hc.refs, hc'.refs, hf.held]
    omega
  have hfiles : Frame H v v' → ∀ m, fileOf c.g k'.fs.disk m = fileOf c.g k.fs.disk m := fun hf m => by
    rw [hk'.files, hk.files, hf.files]
  cases r with
  | none =>
    obtain ⟨rfl, hc', hf⟩ := h
    exact ⟨rfl, fun i => by simpa using hrefs hc' hf, hfiles hf⟩
  | some i =>
    obtain ⟨hc', -, hf, m, rfl, hm⟩ := h
    refine ⟨?_, fun j => ?_, hfiles hf⟩
    · obtain ⟨sl, hs, rfl⟩ := Option.map_eq_some_iff.1 hm
      exact congrArg some (slotOf_eq_some.1 ((hk'.slot i).trans hs)).2.1
    · have hj := hrefs (i := j) hc' hf
      by_cases hji : j = i
      · subst hji
        rw [more_self] at hj
        simp only [if_true]
        omega
      · rw [more_of_ne hji] at hj
        simp only [Option.some.injEq, Ne.symm hji, if_false]
        omega

/-- `nameiparent` returns the directory and the last component. -/
theorem vwp_nameiparent_fits (hc : Calm v H ∅) (hp : p < NPROC) (hproc : v.proc p ≠ none)
    (hfits : c.E .igetNoInodes ∨ v.PathFits H p path true)
    (hsolid : c.E .ilockNoType ∨ v.PathSolid p path true) : vwp c p (nameiparent path) (fun r v' =>
      (Walked H (v.resolve p path true) v (r.map Prod.fst) v' ∧ ∀ d ∈ r, d.2 = lastElem path) ∧
        v.PathFits H p path true ∧ v.PathSolid p path true) v := by
  refine vwp_seq (vwp_namex_fits hc hp hproc hfits hsolid) fun r v' _ h' => ?_
  cases r with
  | none => exact vwp_pure ⟨⟨h'.1, nofun⟩, h'.2⟩
  | some i => exact vwp_pure ⟨⟨h'.1, fun d hd => Option.some.inj hd ▸ rfl⟩, h'.2⟩

/-- The last component is looked up in the directory. -/
theorem vwp_lookupLast (hc : Calm v H ∅) (hp : p < NPROC) (hproc : v.proc p ≠ none)
    (hwalk : CanWalk v H p path) (hne : elems path ≠ []) :
    vwp c p (lookupLast path) (Walked H (v.resolve p path false) v) v := by
  have hlast : v.resolve p path false =
      (v.resolve p path true).bind fun d => look v.files d (lastElem path) := by
    unfold View.resolve
    cases v.start p path with
    | none => rfl
    | some m => exact walk_last _ m hne
  rw [hlast]
  refine vwp_seq (vwp_nameiparent_fits hc hp hproc (.inr (hwalk true).1) (.inr (hwalk true).2)) ?_
  rintro r v1 - ⟨⟨h1, hname⟩, -⟩
  rcases r with _ | ⟨dp, name⟩
  · obtain ⟨hr, h1⟩ := h1
    rw [hr]
    exact vwp_pure ⟨rfl, h1⟩
  obtain rfl := hname _ rfl
  obtain ⟨hc1, hs1, hf1, md, hr, hmd⟩ := h1
  obtain ⟨d, hd, ht⟩ := isDir_of_resolve hr
  refine vwp_seq (Parent.vwp_ilock ⟨hr, hd, ht, hc1, hs1, hf1, hmd⟩) ?_
  rintro _ v2 hw2 ⟨sl, hl, rfl, hc2, hs2, hf2⟩
  refine vwp_seq (vwp_dirlookup_room hl ht hc2 fun j hj hfull => ?_) fun r v3 _ h3 => ?_
  · -- the lookup is the last step of the whole walk, which has room
    obtain ⟨m, hm, hwalk'⟩ := Option.bind_eq_some_iff.1 hr
    have hroom := (hwalk false).1.2 m hm _ (mem_trail_last hd _ m hwalk' hj) _ rfl
    refine absurd ?_ ((hc2.packed_iff hw2).1 hfull)
    rw [View.fits_more hw2 (View.inumAt_of_slot hl.slot), hf2.room]
    exact hroom
  have hlook : look v.files sl.inum (lastElem path) =
      (d.lookup (lastElem path)).map fun j => (d.dirent j).inum := by
    simp [look, hd, ht]
  rw [hr, Option.bind_some, hlook]
  rcases r with _ | ⟨ip, off⟩
  · obtain ⟨rfl, hj⟩ := h3.1
    refine vwp_seq (vwp_iunlockput_safe hc2 hl.slot hl.busy hs2) fun _ v' _ h' => vwp_pure ?_
    rw [show ({dp} : Finset Nat).erase dp = ∅ by simp] at h'
    exact ⟨by rw [hj]; rfl, h'.1, hf2.trans h'.2⟩
  · refine vwp_seq (vwp_leaveDir hl hc2 hs2 h3.1) ?_
    rintro _ v' _ ⟨j, hj, hc', hs', hf', hn'⟩
    exact vwp_pure ⟨hc', hs', hf2.trans hf', _, by rw [hj]; rfl, hn'⟩

/-- **Paths resolve if and only if every inode on the way fits in the cache and is allocated.** -/
theorem namei_resolves (hrep : Rep ⟨g, fun _ => False, X⟩ k v) (hc : Calm v H ∅) (hp : p < NPROC)
    (hproc : v.proc p ≠ none) (path : Path) : Resolves g k v p path ↔ CanWalk v H p path := by
  constructor
  · intro h
    have hrep' : Rep ⟨g, fun _ => True, X⟩ k v := { hrep with fits := .inl trivial }
    have hrun : ∀ {parent r k'}, (namex path parent).run (exec p) k = .ok (r, k') →
        v.PathFits H p path parent ∧ v.PathSolid p path parent := fun hr => by
      obtain ⟨_, h', -⟩ := wp_ok (hrep'.run
        (vwp_namex_fits hc hp hproc (.inl trivial) (.inl trivial))) hr
      exact h'.2
    intro parent
    cases parent with
    | false =>
      obtain ⟨r, k', hr, -⟩ := h.namei
      exact hrun hr
    | true =>
      obtain ⟨r, k', hr, -⟩ := h.nameiparent
      obtain ⟨_, h', -⟩ := wp_ok (hrep'.run
        (vwp_nameiparent_fits hc hp hproc (.inl trivial) (.inl trivial))) hr
      exact h'.2
  · intro h
    have hdone : ∀ {α : Type} {m : P α} {Q : α → View → Prop}, vwp ⟨g, fun _ => False, X⟩ p m Q v →
        ∃ r k' v', m.run (exec p) k = .ok (r, k') ∧ Q r v' ∧ Rep ⟨g, fun _ => False, X⟩ k' v' := by
      intro α m Q hm
      obtain ⟨r, k', hr, v', hQ, hrep'⟩ := wp_total (hrep.run hm)
      exact ⟨r, k', v', hr, hQ, hrep'⟩
    refine ⟨?_, ?_, fun hne => ?_⟩
    · obtain ⟨r, k', v', hr, h', hrep'⟩ := hdone
        (vwp_namex_fits hc hp hproc (.inr (h false).1) (.inr (h false).2))
      rw [View.resolve_target] at h'
      exact ⟨r, k', hr, h'.1.returned hrep hc hrep'⟩
    · obtain ⟨r, k', v', hr, h', hrep'⟩ := hdone
        (vwp_nameiparent_fits hc hp hproc (.inr (h true).1) (.inr (h true).2))
      have hret := h'.1.1.returned hrep hc hrep'
      rw [View.resolve_parent] at hret
      refine ⟨r, k', hr, hret, fun d hd => ?_⟩
      have hsome : v.parent p path ≠ none := by
        rw [← hret.inum, hd]
        simp
      have hne : components path ≠ [] := fun h0 => hsome (by rw [View.parent, if_pos h0])
      rw [h'.1.2 d hd, lastElem, elems_eq_components, List.getLast?_eq_some_getLast hne,
        List.getLastD_eq_getLast?, List.getLast?_eq_some_getLast hne]
      rfl
    · obtain ⟨r, k', v', hr, h', hrep'⟩ := hdone
        (vwp_lookupLast hc hp hproc h (by rw [elems_eq_components]; exact hne))
      rw [View.resolve_target] at h'
      exact ⟨r, k', hr, h'.returned hrep hc hrep'⟩

end

/-- The theorem at an example: `/./..` in the file system that has only its root directory. -/
theorem namei_resolves_root :
    Resolves demoGeo crowded (crowded.view demoGeo) 0 [47, 46, 47, 46, 46] := by
  refine (namei_resolves (X := False) tiny_rep crowded_quiet.idle.calm (by decide)
    (by simp [Kernel.view, tiny]) _).2 fun parent => ?_
  have htrail : ∀ s ∈ trail (fileOf demoGeo tinyDisk) parent [[46], [46, 46]] ROOTINO,
      s.1 = ROOTINO ∧ ∀ n ∈ s.2, n = ROOTINO := by
    cases parent <;> decide +kernel
  have hstart : ∀ m, (crowded.view demoGeo).start 0 [47, 46, 47, 46, 46] = some m → m = ROOTINO :=
    fun m hm => (Option.some.inj hm).symm
  refine ⟨⟨fun _ => .inl ⟨0, by decide +kernel, rfl⟩, fun m hm s hs n hn => ?_⟩, fun m hm s hs => ?_⟩
  · rw [hstart m hm] at hs
    obtain ⟨h1, h2⟩ := htrail s hs
    exact .inl ((h2 n hn).trans h1.symm)
  · rw [hstart m hm] at hs
    rw [(htrail s hs).1]
    show fileOf demoGeo tinyDisk ROOTINO ≠ none
    rw [Ne, fileOf_eq_none, tiny_table]
    decide

/-- Make the directories `a` and `a/b`, go to `a/b`, and remove both. -/
def strand : P Unit := do
  let _ ← sys_mkdir [97]
  let _ ← sys_mkdir [97, 47, 98]
  let _ ← sys_chdir [97, 47, 98]
  let _ ← sys_unlink [47, 97, 47, 98]
  let _ ← sys_unlink [47, 97]

/-- **A lookup through `..` panics** once the parent of the current directory has been removed. -/
theorem namei_through_freed : Quiet demoGeo crowded ∧ ∃ k, strand.run (exec 0) crowded = .ok ((), k) ∧
    (namei [46, 46, 47, 99]).run (exec 0) k = .error .ilockNoType ∧
    ¬ Resolves demoGeo k (k.view demoGeo) 0 [46, 46, 47, 99] := by
  have hrun : (match strand.run (exec 0) crowded with
      | .ok (_, k) => (match (namei [46, 46, 47, 99]).run (exec 0) k with
        | .ok _ => false
        | .error e => e == .ilockNoType)
      | .error _ => false) = true := by decide +kernel
  split at hrun
  · next k hk =>
    split at hrun
    · cases hrun
    · next e he =>
      obtain rfl : e = .ilockNoType := by simpa using hrun
      refine ⟨crowded_quiet, k, hk, he, fun h => ?_⟩
      obtain ⟨r, k', hr, -⟩ := h.namei
      rw [he] at hr
      cases hr
  · cases hrun

end Dixv6.Sys
