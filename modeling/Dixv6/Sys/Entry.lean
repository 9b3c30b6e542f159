import Dixv6.Sys.Lookup
import Dixv6.Sys.Table
import Dixv6.Sys.Stray

/-!
# New directory entries

`dirlink` and `create` on views. The write of a new entry may run out of data blocks, and from it on
the kernel is followed instead of its view (`Strayed`): the call has got past the point where it can
fail without a trace, and what is left to know is that **the new inode is allocated** (`StrayedNode`).
-/

namespace Dixv6.Sys

open Lib Fs Function

section
variable {c : Terms} {v v' : View} {H : Nat → Nat} {L : Finset Nat} {p i m n : Nat} {sl : Slot}
  {f : AFile} {name : Name} {type major minor : Int16}

/-! ## `dirlink` -/

/-- The loop of `dirlink` only reads. -/
theorem vwp_dirlinkFrom (hl : v.Locked i sl f) (ht : f.type = T_DIR) (count j : Nat)
    (hj : j + count = f.count) :
    vwp c p (dirlinkFrom i count (DESIZE * j)) (fun _ v' => v' = v) v := by
  induction count generalizing j with
  | zero => exact vwp_pure rfl
  | succ count ih =>
    refine vwp_seq (vwp_readDirent hl ht (j := j) (by omega)) ?_
    rintro _ _ _ ⟨rfl, rfl⟩
    exact vwp_ite (fun _ => vwp_pure rfl) fun _ => ih (j + 1) (by omega)

/-- **`dirlink` changes nothing if there is an entry of that name**, and otherwise no inode but the
directory. -/
theorem vwpOr_dirlink (hall : ∀ e, c.E e) (hl : v.Locked i sl f) (ht : f.type = T_DIR)
    (hc : Calm v H L) (hL : ∀ j ∈ L, 0 < v.held j + H j) (htr : v.trans = true) :
    vwpOr c p (fun r k => r = true ∧ Strayed c v k) (dirlink i name n)
      (fun r v' => r = false ∧ Calm v' H L ∧ Frame H v v') v := by
  refine vwpOr_seq (vwp_dirlookup hl ht hc (hall _)) fun r v1 _ h1 => ?_
  rcases r with _ | ⟨ip, off⟩
  · obtain ⟨rfl, -⟩ := h1
    refine vwpOr_op fun hw => ⟨sl, f, hl, fun x _ _ _ hxs => ?_⟩
    simp only [AFile.direntCount hxs (hw.tidy _ f hl.file ht).1]
    refine vwpOr_seq (vwp_dirlinkFrom hl ht f.count 0 (Nat.zero_add _)) ?_
    rintro off _ _ rfl
    refine vwpOr_stray fun k hk => ?_
    refine wp_post (hk.stray hl (by rw [ht]; decide) (hall _) (hall _) htr) fun r k' h' => ?_
    exact Prog.wp_run_ite (fun _ => hall _) fun _ => ⟨rfl, h'.1⟩
  · obtain ⟨j, hj, -, hc1, hs1, hf1, -⟩ := h1
    refine vwpOr_seq (vwp_iput_safe hc1 hs1 fun hi => ?_) fun _ v' _ h' => vwpOr_pure ?_
    · rw [hf1.held]; exact hL ip hi
    · exact ⟨rfl, h'.1, hf1.trans h'.2⟩

/-! ## `create` -/

/-- Files change, but none loses the entry that keeps it. -/
theorem Calm.edit (h : Calm v H L) (hs : v'.slot = v.slot) (hh : ∀ i, v'.held i = v.held i)
    (hf : ∀ m f, v'.files m = some f → f.nlink = 0 → (∃ f', v.files m = some f' ∧ f'.nlink = 0) ∨
      ∃ i sl, v.slot i = some sl ∧ sl.inum = m ∧ sl.valid = true) : Calm v' H L where
  refs i := by rw [View.refs, hs, hh]; exact h.refs i
  busy i := by rw [hs]; exact h.busy i
  linked m f hm hn := by
    rw [hs]
    rcases hf m f hm hn with ⟨f', hf', hn'⟩ | h'
    · exact h.linked m f' hf' hn'
    · exact h'

/-- An inode that `ialloc` has made and `create` has filled in. -/
def AFile.fresh (type major minor : Int16) : AFile :=
  { AFile.empty type with major, minor, nlink := 1 }

/-- A new inode, locked, and nothing else. -/
structure Fresh (H : Nat → Nat) (L : Finset Nat) (v : View) (type major minor : Int16) (m j : Nat)
    (v' : View) : Prop where
  free : v.files m = none
  calm : Calm v' (more H j) (insert j L)
  notMem : j ∉ L
  slot : ∃ sl, v'.slot j = some sl ∧ sl.busy = true ∧ sl.valid = true ∧ sl.inum = m
  other : ∀ i ≠ j, v'.slot i = v.slot i
  eq : v' = { v with
    files := update v.files m (some (.fresh type major minor))
    slot := v'.slot
    room := v'.room }

/-- `create`, up to the new inode. -/
theorem vwpOr_freshInode {α : Type} {Q : α → View → Prop} {S : α → Kernel → Prop}
    {next : Nat → Inode → P α} (hall : ∀ e, c.E e) (hc : Calm v H L)
    (hL : ∀ j ∈ L, ∀ n, v.inumAt j = some n → v.files n ≠ none) (htr : v.trans = true)
    (hty : type ≠ 0)
    (hnext : ∀ m j x v', Fresh H L v type major minor m j v' → vwpOr c p S (next j x) Q v') :
    vwpOr c p S (do
      let ip ← call (.ialloc type)
      call (.ilock ip)
      call (.iupdate ip fun _ => { major, minor, nlink := 1 })
      let x ← call (.inode ip)
      next ip x) Q v := by
  have hbig : c.E .tooBig := hall _
  refine vwpOr_op fun hw => ⟨hty, htr, .inl hbig, hall _, hall _,
    fun m j sl _ _ hnone _ hget => ?_⟩
  obtain ⟨hc1, -, -, hi1⟩ := hc.iget hw hget
  have hjL : j ∉ L := fun hj => by
    cases hget with
    | old sl hs hinum => exact hL j hj m (by rw [View.inumAt_of_slot hs, hinum]) hnone
    | new _ hs =>
      obtain ⟨sl', h1, -⟩ := (hc.busy j).1 hj
      rw [hs] at h1; cases h1
  have hinum : sl.inum = m := by
    rw [View.inumAt_of_slot (update_self _ _ _)] at hi1
    exact Option.some.inj hi1
  refine vwpOr_op fun _ => ⟨sl, update_self _ _ _, fun _ => hall _, fun hnof => ?_,
    fun _ _ => ?_⟩
  · simp [View.setSlot, View.log, View.setFile, hinum] at hnof
  refine vwpOr_op fun _ => ⟨{ sl with busy := true, valid := true }, .empty type,
    ⟨update_self _ _ _, rfl, ?_⟩, htr, .inl hbig, ?_⟩
  · simp [View.setSlot, View.log, View.setFile, hinum]
  refine vwpOr_op fun _ => ⟨{ sl with busy := true, valid := true }, .fresh type major minor,
    ⟨update_self _ _ _, rfl, ?_⟩, fun x _ _ _ _ => ?_⟩
  · simp [View.setSlot, View.log, View.setFile, AFile.fresh, hinum]
  refine hnext m j x _ ⟨hnone, ?_, hjL, ⟨{ sl with busy := true, valid := true },
    update_self _ _ _, rfl, rfl, hinum⟩, fun i hi => ?_, ?_⟩
  · have hc2 : Calm ((v.setSlot j (some sl)).setSlot j (some { sl with busy := true, valid := true }))
        (more H j) (insert j L) :=
      hc1.setSlot (update_self _ _ _) rfl (fun _ => rfl) rfl (fun _ _ => rfl) (by simp)
        fun i hi => by simp [hi]
    refine hc2.edit rfl (fun _ => rfl) fun n f hf hn => ?_
    by_cases hnm : n = m
    · subst hnm
      simp only [View.setFile, View.log, View.setSlot, hinum, update_self,
        Option.some.injEq] at hf
      rw [← hf] at hn
      exact absurd hn (show (1 : Int16) ≠ 0 by decide)
    · refine .inl ⟨f, ?_, hn⟩
      simp only [View.setFile, View.log, View.setSlot, hinum, update_of_ne hnm] at hf
      exact hf
  · simp [View.setFile, View.log, View.setSlot, update_of_ne hi]
  · simp only [View.setFile, View.log, View.setSlot, hinum, update_idem]
    rfl

/-- A reference that another one backs is not the last one. -/
theorem Calm.not_dying (h : Calm v (more H i) L) (hs : v.slot i = some sl) (hsafe : Safe v H i)
    (f : AFile) : ¬ v.Dying sl f := fun hd => by
  have hr := h.refs i
  have := hsafe sl.inum f (View.inumAt_of_slot hs) hd.file hd.nlink
  rw [View.refs_of_slot hs, more_self, hd.ref] at hr
  omega

/-- `iunlockput` on a kernel without a view, of a reference that is not the last one. -/
theorem Strayed.iunlockput {k : Kernel} (h : Strayed c v k) (hs : v.slot i = some sl)
    (hb : sl.busy = true) (hv : v.files sl.inum ≠ none) (hd : ∀ f, ¬ v.Dying sl f) :
    wp ((iunlockput i).run (exec p)) (fun _ k' => ∃ sl', Strayed c (v.setSlot i sl') k') c.E k := by
  refine Prog.wp_run_seq ((Prog.wp_run_lift _).2 (h.iunlock hs hb)) fun _ k1 h1 => ?_
  have hs1 : (v.setSlot i (some { sl with busy := false })).slot i =
      some { sl with busy := false } := update_self _ _ _
  refine (Prog.wp_run_lift _).2 (wp_post (h1.iput hs1 (fun _ => hv) fun f hf => ?_)
    fun _ k2 h2 => ?_)
  · exact hd f ⟨hf.ref, hf.valid, hf.file, hf.nlink⟩
  · refine ⟨Slot.drop { sl with busy := false }, ?_⟩
    simpa only [View.setSlot, update_idem] using h2

/-- The kernel in which a new inode has been made, and its entry. -/
def StrayedNode (c : Terms) (v : View) (j : Nat) (k : Kernel) : Prop :=
  ∃ w sl a, Strayed c w k ∧ w.slot j = some sl ∧ sl.busy = true ∧ sl.valid = true ∧
    w.files sl.inum = some a ∧ a.nlink = 1 ∧ v.files sl.inum = none ∧ w.file = v.file ∧
    w.proc = v.proc

/-- **`create`, once the name is known to be free**, of an inode that is not a directory. -/
theorem vwpOr_createNew (hall : ∀ e, c.E e) (hl : v.Locked i sl f)
    (ht : f.type = T_DIR) (hc : Calm v (more H i) {i}) (hsafe : Safe v H i) (htr : v.trans = true)
    (hty : type ≠ 0) (hdir : type ≠ T_DIR) :
    vwpOr c p (StrayedNode c v) (createNew i name type major minor) (fun _ _ => False) v := by
  have hnum := View.inumAt_of_slot hl.slot
  refine vwpOr_freshInode hall hc (fun j hj n hn => ?_) htr hty fun m j x v1 hfresh => ?_
  · rw [Finset.mem_singleton.1 hj, hnum] at hn
    rw [← Option.some.inj hn, hl.file]
    simp
  have hij : i ≠ j := fun e => hfresh.notMem (Finset.mem_singleton.2 e.symm)
  have hne : m ≠ sl.inum := fun e => by
    have := hfresh.free
    rw [e, hl.file] at this; cases this
  obtain ⟨slj, hsj, hbj, hvj, rfl⟩ := hfresh.slot
  have hfiles1 : v1.files = update v.files slj.inum (some (.fresh type major minor)) := by
    rw [hfresh.eq]
  have hl1 : v1.Locked i sl f := ⟨by rw [hfresh.other i hij]; exact hl.slot, hl.busy, by
    rw [hfiles1, update_of_ne hne.symm]; exact hl.file⟩
  have hheld1 : v1.held i = v.held i := by rw [hfresh.eq]; rfl
  have hL : ∀ q ∈ insert j ({i} : Finset Nat), 0 < v1.held q + more (more H i) j q := fun q hq => by
    rcases Finset.mem_insert.1 hq with rfl | hq
    · rw [more_self]; omega
    · rw [Finset.mem_singleton.1 hq, more_of_ne hij, more_self]; omega
  refine vwpOr_seq (R := fun _ v' => v' = v1) (vwp_ite (fun h => absurd h hdir) fun _ => vwp_pure rfl) ?_
  rintro _ _ _ rfl
  refine vwpOr_seqOr (vwpOr_dirlink hall hl1 ht hfresh.calm hL (by rw [hfresh.eq]; exact htr))
    (fun r v2 _ h2 => ?_) ?_
  · rw [h2.1]
    exact (vwp_panic (hall _)).or
  · -- the directory is let go of, and the new inode stays
    rintro r k ⟨rfl, hstray⟩
    have hsafe1 : Safe _ (more H j) i := fun n b hn hb hz => by
      rw [View.inumAt_of_slot hl1.slot, Option.some.injEq] at hn
      rw [← hn, hl1.file, Option.some.injEq] at hb
      rw [hheld1, more_of_ne hij]
      exact hsafe sl.inum f hnum hl.file (by rw [hb]; exact hz)
    have hcalm := hfresh.calm
    rw [more_comm] at hcalm
    refine Prog.wp_run_seq (hstray.iunlockput hl1.slot hl.busy (by rw [hl1.file]; simp)
      (hcalm.not_dying hl1.slot hsafe1)) ?_
    rintro _ k' ⟨sl', hstray'⟩
    refine ⟨_, slj, .fresh type major minor, hstray', ?_, hbj, hvj, ?_, rfl, hfresh.free, ?_, ?_⟩
    · simp only [View.setSlot, update_of_ne hij.symm]
      exact hsj
    · simp only [View.setSlot, hfiles1, update_self]
    all_goals rw [hfresh.eq]; rfl

/-- What `create` leaves behind if it makes no inode. -/
inductive Creates (H : Nat → Nat) (p : Nat) (path : Path) (type : Int16) (v : View) :
    Option Nat → View → Prop where
  /-- There is no directory to create the file in. -/
  | noParent {v' : View} (hr : v.resolve p path true = none) (hc : Calm v' H ∅)
      (hf : Frame H v v') : Creates H p path type v none v'
  /-- The name is taken, and not by a file that may be opened instead. -/
  | taken {v' : View} {md j : Nat} {d : AFile} (hr : v.resolve p path true = some md)
      (hd : v.files md = some d) (hj : d.lookup (lastElem path) = some j) (hc : Calm v' H ∅)
      (hf : Frame H v v') : Creates H p path type v none v'
  /-- There is a file of that name. -/
  | old {v' : View} {md j i : Nat} {d a : AFile} {sl : Slot} (hr : v.resolve p path true = some md)
      (hd : v.files md = some d) (hj : d.lookup (lastElem path) = some j) (ht : type = T_FILE)
      (hc : Calm v' (more H i) {i}) (hsafe : Safe v' H i) (hf : Frame H v v')
      (hl : v'.Locked i sl a) : Creates H p path type v (some i) v'

/-- **`create`** finds the file or makes an inode, or changes nothing. -/
theorem vwpOr_create {path : Path} (hall : ∀ e, c.E e) (hc : Calm v H ∅)
    (hp : p < NPROC) (hproc : v.proc p ≠ none) (htr : v.trans = true) (hty : type ≠ 0) :
    vwpOr c p (fun r k => ∃ i, r = some i ∧ (type ≠ T_DIR →
        ∃ md d, v.resolve p path true = some md ∧ v.files md = some d ∧
          d.lookup (lastElem path) = none ∧ StrayedNode c v i k))
      (create path type major minor) (Creates H p path type v) v := by
  refine vwpOr_seq (vwp_nameiparent hc hp hproc hall) fun r v1 _ h₁ => ?_
  rcases r with _ | ⟨dp, name⟩
  · exact vwpOr_pure (.noParent h₁.1 h₁.2.1 h₁.2.2)
  obtain ⟨rfl, md, d, hpar⟩ := h₁
  refine vwpOr_seq hpar.vwp_ilock ?_
  rintro _ v2 _ ⟨sl, hl, rfl, hc2, hs2, hf2⟩
  refine vwpOr_seq (vwp_dirlookup hl hpar.type hc2 (hall _)) fun r v3 _ h₃ => ?_
  rcases r with _ | ⟨ip, off⟩
  · obtain ⟨rfl, hnone⟩ := h₃
    by_cases hd : type = T_DIR
    · -- a new directory: the call cannot fail any more
      refine vwpOr_seqOr (T := fun _ _ => True) (R := fun _ _ => False) (vwpOr_stray fun k _ => ?_)
        (fun _ _ _ h => h.elim) fun i k _ => ⟨i, rfl, fun h => absurd hd h⟩
      exact wp_mono wp_any (fun _ _ _ => wp_mono wp_any (fun _ _ h => h) fun e _ => hall e)
        fun e _ => hall e
    have heq := hf2.eq
    refine vwpOr_seqOr (vwpOr_createNew hall hl hpar.type hc2 hs2 (by rw [heq]; exact htr) hty hd)
      (fun i v4 _ h₄ => h₄.elim) fun i k hk => ⟨i, rfl, fun _ => ⟨_, d, hpar.resolve, hpar.file, hnone, ?_⟩⟩
    obtain ⟨w, slw, a, h1, h2, h3, h4, h5, h6, h7, h8, h9⟩ := hk
    exact ⟨w, slw, a, h1, h2, h3, h4, h5, h6, by rw [← hf2.files]; exact h7, by rw [h8, heq],
      by rw [h9, heq]⟩
  · refine vwpOr_seq (vwp_leaveDir hl hc2 hs2 h₃) ?_
    rintro _ v4 _ ⟨j, hj, hc4, hs4, hf4, hn4⟩
    have hpos : 0 < v4.held ip + more H ip ip := by rw [more_self]; omega
    refine vwpOr_seq (vwp_ilock hc4 hpos (fun _ => hall _) (.inl (hall _))) ?_
    rintro _ v5 _ ⟨slp, a, hlp, -, -, hc5, hf5⟩
    have hs5 := hs4.of_frame hf5.of_more (hf5.inum ip hpos)
    have hfr5 : Frame H v v5 := (hf2.trans hf4).trans hf5.of_more
    refine vwpOr_op fun _ => ⟨slp, a, hlp, fun x _ hxt _ _ => vwpOr_ite (fun ht => vwpOr_pure ?_)
      fun _ => ?_⟩
    · exact .old hpar.resolve hpar.file hj ht.1 hc5 hs5 hfr5 hlp
    · refine vwpOr_seq (vwp_iunlockput_safe hc5 hlp.slot hlp.busy hs5) fun _ v6 _ h₆ => vwpOr_pure ?_
      rw [show (insert ip (∅ : Finset Nat)).erase ip = ∅ by simp] at h₆
      exact .taken hpar.resolve hpar.file hj h₆.1 (hfr5.trans h₆.2)

end

end Dixv6.Sys
