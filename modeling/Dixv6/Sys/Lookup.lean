import Dixv6.Sys.Handle

/-!
# Looking up names

What `dirlookup` and `namex` find, on views: `AFile.lookup` is the index of a name's entry in a
directory, and `walk` follows the elements of a path from inode to inode.

`vwp_namex` says that `namex` returns a reference to the inode that `walk` finds, and that it changes
**no file, no open file and no reference but the one that it returns**.
-/

namespace Dixv6.Sys

open Lib Fs

/-- The index of the entry that `dirlookup` finds for a name. -/
def AFile.lookup (f : AFile) (name : Name) : Option Nat :=
  (List.range f.count).find? fun j => (f.dirent j).inum ≠ 0 ∧ (f.dirent j).name = name

/-- The inode number that a walk along names ends at; with `parent`, the directory that the last
name is in. -/
def walk (files : Nat → Option AFile) (parent : Bool) : List Name → Nat → Option Nat
  | [], m => if parent then none else some m
  | name :: names, m => (files m).bind fun f =>
    if f.type ≠ T_DIR then none
    else if parent ∧ names = [] then some m
    else (f.lookup name).bind fun j => walk files parent names (f.dirent j).inum

namespace View

/-- Where the walk along a path starts: at the root or in the current directory. -/
def start (v : View) (p : Nat) (path : Path) : Option Nat :=
  if path.head? = some slash then some ROOTINO
  else (v.proc p).bind fun x => v.inumAt x.cwd

/-- The inode number that a path stands for; with `parent`, the directory that its last element
is in. -/
def resolve (v : View) (p : Nat) (path : Path) (parent : Bool) : Option Nat :=
  (v.start p path).bind (walk v.files parent (elems path))

end View

/-- The inodes that a walk locks, each with the inode that it looks up there. -/
def trail (files : Nat → Option AFile) (parent : Bool) : List Name → Nat → List (Nat × Option Nat)
  | [], _ => []
  | name :: names, m =>
    match files m with
    | none => [(m, none)]
    | some f =>
      if f.type ≠ T_DIR ∨ parent ∧ names = [] then [(m, none)]
      else
        match f.lookup name with
        | none => [(m, none)]
        | some j => (m, some (f.dirent j).inum) :: trail files parent names (f.dirent j).inum

/-- An entry of the cache that is referred to is the one of inode `n`. -/
def View.Cached (v : View) (H : Nat → Nat) (n : Nat) : Prop :=
  ∃ i, 0 < v.held i + H i ∧ v.inumAt i = some n

/-- The cache has an entry for inode `n`, or a free one. -/
def View.Fits (v : View) (H : Nat → Nat) (n : Nat) : Prop :=
  v.Cached H n ∨ ∃ j < NINODE, v.held j + H j = 0

/-- The cache has an entry for inode `n`, or a free one, beside the entry for inode `m`. -/
def View.Room (v : View) (H : Nat → Nat) (m n : Nat) : Prop :=
  n = m ∨ v.Cached H n ∨ ∃ j < NINODE, v.held j + H j = 0 ∧
    (v.Cached H m ∨ ∃ j' < NINODE, j' ≠ j ∧ v.held j' + H j' = 0)

/-- A walk finds a cache entry for each of its inodes. -/
def View.Roomy (v : View) (H : Nat → Nat) (parent : Bool) (names : List Name) (m : Nat) : Prop :=
  ∀ s ∈ trail v.files parent names m, ∀ n ∈ s.2, v.Room H s.1 n

/-- A walk comes to no inode that has been freed. -/
def Solid (files : Nat → Option AFile) (parent : Bool) (names : List Name) (m : Nat) : Prop :=
  ∀ s ∈ trail files parent names m, files s.1 ≠ none

section
variable {c : Terms} {v v1 v' : View} {H : Nat → Nat} {L : Finset Nat} {p i m j n : Nat} {sl : Slot}
  {f : AFile} {name : Name} {parent : Bool} {path : Path}

/-- An entry is a matter of its sixteen bytes. -/
theorem getDirent_congr {b b' : Bytes} (h : ∀ o < DESIZE, b o = b' o) :
    getDirent b = getDirent b' := by
  have h1 : b.leGet 0 2 = b'.leGet 0 2 :=
    Bytes.leGet_congr 2 0 fun i _ hi => h i (by lia)
  have h2 : ((List.range DIRSIZ).map fun p => b (2 + p)) =
      (List.range DIRSIZ).map fun p => b' (2 + p) :=
    List.map_congr_left fun p hp => h _ (by
      have := List.mem_range.1 hp
      lia)
  rw [getDirent, getDirent, h1, h2]

/-- The entries of a directory end where it ends. -/
theorem AFile.dirent_end (hj : j < f.count) : DESIZE * j + DESIZE ≤ f.size := by
  simp only [AFile.count, DESIZE] at *
  omega

/-- A directory that is made of whole entries. -/
theorem AFile.direntCount {size : UInt32} (hs : size.toNat = f.size) (hd : DESIZE ∣ f.size) :
    direntCount size = f.count := by
  rw [Sys.direntCount, hs, AFile.count]
  lia

/-- Reading an entry of a locked directory. -/
theorem vwp_readDirent {e : Stop} (hl : v.Locked i sl f) (ht : f.type = T_DIR) (hj : j < f.count) :
    vwp c p (readDirent i (DESIZE * j) e) (fun de v' => v' = v ∧ de = f.dirent j) v := by
  refine vwp_op fun hw => ?_
  have hend := AFile.dirent_end hj
  have hsize := (hw.inum _ f hl.file).2.2
  have hdev : f.type ≠ T_DEV := by rw [ht]; decide
  have hoff : (UInt32.ofNat (DESIZE * j)).toNat = DESIZE * j := UInt32.toNat_ofNat_of_lt' (by
    simp only [UInt32.size, DESIZE] at *; omega)
  have hn : (UInt32.ofNat DESIZE).toNat = DESIZE := by decide
  refine ⟨sl, f, hl, fun h => absurd h hdev, fun _ hout => ?_, fun _ _ b hb => ?_⟩
  · lia
  · have hmin : min ((UInt32.ofNat (DESIZE * j)).toNat + (UInt32.ofNat DESIZE).toNat) f.size -
        (UInt32.ofNat (DESIZE * j)).toNat = DESIZE := by
      rw [hoff, hn]
      lia
    simp only [hmin, if_true]
    refine vwp_pure ⟨rfl, getDirent_congr fun o ho => ?_⟩
    rw [hb o (by rw [hmin]; exact ho), hoff]

/-- What `dirlookup` finds, and the reference to it. -/
def Found (H : Nat → Nat) (L : Finset Nat) (f : AFile) (name : Name) (v : View) :
    Option (Nat × Nat) → View → Prop
  | none, v' => v' = v ∧ f.lookup name = none
  | some (i, off), v' => ∃ j, f.lookup name = some j ∧ off = DESIZE * j ∧
      Calm v' (more H i) L ∧ Safe v' H i ∧ Frame H v v' ∧ v'.inumAt i = some (f.dirent j).inum

theorem vwp_dirlookupFrom (hl : v.Locked i sl f) (ht : f.type = T_DIR) (hc : Calm v H L)
    (hE : ∀ j, f.lookup name = some j → v.Packed (f.dirent j).inum → c.E .igetNoInodes) (count j : Nat)
    (hj : j + count = f.count)
    (hno : ∀ x < j, ¬ ((f.dirent x).inum ≠ 0 ∧ (f.dirent x).name = name)) :
    vwp c p (dirlookupFrom i name count (DESIZE * j)) (fun r v' => Found H L f name v r v' ∧
      ∀ j, f.lookup name = some j → ¬ v.Packed (f.dirent j).inum) v := by
  induction count generalizing j with
  | zero =>
    have hnone : f.lookup name = none := List.find?_range_eq_none.2 fun x hx => by
      simp only [Bool.not_eq_true', decide_eq_false_iff_not]
      exact hno x (by omega)
    exact vwp_pure ⟨⟨rfl, hnone⟩, fun j hj => by rw [hnone] at hj; cases hj⟩
  | succ count ih =>
    refine vwp_seq (vwp_readDirent hl ht (j := j) (by omega)) ?_
    rintro _ _ hw ⟨rfl, rfl⟩
    refine vwp_ite (fun h => ?_) fun h => ?_
    · have hlook : f.lookup name = some j := List.find?_range_eq_some.2
        ⟨decide_eq_true h, List.mem_range.2 (by omega), fun x hx => by
          simp only [Bool.not_eq_true', decide_eq_false_iff_not]
          exact hno x hx⟩
      have hlt := (hw.tidy _ f hl.file ht).2 j (by omega)
      refine vwp_seq (vwp_iget hc hlt (hE j hlook)) fun ip v1 _ h1 => vwp_pure ?_
      refine ⟨⟨j, hlook, rfl, h1.1⟩, fun j' hj' => ?_⟩
      obtain rfl := Option.some.inj (hlook.symm.trans hj')
      exact h1.2
    · refine ih (j + 1) (by omega) fun x hx => ?_
      rcases Nat.lt_or_ge x j with hlt | hge
      · exact hno x hlt
      · obtain rfl : x = j := by omega
        exact h

/-- **`dirlookup` finds the first entry of the name**, and a cache entry for the inode. -/
theorem vwp_dirlookup_room (hl : v.Locked i sl f) (ht : f.type = T_DIR) (hc : Calm v H L)
    (hE : ∀ j, f.lookup name = some j → v.Packed (f.dirent j).inum → c.E .igetNoInodes) :
    vwp c p (dirlookup i name) (fun r v' => Found H L f name v r v' ∧
      ∀ j, f.lookup name = some j → ¬ v.Packed (f.dirent j).inum) v := by
  refine vwp_op fun hw => ⟨sl, f, hl, fun x _ hxt _ hxs => vwp_ite (fun h => ?_) fun _ => ?_⟩
  · exact absurd (hxt.trans ht) h
  · rw [AFile.direntCount hxs (hw.tidy _ f hl.file ht).1]
    exact vwp_dirlookupFrom hl ht hc hE f.count 0 (Nat.zero_add _) fun x hx => by omega

theorem vwp_dirlookup (hl : v.Locked i sl f) (ht : f.type = T_DIR) (hc : Calm v H L)
    (hE : c.E .igetNoInodes) : vwp c p (dirlookup i name) (Found H L f name v) v :=
  vwp_mono (vwp_dirlookup_room hl ht hc fun _ _ _ => hE) fun _ _ _ h => h.1

/-- More references in hand keep a reference safe. -/
theorem Safe.more (h : Safe v H i) : Safe v (more H j) i := fun m f hm hf hn => by
  have := h m f hm hf hn
  have := le_more H j i
  omega

/-- A directory that a name has been found in is let go of. -/
theorem vwp_leaveDir {next off : Nat} (hl : v.Locked i sl f) (hc : Calm v (more H i) {i})
    (hs : Safe v H i) (h : Found (more H i) {i} f name v (some (next, off)) v1) :
    vwp c p (iunlockput i) (fun _ v' => ∃ j, f.lookup name = some j ∧ Calm v' (more H next) ∅ ∧
      Safe v' H next ∧ Frame H v v' ∧ v'.inumAt next = some (f.dirent j).inum) v1 := by
  obtain ⟨j, hj, -, hc1, hs1, hf1, hn1⟩ := h
  have hpos : 0 < v.held i + more H i i := by rw [more_self]; omega
  have hi := hf1.inum i hpos
  obtain ⟨sl1, hsl1, hbusy⟩ := (hc1.busy i).1 (Finset.mem_singleton_self i)
  rw [more_comm] at hc1
  refine vwp_mono (vwp_iunlockput_safe hc1 hsl1 hbusy (hs.of_frame hf1.of_more hi).more)
    fun _ v' _ h' => ?_
  obtain ⟨hc', hf'⟩ := h'
  rw [show ({i} : Finset Nat).erase i = ∅ by simp] at hc'
  have hf : Frame H v v' := hf1.of_more.trans hf'.of_more
  have hn' := (hf'.inum next (by rw [more_self]; omega)).trans hn1
  refine ⟨j, hj, hc', ?_, hf, hn'⟩
  -- the entry is safe: if it is the directory itself, that one was
  by_cases hne : next = i
  · subst hne
    exact hs.of_frame hf (hn'.trans (hn1.symm.trans hi))
  · intro m' f' hm' hf'' h0
    have h' := hs1 m' f' (by rw [hn1, ← hn']; exact hm') (by rw [hf1.files, ← hf.files]; exact hf'') h0
    rw [more_of_ne hne, hf1.held, ← hf.held] at h'
    exact h'

/-- What a lookup of a path leaves behind: a reference to the inode, or none. -/
def Walked (H : Nat → Nat) (o : Option Nat) (v : View) : Option Nat → View → Prop
  | none, v' => o = none ∧ Calm v' H ∅ ∧ Frame H v v'
  | some i, v' => Calm v' (more H i) ∅ ∧ Safe v' H i ∧ Frame H v v' ∧
      ∃ m, o = some m ∧ v'.inumAt i = some m

theorem Walked.of_frame {o : Option Nat} {r : Option Nat} (hf : Frame H v v1)
    (h : Walked H o v1 r v') : Walked H o v r v' := by
  cases r with
  | none => exact ⟨h.1, h.2.1, hf.trans h.2.2⟩
  | some i => exact ⟨h.1, h.2.1, hf.trans h.2.2.1, h.2.2.2⟩

/-- A packed cache is one that an inode does not fit in. -/
theorem Calm.packed_iff {g : Geo} (hc : Calm v H L) (hw : Wf g v) : v.Packed n ↔ ¬ v.Fits H n := by
  have hfree : ∀ j, v.slot j = none ↔ v.held j + H j = 0 := by
    intro j
    rw [← hc.refs j]
    cases hs : v.slot j with
    | none => simp [View.refs, hs]
    | some sl =>
      have hpos := (hw.slot j sl hs).2.1
      rw [View.refs_of_slot hs]
      exact iff_of_false (by simp) (by omega)
  constructor
  · rintro hfull (⟨i, -, hn⟩ | ⟨j, hlt, hj⟩)
    · obtain ⟨sl, hs, rfl⟩ := Option.map_eq_some_iff.1 hn
      obtain ⟨sl', hs', hne⟩ := hfull i (hw.bound i sl hs)
      exact hne (Option.some.inj (hs'.symm.trans hs) ▸ rfl)
    · obtain ⟨sl, hs, -⟩ := hfull j hlt
      rw [(hfree j).2 hj] at hs
      cases hs
  · intro hno j hlt
    cases hs : v.slot j with
    | none => exact absurd (.inr ⟨j, hlt, (hfree j).1 hs⟩) hno
    | some sl =>
      refine ⟨sl, rfl, fun he => hno (.inl ⟨j, ?_, by rw [View.inumAt_of_slot hs, he]⟩)⟩
      refine Nat.pos_of_ne_zero fun h0 => ?_
      rw [(hfree j).2 h0] at hs
      cases hs

/-- What fits beside the entry that one more reference is to. -/
theorem View.fits_more {g : Geo} (hw : Wf g v) (hm : v.inumAt i = some m) :
    v.Fits (more H i) n ↔ v.Room H m n := by
  obtain ⟨sl, hs, rfl⟩ := Option.map_eq_some_iff.1 hm
  constructor
  · rintro (⟨j, hj, hn⟩ | ⟨j, hlt, hj⟩)
    · by_cases hji : j = i
      · exact .inl (Option.some.inj (hn.symm.trans (hji ▸ hm)))
      · exact .inr (.inl ⟨j, by rwa [more_of_ne hji] at hj, hn⟩)
    · have hji : j ≠ i := by rintro rfl; rw [more_self] at hj; omega
      rw [more_of_ne hji] at hj
      refine .inr (.inr ⟨j, hlt, hj, ?_⟩)
      rcases Nat.eq_zero_or_pos (v.held i + H i) with hi | hi
      · exact .inr ⟨i, hw.bound i sl hs, hji.symm, hi⟩
      · exact .inl ⟨i, hi, hm⟩
  · rintro (rfl | ⟨j, hj, hn⟩ | ⟨j, hlt, hj, ⟨k, hk, hn⟩ | ⟨k, hlt', hne, hk⟩⟩)
    · exact .inl ⟨i, by rw [more_self]; omega, hm⟩
    · exact .inl ⟨j, hj.trans_le (Nat.add_le_add_left (le_more H i j) _), hn⟩
    · obtain ⟨sl', hs', he⟩ := Option.map_eq_some_iff.1 hn
      obtain rfl := hw.uniq _ _ _ _ hs' hs he
      exact .inr ⟨j, hlt, by rwa [more_of_ne (by rintro rfl; omega)]⟩
    · by_cases hji : j = i
      · exact .inr ⟨k, hlt', by rwa [more_of_ne (hji ▸ hne)]⟩
      · exact .inr ⟨j, hlt, by rwa [more_of_ne hji]⟩

theorem Frame.cached (h : Frame H v v') : v'.Cached H n ↔ v.Cached H n :=
  exists_congr fun i => by
    rw [h.held]
    exact and_congr_right fun hi => by rw [h.inum i hi]

theorem Frame.room (h : Frame H v v') : v'.Room H m n ↔ v.Room H m n := by
  simp only [View.Room, h.cached, h.held]

theorem Frame.roomy {names : List Name} (h : Frame H v v') :
    v'.Roomy H parent names m ↔ v.Roomy H parent names m := by
  simp only [View.Roomy, h.files, h.room]

theorem vwp_namexFrom : ∀ (names : List Name) (i m : Nat) (v : View),
    Calm v (more H i) ∅ → Safe v H i → v.inumAt i = some m →
    (c.E .igetNoInodes ∨ v.Roomy H parent names m) →
    (c.E .ilockNoType ∨ Solid v.files parent names m) →
    vwp c p (namexFrom parent names i) (fun r v' => Walked H (walk v.files parent names m) v r v' ∧
      v.Roomy H parent names m ∧ Solid v.files parent names m) v
  | [], i, m, v, hc, hs, hm, _, _ => by
    have htrail : v.Roomy H parent [] m ∧ Solid v.files parent [] m :=
      ⟨by simp [View.Roomy, trail], by simp [Solid, trail]⟩
    refine vwp_ite (fun hp => ?_) fun hp => vwp_pure ⟨?_, htrail⟩
    · refine vwp_seq (vwp_iput_safe hc hs fun hi => by simp at hi) fun _ v' _ h' => vwp_pure ?_
      exact ⟨⟨by simp [walk, hp], h'⟩, htrail⟩
    · exact ⟨hc, hs, .refl, m, by simp [walk, hp], hm⟩
  | name :: names, i, m, v, hc, hs, hm, hroom, hsolid => by
    have hpos : 0 < v.held i + more H i i := by rw [more_self]; omega
    refine vwp_seq (vwp_ilock hc hpos (fun h => by simp at h)
      (hsolid.imp id fun h m' hm' hnone => ?_)) ?_
    · obtain rfl := Option.some.inj (hm.symm.trans hm')
      exact h (m, none) (by simp [trail, hnone]) hnone
    rintro _ v1 hw1 ⟨sl, f, hl, hnum, hiL, hc1, hf1⟩
    obtain rfl := Option.some.inj (hm.symm.trans hnum)
    have hs1 := hs.of_frame hf1.of_more (hf1.inum i hpos)
    have hfile : v.files sl.inum = some f := by rw [← hf1.files]; exact hl.file
    have herase : (insert i (∅ : Finset Nat)).erase i = ∅ := Finset.erase_insert hiL
    -- a walk that ends here
    have hlast : trail v.files parent (name :: names) sl.inum = [(sl.inum, none)] →
        v.Roomy H parent (name :: names) sl.inum ∧ Solid v.files parent (name :: names) sl.inum := by
      intro h
      simp [View.Roomy, Solid, h, hfile]
    refine vwp_op fun _ => ⟨sl, f, hl, fun x _ hxt _ _ => vwp_ite (fun ht => ?_) fun ht => ?_⟩
    · -- not a directory
      refine vwp_seq (vwp_iunlockput_safe hc1 hl.slot hl.busy hs1) fun _ v' _ h' => vwp_pure ?_
      rw [herase] at h'
      rw [hxt] at ht
      exact ⟨⟨by rw [walk, hfile, Option.bind_some, if_pos ht], h'.1, hf1.of_more.trans h'.2⟩,
        hlast (by simp [trail, hfile, ht])⟩
    rw [hxt, not_not] at ht
    refine vwp_ite (fun hpar => ?_) fun hpar => ?_
    · -- the parent of the last element
      refine vwp_seq (vwp_iunlock hc1 hl.slot hl.busy) fun _ v2 _ h2 => vwp_pure ?_
      obtain ⟨hc2, hf2, -⟩ := h2
      rw [herase] at hc2
      have hf := hf1.trans hf2
      have hi := hf.inum i hpos
      refine ⟨⟨hc2, hs.of_frame hf.of_more hi, hf.of_more, _, ?_, hi.trans hm⟩,
        hlast (by simp [trail, hfile, hpar])⟩
      simp [walk, hfile, ht, hpar]
    · have htrail : ∀ j, f.lookup name = some j → trail v.files parent (name :: names) sl.inum =
          (sl.inum, some (f.dirent j).inum) :: trail v.files parent names (f.dirent j).inum := by
        intro j hj
        simp only [trail, hfile, hj]
        rw [if_neg (by simp only [ht, ne_eq, not_true_eq_false, false_or]; exact hpar)]
      have hpacked : ∀ n, v1.Packed n ↔ ¬ v.Room H sl.inum n := fun n => by
        rw [hc1.packed_iff hw1, View.fits_more hw1 ((hf1.inum i hpos).trans hm), hf1.of_more.room]
      refine vwp_seq (vwp_dirlookup_room hl ht hc1 fun j hj hfull => ?_) fun r v2 hw2 h2 => ?_
      · refine hroom.resolve_right fun h => (hpacked _).1 hfull (h (sl.inum, _) ?_ _ rfl)
        rw [htrail j hj]
        exact List.mem_cons_self
      obtain ⟨h2, hfound⟩ := h2
      rcases r with _ | ⟨next, off⟩
      · obtain ⟨rfl, hj⟩ := h2
        refine vwp_seq (vwp_iunlockput_safe hc1 hl.slot hl.busy hs1) fun _ v' _ h' => vwp_pure ?_
        rw [herase] at h'
        refine ⟨⟨?_, h'.1, hf1.of_more.trans h'.2⟩, hlast (by simp [trail, hfile, hj])⟩
        rw [walk, hfile, Option.bind_some, if_neg (not_not.2 ht), if_neg hpar, hj, Option.bind_none]
      · refine vwp_seq (vwp_leaveDir hl hc1 hs1 h2) fun _ v3 _ h3 => ?_
        obtain ⟨j, hj, hc3, hs3, hf3, hn3⟩ := h3
        have hf' : Frame H v v3 := hf1.of_more.trans hf3
        have hcons : ∀ {P : Nat × Option Nat → Prop},
            (∀ s ∈ trail v.files parent (name :: names) sl.inum, P s) ↔
              P (sl.inum, some (f.dirent j).inum) ∧
                ∀ s ∈ trail v.files parent names (f.dirent j).inum, P s := by
          rw [htrail j hj]
          exact List.forall_mem_cons
        refine vwp_mono (vwp_namexFrom names next (f.dirent j).inum v3 hc3 hs3 hn3 ?_ ?_)
          fun r v' _ h' => ?_
        · exact hroom.imp id fun h => hf'.roomy.2 (hcons.1 h).2
        · rw [hf'.files]
          exact hsolid.imp id fun h => (hcons.1 h).2
        · rw [hf'.files, hf'.roomy] at h'
          have hwalk : walk v.files parent (name :: names) sl.inum =
              walk v.files parent names (f.dirent j).inum := by
            rw [walk, hfile, Option.bind_some, if_neg (not_not.2 ht), if_neg hpar, hj,
              Option.bind_some]
          rw [hwalk]
          refine ⟨h'.1.of_frame hf', hcons.2 ⟨fun n hn => ?_, h'.2.1⟩, hcons.2 ⟨?_, h'.2.2⟩⟩
          · grind
          · rw [hfile]
            simp

/-- The current directory is referred to. -/
theorem View.held_cwd {x : Proc} (hp : p < NPROC) (hx : v.proc p = some x) : 0 < v.held x.cwd := by
  refine Nat.add_pos_left (Finset.card_pos.2 ⟨p, Finset.mem_filter.2 ⟨?_, ?_⟩⟩) _
  · exact Finset.mem_range.2 hp
  · rw [hx]; rfl

/-- Lookups start where they did as long as current directories stay. -/
theorem View.start_congr (hp : p < NPROC) (hproc : v'.proc = v.proc)
    (hin : ∀ i, 0 < v.held i → v'.inumAt i = v.inumAt i) : v'.start p path = v.start p path := by
  unfold View.start
  rw [hproc]
  cases hx : v.proc p with
  | none => rfl
  | some x => simp only [Option.bind_some, hin x.cwd (View.held_cwd hp hx)]

theorem Frame.start (h : Frame H v v') (hp : p < NPROC) : v'.start p path = v.start p path :=
  View.start_congr hp (by rw [h.eq]) fun i hi => h.inum i (by omega)

theorem Frame.resolve (h : Frame H v v')
    (hp : p < NPROC) : v'.resolve p path parent = v.resolve p path parent := by
  unfold View.resolve
  rw [h.start hp, h.files]

/-- The cache has an entry for each inode that a lookup refers to. -/
def View.PathFits (v : View) (H : Nat → Nat) (p : Nat) (path : Path) (parent : Bool) : Prop :=
  (path.head? = some slash → v.Fits H ROOTINO) ∧
    ∀ m, v.start p path = some m → v.Roomy H parent (elems path) m

/-- A lookup comes to no inode that has been freed. -/
def View.PathSolid (v : View) (p : Nat) (path : Path) (parent : Bool) : Prop :=
  ∀ m, v.start p path = some m → Solid v.files parent (elems path) m

/-- **`namex` finds the inode that the path stands for**, and changes nothing; and it returns only if
the cache has an entry for each inode on the way, and none of them has been freed. -/
theorem vwp_namex_fits (hc : Calm v H ∅) (hp : p < NPROC)
    (hproc : v.proc p ≠ none) (hfits : c.E .igetNoInodes ∨ v.PathFits H p path parent)
    (hsolid : c.E .ilockNoType ∨ v.PathSolid p path parent) :
    vwp c p (namex path parent) (fun r v' => Walked H (v.resolve p path parent) v r v' ∧
      v.PathFits H p path parent ∧ v.PathSolid p path parent) v := by
  have hrest : ∀ i m v1, v.start p path = some m → (path.head? = some slash → v.Fits H ROOTINO) →
      Calm v1 (more H i) ∅ → Safe v1 H i → Frame H v v1 → v1.inumAt i = some m →
      vwp c p (namexFrom parent (elems path) i) (fun r v' =>
        Walked H (v.resolve p path parent) v r v' ∧ v.PathFits H p path parent ∧
          v.PathSolid p path parent) v1 := by
    intro i m v1 hm hroot hc1 hs1 hf1 hi1
    have huniq : ∀ {P : Nat → Prop}, P m → ∀ m', v.start p path = some m' → P m' := fun h m' hm' =>
      Option.some.inj (hm.symm.trans hm') ▸ h
    refine vwp_mono (vwp_namexFrom (elems path) i m v1 hc1 hs1 hi1 ?_ ?_) fun r v' _ h' => ?_
    · exact hfits.imp id fun h => hf1.roomy.2 (h.2 m hm)
    · rw [hf1.files]
      exact hsolid.imp id fun h => h m hm
    · rw [hf1.files, hf1.roomy] at h'
      rw [View.resolve, hm, Option.bind_some]
      exact ⟨h'.1.of_frame hf1, ⟨hroot, huniq h'.2.1⟩, huniq h'.2.2⟩
  refine vwp_ite (fun hroot => ?_) fun hroot => ?_
  · refine vwp_wf fun hw => vwp_seq (vwp_iget hc c.g.inodes_pos fun hfull => ?_) ?_
    · exact hfits.resolve_right fun h => (hc.packed_iff hw).1 hfull (h.1 hroot)
    · rintro i v1 _ ⟨⟨hc1, hs1, hf1, hi1⟩, hfit⟩
      refine hrest i ROOTINO v1 (by rw [View.start, if_pos hroot]) (fun _ => ?_) hc1 hs1 hf1 hi1
      exact not_not.1 fun h => hfit ((hc.packed_iff hw).2 h)
  · obtain ⟨x, hx⟩ := Option.ne_none_iff_exists'.1 hproc
    refine vwp_op fun hw => ?_
    simp only [opSpec, hx, Option.map_some, Option.getD_some]
    have hheld := View.held_cwd hp hx
    obtain ⟨sl, hsl⟩ := hc.slot (i := x.cwd) (by omega)
    refine vwp_seq (vwp_idup hc (i := x.cwd) (by omega)) ?_
    rintro _ v1 _ ⟨rfl, hc1, hs1, hf1, hi1⟩
    have hnum := View.inumAt_of_slot hsl
    refine hrest x.cwd sl.inum v1 ?_ (fun h => absurd h hroot) hc1 hs1 hf1 (hi1.trans hnum)
    rw [View.start, if_neg hroot, hx, Option.bind_some, hnum]

/-- `namex` where it may stop on the way. -/
theorem vwp_namex (hc : Calm v H ∅) (hp : p < NPROC) (hproc : v.proc p ≠ none) (hall : ∀ e, c.E e) :
    vwp c p (namex path parent) (Walked H (v.resolve p path parent) v) v :=
  vwp_mono (vwp_namex_fits hc hp hproc (.inl (hall _)) (.inl (hall _))) fun _ _ _ h => h.1

/-- The parent that a path resolves to is a directory. -/
theorem isDir_of_walk {files : Nat → Option AFile} {m' : Nat} : ∀ (names : List Name) (m : Nat),
    walk files true names m = some m' → ∃ f, files m' = some f ∧ f.type = T_DIR
  | [], _, h => by simp [walk] at h
  | name :: names, m, h => by
    rw [walk] at h
    obtain ⟨f, hf, h⟩ := Option.bind_eq_some_iff.1 h
    split at h
    · cases h
    · next ht =>
      split at h
      · grind
      · obtain ⟨j, -, h⟩ := Option.bind_eq_some_iff.1 h
        exact isDir_of_walk names _ h

theorem isDir_of_resolve (h : v.resolve p path true = some m) :
    ∃ f, v.files m = some f ∧ f.type = T_DIR := by
  obtain ⟨_, -, h⟩ := Option.bind_eq_some_iff.1 h
  exact isDir_of_walk _ _ h

/-- The last element of a path. -/
def lastElem (path : Path) : Name := (elems path).getLastD []

/-- The directory that the last element of a path is in, and a reference to it. -/
structure Parent (H : Nat → Nat) (p : Nat) (path : Path) (v : View) (i md : Nat) (d : AFile)
    (v' : View) : Prop where
  resolve : v.resolve p path true = some md
  file : v.files md = some d
  type : d.type = T_DIR
  calm : Calm v' (more H i) ∅
  safe : Safe v' H i
  frame : Frame H v v'
  inum : v'.inumAt i = some md

/-- **`nameiparent`** finds the directory that the last element is in. -/
theorem vwp_nameiparent (hc : Calm v H ∅) (hp : p < NPROC)
    (hproc : v.proc p ≠ none) (hall : ∀ e, c.E e) :
    vwp c p (nameiparent path) (fun r v' => match r with
      | none => v.resolve p path true = none ∧ Calm v' H ∅ ∧ Frame H v v'
      | some (i, name) => name = lastElem path ∧ ∃ md d, Parent H p path v i md d v') v := by
  refine vwp_seq (vwp_namex hc hp hproc hall) fun r v' _ h' => ?_
  cases r with
  | none => exact vwp_pure h'
  | some i =>
    obtain ⟨hc', hs', hf', m, hm, hi⟩ := h'
    obtain ⟨d, hd, ht⟩ := isDir_of_resolve hm
    exact vwp_pure ⟨rfl, m, d, hm, hd, ht, hc', hs', hf', hi⟩

/-- The directory gets locked. -/
theorem Parent.vwp_ilock {md : Nat} {d : AFile} (h : Parent H p path v i md d v1) :
    vwp c p (call (.ilock i)) (fun _ v' => ∃ sl, v'.Locked i sl d ∧ sl.inum = md ∧
      Calm v' (more H i) {i} ∧ Safe v' H i ∧ Frame H v v') v1 := by
  have hpos : 0 < v1.held i + more H i i := by rw [more_self]; omega
  refine vwp_mono (Sys.vwp_ilock h.calm hpos (fun hi => by simp at hi) (.inr fun m hm => ?_)) ?_
  · obtain rfl := Option.some.inj (h.inum.symm.trans hm)
    rw [h.frame.files, h.file]
    simp
  · rintro _ v' _ ⟨sl, f, hl, hnum, -, hc', hf'⟩
    obtain rfl := Option.some.inj (h.inum.symm.trans hnum)
    have hd : v'.files sl.inum = some d := by rw [hf'.files, h.frame.files]; exact h.file
    obtain rfl := Option.some.inj (hl.file.symm.trans hd)
    exact ⟨sl, hl, rfl, hc', h.safe.of_frame hf'.of_more (hf'.inum i hpos),
      h.frame.trans hf'.of_more⟩

end

end Dixv6.Sys
