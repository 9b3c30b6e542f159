import Dixv6.Sys.View

/-!
# References to inodes

Between system calls a cache entry is referred to by current directories and open files
(`View.held`). A system call holds further references: `Calm v H L` says that the reference counts
are those of the holders and of the references `H` of the running call, that the entries in `L`
and no others are locked, and that a file without links is kept by an entry that has been read
(`linked`), so that the last reference to it frees it.

The rules of this file say what each operation on references does to `Calm`. A reference found by
looking up a name is `Safe` to give back: **`iput` frees nothing that a lookup has found**. Only the
references of current directories, of open files and of `unlink` are last ones.
-/

namespace Dixv6.Sys

open Lib Fs Function

/-- One more reference to `i`. -/
def more (H : Nat → Nat) (i : Nat) : Nat → Nat := update H i (H i + 1)

@[simp] theorem more_self (H : Nat → Nat) (i : Nat) : more H i i = H i + 1 :=
  update_self _ _ _

theorem more_of_ne {H : Nat → Nat} {i j : Nat} (h : j ≠ i) : more H i j = H j :=
  update_of_ne h _ _

theorem le_more (H : Nat → Nat) (i j : Nat) : H j ≤ more H i j := by
  by_cases h : j = i
  · rw [h, more_self]; omega
  · rw [more_of_ne h]

theorem more_comm (H : Nat → Nat) (i j : Nat) : more (more H i) j = more (more H j) i := by
  funext x
  unfold more
  by_cases hi : x = i <;> by_cases hj : x = j
  · subst hi; subst hj; simp
  · subst hi; simp [update_of_ne hj]
  · subst hj; simp [update_of_ne hi]
  · simp [update_of_ne hi, update_of_ne hj]

namespace View

/-- The reference count of a cache entry. -/
def refs (v : View) (i : Nat) : Nat := ((v.slot i).map Slot.ref).getD 0

/-- The inode number of a cache entry. -/
def inumAt (v : View) (i : Nat) : Option Nat := (v.slot i).map Slot.inum

/-- How many current directories and open files refer to a cache entry. -/
def held (v : View) (i : Nat) : Nat :=
  ((Finset.range NPROC).filter fun p => (v.proc p).map Proc.cwd = some i).card +
    ((Finset.range NFILE).filter fun f => (v.file f).type = .inode ∧ (v.file f).ip = i).card

end View

/-- The state of the references while a system call runs. -/
structure Calm (v : View) (H : Nat → Nat) (L : Finset Nat) : Prop where
  refs : ∀ i, v.refs i = v.held i + H i
  busy : ∀ i, i ∈ L ↔ ∃ sl, v.slot i = some sl ∧ sl.busy = true
  linked : ∀ m f, v.files m = some f → f.nlink = 0 →
    ∃ i sl, v.slot i = some sl ∧ sl.inum = m ∧ sl.valid = true

/-- Another reference than the one in hand keeps the file, if it has no links. -/
def Safe (v : View) (H : Nat → Nat) (i : Nat) : Prop :=
  ∀ m f, v.inumAt i = some m → v.files m = some f → f.nlink = 0 → 0 < v.held i + H i

/-- Only the cache has changed, and the entries in use are for the same inodes. -/
structure Frame (H : Nat → Nat) (v v' : View) : Prop where
  eq : v' = { v with slot := v'.slot }
  inum : ∀ i, 0 < v.held i + H i → v'.inumAt i = v.inumAt i

section
variable {v v' : View} {H : Nat → Nat} {L : Finset Nat} {i m : Nat} {sl : Slot} {f : AFile}
  {g : Geo}

theorem View.refs_of_slot (h : v.slot i = some sl) : v.refs i = sl.ref := by
  rw [View.refs, h]; rfl

theorem View.inumAt_of_slot (h : v.slot i = some sl) : v.inumAt i = some sl.inum := by
  rw [View.inumAt, h]; rfl

/-- A reference is to an entry that is in use. -/
theorem Calm.slot (h : Calm v H L) (hi : 0 < v.held i + H i) : ∃ sl, v.slot i = some sl := by
  have hr := h.refs i
  cases hs : v.slot i with
  | some sl => exact ⟨sl, rfl⟩
  | none =>
    rw [View.refs, hs] at hr
    simp only [Option.map_none, Option.getD_none] at hr
    omega

theorem Frame.refl : Frame H v v := ⟨rfl, fun _ _ => rfl⟩

theorem Frame.files (h : Frame H v v') : v'.files = v.files := by rw [h.eq]

theorem Frame.held (h : Frame H v v') (i : Nat) : v'.held i = v.held i := by rw [h.eq]; rfl

theorem Frame.trans {v1 : View} (h : Frame H v v1) (h' : Frame H v1 v') : Frame H v v' := by
  refine ⟨by rw [h'.eq, h.eq], fun i hi => ?_⟩
  rw [h'.inum i (by rw [h.held]; exact hi), h.inum i hi]

/-- Fewer references in hand, fewer entries to keep. -/
theorem Frame.of_more (h : Frame (more H i) v v') : Frame H v v' :=
  ⟨h.eq, fun j hj => h.inum j (by have := le_more H i j; omega)⟩

/-- A change of one entry that stays for the same inode. -/
theorem Frame.setSlot {sl' : Slot} (hs : v.slot i = some sl) (he : sl'.inum = sl.inum) :
    Frame H v (v.setSlot i (some sl')) := by
  refine ⟨rfl, fun j _ => ?_⟩
  by_cases hj : j = i
  · subst hj
    rw [View.inumAt_of_slot hs]
    simp [View.inumAt, View.setSlot, he]
  · simp [View.inumAt, View.setSlot, update_of_ne hj]

/-- A safe reference stays safe. -/
theorem Safe.of_frame (h : Safe v H i) (hf : Frame H v v') (hi : v'.inumAt i = v.inumAt i) :
    Safe v' H i := by
  intro m f hm hfile hn
  rw [hi] at hm
  rw [hf.files] at hfile
  rw [hf.held]
  exact h m f hm hfile hn

/-! ## What the operations do to the references -/

/-- The reference count of an entry that stays, after a change of one entry. -/
theorem Calm.setSlot {sl' : Slot} {H' : Nat → Nat} {L' : Finset Nat} (h : Calm v H L)
    (hs : v.slot i = some sl) (hm : sl'.inum = sl.inum) (hv : sl.valid = true → sl'.valid = true)
    (hr : sl'.ref + H i = sl.ref + H' i) (hH : ∀ j ≠ i, H' j = H j)
    (hL : i ∈ L' ↔ sl'.busy = true) (hL' : ∀ j ≠ i, j ∈ L' ↔ j ∈ L) :
    Calm (v.setSlot i (some sl')) H' L' := by
  have hne : ∀ j ≠ i, (v.setSlot i (some sl')).slot j = v.slot j := fun j hj =>
    update_of_ne hj _ _
  have hself : (v.setSlot i (some sl')).slot i = some sl' := update_self _ _ _
  refine ⟨fun j => ?_, fun j => ?_, fun m f hf hn => ?_⟩
  · have hj := h.refs j
    by_cases hji : j = i
    · subst hji
      rw [View.refs_of_slot hs] at hj
      rw [View.refs_of_slot hself]
      have : (v.setSlot j (some sl')).held j = v.held j := rfl
      omega
    · rw [View.refs, hne j hji, hH j hji]
      exact hj
  · by_cases hji : j = i
    · subst hji
      rw [hL, hself]
      simp
    · rw [hL' j hji, h.busy j, hne j hji]
  · obtain ⟨j, sl1, h1, h2, h3⟩ := h.linked m f hf hn
    by_cases hji : j = i
    · grind
    · exact ⟨j, sl1, by rw [hne j hji]; exact h1, h2, h3⟩

/-- A new reference to an inode. -/
theorem Calm.iget (h : Calm v H L) (hw : Wf g v) (hi : Iget v m i sl) :
    Calm (v.setSlot i (some sl)) (more H i) L ∧ Safe (v.setSlot i (some sl)) H i ∧
      Frame H v (v.setSlot i (some sl)) ∧ (v.setSlot i (some sl)).inumAt i = some m := by
  have hself : ∀ sl', (v.setSlot i (some sl')).slot i = some sl' := fun _ =>
    update_self _ _ _
  cases hi with
  | old sl hs hm =>
    have hpos := (hw.slot i sl hs).2.1
    have hr := h.refs i
    rw [View.refs_of_slot hs] at hr
    refine ⟨h.setSlot hs rfl id (by simp only [more_self]; omega) (fun j hj => more_of_ne hj) ?_
      fun j _ => Iff.rfl, fun _ _ _ _ _ => ?_, .setSlot hs rfl, ?_⟩
    · rw [h.busy i, hs]; simp
    · show 0 < v.held i + H i
      omega
    · rw [View.inumAt_of_slot (hself _), hm]
  | new _ hs hm =>
    have hr := h.refs i
    rw [View.refs, hs] at hr
    simp only [Option.map_none, Option.getD_none] at hr
    have hne : ∀ j ≠ i, (v.setSlot i (some ⟨m, 1, false, false⟩)).slot j = v.slot j := fun j hj =>
      update_of_ne hj _ _
    refine ⟨⟨fun j => ?_, fun j => ?_, fun n f hf hn => ?_⟩, fun n f hn hf h0 => ?_,
      ⟨rfl, fun j hj => ?_⟩, View.inumAt_of_slot (hself _)⟩
    · by_cases hji : j = i
      · subst hji
        rw [View.refs_of_slot (hself _), more_self]
        show 1 = v.held j + (H j + 1)
        omega
      · rw [View.refs, hne j hji, more_of_ne hji]
        exact h.refs j
    · by_cases hji : j = i
      · subst hji
        rw [h.busy j, hs, hself]
        simp
      · rw [h.busy j, hne j hji]
    · obtain ⟨j, sl1, h1, h2, h3⟩ := h.linked n f hf hn
      have hji : j ≠ i := fun e => by rw [e, hs] at h1; cases h1
      exact ⟨j, sl1, by rw [hne j hji]; exact h1, h2, h3⟩
    · -- a file without links had an entry already
      rw [View.inumAt_of_slot (hself _)] at hn
      obtain rfl := Option.some.inj hn
      obtain ⟨j, sl1, h1, h2, -⟩ := h.linked _ f hf h0
      exact absurd h2 (hm j sl1 h1)
    · have hji : j ≠ i := fun e => by rw [e] at hj; omega
      rw [View.inumAt, hne j hji]
      rfl

/-- One reference less, not the last one to a file without links. -/
theorem Calm.drop (h : Calm v (more H i) L) (hs : v.slot i = some sl)
    (hsafe : Safe v H i) (hL : i ∈ L → 0 < v.held i + H i) :
    Calm (v.setSlot i sl.drop) H L ∧ Frame H v (v.setSlot i sl.drop) := by
  have hr := h.refs i
  rw [View.refs_of_slot hs, more_self] at hr
  unfold Slot.drop
  split
  · next h1 =>
    have hself : (v.setSlot i none).slot i = none := update_self _ _ _
    have hne : ∀ j ≠ i, (v.setSlot i none).slot j = v.slot j := fun j hj =>
      update_of_ne hj _ _
    refine ⟨⟨fun j => ?_, fun j => ?_, fun m f hf hn => ?_⟩, ⟨rfl, fun j hj => ?_⟩⟩
    · by_cases hji : j = i
      · subst hji
        rw [View.refs, hself]
        show 0 = v.held j + H j
        omega
      · rw [View.refs, hne j hji]
        exact (h.refs j).trans (by rw [more_of_ne hji]; rfl)
    · by_cases hji : j = i
      · grind
      · rw [h.busy j, hne j hji]
    · obtain ⟨j, sl1, h1, h2, h3⟩ := h.linked m f hf hn
      by_cases hji : j = i
      · subst hji
        obtain rfl := Option.some.inj (hs.symm.trans h1)
        have := hsafe m f (by rw [View.inumAt_of_slot hs, h2]) hf hn
        omega
      · exact ⟨j, sl1, by rw [hne j hji]; exact h1, h2, h3⟩
    · have hji : j ≠ i := fun e => by rw [e] at hj; omega
      rw [View.inumAt, hne j hji]
      rfl
  · next h1 =>
    refine ⟨h.setSlot hs rfl id (by simp only [more_self]; omega)
      (fun j hj => (more_of_ne hj).symm) ?_ fun j _ => Iff.rfl, .setSlot hs rfl⟩
    rw [h.busy i, hs]; simp

/-! ## The rules -/

variable {c : Terms} {p : Nat}

/-- A new reference. -/
theorem vwp_iget (h : Calm v H L) (hm : m < c.g.ninodes) (hE : v.Packed m → c.E .igetNoInodes) :
    vwp c p (call (.iget m)) (fun i v' => (Calm v' (more H i) L ∧ Safe v' H i ∧ Frame H v v' ∧
      v'.inumAt i = some m) ∧ ¬ v.Packed m) v := by
  refine vwp_call fun hw => ⟨hm, hE, fun i _ hi => ⟨h.iget hw hi, fun hfull => ?_⟩⟩
  cases hi with
  | old sl hs hm =>
    obtain ⟨sl', hs', hne⟩ := hfull i (hw.bound i sl hs)
    exact hne (Option.some.inj (hs'.symm.trans hs) ▸ hm)
  | new hlt hs hno =>
    obtain ⟨sl', hs', -⟩ := hfull i hlt
    rw [hs] at hs'
    cases hs'

/-- One more reference to an entry in use. -/
theorem vwp_idup (h : Calm v H L) (hi : 0 < v.held i + H i) :
    vwp c p (call (.idup i)) (fun j v' => j = i ∧ Calm v' (more H i) L ∧ Safe v' H i ∧
      Frame H v v' ∧ v'.inumAt i = v.inumAt i) v := by
  obtain ⟨sl, hs⟩ := h.slot hi
  have hr := h.refs i
  refine vwp_call fun hw => ⟨sl, hs, rfl, h.setSlot hs rfl id ?_ (fun j hj => more_of_ne hj) ?_
    fun j _ => Iff.rfl, fun _ _ _ _ _ => hi, .setSlot hs rfl, ?_⟩
  · simp only [more_self]; omega
  · rw [h.busy i, hs]; simp
  · simp [View.inumAt, View.setSlot, hs]

/-- An entry in use gets locked. -/
theorem vwp_ilock (h : Calm v H L) (hi : 0 < v.held i + H i) (hsleep : i ∈ L → c.E .sleep)
    (htype : c.E .ilockNoType ∨ ∀ m, v.inumAt i = some m → v.files m ≠ none) :
    vwp c p (call (.ilock i)) (fun _ v' => ∃ sl f, v'.Locked i sl f ∧ v.inumAt i = some sl.inum ∧
      i ∉ L ∧ Calm v' H (insert i L) ∧ Frame H v v') v := by
  obtain ⟨sl, hs⟩ := h.slot hi
  have hnum := View.inumAt_of_slot hs
  refine vwp_call fun hw => ⟨sl, hs, fun hb => hsleep ((h.busy i).2 ⟨sl, hs, hb⟩),
    fun hn => htype.resolve_right fun h' => h' _ hnum hn, fun hf hb => ?_⟩
  obtain ⟨f, hf⟩ := Option.ne_none_iff_exists'.1 hf
  have hL : i ∉ L := fun hL => by
    obtain ⟨sl', h1, h2⟩ := (h.busy i).1 hL
    rw [hs] at h1
    rw [← Option.some.inj h1, hb] at h2
    cases h2
  refine ⟨{ sl with busy := true, valid := true }, f, ⟨update_self _ _ _, rfl, hf⟩, hnum,
    hL, h.setSlot hs rfl (fun _ => rfl) rfl (fun _ _ => rfl) (by simp) (fun j hj => by simp [hj]),
    .setSlot hs rfl⟩

/-- A locked entry gets unlocked. -/
theorem vwp_iunlock (h : Calm v H L) (hs : v.slot i = some sl) (hb : sl.busy = true) :
    vwp c p (call (.iunlock i)) (fun _ v' => Calm v' H (L.erase i) ∧ Frame H v v' ∧
      v' = v.setSlot i (some { sl with busy := false })) v :=
  vwp_call fun _ => ⟨sl, hs, hb, h.setSlot hs rfl id rfl (fun _ _ => rfl) (by simp)
    (fun j hj => by simp [hj]), .setSlot hs rfl, rfl⟩

/-- **A reference that another one backs is given back**, and nothing else happens. -/
theorem vwp_iput_safe (h : Calm v (more H i) L) (hsafe : Safe v H i)
    (hL : i ∈ L → 0 < v.held i + H i) :
    vwp c p (call (.iput i)) (fun _ v' => Calm v' H L ∧ Frame H v v') v := by
  obtain ⟨sl, hs⟩ := h.slot (by rw [more_self]; omega)
  have hr := h.refs i
  rw [View.refs_of_slot hs, more_self] at hr
  refine vwp_call fun hw => ⟨sl, hs, fun f hd => ?_, fun _ => h.drop hs hsafe hL⟩
  have := hsafe _ f (View.inumAt_of_slot hs) hd.file hd.nlink
  have := hd.ref
  omega

/-- A locked entry whose reference another one backs. -/
theorem vwp_iunlockput_safe (h : Calm v (more H i) L) (hs : v.slot i = some sl)
    (hb : sl.busy = true) (hsafe : Safe v H i) :
    vwp c p (iunlockput i) (fun _ v' => Calm v' H (L.erase i) ∧ Frame H v v') v := by
  refine vwp_seq (vwp_iunlock h hs hb) fun _ v1 _ h1 => ?_
  obtain ⟨hc, hf, -⟩ := h1
  have hsafe' := hsafe.of_frame hf.of_more (hf.inum i (by rw [more_self]; omega))
  refine vwp_mono (vwp_iput_safe hc hsafe' fun hi => by simp at hi) fun _ v' _ h' => ?_
  exact ⟨h'.1, hf.of_more.trans h'.2⟩

end

end Dixv6.Sys
