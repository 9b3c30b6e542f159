import Dixv6.Fs.Inode
import Dixv6.Lib.Leaves

/-!
# References to cached inodes

Which functions of the file system count references: `iget` and `idup` add one, `iput` takes one
away, and all others leave the counts of all cache entries alone. Only `iget`, and `ialloc` through
it, can find the cache full.
-/

namespace Dixv6.Fs

open Lib Function

/-- The reference counts. -/
def State.refs (s : State) : Nat → Nat := fun i => (s.inode i).ref

/-- The computation leaves the reference counts alone and does not find the cache full. -/
abbrev Steady {α : Type} (m : M α) : Prop := Leaves State.refs (· ≠ .igetNoInodes) m

section
variable {α : Type} {i : Nat}

theorem refs_update (s : State) (i : Nat) (x : Inode) :
    State.refs { s with inode := update s.inode i x } = update s.refs i x.ref := by
  funext j
  by_cases hj : j = i
  · rw [hj]
    simp [State.refs]
  · simp [State.refs, hj]

theorem steady_setInode {f : Inode → Inode} (h : ∀ x, (f x).ref = x.ref) : Steady (setInode i f) :=
  Leaves.modify fun s => by
    rw [refs_update, h]
    exact update_eq_self _ _

end

/-! ## Functions that work on blocks -/

/-- `π` sees nothing of the disk and the log, nor of the block numbers and the size in a cached inode,
and every stop is allowed except that of a full cache. -/
structure Beside {γ : Type} (π : State → γ) (E : Stop → Prop) : Prop where
  disk : ∀ (s : State) disk log, π { s with disk, log } = π s
  inode : ∀ (s : State) i addrs size, π { s with
    inode := update s.inode i { s.inode i with
      d := { (s.inode i).d with addrs, size } } } = π s
  stops : ∀ e, e ≠ .igetNoInodes → E e

namespace Beside

section
variable {γ : Type} {π : State → γ} {E : Stop → Prop} (h : Beside π E)
include h

theorem log_write (b : Nat) (blk : Block) : Leaves π E (Fs.log_write b blk) :=
  .bind (.gets _) fun _ => .bind (.stopIf (h.stops _ (by decide))) fun _ =>
    .bind (.stopIf (h.stops _ (by decide))) fun _ => .modify fun s => h.disk s _ _

theorem begin_trans : Leaves π E Fs.begin_trans :=
  .bind (.gets _) fun _ => .bind (.stopIf (h.stops _ (by decide))) fun _ =>
    .modify fun s => h.disk s _ _

theorem write_head : Leaves π E Fs.write_head := .modify fun s => h.disk s _ _

theorem installFrom : ∀ (tail : Nat) (l : List Nat), Leaves π E (Fs.installFrom tail l)
  | _, [] => .pure _
  | tail, _ :: l => .bind (.gets _) fun _ => .bind (.stopIf (h.stops _ (by decide))) fun _ =>
    .bind (.modify fun s => h.disk s _ _) fun _ => installFrom (tail + 1) l

theorem commit_trans : Leaves π E Fs.commit_trans := by
  refine .bind (.gets _) fun _ => .ite ?_ (.modify fun s => h.disk s _ _)
  exact .bind h.write_head fun _ => .bind (h.installFrom _ _) fun _ =>
    .bind (.modify fun s => h.disk s _ _) fun _ => .bind h.write_head fun _ =>
    .modify fun s => h.disk s _ _

theorem ballocFrom (sb : Superblock) : ∀ bs : List Nat, Leaves π E (Fs.ballocFrom sb bs)
  | [] => .stop (h.stops _ (by decide))
  | b :: bs => by
    refine .bind (.gets _) fun blk => ?_
    cases firstFree blk b sb.size with
    | none => exact ballocFrom sb bs
    | some bi => exact .bind (h.log_write _ _) fun _ => .bind (h.log_write _ _) fun _ => .pure _

theorem balloc : Leaves π E Fs.balloc := .bind (.gets _) fun _ => h.ballocFrom _ _

theorem bfree (b : Nat) : Leaves π E (Fs.bfree b) :=
  .bind (.gets _) fun _ => .bind (.gets _) fun _ => .bind (.stopIf (h.stops _ (by decide))) fun _ =>
    h.log_write _ _

theorem iupdate (i : Nat) : Leaves π E (Fs.iupdate i) :=
  .bind (.gets _) fun _ => .bind (.gets _) fun _ => h.log_write _ _

theorem setAddr (i : Nat) (k : Fin (NDIRECT + 2)) (b : Nat) : Leaves π E (Fs.setAddr i k b) :=
  .modify fun s => h.inode s i _ (s.inode i).d.size

theorem setSize (i : Nat) (size : UInt32) :
    Leaves π E (setInode i fun ip => { ip with d := { ip.d with size } }) :=
  .modify fun s => h.inode s i (s.inode i).d.addrs _

theorem bmapRoot (i : Nat) (k : Fin (NDIRECT + 2)) : Leaves π E (Fs.bmapRoot i k) :=
  .bind (.gets _) fun _ => .ite (.bind h.balloc fun _ => .bind (h.setAddr _ _ _) fun _ => .pure _)
    (.pure _)

theorem bmapEntry (b j : Nat) : Leaves π E (Fs.bmapEntry b j) :=
  .bind (.gets _) fun _ => .ite (.bind h.balloc fun _ => .bind (.gets _) fun _ =>
    .bind (h.log_write _ _) fun _ => .pure _) (.pure _)

theorem bmap (i bn : Nat) : Leaves π E (Fs.bmap i bn) := by
  simp only [Fs.bmap]
  split
  · exact h.bmapRoot _ _
  by_cases h1 : bn - NDIRECT < NINDIRECT
  on_goal 2 => by_cases h2 : bn - NDIRECT - NINDIRECT < NINDIRECT * NINDIRECT
  · rw [if_pos h1]
    exact .bind (h.bmapRoot _ _) fun _ => h.bmapEntry _ _
  · rw [if_neg h1, if_pos h2]
    exact .bind (h.bmapRoot _ _) fun _ => .bind (h.bmapEntry _ _) fun _ => h.bmapEntry _ _
  · rw [if_neg h1, if_neg h2]
    exact .stop (h.stops _ (by decide))

theorem readiFrom (i : Nat) : ∀ (count tot off n : Nat) (dst : Bytes),
    Leaves π E (Fs.readiFrom i count tot off n dst)
  | 0, _, _, _, _ => .pure _
  | _ + 1, _, _, _, _ => .bind (h.bmap _ _) fun _ => .bind (.gets _) fun _ => readiFrom i _ _ _ _ _

theorem readi (i : Nat) (off n : UInt32) : Leaves π E (Fs.readi i off n) := by
  refine .bind (.gets _) fun d => .ite (.bind (.gets _) fun dev => ?_) (.ite (.pure _)
    (.bind (h.readiFrom _ _ _ _ _ _) fun _ => .pure _))
  cases dev.read with
  | none => exact .pure _
  | some read => exact .ite (.pure _) (.pure _)

theorem writeiFrom (i : Nat) (src : Bytes) : ∀ count tot off n : Nat,
    Leaves π E (Fs.writeiFrom i src count tot off n)
  | 0, _, _, _ => .pure _
  | _ + 1, _, _, _ => .bind (h.bmap _ _) fun _ => .bind (.gets _) fun _ =>
    .bind (h.log_write _ _) fun _ => writeiFrom i src _ _ _ _

theorem writei (i : Nat) (src : Bytes) (off n : UInt32) : Leaves π E (Fs.writei i src off n) := by
  refine .bind (.gets _) fun d => .ite (.bind (.gets _) fun dev => ?_) (.ite (.pure _)
    (.ite (.pure _) (.bind (h.writeiFrom _ _ _ _ _ _) fun _ => .ite ?_ (.pure _))))
  · cases dev.write with
    | none => exact .pure _
    | some write => exact .ite (.pure _) (.pure _)
  · exact .bind (h.setSize _ _) fun _ => .bind (h.iupdate _) fun _ => .pure _

theorem itrunc (i : Nat) : Leaves π E (Fs.itrunc i) := by
  refine .bind (.bind (.forM (fun k => ?_) _) fun _ => .bind (.gets _) fun _ => .ite ?_ (.pure _))
    fun _ => .bind (h.setSize _ _) fun _ => h.iupdate _
  · exact .bind (.gets _) fun _ => .ite (.bind (h.bfree _) fun _ => h.setAddr _ _ _) (.pure _)
  · exact .bind (.forM (fun _ => .bind (.gets _) fun _ => .ite (h.bfree _) (.pure _)) _) fun _ =>
      .bind (h.bfree _) fun _ => h.setAddr _ _ _

end

end Beside

/-! ## Functions that count references -/

/-- The reference counts are beside the blocks. -/
theorem steady : Beside State.refs (· ≠ .igetNoInodes) where
  disk _ _ _ := rfl
  inode s i addrs size := by
    rw [refs_update]
    exact update_eq_self _ _
  stops _ h := h

section
variable {i : Nat}

theorem steady_ilock (i : Nat) : Steady (ilock i) := by
  refine .bind (.gets _) fun ip => .bind (.stopIf (by decide)) fun _ => .bind (.stopIf (by decide))
    fun _ => .bind (steady_setInode fun _ => rfl) fun _ => .ite ?_ (.pure _)
  exact .bind (.gets _) fun _ => .bind (steady_setInode fun _ => rfl) fun _ => .stopIf (by decide)

theorem steady_iunlock (i : Nat) : Steady (iunlock i) :=
  .bind (.gets _) fun _ => .bind (.stopIf (by decide)) fun _ => steady_setInode fun _ => rfl

/-- One reference more. -/
def addRef (refs : Nat → Nat) (i : Nat) : Nat → Nat := update refs i (refs i + 1)

/-- One reference less. -/
def dropRef (refs : Nat → Nat) (i : Nat) : Nat → Nat := update refs i (refs i - 1)

theorem addRef_apply (refs : Nat → Nat) (i j : Nat) :
    addRef refs i j = refs j + if j = i then 1 else 0 := by
  by_cases hj : j = i
  · simp [addRef, hj]
  · simp [addRef, hj]

theorem dropRef_apply (refs : Nat → Nat) (i j : Nat) :
    dropRef refs i j = refs j - if j = i then 1 else 0 := by
  by_cases hj : j = i
  · simp [dropRef, hj]
  · simp [dropRef, hj]

/-- `idup` adds a reference. -/
theorem idup_refs (i : Nat) (s : State) (E : Stop → Prop) :
    wp (idup i) (fun r s' => r = i ∧ s'.refs = addRef s.refs i) E s :=
  ⟨rfl, refs_update _ _ _⟩

/-- `iput` takes a reference away. -/
theorem iput_refs (i : Nat) (s : State) :
    wp (iput i) (fun _ s' => s'.refs = dropRef s.refs i) (· ≠ .igetNoInodes) s := by
  have hdrop : ∀ s : State, wp (setInode i fun ip => { ip with ref := ip.ref - 1 })
      (fun _ s' => s'.refs = dropRef s.refs i) (· ≠ .igetNoInodes) s := fun s => refs_update _ _ _
  refine (wp_bind _ _).2 (wp_ite (fun _ => ?_) fun _ => hdrop s)
  have hfree : Steady (do
      let ip ← Comp.gets fun s : State => s.inode i
      Comp.stopIf ip.busy .iputBusy
      setInode i fun ip => { ip with busy := true }
      itrunc i
      setInode i fun ip => { ip with d := { ip.d with type := 0 } }
      iupdate i
      setInode i fun ip => { ip with busy := false, valid := false }) :=
    .bind (.gets _) fun _ => .bind (.stopIf (by decide)) fun _ =>
      .bind (steady_setInode fun _ => rfl) fun _ => .bind (steady.itrunc _) fun _ =>
      .bind (steady_setInode fun _ => rfl) fun _ => .bind (steady.iupdate _) fun _ =>
      steady_setInode fun _ => rfl
  have hall := hfree s
  simp only [wp_bind] at hall
  simp only [iputFree, wp_bind]
  refine wp_post hall fun _ s1 h1 => wp_post h1 fun _ s2 h2 => wp_post h2 fun _ s3 h3 =>
    wp_post h3 fun _ s4 h4 => wp_post h4 fun _ s5 h5 => wp_post h5 fun _ s6 h6 =>
    wp_post h6 fun _ s7 h7 => ?_
  rw [← h7]
  exact hdrop s7

/-- `iget` adds a reference to an entry, and finds one if there is one without references. -/
theorem iget_refs (inum : Nat) (s : State) {E : Stop → Prop}
    (hE : (∃ i < NINODE, s.refs i = 0) ∨ E .igetNoInodes) :
    wp (iget inum) (fun i s' => s'.refs = addRef s.refs i) E s := by
  simp only [iget, wp_bind, wp_gets, id]
  cases hfind : (List.range NINODE).find? fun i => 0 < (s.inode i).ref ∧ (s.inode i).inum = inum with
  | some i => exact refs_update _ _ _
  | none =>
    cases hfree : (List.range NINODE).find? fun i => (s.inode i).ref = 0 with
    | some i =>
      have hzero : (s.inode i).ref = 0 := by grind
      show State.refs { s with inode := _ } = _
      rw [refs_update, addRef, show s.refs i = 0 from hzero]
    | none =>
      rcases hE with ⟨i, hi, h0⟩ | hE
      · have := List.find?_range_eq_none.1 hfree i hi
        simp at this
        exact absurd h0 this
      · exact hE

/-- `ialloc` adds a reference to an entry, and finds one if there is one without references. -/
theorem ialloc_refs (type : Int16) (s : State) {E : Stop → Prop}
    (hE : (∃ i < NINODE, s.refs i = 0) ∨ E .igetNoInodes) (hE' : ∀ e, e ≠ .igetNoInodes → E e) :
    wp (ialloc type) (fun i s' => s'.refs = addRef s.refs i) E s := by
  have hloop : ∀ (is : List Nat) (s : State), ((∃ i < NINODE, s.refs i = 0) ∨ E .igetNoInodes) →
      wp (iallocFrom type is) (fun i s' => s'.refs = addRef s.refs i) E s := by
    intro is
    induction is with
    | nil => exact fun s _ => hE' _ (by decide)
    | cons inum is ih =>
      intro s hE
      refine (wp_bind _ _).2 (wp_ite (fun _ => ?_) fun _ => ih s hE)
      refine wp_seq (wp_mono (steady.log_write _ _ s) (fun _ _ h => h) hE') fun _ s1 h1 => ?_
      rw [← h1] at hE ⊢
      exact iget_refs inum s1 hE
  exact hloop _ s hE

end

end Dixv6.Fs
