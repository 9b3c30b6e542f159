import Dixv6.Fs.Trunc
import Dixv6.Sys.View

/-!
# The kernel refines its view

`Rep c k v` says that the kernel `k` is in order and looks like `v`. Being in order means that no
block is owned twice and none lies in the log area (`DiskInv`), that the inode cache agrees with
the disk (`CacheInv`), and that the open transaction has logged blocks of `v.room` only.

There is one rule for each operation: what `opSpec` allows, `exec` does, and **every operation keeps
`Rep`**. `Rep.run` extends that to whole programs: a property of a system call that is proved on
views holds of the kernel.
-/

namespace Dixv6.Sys

open Lib Fs Function
open Pipes (Pipe)

/-! ## The kernel behind a view -/

/-- The file of an inode number. -/
def fileOf (g : Geo) (disk : Nat → Block) (i : Nat) : Option AFile :=
  if (table g disk i).type = 0 then none
  else some {
    toLinks := links (table g disk i)
    type := (table g disk i).type
    size := (table g disk i).size.toNat
    byte := fileByte g (table g disk) disk i
    block := fun p => node g (table g disk) disk (i, p.1) p.2 }

/-- The cache entry, if it is in use. -/
def slotOf (ip : Inode) : Option Slot :=
  if ip.ref = 0 then none
  else some { inum := ip.inum, ref := ip.ref, busy := ip.busy, valid := ip.valid }

/-- The disk is in order. -/
structure DiskInv (g : Geo) (X : Prop) (disk : Nat → Block) : Prop where
  sb : getSb (disk 1) = g.toSuperblock
  own : Own g g.logstart (table g disk) disk
  whole : ∀ i, (table g disk i).type ≠ 0 → ∀ bn, bn * BSIZE < (table g disk i).size.toNat →
    node g (table g disk) disk (i, (pos bn).1) (pos bn).2 ≠ none
  exact : X → ∀ b < g.size, used g disk b = true → g.dstart ≤ b →
    ∃ x π, node g (table g disk) disk x π = some b

/-- The inode cache agrees with the disk. -/
structure CacheInv (g : Geo) (disk : Nat → Block) (inode : Nat → Inode) : Prop where
  bound : ∀ i, 0 < (inode i).ref → i < NINODE ∧ (inode i).inum < g.ninodes
  sync : ∀ i, 0 < (inode i).ref → (inode i).valid = true →
    (inode i).d = table g disk (inode i).inum ∧ (inode i).d.type ≠ 0
  busy : ∀ i, 0 < (inode i).ref → (inode i).busy = true → (inode i).valid = true
  uniq : ∀ i j, 0 < (inode i).ref → 0 < (inode j).ref → (inode i).inum = (inode j).inum → i = j

/-- The kernel is in order and looks like `v`. -/
structure Rep (c : Terms) (k : Kernel) (v : View) : Prop where
  disk : DiskInv c.g c.exact k.fs.disk
  cache : CacheInv c.g k.fs.disk k.fs.inode
  start : k.fs.log.start = c.g.logstart
  size : k.fs.log.size = c.g.nlog
  lh : ∀ b ∈ k.fs.log.lh, b < c.g.logstart
  fits : c.E .tooBig ∨ (v.trans = false → k.fs.log.lh = [] ∧ v.room = none) ∧
    ∀ S, v.room = some S → Fits S k.fs.log
  files : ∀ i, fileOf c.g k.fs.disk i = v.files i
  free : Fs.free c.g c.g.logstart k.fs.disk = v.free
  bits : ∀ b < c.g.size, used c.g k.fs.disk b = v.bits b
  slot : ∀ i, slotOf (k.fs.inode i) = v.slot i
  trans : k.fs.log.busy = v.trans
  file : k.file = v.file
  proc : k.proc = v.proc
  pipe : k.pipe = v.pipe
  pages : k.pages = v.pages
  tidy : ∀ m f, v.files m = some f → f.Tidy c.g

/-- The kernel looks like some view that has `Q`. -/
def Leads (c : Terms) {β : Type} (Q : β → View → Prop) (b : β) (k : Kernel) : Prop :=
  ∃ v, Q b v ∧ Rep c k v

section
variable {c : Terms} {g : Geo} {X : Prop} {p i m : Nat} {k : Kernel} {v : View} {sl : Slot}
  {f : AFile} {disk disk' : Nat → Block} {x : Inode} {S : Finset Nat} {s' : State}

/-! ## Reading a view -/

theorem slotOf_eq_some {ip : Inode} : slotOf ip = some sl ↔ 0 < ip.ref ∧ ip.inum = sl.inum ∧
    ip.ref = sl.ref ∧ ip.busy = sl.busy ∧ ip.valid = sl.valid := by
  unfold slotOf
  split
  · next h => simp [h]
  · next h =>
    rw [Option.some.injEq, Slot.mk.injEq]
    refine ⟨fun h' => ⟨by omega, h'⟩, fun h' => h'.2⟩

theorem slotOf_eq_none {ip : Inode} : slotOf ip = none ↔ ip.ref = 0 := by
  unfold slotOf
  split <;> simp [*]

/-- The cache entry behind a slot. -/
theorem Rep.inode (h : Rep c k v) (hi : v.slot i = some sl) :
    0 < (k.fs.inode i).ref ∧ (k.fs.inode i).inum = sl.inum ∧ (k.fs.inode i).ref = sl.ref ∧
      (k.fs.inode i).busy = sl.busy ∧ (k.fs.inode i).valid = sl.valid :=
  slotOf_eq_some.1 ((h.slot i).trans hi)

theorem fileOf_eq_none : fileOf g disk i = none ↔ (table g disk i).type = 0 := by
  unfold fileOf
  split <;> simp [*]

/-- The file behind a view's file. -/
theorem fileOf_eq_some (h : fileOf g disk i = some f) :
    (table g disk i).type ≠ 0 ∧ f.type = (table g disk i).type ∧
      f.toLinks = links (table g disk i) ∧ f.size = (table g disk i).size.toNat ∧
      f.byte = fileByte g (table g disk) disk i ∧
      f.block = fun p => node g (table g disk) disk (i, p.1) p.2 := by
  unfold fileOf at h
  split at h
  · cases h
  · next ht =>
    obtain rfl := Option.some.inj h
    exact ⟨ht, rfl, rfl, rfl, rfl, rfl⟩

/-- A file, from its parts. -/
theorem fileOf_intro (ht : f.type ≠ 0) (h1 : (table g disk i).type = f.type)
    (h2 : links (table g disk i) = f.toLinks) (h3 : (table g disk i).size.toNat = f.size)
    (h4 : ∀ o, fileByte g (table g disk) disk i o = f.byte o)
    (h5 : ∀ k π, node g (table g disk) disk (i, k) π = f.block (k, π)) :
    fileOf g disk i = some f := by
  have h4 : fileByte g (table g disk) disk i = f.byte := funext h4
  rw [fileOf, if_neg (by rw [h1]; exact ht), h1, h2, h3, h4]
  simp only [h5]

/-- Inode numbers of files are in range. -/
theorem lt_of_fileOf (h : fileOf g disk i = some f) : i < g.ninodes := by
  by_contra hlt
  refine (fileOf_eq_some h).1 ?_
  rw [table, if_neg hlt]
  rfl

/-- The cached copy of an inode, when it has been read. -/
theorem Rep.cached (h : Rep c k v) (hi : v.slot i = some sl) (hv : sl.valid = true) :
    ∃ f, v.files sl.inum = some f ∧ (k.fs.inode i).d = table c.g k.fs.disk sl.inum ∧
      (k.fs.inode i).d.type ≠ 0 := by
  obtain ⟨hpos, hinum, -, -, hvalid⟩ := h.inode hi
  obtain ⟨hd, ht⟩ := h.cache.sync i hpos (by rw [hvalid, hv])
  rw [hinum] at hd
  obtain ⟨f, hf⟩ := Option.ne_none_iff_exists'.1
    (show fileOf c.g k.fs.disk sl.inum ≠ none by rw [Ne, fileOf_eq_none, ← hd]; exact ht)
  exact ⟨f, (h.files _).symm.trans hf, hd, ht⟩

/-- What every view of a kernel has. -/
theorem Rep.wf (h : Rep c k v) : Wf c.g v := by
  refine ⟨fun m f hf => ?_, h.tidy, fun m f hf bn hbn => ?_, fun m f hf q π π' hsuf hb => ?_,
    fun i sl hi => ?_, fun i j sl sl' hi hj he => ?_, fun i sl hi => (h.cache.bound i (h.inode hi).1).1⟩
  · rw [← h.files] at hf
    obtain ⟨h1, h2, -, h4, -, -⟩ := fileOf_eq_some hf
    exact ⟨lt_of_fileOf hf, by rw [h2]; exact h1, by rw [h4]; exact UInt32.toNat_lt _⟩
  · rw [← h.files] at hf
    obtain ⟨h1, -, -, h4, -, h6⟩ := fileOf_eq_some hf
    rw [h6]
    exact h.disk.whole m h1 bn (by rw [← h4]; exact hbn)
  · rw [← h.files] at hf
    obtain ⟨-, -, -, -, -, h6⟩ := fileOf_eq_some hf
    rw [h6] at hb ⊢
    exact Shape.node_suffix hsuf hb
  · obtain ⟨h1, h2, h3, h4, h5⟩ := h.inode hi
    refine ⟨h2 ▸ (h.cache.bound i h1).2, by omega, fun hb => ?_, fun hv => ?_⟩
    · rw [← h5]
      exact h.cache.busy i h1 (by rw [h4, hb])
    · obtain ⟨f, hf, -⟩ := h.cached hi hv
      rw [hf]
      exact Option.some_ne_none _
  · obtain ⟨h1, h2, -⟩ := h.inode hi
    obtain ⟨h1', h2', -⟩ := h.inode hj
    exact h.cache.uniq i j h1 h1' (by rw [h2, h2', he])

/-- A locked inode, as its cached copy shows it. -/
theorem Rep.locked (h : Rep c k v) (hl : v.Locked i sl f) :
    0 < (k.fs.inode i).ref ∧ (k.fs.inode i).inum = sl.inum ∧
      (k.fs.inode i).d = table c.g k.fs.disk sl.inum ∧ (k.fs.inode i).d.type ≠ 0 ∧
      (k.fs.inode i).d.type = f.type ∧ links (k.fs.inode i).d = f.toLinks ∧
      (k.fs.inode i).d.size.toNat = f.size := by
  obtain ⟨hpos, hinum, -, -, -⟩ := h.inode hl.slot
  obtain ⟨f', hf', hd, ht⟩ := h.cached hl.slot (((h.wf).slot i sl hl.slot).2.2.1 hl.busy)
  obtain rfl := Option.some.inj (hl.file.symm.trans hf')
  obtain ⟨-, h2, h3, h4, -, -⟩ := fileOf_eq_some ((h.files _).trans hf')
  exact ⟨hpos, hinum, hd, ht, by rw [hd, h2], by rw [hd, h3], by rw [hd, h4]⟩

/-! ## Operations on the cache -/

/-- One cache entry changes. -/
theorem CacheInv.put {inode : Nat → Inode} (hc : CacheInv g disk inode)
    (hx : 0 < x.ref → i < NINODE ∧ x.inum < g.ninodes ∧
      (x.valid = true → x.d = table g disk x.inum ∧ x.d.type ≠ 0) ∧
      (x.busy = true → x.valid = true) ∧ ∀ j ≠ i, 0 < (inode j).ref → (inode j).inum ≠ x.inum) :
    CacheInv g disk (update inode i x) := by
  have hcase : ∀ j, (j = i ∧ update inode i x j = x) ∨
      (j ≠ i ∧ update inode i x j = inode j) := fun j => by
    by_cases hj : j = i
    · exact .inl ⟨hj, by rw [hj, update_self]⟩
    · exact .inr ⟨hj, update_of_ne hj _ _⟩
  refine ⟨fun j hj => ?_, fun j hj hv => ?_, fun j hj hb => ?_, fun j j' hj hj' he => ?_⟩
  · rcases hcase j with ⟨rfl, e⟩ | ⟨-, e⟩ <;> rw [e] at hj ⊢
    · exact ⟨(hx hj).1, (hx hj).2.1⟩
    · exact hc.bound j hj
  · rcases hcase j with ⟨rfl, e⟩ | ⟨-, e⟩ <;> rw [e] at hj hv ⊢
    · exact (hx hj).2.2.1 hv
    · exact hc.sync j hj hv
  · rcases hcase j with ⟨rfl, e⟩ | ⟨-, e⟩ <;> rw [e] at hj hb ⊢
    · exact (hx hj).2.2.2.1 hb
    · exact hc.busy j hj hb
  · by_cases h1 : j = i <;> by_cases h2 : j' = i
    · rw [h1, h2]
    · grind
    · grind
    · rw [update_of_ne h1] at hj he
      rw [update_of_ne h2] at hj' he
      exact hc.uniq j j' hj hj' he

/-- **The rule for changes of one cache entry.** -/
theorem Rep.setInode (h : Rep c k v) {o : Option Slot} (ho : slotOf x = o)
    (hx : 0 < x.ref → i < NINODE ∧ x.inum < c.g.ninodes ∧
      (x.valid = true → x.d = table c.g k.fs.disk x.inum ∧ x.d.type ≠ 0) ∧
      (x.busy = true → x.valid = true) ∧
      ∀ j ≠ i, ∀ sl, v.slot j = some sl → sl.inum ≠ x.inum) :
    Rep c { k with fs := { k.fs with inode := update k.fs.inode i x } }
      (v.setSlot i o) := by
  refine { h with cache := h.cache.put fun hp => ?_, slot := fun j => ?_ }
  · obtain ⟨h1, h2, h3, h4, h5⟩ := hx hp
    refine ⟨h1, h2, h3, h4, fun j hj href => ?_⟩
    exact h5 j hj _ ((h.slot j).symm.trans (by rw [slotOf, if_neg (by omega)]))
  · by_cases hj : j = i
    · subst hj; simp [View.setSlot, ho]
    · simp only [View.setSlot, update_of_ne hj]
      exact h.slot j

/-- Reference count and lock of an entry change. -/
theorem Rep.touch (h : Rep c k v) (hi : v.slot i = some sl) {o : Option Slot}
    (ho : slotOf x = o) (hinum : x.inum = (k.fs.inode i).inum)
    (hvalid : x.valid = (k.fs.inode i).valid) (hd : x.d = (k.fs.inode i).d)
    (hbusy : x.busy = true → (k.fs.inode i).valid = true) :
    Rep c { k with fs := { k.fs with inode := update k.fs.inode i x } }
      (v.setSlot i o) := by
  obtain ⟨hpos, hin, -, -⟩ := h.inode hi
  refine h.setInode ho fun _ => ⟨(h.cache.bound i hpos).1, ?_, fun hv => ?_, ?_,
    fun j hj sl' hs he => hj ?_⟩
  · rw [hinum]; exact (h.cache.bound i hpos).2
  · rw [hd, hinum]; exact h.cache.sync i hpos (hvalid ▸ hv)
  · rw [hvalid]; exact hbusy
  · obtain ⟨h1, h2, -⟩ := h.inode hs
    exact h.cache.uniq j i h1 hpos (h2.trans (he.trans hinum))

/-- What the file system's `iget` does. -/
theorem Rep.iget_fs (h : Rep c k v) (hm : m < c.g.ninodes) (hE : v.Packed m → c.E .igetNoInodes) :
    wp (Fs.iget m) (fun i s' => ∃ sl, Iget v m i sl ∧
      Rep c { k with fs := s' } (v.setSlot i (some sl))) c.E k.fs := by
  simp only [Fs.iget, wp_bind, wp_gets, id]
  cases hfind : (List.range NINODE).find? fun i =>
      0 < (k.fs.inode i).ref ∧ (k.fs.inode i).inum = m with
  | some i =>
    obtain ⟨hp, hmem, -⟩ := List.find?_range_eq_some.1 hfind
    obtain ⟨hpos, hinum⟩ := of_decide_eq_true hp
    have hslot : v.slot i = some ⟨m, (k.fs.inode i).ref, (k.fs.inode i).busy,
        (k.fs.inode i).valid⟩ := by
      rw [← h.slot i, slotOf, if_neg (by omega), hinum]
    refine ⟨_, .old _ hslot rfl, h.touch hslot ?_ rfl rfl rfl (h.cache.busy i hpos)⟩
    exact slotOf_eq_some.2 ⟨Nat.succ_pos _, hinum, rfl, rfl, rfl⟩
  | none =>
    have hnone : ∀ j sl, v.slot j = some sl → sl.inum ≠ m := fun j sl hs he => by
      obtain ⟨h1, h2, -⟩ := h.inode hs
      have := List.find?_range_eq_none.1 hfind j (h.cache.bound j h1).1
      simp [h1, h2, he] at this
    cases hfind' : (List.range NINODE).find? fun i => (k.fs.inode i).ref = 0 with
    | none =>
      refine hE fun i hi => ?_
      have hpos := List.find?_range_eq_none.1 hfind' i hi
      cases hs : v.slot i with
      | none => simp [slotOf_eq_none.1 ((h.slot i).trans hs)] at hpos
      | some sl => exact ⟨sl, rfl, hnone i sl hs⟩
    | some i =>
      obtain ⟨hp, hmem, -⟩ := List.find?_range_eq_some.1 hfind'
      have hzero : (k.fs.inode i).ref = 0 := of_decide_eq_true hp
      have hfree := (h.slot i).symm.trans (slotOf_eq_none.2 hzero)
      refine ⟨_, .new (List.mem_range.1 hmem) hfree hnone, h.setInode ?_ ?_⟩
      · exact slotOf_eq_some.2 ⟨Nat.one_pos, rfl, rfl, rfl, rfl⟩
      · grind

section
variable {β : Type} {Q : Unit → View → Prop} {R : Nat → View → Prop}

/-- The rule for `iget`. -/
theorem Rep.iget (h : Rep c k v) (hs : opSpec c p (.iget m) R v) :
    wp (exec p (.iget m)) (Leads c R) c.E k := by
  obtain ⟨hm, hE, hR⟩ := hs
  simp only [exec, wp_onFs]
  refine wp_post (h.iget_fs hm hE) ?_
  rintro i s' ⟨sl, hi, hrep⟩
  exact ⟨_, hR i sl hi, hrep⟩

/-- The rule for `idup`. -/
theorem Rep.idup (h : Rep c k v) (hs : opSpec c p (.idup i) R v) :
    wp (exec p (.idup i)) (Leads c R) c.E k := by
  obtain ⟨sl, hi, hR⟩ := hs
  simp only [exec, wp_onFs, Fs.idup, Fs.setInode, wp_bind, wp_modify, wp_pure]
  obtain ⟨hpos, hinum, href, hbusy, hvalid⟩ := h.inode hi
  refine ⟨_, hR, h.touch hi ?_ rfl rfl rfl (h.cache.busy i hpos)⟩
  exact slotOf_eq_some.2 ⟨Nat.succ_pos _, hinum, by rw [href], hbusy, hvalid⟩

/-- The rule for `ilock`. -/
theorem Rep.ilock (h : Rep c k v) (hs : opSpec c p (.ilock i) Q v) :
    wp (exec p (.ilock i)) (Leads c Q) c.E k := by
  obtain ⟨sl, hi, hsleep, hnone, hQ⟩ := hs
  obtain ⟨hpos, hinum, href, hbusy, hvalid⟩ := h.inode hi
  simp only [exec, wp_onFs, Fs.ilock, Fs.setInode, wp_bind, wp_gets, wp_stopIf, wp_modify, hbusy]
  refine ⟨fun h0 => by omega, fun _ => ⟨hsleep, fun hb => ?_⟩⟩
  have hb : sl.busy = false := by simpa using hb
  have hfile : v.files sl.inum = none ↔ (table c.g k.fs.disk sl.inum).type = 0 := by
    rw [← h.files, fileOf_eq_none]
  rw [hvalid]
  cases hv : sl.valid with
  | true =>
    -- the cached copy is good
    obtain ⟨f, hf, hd, ht⟩ := h.cached hi hv
    refine ⟨_, hQ (by rw [hf]; exact Option.some_ne_none _) hb,
      h.touch hi ?_ rfl (by rw [hvalid, hv]) rfl fun _ => by rw [hvalid, hv]⟩
    exact slotOf_eq_some.2 ⟨hpos, hinum, href, rfl, rfl⟩
  | false =>
    -- the inode is read from the disk
    simp only [Bool.not_false, if_true, readBlock, wp_bind, wp_gets, wp_modify, wp_stopIf, hinum]
    have hlt : sl.inum < c.g.ninodes := by rw [← hinum]; exact (h.cache.bound i hpos).2
    have htab : getDinode (k.fs.disk (IBLOCK sl.inum)) sl.inum = table c.g k.fs.disk sl.inum := by
      rw [table, if_pos hlt, dinodeAt]
    rw [htab]
    refine ⟨fun h0 => hnone (hfile.2 h0), fun h0 => ⟨_, hQ (mt hfile.1 h0) hb, ?_⟩⟩
    rw [update_idem, update_self]
    refine h.setInode ?_ fun _ => ⟨(h.cache.bound i hpos).1, ?_, fun _ => ⟨?_, ?_⟩, fun _ => rfl,
      fun j hj sl' hs he => hj ?_⟩
    · exact slotOf_eq_some.2 ⟨hpos, rfl, href, rfl, rfl⟩
    · exact hlt
    · simp only [htab]
    · simp only [htab]; exact h0
    · obtain ⟨h1, h2, -⟩ := h.inode hs
      exact h.cache.uniq j i h1 hpos (h2.trans (he.trans hinum.symm))

/-- The rule for `iunlock`. -/
theorem Rep.iunlock (h : Rep c k v) (hs : opSpec c p (.iunlock i) Q v) :
    wp (exec p (.iunlock i)) (Leads c Q) c.E k := by
  obtain ⟨sl, hi, hb, hQ⟩ := hs
  obtain ⟨hpos, hinum, href, hbusy, hvalid⟩ := h.inode hi
  simp only [exec, wp_onFs, Fs.iunlock, Fs.setInode, wp_bind, wp_gets, wp_stopIf, wp_modify,
    hbusy, hb]
  refine ⟨fun h0 => ?_, fun _ => ⟨_, hQ, h.touch hi ?_ rfl rfl rfl (by simp)⟩⟩
  · simp at h0
    omega
  · exact slotOf_eq_some.2 ⟨hpos, hinum, href, rfl, hvalid⟩

end

/-! ## Transactions -/

/-- A file is a matter of its inode, its blocks and its bytes. -/
theorem fileOf_congr (htab : table g disk' i = table g disk i)
    (hn : ∀ k π, node g (table g disk') disk' (i, k) π = node g (table g disk) disk (i, k) π)
    (hb : ∀ o, fileByte g (table g disk') disk' i o = fileByte g (table g disk) disk i o) :
    fileOf g disk' i = fileOf g disk i := by
  have hb : fileByte g (table g disk') disk' i = fileByte g (table g disk) disk i := funext hb
  rw [fileOf, fileOf, htab, hb]
  simp only [hn]

/-- The free blocks are a matter of the bitmap. -/
theorem free_congr (hu : ∀ b < g.size, used g disk' b = used g disk b) :
    Fs.free g g.logstart disk' = Fs.free g g.logstart disk := by
  refine Finset.filter_congr fun b hb => ?_
  rw [hu b (Nat.lt_of_lt_of_le (Finset.mem_range.1 hb) g.logstart_le)]

/-- The invariant of the disk is a matter of super block, inode table, blocks and bitmap. -/
theorem DiskInv.of_same (h : DiskInv g X disk) (hsb : disk' 1 = disk 1)
    (hn : ∀ x π, node g (table g disk') disk' x π = node g (table g disk) disk x π)
    (hu : ∀ b < g.size, used g disk' b = used g disk b)
    (hw : ∀ i, (table g disk' i).type ≠ 0 → ∀ bn, bn * BSIZE < (table g disk' i).size.toNat →
      node g (table g disk) disk (i, (pos bn).1) (pos bn).2 ≠ none) : DiskInv g X disk' := by
  have hsz := g.logstart_le
  have hlt := g.dstart_lt
  refine ⟨by rw [hsb]; exact h.sb, h.own.of_node_eq hn fun b hb hb' => ?_, fun i ht bn hbn => ?_,
    fun hX b hb hb' hge => ?_⟩
  · rw [hu b (by omega)]; exact hb'
  · rw [hn]; exact hw i ht bn hbn
  · rw [hu b hb] at hb'
    obtain ⟨x, π, hx⟩ := h.exact hX b hb hb' hge
    exact ⟨x, π, by rw [hn, hx]⟩

/-- The log area is not part of the file system. -/
theorem DiskInv.congr (h : DiskInv g X disk) (hd : ∀ b < g.logstart, disk' b = disk b) :
    DiskInv g X disk' ∧ (∀ i, fileOf g disk' i = fileOf g disk i) ∧
      table g disk' = table g disk ∧ ∀ b < g.size, used g disk' b = used g disk b := by
  have hlt := g.dstart_lt
  have hfront : ∀ b < g.ninodes / IPB + 3, disk' b = disk b := fun b hb => hd b (by
    have := g.front_lt hb
    omega)
  have htab : table g disk' = table g disk := table_congr hfront
  have hused : ∀ b < g.size, used g disk' b = used g disk b := fun b hb => used_congr (hd _ (by
    have := g.bblock_lt hb
    omega))
  obtain ⟨hn, hbytes⟩ := node_eq_of_same (congrArg (root g) htab)
    fun x π a ha => hd a (h.own.data x π a ha).2.1
  refine ⟨h.of_same (hfront 1 g.one_lt_front) hn hused fun i => ?_, fun i => ?_, htab,
    hused⟩
  · rw [htab]; exact h.whole i
  · exact fileOf_congr (by rw [htab]) (fun k π => hn (i, k) π) (hbytes i)

/-- The rule for `begin_trans`. -/
theorem Rep.begin_trans {Q : Unit → View → Prop} (h : Rep c k v)
    (hs : opSpec c p .begin_trans Q v) : wp (exec p .begin_trans) (Leads c Q) c.E k := by
  obtain ⟨ht, S, hS, hQ⟩ := hs
  simp only [exec, wp_onFs, Fs.begin_trans, wp_bind, wp_gets, wp_stopIf, wp_modify, h.trans, ht]
  refine ⟨fun hf => by simp at hf, fun _ => ⟨_, hQ, { h with fits := ?_, trans := rfl }⟩⟩
  rcases hS with hE | ⟨hcard, hsize⟩
  · exact .inl hE
  · refine h.fits.imp id fun hf => ⟨fun hf => (by cases hf), fun S' hS' => ?_⟩
    have hnil := hf.1
    obtain rfl := Option.some.inj hS'
    have hnil := (hnil ht).1
    exact ⟨by simp [hnil], by simp [hnil], hcard, by simp only [h.size]; exact hsize⟩

/-- The rule for `commit_trans`. -/
theorem Rep.commit_trans {Q : Unit → View → Prop} (h : Rep c k v)
    (hs : opSpec c p .commit_trans Q v) : wp (exec p .commit_trans) (Leads c Q) c.E k := by
  simp only [exec, wp_onFs]
  refine wp_post (commit_trans_spec (.inr (by rw [h.start]; exact h.lh))) ?_
  rintro _ s' ⟨hd, hi, hdev, hl⟩
  rw [h.start] at hd
  obtain ⟨hinv, hfiles, htab, hused⟩ := h.disk.congr hd
  refine ⟨_, hs, {
    disk := hinv
    cache := ⟨by rw [hi]; exact h.cache.bound, by rw [hi, htab]; exact h.cache.sync,
      by rw [hi]; exact h.cache.busy, by rw [hi]; exact h.cache.uniq⟩
    start := by rw [hl]; exact h.start
    size := by rw [hl]; exact h.size
    lh := by rw [hl]; simp
    fits := .inr ⟨fun _ => ⟨by rw [hl], rfl⟩, fun S hS => (by cases hS)⟩
    files := fun i => by rw [hfiles]; exact h.files i
    free := (free_congr hused).trans h.free
    bits := fun b hb => (hused b hb).trans (h.bits b hb)
    slot := by rw [hi]; exact h.slot
    trans := by rw [hl]
    file := h.file
    proc := h.proc
    pipe := h.pipe
    pages := h.pages
    tidy := h.tidy }⟩

/-- The log of an open transaction that takes one more block. -/
theorem Rep.room (h : Rep c k v) (ht : v.trans = true) (hl : c.CanLog v) :
    ∃ S, (c.E .tooBig ∨ v.room = some S) ∧ Room c.E S k.fs.log := by
  have hbusy := h.trans.trans ht
  rcases h.fits with hE | ⟨-, hfits⟩
  · exact ⟨∅, .inl hE, .inr hbusy, .inl hE⟩
  · rcases hl with hE | hroom
    · exact ⟨∅, .inl hE, .inr hbusy, .inl hE⟩
    · obtain ⟨S, hS⟩ := Option.ne_none_iff_exists'.1 hroom
      exact ⟨S, .inr hS, .inr hbusy, .inr (hfits S hS)⟩

/-- What fits after a block has been logged. -/
theorem fits_of_after {b : Nat} {log : Disk.Log}
    (hS : c.E .tooBig ∨ v.room = some S) (ht : v.trans = true) (hR : Room (After c.E S b) S log) :
    c.E .tooBig ∨ ((v.log b).trans = false → log.lh = [] ∧ (v.log b).room = none) ∧
      ∀ S', (v.log b).room = some S' → Fits S' log := by
  rcases hS with hE | hS
  · exact .inl hE
  · rcases hR.2 with (hE | ⟨-, hb⟩) | hfit
    · exact .inl hE
    · refine .inr ⟨fun hf => ?_, fun S' hS' => ?_⟩
      · rw [View.log, ht] at hf; cases hf
      · simp only [View.log, hS, Option.filter_eq_some_iff, decide_eq_true_eq] at hS'
        obtain ⟨he, hmem⟩ := hS'
        exact absurd (Option.some.inj he ▸ hmem) hb
    · grind [View.log, Option.filter_eq_some_iff]

/-! ## Operations on inodes -/

/-- The inode of one cache entry changes, in the cache and on the disk. -/
theorem CacheInv.write {inode inode' : Nat → Inode}
    (hc : CacheInv g disk inode) (hi : 0 < (inode i).ref)
    (htab : ∀ j ≠ (inode i).inum, table g disk' j = table g disk j)
    (hother : ∀ j ≠ i, inode' j = inode j)
    (hx : 0 < (inode' i).ref → (inode' i).inum = (inode i).inum ∧
      ((inode' i).valid = true → (inode' i).d = table g disk' (inode i).inum ∧
        (inode' i).d.type ≠ 0) ∧ ((inode' i).busy = true → (inode' i).valid = true)) :
    CacheInv g disk' inode' := by
  have hcase : ∀ j, 0 < (inode' j).ref → (inode' j).inum = (inode j).inum ∧ 0 < (inode j).ref := by
    grind
  refine ⟨fun j hj => ?_, fun j hj hv => ?_, fun j hj hb => ?_, fun j j' hj hj' he => ?_⟩
  · rw [(hcase j hj).1]
    exact hc.bound j (hcase j hj).2
  · by_cases hji : j = i
    · subst hji
      rw [(hx hj).1]
      exact (hx hj).2.1 hv
    · rw [hother j hji] at hj hv ⊢
      rw [htab _ fun he => hji (hc.uniq j i hj hi he)]
      exact hc.sync j hj hv
  · by_cases hji : j = i
    · subst hji; exact (hx hj).2.2 hb
    · rw [hother j hji] at hj hb ⊢
      exact hc.busy j hj hb
  · refine hc.uniq j j' (hcase j hj).2 (hcase j' hj').2 ?_
    rw [← (hcase j hj).1, ← (hcase j' hj').1, he]

/-- A valid cache entry, ready for the functions of the file layer. -/
theorem Rep.ctx (h : Rep c k v) (hi : v.slot i = some sl) (hv : sl.valid = true) :
    Ctx c.g c.g.logstart i k.fs ∧ Fs.view c.g k.fs i = table c.g k.fs.disk := by
  obtain ⟨hpos, hinum, -, -, -⟩ := h.inode hi
  obtain ⟨f, hf, hd, ht⟩ := h.cached hi hv
  have hview : Fs.view c.g k.fs i = table c.g k.fs.disk := by
    rw [Fs.view, hd, hinum, update_eq_self]
  exact ⟨⟨h.disk.sb, c.g.logstart_le, Nat.le_of_lt c.g.dstart_lt, (h.cache.bound i hpos).2, ht,
    by rw [hview]; exact h.disk.own⟩, hview⟩

/-- The blocks that `itrunc` frees. -/
theorem Rep.mem_owned (h : Rep c k v) (hf : v.files m = some f) {b : Nat} :
    b ∈ owned (table c.g k.fs.disk m) k.fs.disk ↔ f.Owns b := by
  rw [← h.files] at hf
  obtain ⟨ht, -, -, -, -, hblock⟩ := fileOf_eq_some hf
  rw [Fs.mem_owned (lt_of_fileOf hf) ht, AFile.Owns, hblock]
  exact ⟨fun ⟨k, ρ, h1, h2⟩ => ⟨(k, ρ), h1, h2⟩, fun ⟨p, h1, h2⟩ => ⟨p.1, p.2, h1, h2⟩⟩

/-- An inode freed by its last reference. -/
theorem Rep.removed {E : Stop → Prop} (h : Rep c k v)
    (hi : v.slot i = some sl) (hd : v.Dying sl f) (hX : c.exact → f.Simple)
    (hr : Removed E S c.g i k.fs s') {F : Finset Nat} (hF : ∀ b, b ∈ F ↔ b ∈ v.free ∨ f.Owns b)
    (hfits : c.E .tooBig ∨ (v.trans = false → s'.log.lh = [] ∧ v.room = none) ∧
      ∀ S, v.room = some S → Fits S s'.log) :
    Rep c { k with fs := s' } { (v.setSlot i none).setFile sl.inum none with
      free := F, bits := used c.g s'.disk } := by
  obtain ⟨hpos, hinum, -, -, -⟩ := h.inode hi
  obtain ⟨hctx, hview⟩ := h.ctx hi hd.valid
  obtain ⟨f', hf', hcd, ht⟩ := h.cached hi hd.valid
  have hfile := (h.files _).trans hd.file
  obtain ⟨-, -, -, -, -, hblock⟩ := fileOf_eq_some hfile
  have hother : ∀ j ≠ sl.inum, table c.g s'.disk j = table c.g k.fs.disk j := fun j hj => by
    rw [hr.table, hinum, update_of_ne hj]
  have hself : (table c.g s'.disk sl.inum).type = 0 := by
    rw [hr.table, hinum, update_self]
  have hnode : ∀ j ≠ sl.inum, ∀ k' π, node c.g (table c.g s'.disk) s'.disk (j, k') π =
      node c.g (table c.g k.fs.disk) k.fs.disk (j, k') π := fun j hj k' π => by
    rw [hr.node h.disk.own, if_neg (by rw [hinum]; exact hj)]
  refine {
    disk := ⟨by rw [hr.sb]; exact h.disk.sb, hr.own hctx hview, fun j hj bn hbn => ?_,
      fun hx b hb hu hge => ?_⟩
    cache := h.cache.write hpos (fun j hj => hother j (hinum ▸ hj)) hr.inode fun hp => ?_
    start := hr.log.start.trans h.start
    size := hr.log.size.trans h.size
    lh := fun b hb => ?_
    fits := hfits
    files := fun j => ?_
    free := ?_
    bits := fun _ _ => rfl
    slot := fun j => ?_
    trans := hr.log.busy.trans h.trans
    file := h.file
    proc := h.proc
    pipe := h.pipe
    pages := h.pages
    tidy := fun j f' hf' => ?_ }
  · have hne : j ≠ sl.inum := fun e => hj (e ▸ hself)
    rw [hnode j hne]
    rw [hother j hne] at hj hbn
    exact h.disk.whole j hj bn hbn
  · have hux : used c.g k.fs.disk b = true := by
      rw [hr.used] at hu
      exact (Bool.and_eq_true _ _ ▸ hu).2
    refine hr.exact hctx hview ?_ (h.disk.exact hx b hb hux hge) hu
    have hsimple := hX hx
    rw [AFile.Simple, hblock] at hsimple
    by_contra hne
    rw [hcd] at hne
    simp [node, root, lt_of_fileOf hfile, (fileOf_eq_some hfile).1, hne] at hsimple
  · rw [hr.ref] at hp; omega
  · rcases hr.log.lh b hb with hb | hb
    · exact h.lh b hb
    · exact hb.trans c.g.dstart_lt
  · by_cases hj : j = sl.inum
    · subst hj
      simp only [View.setFile, update_self]
      exact fileOf_eq_none.2 hself
    · simp only [View.setFile, update_of_ne hj]
      refine Eq.trans (fileOf_congr (hother j hj) (hnode j hj) fun o => ?_) (h.files j)
      rw [hr.bytes h.disk.own (by rw [hinum]; exact hj)]
  · ext b
    rw [hF, ← h.free, ← h.mem_owned hd.file, ← hcd, mem_free, mem_free, hr.used]
    by_cases hb : b ∈ owned (k.fs.inode i).d k.fs.disk
    · simp [hb, (hctx.owned_lt b hb).2]
    · simp [hb]
  · by_cases hj : j = i
    · subst hj
      simp only [View.setFile, View.setSlot, update_self]
      exact slotOf_eq_none.2 hr.ref
    · simp only [View.setFile, View.setSlot, update_of_ne hj]
      rw [hr.inode j hj]
      exact h.slot j
  · by_cases hj : j = sl.inum
    · subst hj
      simp [View.setFile] at hf'
    · simp only [View.setFile, update_of_ne hj] at hf'
      exact h.tidy j f' hf'

/-- The rule for `iput`. -/
theorem Rep.iput {Q : Unit → View → Prop} (h : Rep c k v) (hs : opSpec c p (.iput i) Q v) :
    wp (exec p (.iput i)) (Leads c Q) c.E k := by
  obtain ⟨sl, hi, hfree, hkeep⟩ := hs
  obtain ⟨hpos, hinum, href, hbusy, hvalid⟩ := h.inode hi
  simp only [exec, wp_onFs, Fs.iput, wp_bind, wp_gets]
  have hdying : (k.fs.inode i).ref = 1 ∧ (k.fs.inode i).valid = true ∧
      (k.fs.inode i).d.nlink = 0 ↔ ∃ f, v.Dying sl f := by
    constructor
    · rintro ⟨h1, h2, h3⟩
      obtain ⟨f, hf, hd, -⟩ := h.cached hi (hvalid ▸ h2)
      have hl := (fileOf_eq_some ((h.files _).trans hf)).2.2.1
      refine ⟨f, href ▸ h1, hvalid ▸ h2, hf, ?_⟩
      rw [hl, ← hd]
      exact h3
    · rintro ⟨f, hd⟩
      obtain ⟨f', hf', hcd, -⟩ := h.cached hi hd.valid
      have hl := (fileOf_eq_some ((h.files _).trans hd.file)).2.2.1
      refine ⟨href.trans hd.ref, hvalid.trans hd.valid, ?_⟩
      have hn := hd.nlink
      rw [hl, ← hcd] at hn
      exact hn
  refine wp_ite (fun hc => ?_) fun hc => ?_
  · obtain ⟨f, hd⟩ := hdying.1 hc
    obtain ⟨hb, hok, hQ⟩ := hfree f hd
    obtain ⟨hctx, hview⟩ := h.ctx hi hd.valid
    obtain ⟨f', hf', hcd, ht⟩ := h.cached hi hd.valid
    obtain ⟨S, hR, hS, hroom⟩ : ∃ S, Room c.E S k.fs.log ∧
        (c.E .tooBig ∨ (∀ b ∈ owned (k.fs.inode i).d k.fs.disk, BBLOCK b c.g.ninodes ∈ S) ∧
          IBLOCK (k.fs.inode i).inum ∈ S) ∧ (c.E .tooBig ∨ v.trans = true ∧ v.room = some S) := by
      have hbusy : c.E .outsideTrans ∨ k.fs.log.busy = true := by rw [h.trans]; exact hok.trans
      rcases h.fits with hE | ⟨hnil, hfits⟩
      · exact ⟨∅, ⟨hbusy, .inl hE⟩, .inl hE, .inl hE⟩
      rcases hok.room with hE | ⟨S, hS, hib, hbb⟩
      · exact ⟨∅, ⟨hbusy, .inl hE⟩, .inl hE, .inl hE⟩
      · refine ⟨S, ⟨hbusy, .inr (hfits S hS)⟩, .inr ⟨fun b hb => hbb b ?_, by rw [hinum]; exact hib⟩,
          .inr ⟨?_, hS⟩⟩
        · rw [hcd] at hb
          exact (h.mem_owned hd.file).1 hb
        · grind
    refine wp_post (iputFree_spec hctx hc.1 (by rw [hbusy, hb]) hR hS) fun _ s' hr => ?_
    have hFin : ∃ F : Finset Nat, ∀ b, b ∈ F ↔ b ∈ v.free ∨ f.Owns b := by
      refine ⟨v.free ∪ (owned (table c.g k.fs.disk sl.inum) k.fs.disk).toFinset, fun b => ?_⟩
      rw [Finset.mem_union, List.mem_toFinset, h.mem_owned hd.file]
    obtain ⟨F, hF⟩ := hFin
    refine ⟨_, hQ F _ hF, h.removed hi hd hok.simple hr hF ?_⟩
    rcases hroom with hE | ⟨ht, hroom⟩
    · exact .inl hE
    · refine hr.room.2.imp id fun hfit => ⟨fun hf => ?_, fun S' hS' => ?_⟩
      · rw [ht] at hf; cases hf
      rw [hroom] at hS'
      obtain rfl := Option.some.inj hS'
      exact hfit
  · refine ⟨_, hkeep fun f hd => hc (hdying.2 ⟨f, hd⟩), h.touch hi ?_ rfl rfl rfl
      (h.cache.busy i hpos)⟩
    simp only [slotOf, Slot.drop, href, hinum, hbusy, hvalid]
    split <;> split <;> first | rfl | omega

/-- An inode written back whose blocks are what they were. -/
theorem DiskInv.putInode (h : DiskInv g X disk) (hm : m < g.ninodes) {d : Dinode}
    (hdisk : disk' = update disk (IBLOCK m) (putDinode (disk (IBLOCK m)) m d))
    (hroot : root g (update (table g disk) m d) = root g (table g disk))
    (hw : d.type ≠ 0 → ∀ bn, bn * BSIZE < d.size.toNat →
      node g (table g disk) disk (m, (pos bn).1) (pos bn).2 ≠ none) :
    DiskInv g X disk' ∧ table g disk' = update (table g disk) m d ∧
      (∀ x π, node g (table g disk') disk' x π = node g (table g disk) disk x π) ∧
      (∀ i o, fileByte g (table g disk') disk' i o = fileByte g (table g disk) disk i o) ∧
      ∀ b < g.size, used g disk' b = used g disk b := by
  have htab : table g disk' = update (table g disk) m d := by
    rw [hdisk, table_putDinode hm]
  obtain ⟨hn, hb, hu, h1⟩ := h.own.write_iblock hm hdisk
  obtain ⟨hn', hb'⟩ := @node_eq_of_same _ _ _ disk' _ (hroot.symm ▸ congrArg (root g) htab)
    fun _ _ _ _ => rfl
  have hnode : ∀ x π, node g (table g disk') disk' x π = node g (table g disk) disk x π :=
    fun x π => (hn' x π).trans (hn x π)
  refine ⟨h.of_same h1 hnode (fun b _ => hu b) fun i => ?_, htab, hnode,
    fun i o => (hb' i o).trans (hb i o), fun b _ => hu b⟩
  rw [htab]
  by_cases hi : i = m
  · subst hi; rw [update_self]; exact hw
  · rw [update_of_ne hi]; exact h.whole i

/-- The rule for `iupdate`. -/
theorem Rep.iupdate {Q : Unit → View → Prop} {l : Links → Links} (h : Rep c k v)
    (hs : opSpec c p (.iupdate i l) Q v) : wp (exec p (.iupdate i l)) (Leads c Q) c.E k := by
  obtain ⟨sl, f, hl, ht, hcan, hQ⟩ := hs
  obtain ⟨hpos, hinum, hd, htype, hftype, hlinks, hsize⟩ := h.locked hl
  obtain ⟨S, hS, hR⟩ := h.room ht hcan
  have hlt : sl.inum < c.g.ninodes := hinum ▸ (h.cache.bound i hpos).2
  simp only [exec, wp_onFs, Fs.setInode, wp_bind, wp_modify]
  generalize hs0 : ({ k.fs with inode := _ } : State) = s0
  have hi0 : s0.inode i = { k.fs.inode i with d := setLinks l (k.fs.inode i).d } := by
    rw [← hs0]; simp
  have hdisk0 : s0.disk = k.fs.disk := by rw [← hs0]
  have hlog0 : s0.log = k.fs.log := by rw [← hs0]
  have hspec := @Fs.iupdate_spec i s0 c.E S (by rw [hlog0]; exact hR)
  rw [hi0] at hspec
  simp only [hinum] at hspec
  refine wp_post hspec fun _ s' hu => ⟨_, hQ, ?_⟩
  have hroot : root c.g (update (table c.g k.fs.disk) sl.inum
      (setLinks l (k.fs.inode i).d)) = root c.g (table c.g k.fs.disk) := by
    refine root_congr fun j => ?_
    by_cases hj : j = sl.inum
    · subst hj; rw [update_self, hd]; exact ⟨rfl, rfl⟩
    · rw [update_of_ne hj]; exact ⟨rfl, rfl⟩
  obtain ⟨hinv, htab, hnode, hbyte, hused⟩ := h.disk.putInode hlt
    (hdisk0 ▸ hu.disk) hroot fun hne bn hbn => by
      rw [hd] at hne hbn
      exact h.disk.whole _ hne bn hbn
  have hfile := (h.files _).trans hl.file
  have hothers : ∀ j ≠ i, s'.inode j = k.fs.inode j := fun j hj => by
    rw [hu.inode, ← hs0]; exact update_of_ne hj _ _
  have hself : s'.inode i = { k.fs.inode i with d := setLinks l (k.fs.inode i).d } := by
    rw [hu.inode, hi0]
  have hlog : LogSame (IBLOCK sl.inum + 1) k.fs.log s'.log := hlog0 ▸ hu.log
  refine {
    disk := hinv
    cache := h.cache.write hpos (fun j hj => ?_) hothers fun _ => ?_
    start := hlog.start.trans h.start
    size := hlog.size.trans h.size
    lh := fun b hb => ?_
    fits := fits_of_after hS ht hu.room
    files := fun j => ?_
    free := (free_congr hused).trans h.free
    bits := fun b hb => (hused b hb).trans (h.bits b hb)
    slot := fun j => ?_
    trans := hlog.busy.trans h.trans
    file := h.file
    proc := h.proc
    pipe := h.pipe
    pages := h.pages
    tidy := fun j f' hf' => ?_ }
  · rw [htab, update_of_ne (hinum ▸ hj)]
  · rw [hself, hinum, htab, update_self]
    exact ⟨rfl, fun _ => ⟨rfl, htype⟩, h.cache.busy i hpos⟩
  · have := c.g.front_lt (c.g.iblock_lt hlt)
    have := c.g.dstart_lt
    rcases hlog.lh b hb with hb | hb
    · exact h.lh b hb
    · omega
  · by_cases hj : j = sl.inum
    · subst hj
      simp only [View.setFile, View.log, update_self]
      obtain ⟨-, -, -, -, hfb, hfk⟩ := fileOf_eq_some hfile
      refine fileOf_intro (by rw [← hftype]; exact htype) ?_ ?_ ?_ (fun o => ?_) fun k π => ?_
      · rw [htab, update_self]; exact hftype
      · rw [htab, update_self, ← hlinks]; rfl
      · rw [htab, update_self]; exact hsize
      · rw [hbyte, hfb]
      · rw [hnode, hfk]
    · simp only [View.setFile, View.log, update_of_ne hj]
      refine Eq.trans (fileOf_congr ?_ (fun k π => hnode _ π) (hbyte j)) (h.files j)
      rw [htab, update_of_ne hj]
  · by_cases hj : j = i
    · subst hj
      rw [hself]
      exact h.slot j
    · rw [hothers j hj]; exact h.slot j
  · by_cases hj : j = sl.inum
    · subst hj
      simp only [View.setFile, View.log, update_self] at hf'
      obtain rfl := Option.some.inj hf'
      exact h.tidy _ f hl.file
    · simp only [View.setFile, View.log, update_of_ne hj] at hf'
      exact h.tidy j f' hf'

/-- A free inode becomes an empty file on the disk. -/
theorem Rep.alloc {type : Int16} (h : Rep c k v) (hm : m < c.g.ninodes)
    (hnone : v.files m = none) (ht : type ≠ 0) (hS : c.E .tooBig ∨ v.room = some S)
    (htrans : v.trans = true) (hu : Updated c.E S m { Dinode.zero with type } k.fs s') :
    Rep c { k with fs := s' } ((v.setFile m (some (.empty type))).log (IBLOCK m)) := by
  have hzero : (table c.g k.fs.disk m).type = 0 := fileOf_eq_none.1 ((h.files m).trans hnone)
  have hroot : root c.g (update (table c.g k.fs.disk) m { Dinode.zero with type }) =
      root c.g (table c.g k.fs.disk) := by
    funext x
    by_cases hx : x.1 = m
    · simp [root, hx, hzero, Dinode.zero]
    · simp [root, update_of_ne hx]
  obtain ⟨hinv, htab, hnode, hbyte, hused⟩ := h.disk.putInode hm hu.disk hroot
    fun _ bn hbn => absurd hbn (Nat.not_lt_zero _)
  have hempty : ∀ k' π, node c.g (table c.g k.fs.disk) k.fs.disk (m, k') π = none := fun k' π =>
    Shape.node_none_of_root (by simp [root, hzero]) π
  refine {
    disk := hinv
    cache := ⟨by rw [hu.inode]; exact h.cache.bound, ?_, by rw [hu.inode]; exact h.cache.busy,
      by rw [hu.inode]; exact h.cache.uniq⟩
    start := hu.log.start.trans h.start
    size := hu.log.size.trans h.size
    lh := fun b hb => ?_
    fits := fits_of_after hS htrans hu.room
    files := fun j => ?_
    free := (free_congr hused).trans h.free
    bits := fun b hb => (hused b hb).trans (h.bits b hb)
    slot := fun j => by rw [hu.inode]; exact h.slot j
    trans := hu.log.busy.trans h.trans
    file := h.file
    proc := h.proc
    pipe := h.pipe
    pages := h.pages
    tidy := fun j f' hf' => ?_ }
  · rw [hu.inode]
    intro j hj hv
    obtain ⟨h1, h2⟩ := h.cache.sync j hj hv
    refine ⟨?_, h2⟩
    rw [htab, update_of_ne fun e => h2 (by rw [h1, e, hzero])]
    exact h1
  · have := c.g.front_lt (c.g.iblock_lt hm)
    have := c.g.dstart_lt
    rcases hu.log.lh b hb with hb | hb
    · exact h.lh b hb
    · omega
  · by_cases hj : j = m
    · subst hj
      simp only [View.setFile, View.log, update_self]
      refine fileOf_intro ht ?_ ?_ ?_ (fun o => ?_) fun k' π => ?_
      · rw [htab, update_self]; rfl
      · rw [htab, update_self]; rfl
      · rw [htab, update_self]; rfl
      · rw [hbyte, fileByte, hempty]; rfl
      · rw [hnode, hempty]; rfl
    · simp only [View.setFile, View.log, update_of_ne hj]
      refine Eq.trans (fileOf_congr ?_ (fun k π => hnode _ π) (hbyte j)) (h.files j)
      rw [htab, update_of_ne hj]
  · by_cases hj : j = m
    · subst hj
      simp only [View.setFile, View.log, update_self] at hf'
      obtain rfl := Option.some.inj hf'
      exact fun _ => ⟨Nat.dvd_zero _, fun j hj => by simp [AFile.count, AFile.empty] at hj⟩
    · simp only [View.setFile, View.log, update_of_ne hj] at hf'
      exact h.tidy j f' hf'

/-- The rule for `ialloc`. -/
theorem Rep.ialloc {R : Nat → View → Prop} {type : Int16} (h : Rep c k v)
    (hs : opSpec c p (.ialloc type) R v) : wp (exec p (.ialloc type)) (Leads c R) c.E k := by
  obtain ⟨ht, htrans, hcan, hE, hE', hR⟩ := hs
  obtain ⟨S, hS, hroom⟩ := h.room htrans hcan
  simp only [exec, wp_onFs, Fs.ialloc, readsb, wp_bind, wp_gets, h.disk.sb]
  -- the inodes tried before are taken
  have hpre : ∀ (a : Nat) (is : List Nat), 0 < a → is = List.range' a (c.g.ninodes - a) →
      (∀ j, 0 < j → j < a → v.files j ≠ none) →
      wp (iallocFrom type is) (fun i s' => Leads c R i { k with fs := s' }) c.E k.fs := by
    intro a is
    induction is generalizing a with
    | nil => intro _ _ _; exact hE
    | cons m is ih =>
      intro ha his hbefore
      obtain ⟨n, hn⟩ : ∃ n, c.g.ninodes - a = n + 1 := by
        cases hn : c.g.ninodes - a with
        | zero => rw [hn] at his; cases his
        | succ n => exact ⟨n, rfl⟩
      rw [hn, List.range'_succ] at his
      obtain ⟨rfl, his⟩ := List.cons.inj his
      have hm : m < c.g.ninodes := by omega
      have hfile : v.files m = none ↔ (getDinode (k.fs.disk (IBLOCK m)) m).type = 0 := by
        rw [← h.files, fileOf_eq_none, table, if_pos hm]
        rfl
      refine wp_ite (fun hz => ?_) fun hz => ?_
      · refine wp_seq (log_write_any hroom) fun _ s1 hu => ?_
        refine wp_post ((h.alloc hm (hfile.2 hz) ht hS htrans hu).iget_fs hm fun _ => hE') ?_
        rintro i s2 ⟨sl, hi, hrep⟩
        refine ⟨_, hR m i sl ha hm (hfile.2 hz) hbefore ?_, hrep⟩
        cases hi with
        | old sl h1 h2 => exact .old sl h1 h2
        | new h0 h1 h2 => exact .new h0 h1 h2
      · refine ih (m + 1) (Nat.succ_pos _) ?_ fun j h0 hj => ?_
        · rw [his]
          congr 1
          omega
        · grind
  refine hpre 1 _ Nat.one_pos ?_ fun j h0 hj => by omega
  rw [List.range_eq_range', List.drop_range']

/-! ## Reading and writing -/

/-- The file of a locked entry, as the file layer finds it. -/
theorem Rep.blockAt (h : Rep c k v) (hl : v.Locked i sl f) :
    Whole c.g k.fs i ∧ (∀ p, Fs.blockAt c.g k.fs i p = f.block p) ∧
      ∀ o, fileByte c.g (table c.g k.fs.disk) k.fs.disk sl.inum o = f.byte o := by
  have hvalid := (h.wf.slot i sl hl.slot).2.2.1 hl.busy
  obtain ⟨-, hinum, -, -, -, -, hsize⟩ := h.locked hl
  obtain ⟨-, hview⟩ := h.ctx hl.slot hvalid
  obtain ⟨-, -, -, -, hbyte, hblock⟩ := fileOf_eq_some ((h.files _).trans hl.file)
  have hat : ∀ p, Fs.blockAt c.g k.fs i p = f.block p := fun p => by
    rw [Fs.blockAt, hview, hinum, hblock]
  refine ⟨fun bn hbn => ?_, hat, fun o => by rw [hbyte]⟩
  rw [HasBlock, hat]
  exact h.wf.whole _ f hl.file bn (hsize ▸ hbn)

/-- The rule for `readi`. -/
theorem Rep.readi {R : Option (Nat × Bytes) → View → Prop} {off n : UInt32} (h : Rep c k v)
    (hs : opSpec c p (.readi i off n) R v) : wp (exec p (.readi i off n)) (Leads c R) c.E k := by
  obtain ⟨sl, f, hl, hdev, hnone, hsome⟩ := hs
  obtain ⟨-, hinum, -, -, htype, -, hsize⟩ := h.locked hl
  simp only [exec, wp_onFs]
  by_cases ht : f.type = T_DEV
  · -- a device changes no state
    simp only [Fs.readi, wp_bind, wp_gets, if_pos (htype.trans ht)]
    cases (k.fs.devsw (k.fs.inode i).d.major.toInt.toNat).read with
    | none => exact ⟨v, hdev ht _, h⟩
    | some read =>
      exact wp_ite (fun _ => ⟨v, hdev ht _, h⟩) fun _ => ⟨v, hdev ht _, h⟩
  · obtain ⟨hctx, hview⟩ := h.ctx hl.slot ((h.wf.slot i sl hl.slot).2.2.1 hl.busy)
    obtain ⟨hwhole, -, hbyte⟩ := h.blockAt hl
    refine wp_post (readi_spec (by rw [htype]; exact ht) hwhole hsize) ?_
    rintro r s' ⟨rfl, hr⟩
    split at hr
    · next hout =>
      rw [hr]
      exact ⟨v, hnone ht hout, h⟩
    · next hout =>
      obtain ⟨dst, rfl, hdst⟩ := hr
      refine ⟨v, hsome ht hout dst fun o ho => ?_, h⟩
      rw [hdst o ho, hview, hinum, hbyte]

/-- What a write may use, for the file layer. -/
theorem Rep.budget {off n : Nat} (h : Rep c k v) (hl : v.Locked i sl f) (hok : WriteOk c v f off n) :
    ∃ S, (c.E .tooBig ∨ v.room = some S) ∧ Budget c.g c.g.logstart c.E S 0 (span off n) i k.fs := by
  obtain ⟨-, hat, -⟩ := h.blockAt hl
  have hmiss : missing c.g k.fs i (span off n) = f.missing (span off n) :=
    Finset.filter_congr fun p _ => by rw [hat]
  have hbusy : k.fs.log.busy = true := h.trans.trans hok.trans
  have henough : (missing c.g k.fs i (span off n)).card + 0 ≤
      (Fs.free c.g c.g.logstart k.fs.disk).card := by
    rw [hmiss, h.free]; exact hok.enough
  rcases h.fits with hE | ⟨-, hfits⟩
  · exact ⟨∅, .inl hE, ⟨.inr hbusy, .inl hE⟩, .inr henough, .inl hE⟩
  rcases hok.room with hE | ⟨S, hS, htouch, hres⟩
  · exact ⟨∅, .inl hE, ⟨.inr hbusy, .inl hE⟩, .inr henough, .inl hE⟩
  · refine ⟨S, .inr hS, ⟨.inr hbusy, .inr (hfits S hS)⟩, .inr henough, .inr ⟨fun p hp b hb ht => ?_, ?_⟩⟩
    · rw [hat] at hb
      exact htouch p hp b hb (hmiss ▸ ht)
    · rw [Reserve, h.free, hmiss]
      exact hres

/-- The kernel after a write. -/
theorem Rep.written {src : Bytes} {off n : Nat} (h : Rep c k v)
    (hl : v.Locked i sl f) (htrans : v.trans = true) (hS : c.E .tooBig ∨ v.room = some S)
    (hr : ¬ Refused f.size off n) (htidy : (f.write src off n).Tidy c.g)
    (hw : Written c.g c.g.logstart c.E S 0 i off (off + n) (fun o => src (o - off)) k.fs s') :
    ∃ block, Taken f (span off n) v.free block (Fs.free c.g c.g.logstart s'.disk) ∧
      Rep c { k with fs := s' } { (v.setFile sl.inum (some { f.write src off n with
        block })).log (IBLOCK sl.inum) with
          free := Fs.free c.g c.g.logstart s'.disk, bits := used c.g s'.disk } := by
  have hvalid := (h.wf.slot i sl hl.slot).2.2.1 hl.busy
  obtain ⟨hpos, hinum, hd, htype, hftype, hlinks, hsize⟩ := h.locked hl
  obtain ⟨hctx, hview⟩ := h.ctx hl.slot hvalid
  obtain ⟨-, hat, hbyte⟩ := h.blockAt hl
  have hmiss : missing c.g k.fs i (span off n) = f.missing (span off n) :=
    Finset.filter_congr fun p _ => by rw [hat]
  obtain ⟨a, hself⟩ := hw.self
  have hinum' : (s'.inode i).inum = sl.inum := by rw [hself]; exact hinum
  -- the inode on the disk is the cached one again
  have hsync : table c.g s'.disk sl.inum = (s'.inode i).d := by
    rw [← hinum]; exact hw.sync (by rw [hinum, hd])
  have hview' : Fs.view c.g s' i = table c.g s'.disk := by
    rw [Fs.view, hinum', ← hsync, update_eq_self]
  have hkeep := hw.keep
  have hfresh := hw.fresh
  have hbytes := hw.bytes
  have hnew := hw.new
  have hown := hw.ctx.own
  rw [hview'] at hkeep hfresh hbytes hnew hown
  rw [hview] at hkeep hfresh hbytes
  rw [hinum] at hfresh hbytes
  have htab : ∀ j ≠ sl.inum, table c.g s'.disk j = table c.g k.fs.disk j := fun j hj =>
    hw.table j (hinum.symm ▸ hj)
  have hnode : ∀ j ≠ sl.inum, ∀ m π, node c.g (table c.g s'.disk) s'.disk (j, m) π =
      node c.g (table c.g k.fs.disk) k.fs.disk (j, m) π := fun j hj m π => by
    cases hn : node c.g (table c.g k.fs.disk) k.fs.disk (j, m) π with
    | some b => exact hkeep _ _ b hn
    | none =>
      by_contra hne
      obtain ⟨b, hb⟩ := Option.ne_none_iff_exists'.1 hne
      rcases hfresh _ _ b hb with hb | ⟨hj', -⟩
      · rw [hn] at hb; cases hb
      · exact hj hj'
  have hlt : off + n < 2 ^ 32 := by
    simp only [Refused, not_or] at hr
    omega
  have hsize' : (s'.inode i).d.size.toNat = max f.size (off + n) := by
    rw [hself, hsize]
    refine UInt32.toNat_ofNat_of_lt' ?_
    have := (h.wf.inum _ f hl.file).2.2
    simp only [UInt32.size]
    omega
  have hblock : ∀ m π, f.block (m, π) = node c.g (table c.g k.fs.disk) k.fs.disk (sl.inum, m) π :=
    fun m π => by rw [← hat, Fs.blockAt, hview, hinum]
  refine ⟨fun p => node c.g (table c.g s'.disk) s'.disk (sl.inum, p.1) p.2,
    ⟨fun p b hb => ?_, fun p b hb => ?_, fun p hp => ?_, ?_, ?_⟩, ?_⟩
  · exact hkeep _ _ b (by rw [← hblock]; exact hb)
  · rcases hfresh _ _ b hb with hb | ⟨-, hb⟩
    · exact .inl (by rw [hblock]; exact hb)
    · exact .inr (h.free ▸ hb)
  · have hnone := @missing_of_whole off n _ _ _ hw.whole (by rw [hsize']; omega)
    intro hp'
    refine Finset.notMem_empty p (hnone ▸ Finset.mem_filter.2 ⟨hp, ?_⟩)
    rw [Fs.blockAt, hview', hinum']
    exact hp'
  · rw [← h.free]; exact hw.takes
  · have := hw.spent
    rw [Nat.add_sub_cancel_left, hmiss, h.free] at this
    exact this
  refine {
    disk := ⟨hw.ctx.sb, hown, fun j hj bn hbn => ?_, fun hx b hb hu hge => ?_⟩
    cache := h.cache.write hpos (fun j hj => htab j (hinum ▸ hj)) hw.inode fun hp => ?_
    start := hw.log.start.trans h.start
    size := hw.log.size.trans h.size
    lh := fun b hb => (hw.log.lh b hb).elim (h.lh b) id
    fits := fits_of_after hS htrans (by rw [← hinum]; exact hw.room)
    files := fun j => ?_
    free := rfl
    bits := fun _ _ => rfl
    slot := fun j => ?_
    trans := hw.log.busy.trans h.trans
    file := h.file
    proc := h.proc
    pipe := h.pipe
    pages := h.pages
    tidy := fun j f' hf' => ?_ }
  · by_cases hjm : j = sl.inum
    · subst hjm
      rw [hsync] at hbn
      have := hw.whole bn hbn
      rwa [HasBlock, Fs.blockAt, hview', hinum'] at this
    · rw [htab j hjm] at hj hbn
      rw [hnode j hjm]
      exact h.disk.whole j hj bn hbn
  · rcases hnew b hb hu with hu | ⟨hn, -⟩
    · obtain ⟨x, π, hx⟩ := h.disk.exact hx b hb hu hge
      exact ⟨x, π, hkeep _ _ b hx⟩
    · exact hn
  · refine ⟨by rw [hself], fun _ => ⟨?_, ?_⟩, ?_⟩
    · rw [hinum, hsync]
    · rw [hself]; exact htype
    · rw [hself]; exact h.cache.busy i hpos
  · by_cases hjm : j = sl.inum
    · subst hjm
      simp only [View.setFile, View.log, update_self]
      refine fileOf_intro (by rw [AFile.write, ← hftype]; exact htype) ?_ ?_ ?_ (fun o => ?_)
        fun _ _ => rfl
      · rw [hsync, hself]; exact hftype
      · rw [hsync, hself]; exact hlinks
      · rw [hsync]; exact hsize'
      · rw [hbytes, hbyte]
        simp [AFile.write]
    · simp only [View.setFile, View.log, update_of_ne hjm]
      refine Eq.trans (fileOf_congr (htab j hjm) (hnode j hjm) fun o => ?_) (h.files j)
      rw [hbytes, if_neg fun e => hjm e.1]
  · by_cases hj : j = i
    · subst hj
      rw [hself]
      exact h.slot j
    · rw [hw.inode j hj]; exact h.slot j
  · by_cases hjm : j = sl.inum
    · subst hjm
      simp only [View.setFile, View.log, update_self] at hf'
      obtain rfl := Option.some.inj hf'
      exact htidy
    · simp only [View.setFile, View.log, update_of_ne hjm] at hf'
      exact h.tidy j f' hf'

/-- The rule for `writei`. -/
theorem Rep.writei {R : Option Nat → View → Prop} {src : Bytes} {off n : UInt32} (h : Rep c k v)
    (hs : opSpec c p (.writei i src off n) R v) :
    wp (exec p (.writei i src off n)) (Leads c R) c.E k := by
  obtain ⟨sl, f, hl, hdev, hnone, hsome⟩ := hs
  obtain ⟨-, -, -, -, htype, -, hsize⟩ := h.locked hl
  simp only [exec, wp_onFs]
  by_cases ht : f.type = T_DEV
  · simp only [Fs.writei, wp_bind, wp_gets, if_pos (htype.trans ht)]
    cases (k.fs.devsw (k.fs.inode i).d.major.toInt.toNat).write with
    | none => exact ⟨v, hdev ht _, h⟩
    | some write =>
      exact wp_ite (fun _ => ⟨v, hdev ht _, h⟩) fun _ => ⟨v, hdev ht _, h⟩
  · obtain ⟨hctx, hview⟩ := h.ctx hl.slot ((h.wf.slot i sl hl.slot).2.2.1 hl.busy)
    obtain ⟨hwhole, -, -⟩ := h.blockAt hl
    have hdev' : (k.fs.inode i).d.type ≠ T_DEV := by rw [htype]; exact ht
    by_cases hr : Refused f.size off.toNat n.toNat
    · refine wp_post (writei_spec (S := ∅) (x := 0) hctx hdev' hwhole hsize
        fun hn => absurd hr hn) fun r s' hw => ?_
      rw [if_pos hr] at hw
      obtain ⟨rfl, rfl⟩ := hw
      exact ⟨v, hnone ht hr, h⟩
    · obtain ⟨hok, htidy, hR⟩ := hsome ht hr
      obtain ⟨S, hS, hB⟩ := h.budget hl hok
      refine wp_post (writei_spec hctx hdev' hwhole hsize fun _ => hB) fun r s' hw => ?_
      rw [if_neg hr] at hw
      obtain ⟨rfl, hw⟩ := hw
      obtain ⟨block, htaken, hrep⟩ := h.written hl hok.trans hS hr htidy hw
      exact ⟨_, hR block _ _ htaken, hrep⟩

/-! ## All operations, and programs -/

/-- The file table and the processes change. -/
theorem Rep.tables (h : Rep c k v) (file : Nat → File) (proc : Nat → Option Proc) :
    Rep c { k with file, proc } { v with file, proc } := { h with file := rfl, proc := rfl }

/-- The pipes change. -/
theorem Rep.pipes (h : Rep c k v) (pipe : Nat → Pipe) (pages : List Nat) :
    Rep c { k with pipe, pages } { v with pipe, pages } := { h with pipe := rfl, pages := rfl }

/-- `pipewrite` changes its pipe. -/
theorem Rep.pipewriteFrom {x : Nat} {Q : Bool → View → Prop} (hE : c.E .sleep) :
    ∀ (bs : List UInt8) (k : Kernel) (v : View), Rep c k v → (∀ r y, Q r (v.setPipe x y)) →
    wp (pipewriteFrom p x bs) (Leads c Q) c.E k
  | [], k, v, h, hQ => by
    refine ⟨_, hQ true (v.pipe x), ?_⟩
    rw [View.setPipe, update_eq_self]
    exact h
  | b :: bs, k, v, h, hQ => by
    simp only [Sys.pipewriteFrom, wp_bind, wp_gets, id]
    refine wp_ite (fun _ => ?_) fun _ => ?_
    · simp only [wp_bind, wp_stopIf, wp_pure]
      refine ⟨fun _ => hE, fun _ => ⟨_, hQ false (v.pipe x), ?_⟩⟩
      rw [View.setPipe, update_eq_self]
      exact h
    · simp only [wp_bind, wp_modify]
      refine Rep.pipewriteFrom hE bs _ _ (h.pipes _ k.pages) fun r y => ?_
      have := hQ r y
      rw [View.setPipe] at this ⊢
      simp only [h.pipe, h.pages, update_idem]
      exact this

/-- **What is allowed on the view is done by the kernel.** -/
theorem Rep.exec {β : Type} {o : Op β} {Q : β → View → Prop} (h : Rep c k v)
    (hs : opSpec c p o Q v) : wp (exec p o) (Leads c Q) c.E k := by
  obtain ⟨fs, file, proc, killed, pipe, pages⟩ := k
  obtain rfl : file = v.file := h.file
  obtain rfl : proc = v.proc := h.proc
  obtain rfl : pipe = v.pipe := h.pipe
  obtain rfl : pages = v.pages := h.pages
  cases o with
  | begin_trans => exact h.begin_trans hs
  | commit_trans => exact h.commit_trans hs
  | iget m => exact h.iget hs
  | idup i => exact h.idup hs
  | ilock i => exact h.ilock hs
  | iunlock i => exact h.iunlock hs
  | iput i => exact h.iput hs
  | ialloc type => exact h.ialloc hs
  | iupdate i l => exact h.iupdate hs
  | readi i off n => exact h.readi hs
  | writei i src off n => exact h.writei hs
  | inode i =>
    obtain ⟨sl, f, hl, hQ⟩ := hs
    obtain ⟨-, hinum, -, -, htype, hlinks, hsize⟩ := h.locked hl
    exact ⟨v, hQ _ hinum htype (congrArg Links.nlink hlinks) hsize, h⟩
  | cwd => exact ⟨v, hs, h⟩
  | setCwd ip => exact ⟨_, hs, h.tables _ _⟩
  | ofile fd => exact ⟨v, hs, h⟩
  | setOfile fd f => exact ⟨_, hs, h.tables _ _⟩
  | filealloc =>
    simp only [Sys.exec, filealloc, wp_bind, wp_gets, id]
    cases hfind : (List.range NFILE).find? fun f => (v.file f).ref = 0 with
    | none =>
      refine ⟨v, hs.1 fun f hf => ?_, h⟩
      have := List.find?_range_eq_none.1 hfind f hf
      simpa using this
    | some f =>
      obtain ⟨hp, hmem, -⟩ := List.find?_range_eq_some.1 hfind
      exact ⟨_, hs.2 f (List.mem_range.1 hmem) (of_decide_eq_true hp), h.tables _ _⟩
  | filedup f =>
    simp only [Sys.exec, filedup, wp_bind, wp_gets, wp_stopIf, id]
    exact ⟨fun h0 => hs.1 (by omega), fun h0 => ⟨_, hs.2 (by omega), h.tables _ _⟩⟩
  | filedrop f =>
    simp only [Sys.exec, filedrop, wp_bind, wp_gets, wp_stopIf, id]
    refine ⟨fun h0 => hs.1 (by omega), fun h0 => wp_ite (fun h1 => ?_) fun h1 => ?_⟩
    · exact ⟨_, hs.2.1 h1, h.tables _ _⟩
    · exact ⟨_, hs.2.2 (by omega), h.tables _ _⟩
  | file f => exact ⟨v, hs, h⟩
  | setOff f off => exact ⟨_, hs, h.tables _ _⟩
  | setFile f readable writable ip => exact ⟨_, hs, h.tables _ _⟩
  | newPipe =>
    simp only [Sys.exec, Sys.newPipe, wp_bind, wp_gets, id]
    cases hp : v.pages with
    | nil => exact ⟨v, hs.1 hp, hp ▸ h⟩
    | cons x pages => exact ⟨_, hs.2 x pages hp, h.pipes _ _⟩
  | setPipe f writable pipe => exact ⟨_, hs, h.tables _ _⟩
  | pipeclose pipe writable =>
    simp only [Sys.exec, Sys.pipeclose, wp_bind, wp_gets, wp_modify, id, update_self]
    refine wp_ite (fun hshut => ⟨_, hs, ?_⟩) fun hshut => ⟨_, hs, ?_⟩
    · rw [View.shut, if_pos hshut]
      exact h.pipes _ _
    · rw [View.shut, if_neg hshut]
      exact h.pipes _ _
  | piperead pipe n =>
    simp only [Sys.exec, Sys.piperead, wp_bind, wp_gets, id]
    refine wp_ite (fun _ => ?_) fun _ => ⟨_, hs.2 _ _, h.pipes _ _⟩
    simp only [wp_bind, wp_stopIf, wp_pure]
    refine ⟨fun _ => hs.1, fun _ => ⟨_, hs.2 none (v.pipe pipe), ?_⟩⟩
    rw [View.setPipe, update_eq_self]
    exact h
  | pipewrite pipe src n => exact Rep.pipewriteFrom hs.1 _ _ _ h hs.2
  | newProc child cwd ofile => exact ⟨_, hs, h.tables _ _⟩
  | exited => exact ⟨_, hs, h.tables _ _⟩
  | stop e => exact hs

/-- **The kernel refines its view**: a program does to the kernel what it does to the view. -/
theorem Rep.run {α : Type} {m : P α} {Q : α → View → Prop} (h : Rep c k v)
    (hm : vwp c p m Q v) : wp (m.run (Sys.exec p)) (Leads c Q) c.E k := by
  induction m generalizing k v with
  | ret a => exact ⟨v, hm h.wf, h⟩
  | op o next ih =>
    refine wp_seq (h.exec (hm h.wf)) ?_
    rintro b k' ⟨v', hv', hrep⟩
    exact ih b hrep hv'

end

end Dixv6.Sys
