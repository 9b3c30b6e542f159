import Mathlib.Data.Finset.Card
import Dixv6.Lib.Forest
import Dixv6.Fs.Inode

/-!
# Who owns which block

The block numbers in the inodes, in their index blocks and in the second-level index blocks form a
forest over the disk (`shape`), one tree for each block number of each inode. `Own` is the
invariant of the block allocator over it: no block is found twice, and what is found is a data
block whose bit is set, as are the bits of all metadata blocks. The bound `lim` on the blocks
found is a parameter: `size` for what `balloc` can hand out, `size - nlog` for what is not log.

`fileByte` reads a file's contents through the forest. The lemmas say what the writes of `fs.c` do
to positions and contents: marking a block used and zeroing it changes neither (`Own.alloc`),
hanging a zeroed block into an inode or an index block adds one position and changes no byte
(`Own.fill_root`, `Own.fill_entry`), and writing a data block changes the bytes of that block of
that file and no others (`Own.write_leaf`).
-/

namespace Dixv6.Fs

open Lib Function

/-! ## The layout of a disk -/

/-- A super block whose areas fit on the disk, in the order that `fs.h` gives. -/
structure Geo extends Superblock where
  inodes_pos : ROOTINO < ninodes
  /-- Directory entries can name every inode. -/
  inodes_lt : ninodes ≤ 2 ^ 16
  /-- Inodes, bitmap and log leave room for data. -/
  room : ninodes / IPB + 3 + (size / BPB + 1) + nlog < size
  /-- Block numbers are C integers. -/
  size_lt : size < 2 ^ 31

namespace Geo

variable (g : Geo)

/-- The first data block: boot, super, inode and bitmap blocks lie below. -/
def dstart : Nat := g.ninodes / IPB + 3 + (g.size / BPB + 1)

/-- The first block of the log. -/
def logstart : Nat := g.size - g.nlog

theorem two_lt_dstart : 2 < g.dstart := by
  grind [dstart]

theorem dstart_lt : g.dstart < g.logstart := by
  have := g.room
  grind [dstart, logstart]

theorem logstart_le : g.logstart ≤ g.size := Nat.sub_le _ _

theorem bblock_lt {b : Nat} (h : b < g.size) : BBLOCK b g.ninodes < g.dstart := by
  grind [BBLOCK, dstart]

theorem iblock_lt {i : Nat} (h : i < g.ninodes) : IBLOCK i < g.ninodes / IPB + 3 := by
  grind [IBLOCK]

/-- The super block lies before the bitmap. -/
theorem one_lt_front : 1 < g.ninodes / IPB + 3 := by
  lia

/-- The blocks before the bitmap are no data blocks. -/
theorem front_lt {c : Nat} (h : c < g.ninodes / IPB + 3) : c < g.dstart := by
  grind [dstart]

/-- The blocks before the bitmap are not in it. -/
theorem front_ne_bblock {b c : Nat} (h : c < g.ninodes / IPB + 3) : c ≠ BBLOCK b g.ninodes := by
  grind [BBLOCK]

end Geo

/-- The bit of block `b` is set. -/
def used (g : Geo) (disk : Nat → Block) (b : Nat) : Bool :=
  (disk (BBLOCK b g.ninodes)).getBit (b % BPB)

/-- The free blocks below `lim`. -/
def free (g : Geo) (lim : Nat) (disk : Nat → Block) : Finset Nat :=
  (Finset.range lim).filter fun b => used g disk b = false

/-- The inodes on the disk. -/
def dinodeAt (disk : Nat → Block) (i : Nat) : Dinode := getDinode (disk (IBLOCK i)) i

/-! ## The forest -/

/-- How many index blocks lie between `addrs[k]` and the data. -/
def level (k : Fin (NDIRECT + 2)) : Nat := k - 10

/-- Index blocks, read through their entries. -/
def shape : Shape (Nat × Fin (NDIRECT + 2)) Block where
  entry x π blk := match π with
    | [] => none
    | j :: π => if π.length < level x.2 ∧ j < NINDIRECT ∧ getIndex blk j ≠ 0 then
        some (getIndex blk j) else none
  inner x π := π.length < level x.2
  entry_inner x π j c h := by simp only [h, false_and, if_false]

/-- The block numbers that the inodes of `tbl` hold themselves. -/
def root (g : Geo) (tbl : Nat → Dinode) (x : Nat × Fin (NDIRECT + 2)) : Option Nat :=
  if x.1 < g.ninodes ∧ (tbl x.1).type ≠ 0 ∧ (tbl x.1).addrs x.2 ≠ 0 then
    some ((tbl x.1).addrs x.2).toNat else none

/-- The block at a position of the forest. -/
abbrev node (g : Geo) (tbl : Nat → Dinode) (disk : Nat → Block) :
    Nat × Fin (NDIRECT + 2) → List Nat → Option Nat := shape.node (root g tbl) disk

/-- The invariant of the block allocator, for the inodes of `tbl`. -/
structure Own (g : Geo) (lim : Nat) (tbl : Nat → Dinode) (disk : Nat → Block) : Prop where
  distinct : shape.Distinct (root g tbl) disk
  data : ∀ x π b, node g tbl disk x π = some b → g.dstart ≤ b ∧ b < lim ∧ used g disk b = true
  area : ∀ b, b < g.dstart → used g disk b = true

/-- A zeroed data block that is in use but not in the forest. -/
structure Held (g : Geo) (lim : Nat) (tbl : Nat → Dinode) (disk : Nat → Block) (b : Nat) :
    Prop where
  node : ∀ x π, node g tbl disk x π ≠ some b
  range : g.dstart ≤ b ∧ b < lim
  used : used g disk b = true
  zero : disk b = zeroBlock

theorem Held.bounds {g : Geo} {lim b : Nat} {tbl : Nat → Dinode} {disk : Nat → Block}
    (hb : Held g lim tbl disk b) (hlim : lim ≤ g.size) : 0 < b ∧ b < 2 ^ 32 := by
  have := hb.range
  have := g.two_lt_dstart
  have := g.size_lt
  omega

/-! ## Positions of a file's blocks -/

/-- The position of block `bn` of a file: which of the inode's block numbers, and the path from
it. -/
def pos (bn : Nat) : Fin (NDIRECT + 2) × List Nat :=
  if h : bn < NDIRECT then (⟨bn, direct_lt h⟩, [])
  else if bn - NDIRECT < NINDIRECT then (⟨NDIRECT, indirect_lt⟩, [bn - NDIRECT])
  else (⟨NDIRECT + 1, double_lt⟩, [(bn - NDIRECT - NINDIRECT) % NINDIRECT,
    (bn - NDIRECT - NINDIRECT) / NINDIRECT])

variable {bn : Nat} {blk : Block}

theorem pos_direct (h : bn < NDIRECT) : pos bn = (⟨bn, direct_lt h⟩, []) := by rw [pos, dif_pos h]

theorem pos_indirect (h : ¬ bn < NDIRECT) (h' : bn - NDIRECT < NINDIRECT) :
    pos bn = (⟨NDIRECT, indirect_lt⟩, [bn - NDIRECT]) := by rw [pos, dif_neg h, if_pos h']

theorem pos_double (h : ¬ bn < NDIRECT) (h' : ¬ bn - NDIRECT < NINDIRECT) :
    pos bn = (⟨NDIRECT + 1, double_lt⟩, [(bn - NDIRECT - NINDIRECT) % NINDIRECT,
      (bn - NDIRECT - NINDIRECT) / NINDIRECT]) := by rw [pos, dif_neg h, if_neg h']

/-- A block of a file has a number that `bmap` reaches. -/
theorem lt_of_node {g : Geo} {tbl : Nat → Dinode} {disk : Nat → Block} {i : Nat}
    (h : node g tbl disk (i, (pos bn).1) (pos bn).2 ≠ none) : bn < MAXFILE := by
  by_contra hge
  have hbn : ¬ bn < NDIRECT := fun e => hge (by lia)
  have hbn' : ¬ bn - NDIRECT < NINDIRECT := fun e => hge (by lia)
  refine h ?_
  rw [pos_double hbn hbn']
  -- the entry of the doubly indirect block is past its end
  have hj : ¬ (bn - NDIRECT - NINDIRECT) / NINDIRECT < NINDIRECT := by
    lia
  simp [node, Shape.node, shape, hj]

/-- Data lies at the leaves. -/
theorem pos_length (bn : Nat) : (pos bn).2.length = level (pos bn).1 := by
  unfold pos
  split
  · next h => simp only [NDIRECT] at h; simp [level]; omega
  · split <;> rfl

/-- A data block has no entries. -/
theorem pos_leaf (i bn : Nat) : ¬ shape.inner (i, (pos bn).1) (pos bn).2 := by
  have := pos_length bn
  show ¬ (pos bn).2.length < level (pos bn).1
  omega

/-- Different blocks of a file have different positions. -/
theorem pos_inj {bn' : Nat} (h : pos bn = pos bn') : bn = bn' := by
  by_cases h1 : bn < NDIRECT <;> by_cases h2 : bn' < NDIRECT
  · rw [pos_direct h1, pos_direct h2] at h
    exact congrArg (fun x : Fin (NDIRECT + 2) × List Nat => (x.1 : Nat)) h
  · exfalso
    have := congrArg (fun x : Fin (NDIRECT + 2) × List Nat => x.2.length) h
    by_cases h3 : bn' - NDIRECT < NINDIRECT
    · simp [pos_direct h1, pos_indirect h2 h3] at this
    · simp [pos_direct h1, pos_double h2 h3] at this
  · exfalso
    have := congrArg (fun x : Fin (NDIRECT + 2) × List Nat => x.2.length) h
    by_cases h3 : bn - NDIRECT < NINDIRECT
    · simp [pos_direct h2, pos_indirect h1 h3] at this
    · simp [pos_direct h2, pos_double h1 h3] at this
  · by_cases h3 : bn - NDIRECT < NINDIRECT <;> by_cases h4 : bn' - NDIRECT < NINDIRECT
    · rw [pos_indirect h1 h3, pos_indirect h2 h4] at h
      simp only [Prod.mk.injEq, List.cons.injEq, true_and, and_true, NDIRECT] at h h1 h2
      omega
    · rw [pos_indirect h1 h3, pos_double h2 h4] at h
      simp at h
    · rw [pos_double h1 h3, pos_indirect h2 h4] at h
      simp at h
    · rw [pos_double h1 h3, pos_double h2 h4] at h
      simp only [Prod.mk.injEq, List.cons.injEq, true_and, and_true, NDIRECT, NINDIRECT] at h h1 h2 h3 h4
      omega

/-- Byte `o` of file `i`; a byte of a block that is not there reads as zero. -/
def fileByte (g : Geo) (tbl : Nat → Dinode) (disk : Nat → Block) (i o : Nat) : UInt8 :=
  match node g tbl disk (i, (pos (o / BSIZE)).1) (pos (o / BSIZE)).2 with
  | some b => disk b (o % BSIZE)
  | none => 0

/-! ## The bitmap -/

/-- The disk with the bit of block `b` set. -/
def markUsed (g : Geo) (disk : Nat → Block) (b : Nat) : Nat → Block :=
  update disk (BBLOCK b g.ninodes) ((disk (BBLOCK b g.ninodes)).setBit (b % BPB))

/-- The disk with the bit of block `b` cleared. -/
def markFree (g : Geo) (disk : Nat → Block) (b : Nat) : Nat → Block :=
  update disk (BBLOCK b g.ninodes) ((disk (BBLOCK b g.ninodes)).clearBit (b % BPB))

section
variable {g : Geo} {disk disk' : Nat → Block} {b x lim : Nat}

/-- Blocks with one bitmap block and one bit are one block. -/
theorem bit_eq_iff (h : BBLOCK x g.ninodes = BBLOCK b g.ninodes) : x % BPB = b % BPB ↔ x = b := by
  grind [BBLOCK]

theorem used_markUsed : used g (markUsed g disk b) x = (decide (x = b) || used g disk x) := by
  unfold used markUsed
  by_cases h : BBLOCK x g.ninodes = BBLOCK b g.ninodes
  · rw [h, update_self, Bytes.getBit_setBit, decide_eq_decide.2 (bit_eq_iff h)]
  · grind

theorem used_markFree : used g (markFree g disk b) x = (!decide (x = b) && used g disk x) := by
  unfold used markFree
  by_cases h : BBLOCK x g.ninodes = BBLOCK b g.ninodes
  · rw [h, update_self, Bytes.getBit_clearBit, decide_eq_decide.2 (bit_eq_iff h)]
  · grind

/-- The bitmap depends on its own blocks only. -/
theorem used_congr (h : disk' (BBLOCK x g.ninodes) = disk (BBLOCK x g.ninodes)) :
    used g disk' x = used g disk x := by rw [used, used, h]

/-- A write to a data block leaves the bitmap alone. -/
theorem used_update (hb : g.dstart ≤ b) (hx : x < g.size) :
    used g (update disk b blk) x = used g disk x := by
  refine used_congr (update_of_ne ?_ _ _)
  have := g.bblock_lt hx
  omega

theorem mem_free : b ∈ free g lim disk ↔ b < lim ∧ used g disk b = false := by
  simp [free]

end

/-! ## What the writes of the allocator do -/

section
variable {g : Geo} {lim : Nat} {tbl tbl' : Nat → Dinode} {disk disk' : Nat → Block} {b i : Nat}

/-- Every position and every byte is unchanged when the blocks of the forest are. -/
theorem node_eq_of_same (hroot : root g tbl' = root g tbl)
    (h : ∀ x π a, node g tbl disk x π = some a → disk' a = disk a) :
    (∀ x π, node g tbl' disk' x π = node g tbl disk x π) ∧
    ∀ i o, fileByte g tbl' disk' i o = fileByte g tbl disk i o := by
  have hn : ∀ x π, node g tbl' disk' x π = node g tbl disk x π := fun x π =>
    Shape.node_congr (by rw [hroot]) (fun π a _ ha => h x π a ha) π
  refine ⟨hn, fun i o => ?_⟩
  rw [fileByte, fileByte, hn]
  cases ha : node g tbl disk (i, (pos (o / BSIZE)).1) (pos (o / BSIZE)).2 with
  | none => rfl
  | some a => simp only [h _ _ _ ha]

/-- The invariant survives when the positions do and no bit of the forest or of the metadata is
cleared. -/
theorem Own.of_node_eq (hO : Own g lim tbl disk)
    (hn : ∀ x π, node g tbl' disk' x π = node g tbl disk x π)
    (hu : ∀ c, c < lim ∨ c < g.dstart → used g disk c = true → used g disk' c = true) :
    Own g lim tbl' disk' where
  distinct := hO.distinct.mono fun x π _ h => (hn x π).symm.trans h
  data x π c h := by
    obtain ⟨h1, h2, h3⟩ := hO.data x π c ((hn x π).symm.trans h)
    exact ⟨h1, h2, hu c (.inl h2) h3⟩
  area c h := hu c (.inr h) (hO.area c h)

/-- The blocks that inodes name are a matter of their types and block numbers. -/
theorem root_congr (h : ∀ j, (tbl' j).type = (tbl j).type ∧ (tbl' j).addrs = (tbl j).addrs) :
    root g tbl' = root g tbl := by
  funext x
  rw [root, root, (h x.1).1, (h x.1).2]

/-- **An inode block written** changes no position, no byte and no bit, as far as the disk is
concerned. -/
theorem Own.write_iblock (hO : Own g lim tbl disk) (hi : i < g.ninodes)
    (hdisk : disk' = update disk (IBLOCK i) blk) :
    (∀ x π, node g tbl disk' x π = node g tbl disk x π) ∧
    (∀ j o, fileByte g tbl disk' j o = fileByte g tbl disk j o) ∧
    (∀ c, used g disk' c = used g disk c) ∧ disk' 1 = disk 1 := by
  have hlt := g.iblock_lt hi
  have hsame : ∀ x π a, node g tbl disk x π = some a → disk' a = disk a := fun x π a ha => by
    have := (hO.data x π a ha).1
    have := g.front_lt hlt
    rw [hdisk, update_of_ne (by omega)]
  obtain ⟨hn, hbytes⟩ := node_eq_of_same rfl hsame
  refine ⟨hn, hbytes, fun c => used_congr ?_, ?_⟩
  · rw [hdisk, update_of_ne (g.front_ne_bblock hlt).symm]
  · rw [hdisk, update_of_ne (by grind [IBLOCK])]

/-- **Allocating a block**: it is marked used and zeroed. No position and no byte changes. -/
theorem Own.alloc (hO : Own g lim tbl disk) (hlim : lim ≤ g.size) (hb : b ∈ free g lim disk)
    (hdisk : disk' = update (markUsed g disk b) b zeroBlock) :
    Own g lim tbl disk' ∧ Held g lim tbl disk' b ∧
    (∀ x π, node g tbl disk' x π = node g tbl disk x π) ∧
    (∀ i o, fileByte g tbl disk' i o = fileByte g tbl disk i o) ∧
    ∀ c, c < g.size → used g disk' c = (decide (c = b) || used g disk c) := by
  obtain ⟨hlt, hfree⟩ := mem_free.1 hb
  have hge : g.dstart ≤ b := by
    by_contra hlow
    rw [hO.area b (by omega)] at hfree; cases hfree
  have hne : ∀ x π, node g tbl disk x π ≠ some b := fun x π h => by
    rw [(hO.data x π b h).2.2] at hfree; cases hfree
  have hused : ∀ c, c < g.size → used g disk' c = (decide (c = b) || used g disk c) := by
    intro c hc
    rw [hdisk, used_update hge hc, used_markUsed]
  have hsame : ∀ x π a, node g tbl disk x π = some a → disk' a = disk a := by
    intro x π a ha
    have hab : a ≠ b := fun e => hne x π (e ▸ ha)
    have haB : a ≠ BBLOCK b g.ninodes := by
      have := (hO.data x π a ha).1
      have := g.bblock_lt (Nat.lt_of_lt_of_le hlt hlim)
      omega
    rw [hdisk, update_of_ne hab, markUsed, update_of_ne haB]
  obtain ⟨hn, hbytes⟩ := node_eq_of_same rfl hsame
  refine ⟨hO.of_node_eq hn fun c hc h => ?_, ⟨fun x π => ?_, ⟨hge, hlt⟩, ?_, ?_⟩, hn, hbytes, hused⟩
  · rw [hused c (by omega), h, Bool.or_true]
  · rw [hn]; exact hne x π
  · rw [hused b (by omega)]; simp
  · rw [hdisk, update_self]

/-- Adding one position with a held block. -/
theorem Own.fill (hO : Own g lim tbl disk) (hlim : lim ≤ g.size)
    (hb : Held g lim tbl disk b) {y : Nat × Fin (NDIRECT + 2)} {ρ : List Nat}
    (hn : ∀ x π, node g tbl' disk' x π = if x = y ∧ π = ρ then some b else node g tbl disk x π)
    (hnone : node g tbl disk y ρ = none)
    (hleaf : ∀ x π a, node g tbl disk x π = some a → ¬ shape.inner x π → disk' a = disk a)
    (hzero : disk' b = zeroBlock) (hu : ∀ c, c < g.size → used g disk' c = used g disk c) :
    Own g lim tbl' disk' ∧ ∀ i o, fileByte g tbl' disk' i o = fileByte g tbl disk i o := by
  have hcases : ∀ x π a, node g tbl' disk' x π = some a →
      a = b ∨ node g tbl disk x π = some a := by
    intro x π a h
    rw [hn] at h
    split at h
    · exact .inl (Option.some.inj h).symm
    · exact .inr h
  have hsz := g.dstart_lt
  have hsz' := g.logstart_le
  refine ⟨⟨?_, ?_, ?_⟩, ?_⟩
  · refine hO.distinct.fill (P := fun x π => x = y ∧ π = ρ) ?_ hb.node hn
    rintro x π x' π' ⟨rfl, rfl⟩ ⟨rfl, rfl⟩
    exact ⟨rfl, rfl⟩
  · intro x π a h
    rcases hcases x π a h with rfl | h
    · exact ⟨hb.range.1, hb.range.2, by rw [hu _ (by have := hb.range; omega)]; exact hb.used⟩
    · obtain ⟨h1, h2, h3⟩ := hO.data x π a h
      exact ⟨h1, h2, by rw [hu a (by omega)]; exact h3⟩
  · intro c hc
    rw [hu c (by omega)]
    exact hO.area c hc
  · -- the new block is zero, which is what the missing one read as
    intro i o
    rw [fileByte, fileByte, hn]
    split
    · next a h =>
      split at h
      · next e =>
        obtain ⟨e1, e2⟩ := e
        rw [← e1, ← e2] at hnone
        rw [hnone, ← Option.some.inj h, hzero]
        rfl
      · next a' =>
        rw [h]
        exact congrFun (hleaf _ _ a h (pos_leaf _ _)) _
    · next h =>
      split at h
      · cases h
      · rw [h]

/-- The inodes with one block number set. -/
def withAddr (tbl : Nat → Dinode) (i : Nat) (k : Fin (NDIRECT + 2)) (b : Nat) : Nat → Dinode :=
  update tbl i
    { tbl i with addrs := update (tbl i).addrs k (UInt32.ofNat b) }

theorem root_withAddr {k : Fin (NDIRECT + 2)} (hi : i < g.ninodes) (ht : (tbl i).type ≠ 0)
    (hb : 0 < b) (hlt : b < 2 ^ 32) :
    root g (withAddr tbl i k b) = update (root g tbl) (i, k) (some b) := by
  have hval : (UInt32.ofNat b).toNat = b := UInt32.toNat_ofNat_of_lt' hlt
  have hne : UInt32.ofNat b ≠ 0 := fun e => by
    rw [e] at hval
    have : (0 : UInt32).toNat = 0 := rfl
    omega
  funext ⟨x, m⟩
  by_cases hx : x = i
  · subst hx
    by_cases hm : m = k
    · subst hm
      simp [root, withAddr, hi, ht, hne, hval]
    · have hm' : (x, m) ≠ (x, k) := fun e => hm (Prod.ext_iff.1 e).2
      simp [root, withAddr, update_of_ne hm, update_of_ne hm']
  · have hx' : (x, m) ≠ (i, k) := fun e => hx (Prod.ext_iff.1 e).1
    simp [root, withAddr, update_of_ne hx, update_of_ne hx']

/-- **A zeroed block hung into an inode** adds one position and changes no byte. -/
theorem Own.fill_root (hO : Own g lim tbl disk) (hlim : lim ≤ g.size)
    (hb : Held g lim tbl disk b) {k : Fin (NDIRECT + 2)} (hi : i < g.ninodes)
    (ht : (tbl i).type ≠ 0) (hk : (tbl i).addrs k = 0) : Own g lim (withAddr tbl i k b) disk ∧
    (∀ x π, node g (withAddr tbl i k b) disk x π =
      if x = (i, k) ∧ π = [] then some b else node g tbl disk x π) ∧
    ∀ j o, fileByte g (withAddr tbl i k b) disk j o = fileByte g tbl disk j o := by
  obtain ⟨hpos, hlt⟩ := hb.bounds hlim
  have hnone : root g tbl (i, k) = none := by simp [root, hk]
  have hn : ∀ x π, node g (withAddr tbl i k b) disk x π =
      if x = (i, k) ∧ π = [] then some b else node g tbl disk x π := by
    intro x π
    rw [node, root_withAddr hi ht hpos hlt]
    refine Shape.node_fill_root hnone (fun j => ?_) x π
    simp [shape, hb.zero, getIndex_zero]
  obtain ⟨hO', hbytes⟩ := hO.fill hlim hb hn hnone (fun _ _ _ _ _ => rfl) hb.zero fun _ _ => rfl
  exact ⟨hO', hn, hbytes⟩

/-- **A zeroed block hung into an index block** adds one position and changes no byte. -/
theorem Own.fill_entry (hO : Own g lim tbl disk) (hlim : lim ≤ g.size)
    (hb : Held g lim tbl disk b) {x : Nat × Fin (NDIRECT + 2)} {π : List Nat} {a j : Nat}
    (ha : node g tbl disk x π = some a) (hin : shape.inner x π) (hj : j < NINDIRECT)
    (hzero : getIndex (disk a) j = 0) (hdisk : disk' = update disk a (putIndex (disk a) j b)) :
    Own g lim tbl disk' ∧
    (∀ y ρ, node g tbl disk' y ρ =
      if y = x ∧ ρ = j :: π then some b else node g tbl disk y ρ) ∧
    (∀ i o, fileByte g tbl disk' i o = fileByte g tbl disk i o) ∧
    ∀ c, c < g.size → used g disk' c = used g disk c := by
  obtain ⟨hpos, hlt⟩ := hb.bounds hlim
  have hab : b ≠ a := fun e => hb.node x π (e ▸ ha)
  have hentry : shape.entry x (j :: π) (putIndex (disk a) j b) = some b := by
    have hin' : π.length < level x.2 := hin
    simp only [shape, getIndex_putIndex hlt, hin', hj, true_and]
    rw [if_pos (by omega)]
  have hnone : node g tbl disk x (j :: π) = none := by
    rw [node, Shape.node_child ha]
    simp [shape, hzero]
  have hn : ∀ y ρ, node g tbl disk' y ρ =
      if y = x ∧ ρ = j :: π then some b else node g tbl disk y ρ := by
    intro y ρ
    rw [node, hdisk, ← hentry]
    refine Shape.node_set_child hO.distinct ha (fun m hm => ?_)
      (fun m => Shape.node_cons_none hnone) (fun m c hc => ?_) y ρ
    · simp [shape, getIndex_putIndex_ne hm]
    · rw [hentry] at hc
      obtain rfl := Option.some.inj hc
      simp [shape, update_of_ne hab, hb.zero, getIndex_zero]
  have hu : ∀ c, c < g.size → used g disk' c = used g disk c := fun c hc => by
    rw [hdisk]
    exact used_update (hO.data x π a ha).1 hc
  obtain ⟨hO', hbytes⟩ := hO.fill hlim hb hn hnone
    (fun y ρ c hc hleaf => by
      rw [hdisk, update_of_ne]
      rintro rfl
      obtain ⟨rfl, rfl⟩ := hO.distinct y ρ x π c hc ha
      exact hleaf hin)
    (by rw [hdisk, update_of_ne hab]; exact hb.zero) hu
  exact ⟨hO', hn, hbytes, hu⟩

/-- **A data block written** changes the bytes of that block of that file, and no position. -/
theorem Own.write_leaf (hO : Own g lim tbl disk) (hlim : lim ≤ g.size)
    (hb : node g tbl disk (i, (pos bn).1) (pos bn).2 = some b) (hdisk : disk' = update disk b blk) :
    Own g lim tbl disk' ∧
    (∀ x π, node g tbl disk' x π = node g tbl disk x π) ∧
    (∀ j o, fileByte g tbl disk' j o =
      if j = i ∧ o / BSIZE = bn then blk (o % BSIZE) else fileByte g tbl disk j o) ∧
    ∀ c, c < g.size → used g disk' c = used g disk c := by
  have hn : ∀ x π, node g tbl disk' x π = node g tbl disk x π := fun x π => by
    rw [node, hdisk]
    refine Shape.node_update_store (fun y ρ hin h => ?_) x π
    obtain ⟨rfl, rfl⟩ := hO.distinct y ρ _ _ b h hb
    exact pos_leaf _ _ hin
  have hu : ∀ c, c < g.size → used g disk' c = used g disk c := fun c hc => by
    rw [hdisk]
    exact used_update (hO.data _ _ b hb).1 hc
  refine ⟨hO.of_node_eq hn fun c hc h => ?_, hn, fun j o => ?_, hu⟩
  · have := g.dstart_lt
    have := g.logstart_le
    rw [hu c (by omega)]; exact h
  · rw [fileByte, hn]
    by_cases hjo : j = i ∧ o / BSIZE = bn
    · obtain ⟨rfl, rfl⟩ := hjo
      simp only [hb, hdisk, update_self, true_and, if_true]
    · rw [if_neg hjo, fileByte]
      cases hc : node g tbl disk (j, (pos (o / BSIZE)).1) (pos (o / BSIZE)).2 with
      | none => rfl
      | some c =>
        have hcb : c ≠ b := by
          rintro rfl
          obtain ⟨e1, e2⟩ := hO.distinct _ _ _ _ c hc hb
          obtain ⟨e3, e4⟩ := Prod.ext_iff.1 e1
          exact hjo ⟨e3, pos_inj (Prod.ext e4 e2)⟩
        simp only [hdisk, update_of_ne hcb]

end

end Dixv6.Fs
