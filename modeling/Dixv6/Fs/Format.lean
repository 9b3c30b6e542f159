import Dixv6.Param

/-!
# The on-disk format

`fs.h`: the super block, the inodes packed into their blocks, the block numbers that index blocks
hold, and the layout macros. Every structure has a reader and a writer over the bytes of a block,
a lemma that the reader gives back what the writer put, and one that a write leaves the other
structures of the block alone.
-/

namespace Dixv6.Fs

open Lib

/-! ## Layout -/

/-- Block numbers kept in the inode itself. -/
abbrev NDIRECT : Nat := 11
/-- Block numbers in an index block. -/
abbrev NINDIRECT : Nat := 128
/-- The largest file, in blocks. -/
abbrev MAXFILE : Nat := NDIRECT + NINDIRECT + NINDIRECT * NINDIRECT

theorem direct_lt {bn : Nat} (h : bn < NDIRECT) : bn < NDIRECT + 2 := Nat.lt_add_right 2 h

/-- The indirect block is one of an inode's. -/
theorem indirect_lt : NDIRECT < NDIRECT + 2 := by decide

/-- So is the doubly indirect one. -/
theorem double_lt : NDIRECT + 1 < NDIRECT + 2 := by decide
/-- Inodes per block. -/
abbrev IPB : Nat := 8
/-- Bitmap bits per block. -/
abbrev BPB : Nat := BSIZE * 8

/-- Block containing inode `i`. -/
def IBLOCK (i : Nat) : Nat := i / IPB + 2

/-- Block containing the bit for block `b`. -/
def BBLOCK (b ninodes : Nat) : Nat := b / BPB + ninodes / IPB + 3

/-- The same macro where `b` is an `int`: the quotient is signed, and the sum is not. -/
def intBBLOCK (b ninodes : Nat) : Nat :=
  (((if b < 2 ^ 31 then (b : Int) else b - 2 ^ 32).tdiv BPB + (ninodes / IPB + 3 : Nat)) %
    2 ^ 32).toNat

/-! ## The super block -/

/-- `struct superblock` -/
structure Superblock where
  /-- Size of the file system image, in blocks. -/
  size : Nat
  nblocks : Nat
  ninodes : Nat
  nlog : Nat
  deriving DecidableEq, Repr

/-- The super block at the start of a block. -/
def getSb (blk : Block) : Superblock where
  size := blk.leGet 0 4
  nblocks := blk.leGet 4 4
  ninodes := blk.leGet 8 4
  nlog := blk.leGet 12 4

/-- The super block written over the start of a block. -/
def putSb (blk : Block) (sb : Superblock) : Block :=
  (((blk.lePut 0 4 sb.size).lePut 4 4 sb.nblocks).lePut 8 4 sb.ninodes).lePut 12 4 sb.nlog

/-! ## Inodes -/

/-- `T_DIR` of `stat.h`. -/
abbrev T_DIR : Int16 := 1
/-- `T_FILE` of `stat.h`. -/
abbrev T_FILE : Int16 := 2
/-- `T_DEV` of `stat.h`. -/
abbrev T_DEV : Int16 := 3

/-- `struct dinode` -/
@[ext] structure Dinode where
  /-- File type, 0 for a free inode. -/
  type : Int16
  major : Int16
  minor : Int16
  nlink : Int16
  /-- Size of the file in bytes. -/
  size : UInt32
  /-- Block numbers: direct, indirect, doubly indirect. -/
  addrs : Fin (NDIRECT + 2) → UInt32

/-- A free inode. -/
def Dinode.zero : Dinode := ⟨0, 0, 0, 0, 0, fun _ => 0⟩

/-- The `short` at position `o`. -/
def getShort (blk : Block) (o : Nat) : Int16 := (UInt16.ofNat (blk.leGet o 2)).toInt16

/-- Write a `short`. -/
def putShort (blk : Block) (o : Nat) (x : Int16) : Block := blk.lePut o 2 x.toUInt16.toNat

/-- Where inode `i` starts in its block. -/
def dinodeOff (i : Nat) : Nat := 64 * (i % IPB)

/-- The block numbers of the inode that starts at `o`. -/
def getAddrs (blk : Block) (o : Nat) (k : Fin (NDIRECT + 2)) : UInt32 :=
  UInt32.ofNat (blk.leGet (o + 12 + 4 * k) 4)

/-- The block numbers written into the inode that starts at `o`. -/
def putAddrs (blk : Block) (o : Nat) (addrs : Fin (NDIRECT + 2) → UInt32) : Block := fun p =>
  if h : o + 12 ≤ p ∧ p < o + 64 then
    UInt8.ofNat ((addrs ⟨(p - (o + 12)) / 4, by lia⟩).toNat /
      256 ^ ((p - (o + 12)) % 4))
  else blk p

/-- Inode `i` of its block. -/
def getDinode (blk : Block) (i : Nat) : Dinode where
  type := getShort blk (dinodeOff i)
  major := getShort blk (dinodeOff i + 2)
  minor := getShort blk (dinodeOff i + 4)
  nlink := getShort blk (dinodeOff i + 6)
  size := UInt32.ofNat (blk.leGet (dinodeOff i + 8) 4)
  addrs := getAddrs blk (dinodeOff i)

/-- Inode `i` written into its block. -/
def putDinode (blk : Block) (i : Nat) (d : Dinode) : Block :=
  let b₁ := putShort blk (dinodeOff i) d.type
  let b₂ := putShort b₁ (dinodeOff i + 2) d.major
  let b₃ := putShort b₂ (dinodeOff i + 4) d.minor
  let b₄ := putShort b₃ (dinodeOff i + 6) d.nlink
  let b₅ := b₄.lePut (dinodeOff i + 8) 4 d.size.toNat
  putAddrs b₅ (dinodeOff i) d.addrs

section
variable {blk blk' : Block} {o o' i j : Nat}

/-- A written `short` is read back. -/
theorem getShort_putShort (blk : Block) (x : Int16) : getShort (putShort blk o x) o = x := by
  have hlt : x.toUInt16.toNat < 256 ^ 2 := x.toUInt16.toNat_lt
  rw [getShort, putShort, Bytes.leGet_lePut_of_lt hlt, UInt16.ofNat_toNat, Int16.toInt16_toUInt16]

/-- A `short` depends on its own bytes only. -/
theorem getShort_congr (h : ∀ p, o ≤ p → p < o + 2 → blk p = blk' p) :
    getShort blk o = getShort blk' o := by
  rw [getShort, getShort, Bytes.leGet_congr 2 o h]

/-- A byte outside a written `short` is as before. -/
theorem putShort_of_outside {p : Nat} {x : Int16} (h : p < o ∨ o + 2 ≤ p) :
    putShort blk o x p = blk p := Bytes.lePut_of_outside h

/-- A byte outside the written block numbers is as before. -/
theorem putAddrs_of_outside {p : Nat} {a : Fin (NDIRECT + 2) → UInt32}
    (h : p < o + 12 ∨ o + 64 ≤ p) : putAddrs blk o a p = blk p := by
  rw [putAddrs, dif_neg (by omega)]

/-- Written block numbers are read back. -/
theorem getAddrs_putAddrs (a : Fin (NDIRECT + 2) → UInt32) : getAddrs (putAddrs blk o a) o = a := by
  funext k
  have hk : (k : Nat) < 13 := k.2
  have hread : (putAddrs blk o a).leGet (o + 12 + 4 * k) 4 = (a k).toNat % 256 ^ 4 := by
    refine Bytes.leGet_digits 4 _ _ fun x hx => ?_
    rw [putAddrs, dif_pos (by omega)]
    have h1 : (o + 12 + 4 * k + x - (o + 12)) / 4 = k := by omega
    have h2 : (o + 12 + 4 * k + x - (o + 12)) % 4 = x := by omega
    simp only [h1, h2]
  have hlt : (a k).toNat < 256 ^ 4 := (a k).toNat_lt
  rw [getAddrs, hread, Nat.mod_eq_of_lt hlt, UInt32.ofNat_toNat]

/-- An inode depends on its own bytes only. -/
theorem getDinode_congr
    (h : ∀ p, dinodeOff i ≤ p → p < dinodeOff i + 64 → blk p = blk' p) :
    getDinode blk i = getDinode blk' i := by
  have hs : ∀ o, dinodeOff i ≤ o → o + 2 ≤ dinodeOff i + 64 → getShort blk o = getShort blk' o :=
    fun o h1 h2 => getShort_congr fun p h3 h4 => h p (by omega) (by omega)
  ext1
  · exact hs _ (by omega) (by omega)
  · exact hs _ (by omega) (by omega)
  · exact hs _ (by omega) (by omega)
  · exact hs _ (by omega) (by omega)
  · exact congrArg UInt32.ofNat (Bytes.leGet_congr 4 _ fun p h1 h2 => h p (by omega) (by omega))
  · funext k
    have hk : (k : Nat) < 13 := k.2
    exact congrArg UInt32.ofNat (Bytes.leGet_congr 4 _ fun p h1 h2 => h p (by omega) (by omega))

/-- A byte outside a written inode is as before. -/
theorem putDinode_of_outside {p : Nat} {d : Dinode}
    (h : p < dinodeOff i ∨ dinodeOff i + 64 ≤ p) : putDinode blk i d p = blk p := by
  rw [putDinode, putAddrs_of_outside (by omega), Bytes.lePut_of_outside (by omega),
    putShort_of_outside (by omega), putShort_of_outside (by omega), putShort_of_outside (by omega),
    putShort_of_outside (by omega)]

/-- **A written inode is read back.** -/
theorem getDinode_putDinode (d : Dinode) : getDinode (putDinode blk i d) i = d := by
  ext1
  all_goals simp only [getDinode, putDinode]
  all_goals generalize dinodeOff i = o
  · refine (getShort_congr fun p h1 h2 => ?_).trans
      (getShort_putShort blk d.type)
    rw [putAddrs_of_outside (by omega), Bytes.lePut_of_outside (by omega),
      putShort_of_outside (by omega), putShort_of_outside (by omega),
      putShort_of_outside (by omega)]
  · refine (getShort_congr fun p h1 h2 => ?_).trans
      (getShort_putShort (putShort blk o d.type) d.major)
    rw [putAddrs_of_outside (by omega), Bytes.lePut_of_outside (by omega),
      putShort_of_outside (by omega), putShort_of_outside (by omega)]
  · refine (getShort_congr fun p h1 h2 => ?_).trans
      (getShort_putShort (putShort (putShort blk o d.type) (o + 2) d.major) d.minor)
    rw [putAddrs_of_outside (by omega), Bytes.lePut_of_outside (by omega),
      putShort_of_outside (by omega)]
  · refine (getShort_congr fun p h1 h2 => ?_).trans
      (getShort_putShort
        (putShort (putShort (putShort blk o d.type) (o + 2) d.major) (o + 4) d.minor) d.nlink)
    rw [putAddrs_of_outside (by omega), Bytes.lePut_of_outside (by omega)]
  · have hsize : ∀ c : Block, (putAddrs (c.lePut (o + 8) 4 d.size.toNat) o d.addrs).leGet (o + 8) 4 =
        d.size.toNat := fun c => by
      have hread : (putAddrs (c.lePut (o + 8) 4 d.size.toNat) o d.addrs).leGet (o + 8) 4 =
          (c.lePut (o + 8) 4 d.size.toNat).leGet (o + 8) 4 :=
        Bytes.leGet_congr 4 (o + 8) fun p _ h2 => putAddrs_of_outside (.inl (by omega))
      rw [hread, Bytes.leGet_lePut_of_lt d.size.toNat_lt]
    rw [hsize, UInt32.ofNat_toNat]
  · exact getAddrs_putAddrs d.addrs

/-- Writing an inode leaves the other inodes of the block alone. -/
theorem getDinode_putDinode_ne {d : Dinode} (h : j % IPB ≠ i % IPB) :
    getDinode (putDinode blk i d) j = getDinode blk j := by
  refine getDinode_congr fun p h1 h2 => putDinode_of_outside ?_
  grind [dinodeOff]

end

/-! ## Index blocks -/

/-- Entry `j` of an index block. -/
def getIndex (blk : Block) (j : Nat) : Nat := blk.leGet (4 * j) 4

/-- Entry `j` of an index block set to `b`. -/
def putIndex (blk : Block) (j b : Nat) : Block := blk.lePut (4 * j) 4 b

theorem getIndex_putIndex {blk : Block} {j b : Nat} (h : b < 2 ^ 32) :
    getIndex (putIndex blk j b) j = b := Bytes.leGet_lePut_of_lt h

theorem getIndex_putIndex_ne {blk : Block} {i j b : Nat} (h : i ≠ j) :
    getIndex (putIndex blk j b) i = getIndex blk i := Bytes.leGet_lePut_disjoint (by omega)

theorem getIndex_zero (j : Nat) : getIndex zeroBlock j = 0 := Bytes.leGet_zero 4 _

end Dixv6.Fs
