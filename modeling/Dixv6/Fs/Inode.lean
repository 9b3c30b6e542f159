import Dixv6.Lib.Wp
import Dixv6.Disk.Log
import Dixv6.Fs.Format

/-!
# Blocks, inodes and file contents

The block and inode layers of `fs.c`, over the disk as the buffer cache shows it: a block is read
from and changed in its buffer, and `log_write` records the change, so that a read sees every
change made so far whether it is committed or not. `bread` and `brelse` leave no trace here.

The transaction functions are those of `log.c` at this level. A commit copies every logged block
into the log area and writes the header twice; the home blocks keep what the cache shows.
-/

namespace Dixv6.Fs

open Lib Function

/-- `struct inode` (`file.h`), an entry of the inode cache. -/
structure Inode where
  inum : Nat
  ref : Nat
  busy : Bool
  valid : Bool
  /-- The copy of the disk inode. -/
  d : Dinode

/-- `struct devsw` (`file.h`), the driver of one major number: a read returns how many bytes it
got and the bytes, a write how many it took. -/
structure Devsw where
  /-- The driver's read function, given the count. -/
  read : Option (Nat → Nat × Bytes)
  /-- The driver's write function, given the count and the bytes. -/
  write : Option (Nat → Bytes → Nat)

/-- The file system: the disk as the buffer cache shows it, the log, the inode cache, and the
device drivers. -/
structure State where
  disk : Nat → Block
  log : Disk.Log
  inode : Nat → Inode
  devsw : Nat → Devsw

/-- Computations over the file system. -/
abbrev M := Comp State Stop

/-- The contents of a block. -/
def readBlock (b : Nat) : M Block := Comp.gets fun s => s.disk b

/-- Change a cache entry. -/
def setInode (i : Nat) (f : Inode → Inode) : M Unit :=
  Comp.modify fun s => { s with inode := update s.inode i (f (s.inode i)) }

/-! ## `log.c` at this level -/

/-- `begin_trans` (`log.c:129`). -/
def begin_trans : M Unit := do
  let log ← Comp.gets State.log
  Comp.stopIf log.busy .sleep
  Comp.modify fun s => { s with log := { s.log with busy := true } }

/-- `log_write` (`log.c:165`) of block `b` whose buffer now holds `blk`. -/
def log_write (b : Nat) (blk : Block) : M Unit := do
  let log ← Comp.gets State.log
  Comp.stopIf (LOGSIZE ≤ log.lh.length ∨ (log.size : Int) - 1 ≤ log.lh.length) .tooBig
  Comp.stopIf (!log.busy) .outsideTrans
  Comp.modify fun s =>
    { s with
      disk := update s.disk b blk
      log := { s.log with lh := if b ∈ log.lh then log.lh else log.lh ++ [b] } }

/-- `write_head` (`log.c:105`). -/
def write_head : M Unit := Comp.modify fun s =>
  let blk := Disk.putHead (s.disk s.log.start) s.log.lh
  { s with disk := update s.disk s.log.start blk }

/-- `install_trans` (`log.c:71`): the turns from `tail` on. Both buffers are held at once. -/
def installFrom : Nat → List Nat → M Unit
  | _, [] => pure ()
  | tail, sector :: l => do
    let log ← Comp.gets State.log
    Comp.stopIf (log.start + tail + 1 = sector) .sleep
    Comp.modify fun s =>
      { s with disk := update s.disk (s.log.start + tail + 1) (s.disk sector) }
    installFrom (tail + 1) l

/-- `commit_trans` (`log.c:140`). -/
def commit_trans : M Unit := do
  let log ← Comp.gets State.log
  if 0 < log.lh.length then
    write_head
    installFrom 0 log.lh
    Comp.modify fun s => { s with log := { s.log with lh := [] } }
    write_head
  Comp.modify fun s => { s with log := { s.log with busy := false } }

/-! ## Blocks -/

/-- `readsb` (`fs.c:27`). -/
def readsb : M Superblock := Comp.gets fun s => getSb (s.disk 1)

/-- `bzero` (`fs.c:38`). -/
def bzero (bno : Nat) : M Unit := log_write bno zeroBlock

/-- The first free bit of the bitmap block whose bits start at block `b`. -/
def firstFree (blk : Block) (b size : Nat) : Option Nat :=
  (List.range (min BPB (size - b))).find? fun bi => !blk.getBit bi

/-- `balloc` (`fs.c:53`): the turns of its outer loop for the block numbers `bs`. -/
def ballocFrom (sb : Superblock) : List Nat → M Nat
  | [] => Comp.stop .outOfBlocks
  | b :: bs => do
    let blk ← readBlock (intBBLOCK b sb.ninodes)
    match firstFree blk b sb.size with
    | some bi =>
      log_write (intBBLOCK b sb.ninodes) (blk.setBit bi)
      bzero (b + bi)
      pure (b + bi)
    | none => ballocFrom sb bs

/-- `balloc` (`fs.c:53`). -/
def balloc : M Nat := do
  let sb ← readsb
  ballocFrom sb ((List.range ((sb.size + BPB - 1) / BPB)).map (· * BPB))

/-- `bfree` (`fs.c:80`). -/
def bfree (b : Nat) : M Unit := do
  let sb ← readsb
  let blk ← readBlock (BBLOCK b sb.ninodes)
  Comp.stopIf (!blk.getBit (b % BPB)) .freeingFree
  log_write (BBLOCK b sb.ninodes) (blk.clearBit (b % BPB))

/-! ## Inodes -/

/-- `iget` (`fs.c:232`): the entry of the inode, or the first empty one. -/
def iget (inum : Nat) : M Nat := do
  let s ← Comp.gets id
  match (List.range NINODE).find? fun i => 0 < (s.inode i).ref ∧ (s.inode i).inum = inum with
  | some i =>
    setInode i fun ip => { ip with ref := ip.ref + 1 }
    pure i
  | none =>
    match (List.range NINODE).find? fun i => (s.inode i).ref = 0 with
    | some i =>
      setInode i fun ip => { ip with inum := inum, ref := 1, busy := false, valid := false }
      pure i
    | none => Comp.stop .igetNoInodes

/-- `ialloc` (`fs.c:183`): the turns for the inode numbers `is`. -/
def iallocFrom (type : Int16) : List Nat → M Nat
  | [] => Comp.stop .iallocNoInodes
  | inum :: is => do
    let blk ← readBlock (IBLOCK inum)
    if (getDinode blk inum).type = 0 then
      log_write (IBLOCK inum) (putDinode blk inum { Dinode.zero with type })
      iget inum
    else iallocFrom type is

/-- `ialloc` (`fs.c:183`). -/
def ialloc (type : Int16) : M Nat := do
  let sb ← readsb
  iallocFrom type ((List.range sb.ninodes).drop 1)

/-- `iupdate` (`fs.c:211`). -/
def iupdate (i : Nat) : M Unit := do
  let ip ← Comp.gets fun s => s.inode i
  let blk ← readBlock (IBLOCK ip.inum)
  log_write (IBLOCK ip.inum) (putDinode blk ip.inum ip.d)

/-- `idup` (`fs.c:268`). -/
def idup (i : Nat) : M Nat := do
  setInode i fun ip => { ip with ref := ip.ref + 1 }
  pure i

/-- `ilock` (`fs.c:279`). -/
def ilock (i : Nat) : M Unit := do
  let ip ← Comp.gets fun s => s.inode i
  Comp.stopIf (ip.ref < 1) .ilock
  Comp.stopIf ip.busy .sleep
  setInode i fun ip => { ip with busy := true }
  if !ip.valid then
    let blk ← readBlock (IBLOCK ip.inum)
    setInode i fun ip => { ip with d := getDinode blk ip.inum, valid := true }
    Comp.stopIf ((getDinode blk ip.inum).type = 0) .ilockNoType

/-- `iunlock` (`fs.c:310`). -/
def iunlock (i : Nat) : M Unit := do
  let ip ← Comp.gets fun s => s.inode i
  Comp.stopIf (!ip.busy ∨ ip.ref < 1) .iunlock
  setInode i fun ip => { ip with busy := false }

/-! ## File contents -/

/-- Change one block number of a cached inode. -/
def setAddr (i : Nat) (k : Fin (NDIRECT + 2)) (b : Nat) : M Unit :=
  setInode i fun ip =>
    { ip with d := { ip.d with addrs := update ip.d.addrs k (UInt32.ofNat b) } }

/-- The block at `ip->addrs[k]`, allocated if there is none. -/
def bmapRoot (i : Nat) (k : Fin (NDIRECT + 2)) : M Nat := do
  let addr ← Comp.gets fun s => ((s.inode i).d.addrs k).toNat
  if addr = 0 then
    let addr ← balloc
    setAddr i k addr
    pure addr
  else pure addr

/-- The block at entry `j` of the index block `b`, allocated if there is none. -/
def bmapEntry (b j : Nat) : M Nat := do
  let addr ← Comp.gets fun s => getIndex (s.disk b) j
  if addr = 0 then
    let addr ← balloc
    let blk ← readBlock b
    log_write b (putIndex blk j addr)
    pure addr
  else pure addr

/-- `bmap` (`fs.c:359`): the block of the file's block `bn`, allocated if there is none. -/
def bmap (i bn : Nat) : M Nat := do
  if h : bn < NDIRECT then
    bmapRoot i ⟨bn, by lia⟩
  else if bn - NDIRECT < NINDIRECT then
    let b ← bmapRoot i ⟨NDIRECT, indirect_lt⟩
    bmapEntry b (bn - NDIRECT)
  else if bn - NDIRECT - NINDIRECT < NINDIRECT * NINDIRECT then
    let b ← bmapRoot i ⟨NDIRECT + 1, double_lt⟩
    let b' ← bmapEntry b ((bn - NDIRECT - NINDIRECT) / NINDIRECT)
    bmapEntry b' ((bn - NDIRECT - NINDIRECT) % NINDIRECT)
  else Comp.stop .bmapRange

/-- `itrunc` (`fs.c:420`), the body of the loop over the direct blocks. -/
def itruncDirect (i : Nat) (k : Fin (NDIRECT + 2)) : M Unit := do
  let addr ← Comp.gets fun s => ((s.inode i).d.addrs k).toNat
  if addr ≠ 0 then
    bfree addr
    setAddr i k 0

/-- `itrunc` (`fs.c:420`), the body of the loop over the indirect block `b`. -/
def itruncEntry (b j : Nat) : M Unit := do
  let addr ← Comp.gets fun s => getIndex (s.disk b) j
  if addr ≠ 0 then bfree addr

/-- The block numbers `itrunc` looks at: the direct ones. -/
def directs : List (Fin (NDIRECT + 2)) := (List.finRange (NDIRECT + 2)).take NDIRECT

/-- `itrunc` (`fs.c:420`) up to the change of the size. The doubly indirect block is not looked
at. -/
def itruncBlocks (i : Nat) : M Unit := do
  Comp.forM (itruncDirect i) directs
  let addr ← Comp.gets fun s => ((s.inode i).d.addrs ⟨NDIRECT, indirect_lt⟩).toNat
  if addr ≠ 0 then
    Comp.forM (itruncEntry addr) (List.range NINDIRECT)
    bfree addr
    setAddr i ⟨NDIRECT, indirect_lt⟩ 0

/-- `itrunc` (`fs.c:420`). -/
def itrunc (i : Nat) : M Unit := do
  itruncBlocks i
  setInode i fun ip => { ip with d := { ip.d with size := 0 } }
  iupdate i

/-- `iput` (`fs.c:318`), once the inode turns out to have no links and no other reference. -/
def iputFree (i : Nat) : M Unit := do
  let ip ← Comp.gets fun s => s.inode i
  Comp.stopIf ip.busy .iputBusy
  setInode i fun ip => { ip with busy := true }
  itrunc i
  setInode i fun ip => { ip with d := { ip.d with type := 0 } }
  iupdate i
  setInode i fun ip => { ip with busy := false, valid := false }
  setInode i fun ip => { ip with ref := ip.ref - 1 }

/-- `iput` (`fs.c:318`). -/
def iput (i : Nat) : M Unit := do
  let ip ← Comp.gets fun s => s.inode i
  if ip.ref = 1 ∧ ip.valid ∧ ip.d.nlink = 0 then iputFree i
  else setInode i fun ip => { ip with ref := ip.ref - 1 }

/-- The blocks that `n` bytes from `off` on lie in. -/
def spanned (off n : Nat) : Nat := if n = 0 then 0 else (off % BSIZE + n + (BSIZE - 1)) / BSIZE

/-- `readi` (`fs.c:462`), the turns of its loop: `count` blocks are left to read from `off` on,
with `n` bytes, and `dst` holds the bytes read so far, up to position `tot`. -/
def readiFrom (i : Nat) : Nat → Nat → Nat → Nat → Bytes → M Bytes
  | 0, _, _, _, dst => pure dst
  | count + 1, tot, off, n, dst => do
    let b ← bmap i (off / BSIZE)
    let blk ← readBlock b
    let m := min (n - tot) (BSIZE - off % BSIZE)
    readiFrom i count (tot + m) (off + m) n (dst.blit tot m fun p => blk (off % BSIZE + p))

/-- `readi` (`fs.c:462`): the bytes and their number, or `none` for `-1`. -/
def readi (i : Nat) (off n : UInt32) : M (Option (Nat × Bytes)) := do
  let d ← Comp.gets fun s => (s.inode i).d
  if d.type = T_DEV then
    let dev ← Comp.gets fun s => s.devsw d.major.toInt.toNat
    match dev.read with
    | some read =>
      if d.major < 0 ∨ Int16.ofNat NDEV ≤ d.major then pure none else pure (some (read n.toNat))
    | none => pure none
  else if off > d.size ∨ off + n < off then pure none
  else
    let n := if off + n > d.size then d.size - off else n
    let dst ← readiFrom i (spanned off.toNat n.toNat) 0 off.toNat n.toNat fun _ => 0
    pure (some (n.toNat, dst))

/-- `writei` (`fs.c:490`), the turns of its loop; the offset it ends at. -/
def writeiFrom (i : Nat) (src : Bytes) : Nat → Nat → Nat → Nat → M Nat
  | 0, _, off, _ => pure off
  | count + 1, tot, off, n => do
    let b ← bmap i (off / BSIZE)
    let blk ← readBlock b
    let m := min (n - tot) (BSIZE - off % BSIZE)
    log_write b (blk.blit (off % BSIZE) m fun p => src (tot + p))
    writeiFrom i src count (tot + m) (off + m) n

/-- `writei` (`fs.c:490`): the number of bytes written, or `none` for `-1`. -/
def writei (i : Nat) (src : Bytes) (off n : UInt32) : M (Option Nat) := do
  let d ← Comp.gets fun s => (s.inode i).d
  if d.type = T_DEV then
    let dev ← Comp.gets fun s => s.devsw d.major.toInt.toNat
    match dev.write with
    | some write =>
      if d.major < 0 ∨ Int16.ofNat NDEV ≤ d.major then pure none else
        pure (some (write n.toNat src))
    | none => pure none
  else if off > d.size ∨ off + n < off then pure none
  else if off + n > UInt32.ofNat (MAXFILE * BSIZE) then pure none
  else
    let off' ← writeiFrom i src (spanned off.toNat n.toNat) 0 off.toNat n.toNat
    if n > 0 ∧ off' > d.size.toNat then
      setInode i fun ip => { ip with d := { ip.d with size := UInt32.ofNat off' } }
      iupdate i
    pure (some n.toNat)

end Dixv6.Fs
