import Dixv6.Lib.Wp
import Dixv6.Fs.ByteFile
import Dixv6.Sys.Path

/-!
# `mkfs`

The program that makes the disk image (`mkfs.c`). It shares `fs.h` with the kernel, and so the
layout of super block, inodes, index blocks and directory entries (`Dixv6.Fs.Format`), but has its
own allocation and its own map from file blocks to disk blocks.

The image is a file of sectors: reading past its end fails, writing there makes it longer. An input
file is what `open` and `read` make of it. `Stop.overrun` is no exit of the program: it stands for
the access to `indirect[fbn - NDIRECT]` past the end of that array.
-/

namespace Dixv6.Mkfs

open Lib Fs Sys

/-! ## The program's state -/

/-- `int nblocks` -/
abbrev nblocks : Nat := 20985
/-- `int nlog` -/
abbrev nlog : Nat := LOGSIZE
/-- `int ninodes` -/
abbrev ninodes : Nat := 200
/-- `int size` -/
abbrev size : Nat := 21029

/-- Why `mkfs` stops. -/
inductive Stop where
  /-- `read` of a sector fails. -/
  | read
  /-- An input file cannot be opened. -/
  | open
  /-- The sizes do not add up. -/
  | layout
  /-- The root directory does not get inode 1. -/
  | rootino
  | slash
  | maxfile
  /-- There are too many blocks for one bitmap block. -/
  | bitmap
  /-- The array of an index block is left. -/
  | overrun
  deriving DecidableEq, Repr

/-- The image file and the counters of `mkfs`. -/
structure Img where
  sect : Nat → Block
  nsect : Nat
  freeblock : Nat
  usedblocks : Nat
  freeinode : Nat

/-- The file is empty. -/
def Img.new : Img where
  sect _ := zeroBlock
  nsect := 0
  freeblock := 0
  usedblocks := 0
  freeinode := 1

abbrev M := Comp Img Stop

/-! ## Sectors and inodes -/

/-- `wsect` (`mkfs.c:161`). -/
def wsect (sec : Nat) (buf : Block) : M Unit := Comp.modify fun s =>
  { s with sect := Function.update s.sect sec buf, nsect := max s.nsect (sec + 1) }

/-- `rsect` (`mkfs.c:205`). -/
def rsect (sec : Nat) : M Block := do
  let nsect ← Comp.gets Img.nsect
  Comp.stopIf (nsect ≤ sec) .read
  Comp.gets fun s => s.sect sec

/-- `i2b` (`mkfs.c:174`). -/
def i2b (inum : Nat) : Nat := inum / IPB + 2

/-- `winode` (`mkfs.c:180`). -/
def winode (inum : Nat) (ip : Dinode) : M Unit := do
  let buf ← rsect (i2b inum)
  wsect (i2b inum) (putDinode buf inum ip)

/-- `rinode` (`mkfs.c:193`). -/
def rinode (inum : Nat) : M Dinode := do
  let buf ← rsect (i2b inum)
  pure (getDinode buf inum)

/-- `ialloc` (`mkfs.c:218`). -/
def ialloc (type : Int16) : M Nat := do
  let inum ← Comp.gets Img.freeinode
  Comp.modify fun s => { s with freeinode := s.freeinode + 1 }
  winode inum { Dinode.zero with type, nlink := 1, size := 0 }
  pure inum

/-- A block with its first bits set. -/
def marks (n : Nat) : Block := (List.range n).foldl Bytes.setBit zeroBlock

/-- `balloc` (`mkfs.c:232`), whatever `ninodes` is. -/
def ballocFor (ninodes used : Nat) : M Unit := do
  Comp.stopIf (¬ used < 512 * 8) .bitmap
  wsect (ninodes / IPB + 3) (marks used)

/-- `balloc` (`mkfs.c:232`). -/
def balloc : Nat → M Unit := ballocFor ninodes

/-! ## Contents -/

/-- `freeblock++; usedblocks++` -/
def take : M Nat := do
  let b ← Comp.gets Img.freeblock
  Comp.modify fun s => { s with freeblock := s.freeblock + 1, usedblocks := s.usedblocks + 1 }
  pure b

/-- `din.addrs[k]`, given a block if it has none. -/
def mapRoot (din : Dinode) (k : Fin (NDIRECT + 2)) : M Dinode :=
  if din.addrs k = 0 then do
    let b ← take
    pure { din with addrs := Function.update din.addrs k (UInt32.ofNat b) }
  else pure din

/-- `indirect[j]` of the index block `a`, given a block if it has none. -/
def mapEntry (a j : Nat) : M Nat := do
  let indirect ← rsect a
  Comp.stopIf (NINDIRECT ≤ j) .overrun
  if getIndex indirect j = 0 then
    let b ← take
    wsect a (putIndex indirect j b)
    pure b
  else pure (getIndex indirect j)

/-- The block `x` of the file's block `fbn` (`mkfs.c:267`). -/
def mapBlock (din : Dinode) (fbn : Nat) : M (Dinode × Nat) := do
  if h : fbn < NDIRECT then
    let din ← mapRoot din ⟨fbn, direct_lt h⟩
    pure (din, (din.addrs ⟨fbn, direct_lt h⟩).toNat)
  else
    let din ← mapRoot din ⟨NDIRECT, indirect_lt⟩
    let x ← mapEntry (din.addrs ⟨NDIRECT, indirect_lt⟩).toNat (fbn - NDIRECT)
    pure (din, x)

/-- The loop of `iappend` (`mkfs.c:264`): the inode and the offset it ends with. Every turn copies a
byte, so that there are at most as many turns as bytes. -/
def iappendFrom : Nat → Dinode → Nat → List UInt8 → M (Dinode × Nat)
  | 0, din, off, _ => pure (din, off)
  | turns + 1, din, off, p => do
    if p = [] then pure (din, off)
    else
      let fbn := off / 512
      Comp.stopIf (¬ fbn < MAXFILE) .maxfile
      let (din, x) ← mapBlock din fbn
      let n1 := min p.length ((fbn + 1) * 512 - off)
      let buf ← rsect x
      wsect x (buf.blit (off - fbn * 512) n1 fun i => p.getD i 0)
      iappendFrom turns din (off + n1) (p.drop n1)

/-- `iappend` (`mkfs.c:251`). -/
def iappend (inum : Nat) (p : List UInt8) : M Unit := do
  let din ← rinode inum
  let (din, off) ← iappendFrom p.length din din.size.toNat p
  winode inum { din with size := UInt32.ofNat off }

/-! ## `main` -/

/-- An input file. -/
structure Source where
  /-- `argv[i]`, a string without its terminating zero. -/
  arg : List UInt8
  /-- What the calls of `read` return until there is nothing more; none when `open` fails. -/
  reads : Option (List (List UInt8))
  text : 0 ∉ arg
  /-- They read into a buffer of 512 bytes. -/
  sized : ∀ l, reads = some l → ∀ c ∈ l, 0 < c.length ∧ c.length ≤ 512

/-- The name without a leading underscore. -/
def Source.name (f : Source) : Name := if f.arg.head? = some 95 then f.arg.tail else f.arg

/-- The bytes of a directory entry. -/
def entry (inum : Nat) (name : Name) : List UInt8 := bytes (putDirent inum name) DESIZE

/-- The sectors are filled with zeroes, and the super block is written (`mkfs.c:99`). These are too
many steps to be unfolded by accident. -/
@[irreducible] def format (sectors : Nat) : M Unit := do
  Comp.forM (fun i => wsect i zeroBlock) (List.range sectors)
  wsect 1 (putSb zeroBlock { size, nblocks, ninodes, nlog })

/-- `bitblocks` -/
def bitblocks : Nat := size / (512 * 8) + 1

/-- `usedblocks`, before the first file. -/
def metablocks : Nat := ninodes / IPB + 3 + bitblocks

/-- The image before the first file (`mkfs.c:88`): super block and root directory. -/
def prepare : M Unit := do
  Comp.modify fun s => { s with usedblocks := metablocks, freeblock := metablocks }
  Comp.stopIf (nblocks + metablocks + nlog ≠ size) .layout
  format (nblocks + metablocks + nlog)
  let rootino ← ialloc T_DIR
  Comp.stopIf (rootino ≠ ROOTINO) .rootino
  iappend rootino (entry rootino dot)
  iappend rootino (entry rootino dotdot)

/-- One turn of the loop over the files (`mkfs.c:119`). -/
def addFile (f : Source) : M Unit := do
  Comp.stopIf (Sys.slash ∈ f.arg) .slash
  match f.reads with
  | none => Comp.stop .open
  | some reads =>
    let inum ← ialloc T_FILE
    iappend ROOTINO (entry inum f.name)
    Comp.forM (iappend inum) reads

/-- After the last file (`mkfs.c:149`): the size of the root directory, and the bitmap. -/
def finish : M Unit := do
  let din ← rinode ROOTINO
  winode ROOTINO { din with size := UInt32.ofNat ((din.size.toNat / BSIZE + 1) * BSIZE) }
  let used ← Comp.gets Img.usedblocks
  balloc used

/-- `main` (`mkfs.c:60`), once the image file is open. -/
def main (files : List Source) : M Unit := do
  prepare
  Comp.forM addFile files
  finish

end Dixv6.Mkfs
