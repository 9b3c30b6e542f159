import Dixv6.Lib.Bytes
import Mathlib.Algebra.Ring.Nat

/-!
# Compile-time parameters and the ways the kernel stops

The constants of `param.h` and `fs.h` under their own names, and `Stop`, the reasons for which
a computation of the file-system half of the kernel does not return: one constructor for each
`panic` of `bio.c`, `ide.c`, `log.c`, `fs.c`, `file.c` and `sysfile.c`, and `sleep` for a process
that waits on a channel nobody is there to wake.
-/

namespace Dixv6

open Lib

/-- Open files per process (`param.h`). -/
abbrev NOFILE : Nat := 16
/-- Maximum number of processes. -/
abbrev NPROC : Nat := 64
/-- Open files per system (`param.h`). -/
abbrev NFILE : Nat := 100
/-- Size of the disk block cache (`param.h`). -/
abbrev NBUF : Nat := 10
/-- Maximum number of active i-nodes (`param.h`). -/
abbrev NINODE : Nat := 50
/-- Maximum major device number (`param.h`). -/
abbrev NDEV : Nat := 10
/-- Max data sectors in the on-disk log (`param.h`). -/
abbrev LOGSIZE : Nat := 10
/-- Root i-number (`fs.h`). -/
abbrev ROOTINO : Nat := 1
/-- Block size (`fs.h`). -/
abbrev BSIZE : Nat := 512

instance : NeZero NPROC := ⟨by decide⟩

/-- The contents of one sector. -/
abbrev Block := Bytes

/-- A block of zero bytes. -/
def zeroBlock : Block := fun _ => 0

/-- Why a computation of the file system does not return. -/
inductive Stop where
  /-- Waits for ever: the channel it sleeps on is woken by nobody. -/
  | sleep
  /-- `bget: no buffers` -/
  | bgetNoBuffers
  | bwrite
  | brelse
  /-- `iderw: buf not busy` -/
  | iderwNotBusy
  /-- `iderw: nothing to do` -/
  | iderwNothing
  /-- A write past the end of `log.lh.sector`, which C leaves undefined. -/
  | headerOverrun
  /-- `too big a transaction` -/
  | tooBig
  /-- `write outside of trans` -/
  | outsideTrans
  /-- `balloc: out of blocks` -/
  | outOfBlocks
  /-- `freeing free block` -/
  | freeingFree
  /-- `ialloc: no inodes` -/
  | iallocNoInodes
  /-- `iget: no inodes` -/
  | igetNoInodes
  | ilock
  /-- `ilock: no type` -/
  | ilockNoType
  | iunlock
  /-- `iput busy` -/
  | iputBusy
  /-- `bmap: out of range` -/
  | bmapRange
  /-- `dirlookup not DIR` -/
  | dirlookupNotDir
  /-- `dirlink read` -/
  | dirlinkRead
  | dirlink
  /-- `isdirempty: readi` -/
  | isdiremptyRead
  /-- `unlink: nlink < 1` -/
  | unlinkNlink
  /-- `unlink: writei` -/
  | unlinkWritei
  /-- `create dots` -/
  | createDots
  /-- `create: dirlink` -/
  | createDirlink
  | filedup
  | fileclose
  | fileread
  | filewrite
  /-- `short filewrite` -/
  | shortFilewrite
  /-- `init exiting` -/
  | initExiting
  deriving DecidableEq, Repr

end Dixv6
