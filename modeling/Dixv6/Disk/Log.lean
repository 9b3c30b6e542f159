import Dixv6.Disk.Bio

/-!
# The log

`log.c` as it stands: `log_write` only pins the buffer, and `install_trans` copies the home buffer
into the log buffer before it writes both, for a commit and for a recovery alike. The header
block holds the number of logged sectors in its first word and the sectors in the words after it.
-/

namespace Dixv6.Disk

open Lib

/-- A C `int` from its unsigned reading. -/
def toInt32 (n : Nat) : Int := if n < 2 ^ 31 then n else (n : Int) - 2 ^ 32

/-- `hb->n` of a header block. -/
def headN (b : Block) : Int := toInt32 (b.leGet 0 4)

/-- `hb->sector[i]` of a header block. -/
def headSector (b : Block) (i : Nat) : Nat := b.leGet (4 * i + 4) 4

/-- The header block with `n` and `sector[i]`, for `i` from `i0` on, written over it. -/
def putSectors (b : Block) : Nat → List Nat → Block
  | _, [] => b
  | i, s :: l => putSectors (b.lePut (4 * i + 4) 4 s) (i + 1) l

/-- What `write_head` leaves in the header block. -/
def putHead (b : Block) (lh : List Nat) : Block := putSectors (b.lePut 0 4 lh.length) 0 lh

/-- `install_trans` (`log.c:71`), one turn of its loop. -/
def installOne (tail : Nat) (sector : Nat) : M Unit := do
  let log ← Comp.gets State.log
  let lbuf ← bread (log.start + tail + 1)
  let dbuf ← bread sector
  let data ← Comp.gets fun s => (s.buf dbuf).data
  setBuf lbuf fun b => { b with data := data }
  bwrite lbuf
  bwrite dbuf
  brelse lbuf
  brelse dbuf

/-- `install_trans` (`log.c:71`): the turns from `tail` on. -/
def installFrom : Nat → List Nat → M Unit
  | _, [] => pure ()
  | tail, sector :: l => do
    installOne tail sector
    installFrom (tail + 1) l

/-- `install_trans` (`log.c:71`). -/
def install_trans : M Unit := do
  let log ← Comp.gets State.log
  installFrom 0 log.lh

/-- Set the in-memory header. -/
def setLh (lh : List Nat) : M Unit := Comp.modify fun s => { s with log := { s.log with lh := lh } }

/-- `read_head` (`log.c:89`). A header with more than `LOGSIZE` sectors is copied past the end of
the array. -/
def read_head : M Unit := do
  let log ← Comp.gets State.log
  let b ← bread log.start
  let data ← Comp.gets fun s => (s.buf b).data
  Comp.stopIf ((LOGSIZE : Int) < headN data) .headerOverrun
  setLh ((List.range (headN data).toNat).map (headSector data))
  brelse b

/-- `write_head` (`log.c:105`). -/
def write_head : M Unit := do
  let log ← Comp.gets State.log
  let b ← bread log.start
  setBuf b fun buf => { buf with data := putHead buf.data log.lh }
  bwrite b
  brelse b

/-- `recover_from_log` (`log.c:119`). -/
def recover_from_log : M Unit := do
  read_head
  install_trans
  setLh []
  write_head

/-- `begin_trans` (`log.c:129`). -/
def begin_trans : M Unit := do
  let log ← Comp.gets State.log
  Comp.stopIf log.busy .sleep
  Comp.modify fun s => { s with log := { s.log with busy := true } }

/-- The part of `commit_trans` (`log.c:140`) that writes to the disk. -/
def commitWrites : M Unit := do
  let log ← Comp.gets State.log
  if 0 < log.lh.length then
    write_head
    install_trans
    setLh []
    write_head

/-- `commit_trans` (`log.c:140`). -/
def commit_trans : M Unit := do
  commitWrites
  Comp.modify fun s => { s with log := { s.log with busy := false } }

/-- `log_write` (`log.c:165`): append the sector unless it is logged already, and pin the
buffer. -/
def log_write (b : Nat) : M Unit := do
  let log ← Comp.gets State.log
  Comp.stopIf (LOGSIZE ≤ log.lh.length ∨ (log.size : Int) - 1 ≤ log.lh.length) .tooBig
  Comp.stopIf (!log.busy) .outsideTrans
  let buf ← Comp.gets fun s => s.buf b
  let sector := buf.sector.getD 0
  if sector ∈ log.lh then pure () else setLh (log.lh ++ [sector])
  setBuf b fun buf => { buf with dirty := true }

end Dixv6.Disk
