import Dixv6.Lib.Wp
import Dixv6.Param

/-!
# The buffer cache and the disk below it

`bio.c` keeps `NBUF` buffers on a list ordered by recency of release; `iderw` (`ide.c`) moves one
sector between a buffer and the disk. The state holds the disk, the buffers, the list, the log of
`log.c`, and the sector writes the disk has been given, in issue order: a crash leaves the disk
with a prefix of them. All of the file system is on one device, so `dev` is left out; a buffer
that `binit` gives no device holds no sector.
-/

namespace Dixv6.Disk

open Lib

/-- `struct buf` (`buf.h`): the flags, the sector it caches if any, and its data. -/
structure Buf where
  busy : Bool
  valid : Bool
  dirty : Bool
  /-- The sector cached, none before the first use. -/
  sector : Option Nat
  data : Block

/-- `struct log` (`log.c`). `lh` is the in-memory header: `lh.n` is the length of the list and
`lh.sector` its elements. -/
structure Log where
  /-- First sector of the log, which holds the header. -/
  start : Nat
  size : Nat
  /-- A transaction is active. -/
  busy : Bool
  /-- The sectors logged so far. -/
  lh : List Nat

/-- Disk, buffer cache and log. -/
structure State where
  disk : Nat → Block
  buf : Nat → Buf
  /-- The list from `bcache.head.next`: the buffers, the most recently released first. -/
  mru : List Nat
  log : Log
  /-- The sector writes given to the disk, in issue order. -/
  writes : List (Nat × Block)

/-- Computations over disk, cache and log. -/
abbrev M := Comp State Stop

/-- Change one buffer. -/
def setBuf (i : Nat) (f : Buf → Buf) : M Unit :=
  Comp.modify fun s => { s with buf := Function.update s.buf i (f (s.buf i)) }

/-- `binit` (`bio.c:39`): buffers without a device, each put in front of the list. -/
def binit (disk : Nat → Block) (log : Log) : State where
  disk := disk
  buf := fun _ => ⟨false, false, false, none, zeroBlock⟩
  mru := (List.range NBUF).reverse
  log := log
  writes := []

/-- `bget` (`bio.c:62`). The buffer of the sector, or the last one of the list that is neither
busy nor dirty. -/
def bget (sector : Nat) : M Nat := do
  let s ← Comp.gets id
  match s.mru.find? fun i => (s.buf i).sector = some sector with
  | some i =>
    Comp.stopIf (s.buf i).busy .sleep
    setBuf i fun b => { b with busy := true }
    pure i
  | none =>
    match s.mru.reverse.find? fun i => !(s.buf i).busy && !(s.buf i).dirty with
    | some i =>
      setBuf i fun b =>
        { b with sector := some sector, busy := true, valid := false, dirty := false }
      pure i
    | none => Comp.stop .bgetNoBuffers

/-- `iderw` (`ide.c:126`): write a dirty buffer to the disk, or read an invalid one from it. -/
def iderw (i : Nat) : M Unit := do
  let b ← Comp.gets fun s => s.buf i
  Comp.stopIf (!b.busy) .iderwNotBusy
  Comp.stopIf (b.valid && !b.dirty) .iderwNothing
  let sector := b.sector.getD 0
  if b.dirty then
    Comp.modify fun s =>
      { s with disk := Function.update s.disk sector b.data, writes := s.writes ++ [(sector, b.data)] }
    setBuf i fun b => { b with valid := true, dirty := false }
  else
    let data ← Comp.gets fun s => s.disk sector
    setBuf i fun b => { b with data := data, valid := true, dirty := false }

/-- `bread` (`bio.c:97`). -/
def bread (sector : Nat) : M Nat := do
  let i ← bget sector
  let b ← Comp.gets fun s => s.buf i
  if !b.valid then iderw i
  pure i

/-- `bwrite` (`bio.c:109`). -/
def bwrite (i : Nat) : M Unit := do
  let b ← Comp.gets fun s => s.buf i
  Comp.stopIf (!b.busy) .bwrite
  setBuf i fun b => { b with dirty := true }
  iderw i

/-- `brelse` (`bio.c:120`): to the front of the list, no longer busy. -/
def brelse (i : Nat) : M Unit := do
  let b ← Comp.gets fun s => s.buf i
  Comp.stopIf (!b.busy) .brelse
  Comp.modify fun s => { s with mru := i :: s.mru.erase i }
  setBuf i fun b => { b with busy := false }

end Dixv6.Disk
