import Dixv6.Lib.Prog
import Dixv6.Fs.Inode
import Dixv6.Pipes.Model

/-!
# The kernel that system calls run in

`Kernel` is what the file-system calls of all processes share: the file system, the file table,
the pipes, and the processes' current directories and descriptors. A system call is a program over
the operations `Op`, one constructor for each function of `fs.c`, `log.c`, `file.c` and `pipe.c`
that a call performs, and one for each access to a structure that it has locked. `exec` says what
an operation does for the process that performs it.

Fetching the arguments of a call is left out, since a call whose arguments cannot be fetched
returns before it does anything.
-/

namespace Dixv6.Sys

open Lib Fs Function
open Pipes (Pipe)

/-- `enum { FD_NONE, FD_PIPE, FD_INODE }` of `struct file`. -/
inductive FdType where
  | none
  | pipe
  | inode
  deriving DecidableEq, Repr

/-- `struct file` (`file.h`). -/
structure File where
  type : FdType
  ref : Nat
  readable : Bool
  writable : Bool
  pipe : Nat
  /-- The entry of the inode cache. -/
  ip : Nat
  /-- The offset of the next read or write. -/
  off : UInt32
  deriving DecidableEq

/-- The file-system half of `struct proc` (`proc.h`). -/
structure Proc where
  /-- Current directory, an entry of the inode cache. -/
  cwd : Nat
  /-- Open files, entries of the file table. -/
  ofile : Nat → Option Nat

/-- What the file-system calls of all processes share. -/
structure Kernel where
  fs : Fs.State
  file : Nat → File
  /-- The processes that have not exited. -/
  proc : Nat → Option Proc
  killed : Nat → Bool
  /-- The pipes, by the page they lie in. -/
  pipe : Nat → Pipe
  /-- The free pages, `kmem.freelist`. -/
  pages : List Nat

/-- The fields of an inode that system calls change themselves. -/
structure Links where
  major : Int16
  minor : Int16
  nlink : Int16
  deriving DecidableEq

/-- These fields of a disk inode. -/
def links (d : Dinode) : Links where
  major := d.major
  minor := d.minor
  nlink := d.nlink

/-- A disk inode with these fields changed. -/
def setLinks (f : Links → Links) (d : Dinode) : Dinode :=
  { d with
    major := (f (links d)).major
    minor := (f (links d)).minor
    nlink := (f (links d)).nlink }

/-- What system calls are made of. -/
inductive Op : Type → Type where
  | begin_trans : Op Unit
  | commit_trans : Op Unit
  | iget (inum : Nat) : Op Nat
  | idup (ip : Nat) : Op Nat
  | ilock (ip : Nat) : Op Unit
  | iunlock (ip : Nat) : Op Unit
  | iput (ip : Nat) : Op Unit
  | ialloc (type : Int16) : Op Nat
  /-- A change of `ip->major`, `ip->minor` or `ip->nlink`, and the `iupdate` that follows it. -/
  | iupdate (ip : Nat) (f : Links → Links) : Op Unit
  | readi (ip : Nat) (off n : UInt32) : Op (Option (Nat × Bytes))
  | writei (ip : Nat) (src : Bytes) (off n : UInt32) : Op (Option Nat)
  | inode (ip : Nat) : Op Inode
  | cwd : Op Nat
  | setCwd (ip : Nat) : Op Unit
  /-- `proc->ofile[fd]` -/
  | ofile (fd : Nat) : Op (Option Nat)
  | setOfile (fd : Nat) (f : Option Nat) : Op Unit
  | filealloc : Op (Option Nat)
  | filedup (f : Nat) : Op Unit
  /-- What `fileclose` does under the lock of the file table. -/
  | filedrop (f : Nat) : Op (Option File)
  | file (f : Nat) : Op File
  | setOff (f : Nat) (off : UInt32) : Op Unit
  /-- An open file: `f->type` is `FD_INODE` and `f->off` is zero. -/
  | setFile (f : Nat) (readable writable : Bool) (ip : Nat) : Op Unit
  /-- A page from `kalloc` for a new pipe, both ends open. -/
  | newPipe : Op (Option Nat)
  /-- An end of a pipe: `f->type` is `FD_PIPE`. -/
  | setPipe (f : Nat) (writable : Bool) (pipe : Nat) : Op Unit
  | pipeclose (pipe : Nat) (writable : Bool) : Op Unit
  | piperead (pipe n : Nat) : Op (Option (List UInt8))
  | pipewrite (pipe : Nat) (src : Bytes) (n : Nat) : Op Bool
  /-- The new process gets its structure. -/
  | newProc (child cwd : Nat) (ofile : Nat → Option Nat) : Op Unit
  | exited : Op Unit
  | stop (e : Stop) : Op Empty

/-- A system call. -/
abbrev P := Prog Op

/-- Perform one operation. -/
def call {β : Type} (o : Op β) : P β := Prog.lift o

/-- Panic. -/
def panic {β : Type} (e : Stop) : P β := .op (.stop e) Empty.elim

/-! ## What the operations do -/

/-- A computation of the file system as one of the kernel. -/
def onFs {β : Type} (m : Fs.M β) : Comp Kernel Stop β := fun k =>
  match m k.fs with
  | .ok (b, s) => .ok (b, { k with fs := s })
  | .error e => .error e

@[simp] theorem wp_onFs {β : Type} {m : Fs.M β} {Q : β → Kernel → Prop} {E : Stop → Prop}
    {k : Kernel} : wp (onFs m) Q E k ↔ wp m (fun b s => Q b { k with fs := s }) E k.fs := by
  unfold wp onFs
  cases m k.fs <;> rfl

/-- Change the process `p`. -/
def setProc (p : Nat) (f : Proc → Proc) : Comp Kernel Stop Unit :=
  Comp.modify fun k => { k with proc := update k.proc p ((k.proc p).map f) }

/-- Change a file. -/
def setFile (f : Nat) (h : File → File) : Comp Kernel Stop Unit :=
  Comp.modify fun k => { k with file := update k.file f (h (k.file f)) }

/-- `filealloc` (`file.c:26`). -/
def filealloc : Comp Kernel Stop (Option Nat) := do
  let k ← Comp.gets id
  match (List.range NFILE).find? fun f => (k.file f).ref = 0 with
  | some f =>
    setFile f fun x => { x with ref := 1 }
    pure (some f)
  | none => pure none

/-- `filedup` (`file.c:44`). -/
def filedup (f : Nat) : Comp Kernel Stop Unit := do
  let k ← Comp.gets id
  Comp.stopIf ((k.file f).ref < 1) .filedup
  setFile f fun x => { x with ref := x.ref + 1 }

/-- `fileclose` (`file.c:56`) as far as it holds `ftable.lock`: the file, if this was its last
reference. -/
def filedrop (f : Nat) : Comp Kernel Stop (Option File) := do
  let k ← Comp.gets id
  Comp.stopIf ((k.file f).ref < 1) .fileclose
  if 1 < (k.file f).ref then
    setFile f fun x => { x with ref := x.ref - 1 }
    pure none
  else
    setFile f fun x => { x with ref := 0, type := .none }
    pure (some (k.file f))

/-- `pipealloc` (`pipe.c:22`) from `kalloc` on, as far as it concerns the pipe. -/
def newPipe : Comp Kernel Stop (Option Nat) := do
  let k ← Comp.gets id
  match k.pages with
  | [] => pure none
  | x :: pages =>
    Comp.modify fun k =>
      { k with
        pages
        pipe := update k.pipe x
          { data := (k.pipe x).data, nread := 0, nwrite := 0, readopen := true, writeopen := true } }
    pure (some x)

/-- `pipeclose` (`pipe.c:59`): the page goes when both ends are closed. -/
def pipeclose (x : Nat) (writable : Bool) : Comp Kernel Stop Unit := do
  Comp.modify fun k => { k with pipe := update k.pipe x ((k.pipe x).shut writable) }
  let k ← Comp.gets id
  if (k.pipe x).readopen = false ∧ (k.pipe x).writeopen = false then
    Comp.modify fun k => { k with pages := x :: k.pages }

/-- `piperead` (`pipe.c:100`): the copying loop, and the bytes it has copied. -/
def pipereadFrom : Nat → Pipe → List UInt8 × Pipe
  | 0, x => ([], x)
  | n + 1, x =>
    if x.empty then ([], x)
    else
      let r := pipereadFrom n x.take
      (x.front :: r.1, r.2)

/-- `piperead` (`pipe.c:100`) by process `p`. -/
def piperead (p x n : Nat) : Comp Kernel Stop (Option (List UInt8)) := do
  let k ← Comp.gets id
  if (k.pipe x).empty ∧ (k.pipe x).writeopen then
    Comp.stopIf (!k.killed p) .sleep
    pure none
  else
    let r := pipereadFrom n (k.pipe x)
    Comp.modify fun k => { k with pipe := update k.pipe x r.2 }
    pure (some r.1)

/-- `pipewrite` (`pipe.c:78`) by process `p`: the turns of its loop for the bytes `bs`. -/
def pipewriteFrom (p x : Nat) : List UInt8 → Comp Kernel Stop Bool
  | [] => pure true
  | b :: bs => do
    let k ← Comp.gets id
    if (k.pipe x).full then
      Comp.stopIf ((k.pipe x).readopen && !k.killed p) .sleep
      pure false
    else
      Comp.modify fun k => { k with pipe := update k.pipe x ((k.pipe x).put b) }
      pipewriteFrom p x bs

/-- What an operation does when process `p` performs it. -/
def exec (p : Nat) : {β : Type} → Op β → Comp Kernel Stop β
  | _, .begin_trans => onFs Fs.begin_trans
  | _, .commit_trans => onFs Fs.commit_trans
  | _, .iget inum => onFs (Fs.iget inum)
  | _, .idup ip => onFs (Fs.idup ip)
  | _, .ilock ip => onFs (Fs.ilock ip)
  | _, .iunlock ip => onFs (Fs.iunlock ip)
  | _, .iput ip => onFs (Fs.iput ip)
  | _, .ialloc type => onFs (Fs.ialloc type)
  | _, .iupdate ip f => onFs do
    setInode ip fun x => { x with d := setLinks f x.d }
    Fs.iupdate ip
  | _, .readi ip off n => onFs (Fs.readi ip off n)
  | _, .writei ip src off n => onFs (Fs.writei ip src off n)
  | _, .inode ip => Comp.gets fun k => k.fs.inode ip
  | _, .cwd => Comp.gets fun k => ((k.proc p).map Proc.cwd).getD 0
  | _, .setCwd ip => setProc p fun x => { x with cwd := ip }
  | _, .ofile fd => Comp.gets fun k => (k.proc p).bind fun x => x.ofile fd
  | _, .setOfile fd f => setProc p fun x => { x with ofile := update x.ofile fd f }
  | _, .filealloc => Sys.filealloc
  | _, .filedup f => Sys.filedup f
  | _, .filedrop f => Sys.filedrop f
  | _, .file f => Comp.gets fun k => k.file f
  | _, .setOff f off => Sys.setFile f fun x => { x with off }
  | _, .setFile f readable writable ip =>
    Sys.setFile f fun x => { x with type := .inode, readable, writable, ip, off := 0 }
  | _, .newPipe => Sys.newPipe
  | _, .setPipe f writable pipe =>
    Sys.setFile f fun x => { x with type := .pipe, readable := !writable, writable, pipe }
  | _, .pipeclose pipe writable => Sys.pipeclose pipe writable
  | _, .piperead pipe n => Sys.piperead p pipe n
  | _, .pipewrite pipe src n => Sys.pipewriteFrom p pipe ((List.range n).map src)
  | _, .newProc child cwd ofile =>
    Comp.modify fun k => { k with proc := update k.proc child (some { cwd, ofile }) }
  | _, .exited => Comp.modify fun k => { k with proc := update k.proc p none }
  | _, .stop e => Comp.stop e

end Dixv6.Sys
