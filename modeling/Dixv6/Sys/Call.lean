import Dixv6.Sys.Path

/-!
# System calls

The file-system calls of `sysfile.c` with the functions of `file.c` under them, and what `fork`,
`exit` and `exec` do to files and directories. A result of `-1` is `none` or `false`.
-/

namespace Dixv6.Sys

open Lib Fs

/-! ## `file.c` -/

/-- `fileclose` (`file.c:56`). -/
def fileclose (f : Nat) : P Unit := do
  match ← call (.filedrop f) with
  | none => pure ()
  | some ff =>
    if ff.type = .pipe then call (.pipeclose ff.pipe ff.writable)
    else if ff.type = .inode then
      call .begin_trans
      call (.iput ff.ip)
      call .commit_trans

/-- `fileread` (`file.c:96`). -/
def fileread (f : Nat) (n : UInt32) : P (Option (Nat × Bytes)) := do
  let x ← call (.file f)
  if ¬ x.readable then pure none
  else if x.type = .pipe then
    -- the length is a C integer
    let r ← call (.piperead x.pipe n.toInt32.toInt.toNat)
    pure (r.map fun l => (l.length, fun i => l.getD i 0))
  else if x.type ≠ .inode then panic .fileread
  else
    call (.ilock x.ip)
    let y ← call (.file f)
    let r ← call (.readi x.ip y.off n)
    match r with
    | some (m, _) =>
      if 0 < m then
        let z ← call (.file f)
        call (.setOff f (z.off + UInt32.ofNat m))
    | none => pure ()
    call (.iunlock x.ip)
    pure r

/-- The bytes that `filewrite` writes in one transaction. -/
abbrev writeMax : Nat := (LOGSIZE - 1 - 1 - 2) / 2 * 512

/-- `filewrite` (`file.c:117`), one turn of its loop: what `writei` returned. -/
def filewriteChunk (f : Nat) (src : Bytes) (n1 : Nat) : P (Option Nat) := do
  let x ← call (.file f)
  call .begin_trans
  call (.ilock x.ip)
  let y ← call (.file f)
  let r ← call (.writei x.ip src y.off (UInt32.ofNat n1))
  match r with
  | some m =>
    if 0 < m then
      let z ← call (.file f)
      call (.setOff f (z.off + UInt32.ofNat m))
  | none => pure ()
  call (.iunlock x.ip)
  call .commit_trans
  pure r

/-- `filewrite` (`file.c:117`): the turns of its loop from `i` on. -/
def filewriteFrom (f : Nat) (src : Bytes) (n : Nat) : Nat → Nat → P Bool
  | 0, i => pure (i = n)
  | count + 1, i => do
    let n1 := min (n - i) writeMax
    match ← filewriteChunk f (fun p => src (i + p)) n1 with
    | none => pure (i = n)
    | some r =>
      if r ≠ n1 then panic .shortFilewrite
      else filewriteFrom f src n count (i + r)

/-- `filewrite` (`file.c:117`). -/
def filewrite (f : Nat) (src : Bytes) (n : Nat) : P Bool := do
  let x ← call (.file f)
  if ¬ x.writable then pure false
  else if x.type = .pipe then call (.pipewrite x.pipe src n)
  else if x.type ≠ .inode then panic .filewrite
  else filewriteFrom f src n ((n + (writeMax - 1)) / writeMax) 0

/-! ## Descriptors -/

/-- `fdalloc` (`sysfile.c:39`): the turns of its loop. -/
def fdallocFrom (f : Nat) : List Nat → P (Option Nat)
  | [] => pure none
  | fd :: fds => do
    match ← call (.ofile fd) with
    | none =>
      call (.setOfile fd (some f))
      pure (some fd)
    | some _ => fdallocFrom f fds

/-- `fdalloc` (`sysfile.c:39`). -/
def fdalloc (f : Nat) : P (Option Nat) := fdallocFrom f (List.range NOFILE)

/-- `argfd` (`sysfile.c:20`). -/
def argfd (fd : Nat) : P (Option Nat) := if NOFILE ≤ fd then pure none else call (.ofile fd)

/-- `sys_dup` (`sysfile.c:53`). -/
def sys_dup (fd : Nat) : P (Option Nat) := do
  match ← argfd fd with
  | none => pure none
  | some f =>
    match ← fdalloc f with
    | none => pure none
    | some fd' =>
      call (.filedup f)
      pure (some fd')

/-- `sys_read` (`sysfile.c:67`). -/
def sys_read (fd : Nat) (n : UInt32) : P (Option (Nat × Bytes)) := do
  match ← argfd fd with
  | none => pure none
  | some f => fileread f n

/-- `sys_write` (`sysfile.c:79`). -/
def sys_write (fd : Nat) (src : Bytes) (n : Nat) : P Bool := do
  match ← argfd fd with
  | none => pure false
  | some f => filewrite f src n

/-- `sys_close` (`sysfile.c:91`). -/
def sys_close (fd : Nat) : P Bool := do
  match ← argfd fd with
  | none => pure false
  | some f =>
    call (.setOfile fd none)
    fileclose f
    pure true

/-- `sys_fstat` (`sysfile.c:104`) and `filestat` (`file.c:83`): the inode's fields. -/
def sys_fstat (fd : Nat) : P (Option Dinode) := do
  match ← argfd fd with
  | none => pure none
  | some f =>
    let x ← call (.file f)
    if x.type ≠ .inode then pure none
    else
      call (.ilock x.ip)
      let ip ← call (.inode x.ip)
      call (.iunlock x.ip)
      pure (some ip.d)

/-! ## Names -/

/-- `sys_link` (`sysfile.c:116`), from `bad` on. -/
def linkBad (ip : Nat) : P Bool := do
  call (.ilock ip)
  call (.iupdate ip fun x => { x with nlink := x.nlink - 1 })
  iunlockput ip
  call .commit_trans
  pure false

/-- `sys_link` (`sysfile.c:116`). All inodes are of one device. -/
def sys_link (old new : Path) : P Bool := do
  match ← namei old with
  | none => pure false
  | some ip =>
    call .begin_trans
    call (.ilock ip)
    let x ← call (.inode ip)
    if x.d.type = T_DIR then
      iunlockput ip
      call .commit_trans
      pure false
    else
      call (.iupdate ip fun x => { x with nlink := x.nlink + 1 })
      call (.iunlock ip)
      match ← nameiparent new with
      | none => linkBad ip
      | some (dp, name) =>
        call (.ilock dp)
        if ← dirlink dp name x.inum then
          iunlockput dp
          call (.iput ip)
          call .commit_trans
          pure true
        else
          iunlockput dp
          linkBad ip

/-- `isdirempty` (`sysfile.c:164`): the turns of its loop. -/
def isdiremptyFrom (dp : Nat) : Nat → Nat → P Bool
  | 0, _ => pure true
  | count + 1, off => do
    let de ← readDirent dp off .isdiremptyRead
    if de.inum ≠ 0 then pure false else isdiremptyFrom dp count (off + DESIZE)

/-- `isdirempty` (`sysfile.c:164`). -/
def isdirempty (dp : Nat) : P Bool := do
  let x ← call (.inode dp)
  isdiremptyFrom dp (direntCount x.d.size - 2) (2 * DESIZE)

/-- `sys_unlink` (`sysfile.c:180`), from `bad` on. -/
def unlinkBad (dp : Nat) : P Bool := do
  iunlockput dp
  call .commit_trans
  pure false

/-- `sys_unlink` (`sysfile.c:180`), once the entry is found and may go. -/
def unlinkEntry (dp ip off : Nat) (dir : Bool) : P Bool := do
  let r ← call (.writei dp (fun _ => 0) (UInt32.ofNat off) (UInt32.ofNat DESIZE))
  if r ≠ some DESIZE then panic .unlinkWritei
  else
    if dir then
      call (.iupdate dp fun x => { x with nlink := x.nlink - 1 })
    iunlockput dp
    call (.iupdate ip fun x => { x with nlink := x.nlink - 1 })
    iunlockput ip
    call .commit_trans
    pure true

/-- `sys_unlink` (`sysfile.c:180`). -/
def sys_unlink (path : Path) : P Bool := do
  match ← nameiparent path with
  | none => pure false
  | some (dp, name) =>
    call .begin_trans
    call (.ilock dp)
    if name = dot ∨ name = dotdot then unlinkBad dp
    else
      match ← dirlookup dp name with
      | none => unlinkBad dp
      | some (ip, off) =>
        call (.ilock ip)
        let x ← call (.inode ip)
        if x.d.nlink < 1 then panic .unlinkNlink
        else if x.d.type = T_DIR then
          if ← isdirempty ip then unlinkEntry dp ip off true
          else
            iunlockput ip
            unlinkBad dp
        else unlinkEntry dp ip off false

/-- `create` (`sysfile.c:235`), the entries of the new inode `inum` if it is a directory. -/
def createDots (type : Int16) (dp ip inum : Nat) : P Unit := do
  if type = T_DIR then
    call (.iupdate dp fun x => { x with nlink := x.nlink + 1 })
    let d ← call (.inode dp)
    if ← dirlink ip dot inum then
      if ← dirlink ip dotdot d.inum then pure ()
      else panic .createDots
    else panic .createDots

/-- `create` (`sysfile.c:235`), once the directory is locked and the name is not in it. -/
def createNew (dp : Nat) (name : Name) (type major minor : Int16) : P Nat := do
  let ip ← call (.ialloc type)
  call (.ilock ip)
  call (.iupdate ip fun _ => { major, minor, nlink := 1 })
  let x ← call (.inode ip)
  createDots type dp ip x.inum
  if ← dirlink dp name x.inum then
    iunlockput dp
    pure ip
  else panic .createDirlink

/-- `create` (`sysfile.c:235`): the inode, locked. -/
def create (path : Path) (type major minor : Int16) : P (Option Nat) := do
  match ← nameiparent path with
  | none => pure none
  | some (dp, name) =>
    call (.ilock dp)
    match ← dirlookup dp name with
    | some (ip, _) =>
      iunlockput dp
      call (.ilock ip)
      let x ← call (.inode ip)
      if type = T_FILE ∧ x.d.type = T_FILE then pure (some ip)
      else
        iunlockput ip
        pure none
    | none =>
      let ip ← createNew dp name type major minor
      pure (some ip)

/-- `O_WRONLY` (`fcntl.h`). -/
def O_WRONLY : UInt32 := 1
/-- `O_RDWR` (`fcntl.h`). -/
def O_RDWR : UInt32 := 2
/-- `O_CREATE` (`fcntl.h`). -/
def O_CREATE : UInt32 := 0x200

/-- `sys_open` (`sysfile.c:280`), once the inode is found and locked. -/
def openInode (ip : Nat) (omode : UInt32) : P (Option Nat) := do
  match ← call .filealloc with
  | none =>
    iunlockput ip
    pure none
  | some f =>
    match ← fdalloc f with
    | none =>
      fileclose f
      iunlockput ip
      pure none
    | some fd =>
      call (.iunlock ip)
      call (.setFile f (omode &&& O_WRONLY = 0) (omode &&& O_WRONLY ≠ 0 ∨ omode &&& O_RDWR ≠ 0) ip)
      pure (some fd)

/-- `sys_open` (`sysfile.c:280`). -/
def sys_open (path : Path) (omode : UInt32) : P (Option Nat) := do
  if omode &&& O_CREATE ≠ 0 then
    call .begin_trans
    let r ← create path T_FILE 0 0
    call .commit_trans
    match r with
    | none => pure none
    | some ip => openInode ip omode
  else
    match ← namei path with
    | none => pure none
    | some ip =>
      call (.ilock ip)
      let x ← call (.inode ip)
      if x.d.type = T_DIR ∧ omode ≠ 0 then
        iunlockput ip
        pure none
      else openInode ip omode

/-- `sys_mkdir` (`sysfile.c:322`) and `sys_mknod` (`sysfile.c:338`): make an inode and let go of
it. -/
def makeNode (path : Path) (type major minor : Int16) : P Bool := do
  call .begin_trans
  match ← create path type major minor with
  | none =>
    call .commit_trans
    pure false
  | some ip =>
    iunlockput ip
    call .commit_trans
    pure true

/-- `sys_mkdir` (`sysfile.c:322`). -/
def sys_mkdir (path : Path) : P Bool := makeNode path T_DIR 0 0

/-- `sys_mknod` (`sysfile.c:338`). -/
def sys_mknod (path : Path) (major minor : Int16) : P Bool := makeNode path T_DEV major minor

/-- `sys_chdir` (`sysfile.c:359`). -/
def sys_chdir (path : Path) : P Bool := do
  match ← namei path with
  | none => pure false
  | some ip =>
    call (.ilock ip)
    let x ← call (.inode ip)
    if x.d.type ≠ T_DIR then
      iunlockput ip
      pure false
    else
      call (.iunlock ip)
      let cwd ← call .cwd
      call (.iput cwd)
      call (.setCwd ip)
      pure true

/-! ## Pipes -/

/-- `pipealloc` (`pipe.c:22`). -/
def pipealloc : P (Option (Nat × Nat)) := do
  match ← call .filealloc with
  | none => pure none
  | some f0 =>
    match ← call .filealloc with
    | none =>
      fileclose f0
      pure none
    | some f1 =>
      match ← call .newPipe with
      | none =>
        fileclose f0
        fileclose f1
        pure none
      | some pipe =>
        call (.setPipe f0 false pipe)
        call (.setPipe f1 true pipe)
        pure (some (f0, f1))

/-- `sys_pipe` (`sysfile.c:404`). -/
def sys_pipe : P (Option (Nat × Nat)) := do
  match ← pipealloc with
  | none => pure none
  | some (rf, wf) =>
    match ← fdalloc rf with
    | none =>
      fileclose rf
      fileclose wf
      pure none
    | some fd0 =>
      match ← fdalloc wf with
      | none =>
        call (.setOfile fd0 none)
        fileclose rf
        fileclose wf
        pure none
      | some fd1 => pure (some (fd0, fd1))

/-! ## Processes -/

/-- The reads of `exec` at the given offsets and lengths. -/
def readAll (ip : Nat) : List (UInt32 × UInt32) → P Unit
  | [] => pure ()
  | (off, n) :: l => do
    let _ ← call (.readi ip off n)
    readAll ip l

/-- `exec` (`exec.c:11`) as far as it touches the file system: it reads the headers and segments
that the program file asks for, some or all of them, and lets go of the file. -/
def sys_exec (path : Path) (reads : List (UInt32 × UInt32)) : P Bool := do
  match ← namei path with
  | none => pure false
  | some ip =>
    call (.ilock ip)
    readAll ip reads
    iunlockput ip
    pure true

/-- `fork` (`proc.c:129`): the child gets a reference to every open file. -/
def dupFiles : List Nat → P Unit
  | [] => pure ()
  | fd :: fds => do
    match ← call (.ofile fd) with
    | none => pure ()
    | some f => call (.filedup f)
    dupFiles fds

/-- The descriptors below `NOFILE`, as the child gets them. -/
def copyFiles : List Nat → P (Nat → Option Nat)
  | [] => pure fun _ => none
  | fd :: fds => do
    let f ← call (.ofile fd)
    let rest ← copyFiles fds
    pure (Function.update rest fd f)

/-- `fork` (`proc.c:129`), the child being the process `child`. -/
def fork (child : Nat) : P Unit := do
  dupFiles (List.range NOFILE)
  let ofile ← copyFiles (List.range NOFILE)
  let cwd ← call .cwd
  let cwd' ← call (.idup cwd)
  call (.newProc child cwd' ofile)

/-- `exit` (`proc.c:167`): close the files. -/
def closeFiles : List Nat → P Unit
  | [] => pure ()
  | fd :: fds => do
    match ← call (.ofile fd) with
    | none => pure ()
    | some f =>
      fileclose f
      call (.setOfile fd none)
    closeFiles fds

/-- `exit` (`proc.c:167`). -/
def exit (init : Bool) : P Unit := do
  if init then panic .initExiting
  else
    closeFiles (List.range NOFILE)
    let cwd ← call .cwd
    call (.iput cwd)
    call .exited

end Dixv6.Sys
