import Dixv6.Sys.Op

/-!
# Directories and paths

The directory layer of `fs.c`: directory entries and their names, `dirlookup`, `dirlink`, and the
walk along a path in `namex`. A name is the string that `namecmp` compares: at most `DIRSIZ` bytes,
none of them zero.
-/

namespace Dixv6.Sys

open Lib Fs

/-- Directory entry names have up to this many bytes (`fs.h`). -/
abbrev DIRSIZ : Nat := 14

/-- `sizeof(struct dirent)` -/
abbrev DESIZE : Nat := 16

/-- The name of a directory entry, up to its terminating zero. -/
abbrev Name := List UInt8

/-- A path, without its terminating zero. -/
abbrev Path := List UInt8

/-- `'/'` -/
def slash : UInt8 := 47

/-- `"."` -/
def dot : Name := [46]

/-- `".."` -/
def dotdot : Name := [46, 46]

/-! ## Directory entries -/

/-- `struct dirent` (`fs.h`). -/
structure Dirent where
  /-- Inode number, zero for an empty entry. -/
  inum : Nat
  name : Name
  deriving DecidableEq

/-- The entry in the first `DESIZE` bytes. -/
def getDirent (b : Bytes) : Dirent where
  inum := b.leGet 0 2
  name := ((List.range DIRSIZ).map fun p => b (2 + p)).takeWhile (· ≠ 0)

/-- The bytes of an entry, its name filled up with zeroes as `strncpy` does. -/
def putDirent (inum : Nat) (name : Name) : Bytes :=
  Bytes.lePut (fun p => name.getD (p - 2) 0) 0 2 inum

/-- The next entry of the directory `dp`, read at `off`. -/
def readDirent (dp off : Nat) (e : Stop) : P Dirent := do
  match ← call (.readi dp (UInt32.ofNat off) (UInt32.ofNat DESIZE)) with
  | some (n, b) => if n = DESIZE then pure (getDirent b) else panic e
  | none => panic e

/-- The number of entries that a loop over the directory looks at. -/
def direntCount (size : UInt32) : Nat := (size.toNat + (DESIZE - 1)) / DESIZE

/-- `dirlookup` (`fs.c:533`): the turns of its loop. -/
def dirlookupFrom (dp : Nat) (name : Name) : Nat → Nat → P (Option (Nat × Nat))
  | 0, _ => pure none
  | count + 1, off => do
    let de ← readDirent dp off .dirlinkRead
    if de.inum ≠ 0 ∧ de.name = name then
      let ip ← call (.iget de.inum)
      pure (some (ip, off))
    else dirlookupFrom dp name count (off + DESIZE)

/-- `dirlookup` (`fs.c:533`): the inode that the name stands for and the offset of its entry. -/
def dirlookup (dp : Nat) (name : Name) : P (Option (Nat × Nat)) := do
  let ip ← call (.inode dp)
  if ip.d.type ≠ T_DIR then panic .dirlookupNotDir
  else dirlookupFrom dp name (direntCount ip.d.size) 0

/-- `dirlink` (`fs.c:560`): the turns of its loop, and the offset it ends at. -/
def dirlinkFrom (dp : Nat) : Nat → Nat → P Nat
  | 0, off => pure off
  | count + 1, off => do
    let de ← readDirent dp off .dirlinkRead
    if de.inum = 0 then pure off else dirlinkFrom dp count (off + DESIZE)

/-- `dirlink` (`fs.c:560`); `false` for `-1`. -/
def dirlink (dp : Nat) (name : Name) (inum : Nat) : P Bool := do
  match ← dirlookup dp name with
  | some (ip, _) =>
    call (.iput ip)
    pure false
  | none =>
    let d ← call (.inode dp)
    let off ← dirlinkFrom dp (direntCount d.d.size) 0
    let r ← call (.writei dp (putDirent inum name) (UInt32.ofNat off) (UInt32.ofNat DESIZE))
    if r ≠ some DESIZE then panic .dirlink
    else pure true

/-! ## Paths -/

/-- `skipelem` (`fs.c:604`): the next element of the path and what follows it. -/
def skipelem (path : Path) : Option (Name × Path) :=
  match path.dropWhile (· = slash) with
  | [] => none
  | c :: rest =>
    some (((c :: rest).takeWhile (· ≠ slash)).take DIRSIZ,
      ((c :: rest).dropWhile (· ≠ slash)).dropWhile (· = slash))

/-- The elements that repeated calls of `skipelem` return; a path has at most as many as it has
bytes. -/
def elemsFrom : Nat → Path → List Name
  | 0, _ => []
  | fuel + 1, path =>
    match skipelem path with
    | none => []
    | some (name, rest) => name :: elemsFrom fuel rest

/-- The elements of a path. -/
def elems (path : Path) : List Name := elemsFrom path.length path

/-- `iunlockput` (`fs.c:340`). -/
def iunlockput (ip : Nat) : P Unit := do
  call (.iunlock ip)
  call (.iput ip)

/-- `namex` (`fs.c:632`): the turns of its loop over the elements left. -/
def namexFrom (nameiparent : Bool) : List Name → Nat → P (Option Nat)
  | [], ip => do
    if nameiparent then
      call (.iput ip)
      pure none
    else pure (some ip)
  | name :: names, ip => do
    call (.ilock ip)
    let x ← call (.inode ip)
    if x.d.type ≠ T_DIR then
      iunlockput ip
      pure none
    else if nameiparent ∧ names = [] then
      call (.iunlock ip)
      pure (some ip)
    else
      match ← dirlookup ip name with
      | none =>
        iunlockput ip
        pure none
      | some (next, _) =>
        iunlockput ip
        namexFrom nameiparent names next

/-- `namex` (`fs.c:632`). -/
def namex (path : Path) (nameiparent : Bool) : P (Option Nat) := do
  if path.head? = some slash then
    let ip ← call (.iget ROOTINO)
    namexFrom nameiparent (elems path) ip
  else
    let cwd ← call .cwd
    let ip ← call (.idup cwd)
    namexFrom nameiparent (elems path) ip

/-- `namei` (`fs.c:667`). -/
def namei (path : Path) : P (Option Nat) := namex path false

/-- `nameiparent` (`fs.c:674`): the directory that the last element is looked up in, and that
element. -/
def nameiparent (path : Path) : P (Option (Nat × Name)) := do
  match ← namex path true with
  | some dp => pure (some (dp, (elems path).getLastD []))
  | none => pure none

end Dixv6.Sys
