import Dixv6.Lib.Bytes
import Dixv6.Vm.Proc

/-!
# Loading a program

`exec.c` and the functions of `vm.c` that only it uses: `loaduvm`, `clearpteu`, `uva2ka` and
`copyout`. The executed file is its size and its bytes, read as `readi` reads a regular file; the
strings of `argv` are lists of bytes. Of the inode there is its reference count, which `namei`
raises and `iunlockput` lowers; of the trap frame the two registers `exec` sets.

`wrote` is the list of frames that `readi` and `memmove` have stored bytes to on behalf of `exec`;
nothing reads it. A page-table entry read through a null pointer, which C leaves undefined, stops.
-/

namespace Dixv6.Vm

open Lib

/-- Maximum number of `exec` arguments (`param.h`). -/
abbrev MAXARG : Nat := 32
/-- `"\x7FELF"` in little endian (`elf.h`) -/
abbrev ELF_MAGIC : Nat := 0x464C457F
/-- The type of a segment to be loaded (`elf.h`). -/
abbrev ELF_PROG_LOAD : Nat := 1

/-- A regular file: its size and its bytes. -/
structure File where
  size : Nat
  byte : Bytes

/-- What `exec` works on: memory and the processes, and of the calling process its trap frame and
name. -/
structure Xstate where
  sys : Sys
  /-- `ip->ref` of the file's inode. -/
  ref : Nat
  eip : Nat
  esp : Nat
  name : List UInt8
  /-- The frames stored to. -/
  wrote : List Nat

/-- Why `exec` does not return: a stop of the memory code, or one of its own. -/
inductive XStop where
  | vm (e : Stop)
  /-- `loaduvm: addr must be page aligned` -/
  | loaduvmAligned
  /-- `loaduvm: address should exist` -/
  | loaduvmExist
  | clearpteu
  /-- `*pte` in `uva2ka`, when there is no page table. -/
  | uva2kaNull
  deriving DecidableEq, Repr

/-- Computations of `exec`. -/
abbrev X := Comp Xstate XStop

/-- Memory code run by `exec`. -/
def vm {α : Type} (m : M α) : X α := fun s =>
  match m s.sys.vm with
  | .ok (a, v) => .ok (a, { s with sys := { s.sys with vm := v } })
  | .error e => .error (.vm e)

/-! ## Bytes in frames -/

/-- The bytes of a frame. -/
def frameBytes (c : Nat → Nat) : Bytes := fun k => UInt8.ofNat (c (k / 4) / 256 ^ (k % 4))

/-- A frame after `n` bytes were stored at `off`. -/
def poke (c : Nat → Nat) (off n : Nat) (src : Bytes) : Nat → Nat := fun i =>
  if 4 * i + 4 ≤ off ∨ off + n ≤ 4 * i then c i
  else Bytes.leGet (Bytes.blit (frameBytes c) off n src) (4 * i) 4

/-- Store `n` bytes at `off` of the frame `f`. -/
def storeBytes (f off n : Nat) (src : Bytes) : X Unit :=
  if n = 0 then pure ()
  else Comp.modify fun s =>
    { s with
      sys := { s.sys with vm := { s.sys.vm with
        mem := Function.update s.sys.vm.mem f (poke (s.sys.vm.mem f) off n src) } }
      wrote := f :: s.wrote }

/-! ## Reading the file -/

/-- How many bytes `readi` copies for `n` bytes at `off`; `none` is its `-1`. -/
def readi (F : File) (off n : Nat) : Option Nat :=
  if off > F.size ∨ (off + n) % 2 ^ 32 < off then none
  else if (off + n) % 2 ^ 32 > F.size then some (F.size - off)
  else some n

/-- `struct proghdr`, without the fields `exec` does not look at. -/
structure Proghdr where
  type : Nat
  off : Nat
  vaddr : Nat
  filesz : Nat
  memsz : Nat
  deriving DecidableEq, Repr

/-- The program header at `off`. -/
def proghdr (F : File) (off : Nat) : Proghdr where
  type := F.byte.leGet off 4
  off := F.byte.leGet (off + 4) 4
  vaddr := F.byte.leGet (off + 8) 4
  filesz := F.byte.leGet (off + 16) 4
  memsz := F.byte.leGet (off + 20) 4

/-- `elf.magic` -/
def File.magic (F : File) : Nat := F.byte.leGet 0 4
/-- `elf.entry` -/
def File.entry (F : File) : Nat := F.byte.leGet 24 4
/-- `elf.phoff` -/
def File.phoff (F : File) : Nat := F.byte.leGet 28 4
/-- `elf.phnum` -/
def File.phnum (F : File) : Nat := F.byte.leGet 44 2

/-! ## `loaduvm` -/

/-- The loop of `loaduvm` from the offset `i` on; `false` is the source's `-1`. -/
def loaduvmFrom (F : File) (pgdir addr offset sz : Nat) : Nat → Nat → X Bool
  | 0, _ => Comp.stop (.vm .diverges)
  | fuel + 1, i =>
    if i < sz then do
      match ← vm (walkpgdir pgdir ((addr + i) % 2 ^ 32) false) with
      | none => Comp.stop .loaduvmExist
      | some (t, j) => do
        let pte ← vm (getWord t j)
        let n := if sz - i < PGSIZE then sz - i else PGSIZE
        match readi F ((offset + i) % 2 ^ 32) n with
        | none => pure false
        | some m => do
          storeBytes (pteFrame pte) 0 m fun k => F.byte ((offset + i) % 2 ^ 32 + k)
          if m = n then loaduvmFrom F pgdir addr offset sz fuel ((i + PGSIZE) % 2 ^ 32)
          else pure false
    else pure true

/-- Load a program segment; `false` is the source's `-1`. -/
def loaduvm (F : File) (pgdir addr offset sz : Nat) : X Bool := do
  Comp.stopIf (addr % PGSIZE ≠ 0) .loaduvmAligned
  loaduvmFrom F pgdir addr offset sz TURNS 0

/-! ## `clearpteu`, `uva2ka` and `copyout` -/

/-- Clear `PTE_U` on a page. -/
def clearpteu (pgdir uva : Nat) : X Unit := do
  match ← vm (walkpgdir pgdir uva false) with
  | none => Comp.stop .clearpteu
  | some (t, j) => do
    let pte ← vm (getWord t j)
    vm (setWord t j (pte &&& (2 ^ 32 - 1 - PTE_U)))

/-- The frame of a user page, if there is one that the user may reach. -/
def uva2ka (pgdir uva : Nat) : X (Option Nat) := do
  match ← vm (walkpgdir pgdir uva false) with
  | none => Comp.stop .uva2kaNull
  | some (t, j) => do
    let pte ← vm (getWord t j)
    if ¬ present pte then pure none
    else if ¬ user pte then pure none
    else pure (some (pteFrame pte))

/-- The loop of `copyout` with `len` bytes left, which start at `buf`. -/
def copyoutFrom (pgdir : Nat) (p : Bytes) : Nat → Nat → Nat → Nat → X Bool
  | 0, _, _, _ => Comp.stop (.vm .diverges)
  | fuel + 1, va, buf, len =>
    if len > 0 then do
      let va0 := PGROUNDDOWN va
      match ← uva2ka pgdir va0 with
      | none => pure false
      | some f => do
        let n := min (PGSIZE - (va - va0)) len
        storeBytes f (va - va0) n fun k => p (buf + k)
        copyoutFrom pgdir p fuel ((va0 + PGSIZE) % 2 ^ 32) (buf + n) (len - n)
    else pure true

/-- Copy `len` bytes to the user address `va`; `false` is the source's `-1`. -/
def copyout (pgdir va : Nat) (p : Bytes) (len : Nat) : X Bool :=
  copyoutFrom pgdir p TURNS va 0 len

/-! ## `exec` -/

/-- The label `bad` of `exec`; `held` says whether `ip` is still set. -/
def bad (L : Layout) (pgdir : Option Nat) (held : Bool) : X Int := do
  match pgdir with
  | some d => vm (freevm L d)
  | none => pure ()
  if held then Comp.modify fun s => { s with ref := s.ref - 1 }
  pure (-1)

/-- The loop over the program headers with `n` headers left, the first at `off`, and the size
reached so far; `none` is a jump to `bad`. -/
def loadSegments (L : Layout) (F : File) (pgdir : Nat) : Nat → Nat → Nat → X (Option Nat)
  | 0, _, sz => pure (some sz)
  | n + 1, off, sz => do
    if readi F off 32 ≠ some 32 then pure none
    else
      let ph := proghdr F off
      if ph.type ≠ ELF_PROG_LOAD then
        loadSegments L F pgdir n ((off + 32) % 2 ^ 32) sz
      else if ph.memsz < ph.filesz then pure none
      else do
        let sz ← vm (allocuvm L pgdir sz ((ph.vaddr + ph.memsz) % 2 ^ 32))
        if sz = 0 then pure none
        else if ← loaduvm F pgdir ph.vaddr ph.off ph.filesz then
          loadSegments L F pgdir n ((off + 32) % 2 ^ 32) sz
        else pure none

/-- A C string in memory. -/
def cstring (a : List UInt8) : Bytes := fun k => a.getD k 0

/-- The loop that pushes the argument strings, when `argc` of them are pushed; the stack pointer
and `ustack[3 ..]`, or `none` for a jump to `bad`. -/
def pushArgs (pgdir : Nat) : List (List UInt8) → Nat → Nat → List Nat →
    X (Option (Nat × List Nat))
  | [], _, sp, ustack => pure (some (sp, ustack))
  | a :: argv, argc, sp, ustack => do
    if argc ≥ MAXARG then pure none
    else
      let sp := uint (sp - (a.length + 1)) / 4 * 4
      if ← copyout pgdir sp (cstring a) (a.length + 1) then
        pushArgs pgdir argv (argc + 1) sp (ustack ++ [sp])
      else pure none

/-- The words of `ustack`, as bytes. -/
def ustackBytes (ustack : List Nat) : Bytes := fun k =>
  UInt8.ofNat (ustack.getD (k / 4) 0 / 256 ^ (k % 4))

/-- The stack pointer after all of `argv` and `ustack` are pushed, or `none` for a jump to
`bad`. -/
def pushStack (pgdir sz : Nat) (argv : List (List UInt8)) : X (Option Nat) := do
  match ← pushArgs pgdir argv 0 sz [] with
  | none => pure none
  | some (sp, args) => do
    let argc := args.length
    let ustack := [0xffffffff, argc, uint (sp - (argc + 1) * 4)] ++ args ++ [0]
    let sp := uint (sp - (3 + argc + 1) * 4)
    if ← copyout pgdir sp (ustackBytes ustack) ((3 + argc + 1) * 4) then pure (some sp)
    else pure none

/-- The last component of a path. -/
def lastName (path : List UInt8) : List UInt8 :=
  (path.reverse.takeWhile (· ≠ 47)).reverse

/-- Commit to the user image: the process in slot `i`, whose contents were `p`. -/
def commit (L : Layout) (i : Nat) (p : Proc) (F : File) (path : List UInt8)
    (pgdir sz sp : Nat) : X Int := do
  Comp.modify fun s =>
    { s with
      name := (lastName path).take 15
      sys := { s.sys with procs := Function.update s.sys.procs i (some ⟨pgdir, sz⟩) }
      eip := F.entry
      esp := sp }
  vm (freevm L p.pgdir)
  pure 0

/-- Run the program in `ip`, which `namei(path)` found or not, with the arguments `argv`. -/
def exec (L : Layout) (i : Nat) (p : Proc) (ip : Option File) (path : List UInt8)
    (argv : List (List UInt8)) : X Int := do
  match ip with
  | none => pure (-1)
  | some F => do
    Comp.modify fun s => { s with ref := s.ref + 1 }
    -- The comparison with `sizeof(elf)` is unsigned: a `-1` of `readi` is not below it.
    if (readi F 0 52).any (· < 52) then bad L none true
    else if F.magic ≠ ELF_MAGIC then bad L none true
    else do
      match ← vm (setupkvm L) with
      | none => bad L none true
      | some d => do
        match ← loadSegments L F d F.phnum F.phoff 0 with
        | none => bad L (some d) true
        | some sz => do
          Comp.modify fun s => { s with ref := s.ref - 1 }
          let sz ← vm (allocuvm L d (PGROUNDUP sz) (uint (PGROUNDUP sz + 2 * PGSIZE)))
          if sz = 0 then bad L (some d) false
          else do
            clearpteu d (uint (sz - 2 * PGSIZE))
            match ← pushStack d sz argv with
            | none => bad L (some d) false
            | some sp => commit L i p F path d sz sp

/-- `exec` from the end of the loading on. -/
def execStack (L : Layout) (i : Nat) (p : Proc) (F : File) (path : List UInt8)
    (argv : List (List UInt8)) (d sz : Nat) : X Int := do
  let sz ← vm (allocuvm L d (PGROUNDUP sz) (uint (PGROUNDUP sz + 2 * PGSIZE)))
  if sz = 0 then bad L (some d) false
  else do
    clearpteu d (uint (sz - 2 * PGSIZE))
    match ← pushStack d sz argv with
    | none => bad L (some d) false
    | some sp => commit L i p F path d sz sp

/-- Memory code run by `exec`. -/
@[simp] theorem wp_vm {α : Type} {m : M α} {Q : α → Xstate → Prop} {E : XStop → Prop} {s : Xstate} :
    wp (vm m) Q E s ↔
      wp m (fun a v => Q a { s with sys := { s.sys with vm := v } }) (fun e => E (.vm e)) s.sys.vm := by
  unfold wp vm
  cases m s.sys.vm <;> rfl

end Dixv6.Vm
