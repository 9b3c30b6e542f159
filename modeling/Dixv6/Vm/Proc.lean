import Dixv6.Vm.Paging

/-!
# Processes growing, forking and touching memory

The memory side of `proc.c`, `sys_sbrk` of `sysproc.c` and the page-fault case of `trap` in
`trap.c`. A process is its page directory and its size. `Step` collects what a process can do to
memory from outside: call `sbrk` or `fork`, load a word or store one.
-/

namespace Dixv6.Vm

open Lib

/-- Size of the process table. -/
abbrev NPROC : Nat := 64

/-- What a process table slot in use says about memory. -/
structure Proc where
  pgdir : Nat
  sz : Nat
  deriving DecidableEq, Repr

/-- Memory and the process table; `none` is a slot in state `UNUSED`. -/
structure Sys where
  vm : State
  procs : Nat → Option Proc

/-- Computations of the process code. -/
abbrev PM := Comp Sys Stop

/-- Memory code run by the process code. -/
def liftVm {α : Type} (m : M α) : PM α := fun s =>
  match m s.vm with
  | .ok (a, vm) => .ok (a, { s with vm })
  | .error e => .error e

/-- `proc->sz = sz` for the process in slot `i`, whose old contents are `p`. -/
def setSz (i : Nat) (p : Proc) (sz : Nat) : PM Unit :=
  Comp.modify fun s => { s with procs := Function.update s.procs i (some { p with sz }) }

/-- Grow the process by `n` bytes; `false` is the source's `-1`. -/
def growproc (L : Layout) (i : Nat) (p : Proc) (n : Int32) : PM Bool := do
  if n.toInt > 0 then
    let sz ← liftVm (allocuvm L p.pgdir p.sz (uint (p.sz + n.toInt)))
    if sz = 0 then pure false
    else
      setSz i p sz
      pure true
  else if n.toInt < 0 then
    let sz ← liftVm (deallocuvm L p.pgdir p.sz (uint (p.sz + n.toInt)))
    if sz = 0 then pure false
    else
      setSz i p sz
      pure true
  else
    setSz i p p.sz
    pure true

/-- The system call. The size that `growproc` stored is read again and `n` is added to it;
`none` is the source's `-1`. -/
def sys_sbrk (L : Layout) (i : Nat) (p : Proc) (n : Int32) : PM (Option Nat) := do
  let addr := p.sz
  if ← growproc L i p n then
    let sz ← Comp.gets fun s => ((s.procs i).getD p).sz
    setSz i p (uint (sz + n.toInt))
    pure (some addr)
  else pure none

/-- The first unused slot, with a kernel stack. -/
def allocproc : PM (Option (Nat × Nat)) := do
  match ← Comp.gets fun s => (List.range NPROC).find? fun i => (s.procs i).isNone with
  | none => pure none
  | some j =>
    match ← liftVm kalloc with
    | none => pure none
    | some kstack => pure (some (j, kstack))

/-- The memory side of `fork`; the child's slot, or `none` for the source's `-1`. -/
def fork (L : Layout) (p : Proc) : PM (Option Nat) := do
  match ← allocproc with
  | none => pure none
  | some (j, kstack) =>
    match ← liftVm (copyuvm L p.pgdir p.sz) with
    | none =>
      liftVm (kfree L kstack)
      pure none
    | some d =>
      Comp.modify fun s => { s with procs := Function.update s.procs j (some ⟨d, p.sz⟩) }
      pure (some j)

/-- The entry that `pgdir` holds for `va`, 0 when its page table is missing. -/
def pteAt (s : State) (pgdir va : Nat) : Nat :=
  if present (s.mem pgdir (PDX va)) then s.mem (pteFrame (s.mem pgdir (PDX va))) (PTX va) else 0

/-- `memset` of a page by the kernel through the null pointer: the process's page 0 is zeroed. -/
def zeroNull (pgdir : Nat) : M Unit := do
  let pte ← Comp.gets fun s => pteAt s pgdir 0
  Comp.stopIf (¬ present pte) .nullFault
  setFrame (pteFrame pte) fun _ => 0

/-- The `T_PGFLT` case of `trap`: map a fresh zeroed page at the faulting address. The result of
`kalloc` is not checked, and `v2p` of the null pointer is `2 ^ 32 - KERNBASE`. -/
def pgflt (pgdir cr2 : Nat) : M Unit := do
  match ← kalloc with
  | some f =>
    setFrame f fun _ => 0
    let _ ← mappages pgdir (PGROUNDDOWN cr2) PGSIZE (f * PGSIZE) (PTE_W ||| PTE_U)
    pure ()
  | none =>
    zeroNull pgdir
    let _ ← mappages pgdir (PGROUNDDOWN cr2) PGSIZE (uint (0 - KERNBASE)) (PTE_W ||| PTE_U)
    pure ()

/-- A user access to `va`: a store of the word `w`, or a load. What the page tables do not allow
traps, and the instruction is restarted by a later access. -/
def access (pgdir va : Nat) (w : Option Nat) : M Unit := do
  let pte ← Comp.gets fun s => pteAt s pgdir va
  if present pte ∧ user pte ∧ (w.isSome → writable pte) then
    match w with
    | none => pure ()
    | some w => setWord (pteFrame pte) (va % PGSIZE / 4) w
  else pgflt pgdir va

/-- What a process does to memory. -/
inductive Step where
  | sbrk (n : Int32)
  | fork
  | access (va : UInt32) (w : Option Nat)
  deriving DecidableEq, Repr

/-- One step of the process in slot `i`, whose contents are `p`. -/
def step (L : Layout) (i : Nat) (p : Proc) : Step → PM Unit
  | .sbrk n => do let _ ← sys_sbrk L i p n
  | .fork => do let _ ← fork L p
  | .access va w => liftVm (access p.pgdir va.toNat w)

end Dixv6.Vm
