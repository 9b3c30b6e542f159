import Mathlib.Algebra.BigOperators.Group.Finset.Basic
import Dixv6.Lib.Wp

/-!
# Physical memory, the page allocator and page tables

The model of `kalloc.c`, of the page-table half of `vm.c` and of the macros of `mmu.h` and
`memlayout.h` they use. Physical memory is words in frames; a page directory is named by its
frame, and a kernel pointer to a frame by the frame's number, so `p2v` and `v2p` disappear. The
allocator's list is kept as a list of frames, not as links stored in the free frames.

Addresses and sizes are naturals below `2 ^ 32`, with the wrap of the C arithmetic written out.
A loop of the source that may run for as long as the address space is large gets `2 ^ 20 + 1`
turns, one more than there are pages, and stops with `Stop.diverges` after that.
-/

namespace Dixv6.Vm

open Lib Function

/-! ## `mmu.h` and `memlayout.h` -/

abbrev PGSIZE : Nat := 4096
abbrev NPDENTRIES : Nat := 1024
abbrev NPTENTRIES : Nat := 1024
abbrev KERNBASE : Nat := 0x80000000
abbrev EXTMEM : Nat := 0x100000
abbrev KERNLINK : Nat := KERNBASE + EXTMEM
abbrev PHYSTOP : Nat := 0xE000000
abbrev DEVSPACE : Nat := 0xFE000000
abbrev PTE_P : Nat := 0x001
abbrev PTE_W : Nat := 0x002
abbrev PTE_U : Nat := 0x004

/-- The number of frames below `PHYSTOP`. -/
abbrev NFRAMES : Nat := PHYSTOP / PGSIZE

/-- The value of a C expression of type `uint`. -/
def uint (x : Int) : Nat := (x % 2 ^ 32).toNat

/-- The page directory index of an address. -/
def PDX (va : Nat) : Nat := va / 2 ^ 22 % 1024

/-- The page table index of an address. -/
def PTX (va : Nat) : Nat := va / 2 ^ 12 % 1024

def PGROUNDUP (sz : Nat) : Nat := (sz + (PGSIZE - 1)) % 2 ^ 32 / PGSIZE * PGSIZE

def PGROUNDDOWN (a : Nat) : Nat := a / PGSIZE * PGSIZE

/-- The frame that an entry names: `PTE_ADDR` as a frame number. -/
def pteFrame (w : Nat) : Nat := w / PGSIZE

def PTE_FLAGS (w : Nat) : Nat := w % PGSIZE

/-- The entry's `PTE_P` bit. -/
def present (w : Nat) : Bool := w.testBit 0

/-- The entry's `PTE_U` bit. -/
def user (w : Nat) : Bool := w.testBit 2

/-- The entry's `PTE_W` bit. -/
def writable (w : Nat) : Bool := w.testBit 1

/-- The ways in which the memory code stops: its panics, a kernel write through the null
pointer when no page is mapped there, and a loop that never ends. -/
inductive Stop where
  | remap
  | kfree
  | copyuvmPteShouldExist
  | copyuvmPageNotPresent
  | phystopTooHigh
  | nullFault
  | diverges
  deriving DecidableEq, Repr

/-- Where the linker put the kernel: the frames of `data` and of the first page at or above
`end`. Text and data are not empty, and all of it lies in memory. -/
structure Layout where
  data : Nat
  kend : Nat
  text_pos : EXTMEM / PGSIZE < data
  data_pos : data < kend
  fits : kend ≤ NFRAMES

/-- Physical memory, as words in frames, and the frames on `kmem.freelist`. -/
structure State where
  mem : Nat → Nat → Nat
  freelist : List Nat

/-- Computations of the memory code. -/
abbrev M := Comp State Stop

/-- The word of `f` at index `i`. -/
def getWord (f i : Nat) : M Nat := Comp.gets fun s => s.mem f i

/-- Overwrite a whole frame. -/
def setFrame (f : Nat) (c : Nat → Nat) : M Unit :=
  Comp.modify fun s => { s with mem := update s.mem f c }

/-- Overwrite one word of a frame. -/
def setWord (f i w : Nat) : M Unit :=
  Comp.modify fun s => { s with mem := update s.mem f (update (s.mem f) i w) }

/-! ## `kalloc.c` -/

/-- Take the first frame of the free list, if there is one. -/
def kalloc : M (Option Nat) := fun s =>
  match s.freelist with
  | [] => .ok (none, s)
  | f :: l => .ok (some f, { s with freelist := l })

/-- Fill a frame with junk and put it on the free list. -/
def kfree (L : Layout) (f : Nat) : M Unit := do
  Comp.stopIf (f < L.kend ∨ NFRAMES ≤ f) .kfree
  setFrame f fun _ => 0x01010101
  Comp.modify fun s => { s with freelist := f :: s.freelist }

/-! ## `vm.c` -/

/-- The frame and the index of the entry for `va`, after allocating a page table for it if
`alloc` says so and one is missing. -/
def walkpgdir (pgdir va : Nat) (alloc : Bool) : M (Option (Nat × Nat)) := do
  let pde ← getWord pgdir (PDX va)
  if present pde then
    pure (some (pteFrame pde, PTX va))
  else if alloc then
    match ← kalloc with
    | none => pure none
    | some pgtab =>
      setFrame pgtab fun _ => 0
      setWord pgdir (PDX va) (pgtab * PGSIZE ||| PTE_P ||| PTE_W ||| PTE_U)
      pure (some (pgtab, PTX va))
  else pure none

/-- The body of `mappages`' loop: map the page at `a` to the address `pa`. -/
def mappage (pgdir a pa perm : Nat) : M Bool := do
  match ← walkpgdir pgdir a true with
  | none => pure false
  | some (t, j) =>
    let pte ← getWord t j
    Comp.stopIf (present pte) .remap
    setWord t j (pa ||| perm ||| PTE_P)
    pure true

/-- `mappages`' loop when it has `n` more pages to map after the one at `a`. -/
def mappagesFrom (pgdir perm : Nat) : Nat → Nat → Nat → M Bool
  | 0, a, pa => mappage pgdir a pa perm
  | n + 1, a, pa => do
    if ← mappage pgdir a pa perm then
      mappagesFrom pgdir perm n ((a + PGSIZE) % 2 ^ 32) ((pa + PGSIZE) % 2 ^ 32)
    else pure false

/-- Map the pages that `va, .., va + size - 1` lies in to addresses from `pa` on; `false` is
the source's `-1`. The loop runs until `a` is the last page, which it reaches after wrapping
around if the last page is below the first. -/
def mappages (pgdir va size pa perm : Nat) : M Bool :=
  let a := PGROUNDDOWN va
  let last := PGROUNDDOWN (uint (va + size - 1))
  mappagesFrom pgdir perm (uint (last - a) / PGSIZE) a pa

/-- One row of `kmap`. -/
structure Kmap where
  virt : Nat
  phys_start : Nat
  phys_end : Nat
  perm : Nat

/-- The kernel's mappings. -/
def kmap (L : Layout) : List Kmap :=
  [⟨KERNBASE, 0, EXTMEM, PTE_W⟩,
   ⟨KERNLINK, EXTMEM, L.data * PGSIZE, 0⟩,
   ⟨KERNBASE + L.data * PGSIZE, L.data * PGSIZE, PHYSTOP, PTE_W⟩,
   ⟨DEVSPACE, DEVSPACE, 0, PTE_W⟩]

/-- `setupkvm`'s loop over the rows of `kmap`. -/
def setupkvmFrom (pgdir : Nat) : List Kmap → M (Option Nat)
  | [] => pure (some pgdir)
  | k :: ks => do
    if ← mappages pgdir k.virt (uint (k.phys_end - k.phys_start)) k.phys_start k.perm then
      setupkvmFrom pgdir ks
    else pure none

/-- A new page directory with the kernel's mappings. -/
def setupkvm (L : Layout) : M (Option Nat) := do
  match ← kalloc with
  | none => pure none
  | some pgdir =>
    setFrame pgdir fun _ => 0
    Comp.stopIf (KERNBASE + PHYSTOP > DEVSPACE) .phystopTooHigh
    setupkvmFrom pgdir (kmap L)

/-- `deallocuvm`'s loop from the address `a` on. -/
def deallocuvmFrom (L : Layout) (pgdir oldsz : Nat) : Nat → Nat → M Unit
  | 0, _ => Comp.stop .diverges
  | fuel + 1, a =>
    if a < oldsz then do
      match ← walkpgdir pgdir a false with
      | none =>
        deallocuvmFrom L pgdir oldsz fuel
          (((a + (NPTENTRIES - 1) * PGSIZE) % 2 ^ 32 + PGSIZE) % 2 ^ 32)
      | some (t, j) => do
        let pte ← getWord t j
        if present pte then
          Comp.stopIf (pteFrame pte = 0) .kfree
          kfree L (pteFrame pte)
          setWord t j 0
        deallocuvmFrom L pgdir oldsz fuel ((a + PGSIZE) % 2 ^ 32)
    else pure ()

/-- Turns enough for every loop that steps through the address space page by page. -/
abbrev TURNS : Nat := 2 ^ 20 + 1

/-- Free the user pages between `newsz` and `oldsz`; the new size. -/
def deallocuvm (L : Layout) (pgdir oldsz newsz : Nat) : M Nat :=
  if newsz ≥ oldsz then pure oldsz
  else do
    deallocuvmFrom L pgdir oldsz TURNS (PGROUNDUP newsz)
    pure newsz

/-- `allocuvm`'s loop from the address `a` on. The result of `mappages` is dropped. -/
def allocuvmFrom (L : Layout) (pgdir oldsz newsz : Nat) : Nat → Nat → M Nat
  | 0, _ => Comp.stop .diverges
  | fuel + 1, a =>
    if a < newsz then do
      match ← kalloc with
      | none => do
        let _ ← deallocuvm L pgdir newsz oldsz
        pure 0
      | some f => do
        setFrame f fun _ => 0
        let _ ← mappages pgdir a PGSIZE (f * PGSIZE) (PTE_W ||| PTE_U)
        allocuvmFrom L pgdir oldsz newsz fuel ((a + PGSIZE) % 2 ^ 32)
    else pure newsz

/-- Grow the user part from `oldsz` to `newsz`; the new size, or 0. -/
def allocuvm (L : Layout) (pgdir oldsz newsz : Nat) : M Nat :=
  if newsz ≥ KERNBASE then pure 0
  else if newsz < oldsz then pure oldsz
  else allocuvmFrom L pgdir oldsz newsz TURNS (PGROUNDUP oldsz)

/-- The body of `freevm`'s loop over the page directory. -/
def freevmTable (L : Layout) (pgdir i : Nat) : M Unit := do
  let pde ← getWord pgdir i
  if present pde then kfree L (pteFrame pde)

/-- Free the user pages, the page tables and the page directory. -/
def freevm (L : Layout) (pgdir : Nat) : M Unit := do
  let _ ← deallocuvm L pgdir KERNBASE 0
  Comp.forM (freevmTable L pgdir) (List.range NPDENTRIES)
  kfree L pgdir

/-- `copyuvm`'s loop from the address `i` on, copying from `pgdir` to `d`. -/
def copyuvmFrom (L : Layout) (pgdir sz d : Nat) : Nat → Nat → M (Option Nat)
  | 0, _ => Comp.stop .diverges
  | fuel + 1, i =>
    if i < sz then do
      match ← walkpgdir pgdir i false with
      | none => Comp.stop .copyuvmPteShouldExist
      | some (t, j) => do
        let pte ← getWord t j
        Comp.stopIf (¬ present pte) .copyuvmPageNotPresent
        match ← kalloc with
        | none => do
          freevm L d
          pure none
        | some f => do
          let page ← Comp.gets fun s => s.mem (pteFrame pte)
          setFrame f page
          if ← mappages d i PGSIZE (f * PGSIZE) (PTE_FLAGS pte) then
            copyuvmFrom L pgdir sz d fuel ((i + PGSIZE) % 2 ^ 32)
          else do
            freevm L d
            pure none
    else pure (some d)

/-- A copy of the user part of `pgdir` for a child. -/
def copyuvm (L : Layout) (pgdir sz : Nat) : M (Option Nat) := do
  match ← setupkvm L with
  | none => pure none
  | some d => copyuvmFrom L pgdir sz d TURNS 0

end Dixv6.Vm
