import Dixv6.Trap.Alarm

/-!
# The handler of an alarm

`trap` calls the handler as if the interrupted instruction had been a call: it pushes `eip` and nothing
else. A handler that follows the C calling convention gives back the registers a callee has to save, so
that the program goes on where it was with its stack pointer. The registers that a caller has to save,
and the flags, are whatever the handler left. **`handler_transparent`: nothing but these is lost.**
-/

namespace Dixv6.Trap

open Lib

/-- The registers of the user's program. -/
structure Regs where
  eax : UInt32
  ecx : UInt32
  edx : UInt32
  ebx : UInt32
  esi : UInt32
  edi : UInt32
  ebp : UInt32
  esp : UInt32
  eip : UInt32
  eflags : UInt32
  cs : UInt32
  deriving DecidableEq

/-- `*(uint*)a`. -/
def loadUint (mem : Bytes) (a : UInt32) : UInt32 :=
  .ofNat (Bytes.leGet (fun j => mem ((a.toNat + j) % 2 ^ 32)) 0 4)

/-- A timer interrupt, from the registers it saves in the trap frame (`trapasm.S`) to those it restores
from there. `trap` changes `esp` and `eip` only. -/
def interrupt (id : Nat) (r : Regs) (s : State) : Regs × State :=
  let (tf, s) := trapTimer id ⟨r.cs, r.eip, r.esp⟩ s
  ({ r with cs := tf.cs, eip := tf.eip, esp := tf.esp }, s)

/-- The interrupt enters the handler. -/
def Fires (r : Regs) (s : State) : Prop :=
  r.cs &&& 3 = 3 ∧ s.proc.alarmhandler ≠ 0 ∧ s.proc.alarmticked + 1 ≥ s.proc.alarmticks

/-- The C calling convention, from the entry of a function to its return. The stack of the caller ends
at `top`. -/
structure Conforms (top : Nat) (r : Regs) (mem : Bytes) (r' : Regs) (mem' : Bytes) : Prop where
  ret : r'.eip = loadUint mem r.esp
  esp : r'.esp = r.esp + 4
  ebx : r'.ebx = r.ebx
  esi : r'.esi = r.esi
  edi : r'.edi = r.edi
  ebp : r'.ebp = r.ebp
  cs : r'.cs = r.cs
  stack : ∀ i, (r.esp + 4).toNat ≤ i → i < top → mem' i = mem i

/-- The program goes on as without the alarm: with the registers it had, and with a memory in which only
the handler has changed something, apart from the four bytes below the stack pointer. -/
structure Transparent (r : Regs) (mem entry : Bytes) (r' : Regs) (mem' : Bytes) : Prop where
  regs : r' = r
  mem : ∀ i, mem' i ≠ mem i → mem' i ≠ entry i ∨ ∃ j < 4, i = ((r.esp - 4).toNat + j) % 2 ^ 32

section
variable {id : Nat} {r : Regs} {s : State}

/-- What was stored is loaded. -/
theorem loadUint_storeUint (mem : Bytes) (a w : UInt32) : loadUint (storeUint mem a w) a = w := by
  have ha := a.toNat_lt
  have hw := w.toNat_lt
  have hbytes : Bytes.leGet (fun j => storeUint mem a w ((a.toNat + j) % 2 ^ 32)) 0 4 =
      w.toNat % 256 ^ 4 := by
    refine Bytes.leGet_digits 4 0 w.toNat fun j hj => ?_
    have hoff : ((a.toNat + (0 + j)) % 2 ^ 32 + 2 ^ 32 - a.toNat) % 2 ^ 32 = j := by omega
    simp only [storeUint, hoff]
    rw [if_pos ⟨Nat.mod_lt _ (by decide), hj⟩]
  rw [loadUint, hbytes, Nat.mod_eq_of_lt (by omega), UInt32.ofNat_toNat]

/-- The registers and the memory with which the handler is entered. -/
theorem interrupt_fires (h : Fires r s) : interrupt id r s =
    ({ r with esp := r.esp - 4, eip := s.proc.alarmhandler }, { tick id s with
      proc := { s.proc with alarmticked := 0 }, mem := storeUint s.mem (r.esp - 4) r.eip }) := by
  obtain ⟨hu, hne, hge⟩ := h
  have huser : Trapframe.user ⟨r.cs, r.eip, r.esp⟩ := hu
  simp [interrupt, trapTimer, huser, hne, hge]

end

/-- **What a handler may change.** For every state that a timer tick interrupts to call the handler, and
every run of a handler that follows the C calling convention: the program goes on as without the alarm
exactly if the handler left `eax`, `ecx`, `edx` and the flags as they were. -/
theorem handler_transparent (id top : Nat) (r r' : Regs) (s : State) (mem' : Bytes) (h : Fires r s)
    (hc : Conforms top (interrupt id r s).1 (interrupt id r s).2.mem r' mem') :
    Transparent r s.mem (interrupt id r s).2.mem r' mem' ↔
      r'.eax = r.eax ∧ r'.ecx = r.ecx ∧ r'.edx = r.edx ∧ r'.eflags = r.eflags := by
  rw [interrupt_fires h] at hc ⊢
  constructor
  · rintro ⟨rfl, -⟩
    exact ⟨rfl, rfl, rfl, rfl⟩
  · rintro ⟨heax, hecx, hedx, hfl⟩
    refine ⟨?_, fun i hi => ?_⟩
    · have hret := hc.ret
      have hesp := hc.esp
      simp only [loadUint_storeUint] at hret
      rw [UInt32.sub_add_cancel] at hesp
      obtain ⟨-, -, hebx, hesi, hedi, hebp, hcs, -⟩ := hc
      cases r
      cases r'
      simp_all
    · by_cases he : mem' i = storeUint s.mem (r.esp - 4) r.eip i
      · exact .inr (storeUint_below (he ▸ hi))
      · exact .inl he

/-- A program whose registers are all one. Its next tick calls the handler at 64. -/
def ones : Regs := ⟨1, 1, 1, 1, 1, 1, 1, 1, 1, 1, 3⟩
@[inherit_doc ones] def armed : State := ⟨⟨4096, 1, 0, 64⟩, fun _ => 0, 0⟩

/-- A handler that does nothing. -/
theorem handler_transparent_idle :
    Transparent ones armed.mem (interrupt 0 ones armed).2.mem ones (interrupt 0 ones armed).2.mem :=
  (handler_transparent 0 4096 ones ones armed _ ⟨by decide, by decide, by decide⟩
    ⟨by decide +kernel, rfl, rfl, rfl, rfl, rfl, rfl, fun _ _ _ => rfl⟩).2 ⟨rfl, rfl, rfl, rfl⟩

/-- **A handler that returns 0** in `eax`, as a C function may, and the program has lost its `eax`. -/
theorem handler_clobbers : Fires ones armed ∧
    Conforms 4096 (interrupt 0 ones armed).1 (interrupt 0 ones armed).2.mem { ones with eax := 0 }
      (interrupt 0 ones armed).2.mem ∧
    ¬ Transparent ones armed.mem (interrupt 0 ones armed).2.mem { ones with eax := 0 }
      (interrupt 0 ones armed).2.mem :=
  ⟨⟨by decide, by decide, by decide⟩, ⟨by decide +kernel, rfl, rfl, rfl, rfl, rfl, rfl, fun _ _ _ => rfl⟩,
    fun h => absurd h.regs (by decide)⟩

end Dixv6.Trap
