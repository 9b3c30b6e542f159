import Dixv6.Param
import Mathlib.Algebra.BigOperators.Group.Finset.Basic
import Mathlib.Data.Fin.Tuple.Basic
import Mathlib.Tactic.Simps.Basic

/-!
# The process table

`proc.c` without its scheduler: the slots of `ptable`, and how `fork`, `exit`, `wait`, `kill`,
`exec`, `alarm` and the timer interrupt fill, change and free them, with the failure paths of
`allocproc` and `fork`. Whether memory for a kernel stack or for the copy of the parent's pages is
left is an input of `fork`. Pointers to frames (`pgdir`, `kstack`, `context`) are left out; of the
memory of a process there is its size and its contents.

`step` is one event; beside the table it keeps who asked for an alarm since it was created, which
no function reads.
-/

namespace Dixv6.Procs

open Function

/-- The slots of `ptable.proc`. -/
abbrev Slot := Fin NPROC

/-- `enum procstate` -/
inductive ProcState where
  | UNUSED
  | EMBRYO
  | SLEEPING
  | RUNNABLE
  | RUNNING
  | ZOMBIE
  deriving DecidableEq, Repr

/-- `struct trapframe`: the registers the kernel changes, and the others. -/
structure Trapframe where
  /-- The return value of a system call. -/
  eax : UInt32
  eip : UInt32
  esp : UInt32
  /-- All other registers. -/
  rest : Nat → UInt32

/-- What a process sleeps on. -/
inductive Chan where
  /-- A process: `wait`. -/
  | proc (i : Slot)
  | other (n : Nat)
  deriving DecidableEq, Repr

/-- `struct proc` -/
structure Proc where
  state : ProcState
  pid : Int32
  parent : Option Slot
  chan : Option Chan
  killed : Bool
  sz : UInt32
  /-- The memory `p->pgdir` maps. -/
  mem : UInt32 → UInt8
  tf : Trapframe
  ofile : Fin NOFILE → Option Nat
  cwd : Option Nat
  name : List UInt8
  alarmticks : UInt32
  alarmticked : UInt32
  alarmhandler : UInt32

/-- `ptable` and the variables beside it. -/
structure Table where
  proc : Slot → Proc
  nextpid : Int32
  initproc : Slot
  /-- Who called `alarm` since it was created. -/
  asked : Slot → Bool

/-- The slot `i` holds `p`. -/
@[simps]
def Table.set (t : Table) (i : Slot) (p : Proc) : Table :=
  { t with proc := update t.proc i p }

/-- The first slot, from the start of the table, that `P` holds of. -/
def Table.find (t : Table) (P : Proc → Bool) : Option Slot := Fin.find? fun i => P (t.proc i)

/-- The first `UNUSED` slot. -/
def Table.unused (t : Table) : Option Slot := t.find fun p => p.state = .UNUSED

/-- `wakeup1(chan)` -/
@[simps]
def Table.wakeup1 (t : Table) (ch : Chan) : Table :=
  { t with
    proc := fun i =>
      if (t.proc i).state = .SLEEPING ∧ (t.proc i).chan = some ch then
        { t.proc i with state := .RUNNABLE }
      else t.proc i }

/-- `allocproc`; `stack` says whether `kalloc` has a frame for the kernel stack. -/
def allocproc (t : Table) (stack : Bool) : Option Slot × Table :=
  match t.unused with
  | none => (none, t)
  | some i =>
    let p := { t.proc i with state := .EMBRYO, pid := t.nextpid }
    let t := { t.set i p with nextpid := t.nextpid + 1 }
    -- the pid stays in the slot
    if stack then (some i, t) else (none, t.set i { p with state := .UNUSED })

/-- What `fork` makes of the slot `np` for the parent `p`. -/
def Proc.child (np p : Proc) (parent : Slot) : Proc :=
  { np with
    sz := p.sz
    mem := p.mem
    parent := some parent
    tf := { p.tf with eax := 0 }
    ofile := fun fd => if (p.ofile fd).isSome then p.ofile fd else np.ofile fd
    cwd := p.cwd
    state := .RUNNABLE
    name := p.name }

/-- `fork` by the process in slot `i`; `copy` says whether `copyuvm` has the frames it needs. -/
def fork (t : Table) (i : Slot) (stack copy : Bool) : Option Int32 × Table :=
  match allocproc t stack with
  | (none, t) => (none, t)
  | (some np, t) =>
    if copy then
      (some (t.proc np).pid,
        { t.set np ((t.proc np).child (t.proc i) i) with
          asked := update t.asked np false })
    else (none, t.set np { t.proc np with state := .UNUSED })

/-- The loop of `exit` over the children of `i`. -/
def Table.abandon (t : Table) (i : Slot) : Table :=
  let t' := { t with
    proc := fun j =>
      if (t.proc j).parent = some i then { t.proc j with parent := some t.initproc }
      else t.proc j }
  if ∃ j, (t.proc j).parent = some i ∧ (t.proc j).state = .ZOMBIE then
    t'.wakeup1 (.proc t.initproc)
  else t'

/-- The first part of `exit`: all files and the directory are given up. -/
def Table.closeAll (t : Table) (i : Slot) : Table :=
  t.set i { t.proc i with ofile := fun _ => none, cwd := none }

/-- `wakeup1(proc->parent)` -/
def Table.wakeParent (t : Table) (i : Slot) : Table :=
  match (t.proc i).parent with
  | some j => t.wakeup1 (.proc j)
  | none => t

/-- The process in slot `i` is dead. -/
def Table.die (t : Table) (i : Slot) : Table := t.set i { t.proc i with state := .ZOMBIE }

/-- `exit` by the process in slot `i`, which is not `initproc`. -/
def exit (t : Table) (i : Slot) : Table := (((t.closeAll i).wakeParent i).abandon i).die i

/-- What `wait` leaves of the slot of a child it has found dead. -/
def Proc.reaped (p : Proc) : Proc :=
  { p with state := .UNUSED, pid := 0, parent := none, name := [], killed := false }

/-- What one turn of `wait` comes to. -/
inductive Waited where
  | ret (v : Int32)
  /-- It sleeps, and looks again when it wakes up. -/
  | slept

/-- One turn of `wait` by the process in slot `i`. -/
def wait (t : Table) (i : Slot) : Waited × Table :=
  match t.find fun p => p.parent = some i ∧ p.state = .ZOMBIE with
  | some j => (.ret (t.proc j).pid, t.set j (t.proc j).reaped)
  | none =>
    if (t.find fun p => p.parent = some i).isNone ∨ (t.proc i).killed then (.ret (-1), t)
    else (.slept, t.set i { t.proc i with state := .SLEEPING, chan := some (.proc i) })

/-- What `kill` makes of the slot it hits. -/
def Proc.kill (p : Proc) : Proc :=
  { p with killed := true, state := if p.state = .SLEEPING then .RUNNABLE else p.state }

/-- `kill(pid)` -/
def kill (t : Table) (pid : Int32) : Int32 × Table :=
  match t.find fun p => p.pid = pid with
  | some i => (0, t.set i (t.proc i).kill)
  | none => (-1, t)

/-- `sys_alarm`, after its arguments were fetched; `argptr` checks that the handler lies inside the
process. -/
def alarm (t : Table) (i : Slot) (ticks handler : UInt32) : Int32 × Table :=
  if handler ≥ (t.proc i).sz ∨ handler + 1 > (t.proc i).sz then (-1, t)
  else
    (0, { t.set i { t.proc i with
            alarmticks := ticks, alarmticked := 0, alarmhandler := handler } with
          asked := update t.asked i true })

/-- `*(uint*)addr = v` -/
def store (mem : UInt32 → UInt8) (addr v : UInt32) : UInt32 → UInt8 := fun a =>
  if a - addr < 4 then (v >>> (8 * (a - addr))).toUInt8 else mem a

/-- The timer interrupt is going to send the process to its alarm handler. -/
def Proc.alarms (p : Proc) : Prop :=
  p.alarmhandler ≠ 0 ∧ p.alarmticked + 1 ≥ p.alarmticks

instance (p : Proc) : Decidable p.alarms := inferInstanceAs (Decidable (_ ∧ _))

/-- The alarm of `trap` for a timer interrupt in user mode. -/
def Proc.tick (p : Proc) : Proc :=
  if p.alarmhandler ≠ 0 then
    if p.alarmticked + 1 ≥ p.alarmticks then
      { p with
        alarmticked := 0
        mem := store p.mem (p.tf.esp - 4) p.tf.eip
        tf := { p.tf with esp := p.tf.esp - 4, eip := p.alarmhandler } }
    else { p with alarmticked := p.alarmticked + 1 }
  else p

/-- What a successful `exec` makes of a process. -/
structure Image where
  sz : UInt32
  mem : UInt32 → UInt8
  entry : UInt32
  sp : UInt32
  name : List UInt8

/-- What happens next. -/
inductive Event where
  | fork (i : Slot) (stack copy : Bool)
  /-- A process exits, of its own accord or because it was killed. -/
  | exit (i : Slot)
  | wait (i : Slot)
  | kill (i : Slot) (pid : Int32)
  | alarm (i : Slot) (ticks handler : UInt32)
  /-- A process runs `exec`; without an image it fails. -/
  | exec (i : Slot) (image : Option Image)
  /-- The timer interrupts a process in user mode. -/
  | timer (i : Slot)
  /-- A process misbehaves in user mode: `trap` marks it killed. -/
  | fault (i : Slot)
  /-- A process computes: its registers and its memory change. -/
  | user (i : Slot) (sz : UInt32) (tf : Trapframe) (mem : UInt32 → UInt8)
  /-- A process opens and closes files, or changes its directory. -/
  | files (i : Slot) (ofile : Fin NOFILE → Option Nat) (cwd : Nat)
  | sleep (i : Slot) (n : Nat)
  /-- Some event wakes a channel. -/
  | wakeup (n : Nat)
  /-- The scheduler runs a process. -/
  | run (i : Slot)
  | yield (i : Slot)

/-- The value a system call of slot `i` returns: `proc->tf->eax`. -/
def Table.ret (t : Table) (i : Slot) (v : Int32) : Table :=
  t.set i { t.proc i with tf := { (t.proc i).tf with eax := v.toUInt32 } }

/-- A process that can make a system call: `trap` checks `killed` first. -/
def Proc.calls (p : Proc) : Prop := p.state = .RUNNING ∧ p.killed = false

instance (p : Proc) : Decidable p.calls := inferInstanceAs (Decidable (_ ∧ _))

/-- One event. -/
def step (t : Table) : Event → Option Table
  | .fork i stack copy =>
    if (t.proc i).calls then
      let (v, t) := fork t i stack copy
      some (t.ret i (v.getD (-1)))
    else none
  | .exit i => if (t.proc i).state = .RUNNING ∧ i ≠ t.initproc then some (exit t i) else none
  | .wait i =>
    if (t.proc i).state = .RUNNING then
      match wait t i with
      | (.ret v, t) => some (t.ret i v)
      | (.slept, t) => some t
    else none
  | .kill i pid =>
    if (t.proc i).calls then
      let (v, t) := kill t pid
      some (t.ret i v)
    else none
  | .alarm i ticks handler =>
    if (t.proc i).calls then
      let (v, t) := alarm t i ticks handler
      some (t.ret i v)
    else none
  | .exec i image =>
    if (t.proc i).calls then
      match image with
      | none => some (t.ret i (-1))
      | some m =>
        some (t.set i { t.proc i with
          sz := m.sz, mem := m.mem, name := m.name
          tf := { (t.proc i).tf with eip := m.entry, esp := m.sp, eax := 0 } })
    else none
  | .timer i =>
    if (t.proc i).state = .RUNNING then some (t.set i (t.proc i).tick) else none
  | .fault i =>
    if (t.proc i).state = .RUNNING then some (t.set i { t.proc i with killed := true }) else none
  | .user i sz tf mem =>
    if (t.proc i).state = .RUNNING then
      some (t.set i { t.proc i with sz := sz, tf := tf, mem := mem })
    else none
  | .files i ofile cwd =>
    if (t.proc i).calls then some (t.set i { t.proc i with ofile := ofile, cwd := some cwd })
    else none
  | .sleep i n =>
    if (t.proc i).state = .RUNNING then
      some (t.set i { t.proc i with state := .SLEEPING, chan := some (.other n) })
    else none
  | .wakeup n => some (t.wakeup1 (.other n))
  | .run i =>
    if (t.proc i).state = .RUNNABLE then
      some (t.set i { t.proc i with state := .RUNNING, chan := none })
    else none
  | .yield i =>
    if (t.proc i).state = .RUNNING then some (t.set i { t.proc i with state := .RUNNABLE })
    else none

/-- The table after some events, one after the other. -/
def runs (t : Table) : List Event → Option Table
  | [] => some t
  | e :: es => (step t e).bind fun t' => runs t' es

/-- A slot of the table the kernel starts with. -/
def Proc.zero : Proc where
  state := .UNUSED
  pid := 0
  parent := none
  chan := none
  killed := false
  sz := 0
  mem := fun _ => 0
  tf := ⟨0, 0, 0, fun _ => 0⟩
  ofile := fun _ => none
  cwd := none
  name := []
  alarmticks := 0
  alarmticked := 0
  alarmhandler := 0

/-- The table `userinit` leaves, with the program of the first process. -/
def userinit (m : Image) (root : Nat) : Table where
  proc := fun i =>
    if i = 0 then
      { Proc.zero with
        state := .RUNNABLE, pid := 1, sz := m.sz, mem := m.mem, name := m.name
        tf := ⟨0, m.entry, m.sp, fun _ => 0⟩, cwd := some root }
    else Proc.zero
  nextpid := 2
  initproc := 0
  asked := fun _ => false

/-- The tables that are reached when every event meets `ok`. -/
inductive Reaches (ok : Table → Event → Prop) : Table → Prop
  /-- The first process has just been made. -/
  | init (m : Image) (root : Nat) : Reaches ok (userinit m root)
  | step {t t' : Table} {e : Event} (h : Reaches ok t) (hok : ok t e)
      (he : Procs.step t e = some t') : Reaches ok t'

/-- A property that the first table has and that every event keeps holds of every table. -/
theorem Reaches.invariant {ok : Table → Event → Prop} {P : Table → Prop}
    (h0 : ∀ m root, P (userinit m root))
    (hstep : ∀ t e t', P t → ok t e → Procs.step t e = some t' → P t') {t : Table}
    (h : Reaches ok t) : P t := by
  induction h with
  | init m root => exact h0 m root
  | step _ hok he ih => exact hstep _ _ _ ih hok he

/-- Events that all meet the condition lead to a table that is reached. -/
theorem Reaches.runs {ok : Table → Event → Prop} {t t' : Table} (h : Reaches ok t)
    (es : List Event) (hok : ∀ t, ∀ e ∈ es, ok t e) (hes : Procs.runs t es = some t') :
    Reaches ok t' := by
  induction es generalizing t with
  | nil => exact Option.some.inj hes ▸ h
  | cons e es ih =>
    obtain ⟨t1, he, hes⟩ := Option.bind_eq_some_iff.1 hes
    exact ih (h.step (hok t e List.mem_cons_self) he)
      (fun t e' he' => hok t e' (List.mem_cons_of_mem e he')) hes

end Dixv6.Procs
