import Dixv6.Lib.Lts
import Dixv6.Procs.Table

/-!
# Processes on several CPUs

`proc.c` with its scheduler, and the parts of `spinlock.c`, `vm.c` and `trap.c` it rests on: the
CPUs with their current process, stack and page table, `ptable.lock` and any other locks, and for
every process the place its thread of control has come to.

Each CPU runs the thread of control of a process (`on`), or its own scheduler. `swtch` in `sched`
and in `scheduler` changes which of the two; the lock stays with the CPU. A statement that takes or
gives up a lock, and each statement of `scheduler`, `sched`, `sleep`, `yield` and `fork` that others
can see, is a step of its own; a loop over the table, which runs with `ptable.lock` held, is one
step. What can change under such a loop is the state of an `EMBRYO` slot, which `fork` sets without
the lock and none of these loops looks for.

`next` gives the effect of the next statement of a thread and the place after it; `apply` gives the
effects their meaning. Kernel code outside of `proc.c` (`Code.body`) does what it likes with the
other locks and calls `wakeup`, and a process in such code calls `sleep`, `fork`, `wait`, `kill` and
`exit`. Interrupts come whenever the CPU holds no lock. A step that the source answers with `panic`
cannot be taken.

Who was born when and of whom, who exited and who was reaped by whom is kept beside the table
(`inc`, `sire`, `exits`, `reaps`) and read by nobody.
-/

namespace Dixv6.Sched

open Procs (ProcState)

/-- What a process sleeps on: a process, or anything else. -/
inductive Chan (ι : Type) where
  | proc (i : ι)
  | other (k : Nat)
  deriving DecidableEq, Repr

/-! ## Places -/

/-- Kernel code outside of `proc.c`, in a system call or an interrupt, with its calls of
`wakeup`. -/
inductive Code (ι : Type) where
  | body
  /-- `wakeup`: `acquire(&ptable.lock)` -/
  | acquire (ch : Chan ι)
  | wakeup1 (ch : Chan ι)
  /-- `release(&ptable.lock)` -/
  | release
  deriving DecidableEq, Repr

/-- The places of `sleep(chan, lk)`, for another lock than `ptable.lock`. -/
inductive SleepPc where
  /-- `acquire(&ptable.lock)` -/
  | acquire
  /-- `release(lk)` -/
  | release
  /-- `proc->chan = chan; proc->state = SLEEPING` -/
  | fall
  | sched
  /-- `proc->chan = 0` -/
  | tidy
  /-- `release(&ptable.lock)` -/
  | unlock
  /-- `acquire(lk)` -/
  | relock
  deriving DecidableEq, Repr

/-- The places of `kill(pid)`. -/
inductive KillPc where
  | acquire
  /-- The loop over the table. -/
  | mark
  | release
  deriving DecidableEq, Repr

/-- The places of `fork`. -/
inductive ForkPc (ι : Type) where
  /-- `allocproc`: `acquire(&ptable.lock)` -/
  | acquire
  /-- The search for an `UNUSED` slot. -/
  | alloc
  /-- `release(&ptable.lock)`, with the slot found. -/
  | release (np : Option ι)
  /-- `kalloc` of the kernel stack and `copyuvm`, up to `np->parent = proc`. -/
  | mem (np : ι)
  /-- `np->state = RUNNABLE` -/
  | ready (np : ι)
  deriving DecidableEq, Repr

/-- The places of `exit`, after the files were closed. -/
inductive ExitPc where
  | acquire
  /-- The wakeup of the parent, the loop over the children, and `proc->state = ZOMBIE`. -/
  | body
  | sched
  /-- `panic("zombie exit")` -/
  | dead
  deriving DecidableEq, Repr

/-- The places of `wait`, with those of its `sleep(proc, &ptable.lock)`. -/
inductive WaitPc where
  | acquire
  /-- The loop over the table. -/
  | scan
  /-- `release(&ptable.lock)`, with the value to return; `none` is the source's `-1`. -/
  | release (r : Option Int32)
  /-- `proc->chan = proc; proc->state = SLEEPING` -/
  | fall
  | sched
  /-- `proc->chan = 0` -/
  | tidy
  deriving DecidableEq, Repr

/-- The places of a process. `dying` says that the code belongs to `exit`. -/
inductive Pc (ι Λ : Type) where
  /-- `forkret`: the first thing a new process does. -/
  | forkret
  | user
  | kern (dying : Bool) (k : Code ι)
  | sleep (dying : Bool) (ch : Chan ι) (lk : Λ) (l : SleepPc)
  | kill (pid : Int32) (l : KillPc)
  | fork (l : ForkPc ι)
  | exit (l : ExitPc)
  | wait (l : WaitPc)
  deriving DecidableEq, Repr

/-- The places of `yield`. -/
inductive YieldPc where
  | acquire
  /-- `proc->state = RUNNABLE` -/
  | set
  | sched
  | release
  deriving DecidableEq, Repr

/-- The places of `trap` for an interrupt. -/
inductive Intr (ι : Type) where
  /-- The handler. -/
  | code (k : Code ι)
  | yield (l : YieldPc)
  deriving DecidableEq, Repr

/-- Where the thread of control of a process is: its place, and the place in the interrupt that came
there. -/
structure Pos (ι Λ : Type) where
  pc : Pc ι Λ
  intr : Option (Intr ι)
  deriving DecidableEq, Repr

/-- The places of `scheduler`. -/
inductive SPc (ι : Type) where
  /-- `sti()`, up to `acquire(&ptable.lock)` -/
  | idle
  /-- `p->state != RUNNABLE`, for the slot `j`, or the end of the loop. -/
  | scan (j : Nat)
  /-- `switchuvm(p)`, after `proc = p` -/
  | load (i : ι)
  /-- `p->state = RUNNING` -/
  | mark (i : ι)
  /-- `swtch(&cpu->scheduler, proc->context)` -/
  | enter (i : ι)
  /-- Inside `swtch`, while the process runs. -/
  | ran (i : ι)
  /-- `switchkvm()` -/
  | unload (i : ι)
  /-- `proc = 0` -/
  | clear (i : ι)
  deriving DecidableEq, Repr

/-! ## The machine -/

/-- One life of a slot: the slot, and how many processes it has held. -/
abbrev Life (n : Nat) := Fin n × Nat

/-- `struct proc` -/
structure Proc (n : Nat) (Λ : Type) where
  state : ProcState
  pid : Int32
  parent : Option (Fin n)
  chan : Option (Chan (Fin n))
  killed : Bool
  /-- `p->context` and the stack under it: where the process is. -/
  pos : Pos (Fin n) Λ
  /-- How many processes the slot has held. -/
  inc : Nat
  /-- Who forked it. -/
  sire : Option (Life n)

/-- `struct cpu`, with the stack it runs on and its page table. -/
structure Cpu (n : Nat) where
  /-- `cpu->ncli`: how many locks it holds. -/
  ncli : Nat
  proc : Option (Fin n)
  /-- The process whose kernel stack it runs on; `none` is the scheduler's. -/
  on : Option (Fin n)
  /-- The process whose page directory is loaded; `none` is `kpgdir`. -/
  cr3 : Option (Fin n)
  /-- `cpu->scheduler`: where its scheduler is. -/
  spc : SPc (Fin n)
  /-- The place in an interrupt that came while the scheduler ran. -/
  intr : Option (Code (Fin n))

/-- A process that has exited, and who forked it. -/
structure Exit (n : Nat) where
  who : Life n
  sire : Option (Life n)
  deriving DecidableEq

/-- A process that a `wait` has returned, who forked it, and who called `wait`. -/
structure Reap (n : Nat) where
  who : Life n
  sire : Option (Life n)
  reaper : Life n
  deriving DecidableEq

/-- The machine: `n` slots, the CPUs `κ`, and the locks `Λ` beside `ptable.lock`. -/
structure Mach (n : Nat) (κ Λ : Type) where
  proc : Fin n → Proc n Λ
  cpu : κ → Cpu n
  /-- The CPU that holds `ptable.lock`. -/
  lock : Option κ
  /-- The CPUs that hold the other locks. -/
  held : Λ → Option κ
  nextpid : Int32
  /-- `initproc` -/
  init : Fin n
  exits : List (Exit n)
  /-- Who was returned by a `wait`. -/
  reaps : List (Reap n)

/-- The effect of a statement on what the threads share. -/
inductive Effect (n : Nat) (Λ : Type) where
  | nop
  /-- Interrupts are on. -/
  | enabled
  /-- `acquire(&ptable.lock)` -/
  | lock
  /-- `release(&ptable.lock)` -/
  | unlock
  /-- `acquire(lk)` -/
  | lockOther (l : Λ)
  /-- `release(lk)` -/
  | unlockOther (l : Λ)
  | wakeup1 (ch : Chan (Fin n))
  /-- The loop of `kill` -/
  | kill (pid : Int32)
  /-- `p->state = EMBRYO; p->pid = nextpid++` -/
  | alloc (np : Fin n)
  /-- `np->state = UNUSED` -/
  | unalloc (np : Fin n)
  /-- `np->parent = proc` -/
  | adopt (me np : Fin n)
  /-- `np->state = RUNNABLE` -/
  | ready (np : Fin n)
  /-- `proc->chan = chan; proc->state = SLEEPING` -/
  | fall (me : Fin n) (ch : Chan (Fin n))
  /-- `proc->chan = 0` -/
  | tidy (me : Fin n)
  /-- `proc->state = RUNNABLE` -/
  | giveup (me : Fin n)
  /-- The end of `exit` -/
  | exit (me : Fin n)
  /-- `wait` frees the slot of a dead child. -/
  | reap (me q : Fin n)
  /-- `proc->killed = 1` -/
  | fault (me : Fin n)
  | sched (me : Fin n)
  /-- `proc = p` -/
  | setproc (i : Fin n)
  /-- `switchuvm(p)` -/
  | load (i : Fin n)
  /-- `p->state = RUNNING` -/
  | run (i : Fin n)
  /-- `swtch` to a process -/
  | enter (i : Fin n)
  /-- `switchkvm()` -/
  | unload
  /-- `proc = 0` -/
  | clear

/-- What code that may do several things does next. -/
inductive Act (n : Nat) (Λ : Type) where
  /-- The next statement. -/
  | go
  | syscall
  /-- The end of one. -/
  | ret
  /-- A trap that kills the process. -/
  | fault
  | intr
  /-- The end of one. -/
  | iret
  /-- The end of a timer interrupt. -/
  | tick
  | acquire (l : Λ)
  | release (l : Λ)
  | wakeup (ch : Chan (Fin n))
  | sleep (ch : Chan (Fin n)) (l : Λ)
  | kill (pid : Int32)
  | fork
  /-- There is no memory for `fork`. -/
  | nomem
  | exit
  | wait
  deriving DecidableEq

/-- What a process reads of the table. -/
structure View (n : Nat) where
  /-- `proc` -/
  me : Fin n
  killed : Bool
  /-- `proc->state == RUNNING` -/
  running : Bool
  /-- `proc == initproc` -/
  isInit : Bool
  unused : Option (Fin n)
  /-- The first child that is a `ZOMBIE`. -/
  zombie : Option (Fin n)
  pid : Int32
  /-- `havekids` -/
  kids : Bool

section
variable {n : Nat} {κ Λ : Type}

/-! ## The code -/

/-- Kernel code outside of `proc.c`. -/
def Code.next (a : Act n Λ) : Code (Fin n) → Option (Effect n Λ × Code (Fin n))
  | .body =>
    match a with
    | .acquire l => some (.lockOther l, .body)
    | .release l => some (.unlockOther l, .body)
    | .wakeup ch => some (.nop, .acquire ch)
    | _ => none
  | .acquire ch => some (.lock, .wakeup1 ch)
  | .wakeup1 ch => some (.wakeup1 ch, .release)
  | .release => some (.unlock, .body)

/-- `sleep` -/
def SleepPc.next (me : Fin n) (dying : Bool) (ch : Chan (Fin n)) (lk : Λ) :
    SleepPc → Effect n Λ × Pc (Fin n) Λ
  | .acquire => (.lock, .sleep dying ch lk .release)
  | .release => (.unlockOther lk, .sleep dying ch lk .fall)
  | .fall => (.fall me ch, .sleep dying ch lk .sched)
  | .sched => (.sched me, .sleep dying ch lk .tidy)
  | .tidy => (.tidy me, .sleep dying ch lk .unlock)
  | .unlock => (.unlock, .sleep dying ch lk .relock)
  | .relock => (.lockOther lk, .kern dying .body)

/-- `kill` -/
def KillPc.next (pid : Int32) : KillPc → Effect n Λ × Pc (Fin n) Λ
  | .acquire => (.lock, .kill pid .mark)
  | .mark => (.kill pid, .kill pid .release)
  | .release => (.unlock, .kern false .body)

/-- `fork` and `allocproc` -/
def ForkPc.next (v : View n) (a : Act n Λ) : ForkPc (Fin n) → Effect n Λ × Pc (Fin n) Λ
  | .acquire => (.lock, .fork .alloc)
  | .alloc =>
    match v.unused with
    | none => (.nop, .fork (.release none))
    | some np => (.alloc np, .fork (.release (some np)))
  | .release none => (.unlock, .kern false .body)
  | .release (some np) => (.unlock, .fork (.mem np))
  | .mem np =>
    match a with
    | .nomem => (.unalloc np, .kern false .body)
    | _ => (.adopt v.me np, .fork (.ready np))
  | .ready np => (.ready np, .kern false .body)

/-- `exit` -/
def ExitPc.next (me : Fin n) : ExitPc → Option (Effect n Λ × Pc (Fin n) Λ)
  | .acquire => some (.lock, .exit .body)
  | .body => some (.exit me, .exit .sched)
  | .sched => some (.sched me, .exit .dead)
  | .dead => none

/-- `wait` -/
def WaitPc.next (v : View n) : WaitPc → Effect n Λ × Pc (Fin n) Λ
  | .acquire => (.lock, .wait .scan)
  | .scan =>
    match v.zombie with
    | some q => (.reap v.me q, .wait (.release (some v.pid)))
    | none =>
      if !v.kids || v.killed then (.nop, .wait (.release none)) else (.nop, .wait .fall)
  | .release _ => (.unlock, .kern false .body)
  | .fall => (.fall v.me (.proc v.me), .wait .sched)
  | .sched => (.sched v.me, .wait .tidy)
  | .tidy => (.tidy v.me, .wait .scan)

/-- `trap` lets a process that was killed go no further than `exit`, which `initproc` must not
call. -/
def View.leave (v : View n) (pc : Pc (Fin n) Λ) : Option (Pc (Fin n) Λ) :=
  if v.killed then (if v.isInit then none else some (.kern true .body)) else some pc

/-- The next statement of a process that is in no interrupt. -/
def Pc.next (v : View n) (a : Act n Λ) :
    Pc (Fin n) Λ → Option (Effect n Λ × Pc (Fin n) Λ)
  | .forkret => some (.unlock, if v.isInit then .kern false .body else .user)
  | .user =>
    match a with
    | .syscall => (v.leave (.kern false .body)).map fun pc => (.nop, pc)
    | .fault => if v.isInit then none else some (.fault v.me, .kern true .body)
    | _ => none
  | .kern dying .body =>
    match a, dying with
    | .sleep ch l, _ => some (.nop, .sleep dying ch l .acquire)
    | .ret, false => (v.leave .user).map fun pc => (.nop, pc)
    | .kill pid, false => some (.nop, .kill pid .acquire)
    | .fork, false => some (.nop, .fork .acquire)
    | .wait, false => some (.nop, .wait .acquire)
    | .exit, false => if v.isInit then none else some (.nop, .kern true .body)
    | .go, true => some (.nop, .exit .acquire)
    | a, _ => (Code.next a .body).map fun r => (r.1, .kern dying r.2)
  | .kern dying k => (Code.next a k).map fun r => (r.1, .kern dying r.2)
  | .sleep dying ch lk l => some (l.next v.me dying ch lk)
  | .kill pid l => some (l.next pid)
  | .fork l => some (l.next v a)
  | .exit l => l.next v.me
  | .wait l => some (l.next v)

/-- A process that was killed goes no further than the end of an interrupt in user mode. -/
def Pc.dies (v : View n) : Pc (Fin n) Λ → Bool
  | .user => v.killed
  | _ => false

/-- The end of `trap` for an interrupt. -/
def Pc.iret (v : View n) : Pc (Fin n) Λ → Option (Pc (Fin n) Λ)
  | .user => v.leave .user
  | pc => some pc

/-- The next statement of a process. -/
def Pos.next (v : View n) (a : Act n Λ) (t : Pos (Fin n) Λ) :
    Option (Effect n Λ × Pos (Fin n) Λ) :=
  match t.intr with
  | none =>
    match a with
    | .intr => some (.enabled, ⟨t.pc, some (.code .body)⟩)
    | a => (t.pc.next v a).map fun r => (r.1, ⟨r.2, none⟩)
  | some (.code .body) =>
    match a with
    | .iret => (t.pc.iret v).map fun pc => (.enabled, ⟨pc, none⟩)
    | .tick =>
      if t.pc.dies v || !v.running then (t.pc.iret v).map fun pc => (.enabled, ⟨pc, none⟩)
      else some (.enabled, ⟨t.pc, some (.yield .acquire)⟩)
    | a => (Code.next a .body).map fun r => (r.1, ⟨t.pc, some (.code r.2)⟩)
  | some (.code k) => (Code.next a k).map fun r => (r.1, ⟨t.pc, some (.code r.2)⟩)
  | some (.yield .acquire) => some (.lock, ⟨t.pc, some (.yield .set)⟩)
  | some (.yield .set) => some (.giveup v.me, ⟨t.pc, some (.yield .sched)⟩)
  | some (.yield .sched) => some (.sched v.me, ⟨t.pc, some (.yield .release)⟩)
  | some (.yield .release) => (t.pc.iret v).map fun pc => (.unlock, ⟨pc, none⟩)

/-- The next statement of a scheduler; `runnable` tests a slot. -/
def SPc.next (runnable : Fin n → Bool) (a : Act n Λ) (k : Option (Code (Fin n))) :
    SPc (Fin n) → Option (Effect n Λ × SPc (Fin n) × Option (Code (Fin n)))
  | .idle =>
    match k, a with
    | none, .go => some (.lock, .scan 0, none)
    | none, .intr => some (.enabled, .idle, some .body)
    | none, _ => none
    | some .body, .iret => some (.enabled, .idle, none)
    | some k, a => (Code.next a k).map fun r => (r.1, .idle, some r.2)
  | .scan j =>
    if h : j < n then
      if runnable ⟨j, h⟩ then some (.setproc ⟨j, h⟩, .load ⟨j, h⟩, none)
      else some (.nop, .scan (j + 1), none)
    else some (.unlock, .idle, none)
  | .load i => some (.load i, .mark i, none)
  | .mark i => some (.run i, .enter i, none)
  | .enter i => some (.enter i, .ran i, none)
  | .ran _ => none
  | .unload i => some (.unload, .clear i, none)
  | .clear i => some (.clear, .scan (i + 1), none)

/-! ## What the statements do -/

/-- The machine with one slot changed. -/
def Mach.setProc (m : Mach n κ Λ) (i : Fin n) (f : Proc n Λ → Proc n Λ) : Mach n κ Λ :=
  { m with proc := fun j => if j = i then f (m.proc j) else m.proc j }

section
variable {m : Mach n κ Λ} {p q : Fin n}

@[simp] theorem Mach.setProc_proc (f : Proc n Λ → Proc n Λ) :
    (m.setProc p f).proc q = if q = p then f (m.proc q) else m.proc q := rfl
@[simp] theorem Mach.setProc_cpu (f : Proc n Λ → Proc n Λ) : (m.setProc p f).cpu = m.cpu := rfl
@[simp] theorem Mach.setProc_lock (f : Proc n Λ → Proc n Λ) : (m.setProc p f).lock = m.lock := rfl
@[simp] theorem Mach.setProc_held (f : Proc n Λ → Proc n Λ) : (m.setProc p f).held = m.held := rfl

end

/-- The slot with another state. -/
def Proc.setState (s : ProcState) (p : Proc n Λ) : Proc n Λ := { p with state := s }

/-- The machine with one CPU changed. -/
def Mach.setCpu [DecidableEq κ] (m : Mach n κ Λ) (c : κ) (f : Cpu n → Cpu n) : Mach n κ Λ :=
  { m with cpu := fun d => if d = c then f (m.cpu d) else m.cpu d }

section
variable [DecidableEq κ] {m : Mach n κ Λ} {c d : κ}

@[simp] theorem Mach.setCpu_cpu (f : Cpu n → Cpu n) :
    (m.setCpu c f).cpu d = if d = c then f (m.cpu d) else m.cpu d := rfl
@[simp] theorem Mach.setCpu_proc (f : Cpu n → Cpu n) : (m.setCpu c f).proc = m.proc := rfl
@[simp] theorem Mach.setCpu_lock (f : Cpu n → Cpu n) : (m.setCpu c f).lock = m.lock := rfl
@[simp] theorem Mach.setCpu_held (f : Cpu n → Cpu n) : (m.setCpu c f).held = m.held := rfl

end

/-- The loop of `wakeup1`, for one slot. -/
def Proc.wake (ch : Option (Chan (Fin n))) (p : Proc n Λ) : Proc n Λ :=
  if p.state = .SLEEPING ∧ p.chan = ch then p.setState .RUNNABLE else p

/-- `wakeup1` -/
def Mach.wakeup1 (m : Mach n κ Λ) (ch : Option (Chan (Fin n))) : Mach n κ Λ :=
  { m with proc := fun i => (m.proc i).wake ch }

/-- What `kill` does to the process it finds. -/
def Proc.kill (p : Proc n Λ) : Proc n Λ :=
  { p with killed := true, state := if p.state = .SLEEPING then .RUNNABLE else p.state }

/-- The loop of `kill` -/
def Mach.kill (m : Mach n κ Λ) (pid : Int32) : Mach n κ Λ :=
  match (List.finRange n).find? fun i => (m.proc i).pid = pid with
  | none => m
  | some i => m.setProc i Proc.kill

/-- `kill` changes one slot, if it finds the process. -/
theorem Mach.kill_cases (m : Mach n κ Λ) (pid : Int32) :
    m.kill pid = m ∨ ∃ i, (m.proc i).pid = pid ∧ m.kill pid = m.setProc i Proc.kill := by
  unfold Mach.kill
  split
  · exact .inl rfl
  case h_2 i hi => grind

/-- The slot `allocproc` has found. -/
def Mach.alloc (m : Mach n κ Λ) (np : Fin n) : Mach n κ Λ :=
  { m.setProc np fun p =>
      { p with state := .EMBRYO, pid := m.nextpid, pos := ⟨.forkret, none⟩, inc := p.inc + 1,
               sire := none }
    with nextpid := m.nextpid + 1 }

/-- The life a slot is in. -/
def Mach.life (m : Mach n κ Λ) (i : Fin n) : Life n := (i, (m.proc i).inc)

/-- The loop of `exit`, for one slot: an abandoned child goes to `initproc`. -/
def Mach.abandon (me : Fin n) (m : Mach n κ Λ) (i : Fin n) : Mach n κ Λ :=
  if (m.proc i).parent = some me then
    let m := m.setProc i fun p => { p with parent := some m.init }
    if (m.proc i).state = .ZOMBIE then m.wakeup1 (some (.proc m.init)) else m
  else m

/-- `exit`, from the wakeup of the parent to `proc->state = ZOMBIE`. -/
def Mach.exit (m : Mach n κ Λ) (me : Fin n) : Mach n κ Λ :=
  let m := m.wakeup1 ((m.proc me).parent.map .proc)
  let m := (List.finRange n).foldl (Mach.abandon me) m
  { m.setProc me (Proc.setState .ZOMBIE) with
    exits := ⟨m.life me, (m.proc me).sire⟩ :: m.exits }

/-- What `wakeup1` does to a slot, as one record. -/
theorem Proc.wake_state (p : Proc n Λ) (ch : Option (Chan (Fin n))) : p.wake ch = { p with
      state := if p.state = .SLEEPING ∧ p.chan = ch then .RUNNABLE else p.state } := by
  unfold Proc.wake Proc.setState
  split <;> rfl

/-- One round of the loop of `exit`, as one record. -/
theorem Mach.abandon_eq (m : Mach n κ Λ) (me i : Fin n) : m.abandon me i = { m with
      proc := fun j => { m.proc j with
        parent := if j = i ∧ (m.proc j).parent = some me then some m.init else (m.proc j).parent
        state := if ((m.proc i).parent = some me ∧ (m.proc i).state = .ZOMBIE) ∧
            (m.proc j).state = .SLEEPING ∧ (m.proc j).chan = some (.proc m.init) then .RUNNABLE
          else (m.proc j).state } } := by
  unfold Mach.abandon
  by_cases h : (m.proc i).parent = some me
  · by_cases hz : (m.proc i).state = .ZOMBIE
    · simp only [h, hz, Mach.setProc, Mach.wakeup1, if_true, true_and]
      congr 1
      funext j
      by_cases hj : j = i
      · subst hj
        simp [h, hz, Proc.wake_state]
      · simp [hj, Proc.wake_state]
    · simp only [h, hz, Mach.setProc, if_true, and_false, false_and, if_false]
      congr 1
      funext j
      by_cases hj : j = i
      · subst hj
        simp [h]
      · simp [hj]
  · have hp : ∀ j, ¬ (j = i ∧ (m.proc j).parent = some me) := fun j hj => h (hj.1 ▸ hj.2)
    simp only [h, hp, if_false, false_and]

/-- The loop of `exit`, as one record: what it wakes does not change which children are dead. -/
theorem Mach.foldl_abandon (me : Fin n) (l : List (Fin n)) (hl : l.Nodup) (m : Mach n κ Λ) :
    l.foldl (Mach.abandon me) m = { m with
      proc := fun j => { m.proc j with
        parent := if j ∈ l ∧ (m.proc j).parent = some me then some m.init else (m.proc j).parent
        state := if (∃ i ∈ l, (m.proc i).parent = some me ∧ (m.proc i).state = .ZOMBIE) ∧
            (m.proc j).state = .SLEEPING ∧ (m.proc j).chan = some (.proc m.init) then .RUNNABLE
          else (m.proc j).state } } := by
  induction l generalizing m with
  | nil => simp
  | cons i l ih =>
    obtain ⟨hi, hl⟩ := List.nodup_cons.1 hl
    rw [List.foldl_cons, ih hl, Mach.abandon_eq]
    congr 1
    funext j
    have hz : (∃ k ∈ l, (if k = i ∧ (m.proc k).parent = some me then some m.init
          else (m.proc k).parent) = some me ∧
          (if ((m.proc i).parent = some me ∧ (m.proc i).state = .ZOMBIE) ∧
            (m.proc k).state = .SLEEPING ∧ (m.proc k).chan = some (.proc m.init) then .RUNNABLE
            else (m.proc k).state) = ProcState.ZOMBIE) ↔
        ∃ k ∈ l, (m.proc k).parent = some me ∧ (m.proc k).state = .ZOMBIE := by
      refine exists_congr fun k => and_congr_right fun hk => ?_
      have hki : k ≠ i := fun h => hi (h ▸ hk)
      simp only [hki, false_and, if_false]
      refine and_congr_right fun _ => ?_
      by_cases hs : (m.proc k).state = .SLEEPING <;> simp [hs]
      split <;> simp
    simp only [hz]
    congr 1
    · by_cases hw : ((m.proc i).parent = some me ∧ (m.proc i).state = .ZOMBIE) <;>
        by_cases hs : (m.proc j).state = .SLEEPING <;>
        by_cases hch : (m.proc j).chan = some (.proc m.init) <;>
        simp [hw, hs, hch]
    · grind

/-- The state `exit` leaves in a slot: its own is a `ZOMBIE`, and whoever waits for it, or for a
dead child of it, is woken. -/
def Mach.exitState (m : Mach n κ Λ) (me i : Fin n) : ProcState :=
  if i = me then .ZOMBIE
  else if (m.proc i).state = .SLEEPING ∧ ((m.proc i).chan = (m.proc me).parent.map .proc ∨
      (∃ j, (m.proc j).parent = some me ∧ (m.proc j).state = .ZOMBIE) ∧
        (m.proc i).chan = some (.proc m.init)) then .RUNNABLE
  else (m.proc i).state

/-- **What `exit` does**, with its loop over the table. -/
theorem Mach.exit_eq (m : Mach n κ Λ) (me : Fin n) : m.exit me = { m with
      proc := fun i => { m.proc i with
        parent := if (m.proc i).parent = some me then some m.init else (m.proc i).parent
        state := m.exitState me i }
      exits := ⟨m.life me, (m.proc me).sire⟩ :: m.exits } := by
  have hz : (∃ j, (m.proc j).parent = some me ∧
      (if (m.proc j).state = .SLEEPING ∧ (m.proc j).chan = (m.proc me).parent.map .proc
        then .RUNNABLE else (m.proc j).state) = ProcState.ZOMBIE) ↔
      ∃ j, (m.proc j).parent = some me ∧ (m.proc j).state = .ZOMBIE := by
    refine exists_congr fun j => and_congr_right fun _ => ?_
    by_cases hs : (m.proc j).state = .SLEEPING <;> simp [hs]
    split <;> simp
  simp only [Mach.exit, Mach.foldl_abandon me _ (List.nodup_finRange n), Mach.wakeup1,
    Proc.wake_state, Mach.setProc, List.mem_finRange, true_and, Mach.life, hz]
  congr 1
  funext i
  unfold Mach.exitState
  by_cases hi : i = me
  · subst hi
    simp [Proc.setState]
  · simp only [hi, if_false]
    congr 1
    by_cases hs : (m.proc i).state = .SLEEPING <;>
      by_cases hc : (m.proc i).chan = (m.proc me).parent.map .proc <;> simp [hs, hc]

/-- `wait` frees the slot of a dead child. -/
def Mach.reap (m : Mach n κ Λ) (me q : Fin n) : Mach n κ Λ :=
  { m.setProc q fun p =>
      { p with state := .UNUSED, pid := 0, parent := none, killed := false }
    with reaps := ⟨m.life q, (m.proc q).sire, m.life me⟩ :: m.reaps }

/-- The child `wait` finds: the first that is a `ZOMBIE`. -/
def Mach.zombie (m : Mach n κ Λ) (me : Fin n) : Option (Fin n) :=
  (List.finRange n).find? fun i => (m.proc i).parent = some me ∧ (m.proc i).state = .ZOMBIE

/-- What a process reads of the table. -/
def Mach.view (m : Mach n κ Λ) (me : Fin n) : View n where
  me := me
  killed := (m.proc me).killed
  running := (m.proc me).state = .RUNNING
  isInit := me = m.init
  unused := (List.finRange n).find? fun i => (m.proc i).state = .UNUSED
  zombie := m.zombie me
  pid := ((m.zombie me).map fun q => (m.proc q).pid).getD 0
  kids := (List.finRange n).any fun i => (m.proc i).parent = some me

variable [DecidableEq κ] [DecidableEq Λ]

/-- What a statement does on the CPU `c`. -/
def Mach.apply (m : Mach n κ Λ) (c : κ) : Effect n Λ → Option (Mach n κ Λ)
  | .nop => some m
  | .enabled => if (m.cpu c).ncli = 0 then some m else none
  | .lock =>
    if m.lock = none then
      some { m.setCpu c fun k => { k with ncli := k.ncli + 1 } with lock := some c }
    else none
  | .unlock =>
    if m.lock = some c then
      some { m.setCpu c fun k => { k with ncli := k.ncli - 1 } with lock := none }
    else none
  | .lockOther l =>
    if m.held l = none then
      some { m.setCpu c fun k => { k with ncli := k.ncli + 1 }
        with held := fun l' => if l' = l then some c else m.held l' }
    else none
  | .unlockOther l =>
    if m.held l = some c then
      some { m.setCpu c fun k => { k with ncli := k.ncli - 1 }
        with held := fun l' => if l' = l then none else m.held l' }
    else none
  | .wakeup1 ch => some (m.wakeup1 (some ch))
  | .kill pid => some (m.kill pid)
  | .alloc np => some (m.alloc np)
  | .unalloc np => some (m.setProc np (Proc.setState .UNUSED))
  | .adopt me np =>
    some (m.setProc np fun p => { p with parent := some me, sire := some (m.life me) })
  | .ready np => some (m.setProc np (Proc.setState .RUNNABLE))
  | .fall me ch => some (m.setProc me fun p => { p with chan := some ch, state := .SLEEPING })
  | .tidy me => some (m.setProc me fun p => { p with chan := none })
  | .giveup me => some (m.setProc me (Proc.setState .RUNNABLE))
  | .exit me => some (m.exit me)
  | .reap me q => some (m.reap me q)
  | .fault me => some (m.setProc me fun p => { p with killed := true })
  | .sched me =>
    match (m.cpu c).spc with
    | .ran i =>
      if m.lock = some c ∧ (m.cpu c).ncli = 1 ∧ (m.proc me).state ≠ .RUNNING then
        some (m.setCpu c fun k => { k with on := none, spc := .unload i })
      else none
    | _ => none
  | .setproc i => some (m.setCpu c fun k => { k with proc := some i })
  | .load i => some (m.setCpu c fun k => { k with cr3 := some i })
  | .run i => some (m.setProc i (Proc.setState .RUNNING))
  | .enter i => some (m.setCpu c fun k => { k with on := some i })
  | .unload => some (m.setCpu c fun k => { k with cr3 := none })
  | .clear => some (m.setCpu c fun k => { k with proc := none })

/-- A process goes to another place. -/
def Mach.goto (m : Mach n κ Λ) (p : Fin n) (t : Pos (Fin n) Λ) : Mach n κ Λ :=
  m.setProc p fun q => { q with pos := t }

section
variable {m : Mach n κ Λ} {p q : Fin n} {t : Pos (Fin n) Λ}

omit [DecidableEq κ] [DecidableEq Λ]

@[simp] theorem Mach.goto_self : (m.goto p t).proc p = { m.proc p with pos := t } := if_pos rfl
@[simp] theorem Mach.goto_cpu : (m.goto p t).cpu = m.cpu := rfl
@[simp] theorem Mach.goto_lock : (m.goto p t).lock = m.lock := rfl
@[simp] theorem Mach.goto_held : (m.goto p t).held = m.held := rfl
@[simp] theorem Mach.goto_init : (m.goto p t).init = m.init := rfl

theorem Mach.goto_other (h : q ≠ p) : (m.goto p t).proc q = m.proc q := if_neg h

/-- A process that goes to another place is otherwise as it was. -/
theorem Mach.goto_proc :
    (m.goto p t).proc q = { m.proc q with pos := if q = p then t else (m.proc q).pos } := by
  unfold Mach.goto Mach.setProc
  dsimp only
  split <;> rfl

@[simp] theorem Mach.goto_state : ((m.goto p t).proc q).state = (m.proc q).state := by
  rw [Mach.goto_proc]
@[simp] theorem Mach.goto_pid : ((m.goto p t).proc q).pid = (m.proc q).pid := by
  rw [Mach.goto_proc]
@[simp] theorem Mach.goto_parent : ((m.goto p t).proc q).parent = (m.proc q).parent := by
  rw [Mach.goto_proc]
@[simp] theorem Mach.goto_chan : ((m.goto p t).proc q).chan = (m.proc q).chan := by
  rw [Mach.goto_proc]
@[simp] theorem Mach.goto_inc : ((m.goto p t).proc q).inc = (m.proc q).inc := by
  rw [Mach.goto_proc]
@[simp] theorem Mach.goto_sire : ((m.goto p t).proc q).sire = (m.proc q).sire := by
  rw [Mach.goto_proc]

end

/-- A scheduler goes to another place. -/
def Mach.gotoSched (m : Mach n κ Λ) (c : κ) (r : SPc (Fin n) × Option (Code (Fin n))) :
    Mach n κ Λ :=
  m.setCpu c fun k => { k with spc := r.1, intr := r.2 }

/-- The next statement of the CPU `x.1`: of the process whose stack it is on, which knows itself as
`proc`, or of its scheduler. There is its effect, and the machine with the thread at the place after
it. -/
def Mach.next (m : Mach n κ Λ) (x : κ × Act n Λ) : Option (Effect n Λ × Mach n κ Λ) :=
  let k := m.cpu x.1
  match k.on with
  | some p => do
    let me ← k.proc
    let r ← (m.proc p).pos.next (m.view me) x.2
    return (r.1, m.goto p r.2)
  | none => do
    let r ← k.spc.next (fun i => (m.proc i).state = .RUNNABLE) x.2 k.intr
    return (r.1, m.gotoSched x.1 r.2)

/-- What the next statement does. -/
def Mach.effect (m : Mach n κ Λ) (x : κ × Act n Λ) : Option (Effect n Λ) := (m.next x).map Prod.fst

/-- One step. -/
def Mach.step (m : Mach n κ Λ) (x : κ × Act n Λ) : Option (Mach n κ Λ) := do
  let r ← m.next x
  r.2.apply x.1 r.1

end

/-! ## The system -/

/-- A slot nobody has used. -/
def Proc.empty {n : Nat} {Λ : Type} : Proc n Λ where
  state := .UNUSED
  pid := 0
  parent := none
  chan := none
  killed := false
  pos := ⟨.exit .dead, none⟩
  inc := 0
  sire := none

/-- `main`, up to the schedulers: there is one process, which `userinit` has made. -/
def Mach.boot {n : Nat} (κ Λ : Type) (init : Fin n) : Mach n κ Λ where
  proc i :=
    if i = init then
      { (Proc.empty : Proc n Λ) with
        state := .RUNNABLE, pid := 1, pos := ⟨.forkret, none⟩, inc := 1 }
    else Proc.empty
  cpu _ := { ncli := 0, proc := none, on := none, cr3 := none, spc := .idle, intr := none }
  lock := none
  held _ := none
  nextpid := 2
  init := init
  exits := []
  reaps := []

/-- The processes and the CPUs. -/
def sys (n : Nat) (κ Λ : Type) [DecidableEq κ] [DecidableEq Λ] :
    Lib.Lts (Mach n κ Λ) (κ × Act n Λ) where
  init m := ∃ init, m = Mach.boot κ Λ init
  step := Mach.step

end Dixv6.Sched
