import Mathlib.Logic.Function.Basic
import Mathlib.Tactic.Simps.Basic

/-!
# Pipes

`pipe.c` with the parts of `proc.c` and `file.c` it rests on: `sleep`, `wakeup` and `kill`, the
reference counts of the two files of a pipe, and the order in which processes take `p->lock` and
`ptable.lock`. There is one pipe and any number of processes, each at a program point (`Pc`) of
`pipewrite`, `piperead` or `pipeclose`, or in user space.

`next` is the code: from the program point, what the process reads of the pipe and its `killed`
flag, it gives the effect of the next statement on what the processes share and the program point
after it. `apply` gives the effects their meaning, and `step` is one step of any process. The
history of the pipe (`stored`, `delivered`, `returned`) is kept beside it and read by nobody.
-/

namespace Dixv6.Pipes

open Function

/-- Size of the ring (`pipe.c`). -/
abbrev PIPESIZE : Nat := 512

/-- `struct pipe`, its lock apart. -/
structure Pipe where
  /-- The ring. -/
  data : Nat → UInt8
  /-- Number of bytes read, modulo `2^32`. -/
  nread : UInt32
  /-- Number of bytes written, modulo `2^32`. -/
  nwrite : UInt32
  readopen : Bool
  writeopen : Bool

/-- `p->nwrite == p->nread + PIPESIZE` -/
def Pipe.full (p : Pipe) : Bool := p.nwrite == p.nread + 512

/-- `p->nread == p->nwrite` -/
def Pipe.empty (p : Pipe) : Bool := p.nread == p.nwrite

/-- `p->data[p->nwrite++ % PIPESIZE] = b` -/
def Pipe.put (p : Pipe) (b : UInt8) : Pipe :=
  { p with data := update p.data (p.nwrite.toNat % PIPESIZE) b, nwrite := p.nwrite + 1 }

/-- `p->data[p->nread % PIPESIZE]` -/
def Pipe.front (p : Pipe) : UInt8 := p.data (p.nread.toNat % PIPESIZE)

/-- `p->nread++` -/
def Pipe.take (p : Pipe) : Pipe := { p with nread := p.nread + 1 }

/-- An end of the pipe is still open: the write end if `w`, the read end otherwise. -/
def Pipe.isOpen (p : Pipe) (w : Bool) : Bool := if w then p.writeopen else p.readopen

/-- The store of `pipeclose`: the end `w` is closed. -/
def Pipe.shut (p : Pipe) (w : Bool) : Pipe :=
  if w then { p with writeopen := false } else { p with readopen := false }

theorem Pipe.isOpen_shut (p : Pipe) (v w : Bool) :
    (p.shut v).isOpen w = if w = v then false else p.isOpen w := by
  cases v <;> cases w <;> rfl

/-- The two channels processes sleep on, named after the fields whose addresses they are. -/
inductive Chan where
  | nread
  | nwrite
  deriving DecidableEq, Repr

/-- The channel `pipeclose` wakes when it closes an end. -/
def Chan.ofEnd (w : Bool) : Chan := if w then .nread else .nwrite

/-- A call of `pipewrite(p, addr, n)`; `id` tells the calls of a run apart. -/
structure WCall where
  /-- The number of the call in the run. -/
  id : Nat
  /-- The caller's buffer. -/
  addr : Nat → UInt8
  n : Int

/-- The bytes a call of `pipewrite` is asked to write. -/
def WCall.bytes (c : WCall) : List UInt8 := (List.range c.n.toNat).map c.addr

/-- The program points of `pipewrite`; `i` is the loop variable. -/
inductive WPc where
  | acquire
  /-- `i < n` -/
  | forTest (i : Nat)
  /-- `p->nwrite == p->nread + PIPESIZE`, and the store when it is false -/
  | whileTest (i : Nat)
  /-- `p->readopen == 0 || proc->killed` -/
  | check (i : Nat)
  /-- `wakeup(&p->nread)` inside the loop -/
  | wake (i : Nat)
  /-- `sleep`: takes `ptable.lock` and releases `p->lock` -/
  | sleep (i : Nat)
  /-- `sleep`: sets `SLEEPING` and gives `ptable.lock` to the scheduler -/
  | fall (i : Nat)
  /-- `SLEEPING` on `&p->nwrite` -/
  | asleep (i : Nat)
  /-- `RUNNABLE` again, at the end of `sleep`: `acquire(lk)` -/
  | reacquire (i : Nat)
  /-- `wakeup(&p->nread)` after the loop -/
  | wakeLast
  /-- `release(&p->lock); return n` -/
  | release
  deriving DecidableEq, Repr

/-- The program points of `piperead`; `i` is the loop variable. -/
inductive RPc where
  | acquire
  /-- `p->nread == p->nwrite && p->writeopen` -/
  | whileTest
  /-- `proc->killed` -/
  | check
  /-- `sleep`: takes `ptable.lock` and releases `p->lock` -/
  | sleep
  /-- `sleep`: sets `SLEEPING` and gives `ptable.lock` to the scheduler -/
  | fall
  /-- `SLEEPING` on `&p->nread` -/
  | asleep
  /-- `RUNNABLE` again, at the end of `sleep`: `acquire(lk)` -/
  | reacquire
  /-- One turn of the copying loop -/
  | copy (i : Nat)
  /-- `wakeup(&p->nwrite)` -/
  | wake (i : Nat)
  /-- `release(&p->lock); return i` -/
  | release (i : Nat)
  deriving DecidableEq, Repr

/-- The program points of `pipeclose`. -/
inductive CPc where
  | acquire
  /-- `p->writeopen = 0` or `p->readopen = 0` -/
  | shut
  /-- `wakeup` of the other side -/
  | wake
  /-- `p->readopen == 0 && p->writeopen == 0`, with the `release` of either branch -/
  | release
  | kfree
  deriving DecidableEq, Repr

/-- Where a process is. -/
inductive Pc where
  /-- In no call of the pipe. -/
  | user
  | write (c : WCall) (l : WPc)
  | read (n : Int) (l : RPc)
  | close (w : Bool) (l : CPc)

/-- What a call returned. -/
inductive Return where
  /-- A call of `pipewrite` and its value. -/
  | write (c : WCall) (r : Int)
  /-- The count a call of `piperead` was given, and its value. -/
  | read (n : Int) (r : Int)

/-- The effect of a statement on what the processes share. -/
inductive Effect where
  /-- None: a test. -/
  | none
  /-- `acquire(&p->lock)` -/
  | acquire
  /-- `release(&p->lock)`, and the value the call returns after it -/
  | release (r : Option Return)
  | wakeup (ch : Chan)
  /-- The first half of `sleep`: `acquire(&ptable.lock); release(&p->lock)` -/
  | sleep
  /-- The second half of `sleep`: `proc->state = SLEEPING; sched()` -/
  | sched
  /-- A byte is stored for the call `id`. -/
  | put (id : Nat) (b : UInt8)
  /-- A byte is delivered. -/
  | take
  /-- The end `w` is closed. -/
  | shut (w : Bool)
  | kfree

/-- `pipewrite` -/
def WPc.next (p : Pipe) (killed : Bool) (c : WCall) : WPc → Option (Effect × Pc)
  | .acquire => some (.acquire, .write c (.forTest 0))
  | .forTest i =>
    some (.none, if (i : Int) < c.n then .write c (.whileTest i) else .write c .wakeLast)
  | .whileTest i =>
    if p.full then some (.none, .write c (.check i))
    else some (.put c.id (c.addr i), .write c (.forTest (i + 1)))
  | .check i =>
    if !p.readopen || killed then some (.release (some (.write c (-1))), .user)
    else some (.none, .write c (.wake i))
  | .wake i => some (.wakeup .nread, .write c (.sleep i))
  | .sleep i => some (.sleep, .write c (.fall i))
  | .fall i => some (.sched, .write c (.asleep i))
  | .asleep _ => none
  | .reacquire i => some (.acquire, .write c (.whileTest i))
  | .wakeLast => some (.wakeup .nread, .write c .release)
  | .release => some (.release (some (.write c c.n)), .user)

/-- `piperead` -/
def RPc.next (p : Pipe) (killed : Bool) (n : Int) : RPc → Option (Effect × Pc)
  | .acquire => some (.acquire, .read n .whileTest)
  | .whileTest => some (.none, .read n (if p.empty && p.writeopen then .check else .copy 0))
  | .check =>
    if killed then some (.release (some (.read n (-1))), .user)
    else some (.none, .read n .sleep)
  | .sleep => some (.sleep, .read n .fall)
  | .fall => some (.sched, .read n .asleep)
  | .asleep => none
  | .reacquire => some (.acquire, .read n .whileTest)
  | .copy i =>
    if (i : Int) < n ∧ ¬p.empty then some (.take, .read n (.copy (i + 1)))
    else some (.none, .read n (.wake i))
  | .wake i => some (.wakeup .nwrite, .read n (.release i))
  | .release i => some (.release (some (.read n i)), .user)

/-- `pipeclose` -/
def CPc.next (p : Pipe) (w : Bool) : CPc → Option (Effect × Pc)
  | .acquire => some (.acquire, .close w .shut)
  | .shut => some (.shut w, .close w .wake)
  | .wake => some (.wakeup (.ofEnd w), .close w .release)
  | .release =>
    some (.release .none, if !p.readopen && !p.writeopen then .close w .kfree else .user)
  | .kfree => some (.kfree, .user)

/-- The next statement of a process. -/
def Pc.next (p : Pipe) (killed : Bool) : Pc → Option (Effect × Pc)
  | .user => none
  | .write c l => l.next p killed c
  | .read n l => l.next p killed n
  | .close w l => l.next p w

/-- The channel a process is `SLEEPING` on. -/
def Pc.chan : Pc → Option Chan
  | .write _ (.asleep _) => some .nwrite
  | .read _ .asleep => some .nread
  | _ => none

/-- A process that sleeps becomes `RUNNABLE`. -/
def Pc.awake : Pc → Pc
  | .write c (.asleep i) => .write c (.reacquire i)
  | .read n .asleep => .read n .reacquire
  | pc => pc

/-- What the pipe needs of a process. -/
structure Proc where
  pc : Pc
  killed : Bool
  /-- How many of its descriptors name the file of the write end (`true`) or of the read end. -/
  fd : Bool → Nat

/-- The pipe and the processes that use it. -/
structure State (ι : Type) where
  pipe : Pipe
  /-- The holder of `p->lock`. -/
  lock : Option ι
  /-- The process that holds `ptable.lock` inside `sleep`. -/
  ptable : Option ι
  proc : ι → Proc
  /-- `f->ref` of the file of the write end (`true`) and of the read end. -/
  ref : Bool → Nat
  /-- How often the page of the pipe was freed. -/
  freed : Nat
  /-- The bytes stored so far, each with the call that stored it. -/
  stored : List (Nat × UInt8)
  delivered : List UInt8
  /-- The number of calls of `pipewrite` so far. -/
  calls : Nat
  returned : List Return

section
variable {ι : Type} [DecidableEq ι] {s : State ι} {q : ι}

/-- Where the process `q` is. -/
abbrev State.pc (s : State ι) (q : ι) : Pc := (s.proc q).pc

/-- The process `q` is at `pc`. -/
@[simps]
def State.goto (s : State ι) (q : ι) (pc : Pc) : State ι :=
  { s with proc := update s.proc q { s.proc q with pc := pc } }

/-- `wakeup1(chan)` -/
@[simps]
def State.wakeup (s : State ι) (ch : Chan) : State ι :=
  { s with
    proc := fun r =>
      if (s.proc r).pc.chan = some ch then { s.proc r with pc := (s.proc r).pc.awake }
      else s.proc r }

/-- A byte is stored for the call `id`. -/
@[simps]
def State.put (s : State ι) (id : Nat) (b : UInt8) : State ι :=
  { s with pipe := s.pipe.put b, stored := s.stored ++ [(id, b)] }

/-- A byte is delivered. -/
@[simps]
def State.take (s : State ι) : State ι :=
  { s with pipe := s.pipe.take, delivered := s.delivered ++ [s.pipe.front] }

/-- The meaning of an effect, when the process `q` can go through it. -/
def State.apply (s : State ι) (q : ι) : Effect → Option (State ι)
  | .none => some s
  | .acquire => if s.lock = none then some { s with lock := some q } else none
  | .release r => some { s with lock := none, returned := s.returned ++ r.toList }
  | .wakeup ch => if s.ptable = none then some (s.wakeup ch) else none
  | .sleep => if s.ptable = none then some { s with lock := none, ptable := some q } else none
  | .sched => some { s with ptable := none }
  | .put id b => some (s.put id b)
  | .take => some s.take
  | .shut w => some { s with pipe := s.pipe.shut w }
  | .kfree => some { s with freed := s.freed + 1 }

/-- What happens next. -/
inductive Event (ι : Type) where
  /-- A process in the kernel runs its next statement. -/
  | run (q : ι)
  /-- A process calls `write` on a descriptor of the write end. -/
  | write (q : ι) (addr : Nat → UInt8) (n : Int)
  /-- A process calls `read` on a descriptor of the read end. -/
  | read (q : ι) (n : Int)
  /-- A process closes a descriptor of an end, by `close` or in `exit`. -/
  | close (q : ι) (w : Bool)
  | dup (q : ι) (w : Bool)
  /-- A process forks; the child's slot has no descriptors. -/
  | fork (q r : ι)
  | kill (r : ι)
  /-- `wait` reaps a process that has exited, and its slot may be used again. -/
  | reap (r : ι)

/-- `sys_close` and `fileclose`: the descriptor goes, and the last reference calls `pipeclose`. -/
def State.close (s : State ι) (q : ι) (w : Bool) : State ι :=
  { s with
    proc := update s.proc q
      { s.proc q with
        fd := update (s.proc q).fd w ((s.proc q).fd w - 1)
        pc := if s.ref w - 1 > 0 then .user else .close w .acquire }
    ref := update s.ref w (s.ref w - 1) }

/-- `sys_dup` and `filedup` -/
@[simps]
def State.dup (s : State ι) (q : ι) (w : Bool) : State ι :=
  { s with
    proc := update s.proc q
      { s.proc q with fd := update (s.proc q).fd w ((s.proc q).fd w + 1) }
    ref := update s.ref w (s.ref w + 1) }

/-- `fork`: the child `r` gets the descriptors of `q`. -/
def State.fork (s : State ι) (q r : ι) : State ι :=
  { s with
    proc := update s.proc r { s.proc r with fd := (s.proc q).fd }
    ref := fun w => s.ref w + (s.proc q).fd w }

/-- `kill`: a sleeping process becomes `RUNNABLE`. -/
def State.kill (s : State ι) (r : ι) : State ι :=
  { s with
    proc := update s.proc r
      { s.proc r with killed := true, pc := (s.proc r).pc.awake } }

/-- A process that is in user space. -/
def Proc.inUser (p : Proc) : Prop := p.pc matches .user

instance (p : Proc) : Decidable p.inUser := inferInstanceAs (Decidable (_ = true))

/-- A process that has no descriptor of the pipe. -/
def Proc.noFd (p : Proc) : Prop := p.fd true = 0 ∧ p.fd false = 0

instance (p : Proc) : Decidable p.noFd := inferInstanceAs (Decidable (_ ∧ _))

/-- One step. A process that was killed makes no more system calls: `trap` checks the flag before
each, and lets it only `exit`, which closes its descriptors. -/
def step (s : State ι) : Event ι → Option (State ι)
  | .run q => do
    let (e, pc) ← (s.proc q).pc.next s.pipe (s.proc q).killed
    (s.goto q pc).apply q e
  | .write q addr n =>
    if (s.proc q).inUser ∧ 0 < (s.proc q).fd true ∧ ¬(s.proc q).killed then
      some { s.goto q (.write ⟨s.calls, addr, n⟩ .acquire) with calls := s.calls + 1 }
    else none
  | .read q n =>
    if (s.proc q).inUser ∧ 0 < (s.proc q).fd false ∧ ¬(s.proc q).killed then
      some (s.goto q (.read n .acquire))
    else none
  | .close q w =>
    if (s.proc q).inUser ∧ 0 < (s.proc q).fd w then some (s.close q w) else none
  | .dup q w =>
    if (s.proc q).inUser ∧ 0 < (s.proc q).fd w ∧ ¬(s.proc q).killed then some (s.dup q w) else none
  | .fork q r =>
    if (s.proc q).inUser ∧ ¬(s.proc q).killed ∧ (s.proc r).inUser ∧ (s.proc r).noFd then
      some (s.fork q r)
    else none
  | .kill r => if s.ptable = none then some (s.kill r) else none
  | .reap r =>
    if (s.proc r).inUser ∧ (s.proc r).noFd then
      some { s with proc := update s.proc r { s.proc r with killed := false } }
    else none

/-- The state after some steps, one after the other. -/
def runs (s : State ι) : List (Event ι) → Option (State ι)
  | [] => some s
  | e :: es => (step s e).bind fun s' => runs s' es

/-- The state `sys_pipe` of the process `q` leaves: `pipealloc` has filled in the page, whose ring
holds what was there before, and both descriptors are `q`'s. -/
def pipealloc (q : ι) (data : Nat → UInt8) : State ι where
  pipe := ⟨data, 0, 0, true, true⟩
  lock := none
  ptable := none
  proc := fun r => ⟨.user, false, fun _ => if r = q then 1 else 0⟩
  ref := fun _ => 1
  freed := 0
  stored := []
  delivered := []
  calls := 0
  returned := []

/-- The states the pipe of `q` can be in, when every step meets `ok`. -/
inductive Reaches (ok : State ι → Event ι → Prop) (q : ι) (data : Nat → UInt8) : State ι → Prop
  | init : Reaches ok q data (pipealloc q data)
  | step {s s' : State ι} {e : Event ι} (h : Reaches ok q data s) (hok : ok s e)
      (he : Pipes.step s e = some s') : Reaches ok q data s'

/-- What a step of a process in the kernel is made of. -/
theorem step_run {s' : State ι} (h : step s (.run q) = some s') :
    ∃ e pc, (s.pc q).next s.pipe (s.proc q).killed = some (e, pc) ∧
      (s.goto q pc).apply q e = some s' := by
  obtain ⟨⟨e, pc⟩, hnext, happly⟩ := Option.bind_eq_some_iff.1 h
  exact ⟨e, pc, hnext, happly⟩

/-- The step of a process whose next statement is known. -/
theorem step_run_eq {e : Effect} {pc : Pc}
    (h : (s.pc q).next s.pipe (s.proc q).killed = some (e, pc)) :
    step s (.run q) = (s.goto q pc).apply q e := by
  simp only [step, State.pc] at h ⊢
  rw [h]
  rfl

theorem State.pc_goto (s : State ι) (q r : ι) (pc : Pc) :
    (s.goto q pc).pc r = if r = q then pc else s.pc r := by
  by_cases hr : r = q
  · subst hr
    simp [State.pc]
  · simp [State.pc, hr]

omit [DecidableEq ι] in
theorem State.pc_wakeup (s : State ι) (ch : Chan) (r : ι) :
    (s.wakeup ch).pc r = if (s.pc r).chan = some ch then (s.pc r).awake else s.pc r := by
  simp only [State.pc, State.wakeup_proc]
  split <;> rfl

/-- A property that the new pipe has and that every step keeps holds in every state. -/
theorem Reaches.invariant {ok : State ι → Event ι → Prop} {data : Nat → UInt8}
    {P : State ι → Prop} (h0 : P (pipealloc q data))
    (hstep : ∀ s e s', P s → ok s e → Pipes.step s e = some s' → P s') (h : Reaches ok q data s) : P s := by
  induction h with
  | init => exact h0
  | step _ hok he ih => exact hstep _ _ _ ih hok he

/-- Steps that all meet the condition lead to a state that is reached. -/
theorem Reaches.runs {ok : State ι → Event ι → Prop} {data : Nat → UInt8}
    {s' : State ι} (h : Reaches ok q data s) (es : List (Event ι))
    (hok : ∀ s, ∀ e ∈ es, ok s e) (hes : Pipes.runs s es = some s') : Reaches ok q data s' := by
  induction es generalizing s with
  | nil => exact Option.some.inj hes ▸ h
  | cons e es ih =>
    obtain ⟨s1, he, hes⟩ := Option.bind_eq_some_iff.1 hes
    exact ih (h.step (hok s e List.mem_cons_self) he)
      (fun s e' he' => hok s e' (List.mem_cons_of_mem e he')) hes

end

end Dixv6.Pipes
