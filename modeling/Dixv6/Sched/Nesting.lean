import Dixv6.Lib.Lts
import Dixv6.Lib.Wp
import Dixv6.Procs.Table

/-!
# Interrupts and locks on one CPU

`pushcli`, `popcli`, `acquire` and `release` of `spinlock.c`, and `sched` and the switches of
`scheduler` of `proc.c`, as one CPU runs them: the interrupt flag `FL_IF`, `cpu->ncli` and
`cpu->intena`, the locks, and the kernel threads of the processes and of the scheduler, of which the
CPU runs one at a time. A step is what no interrupt can divide. An interrupt comes wherever the flag
is set, in `pushcli` between `readeflags` and `cli` too, and its handler takes locks and calls `yield`
like any other code. It returns, and other code changes the flag, with no `pushcli` outstanding.
Other CPUs take and release the locks this one does not hold.

`ncli` is an `Int`: it counts locks, of which memory has no room for `2^31`.

Kept beside the machine, and read by nobody: how many calls of `pushcli` and `popcli` the CPU has
made (`pushes`, `pops`), how many a thread has not undone yet (`out`), and the flag before the first
of these (`before`).

`nesting_exact`: **the flag is off while a lock is held**, `ncli` counts the calls of `pushcli` that
are outstanding, and a process has its flag back after its last `release`. The scheduler does not:
it saves no `intena` around its `swtch` (`scheduler_flag_lost`).
-/

namespace Dixv6.Sched.Nesting

open Lib Function
open Procs (ProcState)

/-! ## The machine -/

/-- Where a thread is in the code of the locks. -/
inductive Place (Λ : Type) where
  /-- In none of it. -/
  | body
  /-- `acquire(lk)`, in `pushcli` after `eflags = readeflags()` -/
  | push (lk : Λ) (eflags : Bool)
  /-- `acquire(lk)`, after `pushcli` -/
  | take (lk : Λ)
  /-- `release(lk)`, before `popcli` -/
  | pop
  /-- In the `swtch` of `sched`, with its local `intena`. -/
  | away (intena : Bool)
  /-- A process that has not run: its `swtch` returns to `forkret`. -/
  | new
  deriving DecidableEq

/-- What an interrupt saves: `eflags`, and where the thread was. -/
structure Frame (Λ : Type) where
  eflags : Bool
  pc : Place Λ
  before : Option Bool

/-- A kernel thread. -/
structure Thread (Λ : Type) where
  pc : Place Λ
  /-- The calls of `pushcli` that it has not undone. -/
  out : Nat
  /-- The interrupt flag before the first of them, if the thread has made it itself. -/
  before : Option Bool
  /-- The interrupts it is in. -/
  frames : List (Frame Λ)

/-- What a CPU has to do with locks, for the processes `ι`, the CPUs `κ` and the locks `Λ`. -/
structure State (ι κ Λ : Type) where
  /-- `FL_IF` -/
  flag : Bool
  ncli : Int
  intena : Bool
  /-- `lk->cpu` of a lock that is `lk->locked`. -/
  locks : Λ → Option κ
  /-- The thread that runs; `none` is the scheduler. -/
  runs : Option ι
  thread : Option ι → Thread Λ
  pushes : Nat
  pops : Nat

/-- Why a step is not taken: the panics, a lock that another CPU holds, or a place where the code
does something else. -/
inductive Halt where
  | acquire
  | release
  /-- `popcli - interruptible` -/
  | interruptible
  | popcli
  /-- `sched ptable.lock` -/
  | schedLock
  /-- `sched locks` -/
  | schedLocks
  /-- `sched running` -/
  | schedRunning
  /-- `sched interruptible` -/
  | schedInterruptible
  | spin
  | absent
  deriving DecidableEq, Repr

/-- The steps. -/
inductive Step (ι κ Λ : Type) where
  /-- `acquire(lk)`, with `readeflags()` -/
  | acquire (lk : Λ)
  /-- The rest of its `pushcli`. -/
  | pushcli
  /-- The rest of `acquire`. -/
  | xchg
  /-- `release(lk)`, up to its `popcli` -/
  | release (lk : Λ)
  | popcli
  /-- `sched()`, with the state that its caller has given the process. -/
  | sched (state : ProcState)
  /-- `scheduler` runs a process: `switchuvm(p)`, and `swtch` with what follows it there. -/
  | enter (p : ι)
  | fork (p : ι)
  | intr
  | iret
  /-- The flag is changed by other code: `sti()` in `scheduler`, a system call. -/
  | flag (b : Bool)
  /-- Another CPU takes or releases a lock. -/
  | other (lk : Λ) (o : Option κ)

/-- Code of the kernel. -/
abbrev Kern (ι κ Λ : Type) := Comp (State ι κ Λ) Halt

variable {ι κ Λ : Type} [DecidableEq ι] [DecidableEq κ] [DecidableEq Λ]

omit [DecidableEq ι] [DecidableEq κ] [DecidableEq Λ] in
/-- The thread that runs. -/
abbrev State.cur (s : State ι κ Λ) : Thread Λ := s.thread s.runs

/-- The thread that runs changes. -/
def setCur (f : Thread Λ → Thread Λ) : Kern ι κ Λ Unit :=
  .modify fun s => { s with thread := update s.thread s.runs (f s.cur) }

/-- `pushcli`, after `readeflags`. -/
def pushcli (eflags : Bool) : Kern ι κ Λ Unit :=
  .modify fun s => { s with
    flag := false
    ncli := s.ncli + 1
    intena := if s.ncli = 0 then eflags else s.intena
    pushes := s.pushes + 1 }

def popcli : Kern ι κ Λ Unit := do
  .stopIf ((← .gets (·.flag)) = true) .interruptible
  .modify fun s => { s with ncli := s.ncli - 1, pops := s.pops + 1 }
  .stopIf ((← .gets (·.ncli)) < 0) .popcli
  .modify fun s => { s with flag := s.flag || (decide (s.ncli = 0) && s.intena) }

/-- `switchuvm`, as far as it concerns interrupts. -/
def switchuvm : Kern ι κ Λ Unit := do
  pushcli (← .gets (·.flag))
  popcli

section
variable (me : κ) (ptable : Λ)

/-- `holding(lk)`, on the CPU `me`. -/
abbrev State.holding (s : State ι κ Λ) (lk : Λ) : Prop := s.locks lk = some me

/-- What a step does. -/
def code : Step ι κ Λ → Kern ι κ Λ Unit
  | .acquire lk => do
    let s ← .gets id
    -- the scheduler itself takes `ptable.lock` only, and has no other then
    .stopIf (s.cur.pc ≠ .body ∨ s.runs = none ∧ s.cur.frames.isEmpty ∧ (lk ≠ ptable ∨ s.cur.out ≠ 0))
      .absent
    setCur fun t => { t with
      pc := .push lk s.flag
      before := if t.out = 0 then some s.flag else t.before }
  | .pushcli => do
    match (← .gets State.cur).pc with
    | .push lk eflags =>
      pushcli eflags
      setCur fun t => { t with pc := .take lk, out := t.out + 1 }
    | _ => .stop .absent
  | .xchg => do
    match (← .gets State.cur).pc with
    | .take lk =>
      .stopIf ((← .gets id).holding me lk) .acquire
      .stopIf ((← .gets id).locks lk ≠ none) .spin
      .modify fun s => { s with locks := update s.locks lk (some me) }
      setCur fun t => { t with pc := .body }
    | _ => .stop .absent
  | .release lk => do
    .stopIf ((← .gets State.cur).pc ≠ .body) .absent
    .stopIf (¬ (← .gets id).holding me lk) .release
    .modify fun s => { s with locks := update s.locks lk none }
    setCur fun t => { t with pc := .pop }
  | .popcli => do
    .stopIf ((← .gets State.cur).pc ≠ .pop) .absent
    popcli
    setCur fun t => { t with pc := .body, out := t.out - 1 }
  | .sched state => do
    let s ← .gets id
    .stopIf (s.runs = none ∨ s.cur.pc ≠ .body) .absent
    .stopIf (¬ s.holding me ptable) .schedLock
    .stopIf (s.ncli ≠ 1) .schedLocks
    .stopIf (state = .RUNNING) .schedRunning
    .stopIf (s.flag = true) .schedInterruptible
    setCur fun t => { t with pc := .away s.intena }
    .modify fun s => { s with runs := none }
  | .enter p => do
    let s ← .gets id
    .stopIf (s.runs ≠ none ∨ s.cur.pc ≠ .body ∨ ¬ s.cur.frames.isEmpty ∨ ¬ s.holding me ptable) .absent
    switchuvm
    .modify fun s => { s with runs := some p }
    match (← .gets State.cur).pc with
    | .away intena =>
      .modify fun s => { s with intena := intena }
      setCur fun t => { t with pc := .body }
    | .new => setCur fun t => { t with pc := .body }
    | _ => .stop .absent
  | .fork p => do
    .stopIf ((← .gets (·.runs)) = some p) .absent
    .modify fun s => { s with thread := update s.thread (some p) ⟨.new, 1, none, []⟩ }
  | .intr => do
    let s ← .gets id
    .stopIf (s.flag = false) .absent
    .modify fun s => { s with flag := false }
    setCur fun t => { t with pc := .body, frames := ⟨s.flag, t.pc, t.before⟩ :: t.frames }
  | .iret => do
    let s ← .gets id
    match s.cur.frames with
    | [] => .stop .absent
    | r :: frames =>
      .stopIf (s.cur.pc ≠ .body ∨ s.cur.out ≠ 0) .absent
      .modify fun s => { s with flag := r.eflags }
      setCur fun t => { t with pc := r.pc, before := r.before, frames := frames }
  | .flag b => do
    let s ← .gets id
    .stopIf (s.cur.pc ≠ .body ∨ s.cur.out ≠ 0) .absent
    .modify fun s => { s with flag := b }
  | .other lk o => do
    .stopIf ((← .gets id).holding me lk ∨ o = some me) .absent
    .modify fun s => { s with locks := update s.locks lk o }

/-- The CPU as a system: it starts in its scheduler, with no lock. -/
def system : Lts (State ι κ Λ) (Step ι κ Λ) where
  init s := s.runs = none ∧ s.ncli = 0 ∧ s.pushes = 0 ∧ s.pops = 0 ∧ (∀ lk, ¬ s.holding me lk) ∧
    s.thread none = ⟨.body, 0, none, []⟩ ∧ ∀ p, s.thread (some p) = ⟨.new, 1, none, []⟩
  step s a := (code me ptable a s).toOption.map (·.2)

/-! ## The invariant -/

/-- The call of `pushcli` in `acquire` or `release` that stands for no lock. -/
def Place.extra : Place Λ → Nat
  | .take _ | .pop => 1
  | _ => 0

/-- What `pushcli` has read is what the flag was before it. -/
def Read (pc : Place Λ) (before : Option Bool) : Prop :=
  pc = .body ∨ ∃ lk e, pc = .push lk e ∧ before = some e

/-- The thread `t`, as the one that runs. -/
structure Runs (s : State ι κ Λ) (t : Thread Λ) : Prop where
  count : s.ncli = s.pushes - s.pops
  out : s.ncli = t.out
  off : t.out ≠ 0 → s.flag = false
  held : ∃ S : Finset Λ, (∀ l, l ∈ S ↔ s.holding me l) ∧ t.out = S.card + t.pc.extra
  here : t.pc ≠ .new ∧ ∀ i, t.pc ≠ .away i
  read : t.out = 0 → Read t.pc t.before
  frames : ∀ r ∈ t.frames, Read r.pc r.before
  /-- The scheduler itself takes one lock. -/
  once : s.runs = none → t.frames = [] → t.out ≤ 1 ∧ ∀ lk e, t.pc = .push lk e → t.out = 0
  intena : s.runs ≠ none → t.out ≠ 0 → ∀ f, t.before = some f → s.intena = f

/-- A process that does not run has `ptable.lock` to release, and its flag in `sched`. -/
structure Parked (t : Thread Λ) : Prop where
  out : t.out = 1
  frames : ∀ r ∈ t.frames, Read r.pc r.before
  pc : t.pc = .new ∧ t.before = none ∨ ∃ i, t.pc = .away i ∧ ∀ f, t.before = some f → i = f

/-- The invariant. -/
structure Inv (s : State ι κ Λ) : Prop where
  runs : Runs me s s.cur
  parked : ∀ p, s.runs ≠ some p → Parked (s.thread (some p))
  idle : s.runs ≠ none → (s.thread none).pc = .body ∧ (s.thread none).frames = [] ∧
    (s.thread none).out = 1

variable {me ptable} {s s' : State ι κ Λ} {t : Thread Λ}

omit [DecidableEq κ] [DecidableEq Λ] in
/-- A step of the thread that runs leaves the others alone. -/
theorem Inv.cur (h : Inv me s) (hr : s'.runs = s.runs) (ht : s'.thread = update s.thread s.runs t)
    (hn : Runs me s' t) : Inv me s' := by
  refine ⟨?_, fun p hp => ?_, fun h0 => ?_⟩
  · rwa [State.cur, ht, hr, update_self]
  · rw [hr] at hp
    rw [ht, update_of_ne (Ne.symm hp)]
    exact h.parked p hp
  · rw [hr] at h0
    rw [ht, update_of_ne (Ne.symm h0)]
    exact h.idle h0

omit [DecidableEq ι] [DecidableEq κ] [DecidableEq Λ] in
/-- `switchuvm` under a lock undoes what it does. -/
theorem switchuvm_spec (hn : s.ncli = 1) (hf : s.flag = false) :
    switchuvm s = .ok ((), { s with pushes := s.pushes + 1, pops := s.pops + 1 }) := by
  obtain ⟨flag, ncli⟩ := s
  subst hn hf
  rfl

omit [DecidableEq ι] [DecidableEq κ] [DecidableEq Λ] in
/-- Code of the scheduler that holds `ptable.lock` holds no other lock. -/
theorem Runs.one (h : Runs me s t) (hr : s.runs = none) (hf : t.frames = [])
    (hl : s.holding me ptable) : s.ncli = 1 := by
  obtain ⟨S, hS, hcard⟩ := h.held
  have hpos : 0 < S.card := Finset.card_pos.2 ⟨ptable, (hS ptable).2 hl⟩
  have hle := (h.once hr hf).1
  rw [h.out]
  omega

/-- **Every step keeps the invariant.** -/
theorem Inv.step (h : Inv me s) (a : Step ι κ Λ) :
    wp (code me ptable a) (fun _ s' => Inv me s') (fun _ => True) s := by
  obtain ⟨hcount, hout, hoff, ⟨S, hS, hcard⟩, hhere, hread, hframes, honce, hena⟩ := h.runs
  cases a with
  | acquire lk =>
    simp only [code, setCur, wp_bind, wp_gets, wp_stopIf, wp_modify]
    refine ⟨fun _ => trivial, fun hok => h.cur rfl rfl ⟨hcount, hout, hoff, ⟨S, hS, ?_⟩, ?_, ?_,
      hframes, ?_, ?_⟩⟩
    all_goals grind [Read, Place.extra]
  | pushcli =>
    simp only [code, setCur, pushcli, wp_bind, wp_gets]
    split
    · next lk e hpc =>
      refine h.cur rfl rfl ⟨?_, ?_, fun _ => rfl, ⟨S, hS, ?_⟩, ?_, ?_, hframes, ?_, ?_⟩
      all_goals grind [Read, Place.extra]
    · trivial
  | xchg =>
    simp only [code, setCur, wp_bind, wp_gets]
    split
    · next lk hpc =>
      simp only [wp_bind, wp_gets, wp_stopIf, wp_modify]
      refine ⟨fun _ => trivial, fun hn => ⟨fun _ => trivial, fun hfree => h.cur rfl rfl
        ⟨hcount, hout, hoff, ⟨insert lk S, ?_, ?_⟩, ?_, ?_, hframes, ?_, hena⟩⟩⟩
      all_goals grind [Read, Place.extra]
    · trivial
  | release lk =>
    simp only [code, setCur, wp_bind, wp_gets, wp_stopIf, wp_modify]
    refine ⟨fun _ => trivial, fun hpc => ⟨fun _ => trivial, fun hl => h.cur rfl rfl
      ⟨hcount, hout, hoff, ⟨S.erase lk, ?_, ?_⟩, ?_, ?_, hframes, ?_, hena⟩⟩⟩
    all_goals grind [Read, Place.extra]
  | popcli =>
    simp only [code, setCur, popcli, wp_bind, wp_gets, wp_stopIf, wp_modify]
    refine ⟨fun _ => trivial, fun hpc => ⟨fun _ => trivial, fun hf => ⟨fun _ => trivial,
      fun hn => h.cur rfl rfl ⟨?_, ?_, ?_, ⟨S, hS, ?_⟩, ?_, ?_, hframes, ?_, ?_⟩⟩⟩⟩
    all_goals grind [Read, Place.extra]
  | sched st =>
    simp only [code, setCur, wp_bind, wp_gets, wp_stopIf, wp_modify]
    refine ⟨fun _ => trivial, fun hb => ⟨fun _ => trivial, fun hl => ⟨fun _ => trivial, fun h1 =>
      ⟨fun _ => trivial, fun _ => ⟨fun _ => trivial, fun hf => ?_⟩⟩⟩⟩⟩
    have hruns : s.runs ≠ none := fun e => hb (.inl e)
    obtain ⟨hpc, hfr, ho⟩ := h.idle hruns
    refine ⟨?_, fun p _ => ?_, fun h0 => absurd rfl h0⟩
    · dsimp only [State.cur]
      rw [update_of_ne (Ne.symm hruns)]
      refine ⟨hcount, ?_, ?_, ⟨S, hS, ?_⟩, ?_, ?_, ?_, ?_, fun h0 => absurd rfl h0⟩
      all_goals grind [Read, Place.extra]
    · dsimp only
      by_cases hp : some p = s.runs
      · rw [hp, update_self]
        exact ⟨by grind, hframes, .inr ⟨_, rfl, hena hruns (by grind)⟩⟩
      · rw [update_of_ne hp]
        exact h.parked p (Ne.symm hp)
  | enter p =>
    simp only [code, wp_bind, wp_gets, wp_stopIf]
    refine ⟨fun _ => trivial, fun hok => ?_⟩
    obtain ⟨hruns, hpc, hfr, hl⟩ : s.runs = none ∧ s.cur.pc = .body ∧ s.cur.frames = [] ∧
        s.holding me ptable := by simpa [not_or] using hok
    have h1 : s.ncli = 1 := h.runs.one hruns hfr hl
    have hp := h.parked p (by simp [hruns])
    refine wp_of_ok (switchuvm_spec h1 (hoff (by grind))) ?_
    -- the thread of the process goes on where it was, with its own `intena`
    have key : ∀ i t, t.pc = .body → t.out = 1 → (∀ r ∈ t.frames, Read r.pc r.before) →
        (∀ f, t.before = some f → i = f) → Inv me { s with
          intena := i, pushes := s.pushes + 1, pops := s.pops + 1, runs := some p
          thread := update s.thread (some p) t } := by
      intro i t h2 h3 h4 h5
      refine ⟨?_, fun q hq => ?_, fun _ => ?_⟩
      · dsimp only [State.cur]
        rw [update_self]
        refine ⟨?_, ?_, ?_, ⟨S, hS, ?_⟩, ?_, ?_, h4, ?_, fun _ _ => h5⟩
        all_goals grind [Read, Place.extra]
      · dsimp only at hq ⊢
        rw [update_of_ne (Ne.symm hq)]
        exact h.parked q (by simp [hruns])
      · grind
    simp only [wp_modify, State.cur]
    rcases hp.pc with ⟨hpc, hb⟩ | ⟨i, hpc, hb⟩
    · rw [hpc]
      have hnone : ∀ f, (s.thread (some p)).before = some f → s.intena = f := by simp [hb]
      exact key _ _ rfl hp.out hp.frames hnone
    · rw [hpc]
      exact key _ _ rfl hp.out hp.frames hb
  | fork p =>
    simp only [code, wp_bind, wp_gets, wp_stopIf, wp_modify]
    refine ⟨fun _ => trivial, fun hp => ⟨?_, fun q hq => ?_, fun h0 => ?_⟩⟩
    · dsimp only [State.cur]
      rw [update_of_ne hp]
      exact ⟨hcount, hout, hoff, ⟨S, hS, hcard⟩, hhere, hread, hframes, honce, hena⟩
    · dsimp only
      by_cases hqp : some q = some p
      · rw [hqp, update_self]
        exact ⟨rfl, by simp, .inl ⟨rfl, rfl⟩⟩
      · rw [update_of_ne hqp]
        exact h.parked q hq
    · exact h.idle h0
  | intr =>
    simp only [code, setCur, wp_bind, wp_gets, wp_stopIf, wp_modify]
    refine ⟨fun _ => trivial, fun hf => h.cur rfl rfl
      ⟨hcount, hout, fun _ => rfl, ⟨S, hS, ?_⟩, ?_, ?_, ?_, ?_, ?_⟩⟩
    all_goals grind [Read, Place.extra]
  | iret =>
    simp only [code, setCur, wp_bind, wp_gets]
    split
    · trivial
    · next r fr hfr =>
      simp only [wp_bind, wp_stopIf, wp_modify]
      refine ⟨fun _ => trivial, fun hok => h.cur rfl rfl
        ⟨hcount, hout, ?_, ⟨S, hS, ?_⟩, ?_, ?_, ?_, ?_, ?_⟩⟩
      all_goals grind [Read, Place.extra]
  | flag b =>
    simp only [code, wp_bind, wp_gets, wp_stopIf, wp_modify]
    refine ⟨fun _ => trivial, fun hok => h.cur rfl (update_eq_self _ _).symm
      ⟨hcount, hout, ?_, ⟨S, hS, hcard⟩, hhere, hread, hframes, honce, hena⟩⟩
    grind
  | other lk o =>
    simp only [code, wp_bind, wp_gets, wp_stopIf, wp_modify]
    refine ⟨fun _ => trivial, fun hok => h.cur rfl (update_eq_self _ _).symm
      ⟨hcount, hout, hoff, ⟨S, ?_, hcard⟩, hhere, hread, hframes, honce, hena⟩⟩
    grind

/-! ## What it says -/

/-- A step that is taken. -/
theorem step_iff {a : Step ι κ Λ} :
    (system me ptable).step s a = some s' ↔ code me ptable a s = .ok ((), s') := by
  show (code me ptable a s).toOption.map (·.2) = some s' ↔ _
  cases code me ptable a s <;> simp [Except.toOption, Prod.ext_iff]

/-- When a step can be taken. -/
theorem takes_iff {a : Step ι κ Λ} : (∃ s', (system me ptable).step s a = some s') ↔
    wp (code me ptable a) (fun _ _ => True) (fun _ => False) s := by
  simp only [step_iff]
  rw [wp]
  split <;> simp [*]

/-- The invariant holds in every state that can be reached. -/
theorem reach_inv (h : (system me ptable).Reach s) : Inv me s := by
  refine h.inv (I := Inv me) ?_ fun s a s' hs ha => wp_ok (m := code me ptable a) (hs.step a)
    (step_iff.1 ha)
  rintro s ⟨hr, hn, h1, h2, hl, h3, h4⟩
  refine ⟨?_, fun p _ => ?_, fun h0 => absurd hr h0⟩
  · rw [State.cur, hr, h3]
    exact ⟨by simp [hn, h1, h2], hn, nofun, ⟨∅, by simpa using hl, rfl⟩, ⟨nofun, nofun⟩,
      fun _ => .inl rfl, nofun, fun _ _ => ⟨Nat.zero_le 1, nofun⟩, fun _ h0 => absurd rfl h0⟩
  · rw [h4 p]
    exact ⟨rfl, nofun, .inl ⟨rfl, rfl⟩⟩

omit [DecidableEq ι] [DecidableEq κ] [DecidableEq Λ] in
/-- The flag is off while a lock is held. -/
theorem Runs.flag (h : Runs me s t) {lk : Λ} (hl : s.holding me lk) : s.flag = false := by
  obtain ⟨S, hS, hcard⟩ := h.held
  have hpos : 0 < S.card := Finset.card_pos.2 ⟨lk, (hS lk).2 hl⟩
  exact h.off (by omega)

omit [DecidableEq ι] [DecidableEq κ] [DecidableEq Λ] in
/-- Outside of `acquire` and `release`, `ncli` is one if one lock is held. -/
theorem Runs.ncli_one (h : Runs me s t) (hb : t.pc = .body) (hl : s.holding me ptable) :
    s.ncli = 1 ↔ ∀ lk, s.holding me lk ↔ lk = ptable := by
  obtain ⟨S, hS, hcard⟩ := h.held
  have hout : s.ncli = S.card := by rw [h.out, hcard, hb]; rfl
  have hmem : ptable ∈ S := (hS ptable).2 hl
  constructor
  · intro h1 lk
    have hle : S.card ≤ 1 := by omega
    rw [← hS]
    exact ⟨fun h2 => Finset.card_le_one.1 hle lk h2 ptable hmem, fun e => e ▸ hmem⟩
  · intro h1
    have hone : S = {ptable} := Finset.ext fun lk => by rw [hS, h1, Finset.mem_singleton]
    rw [hout, hone]
    rfl

/-- `sched` switches if `ptable.lock` is held and no other lock. -/
theorem Inv.sched_iff (h : Inv me s) {state : ProcState} (hr : s.runs ≠ none)
    (hb : s.cur.pc = .body) : (∃ s', (system me ptable).step s (.sched state) = some s') ↔
      state ≠ .RUNNING ∧ ∀ lk, s.holding me lk ↔ lk = ptable := by
  have hw : wp (code me ptable (.sched state)) (fun _ _ => True) (fun _ => False) s ↔
      s.holding me ptable ∧ s.ncli = 1 ∧ state ≠ .RUNNING ∧ s.flag = false := by
    simp only [code, setCur, wp_bind, wp_gets, wp_stopIf, wp_modify]
    grind
  rw [takes_iff, hw]
  constructor
  · rintro ⟨hl, h1, h2, -⟩
    exact ⟨h2, (h.runs.ncli_one hb hl).1 h1⟩
  · rintro ⟨h1, h2⟩
    have hl : s.holding me ptable := (h2 ptable).2 rfl
    exact ⟨hl, (h.runs.ncli_one hb hl).2 h2, h1, h.runs.flag hl⟩

/-- `popcli` does not panic, and the last one sets the flag to `intena`. -/
theorem Inv.popcli (h : Inv me s) (hp : s.cur.pc = .pop) :
    ∃ s', (system me ptable).step s .popcli = some s' ∧ (s.cur.out = 1 → s'.flag = s.intena) := by
  obtain ⟨S, -, hcard⟩ := h.runs.held
  rw [hp, Place.extra] at hcard
  have hn := h.runs.out
  have hf := h.runs.off (by omega)
  have hw : wp (code me ptable .popcli) (fun _ s' => s.cur.out = 1 → s'.flag = s.intena)
      (fun _ => False) s := by
    simp only [code, setCur, Nesting.popcli, wp_bind, wp_gets, wp_stopIf, wp_modify]
    refine ⟨fun h0 => absurd hp h0, fun _ => ⟨?_, fun _ => ⟨?_, fun _ h1 => ?_⟩⟩⟩
    all_goals grind
  obtain ⟨_, s', hs, h1⟩ := wp_total hw
  exact ⟨s', step_iff.2 hs, h1⟩

/-- **Interrupt nesting.** In every state that one CPU can reach, interrupts are off if it holds a
lock, and `ncli` is the number of its calls of `pushcli` that are outstanding, all of the thread that
runs; a call of `sched` with only `ptable.lock` sees one and any other does not switch; and the
release of the last lock of a process gives back the flag from before its first `acquire`. -/
theorem nesting_exact (h : (system me ptable).Reach s) :
    ((∃ lk, s.holding me lk) → s.flag = false) ∧
    (s.ncli = s.pushes - s.pops ∧ s.ncli = s.cur.out) ∧
    (∀ state, s.runs ≠ none → s.cur.pc = .body →
      ((∀ lk, s.holding me lk ↔ lk = ptable) → s.ncli = 1) ∧
      ((∃ s', (system me ptable).step s (.sched state) = some s') ↔
        state ≠ .RUNNING ∧ ∀ lk, s.holding me lk ↔ lk = ptable)) ∧
    (s.cur.pc = .pop → ∃ s', (system me ptable).step s .popcli = some s' ∧
      (s.runs ≠ none → s.cur.out = 1 → ∀ f, s.cur.before = some f → s'.flag = f)) := by
  have hi := reach_inv h
  refine ⟨?_, ⟨hi.runs.count, hi.runs.out⟩, fun state hr hb => ⟨fun hl => ?_, hi.sched_iff hr hb⟩,
    fun hp => ?_⟩
  · rintro ⟨lk, hl⟩
    exact hi.runs.flag hl
  · exact (hi.runs.ncli_one hb ((hl ptable).2 rfl)).2 hl
  · obtain ⟨s', hs, hf⟩ : ∃ s', (system me ptable).step s .popcli = some s' ∧ _ := hi.popcli hp
    refine ⟨s', hs, fun hr h1 f hb => ?_⟩
    rw [hf h1]
    exact hi.runs.intena hr (by omega) f hb

end

/-! ## A run -/

/-- One CPU, one process and two locks, of which `true` is `ptable.lock`, at the start. -/
def boot : State Unit Unit Bool where
  flag := false
  ncli := 0
  intena := false
  locks _ := none
  runs := none
  thread
    | none => ⟨.body, 0, none, []⟩
    | some _ => ⟨.new, 1, none, []⟩
  pushes := 0
  pops := 0

/-- The scheduler runs the new process, which leaves `forkret`. -/
def started : List (Step Unit Unit Bool) :=
  [.flag true, .acquire true, .pushcli, .xchg, .enter (), .release true, .popcli]

/-- The witness: the process has interrupts on again after its `release`. -/
theorem nesting_exact_started : ∃ s s', (system () true).run boot started = some s ∧
    (system () true).run s [.acquire false, .pushcli, .xchg, .release false] = some s' ∧
    s.flag = true ∧ ∃ s'', (system () true).step s' .popcli = some s'' ∧ s''.flag = true := by
  refine ⟨_, _, rfl, rfl, rfl, ?_⟩
  have hr : (system () true).Reach boot :=
    .init ⟨rfl, rfl, rfl, rfl, nofun, rfl, fun _ => rfl⟩
  obtain ⟨-, -, -, h⟩ := nesting_exact ((hr.run (l := started) rfl).run
    (l := [.acquire false, .pushcli, .xchg, .release false]) rfl)
  obtain ⟨s'', hs, hf⟩ := h rfl
  exact ⟨s'', hs, hf nofun rfl true rfl⟩

/-- The scheduler takes `ptable.lock` with interrupts on and runs a process; a timer interrupt makes
this one call `yield`, whose `acquire` finds them off. `sched` leaves that in `cpu->intena`, and the
`release` of the scheduler does not turn them on again. A `sched` with a second lock sees two. -/
theorem scheduler_flag_lost : (system () true).init boot ∧
    ((system () true).run boot (started ++ [.intr, .acquire true, .pushcli, .xchg, .sched .RUNNABLE,
      .release true, .popcli])).map (fun s => (s.runs, s.cur.out, s.cur.before, s.flag)) =
        some (none, 0, some true, false) ∧
    ((system () true).run boot (started ++ [.acquire true, .pushcli, .xchg, .acquire false, .pushcli,
      .xchg])).map (fun s => (s.ncli, (code () true (.sched .RUNNABLE) s).map (·.1))) =
        some (2, .error .schedLocks) :=
  ⟨⟨rfl, rfl, rfl, rfl, nofun, rfl, fun _ => rfl⟩, rfl, rfl⟩

end Dixv6.Sched.Nesting
