import Dixv6.Pipes.Model
import Mathlib.Algebra.BigOperators.Group.Finset.Basic
import Mathlib.Algebra.BigOperators.Group.Finset.Piecewise
import Mathlib.Algebra.Order.BigOperators.Group.Finset

/-!
# Who may use a pipe, and until when

Two invariants that hold whatever is killed. `Excl`: the holder of `p->lock`, and the process that
holds `ptable.lock` inside `sleep`, are told by their program points. `Live`: an end of the pipe is
open exactly as long as a descriptor names it or its last descriptor is being closed, so the page
is freed once, after both ends are closed, when no process can still come to use it.

What a program point means for the lifetime of the pipe is summed up by `Life`, and `Pc.next_life`
says once how the statements of the code change it.
-/

namespace Dixv6.Pipes

open Function

/-! ## The two locks -/

/-- The process holds `p->lock`. -/
def Pc.holds : Pc → Bool
  | .write _ l =>
    match l with
    | .forTest _ | .whileTest _ | .check _ | .wake _ | .sleep _ | .wakeLast | .release => true
    | .acquire | .fall _ | .asleep _ | .reacquire _ => false
  | .read _ l =>
    match l with
    | .whileTest | .check | .sleep | .copy _ | .wake _ | .release _ => true
    | .acquire | .fall | .asleep | .reacquire => false
  | .close _ l =>
    match l with
    | .shut | .wake | .release => true
    | .acquire | .kfree => false
  | .user => false

/-- The process holds `ptable.lock`, on its way to sleep. -/
def Pc.falls : Pc → Bool
  | .write _ (.fall _) | .read _ .fall => true
  | _ => false

/-- A process that wakes up holds what it held. -/
theorem Pc.holds_awake (pc : Pc) : pc.awake.holds = pc.holds := by
  unfold Pc.awake
  split <;> rfl

/-- A process that wakes up holds what it held. -/
theorem Pc.falls_awake (pc : Pc) : pc.awake.falls = pc.falls := by
  unfold Pc.awake
  split <;> rfl

/-- The locks a process holds before and after a statement, as `(p->lock, ptable.lock)`. -/
def Effect.Locks : Effect → Bool × Bool → Bool × Bool → Prop
  | .acquire, a, b => a = (false, false) ∧ b = (true, false)
  | .release _, a, b => a = (true, false) ∧ b = (false, false)
  | .sleep, a, b => a = (true, false) ∧ b = (false, true)
  | .sched, a, b => a = (false, true) ∧ b = (false, false)
  | .kfree, a, b => a = (false, false) ∧ b = (false, false)
  | _, a, b => a = (true, false) ∧ b = (true, false)

variable {pc : Pc}

/-- **Every statement keeps to its locks**: what is shared is read and changed under `p->lock`. -/
theorem Pc.next_locks {p : Pipe} {killed : Bool} {pc' : Pc} {e : Effect}
    (h : pc.next p killed = some (e, pc')) :
    e.Locks (pc.holds, pc.falls) (pc'.holds, pc'.falls) := by
  cases pc with
  | user => cases h
  | write c l =>
    cases l with
    | asleep i => cases h
    | whileTest i | check i =>
      simp only [Pc.next, WPc.next] at h
      split at h <;> cases h <;> exact ⟨rfl, rfl⟩
    | forTest i =>
      cases h
      split <;> exact ⟨rfl, rfl⟩
    | acquire | wake i | sleep i | fall i | reacquire i | wakeLast | release =>
      cases h
      exact ⟨rfl, rfl⟩
  | read n l =>
    cases l with
    | asleep => cases h
    | check | copy i =>
      simp only [Pc.next, RPc.next] at h
      split at h <;> cases h <;> exact ⟨rfl, rfl⟩
    | whileTest =>
      cases h
      split <;> exact ⟨rfl, rfl⟩
    | acquire | sleep | fall | reacquire | wake i | release i =>
      cases h
      exact ⟨rfl, rfl⟩
  | close w l =>
    cases l with
    | release =>
      cases h
      split <;> exact ⟨rfl, rfl⟩
    | acquire | shut | wake | kfree =>
      cases h
      exact ⟨rfl, rfl⟩

section
variable {ι : Type} [DecidableEq ι] {e : Event ι} {s s' : State ι} {q : ι}

/-- The holders of the two locks are at the program points that hold them. -/
structure Excl (s : State ι) : Prop where
  lock : ∀ q, s.lock = some q ↔ (s.pc q).holds = true
  ptable : ∀ q, s.ptable = some q ↔ (s.pc q).falls = true

omit [DecidableEq ι] in
/-- A step that takes and gives no lock. -/
theorem Excl.of_pcs (h : Excl s) (hl : s'.lock = s.lock) (hp : s'.ptable = s.ptable)
    (hpc : ∀ r, (s'.pc r).holds = (s.pc r).holds ∧ (s'.pc r).falls = (s.pc r).falls) : Excl s' where
  lock := fun r => by rw [hl, (hpc r).1, h.lock r]
  ptable := fun r => by rw [hp, (hpc r).2, h.ptable r]

omit [DecidableEq ι] in
/-- Nobody is on its way to sleep while `ptable.lock` is free. -/
theorem Excl.not_falls (h : Excl s) (hp : s.ptable = none) (r : ι) : (s.pc r).falls = false := by
  rw [Bool.eq_false_iff]
  intro hr
  rw [(h.ptable r).2 hr] at hp
  cases hp

omit [DecidableEq ι] in
/-- Two processes inside critical sections are one. -/
theorem Excl.eq_of_holds (h : Excl s) {r : ι} (hq : (s.pc q).holds = true)
    (hr : (s.pc r).holds = true) : q = r :=
  Option.some.inj (((h.lock q).2 hq).symm.trans ((h.lock r).2 hr))

omit [DecidableEq ι] in
/-- A step that moves the process `q`, with the locks it takes and gives. -/
theorem Excl.move (h : Excl s) (hpc : ∀ r, r ≠ q → s'.pc r = s.pc r)
    (hq : s'.lock = some q ↔ (s'.pc q).holds = true)
    (hl : ∀ r, r ≠ q → (s'.lock = some r ↔ s.lock = some r))
    (hq' : s'.ptable = some q ↔ (s'.pc q).falls = true)
    (hp : ∀ r, r ≠ q → (s'.ptable = some r ↔ s.ptable = some r)) : Excl s' := by
  constructor
  · intro r
    by_cases hr : r = q
    · rw [hr, hq]
    · rw [hl r hr, hpc r hr, h.lock r]
  · intro r
    by_cases hr : r = q
    · rw [hr, hq']
    · rw [hp r hr, hpc r hr, h.ptable r]

/-- Any statement of any process keeps the locks exclusive. -/
theorem Excl.run (h : Excl s) (he : step s (.run q) = some s') : Excl s' := by
  obtain ⟨e, pc, hnext, happly⟩ := step_run he
  have hlocks := Pc.next_locks hnext
  have hother : ∀ r, r ≠ q → (s.goto q pc).pc r = s.pc r := fun r hr => by
    rw [State.pc_goto, if_neg hr]
  have hself : (s.goto q pc).pc q = pc := by rw [State.pc_goto, if_pos rfl]
  have hlock := h.lock q
  have hptable := h.ptable q
  -- a holder other than `q` and the holder `q` exclude each other
  have hne : ∀ {o : Option ι} {r : ι}, r ≠ q → o = some q → o ≠ some r := by grind
  cases e with
  | acquire =>
    obtain ⟨hfree, ⟨⟩⟩ := Option.ite_none_right_eq_some.1 happly
    simp only [Effect.Locks, Prod.mk.injEq] at hlocks
    rw [State.goto_lock] at hfree
    refine h.move hother ?_ (fun r hr => ?_) ?_ (fun r _ => Iff.rfl)
    · show some q = some q ↔ ((s.goto q pc).pc q).holds = true
      simp [hself, hlocks]
    · simp [hne hr rfl, hfree]
    · show s.ptable = some q ↔ ((s.goto q pc).pc q).falls = true
      rw [hself, hptable, hlocks.1.2, hlocks.2.2]
  | release v =>
    cases happly
    simp only [Effect.Locks, Prod.mk.injEq] at hlocks
    refine h.move hother ?_ (fun r hr => ?_) ?_ (fun r _ => Iff.rfl)
    · show none = some q ↔ ((s.goto q pc).pc q).holds = true
      simp [hself, hlocks]
    · simp [hne hr (hlock.2 hlocks.1.1)]
    · show s.ptable = some q ↔ ((s.goto q pc).pc q).falls = true
      rw [hself, hptable, hlocks.1.2, hlocks.2.2]
  | sleep =>
    obtain ⟨hfree, ⟨⟩⟩ := Option.ite_none_right_eq_some.1 happly
    simp only [Effect.Locks, Prod.mk.injEq] at hlocks
    rw [State.goto_ptable] at hfree
    refine h.move hother ?_ (fun r hr => ?_) ?_ (fun r hr => ?_)
    · show none = some q ↔ ((s.goto q pc).pc q).holds = true
      simp [hself, hlocks]
    · simp [hne hr (hlock.2 hlocks.1.1)]
    · show some q = some q ↔ ((s.goto q pc).pc q).falls = true
      simp [hself, hlocks]
    · simp [hne hr rfl, hfree]
  | sched =>
    cases happly
    simp only [Effect.Locks, Prod.mk.injEq] at hlocks
    refine h.move hother ?_ (fun r _ => Iff.rfl) ?_ (fun r hr => ?_)
    · show s.lock = some q ↔ ((s.goto q pc).pc q).holds = true
      rw [hself, hlock, hlocks.1.1, hlocks.2.1]
    · show none = some q ↔ ((s.goto q pc).pc q).falls = true
      simp [hself, hlocks]
    · simp [hne hr (hptable.2 hlocks.1.2)]
  | wakeup ch =>
    obtain ⟨-, ⟨⟩⟩ := Option.ite_none_right_eq_some.1 happly
    simp only [Effect.Locks, Prod.mk.injEq] at hlocks
    have hgoto : Excl (s.goto q pc) := by
      refine h.move hother ?_ (fun r _ => Iff.rfl) ?_ (fun r _ => Iff.rfl)
      · rw [hself, State.goto_lock, hlock, hlocks.1.1, hlocks.2.1]
      · rw [hself, State.goto_ptable, hptable, hlocks.1.2, hlocks.2.2]
    refine hgoto.of_pcs rfl rfl fun r => ?_
    rw [State.pc_wakeup]
    split
    · exact ⟨Pc.holds_awake _, Pc.falls_awake _⟩
    · exact ⟨rfl, rfl⟩
  | none | put id b | take | shut w | kfree =>
    cases happly
    simp only [Effect.Locks, Prod.mk.injEq] at hlocks
    refine h.move hother ?_ (fun r _ => Iff.rfl) ?_ (fun r _ => Iff.rfl)
    · show s.lock = some q ↔ ((s.goto q pc).pc q).holds = true
      rw [hself, hlock, hlocks.1.1, hlocks.2.1]
    · show s.ptable = some q ↔ ((s.goto q pc).pc q).falls = true
      rw [hself, hptable, hlocks.1.2, hlocks.2.2]

/-- The process is in user space, or at the first statement of a call. -/
def Pc.outside : Pc → Bool
  | .user | .write _ .acquire | .read _ .acquire | .close _ .acquire => true
  | _ => false

/-- What the events outside the code of the pipe do to the program points. -/
inductive Moves (s s' : State ι) : Prop
  /-- A process in user space enters a call, or stays. -/
  | enter (q : ι) (hq : s.pc q = .user) (hout : (s'.pc q).outside = true)
      (hr : ∀ r, r ≠ q → s'.pc r = s.pc r)
  /-- A process is woken. -/
  | awake (q : ι) (hq : s'.pc q = (s.pc q).awake) (hr : ∀ r, r ≠ q → s'.pc r = s.pc r)

/-- A process outside the critical sections holds no lock. -/
theorem Pc.locks_of_outside (h : pc.outside = true) : pc.holds = false ∧ pc.falls = false := by
  unfold Pc.outside at h
  split at h <;> first | exact ⟨rfl, rfl⟩ | cases h

/-- A process in user space is at no other program point. -/
theorem Proc.pc_of_inUser {p : Proc} (h : p.inUser) : p.pc = .user := by
  unfold Proc.inUser at h
  split at h
  · assumption
  · cases h

/-- An event outside the code of the pipe takes no lock and moves one process at most. -/
theorem step_moves (he : step s e = some s') (hrun : ∀ q, e ≠ .run q) :
    s'.pipe = s.pipe ∧ s'.lock = s.lock ∧ s'.ptable = s.ptable ∧ Moves s s' := by
  have hother : ∀ {q r : ι} {p : Proc}, r ≠ q → (update s.proc q p r).pc = s.pc r := by
    intro q r p hr
    rw [update_of_ne hr]
  cases e with
  | run q => exact absurd rfl (hrun q)
  | write q addr n | read q n =>
    obtain ⟨hg, ⟨⟩⟩ := Option.ite_none_right_eq_some.1 he
    exact ⟨rfl, rfl, rfl, .enter q (Proc.pc_of_inUser hg.1)
      (by simp [State.pc, State.goto, Pc.outside]) fun r hr => hother hr⟩
  | close q w =>
    obtain ⟨hg, ⟨⟩⟩ := Option.ite_none_right_eq_some.1 he
    refine ⟨rfl, rfl, rfl, .enter q (Proc.pc_of_inUser hg.1) ?_ fun r hr => hother hr⟩
    simp only [State.pc, State.close, update_self]
    split <;> rfl
  | dup q w =>
    obtain ⟨hg, ⟨⟩⟩ := Option.ite_none_right_eq_some.1 he
    have hpc := Proc.pc_of_inUser hg.1
    exact ⟨rfl, rfl, rfl, .enter q hpc (by simp [State.pc, State.dup, hpc, Pc.outside])
      fun r hr => hother hr⟩
  | fork q r =>
    obtain ⟨hg, ⟨⟩⟩ := Option.ite_none_right_eq_some.1 he
    have hpc := Proc.pc_of_inUser hg.2.2.1
    exact ⟨rfl, rfl, rfl, .enter r hpc (by simp [State.pc, State.fork, hpc, Pc.outside])
      fun r hr => hother hr⟩
  | kill r =>
    obtain ⟨-, ⟨⟩⟩ := Option.ite_none_right_eq_some.1 he
    exact ⟨rfl, rfl, rfl, .awake r (by simp [State.pc, State.kill]) fun r hr => hother hr⟩
  | reap r =>
    obtain ⟨hg, ⟨⟩⟩ := Option.ite_none_right_eq_some.1 he
    have hpc := Proc.pc_of_inUser hg.1
    exact ⟨rfl, rfl, rfl, .enter r hpc (by simp [State.pc, hpc, Pc.outside])
      fun r hr => hother hr⟩

/-- **The locks stay exclusive.** -/
theorem Excl.step (h : Excl s) (he : step s e = some s') : Excl s' := by
  by_cases hrun : ∃ q, e = .run q
  · obtain ⟨q, rfl⟩ := hrun
    exact h.run he
  obtain ⟨-, hl, hp, hmoves⟩ := step_moves he fun q hq => hrun ⟨q, hq⟩
  refine h.of_pcs hl hp fun r => ?_
  cases hmoves with
  | enter q hq hout hother =>
    by_cases hr : r = q
    · subst hr
      rw [(Pc.locks_of_outside hout).1, (Pc.locks_of_outside hout).2, hq]
      exact ⟨rfl, rfl⟩
    · rw [hother r hr]
      exact ⟨rfl, rfl⟩
  | awake q hq hother =>
    by_cases hr : r = q
    · subst hr
      rw [hq]
      exact ⟨Pc.holds_awake _, Pc.falls_awake _⟩
    · rw [hother r hr]
      exact ⟨rfl, rfl⟩

/-- The locks of a new pipe are free. -/
theorem excl_pipealloc (q : ι) (data : Nat → UInt8) : Excl (pipealloc q data) where
  lock := fun _ => by simp [pipealloc, Pc.holds]
  ptable := fun _ => by simp [pipealloc, Pc.falls]

end

/-! ## The lifetime of the page -/

/-- What a program point means for the lifetime of the pipe. -/
inductive Life where
  | idle
  /-- In a call that uses the end `w`. -/
  | uses (w : Bool)
  /-- In `pipeclose`, before the end `w` is marked closed. -/
  | closing (w : Bool)
  /-- In `pipeclose`, before its `release`. -/
  | ending
  /-- In `pipeclose`, at its `kfree`. -/
  | freeing
  deriving DecidableEq, Repr

/-- What a program point means for the lifetime of the pipe. -/
def Pc.life : Pc → Life
  | .user => .idle
  | .write _ _ => .uses true
  | .read _ _ => .uses false
  | .close w .acquire | .close w .shut => .closing w
  | .close _ .wake | .close _ .release => .ending
  | .close _ .kfree => .freeing

/-- A process that wakes up is in the call it was in. -/
theorem Pc.life_awake (pc : Pc) : pc.awake.life = pc.life := by
  unfold Pc.awake
  split <;> rfl

/-- A process that ends its `pipeclose` holds `p->lock`. -/
theorem Pc.holds_of_ending (h : pc.life = .ending) : pc.holds = true := by
  cases pc with
  | close w l => cases l <;> simp_all [Pc.life, Pc.holds]
  | user | write c l | read n l => cases h

/-- Both ends of the pipe are closed. -/
def Pipe.closed (p : Pipe) : Prop := ∀ w, p.isOpen w = false

/-- What the effect of a statement does to the life of its process. -/
def Effect.Lives (p : Pipe) : Effect → Life → Life → Prop
  | .shut w, a, b => a = .closing w ∧ b = .ending
  | .kfree, a, b => a = .freeing ∧ b = .idle
  | .release _, a, b =>
    (∃ w, a = .uses w ∧ b = .idle) ∨ (a = .ending ∧ b = .idle ∧ ¬p.closed) ∨
      (a = .ending ∧ b = .freeing ∧ p.closed)
  | _, a, b => b = a

/-- How the statements of the code change the life of their process. -/
theorem Pc.next_lives {p : Pipe} {killed : Bool} {pc' : Pc} {e : Effect}
    (h : pc.next p killed = some (e, pc')) : e.Lives p pc.life pc'.life := by
  cases pc with
  | user => cases h
  | write c l =>
    cases l with
    | asleep i => cases h
    | whileTest i =>
      simp only [Pc.next, WPc.next] at h
      split at h <;> cases h <;> rfl
    | check i =>
      simp only [Pc.next, WPc.next] at h
      split at h <;> cases h
      · exact Or.inl ⟨true, rfl, rfl⟩
      · rfl
    | forTest i =>
      cases h
      split <;> rfl
    | release =>
      cases h
      exact Or.inl ⟨true, rfl, rfl⟩
    | acquire | wake i | sleep i | fall i | reacquire i | wakeLast =>
      cases h
      rfl
  | read n l =>
    cases l with
    | asleep => cases h
    | copy i =>
      simp only [Pc.next, RPc.next] at h
      split at h <;> cases h <;> rfl
    | check =>
      simp only [Pc.next, RPc.next] at h
      split at h <;> cases h
      · exact Or.inl ⟨false, rfl, rfl⟩
      · rfl
    | release i =>
      cases h
      exact Or.inl ⟨false, rfl, rfl⟩
    | whileTest =>
      cases h
      split <;> rfl
    | acquire | sleep | fall | reacquire | wake i =>
      cases h
      rfl
  | close w l =>
    cases l with
    | release =>
      cases h
      refine Or.inr ?_
      split
      · next hc =>
        refine Or.inr ⟨rfl, rfl, fun w => ?_⟩
        simp only [Bool.and_eq_true, Bool.not_eq_true'] at hc
        cases w
        · exact hc.1
        · exact hc.2
      · next hc =>
        refine Or.inl ⟨rfl, rfl, fun hclosed => hc ?_⟩
        have ht : p.writeopen = false := hclosed true
        have hf : p.readopen = false := hclosed false
        rw [ht, hf]
        rfl
    | shut | kfree =>
      cases h
      exact ⟨rfl, rfl⟩
    | acquire | wake =>
      cases h
      rfl

section
variable {ι : Type} [Fintype ι] {e : Event ι} {s s' : State ι} {q : ι} {w : Bool}

/-- The page of the pipe lives as long as it is needed, and is freed once. -/
structure Live (s : State ι) : Prop where
  refs : ∀ w, s.ref w = ∑ q, (s.proc q).fd w
  uses : ∀ q w, (s.pc q).life = .uses w → 0 < (s.proc q).fd w
  /-- An end is open while a descriptor names it or its last one is being closed. -/
  opened : ∀ w, s.pipe.isOpen w = true ↔ 0 < s.ref w ∨ ∃ q, (s.pc q).life = .closing w
  closing : ∀ q w, (s.pc q).life = .closing w →
    s.ref w = 0 ∧ ∀ r, (s.pc r).life = .closing w → r = q
  /-- Once the page is freed, or about to be, nobody can come to use it. -/
  gone : (0 < s.freed ∨ ∃ q, (s.pc q).life = .freeing) →
    s.pipe.closed ∧ ∀ q, (s.pc q).life = .idle ∨ (s.pc q).life = .freeing
  freeing : ∀ q, (s.pc q).life = .freeing →
    s.freed = 0 ∧ ∀ r, (s.pc r).life = .freeing → r = q
  once : s.freed ≤ 1
  /-- Once both ends are closed, the page is freed or about to be. -/
  whole : s.pipe.closed →
    s.freed = 1 ∨ ∃ q, (s.pc q).life = .freeing ∨ (s.pc q).life = .ending

/-- A step that changes no life, descriptor or end. -/
theorem Live.of_lives (h : Live s) (hopen : ∀ w, s'.pipe.isOpen w = s.pipe.isOpen w)
    (href : s'.ref = s.ref) (hfreed : s'.freed = s.freed)
    (hfd : ∀ q, (s'.proc q).fd = (s.proc q).fd) (hlife : ∀ q, (s'.pc q).life = (s.pc q).life) :
    Live s' := by
  have hclosed : s'.pipe.closed ↔ s.pipe.closed := by simp only [Pipe.closed, hopen]
  constructor
  · simpa only [href, hfd] using h.refs
  · simpa only [hfd, hlife] using h.uses
  · simpa only [hopen, href, hlife] using h.opened
  · simpa only [href, hlife] using h.closing
  · simpa only [hfreed, hlife, hclosed] using h.gone
  · simpa only [hfreed, hlife] using h.freeing
  · simpa only [hfreed] using h.once
  · simpa only [hfreed, hlife, hclosed] using h.whole

/-- A descriptor keeps its end open. -/
theorem Live.open_of_fd (h : Live s) (hfd : 0 < (s.proc q).fd w) :
    0 < s.ref w ∧ s.pipe.isOpen w = true := by
  have href : 0 < s.ref w := by
    rw [h.refs w]
    exact lt_of_lt_of_le hfd
      (Finset.single_le_sum (f := fun r => (s.proc r).fd w) (fun _ _ => Nat.zero_le _)
        (Finset.mem_univ q))
  exact ⟨href, (h.opened w).2 (Or.inl href)⟩

/-- While an end is open the page is not freed, nor about to be. -/
theorem Live.not_gone (h : Live s) (hopen : s.pipe.isOpen w = true) :
    s.freed = 0 ∧ ∀ q, (s.pc q).life ≠ .freeing := by
  have hno : ¬(0 < s.freed ∨ ∃ q, (s.pc q).life = .freeing) := fun hgone => by
    have := (h.gone hgone).1 w
    rw [hopen] at this
    cases this
  exact ⟨by omega, fun q hq => hno (Or.inr ⟨q, hq⟩)⟩

/-- While a process is in the middle of a call the page is not freed, nor about to be. -/
theorem Live.not_gone_of_life (h : Live s) (hidle : (s.pc q).life ≠ .idle)
    (hfreeing : (s.pc q).life ≠ .freeing) : s.freed = 0 ∧ ∀ r, (s.pc r).life ≠ .freeing := by
  have hno : ¬(0 < s.freed ∨ ∃ q, (s.pc q).life = .freeing) := fun hgone =>
    ((h.gone hgone).2 q).elim hidle hfreeing
  exact ⟨by omega, fun r hr => hno (Or.inr ⟨r, hr⟩)⟩

/-- The process `q` comes to life `b`, and no descriptor changes. -/
structure Relives (s s' : State ι) (q : ι) (b : Life) : Prop where
  ref : s'.ref = s.ref
  fd : ∀ r, (s'.proc r).fd = (s.proc r).fd
  others : ∀ r, r ≠ q → (s'.pc r).life = (s.pc r).life
  self : (s'.pc q).life = b

omit [Fintype ι] in
theorem Relives.cases {b : Life} (h : Relives s s' q b) (r : ι) :
    r = q ∧ (s'.pc r).life = b ∨ r ≠ q ∧ (s'.pc r).life = (s.pc r).life := by
  by_cases hr : r = q
  · exact .inl ⟨hr, hr ▸ h.self⟩
  · exact .inr ⟨hr, h.others r hr⟩

/-- A process leaves its call: it was using the pipe, or some end is still open. -/
theorem Live.leave (h : Live s) (hq : Relives s s' q .idle)
    (hpipe : s'.pipe = s.pipe) (hfreed : s'.freed = s.freed)
    (hold : (∃ w, (s.pc q).life = .uses w) ∨ ((s.pc q).life = .ending ∧ ¬s.pipe.closed)) :
    Live s' := by
  have hr := hq.cases
  obtain ⟨href, hfd, -, hq⟩ := hq
  obtain ⟨refs, uses, opened, closing, gone, freeing, once, whole⟩ := h
  have hclosing : ∀ r w, (s'.pc r).life = .closing w ↔ (s.pc r).life = .closing w := by grind
  constructor <;> simp only [hclosing, hpipe, href, hfreed, hfd]
  · exact refs
  · grind
  · exact opened
  · exact closing
  · grind
  · grind
  · grind
  · grind

/-- A process finds both ends closed, and is going to free the page. -/
theorem Live.free (h : Live s) (hq : Relives s s' q .freeing)
    (hpipe : s'.pipe = s.pipe) (hfreed : s'.freed = s.freed)
    (hold : (s.pc q).life = .ending) (hclosed : s.pipe.closed)
    (hexcl : ∀ r, (s.pc r).life = .ending → r = q) : Live s' := by
  have hno := h.not_gone_of_life (q := q) (by simp [hold]) (by simp [hold])
  -- nobody has a descriptor, closes an end or ends a `pipeclose`
  have hidle : ∀ r, r ≠ q → (s.pc r).life = .idle := by
    intro r hne
    cases hlife : (s.pc r).life with
    | idle => rfl
    | uses w =>
      have := (h.open_of_fd (h.uses r w hlife)).2
      rw [hclosed w] at this
      cases this
    | closing w =>
      have := (h.opened w).2 (Or.inr ⟨r, hlife⟩)
      rw [hclosed w] at this
      cases this
    | ending => exact absurd (hexcl r hlife) hne
    | freeing => exact absurd hlife (hno.2 r)
  have hr := hq.cases
  obtain ⟨href, hfd, -, hq⟩ := hq
  obtain ⟨refs, uses, opened, closing, gone, freeing, once, whole⟩ := h
  have hclosing : ∀ r w, (s'.pc r).life = .closing w ↔ (s.pc r).life = .closing w := by grind
  constructor <;> simp only [hclosing, hpipe, href, hfreed, hfd]
  · exact refs
  · grind
  · exact opened
  · exact closing
  · exact fun _ => ⟨hclosed, by grind⟩
  · grind
  · grind
  · exact fun _ => .inr ⟨q, .inl hq⟩

/-- A process marks the end `w` closed. -/
theorem Live.shut (h : Live s) (hq : Relives s s' q .ending)
    (hpipe : s'.pipe = s.pipe.shut w) (hfreed : s'.freed = s.freed)
    (hold : (s.pc q).life = .closing w) : Live s' := by
  have hr := hq.cases
  obtain ⟨href, hfd, -, hq⟩ := hq
  obtain ⟨refs, uses, opened, closing, gone, freeing, once, whole⟩ := h
  constructor <;> simp only [hpipe, href, hfreed, hfd]
  · exact refs
  · grind
  · grind [Pipe.isOpen_shut]
  · grind
  · grind
  · grind
  · grind
  · exact fun _ => .inr ⟨q, .inr hq⟩

/-- A process frees the page. -/
theorem Live.kfree (h : Live s) (hq : Relives s s' q .idle)
    (hpipe : s'.pipe = s.pipe) (hfreed : s'.freed = s.freed + 1)
    (hold : (s.pc q).life = .freeing) : Live s' := by
  obtain ⟨h0, huniq⟩ := h.freeing q hold
  have hr := hq.cases
  obtain ⟨href, hfd, -, hq⟩ := hq
  obtain ⟨refs, uses, opened, closing, gone, freeing, once, whole⟩ := h
  have hidle : ∀ r, (s'.pc r).life = .idle := by grind
  have hclosing : ∀ w, ¬ ∃ r, (s.pc r).life = .closing w := by grind
  constructor <;> simp only [hidle, hpipe, href, hfreed, hfd]
  · exact refs
  · grind
  · intro w
    simpa [hclosing w] using opened w
  · grind
  · grind
  · grind
  · omega
  · grind

/-- A process enters a call on an end it has a descriptor of. -/
theorem Live.enter (h : Live s) (hq : Relives s s' q (.uses w))
    (hpipe : s'.pipe = s.pipe) (hfreed : s'.freed = s.freed)
    (hold : (s.pc q).life = .idle) (hpos : 0 < (s.proc q).fd w) : Live s' := by
  have hopen := (h.open_of_fd hpos).2
  have hno := h.not_gone hopen
  have hr := hq.cases
  obtain ⟨href, hfd, -, hq⟩ := hq
  obtain ⟨refs, uses, opened, closing, gone, freeing, once, whole⟩ := h
  have hclosing : ∀ r v, (s'.pc r).life = .closing v ↔ (s.pc r).life = .closing v := by grind
  constructor <;> simp only [hclosing, hpipe, href, hfreed, hfd]
  · exact refs
  · grind
  · exact opened
  · exact closing
  · grind
  · grind
  · grind
  · exact fun hclosed => absurd (hclosed w) (by simp [hopen])

/-- Descriptors come and go, but no end gains its first or loses its last. -/
theorem Live.of_fds (h : Live s) (hpipe : s'.pipe = s.pipe)
    (hfreed : s'.freed = s.freed) (hlife : ∀ q, (s'.pc q).life = (s.pc q).life)
    (hrefs : ∀ w, s'.ref w = ∑ q, (s'.proc q).fd w)
    (huses : ∀ q w, (s.pc q).life = .uses w → (s'.proc q).fd = (s.proc q).fd)
    (hpos : ∀ w, 0 < s'.ref w ↔ 0 < s.ref w) : Live s' := by
  constructor
  · exact hrefs
  · intro q w hq
    rw [hlife] at hq
    rw [huses q w hq]
    exact h.uses q w hq
  · intro w
    rw [hpipe, h.opened w, hpos w]
    simp only [hlife]
  · intro q w hq
    rw [hlife] at hq
    obtain ⟨h0, huniq⟩ := h.closing q w hq
    have hno := hpos w
    refine ⟨by omega, fun r hr => huniq r ?_⟩
    rwa [hlife] at hr
  · simpa only [hfreed, hlife, hpipe] using h.gone
  · simpa only [hfreed, hlife] using h.freeing
  · simpa only [hfreed] using h.once
  · simpa only [hfreed, hlife, hpipe] using h.whole

/-- A process closes the last descriptor of the end `w`. -/
theorem Live.last (h : Live s) (hpipe : s'.pipe = s.pipe) (hfreed : s'.freed = s.freed)
    (hr : ∀ r, r ≠ q → (s'.pc r).life = (s.pc r).life ∧ (s'.proc r).fd = (s.proc r).fd)
    (hold : (s.pc q).life = .idle) (hq : (s'.pc q).life = .closing w)
    (hrefs : ∀ w, s'.ref w = ∑ q, (s'.proc q).fd w) (hsome : 0 < s.ref w) (hlast : s'.ref w = 0)
    (hother : ∀ v, v ≠ w → s'.ref v = s.ref v) : Live s' := by
  have hopen : s.pipe.isOpen w = true := (h.opened w).2 (Or.inl hsome)
  have hno := h.not_gone hopen
  have hr : ∀ r, r = q ∧ (s'.pc r).life = .closing w ∨
      r ≠ q ∧ (s'.pc r).life = (s.pc r).life ∧ (s'.proc r).fd = (s.proc r).fd := by grind
  obtain ⟨refs, uses, opened, closing, gone, freeing, once, whole⟩ := h
  have hclosing : ∀ v ≠ w, ∀ r, (s'.pc r).life = .closing v ↔ (s.pc r).life = .closing v := by grind
  refine ⟨hrefs, by grind, fun v => ?_, by grind, by grind, by grind, by grind, ?_⟩
  · rw [hpipe]
    by_cases hv : v = w
    · grind
    · simpa only [hclosing v hv, hother v hv] using opened v
  · grind

variable [DecidableEq ι]

/-- The number of descriptors when the descriptors of one process change. -/
theorem sum_fd_update (f : ι → Proc) (q : ι) (p : Proc) (w : Bool) :
    ∑ r, (update f q p r).fd w + (f q).fd w = ∑ r, (f r).fd w + p.fd w := by
  have hupd : (fun r => (update f q p r).fd w) =
      update (fun r => (f r).fd w) q (p.fd w) := by
    funext r
    by_cases hr : r = q
    · subst hr
      simp
    · simp [hr]
  rw [hupd, Finset.sum_update_of_mem (Finset.mem_univ q),
    Finset.sum_eq_add_sum_sdiff_singleton_of_mem (Finset.mem_univ q) (fun r => (f r).fd w)]
  omega

/-- Any statement of any process keeps the page alive while it is needed. -/
theorem Live.run (h : Live s) (hexcl : Excl s) (he : step s (.run q) = some s') : Live s' := by
  obtain ⟨e, pc, hnext, happly⟩ := step_run he
  have hlives := Pc.next_lives hnext
  have hr : ∀ r, r ≠ q → ((s.goto q pc).pc r).life = (s.pc r).life := fun r hr => by
    rw [State.pc_goto, if_neg hr]
  have hself : ((s.goto q pc).pc q).life = pc.life := by rw [State.pc_goto, if_pos rfl]
  have hfd : ∀ r, ((s.goto q pc).proc r).fd = (s.proc r).fd := by
    intro r
    by_cases hne : r = q
    · subst hne
      simp
    · simp [hne]
  have hgoto : pc.life = (s.pc q).life → Live (s.goto q pc) := by
    refine fun hsame => h.of_lives (fun _ => rfl) rfl rfl hfd fun r => ?_
    by_cases hne : r = q
    · rw [hne, hself, hsame]
    · exact hr r hne
  cases e with
  | shut w =>
    cases happly
    exact h.shut ⟨rfl, hfd, hr, hself.trans hlives.2⟩ rfl rfl hlives.1
  | kfree =>
    cases happly
    exact h.kfree ⟨rfl, hfd, hr, hself.trans hlives.2⟩ rfl rfl hlives.1
  | release v =>
    cases happly
    rcases hlives with ⟨w, hold, hnew⟩ | ⟨hold, hnew, hopen⟩ | ⟨hold, hnew, hclosed⟩
    · exact h.leave ⟨rfl, hfd, hr, hself.trans hnew⟩ rfl rfl (Or.inl ⟨w, hold⟩)
    · exact h.leave ⟨rfl, hfd, hr, hself.trans hnew⟩ rfl rfl (Or.inr ⟨hold, hopen⟩)
    · exact h.free ⟨rfl, hfd, hr, hself.trans hnew⟩ rfl rfl hold hclosed fun r hend =>
        hexcl.eq_of_holds (Pc.holds_of_ending hend) (Pc.holds_of_ending hold)
  | wakeup ch =>
    obtain ⟨-, ⟨⟩⟩ := Option.ite_none_right_eq_some.1 happly
    refine (hgoto hlives).of_lives (fun _ => rfl) rfl rfl (fun r => ?_) fun r => ?_
    · simp only [State.wakeup_proc]
      split <;> rfl
    · rw [State.pc_wakeup]
      split
      · exact Pc.life_awake _
      · rfl
  | acquire | sleep =>
    obtain ⟨-, ⟨⟩⟩ := Option.ite_none_right_eq_some.1 happly
    exact (hgoto hlives).of_lives (fun _ => rfl) rfl rfl (fun _ => rfl) fun _ => rfl
  | none | sched | put id b | take =>
    cases happly
    exact (hgoto hlives).of_lives (fun _ => rfl) rfl rfl (fun _ => rfl) fun _ => rfl

/-- A process closes a descriptor. -/
theorem Live.close (h : Live s) (hq : (s.pc q).life = .idle)
    (hpos : 0 < (s.proc q).fd w) : Live (s.close q w) := by
  have href := (h.open_of_fd hpos).1
  have hrefs : ∀ v, (s.close q w).ref v = ∑ r, ((s.close q w).proc r).fd v := by
    intro v
    have hsum := sum_fd_update s.proc q ((s.close q w).proc q) v
    have hproc : update s.proc q ((s.close q w).proc q) = (s.close q w).proc := by
      simp [State.close]
    rw [hproc, ← h.refs v] at hsum
    by_cases hv : v = w
    · subst hv
      simp only [State.close, update_self] at hsum ⊢
      omega
    · simp only [State.close, update_self, update_of_ne hv] at hsum ⊢
      omega
  have hr : ∀ r, r ≠ q → (s.close q w).proc r = s.proc r := fun r hr => by
    simp [State.close, hr]
  by_cases hlast : s.ref w - 1 > 0
  · have hpc : ((s.close q w).pc q).life = .idle := by
      simp [State.close, State.pc, hlast, Pc.life]
    refine h.of_fds rfl rfl (fun r => ?_) hrefs (fun r v hv => ?_) fun v => ?_
    · by_cases hne : r = q
      · rw [hne, hpc, hq]
      · simp only [State.pc, hr r hne]
    · have hne : r ≠ q := by
        rintro rfl
        rw [hq] at hv
        cases hv
      rw [hr r hne]
    · by_cases hv : v = w
      · subst hv
        simp only [State.close, update_self]
        omega
      · simp only [State.close, update_of_ne hv]
  · refine h.last rfl rfl (fun r hne => ?_) hq ?_ hrefs href ?_ fun v hv => ?_
    · simp only [State.pc, hr r hne, and_self]
    · simp [State.close, State.pc, hlast, Pc.life]
    · simp only [State.close, update_self]
      omega
    · simp only [State.close, update_of_ne hv]

/-- A process duplicates a descriptor. -/
theorem Live.dup (h : Live s) (hq : (s.pc q).life = .idle)
    (hpos : 0 < (s.proc q).fd w) : Live (s.dup q w) := by
  have href := (h.open_of_fd hpos).1
  refine h.of_fds rfl rfl (fun r => ?_) (fun v => ?_) (fun r v hv => ?_) fun v => ?_
  · by_cases hne : r = q
    · subst hne
      simp [State.dup, State.pc]
    · simp [State.dup, State.pc, hne]
  · have hsum := sum_fd_update s.proc q ((s.dup q w).proc q) v
    have hproc : update s.proc q ((s.dup q w).proc q) = (s.dup q w).proc := by
      simp [State.dup]
    rw [hproc, ← h.refs v] at hsum
    by_cases hv : v = w
    · subst hv
      simp only [State.dup, update_self] at hsum ⊢
      omega
    · simp only [State.dup, update_self, update_of_ne hv] at hsum ⊢
      omega
  · have hne : r ≠ q := by
      rintro rfl
      rw [hq] at hv
      cases hv
    simp [State.dup, hne]
  · by_cases hv : v = w
    · subst hv
      simp only [State.dup, update_self]
      omega
    · simp only [State.dup, update_of_ne hv]

/-- A process forks into a slot without descriptors. -/
theorem Live.fork (h : Live s) {r : ι} (hr : (s.pc r).life = .idle)
    (hfd : (s.proc r).noFd) : Live (s.fork q r) := by
  have hzero : ∀ v, (s.proc r).fd v = 0 := by
    intro v
    cases v
    · exact hfd.2
    · exact hfd.1
  refine h.of_fds rfl rfl (fun p => ?_) (fun v => ?_) (fun p v hv => ?_) fun v => ?_
  · by_cases hne : p = r
    · subst hne
      simp [State.fork, State.pc]
    · simp [State.fork, State.pc, hne]
  · have hsum := sum_fd_update s.proc r ((s.fork q r).proc r) v
    have hproc : update s.proc r ((s.fork q r).proc r) = (s.fork q r).proc := by
      simp [State.fork]
    rw [hproc, ← h.refs v, hzero v] at hsum
    simp only [State.fork, update_self] at hsum ⊢
    omega
  · have hne : p ≠ r := by
      rintro rfl
      rw [hr] at hv
      cases hv
    simp [State.fork, hne]
  · show 0 < s.ref v + (s.proc q).fd v ↔ 0 < s.ref v
    have := fun hpos : 0 < (s.proc q).fd v => (h.open_of_fd hpos).1
    omega

/-- **The page of the pipe is alive while it is needed.** -/
theorem Live.step (h : Live s) (hexcl : Excl s) (he : step s e = some s') : Live s' := by
  have hidle : ∀ {q}, (s.proc q).inUser → (s.pc q).life = .idle := fun hq => by
    rw [State.pc, Proc.pc_of_inUser hq]
    rfl
  cases e with
  | run q => exact h.run hexcl he
  | write q addr n | read q n =>
    obtain ⟨hg, ⟨⟩⟩ := Option.ite_none_right_eq_some.1 he
    refine h.enter (q := q) ⟨rfl, fun r => ?_, fun r hr => ?_, ?_⟩ rfl rfl (hidle hg.1) hg.2.1
    · by_cases hr : r = q
      · subst hr
        simp
      · simp [hr]
    · simp [State.pc, hr]
    · simp [State.pc, Pc.life]
  | close q w =>
    obtain ⟨hg, ⟨⟩⟩ := Option.ite_none_right_eq_some.1 he
    exact h.close (hidle hg.1) hg.2
  | dup q w =>
    obtain ⟨hg, ⟨⟩⟩ := Option.ite_none_right_eq_some.1 he
    exact h.dup (hidle hg.1) hg.2.1
  | fork q r =>
    obtain ⟨hg, ⟨⟩⟩ := Option.ite_none_right_eq_some.1 he
    exact h.fork (hidle hg.2.2.1) hg.2.2.2
  | kill r =>
    obtain ⟨-, ⟨⟩⟩ := Option.ite_none_right_eq_some.1 he
    refine h.of_lives (fun _ => rfl) rfl rfl (fun q => ?_) fun q => ?_ <;> by_cases hq : q = r
    · subst hq
      simp [State.kill]
    · simp [State.kill, hq]
    · subst hq
      simp [State.kill, State.pc, Pc.life_awake]
    · simp [State.kill, State.pc, hq]
  | reap r =>
    obtain ⟨-, ⟨⟩⟩ := Option.ite_none_right_eq_some.1 he
    refine h.of_lives (fun _ => rfl) rfl rfl (fun q => ?_) fun q => ?_ <;> by_cases hq : q = r
    · subst hq
      simp
    · simp [hq]
    · subst hq
      simp [State.pc]
    · simp [State.pc, hq]

/-- A new pipe has one descriptor for each end. -/
theorem live_pipealloc (q : ι) (data : Nat → UInt8) : Live (pipealloc q data) where
  refs := fun w => by simp [pipealloc]
  uses := fun _ _ hu => by cases hu
  opened := fun w => by cases w <;> simp [pipealloc, Pipe.isOpen]
  closing := fun _ _ hc => by cases hc
  gone := by
    rintro (hpos | ⟨r, hr⟩)
    · exact absurd hpos (Nat.lt_irrefl 0)
    · cases hr
  freeing := fun _ hf => by cases hf
  once := Nat.zero_le 1
  whole := fun hclosed => by cases hclosed true

end

end Dixv6.Pipes
