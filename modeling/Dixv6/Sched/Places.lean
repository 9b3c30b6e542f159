import Dixv6.Sched.Machine

/-!
# The places of a process

Two facts about a place carry every argument about the machine: whether the CPU there holds
`ptable.lock` (`holds`), and which state the process has there while a CPU is on its stack (`due`).
`Effect.spec` says how the effect of a statement and the two places around it go together; it is
read off the code once, in `Pos.next_spec`.
-/

namespace Dixv6.Sched

open Procs (ProcState)

/-! ## Places -/

section
variable {ι Λ : Type}

/-- The CPU holds `ptable.lock` at this place. -/
def Code.holds : Code ι → Bool
  | .body | .acquire _ => false
  | .wakeup1 _ | .release => true

@[inherit_doc Code.holds]
def SleepPc.holds : SleepPc → Bool
  | .acquire | .relock => false
  | _ => true

@[inherit_doc Code.holds]
def KillPc.holds : KillPc → Bool
  | .acquire => false
  | _ => true

@[inherit_doc Code.holds]
def ForkPc.holds : ForkPc ι → Bool
  | .alloc | .release _ => true
  | _ => false

@[inherit_doc Code.holds]
def ExitPc.holds : ExitPc → Bool
  | .acquire => false
  | _ => true

@[inherit_doc Code.holds]
def WaitPc.holds : WaitPc → Bool
  | .acquire => false
  | _ => true

@[inherit_doc Code.holds]
def Pc.holds : Pc ι Λ → Bool
  | .forkret => true
  | .user => false
  | .kern _ k => k.holds
  | .sleep _ _ _ l => l.holds
  | .kill _ l => l.holds
  | .fork l => l.holds
  | .exit l => l.holds
  | .wait l => l.holds

@[inherit_doc Code.holds]
def YieldPc.holds : YieldPc → Bool
  | .acquire => false
  | _ => true

@[inherit_doc Code.holds]
def Intr.holds : Intr ι → Bool
  | .code k => k.holds
  | .yield l => l.holds

@[inherit_doc Code.holds]
def Pos.holds (t : Pos ι Λ) : Bool :=
  match t.intr with
  | none => t.pc.holds
  | some k => k.holds

/-- The state of a process while a CPU is on its stack at this place. It is no longer `RUNNING`
just before `sched`. -/
def Pc.due : Pc ι Λ → ProcState
  | .sleep _ _ _ .sched => .SLEEPING
  | .wait .sched => .SLEEPING
  | .exit .sched => .ZOMBIE
  | _ => .RUNNING

@[inherit_doc Pc.due]
def Pos.due (t : Pos ι Λ) : ProcState :=
  match t.intr with
  | none => t.pc.due
  | some (.yield .sched) => .RUNNABLE
  | some _ => .RUNNING

/-- The slot a process in `fork` has taken and not yet made `RUNNABLE`. -/
def Pc.child : Pc ι Λ → Option ι
  | .fork (.release np) => np
  | .fork (.mem np) => some np
  | .fork (.ready np) => some np
  | _ => none

/-- The places at which `swtch` resumes a process. -/
def Pos.resumes (t : Pos ι Λ) : Bool :=
  match t.intr, t.pc with
  | none, .forkret => true
  | none, .sleep _ _ _ .tidy => true
  | none, .wait .tidy => true
  | some (.yield .release), _ => true
  | _, _ => false

/-- Interrupts come only where `ptable.lock` is not held. -/
def Pos.Ok (t : Pos ι Λ) : Prop := t.intr ≠ none → t.pc.holds = false

theorem Pc.due_of_free {pc : Pc ι Λ} (h : pc.holds = false) : pc.due = .RUNNING := by
  unfold Pc.due
  split <;> simp_all [Pc.holds, SleepPc.holds, WaitPc.holds, ExitPc.holds]

theorem Pos.due_of_free {t : Pos ι Λ} (h : t.holds = false) : t.due = .RUNNING := by
  unfold Pos.due
  split
  case h_1 hi =>
    rw [Pos.holds, hi] at h
    exact Pc.due_of_free h
  case h_2 hi =>
    rw [Pos.holds, hi] at h
    cases h
  case h_3 => rfl

/-- A process on a stack is `RUNNING`, or about to give the CPU up. -/
theorem Pos.due_cases (t : Pos ι Λ) :
    t.due = .RUNNING ∨ t.due = .SLEEPING ∨ t.due = .RUNNABLE ∨ t.due = .ZOMBIE := by
  unfold Pos.due Pc.due
  repeat' split
  all_goals simp

theorem Pos.resumes_holds {t : Pos ι Λ} (h : t.resumes) : t.holds = true := by
  unfold Pos.resumes at h
  split at h <;> simp_all [Pos.holds, Pc.holds, SleepPc.holds, WaitPc.holds, Intr.holds,
    YieldPc.holds]

theorem Pos.resumes_due {t : Pos ι Λ} (h : t.resumes) : t.due = .RUNNING := by
  unfold Pos.resumes at h
  split at h <;> simp_all [Pos.due, Pc.due]

end

/-! ## Statements and places -/

section
variable {n : Nat} {κ Λ : Type} {v : View n} {a : Act n Λ} {e : Effect n Λ}

/-- A statement that neither takes nor gives up `ptable.lock`, of a process that stays
`RUNNING`. -/
structure Stays (t t' : Pos (Fin n) Λ) : Prop where
  holds : t'.holds = t.holds
  due : t.due = .RUNNING
  due' : t'.due = .RUNNING

/-- A statement under `ptable.lock` after which the process has the state `s`. -/
structure Works (t t' : Pos (Fin n) Λ) (s : ProcState) : Prop where
  holds : t.holds = true
  holds' : t'.holds = true
  due : t.due = .RUNNING
  due' : t'.due = s

/-- How the effect of a statement of a process and the places before and after it go together. -/
def Effect.spec (v : View n) (t t' : Pos (Fin n) Λ) : Effect n Λ → Prop
  | .nop | .lockOther _ | .unlockOther _ => Stays t t' ∧ t'.pc.child = t.pc.child
  | .fault me | .tidy me => me = v.me ∧ Stays t t' ∧ t'.pc.child = t.pc.child
  | .enabled => t.holds = false → t'.holds = false ∧ t'.pc.child = t.pc.child
  | .lock =>
    t.holds = false ∧ t'.holds = true ∧ t'.due = .RUNNING ∧ t'.pc.child = t.pc.child
  | .unlock => t.due = .RUNNING ∧ t'.holds = false ∧ t'.pc.child = t.pc.child
  | .wakeup1 _ | .kill _ => Works t t' .RUNNING ∧ t'.pc.child = t.pc.child
  | .reap me q =>
    me = v.me ∧ v.zombie = some q ∧ Works t t' .RUNNING ∧ t'.pc.child = t.pc.child
  | .alloc np =>
    v.unused = some np ∧ Works t t' .RUNNING ∧ t.pc.child = none ∧ t'.pc.child = some np
  | .unalloc np | .ready np => Stays t t' ∧ t.pc.child = some np ∧ t'.pc.child = none
  | .adopt me np =>
    me = v.me ∧ Stays t t' ∧ t.pc.child = some np ∧ t'.pc.child = some np
  | .fall me _ => me = v.me ∧ Works t t' .SLEEPING ∧ t'.pc.child = t.pc.child
  | .giveup me => me = v.me ∧ Works t t' .RUNNABLE ∧ t'.pc.child = t.pc.child
  | .exit me => me = v.me ∧ Works t t' .ZOMBIE ∧ t'.pc.child = t.pc.child
  | .sched me =>
    me = v.me ∧ t.holds = true ∧ (t.due = .ZOMBIE ∨ t'.resumes) ∧ t'.pc.child = t.pc.child
  | .setproc _ | .load _ | .run _ | .enter _ | .unload | .clear => False

/-- The effects of kernel code outside of `proc.c`. -/
theorem Code.next_spec {k k' : Code (Fin n)} (h : k.next a = some (e, k')) :
    (e = .nop ∧ k'.holds = k.holds) ∨ (∃ l, e = .lockOther l ∧ k'.holds = k.holds) ∨
    (∃ l, e = .unlockOther l ∧ k'.holds = k.holds) ∨
    (e = .lock ∧ k.holds = false ∧ k'.holds = true) ∨
    (∃ ch, e = .wakeup1 ch ∧ k.holds = true ∧ k'.holds = true) ∨
    (e = .unlock ∧ k.holds = true ∧ k'.holds = false) := by
  cases k with
  | body =>
    simp only [Code.next] at h
    split at h <;> simp_all [Code.holds]
    all_goals (obtain ⟨rfl, rfl⟩ := h; simp)
  | acquire ch =>
    cases h
    simp [Code.holds]
  | wakeup1 ch =>
    cases h
    simp [Code.holds]
  | release =>
    cases h
    simp [Code.holds]

/-- Kernel code outside of `proc.c`, wherever it runs. -/
theorem Code.spec_of_next {k k' : Code (Fin n)} {t t' : Pos (Fin n) Λ}
    (h : k.next a = some (e, k')) (hk : t.holds = k.holds) (hk' : t'.holds = k'.holds)
    (hd : t.due = .RUNNING) (hd' : t'.due = .RUNNING) (hc : t'.pc.child = t.pc.child) :
    e.spec v t t' := by
  obtain ⟨rfl, hh⟩ | ⟨l, rfl, hh⟩ | ⟨l, rfl, hh⟩ | ⟨rfl, hh, hh'⟩ | ⟨ch, rfl, hh, hh'⟩ |
    ⟨rfl, hh, hh'⟩ := Code.next_spec h
  · exact ⟨⟨by rw [hk, hk', hh], hd, hd'⟩, hc⟩
  · exact ⟨⟨by rw [hk, hk', hh], hd, hd'⟩, hc⟩
  · exact ⟨⟨by rw [hk, hk', hh], hd, hd'⟩, hc⟩
  · exact ⟨hk.trans hh, hk'.trans hh', hd', hc⟩
  · exact ⟨⟨hk.trans hh, hk'.trans hh', hd, hd'⟩, hc⟩
  · exact ⟨hd, hk'.trans hh', hc⟩

theorem View.leave_eq {pc pc' : Pc (Fin n) Λ} (h : v.leave pc = some pc') :
    pc' = .kern true .body ∨ pc' = pc := by
  unfold View.leave at h
  split at h
  · grind
  · exact .inr (Option.some.inj h).symm

/-- The code of a process, statement by statement. -/
theorem Pc.next_spec {pc pc' : Pc (Fin n) Λ} (h : pc.next v a = some (e, pc')) :
    e.spec v ⟨pc, none⟩ ⟨pc', none⟩ := by
  cases pc with
  | forkret =>
    obtain ⟨rfl, rfl⟩ := h
    refine ⟨rfl, ?_, ?_⟩ <;> split <;> rfl
  | user =>
    simp only [Pc.next] at h
    split at h
    · obtain ⟨pc, hl, h⟩ := Option.map_eq_some_iff.1 h
      obtain ⟨rfl, rfl⟩ := Prod.mk.inj h
      rcases View.leave_eq hl with rfl | rfl <;> exact ⟨⟨rfl, rfl, rfl⟩, rfl⟩
    · split at h
      · cases h
      · cases h
        exact ⟨rfl, ⟨rfl, rfl, rfl⟩, rfl⟩
    · cases h
  | kern dying k =>
    have hcode : ∀ {k' : Code (Fin n)}, k.next a = some (e, k') →
        e.spec v ⟨.kern dying k, none⟩ ⟨.kern dying k', none⟩ :=
      fun h => Code.spec_of_next h rfl rfl rfl rfl rfl
    cases k with
    | body =>
      simp only [Pc.next] at h
      split at h
      · cases h
        exact ⟨⟨rfl, rfl, rfl⟩, rfl⟩
      · obtain ⟨pc, hl, h⟩ := Option.map_eq_some_iff.1 h
        obtain ⟨rfl, rfl⟩ := Prod.mk.inj h
        rcases View.leave_eq hl with rfl | rfl <;> exact ⟨⟨rfl, rfl, rfl⟩, rfl⟩
      · cases h
        exact ⟨⟨rfl, rfl, rfl⟩, rfl⟩
      · cases h
        exact ⟨⟨rfl, rfl, rfl⟩, rfl⟩
      · cases h
        exact ⟨⟨rfl, rfl, rfl⟩, rfl⟩
      · split at h
        · cases h
        · cases h
          exact ⟨⟨rfl, rfl, rfl⟩, rfl⟩
      · cases h
        exact ⟨⟨rfl, rfl, rfl⟩, rfl⟩
      · obtain ⟨⟨e', k'⟩, hk, h⟩ := Option.map_eq_some_iff.1 h
        obtain ⟨rfl, rfl⟩ := Prod.mk.inj h
        exact hcode hk
    | acquire ch | wakeup1 ch | release => grind [Pc.next, Option.map_eq_some_iff]
  | sleep dying ch lk l =>
    cases l with
    | acquire =>
      cases h
      exact ⟨rfl, rfl, rfl, rfl⟩
    | release =>
      cases h
      exact ⟨⟨rfl, rfl, rfl⟩, rfl⟩
    | fall =>
      cases h
      exact ⟨rfl, ⟨rfl, rfl, rfl, rfl⟩, rfl⟩
    | sched =>
      cases h
      exact ⟨rfl, rfl, .inr rfl, rfl⟩
    | tidy =>
      cases h
      exact ⟨rfl, ⟨rfl, rfl, rfl⟩, rfl⟩
    | unlock =>
      cases h
      exact ⟨rfl, rfl, rfl⟩
    | relock =>
      cases h
      exact ⟨⟨rfl, rfl, rfl⟩, rfl⟩
  | kill pid l =>
    cases l with
    | acquire =>
      cases h
      exact ⟨rfl, rfl, rfl, rfl⟩
    | mark =>
      cases h
      exact ⟨⟨rfl, rfl, rfl, rfl⟩, rfl⟩
    | release =>
      cases h
      exact ⟨rfl, rfl, rfl⟩
  | fork l =>
    simp only [Pc.next, Option.some.injEq] at h
    cases l with
    | acquire =>
      cases h
      exact ⟨rfl, rfl, rfl, rfl⟩
    | alloc =>
      cases hu : v.unused with
      | none =>
        simp only [ForkPc.next, hu, Prod.mk.injEq] at h
        obtain ⟨rfl, rfl⟩ := h
        exact ⟨⟨rfl, rfl, rfl⟩, rfl⟩
      | some np =>
        simp only [ForkPc.next, hu, Prod.mk.injEq] at h
        obtain ⟨rfl, rfl⟩ := h
        exact ⟨hu, ⟨rfl, rfl, rfl, rfl⟩, rfl, rfl⟩
    | release np =>
      cases np with
      | none =>
        cases h
        exact ⟨rfl, rfl, rfl⟩
      | some np =>
        cases h
        exact ⟨rfl, rfl, rfl⟩
    | mem np =>
      simp only [ForkPc.next] at h
      split at h
      · cases h
        exact ⟨⟨rfl, rfl, rfl⟩, rfl, rfl⟩
      · cases h
        exact ⟨rfl, ⟨rfl, rfl, rfl⟩, rfl, rfl⟩
    | ready np =>
      cases h
      exact ⟨⟨rfl, rfl, rfl⟩, rfl, rfl⟩
  | exit l =>
    cases l with
    | acquire =>
      cases h
      exact ⟨rfl, rfl, rfl, rfl⟩
    | body =>
      cases h
      exact ⟨rfl, ⟨rfl, rfl, rfl, rfl⟩, rfl⟩
    | sched =>
      cases h
      exact ⟨rfl, rfl, .inl rfl, rfl⟩
    | dead => cases h
  | wait l =>
    simp only [Pc.next, Option.some.injEq] at h
    cases l with
    | acquire =>
      cases h
      exact ⟨rfl, rfl, rfl, rfl⟩
    | scan =>
      cases hz : v.zombie with
      | none =>
        simp only [WaitPc.next, hz] at h
        split at h <;> cases h <;> exact ⟨⟨rfl, rfl, rfl⟩, rfl⟩
      | some q =>
        simp only [WaitPc.next, hz, Prod.mk.injEq] at h
        obtain ⟨rfl, rfl⟩ := h
        exact ⟨rfl, hz, ⟨rfl, rfl, rfl, rfl⟩, rfl⟩
    | release r =>
      cases h
      exact ⟨rfl, rfl, rfl⟩
    | fall =>
      cases h
      exact ⟨rfl, ⟨rfl, rfl, rfl, rfl⟩, rfl⟩
    | sched =>
      cases h
      exact ⟨rfl, rfl, .inr rfl, rfl⟩
    | tidy =>
      cases h
      exact ⟨rfl, ⟨rfl, rfl, rfl⟩, rfl⟩

theorem Pc.iret_eq {pc pc' : Pc (Fin n) Λ} (h : pc.iret v = some pc') :
    pc' = pc ∨ pc = .user ∧ pc' = .kern true .body := by
  unfold Pc.iret at h
  split at h
  · exact (View.leave_eq h).elim (fun h => .inr ⟨rfl, h⟩) .inl
  · exact .inl (Option.some.inj h).symm

/-- The end of an interrupt leads to a place without the lock. -/
theorem Pc.iret_spec {pc pc' : Pc (Fin n) Λ} (h : pc.iret v = some pc') (hf : pc.holds = false) :
    pc'.holds = false ∧ pc'.child = pc.child := by
  rcases Pc.iret_eq h with rfl | ⟨rfl, rfl⟩
  · exact ⟨hf, rfl⟩
  · exact ⟨rfl, rfl⟩

/-- The code of a process with its interrupts. -/
theorem Pos.next_spec {t t' : Pos (Fin n) Λ} (ht : t.Ok) (h : t.next v a = some (e, t')) :
    e.spec v t t' := by
  obtain ⟨pc, i⟩ := t
  cases i with
  | none =>
    simp only [Pos.next] at h
    split at h
    · cases h
      exact fun _ => ⟨rfl, rfl⟩
    · obtain ⟨⟨e', pc'⟩, hpc, h⟩ := Option.map_eq_some_iff.1 h
      obtain ⟨rfl, rfl⟩ := Prod.mk.inj h
      exact Pc.next_spec hpc
  | some i =>
    have hf : pc.holds = false := ht (by simp)
    have hcode : ∀ {k k' : Code (Fin n)}, k.next a = some (e, k') →
        e.spec v ⟨pc, some (.code k)⟩ ⟨pc, some (.code k')⟩ :=
      fun h => Code.spec_of_next h rfl rfl rfl rfl rfl
    cases i with
    | code k =>
      cases k with
      | body =>
        simp only [Pos.next] at h
        split at h
        · obtain ⟨pc', hpc, h⟩ := Option.map_eq_some_iff.1 h
          obtain ⟨rfl, rfl⟩ := Prod.mk.inj h
          exact fun _ => Pc.iret_spec hpc hf
        · split at h
          · obtain ⟨pc', hpc, h⟩ := Option.map_eq_some_iff.1 h
            obtain ⟨rfl, rfl⟩ := Prod.mk.inj h
            exact fun _ => Pc.iret_spec hpc hf
          · cases h
            exact fun _ => ⟨rfl, rfl⟩
        · obtain ⟨⟨e', k'⟩, hk, h⟩ := Option.map_eq_some_iff.1 h
          obtain ⟨rfl, rfl⟩ := Prod.mk.inj h
          exact hcode hk
      | acquire ch | wakeup1 ch | release =>
        simp only [Pos.next, Option.map_eq_some_iff] at h
        obtain ⟨⟨e', k'⟩, hk, h⟩ := h
        obtain ⟨rfl, rfl⟩ := Prod.mk.inj h
        exact hcode hk
    | yield l =>
      cases l with
      | acquire =>
        cases h
        exact ⟨rfl, rfl, rfl, rfl⟩
      | set =>
        cases h
        exact ⟨rfl, ⟨rfl, rfl, rfl, rfl⟩, rfl⟩
      | sched =>
        cases h
        exact ⟨rfl, rfl, .inr rfl, rfl⟩
      | release =>
        obtain ⟨pc', hpc, h⟩ := Option.map_eq_some_iff.1 h
        obtain ⟨rfl, rfl⟩ := Prod.mk.inj h
        exact ⟨rfl, Pc.iret_spec hpc hf⟩

/-- A place reached with the lock free is one an interrupt may come to. -/
theorem Pos.next_ok {t t' : Pos (Fin n) Λ} (ht : t.Ok) (h : t.next v a = some (e, t'))
    (hf : e = .enabled → t.holds = false) : t'.Ok := by
  obtain ⟨pc, i⟩ := t
  cases i with
  | none =>
    simp only [Pos.next] at h
    split at h
    · cases h
      exact fun _ => hf rfl
    · obtain ⟨r, -, h⟩ := Option.map_eq_some_iff.1 h
      obtain ⟨rfl, rfl⟩ := Prod.mk.inj h
      exact fun h => absurd rfl h
  | some i =>
    have hpc : pc.holds = false := ht (by simp)
    -- the handler stays where it was called, or ends
    have : t'.pc = pc ∨ t'.intr = none := by
      unfold Pos.next at h
      repeat' split at h
      all_goals first
        | (obtain ⟨r, -, h⟩ := Option.map_eq_some_iff.1 h
           obtain ⟨rfl, rfl⟩ := Prod.mk.inj h
           simp_all)
        | (cases h; simp)
    rcases this with h | h
    · exact fun _ => h ▸ hpc
    · exact fun h' => absurd h h'

end

end Dixv6.Sched
