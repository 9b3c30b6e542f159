import Mathlib.Data.Option.Basic

/-!
# Systems that move by labelled steps

A system has initial states and a step function that says, for a label, which state comes next, if
the step can be taken. `run` takes a list of steps, `Reach` is what can be reached; an invariant is
what the initial states have and every step keeps (`Reach.inv`). `Via` is what can be reached by steps
that all meet a condition. `run_first` finds, in a run that
leads from a state with a property to one without it, the step that loses it.
-/

namespace Dixv6.Lib

/-- A system of labelled steps. -/
structure Lts (σ α : Type*) where
  init : σ → Prop
  /-- The state after a step, if the step can be taken. -/
  step : σ → α → Option σ

namespace Lts

section
variable {σ α : Type*} {T : Lts σ α} {s s' s'' : σ} {a : α} {l l' : List α}

/-- The state after some steps, one after the other. -/
def run (T : Lts σ α) (s : σ) : List α → Option σ
  | [] => some s
  | a :: l => (T.step s a).bind fun s' => T.run s' l

/-- The states that can be reached. -/
inductive Reach (T : Lts σ α) : σ → Prop
  | init {s : σ} (h : T.init s) : Reach T s
  | step {s s' : σ} {a : α} (h : Reach T s) (ha : T.step s a = some s') : Reach T s'

/-- **The rule of invariants.** -/
theorem Reach.inv {I : σ → Prop} (hinit : ∀ s, T.init s → I s)
    (hstep : ∀ s a s', I s → T.step s a = some s' → I s') (h : T.Reach s) : I s := by
  induction h with
  | init h => exact hinit _ h
  | step _ ha ih => exact hstep _ _ _ ih ha

/-- The states that can be reached by steps that all meet a condition. -/
inductive Via (T : Lts σ α) (ok : σ → α → Prop) : σ → Prop
  | init {s : σ} (h : T.init s) : Via T ok s
  | step {s s' : σ} {a : α} (h : Via T ok s) (hok : ok s a) (ha : T.step s a = some s') : Via T ok s'

/-- The rule of invariants under a condition. -/
theorem Via.inv {ok : σ → α → Prop} {I : σ → Prop} (hinit : ∀ s, T.init s → I s)
    (hstep : ∀ s a s', I s → ok s a → T.step s a = some s' → I s') (h : T.Via ok s) : I s := by
  induction h with
  | init h => exact hinit _ h
  | step _ hok ha ih => exact hstep _ _ _ ih hok ha

/-- A condition takes nothing away from what can be reached. -/
theorem Via.reach {ok : σ → α → Prop} (h : T.Via ok s) : T.Reach s := by
  induction h with
  | init h => exact .init h
  | step _ _ ha ih => exact ih.step ha

@[simp] theorem run_nil : T.run s [] = some s := rfl

theorem run_cons : T.run s (a :: l) = some s' ↔ ∃ s1, T.step s a = some s1 ∧ T.run s1 l = some s' :=
  Option.bind_eq_some_iff

theorem run_append : T.run s (l ++ l') = some s' ↔
    ∃ s1, T.run s l = some s1 ∧ T.run s1 l' = some s' := by
  induction l generalizing s with
  | nil => simp
  | cons a l ih =>
    rw [List.cons_append, run_cons]
    simp only [ih, run_cons]
    constructor
    · grind
    · grind

/-- What a reachable state leads to can be reached. -/
theorem Reach.run (h : T.Reach s) (hl : T.run s l = some s') : T.Reach s' := by
  induction l generalizing s with
  | nil => exact Option.some.inj hl ▸ h
  | cons a l ih =>
    obtain ⟨s1, ha, hl⟩ := run_cons.1 hl
    exact ih (h.step ha) hl

/-- **The step that loses a property**: in a run from a state that has it to one that does not. -/
theorem run_first {P : σ → Prop} (hP : P s) (hl : T.run s l = some s') (hn : ¬ P s') :
    ∃ l1 a l2 s1 s2, l = l1 ++ a :: l2 ∧ T.run s l1 = some s1 ∧ T.step s1 a = some s2 ∧
      T.run s2 l2 = some s' ∧ P s1 ∧ ¬ P s2 := by
  induction l generalizing s with
  | nil => exact absurd (Option.some.inj hl ▸ hP) hn
  | cons a l ih =>
    obtain ⟨s1, ha, hl⟩ := run_cons.1 hl
    by_cases hs : P s1
    · obtain ⟨l1, b, l2, s2, s3, rfl, h1, h2, h3, h4, h5⟩ := ih hs hl
      exact ⟨a :: l1, b, l2, s2, s3, rfl, run_cons.2 ⟨s1, ha, h1⟩, h2, h3, h4, h5⟩
    · exact ⟨[], a, l, s, s1, rfl, rfl, ha, hl, hP, hs⟩

end

end Lts

end Dixv6.Lib
