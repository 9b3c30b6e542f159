import Dixv6.Lib.Wp

/-!
# Programs over a set of operations

`Prog Op α` is a program that performs operations of `Op` one after the other and returns an `α`.
One text has two readings. `run` performs it without interruption, as one computation, and
`wp_run_bind` lets a proof about that reading follow the text. A program that is to be interleaved
with others is kept as it stands and gives up one operation at a time (`Prog.op`).
-/

namespace Dixv6.Lib

/-- A program that performs operations of `Op`. -/
inductive Prog (Op : Type → Type) (α : Type) : Type 1 where
  | ret (a : α) : Prog Op α
  /-- Perform an operation and go on with its result. -/
  | op {β : Type} (o : Op β) (k : β → Prog Op α) : Prog Op α

namespace Prog

variable {Op : Type → Type} {σ ε α β : Type}

/-- One program after the other. -/
protected def bind : Prog Op α → (α → Prog Op β) → Prog Op β
  | .ret a, f => f a
  | .op o k, f => .op o fun b => (k b).bind f

instance : Monad (Prog Op) where
  pure := .ret
  bind := Prog.bind

/-- The program that performs one operation. -/
def lift (o : Op β) : Prog Op β := .op o .ret

/-- A program performed without interruption. -/
def run (exec : ∀ {β : Type}, Op β → Comp σ ε β) : Prog Op α → Comp σ ε α
  | .ret a => pure a
  | .op o k => exec o >>= fun b => (k b).run exec

section
variable {exec : ∀ {β : Type}, Op β → Comp σ ε β} {Q : β → σ → Prop} {E : ε → Prop} {s : σ}

@[simp] theorem wp_run_pure (b : β) : wp ((pure b : Prog Op β).run exec) Q E s ↔ Q b s := Iff.rfl

/-- A sequence is performed part by part. -/
@[simp] theorem wp_run_bind (p : Prog Op α) (f : α → Prog Op β) : wp ((p >>= f).run exec) Q E s ↔
      wp (p.run exec) (fun a s' => wp ((f a).run exec) Q E s') E s := by
  show wp ((Prog.bind p f).run exec) Q E s ↔ _
  induction p generalizing s with
  | ret a => exact Iff.rfl
  | op o k ih =>
    simp only [Prog.bind, run, wp_bind]
    exact ⟨fun h => wp_post h fun b s' h' => (ih b).1 h', fun h => wp_post h fun b s' h' =>
      (ih b).2 h'⟩

@[simp] theorem wp_run_lift (o : Op β) : wp ((lift o).run exec) Q E s ↔ wp (exec o) Q E s := by
  simp [lift, run]

/-- A sequence, cut at a specification of its first half. -/
theorem wp_run_seq {p : Prog Op α} {f : α → Prog Op β} {R : α → σ → Prop}
    (hp : wp (p.run exec) R E s) (hf : ∀ a s', R a s' → wp ((f a).run exec) Q E s') :
    wp ((p >>= f).run exec) Q E s :=
  (wp_run_bind p f).2 (wp_post hp hf)

/-- A branch is checked on both sides. -/
theorem wp_run_ite {c : Prop} [Decidable c] {p p' : Prog Op β}
    (ht : c → wp (p.run exec) Q E s) (hf : ¬ c → wp (p'.run exec) Q E s) :
    wp ((if c then p else p').run exec) Q E s := by
  split
  · exact ht ‹_›
  · exact hf ‹_›

end

end Prog

end Dixv6.Lib
