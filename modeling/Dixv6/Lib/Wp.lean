import Mathlib.Tactic.Common

/-!
# Computations that may stop, and their weakest preconditions

`Comp σ ε α` is a computation over a state `σ` that returns an `α` or stops with an `ε`. The
stop leaves no state: nothing runs after it. `wp m Q E s` says that `m` started in `s` either
returns with `Q` of the result and the final state, or stops with a reason that `E` allows, so
that a proof that some stop is unreachable and a proof about the final state are one proof.

The rules follow the shape of the computation: `wp_bind` reads a sequence as a nested
precondition, `wp_seq` cuts it at a specification of its first half, and `wp_forM` carries an
invariant through a loop over a list.
-/

namespace Dixv6.Lib

/-- A computation over the state `σ` that returns an `α` or stops with an `ε`. -/
def Comp (σ ε α : Type) : Type := σ → Except ε (α × σ)

namespace Comp

variable {σ ε α β : Type}

/-- Return a value and leave the state alone. -/
protected def pure (a : α) : Comp σ ε α := fun s => .ok (a, s)

/-- Run `m`, then `f` on its result; a stop of `m` is a stop of the whole. -/
protected def bind (m : Comp σ ε α) (f : α → Comp σ ε β) : Comp σ ε β := fun s =>
  match m s with
  | .ok (a, s') => f a s'
  | .error e => .error e

instance : Monad (Comp σ ε) where
  pure := Comp.pure
  bind := Comp.bind

/-- Read a part of the state. -/
def gets (f : σ → α) : Comp σ ε α := fun s => .ok (f s, s)

/-- Change the state. -/
def modify (f : σ → σ) : Comp σ ε Unit := fun s => .ok ((), f s)

/-- Stop. -/
def stop (e : ε) : Comp σ ε α := fun _ => .error e

/-- Stop when `c` holds. -/
def stopIf (c : Prop) [Decidable c] (e : ε) : Comp σ ε Unit := if c then stop e else pure ()

/-- Run `f` on every element of a list, in order. -/
def forM (f : α → Comp σ ε Unit) : List α → Comp σ ε Unit
  | [] => pure ()
  | a :: l => do f a; forM f l

/-- A sequence whose first half returns. -/
theorem bind_ok {m : Comp σ ε α} {s s' : σ} {a : α} (h : m s = .ok (a, s')) (f : α → Comp σ ε β) :
    (m >>= f) s = f a s' := by
  show Comp.bind m f s = f a s'
  rw [Comp.bind, h]

end Comp

variable {σ ε α β : Type}

/-- `m` started in `s` returns with `Q` or stops with a reason in `E`. -/
def wp (m : Comp σ ε α) (Q : α → σ → Prop) (E : ε → Prop) (s : σ) : Prop :=
  match m s with
  | .ok (a, s') => Q a s'
  | .error e => E e

section
variable {Q Q' : α → σ → Prop} {E E' : ε → Prop} {s s' : σ} {m : Comp σ ε α}

/-- A run that returned. -/
theorem wp_of_ok {a : α} (hm : m s = .ok (a, s')) (h : Q a s') : wp m Q E s := by
  rw [wp, hm]
  exact h

/-- A run that stopped. -/
theorem wp_of_error {e : ε} (hm : m s = .error e) (h : E e) : wp m Q E s := by
  rw [wp, hm]
  exact h

/-- What `wp` says about a run that returned. -/
theorem wp_ok {a : α} (h : wp m Q E s) (hm : m s = .ok (a, s')) : Q a s' := by
  unfold wp at h; rw [hm] at h; exact h

/-- What `wp` says about a run that stopped. -/
theorem wp_error {e : ε} (h : wp m Q E s) (hm : m s = .error e) : E e := by
  unfold wp at h; rw [hm] at h; exact h

/-- `wp` from its two readings. -/
theorem wp_intro (hok : ∀ a s', m s = .ok (a, s') → Q a s') (herr : ∀ e, m s = .error e → E e) :
    wp m Q E s := by
  unfold wp
  cases hm : m s with
  | ok r => exact hok r.1 r.2 hm
  | error e => exact herr e hm

/-- When no stop is allowed, the computation returns. -/
theorem wp_total (h : wp m Q (fun _ => False) s) : ∃ a s', m s = .ok (a, s') ∧ Q a s' := by
  unfold wp at h
  cases hm : m s with
  | ok r => rw [hm] at h; exact ⟨r.1, r.2, rfl, h⟩
  | error e => rw [hm] at h; exact h.elim

/-- The rule of consequence. -/
theorem wp_mono (h : wp m Q E s) (hQ : ∀ a s', Q a s' → Q' a s') (hE : ∀ e, E e → E' e) :
    wp m Q' E' s :=
  wp_intro (fun a s' hm => hQ a s' (wp_ok h hm)) (fun e hm => hE e (wp_error h hm))

/-- The rule of consequence for the result alone. -/
theorem wp_post (h : wp m Q E s) (hQ : ∀ a s', Q a s' → Q' a s') : wp m Q' E s :=
  wp_mono h hQ fun _ he => he

/-- Of any computation at all. -/
theorem wp_any : wp m (fun _ _ => True) (fun _ => True) s :=
  wp_intro (fun _ _ _ => trivial) fun _ _ => trivial

/-- Two postconditions of one computation hold together. -/
theorem wp_and (h : wp m Q E s) (h' : wp m Q' E s) : wp m (fun a s' => Q a s' ∧ Q' a s') E s :=
  wp_intro (fun _ _ hm => ⟨wp_ok h hm, wp_ok h' hm⟩) fun _ hm => wp_error h hm

/-- A second postcondition may leave open why the computation stops. -/
theorem wp_and_any (h : wp m Q E s) (h' : wp m Q' (fun _ => True) s) :
    wp m (fun a s' => Q a s' ∧ Q' a s') E s :=
  wp_and h (wp_intro (fun _ _ hm => wp_ok h' hm) fun _ hm => wp_error h hm)

end

section
variable {Q : β → σ → Prop} {E : ε → Prop} {s : σ}

@[simp] theorem wp_pure {Q : α → σ → Prop} (a : α) : wp (pure a : Comp σ ε α) Q E s ↔ Q a s :=
  Iff.rfl

@[simp] theorem wp_bind (m : Comp σ ε α) (f : α → Comp σ ε β) :
    wp (m >>= f) Q E s ↔ wp m (fun a s' => wp (f a) Q E s') E s := by
  show wp (Comp.bind m f) Q E s ↔ _
  unfold wp Comp.bind
  cases m s <;> rfl

@[simp] theorem wp_gets {Q : α → σ → Prop} (f : σ → α) :
    wp (Comp.gets f : Comp σ ε α) Q E s ↔ Q (f s) s := Iff.rfl

@[simp] theorem wp_modify {Q : Unit → σ → Prop} (f : σ → σ) :
    wp (Comp.modify f : Comp σ ε Unit) Q E s ↔ Q () (f s) := Iff.rfl

@[simp] theorem wp_stop {Q : α → σ → Prop} (e : ε) :
    wp (Comp.stop e : Comp σ ε α) Q E s ↔ E e := Iff.rfl

/-- A conditional stop either stops or does nothing. -/
@[simp] theorem wp_stopIf {Q : Unit → σ → Prop} (c : Prop) [Decidable c] (e : ε) :
    wp (Comp.stopIf c e : Comp σ ε Unit) Q E s ↔ (c → E e) ∧ (¬ c → Q () s) := by
  unfold Comp.stopIf
  split <;> simp [*]

/-- A sequence, cut at a specification of its first half. -/
theorem wp_seq {m : Comp σ ε α} {f : α → Comp σ ε β} {R : α → σ → Prop}
    (hm : wp m R E s) (hf : ∀ a s', R a s' → wp (f a) Q E s') : wp (m >>= f) Q E s :=
  (wp_bind m f).2 (wp_post hm hf)

/-- A branch is checked on both sides. -/
theorem wp_ite {Q : α → σ → Prop} {c : Prop} [Decidable c] {m m' : Comp σ ε α}
    (ht : c → wp m Q E s) (hf : ¬ c → wp m' Q E s) : wp (if c then m else m') Q E s := by
  split
  · exact ht ‹_›
  · exact hf ‹_›

/-- A loop over a list keeps an invariant that is indexed by what is left to do. -/
theorem wp_forM {f : α → Comp σ ε Unit} {I : List α → σ → Prop}
    (hstep : ∀ a l s, I (a :: l) s → wp (f a) (fun _ s' => I l s') E s) :
    ∀ (l : List α) (s : σ), I l s → wp (Comp.forM f l) (fun _ s' => I [] s') E s
  | [], _, h => h
  | a :: l, s, h => wp_seq (hstep a l s h) fun _ s' h' => wp_forM hstep l s' h'

end

end Dixv6.Lib
