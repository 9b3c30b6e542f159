import Dixv6.Lib.Wp

/-!
# What a computation leaves alone

`Leaves π E m` says that `m`, wherever it is started, changes nothing about what `π` sees of the
state, and stops only where `E` allows it. The rules follow the shape of the computation, so such a
fact about a long function is put together from those about the functions it calls.
-/

namespace Dixv6.Lib

variable {σ ε α β γ : Type} {π : σ → γ} {E : ε → Prop}

/-- The computation changes nothing about `π`. -/
def Leaves (π : σ → γ) (E : ε → Prop) (m : Comp σ ε α) : Prop :=
  ∀ s, wp m (fun _ s' => π s' = π s) E s

namespace Leaves

theorem pure (a : α) : Leaves π E (Pure.pure a : Comp σ ε α) := fun _ => rfl

theorem gets (f : σ → α) : Leaves π E (Comp.gets f : Comp σ ε α) := fun _ => rfl

theorem modify {f : σ → σ} (h : ∀ s, π (f s) = π s) :
    Leaves π E (Comp.modify f : Comp σ ε Unit) := h

theorem stop {e : ε} (h : E e) : Leaves π E (Comp.stop e : Comp σ ε α) := fun _ => h

theorem stopIf {c : Prop} [Decidable c] {e : ε} (h : E e) :
    Leaves π E (Comp.stopIf c e : Comp σ ε Unit) := fun _ =>
  (wp_stopIf c e).2 ⟨fun _ => h, fun _ => rfl⟩

/-- A sequence. -/
theorem bind {m : Comp σ ε α} {f : α → Comp σ ε β} (hm : Leaves π E m) (hf : ∀ a, Leaves π E (f a)) :
    Leaves π E (m >>= f) := fun s =>
  wp_seq (hm s) fun a s' h => wp_post (hf a s') fun _ _ h' => h'.trans h

/-- A branch. -/
theorem ite {c : Prop} [Decidable c] {m m' : Comp σ ε α} (hm : Leaves π E m)
    (hm' : Leaves π E m') : Leaves π E (if c then m else m') := fun s =>
  wp_ite (fun _ => hm s) fun _ => hm' s

/-- A loop over a list. -/
theorem forM {f : α → Comp σ ε Unit} (hf : ∀ a, Leaves π E (f a)) (l : List α) :
    Leaves π E (Comp.forM f l) := fun s => by
  refine wp_forM (I := fun _ s' => π s' = π s) (fun a _ s1 h => ?_) l s rfl
  exact wp_post (hf a s1) fun _ _ h' => h'.trans h

end Leaves

end Dixv6.Lib
