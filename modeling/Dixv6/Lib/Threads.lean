import Dixv6.Lib.Lts
import Dixv6.Lib.Prog

/-!
# Threads

Programs over a shared state that run interleaved, one operation at a time. An operation that does
not return (`Except.error`) is not performed: the thread waits, or the system has stopped.

Threads are checked one by one. Each has a local state, which is made up for the proof, and there
is one invariant of all local states, the shared state and the operations performed so far.
`Keeps p m Q l` says that thread `p`, in local state `l` and with the program `m` before it, keeps
the invariant whatever the others do, and has `Q` when it returns. If all do, the invariant holds
in every state that can be reached (`reach_keeps`). Threads may also come with a list of calls that
they make in any order, each with its program (`serve`, `serve_keeps`).
-/

namespace Dixv6.Lib.Threads

open Function

variable {Op : Type → Type} {σ ε α β ι L : Type} {x : σ}

/-- An operation and the thread that has performed it. -/
abbrev Act (Op : Type → Type) (ι : Type) : Type 1 := ι × (Σ β : Type, Op β)

/-- Threads over a shared state. -/
structure State (Op : Type → Type) (σ α ι : Type) : Type 1 where
  shared : σ
  /-- What each of them has still to do. -/
  prog : ι → Prog Op α
  done : List (Act Op ι)

section
variable [DecidableEq ι] (exec : ι → ∀ {β : Type}, Op β → Comp σ ε β)

/-- A thread performs its next operation. -/
def step (s : State Op σ α ι) (p : ι) : Option (State Op σ α ι) :=
  match s.prog p with
  | .ret _ => none
  | .op o k =>
    match exec p o s.shared with
    | .ok (b, x) =>
      some { shared := x, prog := update s.prog p (k b), done := s.done ++ [(p, ⟨_, o⟩)] }
    | .error _ => none

/-- The threads as a system, with what they are to do. -/
def threads (x : σ) (prog : ι → Prog Op α) : Lts (State Op σ α ι) ι where
  init := (· = ⟨x, prog, []⟩)
  step := step exec

/-- The invariant of the threads. -/
abbrev Inv (Op : Type → Type) (σ ι L : Type) : Type 1 := (ι → L) → σ → List (Act Op ι) → Prop

/-- A thread keeps the invariant `I`, stops only where `E` allows it, and ends in `Q`. -/
def Keeps (I : Inv Op σ ι L) (E : ε → Prop) (p : ι) : Prog Op α → (α → L → Prop) → L → Prop
  | .ret a, Q, l => Q a l
  | .op o k, Q, l => ∀ ls x t, ls p = l → I ls x t →
    wp (exec p o) (fun b x' => ∃ l', I (update ls p l') x' (t ++ [(p, ⟨_, o⟩)]) ∧
      Keeps I E p (k b) Q l') E x

variable {exec} {I : Inv Op σ ι L} {E : ε → Prop} {p : ι} {l : L} {m : Prog Op α}

theorem keeps_pure {a : α} {Q : α → L → Prop} (h : Q a l) :
    Keeps exec I E p (pure a : Prog Op α) Q l := h

/-- A sequence is checked part by part. -/
theorem keeps_bind {f : α → Prog Op β} {Q : β → L → Prop}
    (h : Keeps exec I E p m (fun a l' => Keeps exec I E p (f a) Q l') l) :
    Keeps exec I E p (m >>= f) Q l := by
  induction m generalizing l with
  | ret a => exact h
  | op o k ih =>
    intro ls x t hl hI
    refine wp_post (h ls x t hl hI) ?_
    rintro b x' ⟨l', hI', hk⟩
    exact ⟨l', hI', ih b hk⟩

/-- The rule of consequence. -/
theorem keeps_mono {Q Q' : α → L → Prop} (h : Keeps exec I E p m Q l)
    (hQ : ∀ a l', Q a l' → Q' a l') : Keeps exec I E p m Q' l := by
  induction m generalizing l with
  | ret a => exact hQ a l h
  | op o k ih =>
    intro ls x t hl hI
    refine wp_post (h ls x t hl hI) ?_
    rintro b x' ⟨l', hI', hk⟩
    exact ⟨l', hI', ih b hk⟩

/-- A sequence, cut at a specification of its first half. -/
theorem keeps_seq {f : α → Prog Op β} {R : α → L → Prop} {Q : β → L → Prop}
    (h : Keeps exec I E p m R l) (hf : ∀ a l', R a l' → Keeps exec I E p (f a) Q l') :
    Keeps exec I E p (m >>= f) Q l := keeps_bind (keeps_mono h hf)

/-- A step keeps the invariant if the threads do. -/
theorem step_keeps {Q : ι → α → L → Prop} {s s' : State Op σ α ι}
    (h : ∃ ls, I ls s.shared s.done ∧ ∀ p, Keeps exec I E p (s.prog p) (Q p) (ls p))
    (hstep : step exec s p = some s') :
    ∃ ls, I ls s'.shared s'.done ∧ ∀ p, Keeps exec I E p (s'.prog p) (Q p) (ls p) := by
  obtain ⟨ls, hI, hk⟩ := h
  have hp := hk p
  rw [step] at hstep
  split at hstep
  · cases hstep
  · next o k hm =>
    rw [hm] at hp
    have hw := hp ls s.shared s.done rfl hI
    split at hstep
    · next b x' hx =>
      cases hstep
      obtain ⟨l', hI', hk'⟩ := wp_ok hw hx
      refine ⟨update ls p l', hI', fun q => ?_⟩
      dsimp only
      by_cases hq : q = p
      · subst hq
        rw [update_self, update_self]
        exact hk'
      · rw [update_of_ne hq, update_of_ne hq]
        exact hk q
    · cases hstep

/-- **Threads that keep an invariant keep it together.** -/
theorem reach_keeps {prog : ι → Prog Op α} {Q : ι → α → L → Prop} {ls0 : ι → L}
    {s : State Op σ α ι} (h0 : I ls0 x []) (hprog : ∀ p, Keeps exec I E p (prog p) (Q p) (ls0 p))
    (h : (threads exec x prog).Reach s) : ∃ ls, I ls s.shared s.done ∧
      ∀ p, Keeps exec I E p (s.prog p) (Q p) (ls p) := by
  refine h.inv (I := fun s => ∃ ls, I ls s.shared s.done ∧
    ∀ p, Keeps exec I E p (s.prog p) (Q p) (ls p)) ?_ ?_
  · rintro _ rfl
    exact ⟨ls0, h0, hprog⟩
  · exact fun s p s' hs hstep => step_keeps hs hstep

end

/-! ## Threads that make calls -/

/-- What a thread that serves calls does next. -/
inductive Event (ι κ : Type) where
  | call (p : ι) (c : κ)
  | step (p : ι)

section
variable {κ : Type} [DecidableEq ι] (exec : ι → ∀ {β : Type}, Op β → Comp σ ε β)
  (code : κ → Prog Op Unit)

/-- A thread begins a call if it is in none. -/
def begin (s : State Op σ Unit ι) (p : ι) (c : κ) : Option (State Op σ Unit ι) :=
  match s.prog p with
  | .ret _ => some { s with prog := update s.prog p (code c) }
  | .op _ _ => none

/-- Threads that make calls, one after the other and as many as they like. -/
def serve (x : σ) : Lts (State Op σ Unit ι) (Event ι κ) where
  init := (· = ⟨x, fun _ => .ret (), []⟩)
  step s
    | .call p c => begin code s p c
    | .step p => step exec s p

/-- What the thread is about to stop with. -/
def stopsWith (s : State Op σ Unit ι) (p : ι) : Option ε :=
  match s.prog p with
  | .ret _ => none
  | .op o _ =>
    match exec p o s.shared with
    | .ok _ => none
    | .error e => some e

/-- A thread goes on, by at most so many steps. -/
def goOn (p : ι) : Nat → State Op σ Unit ι → State Op σ Unit ι
  | 0, s => s
  | n + 1, s =>
    match step exec s p with
    | some s' => goOn p n s'
    | none => s

variable {exec code}

/-- **Calls that keep an invariant keep it together**: between calls, all threads are at rest. -/
theorem serve_keeps {I : Inv Op σ ι L} {E : ε → Prop} {rest : L} {s : State Op σ Unit ι}
    (h0 : I (fun _ => rest) x []) (hcode : ∀ p c, Keeps exec I E p (code c) (fun _ l => l = rest) rest)
    (h : (serve exec code x).Reach s) :
    ∃ ls, I ls s.shared s.done ∧ ∀ p, Keeps exec I E p (s.prog p) (fun _ l => l = rest) (ls p) := by
  refine h.inv (I := fun s => ∃ ls, I ls s.shared s.done ∧
    ∀ p, Keeps exec I E p (s.prog p) (fun _ l => l = rest) (ls p)) ?_ ?_
  · rintro _ rfl
    exact ⟨fun _ => rest, h0, fun _ => rfl⟩
  · rintro s (⟨p, c⟩ | p) s' hs hstep
    · obtain ⟨ls, hI, hk⟩ := hs
      change begin code s p c = some s' at hstep
      rw [begin] at hstep
      split at hstep
      · next a hm =>
        cases hstep
        refine ⟨ls, hI, fun q => ?_⟩
        dsimp only
        by_cases hq : q = p
        · have hp := hk p
          rw [hm] at hp
          rw [hq, update_self, hp]
          exact hcode p c
        · rw [update_of_ne hq]
          exact hk q
      · cases hstep
    · exact step_keeps hs hstep

/-- Going on is a run. -/
theorem reach_goOn {s : State Op σ Unit ι} (h : (serve exec code x).Reach s) (p : ι)
    (n : Nat) : (serve exec code x).Reach (goOn exec p n s) := by
  induction n generalizing s with
  | zero => exact h
  | succ n ih =>
    rw [goOn]
    split
    · next s' hs => exact ih (h.step (a := .step p) hs)
    · exact h

end

end Dixv6.Lib.Threads
