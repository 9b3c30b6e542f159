import Mathlib.Algebra.BigOperators.Group.Finset.Basic
import Mathlib.Tactic.Common

/-!
# Trees of numbered cells in one store

A store holds cells by number, and a cell may name other cells in its entries: an index block
names data blocks, a page directory names page tables. A forest has a root, if any, for each key;
a *position* is a key and a path, the last step first, and `node` is the number of the cell found
there. `Shape` says how the entry that leads to a position is read from the parent's cell.

The cells at inner positions are read to walk the forest, the others are not. So a change of a
cell at no inner position leaves the whole forest alone (`node_update_store`), and hanging an
empty cell under an empty entry adds exactly one position (`node_fill_root`, `node_fill_child`).
`Distinct` is the ownership invariant: no cell is found at two positions.
-/

namespace Dixv6.Lib

open Function

/-- How the cells of a forest are read. -/
structure Shape (K C : Type) where
  /-- The cell that the parent's cell names for the position. -/
  entry : K → List Nat → C → Option Nat
  /-- The position may have children. -/
  inner : K → List Nat → Prop
  /-- Only inner positions have children. -/
  entry_inner : ∀ k π j c, ¬ inner k π → entry k (j :: π) c = none

namespace Shape

variable {K C : Type} (F : Shape K C)

/-- The cell at a position. -/
def node (root : K → Option Nat) (store : Nat → C) (k : K) : List Nat → Option Nat
  | [] => root k
  | j :: π => (node root store k π).bind fun a => F.entry k (j :: π) (store a)

/-- No cell is found at two positions. -/
def Distinct (root : K → Option Nat) (store : Nat → C) : Prop :=
  ∀ k π k' π' a, F.node root store k π = some a → F.node root store k' π' = some a →
    k = k' ∧ π = π'

section
variable {F} {root root' : K → Option Nat} {store store' : Nat → C}
variable {k : K} {π : List Nat} {a b j : Nat}

@[simp] theorem node_nil : F.node root store k [] = root k := rfl

/-- The child of a cell that is there. -/
theorem node_child (ha : F.node root store k π = some a) :
    F.node root store k (j :: π) = F.entry k (j :: π) (store a) := by
  rw [node, ha]; rfl

/-- Below an absent cell there is nothing. -/
theorem node_cons_none (h : F.node root store k π = none) :
    F.node root store k (j :: π) = none := by
  rw [node, h]; rfl

/-- A cell that is there has its parent there. -/
theorem node_parent (h : F.node root store k (j :: π) = some b) :
    ∃ a, F.node root store k π = some a ∧ F.entry k (j :: π) (store a) = some b := by
  cases ha : F.node root store k π with
  | none => rw [node_cons_none ha] at h; cases h
  | some a => exact ⟨a, rfl, by rw [← node_child ha, h]⟩

/-- A cell that is there has all its ancestors there. -/
theorem node_suffix {π' : List Nat} (h : π' <:+ π) (hb : F.node root store k π ≠ none) :
    F.node root store k π' ≠ none := by
  induction π with
  | nil => rwa [List.suffix_nil.1 h]
  | cons j π ih =>
    rcases List.suffix_cons_iff.1 h with rfl | h
    · exact hb
    · exact ih h fun e => hb (node_cons_none e)

/-- Nothing is found under a key without a root. -/
theorem node_none_of_root (h : root k = none) : ∀ π, F.node root store k π = none
  | [] => h
  | _ :: π => node_cons_none (node_none_of_root h π)

/-- **The forest depends on the cells at inner positions only.** -/
theorem node_congr (hroot : root' k = root k)
    (hstore : ∀ π a, F.inner k π → F.node root store k π = some a → store' a = store a) :
    ∀ π, F.node root' store' k π = F.node root store k π
  | [] => hroot
  | j :: π => by
    rw [node, node, node_congr hroot hstore π]
    cases ha : F.node root store k π with
    | none => rfl
    | some a =>
      simp only [Option.bind_some]
      by_cases hin : F.inner k π
      · rw [hstore π a hin ha]
      · rw [F.entry_inner _ _ _ _ hin, F.entry_inner _ _ _ _ hin]

/-- Changing a cell that is found at no inner position changes no position. -/
theorem node_update_store {c : C}
    (h : ∀ k π, F.inner k π → F.node root store k π ≠ some a) (k : K) (π : List Nat) :
    F.node root (update store a c) k π = F.node root store k π := by
  refine node_congr rfl (fun π b hin hb => ?_) π
  have hne : b ≠ a := by
    rintro rfl
    exact h k π hin hb
  exact update_of_ne hne _ _

/-- An empty cell hung under a key without a root is found there, and nothing else changes. -/
theorem node_fill_root [DecidableEq K] (hnone : root k = none)
    (hempty : ∀ i, F.entry k [i] (store b) = none) (k' : K) (π' : List Nat) :
    F.node (update root k (some b)) store k' π' =
      if k' = k ∧ π' = [] then some b else F.node root store k' π' := by
  by_cases hk : k' = k
  · subst hk
    induction π' with
    | nil => simp
    | cons j π' ih =>
      simp only [reduceCtorEq, and_false, if_false, node_cons_none (node_none_of_root hnone π')]
      rw [node, ih]
      split
      · next e => simp [e.2, hempty]
      · rw [node_none_of_root hnone]; rfl
  · simp only [hk, false_and, if_false]
    exact node_congr (update_of_ne hk _ _) (fun _ _ _ _ => rfl) π'

/-- One entry of a cell rewritten, with nothing below the position before and after: the
position changes as the entry says, and nothing else changes. -/
theorem node_set_child [DecidableEq K] {c : C} (hd : F.Distinct root store)
    (ha : F.node root store k π = some a)
    (hother : ∀ i, i ≠ j → F.entry k (i :: π) c = F.entry k (i :: π) (store a))
    (hbelow : ∀ i, F.node root store k (i :: j :: π) = none)
    (hempty : ∀ i b, F.entry k (j :: π) c = some b →
      F.entry k (i :: j :: π) (update store a c b) = none) (k' : K) (π' : List Nat) :
    F.node root (update store a c) k' π' =
      if k' = k ∧ π' = j :: π then F.entry k (j :: π) c else F.node root store k' π' := by
  induction π' with
  | nil => simp
  | cons i π' ih =>
    rw [node, ih]
    by_cases hb : k' = k ∧ π' = j :: π
    · -- below the rewritten entry
      obtain ⟨rfl, rfl⟩ := hb
      have hne : ¬ (k' = k' ∧ i :: j :: π = j :: π) := fun e => by
        have := congrArg List.length e.2; simp at this
      rw [if_pos ⟨rfl, rfl⟩, if_neg hne, hbelow]
      cases he : F.entry k' (j :: π) c with
      | none => rfl
      | some b => exact hempty i b he
    rw [if_neg hb]
    cases hn : F.node root store k' π' with
    | none =>
      have hne : ¬ (k' = k ∧ i :: π' = j :: π) := by grind
      rw [if_neg hne, node_cons_none hn]; rfl
    | some x =>
      simp only [Option.bind_some]
      by_cases hx : x = a
      · subst hx
        obtain ⟨rfl, rfl⟩ := hd k' π' k π x hn ha
        rw [update_self, node_child hn]
        by_cases hij : i = j
        · subst hij; simp
        · grind
      · have hne : ¬ (k' = k ∧ i :: π' = j :: π) := by
          rintro ⟨rfl, e⟩
          rw [(List.cons.inj e).2, ha] at hn; exact hx (Option.some.inj hn).symm
        rw [update_of_ne hx, if_neg hne, node_child hn]

/-- Ownership survives a change that adds one position with a cell that was nowhere. -/
theorem Distinct.fill (hd : F.Distinct root store) {P : K → List Nat → Prop}
    [∀ k π, Decidable (P k π)] (hP : ∀ k π k' π', P k π → P k' π' → k = k' ∧ π = π')
    (hb : ∀ k π, F.node root store k π ≠ some b) (h : ∀ k' π', F.node root' store' k' π' =
      if P k' π' then some b else F.node root store k' π') : F.Distinct root' store' := by
  intro k1 π1 k2 π2 x h1 h2
  rw [h] at h1 h2
  split at h1
  · next e1 =>
    split at h2
    · next e2 => exact hP _ _ _ _ e1 e2
    · cases h1; exact absurd h2 (hb _ _)
  · split at h2
    · cases h2; exact absurd h1 (hb _ _)
    · exact hd _ _ _ _ _ h1 h2

/-- Ownership survives a change that only removes positions. -/
theorem Distinct.mono (hd : F.Distinct root store)
    (h : ∀ k π a, F.node root' store' k π = some a → F.node root store k π = some a) :
    F.Distinct root' store' :=
  fun _ _ _ _ _ h1 h2 => hd _ _ _ _ _ (h _ _ _ h1) (h _ _ _ h2)

end

end Shape

end Dixv6.Lib
