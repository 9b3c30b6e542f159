import Mathlib.Algebra.BigOperators.Group.Finset.Basic
import Mathlib.Data.Nat.ModEq
import Mathlib.Tactic.Ring

/-!
# Ring buffers with wrapping counters

A ring of `c` cells is filled through a write counter and emptied through a read counter. Both
counters only ever grow, modulo `m`, and a counter's cell is its remainder modulo `c`. As long as
`c` divides `m` the two wraps agree, so the ring is a queue (`Holds`) of at most `c` elements for
ever: `Holds.push` and `Holds.pop` are its two operations, `Holds.full_iff` and `Holds.empty_iff`
its two tests.
-/

namespace Dixv6.Lib.Ring

open Function

variable {α : Type*}

/-- The cells `data`, read from `nread` on, hold the queue `q`. -/
structure Holds (m c : Nat) (data : Nat → α) (nread nwrite : Nat) (q : List α) : Prop where
  fits : q.length ≤ c
  /-- The write counter is ahead of the read counter by the length of the queue. -/
  count : nwrite = (nread + q.length) % m
  /-- The cells from the read counter on hold the queue. -/
  cell : ∀ k (hk : k < q.length), data ((nread + k) % c) = q[k]

section
variable {m c nread nwrite : Nat} {data : Nat → α} {q : List α} {x : α}

/-- An empty ring. -/
theorem Holds.nil (hr : nread < m) : Holds m c data nread nread [] where
  fits := Nat.zero_le _
  count := (Nat.mod_eq_of_lt hr).symm
  cell := fun _ hk => absurd hk (Nat.not_lt_zero _)

/-- Counters that differ by less than the modulus are equal only if they do not differ. -/
theorem add_mod_inj {a b : Nat} (ha : a < m) (hb : b < m)
    (h : (nread + a) % m = (nread + b) % m) : a = b := by
  have hmod : a % m = b % m := Nat.ModEq.add_left_cancel' nread h
  rwa [Nat.mod_eq_of_lt ha, Nat.mod_eq_of_lt hb] at hmod

/-- The counters are equal exactly when the queue is empty. -/
theorem Holds.empty_iff (h : Holds m c data nread nwrite q) (hcm : c < m) (hr : nread < m) :
    nread = nwrite ↔ q = [] := by
  rw [h.count]
  constructor
  · intro heq
    have h0 : (nread + 0) % m = (nread + q.length) % m := by
      rw [← heq, Nat.add_zero, Nat.mod_eq_of_lt hr]
    have hlen := add_mod_inj (by omega) (lt_of_le_of_lt h.fits hcm) h0
    exact List.length_eq_zero_iff.1 hlen.symm
  · rintro rfl
    exact (Nat.mod_eq_of_lt hr).symm

/-- The write counter is a whole ring ahead exactly when the ring is full. -/
theorem Holds.full_iff (h : Holds m c data nread nwrite q) (hcm : c < m) :
    nwrite = (nread + c) % m ↔ q.length = c := by
  rw [h.count]
  constructor
  · intro heq
    exact add_mod_inj (lt_of_le_of_lt h.fits hcm) hcm heq
  · intro hlen
    rw [hlen]

/-- Storing at the write counter appends to the queue. -/
theorem Holds.push (h : Holds m c data nread nwrite q) (hcm : c ∣ m) (room : q.length < c) :
    Holds m c (update data (nwrite % c) x) nread ((nwrite + 1) % m) (q ++ [x]) where
  fits := by simpa using Nat.succ_le_of_lt room
  count := by
    rw [h.count, Nat.mod_add_mod, List.length_append, List.length_singleton, Nat.add_assoc]
  cell := by
    intro k hk
    have hcell : nwrite % c = (nread + q.length) % c := by
      rw [h.count, Nat.mod_mod_of_dvd _ hcm]
    rw [List.length_append, List.length_singleton] at hk
    by_cases hlast : k = q.length
    · grind
    · have hlt : k < q.length := by omega
      have hne : (nread + k) % c ≠ nwrite % c := by
        rw [hcell]
        intro heq
        have := add_mod_inj (by omega) room heq
        omega
      rw [update_of_ne hne, h.cell k hlt, List.getElem_append_left hlt]

/-- The cell at the read counter holds the front of the queue. -/
theorem Holds.front (h : Holds m c data nread nwrite (x :: q)) : data (nread % c) = x :=
  h.cell 0 (by simp)

/-- Advancing the read counter drops the front of the queue. -/
theorem Holds.pop (h : Holds m c data nread nwrite (x :: q)) (hcm : c ∣ m) :
    Holds m c data ((nread + 1) % m) nwrite q where
  fits := Nat.le_of_succ_le h.fits
  count := by
    rw [h.count, Nat.mod_add_mod, List.length_cons]
    congr 1
    omega
  cell := by
    intro k hk
    have hcell := h.cell (k + 1) (by simpa using hk)
    rw [List.getElem_cons_succ] at hcell
    rw [← hcell, ← Nat.mod_mod_of_dvd _ hcm, Nat.mod_add_mod, Nat.mod_mod_of_dvd _ hcm]
    congr 2
    omega

/-- The cell before the write counter holds the back of the queue. -/
theorem Holds.back (h : Holds m c data nread nwrite (q ++ [x])) (hcm : c ∣ m) (hm : 0 < m) :
    data ((nwrite + m - 1) % m % c) = x := by
  have hcell := h.cell q.length (by simp)
  rw [List.getElem_concat_length rfl] at hcell
  rw [← hcell, h.count, List.length_append, List.length_singleton, Nat.add_sub_assoc hm,
    Nat.mod_add_mod, Nat.mod_mod_of_dvd _ hcm]
  obtain ⟨k, rfl⟩ := hcm
  rw [show nread + (q.length + 1) + (c * k - 1) = nread + q.length + c * k by omega,
    Nat.add_mul_mod_self_left]

/-- Moving the write counter back drops the back of the queue. -/
theorem Holds.unpush (h : Holds m c data nread nwrite (q ++ [x])) (hm : 0 < m) :
    Holds m c data nread ((nwrite + m - 1) % m) q where
  fits := by
    have := h.fits
    rw [List.length_append] at this
    omega
  count := by
    rw [h.count, List.length_append, List.length_singleton, Nat.add_sub_assoc hm, Nat.mod_add_mod,
      show nread + (q.length + 1) + (m - 1) = nread + q.length + m by omega, Nat.add_mod_right]
  cell := fun k hk => by
    rw [h.cell k (by rw [List.length_append]; omega), List.getElem_append_left hk]

end

end Dixv6.Lib.Ring
