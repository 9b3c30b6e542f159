import Mathlib.Algebra.BigOperators.Group.Finset.Basic
import Mathlib.Tactic.Common

/-!
# Fields of a byte map

A byte map is a function from positions to bytes. `leGet` and `lePut` read and write a
little-endian field of any width, `getBit` and `setBit` a bit counted from position `0`, and
`blit` copies a range in. Each write comes with two facts: what the written field reads as, and
that a field which does not meet the written range reads as before.
-/

namespace Dixv6.Lib

open Function

/-- Bytes by position. -/
abbrev Bytes := Nat → UInt8

namespace Bytes

variable {b b' : Bytes}

/-! ## Little-endian fields -/

/-- The `w`-byte little-endian number at position `o`. -/
def leGet (b : Bytes) : Nat → Nat → Nat
  | _, 0 => 0
  | o, w + 1 => (b o).toNat + 256 * leGet b (o + 1) w

/-- Write `v` as a `w`-byte little-endian number at position `o`. -/
def lePut (b : Bytes) (o w v : Nat) : Bytes := fun i =>
  if o ≤ i ∧ i < o + w then UInt8.ofNat (v / 256 ^ (i - o)) else b i

/-- A field depends on its own bytes only. -/
theorem leGet_congr : ∀ (w o : Nat), (∀ i, o ≤ i → i < o + w → b i = b' i) →
    leGet b o w = leGet b' o w
  | 0, _, _ => rfl
  | w + 1, o, h => by
    rw [leGet, leGet, h o (Nat.le_refl o) (by omega),
      leGet_congr w (o + 1) fun i h1 h2 => h i (by omega) (by omega)]

/-- A field of a byte map that has been moved. -/
theorem leGet_shift (b : Bytes) (k : Nat) : ∀ (w o : Nat),
    leGet (fun i => b (i - k)) (k + o) w = leGet b o w
  | 0, _ => rfl
  | w + 1, o => by rw [leGet, leGet, Nat.add_assoc, leGet_shift b k w (o + 1), Nat.add_sub_cancel_left]

/-- A field of `w` bytes is below `256 ^ w`. -/
theorem leGet_lt (b : Bytes) : ∀ (w o : Nat), leGet b o w < 256 ^ w
  | 0, _ => Nat.one_pos
  | w + 1, o => by
    have h := leGet_lt b w (o + 1)
    have h1 : (b o).toNat < 256 := (b o).toNat_lt
    rw [leGet, Nat.pow_succ]
    omega

/-- A field of zero bytes is zero. -/
theorem leGet_zero : ∀ (w o : Nat), leGet (fun _ => 0) o w = 0
  | 0, _ => rfl
  | w + 1, o => by simp [leGet, leGet_zero w (o + 1)]

/-- The digits that `lePut` writes, read from a byte map that holds them. -/
theorem leGet_digits : ∀ (w o v : Nat),
    (∀ i, i < w → b (o + i) = UInt8.ofNat (v / 256 ^ i)) → leGet b o w = v % 256 ^ w
  | 0, _, _, _ => by simp [leGet, Nat.mod_one]
  | w + 1, o, v, h => by
    have h0 : b o = UInt8.ofNat v := by simpa using h 0 (by omega)
    have ih : leGet b (o + 1) w = v / 256 % 256 ^ w := by
      refine leGet_digits w (o + 1) (v / 256) fun i hi => ?_
      have := h (i + 1) (by omega)
      rw [Nat.div_div_eq_div_mul, ← Nat.pow_succ', Nat.add_right_comm, Nat.add_assoc]
      exact this
    have h1 : (UInt8.ofNat v).toNat = v % 256 := UInt8.toNat_ofNat'
    rw [leGet, h0, ih, h1, Nat.pow_succ', Nat.mod_mul]

/-- A written field reads as the number modulo its range. -/
theorem leGet_lePut (b : Bytes) (o w v : Nat) : leGet (lePut b o w v) o w = v % 256 ^ w := by
  refine leGet_digits w o v fun i hi => ?_
  simp [lePut, hi]

/-- A written field reads as the number when the number fits. -/
theorem leGet_lePut_of_lt {o w v : Nat} (h : v < 256 ^ w) : leGet (lePut b o w v) o w = v := by
  rw [leGet_lePut, Nat.mod_eq_of_lt h]

/-- A field that does not meet the written one reads as before. -/
theorem leGet_lePut_disjoint {o w v o' w' : Nat} (h : o' + w' ≤ o ∨ o + w ≤ o') :
    leGet (lePut b o w v) o' w' = leGet b o' w' := by
  refine leGet_congr w' o' fun i h1 h2 => ?_
  rw [lePut, if_neg (by omega)]

/-- A byte outside the written field is as before. -/
theorem lePut_of_outside {o w v i : Nat} (h : i < o ∨ o + w ≤ i) : lePut b o w v i = b i := by
  rw [lePut, if_neg (by omega)]

/-- The bytes of a little-endian number are the bytes it was read from. -/
theorem byte_leGet (b : Bytes) : ∀ (w o j : Nat), j < w →
    UInt8.ofNat (b.leGet o w / 256 ^ j) = b (o + j)
  | w + 1, o, 0, _ => by
    rw [leGet, Nat.pow_zero, Nat.div_one, UInt8.ofNat_add, UInt8.ofNat_mul]
    simp
  | w + 1, o, j + 1, hj => by
    have hlt : (b o).toNat < 256 := (b o).toNat_lt
    have hdiv : ((b o).toNat + 256 * b.leGet (o + 1) w) / 256 = b.leGet (o + 1) w := by omega
    rw [leGet, Nat.pow_succ', ← Nat.div_div_eq_div_mul, hdiv,
      byte_leGet b w (o + 1) j (by omega), Nat.add_assoc, Nat.add_comm 1 j]

/-! ## Bits -/

/-- Bit `i`, counted from the low bit of byte `0`. -/
def getBit (b : Bytes) (i : Nat) : Bool := (b (i / 8)).toBitVec.getLsbD (i % 8)

/-- The byte with one bit set, `1 << k`. -/
def mask (k : Nat) : UInt8 := ⟨BitVec.twoPow 8 k⟩

/-- Set bit `i`. -/
def setBit (b : Bytes) (i : Nat) : Bytes :=
  update b (i / 8) (b (i / 8) ||| mask (i % 8))

/-- Clear bit `i`. -/
def clearBit (b : Bytes) (i : Nat) : Bytes :=
  update b (i / 8) (b (i / 8) &&& ~~~ mask (i % 8))

/-- Two positions in one byte with the same bit are one position. -/
theorem bit_pos_eq {i j : Nat} (h : j / 8 = i / 8) : i % 8 = j % 8 ↔ j = i := by omega

/-- Setting a bit changes that bit and no other. -/
theorem getBit_setBit (b : Bytes) (i j : Nat) :
    getBit (setBit b i) j = (decide (j = i) || getBit b j) := by
  unfold getBit setBit mask
  by_cases h : j / 8 = i / 8
  · have hlt : i % 8 < 8 := Nat.mod_lt _ (by decide)
    simp only [h, update_self, UInt8.toBitVec_or, BitVec.getLsbD_or,
      BitVec.getLsbD_twoPow, hlt, decide_true, Bool.true_and, bit_pos_eq h, Bool.or_comm]
  · grind

/-- Clearing a bit changes that bit and no other. -/
theorem getBit_clearBit (b : Bytes) (i j : Nat) :
    getBit (clearBit b i) j = (!decide (j = i) && getBit b j) := by
  unfold getBit clearBit mask
  by_cases h : j / 8 = i / 8
  · have hlt : i % 8 < 8 := Nat.mod_lt _ (by decide)
    have hlt' : j % 8 < 8 := Nat.mod_lt _ (by decide)
    simp only [h, update_self, UInt8.toBitVec_and, UInt8.toBitVec_not,
      BitVec.getLsbD_and, BitVec.getLsbD_not, BitVec.getLsbD_twoPow, hlt, hlt', decide_true,
      Bool.true_and, bit_pos_eq h, Bool.and_comm]
  · grind

/-! ## Ranges -/

/-- Copy `n` bytes of `src` to position `o`. -/
def blit (b : Bytes) (o n : Nat) (src : Bytes) : Bytes := fun i =>
  if o ≤ i ∧ i < o + n then src (i - o) else b i

/-- A copied byte is the source's. -/
theorem blit_of_mem {o n i : Nat} {src : Bytes} (h : o ≤ i ∧ i < o + n) :
    blit b o n src i = src (i - o) := if_pos h

/-- A byte outside the copied range is as before. -/
theorem blit_of_outside {o n i : Nat} {src : Bytes} (h : i < o ∨ o + n ≤ i) :
    blit b o n src i = b i := if_neg (by omega)

end Bytes

end Dixv6.Lib
