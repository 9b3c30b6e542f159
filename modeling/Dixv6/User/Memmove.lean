import Mathlib.Algebra.Ring.Nat
import Mathlib.Logic.Function.Basic
import Mathlib.Tactic.Common

/-!
# The two `memmove`s

The kernel's `memmove` (`string.c`) copies downward when the destination starts inside the source and
upward otherwise, and it moves the bytes in every case (`memmove_moved`). The `memmove` of the user
library (`ulib.c`) always copies upward: `copyUp_apply` says that it **repeats the first bytes of the
source** when the destination starts inside it. So both move the bytes exactly if the source repeats
itself there anyway (`memmoves_moved`).
-/

namespace Dixv6.User

open Function

/-- A memory of bytes with 32-bit addresses. -/
abbrev Memory := UInt32 → UInt8

/-- The loop `while(n-- > 0) *d++ = *s++`. -/
def copyUp : Nat → UInt32 → UInt32 → Memory → Memory
  | 0, _, _, m => m
  | n + 1, d, s, m => copyUp n (d + 1) (s + 1) (update m d (m s))

/-- The loop `while(n-- > 0) *--d = *--s`. -/
def copyDown : Nat → UInt32 → UInt32 → Memory → Memory
  | 0, _, _, m => m
  | n + 1, d, s, m => copyDown n (d - 1) (s - 1) (update m (d - 1) (m (s - 1)))

/-- `memmove` of the kernel (`string.c:32`). -/
def memmove (dst src n : UInt32) (m : Memory) : Memory :=
  if src < dst ∧ dst < src + n then copyDown n.toNat (dst + n) (src + n) m
  else copyUp n.toNat dst src m

/-- `memmove` of the user library (`ulib.c:95`); its count is an `int`. -/
def umemmove (dst src : UInt32) (n : Int32) (m : Memory) : Memory := copyUp n.toInt.toNat dst src m

/-- The `n` bytes at `src` have been moved to `dst`, and nothing else has changed. -/
def Moved (dst src n : UInt32) (m m' : Memory) : Prop :=
  ∀ a, m' a = if a - dst < n then m (src + (a - dst)) else m a

section
variable {d s n : UInt32} {m : Memory}

/-- Addresses are equal if their numbers are. -/
theorem addr_ext {a b : UInt32} (h : a.toNat = b.toNat) : a = b := UInt32.toNat_inj.1 h

theorem toNat_addr (d : UInt32) (k : Nat) : (d + .ofNat k).toNat = (d.toNat + k) % 2 ^ 32 := by
  simp [UInt32.toNat_add]

/-- The upward loop, its last turn taken off. -/
theorem copyUp_succ (k : Nat) (d s : UInt32) (m : Memory) : copyUp (k + 1) d s m =
    update (copyUp k d s m) (d + .ofNat k) (copyUp k d s m (s + .ofNat k)) := by
  induction k generalizing d s m with
  | zero => simp [copyUp]
  | succ k ih =>
    have hnext : ∀ x : UInt32, x + 1 + .ofNat k = x + .ofNat (k + 1) := fun x => addr_ext (by
      rw [toNat_addr, toNat_addr, UInt32.toNat_add, UInt32.toNat_one]
      omega)
    rw [copyUp, ih, hnext, hnext]
    rfl

/-- **The upward loop** repeats the bytes before the destination if that starts inside the source. -/
theorem copyUp_apply (k : Nat) (hk : k < 2 ^ 32) (a : UInt32) : copyUp k d s m a =
    if (a - d).toNat < k then m (s + .ofNat ((a - d).toNat % (d - s).toNat)) else m a := by
  induction k generalizing a with
  | zero => simp [copyUp]
  | succ k ih =>
    have ih := ih (by omega)
    have hd := d.toNat_lt
    have hs := s.toNat_lt
    have hdist := (d - s).toNat_lt
    rw [copyUp_succ]
    by_cases ha : a = d + .ofNat k
    · have hoff : (d + .ofNat k - d).toNat = k := by
        rw [UInt32.toNat_sub, toNat_addr]
        omega
      -- where the byte that this turn reads lies from the destination on
      have hread : (s + .ofNat k - d).toNat = (k + 2 ^ 32 - (d - s).toNat) % 2 ^ 32 := by
        rw [UInt32.toNat_sub, UInt32.toNat_sub, toNat_addr]
        omega
      subst ha
      rw [update_self, ih, hread, hoff, if_pos (Nat.lt_succ_self k)]
      rcases Nat.lt_or_ge k (d - s).toNat with hlt | hge
      · rw [if_neg (by omega), Nat.mod_eq_of_lt hlt]
      · rw [show (k + 2 ^ 32 - (d - s).toNat) % 2 ^ 32 = k - (d - s).toNat by omega]
        by_cases h0 : (d - s).toNat = 0
        · rw [if_neg (by omega), h0, Nat.mod_zero]
        · rw [if_pos (by omega), ← Nat.mod_eq_sub_mod hge]
    · have hne : (a - d).toNat ≠ k := fun h => ha (addr_ext (by
        rw [toNat_addr, ← h, UInt32.toNat_sub]
        have := a.toNat_lt
        omega))
      rw [update_of_ne ha, ih]
      exact if_congr (by omega) rfl rfl

/-- **The downward loop** moves the bytes if the destination does not reach around to the source. -/
theorem copyDown_apply (k : Nat) (hk : k + (d - s).toNat ≤ 2 ^ 32) (m : Memory) (a : UInt32) :
    copyDown k (d + .ofNat k) (s + .ofNat k) m a =
      if (a - d).toNat < k then m (s + (a - d)) else m a := by
  induction k generalizing m with
  | zero => simp [copyDown]
  | succ k ih =>
    have hd := d.toNat_lt
    have hs := s.toNat_lt
    have ha := a.toNat_lt
    have hprev : ∀ x : UInt32, x + .ofNat (k + 1) - 1 = x + .ofNat k := fun x => addr_ext (by
      rw [UInt32.toNat_sub, toNat_addr, toNat_addr, UInt32.toNat_one]
      omega)
    rw [copyDown, hprev, hprev, ih (by omega)]
    by_cases hak : a = d + .ofNat k
    · have hoff : (a - d).toNat = k := by
        rw [hak, UInt32.toNat_sub, toNat_addr]
        omega
      rw [if_neg (by omega), if_pos (by omega), hak, update_self]
      congr 1
      refine addr_ext ?_
      rw [toNat_addr, UInt32.toNat_add, ← hak, hoff]
    · have hne : (a - d).toNat ≠ k := fun h => hak (addr_ext (by
        rw [toNat_addr, ← h, UInt32.toNat_sub]
        omega))
      rw [update_of_ne hak]
      by_cases hlt : (a - d).toNat < k
      · -- the byte to move has not been written yet
        have hread : s + (a - d) ≠ d + .ofNat k := fun h => by
          have h' := congrArg UInt32.toNat h
          rw [toNat_addr, UInt32.toNat_add] at h'
          rw [UInt32.toNat_sub d s] at hk
          omega
        rw [if_pos hlt, if_pos (by omega), update_of_ne hread]
      · rw [if_neg hlt, if_neg (by omega)]

end

/-- The bytes at `src` repeat those before `dst`, if that is above. -/
def Repeats (dst src n : UInt32) (m : Memory) : Prop :=
  src < dst → ∀ i < n.toNat, m (src + .ofNat i) = m (src + .ofNat (i % (dst.toNat - src.toNat)))

/-- The count is an `int` and the bytes repeat themselves, or the bytes are there already. -/
def UpwardOk (dst src n : UInt32) (m : Memory) : Prop :=
  (n.toNat < 2 ^ 31 ∧ Repeats dst src n m) ∨
    (2 ^ 31 ≤ n.toNat ∧ ∀ i < n.toNat, m (dst + .ofNat i) = m (src + .ofNat i))

section
variable {dst src n : UInt32} {m : Memory}

theorem Moved.unique {m' m'' : Memory} (h : Moved dst src n m m') (h' : Moved dst src n m m'') :
    m' = m'' := funext fun a => (h a).trans (h' a).symm

/-- Upward from a source that does not reach the destination. -/
theorem dist_mod (hs : src.toNat + n.toNat ≤ 2 ^ 32) {i : Nat} (hi : i < n.toNat)
    (h : src < dst → src.toNat + n.toNat ≤ dst.toNat) : i % (dst - src).toNat = i := by
  have hlt := dst.toNat_lt
  rw [UInt32.toNat_sub]
  rcases Nat.lt_trichotomy src.toNat dst.toNat with h1 | h1 | h1
  · have := h (UInt32.lt_iff_toNat_lt.2 h1)
    exact Nat.mod_eq_of_lt (by omega)
  · grind
  · exact Nat.mod_eq_of_lt (by omega)

/-- **The kernel's `memmove` moves the bytes.** -/
theorem memmove_moved (hd : dst.toNat + n.toNat ≤ 2 ^ 32) (hs : src.toNat + n.toNat ≤ 2 ^ 32) :
    Moved dst src n m (memmove dst src n m) := by
  intro a
  unfold memmove
  split
  · next h =>
    have h1 := UInt32.lt_iff_toNat_lt.1 h.1
    have hfar : n.toNat + (dst - src).toNat ≤ 2 ^ 32 := by
      rw [UInt32.toNat_sub]
      omega
    have hcopy := copyDown_apply n.toNat hfar m a
    rw [UInt32.ofNat_toNat] at hcopy
    rw [hcopy]
    exact if_congr UInt32.lt_iff_toNat_lt.symm rfl rfl
  · next h =>
    rw [copyUp_apply _ n.toNat_lt]
    by_cases ha : (a - dst).toNat < n.toNat
    · rw [if_pos ha, if_pos (UInt32.lt_iff_toNat_lt.2 ha), dist_mod hs ha fun hlt => ?_,
        UInt32.ofNat_toNat]
      have h2 : ¬ dst.toNat < (src + n).toNat := fun h' => h ⟨hlt, UInt32.lt_iff_toNat_lt.2 h'⟩
      have h1 := UInt32.lt_iff_toNat_lt.1 hlt
      rw [UInt32.toNat_add] at h2
      omega
    · rw [if_neg ha, if_neg (mt UInt32.lt_iff_toNat_lt.1 ha)]

/-- What moving means, byte by byte. -/
theorem moved_copyUp {k : Nat} (hk : k ≤ n.toNat) : Moved dst src n m (copyUp k dst src m) ↔
    (∀ i < k, m (src + .ofNat (i % (dst - src).toNat)) = m (src + .ofNat i)) ∧
      ∀ i, k ≤ i → i < n.toNat → m (dst + .ofNat i) = m (src + .ofNat i) := by
  have hn := n.toNat_lt
  have hoff : ∀ i < n.toNat, (dst + .ofNat i - dst).toNat = i := fun i hi => by
    have := dst.toNat_lt
    rw [UInt32.toNat_sub, toNat_addr]
    omega
  constructor
  · intro h
    have hat : ∀ i < n.toNat, (if i < k then m (src + .ofNat (i % (dst - src).toNat))
        else m (dst + .ofNat i)) = m (src + .ofNat i) := fun i hi => by
      have hi' := h (dst + .ofNat i)
      rw [copyUp_apply k (by omega), hoff i hi,
        if_pos (UInt32.lt_iff_toNat_lt.2 (by rw [hoff i hi]; exact hi))] at hi'
      rw [hi', ← UInt32.ofNat_toNat (x := dst + .ofNat i - dst), hoff i hi]
    refine ⟨fun i hi => ?_, fun i hi hin => ?_⟩
    · have := hat i (by omega)
      rwa [if_pos hi] at this
    · have := hat i hin
      rwa [if_neg (by omega)] at this
  · rintro ⟨h1, h2⟩ a
    rw [copyUp_apply k (by omega)]
    by_cases ha : (a - dst).toNat < n.toNat
    · rw [if_pos (UInt32.lt_iff_toNat_lt.2 ha)]
      split
      · rw [h1 _ ‹_›, UInt32.ofNat_toNat]
      · have := h2 _ (by omega) ha
        rw [UInt32.ofNat_toNat] at this
        rw [← this]
        congr 1
        exact addr_ext (by
          have := a.toNat_lt
          have := dst.toNat_lt
          rw [UInt32.toNat_add, UInt32.toNat_sub]
          omega)
    · rw [if_neg (mt UInt32.lt_iff_toNat_lt.1 ha), if_neg (by omega)]

/-- **Both `memmove`s move the bytes and agree** exactly if copying upward does no harm. -/
theorem memmoves_moved (hd : dst.toNat + n.toNat ≤ 2 ^ 32) (hs : src.toNat + n.toNat ≤ 2 ^ 32) :
    (Moved dst src n m (memmove dst src n m) ∧ Moved dst src n m (umemmove dst src n.toInt32 m) ∧
      memmove dst src n m = umemmove dst src n.toInt32 m) ↔ UpwardOk dst src n m := by
  have hkernel := memmove_moved (m := m) hd hs
  have hcount : n.toInt32.toInt.toNat = if n.toNat < 2 ^ 31 then n.toNat else 0 := by
    grind [Int32.toInt, UInt32.toBitVec_toInt32, BitVec.toInt_eq_toNat_cond, UInt32.toNat_toBitVec]
  have hboth : (Moved dst src n m (memmove dst src n m) ∧
      Moved dst src n m (umemmove dst src n.toInt32 m) ∧
      memmove dst src n m = umemmove dst src n.toInt32 m) ↔
      Moved dst src n m (umemmove dst src n.toInt32 m) :=
    ⟨fun h => h.2.1, fun h => ⟨hkernel, h, hkernel.unique h⟩⟩
  rw [hboth, umemmove, hcount]
  by_cases hn : n.toNat < 2 ^ 31
  · have hrep : (∀ i < n.toNat, m (src + .ofNat (i % (dst - src).toNat)) = m (src + .ofNat i)) ↔
        Repeats dst src n m := by
      by_cases hlt : src < dst
      · have h1 := UInt32.lt_iff_toNat_lt.1 hlt
        have hdist : (dst - src).toNat = dst.toNat - src.toNat := by
          have := dst.toNat_lt
          rw [UInt32.toNat_sub]
          omega
        simp only [Repeats, hlt, true_imp_iff, hdist, eq_comm]
      · refine iff_of_true (fun i hi => ?_) fun h => absurd h hlt
        rw [dist_mod hs hi fun h => absurd h hlt]
    rw [if_pos hn, moved_copyUp (Nat.le_refl _), hrep, UpwardOk]
    constructor
    · exact fun h => .inl ⟨hn, h.1⟩
    · grind
  · rw [if_neg hn, moved_copyUp (Nat.zero_le _), UpwardOk]
    constructor
    · grind
    · grind

end

/-- The theorem at an example: ranges that do not meet. -/
theorem memmoves_moved_apart : Moved 8 2 3 (·.toUInt8) (memmove 8 2 3 (·.toUInt8)) ∧
    Moved 8 2 3 (·.toUInt8) (umemmove 8 2 3 (·.toUInt8)) ∧
    memmove 8 2 3 (·.toUInt8) = umemmove 8 2 3 (·.toUInt8) := by
  refine (memmoves_moved (n := 3) (by decide) (by decide)).2 (.inl ⟨by decide, fun _ i hi => ?_⟩)
  rw [Nat.mod_eq_of_lt (Nat.lt_trans hi (by decide))]

/-- **The two disagree**: two bytes moved up by one. -/
theorem umemmove_smears : ¬ Moved 1 0 2 (fun a => a.toUInt8) (umemmove 1 0 2 fun a => a.toUInt8) ∧
    memmove 1 0 2 (fun a => a.toUInt8) 2 = 1 ∧ umemmove 1 0 2 (fun a => a.toUInt8) 2 = 0 := by
  refine ⟨fun h => ?_, by decide, by decide⟩
  have := h 2
  revert this
  decide

end Dixv6.User
