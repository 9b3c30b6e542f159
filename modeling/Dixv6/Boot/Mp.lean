import Dixv6.Lib.Bytes
import Mathlib.Tactic.Common

/-!
# The table of processors

`mpinit` (`mp.c`) walks the entries of the configuration table that the firmware leaves. An entry of
an unknown type does not advance the cursor, so that the loop stays there for ever, and nothing bounds
the number of processors by the size of `cpus`. **`mpinit_robust`: the walk does what it should exactly
for the tables without an unknown entry and with at most `NCPU` processors.**
-/

namespace Dixv6.Boot

open Lib Lib.Bytes

/-- The size of `cpus` (`param.h`). -/
abbrev NCPU : Nat := 8

/-- The table entry types (`mp.h:49`). -/
inductive EntryType
  | proc | bus | ioapic | iointr | lintr
  deriving DecidableEq

/-- The type that the first byte of an entry says, if it is a known one. -/
def EntryType.ofByte (b : UInt8) : Option EntryType :=
  if b = 0 then some .proc else if b = 1 then some .bus else if b = 2 then some .ioapic
  else if b = 3 then some .iointr else if b = 4 then some .lintr else none

/-- The size of an entry. -/
def EntryType.size : EntryType → Nat
  | .proc => 20
  | .bus | .ioapic | .iointr | .lintr => 8

/-- The variables that `mpinit` sets. `bcpu` is an index into `cpus`, and `id` are the fields of the
elements of `cpus`. -/
structure Mp where
  ismp : Bool := false
  ncpu : Nat := 0
  bcpu : Nat := 0
  id : Nat → UInt8 := fun _ => 0
  lapic : Nat := 0
  ioapicid : UInt8 := 0

section
variable (conf : Bytes)

/-- The field `length` of the table. -/
def tableLength : Nat := leGet conf 4 2

/-- The checks of `mpconfig` (`mp.c:86`): signature, version and checksum. -/
def mpconfig : Bool :=
  (conf 0 = 80 ∧ conf 1 = 67 ∧ conf 2 = 77 ∧ conf 3 = 80) ∧ (conf 6 = 1 ∨ conf 6 = 4) ∧
    (List.range (tableLength conf)).foldl (fun sum i => sum + conf i) 0 = 0

/-- One turn of the loop at `p`: where the cursor is then and the variables. There is no result if
`cpus` is indexed outside its bounds. -/
def entry (p : Nat) (s : Mp) : Option (Nat × Mp) :=
  match EntryType.ofByte (conf p) with
  | some .proc =>
    if s.ncpu < NCPU then
      some (p + EntryType.proc.size, { s with
        ismp := s.ismp && s.ncpu == (conf (p + 1)).toNat
        bcpu := if conf (p + 3) &&& 2 ≠ 0 then s.ncpu else s.bcpu
        id := Function.update s.id s.ncpu (.ofNat s.ncpu)
        ncpu := s.ncpu + 1 })
    else none
  | some .ioapic => some (p + EntryType.ioapic.size, { s with ioapicid := conf (p + 1) })
  | some t => some (p + t.size, s)
  | none => some (p, { s with ismp := false })

/-- How the loop ends within a number of turns. -/
inductive Outcome
  | done (s : Mp)
  | outOfBounds
  | running

/-- The loop of `mpinit` over the entries from `p` to the end of the table. -/
def entries : Nat → Nat → Mp → Outcome
  | 0, _, _ => .running
  | n + 1, p, s =>
    if p < tableLength conf then
      match entry conf p s with
      | some (p, s) => entries n p s
      | none => .outOfBounds
    else .done s

/-- `mpinit` (`mp.c:100`) with a table that was found, in a number of turns of its loop. The
interrupt-mode register it may then write is left out. -/
def mpinit (n : Nat) : Outcome :=
  if mpconfig conf then
    match entries conf n 44 { ismp := true, lapic := leGet conf 36 4 } with
    | .done s => .done (if s.ismp then s else { s with ncpu := 1, lapic := 0, ioapicid := 0 })
    | o => o
  else .done {}

/-- The types of the entries of a table from `p` on, up to the first unknown one. A table of `n` bytes
has fewer entries than that. -/
def typesFrom : Nat → Nat → List (Option EntryType)
  | 0, _ => []
  | n + 1, p =>
    if p < tableLength conf then
      match EntryType.ofByte (conf p) with
      | some t => some t :: typesFrom n (p + t.size)
      | none => [none]
    else []

/-- The types of the entries of a table. -/
def entryTypes : List (Option EntryType) := typesFrom conf (tableLength conf) 44

/-- What is asked of `mpinit`: it returns, without an access outside `cpus`, and falls back to one
processor if there is an unknown entry. -/
def Robust : Prop := ∃ n s, mpinit conf n = .done s ∧
  (none ∈ entryTypes conf → s.ismp = false ∧ s.ncpu = 1)

end

/-! ## The walk -/

section
variable {conf : Bytes} {p n : Nat} {s : Mp}

theorem EntryType.size_pos (t : EntryType) : 0 < t.size := by cases t <;> decide

/-- The loop does not get past an unknown entry. -/
theorem entries_unknown (hp : p < tableLength conf) (ht : EntryType.ofByte (conf p) = none) :
    entries conf n p s = .running := by
  induction n generalizing s with
  | zero => rfl
  | succ n ih => rw [entries, if_pos hp, entry, ht]; exact ih

/-- A known entry advances the cursor, unless it is a processor for which there is no room. -/
theorem entry_known {t : EntryType} (ht : EntryType.ofByte (conf p) = some t) :
    (t = .proc ∧ NCPU ≤ s.ncpu ∧ entry conf p s = none) ∨ ∃ s', entry conf p s = some (p + t.size, s') ∧
      s'.ncpu = s.ncpu + [some t].count (some .proc) ∧ (t = .proc → s.ncpu < NCPU) := by
  rw [entry, ht]
  cases t with
  | proc =>
    by_cases h : s.ncpu < NCPU
    · exact .inr ⟨_, if_pos h, rfl, fun _ => h⟩
    · exact .inl ⟨rfl, Nat.le_of_not_lt h, if_neg h⟩
  | _ => exact .inr ⟨_, rfl, rfl, nofun⟩

/-- **The loop ends well** exactly if it meets no unknown entry and at most as many processors as there
is room for: induction on a bound for the entries that are left. -/
theorem entries_done_iff {k : Nat} (hk : tableLength conf - p ≤ k) (hs : s.ncpu ≤ NCPU) :
    (∃ n s', entries conf n p s = .done s') ↔ none ∉ typesFrom conf k p ∧
      s.ncpu + (typesFrom conf k p).count (some .proc) ≤ NCPU := by
  induction k generalizing p s with
  | zero =>
    refine ⟨fun _ => ⟨by simp [typesFrom], by simpa [typesFrom] using hs⟩, fun _ => ⟨1, s, ?_⟩⟩
    exact if_neg (by omega)
  | succ k ih =>
    by_cases hp : p < tableLength conf
    swap
    · rw [typesFrom, if_neg hp]
      exact ⟨fun _ => ⟨by simp, by simpa using hs⟩, fun _ => ⟨1, s, if_neg hp⟩⟩
    rw [typesFrom, if_pos hp]
    cases ht : EntryType.ofByte (conf p) with
    | none =>
      refine ⟨fun ⟨n, s', h⟩ => ?_, fun h => absurd (List.mem_singleton_self _) h.1⟩
      rw [entries_unknown hp ht] at h
      cases h
    | some t =>
      have hpos := t.size_pos
      rcases entry_known (s := s) ht with ⟨rfl, hfull, he⟩ | ⟨s', he, hn, hroom⟩
      · refine ⟨fun ⟨n, s', h⟩ => ?_, fun h => ?_⟩
        · rcases n with _ | n
          · cases h
          · rw [entries, if_pos hp, he] at h
            cases h
        · grind
      · have hstep : (∃ n s'', entries conf n p s = .done s'') ↔
            ∃ n s'', entries conf n (p + t.size) s' = .done s'' := by
          refine ⟨fun ⟨n, s'', h⟩ => ?_, fun ⟨n, s'', h⟩ => ⟨n + 1, s'', ?_⟩⟩
          · rcases n with _ | n
            · cases h
            · rw [entries, if_pos hp, he] at h
              exact ⟨n, s'', h⟩
          · rw [entries, if_pos hp, he]
            exact h
        have hcount : s'.ncpu ≤ NCPU := by
          cases t <;> simp at hn hroom <;> omega
        rw [hstep, ih (by omega) hcount, hn, Nat.add_assoc, ← List.count_append]
        simp

/-- `mpinit` returns without an access outside `cpus` exactly if its loop ends well. -/
theorem mpinit_done_iff (hconf : mpconfig conf = true) : (∃ n s, mpinit conf n = .done s) ↔
    none ∉ entryTypes conf ∧ (entryTypes conf).count (some .proc) ≤ NCPU := by
  have hloop := entries_done_iff (s := { ismp := true, lapic := leGet conf 36 4 })
    (show tableLength conf - 44 ≤ tableLength conf by omega) (Nat.zero_le _)
  rw [Nat.zero_add] at hloop
  rw [entryTypes, ← hloop]
  constructor
  · grind [mpinit]
  · rintro ⟨n, s, h⟩
    exact ⟨n, _, by rw [mpinit, if_pos hconf, h]⟩

end

/-- **The tables that `mpinit` can walk.** For every table with a valid signature, version and checksum,
`mpinit` returns, stays inside `cpus` and falls back on an unknown entry exactly if the table has no
unknown entry and at most `NCPU` processors. -/
theorem mpinit_robust (conf : Bytes) (hconf : mpconfig conf = true) : Robust conf ↔
    none ∉ entryTypes conf ∧ (entryTypes conf).count (some .proc) ≤ NCPU := by
  rw [← mpinit_done_iff hconf]
  constructor
  · rintro ⟨n, s, h, -⟩
    exact ⟨n, s, h⟩
  · intro h
    have hknown := ((mpinit_done_iff hconf).1 h).1
    obtain ⟨n, s, h⟩ := h
    exact ⟨n, s, h, fun hu => absurd hu hknown⟩

/-- A table of the given length and version 1 whose entries all start with the same byte, with the
checksum `sum` at its place. -/
def uniform (length type sum : UInt8) : Bytes := fun i =>
  if i < 4 then [80, 67, 77, 80].getD i 0 else if i = 4 then length else if i = 6 then 1
  else if i = 7 then sum else if 44 ≤ i ∧ (i - 44) % 20 = 0 then type else 0

/-- One processor. -/
theorem mpinit_robust_one : Robust (uniform 64 0 143) :=
  (mpinit_robust (uniform 64 0 143) (by decide +kernel)).2 (by decide +kernel)

/-- **Tables that `mpinit` cannot walk**: one entry of type 5, on which it never returns, and nine
processors, for which it writes behind `cpus`. -/
theorem mpinit_stuck : (mpconfig (uniform 64 5 138) = true ∧ ¬ Robust (uniform 64 5 138)) ∧
    (mpconfig (uniform 224 0 239) = true ∧ ¬ Robust (uniform 224 0 239)) := by
  have hstuck : mpconfig (uniform 64 5 138) = true := by decide +kernel
  have hnine : mpconfig (uniform 224 0 239) = true := by decide +kernel
  refine ⟨⟨hstuck, fun ⟨n, s, h, _⟩ => ?_⟩, hnine, fun ⟨n, s, h, _⟩ => ?_⟩
  · exact absurd ((mpinit_done_iff hstuck).1 ⟨n, s, h⟩).1 (by decide +kernel)
  · exact absurd ((mpinit_done_iff hnine).1 ⟨n, s, h⟩).2 (by decide +kernel)

end Dixv6.Boot
