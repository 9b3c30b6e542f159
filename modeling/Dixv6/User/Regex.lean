import Mathlib.Computability.Language

/-!
# The regular expressions of `grep`

`match`, `matchhere` and `matchstar` of `grep.c`. A C string is the list of its bytes before the NUL,
so that the pointers the functions advance are tails of lists and `*text == '\0'` reads `text = []`.

A pattern is an optional `^`, a body and an optional `$`; the body denotes a language (`bodyLang`).
**`matchText_iff`: the matcher finds exactly the texts with a substring in that language**, at the
beginning of the text under `^` and at its end under `$`.
-/

namespace Dixv6.User

open scoped Computability

/-- The bytes with a meaning in patterns: `^`, `$`, `.` and `*`. -/
abbrev caret : UInt8 := 94
@[inherit_doc caret] abbrev dollar : UInt8 := 36
@[inherit_doc caret] abbrev dot : UInt8 := 46
@[inherit_doc caret] abbrev star : UInt8 := 42

mutual

/-- `matchhere` (`grep.c:84`): `re` matches at the beginning of `text`. -/
def matchhere (re text : List UInt8) : Bool :=
  match re with
  | [] => true
  | c :: re =>
    if re.head? = some star then matchstar c re.tail text
    else if c = dollar ∧ re = [] then text = []
    else match text with
      | [] => false
      | x :: text => if c = dot ∨ c = x then matchhere re text else false
termination_by (re.length, text.length + 1)
decreasing_by all_goals simp; omega

/-- `matchstar` (`grep.c:97`): `c*re` matches at the beginning of `text`. -/
def matchstar (c : UInt8) (re text : List UInt8) : Bool :=
  if matchhere re text then true
  else match text with
    | [] => false
    | x :: text => if x = c ∨ c = dot then matchstar c re text else false
termination_by (re.length, text.length + 2)
decreasing_by all_goals simp [Prod.lex_def]

end

/-- The loop of `match`, which also looks at the empty string behind the text. -/
def matchFrom (re : List UInt8) : List UInt8 → Bool
  | [] => matchhere re []
  | x :: text => if matchhere re (x :: text) then true else matchFrom re text

/-- `match` (`grep.c:72`). -/
def matchText (re text : List UInt8) : Bool :=
  match re with
  | [] => matchFrom [] text
  | c :: re => if c = caret then matchhere re text else matchFrom (c :: re) text

/-! ## The language of a pattern -/

/-- What one character of a pattern matches: itself, or anything if it is a dot. -/
def charLang (c : UInt8) : Language UInt8 := {w | ∃ x, w = [x] ∧ (c = dot ∨ c = x)}

/-- The language of the body of a pattern: `x*` is any number of `x`, and a `*` with nothing before it
is a character as any other. -/
def bodyLang : List UInt8 → Language UInt8
  | [] => 1
  | [c] => charLang c
  | c :: d :: re => if d = star then (charLang c)∗ * bodyLang re else charLang c * bodyLang (d :: re)

/-- The pattern without the `$` that anchors it. -/
def stem (re : List UInt8) : List UInt8 := if re.getLast? = some dollar then re.dropLast else re

/-- A prefix of the text is in the language of the pattern, the whole text if `$` ends the pattern. -/
def FoundHere (re text : List UInt8) : Prop :=
  ∃ mid post, text = mid ++ post ∧ mid ∈ bodyLang (stem re) ∧ (re.getLast? = some dollar → post = [])

/-- A substring of the text is in the language of the pattern, where the first character of the pattern
anchors it to the beginning of the text if it is `^`. -/
def Found (re text : List UInt8) : Prop :=
  if re.head? = some caret then FoundHere re.tail text
  else ∃ pre rest, text = pre ++ rest ∧ FoundHere re rest

section
variable {c : UInt8} {re text : List UInt8}

/-- A character takes one byte of the text it fits. -/
theorem mem_charLang_mul {w : List UInt8} {l : Language UInt8} :
    w ∈ charLang c * l ↔ ∃ x v, w = x :: v ∧ (c = dot ∨ c = x) ∧ v ∈ l := by
  rw [Language.mem_mul]
  constructor
  · rintro ⟨_, ⟨x, rfl, hx⟩, v, hv, rfl⟩
    exact ⟨x, v, rfl, hx, hv⟩
  · rintro ⟨x, v, rfl, hx, hv⟩
    exact ⟨[x], ⟨x, rfl, hx⟩, v, hv, rfl⟩

/-- A starred character takes no byte, or one it fits and then more of them. -/
theorem mem_star_mul {w : List UInt8} {l : Language UInt8} : w ∈ (charLang c)∗ * l ↔
    w ∈ l ∨ ∃ x v, w = x :: v ∧ (c = dot ∨ c = x) ∧ v ∈ (charLang c)∗ * l := by
  have hunfold : (charLang c)∗ * l = l + charLang c * ((charLang c)∗ * l) := by
    conv_lhs => rw [← Language.one_add_self_mul_kstar_eq_kstar, add_mul, one_mul, mul_assoc]
  rw [← mem_charLang_mul]
  exact (congrArg (w ∈ ·) hunfold).to_iff

theorem bodyLang_star : bodyLang (c :: star :: re) = (charLang c)∗ * bodyLang re := by
  rw [bodyLang, if_pos rfl]

theorem bodyLang_char (h : re.head? ≠ some star) : bodyLang (c :: re) = charLang c * bodyLang re := by
  cases re with
  | nil => rw [bodyLang, bodyLang, mul_one]
  | cons d re => rw [bodyLang, if_neg fun hd => h (congrArg some hd)]

/-- The anchor stands behind the first character unless it is the first character. -/
theorem stem_cons (h : ¬ (c = dollar ∧ re = [])) : stem (c :: re) = c :: stem re ∧
    ((c :: re).getLast? = some dollar ↔ re.getLast? = some dollar) := by
  cases re with
  | nil => simp [stem, show c ≠ dollar from fun hc => h ⟨hc, rfl⟩]
  | cons d re => grind [stem, List.dropLast_cons_cons]

/-- No star comes to the front by taking the anchor off. -/
theorem head_stem (h : re.head? ≠ some star) : (stem re).head? ≠ some star := by
  rcases re with _ | ⟨c, _ | ⟨d, re⟩⟩
  · exact h
  · unfold stem
    split
    · nofun
    · exact h
  · unfold stem
    split <;> exact h

/-- The anchor of a pattern that starts with a starred character stands behind the star. -/
theorem foundHere_star : FoundHere (c :: star :: re) text ↔ ∃ mid post, text = mid ++ post ∧
    mid ∈ (charLang c)∗ * bodyLang (stem re) ∧ (re.getLast? = some dollar → post = []) := by
  obtain ⟨hstem, hlast⟩ := stem_cons (show ¬ (c = dollar ∧ star :: re = []) by simp)
  obtain ⟨hstem', hlast'⟩ := stem_cons (show ¬ (star = dollar ∧ re = []) from fun h => absurd h.1 (by decide))
  simp only [FoundHere, hstem, hstem', hlast, hlast', bodyLang_star]

/-- A starred character matches nothing, or one byte and then more of them. -/
theorem foundHere_star_step : FoundHere (c :: star :: re) text ↔ FoundHere re text ∨
    ∃ x t, text = x :: t ∧ (c = dot ∨ c = x) ∧ FoundHere (c :: star :: re) t := by
  simp only [foundHere_star]
  constructor
  · rintro ⟨_, post, rfl, hmid, hpost⟩
    rcases mem_star_mul.1 hmid with hmid | ⟨x, v, rfl, hx, hv⟩
    · exact .inl ⟨_, post, rfl, hmid, hpost⟩
    · grind
  · rintro (⟨mid, post, rfl, hmid, hpost⟩ | ⟨x, _, rfl, hx, v, post, rfl, hv, hpost⟩)
    · exact ⟨mid, post, rfl, mem_star_mul.2 (.inl hmid), hpost⟩
    · exact ⟨x :: v, post, rfl, mem_star_mul.2 (.inr ⟨x, v, rfl, hx, hv⟩), hpost⟩

/-- A character without a star matches one byte. -/
theorem foundHere_char (hstar : re.head? ≠ some star) (hend : ¬ (c = dollar ∧ re = [])) :
    FoundHere (c :: re) text ↔ ∃ x t, text = x :: t ∧ (c = dot ∨ c = x) ∧ FoundHere re t := by
  obtain ⟨hstem, hlast⟩ := stem_cons hend
  simp only [FoundHere, hstem, hlast, bodyLang_char (head_stem hstar), mem_charLang_mul]
  constructor
  · grind
  · grind

/-! ## The matcher is exact -/

/-- A starred character, given what the rest of the pattern matches: induction on the text. -/
theorem matchstar_iff (hre : ∀ text, matchhere re text ↔ FoundHere re text) :
    matchstar c re text ↔ FoundHere (c :: star :: re) text := by
  induction text with
  | nil =>
    rw [matchstar, foundHere_star_step, ← hre]
    simp
  | cons x t ih =>
    have hfit : (x = c ∨ c = dot) ↔ (c = dot ∨ c = x) := by rw [or_comm, eq_comm (a := x)]
    rw [matchstar, foundHere_star_step, ← hre]
    simp [← ih, hfit]

/-- What `matchhere` finds: induction on the pattern, where a star takes two characters off it. -/
theorem matchhere_iff (re text : List UInt8) : matchhere re text ↔ FoundHere re text := by
  induction hn : re.length using Nat.strong_induction_on generalizing re text with
  | _ n ih =>
  subst hn
  cases re with
  | nil => simp [matchhere, FoundHere, stem, bodyLang, Language.mem_one]
  | cons c re =>
    rw [matchhere.eq_def]
    dsimp only
    split_ifs with hstar hend
    · obtain ⟨re, rfl⟩ := List.head?_eq_some_iff.1 hstar
      exact matchstar_iff fun text => ih re.length (by rw [List.length_cons, List.length_cons]; omega) re text rfl
    · obtain ⟨rfl, rfl⟩ := hend
      simp [FoundHere, stem, bodyLang, Language.mem_one]
    · rw [foundHere_char hstar hend]
      cases text with
      | nil => simp
      | cons x t => simp [ih re.length (by simp) re t rfl]

/-- The loop of `match` looks at every suffix of the text. -/
theorem matchFrom_iff : matchFrom re text ↔ ∃ pre rest, text = pre ++ rest ∧ FoundHere re rest := by
  induction text with
  | nil => simp [matchFrom, matchhere_iff]
  | cons x t ih =>
    simp only [matchFrom, Bool.if_true_left, Bool.or_eq_true, decide_eq_true_eq, matchhere_iff, ih]
    constructor
    · rintro (h | ⟨pre, rest, rfl, h⟩)
      · exact ⟨[], x :: t, rfl, h⟩
      · exact ⟨x :: pre, rest, rfl, h⟩
    · rintro ⟨_ | ⟨y, pre⟩, rest, he, h⟩
      · exact .inl (he ▸ h)
      · exact .inr ⟨pre, rest, (List.cons.inj he).2, h⟩

end

/-- **The matcher is exact.** `match` answers 1 exactly for the texts in which a substring belongs to
the language of the pattern, at the anchors the pattern has. -/
theorem matchText_iff (re text : List UInt8) : matchText re text = true ↔ Found re text := by
  cases re with
  | nil => exact matchFrom_iff
  | cons c re =>
    simp only [matchText, Found, List.head?_cons, Option.some.injEq, List.tail_cons]
    split
    · exact matchhere_iff re text
    · exact matchFrom_iff

end Dixv6.User
