import Dixv6.Console.Model

/-!
# What the console gives to its readers

The ring agrees with the line editor (`Agrees`): its indices are apart as far as the text that
nobody has taken and the line under edit are long, modulo `2^32`, and its cells hold them. Every
typed character and every turn of a reader keeps that.

What readers return is compared with what successive reads of the whole text return (`answers`).
A reader that has taken the text of a full ring sleeps with it in its hands, and then another reader
can take the rest of the line, or the reader can be killed. `console_canonical` says that nothing
else goes wrong.
-/

namespace Dixv6.Console

open Lib Lib.Ring Function

/-! ## The ring and the editor -/

/-- The ring holds what the editor says. -/
structure Agrees (i : Input) (t : Tty) : Prop where
  /-- The text that nobody has taken and the line under edit are in the ring. -/
  holds : Holds (2 ^ 32) INPUT_BUF i.buf i.r.toNat i.e.toNat (t.unread ++ t.edit)
  /-- The write index is between them. -/
  w : i.w.toNat = (i.r.toNat + t.unread.length) % 2 ^ 32
  /-- Nothing is taken before it is let go. -/
  taken : t.taken ≤ t.text.length

section
variable {i : Input} {t : Tty} {c : UInt8} {k : Nat}

/-- The distance of two indices. -/
theorem toNat_sub_of_count {a b : UInt32} (h : b.toNat = (a.toNat + k) % 2 ^ 32) (hk : k < 2 ^ 32) :
    (b - a).toNat = k := by
  have ha := a.toNat_lt
  rw [UInt32.toNat_sub, h]
  omega

theorem Agrees.length_le (h : Agrees i t) : t.unread.length + t.edit.length ≤ INPUT_BUF := by
  rw [← List.length_append]
  exact h.holds.fits

theorem Agrees.w_sub (h : Agrees i t) : (i.w - i.r).toNat = t.unread.length := by
  have hle := h.length_le
  exact toNat_sub_of_count h.w (by simp only [INPUT_BUF] at hle; omega)

theorem Agrees.e_sub (h : Agrees i t) : (i.e - i.r).toNat = t.unread.length + t.edit.length := by
  have hle := h.length_le
  have hcount := h.holds.count
  rw [List.length_append] at hcount
  exact toNat_sub_of_count hcount (by simp only [INPUT_BUF] at hle; omega)

/-- There is nothing to read. -/
theorem Agrees.empty_iff (h : Agrees i t) : i.r = i.w ↔ t.unread = [] := by
  have hsub := h.w_sub
  constructor
  · intro heq
    rw [heq, UInt32.sub_self] at hsub
    exact List.length_eq_zero_iff.1 hsub.symm
  · intro hnil
    rw [hnil, List.length_nil] at hsub
    have hr := i.r.toNat_lt
    have hw := i.w.toNat_lt
    rw [UInt32.toNat_sub] at hsub
    exact UInt32.toNat_inj.1 (by omega)

/-- There is nothing to edit. -/
theorem Agrees.edit_iff (h : Agrees i t) : i.e = i.w ↔ t.edit = [] := by
  have hw := h.w_sub
  have he := h.e_sub
  constructor
  · intro heq
    rw [heq, hw] at he
    exact List.length_eq_zero_iff.1 (by omega)
  · intro hnil
    rw [hnil, List.length_nil, Nat.add_zero, ← hw] at he
    have := UInt32.toNat_inj.1 he
    exact (UInt32.sub_left_inj i.r).1 this

/-- What stands between the read and the write index is the text that nobody has taken. -/
theorem Agrees.unread (h : Agrees i t) : i.unread = t.unread := by
  rw [Input.unread, h.w_sub]
  refine List.ext_getElem (by simp) fun k hk hk' => ?_
  rw [List.getElem_map, List.getElem_range,
    h.holds.cell k (by rw [List.length_append]; omega), List.getElem_append_left hk']

/-- A character is rubbed out. -/
theorem Agrees.rub (h : Agrees i t) (hne : t.edit ≠ []) :
    Agrees { i with e := i.e - 1 } { t with edit := t.edit.dropLast } ∧
      i.cell (i.e - 1) = t.edit.getLast hne := by
  have hq : t.unread ++ t.edit = (t.unread ++ t.edit.dropLast) ++ [t.edit.getLast hne] := by
    rw [List.append_assoc, List.dropLast_append_getLast hne]
  have hholds := h.holds
  rw [hq] at hholds
  have he : (i.e - 1).toNat = (i.e.toNat + 2 ^ 32 - 1) % 2 ^ 32 := by
    rw [UInt32.toNat_sub, UInt32.toNat_one]
    omega
  refine ⟨⟨?_, h.w, h.taken⟩, ?_⟩
  · rw [he]
    exact hholds.unpush (by decide)
  · rw [Input.cell, he]
    exact hholds.back (by decide) (by decide)

/-- The line is killed. -/
theorem killLine_agrees (h : Agrees i t) (hnl : newline ∉ t.edit) :
    Agrees (killLine i) { t with edit := [] } := by
  fun_induction killLine i generalizing t with
  | case1 i hcond ih =>
    have hne : t.edit ≠ [] := fun e => hcond.1 (h.edit_iff.2 e)
    exact @ih { t with edit := t.edit.dropLast } (h.rub hne).1
      fun hmem => hnl (List.mem_of_mem_dropLast hmem)
  | case2 i hcond =>
    have hnil : t.edit = [] := by
      by_contra hne
      refine hcond ⟨fun e => hne (h.edit_iff.1 e), fun hc => ?_⟩
      rw [(h.rub hne).2] at hc
      exact hnl (hc ▸ List.getLast_mem hne)
    rw [← hnil]
    exact h

/-- A character is stored. -/
theorem Agrees.store (h : Agrees i t) (hfull : ¬ t.Full) :
    Agrees { i with buf := update i.buf (i.e.toNat % INPUT_BUF) c, e := i.e + 1 }
      { t with edit := t.edit ++ [c] } := by
  have hlt : (t.unread ++ t.edit).length < INPUT_BUF := by
    rw [List.length_append]
    exact Nat.lt_of_not_le hfull
  refine ⟨?_, h.w, h.taken⟩
  have hpush := h.holds.push (x := c) (by decide) hlt
  rw [List.append_assoc] at hpush
  rw [UInt32.toNat_add, UInt32.toNat_one]
  exact hpush

theorem Tty.unread_commit (h : t.taken ≤ t.text.length) : t.commit.unread = t.unread ++ t.edit :=
  List.drop_append_of_le_length h

/-- The line is let go. -/
theorem Agrees.commit (h : Agrees i t) : Agrees { i with w := i.e } t.commit := by
  have hunread := Tty.unread_commit h.taken
  refine ⟨?_, ?_, ?_⟩
  · rw [hunread, show t.commit.edit = [] from rfl, List.append_nil]
    exact h.holds
  · rw [hunread]
    exact h.holds.count
  · exact h.taken.trans (by rw [Tty.commit, List.length_append]; omega)

/-- **A typed character** does to the ring what it does to the editor. -/
theorem key_agrees (h : Agrees i t) (hnl : newline ∉ t.edit) :
    Agrees (key i c).1 (t.key c) ∧ newline ∉ (t.key c).edit := by
  have hfull : (i.e - i.r).toNat < INPUT_BUF ↔ ¬ t.Full := by
    rw [h.e_sub, Tty.Full, Nat.not_le]
  rw [key, Tty.key]
  by_cases hP : c = ctrlP
  · rw [if_pos hP, if_pos (.inl hP)]
    exact ⟨h, hnl⟩
  by_cases h0 : c = 0
  · subst h0
    exact ⟨h, hnl⟩
  rw [if_neg hP, if_neg (not_or.2 ⟨hP, h0⟩)]
  by_cases hU : c = ctrlU
  · rw [if_pos hU, if_pos hU]
    exact ⟨killLine_agrees h hnl, List.not_mem_nil⟩
  rw [if_neg hU, if_neg hU]
  by_cases hH : c = ctrlH ∨ c = delete
  · rw [if_pos hH, if_pos hH]
    refine ⟨?_, fun hmem => hnl (List.mem_of_mem_dropLast hmem)⟩
    by_cases hne : t.edit = []
    · rw [if_neg (not_not.2 (h.edit_iff.2 hne)), hne, List.dropLast_nil, ← hne]
      exact h
    · rw [if_pos fun e => hne (h.edit_iff.1 e)]
      exact (h.rub hne).1
  rw [if_neg hH, if_neg hH]
  by_cases hroom : t.Full
  · grind
  rw [if_neg hroom, if_pos ⟨h0, hfull.2 hroom⟩]
  generalize (if c = carriage then newline else c) = c
  have hstore := h.store (c := c) hroom
  have hlast : i.e + 1 = i.r + 128 ↔ Tty.Full { t with edit := t.edit ++ [c] } := by
    have hsub := hstore.e_sub
    have hle := hstore.length_le
    have hr := i.r.toNat_lt
    rw [Tty.Full, ← hsub]
    rw [← hsub] at hle
    rw [← UInt32.toNat_inj]
    simp only [UInt32.toNat_sub, UInt32.toNat_add, UInt32.toNat_one, INPUT_BUF] at hle ⊢
    have h128 : (128 : UInt32).toNat = 128 := rfl
    omega
  rw [if_congr (or_congr_right (or_congr_right hlast)) rfl rfl]
  by_cases hgo : c = newline ∨ c = ctrlD ∨ Tty.Full { t with edit := t.edit ++ [c] }
  · rw [if_pos hgo, if_pos hgo]
    exact ⟨hstore.commit, List.not_mem_nil⟩
  · grind

theorem Tty.unread_pop {l : List UInt8} (hl : t.unread = c :: l) :
    Tty.unread { t with taken := t.taken + 1 } = l := by
  rw [Tty.unread] at hl
  rw [Tty.unread, ← List.drop_drop, hl]
  rfl

/-- The front of the text is taken. -/
theorem Agrees.pop {l : List UInt8} (h : Agrees i t) (hl : t.unread = c :: l) :
    i.cell i.r = c ∧ Agrees { i with r := i.r + 1 } { t with taken := t.taken + 1 } := by
  have hholds := h.holds
  rw [hl, List.cons_append] at hholds
  have hunread := Tty.unread_pop hl
  have hr : (i.r + 1).toNat = (i.r.toNat + 1) % 2 ^ 32 := by
    rw [UInt32.toNat_add, UInt32.toNat_one]
  refine ⟨hholds.front, ?_, ?_, ?_⟩
  · rw [hunread, hr]
    exact hholds.pop (by decide)
  · rw [hunread, hr, h.w, hl, List.length_cons, Nat.mod_add_mod]
    congr 1
    omega
  · by_contra hle
    rw [Tty.unread, List.drop_eq_nil_of_le (Nat.le_of_not_lt hle)] at hl
    cases hl

/-- The read index moves on. -/
def Input.skip (i : Input) (k : Nat) : Input := { i with r := i.r + UInt32.ofNat k }

theorem Input.skip_zero (i : Input) : i.skip 0 = i := by
  rw [Input.skip, show UInt32.ofNat 0 = 0 from rfl, UInt32.add_zero]

theorem Input.skip_one (i : Input) : i.skip 1 = { i with r := i.r + 1 } := rfl

theorem Input.skip_skip (i : Input) (k l : Nat) : (i.skip k).skip l = i.skip (k + l) := by
  simp only [Input.skip, UInt32.ofNat_add, UInt32.add_assoc]

/-- Some text is taken. -/
theorem Agrees.skip (h : Agrees i t) (hk : k ≤ t.unread.length) :
    Agrees (i.skip k) { t with taken := t.taken + k } ∧ ((i.skip k).r - i.r).toNat = k := by
  have hle := h.length_le
  refine ⟨?_, toNat_sub_of_count ?_ (by simp only [INPUT_BUF] at hle; omega)⟩
  · clear hle
    induction k generalizing i t with
    | zero =>
      rw [Input.skip_zero]
      exact h
    | succ k ih =>
      obtain ⟨c, l, hl⟩ : ∃ c l, t.unread = c :: l := by
        cases hl : t.unread with
        | nil => rw [hl] at hk; cases hk
        | cons c l => exact ⟨c, l, rfl⟩
      have hstep := ih (h.pop hl).2 (by
        rw [Tty.unread, List.length_drop]
        rw [Tty.unread, List.length_drop] at hk
        dsimp only
        omega)
      rw [← Input.skip_one, Input.skip_skip] at hstep
      rw [Nat.add_comm k 1, ← Nat.add_assoc]
      exact hstep
  · simp only [Input.skip, UInt32.toNat_add, UInt32.toNat_ofNat']
    rw [Nat.add_mod_mod]

end

/-! ## The turns of a reader -/

section
variable {i : Input} {t : Tty} {killed : Bool} {target : Nat}

/-- **A turn of a reader** takes what a read takes of the text. If the text does not end the read it
takes all and sleeps, and a `^D` is used up by the read that finds nothing before it. -/
theorem consolereadFrom_eq : ∀ (n : Nat) (dst : List UInt8) {i : Input} {t : Tty}, Agrees i t →
    dst.length + n = target → consolereadFrom killed target n dst i =
      match line n t.unread with
      | none => (if killed then .killed else .sleeps (n - t.unread.length) (dst ++ t.unread),
          i.skip t.unread.length)
      | some x => (.returns (n - x.1.length) (dst ++ x.1),
          i.skip (if dst ++ x.1 = [] ∧ n ≠ 0 then 1 else x.1.length))
  | 0, dst, i, t, h, hlen => by
    simp [consolereadFrom, line, Input.skip_zero]
  | n + 1, dst, i, t, h, hlen => by
    rw [consolereadFrom]
    cases hl : t.unread with
    | nil =>
      rw [if_pos (h.empty_iff.2 hl)]
      simp [line, Input.skip_zero]
    | cons c l =>
      obtain ⟨hc, hpop⟩ := h.pop hl
      have hne : i.r ≠ i.w := fun e => by
        rw [h.empty_iff.1 e] at hl
        cases hl
      rw [if_neg hne, line]
      dsimp only
      rw [hc]
      by_cases hD : c = ctrlD
      · rw [if_pos hD, if_pos hD]
        dsimp only
        cases dst with
        | nil =>
          rw [if_neg (by rw [List.length_nil] at hlen; omega), if_pos ⟨rfl, Nat.succ_ne_zero n⟩]
          rfl
        | cons d dst =>
          rw [if_pos (by rw [List.length_cons] at hlen; omega), if_neg (fun e => by cases e.1),
            UInt32.add_sub_cancel, List.append_nil, List.length_nil, Input.skip_zero]
          rfl
      rw [if_neg hD, if_neg hD]
      by_cases hN : c = newline
      · rw [if_pos hN, if_pos hN]
        simp only
        rw [if_neg (fun e => by simp at e)]
        rfl
      rw [if_neg hN, if_neg hN]
      have ih := @consolereadFrom_eq n (dst ++ [c]) _ _ hpop (by simp; omega)
      rw [Tty.unread_pop hl] at ih
      rw [ih]
      cases line n l with
      | none =>
        simp only [Option.map_none, ← Input.skip_one, Input.skip_skip, List.append_assoc,
          List.singleton_append, List.length_cons, Nat.add_sub_add_right, Nat.add_comm 1]
      | some x =>
        simp only [Option.map_some, ← Input.skip_one, Input.skip_skip, List.append_assoc,
          List.singleton_append, List.length_cons, Nat.add_sub_add_right, Nat.add_comm 1,
          List.append_eq_nil_iff, reduceCtorEq, and_false, false_and, if_false]

end

/-! ## What reads return of a text -/

section
variable {n : Nat} {l l' b rest : List UInt8}

/-- A read waits exactly if the text has neither enough characters nor an end. -/
theorem line_eq_none : ∀ {n : Nat} {l : List UInt8}, line n l = none ↔
    l.length < n ∧ newline ∉ l ∧ ctrlD ∉ l
  | 0, l => by simp [line]
  | n + 1, [] => by simp [line]
  | n + 1, c :: l => by
    rw [line]
    by_cases hD : c = ctrlD
    · simp [hD]
    by_cases hN : c = newline
    · rw [if_neg hD, if_pos hN]
      simp [hN]
    rw [if_neg hD, if_neg hN, Option.map_eq_none_iff, line_eq_none, List.length_cons]
    simp only [List.mem_cons, Ne.symm hD, Ne.symm hN, false_or, Nat.add_lt_add_iff_right]

/-- A read takes a front of the text. -/
theorem line_rest : ∀ {n : Nat} {l b rest : List UInt8}, line n l = some (b, rest) →
    l = b ++ rest ∧ b.length ≤ n
  | 0, l, b, rest, h => by
    cases h
    exact ⟨rfl, Nat.le_refl 0⟩
  | n + 1, [], b, rest, h => by cases h
  | n + 1, c :: l, b, rest, h => by
    rw [line] at h
    split_ifs at h with hD hN
    · cases h
      exact ⟨rfl, Nat.zero_le _⟩
    · grind
    · obtain ⟨x, hx, he⟩ := Option.map_eq_some_iff.1 h
      cases he
      obtain ⟨hl, hn⟩ := line_rest hx
      exact ⟨by rw [List.cons_append, ← hl], Nat.succ_le_succ hn⟩

/-- A read of something that takes nothing has met a `^D`. -/
theorem line_nil (h : line n l = some ([], rest)) (hn : n ≠ 0) : l.head? = some ctrlD := by
  match n, l, h with
  | 0, _, _ => exact absurd rfl hn
  | n + 1, c :: l, h =>
    rw [line] at h
    split_ifs at h with hD hN
    · rw [hD]
      rfl
    · cases h
    · obtain ⟨x, -, he⟩ := Option.map_eq_some_iff.1 h
      cases he

/-- The text behind what a read takes does not matter to it. -/
theorem line_grow : ∀ {n : Nat} {l b rest : List UInt8} (t : List UInt8),
    line n l = some (b, rest) → line n (l ++ t) = some (b, rest ++ t)
  | 0, l, b, rest, t, h => by
    cases h
    rfl
  | n + 1, [], b, rest, t, h => by cases h
  | n + 1, c :: l, b, rest, t, h => by
    rw [line] at h
    rw [List.cons_append, line]
    split_ifs at h ⊢ with hD hN
    · cases h
      rfl
    · cases h
      rfl
    · obtain ⟨x, hx, he⟩ := Option.map_eq_some_iff.1 h
      cases he
      rw [line_grow t hx]
      rfl

/-- A read goes on behind what it has already taken. -/
theorem line_append : ∀ {d : List UInt8}, newline ∉ d → ctrlD ∉ d →
    line (d.length + n) (d ++ l) = (line n l).map fun x => (d ++ x.1, x.2)
  | [], _, _ => by simp
  | c :: d, hN, hD => by
    rw [List.mem_cons, not_or] at hN hD
    rw [List.length_cons, Nat.add_right_comm, List.cons_append, line, if_neg (Ne.symm hD.1),
      if_neg (Ne.symm hN.1), line_append hN.2 hD.2, Option.map_map]
    rfl

theorem answer_grow (t : List UInt8) (h : answer n l = some (b, rest)) :
    answer n (l ++ t) = some (b, rest ++ t) := by
  rw [answer] at h ⊢
  cases l with
  | nil =>
    cases n with
    | zero =>
      cases h
      rfl
    | succ n => cases h
  | cons c l =>
    rw [List.cons_append, List.head?_cons] at *
    split_ifs at h ⊢ with hc
    · cases h
      rfl
    · exact line_grow t h

theorem answers_grow (t : List UInt8) : ∀ {ns : List Nat} {l : List UInt8} {bs : List (List UInt8)}
    {rest : List UInt8}, answers ns l = some (bs, rest) → answers ns (l ++ t) = some (bs, rest ++ t)
  | [], l, bs, rest, h => by
    cases h
    rfl
  | n :: ns, l, bs, rest, h => by
    obtain ⟨x, hx, h⟩ := Option.bind_eq_some_iff.1 h
    obtain ⟨y, hy, he⟩ := Option.map_eq_some_iff.1 h
    cases he
    rw [answers, answer_grow t hx, Option.bind_some, answers_grow t hy]
    rfl

/-- One read more. -/
theorem answers_concat {ns : List Nat} {bs : List (List UInt8)} (h : answers ns l = some (bs, rest))
    (hlast : answer n rest = some (b, l')) : answers (ns ++ [n]) l = some (bs ++ [b], l') := by
  induction ns generalizing l bs with
  | nil =>
    cases h
    rw [List.nil_append, answers, hlast]
    rfl
  | cons n' ns ih =>
    obtain ⟨x, hx, h⟩ := Option.bind_eq_some_iff.1 h
    obtain ⟨y, hy, he⟩ := Option.map_eq_some_iff.1 h
    cases he
    rw [List.cons_append, answers, hx, Option.bind_some, ih hy]
    rfl

end

/-! ## The system -/

section
variable {ι : Type*} {s s' : State ι} {p : ι} {hand : List UInt8}

/-- What a reader has in its hands does not end a read, and it waits for more. -/
structure Reader.Waits (c : Reader) : Prop where
  length : c.dst.length + c.n = c.target
  more : c.dst ≠ [] → c.n ≠ 0
  newline : newline ∉ c.dst
  ctrlD : ctrlD ∉ c.dst

/-- The ring agrees with the editor, and the readers wait. -/
structure Sound (s : State ι) : Prop where
  agrees : Agrees s.input s.tty
  edit : newline ∉ s.tty.edit
  waits : ∀ p c, s.reader p = some c → c.Waits
  value : ∀ a ∈ s.returned, a.value = a.dst.length

/-- Nobody but `p` has characters in its hands. -/
def Alone (s : State ι) (p : ι) : Prop := ∀ q c, q ≠ p → s.reader q = some c → c.dst = []

/-- The characters that readers have in their hands: one has them all, or nobody has any. -/
def Hands (s : State ι) (hand : List UInt8) : Prop :=
  (hand = [] ∧ ∀ q c, s.reader q = some c → c.dst = []) ∨
    ∃ p c, s.reader p = some c ∧ c.dst = hand ∧ Alone s p

/-- The reads that have returned, in their order, returned what successive reads return of the text
that was typed. What they left of it is in the hands of one reader or not yet taken. -/
def Answered (s : State ι) : Prop :=
  ∃ hand, Hands s hand ∧ answers (s.returned.map Answer.target) s.tty.text =
    some (s.returned.map Answer.dst, hand ++ s.tty.unread)

/-- Reads do not get into each other's way: a reader takes characters only while no other has some
in its hands, and a killed one takes them only if it then returns. -/
def Orderly (s : State ι) : Event ι → Prop
  | .turn p => ∀ c, s.reader p = some c →
    (c.n = 0 ∨ s.input.r = s.input.w ∨ Alone s p) ∧
    (s.killed p = true → (c.dst = [] ∧ s.input.r = s.input.w) ∨ c.n ≤ s.input.unread.length ∨
      newline ∈ s.input.unread ∨ ctrlD ∈ s.input.unread)
  | _ => True

theorem Reader.waits_start (n : Nat) : (⟨n, n, [], false⟩ : Reader).Waits :=
  ⟨Nat.zero_add n, fun h => absurd rfl h, List.not_mem_nil, List.not_mem_nil⟩

/-- What is in the hands of readers depends on nothing else about them. -/
theorem Hands.congr (h : Hands s hand)
    (hdst : ∀ q, (s'.reader q).map Reader.dst = (s.reader q).map Reader.dst) : Hands s' hand := by
  have hback : ∀ q c, s'.reader q = some c → ∃ c', s.reader q = some c' ∧ c'.dst = c.dst := by
    intro q c hc
    have := hdst q
    rw [hc, Option.map_some] at this
    exact Option.map_eq_some_iff.1 this.symm
  rcases h with ⟨hnil, hall⟩ | ⟨p, c, hc, hdst', halone⟩
  · refine .inl ⟨hnil, fun q c hc => ?_⟩
    obtain ⟨c', hc', he⟩ := hback q c hc
    rw [← he, hall q c' hc']
  · have := hdst p
    rw [hc, Option.map_some] at this
    obtain ⟨c', hc', he⟩ := Option.map_eq_some_iff.1 this
    refine .inr ⟨p, c', hc', he.trans hdst', fun q d hq hd => ?_⟩
    obtain ⟨d', hd', he'⟩ := hback q d hd
    rw [← he', halone q d' hq hd']

/-- What has been let go stays as it is. -/
theorem Tty.key_text (t : Tty) (c : UInt8) :
    (∃ new, (t.key c).text = t.text ++ new) ∧ (t.key c).taken = t.taken := by
  have hsame : ∃ new, t.text = t.text ++ new := ⟨[], (List.append_nil _).symm⟩
  rw [Tty.key]
  dsimp only
  generalize (if c = carriage then newline else c) = d
  split_ifs
  · exact ⟨hsame, rfl⟩
  · exact ⟨hsame, rfl⟩
  · exact ⟨hsame, rfl⟩
  · exact ⟨hsame, rfl⟩
  · exact ⟨⟨_, rfl⟩, rfl⟩
  · exact ⟨hsame, rfl⟩

/-- A wakeup changes nothing but that readers are awake. -/
theorem reader_typed (s : State ι) (c : UInt8) (q : ι) :
    ((s.typed c).reader q).map Reader.dst = (s.reader q).map Reader.dst ∧
    ∀ d, (s.typed c).reader q = some d → ∃ d', s.reader q = some d' ∧ (d'.Waits → d.Waits) := by
  rw [State.typed]
  dsimp only
  split_ifs
  · rw [wakeup, Option.map_map]
    refine ⟨rfl, fun d hd => ?_⟩
    obtain ⟨d', hd', rfl⟩ := Option.map_eq_some_iff.1 hd
    exact ⟨d', hd', fun h => ⟨h.length, h.more, h.newline, h.ctrlD⟩⟩
  · exact ⟨rfl, fun d hd => ⟨d, hd, id⟩⟩

theorem sound_start : Sound (start : State ι) where
  agrees := ⟨Holds.nil (UInt32.toNat_lt _), rfl, Nat.le_refl 0⟩
  edit := List.not_mem_nil
  waits := fun _ _ h => by cases h
  value := fun _ h => by cases h

theorem Sound.typed (h : Sound s) (c : UInt8) : Sound (s.typed c) where
  agrees := (key_agrees h.agrees h.edit).1
  edit := (key_agrees h.agrees h.edit).2
  waits := fun q d hd => by
    obtain ⟨d', hd', hw⟩ := (reader_typed s c q).2 d hd
    exact hw (h.waits q d' hd')
  value := h.value

theorem Answered.typed (hs : Sound s) (h : Answered s) (c : UInt8) : Answered (s.typed c) := by
  obtain ⟨hand, hhands, hans⟩ := h
  obtain ⟨⟨new, htext⟩, htaken⟩ := s.tty.key_text c
  refine ⟨hand, hhands.congr fun q => (reader_typed s c q).1, ?_⟩
  have hunread : (s.tty.key c).unread = s.tty.unread ++ new := by
    rw [Tty.unread, htext, htaken, List.drop_append_of_le_length hs.agrees.taken]
    rfl
  show answers _ (s.tty.key c).text = some (_, hand ++ (s.tty.key c).unread)
  rw [htext, hunread, ← List.append_assoc]
  exact answers_grow new hans

/-- What an interrupt does is what its characters do one after the other. -/
theorem consoleintr_rule {I : State ι → Prop} (hI : ∀ s c, I s → I (s.typed c)) (cs : List UInt8)
    (h : I s) : I (consoleintr s cs) := by
  induction cs generalizing s with
  | nil => exact h
  | cons c cs ih => exact ih (hI s c h)

variable [DecidableEq ι]

/-- **What a turn of a reader does**, in terms of the text. -/
theorem consoleread_cases {c : Reader} (h : Sound s) (hc : s.reader p = some c) :
    (line c.n s.tty.unread = none ∧ ∃ reader, consoleread s p c = { s with
        input := s.input.skip s.tty.unread.length
        reader := update s.reader p reader
        tty := { s.tty with taken := s.tty.taken + s.tty.unread.length } } ∧
      reader = if s.killed p then none else
        some { c with
          n := c.n - s.tty.unread.length
          dst := c.dst ++ s.tty.unread
          asleep := true }) ∨
    ∃ b rest k, line c.n s.tty.unread = some (b, rest) ∧
      k = (if c.dst ++ b = [] ∧ c.n ≠ 0 then 1 else b.length) ∧ k ≤ s.tty.unread.length ∧
      consoleread s p c = { s with
        input := s.input.skip k
        reader := update s.reader p none
        tty := { s.tty with taken := s.tty.taken + k }
        returned := s.returned ++ [⟨c.target, (c.dst ++ b).length, c.dst ++ b⟩] } := by
  have hloop := @consolereadFrom_eq (s.killed p) c.target c.n c.dst _ _ h.agrees
    (h.waits p c hc).length
  have hlen := (h.waits p c hc).length
  cases hl : line c.n s.tty.unread with
  | none =>
    refine .inl ⟨rfl, _, ?_, rfl⟩
    rw [hl] at hloop
    rw [consoleread, hloop]
    rw [(h.agrees.skip (Nat.le_refl _)).2]
    cases s.killed p <;> rfl
  | some x =>
    obtain ⟨hx, hn⟩ := line_rest hl
    rw [hl] at hloop
    have hk : (if c.dst ++ x.1 = [] ∧ c.n ≠ 0 then 1 else x.1.length) ≤ s.tty.unread.length := by
      split_ifs with hnil
      · have hnone : line c.n s.tty.unread = some ([], x.2) := by
          rw [hl, ← (List.append_eq_nil_iff.1 hnil.1).2]
        have := line_nil hnone hnil.2
        rw [Nat.one_le_iff_ne_zero]
        intro he
        rw [List.length_eq_zero_iff.1 he] at this
        cases this
      · rw [hx, List.length_append]
        omega
    refine .inr ⟨x.1, x.2, _, rfl, rfl, hk, ?_⟩
    have hvalue : c.target - (c.n - x.1.length) = (c.dst ++ x.1).length := by
      rw [List.length_append]
      omega
    rw [consoleread, hloop]
    dsimp only
    rw [(h.agrees.skip hk).2, hvalue]

/-- A turn of a reader keeps the ring and the editor in agreement. -/
theorem Sound.turn {c : Reader} (h : Sound s) (hc : s.reader p = some c) :
    Sound (consoleread s p c) := by
  have hother : ∀ r : Option Reader, (∀ d, r = some d → d.Waits) →
      ∀ q d, update s.reader p r q = some d → d.Waits := by
    intro r hr q d hd
    by_cases hq : q = p
    · rw [hq, update_self] at hd
      exact hr d hd
    · rw [update_of_ne hq] at hd
      exact h.waits q d hd
  have hw := h.waits p c hc
  rcases consoleread_cases h hc with ⟨hl, r, he, hr⟩ | ⟨b, rest, k, hl, -, hk, he⟩
  · rw [he]
    refine ⟨(h.agrees.skip (Nat.le_refl _)).1, h.edit, hother r fun d hd => ?_, h.value⟩
    obtain ⟨hlt, hnl, hctrl⟩ := line_eq_none.1 hl
    rw [hd] at hr
    split_ifs at hr with hkilled
    cases hr
    refine ⟨?_, fun _ => ?_, fun hmem => ?_, fun hmem => ?_⟩
    · have := hw.length
      dsimp only
      rw [List.length_append]
      omega
    · dsimp only
      omega
    · exact (List.mem_append.1 hmem).elim hw.newline hnl
    · exact (List.mem_append.1 hmem).elim hw.ctrlD hctrl
  · rw [he]
    refine ⟨(h.agrees.skip hk).1, h.edit, hother none (fun d hd => by cases hd), ?_⟩
    intro a ha
    rcases List.mem_append.1 ha with ha | ha
    · exact h.value a ha
    · rw [List.mem_singleton.1 ha]

/-- Every step keeps the ring and the editor in agreement. -/
theorem Sound.step {ev : Event ι} (h : Sound s) (hstep : step s ev = some s') : Sound s' := by
  cases ev with
  | intr cs =>
    cases hstep
    exact consoleintr_rule (fun _ c h => h.typed c) cs h
  | call q n =>
    rw [Console.step] at hstep
    split_ifs at hstep
    cases hstep
    refine ⟨h.agrees, h.edit, fun q' d hd => ?_, h.value⟩
    by_cases hq : q' = q
    · rw [hq] at hd
      dsimp only at hd
      rw [update_self] at hd
      cases hd
      exact Reader.waits_start _
    · dsimp only at hd
      rw [update_of_ne hq] at hd
      exact h.waits q' d hd
  | turn q =>
    obtain ⟨c, hc, hstep⟩ := Option.bind_eq_some_iff.1 hstep
    split_ifs at hstep
    cases hstep
    exact h.turn hc
  | kill q =>
    cases hstep
    refine ⟨h.agrees, h.edit, fun q' d hd => ?_, h.value⟩
    by_cases hq : q' = q
    · rw [hq] at hd
      dsimp only at hd
      rw [update_self] at hd
      obtain ⟨d', hd', rfl⟩ := Option.map_eq_some_iff.1 hd
      have hw := h.waits q d' hd'
      exact ⟨hw.length, hw.more, hw.newline, hw.ctrlD⟩
    · dsimp only at hd
      rw [update_of_ne hq] at hd
      exact h.waits q' d hd

/-- What is in the hands of readers is in the hands of the one that is alone. -/
theorem Hands.of_alone {c : Reader} (h : Hands s hand) (hc : s.reader p = some c)
    (halone : Alone s p) : hand = c.dst := by
  rcases h with ⟨hnil, hall⟩ | ⟨q, d, hd, hdst, hq⟩
  · rw [hnil, hall p c hc]
  · by_cases he : q = p
    · rw [he, hc] at hd
      cases hd
      exact hdst.symm
    · rw [← hdst, halone q d he hd, hq p c (Ne.symm he) hc]

/-- A reader with nothing in its hands comes or goes. -/
theorem Hands.replace {r : Option Reader} (h : Hands s hand)
    (hp : ∀ c, s.reader p = some c → c.dst = []) (hr : ∀ c, r = some c → c.dst = [])
    (hs : s'.reader = update s.reader p r) : Hands s' hand := by
  have hall : ∀ q c, (q ≠ p → s.reader q = some c → c.dst = []) → s'.reader q = some c →
      c.dst = [] := by
    intro q c hold hc
    rw [hs] at hc
    by_cases he : q = p
    · rw [he, update_self] at hc
      exact hr c hc
    · rw [update_of_ne he] at hc
      exact hold he hc
  rcases h with ⟨hnil, hold⟩ | ⟨q, d, hd, hdst, hq⟩
  · exact .inl ⟨hnil, fun q c hc => hall q c (fun _ => hold q c) hc⟩
  · by_cases he : q = p
    · rw [he] at hd hq
      exact .inl ⟨by rw [← hdst, hp d hd], fun q c hc => hall q c (hq q c) hc⟩
    · refine .inr ⟨q, d, by rw [hs, update_of_ne he, hd], hdst, fun q' c hne hc => ?_⟩
      exact hall q' c (fun _ => hq q' c hne) hc

theorem answer_zero (l : List UInt8) : answer 0 l = some ([], l) := by
  rw [answer, if_neg fun h => h.1 rfl]
  rfl

/-- What a reader returns is what a read of the text returns, with what it had in its hands. -/
theorem answer_of_line {c : Reader} {u b rest : List UInt8} (hw : c.Waits) (hn : c.n ≠ 0)
    (hl : line c.n u = some (b, rest)) : answer c.target (c.dst ++ u) = some (c.dst ++ b,
      u.drop (if c.dst ++ b = [] ∧ c.n ≠ 0 then 1 else b.length)) := by
  obtain ⟨hu, -⟩ := line_rest hl
  have htarget : c.target ≠ 0 := by
    have := hw.length
    omega
  rw [answer]
  by_cases hnil : c.dst ++ b = []
  · obtain ⟨hdst, hb⟩ := List.append_eq_nil_iff.1 hnil
    rw [hb] at hl
    rw [hdst, List.nil_append, if_pos ⟨htarget, line_nil hl hn⟩, hb, if_pos ⟨rfl, hn⟩,
      List.drop_one]
    rfl
  · have hhead : (c.dst ++ u).head? ≠ some ctrlD := by
      cases hdst : c.dst with
      | cons d dst =>
        intro he
        refine hw.ctrlD ?_
        rw [hdst, Option.some.inj he]
        exact List.mem_cons_self
      | nil =>
        intro he
        obtain ⟨n, hn⟩ := Nat.exists_eq_succ_of_ne_zero hn
        obtain ⟨u', rfl⟩ : ∃ u', u = ctrlD :: u' := List.head?_eq_some_iff.1 he
        rw [hn, line, if_pos rfl] at hl
        cases hl
        exact hnil (by rw [hdst]; rfl)
    rw [if_neg fun h => hhead h.2, if_neg fun h => hnil h.1, ← hw.length,
      line_append hw.newline hw.ctrlD, hl, hu, List.drop_left]
    rfl

/-- **A turn of a reader** that is orderly keeps what the reads have returned in order. -/
theorem Answered.turn {c : Reader} (hs : Sound s) (h : Answered s) (hc : s.reader p = some c)
    (hok : Orderly s (.turn p)) : Answered (consoleread s p c) := by
  obtain ⟨hand, hhands, hans⟩ := h
  obtain ⟨hother, hkill⟩ := hok c hc
  have hw := hs.waits p c hc
  have hone : c.n ≠ 0 → s.tty.unread ≠ [] → Alone s p := fun hn hu =>
    (hother.resolve_left hn).resolve_left fun he => hu (hs.agrees.empty_iff.1 he)
  rcases consoleread_cases hs hc with ⟨hl, r, he, hr⟩ | ⟨b, rest, k, hl, hk, -, he⟩
  · obtain ⟨hlt, hnl, hctrl⟩ := line_eq_none.1 hl
    have hreader : (consoleread s p c).reader = update s.reader p r := by rw [he]
    have hret : (consoleread s p c).returned = s.returned := by rw [he]
    have htext : (consoleread s p c).tty.text = s.tty.text := by rw [he]
    have hunread : (consoleread s p c).tty.unread = [] := by
      rw [he, Tty.unread, ← List.drop_drop]
      exact List.drop_length
    by_cases hkilled : s.killed p = true
    · -- it had nothing and found nothing
      rw [if_pos hkilled] at hr
      rw [hs.agrees.unread] at hkill
      obtain ⟨hdst, hempty⟩ : c.dst = [] ∧ s.input.r = s.input.w :=
        (hkill hkilled).resolve_right fun h => h.elim (fun h => by omega) fun h => h.elim hnl hctrl
      refine ⟨hand, hhands.replace (p := p) (fun d hd => ?_) (fun d hd => ?_) hreader, ?_⟩
      · rw [hc] at hd
        cases hd
        exact hdst
      · rw [hr] at hd
        cases hd
      · rw [hs.agrees.empty_iff.1 hempty] at hans
        rw [hret, htext, hunread]
        exact hans
    · rw [if_neg hkilled] at hr
      by_cases hu : s.tty.unread = []
      · refine ⟨hand, hhands.congr fun q => ?_, ?_⟩
        · rw [hreader]
          by_cases hq : q = p
          · grind
          · rw [update_of_ne hq]
        · grind
      · have halone := hone (by omega) hu
        rw [hhands.of_alone hc halone] at hans
        refine ⟨c.dst ++ s.tty.unread, .inr ⟨p, _, by rw [hreader, update_self, hr], rfl, ?_⟩,
          ?_⟩
        · intro q d hq hd
          rw [hreader, update_of_ne hq] at hd
          exact halone q d hq hd
        · grind
  · have hreader : (consoleread s p c).reader = update s.reader p none := by rw [he]
    have htext : (consoleread s p c).tty.text = s.tty.text := by rw [he]
    have hunread : (consoleread s p c).tty.unread = s.tty.unread.drop k := by
      rw [he, Tty.unread, ← List.drop_drop]
      rfl
    have hret : (consoleread s p c).returned =
        s.returned ++ [⟨c.target, (c.dst ++ b).length, c.dst ++ b⟩] := by rw [he]
    rw [Answered, hret, htext, hunread, List.map_append, List.map_append]
    by_cases hn : c.n = 0
    · have hdst : c.dst = [] := by
        by_contra hne
        exact hw.more hne hn
      have htarget : c.target = 0 := by
        have := hw.length
        rw [hdst, hn] at this
        exact this.symm
      rw [if_neg fun h => h.2 hn] at hk
      rw [hn] at hl
      cases hl
      refine ⟨hand, hhands.replace (p := p) (fun d hd => ?_) (fun d hd => by cases hd) hreader, ?_⟩
      · rw [hc] at hd
        cases hd
        exact hdst
      · rw [hk, hdst]
        refine answers_concat hans ?_
        rw [htarget]
        exact answer_zero _
    · have hu : s.tty.unread ≠ [] := fun hu => by
        obtain ⟨n, hn⟩ := Nat.exists_eq_succ_of_ne_zero hn
        rw [hu, hn] at hl
        cases hl
      have halone := hone hn hu
      rw [hhands.of_alone hc halone] at hans
      refine ⟨[], .inl ⟨rfl, fun q d hd => ?_⟩, ?_⟩
      · rw [hreader] at hd
        by_cases hq : q = p
        · rw [hq, update_self] at hd
          cases hd
        · rw [update_of_ne hq] at hd
          exact halone q d hq hd
      · rw [hk]
        exact answers_concat hans (answer_of_line hw hn hl)

/-- Every orderly step keeps what the reads have returned in order. -/
theorem Answered.step {ev : Event ι} (hs : Sound s) (h : Answered s) (hok : Orderly s ev)
    (hstep : step s ev = some s') : Answered s' := by
  cases ev with
  | intr cs =>
    cases hstep
    exact (consoleintr_rule (I := fun s => Sound s ∧ Answered s)
      (fun _ c h => ⟨h.1.typed c, h.2.typed h.1 c⟩) cs ⟨hs, h⟩).2
  | call q n =>
    rw [Console.step] at hstep
    split_ifs at hstep with hnone
    cases hstep
    obtain ⟨hand, hhands, hans⟩ := h
    refine ⟨hand, hhands.replace (p := q) (fun d hd => ?_) (fun d hd => ?_) rfl, hans⟩
    · rw [hd] at hnone
      cases hnone
    · cases hd
      rfl
  | turn q =>
    obtain ⟨c, hc, hstep⟩ := Option.bind_eq_some_iff.1 hstep
    split_ifs at hstep
    cases hstep
    exact h.turn hs hc hok
  | kill q =>
    cases hstep
    obtain ⟨hand, hhands, hans⟩ := h
    refine ⟨hand, hhands.congr fun q' => ?_, hans⟩
    by_cases hq : q' = q
    · rw [hq]
      dsimp only
      rw [update_self, Option.map_map]
      rfl
    · dsimp only
      rw [update_of_ne hq]

omit [DecidableEq ι] in
theorem answered_start : Answered (start : State ι) :=
  ⟨[], .inl ⟨rfl, fun _ _ h => by cases h⟩, rfl⟩

theorem Sound.of_reach (h : (console ι).Reach s) : Sound s := by
  refine h.inv ?_ fun _ _ _ h hstep => h.step hstep
  rintro _ rfl
  exact sound_start

/-- The read index stays where it is when a character is typed. -/
theorem key_r (i : Input) (c : UInt8) : (key i c).1.r = i.r := by
  have hkill : (killLine i).r = i.r := by
    fun_induction killLine i with
    | case1 i h ih => exact ih
    | case2 i h => rfl
  rw [key]
  dsimp only
  split_ifs <;> first | rfl | exact hkill

/-- What stands between the read and the write index is not altered before it is read. -/
theorem step_unread {ev : Event ι} (h : Sound s) (hstep : step s ev = some s') :
    ∃ k new, s'.input.r = s.input.r + UInt32.ofNat k ∧
      s'.input.unread = s.input.unread.drop k ++ new := by
  have hsame : ∀ i : Input, i = s.input → ∃ k new, i.r = s.input.r + UInt32.ofNat k ∧
      i.unread = s.input.unread.drop k ++ new := by
    rintro i rfl
    exact ⟨0, [], by simp, by simp⟩
  cases ev with
  | intr cs =>
    cases hstep
    have hrun := consoleintr_rule (I := fun s' => Sound s' ∧ s'.input.r = s.input.r ∧
      ∃ new, s'.tty.unread = s.tty.unread ++ new) ?_ cs ⟨h, rfl, [], (List.append_nil _).symm⟩
    · obtain ⟨hs, hr, new, hnew⟩ := hrun
      refine ⟨0, new, ?_, ?_⟩
      · rw [hr]
        simp
      · rw [hs.agrees.unread, hnew, h.agrees.unread, List.drop_zero]
    · rintro s1 c ⟨hs, hr, new, hnew⟩
      obtain ⟨⟨new', htext⟩, htaken⟩ := s1.tty.key_text c
      refine ⟨hs.typed c, (key_r s1.input c).trans hr, new ++ new', ?_⟩
      rw [← List.append_assoc, ← hnew]
      show (s1.tty.key c).unread = _
      rw [Tty.unread, htext, htaken, List.drop_append_of_le_length hs.agrees.taken]
      rfl
  | call q n =>
    rw [Console.step] at hstep
    split_ifs at hstep
    cases hstep
    exact hsame _ rfl
  | turn q =>
    obtain ⟨c, hc, hturn⟩ := Option.bind_eq_some_iff.1 hstep
    split_ifs at hturn
    cases hturn
    have hnew := (h.turn hc).agrees.unread
    have hdrop : ∀ k, Tty.unread { s.tty with taken := s.tty.taken + k } = s.tty.unread.drop k :=
      fun k => (List.drop_drop ..).symm
    rw [h.agrees.unread, hnew]
    rcases consoleread_cases h hc with ⟨-, r, he, -⟩ | ⟨b, rest, k, -, -, -, he⟩
    · rw [he]
      exact ⟨_, [], rfl, by rw [List.append_nil]; exact hdrop _⟩
    · rw [he]
      exact ⟨k, [], rfl, by rw [List.append_nil]; exact hdrop _⟩
  | kill q =>
    cases hstep
    exact hsame _ rfl

/-- **Canonical input.** In every state that can be reached the three indices are in order, modulo
`2^32`, and what stands between the read and the write index is the text that was let go and not
taken; it is not altered before it is read. If the reads do not get into each other's way, what they
returned, in their order, is the text that was typed and edited, cut at the ends of its lines, at
each `^D` and where a read had enough. -/
theorem console_canonical (s : State ι) (h : (console ι).Reach s) :
    (s.input.w - s.input.r).toNat ≤ (s.input.e - s.input.r).toNat ∧
    (s.input.e - s.input.r).toNat ≤ INPUT_BUF ∧ s.input.unread = s.tty.unread ∧
    (∀ ev s', step s ev = some s' → ∃ k new, s'.input.r = s.input.r + UInt32.ofNat k ∧
      s'.input.unread = s.input.unread.drop k ++ new) ∧
    (∀ a ∈ s.returned, a.value = a.dst.length) ∧
    ((console ι).Via Orderly s → Answered s) := by
  have hs := Sound.of_reach h
  have hw := hs.agrees.w_sub
  have he := hs.agrees.e_sub
  have hle := hs.agrees.length_le
  refine ⟨by omega, by omega, hs.agrees.unread, fun _ _ hstep => step_unread hs hstep, hs.value, ?_⟩
  intro hvia
  have hboth := hvia.inv (I := fun s => Sound s ∧ Answered s) ?_
    fun _ _ _ h hok hstep => ⟨h.1.step hstep, h.2.step h.1 hok hstep⟩
  · exact hboth.2
  · rintro _ rfl
    exact ⟨sound_start, answered_start⟩

end

/-- A line is typed and read. -/
theorem console_canonical_line : ∃ s, (console Bool).run start
      [.intr [104, newline], .call false 5, .turn false] = some s ∧
    s.returned = [⟨5, 2, [104, newline]⟩] ∧ Answered s := by
  have hcalled : (console Bool).Via Orderly _ :=
    ((Lts.Via.init rfl).step (a := .intr [104, newline]) trivial rfl).step (a := .call false 5)
      trivial rfl
  have hread : (console Bool).Via Orderly _ := hcalled.step (a := .turn false) (by
    refine fun c _ => ⟨.inr (.inr fun q d hq hd => ?_), fun h => absurd h (by decide)⟩
    cases q with
    | false => exact absurd rfl hq
    | true => nomatch (show (none : Option Reader) = some d from hd)) rfl
  exact ⟨_, rfl, by decide, (console_canonical _ hread.reach).2.2.2.2.2 hread⟩

/-! ## Two readers -/

/-- A line that fills the ring. -/
def filled : List UInt8 := List.replicate 128 97

/-- One process reads the full ring and waits for the rest of the line; another one takes it. -/
def twoReaders : List (Event Bool) :=
  [.intr filled, .call false 200, .turn false, .intr [98, newline], .call true 10, .turn true,
    .intr [99, newline], .turn false]

/-- **Two readers.** The first line that is typed comes out in two pieces, at two readers, and the
reader of its first piece is given the second line as its end. -/
theorem two_readers : ∃ s, (console Bool).run start twoReaders = some s ∧
    s.tty.text = filled ++ [98, newline, 99, newline] ∧
    s.returned = [⟨10, 2, [98, newline]⟩, ⟨200, 130, filled ++ [99, newline]⟩] ∧
    ¬ Answered s := by
  have hrun : ((console Bool).run start twoReaders).map (fun s => (s.tty.text, s.returned)) =
      some (filled ++ [98, newline, 99, newline],
        [⟨10, 2, [98, newline]⟩, ⟨200, 130, filled ++ [99, newline]⟩]) := by
    decide +kernel
  obtain ⟨s, hs, he⟩ := Option.map_eq_some_iff.1 hrun
  obtain ⟨htext, hret⟩ := Prod.mk.inj he
  refine ⟨s, hs, htext, hret, ?_⟩
  rintro ⟨hand, -, hans⟩
  rw [htext, hret] at hans
  have hfirst : (answers [10, 200] (filled ++ [98, newline, 99, newline])).map Prod.fst =
      some [List.replicate 10 97, List.replicate 118 97 ++ [98, newline]] := by
    decide +kernel
  have hbad := congrArg (Option.map Prod.fst) hans
  rw [List.map_cons, List.map_cons, List.map_nil] at hbad
  rw [hfirst] at hbad
  have hhead := (List.cons.inj (Option.some.inj hbad)).1
  exact absurd hhead (by decide)

end Dixv6.Console
