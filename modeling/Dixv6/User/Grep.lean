import Dixv6.User.Regex
import Mathlib.Tactic.Common

/-!
# The reading loop of `grep`

`grep` (`grep.c`) reads its input into the 1024 bytes of `buf`, prints the lines of the buffer that
match and moves the unfinished line behind them to the front. Nothing ends the bytes it has read: the
search for newlines runs on over what the buffer held before, up to a NUL. And a buffer without a
newline is thrown away. So the output depends on how the input is cut (`grep_cut_wrong`), and
**`grep_lines`: it is right if every read brings a newline and leaves none behind what it brought**.
-/

namespace Dixv6.User

/-- The newline. -/
abbrev nl : UInt8 := 10

/-- The size of `buf`. -/
abbrev bufSize : Nat := 1024

/-- `strchr` (`ulib.c:44`) on the bytes from the pointer on: the offset of the first `c` before the
first NUL. It faults where the memory ends. -/
def strchr (c : UInt8) : List UInt8 → Option (Option Nat)
  | [] => none
  | x :: mem =>
    if x = 0 then some none
    else if x = c then some (some 0) else (strchr c mem).map (·.map (· + 1))

/-- The inner loop of `grep` on the bytes from `p` on: the bytes it leaves, how far it moves `p`, and
what it prints. The newline of a line that does not match stays a NUL. -/
def scan (pattern mem : List UInt8) : Option (List UInt8 × Nat × List UInt8) :=
  match h : strchr nl mem with
  | none => none
  | some none => some (mem, 0, [])
  | some (some k) =>
    let line := mem.take k
    let hit := matchText pattern line
    (scan pattern (mem.drop (k + 1))).map fun (mem', p, out) =>
      (line ++ (if hit then nl else 0) :: mem', k + 1 + p, (if hit then line ++ [nl] else []) ++ out)
termination_by mem.length
decreasing_by
  cases mem with
  | nil => cases h
  | cons x mem => rw [List.length_drop, List.length_cons]; omega

/-- The state between two reads: the memory from `buf` on, the bytes `m` kept in the buffer, and what
has been printed. -/
structure Grep where
  mem : List UInt8
  m : Int
  out : List UInt8

/-- The position passed to `read` is inside `buf`. -/
def Grep.Inside (s : Grep) : Prop := 0 ≤ s.m ∧ s.m < bufSize

instance (s : Grep) : Decidable s.Inside := inferInstanceAs (Decidable (_ ∧ _))

/-- `memmove(buf, buf+p, n)`, which does nothing for `n ≤ 0`. -/
def moveFront (mem : List UInt8) (p : Nat) (n : Int) : List UInt8 :=
  (mem.drop p).take n.toNat ++ mem.drop n.toNat

/-- The end of a turn: the unfinished line is moved to the front, or the buffer dropped. -/
def Grep.keep (s : Grep) (n : Nat) : List UInt8 × Nat × List UInt8 → Grep
  | (mem, p, out) =>
    let m := if p = 0 then 0 else s.m + n
    if 0 < m then { mem := moveFront mem p (m - p), m := m - p, out := s.out ++ out }
    else { mem, m, out := s.out ++ out }

/-- What one turn of the loop does once `read` has returned the bytes `chunk`. -/
def Grep.turn (pattern chunk : List UInt8) (s : Grep) : Option Grep :=
  let kept := s.m.toNat
  (scan pattern (s.mem.take kept ++ chunk ++ s.mem.drop (kept + chunk.length))).map
    (s.keep chunk.length)

/-- `grep` (`grep.c:10`) from a state on, when `read` returns the given chunks and then 0. It has no
result if a read is given a position outside `buf` or `strchr` faults. -/
def Grep.run (pattern : List UInt8) : List (List UInt8) → Grep → Option Grep
  | [], s => if s.Inside then some s else none
  | chunk :: cs, s => if s.Inside then s.turn pattern chunk >>= Grep.run pattern cs else none

/-- The text with the given lines. -/
def unlines (ls : List (List UInt8)) : List UInt8 := ls.flatMap (· ++ [nl])

/-- What `grep` is for: every read is inside `buf`, and the matching lines are printed in order. -/
def Greps (pattern : List UInt8) (ls cs : List (List UInt8)) (mem : List UInt8) : Prop :=
  ∃ s, Grep.run pattern cs ⟨mem, 0, []⟩ = some s ∧ s.out = unlines (ls.filter (matchText pattern ·))

/-- A read that `grep` gets along with: it returns a newline, and what the memory holds behind the bytes
it returned has a NUL before any newline. -/
structure Grep.ReadOk (chunk : List UInt8) (s : Grep) : Prop where
  fits : s.m + chunk.length ≤ bufSize
  newline : nl ∈ chunk
  clean : strchr nl (s.mem.drop (s.m.toNat + chunk.length)) = some none

/-- All reads of a run are such reads. -/
def Grep.ReadsOk (pattern : List UInt8) : List (List UInt8) → Grep → Prop
  | [], _ => True
  | chunk :: cs, s => s.ReadOk chunk ∧ ∀ s', s.turn pattern chunk = some s' → s'.ReadsOk pattern cs

/-! ## One read -/

variable {ls : List (List UInt8)}

section
variable {pattern mem : List UInt8}

/-- `strchr` passes over bytes that are neither the character nor NUL. -/
theorem strchr_append {c : UInt8} {l : List UInt8} (h0 : 0 ∉ l) (hc : c ∉ l) :
    strchr c (l ++ mem) = (strchr c mem).map (·.map (· + l.length)) := by
  induction l with
  | nil => simp
  | cons x l ih =>
    rw [List.mem_cons, not_or] at h0 hc
    rw [List.cons_append, strchr, if_neg (Ne.symm h0.1), if_neg (Ne.symm hc.1), ih h0.2 hc.2]
    simp [Option.map_map, Function.comp_def, Nat.add_assoc]

/-- The lines as the inner loop leaves them in the buffer. -/
def leave (pattern : List UInt8) (ls : List (List UInt8)) : List UInt8 :=
  ls.flatMap fun l => l ++ [if matchText pattern l then nl else 0]

theorem length_leave (pattern : List UInt8) (ls : List (List UInt8)) :
    (leave pattern ls).length = (unlines ls).length := by
  simp [leave, unlines, List.length_flatMap]

theorem unlines_cons (l : List UInt8) (ls : List (List UInt8)) :
    unlines (l :: ls) = l ++ nl :: unlines ls := by
  simp [unlines]

theorem length_unlines_cons (l : List UInt8) (ls : List (List UInt8)) :
    (unlines (l :: ls)).length = l.length + 1 + (unlines ls).length := by
  rw [unlines_cons, List.length_append, List.length_cons]
  omega

/-- The lines of an input: no newline and no NUL in them. -/
def Lines (ls : List (List UInt8)) : Prop := ∀ l ∈ ls, 0 ∉ l ∧ nl ∉ l

/-- **The inner loop on whole lines** with no newline to be found behind them: induction on the lines. -/
theorem scan_lines (pattern : List UInt8) (hls : Lines ls) (hmem : strchr nl mem = some none) :
    scan pattern (unlines ls ++ mem) =
      some (leave pattern ls ++ mem, (unlines ls).length, unlines (ls.filter (matchText pattern ·))) := by
  induction ls with
  | nil =>
    rw [scan]
    split <;> simp_all [unlines, leave]
  | cons l ls ih =>
    obtain ⟨⟨h0, hn⟩, hls⟩ := List.forall_mem_cons.1 hls
    have hfind : strchr nl (unlines (l :: ls) ++ mem) = some (some l.length) := by
      rw [unlines_cons, List.append_assoc, strchr_append h0 hn]
      simp [strchr, show nl ≠ 0 by decide]
    have hnext : (unlines (l :: ls) ++ mem).drop (l.length + 1) = unlines ls ++ mem := by
      simp [unlines_cons]
    have hline : (unlines (l :: ls) ++ mem).take l.length = l := by simp [unlines_cons]
    rw [scan]
    split <;> rename_i he <;> rw [hfind] at he <;> cases he
    rw [hnext, hline, ih hls, length_unlines_cons]
    by_cases hit : matchText pattern l <;> simp [hit, leave, unlines]

/-- A text is cut behind the last whole line of its first part. -/
theorem unlines_split {data more : List UInt8} (hls : Lines ls)
    (h : data ++ more = unlines ls) : ∃ ls1 ls2 rest, ls = ls1 ++ ls2 ∧ data = unlines ls1 ++ rest ∧
      0 ∉ rest ∧ nl ∉ rest ∧ rest ++ more = unlines ls2 := by
  induction ls generalizing data with
  | nil =>
    obtain ⟨rfl, rfl⟩ := List.append_eq_nil_iff.1 h
    exact ⟨[], [], [], rfl, rfl, by simp, by simp, rfl⟩
  | cons l ls ih =>
    obtain ⟨⟨h0, hn⟩, hls⟩ := List.forall_mem_cons.1 hls
    rcases List.append_eq_append_iff.1 (h.trans (unlines_cons l ls)) with ⟨u, rfl, -⟩ | ⟨_ | ⟨x, u⟩, rfl, hu⟩
    · exact ⟨[], _, data, rfl, rfl, by simp_all, by simp_all, h⟩
    · exact ⟨[], _, _, rfl, rfl, by simpa using h0, by simpa using hn, h⟩
    · obtain ⟨rfl, hnext⟩ := List.cons.inj hu
      obtain ⟨ls1, ls2, rest, rfl, rfl, h1, h2, h3⟩ := ih hls hnext.symm
      exact ⟨l :: ls1, ls2, rest, rfl, by simp [unlines_cons], h1, h2, h3⟩

/-- The buffer holds an unfinished line and nothing else. -/
structure Grep.Keeps (rest : List UInt8) (s : Grep) : Prop where
  m : s.m = rest.length
  mem : s.mem.take rest.length = rest

/-- **One turn.** The whole lines of the buffer are searched and the unfinished one is kept. -/
theorem Grep.turn_lines (pattern : List UInt8) {s : Grep} {chunk tail rest : List UInt8}
    (hs : s.Keeps tail) (hok : s.ReadOk chunk) (hls : Lines ls)
    (hdata : tail ++ chunk = unlines ls ++ rest) (h0 : 0 ∉ rest) (hn : nl ∉ rest) :
    ∃ s', s.turn pattern chunk = some s' ∧ s'.Keeps rest ∧ rest.length < bufSize ∧
      s'.out = s.out ++ unlines (ls.filter (matchText pattern ·)) := by
  obtain ⟨hfit, hnew, hclean⟩ := hok
  have hm : s.m.toNat = tail.length := by simp [hs.m]
  have hpos : 0 < (unlines ls).length := by
    -- without a whole line the newline of the chunk would be in the unfinished one
    grind [length_unlines_cons]
  have hlen : tail.length + chunk.length = (unlines ls).length + rest.length := by
    rw [← List.length_append, hdata, List.length_append]
  have hbehind : strchr nl (rest ++ s.mem.drop (tail.length + chunk.length)) = some none := by
    rw [strchr_append h0 hn, ← hm, hclean]
    rfl
  have hscan := scan_lines pattern hls hbehind
  have hm' : s.m + chunk.length - ((unlines ls).length : Int) = rest.length := by rw [hs.m]; omega
  have hturn : s.turn pattern chunk = some
      { mem := moveFront (leave pattern ls ++ (rest ++ s.mem.drop (tail.length + chunk.length)))
          (unlines ls).length rest.length,
        m := rest.length, out := s.out ++ unlines (ls.filter (matchText pattern ·)) } := by
    have hm0 : 0 < s.m + chunk.length := by rw [hs.m]; omega
    rw [Grep.turn, hm, hs.mem, hdata, List.append_assoc, hscan]
    simp [Grep.keep, Nat.ne_of_gt hpos, hm0, hm']
  refine ⟨_, hturn, ⟨rfl, ?_⟩, by omega, rfl⟩
  simp [moveFront, ← length_leave pattern]

/-- **A whole run**: induction on the reads, with the unfinished line the buffer keeps. -/
theorem Grep.run_lines {cs : List (List UInt8)} {tail : List UInt8} {s : Grep} (hs : s.Keeps tail)
    (hsize : tail.length < bufSize) (hn : nl ∉ tail) (hok : s.ReadsOk pattern cs) (hls : Lines ls)
    (hdata : tail ++ cs.flatten = unlines ls) : ∃ s', Grep.run pattern cs s = some s' ∧
      s'.out = s.out ++ unlines (ls.filter (matchText pattern ·)) := by
  induction cs generalizing ls tail s with
  | nil =>
    rcases ls with _ | ⟨l, ls⟩
    · refine ⟨s, if_pos ⟨?_, ?_⟩, by simp [unlines]⟩ <;> rw [hs.m] <;> omega
    · grind [unlines_cons, List.flatten_nil]
  | cons chunk cs ih =>
    obtain ⟨hread, hreads⟩ := hok
    rw [List.flatten_cons, ← List.append_assoc] at hdata
    obtain ⟨ls1, ls2, rest, rfl, hfirst, h0, hn', hrest⟩ := unlines_split hls hdata
    obtain ⟨hls1, hls2⟩ := List.forall_mem_append.1 hls
    obtain ⟨s1, hturn, hs1, hlen, hout1⟩ := Grep.turn_lines pattern hs hread hls1 hfirst h0 hn'
    obtain ⟨s', hrun, hout⟩ := ih hs1 hlen hn' (hreads s1 hturn) hls2 hrest
    refine ⟨s', ?_, ?_⟩
    · have hin : s.Inside := ⟨by rw [hs.m]; omega, by rw [hs.m]; omega⟩
      rw [Grep.run, if_pos hin, hturn]
      exact hrun
    · rw [hout, hout1, List.append_assoc, List.filter_append]
      exact congrArg (s.out ++ ·) List.flatMap_append.symm

end

/-- **Where `grep` is right.** Whatever the pattern, the lines of the input and the memory before the
call: if every read brings a newline and no newline is left behind what it brought, then the lines that
match are printed, each once and in order, and `read` is always given a position inside `buf`. -/
theorem grep_lines (pattern : List UInt8) (ls cs : List (List UInt8)) (mem : List UInt8)
    (hls : Lines ls) (hcut : cs.flatten = unlines ls)
    (hok : Grep.ReadsOk pattern cs ⟨mem, 0, []⟩) : Greps pattern ls cs mem := by
  have hs : Grep.Keeps [] ⟨mem, 0, []⟩ := ⟨rfl, rfl⟩
  obtain ⟨s, hrun, hout⟩ := Grep.run_lines hs (by decide) (by simp) hok hls hcut
  exact ⟨s, hrun, hout.trans (List.nil_append _)⟩

/-- The memory of a fresh process: `buf` is all zero. -/
abbrev freshBuf : List UInt8 := List.replicate bufSize 0

/-- The empty pattern matches every line. -/
theorem matchText_nil (text : List UInt8) : matchText [] text = true := by
  cases text <;> simp [matchText, matchFrom, matchhere]

/-- A turn with an empty buffer and the empty pattern, when the memory then starts with the given lines
and has no newline behind them. -/
theorem Grep.turn_front {mem chunk z out : List UInt8} (hls : Lines ls)
    (hz : strchr nl z = some none) (hmem : chunk ++ mem.drop chunk.length = unlines ls ++ z) :
    Grep.turn [] chunk ⟨mem, 0, out⟩ = some
      (Grep.keep ⟨mem, 0, out⟩ chunk.length (unlines ls ++ z, (unlines ls).length, unlines ls)) := by
  have hall : ls.filter (matchText [] ·) = ls := List.filter_eq_self.2 fun l _ => matchText_nil l
  have hleave : leave [] ls = unlines ls := by simp [leave, unlines, matchText_nil]
  have hscan := scan_lines [] hls hz
  rw [hall, hleave] at hscan
  simp [Grep.turn, hscan, hmem]

/-- Two lines that arrive with one read each, the second as long as the first. -/
theorem grep_lines_two : Greps [] [[97], [98]] [[97, 10], [98, 10]] freshBuf := by
  obtain ⟨z, hz⟩ : ∃ z, freshBuf = 0 :: 0 :: 0 :: z := ⟨List.replicate 1021 0, rfl⟩
  have hfits : (0 : Int) + (2 : Nat) ≤ bufSize := by decide
  rw [hz]
  refine grep_lines [] _ _ _ (by unfold Lines; decide) (by decide)
    ⟨⟨hfits, by decide, rfl⟩, fun s hs => ?_⟩
  rw [Grep.turn_front (show Lines [[97]] by unfold Lines; decide) (z := 0 :: z) rfl rfl] at hs
  cases hs
  exact ⟨⟨hfits, by decide, rfl⟩, fun _ _ => trivial⟩

/-- **A cut decides what `grep` prints.** The line `ab` is lost in part if a read returns only its `a`.
And after the line `ab` has been read, a read that returns `c` and its newline leaves the newline of
`ab` behind them: an empty line is printed, and the next read is given a position before `buf`. -/
theorem grep_cut_wrong : ¬ Greps [] [[97, 98]] [[97], [98, 10]] freshBuf ∧
    ¬ Greps [] [[97, 98], [99]] [[97, 98, 10], [99, 10]] freshBuf := by
  obtain ⟨z, hz⟩ : ∃ z, freshBuf = 0 :: 0 :: 0 :: 0 :: z := ⟨List.replicate 1020 0, rfl⟩
  have hlines : ∀ ls ∈ [[], [[98]], [[97, 98]], [[99], []]], Lines ls := by unfold Lines; decide
  rw [hz]
  constructor
  · have h₁ : Grep.turn [] [97] ⟨0 :: 0 :: 0 :: 0 :: z, 0, []⟩ =
        some ⟨97 :: 0 :: 0 :: 0 :: z, 0, []⟩ := Grep.turn_front (hlines [] (by decide)) rfl rfl
    have h₂ : Grep.turn [] [98, 10] ⟨97 :: 0 :: 0 :: 0 :: z, 0, []⟩ =
        some ⟨98 :: 10 :: 0 :: 0 :: z, 0, [98, 10]⟩ :=
      Grep.turn_front (hlines [[98]] (by decide)) (z := 0 :: 0 :: z) rfl rfl
    rintro ⟨s, hrun, hout⟩
    simp only [Grep.run, Grep.Inside, h₁, h₂, Option.bind_eq_bind, Option.bind_some] at hrun
    cases hrun
    simp [unlines, matchText_nil] at hout
  · have h₁ : Grep.turn [] [97, 98, 10] ⟨0 :: 0 :: 0 :: 0 :: z, 0, []⟩ =
        some ⟨97 :: 98 :: 10 :: 0 :: z, 0, [97, 98, 10]⟩ :=
      Grep.turn_front (hlines [[97, 98]] (by decide)) (z := 0 :: z) rfl rfl
    have h₂ : Grep.turn [] [99, 10] ⟨97 :: 98 :: 10 :: 0 :: z, 0, [97, 98, 10]⟩ =
        some ⟨99 :: 10 :: 10 :: 0 :: z, -1, [97, 98, 10, 99, 10, 10]⟩ :=
      Grep.turn_front (hlines [[99], []] (by decide)) (z := 0 :: z) rfl rfl
    rintro ⟨s, hrun, -⟩
    simp only [Grep.run, Grep.Inside, h₁, h₂, Option.bind_eq_bind, Option.bind_some] at hrun
    cases hrun

end Dixv6.User
