import Dixv6.Lib.Bytes
import Dixv6.Lib.Wp

/-!
# The words of a command line

The shell (`sh.c`) parses a line in place: an argument or a file name is a pair of pointers into the
line, and when the whole line has been parsed, `nulterminate` puts a NUL at the end of each of them.
The end of a word holds a blank, a symbol or the NUL of the line, none of which is in a word. So
**`parsecmd_words`: every word of the tree reads back as it stood in the line, and no character of
any word is lost**.
-/

namespace Dixv6.User

open Lib Function

/-- `char whitespace[]`. -/
def whitespace : List UInt8 := [' ', '\t', '\r', '\n', '\x0b'].map Char.toUInt8

/-- `char symbols[]`. -/
def symbols : List UInt8 := ['<', '|', '>', '&', ';', '(', ')'].map Char.toUInt8

/-- The characters of a word. -/
def InWord (c : UInt8) : Prop := c ≠ 0 ∧ c ∉ whitespace ∧ c ∉ symbols

/-- A word of the line: the positions of its first character and of its end. -/
structure Word where
  q : Nat
  eq : Nat
deriving DecidableEq

/-- A redirection: the file, and how it is opened as which descriptor. -/
structure Redir where
  file : Word
  mode : Nat
  fd : Nat

/-- `struct cmd`. -/
inductive Cmd
  | exec (argv : List Word)
  | redir (cmd : Cmd) (r : Redir)
  | pipe (left right : Cmd)
  | list (left right : Cmd)
  | back (cmd : Cmd)

/-- What `gettoken` returns, and for a word where it is. -/
inductive Token
  | done
  | symbol (c : UInt8)
  | append
  | word (w : Word)

/-- The calls of `panic`; and a model that has run out of turns. -/
inductive Panic
  | syntaxError | missingFile | parseblock | missingParen | tooManyArgs | unfinished

/-- The parsing functions work on the position `*ps`. -/
abbrev Parse := Comp Nat Panic

/-! ## Parsing -/

section
variable (buf : Bytes) (es : Nat)

/-- `while(s < es && p(*s)) s++`, where `es - s` turns are left. -/
def scanWhile (p : UInt8 → Prop) [DecidablePred p] : Nat → Nat → Nat
  | 0, s => s
  | n + 1, s => if p (buf s) then scanWhile p n (s + 1) else s

/-- The first position from `s` on that is not blank. -/
def skip (s : Nat) : Nat := scanWhile buf (· ∈ whitespace) (es - s) s

/-- The end of the word that starts at `s`. -/
def wordEnd (s : Nat) : Nat :=
  scanWhile buf (fun c => c ∉ whitespace ∧ c ∉ symbols) (es - s) s

/-- The token at `s`, and where it ends. -/
def tokenAt (s : Nat) : Token × Nat :=
  if buf s = 0 then (.done, s)
  else if buf s = '>'.toUInt8 then
    if buf (s + 1) = '>'.toUInt8 then (.append, s + 2) else (.symbol (buf s), s + 1)
  else if buf s ∈ symbols then (.symbol (buf s), s + 1)
  else (.word ⟨s, wordEnd buf es s⟩, wordEnd buf es s)

/-- `gettoken` (`sh.c:268`). -/
def gettoken : Parse Token := do
  let (tok, e) ← Comp.gets fun s => tokenAt buf es (skip buf es s)
  Comp.modify fun _ => skip buf es e
  pure tok

/-- `peek` (`sh.c:313`). -/
def peek (toks : List Char) : Parse Bool := do
  Comp.modify (skip buf es)
  Comp.gets fun s => buf s ≠ 0 ∧ buf s ∈ toks.map Char.toUInt8

/-- The redirection that a token and a file name ask for. -/
def redirOf (tok : Token) (file : Word) : List Redir :=
  match tok with
  | .symbol c => if c = '<'.toUInt8 then [⟨file, 0, 0⟩] else
    if c = '>'.toUInt8 then [⟨file, 0x201, 1⟩] else []
  | .append => [⟨file, 0x201, 1⟩]
  | _ => []

/-- `parseredirs` (`sh.c:383`): the redirections it puts around the command, the innermost first. -/
def parseredirs : Nat → Parse (List Redir)
  | 0 => Comp.stop .unfinished
  | n + 1 => do
    if ← peek buf es ['<', '>'] then
      let tok ← gettoken buf es
      match ← gettoken buf es with
      | .word w => return redirOf tok w ++ (← parseredirs n)
      | _ => Comp.stop .missingFile
    else return []

/-- The loop of `parseexec`, which has found `argc` arguments: the others, and the redirections. -/
def parseargs : Nat → Nat → Parse (List Word × List Redir)
  | 0, _ => Comp.stop .unfinished
  | n + 1, argc => do
    if ← peek buf es ['|', ')', '&', ';'] then return ([], [])
    else
      match ← gettoken buf es with
      | .done => return ([], [])
      | .word w =>
        Comp.stopIf (10 ≤ argc + 1) .tooManyArgs
        let rs ← parseredirs buf es n
        let (argv, rs') ← parseargs n (argc + 1)
        return (w :: argv, rs ++ rs')
      | _ => Comp.stop .syntaxError

/-- The loop of `parseline`. -/
def parseback : Nat → Cmd → Parse Cmd
  | 0, _ => Comp.stop .unfinished
  | n + 1, cmd => do
    if ← peek buf es ['&'] then
      let _ ← gettoken buf es
      parseback n (.back cmd)
    else return cmd

mutual
/-- `parseline` (`sh.c:351`). -/
def parseline : Nat → Parse Cmd
  | 0 => Comp.stop .unfinished
  | n + 1 => do
    let cmd ← parsepipe n
    let cmd ← parseback buf es n cmd
    if ← peek buf es [';'] then
      let _ ← gettoken buf es
      return .list cmd (← parseline n)
    else return cmd

/-- `parsepipe` (`sh.c:368`). -/
def parsepipe : Nat → Parse Cmd
  | 0 => Comp.stop .unfinished
  | n + 1 => do
    let cmd ← parseexec n
    if ← peek buf es ['|'] then
      let _ ← gettoken buf es
      return .pipe cmd (← parsepipe n)
    else return cmd

/-- `parseblock` (`sh.c:401`). -/
def parseblock : Nat → Parse Cmd
  | 0 => Comp.stop .unfinished
  | n + 1 => do
    if ← peek buf es ['('] then
      let _ ← gettoken buf es
      let cmd ← parseline n
      if ← peek buf es [')'] then
        let _ ← gettoken buf es
        return (← parseredirs buf es n).foldl .redir cmd
      else Comp.stop .missingParen
    else Comp.stop .parseblock

/-- `parseexec` (`sh.c:418`). The redirections are around the node that the arguments go to. -/
def parseexec : Nat → Parse Cmd
  | 0 => Comp.stop .unfinished
  | n + 1 => do
    if ← peek buf es ['('] then parseblock n
    else
      let rs ← parseredirs buf es n
      let (argv, rs') ← parseargs buf es n 0
      return (rs ++ rs').foldl .redir (.exec argv)
end

/-- `parsecmd` (`sh.c:335`) up to `nulterminate`. -/
def parseall (n : Nat) : Parse Cmd := do
  let cmd ← parseline buf es n
  let _ ← peek buf es []
  let s ← Comp.gets id
  Comp.stopIf (s ≠ es) .syntaxError
  return cmd

end

/-- `nulterminate` (`sh.c:451`). -/
def nulterminate : Cmd → Bytes → Bytes
  | .exec argv, b => argv.foldl (fun b w => update b w.eq 0) b
  | .redir cmd r, b => update (nulterminate cmd b) r.file.eq 0
  | .pipe left right, b => nulterminate right (nulterminate left b)
  | .list left right, b => nulterminate right (nulterminate left b)
  | .back cmd, b => nulterminate cmd b

/-- The memory in which the line is. -/
def lineAt (line : List UInt8) : Bytes := fun i => line.getD i 0

/-- `strlen` (`ulib.c:27`). -/
def strlen : List UInt8 → Nat
  | [] => 0
  | c :: line => if c = 0 then 0 else strlen line + 1

/-- `parsecmd` with `n` turns for every loop and recursion: the tree and the memory it points into. -/
def parsecmd (n : Nat) (line : List UInt8) : Except Panic (Cmd × Bytes) :=
  match parseall (lineAt line) (strlen line) n 0 with
  | .ok (cmd, _) => .ok (cmd, nulterminate cmd (lineAt line))
  | .error e => .error e

/-! ## The words are words -/

/-- The words of a tree: the arguments and the files. -/
def Cmd.words : Cmd → List Word
  | .exec argv => argv
  | .redir cmd r => r.file :: cmd.words
  | .pipe left right => left.words ++ right.words
  | .list left right => left.words ++ right.words
  | .back cmd => cmd.words

/-- The characters of a word. -/
def Word.text (w : Word) (buf : Bytes) : List UInt8 :=
  (List.range (w.eq - w.q)).map fun i => buf (w.q + i)

/-- `w` is a word of the line: it is not empty, and it ends where it has to. -/
structure Word.Of (w : Word) (buf : Bytes) : Prop where
  nonempty : w.q < w.eq
  chars : ∀ i, w.q ≤ i → i < w.eq → InWord (buf i)
  stop : ¬ InWord (buf w.eq)

/-- `es` is the end of the line. -/
structure LineEnd (buf : Bytes) (es : Nat) : Prop where
  chars : ∀ i < es, buf i ≠ 0
  nul : buf es = 0

section
variable {α β : Type} {buf : Bytes} {es s : Nat} {A : α → Prop}

/-- Where a scan stops. -/
theorem scanWhile_spec (buf : Bytes) (p : UInt8 → Prop) [DecidablePred p] : ∀ n s,
    s ≤ scanWhile buf p n s ∧ scanWhile buf p n s ≤ s + n ∧
    (∀ i, s ≤ i → i < scanWhile buf p n s → p (buf i)) ∧
    (scanWhile buf p n s = s + n ∨ ¬ p (buf (scanWhile buf p n s)))
  | 0, s => ⟨le_rfl, le_rfl, fun i h1 h2 => absurd h1 (Nat.not_le.2 h2), .inl rfl⟩
  | n + 1, s => by
    rw [scanWhile]
    split
    · next hp =>
      obtain ⟨hle, hlt, hall, hstop⟩ := scanWhile_spec buf p n (s + 1)
      refine ⟨by omega, by omega, fun i h1 h2 => ?_, hstop.imp_left (by omega)⟩
      rcases Nat.eq_or_lt_of_le h1 with rfl | h1
      · exact hp
      · exact hall i h1 h2
    · next hp => exact ⟨le_rfl, by omega, fun i h1 h2 => absurd h1 (Nat.not_le.2 h2), .inr hp⟩

/-- Blanks are skipped, and the end is not passed. -/
theorem skip_spec (hl : LineEnd buf es) (hs : s ≤ es) :
    skip buf es s ≤ es ∧ buf (skip buf es s) ∉ whitespace := by
  obtain ⟨-, hlt, -, hstop⟩ := scanWhile_spec buf (· ∈ whitespace) (es - s) s
  refine ⟨by rw [skip]; omega, hstop.elim (fun h => ?_) id⟩
  rw [skip, h, Nat.add_sub_cancel' hs, hl.nul]
  decide

/-- A token does not pass the end, and a word is one. -/
theorem tokenAt_spec (hl : LineEnd buf es) (hs : s ≤ es) (hb : buf s ∉ whitespace) :
    (tokenAt buf es s).2 ≤ es ∧ ∀ w, (tokenAt buf es s).1 = .word w → w.Of buf := by
  have hlt : ∀ i ≤ es, buf i ≠ 0 → i < es := fun i hi hne =>
    lt_of_le_of_ne hi fun h => hne (h ▸ hl.nul)
  rw [tokenAt]
  by_cases h0 : buf s = 0
  · rw [if_pos h0]
    exact ⟨hs, nofun⟩
  have hs := hlt s hs h0
  rw [if_neg h0]
  split
  · split
    · next h2 => exact ⟨hlt (s + 1) hs (by rw [h2]; decide), nofun⟩
    · exact ⟨hs, nofun⟩
  split
  · exact ⟨hs, nofun⟩
  next hsym =>
  obtain ⟨hle, hend, hall, hstop⟩ :=
    scanWhile_spec buf (fun c => c ∉ whitespace ∧ c ∉ symbols) (es - s) s
  rw [← wordEnd] at hle hend hall hstop
  have hend : wordEnd buf es s ≤ es := by omega
  refine ⟨hend, ?_⟩
  rintro _ ⟨⟩
  refine ⟨lt_of_le_of_ne hle fun (h : s = wordEnd buf es s) => ?_,
    fun i h1 h2 => ⟨hl.chars i (h2.trans_le hend), hall i h1 h2⟩, fun h => ?_⟩
  · grind
  · refine hstop.elim (fun he => h.1 ?_) fun hn => hn h.2
    rw [he, Nat.add_sub_cancel' hs.le, hl.nul]

/-- `m` does not pass the end, and what it returns satisfies `A`. -/
def Safe (es : Nat) (m : Parse α) (A : α → Prop) : Prop :=
  ∀ s ≤ es, wp m (fun a s' => s' ≤ es ∧ A a) (fun _ => True) s

theorem Safe.bind {m : Parse α} {f : α → Parse β} {B : β → Prop} (h : Safe es m A)
    (hf : ∀ a, A a → Safe es (f a) B) : Safe es (m >>= f) B := fun s hs =>
  wp_seq (h s hs) fun a s' ha => hf a ha.2 s' ha.1

theorem Safe.pure {a : α} (h : A a) : Safe es (Pure.pure a) A := fun _ hs =>
  (wp_pure a).2 ⟨hs, h⟩

theorem Safe.stop (e : Panic) : Safe es (Comp.stop e) A := fun _ _ => trivial

theorem Safe.ite {c : Prop} [Decidable c] {m m' : Parse α} (h : Safe es m A)
    (h' : Safe es m' A) : Safe es (if c then m else m') A := by
  split
  · exact h
  · exact h'

/-- The tree has words of the line only. -/
def Cmd.Of (cmd : Cmd) (buf : Bytes) : Prop := ∀ w ∈ cmd.words, w.Of buf

theorem Cmd.Of.redirs {c : Cmd} {rs : List Redir} (h : c.Of buf) (hrs : ∀ r ∈ rs, r.file.Of buf) :
    (rs.foldl .redir c).Of buf := by
  induction rs generalizing c with
  | nil => exact h
  | cons r rs ih =>
    obtain ⟨hr, hrs⟩ := List.forall_mem_cons.1 hrs
    exact ih (List.forall_mem_cons.2 ⟨hr, h⟩) hrs

variable (hl : LineEnd buf es)
include hl

theorem safe_peek (toks : List Char) : Safe es (peek buf es toks) fun _ => True := fun s hs => by
  simp only [peek, wp_bind, wp_modify, wp_gets]
  exact ⟨(skip_spec hl hs).1, trivial⟩

theorem safe_gettoken :
    Safe es (gettoken buf es) fun t => ∀ w, t = .word w → w.Of buf := fun s hs => by
  obtain ⟨hle, hb⟩ := skip_spec hl hs
  obtain ⟨hend, hw⟩ := tokenAt_spec hl hle hb
  simp only [gettoken, wp_bind, wp_modify, wp_gets, wp_pure]
  exact ⟨(skip_spec hl hend).1, hw⟩

theorem safe_parseredirs : ∀ n,
    Safe es (parseredirs buf es n) fun rs => ∀ r ∈ rs, r.file.Of buf
  | 0 => .stop _
  | n + 1 => by
    refine (safe_peek hl _).bind fun b _ => .ite ?_ (.pure (by simp))
    refine (safe_gettoken hl).bind fun tok _ => (safe_gettoken hl).bind fun t ht => ?_
    cases t with
    | word w =>
      refine (safe_parseredirs n).bind fun rs hrs => .pure fun r hr => ?_
      rcases List.mem_append.1 hr with hr | hr
      · have hfile : r.file = w := by
          unfold redirOf at hr
          grind
        exact hfile ▸ ht w rfl
      · exact hrs r hr
    | _ => exact .stop _

theorem safe_parseargs : ∀ n argc, Safe es (parseargs buf es n argc)
    fun a => (∀ w ∈ a.1, w.Of buf) ∧ ∀ r ∈ a.2, r.file.Of buf
  | 0, _ => .stop _
  | n + 1, argc => by
    refine (safe_peek hl _).bind fun b _ => .ite (.pure (by simp)) ?_
    refine (safe_gettoken hl).bind fun t ht => ?_
    cases t with
    | done => exact .pure (by simp)
    | word w =>
      refine .bind (A := fun _ => True) (.ite (.stop _) (.pure trivial)) fun _ _ => ?_
      refine (safe_parseredirs hl n).bind fun rs hrs => ?_
      refine (safe_parseargs n (argc + 1)).bind fun ⟨argv, rs'⟩ ⟨hargv, hrs'⟩ => .pure ⟨?_, ?_⟩
      · exact List.forall_mem_cons.2 ⟨ht w rfl, hargv⟩
      · exact List.forall_mem_append.2 ⟨hrs, hrs'⟩
    | _ => exact .stop _

theorem safe_parseback : ∀ n {c : Cmd}, c.Of buf →
    Safe es (parseback buf es n c) (·.Of buf)
  | 0, _, _ => .stop _
  | n + 1, cmd, h =>
    (safe_peek hl _).bind fun _ _ => .ite
      ((safe_gettoken hl).bind fun _ _ => safe_parseback n (c := .back cmd) h) (.pure h)

/-- **One induction for the four functions**: each calls the others with fewer turns. -/
theorem safe_parse : ∀ n, Safe es (parseline buf es n) (·.Of buf) ∧
    Safe es (parsepipe buf es n) (·.Of buf) ∧ Safe es (parseblock buf es n) (·.Of buf) ∧
    Safe es (parseexec buf es n) (·.Of buf) := by
  -- a token, then the rest of the command
  have hnext : ∀ {m : Parse Cmd} {f : Cmd → Cmd}, Safe es m (·.Of buf) →
      (∀ c, c.Of buf → (f c).Of buf) →
      Safe es (do let _ ← gettoken buf es; return f (← m)) (·.Of buf) := fun hm hf =>
    (safe_gettoken hl).bind fun _ _ => hm.bind fun c hc => .pure (hf c hc)
  intro n
  induction n with
  | zero =>
    exact ⟨.stop _, .stop _, .stop _, .stop _⟩
  | succ n ih =>
    obtain ⟨hline, hpipe, hblock, hexec⟩ := ih
    refine ⟨hpipe.bind fun c hc => (safe_parseback hl n hc).bind fun c hc => ?_,
      hexec.bind fun c hc => ?_, ?_, ?_⟩
    · refine (safe_peek hl _).bind fun _ _ => .ite (hnext hline fun c' hc' => ?_) (.pure hc)
      exact List.forall_mem_append.2 ⟨hc, hc'⟩
    · refine (safe_peek hl _).bind fun _ _ => .ite (hnext hpipe fun c' hc' => ?_) (.pure hc)
      exact List.forall_mem_append.2 ⟨hc, hc'⟩
    · refine (safe_peek hl _).bind fun _ _ => .ite ?_ (.stop _)
      refine (safe_gettoken hl).bind fun _ _ => hline.bind fun c hc => ?_
      refine (safe_peek hl _).bind fun _ _ => .ite ?_ (.stop _)
      exact (safe_gettoken hl).bind fun _ _ => (safe_parseredirs hl n).bind fun rs hrs =>
        .pure (hc.redirs hrs)
    · refine (safe_peek hl _).bind fun _ _ => .ite hblock ?_
      refine (safe_parseredirs hl n).bind fun rs hrs => (safe_parseargs hl n 0).bind ?_
      rintro ⟨argv, rs'⟩ ⟨hargv, hrs'⟩
      exact .pure (Cmd.Of.redirs (c := .exec argv) hargv (List.forall_mem_append.2 ⟨hrs, hrs'⟩))

omit hl

/-! ## Reading the words back -/

/-- The string at `p` is `text`. -/
def Reads (b : Bytes) (p : Nat) (text : List UInt8) : Prop :=
  text = (List.range text.length).map (fun i => b (p + i)) ∧ 0 ∉ text ∧ b (p + text.length) = 0

/-- `nulterminate` clears the ends of the words, and nothing else. -/
theorem nulterminate_apply (cmd : Cmd) (b : Bytes) (i : Nat) :
    nulterminate cmd b i = if i ∈ cmd.words.map Word.eq then 0 else b i := by
  have happ : ∀ l r : List Word, i ∈ (l ++ r).map Word.eq ↔ i ∈ r.map Word.eq ∨ i ∈ l.map Word.eq :=
    fun l r => by rw [List.map_append, List.mem_append, or_comm]
  induction cmd generalizing b with
  | exec argv =>
    rw [nulterminate, Cmd.words]
    induction argv generalizing b with
    | nil => simp
    | cons w argv ih =>
      rw [List.foldl_cons, ih, update_apply, ← ite_or]
      simp only [List.map_cons, List.mem_cons, or_comm]
  | redir cmd r ih =>
    rw [nulterminate, Cmd.words, update_apply, ih, ← ite_or]
    simp only [List.map_cons, List.mem_cons]
  | pipe left right ihl ihr => rw [nulterminate, Cmd.words, ihr, ihl, ← ite_or]; simp only [happ]
  | list left right ihl ihr => rw [nulterminate, Cmd.words, ihr, ihl, ← ite_or]; simp only [happ]
  | back cmd ih => exact ih b

/-- `strlen` finds the end. -/
theorem lineEnd_strlen : ∀ line : List UInt8, LineEnd (lineAt line) (strlen line)
  | [] => ⟨fun i hi => absurd hi (Nat.not_lt_zero i), rfl⟩
  | c :: line => by
    obtain ⟨hchars, hnul⟩ := lineEnd_strlen line
    rw [strlen]
    split
    · next hc => exact ⟨fun i hi => absurd hi (Nat.not_lt_zero i), hc⟩
    · next hc =>
      refine ⟨fun i hi => ?_, hnul⟩
      cases i with
      | zero => exact hc
      | succ i => exact hchars i (Nat.lt_of_succ_lt_succ hi)

/-- **In-place termination is harmless**: when a line is accepted, every argument and every file name
of the tree is a word of the line and reads back as it stood there; and no character of a word has
been overwritten. -/
theorem parsecmd_words (n : Nat) (line : List UInt8) (cmd : Cmd) (after : Bytes)
    (h : parsecmd n line = .ok (cmd, after)) :
    (∀ w ∈ cmd.words, w.Of (lineAt line) ∧ Reads after w.q (w.text (lineAt line))) ∧
    ∀ i, InWord (lineAt line i) → after i = lineAt line i := by
  have hl := lineEnd_strlen line
  unfold parsecmd at h
  split at h
  swap
  · cases h
  next cmd' s' hparse =>
  obtain ⟨rfl, rfl⟩ := Prod.mk.inj (Except.ok.inj h)
  have hof : cmd'.Of (lineAt line) := by
    have hsafe : Safe _ (parseall (lineAt line) _ n) (·.Of (lineAt line)) :=
      (safe_parse hl n).1.bind fun c hc => (safe_peek hl _).bind fun _ _ =>
        .bind (A := fun _ => True) (fun s hs => ⟨hs, trivial⟩) fun _ _ =>
          .bind (A := fun _ => True) (.ite (.stop _) (.pure trivial)) fun _ _ => .pure hc
    exact (wp_ok (hsafe 0 (Nat.zero_le _)) hparse).2
  have hkeep : ∀ i, InWord (lineAt line i) → nulterminate cmd' (lineAt line) i = lineAt line i := by
    intro i hi
    rw [nulterminate_apply, if_neg]
    rintro he
    obtain ⟨w, hw, rfl⟩ := List.mem_map.1 he
    exact (hof w hw).stop hi
  refine ⟨fun w hw => ⟨hof w hw, ?_⟩, hkeep⟩
  have hlt := (hof w hw).nonempty
  have hlen : (w.text (lineAt line)).length = w.eq - w.q := by
    rw [Word.text, List.length_map, List.length_range]
  have hin : ∀ i ∈ List.range (w.eq - w.q), InWord (lineAt line (w.q + i)) := fun i hi =>
    (hof w hw).chars _ (Nat.le_add_right _ _) (by rw [List.mem_range] at hi; omega)
  rw [Reads, hlen, Nat.add_sub_cancel' hlt.le]
  refine ⟨List.map_congr_left fun i hi => (hkeep _ (hin i hi)).symm, fun h0 => ?_, ?_⟩
  · obtain ⟨i, hi, h0⟩ := List.mem_map.1 h0
    exact (hin i hi).1 h0
  · rw [nulterminate_apply, if_pos (List.mem_map_of_mem hw)]

end

/-- `a>b`: one argument and one file, on the two sides of one symbol. -/
theorem parsecmd_words_redir : ∃ cmd after, parsecmd 6 [97, 62, 98] = .ok (cmd, after) ∧
    Reads after 0 [97] ∧ Reads after 2 [98] := by
  have h : parsecmd 6 [97, 62, 98] = .ok (.redir (.exec [⟨0, 1⟩]) ⟨⟨2, 3⟩, 0x201, 1⟩,
    update (update (lineAt [97, 62, 98]) 1 0) 3 0) := rfl
  have hw := (parsecmd_words 6 [97, 62, 98] _ _ h).1
  exact ⟨_, _, h, (hw ⟨0, 1⟩ (by decide)).2, (hw ⟨2, 3⟩ (by decide)).2⟩

end Dixv6.User
