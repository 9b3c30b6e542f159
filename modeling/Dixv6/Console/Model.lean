import Dixv6.Lib.Lts
import Dixv6.Lib.Ring

/-!
# The console

The input side of `console.c`: the ring of typed characters with its three indices, `consoleintr`,
which stores and edits, and `consoleread`, which any number of processes can be in at the same time.
Both hold `input.lock`, `consoleread` except while it sleeps, so a step of the system is one call of
`consoleintr` or one turn of a reader, from where it got the lock to where it sleeps or returns.

`Tty` says what the console is for: an editor that lets a line go when it is complete, and the text
of the lines that were let go so far. It and the reads that returned are kept beside the state and
read by nobody.
-/

namespace Dixv6.Console

open Function

/-- Size of the ring (`console.c:176`). -/
abbrev INPUT_BUF : Nat := 128

/-- `C('D')`: the end of the file. -/
abbrev ctrlD : UInt8 := 4

/-- `C('H')`: backspace. -/
abbrev ctrlH : UInt8 := 8

/-- `C('P')`: process listing. -/
abbrev ctrlP : UInt8 := 16

/-- `C('U')`: kill line. -/
abbrev ctrlU : UInt8 := 21

/-- `'\x7f'`: backspace, too. -/
abbrev delete : UInt8 := 127

/-- The end of a line. -/
abbrev newline : UInt8 := 10

/-- What a key of the keyboard may send in its place. -/
abbrev carriage : UInt8 := 13

/-! ## The ring -/

/-- `input` (`console.c:177`), its lock apart. -/
structure Input where
  buf : Nat → UInt8
  /-- Read index. -/
  r : UInt32
  /-- Write index. -/
  w : UInt32
  /-- Edit index. -/
  e : UInt32

/-- `input.buf[k % INPUT_BUF]` -/
def Input.cell (i : Input) (k : UInt32) : UInt8 := i.buf (k.toNat % INPUT_BUF)

/-- What stands between the read and the write index. -/
def Input.unread (i : Input) : List UInt8 :=
  (List.range (i.w - i.r).toNat).map fun k => i.buf ((i.r.toNat + k) % INPUT_BUF)

theorem sub_one_lt {e w : UInt32} (h : e ≠ w) : (e - 1 - w).toNat < (e - w).toNat := by
  have hne : e.toNat ≠ w.toNat := fun heq => h (UInt32.toNat_inj.1 heq)
  have he := e.toNat_lt
  have hw := w.toNat_lt
  simp only [UInt32.toNat_sub, UInt32.toNat_one]
  omega

/-- The loop of `C('U')` (`console.c:197`). -/
def killLine (i : Input) : Input :=
  if i.e ≠ i.w ∧ i.cell (i.e - 1) ≠ newline then killLine { i with e := i.e - 1 } else i
termination_by (i.e - i.w).toNat
decreasing_by
  rename_i h
  exact sub_one_lt h.1

/-- One turn of the loop of `consoleintr` (`console.c:192`), and whether it calls `wakeup`. -/
def key (i : Input) (c : UInt8) : Input × Bool :=
  if c = ctrlP then (i, false)
  else if c = ctrlU then (killLine i, false)
  else if c = ctrlH ∨ c = delete then
    (if i.e ≠ i.w then { i with e := i.e - 1 } else i, false)
  else if c ≠ 0 ∧ (i.e - i.r).toNat < INPUT_BUF then
    let c := if c = carriage then newline else c
    let i₁ := { i with buf := update i.buf (i.e.toNat % INPUT_BUF) c, e := i.e + 1 }
    if c = newline ∨ c = ctrlD ∨ i₁.e = i₁.r + 128 then ({ i₁ with w := i₁.e }, true)
    else (i₁, false)
  else (i, false)

/-! ## Reading -/

/-- How a turn of a reader ends. -/
inductive Turn where
  /-- It sleeps, with `n` bytes to go. -/
  | sleeps (n : Nat) (dst : List UInt8)
  /-- It finds itself killed: `return -1`. -/
  | killed
  /-- `return target - n` -/
  | returns (n : Nat) (dst : List UInt8)

/-- The loop of `consoleread` (`console.c:236`), with `n` bytes to go and what has been stored at
`dst` before. -/
def consolereadFrom (killed : Bool) (target : Nat) : Nat → List UInt8 → Input → Turn × Input
  | 0, dst, i => (.returns 0 dst, i)
  | n + 1, dst, i =>
    if i.r = i.w then (if killed then .killed else .sleeps (n + 1) dst, i)
    else
      let c := i.cell i.r
      let i₁ := { i with r := i.r + 1 }
      if c = ctrlD then
        -- the `^D` is kept for the next read if this one has something to return
        (.returns (n + 1) dst, if n + 1 < target then { i₁ with r := i₁.r - 1 } else i₁)
      else if c = newline then (.returns n (dst ++ [c]), i₁)
      else consolereadFrom killed target n (dst ++ [c]) i₁

/-- A call of `consoleread` between its `iunlock` and its `ilock`. -/
structure Reader where
  /-- The bytes it was called for: none if the `n` of the caller is negative. -/
  target : Nat
  n : Nat
  dst : List UInt8
  /-- It sleeps on `&input.r`. -/
  asleep : Bool

/-- A read that has returned, other than with -1. -/
structure Answer where
  target : Nat
  value : Nat
  dst : List UInt8
  deriving DecidableEq

/-! ## What it is for -/

/-- A line editor: what has been let go and what has not. -/
structure Tty where
  /-- The text of all lines that were let go. -/
  text : List UInt8
  /-- How much of it has been taken by readers. -/
  taken : Nat
  /-- The line that can still be edited. -/
  edit : List UInt8

/-- The text that nobody has taken. -/
def Tty.unread (t : Tty) : List UInt8 := t.text.drop t.taken

/-- There is no room for another character. -/
def Tty.Full (t : Tty) : Prop := INPUT_BUF ≤ t.unread.length + t.edit.length

instance (t : Tty) : Decidable t.Full := inferInstanceAs (Decidable (_ ≤ _))

/-- The line is let go. -/
def Tty.commit (t : Tty) : Tty := { t with text := t.text ++ t.edit, edit := [] }

/-- A character is typed. -/
def Tty.key (t : Tty) (c : UInt8) : Tty :=
  if c = ctrlP ∨ c = 0 then t
  else if c = ctrlU then { t with edit := [] }
  else if c = ctrlH ∨ c = delete then { t with edit := t.edit.dropLast }
  else if t.Full then t
  else
    let c := if c = carriage then newline else c
    let t₁ := { t with edit := t.edit ++ [c] }
    if c = newline ∨ c = ctrlD ∨ t₁.Full then t₁.commit else t₁

/-- Of a text, what a read of `n` bytes takes once it has begun, and the rest: up to the end of the
line, up to a `^D`, or all it asked for; `none` means that it has to wait. -/
def line : Nat → List UInt8 → Option (List UInt8 × List UInt8)
  | 0, l => some ([], l)
  | _ + 1, [] => none
  | n + 1, c :: l =>
    if c = ctrlD then some ([], c :: l)
    else if c = newline then some ([c], l)
    else (line n l).map fun x => (c :: x.1, x.2)

/-- Of a text, what a read of `n` bytes returns and the rest. A `^D` at the start is used up. -/
def answer (n : Nat) (l : List UInt8) : Option (List UInt8 × List UInt8) :=
  if n ≠ 0 ∧ l.head? = some ctrlD then some ([], l.tail) else line n l

/-- What successive reads return, and the rest. -/
def answers : List Nat → List UInt8 → Option (List (List UInt8) × List UInt8)
  | [], l => some ([], l)
  | n :: ns, l => (answer n l).bind fun x => (answers ns x.2).map fun y => (x.1 :: y.1, y.2)

/-! ## The system -/

section
variable {ι : Type*} [DecidableEq ι]

/-- The console and the processes that use it. -/
structure State (ι : Type*) where
  input : Input
  /-- The processes in `consoleread`. -/
  reader : ι → Option Reader
  killed : ι → Bool
  /-- What was typed, as it should come out. -/
  tty : Tty
  returned : List Answer

/-- `wakeup(&input.r)` -/
def wakeup (reader : ι → Option Reader) : ι → Option Reader := fun p =>
  (reader p).map fun c => { c with asleep := false }

/-- A character is typed. -/
def State.typed (s : State ι) (c : UInt8) : State ι :=
  let x := key s.input c
  { s with
    input := x.1
    reader := if x.2 then wakeup s.reader else s.reader
    tty := s.tty.key c }

/-- `consoleintr` (`console.c:186`) with the characters that `getc` gives. -/
def consoleintr (s : State ι) (cs : List UInt8) : State ι := cs.foldl State.typed s

/-- A turn of the reader `p`. -/
def consoleread (s : State ι) (p : ι) (c : Reader) : State ι :=
  let x := consolereadFrom (s.killed p) c.target c.n c.dst s.input
  let s₁ := { s with
    input := x.2
    tty := { s.tty with taken := s.tty.taken + (x.2.r - s.input.r).toNat } }
  match x.1 with
  | .sleeps n dst =>
    { s₁ with
      reader := update s.reader p (some { c with n := n, dst := dst, asleep := true }) }
  | .killed => { s₁ with reader := update s.reader p none }
  | .returns n dst =>
    { s₁ with
      reader := update s.reader p none
      returned := s.returned ++ [⟨c.target, c.target - n, dst⟩] }

/-- What can happen. -/
inductive Event (ι : Type*) where
  /-- An interrupt, with the characters that have been typed. -/
  | intr (cs : List UInt8)
  | call (p : ι) (n : Int32)
  /-- A process in `consoleread` has the lock. -/
  | turn (p : ι)
  /-- A process is killed; if it sleeps it wakes up. -/
  | kill (p : ι)

/-- One step of the system. -/
def step (s : State ι) : Event ι → Option (State ι)
  | .intr cs => some (consoleintr s cs)
  | .call p n =>
    if (s.reader p).isNone then
      let n := n.toInt.toNat
      some { s with reader := update s.reader p (some ⟨n, n, [], false⟩) }
    else none
  | .turn p => (s.reader p).bind fun c => if c.asleep then none else some (consoleread s p c)
  | .kill p =>
    some { s with
      reader := update s.reader p ((s.reader p).map fun c => { c with asleep := false })
      killed := update s.killed p true }

/-- `input` is zero when the kernel starts, and nobody reads. -/
def start : State ι where
  input := ⟨fun _ => 0, 0, 0, 0⟩
  reader := fun _ => none
  killed := fun _ => false
  tty := ⟨[], 0, []⟩
  returned := []

/-- The console. -/
def console (ι : Type*) [DecidableEq ι] : Lib.Lts (State ι) (Event ι) where
  init := (· = start)
  step := step

end

end Dixv6.Console
