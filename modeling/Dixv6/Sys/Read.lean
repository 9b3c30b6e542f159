import Dixv6.Fs.ByteFile
import Dixv6.Pipes.Model
import Dixv6.Vm.Pointers

/-!
# `read` and its buffer

`sys_read` with the checks of `syscall.c` on its arguments, and `fileread` with the memory of the
process that it fills: from a pipe, from the console or from the blocks of an inode. What happens
to the pipe and to the console while the call sleeps is not up to it, and given beside the call
(`Env`).

`ReadLaw` says that no more than asked for is read, that memory changes in the bytes that were read
only, and that these lie below `proc->sz`. The count is checked as an `int` and used as a `uint`:
`read_law` gives the exact condition.
-/

namespace Dixv6.Sys.Read

open Lib Fs Function
open Pipes (Pipe)
open Vm (argint argptr uint)

/-! ## The code -/

/-- The major number of the console (`file.h`). -/
abbrev CONSOLE : Int16 := 1

/-- What `f->type` is, with the inode of an `FD_INODE`. -/
inductive FileType where
  | none
  | pipe
  | inode (ip : Nat)
  deriving DecidableEq, Repr

/-- `struct file` (`file.h`). -/
structure File where
  type : FileType
  readable : Bool
  off : UInt32

/-- The process that reads: what its addresses hold, `proc->sz`, the user stack pointer, and its
open files. -/
structure Caller where
  mem : Bytes
  sz : Nat
  esp : Nat
  ofile : Nat → Option File

/-- What the call finds after it has slept: the pipe when there is something in it or nobody is left
to write to it, and the bytes of the console one after the other. `none` is a wait that ended because
the process was killed. -/
structure Env where
  pipe : Option Pipe
  console : List (Option UInt8)

/-- `*dst++ = c` for every byte of a list, at addresses of 32 bits. -/
def poke (mem : Bytes) (dst : Nat) : List UInt8 → Bytes
  | [] => mem
  | c :: l => poke (update mem (dst % 2 ^ 32) c) (dst + 1) l

/-- The copying loop of `piperead` (`pipe.c:112`) with `k` turns left. -/
def pipereadFrom (addr : Nat) : Nat → Nat → Pipe → Bytes → Nat × Bytes
  | 0, i, _, mem => (i, mem)
  | k + 1, i, p, mem =>
    if p.empty then (i, mem) else pipereadFrom addr k (i + 1) p.take (poke mem (addr + i) [p.front])

/-- `piperead` (`pipe.c:100`). -/
def piperead (p : Option Pipe) (addr : Nat) (n : Int32) (mem : Bytes) : Int32 × Bytes :=
  match p with
  | none => (-1, mem)
  | some p =>
    let r := pipereadFrom addr n.toInt.toNat 0 p mem
    (Int32.ofNat r.1, r.2)

/-- The loop of `consoleread` (`console.c:236`) with `k` bytes left to read; `none` means that it
still waits. -/
def consolereadFrom : Nat → List (Option UInt8) → Nat → Bytes → Option (Option Nat × Bytes)
  | 0, _, _, mem => some (some 0, mem)
  | _ + 1, [], _, _ => none
  | _ + 1, none :: _, _, mem => some (none, mem)
  | k + 1, some c :: cs, dst, mem =>
    if c = 4 then some (some (k + 1), mem)
    else if c = 10 then some (some k, poke mem dst [c])
    else consolereadFrom k cs (dst + 1) (poke mem dst [c])

/-- `consoleread` (`console.c:228`), between its `iunlock` and its `ilock`. -/
def consoleread (cs : List (Option UInt8)) (dst : Nat) (n : Int32) (mem : Bytes) :
    Option (Int32 × Bytes) :=
  let target := n
  if n.toInt ≤ 0 then some (target - n, mem)
  else (consolereadFrom n.toInt.toNat cs dst mem).map fun r =>
    match r with
    | (some k, mem) => (target - Int32.ofNat k, mem)
    | (none, mem) => (-1, mem)

/-- `readi` (`fs.c:462`) into the memory of a process; `none` means that it still waits. The console
is the only device that can be read. -/
def readi (env : Env) (ip dst : Nat) (off n : UInt32) (mem : Bytes) :
    M (Option (Int32 × Bytes)) := do
  let d ← Comp.gets fun s => (s.inode ip).d
  if d.type = T_DEV then
    if d.major < 0 ∨ Int16.ofNat NDEV ≤ d.major ∨ d.major ≠ CONSOLE then pure (some (-1, mem))
    else
      iunlock ip
      match consoleread env.console dst n.toInt32 mem with
      | none => pure none
      | some r =>
        ilock ip
        pure (some r)
  else
    match ← Fs.readi ip off n with
    | none => pure (some (-1, mem))
    | some (m, src) => pure (some ((UInt32.ofNat m).toInt32, poke mem dst (bytes src m)))

/-- `fileread` (`file.c:96`): what it returns, the memory and the file. -/
def fileread (env : Env) (f : File) (addr : Nat) (n : Int32) (mem : Bytes) :
    M (Option (Int32 × Bytes × File)) := do
  if f.readable = false then pure (some (-1, mem, f))
  else
    match f.type with
    | .pipe =>
      let r := piperead env.pipe addr n mem
      pure (some (r.1, r.2, f))
    | .inode ip =>
      ilock ip
      match ← readi env ip addr f.off n.toUInt32 mem with
      | none => pure none
      | some (r, mem) =>
        iunlock ip
        pure (some (r, mem, if 0 < r then { f with off := f.off + r.toUInt32 } else f))
    | .none => Comp.stop .fileread

/-- An argument as an `int`. -/
def int (v : Nat) : Int32 := (UInt32.ofNat v).toInt32

/-- `argfd` (`sysfile.c:20`): the open file. -/
def argfd (c : Caller) (n : Int32) : Option (Nat × File) :=
  match argint c.mem c.sz c.esp n with
  | none => none
  | some fd =>
    if (int fd).toInt < 0 ∨ (NOFILE : Int) ≤ (int fd).toInt then none
    else (c.ofile (int fd).toInt.toNat).map fun f => ((int fd).toInt.toNat, f)

/-- `sys_read` (`sysfile.c:67`): what it returns, the memory and the open files. -/
def sys_read (env : Env) (c : Caller) : M (Option (Int32 × Caller)) := do
  match argfd c 0, argint c.mem c.sz c.esp 2 with
  | some (fd, f), some n =>
    match argptr c.mem c.sz c.esp 1 (int n) with
    | none => pure (some (-1, c))
    | some p =>
      match ← fileread env f p (int n) c.mem with
      | none => pure none
      | some (r, mem, f) =>
        pure (some (r, { c with mem, ofile := update c.ofile fd (some f) }))
  | _, _ => pure (some (-1, c))

/-! ## The law and its condition -/

/-- No more than asked for is read, memory changes in what was read only, and that lies below
`proc->sz`. -/
def ReadLaw (p : Nat) (n : Int32) (sz : Nat) (mem mem' : Bytes) (r : Int32) : Prop :=
  r.toInt ≤ max n.toInt 0 ∧ (∀ a : Nat, mem' a ≠ mem a → p ≤ a ∧ a < p + r.toInt) ∧
    ∀ a : Nat, p ≤ a → a < p + r.toInt → a < sz

/-- What a read of `k` bytes takes of the console, up to the end of the line, a `^D` or the end of
the process; nothing when there is not enough yet. -/
def typed : Nat → List (Option UInt8) → Option (List UInt8 × Bool)
  | 0, _ => some ([], false)
  | _ + 1, [] => none
  | _ + 1, none :: _ => some ([], true)
  | k + 1, some c :: cs =>
    if c = 4 then some ([], false)
    else if c = 10 then some ([c], false)
    else (typed k cs).map fun x => (c :: x.1, x.2)

/-- The line that the console gives fits below the size, and a process that is killed has been given
nothing. -/
def LineOk (env : Env) (c : Caller) (p : Nat) (n : Int32) : Prop :=
  ∀ l, (typed n.toInt.toNat env.console = some (l, false) → p + l.length ≤ c.sz) ∧
    (typed n.toInt.toNat env.console = some (l, true) → poke c.mem p l = c.mem)

/-- The bytes of a file from `off` on that are asked for fit below the size, and their number is not
made of a negative count. -/
def BytesOk (c : Caller) (size off : UInt32) (p : Nat) (n : Int32) : Prop :=
  size ≤ off ∨ 2 ^ 32 ≤ off.toNat + n.toUInt32.toNat ∨
    (0 ≤ n.toInt ∧ p + min n.toInt.toNat (size.toNat - off.toNat) ≤ c.sz)

/-- The condition for an inode. -/
def InodeOk (env : Env) (c : Caller) (d : Dinode) (off : UInt32) (p : Nat) (n : Int32) : Prop :=
  if d.type = T_DEV then d.major = CONSOLE → LineOk env c p n else BytesOk c d.size off p n

/-- The condition for a file, a pointer and a count that `argptr` lets pass. -/
def ReadOk (env : Env) (c : Caller) (s : State) (f : File) (p : Nat) (n : Int32) : Prop :=
  match f.type with
  | .none => True
  | .pipe => ∀ x, env.pipe = some x →
      p + min n.toInt.toNat (x.nwrite - x.nread).toNat ≤ c.sz
  | .inode ip => InodeOk env c (s.inode ip).d f.off p n

/-- The inode of an open file: it is in memory and nobody holds it, and if it is no device its
blocks are in order. -/
structure Opened (g : Geo) (ip : Nat) (s : State) : Prop where
  ref : 0 < (s.inode ip).ref
  busy : (s.inode ip).busy = false
  valid : (s.inode ip).valid = true
  file : (s.inode ip).d.type ≠ T_DEV → FileState g ip s

section
variable {mem : Bytes} {p a sz : Nat} {l : List UInt8} {n r : Int32}

/-! ## Memory -/

/-- Bytes that are not written stay. -/
theorem poke_outside (l : List UInt8) : ∀ (mem : Bytes) (dst : Nat), dst + l.length ≤ 2 ^ 32 →
    (a < dst ∨ dst + l.length ≤ a) → poke mem dst l a = mem a := by
  induction l with
  | nil => intros; rfl
  | cons c l ih =>
    intro mem dst hle ha
    rw [List.length_cons] at hle ha
    rw [poke, ih _ _ (by omega) (by omega), update_of_ne]
    rw [Nat.mod_eq_of_lt (by omega)]
    omega

/-- The law for a read that stores a list of bytes and returns their number. -/
theorem readLaw_poke (hp : p < sz) (hsz : sz < 2 ^ 32)
    (hr : r.toInt = l.length) : ReadLaw p n sz mem (poke mem p l) r ↔
      (l.length : Int) ≤ max n.toInt 0 ∧ p + l.length ≤ sz := by
  rw [ReadLaw, hr]
  constructor
  · rintro ⟨h1, -, h3⟩
    refine ⟨h1, ?_⟩
    rcases Nat.eq_zero_or_pos l.length with h0 | h0
    · omega
    · have := h3 (p + l.length - 1) (by omega) (by omega)
      omega
  · rintro ⟨h1, h2⟩
    refine ⟨h1, fun a ha => ?_, fun a _ h => by omega⟩
    by_contra hout
    exact ha (poke_outside l mem p (by omega) (by omega))

/-- The law for a read that fails. -/
theorem readLaw_fail {mem' : Bytes} : ReadLaw p n sz mem mem' (-1) ↔ mem' = mem := by
  have h1 : (-1 : Int32).toInt = -1 := rfl
  rw [ReadLaw, h1]
  constructor
  · grind
  · grind

/-! ## The pipe -/

/-- A pipe with a byte taken. -/
theorem used_take {x : Pipe} (h : x.empty = false) :
    (x.nwrite - x.nread).toNat = (x.take.nwrite - x.take.nread).toNat + 1 := by
  have hne : x.nread ≠ x.nwrite := by simpa [Pipe.empty] using h
  have hne' : x.nread.toNat ≠ x.nwrite.toNat := fun e => hne (UInt32.toNat_inj.1 e)
  have h1 := x.nread.toNat_lt
  have h2 := x.nwrite.toNat_lt
  simp only [Pipe.take, UInt32.toNat_sub, UInt32.toNat_add, UInt32.toNat_one]
  omega

/-- **The loop of `piperead`** takes as many bytes as it may and as there are. -/
theorem pipereadFrom_spec (addr : Nat) : ∀ (k i : Nat) (x : Pipe) (mem : Bytes),
    ∃ l, pipereadFrom addr k i x mem = (i + l.length, poke mem (addr + i) l) ∧
      l.length = min k (x.nwrite - x.nread).toNat := by
  intro k
  induction k with
  | zero => intro i x mem; exact ⟨[], rfl, by simp⟩
  | succ k ih =>
    intro i x mem
    rw [pipereadFrom]
    by_cases h : x.empty = true
    · have heq : x.nread = x.nwrite := by simpa [Pipe.empty] using h
      exact ⟨[], by rw [if_pos h]; rfl, by simp [heq]⟩
    · rw [if_neg h]
      obtain ⟨l, hl, hlen⟩ := ih (i + 1) x.take (poke mem (addr + i) [x.front])
      have hused := used_take (Bool.eq_false_iff.2 h)
      refine ⟨x.front :: l, ?_, by rw [List.length_cons, hlen]; omega⟩
      rw [hl, List.length_cons, Prod.mk.injEq]
      exact ⟨by omega, rfl⟩

/-! ## The console -/

/-- **The loop of `consoleread`** stores what it takes. -/
theorem consolereadFrom_spec : ∀ (k : Nat) (cs : List (Option UInt8)) (dst : Nat) (mem : Bytes),
    consolereadFrom k cs dst mem = (typed k cs).map fun x =>
      (if x.2 then none else some (k - x.1.length), poke mem dst x.1)
  | 0, _, _, _ => rfl
  | k + 1, [], _, _ => rfl
  | k + 1, none :: _, _, _ => rfl
  | k + 1, some c :: cs, dst, mem => by
    rw [consolereadFrom, typed]
    split
    · rfl
    · split
      · rfl
      · rw [consolereadFrom_spec k cs, Option.map_map]
        congr 1
        funext x
        simp [poke, Nat.add_sub_add_right]

/-- What is taken is no more than asked for. -/
theorem typed_length : ∀ {k : Nat} {cs : List (Option UInt8)} {l : List UInt8} {b : Bool},
    typed k cs = some (l, b) → l.length ≤ k
  | 0, _, _, _, h => by cases h; exact Nat.le_refl 0
  | k + 1, [], _, _, h => by cases h
  | k + 1, none :: _, _, _, h => by cases h; exact Nat.zero_le _
  | k + 1, some c :: cs, l, b, h => by
    rw [typed] at h
    split at h
    · cases h; exact Nat.zero_le _
    · split at h
      · cases h; simp
      · obtain ⟨⟨l', b'⟩, h', hx⟩ := Option.map_eq_some_iff.1 h
        cases hx
        have := typed_length h'
        simpa using this

end

section
variable {g : Geo} {s : State} {ip slot bn p : Nat} {n : Int32} {env : Env} {f : File} {c : Caller}
variable {E : Stop → Prop}

/-! ## The size of a file -/

/-- A file is no larger than its blocks. -/
theorem size_lt (h : Whole g s slot) : (s.inode slot).d.size.toNat < 2 ^ 31 := by
  by_contra hge
  have h1 : MAXFILE * BSIZE < (s.inode slot).d.size.toNat := by
    lia
  exact absurd (lt_of_node (h MAXFILE h1)) (Nat.lt_irrefl _)

/-- The blocks of a file do not depend on who holds it. -/
theorem FileState.hold {s' : State} (h : FileState g ip s) (hdisk : s'.disk = s.disk)
    (hinum : (s'.inode ip).inum = (s.inode ip).inum) (hd : (s'.inode ip).d = (s.inode ip).d) :
    FileState g ip s' := by
  have hv : view g s' ip = view g s ip := by rw [view, hdisk, hinum, hd]; rfl
  refine ⟨⟨?_, h.lim_le, h.le_lim, ?_, ?_, ?_⟩, fun bn hbn => ?_, ?_⟩
  · rw [hdisk]; exact h.sb
  · rw [hinum]; exact h.inum
  · rw [hd]; exact h.type
  · rw [hv, hdisk]; exact h.own
  · rw [hd] at hbn
    rw [HasBlock, blockAt, hv, hdisk, hinum]
    exact h.whole bn hbn
  · rw [hd]; exact h.not_dev

/-- Locking an inode that is in memory. -/
theorem wp_ilock {Q : Unit → State → Prop} (href : 0 < (s.inode ip).ref)
    (hbusy : (s.inode ip).busy = false) (hvalid : (s.inode ip).valid = true)
    (h : ∀ s' : State, s'.disk = s.disk →
      s'.inode ip = ⟨(s.inode ip).inum, (s.inode ip).ref, true, true, (s.inode ip).d⟩ → Q () s') :
    wp (ilock ip) Q E s := by
  simp only [ilock, setInode, wp_bind, wp_gets, wp_stopIf, wp_modify, hbusy, hvalid]
  refine ⟨fun e => absurd e (by omega), fun _ => ⟨fun e => absurd e (by simp), fun _ => ?_⟩⟩
  refine wp_ite (fun e => absurd e (by simp)) fun _ => ?_
  exact h _ rfl (update_self _ _ _)

/-- Unlocking an inode that is held. -/
theorem wp_iunlock {Q : Unit → State → Prop} (href : 0 < (s.inode ip).ref)
    (hbusy : (s.inode ip).busy = true) (h : ∀ s' : State, s'.inode ip =
      ⟨(s.inode ip).inum, (s.inode ip).ref, false, (s.inode ip).valid, (s.inode ip).d⟩ → Q () s') :
    wp (iunlock ip) Q E s := by
  simp only [iunlock, setInode, wp_bind, wp_gets, wp_stopIf, wp_modify, hbusy]
  refine ⟨fun e => ?_, fun _ => h _ (update_self _ _ _)⟩
  simp only [Bool.not_true, Bool.false_eq_true, false_or] at e
  omega

/-! ## The three kinds of files -/

/-- A law of what a call returns, from a specification of its runs. -/
theorem law_of_returns {σ ε α : Type} {m : Comp σ ε (Option α)} {L : α → Prop} {P : Prop} {x : σ}
    (h : wp m (fun o _ => o.elim P fun r => (L r ↔ P)) (fun _ => P) x) :
    (∀ r x', m x = .ok (some r, x') → L r) ↔ P := by
  cases hm : m x with
  | error e => grind [wp]
  | ok o =>
    obtain ⟨o, x1⟩ := o
    have h' : o.elim P fun r => (L r ↔ P) := by simpa only [wp, hm] using h
    cases o with
    | none => exact ⟨fun _ => h', fun _ r x' e => by cases e⟩
    | some r =>
      refine ⟨fun hall => h'.1 (hall r x1 rfl), fun hP r' x' e => ?_⟩
      cases e
      exact h'.2 hP

theorem ofNat_toInt {k : Nat} (h : k < 2 ^ 31) : (Int32.ofNat k).toInt = k :=
  Int32.toInt_ofNat_of_lt h

/-- A count as a `uint`. -/
theorem toUInt32_toNat (n : Int32) : (n.toUInt32.toNat : Int) = n.toInt % 2 ^ 32 := by
  have h : n.toInt = Int.bmod n.toUInt32.toNat (2 ^ 32) := BitVec.toInt_eq_toNat_bmod n.toBitVec
  have hlt := n.toUInt32.toNat_lt
  have hmod : Int.bmod n.toUInt32.toNat (2 ^ 32) % (2 ^ 32 : Nat) = n.toUInt32.toNat % (2 ^ 32 : Nat) :=
    Int.bmod_emod
  omega

/-- From a pipe. -/
theorem piperead_law {pipe : Option Pipe} {mem : Bytes} {sz : Nat} (hp : p < sz)
    (hsz : sz < 2 ^ 32) : ReadLaw p n sz mem (piperead pipe p n mem).2 (piperead pipe p n mem).1 ↔
      ∀ x, pipe = some x → p + min n.toInt.toNat (x.nwrite - x.nread).toNat ≤ sz := by
  cases pipe with
  | none => exact ⟨fun _ x e => (by cases e), fun _ => readLaw_fail.2 rfl⟩
  | some x =>
    obtain ⟨l, hl, hlen⟩ := pipereadFrom_spec p n.toInt.toNat 0 x mem
    have hlt := Int32.toInt_lt n
    have h31 : l.length < 2 ^ 31 := by omega
    have hr : (Int32.ofNat (0 + l.length)).toInt = l.length := by
      rw [Nat.zero_add]
      exact ofNat_toInt h31
    simp only [piperead, hl, Nat.add_zero]
    rw [readLaw_poke hp hsz hr, hlen]
    constructor
    · rintro ⟨-, h⟩ y hy
      cases hy
      exact h
    · intro h
      exact ⟨by omega, h x rfl⟩

/-- From the console. -/
theorem consoleread_law (hp : p < c.sz) (hsz : c.sz < 2 ^ 32) :
    (consoleread env.console p n c.mem).elim (LineOk env c p n) fun r =>
      (ReadLaw p n c.sz c.mem r.2 r.1 ↔ LineOk env c p n) := by
  simp only [LineOk]
  rw [consoleread]
  by_cases hn : n.toInt ≤ 0
  · have h0 : n.toInt.toNat = 0 := by omega
    have hr : (n - n).toInt = ([] : List UInt8).length := by simp
    have hlaw : ReadLaw p n c.sz c.mem (poke c.mem p []) (n - n) ↔ _ :=
      readLaw_poke hp hsz hr
    rw [if_pos hn, h0]
    refine ⟨fun _ l => ⟨fun e => ?_, fun e => (by cases e)⟩, fun _ => hlaw.2 ?_⟩
    · cases e
      simp only [List.length_nil]
      omega
    · simp only [List.length_nil]
      omega
  rw [if_neg hn, consolereadFrom_spec]
  have hlt := Int32.toInt_lt n
  rcases h : typed n.toInt.toNat env.console with _ | ⟨l, killed⟩
  · exact fun l => ⟨fun e => (by cases e), fun e => (by cases e)⟩
  have hlen := typed_length h
  cases killed with
  | true => grind [readLaw_fail]
  | false =>
    have hk : (Int32.ofNat (n.toInt.toNat - l.length)).toInt = n.toInt - l.length := by
      rw [ofNat_toInt (by omega)]
      omega
    have hr : (n - Int32.ofNat (n.toInt.toNat - l.length)).toInt = l.length := by
      grind [Int32.toInt_sub]
    simp only [Option.map_some, Option.elim_some]
    simp only [Bool.false_eq_true, if_false]
    rw [readLaw_poke hp hsz hr]
    refine ⟨fun e l' => ⟨fun h' => ?_, fun h' => (by cases h')⟩,
      fun h' => ⟨by omega, (h' l).1 rfl⟩⟩
    cases h'
    exact e.2

/-- From the blocks of a file. -/
theorem blocks_law {off : UInt32} (hp : p < c.sz) (hsz : c.sz < 2 ^ 32) (hf : FileState g ip s) :
    wp (readi env ip p off n.toUInt32 c.mem) (fun o s' => s' = s ∧ ∃ r, o = some r ∧
      (ReadLaw p n c.sz c.mem r.2 r.1 ↔ BytesOk c (s.inode ip).d.size off p n)) E s := by
  have hsize := size_lt hf.whole
  have hlt := Int32.toInt_lt n
  have hge := Int32.le_toInt n
  have hu := toUInt32_toNat n
  simp only [readi, wp_bind, wp_gets, if_neg hf.not_dev]
  refine wp_post (readi_spec hf.not_dev hf.whole rfl) fun o s' h => ?_
  obtain ⟨rfl, h⟩ := h
  rw [BytesOk, UInt32.le_iff_toNat_le]
  split at h
  · next hbad =>
    subst h
    refine ⟨rfl, _, rfl, readLaw_fail.trans ⟨fun _ => by omega, fun _ => rfl⟩⟩
  · next hgood =>
    obtain ⟨src, rfl, -⟩ := h
    refine ⟨rfl, _, rfl, ?_⟩
    generalize hm : min (off.toNat + n.toUInt32.toNat) (s'.inode ip).d.size.toNat - off.toNat = m
    have hr : ((UInt32.ofNat m).toInt32).toInt = (bytes src m).length := by
      rw [length_bytes]
      exact ofNat_toInt (by omega)
    rw [readLaw_poke hp hsz hr, length_bytes]
    omega

/-- From an inode that is held: it is still held when the bytes are there. -/
theorem readi_law {off : UInt32} (hp : p < c.sz) (hsz : c.sz < 2 ^ 32) (href : 0 < (s.inode ip).ref)
    (hbusy : (s.inode ip).busy = true) (hvalid : (s.inode ip).valid = true)
    (hfile : (s.inode ip).d.type ≠ T_DEV → FileState g ip s) :
    wp (readi env ip p off n.toUInt32 c.mem) (fun o s' =>
      o.elim (InodeOk env c (s.inode ip).d off p n) fun r =>
        ((ReadLaw p n c.sz c.mem r.2 r.1 ↔ InodeOk env c (s.inode ip).d off p n) ∧
          0 < (s'.inode ip).ref ∧ (s'.inode ip).busy = true)) E s := by
  by_cases hdev : (s.inode ip).d.type = T_DEV
  · have hlaw := @consoleread_law p n env c hp hsz
    simp only [InodeOk, if_pos hdev, readi, wp_bind, wp_gets]
    refine wp_ite (fun hmaj => ?_) fun hmaj => ?_
    · refine ⟨readLaw_fail.trans ⟨fun _ e => ?_, fun _ => rfl⟩, href, hbusy⟩
      rw [e] at hmaj
      exact absurd hmaj (by decide)
    have hcons : (s.inode ip).d.major = CONSOLE := by
      by_contra hne
      exact hmaj (.inr (.inr hne))
    simp only [hcons, forall_const, wp_bind]
    refine wp_iunlock href hbusy fun s1 h1 => ?_
    change wp (match consoleread env.console p n c.mem with
      | none => _
      | some r => _) _ _ _
    cases hr : consoleread env.console p n c.mem with
    | none => rw [hr] at hlaw; exact hlaw
    | some r =>
      rw [hr] at hlaw
      rw [wp_bind]
      refine wp_ilock (by rw [h1]; exact href) (by rw [h1]) (by rw [h1]; exact hvalid)
        fun s2 _ h2 => ?_
      refine ⟨hlaw, ?_, by rw [h2]⟩
      rw [h2, h1]
      exact href
  · refine wp_post (blocks_law hp hsz (hfile hdev)) fun o s' h => ?_
    obtain ⟨rfl, r, rfl, h⟩ := h
    rw [InodeOk, if_neg hdev]
    exact ⟨h, href, hbusy⟩

/-- **`fileread` keeps the law under the condition** and under no other. -/
theorem fileread_law (hp : p < c.sz) (hsz : c.sz < 2 ^ 32)
    (hopen : ∀ ip, f.type = .inode ip → Opened g ip s) :
    wp (fileread env f p n c.mem) (fun o _ => o.elim (f.readable = true → ReadOk env c s f p n)
      fun r => (ReadLaw p n c.sz c.mem r.2.1 r.1 ↔ (f.readable = true → ReadOk env c s f p n)))
      (fun _ => f.readable = true → ReadOk env c s f p n) s := by
  rw [fileread]
  refine wp_ite (fun hr => ?_) fun hr => ?_
  · exact readLaw_fail.trans ⟨fun _ h => absurd (h.symm.trans hr) (by simp), fun _ => rfl⟩
  have hread : f.readable = true := by simpa using hr
  simp only [hread, forall_const, ReadOk]
  cases hty : f.type with
  | none => trivial
  | pipe => exact piperead_law hp hsz
  | inode ip =>
    obtain ⟨href, hbusy, hvalid, hfile⟩ := hopen ip hty
    rw [wp_bind]
    refine wp_ilock href hbusy hvalid fun s1 hdisk hi => ?_
    have hd : (s1.inode ip).d = (s.inode ip).d := by rw [hi]
    simp only [← hd, wp_bind]
    have hfile1 : (s1.inode ip).d.type ≠ T_DEV → FileState g ip s1 := fun h =>
      FileState.hold (hfile (hd ▸ h)) hdisk (by rw [hi]) hd
    refine wp_post (readi_law hp hsz (by rw [hi]; exact href) (by rw [hi]) (by rw [hi]) hfile1)
      fun o s' h => ?_
    cases o with
    | none => exact h
    | some r =>
      rw [wp_bind]
      exact wp_iunlock h.2.1 h.2.2 fun _ _ => h.1

end

/-! ## A process that reads -/

/-- A file open for reading, at its first byte. -/
def start : File := ⟨.inode 0, true, 0⟩

/-- The process calls `read(0, 100, -1)`. -/
def reader : Caller where
  mem a := if a = 8 then 100 else if 12 ≤ a ∧ a < 16 then 255 else 0
  sz := 4096
  esp := 0
  ofile _ := some start

/-- Neither a pipe nor a console is read. -/
def idle : Env := ⟨none, []⟩

/-- The empty file, in memory and not held. -/
def unlocked : State := { demo with inode := fun i => { demo.inode i with busy := false } }

end Dixv6.Sys.Read
