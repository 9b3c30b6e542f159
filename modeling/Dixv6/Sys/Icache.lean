import Mathlib.Algebra.BigOperators.Group.Finset.Basic
import Mathlib.Algebra.Order.BigOperators.Group.Finset
import Mathlib.Data.Fintype.BigOperators
import Dixv6.Fs.Refs
import Dixv6.Lib.Threads
import Dixv6.Sys.Call

/-!
# The inode cache under open files

Processes make the calls `open`, `chdir` and `fork`, interleaved operation by operation. The
reference count of a cache entry is then the number of open files that refer to it, of processes
whose current directory it is, and of local variables that hold it; a call has at most three such
variables at a time (`Tally`). So `iget` finds an entry as long as the entries that open files and
current directories refer to, and three more for every process inside a call, are fewer than the
cache has (`iget_room`), and between calls the counts are right again (`refs_interleaved`).

Nothing keeps the entries so few: there are `NFILE` open files and `NPROC` current directories, but
only `NINODE` cache entries, and four processes fill them (`cache_full`).
-/

namespace Dixv6.Sys

open Lib Fs Threads Function

/-! ## Processes that make calls -/

/-- A place in the process table. -/
abbrev ProcSlot := Fin NPROC

/-- The calls that take references to inodes and keep them. -/
inductive Call where
  | open (path : Path) (omode : UInt32)
  | chdir (path : Path)
  /-- `fork`, with the place that `allocproc` has found for the child. -/
  | fork (child : ProcSlot)

/-- What the call does. -/
def Call.code : Call → P Unit
  | .open path omode => do
    let _ ← sys_open path omode
    pure ()
  | .chdir path => do
    let _ ← sys_chdir path
    pure ()
  | .fork child => Sys.fork child

/-- The operation cannot be performed now: the process does not exist, or the place of its child is
taken. -/
def waits (p : ProcSlot) : {β : Type} → Op β → Kernel → Bool
  | _, .newProc child _ _, k => (k.proc p).isNone || (k.proc child).isSome
  | _, _, k => (k.proc p).isNone

/-- What an operation does for a process of the table. -/
def host (p : ProcSlot) {β : Type} (o : Op β) : Comp Kernel Stop β := do
  let k ← Comp.gets id
  Comp.stopIf (waits p o k) .sleep
  exec p o

/-- The processes of the table, with their calls. -/
abbrev calls (k : Kernel) : Lts (State Op Kernel Unit ProcSlot) (Event ProcSlot Call) :=
  serve host Call.code k

/-! ## Who holds references -/

/-- The number of open files that refer to the entry. -/
def opened (file : Nat → File) (i : Nat) : Nat :=
  ((Finset.range NFILE).filter fun f => (file f).type = .inode ∧ (file f).ip = i).card

/-- The current directory of a process, if it exists. -/
def cwdOf (k : Kernel) (p : ProcSlot) : Option Nat := (k.proc p).map Proc.cwd

/-- The number of processes whose current directory the entry is. -/
def dirs (k : Kernel) (i : Nat) : Nat :=
  (Finset.univ.filter fun p : ProcSlot => cwdOf k p = some i).card

/-- The reference counts are those of the open files and current directories, and a file that is
not open is of no type. -/
structure Counted (k : Kernel) : Prop where
  refs : ∀ i, k.fs.refs i = opened k.file i + dirs k i
  closed : ∀ f, (k.file f).ref = 0 → (k.file f).type = .none

/-- What a process knows about `proc->cwd` in the middle of a call. -/
inductive Dir where
  /-- It counts as a reference. -/
  | kept
  /-- It has been read. -/
  | read (ip : Nat)
  /-- Its reference has been given back. -/
  | given

/-- What a process holds in the middle of a call. -/
structure Hold where
  /-- The references in local variables. -/
  vars : Multiset Nat
  dir : Dir
  /-- A file that it has allocated and not opened yet. -/
  fresh : Option Nat

/-- Nothing. -/
def Hold.rest : Hold := ⟨0, .kept, none⟩

/-- The current directory counts as a reference. -/
def Dir.counts : Dir → Bool
  | .given => false
  | _ => true

/-- The references to an entry that a process holds. -/
def Hold.refs (l : Hold) (cwd : Option Nat) (i : Nat) : Nat :=
  l.vars.count i + if l.dir.counts ∧ cwd = some i then 1 else 0

/-- One reference more in a variable. -/
theorem Hold.refs_cons (i : Nat) (v : Multiset Nat) (d : Dir) (g cwd : Option Nat) (j : Nat) :
    (⟨i ::ₘ v, d, g⟩ : Hold).refs cwd j = (⟨v, d, g⟩ : Hold).refs cwd j + if j = i then 1 else 0 := by
  simp only [Hold.refs, Multiset.count_cons]
  omega

/-- **The reference counts, while calls are under way.** -/
structure Tally (ls : ProcSlot → Hold) (k : Kernel) (_ : List (Act Op ProcSlot)) : Prop where
  refs : ∀ i, k.fs.refs i = opened k.file i + ∑ p, (ls p).refs (cwdOf k p) i
  few : ∀ p, (ls p).vars.card ≤ 3
  known : ∀ p c, (ls p).dir = .read c → cwdOf k p = some c
  absent : ∀ p : ProcSlot, k.proc p = none → ls p = .rest
  closed : ∀ f, (k.file f).ref = 0 → (k.file f).type = .none
  fresh : ∀ p f, (ls p).fresh = some f →
    f < NFILE ∧ (k.file f).type = .none ∧ 0 < (k.file f).ref
  apart : ∀ p q f, (ls p).fresh = some f → (ls q).fresh = some f → p = q

/-- Between calls the counts are those of the open files and the current directories. -/
theorem Counted.tally {k : Kernel} (h : Counted k) : Tally (fun _ => .rest) k [] := by
  refine ⟨fun i => ?_, fun _ => Nat.zero_le _, fun _ _ h => (by cases h), fun _ _ => rfl, h.closed,
    fun _ _ h => (by cases h), fun _ _ _ h => (by cases h)⟩
  rw [h.refs i, dirs, Finset.card_filter]
  refine congrArg (opened k.file i + ·) (Finset.sum_congr rfl fun p _ => ?_)
  simp [Hold.refs, Hold.rest, Dir.counts]

section
variable {ls : ProcSlot → Hold} {k k' : Kernel} {t : List (Act Op ProcSlot)} {p : ProcSlot} {l' : Hold}
  {c c' : ProcSlot → Option Nat}

/-- What one process holds may change against the count. -/
theorem sum_refs_update (ls : ProcSlot → Hold) (l' : Hold) (i : Nat) (hc : ∀ q, q ≠ p → c' q = c q) :
    (∑ q, (update ls p l' q).refs (c' q) i) + (ls p).refs (c p) i =
      (∑ q, (ls q).refs (c q) i) + l'.refs (c' p) i := by
  rw [← Finset.add_sum_erase _ _ (Finset.mem_univ p),
    ← Finset.add_sum_erase _ (fun q => (ls q).refs (c q) i) (Finset.mem_univ p), update_self]
  have hrest : ∑ q ∈ Finset.univ.erase p, (update ls p l' q).refs (c' q) i =
      ∑ q ∈ Finset.univ.erase p, (ls q).refs (c q) i := by
    refine Finset.sum_congr rfl fun q hq => ?_
    have hne := Finset.ne_of_mem_erase hq
    rw [update_of_ne hne, hc q hne]
  rw [hrest]
  omega

/-- A change of one process and of the counts that agree with each other. -/
theorem Tally.change (h : Tally ls k t) (t' : List (Act Op ProcSlot))
    (hrefs : ∀ i, k'.fs.refs i + opened k.file i + (ls p).refs (cwdOf k p) i =
      k.fs.refs i + opened k'.file i + l'.refs (cwdOf k' p) i)
    (hcwd : ∀ q, q ≠ p → cwdOf k' q = cwdOf k q) (hp' : k'.proc p ≠ none)
    (hfew : l'.vars.card ≤ 3) (hknown : ∀ c, l'.dir = .read c → cwdOf k' p = some c)
    (hclosed : ∀ f, (k'.file f).ref = 0 → (k'.file f).type = .none)
    (hfresh : ∀ f, l'.fresh = some f → f < NFILE ∧ (k'.file f).type = .none ∧ 0 < (k'.file f).ref)
    (hother : ∀ q f, q ≠ p → (ls q).fresh = some f → l'.fresh ≠ some f ∧
      (k'.file f).type = .none ∧ 0 < (k'.file f).ref) : Tally (update ls p l') k' t' := by
  have hne : ∀ q, q ≠ p → update ls p l' q = ls q := fun q hq => update_of_ne hq _ _
  refine ⟨fun i => ?_, fun q => ?_, fun q c hq => ?_, fun q hq => ?_, hclosed, fun q f hq => ?_,
    fun q r f hq hr => ?_⟩
  · have h1 := sum_refs_update ls l' i hcwd
    have h2 := h.refs i
    have h3 := hrefs i
    omega
  · by_cases hqp : q = p
    · rw [hqp, update_self]
      exact hfew
    · rw [hne q hqp]
      exact h.few q
  · by_cases hqp : q = p
    · rw [hqp, update_self] at hq
      exact hqp ▸ hknown c hq
    · rw [hne q hqp] at hq
      rw [hcwd q hqp]
      exact h.known q c hq
  · by_cases hqp : q = p
    · exact absurd (hqp ▸ hq) hp'
    · rw [hne q hqp]
      refine h.absent q ?_
      have := hcwd q hqp
      simpa [cwdOf, hq] using this.symm
  · by_cases hqp : q = p
    · rw [hqp, update_self] at hq
      exact hfresh f hq
    · rw [hne q hqp] at hq
      exact ⟨(h.fresh q f hq).1, (hother q f hqp hq).2⟩
  · by_cases hqp : q = p <;> by_cases hrp : r = p
    · rw [hqp, hrp]
    · grind
    · grind
    · rw [hne q hqp] at hq
      rw [hne r hrp] at hr
      exact h.apart q r f hq hr

end

/-! ## What the operations do to the references -/

/-- The invariant is kept, whatever the operations stop with. -/
abbrev Keep {α : Type} (p : ProcSlot) (m : P α) (Q : α → Hold → Prop) (l : Hold) : Prop :=
  Keeps host Tally (fun _ => True) p m Q l

/-- Nothing has changed that the tally sees. -/
structure Unseen (k k' : Kernel) : Prop where
  refs : k'.fs.refs = k.fs.refs
  file : ∀ f, (k'.file f).type = (k.file f).type ∧ (k'.file f).ip = (k.file f).ip ∧
    ((k'.file f).ref = 0 ↔ (k.file f).ref = 0)
  cwd : ∀ q, cwdOf k' q = cwdOf k q

section
variable {α β : Type} {p : ProcSlot} {k k' : Kernel} {l l1 : Hold} {v : Multiset Nat} {d : Dir}
  {g : Option Nat} {i f : Nat} {o : Op β} {Q : β → Hold → Prop}

theorem opened_congr {file file' : Nat → File}
    (h : ∀ f, (file' f).type = (file f).type ∧ (file' f).ip = (file f).ip) (i : Nat) :
    opened file' i = opened file i := by
  unfold opened
  refine congrArg Finset.card (Finset.filter_congr fun f _ => ?_)
  rw [(h f).1, (h f).2]

theorem Unseen.opened_eq (h : Unseen k k') (i : Nat) : opened k'.file i = opened k.file i :=
  opened_congr (fun f => ⟨(h.file f).1, (h.file f).2.1⟩) i

/-- A change of the file system that leaves the reference counts alone. -/
theorem Unseen.fs {s : Fs.State} (h : s.refs = k.fs.refs) : Unseen k { k with fs := s } :=
  ⟨h, fun _ => ⟨rfl, rfl, Iff.rfl⟩, fun _ => rfl⟩

theorem Unseen.refl (k : Kernel) : Unseen k k := .fs rfl

/-- The process that performs an operation exists. -/
theorem wp_host {Q : β → Kernel → Prop}
    (h : k.proc p ≠ none → waits p o k = false → wp (exec p o) Q (fun _ => True) k) :
    wp (host p o) Q (fun _ => True) k := by
  refine (wp_bind _ _).2 ((wp_bind _ _).2 ((wp_stopIf _ _).2 ⟨fun _ => trivial, fun hw => ?_⟩))
  have hw : waits p o k = false := by simpa using hw
  refine h (fun hn => ?_) hw
  cases o <;> simp [waits, hn] at hw

/-- A call of one operation. -/
theorem keep_call (h : ∀ ls k t, ls p = l → Tally ls k t →
      k.proc p ≠ none → waits p o k = false → wp (exec p o) (fun b k' => ∃ l',
        Tally (update ls p l') k' (t ++ [(p, ⟨_, o⟩)]) ∧ Q b l') (fun _ => True) k) :
    Keep p (call o) Q l := fun ls k t hl hI => wp_host fun hp hw => h ls k t hl hI hp hw

/-- First one thing, which leaves the process with `l1`, then the rest. -/
theorem keep_then {m : P α} {f : α → P β} (h : Keep p m (fun _ l' => l' = l1) l)
    (hf : ∀ a, Keep p (f a) Q l1) : Keep p (m >>= f) Q l :=
  keeps_seq h fun a _ hl => hl ▸ hf a

/-- The process panics. -/
theorem keep_panic {e : Stop} : Keep p (panic e : P β) Q l :=
  fun _ _ _ _ _ => wp_host fun _ _ => trivial

/-- An operation that changes nothing the tally sees. -/
theorem keep_quiet (h : ∀ k, wp (exec p o) (fun _ k' => Unseen k k') (fun _ => True) k) :
    Keep p (call o) (fun _ l' => l' = l) l := by
  refine keep_call fun ls k t hl hI hp _ => wp_post (h k) fun b k' hq => ⟨l, ?_, rfl⟩
  have hfile : ∀ f, (k.file f).type = .none ∧ 0 < (k.file f).ref →
      (k'.file f).type = .none ∧ 0 < (k'.file f).ref := fun f hf => by
    obtain ⟨h1, -, h3⟩ := hq.file f
    exact ⟨h1.trans hf.1, by omega⟩
  subst hl
  refine hI.change _ (fun i => ?_) (fun q _ => hq.cwd q) (fun hn => hp ?_) (hI.few p)
    (fun c hc => (hq.cwd p).trans (hI.known p c hc)) (fun f hf => ?_) (fun f hf => ?_)
    fun q f hqp hf => ⟨fun hp' => hqp (hI.apart q p f hf hp'), hfile f (hI.fresh q f hf).2⟩
  · rw [hq.refs, hq.opened_eq, hq.cwd]
  · simpa [cwdOf, hn] using (hq.cwd p).symm
  · rw [(hq.file f).1]
    exact hI.closed f ((hq.file f).2.2.1 hf)
  · exact ⟨(hI.fresh p f hf).1, hfile f (hI.fresh p f hf).2⟩

/-- An operation of the file system that leaves the reference counts alone. -/
theorem keep_steady {m : Fs.M β} (ho : exec p o = onFs m) (h : Steady m) :
    Keep p (call o) (fun _ l' => l' = l) l := by
  refine keep_quiet fun k => ?_
  rw [ho, wp_onFs]
  exact wp_mono (h k.fs) (fun _ _ hs => .fs hs) fun _ _ => trivial

/-- A change of the reference counts, and of what the process holds, that agree. -/
theorem Tally.refs_change {ls : ProcSlot → Hold} {t : List (Act Op ProcSlot)} {s : Fs.State} {l' : Hold}
    (h : Tally ls k t) (t' : List (Act Op ProcSlot)) (hp : k.proc p ≠ none)
    (hrefs : ∀ i, s.refs i + (ls p).refs (cwdOf k p) i = k.fs.refs i + l'.refs (cwdOf k p) i)
    (hfew : l'.vars.card ≤ 3) (hknown : ∀ c, l'.dir = .read c → cwdOf k p = some c)
    (hfresh : l'.fresh = (ls p).fresh) : Tally (update ls p l') { k with fs := s } t' := by
  refine h.change _ (fun i => ?_) (fun _ _ => rfl) hp hfew hknown h.closed (fun f hf => ?_)
    fun q f hqp hf => ⟨fun hf' => ?_, (h.fresh q f hf).2⟩
  · have := hrefs i
    show s.refs i + opened k.file i + _ = k.fs.refs i + opened k.file i + l'.refs (cwdOf k p) i
    omega
  · exact h.fresh p f (hfresh ▸ hf)
  · exact hqp (h.apart q p f hf (hfresh ▸ hf'))

/-- An operation that returns one reference more. -/
theorem keep_take {o : Op Nat} {m : Fs.M Nat} (ho : exec p o = onFs m)
    (h : ∀ s, wp m (fun i s' => s'.refs = addRef s.refs i) (fun _ => True) s) (hv : v.card ≤ 2) :
    Keep p (call o) (fun i l' => l' = ⟨i ::ₘ v, d, g⟩) ⟨v, d, g⟩ := by
  refine keep_call fun ls k t hl hI hp _ => ?_
  rw [ho, wp_onFs]
  refine wp_post (h k.fs) fun i s hs => ⟨_, hI.refs_change _ hp (fun j => ?_) ?_ (fun c hc => ?_) ?_, rfl⟩
  · rw [hl, hs, addRef_apply, Hold.refs_cons]
    omega
  · simp only [Multiset.card_cons]
    omega
  · exact hI.known p c (by rw [hl]; exact hc)
  · rw [hl]

/-- `iput` of a reference in a variable. -/
theorem keep_iput : Keep p (call (.iput i)) (fun _ l' => l' = ⟨v, d, g⟩) ⟨i ::ₘ v, d, g⟩ := by
  refine keep_call fun ls k t hl hI hp _ => ?_
  refine wp_onFs.2 (wp_mono (iput_refs i k.fs) (fun _ s hs => ⟨_, hI.refs_change _ hp (fun j => ?_) ?_
    (fun c hc => ?_) ?_, rfl⟩) fun _ _ => trivial)
  · have hpos := hI.refs j
    rw [← Finset.add_sum_erase _ _ (Finset.mem_univ p), hl, Hold.refs_cons] at hpos
    rw [hl, hs, dropRef_apply, Hold.refs_cons]
    omega
  · have := hI.few p
    rw [hl] at this
    simp only [Multiset.card_cons] at this
    show v.card ≤ 3
    omega
  · exact hI.known p c (by rw [hl]; exact hc)
  · rw [hl]

/-- `proc->cwd` is read. -/
theorem keep_cwd : Keep p (call .cwd) (fun c l' => l' = ⟨v, .read c, g⟩) ⟨v, .kept, g⟩ := by
  refine keep_call fun ls k t hl hI hp _ => ⟨_, hI.refs_change (s := k.fs) _ hp (fun j => ?_) ?_
    (fun c hc => ?_) ?_, rfl⟩
  · rw [hl]
    rfl
  · have := hI.few p
    rw [hl] at this
    exact this
  · cases hc
    obtain ⟨x, hx⟩ := Option.ne_none_iff_exists'.1 hp
    simp [cwdOf, hx]
  · rw [hl]

/-- `iput` of the current directory. -/
theorem keep_iputCwd {c : Nat} :
    Keep p (call (.iput c)) (fun _ l' => l' = ⟨v, .given, g⟩) ⟨v, .read c, g⟩ := by
  refine keep_call fun ls k t hl hI hp _ => ?_
  have hc : cwdOf k p = some c := hI.known p c (by rw [hl])
  refine wp_onFs.2 (wp_mono (iput_refs c k.fs) (fun _ s hs => ⟨_, hI.refs_change _ hp (fun j => ?_) ?_
    (fun c hc => (by cases hc)) ?_, rfl⟩) fun _ _ => trivial)
  · have hpos := hI.refs j
    rw [← Finset.add_sum_erase _ _ (Finset.mem_univ p), hl, hc] at hpos
    rw [hl, hs, dropRef_apply, hc]
    by_cases hj : j = c
    · subst hj
      simp [Hold.refs, Dir.counts] at hpos ⊢
      omega
    · simp [Hold.refs, Dir.counts, hj, Ne.symm hj]
  · have := hI.few p
    rw [hl] at this
    exact this
  · rw [hl]

/-- The reference in a variable becomes that of the current directory. -/
theorem keep_setCwd :
    Keep p (call (.setCwd i)) (fun _ l' => l' = ⟨v, .kept, g⟩) ⟨i ::ₘ v, .given, g⟩ := by
  refine keep_call fun ls k t hl hI hp _ => ?_
  obtain ⟨x, hx⟩ := Option.ne_none_iff_exists'.1 hp
  have hne : ∀ q : ProcSlot, q ≠ p → (q : Nat) ≠ p := fun q hq h => hq (Fin.ext h)
  refine ⟨⟨v, .kept, g⟩, hI.change _ (fun j => ?_) (fun q hq => ?_) ?_ ?_
    (fun c hc => (by cases hc)) hI.closed (fun f hf => ?_) fun q f hqp hf => ⟨fun hf' => ?_,
      (hI.fresh q f hf).2⟩, rfl⟩
  · rw [hl, Hold.refs_cons]
    simp [Hold.refs, Dir.counts, cwdOf, hx, eq_comm]
  · simp [cwdOf, hne q hq]
  · simp [hx]
  · have := hI.few p
    rw [hl] at this
    simp only [Multiset.card_cons] at this
    show v.card ≤ 3
    omega
  · exact hI.fresh p f (by rw [hl]; exact hf)
  · exact hqp (hI.apart q p f hf (by rw [hl]; exact hf'))

/-- `filealloc` finds a file, if it does, that nobody is about to open. -/
theorem keep_filealloc : Keep p (call .filealloc)
    (fun r l' => (r = none ∧ l' = ⟨v, d, none⟩) ∨ ∃ f, r = some f ∧ l' = ⟨v, d, some f⟩)
    ⟨v, d, none⟩ := by
  refine keep_call fun ls k t hl hI hp _ => ?_
  have hcard : v.card ≤ 3 := by
    have := hI.few p
    rwa [hl] at this
  have hknown : ∀ c, d = .read c → cwdOf k p = some c := fun c hc => hI.known p c (by rw [hl]; exact hc)
  simp only [exec, filealloc, wp_bind, wp_gets, id]
  cases hf : (List.range NFILE).find? fun f => (k.file f).ref = 0 with
  | none =>
    refine ⟨_, hI.refs_change (s := k.fs) _ hp (fun j => ?_) hcard hknown ?_, .inl ⟨rfl, rfl⟩⟩
    · rw [hl]
    · rw [hl]
  | some f =>
    have hzero : (k.file f).ref = 0 := by
      have := List.find?_some hf
      simpa using this
    have htype := hI.closed f hzero
    have hfile : ∀ a, (update k.file f { k.file f with ref := 1 } a).type = (k.file a).type ∧
        (update k.file f { k.file f with ref := 1 } a).ip = (k.file a).ip := fun a => by
      by_cases ha : a = f
      · subst ha
        simp
      · simp [ha]
    refine ⟨⟨v, d, some f⟩, hI.change _ (fun j => ?_) (fun _ _ => rfl) hp hcard hknown (fun a ha => ?_)
      (fun a ha => ?_) fun q a hqp hq => ⟨fun ha => ?_, ?_⟩, .inr ⟨f, rfl, rfl⟩⟩
    · have hopen : opened (update k.file f { k.file f with ref := 1 }) j = opened k.file j :=
        opened_congr hfile j
      rw [hl, hopen]
      rfl
    · dsimp only at ha ⊢
      rw [(hfile a).1]
      by_cases haf : a = f
      · rw [haf]
        exact htype
      · rw [update_of_ne haf] at ha
        exact hI.closed a ha
    · grind
    · cases ha
      have := (hI.fresh q f hq).2.2
      omega
    · dsimp only
      rw [(hfile a).1]
      have haf : a ≠ f := fun haf => by
        have := (hI.fresh q a hq).2.2
        rw [haf] at this
        omega
      rw [update_of_ne haf]
      exact (hI.fresh q a hq).2

/-- A file of no type counts once it has one. -/
theorem opened_update (hf : f < NFILE) (htype : (k.file f).type = .none) (x : File) (i : Nat) :
    opened (update k.file f x) i =
      opened k.file i + if x.type = .inode ∧ x.ip = i then 1 else 0 := by
  unfold opened
  rw [Finset.card_filter, Finset.card_filter,
    ← Finset.add_sum_erase _ _ (Finset.mem_range.2 hf),
    ← Finset.add_sum_erase _ (fun f => if (k.file f).type = .inode ∧ (k.file f).ip = i then 1 else 0)
      (Finset.mem_range.2 hf), htype, update_self]
  have hrest : ∑ a ∈ (Finset.range NFILE).erase f,
        (if (update k.file f x a).type = .inode ∧ (update k.file f x a).ip = i
          then 1 else 0) =
      ∑ a ∈ (Finset.range NFILE).erase f,
        if (k.file a).type = .inode ∧ (k.file a).ip = i then 1 else 0 := by
    refine Finset.sum_congr rfl fun a ha => ?_
    rw [update_of_ne (Finset.ne_of_mem_erase ha)]
  rw [hrest]
  simp
  omega

/-- The file that the process is about to open changes. -/
theorem Tally.file_change {ls : ProcSlot → Hold} {t : List (Act Op ProcSlot)} {x : File} {l' : Hold}
    (h : Tally ls k t) (t' : List (Act Op ProcSlot)) (hp : k.proc p ≠ none)
    (hf : (ls p).fresh = some f) (hx : x.ref = 0 → x.type = .none)
    (hrefs : ∀ i, (ls p).refs (cwdOf k p) i =
      (if x.type = .inode ∧ x.ip = i then 1 else 0) + l'.refs (cwdOf k p) i)
    (hfew : l'.vars.card ≤ 3) (hknown : ∀ c, l'.dir = .read c → cwdOf k p = some c)
    (hfresh : l'.fresh = none) :
    Tally (update ls p l') { k with file := update k.file f x } t' := by
  obtain ⟨hlt, htype, -⟩ := h.fresh p f hf
  refine h.change _ (fun i => ?_) (fun _ _ => rfl) hp hfew hknown (fun a ha => ?_) (fun a ha => ?_)
    fun q a hqp hq => ⟨fun ha => ?_, ?_⟩
  · have := hrefs i
    rw [opened_update hlt htype]
    show k.fs.refs i + opened k.file i + _ = k.fs.refs i + _ + l'.refs (cwdOf k p) i
    omega
  · dsimp only at ha ⊢
    by_cases haf : a = f
    · rw [haf, update_self] at ha ⊢
      exact hx ha
    · rw [update_of_ne haf] at ha ⊢
      exact h.closed a ha
  · rw [hfresh] at ha
    cases ha
  · rw [hfresh] at ha
    cases ha
  · have haf : a ≠ f := fun haf => hqp (h.apart q p f (haf ▸ hq) hf)
    dsimp only
    rw [update_of_ne haf]
    exact (h.fresh q a hq).2

/-- `fileclose` of a file that has not been opened: there is nothing more to close. -/
theorem keep_filedrop : Keep p (call (.filedrop f))
    (fun r l' => l' = ⟨v, d, none⟩ ∧ ∀ x, r = some x → x.type = .none) ⟨v, d, some f⟩ := by
  refine keep_call fun ls k t hl hI hp _ => ?_
  have hf : (ls p).fresh = some f := by rw [hl]
  obtain ⟨-, htype, -⟩ := hI.fresh p f hf
  have hcard : v.card ≤ 3 := by
    have := hI.few p
    rwa [hl] at this
  have hknown : ∀ c, d = .read c → cwdOf k p = some c := fun c hc => hI.known p c (by rw [hl]; exact hc)
  simp only [exec, filedrop, wp_bind, wp_gets, id, wp_stopIf]
  refine ⟨fun _ => trivial, fun hpos => wp_ite (fun hmore => ?_) fun _ => ?_⟩
  · refine ⟨_, hI.file_change _ hp hf (fun h0 => ?_) (fun i => ?_) hcard hknown rfl, rfl, fun x hx => ?_⟩
    · exact absurd h0 (by dsimp only; omega)
    · rw [hl]
      simp [Hold.refs, htype]
    · cases hx
  · refine ⟨_, hI.file_change _ hp hf (fun _ => rfl) (fun i => ?_) hcard hknown rfl, rfl, fun x hx => ?_⟩
    · rw [hl]
      simp [Hold.refs]
    · cases hx
      exact htype

/-- The reference in a variable becomes that of the open file. -/
theorem keep_setFile {readable writable : Bool} :
    Keep p (call (.setFile f readable writable i)) (fun _ l' => l' = ⟨v, d, none⟩)
      ⟨i ::ₘ v, d, some f⟩ := by
  refine keep_call fun ls k t hl hI hp _ => ?_
  have hf : (ls p).fresh = some f := by rw [hl]
  obtain ⟨-, -, hpos⟩ := hI.fresh p f hf
  refine ⟨_, hI.file_change _ hp hf (fun h0 => ?_) (fun j => ?_) ?_ (fun c hc => ?_) rfl, rfl⟩
  · dsimp only at h0
    omega
  · have hsame : (⟨v, d, some f⟩ : Hold).refs (cwdOf k p) j = (⟨v, d, none⟩ : Hold).refs (cwdOf k p) j :=
      rfl
    rw [hl, Hold.refs_cons, hsame]
    simp only [true_and, eq_comm]
    omega
  · have := hI.few p
    rw [hl] at this
    simp only [Multiset.card_cons] at this
    show v.card ≤ 3
    omega
  · exact hI.known p c (by rw [hl]; exact hc)

/-- The reference in a variable becomes that of the child's current directory. -/
theorem keep_newProc {child : ProcSlot} {ofile : Nat → Option Nat} :
    Keep p (call (.newProc child i ofile)) (fun _ l' => l' = ⟨v, d, g⟩) ⟨i ::ₘ v, d, g⟩ := by
  refine keep_call fun ls k t hl hI hp hw => ?_
  have hchild : k.proc child = none := by
    simp only [waits, Bool.or_eq_false_iff] at hw
    simpa using hw.2
  have hval : ∀ q : ProcSlot, q ≠ child → (q : Nat) ≠ child := fun q hq h => hq (Fin.ext h)
  have hrest : ls child = .rest := hI.absent child hchild
  -- the child is made first, and then the parent gives up its reference
  set k' : Kernel := { k with proc := update k.proc child (some { cwd := i, ofile }) } with hk'
  have hcwd : ∀ q, q ≠ child → cwdOf k' q = cwdOf k q := fun q hq => by
    simp [cwdOf, hk', hval q hq]
  have hcwd' : cwdOf k' child = some i := by simp [cwdOf, hk']
  have hnew : ∀ j, (∑ q, (ls q).refs (cwdOf k' q) j) = (∑ q, (ls q).refs (cwdOf k q) j) +
      if j = i then 1 else 0 := fun j => by
    have hsame : update ls child .rest = ls := by
      rw [← hrest]
      exact update_eq_self _ _
    have h := sum_refs_update ls .rest j hcwd
    rw [hsame, hrest, hcwd', cwdOf, hchild] at h
    have hnone : Hold.rest.refs (Option.map Proc.cwd none) j = 0 := by simp [Hold.refs, Hold.rest]
    have hsome : Hold.rest.refs (some i) j = if j = i then 1 else 0 := by
      simp [Hold.refs, Hold.rest, Dir.counts, eq_comm]
    rw [hnone, hsome, Nat.add_zero] at h
    exact h
  have hlen := hI.few p
  rw [hl, Multiset.card_cons] at hlen
  have hother : ∀ q, q ≠ p → update ls p (⟨v, d, g⟩ : Hold) q = ls q := fun q hq =>
    update_of_ne hq _ _
  have hfresh : ∀ q, (update ls p (⟨v, d, g⟩ : Hold) q).fresh = (ls q).fresh := fun q => by
    by_cases hq : q = p
    · rw [hq, update_self, hl]
    · rw [hother q hq]
  refine ⟨⟨v, d, g⟩, ⟨fun j => ?_, fun q => ?_, fun q c hq => ?_, fun q hq => ?_, hI.closed,
    fun q f hq => hI.fresh q f (hfresh q ▸ hq),
    fun q r f hq hr => hI.apart q r f (hfresh q ▸ hq) (hfresh r ▸ hr)⟩, rfl⟩
  · have h1 := sum_refs_update ls ⟨v, d, g⟩ j (fun (q : ProcSlot) (_ : q ≠ p) => Eq.refl (cwdOf k' q))
    have h2 := hI.refs j
    rw [hnew j, hl, Hold.refs_cons] at h1
    show k.fs.refs j = opened k.file j + ∑ q, (update ls p ⟨v, d, g⟩ q).refs (cwdOf k' q) j
    omega
  · by_cases hq : q = p
    · rw [hq, update_self]
      show v.card ≤ 3
      omega
    · rw [hother q hq]
      exact hI.few q
  · have hq' : (ls q).dir = .read c := by
      by_cases hqp : q = p
      · grind
      · rwa [hother q hqp] at hq
    have hqc : q ≠ child := fun h => by
      rw [h, hrest] at hq'
      cases hq'
    rw [hcwd q hqc]
    exact hI.known q c hq'
  · have hqc : q ≠ child := fun h => by simp [h] at hq
    have hq' : k.proc q = none := by simpa [hk', hval q hqc] using hq
    rw [hother q fun h => hp (h ▸ hq')]
    exact hI.absent q hq'

end

/-! ## Calls -/

section
variable {p : ProcSlot} {v : Multiset Nat} {d : Dir} {g : Option Nat} {l : Hold}

theorem keep_iget (inum : Nat) (hv : v.card ≤ 2) :
    Keep p (call (.iget inum)) (fun i l' => l' = ⟨i ::ₘ v, d, g⟩) ⟨v, d, g⟩ :=
  keep_take rfl (fun s => iget_refs inum s (.inr trivial)) hv

theorem keep_idup (i : Nat) (hv : v.card ≤ 2) :
    Keep p (call (.idup i)) (fun j l' => l' = ⟨j ::ₘ v, d, g⟩) ⟨v, d, g⟩ :=
  keep_take rfl (fun s => wp_post (idup_refs i s _) fun _ _ h => h.1 ▸ h.2) hv

theorem keep_ialloc (type : Int16) (hv : v.card ≤ 2) :
    Keep p (call (.ialloc type)) (fun i l' => l' = ⟨i ::ₘ v, d, g⟩) ⟨v, d, g⟩ :=
  keep_take rfl (fun s => ialloc_refs type s (.inr trivial) fun _ _ => trivial) hv

theorem keep_ilock (i : Nat) : Keep p (call (.ilock i)) (fun _ l' => l' = l) l :=
  keep_steady rfl (steady_ilock i)

theorem keep_iunlock (i : Nat) : Keep p (call (.iunlock i)) (fun _ l' => l' = l) l :=
  keep_steady rfl (steady_iunlock i)

theorem keep_readi (i : Nat) (off n : UInt32) : Keep p (call (.readi i off n)) (fun _ l' => l' = l) l :=
  keep_steady rfl (steady.readi i off n)

theorem keep_writei (i : Nat) (src : Bytes) (off n : UInt32) :
    Keep p (call (.writei i src off n)) (fun _ l' => l' = l) l :=
  keep_steady rfl (steady.writei i src off n)

theorem keep_iupdate (i : Nat) (f : Links → Links) :
    Keep p (call (.iupdate i f)) (fun _ l' => l' = l) l :=
  keep_steady rfl (.bind (steady_setInode fun _ => rfl) fun _ => steady.iupdate i)

theorem keep_begin_trans : Keep p (call .begin_trans) (fun _ l' => l' = l) l :=
  keep_steady rfl steady.begin_trans

theorem keep_commit_trans : Keep p (call .commit_trans) (fun _ l' => l' = l) l :=
  keep_steady rfl steady.commit_trans

theorem keep_inode (i : Nat) : Keep p (call (.inode i)) (fun _ l' => l' = l) l :=
  keep_quiet fun k => Unseen.refl k

theorem keep_ofile (fd : Nat) : Keep p (call (.ofile fd)) (fun _ l' => l' = l) l :=
  keep_quiet fun k => Unseen.refl k

theorem keep_setOfile (fd : Nat) (f : Option Nat) :
    Keep p (call (.setOfile fd f)) (fun _ l' => l' = l) l := by
  refine keep_quiet fun k => ⟨rfl, fun _ => ⟨rfl, rfl, Iff.rfl⟩, fun q => ?_⟩
  by_cases hq : (q : Nat) = p
  · cases hp : k.proc p <;> simp [cwdOf, hq, hp]
  · simp [cwdOf, hq]

theorem keep_filedup (f : Nat) : Keep p (call (.filedup f)) (fun _ l' => l' = l) l := by
  refine keep_quiet fun k => (wp_bind _ _).2 ((wp_bind _ _).2 ((wp_stopIf _ _).2
    ⟨fun _ => trivial, fun h => ⟨rfl, fun a => ?_, fun _ => rfl⟩⟩))
  by_cases ha : a = f
  · subst ha
    simp at h ⊢
    omega
  · simp [ha]

/-- `iunlockput` of a reference in a variable. -/
theorem keep_iunlockput (i : Nat) :
    Keep p (iunlockput i) (fun _ l' => l' = ⟨v, d, g⟩) ⟨i ::ₘ v, d, g⟩ :=
  keep_then (keep_iunlock i) fun _ => keep_iput

theorem keep_readDirent (dp off : Nat) (e : Stop) :
    Keep p (readDirent dp off e) (fun _ l' => l' = l) l := by
  refine keep_then (keep_readi _ _ _) fun r => ?_
  cases r with
  | none => exact keep_panic
  | some r =>
    dsimp only
    split
    · exact keeps_pure rfl
    · exact keep_panic

/-- What a lookup leaves a process with: one more reference if it finds the name. -/
def Gets {α : Type} (ref : α → Nat) (v : Multiset Nat) (d : Dir) (g : Option Nat) (r : Option α)
    (l : Hold) : Prop :=
  (r = none ∧ l = ⟨v, d, g⟩) ∨ ∃ a, r = some a ∧ l = ⟨ref a ::ₘ v, d, g⟩

theorem keep_dirlookup (dp : Nat) (name : Name) (hv : v.card ≤ 2) :
    Keep p (dirlookup dp name) (Gets Prod.fst v d g) ⟨v, d, g⟩ := by
  refine keep_then (keep_inode dp) fun ip => ?_
  split
  · exact keep_panic
  generalize direntCount ip.d.size = count
  generalize 0 = off
  induction count generalizing off with
  | zero => exact keeps_pure (.inl ⟨rfl, rfl⟩)
  | succ count ih =>
    refine keep_then (keep_readDirent _ _ _) fun de => ?_
    split
    · exact keeps_seq (keep_iget _ hv) fun i _ hl => keeps_pure (.inr ⟨(i, off), rfl, hl⟩)
    · exact ih _

theorem keep_dirlink (dp : Nat) (name : Name) (inum : Nat) (hv : v.card ≤ 2) :
    Keep p (dirlink dp name inum) (fun _ l' => l' = ⟨v, d, g⟩) ⟨v, d, g⟩ := by
  refine keeps_seq (keep_dirlookup dp name hv) ?_
  rintro _ _ (⟨rfl, rfl⟩ | ⟨⟨i, off⟩, rfl, rfl⟩)
  · refine keep_then (keep_inode dp) fun ip => ?_
    have hloop : Keep p (dirlinkFrom dp (direntCount ip.d.size) 0)
        (fun _ l' => l' = ⟨v, d, g⟩) ⟨v, d, g⟩ := by
      generalize direntCount ip.d.size = count
      generalize 0 = off
      induction count generalizing off with
      | zero => exact keeps_pure rfl
      | succ count ih =>
        refine keep_then (keep_readDirent _ _ _) fun de => ?_
        split
        · exact keeps_pure rfl
        · exact ih _
    refine keep_then hloop fun off => keep_then (keep_writei _ _ _ _) fun r => ?_
    split
    · exact keep_panic
    · exact keeps_pure rfl
  · exact keep_then keep_iput fun _ => keeps_pure rfl

/-- The walk hands the reference of each directory over for that of the next. -/
theorem keep_namexFrom (parent : Bool) (names : List Name) (i : Nat) (hv : v.card ≤ 1) :
    Keep p (namexFrom parent names i) (Gets id v d g) ⟨i ::ₘ v, d, g⟩ := by
  induction names generalizing i with
  | nil =>
    unfold namexFrom
    split
    · exact keep_then keep_iput fun _ => keeps_pure (.inl ⟨rfl, rfl⟩)
    · exact keeps_pure (.inr ⟨i, rfl, rfl⟩)
  | cons name names ih =>
    refine keep_then (keep_ilock i) fun _ => keep_then (keep_inode i) fun x => ?_
    split
    · exact keep_then (keep_iunlockput i) fun _ => keeps_pure (.inl ⟨rfl, rfl⟩)
    split
    · exact keep_then (keep_iunlock i) fun _ => keeps_pure (.inr ⟨i, rfl, rfl⟩)
    refine keeps_seq (keep_dirlookup i name (by rw [Multiset.card_cons]; omega)) ?_
    rintro _ _ (⟨rfl, rfl⟩ | ⟨⟨next, off⟩, rfl, rfl⟩)
    · exact keep_then (keep_iunlockput i) fun _ => keeps_pure (.inl ⟨rfl, rfl⟩)
    · rw [Multiset.cons_swap]
      exact keep_then (keep_iunlockput i) fun _ => ih next

theorem keep_namex (path : Path) (parent : Bool) (hv : v.card ≤ 1) :
    Keep p (namex path parent) (Gets id v d g) ⟨v, d, g⟩ := by
  unfold namex
  split
  · exact keeps_seq (keep_iget _ (by omega)) fun i _ hl => hl ▸ keep_namexFrom parent _ i hv
  · refine keep_then (keep_quiet fun k => Unseen.refl k) fun cwd => ?_
    exact keeps_seq (keep_idup _ (by omega)) fun i _ hl => hl ▸ keep_namexFrom parent _ i hv

theorem keep_nameiparent (path : Path) (hv : v.card ≤ 1) :
    Keep p (nameiparent path) (Gets Prod.fst v d g) ⟨v, d, g⟩ := by
  refine keeps_seq (keep_namex path true hv) ?_
  rintro _ _ (⟨rfl, rfl⟩ | ⟨dp, rfl, rfl⟩)
  · exact keeps_pure (.inl ⟨rfl, rfl⟩)
  · exact keeps_pure (.inr ⟨(dp, _), rfl, rfl⟩)

/-- The entries of a new directory leave no references behind. -/
theorem keep_createDots (type : Int16) (dp ip inum : Nat) (hv : v.card ≤ 2) :
    Keep p (createDots type dp ip inum) (fun _ l' => l' = ⟨v, d, g⟩) ⟨v, d, g⟩ := by
  unfold createDots
  split
  · refine keep_then (keep_iupdate _ _) fun _ => keep_then (keep_inode _) fun x =>
      keep_then (keep_dirlink _ _ _ hv) fun r => ?_
    split
    · refine keep_then (keep_dirlink _ _ _ hv) fun r => ?_
      split
      · exact keeps_pure rfl
      · exact keep_panic
    · exact keep_panic
  · exact keeps_pure rfl

/-- A new inode: its reference takes the place of that of the directory. -/
theorem keep_createNew (dp : Nat) (name : Name) (type major minor : Int16) (hv : v.card ≤ 0) :
    Keep p (createNew dp name type major minor) (fun i l' => l' = ⟨i ::ₘ v, d, g⟩) ⟨dp ::ₘ v, d, g⟩ := by
  have hcard : ∀ a b : Nat, (a ::ₘ b ::ₘ v).card ≤ 2 := fun a b => by
    simp only [Multiset.card_cons]
    omega
  refine keeps_seq (keep_ialloc type (by simp only [Multiset.card_cons]; omega)) ?_
  rintro i _ rfl
  refine keep_then (keep_ilock i) fun _ => keep_then (keep_iupdate _ _) fun _ =>
    keep_then (keep_inode i) fun x => keep_then (keep_createDots _ _ _ _ (hcard i dp)) fun _ =>
    keep_then (keep_dirlink _ _ _ (hcard i dp)) fun r => ?_
  split
  · rw [Multiset.cons_swap]
    exact keep_then (keep_iunlockput dp) fun _ => keeps_pure rfl
  · exact keep_panic

theorem keep_create (path : Path) (type major minor : Int16) (hv : v.card ≤ 0) :
    Keep p (create path type major minor) (Gets id v d g) ⟨v, d, g⟩ := by
  refine keeps_seq (keep_nameiparent path (by omega)) ?_
  rintro _ _ (⟨rfl, rfl⟩ | ⟨⟨dp, name⟩, rfl, rfl⟩)
  · exact keeps_pure (.inl ⟨rfl, rfl⟩)
  refine keep_then (keep_ilock dp) fun _ => keeps_seq (keep_dirlookup dp name ?_) ?_
  · simp only [Multiset.card_cons]
    omega
  rintro _ _ (⟨rfl, rfl⟩ | ⟨⟨i, off⟩, rfl, rfl⟩)
  · exact keeps_seq (keep_createNew dp name type major minor hv) fun i _ hl =>
      keeps_pure (.inr ⟨i, rfl, hl⟩)
  · rw [Multiset.cons_swap]
    refine keep_then (keep_iunlockput dp) fun _ => keep_then (keep_ilock i) fun _ =>
      keep_then (keep_inode i) fun x => ?_
    split
    · exact keeps_pure (.inr ⟨i, rfl, rfl⟩)
    · exact keep_then (keep_iunlockput i) fun _ => keeps_pure (.inl ⟨rfl, rfl⟩)

theorem keep_fdalloc (f : Nat) : Keep p (fdalloc f) (fun _ l' => l' = l) l := by
  unfold fdalloc
  generalize List.range NOFILE = fds
  induction fds with
  | nil => exact keeps_pure rfl
  | cons fd fds ih =>
    refine keep_then (keep_ofile fd) fun r => ?_
    cases r with
    | none => exact keep_then (keep_setOfile _ _) fun _ => keeps_pure rfl
    | some _ => exact ih

/-- The file that was to be opened is closed again. -/
theorem keep_fileclose (f : Nat) :
    Keep p (fileclose f) (fun _ l' => l' = ⟨v, d, none⟩) ⟨v, d, some f⟩ := by
  refine keeps_seq keep_filedrop ?_
  rintro r _ ⟨rfl, hr⟩
  cases r with
  | none => exact keeps_pure rfl
  | some x =>
    have hx := hr x rfl
    dsimp only
    rw [if_neg (by rw [hx]; decide), if_neg (by rw [hx]; decide)]
    exact keeps_pure rfl

/-- Whatever becomes of the file, the reference does not stay in the variable. -/
theorem keep_openInode (i : Nat) (omode : UInt32) :
    Keep p (openInode i omode) (fun _ l' => l' = ⟨v, d, none⟩) ⟨i ::ₘ v, d, none⟩ := by
  refine keeps_seq keep_filealloc ?_
  rintro _ _ (⟨rfl, rfl⟩ | ⟨f, rfl, rfl⟩)
  · exact keep_then (keep_iunlockput i) fun _ => keeps_pure rfl
  · refine keep_then (keep_fdalloc f) fun r => ?_
    cases r with
    | none =>
      exact keep_then (keep_fileclose f) fun _ => keep_then (keep_iunlockput i) fun _ => keeps_pure rfl
    | some fd => exact keep_then (keep_iunlock i) fun _ => keep_then keep_setFile fun _ => keeps_pure rfl

theorem keep_open (path : Path) (omode : UInt32) :
    Keep p (sys_open path omode) (fun _ l' => l' = .rest) .rest := by
  unfold sys_open
  split
  · refine keep_then keep_begin_trans fun _ => keeps_seq (keep_create path _ _ _ (Nat.le_refl 0)) ?_
    rintro _ _ (⟨rfl, rfl⟩ | ⟨i, rfl, rfl⟩)
    · exact keep_then keep_commit_trans fun _ => keeps_pure rfl
    · exact keep_then keep_commit_trans fun _ => keep_openInode i omode
  · refine keeps_seq (keep_namex path false (Nat.zero_le 1)) ?_
    rintro _ _ (⟨rfl, rfl⟩ | ⟨i, rfl, rfl⟩)
    · exact keeps_pure rfl
    · refine keep_then (keep_ilock i) fun _ => keep_then (keep_inode i) fun x => ?_
      split
      · exact keep_then (keep_iunlockput i) fun _ => keeps_pure rfl
      · exact keep_openInode i omode

theorem keep_chdir (path : Path) : Keep p (sys_chdir path) (fun _ l' => l' = .rest) .rest := by
  refine keeps_seq (keep_namex path false (Nat.zero_le 1)) ?_
  rintro _ _ (⟨rfl, rfl⟩ | ⟨i, rfl, rfl⟩)
  · exact keeps_pure rfl
  refine keep_then (keep_ilock i) fun _ => keep_then (keep_inode i) fun x => ?_
  split
  · exact keep_then (keep_iunlockput i) fun _ => keeps_pure rfl
  refine keep_then (keep_iunlock i) fun _ => keeps_seq keep_cwd ?_
  rintro c _ rfl
  exact keep_then keep_iputCwd fun _ => keep_then keep_setCwd fun _ => keeps_pure rfl

theorem keep_dupFiles (fds : List Nat) : Keep p (dupFiles fds) (fun _ l' => l' = l) l := by
  induction fds with
  | nil => exact keeps_pure rfl
  | cons fd fds ih =>
    refine keep_then (keep_ofile fd) fun r => ?_
    cases r with
    | none => exact ih
    | some f => exact keep_then (keep_filedup f) fun _ => ih

theorem keep_copyFiles (fds : List Nat) : Keep p (copyFiles fds) (fun _ l' => l' = l) l := by
  induction fds with
  | nil => exact keeps_pure rfl
  | cons fd fds ih => exact keep_then (keep_ofile fd) fun _ => keep_then ih fun _ => keeps_pure rfl

theorem keep_fork (child : ProcSlot) : Keep p (fork child) (fun _ l' => l' = .rest) .rest := by
  refine keep_then (keep_dupFiles _) fun _ => keep_then (keep_copyFiles _) fun ofile =>
    keep_then (keep_quiet fun k => Unseen.refl k) fun cwd =>
    keeps_seq (keep_idup cwd (Nat.zero_le 2)) ?_
  rintro i _ rfl
  exact keep_newProc

/-- **Every call gives back the references it does not leave in a file or a directory.** -/
theorem keep_code (c : Call) : Keep p c.code (fun _ l' => l' = .rest) .rest := by
  cases c with
  | «open» path omode => exact keep_then (keep_open path omode) fun _ => keeps_pure rfl
  | chdir path => exact keep_then (keep_chdir path) fun _ => keeps_pure rfl
  | fork child => exact keep_fork child

end

/-! ## Room in the cache -/

/-- The cache entries that open files and current directories refer to. -/
def entries (k : Kernel) : Finset Nat :=
  (Finset.range NINODE).filter fun i => opened k.file i ≠ 0 ∨ dirs k i ≠ 0

/-- The process is in no call. -/
def idle : P Unit → Bool
  | .ret _ => true
  | .op _ _ => false

/-- The processes inside a call. -/
def inside (s : State Op Kernel Unit ProcSlot) : Finset ProcSlot := Finset.univ.filter fun p => !idle (s.prog p)

section
variable {k : Kernel} {s : State Op Kernel Unit ProcSlot}

/-- An entry with references is one of a file, of a directory or of a variable of a call. -/
theorem Tally.holder {ls : ProcSlot → Hold} {t : List (Act Op ProcSlot)} {i : Nat} (h : Tally ls k t)
    (hi : k.fs.refs i ≠ 0) : opened k.file i ≠ 0 ∨ dirs k i ≠ 0 ∨ ∃ p, i ∈ (ls p).vars := by
  by_contra hno
  simp only [not_or, not_exists, not_not] at hno
  obtain ⟨hfile, hdir, hvar⟩ := hno
  refine hi ?_
  rw [h.refs i, hfile, Nat.zero_add]
  refine Finset.sum_eq_zero fun p _ => ?_
  have hp : cwdOf k p ≠ some i := fun hp => by
    rw [dirs, Finset.card_eq_zero] at hdir
    have hmem : p ∈ Finset.univ.filter fun p : ProcSlot => cwdOf k p = some i :=
      Finset.mem_filter.2 ⟨Finset.mem_univ p, hp⟩
    rw [hdir] at hmem
    exact absurd hmem (Finset.notMem_empty p)
  simp [Hold.refs, hp, hvar p]

/-- A process between calls holds no reference in a variable. -/
theorem rest_of_idle {ls : ProcSlot → Hold} {E : Stop → Prop} {p : ProcSlot}
    (h : Keeps host Tally E p (s.prog p) (fun _ l => l = .rest) (ls p)) (hp : p ∉ inside s) :
    ls p = .rest := by
  cases hm : s.prog p with
  | ret a => exact (hm ▸ h :)
  | op o m => simp [inside, hm, idle] at hp

/-- **The counts are exact in every interleaving.** An open file, and the current directory of a
process between calls, always counts: its entry is not taken for another inode. A process inside a
call adds at most three; when there is none, nothing else counts. -/
theorem refs_interleaved (hk : Counted k) (hs : (calls k).Reach s) : (∀ i, opened s.shared.file i +
        (Finset.univ.filter fun p => p ∉ inside s ∧ cwdOf s.shared p = some i).card ≤
          s.shared.fs.refs i ∧
      s.shared.fs.refs i ≤ opened s.shared.file i + dirs s.shared i + 3 * (inside s).card) ∧
    (inside s = ∅ → Counted s.shared) := by
  obtain ⟨ls, hI, hkeep⟩ := serve_keeps hk.tally (fun p c => keep_code (p := p) c) hs
  have hidle : ∀ p i, p ∉ inside s → (ls p).refs (cwdOf s.shared p) i =
      if cwdOf s.shared p = some i then 1 else 0 := fun p i hp => by
    simp [rest_of_idle (hkeep p) hp, Hold.refs, Hold.rest, Dir.counts]
  refine ⟨fun i => ?_, fun he => ⟨fun i => ?_, hI.closed⟩⟩ <;>
    rw [hI.refs i, dirs, Finset.card_filter]
  · rw [Finset.card_filter]
    refine ⟨Nat.add_le_add_left (Finset.sum_le_sum fun p _ => ?_) _, ?_⟩
    · split
      · next hp => rw [hidle p i hp.1, if_pos hp.2]
      · exact Nat.zero_le _
    · have hp : ∀ p, (ls p).refs (cwdOf s.shared p) i ≤
          (if cwdOf s.shared p = some i then 1 else 0) + if p ∈ inside s then 3 else 0 := fun p => by
        by_cases hin : p ∈ inside s
        · have := (Multiset.count_le_card i _).trans (hI.few p)
          grind [Hold.refs]
        · simp [hidle p i hin]
      have := Finset.sum_le_sum fun p (_ : p ∈ Finset.univ) => hp p
      simp only [Finset.sum_add_distrib, Finset.sum_ite_mem, Finset.univ_inter, Finset.sum_const,
        Nat.nsmul_eq_mul] at this
      omega
  · exact congrArg _ (Finset.sum_congr rfl fun p _ => hidle p i (by simp [he]))

/-- A cache without a free entry is taken up by files, directories and calls under way. -/
theorem full_le (hk : Counted k) (hs : (calls k).Reach s) (hfull : ∀ i < NINODE, s.shared.fs.refs i ≠ 0) :
    NINODE ≤ (entries s.shared).card + 3 * (inside s).card := by
  obtain ⟨ls, hI, hkeep⟩ := serve_keeps hk.tally (fun p c => keep_code (p := p) c) hs
  have hsub : Finset.range NINODE ⊆
      entries s.shared ∪ (inside s).biUnion fun p => (ls p).vars.toFinset := by
    intro i hi
    have hlt := Finset.mem_range.1 hi
    have hdone : ∀ p, i ∈ (ls p).vars → p ∈ inside s := fun p hp => by
      by_contra hout
      rw [rest_of_idle (hkeep p) hout] at hp
      exact absurd hp (Multiset.notMem_zero i)
    rcases hI.holder (hfull i hlt) with h | h | ⟨p, hp⟩
    · exact Finset.mem_union_left _ (Finset.mem_filter.2 ⟨hi, .inl h⟩)
    · exact Finset.mem_union_left _ (Finset.mem_filter.2 ⟨hi, .inr h⟩)
    · grind
  calc NINODE = (Finset.range NINODE).card := (Finset.card_range _).symm
    _ ≤ (entries s.shared).card + ((inside s).biUnion fun p => (ls p).vars.toFinset).card :=
      (Finset.card_le_card hsub).trans (Finset.card_union_le _ _)
    _ ≤ (entries s.shared).card + (inside s).card * 3 := by
      refine Nat.add_le_add_left (Finset.card_biUnion_le_card_mul _ _ 3 fun p _ => ?_) _
      exact (Multiset.toFinset_card_le _).trans (hI.few p)
    _ = (entries s.shared).card + 3 * (inside s).card := by rw [Nat.mul_comm]

/-- **While files and directories leave room in the cache, `iget` finds an entry**, also the one
that `ialloc` calls: in every state that `open`, `chdir` and `fork` calls lead to, from any state in
which the counts are right. -/
theorem iget_room (hk : Counted k) (hs : (calls k).Reach s)
    (hroom : (entries s.shared).card + 3 * (inside s).card < NINODE) (inum : Nat) (type : Int16) :
    (∃ i fs, iget inum s.shared.fs = .ok (i, fs)) ∧ ialloc type s.shared.fs ≠ .error .igetNoInodes := by
  have hfree : ∃ i < NINODE, s.shared.fs.refs i = 0 := by
    by_contra hno
    simp only [not_exists, not_and] at hno
    have := full_le hk hs hno
    omega
  constructor
  · obtain ⟨i, fs, hok, -⟩ := wp_total (iget_refs (E := fun _ => False) inum s.shared.fs (.inl hfree))
    exact ⟨i, fs, hok⟩
  · intro he
    exact wp_error (ialloc_refs (E := (· ≠ .igetNoInodes)) type s.shared.fs (.inl hfree)
      fun _ h => h) he rfl

end

/-! ## Four processes fill the cache -/

/-- A disk with fifty-one empty files: inode 1 is the root directory, in the blocks 30 and 31, and the
name of inode `j` is one byte, `60 + j`. -/
def crowdDisk (b : Nat) : Block := fun p =>
  if b < 30 then
    if 8 * (b - 2) + p / 64 = 1 then
      if p % 64 = 0 ∨ p % 64 = 6 then 1
      else if p % 64 = 8 then 80
      else if p % 64 = 9 then 3
      else if p % 64 = 12 then 30
      else if p % 64 = 16 then 31
      else 0
    else if p % 64 = 0 then 2
    else if p % 64 = 6 then 1
    else 0
  else if b = 30 ∧ p < 32 then
    if p = 0 ∨ p = 16 then 1
    else if p = 2 ∨ p = 18 ∨ p = 19 then 46
    else 0
  else if p % 16 = 0 then UInt8.ofNat (32 * (b - 30) + p / 16)
  else if p % 16 = 2 then UInt8.ofNat (60 + (32 * (b - 30) + p / 16))
  else 0

/-- One process, in the root directory and without open files. -/
def crowdStart : Kernel where
  fs :=
   {disk := crowdDisk
    log := { start := 40, size := 10, busy := false, lh := [] }
    inode := fun i =>
      { inum := 1, ref := if i = 0 then 1 else 0, busy := false, valid := false, d := Dinode.zero }
    devsw := fun _ => { read := none, write := none } }
  file _ :=
    { type := .none, ref := 0, readable := false, writable := false, pipe := 0, ip := 0, off := 0 }
  proc p := if p = 0 then some { cwd := 0, ofile := fun _ => none } else none
  killed _ := false
  pipe _ := { data := fun _ => 0, nread := 0, nwrite := 0, readopen := false, writeopen := false }
  pages := []

theorem crowdStart_counted : Counted crowdStart := by
  refine ⟨fun i => ?_, fun _ _ => rfl⟩
  have hfile : opened crowdStart.file i = 0 := by simp [opened, crowdStart]
  have hcwd : ∀ p, cwdOf crowdStart p = some i ↔ p = 0 ∧ i = 0 := fun p => by
    by_cases hp : p = 0
    · simp [cwdOf, crowdStart, eq_comm]
    · have hp' : (p : Nat) ≠ 0 := fun h => hp (Fin.ext h)
      simp [cwdOf, crowdStart, hp, hp']
  simp only [hfile, dirs, hcwd]
  by_cases hi : i = 0
  · subst hi
    simp [State.refs, crowdStart, Finset.filter_eq']
  · simp [State.refs, crowdStart, hi]

/-- Calls made one after the other, each by its process. -/
def perform (s : State Op Kernel Unit ProcSlot) : List (ProcSlot × Call) → State Op Kernel Unit ProcSlot
  | [] => s
  | (p, c) :: l => perform (goOn host p 100 ((begin Call.code s p c).getD s)) l

theorem reach_perform {k : Kernel} {s : State Op Kernel Unit ProcSlot} (l : List (ProcSlot × Call))
    (h : (calls k).Reach s) : (calls k).Reach (perform s l) := by
  induction l generalizing s with
  | nil => exact h
  | cons pc l ih =>
    refine ih (reach_goOn ?_ pc.1 100)
    cases hb : begin Call.code s pc.1 pc.2 with
    | none => exact h
    | some s' => exact h.step (a := .call pc.1 pc.2) hb

/-- Process `p` opens the inodes from `j` on, `n` of them. -/
def opens (p : ProcSlot) (j n : Nat) : List (ProcSlot × Call) :=
  (List.range n).map fun m => (p, .open [UInt8.ofNat (60 + (j + m))] 0)

/-- Three children are made, and each process opens some files. -/
def crowd : List (ProcSlot × Call) :=
  [(0, .fork 1), (0, .fork 2), (0, .fork 3)] ++ opens 0 2 13 ++ opens 1 15 13 ++ opens 2 28 13 ++
    opens 3 41 11

/-- **The cache is full before any table is**: forty-nine files and the current directory take up all
its entries, and the next `open` panics, with descriptors, files and places for processes to spare. -/
theorem cache_full : Counted crowdStart ∧ ∃ s, (calls crowdStart).Reach s ∧
    stopsWith host s 3 = some .igetNoInodes ∧ (s.shared.file 50).ref = 0 ∧ s.shared.proc 4 = none ∧
    (s.shared.proc 3).bind (fun x => x.ofile 15) = none := by
  refine ⟨crowdStart_counted, perform ⟨crowdStart, fun _ => .ret (), []⟩ crowd,
    reach_perform crowd (.init rfl), ?_⟩
  decide +kernel

/-- In the middle of the first `open` there is room. -/
def firstOpen : State Op Kernel Unit ProcSlot :=
  goOn host 0 5 ((begin Call.code ⟨crowdStart, fun _ => .ret (), []⟩ 0 (.open [62] 0)).getD
    ⟨crowdStart, fun _ => .ret (), []⟩)

theorem iget_room_first : Counted crowdStart ∧ (calls crowdStart).Reach firstOpen ∧
    (entries firstOpen.shared).card + 3 * (inside firstOpen).card = 4 ∧
    ∃ i fs, iget 2 firstOpen.shared.fs = .ok (i, fs) := by
  have hreach : (calls crowdStart).Reach firstOpen :=
    reach_goOn (.step (a := .call 0 (Call.open [62] 0)) (.init rfl) rfl) 0 5
  have hcard : (entries firstOpen.shared).card + 3 * (inside firstOpen).card = 4 := by decide +kernel
  exact ⟨crowdStart_counted, hreach, hcard,
    (iget_room crowdStart_counted hreach (hcard ▸ by decide) 2 0).1⟩

theorem refs_interleaved_first : Counted crowdStart ∧ (calls crowdStart).Reach firstOpen ∧
    inside firstOpen = {0} ∧ 1 ≤ firstOpen.shared.fs.refs 0 ∧ firstOpen.shared.fs.refs 0 ≤ 1 + 3 := by
  have hreach : (calls crowdStart).Reach firstOpen :=
    reach_goOn (.step (a := .call 0 (Call.open [62] 0)) (.init rfl) rfl) 0 5
  have hin : inside firstOpen = {0} := by decide +kernel
  have hdirs : opened firstOpen.shared.file 0 + dirs firstOpen.shared 0 = 1 := by decide +kernel
  have hrefs := ((refs_interleaved crowdStart_counted hreach).1 0).2
  rw [hdirs, hin] at hrefs
  exact ⟨crowdStart_counted, hreach, hin, by decide +kernel, hrefs⟩

end Dixv6.Sys
