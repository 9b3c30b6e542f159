import Dixv6.Fs.Contents
import Dixv6.Sys.Call

/-!
# The kernel as system calls see it

`View` is the abstract kernel: files by inode number with their bytes and the blocks they own, the
free blocks, the entries of the inode cache that are in use, whether a transaction is open and what
it may still log, and the tables of files, processes and pipes. There is no disk in it: no index
block, no copy of an inode that could be out of date, and of the bitmap only which bits are set.

`opSpec c p o Q v` says when process `p` may perform `o` in `v` and what it finds afterwards:
every view that the operation can lead to has `Q`. `vwp` extends that to whole programs, and
`vwp_seq` cuts a program at a specification of its first half. The terms `c` name the stops that
are allowed and whether a lost block matters.
-/

namespace Dixv6.Sys

open Lib Fs Function
open Pipes (Pipe)

/-- A place in a file's tree of blocks. -/
abbrev Pos := Fin (NDIRECT + 2) × List Nat

/-- A file, as a system call sees it. -/
structure AFile extends Links where
  type : Int16
  size : Nat
  byte : Bytes
  /-- The data and index blocks. -/
  block : Pos → Option Nat

/-- An entry of the inode cache that is in use. -/
structure Slot where
  inum : Nat
  ref : Nat
  /-- The inode is locked. -/
  busy : Bool
  /-- The inode has been read from the disk. -/
  valid : Bool
  deriving DecidableEq

/-- The kernel, as a system call sees it. -/
structure View where
  /-- The allocated inodes. -/
  files : Nat → Option AFile
  /-- The free blocks below the log area. -/
  free : Finset Nat
  bits : Nat → Bool
  /-- The inode cache. -/
  slot : Nat → Option Slot
  trans : Bool
  /-- The blocks that the transaction may log; none when the log may be full. -/
  room : Option (Finset Nat)
  file : Nat → File
  proc : Nat → Option Proc
  pipe : Nat → Pipe
  pages : List Nat

/-- On which terms system calls are checked. -/
structure Terms where
  /-- The disk. -/
  g : Geo
  /-- The stops that are allowed. -/
  E : Stop → Prop
  /-- No block may be lost. -/
  exact : Prop

/-! ## Files -/

namespace AFile

/-- The directory entry at index `j`. -/
def dirent (f : AFile) (j : Nat) : Dirent := getDirent fun p => f.byte (DESIZE * j + p)

/-- The number of directory entries. -/
def count (f : AFile) : Nat := f.size / DESIZE

/-- A file as `ialloc` makes it. -/
def empty (type : Int16) : AFile where
  major := 0
  minor := 0
  nlink := 0
  type := type
  size := 0
  byte _ := 0
  block _ := none

/-- The file with other bytes from `off` on. -/
def write (f : AFile) (src : Bytes) (off n : Nat) : AFile :=
  { f with
    size := max f.size (off + n)
    byte := fun o => if off ≤ o ∧ o < off + n then src (o - off) else f.byte o }

/-- The places of `T` where the file has no block. -/
def missing (f : AFile) (T : Finset Pos) : Finset Pos := T.filter fun p => f.block p = none

/-- A block that goes when the file is freed. The blocks under the doubly indirect one do not. -/
def Owns (f : AFile) (b : Nat) : Prop :=
  ∃ p : Pos, p.1.val ≠ NDIRECT + 1 ∧ f.block p = some b

/-- The file has no doubly indirect block. -/
def Simple (f : AFile) : Prop := f.block (⟨NDIRECT + 1, double_lt⟩, []) = none

/-- A directory is made of whole entries, which name inodes that the disk has. -/
def Tidy (g : Geo) (f : AFile) : Prop :=
  f.type = T_DIR → DESIZE ∣ f.size ∧ ∀ j < f.count, (f.dirent j).inum < g.ninodes

end AFile

/-! ## Views -/

namespace View

/-- The view with one cache entry changed. -/
def setSlot (v : View) (i : Nat) (sl : Option Slot) : View :=
  { v with slot := update v.slot i sl }

/-- The view with one file changed. -/
def setFile (v : View) (m : Nat) (f : Option AFile) : View :=
  { v with files := update v.files m f }

/-- The view after block `b` has been logged. -/
def log (v : View) (b : Nat) : View := { v with room := v.room.filter (b ∈ ·) }

/-- The view with one entry of the file table changed. -/
def onFile (v : View) (f : Nat) (h : File → File) : View :=
  { v with file := update v.file f (h (v.file f)) }

/-- The view with one process changed. -/
def onProc (v : View) (p : Nat) (h : Proc → Proc) : View :=
  { v with proc := update v.proc p ((v.proc p).map h) }

/-- The view with one pipe changed. -/
def setPipe (v : View) (pipe : Nat) (x : Pipe) : View :=
  { v with pipe := update v.pipe pipe x }

/-- The view with one end of a pipe closed. -/
def shut (v : View) (pipe : Nat) (writable : Bool) : View :=
  { v.setPipe pipe ((v.pipe pipe).shut writable) with
    pages := if ((v.pipe pipe).shut writable).readopen = false ∧
      ((v.pipe pipe).shut writable).writeopen = false then pipe :: v.pages else v.pages }

/-- The file `f` is locked through the cache entry `i`. -/
structure Locked (v : View) (i : Nat) (sl : Slot) (f : AFile) : Prop where
  slot : v.slot i = some sl
  busy : sl.busy = true
  file : v.files sl.inum = some f

/-- The reference `sl` is all that keeps the file. -/
structure Dying (v : View) (sl : Slot) (f : AFile) : Prop where
  ref : sl.ref = 1
  valid : sl.valid = true
  file : v.files sl.inum = some f
  nlink : f.nlink = 0

end View

/-- One reference less. -/
def Slot.drop (sl : Slot) : Option Slot :=
  if sl.ref = 1 then none else some { sl with ref := sl.ref - 1 }

/-- What holds of every view of a kernel. -/
structure Wf (g : Geo) (v : View) : Prop where
  inum : ∀ m f, v.files m = some f → m < g.ninodes ∧ f.type ≠ 0 ∧ f.size < 2 ^ 32
  tidy : ∀ m f, v.files m = some f → f.Tidy g
  whole : ∀ m f, v.files m = some f → ∀ bn, bn * BSIZE < f.size → f.block (pos bn) ≠ none
  rooted : ∀ m f, v.files m = some f → ∀ q π π', π' <:+ π → f.block (q, π) ≠ none →
    f.block (q, π') ≠ none
  slot : ∀ i sl, v.slot i = some sl → sl.inum < g.ninodes ∧ 0 < sl.ref ∧
    (sl.busy = true → sl.valid = true) ∧ (sl.valid = true → v.files sl.inum ≠ none)
  uniq : ∀ i j sl sl', v.slot i = some sl → v.slot j = some sl' → sl.inum = sl'.inum → i = j
  bound : ∀ i sl, v.slot i = some sl → i < NINODE

/-! ## What the operations do to a view -/

/-- What `iget` does: one reference more to the inode's entry, or a new entry. -/
inductive Iget (v : View) (m i : Nat) : Slot → Prop where
  | old (sl : Slot) (h : v.slot i = some sl) (hm : sl.inum = m) :
      Iget v m i { sl with ref := sl.ref + 1 }
  | new (hi : i < NINODE) (h : v.slot i = none) (hm : ∀ j sl, v.slot j = some sl → sl.inum ≠ m) :
      Iget v m i { inum := m, ref := 1, busy := false, valid := false }

/-- No cache entry is for the inode `m`, and none is free. -/
def View.Packed (v : View) (m : Nat) : Prop := ∀ i < NINODE, ∃ sl, v.slot i = some sl ∧ sl.inum ≠ m

/-- The log takes one more block. -/
def Terms.CanLog (c : Terms) (v : View) : Prop := c.E .tooBig ∨ v.room ≠ none

/-- An inode may be freed. -/
structure FreeOk (c : Terms) (v : View) (m : Nat) (f : AFile) : Prop where
  trans : c.E .outsideTrans ∨ v.trans = true
  room : c.E .tooBig ∨ ∃ S, v.room = some S ∧ IBLOCK m ∈ S ∧
    ∀ b, f.Owns b → BBLOCK b c.g.ninodes ∈ S
  simple : c.exact → f.Simple

/-- What a write may use: a free block for every place where the file has none, and room in the
log for the blocks that it changes. -/
structure WriteOk (c : Terms) (v : View) (f : AFile) (off n : Nat) : Prop where
  trans : v.trans = true
  enough : (f.missing (span off n)).card ≤ v.free.card
  room : c.E .tooBig ∨ ∃ S, v.room = some S ∧
    (∀ p ∈ span off n, ∀ b, f.block p = some b → Touched (f.missing (span off n)) p → b ∈ S) ∧
    ∀ b ∈ v.free, (v.free.filter (· < b)).card < (f.missing (span off n)).card →
      b ∈ S ∧ BBLOCK b c.g.ninodes ∈ S

/-- The blocks after a write: those there were, and new ones taken from the free blocks. -/
structure Taken (f : AFile) (T : Finset Pos) (F : Finset Nat) (block : Pos → Option Nat)
    (F' : Finset Nat) : Prop where
  keep : ∀ p b, f.block p = some b → block p = some b
  fresh : ∀ p b, block p = some b → f.block p = some b ∨ b ∈ F
  full : ∀ p ∈ T, block p ≠ none
  takes : Takes F F'
  spent : F.card = F'.card + (f.missing T).card

variable {off n : Nat}

/-- The places of a range are those of its bytes. -/
theorem mem_span {q : Pos} :
    q ∈ span off n ↔ ∃ o, off ≤ o ∧ o < off + n ∧ q ∈ chain (o / BSIZE) := by
  simp only [span, Finset.mem_biUnion, Finset.mem_range]
  constructor
  · rintro ⟨x, hx, hq⟩
    by_cases h0 : x = 0
    · subst h0
      have hn : n ≠ 0 := fun h => by rw [h, spanned_zero] at hx; omega
      exact ⟨off, Nat.le_refl _, by omega, hq⟩
    · have hlt := spanned_mul_lt hx
      refine ⟨(off / BSIZE + x) * BSIZE, ?_, hlt, ?_⟩
      · lia
      · rw [Nat.mul_div_cancel _ (by decide)]
        exact hq
  · rintro ⟨o, h1, h2, hq⟩
    refine ⟨o / BSIZE - off / BSIZE, lt_spanned h1 h2, ?_⟩
    rw [Nat.add_sub_cancel' (Nat.div_le_div_right h1)]
    exact hq

theorem span_subset {off' n' : Nat} (h1 : off ≤ off') (h2 : off' + n' ≤ off + n) :
    span off' n' ⊆ span off n := fun q hq => by
  obtain ⟨o, h3, h4, h5⟩ := mem_span.1 hq
  exact mem_span.2 ⟨o, by omega, by omega, h5⟩

/-- The blocks for the rest of a write, after its first part. -/
theorem missing_rest {a a' : AFile} {n' : Nat} {F F' : Finset Nat} {block : Pos → Option Nat}
    (hn : n' ≤ n) (h : Taken a (span off n') F block F') (hb : a'.block = block)
    (hroom : (a.missing (span off n)).card ≤ F.card) :
    (a'.missing (span (off + n') (n - n'))).card ≤ F'.card := by
  have hsub : a'.missing (span (off + n') (n - n')) ⊆
      a.missing (span off n) \ a.missing (span off n') := fun q hq => by
    obtain ⟨h1, h2⟩ := Finset.mem_filter.1 hq
    rw [hb] at h2
    refine Finset.mem_sdiff.2 ⟨Finset.mem_filter.2 ⟨span_subset (by omega) (by omega) h1, ?_⟩,
      fun hq' => h.full q (Finset.mem_filter.1 hq').1 h2⟩
    cases hbq : a.block q with
    | none => rfl
    | some b => rw [h.keep q b hbq] at h2; cases h2
  have hle : a.missing (span off n') ⊆ a.missing (span off n) :=
    Finset.filter_subset_filter _ (span_subset (Nat.le_refl _) (by omega))
  have h1 := Finset.card_le_card hsub
  have h2 := Finset.card_sdiff_of_subset hle
  have h3 := h.spent
  omega

/-- When process `p` may perform an operation, and what it leads to. -/
def opSpec (c : Terms) (p : Nat) : {β : Type} → Op β → (β → View → Prop) → View → Prop
  | _, .begin_trans, Q, v => v.trans = false ∧ ∃ S : Finset Nat,
      (c.E .tooBig ∨ S.card < LOGSIZE ∧ S.card + 1 < c.g.nlog) ∧
      Q () { v with trans := true, room := some S }
  | _, .commit_trans, Q, v => Q () { v with trans := false, room := none }
  | _, .iget m, Q, v => m < c.g.ninodes ∧ (v.Packed m → c.E .igetNoInodes) ∧
      ∀ i sl, Iget v m i sl → Q i (v.setSlot i (some sl))
  | _, .idup i, Q, v => ∃ sl, v.slot i = some sl ∧
      Q i (v.setSlot i (some { sl with ref := sl.ref + 1 }))
  | _, .ilock i, Q, v => ∃ sl, v.slot i = some sl ∧ (sl.busy = true → c.E .sleep) ∧
      (v.files sl.inum = none → c.E .ilockNoType) ∧
      (v.files sl.inum ≠ none → sl.busy = false →
        Q () (v.setSlot i (some { sl with busy := true, valid := true })))
  | _, .iunlock i, Q, v => ∃ sl, v.slot i = some sl ∧ sl.busy = true ∧
      Q () (v.setSlot i (some { sl with busy := false }))
  | _, .iput i, Q, v => ∃ sl, v.slot i = some sl ∧
      (∀ f, v.Dying sl f → sl.busy = false ∧ FreeOk c v sl.inum f ∧
        ∀ (F : Finset Nat) (bits : Nat → Bool), (∀ b, b ∈ F ↔ b ∈ v.free ∨ f.Owns b) →
          Q () { (v.setSlot i none).setFile sl.inum none with free := F, bits }) ∧
      ((∀ f, ¬ v.Dying sl f) → Q () (v.setSlot i sl.drop))
  | _, .ialloc type, Q, v => type ≠ 0 ∧ v.trans = true ∧ c.CanLog v ∧ c.E .iallocNoInodes ∧
      c.E .igetNoInodes ∧ ∀ m i sl, 0 < m → m < c.g.ninodes → v.files m = none →
        (∀ j, 0 < j → j < m → v.files j ≠ none) → Iget v m i sl →
        Q i (((v.setFile m (some (.empty type))).log (IBLOCK m)).setSlot i (some sl))
  | _, .iupdate i h, Q, v => ∃ sl f, v.Locked i sl f ∧ v.trans = true ∧ c.CanLog v ∧
      Q () ((v.setFile sl.inum (some { f with toLinks := h f.toLinks })).log (IBLOCK sl.inum))
  | _, .readi i off n, Q, v => ∃ sl f, v.Locked i sl f ∧
      (f.type = T_DEV → ∀ r, Q r v) ∧
      (f.type ≠ T_DEV → f.size < off.toNat ∨ 2 ^ 32 ≤ off.toNat + n.toNat → Q none v) ∧
      (f.type ≠ T_DEV → ¬ (f.size < off.toNat ∨ 2 ^ 32 ≤ off.toNat + n.toNat) → ∀ b : Bytes,
        (∀ o < min (off.toNat + n.toNat) f.size - off.toNat, b o = f.byte (off.toNat + o)) →
          Q (some (min (off.toNat + n.toNat) f.size - off.toNat, b)) v)
  | _, .writei i src off n, Q, v => ∃ sl f, v.Locked i sl f ∧
      (f.type = T_DEV → ∀ r, Q r v) ∧
      (f.type ≠ T_DEV → Refused f.size off.toNat n.toNat → Q none v) ∧
      (f.type ≠ T_DEV → ¬ Refused f.size off.toNat n.toNat →
        WriteOk c v f off.toNat n.toNat ∧ (f.write src off.toNat n.toNat).Tidy c.g ∧
        ∀ block F bits, Taken f (span off.toNat n.toNat) v.free block F →
          Q (some n.toNat) { (v.setFile sl.inum (some { f.write src off.toNat n.toNat with
            block })).log (IBLOCK sl.inum) with free := F, bits })
  | _, .inode i, Q, v => ∃ sl f, v.Locked i sl f ∧ ∀ x : Inode, x.inum = sl.inum →
      x.d.type = f.type → x.d.nlink = f.nlink → x.d.size.toNat = f.size → Q x v
  | _, .cwd, Q, v => Q (((v.proc p).map Proc.cwd).getD 0) v
  | _, .setCwd ip, Q, v => Q () (v.onProc p fun x => { x with cwd := ip })
  | _, .ofile fd, Q, v => Q ((v.proc p).bind fun x => x.ofile fd) v
  | _, .setOfile fd f, Q, v =>
      Q () (v.onProc p fun x => { x with ofile := update x.ofile fd f })
  | _, .filealloc, Q, v => ((∀ f < NFILE, (v.file f).ref ≠ 0) → Q none v) ∧
      ∀ f < NFILE, (v.file f).ref = 0 → Q (some f) (v.onFile f fun x => { x with ref := 1 })
  | _, .filedup f, Q, v => ((v.file f).ref = 0 → c.E .filedup) ∧ (0 < (v.file f).ref →
      Q () (v.onFile f fun x => { x with ref := x.ref + 1 }))
  | _, .filedrop f, Q, v => ((v.file f).ref = 0 → c.E .fileclose) ∧
      (1 < (v.file f).ref → Q none (v.onFile f fun x => { x with ref := x.ref - 1 })) ∧
      ((v.file f).ref = 1 →
        Q (some (v.file f)) (v.onFile f fun x => { x with ref := 0, type := .none }))
  | _, .file f, Q, v => Q (v.file f) v
  | _, .setOff f off, Q, v => Q () (v.onFile f fun x => { x with off })
  | _, .setFile f readable writable ip, Q, v =>
      Q () (v.onFile f fun x => { x with type := .inode, readable, writable, ip, off := 0 })
  | _, .newPipe, Q, v => (v.pages = [] → Q none v) ∧
      ∀ x pages, v.pages = x :: pages → Q (some x) { v with
        pages
        pipe := update v.pipe x
          { data := (v.pipe x).data, nread := 0, nwrite := 0, readopen := true, writeopen := true } }
  | _, .setPipe f writable pipe, Q, v =>
      Q () (v.onFile f fun x => { x with type := .pipe, readable := !writable, writable, pipe })
  | _, .pipeclose pipe writable, Q, v => Q () (v.shut pipe writable)
  | _, .piperead pipe _, Q, v => c.E .sleep ∧ ∀ r x, Q r (v.setPipe pipe x)
  | _, .pipewrite pipe _ _, Q, v => c.E .sleep ∧ ∀ r x, Q r (v.setPipe pipe x)
  | _, .newProc child cwd ofile, Q, v =>
      Q () { v with proc := update v.proc child (some { cwd, ofile }) }
  | _, .exited, Q, v => Q () { v with proc := update v.proc p none }
  | _, .stop e, _, _ => c.E e

/-- A program, on views: every view it can lead to has `Q`. -/
def vwp (c : Terms) (p : Nat) {α : Type} : P α → (α → View → Prop) → View → Prop
  | .ret a, Q, v => Wf c.g v → Q a v
  | .op o k, Q, v => Wf c.g v → opSpec c p o (fun b v' => vwp c p (k b) Q v') v

section
variable {c : Terms} {p : Nat} {α β : Type} {v : View} {o : Op β} {Q : α → View → Prop} {m : P α}

/-- An operation that leads to `Q` leads to whatever follows from it. -/
theorem opSpec_mono {Q Q' : β → View → Prop} (h : opSpec c p o Q v)
    (hQ : ∀ b v', Q b v' → Q' b v') : opSpec c p o Q' v := by
  cases o with
  | begin_trans =>
    obtain ⟨h1, S, h2, h3⟩ := h
    exact ⟨h1, S, h2, hQ _ _ h3⟩
  | iget m => exact ⟨h.1, h.2.1, fun i sl hi => hQ _ _ (h.2.2 i sl hi)⟩
  | idup i =>
    obtain ⟨sl, h1, h2⟩ := h
    exact ⟨sl, h1, hQ _ _ h2⟩
  | ilock i =>
    obtain ⟨sl, h1, h2, h3, h4⟩ := h
    exact ⟨sl, h1, h2, h3, fun h5 h6 => hQ _ _ (h4 h5 h6)⟩
  | iunlock i =>
    obtain ⟨sl, h1, h2, h3⟩ := h
    exact ⟨sl, h1, h2, hQ _ _ h3⟩
  | iput i =>
    obtain ⟨sl, h1, h2, h3⟩ := h
    refine ⟨sl, h1, fun f hf => ?_, fun h4 => hQ _ _ (h3 h4)⟩
    obtain ⟨h4, h5, h6⟩ := h2 f hf
    exact ⟨h4, h5, fun F bits hF => hQ _ _ (h6 F bits hF)⟩
  | ialloc type =>
    obtain ⟨h1, h2, h3, h4, h5, h6⟩ := h
    exact ⟨h1, h2, h3, h4, h5, fun m i sl a b d e f => hQ _ _ (h6 m i sl a b d e f)⟩
  | iupdate i f =>
    obtain ⟨sl, a, h1, h2, h3, h4⟩ := h
    exact ⟨sl, a, h1, h2, h3, hQ _ _ h4⟩
  | readi i off n =>
    obtain ⟨sl, f, h1, h2, h3, h4⟩ := h
    exact ⟨sl, f, h1, fun ht r => hQ _ _ (h2 ht r), fun ht hr => hQ _ _ (h3 ht hr),
      fun ht hr b hb => hQ _ _ (h4 ht hr b hb)⟩
  | writei i src off n =>
    obtain ⟨sl, f, h1, h2, h3, h4⟩ := h
    refine ⟨sl, f, h1, fun ht r => hQ _ _ (h2 ht r), fun ht hr => hQ _ _ (h3 ht hr),
      fun ht hr => ?_⟩
    obtain ⟨h5, h6, h7⟩ := h4 ht hr
    exact ⟨h5, h6, fun blk F bits hF => hQ _ _ (h7 blk F bits hF)⟩
  | inode i =>
    obtain ⟨sl, f, h1, h2⟩ := h
    exact ⟨sl, f, h1, fun x a b d e => hQ _ _ (h2 x a b d e)⟩
  | filealloc => exact ⟨fun hn => hQ _ _ (h.1 hn), fun f hf h0 => hQ _ _ (h.2 f hf h0)⟩
  | filedup f => exact ⟨h.1, fun h0 => hQ _ _ (h.2 h0)⟩
  | filedrop f => exact ⟨h.1, fun h0 => hQ _ _ (h.2.1 h0), fun h0 => hQ _ _ (h.2.2 h0)⟩
  | newPipe => exact ⟨fun hn => hQ _ _ (h.1 hn), fun x l hl => hQ _ _ (h.2 x l hl)⟩
  | piperead x n => exact ⟨h.1, fun r y => hQ _ _ (h.2 r y)⟩
  | pipewrite x src n => exact ⟨h.1, fun r y => hQ _ _ (h.2 r y)⟩
  | stop e => exact h
  | commit_trans | cwd | setCwd _ | ofile _ | setOfile _ _ | file _ | setOff _ _
  | setFile _ _ _ _ | setPipe _ _ _ | pipeclose _ _ | newProc _ _ _ | exited =>
    exact hQ _ _ h

/-- The rule of consequence. -/
theorem vwp_mono {Q' : α → View → Prop} (h : vwp c p m Q v)
    (hQ : ∀ a v', Wf c.g v' → Q a v' → Q' a v') : vwp c p m Q' v := by
  induction m generalizing v with
  | ret a => exact fun hv => hQ a v hv (h hv)
  | op o k ih => exact fun hv => opSpec_mono (h hv) fun b v' hb => ih b hb

/-- Whatever is to be shown of a program may assume a well-formed view. -/
theorem vwp_wf (h : Wf c.g v → vwp c p m Q v) : vwp c p m Q v := by
  cases m with
  | ret a => exact fun hv => h hv hv
  | op o k => exact fun hv => h hv hv

/-- A sequence is checked part by part. -/
theorem vwp_bind {f : α → P β} {Q : β → View → Prop}
    (h : vwp c p m (fun a v' => vwp c p (f a) Q v') v) : vwp c p (m >>= f) Q v := by
  induction m generalizing v with
  | ret a => exact vwp_wf h
  | op o k ih => exact fun hv => opSpec_mono (h hv) fun b v' hb => ih b hb

/-- A sequence, cut at a specification of its first half. -/
theorem vwp_seq {f : α → P β} {R : α → View → Prop} {Q : β → View → Prop}
    (h : vwp c p m R v) (hf : ∀ a v', Wf c.g v' → R a v' → vwp c p (f a) Q v') :
    vwp c p (m >>= f) Q v := vwp_bind (vwp_mono h hf)

theorem vwp_pure {a : α} (h : Q a v) : vwp c p (pure a) Q v := fun _ => h

/-- One operation. -/
theorem vwp_call {Q : β → View → Prop} (h : Wf c.g v → opSpec c p o Q v) :
    vwp c p (call o) Q v := fun hv => opSpec_mono (h hv) fun _ _ hb _ => hb

/-- One operation and what follows it. -/
theorem vwp_op {f : β → P α} (h : Wf c.g v → opSpec c p o (fun b v' => vwp c p (f b) Q v') v) :
    vwp c p (call o >>= f) Q v := vwp_bind (vwp_call h)

theorem vwp_panic {e : Stop} (h : c.E e) : vwp c p (panic e) Q v :=
  fun _ => h

/-- A branch is checked on both sides. -/
theorem vwp_ite {d : Prop} [Decidable d] {m' : P α} (ht : d → vwp c p m Q v)
    (hf : ¬ d → vwp c p m' Q v) : vwp c p (if d then m else m') Q v := by
  split
  · exact ht ‹_›
  · exact hf ‹_›

end

end Dixv6.Sys
