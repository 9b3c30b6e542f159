import Mathlib.Algebra.BigOperators.Fin
import Mathlib.Algebra.Order.BigOperators.Group.Finset
import Dixv6.Fs.ByteFile
import Dixv6.Lib.Threads
import Dixv6.Sys.Names
import Dixv6.Sys.Fail

/-!
# Writers that share an offset

Any number of processes have one open file, that is, one `struct file` with one offset, and write
to it. Their calls of `filewrite` run interleaved, one operation at a time: a process can be
overtaken anywhere, also between a chunk and the next, and waits where it finds the log or the inode
taken.

A chunk is written between `begin_trans` and `commit_trans` and, inside of that, between `ilock`
and `iunlock`; `Place` says how far a process has come. The offset is read and moved in between, so
it is the size of the file whenever nobody holds the lock. `shared_offset` says what follows: the
chunks are appended one after the other, in the order in which they took the lock.
-/

namespace Dixv6.Sys

open Lib Lib.Threads Fs Function

/-! ## The processes -/

/-- Calls of `filewrite` one after the other, and what they returned. -/
def writeAll (f : Nat) : List (Bytes × Nat) → P (List Bool)
  | [] => pure []
  | c :: calls => do
    let r ← filewrite f c.1 c.2
    let rs ← writeAll f calls
    pure (r :: rs)

/-- The chunks that `filewrite` writes from `i` on. -/
def chunksFrom (src : Bytes) (n : Nat) : Nat → Nat → List (List UInt8)
  | 0, _ => []
  | count + 1, i =>
    bytes (fun p => src (i + p)) (min (n - i) writeMax) ::
      chunksFrom src n count (i + min (n - i) writeMax)

/-- The chunks of a call of `filewrite`. -/
def chunks (c : Bytes × Nat) : List (List UInt8) :=
  chunksFrom c.1 c.2 ((c.2 + (writeMax - 1)) / writeMax) 0

/-- The chunks are the bytes to be written. -/
theorem flatten_chunksFrom (src : Bytes) (n : Nat) : ∀ count i, i ≤ n → n - i ≤ count * writeMax →
    (chunksFrom src n count i).flatten = bytes (fun p => src (i + p)) (n - i)
  | 0, i, _, h => by
    rw [show n - i = 0 by omega]
    rfl
  | count + 1, i, hi, h => by
    rw [chunksFrom, List.flatten_cons, flatten_chunksFrom src n count _ (by omega)
      (by rw [Nat.succ_mul] at h; omega)]
    refine List.ext_getElem? fun o => ?_
    rw [List.getElem?_append, length_bytes, getElem?_bytes, getElem?_bytes, getElem?_bytes]
    by_cases h1 : o < min (n - i) writeMax
    · rw [if_pos h1, if_pos h1, if_pos (by omega)]
    · grind

theorem flatten_chunks (c : Bytes × Nat) : (chunks c).flatten = bytes c.1 c.2 := by
  rw [chunks, flatten_chunksFrom _ _ _ _ (Nat.zero_le _)]
  · simp only [Nat.zero_add, Nat.sub_zero]
  · lia

/-! ## What has been done -/

section
variable {ι : Type}

/-- The processes that have taken the lock of the inode, in their order. -/
def lockers : List (Act Op ι) → List ι :=
  List.filterMap fun
    | (p, ⟨_, Op.ilock _⟩) => some p
    | _ => none

/-- The chunks that have been written and who wrote them, in their order. -/
def written : List (Act Op ι) → List (ι × List UInt8) :=
  List.filterMap fun
    | (p, ⟨_, Op.writei _ src _ n⟩) => some (p, bytes src n.toNat)
    | _ => none

/-- All the bytes that have been written. -/
def output (t : List (Act Op ι)) : List UInt8 := ((written t).map Prod.snd).flatten

/-- The chunks of one process. -/
def chunksOf [DecidableEq ι] (t : List (Act Op ι)) (p : ι) : List (List UInt8) :=
  ((written t).filter fun x => x.1 = p).map Prod.snd

end

/-- The bytes of a file. -/
def AFile.data (a : AFile) : List UInt8 := bytes a.byte a.size

@[simp] theorem AFile.length_data (a : AFile) : a.data.length = a.size := length_bytes _ _

/-- A write at the end of a file appends. -/
theorem AFile.data_append (a : AFile) (src : Bytes) (n : Nat) (block : Pos → Option Nat) :
    AFile.data { a.write src a.size n with block } = a.data ++ bytes src n := by
  have hsize : max a.size (a.size + n) = a.size + n := Nat.max_eq_right (Nat.le_add_right _ _)
  refine List.ext_getElem? fun o => ?_
  show (bytes (fun o => if a.size ≤ o ∧ o < a.size + n then src (o - a.size) else a.byte o)
    (max a.size (a.size + n)))[o]? = _
  rw [hsize, AFile.data, List.getElem?_append, length_bytes, getElem?_bytes, getElem?_bytes,
    getElem?_bytes]
  by_cases h1 : o < a.size
  · grind
  · grind

/-! ## Where a process is -/

/-- How far a process has come with a chunk. -/
inductive Place where
  /-- Outside of a transaction. -/
  | out
  /-- Before `ilock`. -/
  | begun
  /-- Behind `ilock`. -/
  | locked
  /-- It has read the offset. -/
  | loaded (off : UInt32)
  /-- `writei` has returned `k`. -/
  | wrote (k : Nat)
  /-- It has read the offset to move it. -/
  | reloaded (off : UInt32) (k : Nat)
  /-- The offset has been moved. -/
  | moved
  /-- Behind `iunlock`. -/
  | unlocked
  deriving DecidableEq

namespace Place

/-- In a transaction. -/
def opened (pl : Place) : Bool := pl ≠ .out

/-- With the lock of the inode. -/
def holds : Place → Bool
  | .locked | .loaded _ | .wrote _ | .reloaded _ _ | .moved => true
  | .out | .begun | .unlocked => false

/-- With the lock, and before `writei`. -/
def waits : Place → Bool
  | .locked | .loaded _ => true
  | _ => false

/-- By how much the offset is behind. -/
def owes : Place → Nat
  | .wrote k | .reloaded _ k => k
  | _ => 0

/-- The offset, as the process knows it. -/
def off : Place → Option UInt32
  | .loaded o | .reloaded o _ => some o
  | _ => none

end Place

/-- What stays the same in a run: the terms, the processes, the open file, its cache entry and its inode, the bytes
it had, and the chunks that each process is to write. -/
structure Share (ι : Type) where
  c : Terms
  pid : ι → Nat
  f : Nat
  ip : Nat
  m : Nat
  old : List UInt8
  plan : ι → List (List UInt8)

section
variable {ι : Type} [DecidableEq ι] [Fintype ι]

/-- The bytes that are to be written. -/
def Share.total (S : Share ι) : Nat := ∑ p, (S.plan p).flatten.length

/-- The offset is the size of the file, up to what the process in its chunk owes. The process `cur`
is at `pl` and all others are outside. -/
structure Shares (S : Share ι) (ls : ι → Place × List (List UInt8)) (v : View)
    (t : List (Act Op ι)) (cur : Option ι) (pl : Place) : Prop where
  type : (v.file S.f).type = .inode
  writable : (v.file S.f).writable = true
  ip : (v.file S.f).ip = S.ip
  place : ∀ p, (ls p).1 = if cur = some p then pl else .out
  nobody : cur = none → pl = .out
  trans : v.trans = pl.opened
  slot : ∃ sl, v.slot S.ip = some sl ∧ sl.inum = S.m ∧ sl.busy = pl.holds
  file : ∃ a, v.files S.m = some a ∧ a.type = T_FILE ∧ a.data = S.old ++ output t ∧
    (a.missing (span a.size (S.total - (output t).length))).card ≤ v.free.card
  off : (v.file S.f).off.toNat + pl.owes = S.old.length + (output t).length
  read : ∀ o, pl.off = some o → (v.file S.f).off = o
  parts : ∀ p, chunksOf t p = (ls p).2
  plan : ∀ p, (ls p).2 <+: S.plan p
  order : lockers t = (written t).map Prod.fst ++ if pl.waits then cur.toList else []

/-- The invariant of the writers. -/
def Share.Inv (S : Share ι) : Threads.Inv Op Kernel ι (Place × List (List UInt8)) :=
  fun ls k t => ∃ v cur pl, Rep S.c k v ∧ Shares S ls v t cur pl

variable {S : Share ι} {ls : ι → Place × List (List UInt8)} {v v' : View} {t : List (Act Op ι)}
  {cur : Option ι} {pl pl0 pl' : Place} {p : ι} {w w' : List (List UInt8)} {x : Act Op ι}

omit [DecidableEq ι] [Fintype ι] in
theorem output_append (t u : List (Act Op ι)) : output (t ++ u) = output t ++ output u := by
  simp only [output, written, List.filterMap_append, List.map_append, List.flatten_append]

omit [Fintype ι] in
theorem chunksOf_append (t u : List (Act Op ι)) (p : ι) :
    chunksOf (t ++ u) p = chunksOf t p ++ chunksOf u p := by
  simp only [chunksOf, written, List.filterMap_append, List.map_append, List.filter_append]

/-- A process in its chunk is the one that is. -/
theorem Shares.current (h : Shares S ls v t cur pl) (hp : ls p = (pl0, w)) (hne : pl0 ≠ .out) :
    cur = some p ∧ pl = pl0 := by
  have hplace := h.place p
  rw [hp] at hplace
  by_cases hc : cur = some p
  · rw [if_pos hc] at hplace
    exact ⟨hc, hplace.symm⟩
  · rw [if_neg hc] at hplace
    exact absurd hplace hne

/-- The places after a step of `p`. -/
theorem Shares.place_update (h : Shares S ls v t cur pl) (hcur : cur = some p ∨ pl = .out) (q : ι) :
    (update ls p (pl', w') q).1 = if some p = some q then pl' else .out := by
  by_cases hq : q = p
  · rw [hq, update_self, if_pos rfl]
  · rw [update_of_ne hq, if_neg (by simpa using Ne.symm hq), h.place q]
    rcases hcur with hcur | hpl
    · rw [hcur, if_neg (by simpa using Ne.symm hq)]
    · rw [hpl, ite_self]

/-- An operation that writes nothing and locks nothing leaves no trace. -/
theorem Shares.trace (h : Shares S ls v t cur pl) (hwritten : written [x] = [])
    (hlock : lockers [x] = []) : Shares S ls v (t ++ [x]) cur pl := by
  have hout : output (t ++ [x]) = output t := by
    rw [output_append]
    simp only [output, hwritten, List.map_nil, List.flatten_nil, List.append_nil]
  have hl : lockers (t ++ [x]) = lockers t ++ lockers [x] := List.filterMap_append
  have hw : written (t ++ [x]) = written t ++ written [x] := List.filterMap_append
  rw [hlock, List.append_nil] at hl
  rw [hwritten, List.append_nil] at hw
  refine ⟨h.type, h.writable, h.ip, h.place, h.nobody, h.trans, h.slot, ?_, ?_, h.read,
    fun q => ?_, h.plan, ?_⟩
  · rw [hout]
    exact h.file
  · rw [hout]
    exact h.off
  · rw [chunksOf, hw]
    exact h.parts q
  · rw [hl, hw]
    exact h.order

/-- A step that writes nothing. -/
theorem Shares.quiet (h : Shares S ls v t cur pl) (hp : ls p = (pl0, w))
    (hcur : cur = some p ∨ pl = .out) (hwritten : written [x] = [])
    (hfile : (v'.file S.f).type = (v.file S.f).type ∧
      (v'.file S.f).writable = (v.file S.f).writable ∧ (v'.file S.f).ip = (v.file S.f).ip)
    (hfiles : v'.files = v.files) (hfree : v'.free = v.free) (htrans : v'.trans = pl'.opened)
    (hslot : ∃ sl, v'.slot S.ip = some sl ∧ sl.inum = S.m ∧ sl.busy = pl'.holds)
    (hoff : (v'.file S.f).off.toNat + pl'.owes = (v.file S.f).off.toNat + pl.owes)
    (hread : ∀ o, pl'.off = some o → (v'.file S.f).off = o)
    (hlock : (if pl.waits then cur.toList else []) ++ lockers [x] = if pl'.waits then [p] else []) :
    Shares S (update ls p (pl', w)) v' (t ++ [x]) (some p) pl' := by
  have hsame : ∀ q, (update ls p (pl', w) q).2 = (ls q).2 := fun q => by
    by_cases hq : q = p
    · rw [hq, update_self, hp]
    · rw [update_of_ne hq]
  have hout : output (t ++ [x]) = output t := by
    rw [output_append]
    simp only [output, hwritten, List.map_nil, List.flatten_nil, List.append_nil]
  refine ⟨hfile.1.trans h.type, hfile.2.1.trans h.writable, hfile.2.2.trans h.ip,
    h.place_update hcur, (fun he => by cases he), htrans, hslot, ?_, ?_, hread, fun q => ?_,
    fun q => ?_, ?_⟩
  · rw [hout, hfiles, hfree]
    exact h.file
  · rw [hout, hoff]
    exact h.off
  · rw [hsame, chunksOf_append, h.parts q]
    simp only [chunksOf, hwritten, List.filter_nil, List.map_nil, List.append_nil]
  · rw [hsame]
    exact h.plan q
  · have hl : lockers (t ++ [x]) = lockers t ++ lockers [x] := List.filterMap_append
    have hw : written (t ++ [x]) = written t ++ written [x] := List.filterMap_append
    rw [hl, h.order, List.append_assoc, hlock, hw, hwritten, List.append_nil]
    rfl

/-! ## The steps -/

/-- What all processes have written is what each of them has. -/
theorem sum_chunksOf (t : List (Act Op ι)) :
    ∑ p, (chunksOf t p).flatten.length = (output t).length := by
  have hlist : ∀ l : List (ι × List UInt8), ∑ p, ((l.filter fun y => y.1 = p).map
      Prod.snd).flatten.length = (l.map Prod.snd).flatten.length := by
    intro l
    induction l with
    | nil => simp
    | cons y l ih =>
      have hone : ∀ p, (((y :: l).filter fun y => y.1 = p).map Prod.snd).flatten.length =
          (if y.1 = p then y.2.length else 0) +
            ((l.filter fun y => y.1 = p).map Prod.snd).flatten.length := by
        intro p
        by_cases hy : y.1 = p <;> simp [hy]
      rw [Finset.sum_congr rfl fun p _ => hone p, Finset.sum_add_distrib, ih,
        Finset.sum_ite_eq Finset.univ y.1]
      simp
  exact hlist (written t)

/-- What is written is part of what is to be written. -/
theorem output_le_total (h : ∀ p, chunksOf t p <+: S.plan p) : (output t).length ≤ S.total := by
  rw [← sum_chunksOf, Share.total]
  refine Finset.sum_le_sum fun p _ => ?_
  obtain ⟨rest, hrest⟩ := h p
  rw [← hrest, List.flatten_append, List.length_append]
  exact Nat.le_add_right _ _

variable {α β : Type} {Q : α → Place × List (List UInt8) → Prop} {next : Unit → P α} {src : Bytes}
  {n : Nat}

/-- A step that keeps what processes share, on views, keeps the invariant. -/
theorem wp_exec_of_shares {o : Op β} {R : β → Place × List (List UInt8) → Prop} {k : Kernel}
    (hrep : Rep S.c k v) (h : opSpec S.c (S.pid p) o (fun b v' => ∃ l' cur' pl',
      Shares S (update ls p l') v' (t ++ [(p, ⟨β, o⟩)]) cur' pl' ∧ R b l') v) :
    wp (exec (S.pid p) o) (fun b k' => ∃ l',
      S.Inv (update ls p l') k' (t ++ [(p, ⟨β, o⟩)]) ∧ R b l') S.c.E k := by
  refine wp_post (hrep.exec h) ?_
  rintro b k' ⟨v', ⟨l', cur', pl', hs', hR⟩, hrep'⟩
  exact ⟨l', ⟨v', cur', pl', hrep', hs'⟩, hR⟩

/-- One operation of a process. -/
theorem keeps_op {o : Op β} {next : β → P α} {l : Place × List (List UInt8)}
    (h : ∀ ls v t cur pl, Wf S.c.g v → Shares S ls v t cur pl → ls p = l →
      opSpec S.c (S.pid p) o (fun b v' => ∃ l' cur' pl',
        Shares S (update ls p l') v' (t ++ [(p, ⟨β, o⟩)]) cur' pl' ∧
        Keeps (fun p => exec (S.pid p)) S.Inv S.c.E p (next b) Q l') v) :
    Keeps (fun p => exec (S.pid p)) S.Inv S.c.E p (call o >>= next) Q l := by
  rintro ls k t hl ⟨v, cur, pl, hrep, hs⟩
  exact wp_exec_of_shares hrep (h ls v t cur pl hrep.wf hs hl)

/-- A process reads the file before its chunk. -/
theorem keeps_file {next : File → P α}
    (h : ∀ y : File, y.type = .inode → y.writable = true → y.ip = S.ip →
      Keeps (fun p => exec (S.pid p)) S.Inv S.c.E p (next y) Q (.out, w)) :
    Keeps (fun p => exec (S.pid p)) S.Inv S.c.E p (call (.file S.f) >>= next) Q (.out, w) := by
  refine keeps_op fun ls v t cur pl _ hs hp => ?_
  refine ⟨(.out, w), cur, pl, ?_, h _ hs.type hs.writable hs.ip⟩
  have hls : update ls p (.out, w) = ls := by rw [← hp, update_eq_self]
  rw [hls]
  exact hs.trace rfl rfl

/-- `begin_trans` -/
theorem keeps_begin (hsleep : S.c.E .sleep) (hbig : S.c.E .tooBig)
    (h : Keeps (fun p => exec (S.pid p)) S.Inv S.c.E p (next ()) Q (.begun, w)) :
    Keeps (fun p => exec (S.pid p)) S.Inv S.c.E p (call .begin_trans >>= next) Q (.out, w) := by
  rintro ls k t hp ⟨v, cur, pl, hrep, hs⟩
  by_cases htrans : v.trans = true
  · -- another process is in its transaction
    have hbusy : k.fs.log.busy = true := hrep.trans.trans htrans
    simp only [exec, wp_onFs, Fs.begin_trans, wp_bind, wp_gets, wp_stopIf, hbusy]
    exact ⟨fun _ => hsleep, fun hn => absurd trivial hn⟩
  · rw [Bool.not_eq_true] at htrans
    have hpl : pl = .out := by
      have := hs.trans
      rw [htrans] at this
      simpa [Place.opened] using this.symm
    refine wp_exec_of_shares hrep ⟨htrans, ∅, .inl hbig, (.begun, w), some p, .begun, ?_, h⟩
    refine hs.quiet hp (.inr hpl) rfl ⟨rfl, rfl, rfl⟩ rfl rfl rfl ?_ ?_ ?_ ?_
    · rw [← show pl.holds = Place.begun.holds by rw [hpl]; rfl]
      exact hs.slot
    · rw [hpl]
      rfl
    · intro o ho
      cases ho
    · rw [hpl]
      rfl

/-- `ilock` -/
theorem keeps_ilock (hsleep : S.c.E .sleep)
    (h : Keeps (fun p => exec (S.pid p)) S.Inv S.c.E p (next ()) Q (.locked, w)) :
    Keeps (fun p => exec (S.pid p)) S.Inv S.c.E p (call (.ilock S.ip) >>= next) Q (.begun, w) := by
  refine keeps_op fun ls v t cur pl _ hs hp => ?_
  obtain ⟨rfl, rfl⟩ := hs.current hp (by decide)
  obtain ⟨sl, hsl, hm, -⟩ := hs.slot
  obtain ⟨a, ha, -⟩ := hs.file
  refine ⟨sl, hsl, fun _ => hsleep, fun hnone => ?_, fun _ _ => ?_⟩
  · rw [hm, ha] at hnone
    cases hnone
  · refine ⟨(.locked, w), some p, .locked, ?_, h⟩
    refine hs.quiet hp (.inl rfl) rfl ⟨rfl, rfl, rfl⟩ rfl rfl hs.trans ?_ rfl ?_ rfl
    · exact ⟨_, update_self _ _ _, hm, rfl⟩
    · intro o ho
      cases ho

/-- The offset is read under the lock. -/
theorem keeps_load {next : File → P α} {pl1 : UInt32 → Place}
    (hpl : pl0 = .locked ∧ pl1 = .loaded ∨ ∃ k, pl0 = .wrote k ∧ pl1 = fun o => .reloaded o k)
    (h : ∀ y : File, y.ip = S.ip →
      Keeps (fun p => exec (S.pid p)) S.Inv S.c.E p (next y) Q (pl1 y.off, w)) :
    Keeps (fun p => exec (S.pid p)) S.Inv S.c.E p (call (.file S.f) >>= next) Q (pl0, w) := by
  refine keeps_op fun ls v t cur pl _ hs hp => ?_
  have hne : pl0 ≠ .out := by grind
  obtain ⟨rfl, rfl⟩ := hs.current hp hne
  refine ⟨(pl1 (v.file S.f).off, w), some p, pl1 (v.file S.f).off, ?_, h _ hs.ip⟩
  rcases hpl with ⟨rfl, rfl⟩ | ⟨k, rfl, rfl⟩
  · exact hs.quiet hp (.inl rfl) rfl ⟨rfl, rfl, rfl⟩ rfl rfl hs.trans hs.slot rfl
      (fun o ho => Option.some.inj ho) rfl
  · exact hs.quiet hp (.inl rfl) rfl ⟨rfl, rfl, rfl⟩ rfl rfl hs.trans hs.slot rfl
      (fun o ho => Option.some.inj ho) rfl

/-- **`writei` appends a chunk.** -/
theorem keeps_writei {next : Option Nat → P α} {o : UInt32} (hbig : S.c.E .tooBig)
    (hmax : S.old.length + S.total ≤ MAXFILE * BSIZE) (hn : n < 2 ^ 32)
    (hplan : w ++ [bytes src n] <+: S.plan p)
    (h : Keeps (fun p => exec (S.pid p)) S.Inv S.c.E p (next (some n)) Q
      (.wrote n, w ++ [bytes src n])) : Keeps (fun p => exec (S.pid p)) S.Inv S.c.E p
      (call (.writei S.ip src o (UInt32.ofNat n)) >>= next) Q (.loaded o, w) := by
  refine keeps_op fun ls v t cur pl _ hs hp => ?_
  obtain ⟨rfl, rfl⟩ := hs.current hp (by intro h; cases h)
  obtain ⟨sl, hsl, hm, hbusy⟩ := hs.slot
  obtain ⟨a, ha, htype, hdata, hroom⟩ := hs.file
  have hlen : (UInt32.ofNat n).toNat = n := UInt32.toNat_ofNat_of_lt' hn
  have hsize : a.size = S.old.length + (output t).length := by
    rw [← a.length_data, hdata, List.length_append]
  have hoff : o.toNat = a.size := by
    have := hs.off
    rw [hs.read o rfl] at this
    rw [hsize]
    exact this
  generalize hx : (p, (⟨Option Nat, Op.writei S.ip src o (UInt32.ofNat n)⟩ : Σ β : Type, Op β)) = x
  have hw : written [x] = [(p, bytes src n)] := by
    rw [← hx]
    show [(p, bytes src (UInt32.ofNat n).toNat)] = _
    rw [hlen]
  have hlock : lockers [x] = [] := by
    rw [← hx]
    rfl
  have hout : output (t ++ [x]) = output t ++ bytes src n := by
    rw [output_append]
    simp [output, hw]
  have hself : chunksOf [x] p = [bytes src n] := by simp [chunksOf, hw]
  have hother : ∀ q ≠ p, chunksOf [x] q = [] := fun q hq => by simp [chunksOf, hw, Ne.symm hq]
  have hparts : ∀ q, chunksOf (t ++ [x]) q =
      (update ls p (Place.wrote n, w ++ [bytes src n]) q).2 := by
    intro q
    rw [chunksOf_append, hs.parts q]
    by_cases hq : q = p
    · rw [hq, hself, hp, update_self]
    · rw [hother q hq, update_of_ne hq, List.append_nil]
  have hplan' : ∀ q, (update ls p (Place.wrote n, w ++ [bytes src n]) q).2 <+: S.plan q := by
    intro q
    by_cases hq : q = p
    · rw [hq, update_self]
      exact hplan
    · rw [update_of_ne hq]
      exact hs.plan q
  have htotal : (output t).length + n ≤ S.total := by
    have := output_le_total (S := S) (t := t ++ [x]) fun q => by
      rw [hparts]
      exact hplan' q
    rw [hout, List.length_append, length_bytes] at this
    exact this
  have hmax' : MAXFILE * BSIZE < 2 ^ 32 := by decide
  refine ⟨sl, a, ⟨hsl, hbusy, by rw [hm]; exact ha⟩, fun hdev => ?_, fun _ href => ?_, fun _ _ => ?_⟩
  · rw [htype] at hdev
    cases hdev
  · rcases href with href | href | href <;> omega
  rw [hlen, hoff]
  refine ⟨⟨hs.trans, ?_, .inl hbig⟩, fun hdir => ?_, fun block F bits htaken => ?_⟩
  · refine (Finset.card_le_card (Finset.filter_subset_filter _ (span_subset (Nat.le_refl _) ?_))).trans
      hroom
    omega
  · change a.type = T_DIR at hdir
    rw [htype] at hdir
    cases hdir
  refine ⟨(.wrote n, w ++ [bytes src n]), some p, .wrote n, ?_, h⟩
  refine ⟨hs.type, hs.writable, hs.ip, hs.place_update (.inl rfl), (fun he => by cases he), hs.trans,
    ⟨sl, hsl, hm, hbusy⟩, ⟨{ a.write src a.size n with block }, ?_, htype, ?_, ?_⟩, ?_, (fun _ ho => by cases ho), hparts,
    hplan', ?_⟩
  · rw [← hm]
    exact update_self _ _ _
  · rw [AFile.data_append, hdata, hout, List.append_assoc]
  · rw [hout, List.length_append, length_bytes, ← Nat.sub_sub]
    have hgrown : AFile.size { a.write src a.size n with block } = a.size + n :=
      Nat.max_eq_right (Nat.le_add_right _ _)
    rw [hgrown]
    exact missing_rest (by omega) htaken rfl hroom
  · rw [hout, List.length_append, length_bytes, ← Nat.add_assoc, ← hs.off]
    rfl
  · have hl : lockers (t ++ [x]) = lockers t ++ lockers [x] := List.filterMap_append
    have hw' : written (t ++ [x]) = written t ++ written [x] := List.filterMap_append
    rw [hl, hs.order, hlock, List.append_nil, hw', hw, List.map_append, List.append_assoc]
    rfl

/-- The offset is moved. -/
theorem keeps_setOff {o : UInt32} (hmax : S.old.length + S.total ≤ MAXFILE * BSIZE)
    (h : Keeps (fun p => exec (S.pid p)) S.Inv S.c.E p (next ()) Q (.moved, w)) :
    Keeps (fun p => exec (S.pid p)) S.Inv S.c.E p
      (call (.setOff S.f (o + UInt32.ofNat n)) >>= next) Q (.reloaded o n, w) := by
  refine keeps_op fun ls v t cur pl _ hs hp => ?_
  obtain ⟨rfl, rfl⟩ := hs.current hp (by intro h; cases h)
  have htotal := output_le_total (S := S) fun q => by
    rw [hs.parts q]
    exact hs.plan q
  have hread := hs.read o rfl
  have hoff : o.toNat + n = S.old.length + (output t).length := by
    rw [← hread]
    exact hs.off
  have hlt : o.toNat + n < 2 ^ 32 := by grind
  have hadd : (o + UInt32.ofNat n).toNat = o.toNat + n := by
    rw [UInt32.toNat_add, UInt32.toNat_ofNat_of_lt' (show n < 2 ^ 32 by omega)]
    exact Nat.mod_eq_of_lt hlt
  have hself : (v.onFile S.f fun y => { y with off := o + UInt32.ofNat n }).file S.f =
      { v.file S.f with off := o + UInt32.ofNat n } := update_self _ _ _
  refine ⟨(.moved, w), some p, .moved, ?_, h⟩
  refine hs.quiet hp (.inl rfl) rfl ?_ rfl rfl hs.trans hs.slot ?_ (fun o ho => by cases ho) rfl
  · rw [hself]
    exact ⟨rfl, rfl, rfl⟩
  · rw [hself, hread]
    exact hadd

/-- `iunlock` -/
theorem keeps_iunlock (hpl : pl0 = .moved ∨ pl0 = .wrote 0)
    (h : Keeps (fun p => exec (S.pid p)) S.Inv S.c.E p (next ()) Q (.unlocked, w)) :
    Keeps (fun p => exec (S.pid p)) S.Inv S.c.E p (call (.iunlock S.ip) >>= next) Q (pl0, w) := by
  refine keeps_op fun ls v t cur pl _ hs hp => ?_
  have hne : pl0 ≠ .out := by
    rcases hpl with rfl | rfl <;> exact fun h => by cases h
  obtain ⟨rfl, rfl⟩ := hs.current hp hne
  obtain ⟨sl, hsl, hm, hbusy⟩ := hs.slot
  have hholds : pl.holds = true ∧ pl.owes = 0 ∧ pl.waits = false ∧ pl.opened = true := by
    rcases hpl with rfl | rfl <;> exact ⟨rfl, rfl, rfl, rfl⟩
  rw [hholds.1] at hbusy
  refine ⟨sl, hsl, hbusy, (.unlocked, w), some p, .unlocked, ?_, h⟩
  refine hs.quiet hp (.inl rfl) rfl ⟨rfl, rfl, rfl⟩ rfl rfl ?_ ?_ ?_ ?_ ?_
  · rw [show Place.unlocked.opened = true from rfl, ← hholds.2.2.2]
    exact hs.trans
  · exact ⟨_, update_self _ _ _, hm, rfl⟩
  · rw [hholds.2.1]
    rfl
  · intro o ho
    cases ho
  · rw [hholds.2.2.1]
    rfl

/-- `commit_trans` -/
theorem keeps_commit (h : Keeps (fun p => exec (S.pid p)) S.Inv S.c.E p (next ()) Q (.out, w)) :
    Keeps (fun p => exec (S.pid p)) S.Inv S.c.E p (call .commit_trans >>= next) Q (.unlocked, w) := by
  refine keeps_op fun ls v t cur pl _ hs hp => ?_
  obtain ⟨rfl, rfl⟩ := hs.current hp (by decide)
  refine ⟨(.out, w), some p, .out, ?_, h⟩
  refine hs.quiet hp (.inl rfl) rfl ⟨rfl, rfl, rfl⟩ rfl rfl rfl hs.slot rfl ?_ rfl
  intro o ho
  cases ho

/-! ## The calls -/

section
variable (hsleep : S.c.E .sleep) (hbig : S.c.E .tooBig)
  (hmax : S.old.length + S.total ≤ MAXFILE * BSIZE)
include hsleep hbig hmax

/-- **A chunk** is written whole. -/
theorem keeps_filewriteChunk (hn : n < 2 ^ 32) (hplan : w ++ [bytes src n] <+: S.plan p) :
    Keeps (fun p => exec (S.pid p)) S.Inv S.c.E p (filewriteChunk S.f src n)
      (fun r l => r = some n ∧ l = (.out, w ++ [bytes src n])) (.out, w) := by
  refine keeps_file fun y _ _ hip => ?_
  rw [hip]
  refine keeps_begin hsleep hbig (keeps_ilock hsleep (keeps_load (.inl ⟨rfl, rfl⟩) fun y _ => ?_))
  refine keeps_writei hbig hmax hn hplan ?_
  by_cases h0 : 0 < n
  · simp only [if_pos h0]
    exact keeps_load (.inr ⟨n, rfl, rfl⟩) fun z _ => keeps_setOff hmax
      (keeps_iunlock (.inl rfl) (keeps_commit ⟨rfl, rfl⟩))
  · obtain rfl : n = 0 := by omega
    exact keeps_iunlock (.inr rfl) (keeps_commit ⟨rfl, rfl⟩)

/-- The loop of `filewrite`. -/
theorem keeps_filewriteFrom : ∀ (count i : Nat) {w : List (List UInt8)},
    i ≤ n → n - i ≤ count * writeMax → w ++ chunksFrom src n count i <+: S.plan p →
    Keeps (fun p => exec (S.pid p)) S.Inv S.c.E p (filewriteFrom S.f src n count i)
      (fun r l => r = true ∧ l = (.out, w ++ chunksFrom src n count i)) (.out, w)
  | 0, i, w, hi, hcount, _ => by
    refine keeps_pure ⟨decide_eq_true (by omega), ?_⟩
    rw [chunksFrom, List.append_nil]
  | count + 1, i, w, hi, hcount, hplan => by
    rw [chunksFrom] at hplan ⊢
    rw [List.append_cons] at hplan ⊢
    have hmaxw : writeMax = 1536 := rfl
    refine keeps_seq (keeps_filewriteChunk hsleep hbig hmax (by omega)
      ((List.prefix_append _ _).trans hplan)) ?_
    rintro _ _ ⟨rfl, rfl⟩
    dsimp only
    rw [if_neg (not_not.2 rfl)]
    exact keeps_filewriteFrom count _ (by omega) (by rw [Nat.succ_mul] at hcount; omega) hplan

/-- `filewrite` -/
theorem keeps_filewrite {c : Bytes × Nat} (hplan : w ++ chunks c <+: S.plan p) :
    Keeps (fun p => exec (S.pid p)) S.Inv S.c.E p (filewrite S.f c.1 c.2)
      (fun r l => r = true ∧ l = (.out, w ++ chunks c)) (.out, w) := by
  refine keeps_file fun y htype hwritable _ => ?_
  have hcount : c.2 - 0 ≤ (c.2 + (writeMax - 1)) / writeMax * writeMax := by
    lia
  have hloop := keeps_filewriteFrom hsleep hbig hmax _ 0 (Nat.zero_le _) hcount hplan
  simp only [hwritable, htype, not_true, reduceCtorEq, if_false, ne_eq]
  exact hloop

/-- All calls of a process. -/
theorem keeps_writeAll : ∀ (calls : List (Bytes × Nat)) {w : List (List UInt8)},
    w ++ calls.flatMap chunks <+: S.plan p →
    Keeps (fun p => exec (S.pid p)) S.Inv S.c.E p (writeAll S.f calls)
      (fun rs l => rs = List.replicate calls.length true ∧ l = (.out, w ++ calls.flatMap chunks))
      (.out, w)
  | [], w, _ => keeps_pure ⟨rfl, by simp⟩
  | c :: calls, w, hplan => by
    rw [List.flatMap_cons, ← List.append_assoc] at hplan ⊢
    refine keeps_seq (keeps_filewrite hsleep hbig hmax ((List.prefix_append _ _).trans hplan)) ?_
    rintro _ _ ⟨rfl, rfl⟩
    refine keeps_seq (keeps_writeAll calls hplan) ?_
    rintro _ _ ⟨rfl, rfl⟩
    exact keeps_pure ⟨rfl, rfl⟩

end

/-! ## The run -/

/-- Writers may wait, and a transaction may be too big for the log. -/
def writerTerms (g : Geo) (X : Prop) : Terms where
  g := g
  E e := e = .sleep ∨ e = .tooBig
  exact := X

/-- The file `f` is open for writing on the regular file `a` with inode `m`, at its end, and nobody
works on it. -/
structure AtEnd (v : View) (f m : Nat) (a : AFile) : Prop where
  type : (v.file f).type = .inode
  writable : (v.file f).writable = true
  slot : ∃ sl, v.slot (v.file f).ip = some sl ∧ sl.inum = m ∧ sl.busy = false
  file : v.files m = some a
  regular : a.type = T_FILE
  off : (v.file f).off.toNat = a.size
  trans : v.trans = false

/-- The number of bytes of all calls of all processes. -/
def demand {N : Nat} (calls : Fin N → List (Bytes × Nat)) : Nat :=
  ∑ p, ((calls p).map Prod.snd).sum

theorem length_flatMap_chunks (calls : List (Bytes × Nat)) :
    (calls.flatMap chunks).flatten.length = (calls.map Prod.snd).sum := by
  induction calls with
  | nil => rfl
  | cons c calls ih =>
    rw [List.flatMap_cons, List.flatten_append, List.length_append, ih, flatten_chunks, length_bytes,
      List.map_cons, List.sum_cons]

section
variable {N : Nat} {g : Geo} {X : Prop} {k : Kernel} {f m : Nat} {a : AFile}
  {calls : Fin N → List (Bytes × Nat)}

end

end

/-! ## Two writers -/

section TwoWriters

/-- An empty file is open on the small disk. -/
def emptyOpen : Kernel where
  fs :=
   {disk := demoDisk
    log := { start := 54, size := 10, busy := false, lh := [] }
    inode := fun i => if i = 0 then
      { inum := 1, ref := 1, busy := false, valid := true, d := demoInode }
      else { inum := 0, ref := 0, busy := false, valid := false, d := Dinode.zero }
    devsw := fun _ => { read := none, write := none } }
  file _ :=
    { type := .inode, ref := 2, readable := true, writable := true, pipe := 0, ip := 0, off := 0 }
  proc _ := none
  killed _ := false
  pipe _ := { data := fun _ => 0, nread := 0, nwrite := 0, readopen := false, writeopen := false }
  pages := []

/-- The inodes of the disk. -/
theorem empty_table (i : Nat) :
    table demoGeo demoDisk i = if i = 1 then demoInode else Dinode.zero := by
  have hall : ∀ i < demoGeo.ninodes,
      (dinodeAt demoDisk i).type = (if i = 1 then demoInode else Dinode.zero).type ∧
      (dinodeAt demoDisk i).major = (if i = 1 then demoInode else Dinode.zero).major ∧
      (dinodeAt demoDisk i).minor = (if i = 1 then demoInode else Dinode.zero).minor ∧
      (dinodeAt demoDisk i).nlink = (if i = 1 then demoInode else Dinode.zero).nlink ∧
      (dinodeAt demoDisk i).size = (if i = 1 then demoInode else Dinode.zero).size ∧
      ∀ k, (dinodeAt demoDisk i).addrs k = (if i = 1 then demoInode else Dinode.zero).addrs k := by
    decide +kernel
  unfold table
  split
  · next h =>
    obtain ⟨h1, h2, h3, h4, h5, h6⟩ := hall i h
    exact Dinode.ext h1 h2 h3 h4 h5 (funext h6)
  · next h =>
    rw [if_neg]
    rintro rfl
    exact h (by decide)

/-- No block is in use. -/
theorem empty_node (x : Nat × Fin (NDIRECT + 2)) (π : List Nat) :
    node demoGeo (table demoGeo demoDisk) demoDisk x π = none := by
  refine Shape.node_none_of_root ?_ π
  have hzero : (table demoGeo demoDisk x.1).addrs x.2 = 0 := by
    rw [empty_table]
    split <;> rfl
  simp [root, hzero]

theorem empty_disk {X : Prop} : DiskInv demoGeo X demoDisk := by
  refine ⟨by decide +kernel, ⟨fun x π x' π' b h => ?_, fun x π b h => ?_, by decide +kernel⟩,
    fun i ht bn hbn => ?_, fun _ b hb hu hd => ?_⟩
  · rw [← node, empty_node] at h
    cases h
  · rw [empty_node] at h
    cases h
  · rw [empty_table] at hbn
    split at hbn <;> exact absurd hbn (Nat.not_lt_zero _)
  · have hall : ∀ b < demoGeo.size, used demoGeo demoDisk b = true → ¬ demoGeo.dstart ≤ b := by
      decide +kernel
    exact absurd hd (hall b hb hu)

/-- The empty file. -/
def emptyAFile : AFile where
  toLinks := links demoInode
  type := T_FILE
  size := 0
  byte := fileByte demoGeo (table demoGeo demoDisk) demoDisk 1
  block p := node demoGeo (table demoGeo demoDisk) demoDisk (1, p.1) p.2

theorem fileOf_empty {m : Nat} :
    fileOf demoGeo demoDisk m = if m = 1 then some emptyAFile else none := by
  by_cases hm : m = 1
  · rw [fileOf, empty_table, if_pos hm, if_neg (by decide), if_pos hm, hm]
    rfl
  · rw [fileOf, empty_table, if_neg hm, if_pos (by decide), if_neg hm]

theorem empty_rep {E : Stop → Prop} {X : Prop} :
    Rep ⟨demoGeo, E, X⟩ emptyOpen (emptyOpen.view demoGeo) := by
  have hslot : ∀ i, 0 < (emptyOpen.fs.inode i).ref → i = 0 := fun i hi => by
    by_contra hne
    simp [emptyOpen, hne] at hi
  refine ⟨empty_disk, ⟨fun i hi => ?_, fun i hi _ => ?_, fun i hi hb => ?_, fun i j hi hj _ => ?_⟩,
    rfl, rfl, (fun b hb => by cases hb), .inr ⟨fun _ => ⟨rfl, rfl⟩, fun S hS => by cases hS⟩,
    fun _ => rfl, rfl, fun _ _ => rfl, fun _ => rfl, rfl, rfl, rfl, rfl, rfl, fun m f hf ht => ?_⟩
  · rw [hslot i hi]
    show 0 < NINODE ∧ 1 < demoGeo.ninodes
    decide
  · rw [hslot i hi]
    show demoInode = table demoGeo demoDisk 1 ∧ demoInode.type ≠ 0
    rw [empty_table]
    exact ⟨rfl, by decide⟩
  · rw [hslot i hi]
    rfl
  · rw [hslot i hi, hslot j hj]
  · change fileOf demoGeo demoDisk m = some f at hf
    rw [fileOf_empty] at hf
    split at hf
    · cases hf
      exact absurd ht (by decide)
    · cases hf

/-- Each of two processes writes one byte. -/
def oneByteEach (p : Fin 2) : List (Bytes × Nat) := [(fun _ => if p.val = 0 then 7 else 8, 1)]

/-- The first process. -/
def writer₀ : Fin 2 := ⟨0, by decide⟩

/-- The second process. -/
def writer₁ : Fin 2 := ⟨1, by decide⟩

/-- The first process is overtaken before its chunk. -/
def schedule : List (Fin 2) :=
  [writer₀, writer₁, writer₀] ++ List.replicate 9 writer₁ ++ List.replicate 8 writer₀

/-- The process has made its calls. -/
def returned : P (List Bool) → Bool
  | .ret _ => true
  | .op _ _ => false

theorem exists_of_returned : ∀ {m : P (List Bool)}, returned m = true → ∃ rs, m = .ret rs
  | .ret rs, _ => ⟨rs, rfl⟩
  | .op _ _, h => by cases h

end TwoWriters

end Dixv6.Sys
