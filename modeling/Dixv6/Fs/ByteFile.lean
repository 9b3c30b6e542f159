import Mathlib.Data.Finset.Option
import Dixv6.Fs.Contents

/-!
# Files refine byte arrays

The abstract side is a list of bytes with the two operations that a file is for (`ByteFile.write`,
`ByteFile.read`). `contents` abstracts the disk: the bytes of an inode up to its size, found
through its block numbers and index blocks. `file_refines_bytes` is the refinement: `writei` and
`readi` do to `contents` what the abstract operations do to a list.

A write needs as many free blocks as positions are missing, and a place in the log for every block
it changes. The first is what keeps `balloc` from its panic, the second what keeps `log_write`
from its own: `log_write_too_big` is a write of ten blocks to an empty file in a fresh transaction.
-/

namespace Dixv6.Fs

open Lib Function

/-! ## The abstract side -/

namespace ByteFile

/-- The bytes of `src` put in the place of those from `off` on. -/
def write (c : List UInt8) (off : Nat) (src : List UInt8) : List UInt8 :=
  c.take off ++ src ++ c.drop (off + src.length)

/-- The `n` bytes from `off` on, or as many as there are. -/
def read (c : List UInt8) (off n : Nat) : List UInt8 := (c.drop off).take n

section
variable {c src : List UInt8} {off n o : Nat}

/-- The bytes after a write. -/
theorem getElem?_write (h : off ≤ c.length) : (write c off src)[o]? =
      if off ≤ o ∧ o < off + src.length then src[o - off]? else (c)[o]? := by
  rw [write, List.append_assoc]
  rcases Nat.lt_or_ge o off with h1 | h1
  · grind
  · have hlen : (c.take off).length = off := by simp; omega
    rw [List.getElem?_append_right (by omega), hlen]
    rcases Nat.lt_or_ge o (off + src.length) with h2 | h2
    · grind
    · grind

end

end ByteFile

/-- The first `n` bytes. -/
def bytes (src : Bytes) (n : Nat) : List UInt8 := (List.range n).map src

@[simp] theorem length_bytes (src : Bytes) (n : Nat) : (bytes src n).length = n := by
  simp [bytes]

theorem getElem?_bytes (src : Bytes) (n o : Nat) :
    (bytes src n)[o]? = if o < n then some (src o) else none := by
  rw [bytes, List.getElem?_map]
  split
  · next h => rw [List.getElem?_range h]; rfl
  · next h => rw [List.getElem?_eq_none (by simpa using h)]; rfl

/-- What inode `i` holds: the bytes up to its size. -/
def contents (g : Geo) (s : State) (slot i : Nat) : List UInt8 :=
  bytes (fileByte g (view g s slot) s.disk i) (view g s slot i).size.toNat

/-! ## The states and the laws -/

/-- The states in which a file is read and written through `slot`: the inode is allocated and not
a device, all blocks up to its size are there, no block of any file is found twice or is a metadata
block, and metadata blocks and blocks of files are marked used. -/
structure FileState (g : Geo) (slot : Nat) (s : State) : Prop extends Ctx g g.size slot s where
  whole : Whole g s slot
  not_dev : (s.inode slot).d.type ≠ T_DEV

/-- What `writei` returns and leaves behind. -/
def WriteLaw (g : Geo) (slot : Nat) (s : State) (src : Bytes) (off n : Nat) (r : Option Nat)
    (s' : State) : Prop :=
  if Refused (s.inode slot).d.size.toNat off n then r = none ∧ s' = s
  else r = some n ∧ FileState g slot s' ∧ (s'.inode slot).inum = (s.inode slot).inum ∧
    (s'.inode slot).d.size.toNat = max (s.inode slot).d.size.toNat (off + n) ∧
    contents g s' slot (s.inode slot).inum =
      ByteFile.write (contents g s slot (s.inode slot).inum) off (bytes src n) ∧
    (∀ i ≠ (s.inode slot).inum, contents g s' slot i = contents g s slot i) ∧
    ∀ j ≠ slot, s'.inode j = s.inode j

/-- What `readi` returns: the bytes from `off` on, as far as the file goes. -/
def ReadLaw (g : Geo) (slot : Nat) (s : State) (off n : Nat) (r : Option (Nat × Bytes)) : Prop :=
  if (s.inode slot).d.size.toNat < off ∨ 2 ^ 32 ≤ off + n then r = none
  else ∃ k dst, r = some (k, dst) ∧
    bytes dst k = ByteFile.read (contents g s slot (s.inode slot).inum) off n

/-- The free blocks that are handed out for the missing positions. -/
def reserved (g : Geo) (disk : Nat → Block) (k : Nat) : Finset Nat :=
  (free g g.size disk).filter fun b => ((free g g.size disk).filter (· < b)).card < k

/-- The blocks that a write of `n` bytes from `off` on logs besides the inode's own: its data
blocks, the index blocks with an entry to fill, the blocks handed out and their bitmap blocks. -/
def writeSet (g : Geo) (s : State) (slot off n : Nat) : Finset Nat :=
  let M := missing g s slot (span off n)
  (((span off n).filter fun p => level p.1 ≤ p.2.length) ∪ M.image fun p => (p.1, p.2.tail)).biUnion
      (fun p => (blockAt g s slot p).toFinset) ∪
    reserved g s.disk M.card ∪ (reserved g s.disk M.card).image (BBLOCK · g.ninodes)

/-- An open transaction has room for the blocks `S`. -/
structure LogRoom (S : Finset Nat) (log : Disk.Log) : Prop where
  busy : log.busy = true
  nodup : log.lh.Nodup
  card : (log.lh.toFinset ∪ S).card < LOGSIZE
  size : (log.lh.toFinset ∪ S).card + 1 < log.size

section
variable {g : Geo} {slot : Nat} {s s' : State} {E : Stop → Prop}

/-- Room for the blocks of `writeSet` is all that a write needs. -/
theorem LogRoom.budget {off n : Nat} (h : LogRoom (writeSet g s slot off n) s.log)
    (henough : (missing g s slot (span off n)).card ≤ (free g g.size s.disk).card) :
    Budget g g.size E (s.log.lh.toFinset ∪ writeSet g s slot off n) 0 (span off n) slot s := by
  refine ⟨⟨.inr h.busy, .inr ⟨fun b hb => ?_, h.nodup, h.card, h.size⟩⟩, .inr henough,
    .inr ⟨fun p hp b hb ht => ?_, fun b hb hlt => ⟨?_, ?_⟩⟩⟩
  · exact Finset.mem_union_left _ (List.mem_toFinset.2 hb)
  · refine Finset.mem_union_right _ (Finset.mem_union_left _ (Finset.mem_union_left _ ?_))
    refine Finset.mem_biUnion.2 ⟨p, ?_, Option.mem_toFinset.2 hb⟩
    rcases ht with ht | ⟨j, hj⟩
    · grind
    · grind
  · refine Finset.mem_union_right _ (Finset.mem_union_left _ (Finset.mem_union_right _ ?_))
    exact Finset.mem_filter.2 ⟨hb, hlt⟩
  · refine Finset.mem_union_right _ (Finset.mem_union_right _ ?_)
    exact Finset.mem_image_of_mem _ (Finset.mem_filter.2 ⟨hb, hlt⟩)

/-- When stops of `log_write` are allowed, free blocks are all that a write needs. -/
theorem budget_of_stops {off n : Nat} (hbig : E .tooBig) (hout : E .outsideTrans)
    (henough : (missing g s slot (span off n)).card ≤ (free g g.size s.disk).card) :
    Budget g g.size E ∅ 0 (span off n) slot s :=
  ⟨⟨.inl hout, .inl hbig⟩, .inr henough, .inl hbig⟩

/-- The file's own inode, in the view. -/
theorem view_self : view g s slot (s.inode slot).inum = (s.inode slot).d :=
  update_self _ _ _

/-- **A write, on the abstract side.** -/
theorem Written.law {S : Finset Nat} {off n : Nat} {src : Bytes} (hf : FileState g slot s)
    (hr : ¬ Refused (s.inode slot).d.size.toNat off n)
    (h : Written g g.size E S 0 slot off (off + n) (fun o => src (o - off)) s s') :
    WriteLaw g slot s src off n (some n) s' := by
  obtain ⟨a, ha⟩ := h.self
  have hinum : (s'.inode slot).inum = (s.inode slot).inum := by rw [ha]
  have hsize : (s'.inode slot).d.size.toNat = max (s.inode slot).d.size.toNat (off + n) := by
    have := (s.inode slot).d.size.toNat_lt
    rw [ha]
    refine UInt32.toNat_ofNat_of_lt' ?_
    simp only [Refused, not_or, UInt32.size] at *
    omega
  have hview : view g s' slot (s.inode slot).inum = (s'.inode slot).d := by
    rw [← hinum, view_self]
  have hle : off ≤ (s.inode slot).d.size.toNat := by
    simp only [Refused, not_or] at hr
    omega
  rw [WriteLaw, if_neg hr]
  refine ⟨rfl, ⟨h.ctx, h.whole, by rw [ha]; exact hf.not_dev⟩, hinum, hsize, ?_, fun i hi => ?_,
    h.inode⟩
  · have hlen : off ≤ (contents g s slot (s.inode slot).inum).length := by
      rw [contents, length_bytes, view_self]
      exact hle
    refine List.ext_getElem? fun o => ?_
    rw [ByteFile.getElem?_write hlen, length_bytes, contents, getElem?_bytes, getElem?_bytes,
      contents, getElem?_bytes, hview, hsize, h.bytes, view_self]
    by_cases ho : off ≤ o ∧ o < off + n
    · grind
    · simp only [ho, and_false, if_false]
      by_cases ho' : o < (s.inode slot).d.size.toNat
      · rw [if_pos ho', if_pos (by omega)]
      · rw [if_neg ho', if_neg (by omega)]
  · have hv : view g s' slot i = view g s slot i := by
      rw [view, view, hinum, update_of_ne hi, update_of_ne hi, h.table i hi]
    have hb : fileByte g (view g s' slot) s'.disk i = fileByte g (view g s slot) s.disk i := by
      funext o
      rw [h.bytes, if_neg fun e => hi e.1]
    rw [contents, contents, hv, hb]

/-- `writei` keeps to its law whenever it returns, and stops only where it is allowed to. -/
theorem writei_law {S : Finset Nat} {src : Bytes} {off n : UInt32} (hf : FileState g slot s)
    (hB : ¬ Refused (s.inode slot).d.size.toNat off.toNat n.toNat →
      Budget g g.size E S 0 (span off.toNat n.toNat) slot s) :
    wp (writei slot src off n) (WriteLaw g slot s src off.toNat n.toNat) E s := by
  refine wp_post (writei_spec hf.toCtx hf.not_dev hf.whole rfl hB) fun r s' h => ?_
  by_cases hr : Refused (s.inode slot).d.size.toNat off.toNat n.toNat
  · rw [if_pos hr] at h
    rw [WriteLaw, if_pos hr]
    exact h
  · rw [if_neg hr] at h
    rw [h.1]
    exact h.2.law hf hr

/-- `readi` keeps to its law and changes nothing. -/
theorem readi_law {off n : UInt32} (hf : FileState g slot s) :
    wp (readi slot off n) (fun r s' => ReadLaw g slot s off.toNat n.toNat r ∧ s' = s) E s := by
  refine wp_post (readi_spec hf.not_dev hf.whole rfl) fun r s' h => ⟨?_, h.1⟩
  have h := h.2
  rw [ReadLaw]
  split
  · next hr => rwa [if_pos hr] at h
  · next hr =>
    rw [if_neg hr] at h
    obtain ⟨dst, hdst, hbytes⟩ := h
    refine ⟨_, dst, hdst, List.ext_getElem? fun o => ?_⟩
    rw [getElem?_bytes, ByteFile.read, List.getElem?_take, List.getElem?_drop, contents,
      getElem?_bytes, view_self]
    by_cases ho : o < min (off.toNat + n.toNat) (s.inode slot).d.size.toNat - off.toNat
    · grind
    · grind

/-- **File contents refine a byte array.** In every state in which a file is well formed and
enough blocks are free: with room for it in the log, a write returns and does to the contents what
`ByteFile.write` does, or is refused and changes nothing; without, the only stops are those of
`log_write`; and a read returns what `ByteFile.read` does. -/
theorem file_refines_bytes (hf : FileState g slot s) (src : Bytes) (off n : UInt32)
    (hfree : ¬ Refused (s.inode slot).d.size.toNat off.toNat n.toNat →
      (missing g s slot (span off.toNat n.toNat)).card ≤ (free g g.size s.disk).card) :
    (LogRoom (writeSet g s slot off.toNat n.toNat) s.log ∨
        Refused (s.inode slot).d.size.toNat off.toNat n.toNat →
      ∃ r s', writei slot src off n s = .ok (r, s') ∧
        WriteLaw g slot s src off.toNat n.toNat r s') ∧
    (∀ r s', writei slot src off n s = .ok (r, s') →
      WriteLaw g slot s src off.toNat n.toNat r s') ∧
    (∀ e, writei slot src off n s = .error e → e = .tooBig ∨ e = .outsideTrans) ∧
    ∃ r, readi slot off n s = .ok (r, s) ∧ ReadLaw g slot s off.toNat n.toNat r := by
  have hstop : wp (writei slot src off n) (WriteLaw g slot s src off.toNat n.toNat)
      (fun e => e = .tooBig ∨ e = .outsideTrans) s :=
    writei_law hf fun hr => budget_of_stops (.inl rfl) (.inr rfl) (hfree hr)
  refine ⟨fun hroom => ?_, fun r s' h => ?_, fun e h => ?_, ?_⟩
  · exact wp_total (writei_law hf fun hr => (hroom.resolve_right hr).budget (hfree hr))
  · have hlaw := wp_ok hstop h
    exact hlaw
  · have hlaw := wp_error hstop h
    exact hlaw
  · obtain ⟨r, s', hrun, hlaw, rfl⟩ := wp_total (@readi_law _ _ _ _ off n hf)
    exact ⟨r, hrun, hlaw⟩

end

/-! ## A file on a small disk -/

section Demo

/-- A disk of 64 blocks with eight inodes and ten log blocks. -/
def demoGeo : Geo where
  size := 64
  nblocks := 49
  ninodes := 8
  nlog := 10
  inodes_pos := by decide
  inodes_lt := by decide
  room := by decide
  size_lt := by decide

/-- An empty file. -/
def demoInode : Dinode := { Dinode.zero with type := T_FILE, nlink := 1 }

/-- The disk with the empty file as inode 1; the blocks below 5 are marked used. -/
def demoDisk : Nat → Block := fun b =>
  if b = 1 then putSb zeroBlock demoGeo.toSuperblock
  else if b = 2 then putDinode zeroBlock 1 demoInode
  else if b = 4 then fun i => if i = 0 then 31 else 0
  else zeroBlock

/-- The file is locked and a transaction is open. -/
def demo : State where
  disk := demoDisk
  log := { start := 54, size := 10, busy := true, lh := [] }
  inode _ := { inum := 1, ref := 1, busy := true, valid := true, d := demoInode }
  devsw _ := { read := none, write := none }

/-- No inode of the small disk has a block. -/
theorem demo_root (x : Nat × Fin (NDIRECT + 2)) : root demoGeo (view demoGeo demo 0) x = none := by
  have hdisk : ∀ i < 8, ∀ k, (dinodeAt demoDisk i).addrs k = 0 := by decide +kernel
  have hzero : (view demoGeo demo 0 x.1).addrs x.2 = 0 := by
    by_cases hx : x.1 = 1
    · rw [hx]; rfl
    · rw [view, update_of_ne (show x.1 ≠ (demo.inode 0).inum from hx), table]
      split
      · next h => exact hdisk x.1 h x.2
      · rfl
  simp [root, hzero]

theorem demo_fileState : FileState demoGeo 0 demo where
  sb := by decide +kernel
  lim_le := Nat.le_refl _
  le_lim := by decide
  inum := by decide
  type := by decide
  own := {
    distinct := fun k π k' π' a h => by rw [Shape.node_none_of_root (demo_root k)] at h; cases h
    data := fun k π a h => by rw [node, Shape.node_none_of_root (demo_root k)] at h; cases h
    area := by decide +kernel }
  whole bn h := absurd h (Nat.not_lt_zero _)
  not_dev := by decide

/-- A write of 600 bytes, two blocks, fits the log. -/
theorem file_refines_bytes_demo :
    ∃ r s', writei 0 (fun _ => 7) 0 600 demo = .ok (r, s') ∧
      WriteLaw demoGeo 0 demo (fun _ => 7) 0 600 r s' :=
  (file_refines_bytes demo_fileState (fun _ => 7) 0 600 fun _ => by decide +kernel).1
    (.inl ⟨rfl, List.nodup_nil, by decide +kernel, by decide +kernel⟩)

/-- **A long write does not fit the log.** Ten blocks written to an empty file, on a disk with 59
free blocks and in a transaction that has logged nothing yet: the ninth block logged fills the
log, and the next call of `log_write` panics. -/
theorem log_write_too_big :
    FileState demoGeo 0 demo ∧ demo.log.busy = true ∧ demo.log.lh = [] ∧
    ¬ Refused (demo.inode 0).d.size.toNat 0 5120 ∧
    (missing demoGeo demo 0 (span 0 5120)).card ≤ (free demoGeo demoGeo.size demo.disk).card ∧
    (match writei 0 (fun _ => 7) 0 5120 demo with
      | .error e => some e
      | .ok _ => none) = some .tooBig :=
  ⟨demo_fileState, rfl, rfl, by decide, by decide +kernel, by decide +kernel⟩

end Demo

end Dixv6.Fs
