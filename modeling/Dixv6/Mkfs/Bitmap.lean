import Dixv6.Fs.Alloc
import Dixv6.Mkfs.Append

/-!
# One bitmap for `mkfs` and the kernel

`mkfs` writes the bitmap, and the kernel's `balloc` and `bfree` change it. `bfree` computes the place
of a bit from a `uint`, `balloc` from an `int`, and the division by `BPB` is not the same for numbers
from `2 ^ 31` on: there `balloc` reads and marks another block (`balloc_high_wrong`).

**`one_bitmap`: the bitmap is one set exactly for the disks whose first free block, if there is one,
is below `2 ^ 31`.**
-/

namespace Dixv6.Mkfs

open Lib Fs Function

/-- The bit of block `b`, as bitmap block and bit. -/
def bitOf (ninodes b : Nat) : Nat × Nat := (BBLOCK b ninodes, b % BPB)

/-- Whether the bit of block `b` is set. -/
def marked (ninodes : Nat) (disk : Nat → Block) (b : Nat) : Bool :=
  (disk (bitOf ninodes b).1).getBit (bitOf ninodes b).2

/-- `b` is the least free block of the disk. -/
def LeastFree (sb : Superblock) (disk : Nat → Block) (b : Nat) : Prop :=
  b < sb.size ∧ marked sb.ninodes disk b = false ∧ ∀ x < b, marked sb.ninodes disk x = true

/-- What stops a call of `log_write`. -/
def LogStop (e : Dixv6.Stop) : Prop := e = .tooBig ∨ e = .outsideTrans

/-- The bitmap of a disk is one set for `mkfs`, `balloc` and `bfree`. -/
structure OneBitmap (sb : Superblock) (disk : Nat → Block) : Prop where
  /-- Blocks and bits correspond, -/
  injective : Injective (bitOf sb.ninodes)
  /-- and the bits of a bitmap block belong to `BPB` blocks in a row. -/
  onto : ∀ k i, i < BPB → bitOf sb.ninodes (k * BPB + i) = (sb.ninodes / IPB + 3 + k, i)
  /-- `mkfs` sets the bits of the first blocks. -/
  mkfs : ∀ used img, wp (ballocFor sb.ninodes used)
    (fun _ img' => (∀ b < BPB, marked sb.ninodes img'.sect b = decide (b < used)) ∧
      ∀ x ≠ sb.ninodes / IPB + 3, img'.sect x = img.sect x)
    (fun e => e = Stop.bitmap ∧ BPB ≤ used) img
  /-- `balloc` takes the least free block, sets its bit and clears the block. -/
  balloc : ∀ s : Fs.State, s.disk = disk → ∀ b, LeastFree sb disk b → wp Fs.balloc
    (fun r s' => r = b ∧ s'.disk = update (update disk (bitOf sb.ninodes b).1
      ((disk (bitOf sb.ninodes b).1).setBit (bitOf sb.ninodes b).2)) b zeroBlock) LogStop s
  bfree : ∀ s : Fs.State, s.disk = disk → ∀ b, marked sb.ninodes disk b = true → wp (Fs.bfree b)
    (fun _ s' => s'.disk = update disk (bitOf sb.ninodes b).1
      ((disk (bitOf sb.ninodes b).1).clearBit (bitOf sb.ninodes b).2)) LogStop s
  /-- The bitmap is apart from the inodes and from the data. -/
  apart : ∀ b < sb.size, (∀ i < sb.ninodes, IBLOCK i ≠ (bitOf sb.ninodes b).1) ∧
    (bitOf sb.ninodes b).1 < sb.ninodes / IPB + 3 + sb.size / BPB + 1

section
variable {disk : Nat → Block} {b : Nat} {s : Fs.State} {sb : Superblock}

/-- The numbers of a super block are 32 bits wide. -/
theorem getSb_lt (blk : Block) : (getSb blk).size < 2 ^ 32 ∧ (getSb blk).ninodes < 2 ^ 32 :=
  ⟨Bytes.leGet_lt blk 4 0, Bytes.leGet_lt blk 4 8⟩

/-- There is one least free block. -/
theorem least_unique {f : Nat → Bool} {r r' : Nat} (hr : f r = false) (hless : ∀ x < r, f x = true)
    (hr' : f r' = false) (hless' : ∀ x < r', f x = true) : r = r' := by
  rcases Nat.lt_trichotomy r r' with h | h | h
  · rw [hless' r h] at hr
    cases hr
  · exact h
  · rw [hless r' h] at hr'
    cases hr'

/-- Below `2 ^ 31` `balloc` does what it is to do. -/
theorem balloc_low (hsb : getSb (s.disk 1) = sb) (hb : LeastFree sb s.disk b) (hlow : b < 2 ^ 31) :
    wp Fs.balloc (fun r s' => r = b ∧ s'.disk = update (update s.disk (bitOf sb.ninodes b).1
      ((s.disk (bitOf sb.ninodes b).1).setBit (bitOf sb.ninodes b).2)) b zeroBlock) LogStop s := by
  obtain ⟨hlt, hzero, hless⟩ := hb
  have hbit : ∀ x ≤ b, scanBit sb.ninodes x = bitOf sb.ninodes x := fun x hx =>
    scanBit_of_lt (hsb ▸ (getSb_lt _).2) (hx.trans_lt hlow)
  have hseen : ∀ x ≤ b, scanned sb.ninodes s.disk x = marked sb.ninodes s.disk x := fun x hx => by
    rw [scanned, hbit x hx, marked]
  refine wp_post (balloc_took (S := ∅) hsb ⟨.inl (.inr rfl), .inl (.inl rfl)⟩ (.inl (.inl rfl))
    (.inr ⟨b, hlt, (hseen b le_rfl).trans hzero⟩)) fun r s' h => ?_
  obtain rfl : r = b := least_unique h.free h.least ((hseen b le_rfl).trans hzero)
    fun x hx => (hseen x hx.le).trans (hless x hx)
  exact ⟨rfl, by rw [h.disk, hbit r le_rfl, bitOf]⟩

/-- Everything but `balloc` is as it is to be. -/
theorem oneBitmap_iff (hsb : getSb (disk 1) = sb) :
    OneBitmap sb disk ↔ ∀ s : Fs.State, s.disk = disk → ∀ b, LeastFree sb disk b → wp Fs.balloc
      (fun r s' => r = b ∧ s'.disk = update (update disk (bitOf sb.ninodes b).1
        ((disk (bitOf sb.ninodes b).1).setBit (bitOf sb.ninodes b).2)) b zeroBlock) LogStop s := by
  refine ⟨OneBitmap.balloc, fun h => ⟨fun b b' hbb => ?_, fun k i hi => ?_, fun used img => ?_, h,
    fun s hs b hb => ?_, fun b hb => ?_⟩⟩
  · have := Prod.mk.inj hbb
    grind [BBLOCK]
  · rw [bitOf, Prod.mk.injEq]
    grind [BBLOCK]
  · simp only [ballocFor, wsect, wp_bind, wp_stopIf, wp_modify]
    refine ⟨fun hbig => ⟨trivial, Nat.not_lt.1 hbig⟩, fun _ => ⟨fun b hb => ?_, fun x hx =>
      update_of_ne hx _ _⟩⟩
    have hfirst : bitOf sb.ninodes b = (sb.ninodes / IPB + 3, b) := by
      rw [bitOf, Prod.mk.injEq]
      grind [BBLOCK]
    rw [marked, hfirst, update_self, getBit_marks]
  · subst hs
    simp only [Fs.bfree, readsb, readBlock, wp_bind, wp_gets, hsb, wp_stopIf]
    have hset : (s.disk (BBLOCK b sb.ninodes)).getBit (b % BPB) = true := hb
    refine ⟨fun hn => by simp [hset] at hn, fun _ => ?_⟩
    exact wp_post (log_write_spec (S := ∅) ⟨.inl (.inr rfl), .inl (.inl rfl)⟩ (.inl (.inl rfl)))
      fun _ _ h => h.disk
  · rw [bitOf]
    refine ⟨fun i hi => ?_, ?_⟩ <;> grind [BBLOCK, IBLOCK]

/-- From `2 ^ 31` on it marks a bit of another block. -/
theorem LeastFree.low (hsb : getSb (disk 1) = sb) (hb : LeastFree sb disk b)
    (h : OneBitmap sb disk) : b < 2 ^ 31 := by
  by_contra hhigh
  obtain ⟨hlt, hzero, -⟩ := id hb
  -- with an empty log nothing but the search can fail
  let s : Fs.State := ⟨disk, ⟨0, LOGSIZE, true, []⟩,
    fun _ => ⟨0, 0, false, false, Dinode.zero⟩, fun _ => ⟨none, none⟩⟩
  obtain ⟨S, hcard, hS⟩ : ∃ S : Finset Nat, S.card ≤ 2 ∧ ∀ r < sb.size,
      scanned sb.ninodes disk r = false → (∀ x < r, scanned sb.ninodes disk x = true) →
      r ∈ S ∧ (scanBit sb.ninodes r).1 ∈ S := by
    by_cases hr : ∃ r < sb.size, scanned sb.ninodes disk r = false ∧
        ∀ x < r, scanned sb.ninodes disk x = true
    · obtain ⟨r, -, hr, hless⟩ := hr
      refine ⟨{r, (scanBit sb.ninodes r).1}, Finset.card_le_two, fun r' _ hr' hless' => ?_⟩
      obtain rfl := least_unique hr' hless' hr hless
      simp
    · exact ⟨∅, by simp, fun r hlt h0 hless => absurd ⟨r, hlt, h0, hless⟩ hr⟩
  have htook := balloc_took (s := s) (S := S) (E := fun e => ¬ LogStop e) hsb
    ⟨.inr rfl, .inr ⟨nofun, List.nodup_nil, ?_, ?_⟩⟩ (.inr hS) (.inl (by rintro (h | h) <;> cases h))
  swap; · lia
  swap; · show S.card + 1 < LOGSIZE; lia
  have hlaw := h.balloc s rfl b hb
  unfold wp at htook hlaw
  split at htook
  · next r s' hrun =>
    rw [hrun] at hlaw
    obtain ⟨rfl, hdisk⟩ := hlaw
    have hsame := congrFun (htook.disk.symm.trans hdisk) (bitOf sb.ninodes r).1
    have hne : (bitOf sb.ninodes r).1 ≠ (scanBit sb.ninodes r).1 :=
      (scanBit_ne (Nat.not_lt.1 hhigh)).symm
    have hdata : (bitOf sb.ninodes r).1 ≠ r := by
      have := (getSb_lt (disk 1)).2
      grind [bitOf, BBLOCK]
    rw [update_of_ne hdata, update_of_ne hne, update_of_ne hdata, update_self] at hsame
    have hset := Bytes.getBit_setBit (disk (bitOf sb.ninodes r).1) (r % BPB) (r % BPB)
    have hclear : (disk (bitOf sb.ninodes r).1).getBit (r % BPB) = false := hzero
    rw [show (bitOf sb.ninodes r).2 = r % BPB from rfl] at hsame
    rw [← hsame] at hset
    simp [hclear, s] at hset
  · next e hrun =>
    rw [hrun] at hlaw
    exact htook hlaw
end

/-- **The bitmap is one set** exactly when the least free block is below `2 ^ 31`. -/
theorem one_bitmap (disk : Nat → Block) : OneBitmap (getSb (disk 1)) disk ↔
    ∀ b, LeastFree (getSb (disk 1)) disk b → b < 2 ^ 31 := by
  refine ⟨fun h b hb => hb.low rfl h, fun h => (oneBitmap_iff rfl).2 ?_⟩
  rintro s rfl b hb
  exact balloc_low rfl hb (h b hb)

/-- A disk of `2 ^ 31 + 1` blocks with the last one free. -/
def highDisk : Nat → Block := fun x =>
  if x = 1 then putSb zeroBlock ⟨2 ^ 31 + 1, 1, 8, 10⟩
  else if x = 2 ^ 19 + 4 then zeroBlock else fun _ => 255

/-- **`balloc` does not find it where `bfree` and `mkfs` have it.** -/
theorem balloc_high_wrong : ¬ OneBitmap (getSb (highDisk 1)) highDisk := by
  have hsb : getSb (highDisk 1) = ⟨2 ^ 31 + 1, 1, 8, 10⟩ := rfl
  have hones : ∀ i, Bytes.getBit (fun _ => 255) i = true := fun i => by
    have hall : ∀ j < 8, (255 : UInt8).toBitVec.getLsbD j = true := by decide
    exact hall _ (Nat.mod_lt i (by decide))
  have hleast : LeastFree (getSb (highDisk 1)) highDisk (2 ^ 31) := by
    rw [hsb]
    refine ⟨by decide, rfl, fun x hx => ?_⟩
    rw [marked, highDisk, if_neg (by grind [bitOf, BBLOCK]), if_neg (by grind [bitOf, BBLOCK]), hones]
  exact fun h => absurd (hleast.low rfl h) (by decide)

end Dixv6.Mkfs
