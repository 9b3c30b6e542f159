import Mathlib.Data.Finset.Union
import Dixv6.Fs.Bmap

/-!
# Files as byte arrays

The loops of `readi` and `writei` cut a range of bytes at the block boundaries (`spanned_succ`).
`readi_spec` and `writei_spec` say that **reading and writing a file are reading and writing a
byte array**, through direct, indirect and doubly indirect blocks, and that a write changes no
other file.

`writeSet` holds the blocks that a write logs, the inode's own apart. It is what the room a
transaction has in the log is compared with.
-/

namespace Dixv6.Fs

open Lib Function

/-! ## The blocks of a range of bytes -/

@[simp] theorem spanned_zero (off : Nat) : spanned off 0 = 0 := rfl

/-- One turn of a loop over `n` bytes from `off` on, of which `tot` are done: `m` bytes up to the
next block boundary, after which `count` blocks are left. -/
structure Turn (off n tot count m : Nat) : Prop where
  pos : 0 < m
  le : tot + m ≤ n
  block : (off + tot) % BSIZE + m ≤ BSIZE
  rest : count = spanned (off + (tot + m)) (n - (tot + m))
  next : 0 < count → (off + (tot + m)) / BSIZE = (off + tot) / BSIZE + 1

variable {off n m : Nat}

/-- **The loops over a range of bytes cut it at the block boundaries.** -/
theorem Turn.of_spanned {tot count : Nat} (hcount : count + 1 = spanned (off + tot) (n - tot)) :
    Turn off n tot count (min (n - tot) (BSIZE - (off + tot) % BSIZE)) := by
  have hpos : 0 < n - tot := by
    by_contra h0
    rw [show n - tot = 0 by omega] at hcount
    simp at hcount
  rw [spanned, if_neg (by omega)] at hcount
  have hrest : count = spanned (off + (tot + min (n - tot) (BSIZE - (off + tot) % BSIZE)))
      (n - (tot + min (n - tot) (BSIZE - (off + tot) % BSIZE))) := by
    rw [spanned]
    simp only [BSIZE] at *
    split <;> omega
  refine ⟨?_, ?_, ?_, hrest, fun hc => ?_⟩
  · lia
  · omega
  · lia
  · simp only [BSIZE] at *; omega

/-- A range of bytes ends in its last block. -/
theorem spanned_mul_lt (h : m < spanned off n) : (off / BSIZE + m) * BSIZE < off + n := by
  simp only [spanned, BSIZE] at *
  split at h <;> omega

/-- Every byte of the range lies in one of its blocks. -/
theorem lt_spanned {o : Nat} (h1 : off ≤ o) (h2 : o < off + n) :
    o / BSIZE - off / BSIZE < spanned off n := by
  simp only [spanned, BSIZE] at *
  rw [if_neg (by omega)]
  omega

/-- The positions of the blocks that `n` bytes from `off` on lie in, and of the index blocks on
the way. -/
def span (off n : Nat) : Finset (Fin (NDIRECT + 2) × List Nat) :=
  (Finset.range (spanned off n)).biUnion fun m => chain (off / BSIZE + m)

theorem chain_subset_span (h : m < spanned off n) : chain (off / BSIZE + m) ⊆ span off n :=
  Finset.subset_biUnion_of_mem (fun m => chain (off / BSIZE + m)) (Finset.mem_range.2 h)

section
variable {g : Geo} {lim slot x bn lo : Nat} {s s' : State} {E : Stop → Prop} {S : Finset Nat}
  {T : Finset (Fin (NDIRECT + 2) × List Nat)} {w : Bytes}

/-! ## `readi` -/

/-- The file in `slot` has its block `bn`. -/
def HasBlock (g : Geo) (s : State) (slot bn : Nat) : Prop := blockAt g s slot (pos bn) ≠ none

/-- The byte of a file, through the block it is in. -/
theorem fileByte_of_block {b o : Nat} (h : blockAt g s slot (pos (o / BSIZE)) = some b) :
    fileByte g (view g s slot) s.disk (s.inode slot).inum o = s.disk b (o % BSIZE) := by
  rw [fileByte, show node g (view g s slot) s.disk ((s.inode slot).inum, _) _ = some b from h]

/-- The loop of `readi` copies the bytes of the file and changes nothing. -/
theorem readiFrom_spec :
    ∀ (count tot : Nat) (dst : Bytes), tot ≤ n → count = spanned (off + tot) (n - tot) →
      (∀ m < count, HasBlock g s slot ((off + tot) / BSIZE + m)) →
      wp (readiFrom slot count tot (off + tot) n dst) (fun res s' => s' = s ∧
        ∀ p, res p = if tot ≤ p ∧ p < n then
          fileByte g (view g s slot) s.disk (s.inode slot).inum (off + p) else dst p) E s := by
  intro count
  induction count with
  | zero =>
    intro tot dst hle hcount _
    refine ⟨rfl, fun p => (if_neg fun h => ?_).symm⟩
    have := @lt_spanned (off + tot) (n - tot) (off + p) (by omega) (by omega)
    omega
  | succ count ih =>
    intro tot dst hle hcount hhas
    obtain ⟨b, hb⟩ := Option.ne_none_iff_exists'.1 (hhas 0 (by omega))
    rw [readiFrom]
    refine wp_seq (bmap_present hb) fun c s1 h1 => ?_
    rw [h1.1, h1.2]
    simp only [readBlock, wp_bind, wp_gets]
    have hturn := Turn.of_spanned hcount
    generalize min (n - tot) (BSIZE - (off + tot) % BSIZE) = m at hturn ⊢
    have hle' := hturn.le
    have hblock := hturn.block
    rw [Nat.add_assoc]
    refine wp_post (ih (tot + m) _ hle' hturn.rest fun k hk => ?_) ?_
    · rw [hturn.next (by omega), Nat.add_assoc, Nat.add_comm 1 k]
      exact hhas (k + 1) (by omega)
    · rintro res s2 ⟨hs2, hres⟩
      refine ⟨hs2, fun p => ?_⟩
      rw [hres]
      by_cases hp1 : tot + m ≤ p ∧ p < n
      · rw [if_pos hp1, if_pos ⟨by omega, hp1.2⟩]
      · rw [if_neg hp1]
        by_cases hp2 : tot ≤ p ∧ p < n
        · -- the byte is in the block just read
          have hin : tot ≤ p ∧ p < tot + m := by omega
          have hblk : (off + p) / BSIZE = (off + tot) / BSIZE := by lia
          have hmod : (off + p) % BSIZE = (off + tot) % BSIZE + (p - tot) := by
            lia
          rw [if_pos hp2, Bytes.blit_of_mem hin, fileByte_of_block (by rw [hblk]; exact hb), hmod]
        · rw [if_neg hp2, Bytes.blit_of_outside (by omega)]

/-- The sum of two unsigned integers wraps around exactly when it is below the first. -/
theorem wraps_iff {a b : UInt32} : a + b < a ↔ 2 ^ 32 ≤ a.toNat + b.toNat := by
  have := b.toNat_lt
  rw [UInt32.lt_iff_toNat_lt, UInt32.toNat_add]
  omega

/-- Without a wrap the sum is the sum. -/
theorem toNat_add_of_not_wraps {a b : UInt32} (h : ¬ a + b < a) :
    (a + b).toNat = a.toNat + b.toNat := by
  rw [wraps_iff] at h
  rw [UInt32.toNat_add]
  omega

/-- The file in `slot` has all blocks up to its size. -/
def Whole (g : Geo) (s : State) (slot : Nat) : Prop :=
  ∀ bn, bn * BSIZE < (s.inode slot).d.size.toNat → HasBlock g s slot bn

/-- **`readi` reads the bytes up to the size** and changes nothing. -/
theorem readi_spec (hdev : (s.inode slot).d.type ≠ T_DEV)
    (hw : Whole g s slot) {off n : UInt32} {size : Nat}
    (hsize : (s.inode slot).d.size.toNat = size) : wp (readi slot off n) (fun r s' => s' = s ∧
      if size < off.toNat ∨ 2 ^ 32 ≤ off.toNat + n.toNat then r = none else
        ∃ dst, r = some (min (off.toNat + n.toNat) size - off.toNat, dst) ∧
          ∀ p < min (off.toNat + n.toNat) size - off.toNat,
            dst p = fileByte g (view g s slot) s.disk (s.inode slot).inum (off.toNat + p)) E s := by
  have hcond : (off > (s.inode slot).d.size ∨ off + n < off) ↔
      (size < off.toNat ∨ 2 ^ 32 ≤ off.toNat + n.toNat) := by
    rw [wraps_iff, gt_iff_lt, UInt32.lt_iff_toNat_lt, hsize]
  simp only [readi, wp_bind, wp_gets, if_neg hdev]
  refine wp_ite (fun h => ⟨rfl, by rw [if_pos (hcond.1 h)]⟩) fun h => ?_
  have hle : ¬ size < off.toNat := fun e => h (hcond.2 (.inl e))
  have hcount : (if off + n > (s.inode slot).d.size then (s.inode slot).d.size - off
      else n).toNat = min (off.toNat + n.toNat) size - off.toNat := by
    have hsum := toNat_add_of_not_wraps fun e => h (.inr e)
    split
    · next hgt =>
      rw [gt_iff_lt, UInt32.lt_iff_toNat_lt, hsum, hsize] at hgt
      rw [UInt32.toNat_sub_of_le _ _ (UInt32.le_iff_toNat_le.2 (by omega)), hsize]
      omega
    · next hgt =>
      rw [gt_iff_lt, UInt32.lt_iff_toNat_lt, hsum, hsize] at hgt
      omega
  simp only [wp_bind, hcount]
  generalize hcnt : min (off.toNat + n.toNat) size - off.toNat = cnt
  have hloop := @readiFrom_spec off.toNat cnt g slot s E (spanned off.toNat cnt) 0
    (fun _ => 0) (Nat.zero_le _) rfl fun m hm => hw _ ?_
  · refine wp_post hloop ?_
    rintro dst s' ⟨rfl, hdst⟩
    refine ⟨rfl, ?_⟩
    rw [if_neg fun e => h (hcond.2 e)]
    exact ⟨dst, rfl, fun p hp => by rw [hdst, if_pos ⟨Nat.zero_le _, hp⟩]⟩
  · have := spanned_mul_lt hm
    rw [Nat.add_zero]
    omega

/-! ## `writei` -/

/-- A write to one of the file's data blocks changes the bytes of that block, and no position. -/
theorem Ctx.write_leaf {b : Nat} {blk : Block} (hc : Ctx g lim slot s)
    (hb : blockAt g s slot (pos bn) = some b) (h : Logged E S b blk s s') : Grew g lim slot s s' ∧
    (∀ x π, node g (view g s' slot) s'.disk x π = node g (view g s slot) s.disk x π) ∧
    (∀ i o, fileByte g (view g s' slot) s'.disk i o =
      if i = (s.inode slot).inum ∧ o / BSIZE = bn then blk (o % BSIZE)
      else fileByte g (view g s slot) s.disk i o) ∧
    free g lim s'.disk = free g lim s.disk := by
  obtain ⟨hO, hn, hbytes, hu⟩ := hc.own.write_leaf hc.lim_le hb h.disk
  have hfront : ∀ c < g.ninodes / IPB + 3, s'.disk c = s.disk c := fun c hlt => by
    rw [h.disk, update_of_ne]
    have := (hc.own.data _ _ b hb).1
    have := g.front_lt hlt
    omega
  have hview : view g s' slot = view g s slot := by rw [view, view, h.inode, table_congr hfront]
  have hfree : free g lim s'.disk = free g lim s.disk := by
    ext c
    rw [mem_free, mem_free]
    refine and_congr_right fun hlt => ?_
    rw [hu c (Nat.lt_of_lt_of_le hlt hc.lim_le)]
  rw [hview]
  refine ⟨⟨⟨?_, hc.lim_le, hc.le_lim, ?_, ?_, ?_⟩, ?_, ?_, by rw [hfree], hfront,
    fun c hlt huc => .inl ?_, fun i _ => ?_, ⟨_, by rw [h.inode]⟩, h.devsw,
    h.log.mono (hc.own.data _ _ b hb).2.1⟩, hn, hbytes, hfree⟩
  · rw [hfront 1 g.one_lt_front]; exact hc.sb
  · rw [h.inode]; exact hc.inum
  · rw [h.inode]; exact hc.type
  · rw [hview]; exact hO
  · intro x π c hcn
    rw [hview, hn]; exact hcn
  · grind
  · rw [← hu c hlt]; exact huc
  · rw [h.inode]

/-- A budget depends on the positions and the free blocks. -/
theorem Budget.of_same (hB : Budget g lim E S x T slot s) (hR : Room E S s'.log)
    (hat : ∀ p, blockAt g s' slot p = blockAt g s slot p)
    (hfree : free g lim s'.disk = free g lim s.disk) : Budget g lim E S x T slot s' := by
  have hmiss : missing g s' slot T = missing g s slot T :=
    Finset.filter_congr fun p _ => by rw [hat]
  refine ⟨hR, by rw [hmiss, hfree]; exact hB.enough, ?_⟩
  rw [hmiss, Reserve, hfree]
  simp only [hat]
  exact hB.fits

/-- What writing the bytes `[lo, hi)` of a file does: byte `o` becomes `w o`. -/
structure Wrote (g : Geo) (lim : Nat) (E : Stop → Prop) (S : Finset Nat) (x : Nat)
    (T : Finset (Fin (NDIRECT + 2) × List Nat)) (slot lo hi : Nat) (w : Bytes) (s s' : State) :
    Prop where
  grew : Grew g lim slot s s'
  bytes : ∀ i o, fileByte g (view g s' slot) s'.disk i o =
    if i = (s.inode slot).inum ∧ lo ≤ o ∧ o < hi then w o
    else fileByte g (view g s slot) s.disk i o
  has : ∀ o, lo ≤ o → o < hi → HasBlock g s' slot (o / BSIZE)
  budget : Budget g lim E S x T slot s'
  takes : Takes (free g lim s.disk) (free g lim s'.disk)
  spent : (free g lim s.disk).card + (missing g s' slot T).card =
    (free g lim s'.disk).card + (missing g s slot T).card
  still : missing g s slot T = ∅ → s'.inode = s.inode ∧ missing g s' slot T = ∅

/-- A block that a file has stays. -/
theorem Grew.hasBlock (h : Grew g lim slot s s') (hb : HasBlock g s slot bn) :
    HasBlock g s' slot bn := by
  obtain ⟨b, hb⟩ := Option.ne_none_iff_exists'.1 hb
  have := h.keep _ _ b hb
  rw [HasBlock, blockAt, h.inum, this]
  simp

theorem Wrote.trans {s1 s2 : State} {mid hi : Nat} (hlm : lo ≤ mid) (hmh : mid ≤ hi)
    (h : Wrote g lim E S x T slot lo mid w s s1) (h' : Wrote g lim E S x T slot mid hi w s1 s2) :
    Wrote g lim E S x T slot lo hi w s s2 where
  grew := h.grew.trans h'.grew
  bytes i o := by
    rw [h'.bytes, h.bytes, h.grew.inum]
    by_cases h1 : i = (s.inode slot).inum ∧ mid ≤ o ∧ o < hi
    · rw [if_pos h1, if_pos ⟨h1.1, by omega, h1.2.2⟩]
    · rw [if_neg h1]
      by_cases h2 : i = (s.inode slot).inum ∧ lo ≤ o ∧ o < mid
      · rw [if_pos h2, if_pos ⟨h2.1, h2.2.1, by omega⟩]
      · grind
  has o h1 h2 := by
    rcases Nat.lt_or_ge o mid with ho | ho
    · exact h'.grew.hasBlock (h.has o h1 ho)
    · exact h'.has o ho h2
  budget := h'.budget
  takes := h.takes.trans h'.takes
  spent := by
    have h1 := h.spent
    have h2 := h'.spent
    omega
  still he := ⟨((h'.still (h.still he).2).1).trans (h.still he).1, (h'.still (h.still he).2).2⟩

/-- Nothing has been written yet. -/
theorem Wrote.refl (hc : Ctx g lim slot s)
    (hB : Budget g lim E S x T slot s) : Wrote g lim E S x T slot lo lo w s s where
  grew := .refl hc
  bytes i o := by rw [if_neg (by omega)]
  has o h1 h2 := by omega
  budget := hB
  takes := .refl _
  spent := rfl
  still he := ⟨rfl, he⟩

/-- **One turn of the loop of `writei`**: the bytes `[lo, hi)` of block `bn`. -/
theorem writei_turn {hi : Nat} (hc : Ctx g lim slot s)
    (hB : Budget g lim E S x T slot s) (hT : chain bn ⊆ T) (hbn : bn < MAXFILE)
    (hlo : lo / BSIZE = bn) (hhi : lo % BSIZE + m ≤ BSIZE) (hm : hi = lo + m) : wp (do
      let b ← bmap slot bn
      let blk ← readBlock b
      log_write b (blk.blit (lo % BSIZE) m fun p => w (lo + p)))
      (fun _ s' => Wrote g lim E S x T slot lo hi w s s') E s := by
  refine wp_seq (bmap_spec hc hB hT hbn) fun b s1 h₁ => ?_
  have hpT : pos bn ∈ T := hT (mem_chain.2 ⟨rfl, List.suffix_refl _⟩)
  have hbS : E .tooBig ∨ b ∈ S := h₁.budget.fits.imp id fun h =>
    h.1 _ hpT b h₁.found (.inl (Nat.le_of_eq (pos_length bn).symm))
  refine wp_post (log_write_spec h₁.budget.room hbS) fun _ s2 h₂ => ?_
  obtain ⟨hg, hn, hbytes, hfree⟩ := h₁.grew.ctx.write_leaf h₁.found h₂
  have hat : ∀ p, blockAt g s2 slot p = blockAt g s1 slot p := fun p => by
    rw [blockAt, hn, hg.inum]
  have hmiss : missing g s2 slot T = missing g s1 slot T :=
    Finset.filter_congr fun p _ => by rw [hat]
  refine ⟨h₁.grew.trans hg, fun i o => ?_, fun o h1 h2 => ?_, h₁.budget.of_same h₂.room hat hfree,
    by rw [hfree]; exact h₁.takes, by rw [hfree, hmiss]; exact h₁.spent, fun he => ?_⟩
  · rw [hbytes, h₁.bytes, h₁.grew.inum]
    by_cases hi' : i = (s.inode slot).inum ∧ o / BSIZE = bn
    · obtain ⟨rfl, ho⟩ := hi'
      rw [if_pos ⟨rfl, ho⟩]
      by_cases hin : lo ≤ o ∧ o < hi
      · rw [if_pos ⟨rfl, hin⟩, Bytes.blit_of_mem (by lia)]
        congr 1
        lia
      · rw [if_neg fun e => hin e.2, Bytes.blit_of_outside (by lia),
          ← h₁.bytes, ← h₁.grew.inum, fileByte_of_block (by rw [ho]; exact h₁.found)]
    · grind
  · have ho : o / BSIZE = bn := by lia
    rw [ho, HasBlock, hat, h₁.found]
    simp
  · have hs := h₁.still he
    rw [hs] at h₂ hmiss
    exact ⟨h₂.inode, hmiss.trans he⟩

/-- The loop of `writei` replaces the bytes and ends behind them. -/
theorem writeiFrom_spec {src : Bytes} (hmax : off + n ≤ MAXFILE * BSIZE) :
    ∀ (count tot : Nat) (s : State), tot ≤ n → count = spanned (off + tot) (n - tot) →
      (∀ m < count, chain ((off + tot) / BSIZE + m) ⊆ T) → Ctx g lim slot s →
      Budget g lim E S x T slot s →
      wp (writeiFrom slot src count tot (off + tot) n) (fun off' s' => off' = off + n ∧
        Wrote g lim E S x T slot (off + tot) (off + n) (fun o => src (o - off)) s s') E s := by
  intro count
  induction count with
  | zero =>
    intro tot s hle hcount _ hc hB
    have htot : tot = n := by
      by_contra hne
      have := @lt_spanned (off + tot) (n - tot) (off + tot) (by omega) (by omega)
      omega
    rw [htot]
    exact ⟨rfl, .refl hc hB⟩
  | succ count ih =>
    intro tot s hle hcount hT hc hB
    rw [writeiFrom]
    have hturn := Turn.of_spanned hcount
    generalize min (n - tot) (BSIZE - (off + tot) % BSIZE) = m at hturn ⊢
    have hle' := hturn.le
    have hpos := hturn.pos
    have hbn : (off + tot) / BSIZE < MAXFILE := by lia
    have hsrc : (fun p => src (tot + p)) = fun p => src (off + tot + p - off) := by
      funext p
      congr 1
      omega
    have hone := writei_turn (w := fun o => src (o - off)) hc hB (hT 0 (by omega)) hbn rfl
      hturn.block (rfl : off + tot + m = off + tot + m)
    simp only [wp_bind, ← hsrc] at hone ⊢
    refine wp_post hone fun b s1 h1 => wp_post h1 fun blk s2 h2 => wp_post h2 fun _ s3 h3 => ?_
    rw [Nat.add_assoc]
    refine wp_post (ih (tot + m) s3 hle' hturn.rest (fun k hk => ?_) h3.grew.ctx h3.budget) ?_
    · rw [hturn.next (by omega), Nat.add_assoc, Nat.add_comm 1 k]
      exact hT (k + 1) (by omega)
    · rintro off' s4 ⟨hoff, h4⟩
      refine ⟨hoff, Wrote.trans (by omega) (by omega) h3 ?_⟩
      rw [Nat.add_assoc]
      exact h4

/-- The inode's block holds the inodes it holds, with the one replaced. -/
theorem table_putDinode {disk : Nat → Block} {i : Nat} {d : Dinode} (hi : i < g.ninodes) :
    table g (update disk (IBLOCK i) (putDinode (disk (IBLOCK i)) i d)) =
      update (table g disk) i d := by
  funext j
  by_cases hj : j = i
  · subst hj
    simp [table, hi, dinodeAt, getDinode_putDinode]
  · rw [update_of_ne hj, table, table]
    split
    · rw [dinodeAt, dinodeAt]
      by_cases hb : IBLOCK j = IBLOCK i
      · rw [hb, update_self, getDinode_putDinode_ne]
        grind [IBLOCK]
      · rw [update_of_ne hb]
    · rfl

/-- The inode `d` has been written to the disk. -/
abbrev Updated (E : Stop → Prop) (S : Finset Nat) (i : Nat) (d : Dinode) (s s' : State) : Prop :=
  Logged (After E S (IBLOCK i)) S (IBLOCK i) (putDinode (s.disk (IBLOCK i)) i d) s s'

/-- **`iupdate` writes the cached inode back.** -/
theorem iupdate_spec (hR : Room E S s.log) :
    wp (iupdate slot) (fun _ s' => Updated E S (s.inode slot).inum (s.inode slot).d s s') E s := by
  exact log_write_any hR

/-- `writei` refuses: the offset is past the end, or the end of the write wraps around or is past
what a file can hold. -/
def Refused (size off n : Nat) : Prop :=
  size < off ∨ 2 ^ 32 ≤ off + n ∨ MAXFILE * BSIZE < off + n

instance {size off n : Nat} : Decidable (Refused size off n) :=
  inferInstanceAs (Decidable (_ ∨ _ ∨ _))

/-- What a write of the bytes `[lo, hi)` leaves behind. -/
structure Written (g : Geo) (lim : Nat) (E : Stop → Prop) (S : Finset Nat) (x slot lo hi : Nat)
    (w : Bytes) (s s' : State) : Prop where
  ctx : Ctx g lim slot s'
  whole : Whole g s' slot
  keep : ∀ x π b, node g (view g s slot) s.disk x π = some b →
    node g (view g s' slot) s'.disk x π = some b
  fresh : ∀ x π b, node g (view g s' slot) s'.disk x π = some b →
    node g (view g s slot) s.disk x π = some b ∨
      x.1 = (s.inode slot).inum ∧ b ∈ free g lim s.disk
  bytes : ∀ i o, fileByte g (view g s' slot) s'.disk i o =
    if i = (s.inode slot).inum ∧ lo ≤ o ∧ o < hi then w o
    else fileByte g (view g s slot) s.disk i o
  new : ∀ b < g.size, used g s'.disk b = true → used g s.disk b = true ∨
    (∃ x π, node g (view g s' slot) s'.disk x π = some b) ∧
    b ∈ s'.log.lh ∧ BBLOCK b g.ninodes ∈ s'.log.lh
  table : ∀ i ≠ (s.inode slot).inum, table g s'.disk i = table g s.disk i
  sync : Fs.table g s.disk (s.inode slot).inum = (s.inode slot).d →
    Fs.table g s'.disk (s.inode slot).inum = (s'.inode slot).d
  inode : ∀ i ≠ slot, s'.inode i = s.inode i
  self : ∃ a, s'.inode slot = { s.inode slot with d := { (s.inode slot).d with
    addrs := a, size := UInt32.ofNat (max (s.inode slot).d.size.toNat hi) } }
  devsw : s'.devsw = s.devsw
  log : LogSame lim s.log s'.log
  room : Room (After E S (IBLOCK (s.inode slot).inum)) S s'.log
  left : lim = g.size ∧ E .outOfBlocks ∧ E .tooBig ∨ x ≤ (free g lim s'.disk).card
  reserve : E .tooBig ∨ Reserve g lim S x s'.disk
  takes : Takes (free g lim s.disk) (free g lim s'.disk)
  spent : (free g lim s.disk).card =
    (free g lim s'.disk).card + (missing g s slot (span lo (hi - lo))).card

/-- Nothing is missing in a range whose blocks are there. -/
theorem missing_eq_empty (h : ∀ m < spanned off n, HasBlock g s slot (off / BSIZE + m)) :
    missing g s slot (span off n) = ∅ := by
  refine Finset.filter_eq_empty_iff.2 fun p hp => ?_
  obtain ⟨m, hm, hpm⟩ := Finset.mem_biUnion.1 hp
  obtain ⟨h1, h2⟩ := mem_chain.1 hpm
  rw [blockAt, h1]
  exact Shape.node_suffix h2 (h m (Finset.mem_range.1 hm))

/-- Nothing is missing below the size. -/
theorem missing_of_whole (hw : Whole g s slot) (h : off + n ≤ (s.inode slot).d.size.toNat) :
    missing g s slot (span off n) = ∅ := by
  refine missing_eq_empty fun m hm => hw _ ?_
  have := spanned_mul_lt hm
  omega

/-- After a write nothing is missing in its range. -/
theorem Wrote.missing (h : Wrote g lim E S x (span off n) slot off (off + n) w s s') :
    Fs.missing g s' slot (span off n) = ∅ := by
  refine missing_eq_empty fun m hm => ?_
  -- the block holds a byte of the range: its first one, or the first of the range
  have hlt := spanned_mul_lt hm
  have := h.has (max off ((off / BSIZE + m) * BSIZE)) (by omega) (by
    simp only [spanned] at hm
    split at hm <;> omega)
  have hdiv : max off ((off / BSIZE + m) * BSIZE) / BSIZE = off / BSIZE + m := by
    lia
  rwa [hdiv] at this

/-- What a write leaves of its budget. -/
theorem Wrote.purse (h : Wrote g lim E S x (span off n) slot off (off + n) w s s') :
    (lim = g.size ∧ E .outOfBlocks ∧ E .tooBig ∨ x ≤ (free g lim s'.disk).card) ∧
    (E .tooBig ∨ Reserve g lim S x s'.disk) ∧
    (free g lim s.disk).card =
      (free g lim s'.disk).card + (Fs.missing g s slot (span off (off + n - off))).card := by
  have h1 := h.budget.enough
  have h2 := h.spent
  have h3 := h.budget.fits
  rw [h.missing] at h1 h2 h3
  simp only [Finset.card_empty, Nat.zero_add] at h1 h2 h3
  refine ⟨h1, h3.imp id And.right, ?_⟩
  rw [Nat.add_sub_cancel_left]
  omega

/-- A write that does not make the file longer. -/
theorem Wrote.written (hw : Whole g s slot)
    (h : Wrote g lim E S x (span off n) slot off (off + n) w s s')
    (hle : off + n ≤ (s.inode slot).d.size.toNat) :
    Written g lim E S x slot off (off + n) w s s' := by
  obtain ⟨hinode, -⟩ := h.still (missing_of_whole hw hle)
  have htbl : table g s'.disk = table g s.disk := table_congr h.grew.front
  refine ⟨h.grew.ctx, fun bn hbn => h.grew.hasBlock (hw bn (by rw [← hinode]; exact hbn)),
    h.grew.keep, h.grew.fresh, h.bytes, h.grew.new, fun i _ => by rw [htbl], fun hs => ?_, h.grew.inode, ?_,
    h.grew.devsw, h.grew.log, ⟨h.budget.room.1.imp .inl id, ?_⟩, h.purse.1, h.purse.2.1, h.takes,
    h.purse.2.2⟩
  · rw [htbl, hs, hinode]
  · refine ⟨(s.inode slot).d.addrs, ?_⟩
    rw [hinode, Nat.max_eq_left hle, UInt32.ofNat_toNat]
  · exact h.budget.room.2.imp .inl id

/-- A write that makes the file longer: the new size, and the inode written back. -/
theorem Wrote.written_longer {s1 s2 : State} (hw : Whole g s slot)
    (hoff : off ≤ (s.inode slot).d.size.toNat)
    (h : Wrote g lim E S x (span off n) slot off (off + n) w s s1)
    (hlt : (s.inode slot).d.size.toNat < off + n) (h32 : off + n < 2 ^ 32)
    (hs2 : s2 = { s1 with inode := update s1.inode slot { s1.inode slot with
      d := { (s1.inode slot).d with size := UInt32.ofNat (off + n) } } })
    (h' : Updated E S (s2.inode slot).inum (s2.inode slot).d s2 s') :
    Written g lim E S x slot off (off + n) w s s' := by
  have hc := h.grew.ctx
  have hself : s2.inode slot = { s1.inode slot with
      d := { (s1.inode slot).d with size := UInt32.ofNat (off + n) } } := by rw [hs2]; simp
  have hdisk : s2.disk = s1.disk := by rw [hs2]
  have hinum : (s2.inode slot).inum = (s.inode slot).inum := by rw [hself]; exact h.grew.inum
  have hlt' : (s2.inode slot).inum < g.ninodes := by rw [hself]; exact hc.inum
  -- the disk's inodes are now what the view says
  have htbl : table g s'.disk = view g s2 slot := by
    rw [h'.disk, table_putDinode hlt', view]
  have hview : view g s' slot = view g s2 slot := by
    rw [view, h'.inode, htbl, view, update_idem]
  have hroot : root g (view g s2 slot) = root g (view g s1 slot) := by
    refine root_congr fun j => ?_
    rw [view, view, hself, hdisk]
    by_cases hj : j = (s1.inode slot).inum
    · subst hj; simp
    · simp [update_of_ne hj]
  obtain ⟨hn2, hb2⟩ := @node_eq_of_same _ _ _ s1.disk s1.disk hroot
    fun _ _ _ _ => rfl
  have hO2 : Own g lim (view g s2 slot) s2.disk := by
    rw [hdisk]
    exact hc.own.of_node_eq hn2 fun _ _ hu => hu
  obtain ⟨hn, hbytes, hused, hsb⟩ := hO2.write_iblock hlt' h'.disk
  have hnode : ∀ x π, node g (view g s' slot) s'.disk x π =
      node g (view g s1 slot) s1.disk x π := fun x π => by rw [hview, hn, hdisk, hn2]
  have hinode : s'.inode = s2.inode := h'.inode
  have hat : ∀ p, blockAt g s' slot p = blockAt g s1 slot p := fun p => by
    rw [blockAt, hnode, hinode, hinum, blockAt, h.grew.inum]
  obtain ⟨a, ha⟩ := h.grew.self
  have hfree : free g lim s'.disk = free g lim s1.disk :=
    Finset.filter_congr fun c _ => by rw [hused, hdisk]
  refine ⟨⟨?_, hc.lim_le, hc.le_lim, ?_, ?_, ?_⟩, fun bn hbn => ?_, ?_, ?_, ?_, ?_,
    fun i hi => ?_, fun _ => ?_, fun i hi => ?_, ⟨a, ?_⟩, ?_, ?_, ?_, ?_, ?_, ?_, ?_⟩
  · rw [hsb, hdisk]; exact hc.sb
  · rw [hinode]; exact hlt'
  · rw [hinode, hself]; exact hc.type
  · rw [hview]
    exact hO2.of_node_eq hn fun c _ hu => by rw [hused]; exact hu
  · -- below the old size the blocks were there, above it they have been written
    rw [hinode, hself, UInt32.toNat_ofNat_of_lt' h32] at hbn
    rw [HasBlock, hat]
    by_cases hbn' : bn * BSIZE < (s.inode slot).d.size.toNat
    · exact h.grew.hasBlock (hw bn hbn')
    · have := h.has (bn * BSIZE) (by omega) hbn
      rwa [Nat.mul_div_cancel _ (by decide)] at this
  · intro x π b hb
    rw [hnode]
    exact h.grew.keep x π b hb
  · intro x π b hb
    rw [hnode] at hb
    exact h.grew.fresh x π b hb
  · intro i o
    rw [hview, hbytes, hdisk, hb2, h.bytes]
  · intro b hb hu
    rw [hused, hdisk] at hu
    refine (h.grew.new b hb hu).imp id ?_
    rintro ⟨⟨x, π, hx⟩, hl, hl'⟩
    have hkeep := h'.log.keep
    rw [hs2] at hkeep
    exact ⟨⟨x, π, by rw [hnode, hx]⟩, hkeep _ hl, hkeep _ hl'⟩
  · rw [htbl, view, hinum, update_of_ne hi, hdisk, table_congr h.grew.front]
  · rw [htbl, view, hinum, update_self, hinode]
  · rw [hinode, hs2]
    exact (update_of_ne hi _ _).trans (h.grew.inode i hi)
  · rw [hinode, hself, ha, Nat.max_eq_right (by omega)]
  · rw [h'.devsw, hs2]; exact h.grew.devsw
  · have h1 := h'.log
    have h2 := g.front_lt (g.iblock_lt hlt')
    have h3 := hc.le_lim
    rw [hs2] at h1
    exact h.grew.log.trans (h1.mono (by rw [hs2] at h2; omega))
  · rw [← hinum]; exact h'.room
  · rw [hfree]; exact h.purse.1
  · rw [Reserve, hfree]; exact h.purse.2.1
  · rw [hfree]; exact h.takes
  · rw [hfree]; exact h.purse.2.2

/-- **`writei` replaces the bytes of the file**, and changes no other. -/
theorem writei_spec (hc : Ctx g lim slot s) (hdev : (s.inode slot).d.type ≠ T_DEV)
    (hw : Whole g s slot) {off n : UInt32} {src : Bytes} {size : Nat}
    (hsize : (s.inode slot).d.size.toNat = size) (hB : ¬ Refused size off.toNat n.toNat →
      Budget g lim E S x (span off.toNat n.toNat) slot s) : wp (writei slot src off n) (fun r s' =>
      if Refused size off.toNat n.toNat then r = none ∧ s' = s else
        r = some n.toNat ∧ Written g lim E S x slot off.toNat (off.toNat + n.toNat)
          (fun o => src (o - off.toNat)) s s') E s := by
  simp only [writei, wp_bind, wp_gets, if_neg hdev]
  refine wp_ite (fun h => ?_) fun h => wp_ite (fun h' => ?_) fun h' => ?_
  · rw [wraps_iff, gt_iff_lt, UInt32.lt_iff_toNat_lt, hsize] at h
    have hr : Refused size off.toNat n.toNat := h.imp id .inl
    simp only [if_pos hr]
    exact ⟨rfl, rfl⟩
  · have hsum := toNat_add_of_not_wraps fun e => h (.inr e)
    rw [gt_iff_lt, UInt32.lt_iff_toNat_lt, hsum,
      UInt32.toNat_ofNat_of_lt' (by simp only [MAXFILE, BSIZE]; decide)] at h'
    have hr : Refused size off.toNat n.toNat := .inr (.inr h')
    simp only [if_pos hr]
    exact ⟨rfl, rfl⟩
  · have hsum := toNat_add_of_not_wraps fun e => h (.inr e)
    rw [gt_iff_lt, UInt32.lt_iff_toNat_lt, hsum,
      UInt32.toNat_ofNat_of_lt' (by simp only [MAXFILE, BSIZE]; decide)] at h'
    rw [wraps_iff, gt_iff_lt, UInt32.lt_iff_toNat_lt, hsize, not_or] at h
    have hr : ¬ Refused size off.toNat n.toNat := by
      rintro (h1 | h1 | h1)
      · exact h.1 h1
      · exact h.2 h1
      · exact h' h1
    simp only [if_neg hr, wp_bind]
    have hloop := @writeiFrom_spec _ _ _ _ _ _ _ _ _ src (Nat.le_of_not_lt h') (spanned off.toNat n.toNat) 0 s
      (Nat.zero_le _) rfl (fun m hm => chain_subset_span hm) hc (hB hr)
    refine wp_post hloop fun off' s1 h₁ => ?_
    obtain ⟨rfl, h₁⟩ := h₁
    refine wp_ite (fun hl => ?_) fun hl => ⟨rfl, h₁.written hw ?_⟩
    · simp only [setInode, wp_bind, wp_modify]
      generalize hs2 : ({ s1 with inode := _ } : State) = s2
      refine wp_post (iupdate_spec (S := S) ?_) fun _ s' h2 => ⟨rfl, ?_⟩
      · rw [← hs2]; exact h₁.budget.room
      · exact h₁.written_longer hw (by omega) hl.2 (by omega) hs2.symm h2
    · -- an empty write ends where it starts
      grind [gt_iff_lt, UInt32.lt_iff_toNat_lt, UInt32.toNat_zero]

end

end Dixv6.Fs
