import Dixv6.Fs.Alloc

/-!
# Mapping a file's blocks

While a file is being written its block numbers in the inode cache run ahead of the disk: `view`
is the inode table with the cached inode in place of the one on the disk. `Ctx` is the state in
which `bmap` runs, and `Grew` is all that it may change.

`Budget` counts what a write may use: `T` holds the positions it may touch, at most as many of
which may be missing as there are free blocks, and every block it logs lies in `S`. `bmap_spec`
says that **`bmap` finds or makes the block without changing a byte of any file**.
-/

namespace Dixv6.Fs

open Lib Function

/-! ## The state a file is written in -/

/-- The inode table of the disk. -/
def table (g : Geo) (disk : Nat → Block) (i : Nat) : Dinode :=
  if i < g.ninodes then dinodeAt disk i else Dinode.zero

/-- The inode table with the cached inode in `slot` in its place. -/
def view (g : Geo) (s : State) (slot : Nat) : Nat → Dinode :=
  update (table g s.disk) (s.inode slot).inum (s.inode slot).d

/-- The block at a position of the file in `slot`. -/
abbrev blockAt (g : Geo) (s : State) (slot : Nat) (p : Fin (NDIRECT + 2) × List Nat) :
    Option Nat := node g (view g s slot) s.disk ((s.inode slot).inum, p.1) p.2

/-- A file is worked on through `slot`: the super block is in place, the inode is allocated, and
its blocks and those of all others are owned once. -/
structure Ctx (g : Geo) (lim slot : Nat) (s : State) : Prop where
  sb : getSb (s.disk 1) = g.toSuperblock
  lim_le : lim ≤ g.size
  le_lim : g.dstart ≤ lim
  inum : (s.inode slot).inum < g.ninodes
  type : (s.inode slot).d.type ≠ 0
  own : Own g lim (view g s slot) s.disk

/-- Blocks below the log are blocks of the disk. -/
theorem Ctx.wholeDisk {g : Geo} {slot : Nat} {s : State} (h : Ctx g g.logstart slot s) :
    Ctx g g.size slot s := by
  have hle := g.logstart_le
  have hlt := g.dstart_lt
  refine ⟨h.sb, Nat.le_refl _, by omega, h.inum, h.type, ⟨h.own.distinct, fun x π b hb => ?_,
    h.own.area⟩⟩
  obtain ⟨h1, h2, h3⟩ := h.own.data x π b hb
  exact ⟨h1, by omega, h3⟩

/-- What growing a file changes besides bytes: blocks are added to it, and nothing else happens. -/
structure Grew (g : Geo) (lim slot : Nat) (s s' : State) : Prop where
  ctx : Ctx g lim slot s'
  keep : ∀ x π b, node g (view g s slot) s.disk x π = some b →
    node g (view g s' slot) s'.disk x π = some b
  fresh : ∀ x π b, node g (view g s' slot) s'.disk x π = some b →
    node g (view g s slot) s.disk x π = some b ∨
      x.1 = (s.inode slot).inum ∧ b ∈ free g lim s.disk
  shrink : free g lim s'.disk ⊆ free g lim s.disk
  front : ∀ b < g.ninodes / IPB + 3, s'.disk b = s.disk b
  new : ∀ b < g.size, used g s'.disk b = true → used g s.disk b = true ∨
    (∃ x π, node g (view g s' slot) s'.disk x π = some b) ∧
    b ∈ s'.log.lh ∧ BBLOCK b g.ninodes ∈ s'.log.lh
  inode : ∀ i ≠ slot, s'.inode i = s.inode i
  self : ∃ a, s'.inode slot = { s.inode slot with d := { (s.inode slot).d with addrs := a } }
  devsw : s'.devsw = s.devsw
  log : LogSame lim s.log s'.log

variable {s1 : State} {k : Fin (NDIRECT + 2)}

section
variable {g : Geo} {lim slot : Nat} {s s' : State}

theorem Grew.refl (h : Ctx g lim slot s) : Grew g lim slot s s where
  ctx := h
  keep _ _ _ h := h
  fresh _ _ _ h := .inl h
  shrink := Finset.Subset.refl _
  front _ _ := rfl
  new _ _ h := .inl h
  inode _ _ := rfl
  self := ⟨_, rfl⟩
  devsw := rfl
  log := .refl _

theorem Grew.trans {s2 : State} (h : Grew g lim slot s s1) (h' : Grew g lim slot s1 s2) :
    Grew g lim slot s s2 where
  ctx := h'.ctx
  keep x π b hb := h'.keep x π b (h.keep x π b hb)
  fresh x π b hb := by
    obtain ⟨a, ha⟩ := h.self
    rcases h'.fresh x π b hb with hb | ⟨hx, hb⟩
    · exact h.fresh x π b hb
    · exact .inr ⟨by rw [hx, ha], h.shrink hb⟩
  shrink := h'.shrink.trans h.shrink
  front b hb := (h'.front b hb).trans (h.front b hb)
  new b hb hu := by
    rcases h'.new b hb hu with hu | hn
    · rcases h.new b hb hu with hu | ⟨⟨x, π, hn⟩, hl, hl'⟩
      · exact .inl hu
      · exact .inr ⟨⟨x, π, h'.keep x π b hn⟩, h'.log.keep _ hl, h'.log.keep _ hl'⟩
    · exact .inr hn
  inode i hi := (h'.inode i hi).trans (h.inode i hi)
  self := by
    obtain ⟨a, ha⟩ := h.self
    obtain ⟨a', ha'⟩ := h'.self
    exact ⟨a', by rw [ha', ha]⟩
  devsw := h'.devsw.trans h.devsw
  log := h.log.trans h'.log

/-- The inode number does not change. -/
theorem Grew.inum (h : Grew g lim slot s s') : (s'.inode slot).inum = (s.inode slot).inum := by
  obtain ⟨a, ha⟩ := h.self
  rw [ha]

/-- The table depends on the inode blocks only. -/
theorem table_congr {disk disk' : Nat → Block}
    (h : ∀ b < g.ninodes / IPB + 3, disk' b = disk b) : table g disk' = table g disk := by
  funext i
  unfold table
  split
  · next hi => rw [dinodeAt, dinodeAt, h _ (g.iblock_lt hi)]
  · rfl

/-- Hanging a block into the inode and hanging it into the view are the same. -/
theorem view_setAddr {b : Nat} (hfront : ∀ b < g.ninodes / IPB + 3, s'.disk b = s.disk b)
    (hself : s'.inode slot = { s.inode slot with
      d := { (s.inode slot).d with
        addrs := update (s.inode slot).d.addrs k (UInt32.ofNat b) } }) :
    view g s' slot = withAddr (view g s slot) (s.inode slot).inum k b := by
  rw [view, withAddr, view, hself, table_congr hfront, update_self, update_idem]

end

/-! ## The budget of a write -/

/-- The positions of `T` that the file does not have. -/
def missing (g : Geo) (s : State) (slot : Nat) (T : Finset (Fin (NDIRECT + 2) × List Nat)) :
    Finset (Fin (NDIRECT + 2) × List Nat) := T.filter fun p => blockAt g s slot p = none

/-- The block at `p` will be written: it is a data block, or an index block with an entry to
fill. -/
def Touched (M : Finset (Fin (NDIRECT + 2) × List Nat)) (p : Fin (NDIRECT + 2) × List Nat) :
    Prop := level p.1 ≤ p.2.length ∨ ∃ j, (p.1, j :: p.2) ∈ M

/-- The first `n` free blocks and their bitmap blocks are in `S`. -/
def Reserve (g : Geo) (lim : Nat) (S : Finset Nat) (n : Nat) (disk : Nat → Block) : Prop :=
  ∀ b ∈ free g lim disk, ((free g lim disk).filter (· < b)).card < n →
    b ∈ S ∧ BBLOCK b g.ninodes ∈ S

/-- What a write to the positions of `T` may use, with `x` blocks to be kept for later. Where all
blocks of the disk may be used, `balloc` may also run out of them. -/
structure Budget (g : Geo) (lim : Nat) (E : Stop → Prop) (S : Finset Nat) (x : Nat)
    (T : Finset (Fin (NDIRECT + 2) × List Nat)) (slot : Nat) (s : State) : Prop where
  room : Room E S s.log
  enough : lim = g.size ∧ E .outOfBlocks ∧ E .tooBig ∨
    (missing g s slot T).card + x ≤ (free g lim s.disk).card
  fits : E .tooBig ∨
    (∀ p ∈ T, ∀ b, blockAt g s slot p = some b → Touched (missing g s slot T) p → b ∈ S) ∧
    Reserve g lim S ((missing g s slot T).card + x) s.disk

/-- Blocks have been taken from the free ones, the lowest first. -/
structure Takes (F F' : Finset Nat) : Prop where
  sub : F' ⊆ F
  low : ∀ b ∈ F, b ∉ F' → ∀ c ∈ F', b < c

theorem Takes.refl (F : Finset Nat) : Takes F F := ⟨Finset.Subset.refl _, fun _ h h' => (h' h).elim⟩

theorem Takes.trans {F F1 F2 : Finset Nat} (h : Takes F F1) (h' : Takes F1 F2) : Takes F F2 := by
  refine ⟨h'.sub.trans h.sub, fun b hb hb2 c hc => ?_⟩
  by_cases hb1 : b ∈ F1
  · exact h'.low b hb1 hb2 c hc
  · exact h.low b hb hb1 c (h'.sub hc)

theorem Takes.erase {F : Finset Nat} {b : Nat} (h : ∀ c ∈ F, b ≤ c) : Takes F (F.erase b) := by
  refine ⟨Finset.erase_subset _ _, fun c hc hc' d hd => ?_⟩
  have hcb : c = b := by grind
  obtain ⟨hdb, hd⟩ := Finset.mem_erase.1 hd
  have := h d hd
  omega

section
variable {g : Geo} {lim slot b x bn : Nat} {s s' : State} {E : Stop → Prop} {S : Finset Nat}
  {T : Finset (Fin (NDIRECT + 2) × List Nat)} {p : Fin (NDIRECT + 2) × List Nat}

/-- A missing position leaves a free block for it, or `balloc` runs out of blocks. -/
theorem Budget.exists_free (hB : Budget g lim E S x T slot s) (hp : p ∈ T)
    (hnone : blockAt g s slot p = none) :
    lim = g.size ∧ E .outOfBlocks ∧ E .tooBig ∨ ∃ x, x ∈ free g lim s.disk := by
  refine hB.enough.imp id fun henough => ?_
  have hpos : 0 < (missing g s slot T).card :=
    Finset.card_pos.2 ⟨p, Finset.mem_filter.2 ⟨hp, hnone⟩⟩
  exact Finset.card_pos.1 (Nat.lt_of_lt_of_le (Nat.lt_add_right x hpos) henough)

/-- The block handed out next is reserved for a missing position. -/
theorem Budget.leastIn (hB : Budget g lim E S x T slot s) (hp : p ∈ T)
    (hnone : blockAt g s slot p = none) : E .tooBig ∨ LeastIn g s.disk S := by
  rcases hB.exists_free hp hnone with h | ⟨y, hy⟩
  · exact .inl h.2.2
  refine hB.fits.imp id fun ⟨_, hres⟩ b _ hfree hleast => ?_
  have hby : b ≤ y := by
    by_contra hlt
    have := hleast y (by omega)
    rw [(mem_free.1 hy).2] at this; cases this
  have hb : b ∈ free g lim s.disk := mem_free.2 ⟨by have := (mem_free.1 hy).1; omega, hfree⟩
  refine hres b hb ?_
  have hzero : (free g lim s.disk).filter (· < b) = ∅ := by
    refine Finset.filter_eq_empty_iff.2 fun y hy hyb => ?_
    have := hleast y hyb
    rw [(mem_free.1 hy).2] at this; cases this
  rw [hzero]
  exact Nat.lt_add_right x (Finset.card_pos.2 ⟨p, Finset.mem_filter.2 ⟨hp, hnone⟩⟩)

/-- What is missing when a position has been filled. -/
theorem missing_fill (hn : ∀ q, blockAt g s' slot q = if q = p then some b else blockAt g s slot q) :
    missing g s' slot T = (missing g s slot T).erase p := by
  ext q
  simp only [missing, Finset.mem_filter, Finset.mem_erase]
  rw [hn]
  by_cases hq : q = p
  · simp [hq]
  · simp [hq]

/-- Filling a missing position with the lowest free block keeps the budget. -/
theorem Budget.fill (hB : Budget g lim E S x T slot s) (hp : p ∈ T)
    (hnone : blockAt g s slot p = none) (hb : b ∈ free g lim s.disk)
    (hleast : ∀ x < b, used g s.disk x = true) (hR : Room E S s'.log)
    (hn : ∀ q, blockAt g s' slot q = if q = p then some b else blockAt g s slot q)
    (hfree : free g lim s'.disk = (free g lim s.disk).erase b) : Budget g lim E S x T slot s' := by
  have hmem : p ∈ missing g s slot T := Finset.mem_filter.2 ⟨hp, hnone⟩
  have hmiss : missing g s' slot T = (missing g s slot T).erase p := missing_fill hn
  have hcard := Finset.card_erase_add_one hmem
  have hcard' := Finset.card_erase_add_one hb
  refine ⟨hR, ?_, ?_⟩
  · refine hB.enough.imp id fun henough => ?_
    rw [hmiss, hfree]; omega
  · refine hB.fits.imp id fun ⟨hin, hres⟩ => ⟨fun q hq c hc htouch => ?_, fun c hc hlt => ?_⟩
    · rw [hn] at hc
      split at hc
      · -- the new block was reserved
        obtain rfl := Option.some.inj hc
        refine (hres b hb ?_).1
        have hzero : (free g lim s.disk).filter (· < b) = ∅ := by
          refine Finset.filter_eq_empty_iff.2 fun y hy hyb => ?_
          have := hleast y hyb
          rw [(mem_free.1 hy).2] at this; cases this
        rw [hzero]
        exact Nat.lt_add_right x (Finset.card_pos.2 ⟨p, hmem⟩)
      · refine hin q hq c hc (htouch.imp id fun ⟨j, hj⟩ => ⟨j, ?_⟩)
        rw [hmiss] at hj
        exact Finset.mem_of_mem_erase hj
    · rw [hfree] at hc hlt
      rw [hmiss] at hlt
      obtain ⟨hcb, hc⟩ := Finset.mem_erase.1 hc
      refine hres c hc ?_
      have hbc : b < c := by
        by_contra hle
        have := hleast c (by omega)
        rw [(mem_free.1 hc).2] at this; cases this
      have hfilter : ((free g lim s.disk).erase b).filter (· < c) =
          ((free g lim s.disk).filter (· < c)).erase b := by
        ext y
        simp only [Finset.mem_filter, Finset.mem_erase]
        tauto
      have hbmem : b ∈ (free g lim s.disk).filter (· < c) := Finset.mem_filter.2 ⟨hb, hbc⟩
      have hcard'' := Finset.card_erase_add_one hbmem
      rw [hfilter] at hlt
      omega

/-! ## `bmap` -/

/-- The state after `balloc`: the block is held, and nothing else has changed. -/
structure Got (g : Geo) (lim slot : Nat) (s : State) (b : Nat) (s' : State) : Prop where
  ctx : Ctx g lim slot s'
  was : b ∈ free g lim s.disk
  held : Held g lim (view g s' slot) s'.disk b
  view : view g s' slot = view g s slot
  node : ∀ x π, node g (Fs.view g s slot) s'.disk x π = node g (Fs.view g s slot) s.disk x π
  bytes : ∀ i o, fileByte g (Fs.view g s slot) s'.disk i o =
    fileByte g (Fs.view g s slot) s.disk i o
  used : ∀ c < g.size, used g s'.disk c = (decide (c = b) || used g s.disk c)
  front : ∀ c < g.ninodes / IPB + 3, s'.disk c = s.disk c
  log : LogSame lim s.log s'.log

/-- What `balloc` handed out is held. -/
theorem Balloced.got (h : Balloced E S g s b s') (hc : Ctx g lim slot s)
    (hb : b ∈ Fs.free g lim s.disk) : Got g lim slot s b s' := by
  obtain ⟨hO, hheld, hn, hbytes, hused⟩ := hc.own.alloc hc.lim_le hb h.disk
  have hfront : ∀ c < g.ninodes / IPB + 3, s'.disk c = s.disk c := by
    intro c hlt
    have hcb : c ≠ b := by
      have := hheld.range.1
      have := g.front_lt hlt
      omega
    rw [h.disk, update_of_ne hcb, markUsed, update_of_ne (g.front_ne_bblock hlt)]
  have hview : Fs.view g s' slot = Fs.view g s slot := by
    rw [Fs.view, Fs.view, h.inode, table_congr hfront]
  refine ⟨⟨?_, hc.lim_le, hc.le_lim, ?_, ?_, by rw [hview]; exact hO⟩, hb,
    by rw [hview]; exact hheld, hview, hn, hbytes, hused, hfront, h.log lim hheld.range.2 ?_⟩
  · rw [hfront 1 g.one_lt_front]; exact hc.sb
  · rw [h.inode]; exact hc.inum
  · rw [h.inode]; exact hc.type
  · exact Nat.lt_of_lt_of_le (g.bblock_lt h.lt) hc.le_lim

/-- One free block less. -/
theorem free_erase {disk disk' : Nat → Block} (hlim : lim ≤ g.size)
    (hu : ∀ c < g.size, used g disk' c = (decide (c = b) || used g disk c)) :
    free g lim disk' = (free g lim disk).erase b := by
  ext c
  rw [Finset.mem_erase, mem_free, mem_free]
  constructor
  · grind
  · grind

/-- A held block hung into the file at `p`: the file has grown by that position. -/
theorem Got.grew (h : Got g lim slot s b s1) (hc : Ctx g lim slot s')
    (hn : ∀ x π, Fs.node g (Fs.view g s' slot) s'.disk x π =
      if x = ((s.inode slot).inum, p.1) ∧ π = p.2 then some b
      else Fs.node g (Fs.view g s1 slot) s1.disk x π)
    (hbytes : ∀ i o, fileByte g (Fs.view g s' slot) s'.disk i o =
      fileByte g (Fs.view g s1 slot) s1.disk i o)
    (hu : ∀ c < g.size, Fs.used g s'.disk c = Fs.used g s1.disk c)
    (hfront : ∀ c < g.ninodes / IPB + 3, s'.disk c = s1.disk c)
    (hnone : blockAt g s slot p = none) (hinode : ∀ i ≠ slot, s'.inode i = s.inode i)
    (hself : ∃ a, s'.inode slot = { s.inode slot with d := { (s.inode slot).d with addrs := a } })
    (hdevsw : s'.devsw = s.devsw) (hlog : LogSame lim s.log s'.log)
    (hmem : b ∈ s'.log.lh ∧ BBLOCK b g.ninodes ∈ s'.log.lh) :
    Grew g lim slot s s' ∧
    (∀ i o, fileByte g (Fs.view g s' slot) s'.disk i o =
      fileByte g (Fs.view g s slot) s.disk i o) ∧
    (∀ q, blockAt g s' slot q = if q = p then some b else blockAt g s slot q) ∧
    free g lim s'.disk = (free g lim s.disk).erase b := by
  have hn' : ∀ x π, Fs.node g (Fs.view g s' slot) s'.disk x π =
      if x = ((s.inode slot).inum, p.1) ∧ π = p.2 then some b
      else Fs.node g (Fs.view g s slot) s.disk x π := fun x π => by
    rw [hn, h.view, h.node]
  have hinum : (s'.inode slot).inum = (s.inode slot).inum := by
    obtain ⟨a, ha⟩ := hself
    rw [ha]
  have hfree : free g lim s'.disk = (free g lim s.disk).erase b :=
    free_erase hc.lim_le fun c hlt => by rw [hu c hlt, h.used c hlt]
  refine ⟨⟨hc, ?_, fun x π c hcn => ?_, ?_, ?_, ?_, hinode, hself, hdevsw, hlog⟩, fun i o => ?_, ?_,
    hfree⟩
  · intro x π c hcn
    rw [hn', if_neg, hcn]
    rintro ⟨rfl, rfl⟩
    rw [blockAt, hcn] at hnone; cases hnone
  · rw [hn'] at hcn
    split at hcn
    · next e =>
      obtain rfl := Option.some.inj hcn
      exact .inr ⟨by rw [e.1], h.was⟩
    · exact .inl hcn
  · rw [hfree]; exact Finset.erase_subset _ _
  · intro c hlt
    rw [hfront c hlt, h.front c hlt]
  · intro c hlt huc
    rw [hu c hlt, h.used c hlt] at huc
    rcases Bool.or_eq_true _ _ ▸ huc with huc | huc
    · right
      rw [of_decide_eq_true huc]
      exact ⟨⟨((s.inode slot).inum, p.1), p.2, by rw [hn', if_pos ⟨rfl, rfl⟩]⟩, hmem⟩
    · exact .inl huc
  · rw [hbytes, h.view, h.bytes]
  · intro q
    rw [blockAt, hn', hinum]
    by_cases hq : q = p
    · rw [if_pos hq, if_pos ⟨by rw [hq], by rw [hq]⟩]
    · grind

/-- What finding or making the block at `p` does. -/
structure Mapped (g : Geo) (lim : Nat) (E : Stop → Prop) (S : Finset Nat) (x : Nat)
    (T : Finset (Fin (NDIRECT + 2) × List Nat)) (slot : Nat)
    (p : Fin (NDIRECT + 2) × List Nat) (s : State) (b : Nat) (s' : State) : Prop where
  grew : Grew g lim slot s s'
  bytes : ∀ i o, fileByte g (view g s' slot) s'.disk i o = fileByte g (view g s slot) s.disk i o
  budget : Budget g lim E S x T slot s'
  found : blockAt g s' slot p = some b
  takes : Takes (free g lim s.disk) (free g lim s'.disk)
  spent : (free g lim s.disk).card + (missing g s' slot T).card =
    (free g lim s'.disk).card + (missing g s slot T).card
  still : missing g s slot T = ∅ → s' = s

/-- Filling a missing position with the lowest free block. -/
theorem Mapped.of_fill (hB : Budget g lim E S x T slot s) (hp : p ∈ T)
    (hnone : blockAt g s slot p = none) (hb : b ∈ free g lim s.disk)
    (hleast : ∀ c < b, used g s.disk c = true) (hR : Room E S s'.log) (hg : Grew g lim slot s s')
    (hbytes : ∀ i o, fileByte g (view g s' slot) s'.disk i o = fileByte g (view g s slot) s.disk i o)
    (hn : ∀ q, blockAt g s' slot q = if q = p then some b else blockAt g s slot q)
    (hfree : free g lim s'.disk = (free g lim s.disk).erase b) :
    Mapped g lim E S x T slot p s b s' := by
  have hmem : p ∈ missing g s slot T := Finset.mem_filter.2 ⟨hp, hnone⟩
  refine ⟨hg, hbytes, hB.fill hp hnone hb hleast hR hn hfree, by rw [hn, if_pos rfl], ?_, ?_,
    fun he => ?_⟩
  · rw [hfree]
    refine .erase fun c hc => ?_
    by_contra hlt
    have := hleast c (by omega)
    rw [(mem_free.1 hc).2] at this; cases this
  · have h1 := Finset.card_erase_add_one hb
    have h2 := Finset.card_erase_add_one hmem
    rw [hfree, missing_fill hn]
    omega
  · rw [he] at hmem
    simp at hmem

/-- The lowest free block lies below `lim` if there is a free one there. -/
theorem Balloced.mem_free (h : Balloced E S g s b s') (hx : ∃ x, x ∈ Fs.free g lim s.disk) :
    b ∈ Fs.free g lim s.disk := by
  obtain ⟨x, hx⟩ := hx
  obtain ⟨hlt, hfree⟩ := Fs.mem_free.1 hx
  refine Fs.mem_free.2 ⟨?_, h.free⟩
  by_contra hge
  have := h.least x (by omega)
  rw [hfree] at this; cases this

/-- `balloc` for a missing position, within the budget. -/
theorem Budget.balloc (hB : Budget g lim E S x T slot s) (hc : Ctx g lim slot s) (hp : p ∈ T)
    (hnone : blockAt g s slot p = none) :
    wp Fs.balloc (fun b s' => Balloced E S g s b s' ∧ b ∈ free g lim s.disk) E s := by
  have hfree := hB.exists_free hp hnone
  refine wp_post (balloc_spec hc.sb hB.room (hB.leastIn hp hnone) ?_) fun b s1 h₁ => ⟨h₁, ?_⟩
  · refine hfree.imp (fun h => h.2.1) fun ⟨y, hy⟩ => ?_
    obtain ⟨h1, h2⟩ := mem_free.1 hy
    exact ⟨y, Nat.lt_of_lt_of_le h1 hc.lim_le, h2⟩
  · rcases hfree with ⟨hlim, -⟩ | hfree
    · exact mem_free.2 ⟨hlim ▸ h₁.lt, h₁.free⟩
    · exact h₁.mem_free hfree

/-- The block that the inode itself names. -/
theorem blockAt_root (hc : Ctx g lim slot s) (k : Fin (NDIRECT + 2)) :
    blockAt g s slot (k, []) = if (s.inode slot).d.addrs k ≠ 0 then
      some ((s.inode slot).d.addrs k).toNat else none := by
  simp [blockAt, root, view, hc.inum, hc.type]

/-- **`bmap`, first level**: the block at `ip->addrs[k]`. -/
theorem bmapRoot_spec (hc : Ctx g lim slot s)
    (hB : Budget g lim E S x T slot s) (hk : (k, []) ∈ T) :
    wp (bmapRoot slot k) (Mapped g lim E S x T slot (k, []) s) E s := by
  have hroot := blockAt_root hc k
  simp only [bmapRoot, wp_bind, wp_gets]
  refine wp_ite (fun h0 => ?_) fun h0 => ?_
  · have haddr : (s.inode slot).d.addrs k = 0 := UInt32.toNat_inj.1 h0
    have hnone : blockAt g s slot (k, []) = none := by rw [hroot, if_neg (by simp [haddr])]
    refine wp_seq (hB.balloc hc hk hnone) fun b s1 h1 => ?_
    obtain ⟨h1, hb⟩ := h1
    have hgot := h1.got hc hb
    simp only [setAddr, setInode, wp_bind, wp_modify, wp_pure]
    generalize hs2 : ({ s1 with inode := _ } : State) = s2
    have hself : s2.inode slot = { s1.inode slot with d := { (s1.inode slot).d with
        addrs := update (s1.inode slot).d.addrs k (UInt32.ofNat b) } } := by
      rw [← hs2]; simp
    have hdisk : s2.disk = s1.disk := by rw [← hs2]
    have hview : view g s2 slot = withAddr (view g s1 slot) (s1.inode slot).inum k b :=
      view_setAddr (fun _ _ => by rw [hdisk]) hself
    have hd : view g s1 slot (s1.inode slot).inum = (s1.inode slot).d := update_self _ _ _
    obtain ⟨hO, hn, hbytes⟩ := hgot.ctx.own.fill_root hc.lim_le hgot.held hgot.ctx.inum
      (by rw [hd]; exact hgot.ctx.type) (by rw [hd, h1.inode]; exact haddr)
    have hinode : ∀ i ≠ slot, s2.inode i = s.inode i := fun i hi => by
      rw [← hs2]
      simp [update_of_ne hi, h1.inode]
    have hctx : Ctx g lim slot s2 := by
      refine ⟨by rw [hdisk]; exact hgot.ctx.sb, hc.lim_le, hc.le_lim, ?_, ?_, ?_⟩
      · rw [hself]; exact hgot.ctx.inum
      · rw [hself]; exact hgot.ctx.type
      · rw [hview, hdisk]; exact hO
    obtain ⟨hg, hby, hat, hfr⟩ := hgot.grew (p := (k, [])) hctx
      (by rw [hview, hdisk]; rw [h1.inode] at hn; rw [h1.inode]; exact hn)
      (by rw [hview, hdisk]; exact hbytes) (fun c _ => by rw [hdisk]) (fun c _ => by rw [hdisk])
      hnone hinode ⟨_, by rw [hself, h1.inode]⟩
      (by rw [← hs2]; exact h1.devsw) (by rw [← hs2]; exact hgot.log) (by rw [← hs2]; exact h1.mem)
    exact .of_fill hB hk hnone hb h1.least (by rw [← hs2]; exact h1.room) hg hby hat hfr
  · have haddr : (s.inode slot).d.addrs k ≠ 0 := fun e => h0 (by rw [e]; rfl)
    exact ⟨.refl hc, fun _ _ => rfl, hB, by rw [hroot, if_pos haddr], .refl _, rfl, fun _ => rfl⟩

/-- **`bmap`, the next level**: the block at entry `j` of the index block at `p`. -/
theorem bmapEntry_spec {a j : Nat} (hc : Ctx g lim slot s)
    (hB : Budget g lim E S x T slot s) (hp : p ∈ T) (hjp : (p.1, j :: p.2) ∈ T)
    (ha : blockAt g s slot p = some a) (hin : p.2.length < level p.1) (hj : j < NINDIRECT) :
    wp (bmapEntry a j) (Mapped g lim E S x T slot (p.1, j :: p.2) s) E s := by
  have hchild : blockAt g s slot (p.1, j :: p.2) =
      if getIndex (s.disk a) j ≠ 0 then some (getIndex (s.disk a) j) else none := by
    rw [blockAt, node, Shape.node_child ha]
    simp only [shape, hin, hj, true_and]
  refine wp_ite (fun h0 => ?_) fun h0 => ?_
  · have hnone : blockAt g s slot (p.1, j :: p.2) = none := by rw [hchild, if_neg (by simp [h0])]
    refine wp_seq (hB.balloc hc hjp hnone) fun b s1 h1 => ?_
    obtain ⟨h1, hb⟩ := h1
    have hgot := h1.got hc hb
    have ha1 : node g (view g s1 slot) s1.disk ((s.inode slot).inum, p.1) p.2 = some a := by
      rw [hgot.view, hgot.node]; exact ha
    have hbase := hc.own.data _ _ a ha
    have hsame : s1.disk a = s.disk a := by
      have hab : a ≠ b := fun e => hgot.held.node _ _ (e ▸ ha1)
      have haB : a ≠ BBLOCK b g.ninodes := by
        have := g.bblock_lt h1.lt
        omega
      rw [h1.disk, update_of_ne hab, markUsed, update_of_ne haB]
    simp only [readBlock, wp_bind, wp_gets]
    have hmiss : (p.1, j :: p.2) ∈ missing g s slot T := Finset.mem_filter.2 ⟨hjp, hnone⟩
    have haS : E .tooBig ∨ a ∈ S := hB.fits.imp id fun h => h.1 p hp a ha (.inr ⟨j, hmiss⟩)
    refine wp_post (log_write_spec h1.room haS) fun _ s2 h2 => ?_
    obtain ⟨hO, hn, hbytes, hu⟩ := hgot.ctx.own.fill_entry hc.lim_le hgot.held ha1 hin hj
      (by rw [hsame]; exact h0) h2.disk
    have hfront : ∀ c < g.ninodes / IPB + 3, s2.disk c = s1.disk c := fun c hlt => by
      rw [h2.disk, update_of_ne]
      have := g.front_lt hlt
      omega
    have hview : view g s2 slot = view g s1 slot := by
      rw [view, view, h2.inode, table_congr hfront]
    have hinode : s2.inode = s.inode := h2.inode.trans h1.inode
    have hctx : Ctx g lim slot s2 := by
      refine ⟨by rw [hfront 1 g.one_lt_front]; exact hgot.ctx.sb, hc.lim_le, hc.le_lim, ?_, ?_, ?_⟩
      · rw [hinode]; exact hc.inum
      · rw [hinode]; exact hc.type
      · rw [hview]; exact hO
    obtain ⟨hg, hby, hat, hfr⟩ := hgot.grew (p := (p.1, j :: p.2)) hctx (by rw [hview]; exact hn)
      (by rw [hview]; exact hbytes) hu hfront hnone (fun i _ => by rw [hinode])
      ⟨(s.inode slot).d.addrs, by rw [hinode]⟩ (h2.devsw.trans h1.devsw)
      (hgot.log.trans (h2.log.mono hbase.2.1)) ⟨h2.log.keep _ h1.mem.1, h2.log.keep _ h1.mem.2⟩
    exact .of_fill hB hjp hnone hb h1.least h2.room hg hby hat hfr
  · exact ⟨.refl hc, fun _ _ => rfl, hB, by rw [hchild, if_pos h0], .refl _, rfl, fun _ => rfl⟩

theorem Mapped.trans {s2 : State} {b1 b2 : Nat} {p q : Fin (NDIRECT + 2) × List Nat}
    (h : Mapped g lim E S x T slot p s b1 s1) (h' : Mapped g lim E S x T slot q s1 b2 s2) :
    Mapped g lim E S x T slot q s b2 s2 where
  grew := h.grew.trans h'.grew
  bytes i o := (h'.bytes i o).trans (h.bytes i o)
  budget := h'.budget
  found := h'.found
  takes := h.takes.trans h'.takes
  spent := by
    have h1 := h.spent
    have h2 := h'.spent
    omega
  still he := by
    have hs := h.still he
    rw [hs] at h'
    exact h'.still he

/-- The positions on the way to block `bn` of a file. -/
def chain (bn : Nat) : Finset (Fin (NDIRECT + 2) × List Nat) :=
  ((pos bn).2.tails.map fun π => ((pos bn).1, π)).toFinset

theorem mem_chain : p ∈ chain bn ↔ p.1 = (pos bn).1 ∧ p.2 <:+ (pos bn).2 := by
  simp only [chain, List.mem_toFinset, List.mem_map, List.mem_tails]
  constructor
  · rintro ⟨π, hπ, rfl⟩
    exact ⟨rfl, hπ⟩
  · rintro ⟨h1, h2⟩
    exact ⟨p.2, h2, by rw [← h1]⟩

/-- **`bmap` finds or makes the block** without changing a byte of any file. -/
theorem bmap_spec (hc : Ctx g lim slot s) (hB : Budget g lim E S x T slot s)
    (hT : chain bn ⊆ T) (hbn : bn < MAXFILE) :
    wp (bmap slot bn) (Mapped g lim E S x T slot (pos bn) s) E s := by
  simp only [bmap]
  split
  · next h =>
    rw [pos_direct h]
    refine bmapRoot_spec hc hB (hT (mem_chain.2 ?_))
    simp [pos_direct h]
  · next h =>
    by_cases h1 : bn - NDIRECT < NINDIRECT
    on_goal 2 => by_cases h2 : bn - NDIRECT - NINDIRECT < NINDIRECT * NINDIRECT
    · rw [pos_indirect h h1, if_pos h1]
      have hmem : ∀ π, π <:+ [bn - NDIRECT] → ((⟨NDIRECT, indirect_lt⟩ : Fin (NDIRECT + 2)), π) ∈ T :=
        fun π hπ => hT (mem_chain.2 (by rw [pos_indirect h h1]; exact ⟨rfl, hπ⟩))
      refine wp_seq (bmapRoot_spec hc hB (hmem [] (by simp))) fun a s1 h₁ => ?_
      refine wp_post (bmapEntry_spec (p := (⟨NDIRECT, indirect_lt⟩, [])) h₁.grew.ctx h₁.budget
        (hmem [] (by simp)) (hmem _ (List.suffix_refl _)) h₁.found (by decide) h1) ?_
      exact fun b s2 h₂ => h₁.trans h₂
    · rw [pos_double h h1, if_neg h1, if_pos h2]
      generalize hj : (bn - NDIRECT - NINDIRECT) % NINDIRECT = j
      generalize hi : (bn - NDIRECT - NINDIRECT) / NINDIRECT = i
      have hj' : j < NINDIRECT := by lia
      have hi' : i < NINDIRECT := by lia
      have hmem : ∀ π, π <:+ [j, i] → ((⟨NDIRECT + 1, double_lt⟩ : Fin (NDIRECT + 2)), π) ∈ T :=
        fun π hπ => hT (mem_chain.2 (by rw [pos_double h h1, hj, hi]; exact ⟨rfl, hπ⟩))
      refine wp_seq (bmapRoot_spec hc hB (hmem [] (by simp))) fun a s1 h₁ => ?_
      refine wp_seq (bmapEntry_spec (p := (⟨NDIRECT + 1, double_lt⟩, [])) h₁.grew.ctx h₁.budget
        (hmem [] (by simp)) (hmem [i] (by simp)) h₁.found (by decide) hi') fun a' s2 h₂ => ?_
      refine wp_post (bmapEntry_spec (p := (⟨NDIRECT + 1, double_lt⟩, [i])) h₂.grew.ctx h₂.budget
        (hmem [i] (by simp)) (hmem _ (List.suffix_refl _)) h₂.found (show 1 < 2 by decide) hj') ?_
      exact fun b s3 h3 => (h₁.trans h₂).trans h3
    · lia

/-- `bmap` of a block that is there returns it and changes nothing. -/
theorem bmapRoot_present (h : blockAt g s slot (k, []) = some b) :
    wp (bmapRoot slot k) (fun c s' => c = b ∧ s' = s) E s := by
  simp only [blockAt, node, Shape.node_nil, root, view, update_self] at h
  split at h
  · next h0 =>
    have h0' : ((s.inode slot).d.addrs k).toNat ≠ 0 := fun e => h0.2.2 (UInt32.toNat_inj.1 e)
    simp only [bmapRoot, wp_bind, wp_gets, if_neg h0', wp_pure]
    exact ⟨Option.some.inj h, trivial⟩
  · cases h

theorem bmapEntry_present {a j : Nat} {π : List Nat}
    (ha : blockAt g s slot (k, π) = some a) (h : blockAt g s slot (k, j :: π) = some b) :
    wp (bmapEntry a j) (fun c s' => c = b ∧ s' = s) E s := by
  rw [blockAt, node, Shape.node_child ha] at h
  simp only [shape] at h
  split at h
  · next h0 =>
    simp only [bmapEntry, wp_bind, wp_gets, if_neg h0.2.2, wp_pure]
    exact ⟨Option.some.inj h, trivial⟩
  · cases h

/-- **`bmap` of a block that is there** returns it and changes nothing. -/
theorem bmap_present (h : blockAt g s slot (pos bn) = some b) :
    wp (bmap slot bn) (fun c s' => c = b ∧ s' = s) E s := by
  simp only [bmap]
  split
  · next h0 =>
    rw [pos_direct h0] at h
    exact bmapRoot_present h
  · next h0 =>
    by_cases h1 : bn - NDIRECT < NINDIRECT
    on_goal 2 => by_cases h2 : bn - NDIRECT - NINDIRECT < NINDIRECT * NINDIRECT
    · rw [if_pos h1]
      rw [pos_indirect h0 h1] at h
      obtain ⟨a, ha, -⟩ := Shape.node_parent h
      refine wp_seq (bmapRoot_present ha) fun c s1 h₁ => ?_
      rw [h₁.1, h₁.2]
      exact bmapEntry_present ha h
    · rw [if_neg h1, if_pos h2]
      rw [pos_double h0 h1] at h
      generalize (bn - NDIRECT - NINDIRECT) % NINDIRECT = j at h ⊢
      obtain ⟨a, ha, -⟩ := Shape.node_parent h
      obtain ⟨a', ha', -⟩ := Shape.node_parent ha
      refine wp_seq (bmapRoot_present ha') fun c s1 h₁ => ?_
      rw [h₁.1, h₁.2]
      refine wp_seq (bmapEntry_present ha' ha) fun c s2 h₂ => ?_
      rw [h₂.1, h₂.2]
      exact bmapEntry_present ha h
    · -- an index past the end of the index block names nothing
      rw [pos_double h0 h1] at h
      obtain ⟨a, ha, -⟩ := Shape.node_parent h
      obtain ⟨a', ha', he⟩ := Shape.node_parent ha
      simp only [shape] at he
      split at he
      · next hlt => lia
      · cases he

end

end Dixv6.Fs
