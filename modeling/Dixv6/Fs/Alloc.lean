import Dixv6.Fs.Blocks

/-!
# The block allocator

`balloc_spec`: **`balloc` hands out the lowest free block**, marked used and zeroed, and stops
only when every block of the disk is in use or the transaction is full. `bfree_spec` is its
counterpart.

A transaction's room in the log is counted against a set of blocks `S`: as long as all blocks
logged lie in `S` and `S` is small enough, `log_write` does not stop (`log_write_spec`).
-/

namespace Dixv6.Fs

open Lib Function

/-! ## Logging a block -/

/-- The logged blocks after `b` has been logged. -/
def logged (lh : List Nat) (b : Nat) : List Nat := if b ∈ lh then lh else lh ++ [b]

theorem mem_logged {lh : List Nat} {b x : Nat} : x ∈ logged lh b ↔ x ∈ lh ∨ x = b := by
  unfold logged
  split
  · next h => exact ⟨.inl, fun hx => hx.elim id fun e => e ▸ h⟩
  · simp

theorem nodup_logged {lh : List Nat} {b : Nat} (h : lh.Nodup) : (logged lh b).Nodup := by
  unfold logged
  split
  · exact h
  · next hb =>
    refine List.nodup_append.2 ⟨h, List.nodup_singleton b, fun x hx y hy e => hb ?_⟩
    rw [← List.mem_singleton.1 hy, ← e]
    exact hx

/-- All logged blocks lie in `S`, and logging one block of `S` more does not fill the log. -/
structure Fits (S : Finset Nat) (log : Disk.Log) : Prop where
  sub : ∀ b ∈ log.lh, b ∈ S
  nodup : log.lh.Nodup
  card : S.card < LOGSIZE
  size : S.card + 1 < log.size

/-- What a stop in `log_write` needs is allowed, or a transaction is open and it fits `S`. -/
def Room (E : Stop → Prop) (S : Finset Nat) (log : Disk.Log) : Prop :=
  (E .outsideTrans ∨ log.busy = true) ∧ (E .tooBig ∨ Fits S log)

/-- No block is logged twice, and the log is not over full. -/
structure Sane (log : Disk.Log) : Prop where
  nodup : log.lh.Nodup
  lt : log.lh.length < log.size

/-- The log did not move, and blocks below `lim` have been logged. -/
structure LogSame (lim : Nat) (l l' : Disk.Log) : Prop where
  start : l'.start = l.start
  size : l'.size = l.size
  busy : l'.busy = l.busy
  keep : ∀ x ∈ l.lh, x ∈ l'.lh
  lh : ∀ x ∈ l'.lh, x ∈ l.lh ∨ x < lim
  sane : Sane l → Sane l'

theorem LogSame.refl {lim : Nat} (l : Disk.Log) : LogSame lim l l :=
  ⟨rfl, rfl, rfl, fun _ h => h, fun _ h => .inl h, fun h => h⟩

theorem LogSame.trans {lim : Nat} {l l1 l2 : Disk.Log} (h : LogSame lim l l1)
    (h' : LogSame lim l1 l2) : LogSame lim l l2 where
  start := h'.start.trans h.start
  size := h'.size.trans h.size
  busy := h'.busy.trans h.busy
  keep x hx := h'.keep x (h.keep x hx)
  lh x hx := (h'.lh x hx).elim (h.lh x) .inr
  sane hs := h'.sane (h.sane hs)

theorem LogSame.mono {lim lim' : Nat} {l l' : Disk.Log} (h : LogSame lim l l') (hle : lim ≤ lim') :
    LogSame lim' l l' :=
  ⟨h.start, h.size, h.busy, h.keep, fun x hx => (h.lh x hx).imp id fun h => by omega, h.sane⟩

/-- What logging a block does. -/
structure Logged (E : Stop → Prop) (S : Finset Nat) (b : Nat) (blk : Block) (s s' : State) :
    Prop where
  disk : s'.disk = update s.disk b blk
  inode : s'.inode = s.inode
  devsw : s'.devsw = s.devsw
  log : LogSame (b + 1) s.log s'.log
  mem : b ∈ s'.log.lh
  room : Room E S s'.log

section
variable {E : Stop → Prop} {S : Finset Nat} {s s' : State} {g : Geo} {b lim : Nat} {blk : Block}

/-- The stops allowed once block `b` has been logged: outside `S` it may take the last place. -/
def After (E : Stop → Prop) (S : Finset Nat) (b : Nat) (e : Stop) : Prop :=
  E e ∨ e = .tooBig ∧ b ∉ S

/-- A block of `S` leaves room for the rest of `S`. -/
theorem Room.of_after {log : Disk.Log} (h : Room (After E S b) S log) (hb : E .tooBig ∨ b ∈ S) :
    Room E S log := by
  refine ⟨h.1.imp (fun h' => h'.resolve_right fun h' => by cases h'.1) id, ?_⟩
  exact h.2.imp (fun h' => h'.elim id fun h' => hb.resolve_right h'.2) id

/-- A block is logged when there is room. -/
theorem log_write_any (hR : Room E S s.log) :
    wp (log_write b blk) (fun _ s' => Logged (After E S b) S b blk s s') E s := by
  obtain ⟨hbusy, hfit⟩ := hR
  simp only [log_write, wp_bind, wp_gets, wp_stopIf, wp_modify]
  refine ⟨fun hbig => ?_, fun _ => ⟨fun hb => ?_, fun hb => ?_⟩⟩
  · refine hfit.resolve_right fun h => ?_
    have hle : s.log.lh.length ≤ S.card := by
      rw [← List.toFinset_card_of_nodup h.nodup]
      exact Finset.card_le_card fun x hx => h.sub x (List.mem_toFinset.1 hx)
    have := h.card
    have := h.size
    omega
  · refine hbusy.resolve_right fun h => ?_
    simp [h] at hb
  · refine ⟨rfl, rfl, rfl, ⟨rfl, rfl, rfl, fun x hx => mem_logged.2 (.inl hx), fun x hx => ?_,
      fun hs => ⟨nodup_logged hs.nodup, ?_⟩⟩, mem_logged.2 (.inr rfl), .inr (by simpa using hb), ?_⟩
    · exact (mem_logged.1 hx).imp id fun e => by omega
    · grind
    rcases hfit with h | h
    · exact .inl (.inl h)
    · by_cases hb : b ∈ S
      · refine .inr ⟨fun x hx => ?_, nodup_logged h.nodup, h.card, h.size⟩
        rcases mem_logged.1 hx with hx | rfl
        · exact h.sub x hx
        · exact hb
      · exact .inl (.inr ⟨rfl, hb⟩)

/-- **A block of `S` is logged** and leaves room for the rest of `S`. -/
theorem log_write_spec (hR : Room E S s.log) (hb : E .tooBig ∨ b ∈ S) :
    wp (log_write b blk) (fun _ s' => Logged E S b blk s s') E s := by
  exact wp_post (log_write_any hR) fun _ s' h =>
    ⟨h.disk, h.inode, h.devsw, h.log, h.mem, h.room.of_after hb⟩

/-! ## `balloc` -/

/-- What allocating a block does. -/
structure Balloced (E : Stop → Prop) (S : Finset Nat) (g : Geo) (s : State) (b : Nat)
    (s' : State) : Prop where
  lt : b < g.size
  free : used g s.disk b = false
  least : ∀ x < b, used g s.disk x = true
  disk : s'.disk = update (markUsed g s.disk b) b zeroBlock
  inode : s'.inode = s.inode
  devsw : s'.devsw = s.devsw
  log : ∀ lim, b < lim → BBLOCK b g.ninodes < lim → LogSame lim s.log s'.log
  mem : b ∈ s'.log.lh ∧ BBLOCK b g.ninodes ∈ s'.log.lh
  room : Room E S s'.log

/-- Where `balloc` looks for the bit of block `b`, as bitmap block and bit. -/
def scanBit (ninodes b : Nat) : Nat × Nat := (intBBLOCK (b / BPB * BPB) ninodes, b % BPB)

/-- Whether `balloc` finds block `b` in use. -/
def scanned (ninodes : Nat) (disk : Nat → Block) (b : Nat) : Bool :=
  (disk (scanBit ninodes b).1).getBit (scanBit ninodes b).2

/-- What `balloc` does with a disk of any size, in terms of the bits it looks at. -/
structure Took (E : Stop → Prop) (S : Finset Nat) (sb : Superblock) (s : State) (b : Nat)
    (s' : State) : Prop where
  lt : b < sb.size
  free : scanned sb.ninodes s.disk b = false
  least : ∀ x < b, scanned sb.ninodes s.disk x = true
  disk : s'.disk = update (update s.disk (scanBit sb.ninodes b).1
    ((s.disk (scanBit sb.ninodes b).1).setBit (b % BPB))) b zeroBlock
  inode : s'.inode = s.inode
  devsw : s'.devsw = s.devsw
  log : ∀ lim, b < lim → (scanBit sb.ninodes b).1 < lim → LogSame lim s.log s'.log
  mem : b ∈ s'.log.lh ∧ (scanBit sb.ninodes b).1 ∈ s'.log.lh
  room : Room E S s'.log

/-- As long as an `int` can hold the number, the bit is the block's. -/
theorem scanBit_of_lt {n : Nat} (hn : n < 2 ^ 32) (hb : b < 2 ^ 31) :
    scanBit n b = (BBLOCK b n, b % BPB) := by
  have hlow : b / BPB * BPB < 2 ^ 31 := lt_of_le_of_lt (Nat.div_mul_le_self b BPB) hb
  rw [scanBit, intBBLOCK, if_pos hlow, Int.tdiv_eq_ediv_of_nonneg (Int.natCast_nonneg _)]
  grind [BBLOCK]

/-- Otherwise it is in another block. -/
theorem scanBit_ne {n : Nat} (hb : 2 ^ 31 ≤ b) : (scanBit n b).1 ≠ BBLOCK b n := by
  have hq : ((b / BPB * BPB : Nat) : Int) - 2 ^ 32 = ((b / BPB : Nat) - 2 ^ 20 : Int) * BPB := by
    lia
  rw [scanBit, intBBLOCK, if_neg (by lia), hq, Int.mul_tdiv_cancel _ (by decide)]
  grind [BBLOCK]

/-- The bits of a group are in one block. -/
theorem scanBit_group {n q bi : Nat} (h : bi < BPB) :
    scanBit n (q * BPB + bi) = (intBBLOCK (q * BPB) n, bi) := by
  have h1 : (q * BPB + bi) / BPB = q := by lia
  have h2 : (q * BPB + bi) % BPB = bi := by lia
  rw [scanBit, h1, h2]

/-- The block that `balloc` would hand out is in `S`, and so is its bitmap block. -/
def LeastIn (g : Geo) (disk : Nat → Block) (S : Finset Nat) : Prop :=
  ∀ b < g.size, used g disk b = false → (∀ x < b, used g disk x = true) →
    b ∈ S ∧ BBLOCK b g.ninodes ∈ S

/-- The outer loop of `balloc` from group `q` on, when everything below is in use. -/
theorem ballocFrom_spec {sb : Superblock} (hR : Room E S s.log)
    (hS : E .tooBig ∨ ∀ b < sb.size, scanned sb.ninodes s.disk b = false →
      (∀ x < b, scanned sb.ninodes s.disk x = true) → b ∈ S ∧ (scanBit sb.ninodes b).1 ∈ S)
    (hfree : E .outOfBlocks ∨ ∃ x < sb.size, scanned sb.ninodes s.disk x = false) :
    ∀ (m q : Nat), q + m = (sb.size + BPB - 1) / BPB →
      (∀ x < q * BPB, x < sb.size → scanned sb.ninodes s.disk x = true) →
      wp (ballocFrom sb ((List.range' q m).map (· * BPB))) (Took E S sb s) E s := by
  intro m
  induction m with
  | zero =>
    intro q hq hlow
    refine hfree.resolve_right ?_
    rintro ⟨x, hx, hfree⟩
    rw [hlow x (by lia) hx] at hfree
    cases hfree
  | succ m ih =>
    intro q hq hlow
    rw [List.range'_succ, List.map_cons, ballocFrom]
    simp only [readBlock, wp_bind, wp_gets]
    have hbit : ∀ {bi}, bi < BPB → (s.disk (intBBLOCK (q * BPB) sb.ninodes)).getBit bi =
        scanned sb.ninodes s.disk (q * BPB + bi) := fun h => by rw [scanned, scanBit_group h]
    cases hfind : firstFree (s.disk (intBBLOCK (q * BPB) sb.ninodes)) (q * BPB) sb.size with
    | none =>
      refine ih (q + 1) (by omega) fun x hx hxs => ?_
      by_cases hxq : x < q * BPB
      · exact hlow x hxq hxs
      · have hlt : x - q * BPB < BPB := by lia
        have hset := List.find?_range_eq_none.1 hfind (x - q * BPB) (by omega)
        rw [hbit hlt, Nat.add_sub_cancel' (by omega)] at hset
        simpa using hset
    | some bi =>
      obtain ⟨hzero, hmem, hprev⟩ := List.find?_range_eq_some.1 hfind
      have hlt := List.mem_range.1 hmem
      have hbi : bi < BPB := by omega
      rw [hbit hbi, Bool.not_eq_true'] at hzero
      have hless : ∀ x < q * BPB + bi, scanned sb.ninodes s.disk x = true := by
        intro x hx
        by_cases hxq : x < q * BPB
        · exact hlow x hxq (by omega)
        · have hset := hprev (x - q * BPB) (by omega)
          rw [hbit (by omega), Nat.add_sub_cancel' (by omega)] at hset
          simpa using hset
      have hb : intBBLOCK (q * BPB) sb.ninodes = (scanBit sb.ninodes (q * BPB + bi)).1 := by
        rw [scanBit_group hbi]
      have hmod : bi = (q * BPB + bi) % BPB := by lia
      have hin := hS.imp id fun h => h (q * BPB + bi) (by omega) hzero hless
      rw [hb]
      refine wp_seq (log_write_spec hR (hin.imp id fun h => h.2)) fun _ s1 h₁ => ?_
      refine wp_seq (log_write_spec h₁.room (hin.imp id fun h => h.1)) fun _ s2 h₂ => ?_
      refine ⟨by omega, hzero, hless, ?_, h₂.inode.trans h₁.inode, h₂.devsw.trans h₁.devsw,
        fun lim h1 h2 => (h₁.log.mono (by omega)).trans (h₂.log.mono (by omega)),
        ⟨h₂.mem, h₂.log.keep _ h₁.mem⟩, h₂.room⟩
      rw [h₂.disk, h₁.disk, ← hmod]

/-- `balloc`, in terms of the bits it looks at. -/
theorem balloc_took {sb : Superblock} (hsb : getSb (s.disk 1) = sb)
    (hR : Room E S s.log) (hS : E .tooBig ∨ ∀ b < sb.size, scanned sb.ninodes s.disk b = false →
      (∀ x < b, scanned sb.ninodes s.disk x = true) → b ∈ S ∧ (scanBit sb.ninodes b).1 ∈ S)
    (hfree : E .outOfBlocks ∨ ∃ x < sb.size, scanned sb.ninodes s.disk x = false) :
    wp balloc (Took E S sb s) E s := by
  simp only [balloc, readsb, wp_bind, wp_gets, hsb]
  rw [List.range_eq_range']
  exact ballocFrom_spec hR hS hfree _ 0 (by omega) (by simp)

/-- **`balloc` hands out the lowest free block**, marked used and zeroed. -/
theorem balloc_spec (hsb : getSb (s.disk 1) = g.toSuperblock) (hR : Room E S s.log)
    (hS : E .tooBig ∨ LeastIn g s.disk S)
    (hfree : E .outOfBlocks ∨ ∃ x < g.size, used g s.disk x = false) :
    wp balloc (Balloced E S g s) E s := by
  have hn : g.ninodes < 2 ^ 32 := lt_of_le_of_lt g.inodes_lt (by decide)
  have hbit : ∀ x < g.size, scanBit g.ninodes x = (BBLOCK x g.ninodes, x % BPB) := fun x hx =>
    scanBit_of_lt hn (hx.trans g.size_lt)
  have hused : ∀ x < g.size, scanned g.ninodes s.disk x = used g s.disk x := fun x hx => by
    rw [scanned, hbit x hx, used]
  refine wp_post (balloc_took hsb hR (hS.imp id fun h b hb h1 h2 => ?_) (hfree.imp id ?_))
    fun b s' h => ?_
  · rw [hbit b hb]
    exact h b hb (hused b hb ▸ h1) fun x hx => hused x (hx.trans hb) ▸ h2 x hx
  · grind
  obtain ⟨hlt, hzero, hless, hdisk, hinode, hdev, hlog, hmem, hroom⟩ := h
  rw [hbit b hlt] at hdisk hlog hmem
  exact ⟨hlt, hused b hlt ▸ hzero, fun x hx => hused x (hx.trans hlt) ▸ hless x hx, hdisk, hinode,
    hdev, hlog, hmem, hroom⟩

/-- **`bfree` clears the bit** of a block that is in use. -/
theorem bfree_spec (hsb : getSb (s.disk 1) = g.toSuperblock) (hR : Room E S s.log)
    (hS : E .tooBig ∨ BBLOCK b g.ninodes ∈ S) (hused : used g s.disk b = true) :
    wp (bfree b) (fun _ s' => s'.disk = markFree g s.disk b ∧ s'.inode = s.inode ∧
      s'.devsw = s.devsw ∧ LogSame (BBLOCK b g.ninodes + 1) s.log s'.log ∧ Room E S s'.log) E s := by
  simp only [bfree, readsb, readBlock, wp_bind, wp_gets, hsb, wp_stopIf]
  have hbit : (s.disk (BBLOCK b g.ninodes)).getBit (b % BPB) = true := hused
  refine ⟨fun h => by simp [hbit] at h, fun _ => ?_⟩
  refine wp_post (log_write_spec hR hS) fun _ s' h => ?_
  exact ⟨h.disk, h.inode, h.devsw, h.log, h.room⟩

/-! ## Transactions -/

/-- The copies of a commit go to the log area; a logged block in it may be its own copy. -/
theorem installFrom_spec : ∀ (l : List Nat) (tail : Nat) (s : State),
    (E .sleep ∨ ∀ b ∈ l, b < s.log.start) →
    wp (installFrom tail l) (fun _ s' => (∀ b < s.log.start, s'.disk b = s.disk b) ∧
      s'.inode = s.inode ∧ s'.devsw = s.devsw ∧ s'.log = s.log) E s := by
  intro l
  induction l with
  | nil => intro tail s _; exact ⟨fun _ _ => rfl, rfl, rfl, rfl⟩
  | cons b l ih =>
    intro tail s hl
    simp only [installFrom, wp_bind, wp_gets, wp_stopIf, wp_modify]
    refine ⟨fun h => hl.resolve_right fun hl => ?_, fun _ => ?_⟩
    · have hb := hl b List.mem_cons_self
      omega
    refine wp_post (ih (tail + 1) _ (hl.imp id fun hl c hc => hl c (List.mem_cons_of_mem _ hc))) ?_
    rintro _ s' ⟨h1, h2, h3, h4⟩
    refine ⟨fun c hc => ?_, h2, h3, h4⟩
    rw [h1 c hc]
    exact update_of_ne (by omega) _ _

/-- **A commit changes the log area only** and leaves the log empty. -/
theorem commit_trans_spec (hlh : E .sleep ∨ ∀ b ∈ s.log.lh, b < s.log.start) :
    wp commit_trans (fun _ s' => (∀ b < s.log.start, s'.disk b = s.disk b) ∧
      s'.inode = s.inode ∧ s'.devsw = s.devsw ∧
      s'.log = { s.log with lh := [], busy := false }) E s := by
  simp only [commit_trans, write_head, wp_bind, wp_gets]
  refine wp_ite (fun _ => ?_) fun h0 => ?_
  · simp only [wp_bind, wp_modify]
    refine wp_post (installFrom_spec s.log.lh 0 _ hlh) ?_
    rintro _ s1 ⟨h1, h2, h3, h4⟩
    refine ⟨fun b hb => ?_, h2, h3, ?_⟩
    · grind
    · simp only [h4]
  · grind [wp_modify]

end

end Dixv6.Fs
