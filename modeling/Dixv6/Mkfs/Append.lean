import Dixv6.Mkfs.Model

/-!
# What `iappend` makes of a file

`Built s A` says that the image holds the files of `A`: no block is used twice, the blocks below
`freeblock` are those in use, and every file has the blocks that its size needs and no others. The
bitmap is written last, so the invariant is about the disk with the bitmap as it will be
(`Img.disk`); on that disk it is the invariant of the kernel's allocator (`Fs.Own`), and the lemmas
about the kernel's map of blocks are used for `mkfs`'s own.

`iappend_spec` says that **appending to a file appends to its bytes**, as long as the file needs no
doubly indirect block.
-/

namespace Dixv6.Mkfs

open Lib Fs Sys Function

/-! ## The disk with its bitmap -/

/-- The layout that `mkfs` gives the disk. -/
def geo : Geo where
  size := size
  nblocks := nblocks
  ninodes := ninodes
  nlog := nlog
  inodes_pos := by decide
  inodes_lt := by decide
  room := by decide
  size_lt := by decide

theorem geo_dstart : geo.dstart = 34 := rfl

theorem geo_logstart : geo.logstart = 21019 := rfl

/-- The sectors with a bitmap in which the first `n` blocks are used. -/
def withBits (sect : Nat → Block) (n : Nat) : Nat → Block := fun b =>
  if 28 ≤ b ∧ b < 34 then marks (min BPB (n - (b - 28) * BPB)) else sect b

/-- The disk, once the bitmap is written. -/
def Img.disk (s : Img) : Nat → Block := withBits s.sect s.freeblock

section
variable {sect : Nat → Block} {n b i : Nat} {blk : Block}

theorem marks_succ (n : Nat) : marks (n + 1) = (marks n).setBit n := by
  rw [marks, List.range_succ, List.foldl_append]
  rfl

theorem getBit_marks (n i : Nat) : (marks n).getBit i = decide (i < n) := by
  induction n with
  | zero => simp [marks, zeroBlock, Bytes.getBit]
  | succ n ih =>
    rw [marks_succ, Bytes.getBit_setBit, ih, ← Bool.decide_or, decide_eq_decide]
    omega

theorem withBits_of_data (h : b < 28 ∨ 34 ≤ b) : withBits sect n b = sect b := by
  rw [withBits, if_neg (by omega)]

theorem used_withBits (h : b < size) : used geo (withBits sect n) b = decide (b < n) := by
  have hblock : BBLOCK b geo.ninodes = b / BPB + 28 := rfl
  rw [used, hblock, withBits, if_pos (by lia), getBit_marks,
    decide_eq_decide]
  lia

/-- A sector outside the bitmap is written. -/
theorem withBits_update (h : b < 28 ∨ 34 ≤ b) :
    withBits (update sect b blk) n = update (withBits sect n) b blk := by
  funext c
  by_cases hc : c = b
  · subst hc
    rw [withBits_of_data h, update_self, update_self]
  · rw [update_of_ne hc, withBits, withBits, update_of_ne hc]

/-- The next block is used. -/
theorem withBits_succ (hzero : sect n = zeroBlock) (hn : 34 ≤ n) (hlt : n < size) :
    withBits sect (n + 1) =
      update (markUsed geo (withBits sect n) n) n zeroBlock := by
  have hblock : BBLOCK n geo.ninodes = n / BPB + 28 := rfl
  funext c
  by_cases hc : c = n
  · subst hc
    rw [update_self, withBits_of_data (.inr hn), hzero]
  rw [update_of_ne hc, markUsed, hblock]
  by_cases hcb : c = n / BPB + 28
  · subst hcb
    have hin : 28 ≤ n / BPB + 28 ∧ n / BPB + 28 < 34 := by lia
    rw [update_self, withBits, withBits, if_pos hin, if_pos hin, Nat.add_sub_cancel]
    have h1 : min BPB (n + 1 - n / BPB * BPB) = n % BPB + 1 := by lia
    have h2 : min BPB (n - n / BPB * BPB) = n % BPB := by lia
    rw [h1, h2, marks_succ]
  · rw [update_of_ne hcb, withBits, withBits]
    split
    · congr 1
      lia
    · rfl

end

/-! ## The image in order -/

/-- What holds of the image while the inodes are those of `tbl`. -/
structure Base (s : Img) (tbl : Nat → Dinode) : Prop where
  nsect : s.nsect = size
  sb : getSb (s.sect 1) = geo.toSuperblock
  bits : ∀ b, 28 ≤ b → b < 34 → s.sect b = zeroBlock
  sync : s.usedblocks = s.freeblock
  start : 34 ≤ s.freeblock
  le : s.freeblock ≤ size
  fresh : ∀ b, s.freeblock ≤ b → s.sect b = zeroBlock
  own : Own geo size tbl s.disk
  cover : ∀ b, 34 ≤ b → b < s.freeblock → ∃ x π, node geo tbl s.disk x π = some b

/-- The place of the index block in an inode. -/
abbrev ind : Fin (NDIRECT + 2) := ⟨NDIRECT, indirect_lt⟩

/-- A file has its first `n` blocks and, if `ix`, an index block. -/
structure Fit (tbl : Nat → Dinode) (disk : Nat → Block) (i n : Nat) (ix : Prop) : Prop where
  block : ∀ bn, node geo tbl disk (i, (pos bn).1) (pos bn).2 ≠ none ↔ bn < n
  index : node geo tbl disk (i, ind) [] ≠ none ↔ ix

/-- The blocks that this many bytes lie in. -/
def count (len : Nat) : Nat := (len + 511) / 512

/-- The blocks of a file with `n` data blocks, the index block counted. -/
def blocks (n : Nat) : Nat := n + if NDIRECT < n then 1 else 0

/-- As many blocks as a file has without a doubly indirect block. -/
abbrev LIMIT : Nat := NDIRECT + NINDIRECT

/-- The image with one more block taken. -/
def Img.more (s : Img) : Img :=
  { s with freeblock := s.freeblock + 1, usedblocks := s.usedblocks + 1 }

variable {tbl' : Nat → Dinode}

section
variable {s s' : Img} {tbl : Nat → Dinode} {i j b sec : Nat} {k : Fin (NDIRECT + 2)}
  {E : Stop → Prop}

theorem Img.disk_of_data (s : Img) {b : Nat} (h : b < 28 ∨ 34 ≤ b) : s.disk b = s.sect b :=
  withBits_of_data h

/-- A block of a file is a data block that has been taken. -/
theorem Base.data {x : Nat × Fin (NDIRECT + 2)} {π : List Nat} (h : Base s tbl)
    (hb : node geo tbl s.disk x π = some b) : 34 ≤ b ∧ b < s.freeblock := by
  obtain ⟨h1, h2, h3⟩ := h.own.data x π b hb
  rw [Img.disk, used_withBits h2, decide_eq_true_eq] at h3
  exact ⟨h1, h3⟩

/-- **Taking the next block** is allocating it. -/
theorem Base.take (h : Base s tbl) (hlt : s.freeblock < size) :
    Own geo size tbl s.more.disk ∧ Held geo size tbl s.more.disk s.freeblock ∧
    (∀ x π, node geo tbl s.more.disk x π = node geo tbl s.disk x π) ∧
    ∀ i o, fileByte geo tbl s.more.disk i o = fileByte geo tbl s.disk i o := by
  have hfree : s.freeblock ∈ free geo size s.disk := by
    rw [mem_free, Img.disk, used_withBits hlt]
    exact ⟨hlt, decide_eq_false (Nat.lt_irrefl _)⟩
  obtain ⟨h1, h2, h3, h4, -⟩ := h.own.alloc (Nat.le_refl _) hfree
    (withBits_succ (h.fresh _ (Nat.le_refl _)) h.start hlt)
  exact ⟨h1, h2, h3, h4⟩

/-- The block taken is in a file now. -/
theorem Base.cover_more {disk' : Nat → Block}
    {y : Nat × Fin (NDIRECT + 2)} {ρ : List Nat} (h : Base s tbl) (hnone : node geo tbl s.disk y ρ = none)
    (hn : ∀ x π, node geo tbl' disk' x π =
      if x = y ∧ π = ρ then some s.freeblock else node geo tbl s.disk x π) :
    ∀ b, 34 ≤ b → b < s.freeblock + 1 → ∃ x π, node geo tbl' disk' x π = some b := by
  intro b h1 h2
  by_cases hb : b = s.freeblock
  · exact ⟨y, ρ, by rw [hn, if_pos ⟨rfl, rfl⟩, hb]⟩
  · obtain ⟨x, π, hx⟩ := h.cover b h1 (by omega)
    refine ⟨x, π, ?_⟩
    rw [hn, if_neg, hx]
    rintro ⟨rfl, rfl⟩
    rw [hnone] at hx
    cases hx

/-- **A new block in an inode.** -/
theorem Base.hang_root (h : Base s tbl) (hlt : s.freeblock < size) (hi : i < ninodes)
    (ht : (tbl i).type ≠ 0) (hk : (tbl i).addrs k = 0) :
    Base s.more (withAddr tbl i k s.freeblock) ∧
    (∀ x π, node geo (withAddr tbl i k s.freeblock) s.more.disk x π =
      if x = (i, k) ∧ π = [] then some s.freeblock else node geo tbl s.disk x π) ∧
    ∀ j o, fileByte geo (withAddr tbl i k s.freeblock) s.more.disk j o =
      fileByte geo tbl s.disk j o := by
  obtain ⟨hown, hheld, hnode, hbyte⟩ := h.take hlt
  obtain ⟨hown', hnode', hbyte'⟩ := hown.fill_root (Nat.le_refl _) hheld hi ht hk
  have hn : ∀ x π, node geo (withAddr tbl i k s.freeblock) s.more.disk x π =
      if x = (i, k) ∧ π = [] then some s.freeblock else node geo tbl s.disk x π := fun x π => by
    rw [hnode', hnode]
  have hnone : node geo tbl s.disk (i, k) [] = none := by simp [root, hk]
  refine ⟨⟨h.nsect, h.sb, h.bits, ?_, ?_, hlt, fun b hb => h.fresh b ?_, hown',
    h.cover_more hnone hn⟩, hn, fun j o => by rw [hbyte', hbyte]⟩
  · exact congrArg (· + 1) h.sync
  · exact Nat.le_succ_of_le h.start
  · exact Nat.le_of_succ_le hb

/-- The image with another sector. -/
def Img.write (s : Img) (sec : Nat) (buf : Block) : Img :=
  { s with sect := update s.sect sec buf }

theorem Img.disk_write (buf : Block) (h : sec < 28 ∨ 34 ≤ sec) :
    (s.write sec buf).disk = update s.disk sec buf := withBits_update h

theorem wp_rsect {Q : Block → Img → Prop} (hs : s.nsect = size)
    (hE : size ≤ sec → E .read) (h : sec < size → Q (s.sect sec) s) : wp (rsect sec) Q E s := by
  simp only [rsect, wp_bind, wp_gets, wp_stopIf, hs]
  exact ⟨hE, fun hlt => h (by omega)⟩

theorem wp_wsect {buf : Block} {Q : Unit → Img → Prop} (hs : s.nsect = size)
    (hlt : sec < size) (h : Q () (s.write sec buf)) : wp (wsect sec buf) Q E s := by
  simp only [wsect, wp_modify]
  rw [hs, Nat.max_eq_left (by omega), ← hs]
  exact h

/-- **A new block in an index block.** -/
theorem Base.hang_entry {x : Nat × Fin (NDIRECT + 2)} {π : List Nat} {a : Nat} (h : Base s tbl)
    (hlt : s.freeblock < size) (ha : node geo tbl s.disk x π = some a) (hin : shape.inner x π)
    (hj : j < NINDIRECT) (hzero : getIndex (s.sect a) j = 0) :
    Base (s.more.write a (putIndex (s.sect a) j s.freeblock)) tbl ∧
    (∀ y ρ, node geo tbl (s.more.write a (putIndex (s.sect a) j s.freeblock)).disk y ρ =
      if y = x ∧ ρ = j :: π then some s.freeblock else node geo tbl s.disk y ρ) ∧
    ∀ i o, fileByte geo tbl (s.more.write a (putIndex (s.sect a) j s.freeblock)).disk i o =
      fileByte geo tbl s.disk i o := by
  obtain ⟨hown, hheld, hnode, hbyte⟩ := h.take hlt
  obtain ⟨hge, hla⟩ := h.data ha
  have hsect : s.more.disk a = s.sect a := Img.disk_of_data _ (.inr hge)
  have hdisk : (s.more.write a (putIndex (s.sect a) j s.freeblock)).disk =
      update s.more.disk a (putIndex (s.more.disk a) j s.freeblock) := by
    rw [Img.disk_write _ (.inr hge), hsect]
  obtain ⟨hown', hnode', hbyte', -⟩ := hown.fill_entry (Nat.le_refl _) hheld
    ((hnode x π).trans ha) hin hj (by rw [hsect]; exact hzero) hdisk
  have hn : ∀ y ρ, node geo tbl (s.more.write a (putIndex (s.sect a) j s.freeblock)).disk y ρ =
      if y = x ∧ ρ = j :: π then some s.freeblock else node geo tbl s.disk y ρ := fun y ρ => by
    rw [hnode', hnode]
  have hnone : node geo tbl s.disk x (j :: π) = none := by
    rw [node, Shape.node_child ha, Img.disk_of_data _ (.inr hge)]
    simp [shape, hzero]
  have hne : ∀ c, c < 34 ∨ s.freeblock + 1 ≤ c →
      (s.more.write a (putIndex (s.sect a) j s.freeblock)).sect c = s.sect c := fun c hc =>
    update_of_ne (by omega) _ _
  refine ⟨⟨h.nsect, ?_, fun c h1 h2 => ?_, congrArg (· + 1) h.sync, Nat.le_succ_of_le h.start, hlt,
    fun c hc => ?_, hown', h.cover_more hnone hn⟩, hn, fun i o => by rw [hbyte', hbyte]⟩
  · rw [hne 1 (by omega)]
    exact h.sb
  · rw [hne c (by omega)]
    exact h.bits c h1 h2
  · rw [hne c (.inr hc)]
    exact h.fresh c (Nat.le_of_succ_le hc)

/-- **Bytes written to a block of a file.** -/
theorem Base.write_leaf {bn : Nat} (buf : Block) (h : Base s tbl)
    (hb : node geo tbl s.disk (i, (pos bn).1) (pos bn).2 = some b) : Base (s.write b buf) tbl ∧
    (∀ x π, node geo tbl (s.write b buf).disk x π = node geo tbl s.disk x π) ∧
    ∀ j o, fileByte geo tbl (s.write b buf).disk j o =
      if j = i ∧ o / BSIZE = bn then buf (o % BSIZE) else fileByte geo tbl s.disk j o := by
  obtain ⟨hge, hlt⟩ := h.data hb
  obtain ⟨hown, hnode, hbyte, -⟩ := h.own.write_leaf (Nat.le_refl _) hb
    (Img.disk_write buf (.inr hge))
  have hne : ∀ c, c < 34 ∨ s.freeblock ≤ c → (s.write b buf).sect c = s.sect c := fun c hc =>
    update_of_ne (by omega) _ _
  refine ⟨⟨h.nsect, ?_, fun c h1 h2 => ?_, h.sync, h.start, h.le, fun c hc => ?_, hown,
    fun c h1 h2 => ?_⟩, hnode, hbyte⟩
  · rw [hne 1 (by omega)]
    exact h.sb
  · rw [hne c (by omega)]
    exact h.bits c h1 h2
  · rw [hne c (.inr hc)]
    exact h.fresh c hc
  · obtain ⟨x, π, hx⟩ := h.cover c h1 h2
    exact ⟨x, π, (hnode x π).trans hx⟩

end

/-! ## The map of blocks -/

section
variable {s s' s1 : Img} {tbl : Nat → Dinode} {i j n b m : Nat} {k : Fin (NDIRECT + 2)}
  {E : Stop → Prop} {din din' din1 : Dinode} {ρ : List Nat} {data p : List UInt8}

/-- The inodes, with the one that is worked on. -/
abbrev withInode (tbl : Nat → Dinode) (i : Nat) (din : Dinode) : Nat → Dinode :=
  update tbl i din

/-- What is left alone while inode `i` is worked on: sectors, inode numbers, the other fields of the
inode, and the bytes and the blocks of the other files. -/
structure Frame (tbl : Nat → Dinode) (i : Nat) (s : Img) (din : Dinode) (s' : Img) (din' : Dinode) :
    Prop where
  base : Base s' (withInode tbl i din')
  same : din' = { din with addrs := din'.addrs }
  front : ∀ c < 28, s'.sect c = s.sect c
  inodes : s'.freeinode = s.freeinode
  node : ∀ j ≠ i, ∀ q π, node geo (withInode tbl i din') s'.disk (j, q) π =
    node geo (withInode tbl i din) s.disk (j, q) π
  byte : ∀ j ≠ i, ∀ o, fileByte geo (withInode tbl i din') s'.disk j o =
    fileByte geo (withInode tbl i din) s.disk j o

theorem Frame.refl (h : Base s (withInode tbl i din)) : Frame tbl i s din s din :=
  ⟨h, rfl, fun _ _ => rfl, rfl, fun _ _ _ _ => rfl, fun _ _ _ => rfl⟩

theorem Frame.trans (h : Frame tbl i s din s1 din1) (h' : Frame tbl i s1 din1 s' din') :
    Frame tbl i s din s' din' where
  base := h'.base
  same := by rw [h'.same, h.same]
  front c hc := (h'.front c hc).trans (h.front c hc)
  inodes := h'.inodes.trans h.inodes
  node j hj q π := (h'.node j hj q π).trans (h.node j hj q π)
  byte j hj o := (h'.byte j hj o).trans (h.byte j hj o)

theorem Frame.type (h : Frame tbl i s din s' din') : din'.type = din.type := by rw [h.same]

/-- The file has block `b` at a place, where it was or taken for it. -/
structure Maps (tbl : Nat → Dinode) (i : Nat) (k : Fin (NDIRECT + 2)) (ρ : List Nat) (b : Nat)
    (s : Img) (din : Dinode) (s' : Img) (din' : Dinode) : Prop extends
    Frame tbl i s din s' din' where
  own : ∀ q π, Fs.node geo (withInode tbl i din') s'.disk (i, q) π =
    if q = k ∧ π = ρ then some b else Fs.node geo (withInode tbl i din) s.disk (i, q) π
  bytes : ∀ o, fileByte geo (withInode tbl i din') s'.disk i o =
    fileByte geo (withInode tbl i din) s.disk i o
  more : s'.freeblock = s.freeblock +
    if Fs.node geo (withInode tbl i din) s.disk (i, k) ρ = none then 1 else 0

/-- Nothing is to be done for a block that is there. -/
theorem Maps.present (h : Base s (withInode tbl i din))
    (hb : node geo (withInode tbl i din) s.disk (i, k) ρ = some b) :
    Maps tbl i k ρ b s din s din := by
  refine ⟨.refl h, fun q π => ?_, fun _ => rfl, by rw [hb]; simp⟩
  split
  · next hq => rw [hq.1, hq.2, hb]
  · rfl

/-- The block would be past the end of the image. -/
def Past (E : Stop → Prop) (b : Nat) (s : Img) : Prop := s.nsect = size ∧ size ≤ b ∧ E .read

theorem withAddr_withInode : withAddr (withInode tbl i din) i k b =
    withInode tbl i { din with addrs := update din.addrs k (UInt32.ofNat b) } := by
  simp [withAddr, withInode]

theorem node_withInode_root (hi : i < ninodes) (ht : din.type ≠ 0) {disk : Nat → Block} :
    node geo (withInode tbl i din) disk (i, k) [] =
      if din.addrs k ≠ 0 then some (din.addrs k).toNat else none := by
  have hi' : i < geo.ninodes := hi
  simp [root, hi', ht]

/-- **The block at `din.addrs[k]`.** -/
theorem mapRoot_spec (h : Base s (withInode tbl i din)) (hi : i < ninodes) (ht : din.type ≠ 0)
    (hroom : din.addrs k = 0 → E .read ∨ s.freeblock < size) :
    wp (mapRoot din k) (fun din' s' => Maps tbl i k [] (din'.addrs k).toNat s din s' din' ∨
      Past E (din'.addrs k).toNat s') E s := by
  rw [mapRoot]
  refine wp_ite (fun hk => ?_) fun hk => ?_
  · simp only [take, wp_bind, wp_gets, wp_modify, wp_pure]
    have hb : (UInt32.ofNat s.freeblock).toNat = s.freeblock :=
      UInt32.toNat_ofNat_of_lt' (by have := h.le; simp only [UInt32.size, size] at *; omega)
    rw [update_self, hb]
    by_cases hlt : s.freeblock < size
    · have hself : withInode tbl i din i = din := update_self ..
      have hnone := @node_withInode_root tbl i k din hi ht s.disk
      rw [if_neg (by simp [hk])] at hnone
      obtain ⟨hbase, hnode, hbyte⟩ := h.hang_root hlt hi (by rw [hself]; exact ht)
        (by rw [hself]; exact hk)
      rw [withAddr_withInode] at hbase hnode hbyte
      refine .inl ⟨⟨hbase, rfl, fun _ _ => rfl, rfl, fun j hj q π => ?_, fun j _ o => hbyte j o⟩,
        fun q π => ?_, hbyte i, by rw [hnone]; rfl⟩
      · rw [← Img.more, hnode, if_neg (by simp [hj])]
      · rw [← Img.more, hnode]
        simp [Prod.ext_iff]
    · exact .inr ⟨h.nsect, by omega, (hroom hk).resolve_right hlt⟩
  · refine .inl (.present h ?_)
    rw [node_withInode_root hi ht, if_pos hk]

/-- **The block at `indirect[j]`** of the index block. -/
theorem mapEntry_spec {a : Nat} (h : Base s (withInode tbl i din))
    (ha : node geo (withInode tbl i din) s.disk (i, ind) [] = some a)
    (hover : j < NINDIRECT ∨ E .overrun)
    (hroom : j < NINDIRECT → node geo (withInode tbl i din) s.disk (i, ind) [j] = none →
      E .read ∨ s.freeblock < size) : wp (mapEntry a j) (fun b s' => j < NINDIRECT ∧
      (Maps tbl i ind [j] b s din s' din ∨ Past E b s')) E s := by
  obtain ⟨hge, hlt⟩ := h.data ha
  have hle := h.le
  have hin : ([] : List Nat).length < level ind := by decide
  have hchild : node geo (withInode tbl i din) s.disk (i, ind) [j] =
      if j < NINDIRECT ∧ getIndex (s.sect a) j ≠ 0 then some (getIndex (s.sect a) j) else none := by
    rw [node, Shape.node_child ha, Img.disk_of_data _ (.inr hge)]
    simp only [shape, hin, true_and]
  rw [mapEntry, wp_bind]
  refine wp_rsect h.nsect (fun e => absurd e (by omega)) fun _ => ?_
  rw [wp_bind, wp_stopIf]
  refine ⟨fun e => hover.resolve_left (by omega), fun hj => ?_⟩
  have hj' : j < NINDIRECT := by omega
  refine wp_ite (fun h0 => ?_) fun h0 => ?_
  · have hnone : node geo (withInode tbl i din) s.disk (i, ind) [j] = none := by
      rw [hchild, if_neg (by simp [h0])]
    simp only [take, wp_bind, wp_gets, wp_modify, wp_pure]
    refine wp_wsect h.nsect (by omega) ⟨hj', ?_⟩
    by_cases hfree : s.freeblock < size
    · obtain ⟨hbase, hnode, hbyte⟩ := h.hang_entry hfree ha hin hj' h0
      refine .inl ⟨⟨hbase, rfl, fun c hc => ?_, rfl, fun m hm q π => ?_, fun m _ o => hbyte m o⟩,
        fun q π => ?_, hbyte i, by rw [hnone]; rfl⟩
      · exact update_of_ne (by omega) _ _
      · exact (hnode _ _).trans (if_neg (by simp [hm]))
      · refine (hnode _ _).trans ?_
        simp [Prod.ext_iff]
    · exact .inr ⟨h.nsect, by omega, (hroom hj' hnone).resolve_right hfree⟩
  · refine ⟨hj', .inl (.present h ?_)⟩
    rw [hchild, if_pos ⟨hj', h0⟩]

/-- The place of a file block as two parts. -/
theorem pos_eq_iff {bn fbn : Nat} : ((pos bn).1 = (pos fbn).1 ∧ (pos bn).2 = (pos fbn).2) ↔
    bn = fbn :=
  ⟨fun h => pos_inj (Prod.ext h.1 h.2), fun h => by rw [h]; exact ⟨rfl, rfl⟩⟩

/-- No file block is at the place of the index block. -/
theorem pos_ne_ind (bn : Nat) : ¬ ((pos bn).1 = ind ∧ (pos bn).2 = []) := by
  rintro ⟨h1, h2⟩
  have hlen := pos_length bn
  rw [h1, h2] at hlen
  exact absurd hlen (by decide)

/-- The index block is at no place of a file block. -/
theorem Fit.map_block {ix : Prop} (fbn : Nat) (hf : Fit (withInode tbl i din) s.disk i n ix)
    (hm : Maps tbl i (pos fbn).1 (pos fbn).2 b s din s' din') (hle : fbn ≤ n) :
    Fit (withInode tbl i din') s'.disk i (max n (fbn + 1)) ix := by
  refine ⟨fun bn => ?_, ?_⟩
  · rw [hm.own]
    split
    · next e =>
      rw [pos_eq_iff.1 e]
      simp
    · next e =>
      have hne : bn ≠ fbn := fun h => e (pos_eq_iff.2 h)
      rw [hf.block]
      omega
  · rw [hm.own, if_neg, hf.index]
    rintro ⟨h1, h2⟩
    exact pos_ne_ind fbn ⟨h1.symm, h2.symm⟩

theorem Fit.map_index {ix : Prop} (hf : Fit (withInode tbl i din) s.disk i n ix)
    (hm : Maps tbl i ind [] b s din s' din') : Fit (withInode tbl i din') s'.disk i n True := by
  refine ⟨fun bn => ?_, ?_⟩
  · rw [hm.own, if_neg (pos_ne_ind bn), hf.block]
  · rw [hm.own, if_pos ⟨rfl, rfl⟩]
    simp

/-- The file has its block `fbn` now: `x`. -/
structure Mapped (tbl : Nat → Dinode) (i n fbn x : Nat) (s : Img) (din : Dinode) (s' : Img)
    (din' : Dinode) : Prop extends Frame tbl i s din s' din' where
  lt : fbn < LIMIT
  block : Fs.node geo (withInode tbl i din') s'.disk (i, (pos fbn).1) (pos fbn).2 = some x
  fit : Fit (withInode tbl i din') s'.disk i (max n (fbn + 1)) (NDIRECT < max n (fbn + 1))
  bytes : ∀ o, fileByte geo (withInode tbl i din') s'.disk i o =
    fileByte geo (withInode tbl i din) s.disk i o
  more : s'.freeblock + blocks n = s.freeblock + blocks (max n (fbn + 1))

/-- **`mkfs`'s map of blocks** finds the block or takes a new one, with a new index block if that is
the first block past the direct ones. -/
theorem mapBlock_spec {fbn : Nat} (h : Base s (withInode tbl i din)) (hi : i < ninodes)
    (ht : din.type ≠ 0) (hf : Fit (withInode tbl i din) s.disk i n (NDIRECT < n)) (hle : fbn ≤ n)
    (hover : fbn < LIMIT ∨ E .overrun)
    (hroom : E .read ∨ s.freeblock + blocks (max n (fbn + 1)) ≤ size + blocks n) :
    wp (mapBlock din fbn) (fun r s' => Mapped tbl i n fbn r.2 s din s' r.1 ∨ Past E r.2 s') E s := by
  have hnone : ∀ {a : Option Nat} {c : Prop}, (a ≠ none ↔ c) → (a = none ↔ ¬ c) := fun h => by
    rw [← h, not_not]
  have hdata := hnone (hf.block fbn)
  have hindex := hnone hf.index
  simp only [blocks] at hroom
  rw [mapBlock]
  by_cases hd : fbn < NDIRECT
  · have hpos := pos_direct hd
    rw [hpos] at hdata
    rw [dif_pos hd, wp_bind]
    refine wp_post (mapRoot_spec h hi ht fun h0 => hroom.imp_right fun hr => ?_) ?_
    · have hge := hdata.1 (by rw [node_withInode_root hi ht, if_neg (by simp [h0])])
      split_ifs at hr <;> omega
    · rintro din' s' (hm | hpast)
      · refine .inl ⟨hm.toFrame, by lia, ?_, ?_, hm.bytes, ?_⟩
        · rw [hpos, hm.own, if_pos ⟨rfl, rfl⟩]
        · have hfit := hf.map_block fbn (by rw [hpos]; exact hm) hle
          exact ⟨hfit.block, hfit.index.trans (by omega)⟩
        · rw [hm.more, if_congr hdata rfl rfl]
          simp only [blocks]
          split_ifs <;> omega
      · exact .inr hpast
  · rw [dif_neg hd, wp_bind]
    refine wp_post (mapRoot_spec (k := ind) h hi ht fun h0 => hroom.imp_right fun hr => ?_) ?_
    · have hge := hindex.1 (by rw [node_withInode_root hi ht, if_neg (by simp [h0])])
      split_ifs at hr <;> omega
    rintro din1 s1 (hm | ⟨hsect, hpast, hE⟩)
    swap
    · rw [mapEntry, wp_bind, wp_bind]
      exact wp_rsect hsect (fun _ => hE) fun hlt => absurd hlt (Nat.not_lt.2 hpast)
    -- the index block is there
    have hix := hf.map_index hm
    have hroot := hm.own ind []
    have hmore := hm.more
    rw [if_congr hindex rfl rfl] at hmore
    rw [wp_bind]
    refine wp_post (mapEntry_spec hm.base hroot
      (hover.imp_left fun hlt => by lia) fun hj hno =>
        hroom.imp_right fun hr => ?_) ?_
    · have hpos := pos_indirect hd hj
      have hge := hnone (hix.block fbn)
      rw [hpos] at hge
      have hge := hge.1 hno
      split_ifs at hr hmore <;> omega
    · rintro x s2 ⟨hj, hm' | hpast⟩
      swap
      · exact .inr hpast
      have hpos := pos_indirect hd hj
      have hge := hnone (hix.block fbn)
      rw [hpos] at hge
      refine .inl ⟨hm.toFrame.trans hm'.toFrame, by lia, ?_, ?_,
        fun o => (hm'.bytes o).trans (hm.bytes o), ?_⟩
      · rw [hpos, hm'.own, if_pos ⟨rfl, rfl⟩]
      · have hfit := hix.map_block fbn (by rw [hpos]; exact hm') hle
        exact ⟨hfit.block, hfit.index.trans (by simp only [true_iff]; omega)⟩
      · have hmore' := hm'.more
        rw [if_congr hge rfl rfl] at hmore'
        simp only [blocks]
        split_ifs at hmore hmore' ⊢ <;> omega

/-! ## Appending -/

/-- Inode `i` is worked on and the file is `data` so far. -/
structure Holds (tbl : Nat → Dinode) (i : Nat) (data : List UInt8) (s : Img) (din : Dinode) :
    Prop where
  small : data.length ≤ LIMIT * 512
  fit : Fit (withInode tbl i din) s.disk i (count data.length) (NDIRECT < count data.length)
  bytes : ∀ o, fileByte geo (withInode tbl i din) s.disk i o = data.getD o 0

theorem blocks_mono (h : n ≤ m) : blocks n ≤ blocks m := by
  simp only [blocks]
  split_ifs <;> omega

/-- One turn of the loop fills the block that the end of the file is in. -/
theorem count_turn {off len : Nat} (h : 0 < len) :
    count (off + min len ((off / 512 + 1) * 512 - off)) = max (count off) (off / 512 + 1) := by
  grind [count]

theorem getD_append_take {o : Nat} : (data ++ p.take m).getD o 0 =
      if data.length ≤ o ∧ o < data.length + m then p.getD (o - data.length) 0
      else data.getD o 0 := by
  simp only [List.getD_eq_getElem?_getD, List.getElem?_append, List.getElem?_take]
  by_cases ho : o < data.length
  · rw [if_pos ho, if_neg (by omega)]
  · grind

/-- **The bytes of a turn.** -/
theorem Holds.write {x : Nat} (h : Holds tbl i data s din)
    (hm : Mapped tbl i (count data.length) (data.length / 512) x s din s' din')
    (hcount : m = min p.length ((data.length / 512 + 1) * 512 - data.length)) (hpos : 0 < p.length) :
    Frame tbl i s din (s'.write x ((s'.sect x).blit (data.length - data.length / 512 * 512) m
      fun o => p.getD o 0)) din' ∧
    Holds tbl i (data ++ p.take m) (s'.write x ((s'.sect x).blit
      (data.length - data.length / 512 * 512) m fun o => p.getD o 0)) din' := by
  have hlen : (data ++ p.take m).length = data.length + m := by
    rw [List.length_append, List.length_take]
    omega
  have hn : count (data ++ p.take m).length = max (count data.length) (data.length / 512 + 1) := by
    rw [hlen, hcount, count_turn hpos]
  obtain ⟨hge, -⟩ := hm.base.data hm.block
  generalize hbuf : ((s'.sect x).blit (data.length - data.length / 512 * 512) m
    fun o => p.getD o 0) = buf
  obtain ⟨hbase, hnode, hbyte⟩ := hm.base.write_leaf buf hm.block
  have hlt := hm.lt
  refine ⟨⟨hbase, hm.same, fun c hc => ?_, hm.inodes, fun j hj q π => ?_, fun j hj o => ?_⟩,
    ?_, ⟨fun bn => ?_, ?_⟩, fun o => ?_⟩
  · rw [← hm.front c hc]
    exact update_of_ne (by omega) _ _
  · rw [hnode, hm.node j hj]
  · rw [hbyte, if_neg (by simp [hj]), hm.byte j hj]
  · lia
  · rw [hnode, hn]
    exact hm.fit.block bn
  · rw [hnode, hn]
    exact hm.fit.index
  · rw [hbyte, getD_append_take, ← h.bytes, ← hm.bytes]
    -- the byte is in the block of this turn, and there new or old
    by_cases ho : o / BSIZE = data.length / 512
    · have hold : fileByte geo (withInode tbl i din') s'.disk i o = s'.sect x (o % BSIZE) := by
        rw [fileByte, ho, hm.block, ← Img.disk_of_data _ (.inr hge)]
      rw [if_pos ⟨rfl, ho⟩, ← hbuf, hold]
      simp only [BSIZE] at *
      split
      · next hin =>
        rw [Bytes.blit_of_mem (by omega)]
        congr 1
        omega
      · next hout => rw [Bytes.blit_of_outside (by omega)]
    · rw [if_neg (by simp [ho]), if_neg]
      lia

/-- **The loop of `iappend`** puts the bytes after those of the file. -/
theorem iappendFrom_spec (hi : i < ninodes) : ∀ (turns : Nat) (p data : List UInt8) (din : Dinode)
    (s : Img), p.length ≤ turns → Base s (withInode tbl i din) → din.type ≠ 0 →
    Holds tbl i data s din → (data.length + p.length ≤ LIMIT * 512 ∨ E .overrun) →
    (E .read ∨ s.freeblock + blocks (count (data.length + p.length)) ≤
      size + blocks (count data.length)) →
    wp (iappendFrom turns din data.length p) (fun r s' => r.2 = data.length + p.length ∧
      Frame tbl i s din s' r.1 ∧ Holds tbl i (data ++ p) s' r.1 ∧
      s'.freeblock + blocks (count data.length) =
        s.freeblock + blocks (count (data.length + p.length))) E s := by
  intro turns
  induction turns with
  | zero =>
    intro p data din s hturns hbase _ hh _ _
    obtain rfl : p = [] := List.length_eq_zero_iff.1 (Nat.le_zero.1 hturns)
    rw [List.append_nil]
    exact ⟨rfl, .refl hbase, hh, rfl⟩
  | succ turns ih =>
    intro p data din s hturns hbase ht hh hover hroom
    rw [iappendFrom]
    refine wp_ite (fun hp => ?_) fun hp => ?_
    · subst hp
      rw [List.append_nil]
      exact ⟨rfl, .refl hbase, hh, rfl⟩
    have hpos : 0 < p.length := List.length_pos_of_ne_nil hp
    have hsmall := hh.small
    have hle : data.length / 512 ≤ count data.length := by
      grind [count]
    simp only [wp_bind, wp_stopIf]
    refine ⟨fun e => absurd e ?_, fun _ => ?_⟩
    · lia
    generalize hm1 : min p.length ((data.length / 512 + 1) * 512 - data.length) = m
    have hturn := @count_turn data.length p.length hpos
    rw [hm1] at hturn
    have hgrow : blocks (count (data.length + m)) ≤ blocks (count (data.length + p.length)) :=
      blocks_mono (by grind [count])
    refine wp_post (mapBlock_spec hbase hi ht hh.fit hle (hover.imp_left fun hlt => ?_)
      (hroom.imp_right fun hr => ?_)) ?_
    · lia
    · rw [← hturn]
      omega
    rintro ⟨din', x⟩ s1 (hm | ⟨hsect, hpast, hE⟩)
    swap
    · exact wp_rsect hsect (fun _ => hE) fun hlt => absurd hlt (Nat.not_lt.2 hpast)
    have hx := hm.base.data hm.block
    have hle1 := hm.base.le
    refine wp_rsect hm.base.nsect (fun e => absurd e (by omega)) fun hlt => ?_
    refine wp_wsect hm.base.nsect hlt ?_
    obtain ⟨hframe, hholds⟩ := hh.write hm hm1.symm hpos
    have hmore := hm.more
    have hfree : (s1.write x ((s1.sect x).blit (data.length - data.length / 512 * 512) m
      fun o => p.getD o 0)).freeblock = s1.freeblock := rfl
    generalize s1.write x _ = s2 at hframe hholds hfree ⊢
    have hlen : (data ++ p.take m).length = data.length + m := by
      rw [List.length_append, List.length_take]
      omega
    have hsum : (data ++ p.take m).length + (p.drop m).length = data.length + p.length := by
      rw [hlen, List.length_drop]
      omega
    have hnext := ih (p.drop m) (data ++ p.take m) din' s2 (by rw [List.length_drop]; omega)
      hframe.base (by rw [hframe.type]; exact ht) hholds (by rw [hsum]; exact hover)
      (hroom.imp_right fun hr => ?_)
    · rw [hsum, hlen, List.append_assoc, List.take_append_drop] at hnext
      refine wp_post hnext fun r s' h => ⟨h.1, hframe.trans h.2.1, h.2.2.1, ?_⟩
      have hrest := h.2.2.2
      rw [hturn] at hrest
      omega
    · rw [hsum, hlen, hturn]
      omega

/-! ## The files of an image -/

/-- A file, as `mkfs` makes it. -/
structure Content where
  type : Int16
  data : List UInt8

/-- The image holds the files of `A`, by inode number. -/
structure Built (s : Img) (A : Nat → Option Content) : Prop where
  base : Base s (table geo s.sect)
  free : ∀ i, A i = none → (table geo s.sect i).type = 0
  range : ∀ i f, A i = some f → i < ninodes
  type : ∀ i f, A i = some f → (table geo s.sect i).type = f.type ∧ f.type ≠ 0
  size : ∀ i f, A i = some f → (table geo s.sect i).size.toNat = f.data.length
  holds : ∀ i f, A i = some f → Holds (table geo s.sect) i f.data s (table geo s.sect i)

/-- **An inode is written** that names the same blocks. -/
theorem Base.write_inode (buf : Block) (h : Base s tbl) (hi : i < ninodes)
    (hroot : root geo tbl' = root geo tbl) : Base (s.write (IBLOCK i) buf) tbl' ∧
    (∀ x π, node geo tbl' (s.write (IBLOCK i) buf).disk x π = node geo tbl s.disk x π) ∧
    ∀ j o, fileByte geo tbl' (s.write (IBLOCK i) buf).disk j o = fileByte geo tbl s.disk j o := by
  have hblk : 2 ≤ IBLOCK i ∧ IBLOCK i < 28 := by
    grind [IBLOCK]
  have hdisk := Img.disk_write (s := s) buf (.inl hblk.2)
  have hsame : ∀ x π a, node geo tbl s.disk x π = some a → (s.write (IBLOCK i) buf).disk a = s.disk a :=
    fun x π a ha => by
      have := (h.data ha).1
      rw [hdisk, update_of_ne (by omega)]
  obtain ⟨hnode, hbyte⟩ := node_eq_of_same hroot hsame
  have hne : ∀ c, c < 2 ∨ 28 ≤ c → (s.write (IBLOCK i) buf).sect c = s.sect c := fun c hc =>
    update_of_ne (by omega) _ _
  have hstart := h.start
  refine ⟨⟨h.nsect, ?_, fun c h1 h2 => ?_, h.sync, h.start, h.le, fun c hc => ?_, ?_,
    fun c h1 h2 => ?_⟩, hnode, hbyte⟩
  · rw [hne 1 (by omega)]
    exact h.sb
  · rw [hne c (by omega)]
    exact h.bits c h1 h2
  · rw [hne c (.inr (Nat.le_trans (show 28 ≤ s.freeblock by omega) hc))]
    exact h.fresh c hc
  · refine h.own.of_node_eq hnode fun c _ hc => ?_
    rw [hdisk, used_congr (update_of_ne (geo.front_ne_bblock (geo.iblock_lt hi)).symm _ _)]
    exact hc
  · obtain ⟨x, π, hx⟩ := h.cover c h1 h2
    exact ⟨x, π, (hnode x π).trans hx⟩

theorem winode_spec {d : Dinode} {Q : Unit → Img → Prop} (h : s.nsect = size) (hi : i < ninodes)
    (hQ : Q () (s.write (IBLOCK i) (putDinode (s.sect (IBLOCK i)) i d))) :
    wp (winode i d) Q E s := by
  have hlt : i2b i < size := by
    simp only [i2b, IPB, size, ninodes] at *
    omega
  rw [winode, wp_bind]
  exact wp_rsect h (fun e => absurd e (by omega)) fun _ => wp_wsect h hlt hQ

theorem rinode_spec {Q : Dinode → Img → Prop} (h : s.nsect = size) (hi : i < ninodes)
    (hQ : Q (table geo s.sect i) s) : wp (rinode i) Q E s := by
  have hlt : i2b i < size := by
    simp only [i2b, IPB, size, ninodes] at *
    omega
  rw [rinode, wp_bind]
  refine wp_rsect h (fun e => absurd e (by omega)) fun _ => ?_
  rw [table, if_pos (show i < geo.ninodes from hi)] at hQ
  exact hQ

/-- A file whose blocks and bytes are as they were. -/
theorem Holds.congr (h : Holds tbl i data s din) (hnode : ∀ q π, node geo tbl' s'.disk (i, q) π =
      node geo (withInode tbl i din) s.disk (i, q) π)
    (hbyte : ∀ o, fileByte geo tbl' s'.disk i o = fileByte geo (withInode tbl i din) s.disk i o) :
    Holds tbl' i data s' (tbl' i) := by
  have hself : withInode tbl' i (tbl' i) = tbl' := update_eq_self i tbl'
  refine ⟨h.small, ⟨fun bn => ?_, ?_⟩, fun o => ?_⟩
  · rw [hself, hnode]
    exact h.fit.block bn
  · rw [hself, hnode]
    exact h.fit.index
  · rw [hself, hbyte]
    exact h.bytes o

variable {A : Nat → Option Content} {f : Content}

/-- One file is new or changed. -/
theorem Built.put {d : Dinode} (h : Built s A) (hbase : Base s' (table geo s'.sect))
    (htbl : table geo s'.sect = withInode (table geo s.sect) i d)
    (hnode : ∀ j ≠ i, ∀ q π, node geo (table geo s'.sect) s'.disk (j, q) π =
      node geo (table geo s.sect) s.disk (j, q) π)
    (hbyte : ∀ j ≠ i, ∀ o, fileByte geo (table geo s'.sect) s'.disk j o =
      fileByte geo (table geo s.sect) s.disk j o)
    (hi : i < ninodes) (ht : d.type = f.type) (hne : f.type ≠ 0) (hsize : d.size.toNat = f.data.length)
    (hholds : Holds (table geo s'.sect) i f.data s' (table geo s'.sect i)) :
    Built s' (update A i (some f)) := by
  have hat : table geo s'.sect i = d := by rw [htbl, withInode, update_self]
  have hold : ∀ j ≠ i, table geo s'.sect j = table geo s.sect j := fun j hj => by
    rw [htbl, withInode, update_of_ne hj]
  -- what is asked of the entries of a map that is changed at one place
  have hcases : ∀ {P : Nat → Content → Prop}, P i f → (∀ j ≠ i, ∀ f', A j = some f' → P j f') →
      ∀ j f', update A i (some f) j = some f' → P j f' := by
    intro P h1 h2 j f' hj
    by_cases hji : j = i
    · grind
    · rw [update_of_ne hji] at hj
      exact h2 j hji f' hj
  refine ⟨hbase, fun j hj => ?_, hcases hi fun j _ => h.range j, hcases ⟨by rw [hat, ht], hne⟩ ?_,
    hcases (by rw [hat, hsize]) ?_, hcases hholds ?_⟩
  · by_cases hji : j = i
    · subst hji
      rw [update_self] at hj
      cases hj
    · rw [update_of_ne hji] at hj
      rw [hold j hji]
      exact h.free j hj
  · intro j hj f' hf'
    rw [hold j hj]
    exact h.type j f' hf'
  · intro j hj f' hf'
    rw [hold j hj]
    exact h.size j f' hf'
  · intro j hj f' hf'
    have hself : withInode (table geo s.sect) j (table geo s.sect j) = table geo s.sect :=
      update_eq_self j _
    refine (h.holds j f' hf').congr (fun q π => ?_) fun o => ?_
    · rw [hself, hnode j hj]
    · rw [hself, hbyte j hj]

/-- **Appending to a file appends to its bytes**, or the file would need a doubly indirect block. -/
theorem iappend_spec (h : Built s A)
    (hf : A i = some f) (hover : f.data.length + p.length ≤ LIMIT * 512 ∨ E .overrun)
    (hroom : E .read ∨ s.freeblock + blocks (count (f.data.length + p.length)) ≤
      size + blocks (count f.data.length)) :
    wp (iappend i p) (fun _ s' => Built s' (update A i (some { f with data := f.data ++ p })) ∧
      s'.freeinode = s.freeinode ∧ s'.freeblock + blocks (count f.data.length) =
        s.freeblock + blocks (count (f.data.length + p.length))) E s := by
  have hi := h.range i f hf
  obtain ⟨htype, hne⟩ := h.type i f hf
  have hself : withInode (table geo s.sect) i (table geo s.sect i) = table geo s.sect :=
    update_eq_self i _
  rw [iappend, wp_bind]
  refine rinode_spec h.base.nsect hi ?_
  rw [wp_bind, h.size i f hf]
  have hloop := @iappendFrom_spec (table geo s.sect) i E hi p.length p f.data (table geo s.sect i) s
    (Nat.le_refl _) (by rw [hself]; exact h.base) (by rw [htype]; exact hne) (h.holds i f hf) hover
    hroom
  refine wp_post hloop ?_
  rintro ⟨din, off⟩ s1 ⟨hoff, hframe, hholds, hmore⟩
  refine winode_spec hframe.base.nsect hi ⟨?_, hframe.inodes, hmore⟩
  generalize hd : ({ din with size := UInt32.ofNat off } : Dinode) = d
  -- the table is the one from before, with the new inode
  have htbl : table geo (s1.write (IBLOCK i) (putDinode (s1.sect (IBLOCK i)) i d)).sect =
      withInode (table geo s.sect) i d := by
    rw [← table_congr (g := geo) hframe.front]
    exact table_putDinode hi
  have hroot : root geo (withInode (table geo s.sect) i d) =
      root geo (withInode (table geo s.sect) i din) := by
    refine root_congr fun j => ?_
    by_cases hj : j = i
    · grind
    · simp only [withInode, update_of_ne hj, and_self]
  obtain ⟨hbase, hnode, hbyte⟩ := hframe.base.write_inode
    (putDinode (s1.sect (IBLOCK i)) i d) hi hroot
  rw [← htbl] at hbase hnode hbyte
  have hsmall := hholds.small
  refine h.put hbase htbl (fun j hj q π => ?_) (fun j hj o => ?_) hi ?_ hne ?_
    (hholds.congr (fun q π => hnode _ _) (hbyte i))
  · rw [hnode, hframe.node j hj, hself]
  · rw [hbyte, hframe.byte j hj, hself]
  · rw [← hd]
    exact hframe.type.trans htype
  · rw [List.length_append] at hsmall ⊢
    rw [← hd, ← hoff]
    refine UInt32.toNat_ofNat_of_lt' ?_
    simp only [UInt32.size, LIMIT, NDIRECT, NINDIRECT] at *
    omega

/-- **A new inode** is an empty file. -/
theorem ialloc_spec {type : Int16} (h : Built s A)
    (hi : s.freeinode < ninodes) (hnone : A s.freeinode = none) (ht : type ≠ 0) :
    wp (ialloc type) (fun i s' => i = s.freeinode ∧
      Built s' (update A i (some ⟨type, []⟩)) ∧ s'.freeinode = s.freeinode + 1 ∧
      s'.freeblock = s.freeblock) E s := by
  simp only [ialloc, wp_bind, wp_gets, wp_modify]
  generalize s.freeinode = i at hi hnone ⊢
  generalize hs1 : Img.mk s.sect _ _ _ (i + 1) = s1
  have hsect : s1.sect = s.sect := by rw [← hs1]
  have hdisk : s1.disk = s.disk := by rw [← hs1]; rfl
  have hbase1 : Base s1 (table geo s.sect) := by
    rw [← hs1]
    exact ⟨h.base.nsect, h.base.sb, h.base.bits, h.base.sync, h.base.start, h.base.le, h.base.fresh,
      h.base.own, h.base.cover⟩
  refine winode_spec hbase1.nsect hi ⟨rfl, ?_, by rw [← hs1]; rfl, by rw [← hs1]; rfl⟩
  generalize hd : Dinode.mk type _ _ 1 0 _ = d
  have htbl : table geo (s1.write (IBLOCK i) (putDinode (s1.sect (IBLOCK i)) i d)).sect =
      withInode (table geo s.sect) i d := by
    rw [← hsect]
    exact table_putDinode hi
  have hroot : root geo (withInode (table geo s.sect) i d) = root geo (table geo s.sect) := by
    have hzero : ∀ k, d.addrs k = 0 := fun k => by rw [← hd]; rfl
    funext x
    by_cases hx : x.1 = i
    · simp [root, withInode, hx, hzero, h.free i hnone]
    · simp [root, withInode, update_of_ne hx]
  have hempty : ∀ q π, node geo (table geo s.sect) s.disk (i, q) π = none := fun q =>
    Shape.node_none_of_root (by simp only [root, h.free i hnone, ne_eq, not_true_eq_false,
      false_and, and_false, if_false])
  obtain ⟨hbase, hnode, hbyte⟩ := hbase1.write_inode
    (putDinode (s1.sect (IBLOCK i)) i d) hi hroot
  rw [← htbl, hdisk] at hnode hbyte
  rw [← htbl] at hbase
  generalize s1.write (IBLOCK i) _ = s' at htbl hbase hnode hbyte ⊢
  have hself : withInode (table geo s'.sect) i (table geo s'.sect i) = table geo s'.sect :=
    update_eq_self i _
  refine h.put hbase htbl (fun j _ q π => hnode _ _) (fun j _ o => hbyte j o) hi
    (by rw [← hd]) ht (by rw [← hd]; rfl) ⟨Nat.zero_le _, ⟨fun bn => ?_, ?_⟩, fun o => ?_⟩
  · grind [count]
  · grind [count]
  · rw [hself, hbyte, fileByte]
    rw [hempty]
    rfl

/-- **The calls of `iappend` for one file** append all that they are given. -/
theorem appends_spec : ∀ (chunks : List (List UInt8)) {A : Nat → Option Content} {f : Content}
    {s : Img}, Built s A → A i = some f →
    (f.data.length + chunks.flatten.length ≤ LIMIT * 512 ∨ E .overrun) →
    (E .read ∨ s.freeblock + blocks (count (f.data.length + chunks.flatten.length)) ≤
      size + blocks (count f.data.length)) →
    wp (Comp.forM (iappend i) chunks) (fun _ s' =>
      Built s' (update A i (some { f with data := f.data ++ chunks.flatten })) ∧
      s'.freeinode = s.freeinode ∧ s'.freeblock + blocks (count f.data.length) =
        s.freeblock + blocks (count (f.data.length + chunks.flatten.length))) E s
  | [], A, f, s, h, hf, _, _ => by
    rw [List.flatten_nil, List.append_nil]
    refine ⟨?_, rfl, rfl⟩
    rw [show update A i (some f) = A from update_eq_iff.2 ⟨hf.symm, fun _ _ => rfl⟩]
    exact h
  | p :: chunks, A, f, s, h, hf, hover, hroom => by
    rw [List.flatten_cons] at hover hroom ⊢
    rw [List.length_append] at hover hroom ⊢
    have hmono : ∀ m, blocks (count (f.data.length + p.length)) ≤
        blocks (count (f.data.length + (p.length + m))) := fun m =>
      blocks_mono (by grind [count])
    have hgrow := hmono chunks.flatten.length
    refine wp_seq (iappend_spec h hf (hover.imp_left fun hlt => by omega)
      (hroom.imp_right fun hr => by omega)) fun _ s1 h1 => ?_
    obtain ⟨hbuilt, hino, hmore⟩ := h1
    have hlen : (f.data ++ p).length = f.data.length + p.length := List.length_append
    refine wp_post (appends_spec chunks hbuilt (update_self _ _ _) ?_ ?_) ?_
    · rw [hlen, Nat.add_assoc]
      exact hover
    · grind
    · grind [update_idem, List.append_assoc, Nat.add_assoc]

/-! ## What the kernel reads -/

/-- The kernel's `readi` finds `data` in the inode, at every offset. -/
def Reads (sect : Nat → Block) (i : Nat) (data : List UInt8) : Prop :=
  ∀ (k : Fs.State) (slot : Nat), k.disk = sect → (k.inode slot).inum = i →
    (k.inode slot).d = dinodeAt sect i → ∀ off n : UInt32, ∃ r, readi slot off n k = .ok (r, k) ∧
      if data.length < off.toNat ∨ 2 ^ 32 ≤ off.toNat + n.toNat then r = none
      else ∃ m dst, r = some (m, dst) ∧ bytes dst m = ByteFile.read data off.toNat n.toNat

/-- **What the image holds the kernel reads.** -/
theorem Built.reads (h : Built s A) (hf : A i = some f)
    (hdev : f.type ≠ T_DEV) : Reads s.sect i f.data := by
  intro k slot hdisk hinum hd off n
  have hi := h.range i f hf
  obtain ⟨htype, -⟩ := h.type i f hf
  have hsize := h.size i f hf
  have hself : withInode (table geo s.sect) i (table geo s.sect i) = table geo s.sect :=
    update_eq_self i _
  have htbl : dinodeAt s.sect i = table geo s.sect i := (if_pos hi).symm
  -- the bitmap makes no difference for the blocks of files
  obtain ⟨hnode, hbyte⟩ := @node_eq_of_same geo (table geo s.sect) (table geo s.sect) s.disk s.sect
    rfl fun x π a ha => (s.disk_of_data (.inr (h.base.data ha).1)).symm
  have hview : view geo k slot = table geo s.sect := by
    rw [view, hdisk, hinum, hd, htbl]
    exact hself
  have hholds := h.holds i f hf
  have hwhole : Whole geo k slot := fun bn hbn => by
    rw [HasBlock, blockAt, hview, hdisk, hinum, hnode]
    have := (hholds.fit.block bn).2 (by grind [count])
    rwa [hself] at this
  have hread := wp_total (@readi_spec geo slot k (fun _ => False)
    (by rw [hd, htbl, htype]; exact hdev) hwhole off n f.data.length (by rw [hd, htbl, hsize]))
  obtain ⟨r, k', hrun, rfl, hr⟩ := hread
  refine ⟨r, hrun, ?_⟩
  split at hr
  · next hout => rwa [if_pos hout]
  · next hin =>
    rw [if_neg hin]
    obtain ⟨dst, rfl, hdst⟩ := hr
    refine ⟨_, dst, rfl, List.ext_getElem? fun o => ?_⟩
    rw [getElem?_bytes, ByteFile.read, List.getElem?_take, List.getElem?_drop]
    by_cases ho : o < min (off.toNat + n.toNat) f.data.length - off.toNat
    · rw [if_pos ho, if_pos (by omega), hdst o ho, hview, hdisk, hinum, hbyte]
      have hb := hholds.bytes (off.toNat + o)
      rw [hself] at hb
      rw [hb, List.getD_eq_getElem?_getD, List.getElem?_eq_getElem (by omega)]
      rfl
    · grind

end

end Dixv6.Mkfs
