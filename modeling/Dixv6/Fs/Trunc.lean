import Dixv6.Fs.Contents

/-!
# Freeing an inode

`itrunc` gives back the direct blocks and the blocks under the indirect block, `iput` then clears
the type. `freed` is the disk with the bits of a list of blocks cleared, and `owned` the list that
`itrunc` goes through; the doubly indirect block and what is under it are not in it.
`iput_free_spec` says what is left: no other file changes, and **every block that was in use and
is not in `owned` still is**.
-/

namespace Dixv6.Fs

open Lib Function

/-! ## Clearing bits -/

/-- The disk with the bits of the blocks `l` cleared. -/
def freed (g : Geo) (disk : Nat → Block) (l : List Nat) : Nat → Block := l.foldl (markFree g) disk

section
variable {g : Geo} {disk : Nat → Block} {l : List Nat} {c : Nat}

theorem used_freed : used g (freed g disk l) c = (decide (c ∉ l) && used g disk c) := by
  induction l generalizing disk with
  | nil => simp [freed]
  | cons b l ih =>
    rw [freed, List.foldl_cons, ← freed, ih, used_markFree]
    by_cases h : c = b <;> simp [h]

/-- Only bitmap blocks change. -/
theorem freed_of_ne (h : ∀ b ∈ l, c ≠ BBLOCK b g.ninodes) : freed g disk l c = disk c := by
  induction l generalizing disk with
  | nil => rfl
  | cons b l ih =>
    rw [freed, List.foldl_cons, ← freed, ih fun x hx => h x (List.mem_cons_of_mem _ hx), markFree,
      update_of_ne (h b List.mem_cons_self)]

theorem freed_append {l' : List Nat} :
    freed g disk (l ++ l') = freed g (freed g disk l) l' := List.foldl_append

/-- The inodes do not change. -/
theorem freed_front (h : c < g.ninodes / IPB + 3) : freed g disk l c = disk c :=
  freed_of_ne fun _ _ => g.front_ne_bblock h

/-- Data blocks do not change. -/
theorem freed_data (hl : ∀ b ∈ l, b < g.size) (h : g.dstart ≤ c) : freed g disk l c = disk c :=
  freed_of_ne fun b hb => by
    have := g.bblock_lt (hl b hb)
    omega

end

/-! ## What `itrunc` frees -/

/-- The direct blocks of an inode, for the block numbers `ks`. -/
def directBlocks (d : Dinode) (ks : List (Fin (NDIRECT + 2))) : List Nat :=
  (ks.map fun k => (d.addrs k).toNat).filter (· ≠ 0)

/-- The entries of an index block, for the indices `js`. -/
def entryBlocks (blk : Block) (js : List Nat) : List Nat := (js.map (getIndex blk)).filter (· ≠ 0)

/-- The blocks that `itrunc` frees: the direct ones, those in the indirect block, and that one. -/
def owned (d : Dinode) (disk : Nat → Block) : List Nat :=
  directBlocks d directs ++
    if (d.addrs ⟨NDIRECT, indirect_lt⟩).toNat ≠ 0 then
      entryBlocks (disk (d.addrs ⟨NDIRECT, indirect_lt⟩).toNat) (List.range NINDIRECT) ++
        [(d.addrs ⟨NDIRECT, indirect_lt⟩).toNat]
    else []

/-- The values of a function that are not zero, without repetition. -/
theorem nodup_filter_map {α : Type} {f : α → Nat} {l : List α} (hl : l.Nodup)
    (hf : ∀ a ∈ l, ∀ b ∈ l, f a ≠ 0 → f a = f b → a = b) : ((l.map f).filter (· ≠ 0)).Nodup := by
  induction l with
  | nil => exact List.nodup_nil
  | cons a l ih =>
    obtain ⟨ha, hl⟩ := List.nodup_cons.1 hl
    have ih := ih hl fun x hx y hy =>
      hf x (List.mem_cons_of_mem _ hx) y (List.mem_cons_of_mem _ hy)
    rw [List.map_cons, List.filter_cons]
    split
    · next h0 =>
      refine List.nodup_cons.2 ⟨fun hmem => ha ?_, ih⟩
      obtain ⟨b, hb, hab⟩ := List.mem_map.1 (List.mem_of_mem_filter hmem)
      have h0 : f a ≠ 0 := by simpa using h0
      rw [hf a List.mem_cons_self b (List.mem_cons_of_mem _ hb) h0 hab.symm]
      exact hb
    · exact ih

variable {x : Nat × Fin (NDIRECT + 2)} {π : List Nat}

section
variable {g : Geo} {lim slot b i : Nat} {s s' : State} {E : Stop → Prop} {S : Finset Nat}
  {tbl : Nat → Dinode} {disk : Nat → Block} {d : Dinode}

theorem mem_directBlocks {ks : List (Fin (NDIRECT + 2))} :
    b ∈ directBlocks d ks ↔ b ≠ 0 ∧ ∃ k ∈ ks, (d.addrs k).toNat = b := by
  simp only [directBlocks, List.mem_filter, List.mem_map, decide_eq_true_eq]
  tauto

theorem mem_entryBlocks {blk : Block} {js : List Nat} :
    b ∈ entryBlocks blk js ↔ b ≠ 0 ∧ ∃ j ∈ js, getIndex blk j = b := by
  simp only [entryBlocks, List.mem_filter, List.mem_map, decide_eq_true_eq]
  tauto

/-- A position is no deeper than the level of its root. -/
theorem node_length (h : node g tbl disk x π = some b) : π.length ≤ level x.2 := by
  cases π with
  | nil => exact Nat.zero_le _
  | cons j π =>
    obtain ⟨a, -, he⟩ := Shape.node_parent h
    simp only [shape] at he
    split at he
    · next hin => exact hin.1
    · cases he

/-- The block an inode names. -/
theorem node_root {k : Fin (NDIRECT + 2)} (hi : i < g.ninodes) (ht : (tbl i).type ≠ 0) :
    node g tbl disk (i, k) [] = some b ↔ b ≠ 0 ∧ ((tbl i).addrs k).toNat = b := by
  have h0 : (tbl i).addrs k = 0 ↔ ((tbl i).addrs k).toNat = 0 :=
    ⟨fun h => by rw [h]; rfl, fun h => UInt32.toNat_inj.1 h⟩
  simp only [Shape.node_nil, root, hi, ht, ne_eq, not_false_eq_true, true_and, h0]
  split
  · next h => simp only [Option.some.injEq]; grind
  · next h => simp only [reduceCtorEq, false_iff]; grind

/-- The block that an index block names. -/
theorem node_entry {a j : Nat} (ha : node g tbl disk x π = some a) (hin : π.length < level x.2) :
    node g tbl disk x (j :: π) = some b ↔ b ≠ 0 ∧ j < NINDIRECT ∧ getIndex (disk a) j = b := by
  rw [node, Shape.node_child ha]
  simp only [shape, hin, true_and]
  split
  · next h => simp only [Option.some.injEq]; grind
  · next h => simp only [reduceCtorEq, false_iff]; grind

/-- **What `itrunc` frees are the file's blocks**, except those under `addrs[NDIRECT+1]`. -/
theorem mem_owned (hi : i < g.ninodes) (ht : (tbl i).type ≠ 0) : b ∈ owned (tbl i) disk ↔
      ∃ (k : Fin (NDIRECT + 2)) (π : List Nat), k.val ≠ NDIRECT + 1 ∧
        node g tbl disk (i, k) π = some b := by
  have hind : ∀ a, node g tbl disk (i, ⟨NDIRECT, indirect_lt⟩) [] = some a ↔
      a ≠ 0 ∧ ((tbl i).addrs ⟨NDIRECT, indirect_lt⟩).toNat = a := fun a => node_root hi ht
  rw [owned, List.mem_append, mem_directBlocks]
  constructor
  · rintro (⟨h0, k, hk, hkb⟩ | hb)
    · refine ⟨k, [], fun e => ?_, (node_root hi ht).2 ⟨h0, hkb⟩⟩
      have : ∀ k ∈ directs, (k : Nat) < NDIRECT := by decide
      have := this k hk
      omega
    · split at hb
      · next h0 =>
        have ha := (hind _).2 ⟨h0, rfl⟩
        rcases List.mem_append.1 hb with hb | hb
        · obtain ⟨h1, j, hj, hjb⟩ := mem_entryBlocks.1 hb
          exact ⟨⟨NDIRECT, indirect_lt⟩, [j], by decide,
            (node_entry ha (show 0 < 1 by decide)).2 ⟨h1, List.mem_range.1 hj, hjb⟩⟩
        · rw [List.mem_singleton.1 hb]
          exact ⟨⟨NDIRECT, indirect_lt⟩, [], by decide, ha⟩
      · cases hb
  · rintro ⟨k, π, hk, hb⟩
    have hlen := node_length hb
    by_cases hkd : k.val < NDIRECT
    · have hπ : π = [] := by
        simp only [level, NDIRECT] at hlen hkd
        exact List.length_eq_zero_iff.1 (by omega)
      subst hπ
      obtain ⟨h0, hkb⟩ := (node_root hi ht).1 hb
      have : ∀ k : Fin (NDIRECT + 2), (k : Nat) < NDIRECT → k ∈ directs := by decide
      exact .inl ⟨h0, k, this k hkd, hkb⟩
    · have hkN : k = ⟨NDIRECT, indirect_lt⟩ := by
        refine Fin.ext ?_
        lia
      subst hkN
      right
      cases π with
      | nil => grind
      | cons j π =>
        obtain ⟨a, ha, -⟩ := Shape.node_parent hb
        have hπ : π = [] := by
          simp only [level, NDIRECT, List.length_cons] at hlen
          exact List.length_eq_zero_iff.1 (by omega)
        subst hπ
        obtain ⟨h1, hj, hjb⟩ := (node_entry ha (show 0 < 1 by decide)).1 hb
        obtain ⟨h0, haa⟩ := (hind a).1 ha
        rw [if_pos (by rw [haa]; exact h0), haa]
        exact List.mem_append_left _ (mem_entryBlocks.2 ⟨h1, j, List.mem_range.2 hj, hjb⟩)

/-- The list has no repetitions: no block is found twice. -/
theorem nodup_owned (hO : Own g lim tbl disk) (hi : i < g.ninodes) (ht : (tbl i).type ≠ 0) :
    (owned (tbl i) disk).Nodup := by
  have hnode : ∀ k, ((tbl i).addrs k).toNat ≠ 0 →
      node g tbl disk (i, k) [] = some ((tbl i).addrs k).toNat := fun k h =>
    (node_root hi ht).2 ⟨h, rfl⟩
  have hdir : (directBlocks (tbl i) directs).Nodup := by
    refine nodup_filter_map (by decide) fun k _ k' _ h0 he => ?_
    have h1 := hnode k h0
    have h2 := hnode k' (he ▸ h0)
    rw [← he] at h2
    exact (Prod.ext_iff.1 (hO.distinct _ _ _ _ _ h1 h2).1).2
  rw [owned]
  split
  · next h0 =>
    have ha := hnode ⟨NDIRECT, indirect_lt⟩ h0
    generalize ((tbl i).addrs ⟨NDIRECT, indirect_lt⟩).toNat = a at ha
    have hentry : ∀ j < NINDIRECT, getIndex (disk a) j ≠ 0 →
        node g tbl disk (i, ⟨NDIRECT, indirect_lt⟩) [j] = some (getIndex (disk a) j) :=
      fun j hj h => (node_entry ha (show 0 < 1 by decide)).2 ⟨h, hj, rfl⟩
    refine List.nodup_append.2 ⟨hdir, List.nodup_append.2 ⟨?_, List.nodup_singleton _, ?_⟩, ?_⟩
    · refine nodup_filter_map List.nodup_range fun j hj j' hj' h0 he => ?_
      have h1 := hentry j (List.mem_range.1 hj) h0
      have h2 := hentry j' (List.mem_range.1 hj') (he ▸ h0)
      rw [← he] at h2
      exact (List.cons.inj (hO.distinct _ _ _ _ _ h1 h2).2).1
    · rintro b hb c hc rfl
      rw [List.mem_singleton.1 hc] at hb
      obtain ⟨h0, j, hj, hjb⟩ := mem_entryBlocks.1 hb
      have h1 := hentry j (List.mem_range.1 hj) (by rw [hjb]; exact h0)
      rw [hjb] at h1
      cases (hO.distinct _ _ _ _ _ h1 ha).2
    · rintro b hb c hc rfl
      obtain ⟨h0, k, hk, hkb⟩ := mem_directBlocks.1 hb
      have h1 := hnode k (hkb ▸ h0)
      rw [hkb] at h1
      have hk' : ∀ k ∈ directs, k ≠ (⟨NDIRECT, indirect_lt⟩ : Fin (NDIRECT + 2)) := by decide
      rcases List.mem_append.1 hc with hc | hc
      · obtain ⟨h2, j, hj, hjb⟩ := mem_entryBlocks.1 hc
        have h3 := hentry j (List.mem_range.1 hj) (by rw [hjb]; exact h2)
        rw [hjb] at h3
        exact hk' k hk (Prod.ext_iff.1 (hO.distinct _ _ _ _ _ h1 h3).1).2
      · rw [List.mem_singleton.1 hc] at h1
        exact hk' k hk (Prod.ext_iff.1 (hO.distinct _ _ _ _ _ h1 ha).1).2
  · rw [List.append_nil]
    exact hdir

end

/-! ## The loops of `itrunc` -/

/-- The blocks `l` have been freed, as far as disk and log are concerned. -/
structure Cleared (E : Stop → Prop) (S : Finset Nat) (g : Geo) (l : List Nat) (s s' : State) :
    Prop where
  disk : s'.disk = freed g s.disk l
  devsw : s'.devsw = s.devsw
  log : LogSame g.dstart s.log s'.log
  room : Room E S s'.log

/-- The blocks `l` may be freed: they are in use, and their bitmap blocks may be logged. -/
structure Clearable (E : Stop → Prop) (S : Finset Nat) (g : Geo) (l : List Nat) (s : State) :
    Prop where
  sb : getSb (s.disk 1) = g.toSuperblock
  room : Room E S s.log
  nodup : l.Nodup
  used : ∀ b ∈ l, used g s.disk b = true
  lt : ∀ b ∈ l, b < g.size
  fits : E .tooBig ∨ ∀ b ∈ l, BBLOCK b g.ninodes ∈ S

section
variable {g : Geo} {slot b : Nat} {s s' s1 : State} {E : Stop → Prop} {S : Finset Nat}
  {l l' : List Nat}

theorem Cleared.trans (h : Cleared E S g l s s1) (h' : Cleared E S g l' s1 s') :
    Cleared E S g (l ++ l') s s' :=
  ⟨by rw [h'.disk, h.disk, freed_append], h'.devsw.trans h.devsw, h.log.trans h'.log, h'.room⟩

theorem Cleared.nil (h : Room E S s.log) : Cleared E S g [] s s :=
  ⟨rfl, rfl, .refl _, h⟩

/-- What is left of a list may still be freed. -/
theorem Clearable.rest (h : Clearable E S g (l ++ l') s) (hl : Cleared E S g l s s1) :
    Clearable E S g l' s1 := by
  obtain ⟨-, hnd, hdisj⟩ := List.nodup_append.1 h.nodup
  refine ⟨?_, hl.room, hnd, fun b hb => ?_, fun b hb => h.lt b (List.mem_append_right _ hb),
    h.fits.imp id fun hf b hb => hf b ?_⟩
  · rw [hl.disk, freed_front g.one_lt_front]; exact h.sb
  · rw [hl.disk, used_freed, h.used b (List.mem_append_right _ hb)]
    simpa using fun hb' => hdisj b hb' b hb rfl
  · exact List.mem_append_right _ hb

/-- `bfree` of the first block of a list that may be freed. -/
theorem bfree_clears (h : Clearable E S g (b :: l) s) :
    wp (bfree b) (fun _ s' => Cleared E S g [b] s s' ∧ s'.inode = s.inode) E s := by
  refine wp_post (bfree_spec h.sb h.room (h.fits.imp id fun hf => hf b List.mem_cons_self)
    (h.used b List.mem_cons_self)) ?_
  rintro _ s' ⟨hd, hi, hdev, hlog, hroom⟩
  exact ⟨⟨hd, hdev, hlog.mono (g.bblock_lt (h.lt b List.mem_cons_self)), hroom⟩, hi⟩

/-- The block numbers with those at `ks` cleared. -/
def clearAddrs (a : Fin (NDIRECT + 2) → UInt32) (ks : List (Fin (NDIRECT + 2))) :
    Fin (NDIRECT + 2) → UInt32 := fun k => if k ∈ ks then 0 else a k

/-- An inode with other block numbers. -/
def Inode.withAddrs (ip : Inode) (a : Fin (NDIRECT + 2) → UInt32) : Inode :=
  { ip with d := { ip.d with addrs := a } }

/-- The loop of `itrunc` over the direct blocks. -/
theorem itruncDirects_spec : ∀ (ks : List (Fin (NDIRECT + 2))) (s : State), ks.Nodup →
    Clearable E S g (directBlocks (s.inode slot).d ks) s →
    wp (Comp.forM (itruncDirect slot) ks) (fun _ s' =>
      Cleared E S g (directBlocks (s.inode slot).d ks) s s' ∧
      s'.inode = update s.inode slot
        ((s.inode slot).withAddrs (clearAddrs (s.inode slot).d.addrs ks))) E s := by
  intro ks
  induction ks with
  | nil =>
    intro s _ h
    refine ⟨.nil h.room, ?_⟩
    have : clearAddrs (s.inode slot).d.addrs [] = (s.inode slot).d.addrs := by
      funext k; simp [clearAddrs]
    rw [this]
    exact (update_eq_self slot s.inode).symm
  | cons k ks ih =>
    intro s hnd h
    obtain ⟨hk, hnd⟩ := List.nodup_cons.1 hnd
    rw [Comp.forM]
    by_cases h0 : ((s.inode slot).d.addrs k).toNat = 0
    · have hskip : directBlocks (s.inode slot).d (k :: ks) = directBlocks (s.inode slot).d ks := by
        simp [directBlocks, h0]
      have hclear : clearAddrs (s.inode slot).d.addrs (k :: ks) =
          clearAddrs (s.inode slot).d.addrs ks := by
        funext m
        by_cases hm : m = k
        · subst hm
          simp [clearAddrs, hk, UInt32.toNat_inj.1 (h0.trans rfl : _ = (0 : UInt32).toNat)]
        · simp [clearAddrs, hm]
      rw [hskip] at h ⊢
      rw [hclear]
      simp only [wp_bind, itruncDirect, wp_gets, h0, ne_eq, not_true_eq_false, if_false, wp_pure]
      exact ih s hnd h
    · have hcons : directBlocks (s.inode slot).d (k :: ks) =
          ((s.inode slot).d.addrs k).toNat :: directBlocks (s.inode slot).d ks := by
        simp [directBlocks, h0]
      rw [hcons] at h ⊢
      simp only [wp_bind, itruncDirect, wp_gets, ne_eq, h0, not_false_eq_true, if_true]
      refine wp_post (bfree_clears h) ?_
      rintro _ s1 ⟨h1, hi1⟩
      simp only [setAddr, setInode, wp_modify]
      generalize hs2 : ({ s1 with inode := _ } : State) = s2
      have hself : s2.inode = update s.inode slot ((s.inode slot).withAddrs
          (update (s.inode slot).d.addrs k 0)) := by rw [← hs2, hi1]; rfl
      have hd : (s2.inode slot).d.addrs = update (s.inode slot).d.addrs k 0 := by
        rw [hself, update_self]; rfl
      have h2 : Cleared E S g [((s.inode slot).d.addrs k).toNat] s s2 := by
        rw [← hs2]; exact ⟨h1.disk, h1.devsw, h1.log, h1.room⟩
      have hrest : directBlocks (s2.inode slot).d ks = directBlocks (s.inode slot).d ks := by
        have : ∀ m ∈ ks, ((s2.inode slot).d.addrs m).toNat = ((s.inode slot).d.addrs m).toNat :=
          fun m hm => by rw [hd, update_of_ne (ne_of_mem_of_not_mem hm hk)]
        rw [directBlocks, directBlocks, List.map_congr_left this]
      have hih := ih s2 hnd (by rw [hrest]; exact h.rest (l := [_]) h2)
      rw [hrest] at hih
      refine wp_post hih ?_
      rintro _ s' ⟨h', hi'⟩
      refine ⟨h2.trans h', ?_⟩
      rw [hi', hself, update_idem, update_self]
      congr 1
      simp only [Inode.withAddrs]
      congr 2
      funext m
      simp only [clearAddrs, List.mem_cons]
      by_cases hm : m = k
      · subst hm; simp
      · simp [hm]

/-- The loop of `itrunc` over the indirect block `a`. -/
theorem itruncEntries_spec {a : Nat} (ha : g.dstart ≤ a) : ∀ (js : List Nat) (s : State),
    Clearable E S g (entryBlocks (s.disk a) js) s →
    wp (Comp.forM (itruncEntry a) js) (fun _ s' =>
      Cleared E S g (entryBlocks (s.disk a) js) s s' ∧ s'.inode = s.inode) E s := by
  intro js
  induction js with
  | nil => intro s h; exact ⟨.nil h.room, rfl⟩
  | cons j js ih =>
    intro s h
    rw [Comp.forM]
    by_cases h0 : getIndex (s.disk a) j = 0
    · grind [entryBlocks, wp_bind, itruncEntry, wp_gets, not_true_eq_false, wp_pure]
    · have hcons : entryBlocks (s.disk a) (j :: js) =
          getIndex (s.disk a) j :: entryBlocks (s.disk a) js := by
        simp [entryBlocks, h0]
      rw [hcons] at h ⊢
      simp only [wp_bind, itruncEntry, wp_gets, ne_eq, h0, not_false_eq_true, if_true]
      refine wp_post (bfree_clears h) ?_
      rintro _ s1 ⟨h1, hi1⟩
      -- the index block is no bitmap block
      have hsame : s1.disk a = s.disk a := by
        rw [h1.disk]
        exact freed_data (fun b hb => h.lt b (by rw [List.mem_singleton.1 hb]; simp)) ha
      have hih := ih s1 (by rw [hsame]; exact h.rest (l := [_]) h1)
      rw [hsame] at hih
      refine wp_post hih ?_
      rintro _ s' ⟨h', hi'⟩
      exact ⟨h1.trans h', hi'.trans hi1⟩

end

/-! ## `itrunc` and `iput` -/

/-- What `itrunc` makes of an inode: `addrs[NDIRECT+1]` stays. -/
def truncated (d : Dinode) : Dinode :=
  { d with size := 0, addrs := fun k => if k.val = NDIRECT + 1 then d.addrs k else 0 }

section
variable {g : Geo} {lim slot b : Nat} {s s' : State} {E : Stop → Prop} {S : Finset Nat}

/-- The blocks of a file lie on the disk. -/
theorem Ctx.owned_lt (hc : Ctx g lim slot s) :
    ∀ b ∈ owned (s.inode slot).d s.disk, g.dstart ≤ b ∧ b < lim := by
  have hd : view g s slot (s.inode slot).inum = (s.inode slot).d := update_self _ _ _
  intro b hb
  rw [← hd] at hb
  obtain ⟨k, π, -, hn⟩ := (mem_owned hc.inum (by rw [hd]; exact hc.type)).1 hb
  exact ⟨(hc.own.data _ _ _ hn).1, (hc.own.data _ _ _ hn).2.1⟩

/-- The blocks of a file may be freed. -/
theorem Ctx.clearable (hc : Ctx g lim slot s) (hR : Room E S s.log)
    (hS : E .tooBig ∨ ∀ b ∈ owned (s.inode slot).d s.disk, BBLOCK b g.ninodes ∈ S) :
    Clearable E S g (owned (s.inode slot).d s.disk) s := by
  have hd : view g s slot (s.inode slot).inum = (s.inode slot).d := update_self _ _ _
  have ht : (view g s slot (s.inode slot).inum).type ≠ 0 := by rw [hd]; exact hc.type
  have hnd := nodup_owned hc.own hc.inum ht
  rw [hd] at hnd
  refine ⟨hc.sb, hR, hnd, fun b hb => ?_, fun b hb => ?_, hS⟩
  · rw [← hd] at hb
    obtain ⟨k, π, -, hn⟩ := (mem_owned hc.inum ht).1 hb
    exact (hc.own.data _ _ _ hn).2.2
  · exact Nat.lt_of_lt_of_le (hc.owned_lt b hb).2 hc.lim_le

/-- The blocks freed, and the block numbers cleared: `itrunc` before it writes the inode back. -/
theorem itruncBlocks_spec (hc : Ctx g lim slot s) (hR : Room E S s.log)
    (hS : E .tooBig ∨ ∀ b ∈ owned (s.inode slot).d s.disk, BBLOCK b g.ninodes ∈ S) :
    wp (itruncBlocks slot)
      (fun _ s' => Cleared E S g (owned (s.inode slot).d s.disk) s s' ∧
        s'.inode = update s.inode slot
          ((s.inode slot).withAddrs (truncated (s.inode slot).d).addrs)) E s := by
  have hclear := hc.clearable hR hS
  have hlt := hc.owned_lt
  have hlim := hc.lim_le
  rw [itruncBlocks]
  generalize hd : (s.inode slot).d = d at *
  have hdirect : ∀ k : Fin (NDIRECT + 2), k ∈ directs ↔ k.val < NDIRECT := by decide
  have hcl : Clearable E S g (directBlocks d directs) s :=
    ⟨hclear.sb, hR, (List.nodup_append.1 hclear.nodup).1,
      fun b hb => hclear.used b (List.mem_append_left _ hb),
      fun b hb => hclear.lt b (List.mem_append_left _ hb),
      hclear.fits.imp id fun h b hb => h b (List.mem_append_left _ hb)⟩
  refine wp_seq (itruncDirects_spec directs s (by decide) (by rw [hd]; exact hcl)) ?_
  rintro _ s1 ⟨h1, hi1⟩
  rw [hd] at h1 hi1
  have haddr : (s1.inode slot).d.addrs ⟨NDIRECT, indirect_lt⟩ = d.addrs ⟨NDIRECT, indirect_lt⟩ := by
    rw [hi1, update_self]
    simp only [Inode.withAddrs, clearAddrs]
    rw [if_neg (by decide)]
  simp only [wp_bind, wp_gets, haddr]
  rw [owned] at hclear hlt ⊢
  refine wp_ite (fun h0 => ?_) fun h0 => ?_
  · rw [if_pos h0] at hclear hlt ⊢
    generalize ha : (d.addrs ⟨NDIRECT, indirect_lt⟩).toNat = a at *
    have hain := hlt a (by simp)
    have hsame : s1.disk a = s.disk a := by
      rw [h1.disk]
      refine freed_data (fun b hb => ?_) hain.1
      have := hlt b (List.mem_append_left _ hb)
      omega
    have hrest := hclear.rest h1
    have hent : Clearable E S g (entryBlocks (s1.disk a) (List.range NINDIRECT)) s1 := by
      rw [hsame]
      exact ⟨hrest.sb, hrest.room, (List.nodup_append.1 hrest.nodup).1,
        fun b hb => hrest.used b (List.mem_append_left _ hb),
        fun b hb => hrest.lt b (List.mem_append_left _ hb),
        hrest.fits.imp id fun h b hb => h b (List.mem_append_left _ hb)⟩
    refine wp_seq (itruncEntries_spec hain.1 (List.range NINDIRECT) s1 hent) ?_
    rintro _ s2 ⟨h2, hi2⟩
    rw [hsame] at h2
    refine wp_seq (bfree_clears (hrest.rest h2)) ?_
    rintro _ s3 ⟨h3, hi3⟩
    simp only [setAddr, setInode, wp_modify]
    have hall := h1.trans (h2.trans h3)
    refine ⟨⟨hall.disk, hall.devsw, hall.log, hall.room⟩, ?_⟩
    rw [hi3, hi2, hi1, update_idem, update_self]
    congr 1
    simp only [Inode.withAddrs, hd]
    congr 2
    funext k
    simp only [truncated]
    by_cases hk' : k = ⟨NDIRECT, indirect_lt⟩
    · subst hk'; simp
    · have hne : k.val ≠ NDIRECT := fun e => hk' (Fin.ext e)
      rw [update_of_ne hk', clearAddrs]
      simp only [hdirect, NDIRECT] at *
      split <;> split <;> first | rfl | omega
  · rw [if_neg h0, List.append_nil]
    refine ⟨h1, ?_⟩
    rw [hi1]
    congr 2
    funext k
    have h0' : d.addrs ⟨NDIRECT, indirect_lt⟩ = 0 := UInt32.toNat_inj.1 (not_not.1 h0)
    simp only [truncated, clearAddrs, hdirect]
    by_cases hk' : k = ⟨NDIRECT, indirect_lt⟩
    · subst hk'; simpa using h0'
    · grind

/-- **`itrunc` frees the blocks** and writes the truncated inode back. -/
theorem itrunc_spec (hc : Ctx g lim slot s) (hR : Room E S s.log)
    (hS : E .tooBig ∨ ∀ b ∈ owned (s.inode slot).d s.disk, BBLOCK b g.ninodes ∈ S) :
    wp (itrunc slot) (fun _ s' => ∃ s1, Cleared E S g (owned (s.inode slot).d s.disk) s s1 ∧
      s1.inode = update s.inode slot
        { s.inode slot with d := truncated (s.inode slot).d } ∧
      Updated E S (s.inode slot).inum (truncated (s.inode slot).d) s1 s') E s := by
  refine wp_seq (itruncBlocks_spec hc hR hS) ?_
  rintro _ s1 ⟨h1, hi1⟩
  simp only [setInode, wp_bind, wp_modify]
  generalize hs2 : ({ s1 with inode := _ } : State) = s2
  have hi2 : s2.inode = update s.inode slot
      { s.inode slot with d := truncated (s.inode slot).d } := by
    rw [← hs2, hi1, update_idem, update_self]
    rfl
  have h2 : Cleared E S g (owned (s.inode slot).d s.disk) s s2 := by
    rw [← hs2]; exact ⟨h1.disk, h1.devsw, h1.log, h1.room⟩
  refine wp_post (iupdate_spec h2.room) fun _ s' h' => ⟨s2, h2, hi2, ?_⟩
  rw [hi2, update_self] at h'
  exact h'

/-- What an inode's last reference leaves behind when it has no links. -/
structure Removed (E : Stop → Prop) (S : Finset Nat) (g : Geo) (slot : Nat) (s s' : State) :
    Prop where
  table : table g s'.disk = update (table g s.disk) (s.inode slot).inum
    { truncated (s.inode slot).d with type := 0 }
  data : ∀ b, g.dstart ≤ b → s'.disk b = s.disk b
  used : ∀ b, used g s'.disk b =
    (decide (b ∉ owned (s.inode slot).d s.disk) && Fs.used g s.disk b)
  sb : s'.disk 1 = s.disk 1
  inode : ∀ i ≠ slot, s'.inode i = s.inode i
  ref : (s'.inode slot).ref = 0
  devsw : s'.devsw = s.devsw
  log : LogSame g.dstart s.log s'.log
  room : Room E S s'.log

/-- **The last reference to an inode without links** frees its blocks and the inode. -/
theorem iputFree_spec (hc : Ctx g lim slot s) (href : (s.inode slot).ref = 1)
    (hbusy : (s.inode slot).busy = false) (hR : Room E S s.log)
    (hS : E .tooBig ∨ (∀ b ∈ owned (s.inode slot).d s.disk, BBLOCK b g.ninodes ∈ S) ∧
      IBLOCK (s.inode slot).inum ∈ S) :
    wp (iputFree slot) (fun _ s' => Removed E S g slot s s') E s := by
  simp only [iputFree, wp_bind, wp_gets, wp_stopIf, hbusy, setInode, wp_modify]
  refine ⟨fun h => by simp at h, fun _ => ?_⟩
  generalize hs0 : ({ s with inode := _ } : State) = s0
  have hi0 : s0.inode slot = { s.inode slot with busy := true } := by rw [← hs0]; simp
  have hdisk0 : s0.disk = s.disk := by rw [← hs0]
  have hlog0 : s0.log = s.log := by rw [← hs0]
  have hview : view g s0 slot = view g s slot := by rw [view, view, hi0, hdisk0]
  have hc0 : Ctx g lim slot s0 := by
    refine ⟨by rw [hdisk0]; exact hc.sb, hc.lim_le, hc.le_lim, ?_, ?_,
      by rw [hview, hdisk0]; exact hc.own⟩
    · rw [hi0]; exact hc.inum
    · rw [hi0]; exact hc.type
  have hown : owned (s0.inode slot).d s0.disk = owned (s.inode slot).d s.disk := by
    rw [hi0, hdisk0]
  refine wp_post (itrunc_spec hc0 (S := S) (by rw [hlog0]; exact hR)
    (by rw [hown]; exact hS.imp id And.left)) ?_
  rintro _ s2 ⟨s1, h₁, hi1, h2⟩
  rw [hown] at h₁
  rw [hi0] at hi1 h2
  have h2 : Updated E S (s.inode slot).inum (truncated (s.inode slot).d) s1 s2 := h2
  have hinode2 : s2.inode slot = { s.inode slot with busy := true, d := truncated (s.inode slot).d } :=
    by rw [h2.inode, hi1, update_self]
  generalize hs3 : ({ s2 with inode := _ } : State) = s3
  have hi3 : s3.inode slot = { s.inode slot with
      busy := true, d := { truncated (s.inode slot).d with type := 0 } } := by
    rw [← hs3]; simp [hinode2]
  have hdisk3 : s3.disk = s2.disk := by rw [← hs3]
  have hR3 : Room E S s3.log := by
    rw [← hs3]
    exact h2.room.of_after (hS.imp id And.right)
  have hlast := @iupdate_spec slot _ _ _ hR3
  rw [hi3] at hlast
  refine wp_post hlast fun _ s4 h₄ => ?_
  have h₄ : Updated E S (s.inode slot).inum { truncated (s.inode slot).d with type := 0 } s3 s4 := h₄
  have hib := g.iblock_lt hc.inum
  have hdisk : ∀ b, b ≠ IBLOCK (s.inode slot).inum →
      s4.disk b = freed g s.disk (owned (s.inode slot).d s.disk) b := fun b hb => by
    rw [h₄.disk, update_of_ne hb, hdisk3, h2.disk, update_of_ne hb, h₁.disk, hdisk0]
  have hothers : ∀ i ≠ slot, s4.inode i = s.inode i := fun i hi => by
    rw [h₄.inode, ← hs3]
    simp only [update_of_ne hi]
    rw [h2.inode, hi1, update_of_ne hi, ← hs0]
    simp only [update_of_ne hi]
  have hself : (s4.inode slot).ref = 1 := by rw [h₄.inode, hi3]; exact href
  refine ⟨?_, fun b hb => ?_, fun b => ?_, ?_, fun i hi => ?_, ?_, ?_, ?_, ?_⟩
  · rw [h₄.disk, table_putDinode hc.inum, hdisk3, h2.disk, table_putDinode hc.inum,
      update_idem, h₁.disk, table_congr fun c hlt => freed_front hlt, hdisk0]
  · have := g.front_lt hib
    refine (hdisk b (by omega)).trans (freed_data (fun c hmem => ?_) hb)
    have := (hc.owned_lt c hmem).2
    have := hc.lim_le
    omega
  · rw [← used_freed]
    exact used_congr (hdisk _ (g.front_ne_bblock hib).symm)
  · refine (hdisk 1 ?_).trans (freed_front g.one_lt_front)
    grind [IBLOCK]
  · simp only [update_of_ne hi]
    exact hothers i hi
  · simp [hself]
  · rw [h₄.devsw, ← hs3, h2.devsw, h₁.devsw, ← hs0]
  · have h1 := h₁.log
    rw [hlog0] at h1
    have h4 := h₄.log
    rw [← hs3] at h4
    have := g.front_lt hib
    exact (h1.trans (h2.log.mono (by omega))).trans (h4.mono (by omega))
  · exact h₄.room.of_after (hS.imp id And.right)

/-- The forest without the freed inode. -/
theorem Removed.node (hO : Own g lim (Fs.table g s.disk) s.disk) (h : Removed E S g slot s s')
    (x : Nat × Fin (NDIRECT + 2)) (π : List Nat) : node g (Fs.table g s'.disk) s'.disk x π =
      if x.1 = (s.inode slot).inum then none else node g (Fs.table g s.disk) s.disk x π := by
  by_cases hx : x.1 = (s.inode slot).inum
  · rw [if_pos hx]
    refine Shape.node_none_of_root ?_ π
    simp [root, h.table, hx]
  · rw [if_neg hx]
    refine Shape.node_congr ?_ (fun π a _ ha => ?_) π
    · simp only [root, h.table, update_of_ne hx]
    · exact h.data a (hO.data x π a ha).1

/-- A block of another file has not been freed. -/
theorem Removed.not_mem_owned (hc : Ctx g lim slot s) (hview : view g s slot = Fs.table g s.disk)
    (hx : x.1 ≠ (s.inode slot).inum) (hb : Fs.node g (Fs.table g s.disk) s.disk x π = some b) :
    b ∉ owned (s.inode slot).d s.disk := by
  have hd : view g s slot (s.inode slot).inum = (s.inode slot).d := update_self _ _ _
  intro hmem
  rw [← hd] at hmem
  obtain ⟨k, ρ, -, hn⟩ := (mem_owned hc.inum (by rw [hd]; exact hc.type)).1 hmem
  rw [hview] at hn
  have hO := hc.own
  rw [hview] at hO
  exact hx (Prod.ext_iff.1 (hO.distinct _ _ _ _ _ hb hn).1).1

/-- **The invariant survives the freeing of an inode.** -/
theorem Removed.own (hc : Ctx g lim slot s) (hview : view g s slot = Fs.table g s.disk)
    (h : Removed E S g slot s s') : Own g lim (Fs.table g s'.disk) s'.disk := by
  have hO := hc.own
  rw [hview] at hO
  have hn := h.node hO
  have hcase : ∀ x π b, Fs.node g (Fs.table g s'.disk) s'.disk x π = some b →
      x.1 ≠ (s.inode slot).inum ∧ Fs.node g (Fs.table g s.disk) s.disk x π = some b := by
    intro x π b hb
    rw [hn] at hb
    split at hb
    · cases hb
    · exact ⟨‹_›, hb⟩
  refine ⟨hO.distinct.mono fun x π b hb => (hcase x π b hb).2, fun x π b hb => ?_, fun b hb => ?_⟩
  · obtain ⟨hx, hb⟩ := hcase x π b hb
    obtain ⟨h1, h2, h3⟩ := hO.data x π b hb
    exact ⟨h1, h2, by rw [h.used, h3]; simp [not_mem_owned hc hview hx hb]⟩
  · have hmem : b ∉ owned (s.inode slot).d s.disk := fun hmem => by
      have := (hc.owned_lt b hmem).1
      omega
    rw [h.used, hO.area b hb]
    simp [hmem]

/-- The contents of the other files are what they were. -/
theorem Removed.bytes (hO : Own g lim (Fs.table g s.disk) s.disk) (h : Removed E S g slot s s')
    {i : Nat} (hi : i ≠ (s.inode slot).inum) :
    fileByte g (Fs.table g s'.disk) s'.disk i = fileByte g (Fs.table g s.disk) s.disk i := by
  funext o
  rw [fileByte, fileByte, h.node hO, if_neg hi]
  split
  · next b hb =>
    rw [h.data b (hO.data _ _ b hb).1]
  · rfl

/-- **No block is lost** when the freed inode has no doubly indirect block. -/
theorem Removed.exact (hc : Ctx g lim slot s) (hview : view g s slot = Fs.table g s.disk)
    (h : Removed E S g slot s s') (hdouble : (s.inode slot).d.addrs ⟨NDIRECT + 1, double_lt⟩ = 0)
    (hx : ∃ x π, Fs.node g (Fs.table g s.disk) s.disk x π = some b)
    (hu : Fs.used g s'.disk b = true) :
    ∃ x π, Fs.node g (Fs.table g s'.disk) s'.disk x π = some b := by
  have hd : view g s slot (s.inode slot).inum = (s.inode slot).d := update_self _ _ _
  have hO := hc.own
  rw [hview] at hO
  obtain ⟨⟨i, m⟩, π, hb⟩ := hx
  rw [h.used] at hu
  have hnot : b ∉ owned (s.inode slot).d s.disk := by
    intro hmem
    simp [hmem] at hu
  by_cases hi : i = (s.inode slot).inum
  · -- its own blocks have been freed
    subst hi
    exfalso
    by_cases hm : m.val = NDIRECT + 1
    · have hroot : root g (Fs.table g s.disk) ((s.inode slot).inum, m) = none := by
        obtain rfl : m = ⟨NDIRECT + 1, double_lt⟩ := Fin.ext hm
        simp [root, ← hview, hd, hdouble]
      rw [Fs.node, Shape.node_none_of_root hroot] at hb
      cases hb
    · rw [← hd] at hnot
      refine hnot ((mem_owned hc.inum (by rw [hd]; exact hc.type)).2 ⟨m, π, hm, ?_⟩)
      rw [hview]
      exact hb
  · exact ⟨(i, m), π, by rw [h.node hO, if_neg hi]; exact hb⟩

end

end Dixv6.Fs
