import Dixv6.Vm.Ledger

/-!
# What `mappages` does to a page table

`mappages` on any page table of two levels, with any free list, at the level of address translation
(`translate`): **it maps the pages of the range one after the other and changes nothing else**
(`mappages_exact`), all of them if it returns 0 and those before the first that lacks a page table
if it returns -1. The loop, which ends when it comes to the last page, ends (`mappagesLoop_eq`).
The page tables of `setupkvm` are all alike. The address must be one of a page and `perm` consist of
flags: what is in other bits ends up in the entry all the same (`mappages_unaligned`).
-/

namespace Dixv6.Vm

open Lib Function

/-- Where a page table takes the page of an address, with the flags, if it maps it. -/
def translate (s : State) (pgdir va : Nat) : Option (Nat × Nat) :=
  if present (pteAt s pgdir va) then
    some (pteFrame (pteAt s pgdir va) * PGSIZE, PTE_FLAGS (pteAt s pgdir va))
  else none

/-- The loop of `mappages`, which ends at the page `last`. -/
def mappagesLoop (pgdir perm last : Nat) : Nat → Nat → Nat → M Bool
  | 0, _, _ => Comp.stop .diverges
  | fuel + 1, a, pa => do
    if ← mappage pgdir a pa perm then
      if a = last then pure true
      else mappagesLoop pgdir perm last fuel ((a + PGSIZE) % 2 ^ 32) ((pa + PGSIZE) % 2 ^ 32)
    else pure false

/-- A page table of two levels: its directory and tables are frames of their own, in use. -/
structure TwoLevel (s : State) (pgdir : Nat) : Prop where
  nodup : s.freelist.Nodup
  dir : pgdir ∉ s.freelist
  table : ∀ i < 1024, present (s.mem pgdir i) = true →
    pteFrame (s.mem pgdir i) ≠ pgdir ∧ pteFrame (s.mem pgdir i) ∉ s.freelist
  inj : ∀ i < 1024, ∀ j < 1024, present (s.mem pgdir i) = true → present (s.mem pgdir j) = true →
    pteFrame (s.mem pgdir i) = pteFrame (s.mem pgdir j) → i = j

/-- The number of pages that `va, .., va + size - 1` lies in. -/
def pages (va size : Nat) : Nat := (va + size - 1) / PGSIZE - va / PGSIZE + 1

/-- The entry for `v`, which was `x`, once `m` pages from `a` on are mapped. -/
def mapped (a m pa perm v x : Nat) : Nat :=
  if a ≤ v ∧ v < a + m * PGSIZE then (pa + (PGROUNDDOWN v - a)) % 2 ^ 32 ||| perm ||| PTE_P else x

/-- The entry for `v`, which was `x`, once the pages of a row of `kmap` are mapped. -/
def Kmap.mapped (v x : Nat) (k : Kmap) : Nat :=
  Vm.mapped (PGROUNDDOWN k.virt) (pages k.virt (uint (k.phys_end - k.phys_start))) k.phys_start
    k.perm v x

section
variable {s s' : State} {pgdir va a pa perm size t : Nat} {l : List Nat} {E : Stop → Prop}

/-- The loop ends. -/
theorem mappagesLoop_eq {n fuel : Nat} (hn : n < fuel) (h : a + n * PGSIZE < 2 ^ 32) :
    mappagesLoop pgdir perm (a + n * PGSIZE) fuel a pa = mappagesFrom pgdir perm n a pa := by
  induction n generalizing a pa fuel with
  | zero =>
    obtain ⟨fuel, rfl⟩ := Nat.exists_eq_add_of_lt hn
    simp only [mappagesLoop, mappagesFrom, Nat.zero_mul, Nat.add_zero, if_true]
    funext s
    show Comp.bind _ _ s = _
    rw [Comp.bind]
    rcases mappage pgdir a pa perm s with e | ⟨_ | _, s'⟩ <;> rfl
  | succ n ih =>
    obtain ⟨fuel, rfl⟩ := Nat.exists_eq_add_of_lt hn
    simp only [PGSIZE] at h ih ⊢
    simp only [mappagesLoop, mappagesFrom, PGSIZE]
    rw [if_neg (by omega), Nat.mod_eq_of_lt (b := 2 ^ 32) (a := a + 4096) (by omega),
      show a + (n + 1) * 4096 = a + 4096 + n * 4096 by omega, ih (by omega) (by omega)]

theorem mappagesLoop_mappages {fuel : Nat} (hsize : 0 < size) (hend : va + size ≤ 2 ^ 32)
    (hfuel : pages va size ≤ fuel) : mappages pgdir va size pa perm =
      mappagesLoop pgdir perm (PGROUNDDOWN (va + size - 1)) fuel (PGROUNDDOWN va) pa := by
  have hlast : PGROUNDDOWN (va + size - 1) =
      PGROUNDDOWN va + ((va + size - 1) / PGSIZE - va / PGSIZE) * PGSIZE := by grind [PGROUNDDOWN]
  rw [mappages, mappages_turns hsize hend, hlast, mappagesLoop_eq]
  all_goals grind [PGROUNDDOWN, pages]

/-- An empty page table is hung into the directory. -/
theorem TwoLevel.hang (h : TwoLevel s pgdir) (hl : s.freelist = t :: l)
    (hp : ¬ present (s.mem pgdir (PDX a)) = true) (hfree : s'.freelist = l)
    (hmem : s'.mem = update (update s.mem t fun _ => 0) pgdir
      (update (s.mem pgdir) (PDX a) (t * PGSIZE ||| PTE_P ||| PTE_W ||| PTE_U))) :
    TwoLevel s' pgdir ∧ ∀ v, pteAt s' pgdir v = pteAt s pgdir v := by
  have hpde := pde_entry t
  have hv := PDX_lt
  obtain ⟨hnd, hdir, htab, hinj⟩ := h
  have hd : ∀ i, s'.mem pgdir i =
      if i = PDX a then t * PGSIZE ||| PTE_P ||| PTE_W ||| PTE_U else s.mem pgdir i := by
    intro i
    rw [hmem, update_self, update_apply]
  have ht : ∀ f, f ≠ pgdir → s'.mem f = if f = t then fun _ => 0 else s.mem f := by
    intro f hf
    rw [hmem, update_of_ne hf, update_apply]
  refine ⟨⟨?_, ?_, ?_, ?_⟩, fun v => ?_⟩
  · grind
  · grind
  · grind
  · grind
  · grind [pteAt]

/-- An entry of a page table is written. -/
theorem TwoLevel.put (h : TwoLevel s pgdir) (hp : present (s.mem pgdir (PDX a)) = true)
    (ht : t = pteFrame (s.mem pgdir (PDX a))) {w : Nat} :
    let s' : State := { s with mem := update s.mem t (update (s.mem t) (PTX a) w) }
    TwoLevel s' pgdir ∧
      ∀ v, pteAt s' pgdir v = if PDX v = PDX a ∧ PTX v = PTX a then w else pteAt s pgdir v := by
  intro s'
  have ha := PDX_lt a
  have hv := PDX_lt
  obtain ⟨hnd, hdir, htab, hinj⟩ := h
  have hne := (htab _ ha hp).1
  rw [← ht] at hne
  have hd : s'.mem pgdir = s.mem pgdir := update_of_ne hne.symm ..
  refine ⟨⟨hnd, hdir, by rwa [hd], by rwa [hd]⟩, fun v => ?_⟩
  simp only [pteAt, s', update_apply]
  grind

/-- The entry that `walkpgdir` finds or makes room for. -/
theorem TwoLevel.walkpgdir (h : TwoLevel s pgdir) :
    wp (walkpgdir pgdir a true) (fun r s' => (r = none ∧ s' = s) ∨
      r = some (pteFrame (s'.mem pgdir (PDX a)), PTX a) ∧ present (s'.mem pgdir (PDX a)) = true ∧
        TwoLevel s' pgdir ∧ ∀ v, pteAt s' pgdir v = pteAt s pgdir v) E s := by
  simp only [Vm.walkpgdir, getWord, wp_bind, wp_gets]
  refine wp_ite (fun hp => .inr ⟨rfl, hp, h, fun _ => rfl⟩) fun hp => ?_
  simp only [if_true, wp_bind]
  refine wp_post kalloc_raw ?_
  rintro (_ | t) s1 ⟨hmem, hfree, hnone⟩
  · exact .inl ⟨rfl, hnone rfl⟩
  · have ht : t ≠ pgdir := by
      rintro rfl
      exact h.dir (hfree ▸ List.mem_cons_self)
    simp only [setFrame, setWord, wp_bind, wp_modify, wp_pure, hmem, update_of_ne ht.symm]
    refine .inr ⟨?_, ?_, h.hang hfree hp rfl rfl⟩ <;> simp [pde_entry]

/-- One page is mapped. -/
theorem TwoLevel.mappage (h : TwoLevel s pgdir) (ha : a % PGSIZE = 0) (hlt : a < 2 ^ 32)
    (hP : pa < 2 ^ 32) (hE : present (pteAt s pgdir a) = true → E .remap) :
    wp (mappage pgdir a pa perm) (fun b s' => TwoLevel s' pgdir ∧ ∀ v < 2 ^ 32,
      pteAt s' pgdir v = mapped a (if b then 1 else 0) pa perm v (pteAt s pgdir v)) E s := by
  unfold Vm.mappage
  refine wp_seq h.walkpgdir ?_
  rintro r s1 (⟨rfl, rfl⟩ | ⟨rfl, hp, h1, hs⟩)
  · exact ⟨h, fun v _ => by simp [mapped]⟩
  · simp only [getWord, setWord, wp_bind, wp_gets, wp_stopIf, wp_modify, wp_pure, ← hs]
    refine ⟨fun hpres => hE ?_, fun _ => ?_⟩
    · rwa [← hs, pteAt, if_pos hp]
    · refine (h1.put hp rfl).imp_right fun hput v hv => ?_
      simp only [hput, same_page hv hlt, mapped]
      grind [PGROUNDDOWN]

/-- The pages after the first. -/
theorem mapped_succ (ha : a % PGSIZE = 0) (m v x : Nat) :
    mapped (a + PGSIZE) m ((pa + PGSIZE) % 2 ^ 32) perm v (mapped a 1 pa perm v x) =
      mapped a (m + 1) pa perm v x := by
  grind [mapped, PGROUNDDOWN]

/-- The loop of `mappages`. -/
theorem TwoLevel.mappagesFrom {n : Nat} (h : TwoLevel s pgdir) (ha : a % PGSIZE = 0)
    (hn : a + n * PGSIZE < 2 ^ 32) (hP : pa < 2 ^ 32)
    (hE : ∀ k ≤ n, present (pteAt s pgdir (a + k * PGSIZE)) = true → E .remap) :
    wp (mappagesFrom pgdir perm n a pa) (fun b s' => TwoLevel s' pgdir ∧ ∃ m,
      (if b then m = n + 1 else m ≤ n) ∧
      ∀ v < 2 ^ 32, pteAt s' pgdir v = mapped a m pa perm v (pteAt s pgdir v)) E s := by
  have hE0 : present (pteAt s pgdir a) = true → E .remap := fun hp =>
    hE 0 (Nat.zero_le _) (by simpa using hp)
  induction n generalizing s a pa with
  | zero =>
    refine wp_post (h.mappage ha (by omega) hP hE0) ?_
    rintro b s' ⟨h', hs⟩
    exact ⟨h', if b then 1 else 0, by simp, hs⟩
  | succ n ih =>
    simp only [PGSIZE] at ha hn hE
    refine wp_seq (h.mappage ha (by omega) hP hE0) ?_
    rintro (_ | _) s1 ⟨h1, hs⟩
    · exact ⟨h1, 0, by simp, hs⟩
    -- the pages to come are as before the first was mapped
    have hlater : ∀ k ≤ n, present (pteAt s1 pgdir (a + PGSIZE + k * PGSIZE)) = true →
        E .remap := by
      intro k hk hp
      rw [hs _ (by grind), mapped, if_neg (by grind)] at hp
      exact hE (k + 1) (by omega) (by grind)
    simp only [if_true]
    rw [Nat.mod_eq_of_lt (b := 2 ^ 32) (a := a + PGSIZE) (by grind)]
    refine wp_post (ih h1 (by grind) (by grind) (Nat.mod_lt _ (by decide)) hlater ?_) ?_
    · simpa using hlater 0 (Nat.zero_le _)
    · rintro b s' ⟨h', m, hm, hs'⟩
      refine ⟨h', m + 1, by grind, fun v hv => ?_⟩
      rw [hs' v hv, hs v hv, ← mapped_succ ha]
      rfl

/-- `mappages`, at the level of entries. -/
theorem TwoLevel.mappages (h : TwoLevel s pgdir) (hsize : 0 < size) (hend : va + size ≤ 2 ^ 32)
    (hP : pa < 2 ^ 32) (hE : ∀ v, PGROUNDDOWN va ≤ v → v < va + size →
      present (pteAt s pgdir v) = true → E .remap) :
    wp (mappages pgdir va size pa perm) (fun b s' => TwoLevel s' pgdir ∧ ∃ m,
      (if b then m = pages va size else m < pages va size) ∧
      ∀ v < 2 ^ 32, pteAt s' pgdir v =
        mapped (PGROUNDDOWN va) m pa perm v (pteAt s pgdir v)) E s := by
  rw [Vm.mappages, mappages_turns hsize hend]
  refine wp_post (h.mappagesFrom ?_ ?_ hP fun k hk => hE _ ?_ ?_) ?_
  rotate_right
  · rintro b s' ⟨h', m, hm, hs⟩
    exact ⟨h', m, by grind [pages], hs⟩
  all_goals grind [PGROUNDDOWN]

/-- What an entry says. -/
theorem translate_entry (hpa : pa % PGSIZE = 0) (hperm : perm < PGSIZE)
    (h : pteAt s pgdir va = pa ||| perm ||| PTE_P) :
    translate s pgdir va = some (pa, perm ||| PTE_P) := by
  obtain ⟨f, rfl⟩ := Nat.dvd_of_mod_eq_zero hpa
  rw [Nat.mul_comm] at h ⊢
  have hflags : (f * 2 ^ 12 ||| perm ||| 1) % 2 ^ 12 = perm ||| 1 := by
    rw [Nat.or_assoc, Nat.or_mod_two_pow, Nat.mul_mod_left, Nat.zero_or,
      Nat.mod_eq_of_lt (Nat.or_lt_two_pow hperm (by decide))]
  rw [translate, h, if_pos (present_entry _ _), pteFrame_entry hperm]
  exact congrArg (fun x => some (f * PGSIZE, x)) hflags

/-- The loop of `setupkvm`, where it succeeds. -/
theorem TwoLevel.setupkvmFrom (L : Layout) : ∀ (ks : List Kmap) (s : State), (∀ k ∈ ks, k ∈ kmap L) →
    TwoLevel s pgdir → wp (setupkvmFrom pgdir ks) (fun r s' => ∀ d, r = some d → d = pgdir ∧
      ∀ v < 2 ^ 32, pteAt s' d v = ks.foldl (Kmap.mapped v) (pteAt s pgdir v)) (fun _ => True) s
  | [], _, _, _ => fun _ hd => ⟨(Option.some.inj hd).symm, by cases hd; exact fun _ _ => rfl⟩
  | k :: ks, s, hks, h => by
    obtain ⟨-, -, -, -, hpos, hend, hP⟩ := kmap_row (hks k List.mem_cons_self)
    refine wp_seq (h.mappages hpos hend hP fun _ _ _ _ => trivial) ?_
    rintro (_ | _) s1 ⟨h1, m, hm, hs⟩
    · exact fun _ hd => nomatch hd
    · refine wp_post (TwoLevel.setupkvmFrom L ks s1 (fun k hk => hks k (.tail _ hk)) h1)
        fun r s' hr d hd => (hr d hd).imp_right fun hv v hlt => ?_
      obtain rfl : m = _ := hm
      rw [hv v hlt, hs v hlt]
      rfl

/-- The entries of a page table of `setupkvm`. -/
theorem setupkvm_entries (L : Layout) (hnd : s.freelist.Nodup) :
    wp (setupkvm L) (fun r s' => ∀ d, r = some d → ∀ v < 2 ^ 32,
      pteAt s' d v = (kmap L).foldl (Kmap.mapped v) 0) (fun _ => True) s := by
  unfold setupkvm
  refine wp_seq kalloc_raw ?_
  rintro (_ | f) s1 ⟨hmem, hfree, -⟩
  · exact fun _ hd => nomatch hd
  · simp only [setFrame, wp_bind, wp_modify, wp_stopIf]
    refine ⟨fun _ => trivial, fun _ => ?_⟩
    have hdir : ∀ i, present ((update s1.mem f fun _ => 0) f i) = false := by simp [present]
    rw [hfree] at hnd
    refine wp_post (TwoLevel.setupkvmFrom L (kmap L) _ (fun _ h => h)
      ⟨hnd.of_cons, hnd.notMem, ?_, ?_⟩) fun r s' hr d hd v hv => ?_
    · grind
    · grind
    · rw [(hr d hd).2 v hv, pteAt, hdir]
      rfl

/-- **What `mappages` does**: it ends, has mapped the range or the pages before one that lacks a
page table, and changes nothing else. **Page tables of `setupkvm` are alike.** -/
theorem mappages_exact (L : Layout) :
    (∀ s pgdir va size pa perm, TwoLevel s pgdir → 0 < size → va + size ≤ 2 ^ 32 → pa < 2 ^ 32 →
      pa % PGSIZE = 0 → perm < PGSIZE →
      (∀ v, PGROUNDDOWN va ≤ v → v < va + size → translate s pgdir v = none) →
      ∃ b s', (∀ fuel, pages va size ≤ fuel →
        mappagesLoop pgdir perm (PGROUNDDOWN (va + size - 1)) fuel (PGROUNDDOWN va) pa s =
          .ok (b, s')) ∧ ∃ m, (if b then m = pages va size else m < pages va size) ∧
        (∀ k < m, ∀ v, v / PGSIZE = va / PGSIZE + k →
          translate s' pgdir v = some ((pa + k * PGSIZE) % 2 ^ 32, perm ||| PTE_P)) ∧
        ∀ v < 2 ^ 32, (∀ k < m, v / PGSIZE ≠ va / PGSIZE + k) →
          translate s' pgdir v = translate s pgdir v) ∧
    ∀ s s' t t' d e, s.freelist.Nodup → t.freelist.Nodup → setupkvm L s = .ok (some d, s') →
      setupkvm L t = .ok (some e, t') → ∀ v < 2 ^ 32, translate s' d v = translate t' e v := by
  refine ⟨fun s pgdir va size pa perm h hsize hend hP hpa hperm hnone => ?_,
    fun s s' t t' d e hs ht hrun hrun' v hv => ?_⟩
  · have habs : ∀ v, PGROUNDDOWN va ≤ v → v < va + size → present (pteAt s pgdir v) = true →
        False := by
      intro v h1 h2 hp
      simpa [translate, hp] using hnone v h1 h2
    obtain ⟨b, s', hrun, -, m, hm, hpte⟩ := wp_total (h.mappages hsize hend hP habs)
    refine ⟨b, s', fun fuel hfuel => mappagesLoop_mappages hsize hend hfuel ▸ hrun, m, hm,
      fun k hk v hv => ?_, fun v hv hk => ?_⟩
    · have hlt : va / PGSIZE + k ≤ (va + size - 1) / PGSIZE := by grind [pages]
      refine translate_entry (by grind) hperm ?_
      rw [hpte v (by grind), mapped, if_pos (by grind [PGROUNDDOWN])]
      grind [PGROUNDDOWN]
    · have hout : ¬ (PGROUNDDOWN va ≤ v ∧ v < PGROUNDDOWN va + m * PGSIZE) := by
        have := hk (v / PGSIZE - va / PGSIZE)
        simp only [PGROUNDDOWN, PGSIZE] at this ⊢
        omega
      rw [translate, translate, hpte v hv, mapped, if_neg hout]
  · rw [translate, translate, wp_ok (setupkvm_entries L hs) hrun d rfl v hv,
      wp_ok (setupkvm_entries L ht) hrun' e rfl v hv]

/-- An empty page table, of which frame 0 is the directory. -/
def blank : State := ⟨fun _ _ => 0, [1]⟩

theorem blank_twoLevel : TwoLevel blank 0 := by
  constructor <;> simp [blank, present]

/-- The witness: the free list has a frame for the table of the first page, at the end of what a
table covers, and none for the second. -/
theorem mappages_exact_blank : ∃ b s', mappagesLoop 0 PTE_W 0x400000 2 0x3FF000 0x5000 blank =
    .ok (b, s') ∧ ∃ m, (if b then m = 2 else m < 2) ∧ (∀ k < m, ∀ v, v / PGSIZE = 1023 + k →
      translate s' 0 v = some ((0x5000 + k * PGSIZE) % 2 ^ 32, 3)) := by
  obtain ⟨b, s', hrun, m, hm, hmap, -⟩ := (mappages_exact demoLayout).1 blank 0 0x3FF123 0x1000
    0x5000 PTE_W blank_twoLevel (by decide) (by decide) (by decide) (by decide) (by decide)
    (by simp [translate, pteAt, blank, present])
  exact ⟨b, s', hrun 2 (by decide), m, hm, hmap⟩

/-- The address 2 is that of no page: its bit comes out as the flag `PTE_W`. A bit of `perm` that is
no flag comes out in the address. -/
theorem mappages_unaligned :
    ((mappages 0 0 1 2 0 blank).map fun r => (r.1, translate r.2 0 0)) =
      .ok (true, some (0, PTE_W ||| PTE_P)) ∧
    ((mappages 0 0 1 0 PGSIZE blank).map fun r => (r.1, translate r.2 0 0)) =
      .ok (true, some (PGSIZE, PTE_P)) :=
  ⟨rfl, rfl⟩

end

end Dixv6.Vm
