import Dixv6.Vm.Ledger

/-!
# How many frames a new address space takes

A page directory that is filled from the start of a page table on needs a frame for the table of
every 1024th page. `Chart` describes one filled so far: which tables and pages it has, how many
frames were taken and that nothing else became of them.

`setupkvm_exact` applies this to the rows of `kmap`: **a new page directory takes 65 frames**, 56
page tables for memory, 8 for the devices and itself. With fewer, all of them are gone and the
caller gets nothing.
-/

namespace Dixv6.Vm

open Lib Function

/-- The page tables for `m` pages from the start of one on. -/
abbrev tablesFor (m : Nat) : Nat := (m + 1023) / 1024

/-- The directory `d` of `k` after `m` pages from page table `B` on were mapped, starting in `s₀`;
`c` says how many frames each page itself takes. -/
structure Chart (L : Layout) (root : Nat → Option Nat) (k d c B m : Nat) (s₀ s : State) :
    Prop where
  own : Own L root s
  total : ∀ hand, Total root k s hand = Total root k s₀ hand
  tables : ∀ i < 1024, present (s.mem d i) = true ↔
    present (s₀.mem d i) = true ∨ (B ≤ i ∧ 1024 * i < 1024 * B + m)
  free : s.freelist = s₀.freelist.drop (c * m + tablesFor m)
  enough : c * m + tablesFor m ≤ s₀.freelist.length
  pages : ∀ va < 2 ^ 32, present (pteAt s d va) = true ↔
    present (pteAt s₀ d va) = true ∨ (1024 * B ≤ va / PGSIZE ∧ va / PGSIZE < 1024 * B + m)
  kern : ∀ va < 2 ^ 32, KERNBASE ≤ va → user (pteAt s d va) = false
  direct : ∀ va, KERNBASE ≤ va → va < KERNBASE + PHYSTOP → present (pteAt s d va) = true →
    pteFrame (pteAt s d va) = va / PGSIZE - KERNBASE / PGSIZE
  sound : ∀ va < KERNBASE, present (pteAt s d va) = true → pteFrame (pteAt s d va) < NFRAMES
  mem : ∀ g, ¬ Total root k s₀ [] g → s.mem g = s₀.mem g

section
variable {L : Layout} {root : Nat → Option Nat} {s s' s₀ : State} {k d c B m f : Nat}
  {E : Stop → Prop}

/-- A chart of no pages. -/
theorem Chart.refl (hO : Own L root s) (hkern : ∀ va < 2 ^ 32, KERNBASE ≤ va →
    user (pteAt s d va) = false) (hdirect : ∀ va, KERNBASE ≤ va → va < KERNBASE + PHYSTOP →
    present (pteAt s d va) = true → pteFrame (pteAt s d va) = va / PGSIZE - KERNBASE / PGSIZE)
    (hsound : ∀ va < KERNBASE, present (pteAt s d va) = true →
      pteFrame (pteAt s d va) < NFRAMES) : Chart L root k d c B 0 s s where
  own := hO
  total _ := rfl
  tables i _ := by
    refine ⟨.inl, fun h => h.resolve_right ?_⟩
    omega
  free := rfl
  enough := Nat.zero_le _
  pages va _ := by
    refine ⟨.inl, fun h => h.resolve_right ?_⟩
    omega
  kern := hkern
  direct := hdirect
  sound := hsound
  mem _ _ := rfl

/-- **One more page on the chart.** `s1` is the state in which the page is mapped: the frame it
takes has left the free list. -/
theorem Chart.step {s1 : State} {w : Nat} (h : Chart L root k d c B m s₀ s)
    (hclean : ∀ i, B ≤ i → 1024 * i < 1024 * B + m + 1 → ¬ present (s₀.mem d i) = true)
    (hB : 1024 * B + m < 2 ^ 20) (hfree : s1.freelist = s.freelist.drop c)
    (hc : c ≤ s.freelist.length) (hdir : s1.mem d = s.mem d)
    (hpte : ∀ va, pteAt s1 d va = pteAt s d va)
    (hkern : KERNBASE ≤ (1024 * B + m) * PGSIZE → user w = false)
    (hdirect : KERNBASE ≤ (1024 * B + m) * PGSIZE → (1024 * B + m) * PGSIZE < KERNBASE + PHYSTOP →
      pteFrame w = 1024 * B + m - KERNBASE / PGSIZE)
    (hsound : (1024 * B + m) * PGSIZE < KERNBASE → pteFrame w < NFRAMES)
    (htotal : ∀ hand, Total root k s' hand = Total root k s hand)
    (hmem : ∀ g, ¬ Total root k s [] g → s'.mem g = s.mem g) (hk : root k = some d)
    (hm : Mapped L root k d ((1024 * B + m) * PGSIZE) w s1 true s') (hw : present w = true) :
    Chart L root k d c B (m + 1) s₀ s' := by
  have hi : PDX ((1024 * B + m) * PGSIZE) = B + m / 1024 := by simp only [PDX, PGSIZE]; omega
  have hj : PTX ((1024 * B + m) * PGSIZE) = m % 1024 := by grind [PTX]
  have hlt : B + m / 1024 < 1024 := by omega
  -- the table of the page is missing exactly when the page is the first in it
  have hthere : present (s1.mem d (B + m / 1024)) = true ↔ m % 1024 ≠ 0 := by
    have hfirst : 1024 * (B + m / 1024) ≤ 1024 * B + m := by grind
    rw [hdir, h.tables _ hlt, or_iff_right (hclean _ (by omega) (Nat.lt_succ_of_le hfirst))]
    omega
  have hlen : s.freelist.length = s₀.freelist.length - (c * m + tablesFor m) := by
    rw [h.free, List.length_drop]
  have hen := h.enough
  have hcm : c * (m + 1) = c * m + c := by ring
  have hnew : ∀ va < 2 ^ 32, pteAt s' d va =
      if va / PGSIZE = 1024 * B + m then w else pteAt s d va := by
    intro va hva
    have hpage : (PDX va = PDX ((1024 * B + m) * PGSIZE) ∧
        PTX va = PTX ((1024 * B + m) * PGSIZE)) ↔ va / PGSIZE = 1024 * B + m := by
      rw [hi, hj]
      simp only [PDX, PTX, PGSIZE]
      omega
    rw [hm.pte, hpte]
    simp only [hpage, true_and]
  refine ⟨hm.own, fun hand => (htotal hand).trans (h.total hand), fun i hi' => ?_, ?_, ?_,
    fun va hva => ?_, fun va hva hge => ?_, fun va hge hlt' hp => ?_, fun va hlow hp => ?_,
    fun g hg => ?_⟩
  · by_cases hia : i = B + m / 1024
    · obtain ⟨t, ht⟩ := hm.table rfl
      rw [hi] at ht
      have hp : present (s'.mem d i) = true := by
        rw [hia, present_iff_table hk hlt]; exact ⟨t, ht⟩
      refine ⟨fun _ => .inr ?_, fun _ => hp⟩
      omega
    · rw [present_iff_table hk hi', hm.other k [i] (by simp [hi, hia]), ← present_iff_table hk hi',
        hdir, h.tables i hi']
      refine or_congr_right ?_
      omega
  · rw [hm.freelist, hi]
    by_cases hfirst : m % 1024 = 0
    · rw [if_neg (by rw [hthere]; omega), hfree, h.free, List.drop_drop, List.tail_drop]
      congr 1
      simp only [tablesFor] at *
      omega
    · rw [if_pos (hthere.2 hfirst), hfree, h.free, List.drop_drop]
      congr 1
      simp only [tablesFor] at *
      omega
  · have hres := hm.result
    rw [hi, hthere, hfree] at hres
    have hres := hres.1 rfl
    by_cases hfirst : m % 1024 = 0
    · have hne : s.freelist.drop c ≠ [] := hres.resolve_left (by omega)
      have hpos := List.length_pos_iff.2 hne
      rw [List.length_drop] at hpos
      simp only [tablesFor] at *
      omega
    · simp only [tablesFor] at *
      omega
  · rw [hnew va hva]
    split
    · next he =>
      refine ⟨fun _ => .inr ?_, fun _ => hw⟩
      omega
    · next he =>
      rw [h.pages va hva]
      refine or_congr_right ?_
      omega
  · rw [hnew va hva]
    split
    · next he =>
      refine hkern ?_
      lia
    · exact h.kern va hva hge
  · have hva : va < 2 ^ 32 := by lia
    rw [hnew va hva] at hp ⊢
    split at hp
    · next he =>
      rw [if_pos he, he, hdirect]
      · lia
      · lia
    · next he =>
      rw [if_neg he]
      exact h.direct va hge hlt' hp
  · have hva : va < 2 ^ 32 := by lia
    rw [hnew va hva] at hp ⊢
    split at hp
    · next he =>
      rw [if_pos he]
      refine hsound ?_
      lia
    · next he =>
      rw [if_neg he]
      exact h.sound va hlow hp
  · rw [hmem g (by rw [h.total]; exact hg), h.mem g hg]

/-- A page whose table is missing at the start is not on a chart that has not come to it. -/
theorem Chart.absent (h : Chart L root k d c B m s₀ s) (hB : 1024 * B + m < 2 ^ 20)
    (hclean : ∀ i, B ≤ i → 1024 * i < 1024 * B + m + 1 → ¬ present (s₀.mem d i) = true) :
    ¬ present (pteAt s d ((1024 * B + m) * PGSIZE)) = true := by
  have hi : PDX ((1024 * B + m) * PGSIZE) = B + m / 1024 := by simp only [PDX, PGSIZE]; omega
  rw [h.pages _ (by lia), not_or]
  refine ⟨not_present_of_table ?_, by lia⟩
  rw [hi]
  refine hclean _ (by omega) (Nat.lt_succ_of_le ?_)
  rw [Nat.mul_add]
  exact Nat.add_le_add_left (Nat.mul_div_le m 1024) _

/-- **The pages of a row of `kmap`**: they are all mapped, or there is no frame left for one of
their tables. `Q` is the frame of the page table's first page. -/
theorem mappagesFrom_chart (hk : root k = some d) {perm Q : Nat} (hu : user perm = false)
    (hperm : perm < PGSIZE) (hB : 512 ≤ B)
    (hQ : 1024 * B * PGSIZE < KERNBASE + PHYSTOP → Q = 1024 * B - KERNBASE / PGSIZE) :
    ∀ (n m : Nat) (s : State), Chart L root k d 0 B m s₀ s → 1024 * B + m + n < 2 ^ 20 →
      Q + m + n < 2 ^ 20 →
      (∀ i, B ≤ i → 1024 * i < 1024 * B + m + n + 1 → ¬ present (s₀.mem d i) = true) →
      wp (mappagesFrom d perm n ((1024 * B + m) * PGSIZE) ((Q + m) * PGSIZE)) (fun b s' =>
        (b = true ∧ Chart L root k d 0 B (m + n + 1) s₀ s') ∨
        (b = false ∧ s'.freelist = [] ∧ s₀.freelist.length < tablesFor (m + n + 1))) E s := by
  have hone : ∀ (m n : Nat) (s : State), Chart L root k d 0 B m s₀ s → 1024 * B + m < 2 ^ 20 →
      (∀ i, B ≤ i → 1024 * i < 1024 * B + m + 1 → ¬ present (s₀.mem d i) = true) →
      wp (mappage d ((1024 * B + m) * PGSIZE) ((Q + m) * PGSIZE) perm) (fun b s' =>
        (b = true ∧ Chart L root k d 0 B (m + 1) s₀ s') ∨
        (b = false ∧ s'.freelist = [] ∧ s₀.freelist.length < tablesFor (m + n + 1))) E s := by
    intro m n s h hlt hclean
    have hi : PDX ((1024 * B + m) * PGSIZE) = B + m / 1024 := by simp only [PDX, PGSIZE]; omega
    have hw : ownedFrame (PDX ((1024 * B + m) * PGSIZE)) ((Q + m) * PGSIZE ||| perm ||| PTE_P) =
        none := by
      rw [ownedFrame, user_entry, hu, hi, if_neg]
      rintro ⟨-, h1 | h1, -⟩
      · omega
      · cases h1
    refine wp_post (mappage_ledger h.own hk (by simp [hw])
      fun hp => absurd hp (h.absent hlt hclean)) ?_
    rintro b s' ⟨hmap, hfalse, htrue, hmem⟩
    cases b with
    | true =>
      refine .inl ⟨rfl, h.step hclean hlt rfl (Nat.zero_le _) rfl (fun _ => rfl) (fun _ => ?_)
        (fun h1 h2 => ?_) (fun h1 => ?_) (fun hand => ?_) hmem hk hmap (present_entry _ _)⟩
      · rw [user_entry, hu]
      · rw [pteFrame_entry hperm]
        have hle := Nat.mul_le_mul_right PGSIZE (Nat.le_add_right (1024 * B) m)
        lia
      · lia
      · rw [htrue rfl hand, hw]; rfl
    | false =>
      have hres := hmap.result
      simp only [Bool.false_eq_true, false_iff, not_or, not_not] at hres
      have hlen := congrArg List.length (h.free.symm.trans hres.2)
      rw [List.length_drop, List.length_nil] at hlen
      have hfirst : m % 1024 = 0 := by
        by_contra hne
        refine hres.1 ?_
        rw [hi, h.tables _ (by omega)]
        right
        lia
      refine .inr ⟨rfl, by rw [hfalse rfl]; exact hres.2, ?_⟩
      simp only [tablesFor] at *
      omega
  intro n
  induction n with
  | zero => intro m s h hlt _ hclean; exact hone m 0 s h hlt hclean
  | succ n ih =>
    intro m s h hlt hlt' hclean
    have hclean' : ∀ i, B ≤ i → 1024 * i < 1024 * B + m + 1 → ¬ present (s₀.mem d i) = true :=
      fun i h1 h2 => hclean i h1 (by omega)
    refine wp_seq (hone m (n + 1) s h (by omega) hclean') ?_
    rintro b s1 (⟨rfl, h₁⟩ | ⟨rfl, h₁⟩)
    · have hnext : ∀ x, x + 1 < 2 ^ 20 → (x * PGSIZE + PGSIZE) % 2 ^ 32 = (x + 1) * PGSIZE := by
        intro x hx
        rw [Nat.add_mul, Nat.one_mul, Nat.mod_eq_of_lt]
        lia
      simp only [if_true, hnext (1024 * B + m) (by omega), hnext (Q + m) (by omega)]
      refine wp_post (ih (m + 1) s1 h₁ (by omega) (by omega) fun i h1 h2 => hclean i h1 (by omega))
        ?_
      rintro b s2 (⟨rfl, h₂⟩ | ⟨rfl, h₂, h3⟩)
      · grind
      · grind
    · exact .inr ⟨rfl, h₁⟩

/-- Mapping whole pages. -/
theorem mappages_pages {P N pa perm : Nat} (hN : 0 < N) (h : P + N ≤ 2 ^ 20) :
    mappages d (P * PGSIZE) (N * PGSIZE) pa perm = mappagesFrom d perm (N - 1) (P * PGSIZE) pa := by
  have h1 : PGROUNDDOWN (P * PGSIZE) = P * PGSIZE := by simp [PGROUNDDOWN]
  have h2 : uint (((P * PGSIZE : Nat) : Int) + ((N * PGSIZE : Nat) : Int) - 1) =
      (P + N) * PGSIZE - 1 := by
    refine uint_eq 0 ?_ ?_
    · simp only [PGSIZE]; push_cast; omega
    · lia
  have h3 : PGROUNDDOWN ((P + N) * PGSIZE - 1) = (P + N - 1) * PGSIZE := by
    grind [PGROUNDDOWN]
  have h4 : uint ((((P + N - 1) * PGSIZE : Nat) : Int) - ((P * PGSIZE : Nat) : Int)) =
      (N - 1) * PGSIZE := by
    refine uint_eq 0 ?_ ?_
    · simp only [PGSIZE]; push_cast; omega
    · lia
  simp only [mappages, h1, h2, h3, h4]
  rw [Nat.mul_div_cancel _ (by decide)]

/-! ## `setupkvm` -/

/-- A new page directory `d` for `k`, made in `s`. -/
structure Built (L : Layout) (root : Nat → Option Nat) (k d : Nat) (s s' : State) : Prop where
  enough : 65 ≤ s.freelist.length
  own : Own L (update root k (some d)) s'
  total : ∀ f, Total (update root k (some d)) k s' [] f ↔ f ∈ s.freelist
  free : s'.freelist = s.freelist.drop 65
  empty : ∀ i < 512, ¬ present (s'.mem d i) = true
  tables : ∀ i, 512 ≤ i → i < 1024 → (present (s'.mem d i) = true ↔ i < 568 ∨ 1016 ≤ i)
  mapped : ∀ va, KERNBASE ≤ va → va < KERNBASE + PHYSTOP → present (pteAt s' d va) = true
  kern : ∀ va < 2 ^ 32, KERNBASE ≤ va → user (pteAt s' d va) = false
  direct : ∀ va, KERNBASE ≤ va → va < KERNBASE + PHYSTOP →
    pteFrame (pteAt s' d va) = va / PGSIZE - KERNBASE / PGSIZE
  mem : ∀ g, g ∉ s.freelist → s'.mem g = s.mem g
  head : s.freelist.head? = some d

/-- The first three rows of `kmap` map memory, page after page. -/
theorem kmap_memory (ks : List Kmap) (hk : root k = some d) (h : Chart L root k d 0 512 0 s₀ s)
    (hclean : ∀ i, 512 ≤ i → ¬ present (s₀.mem d i) = true) {Q : Option Nat → State → Prop}
    (hfail : ∀ s', s'.freelist = [] → s₀.freelist.length < 56 → Q none s')
    (hrest : ∀ s', Chart L root k d 0 512 NFRAMES s₀ s' → wp (setupkvmFrom d ks) Q E s') :
    wp (setupkvmFrom d ((kmap L).take 3 ++ ks)) Q E s := by
  have hL := L.text_pos
  have hL' := L.data_pos
  have hL'' := L.fits
  -- one row: the pages from `m` up to `m'`
  have hrow : ∀ (m m' perm : Nat) (s : State) (v : Kmap) (l : List Kmap), m < m' → m' ≤ NFRAMES →
      user perm = false → perm < PGSIZE → v.virt = (1024 * 512 + m) * PGSIZE →
      uint (v.phys_end - v.phys_start) = (m' - m) * PGSIZE → v.phys_start = (0 + m) * PGSIZE →
      v.perm = perm → Chart L root k d 0 512 m s₀ s →
      (∀ s', Chart L root k d 0 512 m' s₀ s' → wp (setupkvmFrom d l) Q E s') →
      wp (setupkvmFrom d (v :: l)) Q E s := by
    intro m m' perm s v l hlt hle hu hp hvirt hsize hstart hperm hc hl
    rw [setupkvmFrom, hvirt, hsize, hstart, hperm, mappages_pages (by omega)]
    swap
    · lia
    simp only [NFRAMES, PHYSTOP, PGSIZE] at hle
    refine wp_seq (mappagesFrom_chart hk hu hp le_rfl (fun _ => by decide) (m' - m - 1) m s hc
      (by omega) (by omega) fun i h1 _ => hclean i h1) ?_
    rw [show m + (m' - m - 1) + 1 = m' by omega]
    rintro b s1 (⟨rfl, h₁⟩ | ⟨rfl, h₁, h2⟩)
    · exact hl s1 h₁
    · refine hfail s1 h₁ ?_
      simp only [tablesFor] at h2
      omega
  simp only [NFRAMES, PHYSTOP, PGSIZE, EXTMEM] at hL hL' hL''
  refine hrow 0 256 PTE_W s _ _ (by decide) (by decide) (by decide) (by decide) rfl ?_ rfl rfl h ?_
  · exact uint_eq 0 (by decide) (by decide)
  intro s1 h₁
  refine hrow 256 L.data 0 s1 _ _ (by omega) ?_ (by decide) (by decide) rfl ?_ rfl rfl h₁ ?_
  · lia
  · refine uint_eq 0 ?_ ?_
    · simp only [PGSIZE, EXTMEM]; push_cast; omega
    · lia
  intro s2 h2
  refine hrow L.data NFRAMES PTE_W s2 _ _ ?_ le_rfl (by decide) (by decide) ?_ ?_ ?_ rfl h2 hrest
  · lia
  · lia
  · refine uint_eq 0 ?_ ?_
    · simp only [PGSIZE, PHYSTOP, NFRAMES]; push_cast; omega
    · lia
  · lia

/-- **What `setupkvm` takes.** -/
theorem setupkvm_exact (hO : Own L root s) (hk : root k = none) :
    wp (setupkvm L) (fun r s' => (r = none ∧ s.freelist.length < 65 ∧ s'.freelist = []) ∨
      ∃ d, r = some d ∧ Built L root k d s s') E s := by
  unfold setupkvm
  refine wp_seq (kalloc_spec hO) fun r s1 h₁ => ?_
  cases r with
  | none =>
    have hnil := h₁.empty rfl
    have hfree := h₁.freelist
    rw [hnil] at hfree
    exact .inl ⟨rfl, by rw [hnil]; decide, by simpa using hfree.symm⟩
  | some d =>
    have hd := h₁.fresh d rfl
    simp only [setFrame, wp_bind, wp_modify, wp_stopIf]
    refine ⟨fun h => absurd h (by decide), fun _ => ?_⟩
    generalize hs2 : ({ s1 with mem := update s1.mem d fun _ => 0 } : State) = s2
    have h₂ : Grows L root s1 root s2 :=
      .of_update h₁.own ⟨fun _ => 0, by rw [← hs2]⟩ (by rw [← hs2]) fun k π _ => hd.node k π
    have hzero : s2.mem d = fun _ => 0 := by rw [← hs2]; simp
    have hfree : s.freelist = d :: s2.freelist := by rw [h₁.freelist, ← hs2]; rfl
    obtain ⟨hn, hO2⟩ := h₂.own.add hk (h₂.fresh d hd) hzero
    have hpte : ∀ va, pteAt s2 d va = 0 := fun va => by
      rw [pteAt, hzero]; exact if_neg (by simp [present])
    have hroot : update root k (some d) k = some d := update_self _ _ _
    have hnone : ∀ i, ¬ present (s2.mem d i) = true := fun i => by
      rw [hzero]; simp [present]
    have h0 : Chart L (update root k (some d)) k d 0 512 0 s2 s2 :=
      Chart.refl hO2 (fun va _ _ => by rw [hpte]; rfl)
        (fun va _ _ hp => absurd (hpte va ▸ hp) (by decide))
        fun va _ hp => absurd (hpte va ▸ hp) (by decide)
    have htotal : ∀ f, Total (update root k (some d)) k s2 [] f ↔ f ∈ s.freelist := by
      intro f
      rw [hfree, List.mem_cons, Total]
      constructor
      · rintro (hf | ⟨π, hf⟩ | hf)
        · exact .inr hf
        · rw [hn] at hf
          split at hf
          · exact .inl (Option.some.inj hf).symm
          · rw [node, Shape.node_none_of_root hk] at hf; cases hf
        · cases hf
      · rintro (rfl | hf)
        · exact .inr (.inl ⟨[], hroot⟩)
        · exact .inl hf
    have hlen : s.freelist.length = s2.freelist.length + 1 := by rw [hfree, List.length_cons]
    refine kmap_memory ((kmap L).drop 3) hroot h0 (fun i _ => hnone i) ?_ ?_
    · exact fun s' h' hlt => .inl ⟨rfl, by omega, h'⟩
    intro s3 h3
    have hdev : (kmap L).drop 3 = [⟨DEVSPACE, DEVSPACE, 0, PTE_W⟩] := rfl
    have hsize : uint (((0 : Nat) : Int) - ((DEVSPACE : Nat) : Int)) = 8192 * PGSIZE :=
      uint_eq (-1) (by decide) (by decide)
    have hlen3 : s3.freelist.length = s2.freelist.length - 56 := by
      rw [h3.free, List.length_drop]; rfl
    have hbase : DEVSPACE = (1024 * 1016 + 0) * PGSIZE := rfl
    rw [hdev, setupkvmFrom]
    simp only [hsize]
    rw [hbase, mappages_pages (by decide) (by decide)]
    refine wp_seq (mappagesFrom_chart (B := 1016) (Q := 1024 * 1016) hroot (by decide) (by decide)
      (by decide) (fun h => absurd h (by decide)) (8192 - 1) 0 s3
      (Chart.refl h3.own h3.kern h3.direct h3.sound) (by decide) (by decide) fun i h1 h2 => ?_) ?_
    · rw [h3.tables i (by omega), not_or]
      refine ⟨hnone i, ?_⟩
      lia
    rintro b s4 (⟨rfl, h4⟩ | ⟨rfl, hnil, hlt⟩)
    · refine .inr ⟨d, rfl, ?_⟩
      have hen4 : 8 ≤ s3.freelist.length := h4.enough
      have hmem : ∀ va, KERNBASE ≤ va → va < KERNBASE + PHYSTOP →
          present (pteAt s4 d va) = true := by
        intro va h1 h2
        have hva : va < 2 ^ 32 := by lia
        rw [h4.pages va hva, h3.pages va hva]
        left; right
        lia
      refine ⟨by omega, h4.own, fun f => ?_, ?_, fun i hi => ?_, fun i h1 h2 => ?_, hmem, h4.kern,
        fun va h1 h2 => h4.direct va h1 h2 (hmem va h1 h2), fun g hg => ?_, ?_⟩
      · rw [h4.total, h3.total, htotal]
      · rw [h4.free, h3.free, List.drop_drop, hfree]
        rfl
      · rw [h4.tables i (by omega), h3.tables i (by omega), not_or, not_or]
        exact ⟨⟨hnone i, by omega⟩, by omega⟩
      · rw [h4.tables i h2, h3.tables i h2, or_iff_right (hnone i)]
        lia
      · have hgd : g ≠ d := fun e => hg (by rw [hfree, e]; exact List.mem_cons_self)
        rw [h4.mem g (by rw [h3.total, htotal]; exact hg), h3.mem g (by rw [htotal]; exact hg),
          ← hs2, ← h₁.mem]
        exact update_of_ne hgd _ _
      · rw [hfree]; rfl
    · refine .inl ⟨rfl, ?_, hnil⟩
      simp only [tablesFor] at hlt
      omega

end

end Dixv6.Vm
