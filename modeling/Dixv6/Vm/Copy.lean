import Dixv6.Vm.Range

/-!
# What `fork` copies

`copyuvm` gives the child a page for every page of the parent, in a frame of its own with the same
contents, under the same flags. `Copied` says so about the entries and the frames alone, with what
becomes of the rest: the child has nothing above its size but the kernel's part, and nothing that was
in use has changed. **`copyuvm_copies`** proves it for every page directory whose pages are all there;
`copyuvm_enough` says how many frames it takes for `copyuvm` to succeed.

The loop keeps `Copying`, which is `Copied` for the pages below its counter.
-/

namespace Dixv6.Vm

open Lib Function

/-- `d` is a copy of the user part of `pgdir` up to `sz`. -/
structure Copied (L : Layout) (s : State) (pgdir sz d : Nat) (s' : State) : Prop where
  /-- Every page is mapped with the same flags, to a frame that was free. -/
  flags : ∀ va < sz, PTE_FLAGS (pteAt s' d va) = PTE_FLAGS (pteAt s pgdir va)
  free : ∀ va < sz, pteFrame (pteAt s' d va) ∈ s.freelist
  /-- The whole page has the same contents. -/
  contents : ∀ va < sz, s'.mem (pteFrame (pteAt s' d va)) = s.mem (pteFrame (pteAt s pgdir va))
  /-- Different pages are in different frames. -/
  distinct : ∀ va < sz, ∀ va' < sz, pteFrame (pteAt s' d va) = pteFrame (pteAt s' d va') →
    va / PGSIZE = va' / PGSIZE
  /-- None of them is a frame of the parent's. -/
  parent : ∀ va < sz, ∀ va' < 2 ^ 32, OwnPage s pgdir va' →
    pteFrame (pteAt s' d va) ≠ pteFrame (pteAt s pgdir va')
  /-- There is nothing for the user above. -/
  above : ∀ va < 2 ^ 32, PGROUNDUP sz ≤ va →
    ¬ (present (pteAt s' d va) = true ∧ user (pteAt s' d va) = true)
  /-- The kernel's part is the one that `setupkvm` makes. -/
  kernel : ∃ s₁, setupkvm L s = .ok (some d, s₁) ∧
    ∀ va < 2 ^ 32, KERNBASE ≤ va → pteAt s' d va = pteAt s₁ d va
  /-- The parent's entries are as they were. -/
  entries : ∀ va, pteAt s' pgdir va = pteAt s pgdir va
  /-- So is every frame that was not free. -/
  unchanged : ∀ f, f ∉ s.freelist → s'.mem f = s.mem f

/-- The loop of `copyuvm` has copied the pages below `i`, from `s₀` on; `s₁` is the state in which the
child's directory was finished, and the child is `c`. -/
structure Copying (L : Layout) (root : Nat → Option Nat) (c d pgdir i : Nat) (s₀ s₁ s : State) :
    Prop where
  own : Own L root s
  total : ∀ f, Total root c s [] f ↔ f ∈ s₀.freelist
  mem : ∀ f, f ∉ s₀.freelist → s.mem f = s₀.mem f
  done : ∀ va < i, ∃ f ∈ s₀.freelist, pteAt s d va =
    f * PGSIZE ||| PTE_FLAGS (pteAt s₀ pgdir va) ||| PTE_P ∧
    s.mem f = s₀.mem (pteFrame (pteAt s₀ pgdir va))
  rest : ∀ va < 2 ^ 32, i ≤ va → pteAt s d va = pteAt s₁ d va
  count : s₀.freelist.length ≤ 65 + 2 * (i / PGSIZE) + s.freelist.length

section
variable {L : Layout} {root root0 : Nat → Option Nat} {s s' s₀ s₁ s2 : State}
  {k c d pgdir i sz f : Nat}

/-- The child's directory when nothing has been copied. -/
theorem Built.copying (h : Built L root c d s₀ s₁) :
    Copying L (update root c (some d)) c d pgdir 0 s₀ s₁ s₁ where
  own := h.own
  total := h.total
  mem := h.mem
  done va hva := absurd hva (Nat.not_lt_zero va)
  rest _ _ _ := rfl
  count := by
    rw [h.free, List.length_drop]
    omega

/-- The parent's entries do not change. -/
theorem Copying.entries (h : Copying L root c d pgdir i s₀ s₁ s) (hO : Own L root0 s₀)
    (hk0 : root0 k = some pgdir) (va : Nat) : pteAt s pgdir va = pteAt s₀ pgdir va :=
  pteAt_same hk0 (fun _ g hg => h.mem g (hO.notfree _ _ _ hg)) va

/-- **One more page is copied**: `s2` is the state in which its frame has been filled. -/
theorem Copying.step (h : Copying L root c d pgdir i s₀ s₁ s) (hc : root c = some d)
    (hO : Own L root0 s₀) (hi : i % PGSIZE = 0) (hlt : i < KERNBASE) (hf : f ∈ s.freelist)
    (hpage : s'.mem f = s₀.mem (pteFrame (pteAt s₀ pgdir i)))
    (hp : Placed L root c d i (f * PGSIZE ||| PTE_FLAGS (pteAt s₀ pgdir i) ||| PTE_P) f s s2 true s')
    (hsame : SamePages root c s s') : Copying L root c d pgdir (i + PGSIZE) s₀ s₁ s' := by
  simp only [PGSIZE, KERNBASE] at hi hlt
  have hpage_iff : ∀ va < 2 ^ 32, (PDX va = PDX i ∧ PTX va = PTX i) ↔ va / PGSIZE * PGSIZE = i :=
    fun va hva => page_eq (by lia) (by omega) hva
  have hpte : ∀ va < 2 ^ 32, pteAt s' d va = if va / PGSIZE * PGSIZE = i then
      f * PGSIZE ||| PTE_FLAGS (pteAt s₀ pgdir i) ||| PTE_P else pteAt s d va := fun va hva => by
    rw [hp.map.pte, hp.pte]
    simp only [hpage_iff va hva, true_and]
  have hf0 : f ∈ s₀.freelist := (h.total f).1 (.inl hf)
  refine ⟨hp.map.own, fun g => ?_, fun g hg => ?_, fun va hva => ?_, fun va hva hle => ?_, ?_⟩
  · have htotal : Total root c s' [] = Total root c s [] := hp.total []
    rw [htotal]
    exact h.total g
  · rw [hp.mem g fun ht => hg ((h.total g).1 ht)]
    exact h.mem g hg
  · have hva' : va < 2 ^ 32 := by lia
    have hflags : ∀ w, PTE_FLAGS w < PGSIZE := fun w => Nat.mod_lt _ (by decide)
    rw [hpte va hva']
    by_cases heq : va / PGSIZE * PGSIZE = i
    · rw [if_pos heq, ← pteAt_page s₀ pgdir va, heq]
      exact ⟨f, hf0, rfl, hpage⟩
    · obtain ⟨g, hg, hpte_g, hmem⟩ := h.done va (by lia)
      refine ⟨g, hg, by rw [if_neg heq, hpte_g], ?_⟩
      have hlow : PDX va < 512 := by grind [PDX]
      rw [hsame g (.inr ⟨PTX va, PDX va, ?_⟩), hmem]
      rw [node_pteAt hc, hpte_g, ownedFrame, pteFrame_entry (hflags _),
        if_pos ⟨present_entry _ _, .inl hlow, (hO.free g hg).2⟩]
  · rw [hpte va hva, if_neg (by lia)]
    exact h.rest va hva (by lia)
  · have hcount := h.count
    have hlen : s.freelist.length = s2.freelist.length + 1 := by rw [hp.free, List.length_cons]
    have hfree := congrArg List.length hp.map.freelist
    have hdiv : (i + PGSIZE) / PGSIZE = i / PGSIZE + 1 := Nat.add_div_right i (by decide)
    rw [hdiv]
    split at hfree
    · omega
    · rw [List.length_tail] at hfree
      omega

/-- The frame of a page below `KERNBASE` is not free. -/
theorem frame_not_free {va : Nat} (hO : Own L root s) (hk : root k = some pgdir) (hva : va < KERNBASE)
    (hp : present (pteAt s pgdir va) = true) : pteFrame (pteAt s pgdir va) ∉ s.freelist := fun hf =>
  hO.notfree _ _ _ (node_of_present hk hva hp (hO.free _ hf).2) hf

/-- The size of the pages that `sz` bytes lie on. -/
def pagesEnd (sz : Nat) : Nat := (sz + (PGSIZE - 1)) / PGSIZE * PGSIZE

/-- How many frames `copyuvm` may need for a process of `sz` bytes. -/
def copyNeed (sz : Nat) : Nat := 66 + 2 * (pagesEnd sz / PGSIZE)

/-- What the loop of `copyuvm` comes to: the pages do not fit below the kernel's part, there are not
frames enough, or all is copied. -/
theorem copyuvmFrom_copying (hO : Own L root0 s₀) (hk0 : root0 k = some pgdir)
    (hk : root k = some pgdir) (hc : root c = some d) (hb : Built L root0 c d s₀ s₁)
    (hpres : ∀ va < sz, present (pteAt s₀ pgdir va) = true) :
    ∀ (n i : Nat) (s : State), Copying L root c d pgdir i s₀ s₁ s → i % PGSIZE = 0 → i ≤ KERNBASE →
      i ≤ pagesEnd sz → wp (copyuvmFrom L pgdir sz d n i) (fun r s' =>
        (r = none ∧ (KERNBASE < sz ∨ s₀.freelist.length ≤ copyNeed sz)) ∨
        (r = some d ∧ sz ≤ KERNBASE ∧ Copying L root c d pgdir (pagesEnd sz) s₀ s₁ s'))
        (fun _ => n * PGSIZE + i ≤ pagesEnd sz ∨ KERNBASE < sz ∨ s₀.freelist.length ≤ copyNeed sz)
        s := by
  intro n
  induction n with
  | zero => exact fun i s _ _ _ hend => .inl (by omega)
  | succ n ih =>
    intro i s h hi hle hend
    rw [copyuvmFrom]
    simp only [KERNBASE, PGSIZE] at hi hle
    refine wp_ite (fun hlt => ?_) fun hge => ?_
    swap
    · have hfull : i = pagesEnd sz := by
        grind [pagesEnd]
      exact .inr ⟨rfl, by lia, hfull ▸ h⟩
    -- the parent's page is there
    have hentry := h.entries hO hk0 i
    have hthere : present (pteAt s pgdir i) = true := hentry ▸ hpres i hlt
    obtain ⟨t, ht⟩ : ∃ t, node root s k [PDX i] = some t := by
      by_contra hno
      refine not_present_of_table ?_ hthere
      rw [present_iff_table hk (PDX_lt i)]
      exact hno
    have hpte := pteAt_of_table hk ht
    refine wp_seq (walkpgdir_look (s := s) hk i) ?_
    rintro r s' ⟨hs', rfl⟩
    rw [hs', ht]
    simp only [Option.map_some, getWord, wp_bind, wp_gets, wp_stopIf, ← hpte, hthere,
      not_true_eq_false, false_implies, true_and, not_false_eq_true, true_implies]
    have hcount := h.count
    have hbad : ∀ s', (KERNBASE < sz ∨ s₀.freelist.length ≤ copyNeed sz) →
        wp (do freevm L d; pure none : M (Option Nat)) (fun r s' =>
          (r = none ∧ (KERNBASE < sz ∨ s₀.freelist.length ≤ copyNeed sz)) ∨
          (r = some d ∧ sz ≤ KERNBASE ∧ Copying L root c d pgdir (pagesEnd sz) s₀ s₁ s'))
          (fun _ => (n + 1) * PGSIZE + i ≤ pagesEnd sz ∨ KERNBASE < sz ∨
            s₀.freelist.length ≤ copyNeed sz) s' := fun s' hfew =>
      wp_seq (R := fun _ _ => True) (wp_intro (fun _ _ _ => trivial) fun _ _ => .inr hfew)
        fun _ _ _ => .inl ⟨rfl, hfew⟩
    have hfew : s.freelist.length ≤ 1 → s₀.freelist.length ≤ copyNeed sz := fun hle => by
      grind [copyNeed, pagesEnd]
    refine wp_post (kalloc_spec h.own) fun r s2 h2 => ?_
    cases r with
    | none => exact hbad s2 (.inr (hfew (by rw [h2.empty rfl]; exact Nat.zero_le 1)))
    | some f =>
      simp only [setFrame, wp_bind, wp_gets, wp_modify]
      generalize hpage : s2.mem (pteFrame (pteAt s pgdir i)) = page
      generalize hs3 : ({ s2 with mem := update s2.mem f page } : State) = s3
      have hmem3 : s3.mem = update s2.mem f page := by rw [← hs3]
      have hfree3 : s3.freelist = s2.freelist := by rw [← hs3]
      have hflags : PTE_FLAGS (pteAt s pgdir i) < PGSIZE := Nat.mod_lt _ (by decide)
      have hmod : i % PGSIZE = 0 := by lia
      by_cases hkern : i = KERNBASE
      · -- the kernel's part is there already
        have hbig : KERNBASE < sz := hkern ▸ hlt
        refine wp_post (h2.map_page hc hmem3 hfree3 hflags hmod (by omega) fun _ => .inr (.inl hbig)) ?_
        rintro b s4 ⟨-, h4⟩
        refine absurd ?_ h4.absent
        rw [(pteAt_update hc hmem3 fun k π _ => (h2.fresh f rfl).node k π).2, pteAt, h2.mem, ← pteAt,
          h.rest i (by omega) le_rfl]
        exact hb.mapped i hkern.ge (by rw [hkern]; decide)
      have hlow : i < KERNBASE := by lia
      have habs : ¬ present (pteAt s d i) = true := by
        rw [h.rest i (by omega) le_rfl]
        refine not_present_of_table (hb.empty _ ?_)
        grind [PDX]
      refine wp_post (wp_and_any (h2.place hc hmem3 hfree3 hflags hmod hlow fun hp => absurd hp habs)
        (h2.samePages h.own hc hmem3 hfree3 hmod hlow)) ?_
      rintro b s4 ⟨h4, hsame, hfill⟩
      have hf : f ∈ s.freelist := by rw [h2.freelist]; exact List.mem_cons_self
      cases b with
      | false =>
        have hres := h4.map.result
        simp only [Bool.false_eq_true, false_iff, not_or, not_not] at hres
        refine hbad s4 (.inr (hfew ?_))
        rw [h4.free, hres.2]
        exact Nat.le_refl 1
      | true =>
        have hnext : (i + PGSIZE) % 2 ^ 32 = i + PGSIZE := by lia
        simp only [if_true, hnext]
        have hcopied : s4.mem f = s₀.mem (pteFrame (pteAt s₀ pgdir i)) := by
          rw [hfill, ← hpage, h2.mem, hentry]
          exact h.mem _ (frame_not_free hO hk0 hlow (hpres i hlt))
        rw [hentry] at h4
        refine wp_mono (ih (i + PGSIZE) s4 (h.step hc hO hmod hlow hf hcopied h4 hsame) ?_ ?_ ?_)
          (fun _ _ hr => hr) fun _ he => he.imp_left fun hturns => ?_
        · lia
        · lia
        · grind [pagesEnd]
        · grind

/-- The flags of an entry that is made from those of a page that is present. -/
theorem flags_entry {w : Nat} (hw : present w = true) :
    PTE_FLAGS (f * PGSIZE ||| PTE_FLAGS w ||| PTE_P) = PTE_FLAGS w := by
  have hodd : PTE_FLAGS w ||| PTE_P = PTE_FLAGS w := by
    refine Nat.eq_of_testBit_eq fun i => ?_
    rw [Nat.testBit_or]
    cases i with
    | zero =>
      have hbit : (PTE_FLAGS w).testBit 0 = true := by
        rw [PTE_FLAGS, show PGSIZE = 2 ^ 12 from rfl, Nat.testBit_mod_two_pow]
        exact Bool.and_eq_true_iff.2 ⟨by decide, hw⟩
      rw [hbit, Bool.true_or]
    | succ i => simp [PTE_P, Nat.testBit_succ]
  have hzero : f * 2 ^ 12 % 2 ^ 12 = 0 := Nat.mul_mod_left _ _
  rw [Nat.or_assoc, hodd]
  unfold PTE_FLAGS
  rw [show PGSIZE = 2 ^ 12 from rfl, Nat.or_mod_two_pow, hzero, Nat.zero_or, Nat.mod_mod]

/-- When all pages are copied, the child is a copy. -/
theorem Copying.copied (h : Copying L root c d pgdir (pagesEnd sz) s₀ s₁ s) (hO : Own L root0 s₀)
    (hk : root0 k = some pgdir) (hc : root c = some d) (hb : Built L root0 c d s₀ s₁)
    (hset : setupkvm L s₀ = .ok (some d, s₁)) (hsz : sz ≤ KERNBASE)
    (hpres0 : ∀ va < sz, present (pteAt s₀ pgdir va) = true) : Copied L s₀ pgdir sz d s := by
  have hflags : ∀ w, PTE_FLAGS w < PGSIZE := fun w => Nat.mod_lt _ (by decide)
  have hend : ∀ va < sz, va < pagesEnd sz := fun va hva => by
    grind [pagesEnd]
  have hframe : ∀ va < sz, ∃ f ∈ s₀.freelist, pteFrame (pteAt s d va) = f ∧
      s.mem f = s₀.mem (pteFrame (pteAt s₀ pgdir va)) := fun va hva => by
    obtain ⟨f, hf, hpte, hmem⟩ := h.done va (hend va hva)
    exact ⟨f, hf, by rw [hpte, pteFrame_entry (hflags _)], hmem⟩
  have hpres : ∀ va < sz, present (pteAt s d va) = true := fun va hva => by
    obtain ⟨f, hf, hpte, hmem⟩ := h.done va (hend va hva)
    rw [hpte]
    exact present_entry _ _
  refine ⟨fun va hva => ?_, fun va hva => ?_, fun va hva => ?_, fun va hva va' hva' he => ?_,
    fun va hva va' hva' hown he => ?_, fun va hva hge => ?_, ⟨s₁, hset, fun va hva hge => ?_⟩,
    fun va => h.entries hO hk va, h.mem⟩
  · obtain ⟨f, hf, hpte, -⟩ := h.done va (hend va hva)
    rw [hpte]
    exact flags_entry (hpres0 va hva)
  · grind
  · grind
  · obtain ⟨f, hf, hef, -⟩ := hframe va' hva'
    exact h.own.same_page hc (hva'.trans_le hsz) (hva.trans_le hsz) (hpres va' hva') (hpres va hva)
      (hef ▸ (hO.free f hf).2) he
  · obtain ⟨f, hf, hef, -⟩ := hframe va hva
    rw [hef] at he
    rcases hown.page hk with hbig | ⟨x, y, hn⟩
    · have := (hO.free f hf).2
      omega
    · exact hO.notfree _ _ _ hn (he ▸ hf)
  · have hup : pagesEnd sz = PGROUNDUP sz := by
      grind [pagesEnd, PGROUNDUP]
    rw [h.rest va hva (hup ▸ hge)]
    rintro ⟨hp, hu⟩
    by_cases hlow : va < KERNBASE
    · refine not_present_of_table (hb.empty _ ?_) hp
      grind [PDX]
    · rw [hb.kern va hva (by omega)] at hu
      cases hu
  · refine h.rest va hva ?_
    grind [pagesEnd]

/-- `freevm` gives back all that went into the copy. -/
theorem Copying.freevm {E : Stop → Prop} (h : Copying L root c d pgdir (pagesEnd sz) s₀ s₁ s)
    (hO : Own L root0 s₀) (hc : root c = some d) (hb : Built L root0 c d s₀ s₁) (hsz : sz ≤ KERNBASE) :
    wp (Vm.freevm L d) (fun _ s' => SameFree s₀ s') E s := by
  refine wp_post (freevm_clean h.own hc (fun va hva hge => ?_) fun va hva hp => ?_)
    fun _ s' hs f => (hs f).trans (h.total f)
  · rw [h.rest va hva (by grind [pagesEnd])]
    exact hb.kern va hva hge
  · by_cases hlt : va < pagesEnd sz
    · obtain ⟨f, hf, hpte, -⟩ := h.done va hlt
      have hflags : PTE_FLAGS (pteAt s₀ pgdir va) < PGSIZE := Nat.mod_lt _ (by decide)
      rw [hpte, pteFrame_entry hflags]
      exact (hO.free f hf).2
    · rw [h.rest va (by lia) (by omega)] at hp
      exact absurd hp (not_present_of_table (hb.empty _ (by grind [PDX])))

/-- **What `copyuvm` comes to.** -/
theorem copyuvm_copied (hO : Own L root s) (hk : root k = some pgdir)
    (hpres : ∀ va < sz, present (pteAt s pgdir va) = true) : wp (copyuvm L pgdir sz) (fun r s' =>
      (r = none ∧ (KERNBASE < sz ∨ s.freelist.length ≤ copyNeed sz)) ∨
      ∃ d, r = some d ∧ wp (freevm L d) (fun _ s'' => SameFree s s'') (fun _ => False) s' ∧
        Copied L s pgdir sz d s')
      (fun _ => KERNBASE < sz ∨ s.freelist.length ≤ copyNeed sz) s := by
  obtain ⟨c, hc⟩ := hO.slot
  have hne : k ≠ c := by rintro rfl; rw [hc] at hk; cases hk
  unfold copyuvm
  obtain ⟨r, s₁, hset, hcase⟩ := wp_total (setupkvm_exact hO hc)
  refine (wp_bind _ _).2 (wp_intro (fun a s' hrun => ?_) fun e he => ?_)
  swap
  · rw [hset] at he
    cases he
  rw [hset] at hrun
  cases hrun
  rcases hcase with ⟨rfl, hlt, -⟩ | ⟨d, rfl, hb⟩
  · refine .inl ⟨rfl, .inr ?_⟩
    grind [copyNeed]
  have hk1 : update root c (some d) k = some pgdir := by
    rw [update_of_ne hne, hk]
  have hc1 : update root c (some d) c = some d := update_self _ _ _
  refine wp_mono (copyuvmFrom_copying hO hk hk1 hc1 hb hpres TURNS 0 s₁ hb.copying rfl (Nat.zero_le _)
    (Nat.zero_le _)) ?_ ?_
  · rintro r s' (hnone | ⟨rfl, hsz, h⟩)
    · exact .inl hnone
    · exact .inr ⟨d, rfl, h.freevm hO hc1 hb hsz, h.copied hO hk hc1 hb hset hsz hpres⟩
  · rintro _ (hturns | hfew)
    · refine .inl ?_
      grind [pagesEnd]
    · exact hfew

/-- **A copy can be given back**: `freevm` of what `copyuvm` has returned does not panic, and then the
same frames are free as before. -/
theorem copyuvm_freevm (hO : Own L root s) (hk : root k = some pgdir)
    (hpres : ∀ va < sz, present (pteAt s pgdir va) = true)
    (hrun : copyuvm L pgdir sz s = .ok (some d, s')) :
    ∃ s'', freevm L d s' = .ok ((), s'') ∧ SameFree s s'' := by
  rcases wp_ok (copyuvm_copied hO hk hpres) hrun with ⟨hr, -⟩ | ⟨d', hr, h, -⟩
  · cases hr
  · cases hr
    obtain ⟨⟨⟩, s'', hfree, hsame⟩ := wp_total h
    exact ⟨s'', hfree, hsame⟩

/-- **With frames enough it succeeds.** -/
theorem copyuvm_enough (hO : Own L root s) (hk : root k = some pgdir) (hsz : sz ≤ KERNBASE)
    (hpres : ∀ va < sz, present (pteAt s pgdir va) = true)
    (hfree : copyNeed sz < s.freelist.length) : ∃ d s', copyuvm L pgdir sz s = .ok (some d, s') := by
  have hno : ¬ (KERNBASE < sz ∨ s.freelist.length ≤ copyNeed sz) := by omega
  obtain ⟨r, s', hrun, hcase⟩ := wp_total (wp_mono (copyuvm_copied hO hk hpres) (fun _ _ h => h)
    fun _ he => hno he)
  rcases hcase with ⟨-, hbad⟩ | ⟨d, rfl, -⟩
  · exact absurd hbad hno
  · exact ⟨d, s', hrun⟩

end

/-- The copy of the same process is given back. -/
theorem copyuvm_freevm_small : ∃ d s' s'',
    copyuvm demoLayout 400 100 (small 0 (List.range' 403 100)) = .ok (some d, s') ∧
    freevm demoLayout d s' = .ok ((), s'') ∧ SameFree (small 0 (List.range' 403 100)) s'' := by
  have hO : Own demoLayout smallRoot (small 0 (List.range' 403 100)) :=
    small_own List.nodup_range' fun f hf => by
      obtain ⟨h1, h2⟩ := List.mem_range'_1.1 hf
      lia
  have hpres : ∀ va < 100, present (pteAt (small 0 (List.range' 403 100)) 400 va) = true :=
    fun va hva => by
      have hi : PDX va = 0 ∧ PTX va = 0 := by grind [PDX, PTX]
      rw [small_pteAt, if_pos hi]
      decide
  obtain ⟨d, s', hrun⟩ := copyuvm_enough (k := 0) hO rfl (by decide) hpres (by decide)
  obtain ⟨s'', hfree, hsame⟩ := copyuvm_freevm (k := 0) hO rfl hpres hrun
  exact ⟨d, s', s'', hrun, hfree, hsame⟩

end Dixv6.Vm
