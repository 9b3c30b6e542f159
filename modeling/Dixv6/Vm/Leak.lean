import Mathlib.Data.Fintype.EquivFin
import Dixv6.Vm.Chart

/-!
# What a failed memory operation costs

`setupkvm`, `copyuvm`, `fork`, `exec`, `pipealloc` and `allocuvm` can run out of frames at any of
their allocations. A failure leaks nothing when the free frames are the same set as before
(`SameFree`). For each function there is a law that says so, and a condition on the free frames it
is called with that is met exactly when the law holds.
-/

namespace Dixv6.Vm

open Lib Function

/-- The same frames are free. -/
def SameFree (s s' : State) : Prop := ∀ f, f ∈ s'.freelist ↔ f ∈ s.freelist

/-- A law about the result `v`, from what is known of every outcome. -/
theorem law_of_wp {σ ε α : Type} {m : Comp σ ε α} {x : σ} {v : α} {R : σ → Prop} {P : Prop}
    (h : wp m (fun r x' => (r = v → (R x' ↔ P)) ∧ (r ≠ v → P)) (fun _ => P) x) :
    (∀ x', m x = .ok (v, x') → R x') ↔ P := by
  unfold wp at h
  rcases hm : m x with e | ⟨r, x'⟩
  · grind
  · grind

section
variable {L : Layout} {root root1 : Nat → Option Nat} {s s' s0 s1 s₂ : State} {k pgdir d c f : Nat}
  {E : Stop → Prop}

/-- There are more address spaces to be had than frames. -/
theorem Own.slot (hO : Own L root s) : ∃ k, root k = none := by
  by_contra hall
  have hsome : ∀ k, ∃ d, root k = some d := fun k =>
    Option.ne_none_iff_exists'.1 fun h => hall ⟨k, h⟩
  choose dir hdir using hsome
  have hlt : ∀ k, dir k < NFRAMES := fun k => (hO.valid k [] _ (hdir k)).2
  have hinj : Function.Injective fun k => (⟨dir k, hlt k⟩ : Fin NFRAMES) := by
    intro k k' h
    have he : dir k = dir k' := Fin.mk.inj h
    exact (hO.distinct k [] k' [] (dir k) (hdir k) (he ▸ hdir k')).1
  exact not_injective_infinite_finite _ hinj

/-- There are fewer free frames than pages below `KERNBASE`. -/
theorem Own.few (hO : Own L root s) : s.freelist.length < 2 ^ 19 := by
  have hsub : s.freelist.toFinset ⊆ Finset.range NFRAMES := fun f hf =>
    Finset.mem_range.2 (hO.free f (List.mem_toFinset.1 hf)).2
  have hcard := Finset.card_le_card hsub
  rw [List.toFinset_card_of_nodup hO.nodup, Finset.card_range] at hcard
  lia

/-! ## `setupkvm` -/

/-- When `setupkvm` fails, the same frames are free. -/
def SetupkvmLaw (L : Layout) (s : State) : Prop :=
  ∀ s', setupkvm L s = .ok (none, s') → SameFree s s'

/-- There is no frame at all, or there are enough for a page directory. -/
def SetupkvmOk (n : Nat) : Prop := n = 0 ∨ 65 ≤ n

/-- With fewer frames than a page directory takes, `setupkvm` fails and none is left. -/
theorem setupkvm_short (hO : Own L root s) (hlt : s.freelist.length < 65) :
    ∃ s', setupkvm L s = .ok (none, s') ∧ s'.freelist = [] := by
  obtain ⟨k, hk⟩ := hO.slot
  have hex := setupkvm_exact (E := fun _ => False) hO hk
  obtain ⟨r, s', hrun, ⟨rfl, -, hnil⟩ | ⟨d, rfl, hb⟩⟩ := wp_total hex
  · exact ⟨s', hrun, hnil⟩
  · have := hb.enough
    omega

/-- `setupkvm` loses what it has taken. -/
theorem setupkvm_law (hO : Own L root s) : SetupkvmLaw L s ↔ SetupkvmOk s.freelist.length := by
  constructor
  · intro hlaw
    by_contra hno
    obtain ⟨h0, hlt⟩ := not_or.1 hno
    obtain ⟨s', hrun, hnil⟩ := setupkvm_short hO (by omega)
    obtain ⟨f, hf⟩ := List.exists_mem_of_length_pos (Nat.pos_of_ne_zero h0)
    have := (hlaw s' hrun f).2 hf
    rw [hnil] at this
    cases this
  · rintro hok s' hrun f
    obtain ⟨k, hk⟩ := hO.slot
    rcases wp_ok (setupkvm_exact (E := fun _ => False) hO hk) hrun with
      ⟨-, hlt, hnil⟩ | ⟨d, hd, -⟩
    · have hempty : s.freelist = [] := List.length_eq_zero_iff.1 (by
        rcases hok with h | h <;> omega)
      rw [hnil, hempty]
    · cases hd

/-! ## A page taken and mapped -/

/-- What becomes of a frame that was just taken when it is mapped at `a`; `s₂` is the state after
it was filled. When there is no frame for the page table, it stays in hand. -/
structure Placed (L : Layout) (root : Nat → Option Nat) (k pgdir a w f : Nat) (s s₂ : State)
    (b : Bool) (s' : State) : Prop where
  map : Mapped L root k pgdir a w s₂ b s'
  stay : b = false → s' = s₂
  total : ∀ hand, Total root k s' ((if b then [] else [f]) ++ hand) = Total root k s hand
  mem : ∀ g, ¬ Total root k s [] g → s'.mem g = s.mem g
  free : s.freelist = f :: s₂.freelist
  dir : s₂.mem pgdir = s.mem pgdir
  pte : ∀ va, pteAt s₂ pgdir va = pteAt s pgdir va
  node : ∀ k π, node root s₂ k π = node root s k π
  fresh : Fresh L root s₂ f

/-- **The books of a page taken, filled and mapped.** -/
theorem Taken.place {a perm : Nat} {page : Nat → Nat} (h : Taken L root s (some f) s1)
    (hk : root k = some pgdir) (hmem : s₂.mem = update s1.mem f page)
    (hfree : s₂.freelist = s1.freelist) (hperm : perm < PGSIZE) (ha : a % PGSIZE = 0)
    (hlt : a < KERNBASE) (hE : present (pteAt s pgdir a) = true → E .remap) :
    wp (mappages pgdir a PGSIZE (f * PGSIZE) perm)
      (Placed L root k pgdir a (f * PGSIZE ||| perm ||| PTE_P) f s s₂) E s₂ := by
  have hf := h.fresh f rfl
  have hnode : ∀ k π, shape.inner k π → node root s1 k π ≠ some f := fun k π _ => hf.node k π
  obtain ⟨hdir, hpte⟩ := pteAt_update hk hmem hnode
  have hgrow : Grows L root s1 root s₂ := .of_update h.own ⟨page, hmem⟩ hfree hnode
  have hf2 := hgrow.fresh f hf
  have hpte' : ∀ va, pteAt s₂ pgdir va = pteAt s pgdir va := fun va => by
    rw [hpte, pteAt, pteAt, h.mem]
  have hi : PDX a < 512 := by grind [PDX]
  have hw : ownedFrame (PDX a) (f * PGSIZE ||| perm ||| PTE_P) = some f := by
    rw [ownedFrame, pteFrame_entry hperm, if_pos ⟨present_entry _ _, .inl hi, hf.valid.2⟩]
  have htotal : ∀ hand, Total root k s₂ (f :: hand) = Total root k s hand := fun hand => by
    rw [Total.put ⟨page, hmem⟩ hfree hnode, ← h.total]
    rfl
  rw [mappages_page ha (by lia)]
  refine wp_post (mappage_ledger hgrow.own hk (fun g hg => ?_) fun hp => hE (hpte' a ▸ hp)) ?_
  · rw [hw] at hg
    rw [← Option.some.inj hg]
    exact hf2
  rintro b s' ⟨hmap, hfalse, htrue, hsame⟩
  refine ⟨hmap, hfalse, fun hand => ?_, fun g hg => ?_, ?_, by rw [hdir, h.mem], hpte', ?_, hf2⟩
  · grind
  · have hgf : g ≠ f := fun e => hg (.inl (by rw [h.freelist, e]; exact List.mem_cons_self))
    rw [hsame g fun ht => hg ?_, hmem, update_of_ne hgf, h.mem]
    rw [← htotal]
    rcases ht with ht | ht | ht
    · exact .inl ht
    · exact .inr (.inl ht)
    · cases ht
  · rw [h.freelist, hfree]; rfl
  · intro k π
    rw [(h.own.put s₂ ⟨page, hmem⟩ hfree hnode).1, node, h.mem]

/-- `freevm` gives everything back when the kernel's part owns nothing and the user's pages are
memory. -/
theorem freevm_clean (hO : Own L root s) (hk : root k = some d)
    (hkern : ∀ va < 2 ^ 32, KERNBASE ≤ va → user (pteAt s d va) = false)
    (hsound : ∀ va < KERNBASE, present (pteAt s d va) = true →
      pteFrame (pteAt s d va) < NFRAMES) :
    wp (freevm L d) (fun _ s' => ∀ f, f ∈ s'.freelist ↔ Total root k s [] f) E s := by
  refine freevm_ledger hO hk (fun j i hi => ?_) (.inr fun va _ hlt _ hp => hsound va hlt hp)
  rw [Option.eq_none_iff_forall_not_mem]
  intro g hg
  rcases node_cases hk hg with ⟨h, -⟩ | ⟨i', -, h, -⟩ | ⟨va, hva, h, hown⟩
  · cases h
  · cases h
  · have hi' : i = PDX va := by injection h with _ h; injection h
    rw [ownedFrame, hkern va hva (by grind [PDX]), if_neg] at hown
    · cases hown
    · rintro ⟨-, h | h, -⟩
      · omega
      · cases h

/-! ## `copyuvm` -/

/-- When `copyuvm` fails, the same frames are free. -/
def CopyuvmLaw (L : Layout) (s : State) (pgdir sz : Nat) : Prop :=
  ∀ s', copyuvm L pgdir sz s = .ok (none, s') → SameFree s s'

/-- With `n` free frames, `copyuvm` does not run out where it cannot clean up: inside `setupkvm`,
or between the frame of a page and that of its page table. It comes to page `1024 * q` when the
parent has all pages up to that one. -/
def CopyuvmOk (s : State) (pgdir sz n : Nat) : Prop :=
  n = 0 ∨ (65 ≤ n ∧ ∀ q, 1024 * q * PGSIZE < sz →
    (∀ m ≤ 1024 * q, present (pteAt s pgdir (m * PGSIZE)) = true) → n ≠ 66 + 1025 * q)

/-- The entries of one address space do not change while only the books of another are touched. -/
theorem pteAt_outside (hO : Own L root s0) (hk : root k = some pgdir) (hne : k ≠ c)
    (hmem : ∀ g, ¬ Total root c s0 [] g → s.mem g = s0.mem g) (va : Nat) :
    pteAt s pgdir va = pteAt s0 pgdir va := by
  refine pteAt_same hk (fun π g hg => hmem g ?_) va
  rintro (hf | ⟨π', hf⟩ | hf)
  · exact hO.notfree _ _ _ hg hf
  · exact hne (hO.distinct _ _ _ _ _ hg hf).1
  · cases hf

/-- **The loop of `copyuvm`** from page `m` on; `s0` is the state in which the child's directory
was finished. -/
theorem copyuvmFrom_law {sz : Nat} (hO : Own L root s0) (hk : root k = some pgdir)
    (hc : root c = some d) (hne : k ≠ c) (hempty : ∀ i < 512, ¬ present (s0.mem d i) = true)
    (htotal : ∀ f, Total root c s0 [] f ↔ f ∈ s.freelist) {P : Prop}
    (hP : P ↔ ∀ q, 1024 * q * PGSIZE < sz →
      (∀ m ≤ 1024 * q, present (pteAt s0 pgdir (m * PGSIZE)) = true) →
      s0.freelist.length ≠ 1 + 1025 * q) :
    ∀ (n m : Nat) (s1 : State), n + m = TURNS → Chart L root c d 1 0 m s0 s1 →
      (∀ i < m, i * PGSIZE < sz ∧ present (pteAt s0 pgdir (i * PGSIZE)) = true) →
      wp (copyuvmFrom L pgdir sz d n (m * PGSIZE))
        (fun r s' => (r = none → (SameFree s s' ↔ P)) ∧ (r ≠ none → P)) (fun _ => P) s1 := by
  have hfew := hO.few
  -- past page `1024 * q` there were more frames than that
  have hpast : ∀ m s1, Chart L root c d 1 0 m s0 s1 →
      (∀ q, 1024 * q * PGSIZE < sz →
        (∀ m ≤ 1024 * q, present (pteAt s0 pgdir (m * PGSIZE)) = true) → 1024 * q < m) → P := by
    intro m s1 h hq
    refine hP.2 fun q h1 h2 => ?_
    have := hq q h1 h2
    have hen := h.enough
    simp only [tablesFor] at hen
    omega
  intro n
  induction n with
  | zero =>
    intro m s1 hn h
    have hen := h.enough
    lia
  | succ n ih =>
    intro m s1 hn h hbelow
    have hen := h.enough
    rw [copyuvmFrom]
    refine wp_ite (fun hlt => ?_) fun hge => ?_
    swap
    · refine ⟨fun he => (by cases he), fun _ => hpast m s1 h fun q h1 _ => ?_⟩
      lia
    have hpte := pteAt_outside hO hk hne h.mem (m * PGSIZE)
    have hmiss : ¬ present (pteAt s1 pgdir (m * PGSIZE)) = true → P := fun hp => by
      refine hpast m s1 h fun q _ h2 => ?_
      by_contra hle
      exact hp (hpte ▸ h2 m (by omega))
    refine wp_seq (walkpgdir_look (s := s1) hk (m * PGSIZE)) ?_
    rintro r s1' ⟨hs, rfl⟩
    rw [hs]
    cases ht : node root s1 k [PDX (m * PGSIZE)] with
    | none =>
      refine hmiss ?_
      rw [pteAt_of_no_table hk ht]
      decide
    | some t =>
    have hword := pteAt_of_table hk ht
    simp only [Option.map_some, getWord, wp_bind, wp_gets, wp_stopIf, ← hword]
    refine ⟨fun hp => hmiss hp, fun hp => ?_⟩
    rw [not_not] at hp
    have hbelow' : ∀ i < m + 1, i * PGSIZE < sz ∧
        present (pteAt s0 pgdir (i * PGSIZE)) = true := by
      intro i hi
      rcases Nat.lt_succ_iff_lt_or_eq.1 hi with hi | rfl
      · exact hbelow i hi
      · exact ⟨hlt, hpte ▸ hp⟩
    have hlen : s1.freelist.length = s0.freelist.length - (m + tablesFor m) := by
      rw [h.free, List.length_drop, Nat.one_mul]
    refine wp_post (kalloc_spec h.own) fun r s₂ h₂ => ?_
    cases r with
    | none =>
      -- nothing is in hand when `freevm` runs
      have hnil := h₂.empty rfl
      have hlen0 : s1.freelist.length = 0 := by rw [hnil]; rfl
      have hPt : P := hP.2 fun q h1 h2 he => by simp only [tablesFor] at *; omega
      have hsame : s₂.mem = s1.mem := h₂.mem
      have hpte2 : ∀ va, pteAt s₂ d va = pteAt s1 d va := fun va => by rw [pteAt, pteAt, hsame]
      refine wp_seq (freevm_clean h₂.own hc (fun va h1 h2 => by rw [hpte2]; exact h.kern va h1 h2)
        fun va h1 h2 => by rw [hpte2] at h2 ⊢; exact h.sound va h1 h2) fun _ s3 h3 => ?_
      refine ⟨fun _ => iff_of_true (fun f => ?_) hPt, fun he => absurd rfl he⟩
      have htot : Total root c s₂ [] = Total root c s1 [] := h₂.total
      rw [h3, ← htotal, ← h.total, htot]
    | some f =>
      have hpos : 0 < s1.freelist.length := by rw [h₂.freelist]; simp
      have hclean : ∀ i, 0 ≤ i → 1024 * i < 1024 * 0 + m + 1 → ¬ present (s0.mem d i) = true :=
        fun i _ hi => hempty i (by omega)
      have habs := h.absent (by omega) hclean
      have hB : (1024 * 0 + m) * PGSIZE = m * PGSIZE := by simp
      rw [hB] at habs
      have hperm : PTE_FLAGS (pteAt s1 pgdir (m * PGSIZE)) < PGSIZE := Nat.mod_lt _ (by decide)
      simp only [setFrame, wp_bind, wp_gets, wp_modify]
      generalize s₂.mem (pteFrame (pteAt s1 pgdir (m * PGSIZE))) = page
      generalize PTE_FLAGS (pteAt s1 pgdir (m * PGSIZE)) = perm at hperm
      generalize hs' : ({ s₂ with mem := update s₂.mem f page } : State) = s2'
      refine wp_post (h₂.place hc (by rw [← hs']) (by rw [← hs']) hperm (by simp)
        (by lia) fun hp => absurd hp habs) ?_
      rintro b s3 h3
      have hval := h3.fresh.valid
      cases b with
      | true =>
        have hnext : (m * PGSIZE + PGSIZE) % 2 ^ 32 = (m + 1) * PGSIZE := by
          lia
        simp only [if_true, hnext]
        refine ih (m + 1) s3 (by rw [← hn]; ring) ?_ hbelow'
        have hmap := h3.map
        rw [← hB] at hmap
        refine h.step hclean (by omega) ?_ hpos h3.dir h3.pte (fun h1 => ?_) (fun h1 => ?_)
          (fun _ => ?_) h3.total h3.mem hc hmap (present_entry _ _)
        · rw [h3.free]; rfl
        · lia
        · lia
        · rw [pteFrame_entry hperm]; exact hval.2
      | false =>
        -- the frame in hand is lost
        have hres := h3.map.result
        simp only [Bool.false_eq_true, false_iff, not_or, not_not] at hres
        have hi : PDX (m * PGSIZE) = m / 1024 := by simp only [PDX, PGSIZE]; omega
        have hfirst : m % 1024 = 0 := by
          by_contra hne
          refine hres.1 ?_
          rw [hi, h3.dir, h.tables _ (by omega)]
          right
          omega
        have hlen1 : s1.freelist.length = 1 := by rw [h3.free, hres.2]; rfl
        have hnP : ¬ P := fun hp => hP.1 hp (m / 1024) (by
            rw [Nat.mul_div_cancel' (Nat.dvd_of_mod_eq_zero hfirst)]; exact hlt)
          (fun i hi => (hbelow' i (by omega)).2) (by simp only [tablesFor] at *; omega)
        rw [h3.stay rfl]
        refine wp_seq (freevm_clean (k := c) (h3.stay rfl ▸ h3.map.own) hc
          (fun va h1 h2 => by rw [h3.pte]; exact h.kern va h1 h2)
          fun va h1 h2 => by rw [h3.pte] at h2 ⊢; exact h.sound va h1 h2) fun _ s4 h4 => ?_
        refine ⟨fun _ => iff_of_false (fun hsame => ?_) hnP, fun he => absurd rfl he⟩
        have hin : f ∈ s4.freelist := by
          rw [hsame, ← htotal, ← h.total]
          exact .inl (by rw [h₂.freelist]; exact List.mem_cons_self)
        rcases (h4 f).1 hin with hf | ⟨π, hf⟩ | hf
        · exact h3.fresh.free hf
        · exact h3.fresh.node c π hf
        · cases hf

/-- **`copyuvm` leaks when it runs out at a page table**, and nowhere else after `setupkvm`. -/
theorem copyuvm_outcome (hO : Own L root s) (hk : root k = some pgdir) (sz : Nat) :
    wp (copyuvm L pgdir sz)
      (fun r s' => (r = none → (SameFree s s' ↔ CopyuvmOk s pgdir sz s.freelist.length)) ∧
        (r ≠ none → CopyuvmOk s pgdir sz s.freelist.length))
      (fun _ => CopyuvmOk s pgdir sz s.freelist.length) s := by
  obtain ⟨c, hc⟩ := hO.slot
  have hne : k ≠ c := by rintro rfl; rw [hc] at hk; cases hk
  unfold copyuvm
  refine wp_seq (setupkvm_exact hO hc) ?_
  rintro r s1 (⟨rfl, hlt, hnil⟩ | ⟨d, rfl, hb⟩)
  · refine ⟨fun _ => ⟨fun hsame => .inl ?_, fun hok f => ?_⟩, fun he => absurd rfl he⟩
    · rw [List.length_eq_zero_iff, List.eq_nil_iff_forall_not_mem]
      intro f hf
      have := (hsame f).2 hf
      rw [hnil] at this
      cases this
    · rcases hok with h | h
      · rw [hnil, List.length_eq_zero_iff.1 h]
      · omega
  have hk1 : update root c (some d) k = some pgdir := by
    rw [update_of_ne hne, hk]
  have hout := pteAt_same hk fun _ g hg => hb.mem g (hO.notfree _ _ _ hg)
  have hlen : s1.freelist.length = s.freelist.length - 65 := by rw [hb.free, List.length_drop]
  have henough := hb.enough
  have hzero : copyuvmFrom L pgdir sz d TURNS 0 = copyuvmFrom L pgdir sz d TURNS (0 * PGSIZE) := by
    rw [Nat.zero_mul]
  have hnone : ∀ va < KERNBASE, ¬ present (pteAt s1 d va) = true := fun va hva => by
    refine not_present_of_table (hb.empty _ ?_)
    grind [PDX]
  refine copyuvmFrom_law (s := s) hb.own hk1 (update_self _ _ _) hne hb.empty hb.total ?_
    TURNS 0 s1 (Nat.add_zero _) (Chart.refl hb.own hb.kern (fun va h1 h2 _ => hb.direct va h1 h2)
      fun va h1 h2 => absurd h2 (hnone va h1)) fun i hi => absurd hi (Nat.not_lt_zero i)
  simp only [hout, CopyuvmOk]
  constructor
  · grind
  · grind

theorem copyuvm_law (hO : Own L root s) (hk : root k = some pgdir) (sz : Nat) :
    CopyuvmLaw L s pgdir sz ↔ CopyuvmOk s pgdir sz s.freelist.length :=
  law_of_wp (copyuvm_outcome hO hk sz)

end

/-! ## `fork` -/

/-- When `fork` fails, the same frames are free. -/
def ForkLaw (L : Layout) (s : Sys) (p : Proc) : Prop :=
  ∀ s', fork L p s = .ok (none, s') → SameFree s.vm s'.vm

/-- There is no slot for a child, or `copyuvm` does not run out where it cannot clean up; the kernel
stack has taken a frame before. -/
def ForkOk (s : Sys) (p : Proc) : Prop :=
  (∀ j < NPROC, s.procs j ≠ none) ∨
    CopyuvmOk s.vm p.pgdir p.sz (s.vm.freelist.length - 1)

section
variable {L : Layout} {root : Nat → Option Nat} {s : Sys} {k : Nat} {p : Proc}

/-- `fork` gives its kernel stack back, and leaks what `copyuvm` does. -/
theorem fork_law (hO : Own L root s.vm) (hk : root k = some p.pgdir) :
    ForkLaw L s p ↔ ForkOk s p := by
  obtain ⟨c, hc⟩ := hO.slot
  refine law_of_wp (R := fun s' : Sys => SameFree s.vm s'.vm) ?_
  unfold fork allocproc
  simp only [wp_bind, wp_gets]
  cases hslot : (List.range NPROC).find? fun i => (s.procs i).isNone with
  | none =>
    refine ⟨fun _ => iff_of_true (fun _ => Iff.rfl) (.inl fun j hj hnone => ?_),
      fun he => absurd rfl he⟩
    have := List.find?_eq_none.1 hslot j (List.mem_range.2 hj)
    simp [hnone] at this
  | some j =>
    have hj : ¬ ∀ j < NPROC, s.procs j ≠ none := fun hall => by
      have hnone := List.find?_some hslot
      have hlt := List.mem_range.1 (List.mem_of_find?_eq_some hslot)
      exact hall j hlt (Option.isNone_iff_eq_none.1 hnone)
    simp only [wp_bind, wp_liftVm]
    refine wp_post (kalloc_spec hO) fun r v1 h1 => ?_
    cases r with
    | none =>
      have hnil := h1.empty rfl
      have hsame : SameFree s.vm v1 := fun f => by rw [h1.freelist]; rfl
      exact ⟨fun _ => iff_of_true hsame (.inr (.inl (by rw [hnil]; rfl))), fun he => absurd rfl he⟩
    | some kstack =>
      have hks := h1.fresh kstack rfl
      have hlen : v1.freelist.length = s.vm.freelist.length - 1 := by rw [h1.freelist]; simp
      have hok : CopyuvmOk v1 p.pgdir p.sz v1.freelist.length ↔ ForkOk s p := by
        have hpte : ∀ va, pteAt v1 p.pgdir va = pteAt s.vm p.pgdir va := fun va => by
          rw [pteAt, pteAt, h1.mem]
        rw [ForkOk, or_iff_right hj, hlen, CopyuvmOk, CopyuvmOk]
        simp only [hpte]
      simp only [wp_pure, wp_bind, wp_liftVm]
      refine wp_intro (fun r v2 hrun => ?_) fun e hrun => ?_
      swap
      · have hout := wp_error (copyuvm_outcome h1.own hk p.sz) hrun
        exact hok.1 hout
      have hout := wp_ok (copyuvm_outcome h1.own hk p.sz) hrun
      have hany : wp (copyuvm L p.pgdir p.sz) _ (fun _ => True) v1 :=
        copyuvm_any h1.own hc hk fun _ => trivial
      have hg := wp_ok hany hrun
      rw [hok] at hout
      cases r with
      | some d => exact ⟨fun he => (by cases he), fun _ => hout.2 (by simp)⟩
      | none =>
        simp only [wp_bind, wp_liftVm]
        refine wp_post (kfree_spec hg.own (hg.fresh _ hks)) ?_
        rintro _ v3 ⟨hfree, -⟩
        refine ⟨fun _ => ?_, fun he => absurd rfl he⟩
        rw [← hout.1 rfl]
        have hks2 := (hg.fresh _ hks).free
        refine forall_congr' fun f => ?_
        rw [hfree, h1.freelist]
        by_cases hf : f = kstack
        · rw [hf]
          simp [hks2, hks.free]
        · simp [hf]

end

/-! ## `pipealloc` -/

/-- Open files per system (`param.h`). -/
abbrev NFILE : Nat := 100

/-- What an open file is. -/
inductive FdType where
  | none
  /-- A pipe, by the frame it is in. -/
  | pipe (p : Nat)
  | inode
  deriving DecidableEq, Repr

/-- `struct file`, without the fields a pipe does not use. -/
structure FileSlot where
  ref : Nat
  type : FdType
  readable : Bool
  writable : Bool
  deriving DecidableEq, Repr

/-- The open-file table, memory, and of each pipe which of its ends is open. -/
structure Files where
  vm : State
  file : Nat → FileSlot
  readopen : Nat → Bool
  writeopen : Nat → Bool

/-- Why the code for files does not return. -/
inductive FStop where
  | vm (e : Stop)
  | fileclose
  deriving DecidableEq, Repr

/-- Computations on files. -/
abbrev FM := Comp Files FStop

/-- Memory code run for files. -/
def fileVm {α : Type} (m : M α) : FM α := fun x =>
  match m x.vm with
  | .ok (a, v) => .ok (a, { x with vm := v })
  | .error e => .error (.vm e)

/-- Change one slot. -/
def setFile (i : Nat) (f : FileSlot) : FM Unit :=
  Comp.modify fun x => { x with file := update x.file i f }

/-- The first slot without a reference. -/
def filealloc : FM (Option Nat) := do
  match ← Comp.gets fun x => (List.range NFILE).find? fun i => (x.file i).ref = 0 with
  | none => pure none
  | some i => do
    let f ← Comp.gets fun x => x.file i
    setFile i { f with ref := 1 }
    pure (some i)

/-- `pipeclose`, without the wakeups. -/
def pipeclose (L : Layout) (p : Nat) (writable : Bool) : FM Unit := do
  if writable then Comp.modify fun x => { x with writeopen := update x.writeopen p false }
  else Comp.modify fun x => { x with readopen := update x.readopen p false }
  let rest ← Comp.gets fun x => x.readopen p || x.writeopen p
  if rest then pure () else fileVm (kfree L p)

/-- `fileclose`. The `iput` of the last reference to an inode's file takes and gives no frame. -/
def fileclose (L : Layout) (i : Nat) : FM Unit := do
  let f ← Comp.gets fun x => x.file i
  Comp.stopIf (f.ref < 1) .fileclose
  if f.ref - 1 > 0 then setFile i { f with ref := f.ref - 1 }
  else do
    setFile i { f with ref := 0, type := .none }
    match f.type with
    | .pipe p => pipeclose L p f.writable
    | _ => pure ()

/-- What is done with a pointer unless it is null. -/
def ifSet (p : Option Nat) (m : Nat → FM Unit) : FM Unit :=
  match p with
  | some i => m i
  | none => pure ()

/-- The label `bad` of `pipealloc`. -/
def pipeallocBad (L : Layout) (p f0 f1 : Option Nat) : FM (Option (Nat × Nat)) := do
  ifSet p fun p => fileVm (kfree L p)
  ifSet f0 (fileclose L)
  ifSet f1 (fileclose L)
  pure none

/-- Two files for the ends of a new pipe; `none` is the source's `-1`. -/
def pipealloc (L : Layout) : FM (Option (Nat × Nat)) := do
  match ← filealloc with
  | none => pipeallocBad L none none none
  | some f0 =>
    match ← filealloc with
    | none => pipeallocBad L none (some f0) none
    | some f1 =>
      match ← fileVm kalloc with
      | none => pipeallocBad L none (some f0) (some f1)
      | some p => do
        Comp.modify fun x => { x with
          readopen := update x.readopen p true
          writeopen := update x.writeopen p true }
        setFile f0 ⟨1, .pipe p, true, false⟩
        setFile f1 ⟨1, .pipe p, false, true⟩
        pure (some (f0, f1))

/-- When `pipealloc` fails, the same frames are free. -/
def PipeallocLaw (L : Layout) (x : Files) : Prop :=
  ∀ x', pipealloc L x = .ok (none, x') → SameFree x.vm x'.vm

/-- A slot without a reference is of no type: `fileclose` leaves it so. -/
def Idle (x : Files) : Prop := ∀ i, (x.file i).ref = 0 → (x.file i).type = .none

section
variable {L : Layout} {x x' : Files} {E : FStop → Prop} {i : Nat}

/-- Memory code run for files. -/
@[simp] theorem wp_fileVm {α : Type} {m : M α} {Q : α → Files → Prop} :
    wp (fileVm m) Q E x ↔ wp m (fun a v => Q a { x with vm := v }) (fun e => E (.vm e)) x.vm := by
  unfold wp fileVm
  cases m x.vm <;> rfl

/-- A new slot has one reference and no type. -/
theorem filealloc_spec (hidle : Idle x) : wp filealloc (fun r x' => Idle x' ∧ x'.vm = x.vm ∧
      (∀ i, r = some i → (x'.file i).type = .none ∧ (x'.file i).ref ≠ 0) ∧
      ∀ i, (x.file i).ref ≠ 0 → x'.file i = x.file i) E x := by
  unfold filealloc
  simp only [wp_bind, wp_gets]
  cases hf : (List.range NFILE).find? fun i => decide ((x.file i).ref = 0) with
  | none => exact ⟨hidle, rfl, fun i h => (by cases h), fun _ _ => rfl⟩
  | some i =>
    have hzero := List.find?_some hf
    have href : (x.file i).ref = 0 := of_decide_eq_true hzero
    simp only [setFile, wp_bind, wp_gets, wp_modify, wp_pure]
    refine ⟨fun j hj => ?_, trivial, fun j hj => ?_, fun j hj => ?_⟩
    · by_cases hij : j = i
      · subst hij; simp at hj
      · simp only [update_of_ne hij] at hj ⊢
        exact hidle j hj
    · cases hj
      simp [hidle i href]
    · grind

/-- Closing a file of no type frees no frame. -/
theorem fileclose_none (h : (x.file i).type = .none) :
    wp (fileclose L i) (fun _ x' => x'.vm = x.vm ∧
      ∀ j, (x.file j).type = .none → (x'.file j).type = .none) (fun _ => True) x := by
  unfold fileclose
  simp only [wp_bind, wp_gets, wp_stopIf, implies_true, true_and]
  intro _
  have hkeep : ∀ f : FileSlot, f.type = .none → ∀ j, (x.file j).type = .none →
      (update x.file i f j).type = .none := fun f hf j hj => by
    by_cases hij : j = i
    · subst hij; rw [update_self]; exact hf
    · rw [update_of_ne hij]; exact hj
  refine wp_ite (fun _ => ?_) fun _ => ?_
  · simp only [setFile, wp_modify]
    exact ⟨trivial, hkeep _ h⟩
  · simp only [setFile, wp_bind, wp_modify, h, wp_pure]
    exact ⟨trivial, hkeep _ rfl⟩

/-- **`pipealloc` leaks nothing.** Its only frame is the last thing it asks for. -/
theorem pipealloc_law (hidle : Idle x) : PipeallocLaw L x := by
  have hbad : ∀ (f0 f1 : Option Nat) (x' : Files), x'.vm.freelist = x.vm.freelist →
      (∀ i ∈ f0.toList ++ f1.toList, (x'.file i).type = .none) →
      wp (pipeallocBad L none f0 f1) (fun r x'' => r = none → SameFree x.vm x''.vm)
        (fun _ => True) x' := by
    intro f0 f1 x' hvm htype
    have hclose : ∀ (f : Option Nat) (y : Files), (∀ i ∈ f.toList, (y.file i).type = .none) →
        wp (ifSet f (fileclose L)) (fun _ y' => y'.vm = y.vm ∧
          ∀ j, (y.file j).type = .none → (y'.file j).type = .none) (fun _ => True) y := by
      intro f y hf
      cases f with
      | none => exact ⟨rfl, fun _ h => h⟩
      | some i => exact fileclose_none (hf i (by simp))
    unfold pipeallocBad
    simp only [wp_bind, ifSet.eq_2, wp_pure]
    refine wp_post (hclose f0 x' fun i hi => htype i (List.mem_append_left _ hi)) ?_
    rintro _ y ⟨hy, hkeep⟩
    refine wp_post (hclose f1 y fun i hi => hkeep i (htype i (List.mem_append_right _ hi))) ?_
    rintro _ y' ⟨hy', -⟩ - f
    rw [hy', hy, hvm]
  have hspec : wp (pipealloc L) (fun r x' => r = none → SameFree x.vm x'.vm) (fun _ => True) x := by
    unfold pipealloc
    refine wp_seq (filealloc_spec hidle) ?_
    rintro r x1 ⟨hidle1, hvm1, hnew1, -⟩
    cases r with
    | none => exact hbad none none x1 (by rw [hvm1]) (by simp)
    | some f0 =>
      obtain ⟨ht1, href1⟩ := hnew1 f0 rfl
      refine wp_seq (filealloc_spec hidle1) ?_
      rintro r x2 ⟨-, hvm2, hnew2, hkeep2⟩
      have ht2 : (x2.file f0).type = .none := by rw [hkeep2 f0 href1, ht1]
      cases r with
      | none => exact hbad (some f0) none x2 (by rw [hvm2, hvm1]) (by simpa using ht2)
      | some f1 =>
        simp only [wp_bind, wp_fileVm]
        refine wp_post kalloc_raw ?_
        rintro r v ⟨-, -, hnone⟩
        cases r with
        | none => grind
        | some p =>
          exact fun he => by cases he
  intro x' hrun
  have hsame := wp_ok hspec hrun rfl
  exact hsame

end

end Dixv6.Vm
