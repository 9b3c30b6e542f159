import Dixv6.Vm.Sbrk

/-!
# Page faults

What `trap` does with a page fault of a process, for every faulting address, size and free list.
It looks neither at the kind of the access nor at `proc->sz`, and it drops the results of `kalloc`
and of `mappages`. `PgfltLaw` says what containing the fault means, and `PgfltOk` when `trap` does
so; `pageFault_contained` says that the two agree.
-/

namespace Dixv6.Vm

open Lib Function

/-- A page fault in user mode, from `T_PGFLT` to the end of `trap`: whether the process exits,
which it does only if it had been killed before. -/
def trapPgflt (killed : Bool) (pgdir cr2 : Nat) : M Bool := do
  pgflt pgdir cr2
  pure killed

/-- The entry gives the user access. -/
def UserPage (pte : Nat) : Prop := present pte = true ∧ user pte = true

/-- One fresh zeroed page was mapped at `cr2`, whose page lies below the size and was absent, and
no other entry changed. -/
structure MapsFresh (s : State) (pgdir sz cr2 : Nat) (s' : State) : Prop where
  below : PGROUNDDOWN cr2 < sz
  absent : ¬ present (pteAt s pgdir cr2) = true
  frame : ∃ f ∈ s.freelist, pteAt s' pgdir cr2 = (f * PGSIZE ||| (PTE_W ||| PTE_U) ||| PTE_P) ∧
    s'.mem f = fun _ => 0
  other : ∀ va < 2 ^ 32, va / PGSIZE ≠ cr2 / PGSIZE → pteAt s' pgdir va = pteAt s pgdir va

/-- The law: `trap` returns; it has mapped one fresh page or the process exits; no page at or
above the size or the kernel became accessible to the user; and nothing is left that a later
`allocuvm` (a page above the size) or `copyuvm` (a missing page below it) would stop on. -/
def PgfltLaw (s : State) (pgdir sz : Nat) (killed : Bool) (cr2 : Nat) : Prop :=
  ∃ exits s', trapPgflt killed pgdir cr2 s = .ok (exits, s') ∧
    (exits = true ∨ MapsFresh s pgdir sz cr2 s') ∧
    (∀ va < 2 ^ 32, sz ≤ PGROUNDDOWN va ∨ KERNBASE ≤ va →
      UserPage (pteAt s' pgdir va) → UserPage (pteAt s pgdir va)) ∧
    (∀ va < KERNBASE, sz ≤ PGROUNDDOWN va →
      present (pteAt s' pgdir va) = true → present (pteAt s pgdir va) = true) ∧
    (exits = false → PGROUNDDOWN cr2 < sz → present (pteAt s' pgdir cr2) = true)

/-- When `trap` contains a fault: the page is absent; if there is a page table for it or two free
frames, so that an entry is written, it lies below the size and the kernel; if there is no frame
for the page and for a table it needs, the process had been killed before; and with no frame at
all, page 0, which the handler then zeroes, is present. -/
def PgfltOk (s : State) (pgdir sz : Nat) (killed : Bool) (cr2 : Nat) : Prop :=
  ¬ present (pteAt s pgdir cr2) = true ∧
  (present (s.mem pgdir (PDX cr2)) = true ∨ 2 ≤ s.freelist.length →
    PGROUNDDOWN cr2 < sz ∧ cr2 < KERNBASE) ∧
  (s.freelist.length = 0 ∨
    (s.freelist.length = 1 ∧ ¬ present (s.mem pgdir (PDX cr2)) = true) → killed = true) ∧
  (s.freelist.length = 0 → present (pteAt s pgdir 0) = true)

section
variable {L : Layout} {root : Nat → Option Nat} {s s' : State} {k pgdir sz cr2 f : Nat}
  {killed : Bool}

theorem PDX_down (va : Nat) : PDX (PGROUNDDOWN va) = PDX va := by
  simp only [PDX, PGROUNDDOWN, PGSIZE]; omega

theorem PTX_down (va : Nat) : PTX (PGROUNDDOWN va) = PTX va := by
  grind [PTX, PGROUNDDOWN]

theorem pteAt_down (va : Nat) : pteAt s pgdir (PGROUNDDOWN va) = pteAt s pgdir va := by
  rw [pteAt, pteAt, PDX_down, PTX_down]

/-- **The handler with a free frame** zeroes it and maps it if there is a table, or a second frame
for one. It stops exactly if the page is present. -/
theorem pgflt_frame (hO : Own L root s) (hk : root k = some pgdir) (hcr2 : cr2 < 2 ^ 32)
    {l : List Nat} (hl : s.freelist = f :: l) :
    wp (pgflt pgdir cr2) (fun _ s' => ¬ present (pteAt s pgdir cr2) = true ∧
      s'.mem f = (fun _ => 0) ∧
      ∀ va, pteAt s' pgdir va =
        if (present (s.mem pgdir (PDX cr2)) = true ∨ l ≠ []) ∧ PDX va = PDX cr2 ∧ PTX va = PTX cr2
        then f * PGSIZE ||| (PTE_W ||| PTE_U) ||| PTE_P else pteAt s pgdir va)
      (fun _ => present (pteAt s pgdir cr2) = true) s := by
  have hdown : PGROUNDDOWN cr2 % PGSIZE = 0 ∧ PGROUNDDOWN cr2 < 2 ^ 32 := by
    grind [PGROUNDDOWN]
  unfold pgflt
  refine wp_seq (kalloc_spec hO) fun r s1 h1 => ?_
  have hfl := h1.freelist
  rw [hl] at hfl
  cases r with
  | none => rw [h1.empty rfl] at hl; cases hl
  | some f' =>
    obtain ⟨rfl, rfl⟩ : f = f' ∧ l = s1.freelist := List.cons.inj hfl
    have hf := h1.fresh f rfl
    simp only [setFrame, wp_bind, wp_modify]
    generalize hs2 : ({ s1 with mem := _ } : State) = s2
    have hmem : s2.mem = update s1.mem f fun _ => 0 := by rw [← hs2]
    have hfree : s2.freelist = s1.freelist := by rw [← hs2]
    have hpte := pteAt_update hk hmem fun k π _ => hf.node k π
    have hn : ∀ k π, node root s2 k π = node root s1 k π :=
      (h1.own.put s2 ⟨_, hmem⟩ hfree fun k π _ => hf.node k π).1
    have hzero : wp (mappages pgdir (PGROUNDDOWN cr2) PGSIZE (f * PGSIZE) (PTE_W ||| PTE_U))
        (fun _ s3 => s3.mem f = s2.mem f) (fun _ => True) s2 := by
      rw [mappages_page hdown.1 hdown.2]
      exact mappage_mem hk (hfree ▸ hf.free) fun π _ => by rw [hn]; exact hf.node k π
    have hmap := h1.map_page (E := fun e => present (pteAt s pgdir cr2) = true) hk hmem hfree
      (show PTE_W ||| PTE_U < PGSIZE by decide) hdown.1 hdown.2 (fun h => pteAt_down cr2 ▸ h)
    refine wp_intro (fun b s3 hrun => ?_) fun e hrun => (wp_error hmap hrun :)
    have h3 := (wp_ok hmap hrun).2
    have hsame : ∀ va, pteAt s2 pgdir va = pteAt s pgdir va := fun va => by
      rw [hpte.2, pteAt, pteAt, h1.mem]
    refine ⟨?_, ?_, fun va => ?_⟩
    · have := h3.absent
      rwa [hsame, pteAt_down] at this
    · rw [wp_ok hzero hrun, hmem, update_self]
    · have hb := h3.result
      rw [hfree, hpte.1, h1.mem, PDX_down] at hb
      simp only [h3.pte, hsame, PDX_down, PTX_down, hb]

/-- **The handler without a free frame** zeroes page 0 of the process and writes an entry that
names no memory. -/
theorem pgflt_empty (hO : Own L root s) (hk : root k = some pgdir) (hcr2 : cr2 < 2 ^ 32)
    (hl : s.freelist = []) : wp (pgflt pgdir cr2) (fun _ s' => present (pteAt s pgdir 0) = true ∧
      ¬ present (pteAt s pgdir cr2) = true ∧
      ∀ va, pteAt s' pgdir va =
        if present (s.mem pgdir (PDX cr2)) = true ∧ PDX va = PDX cr2 ∧ PTX va = PTX cr2
        then 0x80000007 else pteAt s pgdir va)
      (fun _ => ¬ present (pteAt s pgdir 0) = true ∨ present (pteAt s pgdir cr2) = true) s := by
  have hdown : PGROUNDDOWN cr2 % PGSIZE = 0 ∧ PGROUNDDOWN cr2 < 2 ^ 32 := by
    grind [PGROUNDDOWN]
  have hw : uint (0 - KERNBASE) ||| (PTE_W ||| PTE_U) ||| PTE_P = 0x80000007 := by decide
  have hbogus : ownedFrame (PDX (PGROUNDDOWN cr2))
      (uint (0 - KERNBASE) ||| (PTE_W ||| PTE_U) ||| PTE_P) = none := by
    rw [hw, ownedFrame, if_neg]
    rintro ⟨-, -, h⟩
    revert h; decide
  unfold pgflt
  refine wp_seq (kalloc_spec hO) fun r s1 h1 => ?_
  have hfl := h1.freelist
  rw [hl] at hfl
  cases r with
  | some f => cases hfl
  | none =>
    simp only [zeroNull, setFrame, wp_bind, wp_gets, wp_stopIf, wp_modify]
    have hpte1 : ∀ va, pteAt s1 pgdir va = pteAt s pgdir va := fun va => by
      rw [pteAt, pteAt, h1.mem]
    refine ⟨fun h => .inl (by rwa [hpte1] at h), fun h => ?_⟩
    have hp : present (pteAt s1 pgdir 0) = true := by simpa using h
    generalize hs2 : ({ s1 with mem := _ } : State) = s2
    have hleaf := user_frame_leaf h1.own hk hp (.inl (by decide))
    have hmem : s2.mem = update s1.mem (pteFrame (pteAt s1 pgdir 0)) fun _ => 0 := by
      rw [← hs2]
    have hfree : s2.freelist = s1.freelist := by rw [← hs2]
    have hpte := pteAt_update hk hmem hleaf
    have hO2 := (h1.own.put s2 ⟨_, hmem⟩ hfree hleaf).2
    rw [mappages_page hdown.1 hdown.2]
    refine wp_post (mappage_spec hO2 hk (by rw [hbogus]; simp) fun h => .inr ?_) fun b s3 h3 => ?_
    · rwa [hpte.2, hpte1, pteAt_down] at h
    · refine ⟨by rwa [hpte1] at hp, ?_, fun va => ?_⟩
      · have := h3.absent
        rwa [hpte.2, hpte1, pteAt_down] at this
      · have hnil : s1.freelist = [] := by simpa using hfl.symm
        have hb := h3.result
        rw [hfree, hnil, hpte.1, h1.mem, PDX_down] at hb
        rw [hw] at h3
        simp [h3.pte, hpte.2, hpte1, PDX_down, PTX_down, hb]

/-- The law, from what the run leaves: `w` is entered for `cr2` if `b`. -/
theorem pgfltLaw_of_entry {w : Nat} {b : Prop} [Decidable b] (hcr2 : cr2 < 2 ^ 32)
    (hrun : pgflt pgdir cr2 s = .ok ((), s')) (habs : ¬ present (pteAt s pgdir cr2) = true)
    (hw : UserPage w) (hpte : ∀ va, pteAt s' pgdir va =
      if b ∧ PDX va = PDX cr2 ∧ PTX va = PTX cr2 then w else pteAt s pgdir va) :
    PgfltLaw s pgdir sz killed cr2 ↔ (b → PGROUNDDOWN cr2 < sz ∧ cr2 < KERNBASE) ∧
      (killed = true ∨ (b ∧ ∃ f ∈ s.freelist, w = (f * PGSIZE ||| (PTE_W ||| PTE_U) ||| PTE_P) ∧
        s'.mem f = fun _ => 0)) := by
  have hself : pteAt s' pgdir cr2 = if b then w else pteAt s pgdir cr2 := by simp [hpte cr2]
  have htrap : trapPgflt killed pgdir cr2 s = .ok (killed, s') := by
    simp only [trapPgflt, bind, Comp.bind, hrun]
    rfl
  -- away from the faulting page nothing changed
  have hother : ∀ va < 2 ^ 32, ¬ (b ∧ va / PGSIZE = cr2 / PGSIZE) →
      pteAt s' pgdir va = pteAt s pgdir va := fun va hva h => by
    rw [← same_page hva hcr2] at h
    rw [hpte, if_neg h]
  constructor
  · rintro ⟨exits, s1, h1, hmap, habove, -, -⟩
    obtain ⟨rfl, rfl⟩ : killed = exits ∧ s' = s1 := by
      rw [htrap] at h1
      simpa using h1
    refine ⟨fun hb => ?_, hmap.imp_right fun h => ?_⟩
    · by_contra hnot
      refine habs (habove cr2 hcr2 ?_ ?_).1
      · omega
      · rw [hself, if_pos hb]; exact hw
    · by_cases hb : b
      · obtain ⟨f, hf, he, hz⟩ := h.frame
        rw [hself, if_pos hb] at he
        exact ⟨hb, f, hf, he, hz⟩
      · obtain ⟨f, -, he, -⟩ := h.frame
        rw [hself, if_neg hb] at he
        exact absurd (by rw [he]; exact present_entry _ _) habs
  · rintro ⟨hlow, hmap⟩
    have hkeep : ∀ va < 2 ^ 32, sz ≤ PGROUNDDOWN va ∨ KERNBASE ≤ va →
        pteAt s' pgdir va = pteAt s pgdir va := by
      intro va hva habove
      refine hother va hva fun h => ?_
      grind [PGROUNDDOWN]
    refine ⟨killed, s', htrap, hmap.imp_right fun h => ?_, ?_, ?_, ?_⟩
    · obtain ⟨hb, f, hf, rfl, hz⟩ := h
      exact ⟨(hlow hb).1, habs, ⟨f, hf, by rw [hself, if_pos hb], hz⟩,
        fun va hva hne => hother va hva fun e => hne e.2⟩
    · grind
    · grind
    · rintro rfl -
      obtain h | ⟨hb, -⟩ := hmap
      · cases h
      · rw [hself, if_pos hb]
        exact hw.1

/-- A handler that stops breaks the law. -/
theorem not_pgfltLaw_of_error {e : Stop} (hrun : pgflt pgdir cr2 s = .error e) :
    ¬ PgfltLaw s pgdir sz killed cr2 := by
  rintro ⟨exits, s1, h1, -⟩
  simp only [trapPgflt, bind, Comp.bind, hrun] at h1
  cases h1

theorem userPage_entry (f : Nat) : UserPage (f * PGSIZE ||| (PTE_W ||| PTE_U) ||| PTE_P) :=
  ⟨present_entry _ _, by rw [user_entry]; rfl⟩

end

/-- **`trap` contains a page fault exactly under `PgfltOk`**: for every directory of a forest that
the allocator's invariant describes, every size, every faulting address and every free list. -/
theorem pageFault_contained (L : Layout) (root : Nat → Option Nat) (s : State) (k pgdir sz : Nat)
    (killed : Bool) (cr2 : UInt32) (hO : Own L root s) (hk : root k = some pgdir) :
    PgfltLaw s pgdir sz killed cr2.toNat ↔ PgfltOk s pgdir sz killed cr2.toNat := by
  have hcr2 := UInt32.toNat_lt cr2
  generalize cr2.toNat = cr2 at *
  cases hl : s.freelist with
  | nil =>
    have hok : PgfltOk s pgdir sz killed cr2 ↔ present (pteAt s pgdir 0) = true ∧
        ¬ present (pteAt s pgdir cr2) = true ∧
        (present (s.mem pgdir (PDX cr2)) = true → PGROUNDDOWN cr2 < sz ∧ cr2 < KERNBASE) ∧
        killed = true := by
      simp only [PgfltOk, hl]
      simp
      tauto
    rw [hok]
    cases hrun : pgflt pgdir cr2 s with
    | error e =>
      have herr := wp_error (pgflt_empty hO hk hcr2 hl) hrun
      exact iff_of_false (not_pgfltLaw_of_error hrun) fun h => herr.elim (absurd h.1) (h.2.1)
    | ok r =>
      obtain ⟨h0, habs, hpte⟩ := wp_ok (pgflt_empty hO hk hcr2 hl) hrun
      rw [pgfltLaw_of_entry hcr2 hrun habs ⟨by decide, by decide⟩ hpte, hl]
      simp [h0, habs]
  | cons f l =>
    have hok : PgfltOk s pgdir sz killed cr2 ↔ ¬ present (pteAt s pgdir cr2) = true ∧
        (present (s.mem pgdir (PDX cr2)) = true ∨ l ≠ [] →
          PGROUNDDOWN cr2 < sz ∧ cr2 < KERNBASE) ∧
        (killed = true ∨ present (s.mem pgdir (PDX cr2)) = true ∨ l ≠ []) := by
      have hlen : 2 ≤ (f :: l).length ↔ l ≠ [] := by
        cases l <;> simp
      have hone : (f :: l).length = 1 ↔ ¬ l ≠ [] := by
        cases l <;> simp
      have hzero : (f :: l).length ≠ 0 := by simp
      simp only [PgfltOk, hl, hlen, hone, hzero]
      tauto
    rw [hok]
    cases hrun : pgflt pgdir cr2 s with
    | error e =>
      have herr := wp_error (pgflt_frame hO hk hcr2 hl) hrun
      exact iff_of_false (not_pgfltLaw_of_error hrun) fun h => h.1 herr
    | ok r =>
      obtain ⟨habs, hz, hpte⟩ := wp_ok (pgflt_frame hO hk hcr2 hl) hrun
      rw [pgfltLaw_of_entry hcr2 hrun habs (userPage_entry f) hpte, hl]
      have hf : ∃ g ∈ f :: l, (f * PGSIZE ||| (PTE_W ||| PTE_U) ||| PTE_P) =
          (g * PGSIZE ||| (PTE_W ||| PTE_U) ||| PTE_P) ∧ r.2.mem g = fun _ => 0 :=
        ⟨f, List.mem_cons_self, rfl, hz⟩
      simp only [hf, and_true]
      exact (and_iff_right habs).symm

/-- The theorem at the example, for a fault in the page above the process's only one. -/
theorem pageFault_contained_demo :
    PgfltLaw demo.vm 400 100 false 0x1000 ↔ PgfltOk demo.vm 400 100 false 0x1000 :=
  pageFault_contained demoLayout (rootOf demo.procs) demo.vm 0 400 100 false 0x1000 demo_wf.own rfl

/-- A process of 100 bytes that reads at 0x5000 is given a page there. -/
theorem pageFault_maps_above_size : Own demoLayout (rootOf demo.procs) demo.vm ∧
    rootOf demo.procs 0 = some 400 ∧ ¬ PgfltLaw demo.vm 400 100 false 0x5000 := by
  refine ⟨demo_wf.own, rfl, ?_⟩
  rintro ⟨exits, s', h, -, habove, -⟩
  obtain ⟨s₁, hrun, hpte⟩ : ∃ s₁, trapPgflt false 400 0x5000 demo.vm = .ok (false, s₁) ∧
      UserPage (pteAt s₁ 400 0x5000) := ⟨_, rfl, by decide, by decide⟩
  obtain ⟨rfl, rfl⟩ : false = exits ∧ s₁ = s' := by
    rw [hrun] at h
    simpa using h
  have hbefore := habove 0x5000 (by decide) (.inl (by decide)) hpte
  revert hbefore
  unfold UserPage
  decide

end Dixv6.Vm
