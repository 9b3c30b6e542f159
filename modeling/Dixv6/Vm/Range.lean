import Dixv6.Vm.Grow

/-!
# The pages of a range

What `deallocuvm` and `allocuvm` are for: the one removes the pages of a range and frees their frames,
the other puts a new page on every place of a range or on none. Both are said here about the entries
of the page directory and the free list alone (`Removed`, `Allocated`), with the exact condition under
which they hold.

`deallocuvm_exact`: the walk steps over a whole page table's worth of addresses when a table is
missing, from wherever it stands; so it misses the first pages of the next table when it does not
start at one. `allocuvm_exact`: the result of `mappages` is not looked at, so a missing table goes
unnoticed if it is that of the last page.
-/

namespace Dixv6.Vm

open Lib Function

/-! ## Removing pages -/

/-- The frame is mapped in `[lo, hi)`. -/
def MappedIn (s : State) (pgdir lo hi f : Nat) : Prop :=
  ∃ va, lo ≤ va ∧ va < hi ∧ present (pteAt s pgdir va) = true ∧ pteFrame (pteAt s pgdir va) = f

/-- The address is not on a page of `[lo, hi)`, where `lo` is the start of a page. -/
def Outside (lo hi va : Nat) : Prop := va < lo ∨ hi ≤ va / PGSIZE * PGSIZE

/-- `deallocuvm` returns, no page of the range is present any more, each of their frames has been
freed once and no other frame, and all other entries are as they were. -/
def Removed (L : Layout) (s : State) (pgdir oldsz newsz : Nat) : Prop :=
  ∃ s', deallocuvm L pgdir oldsz newsz s = .ok (newsz, s') ∧
    (∀ va, PGROUNDUP newsz ≤ va → va < oldsz → ¬ present (pteAt s' pgdir va) = true) ∧
    (∀ f, MappedIn s pgdir (PGROUNDUP newsz) oldsz f →
      s'.freelist.count f = s.freelist.count f + 1) ∧
    (∀ f, ¬ MappedIn s pgdir (PGROUNDUP newsz) oldsz f → s'.freelist.count f = s.freelist.count f) ∧
    ∀ va < 2 ^ 32, Outside (PGROUNDUP newsz) oldsz va → pteAt s' pgdir va = pteAt s pgdir va

/-- Every page present in the range is in a frame of memory, and the walk comes to it. -/
def RemovedOk (s : State) (pgdir oldsz newsz : Nat) : Prop :=
  ∀ va, PGROUNDUP newsz ≤ va → va < oldsz → present (pteAt s pgdir va) = true →
    ¬ Skipped s pgdir (PGROUNDUP newsz) va ∧ pteFrame (pteAt s pgdir va) < NFRAMES

variable {va i : Nat}

section
variable {L : Layout} {root : Nat → Option Nat} {s s' : State} {k pgdir lo hi f : Nat}

/-- The frame of a page below `KERNBASE` is part of the address space. -/
theorem node_of_present (hk : root k = some pgdir) (hva : va < KERNBASE)
    (hp : present (pteAt s pgdir va) = true) (hf : pteFrame (pteAt s pgdir va) < NFRAMES) :
    node root s k [PTX va, PDX va] = some (pteFrame (pteAt s pgdir va)) := by
  have hlow : PDX va < 512 := by grind [PDX]
  rw [node_pteAt hk, ownedFrame, if_pos ⟨hp, .inl hlow, hf⟩]

/-- One frame is one page. -/
theorem Own.same_page {va' : Nat} (hO : Own L root s) (hk : root k = some pgdir)
    (hva : va < KERNBASE) (hva' : va' < KERNBASE) (hp : present (pteAt s pgdir va) = true)
    (hp' : present (pteAt s pgdir va') = true) (hf : pteFrame (pteAt s pgdir va) < NFRAMES)
    (he : pteFrame (pteAt s pgdir va') = pteFrame (pteAt s pgdir va)) : va' / PGSIZE = va / PGSIZE := by
  have h := (hO.distinct _ _ _ _ _ (node_of_present hk hva' hp' (he ▸ hf))
    (he ▸ node_of_present hk hva hp hf)).2
  simp only [List.cons.injEq, and_true] at h
  simp only [PDX, PTX, KERNBASE, PGSIZE] at *
  omega

/-- The walk comes to a whole page or to none of it. -/
theorem skipped_page (va : Nat) :
    Skipped s pgdir lo (va / PGSIZE * PGSIZE) ↔ Skipped s pgdir lo va := by
  have hpage : PDX (va / PGSIZE * PGSIZE) = PDX va ∧ PTX (va / PGSIZE * PGSIZE) = PTX va := by
    simp only [PDX, PTX, PGSIZE]
    omega
  rw [Skipped, hpage.1, hpage.2]
  rfl

theorem pteFrame_of_owned {w : Nat} (h : ownedFrame i w = some f) : pteFrame w = f := by
  rw [ownedFrame] at h
  split at h
  · exact Option.some.inj h
  · cases h

/-- What is free after the pages that the walk comes to are gone. -/
theorem Emptied.free_iff (h : Emptied L root k pgdir lo hi s s') (hO : Own L root s)
    (hk : root k = some pgdir) (hlo : lo % PGSIZE = 0) (hhi : hi ≤ KERNBASE) (f : Nat) :
    f ∈ s'.freelist ↔ f ∈ s.freelist ∨ Named s pgdir lo hi f := by
  constructor
  · intro hf
    have htotal : Total root k s [] f := h.total [] ▸ .inl hf
    rcases htotal with hf' | ⟨π, hn⟩ | hf'
    · exact .inl hf'
    · refine .inr ?_
      by_contra hno
      refine h.own.notfree k π f (h.node_kept hk hn fun va hva hπ hin => hno ?_) hf
      rw [hπ, node_pteAt hk] at hn
      refine ⟨va / PGSIZE * PGSIZE, ?_, hin.2.1, ?_, ?_, ?_⟩
      · lia
      · rw [skipped_page]
        exact hin.2.2
      · rw [pteAt_page]
        exact present_of_owned hn
      · rw [pteAt_page]
        exact pteFrame_of_owned hn
    · cases hf'
  · rintro (hf | ⟨va, h1, h2, h3, h4, h5⟩)
    · have htotal : Total root k s' [] f := h.total [] ▸ .inl hf
      rcases htotal with hf' | ⟨π, hn⟩ | hf'
      · exact hf'
      · exact absurd hf (hO.notfree k π f (h.node_sub hk hn))
      · cases hf'
    · have hn := node_of_present hk (by lia) h4 (h.sound va h1 h2 h3 h4)
      have htotal : Total root k s' [] f := h.total [] ▸ .inr (.inl ⟨_, h5 ▸ hn⟩)
      rcases htotal with hf' | ⟨π, hn'⟩ | hf'
      · exact hf'
      · -- it would still be where it was
        have hπ := (hO.distinct _ _ _ _ _ (h.node_sub hk hn') (h5 ▸ hn)).2
        rw [hπ, node_pteAt hk] at hn'
        exact absurd (present_of_owned hn') (h.gone va h1 h2 h3)
      · cases hf'

/-- **`deallocuvm` removes exactly the range** if and only if it comes to every page of it. -/
theorem deallocuvm_exact (hO : Own L root s) (hk : root k = some pgdir) {oldsz newsz : Nat}
    (hlt : newsz < oldsz) (hsz : oldsz ≤ KERNBASE) :
    Removed L s pgdir oldsz newsz ↔ RemovedOk s pgdir oldsz newsz := by
  have hlo : PGROUNDUP newsz % PGSIZE = 0 := by grind [PGROUNDUP]
  constructor
  · rintro ⟨s', hrun, hgone, -⟩ va h1 h2 hp
    have hwp := deallocuvm_ledger (E := fun _ => True) hO hk hsz hlt (.inl trivial)
    have h := wp_ok hwp hrun
    have hva : va < 2 ^ 32 := by lia
    have hcome : ¬ Skipped s pgdir (PGROUNDUP newsz) va := fun hskip => by
      rcases h.kept va hva with he | ⟨-, -, hno, -⟩
      · exact hgone va h1 h2 (he ▸ hp)
      · exact hno hskip
    exact ⟨hcome, h.sound va h1 h2 hcome hp⟩
  · intro hok
    have hsound : Sound s pgdir (PGROUNDUP newsz) oldsz := fun va h1 h2 _ hp => (hok va h1 h2 hp).2
    obtain ⟨r, s', hrun, rfl, h, -⟩ := wp_total (deallocuvm_pages hO hk hsz hlt (.inr hsound))
    have hnamed : ∀ f, Named s pgdir (PGROUNDUP r) oldsz f ↔ MappedIn s pgdir (PGROUNDUP r) oldsz f :=
      fun f => by
        constructor
        · rintro ⟨va, h1, h2, -, h4, h5⟩
          exact ⟨va, h1, h2, h4, h5⟩
        · rintro ⟨va, h1, h2, h4, h5⟩
          exact ⟨va, h1, h2, (hok va h1 h2 h4).1, h4, h5⟩
    have hfree : ∀ f, f ∈ s'.freelist ↔ f ∈ s.freelist ∨ MappedIn s pgdir (PGROUNDUP r) oldsz f :=
      fun f => (h.free_iff hO hk hlo hsz f).trans (or_congr_right (hnamed f))
    refine ⟨s', hrun, fun va h1 h2 hp => ?_, fun f hf => ?_, fun f hf => ?_, fun va hva hout => ?_⟩
    · by_cases hp₀ : present (pteAt s pgdir va) = true
      · exact h.gone va h1 h2 (hok va h1 h2 hp₀).1 hp
      · rcases h.kept va (by lia) with he | ⟨-, -, -, he⟩
        · exact hp₀ (he ▸ hp)
        · rw [he] at hp
          exact absurd hp (by decide)
    · have hnot : f ∉ s.freelist := by
        obtain ⟨va, h1, h2, h4, h5⟩ := hf
        have hn := node_of_present hk (h2.trans_le hsz) h4 (hok va h1 h2 h4).2
        exact h5 ▸ hO.notfree _ _ _ hn
      rw [h.own.nodup.count, hO.nodup.count, if_pos ((hfree f).2 (.inr hf)),
        if_neg hnot]
    · have hsame : f ∈ s'.freelist ↔ f ∈ s.freelist := (hfree f).trans (or_iff_left hf)
      rw [h.own.nodup.count, hO.nodup.count]
      simp only [hsame]
    · rcases h.kept va hva with he | ⟨h1, h2, -⟩
      · exact he
      · rcases hout with hout | hout <;> omega

end

/-- A small address space: the directory is in frame 400, page table `i` in frame 401, and its first
page in frame 402. -/
def small (i : Nat) (freelist : List Nat) : State where
  mem := update
    (update (fun _ _ => 0) 400 (update (fun _ => 0) i (401 * 4096 + 7)))
    401 (update (fun _ => 0) 0 (402 * 4096 + 7))
  freelist

/-- One process. -/
def smallRoot (k : Nat) : Option Nat := if k = 0 then some 400 else none

theorem small_pteAt (i : Nat) (l : List Nat) (va : Nat) : pteAt (small i l) 400 va =
    if PDX va = i ∧ PTX va = 0 then 402 * 4096 + 7 else 0 := by
  have hdir : (small i l).mem 400 (PDX va) = if PDX va = i then 401 * 4096 + 7 else 0 := by
    by_cases hi : PDX va = i <;> simp [small, hi]
  have htab : (small i l).mem 401 (PTX va) = if PTX va = 0 then 402 * 4096 + 7 else 0 := by
    by_cases hj : PTX va = 0 <;> simp [small, hj]
  have hframe : pteFrame (401 * 4096 + 7) = 401 := rfl
  rw [pteAt, hdir]
  by_cases hi : PDX va = i
  · rw [if_pos hi, hframe, htab, if_pos (by decide)]
    by_cases hj : PTX va = 0
    · rw [if_pos hj, if_pos ⟨hi, hj⟩]
    · rw [if_neg hj, if_neg fun h => hj h.2]
  · rw [if_neg hi, if_neg (by decide), if_neg fun h => hi h.1]

theorem small_node {l : List Nat} {k : Nat} {π : List Nat} {f : Nat}
    (h : node smallRoot (small i l) k π = some f) :
    k = 0 ∧ ((π = [] ∧ f = 400) ∨ (π = [i] ∧ f = 401) ∨ (π = [0, i] ∧ f = 402)) := by
  have hroot : k = 0 := by
    by_contra hk
    rw [node, Shape.node_none_of_root (by simp [smallRoot, hk])] at h
    cases h
  subst hroot
  refine ⟨rfl, ?_⟩
  have hk : smallRoot 0 = some 400 := rfl
  rcases node_cases hk h with ⟨rfl, rfl⟩ | ⟨j, hj, rfl, hp, rfl⟩ | ⟨va, hva, rfl, hown⟩
  · exact .inl ⟨rfl, rfl⟩
  · have hdir : (small i l).mem 400 j = if j = i then 401 * 4096 + 7 else 0 := by
      by_cases hi : j = i <;> simp [small, hi]
    rw [hdir] at hp ⊢
    split at hp
    · next hi =>
      rw [if_pos hi]
      exact .inr (.inl ⟨by rw [hi], rfl⟩)
    · cases hp
  · rw [small_pteAt] at hown
    split at hown
    · next hc =>
      rw [hc.1, hc.2]
      exact .inr (.inr ⟨rfl, (pteFrame_of_owned hown).symm⟩)
    · exact absurd (present_of_owned hown) (by decide)

theorem small_own {l : List Nat} (hl : l.Nodup)
    (hfree : ∀ f ∈ l, 403 ≤ f ∧ f < NFRAMES) : Own demoLayout smallRoot (small i l) where
  nodup := hl
  free f hf := ⟨(by decide : 400 ≤ 403).trans (hfree f hf).1, (hfree f hf).2⟩
  distinct k π k' π' f h h' := by
    obtain ⟨hk, hπ⟩ := small_node h
    obtain ⟨hk', hπ'⟩ := small_node h'
    refine ⟨hk.trans hk'.symm, ?_⟩
    rcases hπ with ⟨hπ, rfl⟩ | ⟨hπ, rfl⟩ | ⟨hπ, rfl⟩ <;> simpa [hπ, eq_comm] using hπ'
  notfree k π f h hf := by
    have := (hfree f hf).1
    obtain ⟨-, ⟨-, rfl⟩ | ⟨-, rfl⟩ | ⟨-, rfl⟩⟩ := small_node h <;> omega
  valid k π f h := by
    obtain ⟨-, ⟨-, rfl⟩ | ⟨-, rfl⟩ | ⟨-, rfl⟩⟩ := small_node h <;> decide

/-- The first page table is missing, and the first page of the second is passed over. -/
theorem deallocuvm_passes_over : Own demoLayout smallRoot (small 1 []) ∧ smallRoot 0 = some 400 ∧
    ¬ Removed demoLayout (small 1 []) 400 0x400001 1 := by
  refine ⟨small_own List.nodup_nil (fun f hf => absurd hf List.not_mem_nil), rfl, ?_⟩
  rintro ⟨s', hrun, hgone, -⟩
  have hsame : deallocuvm demoLayout 400 0x400001 1 (small 1 []) = .ok (1, small 1 []) := rfl
  rw [hsame] at hrun
  cases hrun
  exact hgone 0x400000 (by decide) (by decide) (by rw [small_pteAt]; decide)

/-- Where the first page table is there, nothing is missed. -/
theorem deallocuvm_exact_small : Removed demoLayout (small 0 []) 400 100 0 := by
  refine (deallocuvm_exact (k := 0) (small_own List.nodup_nil fun f hf => absurd hf List.not_mem_nil)
    rfl (by decide) (by decide)).2 fun va h1 h2 hp => ⟨not_skipped (.inr rfl), ?_⟩
  rw [small_pteAt]
  split <;> decide

/-! ## Adding pages -/

/-- The page of `va` is new: a writable user page of zeroes, in a frame that was free and that is the
frame of no other user page. -/
structure NewPage (s : State) (pgdir va : Nat) (s' : State) : Prop where
  present : present (pteAt s' pgdir va) = true
  writable : writable (pteAt s' pgdir va) = true
  user : user (pteAt s' pgdir va) = true
  zero : ∀ i, s'.mem (pteFrame (pteAt s' pgdir va)) i = 0
  free : pteFrame (pteAt s' pgdir va) ∈ s.freelist
  alone : ∀ va' < KERNBASE, Vm.present (pteAt s' pgdir va') = true →
    pteFrame (pteAt s' pgdir va') = pteFrame (pteAt s' pgdir va) → va' / PGSIZE = va / PGSIZE

/-- `allocuvm` returns the new size with a new page on every place of the range, or 0 with none; all
other entries are as they were. -/
def Allocated (L : Layout) (s : State) (pgdir oldsz newsz : Nat) : Prop :=
  ∃ r s', allocuvm L pgdir oldsz newsz s = .ok (r, s') ∧ (r = newsz ∨ r = 0) ∧
    (r ≠ 0 → ∀ va, PGROUNDUP oldsz ≤ va → va < newsz → NewPage s pgdir va s') ∧
    (r = 0 → ∀ va, PGROUNDUP oldsz ≤ va → va < newsz → ¬ present (pteAt s' pgdir va) = true) ∧
    ∀ va < 2 ^ 32, Outside (PGROUNDUP oldsz) newsz va → pteAt s' pgdir va = pteAt s pgdir va

/-- The frames do not run out at the page table of the last page: that page needs none, or there are
not just as many frames as all pages and the tables before it need. -/
def AllocatedOk (s : State) (pgdir oldsz newsz : Nat) : Prop :=
  ∀ j, newPages oldsz newsz = j + 1 →
    ¬ (s.freelist.length = need s pgdir (PGROUNDUP oldsz) j + 1 ∧
      need s pgdir (PGROUNDUP oldsz) (j + 1) = need s pgdir (PGROUNDUP oldsz) j + 2)

section
variable {L : Layout} {root : Nat → Option Nat} {s s' s₁ : State} {k pgdir a j N newsz : Nat}
  {hand : List Nat}

/-- The pages of zeroes are new pages. -/
theorem Zeroed.newPage (h : Zeroed pgdir a N s s') (hg : Growing L root k pgdir a N s s')
    (hO : Own L root s) (hk : root k = some pgdir) (ha : a % PGSIZE = 0)
    (hlt : a + N * PGSIZE ≤ KERNBASE) (h1 : a ≤ va) (h2 : va < a + N * PGSIZE) :
    NewPage s pgdir va s' := by
  obtain ⟨f, hf, hpte, hzero⟩ := h ((va - a) / PGSIZE) (by lia)
  have hpage : va / PGSIZE * PGSIZE = a + (va - a) / PGSIZE * PGSIZE := by
    lia
  rw [← hpage, pteAt_page] at hpte
  have hframe : pteFrame (pteAt s' pgdir va) = f := by rw [hpte, pteFrame_entry (by decide)]
  have hpres : Vm.present (pteAt s' pgdir va) = true := by rw [hpte]; exact present_entry _ _
  refine ⟨hpres, ?_, ?_, ?_, hframe ▸ hf, fun va' hva' hp' he => ?_⟩
  · rw [hpte, writable, Nat.testBit_or, Nat.testBit_or, Nat.testBit_or]
    simp only [show PTE_W.testBit 1 = true by decide, Bool.true_or, Bool.or_true]
  · rw [hpte, user_entry]
    decide
  · rw [hframe, hzero]
    exact fun _ => rfl
  · exact hg.own.same_page hk (by lia) hva' hpres hp'
      (hframe ▸ (hO.free f hf).2) he

/-- After the clean-up no page of the range is there, if none was before. -/
theorem Stuck.none_left (h : Stuck L root k pgdir a j hand s s₁)
    (hhi : newsz ≤ KERNBASE) (he : Emptied L root k pgdir a newsz s₁ s')
    (habs : ∀ va, a ≤ va → va < newsz → ¬ present (pteAt s pgdir va) = true) (h1 : a ≤ va)
    (h2 : va < newsz) : ¬ present (pteAt s' pgdir va) = true := by
  have hva : va < 2 ^ 32 := by lia
  rcases he.kept va hva with hkept | ⟨-, -, -, hzero⟩
  · rcases h.pages va hva with hpte | ⟨h3, h4, -⟩
    · rw [hkept, hpte]
      exact habs va h1 h2
    · have hj : 0 < j := by
        by_contra hj
        rw [Nat.eq_zero_of_not_pos hj] at h4
        omega
      exact he.gone va h3 h2 (h.visited.2 (.inl hj))
  · rw [hzero]
    decide

/-- Outside the range the clean-up leaves everything as it was. -/
theorem Stuck.outside (h : Stuck L root k pgdir a j hand s s₁)
    (hin : a + j * PGSIZE ≤ newsz) (ha : a % PGSIZE = 0) (hva : va < 2 ^ 32)
    (hout : Outside a newsz va) : pteAt s₁ pgdir va = pteAt s pgdir va := by
  rcases h.pages va hva with hpte | ⟨h3, h4, -⟩
  · exact hpte
  · rcases hout with hout | hout
    · omega
    · lia

/-- The page that could not be mapped is missing. -/
theorem Stuck.last_missing (h : Stuck L root k pgdir a j hand s s₁)
    (hva : a + j * PGSIZE < 2 ^ 32) (habs : ¬ present (pteAt s pgdir (a + j * PGSIZE)) = true) :
    ¬ present (pteAt s₁ pgdir (a + j * PGSIZE)) = true := by
  rcases h.pages _ hva with hpte | ⟨-, h4, -⟩
  · rw [hpte]
    exact habs
  · omega

/-- What `allocuvm` comes to where nothing was present: the frames run out and nothing is left of the
range, or the new size is returned with all pages or with all but the last. -/
theorem allocuvm_outcome (hO : Own L root s) (hk : root k = some pgdir) {oldsz : Nat}
    (hle : oldsz ≤ newsz) (hlt : newsz < KERNBASE)
    (habs : ∀ va, PGROUNDUP oldsz ≤ va → va < newsz → ¬ present (pteAt s pgdir va) = true) :
    wp (allocuvm L pgdir oldsz newsz) (fun r s' =>
      (r = newsz ∧ Reported L root k pgdir (PGROUNDUP oldsz) (newPages oldsz newsz) s s') ∨
      (r = 0 ∧ AllocatedOk s pgdir oldsz newsz ∧ Own L root s' ∧
        (∀ va, PGROUNDUP oldsz ≤ va → va < newsz → ¬ present (pteAt s' pgdir va) = true) ∧
        ∀ va < 2 ^ 32, Outside (PGROUNDUP oldsz) newsz va → pteAt s' pgdir va = pteAt s pgdir va))
      (fun _ => False) s := by
  unfold allocuvm
  rw [if_neg (by omega), if_neg (by omega)]
  unfold AllocatedOk
  generalize ha : PGROUNDUP oldsz = a at *
  generalize hNeq : newPages oldsz newsz = N
  have hmod : a % PGSIZE = 0 := by rw [← ha]; grind [PGROUNDUP]
  have hN : ∀ j, a + j * PGSIZE < newsz ↔ j < N := fun j => by
    rw [← hNeq, ← ha]; grind [newPages]
  have hrule := allocuvmFrom_rule (E := fun _ => False)
    (Q := fun r s' => (r = newsz ∧ Reported L root k pgdir a N s s') ∨
      (r = 0 ∧ (∀ j, N = j + 1 → ¬ (s.freelist.length = need s pgdir a j + 1 ∧
          need s pgdir a (j + 1) = need s pgdir a j + 2)) ∧ Own L root s' ∧
        (∀ va, a ≤ va → va < newsz → ¬ present (pteAt s' pgdir va) = true) ∧
        ∀ va < 2 ^ 32, Outside a newsz va → pteAt s' pgdir va = pteAt s pgdir va))
    oldsz hO hk hlt hmod hN ?_ (fun _ s' h => .inl ⟨rfl, h⟩)
    (fun _ j hj hp => habs _ (Nat.le_add_right _ _) ((hN j).2 hj) hp) TURNS 0 s
    (Nat.add_zero _) (.refl hO) (fun _ _ => rfl) (fun i hi => absurd hi (Nat.not_lt_zero i))
    (Nat.zero_le _)
  · rwa [Nat.zero_mul, Nat.add_zero] at hrule
  intro j hand s₁ h _ hr
  have hin := (hN j).2 hr.1
  have hlt' : oldsz < newsz := by
    simp only [← ha, PGROUNDUP, PGSIZE, KERNBASE] at *; omega
  have hclean : CleanupOk s pgdir a j newsz := fun va h1 h2 _ hp => absurd hp (habs va h1 h2)
  refine wp_seq (deallocuvm_pages h.own hk hlt.le hlt' (.inr ?_)) ?_
  · rw [ha]
    exact h.sound hlt.le hclean
  · rintro _ s' ⟨-, he, -⟩
    rw [ha] at he
    refine .inr ⟨rfl, fun i hi hbad => ?_, he.own, fun va h1 h2 => h.none_left hlt.le he habs h1 h2,
      fun va hva hout => ?_⟩
    · exact not_runsOut_last hbad.1 hbad.2 hi.symm _ _ hr
    · rcases he.kept va hva with hkept | ⟨h1, h2, -⟩
      · rw [hkept]
        exact h.outside hin.le hmod hva hout
      · rcases hout with hout | hout <;> omega

/-- **`allocuvm` maps what it reports** if and only if the frames do not run out at the page table of
the last page. -/
theorem allocuvm_exact (hO : Own L root s) (hk : root k = some pgdir) {oldsz : Nat}
    (hle : oldsz ≤ newsz) (hlt : newsz < KERNBASE)
    (habs : ∀ va, PGROUNDUP oldsz ≤ va → va < newsz → ¬ present (pteAt s pgdir va) = true) :
    Allocated L s pgdir oldsz newsz ↔ AllocatedOk s pgdir oldsz newsz := by
  have hout := allocuvm_outcome hO hk hle hlt habs
  have hmod : PGROUNDUP oldsz % PGSIZE = 0 := by grind [PGROUNDUP]
  constructor
  · rintro ⟨r, s', hrun, -, hmap, -⟩ j hj ⟨hlen, hneed⟩
    -- all pages but the last are mapped
    rcases wp_ok hout hrun with ⟨rfl, ⟨hg, -⟩ | ⟨j', f, hj', h, -⟩⟩ | ⟨-, hok, -⟩
    · have hcount := hg.count
      rw [hj] at hcount
      omega
    · obtain rfl : j = j' := by omega
      have hin : PGROUNDUP oldsz + j * PGSIZE < r := by
        grind [newPages]
      refine h.last_missing (by lia) (habs _ (Nat.le_add_right _ _) hin)
        (hmap ?_ _ (Nat.le_add_right _ _) hin).present
      omega
    · exact hok j hj ⟨hlen, hneed⟩
  · intro hok
    obtain ⟨r, s', hrun, hcase⟩ := wp_total hout
    rcases hcase with ⟨rfl, ⟨hg, hz⟩ | ⟨j', f, hj', -, hlen, hneed, -⟩⟩ | ⟨rfl, -, -, hnone, hsame⟩
    · have hend : ∀ va, va < r → va < PGROUNDUP oldsz + newPages oldsz r * PGSIZE := fun va hva => by
        grind [newPages]
      have hfit : PGROUNDUP oldsz + newPages oldsz r * PGSIZE ≤ KERNBASE := by
        grind [newPages, PGROUNDUP]
      refine ⟨r, s', hrun, .inl rfl, fun _ va h1 h2 => ?_, fun h0 va h1 h2 => by omega,
        fun va hva hva' => ?_⟩
      · exact hz.newPage hg hO hk hmod hfit h1 (hend va h2)
      · rcases hg.pages va hva with hpte | ⟨h3, h4, -⟩
        · exact hpte
        · rcases hva' with hva' | hva'
          · omega
          · grind [newPages]
    · exact absurd ⟨hlen, hj' ▸ hneed⟩ (hok j' hj')
    · exact ⟨0, s', hrun, .inr rfl, fun h => absurd rfl h, fun _ => hnone, hsame⟩

end

/-- There is one frame for a page that needs a table as well: the new size is returned, and the page is
not there. -/
theorem allocuvm_not_mapped : Own demoLayout smallRoot (small 0 [403]) ∧ smallRoot 0 = some 400 ∧
    (∀ va, PGROUNDUP 0x400000 ≤ va → va < 0x400001 →
      ¬ present (pteAt (small 0 [403]) 400 va) = true) ∧
    ¬ Allocated demoLayout (small 0 [403]) 400 0x400000 0x400001 := by
  have hup : PGROUNDUP 0x400000 = 0x400000 := rfl
  refine ⟨small_own (by decide) (by decide), rfl, fun va h1 h2 => ?_, ?_⟩
  · rw [hup] at h1
    obtain rfl : va = 0x400000 := by omega
    rw [small_pteAt]
    decide
  · rintro ⟨r, s', hrun, -, hmap, -⟩
    have hres : ∃ s₁, allocuvm demoLayout 400 0x400000 0x400001 (small 0 [403]) = .ok (0x400001, s₁) ∧
        present (pteAt s₁ 400 0x400000) = false := ⟨_, rfl, rfl⟩
    obtain ⟨s₁, hrun₁, habs⟩ := hres
    rw [hrun₁] at hrun
    cases hrun
    have hpage := (hmap (by decide) 0x400000 (by decide) (by decide)).present
    rw [habs] at hpage
    cases hpage

/-- A page of a table that is there is mapped. -/
theorem allocuvm_exact_small : Allocated demoLayout (small 0 [403, 404]) 400 100 5000 := by
  have hup : PGROUNDUP 100 = 4096 := rfl
  refine (allocuvm_exact (k := 0) (small_own (by decide) (by decide)) rfl (by decide) (by decide)
    fun va h1 h2 => ?_).2 fun j hj => ?_
  · rw [hup] at h1
    have hj : PTX va = 1 := by grind [PTX]
    rw [small_pteAt, if_neg fun h => absurd (hj.symm.trans h.2) (by decide)]
    decide
  · obtain rfl : j = 0 := by
      have hone : newPages 100 5000 = 1 := by decide
      omega
    rintro ⟨hlen, -⟩
    simp [need, missingTables, small] at hlen

end Dixv6.Vm
