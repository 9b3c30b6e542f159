import Dixv6.Vm.Leak

/-!
# What a failed `allocuvm` costs

When `allocuvm` runs out of frames it calls `deallocuvm` over the whole range it was asked for. The
pages it has mapped go back; the page tables stay, and are counted. Two things go wrong: the result
of `mappages` is not looked at, so the frame of a page whose table could not be allocated is lost,
and pages of the range that were there before the call are freed as well.

`allocuvm_law` says that these two are all: `AllocuvmBad` describes when one of them happens.
-/

namespace Dixv6.Vm

open Lib Function

/-- The frame is a page table of the directory that was not there before. -/
def NewTable (s s' : State) (pgdir f : Nat) : Prop :=
  ∃ i < 1024, ¬ present (s.mem pgdir i) = true ∧ present (s'.mem pgdir i) = true ∧
    pteFrame (s'.mem pgdir i) = f

/-- The free frames and the new page tables are the frames that were free. -/
def SameBooks (s s' : State) (pgdir : Nat) : Prop :=
  ∀ f, f ∈ s.freelist ↔ f ∈ s'.freelist ∨ NewTable s s' pgdir f

/-- When `allocuvm` fails, the frames that were free are free or new page tables. -/
def AllocuvmLaw (L : Layout) (s : State) (pgdir oldsz newsz : Nat) : Prop :=
  ∀ s', allocuvm L pgdir oldsz newsz s = .ok (0, s') → SameBooks s s' pgdir

/-- The frames for `j` pages from `a` on and their page tables. -/
def need (s : State) (pgdir a j : Nat) : Nat := j + missingTables s pgdir a j

/-- `deallocuvm` comes to the address `va` of the range from `a` on, after `j` pages of it were
mapped. -/
def Visited (s : State) (pgdir a j va : Nat) : Prop := 0 < j ∨ ¬ Skipped s pgdir a va

/-- The pages of the range that the clean-up comes to are memory. -/
def CleanupOk (s : State) (pgdir a j newsz : Nat) : Prop :=
  ∀ va, a ≤ va → va < newsz → Visited s pgdir a j va → present (pteAt s pgdir va) = true →
    pteFrame (pteAt s pgdir va) < NFRAMES

/-- The frames run out after `j` of the `N` pages from `a` on, and `deallocuvm` frees more than was
taken, or less: a page of the range was there before, or the last frame went to a page that has no
table. -/
def AllocuvmBad (s : State) (pgdir a N newsz : Nat) : Prop :=
  ∃ j < N, (∀ i < j, ¬ present (pteAt s pgdir (a + i * PGSIZE)) = true) ∧
    CleanupOk s pgdir a j newsz ∧
    ((s.freelist.length = need s pgdir a j ∧ ∃ va, a ≤ va ∧ va < newsz ∧ Visited s pgdir a j va ∧
        present (pteAt s pgdir va) = true) ∨
      (s.freelist.length = need s pgdir a j + 1 ∧
        need s pgdir a (j + 1) = need s pgdir a j + 2 ∧ j + 1 < N))

section
variable {L : Layout} {root : Nat → Option Nat} {s s' s₀ s1 s2 : State} {k pgdir a j N f va : Nat}
  {E : Stop → Prop}

/-! ## Counting page tables -/

/-- One more page needs a frame, and another one when its table is missing and none of the pages
before it needed that table. -/
theorem need_succ (s : State) (pgdir a j : Nat) : need s pgdir a (j + 1) = need s pgdir a j + 1 +
    (if present (s.mem pgdir (PDX (a + j * PGSIZE))) = true ∨
      (∃ i < j, PDX (a + j * PGSIZE) = PDX (a + i * PGSIZE)) then 0 else 1) := by
  rw [need, need, missingTables, missingTables, Finset.range_add_one, Finset.image_insert,
    Finset.filter_insert]
  by_cases hp : present (s.mem pgdir (PDX (a + j * PGSIZE))) = true
  · rw [if_neg (not_not.2 hp), if_pos (.inl hp)]
    omega
  · grind

theorem need_lt (s : State) (pgdir a : Nat) {j j' : Nat} (h : j < j') :
    need s pgdir a (j + 1) ≤ need s pgdir a j' ∧
    need s pgdir a j < need s pgdir a j' := by
  have hstep : ∀ i, need s pgdir a i < need s pgdir a (i + 1) := fun i => by
    rw [need_succ]; omega
  have hmono : StrictMono (need s pgdir a) := strictMono_nat_of_lt_succ hstep
  exact ⟨hmono.monotone h, hmono h⟩

/-- The frames run out after `j` of the `N` pages from `a` on: at the next page, or at its table,
and then that page is lost. -/
def RunsOut (s : State) (pgdir a N j : Nat) (lost : Bool) : Prop :=
  j < N ∧ (∀ i < j, ¬ present (pteAt s pgdir (a + i * PGSIZE)) = true) ∧
    if lost then s.freelist.length = need s pgdir a j + 1 ∧
      need s pgdir a (j + 1) = need s pgdir a j + 2 ∧ j + 1 < N
    else s.freelist.length = need s pgdir a j

/-- They run out in one place only. -/
theorem RunsOut.unique {j' : Nat} {b b' : Bool} (h : RunsOut s pgdir a N j b)
    (h' : RunsOut s pgdir a N j' b') : j = j' ∧ b = b' := by
  obtain ⟨-, -, h⟩ := h
  obtain ⟨-, -, h'⟩ := h'
  rcases Nat.lt_trichotomy j j' with hlt | rfl | hlt
  · obtain ⟨h1, h2⟩ := need_lt s pgdir a hlt
    cases b <;> cases b' <;> simp only [Bool.false_eq_true, if_true, if_false] at h h' <;> omega
  · grind
  · obtain ⟨h1, h2⟩ := need_lt s pgdir a hlt
    cases b <;> cases b' <;> simp only [Bool.false_eq_true, if_true, if_false] at h h' <;> omega

/-- With frames for more than the pages that can be mapped they do not run out. -/
theorem not_runsOut (hlen : need s pgdir a j ≤ s.freelist.length)
    (hstop : j = N ∨ (present (pteAt s pgdir (a + j * PGSIZE)) = true ∧
      need s pgdir a j < s.freelist.length)) (j' : Nat) (b : Bool) :
    ¬ RunsOut s pgdir a N j' b := by
  rintro ⟨hj', habs, hcase⟩
  have hle : j' ≤ j := by grind
  rcases Nat.lt_or_eq_of_le hle with hlt | rfl
  · have := (need_lt s pgdir a hlt).1
    have := (need_lt s pgdir a hlt).2
    cases b <;> simp only [Bool.false_eq_true, if_true, if_false] at hcase <;> omega
  · rcases hstop with rfl | ⟨hp, hlt⟩
    · omega
    · have hthere : present (s.mem pgdir (PDX (a + j' * PGSIZE))) = true := by
        by_contra hmiss
        exact not_present_of_table hmiss hp
      have hsucc := need_succ s pgdir a j'
      rw [if_pos (.inl hthere)] at hsucc
      cases b <;> simp only [Bool.false_eq_true, if_true, if_false] at hcase <;> omega

/-- Nor when the last page has no table, since `allocuvm` does not notice. -/
theorem not_runsOut_last (hlen : s.freelist.length = need s pgdir a j + 1)
    (hmiss : need s pgdir a (j + 1) = need s pgdir a j + 2) (hlast : j + 1 = N) (j' : Nat)
    (b : Bool) : ¬ RunsOut s pgdir a N j' b := by
  rintro ⟨hj', -, hcase⟩
  rcases Nat.lt_or_eq_of_le (show j' ≤ j by omega) with hlt | rfl
  · have := (need_lt s pgdir a hlt).2
    cases b <;> simp only [Bool.false_eq_true, if_true, if_false] at hcase <;> omega
  · grind

/-! ## The pages mapped so far -/

/-- The address space `k` after the first `j` pages from `a` on were mapped, starting in `s₀`. -/
structure Growing (L : Layout) (root : Nat → Option Nat) (k pgdir a j : Nat) (s₀ s : State) :
    Prop where
  own : Own L root s
  total : ∀ hand, Total root k s hand = Total root k s₀ hand
  keep : ∀ π f, node root s₀ k π = some f → node root s k π = some f
  tables : ∀ i < 1024, present (s.mem pgdir i) = true ↔
    present (s₀.mem pgdir i) = true ∨ ∃ i' < j, i = PDX (a + i' * PGSIZE)
  pages : ∀ va < 2 ^ 32, pteAt s pgdir va = pteAt s₀ pgdir va ∨
    (a ≤ va ∧ va < a + j * PGSIZE ∧ pteFrame (pteAt s pgdir va) < NFRAMES)
  count : s.freelist.length + need s₀ pgdir a j = s₀.freelist.length
  absent : ∀ i < j, ¬ present (pteAt s₀ pgdir (a + i * PGSIZE)) = true

theorem Growing.refl (hO : Own L root s) : Growing L root k pgdir a 0 s s where
  own := hO
  total _ := rfl
  keep _ _ h := h
  tables i _ := by simp
  pages _ _ := .inl rfl
  count := by simp [need, missingTables]
  absent i hi := absurd hi (Nat.not_lt_zero i)

/-- **One more page is mapped.** -/
theorem Growing.step {perm : Nat} (h : Growing L root k pgdir a j s₀ s) (hk : root k = some pgdir)
    (ha : a % PGSIZE = 0) (hlt : a + j * PGSIZE < KERNBASE) (hperm : perm < PGSIZE)
    (hp : Placed L root k pgdir (a + j * PGSIZE) (f * PGSIZE ||| perm ||| PTE_P) f s s2 true s') :
    Growing L root k pgdir a (j + 1) s₀ s' := by
  have habs : ¬ present (pteAt s pgdir (a + j * PGSIZE)) = true := hp.pte _ ▸ hp.map.absent
  have hpage : ∀ va < 2 ^ 32, (PDX va = PDX (a + j * PGSIZE) ∧ PTX va = PTX (a + j * PGSIZE)) ↔
      va / PGSIZE * PGSIZE = a + j * PGSIZE := fun va hva =>
    page_eq (by lia) (by lia) hva
  have hnew : ∀ va < 2 ^ 32, pteAt s' pgdir va = if va / PGSIZE * PGSIZE = a + j * PGSIZE then
      f * PGSIZE ||| perm ||| PTE_P else pteAt s pgdir va := fun va hva => by
    rw [hp.map.pte, hp.pte]
    simp only [hpage va hva, true_and]
  have hres := hp.map.result.1 rfl
  have hfree := hp.map.freelist
  have hlen : s.freelist.length = s2.freelist.length + 1 := by rw [hp.free, List.length_cons]
  have hcount := h.count
  rw [hp.dir] at hres hfree
  refine ⟨hp.map.own, fun hand => (hp.total hand).trans (h.total hand), fun π g hg => ?_,
    fun i hi => ?_, fun va hva => ?_, ?_, fun i hi => ?_⟩
  · refine hp.map.keep k π g ?_
    rw [hp.node]
    exact h.keep π g hg
  · have hstep : present (s'.mem pgdir i) = true ↔
        present (s.mem pgdir i) = true ∨ i = PDX (a + j * PGSIZE) := by
      by_cases hij : i = PDX (a + j * PGSIZE)
      · refine iff_of_true ?_ (.inr hij)
        rw [present_iff_table hk hi, hij]
        exact hp.map.table rfl
      · rw [present_iff_table hk hi, hp.map.other k [i] (by simp [hij]), hp.node,
          ← present_iff_table hk hi]
        simp [hij]
    rw [hstep, h.tables i hi, or_assoc]
    refine or_congr_right ⟨?_, ?_⟩
    · grind
    · grind
  · rw [hnew va hva]
    split
    · next he =>
      refine .inr ⟨?_, ?_, ?_⟩
      · lia
      · lia
      · rw [pteFrame_entry hperm]; exact hp.fresh.valid.2
    · refine (h.pages va hva).imp id fun hin => ⟨hin.1, ?_, hin.2.2⟩
      exact hin.2.1.trans_le (Nat.add_le_add_left (Nat.mul_le_mul_right _ (Nat.le_succ j)) a)
  · rw [need_succ, hfree]
    have hsame : (present (s₀.mem pgdir (PDX (a + j * PGSIZE))) = true ∨
        ∃ i < j, PDX (a + j * PGSIZE) = PDX (a + i * PGSIZE)) ↔
        present (s.mem pgdir (PDX (a + j * PGSIZE))) = true := (h.tables _ (PDX_lt _)).symm
    simp only [hsame]
    split
    · omega
    · next hmiss =>
      have hpos := List.length_pos_iff.2 (hres.resolve_left hmiss)
      rw [List.length_tail]
      omega
  · rcases Nat.lt_succ_iff_lt_or_eq.1 hi with hi | rfl
    · exact h.absent i hi
    · have hva : a + i * PGSIZE < 2 ^ 32 := by lia
      rcases h.pages _ hva with he | he
      · rw [← he]; exact habs
      · omega

/-! ## The clean-up -/

/-- The frames have run out after `j` pages; `hand` is the frame that is lost, if there is one. -/
structure Stuck (L : Layout) (root : Nat → Option Nat) (k pgdir a j : Nat) (hand : List Nat)
    (s₀ s : State) : Prop where
  own : Own L root s
  total : Total root k s hand = Total root k s₀ []
  keep : ∀ π f, node root s₀ k π = some f → node root s k π = some f
  tables : ∀ i < 1024, present (s.mem pgdir i) = true ↔
    present (s₀.mem pgdir i) = true ∨ ∃ i' < j, i = PDX (a + i' * PGSIZE)
  pages : ∀ va < 2 ^ 32, pteAt s pgdir va = pteAt s₀ pgdir va ∨
    (a ≤ va ∧ va < a + j * PGSIZE ∧ pteFrame (pteAt s pgdir va) < NFRAMES)
  absent : ∀ i < j, ¬ present (pteAt s₀ pgdir (a + i * PGSIZE)) = true
  lost : ∀ f ∈ hand, Fresh L root s f

/-- Nothing is lost when `kalloc` fails. -/
theorem Growing.stuck (h : Growing L root k pgdir a j s₀ s) : Stuck L root k pgdir a j [] s₀ s :=
  ⟨h.own, h.total [], h.keep, h.tables, h.pages, h.absent, fun _ hf => absurd hf List.not_mem_nil⟩

/-- A page is lost when `mappages` fails. -/
theorem Growing.lost {w : Nat} (h : Growing L root k pgdir a j s₀ s)
    (hp : Placed L root k pgdir (a + j * PGSIZE) w f s s2 false s') :
    Stuck L root k pgdir a j [f] s₀ s' := by
  have hs := hp.stay rfl
  have hfresh := hp.fresh
  rw [← hs] at hfresh
  refine ⟨hp.map.own, (hp.total []).trans (h.total []), fun π g hg => ?_, fun i hi => ?_,
    fun va hva => ?_, h.absent, fun g hg => List.mem_singleton.1 hg ▸ hfresh⟩
  · rw [hs, hp.node]
    exact h.keep π g hg
  · rw [hs, hp.dir]
    exact h.tables i hi
  · rw [hs, hp.pte]
    exact h.pages va hva

/-- No page among the first `j` was there. -/
theorem Stuck.absent_va {hand : List Nat} (h : Stuck L root k pgdir a j hand s₀ s)
    (ha : a % PGSIZE = 0) (h1 : a ≤ va) (h2 : va < a + j * PGSIZE) :
    ¬ present (pteAt s₀ pgdir va) = true := by
  have hva : PDX (a + (va - a) / PGSIZE * PGSIZE) = PDX va ∧
      PTX (a + (va - a) / PGSIZE * PGSIZE) = PTX va := by
    simp only [PDX, PTX, PGSIZE] at *; omega
  have habs := h.absent ((va - a) / PGSIZE) (by lia)
  rw [pteAt, hva.1, hva.2] at habs
  exact habs

/-- Where `deallocuvm` goes can be said from the state before. -/
theorem Stuck.visited {hand : List Nat} (h : Stuck L root k pgdir a j hand s₀ s) :
    ¬ Skipped s pgdir a va ↔ Visited s₀ pgdir a j va := by
  unfold Visited
  by_cases hj : 0 < j
  · refine iff_of_true (not_skipped (.inl ?_)) (.inl hj)
    rw [h.tables _ (PDX_lt a)]
    exact .inr ⟨0, hj, by simp⟩
  · have hsame : ∀ i, i < PDX va → (present (s.mem pgdir i) = true ↔
        present (s₀.mem pgdir i) = true) := fun i hi => by
      rw [h.tables i (hi.trans (PDX_lt va))]
      refine or_iff_left ?_
      rintro ⟨i', hi', -⟩
      omega
    rw [or_iff_right hj]
    refine not_congr (and_congr_right fun _ => and_congr_right fun _ => ?_)
    exact forall_congr' fun i => imp_congr_right fun _ => ⟨fun h hi => (hsame i hi).not.1 (h hi),
      fun h hi => (hsame i hi).not.2 (h hi)⟩

/-- The positions that `deallocuvm` leaves were there before it. -/
theorem Emptied.node_sub {lo hi : Nat} (h : Emptied L root k pgdir lo hi s s')
    (hk : root k = some pgdir) {π : List Nat} (hn : node root s' k π = some f) :
    node root s k π = some f := by
  rcases node_cases hk hn with ⟨rfl, rfl⟩ | ⟨i, hi, rfl, hp, rfl⟩ | ⟨va, hva, rfl, hown⟩
  · exact hk
  · rw [h.dir] at hp ⊢
    rw [node_table hk hi, if_pos hp]
  · rw [node_pteAt hk, ← hown]
    rcases h.kept va hva with he | ⟨-, -, -, he⟩
    · rw [he]
    · rw [he] at hown
      cases hown

/-- The pages `deallocuvm` has not come to and the page tables are still there. -/
theorem Emptied.node_kept {lo hi : Nat} (h : Emptied L root k pgdir lo hi s s')
    (hk : root k = some pgdir) {π : List Nat} (hn : node root s k π = some f)
    (hout : ∀ va < 2 ^ 32, π = [PTX va, PDX va] →
      ¬ (lo ≤ va ∧ va / PGSIZE * PGSIZE < hi ∧ ¬ Skipped s pgdir lo va)) :
    node root s' k π = some f := by
  rcases node_cases hk hn with ⟨rfl, rfl⟩ | ⟨i, hi, rfl, hp, rfl⟩ | ⟨va, hva, rfl, hown⟩
  · exact hk
  · rw [node_table hk hi, h.dir, if_pos hp]
  · rw [node_pteAt hk, ← hown]
    rcases h.kept va hva with he | ⟨h1, h2, h3, -⟩
    · rw [he]
    · exact absurd ⟨h1, h2, h3⟩ (hout va hva rfl)

/-- An entry that owns a frame is present. -/
theorem present_of_owned {i w : Nat} (h : ownedFrame i w = some f) : present w = true := by
  rw [ownedFrame] at h
  split at h
  · next hc => exact hc.1
  · cases h

section
variable {newsz g : Nat} {hand : List Nat}

/-- The frames in hand are lost. -/
theorem Stuck.nothing_lost (h : Stuck L root k pgdir a j hand s₀ s) (hk : root k = some pgdir)
    (he : Emptied L root k pgdir a newsz s s') (hbooks : SameBooks s₀ s' pgdir) : hand = [] := by
  rw [List.eq_nil_iff_forall_not_mem]
  intro f hf
  have hfresh := h.lost f hf
  have hin : f ∈ s₀.freelist := by
    have htotal : Total root k s₀ [] f := by rw [← h.total]; exact .inr (.inr hf)
    rcases htotal with hin | ⟨π, hn⟩ | hin
    · exact hin
    · exact absurd (h.keep π f hn) (hfresh.node k π)
    · cases hin
  rcases (hbooks f).1 hin with hfree | ⟨i, hi, -, hp, rfl⟩
  · have htotal : Total root k s [] f := by rw [← he.total]; exact .inl hfree
    rcases htotal with hin | ⟨π, hn⟩ | hin
    · exact hfresh.free hin
    · exact hfresh.node k π hn
    · cases hin
  · exact hfresh.node k [i] (he.node_sub hk (by rw [node_table hk hi, if_pos hp]))

/-- A page that was there before is freed. -/
theorem Stuck.nothing_there (h : Stuck L root k pgdir a j hand s₀ s) (hO : Own L root s₀)
    (hk : root k = some pgdir) (hsz : newsz < KERNBASE)
    (he : Emptied L root k pgdir a newsz s s') (hbooks : SameBooks s₀ s' pgdir) (h1 : a ≤ va) (h2 : va < newsz) (hvis : Visited s₀ pgdir a j va)
    (hsound : pteFrame (pteAt s₀ pgdir va) < NFRAMES) : ¬ present (pteAt s₀ pgdir va) = true := by
  intro hp
  have hi : PDX va < 512 := by grind [PDX]
  have hown : node root s₀ k [PTX va, PDX va] = some (pteFrame (pteAt s₀ pgdir va)) := by
    rw [node_pteAt hk, ownedFrame, if_pos ⟨hp, .inl hi, hsound⟩]
  have htotal : Total root k s' [] (pteFrame (pteAt s₀ pgdir va)) := by
    rw [he.total]
    exact .inr (.inl ⟨_, h.keep _ _ hown⟩)
  rcases htotal with hfree | ⟨π, hn⟩ | hin
  · exact hO.notfree _ _ _ hown ((hbooks _).2 (.inl hfree))
  · have hπ := (h.own.distinct _ _ _ _ _ (he.node_sub hk hn) (h.keep _ _ hown)).2
    rw [hπ, node_pteAt hk] at hn
    exact he.gone va h1 h2 (h.visited.2 hvis) (present_of_owned hn)
  · cases hin

/-- Otherwise the books are right. -/
theorem Stuck.same_books (h : Stuck L root k pgdir a j [] s₀ s) (hO : Own L root s₀)
    (hk : root k = some pgdir) (ha : a % PGSIZE = 0)
    (hin : a + j * PGSIZE ≤ newsz) (he : Emptied L root k pgdir a newsz s s')
    (hnone : ∀ va, a ≤ va → va < newsz → Visited s₀ pgdir a j va →
      ¬ present (pteAt s₀ pgdir va) = true) : SameBooks s₀ s' pgdir := by
  have htotal : Total root k s' [] = Total root k s₀ [] := (he.total []).trans h.total
  intro f
  constructor
  · intro hf
    have hT : Total root k s' [] f := by rw [htotal]; exact .inl hf
    rcases hT with hfree | ⟨π, hn⟩ | hh
    · exact .inl hfree
    · have hs := he.node_sub hk hn
      rcases node_cases hk hn with ⟨rfl, rfl⟩ | ⟨i, hi, rfl, hp, rfl⟩ | ⟨va, hva, rfl, hown⟩
      · exact absurd hf (hO.notfree k [] _ hk)
      · refine .inr ⟨i, hi, fun hp0 => ?_, hp, rfl⟩
        have hn0 : node root s₀ k [i] = some (pteFrame (s₀.mem pgdir i)) := by
          rw [node_table hk hi, if_pos hp0]
        have heq := Option.some.inj ((h.keep _ _ hn0).symm.trans hs)
        exact hO.notfree _ _ _ hn0 (heq ▸ hf)
      · rcases h.pages va hva with hpte | ⟨h1, h2, -⟩
        · rw [node_pteAt hk, hpte, ← node_pteAt hk] at hs
          exact absurd hf (hO.notfree _ _ _ hs)
        · have hj : 0 < j := by
            by_contra hj
            rw [Nat.eq_zero_of_not_pos hj] at h2
            omega
          exact absurd (present_of_owned hown)
            (he.gone va h1 (h2.trans_le hin) (h.visited.2 (.inl hj)))
    · cases hh
  · rintro (hf | ⟨i, hi, hmiss, hp, rfl⟩)
    · have hT : Total root k s₀ [] f := by rw [← htotal]; exact .inl hf
      rcases hT with hfree | ⟨π, hn⟩ | hh
      · exact hfree
      · refine absurd hf (he.own.notfree k π f (he.node_kept hk (h.keep π f hn) ?_))
        rintro va hva rfl ⟨h1, h2, h3⟩
        rw [node_pteAt hk] at hn
        have hpage : PDX (va / PGSIZE * PGSIZE) = PDX va ∧ PTX (va / PGSIZE * PGSIZE) = PTX va := by
          simp only [PDX, PTX, PGSIZE]; omega
        refine hnone (va / PGSIZE * PGSIZE) ?_ h2 ?_ ?_
        · simp only [PGSIZE] at *; omega
        · rw [← h.visited, Skipped, hpage.1, hpage.2]
          exact h3
        · rw [pteAt, hpage.1, hpage.2]
          exact present_of_owned hn
      · cases hh
    · have hn : node root s' k [i] = some (pteFrame (s'.mem pgdir i)) := by
        rw [node_table hk hi, if_pos hp]
      have hT : Total root k s₀ [] (pteFrame (s'.mem pgdir i)) := by
        rw [← htotal]; exact .inr (.inl ⟨_, hn⟩)
      rcases hT with hfree | ⟨π, hn0⟩ | hh
      · exact hfree
      · have hπ := (h.own.distinct _ _ _ _ _ (h.keep _ _ hn0) (he.node_sub hk hn)).2
        rw [hπ, node_table hk hi, if_neg hmiss] at hn0
        cases hn0
      · cases hh

/-- The clean-up stops on no page if it comes to none that is no memory. -/
theorem Stuck.sound (h : Stuck L root k pgdir a j hand s₀ s) (hsz : newsz ≤ KERNBASE)
    (hok : CleanupOk s₀ pgdir a j newsz) : Sound s pgdir a newsz := by
  intro va h1 h2 h3 hp
  rcases h.pages va (by lia) with hpte | hpte
  · rw [hpte] at hp ⊢
    exact hok va h1 h2 (h.visited.1 h3) hp
  · exact hpte.2.2

/-- It has come to none if it has not stopped. -/
theorem Stuck.cleanupOk (h : Stuck L root k pgdir a j hand s₀ s) (ha : a % PGSIZE = 0)
    (hsz : newsz ≤ KERNBASE) (he : Emptied L root k pgdir a newsz s s') :
    CleanupOk s₀ pgdir a j newsz := by
  intro va h1 h2 h3 hp
  rcases h.pages va (by lia) with hpte | ⟨-, h4, -⟩
  · rw [← hpte] at hp ⊢
    exact he.sound va h1 h2 (h.visited.2 h3) hp
  · exact absurd hp (h.absent_va ha h1 h4)

/-- **What `deallocuvm` leaves when the frames have run out.** -/
theorem Stuck.cleanup (h : Stuck L root k pgdir a j hand s₀ s) (hO : Own L root s₀)
    (hk : root k = some pgdir) {oldsz : Nat} (hsz : newsz < KERNBASE) (hlt : oldsz < newsz)
    (ha : a = PGROUNDUP oldsz) (hin : a + j * PGSIZE ≤ newsz)
    (hE : E .kfree ∨ CleanupOk s₀ pgdir a j newsz) :
    wp (deallocuvm L pgdir newsz oldsz) (fun _ s' => CleanupOk s₀ pgdir a j newsz ∧
      (SameBooks s₀ s' pgdir ↔ hand = [] ∧ ∀ va, a ≤ va → va < newsz → Visited s₀ pgdir a j va →
        ¬ present (pteAt s₀ pgdir va) = true)) E s := by
  have hmod : a % PGSIZE = 0 := by rw [ha]; grind [PGROUNDUP]
  refine wp_post (deallocuvm_ledger h.own hk hsz.le hlt (hE.imp id fun hs => ?_)) fun _ s' he => ?_
  · rw [← ha]
    exact h.sound hsz.le hs
  · rw [← ha] at he
    have hs := h.cleanupOk hmod hsz.le he
    refine ⟨hs, fun hbooks => ⟨h.nothing_lost hk he hbooks, fun va h1 h2 h3 hp => ?_⟩, ?_⟩
    · exact h.nothing_there hO hk hsz he hbooks h1 h2 h3 (hs va h1 h2 h3 hp) hp
    · rintro ⟨rfl, hnone⟩
      exact h.same_books hO hk hmod hin he hnone

/-! ## The loop -/

/-- A frame of a user page of `k`, or no memory at all. -/
def Page (root : Nat → Option Nat) (s : State) (k g : Nat) : Prop :=
  NFRAMES ≤ g ∨ ∃ x y, node root s k [x, y] = some g

/-- Such a frame is not free, and not part of the directory. -/
theorem Page.aside (h : Page root s k g) (hO : Own L root s) :
    g ∉ s.freelist ∧ ∀ π, shape.inner k π → node root s k π ≠ some g := by
  rcases h with h | ⟨x, y, h⟩
  · refine ⟨fun hf => ?_, fun π _ hn => ?_⟩
    · have := (hO.free g hf).2
      omega
    · have := (hO.valid k π g hn).2
      omega
  · refine ⟨hO.notfree _ _ _ h, fun π hin hn => ?_⟩
    obtain rfl := (hO.distinct _ _ _ _ _ hn h).2
    simp [shape] at hin

/-- The loop does not touch the pages that are there. -/
def SamePages (root : Nat → Option Nat) (k : Nat) (s₀ s : State) : Prop :=
  ∀ g, Page root s₀ k g → s.mem g = s₀.mem g

theorem Growing.page (h : Growing L root k pgdir a j s₀ s) (hg : Page root s₀ k g) :
    Page root s k g :=
  hg.imp id fun ⟨x, y, hn⟩ => ⟨x, y, h.keep _ _ hn⟩

/-- What was free and is not taken yet is free. -/
theorem Growing.free (h : Growing L root k pgdir a j s₀ s) (hg : g ∈ s.freelist) :
    g ∈ s₀.freelist := by
  have htotal : Total root k s₀ [] g := h.total [] ▸ .inl hg
  rcases htotal with hf | ⟨π, hn⟩ | hf
  · exact hf
  · exact absurd hg (h.own.notfree k π g (h.keep π g hn))
  · cases hf

/-- A page that is taken, filled and mapped keeps what it was filled with, and is none of those that
are there. -/
theorem Taken.samePages {perm : Nat} {page : Nat → Nat} (h : Taken L root s (some f) s1)
    (hO : Own L root s) (hk : root k = some pgdir) (hmem : s2.mem = update s1.mem f page)
    (hfree : s2.freelist = s1.freelist) (ha : a % PGSIZE = 0) (hlt : a < KERNBASE) :
    wp (mappages pgdir a PGSIZE (f * PGSIZE) perm)
      (fun _ s' => SamePages root k s s' ∧ s'.mem f = page) (fun _ => True) s2 := by
  have hf := h.fresh f rfl
  have hnode : ∀ π, node root s2 k π = node root s k π := fun π => by
    rw [(h.own.put s2 ⟨page, hmem⟩ hfree fun k π _ => hf.node k π).1, node, h.mem]
  rw [mappages_page ha (by lia)]
  refine wp_intro (fun b s' hrun => ⟨fun g hg => ?_, ?_⟩) fun _ _ => trivial
  swap
  · have hin2 : ∀ π, shape.inner k π → node root s2 k π ≠ some f := fun π _ => by
      rw [(h.own.put s2 ⟨page, hmem⟩ hfree fun k π _ => hf.node k π).1]
      exact hf.node k π
    rw [wp_ok (mappage_mem hk (hfree ▸ hf.free) hin2) hrun, hmem, update_self]
  obtain ⟨hnf, hin⟩ := hg.aside hO
  have hgf : g ≠ f := fun e => hnf (by rw [h.freelist, e]; exact List.mem_cons_self)
  have hnf2 : g ∉ s2.freelist := fun hg' => hnf (by
    rw [h.freelist, ← hfree]
    exact List.mem_cons_of_mem _ hg')
  have hin2 : ∀ π, shape.inner k π → node root s2 k π ≠ some g := fun π hπ => by
    rw [hnode]; exact hin π hπ
  have hstep := wp_ok (mappage_mem hk hnf2 hin2) hrun
  rw [hstep, hmem, update_of_ne hgf, h.mem]

/-- The first `j` pages from `a` on are writable user pages, in frames of zeroes that were free. -/
def Zeroed (pgdir a j : Nat) (s₀ s : State) : Prop :=
  ∀ i < j, ∃ f ∈ s₀.freelist, pteAt s pgdir (a + i * PGSIZE) =
    f * PGSIZE ||| (PTE_W ||| PTE_U) ||| PTE_P ∧ s.mem f = fun _ => 0

/-- How the loop of `allocuvm` ends that returns the new size: all `N` pages are mapped, or all but
the last, whose table could not be allocated. -/
def Reported (L : Layout) (root : Nat → Option Nat) (k pgdir a N : Nat) (s₀ s : State) : Prop :=
  (Growing L root k pgdir a N s₀ s ∧ Zeroed pgdir a N s₀ s) ∨
    ∃ j f, N = j + 1 ∧ Stuck L root k pgdir a j [f] s₀ s ∧
      s₀.freelist.length = need s₀ pgdir a j + 1 ∧ need s₀ pgdir a N = need s₀ pgdir a j + 2 ∧
      Zeroed pgdir a j s₀ s ∧ s.freelist = []

/-- Pages of zeroes whose entries stay are pages of zeroes. -/
theorem Zeroed.keep (h : Zeroed pgdir a j s₀ s) (hO : Own L root s₀) (hk : root k = some pgdir)
    (hlt : a + j * PGSIZE ≤ KERNBASE)
    (hpte : ∀ i < j, pteAt s' pgdir (a + i * PGSIZE) = pteAt s pgdir (a + i * PGSIZE))
    (hsame : SamePages root k s s') : Zeroed pgdir a j s₀ s' := by
  intro i hi
  obtain ⟨g, hg0, hpte0, hmem⟩ := h i hi
  refine ⟨g, hg0, (hpte i hi).trans hpte0, ?_⟩
  have hlow : PDX (a + i * PGSIZE) < 512 := by grind [PDX]
  have hpage : node root s k [PTX (a + i * PGSIZE), PDX (a + i * PGSIZE)] = some g := by
    rw [node_pteAt hk, hpte0, ownedFrame, pteFrame_entry (by decide),
      if_pos ⟨present_entry _ _, .inl hlow, (hO.free g hg0).2⟩]
  rw [hsame g (.inr ⟨_, _, hpage⟩), hmem]

/-- One more page of zeroes. -/
theorem Zeroed.step (h : Zeroed pgdir a j s₀ s) (hO : Own L root s₀) (hk : root k = some pgdir)
    (ha : a % PGSIZE = 0) (hlt : a + j * PGSIZE < KERNBASE) (hf : f ∈ s₀.freelist)
    (hzero : s'.mem f = fun _ => 0)
    (hp : Placed L root k pgdir (a + j * PGSIZE) (f * PGSIZE ||| (PTE_W ||| PTE_U) ||| PTE_P) f s s2
      true s') (hsame : SamePages root k s s') : Zeroed pgdir a (j + 1) s₀ s' := by
  intro i hi
  rcases Nat.lt_succ_iff_lt_or_eq.1 hi with hi | rfl
  · refine h.keep hO hk hlt.le (fun i hi => ?_) hsame i hi
    have hne : ¬ (PDX (a + i * PGSIZE) = PDX (a + j * PGSIZE) ∧
        PTX (a + i * PGSIZE) = PTX (a + j * PGSIZE)) := by
      grind [PDX, PTX]
    rw [hp.map.pte, if_neg fun hc => hne hc.2, hp.pte]
  · refine ⟨f, hf, ?_, hzero⟩
    rw [hp.map.pte, if_pos ⟨rfl, rfl, rfl⟩]

/-- **The loop of `allocuvm`** after `j` of its `N` pages: it maps them all, it comes upon a page
that is there, or the frames run out and `deallocuvm` is called. -/
theorem allocuvmFrom_rule (oldsz : Nat) {Q : Nat → State → Prop} (hO : Own L root s₀)
    (hk : root k = some pgdir) (hsz : newsz < KERNBASE) (hmod : a % PGSIZE = 0) (hN : ∀ j, a + j * PGSIZE < newsz ↔ j < N)
    (hclean : ∀ (j : Nat) (hand : List Nat) (s : State), Stuck L root k pgdir a j hand s₀ s →
      SamePages root k s₀ s → RunsOut s₀ pgdir a N j !hand.isEmpty →
      wp (do let _ ← deallocuvm L pgdir newsz oldsz; pure 0) Q E s)
    (hdone : (∀ j b, ¬ RunsOut s₀ pgdir a N j b) → ∀ s, Reported L root k pgdir a N s₀ s → Q newsz s)
    (hremap : (∀ j b, ¬ RunsOut s₀ pgdir a N j b) → ∀ j < N,
      present (pteAt s₀ pgdir (a + j * PGSIZE)) = true → E .remap) :
    ∀ (n j : Nat) (s : State), n + j = TURNS → Growing L root k pgdir a j s₀ s →
      SamePages root k s₀ s → Zeroed pgdir a j s₀ s → j ≤ N →
      wp (allocuvmFrom L pgdir oldsz newsz n (a + j * PGSIZE)) Q E s := by
  have hfew : N ≤ 2 ^ 19 := by
    by_contra hlt
    have := (hN (2 ^ 19)).2 (by omega)
    lia
  intro n
  induction n with
  | zero =>
    lia
  | succ n ih =>
    intro j s hn h hmem hz hj
    rw [allocuvmFrom]
    have hcount := h.count
    refine wp_ite (fun hlt => ?_) fun hge => ?_
    swap
    · have hjN : j = N := by
        have := (hN j).not.1 hge
        omega
      exact hdone (not_runsOut (j := j) (by omega) (.inl hjN)) s (.inl (hjN ▸ ⟨h, hz⟩))
    have hjN := (hN j).1 hlt
    have hend : a + j * PGSIZE < KERNBASE := hlt.trans hsz
    refine wp_seq (wp_and (kalloc_spec h.own) kalloc_raw) ?_
    rintro r s1 ⟨h1, -, -, hstay⟩
    cases r with
    | none =>
      have hlen : s₀.freelist.length = need s₀ pgdir a j := by
        rw [h1.empty rfl, List.length_nil] at hcount
        omega
      rw [hstay rfl]
      exact hclean j [] s h.stuck hmem ⟨hjN, h.absent, hlen⟩
    | some f =>
      simp only [setFrame, wp_bind, wp_modify]
      generalize hs' : ({ s1 with mem := update s1.mem f fun _ => 0 } : State) = s2
      have hlen : s.freelist.length = s1.freelist.length + 1 := by rw [h1.freelist]; simp
      have hthere : present (pteAt s pgdir (a + j * PGSIZE)) = true → E .remap := by
        intro hp
        have hp0 : present (pteAt s₀ pgdir (a + j * PGSIZE)) = true := by
          rcases h.pages (a + j * PGSIZE) (by lia) with he | he
          · rw [← he]; exact hp
          · omega
        exact hremap (not_runsOut (j := j) (by omega) (.inr ⟨hp0, by omega⟩)) j hjN hp0
      have hturn : ((a + j * PGSIZE + PGSIZE) % 2 ^ 32) = a + (j + 1) * PGSIZE := by
        lia
      have hpage : (a + j * PGSIZE) % PGSIZE = 0 := by lia
      have hmem2 : s2.mem = update s1.mem f fun _ => 0 := by rw [← hs']
      have hfree2 : s2.freelist = s1.freelist := by rw [← hs']
      refine wp_post (wp_and_any (h1.place hk hmem2 hfree2 (by decide) hpage hend hthere)
        (h1.samePages h.own hk hmem2 hfree2 hpage hend)) ?_
      rintro b s3 ⟨h3, hsame, hzero⟩
      have hmem3 : SamePages root k s₀ s3 := fun g hg =>
        (hsame g (h.page hg)).trans (hmem g hg)
      rw [hturn]
      cases b with
      | true =>
        refine ih (j + 1) s3 (by omega) (h.step hk hmod hend (by decide) h3) hmem3
          (hz.step hO hk hmod hend (h.free ?_) hzero h3 hsame) hjN
        rw [h1.freelist]
        exact List.mem_cons_self
      | false =>
        -- the frame is lost, and so is the one for the next page
        have hres := h3.map.result
        simp only [Bool.false_eq_true, false_iff, not_or, not_not] at hres
        have hlost : s₀.freelist.length = need s₀ pgdir a j + 1 := by grind
        have hmiss : need s₀ pgdir a (j + 1) = need s₀ pgdir a j + 2 := by
          rw [need_succ, if_neg]
          rw [← h.tables _ (PDX_lt _), ← h3.dir]
          exact hres.1
        cases n with
        | zero => lia
        | succ n =>
          rw [allocuvmFrom]
          refine wp_ite (fun hlt' => ?_) fun hge => ?_
          · refine wp_seq kalloc_raw ?_
            rintro r s4 ⟨-, hfree, hstay'⟩
            have hnil : s3.freelist = [] := by rw [h3.stay rfl]; exact hres.2
            cases r with
            | none =>
              rw [hstay' rfl]
              exact hclean j [f] s3 (h.lost h3) hmem3
                ⟨hjN, h.absent, hlost, hmiss, (hN (j + 1)).1 hlt'⟩
            | some g =>
              rw [hnil] at hfree
              cases hfree
          · have hjN' := (hN (j + 1)).not.1 hge
            have hN' : N = j + 1 := by omega
            have hnil : s3.freelist = [] := by rw [h3.stay rfl]; exact hres.2
            have hz3 : Zeroed pgdir a j s₀ s3 := hz.keep hO hk hend.le (fun i _ => by
              rw [h3.stay rfl, h3.pte]) hsame
            exact hdone (not_runsOut_last hlost hmiss hN'.symm) s3
              (.inr ⟨j, f, hN', h.lost h3, hlost, hN' ▸ hmiss, hz3, hnil⟩)

/-- The call is bad when the frames run out and the clean-up is wrong. -/
theorem allocuvmBad_iff : AllocuvmBad s pgdir a N newsz ↔ ∃ j b, RunsOut s pgdir a N j b ∧
    CleanupOk s pgdir a j newsz ∧ (b = true ∨ ∃ va, a ≤ va ∧ va < newsz ∧
      Visited s pgdir a j va ∧ present (pteAt s pgdir va) = true) := by
  constructor
  · rintro ⟨j, hj, habs, hok, ⟨hn, hva⟩ | hn⟩
    · exact ⟨j, false, ⟨hj, habs, hn⟩, hok, .inr hva⟩
    · exact ⟨j, true, ⟨hj, habs, hn⟩, hok, .inl rfl⟩
  · rintro ⟨j, b, ⟨hj, habs, hn⟩, hok, hcase⟩
    refine ⟨j, hj, habs, hok, ?_⟩
    cases b with
    | true => exact .inr hn
    | false => exact .inl ⟨hn, hcase.resolve_left (by simp)⟩

/-- **The loop of `allocuvm`** keeps the books unless the call is bad. -/
theorem allocuvmFrom_law {oldsz : Nat} (hO : Own L root s₀) (hk : root k = some pgdir)
    (hsz : newsz < KERNBASE) (hold : oldsz ≤ newsz) (ha : a = PGROUNDUP oldsz) (hpos : 0 < newsz)
    (hN : ∀ j, a + j * PGSIZE < newsz ↔ j < N) : wp (allocuvmFrom L pgdir oldsz newsz TURNS a)
        (fun r s' => (r = 0 → (SameBooks s₀ s' pgdir ↔ ¬ AllocuvmBad s₀ pgdir a N newsz)) ∧
          (r ≠ 0 → ¬ AllocuvmBad s₀ pgdir a N newsz))
        (fun _ => ¬ AllocuvmBad s₀ pgdir a N newsz) s₀ := by
  have hmod : a % PGSIZE = 0 := by rw [ha]; grind [PGROUNDUP]
  have hgood : (∀ j b, ¬ RunsOut s₀ pgdir a N j b) → ¬ AllocuvmBad s₀ pgdir a N newsz := by
    intro hno hbad
    obtain ⟨j, b, hr, -⟩ := allocuvmBad_iff.1 hbad
    exact hno j b hr
  have hrule := allocuvmFrom_rule (E := fun _ => ¬ AllocuvmBad s₀ pgdir a N newsz)
    (Q := fun r s' => (r = 0 → (SameBooks s₀ s' pgdir ↔ ¬ AllocuvmBad s₀ pgdir a N newsz)) ∧
      (r ≠ 0 → ¬ AllocuvmBad s₀ pgdir a N newsz)) oldsz hO hk hsz hmod hN ?_
    (fun hno s _ => ⟨fun h => by omega, fun _ => hgood hno⟩) (fun hno _ _ _ => hgood hno) TURNS 0 s₀ (Nat.add_zero _)
    (.refl hO) (fun _ _ => rfl) (fun i hi => absurd hi (Nat.not_lt_zero i)) (Nat.zero_le _)
  · rwa [Nat.zero_mul, Nat.add_zero] at hrule
  intro j hand s h _ hr
  have hin := (hN j).2 hr.1
  have hlt : oldsz < newsz := by
    simp only [ha, PGROUNDUP, PGSIZE, KERNBASE] at *; omega
  have hbad : AllocuvmBad s₀ pgdir a N newsz ↔ CleanupOk s₀ pgdir a j newsz ∧ (hand ≠ [] ∨
      ∃ va, a ≤ va ∧ va < newsz ∧ Visited s₀ pgdir a j va ∧
        present (pteAt s₀ pgdir va) = true) := by
    rw [allocuvmBad_iff]
    constructor
    · rintro ⟨j', b, hr', hok, hcase⟩
      obtain ⟨rfl, rfl⟩ := hr.unique hr'
      exact ⟨hok, by simpa using hcase⟩
    · rintro ⟨hok, hcase⟩
      exact ⟨j, _, hr, hok, by simpa using hcase⟩
  refine wp_seq (h.cleanup hO hk hsz hlt ha hin.le ?_) ?_
  · grind
  · rintro _ s' ⟨hok, hbooks⟩
    refine ⟨fun _ => ?_, fun h => absurd rfl h⟩
    rw [hbooks, hbad, not_and]
    constructor
    · grind
    · grind

end

/-- The call grows the address space, and runs out of frames where it does not clean up. -/
def AllocuvmOk (s : State) (pgdir oldsz newsz : Nat) : Prop :=
  newsz < KERNBASE → oldsz ≤ newsz →
    ¬ AllocuvmBad s pgdir (PGROUNDUP oldsz) (newPages oldsz newsz) newsz

/-- **When a failed `allocuvm` keeps the books.** -/
theorem allocuvm_law (hO : Own L root s) (hk : root k = some pgdir) (oldsz newsz : Nat) :
    AllocuvmLaw L s pgdir oldsz newsz ↔ AllocuvmOk s pgdir oldsz newsz := by
  have hrefl : SameBooks s s pgdir := fun f => ⟨.inl, fun h => h.resolve_right fun ⟨i, _, h1, h2, _⟩ =>
    h1 h2⟩
  refine law_of_wp (v := 0) (R := fun s' => SameBooks s s' pgdir) ?_
  have hloop : newsz < KERNBASE → oldsz ≤ newsz →
      wp (allocuvmFrom L pgdir oldsz newsz TURNS (PGROUNDUP oldsz)) (fun r s' =>
        (r = 0 → (SameBooks s s' pgdir ↔
          ¬ AllocuvmBad s pgdir (PGROUNDUP oldsz) (newPages oldsz newsz) newsz)) ∧
        (r ≠ 0 → ¬ AllocuvmBad s pgdir (PGROUNDUP oldsz) (newPages oldsz newsz) newsz))
        (fun _ => ¬ AllocuvmBad s pgdir (PGROUNDUP oldsz) (newPages oldsz newsz) newsz) s := by
    intro hsz hold
    rcases Nat.eq_zero_or_pos newsz with rfl | hpos
    · have hnone : ¬ AllocuvmBad s pgdir (PGROUNDUP oldsz) (newPages oldsz 0) 0 := by
        rintro ⟨j, hj, -⟩
        rw [newPages, Nat.zero_sub] at hj
        exact Nat.not_lt_zero j hj
      rw [allocuvmFrom, if_neg (Nat.not_lt_zero _)]
      exact ⟨fun _ => iff_of_true hrefl hnone, fun h => absurd rfl h⟩
    · have hN : ∀ j, PGROUNDUP oldsz + j * PGSIZE < newsz ↔ j < newPages oldsz newsz := fun j => by
        grind [newPages]
      exact allocuvmFrom_law hO hk hsz hold rfl hpos hN
  unfold allocuvm AllocuvmOk
  refine wp_ite (fun h => ?_) fun h => wp_ite (fun h' => ?_) fun h' => ?_
  · have hP : newsz < KERNBASE → oldsz ≤ newsz →
        ¬ AllocuvmBad s pgdir (PGROUNDUP oldsz) (newPages oldsz newsz) newsz := fun h1 => by omega
    exact ⟨fun _ => iff_of_true hrefl hP, fun _ => hP⟩
  · have hP : newsz < KERNBASE → oldsz ≤ newsz →
        ¬ AllocuvmBad s pgdir (PGROUNDUP oldsz) (newPages oldsz newsz) newsz := fun _ h2 => by omega
    exact ⟨fun _ => iff_of_true hrefl hP, fun _ => hP⟩
  · have hsz : newsz < KERNBASE := by omega
    have hold : oldsz ≤ newsz := by omega
    have hiff : (newsz < KERNBASE → oldsz ≤ newsz →
        ¬ AllocuvmBad s pgdir (PGROUNDUP oldsz) (newPages oldsz newsz) newsz) ↔
        ¬ AllocuvmBad s pgdir (PGROUNDUP oldsz) (newPages oldsz newsz) newsz :=
      ⟨fun h => h hsz hold, fun h _ _ => h⟩
    simp only [hiff]
    exact hloop hsz hold

end

end Dixv6.Vm
