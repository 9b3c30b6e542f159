import Dixv6.Vm.Frames

/-!
# Keeping the books of an address space

`Total` is the set of frames that are free, in one address space, or in the hands of the function
that runs. Taking a frame, mapping it, freeing a page and freeing a frame move frames between the
three and leave the set alone; so when a function has given up its address space and has nothing in
hand, the free frames are those it started with.

`deallocuvm_ledger` and `freevm_ledger` are the two functions that give frames back. `deallocuvm`
skips `NPTENTRIES` pages from wherever it stands when a page table is missing, and so passes over
the first pages of the next one (`Skipped`); `freevm` starts at a page table and misses nothing.
-/

namespace Dixv6.Vm

open Lib Function

/-- The frames that are free, in the address space `k`, or in hand. -/
def Total (root : Nat → Option Nat) (k : Nat) (s : State) (hand : List Nat) (f : Nat) : Prop :=
  f ∈ s.freelist ∨ (∃ π, node root s k π = some f) ∨ f ∈ hand

section
variable {L : Layout} {root : Nat → Option Nat} {s s' : State} {k pgdir d t f a hi : Nat}
  {hand : List Nat} {E : Stop → Prop}

/-- The positions of an address space: its directory, its tables and its pages. -/
theorem node_cases (hk : root k = some pgdir) {π : List Nat} (hn : node root s k π = some f) :
    (π = [] ∧ f = pgdir) ∨
    (∃ i < 1024, π = [i] ∧ present (s.mem pgdir i) = true ∧ pteFrame (s.mem pgdir i) = f) ∨
    ∃ va < 2 ^ 32, π = [PTX va, PDX va] ∧ ownedFrame (PDX va) (pteAt s pgdir va) = some f := by
  rcases π with _ | ⟨i, _ | ⟨i', _ | ⟨x, π⟩⟩⟩
  · exact .inl ⟨rfl, Option.some.inj (hn.symm.trans hk)⟩
  · by_cases hi : i < 1024
    · rw [node_table hk hi] at hn
      split at hn
      · next hp => exact .inr (.inl ⟨i, hi, rfl, hp, Option.some.inj hn⟩)
      · cases hn
    · obtain ⟨t, -, he⟩ := Shape.node_parent hn
      simp [shape, NPDENTRIES, hi] at he
  · by_cases hb : i' < 1024 ∧ i < 1024
    · have hi : PDX (i' * 4194304 + i * 4096) = i' := by grind [PDX]
      have hj : PTX (i' * 4194304 + i * 4096) = i := by grind [PTX]
      have hpte := node_pteAt (s := s) hk (i' * 4194304 + i * 4096)
      refine .inr (.inr ⟨i' * 4194304 + i * 4096, by omega, by rw [hi, hj], ?_⟩)
      rw [← hpte, hi, hj, hn]
    · obtain ⟨t, -, he⟩ := Shape.node_parent hn
      simp only [shape, NPDENTRIES, NPTENTRIES, if_neg hb] at he
      cases he
  · obtain ⟨t, -, he⟩ := Shape.node_parent hn
    cases he

/-! ## Taking and mapping -/

/-- A frame taken is in hand. -/
theorem Taken.total {r : Option Nat} (h : Taken L root s r s') :
    Total root k s' (r.toList ++ hand) = Total root k s hand := by
  ext f
  simp only [Total, node, h.mem, h.freelist, List.mem_append]
  tauto

/-- Writing a frame outside the inner positions moves nothing. -/
theorem Total.put (hmem : ∃ c, s'.mem = update s.mem f c) (hfree : s'.freelist = s.freelist)
    (hf : ∀ k π, shape.inner k π → node root s k π ≠ some f) :
    Total root k s' hand = Total root k s hand := by
  obtain ⟨c, hc⟩ := hmem
  have hn : ∀ π, node root s' k π = node root s k π := fun π => by
    rw [node, node, hc]
    exact Shape.node_update_store hf k π
  ext g
  simp only [Total, hfree, hn]

/-- Without an invariant: `kalloc` takes the first frame of the free list. -/
theorem kalloc_raw : wp kalloc (fun r s' => s'.mem = s.mem ∧
    s.freelist = r.toList ++ s'.freelist ∧ (r = none → s' = s)) E s := by
  unfold wp kalloc
  cases hl : s.freelist with
  | nil => exact ⟨rfl, by simp [hl], fun _ => rfl⟩
  | cons f l => exact ⟨rfl, rfl, by simp⟩

/-- What `mappage` does to the free list and to the entry of the page directory. -/
theorem mappage_raw {pa perm : Nat} :
    wp (mappage pgdir a pa perm) (fun b s' => (b = false → s' = s) ∧
      (b = true → ¬ present (s.mem pgdir (PDX a)) = true → ∃ t, s.freelist = t :: s'.freelist ∧
        (t ≠ pgdir → present (s'.mem pgdir (PDX a)) = true ∧
          pteFrame (s'.mem pgdir (PDX a)) = t)))
      (fun _ => True) s := by
  unfold mappage
  simp only [walkpgdir, getWord, wp_bind, wp_gets]
  refine wp_ite (fun hp => ?_) fun hp => ?_
  · simp [hp, setWord]
  · simp only [if_true, wp_bind]
    refine wp_post kalloc_raw ?_
    rintro (_ | t) s1 ⟨hmem, hfree, hnone⟩
    · simpa using hnone rfl
    · simp only [setFrame, setWord, wp_bind, wp_modify, wp_pure, wp_gets, wp_stopIf]
      refine ⟨fun _ => trivial, fun _ => ⟨by simp, fun _ _ => ⟨t, hfree, fun ht => ?_⟩⟩⟩
      simp [update_of_ne ht.symm, pde_entry]

/-- **The books of one page mapped**: a frame for its table leaves the free list, and the frame the
new entry owns was in hand before. Frames that are not in the books are not stored to. -/
theorem mappage_ledger (hO : Own L root s) (hk : root k = some pgdir) {pa perm : Nat}
    (hw : ∀ f, ownedFrame (PDX a) (pa ||| perm ||| PTE_P) = some f → Fresh L root s f)
    (hE : present (pteAt s pgdir a) = true → E .remap) : wp (mappage pgdir a pa perm) (fun b s' =>
      Mapped L root k pgdir a (pa ||| perm ||| PTE_P) s b s' ∧ (b = false → s' = s) ∧
      (b = true → ∀ hand, Total root k s' hand =
        Total root k s ((ownedFrame (PDX a) (pa ||| perm ||| PTE_P)).toList ++ hand)) ∧
      ∀ g, ¬ Total root k s [] g → s'.mem g = s.mem g) E s := by
  refine wp_intro (fun b s' hrun => ?_) fun e hrun => wp_error (mappage_spec hO hk hw hE) hrun
  have h := wp_ok (mappage_spec hO hk hw hE) hrun
  obtain ⟨hfalse, htook⟩ := wp_ok mappage_raw hrun
  refine ⟨h, hfalse, fun hb hand => ?_, fun g hg => ?_⟩
  swap
  · have hmem : wp (mappage pgdir a pa perm) (fun _ s' => s'.mem g = s.mem g) (fun _ => True) s :=
      mappage_mem hk (fun hf => hg (.inl hf)) fun π _ hn => hg (.inr (.inl ⟨π, hn⟩))
    have hsame := wp_ok hmem hrun
    exact hsame
  have hpage : node root s' k [PTX a, PDX a] =
      ownedFrame (PDX a) (pa ||| perm ||| PTE_P) := by
    rw [node_pteAt hk, h.pte, if_pos ⟨hb, rfl, rfl⟩]
  -- the table is the old one, or the first frame of the free list
  have htable : (s'.freelist = s.freelist ∧ node root s' k [PDX a] = node root s k [PDX a]) ∨
      ∃ t, s.freelist = t :: s'.freelist ∧ node root s' k [PDX a] = some t := by
    by_cases hp : present (s.mem pgdir (PDX a)) = true
    · obtain ⟨t, ht⟩ := (present_iff_table hk (PDX_lt a)).1 hp
      exact .inl ⟨by rw [h.freelist, if_pos hp], by rw [ht, h.keep _ _ _ ht]⟩
    · obtain ⟨t, hfree, ht⟩ := htook hb hp
      have htp : t ≠ pgdir := fun e =>
        hO.notfree k [] pgdir hk (by rw [hfree, e]; exact List.mem_cons_self)
      refine .inr ⟨t, hfree, ?_⟩
      rw [node_table hk (PDX_lt a), if_pos (ht htp).1, (ht htp).2]
  ext f
  simp only [Total, List.mem_append, Option.mem_toList]
  constructor
  · rintro (hf | ⟨π, hf⟩ | hf)
    · grind
    · by_cases hπ : π = [PDX a]
      · grind
      · by_cases hπ' : π = [PTX a, PDX a]
        · grind
        · rw [h.other k π fun e => e.2.elim hπ hπ'] at hf
          exact .inr (.inl ⟨π, hf⟩)
    · exact .inr (.inr (.inr hf))
  · rintro (hf | ⟨π, hf⟩ | hf | hf)
    · grind
    · exact .inr (.inl ⟨π, h.keep _ _ _ hf⟩)
    · exact .inr (.inl ⟨_, hpage.trans hf⟩)
    · exact .inr (.inr hf)

/-! ## Giving pages back -/

/-- What freeing the pages from `lo` up to `hi` comes to. -/
structure Emptied (L : Layout) (root : Nat → Option Nat) (k pgdir lo hi : Nat) (s s' : State) :
    Prop where
  own : Own L root s'
  dir : s'.mem pgdir = s.mem pgdir
  total : ∀ hand, Total root k s' hand = Total root k s hand
  gone : ∀ va, lo ≤ va → va < hi → ¬ Skipped s pgdir lo va → ¬ present (pteAt s' pgdir va) = true
  kept : ∀ va, va < 2 ^ 32 → pteAt s' pgdir va = pteAt s pgdir va ∨
    (lo ≤ va ∧ va / PGSIZE * PGSIZE < hi ∧ ¬ Skipped s pgdir lo va ∧ pteAt s' pgdir va = 0)
  sound : Sound s pgdir lo hi

/-- Nothing is skipped after a page of a table that is there. -/
theorem not_skipped_next {va : Nat} (ha : a % PGSIZE = 0)
    (hthere : present (s.mem pgdir (PDX a)) = true) : ¬ Skipped s pgdir (a + PGSIZE) va := by
  refine not_skipped ?_
  by_cases hi : PDX (a + PGSIZE) = PDX a
  · rw [hi]; exact .inl hthere
  · refine .inr ?_
    simp only [PDX, PTX, PGSIZE] at *; omega

/-- Freeing a page leaves the directory alone. -/
theorem Unmap.dir (h : Unmap t f a s s') (hO : Own L root s) (hk : root k = some pgdir)
    (ht : node root s k [PDX a] = some t) (hf : node root s k [PTX a, PDX a] = some f) :
    s'.mem pgdir = s.mem pgdir := by
  have hfd : pgdir ≠ f := fun e => by
    have := (hO.distinct k _ k _ f (e ▸ hk : node root s k [] = some f) hf).2
    simp at this
  have htd : pgdir ≠ t := fun e => by
    have := (hO.distinct k _ k _ t (e ▸ hk : node root s k [] = some t) ht).2
    simp at this
  rw [h.mem, update_of_ne htd, update_of_ne hfd]

/-- The books of one page freed. -/
theorem Unmap.total (h : Unmap t f a s s') (hO : Own L root s)
    (ht : node root s k [PDX a] = some t) (hf : node root s k [PTX a, PDX a] = some f) :
    Total root k s' hand = Total root k s hand := by
  obtain ⟨hn, -⟩ := hO.unmap ht hf h.mem h.freelist
  ext g
  simp only [Total, h.freelist, List.mem_cons]
  constructor
  · grind
  · grind

/-- Pages of the same number have the same entry, and no others. -/
theorem page_eq {va : Nat} (ha : a % PGSIZE = 0) (hlt : a < 2 ^ 32) (hva : va < 2 ^ 32) :
    (PDX va = PDX a ∧ PTX va = PTX a) ↔ va / PGSIZE * PGSIZE = a := by
  simp only [PDX, PTX, PGSIZE] at *; omega

/-- A page table that is missing: the pages before the next stop of the walk are not there, or are
skipped. -/
theorem Emptied.jump (ha : a % PGSIZE = 0) (hlt : a < hi) (hhi : hi ≤ KERNBASE)
    (hmiss : ¬ present (s.mem pgdir (PDX a)) = true)
    (h : Emptied L root k pgdir (a + 4194304) hi s s') : Emptied L root k pgdir a hi s s' := by
  simp only [KERNBASE] at hhi
  have hjump := fun va h1 h2 => @skipped_jump s pgdir va a hmiss h1 h2
  have hnear : ∀ va, a ≤ va → va < a + 4194304 → ¬ Skipped s pgdir a va →
      ¬ present (s.mem pgdir (PDX va)) = true := by
    intro va h1 h2 h3 hp
    have hcase : PDX va = PDX a ∨ PDX va = PDX a + 1 ∧ PTX va < PTX a := by
      simp only [PDX, PTX, PGSIZE] at *; omega
    rcases hcase with hi | ⟨hi, hj⟩
    · exact hmiss (hi ▸ hp)
    · refine h3 ⟨hj, by omega, fun i h4 h5 => ?_⟩
      rw [show i = PDX a by omega]
      exact hmiss
  refine ⟨h.own, h.dir, h.total, fun va h1 h2 h3 => ?_, fun va h1 => (h.kept va h1).imp id ?_,
    fun va h1 h2 h3 hp => ?_⟩
  · by_cases hbehind : a + 4194304 ≤ va
    · exact h.gone va hbehind h2 ((hjump va hbehind (by omega)).not.1 h3)
    · refine not_present_of_table ?_
      rw [h.dir]
      exact hnear va h1 (by omega) h3
  · grind
  · by_cases hbehind : a + 4194304 ≤ va
    · exact h.sound va hbehind h2 ((hjump va hbehind (by omega)).not.1 h3) hp
    · exact absurd hp (not_present_of_table (hnear va h1 (by omega) h3))

/-- A page of a table that is there: the page at `a` is gone in `s1`, and nothing else has changed. -/
theorem Emptied.next {s1 : State} (ha : a % PGSIZE = 0) (hlt : a < hi)
    (hhi : hi ≤ KERNBASE) (hthere : present (s.mem pgdir (PDX a)) = true)
    (hdir : s1.mem pgdir = s.mem pgdir) (htotal : ∀ hand, Total root k s1 hand = Total root k s hand)
    (hgone : ¬ present (pteAt s1 pgdir a) = true)
    (hkept : ∀ va < 2 ^ 32, pteAt s1 pgdir va = pteAt s pgdir va ∨
      (va / PGSIZE * PGSIZE = a ∧ pteAt s1 pgdir va = 0))
    (hreal : present (pteAt s pgdir a) = true → pteFrame (pteAt s pgdir a) < NFRAMES)
    (h : Emptied L root k pgdir (a + PGSIZE) hi s1 s') : Emptied L root k pgdir a hi s s' := by
  have hskip : ∀ va, ¬ Skipped s1 pgdir (a + PGSIZE) va := fun va =>
    not_skipped_next ha (by rw [hdir]; exact hthere)
  have hnoskip : ∀ va, ¬ Skipped s pgdir a va := fun va => not_skipped (.inl hthere)
  simp only [KERNBASE] at hhi
  -- the addresses of the page at `a`
  have hsame : ∀ (s : State) va, a ≤ va → ¬ a + 4096 ≤ va → pteAt s pgdir va = pteAt s pgdir a := by
    grind [PDX, PTX, pteAt]
  refine ⟨h.own, h.dir.trans hdir, fun hand => (h.total hand).trans (htotal hand),
    fun va h1 h2 _ => ?_, fun va h1 => ?_, fun va h1 h2 _ hp => ?_⟩
  · by_cases hva : a + PGSIZE ≤ va
    · exact h.gone va hva h2 (hskip va)
    · rcases h.kept va (by omega) with he | he
      · rw [he, hsame s1 va h1 hva]; exact hgone
      · rw [he.2.2.2]; decide
  · rcases h.kept va h1 with he | ⟨h2, h3, -, h4⟩
    · grind
    · exact .inr ⟨by lia, h3, hnoskip va, h4⟩
  · by_cases hva : a + PGSIZE ≤ va
    · rcases hkept va (by omega) with he | ⟨he, -⟩
      · rw [← he] at hp ⊢
        exact h.sound va hva h2 (hskip va) hp
      · lia
    · grind

/-- **The books of the loop of `deallocuvm`.** -/
theorem Unmaps.emptied (h : Unmaps root k hi a s s') (hO : Own L root s)
    (hk : root k = some pgdir) (hhi : hi ≤ KERNBASE) (ha : a % PGSIZE = 0) :
    Emptied L root k pgdir a hi s s' := by
  induction h with
  | done hle =>
    exact ⟨hO, rfl, fun _ => rfl, fun va h1 h2 => by omega, fun _ _ => .inl rfl, fun va h1 h2 => by omega⟩
  | @skip a s s' hlt ht h ih =>
    refine .jump ha hlt hhi (fun hp => ?_) (ih hO (by lia))
    rw [node_table hk (PDX_lt a), if_pos hp] at ht
    cases ht
  | @keep a t s s' hlt ht hp h ih =>
    rw [← pteAt_of_table hk ht] at hp
    exact .next ha hlt hhi ((present_iff_table hk (PDX_lt a)).2 ⟨t, ht⟩) rfl (fun _ => rfl) hp
      (fun _ _ => .inl rfl) (fun h => absurd h hp) (ih hO (by lia))
  | @free a t f s s1 s' hlt ht hf hu h ih =>
    have hown : ownedFrame (PDX a) (pteAt s pgdir a) = some f := (node_pteAt hk a).symm.trans hf
    have hpte := hu.pte hO hk ht hf
    refine .next ha hlt hhi ((present_iff_table hk (PDX_lt a)).2 ⟨t, ht⟩) (hu.dir hO hk ht hf)
      (fun _ => hu.total hO ht hf) ?_ (fun va hva => ?_) (fun _ => ?_)
      (ih (hO.unmap ht hf hu.mem hu.freelist).2 (by lia))
    · rw [hpte, if_pos ⟨rfl, rfl⟩]; decide
    · rw [hpte]
      split
      · next h =>
        exact .inr ⟨(page_eq ha (by lia) hva).1 h, rfl⟩
      · exact .inl rfl
    · obtain ⟨⟨-, -, hv⟩, -⟩ := Option.ite_none_right_eq_some.1 hown
      exact hv

/-- **The books of `deallocuvm`.** -/
theorem deallocuvm_ledger (hO : Own L root s) (hk : root k = some pgdir) {oldsz newsz : Nat}
    (hsz : oldsz ≤ KERNBASE) (hlt : newsz < oldsz)
    (hE : E .kfree ∨ Sound s pgdir (PGROUNDUP newsz) oldsz) : wp (deallocuvm L pgdir oldsz newsz)
      (fun _ s' => Emptied L root k pgdir (PGROUNDUP newsz) oldsz s s') E s :=
  wp_post (deallocuvm_unmaps hO hk hsz hlt hE) fun _ _ h =>
    h.2.emptied hO hk hsz (by grind [PGROUNDUP])

/-- **`freevm` gives everything back**: afterwards the frames that were free or in the address
space are free. The pages of the kernel's part must not own a frame. -/
theorem freevm_ledger (hO : Own L root s) (hk : root k = some d)
    (hkern : ∀ j i, 512 ≤ i → node root s k [j, i] = none) (hE : E .kfree ∨ Sound s d 0 KERNBASE) :
    wp (freevm L d) (fun _ s' => ∀ f, f ∈ s'.freelist ↔ Total root k s [] f) E s := by
  have hzero : PGROUNDUP 0 = 0 := rfl
  unfold freevm
  refine wp_seq (deallocuvm_ledger hO hk le_rfl (by decide) (hzero.symm ▸ hE)) fun _ s1 h1 => ?_
  generalize hl : List.range NPDENTRIES = l
  refine wp_post (freevmTables_spec h1.own hk hl.symm) ?_
  rintro _ s2 ⟨-, hset⟩ f
  -- no page is left, so the address space is its tables and its directory
  have hpage : ∀ j i, node root s1 k [j, i] = none := by
    intro j i
    by_cases hb : i < 1024 ∧ j < 1024
    swap
    · cases hn : node root s1 k [j, i] with
      | none => rfl
      | some g =>
        obtain ⟨t, -, he⟩ := Shape.node_parent hn
        simp only [shape, NPDENTRIES, NPTENTRIES, if_neg hb] at he
        cases he
    have hi : PDX (i * 4194304 + j * 4096) = i := by grind [PDX]
    have hj : PTX (i * 4194304 + j * 4096) = j := by grind [PTX]
    have hn := node_pteAt (s := s1) hk (i * 4194304 + j * 4096)
    have hn0 := node_pteAt (s := s) hk (i * 4194304 + j * 4096)
    rw [hi, hj] at hn hn0
    rw [hn]
    by_cases hlow : i < 512
    · have hgone := h1.gone (i * 4194304 + j * 4096) (Nat.zero_le _)
        (by lia) (not_skipped (.inr rfl))
      rw [ownedFrame, if_neg fun h => hgone h.1]
    · rcases h1.kept (i * 4194304 + j * 4096) (by omega) with he | ⟨-, he, -⟩
      · rw [he, ← hn0]
        exact hkern j i (by omega)
      · lia
  rw [hset, ← h1.total, Total]
  refine or_congr_right ⟨?_, ?_⟩
  · rintro (rfl | ⟨i, hi, hp, he⟩)
    · exact .inl ⟨[], hk⟩
    · exact .inl ⟨[i], by rw [node_table hk hi, if_pos hp, he]⟩
  · rintro (⟨π, hπ⟩ | h)
    · rcases π with _ | ⟨i, _ | ⟨j, _ | ⟨x, π⟩⟩⟩
      · exact .inl (Option.some.inj (hπ.symm.trans hk))
      · obtain ⟨a, ha, he⟩ := Shape.node_parent hπ
        obtain rfl : a = d := Option.some.inj (ha.symm.trans hk)
        simp only [shape, NPDENTRIES] at he
        split at he
        · next h => exact .inr ⟨i, h.1, h.2, Option.some.inj he⟩
        · cases he
      · rw [hpage] at hπ; cases hπ
      · obtain ⟨a, ha, he⟩ := Shape.node_parent hπ
        cases he
    · cases h

end

end Dixv6.Vm
