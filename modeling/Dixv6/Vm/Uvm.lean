import Mathlib.Data.Finset.Card
import Dixv6.Vm.Own

/-!
# Address spaces built, copied, shrunk and freed

Specifications of the functions of `vm.c` that work on a whole address space, over the ownership
invariant: `setupkvm_spec`, `deallocuvm_spec`, `freevm_spec`, `allocuvm_spec`, `copyuvm_spec`.

The main result for `fork` is `copyuvm_spec`: **if every page below `sz` is mapped to a frame,
`copyuvm` never stops because one is missing**, and it gives the parent and every other process
their memory back as it was. `allocuvm_result` says exactly when growing succeeds.
-/

namespace Dixv6.Vm

open Lib Function

section
variable {L : Layout} {root : Nat → Option Nat} {s s' s₁ s2 : State}
  {k pgdir d t f va perm lo hi a oldsz newsz sz : Nat} {E : Stop → Prop}

/-- A walk that may not allocate only looks. -/
theorem walkpgdir_look (hk : root k = some pgdir) (va : Nat) :
    wp (walkpgdir pgdir va false) (fun r s' => s' = s ∧
      r = (node root s k [PDX va]).map fun t => (t, PTX va)) E s := by
  rw [node_table hk (PDX_lt va)]
  refine wp_ite (fun hp => ?_) fun hp => ?_
  · simp [hp]
  · simp [hp]

/-- A user page mapped to a frame just taken and filled. -/
theorem mappage_user_spec (hO : Own L root s) (hk : root k = some pgdir) (hf : Fresh L root s f)
    (hperm : perm < PGSIZE) (hva : va % PGSIZE = 0) (hlt : va < 2 ^ 32)
    (hE : present (pteAt s pgdir va) = true → E .remap) :
    wp (mappages pgdir va PGSIZE (f * PGSIZE) perm)
      (Mapped L root k pgdir va (f * PGSIZE ||| perm ||| PTE_P) s) E s := by
  rw [mappages_page hva hlt]
  refine mappage_spec hO hk (fun g hg => ?_) hE
  have hg' : g = f := by
    rw [ownedFrame, pteFrame_entry hperm] at hg
    split at hg
    · exact (Option.some.inj hg).symm
    · cases hg
  rw [hg']
  exact hf

/-! ## `setupkvm` -/

theorem setupkvmFrom_spec (hk : root k = some d) (hE : E .remap) : ∀ (ks : List Kmap) (s : State),
    Own L root s → (∀ m ∈ ks, m ∈ kmap L) →
    wp (setupkvmFrom d ks) (fun r s' => (r = none ∨ r = some d) ∧ Grows L root s root s') E s
  | [], s, hO, _ => ⟨.inr rfl, .refl hO⟩
  | m :: ks, s, hO, hks => by
    refine wp_seq (mappages_kmap hk hE hO (hks m List.mem_cons_self)) fun b s₁ h1 => ?_
    cases b with
    | false => exact ⟨.inl rfl, h1⟩
    | true =>
      refine wp_post (setupkvmFrom_spec hk hE ks s₁ h1.own fun m hm =>
        hks m (List.mem_cons_of_mem _ hm)) ?_
      rintro r s2 ⟨hr, h2⟩
      exact ⟨hr, h1.trans h2⟩

/-- The process table with a new page directory, if there is one. -/
def withDir (root : Nat → Option Nat) (k : Nat) : Option Nat → Nat → Option Nat
  | none => root
  | some d => update root k (some d)

/-- **A new address space** has its own frames; when memory runs out on the way, the frames
taken so far stay with nobody. -/
theorem setupkvm_spec (hO : Own L root s) (hk : root k = none) (hE : E .remap) :
    wp (setupkvm L) (fun r s' => Grows L root s (withDir root k r) s') E s := by
  unfold setupkvm
  refine wp_seq (kalloc_spec hO) fun r s₁ h1 => ?_
  cases r with
  | none => exact h1.grows
  | some d =>
    have hd := h1.fresh d rfl
    simp only [setFrame, wp_bind, wp_modify, wp_stopIf]
    refine ⟨fun h => absurd h (by decide), fun _ => ?_⟩
    generalize hs2 : ({ s₁ with mem := update s₁.mem d fun _ => 0 } : State) = s2
    have h2 : Grows L root s₁ root s2 :=
      .of_update h1.own ⟨fun _ => 0, by rw [← hs2]⟩ (by rw [← hs2]) fun k π _ => hd.node k π
    have hd2 := h2.fresh d hd
    obtain ⟨hn, hO2⟩ := h2.own.add hk hd2 (by rw [← hs2]; simp)
    refine wp_post (setupkvmFrom_spec (update_self _ _ _) hE (kmap L) s2 hO2
      fun _ h => h) ?_
    rintro r s3 ⟨hr, h3⟩
    -- from the frames held before to those held now
    have hfresh : ∀ g, Fresh L root s g → Fresh L (update root k (some d)) s3 g := by
      intro g hg
      have hg2 := h2.fresh g (h1.grows.fresh g hg)
      refine h3.fresh g ⟨hg2.free, fun k' π h => ?_, hg.valid⟩
      rw [hn] at h
      split at h
      · exact h1.ne rfl hg (Option.some.inj h).symm
      · exact hg2.node k' π h
    have hkeep : ∀ k' π g, node root s k' π = some g →
        node (update root k (some d)) s3 k' π = some g := by
      intro k' π g h
      refine h3.keep k' π g ?_
      have h' := h2.keep k' π g (h1.grows.keep k' π g h)
      rw [hn, if_neg, h']
      rintro ⟨rfl, rfl⟩
      have := hk.symm.trans h
      cases this
    rcases hr with rfl | rfl
    · obtain ⟨hO4, hdrop⟩ := h3.own.drop k
      have hroot : update (update root k (some d)) k none = root := by
        rw [update_idem, ← hk, update_eq_self]
      rw [hroot] at hO4 hdrop
      refine ⟨hO4, fun k' π g h => ?_, fun g hg => ?_⟩
      · have hne : k' ≠ k := by
          rintro rfl
          rw [node, Shape.node_none_of_root hk] at h; cases h
        rw [← hkeep k' π g h]
        exact (Shape.node_congr (update_of_ne hne _ _) (fun _ _ _ _ => rfl) π).symm
      · exact ⟨(hfresh g hg).free, fun k' π h => (hfresh g hg).node k' π (hdrop k' π g h).2,
          hg.valid⟩
    · exact ⟨h3.own, hkeep, hfresh⟩

/-! ## `deallocuvm` -/

/-- The page of `va` lies in `[lo, hi)`. -/
def InRange (lo hi : Nat) (π : List Nat) : Prop :=
  ∃ va, lo ≤ va ∧ va < hi ∧ π = [PTX va, PDX va]

/-- What freeing the pages of one process from `lo` up to `hi` leaves. -/
structure Shrunk (L : Layout) (root : Nat → Option Nat) (k lo hi : Nat) (s s' : State) :
    Prop where
  own : Own L root s'
  keep : ∀ k' π f, (k' = k → ¬ InRange lo hi π) → node root s k' π = some f →
    node root s' k' π = some f
  fresh : ∀ g, Fresh L root s g → Fresh L root s' g

theorem Shrunk.refl (hO : Own L root s) : Shrunk L root k lo hi s s :=
  ⟨hO, fun _ _ _ _ h => h, fun _ h => h⟩

theorem Shrunk.trans {lo' : Nat} (hle : lo ≤ lo')
    (h : Shrunk L root k lo hi s s₁) (h' : Shrunk L root k lo' hi s₁ s2) :
    Shrunk L root k lo hi s s2 where
  own := h'.own
  keep k' π f hne hf := by
    refine h'.keep k' π f (fun e hr => hne e ?_) (h.keep k' π f hne hf)
    obtain ⟨va, h1, h2, h3⟩ := hr
    exact ⟨va, by omega, h2, h3⟩
  fresh g hg := h'.fresh g (h.fresh g hg)

/-- Every page present in `[lo, hi)` names a frame that `kfree` accepts. -/
def Solid (s : State) (pgdir lo hi : Nat) : Prop :=
  ∀ va, lo ≤ va → va < hi → present (pteAt s pgdir va) = true →
    pteFrame (pteAt s pgdir va) < NFRAMES

/-- A page table is present when the forest has it. -/
theorem present_iff_table {i : Nat} (hk : root k = some pgdir) (hi : i < 1024) :
    present (s.mem pgdir i) = true ↔ ∃ t, node root s k [i] = some t := by
  rw [node_table hk hi]
  split <;> simp [*]

/-- The page of `va` is passed over by a walk that starts at `lo`: all page tables from that of
`lo` up to that of `va` are missing, and the page lies closer to the start of its table. -/
def Skipped (s : State) (pgdir lo va : Nat) : Prop :=
  PTX va < PTX lo ∧ PDX lo < PDX va ∧
    ∀ i, PDX lo ≤ i → i < PDX va → ¬ present (s.mem pgdir i) = true

/-- Every page present in `[lo, hi)` that the walk comes to names a frame that `kfree` accepts. -/
def Sound (s : State) (pgdir lo hi : Nat) : Prop :=
  ∀ va, lo ≤ va → va < hi → ¬ Skipped s pgdir lo va → present (pteAt s pgdir va) = true →
    pteFrame (pteAt s pgdir va) < NFRAMES

/-- Without a page table no page is present. -/
theorem not_present_of_table (h : ¬ present (s.mem pgdir (PDX va)) = true) :
    ¬ present (pteAt s pgdir va) = true := by
  rw [pteAt, if_neg h]; decide

/-- Nothing is skipped behind a page table that is there, nor from the start of one. -/
theorem not_skipped (h : present (s.mem pgdir (PDX lo)) = true ∨ PTX lo = 0) :
    ¬ Skipped s pgdir lo va := by
  rintro ⟨hj, hi, hmiss⟩
  rcases h with h | h
  · exact hmiss (PDX lo) le_rfl hi h
  · omega

/-- What lies behind a page table that is missing is skipped from before it if it is from
there. -/
theorem skipped_jump (hmiss : ¬ present (s.mem pgdir (PDX a)) = true)
    (h1 : a + 4194304 ≤ va) (h2 : va < 2 ^ 32) :
    Skipped s pgdir a va ↔ Skipped s pgdir (a + 4194304) va := by
  have hi : PDX (a + 4194304) = PDX a + 1 := by simp only [PDX]; omega
  have hj : PTX (a + 4194304) = PTX a := by simp only [PTX]; omega
  unfold Skipped
  rw [hi, hj]
  constructor
  · rintro ⟨h3, h4, h5⟩
    refine ⟨h3, ?_, fun i h6 h7 => h5 i (by omega) h7⟩
    grind [PDX, PTX]
  · grind

/-- Pages of different page numbers have different entries. -/
theorem page_ne (ha : a % PGSIZE = 0) (hlt : va < 2 ^ 32) (h : a + PGSIZE ≤ va) :
    ¬ (PDX va = PDX a ∧ PTX va = PTX a) := by
  grind [PDX, PTX]

/-- The page of `a`, in the frame `f` and with its entry in the table `t`, is freed the way the loop
does it. -/
structure Unmap (t f a : Nat) (s s' : State) : Prop where
  mem : s'.mem = update (update s.mem f fun _ => 0x01010101) t (update (s.mem t) (PTX a) 0)
  freelist : s'.freelist = f :: s.freelist

/-- The entries of the address space after a page was freed. -/
theorem Unmap.pte (h : Unmap t f a s s') (hO : Own L root s) (hk : root k = some pgdir)
    (ht : node root s k [PDX a] = some t) (hf : node root s k [PTX a, PDX a] = some f) (va : Nat) :
    pteAt s' pgdir va = if PDX va = PDX a ∧ PTX va = PTX a then 0 else pteAt s pgdir va := by
  obtain ⟨hn, -⟩ := hO.unmap ht hf h.mem h.freelist
  have htab : node root s' k [PDX va] = node root s k [PDX va] := by rw [hn, if_neg (by simp)]
  cases hx : node root s k [PDX va] with
  | none =>
    rw [pteAt_of_no_table hk (htab.trans hx), pteAt_of_no_table hk hx, ite_self]
  | some x =>
    have hxf : x ≠ f := fun e => by
      have := (hO.distinct k _ k _ f (e ▸ hx) hf).2
      simp at this
    rw [pteAt_of_table hk (htab.trans hx), pteAt_of_table hk hx, h.mem]
    by_cases hi : PDX va = PDX a
    · obtain rfl : x = t := Option.some.inj (hx.symm.trans (hi ▸ ht))
      by_cases hj : PTX va = PTX a
      · rw [update_self, hj, update_self, if_pos ⟨hi, rfl⟩]
      · rw [update_self, update_of_ne hj, if_neg fun e => hj e.2]
    · have hxt : x ≠ t := fun e => hi (List.cons.inj (hO.distinct k _ k _ x hx (e ▸ ht)).2).1
      rw [update_of_ne hxt, update_of_ne hxf, if_neg fun e => hi e.1]

/-- A run of the loop of `deallocuvm` from `a` on, on the address space of `k`. -/
inductive Unmaps (root : Nat → Option Nat) (k hi : Nat) : Nat → State → State → Prop
  | done {a : Nat} {s : State} (ha : hi ≤ a) : Unmaps root k hi a s s
  /-- A whole page table is skipped, from wherever the loop stood in it. -/
  | skip {a : Nat} {s s' : State} (ha : a < hi) (ht : node root s k [PDX a] = none)
      (h : Unmaps root k hi (a + 4194304) s s') : Unmaps root k hi a s s'
  | keep {a t : Nat} {s s' : State} (ha : a < hi) (ht : node root s k [PDX a] = some t)
      (hp : ¬ present (s.mem t (PTX a)) = true) (h : Unmaps root k hi (a + PGSIZE) s s') :
      Unmaps root k hi a s s'
  | free {a t f : Nat} {s s₁ s' : State} (ha : a < hi) (ht : node root s k [PDX a] = some t)
      (hf : node root s k [PTX a, PDX a] = some f) (hu : Unmap t f a s s₁)
      (h : Unmaps root k hi (a + PGSIZE) s₁ s') : Unmaps root k hi a s s'

/-- **The loop of `deallocuvm`** with enough turns left to reach `oldsz`. It stops only on an
entry that names no memory. -/
theorem deallocuvmFrom_unmaps (hk : root k = some pgdir) (hsz : oldsz ≤ KERNBASE) :
    ∀ (n a : Nat) (s : State), Own L root s → a % PGSIZE = 0 → oldsz ≤ a + n * PGSIZE →
      (E .kfree ∨ Sound s pgdir a oldsz) →
      wp (deallocuvmFrom L pgdir oldsz (n + 1) a) (fun _ s' => Unmaps root k oldsz a s s') E s := by
  intro n
  induction n with
  | zero =>
    intro a s hO _ hn _
    rw [deallocuvmFrom, if_neg (by omega)]
    exact .done (by omega)
  | succ n ih =>
    intro a s hO ha hn hE
    rw [deallocuvmFrom]
    refine wp_ite (fun hlt => ?_) fun h => .done (by omega)
    simp only [KERNBASE, PGSIZE] at hsz ha hn
    have hmod : (a + PGSIZE) % 2 ^ 32 = a + PGSIZE := by lia
    refine wp_seq (walkpgdir_look (s := s) hk a) ?_
    rintro r s0 ⟨hs0, rfl⟩
    rw [hs0]
    cases ht : node root s k [PDX a] with
    | none =>
      have hmiss : ¬ present (s.mem pgdir (PDX a)) = true := fun h => by
        rw [node_table hk (PDX_lt a), if_pos h] at ht; cases ht
      have hskip : ((a + (NPTENTRIES - 1) * PGSIZE) % 2 ^ 32 + PGSIZE) % 2 ^ 32 = a + 4194304 := by
        lia
      simp only [Option.map_none, hskip]
      refine wp_post (ih _ s hO ?_ ?_ ?_) fun _ s' h => .skip hlt ht h
      · lia
      · lia
      · exact hE.imp id fun h va h1 h2 h3 =>
          h va (by omega) h2 ((skipped_jump hmiss h1 (by omega)).not.2 h3)
    | some t =>
      have hnoskip : ∀ va, ¬ Skipped s pgdir a va := fun va =>
        not_skipped (.inl ((present_iff_table hk (PDX_lt a)).2 ⟨t, ht⟩))
      have hpte := pteAt_of_table hk ht
      simp only [Option.map_some, getWord, wp_bind, wp_gets, hmod]
      -- the entries behind the page are as they were
      have hrest : ∀ s₁, Own L root s₁ →
          (∀ va, a + PGSIZE ≤ va → va < 2 ^ 32 → pteAt s₁ pgdir va = pteAt s pgdir va) →
          wp (deallocuvmFrom L pgdir oldsz (n + 1) (a + PGSIZE))
            (fun _ s' => Unmaps root k oldsz (a + PGSIZE) s₁ s') E s₁ := by
        intro s₁ hO1 hpte1
        refine ih _ s₁ hO1 ?_ ?_ (hE.imp id fun h va h1 h2 _ => ?_)
        · lia
        · lia
        · rw [hpte1 va h1 (by omega)]
          exact h va (by omega) h2 (hnoskip va)
      by_cases hp : present (s.mem t (PTX a)) = true
      · rw [if_pos hp]
        by_cases hv : pteFrame (s.mem t (PTX a)) < NFRAMES
        swap
        · -- no memory: `kfree` stops
          have hstop : E .kfree := hE.resolve_right fun h =>
            hv (hpte ▸ h a le_rfl hlt (hnoskip a) (hpte ▸ hp))
          simp only [wp_bind, wp_stopIf, kfree]
          exact ⟨fun _ => hstop, fun _ => ⟨fun _ => hstop, fun h => absurd (.inr (by omega)) h⟩⟩
        have hi : PDX a < 512 := by grind [PDX]
        have hf : node root s k [PTX a, PDX a] = some (pteFrame (s.mem t (PTX a))) := by
          rw [node_page ht (PDX_lt a) (PTX_lt a), ownedFrame, if_pos ⟨hp, .inl hi, hv⟩]
        have hval := hO.valid _ _ _ hf
        have hpos := L.data_pos
        have hft : t ≠ pteFrame (s.mem t (PTX a)) := fun e => by
          have := (hO.distinct k _ k _ _ (e ▸ ht) hf).2
          simp at this
        have hin : ¬ (pteFrame (s.mem t (PTX a)) < L.kend ∨ NFRAMES ≤ pteFrame (s.mem t (PTX a))) := by
          omega
        simp only [kfree, setFrame, setWord, wp_bind, wp_stopIf, wp_modify, hin, false_implies,
          true_and, not_false_eq_true, true_implies]
        refine ⟨fun h => by omega, fun _ => ?_⟩
        generalize hs1 : State.mk _ _ = s₁
        have hu : Unmap t (pteFrame (s.mem t (PTX a))) a s s₁ := by
          subst hs1
          exact ⟨by rw [update_of_ne hft], rfl⟩
        have hO1 := (hO.unmap ht hf hu.mem hu.freelist).2
        refine wp_post (hrest s₁ hO1 fun va h1 h2 => ?_) fun _ s' h => .free hlt ht hf hu h
        rw [hu.pte hO hk ht hf, if_neg (page_ne (by lia) h2 h1)]
      · rw [if_neg hp]
        exact wp_post (hrest s hO fun _ _ _ => rfl) fun _ s' h => .keep hlt ht hp h

/-- What a run of the loop leaves. -/
theorem Unmaps.shrunk (h : Unmaps root k hi a s s') (hO : Own L root s) :
    Shrunk L root k a hi s s' := by
  induction h with
  | done ha => exact .refl hO
  | skip ha ht h ih => exact Shrunk.trans (by omega) (.refl hO) (ih hO)
  | keep ha ht hp h ih => exact Shrunk.trans (Nat.le_add_right ..) (.refl hO) (ih hO)
  | @free a t f s s₁ s' ha ht hf hu h ih =>
    obtain ⟨hn, hO1⟩ := hO.unmap ht hf hu.mem hu.freelist
    refine Shrunk.trans (Nat.le_add_right ..) ⟨hO1, fun k' π g hne hg => ?_, fun g hg => ?_⟩ (ih hO1)
    · rw [hn, if_neg, hg]
      rintro ⟨rfl, rfl⟩
      exact hne rfl ⟨a, le_rfl, ha, rfl⟩
    · refine ⟨?_, fun k' π h => ?_, hg.valid⟩
      · rw [hu.freelist, List.mem_cons, not_or]
        exact ⟨fun e => hg.node _ _ (e ▸ hf), hg.free⟩
      · rw [hn] at h
        split at h
        · cases h
        · exact hg.node k' π h

/-- Shrinking an address space runs the loop from the first page to go. -/
theorem deallocuvm_unmaps (hO : Own L root s) (hk : root k = some pgdir) (hsz : oldsz ≤ KERNBASE)
    (hlt : newsz < oldsz) (hE : E .kfree ∨ Sound s pgdir (PGROUNDUP newsz) oldsz) :
    wp (deallocuvm L pgdir oldsz newsz) (fun r s' => r = newsz ∧
      Unmaps root k oldsz (PGROUNDUP newsz) s s') E s := by
  unfold deallocuvm
  rw [if_neg (by omega)]
  refine wp_seq (deallocuvmFrom_unmaps hk hsz (2 ^ 20) _ s hO ?_ ?_ hE) fun _ s' h => ⟨rfl, h⟩
  · grind [PGROUNDUP]
  · lia

/-- **Shrinking an address space** never stops when the pages to free are frames. -/
theorem deallocuvm_spec (hO : Own L root s) (hk : root k = some pgdir) (hsz : oldsz ≤ KERNBASE)
    (hE : E .kfree ∨ Solid s pgdir (PGROUNDUP newsz) oldsz) :
    wp (deallocuvm L pgdir oldsz newsz) (fun r s' => r = min oldsz newsz ∧
      Shrunk L root k (PGROUNDUP newsz) oldsz s s') E s := by
  by_cases hlt : newsz < oldsz
  · refine wp_post (deallocuvm_unmaps hO hk hsz hlt (hE.imp id fun h va h1 h2 _ => h va h1 h2)) ?_
    rintro _ s' ⟨rfl, h⟩
    exact ⟨by omega, h.shrunk hO⟩
  · unfold deallocuvm
    rw [if_pos (by omega)]
    exact ⟨by omega, .refl hO⟩

/-! ## `freevm` -/

/-- The rest of the forest survives the end of process `k`. -/
structure Freed (L : Layout) (root : Nat → Option Nat) (k : Nat) (s s' : State) : Prop where
  own : Own L (update root k none) s'
  keep : ∀ k' π f, k' ≠ k → node root s k' π = some f →
    node (update root k none) s' k' π = some f
  fresh : ∀ g, Fresh L root s g → Fresh L (update root k none) s' g

/-- Forgetting the process: its frames are now nobody's. -/
theorem Freed.of_own (hO : Own L root s) : Freed L root k s s := by
  obtain ⟨hO', hdrop⟩ := hO.drop k
  refine ⟨hO', fun k' π f hne h => ?_, fun g hg => ?_⟩
  · rw [← h]
    exact Shape.node_congr (update_of_ne hne _ _) (fun _ _ _ _ => rfl) π
  · exact ⟨hg.free, fun k' π h => hg.node k' π (hdrop k' π g h).2, hg.valid⟩

/-- One more of its frames given back. -/
theorem Freed.give (h : Freed L root k s s₁)
    (hf : Fresh L (update root k none) s₁ f) (hfs : ∀ g, Fresh L root s g → g ≠ f) :
    wp (kfree L f) (fun _ s2 => Freed L root k s s2 ∧
      (∃ c, s2.mem = update s₁.mem f c) ∧
      (∀ g, g ≠ f → Fresh L (update root k none) s₁ g →
        Fresh L (update root k none) s2 g) ∧ s2.freelist = f :: s₁.freelist) E s₁ := by
  refine wp_post (kfree_spec h.own hf) ?_
  rintro _ s2 ⟨hfree, hmem, hn, hO2⟩
  have hfresh : ∀ g, g ≠ f → Fresh L (update root k none) s₁ g →
      Fresh L (update root k none) s2 g := by
    intro g hne hg
    refine ⟨?_, fun k' π => hn k' π ▸ hg.node k' π, hg.valid⟩
    rw [hfree, List.mem_cons, not_or]
    exact ⟨hne, hg.free⟩
  exact ⟨⟨hO2, fun k' π g hne hg => (hn k' π).trans (h.keep k' π g hne hg),
    fun g hg => hfresh g (hfs g hg) (h.fresh g hg)⟩, hmem, hfresh, hfree⟩

/-- **The second half of `freevm`**: the page tables and the page directory go on the free list,
and nothing else does. -/
theorem freevmTables_spec (hO : Own L root s) (hk : root k = some d) {l : List Nat}
    (hall : l = List.range NPDENTRIES) : wp (do Comp.forM (freevmTable L d) l; kfree L d)
      (fun _ s' => Freed L root k s s' ∧ ∀ f, f ∈ s'.freelist ↔ f ∈ s.freelist ∨ f = d ∨
        ∃ i < 1024, present (s.mem d i) = true ∧ pteFrame (s.mem d i) = f) E s := by
  have hd1 : node root s k [] = some d := hk
  -- the page directory does not change while the tables go
  let I : List Nat → State → Prop := fun l s2 => Freed L root k s s2 ∧ s2.mem d = s.mem d ∧
    l.Nodup ∧ (∀ i ∈ l, i < 1024) ∧ Fresh L (update root k none) s2 d ∧
    (∀ i ∈ l, present (s.mem d i) = true →
      Fresh L (update root k none) s2 (pteFrame (s.mem d i))) ∧
    ∀ f, f ∈ s2.freelist ↔ f ∈ s.freelist ∨
      ∃ i < 1024, i ∉ l ∧ present (s.mem d i) = true ∧ pteFrame (s.mem d i) = f
  have hfree : ∀ π f, node root s k π = some f →
      Fresh L (update root k none) s f := by
    intro π f hf
    refine ⟨hO.notfree _ _ _ hf, fun k' π' h => ?_, hO.valid _ _ _ hf⟩
    obtain ⟨hne, h'⟩ := (hO.drop k).2 k' π' f h
    exact hne (hO.distinct _ _ _ _ _ h' hf).1
  have htab : ∀ i, i < 1024 → present (s.mem d i) = true →
      node root s k [i] = some (pteFrame (s.mem d i)) := fun i hi hp => by
    rw [node_table hk hi, if_pos hp]
  have hstep : ∀ i l s2, I (i :: l) s2 →
      wp (freevmTable L d i) (fun _ s3 => I l s3) E s2 := by
    rintro i l s2 ⟨h2, hdir, hnd, hlt, hd, ht, hset⟩
    rw [List.nodup_cons] at hnd
    have hl := fun x hx => hlt x (List.mem_cons_of_mem i hx)
    have hi := hlt i List.mem_cons_self
    simp only [freevmTable, getWord, wp_bind, wp_gets, hdir]
    refine wp_ite (fun hp => ?_) fun hp =>
      ⟨h2, hdir, hnd.2, hl, hd, fun x hx => ht x (List.mem_cons_of_mem i hx), fun f => ?_⟩
    · have hn := htab i hi hp
      have hne : d ≠ pteFrame (s.mem d i) := fun e => by
        have := (hO.distinct k _ k _ d (hn.trans (congrArg some e.symm)) hd1).2
        cases this
      refine wp_post (h2.give (ht i List.mem_cons_self hp) fun g hg e => hg.node _ _ (e ▸ hn)) ?_
      rintro _ s3 ⟨h3, ⟨c, hc⟩, hfr, hcons⟩
      refine ⟨h3, by rw [hc, update_of_ne hne, hdir], hnd.2, hl, hfr d hne hd, ?_, ?_⟩
      · intro x hx hpx
        refine hfr _ (fun e => hnd.1 ?_) (ht x (List.mem_cons_of_mem i hx) hpx)
        have := (hO.distinct k _ k _ _ (e ▸ htab x (hl x hx) hpx) hn).2
        rw [← (List.cons.inj this).1]
        exact hx
      · grind
    · grind
  have hlt : ∀ i, i ∈ l ↔ i < 1024 := fun i => by rw [hall, List.mem_range]
  have hI : I l s := by
    refine ⟨.of_own hO, rfl, hall ▸ List.nodup_range, fun i hi => (hlt i).1 hi, hfree [] d hd1,
      fun i hi hp => hfree _ _ (htab i ((hlt i).1 hi) hp), fun f => ?_⟩
    refine ⟨.inl, fun h => h.resolve_right ?_⟩
    rintro ⟨i, hi, hl, -⟩
    exact hl ((hlt i).2 hi)
  refine wp_seq (wp_forM hstep l s hI) ?_
  rintro _ s2 ⟨h2, -, -, -, hd, -, hset⟩
  refine wp_post (h2.give hd fun g hg e => hg.node k [] (e ▸ hd1)) ?_
  rintro _ s3 ⟨h3, -, -, hcons⟩
  refine ⟨h3, fun f => ?_⟩
  rw [hcons, List.mem_cons, hset]
  simp only [List.not_mem_nil, not_false_eq_true, true_and]
  exact or_left_comm

/-- **Freeing an address space** takes nothing from the others. -/
theorem freevm_spec (hO : Own L root s) (hk : root k = some d) (hE : E .kfree) :
    wp (freevm L d) (fun _ s' => Freed L root k s s') E s := by
  unfold freevm
  refine wp_seq (deallocuvm_spec hO hk le_rfl (.inl hE)) fun _ s₁ h => ?_
  have h1 := h.2
  generalize hl : List.range NPDENTRIES = l
  refine wp_post (freevmTables_spec h1.own hk hl.symm) ?_
  rintro _ s3 ⟨h3, -⟩
  refine ⟨h3.own, fun k' π f hne h => h3.keep k' π f hne ?_, fun g hg => h3.fresh g (h1.fresh g hg)⟩
  exact h1.keep k' π f (fun e => absurd e hne) h

/-! ## `copyuvm` -/

/-- The end of a process that did not exist before leaves everything else as it was. -/
theorem Freed.grows {root1 : Nat → Option Nat} (hk : root k = none)
    (hroot : root1 = update root k (some d)) (h : Grows L root s root1 s₁)
    (h' : Freed L root1 k s₁ s') : Grows L root s root s' := by
  have hback : update root1 k none = root := by
    rw [hroot, update_idem, ← hk, update_eq_self]
  obtain ⟨hO, hkeep, hfresh⟩ := h'
  rw [hback] at hO hkeep hfresh
  refine ⟨hO, fun k' π f hf => hkeep k' π f ?_ (h.keep k' π f hf), fun g hg =>
    hfresh g (h.fresh g hg)⟩
  rintro rfl
  rw [node, Shape.node_none_of_root hk] at hf; cases hf

/-- A frame taken and filled. -/
theorem Taken.fill {c : Nat → Nat} (h1 : Taken L root s (some f) s₁)
    (hmem : s2.mem = update s₁.mem f c) (hfree : s2.freelist = s₁.freelist) :
    Grows L root s root s2 :=
  h1.grows.trans (.of_update h1.own ⟨c, hmem⟩ hfree fun k π _ => (h1.fresh f rfl).node k π)

/-- A frame taken, filled and mapped as a user page. -/
theorem Taken.map_page (hk : root k = some pgdir) {c : Nat → Nat} (h1 : Taken L root s (some f) s₁)
    (hmem : s2.mem = update s₁.mem f c) (hfree : s2.freelist = s₁.freelist)
    (hperm : perm < PGSIZE) (hva : va % PGSIZE = 0) (hlt : va < 2 ^ 32)
    (hE : present (pteAt s pgdir va) = true → E .remap) :
    wp (mappages pgdir va PGSIZE (f * PGSIZE) perm) (fun b s3 =>
      Grows L root s root s3 ∧ Mapped L root k pgdir va (f * PGSIZE ||| perm ||| PTE_P) s2 b s3)
      E s2 := by
  have hf := h1.fresh f rfl
  have h2 : Grows L root s₁ root s2 :=
    .of_update h1.own ⟨c, hmem⟩ hfree fun k π _ => hf.node k π
  have hpte : pteAt s2 pgdir va = pteAt s pgdir va := by
    rw [(pteAt_update hk hmem fun k π _ => hf.node k π).2, pteAt, pteAt, h1.mem]
  refine wp_post (mappage_user_spec h2.own hk (h2.fresh f hf) hperm hva hlt (hpte ▸ hE)) ?_
  intro b s3 h3
  refine ⟨⟨h3.own, fun k π g hg => h3.keep k π g (h2.keep k π g (h1.grows.keep k π g hg)),
    fun g hg => h3.fresh g (h2.fresh g (h1.grows.fresh g hg)) ?_⟩, h3⟩
  rw [ownedFrame, pteFrame_entry hperm]
  split
  · exact fun e => h1.ne rfl hg (Option.some.inj e).symm
  · simp

/-- Every page of process `k` below `sz` has a frame. -/
def Filled (root : Nat → Option Nat) (s : State) (k sz : Nat) : Prop :=
  ∀ va, va < sz → ∃ f, node root s k [PTX va, PDX va] = some f

theorem Filled.mono {root' : Nat → Option Nat} (h : Filled root s k sz)
    (hg : Grows L root s root' s') : Filled root' s' k sz := fun va hva => by
  obtain ⟨f, hf⟩ := h va hva
  exact ⟨f, hg.keep _ _ _ hf⟩

/-- The page just mapped is there, and so are all pages below. -/
theorem Mapped.filled (hk : root k = some pgdir) (hperm : perm < PGSIZE)
    (hf : f < NFRAMES) (ha : a % PGSIZE = 0) (hlt : a < KERNBASE)
    (h : Mapped L root k pgdir a (f * PGSIZE ||| perm ||| PTE_P) s true s')
    (hfill : Filled root s k (min a sz)) : Filled root s' k (min (a + PGSIZE) sz) := by
  intro va hva
  by_cases hlow : va < a
  · obtain ⟨g, hg⟩ := hfill va (by omega)
    exact ⟨g, h.keep _ _ _ hg⟩
  · have hi : PDX va = PDX a := by grind [PDX]
    have hj : PTX va = PTX a := by grind [PTX]
    have hi' : PDX va < 512 := by grind [PDX]
    refine ⟨f, ?_⟩
    rw [node_pteAt hk, h.pte, if_pos ⟨rfl, hi, hj⟩, ownedFrame, pteFrame_entry hperm, if_pos]
    exact ⟨present_entry _ _, .inl hi', hf⟩

/-- **The loop of `copyuvm`** never misses a page of the parent `k`; the child is process `c`,
whose pages below `i` are there. -/
theorem copyuvmFrom_spec {root1 : Nat → Option Nat} {c : Nat} (hc : root c = none)
    (hroot : root1 = update root c (some d)) (hk : root k = some pgdir)
    (hsz : sz ≤ KERNBASE) (hfill : Filled root s k sz) (hE : E .remap) (hE' : E .kfree) :
    ∀ (n i : Nat) (s₁ : State), Grows L root s root1 s₁ → i % PGSIZE = 0 →
      sz ≤ i + n * PGSIZE → Filled root1 s₁ c (min i sz) →
      wp (copyuvmFrom L pgdir sz d (n + 1) i) (fun r s' => Grows L root s (withDir root c r) s' ∧
        (r ≠ none → Filled (withDir root c r) s' c sz)) E s₁ := by
  have hne : k ≠ c := by rintro rfl; rw [hc] at hk; cases hk
  have hk1 : root1 k = some pgdir := by rw [hroot, update_of_ne hne, hk]
  have hc1 : root1 c = some d := by rw [hroot, update_self]
  intro n
  induction n with
  | zero =>
    intro i s₁ h1 _ hn hfc
    rw [copyuvmFrom, if_neg (by omega)]
    rw [Nat.min_eq_right (by omega)] at hfc
    exact ⟨by rw [withDir, ← hroot]; exact h1, fun _ => by rw [withDir, ← hroot]; exact hfc⟩
  | succ n ih =>
    intro i s₁ h1 hi hn hfc
    rw [copyuvmFrom]
    simp only [KERNBASE, PGSIZE] at hsz hi hn
    refine wp_ite (fun hlt => ?_) fun hlt => ?_
    swap
    · rw [Nat.min_eq_right (by omega)] at hfc
      exact ⟨by rw [withDir, ← hroot]; exact h1, fun _ => by rw [withDir, ← hroot]; exact hfc⟩
    -- the parent's page is there
    obtain ⟨p, hp⟩ := hfill.mono h1 i hlt
    obtain ⟨t, ht, hown⟩ := Shape.node_parent hp
    have hpres : present (s₁.mem t (PTX i)) = true := by
      have := hp
      rw [node_page ht (PDX_lt i) (PTX_lt i), ownedFrame] at this
      split at this
      · next h => exact h.1
      · cases this
    have hbad : ∀ s2, Grows L root s root1 s2 → wp (do freevm L d; pure none)
        (fun r s' => Grows L root s (withDir root c r) s' ∧
          (r ≠ none → Filled (withDir root c r) s' c sz)) E s2 := fun s2 h2 =>
      wp_seq (freevm_spec h2.own hc1 hE') fun _ s3 h3 => ⟨h3.grows hc hroot h2, by simp⟩
    refine wp_seq (walkpgdir_look (s := s₁) hk1 i) ?_
    rintro r s0 ⟨hs0, rfl⟩
    have ht' : node root1 s₁ k [PDX i] = some t := ht
    rw [hs0, ht']
    simp only [Option.map_some, getWord, wp_bind, wp_gets, wp_stopIf, hpres, not_true_eq_false,
      false_implies, true_and, not_false_eq_true, true_implies]
    refine wp_post (kalloc_spec h1.own) fun r s2 h2 => ?_
    cases r with
    | none => exact hbad s2 (h1.trans h2.grows)
    | some f =>
      simp only [setFrame, wp_bind, wp_gets, wp_modify]
      have hperm : PTE_FLAGS (s₁.mem t (PTX i)) < PGSIZE := Nat.mod_lt _ (by decide)
      refine wp_post (h2.map_page hc1 rfl rfl hperm (by lia) (by omega)
        fun _ => hE) ?_
      rintro b s3 ⟨h3, h3'⟩
      cases b with
      | false => exact hbad s3 (h1.trans h3)
      | true =>
        have hmod : (i + PGSIZE) % 2 ^ 32 = i + PGSIZE := by lia
        simp only [if_true, hmod]
        refine ih _ s3 (h1.trans h3) ?_ ?_ ?_
        · lia
        · lia
        · refine h3'.filled hc1 hperm (h2.fresh f rfl).valid.2 ?_ ?_ ?_
          · lia
          · lia
          · exact hfc.mono (h2.fill rfl rfl)

/-- **`copyuvm` never stops on a missing page** when the parent has them all, and then the child
has them all too. It takes nothing away from any process. -/
theorem copyuvm_spec {c : Nat} (hO : Own L root s) (hc : root c = none)
    (hk : root k = some pgdir) (hsz : sz ≤ KERNBASE) (hfill : Filled root s k sz)
    (hE : E .remap) (hE' : E .kfree) :
    wp (copyuvm L pgdir sz) (fun r s' => Grows L root s (withDir root c r) s' ∧
      (r ≠ none → Filled (withDir root c r) s' c sz)) E s := by
  unfold copyuvm
  refine wp_seq (setupkvm_spec hO hc hE) fun r s₁ h1 => ?_
  cases r with
  | none => exact ⟨h1, by simp⟩
  | some d =>
    refine copyuvmFrom_spec hc rfl hk hsz hfill hE hE' (2 ^ 20) 0 s₁ h1 rfl ?_ ?_
    · lia
    · intro va hva; omega

/-! ## `allocuvm` -/

/-- Growing gives and takes pages of the process above its old size only. -/
theorem allocuvmFrom_spec (hk : root k = some pgdir) (hsz : newsz ≤ KERNBASE)
    (hE : ∀ e, E e) : ∀ (fuel a : Nat) (s₁ : State),
      Shrunk L root k (PGROUNDUP oldsz) newsz s s₁ → a % PGSIZE = 0 →
      wp (allocuvmFrom L pgdir oldsz newsz fuel a)
        (fun _ s' => Shrunk L root k (PGROUNDUP oldsz) newsz s s') E s₁ := by
  intro fuel
  induction fuel with
  | zero => intro a s₁ _ _; exact hE _
  | succ fuel ih =>
    intro a s₁ h1 ha
    rw [allocuvmFrom]
    refine wp_ite (fun hlt => ?_) fun _ => h1
    refine wp_seq (kalloc_spec h1.own) fun r s2 h2 => ?_
    have grow : ∀ s3, Grows L root s₁ root s3 →
        Shrunk L root k (PGROUNDUP oldsz) newsz s s3 := fun s3 h3 =>
      ⟨h3.own, fun k' π f hne hf => h3.keep k' π f (h1.keep k' π f hne hf),
        fun g hg => h3.fresh g (h1.fresh g hg)⟩
    cases r with
    | none =>
      refine wp_seq (deallocuvm_spec h2.own hk hsz (.inl (hE _))) fun r s3 h3 => ?_
      exact (grow s2 h2.grows).trans le_rfl h3.2
    | some f =>
      simp only [setFrame, wp_bind, wp_modify]
      simp only [KERNBASE, PGSIZE] at hsz ha
      refine wp_post (h2.map_page hk rfl rfl (by decide) (by lia) (by omega)
        fun _ => hE _) ?_
      rintro b s3 ⟨h3, -⟩
      refine ih _ s3 (grow s3 h3) ?_
      lia

/-- **Growing an address space**, whether it succeeds or not, leaves the other processes and the
pages below the old size alone. -/
theorem allocuvm_spec (hO : Own L root s) (hk : root k = some pgdir) (hE : ∀ e, E e) :
    wp (allocuvm L pgdir oldsz newsz)
      (fun _ s' => Shrunk L root k (PGROUNDUP oldsz) newsz s s') E s := by
  unfold allocuvm
  refine wp_ite (fun _ => .refl hO) fun h => wp_ite (fun _ => .refl hO) fun _ => ?_
  refine allocuvmFrom_spec hk (by omega) hE _ _ s (.refl hO) ?_
  grind [PGROUNDUP]

/-- The page tables missing for `n` pages from `a` on. -/
def missingTables (s : State) (pgdir a n : Nat) : Nat :=
  (((Finset.range n).image fun i => PDX (a + i * PGSIZE)).filter
    fun i => ¬ present (s.mem pgdir i) = true).card

/-- Growing by `n` pages from `a` on can succeed: none of them is present, and there are frames
for the pages and for the missing page tables. The last page is not checked for its table: when
that allocation fails, `allocuvm` does not notice. -/
def Ready (s : State) (pgdir a n : Nat) : Prop :=
  (∀ i < n, ¬ present (pteAt s pgdir (a + i * PGSIZE)) = true) ∧
  (0 < n → n + missingTables s pgdir a (n - 1) ≤ s.freelist.length)

/-- The first page needs its table, the others count on it. -/
theorem missingTables_succ (s' : State) {n : Nat} (hpde : ∀ i, i < 1024 →
    (present (s'.mem pgdir i) = true ↔ present (s.mem pgdir i) = true ∨ i = PDX a)) :
    missingTables s pgdir a (n + 1) =
      (if present (s.mem pgdir (PDX a)) then 0 else 1) +
        missingTables s' pgdir (a + PGSIZE) n := by
  have himage : (Finset.range (n + 1)).image (fun i => PDX (a + i * PGSIZE)) =
      insert (PDX a) ((Finset.range n).image fun i => PDX (a + PGSIZE + i * PGSIZE)) := by
    ext x
    simp only [Finset.mem_insert, Finset.mem_image, Finset.mem_range]
    constructor
    · rintro ⟨_ | i, hi, rfl⟩
      · exact .inl (by simp)
      · exact .inr ⟨i, by omega, by congr 1; ring⟩
    · rintro (rfl | ⟨i, hi, rfl⟩)
      · exact ⟨0, by omega, by simp⟩
      · exact ⟨i + 1, by omega, by congr 1; ring⟩
  have hrest : ((Finset.range n).image fun i => PDX (a + PGSIZE + i * PGSIZE)).filter
        (fun i => ¬ present (s'.mem pgdir i) = true) =
      (((Finset.range n).image fun i => PDX (a + PGSIZE + i * PGSIZE)).filter
        fun i => ¬ present (s.mem pgdir i) = true).erase (PDX a) := by
    ext i
    simp only [Finset.mem_filter, Finset.mem_image, Finset.mem_erase]
    constructor
    · rintro ⟨⟨j, hj, rfl⟩, hi⟩
      rw [hpde _ (PDX_lt _), not_or] at hi
      exact ⟨hi.2, ⟨j, hj, rfl⟩, hi.1⟩
    · rintro ⟨hne, ⟨j, hj, rfl⟩, hi⟩
      exact ⟨⟨j, hj, rfl⟩, by rw [hpde _ (PDX_lt _), not_or]; exact ⟨hi, hne⟩⟩
  rw [missingTables, missingTables, himage, hrest, Finset.filter_insert]
  by_cases hp : present (s.mem pgdir (PDX a)) = true
  · rw [if_neg (not_not.2 hp), if_pos hp, Finset.erase_eq_of_notMem, Nat.zero_add]
    exact fun h => (Finset.mem_filter.1 h).2 hp
  · rw [if_pos hp, if_neg hp, ← Finset.erase_insert_eq_erase]
    have := Finset.card_erase_add_one (Finset.mem_insert_self (PDX a) (Finset.filter
      (fun i => ¬ present (s.mem pgdir i) = true)
      ((Finset.range n).image fun i => PDX (a + PGSIZE + i * PGSIZE))))
    omega

/-- After the first of `n + 1` pages the rest is as ready as the whole was. -/
theorem ready_step {n : Nat} {b : Bool} {w : Nat} (hk : root k = some pgdir)
    (ha : a % PGSIZE = 0) (hlt : a + n * PGSIZE < KERNBASE) {l : List Nat}
    (hl : s.freelist = f :: l) (hl1 : s₁.freelist = l) (hdir : s₁.mem pgdir = s.mem pgdir)
    (hpte1 : ∀ va, pteAt s₁ pgdir va = pteAt s pgdir va) (h : Mapped L root k pgdir a w s₁ b s') :
    Ready s' pgdir (a + PGSIZE) n ↔ Ready s pgdir a (n + 1) := by
  have hpages : (∀ i < n, ¬ present (pteAt s' pgdir (a + PGSIZE + i * PGSIZE)) = true) ↔
      ∀ i < n + 1, ¬ present (pteAt s pgdir (a + i * PGSIZE)) = true := by
    have hsame : ∀ i < n, pteAt s' pgdir (a + PGSIZE + i * PGSIZE) =
        pteAt s pgdir (a + (i + 1) * PGSIZE) := by
      intro i hi
      have e : a + (i + 1) * PGSIZE = a + PGSIZE + i * PGSIZE := by ring
      rw [h.pte, if_neg fun hc => page_ne ha ?_ ?_ hc.2, hpte1, e]
      · lia
      · omega
    constructor
    · rintro hall (_ | i) hi
      · rw [Nat.zero_mul, Nat.add_zero, ← hpte1]
        exact h.absent
      · rw [← hsame i (by omega)]
        exact hall i (by omega)
    · grind
  have hframes : (0 < n → n + missingTables s' pgdir (a + PGSIZE) (n - 1) ≤ s'.freelist.length) ↔
      n + 1 + missingTables s pgdir a n ≤ s.freelist.length := by
    rw [h.freelist, hl1, hdir, hl, List.length_cons]
    cases n with
    | zero => simp [missingTables]
    | succ n =>
      have hres := h.result
      simp only [Nat.add_sub_cancel, Nat.zero_lt_succ, true_implies]
      by_cases hb : b = true
      · -- the table is there now
        rw [missingTables_succ s' fun i hi => ?_]
        · by_cases hpde : present (s.mem pgdir (PDX a)) = true
          · simp only [hpde, if_true]; omega
          · grind
        · rw [present_iff_table hk hi, ← hdir, present_iff_table hk hi]
          by_cases hia : i = PDX a
          · subst hia
            simp [h.table hb]
          · rw [h.other k [i] (by simp [hia])]
            simp [hia]
      · -- out of frames: neither side holds
        grind
  unfold Ready
  rw [hpages, hframes]
  simp

/-- **When the loop of `allocuvm` succeeds**: exactly when its `n` pages are ready. -/
theorem allocuvmFrom_result (hk : root k = some pgdir) (oldsz : Nat) (hsz : newsz < KERNBASE)
    (hpos : 0 < newsz) : ∀ (n m a : Nat) (s : State), Own L root s → a % PGSIZE = 0 →
      newsz ≤ a + n * PGSIZE → (0 < n → a + (n - 1) * PGSIZE < newsz) → n ≤ m →
      wp (allocuvmFrom L pgdir oldsz newsz (m + 1) a)
        (fun r _ => (r = newsz ∧ Ready s pgdir a n) ∨ (r = 0 ∧ ¬ Ready s pgdir a n))
        (fun _ => ¬ Ready s pgdir a n) s := by
  intro n
  induction n with
  | zero =>
    intro m a s _ _ h1 _ _
    rw [allocuvmFrom, if_neg (by omega)]
    exact .inl ⟨rfl, by simp [Ready]⟩
  | succ n ih =>
    intro m a s hO ha h1 h2 hm
    obtain ⟨m, rfl⟩ : ∃ m', m = m' + 1 := ⟨m - 1, by omega⟩
    have hlt : a + n * PGSIZE < newsz := h2 (by omega)
    rw [allocuvmFrom, if_pos (by lia)]
    refine wp_seq (kalloc_spec hO) fun r s₁ h₁ => ?_
    cases r with
    | none =>
      -- whatever `deallocuvm` does, the result is 0
      have hno : ¬ Ready s pgdir a (n + 1) := fun h => by
        have := h.2 (by omega)
        rw [h₁.empty rfl] at this
        simp at this
      exact wp_seq (R := fun _ _ => True) (wp_intro (fun _ _ _ => trivial) fun _ _ => hno)
        fun _ _ _ => .inr ⟨rfl, hno⟩
    | some f =>
      simp only [setFrame, wp_bind, wp_modify]
      simp only [PGSIZE, KERNBASE] at ha hlt h1 hsz
      have hf := h₁.fresh f rfl
      generalize hs2 : ({ s₁ with mem := update s₁.mem f fun _ => 0 } : State) = s2
      have hmem : s2.mem = update s₁.mem f fun _ => 0 := by rw [← hs2]
      have hfree : s2.freelist = s₁.freelist := by rw [← hs2]
      obtain ⟨hdir, hpte⟩ := pteAt_update hk hmem fun k π _ => hf.node k π
      have hpte' : ∀ va, pteAt s2 pgdir va = pteAt s pgdir va := fun va => by
        rw [hpte, pteAt, pteAt, h₁.mem]
      refine wp_post (h₁.map_page hk hmem hfree (by decide) (by lia)
        (by omega) fun hp hready => hready.1 0 (by omega) (by simpa using hp)) ?_
      rintro b s3 ⟨h3, h3'⟩
      have hmod : (a + PGSIZE) % 2 ^ 32 = a + PGSIZE := by lia
      have hstep := ready_step (n := n) (s := s) hk (by lia)
        (by lia) h₁.freelist hfree (by rw [hdir, h₁.mem]) hpte' h3'
      rw [hmod, ← hstep]
      refine ih m _ s3 h3.own ?_ ?_ ?_ (by omega)
      · lia
      · lia
      · intro hn; lia

/-- The pages that growing from `oldsz` to `newsz` adds. -/
def newPages (oldsz newsz : Nat) : Nat := (newsz - PGROUNDUP oldsz + (PGSIZE - 1)) / PGSIZE

/-- **When growing succeeds**: exactly when the new size is below `KERNBASE` and the new pages
are ready; otherwise the result is 0, or `mappages` stops on a page that is there already. -/
theorem allocuvm_result (hO : Own L root s) (hk : root k = some pgdir) (oldsz newsz : Nat)
    (hle : oldsz ≤ newsz) (hpos : 0 < newsz) : wp (allocuvm L pgdir oldsz newsz)
      (fun r _ =>
        (r = newsz ∧ newsz < KERNBASE ∧
          Ready s pgdir (PGROUNDUP oldsz) (newPages oldsz newsz)) ∨
        (r = 0 ∧ ¬ (newsz < KERNBASE ∧
          Ready s pgdir (PGROUNDUP oldsz) (newPages oldsz newsz))))
      (fun _ => ¬ (newsz < KERNBASE ∧
        Ready s pgdir (PGROUNDUP oldsz) (newPages oldsz newsz))) s := by
  unfold allocuvm
  refine wp_ite (fun h => .inr ⟨rfl, fun hc => absurd hc.1 (by omega)⟩) fun h => ?_
  rw [if_neg (by omega)]
  have hlt : newsz < KERNBASE := by omega
  have hup : PGROUNDUP oldsz % PGSIZE = 0 := by grind [PGROUNDUP]
  refine wp_mono (allocuvmFrom_result hk oldsz hlt hpos (newPages oldsz newsz) (2 ^ 20)
    (PGROUNDUP oldsz) s hO hup ?_ ?_ ?_) ?_ ?_
  · grind [newPages]
  · grind [newPages]
  · grind [newPages]
  · grind
  · exact fun _ hr hc => hr hc.2

end

end Dixv6.Vm
