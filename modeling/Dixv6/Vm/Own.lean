import Mathlib.Tactic.Ring
import Dixv6.Lib.Forest
import Dixv6.Vm.Proc

/-!
# Who owns which frame

The page directories, page tables and user pages of all processes form a forest in physical
memory (`shape`), and `Own` is the allocator's invariant over it: no frame is found twice, none
that is found is on the free list, and all of them are frames that `kfree` accepts. The mappings
of the kernel's part that no user can reach own nothing, and neither does an entry that names no
memory, which the page-fault handler writes when memory has run out.

Each function gets one specification: `kalloc_spec`, `walkpgdir_spec`, `mappage_spec`,
`mappages_page_spec`, `deallocuvm_spec`, `freevm_spec`. They say which entries of which process
change and what happens to the free list, and that `Own` survives.
-/

namespace Dixv6.Vm

open Lib Function

/-! ## Entries -/

theorem present_entry (pa perm : Nat) : present (pa ||| perm ||| PTE_P) = true := by
  simp [present]

variable {perm va a : Nat} {c : Nat → Nat}

theorem pteFrame_entry {f : Nat} (h : perm < PGSIZE) :
    pteFrame (f * PGSIZE ||| perm ||| PTE_P) = f := by
  have h1 : (f * 2 ^ 12 ||| perm ||| 1) / 2 ^ 12 = f := by
    rw [Nat.or_div_two_pow, Nat.or_div_two_pow, Nat.mul_div_cancel _ (by decide),
      Nat.div_eq_of_lt h]
    simp
  exact h1

theorem user_entry {f : Nat} : user (f * PGSIZE ||| perm ||| PTE_P) = user perm := by
  have h1 : (f * 2 ^ 12).testBit 2 = false := by
    rw [Nat.testBit_mul_two_pow]; rfl
  have h2 : Nat.testBit 1 2 = false := rfl
  have h3 : (f * PGSIZE).testBit 2 = false := h1
  simp only [user, Nat.testBit_or, h3, h2, Bool.false_or, Bool.or_false]

theorem pde_entry (f : Nat) : present (f * PGSIZE ||| PTE_P ||| PTE_W ||| PTE_U) = true ∧
    pteFrame (f * PGSIZE ||| PTE_P ||| PTE_W ||| PTE_U) = f := by
  have h : f * PGSIZE ||| PTE_P ||| PTE_W ||| PTE_U = f * PGSIZE ||| 7 ||| PTE_P := by
    simp only [Nat.or_assoc]
    rfl
  rw [h]
  exact ⟨present_entry _ _, pteFrame_entry (by decide)⟩

/-- The value of a `uint` expression, from its value before the wrap. -/
theorem uint_eq {x : Int} {n : Nat} (c : Int) (h : x = n + c * 2 ^ 32) (hn : n < 2 ^ 32) :
    uint x = n := by
  have hlt : (n : Int) < 2 ^ 32 := by exact_mod_cast hn
  rw [uint, h, Int.add_mul_emod_self_right, Int.emod_eq_of_lt (by omega) hlt, Int.toNat_natCast]

theorem PDX_lt (va : Nat) : PDX va < 1024 := Nat.mod_lt _ (by decide)

theorem PTX_lt (va : Nat) : PTX va < 1024 := Nat.mod_lt _ (by decide)

theorem same_page (hva : va < 2 ^ 32) (ha : a < 2 ^ 32) :
    (PDX va = PDX a ∧ PTX va = PTX a) ↔ va / PGSIZE = a / PGSIZE := by
  simp only [PDX, PTX, PGSIZE]; omega

/-! ## The forest -/

/-- The frame that the entry `w` for the page `[j, i]` owns: below `KERNBASE` any page, above it
only what a user can reach. -/
def ownedFrame (i w : Nat) : Option Nat :=
  if present w ∧ (i < 512 ∨ user w) ∧ pteFrame w < NFRAMES then some (pteFrame w) else none

/-- Page directories at `[]`, page tables at `[i]`, pages at `[j, i]`. -/
def shape : Shape Nat (Nat → Nat) where
  entry _ π c := match π with
    | [i] => if i < NPDENTRIES ∧ present (c i) then some (pteFrame (c i)) else none
    | [j, i] => if i < NPDENTRIES ∧ j < NPTENTRIES then ownedFrame i (c j) else none
    | _ => none
  inner _ π := π.length < 2
  entry_inner _ π j c h := by
    match π with
    | [] => simp at h
    | [_] => simp at h
    | _ :: _ :: _ => rfl

/-- The frame at a position of the forest. -/
abbrev node (root : Nat → Option Nat) (s : State) : Nat → List Nat → Option Nat :=
  shape.node root s.mem

/-- The allocator's invariant: `root` gives the page directory of each process. -/
structure Own (L : Layout) (root : Nat → Option Nat) (s : State) : Prop where
  nodup : s.freelist.Nodup
  free : ∀ f ∈ s.freelist, L.kend ≤ f ∧ f < NFRAMES
  distinct : shape.Distinct root s.mem
  notfree : ∀ k π f, node root s k π = some f → f ∉ s.freelist
  valid : ∀ k π f, node root s k π = some f → L.kend ≤ f ∧ f < NFRAMES

/-- A frame that is in use but not in the forest. -/
structure Fresh (L : Layout) (root : Nat → Option Nat) (s : State) (f : Nat) : Prop where
  free : f ∉ s.freelist
  node : ∀ k π, node root s k π ≠ some f
  valid : L.kend ≤ f ∧ f < NFRAMES

section
variable {L : Layout} {root : Nat → Option Nat} {s s' : State} {k pgdir i j t f : Nat}

theorem node_table (hk : root k = some pgdir) (hi : i < 1024) : node root s k [i] =
      if present (s.mem pgdir i) then some (pteFrame (s.mem pgdir i)) else none := by
  have h : node root s k [] = some pgdir := hk
  rw [node, Shape.node_child h]
  simp [shape, NPDENTRIES, hi]

theorem node_page (ht : node root s k [i] = some t) (hi : i < 1024) (hj : j < 1024) :
    node root s k [j, i] = ownedFrame i (s.mem t j) := by
  rw [node, Shape.node_child ht]
  simp [shape, NPDENTRIES, NPTENTRIES, hi, hj]

/-- The entry for an address, read through the forest. -/
theorem pteAt_of_table (hk : root k = some pgdir) (ht : node root s k [PDX va] = some t) :
    pteAt s pgdir va = s.mem t (PTX va) := by
  rw [node_table hk (PDX_lt va)] at ht
  split at ht
  · next h => rw [pteAt, if_pos h, Option.some.inj ht]
  · cases ht

theorem pteAt_of_no_table (hk : root k = some pgdir) (ht : node root s k [PDX va] = none) :
    pteAt s pgdir va = 0 := by
  rw [node_table hk (PDX_lt va)] at ht
  split at ht
  · cases ht
  · next h => rw [pteAt, if_neg h]

/-- While its frames keep their contents, an address space keeps its entries. -/
theorem pteAt_same (hk : root k = some pgdir)
    (h : ∀ π g, node root s k π = some g → s'.mem g = s.mem g) (va : Nat) :
    pteAt s' pgdir va = pteAt s pgdir va := by
  rw [pteAt, pteAt, h [] pgdir hk]
  split
  · next hp => rw [h [PDX va] _ (by rw [node_table hk (PDX_lt va), if_pos hp])]
  · rfl

/-- The frame a page of the process owns is what its entry says. -/
theorem node_pteAt (hk : root k = some pgdir) (va : Nat) :
    node root s k [PTX va, PDX va] = ownedFrame (PDX va) (pteAt s pgdir va) := by
  cases ht : node root s k [PDX va] with
  | none =>
    rw [pteAt_of_no_table hk ht, node, Shape.node_cons_none ht]
    rfl
  | some t => rw [pteAt_of_table hk ht, node_page ht (PDX_lt va) (PTX_lt va)]

/-- The entries of a process live in its page directory and its page tables. -/
theorem pteAt_update (hk : root k = some pgdir) (hmem : s'.mem = update s.mem f c)
    (hf : ∀ k π, shape.inner k π → node root s k π ≠ some f) :
    s'.mem pgdir = s.mem pgdir ∧ ∀ va, pteAt s' pgdir va = pteAt s pgdir va := by
  have hdir : s'.mem pgdir = s.mem pgdir := by
    rw [hmem, update_of_ne]
    rintro rfl
    exact hf k [] (by simp [shape]) hk
  refine ⟨hdir, fun va => ?_⟩
  rw [pteAt, pteAt, hdir]
  split
  · next h =>
    rw [hmem, update_of_ne]
    intro e
    exact hf k [PDX va] (by simp [shape]) (by rw [node_table hk (PDX_lt va), if_pos h, e])
  · rfl

/-- A change of one frame at no inner position keeps the invariant and every position. -/
theorem Own.put (hO : Own L root s) (s' : State) (hmem : ∃ c, s'.mem = update s.mem f c)
    (hfree : s'.freelist = s.freelist) (hf : ∀ k π, shape.inner k π → node root s k π ≠ some f) :
    (∀ k π, node root s' k π = node root s k π) ∧ Own L root s' := by
  obtain ⟨c, hc⟩ := hmem
  have hn : ∀ k π, node root s' k π = node root s k π := fun k π => by
    rw [node, node, hc]
    exact Shape.node_update_store hf k π
  refine ⟨hn, hfree ▸ hO.nodup, hfree ▸ hO.free, ?_, ?_, ?_⟩
  · exact hO.distinct.mono fun k π _ h => (hn k π).symm.trans h
  · intro k π f h
    rw [hfree]
    exact hO.notfree k π f (hn k π ▸ h)
  · intro k π f h
    exact hO.valid k π f (hn k π ▸ h)

/-- A frame taken from the free list. -/
theorem Own.take (hO : Own L root s) (s' : State) {l : List Nat} (hl : s.freelist = f :: l)
    (hmem : s'.mem = s.mem) (hfree : s'.freelist = l) : Own L root s' ∧ Fresh L root s' f := by
  have hnd := hO.nodup
  rw [hl, List.nodup_cons] at hnd
  have hmemf : f ∈ s.freelist := by rw [hl]; exact List.mem_cons_self
  have hn : ∀ k π, node root s' k π = node root s k π := fun k π => by rw [node, node, hmem]
  refine ⟨⟨hfree ▸ hnd.2, ?_, by rw [hmem]; exact hO.distinct, ?_, ?_⟩, ⟨hfree ▸ hnd.1, ?_, ?_⟩⟩
  · intro g hg
    exact hO.free g (by rw [hl]; exact List.mem_cons_of_mem _ (hfree ▸ hg))
  · intro k π g hg hmem'
    exact hO.notfree k π g (hn k π ▸ hg) (by rw [hl]; exact List.mem_cons_of_mem _ (hfree ▸ hmem'))
  · intro k π g hg
    exact hO.valid k π g (hn k π ▸ hg)
  · intro k π h
    exact hO.notfree k π f (hn k π ▸ h) hmemf
  · exact hO.free f hmemf

/-- A fresh frame given back: any contents, on the front of the free list. -/
theorem Own.give (hO : Own L root s) (s' : State) (hf : Fresh L root s f)
    (hmem : ∃ c, s'.mem = update s.mem f c) (hfree : s'.freelist = f :: s.freelist) :
    (∀ k π, node root s' k π = node root s k π) ∧ Own L root s' := by
  obtain ⟨c, hc⟩ := hmem
  have hn : ∀ k π, node root s' k π = node root s k π := fun k π => by
    rw [node, node, hc]
    exact Shape.node_update_store (fun k π _ => hf.node k π) k π
  refine ⟨hn, ?_, ?_, ?_, ?_, ?_⟩
  · rw [hfree]
    exact List.nodup_cons.2 ⟨hf.free, hO.nodup⟩
  · intro g hg
    rw [hfree] at hg
    rcases List.mem_cons.1 hg with rfl | hg
    · exact hf.valid
    · exact hO.free g hg
  · exact hO.distinct.mono fun k π _ h => (hn k π).symm.trans h
  · intro k π g hg hmem'
    rw [hn] at hg
    rw [hfree] at hmem'
    rcases List.mem_cons.1 hmem' with rfl | hmem'
    · exact hf.node k π hg
    · exact hO.notfree k π g hg hmem'
  · intro k π g hg
    exact hO.valid k π g (hn k π ▸ hg)

/-- One entry of a directory or of a table rewritten, with nothing below it before and after. The
frame it names now, if any, must be fresh. -/
theorem Own.set_entry (hO : Own L root s) (s' : State) {π : List Nat}
    (ha : node root s k π = some a) (hmem : s'.mem = update s.mem a c)
    (hfree : s'.freelist = s.freelist)
    (hother : ∀ x, x ≠ j → shape.entry k (x :: π) c = shape.entry k (x :: π) (s.mem a))
    (hbelow : ∀ x, node root s k (x :: j :: π) = none)
    (hempty : ∀ x b, shape.entry k (j :: π) c = some b →
      shape.entry k (x :: j :: π) (update s.mem a c b) = none)
    (hfresh : ∀ f, shape.entry k (j :: π) c = some f → Fresh L root s f) :
    (∀ k' π', node root s' k' π' =
      if k' = k ∧ π' = j :: π then shape.entry k (j :: π) c else node root s k' π') ∧
    Own L root s' := by
  have hn : ∀ k' π', node root s' k' π' =
      if k' = k ∧ π' = j :: π then shape.entry k (j :: π) c else node root s k' π' := by
    intro k' π'
    rw [node, hmem]
    exact Shape.node_set_child hO.distinct ha hother hbelow hempty k' π'
  -- a frame found afterwards was found before, or is the fresh one
  have hcases : ∀ k' π' f, node root s' k' π' = some f →
      node root s k' π' = some f ∨ Fresh L root s f := by
    intro k' π' f h
    rw [hn] at h
    split at h
    · exact .inr (hfresh f h)
    · exact .inl h
  refine ⟨hn, hfree ▸ hO.nodup, hfree ▸ hO.free, ?_, ?_, ?_⟩
  · cases hc : shape.entry k (j :: π) c with
    | none =>
      refine hO.distinct.mono fun k' π' x h => ?_
      have h' := (hn k' π').symm.trans h
      rw [hc] at h'
      split at h'
      · cases h'
      · exact h'
    | some b =>
      refine hO.distinct.fill (P := fun k' π' => k' = k ∧ π' = j :: π) ?_
        (hfresh b hc).node fun k' π' => ?_
      · grind
      · rw [← hc]
        exact hn k' π'
  · intro k' π' f h
    rw [hfree]
    rcases hcases k' π' f h with h | h
    · exact hO.notfree k' π' f h
    · exact h.free
  · intro k' π' f h
    rcases hcases k' π' f h with h | h
    · exact hO.valid k' π' f h
    · exact h.valid

end

/-! ## Specifications of the allocator and of the walk -/

section
variable {L : Layout} {root : Nat → Option Nat} {s s' s1 : State} {k pgdir t f pa : Nat}
  {E : Stop → Prop}

/-- What `kalloc` does. -/
structure Taken (L : Layout) (root : Nat → Option Nat) (s : State) (r : Option Nat) (s' : State) :
    Prop where
  mem : s'.mem = s.mem
  own : Own L root s'
  freelist : s.freelist = r.toList ++ s'.freelist
  fresh : ∀ f, r = some f → Fresh L root s' f
  empty : r = none → s.freelist = []

theorem kalloc_spec (hO : Own L root s) : wp kalloc (Taken L root s) E s := by
  unfold wp kalloc
  cases hl : s.freelist with
  | nil => exact ⟨rfl, hO, by simp [hl], by simp, fun _ => hl⟩
  | cons f l =>
    obtain ⟨h, hf⟩ := hO.take { s with freelist := l } hl rfl rfl
    refine ⟨rfl, h, hl, ?_, by simp⟩
    rintro _ ⟨⟩
    exact hf

/-- Without an invariant: `kalloc` leaves memory alone and gives a frame of the free list. -/
theorem kalloc_mem :
    wp kalloc (fun r s' => s'.mem = s.mem ∧ ∀ f, r = some f → f ∈ s.freelist) E s := by
  unfold wp kalloc
  cases hl : s.freelist with
  | nil => exact ⟨rfl, by simp⟩
  | cons f l => exact ⟨rfl, by rintro _ ⟨⟩; exact List.mem_cons_self⟩

/-- `kfree` of a fresh frame does not stop. -/
theorem kfree_spec (hO : Own L root s) (hf : Fresh L root s f) :
    wp (kfree L f) (fun _ s' => s'.freelist = f :: s.freelist ∧
      (∃ c, s'.mem = update s.mem f c) ∧
      (∀ k π, node root s' k π = node root s k π) ∧ Own L root s') E s := by
  have hv : ¬ (f < L.kend ∨ NFRAMES ≤ f) := by have := hf.valid; omega
  simp only [kfree, setFrame, wp_bind, wp_stopIf, wp_modify, hv, false_implies, not_false_eq_true,
    true_implies, true_and]
  exact ⟨⟨_, rfl⟩, hO.give _ hf ⟨_, rfl⟩ rfl⟩

/-- What a walk that may allocate does when it finds the table `t`. -/
structure Walked (L : Layout) (root : Nat → Option Nat) (k pgdir va : Nat) (s : State) (t : Nat)
    (s' : State) : Prop where
  own : Own L root s'
  table : node root s' k [PDX va] = some t
  other : ∀ k' π, ¬ (k' = k ∧ π = [PDX va]) → node root s' k' π = node root s k' π
  keep : ∀ k' π f, node root s k' π = some f → node root s' k' π = some f
  pte : ∀ va', pteAt s' pgdir va' = pteAt s pgdir va'
  freelist : s'.freelist =
    if present (s.mem pgdir (PDX va)) then s.freelist else s.freelist.tail
  had : present (s.mem pgdir (PDX va)) = true ∨ s.freelist ≠ []
  fresh : ∀ f, Fresh L root s f → Fresh L root s' f

/-- A table that is there is found without a change. -/
theorem Walked.refl (hO : Own L root s) (hk : root k = some pgdir)
    (hp : present (s.mem pgdir (PDX va)) = true) :
    Walked L root k pgdir va s (pteFrame (s.mem pgdir (PDX va))) s where
  own := hO
  table := by rw [node_table hk (PDX_lt va), if_pos hp]
  other _ _ _ := rfl
  keep _ _ _ h := h
  pte _ := rfl
  freelist := by rw [if_pos hp]
  had := .inl hp
  fresh _ h := h

/-- A fresh frame hung into the directory as an empty page table. -/
theorem Walked.new (hO : Own L root s) (hk : root k = some pgdir)
    (hp : ¬ present (s.mem pgdir (PDX va)) = true) (h1 : Taken L root s (some t) s1) (hmem : s'.mem =
      update (update s1.mem t fun _ => 0) pgdir c)
    (hc : c = update (s.mem pgdir) (PDX va) (t * PGSIZE ||| PTE_P ||| PTE_W ||| PTE_U))
    (hfree : s'.freelist = s1.freelist) : Walked L root k pgdir va s t s' := by
  have hft : Fresh L root s1 t := h1.fresh t rfl
  have hdir : ∀ x : State, node root x k [] = some pgdir := fun _ => hk
  have htp : t ≠ pgdir := fun e => hft.node k [] (e ▸ hk)
  have hs : s.freelist = t :: s1.freelist := h1.freelist
  -- the page is zeroed first, which changes nothing in the forest
  obtain ⟨hn2, hO2⟩ := h1.own.put ⟨update s1.mem t fun _ => 0, s1.freelist⟩
    ⟨_, rfl⟩ rfl (fun k π _ => hft.node k π)
  have hn1 : ∀ k π, node root s1 k π = node root s k π := fun k π => by rw [node, node, h1.mem]
  have hnone : node root s k [PDX va] = none := by rw [node_table hk (PDX_lt va), if_neg hp]
  have hentry : shape.entry k [PDX va] c = some t := by
    simp [shape, hc, pde_entry, NPDENTRIES, PDX_lt]
  obtain ⟨hn, hO'⟩ := hO2.set_entry s' (j := PDX va) (hdir _) hmem hfree
    (by
      intro x hx
      simp [shape, hc, update_of_ne hx, update_of_ne htp.symm, h1.mem])
    (fun x => Shape.node_cons_none ((hn2 _ _).trans ((hn1 _ _).trans hnone)))
    (by
      intro x b hb
      rw [hentry] at hb
      obtain rfl := Option.some.inj hb
      simp [shape, ownedFrame, present, update_of_ne htp])
    (by
      intro f hf
      rw [hentry] at hf
      obtain rfl := Option.some.inj hf
      exact ⟨hft.free, fun k π => by rw [hn2]; exact hft.node k π, hft.valid⟩)
  rw [hentry] at hn
  have hold : ∀ k' π, ¬ (k' = k ∧ π = [PDX va]) → node root s' k' π = node root s k' π :=
    fun k' π h => by rw [hn, if_neg h, hn2, hn1]
  refine ⟨hO', by rw [hn, if_pos ⟨rfl, rfl⟩], hold, ?_, ?_, ?_, .inr (by simp [hs]), ?_⟩
  · intro k' π f h
    rw [hold k' π, h]
    rintro ⟨rfl, rfl⟩
    rw [hnone] at h; cases h
  · intro va'
    by_cases hi : PDX va' = PDX va
    · -- the new table is empty
      have ht' : node root s' k [PDX va'] = some t := by rw [hi, hn, if_pos ⟨rfl, rfl⟩]
      rw [pteAt_of_table hk ht', pteAt_of_no_table hk (hi ▸ hnone), hmem,
        update_of_ne htp, update_self]
    · have hne : ¬ (k = k ∧ [PDX va'] = [PDX va]) := fun e => hi (List.cons.inj e.2).1
      cases hx : node root s k [PDX va'] with
      | none => rw [pteAt_of_no_table hk ((hold _ _ hne).trans hx), pteAt_of_no_table hk hx]
      | some x =>
        have hxt : x ≠ t := fun e => hft.node k [PDX va'] (by rw [hn1, hx, e])
        have hxp : x ≠ pgdir := fun e => by
          have := (hO.distinct k [PDX va'] k [] pgdir (e ▸ hx) hk).2
          cases this
        rw [pteAt_of_table hk ((hold _ _ hne).trans hx), pteAt_of_table hk hx, hmem,
          update_of_ne hxp, update_of_ne hxt, h1.mem]
  · rw [if_neg hp, hfree, hs, List.tail_cons]
  · intro f hf
    have hft' : f ≠ t := fun e => hf.free (by rw [hs, e]; exact List.mem_cons_self)
    refine ⟨?_, ?_, hf.valid⟩
    · rw [hfree]
      exact fun h => hf.free (by rw [hs]; exact List.mem_cons_of_mem _ h)
    · intro k' π h
      rw [hn] at h
      split at h
      · exact hft' (Option.some.inj h).symm
      · rw [hn2, hn1] at h
        exact hf.node k' π h

/-- **The walk that may allocate** finds the table of `va`, or there is no frame for it. -/
theorem walkpgdir_spec (hO : Own L root s) (hk : root k = some pgdir) (va : Nat) :
    wp (walkpgdir pgdir va true) (fun r s' =>
      (∃ t, r = some (t, PTX va) ∧ Walked L root k pgdir va s t s') ∨
      (r = none ∧ s' = s ∧ s.freelist = [] ∧ ¬ present (s.mem pgdir (PDX va)) = true)) E s := by
  refine wp_ite (fun hp => ?_) fun hp => ?_
  · exact .inl ⟨_, rfl, Walked.refl hO hk hp⟩
  · simp only [if_true]
    rw [wp_bind]
    refine wp_post (kalloc_spec hO) fun r s1 h1 => ?_
    cases r with
    | none =>
      have hs : s1 = s := by
        have := h1.mem; have := h1.freelist
        cases s1; cases s
        simp_all
      exact .inr ⟨rfl, hs, h1.empty rfl, hp⟩
    | some t =>
      refine .inl ⟨t, rfl, Walked.new hO hk hp h1 rfl ?_ rfl⟩
      have htp : t ≠ pgdir := fun e => (h1.fresh t rfl).node k [] (e ▸ hk)
      simp [update_of_ne htp.symm, h1.mem]

/-- What mapping one page does: `b` says whether there was a page table for it. -/
structure Mapped (L : Layout) (root : Nat → Option Nat) (k pgdir a w : Nat) (s : State) (b : Bool)
    (s' : State) : Prop where
  own : Own L root s'
  absent : ¬ present (pteAt s pgdir a) = true
  table : b = true → ∃ t, node root s' k [PDX a] = some t
  other : ∀ k' π, ¬ (k' = k ∧ (π = [PDX a] ∨ π = [PTX a, PDX a])) →
    node root s' k' π = node root s k' π
  keep : ∀ k' π f, node root s k' π = some f → node root s' k' π = some f
  pte : ∀ va, pteAt s' pgdir va =
    if b = true ∧ PDX va = PDX a ∧ PTX va = PTX a then w else pteAt s pgdir va
  freelist : s'.freelist =
    if present (s.mem pgdir (PDX a)) then s.freelist else s.freelist.tail
  result : b = true ↔ present (s.mem pgdir (PDX a)) = true ∨ s.freelist ≠ []
  fresh : ∀ g, Fresh L root s g → ownedFrame (PDX a) w ≠ some g → Fresh L root s' g

/-- The entry written after the walk. -/
theorem Walked.mapped {w : Nat} (hk : root k = some pgdir)
    (h1 : Walked L root k pgdir a s t s1) (hp : ¬ present (s1.mem t (PTX a)) = true)
    (hw : ∀ f, ownedFrame (PDX a) w = some f → Fresh L root s f)
    (hmem : s'.mem = update s1.mem t (update (s1.mem t) (PTX a) w))
    (hfree : s'.freelist = s1.freelist) : Mapped L root k pgdir a w s true s' := by
  have hentry : shape.entry k [PTX a, PDX a] (update (s1.mem t) (PTX a) w) =
      ownedFrame (PDX a) w := by simp [shape, NPDENTRIES, NPTENTRIES, PDX_lt, PTX_lt]
  obtain ⟨hn, hO'⟩ := h1.own.set_entry s' (j := PTX a) h1.table hmem hfree
    (by intro x hx; simp [shape, update_of_ne hx])
    (by
      intro x
      rw [node, Shape.node]
      cases Shape.node shape root s1.mem k [PTX a, PDX a] <;> rfl)
    (fun _ _ _ => rfl)
    (by intro f hf; rw [hentry] at hf; exact h1.fresh f (hw f hf))
  rw [hentry] at hn
  have hnone : node root s1 k [PTX a, PDX a] = none := by
    rw [node_page h1.table (PDX_lt a) (PTX_lt a), ownedFrame, if_neg (fun h => hp h.1)]
  have hoth : ∀ k' π, ¬ (k' = k ∧ (π = [PDX a] ∨ π = [PTX a, PDX a])) →
      node root s' k' π = node root s k' π := by
    intro k' π h
    rw [hn, if_neg (fun e => h ⟨e.1, .inr e.2⟩), h1.other k' π (fun e => h ⟨e.1, .inl e.2⟩)]
  have htab : ∀ i, node root s' k [i] = node root s1 k [i] := fun i => by
    rw [hn, if_neg (by simp)]
  have habs : ¬ present (pteAt s pgdir a) = true := by
    rw [← h1.pte, pteAt_of_table hk h1.table]; exact hp
  refine ⟨hO', habs, fun _ => ⟨t, (htab _).trans h1.table⟩, hoth, ?_, ?_, hfree ▸ h1.freelist, ?_, ?_⟩
  · intro k' π f h
    rw [hn, if_neg, h1.keep k' π f h]
    rintro ⟨rfl, rfl⟩
    rw [h1.keep _ _ f h] at hnone; cases hnone
  · intro va
    rw [← h1.pte va]
    by_cases hi : PDX va = PDX a
    · have ht : node root s1 k [PDX va] = some t := hi ▸ h1.table
      rw [pteAt_of_table hk ((htab _).trans ht), pteAt_of_table hk ht, hmem,
        update_self]
      by_cases hj : PTX va = PTX a
      · simp [hi, hj]
      · simp [hj]
    · rw [if_neg (fun e => hi e.2.1)]
      cases hx : node root s1 k [PDX va] with
      | none => rw [pteAt_of_no_table hk ((htab _).trans hx), pteAt_of_no_table hk hx]
      | some x =>
        have hxt : x ≠ t := fun e => hi
          (List.cons.inj (h1.own.distinct k _ k _ t (e ▸ hx) h1.table).2).1
        rw [pteAt_of_table hk ((htab _).trans hx), pteAt_of_table hk hx, hmem,
          update_of_ne hxt]
  · simp [h1.had]
  · intro g hg hgw
    have hg1 := h1.fresh g hg
    refine ⟨hfree ▸ hg1.free, ?_, hg.valid⟩
    intro k' π h
    rw [hn] at h
    split at h
    · exact hgw h
    · exact hg1.node k' π h

/-- **Mapping one page.** It stops with `remap` only on a page that is present. The frame that
the new entry owns, if any, must be fresh. -/
theorem mappage_spec (hO : Own L root s) (hk : root k = some pgdir)
    (hw : ∀ f, ownedFrame (PDX a) (pa ||| perm ||| PTE_P) = some f → Fresh L root s f)
    (hE : present (pteAt s pgdir a) = true → E .remap) : wp (mappage pgdir a pa perm)
      (Mapped L root k pgdir a (pa ||| perm ||| PTE_P) s) E s := by
  unfold mappage
  refine wp_seq (walkpgdir_spec hO hk a) ?_
  rintro r s1 (⟨t, rfl, h1⟩ | ⟨rfl, rfl, hempty, hp⟩)
  · have hpte : s1.mem t (PTX a) = pteAt s pgdir a := by
      rw [← h1.pte, pteAt_of_table hk h1.table]
    simp only [getWord, setWord, wp_bind, wp_gets, wp_stopIf, wp_modify, wp_pure]
    exact ⟨fun h => hE (hpte ▸ h), fun h => h1.mapped hk h hw rfl rfl⟩
  · refine ⟨hO, by rw [pteAt, if_neg hp]; decide, by simp, fun _ _ _ => rfl, fun _ _ _ h => h, by simp, ?_, by simp [hp, hempty],
      fun g hg _ => hg⟩
    simp [hp, hempty]

/-- Mapping a page stores to no frame but the directory, its tables and free ones. -/
theorem mappage_mem (hk : root k = some pgdir) {g : Nat} (hfree : g ∉ s.freelist)
    (hg : ∀ π, shape.inner k π → node root s k π ≠ some g) :
    wp (mappage pgdir a pa perm) (fun _ s' => s'.mem g = s.mem g) (fun _ => True) s := by
  have hdir : g ≠ pgdir := fun e => hg [] (by simp [shape]) (e ▸ hk)
  unfold mappage
  simp only [walkpgdir, getWord, wp_bind, wp_gets]
  refine wp_ite (fun hp => ?_) fun hp => ?_
  · have ht : g ≠ pteFrame (s.mem pgdir (PDX a)) := fun e =>
      hg [PDX a] (by simp [shape]) (by rw [node_table hk (PDX_lt a), if_pos hp, e])
    simp [setWord, ht]
  · simp only [if_true, wp_bind]
    refine wp_post kalloc_mem fun r s1 h1 => ?_
    cases r with
    | none => rw [← h1.1]; rfl
    | some t =>
      have ht : g ≠ t := fun e => hfree (e ▸ h1.2 t rfl)
      simp [setFrame, setWord, ht, hdir, h1.1]

theorem mappages_page (h : va % PGSIZE = 0) (hlt : va < 2 ^ 32) :
    mappages pgdir va PGSIZE pa perm = mappage pgdir va pa perm := by
  simp only [PGSIZE] at h
  have h1 : PGROUNDDOWN va = va := by grind [PGROUNDDOWN]
  have h3 : PGROUNDDOWN (va + 4095) = va := by grind [PGROUNDDOWN]
  have h2 : uint (va + PGSIZE - 1) = va + 4095 :=
    uint_eq 0 (by simp only [PGSIZE]; push_cast; ring) (by omega)
  have h4 : uint ((va : Int) - va) = 0 := uint_eq 0 (by ring) (by decide)
  simp only [mappages, h1, h2, h3, h4, Nat.zero_div]
  rfl

/-! ## What keeps everything -/

/-- The invariant holds afterwards, nothing of the forest went away, and frames that were held
outside it still are. The processes may be others than before. -/
structure Grows (L : Layout) (root : Nat → Option Nat) (s : State) (root' : Nat → Option Nat)
    (s' : State) : Prop where
  own : Own L root' s'
  keep : ∀ k π f, node root s k π = some f → node root' s' k π = some f
  fresh : ∀ g, Fresh L root s g → Fresh L root' s' g

theorem Grows.refl (hO : Own L root s) : Grows L root s root s :=
  ⟨hO, fun _ _ _ h => h, fun _ h => h⟩

theorem Grows.trans {root1 root2 : Nat → Option Nat} {s2 : State}
    (h : Grows L root s root1 s1) (h' : Grows L root1 s1 root2 s2) : Grows L root s root2 s2 :=
  ⟨h'.own, fun k π f hf => h'.keep k π f (h.keep k π f hf), fun g hg => h'.fresh g (h.fresh g hg)⟩

/-- Taking a frame. -/
theorem Taken.grows {r : Option Nat} (h : Taken L root s r s') : Grows L root s root s' where
  own := h.own
  keep k π f hf := by rw [node, h.mem]; exact hf
  fresh g hg := by
    refine ⟨fun hm => hg.free ?_, fun k π hn => hg.node k π ?_, hg.valid⟩
    · rw [h.freelist]; exact List.mem_append_right _ hm
    · rw [node, h.mem] at hn; exact hn

/-- The frame just taken was not held by anybody. -/
theorem Taken.ne {r : Option Nat} {g : Nat} (h : Taken L root s r s') (hr : r = some f)
    (hg : Fresh L root s g) : g ≠ f := by
  rintro rfl
  exact hg.free (by rw [h.freelist, hr]; exact List.mem_cons_self)

/-- Writing a frame outside the inner positions. -/
theorem Grows.of_update (hO : Own L root s) (hmem : ∃ c, s'.mem = update s.mem f c)
    (hfree : s'.freelist = s.freelist)
    (hf : ∀ k π, shape.inner k π → node root s k π ≠ some f) : Grows L root s root s' := by
  obtain ⟨hn, hO'⟩ := hO.put s' hmem hfree hf
  exact ⟨hO', fun k π g hg => (hn k π).trans hg,
    fun g hg => ⟨hfree ▸ hg.free, fun k π => hn k π ▸ hg.node k π, hg.valid⟩⟩

/-- Mapping a page that owns no frame. -/
theorem Mapped.grows {w : Nat} {b : Bool} (h : Mapped L root k pgdir a w s b s')
    (hw : ownedFrame (PDX a) w = none) : Grows L root s root s' :=
  ⟨h.own, h.keep, fun g hg => h.fresh g hg (by simp [hw])⟩

/-! ## The kernel's mappings -/

/-- Mapping pages of the kernel's part without `PTE_U` gives nothing away. -/
theorem mappagesFrom_kernel (hk : root k = some pgdir) (hperm : user perm = false)
    (hE : E .remap) : ∀ (n a pa : Nat) (s : State), Own L root s → KERNBASE ≤ a →
      a + n * PGSIZE < 2 ^ 32 → pa % PGSIZE = 0 →
      wp (mappagesFrom pgdir perm n a pa) (fun _ s' => Grows L root s root s') E s := by
  have hone : ∀ (a pa : Nat) (s : State), Own L root s → KERNBASE ≤ a → a < 2 ^ 32 →
      pa % PGSIZE = 0 → wp (mappage pgdir a pa perm) (fun _ s' => Grows L root s root s') E s := by
    intro a pa s hO ha hlt hpa
    have hi : ¬ PDX a < 512 := by grind [PDX]
    have hw : ownedFrame (PDX a) (pa ||| perm ||| PTE_P) = none := by
      have hpa' : pa = pa / PGSIZE * PGSIZE := by lia
      have hu : user (pa ||| perm ||| PTE_P) = false := by rw [hpa', user_entry, hperm]
      simp [ownedFrame, hi, hu]
    exact wp_post (mappage_spec hO hk (by simp [hw]) fun _ => hE) fun b s' h => h.grows hw
  intro n
  induction n with
  | zero => intro a pa s hO ha hlt hpa; exact hone a pa s hO ha (by omega) hpa
  | succ n ih =>
    intro a pa s hO ha hlt hpa
    refine wp_seq (hone a pa s hO ha (by omega) hpa) fun b s1 h1 => ?_
    cases b with
    | false => exact h1
    | true =>
      have hmod : (a + PGSIZE) % 2 ^ 32 = a + PGSIZE := by lia
      rw [hmod]
      refine wp_post (ih _ _ s1 h1.own (by omega) ?_ ?_) fun _ _ h => h1.trans h
      · lia
      · lia

/-- Every row of `kmap` lies in the kernel's part, ends below `2 ^ 32` and lacks `PTE_U`. -/
theorem kmap_row {m : Kmap} (hm : m ∈ kmap L) : user m.perm = false ∧ KERNBASE ≤ m.virt ∧
    m.virt % PGSIZE = 0 ∧ m.phys_start % PGSIZE = 0 ∧ 0 < uint (m.phys_end - m.phys_start) ∧
    m.virt + uint (m.phys_end - m.phys_start) ≤ 2 ^ 32 ∧ m.phys_start < 2 ^ 32 := by
  have hL := L.text_pos
  have hL' := L.data_pos
  have hL'' := L.fits
  simp only [NFRAMES, PHYSTOP, PGSIZE, EXTMEM] at hL hL' hL''
  simp only [kmap, List.mem_cons, List.not_mem_nil, or_false] at hm
  rcases hm with rfl | rfl | rfl | rfl
  · rw [uint_eq (n := 0x100000) 0 (by decide) (by decide)]
    decide
  · rw [uint_eq (n := L.data * 4096 - 0x100000) 0 (by push_cast; omega) (by omega)]
    simp only [KERNLINK, KERNBASE, EXTMEM, PGSIZE, user]
    exact ⟨by decide, by omega, trivial, trivial, by omega⟩
  · rw [uint_eq (n := 0xE000000 - L.data * 4096) 0 (by push_cast; omega) (by omega)]
    simp only [KERNBASE, PGSIZE, user, PTE_W]
    exact ⟨by decide, by omega⟩
  · rw [uint_eq (n := 0x2000000) (-1) (by decide) (by decide)]
    decide

/-- The number of turns of `mappages`, for a range that does not wrap around. -/
theorem mappages_turns {size : Nat} (hsize : 0 < size) (hend : va + size ≤ 2 ^ 32) :
    uint (PGROUNDDOWN (uint (va + size - 1)) - PGROUNDDOWN va) / PGSIZE =
      (va + size - 1) / PGSIZE - va / PGSIZE := by
  have h : uint (va + size - 1) = va + size - 1 := uint_eq 0 (by push_cast; omega) (by omega)
  rw [h, uint_eq (n := PGROUNDDOWN (va + size - 1) - PGROUNDDOWN va) 0]
  all_goals simp only [PGROUNDDOWN, PGSIZE] at *
  all_goals push_cast
  all_goals omega

/-- A row of `kmap` gives nothing away. -/
theorem mappages_kmap (hk : root k = some pgdir) (hE : E .remap) (hO : Own L root s) {m : Kmap}
    (hm : m ∈ kmap L) :
    wp (mappages pgdir m.virt (uint (m.phys_end - m.phys_start)) m.phys_start m.perm)
      (fun _ s' => Grows L root s root s') E s := by
  obtain ⟨hu, hv, hva, hpa, hpos, hend, -⟩ := kmap_row hm
  refine mappagesFrom_kernel hk hu hE _ _ _ s hO ?_ ?_ hpa
  · grind [PGROUNDDOWN]
  · rw [mappages_turns hpos hend]
    grind [PGROUNDDOWN]

/-! ## Growing and shrinking the forest -/

/-- The invariant without one process. -/
theorem Own.drop (hO : Own L root s) (k : Nat) : Own L (update root k none) s ∧ ∀ k' π f,
      node (update root k none) s k' π = some f → k' ≠ k ∧ node root s k' π = some f := by
  have hn : ∀ k' π f, node (update root k none) s k' π = some f →
      k' ≠ k ∧ node root s k' π = some f := by
    intro k' π f h
    have hne : k' ≠ k := by
      rintro rfl
      rw [node, Shape.node_none_of_root (update_self _ _ _)] at h
      cases h
    refine ⟨hne, ?_⟩
    rw [← h]
    exact (Shape.node_congr (update_of_ne hne _ _) (fun _ _ _ _ => rfl) π).symm
  exact ⟨⟨hO.nodup, hO.free, hO.distinct.mono fun k' π f h => (hn k' π f h).2,
    fun k' π f h => hO.notfree k' π f (hn k' π f h).2,
    fun k' π f h => hO.valid k' π f (hn k' π f h).2⟩, hn⟩

/-- A fresh zeroed frame becomes the page directory of a process that has none. -/
theorem Own.add (hO : Own L root s) (hk : root k = none) (hf : Fresh L root s f)
    (hzero : s.mem f = fun _ => 0) : (∀ k' π, node (update root k (some f)) s k' π =
      if k' = k ∧ π = [] then some f else node root s k' π) ∧
    Own L (update root k (some f)) s := by
  have hn : ∀ k' π, node (update root k (some f)) s k' π =
      if k' = k ∧ π = [] then some f else node root s k' π := fun k' π =>
    Shape.node_fill_root hk (by intro i; simp [shape, hzero, present]) k' π
  have hcases : ∀ k' π g, node (update root k (some f)) s k' π = some g →
      g = f ∨ node root s k' π = some g := by
    intro k' π g h
    rw [hn] at h
    split at h
    · exact .inl (Option.some.inj h).symm
    · exact .inr h
  refine ⟨hn, hO.nodup, hO.free, ?_, ?_, ?_⟩
  · refine hO.distinct.fill (P := fun k' π' => k' = k ∧ π' = []) ?_ hf.node hn
    rintro k1 π1 k2 π2 ⟨rfl, rfl⟩ ⟨rfl, rfl⟩
    exact ⟨rfl, rfl⟩
  · intro k' π g h
    rcases hcases k' π g h with rfl | h
    · exact hf.free
    · exact hO.notfree k' π g h
  · intro k' π g h
    rcases hcases k' π g h with rfl | h
    · exact hf.valid
    · exact hO.valid k' π g h

/-- A page unmapped and its frame freed, as `deallocuvm` does it: the frame is put on the free
list first and the entry cleared after that. -/
theorem Own.unmap (hO : Own L root s) {i j : Nat} (ht : node root s k [i] = some t)
    (hf : node root s k [j, i] = some f) (hmem : s'.mem = update (update s.mem f c) t
      (update (s.mem t) j 0)) (hfree : s'.freelist = f :: s.freelist) :
    (∀ k' π, node root s' k' π = if k' = k ∧ π = [j, i] then none else node root s k' π) ∧
    Own L root s' := by
  have hft : f ≠ t := fun e => by
    have := (hO.distinct k _ k _ t (e ▸ hf) ht).2
    cases this
  have hentry : shape.entry k [j, i] (update (s.mem t) j 0) = none := by
    simp [shape, ownedFrame, present]
  -- clear the entry first: then the frame is nobody's
  obtain ⟨hn, hO1⟩ := hO.set_entry
    ⟨update s.mem t (update (s.mem t) j 0), s.freelist⟩ (j := j) ht rfl rfl
    (by intro x hx; simp [shape, update_of_ne hx])
    (by
      intro x
      rw [node, Shape.node]
      cases Shape.node shape root s.mem k [j, i] <;> rfl)
    (by intro x b hb; rw [hentry] at hb; cases hb)
    (by intro g hg; rw [hentry] at hg; cases hg)
  rw [hentry] at hn
  have hfresh : Fresh L root
      ⟨update s.mem t (update (s.mem t) j 0), s.freelist⟩ f := by
    refine ⟨hO.notfree _ _ _ hf, ?_, hO.valid _ _ _ hf⟩
    intro k' π h
    rw [hn] at h
    split at h
    · cases h
    · next hne => exact hne (hO.distinct k' π k [j, i] f h hf)
  obtain ⟨hn', hO'⟩ := hO1.give s' hfresh
    ⟨c, by rw [hmem, update_comm hft]⟩ hfree
  exact ⟨fun k' π => (hn' k' π).trans (hn k' π), hO'⟩

end

end Dixv6.Vm
