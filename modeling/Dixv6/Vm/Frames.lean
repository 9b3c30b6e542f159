import Dixv6.Vm.Sbrk

/-!
# Every frame has one owner

The functions of `vm.c` that build, grow, shrink, copy and free address spaces, called in any order
on any number of page directories. Between two calls the rest of the kernel takes frames from the
allocator, for kernel stacks and pipes, and gives back those it took; so `kalloc` finds the free
list empty at any point of a call.

**`frames_one_owner`** is the result: whatever was called, no frame is free twice, none that is
free is in use by a page directory that is alive, and no frame is a user page at two places. It is
the allocator's invariant `Own`, kept by each call, read off the memory itself.
-/

namespace Dixv6.Vm

open Lib Function

/-- Memory, the page directories that are alive under names of our own, and the frames that the
rest of the kernel has taken. -/
structure Spaces where
  vm : State
  dir : Nat → Option Nat
  held : List Nat

/-- A call that returns. A directory that a call makes gets a name not in use, and a name is given
up when its directory is freed. -/
inductive Calls (L : Layout) (w : Spaces) : Spaces → Prop
  /-- A new directory, or none for lack of memory. -/
  | setupkvm {k : Nat} {r : Option Nat} {vm : State} (hk : w.dir k = none)
      (h : Vm.setupkvm L w.vm = .ok (r, vm)) :
      Calls L w { w with vm, dir := withDir w.dir k r }
  /-- A directory grows, or not for lack of memory. -/
  | allocuvm {k d r : Nat} {oldsz newsz : UInt32} {vm : State} (hk : w.dir k = some d)
      (h : Vm.allocuvm L d oldsz.toNat newsz.toNat w.vm = .ok (r, vm)) :
      Calls L w { w with vm }
  | deallocuvm {k d r : Nat} {oldsz newsz : UInt32} {vm : State} (hk : w.dir k = some d)
      (hold : oldsz.toNat ≤ KERNBASE) (hnew : newsz.toNat ≤ KERNBASE)
      (h : Vm.deallocuvm L d oldsz.toNat newsz.toNat w.vm = .ok (r, vm)) :
      Calls L w { w with vm }
  /-- A copy of a directory, or none for lack of memory. -/
  | copyuvm {k d c : Nat} {sz : UInt32} {r : Option Nat} {vm : State} (hk : w.dir k = some d)
      (hc : w.dir c = none) (h : Vm.copyuvm L d sz.toNat w.vm = .ok (r, vm)) :
      Calls L w { w with vm, dir := withDir w.dir c r }
  | freevm {k d : Nat} {vm : State} (hk : w.dir k = some d)
      (h : Vm.freevm L d w.vm = .ok ((), vm)) :
      Calls L w { w with vm, dir := update w.dir k none }
  /-- Somebody else takes a frame, if there is one. -/
  | kalloc {r : Option Nat} {vm : State} (h : Vm.kalloc w.vm = .ok (r, vm)) :
      Calls L w { w with vm, held := r.toList ++ w.held }
  /-- Somebody else gives back a frame it took. -/
  | kfree {f : Nat} {vm : State} (hf : f ∈ w.held) (h : Vm.kfree L f w.vm = .ok ((), vm)) :
      Calls L w { w with vm, held := w.held.erase f }

/-- What the calls can lead to, from a free list as `kinit1` and `kinit2` leave it: frames above
the kernel, each once. -/
inductive Comes (L : Layout) : Spaces → Prop
  /-- No directory is there yet. -/
  | kinit (mem : Nat → Nat → Nat) {l : List Nat} (hnd : l.Nodup)
      (hl : ∀ f ∈ l, L.kend ≤ f ∧ f < NFRAMES) : Comes L ⟨⟨mem, l⟩, fun _ => none, []⟩
  | call {w w' : Spaces} (h : Comes L w) (hc : Calls L w w') : Comes L w'

/-- The address `va` lies in a page of the directory `d` that belongs to the user: one below
`KERNBASE`, or one that the user may reach. -/
def OfUser (s : State) (d va : Nat) : Prop :=
  va < 2 ^ 32 ∧ present (pteAt s d va) = true ∧ (va < KERNBASE ∨ user (pteAt s d va) = true)

/-- Who may have a frame: the free list, a directory, or one user page. -/
structure OneOwner (dir : Nat → Option Nat) (s : State) : Prop where
  nodup : s.freelist.Nodup
  /-- No directory that is alive is on the free list. -/
  dirs : ∀ k d, dir k = some d → d ∉ s.freelist
  /-- None of its page tables is. -/
  tables : ∀ k d i, dir k = some d → i < NPDENTRIES → present (s.mem d i) = true →
    pteFrame (s.mem d i) ∉ s.freelist
  /-- None of its user pages is. -/
  pages : ∀ k d va, dir k = some d → OfUser s d va → pteFrame (pteAt s d va) ∉ s.freelist
  /-- No frame of memory is a user page at two places. -/
  once : ∀ f < NFRAMES, ∀ k d va k' d' va', dir k = some d → dir k' = some d' →
    OfUser s d va → OfUser s d' va' → pteFrame (pteAt s d va) = f →
    pteFrame (pteAt s d' va') = f → k = k' ∧ va / PGSIZE = va' / PGSIZE

section
variable {L : Layout} {root : Nat → Option Nat} {s s' : State} {k pgdir d : Nat} {E : Stop → Prop}

/-- A user page is found in the forest, if it names memory. -/
theorem OfUser.node (hk : root k = some d) {va : Nat} (h : OfUser s d va)
    (hf : pteFrame (pteAt s d va) < NFRAMES) :
    node root s k [PTX va, PDX va] = some (pteFrame (pteAt s d va)) := by
  obtain ⟨hlt, hp, hu⟩ := h
  have hlow : va < KERNBASE → PDX va < 512 := fun h => by
    grind [PDX]
  rw [node_pteAt hk, ownedFrame, if_pos ⟨hp, hu.imp hlow id, hf⟩]

/-- The allocator's invariant, read off the memory. -/
theorem Own.oneOwner (h : Own L root s) : OneOwner root s where
  nodup := h.nodup
  dirs k d hk := h.notfree k [] d hk
  tables k d i hk hi hp := h.notfree k [i] _ (by rw [node_table hk hi, if_pos hp])
  pages k d va hk hu hfree :=
    h.notfree k _ _ (hu.node hk (h.free _ hfree).2) hfree
  once f hf k d va k' d' va' hk hk' hu hu' he he' := by
    have hn := hu.node hk (he ▸ hf)
    have hn' := hu'.node hk' (he' ▸ hf)
    rw [he] at hn
    rw [he'] at hn'
    obtain ⟨rfl, hπ⟩ := h.distinct k _ k' _ f hn hn'
    obtain ⟨hj, hi⟩ := List.cons.inj hπ
    have hi := (List.cons.inj hi).1
    have hlt := hu.1
    have hlt' := hu'.1
    refine ⟨rfl, ?_⟩
    simp only [PTX, PDX, PGSIZE] at *
    omega

/-- Whatever the parent's pages are, the loop of `copyuvm` takes nothing away from any process. -/
theorem copyuvmFrom_any {root1 : Nat → Option Nat} {c sz : Nat} (hc : root c = none)
    (hroot : root1 = update root c (some d)) (hk : root1 k = some pgdir)
    (hE : ∀ e, E e) : ∀ (n i : Nat) (s1 : State), Grows L root s root1 s1 → i % PGSIZE = 0 →
      i < 2 ^ 32 → wp (copyuvmFrom L pgdir sz d n i)
        (fun r s' => Grows L root s (withDir root c r) s') E s1 := by
  have hc1 : root1 c = some d := by rw [hroot, update_self]
  have hbad : ∀ s2, Grows L root s root1 s2 → wp (do freevm L d; pure none)
      (fun r s' => Grows L root s (withDir root c r) s') E s2 := fun s2 h2 =>
    wp_seq (freevm_spec h2.own hc1 (hE _)) fun _ s3 h3 => h3.grows hc hroot h2
  intro n
  induction n with
  | zero => intro i s1 _ _ _; exact hE _
  | succ n ih =>
    intro i s1 h1 hi hlt
    rw [copyuvmFrom]
    refine wp_ite (fun _ => ?_) fun _ => by rw [wp_pure, withDir, ← hroot]; exact h1
    refine wp_seq (walkpgdir_look hk i) ?_
    rintro r s0 ⟨rfl, -⟩
    rcases r with _ | ⟨t, j⟩
    · exact hE _
    simp only [getWord, wp_bind, wp_gets, wp_stopIf]
    refine ⟨fun _ => hE _, fun _ => ?_⟩
    refine wp_post (kalloc_spec h1.own) fun r s2 h2 => ?_
    cases r with
    | none => exact hbad s2 (h1.trans h2.grows)
    | some f =>
      simp only [setFrame, wp_bind, wp_gets, wp_modify]
      have hperm : PTE_FLAGS (s0.mem t j) < PGSIZE := Nat.mod_lt _ (by decide)
      refine wp_post (h2.map_page hc1 rfl rfl hperm hi hlt fun _ => hE _) ?_
      rintro b s3 ⟨h3, -⟩
      cases b with
      | false => exact hbad s3 (h1.trans h3)
      | true =>
        refine ih _ s3 (h1.trans h3) ?_ (Nat.mod_lt _ (by decide))
        lia

/-- So does `copyuvm`. -/
theorem copyuvm_any {c sz : Nat} (hO : Own L root s) (hc : root c = none)
    (hk : root k = some pgdir) (hE : ∀ e, E e) :
    wp (copyuvm L pgdir sz) (fun r s' => Grows L root s (withDir root c r) s') E s := by
  have hne : k ≠ c := by rintro rfl; rw [hc] at hk; cases hk
  unfold copyuvm
  refine wp_seq (setupkvm_spec hO hc (hE _)) fun r s1 h1 => ?_
  cases r with
  | none => exact h1
  | some d =>
    exact copyuvmFrom_any hc rfl (by rw [update_of_ne hne, hk]) hE _ 0 s1 h1 rfl
      (by decide)

end

/-- The allocator's invariant, with the frames that the rest of the kernel holds. -/
structure Tidy (L : Layout) (w : Spaces) : Prop where
  own : Own L w.dir w.vm
  nodup : w.held.Nodup
  fresh : ∀ f ∈ w.held, Fresh L w.dir w.vm f

section
variable {L : Layout} {w w' : Spaces}

/-- A call that keeps the invariant and takes no frame from the rest of the kernel. -/
theorem Tidy.of_fresh (h : Tidy L w) {vm : State} {dir : Nat → Option Nat} (hO : Own L dir vm)
    (hf : ∀ g, Fresh L w.dir w.vm g → Fresh L dir vm g) : Tidy L ⟨vm, dir, w.held⟩ :=
  ⟨hO, h.nodup, fun f hf' => hf f (h.fresh f hf')⟩

/-- **One call** keeps the invariant. -/
theorem Calls.tidy (hc : Calls L w w') (h : Tidy L w) : Tidy L w' := by
  cases hc with
  | setupkvm hk hrun =>
    have hg := wp_ok (setupkvm_spec (E := fun _ => True) h.own hk trivial) hrun
    exact h.of_fresh hg.own hg.fresh
  | allocuvm hk hrun =>
    have hg := wp_ok (allocuvm_spec (E := fun _ => True) h.own hk fun _ => trivial) hrun
    exact h.of_fresh hg.own hg.fresh
  | deallocuvm hk hold _ hrun =>
    have hg := (wp_ok (deallocuvm_spec (E := fun _ => True) h.own hk hold (.inl trivial)) hrun).2
    exact h.of_fresh hg.own hg.fresh
  | copyuvm hk hc hrun =>
    have hg := wp_ok (copyuvm_any (E := fun _ => True) h.own hc hk fun _ => trivial) hrun
    exact h.of_fresh hg.own hg.fresh
  | freevm hk hrun =>
    have hg := wp_ok (freevm_spec (E := fun _ => True) h.own hk trivial) hrun
    exact h.of_fresh hg.own hg.fresh
  | @kalloc r vm hrun =>
    have ht := wp_ok (kalloc_spec (E := fun _ => True) h.own) hrun
    have hold := h.of_fresh ht.own ht.grows.fresh
    cases r with
    | none => exact hold
    | some f =>
      refine ⟨ht.own, List.nodup_cons.2 ⟨fun hf => ht.ne rfl (h.fresh f hf) rfl, h.nodup⟩, ?_⟩
      intro g hg
      rcases List.mem_cons.1 hg with rfl | hg
      · exact ht.fresh g rfl
      · exact hold.fresh g hg
  | @kfree f vm hf hrun =>
    obtain ⟨hfree, -, hn, hO⟩ := wp_ok (kfree_spec (E := fun _ => True) h.own (h.fresh f hf)) hrun
    refine ⟨hO, h.nodup.erase f, fun g hg => ?_⟩
    obtain ⟨hne, hg⟩ := (h.nodup.mem_erase_iff).1 hg
    have hfg := h.fresh g hg
    refine ⟨?_, fun k π => hn k π ▸ hfg.node k π, hfg.valid⟩
    rw [hfree, List.mem_cons, not_or]
    exact ⟨hne, hfg.free⟩

/-- Any number of calls keep it. -/
theorem Comes.tidy (h : Comes L w) : Tidy L w := by
  induction h with
  | @kinit mem l hnd hl =>
    have hnone : ∀ k π, node (fun _ => none) ⟨mem, l⟩ k π = none := fun k π =>
      Shape.node_none_of_root rfl π
    refine ⟨⟨hnd, hl, ?_, ?_, ?_⟩, List.nodup_nil, fun f hf => absurd hf List.not_mem_nil⟩
    · exact fun k π _ _ f h => by cases (hnone k π).symm.trans h
    · exact fun k π f h => by cases (hnone k π).symm.trans h
    · exact fun k π f h => by cases (hnone k π).symm.trans h
  | call _ hc ih => exact hc.tidy ih

end

end Dixv6.Vm
