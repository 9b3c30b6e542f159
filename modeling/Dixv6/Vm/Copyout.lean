import Dixv6.Vm.Exec
import Dixv6.Vm.Fault
import Dixv6.Vm.Range

/-!
# Where `copyout` stores

`copyout` goes through the pages of `[va, va + len)` one at a time and asks `uva2ka` for the frame of
each. `CopyoutLaw` is what it is meant to do for every address: if all of the pages are user pages it
returns `0` and the range holds the source's bytes; if not it returns `-1` and has stored to no page
but user pages of the range. **`copyout_exact`** says when it does so (`CopyoutOk`): `uva2ka` does not
look whether `walkpgdir` found a page table, and the loop does not notice that it has come to the top
of the address space and goes on at address 0.

The loop is described by how many pages it has stored to (`Stored`), from which both are read off.
-/

namespace Dixv6.Vm

open Lib Function

/-- The byte at the address `a`. -/
def userByte (s : State) (pgdir a : Nat) : UInt8 :=
  frameBytes (s.mem (pteFrame (pteAt s pgdir a))) (a % PGSIZE)

/-- All of `[va, va + len)` is in user pages. -/
def UserRange (s : State) (pgdir va len : Nat) : Prop :=
  va + len ≤ 2 ^ 32 ∧ ∀ a, va ≤ a → a < va + len → UserPage (pteAt s pgdir a)

/-- Only user pages of `[va, va + len)` have been stored to. -/
def Confined (pgdir va len : Nat) (x x' : Xstate) : Prop :=
  ∃ l, x'.wrote = l ++ x.wrote ∧
    (∀ f ∈ l, ∃ a, va ≤ a ∧ a < va + len ∧ a < 2 ^ 32 ∧ UserPage (pteAt x.sys.vm pgdir a) ∧
      pteFrame (pteAt x.sys.vm pgdir a) = f) ∧
    ∃ mem, (∀ f, f ∉ l → mem f = x.sys.vm.mem f) ∧
      x' = { x with sys := { x.sys with vm := { x.sys.vm with mem } }, wrote := l ++ x.wrote }

/-- `[va, va + len)` holds the bytes of `p`, and the rest of the address space what it did. -/
def Overwritten (pgdir va : Nat) (p : Bytes) (len : Nat) (s s' : State) : Prop :=
  (∀ a, pteAt s' pgdir a = pteAt s pgdir a) ∧
  ∀ a < 2 ^ 32, UserPage (pteAt s pgdir a) →
    userByte s' pgdir a = if va ≤ a ∧ a < va + len then p (a - va) else userByte s pgdir a

/-- What `copyout` is meant to do. -/
def CopyoutLaw (x : Xstate) (pgdir va : Nat) (p : Bytes) (len : Nat) : Prop :=
  (UserRange x.sys.vm pgdir va len → ∃ x', copyout pgdir va p len x = .ok (true, x') ∧
    Confined pgdir va len x x' ∧ Overwritten pgdir va p len x.sys.vm x'.sys.vm) ∧
  (¬ UserRange x.sys.vm pgdir va len → ∃ x', copyout pgdir va p len x = .ok (false, x') ∧
    Confined pgdir va len x x')

/-- The `j`-th page that the loop comes to from `va` on. -/
def pageFrom (va j : Nat) : Nat := (PGROUNDDOWN va + j * PGSIZE) % 2 ^ 32

/-- How many pages `[va, va + len)` touches. -/
def touched (va len : Nat) : Nat := if len = 0 then 0 else (va % PGSIZE + len - 1) / PGSIZE + 1

/-- There is a page table for every page that the loop comes to through user pages only; and a range
past the top ends, on its way to the top or at address 0, at a page that is not a user page. -/
def CopyoutOk (s : State) (pgdir va len : Nat) : Prop :=
  (∀ j < touched va len, (∀ i < j, UserPage (pteAt s pgdir (pageFrom va i))) →
    present (s.mem pgdir (PDX (pageFrom va j))) = true) ∧
  (2 ^ 32 < va + len → ∃ j, PGROUNDDOWN va + j * PGSIZE ≤ 2 ^ 32 ∧
    ¬ UserPage (pteAt s pgdir (pageFrom va j)))

/-! ## Bytes of a frame -/

/-- The bytes of a frame after a store. -/
theorem frameBytes_poke (c : Nat → Nat) (off n : Nat) (src : Bytes) (i : Nat) :
    frameBytes (poke c off n src) i = Bytes.blit (frameBytes c) off n src i := by
  rw [frameBytes, poke]
  split
  · rw [Bytes.blit_of_outside (by omega), frameBytes]
  · rw [Bytes.byte_leGet _ 4 _ _ (Nat.mod_lt _ (by decide)), Nat.div_add_mod]

section
variable {L : Layout} {root : Nat → Option Nat} {k pgdir va len n buf j : Nat} {s : State}
  {x x' : Xstate} {p : Bytes}

/-! ## Pages -/

/-- The frame of a user page is part of the address space. -/
theorem node_of_userPage (hk : root k = some pgdir) (hu : UserPage (pteAt s pgdir va))
    (hf : pteFrame (pteAt s pgdir va) < NFRAMES) :
    node root s k [PTX va, PDX va] = some (pteFrame (pteAt s pgdir va)) := by
  rw [node_pteAt hk, ownedFrame, if_pos ⟨hu.1, .inr hu.2, hf⟩]

/-- One frame is one user page. -/
theorem Own.same_userPage {va' : Nat} (hO : Own L root s) (hk : root k = some pgdir)
    (hlt : va < 2 ^ 32) (hlt' : va' < 2 ^ 32) (hu : UserPage (pteAt s pgdir va))
    (hu' : UserPage (pteAt s pgdir va')) (hf : pteFrame (pteAt s pgdir va) < NFRAMES)
    (he : pteFrame (pteAt s pgdir va') = pteFrame (pteAt s pgdir va)) :
    va' / PGSIZE = va / PGSIZE := by
  have h := (hO.distinct _ _ _ _ _ (node_of_userPage hk hu' (he ▸ hf))
    (he ▸ node_of_userPage hk hu hf)).2
  simp only [List.cons.injEq, and_true] at h
  exact (Vm.same_page hlt' hlt).1 ⟨h.2, h.1⟩

theorem pageFrom_lt (va j : Nat) : pageFrom va j < 2 ^ 32 := Nat.mod_lt _ (by decide)

theorem pageFrom_zero (hva : va < 2 ^ 32) : pageFrom va 0 = PGROUNDDOWN va := by
  grind [pageFrom, PGROUNDDOWN]

/-- The pages from the next page on. -/
theorem pageFrom_succ (va j : Nat) :
    pageFrom ((PGROUNDDOWN va + PGSIZE) % 2 ^ 32) j = pageFrom va (j + 1) := by
  grind [pageFrom, PGROUNDDOWN]

/-- **Not all pages are user pages**: there are more pages than frames. -/
theorem exists_not_userPage (hO : Own L root s) (hk : root k = some pgdir)
    (hmem : ∀ a < 2 ^ 32, UserPage (pteAt s pgdir a) → pteFrame (pteAt s pgdir a) < NFRAMES)
    (va : Nat) : ∃ j ≤ NFRAMES, ¬ UserPage (pteAt s pgdir (pageFrom va j)) := by
  by_contra hall
  push Not at hall
  have hmaps : ∀ j ∈ Finset.range (NFRAMES + 1),
      pteFrame (pteAt s pgdir (pageFrom va j)) ∈ Finset.range NFRAMES := fun j hj =>
    Finset.mem_range.2 (hmem _ (pageFrom_lt va j) (hall j (Nat.lt_succ_iff.1 (Finset.mem_range.1 hj))))
  obtain ⟨i, hi, j, hj, hne, he⟩ := Finset.exists_ne_map_eq_of_card_lt_of_maps_to
    (by simp) hmaps
  rw [Finset.mem_range, Nat.lt_succ_iff] at hi hj
  have hpage := hO.same_userPage hk (pageFrom_lt va j) (pageFrom_lt va i) (hall j hj) (hall i hi)
    (hmem _ (pageFrom_lt va j) (hall j hj)) he
  grind [pageFrom, PGROUNDDOWN]

/-! ## The loop -/

/-- What the loop has done after `n` pages from `va` on, with the source at `buf`: it has stored to
their frames, and as long as it has not come to the top the bytes of the range are the source's. -/
structure Stored (pgdir : Nat) (p : Bytes) (va buf len n : Nat) (x x' : Xstate) : Prop where
  user : ∀ j < n, UserPage (pteAt x.sys.vm pgdir (pageFrom va j))
  same : ∃ mem, x' = { x with
    sys := { x.sys with vm := { x.sys.vm with mem } }
    wrote := ((List.range n).map fun j =>
      pteFrame (pteAt x.sys.vm pgdir (pageFrom va j))).reverse ++ x.wrote }
  kept : ∀ f, (∀ j < n, pteFrame (pteAt x.sys.vm pgdir (pageFrom va j)) ≠ f) →
    x'.sys.vm.mem f = x.sys.vm.mem f
  entries : ∀ a, pteAt x'.sys.vm pgdir a = pteAt x.sys.vm pgdir a
  bytes : PGROUNDDOWN va + n * PGSIZE ≤ 2 ^ 32 → ∀ a < 2 ^ 32, UserPage (pteAt x.sys.vm pgdir a) →
    userByte x'.sys.vm pgdir a =
      if va ≤ a ∧ a < va + len ∧ a < PGROUNDDOWN va + n * PGSIZE then p (buf + (a - va))
      else userByte x.sys.vm pgdir a

theorem Stored.refl (buf : Nat) : Stored pgdir p va buf len 0 x x where
  user j hj := absurd hj (Nat.not_lt_zero j)
  same := ⟨x.sys.vm.mem, rfl⟩
  kept _ _ := rfl
  entries _ := rfl
  bytes _ a _ _ := by
    rw [if_neg]
    grind [PGROUNDDOWN]

/-- `uva2ka` gives the frame of a user page, and needs a page table. -/
theorem uva2ka_spec : wp (uva2ka pgdir va)
    (fun r x' => x' = x ∧ present (x.sys.vm.mem pgdir (PDX va)) = true ∧
      ((r = none ∧ ¬ UserPage (pteAt x.sys.vm pgdir va)) ∨
        (UserPage (pteAt x.sys.vm pgdir va) ∧ r = some (pteFrame (pteAt x.sys.vm pgdir va)))))
    (fun _ => ¬ present (x.sys.vm.mem pgdir (PDX va)) = true) x := by
  simp only [uva2ka, wp_bind, wp_vm, walkpgdir, getWord, wp_gets]
  by_cases hp : present (x.sys.vm.mem pgdir (PDX va)) = true
  · have hpte : pteAt x.sys.vm pgdir va =
        x.sys.vm.mem (pteFrame (x.sys.vm.mem pgdir (PDX va))) (PTX va) := if_pos hp
    rw [if_pos hp, wp_pure]
    simp only [wp_bind, wp_vm, wp_gets, ← hpte, UserPage]
    refine wp_ite (fun h1 => ?_) fun h1 => wp_ite (fun h2 => ?_) fun h2 => ?_
    · exact ⟨rfl, hp, .inl ⟨rfl, fun hu => h1 hu.1⟩⟩
    · exact ⟨rfl, hp, .inl ⟨rfl, fun hu => h2 hu.2⟩⟩
    · exact ⟨rfl, hp, .inr ⟨⟨not_not.1 h1, not_not.1 h2⟩, rfl⟩⟩
  · rw [if_neg hp]
    simpa using hp

/-- The state after `n` bytes of `src` were stored at `off` of the frame `f`. -/
def storedTo (x : Xstate) (f off n : Nat) (src : Bytes) : Xstate :=
  { x with
    sys := { x.sys with vm := { x.sys.vm with
      mem := update x.sys.vm.mem f (poke (x.sys.vm.mem f) off n src) } }
    wrote := f :: x.wrote }

/-- A store to a user page changes no page table. -/
theorem storedTo_page (off n : Nat) (src : Bytes) (hO : Own L root x.sys.vm)
    (hk : root k = some pgdir) (hu : UserPage (pteAt x.sys.vm pgdir va))
    (hf : pteFrame (pteAt x.sys.vm pgdir va) < NFRAMES) :
    Own L root (storedTo x (pteFrame (pteAt x.sys.vm pgdir va)) off n src).sys.vm ∧
      (storedTo x (pteFrame (pteAt x.sys.vm pgdir va)) off n src).sys.vm.mem pgdir =
        x.sys.vm.mem pgdir ∧
      ∀ a, pteAt (storedTo x (pteFrame (pteAt x.sys.vm pgdir va)) off n src).sys.vm pgdir a =
        pteAt x.sys.vm pgdir a := by
  have hinner : ∀ k π, shape.inner k π →
      node root x.sys.vm k π ≠ some (pteFrame (pteAt x.sys.vm pgdir va)) := by
    intro k' π hi hn
    have hπ := (hO.distinct _ _ _ _ _ hn (node_of_userPage hk hu hf)).2
    rw [hπ] at hi
    simp [shape] at hi
  have hown := (hO.put
    (storedTo x (pteFrame (pteAt x.sys.vm pgdir va)) off n src).sys.vm ⟨_, rfl⟩ rfl hinner).2
  exact ⟨hown, pteAt_update hk rfl hinner⟩

/-- The bytes of the address space after a store to the page of `va`. -/
theorem userByte_storedTo {src : Bytes} {a : Nat} (hO : Own L root x.sys.vm)
    (hk : root k = some pgdir) (hva : va < 2 ^ 32) (ha : a < 2 ^ 32)
    (hu : UserPage (pteAt x.sys.vm pgdir va)) (hua : UserPage (pteAt x.sys.vm pgdir a))
    (hf : pteFrame (pteAt x.sys.vm pgdir va) < NFRAMES) (hn : va % PGSIZE + n ≤ PGSIZE) :
    userByte (storedTo x (pteFrame (pteAt x.sys.vm pgdir va)) (va % PGSIZE) n src).sys.vm pgdir a =
      if va ≤ a ∧ a < va + n then src (a - va) else userByte x.sys.vm pgdir a := by
  have hpte := (storedTo_page (va % PGSIZE) n src hO hk hu hf).2.2 a
  rw [userByte, hpte, userByte]
  by_cases he : pteFrame (pteAt x.sys.vm pgdir a) = pteFrame (pteAt x.sys.vm pgdir va)
  · have hpage := hO.same_userPage hk hva ha hu hua hf he
    simp only [storedTo, he, update_self, frameBytes_poke, Bytes.blit]
    simp only [PGSIZE] at hpage hn ⊢
    have hc : (va % 4096 ≤ a % 4096 ∧ a % 4096 < va % 4096 + n) ↔ (va ≤ a ∧ a < va + n) := by omega
    have hi : va ≤ a → a % 4096 - va % 4096 = a - va := by omega
    by_cases h : va ≤ a ∧ a < va + n
    · rw [if_pos (hc.2 h), if_pos h, hi h.1]
    · rw [if_neg (mt hc.1 h), if_neg h]
  · have hpage : a / PGSIZE ≠ va / PGSIZE := by
      intro hp
      apply he
      have h1 : PGROUNDDOWN a = PGROUNDDOWN va := by rw [PGROUNDDOWN, hp, PGROUNDDOWN]
      rw [← pteAt_down a, h1, pteAt_down]
    rw [if_neg (by lia)]
    simp only [storedTo, update_of_ne he]

/-- An address is among the bytes of the first page, among those of the pages after it, or not stored
to. -/
theorem next_bytes {m : Nat} (hm : m = min (PGSIZE - va % PGSIZE) len)
    (htop : PGROUNDDOWN va + (n + 1) * PGSIZE ≤ 2 ^ 32) (a : Nat) :
    let next := (PGROUNDDOWN va + PGSIZE) % 2 ^ 32
    let after := next ≤ a ∧ a < next + (len - m) ∧ a < PGROUNDDOWN next + n * PGSIZE
    let here := va ≤ a ∧ a < va + m
    let all := va ≤ a ∧ a < va + len ∧ a < PGROUNDDOWN va + (n + 1) * PGSIZE
    (¬ after ∧ here ∧ all) ∨ (after ∧ ¬ here ∧ all ∧ m + (a - next) = a - va) ∨
      (¬ after ∧ ¬ here ∧ ¬ all) := by
  grind [PGROUNDDOWN]

theorem next_top (htop : PGROUNDDOWN va + (n + 1) * PGSIZE ≤ 2 ^ 32) :
    PGROUNDDOWN ((PGROUNDDOWN va + PGSIZE) % 2 ^ 32) + n * PGSIZE ≤ 2 ^ 32 := by
  have hdown : ∀ a, PGROUNDDOWN a ≤ a := fun a => Nat.div_mul_le_self a PGSIZE
  calc PGROUNDDOWN ((PGROUNDDOWN va + PGSIZE) % 2 ^ 32) + n * PGSIZE
      ≤ PGROUNDDOWN va + PGSIZE + n * PGSIZE :=
        Nat.add_le_add_right ((hdown _).trans (Nat.mod_le _ _)) _
    _ = PGROUNDDOWN va + (n + 1) * PGSIZE := by ring
    _ ≤ 2 ^ 32 := htop

/-- One more page at the front. -/
theorem Stored.cons {m : Nat} (hO : Own L root x.sys.vm) (hk : root k = some pgdir)
    (hva : va < 2 ^ 32) (hu : UserPage (pteAt x.sys.vm pgdir va))
    (hf : pteFrame (pteAt x.sys.vm pgdir va) < NFRAMES) (hm : m = min (PGSIZE - va % PGSIZE) len)
    (h : Stored pgdir p ((PGROUNDDOWN va + PGSIZE) % 2 ^ 32) (buf + m) (len - m) n
      (storedTo x (pteFrame (pteAt x.sys.vm pgdir va)) (va % PGSIZE) m fun i => p (buf + i)) x') :
    Stored pgdir p va buf len (n + 1) x x' := by
  obtain ⟨-, -, hpte⟩ :=
    storedTo_page (va % PGSIZE) m (fun i => p (buf + i)) hO hk hu hf
  have hfirst : pteAt x.sys.vm pgdir (pageFrom va 0) = pteAt x.sys.vm pgdir va := by
    rw [pageFrom_zero hva, pteAt_down]
  have hmle : va % PGSIZE + m ≤ PGSIZE := by
    rw [hm]
    lia
  refine ⟨fun j hj => ?_, ?_, fun f hkept => ?_, fun a => (h.entries a).trans (hpte a),
    fun htop a ha hua => ?_⟩
  · cases j with
    | zero => exact hfirst ▸ hu
    | succ j =>
      have := h.user j (Nat.lt_of_succ_lt_succ hj)
      rwa [hpte, pageFrom_succ] at this
  · obtain ⟨mem, hx'⟩ := h.same
    refine ⟨mem, hx'.trans ?_⟩
    simp only [storedTo, List.range_succ_eq_map, List.map_cons, List.map_map, List.reverse_cons,
      List.append_assoc, List.singleton_append, hfirst]
    congr 4
    funext j
    exact congrArg pteFrame ((hpte _).trans (congrArg _ (pageFrom_succ va j)))
  · have hne : pteFrame (pteAt x.sys.vm pgdir va) ≠ f := hfirst ▸ hkept 0 (Nat.succ_pos n)
    have h1 := h.kept f fun j hj => by
      rw [hpte, pageFrom_succ]
      exact hkept (j + 1) (Nat.succ_lt_succ hj)
    rw [h1]
    exact update_of_ne (Ne.symm hne) _ _
  · rw [h.bytes (next_top htop) a ha (by rwa [hpte]), userByte_storedTo hO hk hva ha hu hua hf hmle]
    rcases next_bytes hm htop a with ⟨h1, h2, h3⟩ | ⟨h1, h2, h3, h4⟩ | ⟨h1, h2, h3⟩
    · rw [if_neg h1, if_pos h2, if_pos h3]
    · rw [if_pos h1, if_pos h3, Nat.add_assoc, h4]
    · rw [if_neg h1, if_neg h2, if_neg h3]

theorem touched_pos (va : Nat) (h : 0 < len) :
    touched va len = touched ((PGROUNDDOWN va + PGSIZE) % 2 ^ 32)
      (len - min (PGSIZE - va % PGSIZE) len) + 1 := by
  simp only [touched, PGROUNDDOWN, PGSIZE]
  split <;> split <;> omega

/-- **The loop**: it stores to user pages up to the first page that is none, and needs a page table
for that one. -/
theorem copyoutFrom_spec (hk : root k = some pgdir) : ∀ (fuel va buf len : Nat) (x : Xstate),
    Own L root x.sys.vm → va < 2 ^ 32 →
    (∀ a < 2 ^ 32, UserPage (pteAt x.sys.vm pgdir a) →
      pteFrame (pteAt x.sys.vm pgdir a) < NFRAMES) →
    (∃ j < fuel, ¬ UserPage (pteAt x.sys.vm pgdir (pageFrom va j))) →
    wp (copyoutFrom pgdir p fuel va buf len)
      (fun r x' => ∃ n, Stored pgdir p va buf len n x x' ∧
        ((r = true ∧ n = touched va len) ∨ (r = false ∧ n < touched va len ∧
          ¬ UserPage (pteAt x.sys.vm pgdir (pageFrom va n)) ∧
          present (x.sys.vm.mem pgdir (PDX (pageFrom va n))) = true)))
      (fun _ => ∃ n < touched va len, (∀ j < n, UserPage (pteAt x.sys.vm pgdir (pageFrom va j))) ∧
        ¬ present (x.sys.vm.mem pgdir (PDX (pageFrom va n))) = true) x
  | 0, _, _, _, _, _, _, _, ⟨j, hj, _⟩ => absurd hj (Nat.not_lt_zero j)
  | fuel + 1, va, buf, len, x, hO, hva, hmem, ⟨j, hj, hbad⟩ => by
    rw [copyoutFrom]
    refine wp_ite (fun hlen => ?_) fun hlen => ?_
    · have h0 := pageFrom_zero hva
      have ht := touched_pos va hlen
      rw [wp_bind]
      refine wp_mono (uva2ka_spec (x := x)) ?_ fun _ he => ⟨0, by omega, fun j hj =>
        absurd hj (Nat.not_lt_zero j), by rwa [h0]⟩
      rintro r y ⟨rfl, htab, ⟨rfl, hu⟩ | ⟨hu, rfl⟩⟩
      · exact ⟨0, .refl buf, .inr ⟨rfl, by omega, by rwa [h0], by rwa [h0]⟩⟩
      · rw [pteAt_down] at hu ⊢
        have hoff : va - PGROUNDDOWN va = va % PGSIZE := by
          grind [PGROUNDDOWN]
        have hpos : ¬ min (PGSIZE - va % PGSIZE) len = 0 := by
          lia
        have hf := hmem va hva hu
        obtain ⟨hO1, hdir, hpte⟩ := storedTo_page (va % PGSIZE)
          (min (PGSIZE - va % PGSIZE) len) (fun i => p (buf + i)) hO hk hu hf
        have hnext : ∃ j' < fuel, ¬ UserPage (pteAt (storedTo y (pteFrame (pteAt y.sys.vm pgdir va))
            (va % PGSIZE) (min (PGSIZE - va % PGSIZE) len) fun i => p (buf + i)).sys.vm pgdir
            (pageFrom ((PGROUNDDOWN va + PGSIZE) % 2 ^ 32) j')) := by
          cases j with
          | zero => exact absurd (by rwa [h0, pteAt_down]) hbad
          | succ j =>
            exact ⟨j, Nat.lt_of_succ_lt_succ hj, by rwa [hpte, pageFrom_succ]⟩
        have ih := copyoutFrom_spec hk fuel ((PGROUNDDOWN va + PGSIZE) % 2 ^ 32)
          (buf + min (PGSIZE - va % PGSIZE) len) (len - min (PGSIZE - va % PGSIZE) len) _ hO1
          (Nat.mod_lt _ (by decide))
          (fun a ha hua => by rw [hpte] at hua ⊢; exact hmem a ha hua) hnext
        simp only [hoff, storeBytes, if_neg hpos, wp_bind, wp_modify]
        refine wp_mono ih ?_ ?_
        · rintro r x' ⟨n, hst, hr⟩
          refine ⟨n + 1, hst.cons hO hk hva hu hf rfl, ?_⟩
          rw [hpte, pageFrom_succ, hdir] at hr
          rcases hr with ⟨hr, hn⟩ | ⟨hr, hn, hrest⟩
          · exact .inl ⟨hr, by rw [ht, hn]⟩
          · exact .inr ⟨hr, by omega, hrest⟩
        · rintro e ⟨n, hn, hall, hno⟩
          rw [hdir, pageFrom_succ] at hno
          refine ⟨n + 1, by omega, fun j hj => ?_, hno⟩
          cases j with
          | zero => rwa [h0, pteAt_down]
          | succ j => grind [pageFrom_succ]
    · have h0 : len = 0 := Nat.eq_zero_of_not_pos hlen
      exact ⟨0, .refl buf, .inl ⟨rfl, by rw [h0, touched, if_pos rfl]⟩⟩

/-! ## The call -/

/-- An address of the range in its `j`-th page, before the top. -/
theorem mem_touched (hva : va < 2 ^ 32) (hj : j < touched va len)
    (htop : PGROUNDDOWN va + j * PGSIZE < 2 ^ 32) :
    ∃ a, va ≤ a ∧ a < va + len ∧ a < 2 ^ 32 ∧ PGROUNDDOWN a = pageFrom va j := by
  refine ⟨max va (PGROUNDDOWN va + j * PGSIZE), Nat.le_max_left _ _, ?_⟩
  simp only [touched, pageFrom, PGROUNDDOWN, PGSIZE] at *
  split at hj <;> omega

/-- The page of an address of the range. -/
theorem touched_page {a : Nat} (h1 : va ≤ a) (h2 : a < va + len) (ha : a < 2 ^ 32) :
    ∃ j < touched va len, PGROUNDDOWN va + j * PGSIZE < 2 ^ 32 ∧ pageFrom va j = PGROUNDDOWN a := by
  refine ⟨a / PGSIZE - va / PGSIZE, ?_⟩
  have hlen : len ≠ 0 := by omega
  rw [touched, if_neg hlen]
  grind [pageFrom, PGROUNDDOWN]

/-- The pages stored to are user pages of the range, if none of them is past the top. -/
theorem Stored.confined (h : Stored pgdir p va buf len n x x') (hva : va < 2 ^ 32)
    (hn : n ≤ touched va len) (htop : ∀ j < n, PGROUNDDOWN va + j * PGSIZE < 2 ^ 32) :
    Confined pgdir va len x x' := by
  obtain ⟨mem, hx'⟩ := h.same
  refine ⟨_, congrArg Xstate.wrote hx', fun f hf => ?_, mem, fun f hf => ?_, hx'⟩
  · rw [List.mem_reverse, List.mem_map] at hf
    obtain ⟨j, hj, rfl⟩ := hf
    rw [List.mem_range] at hj
    obtain ⟨a, h1, h2, h3, hpage⟩ := mem_touched hva (hj.trans_le hn) (htop j hj)
    have hpte : pteAt x.sys.vm pgdir a = pteAt x.sys.vm pgdir (pageFrom va j) := by
      rw [← pteAt_down a, hpage]
    exact ⟨a, h1, h2, h3, hpte ▸ h.user j hj, congrArg pteFrame hpte⟩
  · have hkept := h.kept f fun j hj he => hf (by
      rw [List.mem_reverse, List.mem_map]
      exact ⟨j, List.mem_range.2 hj, he⟩)
    rwa [hx'] at hkept

/-- `copyout` stores to user pages up to the first page that is none. -/
theorem copyout_spec (hO : Own L root x.sys.vm) (hk : root k = some pgdir)
    (hmem : ∀ a < 2 ^ 32, UserPage (pteAt x.sys.vm pgdir a) →
      pteFrame (pteAt x.sys.vm pgdir a) < NFRAMES) (hva : va < 2 ^ 32) (len : Nat) :
    wp (copyout pgdir va p len)
      (fun r x' => ∃ n, Stored pgdir p va 0 len n x x' ∧
        ((r = true ∧ n = touched va len) ∨ (r = false ∧ n < touched va len ∧
          ¬ UserPage (pteAt x.sys.vm pgdir (pageFrom va n)) ∧
          present (x.sys.vm.mem pgdir (PDX (pageFrom va n))) = true)))
      (fun _ => ∃ n < touched va len, (∀ j < n, UserPage (pteAt x.sys.vm pgdir (pageFrom va j))) ∧
        ¬ present (x.sys.vm.mem pgdir (PDX (pageFrom va n))) = true) x := by
  obtain ⟨j, hj, hbad⟩ := exists_not_userPage hO hk hmem va
  exact copyoutFrom_spec hk TURNS va 0 len x hO hva hmem
    ⟨j, hj.trans_lt (by decide), hbad⟩

/-- A user page has a page table. -/
theorem UserPage.table (h : UserPage (pteAt s pgdir va)) : present (s.mem pgdir (PDX va)) = true := by
  by_contra hno
  rw [pteAt, if_neg hno] at h
  exact absurd h.1 (by decide)

/-- A range of user pages is a range whose pages are user pages. -/
theorem userRange_iff (hva : va < 2 ^ 32) (htop : va + len ≤ 2 ^ 32) : UserRange s pgdir va len ↔
      ∀ j < touched va len, UserPage (pteAt s pgdir (pageFrom va j)) := by
  refine ⟨fun h j hj => ?_, fun h => ⟨htop, fun a h1 h2 => ?_⟩⟩
  · have hlt : PGROUNDDOWN va + j * PGSIZE < 2 ^ 32 := by
      simp only [touched, PGROUNDDOWN, PGSIZE] at *
      split at hj <;> omega
    obtain ⟨a, h1, h2, -, hpage⟩ := mem_touched hva hj hlt
    have := h.2 a h1 h2
    rwa [← pteAt_down a, hpage] at this
  · obtain ⟨j, hj, -, hpage⟩ := touched_page h1 h2 (by omega)
    have := h j hj
    rwa [hpage, pteAt_down] at this

/-- Of a range past the top, the pages up to the top and the one at address 0 are touched. -/
theorem touched_of_top (h : 2 ^ 32 < va + len) (hj : PGROUNDDOWN va + j * PGSIZE ≤ 2 ^ 32)
    (hva : va < 2 ^ 32) : j < touched va len := by
  have hlen : len ≠ 0 := by omega
  rw [touched, if_neg hlen]
  grind [PGROUNDDOWN]

/-- A store that goes through user pages to the top and on to address 0 is not confined to the
range. -/
theorem Stored.not_confined (hst : Stored pgdir p va buf len n x x')
    (hO : Own L root x.sys.vm) (hk : root k = some pgdir)
    (hmem : ∀ a < 2 ^ 32, UserPage (pteAt x.sys.vm pgdir a) →
      pteFrame (pteAt x.sys.vm pgdir a) < NFRAMES) (hva : va < 2 ^ 32)
    (hbad : ¬ UserPage (pteAt x.sys.vm pgdir (pageFrom va n)))
    (hall : ∀ j, PGROUNDDOWN va + j * PGSIZE ≤ 2 ^ 32 →
      UserPage (pteAt x.sys.vm pgdir (pageFrom va j))) : ¬ Confined pgdir va len x x' := by
  rintro ⟨l, hl, hpages, -⟩
  obtain ⟨K, hK⟩ : ∃ K, PGROUNDDOWN va + K * PGSIZE = 2 ^ 32 := by
    refine ⟨2 ^ 20 - va / PGSIZE, ?_⟩
    grind [PGROUNDDOWN]
  have hKn : K < n := by grind
  have hzero : pageFrom va K = 0 := by rw [pageFrom, hK, Nat.mod_self]
  obtain ⟨mem, hx'⟩ := hst.same
  have hf : pteFrame (pteAt x.sys.vm pgdir 0) ∈ l := by
    rw [List.append_cancel_right (hl.symm.trans (congrArg Xstate.wrote hx')), List.mem_reverse,
      List.mem_map]
    exact ⟨K, List.mem_range.2 hKn, by rw [hzero]⟩
  have hu0 : UserPage (pteAt x.sys.vm pgdir 0) := hzero ▸ hst.user K hKn
  obtain ⟨a, h1, -, ha, hua, he⟩ := hpages _ hf
  have hpage := hO.same_userPage hk (by decide) ha hu0 hua (hmem 0 (by decide) hu0) he
  -- The page at address 0 is in the range only if all pages are, and those are too many.
  obtain ⟨j, hj, hbadj⟩ := exists_not_userPage hO hk hmem va
  refine hbadj (hall j ?_)
  grind [PGROUNDDOWN]

/-- What has to be there for `copyout` to do as it is meant to. -/
theorem CopyoutLaw.ok (h : CopyoutLaw x pgdir va p len) (hO : Own L root x.sys.vm)
    (hk : root k = some pgdir) (hmem : ∀ a < 2 ^ 32, UserPage (pteAt x.sys.vm pgdir a) →
      pteFrame (pteAt x.sys.vm pgdir a) < NFRAMES) (hva : va < 2 ^ 32) :
    CopyoutOk x.sys.vm pgdir va len := by
  have hspec := copyout_spec (p := p) hO hk hmem hva len
  have hrun : ∃ r x', copyout pgdir va p len x = .ok (r, x') := by
    by_cases hr : UserRange x.sys.vm pgdir va len
    · obtain ⟨x', hx', -⟩ := h.1 hr
      exact ⟨_, x', hx'⟩
    · obtain ⟨x', hx', -⟩ := h.2 hr
      exact ⟨_, x', hx'⟩
  refine ⟨fun j hj huser => ?_, fun htop => ?_⟩
  · obtain ⟨r, x', hx'⟩ := hrun
    obtain ⟨n, hst, hr⟩ := wp_ok hspec hx'
    rcases Nat.lt_trichotomy j n with hlt | rfl | hlt
    · exact (hst.user j hlt).table
    · grind
    · grind
  · by_contra hall
    push Not at hall
    obtain ⟨x', hx', hconf⟩ := h.2 fun hr => absurd hr.1 (by omega)
    obtain ⟨n, hst, ⟨hr, -⟩ | ⟨-, hn, hbad, -⟩⟩ := wp_ok hspec hx'
    · cases hr
    · exact hst.not_confined hO hk hmem hva hbad hall hconf

/-- The pages of a range below the top are below the top. -/
theorem touched_below (htop : va + len ≤ 2 ^ 32) (hj : j < touched va len) :
    PGROUNDDOWN va + j * PGSIZE < 2 ^ 32 := by
  simp only [touched, PGROUNDDOWN, PGSIZE] at *
  split at hj <;> omega

/-- All pages of a range below the top stored to: the range holds the source's bytes. -/
theorem Stored.overwritten (hst : Stored pgdir p va 0 len (touched va len) x x')
    (htop : va + len ≤ 2 ^ 32) : Overwritten pgdir va p len x.sys.vm x'.sys.vm := by
  refine ⟨hst.entries, fun a ha hua => ?_⟩
  have hend : PGROUNDDOWN va + touched va len * PGSIZE ≤ 2 ^ 32 ∧
      (va ≤ a ∧ a < va + len → a < PGROUNDDOWN va + touched va len * PGSIZE) := by
    simp only [touched, PGROUNDDOWN, PGSIZE]
    split <;> omega
  rw [hst.bytes hend.1 a ha hua, Nat.zero_add]
  exact if_congr ⟨fun h => ⟨h.1, h.2.1⟩, fun h => ⟨h.1, h.2, hend.2 h⟩⟩ rfl rfl

/-- `copyout` does as it is meant to. -/
theorem CopyoutOk.law (h : CopyoutOk x.sys.vm pgdir va len) (hO : Own L root x.sys.vm)
    (hk : root k = some pgdir) (hmem : ∀ a < 2 ^ 32, UserPage (pteAt x.sys.vm pgdir a) →
      pteFrame (pteAt x.sys.vm pgdir a) < NFRAMES) (p : Bytes) (hva : va < 2 ^ 32) :
    CopyoutLaw x pgdir va p len := by
  obtain ⟨htab, hpast⟩ := h
  obtain ⟨r, x', hrun, n, hst, hr⟩ := wp_total (wp_mono (copyout_spec (p := p) hO hk hmem hva len)
    (fun _ _ h => h) fun _ ⟨n, hn, hu, hno⟩ => hno (htab n hn hu))
  by_cases htop : va + len ≤ 2 ^ 32
  · rw [CopyoutLaw, userRange_iff hva htop]
    refine ⟨fun hall => ?_, fun hall => ?_⟩
    · rcases hr with ⟨rfl, rfl⟩ | ⟨-, hn, hbad, -⟩
      · exact ⟨x', hrun, hst.confined hva le_rfl fun j hj => touched_below htop hj,
          hst.overwritten htop⟩
      · exact absurd (hall n hn) hbad
    · rcases hr with ⟨-, rfl⟩ | ⟨rfl, hn, -⟩
      · exact absurd hst.user hall
      · exact ⟨x', hrun, hst.confined hva hn.le fun j hj => touched_below htop (hj.trans hn)⟩
  · refine ⟨fun hrange => absurd hrange.1 htop, fun _ => ?_⟩
    obtain ⟨j, hj, hbadj⟩ := hpast (by omega)
    rcases hr with ⟨-, rfl⟩ | ⟨rfl, hn, -⟩
    · exact absurd (hst.user j (touched_of_top (by omega) hj hva)) hbadj
    · refine ⟨x', hrun, hst.confined hva hn.le fun i hi => ?_⟩
      have hij : i < j := by
        by_contra hle
        exact hbadj (hst.user j (by omega))
      have := Nat.mul_lt_mul_of_pos_right hij (show 0 < PGSIZE by decide)
      omega

/-- **`copyout` is exact if and only if** there is a page table where it comes to the end of the user
pages, and the range does not run past the top through user pages only. -/
theorem copyout_exact (hO : Own L root x.sys.vm) (hk : root k = some pgdir)
    (hmem : ∀ a < 2 ^ 32, UserPage (pteAt x.sys.vm pgdir a) →
      pteFrame (pteAt x.sys.vm pgdir a) < NFRAMES) (hva : va < 2 ^ 32) (len : Nat) (p : Bytes) :
    CopyoutLaw x pgdir va p len ↔ CopyoutOk x.sys.vm pgdir va len :=
  ⟨fun h => h.ok hO hk hmem hva, fun h => h.law hO hk hmem p hva⟩

end

/-- A state of `exec` around an address space. -/
def xstate (s : State) : Xstate := ⟨⟨s, fun _ => none⟩, 0, 0, 0, [], []⟩

theorem small_frames {i : Nat} {l : List Nat} : ∀ a < 2 ^ 32, UserPage (pteAt (small i l) 400 a) →
    pteFrame (pteAt (small i l) 400 a) < NFRAMES := by
  intro a _ _
  rw [small_pteAt]
  split <;> decide

/-- There is no page table for the address, and `uva2ka` reads an entry through the null pointer. -/
theorem copyout_no_table : Own demoLayout smallRoot (small 0 []) ∧ smallRoot 0 = some 400 ∧
    (∀ a < 2 ^ 32, UserPage (pteAt (small 0 []) 400 a) →
      pteFrame (pteAt (small 0 []) 400 a) < NFRAMES) ∧
    ¬ CopyoutLaw (xstate (small 0 [])) 400 0x400000 (fun _ => 65) 1 := by
  refine ⟨small_own List.nodup_nil (fun f hf => absurd hf List.not_mem_nil), rfl, small_frames,
    fun h => ?_⟩
  have hstop : copyout 400 0x400000 (fun _ => 65) 1 (xstate (small 0 [])) = .error .uva2kaNull := rfl
  have hnot : ¬ UserRange (small 0 []) 400 0x400000 1 := fun hr =>
    absurd (hr.2 0x400000 (by decide) (by decide)).1 (by rw [small_pteAt]; decide)
  obtain ⟨x', hx', -⟩ := h.2 hnot
  rw [hstop] at hx'
  cases hx'

/-- Two bytes in the one user page. -/
theorem copyout_exact_small : CopyoutLaw (xstate (small 0 [])) 400 0xffe (fun _ => 65) 2 := by
  have hO : Own demoLayout smallRoot (small 0 []) :=
    small_own List.nodup_nil fun f hf => absurd hf List.not_mem_nil
  refine (copyout_exact (k := 0) (x := xstate (small 0 [])) hO rfl small_frames (by decide) 2 _).2
    ⟨fun j hj _ => ?_, fun h => absurd h (by decide)⟩
  have hj0 : j = 0 := by
    have ht : touched 0xffe 2 = 1 := by decide
    omega
  subst hj0
  decide

end Dixv6.Vm
