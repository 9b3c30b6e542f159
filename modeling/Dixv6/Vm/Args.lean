import Dixv6.Vm.Image

/-!
# The arguments of a program

After the loading `exec` adds two pages, takes the first of them from the user and builds the stack
downward from the end of the second: the argument strings, then a call frame. `FrameAt` says what the
new program finds there, read through its page directory. Nothing in the code looks whether the
strings fit; what stops a copy that does not is that it starts in or below the guard page, or so far
below that the stack pointer wraps around into the kernel's part.

**`exec_args`** says when that works (`ArgsOk`): there are addresses in the kernel's part without a
page table, where `uva2ka` does not return, and there may be no page table for the stack page itself.

`Stack` describes the address space while the stack is built. `copyout_inside` and
`copyout_outside` are about one copy, `pushArgs_spec` and `pushStack_spec` about all of them.
-/

namespace Dixv6.Vm

open Lib Function

/-! ## What the program is to find -/

/-- What an argument string takes on the stack. -/
def slot (a : List UInt8) : Nat := (a.length + 1 + 3) / 4 * 4

/-- The strings and the call frame fit in a page. -/
def Fits (argv : List (List UInt8)) : Prop :=
  (argv.map slot).sum + 4 * (argv.length + 4) ≤ PGSIZE

/-- The word at the address `a`. -/
def word (v : State) (d a : Nat) : Nat := Bytes.leGet (userByte v d) a 4

/-- The initial stack of a program of size `sz`, read as a call frame at `esp`, with the array of
argument pointers at `av` and the argument strings at `ptr`. -/
structure FrameAt (v : State) (d sz esp av : Nat) (ptr : Nat → Nat) (argv : List (List UInt8)) :
    Prop where
  retpc : word v d esp = 0xffffffff
  argc : word v d (esp + 4) = argv.length
  array : word v d (esp + 8) = av
  pointers : ∀ i < argv.length, word v d (av + 4 * i) = ptr i
  null : word v d (av + 4 * argv.length) = 0
  aligned : ∀ i < argv.length, ptr i % 4 = 0
  /-- A copy of the string with a zero byte after it. -/
  strings : ∀ i a, argv[i]? = some a → ∀ j ≤ a.length, userByte v d (ptr i + j) = cstring a j
  /-- All of it is in the stack page, which is the user's. -/
  page : ∀ a, sz - PGSIZE ≤ a → a < sz → UserPage (pteAt v d a)
  low : sz - PGSIZE ≤ esp ∧ esp + 12 ≤ av ∧ av + 4 * (argv.length + 1) ≤ sz
  high : ∀ i a, argv[i]? = some a →
    av + 4 * (argv.length + 1) ≤ ptr i ∧ ptr i + (a.length + 1) ≤ sz
  apart : ∀ i j a, i < j → argv[j]? = some a → ptr j + (a.length + 1) ≤ ptr i

/-- What `exec` is meant to do with its arguments, once the program is loaded. -/
def ArgsLaw (L : Layout) (i : Nat) (p : Proc) (F : File) (path : List UInt8)
    (argv : List (List UInt8)) (x : Xstate) : Prop :=
  (∀ x', exec L i p (some F) path argv x = .ok (0, x') →
    ∃ d sz, x'.sys.procs i = some ⟨d, sz⟩ ∧ ∃ av ptr, FrameAt x'.sys.vm d sz x'.esp av ptr argv) ∧
  (¬ Fits argv → ∃ x', exec L i p (some F) path argv x = .ok (-1, x'))

/-- How far down from the end of the stack page the copies go, up to the first that leaves the page;
`c` bytes have been used for `argc` strings. -/
def reach : List (List UInt8) → Nat → Nat → Nat
  | [], argc, c => c + 4 * (argc + 4)
  | a :: argv, argc, c =>
    if PGSIZE < c + slot a then c + slot a else reach argv (argc + 1) (c + slot a)

/-- The copy that goes `down` bytes below `top` comes to an end: it does not wrap around, or it wraps
to where the kernel's part has page tables. -/
def Lands (top down : Nat) : Prop :=
  down ≤ top ∨ top + 2 ^ 32 - down < KERNBASE + PHYSTOP ∨ DEVSPACE ≤ top + 2 ^ 32 - down

/-- The frames run out at the page table of the stack page, after a program of `sz` bytes. -/
def StackLost (n sz : Nat) : Prop := n = 2 ∧ (PGROUNDUP sz + PGSIZE) % 2 ^ 22 = 0

/-- If the arguments do not fit, and there is room and there are frames for a stack, then the first
copy that leaves the stack page lands, and it is the first of all if the stack page was lost; `n` is
the number of free frames when the program of `sz` bytes is loaded. -/
def ArgsOk (n sz : Nat) (argv : List (List UInt8)) : Prop :=
  ¬ Fits argv → PGROUNDUP sz + 2 * PGSIZE < KERNBASE →
    2 + (if PGROUNDUP sz % 2 ^ 22 = 0 then 1 else 0) ≤ n →
    Lands (PGROUNDUP sz + 2 * PGSIZE) (reach argv 0 0) ∧
      (StackLost n sz → ∀ a ∈ argv.head?, PGSIZE < slot a)

/-! ## The stack page and the guard page -/

/-- The address space while the stack below `top` is built; `lost` says that the stack page has no
page table. -/
structure Stack (L : Layout) (root : Nat → Option Nat) (k d top : Nat) (lost : Prop) (v : State) :
    Prop where
  own : Own L root v
  dir : root k = some d
  size : 2 * PGSIZE ≤ top ∧ top < KERNBASE ∧ top % PGSIZE = 0
  frames : ∀ a < 2 ^ 32, UserPage (pteAt v d a) → pteFrame (pteAt v d a) < NFRAMES
  sound : ∀ va < KERNBASE, present (pteAt v d va) = true → pteFrame (pteAt v d va) < NFRAMES
  program : ∀ va, va + 2 * PGSIZE < top → UserPage (pteAt v d va)
  guard : ∀ va, top ≤ va + 2 * PGSIZE → va + PGSIZE < top →
    ¬ UserPage (pteAt v d va) ∧ present (v.mem d (PDX va)) = true
  stack : ∀ va, top ≤ va + PGSIZE → va < top → ¬ lost → UserPage (pteAt v d va)
  missing : lost → ∀ va, top ≤ va + PGSIZE → va < top → ¬ present (v.mem d (PDX va)) = true
  above : ∀ va < 2 ^ 32, top ≤ va → ¬ UserPage (pteAt v d va)
  kern : ∀ va < 2 ^ 32, KERNBASE ≤ va → user (pteAt v d va) = false
  ktables : ∀ i, 512 ≤ i → i < 1024 → (present (v.mem d i) = true ↔ i < 568 ∨ 1016 ≤ i)

section
variable {L : Layout} {root : Nat → Option Nat} {v v' : State} {x x' : Xstate}
  {k d sz top w i va len esp : Nat} {lost : Prop} {argv : List (List UInt8)}

/-- It can be freed. -/
theorem Stack.clean (h : Stack L root k d top lost v) : Clean L root k d v :=
  ⟨h.own, h.dir, h.kern, h.sound⟩

/-- The first page after the image has a table unless it is the first of one. -/
theorem Image.next_table (h : Image L root k d sz v) (hne : v.freelist ≠ [])
    (hlt : PGROUNDUP sz < KERNBASE) :
    present (v.mem d (PDX (PGROUNDUP sz))) = true ↔ ¬ PGROUNDUP sz % 2 ^ 22 = 0 := by
  rw [(h.tables.resolve_left hne) _ (by grind [PDX])]
  grind [PDX]

/-- The page after that has none if it is the first of one. -/
theorem Image.second_table (h : Image L root k d sz v) (hne : v.freelist ≠ [])
    (hlt : PGROUNDUP sz + PGSIZE < KERNBASE) (hfirst : (PGROUNDUP sz + PGSIZE) % 2 ^ 22 = 0) :
    ¬ present (v.mem d (PDX (PGROUNDUP sz + PGSIZE))) = true := by
  rw [(h.tables.resolve_left hne) _ (by grind [PDX])]
  grind [PDX]

/-- How many frames two pages from `a` on take. -/
theorem need_two {a : Nat} (hmod : a % PGSIZE = 0)
    (h1 : present (v.mem d (PDX a)) = true ↔ ¬ a % 2 ^ 22 = 0)
    (h2 : (a + PGSIZE) % 2 ^ 22 = 0 → ¬ present (v.mem d (PDX (a + PGSIZE))) = true) :
    need v d a 1 = 1 + (if a % 2 ^ 22 = 0 then 1 else 0) ∧
    need v d a 2 = need v d a 1 + 1 + (if (a + PGSIZE) % 2 ^ 22 = 0 then 1 else 0) := by
  have h0 : need v d a 0 = 0 := by simp [need, missingTables]
  have hsame : PDX (a + PGSIZE) = PDX a ↔ ¬ (a + PGSIZE) % 2 ^ 22 = 0 := by
    simp only [PDX, PGSIZE] at hmod ⊢
    omega
  constructor
  · have hcond : (present (v.mem d (PDX (a + 0 * PGSIZE))) = true ∨
        ∃ i < 0, PDX (a + 0 * PGSIZE) = PDX (a + i * PGSIZE)) ↔ ¬ a % 2 ^ 22 = 0 := by
      rw [Nat.zero_mul, Nat.add_zero, h1]
      simp
    rw [need_succ, h0]
    simp only [hcond, ite_not]
  · have hcond : (present (v.mem d (PDX (a + 1 * PGSIZE))) = true ∨
        ∃ i < 1, PDX (a + 1 * PGSIZE) = PDX (a + i * PGSIZE)) ↔ ¬ (a + PGSIZE) % 2 ^ 22 = 0 := by
      rw [Nat.one_mul]
      constructor
      · grind
      · grind
    rw [need_succ]
    simp only [hcond, ite_not]

/-- Two pages after an image can be had if there are frames for them and for the table of the first. -/
theorem Image.ready_two (h : Image L root k d sz v) (hlt : PGROUNDUP sz + 2 * PGSIZE < KERNBASE) :
    Ready v d (PGROUNDUP sz) 2 ↔
      2 + (if PGROUNDUP sz % 2 ^ 22 = 0 then 1 else 0) ≤ v.freelist.length := by
  have hmod : PGROUNDUP sz % PGSIZE = 0 := by grind [PGROUNDUP]
  have hlow : PGROUNDUP sz < KERNBASE ∧ PGROUNDUP sz + PGSIZE < KERNBASE := by omega
  have habs : ∀ i < 2, ¬ present (pteAt v d (PGROUNDUP sz + i * PGSIZE)) = true := by
    intro i hi
    have hle : i * PGSIZE ≤ 1 * PGSIZE := Nat.mul_le_mul_right PGSIZE (Nat.le_of_lt_succ hi)
    exact h.above _ ((Nat.add_le_add_left hle _).trans_lt hlow.2) (Nat.le_add_right _ _)
  have hone : need v d (PGROUNDUP sz) 1 = 1 + missingTables v d (PGROUNDUP sz) 1 := rfl
  have hready : Ready v d (PGROUNDUP sz) 2 ↔
      need v d (PGROUNDUP sz) 1 + 1 ≤ v.freelist.length := by
    rw [Ready, and_iff_right habs, imp_iff_right (by decide), hone]
    show 2 + missingTables v d (PGROUNDUP sz) 1 ≤ _ ↔ _
    omega
  rw [hready]
  by_cases hnil : v.freelist = []
  · rw [hnil, List.length_nil]
    omega
  · rw [(need_two hmod (h.next_table hnil hlow.1) fun hf => h.second_table hnil hlow.2 hf).1]
    omega

/-- An image with its last page filled up. -/
theorem Image.up (h : Image L root k d sz v) (hlt : PGROUNDUP sz < KERNBASE) :
    Image L root k d (PGROUNDUP sz) v := by
  have hup : PGROUNDUP (PGROUNDUP sz) = PGROUNDUP sz := by
    grind [PGROUNDUP]
  exact ⟨h.own, h.dir, hlt, by rw [hup]; exact h.pages, by rw [hup]; exact h.above, h.kern, h.ktables,
    by rw [hup]; exact h.tables⟩

/-- **The two pages for the stack**: they are there, or the second has no page table, or the frames did
not do. -/
theorem Image.addStack (h : Image L root k d sz v) (htop : top = PGROUNDUP sz + 2 * PGSIZE) :
    wp (allocuvm L d (PGROUNDUP sz) top) (fun r v' =>
      (r = 0 ∧ Clean L root k d v' ∧ ¬ (top < KERNBASE ∧
        2 + (if PGROUNDUP sz % 2 ^ 22 = 0 then 1 else 0) ≤ v.freelist.length)) ∨
      (r = top ∧ top < KERNBASE ∧
        2 + (if PGROUNDUP sz % 2 ^ 22 = 0 then 1 else 0) ≤ v.freelist.length ∧
        Image L root k d top v' ∧
        (∀ va, va + PGSIZE < top → present (v'.mem d (PDX va)) = true) ∧
        ∀ va, top ≤ va + PGSIZE → va < top →
          (present (v'.mem d (PDX va)) = true ↔ ¬ StackLost v.freelist.length sz)))
      (fun _ => False) v := by
  by_cases hlt : top < KERNBASE
  swap
  · rw [allocuvm, if_pos (Nat.le_of_not_lt hlt)]
    exact .inl ⟨rfl, h.clean, fun hc => hlt hc.1⟩
  have hmod : PGROUNDUP sz % PGSIZE = 0 := by grind [PGROUNDUP]
  have hroom : PGROUNDUP sz + PGSIZE < KERNBASE := by lia
  have hup : PGROUNDUP (PGROUNDUP sz) = PGROUNDUP sz := by
    grind [PGROUNDUP]
  have hN : newPages (PGROUNDUP sz) top = 2 := by
    rw [newPages, hup, htop]
    lia
  have hi := h.up (by omega)
  have habs : ∀ va, PGROUNDUP (PGROUNDUP sz) ≤ va → va < top → ¬ present (pteAt v d va) = true :=
    fun va h1 h2 => hi.above va (h2.trans hlt) h1
  have hle : PGROUNDUP sz ≤ top := by omega
  have hpos : 0 < top := by lia
  have hout := wp_and_any (wp_and_any (allocuvm_outcome h.own h.dir hle hlt habs)
    (wp_mono (allocuvm_result h.own h.dir (PGROUNDUP sz) top hle hpos) (fun _ _ h => h)
      fun _ _ => trivial)) (wp_mono (hi.grow top) (fun _ _ h => h) fun _ _ => trivial)
  rw [hN, hup] at hout
  refine wp_post hout ?_
  have hready := h.ready_two (htop ▸ hlt)
  rintro r v' ⟨⟨hcase, ⟨rfl, -, hr⟩ | ⟨rfl, hr⟩⟩, ⟨hr0, hclean⟩ | ⟨hr0, himg⟩⟩
  · omega
  · have hn := hready.1 hr
    have hne : v.freelist ≠ [] := by grind
    have hneed := need_two (v := v) (d := d) hmod (h.next_table hne (by omega))
      fun hf => h.second_table hne hroom hf
    refine .inr ⟨rfl, hlt, hn, himg, ?_⟩
    have hold : ∀ va, va < PGROUNDUP sz → present (v.mem d (PDX va)) = true := fun va hva =>
      h.table hne hva
    rcases hcase with ⟨-, ⟨hg, -⟩ | ⟨j, f, hj, hs, hlen, hneed', -⟩⟩ | ⟨hr0, -⟩
    · have hcount := hg.count
      have hkept : ¬ StackLost v.freelist.length sz := by
        rintro ⟨h1, h2⟩
        rw [if_pos h2] at hneed
        omega
      have htab : ∀ va < r, present (v'.mem d (PDX va)) = true := by
        intro va hva
        rw [hg.tables _ (PDX_lt va)]
        by_cases hold' : va < PGROUNDUP sz
        · exact .inl (hold va hold')
        · refine .inr ⟨(va - PGROUNDUP sz) / PGSIZE, ?_, ?_⟩
          · lia
          · simp only [PDX, PGSIZE] at hmod ⊢
            omega
      exact ⟨fun va hva => htab va (by omega), fun va _ hva => iff_of_true (htab va hva) hkept⟩
    · obtain rfl : j = 1 := by omega
      have hfirst : (PGROUNDUP sz + PGSIZE) % 2 ^ 22 = 0 := by grind
      have hold' : ¬ PGROUNDUP sz % 2 ^ 22 = 0 := by
        lia
      rw [if_neg hold'] at hneed
      have hlost : StackLost v.freelist.length sz := ⟨by omega, hfirst⟩
      refine ⟨fun va hva => ?_, fun va h1 h2 => iff_of_false ?_ (not_not.2 hlost)⟩
      · rw [hs.tables _ (PDX_lt va)]
        by_cases hva' : va < PGROUNDUP sz
        · exact .inl (hold va hva')
        · refine .inl ?_
          have hsame : PDX va = PDX (PGROUNDUP sz) := by
            grind [PDX]
          rw [hsame]
          exact (h.next_table hne (by omega)).2 hold'
      · have hsame : PDX va = PDX (PGROUNDUP sz + PGSIZE) := by
          grind [PDX]
        rw [hsame, hs.tables _ (PDX_lt _)]
        rintro (hp | ⟨i, hi, he⟩)
        · exact h.second_table hne hroom hfirst hp
        · grind [PDX]
    · omega
  · grind
  · omega

/-- An entry without its `PTE_U` bit. -/
theorem clear_user (hw : pteFrame w < NFRAMES) :
    present (w &&& (2 ^ 32 - 1 - PTE_U)) = present w ∧ user (w &&& (2 ^ 32 - 1 - PTE_U)) = false ∧
      pteFrame (w &&& (2 ^ 32 - 1 - PTE_U)) = pteFrame w := by
  have h0 : (2 ^ 32 - 1 - PTE_U).testBit 0 = true := by decide
  have h2 : (2 ^ 32 - 1 - PTE_U).testBit 2 = false := by decide
  refine ⟨?_, ?_, ?_⟩
  · rw [present, Nat.testBit_and, h0, Bool.and_true, present]
  · rw [user, Nat.testBit_and, h2, Bool.and_false]
  · have hdiv : (2 ^ 32 - 1 - PTE_U) / 2 ^ 12 = 2 ^ 20 - 1 := by decide
    have hand : (w &&& (2 ^ 32 - 1 - PTE_U)) / 2 ^ 12 = w / 2 ^ 12 := by
      rw [Nat.and_div_two_pow, hdiv, Nat.and_two_pow_sub_one_eq_mod, Nat.mod_eq_of_lt]
      grind [pteFrame]
    exact hand

/-- An entry of a page table rewritten with one that owns the same frame. -/
theorem Own.same_entry {t j : Nat} (hO : Own L root v) (ht : node root v k [i] = some t)
    (hw : ownedFrame i w = ownedFrame i (v.mem t j))
    (hmem : v'.mem = update v.mem t (update (v.mem t) j w)) (hfree : v'.freelist = v.freelist) :
    (∀ k π, node root v' k π = node root v k π) ∧ Own L root v' := by
  have hentry : ∀ y, shape.entry k [y, i] (update (v.mem t) j w) =
      shape.entry k [y, i] (v.mem t) := by
    intro y
    by_cases hy : y = j
    · subst hy
      simp only [shape, update_self, hw]
    · simp only [shape, update_of_ne hy]
  have hbelow : ∀ y, node root v k [y, j, i] = none := by
    intro y
    cases hn : node root v k [j, i] with
    | none => exact Shape.node_cons_none hn
    | some f => exact Shape.node_child hn
  have hn : ∀ k' π, node root v' k' π = node root v k' π := by
    intro k' π
    rw [node, hmem, Shape.node_set_child (j := j) hO.distinct ht (fun y _ => hentry y) hbelow
      fun _ _ _ => rfl]
    split
    · next h =>
      rw [h.1, h.2, hentry, node, Shape.node_child ht]
    · rfl
  refine ⟨hn, hfree ▸ hO.nodup, hfree ▸ hO.free, hO.distinct.mono fun k π _ h => (hn k π).symm.trans h,
    fun k π f h => ?_, fun k π f h => hO.valid k π f (hn k π ▸ h)⟩
  rw [hfree]
  exact hO.notfree k π f (hn k π ▸ h)

/-- The entry of a page without its `PTE_U` bit. -/
theorem Own.clear_entry {t : Nat} (hO : Own L root v) (hk : root k = some d)
    (ht : node root v k [PDX va] = some t) (hlow : va < KERNBASE)
    (hf : pteFrame (pteAt v d va) < NFRAMES)
    (hmem : v'.mem = update v.mem t (update (v.mem t) (PTX va)
      (v.mem t (PTX va) &&& (2 ^ 32 - 1 - PTE_U)))) (hfree : v'.freelist = v.freelist) :
    Own L root v' ∧ v'.mem d = v.mem d ∧ ∀ a, pteAt v' d a =
      if PDX a = PDX va ∧ PTX a = PTX va then pteAt v d va &&& (2 ^ 32 - 1 - PTE_U)
      else pteAt v d a := by
  have hpte := pteAt_of_table hk ht
  have hw : ownedFrame (PDX va) (v.mem t (PTX va) &&& (2 ^ 32 - 1 - PTE_U)) =
      ownedFrame (PDX va) (v.mem t (PTX va)) := by
    obtain ⟨h1, -, h3⟩ := clear_user (hpte ▸ hf)
    have hi : PDX va < 512 := by grind [PDX]
    simp only [ownedFrame, h1, h3, hi, true_or, true_and]
  have hdir : d ≠ t := fun e => by
    have := (hO.distinct k _ k _ t (e ▸ hk : node root v k [] = some t) ht).2
    cases this
  obtain ⟨hn, hO'⟩ := hO.same_entry ht hw hmem hfree
  refine ⟨hO', by rw [hmem, update_of_ne hdir], fun a => ?_⟩
  cases hy : node root v k [PDX a] with
  | none =>
    rw [if_neg, pteAt_of_no_table hk ((hn k _).trans hy), pteAt_of_no_table hk hy]
    rintro ⟨h1, -⟩
    rw [h1, ht] at hy
    cases hy
  | some y =>
    rw [pteAt_of_table hk ((hn k _).trans hy), pteAt_of_table hk hy, hpte, hmem]
    by_cases hyt : y = t
    · subst hyt
      have hi : PDX a = PDX va := (List.cons.inj (hO.distinct k _ k _ y hy ht).2).1
      rw [update_self]
      by_cases hj : PTX a = PTX va
      · rw [hj, update_self, if_pos ⟨hi, rfl⟩]
      · rw [update_of_ne hj, if_neg fun h => hj h.2]
    · rw [update_of_ne hyt, if_neg]
      rintro ⟨h1, -⟩
      rw [h1, ht] at hy
      exact hyt (Option.some.inj hy).symm

/-- **The guard page** is taken from the user and otherwise stays as it is. -/
theorem clearpteu_spec (hO : Own L root x.sys.vm) (hk : root k = some d)
    (hlow : va < KERNBASE) (htab : present (x.sys.vm.mem d (PDX va)) = true)
    (hf : pteFrame (pteAt x.sys.vm d va) < NFRAMES) :
    wp (clearpteu d va) (fun _ x' => ∃ v', x' = { x with sys := { x.sys with vm := v' } } ∧
      Own L root v' ∧ v'.mem d = x.sys.vm.mem d ∧ ∀ a, pteAt v' d a =
        if PDX a = PDX va ∧ PTX a = PTX va then pteAt x.sys.vm d va &&& (2 ^ 32 - 1 - PTE_U)
        else pteAt x.sys.vm d a)
      (fun _ => False) x := by
  have ht : node root x.sys.vm k [PDX va] = some (pteFrame (x.sys.vm.mem d (PDX va))) := by
    rw [node_table hk (PDX_lt va), if_pos htab]
  simp only [clearpteu, wp_bind, wp_vm]
  refine wp_mono (walkpgdir_look (E := fun _ => False) (s := x.sys.vm) hk va) ?_ fun _ h => h
  rintro r s' ⟨rfl, rfl⟩
  rw [ht]
  exact ⟨_, rfl, hO.clear_entry hk ht hlow hf rfl rfl⟩

/-- **The address space with a stack**, once the guard page is taken from the user. -/
theorem Image.stack (h : Image L root k d top v)
    (hsize : 2 * PGSIZE ≤ top ∧ top < KERNBASE ∧ top % PGSIZE = 0)
    (hlow : ∀ va, va + PGSIZE < top → present (v.mem d (PDX va)) = true)
    (hpage : ∀ va, top ≤ va + PGSIZE → va < top →
      (present (v.mem d (PDX va)) = true ↔ ¬ lost)) (hO : Own L root v')
    (hdir : v'.mem d = v.mem d) (hpte : ∀ a, pteAt v' d a =
      if PDX a = PDX (top - 2 * PGSIZE) ∧ PTX a = PTX (top - 2 * PGSIZE)
      then pteAt v d (top - 2 * PGSIZE) &&& (2 ^ 32 - 1 - PTE_U) else pteAt v d a) :
    Stack L root k d top lost v' := by
  obtain ⟨h2, htop, hmod⟩ := hsize
  have hup : PGROUNDUP top = top := by
    grind [PGROUNDUP]
  have hpages := h.pages
  have habove := h.above
  rw [hup] at hpages habove
  have hguard : pteFrame (pteAt v d (top - 2 * PGSIZE)) < NFRAMES := by grind
  obtain ⟨-, hu, hf⟩ := clear_user hguard
  -- an address is in the guard page or has the entry it had
  have hcase : ∀ a < 2 ^ 32, (top ≤ a + 2 * PGSIZE ∧ a + PGSIZE < top ∧ pteAt v' d a =
      pteAt v d (top - 2 * PGSIZE) &&& (2 ^ 32 - 1 - PTE_U)) ∨
      (¬ (top ≤ a + 2 * PGSIZE ∧ a + PGSIZE < top) ∧ pteAt v' d a = pteAt v d a) := by
    intro a ha
    have hiff : (PDX a = PDX (top - 2 * PGSIZE) ∧ PTX a = PTX (top - 2 * PGSIZE)) ↔
        (top ≤ a + 2 * PGSIZE ∧ a + PGSIZE < top) := by
      rw [Vm.same_page ha (by lia)]
      lia
    by_cases hg : top ≤ a + 2 * PGSIZE ∧ a + PGSIZE < top
    · grind
    · exact .inr ⟨hg, by rw [hpte, if_neg (mt hiff.1 hg)]⟩
  have hnone : ∀ va < 2 ^ 32, top ≤ va → ¬ UserPage (pteAt v d va) := by
    intro va hva h1 hua
    by_cases hk : va < KERNBASE
    · exact habove va hk h1 hua.1
    · have := h.kern va hva (Nat.le_of_not_lt hk)
      rw [hua.2] at this
      cases this
  refine ⟨hO, h.dir, ⟨h2, htop, hmod⟩, fun a ha hua => ?_, fun va hva hp => ?_, fun va hva => ?_,
    fun va h1 h2 => ?_, fun va h1 h2 hl => ?_, fun hl va h1 h2 => ?_, fun va h1 h2 => ?_,
    fun va h1 h2 => ?_, by rw [hdir]; exact h.ktables⟩
  · rcases hcase a ha with ⟨-, -, he⟩ | ⟨-, he⟩
    · rw [he, UserPage, hu] at hua
      cases hua.2
    · rw [he] at hua ⊢
      have ha' : a < top := by grind
      exact (hpages a ha' hua.table).2
  · rcases hcase va (by lia) with ⟨-, -, he⟩ | ⟨-, he⟩
    · rw [he, hf]
      exact hguard
    · rw [he] at hp ⊢
      exact h.clean.sound va hva hp
  · grind
  · grind [UserPage]
  · grind
  · rw [hdir]
    exact fun hp => (hpage va h1 h2).1 hp hl
  · grind
  · rcases hcase va h1 with ⟨-, h3, -⟩ | ⟨-, he⟩
    · omega
    · rw [he]
      exact h.kern va h1 h2

/-! ## One copy -/

/-- Stores to user pages change no page table. -/
theorem Confined.keep (hc : Confined d va len x x') (hO : Own L root x.sys.vm)
    (hk : root k = some d)
    (hmem : ∀ a < 2 ^ 32, UserPage (pteAt x.sys.vm d a) → pteFrame (pteAt x.sys.vm d a) < NFRAMES) :
    Own L root x'.sys.vm ∧ x'.sys.vm.mem d = x.sys.vm.mem d ∧
      ∀ a, pteAt x'.sys.vm d a = pteAt x.sys.vm d a := by
  obtain ⟨l, -, hl, mem, hsame, rfl⟩ := hc
  have hinner : ∀ k' π g, shape.inner k' π → node root x.sys.vm k' π = some g →
      mem g = x.sys.vm.mem g := by
    intro k' π g hi hn
    refine hsame g fun hg => ?_
    obtain ⟨a, -, -, ha, hu, rfl⟩ := hl g hg
    have hπ := (hO.distinct _ _ _ _ _ hn (node_of_userPage hk hu (hmem a ha hu))).2
    rw [hπ] at hi
    simp [shape] at hi
  have hn : ∀ k' π, node root { x.sys.vm with mem } k' π = node root x.sys.vm k' π := fun k' π =>
    Shape.node_congr rfl (fun π a hi ha => hinner k' π a hi ha) π
  have hdir : mem d = x.sys.vm.mem d := hinner k [] d (by simp [shape]) hk
  refine ⟨⟨hO.nodup, hO.free, hO.distinct.mono fun k π _ h => (hn k π).symm.trans h,
    fun k π f h => hO.notfree k π f (hn k π ▸ h), fun k π f h => hO.valid k π f (hn k π ▸ h)⟩, hdir,
    fun a => ?_⟩
  cases ht : node root x.sys.vm k [PDX a] with
  | none => rw [pteAt_of_no_table hk ((hn k _).trans ht), pteAt_of_no_table hk ht]
  | some t =>
    rw [pteAt_of_table hk ((hn k _).trans ht), pteAt_of_table hk ht]
    exact congrFun (hinner k _ t (by simp [shape]) ht) _

/-- A copy keeps the address space. -/
theorem Stack.keep (h : Stack L root k d top lost x.sys.vm)
    (hc : Confined d va len x x') : Stack L root k d top lost x'.sys.vm := by
  obtain ⟨hO, hdir, hpte⟩ := hc.keep h.own h.dir h.frames
  refine ⟨hO, h.dir, h.size, ?_, ?_, ?_, ?_, ?_, ?_, ?_, ?_, ?_⟩ <;> simp only [hpte, hdir]
  · exact h.frames
  · exact h.sound
  · exact h.program
  · exact h.guard
  · exact h.stack
  · exact h.missing
  · exact h.above
  · exact h.kern
  · exact h.ktables

/-- **A copy into the stack page.** -/
theorem copyout_inside (va len : Nat) (h : Stack L root k d top lost x.sys.vm) (hl : ¬ lost)
    (hlow : top ≤ va + PGSIZE) (hend : va + len ≤ top) (p : Bytes) :
    ∃ x', copyout d va p len x = .ok (true, x') ∧ Confined d va len x x' ∧
      Overwritten d va p len x.sys.vm x'.sys.vm := by
  obtain ⟨h2, htop, hmod⟩ := h.size
  simp only [PGSIZE, KERNBASE] at h2 htop
  have hva : va < 2 ^ 32 := by omega
  have hrange : UserRange x.sys.vm d va len := by
    refine ⟨by omega, fun a h1 h2 => h.stack a ?_ ?_ hl⟩ <;> omega
  have hok : CopyoutOk x.sys.vm d va len := by
    refine ⟨fun j hj _ => ?_, fun hpast => absurd hrange.1 (by omega)⟩
    exact ((userRange_iff hva hrange.1).1 hrange j hj).table
  exact (hok.law h.own h.dir h.frames p hva).1 hrange

/-- A copy to where there is no page table. -/
theorem copyout_nowhere (len : Nat) (h : Stack L root k d top lost x.sys.vm) (hva : va < 2 ^ 32)
    (htab : ¬ present (x.sys.vm.mem d (PDX va)) = true) (hlen : 0 < len) (p : Bytes) :
    ∃ e, copyout d va p len x = .error e := by
  have hfirst : PDX (pageFrom va 0) = PDX va := by rw [pageFrom_zero hva, PDX_down]
  cases hrun : copyout d va p len x with
  | error e => exact ⟨e, rfl⟩
  | ok r =>
    exfalso
    obtain ⟨n, hst, hr⟩ := wp_ok (copyout_spec (p := p) h.own h.dir h.frames hva len) hrun
    cases n with
    | zero => grind [touched]
    | succ n => exact htab (hfirst ▸ (hst.user 0 (Nat.succ_pos n)).table)

/-- Where the copy goes that ends `down` bytes below `top`. -/
def below (top down : Nat) : Nat := if down ≤ top then top - down else top + 2 ^ 32 - down

/-- A copy that starts in or below the guard page is stopped by it. -/
theorem copyout_guard (h : Stack L root k d top lost x.sys.vm)
    (hlow : va + PGSIZE < top) (hhigh : top ≤ va + len + (PGSIZE + 3)) (hend : va + len ≤ top)
    (hlen : 0 < len) (p : Bytes) :
    ∃ x', copyout d va p len x = .ok (false, x') ∧ Confined d va len x x' := by
  obtain ⟨h2, htop, hmod⟩ := h.size
  simp only [PGSIZE, KERNBASE] at h2 htop hmod hlow hhigh
  have hva : va < 2 ^ 32 := by omega
  have hnot : ¬ UserRange x.sys.vm d va len := fun hr => by
    -- the last byte of the copy, or of the guard page
    refine (h.guard (min (va + len - 1) (top - 4096 - 1)) ?_ ?_).1 (hr.2 _ ?_ ?_)
    all_goals lia
  have hok : CopyoutOk x.sys.vm d va len := by
    refine ⟨fun j hj huser => ?_, fun hpast => absurd hend (by omega)⟩
    have hpage : pageFrom va j = PGROUNDDOWN va + j * PGSIZE :=
      Nat.mod_eq_of_lt (touched_below (by omega) hj)
    have hle : PGROUNDDOWN va + j * PGSIZE + PGSIZE < top := by
      by_contra hge
      have hi := huser ((top - 2 * PGSIZE - PGROUNDDOWN va) / PGSIZE) (by
        grind [PGROUNDDOWN])
      have hg : pageFrom va ((top - 2 * PGSIZE - PGROUNDDOWN va) / PGSIZE) = top - 2 * PGSIZE := by
        grind [pageFrom, PGROUNDDOWN]
      rw [hg] at hi
      refine (h.guard (top - 2 * PGSIZE) ?_ ?_).1 hi <;> simp only [PGSIZE] <;> omega
    rw [hpage]
    by_cases hprog : PGROUNDDOWN va + j * PGSIZE + 2 * PGSIZE < top
    · exact (h.program _ hprog).table
    · exact (h.guard _ (Nat.le_of_not_lt hprog) hle).2
  exact (hok.law h.own h.dir h.frames p hva).2 hnot

/-- A copy to the kernel's part is stopped there if there is a page table. -/
theorem copyout_kernel (h : Stack L root k d top lost x.sys.vm)
    (hk : KERNBASE ≤ va) (hva : va < 2 ^ 32) (hlen : 0 < len)
    (htab : present (x.sys.vm.mem d (PDX va)) = true) (p : Bytes) :
    ∃ x', copyout d va p len x = .ok (false, x') ∧ Confined d va len x x' := by
  have htop := h.size.2.1
  have hpage : pageFrom va 0 = PGROUNDDOWN va := pageFrom_zero hva
  have hno : ¬ UserPage (pteAt x.sys.vm d va) := h.above va hva (by omega)
  have hfirst : ¬ UserPage (pteAt x.sys.vm d (pageFrom va 0)) := by rwa [hpage, pteAt_down]
  have hok : CopyoutOk x.sys.vm d va len := by
    refine ⟨fun j hj huser => ?_, fun _ => ⟨0, ?_, hfirst⟩⟩
    · grind [PDX_down]
    · grind [PGROUNDDOWN]
  exact (hok.law h.own h.dir h.frames p hva).2 fun hr => hno (hr.2 va le_rfl (by omega))

/-- **A copy that leaves the stack page** is stopped if it lands, and does not return if not. -/
theorem copyout_outside (c w len : Nat) (h : Stack L root k d top lost x.sys.vm) (hc : c ≤ PGSIZE)
    (hout : PGSIZE < c + w) (hlen : 0 < len) (hw : len ≤ w) (hw' : w ≤ len + 3)
    (hlt : w ≤ KERNBASE) (p : Bytes) :
    (Lands top (c + w) → ∃ x', copyout d (below top (c + w)) p len x = .ok (false, x') ∧
      Confined d (below top (c + w)) len x x') ∧
    (¬ Lands top (c + w) → ∃ e, copyout d (below top (c + w)) p len x = .error e) := by
  obtain ⟨h2, htop, hmod⟩ := h.size
  unfold Lands below
  by_cases hle : c + w ≤ top
  · rw [if_pos hle]
    refine ⟨fun _ => copyout_guard h ?_ ?_ ?_ hlen p, fun hno => absurd (.inl hle) hno⟩
    all_goals
      lia
  · rw [if_neg hle]
    have hva : top + 2 ^ 32 - (c + w) < 2 ^ 32 := by omega
    have hk : KERNBASE ≤ top + 2 ^ 32 - (c + w) := by
      lia
    have htab : present (x.sys.vm.mem d (PDX (top + 2 ^ 32 - (c + w)))) = true ↔
        (top + 2 ^ 32 - (c + w) < KERNBASE + PHYSTOP ∨ DEVSPACE ≤ top + 2 ^ 32 - (c + w)) := by
      rw [h.ktables _ (by grind [PDX]) (PDX_lt _)]
      grind [PDX]
    refine ⟨fun hl => copyout_kernel h hk hva hlen (htab.2 (hl.resolve_left hle)) p, fun hno => ?_⟩
    exact copyout_nowhere len h hva (fun hp => hno (.inr (htab.1 hp))) hlen p

/-! ## The strings -/

theorem slot_bounds (a : List UInt8) : a.length + 1 ≤ slot a ∧ slot a ≤ a.length + 1 + 3 ∧
    slot a % 4 = 0 := by
  grind [slot]

/-- The space of the first strings. -/
def space (argv : List (List UInt8)) (i : Nat) : Nat := ((argv.take i).map slot).sum

theorem space_cons (a : List UInt8) (argv : List (List UInt8)) (i : Nat) :
    space (a :: argv) (i + 1) = slot a + space argv i := by
  simp [space]

theorem space_succ {a : List UInt8} (h : argv[i]? = some a) :
    space argv (i + 1) = space argv i + slot a := by
  simp [space, List.take_add_one, h]

theorem space_mono (argv : List (List UInt8)) : Monotone (space argv) := by
  refine monotone_nat_of_le_succ fun i => ?_
  cases h : argv[i]? with
  | none => simp [space, List.take_add_one, h]
  | some a =>
    rw [space_succ h]
    exact Nat.le_add_right _ _

theorem space_all (argv : List (List UInt8)) : space argv argv.length = (argv.map slot).sum := by
  simp [space]

theorem space_le (argv : List (List UInt8)) (i : Nat) : space argv i ≤ (argv.map slot).sum := by
  rcases Nat.le_total i argv.length with h | h
  · exact space_all argv ▸ space_mono argv h
  · rw [space, List.take_of_length_le h]

theorem space_mod (argv : List (List UInt8)) (i : Nat) : space argv i % 4 = 0 := by
  induction i with
  | zero => simp [space]
  | succ i ih =>
    cases h : argv[i]? with
    | none => grind [space, List.take_add_one]
    | some a =>
      rw [space_succ h]
      have := (slot_bounds a).2.2
      omega

/-- The address of a string, when `c` bytes below `top` were used before. -/
def ptrAt (top c : Nat) (argv : List (List UInt8)) (i : Nat) : Nat := top - (c + space argv (i + 1))

/-- The strings are at their addresses. -/
def StringsAt (v : State) (d top c : Nat) (argv : List (List UInt8)) : Prop :=
  ∀ i a, argv[i]? = some a → ∀ j ≤ a.length, userByte v d (ptrAt top c argv i + j) = cstring a j

/-- The stack pointer for the next string. -/
theorem next_sp {c n : Nat} (hc : c ≤ top) (h4 : top % 4 = 0) (hc4 : c % 4 = 0)
    (hw : n ≤ w) (hw' : w ≤ n + 3) (hw4 : w % 4 = 0) (hlt : w ≤ KERNBASE) (htop : top < KERNBASE) :
    uint ((top - c : Nat) - (n : Int)) / 4 * 4 = below top (c + w) := by
  simp only [KERNBASE] at hlt htop
  unfold below
  by_cases hle : c + w ≤ top
  · rw [if_pos hle, uint_eq (n := top - c - n) 0 (by omega) (by omega)]
    omega
  · rw [if_neg hle, uint_eq (n := top + 2 ^ 32 - c - n) (-1) (by omega) (by omega)]
    omega

/-- One more string in front of those that are there. -/
theorem StringsAt.cons {c : Nat} {a : List UInt8} (h : StringsAt v d top (c + slot a) argv)
    (ha : ∀ j ≤ a.length, userByte v d (top - (c + slot a) + j) = cstring a j) :
    StringsAt v d top c (a :: argv) := by
  intro i b hi j hj
  cases i with
  | zero =>
    obtain rfl : a = b := Option.some.inj hi
    have hspace : space (a :: argv) (0 + 1) = slot a := by simp [space]
    rw [ptrAt, hspace]
    exact ha j hj
  | succ i =>
    rw [ptrAt, space_cons, ← Nat.add_assoc]
    exact h i b hi j hj

/-- **The strings are pushed** as long as they fit; the first that does not is stopped if it lands. -/
theorem pushArgs_spec (hl : ¬ lost) : ∀ (argv : List (List UInt8)) (argc c : Nat) (ustack : List Nat)
    (x : Xstate), Stack L root k d top lost x.sys.vm → c ≤ PGSIZE → c % 4 = 0 →
    argc + argv.length ≤ MAXARG → (∀ a ∈ argv, a.length < KERNBASE) →
    wp (pushArgs d argv argc (top - c) ustack)
      (fun r x' => Stack L root k d top lost x'.sys.vm ∧
        ((c + (argv.map slot).sum ≤ PGSIZE ∧
          r = some (top - (c + (argv.map slot).sum),
            ustack ++ (List.range argv.length).map (ptrAt top c argv)) ∧
          StringsAt x'.sys.vm d top c argv ∧
          ∀ a, top - c ≤ a → a < top → userByte x'.sys.vm d a = userByte x.sys.vm d a) ∨
        (PGSIZE < c + (argv.map slot).sum ∧ r = none ∧ Lands top (reach argv argc c))))
      (fun _ => PGSIZE < c + (argv.map slot).sum ∧ ¬ Lands top (reach argv argc c)) x
  | [], argc, c, ustack, x, hs, hc, _, _, _ =>
    ⟨hs, .inl ⟨hc, by simp, fun i a h => by simp at h, fun _ _ _ => rfl⟩⟩
  | a :: argv, argc, c, ustack, x, hs, hc, hc4, hargc, hlen => by
    obtain ⟨h2, htop, hmod⟩ := hs.size
    obtain ⟨hw, hw', hw4⟩ := slot_bounds a
    have hslot : slot a ≤ KERNBASE := by
      have := hlen a List.mem_cons_self
      grind [slot]
    have hctop : c ≤ top := by omega
    have htop4 : top % 4 = 0 := by lia
    have hsp : uint (((top - c : Nat) : Int) - ((a.length : Int) + 1)) / 4 * 4 =
        below top (c + slot a) := by
      have := next_sp hctop htop4 hc4 hw hw' hw4 hslot htop
      rwa [Nat.cast_succ] at this
    have hsum : ((a :: argv).map slot).sum = slot a + (argv.map slot).sum := by simp
    have hmax : ¬ argc ≥ MAXARG := by
      rw [List.length_cons] at hargc
      omega
    rw [pushArgs, if_neg hmax, hsp, hsum, ← Nat.add_assoc]
    by_cases hout : PGSIZE < c + slot a
    · have hreach : reach (a :: argv) argc c = c + slot a := if_pos hout
      obtain ⟨hin, herr⟩ := copyout_outside c (slot a) (a.length + 1) hs hc hout (Nat.succ_pos _) hw
        hw' hslot (cstring a)
      rw [hreach]
      by_cases hland : Lands top (c + slot a)
      · obtain ⟨x', hrun, hconf⟩ := hin hland
        rw [wp_bind]
        exact wp_of_ok hrun ⟨hs.keep hconf, .inr ⟨by omega, rfl, hland⟩⟩
      · obtain ⟨e, hrun⟩ := herr hland
        rw [wp_bind]
        exact wp_of_error hrun ⟨by omega, hland⟩
    · have hreach : reach (a :: argv) argc c = reach argv (argc + 1) (c + slot a) := if_neg hout
      have hbelow : below top (c + slot a) = top - (c + slot a) := if_pos (by omega)
      obtain ⟨x1, hrun, hconf, hpte, hbytes⟩ := copyout_inside (top - (c + slot a))
        (a.length + 1) hs hl (by omega) (by omega) (cstring a)
      have hs1 := hs.keep hconf
      have huser : ∀ b, top - (c + slot a) ≤ b → b < top → b < 2 ^ 32 ∧
          UserPage (pteAt x.sys.vm d b) := fun b h1 h3 =>
        ⟨by lia, hs.stack b (by omega) h3 hl⟩
      rw [hreach, hbelow, wp_bind]
      refine wp_of_ok hrun ?_
      rw [if_pos rfl]
      refine wp_mono (pushArgs_spec hl argv (argc + 1) (c + slot a) (ustack ++ [top - (c + slot a)]) x1
        hs1 (by omega) (by omega) (by rw [List.length_cons] at hargc; omega)
        fun b hb => hlen b (List.mem_cons_of_mem a hb)) ?_ fun _ h => h
      rintro r x' ⟨hs', ⟨hfit, rfl, hstr, hkept⟩ | hover⟩
      · refine ⟨hs', .inl ⟨hfit, ?_, hstr.cons fun j hj => ?_, fun b h1 h3 => ?_⟩⟩
        · have hptr : ∀ i, ptrAt top c (a :: argv) (i + 1) = ptrAt top (c + slot a) argv i := fun i => by
            rw [ptrAt, ptrAt, space_cons, Nat.add_assoc]
          have hfirst : ptrAt top c (a :: argv) 0 = top - (c + slot a) := by simp [ptrAt, space]
          rw [List.length_cons, List.range_succ_eq_map, List.map_cons, List.map_map, hfirst,
            List.append_assoc]
          congr 3
          simp only [List.singleton_append, Function.comp_def, Nat.succ_eq_add_one, hptr]
        · obtain ⟨hlt, hu⟩ := huser (top - (c + slot a) + j) (by omega) (by omega)
          rw [hkept _ (by omega) (by omega), hbytes _ hlt hu, if_pos (by omega), Nat.add_sub_cancel_left]
        · grind
      · exact ⟨hs', .inr hover⟩

/-- Strings that fit are followed by the call frame. -/
theorem reach_fits : ∀ (argv : List (List UInt8)) (argc c : Nat), c + (argv.map slot).sum ≤ PGSIZE →
    reach argv argc c = c + (argv.map slot).sum + 4 * (argc + argv.length + 4)
  | [], argc, c, _ => by simp [reach]
  | a :: argv, argc, c, h => by
    have hsum : ((a :: argv).map slot).sum = slot a + (argv.map slot).sum := by simp
    rw [hsum] at h ⊢
    rw [reach, if_neg (by omega), reach_fits argv (argc + 1) (c + slot a) (by omega), List.length_cons]
    omega

/-! ## The call frame -/

/-- The words of the call frame. -/
def frameWords (top : Nat) (argv : List (List UInt8)) : List Nat :=
  [0xffffffff, argv.length, top - ((argv.map slot).sum + 4 * (argv.length + 1))] ++
    (List.range argv.length).map (ptrAt top 0 argv) ++ [0]

/-- A word of memory that holds the bytes of the call frame. -/
theorem word_frame {m : Nat} {l : List Nat} (hw : w < 2 ^ 32) (hl : l[m]? = some w)
    (hbytes : ∀ j < 4 * l.length, userByte v d (esp + j) = ustackBytes l j) :
    word v d (esp + 4 * m) = w := by
  have hm : m < l.length := (List.getElem?_eq_some_iff.1 hl).1
  have hget : l.getD m 0 = w := by rw [List.getD_eq_getElem?_getD, hl]; rfl
  have hdig := Bytes.leGet_digits (b := userByte v d) 4 (esp + 4 * m) w fun i hi => by
    rw [Nat.add_assoc, hbytes _ (by omega), ustackBytes]
    have hdiv : (4 * m + i) / 4 = m := by omega
    have hmod : (4 * m + i) % 4 = i := by omega
    rw [hdiv, hmod, hget]
  rw [word, hdig]
  exact Nat.mod_eq_of_lt hw

/-- What is below the strings. -/
def total (argv : List (List UInt8)) : Nat := (argv.map slot).sum + 4 * (argv.length + 4)

/-- Strings and frame, read as a call frame. -/
theorem Stack.frameAt (h : Stack L root k d top lost v) (hl : ¬ lost)
    (hfit : Fits argv) (hstr : StringsAt v d top 0 argv) (hbytes : ∀ j < 4 * (argv.length + 4),
      userByte v d (top - total argv + j) = ustackBytes (frameWords top argv) j) :
    FrameAt v d top (top - total argv) (top - total argv + 12) (ptrAt top 0 argv) argv := by
  obtain ⟨h2, htop, hmod⟩ := h.size
  have hfit' : total argv ≤ PGSIZE := hfit
  have htot : total argv = (argv.map slot).sum + 4 * (argv.length + 4) := rfl
  have hlength : (frameWords top argv).length = argv.length + 4 := by simp [frameWords]
  have hword := fun (m w : Nat) (hw : w < 2 ^ 32) (hm : (frameWords top argv)[m]? = some w) =>
    word_frame hw hm (hlength ▸ hbytes)
  have hptr : ∀ i < argv.length, ptrAt top 0 argv i < 2 ^ 32 := fun i _ => by
    grind [ptrAt]
  have hspace : ∀ i, space argv i ≤ (argv.map slot).sum := space_le argv
  simp only [KERNBASE, PGSIZE] at h2 htop hmod hfit'
  refine ⟨hword 0 _ (by decide) rfl, hword 1 _ (by omega) rfl, ?_, fun i hi => ?_, ?_, fun i hi => ?_,
    hstr, fun a h1 h3 => h.stack a (by omega) h3 hl, ?_, fun i a hi => ?_, fun i j a hij hj => ?_⟩
  · have hav : top - ((argv.map slot).sum + 4 * (argv.length + 1)) = top - total argv + 12 := by omega
    exact hword 2 _ (by omega) (by rw [← hav]; rfl)
  · rw [Nat.add_assoc, show 12 + 4 * i = 4 * (i + 3) by omega]
    refine hword (i + 3) _ (hptr i hi) ?_
    show ((List.range argv.length).map (ptrAt top 0 argv) ++ [0])[i]? = _
    rw [List.getElem?_append_left (by simpa using hi)]
    simp [hi]
  · rw [Nat.add_assoc, show 12 + 4 * argv.length = 4 * (argv.length + 3) by omega]
    refine hword (argv.length + 3) 0 (by decide) ?_
    show ((List.range argv.length).map (ptrAt top 0 argv) ++ [0])[argv.length]? = _
    rw [List.getElem?_append_right (by simp)]
    simp
  · have := space_mod argv (i + 1)
    grind [ptrAt]
  · lia
  · have h5 := space_succ hi
    have h7 := (slot_bounds a).1
    grind [ptrAt]
  · have h5 := space_succ hj
    have h7 := (slot_bounds a).1
    have h8 := space_mono argv (show i + 1 ≤ j from hij)
    grind [ptrAt]

/-- **The whole stack is pushed** if it fits; otherwise the first copy that does not is stopped if it
lands. -/
theorem pushStack_spec (h : Stack L root k d top lost x.sys.vm)
    (hl : ¬ lost) (hargc : argv.length < MAXARG) (hlen : ∀ a ∈ argv, a.length < KERNBASE) :
    wp (pushStack d top argv)
      (fun r x' => Stack L root k d top lost x'.sys.vm ∧
        ((Fits argv ∧ r = some (top - total argv) ∧ FrameAt x'.sys.vm d top (top - total argv)
          (top - total argv + 12) (ptrAt top 0 argv) argv) ∨
        (¬ Fits argv ∧ r = none ∧ Lands top (reach argv 0 0))))
      (fun _ => ¬ Fits argv ∧ ¬ Lands top (reach argv 0 0)) x := by
  have hpush := pushArgs_spec hl argv 0 0 [] x h (Nat.zero_le _) rfl (by omega) hlen
  rw [pushStack, wp_bind]
  simp only [Nat.zero_add, List.nil_append] at hpush
  refine wp_mono hpush ?_ fun _ he => ⟨fun hfit => ?_, he.2⟩
  swap
  · grind [Fits]
  rintro r x1 ⟨hs, ⟨hfit, rfl, hstr, -⟩ | ⟨hover, rfl, hland⟩⟩
  swap
  · refine ⟨hs, .inr ⟨fun hfit => ?_, rfl, hland⟩⟩
    grind [Fits]
  obtain ⟨h2, htop, hmod⟩ := hs.size
  have hreach := reach_fits argv 0 0 (by omega)
  simp only [Nat.zero_add] at hreach
  have hargs : ((List.range argv.length).map (ptrAt top 0 argv)).length = argv.length := by simp
  have hsmall : (argv.map slot).sum + 4 * (argv.length + 4) ≤ top := by
    lia
  have hav : uint (((top - (argv.map slot).sum : Nat) : Int) - ((argv.length : Int) + 1) * 4) =
      top - ((argv.map slot).sum + 4 * (argv.length + 1)) := by
    simp only [KERNBASE] at htop
    exact uint_eq 0 (by omega) (by omega)
  have hesp : uint (((top - (argv.map slot).sum : Nat) : Int) - (3 + (argv.length : Int) + 1) * 4) =
      top - total argv := by
    simp only [KERNBASE] at htop
    exact uint_eq 0 (by grind [total]) (by omega)
  simp only [hargs, hav, hesp, wp_bind]
  have hwords : [0xffffffff, argv.length, top - ((argv.map slot).sum + 4 * (argv.length + 1))] ++
      (List.range argv.length).map (ptrAt top 0 argv) ++ [0] = frameWords top argv := rfl
  rw [hwords]
  by_cases htot : Fits argv
  · have hfit' : total argv ≤ PGSIZE := htot
    have htot' : total argv = (argv.map slot).sum + 4 * (argv.length + 4) := rfl
    obtain ⟨x2, hrun, hconf, -, hbytes⟩ := copyout_inside (top - total argv)
      ((3 + argv.length + 1) * 4) hs hl (by omega) (by omega) (ustackBytes (frameWords top argv))
    have hs2 := hs.keep hconf
    have huser : ∀ b, top - total argv ≤ b → b < top → b < 2 ^ 32 ∧
        UserPage (pteAt x1.sys.vm d b) := fun b h1 h3 =>
      ⟨by lia, hs.stack b (by omega) h3 hl⟩
    refine wp_of_ok hrun ?_
    rw [if_pos rfl]
    refine ⟨hs2, .inl ⟨htot, rfl, hs2.frameAt hl htot (fun i a hi j hj => ?_) fun j hj => ?_⟩⟩
    · have h5 := space_succ hi
      have h6 := space_le argv (i + 1)
      have h7 := (slot_bounds a).1
      obtain ⟨hlt, hu⟩ := huser (ptrAt top 0 argv i + j) (by grind [ptrAt])
        (by grind [ptrAt])
      rw [hbytes _ hlt hu, if_neg (by grind [ptrAt])]
      exact hstr i a hi j hj
    · obtain ⟨hlt, hu⟩ := huser (top - total argv + j) (by omega) (by omega)
      rw [hbytes _ hlt hu, if_pos (by omega), Nat.add_sub_cancel_left]
  · have hover : PGSIZE < (argv.map slot).sum + 4 * (argv.length + 4) := Nat.lt_of_not_le htot
    have hbelow : below top ((argv.map slot).sum + 4 * (argv.length + 4)) = top - total argv :=
      if_pos hsmall
    obtain ⟨hin, -⟩ := copyout_outside (argv.map slot).sum (4 * (argv.length + 4))
      ((3 + argv.length + 1) * 4) hs hfit hover (by omega) (by omega) (by omega)
      (by lia) (ustackBytes (frameWords top argv))
    obtain ⟨x2, hrun, hconf⟩ := hin (.inl hsmall)
    rw [hbelow] at hrun hconf
    refine wp_of_ok hrun ?_
    rw [if_neg (by decide)]
    exact ⟨hs.keep hconf, .inr ⟨htot, rfl, hreach ▸ .inl hsmall⟩⟩

/-- With a lost stack page only a first string that does not fit is stopped. -/
theorem pushStack_lost (h : Stack L root k d top lost x.sys.vm)
    (hl : lost) (hlen : ∀ a ∈ argv, a.length < KERNBASE) : wp (pushStack d top argv)
      (fun r x' => Stack L root k d top lost x'.sys.vm ∧ r = none ∧
        (∀ a ∈ argv.head?, PGSIZE < slot a) ∧ Lands top (reach argv 0 0))
      (fun _ => ¬ Fits argv → ¬ ((∀ a ∈ argv.head?, PGSIZE < slot a) ∧ Lands top (reach argv 0 0))) x := by
  obtain ⟨h2, htop, hmod⟩ := h.size
  have hmod4 : top % 4 = 0 := by lia
  have hlt : ∀ n, top - n < 2 ^ 32 := fun n => by
    lia
  simp only [pushStack, wp_bind]
  cases argv with
  | nil =>
    have hesp : uint ((top : Int) - (3 + ((0 : Nat) : Int) + 1) * 4) = top - 16 := by
      simp only [KERNBASE, PGSIZE] at htop h2
      exact uint_eq 0 (by omega) (by omega)
    rw [pushArgs, wp_pure]
    simp only [wp_bind, List.length_nil, hesp]
    have htab : ¬ present (x.sys.vm.mem d (PDX (top - 16))) = true := by
      refine h.missing hl _ ?_ ?_ <;> simp only [PGSIZE] at h2 ⊢ <;> omega
    obtain ⟨e, hrun⟩ := copyout_nowhere ((3 + 0 + 1) * 4) h (hlt 16) htab (by decide)
      (ustackBytes ([0xffffffff, 0, uint ((top : Int) - (((0 : Nat) : Int) + 1) * 4)] ++ [] ++ [0]))
    exact wp_of_error hrun fun hno => absurd (show Fits [] from by simp [Fits, PGSIZE]) hno
  | cons a argv =>
    obtain ⟨hw, hw', hw4⟩ := slot_bounds a
    have hslot : slot a ≤ KERNBASE := by
      grind [slot]
    have hsp : uint ((top : Int) - ((a.length : Int) + 1)) / 4 * 4 = below top (0 + slot a) := by
      have := next_sp (Nat.zero_le top) hmod4 rfl hw hw' hw4 hslot htop
      rwa [Nat.cast_succ, Nat.sub_zero] at this
    rw [pushArgs, if_neg (by decide), hsp, wp_bind]
    by_cases hout : PGSIZE < slot a
    · have hreach : reach (a :: argv) 0 0 = 0 + slot a := if_pos (by omega)
      obtain ⟨hin, herr⟩ := copyout_outside 0 (slot a) (a.length + 1) h (Nat.zero_le _) (by omega)
        (Nat.succ_pos _) hw hw' hslot (cstring a)
      rw [hreach]
      by_cases hland : Lands top (0 + slot a)
      · obtain ⟨x', hrun, hconf⟩ := hin hland
        refine wp_of_ok hrun ?_
        rw [if_neg (by decide)]
        exact ⟨h.keep hconf, rfl, fun b hb => Option.some.inj hb ▸ hout, hland⟩
      · obtain ⟨e, hrun⟩ := herr hland
        exact wp_of_error hrun fun _ hc => hland hc.2
    · have hbelow : below top (0 + slot a) = top - slot a := by
        rw [Nat.zero_add]
        exact if_pos (by omega)
      have htab : ¬ present (x.sys.vm.mem d (PDX (top - slot a))) = true :=
        h.missing hl _ (by omega) (by omega)
      rw [hbelow]
      obtain ⟨e, hrun⟩ := copyout_nowhere (a.length + 1) h (hlt _) htab (Nat.succ_pos _) (cstring a)
      exact wp_of_error hrun fun _ hc => hout (hc.1 a rfl)

/-! ## The old address space -/

/-- The loop of `deallocuvm` writes to frames in the books of the process only. -/
theorem Unmaps.aside {g a hi : Nat} (h : Unmaps root k hi a v v') (hO : Own L root v)
    (hg : ¬ Total root k v [] g) : v'.mem g = v.mem g := by
  induction h with
  | done => rfl
  | skip _ _ _ ih => exact ih hO hg
  | keep _ _ _ _ ih => exact ih hO hg
  | @free _ t f _ _ _ _ ht hf hu _ ih =>
    have hgf : g ≠ f := fun e => hg (.inr (.inl ⟨_, e ▸ hf⟩))
    have hgt : g ≠ t := fun e => hg (.inr (.inl ⟨_, e ▸ ht⟩))
    rw [ih (hO.unmap ht hf hu.mem hu.freelist).2 (by rw [hu.total hO ht hf]; exact hg), hu.mem,
      update_of_ne hgt, update_of_ne hgf]

/-- **Freeing an address space writes to no frame of another.** -/
theorem freevm_aside {g : Nat} (hO : Own L root v) (hk : root k = some d)
    (hg : ¬ Total root k v [] g) :
    wp (freevm L d) (fun _ v' => v'.mem g = v.mem g) (fun _ => True) v := by
  unfold freevm
  refine wp_seq (deallocuvm_unmaps (E := fun _ => True) hO hk le_rfl (by decide) (.inl trivial))
    fun _ s1 h₁ => ?_
  have he := h₁.2.emptied hO hk le_rfl (by decide)
  rw [← h₁.2.aside hO hg]
  have hg1 : ¬ Total root k s1 [] g := by rw [he.total]; exact hg
  have hgd : g ≠ d := fun e => hg (.inr (.inl ⟨[], e ▸ hk⟩))
  have htab : ∀ i < 1024, present (s1.mem d i) = true →
      pteFrame (s1.mem d i) ≠ d ∧ pteFrame (s1.mem d i) ≠ g := by
    intro i hi hp
    have hn : node root s1 k [i] = some (pteFrame (s1.mem d i)) := by rw [node_table hk hi, if_pos hp]
    refine ⟨fun e => ?_, fun e => hg1 (.inr (.inl ⟨[i], e ▸ hn⟩))⟩
    have hd : node root s1 k [] = some d := hk
    have := (he.own.distinct k _ k _ d (e ▸ hn) hd).2
    cases this
  have hrange : ∀ i ∈ List.range NPDENTRIES, i < 1024 := fun i hi => List.mem_range.1 hi
  -- the tables go one by one, and the directory last
  generalize List.range NPDENTRIES = l at hrange
  refine wp_seq (wp_forM (I := fun l s => (∀ i ∈ l, i < 1024) ∧ s.mem d = s1.mem d ∧
    s.mem g = s1.mem g) ?_ l s1 ⟨hrange, rfl, rfl⟩) ?_
  · rintro i l s ⟨hl, hd, hs⟩
    have hrest := fun i' hi' => hl i' (List.mem_cons_of_mem i hi')
    simp only [freevmTable, getWord, wp_bind, wp_gets, hd]
    refine wp_ite (fun hp => ?_) fun _ => ⟨hrest, hd, hs⟩
    obtain ⟨h1, h2⟩ := htab i (hl i List.mem_cons_self) hp
    simp only [kfree, setFrame, wp_bind, wp_stopIf, wp_modify]
    exact ⟨fun _ => trivial, fun _ => ⟨hrest, by rw [update_of_ne h1.symm]; exact hd,
      by rw [update_of_ne h2.symm]; exact hs⟩⟩
  · grind [kfree, setFrame, wp_bind, wp_stopIf, wp_modify]

/-- The frame is read from the stack page only. -/
theorem FrameAt.congr {av : Nat} {ptr : Nat → Nat} (h : FrameAt v d top esp av ptr argv)
    (hpte : ∀ a, pteAt v' d a = pteAt v d a)
    (hbytes : ∀ a, top - PGSIZE ≤ a → a < top → userByte v' d a = userByte v d a) :
    FrameAt v' d top esp av ptr argv := by
  obtain ⟨h1, h2, h3⟩ := h.low
  have hword : ∀ a, top - PGSIZE ≤ a → a + 4 ≤ top → word v' d a = word v d a := fun a h4 h5 =>
    Bytes.leGet_congr 4 a fun i h6 h7 => hbytes i (by omega) (by omega)
  refine ⟨?_, ?_, ?_, fun i hi => ?_, ?_, h.aligned, fun i a hi j hj => ?_, fun a h4 h5 => ?_, h.low,
    h.high, h.apart⟩
  · rw [hword _ (by omega) (by omega), h.retpc]
  · rw [hword _ (by omega) (by omega), h.argc]
  · rw [hword _ (by omega) (by omega), h.array]
  · rw [hword _ (by omega) (by omega), h.pointers i hi]
  · rw [hword _ (by omega) (by omega), h.null]
  · have := h.high i a hi
    rw [hbytes _ (by omega) (by omega), h.strings i a hi j hj]
  · rw [hpte]
    exact h.page a h4 h5

/-- **The new image survives the end of the old one.** -/
theorem commit_spec {av : Nat} {p : Proc} {F : File} {path : List UInt8} {ptr : Nat → Nat}
    (hs : Stack L root k d top lost x.sys.vm) (hi : root i = some p.pgdir)
    (hik : i ≠ k) (h : FrameAt x.sys.vm d top esp av ptr argv) :
    wp (commit L i p F path d top esp) (fun r x' => r = 0 ∧ x'.sys.procs i = some ⟨d, top⟩ ∧
      x'.esp = esp ∧ FrameAt x'.sys.vm d top esp av ptr argv) (fun _ => True) x := by
  simp only [commit, wp_bind, wp_modify, wp_vm, wp_pure]
  refine wp_intro (fun _ v' hrun => ?_) fun _ _ => trivial
  have haside : ∀ π g, node root x.sys.vm k π = some g → ¬ Total root i x.sys.vm [] g := by
    rintro π g hg (hf | ⟨π', hn⟩ | hf)
    · exact hs.own.notfree k π g hg hf
    · exact hik (hs.own.distinct _ _ _ _ _ hn hg).1
    · cases hf
  have hmem : ∀ π g, node root x.sys.vm k π = some g → v'.mem g = x.sys.vm.mem g := by
    intro π g hg
    have hkept := wp_ok (freevm_aside hs.own hi (haside π g hg)) hrun
    exact hkept
  have hpte := pteAt_same hs.dir hmem
  refine ⟨trivial, update_self _ _ _, trivial, h.congr hpte fun a h1 h2 => ?_⟩
  have hu := h.page a h1 h2
  have hlt : a < 2 ^ 32 := by
    have := hs.size.2.1
    lia
  rw [userByte, hpte, hmem _ _ (node_of_userPage hs.dir hu (hs.frames a hlt hu)), userByte]

/-- **From the loading on.** -/
theorem execStack_spec {p : Proc} (F : File)
    (path : List UInt8) (h : Image L root k d sz x.sys.vm) (hi : root i = some p.pgdir)
    (hik : i ≠ k) (hargc : argv.length < MAXARG) (hlen : ∀ a ∈ argv, a.length < KERNBASE) :
    wp (execStack L i p F path argv d sz)
      (fun r x' => (r = 0 ∧ Fits argv ∧ ∃ d sz, x'.sys.procs i = some ⟨d, sz⟩ ∧
        ∃ av ptr, FrameAt x'.sys.vm d sz x'.esp av ptr argv) ∨
        (r = -1 ∧ ArgsOk x.sys.vm.freelist.length sz argv))
      (fun _ => ¬ Fits argv → ¬ ArgsOk x.sys.vm.freelist.length sz argv) x := by
  have hsz := h.size
  have hup : PGROUNDUP sz ≤ KERNBASE ∧ PGROUNDUP sz % PGSIZE = 0 := by
    grind [PGROUNDUP]
  have htop : uint ((PGROUNDUP sz : Int) + 2 * (PGSIZE : Int)) = PGROUNDUP sz + 2 * PGSIZE := by
    simp only [PGSIZE, KERNBASE] at hup ⊢
    exact uint_eq 0 (by push_cast; omega) (by omega)
  have hbad : ∀ x' : Xstate, Clean L root k d x'.sys.vm →
      (ArgsOk x.sys.vm.freelist.length sz argv) →
      wp (bad L (some d) false)
        (fun r x' => (r = 0 ∧ Fits argv ∧ ∃ d sz, x'.sys.procs i = some ⟨d, sz⟩ ∧
          ∃ av ptr, FrameAt x'.sys.vm d sz x'.esp av ptr argv) ∨
          (r = -1 ∧ ArgsOk x.sys.vm.freelist.length sz argv))
        (fun _ => ¬ Fits argv → ¬ ArgsOk x.sys.vm.freelist.length sz argv) x' := fun x' hc hok =>
    wp_post (bad_spec hc false) fun r x'' hr => .inr ⟨hr.1, hok⟩
  generalize ht : PGROUNDUP sz + 2 * PGSIZE = top at htop
  rw [execStack, htop]
  simp only [wp_bind, wp_vm]
  have hadd := h.addStack ht.symm
  refine wp_mono hadd ?_ fun _ he => absurd he id
  rintro r v (⟨rfl, hclean, hno⟩ | ⟨hr, hlt, hn, himg, hlow, hpage⟩)
  · rw [if_pos rfl]
    exact hbad _ hclean fun _ h1 h2 => absurd ⟨ht ▸ h1, h2⟩ hno
  have hsize : 2 * PGSIZE ≤ top ∧ top < KERNBASE ∧ top % PGSIZE = 0 := by
    lia
  have hguard : uint ((top : Int) - 2 * (PGSIZE : Int)) = top - 2 * PGSIZE := by
    simp only [PGSIZE, KERNBASE] at hsize ⊢
    exact uint_eq 0 (by push_cast; omega) (by omega)
  have hpte : present (v.mem d (PDX (top - 2 * PGSIZE))) = true :=
    hlow _ (by lia)
  have hframe : pteFrame (pteAt v d (top - 2 * PGSIZE)) < NFRAMES := by
    refine (himg.pages _ ?_ hpte).2
    grind [PGROUNDUP]
  rw [hr, if_neg (by lia), hguard, wp_bind]
  refine wp_mono (clearpteu_spec (x := { x with sys := { x.sys with vm := v } }) himg.own himg.dir
    (by omega) hpte hframe) ?_ fun _ he => absurd he id
  rintro _ x1 ⟨v', rfl, hO, hdir, hent⟩
  have hst : Stack L root k d top (StackLost x.sys.vm.freelist.length sz) v' :=
    himg.stack hsize hlow hpage hO hdir hent
  rw [wp_bind]
  by_cases hl : StackLost x.sys.vm.freelist.length sz
  · refine wp_mono (pushStack_lost hst hl hlen) ?_ fun _ he hfit hok => ?_
    · rintro r x2 ⟨hs2, rfl, hhead, hland⟩
      exact hbad x2 hs2.clean fun _ _ _ => ⟨ht ▸ hland, fun _ => hhead⟩
    · obtain ⟨hland, hhead⟩ := hok hfit (ht ▸ hlt) hn
      exact he hfit ⟨hhead hl, ht ▸ hland⟩
  · refine wp_mono (pushStack_spec hst hl hargc hlen) ?_ fun _ he hfit hok => ?_
    · rintro r x2 ⟨hs2, ⟨hfit, rfl, hframe⟩ | ⟨hno, rfl, hland⟩⟩
      · refine wp_mono (commit_spec hs2 hi hik hframe) ?_ fun _ _ hno => absurd hfit hno
        rintro r x3 ⟨hr0, hproc, hesp, hframe'⟩
        exact .inl ⟨hr0, hfit, d, top, hproc, _, _, hesp ▸ hframe'⟩
      · exact hbad x2 hs2.clean fun _ _ _ => ⟨ht ▸ hland, fun h => absurd h hl⟩
    · exact he.2 (ht ▸ (hok hfit (ht ▸ hlt) hn).1)

end

/-! ## The arguments of `exec` -/

-- from here on the end of `exec` is known through `execStack_spec` only
attribute [local irreducible] execStack

section
variable {L : Layout} {root : Nat → Option Nat} {x : Xstate}

/-- The frames that are free when the program of `F` is loaded, out of `n`: 65 are for the page
directory. -/
def framesLeft (n : Nat) (F : File) : Nat := n - 65 - imageFrames (programSize F)

/-- **`exec` passes its arguments as it is meant to if and only if** the first copy that leaves the
stack page is stopped. -/
theorem exec_args {i : Nat} {p : Proc} {F : File} (path : List UInt8)
    (argv : List (List UInt8)) (hO : Own L root x.sys.vm) (hi : root i = some p.pgdir)
    (hF : NoWrap F) (hload : ∃ d sz x₁, Loaded L F x d sz x₁) (hargc : argv.length < MAXARG)
    (hlen : ∀ a ∈ argv, a.length < KERNBASE) :
    ArgsLaw L i p F path argv x ↔
      ArgsOk (framesLeft x.sys.vm.freelist.length F) (programSize F) argv := by
  obtain ⟨d, sz, x₁, hload⟩ := hload
  obtain ⟨k, hk⟩ := hO.slot
  have hik : i ≠ k := fun e => by rw [e, hk] at hi; cases hi
  have hi' : update root k (some d) i = some p.pgdir := by
    rw [update_of_ne hik, hi]
  obtain ⟨himg, hsz, hfree⟩ := hload.image hO hk hF
  have hspec := execStack_spec F path himg hi' hik hargc hlen
  rw [hfree] at hspec
  unfold ArgsLaw framesLeft
  rw [← hsz]
  rw [exec_loaded hload]
  constructor
  · intro hlaw
    by_cases hfit : Fits argv
    · rw [ArgsOk]
      exact fun hno => absurd hfit hno
    · obtain ⟨x', hrun⟩ := hlaw.2 hfit
      rcases wp_ok hspec hrun with ⟨h0, -⟩ | ⟨-, hok⟩
      · cases h0
      · exact hok
  · intro hok
    refine ⟨fun x' hrun => ?_, fun hfit => ?_⟩
    · rcases wp_ok hspec hrun with ⟨-, -, hframe⟩ | ⟨h0, -⟩
      · exact hframe
      · cases h0
    · cases hrun : execStack L i p F path argv d sz x₁ with
      | error e => exact absurd hok (wp_error hspec hrun hfit)
      | ok r =>
        rcases wp_ok hspec hrun with ⟨-, hfit', -⟩ | ⟨hr, -⟩
        · exact absurd hfit' hfit
        · exact ⟨r.2, by rw [← hr]⟩

/-- A program without segments is loaded with the frames of a page directory. -/
theorem emptyFile_loaded (hO : Own L root x.sys.vm) (hn : 65 ≤ x.sys.vm.freelist.length) :
    ∃ d x1, Loaded L emptyFile x d 0 x1 ∧
      x1.sys.vm.freelist.length = x.sys.vm.freelist.length - 65 := by
  obtain ⟨k, hk⟩ := hO.slot
  obtain ⟨r, v, hrun, ⟨-, hlt, -⟩ | ⟨d, rfl, hb⟩⟩ := wp_total (setupkvm_exact hO hk)
  · omega
  have hphnum : emptyFile.phnum = 0 := (elfHeader_fields (n := 0) (by decide)).2.2
  have hload : loadSegments L emptyFile d emptyFile.phnum emptyFile.phoff 0
      { x with ref := x.ref + 1, sys := { x.sys with vm := v } } =
        .ok (some 0, { x with ref := x.ref + 1, sys := { x.sys with vm := v } }) := by
    rw [hphnum]
    rfl
  refine ⟨d, _, ⟨by decide, (elfHeader_fields (n := 0) (by decide)).1, v, _, hrun, hload, rfl⟩, ?_⟩
  rw [hb.free, List.length_drop]

end

/-- Frames for a small program. -/
def someFrames : List Nat := List.range' 403 70

theorem someFrames_own : Own demoLayout smallRoot (small 0 someFrames) := by
  refine small_own List.nodup_range' fun f hf => ?_
  rw [someFrames, List.mem_range'_1] at hf
  lia

theorem emptyFile_noWrap : NoWrap emptyFile := by
  have hphnum : emptyFile.phnum = 0 := (elfHeader_fields (n := 0) (by decide)).2.2
  intro n hn
  exact absurd hn (Nat.not_lt_zero n)

/-- One argument of one byte. -/
theorem exec_args_small : ∃ d x₁, Loaded demoLayout emptyFile (xstate (small 0 someFrames)) d 0 x₁ ∧
    ArgsLaw demoLayout 0 ⟨400, 100⟩ emptyFile [] [[65]] (xstate (small 0 someFrames)) := by
  obtain ⟨d, x₁, hload, -⟩ := emptyFile_loaded (x := xstate (small 0 someFrames)) someFrames_own
    (by decide)
  have hiff := exec_args (i := 0) (p := ⟨400, 100⟩) [] [[65]] someFrames_own rfl emptyFile_noWrap
    ⟨d, 0, x₁, hload⟩ (by decide) (by decide)
  refine ⟨d, x₁, hload, hiff.2 fun hno => absurd ?_ hno⟩
  unfold Fits
  decide

/-- A string of 32 megabytes and two pages: the stack pointer wraps around to just below `DEVSPACE`,
where there is no page table. -/
theorem exec_wraps : ∃ (argv : List (List UInt8)) (d : Nat) (x₁ : Xstate),
    Own demoLayout smallRoot (small 0 someFrames) ∧ NoWrap emptyFile ∧ argv.length < MAXARG ∧
    (∀ a ∈ argv, a.length < KERNBASE) ∧
    Loaded demoLayout emptyFile (xstate (small 0 someFrames)) d 0 x₁ ∧
    ¬ ArgsLaw demoLayout 0 ⟨400, 100⟩ emptyFile [] argv (xstate (small 0 someFrames)) := by
  obtain ⟨d, x₁, hload, hfree⟩ := emptyFile_loaded (x := xstate (small 0 someFrames)) someFrames_own
    (by decide)
  have hn : x₁.sys.vm.freelist.length = 5 := hfree
  obtain ⟨a, ha⟩ : ∃ a : List UInt8, a.length = 2 ^ 25 + 8192 :=
    ⟨List.replicate (2 ^ 25 + 8192) 65, List.length_replicate⟩
  have hslot : slot a = 2 ^ 25 + 8196 := by
    rw [slot, ha]
    decide
  have hfit : ¬ Fits [a] := by
    simp only [Fits, List.map_cons, List.map_nil, List.sum_cons, List.sum_nil, hslot, PGSIZE]
    omega
  have hlen : ∀ b ∈ [a], b.length < KERNBASE := fun b hb => by
    rw [List.mem_singleton.1 hb, ha]
    decide
  have hreach : reach [a] 0 0 = 2 ^ 25 + 8196 := by
    rw [reach, hslot, if_pos (by decide), Nat.zero_add]
  refine ⟨[a], d, x₁, someFrames_own, emptyFile_noWrap, by simp [MAXARG], hlen, hload,
    fun hlaw => ?_⟩
  obtain ⟨x', hrun⟩ := hlaw.2 hfit
  rw [exec_loaded hload] at hrun
  obtain ⟨himg, -⟩ := hload.image (k := 1) someFrames_own rfl emptyFile_noWrap
  have hspec := execStack_spec (i := 0) (p := ⟨400, 100⟩) emptyFile [] himg rfl (by decide)
    (by simp [MAXARG]) hlen
  rcases wp_ok hspec hrun with ⟨h0, -⟩ | ⟨-, hok⟩
  · cases h0
  · obtain ⟨hland, -⟩ := hok hfit (by decide) (by rw [hn]; decide)
    rw [hreach] at hland
    exact absurd hland (by unfold Lands; decide)

end Dixv6.Vm
