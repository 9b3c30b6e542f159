import Dixv6.Vm.Copyout
import Dixv6.Vm.ExecLeak

/-!
# The program that `exec` has loaded

`Image` describes an address space that holds a program of `sz` bytes and nothing else: user pages up
to `sz`, none above, and the kernel's part as `setupkvm` makes it. When the frames run out at a page
table, `allocuvm` reports a page that is not there; `Image` says that then no frame is left.

`loadSegments_image` proves that loading keeps it, for every file whose segments do not wrap around
the end of the address space, and `Loaded` says that `exec` has come to the end of the loading.
`exec_loaded` is what it does from there.
-/

namespace Dixv6.Vm

open Lib Function

/-- The address space `d` of `k` holds a program of `sz` bytes. -/
structure Image (L : Layout) (root : Nat → Option Nat) (k d sz : Nat) (v : State) : Prop where
  own : Own L root v
  dir : root k = some d
  size : sz < KERNBASE
  pages : ∀ va < PGROUNDUP sz, present (v.mem d (PDX va)) = true →
    UserPage (pteAt v d va) ∧ pteFrame (pteAt v d va) < NFRAMES
  above : ∀ va < KERNBASE, PGROUNDUP sz ≤ va → ¬ present (pteAt v d va) = true
  kern : ∀ va < 2 ^ 32, KERNBASE ≤ va → user (pteAt v d va) = false
  ktables : ∀ i, 512 ≤ i → i < 1024 → (present (v.mem d i) = true ↔ i < 568 ∨ 1016 ≤ i)
  tables : v.freelist = [] ∨ ∀ i < 512, (present (v.mem d i) = true ↔ i * 2 ^ 22 < PGROUNDUP sz)

/-- The frames of a program of `sz` bytes: its pages and their page tables. -/
def imageFrames (sz : Nat) : Nat := (sz + PGSIZE - 1) / PGSIZE + (sz + 2 ^ 22 - 1) / 2 ^ 22

section
variable {L : Layout} {root : Nat → Option Nat} {v v' : State} {x : Xstate} {k d sz newsz j : Nat}

/-- A new page directory holds a program of no bytes. -/
theorem Built.image {s : State} (h : Built L root k d s v) :
    Image L (update root k (some d)) k d 0 v where
  own := h.own
  dir := update_self _ _ _
  size := by decide
  pages va hva := absurd hva (Nat.not_lt_zero va)
  above va hva _ := not_present_of_table (h.empty _ (by grind [PDX]))
  kern := h.kern
  ktables := h.tables
  tables := .inr fun i hi => iff_of_false (h.empty i hi) (Nat.not_lt_zero _)

/-- It can be freed. -/
theorem Image.clean (h : Image L root k d sz v) : Clean L root k d v := by
  refine ⟨h.own, h.dir, h.kern, fun va hva hp => ?_⟩
  by_cases hsz : va < PGROUNDUP sz
  · have htab : present (v.mem d (PDX va)) = true := by
      by_contra hno
      exact not_present_of_table hno hp
    exact (h.pages va hsz htab).2
  · exact absurd hp (h.above va hva (Nat.le_of_not_lt hsz))

/-- Where there is a frame left, there is a table for every page. -/
theorem Image.table (h : Image L root k d sz v) (hne : v.freelist ≠ []) {va : Nat}
    (hva : va < PGROUNDUP sz) : present (v.mem d (PDX va)) = true := by
  have hsz := h.size
  rw [(h.tables.resolve_left hne) _ (by grind [PDX, PGROUNDUP])]
  grind [PDX, PGROUNDUP]

/-- What `allocuvm` makes of it after `j` pages; the pages after those have no table. -/
theorem Image.grown (h : Image L root k d sz v) (hlt : newsz < KERNBASE) (hO : Own L root v')
    (htab : ∀ i < 1024, present (v'.mem d i) = true ↔
      present (v.mem d i) = true ∨ ∃ i' < j, i = PDX (PGROUNDUP sz + i' * PGSIZE))
    (hpages : ∀ va < 2 ^ 32, pteAt v' d va = pteAt v d va ∨
      (PGROUNDUP sz ≤ va ∧ va < PGROUNDUP sz + j * PGSIZE))
    (hz : Zeroed d (PGROUNDUP sz) j v v') (hj : PGROUNDUP sz + j * PGSIZE ≤ PGROUNDUP newsz)
    (hstart : v.freelist = [] → j = 0)
    (hlast : ∀ va, PGROUNDUP sz + j * PGSIZE ≤ va → va < PGROUNDUP newsz →
      ¬ present (v'.mem d (PDX va)) = true)
    (htables : v'.freelist = [] ∨
      ∀ i < 512, (present (v'.mem d i) = true ↔ i * 2 ^ 22 < PGROUNDUP newsz)) :
    Image L root k d newsz v' := by
  have hend : PGROUNDUP newsz ≤ KERNBASE := by
    grind [PGROUNDUP]
  simp only [KERNBASE] at hend
  refine ⟨hO, h.dir, hlt, fun va hva htva => ?_, fun va hva hsz hp => ?_, fun va hva hk => ?_,
    fun i h1 h2 => ?_, htables⟩
  · by_cases hold : va < PGROUNDUP sz
    · have hpte := (hpages va (by omega)).resolve_right (by omega)
      rw [hpte]
      refine h.pages va hold ?_
      by_cases hnil : v.freelist = []
      · refine ((htab _ (PDX_lt va)).1 htva).resolve_right ?_
        rintro ⟨i', hi', -⟩
        have := hstart hnil
        omega
      · exact h.table hnil hold
    · by_cases hnew : va < PGROUNDUP sz + j * PGSIZE
      · obtain ⟨f, hf, hpte, -⟩ := hz ((va - PGROUNDUP sz) / PGSIZE) (by
          lia)
        have hpage : PGROUNDDOWN va = PGROUNDUP sz + (va - PGROUNDUP sz) / PGSIZE * PGSIZE := by
          grind [PGROUNDDOWN, PGROUNDUP]
        rw [← hpage, pteAt_down] at hpte
        rw [hpte, pteFrame_entry (by decide)]
        exact ⟨userPage_entry f, (h.own.free f hf).2⟩
      · exact absurd htva (hlast va (Nat.le_of_not_lt hnew) hva)
  · rcases hpages va (by lia) with hpte | ⟨-, hin⟩
    · rw [hpte] at hp
      exact h.above va hva (((Nat.le_add_right _ _).trans hj).trans hsz) hp
    · omega
  · rw [(hpages va hva).resolve_right (by lia)]
    exact h.kern va hva hk
  · rw [htab i h2, ← h.ktables i h1 h2]
    refine or_iff_left ?_
    rintro ⟨i', hi', rfl⟩
    grind [PDX]

/-- **`allocuvm` of a larger size**: nothing is left of the new pages, or the image has grown. -/
theorem Image.grow (h : Image L root k d sz v) (newsz : Nat) :
    wp (allocuvm L d sz newsz) (fun r v' => (r = 0 ∧ Clean L root k d v') ∨
      (r = max sz newsz ∧ Image L root k d r v')) (fun _ => False) v := by
  by_cases hlt : newsz < KERNBASE
  swap
  · rw [allocuvm, if_pos (Nat.le_of_not_lt hlt)]
    exact .inl ⟨rfl, h.clean⟩
  by_cases hle : sz ≤ newsz
  swap
  · rw [allocuvm, if_neg (by omega), if_pos (by omega)]
    exact .inr ⟨by omega, h⟩
  have hN : PGROUNDUP sz + newPages sz newsz * PGSIZE = max (PGROUNDUP sz) (PGROUNDUP newsz) := by
    grind [newPages, PGROUNDUP]
  have hup : PGROUNDUP sz ≤ PGROUNDUP newsz := by
    grind [PGROUNDUP]
  rw [max_eq_right hup] at hN
  refine wp_post (allocuvm_outcome h.own h.dir hle hlt fun va h1 h2 => h.above va (h2.trans hlt) h1) ?_
  rintro r v' (⟨rfl, ⟨hg, hz⟩ | ⟨j, f, hj, hs, hlen, hneed, hz, hnil⟩⟩ | ⟨rfl, -, hO, hnone, hsame⟩)
  · refine .inr ⟨(max_eq_right hle).symm, h.grown hlt hg.own hg.tables
      (fun va hva => (hg.pages va hva).imp id fun hin => ⟨hin.1, hin.2.1⟩) hz hN.le (fun hnil => ?_)
      (fun va h1 h2 => by omega) ?_⟩
    · have hcount := hg.count
      rw [hnil, need, List.length_nil] at hcount
      omega
    · by_cases hnil : v.freelist = []
      · have hcount := hg.count
        rw [hnil, List.length_nil] at hcount
        exact .inl (List.length_eq_zero_iff.1 (by omega))
      · refine .inr fun i hi => ?_
        rw [hg.tables i (by omega), h.tables.resolve_left hnil i hi]
        constructor
        · rintro (hi' | ⟨i', hi', rfl⟩)
          · omega
          · grind [PDX]
        · intro hi'
          by_cases hold : i * 2 ^ 22 < PGROUNDUP sz
          · exact .inl hold
          · refine .inr ⟨(i * 2 ^ 22 - PGROUNDUP sz) / PGSIZE, ?_, ?_⟩
            · lia
            · grind [PDX, PGROUNDUP]
  · refine .inr ⟨(max_eq_right hle).symm, h.grown hlt hs.own hs.tables
      (fun va hva => (hs.pages va hva).imp id fun hin => ⟨hin.1, hin.2.1⟩) hz ?_ (fun hnil' => ?_)
      (fun va h1 h2 hp => ?_) (.inl hnil)⟩
    · lia
    · rw [hnil', List.length_nil] at hlen
      omega
    · -- the last page is the one whose table is missing
      have hva : PDX va = PDX (PGROUNDUP sz + j * PGSIZE) := by
        have hmod : PGROUNDUP sz % PGSIZE = 0 := by grind [PGROUNDUP]
        simp only [PDX, PGSIZE] at hN h1 hmod ⊢
        omega
      rw [hva] at hp
      rw [hj, need_succ] at hneed
      split at hneed
      · omega
      · next hno =>
        exact hno ((hs.tables _ (PDX_lt _)).1 hp)
  · refine .inl ⟨rfl, hO, h.dir, fun va hva hk => ?_, fun va hva hp => ?_⟩
    · rw [hsame va hva (.inr ?_)]
      · exact h.kern va hva hk
      · lia
    · have hva' : va < 2 ^ 32 := by lia
      by_cases hout : Outside (PGROUNDUP sz) newsz va
      · rw [hsame va hva' hout] at hp ⊢
        exact h.clean.sound va hva hp
      · rw [Outside, not_or, not_lt, not_le] at hout
        refine absurd hp (pteAt_down va ▸ hnone (PGROUNDDOWN va) ?_ hout.2)
        grind [PGROUNDDOWN, PGROUNDUP]

/-- The frames for `j` more pages. -/
theorem Image.need_pages (h : Image L root k d sz v) (hne : v.freelist ≠ []) (j : Nat)
    (hj : PGROUNDUP sz + j * PGSIZE ≤ KERNBASE) :
    need v d (PGROUNDUP sz) j + imageFrames sz = imageFrames (PGROUNDUP sz + j * PGSIZE) := by
  induction j with
  | zero =>
    have hsz := h.size
    simp only [need, missingTables, imageFrames, PGROUNDUP, PGSIZE, KERNBASE, Finset.range_zero,
      Finset.image_empty, Finset.filter_empty, Finset.card_empty] at hsz ⊢
    omega
  | succ j ih =>
    have hmod : PGROUNDUP sz % PGSIZE = 0 := by grind [PGROUNDUP]
    have hstep : (PGROUNDUP sz + (j + 1) * PGSIZE) = PGROUNDUP sz + j * PGSIZE + PGSIZE := by ring
    rw [hstep] at hj ⊢
    replace ih := ih ((Nat.le_add_right _ _).trans hj)
    have htab := h.tables.resolve_left hne (PDX (PGROUNDUP sz + j * PGSIZE)) (by
      grind [PDX])
    -- a new table for the first page of one
    have hcond : (present (v.mem d (PDX (PGROUNDUP sz + j * PGSIZE))) = true ∨
        ∃ i < j, PDX (PGROUNDUP sz + j * PGSIZE) = PDX (PGROUNDUP sz + i * PGSIZE)) ↔
        ¬ (PGROUNDUP sz + j * PGSIZE) % 2 ^ 22 = 0 := by
      rw [htab]
      generalize PGROUNDUP sz = a at *
      constructor
      · rintro (hlow | ⟨i, hi, he⟩)
        · grind [PDX]
        · grind [PDX]
      · intro hfirst
        by_cases hlow : PDX (a + j * PGSIZE) * 2 ^ 22 < a
        · exact .inl hlow
        · refine .inr ⟨j - 1, ?_, ?_⟩
          · grind [PDX]
          · simp only [PDX, PGSIZE, KERNBASE] at hlow hfirst hj hmod ⊢
            omega
    rw [need_succ]
    simp only [hcond, ite_not]
    simp only [imageFrames, PGSIZE] at ih hmod ⊢
    split <;> omega

/-- The frames that are left when the image has grown. -/
theorem Image.grow_count (h : Image L root k d sz v) (newsz : Nat) :
    wp (allocuvm L d sz newsz) (fun r v' => r = 0 ∨
      v'.freelist.length = v.freelist.length - (imageFrames r - imageFrames sz)) (fun _ => True) v := by
  by_cases hlt : newsz < KERNBASE
  swap
  · rw [allocuvm, if_pos (Nat.le_of_not_lt hlt)]
    exact .inl rfl
  by_cases hle : sz ≤ newsz
  swap
  · rw [allocuvm, if_neg (by omega), if_pos (by omega)]
    exact .inr (by rw [Nat.sub_self, Nat.sub_zero])
  have hframes : imageFrames (PGROUNDUP sz + newPages sz newsz * PGSIZE) = imageFrames newsz := by
    grind [imageFrames, newPages, PGROUNDUP]
  have hend : PGROUNDUP sz + newPages sz newsz * PGSIZE ≤ KERNBASE := by
    grind [newPages, PGROUNDUP]
  refine wp_mono (allocuvm_outcome h.own h.dir hle hlt fun va h1 h2 => h.above va (h2.trans hlt) h1) ?_
    fun _ _ => trivial
  rintro r v' (⟨rfl, ⟨hg, -⟩ | ⟨j, f, hj, -, hlen, hneed, -, hnil⟩⟩ | ⟨rfl, -⟩)
  · refine .inr ?_
    have hcount := hg.count
    by_cases hne : v.freelist = []
    · rw [hne, List.length_nil] at hcount ⊢
      omega
    · have := h.need_pages hne _ hend
      omega
  · refine .inr ?_
    have hne : v.freelist ≠ [] := by grind
    have := h.need_pages hne _ hend
    rw [hnil, List.length_nil]
    omega
  · exact .inl rfl

/-! ## Loading -/

/-- A store to a page of the image. -/
theorem Image.store {va : Nat} (off n : Nat) (src : Bytes) (h : Image L root k d sz x.sys.vm)
    (hva : va < PGROUNDUP sz) (htab : present (x.sys.vm.mem d (PDX va)) = true) :
    Image L root k d sz (storedTo x (pteFrame (pteAt x.sys.vm d va)) off n src).sys.vm := by
  obtain ⟨hu, hf⟩ := h.pages va hva htab
  obtain ⟨hO, hdir, hpte⟩ := storedTo_page off n src h.own h.dir hu hf
  refine ⟨hO, h.dir, h.size, fun va h1 h2 => ?_, fun va h1 h2 => ?_, fun va h1 h2 => ?_,
    fun i h1 h2 => ?_, ?_⟩
  · rw [hpte]
    exact h.pages va h1 (hdir ▸ h2)
  · rw [hpte]
    exact h.above va h1 h2
  · rw [hpte]
    exact h.kern va h1 h2
  · rw [hdir]
    exact h.ktables i h1 h2
  · rw [hdir]
    exact h.tables

/-- `loaduvm` of a segment inside the image stores to its pages only. -/
theorem loaduvmFrom_image {F : File} {addr offset n : Nat} (hend : addr + n ≤ sz) :
    ∀ (fuel i : Nat) (x : Xstate), Image L root k d sz x.sys.vm →
    wp (loaduvmFrom F d addr offset n fuel i) (fun _ x' => Image L root k d sz x'.sys.vm ∧
      x'.sys.vm.freelist = x.sys.vm.freelist) (fun _ => True) x
  | 0, _, _, _ => trivial
  | fuel + 1, i, x, h => by
    rw [loaduvmFrom]
    refine wp_ite (fun hi => ?_) fun _ => ⟨h, rfl⟩
    have hsz := h.size
    have hva : (addr + i) % 2 ^ 32 < PGROUNDUP sz := by
      grind [PGROUNDUP]
    simp only [wp_bind, wp_vm, walkpgdir, getWord, wp_gets]
    by_cases hp : present (x.sys.vm.mem d (PDX ((addr + i) % 2 ^ 32))) = true
    · have hpte : pteAt x.sys.vm d ((addr + i) % 2 ^ 32) = x.sys.vm.mem
          (pteFrame (x.sys.vm.mem d (PDX ((addr + i) % 2 ^ 32)))) (PTX ((addr + i) % 2 ^ 32)) :=
        if_pos hp
      rw [if_pos hp, wp_pure]
      simp only [wp_bind, wp_vm, wp_gets, ← hpte]
      cases readi F ((offset + i) % 2 ^ 32) (if n - i < PGSIZE then n - i else PGSIZE) with
      | none => exact ⟨h, rfl⟩
      | some m =>
        simp only [storeBytes, wp_bind]
        by_cases hm : m = 0
        · rw [if_pos hm, wp_pure]
          exact wp_ite (fun _ => loaduvmFrom_image hend fuel _ x h) fun _ => ⟨h, rfl⟩
        · rw [if_neg hm, wp_modify]
          have hst := h.store 0 m (fun j => F.byte ((offset + i) % 2 ^ 32 + j)) hva hp
          exact wp_ite (fun _ => loaduvmFrom_image hend fuel _ _ hst) fun _ => ⟨hst, rfl⟩
    · rw [if_neg hp]
      trivial

/-- The segments of a file do not wrap around the end of the address space. -/
def NoWrap (F : File) : Prop :=
  ∀ n < F.phnum, (proghdr F ((F.phoff + 32 * n) % 2 ^ 32)).type = ELF_PROG_LOAD →
    (proghdr F ((F.phoff + 32 * n) % 2 ^ 32)).vaddr +
      (proghdr F ((F.phoff + 32 * n) % 2 ^ 32)).memsz < 2 ^ 32

/-- The end of a program of `sz` bytes and of the next `n` segments, with the headers from `off` on. -/
def segmentsEnd (F : File) : Nat → Nat → Nat → Nat
  | 0, _, sz => sz
  | n + 1, off, sz =>
    let ph := proghdr F off
    segmentsEnd F n ((off + 32) % 2 ^ 32)
      (if ph.type = ELF_PROG_LOAD then max sz (ph.vaddr + ph.memsz) else sz)

/-- The size of the program in a file. -/
def programSize (F : File) : Nat := segmentsEnd F F.phnum F.phoff 0

theorem le_segmentsEnd (F : File) (n off sz : Nat) : sz ≤ segmentsEnd F n off sz := by
  induction n generalizing off sz with
  | zero => exact le_rfl
  | succ n ih =>
    refine le_trans ?_ (ih _ _)
    split
    · exact le_max_left _ _
    · exact le_rfl

theorem imageFrames_mono {sz sz' : Nat} (h : sz ≤ sz') : imageFrames sz ≤ imageFrames sz' :=
  Nat.add_le_add (Nat.div_le_div_right (by omega)) (Nat.div_le_div_right (by omega))

/-- **Loading keeps the image**, which then has the size of the program and the frames for it. -/
theorem loadSegments_image {F : File} : ∀ (n off sz : Nat) (x : Xstate),
    (∀ m < n, (proghdr F ((off + 32 * m) % 2 ^ 32)).type = ELF_PROG_LOAD →
      (proghdr F ((off + 32 * m) % 2 ^ 32)).vaddr +
        (proghdr F ((off + 32 * m) % 2 ^ 32)).memsz < 2 ^ 32) →
    off < 2 ^ 32 → Image L root k d sz x.sys.vm →
    wp (loadSegments L F d n off sz)
      (fun r x' => ∀ sz', r = some sz' → Image L root k d sz' x'.sys.vm ∧
        sz' = segmentsEnd F n off sz ∧ x'.sys.vm.freelist.length =
          x.sys.vm.freelist.length - (imageFrames sz' - imageFrames sz)) (fun _ => True) x
  | 0, _, sz, x, _, _, h => fun sz' hsz => by
    obtain rfl := Option.some.inj hsz
    exact ⟨h, rfl, by rw [Nat.sub_self, Nat.sub_zero]⟩
  | n + 1, off, sz, x, hF, hoff, h => by
    have hnext : ∀ m < n, (proghdr F (((off + 32) % 2 ^ 32 + 32 * m) % 2 ^ 32)).type =
        ELF_PROG_LOAD → (proghdr F (((off + 32) % 2 ^ 32 + 32 * m) % 2 ^ 32)).vaddr +
          (proghdr F (((off + 32) % 2 ^ 32 + 32 * m) % 2 ^ 32)).memsz < 2 ^ 32 := by
      intro m hm
      have hm' := hF (m + 1) (by omega)
      rwa [show off + 32 * (m + 1) = off + 32 + 32 * m by ring, ← Nat.mod_add_mod] at hm'
    have hlt : (off + 32) % 2 ^ 32 < 2 ^ 32 := Nat.mod_lt _ (by decide)
    have hnone : ∀ x', wp (pure none : X (Option Nat))
        (fun r x' => ∀ sz', r = some sz' → Image L root k d sz' x'.sys.vm ∧
          sz' = segmentsEnd F (n + 1) off sz ∧ x'.sys.vm.freelist.length =
            x.sys.vm.freelist.length - (imageFrames sz' - imageFrames sz)) (fun _ => True) x' :=
      fun _ _ hsz => nomatch hsz
    have hph := hF 0 (Nat.succ_pos n)
    rw [Nat.mul_zero, Nat.add_zero, Nat.mod_eq_of_lt hoff] at hph
    rw [loadSegments]
    refine wp_ite (fun _ => hnone x) fun _ => ?_
    refine wp_ite (fun htype => ?_) fun htype => ?_
    · have hend : segmentsEnd F (n + 1) off sz = segmentsEnd F n ((off + 32) % 2 ^ 32) sz := by
        simp only [segmentsEnd, if_neg htype]
      rw [hend]
      exact loadSegments_image n _ sz x hnext hlt h
    refine wp_ite (fun _ => hnone x) fun hmem => ?_
    have hsum := hph (not_not.1 htype)
    rw [Nat.mod_eq_of_lt hsum]
    simp only [wp_bind, wp_vm]
    refine wp_mono (wp_and_any (h.grow _) (h.grow_count _)) ?_ fun _ _ => trivial
    rintro r v ⟨⟨rfl, -⟩ | ⟨hr, hi⟩, hcount⟩
    · rw [if_pos rfl]
      exact hnone _
    · refine wp_ite (fun _ => hnone _) fun hr0 => ?_
      have hend : segmentsEnd F (n + 1) off sz = segmentsEnd F n ((off + 32) % 2 ^ 32) r := by
        simp only [segmentsEnd, if_pos (not_not.1 htype), hr]
      replace hcount := hcount.resolve_left hr0
      rw [wp_bind, loaduvm, wp_bind, wp_stopIf]
      refine ⟨fun _ => trivial, fun _ => ?_⟩
      refine wp_post (loaduvmFrom_image (by omega) _ _ _ hi) fun b x' h' => ?_
      refine wp_ite (fun _ => ?_) fun _ => hnone x'
      refine wp_post (loadSegments_image n _ r x' hnext hlt h'.1) fun r' x'' hrest sz' hsz => ?_
      obtain ⟨himg, hsz', hlen⟩ := hrest sz' hsz
      refine ⟨himg, hsz'.trans hend.symm, ?_⟩
      have hle := le_segmentsEnd F n ((off + 32) % 2 ^ 32) r
      have h1 := imageFrames_mono (hsz' ▸ hle)
      have h2 := imageFrames_mono (hr ▸ le_max_left sz _ : sz ≤ r)
      have h3 : x'.sys.vm.freelist.length = v.freelist.length := by rw [h'.2]
      rw [hlen, h3, hcount]
      omega

/-! ## From the loading on -/

/-- `exec` of `F` from `x` comes to the end of the loading in `x₁`, with a program of `sz` bytes in
`d`. -/
structure Loaded (L : Layout) (F : File) (x : Xstate) (d sz : Nat) (x₁ : Xstate) : Prop where
  header : ¬ (readi F 0 52).any (· < 52) = true
  magic : F.magic = ELF_MAGIC
  run : ∃ v x', setupkvm L x.sys.vm = .ok (some d, v) ∧
    loadSegments L F d F.phnum F.phoff 0
      { x with ref := x.ref + 1, sys := { x.sys with vm := v } } = .ok (some sz, x') ∧
    x₁ = { x' with ref := x'.ref - 1 }

/-- **What `exec` does after the loading.** -/
theorem exec_loaded {F : File} {i : Nat} {p : Proc} {path : List UInt8} {argv : List (List UInt8)}
    {x1 : Xstate} (h : Loaded L F x d sz x1) :
    exec L i p (some F) path argv x = execStack L i p F path argv d sz x1 := by
  obtain ⟨v, x', hset, hload, rfl⟩ := h.run
  have hvm : vm (setupkvm L) { x with ref := x.ref + 1 } =
      .ok (some d, { x with ref := x.ref + 1, sys := { x.sys with vm := v } }) := by
    rw [vm, hset]
  unfold exec
  refine (Comp.bind_ok (m := Comp.modify fun s => { s with ref := s.ref + 1 }) (s := x) rfl _).trans ?_
  refine (congrFun (if_neg h.header) _).trans ?_
  refine (congrFun (if_neg (not_not.2 h.magic)) _).trans ?_
  refine (Comp.bind_ok hvm _).trans ?_
  refine (Comp.bind_ok (m := loadSegments L F d F.phnum F.phoff 0) hload _).trans ?_
  dsimp only
  have hput : Comp.modify (ε := XStop) (fun s : Xstate => { s with ref := s.ref - 1 }) x' =
      .ok ((), { x' with ref := x'.ref - 1 }) := rfl
  rw [Comp.bind_ok hput, execStack]

/-- The image that was loaded, of the program's size, and the frames that are left. -/
theorem Loaded.image {F : File} {x1 : Xstate} (h : Loaded L F x d sz x1)
    (hO : Own L root x.sys.vm) (hk : root k = none) (hF : NoWrap F) :
    Image L (update root k (some d)) k d sz x1.sys.vm ∧ sz = programSize F ∧
      x1.sys.vm.freelist.length = x.sys.vm.freelist.length - 65 - imageFrames sz := by
  obtain ⟨v, x', hset, hload, rfl⟩ := h.run
  have hb := wp_ok (setupkvm_exact (E := fun _ => True) hO hk) hset
  rcases hb with ⟨hd, -⟩ | ⟨d', hd, hb⟩
  · cases hd
  · cases hd
    have hphoff : F.phoff < 2 ^ 32 := Bytes.leGet_lt _ 4 _
    obtain ⟨himg, hsz, hlen⟩ :=
      wp_ok (loadSegments_image F.phnum F.phoff 0 _ hF hphoff hb.image) hload sz rfl
    refine ⟨himg, hsz, hlen.trans ?_⟩
    rw [hb.free, List.length_drop]
    rfl

end

end Dixv6.Vm
