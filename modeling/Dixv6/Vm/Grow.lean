import Dixv6.Vm.GrowLeak

/-!
# What a failed `growproc` leaves

`growproc` returns `-1` when `allocuvm` or `deallocuvm` returns 0. `GrowprocLaw` says that the
process is then as it was: its size, and every user page with its entry and its contents.

`growproc_unchanged` gives the exact condition. A call that gives up the whole of the memory is
reported as a failure after the pages are gone (`ShrinkBad`), since its new size is 0; and a call
that runs out of frames frees the pages that lay above the size before (`GrowBad`).
-/

namespace Dixv6.Vm

open Lib Function

/-- A page of the user's: one below `KERNBASE`, or one that the user may reach. -/
def OwnPage (s : State) (pgdir va : Nat) : Prop :=
  present (pteAt s pgdir va) = true ∧ (va < KERNBASE ∨ user (pteAt s pgdir va) = true)

/-- The user's pages are the same, with the same frames, flags and contents. -/
def SameUser (s s' : State) (pgdir : Nat) : Prop :=
  ∀ va < 2 ^ 32, OwnPage s pgdir va ∨ OwnPage s' pgdir va →
    pteAt s' pgdir va = pteAt s pgdir va ∧
      s'.mem (pteFrame (pteAt s pgdir va)) = s.mem (pteFrame (pteAt s pgdir va))

/-- When `growproc` fails, the process is as it was. -/
def GrowprocLaw (L : Layout) (s : Sys) (i : Nat) (p : Proc) (n : Int32) : Prop :=
  ∀ s', growproc L i p n s = .ok (false, s') →
    s'.procs = s.procs ∧ SameUser s.vm s'.vm p.pgdir

/-- The frames run out between `oldsz` and `newsz`, and the clean-up comes to a page that was there
before, and finds only memory. -/
def GrowBad (s : State) (pgdir oldsz newsz : Nat) : Prop :=
  newsz < KERNBASE ∧ oldsz ≤ newsz ∧
    ∃ j b, RunsOut s pgdir (PGROUNDUP oldsz) (newPages oldsz newsz) j b ∧
      CleanupOk s pgdir (PGROUNDUP oldsz) j newsz ∧
      ∃ va, PGROUNDUP oldsz ≤ va ∧ va < newsz ∧ Visited s pgdir (PGROUNDUP oldsz) j va ∧
        present (pteAt s pgdir va) = true

/-- There is a page below the size, and all of them are memory. -/
def ShrinkBad (s : State) (pgdir sz : Nat) : Prop :=
  (∀ va < sz, present (pteAt s pgdir va) = true → pteFrame (pteAt s pgdir va) < NFRAMES) ∧
    ∃ va < sz, present (pteAt s pgdir va) = true

/-- The calls that leave the process as it was if they fail. -/
def GrowprocOk (s : State) (p : Proc) (n : Int32) : Prop :=
  (0 < n.toInt → ¬ GrowBad s p.pgdir p.sz (uint (p.sz + n.toInt))) ∧
    (n.toInt < 0 → p.sz + n.toInt = 0 → ¬ ShrinkBad s p.pgdir p.sz)

section
variable {L : Layout} {root : Nat → Option Nat} {s s' s0 s1 s2 : State}
  {k pgdir a j lo hi f g t oldsz newsz : Nat} {E : Stop → Prop}

/-! ## The contents of pages -/

/-- The walk of `deallocuvm` comes to a page in the frame `g`. -/
def Named (s : State) (pgdir lo hi g : Nat) : Prop :=
  ∃ va, lo ≤ va ∧ va < hi ∧ ¬ Skipped s pgdir lo va ∧ present (pteAt s pgdir va) = true ∧
    pteFrame (pteAt s pgdir va) = g

/-- A page in another frame than the one that is freed is still there. -/
theorem Page.freed (h : Page root s k g) (hk : root k = some pgdir)
    (hpte : ∀ va, pteAt s1 pgdir va =
      if PDX va = PDX a ∧ PTX va = PTX a then 0 else pteAt s pgdir va)
    (hf : node root s k [PTX a, PDX a] = some f) (hg : g ≠ f) : Page root s1 k g := by
  refine h.imp id ?_
  rintro ⟨x, y, hn⟩
  rcases node_cases hk hn with ⟨h, -⟩ | ⟨i, -, h, -⟩ | ⟨va, -, hπ, hown⟩
  · cases h
  · cases h
  · refine ⟨PTX va, PDX va, ?_⟩
    rw [node_pteAt hk, hpte, if_neg, hown]
    rintro ⟨h1, h2⟩
    rw [hπ, h1, h2, hf] at hn
    exact hg (Option.some.inj hn).symm

/-- **The loop of `deallocuvm` writes to no page it does not come to.** -/
theorem Unmaps.pages {hi : Nat} (h : Unmaps root k hi a s s') (hO : Own L root s)
    (hk : root k = some pgdir) (hhi : hi ≤ KERNBASE) (hg : Page root s k g)
    (hno : ¬ Named s pgdir a hi g) : s'.mem g = s.mem g := by
  simp only [KERNBASE] at hhi
  have hnext : ∀ {a t} {s s1 : State}, node root s k [PDX a] = some t → ¬ Named s pgdir a hi g →
      (∀ va, present (pteAt s1 pgdir va) = true → pteAt s1 pgdir va = pteAt s pgdir va) →
      ¬ Named s1 pgdir (a + PGSIZE) hi g := by
    rintro a t s s1 ht hno hpte ⟨va, h1, h2, -, h4, h5⟩
    refine hno ⟨va, by lia, h2, ?_, hpte va h4 ▸ h4, hpte va h4 ▸ h5⟩
    exact not_skipped (.inl ((present_iff_table hk (PDX_lt a)).2 ⟨t, ht⟩))
  induction h with
  | done => rfl
  | @skip a s s' hlt ht h ih =>
    have hmiss : ¬ present (s.mem pgdir (PDX a)) = true := fun hp => by
      rw [node_table hk (PDX_lt a), if_pos hp] at ht; cases ht
    refine ih hO hg ?_
    rintro ⟨va, h1, h2, h3, h4⟩
    refine hno ⟨va, by omega, h2, ?_, h4⟩
    rwa [skipped_jump hmiss h1 (by omega)]
  | keep hlt ht hp h ih => exact ih hO hg (hnext ht hno fun _ _ => rfl)
  | @free a t f s s1 s' hlt ht hf hu h ih =>
    have hpte := hu.pte hO hk ht hf
    have hown : ownedFrame (PDX a) (pteAt s pgdir a) = some f := (node_pteAt hk a).symm.trans hf
    have hgf : g ≠ f := fun e => by
      obtain ⟨⟨hp, -⟩, hfr⟩ := Option.ite_none_right_eq_some.1 hown
      exact hno ⟨a, le_rfl, hlt, not_skipped (.inl ((present_iff_table hk (PDX_lt a)).2 ⟨t, ht⟩)), hp,
        (Option.some.inj hfr).trans e.symm⟩
    have hgt : g ≠ t := fun e => (hg.aside hO).2 [PDX a] (by simp [shape]) (e ▸ ht)
    rw [ih (hO.unmap ht hf hu.mem hu.freelist).2 (hg.freed hk hpte hf hgf) (hnext ht hno fun va hp => ?_),
      hu.mem, update_of_ne hgt, update_of_ne hgf]
    rw [hpte] at hp ⊢
    split at hp
    · cases hp
    · next h => rw [if_neg h]

/-- **What `deallocuvm` frees, and what it leaves of the other pages.** -/
theorem deallocuvm_pages (hO : Own L root s) (hk : root k = some pgdir) (hsz : oldsz ≤ KERNBASE)
    (hlt : newsz < oldsz) (hE : E .kfree ∨ Sound s pgdir (PGROUNDUP newsz) oldsz) :
    wp (deallocuvm L pgdir oldsz newsz) (fun r s' => r = newsz ∧
      Emptied L root k pgdir (PGROUNDUP newsz) oldsz s s' ∧
      ∀ g, Page root s k g → ¬ Named s pgdir (PGROUNDUP newsz) oldsz g → s'.mem g = s.mem g) E s :=
  wp_post (deallocuvm_unmaps hO hk hsz hlt hE) fun _ _ h =>
    ⟨h.1, h.2.emptied hO hk hsz (by grind [PGROUNDUP]),
      fun _ hg hno => h.2.pages hO hk hsz hg hno⟩

/-! ## The clean-up -/

/-- The frame of a user's page. -/
theorem OwnPage.page (hk : root k = some pgdir) {va : Nat} (h : OwnPage s pgdir va) :
    Page root s k (pteFrame (pteAt s pgdir va)) := by
  by_cases hlt : pteFrame (pteAt s pgdir va) < NFRAMES
  · have huser : PDX va < 512 ∨ user (pteAt s pgdir va) = true := by
      refine h.2.imp (fun h => ?_) id
      grind [PDX]
    refine .inr ⟨PTX va, PDX va, ?_⟩
    rw [node_pteAt hk, ownedFrame, if_pos ⟨h.1, huser, hlt⟩]
  · exact .inl (by omega)

/-- Addresses of one page have one entry. -/
theorem pteAt_page (s : State) (pgdir va : Nat) :
    pteAt s pgdir (va / PGSIZE * PGSIZE) = pteAt s pgdir va := by
  have h : PDX (va / PGSIZE * PGSIZE) = PDX va ∧ PTX (va / PGSIZE * PGSIZE) = PTX va := by
    simp only [PDX, PTX, PGSIZE]; omega
  rw [pteAt, pteAt, h.1, h.2]

/-- **After the clean-up** the user's pages are as they were exactly if it came to none of those
that were there before. -/
theorem Stuck.same_user {hand : List Nat} (h : Stuck L root k pgdir a j hand s0 s)
    (hsame : SamePages root k s0 s) (hk : root k = some pgdir) (ha : a % PGSIZE = 0)
    (hhi : hi ≤ KERNBASE) (hin : a + j * PGSIZE ≤ hi) (he : Emptied L root k pgdir a hi s s')
    (hmem : ∀ g, Page root s k g → ¬ Named s pgdir a hi g → s'.mem g = s.mem g) :
    SameUser s0 s' pgdir ↔ ∀ va, a ≤ va → va < hi → Visited s0 pgdir a j va →
      ¬ present (pteAt s0 pgdir va) = true := by
  simp only [KERNBASE] at hhi
  constructor
  · intro hs va h1 h2 h3 hp
    have huser : OwnPage s0 pgdir va := ⟨hp, .inl (by lia)⟩
    have hgone := he.gone va h1 h2 (h.visited.2 h3)
    rw [(hs va (by omega) (.inl huser)).1] at hgone
    exact hgone hp
  · intro hnone
    -- a page that the clean-up comes to was not there before
    have hempty : ∀ va, a ≤ va → va / PGSIZE * PGSIZE < hi → ¬ Skipped s pgdir a va →
        ¬ present (pteAt s0 pgdir va) = true := by
      intro va h1 h2 h3
      rw [← pteAt_page]
      refine hnone _ (by lia) h2 (h.visited.1 ?_)
      have hpage : PDX (va / PGSIZE * PGSIZE) = PDX va ∧ PTX (va / PGSIZE * PGSIZE) = PTX va := by
        simp only [PDX, PTX, PGSIZE]; omega
      rw [Skipped, hpage.1, hpage.2]
      exact h3
    -- so the entry is the same, or there is no page before and after
    have hentry : ∀ va < 2 ^ 32, pteAt s' pgdir va = pteAt s0 pgdir va ∨
        (¬ present (pteAt s0 pgdir va) = true ∧ ¬ present (pteAt s' pgdir va) = true) := by
      intro va hva
      rcases he.kept va hva with hkept | ⟨h1, h2, h3, h4⟩
      · rcases h.pages va hva with hpte | ⟨h1, h2, -⟩
        · exact .inl (hkept.trans hpte)
        · have hj : 0 < j := by
            by_contra hj
            rw [Nat.eq_zero_of_not_pos hj] at h2
            omega
          exact .inr ⟨h.absent_va ha h1 h2,
            he.gone va h1 (h2.trans_le hin) (h.visited.2 (.inl hj))⟩
      · exact .inr ⟨hempty va h1 h2 h3, by rw [h4]; decide⟩
    intro va hva hu
    rcases hentry va hva with hpte | ⟨hp, hp'⟩
    swap
    · exact hu.elim (fun h => absurd h.1 hp) fun h => absurd h.1 hp'
    have hu0 : OwnPage s0 pgdir va := hu.elim id fun h => by
      rw [OwnPage, hpte] at h
      exact h
    refine ⟨hpte, ?_⟩
    have hpage := hu0.page hk
    have hpage' : Page root s k (pteFrame (pteAt s0 pgdir va)) := by
      rcases hpage with hout | ⟨x, y, hn⟩
      · exact .inl hout
      · exact .inr ⟨x, y, h.keep _ _ hn⟩
    rw [hmem _ hpage' ?_, hsame _ hpage]
    rintro ⟨va', h1, h2, h3, h4, h5⟩
    -- the frame would be at two places
    have hlt := he.sound va' h1 h2 h3 h4
    have hlow : PDX va' < 512 := by grind [PDX]
    have hown : node root s k [PTX va', PDX va'] = some (pteFrame (pteAt s0 pgdir va)) := by
      rw [node_pteAt hk, ownedFrame, if_pos ⟨h4, .inl hlow, hlt⟩, h5]
    obtain ⟨x, y, hn⟩ := hpage.resolve_left (by omega)
    rcases node_cases hk hn with ⟨h, -⟩ | ⟨i, -, h, -⟩ | ⟨va0, -, hπ, hf⟩
    · cases h
    · cases h
    have hsameπ := (h.own.distinct _ _ _ _ _ (h.keep _ _ hn) hown).2
    rw [hπ] at hsameπ
    simp only [List.cons.injEq, and_true] at hsameπ
    refine hempty va' h1 (by lia) h3 ?_
    rw [pteAt, ← hsameπ.1, ← hsameπ.2]
    exact present_of_owned hf

theorem SameUser.refl (s : State) (pgdir : Nat) : SameUser s s pgdir := fun _ _ _ => ⟨rfl, rfl⟩

/-- **A failed `allocuvm`** takes away the pages above the size. -/
theorem allocuvm_user (hO : Own L root s) (hk : root k = some pgdir) (hne : newsz = 0 → oldsz ≠ 0) :
    wp (allocuvm L pgdir oldsz newsz) (fun r s' =>
      (r = 0 → (SameUser s s' pgdir ↔ ¬ GrowBad s pgdir oldsz newsz)) ∧
      (r ≠ 0 → ¬ GrowBad s pgdir oldsz newsz)) (fun _ => ¬ GrowBad s pgdir oldsz newsz) s := by
  unfold allocuvm
  refine wp_ite (fun hge => ?_) fun hge => wp_ite (fun hlt => ?_) fun hlt => ?_
  · have hgood : ¬ GrowBad s pgdir oldsz newsz := fun h => absurd h.1 (by omega)
    exact ⟨fun _ => iff_of_true (.refl s pgdir) hgood, fun _ => hgood⟩
  · have hgood : ¬ GrowBad s pgdir oldsz newsz := fun h => absurd h.2.1 (by omega)
    exact ⟨fun _ => iff_of_true (.refl s pgdir) hgood, fun _ => hgood⟩
  have hsz : newsz < KERNBASE := by omega
  generalize ha : PGROUNDUP oldsz = a
  generalize hNeq : newPages oldsz newsz = N
  have hmod : a % PGSIZE = 0 := by rw [← ha]; grind [PGROUNDUP]
  have hN : ∀ j, a + j * PGSIZE < newsz ↔ j < N := fun j => by
    rw [← hNeq, ← ha]; grind [newPages]
  have hgood : (∀ j b, ¬ RunsOut s pgdir a N j b) → ¬ GrowBad s pgdir oldsz newsz := by
    rintro hno ⟨-, -, j, b, hr, -⟩
    rw [ha, hNeq] at hr
    exact hno j b hr
  have hrule := allocuvmFrom_rule (E := fun _ => ¬ GrowBad s pgdir oldsz newsz)
    (Q := fun r s' => (r = 0 → (SameUser s s' pgdir ↔ ¬ GrowBad s pgdir oldsz newsz)) ∧
      (r ≠ 0 → ¬ GrowBad s pgdir oldsz newsz)) oldsz hO hk hsz hmod hN ?_
    (fun hno s' _ => ⟨fun h => by omega, fun _ => hgood hno⟩) (fun hno _ _ _ => hgood hno) TURNS 0 s (Nat.add_zero _)
    (.refl hO) (fun _ _ => rfl) (fun i hi => absurd hi (Nat.not_lt_zero i)) (Nat.zero_le _)
  · rwa [Nat.zero_mul, Nat.add_zero] at hrule
  intro j hand s1 h hsame hr
  have hin := (hN j).2 hr.1
  have hlt' : oldsz < newsz := by
    simp only [← ha, PGROUNDUP, PGSIZE, KERNBASE] at *; omega
  have hbad : GrowBad s pgdir oldsz newsz ↔ CleanupOk s pgdir a j newsz ∧ ∃ va, a ≤ va ∧
      va < newsz ∧ Visited s pgdir a j va ∧ present (pteAt s pgdir va) = true := by
    unfold GrowBad
    rw [ha, hNeq]
    constructor
    · rintro ⟨-, -, j', b, hr', hok⟩
      obtain ⟨rfl, rfl⟩ := hr.unique hr'
      exact hok
    · intro hok
      exact ⟨hsz, hlt'.le, j, _, hr, hok⟩
  refine wp_seq (deallocuvm_pages h.own hk hsz.le hlt' ?_) ?_
  · rw [ha]
    by_cases hok : CleanupOk s pgdir a j newsz
    · exact .inr (h.sound hsz.le hok)
    · exact .inl fun hb => hok (hbad.1 hb).1
  · rintro _ s' ⟨-, he, hmem⟩
    rw [ha] at he hmem
    refine ⟨fun _ => ?_, fun h => absurd rfl h⟩
    rw [h.same_user hsame hk hmod hsz.le (by omega) he hmem, hbad, not_and]
    constructor
    · grind
    · intro hno va h1 h2 h3 h4
      exact hno (h.cleanupOk hmod hsz.le he) ⟨va, h1, h2, h3, h4⟩

/-- **Giving up all memory** takes it away and reports a failure. -/
theorem deallocuvm_all (hO : Own L root s) (hk : root k = some pgdir) {sz : Nat}
    (hsz : sz ≤ KERNBASE) (hpos : 0 < sz) : wp (deallocuvm L pgdir sz 0) (fun r s' =>
      r = 0 ∧ (SameUser s s' pgdir ↔ ¬ ShrinkBad s pgdir sz)) (fun _ => ¬ ShrinkBad s pgdir sz)
      s := by
  have hzero : PGROUNDUP 0 = 0 := rfl
  have hskip : ∀ va, ¬ Skipped s pgdir 0 va := fun va => not_skipped (.inr rfl)
  have h : Stuck L root k pgdir 0 0 [] s s := (Growing.refl hO).stuck
  refine wp_post (deallocuvm_pages hO hk hsz hpos ?_) ?_
  · by_cases hs : Sound s pgdir 0 sz
    · exact .inr hs
    · exact .inl fun hb => hs fun va _ h2 _ hp => hb.1 va h2 hp
  · rintro r s' ⟨rfl, he, hmem⟩
    refine ⟨rfl, ?_⟩
    rw [h.same_user (fun _ _ => rfl) hk rfl hsz (by omega) he hmem]
    constructor
    · rintro hnone ⟨-, va, hva, hp⟩
      exact hnone va (Nat.zero_le va) hva (.inr (hskip va)) hp
    · intro hgood va _ hva _ hp
      exact hgood ⟨fun va' h2 hp' => he.sound va' (Nat.zero_le va') h2 (hskip va') hp', va, hva, hp⟩

/-- The size that `deallocuvm` returns. -/
theorem deallocuvm_returns :
    wp (deallocuvm L pgdir oldsz newsz) (fun r s' =>
      (newsz < oldsz ∧ r = newsz) ∨ (oldsz ≤ newsz ∧ r = oldsz ∧ s' = s)) (fun _ => True) s := by
  unfold deallocuvm
  refine wp_ite (fun h => .inr ⟨h, rfl, rfl⟩) fun h => ?_
  exact wp_seq wp_any fun _ _ _ => .inl ⟨by omega, rfl⟩

/-! ## `growproc` -/

/-- **When a failed `growproc` leaves the process as it was.** -/
theorem growproc_unchanged {x : Sys} {i : Nat} {p : Proc} {n : Int32} (hO : Own L root x.vm)
    (hk : root k = some p.pgdir) (hsz : p.sz < 2 ^ 32) :
    GrowprocLaw L x i p n ↔ GrowprocOk x.vm p n := by
  refine law_of_wp (v := false)
    (R := fun x' : Sys => x'.procs = x.procs ∧ SameUser x.vm x'.vm p.pgdir) ?_
  have hle := Int32.le_toInt n
  have hlt := Int32.toInt_lt n
  unfold growproc GrowprocOk
  rcases lt_trichotomy n.toInt 0 with hn | hn | hn
  · rw [if_neg (by omega), if_pos hn]
    simp only [hn, not_lt_of_gt hn, false_implies, true_and, true_implies]
    by_cases hall : p.sz + n.toInt = 0
    · -- the whole of the memory is given up
      have hu : uint (p.sz + n.toInt) = 0 := by rw [hall]; rfl
      rw [hu]
      simp only [hall, true_implies, wp_bind, wp_liftVm]
      have hpos : 0 < p.sz := by omega
      have hkern : p.sz ≤ KERNBASE := by lia
      refine wp_post (deallocuvm_all hO hk hkern hpos) ?_
      rintro r vm ⟨rfl, hsame⟩
      simp [hsame]
    · simp only [hall, false_implies]
      have hP : (False → ¬ ShrinkBad x.vm p.pgdir p.sz) ↔ True := by simp
      simp only [wp_bind, wp_liftVm]
      refine wp_mono (deallocuvm_returns (s := x.vm)) ?_ fun _ _ => trivial
      rintro r vm (⟨h1, rfl⟩ | ⟨-, rfl, rfl⟩)
      · have hne : uint (p.sz + n.toInt) ≠ 0 := by
          intro h0
          unfold uint at h0
          omega
        simp [hne, setSz]
      · refine wp_ite (fun _ => ?_) fun _ => ?_
        · simp [SameUser.refl]
        · simp [setSz]
  · simp [hn, setSz]
  · rw [if_pos hn]
    have hnot : ¬ n.toInt < 0 := by omega
    simp only [hn, hnot, true_implies, false_implies, and_true]
    have hne : uint (p.sz + n.toInt) = 0 → p.sz ≠ 0 := by
      intro h0 hz
      unfold uint at h0
      omega
    simp only [wp_bind, wp_liftVm]
    refine wp_post (allocuvm_user hO hk hne) fun r vm h => ?_
    refine wp_ite (fun h0 => ?_) fun h0 => ?_
    · simp [h.1 h0]
    · simp [setSz, h.2 h0]

/-- The one page of the example. -/
theorem demo_page {va : Nat} (h : va < 100) : pteAt demo.vm 400 va = 402 * 4096 + 7 := by
  have h1 : PTX va = 0 := by grind [PTX]
  have h2 : PDX va = 0 := by grind [PDX]
  rw [pteAt, h1, h2]
  rfl

/-- A process of one page gives up all of it: the page is gone, and the call has failed. -/
theorem growproc_all_gone : Own demoLayout (rootOf demo.procs) demo.vm ∧
    rootOf demo.procs 0 = some 400 ∧ demo.procs 0 = some ⟨400, 100⟩ ∧
    ∃ s', growproc demoLayout 0 ⟨400, 100⟩ (-100) demo = .ok (false, s') ∧
      ¬ SameUser demo.vm s'.vm 400 := by
  have hbad : ShrinkBad demo.vm 400 100 :=
    ⟨fun va hva _ => by rw [demo_page hva]; decide, 0, by decide, by decide⟩
  have hrun : wp (growproc demoLayout 0 ⟨400, 100⟩ (-100)) (fun r s' => r = false ∧
      ¬ SameUser demo.vm s'.vm 400) (fun _ => False) demo := by
    have hcall := @deallocuvm_all demoLayout _ demo.vm 0 400 demo_wf.own rfl 100 (by decide)
      (by decide)
    unfold growproc
    rw [if_neg (by decide), if_pos (by decide)]
    simp only [wp_bind, wp_liftVm]
    refine wp_mono hcall ?_ fun _ h => h hbad
    rintro r vm ⟨rfl, hsame⟩
    exact ⟨rfl, hsame.not.2 (not_not.2 hbad)⟩
  obtain ⟨_, s', hs', rfl, hgone⟩ := wp_total hrun
  exact ⟨demo_wf.own, rfl, rfl, s', hs', hgone⟩

/-- A call that asks for more memory than there are addresses leaves the process as it was. -/
theorem growproc_unchanged_demo : GrowprocLaw demoLayout demo 0 ⟨400, 100⟩ 2147483647 := by
  refine (growproc_unchanged (k := 0) demo_wf.own rfl (by decide)).2 ⟨fun _ h => ?_, fun h => ?_⟩
  · exact absurd h.1 (by decide)
  · exact absurd h (by decide)

end

end Dixv6.Vm
