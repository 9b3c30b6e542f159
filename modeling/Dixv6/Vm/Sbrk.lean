import Dixv6.Vm.Uvm

/-!
# `sbrk`, and `fork` after it

`SbrkLaw` says what a successful `sbrk` should leave. `sys_sbrk` adds `n` to a size that
`growproc` has changed already, so the law fails whenever a call with `n ≠ 0` succeeds:
`sbrkLaw_iff` gives the exact condition `SbrkOk`.

`Reaches` collects the states that any number of processes reach by `fork`, memory accesses with
their page faults, and `sbrk` calls that ask for nothing or are refused. In all of them every
process still has all its pages (`Wf`), and `fork` does not stop on a missing one.
-/

namespace Dixv6.Vm

open Lib Function

/-! ## The invariant of the process table -/

/-- The page directories of the processes. -/
def rootOf (procs : Nat → Option Proc) (k : Nat) : Option Nat := (procs k).map Proc.pgdir

/-- Frames are owned once, and every process has a frame for each page below its size. -/
structure Wf (L : Layout) (s : Sys) : Prop where
  own : Own L (rootOf s.procs) s.vm
  size : ∀ k p, s.procs k = some p → p.sz ≤ KERNBASE
  filled : ∀ k p, s.procs k = some p → Filled (rootOf s.procs) s.vm k p.sz

section
variable {L : Layout} {s s' : Sys} {i g va : Nat} {p : Proc} {n : Int32} {E : Stop → Prop}
  {vm : State}

/-- Memory code run by process code. -/
@[simp] theorem wp_liftVm {α : Type} {m : M α} {Q : α → Sys → Prop} :
    wp (liftVm m) Q E s ↔ wp m (fun a vm => Q a { s with vm }) E s.vm := by
  unfold wp liftVm
  cases m s.vm <;> rfl

theorem rootOf_some (hp : s.procs i = some p) : rootOf s.procs i = some p.pgdir := by
  simp [rootOf, hp]

/-- A page of the process below its size is present, and its frame is real. -/
theorem Wf.page (hwf : Wf L s) (hp : s.procs i = some p) (hva : va < p.sz) :
    present (pteAt s.vm p.pgdir va) = true ∧ pteFrame (pteAt s.vm p.pgdir va) < NFRAMES := by
  obtain ⟨f, hf⟩ := hwf.filled i p hp va hva
  rw [node_pteAt (rootOf_some hp), ownedFrame] at hf
  split at hf
  · next h => exact ⟨h.1, h.2.2⟩
  · cases hf

/-- Memory code that takes no page away keeps the invariant. -/
theorem Wf.grows (hwf : Wf L s) (h : Grows L (rootOf s.procs) s.vm (rootOf s.procs) vm) : Wf L
    { s with vm } :=
  ⟨h.own, hwf.size, fun k p hp => (hwf.filled k p hp).mono h⟩

/-- Memory code that takes away only pages above the size keeps the invariant. -/
theorem Wf.shrunk (hwf : Wf L s) (hp : s.procs i = some p) {hi : Nat}
    (h : Shrunk L (rootOf s.procs) i (PGROUNDUP p.sz) hi s.vm vm) (hhi : hi ≤ 2 ^ 32) :
    Wf L { s with vm } := by
  refine ⟨h.own, hwf.size, fun k q hq va hva => ?_⟩
  obtain ⟨f, hf⟩ := hwf.filled k q hq va hva
  refine ⟨f, h.keep _ _ _ ?_ hf⟩
  rintro rfl ⟨va', h1, h2, h3⟩
  have hpq : q = p := Option.some.inj (hq.symm.trans hp)
  have hsz := hwf.size _ p hp
  subst hpq
  simp only [List.cons.injEq, and_true, PTX, PDX, PGROUNDUP, PGSIZE, KERNBASE] at *
  omega

/-! ## The law of `sbrk` -/

/-- The law: when `sbrk` succeeds it returns the old size, the size has grown by exactly `n`, the
pages below it are present and (except for the guard page `g`) open to the user, those above are
not, and the new ones are zero. -/
def SbrkLaw (L : Layout) (g : Nat) (s : Sys) (i : Nat) (p : Proc) (n : Int32) : Prop :=
  ∀ addr s', sys_sbrk L i p n s = .ok (some addr, s') →
    addr = p.sz ∧ ∃ sz', s'.procs i = some ⟨p.pgdir, sz'⟩ ∧ (sz' : Int) = p.sz + n.toInt ∧
    (∀ va < sz', present (pteAt s'.vm p.pgdir va) = true ∧
      (va / PGSIZE ≠ g → user (pteAt s'.vm p.pgdir va) = true)) ∧
    (∀ va, PGROUNDUP sz' ≤ va → va < 2 ^ 32 →
      ¬ (present (pteAt s'.vm p.pgdir va) = true ∧ user (pteAt s'.vm p.pgdir va) = true)) ∧
    ∀ va, PGROUNDUP p.sz ≤ va → va < sz' →
      s'.vm.mem (pteFrame (pteAt s'.vm p.pgdir va)) = fun _ => 0

/-- Growing by `n` is refused: the new size reaches the kernel's part, or a page to add is there
already, or there are too few frames. -/
def Refused (s : Sys) (p : Proc) (n : Int32) : Prop :=
  ¬ (p.sz + n.toInt < KERNBASE ∧
    Ready s.vm p.pgdir (PGROUNDUP p.sz) (newPages p.sz (uint (p.sz + n.toInt))))

/-- The calls for which the law holds: those that ask for nothing, when no page lies above the
size, and those that do not succeed. -/
def SbrkOk (s : Sys) (p : Proc) (n : Int32) : Prop :=
  (n = 0 ∧ ∀ va, PGROUNDUP p.sz ≤ va → va < 2 ^ 32 →
    ¬ (present (pteAt s.vm p.pgdir va) = true ∧ user (pteAt s.vm p.pgdir va) = true)) ∨
  (0 < n.toInt ∧ Refused s p n) ∨
  (n.toInt < 0 ∧ (p.sz = 0 ∨ p.sz + n.toInt = 0))

/-- `sbrk(0)` changes nothing. -/
theorem sys_sbrk_zero (hp : s.procs i = some p) (hsz : p.sz ≤ KERNBASE) :
    wp (sys_sbrk L i p 0) (fun r s' => r = some p.sz ∧ s' = s) E s := by
  have hu : uint p.sz = p.sz := uint_eq 0 (by simp) (by lia)
  have hself : update s.procs i (some p) = s.procs := by
    rw [← hp, update_eq_self]
  simp [sys_sbrk, growproc, setSz, hself, hu]

/-- **Growing**: a call that is not refused succeeds, and leaves a size that has grown twice. -/
theorem sys_sbrk_pos (hwf : Wf L s) (hp : s.procs i = some p) (hn : 0 < n.toInt) :
    wp (sys_sbrk L i p n) (fun r s' => (r = none ∧ Refused s p n) ∨ (r ≠ none ∧ ¬ Refused s p n ∧
      s'.procs i = some ⟨p.pgdir, p.sz + 2 * n.toInt.toNat⟩)) (fun _ => Refused s p n) s := by
  have hsz := hwf.size i p hp
  have hn' := Int32.toInt_lt n
  simp only [KERNBASE] at hsz
  have hu : uint (p.sz + n.toInt) = p.sz + n.toInt.toNat := uint_eq 0 (by omega) (by omega)
  have hlt : uint (p.sz + n.toInt) < KERNBASE ↔ p.sz + n.toInt < KERNBASE := by
    lia
  simp only [sys_sbrk, growproc, hn, if_true, wp_bind, wp_liftVm]
  refine wp_mono (allocuvm_result hwf.own (rootOf_some hp) p.sz (uint (p.sz + n.toInt))
    (by omega) (by omega)) ?_ ?_
  · rintro r vm (⟨rfl, hfit⟩ | ⟨rfl, hfit⟩)
    · -- the size is stored by `growproc`, and `n` is added once more
      have hne : uint (p.sz + n.toInt) ≠ 0 := by omega
      rw [hlt] at hfit
      have hb : p.sz + n.toInt < 2147483648 := hfit.1
      have hu2 : uint (uint (p.sz + n.toInt) + n.toInt) = p.sz + 2 * n.toInt.toNat :=
        uint_eq 0 (by rw [hu]; push_cast; omega) (by omega)
      simp [hne, setSz, hu2, Refused, hfit.2, hb]
    · rw [hlt] at hfit
      simpa [Refused] using hfit
  · intro e hfit
    rw [hlt] at hfit
    exact hfit

/-- **Shrinking** by less than the whole size, or by more, succeeds and leaves a wrong size. -/
theorem sys_sbrk_neg (hwf : Wf L s) (hp : s.procs i = some p) (hn : n.toInt < 0) :
    wp (sys_sbrk L i p n) (fun r s' => (r = none ∧ (p.sz = 0 ∨ p.sz + n.toInt = 0)) ∨
      (r ≠ none ∧ ¬ (p.sz = 0 ∨ p.sz + n.toInt = 0) ∧
        ∃ x : Nat, s'.procs i = some ⟨p.pgdir, x⟩ ∧ (x : Int) ≠ p.sz + n.toInt)) E s := by
  have hsz := hwf.size i p hp
  have hn' := Int32.le_toInt n
  simp only [sys_sbrk, growproc, hn, not_lt_of_gt hn, if_true, if_false, wp_bind,
    wp_liftVm]
  refine wp_post (deallocuvm_spec hwf.own (rootOf_some hp) hsz (.inr fun va h1 h2 _ =>
    (hwf.page hp h2).2)) fun r vm h => ?_
  rw [h.1]
  simp only [KERNBASE] at hsz
  by_cases hneg : p.sz + n.toInt < 0
  · -- the new size wraps: nothing is freed
    have hu : uint (p.sz + n.toInt) = (p.sz + n.toInt + 2 ^ 32).toNat :=
      uint_eq (-1) (by omega) (by omega)
    have hmin : min p.sz (uint (p.sz + n.toInt)) = p.sz := by omega
    rw [hmin]
    by_cases h0 : p.sz = 0
    · simp [h0]
    · simp [h0, setSz]
      omega
  · have hu : uint (p.sz + n.toInt) = (p.sz + n.toInt).toNat := uint_eq 0 (by omega) (by omega)
    have hmin : min p.sz (uint (p.sz + n.toInt)) = (p.sz + n.toInt).toNat := by omega
    rw [hmin]
    by_cases h0 : p.sz + n.toInt = 0
    · simp [h0]
    · have hne : (p.sz + n.toInt).toNat ≠ 0 := by omega
      have hz : p.sz ≠ 0 := by omega
      have hu2 : (uint (p.sz + n.toInt + n.toInt) : Int) ≠ p.sz + n.toInt := by
        by_cases h2 : p.sz + n.toInt + n.toInt < 0
        · rw [uint_eq (n := (p.sz + n.toInt + n.toInt + 2 ^ 32).toNat) (-1) (by omega) (by omega)]
          omega
        · rw [uint_eq (n := (p.sz + n.toInt + n.toInt).toNat) 0 (by omega) (by omega)]
          omega
      have hcast : ((p.sz + n.toInt).toNat : Int) = p.sz + n.toInt := by omega
      simp [hne, h0, hz, setSz, hcast, hu2]

/-- **The law of `sbrk` holds exactly for the calls of `SbrkOk`.** -/
theorem sbrkLaw_iff (hwf : Wf L s) (hp : s.procs i = some p)
    (hg : ∀ va < p.sz, va / PGSIZE ≠ g → user (pteAt s.vm p.pgdir va) = true) :
    SbrkLaw L g s i p n ↔ SbrkOk s p n := by
  have hsz := hwf.size i p hp
  rcases lt_trichotomy n.toInt 0 with hn | hn | hn
  · obtain ⟨r, s', hrun, hr⟩ := wp_total (sys_sbrk_neg hwf hp hn)
    have hok : SbrkOk s p n ↔ p.sz = 0 ∨ p.sz + n.toInt = 0 := by
      have h0 : n ≠ 0 := by rintro rfl; simp at hn
      simp [SbrkOk, h0, hn, not_lt_of_gt hn]
    rw [hok]
    rcases hr with ⟨rfl, hr⟩ | ⟨hsome, hr, x, hx, hne⟩
    · refine ⟨fun _ => hr, fun _ addr s1 h => ?_⟩
      rw [hrun] at h; cases h
    · refine ⟨fun hlaw => ?_, fun h => absurd h hr⟩
      obtain ⟨addr, rfl⟩ := Option.ne_none_iff_exists'.1 hsome
      obtain ⟨-, sz', h1, h2, -⟩ := hlaw addr s' hrun
      rw [hx] at h1
      cases h1
      exact absurd h2 hne
  · have h0 : n = 0 := Int32.toInt_inj.1 (by simpa using hn)
    subst h0
    have hok : SbrkOk s p 0 ↔ ∀ va, PGROUNDUP p.sz ≤ va → va < 2 ^ 32 →
        ¬ (present (pteAt s.vm p.pgdir va) = true ∧ user (pteAt s.vm p.pgdir va) = true) := by
      simp [SbrkOk]
    rw [hok]
    obtain ⟨r, s', hrun, rfl, rfl⟩ := wp_total (sys_sbrk_zero (L := L) hp hsz)
    constructor
    · intro hlaw va h1 h2
      obtain ⟨-, sz', h3, -, -, h4, -⟩ := hlaw _ _ hrun
      have h5 : p.sz = sz' := congrArg Proc.sz (Option.some.inj (hp.symm.trans h3))
      exact h4 va (h5 ▸ h1) h2
    · intro habove addr s1 h
      rw [hrun] at h
      cases h
      refine ⟨rfl, p.sz, hp, by simp, fun va hva => ⟨(hwf.page hp hva).1, hg va hva⟩, habove, ?_⟩
      grind [PGROUNDUP]
  · have hok : SbrkOk s p n ↔ Refused s p n := by
      have h0 : n ≠ 0 := by rintro rfl; simp at hn
      simp [SbrkOk, h0, hn, not_lt_of_gt hn]
    rw [hok]
    have hspec := sys_sbrk_pos hwf hp hn
    constructor
    · intro hlaw
      by_contra hnot
      obtain ⟨r, s', hrun, hr⟩ := wp_total (wp_mono hspec (fun _ _ h => h) fun _ h => hnot h)
      obtain ⟨-, hr⟩ | ⟨hsome, -, hx⟩ := hr
      · exact hnot hr
      obtain ⟨addr, rfl⟩ := Option.ne_none_iff_exists'.1 hsome
      obtain ⟨-, sz', h1, h2, -⟩ := hlaw addr s' hrun
      rw [hx] at h1
      cases h1
      omega
    · intro href addr s1 h
      obtain ⟨hnone, -⟩ | ⟨-, hnot, -⟩ := wp_ok hspec h
      · cases hnone
      · exact absurd href hnot

/-! ## Runs -/

/-- The invariant with one more process. -/
theorem Wf.add (hwf : Wf L s) {j d sz : Nat}
    (h : Grows L (rootOf s.procs) s.vm (withDir (rootOf s.procs) j (some d)) vm)
    (hfill : Filled (withDir (rootOf s.procs) j (some d)) vm j sz) (hsz : sz ≤ KERNBASE) :
    Wf L ⟨vm, update s.procs j (some ⟨d, sz⟩)⟩ := by
  have hroot : rootOf (update s.procs j (some ⟨d, sz⟩)) =
      withDir (rootOf s.procs) j (some d) := by
    funext k
    by_cases hk : k = j
    · subst hk; simp [rootOf, withDir]
    · simp [rootOf, withDir, update_of_ne hk]
  have hcases : ∀ k q, update s.procs j (some ⟨d, sz⟩) k = some q →
      (k = j ∧ q = ⟨d, sz⟩) ∨ s.procs k = some q := by
    intro k q hq
    by_cases hk : k = j
    · grind
    · rw [update_of_ne hk] at hq
      exact .inr hq
  refine ⟨by simp only [hroot]; exact h.own, fun k q hq => ?_, fun k q hq => ?_⟩
  · obtain ⟨-, rfl⟩ | hq := hcases k q hq
    · exact hsz
    · exact hwf.size k q hq
  · simp only [hroot]
    obtain ⟨rfl, rfl⟩ | hq := hcases k q hq
    · exact hfill
    · exact (hwf.filled k q hq).mono h

/-- `fork` keeps the invariant and does not stop on a missing page. -/
theorem fork_spec (hwf : Wf L s) (hp : s.procs i = some p) (hE : E .remap) (hE' : E .kfree) :
    wp (fork L p) (fun _ s' => Wf L s') E s := by
  unfold fork allocproc
  simp only [wp_bind, wp_gets]
  cases hj : (List.range NPROC).find? fun i => (s.procs i).isNone with
  | none => exact hwf
  | some j =>
    have hnone : rootOf s.procs j = none := by
      have := List.find?_some hj
      simpa [rootOf] using this
    simp only [wp_bind, wp_liftVm]
    refine wp_post (kalloc_spec hwf.own) fun r vm1 h1 => ?_
    cases r with
    | none => exact hwf.grows h1.grows
    | some kstack =>
      have hwf1 : Wf L { s with vm := vm1 } := hwf.grows h1.grows
      simp only [wp_pure, wp_bind, wp_liftVm]
      refine wp_post (copyuvm_spec (c := j) hwf1.own hnone (rootOf_some hp) (hwf.size i p hp)
        (hwf1.filled i p hp) hE hE') ?_
      rintro r vm2 ⟨h2, hfill⟩
      cases r with
      | none =>
        have hwf2 : Wf L { s with vm := vm2 } := hwf1.grows h2
        simp only [wp_bind, wp_liftVm]
        refine wp_post (kfree_spec hwf2.own (h2.fresh kstack (h1.fresh kstack rfl))) ?_
        rintro _ vm3 ⟨-, -, hn, hO⟩
        exact ⟨hO, hwf.size, fun k q hq va hva => by
          obtain ⟨f, hf⟩ := hwf2.filled k q hq va hva
          exact ⟨f, (hn _ _).trans hf⟩⟩
      | some d =>
        exact hwf1.add h2 (hfill (by simp)) (hwf.size i p hp)

/-- A frame that a user page names is read by no walk. -/
theorem user_frame_leaf {root : Nat → Option Nat} {k pgdir : Nat}
    (hO : Own L root vm) (hk : root k = some pgdir) (hp : present (pteAt vm pgdir va) = true)
    (hu : PDX va < 512 ∨ user (pteAt vm pgdir va) = true) (k' : Nat) (π : List Nat)
    (hin : shape.inner k' π) : node root vm k' π ≠ some (pteFrame (pteAt vm pgdir va)) := by
  intro h
  have hv := (hO.valid _ _ _ h).2
  have hleaf : node root vm k [PTX va, PDX va] = some (pteFrame (pteAt vm pgdir va)) := by
    rw [node_pteAt hk, ownedFrame, if_pos ⟨hp, hu, hv⟩]
  have hπ := (hO.distinct _ _ _ _ _ h hleaf).2
  subst hπ
  simp [shape] at hin

/-- A memory access, with the page fault it may cause, takes no page away. -/
theorem access_spec {root : Nat → Option Nat} {k pgdir : Nat} {w : Option Nat}
    (hO : Own L root vm) (hk : root k = some pgdir) (hva : va < 2 ^ 32) (hE : ∀ e, E e) :
    wp (access pgdir va w) (fun _ vm' => Grows L root vm root vm') E vm := by
  have hdown : PGROUNDDOWN va % PGSIZE = 0 ∧ PGROUNDDOWN va < 2 ^ 32 := by
    grind [PGROUNDDOWN]
  unfold access
  refine wp_ite (fun h => ?_) fun _ => ?_
  · cases w with
    | none => exact .refl hO
    | some w => exact .of_update hO ⟨_, rfl⟩ rfl (user_frame_leaf hO hk h.1 (.inr h.2.1))
  · unfold pgflt
    refine wp_seq (kalloc_spec hO) fun r vm1 h1 => ?_
    cases r with
    | some f =>
      simp only [setFrame, wp_bind, wp_modify]
      exact wp_post (h1.map_page hk rfl rfl (by decide) hdown.1 hdown.2 fun _ => hE _)
        fun _ _ h => h.1
    | none =>
      -- the process's page 0 is zeroed, and the page is mapped to an address without memory
      simp only [zeroNull, setFrame, wp_bind, wp_gets, wp_stopIf, wp_modify]
      refine ⟨fun _ => hE _, fun h => ?_⟩
      have hp : present (pteAt vm1 pgdir 0) = true := by simpa using h
      generalize hvm2 : ({ vm1 with mem := _ } : State) = vm2
      have h2 : Grows L root vm1 root vm2 := .of_update h1.own ⟨fun _ => 0, by rw [← hvm2]⟩
        (by rw [← hvm2]) (user_frame_leaf h1.own hk hp (.inl (by decide)))
      have hbogus : ownedFrame (PDX (PGROUNDDOWN va))
          (uint (0 - KERNBASE) ||| (PTE_W ||| PTE_U) ||| PTE_P) = none := by
        have hu : uint (0 - KERNBASE) ||| (PTE_W ||| PTE_U) ||| PTE_P = 0x80000007 := by decide
        rw [hu, ownedFrame, if_neg]
        rintro ⟨-, -, h⟩
        revert h; decide
      rw [mappages_page hdown.1 hdown.2]
      refine wp_post (mappage_spec h2.own hk (by rw [hbogus]; simp) fun _ => hE _) fun _ vm3 h3 => ?_
      exact (h1.grows.trans h2).trans (h3.grows hbogus)

/-- The `sbrk` calls that ask for nothing or are refused. -/
def Careful (s : Sys) (p : Proc) : Step → Prop
  | .sbrk n => n = 0 ∨ (0 < n.toInt ∧ Refused s p n)
  | _ => True

/-- A careful step keeps the invariant. -/
theorem step_wf (hwf : Wf L s) (hp : s.procs i = some p) {st : Step} (hst : Careful s p st) :
    wp (step L i p st) (fun _ s' => Wf L s') (fun _ => True) s := by
  cases st with
  | sbrk n =>
    rcases hst with rfl | ⟨hn, href⟩
    · refine wp_seq (sys_sbrk_zero hp (hwf.size i p hp)) ?_
      rintro _ s' ⟨-, rfl⟩
      exact hwf
    · refine wp_seq (R := fun _ s' => Wf L s') ?_ fun _ _ h => h
      have hsz := hwf.size i p hp
      have hn' := Int32.toInt_lt n
      simp only [KERNBASE] at hsz
      have hu : uint (p.sz + n.toInt) = p.sz + n.toInt.toNat := uint_eq 0 (by omega) (by omega)
      have hlt : uint (p.sz + n.toInt) < KERNBASE ↔ p.sz + n.toInt < KERNBASE := by
        lia
      simp only [sys_sbrk, growproc, hn, if_true, wp_bind, wp_liftVm]
      have hres := allocuvm_result hwf.own (rootOf_some hp) p.sz (uint (p.sz + n.toInt))
        (by omega) (by omega)
      refine wp_post (wp_and (wp_mono hres (fun _ _ h => h) fun _ _ => trivial)
        (allocuvm_spec hwf.own (rootOf_some hp) fun _ => trivial)) ?_
      rintro r vm ⟨⟨-, hfit⟩ | ⟨rfl, -⟩, h⟩
      · rw [hlt] at hfit
        exact absurd hfit href
      · exact hwf.shrunk hp h (by omega)
  | fork => exact wp_seq (fork_spec hwf hp trivial trivial) fun _ _ h => h
  | access va w =>
    simp only [step, wp_liftVm]
    exact wp_post (access_spec hwf.own (rootOf_some hp) (UInt32.toNat_lt va) fun _ => trivial)
      fun _ _ h => hwf.grows h

/-- The states that careful steps of any processes reach. -/
inductive Reaches (L : Layout) (s : Sys) : Sys → Prop where
  | refl : Reaches L s s
  | step {s₁ s₂ : Sys} {i : Nat} {p : Proc} {st : Step} (h : Reaches L s s₁)
      (hp : s₁.procs i = some p) (hst : Careful s₁ p st)
      (hrun : step L i p st s₁ = .ok ((), s₂)) : Reaches L s s₂

/-- The invariant holds along every careful run. -/
theorem Reaches.wf (h : Reaches L s s') (hwf : Wf L s) : Wf L s' := by
  induction h with
  | refl => exact hwf
  | step _ hp hst hrun ih =>
    have hwf' := wp_ok (step_wf ih hp hst) hrun
    exact hwf'

end

/-- **When the law of `sbrk` holds, and what follows for `fork`.** For every process whose pages
below its size are mapped, a call keeps the law exactly if it is one of `SbrkOk`; and after any
run in which every `sbrk` asks for nothing or is refused, all processes still have their pages
and `copyuvm` does not stop on a missing one. -/
theorem sbrkLaw_iff_and_fork_safe (L : Layout) :
    (∀ (s : Sys) (i g : Nat) (p : Proc) (n : Int32), Wf L s → s.procs i = some p →
      (∀ va < p.sz, va / PGSIZE ≠ g → user (pteAt s.vm p.pgdir va) = true) →
      (SbrkLaw L g s i p n ↔ SbrkOk s p n)) ∧
    ∀ s s', Wf L s → Reaches L s s' → Wf L s' ∧ ∀ (i : Nat) (p : Proc), s'.procs i = some p →
      ∀ e, fork L p s' = .error e → e ≠ .copyuvmPteShouldExist ∧ e ≠ .copyuvmPageNotPresent := by
  refine ⟨fun s i g p n hwf hp hg => sbrkLaw_iff hwf hp hg, fun s s' hwf h => ?_⟩
  refine ⟨h.wf hwf, fun i p hp e herr => ?_⟩
  have hspec := fork_spec (E := fun e => e ≠ .copyuvmPteShouldExist ∧ e ≠ .copyuvmPageNotPresent)
    (h.wf hwf) hp (by decide) (by decide)
  have hstop := wp_error hspec herr
  exact hstop

/-! ### A process of one page -/

/-- A kernel whose data starts at frame 300 and ends below frame 400. -/
def demoLayout : Layout := ⟨300, 400, by decide, by decide, by decide⟩

/-- Memory with a page directory in frame 400, one page table in frame 401 and one user page in
frame 402. -/
def demoMem : Nat → Nat → Nat := update
  (update (fun _ _ => 0) 400 (update (fun _ => 0) 0 (401 * 4096 + 7)))
  401 (update (fun _ => 0) 0 (402 * 4096 + 7))

/-- One process whose only page is in use. -/
def demo : Sys := ⟨⟨demoMem, [403, 404]⟩, fun k => if k = 0 then some ⟨400, 100⟩ else none⟩

theorem demo_root (k f : Nat) : rootOf demo.procs k = some f ↔ k = 0 ∧ f = 400 := by
  by_cases hk : k = 0
  · simp [rootOf, demo, hk, eq_comm]
  · simp [rootOf, demo, hk]

/-- The forest of the example. -/
theorem demo_node (k : Nat) (π : List Nat) (f : Nat)
    (h : node (rootOf demo.procs) demo.vm k π = some f) :
    k = 0 ∧ ((π = [] ∧ f = 400) ∨ (π = [0] ∧ f = 401) ∨ (π = [0, 0] ∧ f = 402)) := by
  have hdir : ∀ i, demoMem 400 i = if i = 0 then 401 * 4096 + 7 else 0 := fun i => by
    by_cases hi : i = 0 <;> simp [demoMem, hi]
  have htab : ∀ j, demoMem 401 j = if j = 0 then 402 * 4096 + 7 else 0 := fun j => by
    by_cases hj : j = 0 <;> simp [demoMem, hj]
  have hone : ∀ k i f, node (rootOf demo.procs) demo.vm k [i] = some f →
      k = 0 ∧ i = 0 ∧ f = 401 := by
    intro k i f h
    obtain ⟨a, ha, he⟩ := Shape.node_parent h
    obtain ⟨rfl, rfl⟩ := (demo_root k a).1 ha
    by_cases hi : i = 0
    · subst hi
      simp [shape, demo, hdir, present, pteFrame] at he
      exact ⟨rfl, rfl, he.symm⟩
    · simp [shape, demo, hdir, hi, present] at he
  rcases π with _ | ⟨j, _ | ⟨i, _ | ⟨l, π⟩⟩⟩
  · obtain ⟨rfl, rfl⟩ := (demo_root k f).1 h
    simp
  · obtain ⟨rfl, rfl, rfl⟩ := hone k j f h
    simp
  · obtain ⟨a, ha, he⟩ := Shape.node_parent h
    obtain ⟨rfl, rfl, rfl⟩ := hone k i a ha
    by_cases hj : j = 0
    · subst hj
      simp [shape, ownedFrame, demo, htab, present, pteFrame, user] at he
      exact ⟨rfl, .inr (.inr ⟨rfl, he.2.symm⟩)⟩
    · simp [shape, ownedFrame, demo, htab, hj, present] at he
  · obtain ⟨a, ha, he⟩ := Shape.node_parent h
    cases he

theorem demo_wf : Wf demoLayout demo where
  own := by
    refine ⟨by decide, by decide, ?_, ?_, ?_⟩
    · intro k π k' π' f h h'
      obtain ⟨hk, hπ⟩ := demo_node k π f h
      obtain ⟨hk', hπ'⟩ := demo_node k' π' f h'
      refine ⟨hk.trans hk'.symm, ?_⟩
      rcases hπ with ⟨hπ, rfl⟩ | ⟨hπ, rfl⟩ | ⟨hπ, rfl⟩ <;> simpa [hπ, eq_comm] using hπ'
    · intro k π f h
      obtain ⟨-, ⟨-, rfl⟩ | ⟨-, rfl⟩ | ⟨-, rfl⟩⟩ := demo_node k π f h <;> decide
    · intro k π f h
      obtain ⟨-, ⟨-, rfl⟩ | ⟨-, rfl⟩ | ⟨-, rfl⟩⟩ := demo_node k π f h <;> decide
  size := by
    intro k p hp
    by_cases hk : k = 0
    · simp [demo, hk] at hp
      rw [← hp]
      decide
    · simp [demo, hk] at hp
  filled := by
    intro k p hp va hva
    by_cases hk : k = 0
    · subst hk
      simp [demo] at hp
      rw [← hp] at hva
      refine ⟨402, ?_⟩
      have h1 : PTX va = 0 := by grind [PTX]
      have h2 : PDX va = 0 := by grind [PDX]
      rw [h1, h2]
      decide
    · simp [demo, hk] at hp

/-- A call that should add one byte to the process adds two. -/
theorem sbrk_adds_twice : Wf demoLayout demo ∧ demo.procs 0 = some ⟨400, 100⟩ ∧
    (∃ s', sys_sbrk demoLayout 0 ⟨400, 100⟩ 1 demo = .ok (some 100, s') ∧
      s'.procs 0 = some ⟨400, 102⟩) ∧
    ¬ SbrkLaw demoLayout 1 demo 0 ⟨400, 100⟩ 1 := by
  have hrun : ∃ s', sys_sbrk demoLayout 0 ⟨400, 100⟩ 1 demo = .ok (some 100, s') ∧
      s'.procs 0 = some ⟨400, 102⟩ := ⟨_, rfl, rfl⟩
  refine ⟨demo_wf, rfl, hrun, fun hlaw => ?_⟩
  obtain ⟨s', hs', hsz⟩ := hrun
  obtain ⟨-, sz', h1, h2, -⟩ := hlaw _ _ hs'
  rw [hsz] at h1
  cases h1
  revert h2
  decide

/-- The theorem at the example: the same call breaks the law there, and `fork` is safe in it. -/
theorem sbrkLaw_demo :
    (SbrkLaw demoLayout 1 demo 0 ⟨400, 100⟩ 1 ↔ SbrkOk demo ⟨400, 100⟩ 1) ∧
    ∀ e, fork demoLayout ⟨400, 100⟩ demo = .error e →
      e ≠ .copyuvmPteShouldExist ∧ e ≠ .copyuvmPageNotPresent := by
  refine ⟨(sbrkLaw_iff_and_fork_safe demoLayout).1 demo 0 1 _ 1 demo_wf rfl ?_,
    ((sbrkLaw_iff_and_fork_safe demoLayout).2 demo demo demo_wf .refl).2 0 _ rfl⟩
  intro va hva _
  have hva' : va < 100 := hva
  have h1 : PTX va = 0 := by grind [PTX]
  have h2 : PDX va = 0 := by grind [PDX]
  rw [pteAt, h1, h2]
  decide

end Dixv6.Vm
