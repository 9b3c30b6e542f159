import Dixv6.Vm.Exec
import Dixv6.Vm.Sbrk

/-!
# Pointers from user space

The checks of `syscall.c` on addresses that a process passes to the kernel compare them with
`proc->sz`. They are sound as long as every size is below `KERNBASE` (`Small`): then none of their
sums wraps, and what they accept lies in the process's own memory (`Vouched`).

`exec` and `fork` keep sizes small. `sbrk` keeps them small exactly for the arguments of `SizeOk`,
since the size it stores has changed by `2 * n`. The main result is `pointers_in_user_memory`.
-/

namespace Dixv6.Vm

open Lib Function

/-! ## `syscall.c` -/

section
variable (mem : Bytes) (sz esp : Nat)

/-- Fetch the int at `addr`, where `mem` is what the process's addresses hold; `none` is the
source's `-1`. -/
def fetchint (addr : Nat) : Option Nat :=
  if addr ≥ sz ∨ (addr + 4) % 2 ^ 32 > sz then none else some (mem.leGet addr 4)

/-- `fetchstr`'s loop with `n` bytes left below `ep`. -/
def fetchstrFrom (pp : Nat) : Nat → Nat → Option Nat
  | 0, _ => none
  | n + 1, s => if mem s = 0 then some (s - pp) else fetchstrFrom pp n (s + 1)

/-- The length of the string at `addr`. -/
def fetchstr (addr : Nat) : Option Nat :=
  if addr ≥ sz then none else fetchstrFrom mem addr (sz - addr) addr

/-- The `n`th argument of the system call. -/
def argint (n : Int32) : Option Nat := fetchint mem sz (uint (esp + 4 + 4 * n.toInt))

/-- The `n`th argument as a pointer to `size` bytes. -/
def argptr (n size : Int32) : Option Nat :=
  match argint mem sz esp n with
  | none => none
  | some i => if i ≥ sz ∨ uint (i + size.toInt) > sz then none else some i

/-- The `n`th argument as a string: the string and its length. -/
def argstr (n : Int32) : Option (Nat × Nat) :=
  match argint mem sz esp n with
  | none => none
  | some addr => (fetchstr mem sz addr).map fun len => (addr, len)

/-- Everything that the checks accept, with the range each of them vouches for, lies below the
size and below the kernel. -/
structure Vouched : Prop where
  int : ∀ addr v, fetchint mem sz addr = some v → addr + 4 ≤ sz ∧ addr + 4 ≤ KERNBASE
  str : ∀ addr len, fetchstr mem sz addr = some len → addr + len < sz ∧ addr + len < KERNBASE
  ptr : ∀ n size a, 0 ≤ size.toInt → argptr mem sz esp n size = some a →
    a < sz ∧ a + size.toInt ≤ sz ∧ a + size.toInt ≤ KERNBASE

end

section
variable {mem : Bytes} {sz esp : Nat}

/-- The string that the loop finds ends inside what is left. -/
theorem fetchstrFrom_lt {pp : Nat} : ∀ {n s len : Nat}, pp ≤ s →
    fetchstrFrom mem pp n s = some len → pp + len < s + n
  | 0, _, _, _, h => by cases h
  | n + 1, s, len, hle, h => by
    rw [fetchstrFrom] at h
    split at h
    · cases h; omega
    · have := fetchstrFrom_lt (Nat.le_succ_of_le hle) h
      omega

/-- **The checks are sound below a small size.** -/
theorem vouched_of_small (h : sz < KERNBASE) : Vouched mem sz esp where
  int addr v hv := by
    unfold fetchint at hv
    split at hv
    · cases hv
    · lia
  str addr len hv := by
    unfold fetchstr at hv
    split at hv
    · cases hv
    · have := fetchstrFrom_lt le_rfl hv
      omega
  ptr n size a hsize hv := by
    have hlt := Int32.toInt_lt size
    unfold argptr at hv
    split at hv
    · cases hv
    · next i _ =>
      split at hv
      · cases hv
      · next hnot =>
        cases hv
        simp only [KERNBASE] at h ⊢
        have hu : uint (a + size.toInt) = a + size.toInt.toNat :=
          uint_eq 0 (by omega) (by omega)
        omega

end

/-! ## Sizes that stay small -/

/-- Every process's size is below the kernel. -/
def Small (procs : Nat → Option Proc) : Prop := ∀ k p, procs k = some p → p.sz < KERNBASE

/-- The arguments with which `sbrk` leaves a small size of a small one: the size it stores differs
by `2 * n`, unless `growproc` refuses. -/
def SizeOk (sz : Nat) (n : Int32) : Prop :=
  n = 0 ∨ (0 < n.toInt ∧ (sz + 2 * n.toInt < KERNBASE ∨ KERNBASE ≤ sz + n.toInt)) ∨
  (n.toInt < 0 ∧ (sz = 0 ∨ sz + n.toInt = 0 ∨ 0 ≤ sz + 2 * n.toInt))

section
variable {L : Layout} {s : Sys} {i : Nat} {p : Proc} {n : Int32} {procs : Nat → Option Proc}

theorem Small.set (h : Small procs) {q : Proc} (hq : q.sz < KERNBASE) :
    Small (update procs i (some q)) := by
  intro k r hr
  by_cases hk : k = i
  · grind
  · rw [update_of_ne hk] at hr
    exact h k r hr

/-- `deallocuvm` returns the smaller of the two sizes. -/
theorem deallocuvm_size {vm : State} (pgdir oldsz newsz : Nat) :
    wp (deallocuvm L pgdir oldsz newsz) (fun r _ => r = min oldsz newsz) (fun _ => True) vm := by
  unfold deallocuvm
  refine wp_ite (fun h => ?_) fun h => ?_
  · exact (Nat.min_eq_left h).symm
  · exact wp_seq wp_any fun _ _ _ => (Nat.min_eq_right (Nat.le_of_not_le h)).symm

theorem allocuvmFrom_size (pgdir oldsz newsz : Nat) : ∀ (fuel a : Nat) (vm : State),
    wp (allocuvmFrom L pgdir oldsz newsz fuel a) (fun r _ => r = 0 ∨ r = newsz)
      (fun _ => True) vm
  | 0, _, _ => trivial
  | fuel + 1, a, vm => by
    unfold allocuvmFrom
    refine wp_ite (fun _ => wp_seq wp_any fun f vm1 _ => ?_) fun _ => .inr rfl
    cases f with
    | none => exact wp_seq wp_any fun _ _ _ => .inl rfl
    | some f =>
      exact wp_seq wp_any fun _ _ _ => wp_seq wp_any fun _ _ _ =>
        allocuvmFrom_size pgdir oldsz newsz fuel _ _

/-- `allocuvm` returns 0, or the larger of the two sizes when the new one is below the kernel. -/
theorem allocuvm_size {vm : State} (pgdir oldsz newsz : Nat) : wp (allocuvm L pgdir oldsz newsz)
      (fun r _ => r = 0 ∨ (newsz < KERNBASE ∧ r = max oldsz newsz)) (fun _ => True) vm := by
  unfold allocuvm
  refine wp_ite (fun _ => .inl rfl) fun hlt => wp_ite (fun h => ?_) fun h => ?_
  · exact .inr ⟨by omega, by omega⟩
  · exact wp_post (allocuvmFrom_size ..) fun r _ hr => hr.imp_right fun e => ⟨by omega, by omega⟩

/-- The size that `growproc` stores. -/
def Grown (sz : Nat) (n : Int32) (x : Nat) : Prop :=
  (n.toInt = 0 ∧ x = sz) ∨ (0 < n.toInt ∧ x = sz + n.toInt ∧ x < KERNBASE) ∨
  (n.toInt < 0 ∧ x ≠ 0 ∧ x = min sz (uint (sz + n.toInt)))

/-- `growproc` fails without storing a size, or stores one of `Grown`. -/
theorem growproc_size (hsz : p.sz < KERNBASE) :
    wp (growproc L i p n) (fun b s' => (b = false ∧ s'.procs = s.procs) ∨
      (b = true ∧ ∃ x, s'.procs = update s.procs i (some ⟨p.pgdir, x⟩) ∧
        Grown p.sz n x)) (fun _ => True) s := by
  have hlt := Int32.toInt_lt n
  simp only [KERNBASE] at hsz
  refine wp_ite (fun hpos => ?_) fun hpos => wp_ite (fun hneg => ?_) fun hneg => ?_
  · simp only [wp_bind, wp_liftVm]
    refine wp_post (allocuvm_size ..) fun r vm hr => ?_
    refine wp_ite (fun h => .inl ⟨rfl, rfl⟩) fun h => .inr ⟨rfl, r, rfl, .inr (.inl ?_)⟩
    have hu : uint (p.sz + n.toInt) = p.sz + n.toInt.toNat := uint_eq 0 (by omega) (by omega)
    obtain hr | ⟨hk, rfl⟩ := hr
    · exact absurd hr h
    · grind
  · simp only [wp_bind, wp_liftVm]
    refine wp_post (deallocuvm_size ..) fun r vm hr => ?_
    exact wp_ite (fun h => .inl ⟨rfl, rfl⟩) fun h =>
      .inr ⟨rfl, r, rfl, .inr (.inr ⟨hneg, h, hr⟩)⟩
  · exact .inr ⟨rfl, p.sz, rfl, .inl ⟨by omega, rfl⟩⟩

/-- What the second addition makes of it. -/
theorem Grown.small_iff {sz x : Nat} (hsz : sz < KERNBASE) (h : Grown sz n x) :
    uint (x + n.toInt) < KERNBASE ↔ SizeOk sz n := by
  have hge := Int32.le_toInt n
  have h0 : n = 0 ↔ n.toInt = 0 := by rw [← Int32.toInt_inj]; simp
  rw [SizeOk, h0]
  simp only [KERNBASE] at hsz ⊢
  obtain ⟨hn, rfl⟩ | ⟨hn, hx, hk⟩ | ⟨hn, hne, rfl⟩ := h
  · have hu : uint (x + n.toInt) = x := uint_eq 0 (by omega) (by omega)
    omega
  · simp only [KERNBASE] at hk
    have hu : uint (x + n.toInt) = x + n.toInt.toNat := uint_eq 0 (by omega) (by omega)
    omega
  · by_cases hwrap : sz + n.toInt < 0
    · -- the shrunk size wraps, so that nothing is freed
      have hu : uint (sz + n.toInt) = (sz + n.toInt + 2 ^ 32).toNat :=
        uint_eq (-1) (by omega) (by omega)
      have hmin : min sz (uint (sz + n.toInt)) = sz := by omega
      rw [hmin, hu]
      omega
    · have hu : uint (sz + n.toInt) = (sz + n.toInt).toNat := uint_eq 0 (by omega) (by omega)
      have hmin : min sz (uint (sz + n.toInt)) = (sz + n.toInt).toNat := by omega
      rw [hmin] at hne ⊢
      by_cases hwrap2 : sz + 2 * n.toInt < 0
      · have hu2 : uint ((sz + n.toInt).toNat + n.toInt) = (sz + 2 * n.toInt + 2 ^ 32).toNat :=
          uint_eq (-1) (by omega) (by omega)
        rw [hu2]
        omega
      · have hu2 : uint ((sz + n.toInt).toNat + n.toInt) = (sz + 2 * n.toInt).toNat :=
          uint_eq 0 (by omega) (by omega)
        rw [hu2]
        omega

/-- **A call of `sbrk` that succeeds leaves a small size exactly for an argument of `SizeOk`.** A
call that fails stores nothing. -/
theorem sys_sbrk_size (hsz : p.sz < KERNBASE) :
    wp (sys_sbrk L i p n) (fun r s' => (r = none ∧ s'.procs = s.procs) ∨
      (r = some p.sz ∧ ∃ x, s'.procs = update s.procs i (some ⟨p.pgdir, x⟩) ∧
        (x < KERNBASE ↔ SizeOk p.sz n))) (fun _ => True) s := by
  unfold sys_sbrk
  refine wp_seq (growproc_size hsz) ?_
  rintro b s1 (⟨rfl, h⟩ | ⟨rfl, x, h, hx⟩)
  · exact .inl ⟨rfl, h⟩
  · simp only [if_true, setSz, wp_bind, wp_gets, wp_modify, wp_pure]
    exact .inr ⟨trivial, uint (x + n.toInt), by simp [h], hx.small_iff hsz⟩

/-! ## `exec` and `fork` -/

/-- Code of `exec` that keeps what is true of the process table. -/
def KeepsProcs {α : Type} (m : X α) : Prop :=
  ∀ x : Xstate, wp m (fun _ x' => x'.sys.procs = x.sys.procs) (fun _ => True) x

theorem KeepsProcs.vm {α : Type} (m : M α) : KeepsProcs (vm m) := fun _ =>
  wp_vm.2 (wp_post wp_any fun _ _ _ => rfl)

theorem KeepsProcs.bind {α β : Type} {m : X α} {f : α → X β} (hm : KeepsProcs m)
    (hf : ∀ a, KeepsProcs (f a)) : KeepsProcs (m >>= f) := fun x =>
  wp_seq (hm x) fun a x1 h1 => wp_post (hf a x1) fun _ _ h => h.trans h1

theorem KeepsProcs.pure {α : Type} (a : α) : KeepsProcs (pure a) := fun _ => rfl

theorem KeepsProcs.stop {α : Type} (e : XStop) : KeepsProcs (Comp.stop e : X α) := fun _ => trivial

theorem KeepsProcs.ite {α : Type} {c : Prop} [Decidable c] {m m' : X α} (h : KeepsProcs m)
    (h' : KeepsProcs m') : KeepsProcs (if c then m else m') := by
  split
  · exact h
  · exact h'

theorem KeepsProcs.storeBytes (f off n : Nat) (src : Bytes) : KeepsProcs (storeBytes f off n src) :=
  .ite (.pure ()) fun _ => rfl

theorem KeepsProcs.loaduvmFrom (F : File) (pgdir addr offset sz : Nat) : ∀ fuel j,
    KeepsProcs (loaduvmFrom F pgdir addr offset sz fuel j)
  | 0, _ => .stop _
  | fuel + 1, j => by
    unfold Vm.loaduvmFrom
    refine .ite (.bind (.vm _) fun r => ?_) (.pure _)
    split
    · exact .stop _
    · refine .bind (.vm _) fun pte => ?_
      dsimp only
      split
      · exact .pure _
      · exact .bind (.storeBytes _ _ _ _) fun _ =>
          .ite (loaduvmFrom F pgdir addr offset sz fuel _) (.pure _)

theorem KeepsProcs.copyoutFrom (pgdir : Nat) (b : Bytes) : ∀ fuel va buf len,
    KeepsProcs (copyoutFrom pgdir b fuel va buf len)
  | 0, _, _, _ => .stop _
  | fuel + 1, va, buf, len => by
    unfold Vm.copyoutFrom uva2ka
    refine .ite (.bind (.bind (.vm _) fun r => ?_) fun r => ?_) (.pure _)
    · split
      · exact .stop _
      · exact .bind (.vm _) fun pte => .ite (.pure _) (.ite (.pure _) (.pure _))
    · split
      · exact .pure _
      · exact .bind (.storeBytes _ _ _ _) fun _ => copyoutFrom pgdir b fuel _ _ _

theorem KeepsProcs.pushArgs (pgdir : Nat) : ∀ argv argc sp ustack,
    KeepsProcs (pushArgs pgdir argv argc sp ustack)
  | [], _, _, _ => .pure _
  | _ :: argv, argc, _, _ =>
    .ite (.pure _) (.bind (.copyoutFrom _ _ _ _ _ _) fun _ =>
      .ite (pushArgs pgdir argv (argc + 1) _ _) (.pure _))

theorem KeepsProcs.pushStack (pgdir sz : Nat) (argv : List (List UInt8)) :
    KeepsProcs (pushStack pgdir sz argv) := by
  refine .bind (.pushArgs _ _ _ _ _) fun r => ?_
  split
  · exact .pure _
  · exact .bind (.copyoutFrom _ _ _ _ _ _) fun _ => .ite (.pure _) (.pure _)

theorem KeepsProcs.clearpteu (pgdir uva : Nat) : KeepsProcs (clearpteu pgdir uva) := by
  refine .bind (.vm _) fun r => ?_
  split
  · exact .stop _
  · exact .bind (.vm _) fun _ => .vm _

theorem KeepsProcs.bad (pgdir : Option Nat) (held : Bool) : KeepsProcs (bad L pgdir held) := by
  cases pgdir with
  | none => exact .ite (.bind (fun _ => rfl) fun _ => .pure _) (.pure _)
  | some d =>
    exact .bind (.vm _) fun _ => .ite (.bind (fun _ => rfl) fun _ => .pure _) (.pure _)

/-- The sizes that the loop over the program headers passes through are small. -/
theorem loadSegments_size (F : File) (pgdir : Nat) : ∀ (n off sz : Nat) (x : Xstate),
    sz < KERNBASE → wp (loadSegments L F pgdir n off sz)
      (fun r x' => x'.sys.procs = x.sys.procs ∧ ∀ z, r = some z → z < KERNBASE) (fun _ => True) x
  | 0, _, sz, x, hsz => ⟨rfl, by rintro _ ⟨⟩; exact hsz⟩
  | n + 1, off, sz, x, hsz => by
    have hbad : ∀ x' : Xstate, x'.sys.procs = x.sys.procs →
        wp (pure none : X (Option Nat))
          (fun r x' => x'.sys.procs = x.sys.procs ∧ ∀ z, r = some z → z < KERNBASE)
          (fun _ => True) x' := fun x' h => ⟨h, by simp⟩
    unfold loadSegments
    refine wp_ite (fun _ => hbad x rfl) fun _ => ?_
    refine wp_ite (fun _ => loadSegments_size F pgdir n _ sz x hsz) fun _ => ?_
    refine wp_ite (fun _ => hbad x rfl) fun _ => ?_
    simp only [wp_bind, wp_vm]
    refine wp_post (allocuvm_size ..) fun z vm hz => ?_
    refine wp_ite (fun _ => hbad _ rfl) fun hne => ?_
    have hz' : z < KERNBASE := by omega
    have hload : KeepsProcs (loaduvm F pgdir (proghdr F off).vaddr (proghdr F off).off
        (proghdr F off).filesz) :=
      .bind (.ite (.stop _) (.pure _)) fun _ => .loaduvmFrom _ _ _ _ _ _ _
    refine wp_seq (hload _) fun b x1 h1 => ?_
    cases b with
    | false => exact hbad x1 h1
    | true =>
      exact wp_post (loadSegments_size F pgdir n _ z x1 hz') fun _ _ h => ⟨h.1.trans h1, h.2⟩

/-- **`exec` stores only small sizes.** -/
theorem exec_size {ip : Option File} {path : List UInt8} {argv : List (List UInt8)}
    {x : Xstate} (h : Small x.sys.procs) :
    wp (exec L i p ip path argv) (fun _ x' => Small x'.sys.procs) (fun _ => True) x := by
  have hbad : ∀ (d : Option Nat) (held : Bool) (x' : Xstate), x'.sys.procs = x.sys.procs →
      wp (bad L d held) (fun _ x' => Small x'.sys.procs) (fun _ => True) x' := fun d held x' h' =>
    wp_post (KeepsProcs.bad d held x') fun _ _ hb => by rw [hb, h']; exact h
  unfold exec
  cases ip with
  | none => exact h
  | some F =>
    refine wp_ite (fun _ => hbad _ _ _ rfl) fun _ => wp_ite (fun _ => hbad _ _ _ rfl) fun _ => ?_
    refine wp_seq (KeepsProcs.vm (setupkvm L) _) fun d x1 h1 => ?_
    cases d with
    | none => exact hbad _ _ _ h1
    | some d =>
      refine wp_seq (loadSegments_size F d _ _ 0 x1 (by decide)) fun z x2 h2 => ?_
      cases z with
      | none => exact hbad _ _ _ (h2.1.trans h1)
      | some z =>
        simp only [wp_bind, wp_modify, wp_vm]
        generalize hnew : uint (PGROUNDUP z + 2 * PGSIZE) = newsz
        refine wp_post (allocuvm_size ..) fun z' vm hz' => ?_
        refine wp_ite (fun _ => hbad _ _ _ (h2.1.trans h1)) fun hne => ?_
        have hlt : z' < KERNBASE := by
          have hu : newsz = PGROUNDUP z + 2 * PGSIZE := hnew.symm.trans <|
            uint_eq 0 (by push_cast; ring) (by grind [PGROUNDUP])
          omega
        refine wp_seq (KeepsProcs.clearpteu ..) fun _ x3 h3 => ?_
        refine wp_seq (KeepsProcs.pushStack ..) fun sp x4 h4 => ?_
        have h4' : x4.sys.procs = x.sys.procs := h4.trans (h3.trans (h2.1.trans h1))
        cases sp with
        | none => exact hbad _ _ _ h4'
        | some sp =>
          simp only [commit, wp_bind, wp_modify, wp_vm, wp_pure]
          refine wp_post wp_any fun _ vm _ => ?_
          rw [h4']
          exact h.set hlt

/-- `fork` gives the child the parent's size. -/
theorem fork_size (h : Small s.procs) (hp : s.procs i = some p) :
    wp (fork L p) (fun _ s' => Small s'.procs) (fun _ => True) s := by
  unfold fork allocproc
  simp only [wp_bind, wp_gets]
  cases (List.range NPROC).find? fun i => (s.procs i).isNone with
  | none => exact h
  | some j =>
    simp only [wp_bind, wp_liftVm]
    refine wp_post wp_any fun r vm1 _ => ?_
    cases r with
    | none => exact h
    | some kstack =>
      simp only [wp_pure, wp_bind, wp_liftVm]
      refine wp_post wp_any fun r vm2 _ => ?_
      cases r with
      | none => exact wp_bind _ _ |>.2 (wp_liftVm.2 (wp_post wp_any fun _ _ _ => h))
      | some d => exact h.set (h i p hp)

end

/-! ## Runs -/

/-- What a process does that can change a size, and its own accesses to memory. -/
inductive Call where
  | sbrk (n : Int32)
  | exec (ip : Option File) (path : List UInt8) (argv : List (List UInt8))
  | fork
  | access (va : UInt32) (w : Option Nat)

/-- One call by the process in slot `i`, whose contents are `p`. `x` holds what `exec` needs
beside memory and processes. -/
def Call.run (L : Layout) (i : Nat) (p : Proc) (x : Xstate) : Call → Except XStop Sys
  | .sbrk n => ((sys_sbrk L i p n x.sys).map Prod.snd).mapError .vm
  | .exec ip path argv => (Vm.exec L i p ip path argv x).map fun r => r.2.sys
  | .fork => ((Vm.fork L p x.sys).map Prod.snd).mapError .vm
  | .access va w => ((liftVm (Vm.access p.pgdir va.toNat w) x.sys).map Prod.snd).mapError .vm

/-- The calls of `sbrk` with an argument of `SizeOk`, and all other calls. -/
def Call.Ok (p : Proc) : Call → Prop
  | .sbrk n => SizeOk p.sz n
  | _ => True

/-- The states that calls of any processes reach, each of them meeting `Call.Ok`. -/
inductive Called (L : Layout) (s : Sys) : Sys → Prop where
  | refl : Called L s s
  | step {x : Xstate} {s' : Sys} {i : Nat} {p : Proc} {c : Call} (h : Called L s x.sys)
      (hp : x.sys.procs i = some p) (hok : c.Ok p) (hrun : c.run L i p x = .ok s') :
      Called L s s'

section
variable {L : Layout} {s s' : Sys} {i : Nat} {p : Proc} {x : Xstate}

/-- A call that meets the condition keeps all sizes small. -/
theorem Call.run_small {c : Call} (h : Small x.sys.procs) (hp : x.sys.procs i = some p)
    (hok : c.Ok p) (hrun : c.run L i p x = .ok s') : Small s'.procs := by
  cases c with
  | sbrk n =>
    cases hr : sys_sbrk L i p n x.sys with
    | error e => simp [Call.run, hr, Except.map, Except.mapError] at hrun
    | ok r =>
      simp only [Call.run, hr, Except.map, Except.mapError, Except.ok.injEq] at hrun
      subst hrun
      obtain ⟨-, h'⟩ | ⟨-, z, h', hz⟩ := wp_ok (sys_sbrk_size (h i p hp)) hr
      · rw [h']; exact h
      · rw [h']; exact h.set (hz.2 hok)
  | exec ip path argv =>
    cases hr : Vm.exec L i p ip path argv x with
    | error e => simp [Call.run, hr, Except.map] at hrun
    | ok r =>
      simp only [Call.run, hr, Except.map, Except.ok.injEq] at hrun
      subst hrun
      exact wp_ok (exec_size h) hr
  | fork =>
    cases hr : Vm.fork L p x.sys with
    | error e => simp [Call.run, hr, Except.map, Except.mapError] at hrun
    | ok r =>
      simp only [Call.run, hr, Except.map, Except.mapError, Except.ok.injEq] at hrun
      subst hrun
      exact wp_ok (fork_size h hp) hr
  | access va w =>
    cases hr : Vm.access p.pgdir va.toNat w x.sys.vm with
    | error e => simp [Call.run, liftVm, hr, Except.map, Except.mapError] at hrun
    | ok r => grind [Call.run, liftVm, Except.map, Except.mapError, Except.ok.injEq]

/-- All sizes stay small along a run. -/
theorem Called.small (h : Called L s s') (hs : Small s.procs) : Small s'.procs := by
  induction h with
  | refl => exact hs
  | step _ hp hok hrun ih => exact Call.run_small ih hp hok hrun

end

/-- **User pointers stay in user memory.** From any state in which all sizes are below the kernel,
after any calls of `sbrk`, `exec` and `fork` whose `sbrk` arguments meet `SizeOk`, every size is
still below the kernel, and every range that `fetchint`, `fetchstr` and `argptr` vouch for lies in
`[0, sz)`, whatever the process has in memory. Of a call of `sbrk` that succeeds, `SizeOk` says
exactly whether the size it stores is below the kernel. -/
theorem pointers_in_user_memory (L : Layout) :
    (∀ (s s' : Sys) (i : Nat) (p : Proc) (n : Int32) (addr : Nat), p.sz < KERNBASE →
      sys_sbrk L i p n s = .ok (some addr, s') →
      ((∀ q, s'.procs i = some q → q.sz < KERNBASE) ↔ SizeOk p.sz n)) ∧
    ∀ s s' : Sys, Small s.procs → Called L s s' → ∀ k p, s'.procs k = some p →
      p.sz < KERNBASE ∧ ∀ mem esp, Vouched mem p.sz esp := by
  refine ⟨fun s s' i p n addr hsz hrun => ?_, fun s s' hs h k p hp => ?_⟩
  · obtain ⟨hr, -⟩ | ⟨-, z, h', hz⟩ := wp_ok (sys_sbrk_size hsz) hrun
    · cases hr
    · rw [← hz, h']
      simp
  · have hsz : p.sz < KERNBASE := h.small hs k p hp
    exact ⟨hsz, fun mem esp => vouched_of_small hsz⟩

theorem demo_small : Small demo.procs := by
  intro k p hp
  by_cases hk : k = 0
  · simp [demo, hk] at hp
    rw [← hp]
    decide
  · simp [demo, hk] at hp

/-- The theorem at the example: the process may shrink by 50 bytes, and the checks hold before. -/
theorem pointers_in_demo :
    (∀ s', sys_sbrk demoLayout 0 ⟨400, 100⟩ (-50) demo = .ok (some 100, s') →
      ((∀ q, s'.procs 0 = some q → q.sz < KERNBASE) ↔ SizeOk 100 (-50))) ∧
    ∀ mem esp, Vouched mem 100 esp :=
  ⟨fun s' => (pointers_in_user_memory demoLayout).1 demo s' 0 ⟨400, 100⟩ (-50) 100 (by decide),
    ((pointers_in_user_memory demoLayout).2 demo demo demo_small .refl 0 ⟨400, 100⟩ rfl).2⟩

/-- Shrinking a process of 100 bytes by 101 leaves it a size of `2 ^ 32 - 1`, and the kernel's
first word passes the check. -/
theorem sbrk_opens_kernel : Small demo.procs ∧
    ∃ s', sys_sbrk demoLayout 0 ⟨400, 100⟩ (-101) demo = .ok (some 100, s') ∧
      s'.procs 0 = some ⟨400, 2 ^ 32 - 1⟩ ∧
      fetchint (fun _ => 7) (2 ^ 32 - 1) KERNBASE = some 0x07070707 :=
  ⟨demo_small, _, rfl, rfl, rfl⟩

end Dixv6.Vm
