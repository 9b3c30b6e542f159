import Dixv6.Sched.Sleep

/-!
# `exit` and `wait`

Who is whose child, and what becomes of those who exit. A slot lives many lives; `sire` names the
life that forked the one it is in, and `exits` and `reaps` keep the lives that have ended and those
a `wait` has returned. `Kin` says how these go together with `p->parent`: a process hangs under its
sire as long as that lives and under `initproc` afterwards, and a life that has ended is a `ZOMBIE`
until it is returned. `exit_reaped` draws the conclusions for `wait`.
-/

namespace Dixv6.Sched

open Procs (ProcState)

/-! ## Places -/

section
variable {n : Nat} {κ Λ : Type} {v : View n} {a : Act n Λ} {e : Effect n Λ}

/-- The slot a process in `fork` has taken, and whether its `parent` is set. -/
def Pc.claim : Pc (Fin n) Λ → Option (Fin n × Bool)
  | .fork (.release (some np)) => some (np, false)
  | .fork (.mem np) => some (np, false)
  | .fork (.ready np) => some (np, true)
  | _ => none

/-- The places of a process on its way out. -/
def Pc.dying : Pc (Fin n) Λ → Bool
  | .kern dying _ => dying
  | .sleep dying _ _ _ => dying
  | .exit _ => true
  | _ => false

/-- What an effect makes of a claim. -/
def Effect.claim (x : Option (Fin n × Bool)) : Effect n Λ → Option (Fin n × Bool)
  | .alloc np => some (np, false)
  | .adopt _ np => some (np, true)
  | .unalloc _ | .ready _ => none
  | _ => x

/-- The claim an effect needs. -/
def Effect.claims (x : Option (Fin n × Bool)) : Effect n Λ → Prop
  | .unalloc np | .adopt _ np => x = some (np, false)
  | .ready np => x = some (np, true)
  | _ => True

/-- How a statement goes with what a process has claimed, and with its end. -/
structure Pc.Kept (v : View n) (pc pc' : Pc (Fin n) Λ) (e : Effect n Λ) : Prop where
  claim : pc'.claim = e.claim pc.claim
  claims : e.claims pc.claim
  /-- `initproc` does not exit. -/
  stays : v.isInit = true → pc.dying = false → pc'.dying = false
  exits : ∀ me, e = .exit me → pc.dying = true

theorem Code.next_kept {k k' : Code (Fin n)} {dying : Bool} (h : k.next a = some (e, k')) :
    Pc.Kept v (.kern dying k) (.kern dying k') e := by
  obtain ⟨rfl, -⟩ | ⟨l, rfl, -⟩ | ⟨l, rfl, -⟩ | ⟨rfl, -⟩ | ⟨ch, rfl, -⟩ | ⟨rfl, -⟩ :=
    Code.next_spec h
  all_goals exact ⟨rfl, trivial, fun _ h => h, by simp⟩

theorem View.leave_kept {pc pc' pc0 : Pc (Fin n) Λ} (h : v.leave pc = some pc')
    (hc : pc.claim = none) (hc0 : pc0.claim = none) (hd : pc.dying = false) :
    Pc.Kept v pc0 pc' .nop := by
  unfold View.leave at h
  split at h
  · split at h
    · cases h
    case isFalse hi =>
      cases h
      exact ⟨hc0.symm, trivial, fun h => absurd h hi, by simp⟩
  · cases h
    exact ⟨hc.trans hc0.symm, trivial, fun _ _ => hd, by simp⟩

theorem Pc.next_kept {pc pc' : Pc (Fin n) Λ} (h : pc.next v a = some (e, pc')) :
    Pc.Kept v pc pc' e := by
  cases pc with
  | forkret =>
    cases h
    refine ⟨?_, trivial, fun _ _ => ?_, by simp⟩ <;> split <;> rfl
  | user =>
    simp only [Pc.next] at h
    split at h
    · obtain ⟨pc, hl, h⟩ := Option.map_eq_some_iff.1 h
      obtain ⟨rfl, rfl⟩ := Prod.mk.inj h
      exact View.leave_kept hl rfl rfl rfl
    · split at h
      · cases h
      case isFalse hi =>
        cases h
        exact ⟨rfl, trivial, fun h => absurd h hi, by simp⟩
    · cases h
  | kern dying k =>
    cases k with
    | body =>
      simp only [Pc.next] at h
      split at h
      case h_1 =>
        cases h
        exact ⟨rfl, trivial, fun _ h => h, by simp⟩
      case h_2 =>
        obtain ⟨pc, hl, h⟩ := Option.map_eq_some_iff.1 h
        obtain ⟨rfl, rfl⟩ := Prod.mk.inj h
        exact View.leave_kept hl rfl rfl rfl
      case h_6 =>
        split at h
        · cases h
        case isFalse hi =>
          cases h
          exact ⟨rfl, trivial, fun h => absurd h hi, by simp⟩
      case h_7 =>
        cases h
        exact ⟨rfl, trivial, fun _ h => h, by simp⟩
      case h_8 =>
        obtain ⟨⟨e', k'⟩, hk, h⟩ := Option.map_eq_some_iff.1 h
        obtain ⟨rfl, rfl⟩ := Prod.mk.inj h
        exact Code.next_kept hk
      all_goals
        cases h
        exact ⟨rfl, trivial, fun _ _ => rfl, by simp⟩
    | acquire ch | wakeup1 ch | release =>
      simp only [Pc.next, Option.map_eq_some_iff] at h
      obtain ⟨⟨e', k'⟩, hk, h⟩ := h
      obtain ⟨rfl, rfl⟩ := Prod.mk.inj h
      exact Code.next_kept hk
  | sleep dying ch lk l =>
    cases l <;> cases h <;> exact ⟨rfl, trivial, fun _ h => h, by simp⟩
  | kill pid l => cases l <;> cases h <;> exact ⟨rfl, trivial, fun _ _ => rfl, by simp⟩
  | fork l =>
    simp only [Pc.next, Option.some.injEq] at h
    cases l with
    | alloc =>
      simp only [ForkPc.next] at h
      split at h <;> cases h <;> exact ⟨rfl, trivial, fun _ _ => rfl, by simp⟩
    | release np => cases np <;> cases h <;> exact ⟨rfl, trivial, fun _ _ => rfl, by simp⟩
    | mem np =>
      simp only [ForkPc.next] at h
      split at h <;> cases h <;> exact ⟨rfl, rfl, fun _ _ => rfl, by simp⟩
    | acquire =>
      cases h
      exact ⟨rfl, trivial, fun _ _ => rfl, by simp⟩
    | ready np =>
      cases h
      exact ⟨rfl, rfl, fun _ _ => rfl, by simp⟩
  | exit l => cases l <;> cases h <;> exact ⟨rfl, trivial, fun _ h => h, fun _ _ => rfl⟩
  | wait l =>
    simp only [Pc.next, Option.some.injEq] at h
    cases l with
    | scan =>
      simp only [WaitPc.next] at h
      split at h
      · cases h
        exact ⟨rfl, trivial, fun _ _ => rfl, by simp⟩
      · split at h <;> cases h <;> exact ⟨rfl, trivial, fun _ _ => rfl, by simp⟩
    | acquire | release r | fall | sched | tidy =>
      cases h
      exact ⟨rfl, trivial, fun _ _ => rfl, by simp⟩

theorem Pc.iret_kept {pc pc' : Pc (Fin n) Λ} (h : pc.iret v = some pc') :
    pc'.claim = pc.claim ∧ (v.isInit = true → pc.dying = false → pc'.dying = false) := by
  unfold Pc.iret at h
  split at h
  · have : Pc.Kept v .user pc' .nop := View.leave_kept h rfl rfl rfl
    exact ⟨this.claim, this.stays⟩
  · cases h
    exact ⟨rfl, fun _ h => h⟩

/-- The code of a process with its interrupts. -/
theorem Pos.next_kept {t t' : Pos (Fin n) Λ} (h : t.next v a = some (e, t')) :
    Pc.Kept v t.pc t'.pc e := by
  unfold Pos.next at h
  repeat' split at h
  all_goals first
    | (obtain ⟨pc', hpc, h⟩ := Option.map_eq_some_iff.1 h
       obtain ⟨rfl, rfl⟩ := Prod.mk.inj h
       first
         | exact Pc.next_kept hpc
         | exact ⟨(Pc.iret_kept hpc).1, trivial, (Pc.iret_kept hpc).2, by simp⟩
         | (obtain ⟨he, -⟩ | ⟨l, he, -⟩ | ⟨l, he, -⟩ | ⟨he, -⟩ | ⟨ch, he, -⟩ | ⟨he, -⟩ :=
              Code.next_spec hpc
            all_goals
              rw [he]
              exact ⟨rfl, trivial, fun _ h => h, by simp⟩))
    | (cases h; exact ⟨rfl, trivial, fun _ h => h, by simp⟩)

/-- The claimed slot. -/
theorem Pc.child_of_claim {pc : Pc (Fin n) Λ} {q : Fin n} {b : Bool}
    (h : pc.claim = some (q, b)) : pc.child = some q := by
  unfold Pc.claim at h
  split at h <;> cases h <;> rfl

/-! ## Families -/

/-- A process between its birth and its end. -/
def alive : ProcState → Bool
  | .SLEEPING | .RUNNABLE | .RUNNING => true
  | _ => false

/-- A life that has ended. -/
def Mach.Exited (m : Mach n κ Λ) (x : Life n) : Prop := ∃ e ∈ m.exits, e.who = x

/-- The process in the slot `q` hangs under its sire, or under `initproc` if that is dead. -/
def Mach.Hangs (m : Mach n κ Λ) (q : Fin n) (x : Life n) : Prop :=
  ((m.proc q).parent = some x.1 ∧ m.life x.1 = x ∧ alive (m.proc x.1).state) ∨
    (m.proc q).parent = some m.init ∧ m.Exited x

/-- How the slots, the lives that have ended and those that were returned go together. -/
structure Kin (m : Mach n κ Λ) : Prop where
  init : alive (m.proc m.init).state
  /-- A life that has ended is not the one a slot is in, unless that is a `ZOMBIE` or free. -/
  exited : ∀ e ∈ m.exits, e.who.2 < (m.proc e.who.1).inc ∨ m.life e.who.1 = e.who ∧
    ((m.proc e.who.1).state = .ZOMBIE ∨ (m.proc e.who.1).state = .UNUSED)
  exits_nodup : (m.exits.map Exit.who).Nodup
  reaps_nodup : (m.reaps.map Reap.who).Nodup
  reaped : ∀ r ∈ m.reaps, ∃ e ∈ m.exits, e.who = r.who ∧ e.sire = r.sire
  freed : ∀ r ∈ m.reaps, r.who.2 < (m.proc r.who.1).inc ∨
    m.life r.who.1 = r.who ∧ (m.proc r.who.1).state = .UNUSED
  unreaped : ∀ e ∈ m.exits, e.who ∉ m.reaps.map Reap.who → m.life e.who.1 = e.who ∧
    (m.proc e.who.1).state = .ZOMBIE ∧ (m.proc e.who.1).sire = e.sire
  zombie : ∀ q, (m.proc q).state = .ZOMBIE → ∃ e ∈ m.exits, e.who = m.life q ∧
    e.sire = (m.proc q).sire
  orphan : ∀ q, (m.proc q).state ≠ .UNUSED → (m.proc q).sire = none →
    (m.proc q).parent = none ∧ (q = m.init ∨ (m.proc q).state = .EMBRYO)
  hangs : ∀ q x, (m.proc q).state ≠ .UNUSED → (m.proc q).sire = some x → m.Hangs q x
  self : ∀ q x, (m.proc q).sire = some x → x.1 ≠ q
  free : ∀ q, (m.proc q).state = .UNUSED → (m.proc q).parent = none
  reaper : ∀ r ∈ m.reaps, r.sire = some r.reaper ∨
    r.reaper = m.life m.init ∧ ∃ x, r.sire = some x ∧ m.Exited x

/-- A process in `fork` knows whether its slot has a sire, and `initproc` does not exit. -/
structure Claims (m : Mach n κ Λ) : Prop where
  claim : ∀ p q b, (m.proc p).pos.pc.claim = some (q, b) → ((m.proc q).sire = none ↔ b = false)
  init : (m.proc m.init).pos.pc.dying = false

variable {m m' : Mach n κ Λ} {p q me : Fin n} {x : Life n}

/-- A step that leaves families, lives and lists alone. -/
structure Calm (m m' : Mach n κ Λ) : Prop where
  init : m'.init = m.init
  exits : m'.exits = m.exits
  reaps : m'.reaps = m.reaps
  kin : ∀ q, (m'.proc q).parent = (m.proc q).parent ∧ (m'.proc q).sire = (m.proc q).sire ∧
    (m'.proc q).inc = (m.proc q).inc
  state : ∀ q, (m'.proc q).state = (m.proc q).state ∨
    alive (m.proc q).state ∧ alive (m'.proc q).state

theorem Calm.trans {m'' : Mach n κ Λ} (h : Calm m m') (h' : Calm m' m'') : Calm m m'' where
  init := h'.init.trans h.init
  exits := h'.exits.trans h.exits
  reaps := h'.reaps.trans h.reaps
  kin q := by simpa only [h'.kin q] using h.kin q
  state q := by
    rcases h.state q with hq | hq <;> rcases h'.state q with hq' | hq'
    · exact .inl (hq'.trans hq)
    · exact .inr ⟨hq ▸ hq'.1, hq'.2⟩
    · exact .inr ⟨hq.1, hq' ▸ hq.2⟩
    · exact .inr ⟨hq.1, hq'.2⟩

theorem Calm.alive (h : Calm m m') (q : Fin n) :
    alive (m'.proc q).state = alive (m.proc q).state := by
  rcases h.state q with hs | ⟨h1, h2⟩
  · rw [hs]
  · rw [h1, h2]

/-- The states no calm step leads to or from. -/
theorem Calm.dead (h : Calm m m') {s : ProcState} (hs : Sched.alive s = false) (q : Fin n) :
    (m'.proc q).state = s ↔ (m.proc q).state = s := by
  rcases h.state q with hq | ⟨h1, h2⟩
  · rw [hq]
  · grind

theorem Calm.life (h : Calm m m') (q : Fin n) : m'.life q = m.life q := by
  rw [Mach.life, Mach.life, (h.kin q).2.2]

theorem Kin.calm (hk : Kin m) (h : Calm m m') : Kin m' := by
  have hexited : ∀ x, m'.Exited x ↔ m.Exited x := fun x => by rw [Mach.Exited, h.exits, Mach.Exited]
  have hz := fun q => h.dead (s := .ZOMBIE) rfl q
  have hu := fun q => h.dead (s := .UNUSED) rfl q
  have he := fun q => h.dead (s := .EMBRYO) rfl q
  have hparent := fun q => (h.kin q).1
  have hsire := fun q => (h.kin q).2.1
  have hinc := fun q => (h.kin q).2.2
  constructor
  · rw [h.alive, h.init]
    exact hk.init
  · simpa only [h.exits, h.life, hz, hu, hinc] using hk.exited
  · simpa only [h.exits] using hk.exits_nodup
  · simpa only [h.reaps] using hk.reaps_nodup
  · simpa only [h.exits, h.reaps] using hk.reaped
  · simpa only [h.reaps, h.life, hu, hinc] using hk.freed
  · simpa only [h.exits, h.reaps, h.life, hz, hsire] using hk.unreaped
  · simpa only [h.exits, h.life, hz, hsire] using hk.zombie
  · simpa only [ne_eq, hu, he, hsire, hparent, h.init] using hk.orphan
  · simpa only [ne_eq, hu, hsire, Mach.Hangs, hparent, h.life, h.alive, h.init, hexited] using
      hk.hangs
  · simpa only [hsire] using hk.self
  · simpa only [hu, hparent] using hk.free
  · simpa only [h.reaps, h.life, h.init, hexited] using hk.reaper

/-! ## What `fork`, `exit` and `wait` do to families -/

theorem alive_ne {s : ProcState} (h : alive s) : s ≠ .UNUSED ∧ s ≠ .EMBRYO ∧ s ≠ .ZOMBIE := by
  cases s <;> simp_all [alive]

/-- A life a slot is in, and lives, has not ended. -/
theorem Kin.not_exited (hk : Kin m) (h : alive (m.proc q).state) : ¬ m.Exited (m.life q) := by
  rintro ⟨e, he, hw⟩
  have := hk.exited e he
  rw [hw] at this
  rcases this with h' | ⟨-, h' | h'⟩
  · exact absurd h' (Nat.lt_irrefl _)
  · exact (alive_ne h).2.2 h'
  · exact (alive_ne h).1 h'

/-- A change to one slot that is not alive: within its life, or the beginning of the next one. -/
structure Recast (q : Fin n) (m m' : Mach n κ Λ) : Prop where
  dead : alive (m.proc q).state = false
  init : m'.init = m.init
  exits : m'.exits = m.exits
  other : ∀ r, r ≠ q → m'.proc r = m.proc r
  inc : (m.proc q).inc < (m'.proc q).inc ∨ (m'.proc q).inc = (m.proc q).inc ∧
    ((m.proc q).state = .EMBRYO ∨ (m'.proc q).state = .UNUSED)
  notZombie : (m'.proc q).state ≠ .ZOMBIE
  old : ∀ r ∈ m.reaps, r ∈ m'.reaps
  new : ∀ r ∈ m'.reaps, r ∈ m.reaps ∨ r.who = m.life q ∧ (m'.proc q).inc = (m.proc q).inc ∧
    (m'.proc q).state = .UNUSED
  zombie : (m.proc q).state = .ZOMBIE → m.life q ∈ m'.reaps.map Reap.who
  orphan : (m'.proc q).state ≠ .UNUSED → (m'.proc q).sire = none →
    (m'.proc q).parent = none ∧ (m'.proc q).state = .EMBRYO
  hangs : ∀ x, (m'.proc q).state ≠ .UNUSED → (m'.proc q).sire = some x →
    ((m'.proc q).parent = some x.1 ∧ m.life x.1 = x ∧ alive (m.proc x.1).state) ∨
      (m'.proc q).parent = some m.init ∧ m.Exited x
  self : ∀ x, (m'.proc q).sire = some x → x.1 ≠ q
  free : (m'.proc q).state = .UNUSED → (m'.proc q).parent = none

/-- The slot that changes lets the families be. -/
theorem Kin.recast (hk : Kin m) (h : Recast q m m') (hnodup : (m'.reaps.map Reap.who).Nodup)
    (hreaped : ∀ r ∈ m'.reaps, ∃ e ∈ m.exits, e.who = r.who ∧ e.sire = r.sire)
    (hreaper : ∀ r ∈ m'.reaps, r.sire = some r.reaper ∨
      r.reaper = m.life m.init ∧ ∃ x, r.sire = some x ∧ m.Exited x) : Kin m' := by
  have hlive : ∀ r, alive (m.proc r).state → r ≠ q := by
    rintro r hr rfl
    rw [h.dead] at hr
    cases hr
  have hlife : ∀ r, r ≠ q → m'.life r = m.life r := fun r hr => by
    rw [Mach.life, Mach.life, h.other r hr]
  have hinit := hlive _ hk.init
  have hexited : ∀ x, m'.Exited x ↔ m.Exited x := fun x => by rw [Mach.Exited, h.exits, Mach.Exited]
  -- the lives of the slot that are over
  have hover : ∀ x : Life n, x.1 = q → (x.2 < (m.proc x.1).inc ∨ m.life x.1 = x ∧
      (m.proc q).state ≠ .EMBRYO) → x.2 < (m'.proc x.1).inc ∨ m'.life x.1 = x ∧
      (m'.proc x.1).state = .UNUSED := by
    rintro ⟨_, i⟩ rfl hx
    rcases h.inc with hlt | ⟨he, hs⟩
    · refine .inl (hx.elim hlt.trans' fun hx => ?_)
      rw [← (Prod.mk.inj hx.1).2]
      exact hlt
    · grind [Mach.life]
  constructor
  case init =>
    rw [h.init, h.other _ hinit]
    exact hk.init
  case exited =>
    rw [h.exits]
    intro e he
    by_cases hw : e.who.1 = q
    · refine (hover _ hw ((hk.exited e he).imp_right (And.imp_right fun hs he => ?_))).imp_right
        (And.imp_right .inr)
      rw [hw, he] at hs
      simp at hs
    · rw [h.other _ hw, hlife _ hw]
      exact hk.exited e he
  case exits_nodup => exact h.exits ▸ hk.exits_nodup
  case reaps_nodup => exact hnodup
  case reaped => exact h.exits ▸ hreaped
  case freed =>
    intro r hr
    rcases h.new r hr with hr | ⟨hr, he, hs⟩
    · by_cases hw : r.who.1 = q
      · refine hover _ hw ((hk.freed r hr).imp_right (And.imp_right fun hs he => ?_))
        rw [hw, he] at hs
        cases hs
      · rw [h.other _ hw, hlife _ hw]
        exact hk.freed r hr
    · rw [hr]
      exact .inr ⟨by rw [Mach.life, Mach.life, he], hs⟩
  case unreaped =>
    rw [h.exits]
    intro e he hr
    obtain ⟨h1, h2, h3⟩ := hk.unreaped e he fun hin => hr (by
      obtain ⟨r, hr, hw⟩ := List.mem_map.1 hin
      exact List.mem_map.2 ⟨r, h.old r hr, hw⟩)
    have hw : e.who.1 ≠ q := fun hw => hr (h1 ▸ hw ▸ h.zombie (hw ▸ h2))
    rw [h.other _ hw, hlife _ hw]
    exact ⟨h1, h2, h3⟩
  case zombie =>
    intro r hr
    have hrq : r ≠ q := fun hrq => h.notZombie (hrq ▸ hr)
    rw [h.other _ hrq] at hr ⊢
    rw [hlife _ hrq, h.exits]
    exact hk.zombie r hr
  case orphan =>
    intro r hr hs
    by_cases hrq : r = q
    · rw [hrq] at hr hs ⊢
      exact (h.orphan hr hs).imp_right .inr
    · rw [h.other _ hrq] at hr hs ⊢
      rw [h.init]
      exact hk.orphan r hr hs
  case hangs =>
    intro r x hr hs
    have key : ((m'.proc r).parent = some x.1 ∧ m.life x.1 = x ∧ alive (m.proc x.1).state) ∨
        (m'.proc r).parent = some m.init ∧ m.Exited x := by
      by_cases hrq : r = q
      · rw [hrq] at hr hs ⊢
        exact h.hangs x hr hs
      · rw [h.other _ hrq] at hr hs ⊢
        exact hk.hangs r x hr hs
    rcases key with ⟨h1, h2, h3⟩ | ⟨h1, h2⟩
    · have hx := hlive _ h3
      exact .inl ⟨h1, by rw [hlife _ hx, h2], by rw [h.other _ hx, h3]⟩
    · exact .inr ⟨h.init ▸ h1, (hexited x).2 h2⟩
  case self =>
    intro r x hs
    by_cases hrq : r = q
    · exact hrq ▸ h.self x (hrq ▸ hs)
    · exact hk.self r x (h.other _ hrq ▸ hs)
  case free =>
    intro r hr
    by_cases hrq : r = q
    · rw [hrq] at hr ⊢
      exact h.free hr
    · rw [h.other _ hrq] at hr ⊢
      exact hk.free r hr
  case reaper =>
    rw [h.init, hlife _ hinit]
    simpa only [hexited] using hreaper

/-- **`allocproc`** begins a life. -/
theorem Kin.alloc (hk : Kin m) (hq : (m.proc q).state = .UNUSED) : Kin (m.alloc q) := by
  have hself : (m.alloc q).proc q = { m.proc q with
      state := .EMBRYO, pid := m.nextpid, pos := ⟨.forkret, none⟩, inc := (m.proc q).inc + 1,
      sire := none } := by simp [Mach.alloc]
  refine hk.recast (q := q) ⟨by rw [hq]; rfl, rfl, rfl, fun r hr => by simp [Mach.alloc, hr], ?_, ?_,
    fun _ hr => hr, fun _ hr => .inl hr, by simp [hq], fun _ _ => ?_, ?_, ?_, ?_⟩ hk.reaps_nodup
    hk.reaped hk.reaper <;> rw [hself]
  · exact .inl (Nat.lt_succ_self _)
  · simp
  · exact ⟨hk.free q hq, rfl⟩
  · simp
  · simp
  · simp

/-- A change to a slot `allocproc` has taken, within its life. -/
theorem Kin.embryo {f : Proc n Λ → Proc n Λ} (hk : Kin m) (hq : (m.proc q).state = .EMBRYO)
    (hinc : (f (m.proc q)).inc = (m.proc q).inc) (hz : (f (m.proc q)).state ≠ .ZOMBIE)
    (horphan : (f (m.proc q)).state ≠ .UNUSED → (f (m.proc q)).sire = none →
      (f (m.proc q)).parent = none ∧ (f (m.proc q)).state = .EMBRYO)
    (hhangs : ∀ x, (f (m.proc q)).state ≠ .UNUSED → (f (m.proc q)).sire = some x →
      ((f (m.proc q)).parent = some x.1 ∧ m.life x.1 = x ∧ alive (m.proc x.1).state) ∨
        (f (m.proc q)).parent = some m.init ∧ m.Exited x)
    (hsire : ∀ x, (f (m.proc q)).sire = some x → x.1 ≠ q)
    (hfree : (f (m.proc q)).state = .UNUSED → (f (m.proc q)).parent = none) :
    Kin (m.setProc q f) := by
  have hself : (m.setProc q f).proc q = f (m.proc q) := if_pos rfl
  exact hk.recast (q := q) ⟨by rw [hq]; rfl, rfl, rfl, fun r hr => if_neg hr,
    by rw [hself]; exact .inr ⟨hinc, .inl hq⟩, by rwa [hself], fun _ hr => hr, fun _ hr => .inl hr,
    by simp [hq], by rwa [hself], by rwa [hself], by rwa [hself], by rwa [hself]⟩ hk.reaps_nodup
    hk.reaped hk.reaper

/-- **`fork` gives a slot back** that has no parent yet. -/
theorem Kin.unalloc (hk : Kin m) (hq : (m.proc q).state = .EMBRYO)
    (hs : (m.proc q).sire = none) : Kin (m.setProc q (Proc.setState .UNUSED)) := by
  refine hk.embryo hq rfl (by simp [Proc.setState]) (by simp [Proc.setState])
    (by simp [Proc.setState]) (hk.self q) fun _ => ?_
  exact (hk.orphan q (by simp [hq]) hs).1

/-- **`np->parent = proc`** -/
theorem Kin.adopt (hk : Kin m) (hq : (m.proc q).state = .EMBRYO) (hme : alive (m.proc me).state) :
    Kin (m.setProc q fun p => { p with parent := some me, sire := some (m.life me) }) := by
  refine hk.embryo hq rfl (by simp [hq]) (by simp) ?_ ?_ (by simp [hq])
  · rintro x - hx
    obtain rfl := Option.some.inj hx
    exact .inl ⟨rfl, rfl, hme⟩
  · rintro x hx rfl
    obtain rfl := Option.some.inj hx
    exact (alive_ne hme).2.1 hq

/-- **`np->state = RUNNABLE`** -/
theorem Kin.ready (hk : Kin m) (hq : (m.proc q).state = .EMBRYO)
    (hs : (m.proc q).sire ≠ none) : Kin (m.setProc q (Proc.setState .RUNNABLE)) := by
  refine hk.embryo hq rfl (by simp [Proc.setState]) (fun _ h => absurd h hs) (fun x _ hx => ?_)
    (hk.self q) (by simp [Proc.setState])
  exact hk.hangs q x (by simp [hq]) hx

/-- **`exit`** ends a life, and passes the children on to `initproc`. -/
theorem Kin.exit (hk : Kin m) (hme : alive (m.proc me).state) (hne : me ≠ m.init) :
    Kin (m.exit me) := by
  rw [Mach.exit_eq]
  have hwake : ∀ r, r ≠ me → m.exitState me r = (m.proc r).state ∨
      alive (m.proc r).state ∧ alive (m.exitState me r) := by
    intro r hr
    rcases m.exitState_cases hr with h | ⟨h1, h2⟩
    · exact .inl h
    · exact .inr ⟨by rw [h1]; rfl, by rw [h2]; rfl⟩
  have hself : m.exitState me me = .ZOMBIE := if_pos rfl
  have halive : ∀ r, r ≠ me → alive (m.exitState me r) = alive (m.proc r).state := by
    intro r hr
    rcases hwake r hr with h | ⟨h1, h2⟩
    · rw [h]
    · rw [h1, h2]
  -- a slot that was dead stays as it was, and is not the one that dies now
  have hdead : ∀ r, alive (m.proc r).state = false → r ≠ me ∧
      m.exitState me r = (m.proc r).state := by
    intro r hr
    have hrm : r ≠ me := by
      rintro rfl
      rw [hr] at hme
      cases hme
    rcases hwake r hrm with h | ⟨h1, -⟩
    · exact ⟨hrm, h⟩
    · rw [hr] at h1
      cases h1
  have hu : ∀ r, m.exitState me r = .UNUSED → (m.proc r).state = .UNUSED := by
    intro r hr
    by_cases hrm : r = me
    · rw [hrm, hself] at hr
      cases hr
    · rcases hwake r hrm with h | ⟨-, h2⟩
      · rw [← h, hr]
      · rw [hr] at h2
        cases h2
  constructor
  case init =>
    rw [halive _ (Ne.symm hne)]
    exact hk.init
  case exited =>
    intro e he
    rcases List.mem_cons.1 he with rfl | he
    · exact .inr ⟨rfl, .inl hself⟩
    · rcases hk.exited e he with h | ⟨h, hs⟩
      · exact .inl h
      · have := hdead e.who.1 (by rcases hs with hs | hs <;> rw [hs] <;> rfl)
        refine .inr ⟨h, ?_⟩
        change m.exitState me e.who.1 = _ ∨ m.exitState me e.who.1 = _
        rwa [this.2]
  case exits_nodup =>
    refine List.nodup_cons.2 ⟨fun h => ?_, hk.exits_nodup⟩
    obtain ⟨e, he, hw⟩ := List.mem_map.1 h
    exact hk.not_exited hme ⟨e, he, hw⟩
  case reaps_nodup => exact hk.reaps_nodup
  case reaped =>
    intro r hr
    obtain ⟨e, he, h⟩ := hk.reaped r hr
    exact ⟨e, List.mem_cons_of_mem _ he, h⟩
  case freed =>
    intro r hr
    rcases hk.freed r hr with h | ⟨h, hs⟩
    · exact .inl h
    · have := hdead r.who.1 (by rw [hs]; rfl)
      exact .inr ⟨h, this.2.trans hs⟩
  case unreaped =>
    intro e he hr
    rcases List.mem_cons.1 he with rfl | he
    · exact ⟨rfl, hself, rfl⟩
    · obtain ⟨h1, h2, h3⟩ := hk.unreaped e he hr
      have := hdead e.who.1 (by rw [h2]; rfl)
      exact ⟨h1, this.2.trans h2, h3⟩
  case zombie =>
    intro r hr
    by_cases hrm : r = me
    · subst hrm
      exact ⟨_, List.mem_cons_self, rfl, rfl⟩
    · have hz : (m.proc r).state = .ZOMBIE := by
        rcases hwake r hrm with h | ⟨-, h2⟩
        · exact h ▸ hr
        · change m.exitState me r = .ZOMBIE at hr
          rw [hr] at h2
          cases h2
      obtain ⟨e, he, h⟩ := hk.zombie r hz
      exact ⟨e, List.mem_cons_of_mem _ he, h⟩
  case orphan =>
    intro r hr hs
    have hr' : (m.proc r).state ≠ .UNUSED := fun h =>
      hr ((hdead r (by rw [h]; rfl)).2.trans h)
    obtain ⟨h1, h2⟩ := hk.orphan r hr' hs
    refine ⟨by dsimp only; rw [h1, if_neg (by simp)], h2.imp_right fun h => ?_⟩
    exact (hdead r (by rw [h]; rfl)).2.trans h
  case hangs =>
    intro r x hr hs
    have hr' : (m.proc r).state ≠ .UNUSED := fun h =>
      hr ((hdead r (by rw [h]; rfl)).2.trans h)
    rcases hk.hangs r x hr' hs with ⟨h1, h2, h3⟩ | ⟨h1, e, he, hw⟩
    · by_cases hx : x.1 = me
      · exact .inr ⟨if_pos (by rw [h1, hx]), _, List.mem_cons_self, by rw [← h2, hx]⟩
      · refine .inl ⟨(if_neg ?_).trans h1, h2, (halive _ hx).trans h3⟩
        rw [h1]
        simpa using hx
    · refine .inr ⟨(if_neg ?_).trans h1, e, List.mem_cons_of_mem _ he, hw⟩
      rw [h1]
      simpa using Ne.symm hne
  case self => exact hk.self
  case free =>
    intro r hr
    have := hk.free r (hu r hr)
    dsimp only
    rw [this, if_neg (by simp)]
  case reaper =>
    intro r hr
    refine (hk.reaper r hr).imp_right ?_
    rintro ⟨h1, x, h2, e, he, hw⟩
    exact ⟨h1, x, h2, e, List.mem_cons_of_mem _ he, hw⟩

/-- **`wait` frees a slot.** -/
theorem Kin.reap (hk : Kin m) (hq : (m.proc q).state = .ZOMBIE)
    (hp : (m.proc q).parent = some me) : Kin (m.reap me q) := by
  have hself : (m.reap me q).proc q = { m.proc q with
      state := .UNUSED, pid := 0, parent := none, killed := false } := by simp [Mach.reap]
  have hdead : alive (m.proc q).state = false := by rw [hq]; rfl
  refine hk.recast (q := q) ⟨hdead, rfl, rfl, fun r hr => by simp [Mach.reap, hr],
    by rw [hself]; exact .inr ⟨rfl, .inr rfl⟩, by simp [hself], fun _ => List.mem_cons_of_mem _,
    fun r hr => (List.mem_cons.1 hr).symm.imp_right ?_, fun _ => List.mem_cons_self,
    by simp [hself], by simp [hself], fun x hx => hk.self q x (by rwa [hself] at hx),
    by simp [hself]⟩ (List.nodup_cons.2 ⟨fun h => ?_, hk.reaps_nodup⟩) ?_ ?_
  · rintro rfl
    rw [hself]
    exact ⟨rfl, rfl, rfl⟩
  · obtain ⟨r, hr, hw⟩ := List.mem_map.1 h
    have hfreed := hk.freed r hr
    rw [hw] at hfreed
    rcases hfreed with h | ⟨-, h⟩
    · exact absurd h (Nat.lt_irrefl _)
    · change (m.proc q).state = _ at h
      rw [hq] at h
      cases h
  · exact List.forall_mem_cons.2 ⟨hk.zombie q hq, hk.reaped⟩
  · refine List.forall_mem_cons.2 ⟨?_, hk.reaper⟩
    -- the dead child has a sire, and hangs under it or under `initproc`
    cases hs : (m.proc q).sire with
    | none =>
      rcases (hk.orphan q (by simp [hq]) hs).2 with h | h
      · have hlive := hk.init
        rw [← h, hdead] at hlive
        cases hlive
      · rw [hq] at h
        cases h
    | some x =>
      rcases hk.hangs q x (by simp [hq]) hs with ⟨h1, h2, -⟩ | ⟨h1, h2⟩
      · grind
      · grind

end

/-! ## Every step -/

section
variable {n : Nat} {κ Λ : Type} [DecidableEq κ] [DecidableEq Λ] {m m' : Mach n κ Λ} {c d : κ}
  {p q me : Fin n} {e : Effect n Λ} {a : Act n Λ} {t : Pos (Fin n) Λ}

/-- An effect that leaves families alone. -/
def Effect.calm : Effect n Λ → Bool
  | .alloc _ | .unalloc _ | .adopt _ _ | .ready _ | .exit _ | .reap _ _ => false
  | _ => true

omit [DecidableEq κ] [DecidableEq Λ] in
theorem Calm.goto (m : Mach n κ Λ) (p : Fin n) (t : Pos (Fin n) Λ) : Calm m (m.goto p t) :=
  ⟨rfl, rfl, rfl, fun q => by simp, fun q => .inl (by simp)⟩

/-- A statement that leaves families alone, of a process that lives. -/
theorem Mach.apply_calm (ha : m.apply c e = some m') (he : e.calm)
    (hown : ∀ q, e = .giveup q ∨ (∃ ch, e = .fall q ch) ∨ e = .run q → alive (m.proc q).state) :
    Calm m m' := by
  have hset : ∀ {i : Fin n} {f : Proc n Λ → Proc n Λ},
      ((f (m.proc i)).parent = (m.proc i).parent ∧ (f (m.proc i)).sire = (m.proc i).sire ∧
        (f (m.proc i)).inc = (m.proc i).inc) →
      ((f (m.proc i)).state = (m.proc i).state ∨
        alive (m.proc i).state ∧ alive (f (m.proc i)).state) → Calm m (m.setProc i f) := by
    intro i f h1 h2
    refine ⟨rfl, rfl, rfl, fun q => ?_, fun q => ?_⟩
    · grind [Mach.setProc_proc]
    · grind [Mach.setProc_proc]
  cases e with
  | nop =>
    cases ha
    exact ⟨rfl, rfl, rfl, fun _ => ⟨rfl, rfl, rfl⟩, fun _ => .inl rfl⟩
  | enabled | lock | unlock | lockOther | unlockOther =>
    simp only [Mach.apply] at ha
    split at ha <;> cases ha
    exact ⟨rfl, rfl, rfl, fun _ => ⟨rfl, rfl, rfl⟩, fun _ => .inl rfl⟩
  | setproc | load | enter | unload | clear =>
    cases ha
    exact ⟨rfl, rfl, rfl, fun _ => ⟨rfl, rfl, rfl⟩, fun _ => .inl rfl⟩
  | sched me =>
    obtain ⟨i, -, -, -, -, rfl⟩ := Mach.apply_sched ha
    exact ⟨rfl, rfl, rfl, fun _ => ⟨rfl, rfl, rfl⟩, fun _ => .inl rfl⟩
  | wakeup1 ch =>
    cases ha
    refine ⟨rfl, rfl, rfl, fun q => ?_, fun q => ?_⟩
    · simp [Mach.wakeup1, Proc.wake_state]
    · rcases Proc.wake_cases (m.proc q) (some ch) with h | ⟨h1, h2⟩
      · exact .inl h
      · exact .inr ⟨by rw [h1]; rfl, by simp only [Mach.wakeup1, h2]; rfl⟩
  | kill pid =>
    cases ha
    rcases m.kill_cases pid with h | ⟨i, -, h⟩
    · rw [h]
      exact ⟨rfl, rfl, rfl, fun _ => ⟨rfl, rfl, rfl⟩, fun _ => .inl rfl⟩
    · rw [h]
      refine hset ⟨rfl, rfl, rfl⟩ ?_
      by_cases hs : (m.proc i).state = .SLEEPING <;> simp [Proc.kill, hs, alive]
  | tidy me | fault me =>
    cases ha
    exact hset ⟨rfl, rfl, rfl⟩ (.inl rfl)
  | fall me ch =>
    cases ha
    exact hset ⟨rfl, rfl, rfl⟩ (.inr ⟨hown me (.inr (.inl ⟨ch, rfl⟩)), rfl⟩)
  | giveup me =>
    cases ha
    exact hset ⟨rfl, rfl, rfl⟩ (.inr ⟨hown me (.inl rfl), rfl⟩)
  | run i =>
    cases ha
    exact hset ⟨rfl, rfl, rfl⟩ (.inr ⟨hown i (.inr (.inr rfl)), rfl⟩)
  | _ => cases he

omit [DecidableEq κ] [DecidableEq Λ] in
/-- `initproc` does not exit. -/
theorem Claims.not_init {v : View n} {t : Pos (Fin n) Λ} (hcl : Claims m)
    (h : Pc.Kept v (m.proc me).pos.pc t.pc (.exit me)) : me ≠ m.init := by
  rintro rfl
  have hd := h.exits m.init rfl
  rw [hcl.init] at hd
  cases hd

/-- **A step leaves the families alone**, or it is a statement of a process that does not. -/
theorem Mach.step_calm (h : Inv m) (hs : m.step (c, a) = some m') : Calm m m' ∨
    ∃ p e t, (m.cpu c).spc = .ran p ∧ (m.proc p).pos.next (m.view p) a = some (e, t) ∧
      (m.goto p t).apply c e = some m' ∧ m.effect (c, a) = some e ∧ ¬ e.calm := by
  rcases Mach.step_cases h.cpu hs with ⟨p, e, t, hp, hn, ha, he⟩ | ⟨e, x, -, hn, ha, -⟩
  · by_cases hcalm : e.calm
    swap
    · exact .inr ⟨p, e, t, hp, hn, ha, he, hcalm⟩
    have hspec := Pos.next_spec (h.ok p) hn
    have hran := h.ran c p hp
    refine .inl ((Calm.goto m p t).trans (Mach.apply_calm ha hcalm ?_))
    rintro q (rfl | ⟨ch, rfl⟩ | rfl)
    · obtain ⟨rfl, hw, -⟩ := hspec
      rw [Mach.goto_state, hran, hw.due]
      rfl
    · obtain ⟨rfl, hw, -⟩ := hspec
      rw [Mach.goto_state, hran, hw.due]
      rfl
    · exact hspec.elim
  · have hg : Calm m (m.gotoSched c x) :=
      ⟨rfl, rfl, rfl, fun _ => ⟨rfl, rfl, rfl⟩, fun _ => .inl rfl⟩
    refine .inl (hg.trans ?_)
    rcases SPc.next_cases hn with he | ⟨ch, -, -, rfl⟩ | ⟨i, hi, rfl⟩
    · refine Mach.apply_calm ha ?_ ?_
      · cases e <;> first | rfl | cases he
      · rintro q (rfl | ⟨ch, rfl⟩ | rfl) <;> cases he
    · exact Mach.apply_calm ha rfl (by simp)
    · refine Mach.apply_calm ha rfl ?_
      rintro q (hq | ⟨ch, hq⟩ | hq)
      · cases hq
      · cases hq
      · obtain rfl : i = q := by simpa using hq
        change alive (m.proc i).state = true
        rw [h.chosen c i (by rw [hi]; rfl)]
        rfl

/-- **Every step keeps the families.** -/
theorem Kin.step (h : Inv m) (hk : Kin m) (hcl : Claims m) (hs : m.step (c, a) = some m') :
    Kin m' := by
  rcases Mach.step_calm h hs with hcalm | ⟨p, e, t, hp, hn, ha, -, hcalm⟩
  · exact hk.calm hcalm
  have hspec := Pos.next_spec (h.ok p) hn
  have hkept := Pos.next_kept hn
  have hran := h.ran c p hp
  have hg : Kin (m.goto p t) := hk.calm (.goto m p t)
  cases e with
  | alloc np =>
    cases ha
    refine hg.alloc ?_
    simpa using List.find?_some hspec.1
  | unalloc np =>
    cases ha
    refine hg.unalloc ?_ ?_
    · simpa using h.child p np hspec.2.1
    · simpa using (hcl.claim p np false hkept.claims).2 rfl
  | adopt me np =>
    cases ha
    obtain ⟨rfl, hst, hch, -⟩ := hspec
    refine hg.adopt ?_ ?_
    · simpa using h.child _ np hch
    · rw [Mach.goto_state, hran, hst.due]
      rfl
  | ready np =>
    cases ha
    refine hg.ready ?_ ?_
    · simpa using h.child p np hspec.2.1
    · simpa using (hcl.claim p np true hkept.claims).not.2 (by simp)
  | exit me =>
    cases ha
    obtain ⟨rfl, hw, -⟩ := hspec
    refine hg.exit ?_ ?_
    · rw [Mach.goto_state, hran, hw.due]
      rfl
    · exact hcl.not_init hkept
  | reap me q =>
    cases ha
    obtain ⟨rfl, hz, -⟩ := hspec
    have hz' := List.find?_some hz
    simp only [decide_eq_true_eq] at hz'
    refine hg.reap ?_ ?_
    · simpa using hz'.2
    · simpa using hz'.1
  | _ => exact absurd rfl hcalm

/-- `initproc` is set once. -/
theorem Mach.apply_init (ha : m.apply c e = some m') : m'.init = m.init := by
  cases e with
  | kill pid =>
    cases ha
    unfold Mach.kill
    split <;> rfl
  | exit me =>
    cases ha
    rw [Mach.exit_eq]
  | sched me =>
    obtain ⟨i, -, -, -, -, rfl⟩ := Mach.apply_sched ha
    rfl
  | enabled | lock | unlock | lockOther | unlockOther =>
    simp only [Mach.apply] at ha
    split at ha <;> cases ha
    rfl
  | _ =>
    cases ha
    rfl

/-- **Every step keeps the claims.** -/
theorem Claims.step (h : Inv m) (hk : Kin m) (hcl : Claims m) (hs : m.step (c, a) = some m') :
    Claims m' := by
  rcases Mach.step_cases h.cpu hs with ⟨p, e, t, hp, hn, ha, -⟩ | ⟨e, x, -, hn, ha, -⟩
  · have hspec := Pos.next_spec (h.ok p) hn
    have hkept := Pos.next_kept hn
    have hpos := h.pos_own hp hn ha
    have hinit : m'.init = m.init := Mach.apply_init (m := m.goto p t) ha
    -- the place of another process is as it was, or that of a new one
    have hother : ∀ r, r ≠ p → (m'.proc r).pos = (m.proc r).pos ∨
        (m.proc r).state = .UNUSED ∧ (m'.proc r).pos = ⟨.forkret, none⟩ := by
      intro r hr
      by_cases he : e = .alloc r
      · subst he
        cases ha
        exact .inr ⟨by simpa using List.find?_some hspec.1, by simp [Mach.alloc]⟩
      · exact .inl (by rw [(Mach.apply_slot ha he).1, Mach.goto_other hr])
    constructor
    · intro r q b hr
      by_cases hrp : r = p
      · rw [hrp, hpos, hkept.claim] at hr
        cases e with
        | alloc np =>
          cases ha
          cases hr
          simp [Mach.alloc]
        | adopt me np =>
          cases ha
          cases hr
          simp
        | unalloc np | ready np => cases hr
        | _ =>
          rw [(Mach.apply_slot ha (by simp)).2.1 (by simp), Mach.goto_sire]
          exact hcl.claim p q b hr
      · rcases hother r hrp with hr' | ⟨-, hr'⟩
        · rw [hr'] at hr
          have hchild := Pc.child_of_claim hr
          rw [(Mach.apply_slot ha ?_).2.1, Mach.goto_sire]
          · exact hcl.claim r q b hr
          · rintro me rfl
            exact hrp (h.only r p q hchild hspec.2.2.1)
          · rintro rfl
            have hu : (m.proc q).state = .UNUSED := by simpa using List.find?_some hspec.1
            rw [h.child r q hchild] at hu
            cases hu
        · rw [hr'] at hr
          cases hr
    · rw [hinit]
      by_cases hip : m.init = p
      · rw [hip, hpos]
        refine hkept.stays ?_ (hip ▸ hcl.init)
        simp [Mach.view, hip]
      · rcases hother m.init hip with hr | ⟨hu, -⟩
        · rw [hr]
          exact hcl.init
        · exact absurd hu (alive_ne hk.init).1
  · have hsame : ∀ r, (m'.proc r).pos = (m.proc r).pos ∧ (m'.proc r).sire = (m.proc r).sire := by
      intro r
      have h1 : e ≠ .alloc r := by
        rintro rfl
        rcases SPc.next_cases hn with he | ⟨ch, -, -, he⟩ | ⟨i, -, he⟩ <;> cases he
      have h2 : ∀ me, e ≠ .adopt me r := by
        rintro me rfl
        rcases SPc.next_cases hn with he | ⟨ch, -, -, he⟩ | ⟨i, -, he⟩ <;> cases he
      have hslot := Mach.apply_slot (m := m.gotoSched c x) ha h1
      exact ⟨hslot.1, hslot.2.1 h2⟩
    have hinit : m'.init = m.init := Mach.apply_init (m := m.gotoSched c x) ha
    constructor
    · intro r q b hr
      rw [(hsame r).1] at hr
      rw [(hsame q).2]
      exact hcl.claim r q b hr
    · rw [hinit, (hsame _).1]
      exact hcl.init

/-! ## Who sleeps in `wait` -/

/-- A process that sleeps in `wait`, or is about to, has no dead child. -/
def Mach.Waits (m : Mach n κ Λ) : Prop :=
  ∀ p, m.Fallen p (.proc p) none → ∀ q, (m.proc q).parent = some p → (m.proc q).state ≠ .ZOMBIE

omit [DecidableEq Λ] in
theorem Mach.Fallen.state {ch : Chan (Fin n)} {lk : Option Λ} (h : Inv m)
    (hf : m.Fallen p ch lk) : (m.proc p).state = .RUNNING ∨ (m.proc p).state = .SLEEPING := by
  rcases hf with ⟨d, hp, hl⟩ | ⟨hs, -⟩
  · rw [h.ran d p hp]
    rcases hl with hl | hl <;> simp [hl.due]
  · exact .inr hs

omit [DecidableEq κ] [DecidableEq Λ] in
/-- The statements that lead to a place of `wait` after its beginning. -/
theorem Pc.next_wait {v : View n} {pc : Pc (Fin n) Λ} {l : WaitPc} (hl : l ≠ .acquire)
    (h : pc.next v a = some (e, .wait l)) : ∃ l0 : WaitPc, pc = .wait l0 ∧
      l0.next v = (e, .wait l) := by
  cases pc with
  | wait l0 => exact ⟨l0, rfl, Option.some.inj h⟩
  | forkret =>
    simp only [Pc.next, Option.some.injEq, Prod.mk.injEq] at h
    split at h <;> simp at h
  | user =>
    simp only [Pc.next] at h
    split at h
    · obtain ⟨pc, hl', h⟩ := Option.map_eq_some_iff.1 h
      obtain ⟨-, rfl⟩ := Prod.mk.inj h
      rcases View.leave_eq hl' with h | h <;> cases h
    · split at h <;> cases h
    · cases h
  | kern dying k =>
    have hcode : ∀ {x : Option (Effect n Λ × Code (Fin n))},
        (x.map fun r => (r.1, (Pc.kern dying r.2 : Pc (Fin n) Λ))) = some (e, .wait l) → False := by
      intro x hx
      obtain ⟨r, -, hr⟩ := Option.map_eq_some_iff.1 hx
      cases (Prod.mk.inj hr).2
    cases k with
    | body =>
      simp only [Pc.next] at h
      split at h
      case h_2 =>
        obtain ⟨pc, hl', h⟩ := Option.map_eq_some_iff.1 h
        obtain ⟨-, rfl⟩ := Prod.mk.inj h
        rcases View.leave_eq hl' with h | h <;> cases h
      case h_5 =>
        cases h
        exact absurd rfl hl
      case h_6 => split at h <;> cases h
      case h_8 => exact (hcode h).elim
      all_goals cases h
    | acquire ch | wakeup1 ch | release =>
      simp only [Pc.next] at h
      exact (hcode h).elim
  | sleep dying ch lk l' => cases l' <;> cases h
  | kill pid l' => cases l' <;> cases h
  | fork l' =>
    simp only [Pc.next, Option.some.injEq] at h
    cases l' with
    | release np => cases np <;> cases h
    | alloc | mem np =>
      simp only [ForkPc.next] at h
      split at h <;> cases h
    | acquire | ready np => cases h
  | exit l' => cases l' <;> cases h

omit [DecidableEq κ] [DecidableEq Λ] in
/-- So a process comes to a place of `wait` with the lock by a statement of `wait`. -/
theorem Pos.next_wait {v : View n} {t t' : Pos (Fin n) Λ} {l : WaitPc} (ht : t.Ok)
    (h : t.next v a = some (e, t')) (hi : t'.intr = none) (hpc : t'.pc = .wait l)
    (hl : l ≠ .acquire) : ∃ l0 : WaitPc, t = ⟨.wait l0, none⟩ ∧ l0.next v = (e, .wait l) := by
  have hholds : (Pc.wait l : Pc (Fin n) Λ).holds = true := by
    cases l <;> first | rfl | exact absurd rfl hl
  obtain ⟨pc, i⟩ := t
  cases i with
  | none =>
    simp only [Pos.next] at h
    split at h
    · cases h
      cases hi
    · obtain ⟨⟨e', pc'⟩, hpc', h⟩ := Option.map_eq_some_iff.1 h
      obtain ⟨rfl, rfl⟩ := Prod.mk.inj h
      obtain rfl : pc' = .wait l := hpc
      obtain ⟨l0, rfl, h0⟩ := Pc.next_wait hl hpc'
      exact ⟨l0, rfl, h0⟩
  | some i =>
    have hf : pc.holds = false := ht (by simp)
    -- an interrupt ends at the place where it came, which is without the lock
    have key : pc.iret v = some t'.pc → False := by
      intro hr
      rcases Pc.iret_eq hr with h' | ⟨-, h'⟩
      · rw [← h', hpc, hholds] at hf
        cases hf
      · rw [hpc] at h'
        cases h'
    unfold Pos.next at h
    repeat' split at h
    all_goals first
      | (obtain ⟨r, hr, h⟩ := Option.map_eq_some_iff.1 h
         obtain ⟨-, rfl⟩ := Prod.mk.inj h
         first
           | exact (key hr).elim
           | (simp at hi; done)
           | simp_all)
      | (cases h; simp at hi)

omit [DecidableEq κ] [DecidableEq Λ] in
/-- The places of the `sleep` in `wait`. -/
theorem Mach.Sleeps.wait {l : SleepPc} (h : m.Sleeps p (.proc p) none l) :
    ((m.proc p).pos = ⟨.wait .fall, none⟩ ∧ l = .fall) ∨
      ((m.proc p).pos = ⟨.wait .sched, none⟩ ∧ l = .sched) ∨
      (m.proc p).pos = ⟨.wait .tidy, none⟩ ∧ l = .tidy := by
  unfold Mach.Sleeps at h
  generalize (m.proc p).pos = t at h ⊢
  obtain ⟨pc, i⟩ := t
  obtain ⟨rfl, hl⟩ := h
  cases pc with
  | wait l' => cases l' <;> simp_all [Pc.sleeps]
  | _ => simp [Pc.sleeps] at hl

/-- A process that sleeps in `wait` after a step did so before, or has just looked for a dead child
in vain. -/
theorem Mach.Fallen.back (h : Inv m) (hs : m.step (c, a) = some m')
    (hf : m'.Fallen p (.proc p) none) : m.Fallen p (.proc p) none ∨
      (m.zombie p = none ∧ ∃ t, m' = m.goto p t) := by
  have hst := hf.state (h.step hs)
  by_cases hc : (m.cpu c).spc = .ran p
  · rcases Mach.step_cases h.cpu hs with ⟨p', e, t, hp, hn, ha, -⟩ | ⟨e, x, hr, -⟩
    · obtain rfl : p = p' := SPc.ran.inj (hc.symm.trans hp)
      have hpos := h.pos_own hp hn ha
      have key : ∀ l, (m'.proc p).pos = ⟨.wait l, none⟩ → l ≠ .acquire → ∃ l0 : WaitPc,
          (m.proc p).pos = ⟨.wait l0, none⟩ ∧ l0.next (m.view p) = (e, .wait l) := by
        intro l hl hne
        rw [hpos] at hl
        exact Pos.next_wait (h.ok p) hn (by rw [hl]) (by rw [hl]) hne
      -- the statement before the last place
      have hl : ∃ l, m'.Sleeps p (.proc p) none l ∧ (l = .fall ∨ l = .sched ∨ l = .tidy) := by
        rcases hf with ⟨d, -, hl | hl⟩ | ⟨-, hl⟩
        · exact ⟨_, hl, .inl rfl⟩
        · exact ⟨_, hl, .inr (.inl rfl)⟩
        · exact ⟨_, hl, .inr (.inr rfl)⟩
      obtain ⟨l, hl, -⟩ := hl
      rcases hl.wait with ⟨hl, -⟩ | ⟨hl, -⟩ | ⟨hl, -⟩
      · obtain ⟨l0, h0, hn0⟩ := key _ hl (by simp)
        cases l0 with
        | scan =>
          have hz : m.zombie p = none := by
            cases hz : m.zombie p with
            | none => rfl
            | some q =>
              have hz' : (m.view p).zombie = some q := hz
              simp [WaitPc.next, hz'] at hn0
          have hz' : (m.view p).zombie = none := hz
          simp only [WaitPc.next, hz'] at hn0
          split at hn0
          · simp at hn0
          · obtain rfl : Effect.nop = e := congrArg Prod.fst hn0
            cases ha
            exact .inr ⟨hz, t, rfl⟩
        | _ => simp [WaitPc.next] at hn0
      · obtain ⟨l0, h0, hn0⟩ := key _ hl (by simp)
        cases l0 with
        | fall => exact .inl (.inl ⟨c, hc, .inl ⟨by rw [h0], by rw [h0]; rfl⟩⟩)
        | scan => grind [WaitPc.next]
        | _ => simp [WaitPc.next] at hn0
      · obtain ⟨l0, h0, hn0⟩ := key _ hl (by simp)
        cases l0 with
        | sched => exact .inl (.inl ⟨c, hc, .inr ⟨by rw [h0], by rw [h0]; rfl⟩⟩)
        | scan => grind [WaitPc.next]
        | _ => simp [WaitPc.next] at hn0
    · exact absurd hc (hr p)
  · have hsame : (m'.proc p).pos = (m.proc p).pos := by
      rcases h.frame hs hc with hf | ⟨-, -, -, ht⟩
      · cases hf with
        | same hs' ht => exact ht
        | wake _ _ hs' _ => simp [hs'] at hst
        | reap _ _ hs' _ => simp [hs'] at hst
        | alloc _ hs' _ => simp [hs'] at hst
        | born hs' => rcases hs' with hs' | hs' <;> simp [hs'] at hst
      · exact ht
    rcases hf with ⟨d, hd, hl⟩ | ⟨hs', hl⟩
    · rcases h.entered hs hd hc hst with hd | hr
      · exact .inl (.inl ⟨d, hd, by simpa only [Mach.Sleeps, hsame] using hl⟩)
      · rcases hl with hl | hl
        · rcases hl.wait with ⟨hl, -⟩ | ⟨-, hl⟩ | ⟨-, hl⟩
          · rw [hl] at hr
            cases hr
          · cases hl
          · cases hl
        · rcases hl.wait with ⟨-, hl⟩ | ⟨hl, -⟩ | ⟨-, hl⟩
          · cases hl
          · rw [hl] at hr
            cases hr
          · cases hl
    · refine .inl (.inr ⟨?_, by simpa only [Mach.Sleeps, hsame] using hl⟩)
      rcases h.frame hs hc with hf | ⟨-, -, hs'', -⟩
      · cases hf with
        | same hs'' ht => rw [← hs'', hs']
        | wake _ hs0 _ _ => exact hs0
        | reap _ _ hs'' _ => simp [hs''] at hs'
        | alloc _ hs'' _ => simp [hs''] at hs'
        | born hs'' => rcases hs'' with hs'' | hs'' <;> simp [hs''] at hs'
      · simp [hs''] at hs'

omit [DecidableEq κ] [DecidableEq Λ] in
/-- A live process is not its own parent. -/
theorem Kin.parent_ne (hk : Kin m) (hq : alive (m.proc q).state) (hne : q ≠ m.init) :
    (m.proc q).parent ≠ some q := by
  intro hp
  cases hs : (m.proc q).sire with
  | none =>
    have := (hk.orphan q (alive_ne hq).1 hs).1
    rw [hp] at this
    cases this
  | some x =>
    rcases hk.hangs q x (alive_ne hq).1 hs with ⟨hx, -⟩ | ⟨hx, -⟩
    · exact hk.self q x hs (Option.some.inj (hx.symm.trans hp))
    · exact hne (Option.some.inj (hp.symm.trans hx))

/-- **Whoever gets a dead child is woken**, be it that the child exits or that its parent does. -/
theorem Kin.dead_child (h : Inv m) (hk : Kin m) (hcl : Claims m) (hs : m.step (c, a) = some m')
    (hp : (m'.proc q).parent = some p) (hz : (m'.proc q).state = .ZOMBIE) :
    ((m.proc q).parent = some p ∧ (m.proc q).state = .ZOMBIE) ∨ m.Wakes (c, a) (.proc p) := by
  rcases Mach.step_calm h hs with hc | ⟨r, e, t, hr, hn, ha, he, hc⟩
  · exact .inl ⟨(hc.kin q).1.symm.trans hp, (hc.dead rfl q).1 hz⟩
  have hspec := Pos.next_spec (h.ok r) hn
  have hran := h.ran c r hr
  -- a statement that changes one slot, which does not become a `ZOMBIE`
  have hslot : ∀ i : Fin n, (q ≠ i → m'.proc q = (m.goto r t).proc q) →
      (m'.proc i).state ≠ .ZOMBIE → (m.proc q).parent = some p ∧ (m.proc q).state = .ZOMBIE := by
    intro i hm hi
    have hq : q ≠ i := fun hq => hi (hq ▸ hz)
    rw [hm hq] at hp hz
    simpa using And.intro hp hz
  cases e with
  | alloc np =>
    cases ha
    exact .inl (hslot np (fun hq => by simp [Mach.alloc, hq]) (by simp [Mach.alloc]))
  | unalloc np | ready np =>
    cases ha
    exact .inl (hslot np (fun hq => by simp [hq]) (by simp [Proc.setState]))
  | adopt me np =>
    cases ha
    have := h.child r np hspec.2.2.1
    exact .inl (hslot np (fun hq => by simp [hq]) (by simp [this]))
  | reap me i =>
    cases ha
    exact .inl (hslot i (fun hq => by simp [Mach.reap, hq]) (by simp [Mach.reap]))
  | exit me =>
    cases ha
    obtain ⟨rfl, hw, -⟩ := hspec
    have hlive : alive (m.proc me).state := by
      rw [hran, hw.due]
      rfl
    have hne := hcl.not_init (Pos.next_kept hn)
    rw [Mach.exit_eq] at hp hz
    simp only [Mach.goto_parent, Mach.goto_init] at hp
    by_cases hq : q = me
    · subst hq
      rw [if_neg (hk.parent_ne hlive hne)] at hp
      exact .inr (.inr ⟨q, he, .inl (by rw [hp]; rfl)⟩)
    · have hz' : (m.proc q).state = .ZOMBIE := by
        rcases Mach.exitState_cases (m.goto me t) hq with h' | ⟨-, h'⟩
        · simpa [h'] using hz
        · simp [h'] at hz
      by_cases hpm : (m.proc q).parent = some me
      · rw [if_pos hpm] at hp
        exact .inr (.inr ⟨me, he, .inr ⟨by rw [Option.some.inj hp], q, hpm, hz'⟩⟩)
      · rw [if_neg hpm] at hp
        exact .inl ⟨hp, hz'⟩
  | _ => exact absurd rfl hc

omit [DecidableEq κ] [DecidableEq Λ] in
/-- `wait` finds no dead child if there is none. -/
theorem Mach.zombie_none : m.zombie p = none ↔
    ∀ q, (m.proc q).parent = some p → (m.proc q).state ≠ .ZOMBIE := by
  simp [Mach.zombie]

/-- **Every step keeps it** that who sleeps in `wait` has no dead child. -/
theorem Mach.Waits.step (h : Inv m) (hch : Chans m) (hk : Kin m) (hcl : Claims m) (hw : m.Waits)
    (hs : m.step (c, a) = some m') : m'.Waits := by
  intro p hf q hp hz
  rcases hf.back h hs with hf0 | ⟨hnone, t, rfl⟩
  · rcases hk.dead_child h hcl hs hp hz with ⟨hp0, hz0⟩ | hwake
    · exact hw p hf0 q hp0 hz0
    · have := (hf0.wakes h hch hwake hs).2.2
      rcases hf.state (h.step hs) with h' | h' <;> simp [h'] at this
  · exact Mach.zombie_none.1 hnone q (by simpa using hp) (by simpa using hz)

/-! ## Every reachable state -/

omit [DecidableEq κ] [DecidableEq Λ] in
theorem Kin.boot (init : Fin n) : Kin (Mach.boot κ Λ init) := by
  constructor
  case init => simp [Mach.boot, alive]
  case orphan =>
    intro q
    by_cases hq : q = init <;> simp [Mach.boot, hq, Proc.empty]
  case hangs =>
    intro q x
    by_cases hq : q = init <;> simp [Mach.boot, hq, Proc.empty]
  case self =>
    intro q x
    by_cases hq : q = init <;> simp [Mach.boot, hq, Proc.empty]
  case free =>
    intro q
    by_cases hq : q = init <;> simp [Mach.boot, hq, Proc.empty]
  case zombie =>
    intro q
    by_cases hq : q = init <;> simp [Mach.boot, hq, Proc.empty]
  all_goals simp [Mach.boot]

omit [DecidableEq κ] [DecidableEq Λ] in
theorem Claims.boot (init : Fin n) : Claims (Mach.boot κ Λ init) := by
  constructor
  · intro p q b
    by_cases hp : p = init <;> simp [Mach.boot, hp, Proc.empty, Pc.claim]
  · simp [Mach.boot, Pc.dying]

omit [DecidableEq κ] [DecidableEq Λ] in
theorem Mach.Waits.boot (init : Fin n) : (Mach.boot κ Λ init).Waits := by
  intro p _ q
  by_cases hq : q = init <;> simp [Mach.boot, hq, Proc.empty]

/-- **Families are in order in every reachable state.** -/
theorem Reach.kin (h : (sys n κ Λ).Reach m) : Kin m ∧ Claims m ∧ m.Waits := by
  refine (h.inv (I := fun m => (Inv m ∧ Chans m) ∧ Kin m ∧ Claims m ∧ m.Waits) ?_ ?_).2
  · rintro _ ⟨init, rfl⟩
    exact ⟨⟨.boot init, .boot init⟩, .boot init, .boot init, .boot init⟩
  · rintro m ⟨c, a⟩ m' ⟨⟨hi, hc⟩, hk, hcl, hw⟩ hs
    exact ⟨⟨hi.step hs, hc.step hi hs⟩, hk.step hi hcl hs, hcl.step hi hk hs,
      hw.step hi hc hk hcl hs⟩

omit [DecidableEq Λ] in
/-- Who is `SLEEPING` in `wait` has called `sleep` on itself. -/
theorem Chans.fallen {l : WaitPc} (h : Inv m) (hc : Chans m) (hs : (m.proc p).state = .SLEEPING)
    (hl : (m.proc p).pos.pc = .wait l) : m.Fallen p (.proc p) none := by
  obtain ⟨ch, lk, l', hl', hcase⟩ := hc.asleep p hs
  have hsl := hl'.2
  obtain ⟨rfl, rfl⟩ : ch = .proc p ∧ lk = none := by
    cases l <;> simp_all [Pc.sleeps]
  rcases hcase with rfl | rfl
  · left
    by_contra hno
    have hoff : ∀ c, (m.cpu c).spc ≠ .ran p := fun c hr => hno ⟨c, hr, .inr hl'⟩
    rcases h.off p hoff with h' | h' | h'
    · simp [hs] at h'
    · simp [hs] at h'
    · have := Pos.resumes_due h'
      rw [hl'.due] at this
      simp at this
  · exact .inr ⟨hs, hl'⟩

/-- What a `wait` that has looked at the table has found: a dead child, whose pid it returns and
which is returned to nobody else; or no child at all, unless the process was killed. -/
def Mach.Found (m m' : Mach n κ Λ) (p : Fin n) : Option Int32 → Prop
  | some pid => ∃ q, (m.proc q).parent = some p ∧ (m.proc q).state = .ZOMBIE ∧
      (m.proc q).pid = pid ∧ m'.reaps = ⟨m.life q, (m.proc q).sire, m.life p⟩ :: m.reaps
  | none => (m.proc p).killed ∨ ∀ q, (m.proc q).parent ≠ some p ∧
      ((m.proc q).state ≠ .UNUSED → (m.proc q).sire ≠ some (m.life p))

/-- **What `wait` returns.** -/
theorem Inv.wait_found {r : Option Int32} (h : Inv m) (hk : Kin m) (hp : (m.cpu c).on = some p)
    (hs : m.step (c, a) = some m') (hr : (m'.proc p).pos = ⟨.wait (.release r), none⟩) :
    m.Found m' p r := by
  have hran := h.ran_of_on hp
  rcases Mach.step_cases h.cpu hs with ⟨p', e, t, hp', hn, ha, -⟩ | ⟨e, x, hno, -⟩
  · obtain rfl : p = p' := SPc.ran.inj (hran.symm.trans hp')
    have hpos := h.pos_own hran hn ha
    rw [hpos] at hr
    obtain ⟨l0, hl0, hn0⟩ := Pos.next_wait (h.ok p) hn (by rw [hr]) (by rw [hr]) (by simp)
    cases l0 with
    | scan =>
      simp only [WaitPc.next] at hn0
      split at hn0
      case h_1 q hq =>
        obtain ⟨rfl, hr'⟩ := Prod.mk.inj hn0
        obtain rfl := WaitPc.release.inj (Pc.wait.inj hr')
        cases ha
        have hz : m.zombie p = some q := hq
        have hq' := List.find?_some hz
        simp only [decide_eq_true_eq] at hq'
        refine ⟨q, hq'.1, hq'.2, by simp [Mach.view, hz], ?_⟩
        simp only [Mach.reap, Mach.life, Mach.goto_inc, Mach.goto_sire]
        rfl
      case h_2 hz =>
        split at hn0
        case isFalse => simp at hn0
        case isTrue hkids =>
          obtain ⟨-, hr'⟩ := Prod.mk.inj hn0
          obtain rfl := WaitPc.release.inj (Pc.wait.inj hr')
          simp only [Mach.view, Bool.or_eq_true, Bool.not_eq_true', List.any_eq_false,
            List.mem_finRange, decide_eq_true_eq, true_implies] at hkids
          rcases hkids with hkids | hkill
          · refine .inr fun q => ⟨hkids q, fun hu hsire => ?_⟩
            have hlive : alive (m.proc p).state := by
              rw [h.ran c p hran, hl0]
              rfl
            rcases hk.hangs q _ hu hsire with ⟨h', -⟩ | ⟨-, h'⟩
            · exact hkids q h'
            · exact hk.not_exited hlive h'
          · exact .inl hkill
    | _ => simp [WaitPc.next] at hn0
  · exact absurd hran (hno p)

/-- A `wait` that looks at the table while there is a dead child returns one. -/
theorem Inv.wait_finds (h : Inv m) (hp : (m.cpu c).on = some p)
    (hl : (m.proc p).pos = ⟨.wait .scan, none⟩) (hs : m.step (c, a) = some m')
    (hq : (m.proc q).parent = some p) (hz : (m.proc q).state = .ZOMBIE) :
    ∃ pid, (m'.proc p).pos = ⟨.wait (.release (some pid)), none⟩ := by
  have hran := h.ran_of_on hp
  have hlock : m.lock = some c := (h.lock c).2 (by simp [Mach.holds, hran, hl, Pos.holds,
    Pc.holds, WaitPc.holds])
  rcases Mach.step_cases h.cpu hs with ⟨p', e, t, hp', hn, ha, -⟩ | ⟨e, x, hno, -⟩
  · obtain rfl : p = p' := SPc.ran.inj (hran.symm.trans hp')
    rw [h.pos_own hran hn ha]
    have hsome : ∃ r, (m.view p).zombie = some r := by
      refine Option.ne_none_iff_exists'.1 fun hnone => ?_
      exact Mach.zombie_none.1 hnone q hq hz
    unfold Pos.next at hn
    split at hn
    case h_1 =>
      split at hn
      · -- no interrupt comes while the lock is held
        cases hn
        have h0 := Mach.apply_enabled ha
        exact absurd hlock (h.count.enabled h0)
      · grind [Pc.next, WaitPc.next, Option.some.injEq, Prod.mk.injEq]
    all_goals simp_all
  · exact absurd hran (hno p)

/-- **Every exited child is reaped exactly once.** In every reachable state no life has ended twice
and none was returned twice; whoever was returned had exited, and was returned to the process that
forked it, or to `initproc` if that has exited; whoever has exited and was not returned is a
`ZOMBIE` that hangs under the process that forked it, or under `initproc` if that has exited. While
`ptable.lock` is free nobody is `SLEEPING` in `wait` with a `ZOMBIE` for a child; a `wait` that
looks at the table returns a dead child if there is one, and returns `-1` only to a process that was
killed or has no child left. -/
theorem exit_reaped (h : (sys n κ Λ).Reach m) :
    (m.exits.map Exit.who).Nodup ∧ (m.reaps.map Reap.who).Nodup ∧
    (∀ r ∈ m.reaps, (∃ e ∈ m.exits, e.who = r.who ∧ e.sire = r.sire) ∧
      (r.sire = some r.reaper ∨
        r.reaper = m.life m.init ∧ ∃ x, r.sire = some x ∧ m.Exited x)) ∧
    (∀ e ∈ m.exits, e.who ∉ m.reaps.map Reap.who → m.life e.who.1 = e.who ∧
      (m.proc e.who.1).state = .ZOMBIE ∧ ∃ x, e.sire = some x ∧ m.Hangs e.who.1 x) ∧
    (m.lock = none → ∀ p l, (m.proc p).state = .SLEEPING → (m.proc p).pos.pc = .wait l →
      ∀ q, (m.proc q).parent = some p → (m.proc q).state ≠ .ZOMBIE) ∧
    (∀ c a p m', (m.cpu c).on = some p → m.step (c, a) = some m' →
      ((m.proc p).pos = ⟨.wait .scan, none⟩ → ∀ q, (m.proc q).parent = some p →
        (m.proc q).state = .ZOMBIE →
        ∃ pid, (m'.proc p).pos = ⟨.wait (.release (some pid)), none⟩) ∧
      ∀ r, (m'.proc p).pos = ⟨.wait (.release r), none⟩ → m.Found m' p r) := by
  have hi := Reach.inv h
  have hc := Reach.chans h
  obtain ⟨hk, hcl, hw⟩ := Reach.kin h
  refine ⟨hk.exits_nodup, hk.reaps_nodup, fun r hr => ⟨hk.reaped r hr, hk.reaper r hr⟩, ?_, ?_, ?_⟩
  · intro e he hn
    obtain ⟨hlife, hz, hsire⟩ := hk.unreaped e he hn
    have hu : (m.proc e.who.1).state ≠ .UNUSED := by simp [hz]
    refine ⟨hlife, hz, ?_⟩
    cases hs : e.sire with
    | none =>
      rcases (hk.orphan _ hu (hsire.trans hs)).2 with h' | h'
      · exact absurd (h' ▸ hz) (alive_ne hk.init).2.2
      · simp [hz] at h'
    | some x => exact ⟨x, rfl, hk.hangs _ x hu (hsire.trans hs)⟩
  · intro _ p l hs hl q hq
    exact hw p (hc.fallen hi hs hl) q hq
  · intro c a p m' hp hs
    exact ⟨fun hl q hq hz => hi.wait_finds hp hl hs hq hz, fun r hr => hi.wait_found hk hp hs hr⟩

/-- The first process forks another and waits for it; that exits, and the first looks at the
table. -/
def waitRun : List (Act 2 Unit) :=
  List.replicate 6 .go ++ .fork :: List.replicate 5 .go ++ .wait :: List.replicate 11 .go ++
    [.syscall, .exit] ++ List.replicate 13 .go

/-- A child that has exited while its parent slept in `wait` is returned by that. -/
theorem exit_reaped_waited : (sys 2 Unit Unit).Reach (demo waitRun) ∧
    (demo waitRun).exits.map Exit.who = [(1, 1)] ∧
    ((demo waitRun).exits.map Exit.who).Nodup ∧ ∃ m', (demo waitRun).step ((), .go) = some m' ∧
      (demo waitRun).Found m' 0 (some 2) := by
  have hr : (sys 2 Unit Unit).Reach (demo waitRun) :=
    Lib.Lts.Reach.run (l := waitRun.map (Prod.mk ())) (.init ⟨0, rfl⟩) rfl
  have hs : (demo waitRun).step ((), .go) = some (demo (waitRun ++ [.go])) := rfl
  have hx := exit_reaped hr
  exact ⟨hr, rfl, hx.1, _, hs, (hx.2.2.2.2.2 () .go 0 _ rfl hs).2 _ rfl⟩

/-- **Nobody hangs under a dead process.** In every reachable state `initproc` is alive, and every
process but that one, once `fork` has made it, has a parent: another process, that is alive; and a
slot that is free has none. -/
theorem parent_alive (h : (sys n κ Λ).Reach m) : alive (m.proc m.init).state ∧
    (∀ q, q ≠ m.init → (m.proc q).state ≠ .UNUSED → (m.proc q).state ≠ .EMBRYO →
      ∃ p, (m.proc q).parent = some p ∧ p ≠ q ∧ alive (m.proc p).state) ∧
    ∀ q, (m.proc q).state = .UNUSED → (m.proc q).parent = none := by
  obtain ⟨hk, -⟩ := Reach.kin h
  refine ⟨hk.init, fun q hq hu he => ?_, hk.free⟩
  cases hs : (m.proc q).sire with
  | none => exact absurd (hk.orphan q hu hs).2 (by simp [hq, he])
  | some x =>
    rcases hk.hangs q x hu hs with ⟨hp, -, ha⟩ | ⟨hp, -⟩
    · exact ⟨x.1, hp, hk.self q x hs, ha⟩
    · exact ⟨m.init, hp, hq.symm, hk.init⟩

/-- The parent of the child that has exited. -/
theorem parent_alive_waited : (sys 2 Unit Unit).Reach (demo waitRun) ∧
    ((demo waitRun).proc 1).state = .ZOMBIE ∧
    ∃ p, ((demo waitRun).proc 1).parent = some p ∧ p ≠ 1 ∧ alive ((demo waitRun).proc p).state := by
  have hr : (sys 2 Unit Unit).Reach (demo waitRun) :=
    Lib.Lts.Reach.run (l := waitRun.map (Prod.mk ())) (.init ⟨0, rfl⟩) rfl
  exact ⟨hr, rfl, (parent_alive hr).2.1 1 nofun nofun nofun⟩

end

end Dixv6.Sched
