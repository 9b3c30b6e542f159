import Dixv6.Sched.Frame

/-!
# `sleep` and `wakeup`

A process that calls `sleep(chan, lk)` goes through three phases: it still holds `lk`, it holds
`ptable.lock` and falls asleep, or it is `SLEEPING` on `chan` and off the CPU. No step of another
thread takes it out of the first two, and only a `wakeup` of `chan`, or `kill`, out of the third
(`Waiting.step`). Whoever acquires `lk` after the call finds the first phase over, and whoever wakes
`chan` holds `ptable.lock` and finds the second over too; so no wakeup is lost (`sleep_wakeup`).
-/

namespace Dixv6.Sched

open Procs (ProcState)

/-! ## The channel of a process -/

section
variable {n : Nat} {κ Λ : Type} {v : View n} {a : Act n Λ} {e : Effect n Λ}

/-- `p->chan` at this place. -/
def Pc.chan (p : Fin n) : Pc (Fin n) Λ → Option (Chan (Fin n))
  | .sleep _ ch _ .sched | .sleep _ ch _ .tidy => some ch
  | .wait .sched | .wait .tidy => some (.proc p)
  | _ => none

/-- The place in a call of `sleep`: the channel, the lock (`none` is `ptable.lock`, in `wait`), and
the statement. -/
def Pc.sleeps (p : Fin n) : Pc (Fin n) Λ → Option (Chan (Fin n) × Option Λ × SleepPc)
  | .sleep _ ch lk l => some (ch, some lk, l)
  | .wait .fall => some (.proc p, none, .fall)
  | .wait .sched => some (.proc p, none, .sched)
  | .wait .tidy => some (.proc p, none, .tidy)
  | _ => none

/-- The process `p` is in `sleep(ch, lk)`, at the statement `l`. -/
def Mach.Sleeps (m : Mach n κ Λ) (p : Fin n) (ch : Chan (Fin n)) (lk : Option Λ) (l : SleepPc) :
    Prop :=
  (m.proc p).pos.intr = none ∧ (m.proc p).pos.pc.sleeps p = some (ch, lk, l)

/-- `p->chan` is what the place of `p` says, and who is `SLEEPING` is in `sleep`. -/
structure Chans (m : Mach n κ Λ) : Prop where
  chan : ∀ p, (m.proc p).chan = (m.proc p).pos.pc.chan p
  rest : ∀ p, (m.proc p).state = .UNUSED ∨ (m.proc p).state = .EMBRYO ∨
    (m.proc p).state = .ZOMBIE → (m.proc p).pos.pc.chan p = none
  asleep : ∀ p, (m.proc p).state = .SLEEPING →
    ∃ ch lk l, m.Sleeps p ch lk l ∧ (l = .sched ∨ l = .tidy)

/-- The channel after an effect. -/
def Effect.chan (ch : Option (Chan (Fin n))) : Effect n Λ → Option (Chan (Fin n))
  | .fall _ ch => some ch
  | .tidy _ => none
  | _ => ch

theorem Code.next_chan {k k' : Code (Fin n)} (h : k.next a = some (e, k'))
    (ch : Option (Chan (Fin n))) : e.chan ch = ch := by
  obtain ⟨rfl, -⟩ | ⟨l, rfl, -⟩ | ⟨l, rfl, -⟩ | ⟨rfl, -⟩ | ⟨ch, rfl, -⟩ | ⟨rfl, -⟩ :=
    Code.next_spec h <;> rfl

theorem Pc.next_chan {pc pc' : Pc (Fin n) Λ} (h : pc.next v a = some (e, pc')) :
    pc'.chan v.me = e.chan (pc.chan v.me) := by
  cases pc with
  | forkret =>
    cases h
    split <;> rfl
  | user =>
    simp only [Pc.next] at h
    split at h
    · obtain ⟨pc, hl, h⟩ := Option.map_eq_some_iff.1 h
      obtain ⟨rfl, rfl⟩ := Prod.mk.inj h
      rcases View.leave_eq hl with rfl | rfl <;> rfl
    · split at h <;> cases h
      rfl
    · cases h
  | kern dying k =>
    have hcode : ∀ {k' : Code (Fin n)}, k.next a = some (e, k') →
        (Pc.kern dying k' : Pc (Fin n) Λ).chan v.me =
          e.chan ((Pc.kern dying k : Pc (Fin n) Λ).chan v.me) :=
      fun h => (Code.next_chan h none).symm
    cases k with
    | body =>
      simp only [Pc.next] at h
      split at h
      case h_2 =>
        obtain ⟨pc, hl, h⟩ := Option.map_eq_some_iff.1 h
        obtain ⟨rfl, rfl⟩ := Prod.mk.inj h
        rcases View.leave_eq hl with rfl | rfl <;> rfl
      case h_6 =>
        split at h <;> cases h
        rfl
      case h_8 =>
        obtain ⟨⟨e', k'⟩, hk, h⟩ := Option.map_eq_some_iff.1 h
        obtain ⟨rfl, rfl⟩ := Prod.mk.inj h
        exact hcode hk
      all_goals
        cases h
        rfl
    | acquire ch | wakeup1 ch | release => grind [Pc.next, Option.map_eq_some_iff]
  | sleep dying ch lk l => cases l <;> cases h <;> rfl
  | kill pid l => cases l <;> cases h <;> rfl
  | fork l =>
    simp only [Pc.next, Option.some.injEq] at h
    cases l with
    | alloc =>
      simp only [ForkPc.next] at h
      split at h <;> cases h <;> rfl
    | release np => cases np <;> cases h <;> rfl
    | mem np =>
      simp only [ForkPc.next] at h
      split at h <;> cases h <;> rfl
    | acquire | ready np =>
      cases h
      rfl
  | exit l => cases l <;> cases h <;> rfl
  | wait l =>
    simp only [Pc.next, Option.some.injEq] at h
    cases l with
    | scan =>
      simp only [WaitPc.next] at h
      split at h
      · cases h
        rfl
      · split at h <;> cases h <;> rfl
    | acquire | release r | fall | sched | tidy =>
      cases h
      rfl

theorem Pc.iret_chan {pc pc' : Pc (Fin n) Λ} {p : Fin n} (h : pc.iret v = some pc') :
    pc'.chan p = pc.chan p := by
  rcases Pc.iret_eq h with rfl | ⟨rfl, rfl⟩ <;> rfl

/-- The code of a process sets `p->chan` as its places say. -/
theorem Pos.next_chan {t t' : Pos (Fin n) Λ} (h : t.next v a = some (e, t')) :
    t'.pc.chan v.me = e.chan (t.pc.chan v.me) := by
  unfold Pos.next at h
  repeat' split at h
  all_goals first
    | (obtain ⟨pc', hpc, h⟩ := Option.map_eq_some_iff.1 h
       obtain ⟨rfl, rfl⟩ := Prod.mk.inj h
       first
         | exact Pc.next_chan hpc
         | exact Pc.iret_chan hpc
         | exact (Code.next_chan hpc _).symm)
    | (cases h; rfl)

/-- A dying process has no channel. -/
theorem Pos.chan_of_zombie {t : Pos (Fin n) Λ} (p : Fin n) (h : t.due = .ZOMBIE) :
    t.pc.chan p = none := by
  unfold Pos.due Pc.due at h
  split at h
  · split at h
    case h_3 hpc => rw [hpc]; rfl
    all_goals cases h
  all_goals cases h

/-- A process on a stack is `SLEEPING` just before `sched` in `sleep`. -/
theorem Pos.sleeps_of_due {t : Pos (Fin n) Λ} (p : Fin n) (h : t.due = .SLEEPING) :
    t.intr = none ∧ ∃ ch lk, t.pc.sleeps p = some (ch, lk, .sched) := by
  unfold Pos.due Pc.due at h
  split at h
  case h_1 hi =>
    refine ⟨hi, ?_⟩
    split at h
    case h_1 ch lk hpc => exact ⟨ch, some lk, by rw [hpc]; rfl⟩
    case h_2 hpc => exact ⟨.proc p, none, by rw [hpc]; rfl⟩
    all_goals cases h
  all_goals cases h

/-- The effect of a statement of `sleep(ch, lk)`, and the place after it. -/
def SleepPc.Next (me : Fin n) (ch : Chan (Fin n)) (lk : Option Λ) (e : Effect n Λ)
    (t : Pos (Fin n) Λ) : SleepPc → Prop
  | .acquire => e = .lock ∧ t.pc.sleeps me = some (ch, lk, .release)
  | .release => (∃ l, lk = some l ∧ e = .unlockOther l) ∧ t.pc.sleeps me = some (ch, lk, .fall)
  | .fall => e = .fall me ch ∧ t.pc.sleeps me = some (ch, lk, .sched)
  | .sched => e = .sched me ∧ t.pc.sleeps me = some (ch, lk, .tidy)
  | .tidy => e = .tidy me
  | .unlock => e = .unlock ∧ t.pc.sleeps me = some (ch, lk, .relock)
  | .relock => ∃ l, lk = some l ∧ e = .lockOther l

/-- The statements of `sleep`, one after the other, unless an interrupt comes. -/
theorem Pos.next_sleeps {t t' : Pos (Fin n) Λ} {ch : Chan (Fin n)} {lk : Option Λ}
    {l : SleepPc} (hi : t.intr = none) (hl : t.pc.sleeps v.me = some (ch, lk, l))
    (hn : t.next v a = some (e, t')) : e = .enabled ∨ t'.intr = none ∧ l.Next v.me ch lk e t' := by
  obtain ⟨pc, i⟩ := t
  obtain rfl : i = none := hi
  simp only [Pos.next] at hn
  split at hn
  · cases hn
    exact .inl rfl
  · obtain ⟨⟨e', pc'⟩, hpc, hn⟩ := Option.map_eq_some_iff.1 hn
    obtain ⟨rfl, rfl⟩ := Prod.mk.inj hn
    refine .inr ⟨rfl, ?_⟩
    cases pc with
    | sleep dying ch' lk' l' =>
      simp only [Pc.sleeps, Option.some.injEq, Prod.mk.injEq] at hl
      obtain ⟨rfl, rfl, rfl⟩ := hl
      cases l' <;> cases hpc <;> simp [SleepPc.Next, Pc.sleeps]
    | wait l' =>
      cases l' <;> simp only [Pc.sleeps, Option.some.injEq, Prod.mk.injEq, reduceCtorEq] at hl
      all_goals
        obtain ⟨rfl, rfl, rfl⟩ := hl
        cases hpc
        simp [SleepPc.Next, Pc.sleeps]
    | forkret | user | kern | kill | fork | exit => cases hl

end

section
variable {n : Nat} {κ Λ : Type} [DecidableEq κ] [DecidableEq Λ] {m m' : Mach n κ Λ} {c d : κ}
  {p q : Fin n} {e : Effect n Λ} {a : Act n Λ} {t : Pos (Fin n) Λ}

/-- Only `sleep` sets the channel of a process, and its own. -/
theorem Mach.apply_chan (ha : m.apply c e = some m') (hf : ∀ ch, e ≠ .fall q ch)
    (ht : e ≠ .tidy q) : (m'.proc q).chan = (m.proc q).chan := by
  by_cases he : e = .alloc q
  · subst he
    cases ha
    simp [Mach.alloc]
  · exact (Mach.apply_slot ha he).2.2 hf ht

omit [DecidableEq Λ] in
/-- A process does not set the channel of another. -/
theorem Inv.fall_own (h : Inv m) (hn : (m.proc p).pos.next (m.view p) a = some (e, t))
    (hq : q ≠ p) : (∀ ch, e ≠ .fall q ch) ∧ e ≠ .tidy q := by
  have hspec := Pos.next_spec (h.ok p) hn
  constructor
  · rintro ch rfl
    exact hq hspec.1
  · rintro rfl
    exact hq hspec.1

/-- The channel of a process after a step of its own. -/
theorem Inv.chan_own (h : Inv m) (hn : (m.proc p).pos.next (m.view p) a = some (e, t))
    (ha : (m.goto p t).apply c e = some m') : (m'.proc p).chan = e.chan (m.proc p).chan := by
  have hspec := Pos.next_spec (h.ok p) hn
  by_cases hf : ∃ ch, e = .fall p ch
  · obtain ⟨ch, rfl⟩ := hf
    cases ha
    simp [Effect.chan]
  by_cases ht : e = .tidy p
  · subst ht
    cases ha
    simp [Effect.chan]
  · rw [Mach.apply_chan ha (fun ch hch => hf ⟨ch, hch⟩) ht, Mach.goto_self]
    cases e with
    | fall me ch =>
      obtain rfl := hspec.1
      exact absurd ⟨ch, rfl⟩ hf
    | tidy me =>
      obtain rfl := hspec.1
      exact absurd rfl ht
    | _ => rfl

/-- Who is `SLEEPING` after a step is in `sleep`. -/
theorem Chans.asleep_step (h : Inv m) (hc : Chans m) (hs : m.step (c, a) = some m')
    (hq : (m'.proc q).state = .SLEEPING) :
    ∃ ch lk l, m'.Sleeps q ch lk l ∧ (l = .sched ∨ l = .tidy) := by
  by_cases hran : (m.cpu c).spc = .ran q
  · rcases Mach.step_cases h.cpu hs with ⟨p, e, t, hp, hn, ha, -⟩ | ⟨e, x, hr, -⟩
    · obtain rfl : q = p := SPc.ran.inj (hran.symm.trans hp)
      have hpos := h.pos_own hp hn ha
      by_cases he : e = .sched q
      · subst he
        rw [Mach.apply_quiet (e := .sched q) rfl ha, Mach.goto_state, h.ran c q hp] at hq
        obtain ⟨hi, ch, lk, hl⟩ := Pos.sleeps_of_due q hq
        rcases Pos.next_sleeps hi hl hn with he | ⟨hi', -, hl'⟩
        · cases he
        · exact ⟨ch, lk, .tidy, ⟨hpos ▸ hi', hpos ▸ hl'⟩, .inr rfl⟩
      · rw [(h.turn hp hn ha he).due q hp] at hq
        obtain ⟨hi, ch, lk, hl⟩ := Pos.sleeps_of_due q hq
        exact ⟨ch, lk, .sched, ⟨hi, hl⟩, .inl rfl⟩
    · exact absurd hran (hr q)
  · rcases h.frame hs hran with hf | ⟨-, -, hs', -⟩
    · cases hf with
      | same hs' ht =>
        obtain ⟨ch, lk, l, hl, hl'⟩ := hc.asleep q (hs' ▸ hq)
        exact ⟨ch, lk, l, by simpa only [Mach.Sleeps, ht] using hl, hl'⟩
      | wake _ _ hs' _ => rw [hs'] at hq; cases hq
      | reap _ _ hs' _ => rw [hs'] at hq; cases hq
      | alloc _ hs' _ => rw [hs'] at hq; cases hq
      | born hs' => rcases hs' with hs' | hs' <;> rw [hs'] at hq <;> cases hq
    · rw [hs'] at hq
      cases hq

/-- **Every step keeps the channels.** -/
theorem Chans.step (h : Inv m) (hc : Chans m) (hs : m.step (c, a) = some m') : Chans m' := by
  -- a process its CPU does not run
  have hother : ∀ q, (m.cpu c).spc ≠ .ran q → (m'.proc q).chan = (m.proc q).chan →
      (m'.proc q).chan = (m'.proc q).pos.pc.chan q ∧ ((m'.proc q).state = .UNUSED ∨
        (m'.proc q).state = .EMBRYO ∨ (m'.proc q).state = .ZOMBIE →
          (m'.proc q).pos.pc.chan q = none) := by
    intro q hq hch
    rcases h.frame hs hq with hf | ⟨-, -, hs', ht⟩
    · cases hf with
      | same hs' ht =>
        rw [hch, hs', ht]
        exact ⟨hc.chan q, hc.rest q⟩
      | wake _ hs0 hs' ht =>
        rw [hch, hs', ht]
        exact ⟨hc.chan q, by simp⟩
      | reap _ hs0 hs' ht =>
        rw [hch, ht]
        exact ⟨hc.chan q, fun _ => hc.rest q (.inr (.inr hs0))⟩
      | alloc hs0 hs' ht =>
        rw [hch, hc.chan, hc.rest q (.inl hs0), ht]
        exact ⟨rfl, fun _ => rfl⟩
      | born hs' ht p' hp' hcp hcp' =>
        rw [hch, ht]
        exact ⟨hc.chan q, fun _ => hc.rest q (.inr (.inl (h.child p' q hcp)))⟩
    · rw [hch, hs', ht]
      exact ⟨hc.chan q, by simp⟩
  rcases Mach.step_cases h.cpu hs with ⟨p, e, t, hp, hn, ha, -⟩ | ⟨e, x, hr, hn, ha, -⟩
  · have hpos := h.pos_own hp hn ha
    have hchan : t.pc.chan p = e.chan ((m.proc p).pos.pc.chan p) := Pos.next_chan hn
    have hq : ∀ q, q ≠ p → (m'.proc q).chan = (m.proc q).chan := by
      intro q hq
      obtain ⟨h1, h2⟩ := h.fall_own hn hq
      rw [Mach.apply_chan ha h1 h2, Mach.goto_other hq]
    have hran : ∀ q, q ≠ p → (m.cpu c).spc ≠ .ran q := fun q hq hr =>
      hq (SPc.ran.inj (hr.symm.trans hp))
    refine ⟨fun q => ?_, fun q hq' => ?_, fun q hq => hc.asleep_step h hs hq⟩
    · by_cases hqp : q = p
      · rw [hqp, h.chan_own hn ha, hc.chan, hpos, hchan]
      · exact (hother q (hran q hqp) (hq q hqp)).1
    · by_cases hqp : q = p
      · subst hqp
        rw [hpos]
        by_cases he : e = .sched q
        · subst he
          rw [Mach.apply_quiet (e := .sched q) rfl ha, Mach.goto_state] at hq'
          obtain ⟨h1, h2⟩ := h.ran_state hp
          simp only [h1, h2, false_or] at hq'
          rw [hchan]
          exact Pos.chan_of_zombie q ((h.ran c q hp).symm.trans hq')
        · have hdue := (h.turn hp hn ha he).due q hp
          refine Pos.chan_of_zombie q ?_
          rcases t.due_cases with hd | hd | hd | hd <;> simp_all
      · exact (hother q (hran q hqp) (hq q hqp)).2 hq'
  · have hq : ∀ q, (m'.proc q).chan = (m.proc q).chan := by
      intro q
      rcases SPc.next_cases hn with he | ⟨ch, -, -, rfl⟩ | ⟨i, -, rfl⟩
      · rw [Mach.apply_quiet he ha]
        rfl
      · exact Mach.apply_chan (m := m.gotoSched c x) ha (by simp) (by simp)
      · exact Mach.apply_chan (m := m.gotoSched c x) ha (by simp) (by simp)
    exact ⟨fun q => (hother q (hr q) (hq q)).1, fun q => (hother q (hr q) (hq q)).2,
      fun q hq => hc.asleep_step h hs hq⟩

omit [DecidableEq κ] [DecidableEq Λ] in
theorem Chans.boot (init : Fin n) : Chans (Mach.boot κ Λ init) := by
  constructor
  · intro p
    by_cases hp : p = init <;> simp [Mach.boot, hp, Proc.empty, Pc.chan]
  · intro p
    by_cases hp : p = init <;> simp [Mach.boot, hp, Proc.empty, Pc.chan]
  · intro p
    by_cases hp : p = init <;> simp [Mach.boot, hp, Proc.empty]

theorem Reach.chans (h : (sys n κ Λ).Reach m) : Chans m := by
  refine (h.inv (I := fun m => Inv m ∧ Chans m) ?_ ?_).2
  · rintro _ ⟨init, rfl⟩
    exact ⟨Inv.boot init, Chans.boot init⟩
  · rintro m ⟨c, a⟩ m' ⟨hi, hc⟩ hs
    exact ⟨hi.step hs, hc.step hi hs⟩

/-! ## The phases of `sleep` -/

/-- It still holds `lk`. -/
def Mach.Holding (m : Mach n κ Λ) (p : Fin n) (ch : Chan (Fin n)) (lk : Option Λ) : Prop :=
  ∃ c l, lk = some l ∧ (m.cpu c).spc = .ran p ∧ m.held l = some c ∧
    (m.Sleeps p ch lk .acquire ∨ m.Sleeps p ch lk .release)

/-- It holds `ptable.lock` and falls asleep, or it is asleep. -/
def Mach.Fallen (m : Mach n κ Λ) (p : Fin n) (ch : Chan (Fin n)) (lk : Option Λ) : Prop :=
  (∃ c, (m.cpu c).spc = .ran p ∧ (m.Sleeps p ch lk .fall ∨ m.Sleeps p ch lk .sched)) ∨
    (m.proc p).state = .SLEEPING ∧ m.Sleeps p ch lk .tidy

/-- A step that wakes up who sleeps on `ch`: `wakeup(ch)`, or the calls of `wakeup1` in `exit`. -/
def Mach.Wakes (m : Mach n κ Λ) (x : κ × Act n Λ) (ch : Chan (Fin n)) : Prop :=
  m.effect x = some (.wakeup1 ch) ∨ ∃ me, m.effect x = some (.exit me) ∧
    (some ch = (m.proc me).parent.map .proc ∨
      ch = .proc m.init ∧ ∃ j, (m.proc j).parent = some me ∧ (m.proc j).state = .ZOMBIE)

/-- A step that makes `p`, `SLEEPING` on `ch`, `RUNNABLE`: a wakeup of `ch`, or `kill`. -/
structure Woken (m : Mach n κ Λ) (x : κ × Act n Λ) (m' : Mach n κ Λ) (p : Fin n)
    (ch : Chan (Fin n)) : Prop where
  state : (m.proc p).state = .SLEEPING
  chan : (m.proc p).chan = some ch
  state' : (m'.proc p).state = .RUNNABLE
  cause : m.Wakes x ch ∨ m.effect x = some (.kill (m.proc p).pid)

/-! ## One step -/

omit [DecidableEq Λ] in
/-- A CPU that holds a lock is not interrupted. -/
theorem Mach.Counted.held {l : Λ} (h : m.Counted) (hl : m.held l = some c) :
    (m.cpu c).ncli ≠ 0 := by
  obtain ⟨S, hS, hn⟩ := h c
  have := Finset.card_pos.2 ⟨l, (hS l).2 hl⟩
  omega

/-- An interrupt comes to a CPU without locks. -/
theorem Mach.apply_enabled (ha : m.apply c .enabled = some m') : (m.cpu c).ncli = 0 := by
  simp only [Mach.apply] at ha
  split at ha
  · assumption
  · cases ha

/-- The step of the CPU that runs `p`, at a statement of `sleep`. -/
theorem Inv.step_sleeps {ch : Chan (Fin n)} {lk : Option Λ} {l : SleepPc} (h : Inv m)
    (hp : (m.cpu c).spc = .ran p) (hl : m.Sleeps p ch lk l) (h0 : (m.cpu c).ncli ≠ 0)
    (hs : m.step (c, a) = some m') : ∃ e t, (m.goto p t).apply c e = some m' ∧
      m.effect (c, a) = some e ∧ (m'.proc p).pos = t ∧ t.intr = none ∧ l.Next p ch lk e t := by
  rcases Mach.step_cases h.cpu hs with ⟨p', e, t, hp', hn, ha, he⟩ | ⟨e, x, hr, -⟩
  · obtain rfl : p = p' := SPc.ran.inj (hp.symm.trans hp')
    rcases Pos.next_sleeps hl.1 hl.2 hn with rfl | ht
    · exact absurd (Mach.apply_enabled ha) h0
    · exact ⟨e, t, ha, he, h.pos_own hp hn ha, ht⟩
  · exact absurd hp (hr p)

/-- **Before `release(lk)`** nothing but the process itself moves it. -/
theorem Mach.Holding.step {ch : Chan (Fin n)} {lk : Option Λ} (h : Inv m)
    (hw : m.Holding p ch lk) (hs : m.step (c, a) = some m') :
    m'.Holding p ch lk ∨ m'.Fallen p ch lk := by
  obtain ⟨d, l, rfl, hp, hd, hl⟩ := hw
  by_cases hdc : d = c
  · subst hdc
    have h0 := h.count.held hd
    rcases hl with hl | hl
    · obtain ⟨e, t, ha, -, ht, hi, rfl, htl⟩ := h.step_sleeps hp hl h0 hs
      obtain ⟨hlock, ⟨⟩⟩ := Option.ite_none_right_eq_some.1 ha
      refine .inl ⟨d, l, rfl, ?_, hd, .inr ⟨?_, ?_⟩⟩
      · simpa using hp
      · rw [ht]
        exact hi
      · rw [ht]
        exact htl
    · obtain ⟨e, t, ha, -, ht, hi, ⟨l', hl', rfl⟩, htl⟩ := h.step_sleeps hp hl h0 hs
      obtain ⟨hlock, ⟨⟩⟩ := Option.ite_none_right_eq_some.1 ha
      refine .inr (.inl ⟨d, ?_, .inl ⟨?_, ?_⟩⟩)
      · simpa using hp
      · rw [ht]
        exact hi
      · rw [ht]
        exact htl
  · obtain ⟨hp', -, ht⟩ := h.frame_ran hs hdc hp
    refine .inl ⟨d, l, rfl, hp', ?_, ?_⟩
    · rcases Mach.step_cases h.cpu hs with ⟨_, e, t, -, -, ha, -⟩ | ⟨e, x, -, -, ha, -⟩
      · exact Mach.apply_held ha hdc hd
      · exact Mach.apply_held ha hdc hd
    · simpa only [Mach.Sleeps, ht] using hl

/-- Who sleeps is woken by `wakeup` on its channel, by `exit`, or by `kill`. -/
theorem Mach.apply_woken (ha : m.apply c e = some m') (hs : (m.proc q).state = .SLEEPING)
    (hs' : (m'.proc q).state = .RUNNABLE) :
    (∃ ch, e = .wakeup1 ch ∧ (m.proc q).chan = some ch) ∨ e = .kill (m.proc q).pid ∨
    (∃ me, e = .exit me ∧ ((m.proc q).chan = (m.proc me).parent.map .proc ∨
      (∃ j, (m.proc j).parent = some me ∧ (m.proc j).state = .ZOMBIE) ∧
        (m.proc q).chan = some (.proc m.init))) ∨ e = .ready q ∨ e = .giveup q := by
  by_cases hq : e.quiet
  · rw [Mach.apply_quiet hq ha, hs] at hs'
    cases hs'
  cases e with
  | kill pid =>
    cases ha
    rcases m.kill_cases pid with h | ⟨i, hi, h⟩
    · rw [h, hs] at hs'
      cases hs'
    · grind [Mach.setProc_proc]
  | exit me =>
    cases ha
    rw [Mach.exit_eq] at hs'
    simp only [Mach.exitState, hs, true_and] at hs'
    split at hs'
    · cases hs'
    · grind
  | wakeup1 ch =>
    cases ha
    by_cases hc : (m.proc q).chan = some ch
    · exact .inl ⟨ch, rfl, hc⟩
    · simp [Mach.wakeup1, Proc.wake_state, hs, hc] at hs'
  | alloc np =>
    cases ha
    simp only [Mach.alloc, Mach.setProc_proc] at hs'
    split at hs'
    · cases hs'
    · rw [hs] at hs'
      cases hs'
  | reap me i =>
    cases ha
    simp only [Mach.reap, Mach.setProc_proc] at hs'
    split at hs'
    · cases hs'
    · rw [hs] at hs'
      cases hs'
  | ready np =>
    cases ha
    by_cases hqn : q = np
    · exact .inr (.inr (.inr (.inl (by rw [hqn]))))
    · rw [Mach.setProc_proc, if_neg hqn, hs] at hs'
      cases hs'
  | giveup me =>
    cases ha
    by_cases hqn : q = me
    · exact .inr (.inr (.inr (.inr (by rw [hqn]))))
    · rw [Mach.setProc_proc, if_neg hqn, hs] at hs'
      cases hs'
  | unalloc np | adopt me np | fault me | run i | fall me ch | tidy me =>
    cases ha
    rw [Mach.setProc_proc] at hs'
    split at hs'
    · first
        | cases hs'
        | (simp only [hs] at hs'; cases hs')
    · rw [hs] at hs'
      cases hs'
  | _ => exact absurd rfl hq

section
omit [DecidableEq κ] [DecidableEq Λ]
variable {ch : Chan (Fin n)} {lk : Option Λ} {l : SleepPc}

theorem Mach.Sleeps.holds (h : m.Sleeps p ch lk l) : (m.proc p).pos.holds = l.holds := by
  obtain ⟨hi, hl⟩ := h
  rw [Pos.holds, hi]
  unfold Pc.sleeps at hl
  split at hl
  all_goals
    try (obtain ⟨-, -, rfl⟩ := hl)
    try simp_all [Pc.holds, WaitPc.holds, SleepPc.holds]

theorem Mach.Sleeps.due (h : m.Sleeps p ch lk l) :
    (m.proc p).pos.due = if l = .sched then .SLEEPING else .RUNNING := by
  obtain ⟨hi, hl⟩ := h
  rw [Pos.due, hi]
  unfold Pc.sleeps at hl
  split at hl
  case h_1 dying ch' lk' l' hpc =>
    simp only [Option.some.injEq, Prod.mk.injEq] at hl
    obtain ⟨-, -, rfl⟩ := hl
    rw [hpc]
    cases l' <;> rfl
  all_goals
    try (obtain ⟨-, -, rfl⟩ := hl)
    try simp_all [Pc.due]

theorem Mach.Sleeps.chan (h : m.Sleeps p ch lk l) :
    (m.proc p).pos.pc.chan p = if l = .sched ∨ l = .tidy then some ch else none := by
  obtain ⟨-, hl⟩ := h
  unfold Pc.sleeps at hl
  split at hl
  case h_1 dying ch' lk' l' hpc =>
    simp only [Option.some.injEq, Prod.mk.injEq] at hl
    obtain ⟨rfl, -, rfl⟩ := hl
    rw [hpc]
    cases l' <;> rfl
  all_goals
    try (obtain ⟨rfl, -, rfl⟩ := hl)
    try simp_all [Pc.chan]

end

/-- **What wakes a process** that no CPU runs. -/
theorem Inv.wake_cause {ch : Chan (Fin n)} (h : Inv m) (hs : m.step (c, a) = some m')
    (hq : (m.cpu c).spc ≠ .ran q) (hch : (m.proc q).chan = some ch)
    (h0 : (m.proc q).state = .SLEEPING) (h1 : (m'.proc q).state = .RUNNABLE) :
    m.Wakes (c, a) ch ∨ m.effect (c, a) = some (.kill (m.proc q).pid) := by
  rcases Mach.step_cases h.cpu hs with ⟨p, e, t, hp, hn, ha, he⟩ | ⟨e, x, -, hn, ha, he⟩
  · have hspec := Pos.next_spec (h.ok p) hn
    rcases Mach.apply_woken ha (by simpa using h0) h1 with ⟨ch', rfl, hch'⟩ | rfl | ⟨me, rfl, hc⟩ |
      rfl | rfl
    · rw [Mach.goto_chan, hch] at hch'
      obtain rfl := Option.some.inj hch'
      exact .inl (.inl he)
    · rw [Mach.goto_pid] at he
      exact .inr he
    · refine .inl (.inr ⟨me, he, ?_⟩)
      simp only [Mach.goto_chan, hch, Mach.goto_parent, Mach.goto_state, Mach.goto_init,
        Option.some.injEq] at hc
      exact hc.imp_right And.symm
    · rw [h.child p q hspec.2.1] at h0
      cases h0
    · exact absurd (hspec.1 ▸ hp) hq
  · rcases SPc.next_cases hn with hquiet | ⟨ch', -, -, rfl⟩ | ⟨i, -, rfl⟩
    · rw [Mach.apply_quiet hquiet ha] at h1
      exact absurd (h0.symm.trans h1) (by simp)
    · rcases Mach.apply_woken ha h0 h1 with ⟨_, he', hch'⟩ | he' | ⟨_, he', -⟩ | he' | he' <;>
        cases he'
      obtain rfl := Option.some.inj (hch.symm.trans hch')
      exact .inl (.inl he)
    · rcases Mach.apply_woken ha h0 h1 with ⟨_, he', -⟩ | he' | ⟨_, he', -⟩ | he' | he' <;>
        cases he'

/-- **After `release(lk)`** the process itself falls asleep, and only a wakeup or `kill` ends
that. -/
theorem Mach.Fallen.step {ch : Chan (Fin n)} {lk : Option Λ} (h : Inv m) (hc : Chans m)
    (hw : m.Fallen p ch lk) (hs : m.step (c, a) = some m') :
    m'.Fallen p ch lk ∨ Woken m (c, a) m' p ch := by
  rcases hw with ⟨d, hp, hl⟩ | ⟨hst, hl⟩
  · by_cases hdc : d = c
    · subst hdc
      have h0 : (m.cpu d).ncli ≠ 0 := by
        refine fun h0 => h.count.enabled h0 ((h.lock d).2 ?_)
        rcases hl with hl | hl <;> simpa [Mach.holds, hp, SleepPc.holds] using hl.holds
      rcases hl with hl | hl
      · obtain ⟨e, t, ha, -, ht, hi, rfl, htl⟩ := h.step_sleeps hp hl h0 hs
        cases ha
        refine .inl (.inl ⟨d, hp, .inr ⟨?_, ?_⟩⟩)
        · rw [ht]
          exact hi
        · rw [ht]
          exact htl
      · obtain ⟨e, t, ha, -, ht, hi, rfl, htl⟩ := h.step_sleeps hp hl h0 hs
        refine .inl (.inr ⟨?_, ?_, ?_⟩)
        · rw [Mach.apply_quiet (e := .sched p) rfl ha, Mach.goto_state, h.ran d p hp, hl.due]
          rfl
        · rw [ht]
          exact hi
        · rw [ht]
          exact htl
    · obtain ⟨hp', -, ht⟩ := h.frame_ran hs hdc hp
      refine .inl (.inl ⟨d, hp', ?_⟩)
      simpa only [Mach.Sleeps, ht] using hl
  · have hran : ∀ d, (m.cpu d).spc ≠ .ran p := by
      intro d hd
      rw [h.ran d p hd, hl.due] at hst
      cases hst
    have hkeep : (m'.proc p).state = (m.proc p).state → (m'.proc p).pos = (m.proc p).pos →
        m'.Fallen p ch lk := by
      intro hs' ht
      exact .inr ⟨hs'.trans hst, by simpa only [Mach.Sleeps, ht] using hl⟩
    rcases h.frame hs (hran c) with hf | ⟨-, hs0, -⟩
    · cases hf with
      | same hs' ht => exact .inl (hkeep hs' ht)
      | wake hlock hs0 hs' ht =>
        have hch : (m.proc p).chan = some ch := (hc.chan p).trans hl.chan
        exact .inr ⟨hst, hch, hs', h.wake_cause hs (hran c) hch hst hs'⟩
      | reap _ hs0 hs' ht => rw [hst] at hs0; cases hs0
      | alloc hs0 hs' ht => rw [hst] at hs0; cases hs0
      | born hs' ht p' hp' hcp hcp' =>
        have := h.child p' p hcp
        rw [hst] at this
        cases this
    · rw [hst] at hs0
      cases hs0

/-! ## Whole runs -/

/-- The CPU that holds a lock; `none` is `ptable.lock`. -/
def Mach.holder (m : Mach n κ Λ) : Option Λ → Option κ
  | none => m.lock
  | some l => m.held l

/-- The process `p`, which the CPU `c` runs, calls `sleep(ch, lk)` and holds `lk`. -/
structure Mach.Calls (m : Mach n κ Λ) (c : κ) (p : Fin n) (ch : Chan (Fin n)) (lk : Option Λ) :
    Prop where
  on : (m.cpu c).on = some p
  sleeps : m.Sleeps p ch lk (if lk.isSome then .acquire else .fall)
  holder : m.holder lk = some c

/-- A step that acquires a lock. -/
def Mach.Acquires (m : Mach n κ Λ) (x : κ × Act n Λ) (lk : Option Λ) : Prop :=
  m.effect x = some (lk.elim .lock .lockOther)

omit [DecidableEq Λ] in
theorem Inv.ran_of_on (h : Inv m) (hp : (m.cpu c).on = some p) : (m.cpu c).spc = .ran p := by
  have := (h.cpu c).on.symm.trans hp
  cases hs : (m.cpu c).spc <;> simp_all [SPc.on]

omit [DecidableEq Λ] in
/-- The caller is in the first phase, or in `wait` in the second. -/
theorem Mach.Calls.phase {ch : Chan (Fin n)} {lk : Option Λ} (h : Inv m)
    (hc : m.Calls c p ch lk) : m.Holding p ch lk ∨ m.Fallen p ch lk := by
  have hp := h.ran_of_on hc.on
  cases lk with
  | none => exact .inr (.inl ⟨c, hp, .inl hc.sleeps⟩)
  | some l => exact .inl ⟨c, l, rfl, hp, hc.holder, .inl hc.sleeps⟩

/-- Whoever acquires `lk` finds the first phase over. -/
theorem Mach.Holding.not_acquired {x : κ × Act n Λ} {ch : Chan (Fin n)} {lk : Option Λ}
    (h : Inv m) (hw : m.Holding p ch lk) (hx : m.Acquires x lk) (hs : m.step x = some m') :
    False := by
  obtain ⟨c, a⟩ := x
  obtain ⟨d, l, rfl, -, hl, -⟩ := hw
  have key : ∀ (m1 : Mach n κ Λ) e, m1.held = m.held → m1.apply c e = some m' →
      m.effect (c, a) = some e → False := by
    intro m1 e hh ha he
    obtain rfl : e = .lockOther l := Option.some.inj (he.symm.trans hx)
    simp only [Mach.apply] at ha
    split at ha
    case isTrue h0 =>
      rw [hh, hl] at h0
      cases h0
    case isFalse => cases ha
  rcases Mach.step_cases h.cpu hs with ⟨p, e, t, -, -, ha, he⟩ | ⟨e, x, -, -, ha, he⟩
  · exact key (m.goto p t) e rfl ha he
  · exact key (m.gotoSched c x) e rfl ha he

/-- A step that wakes somebody is one of a CPU that holds `ptable.lock`, and its thread is not in
`sleep`. -/
theorem Inv.wakes_lock {ch : Chan (Fin n)} (h : Inv m) (hs : m.step (c, a) = some m')
    (hw : m.Wakes (c, a) ch) : m.lock = some c ∧ ∀ p ch' lk l, (m.cpu c).spc = .ran p →
      ¬ m.Sleeps p ch' lk l := by
  rcases Mach.step_cases h.cpu hs with ⟨p, e, t, hp, hn, ha, he⟩ | ⟨e, x, hr, hn, ha, he⟩
  · have hspec := Pos.next_spec (h.ok p) hn
    have hholds : (m.proc p).pos.holds = true := by
      rcases hw with hw | ⟨me, hw, -⟩
      · obtain rfl := Option.some.inj (he.symm.trans hw)
        exact hspec.1.holds
      · obtain rfl := Option.some.inj (he.symm.trans hw)
        exact hspec.2.1.holds
    refine ⟨(h.lock c).2 (by simpa [Mach.holds, hp] using hholds), fun p' ch' lk l hp' hl => ?_⟩
    obtain rfl : p = p' := SPc.ran.inj (hp.symm.trans hp')
    have hnext : e = .enabled ∨ l.Next p ch' lk e t := by
      rcases Pos.next_sleeps hl.1 hl.2 hn with h' | h'
      · exact .inl h'
      · exact .inr h'.2
    rcases hw with hw | ⟨me, hw, -⟩
    all_goals
      obtain rfl := Option.some.inj (he.symm.trans hw)
      cases l <;> simp [SleepPc.Next] at hnext
  · rcases SPc.next_cases hn with hq | ⟨ch', hi, hk, rfl⟩ | ⟨i, -, rfl⟩
    · rcases hw with hw | ⟨me, hw, -⟩ <;>
        obtain rfl := Option.some.inj (he.symm.trans hw) <;> cases hq
    · refine ⟨(h.lock c).2 (by simp [Mach.holds, hi, hk, Code.holds]), fun p _ _ _ hp => ?_⟩
      exact absurd hp (hr p)
    · rcases hw with hw | ⟨me, hw, -⟩ <;> cases Option.some.inj (he.symm.trans hw)

/-- **A wakeup finds the sleeper asleep**, once the first phase is over. -/
theorem Mach.Fallen.wakes {ch : Chan (Fin n)} {lk : Option Λ} {y : κ × Act n Λ} (h : Inv m)
    (hc : Chans m) (hf : m.Fallen p ch lk) (hw : m.Wakes y ch) (hs : m.step y = some m') :
    (m.proc p).state = .SLEEPING ∧ (m.proc p).chan = some ch ∧
      (m'.proc p).state = .RUNNABLE := by
  obtain ⟨hlock, hns⟩ := h.wakes_lock hs hw
  rcases hf with ⟨d, hp, hl⟩ | ⟨hst, hl⟩
  · -- the sleeper would hold the lock itself
    have hd : m.lock = some d := by
      refine (h.lock d).2 ?_
      rcases hl with hl | hl <;> simpa [Mach.holds, hp, SleepPc.holds] using hl.holds
    obtain rfl := Option.some.inj (hlock.symm.trans hd)
    exact hl.elim (fun hl => (hns _ _ _ _ hp hl).elim) fun hl => (hns _ _ _ _ hp hl).elim
  · have hch : (m.proc p).chan = some ch := (hc.chan p).trans hl.chan
    refine ⟨hst, hch, ?_⟩
    rcases Mach.step_cases h.cpu hs with ⟨q, e, t, hq, hn, ha, he⟩ | ⟨e, x, -, hn, ha, he⟩
    · have hspec := Pos.next_spec (h.ok q) hn
      rcases hw with hw | ⟨me, hw, hc⟩
      · obtain rfl := Option.some.inj (he.symm.trans hw)
        cases ha
        simp [Mach.wakeup1, Proc.wake_state, hst, hch]
      · obtain rfl := Option.some.inj (he.symm.trans hw)
        obtain rfl := hspec.1
        cases ha
        have hpq : p ≠ me := by grind
        rw [Mach.exit_eq]
        simp only [Mach.exitState, hpq, if_false, Mach.goto_state, Mach.goto_chan,
          Mach.goto_parent, Mach.goto_init, hst, hch, true_and, Option.some.injEq]
        exact if_pos (hc.imp_right And.symm)
    · rcases SPc.next_cases hn with hq | ⟨ch', -, -, rfl⟩ | ⟨i, -, rfl⟩
      · rcases hw with hw | ⟨me, hw, -⟩ <;>
          obtain rfl := Option.some.inj (he.symm.trans hw) <;> cases hq
      · rcases hw with hw | ⟨me, hw, -⟩
        · cases Option.some.inj (he.symm.trans hw)
          cases ha
          simp [Mach.wakeup1, Mach.gotoSched, Proc.wake_state, hst, hch]
        · cases Option.some.inj (he.symm.trans hw)
      · rcases hw with hw | ⟨me, hw, -⟩ <;> cases Option.some.inj (he.symm.trans hw)

/-- The last step of a run at which `p` was woken. -/
def WokenIn (m : Mach n κ Λ) (l : List (κ × Act n Λ)) (m' : Mach n κ Λ) (p : Fin n)
    (ch : Chan (Fin n)) : Prop :=
  ∃ l₁ z l₂ m₁ m₂, l = l₁ ++ z :: l₂ ∧ (sys n κ Λ).run m l₁ = some m₁ ∧ m₁.step z = some m₂ ∧
    (sys n κ Λ).run m₂ l₂ = some m' ∧ Woken m₁ z m₂ p ch

/-- **A sleeper stays in the last two phases until it is woken.** -/
theorem Mach.Fallen.run {ch : Chan (Fin n)} {lk : Option Λ} {l : List (κ × Act n Λ)}
    (h : (sys n κ Λ).Reach m) (hf : m.Fallen p ch lk) (hr : (sys n κ Λ).run m l = some m') :
    m'.Fallen p ch lk ∨ WokenIn m l m' p ch := by
  by_cases hf' : m'.Fallen p ch lk
  · exact .inl hf'
  · obtain ⟨l1, ⟨c, a⟩, l2, m1, m2, rfl, h1, hs, h2, hP, hn⟩ :=
      Lib.Lts.run_first (P := fun m => m.Fallen p ch lk) hf hr hf'
    have hreach := h.run h1
    rcases hP.step (Reach.inv hreach) (Reach.chans hreach) hs with hf | hw
    · exact absurd hf hn
    · exact .inr ⟨l1, (c, a), l2, m1, m2, rfl, h1, hs, h2, hw⟩

/-- **A sleeper stays in the three phases until it is woken.** -/
theorem Mach.Calls.run {ch : Chan (Fin n)} {lk : Option Λ} {l : List (κ × Act n Λ)}
    (h : (sys n κ Λ).Reach m) (hc : m.Calls c p ch lk) (hr : (sys n κ Λ).run m l = some m') :
    m'.Holding p ch lk ∨ m'.Fallen p ch lk ∨ WokenIn m l m' p ch := by
  by_cases hP' : m'.Holding p ch lk ∨ m'.Fallen p ch lk
  · exact hP'.imp_right .inl
  · obtain ⟨l1, ⟨d, a⟩, l2, m1, m2, rfl, h1, hs, h2, hP, hn⟩ :=
      Lib.Lts.run_first (P := fun m => m.Holding p ch lk ∨ m.Fallen p ch lk)
        (hc.phase (Reach.inv h)) hr hP'
    have hreach := h.run h1
    rcases hP with hP | hP
    · exact absurd (hP.step (Reach.inv hreach) hs) hn
    · rcases hP.step (Reach.inv hreach) (Reach.chans hreach) hs with hf | hw
      · exact absurd (.inr hf) hn
      · exact .inr (.inr ⟨l1, (d, a), l2, m1, m2, rfl, h1, hs, h2, hw⟩)

/-- **No wakeup is lost.** Let a process call `sleep(ch, lk)` with `lk` held, let `lk` be acquired
later (by whomever), and let `ch` be woken after that. That wakeup finds the sleeper `SLEEPING` on
`ch` and makes it `RUNNABLE`, unless an earlier wakeup of `ch`, or `kill`, has done so. And `sleep`
returns with `lk` held, without `ptable.lock` if that is another lock, and with no channel. -/
theorem sleep_wakeup (h : (sys n κ Λ).Reach m) :
    (∀ c p ch lk s₁ x s₂ y m₁ m₂ m₃ m₄, m.Calls c p ch lk →
      (sys n κ Λ).run m s₁ = some m₁ → m₁.Acquires x lk → m₁.step x = some m₂ →
      (sys n κ Λ).run m₂ s₂ = some m₃ → m₃.Wakes y ch → m₃.step y = some m₄ →
      ((m₃.proc p).state = .SLEEPING ∧ (m₃.proc p).chan = some ch ∧
        (m₄.proc p).state = .RUNNABLE) ∨ WokenIn m (s₁ ++ x :: s₂) m₃ p ch) ∧
    (∀ c p ch l a m', (m.cpu c).on = some p → m.Sleeps p ch (some l) .relock →
      m.step (c, a) = some m' → m.effect (c, a) ≠ some .enabled →
      m'.held l = some c ∧ m'.lock ≠ some c ∧ (m'.proc p).chan = none) ∧
    ∀ c p ch a m', (m.cpu c).on = some p → m.Sleeps p ch none .tidy →
      m.step (c, a) = some m' → m'.lock = some c ∧ (m'.proc p).chan = none := by
  refine ⟨?_, ?_, ?_⟩
  · intro c p ch lk s₁ x s₂ y m₁ m₂ m₃ m₄ hc h₁ hx hs h₂ hw hy
    have hreach₁ := h.run h₁
    have hrest : (sys n κ Λ).run m₁ (x :: s₂) = some m₃ := Lib.Lts.run_cons.2 ⟨m₂, hs, h₂⟩
    have hreach₃ := hreach₁.run hrest
    rcases hc.run h h₁ with hh | hf | ⟨l₁, z, l₂, a, b, rfl, ha, hz, hb, hwoken⟩
    · exact (hh.not_acquired (Reach.inv hreach₁) hx hs).elim
    · rcases hf.run hreach₁ hrest with hf | ⟨l₁, z, l₂, a, b, hl, ha, hz, hb, hwoken⟩
      · exact .inl (hf.wakes (Reach.inv hreach₃) (Reach.chans hreach₃) hw hy)
      · refine .inr ⟨s₁ ++ l₁, z, l₂, a, b, ?_, Lib.Lts.run_append.2 ⟨m₁, h₁, ha⟩, hz, hb, hwoken⟩
        rw [hl, List.append_assoc]
    · refine .inr ⟨l₁, z, l₂ ++ x :: s₂, a, b, by simp, ha, hz, ?_, hwoken⟩
      exact Lib.Lts.run_append.2 ⟨m₁, hb, hrest⟩
  · intro c p ch l a m' hon hl hs hne
    have hi := Reach.inv h
    have hp := hi.ran_of_on hon
    rcases Mach.step_cases hi.cpu hs with ⟨p', e, t, hp', hn, ha, he⟩ | ⟨e, x, hr, -⟩
    · obtain rfl : p = p' := SPc.ran.inj (hp.symm.trans hp')
      have hchan := hi.chan_own hn ha
      rcases Pos.next_sleeps hl.1 hl.2 hn with rfl | ⟨-, l', hl', rfl⟩
      · exact absurd he hne
      · obtain rfl := Option.some.inj hl'
        have hlock : m.lock ≠ some c := by
          refine mt (hi.lock c).1 ?_
          simpa [Mach.holds, hp, SleepPc.holds] using hl.holds
        simp only [Mach.apply] at ha
        split at ha
        case isFalse => cases ha
        case isTrue =>
          cases ha
          refine ⟨if_pos rfl, hlock, hchan.trans ?_⟩
          rw [(Reach.chans h).chan, hl.chan]
          rfl
    · exact absurd hp (hr p)
  · intro c p ch a m' hon hl hs
    have hi := Reach.inv h
    have hp := hi.ran_of_on hon
    have hlock : m.lock = some c := by
      refine (hi.lock c).2 ?_
      simpa [Mach.holds, hp, SleepPc.holds] using hl.holds
    have h0 : (m.cpu c).ncli ≠ 0 := fun h0 => hi.count.enabled h0 hlock
    obtain ⟨e, t, ha, -, -, -, rfl⟩ := hi.step_sleeps hp hl h0 hs
    cases ha
    exact ⟨hlock, by simp⟩

/-- The machine with two slots and one CPU, after some steps. -/
def demo (l : List (Act 2 Unit)) : Mach 2 Unit Unit :=
  ((sys 2 Unit Unit).run (.boot Unit Unit 0) (l.map (Prod.mk ()))).getD (.boot Unit Unit 0)

/-- The first process forks another, takes a lock and calls `sleep` with it. -/
def forkSleep : List (Act 2 Unit) :=
  List.replicate 6 .go ++ .fork :: List.replicate 5 .go ++ [.acquire (), .sleep (.other 0) ()]

/-- The first process falls asleep, and the second comes to run. -/
def fallRun : List (Act 2 Unit) := List.replicate 11 .go ++ [.syscall]

/-- Two processes and a lock: the second takes the lock and wakes the first. -/
theorem sleep_wakeup_forked : (sys 2 Unit Unit).Reach (demo forkSleep) ∧
    (demo forkSleep).Calls () 0 (.other 0) (some ()) ∧
    ∃ m₃ m₄, (sys 2 Unit Unit).run (demo (forkSleep ++ fallRun ++ [.acquire ()]))
        [((), .wakeup (.other 0)), ((), .go)] = some m₃ ∧
      m₃.Wakes ((), .go) (.other 0) ∧ m₃.step ((), .go) = some m₄ ∧
      ((m₃.proc 0).state = .SLEEPING ∧ (m₃.proc 0).chan = some (.other 0) ∧
        (m₄.proc 0).state = .RUNNABLE ∨ WokenIn (demo forkSleep) (fallRun.map (Prod.mk ()) ++
          ((), .acquire ()) :: [((), .wakeup (.other 0)), ((), .go)]) m₃ 0 (.other 0)) := by
  have hr : (sys 2 Unit Unit).Reach (demo forkSleep) :=
    Lib.Lts.Reach.run (l := forkSleep.map (Prod.mk ())) (.init ⟨0, rfl⟩) rfl
  have hc : (demo forkSleep).Calls () 0 (.other 0) (some ()) := ⟨rfl, ⟨rfl, rfl⟩, rfl⟩
  have h₁ : (sys 2 Unit Unit).run (demo forkSleep) (fallRun.map (Prod.mk ())) =
    some (demo (forkSleep ++ fallRun)) := rfl
  have h₂ : (demo (forkSleep ++ fallRun)).step ((), .acquire ()) =
    some (demo (forkSleep ++ fallRun ++ [.acquire ()])) := rfl
  have h₃ : (sys 2 Unit Unit).run (demo (forkSleep ++ fallRun ++ [.acquire ()]))
    [((), .wakeup (.other 0)), ((), .go)] =
      some (demo (forkSleep ++ fallRun ++ [.acquire (), .wakeup (.other 0), .go])) := rfl
  have h₄ : (demo (forkSleep ++ fallRun ++ [.acquire (), .wakeup (.other 0), .go])).step
    ((), .go) = some (demo (forkSleep ++ fallRun ++ [.acquire (), .wakeup (.other 0), .go, .go])) :=
    rfl
  exact ⟨hr, hc, _, _, h₃, .inl rfl, h₄,
    (sleep_wakeup hr).1 _ _ _ _ _ _ _ _ _ _ _ _ hc h₁ rfl h₂ h₃ (.inl rfl) h₄⟩

/-- A second wakeup of the channel finds the sleeper `RUNNABLE`: the second process takes the lock
that the first has gone to sleep with, and calls `wakeup` twice. -/
theorem wakeup_second : (sys 2 Unit Unit).Reach (demo forkSleep) ∧
    (demo forkSleep).Calls () 0 (.other 0) (some ()) ∧
    (sys 2 Unit Unit).run (demo forkSleep) (fallRun.map (Prod.mk ())) =
      some (demo (forkSleep ++ fallRun)) ∧
    (demo (forkSleep ++ fallRun)).Acquires ((), .acquire ()) (some ()) ∧
    ∃ m₂ m₃ m₄, (demo (forkSleep ++ fallRun)).step ((), .acquire ()) = some m₂ ∧
      (sys 2 Unit Unit).run m₂ [((), .wakeup (.other 0)), ((), .go), ((), .go), ((), .go),
        ((), .wakeup (.other 0)), ((), .go)] = some m₃ ∧
      m₃.Wakes ((), .go) (.other 0) ∧ m₃.step ((), .go) = some m₄ ∧
      (m₃.proc 0).state = .RUNNABLE := by
  have hr : (sys 2 Unit Unit).Reach (demo forkSleep) :=
    Lib.Lts.Reach.run (l := forkSleep.map (Prod.mk ())) (.init ⟨0, rfl⟩) rfl
  exact ⟨hr, ⟨rfl, ⟨rfl, rfl⟩, rfl⟩, rfl, rfl, _, _, _, rfl, rfl, .inl rfl, rfl, rfl⟩

end

end Dixv6.Sched
