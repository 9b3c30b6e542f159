import Dixv6.Pipes.Fifo
import Dixv6.Pipes.Lifetime

/-!
# No lost wakeup

Whoever sleeps on a pipe, or is on its way to, has a reason to (`Pipe.blocked`), or else the holder
of `p->lock` still owes a `wakeup` of the channel before it releases the lock (`Pc.owes`). This is
the invariant `NoLost`; `NoLost.run` is its step lemma.

One statement breaks it: `pipewrite` returns `-1` when it finds the ring full and its process
killed, and then no `wakeup` follows, although it may just have filled an empty ring. The invariant
holds in the runs in which no process is killed inside `pipewrite` (**`pipe_wakeup`**), and
`pipewrite_killed_forgets_wakeup` is a run in which it fails.
-/

namespace Dixv6.Pipes

open Function

/-- The reason to sleep on a channel. -/
def Pipe.blocked (p : Pipe) : Chan → Prop
  | .nread => p.empty = true ∧ p.writeopen = true
  | .nwrite => p.full = true ∧ p.readopen = true

/-- The process sleeps on a channel, or is on its way to. -/
def Pc.waits : Pc → Option Chan
  | .write _ (.fall _) | .write _ (.asleep _) => some .nwrite
  | .read _ .fall | .read _ .asleep => some .nread
  | _ => none

/-- The process is going to wake the channel before it releases `p->lock`. -/
def Pc.owes (ch : Chan) : Pc → Prop
  | .write _ l =>
    match l with
    | .forTest _ | .whileTest _ | .check _ | .wake _ | .wakeLast => ch = .nread
    | _ => False
  | .read _ l =>
    match l with
    | .copy _ | .wake _ => ch = .nwrite
    | _ => False
  | .close w .wake => ch = .ofEnd w
  | _ => False

/-- What a process that holds `p->lock` has found out about the pipe. -/
def Pc.knows (p : Pipe) : Pc → Prop
  | .write _ l =>
    match l with
    | .check _ => p.full = true
    | .wake _ | .sleep _ => p.blocked .nwrite
    | _ => True
  | .read _ l =>
    match l with
    | .check | .sleep => p.blocked .nread
    | _ => True
  | _ => True

variable {pc : Pc} {ch : Chan} {p : Pipe} {killed : Bool} {e : Effect}

/-- A process that is awake waits for nothing. -/
theorem Pc.waits_awake (h : pc.falls = false) : pc.awake.waits = none := by
  unfold Pc.awake
  split
  · rfl
  · rfl
  · next hw hr =>
    unfold Pc.waits
    split
    · cases h
    · exact absurd rfl (hw _ _)
    · cases h
    · exact absurd rfl (hr _)
    · rfl

/-- Who waits after being woken did not sleep yet. -/
theorem Pc.waits_of_awake (h : pc.awake.waits = some ch) : pc.waits = some ch := by
  unfold Pc.awake at h
  split at h
  · cases h
  · cases h
  · exact h

/-- A process that enters a call waits for nothing. -/
theorem Pc.waits_of_outside (h : pc.outside = true) : pc.waits = none := by
  unfold Pc.outside at h
  split at h <;> first | rfl | cases h

/-- Only a sleeping process is woken. -/
theorem Pc.owes_awake : pc.awake.owes ch ↔ pc.owes ch := by
  unfold Pc.awake
  split <;> rfl

/-- A process that wakes up knows nothing new. -/
theorem Pc.knows_awake : pc.awake.knows p ↔ pc.knows p := by
  unfold Pc.awake
  split <;> rfl

/-- A process that has found something out holds `p->lock`, or there is nothing to know. -/
theorem Pc.knows_of_not_holds (h : pc.holds = false) : pc.knows p := by
  cases pc with
  | write c l => cases l <;> simp_all [Pc.holds, Pc.knows]
  | read n l => cases l <;> simp_all [Pc.holds, Pc.knows]
  | user => trivial
  | close w l => trivial

/-- A process that waits uses the end its channel belongs to. -/
theorem Pc.life_of_waits (h : pc.waits = some ch) :
    pc.life = .uses (ch matches .nwrite) ∧ pc.holds = false := by
  unfold Pc.waits at h
  split at h <;> cases h <;> exact ⟨rfl, rfl⟩

/-- A process that is asleep waits. -/
theorem Pc.waits_of_chan (h : pc.chan = some ch) : pc.waits = some ch := by
  unfold Pc.chan at h
  split at h <;> cases h <;> rfl

/-- A process that waits is asleep, or on its way to sleep. -/
theorem Pc.chan_of_waits (h : pc.waits = some ch) (hf : pc.falls = false) : pc.chan = some ch := by
  unfold Pc.waits at h
  split at h <;> cases h <;> first | rfl | cases hf

/-- Closing an end is a reason for nobody but those it wakes. -/
theorem Pipe.blocked_shut {w : Bool} (hch : ch ≠ .ofEnd w)
    (h : p.blocked ch) : (p.shut w).blocked ch := by
  cases w <;> cases ch
  · exact h
  · exact absurd rfl hch
  · exact absurd rfl hch
  · exact h

/-- What the effect of a statement means for the wakeups its process owes. -/
def Effect.Owes (p : Pipe) (killed : Bool) (pc pc' : Pc) : Effect → Prop
  | .none => (∀ ch, pc.owes ch → pc'.owes ch) ∧ pc'.knows p ∧ pc'.waits = Option.none
  | .acquire => pc'.knows p ∧ pc'.waits = Option.none
  | .release _ => pc'.waits = Option.none ∧
      ((∀ ch, ¬pc.owes ch) ∨
        (∀ ch, pc.owes ch → ch = .nread) ∧ pc.life = .uses true ∧
          (p.readopen = false ∨ killed = true))
  | .wakeup ch => (∀ ch', pc.owes ch' → ch' = ch) ∧ pc'.knows p ∧ pc'.waits = Option.none
  | .sleep => (∀ ch, ¬pc.owes ch) ∧ ∀ ch, pc'.waits = some ch → p.blocked ch
  | .sched => pc'.waits = pc.waits
  | .put _ _ => p.full = false ∧ (∀ ch, pc.owes ch → ch = .nread) ∧ pc'.owes .nread ∧
      (∀ p, pc'.knows p) ∧ pc'.waits = Option.none
  | .take => p.empty = false ∧ (∀ ch, pc.owes ch → ch = .nwrite) ∧ pc'.owes .nwrite ∧
      (∀ p, pc'.knows p) ∧ pc'.waits = Option.none
  | .shut w => (∀ ch, ¬pc.owes ch) ∧ pc'.owes (.ofEnd w) ∧ (∀ p, pc'.knows p) ∧
      pc'.waits = Option.none
  | .kfree => pc'.waits = Option.none

/-- The wakeups of `pipewrite`. -/
theorem WPc.next_owes {c : WCall} {l : WPc} (h : l.next p killed c = some (e, pc))
    (hk : (Pc.write c l).knows p) : e.Owes p killed (.write c l) pc := by
  cases l with
  | asleep i => cases h
  | acquire | reacquire i =>
    cases h
    exact ⟨trivial, rfl⟩
  | forTest i =>
    cases h
    split <;> exact ⟨fun _ ho => ho, trivial, rfl⟩
  | whileTest i =>
    simp only [WPc.next] at h
    split at h
    · next hfull =>
      cases h
      exact ⟨fun _ ho => ho, hfull, rfl⟩
    · next hfull =>
      cases h
      exact ⟨by simpa using hfull, fun _ ho => ho, rfl, fun _ => trivial, rfl⟩
  | check i =>
    simp only [WPc.next] at h
    split at h
    · next hexit =>
      cases h
      refine ⟨rfl, Or.inr ⟨fun _ ho => ho, rfl, ?_⟩⟩
      simpa using hexit
    · next hstay =>
      cases h
      simp only [Bool.or_eq_true, Bool.not_eq_true', not_or, Bool.not_eq_false] at hstay
      exact ⟨fun _ ho => ho, ⟨hk, hstay.1⟩, rfl⟩
  | wake i =>
    cases h
    exact ⟨fun _ ho => ho, hk, rfl⟩
  | sleep i =>
    cases h
    exact ⟨fun _ ho => ho, fun _ hch => Option.some.inj hch ▸ hk⟩
  | fall i =>
    cases h
    exact rfl
  | wakeLast =>
    cases h
    exact ⟨fun _ ho => ho, trivial, rfl⟩
  | release =>
    cases h
    exact ⟨rfl, Or.inl fun _ ho => ho⟩

/-- The wakeups of `piperead`. -/
theorem RPc.next_owes {n : Int} {l : RPc} (h : l.next p killed n = some (e, pc))
    (hk : (Pc.read n l).knows p) : e.Owes p killed (.read n l) pc := by
  cases l with
  | asleep => cases h
  | acquire | reacquire =>
    cases h
    exact ⟨trivial, rfl⟩
  | whileTest =>
    cases h
    split
    · next hblocked =>
      simp only [Bool.and_eq_true] at hblocked
      exact ⟨fun _ ho => ho.elim, hblocked, rfl⟩
    · exact ⟨fun _ ho => ho.elim, trivial, rfl⟩
  | check =>
    simp only [RPc.next] at h
    split at h
    · cases h
      exact ⟨rfl, Or.inl fun _ ho => ho⟩
    · cases h
      exact ⟨fun _ ho => ho, hk, rfl⟩
  | sleep =>
    cases h
    exact ⟨fun _ ho => ho, fun _ hch => Option.some.inj hch ▸ hk⟩
  | fall =>
    cases h
    exact rfl
  | copy i =>
    simp only [RPc.next] at h
    split at h
    · next hi =>
      cases h
      exact ⟨by simpa using hi.2, fun _ ho => ho, rfl, fun _ => trivial, rfl⟩
    · cases h
      exact ⟨fun _ ho => ho, trivial, rfl⟩
  | wake i =>
    cases h
    exact ⟨fun _ ho => ho, trivial, rfl⟩
  | release i =>
    cases h
    exact ⟨rfl, Or.inl fun _ ho => ho⟩

/-- The wakeups of `pipeclose`. -/
theorem CPc.next_owes {w : Bool} {l : CPc} (h : l.next p w = some (e, pc)) : e.Owes p killed
    (.close w l) pc := by
  cases l with
  | acquire =>
    cases h
    exact ⟨trivial, rfl⟩
  | shut =>
    cases h
    exact ⟨fun _ ho => ho, rfl, fun _ => trivial, rfl⟩
  | wake =>
    cases h
    exact ⟨fun _ ho => ho, trivial, rfl⟩
  | release =>
    cases h
    split <;> exact ⟨rfl, Or.inl fun _ ho => ho⟩
  | kfree =>
    cases h
    exact rfl

/-- **Every statement pays the wakeups it owes**, but for one return of `pipewrite`. -/
theorem Pc.next_owes {pc' : Pc} (h : pc.next p killed = some (e, pc')) (hk : pc.knows p) :
    e.Owes p killed pc pc' := by
  cases pc with
  | user => cases h
  | write c l => exact WPc.next_owes h hk
  | read n l => exact RPc.next_owes h hk
  | close w l => exact CPc.next_owes h

section
variable {ι : Type} {s : State ι}

/-- Nobody waits without a reason, or a wakeup that is on its way. -/
structure NoLost (s : State ι) : Prop where
  /-- Whoever waits is blocked, or the holder of `p->lock` owes it a wakeup. -/
  waits : ∀ r ch, (s.pc r).waits = some ch →
    s.pipe.blocked ch ∨ ∃ q, s.lock = some q ∧ (s.pc q).owes ch
  knows : ∀ q, (s.pc q).knows s.pipe
  alive : ∀ q, (s.pc q).life = .uses true → (s.proc q).killed = false

/-- While `p->lock` is free, whoever waits is blocked. -/
theorem NoLost.blocked (h : NoLost s) (hfree : s.lock = none) {r : ι}
    (hr : (s.pc r).waits = some ch) : s.pipe.blocked ch := by
  rcases h.waits r ch hr with hb | ⟨q, hq, -⟩
  · exact hb
  · rw [hfree] at hq
    cases hq

/-- While the holder of `p->lock` owes the channel no wakeup, whoever waits is blocked. -/
theorem NoLost.blocked_of_not_owes (h : NoLost s) (hexcl : Excl s) {q r : ι}
    (hq : (s.pc q).holds = true) (howes : ¬(s.pc q).owes ch)
    (hr : (s.pc r).waits = some ch) : s.pipe.blocked ch := by
  rcases h.waits r ch hr with hb | ⟨q', hq', ho⟩
  · exact hb
  · cases hexcl.eq_of_holds hq ((hexcl.lock q').1 hq')
    exact absurd ho howes

section
variable [DecidableEq ι] {s' : State ι}

/-- Any statement of any process but the one return of `pipewrite` leaves nobody behind. -/
theorem NoLost.run [Fintype ι] (h : NoLost s) (hexcl : Excl s) (hlive : Live s)
    {q : ι} (he : step s (.run q) = some s') : NoLost s' := by
  obtain ⟨e, pc, hnext, happly⟩ := step_run he
  have howes := Pc.next_owes hnext (h.knows q)
  have hlocks := Pc.next_locks hnext
  have hlives := Pc.next_lives hnext
  have hother : ∀ {r}, r ≠ q → (s.goto q pc).pc r = s.pc r := fun {r} hr => by
    rw [State.pc_goto, if_neg hr]
  have hself : (s.goto q pc).pc q = pc := by rw [State.pc_goto, if_pos rfl]
  -- the process that runs waits for nothing, unless its effect says so
  have hwaits : pc.waits = none → ∀ {r ch}, ((s.goto q pc).pc r).waits = some ch →
      r ≠ q ∧ (s.pc r).waits = some ch := by
    intro hnone r ch hr
    by_cases hne : r = q
    · subst hne
      rw [hself, hnone] at hr
      cases hr
    · rw [hother hne] at hr
      exact ⟨hne, hr⟩
  have hknows : pc.knows s.pipe → ∀ r, ((s.goto q pc).pc r).knows s.pipe := by
    intro hpc r
    by_cases hne : r = q
    · rw [hne, hself]
      exact hpc
    · rw [hother hne]
      exact h.knows r
  have hknows' : ∀ {p}, (s.pc q).holds = true → pc.knows p → ∀ r,
      ((s.goto q pc).pc r).knows p := by
    intro p hq hpc r
    by_cases hne : r = q
    · rw [hne, hself]
      exact hpc
    · rw [hother hne]
      refine Pc.knows_of_not_holds (Bool.eq_false_iff.2 fun hr => hne ?_)
      exact hexcl.eq_of_holds hr hq
  have halive : (pc.life = .uses true → (s.pc q).life = .uses true) →
      ∀ r, ((s.goto q pc).pc r).life = .uses true → ((s.goto q pc).proc r).killed = false := by
    intro hlife r hr
    by_cases hne : r = q
    · subst hne
      rw [hself] at hr
      simpa using h.alive r (hlife hr)
    · rw [hother hne] at hr
      simpa [hne] using h.alive r hr
  cases e with
  | none =>
    cases happly
    obtain ⟨hkeep, hk, hnone⟩ := howes
    refine ⟨fun r ch hr => ?_, hknows hk, halive fun hl => hlives ▸ hl⟩
    refine (h.waits r ch (hwaits hnone hr).2).imp_right ?_
    rintro ⟨q', hq', ho⟩
    refine ⟨q', hq', ?_⟩
    by_cases hne : q' = q
    · subst hne
      rw [hself]
      exact hkeep ch ho
    · rwa [hother hne]
  | acquire =>
    obtain ⟨hfree, ⟨⟩⟩ := Option.ite_none_right_eq_some.1 happly
    obtain ⟨hk, hnone⟩ := howes
    exact ⟨fun r ch hr => Or.inl (h.blocked hfree (hwaits hnone hr).2), hknows hk,
      halive fun hl => hlives ▸ hl⟩
  | release v =>
    cases happly
    simp only [Effect.Locks, Prod.mk.injEq] at hlocks
    obtain ⟨hnone, hpaid⟩ := howes
    refine ⟨fun r ch hr => Or.inl ?_, hknows (Pc.knows_of_not_holds hlocks.2.1),
      halive fun hl => ?_⟩
    · obtain ⟨-, hr⟩ := hwaits hnone hr
      rcases hpaid with hno | ⟨honly, huses, hexit⟩
      · exact h.blocked_of_not_owes hexcl hlocks.1.1 (hno ch) hr
      -- `pipewrite` gives up: nobody killed it, so nobody is left to read
      have hclosed : s.pipe.readopen = false := hexit.resolve_right fun hk => by
        rw [h.alive q huses] at hk
        cases hk
      cases ch with
      | nread =>
        have hopen := (hlive.open_of_fd (hlive.uses r false (Pc.life_of_waits hr).1)).2
        rw [Pipe.isOpen, if_neg Bool.false_ne_true, hclosed] at hopen
        cases hopen
      | nwrite =>
        refine h.blocked_of_not_owes hexcl hlocks.1.1 (fun ho => ?_) hr
        cases honly _ ho
    · rcases hlives with ⟨w, -, hl'⟩ | ⟨-, hl', -⟩ | ⟨-, hl', -⟩ <;> rw [hl'] at hl <;> cases hl
  | wakeup ch0 =>
    obtain ⟨hfree, ⟨⟩⟩ := Option.ite_none_right_eq_some.1 happly
    simp only [Effect.Locks, Prod.mk.injEq] at hlocks
    obtain ⟨honly, hk, hnone⟩ := howes
    refine ⟨fun r ch hr => Or.inl ?_, fun r => ?_, fun r hr => ?_⟩
    · rw [State.pc_wakeup] at hr
      have hfalls : ((s.goto q pc).pc r).falls = false := by
        by_cases hne : r = q
        · rw [hne, hself]
          exact hlocks.2.2
        · rw [hother hne]
          exact hexcl.not_falls hfree r
      split at hr
      · rw [Pc.waits_awake hfalls] at hr
        cases hr
      · next hchan =>
        -- whoever still waits waits on the other channel
        have hch : ch ≠ ch0 := fun heq => hchan (heq ▸ Pc.chan_of_waits hr hfalls)
        exact h.blocked_of_not_owes hexcl hlocks.1.1 (fun ho => hch (honly ch ho))
          (hwaits hnone hr).2
    · rw [State.pc_wakeup]
      split
      · exact Pc.knows_awake.2 (hknows hk r)
      · exact hknows hk r
    · have hr' : ((s.goto q pc).pc r).life = .uses true := by
        rw [State.pc_wakeup] at hr
        split at hr
        · rwa [Pc.life_awake] at hr
        · exact hr
      have := halive (fun hl => hlives ▸ hl) r hr'
      simp only [State.wakeup_proc]
      split <;> exact this
  | sleep =>
    obtain ⟨-, ⟨⟩⟩ := Option.ite_none_right_eq_some.1 happly
    simp only [Effect.Locks, Prod.mk.injEq] at hlocks
    obtain ⟨hno, hblocked⟩ := howes
    refine ⟨fun r ch hr => Or.inl ?_, hknows (Pc.knows_of_not_holds hlocks.2.1),
      halive fun hl => hlives ▸ hl⟩
    by_cases hne : r = q
    · subst hne
      rw [← hself] at hblocked
      exact hblocked ch hr
    · exact h.blocked_of_not_owes hexcl hlocks.1.1 (hno ch) (hother hne ▸ hr)
  | sched =>
    cases happly
    simp only [Effect.Locks, Prod.mk.injEq] at hlocks
    refine ⟨fun r ch hr => ?_, hknows (Pc.knows_of_not_holds hlocks.2.1),
      halive fun hl => hlives ▸ hl⟩
    have hr' : (s.pc r).waits = some ch := by
      by_cases hne : r = q
      · subst hne
        exact howes.symm.trans (hself ▸ hr)
      · exact hother hne ▸ hr
    refine (h.waits r ch hr').imp_right ?_
    rintro ⟨q', hq', ho⟩
    have hne : q' ≠ q := by
      rintro rfl
      have := (hexcl.lock q').1 hq'
      rw [hlocks.1.1] at this
      cases this
    exact ⟨q', hq', (hother hne).symm ▸ ho⟩
  | put id b =>
    cases happly
    simp only [Effect.Locks, Prod.mk.injEq] at hlocks
    obtain ⟨hfull, honly, ho, hk, hnone⟩ := howes
    refine ⟨fun r ch hr => ?_, hknows' hlocks.1.1 (hk _), halive fun hl => hlives ▸ hl⟩
    cases ch with
    | nread => exact Or.inr ⟨q, (hexcl.lock q).2 hlocks.1.1, hself.symm ▸ ho⟩
    | nwrite =>
      have hb := h.blocked_of_not_owes hexcl hlocks.1.1 (fun ho => by cases honly _ ho)
        (hwaits hnone hr).2
      rw [Pipe.blocked, hfull] at hb
      cases hb.1
  | take =>
    cases happly
    simp only [Effect.Locks, Prod.mk.injEq] at hlocks
    obtain ⟨hempty, honly, ho, hk, hnone⟩ := howes
    refine ⟨fun r ch hr => ?_, hknows' hlocks.1.1 (hk _), halive fun hl => hlives ▸ hl⟩
    cases ch with
    | nwrite => exact Or.inr ⟨q, (hexcl.lock q).2 hlocks.1.1, hself.symm ▸ ho⟩
    | nread =>
      have hb := h.blocked_of_not_owes hexcl hlocks.1.1 (fun ho => by cases honly _ ho)
        (hwaits hnone hr).2
      rw [Pipe.blocked, hempty] at hb
      cases hb.1
  | shut w =>
    cases happly
    simp only [Effect.Locks, Prod.mk.injEq] at hlocks
    obtain ⟨hno, ho, hk, hnone⟩ := howes
    refine ⟨fun r ch hr => ?_, hknows' hlocks.1.1 (hk _), halive fun hl => ?_⟩
    · by_cases hch : ch = .ofEnd w
      · subst hch
        exact Or.inr ⟨q, (hexcl.lock q).2 hlocks.1.1, hself.symm ▸ ho⟩
      · refine Or.inl (Pipe.blocked_shut hch ?_)
        exact h.blocked_of_not_owes hexcl hlocks.1.1 (hno ch) (hwaits hnone hr).2
    · rw [hlives.2] at hl
      cases hl
  | kfree =>
    cases happly
    simp only [Effect.Locks, Prod.mk.injEq] at hlocks
    refine ⟨fun r ch hr => ?_, hknows (Pc.knows_of_not_holds hlocks.2.1), halive fun hl => ?_⟩
    · refine (h.waits r ch (hwaits howes hr).2).imp_right ?_
      rintro ⟨q', hq', ho⟩
      have hne : q' ≠ q := by
        rintro rfl
        have := (hexcl.lock q').1 hq'
        rw [hlocks.1.1] at this
        cases this
      exact ⟨q', hq', (hother hne).symm ▸ ho⟩
    · rw [hlives.2] at hl
      cases hl

/-- A step that kills nobody inside `pipewrite`. -/
def Spares (s : State ι) : Event ι → Prop
  | .kill r => (s.pc r).life ≠ .uses true
  | _ => True

/-- Who is inside `pipewrite` after an event outside the code of the pipe was not killed. -/
theorem NoLost.alive_step {e : Event ι} (h : NoLost s) (hok : Spares s e)
    (he : step s e = some s') (hrun : ∀ q, e ≠ .run q) (r : ι)
    (hr : (s'.pc r).life = .uses true) : (s'.proc r).killed = false := by
  have hold : (s'.pc r).life = (s.pc r).life → (s'.proc r).killed = (s.proc r).killed →
      (s'.proc r).killed = false := fun hl hk => hk.trans (h.alive r (hl.symm.trans hr))
  cases e with
  | run q => exact absurd rfl (hrun q)
  | write q addr n =>
    obtain ⟨hg, ⟨⟩⟩ := Option.ite_none_right_eq_some.1 he
    by_cases hne : r = q
    · subst hne
      simpa using hg.2.2
    · exact hold (by simp [State.pc, hne]) (by simp [hne])
  | read q n =>
    obtain ⟨-, ⟨⟩⟩ := Option.ite_none_right_eq_some.1 he
    by_cases hne : r = q
    · subst hne
      simp [State.pc, Pc.life] at hr
    · exact hold (by simp [State.pc, hne]) (by simp [hne])
  | close q w =>
    obtain ⟨-, ⟨⟩⟩ := Option.ite_none_right_eq_some.1 he
    by_cases hne : r = q
    · subst hne
      simp only [State.pc, State.close, update_self] at hr
      split at hr <;> cases hr
    · exact hold (by simp [State.pc, State.close, hne]) (by simp [State.close, hne])
  | dup q w =>
    obtain ⟨-, ⟨⟩⟩ := Option.ite_none_right_eq_some.1 he
    by_cases hne : r = q
    · subst hne
      exact hold (by simp [State.pc]) (by simp)
    · exact hold (by simp [State.pc, hne]) (by simp [hne])
  | fork q r' =>
    obtain ⟨-, ⟨⟩⟩ := Option.ite_none_right_eq_some.1 he
    by_cases hne : r = r'
    · subst hne
      exact hold (by simp [State.pc, State.fork]) (by simp [State.fork])
    · exact hold (by simp [State.pc, State.fork, hne]) (by simp [State.fork, hne])
  | kill r' =>
    obtain ⟨-, ⟨⟩⟩ := Option.ite_none_right_eq_some.1 he
    by_cases hne : r = r'
    · subst hne
      simp only [State.pc, State.kill, update_self, Pc.life_awake] at hr
      exact absurd hr hok
    · exact hold (by simp [State.pc, State.kill, hne]) (by simp [State.kill, hne])
  | reap r' =>
    obtain ⟨-, ⟨⟩⟩ := Option.ite_none_right_eq_some.1 he
    by_cases hne : r = r'
    · subst hne
      simp
    · exact hold (by simp [State.pc, hne]) (by simp [hne])

/-- **A step that kills nobody inside `pipewrite` loses no wakeup.** -/
theorem NoLost.step [Fintype ι] {e : Event ι} (h : NoLost s) (hexcl : Excl s)
    (hlive : Live s) (hok : Spares s e) (he : step s e = some s') : NoLost s' := by
  by_cases hrun : ∃ q, e = .run q
  · obtain ⟨q, rfl⟩ := hrun
    exact h.run hexcl hlive he
  obtain ⟨hpipe, hl, -, hmoves⟩ := step_moves he fun q hq => hrun ⟨q, hq⟩
  refine ⟨fun r ch hr => ?_, fun r => ?_, h.alive_step hok he fun q hq => hrun ⟨q, hq⟩⟩
  · rw [hpipe, hl]
    cases hmoves with
    | enter q hq hout hother =>
      have hne : r ≠ q := by
        rintro rfl
        rw [Pc.waits_of_outside hout] at hr
        cases hr
      rw [hother r hne] at hr
      refine (h.waits r ch hr).imp_right ?_
      rintro ⟨q', hq', ho⟩
      have hne' : q' ≠ q := by
        rintro rfl
        have := (hexcl.lock q').1 hq'
        rw [hq] at this
        cases this
      exact ⟨q', hq', (hother q' hne').symm ▸ ho⟩
    | awake q hq hother =>
      have hr' : (s.pc r).waits = some ch := by
        by_cases hne : r = q
        · subst hne
          exact Pc.waits_of_awake (hq ▸ hr)
        · rwa [hother r hne] at hr
      refine (h.waits r ch hr').imp_right ?_
      rintro ⟨q', hq', ho⟩
      refine ⟨q', hq', ?_⟩
      by_cases hne : q' = q
      · subst hne
        rw [hq]
        exact Pc.owes_awake.2 ho
      · rwa [hother q' hne]
  · rw [hpipe]
    cases hmoves with
    | enter q hq hout hother =>
      by_cases hne : r = q
      · subst hne
        exact Pc.knows_of_not_holds (Pc.locks_of_outside hout).1
      · rw [hother r hne]
        exact h.knows r
    | awake q hq hother =>
      by_cases hne : r = q
      · subst hne
        rw [hq]
        exact Pc.knows_awake.2 (h.knows r)
      · rw [hother r hne]
        exact h.knows r

/-- Nobody waits on a new pipe. -/
theorem noLost_pipealloc (q : ι) (data : Nat → UInt8) : NoLost (pipealloc q data) where
  waits := fun _ _ hw => by cases hw
  knows := fun _ => trivial
  alive := fun _ hl => by cases hl

/-- A process that is in no call of the pipe is in user space. -/
theorem Pc.user_of_idle (h : pc.life = .idle) : pc = .user := by
  cases pc with
  | user => rfl
  | write c l | read n l => cases h
  | close w l => cases l <;> cases h

/-- **Wakeups and lifetime of a pipe.** In every state of a run in which no process is killed
inside `pipewrite`: while `p->lock` is free, whoever sleeps on `&p->nread` finds the ring empty and
the write end open, and whoever sleeps on `&p->nwrite` finds it full and the read end open. The page
is freed once at most; when it is about to be freed, and ever after, both ends are closed, nobody
has a descriptor of them and nobody else is in a call of the pipe; and once both ends are closed and
every call has returned it has been freed. -/
theorem pipe_wakeup [Fintype ι] (q : ι) (data : Nat → UInt8) (s : State ι)
    (h : Reaches Spares q data s) :
    (s.lock = none → ∀ r,
      ((s.pc r).chan = some .nread → s.pipe.empty = true ∧ s.pipe.writeopen = true) ∧
      ((s.pc r).chan = some .nwrite → s.pipe.full = true ∧ s.pipe.readopen = true)) ∧
    s.freed ≤ 1 ∧
    (0 < s.freed → s.pipe.closed ∧ ∀ r, s.pc r = .user ∧ ∀ w, (s.proc r).fd w = 0) ∧
    (∀ r w, s.pc r = .close w .kfree → s.freed = 0 ∧ s.pipe.closed ∧
      ∀ r', (r' ≠ r → s.pc r' = .user) ∧ ∀ w, (s.proc r').fd w = 0) ∧
    (s.pipe.closed → (∀ r, s.pc r = .user) → s.freed = 1) := by
  obtain ⟨hexcl, hlive, hlost⟩ : Excl s ∧ Live s ∧ NoLost s := by
    refine Reaches.invariant (P := fun s => Excl s ∧ Live s ∧ NoLost s)
      ⟨excl_pipealloc q data, live_pipealloc q data, noLost_pipealloc q data⟩ ?_ h
    rintro s e s' ⟨hx, hl, hn⟩ hok he
    exact ⟨hx.step he, hl.step hx he, hn.step hx hl hok he⟩
  have hnofd : s.pipe.closed → ∀ r w, (s.proc r).fd w = 0 := by
    intro hclosed r w
    by_contra hpos
    have := (hlive.open_of_fd (Nat.pos_of_ne_zero hpos)).2
    rw [hclosed w] at this
    cases this
  refine ⟨fun hfree r => ⟨fun hr => ?_, fun hr => ?_⟩, hlive.once, fun hpos => ?_, ?_, ?_⟩
  · exact hlost.blocked hfree (Pc.waits_of_chan hr)
  · exact hlost.blocked hfree (Pc.waits_of_chan hr)
  · obtain ⟨hclosed, hlives⟩ := hlive.gone (Or.inl hpos)
    refine ⟨hclosed, fun r => ⟨Pc.user_of_idle ((hlives r).resolve_right fun hf => ?_),
      hnofd hclosed r⟩⟩
    have := (hlive.freeing r hf).1
    omega
  · intro r w hr
    have hfreeing : (s.pc r).life = .freeing := by rw [hr]; rfl
    obtain ⟨h0, huniq⟩ := hlive.freeing r hfreeing
    obtain ⟨hclosed, hlives⟩ := hlive.gone (Or.inr ⟨r, hfreeing⟩)
    exact ⟨h0, hclosed, fun r' => ⟨fun hne => Pc.user_of_idle
      ((hlives r').resolve_right fun hf => hne (huniq r' hf)), hnofd hclosed r'⟩⟩
  · intro hclosed huser
    rcases hlive.whole hclosed with h1 | ⟨r, hr⟩
    · exact h1
    · rw [huser r] at hr
      rcases hr with hr | hr <;> cases hr

end

end

/-- A process goes to sleep on an empty pipe of its parent. -/
def emptyRead : List (Event Bool) :=
  [.fork false true, .read true 1] ++ List.replicate 5 (.run true)

/-- The reader sleeps, and the pipe is empty and its write end open. -/
theorem pipe_wakeup_emptyRead :
    ∃ s, runs (pipealloc false fun _ => 0) emptyRead = some s ∧ s.lock = none ∧
      (s.pc true).chan = some .nread ∧ s.pipe.empty = true ∧ s.pipe.writeopen = true := by
  refine ⟨_, rfl, rfl, rfl, ?_⟩
  refine (((pipe_wakeup false (fun _ => 0) _ (Reaches.init.runs emptyRead ?_ rfl)).1 rfl true).1 rfl)
  intro s e he
  simp only [emptyRead, List.replicate, List.cons_append, List.nil_append, List.mem_cons,
    List.not_mem_nil, or_false] at he
  rcases he with rfl | rfl | rfl | rfl | rfl | rfl | rfl <;> trivial

/-! ## The lost wakeup -/

/-- A call that writes one byte more than the ring holds. -/
def bigWrite : WCall := ⟨0, fun _ => 0, 513⟩

/-- The reader sleeps, and the writer has filled `k` cells of the ring under `p->lock`. -/
theorem exists_filled (k : Nat) (hk : k ≤ PIPESIZE) :
    ∃ s : State Bool, Reaches (fun _ _ => True) false (fun _ => 0) s ∧
      s.pc true = .read 1 .asleep ∧ s.pc false = .write bigWrite (.forTest k) ∧
      s.ptable = none ∧ s.pipe.nread = 0 ∧ s.pipe.nwrite = UInt32.ofNat k := by
  induction k with
  | zero =>
    exact ⟨_, Reaches.init.runs (emptyRead ++ [.write false (fun _ => 0) 513, .run false])
      (fun _ _ _ => trivial) rfl, rfl, rfl, rfl, rfl, rfl⟩
  | succ k ih =>
    obtain ⟨s, hs, hreader, hwriter, hptable, hread, hwrite⟩ := ih (by omega)
    simp only [PIPESIZE] at hk
    have hmore : (k : Int) < bigWrite.n := by
      grind [bigWrite]
    have hroom : s.pipe.full = false := by
      rw [Pipe.full, hread, hwrite, beq_eq_false_iff_ne]
      intro heq
      have hnat := congrArg UInt32.toNat heq
      rw [UInt32.toNat_ofNat'] at hnat
      have : (0 + 512 : UInt32).toNat = 512 := rfl
      omega
    -- the test of the loop, and the store
    obtain ⟨s1, hs1⟩ : ∃ s1, s.goto false (.write bigWrite (.whileTest k)) = s1 := ⟨_, rfl⟩
    have htest : step s (.run false) = some s1 := by
      rw [step_run_eq (by rw [hwriter]; exact rfl), if_pos hmore, ← hs1]
      rfl
    have hnext : (s1.pc false).next s1.pipe (s1.proc false).killed =
        some (.put 0 0, .write bigWrite (.forTest (k + 1))) := by
      have hpc : s1.pc false = .write bigWrite (.whileTest k) := by
        rw [← hs1, State.pc_goto, if_pos rfl]
      have hfull : s1.pipe.full = false := by
        rw [← hs1]
        exact hroom
      rw [hpc]
      simp only [Pc.next, WPc.next, hfull]
      rfl
    refine ⟨_, (hs.step trivial htest).step trivial (step_run_eq hnext), ?_, ?_, ?_, ?_, ?_⟩
    · show (s1.goto false (.write bigWrite (.forTest (k + 1)))).pc true = _
      rw [State.pc_goto, if_neg Bool.false_ne_true.symm, ← hs1, State.pc_goto,
        if_neg Bool.false_ne_true.symm]
      exact hreader
    · show (s1.goto false (.write bigWrite (.forTest (k + 1)))).pc false = _
      rw [State.pc_goto, if_pos rfl]
    · rw [← hs1]
      exact hptable
    · rw [← hs1]
      exact hread
    · rw [← hs1]
      show s.pipe.nwrite + 1 = _
      rw [hwrite, UInt32.ofNat_add]
      rfl

/-- **A wakeup is lost.** A reader sleeps on an empty pipe. A writer fills the ring and is killed
before it looks at its flag: `pipewrite` returns `-1` and the reader sleeps on, with `p->lock` free
and 512 bytes to read. -/
theorem pipewrite_killed_forgets_wakeup :
    ∃ s : State Bool, Reaches (fun _ _ => True) false (fun _ => 0) s ∧ s.lock = none ∧
      (s.pc true).chan = some .nread ∧ s.pipe.empty = false := by
  obtain ⟨s, hs, hreader, hwriter, hptable, hread, hwrite⟩ := exists_filled PIPESIZE le_rfl
  have hfull : s.pipe.full = true := by
    rw [Pipe.full, hread, hwrite]
    rfl
  obtain ⟨s₁, hs₁⟩ : ∃ s₁, s.goto false (.write bigWrite (.whileTest PIPESIZE)) = s₁ := ⟨_, rfl⟩
  have htest : step s (.run false) = some s₁ := by
    rw [step_run_eq (by rw [hwriter]; exact rfl), if_pos (by decide), ← hs₁]
    rfl
  have hnext₁ : (s₁.pc false).next s₁.pipe (s₁.proc false).killed =
      some (.none, .write bigWrite (.check PIPESIZE)) := by
    have hpc : s₁.pc false = .write bigWrite (.whileTest PIPESIZE) := by
      rw [← hs₁, State.pc_goto, if_pos rfl]
    have hfull₁ : s₁.pipe.full = true := by
      rw [← hs₁]
      exact hfull
    rw [hpc]
    simp only [Pc.next, WPc.next, hfull₁, if_pos]
  obtain ⟨s₂, hs₂⟩ : ∃ s₂, s₁.goto false (.write bigWrite (.check PIPESIZE)) = s₂ := ⟨_, rfl⟩
  have hcheck : step s₁ (.run false) = some s₂ := by
    rw [step_run_eq hnext₁, hs₂]
    rfl
  have hkill : step s₂ (.kill false) = some (s₂.kill false) := by
    have : s₂.ptable = none := by
      rw [← hs₂, ← hs₁]
      exact hptable
    simp only [step, this, if_pos]
  obtain ⟨s₃, hs₃⟩ : ∃ s₃, s₂.kill false = s₃ := ⟨_, rfl⟩
  rw [hs₃] at hkill
  have hnext₃ : (s₃.pc false).next s₃.pipe (s₃.proc false).killed =
      some (.release (some (.write bigWrite (-1))), .user) := by
    have hpc : s₃.pc false = .write bigWrite (.check PIPESIZE) := by
      rw [← hs₃]
      simp only [State.pc, State.kill, update_self]
      rw [← State.pc, ← hs₂, State.pc_goto, if_pos rfl]
      rfl
    have hkilled : (s₃.proc false).killed = true := by
      rw [← hs₃]
      simp only [State.kill, update_self]
    rw [hpc, hkilled]
    simp only [Pc.next, WPc.next, Bool.or_true, if_pos]
  refine ⟨_, (((hs.step trivial htest).step trivial hcheck).step trivial hkill).step trivial
    (step_run_eq hnext₃), rfl, ?_, ?_⟩
  · have hpc : (s₃.goto false .user).pc true = .read 1 .asleep := by
      have hkeep : s₃.pc true = s₂.pc true := by
        rw [← hs₃]
        simp only [State.pc, State.kill, update_of_ne Bool.false_ne_true.symm]
      rw [State.pc_goto, if_neg Bool.false_ne_true.symm, hkeep, ← hs₂, State.pc_goto,
        if_neg Bool.false_ne_true.symm, ← hs₁, State.pc_goto, if_neg Bool.false_ne_true.symm]
      exact hreader
    exact congrArg Pc.chan hpc
  · have hpipe : s₃.pipe = s.pipe := by
      rw [← hs₃, ← hs₂, ← hs₁]
      rfl
    show s₃.pipe.empty = false
    rw [hpipe, Pipe.empty, hread, hwrite]
    rfl

end Dixv6.Pipes
