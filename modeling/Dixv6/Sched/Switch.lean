import Dixv6.Sched.Turn

/-!
# Who runs where

The three facts about scheduling that the invariant gives (`running_exclusive`): who the current
process of a CPU is, and that a slot is freed only when no CPU uses it.
-/

namespace Dixv6.Sched

section
variable {n : Nat} {κ Λ : Type} [DecidableEq κ] [DecidableEq Λ] {m m' : Mach n κ Λ} {c d : κ}
  {p q : Fin n} {e : Effect n Λ} {a : Act n Λ}

omit [DecidableEq Λ] in
/-- A CPU without the lock is idle, or runs a process that is `RUNNING`. -/
theorem Inv.free_cpu (h : Inv m) (hl : m.lock ≠ some d) :
    (m.cpu d).spc = .idle ∨ ∃ p, (m.cpu d).spc = .ran p ∧ (m.proc p).state = .RUNNING := by
  have hn : m.holds d = false := Bool.eq_false_iff.2 (mt (h.lock d).2 hl)
  unfold Mach.holds at hn
  split at hn
  case h_1 p hp => exact .inr ⟨p, hp, h.ran_other hp hl⟩
  case h_2 hi => exact .inl hi
  case h_3 => cases hn

/-- Only `wait` frees a slot for good. -/
theorem Mach.apply_reaps (ha : m.apply c e = some m') :
    m'.reaps = m.reaps ∨ ∃ me q, e = .reap me q ∧
      m'.reaps = ⟨m.life q, (m.proc q).sire, m.life me⟩ :: m.reaps := by
  cases e with
  | reap me q =>
    cases ha
    exact .inr ⟨me, q, rfl, rfl⟩
  | kill pid =>
    cases ha
    unfold Mach.kill
    split <;> exact .inl rfl
  | exit me =>
    cases ha
    exact .inl (by rw [Mach.exit_eq])
  | sched me =>
    obtain ⟨i, -, -, -, -, rfl⟩ := Mach.apply_sched ha
    exact .inl rfl
  | enabled | lock | unlock | lockOther | unlockOther =>
    simp only [Mach.apply] at ha
    split at ha <;> cases ha
    exact .inl rfl
  | _ =>
    cases ha
    exact .inl rfl

omit [DecidableEq κ] [DecidableEq Λ] in
/-- No scheduler frees a slot. -/
theorem SPc.next_ne_reap {r : Fin n → Bool} {k : Option (Code (Fin n))} {s : SPc (Fin n)}
    {x : SPc (Fin n) × Option (Code (Fin n))} {me : Fin n}
    (h : s.next r a k = some (.reap me q, x)) : False := by
  cases s with
  | idle =>
    simp only [SPc.next] at h
    split at h
    case h_5 =>
      obtain ⟨⟨e', k'⟩, hcode, hx⟩ := Option.map_eq_some_iff.1 h
      obtain rfl : e' = .reap me q := congrArg Prod.fst hx
      simpa using Code.next_spec hcode
    all_goals cases h
  | scan j =>
    simp only [SPc.next] at h
    repeat' split at h
    all_goals cases h
  | _ => cases h

/-- A step that frees a slot is one of `wait`, by a process that holds the lock. -/
theorem Inv.reap_step (h : Inv m) {r : Reap n} (hs : m.step (c, a) = some m')
    (hr : m'.reaps = r :: m.reaps) : ∃ p q t, (m.cpu c).spc = .ran p ∧
      (m.proc p).pos.next (m.view p) a = some (.reap p q, t) ∧ m' = (m.goto p t).reap p q ∧
      r.who.1 = q := by
  rcases Mach.step_cases h.cpu hs with ⟨p, e, t, hp, hn, ha, -⟩ | ⟨e, x, -, hn, ha, -⟩
  · rcases Mach.apply_reaps ha with hr' | ⟨me, q, rfl, hr'⟩
    · have : m.reaps = r :: m.reaps := hr'.symm.trans hr
      simp at this
    · obtain ⟨rfl, -⟩ := Pos.next_spec (h.ok p) hn
      refine ⟨_, q, t, hp, hn, (Option.some.inj ha).symm, ?_⟩
      rw [(List.cons.inj (hr.symm.trans hr')).1]
      rfl
  · rcases Mach.apply_reaps ha with hr' | ⟨me, q, rfl, hr'⟩
    · have : m.reaps = r :: m.reaps := hr'.symm.trans hr
      simp at this
    · exact (SPc.next_ne_reap hn).elim

/-- **Scheduling exclusivity.** In every reachable state a `RUNNING` process is the current process
of exactly one CPU; the current process of a CPU that does not hold `ptable.lock` is `RUNNING`, and
the CPU is on its stack; and when `wait` frees the slot of a `ZOMBIE`, no CPU is on that stack or
has that page directory loaded. -/
theorem running_exclusive (h : (sys n κ Λ).Reach m) :
    (∀ p, (m.proc p).state = .RUNNING → ∃! c, (m.cpu c).proc = some p) ∧
    (∀ c p, (m.cpu c).proc = some p → m.lock ≠ some c →
      (m.proc p).state = .RUNNING ∧ (m.cpu c).on = some p) ∧
    ∀ c a m' r, m.step (c, a) = some m' → m'.reaps = r :: m.reaps →
      (m.proc r.who.1).state = .ZOMBIE ∧
      ∀ d, (m.cpu d).on ≠ some r.who.1 ∧ (m.cpu d).cr3 ≠ some r.who.1 := by
  have hi := Reach.inv h
  refine ⟨fun p hp => ?_, fun c p hp hl => ?_, fun c a m' r hs hr => ?_⟩
  · obtain ⟨c, hc⟩ := hi.running p hp
    have hcur : (m.cpu c).spc.cur = some p := by
      rcases hc with hc | hc <;> rw [hc] <;> rfl
    refine ⟨c, (hi.cpu c).proc.trans hcur, fun d hd => ?_⟩
    exact hi.once d c p ((hi.cpu d).proc.symm.trans hd) hcur
  · rw [(hi.cpu c).proc] at hp
    rcases hi.free_cpu hl with hc | ⟨q, hc, hq⟩
    · rw [hc] at hp
      cases hp
    · rw [hc] at hp
      obtain rfl := Option.some.inj hp
      exact ⟨hq, (hi.cpu c).on.trans (by rw [hc]; rfl)⟩
  · obtain ⟨p, q, t, hp, hn, -, hq⟩ := hi.reap_step hs hr
    obtain ⟨-, hz, ⟨hh, -, hd, -⟩, -⟩ := Pos.next_spec (hi.ok p) hn
    have hl : m.lock = some c := (hi.lock c).2 (by simpa [Mach.holds, hp] using hh)
    have hzq : (m.proc q).state = .ZOMBIE := by
      have := List.find?_some hz
      simp only [decide_eq_true_eq] at this
      exact this.2
    rw [hq]
    refine ⟨hzq, fun d => ?_⟩
    -- a CPU on the stack of a process runs a process that is `RUNNING`
    have hd : (m.cpu d).spc = .idle ∨
        ∃ p, (m.cpu d).spc = .ran p ∧ (m.proc p).state = .RUNNING := by
      by_cases hdc : d = c
      · exact .inr ⟨p, hdc ▸ hp, (hi.ran c p hp).trans hd⟩
      · exact hi.free_cpu (by simpa [hl] using Ne.symm hdc)
    rw [(hi.cpu d).on, (hi.cpu d).cr3]
    rcases hd with hd | ⟨p', hd, hp'⟩
    · simp [hd, SPc.on, SPc.loaded]
    · grind [SPc.on, SPc.loaded]

/-- Two CPUs, of which the first has entered the only process. -/
theorem running_exclusive_entered : ∃ m, (sys 1 Bool Unit).run (Mach.boot Bool Unit 0)
      (List.replicate 5 (true, .go)) = some m ∧
    (m.proc 0).state = .RUNNING ∧ ∃! c, (m.cpu c).proc = some 0 := by
  have h : (sys 1 Bool Unit).run (Mach.boot Bool Unit 0) (List.replicate 5 (true, .go)) = some _ :=
    rfl
  exact ⟨_, h, rfl, (running_exclusive (.run (.init ⟨0, rfl⟩) h)).1 0 rfl⟩

/-- While `scheduler` holds the lock, between `proc = p` and `p->state = RUNNING`, the current
process of a CPU is one it does not run. -/
theorem current_not_running : ∃ m, (sys 1 Unit Unit).Reach m ∧ ∃ c p, (m.cpu c).proc = some p ∧
    (m.proc p).state = .RUNNABLE ∧ (m.cpu c).on = none := by
  have h : (sys 1 Unit Unit).run (Mach.boot Unit Unit 0) [((), .go), ((), .go)] = some _ := rfl
  exact ⟨_, .run (.init ⟨0, rfl⟩) h, (), 0, rfl, rfl, rfl⟩

end

end Dixv6.Sched
