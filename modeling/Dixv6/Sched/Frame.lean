import Dixv6.Sched.Turn

/-!
# What a step leaves alone

A step of one CPU does not touch the other CPUs, the locks they hold, or the processes they run, and
what it does to a process nobody runs is one of a few changes (`Inv.frame`).
-/

namespace Dixv6.Sched

section
variable {n : Nat} {κ Λ : Type} [DecidableEq κ] [DecidableEq Λ] {m m' : Mach n κ Λ} {c d : κ}
  {p q : Fin n} {e : Effect n Λ} {a : Act n Λ} {t : Pos (Fin n) Λ}

/-- An effect that changes no slot. -/
def Effect.quiet : Effect n Λ → Bool
  | .nop | .enabled | .lock | .unlock | .lockOther _ | .unlockOther _ | .sched _ => true
  | .setproc _ | .load _ | .enter _ | .unload | .clear => true
  | _ => false

theorem Mach.apply_quiet (he : e.quiet) (ha : m.apply c e = some m') : m'.proc = m.proc := by
  cases e with
  | nop | setproc | load | enter | unload | clear =>
    cases ha
    rfl
  | enabled | lock | unlock | lockOther | unlockOther =>
    simp only [Mach.apply] at ha
    split at ha <;> cases ha
    rfl
  | sched me =>
    obtain ⟨i, -, -, -, -, rfl⟩ := Mach.apply_sched ha
    rfl
  | _ => cases he

/-- A statement leaves the other CPUs as they are. -/
theorem Mach.apply_cpu (ha : m.apply c e = some m') (hd : d ≠ c) : m'.cpu d = m.cpu d := by
  cases e with
  | kill pid =>
    cases ha
    unfold Mach.kill
    split <;> rfl
  | exit me =>
    cases ha
    rw [Mach.exit_eq]
  | sched me =>
    obtain ⟨i, -, -, -, -, rfl⟩ := Mach.apply_sched ha
    exact if_neg hd
  | enabled | lock | unlock | lockOther | unlockOther =>
    simp only [Mach.apply] at ha
    split at ha <;> cases ha
    simp [hd]
  | setproc | load | enter | unload | clear =>
    cases ha
    exact if_neg hd
  | _ =>
    cases ha
    rfl

/-- And the locks they hold. -/
theorem Mach.apply_held {l : Λ} (ha : m.apply c e = some m') (hd : d ≠ c)
    (hl : m.held l = some d) : m'.held l = some d := by
  cases e with
  | kill pid =>
    cases ha
    unfold Mach.kill
    split <;> exact hl
  | exit me =>
    cases ha
    rwa [Mach.exit_eq]
  | sched me =>
    obtain ⟨i, -, -, -, -, rfl⟩ := Mach.apply_sched ha
    exact hl
  | lockOther l' =>
    obtain ⟨h, ⟨⟩⟩ := Option.ite_none_right_eq_some.1 ha
    have hne : l ≠ l' := by
      rintro rfl
      rw [hl] at h
      cases h
    simpa [hne] using hl
  | unlockOther l' =>
    obtain ⟨h, ⟨⟩⟩ := Option.ite_none_right_eq_some.1 ha
    have hne : l ≠ l' := by grind
    simpa [hne] using hl
  | enabled | lock | unlock =>
    simp only [Mach.apply] at ha
    split at ha <;> cases ha
    exact hl
  | _ =>
    cases ha
    exact hl

/-- **What a statement leaves alone** in a slot that `allocproc` does not take: the place of its
thread, who forked it, unless `fork` says so now, and outside of `sleep` its channel. -/
theorem Mach.apply_slot (ha : m.apply c e = some m') (he : e ≠ .alloc q) :
    (m'.proc q).pos = (m.proc q).pos ∧
    ((∀ me, e ≠ .adopt me q) → (m'.proc q).sire = (m.proc q).sire) ∧
    ((∀ ch, e ≠ .fall q ch) → e ≠ .tidy q → (m'.proc q).chan = (m.proc q).chan) := by
  by_cases hq : e.quiet
  · simp [Mach.apply_quiet hq ha]
  cases e with
  | kill pid =>
    cases ha
    rcases m.kill_cases pid with h | ⟨i, -, h⟩
    · simp [h]
    · rw [h, Mach.setProc_proc]
      split <;> exact ⟨rfl, fun _ => rfl, fun _ _ => rfl⟩
  | exit me =>
    cases ha
    simp [Mach.exit_eq]
  | wakeup1 ch =>
    cases ha
    simp [Mach.wakeup1, Proc.wake_state]
  | alloc np =>
    cases ha
    have hne : q ≠ np := fun h => he (h ▸ rfl)
    simp [Mach.alloc, hne]
  | adopt me i | fall i ch | tidy i =>
    cases ha
    rw [Mach.setProc_proc]
    split
    · next h => subst h; simp
    · exact ⟨rfl, fun _ => rfl, fun _ _ => rfl⟩
  | reap me i =>
    cases ha
    simp only [Mach.reap, Mach.setProc_proc]
    split <;> exact ⟨rfl, fun _ => rfl, fun _ _ => rfl⟩
  | unalloc i | ready i | giveup i | fault i | run i =>
    cases ha
    rw [Mach.setProc_proc]
    split <;> exact ⟨rfl, fun _ => rfl, fun _ _ => rfl⟩
  | _ => exact absurd rfl hq

/-- The place of a process after its own statement. -/
theorem Inv.pos_own (h : Inv m) (hp : (m.cpu c).spc = .ran p)
    (hn : (m.proc p).pos.next (m.view p) a = some (e, t))
    (ha : (m.goto p t).apply c e = some m') : (m'.proc p).pos = t := by
  rw [(Mach.apply_slot ha ?_).1, Mach.goto_self]
  rintro rfl
  obtain ⟨hu, -⟩ := Pos.next_spec (h.ok p) hn
  exact (h.ran_state hp).1 (by simpa using List.find?_some hu)

omit [DecidableEq κ] [DecidableEq Λ] in
/-- What a scheduler does to the slots: an interrupt on its CPU may call `wakeup`, and it marks the
process it has chosen. -/
theorem SPc.next_cases {r : Fin n → Bool} {k : Option (Code (Fin n))} {s : SPc (Fin n)}
    {x : SPc (Fin n) × Option (Code (Fin n))} (h : s.next r a k = some (e, x)) :
    e.quiet ∨ (∃ ch, s = .idle ∧ k = some (.wakeup1 ch) ∧ e = .wakeup1 ch) ∨
      ∃ i, s = .mark i ∧ e = .run i := by
  cases s with
  | idle =>
    simp only [SPc.next] at h
    split at h
    case h_5 k _ =>
      obtain ⟨⟨e', k'⟩, hcode, hx⟩ := Option.map_eq_some_iff.1 h
      obtain rfl : e' = e := congrArg Prod.fst hx
      cases k with
      | body =>
        simp only [Code.next] at hcode
        split at hcode <;> cases hcode <;> exact .inl rfl
      | acquire ch =>
        cases hcode
        exact .inl rfl
      | wakeup1 ch =>
        cases hcode
        exact .inr (.inl ⟨ch, rfl, rfl, rfl⟩)
      | release =>
        cases hcode
        exact .inl rfl
    all_goals
      cases h
      try exact .inl rfl
  | scan j =>
    simp only [SPc.next] at h
    repeat' split at h
    all_goals
      cases h
      exact .inl rfl
  | mark i =>
    cases h
    exact .inr (.inr ⟨i, rfl, rfl⟩)
  | ran i => cases h
  | load i | enter i | unload i | clear i =>
    cases h
    exact .inl rfl

/-- **What a step does to a process its CPU does not run.** -/
theorem Inv.frame (h : Inv m) (hs : m.step (c, a) = some m') (hq : (m.cpu c).spc ≠ .ran q) :
    Shift m m' c q ∨ (m.cpu c).spc = .mark q ∧ (m.proc q).state = .RUNNABLE ∧
      (m'.proc q).state = .RUNNING ∧ (m'.proc q).pos = (m.proc q).pos := by
  rcases Mach.step_cases h.cpu hs with ⟨p, e, t, hp, hn, ha, -⟩ | ⟨e, x, -, hn, ha, -⟩
  · by_cases he : e = .sched p
    · subst he
      have hqp : q ≠ p := fun hqp => hq (hqp ▸ hp)
      have hproc := Mach.apply_quiet (e := .sched p) rfl ha
      exact .inl (.same (by simp [hproc]) (by simp [hproc, Mach.goto_other hqp]))
    · exact .inl ((h.turn hp hn ha he).others q hq)
  · rcases SPc.next_cases hn with he | ⟨ch, hi, hk, rfl⟩ | ⟨i, hi, rfl⟩
    · have hproc := Mach.apply_quiet he ha
      exact .inl (.same (by rw [hproc]; rfl) (by rw [hproc]; rfl))
    · cases ha
      have hl : m.lock = some c := (h.lock c).2 (by simp [Mach.holds, hi, hk, Code.holds])
      refine .inl (.of_wake hl (Proc.wake_cases (m.proc q) (some ch)) ?_)
      simp [Mach.wakeup1, Mach.gotoSched, Proc.wake_state]
    · cases ha
      by_cases hqi : q = i
      · subst hqi
        have := h.chosen c q (by rw [hi]; rfl)
        exact .inr ⟨hi, this, by simp [Proc.setState], by simp [Proc.setState, Mach.gotoSched]⟩
      · exact .inl (.same (by simp [hqi, Mach.gotoSched]) (by simp [hqi, Mach.gotoSched]))

/-- The other CPUs stay as they are. -/
theorem Inv.step_cpu (h : Inv m) (hs : m.step (c, a) = some m') (hd : d ≠ c) :
    m'.cpu d = m.cpu d := by
  rcases Mach.step_cases h.cpu hs with ⟨_, e, t, -, -, ha, -⟩ | ⟨e, x, -, -, ha, -⟩
  · rw [Mach.apply_cpu ha hd, Mach.goto_cpu]
  · rw [Mach.apply_cpu ha hd, Mach.gotoSched, Mach.setCpu_cpu, if_neg hd]

/-- **A process that another CPU runs is left alone.** -/
theorem Inv.frame_ran (h : Inv m) (hs : m.step (c, a) = some m') (hd : d ≠ c)
    (hp : (m.cpu d).spc = .ran p) : (m'.cpu d).spc = .ran p ∧
      (m'.proc p).state = (m.proc p).state ∧ (m'.proc p).pos = (m.proc p).pos := by
  have hcpu : (m'.cpu d).spc = .ran p := by rw [h.step_cpu hs hd, hp]
  have hc : (m.cpu c).spc ≠ .ran p := fun hc =>
    hd (h.once d c p (by rw [hp]; rfl) (by rw [hc]; rfl))
  have hl : m.lock = some c → (m.proc p).state = .RUNNING := fun hl =>
    h.ran_other hp (by rw [hl]; simpa using fun he => hd he.symm)
  refine ⟨hcpu, ?_⟩
  rcases h.frame hs hc with hf | ⟨hmark, -⟩
  · cases hf with
    | same hs ht => exact ⟨hs, ht⟩
    | wake hc hs hs' ht => rw [hl hc] at hs; cases hs
    | reap hc hs hs' ht => rw [hl hc] at hs; cases hs
    | alloc hs hs' ht => exact absurd hs (h.ran_state hp).1
    | born hs' ht p' hp' hc hc' => exact absurd (h.child p' p hc) (h.ran_state hp).2
  · exact absurd (h.once d c p (by rw [hp]; rfl) (by rw [hmark]; rfl)) hd

/-- **A process that runs after a step ran before**, or is where `swtch` resumes it. -/
theorem Inv.entered (h : Inv m) (hs : m.step (c, a) = some m') (hd : (m'.cpu d).spc = .ran p)
    (hc : (m.cpu c).spc ≠ .ran p)
    (hst : (m'.proc p).state = .RUNNING ∨ (m'.proc p).state = .SLEEPING) :
    (m.cpu d).spc = .ran p ∨ (m'.proc p).pos.resumes := by
  by_cases hdc : d = c
  · have hoff : ∀ d', (m.cpu d').spc ≠ .ran p := by
      intro d' hd'
      have hne : d' ≠ c := fun h => hc (h ▸ hd')
      have hd'' := (h.frame_ran hs hne hd').1
      exact hne (((h.step hs).once d' d p (by rw [hd'']; rfl) (by rw [hd]; rfl)).trans hdc)
    rcases h.frame hs hc with hf | ⟨-, hs0, -, ht⟩
    · cases hf with
      | same hs' ht =>
        rcases h.off p hoff with hz | hz | hr
        · rw [hs', hz] at hst
          simp at hst
        · rw [hs', hz] at hst
          simp at hst
        · exact .inr (ht ▸ hr)
      | wake _ _ hs' _ => simp [hs'] at hst
      | reap _ _ hs' _ => simp [hs'] at hst
      | alloc _ hs' _ => simp [hs'] at hst
      | born hs' => rcases hs' with hs' | hs' <;> simp [hs'] at hst
    · have := h.off p hoff
      simp only [hs0, reduceCtorEq, false_or] at this
      exact .inr (ht ▸ this)
  · exact .inl (by rw [← h.step_cpu hs hdc, hd])

end

end Dixv6.Sched
