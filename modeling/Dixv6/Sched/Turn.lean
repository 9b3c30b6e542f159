import Dixv6.Sched.Places
import Mathlib.Data.Finset.Card

/-!
# What holds of the machine

The invariant `Inv` of processes and CPUs, which every reachable state has (`Reach.inv`). A step
that leaves the schedulers where they are is a `Turn`: it changes the process its CPU runs, and the
others in a few ways only (`Shift`). `Inv` is kept by such a step (`Turn.inv`), by `sched` and by
each statement of `scheduler` (`Inv.jump`).
-/

namespace Dixv6.Sched

open Procs (ProcState)

/-! ## The invariant -/

section
variable {n : Nat} {κ Λ : Type}

/-- The process a scheduler has turned to. -/
def SPc.cur : SPc (Fin n) → Option (Fin n)
  | .idle | .scan _ => none
  | .load i | .mark i | .enter i | .ran i | .unload i | .clear i => some i

/-- The process whose page directory is loaded. -/
def SPc.loaded : SPc (Fin n) → Option (Fin n)
  | .mark i | .enter i | .ran i | .unload i => some i
  | _ => none

/-- The process that runs. -/
def SPc.on : SPc (Fin n) → Option (Fin n)
  | .ran i => some i
  | _ => none

/-- The process that is about to run, before it is marked. -/
def SPc.chosen : SPc (Fin n) → Option (Fin n)
  | .load i | .mark i => some i
  | _ => none

/-- The fields of a CPU are those its scheduler has set. -/
structure Cpu.Ok (k : Cpu n) : Prop where
  on : k.on = k.spc.on
  proc : k.proc = k.spc.cur
  cr3 : k.cr3 = k.spc.loaded

/-- The thread of control of the CPU `c` is at a place with `ptable.lock`. -/
def Mach.holds (m : Mach n κ Λ) (c : κ) : Bool :=
  match (m.cpu c).spc with
  | .ran p => (m.proc p).pos.holds
  | .idle => ((m.cpu c).intr.map Code.holds).getD false
  | _ => true

/-- `ncli` counts the locks of a CPU. -/
def Mach.Counted [DecidableEq κ] (m : Mach n κ Λ) : Prop :=
  ∀ c, ∃ S : Finset Λ, (∀ l, l ∈ S ↔ m.held l = some c) ∧
    (m.cpu c).ncli = S.card + if m.lock = some c then 1 else 0

/-- What holds of the processes and the CPUs. -/
structure Inv [DecidableEq κ] (m : Mach n κ Λ) : Prop where
  count : m.Counted
  cpu : ∀ c, (m.cpu c).Ok
  /-- The holder of `ptable.lock` is the CPU whose thread of control is at a place with it. -/
  lock : ∀ c, m.lock = some c ↔ m.holds c
  once : ∀ c d p, (m.cpu c).spc.cur = some p → (m.cpu d).spc.cur = some p → c = d
  ran : ∀ c p, (m.cpu c).spc = .ran p → (m.proc p).state = (m.proc p).pos.due
  chosen : ∀ c p, (m.cpu c).spc.chosen = some p → (m.proc p).state = .RUNNABLE
  enter : ∀ c p, (m.cpu c).spc = .enter p → (m.proc p).state = .RUNNING
  /-- A process no CPU runs is where it can be resumed, unless it is dead. -/
  off : ∀ p, (∀ c, (m.cpu c).spc ≠ .ran p) →
    (m.proc p).state = .ZOMBIE ∨ (m.proc p).state = .UNUSED ∨ (m.proc p).pos.resumes
  running : ∀ p, (m.proc p).state = .RUNNING →
    ∃ c, (m.cpu c).spc = .ran p ∨ (m.cpu c).spc = .enter p
  child : ∀ p q, (m.proc p).pos.pc.child = some q → (m.proc q).state = .EMBRYO
  only : ∀ p p' q, (m.proc p).pos.pc.child = some q → (m.proc p').pos.pc.child = some q → p = p'
  ok : ∀ p, (m.proc p).pos.Ok

/-- What a step of the CPU `c` can do to a process it does not run. -/
inductive Shift (m m' : Mach n κ Λ) (c : κ) (q : Fin n) : Prop
  | same (hs : (m'.proc q).state = (m.proc q).state) (ht : (m'.proc q).pos = (m.proc q).pos)
  | wake (hl : m.lock = some c) (hs : (m.proc q).state = .SLEEPING)
      (hs' : (m'.proc q).state = .RUNNABLE) (ht : (m'.proc q).pos = (m.proc q).pos)
  | reap (hl : m.lock = some c) (hs : (m.proc q).state = .ZOMBIE)
      (hs' : (m'.proc q).state = .UNUSED) (ht : (m'.proc q).pos = (m.proc q).pos)
  | alloc (hs : (m.proc q).state = .UNUSED) (hs' : (m'.proc q).state = .EMBRYO)
      (ht : (m'.proc q).pos = ⟨.forkret, none⟩)
  | born (hs' : (m'.proc q).state = .UNUSED ∨ (m'.proc q).state = .RUNNABLE)
      (ht : (m'.proc q).pos = (m.proc q).pos) (p : Fin n) (hp : (m.cpu c).spc = .ran p)
      (hc : (m.proc p).pos.pc.child = some q) (hc' : (m'.proc p).pos.pc.child ≠ some q)

/-- A step of the CPU `c` that leaves its scheduler where it is. -/
structure Turn (m m' : Mach n κ Λ) (c : κ) : Prop where
  cpu : ∀ d, (m'.cpu d).spc = (m.cpu d).spc ∧ ((m.cpu d).Ok → (m'.cpu d).Ok)
  intr : ∀ d, d ≠ c → (m'.cpu d).intr = (m.cpu d).intr
  lock : (m'.lock = m.lock ∧ m'.holds c = m.holds c) ∨
    (m.lock = none ∧ m'.lock = some c ∧ m'.holds c = true) ∨
    (m.lock = some c ∧ m'.lock = none ∧ m'.holds c = false)
  due : ∀ p, (m.cpu c).spc = .ran p → (m'.proc p).state = (m'.proc p).pos.due
  ok : ∀ p, (m.cpu c).spc = .ran p → (m'.proc p).pos.Ok
  child : ∀ p q, (m.cpu c).spc = .ran p → (m'.proc p).pos.pc.child = some q →
    (m.proc p).pos.pc.child = some q ∨
      (m.proc q).state = .UNUSED ∧ (m'.proc q).state = .EMBRYO
  others : ∀ q, (m.cpu c).spc ≠ .ran q → Shift m m' c q

/-- How `ptable.lock` passes at a step of the CPU `c`, with whether `c` is at a place with it before and
after: it stays where it is, `c` takes it, or `c` lets it go. -/
def Passes (l l' : Option κ) (c : κ) (b b' : Bool) : Prop :=
  (l' = l ∧ b' = b) ∨ (l = none ∧ l' = some c ∧ b' = true) ∨ (l = some c ∧ l' = none ∧ b' = false)

theorem Passes.self {l l' : Option κ} {c : κ} {b b' : Bool} (h : Passes l l' c b b')
    (hb : l = some c ↔ b) : l' = some c ↔ b' := by
  rcases h with ⟨rfl, rfl⟩ | ⟨-, rfl, rfl⟩ | ⟨-, rfl, rfl⟩
  · exact hb
  · simp
  · simp

theorem Passes.other {l l' : Option κ} {c d : κ} {b b' : Bool} (h : Passes l l' c b b')
    (hd : d ≠ c) : l' = some d ↔ l = some d := by
  rcases h with ⟨rfl, -⟩ | ⟨rfl, rfl, -⟩ | ⟨rfl, rfl, -⟩
  · rfl
  · simp [Ne.symm hd]
  · simp [Ne.symm hd]

variable [DecidableEq κ] {m m' : Mach n κ Λ} {c d : κ} {p q : Fin n}

omit [DecidableEq κ] in
/-- Where a CPU is does not change with what other CPUs do. -/
theorem Mach.holds_congr (hspc : (m'.cpu d).spc = (m.cpu d).spc)
    (hintr : (m'.cpu d).intr = (m.cpu d).intr)
    (hpos : ∀ p, (m.cpu d).spc = .ran p → (m'.proc p).pos = (m.proc p).pos) :
    m'.holds d = m.holds d := by
  unfold Mach.holds
  rw [hspc, hintr]
  split
  case h_1 p hp => rw [hpos p hp]
  case h_2 => rfl
  case h_3 => rfl

/-- A process on a stack is in none of the other states. -/
theorem Inv.ran_state (h : Inv m) (hp : (m.cpu c).spc = .ran p) :
    (m.proc p).state ≠ .UNUSED ∧ (m.proc p).state ≠ .EMBRYO := by
  rw [h.ran c p hp]
  rcases (m.proc p).pos.due_cases with hd | hd | hd | hd <;> simp [hd]

/-- A process that another CPU runs is `RUNNING`, seen from the holder of the lock. -/
theorem Inv.ran_other (h : Inv m) (hp : (m.cpu d).spc = .ran p) (hl : m.lock ≠ some d) :
    (m.proc p).state = .RUNNING := by
  rw [h.ran d p hp]
  refine Pos.due_of_free ?_
  have := mt (h.lock d).2 hl
  simpa [Mach.holds, hp] using this

/-- **A step that leaves the schedulers where they are keeps the invariant.** -/
theorem Turn.inv (h : Inv m) (ht : Turn m m' c) (hcount : m'.Counted) : Inv m' := by
  have hspc : ∀ d, (m'.cpu d).spc = (m.cpu d).spc := fun d => (ht.cpu d).1
  -- the processes the other CPUs run do not change
  have hother : ∀ d p, d ≠ c → (m.cpu d).spc = .ran p → (m.cpu c).spc ≠ .ran p := by
    intro d p hd hp hc
    exact hd (h.once d c p (by rw [hp]; rfl) (by rw [hc]; rfl))
  have hrun : ∀ d p, d ≠ c → (m.cpu d).spc = .ran p →
      (m'.proc p).state = (m.proc p).state ∧ (m'.proc p).pos = (m.proc p).pos := by
    intro d p hd hp
    have hl : m.lock = some c → (m.proc p).state = .RUNNING := fun hl =>
      h.ran_other hp (by rw [hl]; simpa using fun he => hd he.symm)
    have hs := h.ran_state hp
    have hc := h.child
    cases ht.others p (hother d p hd hp) <;> grind
  -- a state that no step of another CPU takes away
  have hkept : ∀ q, (m.cpu c).spc ≠ .ran q →
      (m.proc q).state = .RUNNABLE ∨ (m.proc q).state = .RUNNING →
      (m'.proc q).state = (m.proc q).state := by
    intro q hq hs
    have hc := h.child
    cases ht.others q hq <;> grind
  have hchild : ∀ p q, (m'.proc p).pos.pc.child = some q →
      (m.proc p).pos.pc.child = some q ∨ (m.cpu c).spc = .ran p ∧
        (m.proc q).state = .UNUSED ∧ (m'.proc q).state = .EMBRYO := by
    intro p q hq
    by_cases hp : (m.cpu c).spc = .ran p
    · exact (ht.child p q hp hq).imp_right fun h => ⟨hp, h⟩
    · cases ht.others p hp with
      | alloc hs hs' ht =>
        rw [ht] at hq
        cases hq
      | same | wake | reap | born => grind
  constructor
  case count => exact hcount
  case cpu => exact fun d => (ht.cpu d).2 (h.cpu d)
  case lock =>
    intro d
    by_cases hd : d = c
    · exact hd ▸ Passes.self ht.lock (h.lock c)
    · rw [Passes.other ht.lock hd,
        Mach.holds_congr (hspc d) (ht.intr d hd) fun p hp => (hrun d p hd hp).2]
      exact h.lock d
  case once =>
    intro d d' p hd hd'
    exact h.once d d' p (hspc d ▸ hd) (hspc d' ▸ hd')
  case ran =>
    intro d p hp
    rw [hspc] at hp
    by_cases hd : d = c
    · exact ht.due p (hd ▸ hp)
    · rw [(hrun d p hd hp).1, (hrun d p hd hp).2]
      exact h.ran d p hp
  case chosen =>
    intro d p hp
    rw [hspc] at hp
    have hs := h.chosen d p hp
    rw [hkept p ?_ (.inl hs), hs]
    intro hc
    have hcur : (m.cpu d).spc.cur = some p := by
      cases hd : (m.cpu d).spc <;> simp_all [SPc.chosen, SPc.cur]
    obtain rfl := h.once d c p hcur (by rw [hc]; rfl)
    rw [hc] at hp
    cases hp
  case enter =>
    intro d p hp
    rw [hspc] at hp
    have hs := h.enter d p hp
    rw [hkept p ?_ (.inr hs), hs]
    intro hc
    obtain rfl := h.once d c p (by rw [hp]; rfl) (by rw [hc]; rfl)
    rw [hc] at hp
    cases hp
  case off =>
    intro p hp
    have hoff : ∀ d, (m.cpu d).spc ≠ .ran p := fun d => hspc d ▸ hp d
    have hold := h.off p hoff
    have hc := h.child
    cases ht.others p (hoff c) with
    | alloc hs hs' ht => exact .inr (.inr (by rw [ht]; rfl))
    | same | wake | reap | born => grind
  case running =>
    intro p hp
    simp only [hspc]
    by_cases hc : (m.cpu c).spc = .ran p
    · exact ⟨c, .inl hc⟩
    · exact h.running p (by cases ht.others p hc <;> grind)
  case child =>
    intro p q hq
    rcases hchild p q hq with hq' | ⟨-, -, hs⟩
    · have hs := h.child p q hq'
      have honly := h.only
      cases ht.others q fun hc => (h.ran_state hc).2 hs <;> grind
    · exact hs
  case only =>
    have hc := h.child
    have honly := h.only
    grind
  case ok =>
    intro p
    by_cases hc : (m.cpu c).spc = .ran p
    · exact ht.ok p hc
    · have hok := h.ok p
      cases ht.others p hc with
      | alloc hs hs' ht => exact fun h => absurd (congrArg Pos.intr ht) h
      | same | wake | reap | born => grind

/-! ## The locks of a CPU -/

/-- The count depends on the locks and `ncli` only. -/
theorem Mach.Counted.congr (h : m.Counted) (hn : ∀ d, (m'.cpu d).ncli = (m.cpu d).ncli)
    (hh : m'.held = m.held) (hl : m'.lock = m.lock) : m'.Counted := by
  intro c
  rw [hn, hh, hl]
  exact h c

/-- A CPU that may be interrupted does not hold `ptable.lock`. -/
theorem Mach.Counted.enabled (h : m.Counted) (h0 : (m.cpu c).ncli = 0) : m.lock ≠ some c := by
  intro hl
  obtain ⟨S, -, hS⟩ := h c
  rw [if_pos hl] at hS
  omega

variable [DecidableEq Λ] {e : Effect n Λ} {a : Act n Λ}

/-- **`ncli` is the number of locks** after every statement. -/
theorem Mach.Counted.apply (h : m.Counted) (ha : m.apply c e = some m') : m'.Counted := by
  cases e with
  | nop | wakeup1 | alloc | unalloc | adopt | ready | fall | tidy | giveup | reap | fault | run =>
    cases ha
    exact h.congr (fun _ => rfl) rfl rfl
  | setproc | load | enter | unload | clear =>
    cases ha
    refine h.congr (fun d => ?_) rfl rfl
    rw [Mach.setCpu_cpu]
    split <;> rfl
  | exit me =>
    cases ha
    rw [Mach.exit_eq]
    exact h.congr (fun _ => rfl) rfl rfl
  | kill pid =>
    cases ha
    rcases m.kill_cases pid with h' | ⟨i, -, h'⟩
    · rw [h']
      exact h
    · rw [h']
      exact h.congr (fun _ => rfl) rfl rfl
  | enabled =>
    obtain ⟨-, ⟨⟩⟩ := Option.ite_none_right_eq_some.1 ha
    exact h
  | sched me =>
    simp only [Mach.apply] at ha
    split at ha
    · split at ha
      · cases ha
        refine h.congr (fun d => ?_) rfl rfl
        rw [Mach.setCpu_cpu]
        split <;> rfl
      · cases ha
    · cases ha
  | lock
  | unlock =>
    obtain ⟨hl, ⟨⟩⟩ := Option.ite_none_right_eq_some.1 ha
    intro d
    obtain ⟨S, hS, hn⟩ := h d
    refine ⟨S, hS, ?_⟩
    rw [hl] at hn
    by_cases hd : d = c
    · subst hd
      simp [hn]
    · simp [hd, hn, Ne.symm hd]
  | lockOther l =>
    obtain ⟨hl, ⟨⟩⟩ := Option.ite_none_right_eq_some.1 ha
    intro d
    obtain ⟨S, hS, hn⟩ := h d
    by_cases hd : d = c
    · subst hd
      refine ⟨insert l S, fun l' => ?_, ?_⟩
      · by_cases hl' : l' = l <;> simp [hl', hS]
      · rw [Finset.card_insert_of_notMem (by simp [hS, hl])]
        by_cases hk : m.lock = some d <;> simp [hn, hk]
    · refine ⟨S, fun l' => ?_, by by_cases hk : m.lock = some d <;> simp [hd, hn, hk]⟩
      by_cases hl' : l' = l
      · subst hl'
        simp [hS, hl, Ne.symm hd]
      · simp [hl', hS]
  | unlockOther l =>
    obtain ⟨hl, ⟨⟩⟩ := Option.ite_none_right_eq_some.1 ha
    intro d
    obtain ⟨S, hS, hn⟩ := h d
    by_cases hd : d = c
    · subst hd
      refine ⟨S.erase l, fun l' => ?_, ?_⟩
      · by_cases hl' : l' = l <;> simp [hl', hS]
      · have hmem : l ∈ S := (hS l).2 hl
        have := Finset.card_pos.2 ⟨l, hmem⟩
        rw [Finset.card_erase_of_mem hmem]
        by_cases hk : m.lock = some d <;> simp [hn, hk]
        omega
    · refine ⟨S, fun l' => ?_, by by_cases hk : m.lock = some d <;> simp [hd, hn, hk]⟩
      by_cases hl' : l' = l
      · subst hl'
        simp [hS, hl, Ne.symm hd]
      · simp [hl', hS]

/-! ## Steps of a process -/

variable {t' : Pos (Fin n) Λ}

section
omit [DecidableEq Λ]

/-- `pushcli` and `popcli` change `ncli` only. -/
theorem Mach.setCpu_ncli (m : Mach n κ Λ) (c : κ) (f : Nat → Nat) (d : κ) :
    ∃ k, (m.setCpu c fun k => { k with ncli := f k.ncli }).cpu d = { m.cpu d with ncli := k } := by
  rw [Mach.setCpu_cpu]
  split
  · exact ⟨_, rfl⟩
  · exact ⟨_, rfl⟩

omit [DecidableEq κ]

/-- A step of the process `p` on the CPU `c`, from what it does to `p` and to the others. -/
theorem Turn.of_proc {t' : Pos (Fin n) Λ} (hp : (m.cpu c).spc = .ran p)
    (hcpu : ∀ d, ∃ k, m'.cpu d = { m.cpu d with ncli := k })
    (hpos : (m'.proc p).pos = t') (hok : t'.Ok) (hdue : (m'.proc p).state = t'.due)
    (hlock : Passes m.lock m'.lock c (m.proc p).pos.holds t'.holds)
    (hchild : ∀ q, t'.pc.child = some q → (m.proc p).pos.pc.child = some q ∨
      (m.proc q).state = .UNUSED ∧ (m'.proc q).state = .EMBRYO)
    (hothers : ∀ q, q ≠ p → Shift m m' c q) : Turn m m' c := by
  have hran : ∀ q, (m.cpu c).spc = .ran q → q = p := fun q hq => SPc.ran.inj (hq.symm.trans hp)
  have hspc : ∀ d, (m'.cpu d).spc = (m.cpu d).spc := by
    intro d
    obtain ⟨k, hk⟩ := hcpu d
    rw [hk]
  have hh : m.holds c = (m.proc p).pos.holds := by simp [Mach.holds, hp]
  have hh' : m'.holds c = t'.holds := by simp [Mach.holds, hspc, hp, hpos]
  constructor
  case cpu =>
    intro d
    refine ⟨hspc d, fun hd => ?_⟩
    obtain ⟨k, hk⟩ := hcpu d
    rw [hk]
    exact ⟨hd.on, hd.proc, hd.cr3⟩
  case intr =>
    intro d _
    obtain ⟨k, hk⟩ := hcpu d
    rw [hk]
  case lock =>
    rw [hh, hh']
    exact hlock
  case due =>
    intro q hq
    rw [hran q hq, hpos]
    exact hdue
  case ok =>
    intro q hq
    rw [hran q hq, hpos]
    exact hok
  case child => grind
  case others => exact fun q hq => hothers q fun h => hq (h ▸ hp)

/-- A process goes on, and no slot changes but for what the invariant does not speak of. -/
theorem Turn.of_same (hp : (m.cpu c).spc = .ran p)
    (hcpu : ∀ d, ∃ k, m'.cpu d = { m.cpu d with ncli := k }) (hok : t'.Ok)
    (hlock : Passes m.lock m'.lock c (m.proc p).pos.holds t'.holds)
    (hdue : (m.proc p).state = t'.due) (hchild : t'.pc.child = (m.proc p).pos.pc.child)
    (hpos : (m'.proc p).pos = t') (hs : ∀ q, (m'.proc q).state = (m.proc q).state)
    (hothers : ∀ q, q ≠ p → (m'.proc q).pos = (m.proc q).pos) : Turn m m' c :=
  .of_proc hp hcpu hpos hok ((hs p).trans hdue) hlock (fun _ hq => .inl (hchild ▸ hq))
    fun q hq => .same (hs q) (hothers q hq)

/-- The holder of the lock wakes a process, or leaves it as it is. -/
theorem Shift.of_wake (hl : m.lock = some c) (hs : (m'.proc q).state = (m.proc q).state ∨
      (m.proc q).state = .SLEEPING ∧ (m'.proc q).state = .RUNNABLE)
    (ht : (m'.proc q).pos = (m.proc q).pos) : Shift m m' c q := by
  rcases hs with hs | ⟨hs, hs'⟩
  · exact .same hs ht
  · exact .wake hl hs hs' ht

theorem Proc.wake_cases (r : Proc n Λ) (ch : Option (Chan (Fin n))) :
    (r.wake ch).state = r.state ∨ r.state = .SLEEPING ∧ (r.wake ch).state = .RUNNABLE := by
  rw [Proc.wake_state]
  split
  · exact .inr ⟨(by tauto), rfl⟩
  · exact .inl rfl

theorem Mach.exitState_cases (m : Mach n κ Λ) (hq : q ≠ p) : m.exitState p q = (m.proc q).state ∨
      (m.proc q).state = .SLEEPING ∧ m.exitState p q = .RUNNABLE := by
  rw [Mach.exitState, if_neg hq]
  split
  · exact .inr ⟨(by tauto), rfl⟩
  · exact .inl rfl

end

/-- **A statement of a process**, other than `sched`, leaves the schedulers where they are. -/
theorem Inv.turn (h : Inv m) (hp : (m.cpu c).spc = .ran p)
    (hn : (m.proc p).pos.next (m.view p) a = some (e, t'))
    (ha : (m.goto p t').apply c e = some m') (hne : e ≠ .sched p) : Turn m m' c := by
  have hspec := Pos.next_spec (h.ok p) hn
  have hdue := h.ran c p hp
  have hlock : m.lock = some c ↔ (m.proc p).pos.holds = true := by
    simpa [Mach.holds, hp] using h.lock c
  have hfree : (m.cpu c).ncli = 0 → (m.proc p).pos.holds = false := fun h0 =>
    Bool.eq_false_iff.2 (mt hlock.2 (h.count.enabled h0))
  have hok : t'.Ok := by
    refine Pos.next_ok (h.ok p) hn fun he => hfree ?_
    subst he
    by_contra h0
    have h1 : ¬ ((m.goto p t').cpu c).ncli = 0 := h0
    rw [Mach.apply, if_neg h1] at ha
    cases ha
  have hsame : ∀ d, ∃ k, m.cpu d = { m.cpu d with ncli := k } := fun d => ⟨_, rfl⟩
  have hpos : ((m.goto p t').proc p).pos = t' := by rw [Mach.goto_self]
  have hother : ∀ q, q ≠ p → ((m.goto p t').proc q).pos = (m.proc q).pos := fun q hq => by
    rw [Mach.goto_other hq]
  have hstate : ∀ q, ((m.goto p t').proc q).state = (m.proc q).state := fun q => Mach.goto_state
  cases e with
  | nop =>
    cases ha
    obtain ⟨⟨h₁, h2, h3⟩, h4⟩ := hspec
    exact .of_same hp hsame hok (.inl ⟨rfl, h₁⟩) (by rw [hdue, h2, h3]) h4 hpos hstate hother
  | enabled =>
    obtain ⟨h0, ⟨⟩⟩ := Option.ite_none_right_eq_some.1 ha
    have h₀ := hfree h0
    obtain ⟨h₁, h2⟩ := hspec h₀
    refine .of_same hp hsame hok (.inl ⟨rfl, h₁.trans h₀.symm⟩) ?_ h2 hpos hstate hother
    rw [hdue, Pos.due_of_free h₀, Pos.due_of_free h₁]
  | lock =>
    obtain ⟨hl, ⟨⟩⟩ := Option.ite_none_right_eq_some.1 ha
    obtain ⟨h₁, h2, h3, h4⟩ := hspec
    refine .of_same hp (Mach.setCpu_ncli _ c (· + 1)) hok (.inr (.inl ⟨hl, rfl, h2⟩)) ?_ h4 hpos
      hstate hother
    rw [hdue, Pos.due_of_free h₁, h3]
  | unlock =>
    obtain ⟨hl, ⟨⟩⟩ := Option.ite_none_right_eq_some.1 ha
    obtain ⟨h₁, h2, h3⟩ := hspec
    refine .of_same hp (Mach.setCpu_ncli _ c (· - 1)) hok (.inr (.inr ⟨hl, rfl, h2⟩)) ?_ h3 hpos
      hstate hother
    rw [hdue, Pos.due_of_free h2, h₁]
  | lockOther l =>
    obtain ⟨-, ⟨⟩⟩ := Option.ite_none_right_eq_some.1 ha
    obtain ⟨⟨h₁, h2, h3⟩, h4⟩ := hspec
    exact .of_same hp (Mach.setCpu_ncli _ c (· + 1)) hok (.inl ⟨rfl, h₁⟩) (by rw [hdue, h2, h3]) h4
      hpos hstate hother
  | unlockOther l =>
    obtain ⟨-, ⟨⟩⟩ := Option.ite_none_right_eq_some.1 ha
    obtain ⟨⟨h₁, h2, h3⟩, h4⟩ := hspec
    exact .of_same hp (Mach.setCpu_ncli _ c (· - 1)) hok (.inl ⟨rfl, h₁⟩) (by rw [hdue, h2, h3]) h4
      hpos hstate hother
  | wakeup1 ch =>
    cases ha
    obtain ⟨⟨h₁, h2, h3, h4⟩, h5⟩ := hspec
    refine .of_proc hp hsame ?_ hok ?_ (.inl ⟨rfl, h2.trans h₁.symm⟩)
      (fun _ hq => .inl (h5 ▸ hq)) fun q hq => ?_
    · simp [Mach.wakeup1, Proc.wake_state]
    · simp [Mach.wakeup1, Proc.wake_state, hdue, h3, h4]
    · refine .of_wake (hlock.2 h₁) ?_ ?_
      · simpa [Mach.wakeup1, Mach.goto_other hq] using Proc.wake_cases (m.proc q) (some ch)
      · simp [Mach.wakeup1, Mach.goto_other hq, Proc.wake_state]
  | kill pid =>
    cases ha
    obtain ⟨⟨h₁, h2, h3, h4⟩, h5⟩ := hspec
    have hrun : (m.proc p).state = .RUNNING := hdue.trans h3
    rcases (m.goto p t').kill_cases pid with hk | ⟨i, -, hk⟩
    · rw [hk]
      exact .of_same hp hsame hok (.inl ⟨rfl, h2.trans h₁.symm⟩) (by rw [hrun, h4]) h5 hpos hstate
        hother
    · rw [hk]
      refine .of_proc hp hsame ?_ hok ?_ (.inl ⟨rfl, h2.trans h₁.symm⟩)
        (fun _ hq => .inl (h5 ▸ hq)) fun q hq => ?_
      · by_cases hi : p = i <;> simp [hi, Proc.kill]
      · by_cases hi : p = i
        · simp [← hi, Proc.kill, hrun, h4]
        · simp [hi, hrun, h4]
      · refine .of_wake (hlock.2 h₁) ?_ ?_
        · by_cases hi : q = i
          · by_cases hs : (m.proc i).state = .SLEEPING <;> simp [hi, Proc.kill, hs]
          · simp [hi]
        · by_cases hi : q = i
          · simp [← hi, Proc.kill, Mach.goto_other hq]
          · simp [hi, Mach.goto_other hq]
  | alloc np =>
    cases ha
    obtain ⟨hu, ⟨h₁, h2, h3, h4⟩, h5, h6⟩ := hspec
    have hnp : (m.proc np).state = .UNUSED := by simpa using List.find?_some hu
    have hne : p ≠ np := by
      rintro rfl
      rw [hdue, h3] at hnp
      cases hnp
    refine .of_proc hp hsame ?_ hok ?_ (.inl ⟨rfl, h2.trans h₁.symm⟩) ?_ fun q hq => ?_
    · simp [Mach.alloc, hne]
    · simp [Mach.alloc, hne, hdue, h3, h4]
    · intro q hq
      obtain rfl := Option.some.inj (h6.symm.trans hq)
      exact .inr ⟨hnp, by simp [Mach.alloc]⟩
    · by_cases hqn : q = np
      · subst hqn
        exact .alloc hnp (by simp [Mach.alloc]) (by simp [Mach.alloc])
      · exact .same (by simp [Mach.alloc, hqn]) (by simp [Mach.alloc, hqn, Mach.goto_other hq])
  | unalloc np | ready np =>
    cases ha
    obtain ⟨⟨h₁, h2, h3⟩, h4, h5⟩ := hspec
    have hne : p ≠ np := fun hpn => (h.ran_state hp).2 (hpn ▸ h.child p np h4)
    refine .of_proc hp hsame ?_ hok ?_ (.inl ⟨rfl, h₁⟩) (fun q hq => ?_) fun q hq => ?_
    · simp [hne]
    · simp [hne, hdue, h2, h3]
    · rw [h5] at hq
      cases hq
    · by_cases hqn : q = np
      · subst hqn
        refine .born (by simp [Proc.setState]) ?_ p hp h4 (by simp [hne, h5])
        simp [Proc.setState, Mach.goto_other hq]
      · exact .same (by simp [hqn]) (by simp [hqn, Mach.goto_other hq])
  | adopt me np =>
    cases ha
    obtain ⟨-, ⟨h₁, h2, h3⟩, h4, h5⟩ := hspec
    have hne : p ≠ np := fun hpn => (h.ran_state hp).2 (hpn ▸ h.child p np h4)
    refine .of_same hp hsame hok (.inl ⟨rfl, h₁⟩) (by rw [hdue, h2, h3]) (h5.trans h4.symm)
      ?_ (fun q => ?_) fun q hq => ?_
    · simp [hne]
    · by_cases hqn : q = np <;> simp [hqn]
    · by_cases hqn : q = np
      · simp [← hqn, Mach.goto_other hq]
      · simp [hqn, Mach.goto_other hq]
  | tidy me | fault me =>
    cases ha
    obtain ⟨rfl, ⟨h₁, h2, h3⟩, h4⟩ := hspec
    refine .of_same hp hsame hok (.inl ⟨rfl, h₁⟩) (by rw [hdue, h2, h3]) h4 ?_ (fun q => ?_)
      fun q hq => ?_
    · simp
    · by_cases hqn : q = me <;> simp [hqn]
    · simp [hq, Mach.goto_other hq]
  | fall me _ | giveup me =>
    cases ha
    obtain ⟨rfl, ⟨h₁, h2, h3, h4⟩, h5⟩ := hspec
    refine .of_proc hp hsame ?_ hok ?_ (.inl ⟨rfl, h2.trans h₁.symm⟩)
      (fun _ hq => .inl (h5 ▸ hq)) fun q hq => .same ?_ ?_
    · simp [Proc.setState]
    · simp [Proc.setState, h4]
    · simp [hq]
    · simp [hq, Mach.goto_other hq]
  | exit me =>
    cases ha
    obtain ⟨rfl, ⟨h₁, h2, h3, h4⟩, h5⟩ := hspec
    rw [Mach.exit_eq]
    refine .of_proc hp hsame ?_ hok ?_ (.inl ⟨rfl, h2.trans h₁.symm⟩)
      (fun _ hq => .inl (h5 ▸ hq)) fun q hq => .of_wake (hlock.2 h₁) ?_ ?_
    · simp
    · simp [Mach.exitState, h4]
    · simpa using Mach.exitState_cases (m.goto me t') hq
    · simp [Mach.goto_other hq]
  | reap me q =>
    cases ha
    obtain ⟨rfl, hz, ⟨h₁, h2, h3, h4⟩, h5⟩ := hspec
    have hq : (m.proc q).state = .ZOMBIE := by
      have := List.find?_some hz
      simp only [decide_eq_true_eq] at this
      exact this.2
    have hne : me ≠ q := by
      rintro rfl
      rw [hdue, h3] at hq
      cases hq
    refine .of_proc hp hsame ?_ hok ?_ (.inl ⟨rfl, h2.trans h₁.symm⟩)
      (fun _ hq => .inl (h5 ▸ hq)) fun r hr => ?_
    · simp [Mach.reap, hne]
    · simp [Mach.reap, hne, hdue, h3, h4]
    · by_cases hrq : r = q
      · subst hrq
        exact .reap (hlock.2 h₁) hq (by simp [Mach.reap]) (by simp [Mach.reap, Mach.goto_other hr])
      · exact .same (by simp [Mach.reap, hrq]) (by simp [Mach.reap, hrq, Mach.goto_other hr])
  | sched me =>
    obtain ⟨rfl, -⟩ := hspec
    exact absurd rfl hne
  | setproc | load | run | enter | unload | clear => exact hspec.elim

/-! ## Steps of a scheduler -/

omit [DecidableEq Λ] in
/-- A step of the CPU `c` that moves its scheduler, from what it does there. Only the process the
scheduler has turned to may change. -/
theorem Inv.jump (c : κ) (h : Inv m) (hcount : m'.Counted) (hcpu : ∀ d, d ≠ c → m'.cpu d = m.cpu d)
    (hc : (m'.cpu c).Ok) (hlock : Passes m.lock m'.lock c (m.holds c) (m'.holds c))
    (hother : ∀ q, (m.cpu c).spc.cur ≠ some q →
      (m'.proc q).state = (m.proc q).state ∧ (m'.proc q).pos = (m.proc q).pos)
    (hcur : ∀ q, (m'.cpu c).spc.cur = some q →
      (m.cpu c).spc.cur = some q ∨ (m.proc q).state = .RUNNABLE ∧ m.lock = some c)
    (hran : ∀ q, (m'.cpu c).spc = .ran q → (m'.proc q).state = (m'.proc q).pos.due)
    (hchosen : ∀ q, (m'.cpu c).spc.chosen = some q → (m'.proc q).state = .RUNNABLE)
    (henter : ∀ q, (m'.cpu c).spc = .enter q → (m'.proc q).state = .RUNNING)
    (hoff : ∀ q, (m.cpu c).spc.cur = some q → (m'.cpu c).spc ≠ .ran q →
      (m'.proc q).state = .ZOMBIE ∨ (m'.proc q).state = .UNUSED ∨ (m'.proc q).pos.resumes)
    (hrunning : ∀ q, (m.cpu c).spc.cur = some q → (m'.proc q).state = .RUNNING →
      (m'.cpu c).spc = .ran q ∨ (m'.cpu c).spc = .enter q)
    (hchild : ∀ q, (m'.proc q).pos.pc.child = (m.proc q).pos.pc.child)
    (hembryo : ∀ q, (m.proc q).state = .EMBRYO → (m'.proc q).state = .EMBRYO)
    (hok : ∀ q, (m'.proc q).pos.Ok) : Inv m' := by
  have hown : ∀ d q, d ≠ c → (m.cpu d).spc.cur = some q →
      (m'.proc q).state = (m.proc q).state ∧ (m'.proc q).pos = (m.proc q).pos :=
    fun d q hd hq => hother q fun hq' => hd (h.once d c q hq hq')
  -- a process another CPU has turned to is not one this scheduler turns to
  have hnew : ∀ d q, d ≠ c → (m.cpu d).spc.cur = some q → (m'.cpu c).spc.cur ≠ some q := by
    intro d q hd hq hq'
    rcases hcur q hq' with hq' | ⟨hs, hl⟩
    · exact hd (h.once d c q hq hq')
    · have hld : m.lock ≠ some d := by simpa [hl] using Ne.symm hd
      have hnh : m.holds d = false := Bool.eq_false_iff.2 (mt (h.lock d).2 hld)
      have hran : (m.cpu d).spc = .ran q := by
        revert hq hnh
        unfold Mach.holds
        cases (m.cpu d).spc <;> simp +contextual [SPc.cur]
      rw [h.ran_other hran hld] at hs
      cases hs
  have hcur' : ∀ x : SPc (Fin n), ∀ q, x = .ran q ∨ x = .enter q ∨ x.chosen = some q → x.cur = some q := by
    intro x q hx
    cases x <;> grind [SPc.chosen, SPc.cur]
  constructor
  case count => exact hcount
  case cpu =>
    intro d
    have := h.cpu d
    by_cases hd : d = c <;> grind
  case lock =>
    intro d
    by_cases hd : d = c
    · exact hd ▸ hlock.self (h.lock c)
    · rw [hlock.other hd, Mach.holds_congr (by rw [hcpu d hd]) (by rw [hcpu d hd])
        fun p hp => (hown d p hd (by rw [hp]; rfl)).2]
      exact h.lock d
  case once =>
    intro d d' q hq hq'
    have := h.once d d' q
    by_cases hd : d = c <;> by_cases hd' : d' = c <;> grind
  case ran =>
    intro d q hq
    have := h.ran d q
    by_cases hd : d = c <;> grind
  case chosen =>
    intro d q hq
    have := h.chosen d q
    by_cases hd : d = c <;> grind
  case enter =>
    intro d q hq
    have := h.enter d q
    by_cases hd : d = c <;> grind
  case off =>
    intro q hq
    by_cases hqc : (m.cpu c).spc.cur = some q
    · exact hoff q hqc (hq c)
    · obtain ⟨hs, ht⟩ := hother q hqc
      rw [hs, ht]
      refine h.off q fun d hd => ?_
      by_cases hdc : d = c <;> grind
  case running =>
    intro q hq
    by_cases hqc : (m.cpu c).spc.cur = some q
    · exact ⟨c, hrunning q hqc hq⟩
    · rw [(hother q hqc).1] at hq
      obtain ⟨d, hd⟩ := h.running q hq
      refine ⟨d, ?_⟩
      by_cases hdc : d = c <;> grind
  case child =>
    intro p q hq
    exact hembryo q (h.child p q (hchild p ▸ hq))
  case only =>
    intro p p' q hq hq'
    exact h.only p p' q (hchild p ▸ hq) (hchild p' ▸ hq')
  case ok => exact hok

/-- What `sched` checks, and that it goes back to the scheduler. -/
theorem Mach.apply_sched (ha : m.apply c (.sched p) = some m') : ∃ i, (m.cpu c).spc = .ran i ∧
    m.lock = some c ∧ (m.cpu c).ncli = 1 ∧ (m.proc p).state ≠ .RUNNING ∧
    m' = m.setCpu c fun k => { k with on := none, spc := .unload i } := by
  simp only [Mach.apply] at ha
  split at ha
  case h_2 => cases ha
  case h_1 i hi => grind

/-- **`sched`**: the process gives its CPU back to the scheduler, with the lock. -/
theorem Inv.sched (h : Inv m) (hp : (m.cpu c).spc = .ran p)
    (hn : (m.proc p).pos.next (m.view p) a = some (.sched p, t'))
    (ha : (m.goto p t').apply c (.sched p) = some m') : Inv m' := by
  obtain ⟨-, hh, hres, hchild⟩ := Pos.next_spec (h.ok p) hn
  have hok : t'.Ok := Pos.next_ok (h.ok p) hn (by simp)
  have hcount : m'.Counted :=
    Mach.Counted.apply (m := m.goto p t') (h.count.congr (fun _ => rfl) rfl rfl) ha
  have hcur : (m.cpu c).spc.cur = some p := by rw [hp]; rfl
  obtain ⟨i, hi, hl, -, hs, rfl⟩ := Mach.apply_sched ha
  obtain rfl : p = i := SPc.ran.inj (hp.symm.trans hi)
  have hspc : (((m.goto p t').setCpu c fun k => { k with on := none, spc := .unload p }).cpu c).spc
      = .unload p := by simp
  refine h.jump c hcount (fun d hd => by simp [hd]) ?_ (.inl ⟨rfl, ?_⟩) ?_ ?_ ?_ ?_ ?_ ?_ ?_ ?_ ?_ ?_
  · have := h.cpu c
    constructor <;> simp [SPc.on, SPc.cur, SPc.loaded, this.proc, this.cr3, hp]
  · simp [Mach.holds, hp, hh]
  · intro q hq
    have hqp : q ≠ p := fun h => hq (h ▸ hcur)
    simp [Mach.goto_other hqp]
  · intro q hq
    exact .inl (hcur.trans (by simpa [SPc.cur] using hq))
  · intro q hq
    rw [hspc] at hq
    cases hq
  · intro q hq
    rw [hspc] at hq
    cases hq
  · intro q hq
    rw [hspc] at hq
    cases hq
  · intro q hq _
    obtain rfl := Option.some.inj (hcur.symm.trans hq)
    rcases hres with hz | hr
    · exact .inl (by simp [h.ran c p hp, hz])
    · exact .inr (.inr (by simpa using hr))
  · intro q hq hr
    obtain rfl := Option.some.inj (hcur.symm.trans hq)
    exact absurd hr hs
  · intro q
    by_cases hqp : q = p
    · simp [hqp, hchild]
    · simp [Mach.goto_other hqp]
  · simp
  · intro q
    by_cases hqp : q = p
    · simpa [hqp] using hok
    · simpa [Mach.goto_other hqp] using h.ok q

omit [DecidableEq Λ] in
/-- A process a scheduler has turned to and not entered is where it can be resumed. -/
theorem Inv.turned (h : Inv m) (hq : (m.cpu c).spc.cur = some q) (hr : (m.cpu c).spc ≠ .ran q) :
    (m.proc q).state = .ZOMBIE ∨ (m.proc q).state = .UNUSED ∨ (m.proc q).pos.resumes := by
  refine h.off q fun d hd => ?_
  obtain rfl := h.once c d q hq (by rw [hd]; rfl)
  exact hr hd

omit [DecidableEq Λ] in
/-- A step that moves a scheduler to `s'` and changes no process. -/
theorem Inv.jump_same (c : κ) (s' : SPc (Fin n)) (h : Inv m) (hcount : m'.Counted)
    (hoff : ∀ q, (m.cpu c).spc ≠ .ran q) (hcpu : ∀ d, d ≠ c → m'.cpu d = m.cpu d)
    (hspc : (m'.cpu c).spc = s') (hproc : m'.proc = m.proc) (hc : (m'.cpu c).Ok)
    (hlock : Passes m.lock m'.lock c (m.holds c) (m'.holds c))
    (hrunning : ∀ q, (m.cpu c).spc.cur = some q → (m.proc q).state = .RUNNING → s' = .ran q)
    (hcur : ∀ q, s'.cur = some q → (m.cpu c).spc.cur = some q ∨
      (m.proc q).state = .RUNNABLE ∧ m.lock = some c := by rintro _ ⟨⟩)
    (hran : ∀ q, s' = .ran q → (m.proc q).state = (m.proc q).pos.due := by rintro _ ⟨⟩)
    (hchosen : ∀ q, s'.chosen = some q → (m.proc q).state = .RUNNABLE := by rintro _ ⟨⟩)
    (henter : ∀ q, s' ≠ .enter q := by rintro _ ⟨⟩) : Inv m' := by
  subst hspc
  refine h.jump c hcount hcpu hc hlock ?_ hcur ?_ ?_ ?_ ?_ ?_ ?_ ?_ ?_ <;> rw [hproc]
  · exact fun q _ => ⟨rfl, rfl⟩
  · exact hran
  · exact hchosen
  · exact fun q hq => absurd hq (henter q)
  · exact fun q hq _ => h.turned hq (hoff q)
  · exact fun q hq hs => .inl (hrunning q hq hs)
  · exact fun q => rfl
  · exact fun q hq => hq
  · exact h.ok

omit [DecidableEq Λ] in
/-- A process that gave the CPU up is not `RUNNING`. -/
theorem Inv.gone (h : Inv m) (hq : (m.cpu c).spc.cur = some q)
    (h1 : (m.cpu c).spc ≠ .ran q) (h2 : (m.cpu c).spc ≠ .enter q) :
    (m.proc q).state ≠ .RUNNING := by
  intro hs
  obtain ⟨d, hd⟩ := h.running q hs
  have hdq : (m.cpu d).spc.cur = some q := by
    rcases hd with hd | hd <;> rw [hd] <;> rfl
  obtain rfl := h.once c d q hq hdq
  exact hd.elim h1 h2

/-- **A statement of `scheduler`.** -/
theorem Inv.scheduler {x : SPc (Fin n) × Option (Code (Fin n))} (h : Inv m)
    (hi : (m.cpu c).spc ≠ .idle)
    (hn : (m.cpu c).spc.next (fun i => (m.proc i).state = .RUNNABLE) a (m.cpu c).intr =
      some (e, x))
    (ha : (m.gotoSched c x).apply c e = some m') : Inv m' := by
  have hcount : m'.Counted := by
    refine Mach.Counted.apply (m := m.gotoSched c x) (h.count.congr (fun d => ?_) rfl rfl) ha
    rw [Mach.gotoSched, Mach.setCpu_cpu]
    split <;> rfl
  have hc := h.cpu c
  have hheld : (∀ q, (m.cpu c).spc ≠ .ran q) → m.holds c = true := by grind [Mach.holds]
  have hcpu : ∀ d, d ≠ c → (m.gotoSched c x).cpu d = m.cpu d := fun d hd => by
    simp [Mach.gotoSched, hd]
  cases hs : (m.cpu c).spc with
  | idle => exact absurd hs hi
  | ran q =>
    rw [hs] at hn
    cases hn
  | scan j =>
    have hl : m.lock = some c := (h.lock c).2 (hheld (by simp [hs]))
    rw [hs] at hn
    simp only [SPc.next] at hn
    split at hn
    · split at hn
      · rename_i hj hr
        cases hn
        cases ha
        refine h.jump_same c (.load ⟨j, hj⟩) hcount (by simp [hs]) (fun d hd => by simp [hcpu d hd, hd])
          (by simp [Mach.gotoSched]) rfl ?_ (.inl ⟨rfl, by simp [Mach.holds, Mach.gotoSched, hs]⟩)
          (by simp [hs, SPc.cur]) ?_ (by rintro _ ⟨⟩) ?_
        · constructor <;>
            simp [Mach.gotoSched, SPc.on, SPc.cur, SPc.loaded, hc.on, hc.cr3, hs]
        · rintro q ⟨⟩
          exact .inr ⟨by simpa using hr, hl⟩
        · rintro q ⟨⟩
          simpa using hr
      · cases hn
        cases ha
        refine h.jump_same c (.scan (j + 1)) hcount (by simp [hs]) hcpu (by simp [Mach.gotoSched]) rfl ?_
          (.inl ⟨rfl, by simp [Mach.holds, Mach.gotoSched, hs]⟩) (by simp [hs, SPc.cur])
        constructor <;>
          simp [Mach.gotoSched, SPc.on, SPc.cur, SPc.loaded, hc.on, hc.proc, hc.cr3, hs]
    · cases hn
      obtain ⟨-, ⟨⟩⟩ := Option.ite_none_right_eq_some.1 ha
      refine h.jump_same c .idle hcount (by simp [hs]) (fun d hd => by simp [hcpu d hd, hd])
        (by simp [Mach.gotoSched]) rfl ?_
        (.inr (.inr ⟨hl, rfl, by simp [Mach.holds, Mach.gotoSched]⟩)) (by simp [hs, SPc.cur])
      constructor <;>
        simp [Mach.gotoSched, SPc.on, SPc.cur, SPc.loaded, hc.on, hc.proc, hc.cr3, hs]
  | load i =>
    have hrun : (m.proc i).state = .RUNNABLE := h.chosen c i (by rw [hs]; rfl)
    rw [hs] at hn
    cases hn
    cases ha
    refine h.jump_same c (.mark i) hcount (by simp [hs]) (fun d hd => by simp [hcpu d hd, hd])
      (by simp [Mach.gotoSched]) rfl ?_ (.inl ⟨rfl, by simp [Mach.holds, Mach.gotoSched, hs]⟩) ?_
      (fun q hq => .inl (by rw [hs]; exact hq)) (by rintro _ ⟨⟩) ?_
    · constructor <;> simp [Mach.gotoSched, SPc.on, SPc.cur, SPc.loaded, hc.on, hc.proc, hs]
    · grind [SPc.cur]
    · rintro q ⟨⟩
      exact hrun
  | mark i =>
    have hrun : (m.proc i).state = .RUNNABLE := h.chosen c i (by rw [hs]; rfl)
    have hcur : (m.cpu c).spc.cur = some i := by rw [hs]; rfl
    have hres := h.turned hcur (by simp [hs])
    simp only [hrun, reduceCtorEq, false_or] at hres
    rw [hs] at hn
    cases hn
    cases ha
    have hspc : (((m.gotoSched c (.enter i, none)).setProc i
        (Proc.setState .RUNNING)).cpu c).spc = .enter i := by simp [Mach.gotoSched]
    refine h.jump c hcount (fun d hd => by simp [Mach.gotoSched, hd]) ?_
      (.inl ⟨rfl, by simp [Mach.holds, Mach.gotoSched, hs]⟩) ?_ ?_ ?_ ?_ ?_ ?_ ?_ ?_ ?_ ?_
    · constructor <;>
        simp [Mach.gotoSched, SPc.on, SPc.cur, SPc.loaded, hc.on, hc.proc, hc.cr3, hs]
    · intro q hq
      have hqi : q ≠ i := fun h => hq (h ▸ hcur)
      simp [Mach.gotoSched, hqi]
    · intro q hq
      exact .inl (by simpa [Mach.gotoSched, SPc.cur, hs] using hq)
    · intro q hq
      rw [hspc] at hq
      cases hq
    · intro q hq
      rw [hspc] at hq
      cases hq
    · intro q hq
      obtain rfl := SPc.enter.inj (hspc.symm.trans hq)
      simp [Proc.setState]
    · intro q hq _
      obtain rfl := Option.some.inj (hcur.symm.trans hq)
      exact .inr (.inr (by simpa [Mach.gotoSched, Proc.setState] using hres))
    · grind
    · intro q
      by_cases hqi : q = i <;> simp [hqi, Mach.gotoSched, Proc.setState]
    · intro q hq
      have hqi : q ≠ i := by
        rintro rfl
        rw [hrun] at hq
        cases hq
      simpa [hqi, Mach.gotoSched] using hq
    · intro q
      by_cases hqi : q = i
      · simpa [hqi, Mach.gotoSched, Proc.setState] using h.ok i
      · simpa [hqi, Mach.gotoSched] using h.ok q
  | enter i =>
    have hrun : (m.proc i).state = .RUNNING := h.enter c i hs
    have hres := h.turned (q := i) (by rw [hs]; rfl) (by simp [hs])
    simp only [hrun, reduceCtorEq, false_or] at hres
    rw [hs] at hn
    cases hn
    cases ha
    refine h.jump_same c (.ran i) hcount (by simp [hs]) (fun d hd => by simp [hcpu d hd, hd])
      (by simp [Mach.gotoSched]) rfl ?_ (.inl ⟨rfl, ?_⟩) ?_ (fun q hq => .inl (by rw [hs]; exact hq)) ?_
    · constructor <;> simp [Mach.gotoSched, SPc.on, SPc.cur, SPc.loaded, hc.proc, hc.cr3, hs]
    · simp [Mach.holds, Mach.gotoSched, hs, Pos.resumes_holds hres]
    · intro q hq _
      rw [hs] at hq
      cases hq
      rfl
    · rintro q ⟨⟩
      rw [hrun, Pos.resumes_due hres]
  | unload i =>
    have hgone := h.gone (c := c) (q := i) (by rw [hs]; rfl) (by simp [hs]) (by simp [hs])
    rw [hs] at hn
    cases hn
    cases ha
    refine h.jump_same c (.clear i) hcount (by simp [hs]) (fun d hd => by simp [hcpu d hd, hd])
      (by simp [Mach.gotoSched]) rfl ?_ (.inl ⟨rfl, by simp [Mach.holds, Mach.gotoSched, hs]⟩) ?_
      (by simp [hs, SPc.cur])
    · constructor <;>
        simp [Mach.gotoSched, SPc.on, SPc.cur, SPc.loaded, hc.on, hc.proc, hc.cr3, hs]
    · intro q hq hr
      rw [hs] at hq
      cases hq
      exact absurd hr hgone
  | clear i =>
    have hgone := h.gone (c := c) (q := i) (by rw [hs]; rfl) (by simp [hs]) (by simp [hs])
    rw [hs] at hn
    cases hn
    cases ha
    refine h.jump_same c (.scan (i + 1)) hcount (by simp [hs]) (fun d hd => by simp [hcpu d hd, hd])
      (by simp [Mach.gotoSched]) rfl ?_ (.inl ⟨rfl, by simp [Mach.holds, Mach.gotoSched, hs]⟩) ?_
    · constructor <;>
        simp [Mach.gotoSched, SPc.on, SPc.cur, SPc.loaded, hc.on, hc.proc, hc.cr3, hs]
    · intro q hq hr
      rw [hs] at hq
      cases hq
      exact absurd hr hgone

/-! ## Interrupts of a scheduler -/

omit [DecidableEq κ] [DecidableEq Λ] in
/-- A step of an interrupt that came to the scheduler of the CPU `c`. -/
theorem Turn.of_intr (hi : (m.cpu c).spc = .idle)
    (hcpu : ∀ d, (m'.cpu d).spc = (m.cpu d).spc ∧ ((m.cpu d).Ok → (m'.cpu d).Ok))
    (hintr : ∀ d, d ≠ c → (m'.cpu d).intr = (m.cpu d).intr)
    (hlock : Passes m.lock m'.lock c (m.holds c) (m'.holds c))
    (hothers : ∀ q, Shift m m' c q) : Turn m m' c := by
  constructor
  case cpu => exact hcpu
  case intr => exact hintr
  case lock => exact hlock
  case others => exact fun q _ => hothers q
  all_goals simp [hi]

/-- **A statement of an interrupt handler on a CPU that runs no process**, or the call of
`acquire` in `scheduler`. -/
theorem Inv.idle {x : SPc (Fin n) × Option (Code (Fin n))} (h : Inv m) (hi : (m.cpu c).spc = .idle)
    (hn : (m.cpu c).spc.next (fun i => (m.proc i).state = .RUNNABLE) a (m.cpu c).intr =
      some (e, x))
    (ha : (m.gotoSched c x).apply c e = some m') : Inv m' := by
  have hcount : m'.Counted := by
    refine Mach.Counted.apply (m := m.gotoSched c x) (h.count.congr (fun d => ?_) rfl rfl) ha
    rw [Mach.gotoSched, Mach.setCpu_cpu]
    split <;> rfl
  have hc := h.cpu c
  have hcpu : ∀ d, d ≠ c → (m.gotoSched c x).cpu d = m.cpu d := by
    intro d hd
    simp [Mach.gotoSched, hd]
  -- a handler leaves the scheduler and the fields of its CPU as they are
  have hface : x.1 = .idle → ∀ f : Nat → Nat, ∀ d,
      (((m.gotoSched c x).setCpu c fun k => { k with ncli := f k.ncli }).cpu d).spc = (m.cpu d).spc ∧
      ((m.cpu d).Ok →
        (((m.gotoSched c x).setCpu c fun k => { k with ncli := f k.ncli }).cpu d).Ok) := by
    intro hx f d
    by_cases hd : d = c
    · subst hd
      simp only [Mach.gotoSched, Mach.setCpu_cpu, if_true, hx, hi, true_and]
      exact fun h => ⟨h.on.trans (by rw [hi]), h.proc.trans (by rw [hi]), h.cr3.trans (by rw [hi])⟩
    · simp [Mach.gotoSched, hd]
  have hface0 : x.1 = .idle → ∀ d, ((m.gotoSched c x).cpu d).spc = (m.cpu d).spc ∧
      ((m.cpu d).Ok → ((m.gotoSched c x).cpu d).Ok) := by
    intro hx d
    have := hface hx id d
    by_cases hd : d = c
    · simpa [hd] using this
    · simpa [hd] using this
  have hholds : m.holds c = ((m.cpu c).intr.map Code.holds).getD false := by
    simp [Mach.holds, hi]
  rw [hi] at hn
  simp only [SPc.next] at hn
  split at hn
  case h_1 hk =>
    cases hn
    obtain ⟨hl, ⟨⟩⟩ := Option.ite_none_right_eq_some.1 ha
    refine h.jump_same c (.scan 0) hcount (by simp [hi]) (fun d hd => by simp [hcpu d hd, hd])
      (by simp [Mach.gotoSched]) rfl ?_
      (.inr (.inl ⟨hl, rfl, by simp [Mach.holds, Mach.gotoSched]⟩)) (by simp [hi, SPc.cur])
    constructor <;> simp [Mach.gotoSched, SPc.on, SPc.cur, SPc.loaded, hc.on, hc.proc, hc.cr3, hi]
  case h_2 hk =>
    cases hn
    obtain ⟨hl, ⟨⟩⟩ := Option.ite_none_right_eq_some.1 ha
    refine Turn.inv (c := c) h (.of_intr hi (hface0 rfl) (fun d hd => by rw [hcpu d hd]) (.inl ⟨rfl, ?_⟩)
      fun q => .same rfl rfl) hcount
    rw [hholds, hk]
    simp [Mach.holds, Mach.gotoSched, Code.holds]
  case h_3 => cases hn
  case h_4 hk =>
    cases hn
    obtain ⟨hl, ⟨⟩⟩ := Option.ite_none_right_eq_some.1 ha
    refine Turn.inv (c := c) h (.of_intr hi (hface0 rfl) (fun d hd => by rw [hcpu d hd]) (.inl ⟨rfl, ?_⟩)
      fun q => .same rfl rfl) hcount
    rw [hholds, hk]
    simp [Mach.holds, Mach.gotoSched, Code.holds]
  case h_5 _ k hk _ =>
    obtain ⟨⟨e', k'⟩, hcode, hx⟩ := Option.map_eq_some_iff.1 hn
    obtain ⟨rfl, rfl⟩ := Prod.mk.inj hx
    have hk0 : m.holds c = k.holds := by rw [hholds, hk]; rfl
    have hk1 : (m.gotoSched c (.idle, some k')).holds c = k'.holds := by
      simp [Mach.holds, Mach.gotoSched]
    have hintr : ∀ f : Nat → Nat, ∀ d, d ≠ c →
        (((m.gotoSched c (.idle, some k')).setCpu c fun k => { k with ncli := f k.ncli }).cpu d).intr
          = (m.cpu d).intr := by
      intro f d hd
      simp [Mach.gotoSched, hd]
    obtain ⟨rfl, hh⟩ | ⟨l, rfl, hh⟩ | ⟨l, rfl, hh⟩ | ⟨rfl, hh, hh'⟩ | ⟨ch, rfl, hh, hh'⟩ |
      ⟨rfl, hh, hh'⟩ := Code.next_spec hcode
    · cases ha
      exact Turn.inv (c := c) h (.of_intr hi (hface0 rfl) (fun d hd => by rw [hcpu d hd])
        (.inl ⟨rfl, by rw [hk0, hk1, hh]⟩) fun q => .same rfl rfl) hcount
    · obtain ⟨hl, ⟨⟩⟩ := Option.ite_none_right_eq_some.1 ha
      exact Turn.inv (c := c) h (.of_intr hi (hface rfl (· + 1)) (hintr (· + 1))
        (.inl ⟨rfl, by rw [hk0, ← hh]; simp [Mach.holds, Mach.gotoSched]⟩)
        fun q => .same rfl rfl) hcount
    · obtain ⟨hl, ⟨⟩⟩ := Option.ite_none_right_eq_some.1 ha
      exact Turn.inv (c := c) h (.of_intr hi (hface rfl (· - 1)) (hintr (· - 1))
        (.inl ⟨rfl, by rw [hk0, ← hh]; simp [Mach.holds, Mach.gotoSched]⟩)
        fun q => .same rfl rfl) hcount
    · obtain ⟨hl, ⟨⟩⟩ := Option.ite_none_right_eq_some.1 ha
      exact Turn.inv (c := c) h (.of_intr hi (hface rfl (· + 1)) (hintr (· + 1))
        (.inr (.inl ⟨hl, rfl, by rw [← hh']; simp [Mach.holds, Mach.gotoSched]⟩))
        fun q => .same rfl rfl) hcount
    · cases ha
      have hl : m.lock = some c := (h.lock c).2 (hk0.trans hh)
      refine Turn.inv (c := c) h (.of_intr hi (hface0 rfl) (fun d hd => by rw [← hcpu d hd]; rfl)
        (.inl ⟨rfl, ?_⟩) fun q => .of_wake hl ?_ ?_) hcount
      · rw [hk0, hh]
        simp [Mach.holds, Mach.wakeup1, Mach.gotoSched, hh']
      · exact Proc.wake_cases (m.proc q) (some ch)
      · simp [Mach.wakeup1, Mach.gotoSched, Proc.wake_state]
    · obtain ⟨hl, ⟨⟩⟩ := Option.ite_none_right_eq_some.1 ha
      exact Turn.inv (c := c) h (.of_intr hi (hface rfl (· - 1)) (hintr (· - 1))
        (.inr (.inr ⟨hl, rfl, by rw [← hh']; simp [Mach.holds, Mach.gotoSched]⟩))
        fun q => .same rfl rfl) hcount

/-! ## Every step -/

/-- **What one step is**: a statement of the process the CPU runs, which knows itself, or of its
scheduler. -/
theorem Mach.step_cases (h : ∀ c, (m.cpu c).Ok) (hs : m.step (c, a) = some m') :
    (∃ p e t, (m.cpu c).spc = .ran p ∧ (m.proc p).pos.next (m.view p) a = some (e, t) ∧
      (m.goto p t).apply c e = some m' ∧ m.effect (c, a) = some e) ∨
    ∃ e x, (∀ p, (m.cpu c).spc ≠ .ran p) ∧
      (m.cpu c).spc.next (fun i => (m.proc i).state = .RUNNABLE) a (m.cpu c).intr = some (e, x) ∧
      (m.gotoSched c x).apply c e = some m' ∧ m.effect (c, a) = some e := by
  obtain ⟨⟨e, m1⟩, hn, ha⟩ := Option.bind_eq_some_iff.1 hs
  have heff : m.effect (c, a) = some e := by rw [Mach.effect, hn]; rfl
  have hon := (h c).on
  unfold Mach.next at hn
  dsimp only at hn
  split at hn
  case h_1 p hp =>
    have hspc : (m.cpu c).spc = .ran p := by
      cases hsp : (m.cpu c).spc <;> simp_all [SPc.on]
    obtain ⟨me, hme, hn⟩ := Option.bind_eq_some_iff.1 hn
    obtain ⟨⟨e', t⟩, hr, hn⟩ := Option.bind_eq_some_iff.1 hn
    obtain ⟨rfl, rfl⟩ := Prod.mk.inj (Option.some.inj hn)
    have hmp : me = p := by
      have := (h c).proc.symm.trans hme
      rw [hspc] at this
      exact (Option.some.inj this).symm
    exact .inl ⟨p, _, t, hspc, hmp ▸ hr, ha, heff⟩
  case h_2 hp =>
    obtain ⟨⟨e', x⟩, hr, hn⟩ := Option.bind_eq_some_iff.1 hn
    obtain ⟨rfl, rfl⟩ := Prod.mk.inj (Option.some.inj hn)
    refine .inr ⟨_, x, fun p hspc => ?_, hr, ha, heff⟩
    rw [hp, hspc] at hon
    cases hon

/-- **Every step keeps the invariant.** -/
theorem Inv.step (h : Inv m) (hs : m.step (c, a) = some m') : Inv m' := by
  rcases Mach.step_cases h.cpu hs with ⟨p, e, t, hp, hn, ha, -⟩ | ⟨e, x, -, hn, ha, -⟩
  · by_cases he : e = .sched p
    · subst he
      exact h.sched hp hn ha
    · refine (h.turn hp hn ha he).inv h ?_
      exact Mach.Counted.apply (m := m.goto p t) (h.count.congr (fun _ => rfl) rfl rfl) ha
  · by_cases hi : (m.cpu c).spc = .idle
    · exact h.idle hi hn ha
    · exact h.scheduler hi hn ha

omit [DecidableEq Λ] in
/-- The machine after `main`. -/
theorem Inv.boot (init : Fin n) : Inv (Mach.boot κ Λ init) := by
  constructor
  case count => exact fun c => ⟨∅, by simp [Mach.boot], by simp [Mach.boot]⟩
  case cpu => exact fun c => ⟨rfl, rfl, rfl⟩
  case lock => simp [Mach.boot, Mach.holds]
  case once => simp [Mach.boot, SPc.cur]
  case ran => simp [Mach.boot]
  case chosen => simp [Mach.boot, SPc.chosen]
  case enter => simp [Mach.boot]
  case off => grind [Mach.boot, Pos.resumes, Proc.empty]
  case running =>
    intro p
    by_cases hp : p = init <;> simp [Mach.boot, hp, Proc.empty]
  case child =>
    intro p q
    by_cases hp : p = init <;> simp [Mach.boot, hp, Proc.empty, Pc.child]
  case only =>
    intro p p' q
    by_cases hp : p = init <;> simp [Mach.boot, hp, Proc.empty, Pc.child]
  case ok =>
    intro p
    by_cases hp : p = init <;> simp [Mach.boot, hp, Proc.empty, Pos.Ok]

/-- **The invariant holds in every reachable state.** -/
theorem Reach.inv (h : (sys n κ Λ).Reach m) : Inv m := by
  refine h.inv (I := Inv) ?_ ?_
  · rintro _ ⟨init, rfl⟩
    exact Inv.boot init
  · rintro m ⟨c, a⟩ m' hm hs
    exact hm.step hs

end

end Dixv6.Sched
