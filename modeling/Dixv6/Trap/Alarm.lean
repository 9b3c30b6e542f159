import Dixv6.Vm.Pointers

/-!
# The alarm

A process asks with `alarm(n, handler)` that its handler be called at every `n`-th tick of the timer
that finds it in user mode. `trap` counts the ticks in `struct proc` and calls the handler by hand: it
pushes the interrupted `eip` on the user stack and lets the process return to the handler. `step` is
one thing that happens to a slot of the process table, and `Asked` keeps apart from the kernel's
fields what the process has asked for and how many ticks it has had since.

**`alarm_exact`** says when the handler is entered at the right ticks and nothing but the stack of the
process is stored to: the stack pointer that the kernel stores through is the user's, and it is not
looked at; and nothing takes back the alarm of a process that has gone when its slot is used again.
-/

namespace Dixv6.Trap

open Lib

/-! ## `sys_alarm` and the timer -/

/-- The fields of `struct proc` that the alarm is about. -/
structure Proc where
  sz : UInt32
  alarmticks : UInt32
  alarmticked : UInt32
  alarmhandler : UInt32

/-- The registers in the trap frame that `trap` looks at. -/
structure Trapframe where
  cs : UInt32
  eip : UInt32
  esp : UInt32
  deriving DecidableEq

/-- One slot of the process table, what the addresses of its process hold, and the clock. -/
structure State where
  proc : Proc
  mem : Bytes
  ticks : UInt32

/-- The interrupt found the processor in user mode. -/
def Trapframe.user (tf : Trapframe) : Prop := tf.cs &&& 3 = 3

instance (tf : Trapframe) : Decidable tf.user := inferInstanceAs (Decidable (_ = _))

/-- `*(uint*)a = w`. -/
def storeUint (mem : Bytes) (a w : UInt32) : Bytes := fun i =>
  if i < 2 ^ 32 ∧ (i + 2 ^ 32 - a.toNat) % 2 ^ 32 < 4 then
    UInt8.ofNat (w.toNat / 256 ^ ((i + 2 ^ 32 - a.toNat) % 2 ^ 32))
  else mem i

/-- The arguments of `alarm`, if they pass the checks; `esp` is the user's stack pointer. -/
def alarmArgs (esp : UInt32) (s : State) : Option (UInt32 × UInt32) := do
  let ticks ← Vm.argint s.mem s.proc.sz.toNat esp.toNat 0
  let handler ← Vm.argptr s.mem s.proc.sz.toNat esp.toNat 1 1
  pure (.ofNat ticks, .ofNat handler)

/-- Set the alarm. -/
def sysAlarm (esp : UInt32) (s : State) : Int × State :=
  match alarmArgs esp s with
  | none => (-1, s)
  | some (ticks, handler) =>
    (0, { s with proc := { s.proc with
      alarmticks := ticks, alarmticked := 0, alarmhandler := handler } })

/-- The clock, which processor 0 keeps. -/
def tick (id : Nat) (s : State) : State := if id = 0 then { s with ticks := s.ticks + 1 } else s

/-- The timer's case of `trap`, on the processor `id` that runs the process: the trap frame to return
to, and the state. -/
def trapTimer (id : Nat) (tf : Trapframe) (s : State) : Trapframe × State :=
  let s := tick id s
  if tf.user ∧ s.proc.alarmhandler ≠ 0 then
    let p : Proc := { s.proc with alarmticked := s.proc.alarmticked + 1 }
    if p.alarmticked ≥ p.alarmticks then
      let p : Proc := { p with alarmticked := 0 }
      let esp := tf.esp - 4
      ({ tf with esp := esp, eip := p.alarmhandler },
        { s with proc := p, mem := storeUint s.mem esp tf.eip })
    else (tf, { s with proc := p })
  else (tf, s)

/-- What happens to a slot of the process table. -/
inductive Event where
  | alarm (esp : UInt32)
  /-- A timer interrupt on a processor that runs the process. -/
  | timer (id : Nat) (tf : Trapframe)
  /-- A timer interrupt on a processor that does not. -/
  | elsewhere (id : Nat)
  /-- The process runs, or the kernel for it: its size and its memory are now others. -/
  | runs (sz : UInt32) (mem : Bytes)
  /-- The process is gone, and `allocproc` gives the slot to a new one. -/
  | allocproc (sz : UInt32) (mem : Bytes)

def step (s : State) : Event → State
  | .alarm esp => (sysAlarm esp s).2
  | .timer id tf => (trapTimer id tf s).2
  | .elsewhere id => tick id s
  | .runs sz mem => { s with proc := { s.proc with sz := sz }, mem := mem }
  -- none of the alarm's fields is touched
  | .allocproc sz mem => { s with proc := { s.proc with sz := sz }, mem := mem }

/-! ## What was asked for -/

/-- The arguments of the last successful `alarm` in the slot, the ticks in user mode since, and
whether it was made by the process that has the slot now. -/
structure Asked where
  ticks : UInt32
  handler : UInt32
  count : Nat
  own : Bool

/-- The record of what was asked for. -/
def note (a : Option Asked) (s : State) : Event → Option Asked
  | .alarm esp => ((alarmArgs esp s).map fun q => ⟨q.1, q.2, 0, true⟩).or a
  | .timer _ tf => if tf.user then a.map fun q => { q with count := q.count + 1 } else a
  | .allocproc .. => a.map fun q => { q with own := false }
  | _ => a

/-- The next tick in user mode is one of every `ticks`. -/
def Asked.Due (q : Asked) : Prop := (q.count + 1) % q.ticks.toNat = 0

instance (q : Asked) : Decidable q.Due := inferInstanceAs (Decidable (_ = _))

/-- What a tick is meant to do. An address of `0` is no handler, and nothing is said about the ticks at
which a handler for every `0` ticks is entered. -/
structure TickLaw (a : Option Asked) (s : State) (tf : Trapframe) (r : Trapframe × State) : Prop where
  entered : tf.user → ∀ q, a = some q → q.own = true → q.handler ≠ 0 → q.ticks ≠ 0 → q.Due →
    r.1 = { tf with esp := tf.esp - 4, eip := q.handler }
  otherwise : (tf.user → ∀ q, a = some q → q.own = true → q.handler ≠ 0 → q.ticks ≠ 0 ∧ ¬ q.Due) →
    r.1 = tf
  /-- Nothing is stored unless the handler is entered. -/
  kept : r.1 = tf → r.2.mem = s.mem
  /-- Only the four bytes below the stack pointer are stored to. -/
  below : ∀ i, r.2.mem i ≠ s.mem i → ∃ j < 4, i = ((tf.esp - 4).toNat + j) % 2 ^ 32
  /-- They are in the memory of the process. -/
  confined : r.1 ≠ tf → (tf.esp - 4).toNat + 4 ≤ s.proc.sz.toNat

/-- At a tick at which the handler last set in the slot is due, it was set by the process that has the
slot, and there are four bytes of its memory below its stack pointer. -/
def TickOk (a : Option Asked) (s : State) (tf : Trapframe) : Prop :=
  tf.user → ∀ q ∈ a, q.handler ≠ 0 → q.ticks = 0 ∨ q.Due →
    q.own = true ∧ 4 ≤ tf.esp.toNat ∧ tf.esp.toNat ≤ s.proc.sz.toNat

/-- Every timer interrupt of a run has a property. -/
def AtTicks (P : Option Asked → State → Nat → Trapframe → Prop) :
    Option Asked → State → List Event → Prop
  | _, _, [] => True
  | a, s, .timer id tf :: l =>
    P a s id tf ∧ AtTicks P (note a s (.timer id tf)) (step s (.timer id tf)) l
  | a, s, e :: l => AtTicks P (note a s e) (step s e) l

/-- In the run, every tick does what it is meant to do. -/
def AlarmLaw (s : State) (l : List Event) : Prop :=
  AtTicks (fun a s id tf => TickLaw a s tf (trapTimer id tf s)) none s l

/-- In the run, no handler is due that is not the process's, or with a stack pointer outside its
memory. -/
def AlarmOk (s : State) (l : List Event) : Prop := AtTicks (fun a s _ tf => TickOk a s tf) none s l

/-! ## The count -/

/-- The kernel's fields agree with the record: its count is the record's, started again at every due
tick. -/
structure Counts (a : Option Asked) (p : Proc) : Prop where
  unset : a = none → p.alarmhandler = 0
  ticks : ∀ q, a = some q → p.alarmticks = q.ticks
  handler : ∀ q, a = some q → p.alarmhandler = q.handler
  ticked : ∀ q, a = some q → q.handler ≠ 0 →
    p.alarmticked.toNat = if q.ticks = 0 then 0 else q.count % q.ticks.toNat

section
variable {a : Option Asked} {s : State} {tf : Trapframe} {q : Asked} {p : Proc}

@[simp] theorem tick_proc (id : Nat) (s : State) : (tick id s).proc = s.proc := by
  rw [tick]
  split <;> rfl

@[simp] theorem tick_mem (id : Nat) (s : State) : (tick id s).mem = s.mem := by
  rw [tick]
  split <;> rfl

/-- Only the alarm's fields count. -/
theorem Counts.congr {p' : Proc} (h : Counts a p) (h1 : p'.alarmticks = p.alarmticks)
    (h2 : p'.alarmticked = p.alarmticked) (h3 : p'.alarmhandler = p.alarmhandler) : Counts a p' :=
  ⟨fun hn => h3 ▸ h.unset hn, fun q hq => h1 ▸ h.ticks q hq, fun q hq => h3 ▸ h.handler q hq,
    fun q hq hne => h2 ▸ h.ticked q hq hne⟩

/-- The next value of a count that starts again at `n`. -/
theorem succ_mod_cases {c n : Nat} (hn : 0 < n) :
    ((c + 1) % n = 0 ∧ c % n + 1 = n) ∨ ((c + 1) % n = c % n + 1 ∧ c % n + 1 < n) := by
  have hlt := Nat.mod_lt c hn
  rw [← Nat.mod_add_mod]
  rcases Nat.lt_or_eq_of_le (Nat.succ_le_of_lt hlt) with h | h
  · exact .inr ⟨Nat.mod_eq_of_lt h, h⟩
  · exact .inl ⟨by rw [← Nat.succ_eq_add_one, h, Nat.mod_self], h⟩

/-- The kernel's count after one more tick. -/
theorem Counts.succ_ticked (h : Counts (some q) p) (hne : q.handler ≠ 0) (h0 : q.ticks ≠ 0) :
    (p.alarmticked + 1).toNat = q.count % q.ticks.toNat + 1 ∧ 0 < q.ticks.toNat := by
  have hlt := q.ticks.toNat_lt
  have hpos : 0 < q.ticks.toNat := Nat.pos_of_ne_zero fun h => h0 (UInt32.toNat_inj.1 h)
  have hmod := Nat.mod_lt q.count hpos
  refine ⟨?_, hpos⟩
  rw [UInt32.toNat_add, h.ticked q rfl hne, if_neg h0]
  exact Nat.mod_eq_of_lt (show q.count % q.ticks.toNat + 1 < 2 ^ 32 by omega)

/-- **The comparison of `trap` finds the due ticks**, and every tick of an alarm for `0` ticks. -/
theorem Counts.due_iff (h : Counts (some q) p) (hne : q.handler ≠ 0) :
    p.alarmticked + 1 ≥ p.alarmticks ↔ q.ticks = 0 ∨ q.Due := by
  rw [h.ticks q rfl, ge_iff_le, UInt32.le_iff_toNat_le, Asked.Due]
  by_cases h0 : q.ticks = 0
  · rw [h0]
    exact iff_of_true (Nat.zero_le _) (.inl rfl)
  · obtain ⟨hnext, hpos⟩ := h.succ_ticked hne h0
    rw [hnext, or_iff_right h0]
    rcases succ_mod_cases (c := q.count) hpos with ⟨h1, h2⟩ | ⟨h1, h2⟩
    · exact iff_of_true h2.ge h1
    · grind

/-- A tick in user mode of a process without an alarm. -/
theorem trapTimer_skip (id : Nat) (h : tf.user → s.proc.alarmhandler = 0) :
    trapTimer id tf s = (tf, tick id s) := by
  rw [trapTimer, if_neg]
  rintro ⟨hu, hne⟩
  rw [tick_proc] at hne
  exact hne (h hu)

/-- **What a tick in user mode does.** -/
theorem Counts.trapTimer_eq (h : Counts (some q) s.proc) (hu : tf.user) (hne : q.handler ≠ 0)
    (id : Nat) : trapTimer id tf s =
      if q.ticks = 0 ∨ q.Due then
        ({ tf with esp := tf.esp - 4, eip := q.handler },
          { tick id s with proc := { s.proc with alarmticked := 0 },
                           mem := storeUint s.mem (tf.esp - 4) tf.eip })
      else (tf, { tick id s with
        proc := { s.proc with alarmticked := s.proc.alarmticked + 1 } }) := by
  simp only [trapTimer, tick_proc, tick_mem, h.due_iff hne, h.handler q rfl]
  rw [if_pos ⟨hu, hne⟩]

/-- A tick of the clock counts for nothing. -/
theorem Counts.tick (h : Counts a s.proc) (id : Nat) : Counts a (tick id s).proc := by
  rw [tick_proc]
  exact h

/-- The record and the kernel count alike. -/
theorem Counts.step (h : Counts a s.proc) (e : Event) : Counts (note a s e) (step s e).proc := by
  cases e with
  | alarm esp =>
    rw [note, Trap.step, sysAlarm]
    cases hargs : alarmArgs esp s with
    | none => exact h
    | some q =>
      refine ⟨fun hn => (nomatch hn), fun q' hq => ?_, fun q' hq => ?_, fun q' hq _ => ?_⟩ <;>
        obtain rfl := Option.some.inj hq
      · rfl
      · rfl
      · simp
  | elsewhere id => exact h.tick id
  | runs sz mem => exact h.congr rfl rfl rfl
  | allocproc sz mem =>
    cases a with
    | none => exact h.congr rfl rfl rfl
    | some q =>
      refine ⟨fun hn => (nomatch hn), fun q' hq => ?_, fun q' hq => ?_, fun q' hq hne => ?_⟩ <;>
        obtain rfl := Option.some.inj hq
      · exact h.ticks q rfl
      · exact h.handler q rfl
      · exact h.ticked q rfl hne
  | timer id tf =>
    rw [note, Trap.step]
    by_cases hu : tf.user
    swap
    · rw [if_neg hu, trapTimer_skip id fun h => absurd h hu]
      exact h.tick id
    rw [if_pos hu]
    cases a with
    | none =>
      rw [trapTimer_skip id fun _ => h.unset rfl]
      exact h.tick id
    | some q =>
      have hticks := h.ticks q rfl
      have hhandler := h.handler q rfl
      by_cases hne : q.handler = 0
      · rw [trapTimer_skip id fun _ => hhandler.trans hne]
        refine ⟨fun hn => (nomatch hn), fun q' hq => ?_, fun q' hq => ?_, fun q' hq hne' => ?_⟩ <;>
          obtain rfl := Option.some.inj hq
        · rw [tick_proc]
          exact hticks
        · rw [tick_proc]
          exact hhandler
        · exact absurd hne hne'
      rw [h.trapTimer_eq hu hne]
      refine ⟨fun hn => (nomatch hn), fun q' hq => ?_, fun q' hq => ?_, fun q' hq _ => ?_⟩ <;>
        obtain rfl := Option.some.inj hq
      · split <;> exact hticks
      · split <;> exact hhandler
      · by_cases h0 : q.ticks = 0
        · rw [if_pos (.inl h0), if_pos h0]
          rfl
        · obtain ⟨hnext, hpos⟩ := h.succ_ticked hne h0
          rw [if_neg h0]
          rcases succ_mod_cases (c := q.count) hpos with ⟨h1, h2⟩ | ⟨h1, h2⟩
          · rw [if_pos (.inr h1), h1]
            rfl
          · rw [if_neg (not_or.2 ⟨h0, by rw [Asked.Due, h1]; exact Nat.succ_ne_zero _⟩), h1]
            exact hnext

/-! ## One tick -/

/-- The stack pointer with four bytes below it. -/
theorem esp_confined {esp sz : UInt32} :
    (esp - 4).toNat + 4 ≤ sz.toNat ↔ 4 ≤ esp.toNat ∧ esp.toNat ≤ sz.toNat := by
  have h1 := esp.toNat_lt
  have h2 := sz.toNat_lt
  have h3 : (4 : UInt32).toNat = 4 := rfl
  rw [UInt32.toNat_sub, h3]
  omega

/-- The stack pointer moves. -/
theorem esp_sub_ne (esp : UInt32) : esp - 4 ≠ esp := by
  intro h
  have h2 := congrArg UInt32.toNat h
  have h3 : (4 : UInt32).toNat = 4 := rfl
  rw [UInt32.toNat_sub, h3] at h2
  omega

/-- A store changes its four bytes only. -/
theorem storeUint_below {mem : Bytes} {b w : UInt32} {i : Nat} (h : storeUint mem b w i ≠ mem i) :
    ∃ j < 4, i = (b.toNat + j) % 2 ^ 32 := by
  have hb := b.toNat_lt
  rw [storeUint] at h
  split at h
  · next hi =>
    exact ⟨_, hi.2, by omega⟩
  · exact absurd rfl h

/-- A tick that does not enter the handler. -/
theorem TickLaw.of_same {r : Trapframe × State} (h1 : r.1 = tf) (h2 : r.2.mem = s.mem)
    (h : tf.user → ∀ q, a = some q → q.own = true → q.handler ≠ 0 → q.ticks ≠ 0 → ¬ q.Due) :
    TickLaw a s tf r where
  entered hu q hq ho hh ht hd := absurd hd (h hu q hq ho hh ht)
  otherwise _ := h1
  kept _ := h2
  below i hi := absurd (congrFun h2 i) hi
  confined hne := absurd h1 hne

/-- **One tick.** -/
theorem Counts.tickLaw_iff (h : Counts a s.proc) (id : Nat) (tf : Trapframe) :
    TickLaw a s tf (trapTimer id tf s) ↔ TickOk a s tf := by
  by_cases hu : tf.user
  swap
  · rw [trapTimer_skip id fun h => absurd h hu]
    exact iff_of_true (.of_same rfl (tick_mem id s) fun h => absurd h hu) fun h => absurd h hu
  cases a with
  | none =>
    rw [trapTimer_skip id fun _ => h.unset rfl]
    exact iff_of_true (.of_same rfl (tick_mem id s) fun _ q hq => (nomatch hq)) fun _ q hq =>
      (nomatch hq)
  | some q =>
    by_cases hne : q.handler = 0
    · rw [trapTimer_skip id fun _ => (h.handler q rfl).trans hne]
      refine iff_of_true (.of_same rfl (tick_mem id s) fun _ q' hq _ hne' => ?_) fun _ q' hq hne' => ?_
      · exact absurd (Option.some.inj hq ▸ hne) hne'
      · exact absurd (Option.some.inj hq ▸ hne) hne'
    rw [h.trapTimer_eq hu hne]
    by_cases hd : q.ticks = 0 ∨ q.Due
    swap
    · rw [if_neg hd]
      refine iff_of_true (.of_same rfl (tick_mem id s) fun _ q' hq _ _ _ hd' => ?_)
        fun _ q' hq _ hd' => ?_
      · exact hd (.inr (Option.some.inj hq ▸ hd'))
      · exact absurd (Option.some.inj hq ▸ hd') hd
    rw [if_pos hd]
    have hmoved : ({ tf with esp := tf.esp - 4, eip := q.handler } : Trapframe) ≠ tf := fun he =>
      esp_sub_ne tf.esp (congrArg Trapframe.esp he)
    constructor
    · intro hlaw _ q' hq' _ _
      obtain rfl := Option.some.inj hq'
      refine ⟨?_, esp_confined.1 (hlaw.confined hmoved)⟩
      by_contra hown
      exact hmoved (hlaw.otherwise fun _ q' hq' ho => absurd (Option.some.inj hq' ▸ ho) hown)
    · intro hok
      obtain ⟨hown, hesp⟩ := hok hu q rfl hne hd
      refine ⟨fun _ q' hq' _ _ _ _ => by rw [Option.some.inj hq'], fun hno => ?_,
        fun he => absurd he hmoved, fun i hi => storeUint_below hi, fun _ => esp_confined.2 hesp⟩
      obtain ⟨h0, hnd⟩ := hno hu q rfl hown hne
      exact absurd (hd.resolve_left h0) hnd

/-! ## Runs -/

/-- Two properties that agree wherever the counts do, agree along a run. -/
theorem Counts.atTicks_iff {P Q : Option Asked → State → Nat → Trapframe → Prop}
    (hPQ : ∀ a s id tf, Counts a s.proc → (P a s id tf ↔ Q a s id tf)) :
    ∀ (l : List Event) (a : Option Asked) (s : State), Counts a s.proc →
      (AtTicks P a s l ↔ AtTicks Q a s l)
  | [], _, _, _ => Iff.rfl
  | e :: l, a, s, h => by
    have ih := Counts.atTicks_iff hPQ l _ _ (h.step e)
    cases e with
    | timer id tf => exact and_congr (hPQ a s id tf h) ih
    | alarm | elsewhere | runs | allocproc => exact ih

/-- **The alarm is counted and confined in a run if and only if** every handler that is due is that of
the process, and finds four bytes of its memory below its stack pointer. The slot has never been used
before. -/
theorem alarm_exact (h : s.proc.alarmhandler = 0) (l : List Event) : AlarmLaw s l ↔ AlarmOk s l :=
  Counts.atTicks_iff (fun _ _ id tf h => h.tickLaw_iff id tf) l none s
    ⟨fun _ => h, fun _ hq => (nomatch hq), fun _ hq => (nomatch hq), fun _ hq => (nomatch hq)⟩

end

/-- A process of one page, with the arguments of `alarm(1, 16)` above the stack pointer `96`. -/
def onePage : State where
  proc := ⟨4096, 0, 0, 0⟩
  mem i := if i = 100 then 1 else if i = 104 then 16 else 0
  ticks := 0

/-- Its handler is entered at the next tick. -/
theorem alarm_exact_onePage : onePage.proc.alarmhandler = 0 ∧
    AlarmLaw onePage [.alarm 96, .timer 0 ⟨0x1b, 8, 96⟩] :=
  ⟨rfl, (alarm_exact rfl _).2 ⟨fun _ q hq _ _ => by
    obtain rfl := Option.some.inj hq
    decide, trivial⟩⟩

/-- With a stack pointer in the kernel, `trap` stores there. -/
theorem alarm_stores_in_kernel :
    ¬ AlarmLaw onePage [.alarm 96, .timer 0 ⟨0x1b, 8, 0x80100000⟩] ∧
      (trapTimer 0 ⟨0x1b, 8, 0x80100000⟩ (sysAlarm 96 onePage).2).2.mem 0x800ffffc = 8 := by
  constructor
  · rintro ⟨hlaw, -⟩
    have hconf := hlaw.confined (by decide)
    revert hconf
    decide
  · decide

end Dixv6.Trap
