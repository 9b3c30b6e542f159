import Dixv6.Procs.Table

/-!
# What the slots of the process table remember

Slots are used again, and each function resets a different part of them. `step_slot` says once what
an event can do to a slot; everything here is derived from it.

`kill` looks for a pid without looking at the state of the slot, and free slots have pids: zero
where nobody was or somebody was reaped, and a pid of its own where a `fork` failed. **`kill_live`**
says when `kill` keeps to the processes there are, and that then nobody is born killed.

`fork` sets neither `killed` nor the fields of the alarm, and nothing else resets the latter.
**`fork_fresh`** says that this is all a new process inherits from its slot.
-/

namespace Dixv6.Procs

open Function

/-! ## Looking for a slot -/

variable {t t' : Table} {i np : Slot} {p : Proc} {e : Event} {pid : Int32}

theorem Table.find_eq_some {P : Proc → Bool} :
    t.find P = some i ↔ P (t.proc i) = true ∧ ∀ j < i, P (t.proc j) = false := by
  simp only [Table.find, Fin.find?_eq_some_iff]

theorem Table.find_eq_none {P : Proc → Bool} : t.find P = none ↔ ∀ i, P (t.proc i) = false := by
  simp only [Table.find, Fin.find?_eq_none_iff]

theorem Table.unused_spec (h : t.unused = some i) : (t.proc i).state = .UNUSED := by
  simpa using (Table.find_eq_some.1 h).1

/-! ## What an event does to a slot -/

/-- A process that runs, sleeps or is about to: neither a free slot nor a dead process. -/
def Proc.live (p : Proc) : Prop := p.state ≠ .UNUSED ∧ p.state ≠ .ZOMBIE

/-- A slot as another process leaves it: free, dead or alive as before, with the same flag, files
and alarm. -/
structure Kept (p p' : Proc) : Prop where
  unused : p'.state = .UNUSED ↔ p.state = .UNUSED
  zombie : p'.state = .ZOMBIE ↔ p.state = .ZOMBIE
  killed : p'.killed = p.killed
  ofile : p'.ofile = p.ofile
  ticks : p'.alarmticks = p.alarmticks
  ticked : p'.alarmticked = p.alarmticked
  handler : p'.alarmhandler = p.alarmhandler

theorem Kept.refl (p : Proc) : Kept p p := ⟨Iff.rfl, Iff.rfl, rfl, rfl, rfl, rfl, rfl⟩

theorem Kept.trans {q r : Proc} (h : Kept p q) (h' : Kept q r) : Kept p r where
  unused := h'.unused.trans h.unused
  zombie := h'.zombie.trans h.zombie
  killed := h'.killed.trans h.killed
  ofile := h'.ofile.trans h.ofile
  ticks := h'.ticks.trans h.ticks
  ticked := h'.ticked.trans h.ticked
  handler := h'.handler.trans h.handler

/-- A process that becomes `RUNNABLE`. -/
theorem kept_wakeup1 (t : Table) (ch : Chan) (j : Slot) :
    Kept (t.proc j) ((t.wakeup1 ch).proc j) := by
  simp only [Table.wakeup1_proc]
  split
  · next h =>
    refine ⟨?_, ?_, rfl, rfl, rfl, rfl, rfl⟩ <;> simp [h.1]
  · exact Kept.refl _

/-- The value of a system call changes nothing a slot remembers. -/
theorem kept_ret (t : Table) (i : Slot) (v : Int32) (j : Slot) :
    Kept (t.proc j) ((t.ret i v).proc j) := by
  by_cases hj : j = i
  · subst hj
    simp only [Table.ret, Table.set_proc, update_self]
    exact ⟨Iff.rfl, Iff.rfl, rfl, rfl, rfl, rfl, rfl⟩
  · simp only [Table.ret, Table.set_proc, update_of_ne hj]
    exact Kept.refl _

/-- Passing the children of a process on to `initproc`. -/
theorem kept_abandon (t : Table) (i j : Slot) : Kept (t.proc j) ((t.abandon i).proc j) := by
  have hpass : ∀ t' : Table, (∀ j, t'.proc j = if (t.proc j).parent = some i then
      { t.proc j with parent := some t.initproc } else t.proc j) → Kept (t.proc j) (t'.proc j) := by
    intro t' ht'
    rw [ht' j]
    split
    · exact ⟨Iff.rfl, Iff.rfl, rfl, rfl, rfl, rfl, rfl⟩
    · exact Kept.refl _
  unfold Table.abandon
  split
  · exact (hpass _ fun _ => rfl).trans (kept_wakeup1 _ _ j)
  · exact hpass _ fun _ => rfl

/-- What the event `e`, from `t` to `t'`, does to the slot `j`. -/
inductive SlotStep (t : Table) (e : Event) (t' : Table) (j : Slot) : Prop
  /-- Nothing it remembers. -/
  | kept (h : Kept (t.proc j) (t'.proc j)) (ha : t'.asked j = t.asked j)
  /-- Its process acts, and has its alarm from before or asks for it. -/
  | acts (h : (t.proc j).live) (h' : (t'.proc j).live)
      (hk : (t'.proc j).killed = (t.proc j).killed)
      (ha : t'.asked j = true ∨
        t'.asked j = t.asked j ∧ (t'.proc j).alarmhandler = (t.proc j).alarmhandler)
  | killed (i : Slot) (pid : Int32) (he : e = .kill i pid)
      (hf : t.find (fun p => p.pid = pid) = some j)
      (h : Kept (t.proc j) { t'.proc j with killed := (t.proc j).killed })
      (ha : t'.asked j = t.asked j)
  /-- Its process misbehaves. -/
  | fault (h : (t.proc j).live) (h' : (t'.proc j).live)
      (hh : (t'.proc j).alarmhandler = (t.proc j).alarmhandler) (ha : t'.asked j = t.asked j)
  /-- A process is born in it. -/
  | born (i : Slot) (he : e = .fork i true true) (hu : t.unused = some j)
      (h' : (t'.proc j).live) (hk : (t'.proc j).killed = (t.proc j).killed)
      (hh : (t'.proc j).alarmhandler = (t.proc j).alarmhandler) (ha : t'.asked j = false)
  | dies (h : (t.proc j).live) (h' : (t'.proc j).state = .ZOMBIE)
      (hf : ∀ fd, (t'.proc j).ofile fd = none)
      (hh : (t'.proc j).alarmhandler = (t.proc j).alarmhandler) (ha : t'.asked j = t.asked j)
  | reaped (h : (t.proc j).state = .ZOMBIE) (h' : (t'.proc j).state = .UNUSED)
      (hk : (t'.proc j).killed = false) (hf : (t'.proc j).ofile = (t.proc j).ofile)
      (ha : t'.asked j = t.asked j)

/-- An event that changes one slot. -/
theorem slotStep_set (j : Slot) (h : SlotStep t e (t.set i p) i) : SlotStep t e (t.set i p) j := by
  by_cases hj : j = i
  · exact hj ▸ h
  · refine .kept ?_ rfl
    rw [Table.set_proc, update_of_ne hj]
    exact Kept.refl _

/-- The value of a system call changes nothing a slot remembers. -/
theorem SlotStep.ret {j : Slot} (h : SlotStep t e t' j) (i : Slot)
    (v : Int32) : SlotStep t e (t'.ret i v) j := by
  have hkept := kept_ret t' i v j
  have hlive : (t'.proc j).live → ((t'.ret i v).proc j).live := fun hl =>
    ⟨fun hu => hl.1 (hkept.unused.1 hu), fun hz => hl.2 (hkept.zombie.1 hz)⟩
  cases h with
  | kept h ha => exact .kept (h.trans hkept) ha
  | acts h h' hk ha =>
    refine .acts h (hlive h') (hkept.killed.trans hk) (ha.imp_right ?_)
    rintro ⟨ha, hh⟩
    exact ⟨ha, hkept.handler.trans hh⟩
  | killed i pid he hf h ha =>
    refine .killed i pid he hf (h.trans ⟨hkept.unused, hkept.zombie, rfl, hkept.ofile, hkept.ticks,
      hkept.ticked, hkept.handler⟩) ha
  | fault h h' hh ha => exact .fault h (hlive h') (hkept.handler.trans hh) ha
  | born i he hu h' hk hh ha =>
    exact .born i he hu (hlive h') (hkept.killed.trans hk) (hkept.handler.trans hh) ha
  | dies h h' hf hh ha =>
    refine .dies h (hkept.zombie.2 h') (fun fd => ?_) (hkept.handler.trans hh) ha
    rw [hkept.ofile]
    exact hf fd
  | reaped h h' hk hf ha =>
    exact .reaped h (hkept.unused.2 h') (hkept.killed.trans hk) (hkept.ofile.trans hf) ha

/-- What `fork` leaves in the table: a child in the first free slot, or a pid. -/
inductive Forked (t : Table) (i : Slot) (stack copy : Bool) (r : Option Int32 × Table) : Prop
  | full (hu : t.unused = none) (hr : r = (none, t))
  /-- There is no memory: the pid stays in the slot. -/
  | failed (np : Slot) (hu : t.unused = some np) (hv : r.1 = none) (hf : ¬(stack ∧ copy))
      (ha : r.2.asked = t.asked) (hj : ∀ j, j ≠ np → r.2.proc j = t.proc j)
      (hnp : r.2.proc np = { t.proc np with pid := t.nextpid })
  | child (np : Slot) (hu : t.unused = some np) (hv : r.1 = some t.nextpid)
      (hs : stack = true) (hc : copy = true) (ha : r.2.asked = update t.asked np false)
      (hj : ∀ j, j ≠ np → r.2.proc j = t.proc j)
      (hnp : r.2.proc np =
        { t.proc np with state := .EMBRYO, pid := t.nextpid }.child (t.proc i) i)

/-- The table in which `allocproc` has taken the slot `np`. -/
def Table.embryo (t : Table) (np : Slot) : Table :=
  { t.set np { t.proc np with state := .EMBRYO, pid := t.nextpid } with
    nextpid := t.nextpid + 1 }

/-- `allocproc` in a full table. -/
theorem allocproc_full (hu : t.unused = none) (stack : Bool) : allocproc t stack = (none, t) := by
  unfold allocproc
  rw [hu]

/-- `allocproc` in a table with a free slot. -/
theorem allocproc_found (hu : t.unused = some np) (stack : Bool) :
    allocproc t stack = if stack then (some np, t.embryo np)
      else (none, (t.embryo np).set np { t.proc np with state := .UNUSED, pid := t.nextpid }) := by
  unfold allocproc
  rw [hu]
  rfl

/-- `fork` by a process that runs. -/
theorem fork_spec (t : Table) (hi : (t.proc i).state ≠ .UNUSED) (stack copy : Bool) :
    Forked t i stack copy (fork t i stack copy) := by
  unfold fork
  cases hu : t.unused with
  | none =>
    rw [allocproc_full hu]
    exact .full hu rfl
  | some np =>
    have hstate := Table.unused_spec hu
    have hne : i ≠ np := by
      rintro rfl
      exact hi hstate
    rw [allocproc_found hu]
    cases stack with
    | false =>
      refine .failed np hu rfl (by simp) rfl (fun j hj => ?_) ?_
      · simp [Table.embryo, hj]
      · simp [Table.embryo, ← hstate]
    | true =>
      cases copy with
      | false =>
        refine .failed np hu rfl (by simp) rfl (fun j hj => ?_) ?_
        · simp [Table.embryo, hj]
        · simp [Table.embryo, ← hstate]
      | true =>
        refine .child np hu ?_ rfl rfl rfl (fun j hj => ?_) ?_
        · simp [Table.embryo]
        · simp [Table.embryo, hj]
        · simp [Table.embryo, hne]

/-- A process that runs is alive. -/
theorem Proc.live_of_running (h : p.state = .RUNNING) : p.live := by
  simp [Proc.live, h]

theorem Table.abandon_asked (t : Table) (i : Slot) : (t.abandon i).asked = t.asked := by
  unfold Table.abandon
  split <;> rfl

/-- `wakeup1(proc->parent)` keeps the slots. -/
theorem kept_wakeParent (t : Table) (i j : Slot) :
    Kept (t.proc j) ((t.wakeParent i).proc j) ∧ (t.wakeParent i).asked = t.asked := by
  unfold Table.wakeParent
  split
  · exact ⟨kept_wakeup1 t _ j, rfl⟩
  · exact ⟨Kept.refl _, rfl⟩

/-- What `exit` does to a slot. -/
theorem exit_slot (hi : (t.proc i).state = .RUNNING) (j : Slot) :
    SlotStep t (.exit i) (exit t i) j := by
  obtain ⟨hwake, hasked⟩ := kept_wakeParent (t.closeAll i) i j
  have hkept := hwake.trans (kept_abandon _ i j)
  have ha : (exit t i).asked j = t.asked j := by
    rw [exit, Table.die, Table.set_asked, Table.abandon_asked, hasked]
    rfl
  by_cases hj : j = i
  · subst hj
    have hproc : (t.closeAll j).proc j =
        { t.proc j with ofile := fun _ => none, cwd := none } := by simp [Table.closeAll]
    rw [hproc] at hkept
    refine .dies (Proc.live_of_running hi) ?_ (fun fd => ?_) ?_ ha
    all_goals rw [exit, Table.die, Table.set_proc, update_self]
    · exact congrFun hkept.ofile fd
    · exact hkept.handler
  · refine .kept ?_ ha
    have hproc : (t.closeAll i).proc j = t.proc j := by simp [Table.closeAll, hj]
    rw [hproc] at hkept
    rw [exit, Table.die, Table.set_proc, update_of_ne hj]
    exact hkept

/-- What one turn of `wait` does to a slot. -/
theorem wait_slot (hi : (t.proc i).state = .RUNNING) (j : Slot) :
    SlotStep t (.wait i) (wait t i).2 j := by
  unfold wait
  split
  · next r hr =>
    refine slotStep_set j ?_
    have hz : (t.proc r).parent = some i ∧ (t.proc r).state = .ZOMBIE := by
      simpa using (Table.find_eq_some.1 hr).1
    refine .reaped hz.2 ?_ ?_ ?_ rfl
    all_goals simp [Proc.reaped]
  · split
    · exact .kept (Kept.refl _) rfl
    · refine slotStep_set j (.kept ?_ rfl)
      simp only [Table.set_proc, update_self]
      exact ⟨by simp [hi], by simp [hi], rfl, rfl, rfl, rfl, rfl⟩

/-- **What an event can do to a slot.** -/
theorem step_slot (he : step t e = some t') (j : Slot) : SlotStep t e t' j := by
  cases e with
  | fork i stack copy =>
    simp only [step] at he
    split at he <;> cases he
    next hcalls =>
    have hi : (t.proc i).state ≠ .UNUSED := by simp [hcalls.1]
    refine SlotStep.ret ?_ i _
    cases fork_spec t hi stack copy with
    | full hu hr =>
      rw [hr]
      exact .kept (Kept.refl _) rfl
    | failed np hu hv hf ha hj hnp =>
      refine .kept ?_ (by rw [ha])
      by_cases hne : j = np
      · rw [hne, hnp]
        exact ⟨Iff.rfl, Iff.rfl, rfl, rfl, rfl, rfl, rfl⟩
      · rw [hj j hne]
        exact Kept.refl _
    | child np hu hv hs hc ha hj hnp =>
      by_cases hne : j = np
      · subst hne
        refine .born i (by rw [hs, hc]) hu ?_ ?_ ?_ (by rw [ha, update_self])
        all_goals rw [hnp]
        · simp [Proc.live, Proc.child]
        · rfl
        · rfl
      · refine .kept ?_ (by rw [ha, update_of_ne hne])
        rw [hj j hne]
        exact Kept.refl _
  | exit i =>
    simp only [step] at he
    split at he <;> cases he
    next hrun => exact exit_slot hrun.1 j
  | wait i =>
    simp only [step] at he
    split at he
    · next hrun =>
      have hslot := wait_slot hrun j
      split at he <;> cases he
      · next v t1 heq =>
        rw [heq] at hslot
        exact hslot.ret i v
      · next t1 heq =>
        rw [heq] at hslot
        exact hslot
    · cases he
  | kill i pid =>
    simp only [step] at he
    split at he <;> cases he
    refine SlotStep.ret ?_ i _
    unfold kill
    cases hf : t.find fun p => p.pid = pid with
    | none => exact .kept (Kept.refl _) rfl
    | some r =>
      refine slotStep_set j (.killed i pid rfl hf ?_ rfl)
      simp only [Table.set_proc, update_self, Proc.kill]
      refine ⟨?_, ?_, rfl, rfl, rfl, rfl, rfl⟩ <;> simp only <;> split <;> simp_all
  | alarm i ticks handler =>
    simp only [step] at he
    split at he <;> cases he
    next hcalls =>
    refine SlotStep.ret ?_ i _
    unfold alarm
    split
    · exact .kept (Kept.refl _) rfl
    · by_cases hj : j = i
      · subst hj
        have hlive := Proc.live_of_running hcalls.1
        refine .acts hlive ?_ ?_ (Or.inl ?_)
        · simpa [Proc.live] using hlive
        · simp
        · simp
      · refine .kept ?_ (by simp [hj])
        simp only [Table.set_proc, update_of_ne hj]
        exact Kept.refl _
  | exec i image =>
    simp only [step] at he
    split at he
    · next hcalls =>
      cases image with
      | none =>
        cases he
        exact SlotStep.ret (.kept (Kept.refl _) rfl) i _
      | some m =>
        cases he
        refine slotStep_set j (.kept ?_ rfl)
        simp only [Table.set_proc, update_self]
        exact ⟨Iff.rfl, Iff.rfl, rfl, rfl, rfl, rfl, rfl⟩
    · cases he
  | timer i =>
    simp only [step] at he
    split at he <;> cases he
    next hrun =>
    have hlive := Proc.live_of_running hrun
    refine slotStep_set j (.acts hlive ?_ ?_ (Or.inr ⟨rfl, ?_⟩))
    all_goals
      simp only [Table.set_proc, update_self, Proc.tick]
      split
      · split <;> first | rfl | exact hlive
      · first | rfl | exact hlive
  | fault i =>
    simp only [step] at he
    split at he <;> cases he
    next hrun =>
    have hlive := Proc.live_of_running hrun
    refine slotStep_set j (.fault hlive ?_ ?_ rfl)
    all_goals simp only [Table.set_proc, update_self]
    exact hlive
  | user i sz tf mem =>
    simp only [step] at he
    split at he <;> cases he
    refine slotStep_set j (.kept ?_ rfl)
    simp only [Table.set_proc, update_self]
    exact ⟨Iff.rfl, Iff.rfl, rfl, rfl, rfl, rfl, rfl⟩
  | files i ofile cwd =>
    simp only [step] at he
    split at he <;> cases he
    next hcalls =>
    have hlive := Proc.live_of_running hcalls.1
    refine slotStep_set j (.acts hlive ?_ ?_ (Or.inr ⟨rfl, ?_⟩))
    all_goals simp only [Table.set_proc, update_self]
    exact hlive
  | sleep i n =>
    simp only [step] at he
    split at he <;> cases he
    next hrun =>
    refine slotStep_set j (.kept ?_ rfl)
    simp only [Table.set_proc, update_self]
    exact ⟨by simp [hrun], by simp [hrun], rfl, rfl, rfl, rfl, rfl⟩
  | wakeup n =>
    cases he
    exact .kept (kept_wakeup1 t _ j) rfl
  | run i =>
    simp only [step] at he
    split at he <;> cases he
    next hrun =>
    refine slotStep_set j (.kept ?_ rfl)
    simp only [Table.set_proc, update_self]
    exact ⟨by simp [hrun], by simp [hrun], rfl, rfl, rfl, rfl, rfl⟩
  | yield i =>
    simp only [step] at he
    split at he <;> cases he
    next hrun =>
    refine slotStep_set j (.kept ?_ rfl)
    simp only [Table.set_proc, update_self]
    exact ⟨by simp [hrun], by simp [hrun], rfl, rfl, rfl, rfl, rfl⟩

/-! ## Killing -/

/-- `kill(pid)` keeps to the processes there are: it returns `0` exactly if one has that pid, marks
that one and wakes it, and leaves everything else alone, the free slots among it. -/
def KillLaw (t : Table) (pid : Int32) : Prop :=
  ((kill t pid).1 = 0 ↔ ∃ i, (t.proc i).state ≠ .UNUSED ∧ (t.proc i).pid = pid) ∧
  ((kill t pid).1 = 0 → ∃ i, (t.proc i).state ≠ .UNUSED ∧ (t.proc i).pid = pid ∧
    (kill t pid).2 = t.set i { t.proc i with
      killed := true
      state := if (t.proc i).state = .SLEEPING then .RUNNABLE else (t.proc i).state }) ∧
  ((kill t pid).1 ≠ 0 → (kill t pid).1 = -1 ∧ (kill t pid).2 = t) ∧
  ∀ i, (t.proc i).state = .UNUSED → (kill t pid).2.proc i = t.proc i

/-- The first slot that holds `pid`, if any, is in use. (Or its flag is set already, and a process
with the same pid behind it has nothing left to be marked and woken for.) -/
def KillOk (t : Table) (pid : Int32) : Prop :=
  ∀ i, (t.proc i).pid = pid → (∀ j < i, (t.proc j).pid ≠ pid) → (t.proc i).state = .UNUSED →
    (t.proc i).killed = true ∧ ∃ j, (t.proc j).state ≠ .UNUSED ∧ (t.proc j).pid = pid ∧
      (t.proc j).killed = true ∧ (t.proc j).state ≠ .SLEEPING

/-- What `kill` finds. -/
theorem find_pid :
    t.find (fun p => p.pid = pid) = some i ↔
      (t.proc i).pid = pid ∧ ∀ j < i, (t.proc j).pid ≠ pid := by
  rw [Table.find_eq_some]
  simp

theorem kill_found (h : t.find (fun p => p.pid = pid) = some i) : kill t pid =
    (0, t.set i (t.proc i).kill) := by
  unfold kill
  rw [h]

theorem kill_missed (h : t.find (fun p => p.pid = pid) = none) : kill t pid = (-1, t) := by
  unfold kill
  rw [h]

theorem Table.set_self (t : Table) (i : Slot) : t.set i (t.proc i) = t := by
  simp [Table.set]

/-- Marking a process that is marked and awake changes nothing. -/
theorem Proc.kill_eq_self (hk : p.killed = true) (hs : p.state ≠ .SLEEPING) : p.kill = p := by
  simp [Proc.kill, hs, ← hk]

/-- **`kill` keeps its law exactly when the slot it finds is in use.** -/
theorem killLaw_iff (t : Table) (pid : Int32) : KillLaw t pid ↔ KillOk t pid := by
  cases hf : t.find fun p => p.pid = pid with
  | none =>
    have hnone : ∀ i, (t.proc i).pid ≠ pid := by simpa using Table.find_eq_none.1 hf
    unfold KillLaw
    rw [kill_missed hf]
    have hret : (-1 : Int32) ≠ 0 := by decide
    refine iff_of_true ⟨⟨fun h => absurd h hret, ?_⟩, fun h => absurd h hret,
      fun _ => ⟨rfl, rfl⟩, fun _ _ => rfl⟩ fun i hi => absurd hi (hnone i)
    rintro ⟨i, -, hi⟩
    exact absurd hi (hnone i)
  | some i =>
    obtain ⟨hpid, hfirst⟩ := find_pid.1 hf
    unfold KillLaw
    rw [kill_found hf]
    constructor
    · rintro ⟨hret, hhit, -, hfree⟩ i' hpid' hfirst' hun
      -- the slot found is `i`
      have hi : i' = i := by grind
      subst hi
      have hsame := hfree i' hun
      rw [Table.set_proc, update_self] at hsame
      have hkilled : (t.proc i').killed = true := by
        rw [← hsame]
        rfl
      refine ⟨hkilled, ?_⟩
      obtain ⟨j, hj, hjpid, hjset⟩ := hhit rfl
      rw [hsame, Table.set_self] at hjset
      have hj' := congrArg (fun t : Table => t.proc j) hjset
      simp only [Table.set_proc, update_self] at hj'
      refine ⟨j, hj, hjpid, ?_, ?_⟩
      · rw [hj']
      · grind
    · intro hok
      by_cases hun : (t.proc i).state = .UNUSED
      · obtain ⟨hkilled, j, hj, hjpid, hjk, hjs⟩ := hok i hpid hfirst hun
        have hsame : (t.proc i).kill = t.proc i :=
          Proc.kill_eq_self hkilled (by rw [hun]; exact ProcState.noConfusion)
        rw [hsame, Table.set_self]
        refine ⟨⟨fun _ => ⟨j, hj, hjpid⟩, fun _ => rfl⟩, fun _ => ⟨j, hj, hjpid, ?_⟩,
          fun h => absurd rfl h, fun _ _ => rfl⟩
        exact ((congrArg (t.set j) (Proc.kill_eq_self hjk hjs)).trans (t.set_self j)).symm
      · refine ⟨⟨fun _ => ⟨i, hun, hpid⟩, fun _ => rfl⟩, fun _ => ⟨i, hun, hpid, rfl⟩,
          fun h => absurd rfl h, fun j hj => ?_⟩
        have hne : j ≠ i := by
          rintro rfl
          exact hun hj
        rw [Table.set_proc, update_of_ne hne]

/-- A step whose `kill`, if it is one, finds a slot in use. -/
def Careful (t : Table) : Event → Prop
  | .kill _ pid => KillOk t pid
  | _ => True

/-- No free slot is marked killed. -/
def Unmarked (t : Table) : Prop := ∀ i, (t.proc i).state = .UNUSED → (t.proc i).killed = false

theorem Unmarked.step (h : Unmarked t) (hok : Careful t e)
    (he : step t e = some t') : Unmarked t' := by
  intro j hj
  cases step_slot he j with
  | kept hk _ => exact hk.killed.trans (h j (hk.unused.1 hj))
  | acts _ hl _ _ => exact absurd hj hl.1
  | fault _ hl _ _ => exact absurd hj hl.1
  | killed i pid hek hf hk _ =>
    -- the free slot that was hit would have been marked before
    subst hek
    have hun := hk.unused.1 hj
    obtain ⟨hpid, hfirst⟩ := find_pid.1 hf
    have := (hok j hpid hfirst hun).1
    rw [h j hun] at this
    cases this
  | born i _ _ hl _ _ _ => exact absurd hj hl.1
  | dies _ hz _ _ _ =>
    rw [hz] at hj
    cases hj
  | reaped _ _ hk _ _ => exact hk

theorem unmarked_userinit (m : Image) (root : Nat) : Unmarked (userinit m root) := by
  intro i hi
  by_cases h0 : i = 0
  · subst h0
    cases hi
  · simp only [userinit, h0, if_false, Proc.zero]

/-- A child has the `killed` flag its slot had. -/
theorem fork_killed {stack copy : Bool} (hi : (t.proc i).calls)
    (hf : (fork t i stack copy).1 = some pid) (hu : t.unused = some np) :
    ((fork t i stack copy).2.proc np).killed = (t.proc np).killed := by
  have hrun : (t.proc i).state ≠ .UNUSED := by simp [hi.1]
  cases fork_spec t hrun stack copy with
  | full hn _ =>
    rw [hn] at hu
    cases hu
  | failed _ _ hv _ _ _ _ =>
    rw [hv] at hf
    cases hf
  | child np' hu' _ _ _ _ _ hnp =>
    cases Option.some.inj (hu'.symm.trans hu)
    rw [hnp]
    rfl

/-- **`kill` hits live processes only, when it finds a slot in use.** For every table and every pid
`kill` keeps its law exactly if the first slot that holds the pid is in use; and in every run in
which `kill` is called with such pids only, no free slot is marked and nobody is born killed. -/
theorem kill_live (t : Table) (pid : Int32) :
    (KillLaw t pid ↔ KillOk t pid) ∧
    (Reaches Careful t → Unmarked t ∧
      ∀ i np stack copy pid, (t.proc i).calls → (fork t i stack copy).1 = some pid →
        t.unused = some np → ((fork t i stack copy).2.proc np).killed = false) := by
  refine ⟨killLaw_iff t pid, fun ht => ?_⟩
  have hunmarked : Unmarked t :=
    Reaches.invariant unmarked_userinit (fun _ _ _ h hok he => h.step hok he) ht
  refine ⟨hunmarked, fun i np stack copy pid hi hf hu => ?_⟩
  rw [fork_killed hi hf hu]
  exact hunmarked np (Table.unused_spec hu)

/-- A program that does nothing, for the tables below. -/
def idle : Image := ⟨4096, fun _ => 0, 0, 4096, []⟩

/-- The table once the first process runs. -/
def firstRun : Table := (runs (userinit idle 1) [.run 0]).get rfl

/-- The first process kills itself: the slot found is in use. -/
theorem kill_live_firstRun :
    KillLaw firstRun 1 ∧ (kill firstRun 1).1 = 0 ∧ Unmarked firstRun := by
  refine ⟨(kill_live firstRun 1).1.2 ?_, by decide +kernel, ((kill_live firstRun 1).2 ?_).1⟩
  · intro i hpid _ hun
    have : ∀ i, (firstRun.proc i).pid = 1 → (firstRun.proc i).state ≠ .UNUSED := by
      decide +kernel
    exact absurd hun (this i hpid)
  · exact (Reaches.init idle 1).runs [.run 0] (by simp [Careful]) (Option.some_get _).symm

/-- A `fork` fails for lack of memory, the pid it would have returned is killed, and a second
`fork` succeeds. -/
def failedFork : List Event := [.run 0, .fork 0 true false, .kill 0 2]

/-- **`kill` hits a free slot.** No process has the pid of a `fork` that failed, yet `kill` of it
returns `0` and marks the free slot, and the next child is born killed. -/
theorem kill_hits_free_slot :
    ∃ t t', runs (userinit idle 1) (failedFork.take 2) = some t ∧ ¬KillLaw t 2 ∧
      (kill t 2).1 = 0 ∧ (∀ i, (t.proc i).state ≠ .UNUSED → (t.proc i).pid ≠ 2) ∧
      runs (userinit idle 1) (failedFork ++ [.fork 0 true true]) = some t' ∧
      (t'.proc 1).state = .RUNNABLE ∧ (t'.proc 1).killed = true := by
  refine ⟨(runs (userinit idle 1) (failedFork.take 2)).get rfl,
    (runs (userinit idle 1) (failedFork ++ [.fork 0 true true])).get rfl,
    (Option.some_get _).symm, ?_, by decide +kernel, by decide +kernel, (Option.some_get _).symm,
    by decide +kernel, by decide +kernel⟩
  rintro ⟨hret, -⟩
  obtain ⟨i, hi, hpid⟩ := hret.1 (by decide +kernel)
  revert i
  decide +kernel

/-! ## Forking -/

/-- Two processes that differ in pid, slot, parent, name and frames at most. -/
structure Same (p q : Proc) : Prop where
  killed : p.killed = q.killed
  ticks : p.alarmticks = q.alarmticks
  ticked : p.alarmticked = q.alarmticked
  handler : p.alarmhandler = q.alarmhandler
  ofile : p.ofile = q.ofile
  cwd : p.cwd = q.cwd
  sz : p.sz = q.sz
  mem : p.mem = q.mem
  tf : p.tf = q.tf

/-- What a slot passes on: the fields that neither `allocproc` nor `fork` sets. -/
def Proc.leftover (p : Proc) : Bool × UInt32 × UInt32 × UInt32 :=
  (p.killed, p.alarmticks, p.alarmticked, p.alarmhandler)

/-- Free slots and dead processes have no open files. -/
def Bare (t : Table) : Prop :=
  ∀ i, ¬(t.proc i).live → ∀ fd, (t.proc i).ofile fd = none

theorem Kept.live_iff {p' : Proc} (h : Kept p p') : p'.live ↔ p.live := by
  unfold Proc.live
  rw [Ne, Ne, h.unused, h.zombie]

theorem Bare.step (h : Bare t) (he : step t e = some t') : Bare t' := by
  intro j hj fd
  cases step_slot he j with
  | kept hk _ =>
    rw [hk.ofile]
    exact h j (fun hl => hj (hk.live_iff.2 hl)) fd
  | acts _ hl _ _ => exact absurd hl hj
  | fault _ hl _ _ => exact absurd hl hj
  | killed _ _ _ _ hk _ =>
    have hofile := congrFun hk.ofile fd
    exact hofile.trans (h j (fun hl => hj (hk.live_iff.2 hl)) fd)
  | born _ _ _ hl _ _ _ => exact absurd hl hj
  | dies _ _ hf _ _ => exact hf fd
  | reaped hz _ _ hf _ =>
    rw [hf]
    exact h j (fun hl => hl.2 hz) fd

theorem bare_userinit (m : Image) (root : Nat) : Bare (userinit m root) := by
  intro i _ fd
  by_cases h0 : i = 0
  · subst h0
    rfl
  · simp only [userinit, h0, if_false, Proc.zero]

/-- The slot of a successful `fork`. -/
theorem fork_slot {stack copy : Bool} (hi : (t.proc i).calls)
    (hf : (fork t i stack copy).1 = some pid) (hu : t.unused = some np) :
    (fork t i stack copy).2.proc np =
      { t.proc np with state := .EMBRYO, pid := t.nextpid }.child (t.proc i) i := by
  have hrun : (t.proc i).state ≠ .UNUSED := by simp [hi.1]
  cases fork_spec t hrun stack copy with
  | full hn _ =>
    rw [hn] at hu
    cases hu
  | failed _ _ hv _ _ _ _ =>
    rw [hv] at hf
    cases hf
  | child np' hu' _ _ _ _ _ hnp =>
    cases Option.some.inj (hu'.symm.trans hu)
    exact hnp

/-- The files of a child are those of its parent. -/
theorem child_ofile {np : Proc} (h : ∀ fd, np.ofile fd = none) (i : Slot) :
    (np.child p i).ofile = p.ofile := by
  funext fd
  simp only [Proc.child, h fd]
  split
  · rfl
  · next hnone => exact (Option.not_isSome_iff_eq_none.1 hnone).symm

/-- Children of like parents are alike exactly if their slots pass on the same. -/
theorem child_same_iff {np1 np2 p1 p2 : Proc} (h1 : ∀ fd, np1.ofile fd = none)
    (h2 : ∀ fd, np2.ofile fd = none) (hp : Same p1 p2) (i1 i2 : Slot) :
    Same (np1.child p1 i1) (np2.child p2 i2) ↔ np1.leftover = np2.leftover := by
  simp only [Proc.leftover, Prod.mk.injEq]
  constructor
  · intro h
    exact ⟨h.killed, h.ticks, h.ticked, h.handler⟩
  · rintro ⟨hk, ht, htd, hh⟩
    refine ⟨hk, ht, htd, hh, ?_, hp.cwd, hp.sz, hp.mem, ?_⟩
    · rw [child_ofile h1, child_ofile h2, hp.ofile]
    · simp only [Proc.child, hp.tf]

/-- A step whose `fork`, if it is one, finds a slot whose last user left no alarm. -/
def FreshFork (t : Table) : Event → Prop
  | .fork _ _ _ => ∀ np, t.unused = some np → (t.proc np).alarmhandler = 0
  | _ => True

/-- Every process that has an alarm handler asked for it. -/
def Asked (t : Table) : Prop :=
  ∀ i, (t.proc i).live → (t.proc i).alarmhandler ≠ 0 → t.asked i = true

theorem Asked.step (h : Asked t) (hok : FreshFork t e) (he : step t e = some t') : Asked t' := by
  intro j hj hh
  cases step_slot he j with
  | kept hk ha =>
    rw [ha]
    exact h j (hk.live_iff.1 hj) (hk.handler ▸ hh)
  | acts hl _ _ ha =>
    rcases ha with ha | ⟨ha, hsame⟩
    · exact ha
    · rw [ha]
      exact h j hl (hsame ▸ hh)
  | fault hl _ hsame ha =>
    rw [ha]
    exact h j hl (hsame ▸ hh)
  | killed _ _ _ _ hk ha =>
    have hsame : (t'.proc j).alarmhandler = (t.proc j).alarmhandler := hk.handler
    rw [ha]
    exact h j (hk.live_iff.1 hj) (hsame ▸ hh)
  | born _ hef hu _ _ hsame _ =>
    subst hef
    exact absurd (hsame.trans (hok j hu)) hh
  | dies _ hz _ _ _ => exact absurd hz hj.2
  | reaped _ hu _ _ _ => exact absurd hu hj.1

theorem asked_userinit (m : Image) (root : Nat) : Asked (userinit m root) := by
  intro i _ hh
  by_cases h0 : i = 0
  · subst h0
    exact absurd rfl hh
  · simp only [userinit, h0, if_false, Proc.zero] at hh
    exact absurd rfl hh

/-- **A new process depends on its slot's past only through the fields `fork` does not set.** For
any two histories and any two parents in the same state, the children of successful forks are the
same exactly if the slots they were put in hold the same `killed` flag and alarm fields; and in
every run in which `fork` finds slots without an alarm handler only, a process that is sent to an
alarm handler has called `alarm`. -/
theorem fork_fresh (t₁ : Table) :
    (∀ t₂, Reaches (fun _ _ => True) t₁ → Reaches (fun _ _ => True) t₂ →
      ∀ i₁ i₂ np₁ np₂ stack₁ stack₂ copy₁ copy₂ pid₁ pid₂,
        (t₁.proc i₁).calls → (t₂.proc i₂).calls → Same (t₁.proc i₁) (t₂.proc i₂) →
        (fork t₁ i₁ stack₁ copy₁).1 = some pid₁ → (fork t₂ i₂ stack₂ copy₂).1 = some pid₂ →
        t₁.unused = some np₁ → t₂.unused = some np₂ →
        (Same ((fork t₁ i₁ stack₁ copy₁).2.proc np₁) ((fork t₂ i₂ stack₂ copy₂).2.proc np₂) ↔
          (t₁.proc np₁).leftover = (t₂.proc np₂).leftover)) ∧
    (Reaches FreshFork t₁ →
      ∀ i, (t₁.proc i).live → (t₁.proc i).alarms → t₁.asked i = true) := by
  have hbare : ∀ t, Reaches (fun _ _ => True) t → Bare t := fun t ht =>
    Reaches.invariant bare_userinit (fun _ _ _ h _ he => h.step he) ht
  constructor
  · intro t₂ ht₁ ht₂ i₁ i₂ np₁ np₂ stack₁ stack₂ copy₁ copy₂ pid₁ pid₂ hi₁ hi₂ hsame hf₁ hf₂
      hu₁ hu₂
    rw [fork_slot hi₁ hf₁ hu₁, fork_slot hi₂ hf₂ hu₂]
    refine child_same_iff ?_ ?_ hsame i₁ i₂
    · exact hbare t₁ ht₁ np₁ fun hl => hl.1 (Table.unused_spec hu₁)
    · exact hbare t₂ ht₂ np₂ fun hl => hl.1 (Table.unused_spec hu₂)
  · intro ht i hl hal
    have hasked : Asked t₁ :=
      Reaches.invariant asked_userinit (fun _ _ _ h hok he => h.step hok he) ht
    exact hasked i hl hal.1

theorem reaches_firstRun : Reaches (fun _ _ => True) firstRun :=
  (Reaches.init idle 1).runs [.run 0] (fun _ _ _ => trivial) (Option.some_get _).symm

/-- Two children of the first process, each the first there is, are the same. -/
theorem fork_fresh_firstRun :
    (fork firstRun 0 true true).1 = some 2 ∧
      Same ((fork firstRun 0 true true).2.proc 1) ((fork firstRun 0 true true).2.proc 1) :=
  ⟨by decide +kernel, ((fork_fresh firstRun).1 firstRun reaches_firstRun reaches_firstRun 0 0 1 1
    true true true true 2 2 (by decide +kernel) (by decide +kernel)
    ⟨rfl, rfl, rfl, rfl, rfl, rfl, rfl, rfl, rfl⟩ (by decide +kernel) (by decide +kernel)
    (by decide +kernel) (by decide +kernel)).2 rfl⟩

/-- The first process forks a child, which asks for an alarm and exits; the child is reaped, and
the first process is where it was. -/
def alarmed : List Event :=
  [.run 0, .fork 0 true true, .yield 0, .run 1, .alarm 1 1 8, .exit 1, .run 0, .wait 0,
    .user 0 (firstRun.proc 0).sz (firstRun.proc 0).tf (firstRun.proc 0).mem]

/-- The table after it. -/
def alarmedTable : Table := (runs (userinit idle 1) alarmed).get (by decide +kernel)

set_option maxRecDepth 4000 in
/-- **A child inherits an alarm from a stranger.** After either history the first process is in the
same state, and it forks. In the second the child is in the slot of a process that had an alarm and
is gone: the next timer interrupt sends it to a handler it never asked for. -/
theorem fork_inherits_alarm :
    Reaches (fun _ _ => True) firstRun ∧ Reaches (fun _ _ => True) alarmedTable ∧
      Same (firstRun.proc 0) (alarmedTable.proc 0) ∧
      ((fork firstRun 0 true true).2.proc 1).alarmhandler = 0 ∧
      ((fork alarmedTable 0 true true).2.proc 1).alarmhandler = 8 ∧
      ((fork alarmedTable 0 true true).2.proc 1).alarms ∧
      (fork alarmedTable 0 true true).2.asked 1 = false := by
  have hofile : ∀ fd, (firstRun.proc 0).ofile fd = (alarmedTable.proc 0).ofile fd := by
    decide +kernel
  have hreaches : Reaches (fun _ _ => True) alarmedTable :=
    (Reaches.init idle 1).runs alarmed (fun _ _ _ => trivial) (Option.some_get _).symm
  exact ⟨reaches_firstRun, hreaches,
    ⟨by decide +kernel, by decide +kernel, by decide +kernel, by decide +kernel,
      funext hofile,
      by decide +kernel, by decide +kernel, rfl, rfl⟩,
    by decide +kernel, by decide +kernel, by decide +kernel, by decide +kernel⟩

end Dixv6.Procs
