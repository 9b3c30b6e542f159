import Dixv6.Lib.Ring
import Dixv6.Pipes.Model
import Mathlib.Data.List.Basic

/-!
# A pipe is a lossless queue

`Fifo` is the invariant: the ring holds exactly the bytes that were stored and not yet delivered,
and every call of `pipewrite` in progress has stored the bytes before its loop variable, in order
and no others. It says nothing about who sleeps or who was killed, so it survives any
interleaving; `Fifo.step` is the step lemma. The main result is **`pipe_fifo`**.
-/

namespace Dixv6.Pipes

open Lib Function

/-- A call of `pipewrite` at the program point `l` has stored the bytes `got`. -/
def WPc.Has (c : WCall) (got : List UInt8) : WPc → Prop
  | .acquire => got = []
  | .forTest i => got = c.bytes.take i
  | .whileTest i | .check i | .wake i | .sleep i | .fall i | .asleep i | .reacquire i =>
    got = c.bytes.take i ∧ (i : Int) < c.n
  | .wakeLast | .release => got = c.bytes

/-- A process at `pc` has stored what `got` says its call has. -/
def Pc.Has (got : Nat → List UInt8) : Pc → Prop
  | .write c l => l.Has c (got c.id)
  | _ => True

/-- The call of `pipewrite` a process is in. -/
def Pc.id : Pc → Option Nat
  | .write c _ => some c.id
  | _ => none

/-- A process that wakes up is in the same call. -/
theorem Pc.id_awake (pc : Pc) : pc.awake.id = pc.id := by
  unfold Pc.awake
  split <;> rfl

variable {pc : Pc} {got : Nat → List UInt8} {c : WCall} {p : Pipe} {killed : Bool} {e : Effect}

/-- A process that wakes up has stored what it had. -/
theorem Pc.Has.awake (h : pc.Has got) : pc.awake.Has got := by
  unfold Pc.awake
  split <;> exact h

/-- Only the bytes of its own call matter to a process. -/
theorem Pc.Has.congr {got' : Nat → List UInt8} (h : pc.Has got)
    (heq : ∀ id, pc.id = some id → got' id = got id) : pc.Has got' := by
  cases pc with
  | write c l =>
    show l.Has c (got' c.id)
    rw [heq c.id rfl]
    exact h
  | user => trivial
  | read n l => trivial
  | close w l => trivial

/-- What the effect of a statement means for the bytes stored, and what its process must show. -/
def Effect.Fits (p : Pipe) (got : Nat → List UInt8) (id : Option Nat) (pc : Pc) : Effect → Prop
  | .put i b =>
    id = some i ∧ p.full = false ∧ pc.Has (update got i (got i ++ [b]))
  | .take => p.empty = false ∧ pc.Has got
  | .release r =>
    pc.id = Option.none ∧ ∀ c v, r = some (.write c v) → id = some c.id ∧ (v = c.n → got c.id = c.bytes)
  | _ => pc.Has got

/-- The bytes before `i + 1` are the bytes before `i` and the byte at `i`. -/
theorem WCall.take_succ {i : Nat} (h : (i : Int) < c.n) :
    c.bytes.take (i + 1) = c.bytes.take i ++ [c.addr i] := by
  have hlen : i < c.bytes.length := by
    simp only [WCall.bytes, List.length_map, List.length_range]
    omega
  rw [List.take_add_one, List.getElem?_eq_getElem hlen]
  simp [WCall.bytes]

/-- One statement of `pipewrite` keeps the account of its call. -/
theorem WPc.next_fits {l : WPc} (h : l.next p killed c = some (e, pc)) (hl : l.Has c (got c.id)) :
    e.Fits p got (some c.id) pc := by
  cases l with
  | acquire =>
    cases h
    show got c.id = c.bytes.take 0
    rw [List.take_zero]
    exact hl
  | forTest i =>
    cases h
    by_cases hi : (i : Int) < c.n
    · rw [if_pos hi]
      exact ⟨hl, hi⟩
    · rw [if_neg hi]
      have hall : c.bytes.take i = c.bytes := by
        refine List.take_of_length_le ?_
        simp only [WCall.bytes, List.length_map, List.length_range]
        omega
      exact (show got c.id = c.bytes.take i from hl).trans hall
  | whileTest i =>
    simp only [WPc.next] at h
    split at h
    · cases h
      exact hl
    · next hfull =>
      cases h
      refine ⟨rfl, by simpa using hfull, ?_⟩
      show update got c.id _ c.id = c.bytes.take (i + 1)
      rw [update_self, WCall.take_succ hl.2, ← hl.1]
  | check i =>
    simp only [WPc.next] at h
    split at h
    · cases h
      refine ⟨rfl, ?_⟩
      rintro c' v heq
      cases heq
      -- `-1` is not the count: the loop was entered, so the count is positive
      exact ⟨rfl, fun hv => absurd hl.2 (by omega)⟩
    · cases h
      exact hl
  | wake i | sleep i | fall i | reacquire i =>
    cases h
    exact hl
  | asleep i => cases h
  | wakeLast =>
    cases h
    exact hl
  | release =>
    cases h
    refine ⟨rfl, ?_⟩
    rintro c' v heq
    cases heq
    exact ⟨rfl, fun _ => hl⟩

/-- A statement of `pipewrite` stays in its call or returns from it. -/
theorem WPc.next_same {l : WPc} (h : l.next p killed c = some (e, pc)) :
    pc = .user ∨ ∃ l', pc = .write c l' := by
  cases l with
  | asleep i => cases h
  | whileTest i | check i =>
    simp only [WPc.next] at h
    split at h <;> cases h <;> simp
  | forTest i =>
    cases h
    split <;> simp
  | acquire | wake i | sleep i | fall i | reacquire i | wakeLast | release =>
    cases h
    simp

/-- One statement of `piperead` stores nothing. -/
theorem RPc.next_fits {n : Int} {l : RPc} (got : Nat → List UInt8)
    (h : l.next p killed n = some (e, pc)) : e.Fits p got none pc ∧ pc.id = none := by
  cases l with
  | check =>
    simp only [RPc.next] at h
    split at h
    · cases h
      exact ⟨⟨rfl, fun _ _ heq => by cases heq⟩, rfl⟩
    · cases h
      exact ⟨trivial, rfl⟩
  | copy i =>
    simp only [RPc.next] at h
    split at h
    · next hi =>
      cases h
      exact ⟨⟨by simpa using hi.2, trivial⟩, rfl⟩
    · cases h
      exact ⟨trivial, rfl⟩
  | asleep => cases h
  | release i =>
    cases h
    exact ⟨⟨rfl, fun _ _ heq => by cases heq⟩, rfl⟩
  | acquire | whileTest | sleep | fall | reacquire | wake i =>
    cases h
    exact ⟨trivial, rfl⟩

/-- One statement of `pipeclose` stores nothing. -/
theorem CPc.next_fits {w : Bool} {l : CPc} (got : Nat → List UInt8)
    (h : l.next p w = some (e, pc)) : e.Fits p got none pc ∧ pc.id = none := by
  cases l with
  | release =>
    cases h
    have hid : ∀ b : Bool, (if b then Pc.close w .kfree else .user).id = none := by
      intro b
      cases b <;> rfl
    exact ⟨⟨hid _, fun _ _ heq => by cases heq⟩, hid _⟩
  | acquire | shut | wake | kfree =>
    cases h
    exact ⟨trivial, rfl⟩

/-- One statement of any process keeps the account of the call it is in. -/
theorem Pc.next_fits {pc' : Pc} (h : pc.next p killed = some (e, pc')) (hpc : pc.Has got) :
    e.Fits p got pc.id pc' ∧ (pc'.id = none ∨ pc'.id = pc.id) := by
  cases pc with
  | user => cases h
  | write c l =>
    refine ⟨WPc.next_fits h hpc, ?_⟩
    rcases WPc.next_same h with rfl | ⟨l', rfl⟩
    · exact Or.inl rfl
    · exact Or.inr rfl
  | read n l => exact (RPc.next_fits got h).imp_right Or.inl
  | close w l => exact (CPc.next_fits got h).imp_right Or.inl

section
variable {ι : Type} [DecidableEq ι] {s s' : State ι} {q : ι}

/-- The bytes a call of `pipewrite` has stored, in order. -/
def State.storedBy (s : State ι) (id : Nat) : List UInt8 :=
  (s.stored.filter (·.1 = id)).map Prod.snd

/-- The pipe loses, invents and reorders nothing. -/
structure Fifo (s : State ι) : Prop where
  /-- The ring holds the bytes that were stored and not yet delivered. -/
  ring : ∃ q, Ring.Holds (2 ^ 32) PIPESIZE s.pipe.data s.pipe.nread.toNat s.pipe.nwrite.toNat q ∧
    s.delivered ++ q = s.stored.map Prod.snd
  made : ∀ x ∈ s.stored, x.1 < s.calls
  has : ∀ q, (s.pc q).Has s.storedBy
  lt : ∀ q id, (s.pc q).id = some id → id < s.calls
  uniq : ∀ q r id, (s.pc q).id = some id → (s.pc r).id = some id → q = r
  back : ∀ c v, .write c v ∈ s.returned → c.id < s.calls ∧
    (v = c.n → s.storedBy c.id = c.bytes) ∧ ∀ q, (s.pc q).id ≠ some c.id

/-- The state of the ring and the history of the pipe. -/
def State.history (s : State ι) :=
  (s.pipe.data, s.pipe.nread, s.pipe.nwrite, s.stored, s.delivered, s.calls, s.returned)

omit [DecidableEq ι] in
/-- A step that moves processes within their calls, or out of them, keeps the invariant. -/
theorem Fifo.of_pcs (h : Fifo s) (heq : s'.history = s.history)
    (hpc : ∀ r, (s'.pc r).Has s.storedBy ∧ ((s'.pc r).id = none ∨ (s'.pc r).id = (s.pc r).id)) :
    Fifo s' := by
  simp only [State.history, Prod.mk.injEq] at heq
  obtain ⟨hdata, hread, hwrite, hstored, hdelivered, hcalls, hreturned⟩ := heq
  have hby : s'.storedBy = s.storedBy := by
    funext id
    simp only [State.storedBy, hstored]
  have hid : ∀ r id, (s'.pc r).id = some id → (s.pc r).id = some id := by grind
  constructor
  · rw [hdata, hread, hwrite, hdelivered, hstored]
    exact h.ring
  · rw [hstored, hcalls]
    exact h.made
  · intro r
    rw [hby]
    exact (hpc r).1
  · intro r id hr
    rw [hcalls]
    exact h.lt r id (hid r id hr)
  · exact fun q r id hq hr => h.uniq q r id (hid q id hq) (hid r id hr)
  · intro c v hc
    rw [hreturned] at hc
    obtain ⟨hlt, hall, hover⟩ := h.back c v hc
    rw [hcalls, hby]
    exact ⟨hlt, hall, fun r hr => hover r (hid r _ hr)⟩

/-- Moving one process within its call, or out of it. -/
theorem Fifo.goto (h : Fifo s) (hpc : pc.Has s.storedBy)
    (hid : pc.id = none ∨ pc.id = (s.pc q).id) : Fifo (s.goto q pc) := by
  refine h.of_pcs rfl fun r => ?_
  rw [State.pc_goto]
  split
  · next hr =>
    subst hr
    exact ⟨hpc, hid⟩
  · exact ⟨h.has r, Or.inr rfl⟩

omit [DecidableEq ι] in
/-- Waking processes up. -/
theorem Fifo.wakeup (h : Fifo s) (ch : Chan) : Fifo (s.wakeup ch) := by
  refine h.of_pcs rfl fun r => ?_
  rw [State.pc_wakeup]
  split
  · exact ⟨(h.has r).awake, Or.inr (Pc.id_awake _)⟩
  · exact ⟨h.has r, Or.inr rfl⟩

omit [DecidableEq ι] in
/-- The bytes of each call after a byte was stored. -/
theorem State.storedBy_put (s : State ι) (id : Nat) (b : UInt8) :
    (s.put id b).storedBy = update s.storedBy id (s.storedBy id ++ [b]) := by
  funext i
  by_cases hi : i = id
  · subst hi
    simp [State.storedBy, List.filter_append]
  · have hne : ¬id = i := fun h => hi h.symm
    simp [State.storedBy, List.filter_append, hi, hne]

/-- A byte is stored by the process `q`. -/
theorem Fifo.put (h : Fifo s) {id : Nat} {b : UInt8}
    (hq : (s.pc q).id = some id) (hid : pc.id = none ∨ pc.id = (s.pc q).id)
    (hfull : s.pipe.full = false) (hpc : pc.Has (update s.storedBy id (s.storedBy id ++ [b]))) :
    Fifo ((s.goto q pc).put id b) := by
  have hid' : ∀ r i, ((s.goto q pc).pc r).id = some i → (s.pc r).id = some i := by
    intro r i hr
    rw [State.pc_goto] at hr
    split at hr
    · next heq =>
      subst heq
      rcases hid with hnone | hsame
      · rw [hnone] at hr
        cases hr
      · rw [← hsame, hr]
    · exact hr
  have hby := State.storedBy_put (s.goto q pc) id b
  constructor
  · obtain ⟨l, hl, hall⟩ := h.ring
    have hroom : l.length < PIPESIZE := by
      refine lt_of_le_of_ne hl.fits fun heq => ?_
      have hcount := (hl.full_iff (by decide)).2 heq
      have : s.pipe.full = true := by
        rw [Pipe.full, beq_iff_eq, ← UInt32.toNat_inj, hcount]
        rfl
      rw [hfull] at this
      cases this
    refine ⟨l ++ [b], ?_, ?_⟩
    · have hput := hl.push (x := b) (by decide) hroom
      have hnwrite : (s.pipe.nwrite + 1).toNat = (s.pipe.nwrite.toNat + 1) % 2 ^ 32 := rfl
      exact hput
    · simp only [State.put_stored, State.put_delivered, State.goto_stored, State.goto_delivered,
        List.map_append, List.map_singleton, ← hall, List.append_assoc]
  · intro x hx
    rcases List.mem_append.1 hx with hx | hx
    · exact h.made x hx
    · rw [List.mem_singleton.1 hx]
      exact h.lt q id hq
  · intro r
    rw [hby]
    show ((s.goto q pc).pc r).Has _
    rw [State.pc_goto]
    split
    · exact hpc
    · next hr =>
      refine (h.has r).congr fun i hi => update_of_ne ?_ _ _
      rintro rfl
      exact hr (h.uniq r q i hi hq)
  · exact fun r i hr => h.lt r i (hid' r i hr)
  · exact fun r r' i hr hr' => h.uniq r r' i (hid' r i hr) (hid' r' i hr')
  · intro c v hc
    obtain ⟨hlt, hdone, hover⟩ := h.back c v hc
    have hne : c.id ≠ id := by
      rintro rfl
      exact hover q hq
    refine ⟨hlt, fun hv => ?_, fun r hr => hover r (hid' r _ hr)⟩
    rw [hby, update_of_ne hne]
    exact hdone hv

omit [DecidableEq ι] in
/-- A byte is delivered. -/
theorem Fifo.take (h : Fifo s) (hempty : s.pipe.empty = false) : Fifo s.take := by
  obtain ⟨l, hl, hall⟩ := h.ring
  refine ⟨?_, h.made, h.has, h.lt, h.uniq, h.back⟩
  cases l with
  | nil =>
    have hcount := (hl.empty_iff (by decide) s.pipe.nread.toNat_lt).2 rfl
    rw [Pipe.empty, UInt32.toNat_inj.1 hcount, beq_self_eq_true] at hempty
    cases hempty
  | cons x l =>
    refine ⟨l, hl.pop (by decide), ?_⟩
    have hfront : s.pipe.front = x := hl.front
    rw [State.take_delivered, hfront, List.append_assoc]
    exact hall

omit [DecidableEq ι] in
/-- A call returns. -/
theorem Fifo.release (h : Fifo s) {r : Option Return}
    (hr : ∀ c v, r = some (.write c v) → c.id < s.calls ∧
      (v = c.n → s.storedBy c.id = c.bytes) ∧ ∀ q, (s.pc q).id ≠ some c.id) :
    Fifo { s with lock := none, returned := s.returned ++ r.toList } := by
  refine ⟨h.ring, h.made, h.has, h.lt, h.uniq, ?_⟩
  intro c v hc
  rcases List.mem_append.1 hc with hc | hc
  · exact h.back c v hc
  · exact hr c v (by simpa using hc)

/-- Any statement of any process keeps the invariant. -/
theorem Fifo.run (h : Fifo s) (he : step s (.run q) = some s') : Fifo s' := by
  obtain ⟨e, pc, hnext, happly⟩ := step_run he
  obtain ⟨hfits, hid⟩ := Pc.next_fits hnext (h.has q)
  cases e with
  | put id b =>
    cases happly
    exact h.put hfits.1 hid hfits.2.1 hfits.2.2
  | take =>
    cases happly
    exact (h.goto hfits.2 hid).take hfits.1
  | release r =>
    cases happly
    have hgoto : Fifo (s.goto q pc) := by
      refine h.goto ?_ (Or.inl hfits.1)
      cases pc with
      | write c l => cases hfits.1
      | user => trivial
      | read n l => trivial
      | close w l => trivial
    refine hgoto.release ?_
    intro c v hr
    obtain ⟨hq, hdone⟩ := hfits.2 c v hr
    refine ⟨h.lt q c.id hq, hdone, fun r' hr' => ?_⟩
    rw [State.pc_goto] at hr'
    split at hr'
    · rw [hfits.1] at hr'
      cases hr'
    · next hne => exact hne (h.uniq r' q c.id hr' hq)
  | wakeup ch =>
    obtain ⟨-, ⟨⟩⟩ := Option.ite_none_right_eq_some.1 happly
    exact (h.goto hfits hid).wakeup ch
  | acquire | sleep =>
    obtain ⟨-, ⟨⟩⟩ := Option.ite_none_right_eq_some.1 happly
    exact (h.goto hfits hid).of_pcs rfl fun r => ⟨(h.goto hfits hid).has r, Or.inr rfl⟩
  | shut w =>
    cases happly
    refine (h.goto hfits hid).of_pcs ?_ fun r => ⟨(h.goto hfits hid).has r, Or.inr rfl⟩
    cases w <;> rfl
  | none | sched | kfree =>
    cases happly
    exact (h.goto hfits hid).of_pcs rfl fun r => ⟨(h.goto hfits hid).has r, Or.inr rfl⟩

/-- A new call of `pipewrite` has stored nothing. -/
theorem Fifo.write (h : Fifo s) (q : ι) (addr : Nat → UInt8) (n : Int) :
    Fifo { s.goto q (.write ⟨s.calls, addr, n⟩ .acquire) with calls := s.calls + 1 } := by
  have hid : ∀ r i, ((s.goto q (.write ⟨s.calls, addr, n⟩ .acquire)).pc r).id = some i →
      (r = q ∧ i = s.calls) ∨ (s.pc r).id = some i := by
    intro r i hr
    rw [State.pc_goto] at hr
    split at hr
    · next heq => exact Or.inl ⟨heq, (Option.some.inj hr).symm⟩
    · exact Or.inr hr
  constructor
  · exact h.ring
  · exact fun x hx => Nat.lt_succ_of_lt (h.made x hx)
  · intro r
    rw [State.pc_goto]
    split
    · -- the number of the call is new, so no byte carries it
      show List.map _ _ = []
      rw [List.map_eq_nil_iff, List.filter_eq_nil_iff]
      intro x hx
      have := h.made x hx
      simp only [decide_eq_true_eq]
      omega
    · exact h.has r
  · intro r i hr
    rcases hid r i hr with ⟨-, rfl⟩ | hr
    · exact Nat.lt_succ_self _
    · exact Nat.lt_succ_of_lt (h.lt r i hr)
  · intro r r' i hr hr'
    rcases hid r i hr with ⟨hrq, hi⟩ | hold <;> rcases hid r' i hr' with ⟨hrq', hi'⟩ | hold'
    · rw [hrq, hrq']
    · exact absurd (hi ▸ h.lt r' i hold') (Nat.lt_irrefl _)
    · exact absurd (hi' ▸ h.lt r i hold) (Nat.lt_irrefl _)
    · exact h.uniq r r' i hold hold'
  · intro c v hc
    obtain ⟨hlt, hdone, hover⟩ := h.back c v hc
    refine ⟨Nat.lt_succ_of_lt hlt, hdone, fun r hr => ?_⟩
    rcases hid r _ hr with ⟨-, heq⟩ | hr
    · omega
    · exact hover r hr

omit [DecidableEq ι] in
/-- A step that leaves the program points alone. -/
theorem Fifo.same (h : Fifo s) (heq : s'.history = s.history)
    (hpc : ∀ r, s'.pc r = s.pc r) : Fifo s' :=
  h.of_pcs heq fun r => by
    rw [hpc r]
    exact ⟨h.has r, Or.inr rfl⟩

/-- Every step keeps the invariant. -/
theorem Fifo.step {e : Event ι} (h : Fifo s) (he : step s e = some s') : Fifo s' := by
  cases e with
  | run q => exact h.run he
  | write q addr n =>
    obtain ⟨-, ⟨⟩⟩ := Option.ite_none_right_eq_some.1 he
    exact h.write q addr n
  | read q n =>
    obtain ⟨-, ⟨⟩⟩ := Option.ite_none_right_eq_some.1 he
    exact h.goto trivial (Or.inl rfl)
  | close q w =>
    obtain ⟨-, ⟨⟩⟩ := Option.ite_none_right_eq_some.1 he
    refine h.of_pcs rfl fun r => ?_
    by_cases hr : r = q
    · subst hr
      have hpc : ((s.close r w).pc r).id = none ∧ ((s.close r w).pc r).Has s.storedBy := by
        simp only [State.pc, State.close, update_self]
        split <;> exact ⟨rfl, trivial⟩
      exact ⟨hpc.2, Or.inl hpc.1⟩
    · have hpc : (s.close q w).pc r = s.pc r := by
        simp only [State.pc, State.close, update_of_ne hr]
      rw [hpc]
      exact ⟨h.has r, Or.inr rfl⟩
  | dup q w =>
    obtain ⟨-, ⟨⟩⟩ := Option.ite_none_right_eq_some.1 he
    refine h.same rfl fun r => ?_
    by_cases hr : r = q
    · subst hr
      simp [State.pc, State.dup]
    · simp [State.pc, State.dup, hr]
  | fork q r =>
    obtain ⟨-, ⟨⟩⟩ := Option.ite_none_right_eq_some.1 he
    refine h.same rfl fun r' => ?_
    by_cases hr : r' = r
    · subst hr
      simp [State.pc, State.fork]
    · simp [State.pc, State.fork, hr]
  | kill r =>
    obtain ⟨-, ⟨⟩⟩ := Option.ite_none_right_eq_some.1 he
    refine h.of_pcs rfl fun r' => ?_
    by_cases hr : r' = r
    · subst hr
      have hpc : (s.kill r').pc r' = (s.pc r').awake := by
        simp only [State.pc, State.kill, update_self]
      rw [hpc]
      exact ⟨(h.has r').awake, Or.inr (Pc.id_awake _)⟩
    · have hpc : (s.kill r).pc r' = s.pc r' := by
        simp only [State.pc, State.kill, update_of_ne hr]
      rw [hpc]
      exact ⟨h.has r', Or.inr rfl⟩
  | reap r =>
    obtain ⟨-, ⟨⟩⟩ := Option.ite_none_right_eq_some.1 he
    refine h.same rfl fun r' => ?_
    by_cases hr : r' = r
    · subst hr
      simp [State.pc]
    · simp [State.pc, hr]

/-- A new pipe is empty. -/
theorem fifo_pipealloc (q : ι) (data : Nat → UInt8) : Fifo (pipealloc q data) where
  ring := ⟨[], Ring.Holds.nil (UInt32.toNat_lt _), rfl⟩
  made := fun _ hx => absurd hx List.not_mem_nil
  has := fun _ => trivial
  lt := fun _ _ hid => by cases hid
  uniq := fun _ _ _ hid => by cases hid
  back := fun _ _ hc => absurd hc List.not_mem_nil

/-- **A pipe is a lossless queue.** In every state that any interleaving of any number of
processes reaches, the bytes delivered are a prefix of the bytes stored, the counters differ by at
most `PIPESIZE` modulo `2^32`, and a call of `pipewrite` that returned its count has stored all its
bytes, in order and no others. -/
theorem pipe_fifo (q : ι) (data : Nat → UInt8) (s : State ι)
    (h : Reaches (fun _ _ => True) q data s) :
    s.delivered <+: s.stored.map Prod.snd ∧
      (s.pipe.nwrite - s.pipe.nread).toNat ≤ PIPESIZE ∧
      ∀ c, .write c c.n ∈ s.returned → s.storedBy c.id = c.bytes := by
  have hfifo : Fifo s :=
    Reaches.invariant (fifo_pipealloc q data) (fun _ _ _ hs _ he => hs.step he) h
  obtain ⟨l, hl, hall⟩ := hfifo.ring
  refine ⟨⟨l, hall⟩, ?_, fun c hc => (hfifo.back c c.n hc).2.1 rfl⟩
  have hfits := hl.fits
  have hlt := s.pipe.nread.toNat_lt
  rw [UInt32.toNat_sub, hl.count]
  omega

end

/-- A process writes a byte into its pipe and reads it back. -/
def oneByte : List (Event Bool) :=
  .write false (fun _ => 7) 1 :: List.replicate 6 (.run false) ++
    .read false 1 :: List.replicate 3 (.run false)

/-- The state it leaves. -/
def oneByteState : State Bool := (runs (pipealloc false fun _ => 0) oneByte).get rfl

/-- The read delivers the byte. -/
theorem pipe_fifo_oneByte :
    oneByteState.delivered = [7] ∧ oneByteState.stored = [(0, 7)] ∧
      oneByteState.delivered <+: oneByteState.stored.map Prod.snd ∧
      (oneByteState.pipe.nwrite - oneByteState.pipe.nread).toNat ≤ PIPESIZE ∧
      ∀ c, .write c c.n ∈ oneByteState.returned → oneByteState.storedBy c.id = c.bytes :=
  ⟨rfl, rfl, pipe_fifo false (fun _ => 0) oneByteState
    (Reaches.init.runs oneByte (fun _ _ _ => trivial) (Option.some_get _).symm)⟩

end Dixv6.Pipes
