import Dixv6.Disk.Flat

/-!
# Transactions, crashes and recovery

A transaction is any sequence of reads and logged changes of sectors between `begin_trans` and
`commit_trans`. A crash leaves the disk with a prefix of the writes issued so far; a reboot starts
`recover_from_log` on an empty cache, and may crash again in the middle of its own writes.

`install_trans` copies from home to log, so a recovery leaves every sector outside the log alone
(`Recovery.outside`), and a crash right after the header is written is never rolled forward. The
log is therefore crash atomic exactly for the transactions that leave every sector as it was
(`crashAtomic_iff_unchanged`); of the others each sector is old or new (`crash_torn`).
-/

namespace Dixv6.Disk

open Lib Function

/-! ## Transactions -/

/-- A step of a system call inside a transaction. -/
inductive TxOp where
  /-- `bread` and `brelse`. -/
  | read (sector : Nat)
  /-- `bread`, a change of the data, `log_write` and `brelse`. -/
  | write (sector : Nat) (f : Block → Block)

/-- The sector a step is about. -/
def TxOp.sector : TxOp → Nat
  | .read sec => sec
  | .write sec _ => sec

/-- The code of a step. -/
def TxOp.run : TxOp → M Unit
  | .read sec => do
    let b ← bread sec
    brelse b
  | .write sec f => do
    let b ← bread sec
    setBuf b fun b => { b with data := f b.data }
    log_write b
    brelse b

/-- What a step makes of a flat disk. -/
def TxOp.effect : TxOp → (Nat → Block) → Nat → Block
  | .read _, d => d
  | .write sec f, d => update d sec (f (d sec))

/-- A transaction up to its `commit_trans`. -/
def runOps (ops : List TxOp) : M Unit := do
  begin_trans
  Comp.forM TxOp.run ops

/-- The flat disk after a transaction. -/
def after (ops : List TxOp) (d : Nat → Block) : Nat → Block := ops.foldl (fun d op => op.effect d) d

/-- Between transactions: nothing held, nothing dirty, nothing logged, and the header on disk
says so. The log is no larger than `mkfs` makes it (`mkfs.c:17`). -/
structure Quiescent (s : State) : Prop where
  coh : Coh s [] []
  clean : ∀ x, ¬ Dirty s x
  lh : s.log.lh = []
  idle : s.log.busy = false
  writes : s.writes = []
  head : headN (s.disk s.log.start) = 0
  pos : 0 < s.log.size
  size : s.log.size ≤ LOGSIZE

/-- Inside a transaction begun in `s₀`: the logged sectors are the dirty ones, none is in the log
area, the disk has not been written. -/
structure InTrans (s₀ : State) (held : List Nat) (s : State) : Prop where
  coh : Coh s held []
  dirty : ∀ x, Dirty s x ↔ x ∈ s.log.lh
  nodup : s.log.lh.Nodup
  length : s.log.lh = [] ∨ s.log.lh.length < s.log.size
  outside : ∀ x ∈ s.log.lh, Outside s₀.log x
  log : s.log = { s₀.log with busy := true, lh := s.log.lh }
  disk : s.disk = s₀.disk
  writes : s.writes = s₀.writes

section
variable {s₀ s s' : State} {held : List Nat} {E : Stop → Prop}

/-- Inside a transaction the logged sectors are the dirty ones. -/
theorem InTrans.steady (h : InTrans s₀ held s) : Steady held s :=
  ⟨h.coh, h.dirty, h.nodup, h.length, fun x hx => by rw [h.log]; exact h.outside x hx⟩

/-- A step that keeps the disk, the writes and the place of the log stays inside. -/
theorem InTrans.of_steady (h : InTrans s₀ held s) {held' : List Nat} (hs : Steady held' s')
    (hlog : s'.log = { s.log with lh := s'.log.lh }) (hdisk : s'.disk = s.disk)
    (hwr : s'.writes = s.writes) : InTrans s₀ held' s' := by
  have hlog' : s'.log = { s₀.log with busy := true, lh := s'.log.lh } := by
    rw [h.log] at hlog
    exact hlog
  exact ⟨hs.coh, hs.dirty, hs.nodup, hs.length,
    fun x hx => by have := hs.outside x hx; rw [hlog'] at this; exact this, hlog',
    hdisk.trans h.disk, hwr.trans h.writes⟩

/-- The log never fills the cache. -/
theorem InTrans.room (h : InTrans s₀ held s) (hs : s₀.log.size ≤ LOGSIZE) :
    s.log.lh.length < NBUF :=
  h.steady.room (by rw [h.log]; exact hs)

/-- A `bread` stays inside the transaction. -/
theorem InTrans.read {sec i : Nat} (h : InTrans s₀ held s) (r : Read s held sec i s') :
    InTrans s₀ (i :: held) s' :=
  h.of_steady (h.steady.read r) (by rw [r.log]) r.disk r.writes

/-- A `brelse` stays inside the transaction. -/
theorem InTrans.release {held' : List Nat} (h : InTrans s₀ held s) (r : Released s held' s') :
    InTrans s₀ held' s' :=
  h.of_steady (h.steady.release r) (by rw [r.log]) r.disk r.writes

/-- One step of a transaction follows its effect on the flat disk. -/
theorem TxOp.run_spec {op : TxOp} (h : InTrans s₀ [] s) (hs : s₀.log.size ≤ LOGSIZE)
    (hout : Outside s₀.log op.sector) (hE : E .tooBig) :
    wp op.run (fun _ s' => InTrans s₀ [] s' ∧ look s' = op.effect (look s)) E s := by
  have hroom := h.coh.exists_free (fun x hx => (h.dirty x).1 hx) (by simpa using h.room hs)
  cases op with
  | read sec =>
    refine wp_seq (bread_spec h.coh (.inr (by simp)) (.inr (.inr hroom))) ?_
    intro i s₁ r
    refine wp_post (brelse_spec [] r.coh r.lt (by simp) (by simp)) ?_
    intro _ s2 e
    refine ⟨(h.read r).release e, ?_⟩
    funext x
    rw [e.look, r.look, TxOp.effect]
  | write sec f =>
    refine wp_seq (bread_spec h.coh (.inr (by simp)) (.inr (.inr hroom))) ?_
    intro i s₁ r
    refine wp_seq (setData_spec r.coh r.lt r.sector) ?_
    intro _ s2 c
    have h1 := h.read r
    have hout1 : Outside s₁.log sec := by rw [h1.log]; exact hout
    refine wp_seq (log_write_spec h1.steady (.inl hE) (.inr (by rw [h1.log])) r.lt hout1 c) ?_
    intro _ s3 w
    have h3 : InTrans s₀ [i] s3 :=
      h1.of_steady w.steady (by rw [w.log, c.log]) (w.disk.trans c.disk) (w.writes.trans c.writes)
    refine wp_post (brelse_spec [] h3.coh r.lt (by simp) (by simp)) ?_
    intro _ s4 e
    refine ⟨h3.release e, ?_⟩
    funext x
    rw [e.look, w.look, c.look, funext r.look, TxOp.effect]

/-- The steps of a transaction, in order. -/
theorem runOps_spec {ops : List TxOp} (h : Quiescent s₀)
    (hout : ∀ op ∈ ops, Outside s₀.log op.sector) (hE : E .tooBig) :
    wp (runOps ops) (fun _ s' => InTrans s₀ [] s' ∧ look s' = after ops s₀.disk) E s₀ := by
  simp only [runOps, begin_trans, wp_bind, wp_gets, wp_stopIf, wp_modify, h.idle,
    Bool.false_eq_true, false_imp_iff, not_false_eq_true, true_imp_iff, true_and]
  have hstart : InTrans s₀ [] { s₀ with log := { s₀.log with busy := true } } := by
    refine ⟨⟨h.coh.nodup, h.coh.mem, h.coh.inj, h.coh.valid, h.coh.clean, h.coh.dirty, h.coh.busy⟩,
      ?_, ?_, .inl h.lh, ?_, rfl, rfl, rfl⟩
    · intro x
      rw [h.lh]
      exact ⟨fun hx => absurd hx (h.clean x), fun hx => absurd hx (by simp)⟩
    · rw [h.lh]; exact List.nodup_nil
    · intro x hx
      have hx' : x ∈ s₀.log.lh := hx
      rw [h.lh] at hx'; simp at hx'
  have hlook : look { s₀ with log := { s₀.log with busy := true } } = s₀.disk :=
    funext fun x => h.coh.look_clean (h.clean x)
  -- carried along: the rest of the steps still leads to the transaction's effect
  refine wp_post (wp_forM (I := fun rest s => InTrans s₀ [] s ∧
    after rest (look s) = after ops s₀.disk ∧ ∀ op ∈ rest, Outside s₀.log op.sector)
    ?_ ops _ ⟨hstart, by rw [hlook], hout⟩) ?_
  · rintro op rest s ⟨hin, hrest, hops⟩
    refine wp_post (TxOp.run_spec hin h.size (hops op (by simp)) hE) ?_
    rintro _ s' ⟨hin', hlook'⟩
    exact ⟨hin', by rw [hlook']; exact hrest, fun op' h' => hops op' (by simp [h'])⟩
  · rintro _ s' ⟨hin, hrest, -⟩
    exact ⟨hin, hrest⟩

end

/-! ## Recovery -/

/-- A header that a crash can leave: its sectors are distinct, lie outside the log area, and fit
the log. -/
structure Header (log : Log) (b : Block) : Prop where
  count : headN b ≤ LOGSIZE
  nodup : (decodeHead b).Nodup
  length : decodeHead b = [] ∨ (decodeHead b).length < log.size
  outside : ∀ x ∈ decodeHead b, Outside log x

/-- The writes of a recovery from the disk `d`. -/
def recoverTrace (start : Nat) (d : Nat → Block) : List (Nat × Block) :=
  installWrites start d 0 (decodeHead (d start)) ++ [(start, putHead (d start) [])]

section
variable {log : Log} {d : Nat → Block} {E : Stop → Prop}

/-- `recover_from_log` on a header a crash can leave runs to completion and issues the writes of
`recoverTrace`. -/
theorem recover_from_log_spec (hs : log.size ≤ LOGSIZE) (hh : Header log (d log.start)) :
    wp recover_from_log (fun _ s' => s'.writes = recoverTrace log.start d ∧
      s'.disk = applyWrites d (recoverTrace log.start d)) E (reboot log d) := by
  have hshow : look (reboot log d) = d := funext reboot_look
  have hlen : (decodeHead (d log.start)).length < NBUF := by
    rcases hh.length with h | h
    · rw [h]; decide
    · simp only [LOGSIZE] at hs; lia
  have houtside : ∀ x ∈ decodeHead (d log.start),
      x < log.start ∨ log.start + (decodeHead (d log.start)).length < x := by
    intro x hx
    have h1 := (hh.outside x hx).1
    have h2 : (decodeHead (d log.start)).length < log.size := by
      refine hh.length.resolve_left fun e => ?_
      rw [e] at hx; simp at hx
    omega
  unfold recover_from_log
  have hroom : Room E (reboot log d) [] [] :=
    .inr ⟨rfl, fun x hx => absurd hx (reboot_clean x), by decide⟩
  refine wp_seq (read_head_spec reboot_coh hroom (by rw [hshow]; exact hh.count)) ?_
  rintro _ s₁ ⟨hc1, hdisk1, hwr1, hlog1, hlook1, hdirty1⟩
  have hlook1' : look s₁ = d := by rw [funext hlook1, hshow]
  have hlh1 : s₁.log.lh = decodeHead (d log.start) := by rw [hlog1]; rfl
  have hst1 : s₁.log.start = log.start := by rw [hlog1]; rfl
  refine wp_seq (R := fun _ s2 => Ran [] s₁ s2 (installWrites log.start d 0 (decodeHead (d log.start)))
    ∧ look s2 log.start = d log.start ∧ ∀ x, ¬ Dirty s2 x) ?_ ?_
  · simp only [install_trans, wp_bind, wp_gets, hlh1]
    refine wp_post (installFrom_spec _ 0 s₁ hc1 hh.nodup (.inr ⟨rfl, hlen⟩) ?_
      (.inr fun x hx => reboot_clean x ((hdirty1 x).1 hx))) ?_
    · grind
    · rintro _ s2 ⟨q, hl, hn⟩
      rw [hst1, hlook1'] at q
      refine ⟨q, ?_, hn⟩
      rw [hl log.start (by omega), hlook1']
  rintro _ s2 ⟨q, hl2, hn2⟩
  refine wp_seq (setLh_spec q.coh []) ?_
  rintro _ s3 ⟨hc3, hdisk3, hwr3, hlog3, hlook3, hdirty3, -⟩
  refine wp_post (write_head_spec (l := []) hc3
    (.inr ⟨rfl, fun x hx => absurd ((hdirty3 x).1 hx) (hn2 x), by decide⟩)) ?_
  rintro _ s4 ⟨v, -, -⟩
  have hst3 : s3.log.start = log.start := by rw [hlog3, q.log]; exact hst1
  have hlh3 : s3.log.lh = [] := by rw [hlog3]
  have hhead : look s3 log.start = d log.start := by rw [hlook3, hl2]
  have hw := v.writes
  have hd := v.disk
  rw [hst3, hhead, hlh3, hwr3, q.writes, hwr1] at hw
  rw [hst3, hhead, hlh3, hdisk3, q.disk, hdisk1] at hd
  refine ⟨hw, ?_⟩
  rw [hd, recoverTrace, applyWrites_append]
  rfl

/-- **A recovery leaves every sector outside the log alone**, wherever it is cut: it copies from
home to log. -/
theorem recoverTrace_outside (hp : 0 < log.size) (hh : Header log (d log.start)) (k : Nat) :
    SameOutside log (applyWrites d ((recoverTrace log.start d).take k)) d := by
  intro sec hsec
  refine applyWrites_eq _ d rfl fun w hw hwx => ?_
  rcases List.mem_append.1 (List.mem_of_mem_take hw) with hw | hw
  · rcases mem_installWrites hw with hlog | hhome
    · have : (decodeHead (d log.start)).length < log.size := by
        refine hh.length.resolve_left fun e => ?_
        rw [e] at hlog; simp at hlog; omega
      omega
    · rw [hhome.2, hwx]
  · grind

/-- The header block after some writes is one that was there or one that was written. -/
theorem applyWrites_cases (ws : List (Nat × Block)) (d : Nat → Block) (x : Nat) :
    applyWrites d ws x = d x ∨ ∃ w ∈ ws, w.1 = x ∧ applyWrites d ws x = w.2 := by
  induction ws generalizing d with
  | nil => exact .inl rfl
  | cons w ws ih =>
    rcases ih (update d w.1 w.2) with h | ⟨v, hv, hx, h⟩
    · by_cases hw : x = w.1
      · subst hw
        rw [update_self] at h
        exact .inr ⟨w, by simp, rfl, h⟩
      · rw [update_of_ne hw] at h
        exact .inl h
    · exact .inr ⟨v, List.mem_cons_of_mem _ hv, hx, h⟩

/-- A header that says nothing is logged. -/
theorem Header.of_zero {b : Block} (h : headN b = 0) : Header log b := by
  have hd : decodeHead b = [] := by simp [decodeHead, h]
  exact ⟨by rw [h]; decide, by rw [hd]; exact List.nodup_nil, .inl hd, by simp [hd]⟩

/-- A header that `write_head` writes. -/
theorem Header.of_put {b : Block} {lh : List Nat} (hs : log.size ≤ LOGSIZE) (hnd : lh.Nodup)
    (hlen : lh = [] ∨ lh.length < log.size) (hout : ∀ x ∈ lh, Outside log x) :
    Header log (putHead b lh) := by
  have hle : lh.length ≤ LOGSIZE := by
    rcases hlen with rfl | h
    · simp
    · omega
  have hd := decodeHead_putHead b hle fun x hx => (hout x hx).2
  exact ⟨by rw [headN_putHead b hle]; exact_mod_cast hle, by rw [hd]; exact hnd,
    by rw [hd]; exact hlen, by rw [hd]; exact hout⟩

/-- A crash in the middle of a recovery leaves a header that a recovery can read. -/
theorem Header.recover (hp : 0 < log.size) (hs : log.size ≤ LOGSIZE)
    (hh : Header log (d log.start)) (k : Nat) :
    Header log (applyWrites d ((recoverTrace log.start d).take k) log.start) := by
  rcases applyWrites_cases ((recoverTrace log.start d).take k) d log.start with h | ⟨w, hw, hx, h⟩
  · rw [h]; exact hh
  rw [h]
  rcases List.mem_append.1 (List.mem_of_mem_take hw) with hw | hw
  · rcases mem_installWrites hw with hlog | hhome
    · omega
    · have := (hh.outside w.1 hhome.1).1
      omega
  · rw [List.mem_singleton] at hw
    subst hw
    exact .of_put hs List.nodup_nil (.inl rfl) (by simp)

end

/-! ## Crash atomicity -/

/-- The disks that a machine which crashed with `d` can have after any number of reboots that
crash again during their recovery. -/
inductive Crashes (log : Log) (d : Nat → Block) : (Nat → Block) → Prop where
  | refl : Crashes log d d
  | again {d₁ : Nat → Block} {s : State} (k : Nat) : Crashes log d d₁ →
      recover_from_log (reboot log d₁) = .ok ((), s) →
      Crashes log d (applyWrites d₁ (s.writes.take k))

/-- Crash atomicity of one transaction: after a crash at any of its commit's writes, and any
number of crashes during recovery, a recovery runs to completion and leaves the sectors outside
the log as before the transaction or as after it; and as after it when the header with the
logged sectors had been written. -/
def CrashAtomic (s : State) (ops : List TxOp) : Prop :=
  ∀ s₁ s₂, runOps ops s = .ok ((), s₁) → commit_trans s₁ = .ok ((), s₂) →
    ∀ k d, Crashes s.log (applyWrites s.disk (s₂.writes.take k)) d →
      ∃ s₃, recover_from_log (reboot s.log d) = .ok ((), s₃) ∧
        (SameOutside s.log s₃.disk s.disk ∨ SameOutside s.log s₃.disk (after ops s.disk)) ∧
        (0 < k → s₁.log.lh ≠ [] → SameOutside s.log s₃.disk (after ops s.disk))

section
variable {s s₁ : State} {ops : List TxOp}

/-- Recovery, as the run that it is. -/
theorem recover_run {log : Log} {d : Nat → Block} (hs : log.size ≤ LOGSIZE)
    (hh : Header log (d log.start)) : ∃ s', recover_from_log (reboot log d) = .ok ((), s') ∧
      s'.writes = recoverTrace log.start d ∧ s'.disk = applyWrites d (recoverTrace log.start d) := by
  obtain ⟨⟨⟩, s', hrun, h⟩ := wp_total (recover_from_log_spec hs hh)
  exact ⟨s', hrun, h⟩

/-- Crashes during recovery change nothing outside the log, and the last recovery completes. -/
theorem Crashes.outside {log : Log} {d d' : Nat → Block} (hp : 0 < log.size)
    (hs : log.size ≤ LOGSIZE) (hh : Header log (d log.start)) (h : Crashes log d d') :
    Header log (d' log.start) ∧ SameOutside log d' d := by
  induction h with
  | refl => exact ⟨hh, fun _ _ => rfl⟩
  | again k _ hrun ih =>
    obtain ⟨hh', hsame⟩ := ih
    obtain ⟨s', hrun', hw, -⟩ := recover_run hs hh'
    cases hrun.symm.trans hrun'
    rw [hw]
    exact ⟨hh'.recover hp hs k, fun sec hsec =>
      (recoverTrace_outside hp hh' k sec hsec).trans (hsame sec hsec)⟩

/-- The commit of a transaction, as the run that it is. -/
theorem commit_run (h : InTrans s [] s₁) (hs : s.log.size ≤ LOGSIZE) :
    ∃ s2, commit_trans s₁ = .ok ((), s2) ∧ s2.writes = s₁.writes ++
      if s₁.log.lh = [] then [] else commitTrace s₁.log.start (look s₁) s₁.log.lh := by
  obtain ⟨⟨⟩, s2, hrun, hc⟩ := wp_total (commit_trans_spec h.steady (.inr ⟨rfl, h.room hs⟩))
  exact ⟨s2, hrun, hc.writes⟩

/-- The crash in the middle of a commit leaves a header that a recovery can read. -/
theorem Header.commit (hq : Quiescent s) (h : InTrans s [] s₁) (k : Nat) :
    Header s.log (applyWrites s.disk
      ((commitTrace s.log.start (look s₁) s₁.log.lh).take k) s.log.start) := by
  have hsz : s₁.log.size = s.log.size := by rw [h.log]
  have hlen := h.length
  rw [hsz] at hlen
  rcases applyWrites_cases ((commitTrace s.log.start (look s₁) s₁.log.lh).take k) s.disk
    s.log.start with he | ⟨w, hw, hx, he⟩
  · rw [he]; exact .of_zero hq.head
  rw [he]
  have hw := List.mem_of_mem_take hw
  simp only [commitTrace, List.cons_append, List.mem_cons, List.mem_append, List.not_mem_nil,
    or_false] at hw
  rcases hw with rfl | hw | rfl
  · exact .of_put hq.size h.nodup hlen h.outside
  · have hpos := hq.pos
    rcases mem_installWrites hw with hlog | hhome
    · omega
    · have := (h.outside w.1 hhome.1).1
      omega
  · exact .of_put hq.size List.nodup_nil (.inl rfl) (by simp)

/-- A crash in the middle of a commit leaves every sector outside the log old or new. -/
theorem commitTrace_torn (hq : Quiescent s) (h : InTrans s [] s₁) (k : Nat) {sec : Nat}
    (hsec : sec < s.log.start ∨ s.log.start + s.log.size ≤ sec) {d : Nat → Block}
    (hd : d = applyWrites s.disk ((commitTrace s.log.start (look s₁) s₁.log.lh).take k)) :
    d sec = s.disk sec ∨ d sec = look s₁ sec := by
  have hpos := hq.pos
  subst hd
  rcases applyWrites_cases ((commitTrace s.log.start (look s₁) s₁.log.lh).take k) s.disk sec with
    he | ⟨w, hw, hwx, he⟩
  · exact .inl he
  have hw := List.mem_of_mem_take hw
  simp only [commitTrace, List.cons_append, List.mem_cons, List.mem_append, List.not_mem_nil,
    or_false] at hw
  rcases hw with rfl | hw | rfl
  · omega
  · rcases mem_installWrites hw with hlog | hhome
    · have hne : s₁.log.lh ≠ [] := fun e => by rw [e] at hlog; simp at hlog; omega
      have hlen := h.length.resolve_left hne
      have hsz : s₁.log.size = s.log.size := by rw [h.log]
      omega
    · exact .inr (by rw [he, hhome.2, hwx])
  · omega

/-- A transaction that changes nothing stays unchanged at every crash. -/
theorem commitTrace_outside (hq : Quiescent s) (h : InTrans s [] s₁)
    (hsame : SameOutside s.log (look s₁) s.disk) (k : Nat) : SameOutside s.log (applyWrites s.disk
      ((commitTrace s.log.start (look s₁) s₁.log.lh).take k)) s.disk := fun sec hsec =>
  (commitTrace_torn hq h k hsec rfl).elim id fun e => e.trans (hsame sec hsec)

/-- A transaction that logged nothing changed nothing. -/
theorem InTrans.after_eq (h : InTrans s [] s₁) (hlook : look s₁ = after ops s.disk)
    (he : s₁.log.lh = []) : after ops s.disk = s.disk := by
  rw [← hlook]
  funext x
  rw [h.coh.look_clean fun hd => by have := (h.dirty x).1 hd; simp [he] at this, h.disk]

/-- **A crash after the header is written is not rolled forward**: crash atomicity of a transaction
implies that the transaction leaves every sector outside the log as it was. -/
theorem CrashAtomic.unchanged (hq : Quiescent s) (h : InTrans s [] s₁)
    (hlook : look s₁ = after ops s.disk) (hrun : runOps ops s = .ok ((), s₁))
    (hatomic : CrashAtomic s ops) : SameOutside s.log (after ops s.disk) s.disk := by
  by_cases he : s₁.log.lh = []
  · intro sec _
    rw [h.after_eq hlook he]
  obtain ⟨s2, hcommit, hw⟩ := commit_run h hq.size
  have hst : s₁.log.start = s.log.start := by rw [h.log]
  rw [h.writes, hq.writes, if_neg he, hst, List.nil_append] at hw
  obtain ⟨s3, hrec, -, hafter⟩ := hatomic s₁ s2 hrun hcommit 1 _ .refl
  rw [hw] at hrec
  have hh := Header.commit hq h 1
  obtain ⟨s3', hrec', hw3, hd3⟩ := recover_run hq.size hh
  cases hrec.symm.trans hrec'
  intro sec hsec
  have hpos := hq.pos
  rw [← hafter Nat.one_pos he sec hsec, hd3, ← List.take_length (l := recoverTrace _ _),
    recoverTrace_outside hpos hh _ sec hsec]
  -- only the header had been written
  simp only [commitTrace, List.cons_append, List.take_succ_cons, List.take_zero, applyWrites_cons,
    applyWrites_nil]
  rw [update_of_ne (by omega)]

/-- **The log is crash atomic exactly for the transactions that leave every sector outside the
log as it was.** -/
theorem crashAtomic_iff_unchanged (hq : Quiescent s)
    (hout : ∀ op ∈ ops, Outside s.log op.sector) (hrun : runOps ops s = .ok ((), s₁)) :
    CrashAtomic s ops ↔ SameOutside s.log (after ops s.disk) s.disk := by
  obtain ⟨hin, hlook⟩ := wp_ok (runOps_spec (E := fun e => e = .tooBig) hq hout rfl) hrun
  refine ⟨fun hatomic => hatomic.unchanged hq hin hlook hrun, fun hsame => ?_⟩
  intro s₁' s₂ hrun' hcommit k d hcrash
  cases hrun.symm.trans hrun'
  obtain ⟨s₂', hcommit', hw⟩ := commit_run hin hq.size
  cases hcommit.symm.trans hcommit'
  have hst : s₁.log.start = s.log.start := by rw [hin.log]
  rw [hin.writes, hq.writes, hst, List.nil_append] at hw
  -- the crash in the commit, then those in recovery, then the last recovery
  have hcut : Header s.log (applyWrites s.disk (s₂.writes.take k) s.log.start) ∧
      SameOutside s.log (applyWrites s.disk (s₂.writes.take k)) s.disk := by
    by_cases he : s₁.log.lh = []
    · rw [if_pos he] at hw
      rw [hw]
      simp only [List.take_nil, applyWrites_nil]
      exact ⟨.of_zero hq.head, fun _ _ => rfl⟩
    · rw [if_neg he] at hw
      rw [hw]
      exact ⟨Header.commit hq hin k, commitTrace_outside hq hin (hlook ▸ hsame) k⟩
  obtain ⟨hh, hsame'⟩ := hcrash.outside hq.pos hq.size hcut.1
  obtain ⟨s₃, hrec, -, hd₃⟩ := recover_run hq.size hh
  have hfinal : SameOutside s.log s₃.disk s.disk := by
    intro sec hsec
    rw [hd₃, ← List.take_length (l := recoverTrace _ _),
      recoverTrace_outside hq.pos hh _ sec hsec, hsame' sec hsec, hcut.2 sec hsec]
  exact ⟨s₃, hrec, .inl hfinal, fun _ _ sec hsec =>
    (hfinal sec hsec).trans (hsame sec hsec).symm⟩

/-- **What a crash leaves.** After a crash at any write of a commit and any number of crashes during
recovery, a recovery completes and changes nothing outside the log: every sector is as the first
crash left it, before or after the transaction, each one for itself. -/
theorem crash_torn {s₂ : State} {d : Nat → Block} (hq : Quiescent s)
    (hout : ∀ op ∈ ops, Outside s.log op.sector) (hrun : runOps ops s = .ok ((), s₁))
    (hcommit : commit_trans s₁ = .ok ((), s₂)) (k : Nat)
    (hcrash : Crashes s.log (applyWrites s.disk (s₂.writes.take k)) d) :
    ∃ s₃, recover_from_log (reboot s.log d) = .ok ((), s₃) ∧
      SameOutside s.log s₃.disk (applyWrites s.disk (s₂.writes.take k)) ∧
      ∀ sec, (sec < s.log.start ∨ s.log.start + s.log.size ≤ sec) →
        s₃.disk sec = s.disk sec ∨ s₃.disk sec = after ops s.disk sec := by
  obtain ⟨hin, hlook⟩ := wp_ok (runOps_spec (E := fun e => e = .tooBig) hq hout rfl) hrun
  obtain ⟨s₂', hcommit', hw⟩ := commit_run hin hq.size
  cases hcommit.symm.trans hcommit'
  have hst : s₁.log.start = s.log.start := by rw [hin.log]
  rw [hin.writes, hq.writes, hst, List.nil_append] at hw
  generalize hd₀ : applyWrites s.disk (s₂.writes.take k) = d₀ at hcrash ⊢
  have hcut : Header s.log (d₀ s.log.start) ∧
      ∀ sec, (sec < s.log.start ∨ s.log.start + s.log.size ≤ sec) →
        d₀ sec = s.disk sec ∨ d₀ sec = after ops s.disk sec := by
    rw [← hd₀, hw, ← hlook]
    split
    · rw [List.take_nil]
      exact ⟨.of_zero hq.head, fun _ _ => .inl rfl⟩
    · exact ⟨Header.commit hq hin k, fun _ hsec => commitTrace_torn hq hin k hsec rfl⟩
  obtain ⟨hh, hsame⟩ := hcrash.outside hq.pos hq.size hcut.1
  obtain ⟨s₃, hrec, -, hd₃⟩ := recover_run hq.size hh
  have hlast : SameOutside s.log s₃.disk d₀ := fun sec hsec => by
    rw [hd₃, ← List.take_length (l := recoverTrace _ _),
      recoverTrace_outside hq.pos hh _ sec hsec, hsame sec hsec]
  exact ⟨s₃, hrec, hlast, fun sec hsec => hlast sec hsec ▸ hcut.2 sec hsec⟩

end

theorem blank_quiescent : Quiescent blank :=
  ⟨reboot_coh, reboot_clean, rfl, rfl, rfl, by decide, by decide, by decide⟩

/-- A crash after the first write of the commit that fills sector `40`. -/
theorem crash_torn_ones : ∃ s₁ s₂ s₃, runOps [.write 40 fun _ _ => 1] blank = .ok ((), s₁) ∧
    commit_trans s₁ = .ok ((), s₂) ∧
    recover_from_log (reboot blank.log (applyWrites blank.disk (s₂.writes.take 1))) =
      .ok ((), s₃) := by
  have hout : ∀ op ∈ [TxOp.write 40 fun _ _ => 1], Outside blank.log op.sector := by
    simp [Outside, TxOp.sector, blank, reboot, binit]
  obtain ⟨s₁, hrun⟩ : ∃ s₁, runOps [.write 40 fun _ _ => 1] blank = .ok ((), s₁) := ⟨_, rfl⟩
  have hin := wp_ok (runOps_spec (E := fun e => e = .tooBig) blank_quiescent hout rfl) hrun
  obtain ⟨s₂, hcommit, -⟩ := commit_run hin.1 (by decide)
  obtain ⟨s₃, hrec, -⟩ := crash_torn blank_quiescent hout hrun hcommit 1 .refl
  exact ⟨s₁, s₂, s₃, hrun, hcommit, hrec⟩

/-- Logging one sector again with the contents it has is crash atomic. -/
theorem crashAtomic_same_contents : CrashAtomic blank [.write 40 fun b => b] :=
  (crashAtomic_iff_unchanged blank_quiescent (by simp [Outside, TxOp.sector, blank, reboot, binit])
    rfl).2 fun sec _ => by simp [after, TxOp.effect]

/-- The transaction that fills sector `40` with ones is not crash atomic: a crash after the first
write of its commit loses it, although the header on disk says that it is committed. -/
theorem not_crashAtomic_ones : ¬ CrashAtomic blank [.write 40 fun _ _ => 1] := by
  intro hatomic
  have hout : ∀ op ∈ [TxOp.write 40 fun _ _ => 1], Outside blank.log op.sector := by
    simp [Outside, TxOp.sector, blank, reboot, binit]
  obtain ⟨s₁, hrun⟩ : ∃ s₁, runOps [.write 40 fun _ _ => 1] blank = .ok ((), s₁) := ⟨_, rfl⟩
  obtain ⟨hin, hlook⟩ := wp_ok (runOps_spec (E := fun e => e = .tooBig) blank_quiescent hout rfl) hrun
  have h := hatomic.unchanged blank_quiescent hin hlook hrun 40 (.inl (by decide))
  have := congrFun h 0
  simp [after, TxOp.effect, blank, reboot, binit, zeroBlock] at this

end Dixv6.Disk
