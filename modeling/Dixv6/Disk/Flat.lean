import Dixv6.Disk.Install

/-!
# The cache and the log as a flat disk

Between and inside transactions the dirty sectors are the logged ones (`Steady`). `log_write` and
`commit_trans` keep this, whatever buffers other processes hold meanwhile.

`Reaches` collects the states that any sequence of `bread`, `log_write`, `brelse`, `begin_trans` and
`commit_trans` leads to, together with a flat disk on which each `log_write` simply stores. The
main result, `cache_refines_flat_disk`: every `bread` finds what the flat disk holds, and after
every `commit_trans` so does the disk.
-/

namespace Dixv6.Disk

open Lib Function

/-- The sector is outside the log area and is a C `uint`. -/
def Outside (log : Log) (sec : Nat) : Prop :=
  (sec < log.start ∨ log.start + log.size ≤ sec) ∧ sec < 2 ^ 32

/-- Two disks agree outside the log area. -/
def SameOutside (log : Log) (d d' : Nat → Block) : Prop :=
  ∀ sec, (sec < log.start ∨ log.start + log.size ≤ sec) → d sec = d' sec

/-- The logged sectors are the dirty ones, none is in the log area, and they fit the log. -/
structure Steady (held : List Nat) (s : State) : Prop where
  coh : Coh s held []
  dirty : ∀ x, Dirty s x ↔ x ∈ s.log.lh
  nodup : s.log.lh.Nodup
  length : s.log.lh = [] ∨ s.log.lh.length < s.log.size
  outside : ∀ x ∈ s.log.lh, Outside s.log x

section
variable {s s₁ s' : State} {held held' : List Nat} {i sec : Nat} {data : Block} {E : Stop → Prop}

/-- A `bread` keeps the logged sectors. -/
theorem Steady.read (h : Steady held s) (r : Read s held sec i s') : Steady (i :: held) s' :=
  ⟨r.coh, fun x => by rw [r.dirty, r.log]; exact h.dirty x, r.log ▸ h.nodup, r.log ▸ h.length,
    r.log ▸ h.outside⟩

/-- So does a `brelse`. -/
theorem Steady.release (h : Steady held s) (r : Released s held' s') : Steady held' s' :=
  ⟨r.coh, fun x => by rw [r.dirty, r.log]; exact h.dirty x, r.log ▸ h.nodup, r.log ▸ h.length,
    r.log ▸ h.outside⟩

/-- The header of a log that is no larger than `mkfs` makes it never fills the cache. -/
theorem Steady.room (h : Steady held s) (hs : s.log.size ≤ LOGSIZE) : s.log.lh.length < NBUF := by
  rcases h.length with h' | h'
  · rw [h']; decide
  · lia

/-! ## `log_write` -/

/-- What a `log_write` leaves: the flat disk that the change of the buffer made, and everything
but the dirty flags and the header as it was. -/
structure Logged (held : List Nat) (s₁ s' : State) : Prop where
  steady : Steady held s'
  look : look s' = look s₁
  disk : s'.disk = s₁.disk
  writes : s'.writes = s₁.writes
  log : s'.log = { s₁.log with lh := s'.log.lh }
  fields : ∀ j, (s'.buf j).sector = (s₁.buf j).sector ∧ (s'.buf j).data = (s₁.buf j).data

/-- A changed buffer is marked dirty when its sector is in the header. -/
theorem Steady.mark (h : Steady held s) (lh : List Nat) (hi : i < NBUF)
    (hout : Outside s.log sec) (hc : Changed s held i sec data s₁)
    (hlh : ∀ x, x ∈ lh ↔ x ∈ s.log.lh ∨ x = sec) (hnd : lh.Nodup) (hlen : lh.length < s.log.size) :
    wp (setBuf i fun buf => { buf with dirty := true }) (fun _ s' => Logged held s₁ s') E
      { s₁ with log := { s₁.log with lh := lh } } := by
  have hcoh : Coh { s₁ with
      buf := update s₁.buf i { s₁.buf i with dirty := true }
      log := { s₁.log with lh := lh } } held [] := by
    refine hc.coh.set rfl rfl ?_ (fun _ => hc.coh.valid i sec hi hc.sector) (by simp) ?_
      (hc.coh.busy i hi) (fun _ _ => Iff.rfl) ?_ (fun _ _ _ _ _ => rfl)
    · intro x hx j hj hji hjs
      exact hji (hc.coh.inj j i x hj hi hjs hx)
    · intro _; simp [hc.sector]
    · intro j hji _; simpa using hji
  refine ⟨⟨hcoh, ?_, hnd, .inr ?_, ?_⟩, ?_, rfl, rfl, rfl, ?_⟩
  · intro x
    rw [dirty_set hi rfl, hlh, ← h.dirty, ← hc.dirty, dirty_split (s := s₁) hi]
    simp only [hc.sector, Option.some.injEq]
    constructor
    · grind
    · grind
  · rw [hc.log]; exact hlen
  · intro x hx
    rw [hc.log]
    rcases (hlh x).1 hx with hx | rfl
    · exact h.outside x hx
    · exact hout
  · funext x
    by_cases hx : x = sec
    · subst hx
      rw [hc.coh.look_cached hi hc.sector, hcoh.look_cached (i := i) hi (by simp [hc.sector])]
      simp
    · have hne : (s₁.buf i).sector ≠ some x := by rw [hc.sector]; simpa using fun e => hx e.symm
      exact hc.coh.look_other hcoh rfl hne hne rfl
  · grind

/-- `log_write` of a held buffer whose data has just been changed. -/
theorem log_write_spec (h : Steady held s)
    (hE : E .tooBig ∨ (s.log.lh.length < LOGSIZE ∧ s.log.lh.length + 1 < s.log.size))
    (hE' : E .outsideTrans ∨ s.log.busy = true) (hi : i < NBUF) (hout : Outside s.log sec)
    (hc : Changed s held i sec data s₁) :
    wp (log_write i) (fun _ s' => Logged held s₁ s') E s₁ := by
  have hlog : s₁.log = s.log := hc.log
  simp only [log_write, wp_bind, wp_gets, wp_stopIf, hc.sector, Option.getD_some]
  refine ⟨fun hbig => hE.resolve_right ?_, fun hroom => ⟨fun hb => hE'.resolve_right ?_,
    fun _ => ?_⟩⟩
  · rw [hlog] at hbig
    omega
  · rw [hlog] at hb
    simpa using hb
  rw [hlog] at hroom ⊢
  split
  · next hin =>
    have hmark := h.mark (E := E) s.log.lh hi hout hc
      (fun x => ⟨.inl, fun hx => hx.elim id fun e => e ▸ hin⟩) h.nodup (by omega)
    rwa [← hlog] at hmark
  · next hin =>
    refine h.mark (E := E) _ hi hout hc (by simp) ?_ ?_
    · refine List.nodup_append.2 ⟨h.nodup, by simp, ?_⟩
      rintro a ha b hb rfl
      rw [List.mem_singleton] at hb
      exact hin (hb ▸ ha)
    · rw [List.length_append, List.length_singleton]
      omega

end

/-! ## `commit_trans` -/

/-- The sector writes of a commit that logs `lh` and shows `shown`. -/
def commitTrace (start : Nat) (shown : Nat → Block) (lh : List Nat) : List (Nat × Block) :=
  (start, putHead (shown start) lh) :: installWrites start shown 0 lh ++
    [(start, putHead (putHead (shown start) lh) [])]

/-- The writes of a commit: none for an empty header. -/
def commitIssues (s : State) : List (Nat × Block) :=
  if s.log.lh = [] then [] else commitTrace s.log.start (look s) s.log.lh

/-- What a `commit_trans` leaves: the writes are issued, nothing is dirty or logged, and outside
the log the flat disk is as it was. -/
structure Committed (held : List Nat) (s s' : State) : Prop where
  coh : Coh s' held []
  clean : ∀ x, ¬ Dirty s' x
  log : s'.log = { s.log with busy := false, lh := [] }
  look : SameOutside s.log (look s') (look s)
  writes : s'.writes = s.writes ++ commitIssues s
  disk : s'.disk = applyWrites s.disk (commitIssues s)
  kept : ∀ j ∈ held, (s'.buf j).sector = (s.buf j).sector

section
variable {s s' : State} {held : List Nat} {E : Stop → Prop}

/-- The end of a commit: the transaction is no longer active. -/
theorem Committed.idle (h : Coh s held []) (hd : ∀ x, ¬ Dirty s x) {s0 : State}
    (hlog : s.log = { s0.log with lh := [] })
    (hlook : SameOutside s0.log (Disk.look s) (Disk.look s0))
    (hw : s.writes = s0.writes ++ commitIssues s0)
    (hdisk : s.disk = applyWrites s0.disk (commitIssues s0))
    (hkept : ∀ j ∈ held, (s.buf j).sector = (s0.buf j).sector) :
    Committed held s0 { s with log := { s.log with busy := false } } :=
  ⟨⟨h.nodup, h.mem, h.inj, h.valid, h.clean, h.dirty, h.busy⟩, hd, by rw [hlog], hlook, hw, hdisk,
    hkept⟩

/-- **`commit_trans`** issues the commit's writes and leaves nothing dirty. -/
theorem commit_trans_spec (h : Steady held s)
    (hr : (E .sleep ∧ E .bgetNoBuffers) ∨ (held = [] ∧ s.log.lh.length < NBUF)) :
    wp commit_trans (fun _ s' => Committed held s s') E s := by
  simp only [commit_trans, commitWrites, wp_bind, wp_gets, wp_modify]
  by_cases he : s.log.lh = []
  · have hno : ¬ 0 < s.log.lh.length := by simp [he]
    simp only [hno, if_false, wp_pure]
    have hissue : commitIssues s = [] := if_pos he
    refine .idle h.coh (fun x hx => ?_) (by rw [← he]) (fun _ _ => rfl) (by simp [hissue])
      (by simp [hissue]) fun _ _ => rfl
    have := (h.dirty x).1 hx
    simp [he] at this
  have hpos : 0 < s.log.lh.length := List.length_pos_of_ne_nil he
  have hlen : s.log.lh.length < s.log.size := h.length.resolve_left he
  simp only [hpos, if_true]
  have houtside : ∀ x ∈ s.log.lh, x < s.log.start ∨ s.log.start + s.log.lh.length < x := by
    intro x hx
    have := (h.outside x hx).1
    omega
  have hroom : Room E s held s.log.lh :=
    hr.imp_right fun hr => ⟨hr.1, fun x hx => (h.dirty x).1 hx, hr.2⟩
  refine wp_seq (write_head_spec h.coh hroom) ?_
  rintro _ s₁ ⟨r, hlook, hdirty⟩
  have hlog1 : s₁.log = s.log := r.log
  have hd1 : ∀ x, Dirty s₁ x ↔ x ∈ s.log.lh := by
    intro x
    rw [hdirty, h.dirty]
    constructor
    · exact fun hx => hx.1
    · grind
  refine wp_seq (R := fun _ s2 => Ran held s₁ s2 (installWrites s.log.start (look s₁) 0 s.log.lh) ∧
    (∀ x, x ≤ s.log.start ∨ s.log.start + s.log.lh.length < x → look s2 x = look s₁ x) ∧
    ∀ x, ¬ Dirty s2 x) ?_ ?_
  · simp only [install_trans, wp_bind, wp_gets, hlog1]
    refine wp_post (installFrom_spec s.log.lh 0 s₁ r.coh h.nodup hr ?_ (.inl hd1)) ?_
    · grind
    · grind
  rintro _ s2 ⟨q, hl2, hn2⟩
  refine wp_seq (setLh_spec q.coh []) ?_
  rintro _ s3 ⟨hc3, hdisk3, hwr3, hlog3, hlook3, hdirty3, hbuf3⟩
  have hclean3 : ∀ x, ¬ Dirty s3 x := fun x hx => hn2 x ((hdirty3 x).1 hx)
  have hroom3 : Room E s3 held [] :=
    hr.imp_right fun hr => ⟨hr.1, fun x hx => absurd hx (hclean3 x), by decide⟩
  refine wp_post (write_head_spec hc3 hroom3) ?_
  rintro _ s4 ⟨v, hlook4, hdirty4⟩
  have hst3 : s3.log.start = s.log.start := by rw [hlog3, q.log, hlog1]
  have hlh3 : s3.log.lh = [] := by rw [hlog3]
  have hhead : look s3 s.log.start = putHead (look s s.log.start) s.log.lh := by
    rw [hlook3, hl2 _ (by omega), hlook, update_self]
  -- the home sectors are outside the log, so writing the header did not change what they show
  have hshown : installWrites s.log.start (look s₁) 0 s.log.lh =
      installWrites s.log.start (look s) 0 s.log.lh := by
    refine installWrites_congr fun x hx => ?_
    have := houtside x hx
    rw [hlook, update_of_ne (by omega)]
  have hissue : commitIssues s = commitTrace s.log.start (look s) s.log.lh := if_neg he
  have hw := v.writes
  have hd := v.disk
  rw [hst3, hhead, hlh3, hwr3, q.writes, r.writes, hshown] at hw
  rw [hst3, hhead, hlh3, hdisk3, q.disk, r.disk, hshown] at hd
  refine .idle v.coh (fun x hx => hclean3 x ((hdirty4 x).1 hx).1) ?_ ?_ ?_ ?_ fun j hj => ?_
  · rw [v.log, hlog3, q.log, hlog1]
  · intro x hx
    rw [hlook4, hst3, update_of_ne (by omega), hlook3, hl2 x (by omega), hlook,
      update_of_ne (by omega)]
  · rw [hw, hissue]
    simp [commitTrace]
  · rw [hd, hissue]
    simp [commitTrace]
  · rw [v.kept j hj, hbuf3, q.kept j hj, r.kept j hj]

/-- Between transactions nothing is logged. -/
theorem Committed.steady (h : Committed held s s') : Steady held s' := by
  have hlh : s'.log.lh = [] := by rw [h.log]
  refine ⟨h.coh, fun x => ?_, ?_, .inl hlh, ?_⟩
  · rw [hlh]
    exact ⟨fun hx => absurd hx (h.clean x), fun hx => absurd hx (by simp)⟩
  · rw [hlh]; exact List.nodup_nil
  · rw [hlh]; simp

/-- The header on disk says that nothing is logged, if it said so before the transaction. -/
theorem Committed.head (h : Committed held s s') (h0 : headN (s.disk s.log.start) = 0) :
    headN (s'.disk s.log.start) = 0 := by
  rw [h.disk]
  by_cases he : s.log.lh = []
  · simp [commitIssues, he, h0]
  · have hput : applyWrites s.disk (commitIssues s) s.log.start =
        putHead (putHead (Disk.look s s.log.start) s.log.lh) [] := by
      simp [commitIssues, he, commitTrace]
    rw [hput, headN_putHead _ (by simp)]
    rfl

end

/-! ## Runs -/

/-- A call on the cache or the log. -/
inductive Ev where
  | bread (sector : Nat)
  /-- The holder of a buffer changes its data and calls `log_write`. -/
  | write (i : Nat) (f : Block → Block)
  | brelse (i : Nat)
  | begin_trans
  | commit_trans

/-- The state, with the buffers that some process holds and the flat disk: the initial contents of
each sector, or what the last `log_write` gave it. -/
structure Conf where
  s : State
  held : List Nat
  flat : Nat → Block

/-- The code of a change followed by `log_write`. -/
def writeBuf (i : Nat) (f : Block → Block) : M Unit := do
  setBuf i fun b => { b with data := f b.data }
  log_write i

/-- One call. -/
def Conf.step (c : Conf) : Ev → Except Stop Conf
  | .bread sec => (Disk.bread sec c.s).map fun r => ⟨r.2, r.1 :: c.held, c.flat⟩
  | .write i f => (writeBuf i f c.s).map fun r =>
    ⟨r.2, c.held, update c.flat ((c.s.buf i).sector.getD 0) (f (c.s.buf i).data)⟩
  | .brelse i => (Disk.brelse i c.s).map fun r => ⟨r.2, c.held.erase i, c.flat⟩
  | .begin_trans => (Disk.begin_trans c.s).map fun r => ⟨r.2, c.held, c.flat⟩
  | .commit_trans => (Disk.commit_trans c.s).map fun r => ⟨r.2, c.held, c.flat⟩

/-- The calls that processes make: they read sectors outside the log, and write and release
buffers that they hold. -/
def Ev.Ok (c : Conf) : Ev → Prop
  | .bread sec => Outside c.s.log sec
  | .write i _ => i ∈ c.held
  | .brelse i => i ∈ c.held
  | .begin_trans => True
  | .commit_trans => True

/-- The calls that neither wait for another process nor find the cache or the log full. -/
def Ev.Fits (c : Conf) : Ev → Prop
  | .bread sec => (∀ j ∈ c.held, (c.s.buf j).sector ≠ some sec) ∧
    c.s.log.lh.length + c.held.length < NBUF
  | .write _ _ => c.s.log.busy = true ∧ c.s.log.lh.length < LOGSIZE ∧
    c.s.log.lh.length + 1 < c.s.log.size
  | .brelse _ => True
  | .begin_trans => c.s.log.busy = false
  | .commit_trans => c.held = [] ∧ c.s.log.size ≤ LOGSIZE

/-- After a boot and the recovery: nothing held, nothing dirty, nothing logged, in memory or on
disk. -/
structure Booted (s : State) : Prop where
  coh : Coh s [] []
  clean : ∀ x, ¬ Dirty s x
  lh : s.log.lh = []
  head : headN (s.disk s.log.start) = 0

/-- What any sequence of calls reaches. -/
inductive Reaches (s₀ : State) : Conf → Prop where
  | boot : Reaches s₀ ⟨s₀, [], s₀.disk⟩
  | step {c c' : Conf} {e : Ev} (h : Reaches s₀ c) (hok : e.Ok c) (hrun : c.step e = .ok c') :
      Reaches s₀ c'

/-- The invariant of a run: outside the log the cache shows the flat disk. -/
structure Refines (c : Conf) : Prop where
  steady : Steady c.held c.s
  nodup : c.held.Nodup
  lt : ∀ i ∈ c.held, i < NBUF
  sector : ∀ i ∈ c.held, ∃ sec, (c.s.buf i).sector = some sec ∧ Outside c.s.log sec
  flat : SameOutside c.s.log (look c.s) c.flat
  head : headN (c.s.disk c.s.log.start) = 0

section
variable {c c' : Conf} {s s' : State} {i sec : Nat} {f : Block → Block} {E : Stop → Prop}

theorem Refines.bread (h : Refines c) (hout : Outside c.s.log sec) (r : Read c.s c.held sec i s') :
    Refines ⟨s', i :: c.held, c.flat⟩ := by
  refine ⟨h.steady.read r, List.nodup_cons.2 ⟨r.fresh, h.nodup⟩, ?_, ?_, ?_, ?_⟩
  · intro j hj
    rcases List.mem_cons.1 hj with rfl | hj
    · exact r.lt
    · exact h.lt j hj
  · intro j hj
    rw [r.log]
    rcases List.mem_cons.1 hj with rfl | hj
    · exact ⟨sec, r.sector, hout⟩
    · rw [r.kept j fun e => r.fresh (e ▸ hj)]
      exact h.sector j hj
  · intro x hx
    rw [r.log] at hx
    exact (r.look x).trans (h.flat x hx)
  · rw [r.disk, r.log]
    exact h.head

/-- A change and `log_write` store to the flat disk. -/
theorem Refines.write (h : Refines c) (hi : i ∈ c.held)
    (hE : E .tooBig ∨ (c.s.log.lh.length < LOGSIZE ∧ c.s.log.lh.length + 1 < c.s.log.size))
    (hE' : E .outsideTrans ∨ c.s.log.busy = true) :
    wp (writeBuf i f) (fun _ s' => Refines ⟨s', c.held,
      update c.flat ((c.s.buf i).sector.getD 0) (f (c.s.buf i).data)⟩) E c.s := by
  obtain ⟨sec, hsec, hout⟩ := h.sector i hi
  have hlt := h.lt i hi
  have hdata := h.steady.coh.look_cached hlt hsec
  refine wp_seq (setData_spec h.steady.coh hlt hsec) fun _ s₁ d => ?_
  refine wp_post (log_write_spec h.steady hE hE' hlt hout d) fun _ s' w => ?_
  have hplace : s'.log.start = c.s.log.start ∧ s'.log.size = c.s.log.size := by
    rw [w.log, d.log]
    exact ⟨rfl, rfl⟩
  refine ⟨w.steady, h.nodup, h.lt, ?_, ?_, ?_⟩
  · intro j hj
    obtain ⟨x, hx, hxout⟩ := h.sector j hj
    refine ⟨x, ?_, ?_⟩
    · rw [(w.fields j).1]
      by_cases hji : j = i
      · subst hji
        rw [d.sector, ← hsec, hx]
      · rw [d.kept j hji, hx]
    · rw [Outside, hplace.1, hplace.2]
      exact hxout
  · intro x hx
    have hx' : x < c.s.log.start ∨ c.s.log.start + c.s.log.size ≤ x := by
      rw [← hplace.1, ← hplace.2]; exact hx
    show look s' x = update c.flat ((c.s.buf i).sector.getD 0) (f (c.s.buf i).data) x
    rw [w.look, d.look, hsec, Option.getD_some, hdata]
    by_cases hxs : x = sec
    · subst hxs; simp
    · rw [update_of_ne hxs, update_of_ne hxs, h.flat x hx']
  · rw [w.disk, d.disk, hplace.1]
    exact h.head

theorem Refines.brelse (h : Refines c) (r : Released c.s (c.held.erase i) s') :
    Refines ⟨s', c.held.erase i, c.flat⟩ := by
  refine ⟨h.steady.release r, h.nodup.erase i, fun j hj => h.lt j (List.mem_of_mem_erase hj), ?_,
    ?_, ?_⟩
  · intro j hj
    rw [r.log, (r.fields j).1]
    exact h.sector j (List.mem_of_mem_erase hj)
  · intro x hx
    rw [r.log] at hx
    exact (r.look x).trans (h.flat x hx)
  · rw [r.disk, r.log]
    exact h.head

theorem Refines.begin_trans (h : Refines c) :
    Refines ⟨{ c.s with log := { c.s.log with busy := true } }, c.held, c.flat⟩ :=
  have hc := h.steady.coh
  ⟨⟨⟨hc.nodup, hc.mem, hc.inj, hc.valid, hc.clean, hc.dirty, hc.busy⟩, h.steady.dirty,
    h.steady.nodup, h.steady.length, h.steady.outside⟩, h.nodup, h.lt, h.sector, h.flat, h.head⟩

theorem Refines.commit_trans (h : Refines c) (r : Committed c.held c.s s') :
    Refines ⟨s', c.held, c.flat⟩ := by
  have hplace : s'.log.start = c.s.log.start ∧ s'.log.size = c.s.log.size := by
    rw [r.log]
    exact ⟨rfl, rfl⟩
  refine ⟨r.steady, h.nodup, h.lt, ?_, ?_, ?_⟩
  · intro j hj
    obtain ⟨x, hx, hout⟩ := h.sector j hj
    refine ⟨x, (r.kept j hj).trans hx, ?_⟩
    rw [Outside, hplace.1, hplace.2]
    exact hout
  · intro x hx
    have hx' : x < c.s.log.start ∨ c.s.log.start + c.s.log.size ≤ x := by
      rw [← hplace.1, ← hplace.2]; exact hx
    exact (r.look x hx').trans (h.flat x hx')
  · rw [hplace.1]
    exact r.head h.head

/-- A booted machine shows its disk. -/
theorem Booted.refines (h : Booted s) : Refines ⟨s, [], s.disk⟩ := by
  refine ⟨⟨h.coh, fun x => ?_, ?_, .inl h.lh, ?_⟩, List.nodup_nil, by simp, by simp,
    fun x _ => h.coh.look_clean (h.clean x), h.head⟩
  · rw [h.lh]
    exact ⟨fun hx => absurd hx (h.clean x), fun hx => absurd hx (by simp)⟩
  · rw [h.lh]; exact List.nodup_nil
  · intro x hx
    have hx' : x ∈ s.log.lh := hx
    simp [h.lh] at hx'

/-- Every call, as a computation: it keeps the invariant, and what it stops with is allowed or does
not happen. -/
theorem Refines.step (h : Refines c) {e : Ev} (hok : e.Ok c) :
    (∀ c', c.step e = .ok c' → Refines c') ∧ (e.Fits c → ∃ c', c.step e = .ok c') := by
  -- from a specification of the code to the two readings
  have hread : ∀ {α : Type} {m : M α} {g : α × State → Conf},
      (c.step e = (m c.s).map g) → (∀ E : Stop → Prop, (∀ x, E x) ∨ e.Fits c →
        wp m (fun a s' => Refines (g (a, s'))) E c.s) →
      (∀ c', c.step e = .ok c' → Refines c') ∧ (e.Fits c → ∃ c', c.step e = .ok c') := by
    intro α m g hstep hspec
    refine ⟨fun c' hc => ?_, fun hfit => ?_⟩
    · rw [hstep] at hc
      cases hm : m c.s with
      | error x => rw [hm] at hc; cases hc
      | ok r =>
        rw [hm] at hc
        cases hc
        exact wp_ok (hspec (fun _ => True) (.inl fun _ => trivial)) hm
    · obtain ⟨a, s', hm, -⟩ := wp_total (hspec (fun _ => False) (.inr hfit))
      exact ⟨g (a, s'), by rw [hstep, hm]; rfl⟩
  cases e with
  | bread sec =>
    refine hread rfl fun E hE => wp_post (bread_spec h.steady.coh ?_ ?_) fun i s' r =>
      h.bread hok r
    · exact hE.imp (fun hE => hE _) fun hfit => hfit.1
    · exact hE.imp (fun hE => hE _) fun hfit => .inr
        (h.steady.coh.exists_free (fun x hx => (h.steady.dirty x).1 hx) hfit.2)
  | write i f =>
    exact hread rfl fun E hE => h.write hok (hE.imp (fun hE => hE _) fun hfit => hfit.2)
      (hE.imp (fun hE => hE _) fun hfit => hfit.1)
  | brelse i =>
    exact hread rfl fun E _ => wp_post (brelse_spec _ h.steady.coh (h.lt i hok) hok fun j =>
      h.nodup.mem_erase_iff.trans and_comm) fun _ s' r => h.brelse r
  | begin_trans =>
    refine hread rfl fun E hE => ?_
    simp only [Disk.begin_trans, wp_bind, wp_gets, wp_stopIf, wp_modify]
    refine ⟨fun hb => ?_, fun _ => h.begin_trans⟩
    obtain hE | hfit := hE
    · exact hE _
    · have hidle : c.s.log.busy = false := hfit
      simp [hidle] at hb
  | commit_trans =>
    refine hread rfl fun E hE => wp_post (commit_trans_spec h.steady ?_) fun _ s' r =>
      h.commit_trans r
    exact hE.imp (fun hE => ⟨hE _, hE _⟩) fun hfit => ⟨hfit.1, h.steady.room hfit.2⟩

/-- The invariant holds along every run. -/
theorem Reaches.refines (h : Reaches s c) (hs : Booted s) : Refines c := by
  induction h with
  | boot => exact hs.refines
  | step _ hok hrun ih => exact (ih.step hok).1 _ hrun

end

/-- **The cache and the log refine a flat disk.** After any sequence of calls by processes that
read and write sectors outside the log, whatever `bget` evicts in between: a `bread` finds exactly
what the last `log_write` gave the sector, or its initial contents; after a `commit_trans` the disk
outside the log holds exactly that, its log header says that nothing is logged, and no buffer is
dirty; and calls that need not wait and find the cache and the log not full return. -/
theorem cache_refines_flat_disk (s₀ : State) (h₀ : Booted s₀) (c : Conf) (h : Reaches s₀ c) :
    (∀ sec i s', Outside c.s.log sec → bread sec c.s = .ok (i, s') →
      (s'.buf i).busy = true ∧ (s'.buf i).sector = some sec ∧ (s'.buf i).data = c.flat sec) ∧
    (∀ s', commit_trans c.s = .ok ((), s') →
      (∀ sec, sec < s'.log.start ∨ s'.log.start + s'.log.size ≤ sec → s'.disk sec = c.flat sec) ∧
      headN (s'.disk s'.log.start) = 0 ∧ ∀ i < NBUF, (s'.buf i).dirty = false) ∧
    ∀ e : Ev, e.Ok c → e.Fits c → ∃ c', c.step e = .ok c' := by
  have hr := h.refines h₀
  refine ⟨fun sec i s' hout hrun => ?_, fun s' hrun => ?_, fun e hok => (hr.step hok).2⟩
  · have r := wp_ok (bread_spec (E := fun _ => True) hr.steady.coh (.inl trivial) (.inl trivial))
      hrun
    refine ⟨(r.coh.busy i r.lt).2 List.mem_cons_self, r.sector, ?_⟩
    rw [← r.coh.look_cached r.lt r.sector, r.look, hr.flat sec hout.1]
  · have r := wp_ok (commit_trans_spec (E := fun _ => True) hr.steady (.inl ⟨trivial, trivial⟩))
      hrun
    have hr' := hr.commit_trans r
    refine ⟨fun sec hsec => ?_, hr'.head, fun i hi => ?_⟩
    · have hflat : look s' sec = c.flat sec := hr'.flat sec hsec
      rw [← hflat, r.coh.look_clean (r.clean sec)]
    · by_contra hd
      have hd' : (s'.buf i).dirty = true := by simpa using hd
      obtain ⟨x, hx⟩ := Option.ne_none_iff_exists'.1 (r.coh.dirty i hi hd')
      exact r.clean x ⟨i, hi, hx, hd'⟩

/-! ### A machine just booted -/

/-- A reboot: the disk as the crash left it, an empty cache, and a log record that knows where the
log is. -/
def reboot (log : Log) (d : Nat → Block) : State :=
  binit d { start := log.start, size := log.size, busy := false, lh := [] }

section
variable {log : Log} {d : Nat → Block}

/-- The empty cache is coherent and shows the disk. -/
theorem reboot_coh : Coh (reboot log d) [] [] := by
  refine ⟨by simp [reboot, binit, List.nodup_reverse, List.nodup_range], ?_, ?_, ?_, ?_, ?_, ?_⟩
  all_goals simp [reboot, binit]

theorem reboot_clean (x : Nat) : ¬ Dirty (reboot log d) x := by
  rintro ⟨i, -, h, -⟩
  simp [reboot, binit] at h

theorem reboot_look (x : Nat) : look (reboot log d) x = d x :=
  reboot_coh.look_clean (reboot_clean x)

end

/-- A machine that has just booted from a blank disk with the log where `mkfs` puts it. -/
def blank : State := reboot ⟨21019, LOGSIZE, false, []⟩ fun _ => zeroBlock

theorem blank_booted : Booted blank := ⟨reboot_coh, reboot_clean, rfl, by decide⟩

/-- The theorem at a run that fills sector 40 with ones: the commit returns, and after it the disk
holds them. -/
theorem cache_refines_blank : ∃ c, Reaches blank c ∧ c.flat 40 = (fun _ => 1) ∧
    (∃ c', c.step .commit_trans = .ok c') ∧
    ∀ s', commit_trans c.s = .ok ((), s') → 40 < s'.log.start → s'.disk 40 = fun _ => 1 := by
  have r₁ := (Reaches.boot : Reaches blank _).step (e := .begin_trans) trivial rfl
  have r₂ := r₁.step (e := .bread 40) ⟨.inl (by decide), by decide⟩ rfl
  have r₃ := r₂.step (e := .write 0 fun _ _ => 1) List.mem_cons_self rfl
  have r₄ := r₃.step (e := .brelse 0) List.mem_cons_self rfl
  have hmain := cache_refines_flat_disk blank blank_booted _ r₄
  exact ⟨_, r₄, rfl, hmain.2.2 .commit_trans trivial ⟨rfl, by decide⟩,
    fun s' hs' hlog => (hmain.2.1 s' hs').1 40 (.inl hlog)⟩

/-- **The cache and the log stay in order.** After any sequence of calls the list from `head.next`
holds every buffer once, no two buffers cache one sector, and a buffer that is not dirty holds what
the disk does; the busy buffers are those that somebody holds; and the log lists exactly the dirty
sectors, each once, none of its own, and no more than fit. -/
theorem cache_in_order (s₀ : State) (h₀ : Booted s₀) (c : Conf) (h : Reaches s₀ c) :
    c.s.mru.Perm (List.range NBUF) ∧
    (∀ i < NBUF, ∀ j < NBUF, ∀ sec, (c.s.buf i).sector = some sec → (c.s.buf j).sector = some sec →
      i = j) ∧
    (∀ i < NBUF, ((c.s.buf i).busy = true ↔ i ∈ c.held) ∧ ∀ sec, (c.s.buf i).sector = some sec →
      ((c.s.buf i).dirty = true → sec ∈ c.s.log.lh) ∧
      ((c.s.buf i).dirty = false → (c.s.buf i).data = c.s.disk sec)) ∧
    c.s.log.lh.Nodup ∧ (c.s.log.lh = [] ∨ c.s.log.lh.length < c.s.log.size) ∧
    ∀ sec ∈ c.s.log.lh, Outside c.s.log sec ∧
      ∃ i < NBUF, (c.s.buf i).sector = some sec ∧ (c.s.buf i).dirty = true := by
  have hs := (h.refines h₀).steady
  refine ⟨(List.perm_ext_iff_of_nodup hs.coh.nodup List.nodup_range).2 fun i =>
      (hs.coh.mem i).trans List.mem_range.symm, fun i hi j hj sec => hs.coh.inj i j sec hi hj,
    fun i hi => ⟨hs.coh.busy i hi, fun sec hsec => ⟨fun hd => (hs.dirty sec).1 ⟨i, hi, hsec, hd⟩,
      hs.coh.clean i sec hi List.not_mem_nil hsec⟩⟩, hs.nodup, hs.length, fun sec hsec =>
    ⟨hs.outside sec hsec, (hs.dirty sec).2 hsec⟩⟩

/-- The log after a `log_write` of sector 40. -/
theorem cache_in_order_blank : ∃ c, Reaches blank c ∧ c.s.log.lh = [40] ∧
    ∃ i < NBUF, (c.s.buf i).sector = some 40 ∧ (c.s.buf i).dirty = true := by
  have r₁ := (Reaches.boot : Reaches blank _).step (e := .begin_trans) trivial rfl
  have r₂ := r₁.step (e := .bread 40) ⟨.inl (by decide), by decide⟩ rfl
  have r₃ := r₂.step (e := .write 0 fun _ _ => 1) List.mem_cons_self rfl
  obtain ⟨-, -, -, -, -, h⟩ := cache_in_order blank blank_booted _ r₃
  exact ⟨_, r₃, rfl, (h 40 List.mem_cons_self).2⟩

end Dixv6.Disk
