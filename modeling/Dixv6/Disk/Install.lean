import Dixv6.Disk.Coherence

/-!
# What the log's operations write

The specifications of `write_head`, `read_head` and `install_trans` over the flat disk. A run of
`install_trans` issues, for each logged sector, the sector's *shown* contents to its log block and
then to its home (`installWrites`); this holds of a commit, where the cache shows the new
contents, and of a recovery, where the empty cache shows what the disk holds at home.
-/

namespace Dixv6.Disk

open Lib Function

/-! ## Sequences of sector writes -/

/-- The disk after a list of sector writes. -/
def applyWrites (d : Nat → Block) (ws : List (Nat × Block)) : Nat → Block :=
  ws.foldl (fun d w => update d w.1 w.2) d

@[simp] theorem applyWrites_nil (d : Nat → Block) : applyWrites d [] = d := rfl

@[simp] theorem applyWrites_cons (d : Nat → Block) (w : Nat × Block) (ws : List (Nat × Block)) :
    applyWrites d (w :: ws) = applyWrites (update d w.1 w.2) ws := rfl

@[simp] theorem applyWrites_append (d : Nat → Block) (ws vs : List (Nat × Block)) :
    applyWrites d (ws ++ vs) = applyWrites (applyWrites d ws) vs := List.foldl_append

/-- A sector to which only its own contents are written keeps them. -/
theorem applyWrites_eq {x : Nat} {b : Block} : ∀ (ws : List (Nat × Block)) (d : Nat → Block),
    d x = b → (∀ w ∈ ws, w.1 = x → w.2 = b) → applyWrites d ws x = b
  | [], _, hd, _ => hd
  | w :: ws, d, hd, h => by
    rw [applyWrites_cons]
    refine applyWrites_eq ws _ ?_ fun w' hw' => h w' (List.mem_cons_of_mem _ hw')
    by_cases hx : w.1 = x
    · rw [← hx, update_self]; exact h w (by simp) hx
    · rw [update_of_ne (Ne.symm hx), hd]

/-- The writes of `install_trans` from turn `tail` on, when the sectors show `show`. -/
def installWrites (start : Nat) (shown : Nat → Block) : Nat → List Nat → List (Nat × Block)
  | _, [] => []
  | tail, sec :: l =>
    (start + tail + 1, shown sec) :: (sec, shown sec) :: installWrites start shown (tail + 1) l

/-- Every write of `install_trans` goes to a log block, or home with what the sector shows. -/
theorem mem_installWrites {start : Nat} {shown : Nat → Block} {w : Nat × Block} :
    ∀ {tail : Nat} {l : List Nat}, w ∈ installWrites start shown tail l →
      (start + tail < w.1 ∧ w.1 ≤ start + tail + l.length) ∨ (w.1 ∈ l ∧ w.2 = shown w.1)
  | _, [], h => by simp [installWrites] at h
  | tail, sec :: l, h => by
    simp only [installWrites, List.mem_cons] at h
    rcases h with rfl | rfl | h
    · left; simp only [List.length_cons]; omega
    · right; simp
    · rcases mem_installWrites h with h | h
      · left; simp only [List.length_cons]; omega
      · right; exact ⟨List.mem_cons_of_mem _ h.1, h.2⟩

/-- The writes depend on what the logged sectors show only. -/
theorem installWrites_congr {start : Nat} {shown shown' : Nat → Block} :
    ∀ {l : List Nat} {tail : Nat}, (∀ x ∈ l, shown x = shown' x) →
      installWrites start shown tail l = installWrites start shown' tail l
  | [], _, _ => rfl
  | sec :: l, tail, h => by
    rw [installWrites, installWrites, h sec (by simp),
      installWrites_congr fun x hx => h x (List.mem_cons_of_mem _ hx)]

/-! ## The header block -/

/-- The sectors of a header block, as `read_head` copies them. -/
def decodeHead (b : Block) : List Nat := (List.range (headN b).toNat).map (headSector b)

theorem leGet_putSectors : ∀ (l : List Nat) (b : Block) (i : Nat),
    (putSectors b i l).leGet 0 4 = b.leGet 0 4
  | [], _, _ => rfl
  | s :: l, b, i => by
    rw [putSectors, leGet_putSectors l, Bytes.leGet_lePut_disjoint (by omega)]

/-- A sector of the header after `putSectors`: the list's from `i` on, the old one before. -/
theorem headSector_putSectors : ∀ (l : List Nat) (b : Block) (i j : Nat),
    headSector (putSectors b i l) j =
      if h : i ≤ j ∧ j < i + l.length then l.get ⟨j - i, by omega⟩ % 2 ^ 32 else headSector b j
  | [], b, i, j => by simp [putSectors]
  | s :: l, b, i, j => by
    rw [putSectors, headSector_putSectors l]
    by_cases hj : j = i
    · subst hj
      simp [headSector, Bytes.leGet_lePut]
    · have hold : headSector (b.lePut (4 * i + 4) 4 s) j = headSector b j :=
        Bytes.leGet_lePut_disjoint (by omega)
      by_cases hr : i + 1 ≤ j ∧ j < i + 1 + l.length
      · grind
      · have hr' : ¬ (i ≤ j ∧ j < i + (s :: l).length) := by simp only [List.length_cons]; omega
        rw [dif_neg hr, dif_neg hr', hold]

/-- The count of a written header. -/
theorem headN_putHead (b : Block) {lh : List Nat} (h : lh.length ≤ LOGSIZE) :
    headN (putHead b lh) = lh.length := by
  rw [headN, putHead, leGet_putSectors, Bytes.leGet_lePut_of_lt (by lia),
    toInt32, if_pos (by lia)]

/-- A written header reads back. -/
theorem decodeHead_putHead (b : Block) {lh : List Nat} (h : lh.length ≤ LOGSIZE)
    (hw : ∀ x ∈ lh, x < 2 ^ 32) : decodeHead (putHead b lh) = lh := by
  refine List.ext_getElem (by simp [decodeHead, headN_putHead b h]) fun i h1 h2 => ?_
  simp only [decodeHead, List.getElem_map, List.getElem_range]
  rw [putHead, headSector_putSectors, dif_pos (by omega)]
  simpa using Nat.mod_eq_of_lt (hw _ (List.getElem_mem h2))

/-! ## The operations of `log.c` -/

section
variable {s : State} {E : Stop → Prop} {held l : List Nat}

/-- What a run of log code leaves: the buffers held are those held before, the log record is
unchanged but for its header, and the disk is as the issued writes make it. -/
structure Ran (held : List Nat) (s s' : State) (ws : List (Nat × Block)) : Prop where
  coh : Coh s' held []
  disk : s'.disk = applyWrites s.disk ws
  writes : s'.writes = s.writes ++ ws
  log : s'.log = s.log
  kept : ∀ j ∈ held, (s'.buf j).sector = (s.buf j).sector

/-- Log code may be told to wait for a buffer or find none, or nothing is held and fewer buffers
are dirty than there are. -/
def Room (E : Stop → Prop) (s : State) (held l : List Nat) : Prop :=
  (E .sleep ∧ E .bgetNoBuffers) ∨ (held = [] ∧ (∀ x, Dirty s x → x ∈ l) ∧ l.length < NBUF)

/-- A first `bread` when there is room. -/
theorem Room.bread (hr : Room E s held l) (h : Coh s held []) (sec : Nat) :
    wp (bread sec) (Read s held sec) E s := by
  obtain ⟨h1, h2⟩ | ⟨rfl, hd, hl⟩ := hr
  · exact bread_spec h (.inl h1) (.inl h2)
  · exact bread_spec h (.inr (by simp)) (.inr (.inr (h.exists_free hd (by simpa using hl))))

/-- Setting the in-memory header changes nothing else. -/
theorem setLh_spec {mod : List Nat} (h : Coh s held mod) (lh : List Nat) :
    wp (setLh lh) (fun _ s' => Coh s' held mod ∧ s'.disk = s.disk ∧ s'.writes = s.writes ∧
      s'.log = { s.log with lh := lh } ∧ (∀ x, look s' x = look s x) ∧
      (∀ x, Dirty s' x ↔ Dirty s x) ∧ s'.buf = s.buf) E s := by
  rw [setLh, wp_modify]
  exact ⟨⟨h.nodup, h.mem, h.inj, h.valid, h.clean, h.dirty, h.busy⟩, rfl, rfl, rfl,
    fun _ => rfl, fun _ => Iff.rfl, rfl⟩

/-- The buffers held after the last one taken is given back. -/
theorem mem_held_iff {i : Nat} (hi : i ∉ held) (j : Nat) : j ∈ held ↔ j ∈ i :: held ∧ j ≠ i := by
  rw [List.mem_cons]
  constructor
  · exact fun h => ⟨.inr h, fun e => hi (e ▸ h)⟩
  · grind

/-- `write_head` puts the header in its block and writes it out. -/
theorem write_head_spec (h : Coh s held []) (hr : Room E s held l) : wp write_head (fun _ s' =>
      Ran held s s' [(s.log.start, putHead (look s s.log.start) s.log.lh)] ∧
      look s' = update (look s) s.log.start (putHead (look s s.log.start) s.log.lh) ∧
      ∀ x, Dirty s' x ↔ Dirty s x ∧ x ≠ s.log.start) E s := by
  unfold write_head
  simp only [wp_bind, wp_gets]
  refine wp_post (hr.bread h _) ?_
  intro i s1 r
  refine wp_post (setData_spec (f := fun b => putHead b s.log.lh) r.coh r.lt r.sector) ?_
  intro _ s2 c
  refine wp_post (bwrite_spec c.coh (by simp) r.lt (by simp) c.sector) ?_
  intro _ s3 w
  refine wp_post (brelse_spec held w.coh r.lt (by simp) (mem_held_iff r.fresh)) ?_
  intro _ s4 e
  rw [c.data, r.look] at w
  refine ⟨⟨e.coh, ?_, ?_, ?_, fun j hj => ?_⟩, ?_, ?_⟩
  · rw [e.disk, w.disk, c.disk, r.disk]; rfl
  · rw [e.writes, w.writes, c.writes, r.writes]
  · rw [e.log, w.log, c.log, r.log]
  · have hji : j ≠ i := fun h => r.fresh (h ▸ hj)
    rw [(e.fields j).1, (w.fields j).1, c.kept j hji, r.kept j hji]
  · funext x
    rw [e.look, w.look, c.look, r.look]
    by_cases hx : x = s.log.start
    · subst hx; simp
    · simp [update_of_ne hx, r.look]
  · intro x
    rw [e.dirty, w.dirty, c.dirty, r.dirty]

/-- `read_head` copies the header block's sectors. -/
theorem read_head_spec (h : Coh s [] []) (hr : Room E s [] l)
    (hn : headN (look s s.log.start) ≤ LOGSIZE) :
    wp read_head (fun _ s' => Coh s' [] [] ∧ s'.disk = s.disk ∧ s'.writes = s.writes ∧
      s'.log = { s.log with lh := decodeHead (look s s.log.start) } ∧
      (∀ x, look s' x = look s x) ∧ ∀ x, Dirty s' x ↔ Dirty s x) E s := by
  unfold read_head
  simp only [wp_bind, wp_gets]
  refine wp_post (hr.bread h _) ?_
  intro i s1 r
  have hdata : (s1.buf i).data = look s s.log.start := by
    rw [← r.look, r.coh.look_cached r.lt r.sector]
  simp only [wp_stopIf, hdata, not_lt.2 hn, false_imp_iff, not_false_eq_true, true_imp_iff,
    true_and]
  refine wp_post (setLh_spec r.coh _) ?_
  rintro _ s2 ⟨hc, hdisk, hwr, hlog, hlook, hdirty, hbuf⟩
  refine wp_post (brelse_spec [] hc r.lt (by simp) (by simp)) ?_
  intro _ s3 e
  refine ⟨e.coh, by rw [e.disk, hdisk, r.disk], by rw [e.writes, hwr, r.writes], ?_, ?_, ?_⟩
  · rw [e.log, hlog, r.log]; rfl
  · intro x; rw [e.look, hlook, r.look]
  · intro x; rw [e.dirty, hdirty, r.dirty]

/-- The second `bread` of a turn of `install_trans`. The buffer of the home sector is there when
it is dirty; otherwise nothing may be dirty, so that a second buffer is free. -/
theorem Room.bread_home {s1 : State} {i sec lsec : Nat} (hr : Room E s held l)
    (r : Read s held lsec i s1) (hne : sec ≠ lsec) (hdirty : Dirty s sec ∨ ∀ x, ¬ Dirty s x) :
    wp (Disk.bread sec) (Read s1 (i :: held) sec) E s1 := by
  obtain ⟨h1, h2⟩ | ⟨rfl, -, -⟩ := hr
  · exact bread_spec r.coh (.inl h1) (.inl h2)
  refine bread_spec r.coh (.inr ?_) (.inr ?_)
  · intro j hj
    rw [List.mem_singleton] at hj
    subst hj
    rw [r.sector]
    simpa using fun e => hne e.symm
  · rcases hdirty with hdirty | hnone
    · obtain ⟨j, hj, hs, _⟩ := (r.dirty sec).2 hdirty
      exact .inl ⟨j, hj, hs⟩
    · exact .inr (r.coh.exists_free (l := []) (fun x hx => absurd ((r.dirty x).1 hx) (hnone x))
        (by simp [NBUF]))

/-- One turn of `install_trans`: the sector's shown contents go to its log block and home. -/
theorem installOne_spec {tail sec : Nat} (h : Coh s held []) (hr : Room E s held l)
    (hne : sec ≠ s.log.start + tail + 1) (hroom : Dirty s sec ∨ ∀ x, ¬ Dirty s x) :
    wp (installOne tail sec) (fun _ s' =>
      Ran held s s' [(s.log.start + tail + 1, look s sec), (sec, look s sec)] ∧
      look s' = update (look s) (s.log.start + tail + 1) (look s sec) ∧
      ∀ x, Dirty s' x ↔ Dirty s x ∧ x ≠ s.log.start + tail + 1 ∧ x ≠ sec) E s := by
  unfold installOne
  simp only [wp_bind, wp_gets]
  refine wp_post (hr.bread h _) ?_
  intro i s1 r
  refine wp_post (hr.bread_home r hne hroom) ?_
  intro k s2 q
  have hfresh : k ≠ i ∧ k ∉ held := by simpa using q.fresh
  have hki := hfresh.1
  have hdata : (s2.buf k).data = look s sec := by
    rw [← r.look, ← q.look, q.coh.look_cached q.lt q.sector]
  have hsi : (s2.buf i).sector = some (s.log.start + tail + 1) := by
    rw [q.kept i (Ne.symm hki), r.sector]
  rw [hdata]
  refine wp_post (setData_spec (f := fun _ => look s sec) q.coh r.lt hsi) ?_
  intro _ s3 c
  refine wp_post (bwrite_spec c.coh (by simp) r.lt (by simp) c.sector) ?_
  intro _ s4 w
  rw [c.data] at w
  have hsk : (s4.buf k).sector = some sec := by rw [(w.fields k).1, c.kept k hki, q.sector]
  have hdk : (s4.buf k).data = look s sec := by rw [(w.fields k).2, c.kept k hki, hdata]
  refine wp_post (bwrite_spec w.coh (by simp) q.lt (by simp) hsk) ?_
  intro _ s5 v
  rw [hdk] at v
  refine wp_post (brelse_spec (k :: held) v.coh r.lt (by simp) ?_) ?_
  · intro j
    have := mem_held_iff r.fresh j
    constructor
    · grind
    · grind
  intro _ s6 e
  refine wp_post (brelse_spec held e.coh q.lt (by simp) (mem_held_iff hfresh.2)) ?_
  intro _ s7 f
  refine ⟨⟨f.coh, ?_, ?_, ?_, fun j hj => ?_⟩, ?_, ?_⟩
  · rw [f.disk, e.disk, v.disk, w.disk, c.disk, q.disk, r.disk]; rfl
  · rw [f.writes, e.writes, v.writes, w.writes, c.writes, q.writes, r.writes]
    simp
  · rw [f.log, e.log, v.log, w.log, c.log, q.log, r.log]
  · have hji : j ≠ i := fun h => r.fresh (h ▸ hj)
    have hjk : j ≠ k := fun h => hfresh.2 (h ▸ hj)
    rw [(f.fields j).1, (e.fields j).1, (v.fields j).1, (w.fields j).1, c.kept j hji, q.kept j hjk,
      r.kept j hji]
  · funext x
    rw [f.look, e.look, v.look, w.look, c.look]
    by_cases hx : x = s.log.start + tail + 1
    · subst hx; simp
    · simp [update_of_ne hx, q.look, r.look]
  · intro x
    rw [f.dirty, e.dirty, v.dirty, w.dirty, c.dirty, q.dirty, r.dirty, and_assoc]

/-- `install_trans`: the whole loop, over sectors outside the log. In a commit the sectors left
are the dirty ones, in a recovery nothing is dirty. -/
theorem installFrom_spec : ∀ (l : List Nat) (tail : Nat) (s : State), Coh s held [] →
    l.Nodup → (E .sleep ∧ E .bgetNoBuffers) ∨ (held = [] ∧ l.length < NBUF) →
    (∀ x ∈ l, x ≤ s.log.start + tail ∨ s.log.start + tail + l.length < x) →
    ((∀ x, Dirty s x ↔ x ∈ l) ∨ ∀ x, ¬ Dirty s x) →
    wp (installFrom tail l) (fun _ s' =>
      Ran held s s' (installWrites s.log.start (look s) tail l) ∧
      (∀ x, x ≤ s.log.start + tail ∨ s.log.start + tail + l.length < x → look s' x = look s x) ∧
      ∀ x, ¬ Dirty s' x) E s
  | [], tail, s, h, _, _, _, hd => by
    refine ⟨⟨h, rfl, by simp [installWrites], rfl, fun _ _ => rfl⟩, fun _ _ => rfl,
      fun x hx => ?_⟩
    rcases hd with hd | hd
    · simpa using (hd x).1 hx
    · exact hd x hx
  | sec :: l, tail, s, h, hnd, hl, hout, hd => by
    have hsub : ∀ x, Dirty s x → x ∈ sec :: l := by grind
    have hroom : Dirty s sec ∨ ∀ x, ¬ Dirty s x := by grind
    have hr : Room E s held (sec :: l) := hl.imp_right fun hl => ⟨hl.1, hsub, hl.2⟩
    simp only [List.length_cons] at hout
    have hsec := hout sec (by simp)
    refine wp_seq (installOne_spec h hr (by omega) hroom) ?_
    rintro _ s1 ⟨r, hlook, hdirty⟩
    have hnd' := List.nodup_cons.1 hnd
    have hlog : s1.log.start = s.log.start := by rw [r.log]
    have hd1 : (∀ x, Dirty s1 x ↔ x ∈ l) ∨ ∀ x, ¬ Dirty s1 x := by grind
    have hout1 : ∀ x ∈ l, x ≤ s1.log.start + (tail + 1) ∨
        s1.log.start + (tail + 1) + l.length < x := by
      intro x hx
      have := hout x (List.mem_cons_of_mem _ hx)
      omega
    have hl1 : (E .sleep ∧ E .bgetNoBuffers) ∨ (held = [] ∧ l.length < NBUF) :=
      hl.imp_right fun hl => ⟨hl.1, by have := hl.2; simp at this; omega⟩
    refine wp_post (installFrom_spec l (tail + 1) s1 r.coh hnd'.2 hl1 hout1 hd1) ?_
    rintro _ s2 ⟨q, hlook2, hnone⟩
    -- the home sectors still to do show what they showed at the start
    have hshown : installWrites s1.log.start (look s1) (tail + 1) l =
        installWrites s.log.start (look s) (tail + 1) l := by
      rw [hlog]
      refine installWrites_congr fun x hx => ?_
      have := hout x (List.mem_cons_of_mem _ hx)
      rw [hlook, update_of_ne (by omega)]
    rw [hshown] at q
    refine ⟨⟨q.coh, ?_, ?_, ?_, fun j hj => (q.kept j hj).trans (r.kept j hj)⟩, ?_, hnone⟩
    · rw [q.disk, r.disk]; simp [installWrites]
    · rw [q.writes, r.writes]; simp [installWrites]
    · rw [q.log, r.log]
    · intro x hx
      simp only [List.length_cons] at hx
      rw [hlook2 x (by omega), hlook, update_of_ne (by omega)]

end

end Dixv6.Disk
