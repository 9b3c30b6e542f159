import Mathlib.Data.Finset.Card
import Mathlib.Data.Finset.Image
import Dixv6.Disk.Log

/-!
# The cache shows one flat disk

`look s sector` is what a `bread` of the sector finds: the buffer that caches it, else the disk.
`Coh` is the invariant of the cache under which this is well defined; it is indexed by the
buffers held (busy) and by those whose holder has changed them without a `bwrite` or `log_write`
yet. Each operation of `bio.c` and the turns of `log.c`'s loops get one specification in terms of
`look`, the disk, the dirty sectors and the writes issued.
-/

namespace Dixv6.Disk

open Lib Function

/-- The buffer that caches a sector. -/
def cached (s : State) (sector : Nat) : Option Nat :=
  s.mru.find? fun i => (s.buf i).sector = some sector

/-- What `bread` shows of a sector. -/
def look (s : State) (sector : Nat) : Block :=
  match cached s sector with
  | some i => (s.buf i).data
  | none => s.disk sector

/-- The cache's invariant: the list holds every buffer once, no sector is cached twice, a cached
sector is valid, a clean buffer that is not in `mod` agrees with the disk, a dirty buffer caches
a sector, and the busy buffers are the held ones. -/
structure Coh (s : State) (held mod : List Nat) : Prop where
  nodup : s.mru.Nodup
  mem : ∀ i, i ∈ s.mru ↔ i < NBUF
  inj : ∀ i j sec, i < NBUF → j < NBUF → (s.buf i).sector = some sec →
    (s.buf j).sector = some sec → i = j
  valid : ∀ i sec, i < NBUF → (s.buf i).sector = some sec → (s.buf i).valid = true
  clean : ∀ i sec, i < NBUF → i ∉ mod → (s.buf i).sector = some sec → (s.buf i).dirty = false →
    (s.buf i).data = s.disk sec
  dirty : ∀ i, i < NBUF → (s.buf i).dirty = true → (s.buf i).sector ≠ none
  busy : ∀ i, i < NBUF → ((s.buf i).busy = true ↔ i ∈ held)

/-- The sector is cached by a dirty buffer. -/
def Dirty (s : State) (sector : Nat) : Prop :=
  ∃ i, i < NBUF ∧ (s.buf i).sector = some sector ∧ (s.buf i).dirty = true

variable {sec : Nat}

section
variable {s : State} {held mod : List Nat}

/-- A cached sector shows its buffer. -/
theorem Coh.look_cached (h : Coh s held mod) {i : Nat} (hi : i < NBUF)
    (hs : (s.buf i).sector = some sec) : look s sec = (s.buf i).data := by
  unfold look
  cases hc : cached s sec with
  | none =>
    have := List.find?_eq_none.1 hc i ((h.mem i).2 hi)
    simp [hs] at this
  | some j =>
    have hj := List.mem_of_find?_eq_some hc
    have hjs : (s.buf j).sector = some sec := by simpa using List.find?_some hc
    rw [h.inj i j sec hi ((h.mem j).1 hj) hs hjs]

/-- A sector no buffer caches shows the disk. -/
theorem Coh.look_uncached (h : Coh s held mod) (hs : ∀ i, i < NBUF → (s.buf i).sector ≠ some sec) :
    look s sec = s.disk sec := by
  unfold look
  cases hc : cached s sec with
  | none => rfl
  | some j =>
    have hj := (h.mem j).1 (List.mem_of_find?_eq_some hc)
    exact absurd (by simpa using List.find?_some hc) (hs j hj)

/-- A sector that is not dirty, and not being changed, shows the disk. -/
theorem Coh.look_clean (h : Coh s held []) (hd : ¬ Dirty s sec) : look s sec = s.disk sec := by
  by_cases hc : ∃ i, i < NBUF ∧ (s.buf i).sector = some sec
  · obtain ⟨i, hi, hs⟩ := hc
    rw [h.look_cached hi hs]
    refine h.clean i sec hi (by simp) hs ?_
    by_contra hdi
    exact hd ⟨i, hi, hs, by simpa using hdi⟩
  · exact h.look_uncached fun i hi hs => hc ⟨i, hi, hs⟩

/-- As long as fewer than `NBUF` buffers are held or dirty, one is neither. -/
theorem Coh.exists_free (h : Coh s held mod) {l : List Nat} (hl : ∀ sec, Dirty s sec → sec ∈ l)
    (hlen : l.length + held.length < NBUF) :
    ∃ i, i < NBUF ∧ (s.buf i).busy = false ∧ (s.buf i).dirty = false := by
  by_contra hno
  have hall : ∀ i, i < NBUF → i ∉ held → (s.buf i).dirty = true := by
    intro i hi hh
    by_contra hd
    refine hno ⟨i, hi, ?_, by simpa using hd⟩
    have := mt (h.busy i hi).1 hh
    simpa using this
  -- the buffers that are not held cache distinct sectors of `l`
  have hcard : ((Finset.range NBUF) \ held.toFinset).card ≤ (l.toFinset.image some).card := by
    refine Finset.card_le_card_of_injOn (fun i => (s.buf i).sector) ?_ ?_
    · intro i hi
      simp only [Finset.coe_sdiff, Set.mem_sdiff, Finset.mem_coe, Finset.mem_range,
        List.mem_toFinset] at hi
      have hd := hall i hi.1 hi.2
      obtain ⟨sec, hs⟩ := Option.ne_none_iff_exists'.1 (h.dirty i hi.1 hd)
      have hsl := hl sec ⟨i, hi.1, hs, hd⟩
      simp [hs, hsl]
    · intro i hi j hj hij
      simp only [Finset.coe_sdiff, Set.mem_sdiff, Finset.mem_coe, Finset.mem_range,
        List.mem_toFinset] at hi hj
      obtain ⟨sec, hs⟩ := Option.ne_none_iff_exists'.1 (h.dirty i hi.1 (hall i hi.1 hi.2))
      have hij' : (s.buf i).sector = (s.buf j).sector := hij
      exact h.inj i j sec hi.1 hj.1 hs (hij' ▸ hs)
  have h1 : ((Finset.range NBUF) \ held.toFinset).card ≥ NBUF - held.length := by
    have := Finset.le_card_sdiff held.toFinset (Finset.range NBUF)
    have hh := held.toFinset_card_le
    simp only [Finset.card_range] at this
    omega
  have h2 : (l.toFinset.image some).card ≤ l.length :=
    Finset.card_image_le.trans l.toFinset_card_le
  omega

end

/-! ## Changing one buffer -/

section
variable {s s' : State} {held held' mod mod' : List Nat} {i : Nat} {b : Buf}

/-- The invariant after one buffer is replaced, from what the new buffer satisfies. -/
theorem Coh.set (h : Coh s held mod) (hbuf : s'.buf = update s.buf i b) (hmru : s'.mru = s.mru)
    (hsec : ∀ x, b.sector = some x → ∀ j, j < NBUF → j ≠ i → (s.buf j).sector ≠ some x)
    (hval : b.sector ≠ none → b.valid = true)
    (hclean : ∀ x, i ∉ mod' → b.sector = some x → b.dirty = false → b.data = s'.disk x)
    (hdirty : b.dirty = true → b.sector ≠ none) (hbusy : b.busy = true ↔ i ∈ held')
    (hheld : ∀ j, j ≠ i → (j ∈ held' ↔ j ∈ held)) (hmod : ∀ j, j ≠ i → j ∉ mod' → j ∉ mod)
    (hdisk : ∀ j x, j < NBUF → j ≠ i → (s.buf j).sector = some x → s'.disk x = s.disk x) :
    Coh s' held' mod' := by
  have hself : s'.buf i = b := by rw [hbuf, update_self]
  have hother : ∀ j, j ≠ i → s'.buf j = s.buf j := fun j hj => by
    rw [hbuf, update_of_ne hj]
  refine ⟨hmru ▸ h.nodup, fun j => hmru ▸ h.mem j, ?_, ?_, ?_, ?_, ?_⟩
  · intro j k x hj hk h1 h2
    by_cases hji : j = i <;> by_cases hki : k = i
    · rw [hji, hki]
    · grind
    · grind
    · rw [hother j hji] at h1; rw [hother k hki] at h2
      exact h.inj j k x hj hk h1 h2
  · intro j x hj h1
    by_cases hji : j = i
    · subst hji; rw [hself] at h1 ⊢; exact hval (by simp [h1])
    · rw [hother j hji] at h1 ⊢; exact h.valid j x hj h1
  · intro j x hj hm h1 h2
    by_cases hji : j = i
    · grind
    · rw [hother j hji] at h1 h2 ⊢
      rw [hdisk j x hj hji h1]
      exact h.clean j x hj (hmod j hji hm) h1 h2
  · intro j hj h1
    by_cases hji : j = i
    · subst hji; rw [hself] at h1 ⊢; exact hdirty h1
    · rw [hother j hji] at h1 ⊢; exact h.dirty j hj h1
  · intro j hj
    by_cases hji : j = i
    · subst hji; rw [hself]; exact hbusy
    · rw [hother j hji, hheld j hji]; exact h.busy j hj

/-- A sector that the replaced buffer neither cached nor caches shows what it did. -/
theorem Coh.look_other (h : Coh s held mod) (h' : Coh s' held' mod')
    (hbuf : s'.buf = update s.buf i b) {x : Nat} (hold : (s.buf i).sector ≠ some x)
    (hnew : b.sector ≠ some x) (hdisk : s'.disk x = s.disk x) : look s' x = look s x := by
  have hother : ∀ j, j ≠ i → s'.buf j = s.buf j := fun j hj => by
    rw [hbuf, update_of_ne hj]
  by_cases hc : ∃ j, j < NBUF ∧ (s.buf j).sector = some x
  · obtain ⟨j, hj, hs⟩ := hc
    have hji : j ≠ i := fun e => hold (e ▸ hs)
    rw [h.look_cached hj hs, h'.look_cached hj (by rw [hother j hji, hs]), hother j hji]
  · rw [h.look_uncached fun j hj hs => hc ⟨j, hj, hs⟩, h'.look_uncached, hdisk]
    intro j hj hs
    by_cases hji : j = i
    · subst hji; rw [hbuf, update_self] at hs; exact hnew hs
    · rw [hother j hji] at hs; exact hc ⟨j, hj, hs⟩

/-- The dirty sectors after one buffer is replaced. -/
theorem dirty_set (hi : i < NBUF) (hbuf : s'.buf = update s.buf i b) (x : Nat) :
    Dirty s' x ↔ (b.sector = some x ∧ b.dirty = true) ∨
      ∃ j, j < NBUF ∧ j ≠ i ∧ (s.buf j).sector = some x ∧ (s.buf j).dirty = true := by
  unfold Dirty
  rw [hbuf]
  constructor
  · grind
  · rintro (⟨h1, h2⟩ | ⟨j, hj, hji, h1, h2⟩)
    · exact ⟨i, hi, by rwa [update_self], by rwa [update_self]⟩
    · exact ⟨j, hj, by rwa [update_of_ne hji], by rwa [update_of_ne hji]⟩

/-- The dirty sectors before, with one buffer taken apart. -/
theorem dirty_split (hi : i < NBUF) (x : Nat) :
    Dirty s x ↔ ((s.buf i).sector = some x ∧ (s.buf i).dirty = true) ∨
      ∃ j, j < NBUF ∧ j ≠ i ∧ (s.buf j).sector = some x ∧ (s.buf j).dirty = true :=
  dirty_set (s := s) hi (by rw [update_eq_self]) x

end

/-! ## The operations of `bio.c` -/

section
variable {s : State} {held mod : List Nat} {E : Stop → Prop}

/-- What a `bread` leaves: the buffer held with the sector's contents, and the flat disk, the
disk, the log, the writes and the dirty sectors as they were. -/
structure Read (s : State) (held : List Nat) (sec i : Nat) (s' : State) : Prop where
  coh : Coh s' (i :: held) []
  lt : i < NBUF
  fresh : i ∉ held
  sector : (s'.buf i).sector = some sec
  look : ∀ x, look s' x = look s x
  disk : s'.disk = s.disk
  log : s'.log = s.log
  writes : s'.writes = s.writes
  dirty : ∀ x, Dirty s' x ↔ Dirty s x
  kept : ∀ j, j ≠ i → s'.buf j = s.buf j

/-- A `bread` that finds its sector cached. -/
theorem Read.of_hit {s' : State} {b : Buf} {i : Nat} (h : Coh s held []) (hi : i < NBUF)
    (hs : (s.buf i).sector = some sec) (hh : i ∉ held)
    (hbuf : s'.buf = update s.buf i b) (hmru : s'.mru = s.mru) (hdisk : s'.disk = s.disk)
    (hlog : s'.log = s.log) (hwr : s'.writes = s.writes) (hsec : b.sector = (s.buf i).sector)
    (hdata : b.data = (s.buf i).data) (hdirty : b.dirty = (s.buf i).dirty)
    (hvalid : b.valid = true) (hbusy : b.busy = true) : Read s held sec i s' := by
  have hself : s'.buf i = b := by rw [hbuf, update_self]
  have hcoh : Coh s' (i :: held) [] := by
    refine h.set hbuf hmru ?_ (fun _ => hvalid) ?_ ?_ (by simp [hbusy]) ?_ (by simp) ?_
    · intro x hx j hj hji hjs
      exact hji (h.inj j i x hj hi hjs (hsec ▸ hx))
    · intro x _ hx hd
      rw [hdata, hdisk]
      exact h.clean i x hi (by simp) (hsec ▸ hx) (hdirty ▸ hd)
    · rw [hdirty, hsec]; exact h.dirty i hi
    · intro j hji; simp [hji]
    · exact fun _ _ _ _ _ => by rw [hdisk]
  refine ⟨hcoh, hi, hh, by rw [hself, hsec, hs], ?_, hdisk, hlog, hwr, ?_, ?_⟩
  · intro x
    by_cases hx : (s.buf i).sector = some x
    · rw [h.look_cached hi hx, hcoh.look_cached hi (by rw [hself, hsec, hx]), hself, hdata]
    · exact h.look_other hcoh hbuf hx (hsec ▸ hx) (by rw [hdisk])
  · intro x
    rw [dirty_set hi hbuf, dirty_split hi, hsec, hdirty]
  · intro j hj; rw [hbuf, update_of_ne hj]

/-- A `bread` that recycles a free buffer and fills it from the disk. -/
theorem Read.of_miss {s' : State} {i : Nat} (h : Coh s held []) (hi : i < NBUF)
    (hun : ∀ j, j < NBUF → (s.buf j).sector ≠ some sec) (hd : (s.buf i).dirty = false)
    (hh : i ∉ held) (hbuf : s'.buf = update s.buf i ⟨true, true, false, some sec, s.disk sec⟩)
    (hmru : s'.mru = s.mru) (hdisk : s'.disk = s.disk) (hlog : s'.log = s.log)
    (hwr : s'.writes = s.writes) : Read s held sec i s' := by
  have hself : s'.buf i = ⟨true, true, false, some sec, s.disk sec⟩ := by
    rw [hbuf, update_self]
  have hcoh : Coh s' (i :: held) [] := by
    refine h.set hbuf hmru ?_ (fun _ => rfl) ?_ (by simp) (by simp) ?_ (by simp) ?_
    · grind
    · intro x _ hx _
      cases hx; rw [hdisk]
    · intro j hji; simp [hji]
    · exact fun _ _ _ _ _ => by rw [hdisk]
  refine ⟨hcoh, hi, hh, by rw [hself], ?_, hdisk, hlog, hwr, ?_, ?_⟩
  · intro x
    by_cases hx : x = sec
    · subst hx
      rw [hcoh.look_cached (i := i) hi (by rw [hself]), h.look_uncached hun, hself]
    · by_cases ho : (s.buf i).sector = some x
      · -- the sector the buffer cached before now shows the disk, with which it agreed
        rw [h.look_cached hi ho, h.clean i x hi (by simp) ho hd, hcoh.look_uncached, hdisk]
        intro j hj hjs
        by_cases hji : j = i
        · subst hji; rw [hself] at hjs; cases hjs; exact hx rfl
        · rw [hbuf, update_of_ne hji] at hjs
          exact hji (h.inj j i x hj hi hjs ho)
      · exact h.look_other hcoh hbuf ho (by simpa using fun e => hx e.symm) (by rw [hdisk])
  · intro x
    rw [dirty_set hi hbuf, dirty_split hi]
    simp [hd]
  · intro j hj; rw [hbuf, update_of_ne hj]

/-- `bread`: it sleeps only on a sector that somebody holds, and finds no buffer only if the sector
is not cached and no buffer is free. -/
theorem bread_spec (h : Coh s held []) (hfree : E .sleep ∨ ∀ j ∈ held, (s.buf j).sector ≠ some sec)
    (hroom : E .bgetNoBuffers ∨ (∃ i, i < NBUF ∧ (s.buf i).sector = some sec) ∨
      ∃ i, i < NBUF ∧ (s.buf i).busy = false ∧ (s.buf i).dirty = false) :
    wp (bread sec) (Read s held sec) E s := by
  unfold bread bget
  simp only [wp_bind, wp_gets, id]
  cases hc : s.mru.find? fun i => (s.buf i).sector = some sec with
  | some i =>
    have hi : i < NBUF := (h.mem i).1 (List.mem_of_find?_eq_some hc)
    have hs : (s.buf i).sector = some sec := by simpa using List.find?_some hc
    have hv := h.valid i sec hi hs
    simp only [wp_bind, wp_stopIf, setBuf, wp_modify, wp_pure, update_self, hv,
      Bool.not_true, Bool.false_eq_true, if_false]
    constructor
    · exact fun hb => hfree.resolve_right fun hf => hf i ((h.busy i hi).1 hb) hs
    · intro hb
      have hh : i ∉ held := fun hm => hb ((h.busy i hi).2 hm)
      exact Read.of_hit h hi hs hh rfl rfl rfl rfl rfl rfl rfl rfl rfl rfl
  | none =>
    have hun : ∀ j, j < NBUF → (s.buf j).sector ≠ some sec := by
      intro j hj
      simpa using List.find?_eq_none.1 hc j ((h.mem j).2 hj)
    cases hr : s.mru.reverse.find? fun i => !(s.buf i).busy && !(s.buf i).dirty with
    | none =>
      refine hroom.resolve_right ?_
      rintro (⟨i, hi, hs⟩ | ⟨i, hi, hb, hd⟩)
      · exact hun i hi hs
      · have := List.find?_eq_none.1 hr i (by simpa using (h.mem i).2 hi)
        simp [hb, hd] at this
    | some i =>
      have hi : i < NBUF := (h.mem i).1 (by simpa using List.mem_of_find?_eq_some hr)
      obtain ⟨hb, hd⟩ : (s.buf i).busy = false ∧ (s.buf i).dirty = false := by
        simpa using List.find?_some hr
      have hh : i ∉ held := fun hm => by
        have := (h.busy i hi).2 hm
        simp [hb] at this
      simp only [wp_bind, setBuf, wp_modify, wp_pure, wp_gets, update_self, iderw,
        wp_stopIf, Bool.not_false, Bool.not_true, Bool.false_and, Bool.false_eq_true, if_false,
        if_true, false_imp_iff, not_false_eq_true, true_imp_iff, true_and, Option.getD_some,
        update_idem]
      exact Read.of_miss h hi hun hd hh rfl rfl rfl rfl rfl

/-- What a `bwrite` leaves: the disk and the writes have the buffer's data at its sector, the
sector is no longer dirty, and the flat disk is as it was. -/
structure Wrote (s : State) (held : List Nat) (sec : Nat) (data : Block) (s' : State) : Prop where
  coh : Coh s' held []
  look : ∀ x, look s' x = look s x
  disk : s'.disk = update s.disk sec data
  log : s'.log = s.log
  writes : s'.writes = s.writes ++ [(sec, data)]
  dirty : ∀ x, Dirty s' x ↔ Dirty s x ∧ x ≠ sec
  fields : ∀ j, (s'.buf j).sector = (s.buf j).sector ∧ (s'.buf j).data = (s.buf j).data

/-- The effect of `bwrite` on the state is what `Wrote` says. -/
theorem Wrote.of_update {s' : State} {b : Buf} {i : Nat} (h : Coh s held mod)
    (hmod : ∀ j ∈ mod, j = i) (hi : i < NBUF) (hh : i ∈ held) (hs : (s.buf i).sector = some sec)
    (hbuf : s'.buf = update s.buf i b) (hmru : s'.mru = s.mru)
    (hdisk : s'.disk = update s.disk sec (s.buf i).data) (hlog : s'.log = s.log)
    (hwr : s'.writes = s.writes ++ [(sec, (s.buf i).data)]) (hsec : b.sector = some sec)
    (hdata : b.data = (s.buf i).data) (hdirty : b.dirty = false) (hvalid : b.valid = true)
    (hbusy : b.busy = true) : Wrote s held sec (s.buf i).data s' := by
  have hself : s'.buf i = b := by rw [hbuf, update_self]
  have hcoh : Coh s' held [] := by
    refine h.set hbuf hmru ?_ (fun _ => hvalid) ?_ (by simp [hdirty]) (by simp [hh, hbusy])
      (fun _ _ => Iff.rfl) ?_ ?_
    · intro x hx j hj hji hjs
      rw [hsec] at hx; cases hx
      exact hji (h.inj j i sec hj hi hjs hs)
    · intro x _ hx _
      rw [hsec] at hx; cases hx
      rw [hdata, hdisk, update_self]
    · exact fun j hji _ hm => hji (hmod j hm)
    · intro j x hj hji hjs
      have : x ≠ sec := fun e => hji (h.inj j i sec hj hi (e ▸ hjs) hs)
      rw [hdisk, update_of_ne this]
  refine ⟨hcoh, ?_, hdisk, hlog, hwr, ?_, ?_⟩
  · intro x
    by_cases hx : x = sec
    · subst hx
      rw [h.look_cached hi hs, hcoh.look_cached (i := i) hi (by rw [hself, hsec]), hself, hdata]
    · refine h.look_other hcoh hbuf ?_ ?_ (by rw [hdisk, update_of_ne hx])
      · rw [hs]; simpa using fun e => hx e.symm
      · rw [hsec]; simpa using fun e => hx e.symm
  · intro x
    rw [dirty_set hi hbuf, dirty_split (s := s) hi]
    constructor
    · rintro (⟨_, h2⟩ | ⟨j, hj, hji, h1, h2⟩)
      · rw [hdirty] at h2; cases h2
      · exact ⟨.inr ⟨j, hj, hji, h1, h2⟩, fun e => hji (h.inj j i sec hj hi (e ▸ h1) hs)⟩
    · grind
  · intro j
    by_cases hji : j = i
    · grind
    · rw [hbuf, update_of_ne hji]; exact ⟨rfl, rfl⟩

/-- `bwrite` of a held buffer. -/
theorem bwrite_spec {i : Nat} (h : Coh s held mod) (hmod : ∀ j ∈ mod, j = i) (hi : i < NBUF)
    (hh : i ∈ held) (hs : (s.buf i).sector = some sec) :
    wp (bwrite i) (fun _ s' => Wrote s held sec (s.buf i).data s') E s := by
  have hb : (s.buf i).busy = true := (h.busy i hi).2 hh
  simp only [bwrite, iderw, wp_bind, wp_gets, wp_stopIf, setBuf, wp_modify, hb, Bool.not_true,
    Bool.false_eq_true, false_imp_iff, not_false_eq_true, true_imp_iff, true_and, if_true,
    update_self, Bool.and_false, hs, Option.getD_some, update_idem]
  exact Wrote.of_update h hmod hi hh hs rfl rfl rfl rfl rfl rfl rfl rfl rfl rfl

/-- What a `brelse` leaves: one buffer fewer is held, everything else is as it was. -/
structure Released (s : State) (held : List Nat) (s' : State) : Prop where
  coh : Coh s' held []
  look : ∀ x, look s' x = look s x
  disk : s'.disk = s.disk
  log : s'.log = s.log
  writes : s'.writes = s.writes
  dirty : ∀ x, Dirty s' x ↔ Dirty s x
  fields : ∀ j, (s'.buf j).sector = (s.buf j).sector ∧ (s'.buf j).data = (s.buf j).data

/-- The effect of `brelse` on the state is what `Released` says. -/
theorem Released.of_update {s' : State} {b : Buf} {i : Nat} {held' : List Nat}
    (h : Coh s held []) (hi : i < NBUF) (hh' : ∀ j, j ∈ held' ↔ j ∈ held ∧ j ≠ i)
    (hbuf : s'.buf = update s.buf i b) (hmru : s'.mru = i :: s.mru.erase i)
    (hdisk : s'.disk = s.disk) (hlog : s'.log = s.log) (hwr : s'.writes = s.writes)
    (hsec : b.sector = (s.buf i).sector) (hdata : b.data = (s.buf i).data)
    (hdirty : b.dirty = (s.buf i).dirty) (hvalid : b.valid = (s.buf i).valid)
    (hbusy : b.busy = false) : Released s held' s' := by
  have hself : s'.buf i = b := by rw [hbuf, update_self]
  have hfield : ∀ j, (s'.buf j).sector = (s.buf j).sector ∧ (s'.buf j).data = (s.buf j).data ∧
      (s'.buf j).dirty = (s.buf j).dirty := by
    intro j
    by_cases hj : j = i
    · subst hj; rw [hself]; exact ⟨hsec, hdata, hdirty⟩
    · rw [hbuf, update_of_ne hj]; exact ⟨rfl, rfl, rfl⟩
  -- first the buffer, with the list as it was
  have hc1 : Coh { s' with mru := s.mru } held' [] := by
    refine h.set hbuf rfl ?_ ?_ ?_ ?_ (by simp [hbusy, hh']) ?_ (by simp) ?_
    · intro x hx j hj hji hjs
      exact hji (h.inj j i x hj hi hjs (hsec ▸ hx))
    · intro hn
      rw [hsec] at hn
      obtain ⟨x, hx⟩ := Option.ne_none_iff_exists'.1 hn
      rw [hvalid]; exact h.valid i x hi hx
    · intro x _ hx hd
      rw [hdata, hdisk]
      exact h.clean i x hi (by simp) (hsec ▸ hx) (hdirty ▸ hd)
    · rw [hdirty, hsec]; exact h.dirty i hi
    · intro j hji; simp [hh', hji]
    · grind
  have hmem : ∀ j, j ∈ i :: s.mru.erase i ↔ j ∈ s.mru := by
    intro j
    rw [List.mem_cons, h.nodup.mem_erase_iff]
    constructor
    · rintro (rfl | hj)
      · exact (h.mem _).2 hi
      · exact hj.2
    · grind
  have hcoh : Coh s' held' [] :=
    ⟨hmru ▸ List.nodup_cons.2 ⟨fun hm => (h.nodup.mem_erase_iff.1 hm).1 rfl, h.nodup.erase i⟩,
      fun j => hmru ▸ (hmem j).trans (h.mem j), hc1.inj, hc1.valid, hc1.clean, hc1.dirty, hc1.busy⟩
  refine ⟨hcoh, ?_, hdisk, hlog, hwr, ?_, fun j => ⟨(hfield j).1, (hfield j).2.1⟩⟩
  · intro x
    by_cases hc : ∃ j, j < NBUF ∧ (s.buf j).sector = some x
    · obtain ⟨j, hj, hs⟩ := hc
      rw [h.look_cached hj hs, hcoh.look_cached hj (by rw [(hfield j).1, hs]), (hfield j).2.1]
    · rw [h.look_uncached fun j hj hs => hc ⟨j, hj, hs⟩, hcoh.look_uncached, hdisk]
      intro j hj hs
      rw [(hfield j).1] at hs
      exact hc ⟨j, hj, hs⟩
  · intro x
    unfold Dirty
    simp only [(hfield _).1, (hfield _).2.2]

/-- `brelse` of a held buffer. -/
theorem brelse_spec {i : Nat} (held' : List Nat) (h : Coh s held []) (hi : i < NBUF)
    (hh : i ∈ held) (hh' : ∀ j, j ∈ held' ↔ j ∈ held ∧ j ≠ i) :
    wp (brelse i) (fun _ s' => Released s held' s') E s := by
  have hb : (s.buf i).busy = true := (h.busy i hi).2 hh
  simp only [brelse, wp_bind, wp_gets, wp_stopIf, setBuf, wp_modify, hb, Bool.not_true,
    Bool.false_eq_true, false_imp_iff, not_false_eq_true, true_imp_iff, true_and]
  exact Released.of_update h hi hh' rfl rfl rfl rfl rfl rfl rfl rfl rfl rfl

/-- What the holder's change of a buffer's data leaves: the sector shows the new data, the disk
does not have it yet. -/
structure Changed (s : State) (held : List Nat) (i sec : Nat) (data : Block) (s' : State) :
    Prop where
  coh : Coh s' held [i]
  look : look s' = update (look s) sec data
  disk : s'.disk = s.disk
  log : s'.log = s.log
  writes : s'.writes = s.writes
  dirty : ∀ x, Dirty s' x ↔ Dirty s x
  sector : (s'.buf i).sector = some sec
  data : (s'.buf i).data = data
  kept : ∀ j, j ≠ i → s'.buf j = s.buf j

/-- A held buffer's data is replaced. -/
theorem setData_spec {i : Nat} {f : Block → Block} (h : Coh s held []) (hi : i < NBUF)
    (hs : (s.buf i).sector = some sec) : wp (setBuf i fun b => { b with data := f b.data })
      (fun _ s' => Changed s held i sec (f (look s sec)) s') E s := by
  have hf : f (look s sec) = f (s.buf i).data := by rw [h.look_cached hi hs]
  rw [setBuf, wp_modify, hf]
  have hcoh : Coh { s with
      buf := update s.buf i { s.buf i with data := f (s.buf i).data } } held [i] := by
    refine h.set rfl rfl ?_ (fun _ => h.valid i sec hi hs) (by simp) (h.dirty i hi)
      (h.busy i hi) (fun _ _ => Iff.rfl) (by simp) (fun _ _ _ _ _ => rfl)
    intro x hx j hj hji hjs
    exact hji (h.inj j i x hj hi hjs hx)
  refine ⟨hcoh, ?_, rfl, rfl, rfl, ?_, by simpa using hs, by simp, ?_⟩
  · funext x
    by_cases hx : x = sec
    · subst hx
      rw [update_self, hcoh.look_cached (i := i) hi (by simpa using hs)]
      simp
    · rw [update_of_ne hx]
      have hne : (s.buf i).sector ≠ some x := by rw [hs]; simpa using fun e => hx e.symm
      exact h.look_other hcoh rfl hne hne rfl
  · intro x
    rw [dirty_set hi rfl, dirty_split hi]
  · intro j hj; simp [update_of_ne hj]

end

end Dixv6.Disk
