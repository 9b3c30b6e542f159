import Dixv6.Sys.Names

/-!
# Calls that change links

`link` and `unlink` on views. `link` counts the new link before it knows whether there will be one,
and **takes it back if not**. `unlink` fails only before it changes anything. Both return after the
point where they can fail whatever they have done since.
-/

namespace Dixv6.Sys

open Lib Fs Function

section
variable {c : Terms} {v v' v1 : View} {H : Nat → Nat} {L : Finset Nat} {p i m : Nat} {sl : Slot}
  {f a : AFile} {path old new : Path} {x : Proc}

/-! ## `link` -/

/-- A locked file changes. -/
theorem Calm.edited (h : Calm v H L) (hw : Wf c.g v) (hl : v.Locked i sl f)
    (hv : v'.files = update v.files sl.inum (some a)) (hs : v'.slot = v.slot)
    (hh : ∀ i, v'.held i = v.held i) : Calm v' H L := by
  refine h.edit hs hh fun n b hb hn => ?_
  by_cases hnm : n = sl.inum
  · exact .inr ⟨i, sl, hl.slot, hnm.symm, (hw.slot i sl hl.slot).2.2.1 hl.busy⟩
  · rw [hv, update_of_ne hnm] at hb
    exact .inl ⟨b, hb, hn⟩

/-- One file has changed, in a transaction. -/
structure Edited (H : Nat → Nat) (v : View) (m : Nat) (a : AFile) (v' : View) : Prop where
  eq : v' = { v with
    files := update v.files m (some a), slot := v'.slot, trans := true, room := v'.room }
  inum : ∀ i, 0 < v.held i + H i → v'.inumAt i = v.inumAt i

theorem Edited.held (h : Edited H v m a v') (i : Nat) : v'.held i = v.held i := by
  rw [h.eq]; rfl

theorem Edited.files (h : Edited H v m a v') : v'.files = update v.files m (some a) := by rw [h.eq]

theorem Edited.frame (h : Edited H v m a v1) (hf : Frame H v1 v') : Edited H v m a v' := by
  refine ⟨?_, fun j hj => ?_⟩
  · rw [hf.eq, h.eq]
  · rw [hf.inum j (by rw [h.held]; exact hj), h.inum j hj]

/-- **The way back of `sys_link`.** -/
theorem vwp_linkBad (hall : ∀ e, c.E e) (hc : Calm v (more H i) ∅) (hm : v1.inumAt i = some m)
    (hf : v1.files m = some f) (hsafe : Safe v1 H i) (htr : v1.trans = false)
    (hroom : v1.room = none) (h : Edited (more H i) v1 m { f with nlink := f.nlink + 1 } v) :
    vwp c p (linkBad i) (fun r v' => r = false ∧ Calm v' H ∅ ∧ Frame H v1 v') v := by
  have hpos : 0 < v.held i + more H i i := by rw [more_self]; omega
  have hnum : v.inumAt i = some m := (h.inum i (by rw [more_self]; omega)).trans hm
  refine vwp_seq (vwp_ilock hc hpos (fun _ => hall _) (.inr fun n hn => ?_)) ?_
  · rw [hnum, Option.some.injEq] at hn
    rw [h.files, ← hn, update_self]
    simp
  rintro _ v2 hw2 ⟨sl, a, hl, hsl, -, hc2, hf2⟩
  obtain rfl := Option.some.inj (hnum.symm.trans hsl)
  have h₂ := h.frame hf2
  have ha : a = { f with nlink := f.nlink + 1 } := by
    have := hl.file
    rw [h₂.files, update_self, Option.some.injEq] at this
    exact this.symm
  have hback : ({ a with nlink := a.nlink - 1 } : AFile) = f := by
    subst ha
    simp only [Int16.add_sub_cancel]
  refine vwp_op fun _ => ⟨sl, a, hl, by rw [h₂.eq], .inl (hall _), ?_⟩
  generalize hv3 : (v2.setFile sl.inum (some { a with nlink := a.nlink - 1 })).log (IBLOCK sl.inum) = v3
  have hfiles3 : v3.files = v1.files := by
    rw [← hv3]
    show update v2.files sl.inum _ = _
    rw [h₂.files, update_idem, hback, ← hf, update_eq_self]
  have hslot3 : v3.slot = v2.slot := by rw [← hv3]; rfl
  have hheld3 : ∀ j, v3.held j = v1.held j := fun j => by rw [← h₂.held, ← hv3]; rfl
  have hc3 : Calm v3 (more H i) {i} := hc2.edited hw2 hl (by rw [← hv3]; rfl) hslot3 fun j => by
    rw [← hv3]; rfl
  have hnum3 : v3.inumAt i = some sl.inum := by rw [View.inumAt, hslot3, hl.slot]; rfl
  refine vwp_seq (vwp_iunlockput_safe hc3 (by rw [hslot3]; exact hl.slot) hl.busy fun n b hn hb h0 => ?_)
    fun _ v4 _ h4 => vwp_seq vwp_commit_trans fun _ v5 _ hv5 => vwp_pure ⟨rfl, ?_, ?_⟩
  · rw [hheld3]
    exact hsafe n b (by rw [hm, ← hnum3]; exact hn) (by rw [← hfiles3]; exact hb) h0
  · rw [show ({i} : Finset Nat).erase i = ∅ by simp] at h4
    rw [hv5]
    exact h4.1.of_held rfl rfl fun _ => rfl
  · have hf4 := h4.2
    refine ⟨?_, fun j hj => ?_⟩
    · have h3 : v3 = { v2 with files := v1.files, room := v3.room } := by rw [← hfiles3, ← hv3]; rfl
      rw [hv5, hf4.eq, h3, h₂.eq, ← htr, ← hroom]
    · have h1 := h₂.inum j (by have := le_more H i j; omega)
      have h2 := hf4.inum j (by rw [hheld3]; exact hj)
      rw [hv5]
      exact h2.trans ((by rw [View.inumAt, hslot3]; rfl : v3.inumAt j = v2.inumAt j).trans h1)

/-- **`sys_link`, once the link is counted.** -/
theorem vwpOr_linkEntry {n : Nat} (hall : ∀ e, c.E e)
    (hc : Calm v (more (fun _ => 0) i) ∅) (hp : p < NPROC) (hproc : v1.proc p ≠ none) (hi : Tables v1 (fun _ => 0) ∧ v1.trans = false ∧ v1.room = none)
    (hm : v1.inumAt i = some m) (hf : v1.files m = some a) (hs : Safe v1 (fun _ => 0) i)
    (h : Edited (more (fun _ => 0) i) v1 m { a with nlink := a.nlink + 1 } v) :
    vwpOr c p (fun r _ => r = true) (do
      match ← nameiparent new with
      | none => linkBad i
      | some (dp, name) =>
        call (.ilock dp)
        if ← dirlink dp name n then
          iunlockput dp
          call (.iput i)
          call .commit_trans
          pure true
        else
          iunlockput dp
          linkBad i) (fun r v' => r = false → Idle v' ∧ Same v1 v') v := by
  have hbad : ∀ v', Calm v' (more (fun _ => 0) i) ∅ → Frame (more (fun _ => 0) i) v v' →
      vwp c p (linkBad i) (fun r v' => r = false → Idle v' ∧ Same v1 v') v' := by
    intro v' hc' hf'
    refine vwp_mono (vwp_linkBad hall hc' hm hf hs hi.2.1 hi.2.2 (h.frame hf')) ?_
    exact fun r v'' _ ⟨_, hc'', hf''⟩ _ => ⟨⟨hc'', hf''.tables hi.1, by rw [hf''.eq]; exact hi.2.1,
      by rw [hf''.eq]; exact hi.2.2⟩, hf''.same⟩
  refine vwpOr_seq (vwp_nameiparent hc hp (by rw [h.eq]; exact hproc) hall) fun r v2 _ h2 => ?_
  rcases r with _ | ⟨dp, name⟩
  · exact (hbad v2 h2.2.1 h2.2.2).or
  obtain ⟨rfl, md, d, hpar⟩ := h2
  refine vwpOr_seq hpar.vwp_ilock ?_
  rintro _ v3 _ ⟨sl, hl, rfl, hc3, hs3, hf3⟩
  have hpos : 0 < v3.held dp + more (more (fun _ => 0) i) dp dp := by rw [more_self]; omega
  refine vwpOr_seqOr (vwpOr_dirlink hall hl hpar.type hc3 (fun j hj => ?_)
    (by rw [(h.frame hf3).eq])) (fun r v4 _ h4 => ?_) fun r k hk => ?_
  · rw [Finset.mem_singleton.1 hj]; exact hpos
  · obtain ⟨rfl, hc4, hf4⟩ := h4
    obtain ⟨sl', hsl', hb'⟩ := (hc4.busy dp).1 (Finset.mem_singleton_self dp)
    refine (vwp_seq (vwp_iunlockput_safe hc4 hsl' hb' (hs3.of_frame hf4.of_more
      (hf4.inum dp hpos))) fun _ v5 _ h5 => ?_).or
    rw [show ({dp} : Finset Nat).erase dp = ∅ by simp] at h5
    exact hbad v5 h5.1 ((hf3.trans hf4.of_more).trans h5.2)
  · rw [hk.1]
    exact wp_run_skip hall fun _ _ => wp_run_skip hall fun _ _ => wp_run_skip hall fun _ _ => rfl

/-- **`sys_link`.** -/
theorem vwpOr_sys_link (hall : ∀ e, c.E e) (hi : Idle v) (hp : p < NPROC) (hx : v.proc p = some x) :
    vwpOr c p (fun r _ => r = true) (sys_link old new)
      (fun r v' => r = false → Idle v' ∧ Same v v') v := by
  refine vwpOr_seq (vwp_namex hi.calm hp (by rw [hx]; simp) hall) fun r v1 _ h1 => ?_
  cases r with
  | none => exact vwpOr_pure fun _ => ⟨hi.of_frame h1.2.2 h1.2.1, h1.2.2.same⟩
  | some i =>
    obtain ⟨hc1, hs1, hf1, m, -, hnum⟩ := h1
    have hrest : Tables v1 (fun _ => 0) ∧ v1.trans = false ∧ v1.room = none := ⟨hf1.tables hi.tables, by rw [hf1.eq]; exact hi.trans,
      by rw [hf1.eq]; exact hi.room⟩
    refine vwpOr_seq (vwp_begin_trans (S := ∅) hrest.2.1 (.inl (hall _))) fun _ v2 _ hv2 => ?_
    have hc2 : Calm v2 (more (fun _ => 0) i) ∅ := hc1.of_held (by rw [hv2]) (by rw [hv2]) fun _ => by
      rw [hv2]; rfl
    have hpos : 0 < v2.held i + more (fun _ => 0) i i := by rw [more_self]; omega
    refine vwpOr_seq (vwp_ilock hc2 hpos (fun _ => hall _) (.inl (hall _))) ?_
    rintro _ v3 hw3 ⟨sl, a, hl, hsl, -, hc3, hf3⟩
    rw [show insert i (∅ : Finset Nat) = {i} by simp] at hc3
    obtain rfl : m = sl.inum := Option.some.inj (hnum.symm.trans (by rw [← hsl, hv2]; rfl))
    have hs3 : Safe v3 (fun _ => 0) i :=
      Safe.of_frame (v := v2) (by rw [hv2]; exact hs1) hf3.of_more (hf3.inum i hpos)
    refine vwpOr_op fun _ => ⟨sl, a, hl, fun y _ _ _ _ => vwpOr_ite (fun _ => vwp.or ?_) fun _ => ?_⟩
    · refine vwp_seq (vwp_iunlockput_safe hc3 hl.slot hl.busy hs3) fun _ v4 _ h4 =>
        vwp_seq vwp_commit_trans fun _ v5 _ hv5 => vwp_pure fun _ => ?_
      rw [show ({i} : Finset Nat).erase i = ∅ by simp] at h4
      subst hv2 hv5
      have hf := hf1.trans ((hf3.of_more.trans h4.2).ofTrans hrest.2.1 hrest.2.2)
      exact ⟨hi.of_frame hf (h4.1.of_held rfl rfl fun _ => rfl), hf.same⟩
    · refine vwpOr_op fun _ => ⟨sl, a, hl, by rw [hf3.eq, hv2], .inl (hall _), ?_⟩
      generalize hv4 : (v3.setFile sl.inum (some { a with nlink := a.nlink + 1 })).log
        (IBLOCK sl.inum) = v4
      have hslot4 : v4.slot = v3.slot := by rw [← hv4]; rfl
      have hc4 : Calm v4 (more (fun _ => 0) i) {i} := hc3.edited hw3 hl (by rw [← hv4]; rfl) hslot4
        fun j => by rw [← hv4]; rfl
      refine vwpOr_seq (vwp_iunlock hc4 (by rw [hslot4]; exact hl.slot) hl.busy) ?_
      rintro _ v5 _ ⟨hc5, hf5, -⟩
      rw [show ({i} : Finset Nat).erase i = ∅ by simp] at hc5
      have hfile : v1.files sl.inum = some a := by
        have := hl.file
        rw [hf3.eq, hv2] at this
        exact this
      have h4 : Edited (more (fun _ => 0) i) v1 sl.inum { a with nlink := a.nlink + 1 } v4 := by
        refine ⟨?_, fun j hj => ?_⟩
        · rw [← hv4, hf3.eq, hv2]; rfl
        · rw [View.inumAt, hslot4]
          exact (hf3.inum j (by rw [hv2]; exact hj)).trans (by rw [hv2]; rfl)
      refine vwpOr_mono (vwpOr_linkEntry hall hc5 hp (by rw [hf1.eq, hx]; simp) hrest hnum hfile hs1
        (h4.frame hf5)) fun r v' _ h' hr => ⟨(h' hr).1, hf1.same.trans (h' hr).2⟩

/-! ## `unlink` -/

/-- `isdirempty` only reads. -/
theorem vwp_isdirempty (hl : v.Locked i sl f) (ht : f.type = T_DIR) :
    vwp c p (isdirempty i) (fun _ v' => v' = v) v := by
  have hloop : ∀ count j, j + count ≤ f.count →
      vwp c p (isdiremptyFrom i count (DESIZE * j)) (fun _ v' => v' = v) v := by
    intro count
    induction count with
    | zero => exact fun j _ => vwp_pure rfl
    | succ count ih =>
      intro j hj
      refine vwp_seq (vwp_readDirent hl ht (j := j) (by omega)) ?_
      rintro _ _ _ ⟨rfl, rfl⟩
      exact vwp_ite (fun _ => vwp_pure rfl) fun _ => ih (j + 1) (by omega)
  refine vwp_op fun hw => ⟨sl, f, hl, fun y _ _ _ hys => ?_⟩
  show vwp c p (isdiremptyFrom i (direntCount y.d.size - 2) (DESIZE * 2)) _ v
  rw [AFile.direntCount hys (hw.tidy _ f hl.file ht).1]
  by_cases h2 : 2 ≤ f.count
  · exact hloop (f.count - 2) 2 (by omega)
  · rw [show f.count - 2 = 0 by omega]
    exact vwp_pure rfl

/-- Once the entry may go, the call does not fail any more. -/
theorem vwpOr_unlinkEntry {dp ip off : Nat} {dir : Bool} {Q : Bool → View → Prop}
    (hall : ∀ e, c.E e) : vwpOr c p (fun r _ => r = true) (unlinkEntry dp ip off dir) Q v := by
  have hend : ∀ k, wp ((do
      iunlockput dp
      call (.iupdate ip fun x => { x with nlink := x.nlink - 1 })
      iunlockput ip
      call .commit_trans
      pure true : P Bool).run (exec p)) (fun r _ => r = true) c.E k := fun k =>
    wp_run_skip hall fun _ _ => wp_run_skip hall fun _ _ => wp_run_skip hall fun _ _ =>
      wp_run_skip hall fun _ _ => rfl
  refine vwpOr_stray fun k _ => wp_mono wp_any (fun r k' _ => ?_) fun e _ => hall e
  refine Prog.wp_run_ite (fun _ => hall _) fun _ => ?_
  exact Prog.wp_run_ite (fun _ => wp_run_skip hall fun _ => hend) fun _ => hend _

/-- **`sys_unlink`.** -/
theorem vwpOr_sys_unlink (hall : ∀ e, c.E e) (hi : Idle v) (hp : p < NPROC) (hx : v.proc p = some x) :
    vwpOr c p (fun r _ => r = true) (sys_unlink path)
      (fun r v' => r = false → Idle v' ∧ Same v v') v := by
  refine vwpOr_seq (vwp_nameiparent hi.calm hp (by rw [hx]; simp) hall) fun r v1 _ h1 => ?_
  rcases r with _ | ⟨dp, name⟩
  · exact vwpOr_pure fun _ => ⟨hi.of_frame h1.2.2 h1.2.1, h1.2.2.same⟩
  obtain ⟨rfl, md, d, hpar⟩ := h1
  have htr1 : v1.trans = false := by rw [hpar.frame.eq]; exact hi.trans
  have hroom1 : v1.room = none := by rw [hpar.frame.eq]; exact hi.room
  refine vwpOr_seq (vwp_begin_trans (S := ∅) htr1 (.inl (hall _))) ?_
  intro _ v2 _ hv2
  have hc2 : Calm v2 (more (fun _ => 0) dp) ∅ :=
    hpar.calm.of_held (by rw [hv2]) (by rw [hv2]) fun _ => by rw [hv2]; rfl
  have hpar2 : Parent (fun _ => 0) p path v2 dp md d v2 := by
    refine ⟨?_, ?_, hpar.type, hc2, by rw [hv2]; exact hpar.safe, .refl, by rw [hv2]; exact hpar.inum⟩
    · rw [← hpar.resolve, ← hpar.frame.resolve hp, hv2]; rfl
    · rw [← hpar.file, ← hpar.frame.files, hv2]
  have hbad : ∀ w, Calm w (more (fun _ => 0) dp) {dp} → Safe w (fun _ => 0) dp →
      Frame (fun _ => 0) v2 w →
      vwp c p (unlinkBad dp) (fun r v' => r = false → Idle v' ∧ Same v v') w := by
    intro w hc hs hf
    obtain ⟨slw, hsl, hb⟩ := (hc.busy dp).1 (Finset.mem_singleton_self dp)
    refine vwp_seq (vwp_iunlockput_safe hc hsl hb hs) fun _ w1 _ h1 =>
      vwp_seq vwp_commit_trans fun _ w2 _ hw2 => vwp_pure fun _ => ?_
    rw [show ({dp} : Finset Nat).erase dp = ∅ by simp] at h1
    subst hv2 hw2
    have hf' := hpar.frame.trans ((hf.trans h1.2).ofTrans htr1 hroom1)
    exact ⟨hi.of_frame hf' (h1.1.of_held rfl rfl fun _ => rfl), hf'.same⟩
  refine vwpOr_seq hpar2.vwp_ilock ?_
  rintro _ v3 _ ⟨sl, hl, rfl, hc3, hs3, hf3⟩
  refine vwpOr_ite (fun _ => (hbad v3 hc3 hs3 hf3).or) fun _ => ?_
  refine vwpOr_seq (vwp_dirlookup hl hpar.type hc3 (hall _)) fun r v4 _ h4 => ?_
  rcases r with _ | ⟨ip, off⟩
  · obtain ⟨rfl, -⟩ := h4
    exact (hbad v4 hc3 hs3 hf3).or
  obtain ⟨j, -, rfl, hc4, hs4, hf4, -⟩ := h4
  have hpos : 0 < v4.held ip + more (more (fun _ => 0) dp) ip ip := by rw [more_self]; omega
  refine vwpOr_seq (vwp_ilock hc4 hpos (fun _ => hall _) (.inl (hall _))) ?_
  rintro _ v5 _ ⟨slp, a, hla, -, hip, hc5, hf5⟩
  refine vwpOr_op fun _ => ⟨slp, a, hla, fun y _ hyt _ _ => vwpOr_ite (fun _ => ?_) fun _ => ?_⟩
  · exact (vwp_panic (hall _)).or
  refine vwpOr_ite (fun ht => ?_) fun _ => vwpOr_unlinkEntry hall
  refine vwpOr_seq (vwp_isdirempty hla (hyt.symm.trans ht)) ?_
  rintro r _ _ rfl
  refine vwpOr_ite (fun _ => vwpOr_unlinkEntry hall) fun _ => ?_
  refine (vwp_seq (vwp_iunlockput_safe hc5 hla.slot hla.busy (hs4.of_frame hf5.of_more
    (hf5.inum ip hpos))) fun _ v6 _ h6 => ?_).or
  rw [show (insert ip ({dp} : Finset Nat)).erase ip = {dp} from Finset.erase_insert hip] at h6
  obtain ⟨hc6, hf6⟩ := h6
  have hf := (hf4.trans hf5.of_more).trans hf6
  have hposd : 0 < v3.held dp + more (fun _ => 0) dp dp := by rw [more_self]; omega
  exact hbad v6 hc6 (hs3.of_frame hf.of_more (hf.inum dp hposd)) (hf3.trans hf.of_more)

end

end Dixv6.Sys
