import Dixv6.Sys.Entry

/-!
# Calls that name files

`open`, `mkdir` and `mknod` on views. **A call that fails leaves the `Same` view behind**, with one
exception: `open` that has made a file and then finds no free entry of the file table or no free
descriptor (`View.Stuck`).
-/

namespace Dixv6.Sys

open Lib Fs

section
variable {c : Terms} {v v' : View} {p i : Nat} {sl : Slot} {path : Path} {x : Proc}

/-! ## `open` -/

/-- A transaction around a step that changes only the cache. -/
theorem Idle.ofTrans {H : Nat → Nat} {S : Finset Nat} (h : Idle v) (hc : Calm v' (fun _ => 0) ∅)
    (hf : Frame H { v with trans := true, room := some S } v') :
    Idle { v' with trans := false, room := none } ∧ Same v { v' with trans := false, room := none } :=
  have hf' := hf.ofTrans h.trans h.room
  ⟨h.of_frame hf' (hc.of_held rfl rfl fun _ => rfl), hf'.same⟩

/-- A file has been made and there is no way to open it. -/
def View.Stuck (v : View) (p : Nat) (x : Proc) (path : Path) (omode : UInt32) : Prop :=
  omode &&& O_CREATE ≠ 0 ∧ ¬ v.CanOpen x ∧ ∃ md d, v.resolve p path true = some md ∧
    v.files md = some d ∧ d.lookup (lastElem path) = none

/-- `fdalloc` on any kernel. -/
theorem wp_fdallocFrom {E : Stop → Prop} {g : Nat} : ∀ (fds : List Nat) (k : Kernel),
    wp ((fdallocFrom g fds).run (exec p)) (fun r k' => r = none →
      k' = k ∧ ∀ fd ∈ fds, (k.proc p).bind (fun x => x.ofile fd) ≠ none) E k
  | [], k => fun _ => ⟨rfl, fun _ h => by simp at h⟩
  | fd :: fds, k => by
    refine (Prog.wp_run_bind _ _).2 ((Prog.wp_run_lift _).2 ?_)
    simp only [exec, wp_gets]
    cases hfd : (k.proc p).bind fun x => x.ofile fd with
    | none =>
      refine (Prog.wp_run_bind _ _).2 ((Prog.wp_run_lift _).2 ?_)
      simp only [exec, setProc, wp_modify]
      exact fun h => by cases h
    | some g' =>
      refine wp_post (wp_fdallocFrom fds k) fun r k' h hr => ⟨(h hr).1, fun e he => ?_⟩
      rcases List.mem_cons.1 he with rfl | he
      · rw [hfd]; simp
      · exact (h hr).2 e he

/-- **`sys_open`, once the inode is locked**, on a kernel without a view. -/
theorem Strayed.openInode {k : Kernel} {a : AFile} {D : Nat → Nat} {omode : UInt32}
    (h : Strayed c v k) (hs : v.slot i = some sl) (hb : sl.busy = true)
    (hf : v.files sl.inum = some a) (hn : a.nlink ≠ 0) (hT : Tables v D) (hx : v.proc p = some x)
    (hall : ∀ e, c.E e) :
    wp ((openInode i omode).run (exec p)) (fun r k' => r = none → ¬ v.CanOpen x ∧
      ∀ m, v.files m ≠ none → (table c.g k'.fs.disk m).type ≠ 0) c.E k := by
  have hlive : ∀ f, ¬ v.Dying sl f := fun f hd =>
    hn (by rw [Option.some.inj (hf.symm.trans hd.file)]; exact hd.nlink)
  -- the last steps of both failures
  have hlast : ∀ k', k'.fs = k.fs → ¬ v.CanOpen x →
      wp ((Sys.iunlockput i >>= fun _ => (pure none : P (Option Nat))).run (exec p))
        (fun r k' => r = none → ¬ v.CanOpen x ∧
          ∀ m, v.files m ≠ none → (table c.g k'.fs.disk m).type ≠ 0) c.E k' := by
    intro k' hk' hfull
    have hstray : Strayed c { v with file := k'.file, proc := k'.proc } k' :=
      ⟨rfl, rfl, by rw [hk']; exact h.start, by rw [hk']; exact h.slot, by rw [hk']; exact h.nlink,
        by rw [hk']; exact h.type⟩
    refine Prog.wp_run_seq (hstray.iunlockput hs hb (by rw [hf]; simp) fun f hd => hlive f
      ⟨hd.ref, hd.valid, hd.file, hd.nlink⟩) ?_
    rintro _ k'' ⟨sl', hstray'⟩
    exact fun _ => ⟨hfull, hstray'.type⟩
  refine (Prog.wp_run_bind _ _).2 ((Prog.wp_run_lift _).2 ?_)
  simp only [exec, filealloc, wp_bind, wp_gets, id]
  cases hfind : (List.range NFILE).find? fun f => (k.file f).ref = 0 with
  | none =>
    refine hlast k rfl fun hcan => ?_
    obtain ⟨⟨g, hg, h0⟩, -⟩ := hcan
    have := List.find?_range_eq_none.1 hfind g hg
    rw [h.file] at this
    simp [h0] at this
  | some g =>
    obtain ⟨h1, h2, -⟩ := List.find?_range_eq_some.1 hfind
    have hr : (k.file g).ref = 0 := of_decide_eq_true h1
    have hclosed := hT.closed g (List.mem_range.1 h2) (by rw [← h.file]; exact hr)
    simp only [Sys.setFile, wp_bind, wp_modify, wp_pure]
    refine Prog.wp_run_seq (wp_fdallocFrom _ _) fun r k1 hk1 => ?_
    cases r with
    | some fd =>
      refine Prog.wp_run_seq (R := fun _ _ => True) ?_ fun _ k2 _ =>
        Prog.wp_run_seq (R := fun _ _ => True) ?_ fun _ k3 _ hr => by cases hr
      all_goals exact wp_mono wp_any (fun _ _ _ => trivial) fun e _ => hall e
    | none =>
      obtain ⟨rfl, hfull⟩ := hk1 rfl
      refine (Prog.wp_run_bind _ _).2 ((Prog.wp_run_bind _ _).2 ((Prog.wp_run_lift _).2 ?_))
      simp only [exec, filedrop, wp_bind, wp_gets, wp_stopIf, id, Function.update_self]
      refine ⟨fun _ => hall _, fun _ => wp_ite (fun h1 => absurd h1 (Nat.lt_irrefl 1)) fun _ => ?_⟩
      simp only [Sys.setFile, wp_bind, wp_modify, wp_pure, h.file, hclosed]
      refine hlast _ rfl fun hcan => ?_
      obtain ⟨-, fd, hfd, hnone⟩ := hcan
      refine hfull fd (List.mem_range.2 hfd) ?_
      simp only [h.proc, hx, Option.bind_some]
      exact hnone

/-- **`sys_open`.** -/
theorem vwpOr_sys_open {omode : UInt32} (hall : ∀ e, c.E e) (hi : Idle v) (hp : p < NPROC)
    (hx : v.proc p = some x) : vwpOr c p (fun r k => r = none → v.Stuck p x path omode ∧
        ∃ m, v.files m = none ∧ (table c.g k.fs.disk m).type ≠ 0)
      (sys_open path omode) (fun r v' => r = none →
        ¬ v.Stuck p x path omode ∧ Idle v' ∧ Same v v') v := by
  have hproc : v.proc p ≠ none := by rw [hx]; simp
  -- an inode that was there already
  have hold : ∀ v' i sl a, ¬ v.Stuck p x path omode → Calm v' (more (fun _ => 0) i) {i} →
      Safe v' (fun _ => 0) i → Frame (fun _ => 0) v v' → v'.Locked i sl a →
      vwp c p (openInode i omode) (fun r v' => r = none →
        ¬ v.Stuck p x path omode ∧ Idle v' ∧ Same v v') v' := by
    intro v' i sl a hstuck hc hs hf hl
    refine vwp_mono (vwp_openInode hc hl.slot hl.busy hs (hf.tables hi.tables)
      (by rw [hf.eq]; exact hx) (by rw [hf.eq]; exact hi.trans) (by rw [hf.eq]; exact hi.room)) ?_
    exact fun r v'' _ h hr => ⟨hstuck, (h hr).1, hf.same.trans (h hr).2⟩
  refine vwpOr_ite (fun hcr => ?_) fun hcr => vwp.or ?_
  · refine vwpOr_seq (vwp_begin_trans (S := ∅) hi.trans (.inl (hall _))) fun _ v1 _ hv1 => ?_
    have hc1 : Calm v1 (fun _ => 0) ∅ := hi.calm.of_held (by rw [hv1]) (by rw [hv1]) fun _ => by
      rw [hv1]; rfl
    refine vwpOr_seqOr (@vwpOr_create _ _ _ _ T_FILE 0 0 path
      hall hc1 hp (by rw [hv1]; exact hproc) (by rw [hv1]) (by decide)) (fun r v2 _ h2 => ?_)
      fun r k h2 => ?_
    · refine vwpOr_seq vwp_commit_trans fun _ v3 hw3 hv3 => vwp.or ?_
      subst hv1 hv3
      -- the name is known, so that no file is made
      have hknown : ∀ {md d j}, v.resolve p path true = some md → v.files md = some d →
          d.lookup (lastElem path) = some j → ¬ v.Stuck p x path omode := by
        rintro md d j hr hd hj ⟨-, -, _, _, h, h', h''⟩
        obtain rfl := Option.some.inj (hr.symm.trans h)
        obtain rfl := Option.some.inj (hd.symm.trans h')
        cases hj.symm.trans h''
      cases h2 with
      | noParent hr hc hf =>
        refine vwp_pure fun _ => ⟨fun ⟨_, _, _, _, h, _⟩ => ?_, hi.ofTrans hc hf⟩
        cases hr.symm.trans h
      | taken hr hd hj hc hf => exact vwp_pure fun _ => ⟨hknown hr hd hj, hi.ofTrans hc hf⟩
      | @old _ md j i d a sl hr hd hj ht hc hs hf hl =>
        exact hold _ i sl a (hknown hr hd hj) (hc.of_held rfl rfl fun _ => rfl) hs
          (hf.ofTrans hi.trans hi.room) ⟨hl.slot, hl.busy, hl.file⟩
    · obtain ⟨j, rfl, hnode⟩ := h2
      obtain ⟨md, d, hr, hd, hj, w, sl, a, hstray, hsl, hb, hval, ha, hn, hnone, hfile, hproc'⟩ :=
        hnode (by decide)
      subst hv1
      refine Prog.wp_run_seq ((Prog.wp_run_lift _).2 (hstray.commit_trans (hall _))) fun _ k' h' => ?_
      refine wp_post (h'.openInode (x := x) hsl hb ha (by rw [hn]; decide)
        (hi.tables.of_eq hfile hproc') (by rw [hproc']; exact hx) hall) fun r k'' h'' hrn => ?_
      refine ⟨⟨hcr, fun hcan => (h'' hrn).1 ?_, md, d, hr, hd, hj⟩, sl.inum, hnone,
        (h'' hrn).2 _ (by rw [ha]; simp)⟩
      rw [View.CanOpen, hfile]
      exact hcan
  · have hstuck : ¬ v.Stuck p x path omode := fun h => hcr h.1
    refine vwp_seq (vwp_namex hi.calm hp hproc hall) fun r v1 _ h1 => ?_
    cases r with
    | none => exact vwp_pure fun _ => ⟨hstuck, hi.of_frame h1.2.2 h1.2.1, h1.2.2.same⟩
    | some i =>
      obtain ⟨hc1, hs1, hf1, -⟩ := h1
      have hpos : 0 < v1.held i + more (fun _ => 0) i i := by rw [more_self]; omega
      refine vwp_seq (vwp_ilock hc1 hpos (fun _ => hall _) (.inl (hall _))) ?_
      rintro _ v2 _ ⟨sl, f, hl, -, -, hc2, hf2⟩
      have hs2 := hs1.of_frame hf2.of_more (hf2.inum i hpos)
      have hf := hf1.trans hf2.of_more
      rw [show insert i (∅ : Finset Nat) = {i} by simp] at hc2
      refine vwp_op fun _ => ⟨sl, f, hl, fun y _ _ _ _ => vwp_ite (fun _ => ?_) fun _ =>
        hold v2 i sl f hstuck hc2 hs2 hf hl⟩
      refine vwp_seq (vwp_iunlockput_safe hc2 hl.slot hl.busy hs2) fun _ v3 _ h3 => vwp_pure fun _ => ?_
      rw [show ({i} : Finset Nat).erase i = ∅ by simp] at h3
      have hf3 := hf.trans h3.2
      exact ⟨hstuck, hi.of_frame hf3 h3.1, hf3.same⟩

/-! ## `mkdir` and `mknod` -/

/-- **`sys_mkdir` and `sys_mknod`.** -/
theorem vwpOr_makeNode {type major minor : Int16} (hall : ∀ e, c.E e) (hi : Idle v) (hp : p < NPROC)
    (hproc : v.proc p ≠ none) (hty : type ≠ 0) (hty' : type ≠ T_FILE) :
    vwpOr c p (fun r _ => r = true) (makeNode path type major minor)
      (fun r v' => r = false → Idle v' ∧ Same v v') v := by
  refine vwpOr_seq (vwp_begin_trans (S := ∅) hi.trans (.inl (hall _))) fun _ v1 _ hv1 => ?_
  have hc1 : Calm v1 (fun _ => 0) ∅ := hi.calm.of_held (by rw [hv1]) (by rw [hv1]) fun _ => by
    rw [hv1]; rfl
  refine vwpOr_seqOr (@vwpOr_create _ _ _ _ _ _ _ path hall hc1 hp (by rw [hv1]; exact hproc)
    (by rw [hv1]) hty) (fun r v2 _ h2 => ?_) fun r k h2 => ?_
  · subst hv1
    cases h2 with
    | noParent hr hc hf | taken hr hd hj hc hf =>
      refine (vwp_seq vwp_commit_trans fun _ v3 _ hv3 => vwp_pure fun _ => ?_).or
      rw [hv3]
      exact hi.ofTrans hc hf
    | old _ _ _ ht => exact absurd ht hty'
  · obtain ⟨j, rfl, -⟩ := h2
    exact wp_run_skip hall fun _ _ => wp_run_skip hall fun _ _ => rfl

end

end Dixv6.Sys
