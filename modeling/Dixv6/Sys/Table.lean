import Mathlib.Algebra.BigOperators.Group.Finset.Basic
import Dixv6.Sys.Handle

/-!
# Open files

An entry of the file table is referred to by descriptors (`View.fds`) and, while a system call
runs, by the call itself: `Tables v D` says that the reference counts are those of the descriptors
and of the references `D` in hand, and that an entry without references has no type.

Between calls a view is `Idle`: all references are those of the tables. `Same` is what a call that
fails leaves behind; the rules at the end say so for the failures of `openInode` and `sys_pipe`.
-/

namespace Dixv6.Sys

open Lib Fs Function
open Pipes (Pipe)

/-- The number of descriptors of a process that refer to an entry of the file table. -/
def Proc.fds (x : Proc) (f : Nat) : Nat :=
  ((Finset.range NOFILE).filter fun fd => x.ofile fd = some f).card

/-- The number of descriptors that refer to an entry of the file table. -/
def View.fds (v : View) (f : Nat) : Nat :=
  ∑ p ∈ Finset.range NPROC, ((v.proc p).map fun x => x.fds f).getD 0

/-- The state of the file table while a system call runs. -/
structure Tables (v : View) (D : Nat → Nat) : Prop where
  refs : ∀ f < NFILE, (v.file f).ref = v.fds f + D f
  closed : ∀ f < NFILE, (v.file f).ref = 0 → (v.file f).type = .none
  live : ∀ p x, v.proc p = some x → p < NPROC
  bound : ∀ p x fd f, v.proc p = some x → x.ofile fd = some f → fd < NOFILE ∧ f < NFILE

/-- What a call that fails leaves behind: nothing has changed but cache entries that nobody refers
to, and entries of the file table that are free. -/
structure Same (v v' : View) : Prop where
  files : v'.files = v.files
  free : v'.free = v.free
  bits : v'.bits = v.bits
  proc : v'.proc = v.proc
  pages : v'.pages = v.pages
  ref : ∀ f, (v'.file f).ref = (v.file f).ref
  type : ∀ f, (v'.file f).type = (v.file f).type
  file : ∀ f, (v.file f).ref ≠ 0 → v'.file f = v.file f
  inum : ∀ i, 0 < v.held i → v'.inumAt i = v.inumAt i
  held : ∀ i, v'.held i = v.held i

/-- A view between system calls. -/
structure Idle (v : View) : Prop where
  calm : Calm v (fun _ => 0) ∅
  tables : Tables v (fun _ => 0)
  trans : v.trans = false
  room : v.room = none

section
variable {v v' v1 : View} {H H' D : Nat → Nat} {L : Finset Nat} {p i f fd : Nat} {x : Proc}

theorem Same.refl : Same v v :=
  ⟨rfl, rfl, rfl, rfl, rfl, fun _ => rfl, fun _ => rfl, fun _ _ => rfl, fun _ _ => rfl, fun _ => rfl⟩

theorem Same.trans (h : Same v v1) (h' : Same v1 v') : Same v v' where
  files := h'.files.trans h.files
  free := h'.free.trans h.free
  bits := h'.bits.trans h.bits
  proc := h'.proc.trans h.proc
  pages := h'.pages.trans h.pages
  ref f := (h'.ref f).trans (h.ref f)
  type f := (h'.type f).trans (h.type f)
  file f hf := (h'.file f (by rw [h.ref]; exact hf)).trans (h.file f hf)
  inum i hi := (h'.inum i (by rw [h.held]; exact hi)).trans (h.inum i hi)
  held i := (h'.held i).trans (h.held i)

/-- Only the cache has changed. -/
theorem Frame.same (h : Frame H v v') : Same v v' := by
  have heq := h.eq
  refine ⟨h.files, by rw [heq], by rw [heq], by rw [heq], by rw [heq], fun f => by rw [heq],
    fun f => by rw [heq], fun f _ => by rw [heq], fun i hi => h.inum i (by omega), h.held⟩

/-! ## References from the tables to inodes -/

/-- References from the tables and references in hand count alike. -/
theorem Calm.of_held (h : Calm v H L) (hs : v'.slot = v.slot) (hf : v'.files = v.files)
    (hh : ∀ i, v'.held i + H' i = v.held i + H i) : Calm v' H' L where
  refs i := by
    have hi := h.refs i
    rw [View.refs, hs, hh]
    exact hi
  busy i := by rw [hs]; exact h.busy i
  linked m f hm hn := by
    rw [hs]
    exact h.linked m f (by rw [← hf]; exact hm) hn

/-- A change that leaves type and inode of a file alone. -/
theorem View.held_onFile_same {h : File → File} (ht : (h (v.file f)).type = (v.file f).type)
    (hip : (h (v.file f)).ip = (v.file f).ip) (i : Nat) : (v.onFile f h).held i = v.held i := by
  simp only [View.held, View.onFile]
  congr 2
  refine Finset.filter_congr fun g _ => ?_
  by_cases hg : g = f
  · subst hg; rw [update_self, ht, hip]
  · rw [update_of_ne hg]

/-- A change of a file that is not about an inode. -/
theorem Calm.onFile (h : Calm v H L) {u : File → File}
    (ht : (u (v.file f)).type = (v.file f).type) (hip : (u (v.file f)).ip = (v.file f).ip) :
    Calm (v.onFile f u) H L :=
  h.of_held rfl rfl fun j => by rw [View.held_onFile_same ht hip]

/-- Entries of the file table that are free or ends of pipes refer to no inode. -/
theorem View.held_congr (hp : v'.proc = v.proc) (hf : ∀ g < NFILE, v'.file g = v.file g ∨
    (v'.file g).type ≠ .inode ∧ (v.file g).type ≠ .inode) (i : Nat) : v'.held i = v.held i := by
  have hsame : ((Finset.range NFILE).filter fun g => (v'.file g).type = .inode ∧ (v'.file g).ip = i) =
      (Finset.range NFILE).filter fun g => (v.file g).type = .inode ∧ (v.file g).ip = i := by
    refine Finset.filter_congr fun g hg => ?_
    rcases hf g (Finset.mem_range.1 hg) with h | ⟨h1, h2⟩
    · rw [h]
    · exact iff_of_false (fun h => h1 h.1) fun h => h2 h.1
  rw [View.held, View.held, hsame, hp]

/-- Free entries of the file table have been taken. -/
structure Borrowed (v : View) (T : Finset Nat) (v' : View) : Prop where
  free : ∀ f ∈ T, f < NFILE ∧ (v.file f).ref = 0
  other : ∀ g ∉ T, v'.file g = v.file g
  eq : v' = { v with file := v'.file, pipe := v'.pipe, pages := v'.pages }

/-- When they are free again, nothing has changed. -/
theorem Borrowed.same {T : Finset Nat} (h : Borrowed v T v') (hT : Tables v D)
    (hback : ∀ f ∈ T, (v'.file f).ref = 0 ∧ (v'.file f).type = .none)
    (hpages : v'.pages = v.pages) : Same v v' := by
  have heq := h.eq
  have hcase : ∀ g, v'.file g = v.file g ∨ (v.file g).ref = 0 ∧ (v.file g).type = .none ∧
      (v'.file g).ref = 0 ∧ (v'.file g).type = .none := fun g => by
    by_cases hg : g ∈ T
    · obtain ⟨hlt, hr⟩ := h.free g hg
      exact .inr ⟨hr, hT.closed g hlt hr, hback g hg⟩
    · exact .inl (h.other g hg)
  refine ⟨by rw [heq], by rw [heq], by rw [heq], by rw [heq], hpages, fun g => ?_, fun g => ?_,
    fun g hg => ?_, fun j _ => by rw [heq]; rfl,
    fun j => View.held_congr (by rw [heq]) (fun g _ => ?_) j⟩
  · grind
  · grind
  · exact (hcase g).resolve_right fun h => hg h.1
  · grind

/-- Nothing that the tables depend on has changed. -/
theorem Same.tables (h : Same v v') (hT : Tables v D) : Tables v' D := by
  refine ⟨fun g hg => ?_, fun g hg hr => ?_, ?_, ?_⟩
  · rw [h.ref, View.fds, h.proc]; exact hT.refs g hg
  · rw [h.type]; exact hT.closed g hg (by rw [← h.ref]; exact hr)
  · rw [h.proc]; exact hT.live
  · rw [h.proc]; exact hT.bound

/-! ## The rules -/

variable {c : Terms}

/-- `fdalloc` takes a descriptor that is free. -/
theorem vwp_fdallocFrom (hx : v.proc p = some x) : ∀ fds : List Nat,
    vwp c p (fdallocFrom f fds) (fun r v' => match r with
      | none => v' = v
      | some fd => v' = v.onProc p (fun x => { x with ofile := update x.ofile fd (some f) }) ∧
          x.ofile fd = none) v
  | [] => vwp_pure rfl
  | fd :: fds => by
    refine vwp_op fun _ => ?_
    simp only [opSpec, hx, Option.bind_some]
    cases hfd : x.ofile fd with
    | none =>
      refine vwp_op fun _ => ?_
      simp only [opSpec]
      exact vwp_pure ⟨rfl, hfd⟩
    | some g => exact vwp_fdallocFrom hx fds

theorem vwp_fdalloc (hx : v.proc p = some x) : vwp c p (fdalloc f) (fun r v' => match r with
      | none => v' = v
      | some fd => v' = v.onProc p (fun x => { x with ofile := update x.ofile fd (some f) }) ∧
          x.ofile fd = none) v := vwp_fdallocFrom hx _

/-- A transaction begins, with the blocks `S` to log. -/
theorem vwp_begin_trans {S : Finset Nat} (ht : v.trans = false)
    (hS : c.E .tooBig ∨ S.card < LOGSIZE ∧ S.card + 1 < c.g.nlog) :
    vwp c p (call .begin_trans) (fun _ v' => v' = { v with trans := true, room := some S }) v :=
  vwp_call fun _ => ⟨ht, S, hS, rfl⟩

theorem vwp_commit_trans :
    vwp c p (call .commit_trans) (fun _ v' => v' = { v with trans := false, room := none }) v :=
  vwp_call fun _ => rfl

/-- The view with the last reference to a file gone. -/
def View.closeFile (v : View) (f : Nat) : View :=
  v.onFile f fun x => { x with ref := 0, type := .none }

/-- A transaction around a step leaves what the step leaves. -/
theorem Frame.ofTrans {S : Finset Nat} (ht : v.trans = false) (hr : v.room = none)
    (h : Frame H { v with trans := true, room := some S } v') :
    Frame H v { v' with trans := false, room := none } := by
  refine ⟨?_, h.inum⟩
  have heq := h.eq
  rw [heq, ← ht, ← hr]

/-- The tables are a matter of files and processes. -/
theorem Tables.of_eq (h : Tables v D) (hf : v'.file = v.file) (hp : v'.proc = v.proc) :
    Tables v' D := by
  refine ⟨fun g hg => ?_, fun g hg => ?_, ?_, ?_⟩
  · rw [hf, View.fds, hp]; exact h.refs g hg
  · rw [hf]; exact h.closed g hg
  · rw [hp]; exact h.live
  · rw [hp]; exact h.bound

theorem Frame.tables (h : Frame H v v') (hT : Tables v D) : Tables v' D :=
  hT.of_eq (by rw [h.eq]) (by rw [h.eq])

/-- `fileclose` of a file that has not been opened yet. -/
theorem vwp_fileclose_fresh (h1 : (v.file f).ref = 1) (ht : (v.file f).type = .none) :
    vwp c p (fileclose f) (fun _ v' => v' = v.closeFile f) v := by
  refine vwp_op fun _ => ⟨fun h0 => by omega, fun h2 => by omega, fun _ => ?_⟩
  refine vwp_ite (fun h => ?_) fun _ => vwp_ite (fun h => ?_) fun _ => vwp_pure rfl
  · rw [ht] at h; cases h
  · rw [ht] at h; cases h

/-- There is a free entry of the file table, and a free descriptor. -/
def View.CanOpen (v : View) (x : Proc) : Prop :=
  (∃ f < NFILE, (v.file f).ref = 0) ∧ ∃ fd < NOFILE, x.ofile fd = none

/-- Only the cache has changed between calls. -/
theorem Idle.of_frame (h : Idle v) (hf : Frame H v v') (hc : Calm v' (fun _ => 0) ∅) : Idle v' :=
  ⟨hc, hf.tables h.tables, by rw [hf.eq]; exact h.trans, by rw [hf.eq]; exact h.room⟩

/-- **`sys_open`, once the inode is locked**: if it fails, nothing has changed. -/
theorem vwp_openInode {sl : Slot} {omode : UInt32} (hc : Calm v (more (fun _ => 0) i) {i})
    (hs : v.slot i = some sl) (hb : sl.busy = true) (hsafe : Safe v (fun _ => 0) i)
    (hT : Tables v fun _ => 0) (hx : v.proc p = some x) (ht : v.trans = false)
    (hroom : v.room = none) :
    vwp c p (openInode i omode) (fun r v' => r = none → Idle v' ∧ Same v v') v := by
  have herase : ({i} : Finset Nat).erase i = ∅ := by simp
  refine vwp_op fun _ => ⟨fun _ => ?_, fun f hf h0 => ?_⟩
  · refine vwp_seq (vwp_iunlockput_safe hc hs hb hsafe) fun _ v' _ h' => vwp_pure fun _ => ?_
    rw [herase] at h'
    exact ⟨⟨h'.1, h'.2.tables hT, by rw [h'.2.eq]; exact ht, by rw [h'.2.eq]; exact hroom⟩, h'.2.same⟩
  generalize hv1 : (v.onFile f fun x => { x with ref := 1 }) = v1
  have htype := hT.closed f hf h0
  have hf1 : v1.file f = { v.file f with ref := 1 } := by rw [← hv1]; exact update_self _ _ _
  have hc1 : Calm v1 (more (fun _ => 0) i) {i} := by rw [← hv1]; exact hc.onFile rfl rfl
  have hx1 : v1.proc p = some x := by rw [← hv1]; exact hx
  have hs1 : v1.slot i = some sl := by rw [← hv1]; exact hs
  refine vwp_seq (vwp_fdalloc hx1) fun r v2 _ h2 => ?_
  cases r with
  | none =>
    obtain rfl := h2
    refine vwp_seq (vwp_fileclose_fresh (f := f) (by rw [hf1]) (by rw [hf1]; exact htype)) ?_
    rintro _ _ _ rfl
    have hheld : ∀ j, (v2.closeFile f).held j = v.held j := fun j => by
      rw [View.closeFile, View.held_onFile_same (by rw [hf1]; exact htype.symm) rfl, ← hv1,
        View.held_onFile_same rfl rfl]
    have hc2 : Calm (v2.closeFile f) (more (fun _ => 0) i) {i} :=
      hc1.onFile (by rw [hf1]; exact htype.symm) rfl
    have hsafe2 : Safe (v2.closeFile f) (fun _ => 0) i := fun m a hm ha hn => by
      rw [← hv1] at hm ha
      rw [hheld]
      exact hsafe m a hm ha hn
    refine vwp_seq (vwp_iunlockput_safe hc2 hs1 hb hsafe2) fun _ v' _ h' => vwp_pure fun _ => ?_
    rw [herase] at h'
    have heq := h'.2.eq
    have hback : Same v (v2.closeFile f) := by
      refine Borrowed.same (T := {f}) ⟨fun g hg => ?_, fun g hg => ?_, by rw [← hv1]; rfl⟩ hT
        (fun g hg => ?_) (by rw [← hv1]; rfl)
      · rw [Finset.mem_singleton.1 hg]; exact ⟨hf, h0⟩
      · have hne : g ≠ f := fun e => hg (Finset.mem_singleton.2 e)
        rw [← hv1]
        simp only [View.closeFile, View.onFile, update_of_ne hne]
      · rw [Finset.mem_singleton.1 hg]
        simp [View.closeFile, View.onFile]
    exact ⟨⟨h'.1, h'.2.tables (hback.tables hT), by rw [heq, ← hv1]; exact ht,
      by rw [heq, ← hv1]; exact hroom⟩, hback.trans h'.2.same⟩
  | some fd =>
    refine vwp_op fun _ => ⟨sl, by rw [h2.1]; exact hs1, hb, vwp_op fun _ => ?_⟩
    simp only [opSpec]
    exact vwp_pure fun h => by cases h

/-! ## Pipes -/

/-- `fileclose` of the last reference to an end of a pipe. -/
theorem vwp_fileclose_pipe (h1 : (v.file f).ref = 1) (ht : (v.file f).type = .pipe) :
    vwp c p (fileclose f)
      (fun _ v' => v' = (v.closeFile f).shut (v.file f).pipe (v.file f).writable) v := by
  refine vwp_op fun _ => ⟨fun h0 => by omega, fun h2 => by omega, fun _ => ?_⟩
  exact vwp_ite (fun _ => vwp_call fun _ => rfl) fun h => absurd ht h

/-- The entries of the file table that hold the two ends of a new pipe. -/
structure Piped (v : View) (f0 f1 : Nat) (v' : View) : Prop where
  taken : Borrowed v {f0, f1} v'
  ne : f0 ≠ f1
  ends : ∃ x, v.pages = x :: v'.pages ∧ (v'.pipe x).readopen = true ∧
    (v'.pipe x).writeopen = true ∧
    v'.file f0 = { v.file f0 with
      ref := 1, type := .pipe, readable := true, writable := false, pipe := x } ∧
    v'.file f1 = { v.file f1 with
      ref := 1, type := .pipe, readable := false, writable := true, pipe := x }

/-- **`pipealloc`**: two open ends of a new pipe, or nothing. -/
theorem vwp_pipealloc (hT : Tables v D) : vwp c p pipealloc (fun r v' => match r with
      | none => Same v v' ∧ v'.slot = v.slot ∧ v'.trans = v.trans ∧ v'.room = v.room
      | some (f0, f1) => Piped v f0 f1 v') v := by
  refine vwp_op fun _ => ⟨fun _ => vwp_pure ⟨.refl, rfl, rfl, rfl⟩, fun f0 hf0 hr0 => ?_⟩
  have ht0 := hT.closed f0 hf0 hr0
  generalize hv1 : (v.onFile f0 fun x => { x with ref := 1 }) = v1
  have hself1 : v1.file f0 = { v.file f0 with ref := 1 } := by
    rw [← hv1]; exact update_self _ _ _
  have hother1 : ∀ g ≠ f0, v1.file g = v.file g := fun g hg => by
    rw [← hv1]; exact update_of_ne hg _ _
  have heq1 : v1 = { v with file := v1.file } := by rw [← hv1]; rfl
  refine vwp_op fun _ => ⟨fun _ => ?_, fun f1 hf1 hr1 => ?_⟩
  · -- no second entry
    refine vwp_seq (vwp_fileclose_fresh (f := f0) (by rw [hself1]) (by rw [hself1]; exact ht0)) ?_
    rintro _ _ _ rfl
    refine vwp_pure ⟨Borrowed.same (T := {f0}) ⟨?_, fun g hg => ?_, ?_⟩ hT ?_ ?_, ?_, ?_, ?_⟩
    · grind
    · have hne : g ≠ f0 := fun e => hg (Finset.mem_singleton.2 e)
      simp only [View.closeFile, View.onFile, update_of_ne hne, hother1 g hne]
    · rw [heq1]; rfl
    · intro f hf
      rw [Finset.mem_singleton.1 hf]
      simp [View.closeFile, View.onFile]
    all_goals rw [heq1]; rfl
  have hne : f0 ≠ f1 := fun e => by rw [← e, hself1] at hr1; cases hr1
  rw [hother1 f1 hne.symm] at hr1
  have ht1 := hT.closed f1 hf1 hr1
  generalize hv2 : (v1.onFile f1 fun x => { x with ref := 1 }) = v2
  have hself2 : v2.file f0 = { v.file f0 with ref := 1 } := by
    rw [← hv2, ← hself1]; exact update_of_ne hne _ _
  have hself2' : v2.file f1 = { v.file f1 with ref := 1 } := by
    rw [← hv2, ← hother1 f1 hne.symm]; exact update_self _ _ _
  have hother2 : ∀ g ∉ ({f0, f1} : Finset Nat), v2.file g = v.file g := fun g hg => by
    simp only [Finset.mem_insert, Finset.mem_singleton, not_or] at hg
    rw [← hother1 g hg.1, ← hv2]
    exact update_of_ne hg.2 _ _
  have heq2 : v2 = { v with file := v2.file } := by rw [← hv2, heq1]; rfl
  have hfree : ∀ f ∈ ({f0, f1} : Finset Nat), f < NFILE ∧ (v.file f).ref = 0 := fun f hf => by
    rcases Finset.mem_insert.1 hf with rfl | hf
    · exact ⟨hf0, hr0⟩
    · rw [Finset.mem_singleton.1 hf]; exact ⟨hf1, hr1⟩
  refine vwp_op fun _ => ⟨fun _ => ?_, fun x pages hx => ?_⟩
  · -- no page
    refine vwp_seq (vwp_fileclose_fresh (f := f0) (by rw [hself2]) (by rw [hself2]; exact ht0)) ?_
    rintro _ _ _ rfl
    have hself3 : (v2.closeFile f0).file f1 = { v.file f1 with ref := 1 } := by
      rw [← hself2']; exact update_of_ne hne.symm _ _
    refine vwp_seq (vwp_fileclose_fresh (f := f1) (by rw [hself3]) (by rw [hself3]; exact ht1)) ?_
    rintro _ _ _ rfl
    refine vwp_pure ⟨Borrowed.same ⟨hfree, fun g hg => ?_, ?_⟩ hT ?_ ?_, ?_, ?_, ?_⟩
    · rw [← hother2 g hg]
      simp only [Finset.mem_insert, Finset.mem_singleton, not_or] at hg
      simp only [View.closeFile, View.onFile, update_of_ne hg.1, update_of_ne hg.2]
    · rw [heq2]; rfl
    · intro f hf
      rcases Finset.mem_insert.1 hf with rfl | hf
      · simp [View.closeFile, View.onFile, update_of_ne hne]
      · rw [Finset.mem_singleton.1 hf]
        simp [View.closeFile, View.onFile]
    all_goals rw [heq2]; rfl
  · refine vwp_op fun _ => ?_
    refine vwp_op fun _ => ?_
    simp only [opSpec]
    refine vwp_pure ⟨⟨hfree, fun g hg => ?_, ?_⟩, hne, x, ?_, ?_, ?_, ?_, ?_⟩
    · rw [← hother2 g hg]
      simp only [Finset.mem_insert, Finset.mem_singleton, not_or] at hg
      simp only [View.onFile, update_of_ne hg.1, update_of_ne hg.2]
    · rw [heq2]; rfl
    · rw [heq2] at hx; exact hx
    · simp [View.onFile]
    · simp [View.onFile]
    · simp [View.onFile, update_of_ne hne, hself2]
    · simp [View.onFile, update_of_ne hne.symm, hself2']

/-- The ends of a pipe are closed again, and the page goes back. -/
theorem vwp_closeEnds {f0 f1 : Nat} {α : Type} {a : α} (h : Piped v f0 f1 v1) (hT : Tables v D) :
    vwp c p (do fileclose f0; fileclose f1; pure a) (fun r v' => r = a ∧ Same v v' ∧
      v'.slot = v.slot ∧ v'.trans = v.trans ∧ v'.room = v.room) v1 := by
  obtain ⟨x, hpages, hro, hwo, hfile0, hfile1⟩ := h.ends
  refine vwp_seq (vwp_fileclose_pipe (f := f0) (by rw [hfile0]) (by rw [hfile0])) ?_
  rintro _ _ _ rfl
  rw [hfile0]
  generalize hv2 : (v1.closeFile f0).shut x false = v2
  have hfile1' : v2.file f1 = v1.file f1 := by
    rw [← hv2]; exact update_of_ne h.ne.symm _ _
  refine vwp_seq (vwp_fileclose_pipe (f := f1) (by rw [hfile1', hfile1]) (by rw [hfile1', hfile1])) ?_
  rintro _ _ _ rfl
  rw [hfile1', hfile1]
  have heq := h.taken.eq
  have hslot : v1.slot = v.slot ∧ v1.trans = v.trans ∧ v1.room = v.room := by
    rw [heq]; exact ⟨rfl, rfl, rfl⟩
  have heq2 : v2.slot = v1.slot ∧ v2.trans = v1.trans ∧ v2.room = v1.room := by
    rw [← hv2]; exact ⟨rfl, rfl, rfl⟩
  refine vwp_pure ⟨rfl, Borrowed.same ⟨h.taken.free, fun g hg => ?_, ?_⟩ hT (fun g hg => ?_) ?_,
    heq2.1.trans hslot.1, heq2.2.1.trans hslot.2.1, heq2.2.2.trans hslot.2.2⟩
  · rw [← h.taken.other g hg, ← hv2]
    simp only [Finset.mem_insert, Finset.mem_singleton, not_or] at hg
    simp [View.closeFile, View.shut, View.setPipe, View.onFile, update_of_ne hg.1,
      update_of_ne hg.2]
  · rw [← hv2, heq]; rfl
  · rw [← hv2]
    rcases Finset.mem_insert.1 hg with rfl | hg
    · simp [View.closeFile, View.shut, View.setPipe, View.onFile, update_of_ne h.ne]
    · rw [Finset.mem_singleton.1 hg]
      simp [View.closeFile, View.shut, View.setPipe, View.onFile]
  · rw [hpages, ← hv2]
    simp [View.closeFile, View.shut, View.setPipe, View.onFile, Pipe.shut, hwo]

/-- **`sys_pipe`** opens two descriptors or changes nothing. -/
theorem vwp_sys_pipe (hT : Tables v D) (hx : v.proc p = some x) :
    vwp c p sys_pipe (fun r v' => r = none → Same v v' ∧ v'.slot = v.slot ∧ v'.trans = v.trans ∧
      v'.room = v.room) v := by
  refine vwp_seq (vwp_pipealloc hT) fun r v1 _ h1 => ?_
  rcases r with _ | ⟨f0, f1⟩
  · exact vwp_pure fun _ => h1
  have hx1 : v1.proc p = some x := by rw [h1.taken.eq]; exact hx
  refine vwp_seq (vwp_fdalloc hx1) fun r v2 _ h2 => ?_
  cases r with
  | none =>
    obtain rfl := h2
    exact vwp_mono (vwp_closeEnds h1 hT) fun r v' _ h' _ => h'.2
  | some fd0 =>
  obtain ⟨hv2, hnone⟩ := h2
  have hx2 : v2.proc p = some { x with ofile := update x.ofile fd0 (some f0) } := by
    rw [hv2]; simp [View.onProc, hx1]
  refine vwp_seq (vwp_fdalloc hx2) fun r v3 _ h3 => ?_
  cases r with
  | none =>
    obtain rfl := h3
    refine vwp_op fun _ => ?_
    simp only [opSpec]
    have hback : (v3.onProc p fun x => { x with ofile := update x.ofile fd0 none }) = v1 := by
      have hof : update x.ofile fd0 none = x.ofile := by
        rw [← hnone, update_eq_self]
      rw [hv2]
      simp only [View.onProc, update_self, hx1, Option.map_some, update_idem, hof]
      rw [← hx1, update_eq_self]
    rw [hback]
    exact vwp_mono (vwp_closeEnds h1 hT) fun r v' _ h' _ => h'.2
  | some fd1 => exact vwp_pure fun h => by cases h

end

end Dixv6.Sys
