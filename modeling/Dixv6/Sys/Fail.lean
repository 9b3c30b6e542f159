import Dixv6.Fs.ByteFile
import Dixv6.Sys.Links

/-!
# Calls that fail

`FsCall` is a call of `open`, `link`, `unlink`, `mkdir`, `mknod` or `pipe`. **A call that returns
`-1` has changed nothing** (`failed_unchanged`): no file, no directory entry, no link count, no bit
of the bitmap, no process and no reference count. The one exception is `open` with `O_CREATE` of a
new name when there is no free entry of the file table or no free descriptor: it fails after the
file has been made (`open_fails_late`).
-/

namespace Dixv6.Sys

open Lib Fs

/-- A call of one of the system calls that work on names, or of `pipe`. -/
inductive FsCall where
  | open (path : Path) (omode : UInt32)
  | link (old new : Path)
  | unlink (path : Path)
  | mkdir (path : Path)
  | mknod (path : Path) (major minor : Int16)
  | pipe

/-- The call, and whether it returns something else than `-1`. -/
def FsCall.run : FsCall → P Bool
  | .open path omode => do
    let r ← sys_open path omode
    pure r.isSome
  | .link old new => sys_link old new
  | .unlink path => sys_unlink path
  | .mkdir path => sys_mkdir path
  | .mknod path major minor => sys_mknod path major minor
  | .pipe => do
    let r ← sys_pipe
    pure r.isSome

/-- What the kernel looks like between calls. -/
def Kernel.view (g : Geo) (k : Kernel) : View where
  files := fileOf g k.fs.disk
  free := free g g.logstart k.fs.disk
  bits := used g k.fs.disk
  slot i := slotOf (k.fs.inode i)
  trans := k.fs.log.busy
  room := none
  file := k.file
  proc := k.proc
  pipe := k.pipe
  pages := k.pages

/-- The kernel is in order and no call is running: the disk is well formed, the inode cache agrees
with it, and all reference counts are those of the tables. -/
structure Quiet (g : Geo) (k : Kernel) : Prop where
  rep : Rep ⟨g, fun _ => True, False⟩ k (k.view g)
  idle : Idle (k.view g)

/-- Files, bitmap, processes and reference counts are the same. -/
structure Unchanged (g : Geo) (k k' : Kernel) : Prop where
  files : ∀ m, fileOf g k'.fs.disk m = fileOf g k.fs.disk m
  bitmap : ∀ b < g.size, used g k'.fs.disk b = used g k.fs.disk b
  proc : k'.proc = k.proc
  file : ∀ f, (k'.file f).ref = (k.file f).ref
  inode : ∀ i, (k'.fs.inode i).ref = (k.fs.inode i).ref

/-- The call would make a file that it cannot open: there is no file of that name, but a directory
for it, and no free entry of the file table or no free descriptor. -/
def FsCall.Stuck (call : FsCall) (g : Geo) (p : Nat) (x : Proc) (k : Kernel) : Prop :=
  match call with
  | .open path omode => (k.view g).Stuck p x path omode
  | _ => False

section
variable {c : Terms} {g : Geo} {p : Nat} {x : Proc} {k k' : Kernel} {v v' : View}

/-- The number of references of a cache entry. -/
theorem Rep.refs (h : Rep c k v) (i : Nat) : (k.fs.inode i).ref = v.refs i := by
  rw [View.refs, ← h.slot]
  unfold slotOf
  split
  · next h0 => rw [h0]; rfl
  · rfl

/-- Views that are the same are views of kernels that are. -/
theorem Same.unchanged (h : Same v v') (hk : Rep c k v) (hk' : Rep c k' v') (hi : Idle v)
    (hi' : Idle v') : Unchanged c.g k k' := by
  refine ⟨fun m => ?_, fun b hb => ?_, ?_, fun f => ?_, fun i => ?_⟩
  · rw [hk'.files, hk.files, h.files]
  · rw [hk'.bits b hb, hk.bits b hb, h.bits]
  · rw [hk'.proc, hk.proc, h.proc]
  · rw [hk'.file, hk.file, h.ref]
  · rw [hk'.refs, hk.refs, hi'.calm.refs, hi.calm.refs, h.held]

/-- Where an inode has been made, something has changed. -/
theorem not_unchanged {m : Nat} (h : fileOf g k.fs.disk m = none)
    (h' : fileOf g k'.fs.disk m ≠ none) : ¬ Unchanged g k k' := fun hu => h' (by rw [hu.files, h])

end

/-- The result of a call, as `FsCall.run` reports it. -/
theorem run_map {α β : Type} {p : Nat} {m : P α} {f : α → β} {b : β} {k k' : Kernel}
    (h : (do let r ← m; pure (f r) : P β).run (exec p) k = .ok (b, k')) :
    ∃ a, m.run (exec p) k = .ok (a, k') ∧ f a = b := by
  have hm : wp (m.run (exec p)) (fun a s => m.run (exec p) k = .ok (a, s)) (fun _ => True) k :=
    wp_intro (fun _ _ h => h) fun _ _ => trivial
  have hall : wp ((do let r ← m; pure (f r) : P β).run (exec p))
      (fun b s => ∃ a, m.run (exec p) k = .ok (a, s) ∧ f a = b) (fun _ => True) k :=
    Prog.wp_run_seq hm fun a s' ha => ⟨a, ha, rfl⟩
  exact wp_ok hall h

/-- **A call that returns `-1` has changed nothing, but for `open` of a new file when there is no
free file or descriptor.** -/
theorem failed_unchanged {g : Geo} {p : Nat} {x : Proc} {k k' : Kernel} (hq : Quiet g k)
    (hp : p < NPROC) (hx : k.proc p = some x) (call : FsCall)
    (hrun : call.run.run (exec p) k = .ok (false, k')) :
    Unchanged g k k' ↔ ¬ call.Stuck g p x k := by
  have hall : ∀ e, (⟨g, fun _ => True, False⟩ : Terms).E e := fun _ => trivial
  have hsame : ∀ v', Idle v' ∧ Same (k.view g) v' → Rep ⟨g, fun _ => True, False⟩ k' v' →
      Unchanged g k k' := fun v' h hr => h.2.unchanged hq.rep hr hq.idle h.1
  have hproc : (k.view g).proc p ≠ none := by
    show k.proc p ≠ none
    rw [hx]; simp
  -- the calls that cannot fail once they have changed something
  have hkeep : ∀ {m : P Bool}, m.run (exec p) k = .ok (false, k') →
      vwpOr ⟨g, fun _ => True, False⟩ p (fun r _ => r = true) m
        (fun r v' => r = false → Idle v' ∧ Same (k.view g) v') (k.view g) → Unchanged g k k' := by
    intro m hm hspec
    rcases wp_ok (hq.rep.runOr hspec) hm with ⟨v', hv', hr⟩ | h
    · exact hsame v' (hv' rfl) hr
    · cases h
  rcases call with ⟨path, omode⟩ | ⟨old, new⟩ | path | path | ⟨path, major, minor⟩ | _
  · obtain ⟨r, hrun, hr⟩ := run_map hrun
    obtain rfl : r = none := by simpa using hr
    rcases wp_ok (hq.rep.runOr (vwpOr_sys_open hall hq.idle hp hx)) hrun with ⟨v', hv', hrep⟩ | h
    · exact iff_of_true (hsame v' (hv' rfl).2 hrep) (hv' rfl).1
    · obtain ⟨hs, m, hm, hm'⟩ := h rfl
      exact iff_of_false (not_unchanged hm (by rw [Ne, fileOf_eq_none]; exact hm')) (not_not.2 hs)
  · exact iff_of_true (hkeep hrun (vwpOr_sys_link hall hq.idle hp hx)) id
  · exact iff_of_true (hkeep hrun (vwpOr_sys_unlink hall hq.idle hp hx)) id
  · exact iff_of_true (hkeep hrun (vwpOr_makeNode hall hq.idle hp hproc (by decide) (by decide))) id
  · exact iff_of_true (hkeep hrun (vwpOr_makeNode hall hq.idle hp hproc (by decide) (by decide))) id
  · obtain ⟨r, hrun, hr⟩ := run_map hrun
    obtain rfl : r = none := by simpa using hr
    have hi := hq.idle
    obtain ⟨v', h', hrep⟩ := wp_ok (hq.rep.run (vwp_sys_pipe hi.tables hx)) hrun
    obtain ⟨hs, hslot, htr, hroom⟩ := h' rfl
    exact iff_of_true (hsame v' ⟨⟨hi.calm.of_held hslot hs.files fun i => by rw [hs.held],
      hs.tables hi.tables, htr.trans hi.trans, hroom.trans hi.room⟩, hs⟩ hrep) id

/-! ## A disk with nothing but the root directory -/

section Tiny

/-- The root directory, with its two entries in block 5. -/
def rootInode : Dinode :=
  { Dinode.zero with type := T_DIR, nlink := 1, size := 32, addrs := fun k => if k = 0 then 5 else 0 }

/-- The disk; the blocks below 6 are marked used. -/
def tinyDisk : Nat → Block := fun b =>
  if b = 1 then putSb zeroBlock demoGeo.toSuperblock
  else if b = 2 then putDinode zeroBlock ROOTINO rootInode
  else if b = 4 then fun i => if i = 0 then 63 else 0
  else if b = 5 then fun i =>
    if i < DESIZE then putDirent ROOTINO dot i
    else if i < 2 * DESIZE then putDirent ROOTINO dotdot (i - DESIZE) else 0
  else zeroBlock

/-- The root directory is cached and referred to `ref` times. -/
def tiny (ref : Nat) (file : Nat → File) (proc : Nat → Option Proc) : Kernel where
  fs := {
    disk := tinyDisk
    log := { start := 54, size := 10, busy := false, lh := [] }
    inode := fun i => if i = 0 then
      { inum := ROOTINO, ref, busy := false, valid := true, d := rootInode }
      else { inum := 0, ref := 0, busy := false, valid := false, d := Dinode.zero }
    devsw := fun _ => { read := none, write := none } }
  file := file
  proc := proc
  killed _ := false
  pipe _ := { data := fun _ => 0, nread := 0, nwrite := 0, readopen := false, writeopen := false }
  pages := []

/-- The inodes of the disk. -/
theorem tiny_table (i : Nat) :
    table demoGeo tinyDisk i = if i = ROOTINO then rootInode else Dinode.zero := by
  have hall : ∀ i < demoGeo.ninodes,
      (dinodeAt tinyDisk i).type = (if i = ROOTINO then rootInode else Dinode.zero).type ∧
      (dinodeAt tinyDisk i).major = (if i = ROOTINO then rootInode else Dinode.zero).major ∧
      (dinodeAt tinyDisk i).minor = (if i = ROOTINO then rootInode else Dinode.zero).minor ∧
      (dinodeAt tinyDisk i).nlink = (if i = ROOTINO then rootInode else Dinode.zero).nlink ∧
      (dinodeAt tinyDisk i).size = (if i = ROOTINO then rootInode else Dinode.zero).size ∧
      ∀ k, (dinodeAt tinyDisk i).addrs k = (if i = ROOTINO then rootInode else Dinode.zero).addrs k := by
    decide +kernel
  unfold table
  split
  · next h =>
    obtain ⟨h1, h2, h3, h4, h5, h6⟩ := hall i h
    exact Dinode.ext h1 h2 h3 h4 h5 (funext h6)
  · next h =>
    rw [if_neg]
    rintro rfl
    exact h (by decide)

/-- The one block in use. -/
theorem tiny_node (x : Nat × Fin (NDIRECT + 2)) (π : List Nat) :
    node demoGeo (table demoGeo tinyDisk) tinyDisk x π =
      if x = (ROOTINO, 0) ∧ π = [] then some 5 else none := by
  have hroot : root demoGeo (table demoGeo tinyDisk) x =
      if x = (ROOTINO, 0) then some 5 else none := by
    obtain ⟨i, k⟩ := x
    simp only [root, tiny_table, Prod.mk.injEq]
    by_cases hi : i = ROOTINO
    · subst hi
      by_cases hk : k = 0
      · subst hk; decide
      · simp [hk, rootInode]
    · simp [hi, Dinode.zero]
  by_cases hx : x = (ROOTINO, 0)
  · subst hx
    cases π with
    | nil => rw [if_pos ⟨rfl, rfl⟩]; exact hroot
    | cons j π =>
      rw [if_neg (by simp)]
      by_contra hne
      obtain ⟨b, hb⟩ := Option.ne_none_iff_exists'.1 hne
      obtain ⟨a, -, he⟩ := Shape.node_parent hb
      simp [shape, level] at he
  · rw [if_neg fun h => hx h.1]
    exact Shape.node_none_of_root (by rw [hroot, if_neg hx]) π

theorem tiny_disk {X : Prop} : DiskInv demoGeo X tinyDisk := by
  have hnode : ∀ x π b, node demoGeo (table demoGeo tinyDisk) tinyDisk x π = some b →
      x = (ROOTINO, 0) ∧ π = [] ∧ b = 5 := fun x π b h => by
    rw [tiny_node] at h
    split at h
    · next hx => exact ⟨hx.1, hx.2, (Option.some.inj h).symm⟩
    · cases h
  refine ⟨by decide +kernel, ⟨fun x π x' π' b h h' => ?_, fun x π b h => ?_, by decide +kernel⟩,
    fun i ht bn hbn => ?_, fun _ b hb hu hd => ?_⟩
  · grind
  · obtain ⟨-, -, rfl⟩ := hnode x π b h
    exact ⟨by decide, by decide, by decide +kernel⟩
  · rw [tiny_table] at ht hbn
    split at ht
    · next hi =>
      subst hi
      have h0 : bn = 0 := by
        have : bn * 512 < 32 := hbn
        omega
      rw [h0, tiny_node]
      decide
    · exact absurd rfl ht
  · have hall : ∀ b < demoGeo.size, used demoGeo tinyDisk b = true → demoGeo.dstart ≤ b → b = 5 := by
      decide +kernel
    obtain rfl := hall b hb hu hd
    exact ⟨(ROOTINO, 0), [], by rw [tiny_node, if_pos ⟨rfl, rfl⟩]⟩

/-- The root directory, as a file. -/
def tinyRoot : AFile where
  toLinks := links rootInode
  type := T_DIR
  size := 32
  byte := fileByte demoGeo (table demoGeo tinyDisk) tinyDisk ROOTINO
  block p := node demoGeo (table demoGeo tinyDisk) tinyDisk (ROOTINO, p.1) p.2

theorem tiny_file {m : Nat} {f : AFile} (h : fileOf demoGeo tinyDisk m = some f) :
    m = ROOTINO ∧ f = tinyRoot := by
  by_cases hm : m = ROOTINO
  · rw [fileOf, tiny_table, if_pos hm, if_neg (by decide), Option.some.injEq] at h
    subst hm
    exact ⟨rfl, h.symm⟩
  · rw [fileOf, tiny_table, if_neg hm, if_pos (by decide)] at h
    cases h

theorem tiny_rep {E : Stop → Prop} {X : Prop} {ref : Nat} {file : Nat → File}
    {proc : Nat → Option Proc} :
    Rep ⟨demoGeo, E, X⟩ (tiny ref file proc) ((tiny ref file proc).view demoGeo) := by
  have hslot : ∀ i, 0 < ((tiny ref file proc).fs.inode i).ref → i = 0 := fun i hi => by
    by_contra hne
    simp [tiny, hne] at hi
  refine ⟨tiny_disk, ⟨fun i hi => ?_, fun i hi _ => ?_, fun i hi hb => ?_,
      fun i j hi hj _ => ?_⟩, rfl, rfl, (fun b hb => by cases hb),
    .inr ⟨fun _ => ⟨rfl, rfl⟩, fun S hS => by cases hS⟩,
    fun _ => rfl, rfl, fun _ _ => rfl, fun _ => rfl, rfl, rfl, rfl, rfl, rfl, fun m f hf ht => ?_⟩
  · rw [hslot i hi]
    show 0 < NINODE ∧ ROOTINO < demoGeo.ninodes
    decide
  · rw [hslot i hi]
    show rootInode = table demoGeo tinyDisk ROOTINO ∧ rootInode.type ≠ 0
    rw [tiny_table]
    exact ⟨rfl, by decide⟩
  · rw [hslot i hi]; rfl
  · rw [hslot i hi, hslot j hj]
  · obtain ⟨rfl, rfl⟩ := tiny_file hf
    have hdirs : DESIZE ∣ tinyRoot.size ∧ ∀ j < tinyRoot.count,
        (tinyRoot.dirent j).inum < demoGeo.ninodes := by decide +kernel
    exact hdirs

/-- Process 0 has used up its descriptors, all for the root directory. -/
def crowded : Kernel :=
  tiny 2
    (fun f => if f = 0 then
      { type := .inode, ref := 16, readable := true, writable := false, pipe := 0, ip := 0, off := 0 }
      else { type := .none, ref := 0, readable := false, writable := false, pipe := 0, ip := 0, off := 0 })
    fun p => if p = 0 then some { cwd := 0, ofile := fun fd => if fd < NOFILE then some 0 else none }
      else none

theorem crowded_quiet : Quiet demoGeo crowded := by
  have hproc : ∀ p x, crowded.proc p = some x → p = 0 ∧
      x = { cwd := 0, ofile := fun fd => if fd < NOFILE then some 0 else none } := fun p x hx => by
    by_cases hp : p = 0
    · subst hp; exact ⟨rfl, (Option.some.inj hx).symm⟩
    · simp [crowded, tiny, hp] at hx
  have hslot : ∀ i sl, (crowded.view demoGeo).slot i = some sl → i = 0 ∧ sl = ⟨1, 2, false, true⟩ := by
    grind [Kernel.view, crowded, tiny, slotOf]
  refine ⟨tiny_rep, ⟨⟨fun i => ?_, fun i => ?_, fun m f hf hn => ?_⟩,
    ⟨by decide +kernel, fun f _ h0 => ?_, fun p x hx => ?_, fun p x fd f hx hf => ?_⟩, rfl, rfl⟩⟩
  · by_cases hi : i = 0
    · subst hi; decide +kernel
    · have hheld : (crowded.view demoGeo).held i = 0 := by
        refine Nat.add_eq_zero_iff.2 ⟨?_, ?_⟩
        · refine Finset.card_eq_zero.2 (Finset.filter_eq_empty_iff.2 fun p _ h => ?_)
          obtain ⟨x, hx, rfl⟩ := Option.map_eq_some_iff.1 h
          rw [(hproc p x hx).2] at hi
          exact hi rfl
        · refine Finset.card_eq_zero.2 (Finset.filter_eq_empty_iff.2 fun f _ h => ?_)
          by_cases hf : f = 0
          · subst hf; exact hi h.2.symm
          · have := h.1
            simp [Kernel.view, crowded, tiny, hf] at this
      rw [hheld]
      simp [View.refs, Kernel.view, crowded, tiny, hi, slotOf]
  · grind
  · obtain ⟨-, rfl⟩ := tiny_file hf
    exact absurd hn (by decide)
  · grind [Kernel.view, crowded, tiny]
  · rw [(hproc p x hx).1]; decide
  · rw [(hproc p x hx).2] at hf
    simp only at hf
    split at hf
    · next h => exact ⟨h, by rw [← Option.some.inj hf]; decide⟩
    · cases hf

/-- The theorem at the example: `unlink` of a file that is not there. -/
theorem failed_unchanged_crowded :
    ∃ k', (FsCall.unlink [97]).run.run (exec 0) crowded = .ok (false, k') ∧
      (Unchanged demoGeo crowded k' ↔ ¬ (FsCall.unlink [97]).Stuck demoGeo 0
        { cwd := 0, ofile := fun fd => if fd < NOFILE then some 0 else none } crowded) := by
  have hrun : (match (FsCall.unlink [97]).run.run (exec 0) crowded with
      | .ok (r, _) => r == false
      | .error _ => false) = true := by decide +kernel
  split at hrun
  · next r k' h =>
    obtain rfl : r = false := by simpa using hrun
    exact ⟨k', h, failed_unchanged crowded_quiet (by decide) rfl _ h⟩
  · cases hrun

/-- **`open` fails late.** Process 0 has no free descriptor and opens the new file `a` with
`O_CREATE`: the call returns `-1`, and the file is there. -/
theorem open_fails_late : Quiet demoGeo crowded ∧
    ∃ k', (FsCall.open [97] O_CREATE).run.run (exec 0) crowded = .ok (false, k') ∧
      fileOf demoGeo crowded.fs.disk 2 = none ∧ fileOf demoGeo k'.fs.disk 2 ≠ none ∧
      ¬ Unchanged demoGeo crowded k' := by
  have hrun : (match (FsCall.open [97] O_CREATE).run.run (exec 0) crowded with
      | .ok (r, k') => r == false && (table demoGeo k'.fs.disk 2).type != 0
      | .error _ => false) = true := by decide +kernel
  split at hrun
  · next r k' h =>
    simp only [Bool.and_eq_true, beq_iff_eq, bne_iff_ne, ne_eq] at hrun
    obtain ⟨rfl, ht⟩ := hrun
    have h0 : fileOf demoGeo crowded.fs.disk 2 = none := by
      rw [fileOf_eq_none]
      show (table demoGeo tinyDisk 2).type = 0
      rw [tiny_table]
      rfl
    have h1 : fileOf demoGeo k'.fs.disk 2 ≠ none := by rw [Ne, fileOf_eq_none]; exact ht
    exact ⟨crowded_quiet, k', h, h0, h1, not_unchanged h0 h1⟩
  · cases hrun

end Tiny

end Dixv6.Sys
