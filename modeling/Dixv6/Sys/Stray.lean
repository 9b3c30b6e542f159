import Dixv6.Sys.Rep

/-!
# Writes that run out of data blocks

A write for which too few blocks are free below the log makes `balloc` hand out blocks of the log
area, and from then on the kernel has no view. `vwpOr c p S m Q v` checks a program that may come
to such a write: **its outcome has a view with `Q`, or the kernel itself has `S`** (`Rep.runOr`).

What the kernel keeps after such a write is `Strayed`: the tables, the references to inodes, which
inodes are allocated and the link counts of the cached ones. The rules at the end of this file
follow it through the operations that a system call still performs.
-/

namespace Dixv6.Sys

open Lib Fs Function

/-- A program, on views as long as there is one: every view that it can lead to has `Q`, and so
has every kernel that it can lead to otherwise `S`. -/
def vwpOr (c : Terms) (p : Nat) {α : Type} (S : α → Kernel → Prop) :
    P α → (α → View → Prop) → View → Prop
  | .ret a, Q, v => Wf c.g v → Q a v
  | .op o next, Q, v => Wf c.g v → opSpec c p o (fun b v' => vwpOr c p S (next b) Q v') v ∨
      ∀ k, Rep c k v → wp ((Prog.op o next).run (exec p)) S c.E k

section
variable {c : Terms} {p : Nat} {α β : Type} {v : View} {k : Kernel} {S : α → Kernel → Prop}
  {Q : α → View → Prop}

/-- A program that keeps to its view. -/
theorem vwp.or {m : P α} (h : vwp c p m Q v) : vwpOr c p S m Q v := by
  induction m generalizing v with
  | ret a => exact h
  | op o next ih => exact fun hv => .inl (opSpec_mono (h hv) fun b v' hb => ih b hb)

/-- Whatever is to be shown of a program may assume a well-formed view. -/
theorem vwpOr_wf {m : P α} (h : Wf c.g v → vwpOr c p S m Q v) : vwpOr c p S m Q v := by
  cases m with
  | ret a => exact fun hv => h hv hv
  | op o next => exact fun hv => h hv hv

/-- The rule of consequence. -/
theorem vwpOr_mono {m : P α} {Q' : α → View → Prop} (h : vwpOr c p S m Q v)
    (hQ : ∀ a v', Wf c.g v' → Q a v' → Q' a v') : vwpOr c p S m Q' v := by
  induction m generalizing v with
  | ret a => exact fun hv => hQ a v hv (h hv)
  | op o next ih => exact fun hv => (h hv).imp (fun h => opSpec_mono h fun b v' hb => ih b hb) id

/-- A sequence is checked part by part; after the first part has strayed, on the kernel. -/
theorem vwpOr_bind {m : P β} {f : β → P α}
    (h : vwpOr c p (fun b k => wp ((f b).run (exec p)) S c.E k) m
      (fun b v' => vwpOr c p S (f b) Q v') v) : vwpOr c p S (m >>= f) Q v := by
  induction m generalizing v with
  | ret b => exact vwpOr_wf h
  | op o next ih =>
    refine fun hv => (h hv).imp (fun h => opSpec_mono h fun b v' hb => ih b hb) fun h k hk => ?_
    exact (Prog.wp_run_bind (Prog.op o next) f).2 (h k hk)

/-- A sequence whose first part keeps to the view. -/
theorem vwpOr_seq {m : P β} {f : β → P α} {R : β → View → Prop} (h : vwp c p m R v)
    (hf : ∀ b v', Wf c.g v' → R b v' → vwpOr c p S (f b) Q v') :
    vwpOr c p S (m >>= f) Q v := vwpOr_bind (vwp_mono h hf).or

/-- A sequence whose first part may stray. -/
theorem vwpOr_seqOr {m : P β} {f : β → P α} {R : β → View → Prop} {T : β → Kernel → Prop}
    (h : vwpOr c p T m R v) (hf : ∀ b v', Wf c.g v' → R b v' → vwpOr c p S (f b) Q v')
    (hS : ∀ b k, T b k → wp ((f b).run (exec p)) S c.E k) : vwpOr c p S (m >>= f) Q v := by
  induction m generalizing v with
  | ret b => exact vwpOr_wf fun hv => hf b v hv (h hv)
  | op o next ih =>
    refine fun hv => (h hv).imp (fun h => opSpec_mono h fun b v' hb => ih b hb) fun h k hk => ?_
    exact (Prog.wp_run_bind (Prog.op o next) f).2 (wp_post (h k hk) hS)

theorem vwpOr_pure {a : α} (h : Q a v) : vwpOr c p S (pure a) Q v :=
  fun _ => h

/-- One operation and what follows it, on the view. -/
theorem vwpOr_op {o : Op β} {f : β → P α}
    (h : Wf c.g v → opSpec c p o (fun b v' => vwpOr c p S (f b) Q v') v) :
    vwpOr c p S (call o >>= f) Q v := fun hv => .inl (h hv)

/-- A branch is checked on both sides. -/
theorem vwpOr_ite {d : Prop} [Decidable d] {m m' : P α} (ht : d → vwpOr c p S m Q v)
    (hf : ¬ d → vwpOr c p S m' Q v) : vwpOr c p S (if d then m else m') Q v := by
  split
  · exact ht ‹_›
  · exact hf ‹_›

/-- From an operation on, the outcome is followed on the kernel. -/
theorem vwpOr_stray {o : Op β} {next : β → P α}
    (h : ∀ k, Rep c k v → wp (exec p o) (fun b k' => wp ((next b).run (exec p)) S c.E k') c.E k) :
    vwpOr c p S (call o >>= next) Q v := fun _ => .inr fun k hk =>
  (Prog.wp_run_bind (call o) next).2 ((Prog.wp_run_lift o).2 (h k hk))

/-- What a program does before its end does not matter if every stop is allowed. -/
theorem wp_run_skip {m : P β} {f : β → P α} (hall : ∀ e, c.E e)
    (h : ∀ b k, wp ((f b).run (exec p)) S c.E k) : wp ((m >>= f).run (exec p)) S c.E k :=
  Prog.wp_run_seq (wp_mono wp_any (fun _ _ _ => trivial) fun e _ => hall e)
    fun b k (_ : True) => h b k

/-- **The kernel refines its view until it strays.** -/
theorem Rep.runOr {m : P α} (h : Rep c k v) (hm : vwpOr c p S m Q v) :
    wp (m.run (Sys.exec p)) (fun a k' => Leads c Q a k' ∨ S a k') c.E k := by
  induction m generalizing k v with
  | ret a => exact .inl ⟨v, hm h.wf, h⟩
  | op o next ih =>
    rcases hm h.wf with hs | hs
    · refine wp_seq (h.exec hs) ?_
      rintro b k' ⟨v', hv', hrep⟩
      exact ih b hrep hv'
    · exact wp_post (hs k h) fun _ _ hS => .inr hS

end

/-! ## What a kernel without a view keeps -/

/-- The kernel after a write that ran out of data blocks in a kernel that looked like `v`. -/
structure Strayed (c : Terms) (v : View) (k : Kernel) : Prop where
  file : k.file = v.file
  proc : k.proc = v.proc
  start : k.fs.log.start = c.g.logstart
  slot : ∀ i, slotOf (k.fs.inode i) = v.slot i
  nlink : ∀ i sl f, v.slot i = some sl → sl.valid = true → v.files sl.inum = some f →
    (k.fs.inode i).d.nlink = f.nlink
  type : ∀ m, v.files m ≠ none → (table c.g k.fs.disk m).type ≠ 0

section
variable {c : Terms} {p i m : Nat} {k : Kernel} {v : View} {sl : Slot} {f : AFile}

/-- A kernel that has a view. -/
theorem Rep.strayed (h : Rep c k v) : Strayed c v k where
  file := h.file
  proc := h.proc
  start := h.start
  slot := h.slot
  nlink i sl f hs hv hf := by
    obtain ⟨f', hf', hd, -⟩ := h.cached hs hv
    have hlinks := (fileOf_eq_some ((h.files _).trans hf)).2.2.1
    rw [hd]
    exact (congrArg Links.nlink hlinks).symm
  type m hm h0 := hm ((h.files m).symm.trans (fileOf_eq_none.2 h0))

/-- **A write that may use the log area** leaves the other inodes and all references alone. -/
theorem Rep.stray {src : Bytes} {off n : UInt32} (h : Rep c k v) (hl : v.Locked i sl f)
    (hdev : f.type ≠ T_DEV) (hE : c.E .outOfBlocks) (hE' : c.E .tooBig) (ht : v.trans = true) :
    wp (Sys.exec p (.writei i src off n)) (fun r k' => Strayed c v k' ∧
      (¬ Refused f.size off.toNat n.toNat → r = some n.toNat)) c.E k := by
  obtain ⟨hpos, hinum, hd, htype, hftype, -, hsize⟩ := h.locked hl
  obtain ⟨hctx, -⟩ := h.ctx hl.slot ((h.wf.slot i sl hl.slot).2.2.1 hl.busy)
  obtain ⟨hwhole, -, -⟩ := h.blockAt hl
  simp only [Sys.exec, wp_onFs]
  refine wp_post (writei_spec (S := ∅) (x := 0) hctx.wholeDisk (by rw [hftype]; exact hdev) hwhole
    hsize fun _ => ⟨⟨.inr (h.trans.trans ht), .inl hE'⟩, .inl ⟨rfl, hE, hE'⟩, .inl hE'⟩)
    fun r s' hw => ?_
  split at hw
  · obtain ⟨rfl, rfl⟩ := hw
    exact ⟨h.strayed, fun hr => absurd ‹_› hr⟩
  obtain ⟨rfl, hw⟩ := hw
  obtain ⟨a, hself⟩ := hw.self
  have hslot := h.strayed.slot
  have hnlink := h.strayed.nlink
  refine ⟨⟨h.file, h.proc, hw.log.start.trans h.start, fun j => ?_, fun j sl' f' hs hv hf => ?_,
    fun m' hm' => ?_⟩, fun _ => rfl⟩
  · by_cases hj : j = i
    · subst hj; rw [hself]; exact hslot j
    · rw [hw.inode j hj]; exact hslot j
  · by_cases hj : j = i
    · subst hj; rw [hself]; exact hnlink j sl' f' hs hv hf
    · rw [hw.inode j hj]; exact hnlink j sl' f' hs hv hf
  · by_cases hm : m' = (k.fs.inode i).inum
    · subst hm
      rw [hw.sync (by rw [hinum, hd]), hself]
      exact htype
    · rw [hw.table m' hm]
      exact h.strayed.type m' hm'

/-- A change of one cache entry that keeps its inode. -/
theorem Strayed.setInode (h : Strayed c v k) {u : Inode → Inode} {sl' : Option Slot}
    (hu : slotOf (u (k.fs.inode i)) = sl') (hd : (u (k.fs.inode i)).d = (k.fs.inode i).d)
    (hn : ∀ sl1, sl' = some sl1 → ∃ sl, v.slot i = some sl ∧ sl.inum = sl1.inum ∧
      sl.valid = sl1.valid) : Strayed c (v.setSlot i sl')
      { k with fs := { k.fs with inode := update k.fs.inode i (u (k.fs.inode i)) } } := by
  refine ⟨h.file, h.proc, h.start, fun j => ?_, fun j sl1 f hs hv hf => ?_, h.type⟩
  · by_cases hj : j = i
    · subst hj; simpa [View.setSlot] using hu
    · simpa [View.setSlot, update_of_ne hj] using h.slot j
  · by_cases hj : j = i
    · subst hj
      obtain ⟨sl, h1, h2, h3⟩ := hn sl1 (by simpa [View.setSlot] using hs)
      have := h.nlink j sl f h1 (h3.trans hv) (by rw [h2]; exact hf)
      simpa [hd] using this
    · simp only [View.setSlot, update_of_ne hj] at hs ⊢
      exact h.nlink j sl1 f hs hv hf

theorem Strayed.iunlock (h : Strayed c v k) (hs : v.slot i = some sl) (hb : sl.busy = true) :
    wp (exec p (.iunlock i))
      (fun _ k' => Strayed c (v.setSlot i (some { sl with busy := false })) k') c.E k := by
  obtain ⟨h1, h2, h3, h4, h5⟩ := slotOf_eq_some.1 ((h.slot i).trans hs)
  simp only [exec, wp_onFs, Fs.iunlock, Fs.setInode, wp_bind, wp_gets, wp_stopIf, wp_modify]
  refine ⟨fun hstop => ?_, fun _ => h.setInode (u := fun ip => { ip with busy := false })
    (slotOf_eq_some.2 ⟨h1, h2, h3, rfl, h5⟩) rfl fun sl1 hsl => ⟨sl, hs, ?_, ?_⟩⟩
  · grind
  all_goals
    obtain rfl := Option.some.inj hsl
    rfl

theorem Strayed.iput (h : Strayed c v k) (hs : v.slot i = some sl)
    (hv : sl.valid = true → v.files sl.inum ≠ none) (hd : ∀ f, ¬ v.Dying sl f) :
    wp (exec p (.iput i)) (fun _ k' => Strayed c (v.setSlot i sl.drop) k') c.E k := by
  obtain ⟨h1, h2, h3, h4, h5⟩ := slotOf_eq_some.1 ((h.slot i).trans hs)
  simp only [exec, wp_onFs, Fs.iput, wp_bind, wp_gets]
  refine wp_ite (fun hc => ?_) fun _ => ?_
  · obtain ⟨hr, hvalid, hn⟩ := hc
    rw [h5] at hvalid
    obtain ⟨f, hf⟩ := Option.ne_none_iff_exists'.1 (hv hvalid)
    rw [h.nlink i sl f hs hvalid hf] at hn
    exact absurd ⟨h3 ▸ hr, hvalid, hf, hn⟩ (hd f)
  · refine h.setInode (u := fun ip => { ip with ref := ip.ref - 1 }) ?_ rfl fun sl1 hsl => ⟨sl, hs, ?_⟩
    · rw [Slot.drop]
      split
      · exact slotOf_eq_none.2 (by simp only; omega)
      · exact slotOf_eq_some.2 ⟨by simp only; omega, h2, by simp only; omega, h4, h5⟩
    · rw [Slot.drop] at hsl
      split at hsl
      · cases hsl
      · grind

theorem Strayed.commit_trans (h : Strayed c v k) (hE : c.E .sleep) :
    wp (exec p .commit_trans) (fun _ k' => Strayed c v k') c.E k := by
  simp only [exec, wp_onFs]
  refine wp_post (commit_trans_spec (.inl hE)) ?_
  rintro _ s' ⟨hd, hi, -, hl⟩
  have hlt := c.g.dstart_lt
  have htab : table c.g s'.disk = table c.g k.fs.disk := table_congr fun b hb => hd b (by
    have := c.g.front_lt hb
    rw [h.start]
    omega)
  refine ⟨h.file, h.proc, by rw [hl]; exact h.start, by rw [hi]; exact h.slot, by rw [hi]; exact h.nlink,
    by rw [htab]; exact h.type⟩

end

end Dixv6.Sys
