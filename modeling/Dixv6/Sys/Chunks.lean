import Dixv6.Fs.Refs
import Dixv6.Sys.Shared

/-!
# Writes in pieces

`filewrite` cuts a request into pieces of at most `writeMax` bytes, each of them a transaction of its
own, and stops at the first that `writei` refuses. `WholeWrite` says what one `writei` of all the bytes
would do: all of them are written and the offset moves behind them, or, if the file would get too
large, nothing happens at all. **`filewrite_whole`** gives the condition: the pieces before the one
that is refused have been written, so it has to be the first.

The first half is proved on views. For the second no view is needed: `kind` is what `writei` leaves
alone of a cached inode even on a full disk, and `moves_filewriteFrom` says that the offset never moves
back.
-/

namespace Dixv6.Sys

open Lib Fs Function

/-! ## What is meant -/

/-- The file `f` is open for writing on the regular file `a` with inode `m`, at an offset up to its
end, and nobody works on it. -/
structure OpenAt (v : View) (f m : Nat) (a : AFile) : Prop where
  type : (v.file f).type = .inode
  writable : (v.file f).writable = true
  slot : ∃ sl, v.slot (v.file f).ip = some sl ∧ sl.inum = m ∧ sl.busy = false
  file : v.files m = some a
  regular : a.type = T_FILE
  off : (v.file f).off.toNat ≤ a.size
  trans : v.trans = false

/-- What `filewrite` of `n` bytes of `src` is meant to do by process `p`: what one `writei` of all of
them and a move of the offset would do. That a transaction does not fit the log, or that the disk is
full, is not held against it in the first half. -/
structure WholeWrite (g : Geo) (p f m : Nat) (src : Bytes) (n : Nat) (a : AFile) (k : Kernel) :
    Prop where
  done : (k.file f).off.toNat + n ≤ MAXFILE * BSIZE →
    (a.missing (span (k.file f).off.toNat n)).card ≤ (Fs.free g g.logstart k.fs.disk).card →
    wp ((filewrite f src n).run (exec p)) (fun b k' => b = true ∧
      k'.file = update k.file f
        { k.file f with off := (k.file f).off + UInt32.ofNat n } ∧
      (∃ block, fileOf g k'.fs.disk m = some { a.write src (k.file f).off.toNat n with block }) ∧
      ∀ i ≠ m, fileOf g k'.fs.disk i = fileOf g k.fs.disk i) (fun e => e = .tooBig) k
  refused : MAXFILE * BSIZE < (k.file f).off.toNat + n →
    ∃ k', (filewrite f src n).run (exec p) k = .ok (false, k') ∧ k'.file = k.file ∧
      ∀ i, fileOf g k'.fs.disk i = fileOf g k.fs.disk i

/-- All of the bytes fit into a file, or the first piece does not. -/
def WholeOk (off n : Nat) : Prop :=
  off + n ≤ MAXFILE * BSIZE ∨ MAXFILE * BSIZE < off + min n writeMax

/-! ## The offset moves forward -/

/-- What the functions under `writei` leave alone of a cached inode. -/
def kind (x : Inode) : Nat × Nat × Bool × Bool × Int16 := (x.inum, x.ref, x.busy, x.valid, x.d.type)

/-- The kinds of all cached inodes. -/
def kinds (s : Fs.State) : Nat → Nat × Nat × Bool × Bool × Int16 := fun i => kind (s.inode i)

theorem beside_kinds : Beside kinds fun _ => True where
  disk _ _ _ := rfl
  inode s i addrs size := by
    funext j
    by_cases hj : j = i
    · subst hj
      simp [kinds, kind]
    · simp [kinds, hj]
  stops _ _ := trivial

/-- The inode that `ilock` finds in the cache or reads from the disk. -/
def cur (s : Fs.State) (i : Nat) : Dinode :=
  if (s.inode i).valid then (s.inode i).d else dinodeAt s.disk (s.inode i).inum

section
variable {s : Fs.State} {i : Nat}

theorem ilock_cur : wp (Fs.ilock i) (fun _ s' => (s'.inode i).d = cur s i ∧
    (s'.inode i).valid = true) (fun _ => True) s := by
  simp only [Fs.ilock, wp_bind, wp_gets, wp_stopIf, setInode, wp_modify, readBlock]
  refine ⟨fun _ => trivial, fun _ => ⟨fun _ => trivial, fun _ => ?_⟩⟩
  cases hv : (s.inode i).valid with
  | true => simp [cur, hv]
  | false => simp [cur, hv, dinodeAt]

/-- **`writei` on any disk** writes all or refuses. -/
theorem writei_or_refused {src : Bytes} {off n : UInt32} (hdev : (s.inode i).d.type ≠ T_DEV) :
    wp (writei i src off n) (fun r _ =>
      (r = none ∧ Refused (s.inode i).d.size.toNat off.toNat n.toNat) ∨
        (r = some n.toNat ∧ ¬ Refused (s.inode i).d.size.toNat off.toNat n.toNat))
      (fun _ => True) s := by
  simp only [writei, wp_bind, wp_gets, if_neg hdev]
  refine wp_ite (fun h => ?_) fun h => wp_ite (fun h' => ?_) fun h' => ?_
  · rw [wraps_iff, gt_iff_lt, UInt32.lt_iff_toNat_lt] at h
    exact .inl ⟨rfl, h.imp id .inl⟩
  · rw [gt_iff_lt, UInt32.lt_iff_toNat_lt, toNat_add_of_not_wraps fun e => h (.inr e),
      UInt32.toNat_ofNat_of_lt' (by simp only [MAXFILE, BSIZE]; decide)] at h'
    exact .inl ⟨rfl, .inr (.inr h')⟩
  · rw [gt_iff_lt, UInt32.lt_iff_toNat_lt, toNat_add_of_not_wraps fun e => h (.inr e),
      UInt32.toNat_ofNat_of_lt' (by simp only [MAXFILE, BSIZE]; decide)] at h'
    rw [wraps_iff, gt_iff_lt, UInt32.lt_iff_toNat_lt, not_or] at h
    have hr : ¬ Refused (s.inode i).d.size.toNat off.toNat n.toNat := by
      rintro (h1 | h1 | h1)
      · exact h.1 h1
      · exact h.2 h1
      · exact h' h1
    rw [wp_bind]
    refine wp_post wp_any fun off' s1 _ => ?_
    refine wp_ite (fun _ => ?_) fun _ => .inr ⟨rfl, hr⟩
    rw [wp_bind]
    refine wp_post wp_any fun _ s2 _ => ?_
    rw [wp_bind]
    exact wp_post wp_any fun _ s3 _ => .inr ⟨rfl, hr⟩

end

section
variable {p f : Nat} {k : Kernel}

/-- One operation of a program. -/
theorem wp_run_call {β : Type} {o : Op β} {Q : β → Kernel → Prop} {E : Stop → Prop} :
    wp ((call o).run (exec p)) Q E k ↔ wp (exec p o) Q E k := Prog.wp_run_lift o

/-- The end of a piece: the offset is as it has been moved, and the inode is in the cache. -/
theorem moves_endChunk {r : Option Nat} {ip : Nat} (hv : (k.fs.inode ip).valid = true)
    (ht : (k.fs.inode ip).d.type ≠ T_DEV) :
    wp (Prog.run (exec p) (do call (.iunlock ip); call .commit_trans; pure r))
      (fun r' k' => r' = r ∧ k'.file = k.file ∧ (cur k'.fs ip).type ≠ T_DEV) (fun _ => True) k := by
  have hcur : ∀ s : Fs.State, kind (s.inode ip) = kind { k.fs.inode ip with busy := false } →
      (cur s ip).type ≠ T_DEV := by
    intro s hs
    simp only [kind, Prod.mk.injEq] at hs
    rw [cur, if_pos (hs.2.2.2.1.trans hv), hs.2.2.2.2]
    exact ht
  simp only [Prog.wp_run_bind, wp_run_call, Prog.wp_run_pure, exec, wp_onFs]
  simp only [Fs.iunlock, wp_bind, wp_gets, wp_stopIf, setInode, wp_modify]
  refine ⟨fun _ => trivial, fun _ => ?_⟩
  refine wp_post (beside_kinds.commit_trans _) fun _ s' hs => ⟨trivial, trivial, hcur s' ?_⟩
  have hk := congrFun hs ip
  simpa [kinds] using hk

/-- **One piece**: it is refused and nothing moves, or the offset moves behind it. -/
theorem moves_filewriteChunk {src : Bytes} {n1 : Nat} (hn : n1 < 2 ^ 32)
    (hdev : (cur k.fs (k.file f).ip).type ≠ T_DEV) :
    wp ((filewriteChunk f src n1).run (exec p)) (fun r k' => (k'.file f).ip = (k.file f).ip ∧
      (cur k'.fs (k.file f).ip).type ≠ T_DEV ∧
      ((r = none ∧ Refused (cur k.fs (k.file f).ip).size.toNat (k.file f).off.toNat n1 ∧
          (k'.file f).off = (k.file f).off) ∨
        (r = some n1 ∧ ¬ Refused (cur k.fs (k.file f).ip).size.toNat (k.file f).off.toNat n1 ∧
          (k'.file f).off.toNat = (k.file f).off.toNat + n1))) (fun _ => True) k := by
  generalize hip : (k.file f).ip = ip at *
  have hlen : (UInt32.ofNat n1).toNat = n1 := UInt32.toNat_ofNat_of_lt' hn
  simp only [filewriteChunk, Prog.wp_run_bind, wp_run_call, exec, wp_onFs, wp_gets, hip]
  simp only [Fs.begin_trans, wp_bind, wp_gets, wp_stopIf, wp_modify]
  refine ⟨fun _ => trivial, fun _ => ?_⟩
  refine wp_post ilock_cur fun _ s1 h1 => ?_
  have hcur : (s1.inode ip).d = cur k.fs ip := h1.1
  have hdev1 : (s1.inode ip).d.type ≠ T_DEV := by rw [hcur]; exact hdev
  refine wp_post (wp_and (writei_or_refused hdev1) (beside_kinds.writei ip _ _ _ s1)) ?_
  intro r s2 h2
  obtain ⟨hr, hk⟩ := h2
  rw [hcur, hlen] at hr
  have hkind := congrFun hk ip
  simp only [kinds, kind, Prod.mk.injEq] at hkind
  have hv2 : (s2.inode ip).valid = true := hkind.2.2.2.1.trans h1.2
  have ht2 : (s2.inode ip).d.type ≠ T_DEV := by rw [hkind.2.2.2.2]; exact hdev1
  rcases hr with ⟨rfl, href⟩ | ⟨rfl, href⟩
  · refine wp_post (moves_endChunk (k := { k with fs := s2 }) hv2 ht2) ?_
    rintro r' k' ⟨rfl, hfile, htype⟩
    exact ⟨by rw [hfile]; exact hip, htype, .inl ⟨rfl, href, by rw [hfile]⟩⟩
  · have hoff : ((k.file f).off + UInt32.ofNat n1).toNat = (k.file f).off.toNat + n1 := by
      rw [UInt32.toNat_add, hlen]
      exact Nat.mod_eq_of_lt (Nat.lt_of_not_le fun h => href (.inr (.inl h)))
    by_cases h0 : 0 < n1
    · simp only [if_pos h0]
      rw [Prog.wp_run_bind, wp_run_call]
      show wp (Prog.run (exec p) (call (.setOff f _) >>= fun _ => _)) _ _ _
      rw [Prog.wp_run_bind, wp_run_call]
      simp only [exec, Sys.setFile, wp_modify]
      refine wp_post (moves_endChunk (k := { k with fs := s2, file := _ }) hv2 ht2) ?_
      rintro r' k' ⟨rfl, hfile, htype⟩
      have hself : k'.file f = { k.file f with off := (k.file f).off + UInt32.ofNat n1 } := by
        rw [hfile]
        exact update_self _ _ _
      exact ⟨by rw [hself]; exact hip, htype, .inr ⟨rfl, href, by rw [hself]; exact hoff⟩⟩
    · simp only [if_neg h0]
      refine wp_post (moves_endChunk (k := { k with fs := s2 }) hv2 ht2) ?_
      rintro r' k' ⟨rfl, hfile, htype⟩
      have hoff' : (k'.file f).off.toNat = (k.file f).off.toNat := by rw [hfile]
      exact ⟨by rw [hfile]; exact hip, htype, .inr ⟨rfl, href, by omega⟩⟩

/-- **The offset never moves back.** -/
theorem moves_filewriteFrom {src : Bytes} {n : Nat} (count : Nat) : ∀ (i : Nat) {k : Kernel},
    (cur k.fs (k.file f).ip).type ≠ T_DEV →
    wp ((filewriteFrom f src n count i).run (exec p)) (fun _ k' =>
      (k.file f).off.toNat ≤ (k'.file f).off.toNat) (fun _ => True) k := by
  induction count with
  | zero => exact fun i k _ => Nat.le_refl _
  | succ count ih =>
    intro i k hdev
    have hlt : min (n - i) writeMax < 2 ^ 32 :=
      Nat.lt_of_le_of_lt (Nat.min_le_right _ _) (by decide)
    simp only [filewriteFrom, Prog.wp_run_bind]
    refine wp_post (moves_filewriteChunk hlt hdev) ?_
    rintro r k1 ⟨hip, htype, ⟨rfl, -, hoff⟩ | ⟨rfl, -, hoff⟩⟩
    · exact (congrArg UInt32.toNat hoff).ge
    · simp only [ne_eq, not_true_eq_false, if_false]
      refine wp_post (ih _ (by rw [hip]; exact htype)) fun _ k2 h2 => ?_
      omega

end

/-! ## Pieces on views -/

/-- What a piece leaves behind: the file is `b`, and the offset is `off`. -/
structure Pieced (f m : Nat) (b : AFile) (off : UInt32) (v v' : View) : Prop where
  file : v'.file = update v.file f { v.file f with off := off }
  files : v'.files = update v.files m (some b)
  slot : ∃ sl, v'.slot (v.file f).ip = some sl ∧ sl.inum = m ∧ sl.busy = false
  trans : v'.trans = false

section
variable {c : Terms} {p f m : Nat} {v : View} {a : AFile} {src : Bytes}

/-- The end of a piece. -/
theorem vwp_endPiece {w : View} {ip : Nat} (sl : Slot) (off : UInt32) {r : Option Nat} {b : AFile}
    (hip : ip = (v.file f).ip) (hs : w.slot ip = some sl) (hm : sl.inum = m) (hb : sl.busy = true)
    (hfile : w.file = update v.file f { v.file f with off := off })
    (hfiles : w.files = update v.files m (some b)) :
    vwp c p (do call (.iunlock ip); call .commit_trans; pure r)
      (fun r' v' => r' = r ∧ v'.free = w.free ∧ Pieced f m b off v v') w := by
  refine vwp_op fun _ => ⟨sl, hs, hb, vwp_op fun _ => ?_⟩
  simp only [opSpec]
  refine vwp_pure ⟨rfl, rfl, hfile, hfiles, ?_, rfl⟩
  exact ⟨{ sl with busy := false }, by rw [hip]; exact update_self _ _ _, hm, rfl⟩

/-- **One piece, on views.** -/
theorem vwp_piece {n1 : Nat} (h : OpenAt v f m a) (hn : n1 < 2 ^ 32)
    (hlog : c.E .tooBig ∨ 1 < c.g.nlog ∧ Refused a.size (v.file f).off.toNat n1)
    (hfree : ¬ Refused a.size (v.file f).off.toNat n1 →
      (a.missing (span (v.file f).off.toNat n1)).card ≤ v.free.card) :
    vwp c p (filewriteChunk f src n1) (fun r v' =>
      if Refused a.size (v.file f).off.toNat n1 then r = none ∧ Pieced f m a (v.file f).off v v'
      else r = some n1 ∧ ∃ block, Taken a (span (v.file f).off.toNat n1) v.free block v'.free ∧
        Pieced f m { a.write src (v.file f).off.toNat n1 with block }
          ((v.file f).off + UInt32.ofNat n1) v v') v := by
  obtain ⟨sl, hs, hm, hb⟩ := h.slot
  have hlen : (UInt32.ofNat n1).toNat = n1 := UInt32.toNat_ofNat_of_lt' hn
  have hbusy : sl.busy = true → c.E .sleep := fun e => absurd (hb.symm.trans e) Bool.false_ne_true
  have htype : v.files sl.inum = none → c.E .ilockNoType := fun e => by
    rw [hm, h.file] at e
    cases e
  have hdev : a.type ≠ T_DEV := by rw [h.regular]; decide
  have hself : update v.file f (v.file f) = v.file := update_eq_self _ _
  refine vwp_op fun _ => vwp_op fun _ => ⟨h.trans, ∅, hlog.imp id fun h => ⟨by decide, ?_⟩, ?_⟩
  · simpa using h.1
  refine vwp_op fun _ => ⟨sl, hs, hbusy, htype, fun _ _ => vwp_op fun _ => ?_⟩
  generalize hw : View.setSlot _ _ _ = w
  let locked : Slot := { sl with busy := true, valid := true }
  have hslot : w.slot (v.file f).ip = some locked := by
    rw [← hw]
    exact update_self _ _ _
  have hfile : w.file = v.file := by rw [← hw]; rfl
  have hfiles : w.files = v.files := by rw [← hw]; rfl
  have hlock : w.Locked (v.file f).ip locked a :=
    ⟨hslot, rfl, by rw [hfiles]; exact (congrArg v.files hm).trans h.file⟩
  refine vwp_op fun _ => ⟨_, a, hlock, fun e => absurd e hdev, fun _ href => ?_, fun _ hnr => ?_⟩
  · refine vwp_mono (vwp_endPiece (v := v) (b := a) locked (v.file f).off rfl hslot hm rfl ?_ ?_) ?_
    · exact hfile.trans hself.symm
    · rw [hfiles, ← h.file]
      exact (update_eq_self _ _).symm
    · grind
  · rw [hlen, hfile] at hnr ⊢
    have hbig := hlog.resolve_right fun h => hnr h.2
    refine ⟨⟨by rw [← hw]; rfl, by rw [← hw]; exact hfree hnr, .inl hbig⟩, fun e => ?_,
      fun block F bits htaken => ?_⟩
    · exact absurd (h.regular.symm.trans e) (by decide)
    have htaken' : Taken a (span (v.file f).off.toNat n1) v.free block F := by
      rw [← hw] at htaken
      exact htaken
    generalize hw' : ({ (w.setFile _ _).log _ with free := F, bits } : View) = w'
    have hslot' : w'.slot = w.slot := by rw [← hw']; rfl
    have hfree' : w'.free = F := by rw [← hw']
    have hfile' : w'.file = v.file := by rw [← hw']; exact hfile
    have hfiles' : w'.files = update v.files m
        (some { a.write src (v.file f).off.toNat n1 with block }) := by
      rw [← hw', ← hfiles, ← hm]
      rfl
    have hend : ∀ {r v'}, r = some n1 ∧ v'.free = F ∧ Pieced f m
        { a.write src (v.file f).off.toNat n1 with block } ((v.file f).off + UInt32.ofNat n1) v v' →
        if Refused a.size (v.file f).off.toNat n1 then r = none ∧ Pieced f m a (v.file f).off v v'
        else r = some n1 ∧ ∃ block, Taken a (span (v.file f).off.toNat n1) v.free block v'.free ∧
          Pieced f m { a.write src (v.file f).off.toNat n1 with block }
            ((v.file f).off + UInt32.ofNat n1) v v' := by
      rintro r v' ⟨hr, hF, hp⟩
      rw [if_neg hnr]
      exact ⟨hr, block, hF ▸ htaken', hp⟩
    refine vwp_ite (fun _ => vwp_op fun _ => vwp_op fun _ => ?_) fun h0 => ?_
    · refine vwp_mono (vwp_endPiece (v := v) locked _ rfl ?_ hm rfl ?_ ?_) fun r v' _ hr =>
        hend ⟨hr.1, hr.2.1.trans hfree', hr.2.2⟩
      · exact (congrFun hslot' _).trans hslot
      · show update w'.file f _ = _
        rw [hfile']
      · exact hfiles'
    · obtain rfl : n1 = 0 := by omega
      refine vwp_mono (vwp_endPiece (v := v) locked _ rfl ?_ hm rfl ?_ ?_) fun r v' _ hr =>
        hend ⟨hr.1, hr.2.1.trans hfree', hr.2.2⟩
      · exact (congrFun hslot' _).trans hslot
      · rw [hfile', show (v.file f).off + UInt32.ofNat 0 = (v.file f).off by simp]
        exact hself.symm
      · exact hfiles'

/-- What a piece leaves is open again. -/
theorem Pieced.openAt {b : AFile} {off : UInt32} {v' : View} (h : Pieced f m b off v v')
    (ho : OpenAt v f m a) (hb : b.type = a.type) (hoff : off.toNat ≤ b.size) : OpenAt v' f m b := by
  have hf : v'.file f = { v.file f with off := off } := by rw [h.file, update_self]
  exact ⟨by rw [hf]; exact ho.type, by rw [hf]; exact ho.writable, by rw [hf]; exact h.slot,
    by rw [h.files, update_self], hb.trans ho.regular, by rw [hf]; exact hoff, h.trans⟩

theorem Pieced.trans' {b b' : AFile} {off off' : UInt32} {v1 v2 : View} (h : Pieced f m b off v v1)
    (h' : Pieced f m b' off' v1 v2) : Pieced f m b' off' v v2 := by
  have hf : v1.file f = { v.file f with off := off } := by rw [h.file, update_self]
  refine ⟨?_, by rw [h'.files, h.files, update_idem], ?_, h'.trans⟩
  · rw [h'.file, hf, h.file, update_idem]
  · have := h'.slot
    rwa [hf] at this

/-- Two writes one behind the other. -/
theorem AFile.write_write (a : AFile) (src : Bytes) (off n n' : Nat) (b b' : Pos → Option Nat) :
    ({ AFile.write { a.write src off n with block := b } (fun q => src (n + q)) (off + n) n' with
      block := b' } : AFile) = { a.write src off (n + n') with block := b' } := by
  simp only [AFile.write, AFile.mk.injEq, true_and, and_true]
  refine ⟨by omega, funext fun o => ?_⟩
  by_cases h1 : off + n ≤ o ∧ o < off + n + n'
  · grind
  · rw [if_neg h1]
    exact if_congr (by omega) rfl rfl

/-- **The pieces that fit**, from the `i`-th byte on. -/
theorem vwp_pieces {n : Nat} (hbig : c.E .tooBig) (count : Nat) : ∀ (i : Nat) {v : View} {a : AFile},
    OpenAt v f m a → i ≤ n → n - i ≤ count * writeMax →
    (v.file f).off.toNat + (n - i) ≤ MAXFILE * BSIZE →
    (a.missing (span (v.file f).off.toNat (n - i))).card ≤ v.free.card →
    vwp c p (filewriteFrom f src n count i) (fun r v' => r = true ∧ ∃ block,
      Pieced f m { a.write (fun q => src (i + q)) (v.file f).off.toNat (n - i) with block }
        ((v.file f).off + UInt32.ofNat (n - i)) v v') v := by
  induction count with
  | zero =>
    intro i v a h hi hcount _ _
    obtain rfl : i = n := by omega
    refine vwp_pure ⟨decide_eq_true rfl, a.block, ?_, ?_, h.slot, h.trans⟩
    · simp
    · have hoff := h.off
      have ha : ({ a.write (fun q => src (i + q)) (v.file f).off.toNat (i - i) with
          block := a.block } : AFile) = a := by
        cases a
        simp only [AFile.write, AFile.mk.injEq, true_and, and_true]
        exact ⟨by simp only at hoff; omega, funext fun o => if_neg (by omega)⟩
      rw [ha, ← h.file]
      exact (update_eq_self _ _).symm
  | succ count ih =>
    intro i v a h hi hcount hmax hfree
    simp only [filewriteFrom]
    generalize hn1 : min (n - i) writeMax = n1
    have hlt : n1 < 2 ^ 32 := by grind
    have hle : n1 ≤ n - i := by omega
    have hrest : n - (i + n1) ≤ count * writeMax := by
      rw [Nat.add_one_mul] at hcount
      omega
    have hmax' : MAXFILE * BSIZE < 2 ^ 32 := by simp only [MAXFILE, BSIZE]; decide
    have hnr : ¬ Refused a.size (v.file f).off.toNat n1 := by
      have hoff := h.off
      rintro (h1 | h1 | h1) <;> omega
    have hoff : ((v.file f).off + UInt32.ofNat n1).toNat = (v.file f).off.toNat + n1 := by
      rw [UInt32.toNat_add, UInt32.toNat_ofNat_of_lt' hlt]
      exact Nat.mod_eq_of_lt (by omega)
    have hcard : (a.missing (span (v.file f).off.toNat n1)).card ≤ v.free.card :=
      (Finset.card_le_card (Finset.filter_subset_filter _
        (span_subset (Nat.le_refl _) (by omega)))).trans hfree
    refine vwp_seq (vwp_piece h hlt (.inl hbig) fun _ => hcard) ?_
    intro r v1 _ hr
    rw [if_neg hnr] at hr
    obtain ⟨rfl, block, htaken, hp⟩ := hr
    simp only [ne_eq, not_true_eq_false, if_false]
    have hf : v1.file f = { v.file f with off := (v.file f).off + UInt32.ofNat n1 } := by
      rw [hp.file, update_self]
    have hopen := hp.openAt h rfl (by
      rw [hoff]
      exact Nat.le_max_right _ _)
    refine vwp_mono (ih (i + n1) hopen (by omega) hrest ?_ ?_) ?_
    · rw [hf, hoff]
      omega
    · rw [hf, hoff, ← Nat.sub_sub]
      exact missing_rest hle htaken rfl hfree
    · rintro r v2 - ⟨rfl, block', hp'⟩
      refine ⟨rfl, block', ?_⟩
      have hwhole := hp.trans' hp'
      simp only [hf, hoff, Nat.add_assoc i] at hwhole
      rw [AFile.write_write a (fun q => src (i + q)), UInt32.add_assoc, ← UInt32.ofNat_add,
        show n1 + (n - (i + n1)) = n - i by omega] at hwhole
      exact hwhole

/-- A write to an open file is the loop over the pieces. -/
theorem OpenAt.filewrite {k : Kernel} {n : Nat} (h : OpenAt v f m a) (hfile : k.file = v.file) :
    (filewrite f src n).run (exec p) k =
      (filewriteFrom f src n ((n + (writeMax - 1)) / writeMax) 0).run (exec p) k := by
  have ht : (k.file f).type = .inode := by rw [hfile]; exact h.type
  have hw : (k.file f).writable = true := by rw [hfile]; exact h.writable
  show (if ¬ (k.file f).writable then _ else _ : P Bool).run (exec p) k = _
  rw [if_neg (by rw [hw]; decide), if_neg (by rw [ht]; decide), if_neg (by rw [ht]; decide)]

/-- The inode of an open file, as `ilock` finds it. -/
theorem OpenAt.cur {k : Kernel} (h : OpenAt v f m a) (hrep : Rep c k v) :
    (cur k.fs (k.file f).ip).type = a.type ∧ (Sys.cur k.fs (k.file f).ip).size.toNat = a.size := by
  obtain ⟨sl, hs, hm, -⟩ := h.slot
  obtain ⟨-, hinum, -, -, hvalid⟩ := hrep.inode hs
  have hfile : fileOf c.g k.fs.disk sl.inum = some a := by rw [hm, hrep.files, h.file]
  have hlt := lt_of_fileOf hfile
  obtain ⟨-, htype, -, hsize, -⟩ := fileOf_eq_some hfile
  have hcur : Sys.cur k.fs (k.file f).ip = table c.g k.fs.disk sl.inum := by
    rw [Sys.cur, hrep.file]
    cases hv : sl.valid with
    | true => rw [hvalid, hv, if_pos rfl, (hrep.cached hs hv).choose_spec.2.1]
    | false => rw [hvalid, hv, if_neg Bool.false_ne_true, hinum, table, if_pos hlt]
  rw [hcur]
  exact ⟨htype.symm, hsize.symm⟩

end

/-! ## The condition -/

section
variable {g : Geo} {X : Prop} {k : Kernel} {v : View} {p f m n : Nat} {a : AFile} {src : Bytes}

/-- A view of the kernel is one on terms that allow a transaction to be too large. -/
theorem Rep.allow {E : Stop → Prop} (h : Rep ⟨g, E, X⟩ k v) : Rep ⟨g, (· = .tooBig), X⟩ k v :=
  { h with fits := .inl rfl }

/-- A file is no larger than its blocks. -/
theorem Rep.size_le {c : Terms} (h : Rep c k v) (hf : v.files m = some a) :
    a.size ≤ MAXFILE * BSIZE := by
  rw [← h.files] at hf
  obtain ⟨ht, -, -, hsize, -⟩ := fileOf_eq_some hf
  by_contra hlt
  exact Nat.lt_irrefl _ (lt_of_node (h.disk.whole m ht MAXFILE (by omega)))

/-- All bytes are written. -/
theorem wholeWrite_done (hrep : Rep ⟨g, fun _ => False, X⟩ k v) (h : OpenAt v f m a)
    (hmax : (k.file f).off.toNat + n ≤ MAXFILE * BSIZE)
    (hfree : (a.missing (span (k.file f).off.toNat n)).card ≤
      (Fs.free g g.logstart k.fs.disk).card) :
    wp ((filewrite f src n).run (exec p)) (fun b k' => b = true ∧
      k'.file = update k.file f
        { k.file f with off := (k.file f).off + UInt32.ofNat n } ∧
      (∃ block, fileOf g k'.fs.disk m = some { a.write src (k.file f).off.toNat n with block }) ∧
      ∀ i ≠ m, fileOf g k'.fs.disk i = fileOf g k.fs.disk i) (fun e => e = .tooBig) k := by
  have hfile := hrep.file
  rw [hfile] at hmax hfree ⊢
  rw [show Fs.free g g.logstart k.fs.disk = v.free from hrep.free] at hfree
  have hcount : n - 0 ≤ (n + (writeMax - 1)) / writeMax * writeMax := by
    lia
  rw [wp, h.filewrite hfile]
  refine wp_post (hrep.allow.run (vwp_pieces rfl _ 0 h (Nat.zero_le n) hcount hmax hfree)) ?_
  rintro r k' ⟨v', ⟨rfl, block, hp⟩, hrep'⟩
  simp only [Nat.zero_add, Nat.sub_zero] at hp
  have hfiles : ∀ i, fileOf g k'.fs.disk i = v'.files i := hrep'.files
  refine ⟨rfl, hrep'.file.trans hp.file, ⟨block, ?_⟩, fun i hi => ?_⟩
  · rw [hfiles, hp.files, update_self]
  · rw [hfiles, hp.files, update_of_ne hi]
    exact (hrep.files i).symm

/-- The first piece is refused. -/
theorem wholeWrite_refused (hrep : Rep ⟨g, fun _ => False, X⟩ k v) (hlog : 1 < g.nlog)
    (h : OpenAt v f m a) (hmax : MAXFILE * BSIZE < (k.file f).off.toNat + min n writeMax) :
    ∃ k', (filewrite f src n).run (exec p) k = .ok (false, k') ∧ k'.file = k.file ∧
      ∀ i, fileOf g k'.fs.disk i = fileOf g k.fs.disk i := by
  have hfile := hrep.file
  rw [hfile] at hmax
  have hoff := h.off.trans (hrep.size_le h.file)
  obtain ⟨count, hcount⟩ : ∃ count, (n + (writeMax - 1)) / writeMax = count + 1 := by
    refine ⟨(n + (writeMax - 1)) / writeMax - 1, ?_⟩
    lia
  have hlt : min n writeMax < 2 ^ 32 := Nat.lt_of_le_of_lt (Nat.min_le_right _ _) (by decide)
  have href : Refused a.size (v.file f).off.toNat (min n writeMax) := .inr (.inr hmax)
  have hall : vwp ⟨g, fun _ => False, X⟩ p (filewriteFrom f src n (count + 1) 0) (fun r v' =>
      r = false ∧ Pieced f m a (v.file f).off v v') v := by
    refine vwp_seq (vwp_piece h hlt (.inr ⟨hlog, href⟩) (absurd href)) fun r v' _ hr => ?_
    rw [Nat.sub_zero, if_pos href] at hr
    obtain ⟨rfl, hp⟩ := hr
    exact vwp_pure ⟨decide_eq_false (by omega), hp⟩
  obtain ⟨r, k', hrun, v', ⟨rfl, hp⟩, hrep'⟩ := wp_total (hrep.run hall)
  refine ⟨k', by rw [h.filewrite hfile, hcount, hrun], ?_, fun i => ?_⟩
  · rw [hrep'.file, hp.file, hfile]
    exact update_eq_self _ _
  · refine (hrep'.files i).trans ((congrFun hp.files i).trans ?_)
    rw [← h.file, update_eq_self]
    exact (hrep.files i).symm

/-- Pieces that have been written stay written. -/
theorem not_wholeWrite (hrep : Rep ⟨g, fun _ => False, X⟩ k v) (h : OpenAt v f m a)
    (hok : ¬ WholeOk (k.file f).off.toNat n) : ¬ WholeWrite g p f m src n a k := by
  intro hw
  rw [WholeOk, not_or, Nat.not_le, Nat.not_lt] at hok
  obtain ⟨k', hrun, hfile, -⟩ := hw.refused hok.1
  obtain ⟨htype, hsize⟩ := h.cur hrep
  have hdev : (cur k.fs (k.file f).ip).type ≠ T_DEV := by
    rw [htype, h.regular]
    decide
  have hlt : min n writeMax < 2 ^ 32 := Nat.lt_of_le_of_lt (Nat.min_le_right _ _) (by decide)
  have hnr : ¬ Refused (cur k.fs (k.file f).ip).size.toNat (k.file f).off.toNat
      (min n writeMax) := by
    have hoff := h.off
    rw [← hrep.file] at hoff
    have hmax : MAXFILE * BSIZE < 2 ^ 32 := by simp only [MAXFILE, BSIZE]; decide
    rintro (h1 | h1 | h1) <;> omega
  obtain ⟨count, hcount⟩ : ∃ count, (n + (writeMax - 1)) / writeMax = count + 1 := by
    refine ⟨(n + (writeMax - 1)) / writeMax - 1, ?_⟩
    lia
  rw [h.filewrite hrep.file, hcount] at hrun
  have hmoves : wp ((filewriteFrom f src n (count + 1) 0).run (exec p)) (fun _ k' =>
      (k.file f).off.toNat + min n writeMax ≤ (k'.file f).off.toNat) (fun _ => True) k := by
    simp only [filewriteFrom, Nat.sub_zero, Prog.wp_run_bind]
    refine wp_post (moves_filewriteChunk hlt hdev) ?_
    rintro r k1 ⟨hip, htype1, ⟨rfl, href, -⟩ | ⟨rfl, -, hoff⟩⟩
    · exact absurd href hnr
    · simp only [ne_eq, not_true_eq_false, if_false]
      refine wp_post (moves_filewriteFrom count _ (by rw [hip]; exact htype1)) fun _ k2 h2 => ?_
      omega
  have hend := wp_ok hmoves hrun
  rw [hfile] at hend
  have hpos : 0 < min n writeMax := Nat.lt_min.2 ⟨by omega, by decide⟩
  omega

end

/-! ## A file that is nearly full -/

section FullFile

/-- An index block with the numbers of a run of blocks. -/
def indexFrom (b : Nat) : Block := fun o => UInt8.ofNat ((b + o / 4) / 256 ^ (o % 4))

/-- A file of the largest size, its blocks one behind the other from 34 on. -/
def fullInode : Dinode :=
  { Dinode.zero with
    type := T_FILE
    nlink := 1
    size := UInt32.ofNat (MAXFILE * BSIZE)
    addrs := fun k => if k.val ≤ NDIRECT then UInt32.ofNat (34 + k.val) else 174 }

/-- The disk that `mkfs` lays out, with the file as inode 2. The blocks below 16687 are in use. -/
def fullDisk : Nat → Block := fun b =>
  if b = 1 then putSb zeroBlock { size := 21029, nblocks := 20985, ninodes := 200, nlog := 10 }
  else if b = 2 then putDinode zeroBlock 2 fullInode
  else if 28 ≤ b ∧ b < 34 then
    fun o => UInt8.ofNat (2 ^ min 8 (16687 - (4096 * (b - 28) + 8 * o)) - 1)
  else if b = 45 then indexFrom 46
  else if b = 174 then indexFrom 175
  else if 175 ≤ b ∧ b < 303 then indexFrom (303 + 128 * (b - 175))
  else zeroBlock

/-- The file is open for writing, three blocks before its end. -/
def fullOpen : Kernel :=
  { emptyOpen with
    fs := { emptyOpen.fs with
      disk := fullDisk
      log := { start := 21019, size := 10, busy := false, lh := [] }
      inode := fun i => if i = 0 then
        { inum := 2, ref := 1, busy := false, valid := true, d := fullInode }
        else { inum := 0, ref := 0, busy := false, valid := false, d := Dinode.zero } }
    file := fun _ => { type := .inode, ref := 1, readable := true, writable := true, pipe := 0, ip := 0
                       off := UInt32.ofNat ((MAXFILE - 3) * BSIZE) } }

end FullFile

end Dixv6.Sys
