import Dixv6.Lib.Bytes
import Mathlib.Algebra.Ring.Nat
import Mathlib.Tactic.Common

/-!
# The boot loader

`bootmain` (`bootmain.c`) copies the first page of the kernel file to scratch memory and loads the
segments that the program headers there describe. `readseg` works in whole sectors, from the beginning
of the first one, so that loading a segment also writes what stands before it in its first sector, and
so over the end of the segment loaded before. Nothing keeps the scratch page either.

`load_eq_some` says where a load writes and what, and **`bootmain_loaded` for which files the memory
ends up as the file describes it**.
-/

namespace Dixv6.Boot

open Lib Lib.Bytes

/-- Where `bootmain` puts the first page of the file. -/
abbrev scratch : Nat := 0x10000

/-- What `bootmain` reads of a program header (`elf.h`). -/
structure Seg where
  off : Nat
  paddr : Nat
  filesz : Nat
  memsz : Nat
  deriving DecidableEq

/-- The program header at an address. -/
def Seg.read (m : Bytes) (a : Nat) : Seg where
  off := leGet m (a + 4) 4
  paddr := leGet m (a + 12) 4
  filesz := leGet m (a + 16) 4
  memsz := leGet m (a + 20) 4

section
variable (file : Bytes)

/-- `readsect` (`bootmain.c:60`). A sector has 512 bytes, and the file starts at sector 1 of the disk. -/
def readsect (pa sector : Nat) (m : Bytes) : Bytes :=
  blit m pa 512 fun i => file (512 * (sector - 1) + i)

/-- The loop of `readseg`. There is no result if the pointer leaves the 32-bit addresses. -/
def readsects (pa epa sector : Nat) (m : Bytes) : Option Bytes :=
  if pa < epa then
    if pa + 512 < 2 ^ 32 then
      readsects (pa + 512) epa (sector + 1) (readsect file pa sector m)
    else none
  else some m
termination_by epa - pa
decreasing_by exact Nat.sub_lt_sub_left ‹_› (Nat.lt_add_of_pos_right (by decide))

/-- `readseg` (`bootmain.c:79`). -/
def readseg (pa count offset : Nat) (m : Bytes) : Option Bytes :=
  if offset % 512 ≤ pa ∧ pa + count < 2 ^ 32 then
    readsects file (pa - offset % 512) (pa + count) (offset / 512 + 1) m
  else none

/-- The body of the loop of `bootmain`, for the segment of one header. -/
def Seg.load (s : Seg) (m : Bytes) : Option Bytes := do
  let m ← readseg file s.paddr s.filesz s.off m
  if s.filesz < s.memsz then
    if s.paddr + s.memsz < 2 ^ 32 then
      some (blit m (s.paddr + s.filesz) (s.memsz - s.filesz) fun _ => 0)
    else none
  else some m

/-- The loop of `bootmain` over the given number of headers: the segments it loads and the memory. Each
header is read when its turn comes. -/
def loads : Nat → Nat → Bytes → Option (List Seg × Bytes)
  | 0, _, m => some ([], m)
  | n + 1, ph, m => do
    let s := Seg.read m ph
    let m ← s.load file m
    let (ss, m) ← loads n (ph + 32) m
    some (s :: ss, m)

/-- `bootmain` (`bootmain.c:18`) up to the jump to the kernel. -/
def bootmain (m : Bytes) : Option (List Seg × Bytes) := do
  let m ← readseg file scratch 4096 0 m
  if leGet m scratch 4 = 0x464C457F then
    loads file (leGet m (scratch + 44) 2) (scratch + leGet m (scratch + 28) 4) m
  else some ([], m)

/-! ## What the file describes -/

/-- The fields `phoff` and `phnum` of the file. -/
def phoff : Nat := leGet file 28 4
@[inherit_doc phoff] def phnum : Nat := leGet file 44 2

/-- The segments of the file. -/
def segments : List Seg := (List.range (phnum file)).map fun k => Seg.read file (phoff file + 32 * k)

/-- What the memory of a segment should hold at an address. -/
def Seg.wanted (s : Seg) (x : Nat) : UInt8 :=
  if x < s.paddr + s.filesz then file (s.off + (x - s.paddr)) else 0

/-- The loader loads the segments of the file, and then the memory of each holds what it should. -/
def Loaded (m : Bytes) : Prop := ∃ m', bootmain file m = some (segments file, m') ∧
  ∀ s ∈ segments file, ∀ x, s.paddr ≤ x → x < s.paddr + s.memsz → m' x = s.wanted file x

/-! ## What a load writes -/

/-- Where the first sector of a segment goes, and the end of its last one. -/
def Seg.start (s : Seg) : Nat := s.paddr - s.off % 512
@[inherit_doc Seg.start]
def Seg.stop (s : Seg) : Nat := s.start + (s.off % 512 + s.filesz + 511) / 512 * 512

/-- The sectors and the memory of a segment lie inside the 32-bit addresses. -/
structure Seg.Inside (s : Seg) : Prop where
  start : s.off % 512 ≤ s.paddr
  stop : s.stop < 2 ^ 32
  zeros : s.filesz < s.memsz → s.paddr + s.memsz < 2 ^ 32

/-- The byte that the load of a segment leaves at an address, if it writes there. -/
def Seg.puts (s : Seg) (x : Nat) : Option UInt8 :=
  if s.paddr + s.filesz ≤ x ∧ x < s.paddr + s.memsz then some 0
  else if s.start ≤ x ∧ x < s.stop then some (file (s.off / 512 * 512 + (x - s.start)))
  else none

/-- The byte that the last load of several leaves at an address, if one of them writes there. -/
def left : List Seg → Nat → Option UInt8
  | [], _ => none
  | s :: ss, x => (left ss x).or (s.puts file x)

/-- A memory after several loads. -/
def after (ss : List Seg) (m : Bytes) : Bytes := fun x => (left file ss x).getD (m x)

end

section
variable {file m m' : Bytes} {s : Seg}

/-- Two copies side by side. -/
theorem blit_blit (pa k n : Nat) (f : Nat → UInt8) :
    blit (blit m pa k f) (pa + k) n (fun i => f (k + i)) = blit m pa (k + n) f := by
  funext x
  simp only [blit]
  split_ifs <;> first | omega | rfl | (congr 1; omega)

/-- The loop of `readseg` is one copy of whole sectors: induction on what is left to read. -/
theorem readsects_eq_some {pa epa sector : Nat} (hs : 0 < sector) (hpa : pa < 2 ^ 32) :
    readsects file pa epa sector m = some m' ↔ pa + (epa - pa + 511) / 512 * 512 < 2 ^ 32 ∧
      m' = blit m pa ((epa - pa + 511) / 512 * 512) fun i => file (512 * (sector - 1) + i) := by
  induction h : epa - pa using Nat.strong_induction_on generalizing pa sector m with
  | _ k ih =>
  rw [readsects]
  split_ifs with hlt hin
  · have hsect : (k + 511) / 512 * 512 = 512 + (epa - (pa + 512) + 511) / 512 * 512 := by omega
    have hnext : (fun i => file (512 * (sector + 1 - 1) + i)) =
        fun i => file (512 * (sector - 1) + (512 + i)) := by
      funext i
      congr 1
      omega
    rw [ih _ (by omega) (by omega) hin rfl, readsect, hnext,
      blit_blit pa 512 _ fun i => file (512 * (sector - 1) + i), hsect, Nat.add_assoc]
  · exact iff_of_false nofun fun h => by omega
  · have hk : (k + 511) / 512 * 512 = 0 := by omega
    have hnone : blit m pa 0 (fun i => file (512 * (sector - 1) + i)) = m := by
      funext x
      exact blit_of_outside (by omega)
    rw [hk, hnone, Option.some_inj]
    exact ⟨fun h => ⟨hpa, h.symm⟩, fun h => h.2.symm⟩

/-- `readseg` copies the sectors of a segment. -/
theorem readseg_eq_some : readseg file s.paddr s.filesz s.off m = some m' ↔
    (s.off % 512 ≤ s.paddr ∧ s.stop < 2 ^ 32) ∧
      m' = blit m s.start (s.stop - s.start) fun i => file (512 * (s.off / 512) + i) := by
  rw [readseg]
  split_ifs with h
  · have hlen : s.paddr + s.filesz - s.start = s.off % 512 + s.filesz := by
      unfold Seg.start
      omega
    have hstop : s.stop - s.start = (s.off % 512 + s.filesz + 511) / 512 * 512 := by
      unfold Seg.stop
      omega
    change readsects file s.start _ _ m = _ ↔ _
    rw [readsects_eq_some (by omega) (by unfold Seg.start; omega), hlen, hstop]
    simp [h.1, Seg.stop]
  · grind [Seg.stop, Seg.start]

/-- **What a load writes**: `Seg.puts` and nothing else. -/
theorem load_eq_some : s.load file m = some m' ↔ s.Inside ∧ m' = after file [s] m := by
  have hputs : ∀ x, after file [s] m x =
      if s.paddr + s.filesz ≤ x ∧ x < s.paddr + s.memsz then 0
      else blit m s.start (s.stop - s.start) (fun i => file (512 * (s.off / 512) + i)) x := by
    intro x
    simp only [after, left, Seg.puts, Option.none_or, blit]
    split_ifs <;> first | omega | rfl | (simp only [Option.getD_some]; congr 1; omega)
  have hm : ∀ m1 : Bytes, m1 = after file [s] m ↔ ∀ x, m1 x = after file [s] m x := fun m1 => funext_iff
  simp only [Seg.load, Option.bind_eq_bind, Option.bind_eq_some_iff, readseg_eq_some, hm, hputs]
  constructor
  · rintro ⟨m1, ⟨⟨h1, h2⟩, rfl⟩, h⟩
    split_ifs at h with hz hz'
    · obtain rfl := Option.some.inj h
      refine ⟨⟨h1, h2, fun _ => hz'⟩, fun x => ?_⟩
      rw [blit]
      split_ifs <;> first | rfl | omega
    · obtain rfl := Option.some.inj h
      exact ⟨⟨h1, h2, fun hz' => absurd hz' hz⟩, fun x => (if_neg (by omega)).symm⟩
  · rintro ⟨⟨h1, h2, h3⟩, h⟩
    refine ⟨_, ⟨⟨h1, h2⟩, rfl⟩, ?_⟩
    split_ifs with hz hz'
    · refine congrArg some (funext fun x => ?_)
      rw [h x, blit]
      split_ifs <;> first | rfl | omega
    · exact absurd (h3 hz) hz'
    · exact congrArg some (funext fun x => ((h x).trans (if_neg (by omega))).symm)

/-- The loads of several segments, the first of them taken off. -/
theorem after_cons (s : Seg) (ss : List Seg) (m : Bytes) :
    after file (s :: ss) m = after file ss (after file [s] m) := by
  funext x
  simp only [after, left, Option.none_or]
  cases left file ss x <;> rfl

theorem after_append (ss ss' : List Seg) :
    after file (ss ++ ss') m = after file ss' (after file ss m) := by
  induction ss generalizing m with
  | nil => rfl
  | cons s ss ih => rw [List.cons_append, after_cons, ih, ← after_cons]

/-- The loop of `bootmain`, for the segments it should load: induction on their number. -/
theorem loads_eq_some {ss : List Seg} {ph : Nat} :
    loads file ss.length ph m = some (ss, m') ↔ (∀ s ∈ ss, s.Inside) ∧
      (∀ k s, ss[k]? = some s → Seg.read (after file (ss.take k) m) (ph + 32 * k) = s) ∧
      m' = after file ss m := by
  induction ss generalizing ph m with
  | nil => simp [loads, show after file [] m = m from rfl, eq_comm]
  | cons s ss ih =>
    have hstep : loads file (s :: ss).length ph m = some (s :: ss, m') ↔ Seg.read m ph = s ∧
        s.Inside ∧ loads file ss.length (ph + 32) (after file [s] m) = some (ss, m') := by
      simp only [List.length_cons, loads, Option.bind_eq_bind, Option.bind_eq_some_iff, load_eq_some]
      constructor
      · grind
      · grind
    have hsplit : (∀ k s', (s :: ss)[k]? = some s' →
        Seg.read (after file ((s :: ss).take k) m) (ph + 32 * k) = s') ↔ Seg.read m ph = s ∧
        ∀ k s', ss[k]? = some s' →
          Seg.read (after file (ss.take k) (after file [s] m)) (ph + 32 + 32 * k) = s' := by
      have hnext : ∀ k, ph + 32 * (k + 1) = ph + 32 + 32 * k := by omega
      constructor
      · intro h
        refine ⟨h 0 s rfl, fun k s' hk => ?_⟩
        have hk' := h (k + 1) s' hk
        rwa [List.take_succ_cons, after_cons, hnext] at hk'
      · rintro ⟨h0, h⟩ (_ | k) s' hk
        · exact h0.trans (Option.some.inj hk)
        · rw [List.take_succ_cons, after_cons, hnext]
          exact h k s' hk
    rw [hstep, ih, hsplit, List.forall_mem_cons, after_cons s ss]
    exact ⟨fun ⟨h1, h2, h3, h4, h5⟩ => ⟨⟨h2, h3⟩, ⟨h1, h4⟩, h5⟩,
      fun ⟨⟨h2, h3⟩, ⟨h1, h4⟩, h5⟩ => ⟨h1, h2, h3, h4, h5⟩⟩

/-- The memory of a segment right after its load. -/
theorem puts_eq_wanted {x : Nat} (hin : s.Inside) (h1 : s.paddr ≤ x) (h2 : x < s.paddr + s.memsz) :
    s.puts file x = some (s.wanted file x) := by
  have hstart := hin.start
  unfold Seg.puts Seg.wanted Seg.stop Seg.start
  split_ifs <;> first | omega | rfl | (congr 2; omega)

/-- The loads of the later segments decide whether the memory of a segment keeps what it should hold. -/
theorem after_eq_wanted {ss : List Seg} {k x : Nat} (hk : ss[k]? = some s) (hin : s.Inside)
    (h1 : s.paddr ≤ x) (h2 : x < s.paddr + s.memsz) : after file ss m x = s.wanted file x ↔
      ∀ b, left file (ss.drop (k + 1)) x = some b → b = s.wanted file x := by
  obtain ⟨hlt, hs⟩ := List.getElem?_eq_some_iff.1 hk
  have hss : ss.take k ++ s :: ss.drop (k + 1) = ss := by rw [← hs]; simp
  have hafter : after file ss m x = (left file (ss.drop (k + 1)) x).getD (s.wanted file x) := by
    conv_lhs => rw [← hss, after_append, after_cons]
    simp [after, left, puts_eq_wanted hin h1 h2]
  rw [hafter]
  cases left file (ss.drop (k + 1)) x <;> simp

/-- The first page of the file in scratch memory. -/
def scratchPage (file : Bytes) : Bytes := fun x => file (x - scratch)

/-- When `bootmain` loads the segments of the file, and the memory then. -/
theorem bootmain_eq_some (hmagic : leGet file 0 4 = 0x464C457F)
    (hhead : phoff file + 32 * phnum file ≤ 4096) : bootmain file m = some (segments file, m') ↔
      (∀ s ∈ segments file, s.Inside) ∧ (∀ k s, (segments file)[k]? = some s →
        Seg.read (after file ((segments file).take k) (scratchPage file))
          (scratch + phoff file + 32 * k) = s) ∧
      m' = after file (segments file) (blit m scratch 4096 file) := by
  have hread : readseg file scratch 4096 0 m = some (blit m scratch 4096 file) := by
    refine (readseg_eq_some (s := ⟨0, scratch, 4096, 0⟩)).2 ⟨by decide, ?_⟩
    simp [Seg.start, Seg.stop]
  have hpage : ∀ x, scratch ≤ x → x < scratch + 4096 → blit m scratch 4096 file x = scratchPage file x :=
    fun x h1 h2 => blit_of_mem ⟨h1, h2⟩
  have hget : ∀ o w, o + w ≤ 4096 → leGet (blit m scratch 4096 file) (scratch + o) w = leGet file o w := by
    intro o w h
    rw [← leGet_shift file scratch]
    exact leGet_congr w _ fun x h1 h2 => hpage x (by omega) (by omega)
  have hlen : (segments file).length = phnum file := by simp [segments]
  have hboot : bootmain file m =
      loads file (segments file).length (scratch + phoff file) (blit m scratch 4096 file) := by
    simp only [bootmain, hread, Option.bind_eq_bind, Option.bind_some]
    rw [hget 0 4 (by omega), if_pos hmagic, hget 44 2 (by omega), hget 28 4 (by omega), hlen]
    rfl
  -- the headers are read from the copy in scratch memory, whatever the rest of the memory is
  have hhdr : ∀ k < phnum file, ∀ ss, Seg.read (after file ss (blit m scratch 4096 file))
      (scratch + phoff file + 32 * k) =
      Seg.read (after file ss (scratchPage file)) (scratch + phoff file + 32 * k) := by
    intro k hk ss
    have hfield : ∀ o w, o + w ≤ 32 → leGet (after file ss (blit m scratch 4096 file))
        (scratch + phoff file + 32 * k + o) w =
        leGet (after file ss (scratchPage file)) (scratch + phoff file + 32 * k + o) w := fun o w h =>
      leGet_congr w _ fun x h1 h2 => by rw [after, after, hpage x (by omega) (by omega)]
    simp only [Seg.read, hfield 4 4 (by omega), hfield 12 4 (by omega), hfield 16 4 (by omega),
      hfield 20 4 (by omega)]
  have hidx : ∀ k s, (segments file)[k]? = some s → k < phnum file := fun k s hk => by
    rw [← hlen]
    exact (List.getElem?_eq_some_iff.1 hk).1
  rw [hboot, loads_eq_some]
  refine and_congr_right fun _ => and_congr_left fun _ => forall₂_congr fun k s => ?_
  refine imp_congr_right fun hk => ?_
  rw [hhdr k (hidx k s hk)]

end

/-- **The files that the boot loader loads as they describe it.** For every kernel file with its headers
in the first page, and whatever the memory was: the loop loads the segments of the file, and then the
memory of each holds its bytes of the file and zeros behind them, exactly if

* the sectors and the memory of every segment lie inside the 32-bit addresses,
* the loads before the turn of a header leave it as it is in the file, and
* where a later load writes into the memory of a segment, the last one to do so leaves the byte that
  should be there. -/
theorem bootmain_loaded (file m : Bytes) (hmagic : leGet file 0 4 = 0x464C457F)
    (hhead : phoff file + 32 * phnum file ≤ 4096) : Loaded file m ↔
      (∀ s ∈ segments file, s.Inside) ∧ ∀ k s, (segments file)[k]? = some s →
        Seg.read (after file ((segments file).take k) (scratchPage file))
          (scratch + phoff file + 32 * k) = s ∧
        ∀ x, s.paddr ≤ x → x < s.paddr + s.memsz → ∀ b,
          left file ((segments file).drop (k + 1)) x = some b → b = s.wanted file x := by
  simp only [Loaded, bootmain_eq_some hmagic hhead]
  constructor
  · rintro ⟨_, ⟨hin, hhd, rfl⟩, hmem⟩
    refine ⟨hin, fun k s hk => ⟨hhd k s hk, fun x h1 h2 => ?_⟩⟩
    have hs := List.mem_of_getElem? hk
    exact (after_eq_wanted hk (hin s hs) h1 h2).1 (hmem s hs x h1 h2)
  · rintro ⟨hin, h⟩
    refine ⟨_, ⟨hin, fun k s hk => (h k s hk).1, rfl⟩, fun s hs x h1 h2 => ?_⟩
    obtain ⟨k, hk⟩ := List.getElem?_of_mem hs
    exact (after_eq_wanted hk (hin s hs) h1 h2).2 ((h k s hk).2 x h1 h2)

/-- A file with one or two segments: eight bytes at `0x100000` with eight zero bytes behind them, and
one byte behind those. Their bytes in the file, and those between them, are ones. -/
def elfFile (phnum : UInt8) : Bytes := fun i =>
  if i < 4 then [0x7F, 0x45, 0x4C, 0x46].getD i 0 else if i = 28 then 52 else if i = 44 then phnum
  else if 52 ≤ i ∧ i < 116 then
    [1, 0, 0, 0, 0, 16, 0, 0, 0, 0, 0, 0, 0, 0, 16, 0, 8, 0, 0, 0, 16, 0, 0, 0, 0, 0, 0, 0, 0, 0, 0, 0,
      1, 0, 0, 0, 16, 16, 0, 0, 0, 0, 0, 0, 16, 0, 16, 0, 1, 0, 0, 0, 1].getD (i - 52) 0
  else if 4096 ≤ i then 1 else 0

/-- The first segment alone is loaded. -/
theorem bootmain_loaded_one : Loaded (elfFile 1) fun _ => 0 := by
  have hsegs : segments (elfFile 1) = [⟨4096, 0x100000, 8, 16⟩] := by decide +kernel
  refine (bootmain_loaded (elfFile 1) _ (by decide +kernel) (by decide +kernel)).2 ?_
  rw [hsegs]
  refine ⟨fun s hs => ?_, fun k s hk => ?_⟩
  · obtain rfl := List.mem_singleton.1 hs
    exact ⟨by decide, by decide, fun _ => by decide⟩
  · obtain ⟨rfl, rfl⟩ : k = 0 ∧ ⟨4096, 0x100000, 8, 16⟩ = s := by
      rcases k with _ | k
      · exact ⟨rfl, Option.some.inj hk⟩
      · nomatch hk
    exact ⟨by decide +kernel, fun x _ _ b hb => nomatch hb⟩

/-- **Zero bytes that are lost.** The first sector of the second segment starts 16 bytes before it in the
file, and these bytes go over the memory of the first one, its zero bytes included. -/
theorem bootmain_overwrites : (leGet (elfFile 2) 0 4 = 0x464C457F ∧
    phoff (elfFile 2) + 32 * phnum (elfFile 2) ≤ 4096) ∧
    segments (elfFile 2) = [⟨4096, 0x100000, 8, 16⟩, ⟨4112, 0x100010, 1, 1⟩] ∧
    ¬ Loaded (elfFile 2) fun _ => 0 := by
  have hsegs : segments (elfFile 2) = [⟨4096, 0x100000, 8, 16⟩, ⟨4112, 0x100010, 1, 1⟩] := by
    decide +kernel
  have hfile : leGet (elfFile 2) 0 4 = 0x464C457F ∧
      phoff (elfFile 2) + 32 * phnum (elfFile 2) ≤ 4096 := by decide +kernel
  refine ⟨hfile, hsegs, fun ⟨m', hb, hmem⟩ => ?_⟩
  obtain ⟨-, -, rfl⟩ := (bootmain_eq_some hfile.1 hfile.2).1 hb
  rw [hsegs] at hmem
  exact absurd (hmem _ (List.mem_cons_self ..) 0x10000F (by decide) (by decide)) (by decide +kernel)

end Dixv6.Boot
