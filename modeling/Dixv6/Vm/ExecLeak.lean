import Dixv6.Vm.Exec
import Dixv6.Vm.GrowLeak

/-!
# What a failed `exec` costs

`exec` builds a new address space and frees it at the label `bad`. It leaks what `setupkvm` leaks and
what `allocuvm` leaks, and there is a program for every other number of free frames too: one whose
second segment is loaded over the first entry of the new page directory (`strayFile`), so that
`freevm` no longer finds the page table behind it. With no frame at all, or with just enough for the
page directory, no program leaks (`exec_law`).
-/

namespace Dixv6.Vm

open Lib Function

/-- When `exec` fails, the same frames are free, whatever the program and its arguments. -/
def ExecLaw (L : Layout) (i : Nat) (p : Proc) (x : Xstate) : Prop :=
  ∀ ip path argv x', exec L i p ip path argv x = .ok (-1, x') → SameFree x.sys.vm x'.sys.vm

/-- No frame at all, or those of a page directory. -/
def ExecOk (n : Nat) : Prop := n = 0 ∨ n = 65

section
variable {L : Layout} {root : Nat → Option Nat} {s v v' : State} {x x' : Xstate} {k d f : Nat}
  {E : Stop → Prop} {T : XStop → Prop}

/-- An address space that `freevm` frees completely. -/
structure Clean (L : Layout) (root : Nat → Option Nat) (k d : Nat) (v : State) : Prop where
  own : Own L root v
  dir : root k = some d
  kern : ∀ va < 2 ^ 32, KERNBASE ≤ va → user (pteAt v d va) = false
  sound : ∀ va < KERNBASE, present (pteAt v d va) = true → pteFrame (pteAt v d va) < NFRAMES

/-- The label `bad`. -/
theorem bad_spec (h : Clean L root k d x.sys.vm) (held : Bool) :
    wp (bad L (some d) held) (fun r x' => r = -1 ∧
      ∀ f, f ∈ x'.sys.vm.freelist ↔ Total root k x.sys.vm [] f) T x := by
  unfold bad
  simp only [wp_bind, wp_vm]
  refine wp_post (freevm_clean h.own h.dir h.kern h.sound) fun _ v' hv => ?_
  cases held with
  | true => exact ⟨rfl, hv⟩
  | false => exact ⟨rfl, hv⟩

/-- A new page directory is clean. -/
theorem Built.clean (h : Built L root k d s v) : Clean L (update root k (some d)) k d v :=
  ⟨h.own, update_self _ _ _, h.kern, fun va hva hp => by
    refine absurd hp (not_present_of_table (h.empty _ ?_))
    grind [PDX]⟩

/-- What `deallocuvm` leaves of a clean address space is clean. -/
theorem Emptied.clean {lo hi : Nat} (h : Emptied L root k d lo hi v v') (hc : Clean L root k d v) :
    Clean L root k d v' := by
  refine ⟨h.own, hc.dir, fun va h1 h2 => ?_, fun va h1 hp => ?_⟩
  · rcases h.kept va h1 with he | ⟨-, -, -, he⟩
    · rw [he]; exact hc.kern va h1 h2
    · rw [he]; rfl
  · have hva : va < 2 ^ 32 := by lia
    rcases h.kept va hva with he | ⟨-, -, -, he⟩
    · rw [he] at hp ⊢; exact hc.sound va h1 hp
    · rw [he] at hp
      exact absurd hp (by decide)

/-- Without a free frame nothing grows from 0. -/
theorem allocuvm_empty (hc : Clean L root k d v) (hnil : v.freelist = []) (newsz : Nat) :
    wp (allocuvm L d 0 newsz) (fun r v' => r = 0 ∧ Clean L root k d v' ∧
      ∀ hand, Total root k v' hand = Total root k v hand) E v := by
  unfold allocuvm
  refine wp_ite (fun _ => ⟨rfl, hc, fun _ => rfl⟩) fun hsz => ?_
  rw [if_neg (Nat.not_lt_zero _)]
  have hturns : TURNS = 2 ^ 20 + 1 := rfl
  rw [hturns, allocuvmFrom]
  refine wp_ite (fun hlt => ?_) fun hge => ?_
  · refine wp_seq kalloc_raw ?_
    rintro r v1 ⟨-, hfree, hstay⟩
    cases r with
    | some f => rw [hnil] at hfree; cases hfree
    | none =>
      rw [hstay rfl]
      refine wp_seq (deallocuvm_ledger hc.own hc.dir (by omega) (Nat.zero_lt_of_lt hlt)
        (.inr fun va _ h2 _ hp => hc.sound va (by omega) hp)) fun _ v' h => ?_
      exact ⟨rfl, h.clean hc, h.total⟩
  · have hzero : newsz = 0 := by
      have : PGROUNDUP 0 = 0 := rfl
      omega
    exact ⟨hzero, hc, fun _ => rfl⟩

/-- Without a free frame no segment is loaded. -/
theorem loadSegments_empty {F : File} (hc : Clean L root k d x.sys.vm)
    (hnil : x.sys.vm.freelist = []) : ∀ n off,
    wp (loadSegments L F d n off 0) (fun r x' => (r = some 0 ∧ x' = x) ∨
      (r = none ∧ Clean L root k d x'.sys.vm ∧
        ∀ hand, Total root k x'.sys.vm hand = Total root k x.sys.vm hand)) T x := by
  intro n
  induction n with
  | zero => intro off; exact .inl ⟨rfl, rfl⟩
  | succ n ih =>
    intro off
    rw [loadSegments]
    refine wp_ite (fun _ => .inr ⟨rfl, hc, fun _ => rfl⟩) fun _ => ?_
    refine wp_ite (fun _ => ih _) fun _ => ?_
    refine wp_ite (fun _ => .inr ⟨rfl, hc, fun _ => rfl⟩) fun _ => ?_
    simp only [wp_bind, wp_vm]
    refine wp_post (allocuvm_empty hc hnil _) ?_
    rintro r v ⟨rfl, hv, htotal⟩
    rw [if_pos rfl]
    exact .inr ⟨rfl, hv, htotal⟩

/-- **With no frame, or just those of a page directory, a failed `exec` leaks nothing.** -/
theorem exec_ok {i : Nat} {p : Proc} {ip : Option File} {path : List UInt8}
    {argv : List (List UInt8)} (hO : Own L root x.sys.vm) (hn : ExecOk x.sys.vm.freelist.length) :
    wp (exec L i p ip path argv) (fun _ x' => SameFree x.sys.vm x'.sys.vm) T x := by
  obtain ⟨k, hk⟩ := hO.slot
  have hsame : SameFree x.sys.vm x.sys.vm := fun _ => Iff.rfl
  cases ip with
  | none => exact hsame
  | some F =>
    unfold exec
    refine wp_ite (fun _ => hsame) fun _ => wp_ite (fun _ => hsame) fun _ => ?_
    simp only [wp_bind, wp_vm]
    refine wp_post (setupkvm_exact hO hk) ?_
    rintro r v (⟨rfl, hlt, hnil⟩ | ⟨d, rfl, hb⟩)
    · have hempty : x.sys.vm.freelist = [] := List.length_eq_zero_iff.1 (by
        rcases hn with h | h <;> omega)
      intro f
      rw [hnil, hempty]
    have hnil : v.freelist = [] := by
      rw [hb.free, List.drop_eq_nil_iff]
      rcases hn with h | h <;> omega
    -- from here on every way leads to `bad`
    have hbad : ∀ (held : Bool) (x' : Xstate),
        Clean L (update root k (some d)) k d x'.sys.vm →
        (∀ hand, Total (update root k (some d)) k x'.sys.vm hand =
          Total (update root k (some d)) k v hand) →
        wp (bad L (some d) held) (fun _ x' => SameFree x.sys.vm x'.sys.vm) T x' := by
      intro held x' hc htotal
      refine wp_post (bad_spec hc held) ?_
      rintro r x'' ⟨-, hfree⟩ f
      rw [hfree, htotal, hb.total]
    simp only [wp_bind]
    refine wp_post (loadSegments_empty hb.clean hnil _ _) ?_
    rintro r x1 (⟨rfl, rfl⟩ | ⟨rfl, hc, htotal⟩)
    · simp only [wp_bind, wp_modify, wp_vm]
      refine wp_post (allocuvm_empty hb.clean hnil _) ?_
      rintro r v1 ⟨rfl, hc, htotal⟩
      rw [if_pos rfl]
      exact hbad false _ hc htotal
    · exact hbad true x1 hc htotal

end

/-! ## Programs -/

/-- An ELF header with `phnum` program headers behind it. -/
def elfHeader (phnum : Nat) : Bytes :=
  ((Bytes.lePut (fun _ => 0) 0 4 ELF_MAGIC).lePut 28 4 52).lePut 44 2 phnum

/-- A program header stored at `o`. -/
def putHeader (b : Bytes) (o : Nat) (h : Proghdr) : Bytes :=
  ((((b.lePut o 4 h.type).lePut (o + 4) 4 h.off).lePut (o + 8) 4 h.vaddr).lePut
    (o + 16) 4 h.filesz).lePut (o + 20) 4 h.memsz

/-- A segment to be loaded. -/
def segment (off vaddr filesz memsz : Nat) : Proghdr := ⟨ELF_PROG_LOAD, off, vaddr, filesz, memsz⟩

section
variable {b : Bytes} {o : Nat} {h : Proghdr}

theorem leGet_putHeader {o' w : Nat} (hd : o' + w ≤ o ∨ o + 24 ≤ o') :
    (putHeader b o h).leGet o' w = b.leGet o' w := by
  rw [putHeader, Bytes.leGet_lePut_disjoint (by omega), Bytes.leGet_lePut_disjoint (by omega),
    Bytes.leGet_lePut_disjoint (by omega), Bytes.leGet_lePut_disjoint (by omega),
    Bytes.leGet_lePut_disjoint (by omega)]

theorem putHeader_outside {i : Nat} (hd : i < o) : putHeader b o h i = b i := by
  rw [putHeader, Bytes.lePut_of_outside (by omega), Bytes.lePut_of_outside (by omega),
    Bytes.lePut_of_outside (by omega), Bytes.lePut_of_outside (by omega),
    Bytes.lePut_of_outside (by omega)]

/-- A header reads as it was stored. -/
theorem proghdr_putHeader {size : Nat} (h1 : h.type < 2 ^ 32) (h2 : h.off < 2 ^ 32)
    (h3 : h.vaddr < 2 ^ 32) (h4 : h.filesz < 2 ^ 32) (h5 : h.memsz < 2 ^ 32) :
    proghdr ⟨size, putHeader b o h⟩ o = h := by
  have e1 : (putHeader b o h).leGet o 4 = h.type := by
    rw [putHeader, Bytes.leGet_lePut_disjoint (by omega), Bytes.leGet_lePut_disjoint (by omega),
      Bytes.leGet_lePut_disjoint (by omega), Bytes.leGet_lePut_disjoint (by omega),
      Bytes.leGet_lePut_of_lt h1]
  have e2 : (putHeader b o h).leGet (o + 4) 4 = h.off := by
    rw [putHeader, Bytes.leGet_lePut_disjoint (by omega), Bytes.leGet_lePut_disjoint (by omega),
      Bytes.leGet_lePut_disjoint (by omega), Bytes.leGet_lePut_of_lt h2]
  have e3 : (putHeader b o h).leGet (o + 8) 4 = h.vaddr := by
    rw [putHeader, Bytes.leGet_lePut_disjoint (by omega), Bytes.leGet_lePut_disjoint (by omega),
      Bytes.leGet_lePut_of_lt h3]
  have e4 : (putHeader b o h).leGet (o + 16) 4 = h.filesz := by
    rw [putHeader, Bytes.leGet_lePut_disjoint (by omega), Bytes.leGet_lePut_of_lt h4]
  have e5 : (putHeader b o h).leGet (o + 20) 4 = h.memsz := by
    rw [putHeader, Bytes.leGet_lePut_of_lt h5]
  simp only [proghdr, e1, e2, e3, e4, e5]

/-- A header in front of the one stored last is as before. -/
theorem proghdr_putHeader_before {size o' : Nat} (hd : o' + 24 ≤ o) :
    proghdr ⟨size, putHeader b o h⟩ o' = proghdr ⟨size, b⟩ o' := by
  simp only [proghdr]
  rw [leGet_putHeader (by omega), leGet_putHeader (by omega), leGet_putHeader (by omega),
    leGet_putHeader (by omega), leGet_putHeader (by omega)]

/-- The fields of the ELF header. -/
theorem elfHeader_fields {n : Nat} (hn : n < 256 ^ 2) : (elfHeader n).leGet 0 4 = ELF_MAGIC ∧
    (elfHeader n).leGet 28 4 = 52 ∧ (elfHeader n).leGet 44 2 = n := by
  refine ⟨?_, ?_, Bytes.leGet_lePut_of_lt hn⟩
  · rw [elfHeader, Bytes.leGet_lePut_disjoint (by omega), Bytes.leGet_lePut_disjoint (by omega),
      Bytes.leGet_lePut_of_lt (by decide)]
  · rw [elfHeader, Bytes.leGet_lePut_disjoint (by omega), Bytes.leGet_lePut_of_lt (by decide)]

end

/-- A program without segments. -/
def emptyFile : File := ⟨52, elfHeader 0⟩

/-- A program with one segment of two pages. -/
def twoPages : File := ⟨84, putHeader (elfHeader 1) 52 (segment 0 0 0 8192)⟩

/-- A program with a segment of one byte at 0 and one whose four bytes, all zero, go to the frame
`d`: its address and its size add up to 0. Its third program header is missing. -/
def strayFile (d : Nat) : File :=
  ⟨116, putHeader (putHeader (elfHeader 3) 52 (segment 0 0 0 1)) 84
    (segment 8 (KERNBASE + d * PGSIZE) 4 (2 ^ 32 - (KERNBASE + d * PGSIZE)))⟩

section
variable {L : Layout} {root : Nat → Option Nat} {s v v' : State} {x x' : Xstate} {k d f : Nat}
  {i : Nat} {p : Proc} {F : File} {path : List UInt8} {argv : List (List UInt8)}
  {E : Stop → Prop} {T : XStop → Prop} {Q : Int → Xstate → Prop}

/-- `exec` of a program, up to its segments. -/
theorem exec_program (hO : Own L root x.sys.vm) (hk : root k = none) (hsize : 52 ≤ F.size)
    (hmagic : F.magic = ELF_MAGIC)
    (hnone : x.sys.vm.freelist.length < 65 → ∀ x', x'.sys.vm.freelist = [] → Q (-1) x')
    (hsome : ∀ d x', Built L root k d x.sys.vm x'.sys.vm →
      wp (loadSegments L F d F.phnum F.phoff 0)
        (fun r x'' => r = none ∧ wp (bad L (some d) true) Q T x'') T x') :
    wp (exec L i p (some F) path argv) Q T x := by
  have hread : readi F 0 52 = some 52 := by
    rw [readi, if_neg (by omega), if_neg (by omega)]
  unfold exec
  simp only [wp_bind, wp_modify, hread, hmagic]
  rw [if_neg (by decide), if_neg (fun h => h rfl)]
  simp only [wp_bind, wp_vm]
  refine wp_post (setupkvm_exact hO hk) ?_
  rintro r v (⟨rfl, hlt, hnil⟩ | ⟨d, rfl, hb⟩)
  · exact hnone hlt _ hnil
  · simp only [wp_bind]
    refine wp_post (hsome d _ hb) ?_
    rintro r x'' ⟨rfl, hbad⟩
    exact hbad

/-- A frame of the old free list that the books have lost. -/
theorem bad_leaks (hc : Clean L root k d x.sys.vm) (hf : f ∈ s.freelist)
    (hlost : ¬ Total root k x.sys.vm [] f) :
    wp (bad L (some d) true) (fun r x' => r = -1 ∧ ¬ SameFree s x'.sys.vm) T x := by
  refine wp_post (bad_spec hc true) ?_
  rintro r x' ⟨rfl, hfree⟩
  exact ⟨rfl, fun hsame => hlost ((hfree f).1 ((hsame f).2 hf))⟩

/-- Too few frames for a page directory. -/
theorem emptyFile_leaks (hO : Own L root x.sys.vm) (hpos : 0 < x.sys.vm.freelist.length)
    (hlt : x.sys.vm.freelist.length < 65) : wp (exec L i p (some emptyFile) path argv)
      (fun r x' => r = -1 ∧ ¬ SameFree x.sys.vm x'.sys.vm) T x := by
  obtain ⟨k, hk⟩ := hO.slot
  refine exec_program hO hk le_rfl (elfHeader_fields (by decide)).1 (fun _ x' hnil => ⟨rfl, ?_⟩) ?_
  · intro hsame
    obtain ⟨f, hf⟩ := List.exists_mem_of_length_pos hpos
    have := (hsame f).2 hf
    rw [hnil] at this
    cases this
  · intro d x' hb
    have := hb.enough
    omega

/-- The last frame goes to a page that gets no table. -/
theorem allocuvm_lost (hc : Clean L root k d v) (hone : v.freelist = [f])
    (hmiss : ¬ present (v.mem d 0) = true) :
    wp (allocuvm L d 0 8192) (fun r v' => r = 0 ∧ Clean L root k d v' ∧
      ¬ Total root k v' [] f) E v := by
  have hturns : TURNS = 2 ^ 20 - 1 + 1 + 1 := rfl
  have hzero : PGROUNDUP 0 = 0 := rfl
  unfold allocuvm
  rw [if_neg (by decide), if_neg (by decide), hturns, hzero, allocuvmFrom, if_pos (by decide)]
  refine wp_seq (kalloc_spec hc.own) fun r v1 h₁ => ?_
  cases r with
  | none => rw [h₁.empty rfl] at hone; cases hone
  | some g =>
    have hfree := h₁.freelist
    rw [hone] at hfree
    obtain ⟨rfl, hnil⟩ := List.cons.inj hfree
    simp only [setFrame, wp_bind, wp_modify]
    generalize hs' : ({ v1 with mem := update v1.mem f fun _ => 0 } : State) = v2
    have habs : ¬ present (pteAt v d 0) = true := not_present_of_table hmiss
    refine wp_post (h₁.place hc.dir (by rw [← hs']) (by rw [← hs']) (by decide) (by decide)
      (by decide) fun hp => absurd hp habs) fun b v3 h3 => ?_
    have hempty : v2.freelist = [] := by rw [← hs']; exact hnil.symm
    have hb : b = false := by
      rw [← Bool.not_eq_true, h3.map.result, hempty, h3.dir]
      simp only [ne_eq, not_true_eq_false, or_false]
      exact hmiss
    subst hb
    have hstay := h3.stay rfl
    have hc2 : Clean L root k d v2 := by
      refine ⟨hstay ▸ h3.map.own, hc.dir, fun va h1 h2 => ?_, fun va h1 hp => ?_⟩
      · rw [h3.pte]; exact hc.kern va h1 h2
      · rw [h3.pte] at hp ⊢; exact hc.sound va h1 hp
    have hnext : (0 + PGSIZE) % 2 ^ 32 = 4096 := rfl
    rw [hstay, hnext, allocuvmFrom, if_pos (by decide)]
    refine wp_seq kalloc_raw ?_
    rintro r v4 ⟨-, hfree4, hstay4⟩
    cases r with
    | some g => rw [hempty] at hfree4; cases hfree4
    | none =>
      rw [hstay4 rfl]
      refine wp_seq (deallocuvm_ledger hc2.own hc2.dir (by decide) (by decide)
        (.inr fun va _ h2 _ hp => hc2.sound va (h2.trans (by decide)) hp)) fun _ v5 h5 => ?_
      refine ⟨rfl, h5.clean hc2, ?_⟩
      rw [h5.total]
      rintro (hf | ⟨π, hf⟩ | hf)
      · exact h3.fresh.free hf
      · exact h3.fresh.node k π hf
      · cases hf

/-- One frame more than those of a page directory. -/
theorem twoPages_leaks (hO : Own L root x.sys.vm) (hn : x.sys.vm.freelist.length = 66) :
    wp (exec L i p (some twoPages) path argv)
      (fun r x' => r = -1 ∧ ¬ SameFree x.sys.vm x'.sys.vm) T x := by
  obtain ⟨k, hk⟩ := hO.slot
  have hfields := elfHeader_fields (n := 1) (by decide)
  have hphnum : twoPages.phnum = 1 := (leGet_putHeader (.inl (by decide))).trans hfields.2.2
  have hphoff : twoPages.phoff = 52 := (leGet_putHeader (.inl (by decide))).trans hfields.2.1
  have hph : proghdr twoPages 52 = segment 0 0 0 8192 :=
    proghdr_putHeader (by decide) (by decide) (by decide) (by decide) (by decide)
  refine exec_program hO hk (by decide) ((leGet_putHeader (.inl (by decide))).trans hfields.1)
    (fun hlt => by omega) fun d x' hb => ?_
  have hlen : x'.sys.vm.freelist.length = 1 := by rw [hb.free, List.length_drop]; omega
  obtain ⟨f, hf⟩ := List.length_eq_one_iff.1 hlen
  rw [hphnum, hphoff, loadSegments, hph, if_neg (by decide), if_neg (by decide),
    if_neg (by decide)]
  simp only [wp_bind, wp_vm]
  refine wp_post (allocuvm_lost hb.clean hf (hb.empty 0 (by decide))) ?_
  rintro r v ⟨rfl, hc, hlost⟩
  rw [if_pos rfl]
  refine ⟨rfl, bad_leaks hc (f := f) ?_ hlost⟩
  refine List.mem_of_mem_drop (i := 65) ?_
  rw [← hb.free, hf]
  exact List.mem_singleton_self f

/-- An entry of a page directory is cleared: what was behind it is in nobody's books. -/
theorem Own.unlink (hO : Own L root v) (hk : root k = some d) {j : Nat}
    (hmem : v'.mem = update v.mem d (update (v.mem d) j 0)) (hfree : v'.freelist = v.freelist) :
    Own L root v' ∧ (∀ va, PDX va ≠ j → pteAt v' d va = pteAt v d va) ∧
      (∀ k' π g, node root v' k' π = some g → node root v k' π = some g) ∧
      node root v' k [j] = none := by
  have hdir : v'.mem d = update (v.mem d) j 0 := by rw [hmem, update_self]
  have hroot : node root v k [] = some d := hk
  have htable : ∀ va, present (v.mem d (PDX va)) = true → pteFrame (v.mem d (PDX va)) ≠ d := by
    intro va hp he
    have ht : node root v k [PDX va] = some d := by rw [node_table hk (PDX_lt va), if_pos hp, he]
    have := (hO.distinct k _ k _ d ht hroot).2
    cases this
  have hpte : ∀ va, PDX va ≠ j → pteAt v' d va = pteAt v d va := by
    intro va hva
    rw [pteAt, pteAt, hdir, update_of_ne hva]
    split
    · next hp => rw [hmem, update_of_ne (htable va hp)]
    · rfl
  have hmiss : ¬ present (v'.mem d j) = true := by
    rw [hdir, update_self]; decide
  have hnone : node root v' k [j] = none := by
    cases hn : node root v' k [j] with
    | none => rfl
    | some g =>
      rcases node_cases hk hn with ⟨h, -⟩ | ⟨i, -, h, hp, -⟩ | ⟨va, -, h, -⟩
      · cases h
      · cases h; exact absurd hp hmiss
      · cases h
  have hsub : ∀ k' π g, node root v' k' π = some g → node root v k' π = some g := by
    intro k' π g hn
    by_cases hkk : k' = k
    · subst hkk
      rcases node_cases hk hn with ⟨rfl, rfl⟩ | ⟨i, hi, rfl, hp, rfl⟩ | ⟨va, hva, rfl, hown⟩
      · exact hk
      · have hij : i ≠ j := by rintro rfl; exact hmiss hp
        rw [hdir, update_of_ne hij] at hp ⊢
        rw [node_table hk hi, if_pos hp]
      · have hvj : PDX va ≠ j := fun e =>
          not_present_of_table (e ▸ hmiss) (present_of_owned hown)
        rw [node_pteAt hk, ← hpte va hvj, hown]
    · rw [← hn]
      refine (Shape.node_congr rfl (fun π' a _ ha => ?_) π).symm
      rw [hmem, update_of_ne]
      rintro rfl
      exact hkk (hO.distinct _ _ _ _ _ ha hroot).1
  refine ⟨⟨hfree ▸ hO.nodup, hfree ▸ hO.free, hO.distinct.mono hsub, fun k' π g hn => ?_,
    fun k' π g hn => hO.valid k' π g (hsub k' π g hn)⟩, hpte, hsub, hnone⟩
  rw [hfree]
  exact hO.notfree k' π g (hsub k' π g hn)

/-- Four zero bytes stored at the start of a frame. -/
theorem poke_zero {c : Nat → Nat} {src : Bytes} (hsrc : ∀ j < 4, src j = 0) :
    poke c 0 4 src = update c 0 0 := by
  funext j
  by_cases hj : j = 0
  · subst hj
    rw [poke, if_neg (by omega), update_self]
    have hz : (Bytes.blit (frameBytes c) 0 4 src).leGet 0 4 = Bytes.leGet (fun _ => 0) 0 4 := by
      refine Bytes.leGet_congr 4 0 fun j h1 h2 => ?_
      rw [Bytes.blit_of_mem (by omega)]
      exact hsrc _ (by omega)
    exact hz.trans (Bytes.leGet_zero 4 0)
  · rw [poke, if_pos (by omega), update_of_ne hj]

/-- One page and its table, with frames for both. -/
theorem allocuvm_one (hc : Clean L root k d v) (hlen : 2 ≤ v.freelist.length)
    (hmiss : ¬ present (v.mem d 0) = true) :
    wp (allocuvm L d 0 1) (fun r v' => r = 1 ∧ Growing L root k d 0 1 v v') E v := by
  have hturns : TURNS = 2 ^ 20 - 1 + 1 + 1 := rfl
  have hzero : PGROUNDUP 0 = 0 := rfl
  unfold allocuvm
  rw [if_neg (by decide), if_neg (by decide), hturns, hzero, allocuvmFrom, if_pos (by decide)]
  refine wp_seq (kalloc_spec hc.own) fun r v1 h1 => ?_
  cases r with
  | none =>
    rw [h1.empty rfl] at hlen
    exact absurd hlen (by decide)
  | some g =>
    simp only [setFrame, wp_bind, wp_modify]
    generalize hs' : ({ v1 with mem := update v1.mem g fun _ => 0 } : State) = v2
    have habs : ¬ present (pteAt v d 0) = true := not_present_of_table hmiss
    refine wp_post (h1.place hc.dir (by rw [← hs']) (by rw [← hs']) (by decide) (by decide)
      (by decide) fun hp => absurd hp habs) fun b v3 h3 => ?_
    have hb : b = true := by
      refine h3.map.result.2 (.inr fun hnil => ?_)
      have := h3.free
      rw [hnil] at this
      rw [this] at hlen
      exact absurd hlen (by simp)
    subst hb
    have hnext : (0 + PGSIZE) % 2 ^ 32 = 4096 := rfl
    rw [hnext, allocuvmFrom, if_neg (by decide)]
    refine ⟨rfl, ?_⟩
    have h0 : (0 : Nat) = 0 + 0 * PGSIZE := rfl
    exact (Growing.refl hc.own).step hc.dir (by decide) (by decide) (by decide) h3

/-- Pages of an address space that has grown in its user's part. -/
theorem Growing.clean {a j : Nat} (h : Growing L root k d a j v v') (hc : Clean L root k d v)
    (hlt : a + j * PGSIZE ≤ KERNBASE) : Clean L root k d v' := by
  refine ⟨h.own, hc.dir, fun va h1 h2 => ?_, fun va h1 hp => ?_⟩
  · rcases h.pages va h1 with he | ⟨-, he, -⟩
    · rw [he]; exact hc.kern va h1 h2
    · omega
  · have hva : va < 2 ^ 32 := by lia
    rcases h.pages va hva with he | ⟨-, -, he⟩
    · rw [he] at hp ⊢; exact hc.sound va h1 hp
    · exact he

/-- Loading four zero bytes at the address of the page directory in memory clears its first
entry. -/
theorem loaduvm_stray (hc : Clean L root k d x.sys.vm) (hF : F.size = 116)
    (hzero : ∀ j < 4, F.byte (8 + j) = 0) (hd : d < NFRAMES)
    (hp : present (pteAt x.sys.vm d (KERNBASE + d * PGSIZE)) = true)
    (hpte : pteFrame (pteAt x.sys.vm d (KERNBASE + d * PGSIZE)) = d) :
    wp (loaduvm F d (KERNBASE + d * PGSIZE) 8 4) (fun r x' => r = true ∧
      x'.sys.vm.mem = update x.sys.vm.mem d (update (x.sys.vm.mem d) 0 0) ∧
      x'.sys.vm.freelist = x.sys.vm.freelist) T x := by
  have hturns : TURNS = 2 ^ 20 - 1 + 1 + 1 := rfl
  have hal : ¬ (KERNBASE + d * PGSIZE) % PGSIZE ≠ 0 := by lia
  have haddr : (KERNBASE + d * PGSIZE + 0) % 2 ^ 32 = KERNBASE + d * PGSIZE := by
    lia
  have hread : readi F ((8 + 0) % 2 ^ 32) 4 = some 4 := by
    rw [readi, hF]; rfl
  unfold loaduvm
  simp only [wp_bind, wp_stopIf]
  refine ⟨fun h => absurd h hal, fun _ => ?_⟩
  rw [hturns, loaduvmFrom, if_pos (by decide), haddr]
  simp only [wp_bind, wp_vm]
  refine wp_post (walkpgdir_look (s := x.sys.vm) hc.dir (KERNBASE + d * PGSIZE)) ?_
  rintro r v ⟨rfl, rfl⟩
  cases ht : node root x.sys.vm k [PDX (KERNBASE + d * PGSIZE)] with
  | none =>
    rw [pteAt_of_no_table hc.dir ht] at hp
    exact absurd hp (by decide)
  | some t =>
    have hn : (if 4 - 0 < PGSIZE then 4 - 0 else PGSIZE) = 4 := rfl
    rw [pteAt_of_table hc.dir ht] at hpte
    simp only [Option.map_some, wp_bind, wp_vm, getWord, wp_gets, hn, hread, hpte, storeBytes]
    rw [if_neg (by decide)]
    simp only [wp_modify, if_true]
    have hnext : (0 + PGSIZE) % 2 ^ 32 = 4096 := rfl
    rw [hnext, loaduvmFrom, if_neg (by decide)]
    refine ⟨rfl, ?_, rfl⟩
    have hsrc : ∀ j < 4, (fun j => F.byte ((8 + 0) % 2 ^ 32 + j)) j = 0 := hzero
    rw [poke_zero hsrc]

/-- One segment that is loaded. -/
theorem loadSegments_load {n off sz : Nat} {h : Proghdr} {Q : Option Nat → Xstate → Prop}
    (hread : readi F off 32 = some 32) (hph : proghdr F off = h) (htype : h.type = ELF_PROG_LOAD)
    (hsz : ¬ h.memsz < h.filesz)
    (hrest : wp (allocuvm L d sz ((h.vaddr + h.memsz) % 2 ^ 32)) (fun r v => r ≠ 0 ∧
      wp (loaduvm F d h.vaddr h.off h.filesz) (fun b x' => b = true ∧
        wp (loadSegments L F d n ((off + 32) % 2 ^ 32) r) Q T x')
        T { x with sys := { x.sys with vm := v } }) (fun e => T (.vm e)) x.sys.vm) :
    wp (loadSegments L F d (n + 1) off sz) Q T x := by
  rw [loadSegments, hph, if_neg (fun e => e hread), if_neg (fun e => e htype), if_neg hsz]
  simp only [wp_bind, wp_vm]
  refine wp_post hrest ?_
  rintro r v ⟨hr, hload⟩
  rw [if_neg hr]
  refine wp_seq hload ?_
  rintro _ x' ⟨rfl, hnext⟩
  exact hnext

/-- A segment without bytes in the file. -/
theorem loaduvm_nothing {off : Nat} :
    wp (loaduvm F d 0 off 0) (fun b x' => b = true ∧ x' = x) T x := by
  have hturns : TURNS = 2 ^ 20 + 1 := rfl
  unfold loaduvm
  simp only [wp_bind, wp_stopIf]
  refine ⟨fun h => absurd h (by decide), fun _ => ?_⟩
  rw [hturns, loaduvmFrom, if_neg (by decide)]
  exact ⟨rfl, rfl⟩

/-- What `exec` reads of the file. -/
structure StrayFile (F : File) (d : Nat) : Prop where
  size : F.size = 116
  magic : F.magic = ELF_MAGIC
  phnum : F.phnum = 3
  phoff : F.phoff = 52
  first : proghdr F 52 = segment 0 0 0 1
  second : proghdr F 84 =
    segment 8 (KERNBASE + d * PGSIZE) 4 (2 ^ 32 - (KERNBASE + d * PGSIZE))
  zero : ∀ j < 4, F.byte (8 + j) = 0

theorem strayFile_spec (hd : d < NFRAMES) : StrayFile (strayFile d) d := by
  have hvaddr : KERNBASE + d * PGSIZE < 2 ^ 32 := by
    lia
  have hfields := elfHeader_fields (n := 3) (by decide)
  have hget : ∀ o w, o + w ≤ 52 → (strayFile d).byte.leGet o w = (elfHeader 3).leGet o w :=
    fun o w ho => (leGet_putHeader (.inl (by omega))).trans (leGet_putHeader (.inl ho))
  refine ⟨rfl, (hget 0 4 (by decide)).trans hfields.1, (hget 44 2 (by decide)).trans hfields.2.2,
    (hget 28 4 (by decide)).trans hfields.2.1, ?_, ?_, fun j hj => ?_⟩
  · exact (proghdr_putHeader_before (by decide)).trans
      (proghdr_putHeader (by decide) (by decide) (by decide) (by decide) (by decide))
  · exact proghdr_putHeader (show 1 < 2 ^ 32 by decide) (show 8 < 2 ^ 32 by decide) hvaddr
      (show 4 < 2 ^ 32 by decide) (by grind [segment])
  · have hbyte : (strayFile d).byte (8 + j) = elfHeader 3 (8 + j) :=
      (putHeader_outside (by omega)).trans (putHeader_outside (by omega))
    rw [hbyte, elfHeader, Bytes.lePut_of_outside (by omega), Bytes.lePut_of_outside (by omega),
      Bytes.lePut_of_outside (by omega)]

/-- A program that makes `exec` lose a page table and a page, whenever there are two frames more than
those of a page directory. -/
theorem strayFile_leaks (hO : Own L root x.sys.vm) (hn : 67 ≤ x.sys.vm.freelist.length)
    (hd : x.sys.vm.freelist.head? = some d) (hF : StrayFile F d) :
    wp (exec L i p (some F) path argv)
      (fun r x' => r = -1 ∧ ¬ SameFree x.sys.vm x'.sys.vm) T x := by
  obtain ⟨k, hk⟩ := hO.slot
  refine exec_program hO hk (by rw [hF.size]; decide) hF.magic (fun hlt => by omega)
    fun d' x' hb => ?_
  obtain rfl : d' = d := Option.some.inj (hb.head.symm.trans hd)
  have hvalid := (hb.own.valid k [] d' hb.clean.dir).2
  have hlen : 2 ≤ x'.sys.vm.freelist.length := by rw [hb.free, List.length_drop]; omega
  have hread1 : readi F 52 32 = some 32 := by rw [readi, hF.size]; rfl
  have hread2 : readi F 84 32 = some 32 := by rw [readi, hF.size]; rfl
  have hread3 : readi F (((52 + 32) % 2 ^ 32 + 32) % 2 ^ 32) 32 = some 0 := by
    rw [readi, hF.size]; rfl
  rw [hF.phnum, hF.phoff]
  refine loadSegments_load hread1 hF.first rfl (by decide) ?_
  refine wp_post (allocuvm_one hb.clean hlen (hb.empty 0 (by decide))) ?_
  rintro r v ⟨rfl, hg⟩
  refine ⟨by decide, wp_post loaduvm_nothing ?_⟩
  rintro _ x1 ⟨rfl, rfl⟩
  refine ⟨rfl, ?_⟩
  have hc : Clean L (update root k (some d')) k d' v := hg.clean hb.clean (by decide)
  -- the second segment clears the first entry of the page directory
  have hkern : KERNBASE + d' * PGSIZE < KERNBASE + PHYSTOP := by
    lia
  have hsum : (KERNBASE + d' * PGSIZE + (2 ^ 32 - (KERNBASE + d' * PGSIZE))) % 2 ^ 32 = 0 := by
    lia
  have hpte : pteAt v d' (KERNBASE + d' * PGSIZE) =
      pteAt x'.sys.vm d' (KERNBASE + d' * PGSIZE) := by
    refine (hg.pages _ ?_).resolve_right fun h => ?_
    · lia
    · lia
  refine loadSegments_load hread2 hF.second rfl ?_ ?_
  · grind [segment]
  simp only [segment, hsum]
  refine ⟨by decide, ?_⟩
  refine wp_post (loaduvm_stray (k := k) hc hF.size hF.zero hvalid ?_ ?_) ?_
  · rw [hpte]; exact hb.mapped _ (Nat.le_add_right _ _) hkern
  · rw [hpte, hb.direct _ (Nat.le_add_right _ _) hkern]
    simp only [KERNBASE, PGSIZE]
    omega
  rintro _ x2 ⟨rfl, hmem, hfree⟩
  refine ⟨rfl, ?_⟩
  -- the third header is missing
  rw [loadSegments, hread3, if_pos (by decide)]
  refine ⟨rfl, ?_⟩
  obtain ⟨hO2, hpte2, hsub, hgone⟩ := hc.own.unlink hc.dir hmem hfree
  obtain ⟨t, ht⟩ : ∃ t, node (update root k (some d')) v k [0] = some t := by
    rw [← present_iff_table hc.dir (by decide), hg.tables 0 (by decide)]
    exact .inr ⟨0, by decide, rfl⟩
  refine bad_leaks (k := k) (f := t) ⟨hO2, hc.dir, fun va h1 h2 => ?_, fun va h1 hp => ?_⟩ ?_ ?_
  · rw [hpte2 va (by grind [PDX])]
    exact hc.kern va h1 h2
  · by_cases hva : PDX va = 0
    · refine absurd hp (not_present_of_table ?_)
      rw [hva, hmem, update_self, update_self]
      decide
    · rw [hpte2 va hva] at hp ⊢
      exact hc.sound va h1 hp
  · rw [← hb.total, ← hg.total]
    exact .inr (.inl ⟨_, ht⟩)
  · rintro (hf | ⟨π, hf⟩ | hf)
    · rw [hfree] at hf
      exact hc.own.notfree _ _ _ ht hf
    · obtain rfl := (hc.own.distinct _ _ _ _ _ (hsub _ _ _ hf) ht).2
      rw [hgone] at hf
      cases hf
    · cases hf

/-- **When a failed `exec` leaks nothing, whatever the program.** -/
theorem exec_law (hO : Own L root x.sys.vm) (i : Nat) (p : Proc) :
    ExecLaw L i p x ↔ ExecOk x.sys.vm.freelist.length := by
  constructor
  · intro hlaw
    by_contra hno
    obtain ⟨h0, h65⟩ := not_or.1 hno
    -- a program for every other number of frames
    have hprogram : ∃ F, wp (exec L i p (some F) [] []) (fun r x' => r = -1 ∧
        ¬ SameFree x.sys.vm x'.sys.vm) (fun _ => False) x := by
      rcases Nat.lt_or_ge x.sys.vm.freelist.length 65 with hlt | hge
      · exact ⟨emptyFile, emptyFile_leaks hO (by omega) hlt⟩
      · rcases Nat.lt_or_ge x.sys.vm.freelist.length 67 with hlt | hge'
        · exact ⟨twoPages, twoPages_leaks hO (by omega)⟩
        · obtain ⟨d, l, hl⟩ := List.exists_cons_of_ne_nil (l := x.sys.vm.freelist) fun e => by
            rw [e] at hge; exact absurd hge (by decide)
          have hd : d < NFRAMES := (hO.free d (by rw [hl]; exact List.mem_cons_self)).2
          have hhead : x.sys.vm.freelist.head? = some d := by rw [hl]; rfl
          have hspec := strayFile_spec hd
          generalize strayFile d = F at hspec
          exact ⟨F, strayFile_leaks hO hge' hhead hspec⟩
    obtain ⟨F, hF⟩ := hprogram
    obtain ⟨r, x', hrun, rfl, hleak⟩ := wp_total hF
    exact hleak (hlaw _ _ _ x' hrun)
  · intro hok ip path argv x' hrun
    have hsame := wp_ok (exec_ok (T := fun _ => True) hO hok) hrun
    exact hsame

/-! ## All of them -/

end

end Dixv6.Vm
