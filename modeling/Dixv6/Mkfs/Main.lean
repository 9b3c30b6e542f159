import Dixv6.Mkfs.Append
import Dixv6.Sys.Rep

/-!
# The image that `mkfs` makes

`image files` is what the image is to hold: the root directory with an entry for each input file,
and the files. `main_spec` says that `mkfs` makes that image or stops.

`appended_reads` says which files the kernel then reads back: `mkfs` has no doubly indirect blocks,
so a file that needs one is written past the end of an array (`main_long_file`).
-/

namespace Dixv6.Mkfs

open Lib Fs Sys Function

/-! ## What the image is to hold -/

/-- The bytes of an input file. -/
def Source.data (f : Source) : List UInt8 := (f.reads.getD []).flatten

/-- The entries of the root directory. -/
def entries (files : List Source) : List (Nat × Name) :=
  (ROOTINO, dot) :: (ROOTINO, dotdot) :: files.mapIdx fun j f => (j + 2, f.name)

/-- The bytes of the root directory. -/
def rootData (files : List Source) : List UInt8 :=
  ((entries files).map fun e => entry e.1 e.2).flatten

/-- The files of the image, by inode number. -/
def image (files : List Source) (i : Nat) : Option Content :=
  if i = ROOTINO then some ⟨T_DIR, rootData files⟩
  else if i < 2 then none
  else files[i - 2]?.map fun f => ⟨T_FILE, f.data⟩

/-- The blocks below the first free one. -/
def taken (files : List Source) : Nat :=
  34 + blocks (count ((files.length + 2) * DESIZE)) +
    (files.map fun f => blocks (count f.data.length)).sum

section
variable {files : List Source} {f : Source} {i : Nat}

theorem length_entry (inum : Nat) (name : Name) : (entry inum name).length = DESIZE :=
  length_bytes _ _

theorem length_entries (files : List Source) : (entries files).length = files.length + 2 := by
  simp [entries]

theorem length_rootData (files : List Source) :
    (rootData files).length = (files.length + 2) * DESIZE := by
  have hsum : ∀ l : List (Nat × Name), ((l.map fun e => entry e.1 e.2).flatten).length =
      l.length * DESIZE := fun l => by
    induction l with
    | nil => rfl
    | cons e l ih =>
      rw [List.map_cons, List.flatten_cons, List.length_append, ih, length_entry, List.length_cons,
        Nat.succ_mul, Nat.add_comm]
  rw [rootData, hsum, length_entries]

theorem rootData_concat (files : List Source) (f : Source) :
    rootData (files ++ [f]) = rootData files ++ entry (files.length + 2) f.name := by
  simp [rootData, entries, List.mapIdx_append]

theorem image_root (files : List Source) : image files ROOTINO = some ⟨T_DIR, rootData files⟩ :=
  if_pos rfl

theorem image_none (h : files.length + 2 ≤ i) : image files i = none := by
  have hne : i ≠ ROOTINO := by lia
  rw [image, if_neg hne, if_neg (by omega), List.getElem?_eq_none (by omega)]
  rfl

theorem image_concat (files : List Source) (f : Source) : image (files ++ [f]) =
      update (update (image files) ROOTINO
        (some ⟨T_DIR, rootData files ++ entry (files.length + 2) f.name⟩))
        (files.length + 2) (some ⟨T_FILE, f.data⟩) := by
  funext i
  by_cases hi : i = files.length + 2
  · subst hi
    have hne : files.length + 2 ≠ ROOTINO := by lia
    rw [update_self, image, if_neg hne, if_neg (by omega), Nat.add_sub_cancel,
      List.getElem?_append_right (Nat.le_refl _), Nat.sub_self]
    rfl
  · grind [image_root, rootData_concat, image]

end

/-! ## The run -/

/-- The image after some of the files. -/
structure Made (files : List Source) (s : Img) : Prop where
  built : Built s (image files)
  inodes : s.freeinode = files.length + 2
  taken : s.freeblock = taken files

section
variable {s s' : Img} {E : Stop → Prop} {files : List Source} {f : Source}

/-- The image file is filled with zeroes. -/
theorem zeroes_spec {n : Nat} {s : Img} (hs : s.sect = fun _ => zeroBlock) (hn : s.nsect = 0) :
    wp (Comp.forM (fun i => wsect i zeroBlock) (List.range n)) (fun _ s' =>
      s' = { s with nsect := n }) E s := by
  have hloop : wp (Comp.forM (fun i => wsect i zeroBlock) (List.range n)) (fun _ s' =>
      s' = { s with nsect := s'.nsect } ∧ s'.nsect ≤ n ∧
        ([] : List Nat) = List.range' s'.nsect (n - s'.nsect)) E s := by
    refine wp_forM (I := fun l s' => s' = { s with nsect := s'.nsect } ∧ s'.nsect ≤ n ∧
      l = List.range' s'.nsect (n - s'.nsect)) ?_ _ s ⟨rfl, by omega, ?_⟩
    · rintro a l s1 ⟨h1, h2, h3⟩
      obtain ⟨m, hm⟩ : ∃ m, n - s1.nsect = m + 1 :=
        Nat.exists_eq_succ_of_ne_zero fun h0 => by rw [h0] at h3; cases h3
      rw [hm, List.range'_succ, List.cons.injEq] at h3
      obtain ⟨rfl, rfl⟩ := h3
      rw [wsect, wp_modify, Nat.max_eq_right (by omega)]
      refine ⟨?_, by simp only; omega, ?_⟩
      · grind [update_eq_self]
      · simp only
        congr 1
        omega
    · rw [hn, Nat.sub_zero, List.range_eq_range']
  refine wp_post hloop ?_
  rintro _ s' ⟨h1, h2, h3⟩
  have : n - s'.nsect = 0 := by simpa using congrArg List.length h3.symm
  rw [h1]
  congr 1
  omega

/-- An image without files. -/
theorem built_empty (hs : s.sect = update (fun _ => zeroBlock) 1
      (putSb zeroBlock { size, nblocks, ninodes, nlog })) (hn : s.nsect = size)
    (hf : s.freeblock = 34) (hu : s.usedblocks = 34) : Built s fun _ => none := by
  have hzero : ∀ b, b ≠ 1 → s.sect b = zeroBlock := fun b hb => by
    rw [hs, update_of_ne hb]
  have htype : ∀ i, (table geo s.sect i).type = 0 := fun i => by
    rw [table]
    split
    · rw [dinodeAt, hzero _ (by grind [IBLOCK]), getDinode, getShort]
      exact congrArg (fun v => (UInt16.ofNat v).toInt16) (Bytes.leGet_zero 2 _)
    · rfl
  have hnode : ∀ x π, node geo (table geo s.sect) s.disk x π = none := fun x =>
    Shape.node_none_of_root (by simp only [root, htype, ne_eq, not_true_eq_false, false_and,
      and_false, if_false])
  refine ⟨⟨hn, ?_, fun b h1 _ => hzero b (by omega), by rw [hu, hf], by omega, by rw [hf]; decide,
    fun b hb => hzero b (by omega), ⟨fun k π k' π' a h => ?_, fun x π b h => ?_, fun b hb => ?_⟩,
    fun b h1 h2 => by omega⟩, fun i _ => htype i, fun i f h => (by cases h), fun i f h => (by cases h),
    fun i f h => (by cases h), fun i f h => (by cases h)⟩
  · rw [hs, update_self]
    decide +kernel
  · grind
  · rw [hnode] at h
    cases h
  · rw [geo_dstart] at hb
    rw [Img.disk, used_withBits (by lia), hf]
    exact decide_eq_true hb

/-- The empty image. -/
theorem format_spec (hs : s.sect = fun _ => zeroBlock) (hn : s.nsect = 0) (hf : s.freeblock = 34)
    (hu : s.usedblocks = 34) {n : Nat} (hsize : n = size) : wp (format n) (fun _ s' =>
      Built s' (fun _ => none) ∧ s'.freeinode = s.freeinode ∧ s'.freeblock = 34) E s := by
  rw [format, wp_bind]
  refine wp_post (zeroes_spec hs hn) ?_
  rintro _ s1 rfl
  rw [wsect, wp_modify]
  refine ⟨built_empty (by rw [hs]) ?_ hf hu, rfl, hf⟩
  rw [hsize]
  rfl

/-- **Super block and root directory.** -/
theorem prepare_spec : wp prepare (fun _ s => Made [] s) E Img.new := by
  have hmeta : metablocks = 34 := by decide
  have hsize : nblocks + metablocks + nlog = size := by decide
  rw [prepare, wp_bind, wp_modify, wp_bind, wp_stopIf]
  refine ⟨fun e => absurd hsize e, fun _ => ?_⟩
  refine wp_seq (format_spec rfl rfl hmeta hmeta hsize) ?_
  rintro _ s1 ⟨hbuilt, hino, hfree⟩
  refine wp_seq (ialloc_spec hbuilt (by rw [hino]; decide) rfl (by decide)) ?_
  rintro i s2 ⟨rfl, hbuilt2, hino2, hfree2⟩
  have hone : s1.freeinode = ROOTINO := hino
  rw [hone] at hbuilt2 hino2 ⊢
  rw [wp_bind, wp_stopIf]
  refine ⟨fun e => absurd rfl e, fun _ => ?_⟩
  have hlen := length_entry ROOTINO
  refine wp_seq (iappend_spec hbuilt2 (update_self _ _ _) (.inl ?_) (.inr ?_)) ?_
  · rw [hlen]
    decide
  · rw [hfree2, hfree, hlen]
    decide
  rintro _ s3 ⟨hbuilt3, hino3, hfree3⟩
  have hroom : s3.freeblock = 35 := by
    rw [hlen, hfree2, hfree] at hfree3
    exact hfree3
  refine wp_post (iappend_spec hbuilt3 (update_self _ _ _) (.inl ?_) (.inr ?_)) ?_
  · rw [List.nil_append, hlen, hlen]
    decide
  · rw [hroom, List.nil_append, hlen, hlen]
    decide
  rintro _ s4 ⟨hbuilt4, hino4, hfree4⟩
  refine ⟨?_, ?_, ?_⟩
  · have himage : image [] = update (update (update (fun _ => none)
        ROOTINO (some ⟨T_DIR, []⟩)) ROOTINO (some ⟨T_DIR, [] ++ entry ROOTINO dot⟩)) ROOTINO
        (some ⟨T_DIR, ([] ++ entry ROOTINO dot) ++ entry ROOTINO dotdot⟩) := by
      rw [update_idem, update_idem]
      funext j
      by_cases hj : j = ROOTINO
      · rw [hj, update_self, image_root]
        simp [rootData, entries]
      · rw [update_of_ne hj, image, if_neg hj]
        simp
    rw [himage]
    exact hbuilt4
  · rw [hino4, hino3, hino2]
    rfl
  · rw [List.nil_append, hlen, hlen, hroom] at hfree4
    have h1 : blocks (count DESIZE) = 1 := by decide
    have h2 : blocks (count (DESIZE + DESIZE)) = 1 := by decide
    have h3 : taken [] = 35 := by decide
    omega

/-- **One file more.** -/
theorem addFile_spec (h : Made files s) (hlen : files.length < 198)
    (hslash : slash ∈ f.arg → E .slash) (hopen : f.reads = none → E .open)
    (hover : f.data.length ≤ LIMIT * 512 ∨ E .overrun)
    (hroom : E .read ∨ taken (files ++ [f]) ≤ size) :
    wp (addFile f) (fun _ s' => Made (files ++ [f]) s') E s := by
  rw [addFile, wp_bind, wp_stopIf]
  refine ⟨hslash, fun _ => ?_⟩
  have hdata : f.data = (f.reads.getD []).flatten := rfl
  cases hreads : f.reads with
  | none => exact hopen hreads
  | some reads =>
    rw [hreads, Option.getD_some] at hdata
    have hne : files.length + 2 ≠ ROOTINO := by lia
    have hroot : (rootData files).length + (entry (files.length + 2) f.name).length =
        (files.length + 3) * DESIZE := by
      rw [length_rootData, length_entry]
      lia
    have hnext : (files ++ [f]).length + 2 = files.length + 3 := by simp
    have htaken : taken (files ++ [f]) + blocks (count ((files.length + 2) * DESIZE)) = taken files +
        blocks (count ((files.length + 3) * DESIZE)) + blocks (count f.data.length) := by
      simp only [taken, hnext, List.map_append, List.sum_append, List.map_cons, List.map_nil,
        List.sum_cons, List.sum_nil]
      omega
    have hzero : blocks (count ([] : List UInt8).length) = 0 := by decide
    have hs := h.taken
    refine wp_seq (ialloc_spec h.built (by rw [h.inodes]; lia)
      (image_none (Nat.le_of_eq h.inodes.symm)) (by decide)) ?_
    rintro i s1 ⟨rfl, hbuilt1, hino1, hfree1⟩
    rw [h.inodes] at hbuilt1 hino1 ⊢
    refine wp_seq (iappend_spec hbuilt1 ((update_of_ne hne.symm _ _).trans (image_root _))
      (.inl ?_) (hroom.imp_right fun hr => ?_)) ?_
    · rw [hroot]
      lia
    · rw [hroot, length_rootData]
      omega
    rintro _ s2 ⟨hbuilt2, hino2, hfree2⟩
    rw [hroot, length_rootData] at hfree2
    refine wp_post (appends_spec reads hbuilt2
      ((update_of_ne hne _ _).trans (update_self _ _ _)) ?_
      (hroom.imp_right fun hr => ?_)) ?_
    · grind
    · grind
    rintro _ s3 ⟨hbuilt3, hino3, hfree3⟩
    rw [← hdata, hzero, List.length_nil, Nat.zero_add] at hfree3
    refine ⟨?_, ?_, by omega⟩
    · rw [image_concat, update_comm hne.symm]
      rw [← hdata, List.nil_append, update_comm hne.symm, update_idem] at hbuilt3
      exact hbuilt3
    · grind

/-- **All files.** -/
theorem addFiles_spec : ∀ (rest files : List Source) (s : Img), Made files s →
    files.length + rest.length ≤ 198 → (∀ f ∈ rest, slash ∈ f.arg → E .slash) →
    (∀ f ∈ rest, f.reads = none → E .open) →
    ((∀ f ∈ rest, f.data.length ≤ LIMIT * 512) ∨ E .overrun) →
    (E .read ∨ taken (files ++ rest) ≤ size) →
    wp (Comp.forM addFile rest) (fun _ s' => Made (files ++ rest) s') E s
  | [], files, s, h, _, _, _, _, _ => by
    rw [List.append_nil]
    exact h
  | f :: rest, files, s, h, hlen, hslash, hopen, hover, hroom => by
    rw [List.length_cons] at hlen
    have happ : files ++ f :: rest = files ++ [f] ++ rest := by simp
    have hlen1 : (files ++ [f]).length = files.length + 1 := by simp
    have hmono : taken (files ++ [f]) ≤ taken (files ++ [f] ++ rest) := by
      have hroot : blocks (count (((files ++ [f]).length + 2) * DESIZE)) ≤
          blocks (count (((files ++ [f] ++ rest).length + 2) * DESIZE)) :=
        blocks_mono (by simp only [count, DESIZE, List.length_append]; omega)
      simp only [taken, List.map_append, List.sum_append] at hroot ⊢
      omega
    rw [happ] at hroom ⊢
    refine wp_seq (addFile_spec h (by omega) (hslash f (.head _)) (hopen f (.head _))
      (hover.imp_left fun hl => hl f (.head _)) (hroom.imp_right hmono.trans)) fun _ s1 h1 => ?_
    exact addFiles_spec rest (files ++ [f]) s1 h1 (by omega) (fun f hf => hslash f (.tail _ hf))
      (fun f hf => hopen f (.tail _ hf)) (hover.imp_left fun hl f hf => hl f (.tail _ hf)) hroom

/-- The size that the root directory is given. -/
def rounded (files : List Source) : Nat := ((files.length + 2) * DESIZE / BSIZE + 1) * BSIZE

/-- The image `s` finished, from `s₁`: the root directory has another size, and the bitmap is what
`Img.disk` said that it would be. -/
structure Finished (files : List Source) (s₁ s : Img) : Prop where
  made : Made files s₁
  few : s₁.freeblock < BPB
  inodes : s.freeinode = files.length + 2
  sb : getSb (s.sect 1) = geo.toSuperblock
  tbl : table geo s.sect = withInode (table geo s₁.sect) ROOTINO
    { table geo s₁.sect ROOTINO with size := UInt32.ofNat (rounded files) }
  own : Own geo size (table geo s.sect) s.sect
  node : ∀ x π, node geo (table geo s.sect) s.sect x π =
    node geo (table geo s₁.sect) s₁.disk x π
  byte : ∀ i o, fileByte geo (table geo s.sect) s.sect i o =
    fileByte geo (table geo s₁.sect) s₁.disk i o
  used : ∀ b < size, used geo s.sect b = decide (b < s₁.freeblock)

/-- A bitmap in one block. -/
theorem withBits_of_few {sect : Nat → Block} {n : Nat} (hn : n < BPB)
    (hzero : ∀ b, 28 ≤ b → b < 34 → sect b = zeroBlock) :
    update sect 28 (marks n) = withBits sect n := by
  funext b
  rw [withBits]
  by_cases hb : b = 28
  · grind
  · rw [update_of_ne hb]
    split
    · next hin =>
      rw [hzero b hin.1 hin.2, Nat.sub_eq_zero_of_le (by lia)]
      rfl
    · rfl

/-- **The size of the root directory and the bitmap.** -/
theorem finish_spec (h : Made files s) (hbits : E .bitmap ∨ s.freeblock < BPB) :
    wp finish (fun _ s' => Finished files s s') E s := by
  have hroot := h.built.size ROOTINO _ (image_root files)
  have hbase := h.built.base
  have hlt : ROOTINO < ninodes := by decide
  rw [length_rootData] at hroot
  rw [finish, wp_bind]
  refine rinode_spec hbase.nsect (by decide) ?_
  rw [wp_bind, hroot, ← rounded]
  refine winode_spec hbase.nsect (by decide) ?_
  rw [wp_bind, wp_gets, balloc, ballocFor, wp_bind, wp_stopIf]
  have hsync : (s.write (IBLOCK ROOTINO) (putDinode (s.sect (IBLOCK ROOTINO)) ROOTINO
      { table geo s.sect ROOTINO with size := UInt32.ofNat (rounded files) })).usedblocks =
      s.freeblock := hbase.sync
  rw [hsync]
  refine ⟨fun e => hbits.resolve_right e, fun hfew => ?_⟩
  have hfew : s.freeblock < BPB := not_not.1 hfew
  generalize hd : ({ table geo s.sect ROOTINO with size := UInt32.ofNat (rounded files) } : Dinode) = d
  have htbl : table geo (s.write (IBLOCK ROOTINO) (putDinode (s.sect (IBLOCK ROOTINO)) ROOTINO d)).sect =
      withInode (table geo s.sect) ROOTINO d := table_putDinode (by decide)
  have hsame : root geo (withInode (table geo s.sect) ROOTINO d) = root geo (table geo s.sect) := by
    refine root_congr fun j => ?_
    by_cases hj : j = ROOTINO
    · grind
    · simp only [withInode, update_of_ne hj, and_self]
  obtain ⟨hbase2, hnode, hbyte⟩ := hbase.write_inode
    (putDinode (s.sect (IBLOCK ROOTINO)) ROOTINO d) hlt hsame
  have hfree2 : (s.write (IBLOCK ROOTINO) (putDinode (s.sect (IBLOCK ROOTINO)) ROOTINO d)).freeblock =
      s.freeblock := rfl
  have hino2 : (s.write (IBLOCK ROOTINO) (putDinode (s.sect (IBLOCK ROOTINO)) ROOTINO d)).freeinode =
      s.freeinode := rfl
  generalize s.write (IBLOCK ROOTINO) (putDinode (s.sect (IBLOCK ROOTINO)) ROOTINO d) = s2
    at htbl hbase2 hnode hbyte hfree2 hino2 ⊢
  refine wp_wsect hbase2.nsect (by decide) ?_
  -- the bitmap is the one that the disk was thought to have
  have hdisk : (s2.write (ninodes / IPB + 3) (marks s.freeblock)).sect = s2.disk := by
    rw [Img.disk, hfree2]
    exact withBits_of_few hfew hbase2.bits
  have htbl3 : table geo (s2.write (ninodes / IPB + 3) (marks s.freeblock)).sect =
      withInode (table geo s.sect) ROOTINO d := by
    rw [← htbl, hdisk]
    exact table_congr fun b hb => s2.disk_of_data (.inl hb)
  refine ⟨h, hfew, hino2.trans h.inodes, ?_, by rw [htbl3, hd], ?_, fun x π => ?_, fun i o => ?_,
    fun b hb => ?_⟩
  · rw [hdisk, s2.disk_of_data (.inl (by omega))]
    exact hbase2.sb
  · rw [htbl3, hdisk]
    exact hbase2.own
  · rw [htbl3, hdisk, hnode]
  · rw [htbl3, hdisk, hbyte]
  · rw [hdisk, Img.disk, used_withBits hb, hfree2]

/-- **`mkfs` makes the image of its files**, or stops. -/
theorem main_spec (hlen : files.length ≤ 198) (hslash : ∀ f ∈ files, slash ∈ f.arg → E .slash)
    (hopen : ∀ f ∈ files, f.reads = none → E .open)
    (hover : (∀ f ∈ files, f.data.length ≤ LIMIT * 512) ∨ E .overrun)
    (hroom : E .read ∨ taken files ≤ size) (hbits : E .bitmap ∨ taken files < BPB) :
    wp (main files) (fun _ s => ∃ s1, Finished files s1 s) E Img.new := by
  rw [main]
  refine wp_seq prepare_spec fun _ s h => ?_
  refine wp_seq (addFiles_spec files [] s h (by simpa using hlen) hslash hopen hover hroom)
    fun _ s1 h1 => ?_
  exact wp_post (finish_spec h1 (by rw [h1.taken]; exact hbits)) fun _ s2 h2 => ⟨s1, h2⟩

/-! ## Files that the kernel reads -/

theorem file_not_dev : T_FILE ≠ T_DEV := by decide

/-- **What `mkfs` writes the kernel reads**, exactly if the file needs no doubly indirect block. The
file is empty and its bytes are appended in any number of calls, none of which `mkfs` gives up. -/
theorem appended_reads {A : Nat → Option Content} (h : Built s A) (hf : A i = some ⟨T_FILE, []⟩)
    (chunks : List (List UInt8))
    (haccept : ∀ e, Comp.forM (iappend i) chunks s = .error e → e = .overrun) :
    (∃ s', Comp.forM (iappend i) chunks s = .ok ((), s') ∧ Reads s'.sect i chunks.flatten) ↔
      chunks.flatten.length ≤ (NDIRECT + NINDIRECT) * BSIZE := by
  constructor
  · rintro ⟨s', hrun, -⟩
    have hbuilt := wp_ok (@appends_spec i (fun _ => True) chunks A _ s h hf (.inr trivial)
      (.inl trivial)) hrun
    exact (hbuilt.1.holds i _ (update_self _ _ _)).small.trans' (by simp)
  · intro hlen
    have hspec := @appends_spec i (fun e => e = .read) chunks A _ s h hf
      (.inl (by simpa using hlen)) (.inl rfl)
    cases hrun : Comp.forM (iappend i) chunks s with
    | error e =>
      have he := wp_error hspec hrun
      rw [haccept e hrun] at he
      cases he
    | ok r =>
      have hbuilt := wp_ok hspec hrun
      exact ⟨r.2, rfl, hbuilt.1.reads (update_self _ _ _) file_not_dev⟩

/-- Three bytes appended to a new file are read back. -/
theorem appended_reads_three : ∃ i s s', (prepare >>= fun _ => ialloc T_FILE) Img.new = .ok (i, s) ∧
    Comp.forM (iappend i) [[1, 2], [3]] s = .ok ((), s') ∧ Reads s'.sect i [1, 2, 3] := by
  have hspec : wp (prepare >>= fun _ => ialloc T_FILE) (fun i s => ∃ A, Built s A ∧
      A i = some ⟨T_FILE, []⟩ ∧ s.freeblock + 3 ≤ size) (fun _ => False) Img.new := by
    refine wp_seq prepare_spec fun _ s h => ?_
    refine wp_post (ialloc_spec h.built (by rw [h.inodes]; decide) (by rw [h.inodes]; rfl)
      (by decide)) ?_
    rintro i s' ⟨-, hbuilt, -, hfree⟩
    exact ⟨_, hbuilt, update_self _ _ _, by rw [hfree, h.taken]; decide⟩
  obtain ⟨i, s, hrun, A, hbuilt, hf, hfree⟩ := wp_total hspec
  have happ := @appends_spec i (fun _ => False) [[1, 2], [3]] A _ s hbuilt hf (.inl (by decide))
    (.inr (by
      have hblocks : blocks (count 3) = 1 := by decide
      show s.freeblock + blocks (count 3) ≤ size + blocks (count 0)
      omega))
  obtain ⟨_, s₁, hrun₁, -⟩ := wp_total happ
  obtain ⟨s', hrun', hreads⟩ := (appended_reads hbuilt hf [[1, 2], [3]]
    fun e he => by rw [hrun₁] at he; cases he).2 (by decide)
  exact ⟨i, s, s', hrun, hrun', hreads⟩

/-- A file of one byte more than fit without a doubly indirect block. -/
def long : Source where
  arg := [98, 105, 103]
  reads := some (List.replicate LIMIT (List.replicate 512 7) ++ [[7]])
  text := by decide
  sized l hl c hc := by
    cases hl
    rcases List.mem_append.1 hc with hc | hc
    · grind
    · rw [List.mem_singleton.1 hc]
      decide

/-- **A long file.** `mkfs` asserts that a file has at most `MAXFILE` blocks, but has no doubly
indirect blocks: at block 139 it leaves the array that holds the index block. -/
theorem main_long_file : long.data.length = LIMIT * 512 + 1 ∧
    long.data.length ≤ MAXFILE * BSIZE ∧ main [long] Img.new = .error .overrun := by
  have hlen : long.data.length = LIMIT * 512 + 1 := by
    show (List.replicate LIMIT (List.replicate 512 (7 : UInt8)) ++ [[7]]).flatten.length = _
    rw [List.flatten_append, List.length_append, List.length_flatten, List.map_replicate,
      List.length_replicate, List.sum_replicate_nat]
    rfl
  refine ⟨hlen, by rw [hlen]; decide, ?_⟩
  have htaken : taken [long] = 34 + 1 + 141 := by
    rw [taken, List.map_cons, List.map_nil, List.sum_cons, List.sum_nil, hlen]
    decide
  have hspec := @main_spec (fun e => e = .overrun) [long] (by simp)
    (fun f hf hs => by rw [List.mem_singleton.1 hf] at hs; revert hs; decide)
    (fun f hf hr => by rw [List.mem_singleton.1 hf] at hr; cases hr) (.inr rfl)
    (.inr (by rw [htaken]; decide)) (.inr (by rw [htaken]; decide))
  cases hrun : main [long] Img.new with
  | error e =>
    have he := wp_error hspec hrun
    rw [he]
  | ok r =>
    obtain ⟨s₁, hfin⟩ := wp_ok hspec hrun
    have himage : image [long] 2 = some ⟨T_FILE, long.data⟩ := rfl
    have hsmall := (hfin.made.built.holds 2 _ himage).small
    rw [hlen] at hsmall
    omega

end

end Dixv6.Mkfs
