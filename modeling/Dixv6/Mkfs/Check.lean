import Dixv6.Mkfs.Main
import Dixv6.Sys.Lookup

/-!
# The finished image and the kernel

The image that `mkfs` has finished, checked against the invariants of the kernel (`WellFormed`). The
inode table has room for 198 files; a root directory that fills its last block is given a size that
ends past it; nothing keeps two files from having one name; and a file with a doubly indirect block
is not made at all. `main_wellFormed` says that these are the only things that go wrong.
-/

namespace Dixv6.Mkfs

open Lib Fs Sys Function

/-! ## What is asked of the image -/

/-- Looking up a name in the root directory returns, and it changes neither the disk nor the log. -/
def Still (sect : Nat → Block) : Prop :=
  ∀ (k : Kernel) (p dp : Nat) (name : Name), k.fs.disk = sect → (k.fs.inode dp).inum = ROOTINO →
    (k.fs.inode dp).d = dinodeAt sect ROOTINO → (∃ j < NINODE, (k.fs.inode j).ref = 0) →
    ∃ r k', (dirlookup dp name).run (exec p) k = .ok (r, k') ∧ k'.fs.disk = k.fs.disk ∧
      k'.fs.log = k.fs.log

/-- No two entries of a directory have one name. -/
def Distinct (f : AFile) : Prop :=
  ∀ j < f.count, ∀ j' < f.count, (f.dirent j).inum ≠ 0 → (f.dirent j').inum ≠ 0 →
    (f.dirent j).name = (f.dirent j').name → j = j'

/-- The image is one that the kernel can work with: the inode numbers that were given out are in the
table, no block is used twice and none is missing, the bitmap marks the blocks in use and no others,
the names in the root directory are distinct, and looking them up changes nothing. -/
structure WellFormed (s : Img) : Prop where
  inums : ∀ i, 0 < i → i < s.freeinode → i < ninodes
  disk : DiskInv geo True s.sect
  root : ∃ f, fileOf geo s.sect ROOTINO = some f ∧ f.type = T_DIR ∧ f.Tidy geo ∧ Distinct f
  still : Still s.sect

/-- The names of the root directory. -/
def rootNames (files : List Source) : List Name :=
  dot :: dotdot :: files.map fun f => f.name.take DIRSIZ

/-- The files for which all goes well. -/
structure FilesOk (files : List Source) : Prop where
  few : files.length ≤ 198
  block : (files.length + 2) % 32 ≠ 0
  names : (rootNames files).Nodup
  short : ∀ f ∈ files, f.data.length ≤ (NDIRECT + NINDIRECT) * BSIZE

/-! ## The entries of the root directory -/

section
variable {files : List Source} {s s₁ : Img} {name : Name} {inum : Nat}

/-- A name comes back without what does not fit. -/
theorem takeWhile_getD : ∀ (n : Nat) (name : Name), (0 : UInt8) ∉ name →
    ((List.range n).map fun p => name.getD p 0).takeWhile (· ≠ 0) = name.take n
  | 0, _, _ => by simp
  | n + 1, [], _ => by
    rw [List.range_succ_eq_map, List.map_cons, List.takeWhile_cons, if_neg (by simp)]
    rfl
  | n + 1, c :: name, h => by
    have hc : c ≠ 0 := fun e => h (by rw [e]; exact .head _)
    have ih := takeWhile_getD n name fun e => h (.tail _ e)
    rw [List.range_succ_eq_map, List.map_cons, List.takeWhile_cons, if_pos (by simpa using hc),
      List.map_map, List.take_succ_cons]
    exact congrArg (c :: ·) ih

theorem getDirent_putDirent (hname : (0 : UInt8) ∉ name) (hinum : inum < 2 ^ 16) :
    getDirent (putDirent inum name) = ⟨inum, name.take DIRSIZ⟩ := by
  rw [getDirent, Dirent.mk.injEq]
  constructor
  · exact Bytes.leGet_lePut_of_lt (by simpa using hinum)
  · rw [← takeWhile_getD DIRSIZ name hname]
    have hbyte : ∀ p, putDirent inum name (2 + p) = name.getD p 0 := fun p => by
      rw [putDirent, Bytes.lePut_of_outside (by omega), Nat.add_sub_cancel_left]
    simp only [hbyte]

/-- The bytes of one entry among those of all. -/
theorem getD_entries : ∀ (l : List (Nat × Name)) (j : Nat) (h : j < l.length) (o : Nat), o < DESIZE →
    ((l.map fun e => entry e.1 e.2).flatten).getD (DESIZE * j + o) 0 =
      putDirent (l[j]).1 (l[j]).2 o
  | e :: l, 0, _, o, ho => by
    rw [List.map_cons, List.flatten_cons, Nat.mul_zero, Nat.zero_add, List.getD_eq_getElem?_getD,
      List.getElem?_append_left (by rw [length_entry]; exact ho), entry, getElem?_bytes, if_pos ho]
    rfl
  | e :: l, j + 1, h, o, ho => by
    have ih := getD_entries l j (by simpa using h) o ho
    rw [List.map_cons, List.flatten_cons, List.getD_eq_getElem?_getD,
      List.getElem?_append_right (by rw [length_entry]; lia), length_entry,
      ← List.getD_eq_getElem?_getD, show DESIZE * (j + 1) + o - DESIZE = DESIZE * j + o by
        lia, ih]
    rfl

/-- What the entries are. -/
theorem entries_ok {e : Nat × Name} (h : e ∈ entries files) :
    0 < e.1 ∧ e.1 < files.length + 2 ∧ (0 : UInt8) ∉ e.2 := by
  rcases List.mem_cons.1 h with rfl | h
  · exact ⟨by decide, by lia, by decide⟩
  rcases List.mem_cons.1 h with rfl | h
  · exact ⟨by decide, by lia, by decide⟩
  obtain ⟨j, hj, rfl⟩ := List.mem_mapIdx.1 h
  refine ⟨by simp only; omega, by simp only; omega, fun hz => ?_⟩
  simp only [Source.name] at hz
  split at hz
  · exact (files[j]).text (List.mem_of_mem_tail hz)
  · exact (files[j]).text hz

theorem entries_names (files : List Source) :
    ((entries files).map fun e => e.2.take DIRSIZ) = rootNames files := by
  have hfiles : (files.mapIdx fun j f => (j + 2, f.name)).map (fun e => e.2.take DIRSIZ) =
      files.map fun f => f.name.take DIRSIZ :=
    List.ext_getElem (by simp) fun j _ _ => by simp
  rw [entries, List.map_cons, List.map_cons, hfiles]
  rfl

/-- The last file has an inode of the table. -/
theorem Made.few (h : Made files s) : files.length ≤ 198 := by
  by_contra hlt
  have hlast : image files (files.length + 1) ≠ none := by grind [image]
  obtain ⟨f, hf⟩ := Option.ne_none_iff_exists'.1 hlast
  have := h.built.range _ f hf
  lia

/-- The root directory. -/
theorem Finished.root (h : Finished files s₁ s) : ∃ f, fileOf geo s.sect ROOTINO = some f ∧
    f.type = T_DIR ∧ f.size = rounded files ∧ ∀ o, f.byte o = (rootData files).getD o 0 := by
  have hfew := h.made.few
  have himage := image_root files
  have htbl : table geo s.sect ROOTINO = { table geo s₁.sect ROOTINO with
      size := UInt32.ofNat (rounded files) } := by
    rw [h.tbl, withInode, update_self]
  obtain ⟨htype, -⟩ := h.made.built.type ROOTINO _ himage
  have hbytes := (h.made.built.holds ROOTINO _ himage).bytes
  rw [show withInode (table geo s₁.sect) ROOTINO (table geo s₁.sect ROOTINO) = table geo s₁.sect from
    update_eq_self _ _] at hbytes
  have hdir : (table geo s.sect ROOTINO).type = T_DIR := by rw [htbl]; exact htype
  refine ⟨_, if_neg (by rw [hdir]; decide), hdir, ?_, fun o => (h.byte _ _).trans (hbytes o)⟩
  rw [htbl]
  refine UInt32.toNat_ofNat_of_lt' ?_
  simp only [rounded, UInt32.size, DESIZE, BSIZE]
  omega

/-- An entry of the root directory. -/
theorem dirent_entry {f : AFile} (hf : ∀ o, f.byte o = (rootData files).getD o 0)
    (hfew : files.length ≤ 198) {j : Nat} (hj : j < (entries files).length) :
    f.dirent j = ⟨(entries files)[j].1, (entries files)[j].2.take DIRSIZ⟩ := by
  obtain ⟨-, hlt, hz⟩ := entries_ok (List.getElem_mem hj)
  rw [← getDirent_putDirent hz (by omega), AFile.dirent]
  refine getDirent_congr fun o ho => ?_
  rw [hf, rootData]
  exact getD_entries _ j hj o ho

/-- Past the entries of the files there are empty ones. -/
theorem dirent_past {f : AFile} (hf : ∀ o, f.byte o = (rootData files).getD o 0) {j : Nat}
    (hj : (entries files).length ≤ j) : (f.dirent j).inum = 0 := by
  have hzero : f.dirent j = getDirent fun _ => 0 := getDirent_congr fun o _ => by
    rw [length_entries] at hj
    have hlen : (rootData files).length ≤ DESIZE * j + o := by
      rw [length_rootData]
      lia
    rw [hf, List.getD_eq_getElem?_getD, List.getElem?_eq_none hlen]
    rfl
  rw [hzero]
  exact Bytes.leGet_zero 2 0

/-- **Names are distinct** if those that `mkfs` is given are, cut to the length of a name. -/
theorem distinct_iff {f : AFile} (hf : ∀ o, f.byte o = (rootData files).getD o 0)
    (hfew : files.length ≤ 198) (hsize : f.size = rounded files) :
    Distinct f ↔ (rootNames files).Nodup := by
  have hcount : files.length + 2 ≤ f.count := by
    rw [AFile.count, hsize]
    grind [rounded]
  have hlen := length_entries files
  rw [← entries_names, List.nodup_iff_injective_get, Distinct]
  constructor
  · rintro h ⟨j, hj⟩ ⟨j', hj'⟩ he
    rw [List.length_map] at hj hj'
    have hd := dirent_entry hf hfew hj
    have hd' := dirent_entry hf hfew hj'
    refine Fin.ext (h j (by omega) j' (by omega) ?_ ?_ ?_)
    · rw [hd]
      exact Nat.ne_of_gt (entries_ok (List.getElem_mem hj)).1
    · rw [hd']
      exact Nat.ne_of_gt (entries_ok (List.getElem_mem hj')).1
    · rw [hd, hd']
      simpa using he
  · intro h j _ j' _ hj hj' he
    have hlt : j < (entries files).length := by
      by_contra hge
      exact hj (dirent_past hf (by omega))
    have hlt' : j' < (entries files).length := by
      by_contra hge
      exact hj' (dirent_past hf (by omega))
    rw [dirent_entry hf hfew hlt, dirent_entry hf hfew hlt'] at he
    have := @h ⟨j, by rw [List.length_map]; exact hlt⟩ ⟨j', by rw [List.length_map]; exact hlt'⟩
      (by simpa using he)
    simpa using this

/-! ## The disk -/

/-- The blocks of the root directory. -/
theorem Finished.whole_root (h : Finished files s₁ s) (bn : Nat) :
    Fs.node geo (table geo s.sect) s.sect (ROOTINO, (pos bn).1) (pos bn).2 ≠ none ↔
      bn < count ((files.length + 2) * DESIZE) := by
  have hfit := (h.made.built.holds ROOTINO _ (image_root files)).fit.block bn
  rw [show withInode (table geo s₁.sect) ROOTINO (table geo s₁.sect ROOTINO) = table geo s₁.sect from
    update_eq_self _ _, length_rootData] at hfit
  rw [h.node]
  exact hfit

/-- The root directory lacks its last block exactly when its entries fill the one before. -/
theorem rounded_iff : (∀ bn, bn * BSIZE < rounded files → bn < count ((files.length + 2) * DESIZE)) ↔
    (files.length + 2) % 32 ≠ 0 := by
  have hmul : ∀ a b : Nat, a * BSIZE < (b + 1) * BSIZE ↔ a ≤ b := fun a b => by
    lia
  simp only [rounded, hmul]
  constructor
  · intro h
    have := h _ (Nat.le_refl _)
    grind [count]
  · grind [count]

/-- **The disk is in order**, unless the root directory fills its last block. -/
theorem Finished.diskInv (h : Finished files s₁ s) (hblock : (files.length + 2) % 32 ≠ 0) :
    DiskInv geo True s.sect := by
  have hbase := h.made.built.base
  have hstart := geo_dstart
  have hlog := geo_logstart
  have hfew := h.few
  simp only [BPB, BSIZE] at hfew
  refine ⟨h.sb, ⟨h.own.distinct, fun x π b hb => ?_, h.own.area⟩, fun i hi bn hbn => ?_,
    fun _ b hb hu hge => ?_⟩
  · obtain ⟨h1, h2, h3⟩ := h.own.data x π b hb
    rw [h.used b h2, decide_eq_true_eq] at h3
    refine ⟨h1, by omega, ?_⟩
    rw [h.used b h2]
    exact decide_eq_true h3
  · by_cases hr : i = ROOTINO
    · subst hr
      rw [h.whole_root]
      obtain ⟨f, hf, -, hsize, -⟩ := h.root
      rw [← (fileOf_eq_some hf).2.2.2.1, hsize] at hbn
      exact rounded_iff.2 hblock bn hbn
    · have hold : table geo s.sect i = table geo s₁.sect i := by
        rw [h.tbl, withInode, update_of_ne hr]
      rw [hold] at hi hbn
      cases himage : image files i with
      | none => exact absurd (h.made.built.free i himage) hi
      | some f =>
        have hfit := (h.made.built.holds i f himage).fit.block bn
        rw [show withInode (table geo s₁.sect) i (table geo s₁.sect i) = table geo s₁.sect from
          update_eq_self _ _] at hfit
        rw [h.made.built.size i f himage] at hbn
        rw [h.node]
        refine hfit.2 ?_
        grind [count]
  · rw [h.used b hb, decide_eq_true_eq] at hu
    obtain ⟨x, π, hx⟩ := hbase.cover b (by omega) hu
    exact ⟨x, π, (h.node x π).trans hx⟩

/-! ## Looking up names -/

/-- `iget` finds an entry of the cache when there is an empty one. -/
theorem iget_still {k : Fs.State} {E : Dixv6.Stop → Prop} (hfree : ∃ j < NINODE, (k.inode j).ref = 0) :
    wp (iget inum) (fun _ k' => k'.disk = k.disk ∧ k'.log = k.log) E k := by
  obtain ⟨j, hj, hr⟩ := hfree
  simp only [iget, wp_bind, wp_gets, id_eq]
  split
  · exact ⟨rfl, rfl⟩
  · split
    · exact ⟨rfl, rfl⟩
    · next hno =>
      refine absurd hno ?_
      rw [List.find?_eq_none]
      intro hall
      exact hall j (List.mem_range.2 hj) (decide_eq_true hr)

/-- A directory of a disk that is in order, in the cache. -/
structure Cached (g : Geo) (X : Prop) (k : Kernel) (dp : Nat) (f : AFile) : Prop where
  disk : DiskInv g X k.fs.disk
  copy : (k.fs.inode dp).d = table g k.fs.disk (k.fs.inode dp).inum
  file : fileOf g k.fs.disk (k.fs.inode dp).inum = some f
  type : f.type = T_DIR
  whole : DESIZE ∣ f.size

section
variable {g : Geo} {X : Prop} {k : Kernel} {p dp j : Nat} {f : AFile}

theorem readDirent_still {e : Dixv6.Stop} (h : Cached g X k dp f) (hj : j < f.count) :
    wp ((readDirent dp (DESIZE * j) e).run (exec p)) (fun _ k' => k' = k) (fun _ => False) k := by
  obtain ⟨hne, htype, -, hsize, -, -⟩ := fileOf_eq_some h.file
  have hend := AFile.dirent_end hj
  have hview : view g k.fs dp = table g k.fs.disk := by
    rw [view, h.copy]
    exact update_eq_self _ _
  have hwhole : Whole g k.fs dp := fun bn hbn => by
    rw [h.copy] at hbn
    rw [HasBlock, blockAt, hview]
    exact h.disk.whole _ hne bn hbn
  have hlt : f.size < 2 ^ 32 := by
    rw [hsize]
    exact UInt32.toNat_lt _
  have hoff : (UInt32.ofNat (DESIZE * j)).toNat = DESIZE * j := UInt32.toNat_ofNat_of_lt' (by
    simp only [UInt32.size, DESIZE] at *; omega)
  have hn : (UInt32.ofNat DESIZE).toNat = DESIZE := by decide
  have hdev : (k.fs.inode dp).d.type ≠ T_DEV := by
    rw [h.copy, ← htype, h.type]
    decide
  simp only [readDirent, Prog.wp_run_bind, call, Prog.wp_run_lift, exec, wp_onFs]
  have hcopy : (k.fs.inode dp).d.size.toNat = f.size := by rw [h.copy, hsize]
  refine wp_post (readi_spec hdev hwhole hcopy) ?_
  rintro r s' ⟨rfl, hr⟩
  rw [hoff, hn, if_neg (by lia)] at hr
  obtain ⟨dst, rfl, -⟩ := hr
  have hmin : min (DESIZE * j + DESIZE) f.size - DESIZE * j = DESIZE := by omega
  simp only [hmin, if_true]
  rfl

/-- **Looking up names in a directory** changes nothing. -/
theorem dirlookupFrom_still (h : Cached g X k dp f) (hfree : ∃ j < NINODE, (k.fs.inode j).ref = 0) :
    ∀ count j, j + count = f.count → wp ((dirlookupFrom dp name count (DESIZE * j)).run (exec p))
      (fun _ k' => k'.fs.disk = k.fs.disk ∧ k'.fs.log = k.fs.log) (fun _ => False) k := by
  intro count
  induction count with
  | zero => intro j _; exact ⟨rfl, rfl⟩
  | succ count ih =>
    intro j hj
    rw [dirlookupFrom]
    refine Prog.wp_run_seq (readDirent_still h (by omega)) ?_
    rintro de k' rfl
    refine Prog.wp_run_ite (fun _ => ?_) fun _ => ih (j + 1) (by omega)
    simp only [Prog.wp_run_bind, call, Prog.wp_run_lift, exec, wp_onFs]
    exact wp_post (iget_still hfree) fun _ _ h' => h'

theorem dirlookup_still (h : Cached g X k dp f) (hfree : ∃ j < NINODE, (k.fs.inode j).ref = 0) :
    wp ((dirlookup dp name).run (exec p)) (fun _ k' => k'.fs.disk = k.fs.disk ∧
      k'.fs.log = k.fs.log) (fun _ => False) k := by
  obtain ⟨-, htype, -, hsize, -, -⟩ := fileOf_eq_some h.file
  refine Prog.wp_run_ite (fun ht => absurd ?_ ht) fun _ => ?_
  · rw [h.copy, ← htype, h.type]
  · rw [AFile.direntCount (by rw [h.copy, hsize]) h.whole]
    exact dirlookupFrom_still h hfree f.count 0 (Nat.zero_add _)

end

/-! ## The inode numbers -/

/-- No inode number is given out. -/
def Keeps {α : Type} (m : M α) : Prop :=
  ∀ s, wp m (fun _ s' => s'.freeinode = s.freeinode) (fun _ => True) s

theorem Keeps.bind {α β : Type} {m : M α} {f : α → M β} (hm : Keeps m) (hf : ∀ a, Keeps (f a)) :
    Keeps (m >>= f) := fun s =>
  wp_seq (hm s) fun a s' h => wp_post (hf a s') fun _ _ h' => h'.trans h

theorem Keeps.pure {α : Type} (a : α) : Keeps (Pure.pure a) := fun _ => rfl

theorem Keeps.stopIf {c : Prop} [Decidable c] {e : Stop} : Keeps (Comp.stopIf c e) := fun _ =>
  (wp_stopIf _ _).2 ⟨fun _ => trivial, fun _ => rfl⟩

theorem Keeps.gets {α : Type} {f : Img → α} : Keeps (Comp.gets f) := fun _ => rfl

theorem Keeps.ite {α : Type} {c : Prop} [Decidable c] {m m' : M α} (h : Keeps m) (h' : Keeps m') :
    Keeps (if c then m else m') := fun s => wp_ite (fun _ => h s) fun _ => h' s

theorem Keeps.forM {α : Type} {f : α → M Unit} (hf : ∀ a, Keeps (f a)) : ∀ l, Keeps (Comp.forM f l)
  | [] => .pure ()
  | a :: l => (hf a).bind fun _ => Keeps.forM hf l

theorem keeps_rsect (sec : Nat) : Keeps (rsect sec) :=
  Keeps.gets.bind fun _ => Keeps.stopIf.bind fun _ => .gets

theorem keeps_wsect (sec : Nat) (buf : Block) : Keeps (wsect sec buf) := fun _ => rfl

theorem keeps_winode (i : Nat) (d : Dinode) : Keeps (winode i d) :=
  (keeps_rsect _).bind fun _ => keeps_wsect _ _

theorem keeps_take : Keeps take := Keeps.gets.bind fun b => Keeps.bind (fun _ => rfl) fun _ => .pure b

theorem keeps_mapRoot (din : Dinode) (k : Fin (NDIRECT + 2)) : Keeps (mapRoot din k) :=
  .ite (keeps_take.bind fun _ => .pure _) (.pure _)

theorem keeps_mapEntry (a j : Nat) : Keeps (mapEntry a j) :=
  (keeps_rsect a).bind fun _ => Keeps.stopIf.bind fun _ =>
    .ite (keeps_take.bind fun _ => (keeps_wsect _ _).bind fun _ => .pure _) (.pure _)

theorem keeps_mapBlock (din : Dinode) (fbn : Nat) : Keeps (mapBlock din fbn) := by
  unfold mapBlock
  split
  · exact (keeps_mapRoot _ _).bind fun _ => .pure _
  · exact (keeps_mapRoot _ _).bind fun _ => (keeps_mapEntry _ _).bind fun _ => .pure _

theorem keeps_iappendFrom : ∀ (turns : Nat) (din : Dinode) (off : Nat) (p : List UInt8),
    Keeps (iappendFrom turns din off p)
  | 0, _, _, _ => .pure _
  | turns + 1, _, _, _ => .ite (.pure _) <| Keeps.stopIf.bind fun _ =>
      (keeps_mapBlock _ _).bind fun _ => (keeps_rsect _).bind fun _ =>
        (keeps_wsect _ _).bind fun _ => keeps_iappendFrom turns _ _ _

theorem keeps_iappend (i : Nat) (p : List UInt8) : Keeps (iappend i p) :=
  (Keeps.bind (keeps_rsect _) fun _ => .pure _).bind fun _ =>
    (keeps_iappendFrom _ _ _ _).bind fun _ => keeps_winode _ _

theorem ialloc_inodes (type : Int16) (s : Img) :
    wp (ialloc type) (fun _ s' => s'.freeinode = s.freeinode + 1) (fun _ => True) s := by
  simp only [ialloc, wp_bind, wp_gets, wp_modify]
  exact wp_post (keeps_winode _ _ _) fun _ _ h => h

theorem addFiles_inodes : ∀ (files : List Source) (s : Img), wp (Comp.forM addFile files)
    (fun _ s' => s'.freeinode = s.freeinode + files.length) (fun _ => True) s
  | [], _ => rfl
  | f :: files, s => by
    have hfile : wp (addFile f) (fun _ s' => s'.freeinode = s.freeinode + 1) (fun _ => True) s := by
      rw [addFile, wp_bind, wp_stopIf]
      refine ⟨fun _ => trivial, fun _ => ?_⟩
      cases f.reads with
      | none => trivial
      | some reads =>
        refine wp_seq (ialloc_inodes _ s) fun _ s₁ h1 => ?_
        exact wp_post ((keeps_iappend _ _).bind (fun _ => .forM (keeps_iappend _) reads) s₁)
          fun _ _ h => h.trans h1
    refine wp_seq hfile fun _ s₁ h1 => wp_post (addFiles_inodes files s₁) fun _ s2 h2 => ?_
    rw [h2, h1, List.length_cons]
    omega

/-- **There are as many inode numbers as files**, and two more. -/
theorem main_inodes (files : List Source) : wp (main files)
    (fun _ s => s.freeinode = files.length + 2) (fun _ => True) Img.new := by
  rw [main]
  refine wp_seq prepare_spec fun _ s h => wp_seq (addFiles_inodes files s) fun _ s₁ h1 => ?_
  refine wp_post (Q := fun _ s' => s'.freeinode = s₁.freeinode) ?_ fun _ _ h2 => ?_
  · refine (Keeps.bind (Keeps.bind (keeps_rsect _) fun _ => .pure _) fun _ =>
      (keeps_winode _ _).bind fun _ => Keeps.gets.bind fun _ => Keeps.stopIf.bind fun _ =>
        keeps_wsect _ _) s₁
  · rw [h2, h1, h.inodes]
    simp only [List.length_nil]
    omega

/-! ## The images that the kernel can work with -/

theorem Finished.tidy {f : AFile} (h : Finished files s₁ s) (hsize : f.size = rounded files)
    (hf : ∀ o, f.byte o = (rootData files).getD o 0) : f.Tidy geo := by
  have hfew := h.made.few
  refine fun _ => ⟨⟨((files.length + 2) * DESIZE / BSIZE + 1) * 32, ?_⟩, fun j _ => ?_⟩
  · rw [hsize, rounded]
    lia
  · show (f.dirent j).inum < ninodes
    by_cases hj : j < (entries files).length
    · rw [dirent_entry hf hfew hj]
      have := (entries_ok (List.getElem_mem hj)).2.1
      lia
    · rw [dirent_past hf (by omega)]
      decide

/-- The finished image of files for which all goes well. -/
theorem Finished.wellFormed (h : Finished files s₁ s) (hok : FilesOk files) : WellFormed s := by
  obtain ⟨f, hf, htype, hsize, hbyte⟩ := h.root
  have hdisk := h.diskInv hok.block
  have htidy := h.tidy hsize hbyte
  refine ⟨fun i _ hi => ?_, hdisk, ⟨f, hf, htype, htidy, (distinct_iff hbyte hok.few hsize).2 hok.names⟩,
    fun k p dp name hk hinum hd hfree => ?_⟩
  · rw [h.inodes] at hi
    have := hok.few
    lia
  · have hcached : Cached geo True k dp f := by
      refine ⟨by rw [hk]; exact hdisk, ?_, by rw [hk, hinum]; exact hf, htype, (htidy htype).1⟩
      rw [hd, hk, hinum]
      exact (if_pos (show ROOTINO < geo.ninodes by decide)).symm
    exact wp_total (dirlookup_still hcached hfree)

/-- What a well-formed image says about the files. -/
theorem Finished.filesOk (h : Finished files s₁ s) (hw : WellFormed s) : FilesOk files := by
  obtain ⟨f, hf, htype, hsize, hbyte⟩ := h.root
  obtain ⟨f', hf', -, -, hdistinct⟩ := hw.root
  obtain rfl := Option.some.inj (hf.symm.trans hf')
  refine ⟨h.made.few, rounded_iff.1 fun bn hbn => (h.whole_root bn).1 ?_,
    (distinct_iff hbyte h.made.few hsize).1 hdistinct, fun f hmem => ?_⟩
  · obtain ⟨hne, -, -, hsize', -⟩ := fileOf_eq_some hf
    refine hw.disk.whole ROOTINO hne bn ?_
    rw [← hsize', hsize]
    exact hbn
  · obtain ⟨j, hj, rfl⟩ := List.getElem_of_mem hmem
    have himage : image files (j + 2) = some ⟨T_FILE, (files[j]).data⟩ := by
      grind [image, Nat.add_sub_cancel]
    exact (h.made.built.holds _ _ himage).small

/-- **`mkfs` makes a well-formed file system** exactly of up to 198 files that do not fill the last
block of the root directory, have distinct names and need no doubly indirect block. -/
theorem main_wellFormed (files : List Source)
    (haccept : ∀ e, main files Img.new = .error e → e = .overrun) :
    (∃ s, main files Img.new = .ok ((), s) ∧ WellFormed s) ↔ FilesOk files := by
  constructor
  · rintro ⟨s, hrun, hw⟩
    have hino := wp_ok (main_inodes files) hrun
    have hfew : files.length ≤ 198 := by
      by_contra hlt
      have := hw.inums (files.length + 1) (by omega) (by omega)
      lia
    have hspec := @main_spec (fun _ => True) files hfew (fun _ _ _ => trivial) (fun _ _ _ => trivial)
      (.inr trivial) (.inl trivial) (.inl trivial)
    obtain ⟨s₁, hfin⟩ := wp_ok hspec hrun
    exact hfin.filesOk hw
  · intro hok
    have hspec := @main_spec (fun e => e ≠ .overrun) files hok.few (fun _ _ _ => by decide)
      (fun _ _ _ => by decide) (.inl hok.short) (.inl (by decide)) (.inl (by decide))
    cases hrun : main files Img.new with
    | error e =>
      have hne := wp_error hspec hrun
      exact absurd (haccept e hrun) hne
    | ok r =>
      obtain ⟨s₁, hfin⟩ := wp_ok hspec hrun
      exact ⟨r.2, rfl, hfin.wellFormed hok⟩

/-- An empty file with a name of one letter. -/
def emptyFile (j : Fin 30) : Source where
  arg := [97 + UInt8.ofNat j]
  reads := some []
  text := (by decide : ∀ j : Fin 30, (0 : UInt8) ∉ [97 + UInt8.ofNat j]) j
  sized l hl c hc := by cases hl; cases hc

/-- **Thirty files.** With its own two entries the root directory fills one block exactly. It is given
the size of two blocks and has no second one. -/
theorem main_thirty_files : ∃ s, main ((List.finRange 30).map emptyFile) Img.new = .ok ((), s) ∧
    (table geo s.sect ROOTINO).size = 1024 ∧
    node geo (table geo s.sect) s.sect (ROOTINO, (pos 1).1) (pos 1).2 = none ∧ ¬ WellFormed s := by
  have hmem : ∀ f ∈ (List.finRange 30).map emptyFile, ∃ j, f = emptyFile j := fun f hf => by
    obtain ⟨j, -, rfl⟩ := List.mem_map.1 hf
    exact ⟨j, rfl⟩
  have hdata : ∀ f ∈ (List.finRange 30).map emptyFile, f.data.length = 0 := fun f hf => by
    obtain ⟨j, rfl⟩ := hmem f hf
    rfl
  have hlen : ((List.finRange 30).map emptyFile).length = 30 := by simp
  generalize hfiles : (List.finRange 30).map emptyFile = files at hmem hdata hlen ⊢
  have htaken : taken files = 35 := by
    have hsum : (files.map fun f => blocks (count f.data.length)) = files.map fun _ => 0 :=
      List.map_congr_left fun f hf => by rw [hdata f hf]; rfl
    rw [taken, hsum, hlen]
    rw [List.map_const', List.sum_replicate_nat, Nat.mul_zero]
    rfl
  have hspec := @main_spec (fun _ => False) files (by omega) (fun f hf hs => ?_) (fun f hf hr => ?_)
    (.inl fun f hf => by rw [hdata f hf]; exact Nat.zero_le _)
    (.inr (by rw [htaken]; decide)) (.inr (by rw [htaken]; decide))
  · obtain ⟨_, s, hrun, s₁, hfin⟩ := wp_total hspec
    obtain ⟨f, hf, -, hsize, -⟩ := hfin.root
    refine ⟨s, hrun, ?_, ?_, fun hw => ?_⟩
    · rw [(fileOf_eq_some hf).2.2.2.1, rounded, hlen] at hsize
      exact UInt32.toNat_inj.1 hsize
    · have := (hfin.whole_root 1).not.2 (by rw [hlen]; decide)
      exact not_not.1 this
    · have := (hfin.filesOk hw).block
      rw [hlen] at this
      exact this rfl
  · obtain ⟨j, rfl⟩ := hmem f hf
    exact (by decide : ∀ j : Fin 30, slash ∉ [97 + UInt8.ofNat j]) j hs
  · obtain ⟨j, rfl⟩ := hmem f hf
    cases hr

/-- One file makes a well-formed file system. -/
theorem main_wellFormed_one : ∃ s, main [emptyFile 0] Img.new = .ok ((), s) ∧ WellFormed s := by
  have hspec := @main_spec (fun _ => False) [emptyFile 0] (by decide)
    (fun f hf hs => by rw [List.mem_singleton.1 hf] at hs; revert hs; decide)
    (fun f hf hr => by rw [List.mem_singleton.1 hf] at hr; cases hr)
    (.inl fun f hf => by rw [List.mem_singleton.1 hf]; decide) (.inr (by decide)) (.inr (by decide))
  obtain ⟨_, s, hrun, -⟩ := wp_total hspec
  refine (main_wellFormed [emptyFile 0] fun e he => ?_).2 ⟨by decide, by decide, by decide, ?_⟩
  · rw [hrun] at he
    cases he
  · intro f hf
    rw [List.mem_singleton.1 hf]
    decide

end

end Dixv6.Mkfs
