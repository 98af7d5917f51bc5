import Xv6.Fs.Namei
import Xv6.Mkfs.Holes

/-! # The image as the kernel finds it

    The kernel reads the super block, the log header, the inodes, the root directory and the free
    map that `mkfs` has written. For files that fit, `namei` finds each of them by its name, `ilock`
    and `readi` deliver its bytes, and the free map has exactly the blocks below `freeblock`.

    The size of the root directory is rounded up, so `dirlookup` may not read it to the end (it
    would allocate a block); the entries come first.
-/

namespace Xv6.Mkfs

open Program Script ByteMem Fs List

/-! ## Definitions -/

/-- `readsb`: the words at the start of block 1. -/
def readsb (b : Block) : Superblock where
  size       := b.word 0
  nblocks    := b.word 1
  ninodes    := b.word 2
  nlog       := b.word 3
  logstart   := b.word 4
  inodestart := b.word 5
  bmapstart  := b.word 6

/-- The files fit, and their names are C strings that differ in an entry. -/
structure Fits (files : List Input) : Prop where
  inodes   : files.length + 1 < NINODES
  blocks   : used files ≤ FSSIZE
  ok       : ∀ f ∈ files, f.Ok
  string   : ∀ f ∈ files, ∀ x ∈ f.name, x ≠ 0
  named    : ∀ f ∈ files, f.name ≠ [] ∧ f.name ≠ dot ∧ f.name ≠ dotdot
  distinct : (files.map fun f => f.name.take DIRSIZ).Nodup

/-! ## The entries of the root directory -/

section Entries

variable {files : List Input} {k m : Nat} {f : Input} {e : Nat × List UInt8}

theorem take_flatMap {α : Type} {n : Nat} (g : α → List UInt8) (hlen : ∀ a, (g a).length = n) :
    ∀ (l : List α) (m : Nat) (a : α), l[m]? = some a →
    ((l.flatMap g).drop (n * m)).take n = g a := by
  intro l
  induction l with
  | nil => intro m a h; cases h
  | cons b l ih =>
    intro m a h
    cases m with
    | zero =>
      obtain rfl : b = a := by simpa using h
      rw [flatMap_cons, mul_zero, drop_zero, ← hlen b, take_left']
      rfl
    | succ m =>
      rw [flatMap_cons, Nat.mul_succ, add_comm, ← drop_drop, ← hlen b, drop_left, hlen b]
      exact ih m a (by simpa using h)

theorem length_entries (files : List Input) : (entries files).length = files.length + 2 := by
  simp [entries]

theorem entries_file (h : files[k]? = some f) : (entries files)[k + 2]? = some (k + 2, f.name) := by
  simp [entries, h]

/-- An entry is of the root directory or of a file. -/
theorem entries_cases (h : (entries files)[m]? = some e) :
    e = (ROOTINO, dot) ∨ e = (ROOTINO, dotdot) ∨ ∃ k f, files[k]? = some f ∧ e =
    (k + 2, f.name) := by
  match m with
  | 0 => exact .inl (by simpa [entries] using h.symm)
  | 1 => exact .inr (.inl (by simpa [entries] using h.symm))
  | m + 2 =>
    refine .inr (.inr ?_)
    have hm : (files.mapIdx fun k f => (k + 2, f.name))[m]? = some e := by simpa [entries] using h
    rw [getElem?_mapIdx] at hm
    obtain ⟨f, hf, rfl⟩ := Option.map_eq_some_iff.mp hm
    exact ⟨m, f, hf, rfl⟩

theorem mem_of_getElem (h : files[k]? = some f) : f ∈ files ∧ k < files.length :=
  ⟨List.mem_of_getElem? h, (List.getElem?_eq_some_iff.mp h).1⟩

/-- The numbers of the entries are not 0 and fit, their names have no zero byte. -/
theorem Fits.entry (h : Fits files) (he : (entries files)[m]? = some e) :
    e.1 ≠ 0 ∧ e.1 < 2 ^ 16 ∧ ∀ x ∈ e.2, x ≠ 0 := by
  rcases entries_cases he with rfl | rfl | ⟨k, f, hf, rfl⟩
  · exact ⟨by decide, by decide, by simp [dot]⟩
  · exact ⟨by decide, by decide, by simp [dotdot]⟩
  · obtain ⟨hmem, hk⟩ := mem_of_getElem hf
    have hlt : files.length + 1 < 200 := h.inodes
    refine ⟨?_, ?_, h.string f hmem⟩
    · show k + 2 ≠ 0
      omega
    · show k + 2 < 65536
      omega

theorem take_ne {nm d : List UInt8} (hd : d.length < DIRSIZ) (h : nm ≠ d) : nm.take DIRSIZ ≠ d := by
  intro hc
  have hlen := congrArg length hc
  rw [length_take] at hlen
  rw [take_of_length_le (by omega)] at hc
  exact h hc

theorem Fits.names_nodup (h : Fits files) :
    ((entries files).map fun e => e.2.take DIRSIZ).Nodup := by
  have hmap : (entries files).map (fun e => e.2.take DIRSIZ) =
      dot :: dotdot :: files.map fun f => f.name.take DIRSIZ := by
    have hfiles : (files.mapIdx fun k f => (k + 2, f.name)).map (fun e => e.2.take DIRSIZ) =
        files.map fun f => f.name.take DIRSIZ := by
      refine ext_getElem? fun m => ?_
      rw [getElem?_map, getElem?_mapIdx, getElem?_map, Option.map_map]
      rfl
    unfold entries
    rw [map_cons, map_cons, hfiles]
    rfl
  rw [hmap, nodup_cons, nodup_cons]
  refine ⟨?_, ?_, h.distinct⟩
  · rw [mem_cons, not_or]
    refine ⟨by decide, fun hm => ?_⟩
    obtain ⟨f, hf, he⟩ := mem_map.mp hm
    exact take_ne (by decide) (h.named f hf).2.1 he
  · intro hm
    obtain ⟨f, hf, he⟩ := mem_map.mp hm
    exact take_ne (by decide) (h.named f hf).2.2 he

end Entries

/-! ## Reading -/

section Read

variable {img : Image} {files : List Input} {d : Disk} {off n i m k : Nat} {e : Nat × List UInt8}
  {name : Mem}

theorem le_rounded (len : Nat) : len ≤ rounded len := by
  unfold rounded
  simp only [BSIZE]
  omega

section

variable (h : Done img files)
include h

theorem Done.live_iff (i : Nat) : img.Live i ↔ 1 ≤ i ∧ i < files.length + 2 := by
  show 1 ≤ i ∧ i < img.freeinode ↔ _
  rw [h.next]

theorem Done.root_live : img.Live ROOTINO :=
  (h.live_iff ROOTINO).mpr ⟨le_rfl, by simp only [ROOTINO]; omega⟩

/-- The blocks of what was appended are there, with its bytes. -/
theorem Done.appended (hi : img.Live i) (hle : off + n ≤ (table files i).length) :
    off + n ≤ MAXFILE * BSIZE ∧ img.disk.missing (img.disk.inode sb i) off n = ∅ ∧
      bytesFrom (img.disk.content (img.disk.dinode sb i)) off n =
        ((table files i).drop off).take n := by
  obtain ⟨own, hf⟩ := h.files
  have hh := hf.holds i hi
  refine ⟨le_trans hle hh.le, ?_, ?_⟩
  · rw [Finset.eq_empty_iff_forall_notMem]
    intro bn hbn
    obtain ⟨hmem, hz⟩ := mem_missing.mp hbn
    obtain ⟨hlt, -, -, hend⟩ := mem_touched.mp hmem
    exact (hh.there bn hlt).mpr (by omega) hz
  · rw [← hh.bytes, bytesFrom_drop, bytesFrom_take, zero_add, Nat.min_eq_right (by omega)]

omit h in
theorem entry_le (hm : m < files.length + 2) :
    DIRENT * m + DIRENT ≤ (table files ROOTINO).length := by
  rw [table_root, length_rootBytes]
  simp only [DIRENT]
  omega

/-- The entries of the root directory. -/
theorem Done.entry_eq (he : (entries files)[m]? = some e) :
    entry (img.disk.content (img.disk.dinode sb ROOTINO)) m =
      direntOf (memOf (entryBytes e.1 e.2)) := by
  have hm : m < files.length + 2 := by
    rw [← length_entries]
    exact (List.getElem?_eq_some_iff.mp he).1
  have hslice : ((rootBytes files).drop (DIRENT * m)).take DIRENT = entryBytes e.1 e.2 := by
    unfold rootBytes
    exact take_flatMap (fun e : Nat × List UInt8 => entryBytes e.1 e.2)
      (fun a => length_entryBytes a.1 a.2) (entries files) m e he
  have hbytes := (h.appended h.root_live (entry_le hm)).2.2
  rw [table_root, hslice] at hbytes
  unfold entry
  rw [hbytes]

theorem Done.entry_inum (he : (entries files)[m]? = some e) (hlt : e.1 < 2 ^ 16) :
    (entry (img.disk.content (img.disk.dinode sb ROOTINO)) m).inum = e.1 := by
  rw [h.entry_eq he]
  exact (entry_bytes (dirent e.1 e.2) (Nat.mod_lt _ (by decide))).1.trans (Nat.mod_eq_of_lt hlt)

theorem Done.entry_name (he : (entries files)[m]? = some e) (hstr : ∀ x ∈ e.2, x ≠ 0) :
    nameOf (entry (img.disk.content (img.disk.dinode sb ROOTINO)) m).name = e.2.take DIRSIZ := by
  rw [h.entry_eq he]
  refine (entry_bytes (dirent e.1 e.2) (Nat.mod_lt _ (by decide))).2.trans ?_
  show cstr (strncpy (fun _ => 0) (memOf e.2) DIRSIZ 0) DIRSIZ 0 = _
  rw [cstr_strncpy, cstr_memOf hstr, drop_zero]

theorem Done.unique (hfits : Fits files) : UniqueNames
    (img.disk.content (img.disk.dinode sb ROOTINO)) (files.length + 2) := by
  intro nm j k hj hk hbj hbk
  rw [← length_entries] at hj hk
  have hname : ∀ {j}, (hj : j < (entries files).length) →
      Binds (img.disk.content (img.disk.dinode sb ROOTINO)) nm j →
      ((entries files).map fun e => e.2.take DIRSIZ)[j]? = some nm := by
    intro j hj hb
    have he : (entries files)[j]? = some _ := getElem?_eq_getElem hj
    rw [getElem?_map, he, ← hb.2, h.entry_name he (hfits.entry he).2.2]
    rfl
  exact (getElem?_inj (by simpa using hj) hfits.names_nodup).mp
    ((hname hj hbj).trans (hname hk hbk).symm)

theorem Done.root_dir : (img.disk.dinode sb ROOTINO).type = T_DIR :=
  h.type _ h.root_live

variable (hd : d.blocks = img.blocks)
include hd

/-- The search in the root directory ends at the entry: behind the last one may be a hole. -/
theorem Done.lookupEntry (hfits : Fits files) (dv : Devsw)
    (he : (entries files)[k]? = some e) (hname : nameOf name = e.2.take DIRSIZ) :
    Does (Fs.lookupEntry sb dv name (d.inode sb ROOTINO)) d
      (some (e.1, DIRENT * k), d.inode sb ROOTINO) d := by
  obtain ⟨blocks, logged, outstanding, logsize⟩ := d
  obtain rfl : blocks = img.blocks := hd
  generalize hdisk : (⟨img.blocks, logged, outstanding, logsize⟩ : Disk) = d
  have hdin : d.dinode sb ROOTINO = img.disk.dinode sb ROOTINO := hdisk ▸ rfl
  have hcontent : d.content (d.dinode sb ROOTINO) =
    img.disk.content (img.disk.dinode sb ROOTINO) := hdisk ▸ rfl
  have hsize : (d.inode sb ROOTINO).size = rounded (rootBytes files).length :=
    (congrArg Dinode.size hdin).trans h.root
  have hdir : (d.dinode sb ROOTINO).type = T_DIR := hdin ▸ h.root_dir
  have hk : k < files.length + 2 := by
    rw [← length_entries]
    exact (List.getElem?_eq_some_iff.mp he).1
  obtain ⟨hne, hlt, hstr⟩ := hfits.entry he
  have hinum := h.entry_inum he hlt
  have hbinds : Binds (img.disk.content (img.disk.dinode sb ROOTINO)) (nameOf name) k :=
    ⟨by rw [hinum]; exact hne, (h.entry_name he hstr).trans hname.symm⟩
  have hfind := (h.unique hfits).findEntry hk hbinds
  have hentry : ∀ m < files.length + 2, d.HasEntry sb ROOTINO m := by
    intro m hm
    have hle := entry_le hm
    obtain ⟨hmax, hmiss, -⟩ := h.appended h.root_live hle
    refine ⟨?_, hmax, hdisk ▸ hmiss⟩
    rw [hsize]
    rw [table_root] at hle
    exact le_trans hle (le_rounded _)
  have hfuel : files.length + 2 - 0 ≤ (d.inode sb ROOTINO).size := by
    have := (hentry (files.length + 1) (Nat.lt_succ_self _)).size
    simp only [DIRENT] at this
    omega
  have hlook : Does (lookupFrom sb dv name (d.inode sb ROOTINO).size (d.inode sb ROOTINO) 0)
      d _ d :=
    lookupFrom_spec hdir hentry name _ 0 (Nat.zero_le _) hfuel
      (by rw [hcontent, Nat.sub_zero, hfind]; exact nofun)
  rw [hcontent, Nat.sub_zero, hfind, Option.map_some, hinum] at hlook
  unfold Does Fs.lookupEntry
  rw [if_neg (not_not.mpr (show (d.inode sb ROOTINO).type = T_DIR from hdir))]
  exact hlook

/-- The bytes of a file. -/
theorem Done.readi (hi : img.Live i) (hne : i ≠ ROOTINO) (dv : Devsw) :
    (Fs.readi sb dv (d.inode sb i) 0 (d.inode sb i).size).run d =
      .ok (((table files i).length, table files i, d.inode sb i), d) := by
  obtain ⟨blocks, logged, outstanding, logsize⟩ := d
  obtain rfl : blocks = img.blocks := hd
  generalize hdisk : (⟨img.blocks, logged, outstanding, logsize⟩ : Disk) = d
  have hdin : d.dinode sb i = img.disk.dinode sb i := hdisk ▸ rfl
  have hcontent : d.content (d.dinode sb i) = img.disk.content (img.disk.dinode sb i) := hdisk ▸ rfl
  have hsize : (d.inode sb i).size = (table files i).length :=
    (congrArg Dinode.size hdin).trans (h.size i hi hne)
  obtain ⟨hmax, hmiss, hbytes⟩ := h.appended hi (show 0 + (table files i).length ≤ _ by omega)
  have htype : (d.inode sb i).type ≠ T_DEV := by
    show (d.dinode sb i).type ≠ T_DEV
    rw [hdin, h.type i hi, typeOf]
    split_ifs <;> decide
  have hbig : MAXFILE * BSIZE < 2 ^ 32 := by decide
  have hread : Does (Fs.readi sb dv (d.inode sb i) 0 (d.inode sb i).size) d _ d :=
    readi_there htype (Nat.zero_le _) (by rw [hsize]; omega) (by rw [hsize]; simpa using hmax)
      (by rw [hsize, Nat.sub_zero, Nat.min_self]; exact hdisk ▸ hmiss)
  have hfile : d.file (d.inode sb i).toDinode = table files i := by
    show bytesFrom (d.content (d.dinode sb i)) 0 (d.inode sb i).size = _
    rw [hcontent, hsize, hbytes, drop_zero, take_length]
  rw [hfile, hsize, drop_zero, take_length, Nat.sub_zero, Nat.min_self] at hread
  rw [hsize]
  exact run_of_same hread

end

end Read

/-! ## Main theorem -/

theorem readsb_sbBlock : readsb (sbBlock sb) = sb := by
  have hword : ∀ k < 7, (sbBlock sb).word k =
      ([sb.size, sb.nblocks, sb.ninodes, sb.nlog, sb.logstart,
      sb.inodestart, sb.bmapstart].getD k 0) % 2 ^ 32 := by
    intro k hk
    unfold Block.word sbBlock
    rw [Block.load_ofBytes (by simp only [BSIZE]; omega), wordsOf_word]
  unfold readsb
  rw [hword 0 (by decide), hword 1 (by decide), hword 2 (by decide), hword 3 (by decide),
    hword 4 (by decide), hword 5 (by decide), hword 6 (by decide)]
  decide

section Mount

variable {img : Image} {files : List Input} {f : Input} {k : Nat} {st : Store}

theorem Fits.name_slash (h : Fits files) (hf : f ∈ files) : ∀ x ∈ f.name, x ≠ SLASH := by
  intro x hx hs
  subst hs
  refine (h.ok f hf).1 ?_
  unfold Input.name at hx
  split at hx
  · exact mem_of_mem_tail hx
  · exact hx

/-- The path `/name` has one element. -/
theorem Fits.elements (h : Fits files) (hf : f ∈ files) :
    elements (SLASH :: f.name) = [f.name.take DIRSIZ] := by
  unfold Fs.elements
  rw [components_slash, components_single (h.name_slash hf) (h.named f hf).1]
  rfl

theorem Done.namei (h : Done img files) (hfits : Fits files) (hk : files[k]? = some f) (dv : Devsw)
    (name : Mem) (cwd : Nat) (hst : st.disk.blocks = img.blocks) (hsync : st.Synced sb)
    (hslots : st.refs.toFinset.card + 2 ≤ NINODE) :
    ∃ st', Ends (Fs.namei sb dv name cwd (SLASH :: f.name)) st (some (k + 2)) st' ∧
      st'.disk = st.disk ∧ st'.Synced sb ∧ st'.refs = (k + 2) ::ₘ st.refs := by
  obtain ⟨hmem, hlt⟩ := mem_of_getElem hk
  have hpath : ∀ x ∈ SLASH :: f.name, x ≠ 0 := by
    intro x hx
    rcases mem_cons.mp hx with rfl | hx
    · decide
    · exact hfits.string f hmem x hx
  have habs : Absolute (SLASH :: f.name) := rfl
  have hstart : startOf cwd (SLASH :: f.name) = ROOTINO := if_pos habs
  obtain ⟨st₁, henter, hdisk, hsync₁, hholds⟩ := hsync.enter (fun hc => absurd habs hc) hslots
  rw [hstart] at hholds
  have hblocks : st₁.disk.blocks = img.blocks := hdisk ▸ hst
  have hdin : st₁.disk.dinode sb ROOTINO = img.disk.dinode sb ROOTINO := by
    unfold Disk.dinode
    rw [hblocks]
    rfl
  have hname : nameOf (memOf (f.name.take DIRSIZ)) = f.name.take DIRSIZ := by
    show cstr (memOf (f.name.take DIRSIZ)) DIRSIZ 0 = _
    rw [cstr_memOf fun x hx => hfits.string f hmem x (mem_of_mem_take hx), drop_zero,
      take_take, Nat.min_self]
  obtain ⟨st₂, hstep, hdisk₂, hsync₂, hholds₂⟩ := hsync₁.lookupStep hholds hslots
    (by rw [hdin, h.root_dir]; decide) (.inl (by rw [hdin, h.nlink _ h.root_live]; decide)) dv
    (f.name.take DIRSIZ) (some (k + 2))
    (fun _ => ⟨some (k + 2, DIRENT * (k + 2)), rfl,
      h.lookupEntry hblocks hfits dv (entries_file hk) hname⟩)
    (fun hc => absurd (by rw [hdin]; exact h.root_dir) hc)
  refine ⟨st₂, ?_, hdisk₂.trans hdisk, hsync₂, hholds₂⟩
  unfold Ends
  rw [namei_eq hpath, run_bind_of_ends henter, hfits.elements hmem, resolve_single, hstart]
  exact hstep

theorem table_file (hk : files[k]? = some f) : table files (k + 2) = f.data := by
  unfold table
  rw [if_neg (by simp only [ROOTINO]; omega), Nat.add_sub_cancel, hk]
  rfl

/-- **mkfs and the kernel agree**: the image of files that fit has the super block and an empty log,
    `namei` finds every file by its name, `ilock` shows its length, `readi` delivers its bytes, and
    the blocks that are marked as used are those below `freeblock`. `namei` needs two slots of the
    inode cache. -/
theorem mkfs_mount (files : List Input) (hfits : Fits files) :
    ∃ img, Ends (main files) start () img ∧ readsb (img.blocks 1) = sb ∧
      (img.blocks sb.logstart).word 0 = 0 ∧
      (∀ b < FSSIZE, img.disk.used sb b = decide (b < img.freeblock)) ∧
      ∀ (k : Nat) (f : Input), files[k]? = some f →
        ∀ (dv : Devsw) (name : Mem) (cwd : Nat) (st : Store), st.disk.blocks = img.blocks →
        st.Synced sb → st.refs.toFinset.card + 2 ≤ NINODE →
        ∃ st₁ st₂ ip, Ends (namei sb dv name cwd (SLASH :: f.name)) st (some (k + 2)) st₁ ∧
          Ends (ilock sb (k + 2)) st₁ ip st₂ ∧ ip.type = T_FILE ∧ ip.size = f.data.length ∧
          st₂.disk = st.disk ∧
          (readi sb dv ip 0 ip.size).run st₂.disk =
          .ok ((f.data.length, f.data, ip), st₂.disk) := by
  have hnodes : files.length + 1 < 200 := hfits.inodes
  obtain ⟨img, hrun, hdone⟩ :=
    main_ends (by show files.length + 2 ≤ 208; omega) hfits.ok hfits.blocks
  refine ⟨img, hrun, by rw [hdone.super, readsb_sbBlock], ?_, ?_, ?_⟩
  · show (img.blocks 2).word 0 = 0
    rw [hdone.log]
    decide
  · intro b hb
    rw [hdone.free]
    exact hdone.used_iff hb
  · intro k f hk dv name cwd st hst hsync hslots
    obtain ⟨hmem, hlt⟩ := mem_of_getElem hk
    obtain ⟨st₁, hnamei, hdisk, hsync₁, hrefs⟩ := hdone.namei hfits hk dv name cwd hst hsync hslots
    have hlive : img.Live (k + 2) := (hdone.live_iff _).mpr ⟨by omega, by omega⟩
    have hne : k + 2 ≠ ROOTINO := by
      simp only [ROOTINO]
      omega
    have hdin : st.disk.dinode sb (k + 2) = img.disk.dinode sb (k + 2) := by
      unfold Disk.dinode
      rw [hst]
      rfl
    have htype : (st.disk.dinode sb (k + 2)).type = T_FILE := by
      rw [hdin, hdone.type _ hlive, typeOf, if_neg hne]
    have hsize : (st.disk.dinode sb (k + 2)).size = f.data.length := by
      rw [hdin, hdone.size _ hlive hne, table_file hk]
    obtain ⟨st₂, hlock, hdisk₂, -⟩ := hsync₁.ilock (i := k + 2)
      (hrefs ▸ Multiset.mem_cons_self ..) (by rw [hdisk, htype]; decide)
    rw [hdisk] at hlock hdisk₂
    refine ⟨st₁, st₂, _, hnamei, hlock, htype, hsize, hdisk₂, ?_⟩
    have hread := hdone.readi hst hlive hne dv
    rw [table_file hk] at hread
    rw [hdisk₂]
    exact hread

/-- One file of three bytes, delivered in two reads. -/
theorem mkfs_mount_oneFile : ∃ img, Ends (main [⟨[95, 97], some [[1], [2, 3]]⟩]) start () img ∧
    ∃ st₁, Ends (namei sb noDevices (fun _ => 0) 1 [47, 97])
      ⟨img.disk, 0, fun _ => none⟩ (some 2) st₁ := by
  have hfits : Fits [⟨[95, 97], some [[1], [2, 3]]⟩] := {
    inodes := by decide
    blocks := by decide
    ok := by
      intro f hf
      rw [mem_singleton.mp hf]
      exact ⟨by decide, by decide, by decide⟩
    string := by
      intro f hf
      rw [mem_singleton.mp hf]
      simp [Input.name]
    named := by
      intro f hf
      rw [mem_singleton.mp hf]
      decide
    distinct := by decide }
  obtain ⟨img, hrun, -, -, -, hfiles⟩ := mkfs_mount _ hfits
  obtain ⟨st₁, -, -, hnamei, -⟩ := hfiles 0 _ rfl noDevices (fun _ => 0) 1
    ⟨img.disk, 0, fun _ => none⟩ rfl (fun i hi => by simp at hi) (show 0 + 2 ≤ NINODE by decide)
  exact ⟨img, hrun, st₁, hnamei⟩

end Mount

end Xv6.Mkfs
