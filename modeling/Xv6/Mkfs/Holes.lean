import Xv6.Mkfs.Finish

/-! # Holes of an image

    The blocks of a file that `mkfs` makes are all there. The size of the root directory is rounded
    up to the block behind its last entry, so a directory that fills its blocks gets a size with one
    block that is not there. With too many files an inode comes to lie in the free map.

    Key theorem: `mkfs_holes`.
-/

namespace Xv6.Mkfs

open ByteMem Fs Program Script List

/-! ## The counters only grow -/

/-- `x` takes `k` inodes and gives no block back. -/
def Grows {α : Type} (x : Mk α) (k : Nat) : Prop :=
  ∀ s a s', Ends x s a s' → s'.freeinode = s.freeinode + k ∧ s.freeblock ≤ s'.freeblock

section Grows

variable {α β : Type} {k l : Nat} {x : Mk α} {f : α → Mk β}

theorem Grows.bind (hx : Grows x k) (hf : ∀ a, Grows (f a) l) : Grows (x >>= f) (k + l) := by
  intro s b s'' h
  obtain ⟨a, s', h1, h2⟩ := ends_bind.mp h
  have g1 := hx s a s' h1
  have g2 := hf a s' b s'' h2
  omega

/-- Behind something that takes no inode. -/
theorem Grows.then (hx : Grows x 0) (hf : ∀ a, Grows (f a) k) : Grows (x >>= f) k := by
  have := hx.bind hf
  rwa [zero_add] at this

theorem Grows.pure (a : α) : Grows (Pure.pure a : Mk α) 0 := by
  intro s b s' h
  obtain ⟨-, rfl⟩ := ends_pure.mp h
  exact ⟨rfl, le_rfl⟩

theorem Grows.throw (e : String) : Grows (MonadExcept.throw e : Mk α) k := by
  intro s b s' h
  cases h

theorem Grows.ite {q : Prop} [Decidable q] {y : Mk α} (hx : Grows x k) (hy : Grows y k) :
    Grows (if q then x else y) k := by
  split
  · exact hx
  · exact hy

theorem grows_rsect (sec : Nat) : Grows (rsect sec) 0 := by
  intro s b s' h
  unfold rsect at h
  rw [ends_get_bind] at h
  split at h
  · obtain ⟨-, rfl⟩ := ends_pure.mp h
    exact ⟨rfl, le_rfl⟩
  · cases h

theorem grows_wsect (sec : Nat) (d : Block) : Grows (wsect sec d) 0 := by
  intro s b s' h
  rw [ends_modify.mp h]
  exact ⟨rfl, le_rfl⟩

theorem grows_nextBlock : Grows nextBlock 0 := by
  intro s b s' h
  obtain ⟨-, rfl⟩ := (ends_nextBlock s).unique h
  exact ⟨rfl, Nat.le_succ _⟩

theorem grows_winode (inum : Nat) (din : Dinode) : Grows (winode inum din) 0 :=
  (grows_rsect _).then fun _ => grows_wsect _ _

theorem grows_rinode (inum : Nat) : Grows (rinode inum) 0 :=
  (grows_rsect _).then fun _ => .pure _

theorem grows_ialloc (type : Nat) : Grows (ialloc type) 1 := by
  have hnext : Grows nextInode 1 := by
    intro s b s' h
    have he : Ends nextInode s s.freeinode s.inodeTaken := rfl
    obtain ⟨-, rfl⟩ := he.unique h
    exact ⟨rfl, le_rfl⟩
  exact hnext.bind fun _ => (grows_winode _ _).then fun _ => .pure _

theorem grows_fillAddr (din : Dinode) (j : Fin (NDIRECT + 1)) : Grows (fillAddr din j) 0 :=
  .ite (grows_nextBlock.then fun _ => .pure _) (.pure _)

theorem grows_entryFor (din : Dinode) (j : Nat) : Grows (entryFor din j) 0 :=
  (grows_rsect _).then fun _ =>
    .ite (grows_nextBlock.then fun _ => (grows_wsect _ _).then fun _ => .pure _) (.pure _)

theorem grows_blockFor (din : Dinode) (fbn : Nat) : Grows (blockFor din fbn) 0 := by
  unfold blockFor
  split
  · exact (grows_fillAddr _ _).then fun _ => .pure _
  · exact (grows_fillAddr _ _).then fun _ => grows_entryFor _ _

theorem grows_appendFrom (mem : Mem) (m : Nat) : ∀ din src off n,
    Grows (appendFrom mem m din src off n) 0 := by
  induction m with
  | zero => exact fun din src off n => .pure _
  | succ m ih =>
    intro din src off n
    rw [appendFrom]
    refine .ite (.ite ?_ (.throw _)) (.pure _)
    refine (grows_blockFor _ _).then fun r => ?_
    exact (grows_rsect _).then fun _ => (grows_wsect _ _).then fun _ => ih _ _ _ _

theorem grows_iappend (inum : Nat) (mem : Mem) (n : Nat) : Grows (iappend inum mem n) 0 :=
  (grows_rinode _).then fun _ => (grows_appendFrom _ _ _ _ _ _).then fun _ => grows_winode _ _

theorem grows_appendAll (inum : Nat) (bufs : List (List UInt8)) :
    Grows (appendAll inum bufs) 0 := by
  induction bufs with
  | nil => exact .pure _
  | cons buf bufs ih => exact (grows_iappend _ _ _).then fun _ => ih

theorem grows_addFile (rootino : Nat) (f : Input) : Grows (addFile rootino f) 1 := by
  unfold addFile
  refine .ite (.throw _) ?_
  split
  · exact .throw _
  · exact (grows_ialloc _).bind fun _ => (grows_iappend _ _ _).then fun _ => grows_appendAll _ _

theorem grows_addFiles (rootino : Nat) (fs : List Input) :
    Grows (addFiles rootino fs) fs.length := by
  induction fs with
  | nil => exact .pure _
  | cons f fs ih =>
    have := (grows_addFile rootino f).bind fun _ => ih
    rwa [add_comm] at this

theorem grows_fixRoot (rootino : Nat) : Grows (fixRoot rootino) 0 :=
  (grows_rinode _).then fun _ => grows_winode _ _

end Grows

/-! ## An inode in the free map -/

/-- The inode behind the inode blocks is read from the first words of the map, which says that
    blocks 64, 65, … are in use: it has a size, but either no block or too large a size. -/
theorem map_has_hole {s : Image} {u : Nat} (hmap : s.blocks sb.bmapstart = bitmap u) (hu : 64 < u) :
    ¬ NoHole s.disk (s.disk.dinode sb ISLOTS) := by
  intro hole
  have hsize : (s.disk.dinode sb ISLOTS).size = (bitmap u).word 2 := by
    show load ((s.blocks sb.bmapstart).bytes) 8 4 = _
    rw [hmap]
    rfl
  have haddr : (s.disk.dinode sb ISLOTS).addrs 0 = (bitmap u).word 3 := by
    show load ((s.blocks sb.bmapstart).bytes) 12 4 = _
    rw [hmap]
    rfl
  have hbit : ∀ {j k}, j < 128 →
      (((bitmap u).word j).testBit k = true ↔ k < 32 ∧ 32 * j + k < u) := by
    intro j k hj
    rw [testBit_word_bitmap u hj, decide_eq_true_eq]
  have hpos : 0 < (s.disk.dinode sb ISLOTS).size := by
    rw [hsize]
    have h0 := (hbit (j := 2) (k := 0) (by decide)).mpr ⟨by decide, by omega⟩
    exact Nat.pos_of_ne_zero fun hz => by simp [hz] at h0
  have hne : (bitmap u).word 3 ≠ 0 := by
    have := (hole 0 (by omega)).2
    rw [← haddr]
    exact this
  obtain ⟨k, hk⟩ := Nat.exists_testBit_of_ne_zero hne
  have hk' := (hbit (j := 3) (by decide)).mp hk
  have hhigh := (hbit (j := 2) (k := 31) (by decide)).mpr ⟨by decide, by omega⟩
  have hge := Nat.ge_two_pow_of_testBit hhigh
  have hle := hole.size_le
  rw [hsize] at hle
  have : MAXFILE * BSIZE < 2 ^ 31 := by decide
  omega

/-! ## Whole runs -/

section Runs

variable {s img : Image} {files fs : List Input} {i n : Nat} {dv : Devsw} {d : Disk}

theorem addFiles_append (fs gs : List Input) :
    addFiles ROOTINO (fs ++ gs) = (do addFiles ROOTINO fs; addFiles ROOTINO gs) := by
  induction fs with
  | nil =>
    show addFiles ROOTINO gs = (pure () >>= fun _ => addFiles ROOTINO gs)
    rw [pure_bind]
  | cons f fs ih =>
    show (do addFile ROOTINO f; addFiles ROOTINO (fs ++ gs)) = _
    rw [ih]
    show _ = ((do addFile ROOTINO f; addFiles ROOTINO fs) >>= fun _ => addFiles ROOTINO gs)
    rw [bind_assoc]

/-- A successful run with inodes in the inode blocks. -/
theorem main_done (h : Ends (main files) start () img) (hfit : files.length + 2 ≤ ISLOTS) :
    Done img files := by
  obtain ⟨s, hstage, hrun⟩ := main_run files
  unfold Ends at h
  rw [hrun] at h
  rcases addFiles_cases files hstage (by simpa using hfit) (by decide) with
    ⟨-, hused, s', hadd, hstage'⟩ | ⟨-, e, he⟩
  · rw [nil_append] at hstage' hused
    obtain ⟨s'', hfin, hdone⟩ := finish_spec hstage' hfit hused
    rw [run_bind_of_ends hadd, hfin] at h
    obtain rfl : s'' = img := by simpa using h
    exact hdone
  · rw [run_bind_of_error he] at h
    cases h

/-- Files that fit make an image. -/
theorem main_ends (hfit : files.length + 2 ≤ ISLOTS) (hok : ∀ f ∈ files, f.Ok)
    (hused : used files ≤ FSSIZE) : ∃ img, Ends (main files) start () img ∧ Done img files := by
  obtain ⟨s, hstage, hrun⟩ := main_run files
  rcases addFiles_cases files hstage (by simpa using hfit) (by decide) with
    ⟨-, -, s', hadd, hstage'⟩ | ⟨hno, -⟩
  · rw [nil_append] at hstage'
    obtain ⟨img, hfin, hdone⟩ := finish_spec hstage' hfit hused
    refine ⟨img, ?_, hdone⟩
    unfold Ends
    rw [hrun, run_bind_of_ends hadd]
    exact hfin
  · exact absurd ⟨hok, by rwa [nil_append]⟩ hno

/-- A file has all its blocks. -/
theorem Done.noHole_file (h : Done img files) (hi : img.Live i) (hne : i ≠ ROOTINO) :
    NoHole img.disk (img.disk.dinode sb i) := by
  obtain ⟨own, hf⟩ := h.files
  have hh := hf.holds i hi
  intro bn hbn
  rw [h.size i hi hne] at hbn
  have hle := hh.le
  have hlt : bn < MAXFILE := by
    simp only [BSIZE] at *
    omega
  exact ⟨hlt, (hh.there bn hlt).mpr hbn⟩

/-- The root directory has all its blocks unless its entries fill them. -/
theorem Done.noHole_root (h : Done img files) (hfit : files.length + 2 ≤ ISLOTS) :
    NoHole img.disk (img.disk.dinode sb ROOTINO) ↔ (files.length + 2) % 32 ≠ 0 := by
  obtain ⟨own, hf⟩ := h.files
  have hroot : img.Live ROOTINO := ⟨le_rfl, by rw [h.next]; simp only [ROOTINO]; omega⟩
  have hh := hf.holds _ hroot
  rw [table_root] at hh
  have hlen := length_rootBytes files
  have h208 : files.length + 2 ≤ 208 := hfit
  unfold NoHole
  rw [h.root, hlen]
  have hthere : ∀ bn < MAXFILE, img.disk.ref (img.disk.dinode sb ROOTINO) (slotOf bn) ≠ 0 ↔
      512 * bn < 16 * (files.length + 2) := by
    intro bn hbn
    rw [hh.there bn hbn, hlen]
  have hmax : ∀ bn, bn ≤ 16 * (files.length + 2) / 512 → bn < MAXFILE := by
    intro bn hbn
    simp only [MAXFILE, NDIRECT, NINDIRECT, BSIZE]
    omega
  simp only [rounded, DIRENT, BSIZE]
  constructor
  · intro hole hz
    -- the block behind the last entry
    have hlast := hole (16 * (files.length + 2) / 512) (by omega)
    have := (hthere _ hlast.1).mp hlast.2
    omega
  · intro hz bn hbn
    have hlt := hmax bn (by omega)
    exact ⟨hlt, (hthere bn hlt).mpr (by omega)⟩

/-- With more files than inode blocks the free map holds an inode. -/
theorem overrun_has_hole (h : Ends (main files) start () img) (hmany : ISLOTS < files.length + 2) :
    img.Live ISLOTS ∧ ¬ NoHole img.disk (img.disk.dinode sb ISLOTS) := by
  obtain ⟨s, hstage, hrun⟩ := main_run files
  unfold Ends at h
  rw [hrun, ← take_append_drop 200 files, addFiles_append] at h
  have hmany' : 208 < files.length + 2 := hmany
  have hlen : (files.take 200).length = 200 := by
    rw [length_take]
    omega
  rcases addFiles_cases (files.take 200) hstage (by rw [hlen]; decide) (by decide) with
    ⟨-, hused, s1, hadd, hstage1⟩ | ⟨-, e, he⟩
  · obtain ⟨⟨⟩, s2, h2, hfin⟩ := ends_bind.mp h
    rw [Ends, run_bind_of_ends hadd] at h2
    obtain ⟨hino, hblk⟩ := grows_addFiles _ _ s1 () s2 h2
    unfold finish at hfin
    obtain ⟨⟨⟩, s3, h3, hfin⟩ := ends_bind.mp hfin
    obtain ⟨hino3, hblk3⟩ := grows_fixRoot _ s2 () s3 h3
    rw [ends_get_bind, balloc] at hfin
    -- the first 200 entries already need seven blocks
    have hfree1 : 64 < s1.freeblock := by
      rw [hstage1.free, nil_append]
      unfold used
      rw [hlen]
      have : nmeta + blocksFor (DIRENT * (200 + 2)) = 66 := by decide
      omega
    have hfree : 64 < s3.freeblock := by omega
    split at hfin
    · have himg := ends_modify.mp hfin
      have hmap : img.blocks sb.bmapstart = bitmap s3.freeblock := by
        rw [himg]
        exact write_blocks_self (by decide)
      refine ⟨⟨by decide, ?_⟩, map_has_hole hmap hfree⟩
      have hnext := hstage1.next
      have himg' : img.freeinode = s3.freeinode := by
        rw [himg]
        rfl
      rw [nil_append, hlen] at hnext
      rw [length_drop] at hino
      show 208 < img.freeinode
      omega
    · cases hfin
  · rw [run_bind_of_error (run_bind_of_error he)] at h
    cases h

theorem Done.used_iff (h : Done img files) {b : Nat} (hb : b < FSSIZE) :
    img.disk.used sb b = decide (b < used files) := by
  have hb' : b < 1000 := hb
  have hblk : sb.BBLOCK b = sb.bmapstart := by
    show b / 4096 + 58 = 58
    omega
  have hmod : b % BPB = b := Nat.mod_eq_of_lt (by simp only [BPB, BSIZE]; omega)
  unfold Disk.used
  rw [hblk, hmod]
  show bit (img.blocks sb.bmapstart) b = _
  rw [h.bitmap, bit_bitmap _ (by simp only [BPB, BSIZE]; omega)]

/-- A read of a block that is not there takes one, which needs a transaction. -/
theorem readi_hole {ip : Inode} {bn : Nat} (ht : ip.type ≠ T_DEV) (hbn : bn < NDIRECT)
    (hz : ip.addrs ⟨bn, Nat.lt_succ_of_lt hbn⟩ = 0) (hn : 0 < n) (hle : n ≤ BSIZE)
    (hsize : BSIZE * bn + n ≤ ip.size) (hlt : ip.size < 2 ^ 32)
    (hfree : ∃ b < sb.size, img.disk.used sb b = false) :
    (readi sb dv ip (BSIZE * bn) n).run img.disk = .error "log_write outside of trans" := by
  rcases balloc_spec sb img.disk with ⟨b, -, -, -, he⟩ | ⟨hfull, -⟩
  · have hu : u32 (BSIZE * bn + n) = BSIZE * bn + n := u32_of_lt (by omega)
    have hdiv : BSIZE * bn / BSIZE = bn := Nat.mul_div_cancel_left _ (by decide)
    have hchunk : chunk (BSIZE * bn) n = n := by
      unfold chunk
      rw [Nat.mul_mod_right]
      omega
    obtain ⟨n, rfl⟩ := Nat.exists_eq_succ_of_ne_zero (ne_of_gt hn)
    have hcount : (if u32 (BSIZE * bn + (n + 1)) > ip.size then ip.size - BSIZE * bn else n + 1) =
        n + 1 := if_neg (by rw [hu]; omega)
    have hmap : Does (bmap sb ip bn) img.disk (b, ip.setAddr ⟨bn, Nat.lt_succ_of_lt hbn⟩ b)
        (img.disk.alloc sb b) := by
      unfold Does bmap
      rw [dif_pos hbn, if_pos hz, bind_of_does he]
      rfl
    have hrest : ∀ ip' : Inode, Does (readFrom sb n ip' (BSIZE * bn + (n + 1)) 0)
        (img.disk.alloc sb b) ([], ip') (img.disk.alloc sb b) := by
      intro ip'
      cases n with
      | zero => rfl
      | succ n => rfl
    have hread : ((readi sb dv ip (BSIZE * bn) (n + 1)).plain img.disk).2 =
        img.disk.alloc sb b := by
      unfold readi
      rw [if_neg ht, if_neg (by rw [hu]; omega)]
      simp only [hcount]
      rw [readFrom, if_pos hn, hdiv, hchunk, Nat.sub_self, bind_assoc, bind_of_does hmap]
      dsimp only
      rw [bind_assoc, bind_of_does (does_bread ..), bind_assoc, bind_of_does (hrest _)]
      rfl
    refine run_refused (fun _ => rfl) ?_
    rw [hread]
    intro hc
    have := congrArg Disk.logged hc
    simp [Disk.alloc, Disk.write, Image.disk] at this
  · obtain ⟨b, hb, hu⟩ := hfree
    rw [hfull b hb] at hu
    cases hu

/-- `readi` on a file without holes writes nothing. -/
theorem readi_quiet (hole : NoHole d (d.dinode sb i)) (ht : (d.dinode sb i).type ≠ T_DEV)
    {off : Nat} (hoff : off < 2 ^ 32) (hn : n < 2 ^ 32) :
    ∃ v bs, (readi sb dv (d.inode sb i) off n).run d = .ok ((v, bs, d.inode sb i), d) := by
  by_cases hrej : (d.inode sb i).size < off ∨ 2 ^ 32 ≤ off + n
  · exact ⟨_, _, run_of_same (readi_rejects ht hoff hn hrej)⟩
  · rw [not_or] at hrej
    exact ⟨_, _, run_of_same (readi_spec ht hole (by omega) (by omega))⟩

end Runs

/-! ## Main theorem -/

/-- **Holes**: in the image that `mkfs` leaves, every inode has all the blocks below its size if and
    only if the entries of the root directory do not fill its blocks and the inodes fit into the
    inode blocks. Then no `readi` reaches the allocation of `bmap`. -/
theorem mkfs_holes (files : List Input) (img : Image) (h : Ends (main files) start () img) :
    ((∀ i, img.Live i → NoHole img.disk (img.disk.dinode sb i)) ↔
      (files.length + 2) % 32 ≠ 0 ∧ files.length + 2 ≤ ISLOTS) ∧
    ((files.length + 2) % 32 ≠ 0 ∧ files.length + 2 ≤ ISLOTS →
      ∀ (dv : Devsw) (i off n : Nat), img.Live i → off < 2 ^ 32 → n < 2 ^ 32 →
        ∃ v bs, (readi sb dv (img.disk.inode sb i) off n).run img.disk =
          .ok ((v, bs, img.disk.inode sb i), img.disk)) := by
  have hgood : (files.length + 2) % 32 ≠ 0 ∧ files.length + 2 ≤ ISLOTS →
      ∀ i, img.Live i → NoHole img.disk (img.disk.dinode sb i) := by
    rintro ⟨hz, hfit⟩ i hi
    have hdone := main_done h hfit
    by_cases hroot : i = ROOTINO
    · subst hroot
      exact (hdone.noHole_root hfit).mpr hz
    · exact hdone.noHole_file hi hroot
  refine ⟨⟨fun hall => ?_, hgood⟩, fun hc dv i off n hi hoff hn => ?_⟩
  · by_cases hfit : files.length + 2 ≤ ISLOTS
    · have hdone := main_done h hfit
      have hroot : img.Live ROOTINO :=
        ⟨le_rfl, by rw [hdone.next]; simp only [ROOTINO]; omega⟩
      exact ⟨(hdone.noHole_root hfit).mp (hall _ hroot), hfit⟩
    · obtain ⟨hlive, hhole⟩ := overrun_has_hole h (Nat.lt_of_not_le hfit)
      exact absurd (hall _ hlive) hhole
  · have hdone := main_done h hc.2
    refine readi_quiet (hgood hc i hi) ?_ hoff hn
    rw [hdone.type i hi, typeOf]
    split_ifs <;> decide

/-- One file of three bytes: the image has no holes. -/
theorem mkfs_holes_oneFile : ∃ img, Ends (main [⟨[97], some [[1], [2, 3]]⟩]) start () img ∧
    (∀ i, img.Live i → NoHole img.disk (img.disk.dinode sb i)) ∧
    ∃ v bs, (readi sb noDevices (img.disk.inode sb 2) 0 3).run img.disk =
      .ok ((v, bs, img.disk.inode sb 2), img.disk) := by
  let file : Input := ⟨[97], some [[1], [2, 3]]⟩
  obtain ⟨img, hrun, hdone⟩ := main_ends (show [file].length + 2 ≤ ISLOTS by decide) (by
    intro f hf
    rw [mem_singleton.mp hf]
    exact ⟨by decide, by decide, by decide⟩) (by decide)
  have hlive : img.Live 2 := ⟨by decide, by rw [hdone.next]; decide⟩
  obtain ⟨hiff, hread⟩ := mkfs_holes [file] img hrun
  exact ⟨img, hrun, hiff.mpr (by decide), hread (by decide) noDevices 2 0 3 hlive (by decide)
    (by decide)⟩

/-- Thirty empty files, named by one letter each. -/
def thirtyFiles : List Input := (List.range 30).map fun k => ⟨[UInt8.ofNat (65 + k)], some []⟩

/-- With thirty files the root directory fills its block and has a size of two.
    A read of its second block, as `ls /` makes it, calls `log_write` with no
    transaction open. -/
theorem thirtyFiles_hole : ∃ img, Ends (main thirtyFiles) start () img ∧
    ¬ NoHole img.disk (img.disk.dinode sb ROOTINO) ∧
    (readi sb noDevices (img.disk.inode sb ROOTINO) BSIZE DIRENT).run img.disk =
      .error "log_write outside of trans" := by
  obtain ⟨img, hrun, hdone⟩ := main_ends (show thirtyFiles.length + 2 ≤ ISLOTS by decide) (by
    intro f hf
    obtain ⟨k, hk, rfl⟩ := mem_map.mp hf
    refine ⟨?_, by simp, by simp [Input.data]⟩
    have : ∀ k ∈ range 30, SLASH ∉ [UInt8.ofNat (65 + k)] := by decide
    exact this k hk) (by decide)
  have hlen : thirtyFiles.length = 30 := by decide
  have hused : used thirtyFiles = 60 := by decide
  have hroot : img.Live ROOTINO := ⟨le_rfl, by rw [hdone.next, hlen]; decide⟩
  obtain ⟨own, hf⟩ := hdone.files
  have hh := hf.holds _ hroot
  have hbytes := length_rootBytes thirtyFiles
  rw [table_root] at hh
  have hsize := hdone.root
  rw [hbytes, hlen] at hsize
  refine ⟨img, hrun, ?_, ?_⟩
  · rw [hdone.noHole_root (by decide), hlen]
    decide
  · have hz : (img.disk.inode sb ROOTINO).addrs 1 = 0 := by
      by_contra hne
      have := (hh.there 1 (by decide)).mp hne
      rw [hbytes, hlen] at this
      exact absurd this (by decide)
    have hsz : (img.disk.inode sb ROOTINO).size = 1024 := hsize
    refine readi_hole ?_ (show 1 < NDIRECT by decide) hz (by decide) (by decide) ?_ ?_ ?_
    · show (img.disk.dinode sb ROOTINO).type ≠ T_DEV
      rw [hdone.type _ hroot]
      decide
    · rw [hsz]
      decide
    · rw [hsz]
      decide
    · refine ⟨60, by decide, ?_⟩
      rw [hdone.used_iff (by decide), hused]
      rfl

end Xv6.Mkfs
