import Xv6.Fs.Dir

/-! # A full directory

    A directory holds `MAXENT` entries. `dirlink` does not check for that: it calls `writei` behind
    the last entry, `writei` rejects the range, and `dirlink` panics. The names below fill the root
    directory of an empty disk.
-/

namespace Xv6.Fs

open Program Script ByteMem

/-! ## Names -/

/-- A name of two bytes for every number below 255 * 255. -/
def nameAt (j : Nat) : Mem := fun x =>
  if x = 0 then UInt8.ofNat (j % 255 + 1) else if x = 1 then UInt8.ofNat (j / 255 + 1) else 0

theorem ofNat_ne_zero {v : Nat} (h : v + 1 < 256) : UInt8.ofNat (v + 1) ≠ 0 := by
  intro hc
  have := congrArg UInt8.toNat hc
  rw [UInt8.toNat_ofNat', Nat.mod_eq_of_lt h] at this
  simp at this

theorem nameOf_nameAt {j : Nat} (h : j < 255 * 255) :
    nameOf (nameAt j) = [UInt8.ofNat (j % 255 + 1), UInt8.ofNat (j / 255 + 1)] := by
  have h0 : nameAt j 0 ≠ 0 := ofNat_ne_zero (by omega)
  have h1 : nameAt j 1 ≠ 0 := ofNat_ne_zero (by omega)
  have h2 : nameAt j 2 = 0 := rfl
  show cstr (nameAt j) (11 + 1 + 1 + 1) 0 = _
  rw [cstr, if_neg h0, cstr, if_neg h1, cstr, if_pos h2]
  rfl

theorem nameAt_inj {j k : Nat} (hj : j < 255 * 255) (hk : k < 255 * 255)
    (h : nameOf (nameAt j) = nameOf (nameAt k)) : j = k := by
  rw [nameOf_nameAt hj, nameOf_nameAt hk] at h
  simp only [List.cons.injEq, and_true] at h
  have h1 := congrArg UInt8.toNat h.1
  have h2 := congrArg UInt8.toNat h.2
  rw [UInt8.toNat_ofNat', UInt8.toNat_ofNat'] at h1 h2
  omega

/-! ## Filling a directory -/

/-- The blocks of a directory with `k` entries. -/
def dirBlocks (k : Nat) : Nat := (k + 31) / 32 + if 384 < k then 1 else 0

/-- A directory in which entry `j` has name `j`, and the blocks that are left. -/
structure Filled (sb : Superblock) (s : Disk) (i k N : Nat) : Prop where
  dir   : IsDir sb s i k
  names : ∀ j < k, Binds (s.content (s.dinode sb i)) (nameOf (nameAt j)) j
  free  : N ≤ s.nfree sb + dirBlocks k
  log   : s.logsize = LOGSIZE

section Fill

variable {sb : Superblock} {dv : Devsw} {s : Disk} {st : Store} {i k N : Nat}

/-- The blocks that entry `k` needs. -/
theorem IsDir.entry_need (h : IsDir sb s i k) :
    s.writeNeed (s.inode sb i) (DIRENT * k) DIRENT + dirBlocks k ≤ dirBlocks (k + 1) := by
  have hsize : (s.dinode sb i).size = DIRENT * k := h.size
  have hsub : s.missing (s.inode sb i) (DIRENT * k) DIRENT ⊆ {k / 32} := by
    intro bn hbn
    rw [Finset.mem_singleton]
    exact touched_entry (mem_missing.mp hbn).1
  have hcard := Finset.card_le_card hsub
  rw [Finset.card_singleton] at hcard
  -- inside a block nothing is missing
  have hin : k % 32 ≠ 0 → s.missing (s.inode sb i) (DIRENT * k) DIRENT = ∅ := by
    intro hmod
    rw [Finset.eq_empty_iff_forall_notMem]
    intro bn hbn
    obtain ⟨hmem, hz⟩ := mem_missing.mp hbn
    refine (h.noHole bn ?_).2 hz
    rw [touched_entry hmem, hsize]
    simp only [DIRENT, BSIZE]
    omega
  -- the indirect block is there after the first entry in it
  have hind : 384 < k → (s.inode sb i).addrs INDIRECT ≠ 0 := by
    intro hk hz
    refine (h.noHole 12 ?_).2 ?_
    · rw [hsize]
      simp only [DIRENT, BSIZE]
      omega
    · exact if_pos hz
  unfold Disk.writeNeed dirBlocks
  by_cases hmod : k % 32 = 0
  · by_cases hc : (s.inode sb i).addrs INDIRECT = 0 ∧
        ∃ bn ∈ s.missing (s.inode sb i) (DIRENT * k) DIRENT, ¬ bn < NDIRECT
    · obtain ⟨hz, bn, hbn, hd⟩ := hc
      have hbk := touched_entry (mem_missing.mp hbn).1
      have hk : ¬ 384 < k := fun hk => hind hk hz
      rw [if_pos ⟨hz, bn, hbn, hd⟩, if_neg hk, if_pos (by simp only [NDIRECT] at hd; omega)]
      omega
    · rw [if_neg hc]
      split_ifs <;> omega
  · rw [hin hmod]
    simp only [Finset.card_empty, Finset.notMem_empty, false_and, exists_false, and_false, if_false]
    split_ifs <;> omega

theorem Filled.findEmpty (h : Filled sb s i k N) :
    (findEmpty (s.content (s.dinode sb i)) 0 k).getD k = k := by
  cases hf : Fs.findEmpty (s.content (s.dinode sb i)) 0 k with
  | none => rfl
  | some j =>
    have hmem := List.mem_of_find?_eq_some hf
    have hz := List.find?_some hf
    rw [List.mem_range'_1] at hmem
    exact absurd (by simpa using hz) (h.names j (by omega)).1

theorem Filled.absent (h : Filled sb s i k N) (hk : k ≤ MAXENT) :
    findEntry (s.content (s.dinode sb i)) (nameOf (nameAt k)) 0 k = none := by
  rw [findEntry_eq_none]
  intro j hj hb
  have hmax : MAXENT < 255 * 255 := by decide
  have := nameAt_inj (by omega) (by omega) ((h.names j hj).2.symm.trans hb.2)
  omega

theorem Filled.link (hsb : sb.Ok) (h : Filled sb s i k N) (hk : k < MAXENT) (hN : 141 ≤ N)
    (hone : sb.size ≤ BPB) (dv : Devsw) (de : Dirent) :
    ∃ s', Does (linkEntry sb dv de (nameAt k) 1 (s.inode sb i)) s (0, s'.inode sb i) s' ∧
      Filled sb s' i (k + 1) N ∧ s'.n ≤ s.n + 4 := by
  have hneed := h.dir.entry_need
  have hfree := h.free
  have hblocks : dirBlocks (k + 1) ≤ 141 := by
    unfold dirBlocks
    simp only [MAXENT, DIRENT, MAXFILE, NDIRECT, NINDIRECT, BSIZE] at hk
    split_ifs <;> omega
  rcases h.dir.linkEntry_spec hsb dv de (nameAt k) 1 h.findEmpty with
    ⟨hfull, -⟩ | ⟨-, hfull, -⟩ | ⟨-, x, s', he, hw, hdir⟩
  · omega
  · omega
  · rw [Nat.max_eq_right (Nat.le_succ k)] at hdir
    have hnew : entry (copy (s.content (s.dinode sb i)) (DIRENT * k)
        (Dirent.bytes ⟨1 % 2 ^ 16, strncpy x (nameAt k) DIRSIZ 0⟩) 0 DIRENT) k =
        entry (Dirent.bytes ⟨1 % 2 ^ 16, strncpy x (nameAt k) DIRSIZ 0⟩) 0 := entry_copy_self
    have hbytes := entry_bytes ⟨1 % 2 ^ 16, strncpy x (nameAt k) DIRSIZ 0⟩
      (show 1 % 2 ^ 16 < 2 ^ 16 by decide)
    refine ⟨s', he, ⟨hdir, fun j hj => ?_, ?_, (logsize_of_does he).trans h.log⟩, hw.n_entry hone⟩
    · rw [hw.content]
      by_cases hjk : j = k
      · subst hjk
        unfold Binds
        rw [hnew, hbytes.1, hbytes.2]
        exact ⟨show 1 % 2 ^ 16 ≠ 0 by decide, cstr_strncpy⟩
      · unfold Binds
        rw [entry_copy_of_ne hjk]
        exact h.names j (by omega)
    · have := hw.nfree
      omega

/-- The search for a name that is not there. -/
theorem Filled.lookup (h : Filled sb s i k N) (hk : k ≤ MAXENT) (dv : Devsw) :
    Does (lookupEntry sb dv (nameAt k) (s.inode sb i)) s (none, s.inode sb i) s := by
  have hlook := h.dir.lookupEntry_spec dv (nameAt k)
  rwa [h.absent hk] at hlook

/-- A commit, and one more name. -/
theorem Filled.step (hsb : sb.Ok) (hl : st.Locked sb i) (h : Filled sb st.disk i k N)
    (hk : k < MAXENT) (hN : 141 ≤ N) (hone : sb.size ≤ BPB) (de : Dirent) :
    ∃ st', (dirSystem sb dv i).Run st [.env, .link de (nameAt k) 1] st' ∧ st'.Locked sb i ∧
      Filled sb st'.disk i (k + 1) N := by
  let st₁ : Store := { st with disk := { st.disk with logged := [] } }
  have hsound : Sound sb st₁.disk := h.dir.sound.of_blocks rfl
  have hl₁ : st₁.Locked sb i := ⟨hl.ref, hl.mem, hl.trans.1, .inl rfl⟩
  have hfill : Filled sb st₁.disk i k N :=
    ⟨⟨hsound, h.dir.lt, h.dir.type, h.dir.size⟩, h.names, h.free, h.log⟩
  obtain ⟨s', he, hfill', hn⟩ := hfill.link hsb hk hN hone dv de
  have hroom : s'.n < min LOGSIZE (st₁.disk.logsize - 1) := by
    rw [hfill.log]
    exact lt_of_le_of_lt hn (show 0 + 4 < 29 by decide)
  have hadmits : st₁.disk.Admits s'.logged := st₁.disk.admits_of_card hl.trans.1 hroom
  have hrun := hl₁.of_does he
  rw [if_pos hadmits, ← dirlink_of_none hl₁.mem (hfill.lookup (le_of_lt hk) dv)] at hrun
  exact ⟨_, .cons ⟨hl₁, hsound, rfl, rfl⟩ (.single ⟨Nat.le_refl 1, by decide, 0, hrun⟩),
    hl₁.set he hadmits, hfill'⟩

theorem Filled.reach (dv : Devsw) (hsb : sb.Ok) (hl : st.Locked sb i) (h : Filled sb st.disk i 0 N)
    (hN : 141 ≤ N) (hone : sb.size ≤ BPB) : ∀ k ≤ MAXENT, ∃ st',
      (dirSystem sb dv i).Reachable st' ∧ st'.Locked sb i ∧ Filled sb st'.disk i k N := by
  intro k
  induction k with
  | zero => exact fun _ => ⟨st, .of_init ⟨hl, h.dir⟩, hl, h⟩
  | succ k ih =>
    intro hk
    obtain ⟨st₁, ⟨st₀, ls, hinit, hrun⟩, hl₁, hfill⟩ := ih (by omega)
    obtain ⟨st₂, hstep, hl₂, hfill'⟩ := hfill.step hsb hl₁ hk hN hone ⟨0, fun _ => 0⟩
    exact ⟨st₂, ⟨st₀, _, hinit, hrun.trans hstep⟩, hl₂, hfill'⟩

end Fill

/-! ## An empty root directory -/

/-- An empty directory with one link. -/
def emptyDir : Dinode := { Dinode.fresh T_DIR with nlink := 1 }

/-- The disk of `mkfs` with an empty root directory and nothing else. -/
def emptyRoot : Disk := Disk.put mkfs
  ⟨fun b => if b = mkfs.bmapstart then marks 59 else .fill 0, [], 1, LOGSIZE⟩ 1 emptyDir

theorem emptyRoot_one : emptyRoot.dinode mkfs 1 = emptyDir :=
  dinode_put_self ⟨by decide, by decide, by decide, by decide, by decide,
    fun _ => show 0 < 2 ^ 32 by decide⟩

theorem zero_type (i : Nat) : (dinodeAt (.fill 0) i).type = 0 := by
  have : (Block.fill 0).bytes = fun _ => 0 := by
    funext x
    simp [Block.bytes, Block.fill]
  show load (Block.fill 0).bytes _ 2 = 0
  rw [this, load_zero]

theorem emptyRoot_free {i : Nat} (hi : i < mkfs.ninodes) (h : i ≠ 1) :
    (emptyRoot.dinode mkfs i).type = 0 := by
  unfold emptyRoot
  rw [dinode_put_of_ne h]
  have hne : mkfs.IBLOCK i ≠ mkfs.bmapstart := ne_of_lt (mkfs_ok.iblock_lt hi)
  unfold Disk.dinode
  dsimp only
  rw [if_neg hne, zero_type]

theorem emptyRoot_used {b : Nat} (hb : b < mkfs.size) :
    emptyRoot.used mkfs b = decide (b < 59) := by
  have hsize : mkfs.size = 1000 := rfl
  have hmap : mkfs.BBLOCK b = mkfs.bmapstart := bblock_eq (by decide) hb
  unfold emptyRoot
  rw [used_put mkfs_ok (by decide)]
  unfold Disk.used
  rw [hmap, Nat.mod_eq_of_lt (by simp only [BPB, BSIZE]; omega)]
  exact bit_marks (by simp only [BPB, BSIZE]; omega)

theorem emptyRoot_owns : Owns mkfs emptyRoot (emptyRoot.dinode mkfs) (fun _ => none)
    fun _ => False := by
  have hnmeta : mkfs.nmeta = 59 := by decide
  refine ⟨fun i sl b hb => ?_, fun b hb => ?_, fun b hb => hb.elim, fun b hb => ?_⟩
  · refine iff_of_false ?_ (by simp)
    rintro ⟨hi, ht, hr⟩
    by_cases h1 : i = 1
    · have hz : emptyRoot.ref emptyDir sl = 0 := fresh_ref _ T_DIR sl
      rw [h1, emptyRoot_one, hz] at hr
      exact hb hr.symm
    · exact ht (emptyRoot_free hi h1)
  · rcases hb with hb | hb
    · exact absurd rfl hb
    · exact hb.elim
  · rw [emptyRoot_used hb, decide_eq_true_eq, hnmeta]
    simp

theorem emptyRoot_dir : IsDir mkfs emptyRoot 1 0 := by
  refine ⟨⟨⟨_, emptyRoot_owns⟩, fun i hi ht => ?_⟩, by decide, by rw [emptyRoot_one]; rfl,
    by rw [emptyRoot_one]; rfl⟩
  by_cases h1 : i = 1
  · rw [h1, emptyRoot_one]
    exact fun bn hbn => absurd hbn (Nat.not_lt_zero _)
  · exact absurd (emptyRoot_free hi h1) ht

theorem emptyRoot_nfree : emptyRoot.nfree mkfs = 941 := by
  have hset : emptyRoot.freeSet mkfs = Finset.Ico 59 1000 := by
    ext b
    rw [mem_freeSet, Finset.mem_Ico]
    constructor
    · rintro ⟨hb, hu⟩
      rw [emptyRoot_used hb, decide_eq_false_iff_not] at hu
      exact ⟨by omega, hb⟩
    · rintro ⟨h1, hb⟩
      refine ⟨hb, ?_⟩
      rw [emptyRoot_used hb, decide_eq_false_iff_not]
      omega
  unfold Disk.nfree
  rw [hset, Nat.card_Ico]

theorem emptyRoot_room : emptyRoot.HasRoom mkfs 1 := by
  have hentries := emptyRoot_dir.entries
  have hfree : emptyRoot.freeEntry mkfs 1 = 0 := by
    unfold Disk.freeEntry
    rw [hentries]
    rfl
  have hneed := emptyRoot_dir.entry_need
  have hblocks : dirBlocks 0 = 0 ∧ dirBlocks (0 + 1) = 1 := by decide
  unfold Disk.HasRoom
  rw [hfree, emptyRoot_nfree]
  exact ⟨by decide, by omega⟩

end Xv6.Fs
