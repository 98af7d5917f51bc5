import Xv6.Mkfs.Mount

/-! # The bounds of the device

    `mkfs` hands out blocks and inodes by counters. A block behind the last sector cannot be read
    back, which ends the program; nothing stops the inode numbers at `NINODES`, which is what the
    super block says.

    Key theorem: `mkfs_within`.
-/

namespace Xv6.Mkfs

open ByteMem Fs Program

/-- All that the image stores is in the device; `n` is the number of entries
    that were appended to the root directory. -/
structure Within (s : Image) (n : Nat) : Prop where
  blocks  : ∀ i sl, s.Live i → s.disk.ref (s.disk.dinode sb i) sl ≠ 0 →
    nmeta ≤ s.disk.ref (s.disk.dinode sb i) sl ∧ s.disk.ref (s.disk.dinode sb i) sl < FSSIZE
  once    : ∀ i sl j sl', s.Live i → s.Live j → s.disk.ref (s.disk.dinode sb i) sl ≠ 0 →
    s.disk.ref (s.disk.dinode sb i) sl = s.disk.ref (s.disk.dinode sb j) sl' → i = j ∧ sl = sl'
  entries : ∀ m < n, (entry (s.disk.content (s.disk.dinode sb ROOTINO)) m).inum < NINODES
  sectors : s.sectors ≤ FSSIZE

section Done

variable {img : Image} {files : List Input}

theorem Done.within (h : Done img files) (hfit : files.length + 2 ≤ NINODES) :
    Within img (files.length + 2) := by
  obtain ⟨own, hf⟩ := h.files
  have hhigh := hf.high
  refine ⟨fun i sl hi hz => ?_, fun i sl j sl' hi hj hz heq => ?_, fun m hm => ?_, hf.sectors.le⟩
  · obtain ⟨h1, h2⟩ := hf.in_data hi hz
    exact ⟨h1, by omega⟩
  · -- a block has one owner
    have h1 := hf.owner hi hz
    have h2 := hf.owner hj (heq ▸ hz)
    rw [heq, h2] at h1
    cases h1
    exact ⟨rfl, rfl⟩
  · rw [← length_entries] at hm
    have he := List.getElem?_eq_getElem hm
    have hlt : (Mkfs.entries files)[m].1 < NINODES := by
      rcases entries_cases he with he' | he' | ⟨k, f, hf, he'⟩
      · rw [he']
        decide
      · rw [he']
        decide
      · have := (mem_of_getElem hf).2
        rw [he']
        show k + 2 < NINODES
        omega
    rw [h.entry_inum he (by simp only [NINODES] at hlt; omega)]
    exact hlt

end Done

/-- **Bounds**: when `mkfs` ends successfully with at most 198 files, everything it has stored is in
    the device. With more files, as long as their inodes lie in the inode blocks, there is an entry
    with a number that is not below `NINODES`; beyond that an inode lies in the free map, and what
    is read back from there has a size without its blocks. -/
theorem mkfs_within (files : List Input) (img : Image) (h : Ends (main files) start () img) :
    (files.length + 2 ≤ NINODES → Within img (files.length + 2)) ∧
    (NINODES < files.length + 2 → files.length + 2 ≤ ISLOTS → ¬ Within img (files.length + 2)) ∧
    (ISLOTS < files.length + 2 → img.Live ISLOTS ∧ sb.IBLOCK ISLOTS = sb.bmapstart ∧
      ¬ NoHole img.disk (img.disk.dinode sb ISLOTS)) := by
  have hslots : NINODES ≤ ISLOTS := by decide
  refine ⟨fun hfit => ?_, fun hmany hfit hw => ?_, fun hmany => ?_⟩
  · exact (main_done h (hfit.trans hslots)).within hfit
  · have hlen := length_entries files
    have h208 : files.length + 2 ≤ 208 := hfit
    have hk : files.length - 1 < files.length := by
      simp only [NINODES] at hmany
      omega
    -- the entry of the last file
    have he := entries_file (List.getElem?_eq_getElem hk)
    have hinum := (main_done h hfit).entry_inum he (by dsimp only; omega)
    have hlt := hw.entries (files.length - 1 + 2) (by omega)
    rw [hinum] at hlt
    dsimp only at hlt
    omega
  · obtain ⟨hlive, hole⟩ := overrun_has_hole h hmany
    exact ⟨hlive, rfl, hole⟩

/-- One file of three bytes. -/
theorem mkfs_within_oneFile :
    ∃ img, Ends (main [⟨[97], some [[1], [2, 3]]⟩]) start () img ∧ Within img 3 := by
  let file : Input := ⟨[97], some [[1], [2, 3]]⟩
  obtain ⟨img, hrun, -⟩ := main_ends (show [file].length + 2 ≤ ISLOTS by decide) (by
    intro f hf
    rw [List.mem_singleton.mp hf]
    exact ⟨by decide, by decide, by decide⟩) (by decide)
  exact ⟨img, hrun, (mkfs_within _ img hrun).1 (by decide)⟩

/-- 199 empty files. -/
def manyFiles : List Input := List.replicate 199 ⟨[97], some []⟩

/-- The last of 199 files gets inode 200, of 200. -/
theorem manyFiles_outside : ∃ img, Ends (main manyFiles) start () img ∧
    (entry (img.disk.content (img.disk.dinode sb ROOTINO)) 200).inum = NINODES := by
  have hlen : manyFiles.length = 199 := List.length_replicate
  obtain ⟨img, hrun, hdone⟩ :=
    main_ends (show manyFiles.length + 2 ≤ ISLOTS by rw [hlen]; decide) (by
    intro f hf
    rw [List.eq_of_mem_replicate hf]
    exact ⟨by decide, by decide, by decide⟩) (by decide +kernel)
  have hlast : manyFiles[198]? = some ⟨[97], some []⟩ := by
    rw [manyFiles, List.getElem?_replicate, if_pos (by decide)]
  exact ⟨img, hrun, hdone.entry_inum (entries_file hlast) (by decide)⟩

end Xv6.Mkfs
