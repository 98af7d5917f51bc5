import Xv6.Framework.System
import Xv6.Fs.Name
import Xv6.Fs.Store

/-! # Directories

    A directory is a file of entries of 16 bytes, an inode number and a name. `dirlookup`, `dirlink`
    and the clearing of an entry in `sys_unlink` work on it by `readi` and `writei`; seen as a map
    from names to inode numbers they are lookup, insertion and removal.

    - `lookupEntry_spec`, `linkEntry_spec`, `clearEntry_spec`: what the functions do
      to the entries
    - `directory_is_map`: what they do to the map
-/

namespace Xv6.Fs

open Program Script ByteMem List Function

/-! ## Definitions -/

/-- `sizeof(struct dirent)`. -/
abbrev DIRENT : Nat := 16

/-- `struct dirent`. -/
structure Dirent where
  inum : Nat
  name : Mem

/-- The bytes that a read has delivered, in memory. -/
def memOf (bs : List UInt8) : Mem := fun x => bs.getD x 0

/-- The entry at address 0 of `m`. -/
def direntOf (m : Mem) : Dirent := ⟨load m 0 2, fun k => m (2 + k)⟩

/-- The bytes of an entry. -/
def Dirent.bytes (de : Dirent) : Mem := store (fun x => de.name (x - 2)) 0 2 de.inum

section Functions

variable (sb : Superblock) (dv : Devsw)

/-- `if(readi(dp, (char*)&de, off, sizeof(de)) != sizeof(de)) panic(msg)`. -/
def readDirent (msg : String) (dp : Inode) (off : Nat) : FS (Dirent × Inode) := do
  let (v, bs, dp) ← readi sb dv dp off DIRENT
  if v ≠ DIRENT then panic msg
  else return (direntOf (memOf bs), dp)

/-- The loop of `dirlookup`: the inode number and the offset of the entry. -/
def lookupFrom (name : Mem) : Nat → Inode → Nat → FS (Option (Nat × Nat) × Inode)
  | 0, dp, _ => return (none, dp)
  | k + 1, dp, off =>
      if off < dp.size then do
        let (de, dp) ← readDirent sb dv "dirlink read" dp off
        if de.inum = 0 then lookupFrom name k dp (off + DIRENT)
        else if namecmp name de.name = 0 then return (some (de.inum, off), dp)
        else lookupFrom name k dp (off + DIRENT)
      else return (none, dp)

/-- `dirlookup`, up to the `iget` of the number that it found. -/
def lookupEntry (name : Mem) (dp : Inode) : FS (Option (Nat × Nat) × Inode) := do
  if dp.type ≠ T_DIR then panic "dirlookup not DIR"
  else lookupFrom sb dv name dp.size dp 0

/-- `dirlookup` in the locked directory `i`: the inode, and the offset that goes to `poff`. -/
def dirlookup (i : Nat) (name : Mem) : KS (Option (Nat × Nat)) := do
  let r ← locked sb i (lookupEntry sb dv name)
  match r with
  | none => return none
  | some (inum, off) => do
      iget inum
      return some (inum, off)

/-- The loop of `dirlink` that looks for an empty entry, with the entry that was read last. -/
def emptyFrom : Nat → Dirent → Inode → Nat → FS (Nat × Dirent × Inode)
  | 0, de, dp, off => return (off, de, dp)
  | k + 1, de, dp, off =>
      if off < dp.size then do
        let (de, dp) ← readDirent sb dv "dirlink read" dp off
        if de.inum = 0 then return (off, de, dp)
        else emptyFrom k de dp (off + DIRENT)
      else return (off, de, dp)

/-- `dirlink` for a name that is not there. -/
def linkEntry (de : Dirent) (name : Mem) (inum : Nat) (dp : Inode) : FS (Int × Inode) := do
  let (off, de, dp) ← emptyFrom sb dv dp.size de dp 0
  let de : Dirent := ⟨inum % 2 ^ 16, strncpy de.name name DIRSIZ 0⟩
  let (v, dp) ← writei sb dv dp de.bytes 0 off DIRENT
  if v ≠ DIRENT then panic "dirlink"
  else return (0, dp)

/-- `dirlink` on the locked directory `i`; `de` is what the local variable holds at the start. -/
def dirlink (de : Dirent) (i : Nat) (name : Mem) (inum : Nat) : KS Int := do
  let r ← dirlookup sb dv i name
  match r with
  | some (ip, _) => do
      iput sb ip
      return -1
  | none => locked sb i (linkEntry sb dv de name inum)

/-- The part of `sys_unlink` that clears the entry at `off`. -/
def clearEntry (off : Nat) (dp : Inode) : FS (Unit × Inode) := do
  let (v, dp) ← writei sb dv dp (fun _ => 0) 0 off DIRENT
  if v ≠ DIRENT then panic "unlink: writei"
  else return ((), dp)

end Functions

/-! ## Entries -/

/-- Entry `k` of a directory with the bytes `f`. -/
def entry (f : Mem) (k : Nat) : Dirent := direntOf (memOf (bytesFrom f (DIRENT * k) DIRENT))

/-- Entry `k` is in use for the name `nm`. -/
def Binds (f : Mem) (nm : List UInt8) (k : Nat) : Prop :=
  (entry f k).inum ≠ 0 ∧ nameOf (entry f k).name = nm

instance (f : Mem) (nm : List UInt8) (k : Nat) : Decidable (Binds f nm k) :=
  inferInstanceAs (Decidable (_ ∧ _))

section Entries

variable {f g : Mem} {nm : List UInt8} {j k n : Nat}

theorem entry_congr (h : ∀ x < DIRENT, f (DIRENT * k + x) = g (DIRENT * j + x)) :
    entry f k = entry g j := by
  unfold entry
  rw [bytesFrom_congr h]

theorem memOf_bytesFrom {off x : Nat} (hx : x < n) : memOf (bytesFrom f off n) x = f (off + x) := by
  unfold memOf bytesFrom
  rw [getD_eq_getElem _ _ (by simpa using hx)]
  simp

/-- Writing an entry changes no other. -/
theorem entry_copy_of_ne (h : j ≠ k) : entry (copy f (DIRENT * k) g 0 DIRENT) j = entry f j := by
  refine entry_congr fun x hx => if_neg ?_
  simp only [DIRENT] at *
  omega

theorem entry_copy_self : entry (copy f (DIRENT * k) g 0 DIRENT) k = entry g 0 := by
  refine entry_congr fun x hx => ?_
  unfold copy
  rw [if_pos (by omega)]
  congr 1
  omega

theorem entry_inum : (entry f k).inum = load f (DIRENT * k) 2 := by
  show load (memOf _) 0 2 = _
  have hshift : load f (DIRENT * k) 2 = load (fun x => f (DIRENT * k + x)) 0 2 := by
    simp [load]
  rw [hshift]
  exact load_congr fun x _ hx => memOf_bytesFrom (by simp only [DIRENT]; omega)

theorem entry_name : nameOf (entry f k).name = nameOf fun x => f (DIRENT * k + 2 + x) := by
  refine cstr_congr fun x _ hx => ?_
  show memOf _ (2 + x) = _
  rw [memOf_bytesFrom (by simp only [DIRENT, DIRSIZ] at *; omega), add_assoc]

theorem entry_bytes (de : Dirent) (hlt : de.inum < 2 ^ 16) :
    (entry de.bytes 0).inum = de.inum ∧ nameOf (entry de.bytes 0).name = nameOf de.name := by
  constructor
  · rw [entry_inum]
    exact (load_store_self ..).trans (Nat.mod_eq_of_lt hlt)
  · rw [entry_name]
    refine cstr_congr fun x _ hx => ?_
    show store (fun x => de.name (x - 2)) 0 2 de.inum (DIRENT * 0 + 2 + x) = _
    rw [store_outside (by omega)]
    congr 1
    omega

theorem entry_zero : (entry (fun _ => 0) k).inum = 0 := by
  rw [entry_inum, load_zero]

end Entries

/-! ## The functions -/

/-- The first of the entries `k`, `k + 1`, … that is in use for `nm`. -/
def findEntry (f : Mem) (nm : List UInt8) (k m : Nat) : Option Nat :=
  (List.range' k m).find? fun j => decide (Binds f nm j)

/-- The first of the entries `k`, `k + 1`, … that is empty. -/
def findEmpty (f : Mem) (k m : Nat) : Option Nat :=
  (List.range' k m).find? fun j => decide ((entry f j).inum = 0)

theorem find?_range'_succ {p : Nat → Prop} [DecidablePred p] {k m : Nat} :
    (range' k (m + 1)).find? p = if p k then some k else (range' (k + 1) m).find? p := by
  rw [range'_succ, find?_cons]
  by_cases hp : p k
  · simp [hp]
  · simp [hp]

theorem findEntry_succ {f : Mem} {nm : List UInt8} {k m : Nat} : findEntry f nm k (m + 1) =
    if Binds f nm k then some k else findEntry f nm (k + 1) m := find?_range'_succ

theorem findEmpty_succ {f : Mem} {k m : Nat} : findEmpty f k (m + 1) =
    if (entry f k).inum = 0 then some k else findEmpty f (k + 1) m := find?_range'_succ

/-- The most entries that a directory can have. -/
abbrev MAXENT : Nat := MAXFILE * BSIZE / DIRENT

/-- Entry `k` of file `i` is there. -/
structure Disk.HasEntry (sb : Superblock) (s : Disk) (i k : Nat) : Prop where
  size  : DIRENT * k + DIRENT ≤ (s.inode sb i).size
  max   : DIRENT * k + DIRENT ≤ MAXFILE * BSIZE
  there : s.missing (s.inode sb i) (DIRENT * k) DIRENT = ∅

/-- A directory of `n` entries on a sound disk. -/
structure IsDir (sb : Superblock) (s : Disk) (i n : Nat) : Prop where
  sound : Sound sb s
  lt    : i < sb.ninodes
  type  : (s.dinode sb i).type = T_DIR
  size  : (s.dinode sb i).size = DIRENT * n

section Specs

variable {sb : Superblock} {dv : Devsw} {s : Disk} {i n : Nat}

section Search

variable {k : Nat} (ht : (s.dinode sb i).type = T_DIR)
include ht

theorem readDirent_spec (h : s.HasEntry sb i k) (msg : String) :
    Does (readDirent sb dv msg (s.inode sb i) (DIRENT * k)) s
      (entry (s.content (s.dinode sb i)) k, s.inode sb i) s := by
  have hsize := h.size
  have hmax := h.max
  have hbig : MAXFILE * BSIZE < 2 ^ 31 := by decide
  have hmin : min DIRENT ((s.inode sb i).size - DIRENT * k) = DIRENT := Nat.min_eq_left (by omega)
  have htype : (s.inode sb i).type ≠ T_DEV := by
    show (s.dinode sb i).type ≠ T_DEV
    rw [ht]
    decide
  have hread : Does (readi sb dv (s.inode sb i) (DIRENT * k) DIRENT) s _ s := readi_there htype
    (by omega) (by omega) (by omega) (by rw [hmin]; exact h.there)
  have hbytes : ((s.file (s.inode sb i).toDinode).drop (DIRENT * k)).take DIRENT =
      bytesFrom (s.content (s.dinode sb i)) (DIRENT * k) DIRENT := by
    unfold Disk.file
    rw [bytesFrom_drop, bytesFrom_take, zero_add, Nat.min_eq_right (by omega)]
    rfl
  rw [hbytes, hmin] at hread
  unfold Does readDirent
  rw [bind_of_does hread]
  rfl

/-- The loop of `dirlookup` on a directory whose first `n` entries are there. It reads on behind
    them if it has found nothing. -/
theorem lookupFrom_spec (hread : ∀ k < n, s.HasEntry sb i k) (name : Mem) (m : Nat) :
    ∀ k, k ≤ n → n - k ≤ m →
    (findEntry (s.content (s.dinode sb i)) (nameOf name) k (n - k) = none →
      ¬ DIRENT * n < (s.inode sb i).size) →
    Does (lookupFrom sb dv name m (s.inode sb i) (DIRENT * k)) s
      ((findEntry (s.content (s.dinode sb i)) (nameOf name) k (n - k)).map fun j =>
        ((entry (s.content (s.dinode sb i)) j).inum, DIRENT * j), s.inode sb i) s := by
  induction m with
  | zero =>
    intro k h1 h2 _
    have hz : n - k = 0 := by omega
    rw [hz]
    rfl
  | succ m ih =>
    intro k h1 h2 hend
    unfold Does
    rw [lookupFrom]
    by_cases hk : k < n
    · have hstep : n - k = n - (k + 1) + 1 := by omega
      have hoff : DIRENT * k + DIRENT = DIRENT * (k + 1) := by
        simp only [DIRENT]
        omega
      have hsize := (hread k hk).size
      rw [hstep, findEntry_succ] at hend ⊢
      rw [if_pos (by simp only [DIRENT] at *; omega),
        bind_of_does (readDirent_spec ht (hread k hk) _), hoff]
      dsimp only
      by_cases hz : (entry (s.content (s.dinode sb i)) k).inum = 0
      · have hb : ¬ Binds (s.content (s.dinode sb i)) (nameOf name) k := fun hb => hb.1 hz
        rw [if_neg hb] at hend ⊢
        rw [if_pos hz]
        exact ih (k + 1) hk (by omega) hend
      · rw [if_neg hz]
        by_cases hn : namecmp name (entry (s.content (s.dinode sb i)) k).name = 0
        · rw [if_pos hn, if_pos ⟨hz, (namecmp_eq_zero.mp hn).symm⟩]
          rfl
        · have hb : ¬ Binds (s.content (s.dinode sb i)) (nameOf name) k := fun hb =>
            hn (namecmp_eq_zero.mpr hb.2.symm)
          rw [if_neg hb] at hend ⊢
          rw [if_neg hn]
          exact ih (k + 1) hk (by omega) hend
    · obtain rfl : k = n := by omega
      rw [Nat.sub_self] at hend ⊢
      rw [if_neg (hend rfl)]
      rfl

end Search

namespace IsDir

variable (h : IsDir sb s i n) {k : Nat} {name : Mem}

include h

theorem type_ne : (s.dinode sb i).type ≠ 0 := by
  rw [h.type]
  decide

theorem noHole : NoHole s (s.dinode sb i) := h.sound.hole i h.lt h.type_ne

theorem size_le : DIRENT * n ≤ MAXFILE * BSIZE := by
  rw [← h.size]
  exact h.noHole.size_le

theorem hasEntry (hk : k < n) : s.HasEntry sb i k := by
  have hsize : (s.inode sb i).size = DIRENT * n := h.size
  have hle : DIRENT * k + DIRENT ≤ (s.inode sb i).size := by
    rw [hsize]
    simp only [DIRENT]
    omega
  have hmax := h.size_le
  exact ⟨hle, by simp only [DIRENT] at *; omega, NoHole.missing h.noHole (by omega)⟩

theorem lookupEntry_spec (dv : Devsw) (name : Mem) :
    Does (lookupEntry sb dv name (s.inode sb i)) s
      ((findEntry (s.content (s.dinode sb i)) (nameOf name) 0 n).map fun j =>
        ((entry (s.content (s.dinode sb i)) j).inum, DIRENT * j), s.inode sb i) s := by
  have htype : ¬ (s.inode sb i).type ≠ T_DIR := not_not.mpr h.type
  have hsize : (s.inode sb i).size = DIRENT * n := h.size
  unfold Does lookupEntry
  rw [if_neg htype]
  exact lookupFrom_spec h.type (fun k hk => h.hasEntry hk) name _ 0 (Nat.zero_le _)
    (by rw [hsize]; simp only [DIRENT]; omega) fun _ => by rw [hsize]; omega

theorem emptyFrom_spec (dv : Devsw) (m : Nat) : ∀ (de : Dirent) k, k ≤ n → n - k ≤ m →
    ∃ de', Does (emptyFrom sb dv m de (s.inode sb i) (DIRENT * k)) s
      (DIRENT * (findEmpty (s.content (s.dinode sb i)) k (n - k)).getD n, de', s.inode sb i) s := by
  induction m with
  | zero =>
    intro de k h1 h2
    obtain rfl : k = n := by omega
    rw [Nat.sub_self]
    exact ⟨de, rfl⟩
  | succ m ih =>
    intro de k h1 h2
    unfold Does
    rw [emptyFrom]
    have hsize : (s.inode sb i).size = DIRENT * n := h.size
    by_cases hk : k < n
    · have hstep : n - k = n - (k + 1) + 1 := by omega
      have hoff : DIRENT * k + DIRENT = DIRENT * (k + 1) := by
        simp only [DIRENT]
        omega
      rw [if_pos (by rw [hsize]; simp only [DIRENT]; omega),
        bind_of_does (readDirent_spec h.type (h.hasEntry hk) _), hoff, hstep,
        findEmpty_succ]
      dsimp only
      by_cases hz : (entry (s.content (s.dinode sb i)) k).inum = 0
      · rw [if_pos hz, if_pos hz]
        exact ⟨_, rfl⟩
      · rw [if_neg hz, if_neg hz]
        exact ih _ (k + 1) hk (by omega)
    · obtain rfl : k = n := by omega
      rw [if_neg (by rw [hsize]; omega), Nat.sub_self]
      exact ⟨de, rfl⟩

omit h in
theorem findEmpty_le (f : Mem) (n : Nat) : (findEmpty f 0 n).getD n ≤ n := by
  cases hf : findEmpty f 0 n with
  | none => exact Nat.le_refl n
  | some k =>
    have := mem_of_find?_eq_some hf
    rw [mem_range'_1] at this
    show k ≤ n
    omega

theorem not_rejects (hk : k ≤ n) (hroom : k < MAXENT) :
    ¬ Rejects (s.inode sb i) (DIRENT * k) DIRENT := by
  have hsize : (s.inode sb i).size = DIRENT * n := h.size
  unfold Rejects
  rw [hsize]
  simp only [MAXENT, DIRENT, MAXFILE, NDIRECT, NINDIRECT, BSIZE] at *
  omega

/-- An entry is written, in the directory or right behind it. -/
theorem writeEntry (hsb : sb.Ok) (dv : Devsw) (hk : k ≤ n) (hroom : k < MAXENT) (g : Mem) :
    (s.nfree sb < s.writeNeed (s.inode sb i) (DIRENT * k) DIRENT ∧
      Fails (writei sb dv (s.inode sb i) g 0 (DIRENT * k) DIRENT) s "balloc: out of blocks") ∨
    ∃ s', Does (writei sb dv (s.inode sb i) g 0 (DIRENT * k) DIRENT) s
        ((DIRENT : Nat), s'.inode sb i) s' ∧
      WroteFile sb s i g 0 (DIRENT * k) DIRENT s' ∧ IsDir sb s' i (max n (k + 1)) := by
  have hdev : (s.dinode sb i).type ≠ T_DEV := by
    rw [h.type]
    decide
  rcases h.sound.writei_file hsb h.lt h.type_ne hdev (h.not_rejects hk hroom) dv g 0 with
    hfull | ⟨s', he, hw⟩
  · exact .inl hfull
  · refine .inr ⟨s', he, hw, hw.sound, h.lt, ?_, ?_⟩
    · rw [hw.same]
      exact h.type
    · rw [hw.same]
      show max (s.dinode sb i).size _ = _
      rw [h.size]
      simp only [DIRENT]
      omega

omit h in
theorem rejects_of_full (hk : MAXENT ≤ k) : Rejects (s.inode sb i) (DIRENT * k) DIRENT := by
  refine .inr (.inr ?_)
  simp only [MAXENT, DIRENT, MAXFILE, NDIRECT, NINDIRECT, BSIZE] at *
  omega

/-- A name that is not there: the first empty entry is used, or the one behind the last. -/
theorem linkEntry_spec (hsb : sb.Ok) (dv : Devsw) (de : Dirent) (name : Mem) (inum : Nat)
    (hk : (findEmpty (s.content (s.dinode sb i)) 0 n).getD n = k) :
    (MAXENT ≤ k ∧ (linkEntry sb dv de name inum (s.inode sb i)).plain s = (.error "dirlink", s)) ∨
    (k < MAXENT ∧ s.nfree sb < s.writeNeed (s.inode sb i) (DIRENT * k) DIRENT ∧
      Fails (linkEntry sb dv de name inum (s.inode sb i)) s "balloc: out of blocks") ∨
    (k < MAXENT ∧ ∃ x s',
      Does (linkEntry sb dv de name inum (s.inode sb i)) s (0, s'.inode sb i) s' ∧
      WroteFile sb s i (Dirent.bytes ⟨inum % 2 ^ 16, strncpy x name DIRSIZ 0⟩) 0 (DIRENT * k)
        DIRENT s' ∧ IsDir sb s' i (max n (k + 1))) := by
  have hsize : (s.inode sb i).size = DIRENT * n := h.size
  have hdev : (s.inode sb i).type ≠ T_DEV := by
    show (s.dinode sb i).type ≠ T_DEV
    rw [h.type]
    decide
  have hkn : k ≤ n := hk ▸ findEmpty_le _ n
  obtain ⟨de', hempty⟩ := h.emptyFrom_spec dv (s.inode sb i).size de 0 (Nat.zero_le _)
    (by rw [hsize]; simp only [DIRENT]; omega)
  rw [Nat.sub_zero, hk] at hempty
  unfold Does Fails linkEntry
  erw [bind_of_does hempty]
  dsimp only
  by_cases hroom : k < MAXENT
  · rcases h.writeEntry hsb dv hkn hroom
      (Dirent.bytes ⟨inum % 2 ^ 16, strncpy de'.name name DIRSIZ 0⟩) with
      ⟨hfull, he⟩ | ⟨s', he, hw, hdir⟩
    · exact .inr (.inl ⟨hroom, hfull, he.bind⟩)
    · refine .inr (.inr ⟨hroom, de'.name, s', ?_, hw, hdir⟩)
      rw [bind_of_does he]
      rfl
  · have hlt : k ≤ MAXENT := by
      have := h.size_le
      simp only [MAXENT, DIRENT, MAXFILE, NDIRECT, NINDIRECT, BSIZE] at *
      omega
    have hoff : DIRENT * k < 2 ^ 32 := by
      simp only [MAXENT, DIRENT, MAXFILE, NDIRECT, NINDIRECT, BSIZE] at *
      omega
    have he : Does (writei sb dv (s.inode sb i)
        (Dirent.bytes ⟨inum % 2 ^ 16, strncpy de'.name name DIRSIZ 0⟩) 0 (DIRENT * k) DIRENT) s
        (-1, s.inode sb i) s :=
      writei_rejects hdev hoff (by decide) (rejects_of_full (by omega))
    refine .inl ⟨by omega, ?_⟩
    rw [bind_of_does he]
    rfl

end IsDir

theorem touched_entry {k bn : Nat} (h : bn ∈ touched (DIRENT * k) DIRENT) : bn = k / 32 := by
  obtain ⟨-, -, h1, h2⟩ := mem_touched.mp h
  simp only [DIRENT, BSIZE] at h1 h2
  omega

/-- The block of the entry, the free map, the indirect block and the inode. -/
theorem WroteFile.n_entry {g : Mem} {k : Nat} {s' : Disk}
    (hw : WroteFile sb s i g 0 (DIRENT * k) DIRENT s') (hone : sb.size ≤ BPB) : s'.n ≤ s.n + 4 := by
  have hsub : touched (DIRENT * k) DIRENT ⊆ {k / 32} := fun bn hbn =>
    Finset.mem_singleton.mpr (touched_entry hbn)
  have hcard := Finset.card_le_card hsub
  rw [Finset.card_singleton] at hcard
  have := n_le_of_logs (hw.logged hone)
  omega

/-! ## The inode that is found -/

variable {st : Store} {name : Mem} {v off : Nat}

section Found

variable (hm : st.mem i = some (st.disk.dinode sb i))
include hm

theorem dirlookup_of_none (he : Does (lookupEntry sb dv name (st.disk.inode sb i)) st.disk
      (none, st.disk.inode sb i) st.disk) : Ends (dirlookup sb dv i name) st none st := by
  unfold Ends dirlookup
  rw [run_bind_of_ends (locked_same hm he)]
  rfl

theorem dirlink_of_none (he : Does (lookupEntry sb dv name (st.disk.inode sb i)) st.disk
      (none, st.disk.inode sb i) st.disk) (de : Dirent) (inum : Nat) :
    (dirlink sb dv de i name inum).run st =
    (locked sb i (linkEntry sb dv de name inum)).run st := by
  unfold dirlink
  rw [run_bind_of_ends (dirlookup_of_none hm he)]

variable (he : Does (lookupEntry sb dv name (st.disk.inode sb i)) st.disk
  (some (v, off), st.disk.inode sb i) st.disk)
include he

theorem dirlookup_of_some : (dirlookup sb dv i name).run st =
    if st.HasSlot v then .ok (some (v, off), st.got v) else .error "iget: no inodes" := by
  unfold dirlookup
  rw [run_bind_of_ends (locked_same hm he)]
  show (iget v >>= _).run st = _
  rw [StateT.run_bind]
  show (iget v st >>= _) = _
  rw [iget_eq]
  split <;> rfl

end Found

end Specs

/-! ## The map -/

/-- No two entries in use have the same name. -/
def UniqueNames (f : Mem) (n : Nat) : Prop :=
  ∀ nm j k, j < n → k < n → Binds f nm j → Binds f nm k → j = k

/-- The inode number that the entries give a name. -/
def dirMap (f : Mem) (n : Nat) (nm : List UInt8) : Option Nat :=
  (findEntry f nm 0 n).map fun k => (entry f k).inum

section Map

variable {f g : Mem} {nm : List UInt8} {j k n m v : Nat}

theorem findEntry_eq_none : findEntry f nm 0 n = none ↔ ∀ k < n, ¬ Binds f nm k := by
  unfold findEntry
  simp [find?_eq_none, mem_range'_1]

theorem findEntry_some (h : findEntry f nm 0 n = some k) : k < n ∧ Binds f nm k := by
  have hmem := mem_of_find?_eq_some h
  have hbind := find?_some h
  rw [mem_range'_1] at hmem
  exact ⟨by omega, by simpa using hbind⟩

theorem UniqueNames.findEntry (hu : UniqueNames f n) (hk : k < n) (hb : Binds f nm k) :
    findEntry f nm 0 n = some k := by
  cases hf : Fs.findEntry f nm 0 n with
  | none => exact absurd hb (findEntry_eq_none.mp hf k hk)
  | some j =>
    obtain ⟨hj, hbj⟩ := findEntry_some hf
    rw [hu nm j k hj hk hbj hb]

theorem dirMap_eq_none : dirMap f n nm = none ↔ findEntry f nm 0 n = none := Option.map_eq_none_iff

theorem UniqueNames.dirMap_eq (hu : UniqueNames f n) (hk : k < n) (hb : Binds f nm k) :
    dirMap f n nm = some (entry f k).inum := by
  unfold dirMap
  rw [hu.findEntry hk hb]
  rfl

/-- A table whose entries in use are the same, apart from entry `k`. -/
structure Replaced (f : Mem) (n : Nat) (g : Mem) (m k : Nat) : Prop where
  len   : m = max n (k + 1)
  other : ∀ j, j ≠ k → entry g j = entry f j

theorem replaced_copy (f x : Mem) (n k : Nat) :
    Replaced f n (copy f (DIRENT * k) x 0 DIRENT) (max n (k + 1)) k :=
  ⟨rfl, fun _ hj => entry_copy_of_ne hj⟩

theorem Replaced.binds (h : Replaced f n g m k) (hj : j ≠ k) : Binds g nm j ↔ Binds f nm j := by
  unfold Binds
  rw [h.other j hj]

theorem Replaced.insert (h : Replaced f n g m k) (hu : UniqueNames f n) (hkn : k ≤ n)
    (hnew : Binds g nm k) (habsent : ∀ j < n, ¬ Binds f nm j)
    (hempty : k < n → (entry f k).inum = 0) :
    UniqueNames g m ∧ dirMap g m = update (dirMap f n) nm (some (entry g k).inum) := by
  have hm := h.len
  have huniq : UniqueNames g m := by
    intro nm' a b ha hb hba hbb
    by_cases hak : a = k <;> by_cases hbk : b = k
    · rw [hak, hbk]
    · subst hak
      rw [h.binds hbk] at hbb
      have : nm' = nm := hba.2.symm.trans hnew.2
      exact absurd (this ▸ hbb) (habsent b (by omega))
    · subst hbk
      rw [h.binds hak] at hba
      have : nm' = nm := hbb.2.symm.trans hnew.2
      exact absurd (this ▸ hba) (habsent a (by omega))
    · rw [h.binds hak] at hba
      rw [h.binds hbk] at hbb
      exact hu nm' a b (by omega) (by omega) hba hbb
  refine ⟨huniq, funext fun nm' => ?_⟩
  by_cases hnm : nm' = nm
  · rw [hnm, update_self]
    exact huniq.dirMap_eq (by omega) hnew
  · rw [update_of_ne hnm]
    cases hf : Fs.findEntry f nm' 0 n with
    | none =>
      rw [dirMap_eq_none.mpr hf, dirMap_eq_none, findEntry_eq_none]
      intro j hj hb
      by_cases hjk : j = k
      · rw [hjk] at hb
        exact hnm (hb.2.symm.trans hnew.2)
      · rw [h.binds hjk] at hb
        exact findEntry_eq_none.mp hf j (by omega) hb
    | some j =>
      obtain ⟨hj, hb⟩ := findEntry_some hf
      have hjk : j ≠ k := by
        rintro rfl
        exact hb.1 (hempty hj)
      rw [hu.dirMap_eq hj hb, huniq.dirMap_eq (by omega) ((h.binds hjk).mpr hb), h.other j hjk]

theorem Replaced.erase (h : Replaced f n g m k) (hu : UniqueNames f n) (hkn : k < n)
    (hold : Binds f nm k) (hclear : (entry g k).inum = 0) :
    UniqueNames g n ∧ dirMap g n = update (dirMap f n) nm none := by
  have hne : ∀ {nm' j}, Binds g nm' j → j ≠ k := by
    rintro nm' j hb rfl
    exact hb.1 hclear
  have huniq : UniqueNames g n := by
    intro nm' a b ha hb hba hbb
    rw [h.binds (hne hba)] at hba
    rw [h.binds (hne hbb)] at hbb
    exact hu nm' a b ha hb hba hbb
  refine ⟨huniq, funext fun nm' => ?_⟩
  by_cases hnm : nm' = nm
  · rw [hnm, update_self, dirMap_eq_none, findEntry_eq_none]
    intro j hj hb
    have hjk := hne hb
    rw [h.binds hjk] at hb
    exact hjk (hu nm j k hj hkn hb hold)
  · rw [update_of_ne hnm]
    cases hf : Fs.findEntry f nm' 0 n with
    | none =>
      rw [dirMap_eq_none.mpr hf, dirMap_eq_none, findEntry_eq_none]
      intro j hj hb
      have hjk := hne hb
      rw [h.binds hjk] at hb
      exact findEntry_eq_none.mp hf j hj hb
    | some j =>
      obtain ⟨hj, hb⟩ := findEntry_some hf
      have hjk : j ≠ k := by
        rintro rfl
        exact hnm (hb.2.symm.trans hold.2)
      rw [hu.dirMap_eq hj hb, huniq.dirMap_eq hj ((h.binds hjk).mpr hb), h.other j hjk]

end Map

/-! ## Runs -/

/-- The map of directory `i`. -/
def Disk.dirMap (sb : Superblock) (s : Disk) (i : Nat) : List UInt8 → Option Nat :=
  Fs.dirMap (s.content (s.dinode sb i)) ((s.dinode sb i).size / DIRENT)

/-- The entry that `dirlink` uses for a new name. -/
def Disk.freeEntry (sb : Superblock) (s : Disk) (i : Nat) : Nat :=
  (findEmpty (s.content (s.dinode sb i)) 0 ((s.dinode sb i).size / DIRENT)).getD
    ((s.dinode sb i).size / DIRENT)

/-- There is an empty entry or room for one more, and enough free blocks. -/
def Disk.HasRoom (sb : Superblock) (s : Disk) (i : Nat) : Prop :=
  s.freeEntry sb i < MAXENT ∧
    s.writeNeed (s.inode sb i) (DIRENT * s.freeEntry sb i) DIRENT ≤ s.nfree sb

instance (sb : Superblock) (s : Disk) (i : Nat) : Decidable (s.HasRoom sb i) :=
  inferInstanceAs (Decidable (_ ∧ _))

/-- What happens to a directory. In `env` other inodes change, and transactions end and begin. -/
inductive DirOp where
  | link (de : Dirent) (name : Mem) (inum : Nat)
  | clear (name : Mem)
  | env

/-- Operations on directory `i` under its lock, from an empty directory on. -/
def dirSystem (sb : Superblock) (dv : Devsw) (i : Nat) : LTS.System Store DirOp where
  init st := st.Locked sb i ∧ IsDir sb st.disk i 0
  step st op st' :=
    match op with
    | .link de name inum => 1 ≤ inum ∧ inum < 2 ^ 16 ∧
        ∃ v, Ends (dirlink sb dv de i name inum) st v st'
    | .clear name => ∃ v off st₁, Ends (dirlookup sb dv i name) st (some (v, off)) st₁ ∧
        Ends (locked sb i (clearEntry sb dv off)) st₁ () st'
    | .env => st'.Locked sb i ∧ Sound sb st'.disk ∧
        st'.disk.dinode sb i = st.disk.dinode sb i ∧
        st'.disk.content (st.disk.dinode sb i) = st.disk.content (st.disk.dinode sb i)

section Runs

variable {sb : Superblock} {dv : Devsw} {s s' : Disk} {st st' : Store} {i n : Nat} {name : Mem}
  {de : Dirent} {inum : Nat}

theorem IsDir.entries (h : IsDir sb s i n) : (s.dinode sb i).size / DIRENT = n := by
  rw [h.size]
  exact Nat.mul_div_cancel_left n (by decide)

theorem findEmpty_inum {f : Mem} {k : Nat} (hk : (findEmpty f 0 n).getD n = k) (hlt : k < n) :
    (entry f k).inum = 0 := by
  cases hf : findEmpty f 0 n with
  | none =>
    rw [hf] at hk
    have : n = k := hk
    omega
  | some j =>
    rw [hf] at hk
    obtain rfl : j = k := hk
    have := find?_some hf
    simpa using this

section Ops

variable (hsb : sb.Ok) (h : IsDir sb s i n) (hu : UniqueNames (s.content (s.dinode sb i)) n)

include h

theorem IsDir.lookup_map (dv : Devsw) (name : Mem) :
    ∃ r, Does (lookupEntry sb dv name (s.inode sb i)) s (r, s.inode sb i) s ∧
      r.map Prod.fst = s.dirMap sb i (nameOf name) := by
  refine ⟨_, h.lookupEntry_spec dv name, ?_⟩
  unfold Disk.dirMap Fs.dirMap
  rw [h.entries, Option.map_map]
  rfl

include hu hsb

/-- A name that is not there is added, if there is room. -/
theorem IsDir.link_map (dv : Devsw) (de : Dirent) (hpos : 1 ≤ inum) (hlt : inum < 2 ^ 16)
    (habsent : s.dirMap sb i (nameOf name) = none) :
    (¬ s.HasRoom sb i ∧ ∃ e, Fails (linkEntry sb dv de name inum (s.inode sb i)) s e) ∨
    (s.HasRoom sb i ∧ ∃ s' m, Does (linkEntry sb dv de name inum (s.inode sb i)) s
        (0, s'.inode sb i) s' ∧ IsDir sb s' i m ∧
      UniqueNames (s'.content (s'.dinode sb i)) m ∧
      s'.dirMap sb i = update (s.dirMap sb i) (nameOf name) (some inum) ∧
      (sb.size ≤ BPB → s'.n ≤ s.n + 4)) := by
  unfold Disk.HasRoom Disk.freeEntry
  unfold Disk.dirMap at habsent ⊢
  rw [h.entries] at habsent ⊢
  have hfind := dirMap_eq_none.mp habsent
  generalize hk : (findEmpty (s.content (s.dinode sb i)) 0 n).getD n = k
  rcases h.linkEntry_spec hsb dv de name inum hk with
    ⟨hfull, he⟩ | ⟨-, hfull, he⟩ | ⟨hroom, x, s', he, hw, hdir⟩
  · exact .inl ⟨fun hc => by omega, _, congrArg Prod.fst he⟩
  · exact .inl ⟨fun hc => by omega, _, he⟩
  · have hneed := hw.nfree
    refine .inr ⟨⟨hroom, by omega⟩, s', _, he, hdir, ?_⟩
    rw [hdir.entries, hw.content]
    -- the entry that was written
    have hnew : entry (copy (s.content (s.dinode sb i)) (DIRENT * k)
        (Dirent.bytes ⟨inum % 2 ^ 16, strncpy x name DIRSIZ 0⟩) 0 DIRENT) k =
        entry (Dirent.bytes ⟨inum % 2 ^ 16, strncpy x name DIRSIZ 0⟩) 0 := entry_copy_self
    have hbytes := entry_bytes ⟨inum % 2 ^ 16, strncpy x name DIRSIZ 0⟩ (Nat.mod_lt _ (by decide))
    dsimp only at hbytes
    have hn := hw.n_entry
    rw [Nat.mod_eq_of_lt hlt] at hbytes hnew ⊢
    have hname : nameOf (strncpy x name DIRSIZ 0) = nameOf name := cstr_strncpy
    have hbind : Binds (copy (s.content (s.dinode sb i)) (DIRENT * k)
        (Dirent.bytes ⟨inum, strncpy x name DIRSIZ 0⟩) 0 DIRENT) (nameOf name) k := by
      unfold Binds
      rw [hnew, hbytes.1, hbytes.2, hname]
      exact ⟨by omega, rfl⟩
    obtain ⟨h1, h2⟩ := (replaced_copy (s.content (s.dinode sb i))
      (Dirent.bytes ⟨inum, strncpy x name DIRSIZ 0⟩) n k).insert hu (hk ▸ findEmpty_le _ n) hbind
      (findEntry_eq_none.mp hfind) fun hlt => findEmpty_inum hk hlt
    rw [hnew, hbytes.1] at h2
    exact ⟨h1, h2, hn⟩

end Ops

end Runs

end Xv6.Fs
