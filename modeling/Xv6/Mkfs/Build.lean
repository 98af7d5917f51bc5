import Xv6.Mkfs.Append

/-! # The files of an image

    As long as the inodes lie in the inode blocks, `mkfs` builds a root directory and files with the
    bytes that it has read. Every step either has room and does its part, or it ends the program.

    - `iappend_cases`, `ialloc_spec`: the steps
    - `addFiles_cases`: the loop over the arguments
-/

namespace Xv6.Mkfs

open ByteMem Fs Program Function List

/-! ## Inodes in their blocks -/

/-- The number of inodes for which there are inode blocks. -/
abbrev ISLOTS : Nat := ninodeblocks * IPB

section Inodes

variable {s s' : Image} {ino ino' : Nat → Dinode} {own : Nat → Option Pos}
  {c : Nat → List UInt8} {i j : Nat} {d : Dinode}

theorem iblock_lt (hi : i < ISLOTS) : sb.IBLOCK i < sb.bmapstart := by
  have h1 : i < 208 := hi
  show i / 8 + 32 < 58
  omega

theorem iblock_lt_nmeta (hi : i < ISLOTS) : sb.IBLOCK i < nmeta := by
  have h1 := iblock_lt hi
  have h2 : sb.bmapstart < nmeta := by decide
  omega

theorem iblock_lt_size (hi : i < ISLOTS) : sb.IBLOCK i < FSSIZE := by
  have h1 := iblock_lt hi
  have h2 : sb.bmapstart < FSSIZE := by decide
  omega

theorem inodestart_le (i : Nat) : sb.inodestart ≤ sb.IBLOCK i := Nat.le_add_left ..

/-- The image after `winode`. -/
def Image.put (s : Image) (i : Nat) (d : Dinode) : Image :=
  s.write (sb.IBLOCK i) (setDinode (s.blocks (sb.IBLOCK i)) i d)

theorem winode_spec (hi : i < ISLOTS) (hs : s.sectors = FSSIZE) (d : Dinode) :
    Ends (winode i d) s () (s.put i d) := by
  unfold Ends winode
  rw [run_bind_of_ends (ends_rsect (iblock_lt_size hi) hs)]
  exact ends_wsect

theorem rinode_spec (hi : i < ISLOTS) (hs : s.sectors = FSSIZE) :
    Ends (rinode i) s (s.disk.dinode sb i) s := by
  unfold Ends rinode
  rw [run_bind_of_ends (ends_rsect (iblock_lt_size hi) hs)]
  rfl

theorem put_blocks (hi : i < ISLOTS) {x : Nat} (hx : x ≠ sb.IBLOCK i) :
    (s.put i d).blocks x = s.blocks x := write_blocks_of_ne (iblock_lt_size hi) hx

theorem dinode_put_self (hi : i < ISLOTS) (hd : d.Fits) : (s.put i d).disk.dinode sb i = d := by
  unfold Disk.dinode
  have hblk : (s.put i d).disk.blocks (sb.IBLOCK i) = setDinode (s.blocks (sb.IBLOCK i)) i d :=
    write_blocks_self (iblock_lt_size hi)
  rw [hblk, dinodeAt_setDinode_self i hd]

theorem dinode_put_of_ne (hi : i < ISLOTS) (hj : j ≠ i) :
    (s.put i d).disk.dinode sb j = s.disk.dinode sb j := by
  unfold Disk.dinode
  by_cases hb : sb.IBLOCK j = sb.IBLOCK i
  · have hblk : (s.put i d).disk.blocks (sb.IBLOCK i) = setDinode (s.blocks (sb.IBLOCK i)) i d :=
      write_blocks_self (iblock_lt_size hi)
    have hmod : j % IPB ≠ i % IPB := by
      intro hm
      have hdiv : j / 8 + 32 = i / 8 + 32 := hb
      have hm' : j % 8 = i % 8 := hm
      exact hj (by omega)
    rw [hb, hblk, dinodeAt_setDinode_of_ne hmod]
    rfl
  · have hblk : (s.put i d).disk.blocks (sb.IBLOCK j) = s.blocks (sb.IBLOCK j) := put_blocks hi hb
    rw [hblk]
    rfl

theorem dinode_put (hi : i < ISLOTS) (hd : d.Fits) :
    (s.put i d).disk.dinode sb = update (s.disk.dinode sb) i d := by
  funext j
  by_cases hj : j = i
  · subst hj
    rw [dinode_put_self hi hd, update_self]
  · rw [dinode_put_of_ne hi hj, update_of_ne hj]

/-- The data blocks and the addresses in the inodes are all that counts. -/
theorem Filed.move (h : Filed s ino own c) (hsec : s'.sectors = FSSIZE)
    (hlive : s'.freeinode = s.freeinode) (hfree : s'.freeblock = s.freeblock)
    (hdata : ∀ x, nmeta ≤ x → s'.blocks x = s.blocks x)
    (haddrs : ∀ i, s.Live i → (ino' i).addrs = (ino i).addrs) : Filed s' ino' own c := by
  have hlive' : ∀ j, s'.Live j ↔ s.Live j := fun j => by
    unfold Image.Live
    rw [hlive]
  have href : ∀ j, s.Live j → ∀ sl, s'.disk.ref (ino' j) sl = s.disk.ref (ino j) sl := by
    intro j hj sl
    have hsame : s'.disk.ref (ino j) sl = s.disk.ref (ino j) sl :=
      h.toLaid.ref_same hj (fun x hx => hdata x (h.data x (by simp [hx])).1) sl
    rw [← hsame]
    cases sl with
    | direct k | indirect | entry k => simp only [Disk.ref, haddrs j hj]
  have hpage : ∀ j, s.Live j → ∀ m, s'.disk.page (ino' j) m = s.disk.page (ino j) m := by
    intro j hj m
    exact page_congr (href j hj _) fun hz => hdata _ (h.in_data hj hz).1
  refine ⟨⟨hsec, hfree ▸ h.low, fun j sl b hb => ?_, fun b hb =>
    hfree ▸ h.data b hb, fun b hb => ?_⟩,
    hfree ▸ h.high, fun j hj => ?_⟩
  · rw [hlive', ← h.ref j sl b hb]
    exact and_congr_right fun hj => by rw [href j hj]
  · have hlow := h.low
    rw [hdata b (by omega), h.zero b (by omega)]
  · have hj' := (hlive' j).mp hj
    have hh := h.holds j hj'
    refine ⟨hh.le, fun m hm => ?_, ?_, ?_⟩
    · rw [href j hj']
      exact hh.there m hm
    · rw [haddrs j hj']
      exact hh.ind
    · have hsamePages : ∀ m < MAXFILE, s'.disk.page (ino' j) m = s.disk.page (ino j) m :=
        fun m _ => hpage j hj' m
      rw [content_congr hsamePages]
      exact hh.bytes

end Inodes

/-! ## Images under construction -/

/-- The type of an inode that `mkfs` makes. -/
def typeOf (i : Nat) : Nat := if i = ROOTINO then T_DIR else T_FILE

/-- All inodes that were taken are on disk, with the bytes `c`. -/
structure Built (s : Image) (c : Nat → List UInt8) : Prop where
  first : 1 ≤ s.freeinode
  fit   : s.freeinode ≤ ISLOTS
  size  : ∀ i, s.Live i → (s.disk.dinode sb i).size = (c i).length
  type  : ∀ i, s.Live i → (s.disk.dinode sb i).type = typeOf i
  nlink : ∀ i, s.Live i → (s.disk.dinode sb i).nlink = 1
  files : ∃ own, Filed s (s.disk.dinode sb) own c

section Steps

variable {s s' : Image} {c : Nat → List UInt8} {i n : Nat}

theorem Built.lt (h : Built s c) (hi : s.Live i) : i < ISLOTS := by
  have := h.fit
  have := hi.2
  omega

/-- The result of a step: the image with other contents, more blocks in use, and
    the blocks before the inodes as they were. -/
structure Step (s : Image) (s' : Image) (c' : Nat → List UInt8) : Prop where
  built : Built s' c'
  low   : ∀ x < sb.inodestart, s'.blocks x = s.blocks x

theorem built_put {d : Dinode} (own : Nat → Option Pos) (hi : i < ISLOTS) (hd : d.Fits)
    (hfirst : 1 ≤ s.freeinode) (hfit : s.freeinode ≤ ISLOTS)
    (hnew : d.size = (c i).length ∧ d.type = typeOf i ∧ d.nlink = 1)
    (hold : ∀ j, s.Live j → j ≠ i → (s.disk.dinode sb j).size = (c j).length ∧
      (s.disk.dinode sb j).type = typeOf j ∧ (s.disk.dinode sb j).nlink = 1)
    (hf : Filed (s.put i d) (update (s.disk.dinode sb) i d) own c) : Built (s.put i d) c := by
  rw [← dinode_put hi hd] at hf
  have hall : ∀ j, (s.put i d).Live j → ((s.put i d).disk.dinode sb j).size = (c j).length ∧
      ((s.put i d).disk.dinode sb j).type = typeOf j ∧
      ((s.put i d).disk.dinode sb j).nlink = 1 := by
    intro j hj
    by_cases hji : j = i
    · subst hji
      rw [dinode_put_self hi hd]
      exact hnew
    · rw [dinode_put_of_ne hi hji]
      exact hold j hj hji
  exact ⟨hfirst, hfit, fun j hj => (hall j hj).1, fun j hj => (hall j hj).2.1,
    fun j hj => (hall j hj).2.2, own, hf⟩

/-- `iappend` does its part if there is room, and fails otherwise. -/
theorem iappend_cases (mem : Mem) (n : Nat) (h : Built s c) (hi : s.Live i) :
    (Room s (c i).length n ∧ ∃ s', Ends (iappend i mem n) s () s' ∧
      Step s s' (update c i (c i ++ bytesFrom mem 0 n)) ∧ s'.freeinode = s.freeinode ∧
      s'.freeblock + blocksFor (c i).length = s.freeblock + blocksFor ((c i).length + n)) ∨
    (¬ Room s (c i).length n ∧ ∃ e, (iappend i mem n).run s = .error e) := by
  obtain ⟨own, hf⟩ := h.files
  have hlt := h.lt hi
  unfold Ends iappend
  rw [run_bind_of_ends (rinode_spec hlt hf.sectors), h.size i hi]
  rcases appendFrom_cases mem n 0 _ n hf hi rfl le_rfl with
    ⟨hroom, s1, d', own', hrun, ha⟩ | ⟨hno, e, he⟩
  swap
  · exact .inr ⟨hno, e, run_bind_of_error he⟩
  rw [run_bind_of_ends hrun]
  have hlen : (bytesFrom mem 0 n).length = n := by simp [bytesFrom]
  have hi1 : s1.Live i := ha.frame.live_iff.mpr hi
  -- inodes that were not appended to are as before
  have hold : ∀ j, s1.Live j → s1.disk.dinode sb j = s.disk.dinode sb j := by
    intro j hj
    exact dinode_congr (ha.frame.low _ (iblock_lt_nmeta (h.lt (ha.frame.live_iff.mp hj))))
  have hmax : (c i).length + n < 2 ^ 32 := by
    have := hroom.1
    have : MAXFILE * BSIZE < 2 ^ 32 := by decide
    omega
  have hfits : ({ d' with size := (c i).length + n } : Dinode).Fits := by
    have hd := dinodeAt_fits (s.blocks (sb.IBLOCK i)) i
    have hsame := ha.same
    refine ⟨?_, ?_, ?_, ?_, hmax, fun k => ?_⟩
    · rw [hsame]
      exact hd.type
    · rw [hsame]
      exact hd.major
    · rw [hsame]
      exact hd.minor
    · rw [hsame]
      exact hd.nlink
    · have hfree := ha.filed.high
      have hupd : update (s.disk.dinode sb) i d' i = d' := update_self ..
      have haddr : ∀ sl, s1.disk.ref d' sl < 2 ^ 32 := by
        intro sl
        by_cases hz : s1.disk.ref d' sl = 0
        · omega
        · have hin := (ha.filed.in_data hi1
            (show s1.disk.ref (update (s.disk.dinode sb) i d' i) sl ≠ 0 by
              rw [hupd]; exact hz)).2
          rw [hupd] at hin
          simp only [FSSIZE] at hfree
          omega
      cases k using Fin.lastCases with
      | last => exact haddr .indirect
      | cast k => exact haddr (.direct k)
  refine .inl ⟨hroom, s1.put i { d' with size := (c i).length + n },
    winode_spec hlt ha.filed.sectors _, ⟨?_, fun x hx => ?_⟩, ha.frame.live, ?_⟩
  · refine built_put own' hlt hfits (ha.frame.live ▸ h.first) (ha.frame.live ▸ h.fit) ⟨?_, ?_, ?_⟩
      (fun j hj hji => ?_) ?_
    · rw [update_self, length_append, hlen]
    · rw [ha.same]
      exact h.type i hi
    · rw [ha.same]
      exact h.nlink i hi
    · have hj' := ha.frame.live_iff.mp hj
      rw [hold j hj, update_of_ne hji]
      exact ⟨h.size j hj', h.type j hj', h.nlink j hj'⟩
    · refine ha.filed.move (write_sectors (iblock_lt_size hlt) ha.filed.sectors) rfl rfl
        (fun x hx => put_blocks hlt ?_) fun j hj => ?_
      · have := iblock_lt_nmeta hlt
        omega
      · by_cases hji : j = i
        · subst hji
          rw [update_self, update_self]
        · rw [update_of_ne hji, update_of_ne hji, hold j hj]
  · have h1 := inodestart_le i
    have h2 : sb.inodestart < nmeta := by decide
    rw [put_blocks hlt (by omega), ha.frame.low x (by omega)]
  · have := ha.next
    rw [hlen] at this
    exact this

/-- The image after `freeinode++`. -/
def Image.inodeTaken (s : Image) : Image := { s with freeinode := s.freeinode + 1 }

theorem fresh_ref (s : Image) (type : Nat) (sl : Slot) : s.disk.ref (fresh type) sl = 0 := by
  cases sl <;> rfl

theorem fresh_holds (s : Image) (type : Nat) : Holds s (fresh type) [] := by
  refine ⟨Nat.zero_le _, fun m _ => ?_, ?_, rfl⟩
  · rw [fresh_ref]
    simp
  · simp [fresh, Dinode.fresh]

theorem ialloc_spec {type : Nat} (h : Built s c) (hfit : s.freeinode < ISLOTS)
    (htype : type = typeOf s.freeinode) :
    ∃ s', Ends (ialloc type) s s.freeinode s' ∧ Step s s' (update c s.freeinode []) ∧
      s'.freeinode = s.freeinode + 1 ∧ s'.freeblock = s.freeblock := by
  obtain ⟨own, hf⟩ := h.files
  have hfresh : (fresh type).Fits := by
    have ht : type < 2 ^ 16 := by
      rw [htype, typeOf]
      split_ifs <;> decide
    exact ⟨ht, Nat.two_pow_pos 16, Nat.two_pow_pos 16, (by decide : 1 < 2 ^ 16),
      Nat.two_pow_pos 32, fun _ => Nat.two_pow_pos 32⟩
  have hlive : ∀ j, (s.inodeTaken.put s.freeinode
      (fresh type)).Live j → j ≠ s.freeinode → s.Live j := by
    intro j hj hne
    have h1 := hj.1
    have h2 : j < s.freeinode + 1 := hj.2
    exact ⟨h1, by omega⟩
  have hdata : ∀ x, nmeta ≤ x → (s.inodeTaken.put s.freeinode
      (fresh type)).blocks x = s.blocks x := by
    intro x hx
    have := iblock_lt_nmeta hfit
    exact put_blocks hfit (by omega)
  refine ⟨s.inodeTaken.put s.freeinode (fresh type), ?_,
    ⟨built_put own hfit hfresh (Nat.succ_pos _) hfit ⟨?_, htype, rfl⟩
      (fun j hj hji => ?_) ?_, fun x hx => ?_⟩, rfl, rfl⟩
  · unfold Ends ialloc
    have hnext : Ends nextInode s s.freeinode s.inodeTaken := rfl
    have hwrite : Ends (winode s.freeinode (fresh type)) s.inodeTaken ()
      (s.inodeTaken.put s.freeinode (fresh type)) :=
      winode_spec (s := s.inodeTaken) hfit hf.sectors _
    rw [run_bind_of_ends hnext, run_bind_of_ends hwrite]
    rfl
  · rw [update_self]
    rfl
  · have hj' := hlive j hj hji
    rw [update_of_ne hji]
    exact ⟨h.size j hj', h.type j hj', h.nlink j hj'⟩
  · -- the new inode has no blocks
    have href : ∀ j, s.Live j → ∀ sl, (s.inodeTaken.put s.freeinode
        (fresh type)).disk.ref (s.disk.dinode sb j) sl = s.disk.ref (s.disk.dinode sb j) sl := by
      intro j hj
      exact hf.ref_same hj fun x hx => hdata x (hf.data x (by simp [hx])).1
    refine ⟨⟨write_sectors (iblock_lt_size hfit) hf.sectors, hf.low, fun j sl b hb => ?_, hf.data,
      fun b hb => ?_⟩, hf.high, fun j hj => ?_⟩
    · by_cases hji : j = s.freeinode
      · subst hji
        rw [update_self, fresh_ref]
        constructor
        · exact fun hc => absurd hc.2.symm hb
        · intro ho
          have hlv := ((hf.ref _ sl b hb).mpr ho).1
          exact absurd hlv.2 (lt_irrefl _)
      · rw [update_of_ne hji]
        show _ ∧ Disk.ref _ (s.disk.dinode sb j) sl = b ↔ _
        rw [← hf.ref j sl b hb]
        constructor
        · rintro ⟨hj, hr⟩
          have hl := hlive j hj hji
          exact ⟨hl, by rw [← href j hl, hr]⟩
        · rintro ⟨hj, hr⟩
          exact ⟨⟨hj.1, Nat.lt_succ_of_lt hj.2⟩, by rw [href j hj, hr]⟩
    · have hlow := hf.low
      have hb' : s.freeblock ≤ b := hb
      rw [hdata b (by omega), hf.zero b hb']
    · by_cases hji : j = s.freeinode
      · subst hji
        rw [update_self, update_self]
        exact fresh_holds _ _
      · rw [update_of_ne hji, update_of_ne hji]
        have hl := hlive j hj hji
        exact hf.holds_same hl (fun x sl hx => hdata x (hf.data x (by simp [hx])).1) (hf.holds j hl)
  · have h1 := inodestart_le s.freeinode
    exact put_blocks hfit (by omega)

theorem Room.mono {len a b : Nat} (h : Room s len b) (hab : a ≤ b) : Room s len a := by
  have hmono : blocksFor (len + a) ≤ blocksFor (len + b) := blocksFor_mono (by omega)
  have h1 := h.1
  have h2 := h.2
  exact ⟨by omega, by omega⟩

/-- Of the contents only those of inodes that were taken matter. -/
theorem Built.congr {c' : Nat → List UInt8} (h : Built s c) (hc : ∀ i, s.Live i → c' i = c i) :
    Built s c' := by
  obtain ⟨own, hf⟩ := h.files
  refine ⟨h.first, h.fit, fun i hi => ?_, h.type, h.nlink, own, hf.toLaid, hf.high, fun i hi => ?_⟩
  · rw [hc i hi]
    exact h.size i hi
  · rw [hc i hi]
    exact hf.holds i hi

theorem bytesFrom_memOf (bs : List UInt8) : bytesFrom (memOf bs) 0 bs.length = bs := by
  refine ext_getElem (by simp [bytesFrom]) fun k h1 h2 => ?_
  simp [bytesFrom, memOf, h2]

theorem appendAll_cases (bufs : List (List UInt8)) :
    ∀ {s : Image} {c : Nat → List UInt8}, Built s c →
    s.Live i →
    (Room s (c i).length bufs.flatten.length ∧
      ∃ s', Ends (appendAll i bufs) s () s' ∧ Step s s' (update c i (c i ++ bufs.flatten)) ∧
      s'.freeinode = s.freeinode ∧
      s'.freeblock + blocksFor (c i).length =
        s.freeblock + blocksFor ((c i).length + bufs.flatten.length)) ∨
    (¬ Room s (c i).length bufs.flatten.length ∧ ∃ e, (appendAll i bufs).run s = .error e) := by
  induction bufs with
  | nil =>
    intro s c h hi
    obtain ⟨own, hf⟩ := h.files
    refine .inl ⟨hf.room_zero hi, s, rfl, ⟨?_, fun _ _ => rfl⟩, rfl, rfl⟩
    rw [flatten_nil, append_nil, update_eq_self]
    exact h
  | cons buf bufs ih =>
    intro s c h hi
    rw [appendAll, flatten_cons, length_append]
    rcases iappend_cases (memOf buf) buf.length h hi with
      ⟨-, s1, hrun, hstep, hlive, hnext⟩ | ⟨hno, e, he⟩
    swap
    · exact .inr ⟨fun hr => hno (hr.mono (Nat.le_add_right _ _)), e, run_bind_of_error he⟩
    rw [bytesFrom_memOf] at hstep
    have hlen : (update c i (c i ++ buf) i).length = (c i).length + buf.length := by
      rw [update_self, length_append]
    have hrec := ih hstep.built ⟨hi.1, by rw [hlive]; exact hi.2⟩
    rw [hlen, ← room_add hnext] at hrec
    unfold Ends
    rw [run_bind_of_ends hrun]
    rcases hrec with ⟨hr, s', hrun', hstep', hlive', hnext'⟩ | hfull
    · refine .inl ⟨hr, s', hrun', ⟨?_, fun x hx => (hstep'.low x hx).trans (hstep.low x hx)⟩,
        hlive'.trans hlive, ?_⟩
      · have hb := hstep'.built
        rw [update_self, update_idem, append_assoc] at hb
        exact hb
      · rw [← add_assoc]
        omega
    · exact .inr hfull

end Steps

/-! ## The loop over the arguments -/

/-- What is read from a file. -/
def Input.data (f : Input) : List UInt8 := (f.chunks.getD []).flatten

/-- The bytes of an entry. -/
def entryBytes (inum : Nat) (name : List UInt8) : List UInt8 :=
  bytesFrom (dirent inum name).bytes 0 DIRENT

/-- The entries of the root directory. -/
def entries (fs : List Input) : List (Nat × List UInt8) :=
  (ROOTINO, dot) :: (ROOTINO, dotdot) :: fs.mapIdx fun k f => (k + 2, f.name)

def rootBytes (fs : List Input) : List UInt8 := (entries fs).flatMap fun e => entryBytes e.1 e.2

/-- What the inodes hold after the files `fs`. -/
def table (fs : List Input) (i : Nat) : List UInt8 :=
  if i = ROOTINO then rootBytes fs else ((fs[i - 2]?).map Input.data).getD []

/-- The blocks in use after the files `fs`. -/
def used (fs : List Input) : Nat :=
  nmeta + blocksFor (DIRENT * (fs.length + 2)) + (fs.map fun f => blocksFor f.data.length).sum

/-- The argument can be taken. -/
def Input.Ok (f : Input) : Prop :=
  SLASH ∉ f.arg ∧ f.chunks ≠ none ∧ f.data.length ≤ MAXFILE * BSIZE

/-- The image after the files `fs`. -/
structure Stage (s : Image) (fs : List Input) : Prop where
  built : Built s (table fs)
  next  : s.freeinode = fs.length + 2
  free  : s.freeblock = used fs
  super : s.blocks 1 = sbBlock sb
  log   : s.blocks 2 = .fill 0

section Loop

variable {s : Image} {fs : List Input} {f : Input}

theorem length_entryBytes (inum : Nat) (name : List UInt8) :
    (entryBytes inum name).length = DIRENT := by
  simp [entryBytes, bytesFrom]

theorem length_rootBytes (fs : List Input) : (rootBytes fs).length = DIRENT * (fs.length + 2) := by
  have h : ∀ l : List (Nat × List UInt8),
      (l.flatMap fun e => entryBytes e.1 e.2).length = DIRENT * l.length := by
    intro l
    induction l with
    | nil => rfl
    | cons e l ih =>
      rw [flatMap_cons, length_append, ih, length_entryBytes, length_cons]
      simp only [DIRENT]
      omega
  rw [rootBytes, h, entries]
  simp

theorem entries_snoc (fs : List Input) (f : Input) :
    entries (fs ++ [f]) = entries fs ++ [(fs.length + 2, f.name)] := by
  simp [entries, mapIdx_concat]

theorem rootBytes_snoc (fs : List Input) (f : Input) :
    rootBytes (fs ++ [f]) = rootBytes fs ++ entryBytes (fs.length + 2) f.name := by
  rw [rootBytes, entries_snoc, flatMap_append]
  simp [rootBytes]

theorem table_root (fs : List Input) : table fs ROOTINO = rootBytes fs := if_pos rfl

theorem table_snoc_of_lt {i : Nat} (hi : i ≠ ROOTINO) (hlt : i < fs.length + 2) (h1 : 1 ≤ i) :
    table (fs ++ [f]) i = table fs i := by
  have hi' : i ≠ 1 := hi
  unfold table
  rw [if_neg hi, if_neg hi, getElem?_append_left (by omega)]

theorem table_snoc_self : table (fs ++ [f]) (fs.length + 2) = f.data := by
  unfold table
  rw [if_neg (by simp only [ROOTINO]; omega)]
  simp

theorem used_snoc (fs : List Input) (f : Input) :
    used (fs ++ [f]) + blocksFor (DIRENT * (fs.length + 2)) =
      used fs + blocksFor (DIRENT * (fs.length + 3)) + blocksFor f.data.length := by
  unfold used
  rw [map_append, sum_append, length_append]
  simp only [map_cons, map_nil, sum_cons, sum_nil, length_singleton]
  rw [show fs.length + 1 + 2 = fs.length + 3 from rfl]
  omega

theorem used_le_append (fs gs : List Input) : used fs ≤ used (fs ++ gs) := by
  unfold used
  rw [map_append, sum_append, length_append]
  have := blocksFor_mono (a := DIRENT * (fs.length + 2)) (b := DIRENT * (fs.length + gs.length + 2))
    (by simp only [DIRENT]; omega)
  omega

theorem addFile_cases (h : Stage s fs) (hfit : fs.length + 2 < ISLOTS) :
    (f.Ok ∧ used (fs ++ [f]) ≤ FSSIZE ∧
      ∃ s', Ends (addFile ROOTINO f) s () s' ∧ Stage s' (fs ++ [f])) ∨
    (¬ (f.Ok ∧ used (fs ++ [f]) ≤ FSSIZE) ∧ ∃ e, (addFile ROOTINO f).run s = .error e) := by
  unfold addFile
  by_cases hslash : SLASH ∈ f.arg
  · rw [if_pos hslash]
    exact .inr ⟨fun hc => hc.1.1 hslash, _, rfl⟩
  rw [if_neg hslash]
  cases hchunks : f.chunks with
  | none => exact .inr ⟨fun hc => hc.1.2.1 hchunks, _, rfl⟩
  | some chunks =>
    dsimp only
    have hdata : f.data = chunks.flatten := by rw [Input.data, hchunks]; rfl
    have hi := h.next
    obtain ⟨s1, hrun1, hstep1, hlive1, hfree1⟩ := ialloc_spec h.built (by omega)
      (show T_FILE = typeOf s.freeinode by
        rw [hi, typeOf, if_neg (by simp only [ROOTINO]; omega)])
    -- the contents of the root directory and of the new inode
    have hroot1 : update (table fs) s.freeinode [] ROOTINO = rootBytes fs := by
      rw [update_of_ne (by rw [hi]; simp only [ROOTINO]; omega), table_root]
    have hrl : s1.Live ROOTINO := ⟨le_rfl, by rw [hlive1, hi]; simp only [ROOTINO]; omega⟩
    have hlen := length_rootBytes fs
    have hsnoc := used_snoc fs f
    have hfree := h.free
    have hbytes : bytesFrom (dirent s.freeinode f.name).bytes 0 DIRENT =
        entryBytes (fs.length + 2) f.name := by
      rw [hi]
      rfl
    have hbig : DIRENT * (fs.length + 2) + DIRENT ≤ MAXFILE * BSIZE := by
      have h208 : fs.length + 2 < 208 := hfit
      simp only [DIRENT, MAXFILE, BSIZE, NDIRECT, NINDIRECT]
      omega
    have hroomiff : Room s1 (update (table fs) s.freeinode [] ROOTINO).length DIRENT ↔
        used fs + blocksFor (DIRENT * (fs.length + 3)) ≤
          FSSIZE + blocksFor (DIRENT * (fs.length + 2)) := by
      rw [hroot1, hlen, Room, hfree1, hfree,
        show DIRENT * (fs.length + 2) + DIRENT = DIRENT * (fs.length + 3) by
          simp only [DIRENT]; omega]
      constructor
      · exact fun hc => hc.2
      · refine fun hc => ⟨?_, hc⟩
        simp only [DIRENT] at hbig ⊢
        omega
    rw [run_bind_of_ends hrun1]
    rcases iappend_cases (dirent s.freeinode f.name).bytes DIRENT hstep1.built hrl with
      ⟨-, s2, hrun2, hstep2, hlive2, hfree2⟩ | ⟨hno, e, he⟩
    swap
    · exact .inr ⟨fun hc => hno (hroomiff.mpr (by omega)), e, run_bind_of_error he⟩
    rw [hbytes, hroot1] at hstep2
    rw [hroot1, hlen, hfree1, hfree,
      show DIRENT * (fs.length + 2) + DIRENT = DIRENT * (fs.length + 3) by
        simp only [DIRENT]; omega] at hfree2
    have hnl : s2.Live s.freeinode := ⟨h.built.first, by rw [hlive2, hlive1]; omega⟩
    have hnew : update (update (table fs) s.freeinode []) ROOTINO
        (rootBytes fs ++ entryBytes (fs.length + 2) f.name) s.freeinode = [] := by
      rw [update_of_ne (by rw [hi]; simp only [ROOTINO]; omega), update_self]
    have hroomiff2 : Room s2 (update (update (table fs) s.freeinode []) ROOTINO
        (rootBytes fs ++ entryBytes (fs.length + 2) f.name) s.freeinode).length
        chunks.flatten.length ↔ f.data.length ≤ MAXFILE * BSIZE ∧ used (fs ++ [f]) ≤ FSSIZE := by
      have hz : blocksFor 0 = 0 := rfl
      rw [hnew, length_nil, Room, zero_add, ← hdata, hz]
      omega
    have hrun2' : Ends (addEntry ROOTINO s.freeinode f.name) s1 () s2 := hrun2
    rw [run_bind_of_ends hrun2']
    rcases appendAll_cases chunks hstep2.built hnl with
      ⟨hroom, s3, hrun3, hstep3, hlive3, hfree3⟩ | ⟨hno, e, he⟩
    · have hroom2 := hroomiff2.mp hroom
      have hne : f.chunks ≠ none := by rw [hchunks]; simp
      refine .inl ⟨⟨hslash, hne, hroom2.1⟩, hroom2.2, s3, ?_, ?_, ?_, ?_, ?_, ?_⟩
      · unfold Ends
        rw [run_bind_of_ends hrun1, run_bind_of_ends hrun2']
        exact hrun3
      · refine hstep3.built.congr fun j hj => ?_
        have hj2 : j < fs.length + 3 := by
          have := hj.2
          omega
        by_cases hjn : j = s.freeinode
        · subst hjn
          rw [update_self, hnew, nil_append, hi, table_snoc_self, hdata]
        · rw [update_of_ne hjn]
          by_cases hjr : j = ROOTINO
          · subst hjr
            rw [update_self, table_root, rootBytes_snoc]
          · rw [update_of_ne hjr, update_of_ne hjn]
            exact table_snoc_of_lt hjr (by omega) hj.1
      · rw [hlive3, hlive2, hlive1, hi, length_append]
        rfl
      · have hz : blocksFor 0 = 0 := rfl
        rw [hnew, length_nil, zero_add, ← hdata, hz] at hfree3
        omega
      · rw [hstep3.low 1 (by decide), hstep2.low 1 (by decide), hstep1.low 1 (by decide), h.super]
      · rw [hstep3.low 2 (by decide), hstep2.low 2 (by decide), hstep1.low 2 (by decide), h.log]
    · exact .inr ⟨fun hc => hno (hroomiff2.mpr ⟨hc.1.2.2, hc.2⟩), e, he⟩

theorem addFiles_cases (gs : List Input) : ∀ {s : Image} {fs : List Input}, Stage s fs →
    fs.length + gs.length + 2 ≤ ISLOTS → used fs ≤ FSSIZE →
    ((∀ f ∈ gs, f.Ok) ∧ used (fs ++ gs) ≤ FSSIZE ∧
      ∃ s', Ends (addFiles ROOTINO gs) s () s' ∧ Stage s' (fs ++ gs)) ∨
    (¬ ((∀ f ∈ gs, f.Ok) ∧ used (fs ++ gs) ≤ FSSIZE) ∧
      ∃ e, (addFiles ROOTINO gs).run s = .error e) := by
  induction gs with
  | nil =>
    intro s fs h _ hused
    refine .inl ⟨fun f hf => (nomatch hf), ?_, s, rfl, ?_⟩
    · rw [append_nil]
      exact hused
    · rw [append_nil]
      exact h
  | cons f gs ih =>
    intro s fs h hfit _
    rw [length_cons] at hfit
    have hcat : fs ++ f :: gs = fs ++ [f] ++ gs := by simp
    rw [hcat, addFiles]
    rcases addFile_cases (f := f) h (by omega) with ⟨hok, hused, s1, hrun, h1⟩ | ⟨hno, e, he⟩
    · have hlen : (fs ++ [f]).length = fs.length + 1 := by simp
      rcases ih h1 (by omega) hused with ⟨hall, hused', s', hrun', h'⟩ | ⟨hno, e, he⟩
      · refine .inl ⟨fun g hg => ?_, hused', s', ?_, h'⟩
        · rcases mem_cons.mp hg with rfl | hg
          · exact hok
          · exact hall g hg
        · unfold Ends
          rw [run_bind_of_ends hrun]
          exact hrun'
      · refine .inr ⟨fun hc => hno ⟨fun g hg => hc.1 g (mem_cons_of_mem _ hg), hc.2⟩, e, ?_⟩
        rw [run_bind_of_ends hrun]
        exact he
    · refine .inr ⟨fun hc => hno ⟨hc.1 f mem_cons_self, ?_⟩, e, run_bind_of_error he⟩
      exact (used_le_append (fs ++ [f]) gs).trans hc.2

end Loop

/-! ## The image before its last steps -/

/-- The loop that writes zeros only makes the file longer. -/
theorem clear_spec (n : Nat) (hn : n ≤ FSSIZE) :
    Ends (clear (range n)) start () { start with sectors := n } := by
  have hall : ∀ (k m : Nat), m + k ≤ FSSIZE →
      Ends (clear (range' m k)) { start with sectors := m } ()
        { start with sectors := m + k } := by
    intro k
    induction k with
    | zero => exact fun m _ => rfl
    | succ k ih =>
      intro m hm
      have hsec : sector m = m := sector_of_lt (by simp only [FSSIZE] at hm; omega)
      have hwrite : ({ start with sectors := m } : Image).write m (.fill 0) =
          { start with sectors := m + 1 } := by
        unfold Image.write
        rw [hsec]
        congr 1
        · exact update_eq_self ..
        · show max m (m + 1) = m + 1
          omega
      unfold Ends
      rw [range'_succ, clear, run_bind_of_ends (ends_wsect), hwrite,
        show m + (k + 1) = m + 1 + k by omega]
      exact ih (m + 1) (by omega)
  have := hall n 0 (by omega)
  rw [zero_add, ← range_eq_range'] at this
  exact this

/-- The image with its super block. -/
def formatted : Image := ({ start with sectors := FSSIZE } : Image).write 1 (sbBlock sb)

theorem formatted_blocks {x : Nat} (hx : x ≠ 1) : formatted.blocks x = .fill 0 :=
  write_blocks_of_ne (by decide) hx

theorem formatted_built : Built formatted fun _ => [] := by
  have hno : ∀ i, ¬ formatted.Live i := by
    intro i hi
    have h1 := hi.1
    have h2 : i < 1 := hi.2
    omega
  refine ⟨le_rfl, by decide, fun i hi => absurd hi (hno i), fun i hi => absurd hi (hno i),
    fun i hi => absurd hi (hno i), fun _ => none, ⟨?_, le_rfl, fun i sl b _ => ?_, ?_, ?_⟩,
    by decide, fun i hi => absurd hi (hno i)⟩
  · exact write_sectors (by decide) rfl
  · exact ⟨fun hc => absurd hc.1 (hno i), fun hc => by cases hc⟩
  · exact fun b hb => absurd rfl hb
  · intro b hb
    have hb' : nmeta ≤ b := hb
    refine formatted_blocks fun hc => ?_
    rw [hc] at hb'
    exact absurd hb' (by decide)

/-- The root directory with its first two entries. -/
theorem root_spec : ∃ s1 s2 s3, Ends (ialloc T_DIR) formatted ROOTINO s1 ∧
    Ends (addEntry ROOTINO ROOTINO dot) s1 () s2 ∧
    Ends (addEntry ROOTINO ROOTINO dotdot) s2 () s3 ∧ Stage s3 [] := by
  obtain ⟨s1, hrun1, hstep1, hlive1, hfree1⟩ := ialloc_spec formatted_built
    (by decide) (show T_DIR = typeOf formatted.freeinode from rfl)
  have hfreeinode : formatted.freeinode = ROOTINO := rfl
  have hfreeblock : formatted.freeblock = nmeta := rfl
  rw [hfreeinode] at hrun1 hlive1 hstep1
  have hr1 : s1.Live ROOTINO := ⟨le_rfl, by rw [hlive1]; decide⟩
  have hz : update (fun _ : Nat => ([] : List UInt8)) ROOTINO [] ROOTINO = [] :=
    update_self ..
  obtain ⟨-, s2, hrun2, hstep2, hlive2, hfree2⟩ := (iappend_cases
    (dirent ROOTINO dot).bytes DIRENT hstep1.built hr1).resolve_right fun hno => hno.1 (by
      rw [hz, Room, hfree1, hfreeblock]
      decide)
  rw [hz, nil_append] at hstep2
  have hr2 : s2.Live ROOTINO := ⟨le_rfl, by rw [hlive2, hlive1]; decide⟩
  have hself : ∀ (g : Nat → List UInt8) (bs : List UInt8), update g ROOTINO bs ROOTINO = bs :=
    fun g bs => update_self ..
  have hlen : (bytesFrom (dirent ROOTINO dot).bytes 0 DIRENT).length = DIRENT := by simp [bytesFrom]
  have hf2 : s2.freeblock = nmeta + 1 := by
    rw [hz, hfree1, hfreeblock] at hfree2
    have h16 : blocksFor (([] : List UInt8).length + DIRENT) = 1 := by decide
    have h0 : blocksFor ([] : List UInt8).length = 0 := by decide
    omega
  obtain ⟨-, s3, hrun3, hstep3, hlive3, hfree3⟩ := (iappend_cases
    (dirent ROOTINO dotdot).bytes DIRENT hstep2.built hr2).resolve_right fun hno => hno.1 (by
      rw [hself, hlen, Room, hf2]
      decide)
  refine ⟨s1, s2, s3, hrun1, hrun2, hrun3, ?_, ?_, ?_, ?_, ?_⟩
  · refine hstep3.built.congr fun i hi => ?_
    have h2 : i < 2 := by
      have := hi.2
      rw [hlive3, hlive2, hlive1] at this
      exact this
    have h1 := hi.1
    obtain rfl : i = ROOTINO := by simp only [ROOTINO]; omega
    rw [table_root, update_self, hself]
    simp [rootBytes, entries, entryBytes]
  · rw [hlive3, hlive2, hlive1]
    rfl
  · rw [hself, hlen, hf2] at hfree3
    have h16 : blocksFor DIRENT = 1 := by decide
    have h32 : blocksFor (DIRENT + DIRENT) = 1 := by decide
    have hu : used [] = nmeta + 1 := by decide
    omega
  · rw [hstep3.low 1 (by decide), hstep2.low 1 (by decide), hstep1.low 1 (by decide)]
    exact write_blocks_self (by decide)
  · rw [hstep3.low 2 (by decide), hstep2.low 2 (by decide), hstep1.low 2 (by decide)]
    exact formatted_blocks (by decide)

/-- The last two steps. -/
def finish : Mk Unit := do
  fixRoot ROOTINO
  let s ← get
  balloc s.freeblock

/-- `main` up to the loop over the arguments. -/
theorem main_run (files : List Input) : ∃ s, Stage s [] ∧
    (main files).run start = (do addFiles ROOTINO files; finish : Mk Unit).run s := by
  obtain ⟨s1, s2, s3, hrun1, hrun2, hrun3, hstage⟩ := root_spec
  refine ⟨s3, hstage, ?_⟩
  unfold main
  have hsb : Ends (wsect 1 (sbBlock sb)) { start with sectors := FSSIZE } () formatted := ends_wsect
  rw [run_bind_of_ends (clear_spec FSSIZE le_rfl), run_bind_of_ends hsb,
    run_bind_of_ends hrun1, if_pos rfl, run_bind_of_ends hrun2, run_bind_of_ends hrun3]
  rfl

end Xv6.Mkfs
