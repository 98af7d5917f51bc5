import Xv6.Fs.Content
import Xv6.Fs.Inode

/-! # The contents of an inode

    `readi` and `writei` work block by block and let `bmap` find the blocks. Here the blocks of an
    inode are put together to one byte array, and the two loops are specified on it.

    - `readFrom_spec`: where every block is there, the loop delivers the contents
    - `writeFrom_spec`: the loop copies its source over the contents; it fails
      only if there are fewer free blocks than it needs
-/

namespace Xv6.Fs

open Program Script ByteMem Function

variable {sb : Superblock} {s s' s'' : Disk} {ino : Nat → Dinode}
  {own own' own'' : Nat → Option Pos} {lim : Nat → Prop} {b bn m off n k i src x len : Nat}
  {d d' : Dinode} {ip ip' ip'' : Inode} {mem : Mem}

/-! ## Blocks of a file -/

/-- Block `bn` of a file. What is not there reads as zeros. -/
def Disk.page (s : Disk) (d : Dinode) (bn : Nat) : Block :=
  if s.ref d (slotOf bn) = 0 then .fill 0 else s.blocks (s.ref d (slotOf bn))

/-- The bytes of a file. -/
def Disk.content (s : Disk) (d : Dinode) : Mem := fun k =>
  if k < MAXFILE * BSIZE then (s.page d (k / BSIZE)).bytes (k % BSIZE) else 0

theorem div_lt_maxfile (h : k < MAXFILE * BSIZE) : k / BSIZE < MAXFILE :=
  Nat.div_lt_of_lt_mul (by rwa [mul_comm])

theorem content_of_lt (h : k < MAXFILE * BSIZE) :
    s.content d k = (s.page d (k / BSIZE)).bytes (k % BSIZE) := if_pos h

theorem content_of_ge (h : ¬ k < MAXFILE * BSIZE) : s.content d k = 0 := if_neg h

theorem content_congr (h : ∀ bn < MAXFILE, s'.page d' bn = s.page d bn) :
    s'.content d' = s.content d := by
  funext k
  by_cases hk : k < MAXFILE * BSIZE
  · rw [content_of_lt hk, content_of_lt hk, h _ (div_lt_maxfile hk)]
  · rw [content_of_ge hk, content_of_ge hk]

theorem page_of_ref (h : s.ref d (slotOf bn) ≠ 0) :
    s.page d bn = s.blocks (s.ref d (slotOf bn)) := if_neg h

theorem page_congr (href : s'.ref d' (slotOf bn) = s.ref d (slotOf bn))
    (h : s.ref d (slotOf bn) ≠ 0 → s'.blocks (s.ref d (slotOf bn)) =
      s.blocks (s.ref d (slotOf bn))) : s'.page d' bn = s.page d bn := by
  unfold Disk.page
  rw [href]
  by_cases hz : s.ref d (slotOf bn) = 0
  · rw [if_pos hz, if_pos hz]
  · rw [if_neg hz, if_neg hz, h hz]

theorem Owns.content_of_same (h : Owns sb s ino own lim) (hi : i < sb.ninodes)
    (ht : (ino i).type ≠ 0) (hsame : ∀ x sl, own x = some (i, sl) → s'.blocks x = s.blocks x) :
    s'.content (ino i) = s.content (ino i) := by
  refine content_congr fun bn _ => page_congr (ref_congr (fun hz => ?_) _) fun hz => ?_
  · exact hsame _ _ (h.owner_indirect hi ht hz)
  · exact hsame _ _ (h.owner hi ht hz)

/-- A write to block `bn` of the file. -/
theorem Owns.page_write (h : Owns sb s ino own lim) (hip : ino ip.inum = ip.toDinode)
    (hi : ip.inum < sb.ninodes) (ht : ip.type ≠ 0) (hbn : bn < MAXFILE)
    (hb : s.ref ip.toDinode (slotOf bn) = b) (hne : b ≠ 0) {c : Block} (hm : m < MAXFILE) :
    (s.write b c).page ip.toDinode m = if m = bn then c else s.page ip.toDinode m := by
  have ht' : (ino ip.inum).type ≠ 0 := by
    rw [hip]
    exact ht
  have hu : ∀ sl, s.ref ip.toDinode sl = b → sl = slotOf bn := by
    intro sl hsl
    have hz : s.ref (ino ip.inum) sl ≠ 0 := by
      rw [hip, hsl]
      exact hne
    have he : s.ref (ino ip.inum) sl = s.ref (ino ip.inum) (slotOf bn) := by
      rw [hip, hsl, hb]
    exact (h.unique hi ht' hi ht' hz he).2
  -- the indirect block is another one
  have href : ∀ sl, (s.write b c).ref ip.toDinode sl = s.ref ip.toDinode sl :=
    ref_congr fun _ => write_of_ne fun he => slotOf_ne_indirect bn (hu .indirect he).symm
  by_cases hmb : m = bn
  · subst hmb
    rw [if_pos rfl, page_of_ref (by rw [href, hb]; exact hne), href, hb, write_self]
  · rw [if_neg hmb]
    exact page_congr (href _) fun _ => write_of_ne fun he => hmb (slotOf_inj hm hbn (hu _ he))

/-- `bmap` does not change the contents: a block that it adds is zero. -/
theorem Bmapped.page (hr : Bmapped sb s ip own bn b s' ip' own') (h : Owns sb s ino own lim)
    (hip : ino ip.inum = ip.toDinode) (hi : ip.inum < sb.ninodes) (ht : ip.type ≠ 0)
    (hbn : bn < MAXFILE) (hm : m < MAXFILE) : s'.page ip'.toDinode m = s.page ip.toDinode m := by
  have hold : ∀ sl, s.ref ip.toDinode sl ≠ 0 → sl ≠ .indirect →
      s'.blocks (s.ref ip.toDinode sl) = s.blocks (s.ref ip.toDinode sl) := by
    intro sl hsl hne
    rw [← hip] at hsl ⊢
    have ho := h.owner hi (by rw [hip]; exact ht) hsl
    exact hr.ext.blocks _ _ ho (by simpa using hne)
  by_cases hmb : m = bn
  · subst hmb
    by_cases hz : s.ref ip.toDinode (slotOf m) = 0
    · rw [page_of_ref (by rw [hr.addr]; exact hr.ne), hr.addr, (hr.zero hz).2]
      exact (if_pos hz).symm
    · obtain ⟨hs, hip'⟩ := hr.mapped hz
      rw [hs, hip']
  · exact page_congr (hr.only _ (fun he => hmb (slotOf_inj hm hbn he)) (slotOf_ne_indirect m))
      fun hz => hold _ hz (slotOf_ne_indirect m)

/-! ## The blocks of a range -/

/-- The blocks of a file in which the bytes `off`, …, `off + n - 1` lie. -/
def touched (off n : Nat) : Finset Nat :=
  (Finset.range MAXFILE).filter fun bn =>
    0 < n ∧ off < BSIZE * (bn + 1) ∧ BSIZE * bn < off + n

theorem mem_touched :
    bn ∈ touched off n ↔
      bn < MAXFILE ∧ 0 < n ∧ off < BSIZE * (bn + 1) ∧ BSIZE * bn < off + n := by
  simp [touched]

theorem touched_zero (off : Nat) : touched off 0 = ∅ := by
  ext bn
  rw [mem_touched]
  simp

theorem chunk_pos (off : Nat) (hn : 0 < n) : 0 < chunk off n := by
  unfold chunk
  have : off % BSIZE < BSIZE := Nat.mod_lt _ (by decide)
  omega

theorem chunk_le (off n : Nat) : chunk off n ≤ n := Nat.min_le_left ..

/-- A round stays in its block, and the next one starts the block after it. -/
theorem chunk_end (off n : Nat) : off + chunk off n ≤ BSIZE * (off / BSIZE + 1) ∧
    (chunk off n < n → off + chunk off n = BSIZE * (off / BSIZE + 1)) := by
  unfold chunk
  simp only [BSIZE]
  omega

theorem touched_step (hn : 0 < n) (h : off + n ≤ MAXFILE * BSIZE) :
    touched off n =
      insert (off / BSIZE) (touched (off + chunk off n) (n - chunk off n)) := by
  obtain ⟨h1, h2⟩ := chunk_end off n
  have h3 := chunk_pos off hn
  have h4 := chunk_le off n
  have h5 := div_lt_maxfile (k := off) (by omega)
  ext bn
  rw [Finset.mem_insert, mem_touched, mem_touched]
  simp only [BSIZE, MAXFILE, NINDIRECT, NDIRECT] at *
  omega

theorem lt_of_mem_touched (h : bn ∈ touched (off + chunk off n) (n - chunk off n)) :
    off / BSIZE < bn := by
  obtain ⟨h1, h2⟩ := chunk_end off n
  obtain ⟨-, h3, h4, h5⟩ := mem_touched.mp h
  simp only [BSIZE] at *
  omega

/-- The blocks of a range that are not there. -/
def Disk.missing (s : Disk) (ip : Inode) (off n : Nat) : Finset Nat :=
  (touched off n).filter fun bn => s.ref ip.toDinode (slotOf bn) = 0

/-- The blocks that a write takes. -/
def Disk.writeNeed (s : Disk) (ip : Inode) (off n : Nat) : Nat :=
  (s.missing ip off n).card +
    if ip.addrs INDIRECT = 0 ∧ ∃ bn ∈ s.missing ip off n, ¬ bn < NDIRECT then 1 else 0

theorem mem_missing : bn ∈ s.missing ip off n ↔
    bn ∈ touched off n ∧ s.ref ip.toDinode (slotOf bn) = 0 := Finset.mem_filter

theorem missing_step (hn : 0 < n) (h : off + n ≤ MAXFILE * BSIZE) :
    s.missing ip off n = if s.ref ip.toDinode (slotOf (off / BSIZE)) = 0
      then insert (off / BSIZE) (s.missing ip (off + chunk off n) (n - chunk off n))
      else s.missing ip (off + chunk off n) (n - chunk off n) := by
  unfold Disk.missing
  rw [touched_step hn h, Finset.filter_insert]

/-- What `bmap` adds is not among the blocks of the later rounds. -/
theorem Bmapped.missing (hr : Bmapped sb s ip own (off / BSIZE) b s' ip' own')
    (hoff : off < MAXFILE * BSIZE) :
    s'.missing ip' (off + chunk off n) (n - chunk off n) =
      s.missing ip (off + chunk off n) (n - chunk off n) := by
  ext bn
  rw [mem_missing, mem_missing]
  refine and_congr_right fun hbn => ?_
  have hlt := lt_of_mem_touched hbn
  rw [hr.only _ (fun he => ?_) (slotOf_ne_indirect bn)]
  have := slotOf_inj (mem_touched.mp hbn).1 (div_lt_maxfile hoff) he
  omega

/-- After an entry was found or added the indirect block is there. -/
theorem Bmapped.indirect_ne (hr : Bmapped sb s ip own bn b s' ip' own') (hbn : bn < MAXFILE)
    (hd : ¬ bn < NDIRECT) : ip'.addrs INDIRECT ≠ 0 := by
  intro hc
  refine hr.ne ?_
  have hlt : bn - NDIRECT < NINDIRECT := by
    simp only [MAXFILE] at hbn
    omega
  rw [← hr.addr, slotOf_entry hd hlt]
  exact if_pos hc

theorem Bmapped.writeNeed (hr : Bmapped sb s ip own (off / BSIZE) b s' ip' own') (hn : 0 < n)
    (h : off + n ≤ MAXFILE * BSIZE) :
    s.writeNeed ip off n = s.bmapNeed ip (off / BSIZE) +
      s'.writeNeed ip' (off + chunk off n) (n - chunk off n) := by
  have hmiss := hr.missing (n := n) (by omega)
  have hnot : off / BSIZE ∉ s.missing ip (off + chunk off n) (n - chunk off n) := fun hmem =>
    absurd (lt_of_mem_touched (mem_missing.mp hmem).1) (lt_irrefl _)
  unfold Disk.writeNeed
  rw [hmiss, missing_step hn h]
  by_cases hz : s.ref ip.toDinode (slotOf (off / BSIZE)) = 0
  · rw [if_pos hz, Finset.card_insert_of_notMem hnot]
    by_cases hd : off / BSIZE < NDIRECT
    · rw [bmapNeed_one hz (.inl hd), hr.direct hd]
      simp only [Finset.exists_mem_insert, hd, not_true, false_or]
      omega
    · have hind := hr.indirect_ne (div_lt_maxfile (by omega)) hd
      by_cases hold : ip.addrs INDIRECT = 0
      · have hlt : off / BSIZE - NDIRECT < NINDIRECT := by
          have := div_lt_maxfile (k := off) (by omega)
          simp only [MAXFILE] at this
          omega
        rw [bmapNeed_two hd hold hlt]
        simp only [Finset.exists_mem_insert, hold, hd, hind]
        simp
        omega
      · rw [bmapNeed_one hz (.inr hold)]
        simp only [hold, hind]
        simp
        omega
  · obtain ⟨-, hip'⟩ := hr.mapped hz
    rw [if_neg hz, bmapNeed_mapped hz, hip', zero_add]

/-! ## Rounds of `writei` -/

/-- The result of the loop of `writei` with source `src` in `mem`. -/
structure Wrote (sb : Superblock) (mem : Mem) (src off n : Nat) (s : Disk) (ip : Inode)
    (own : Nat → Option Pos) (s' : Disk) (ip' : Inode) (own' : Nat → Option Pos) : Prop where
  same    : ip' = { ip with addrs := ip'.addrs }
  kept    : ∀ sl, s.ref ip.toDinode sl ≠ 0 → s'.ref ip'.toDinode sl = s.ref ip.toDinode sl
  owner   : ∀ x p, own x = some p → own' x = some p
  others  : ∀ x p, own x = some p → p.1 ≠ ip.inum → s'.blocks x = s.blocks x
  iblock  : ∀ j < sb.ninodes, s'.blocks (sb.IBLOCK j) = s.blocks (sb.IBLOCK j)
  there   : ∀ bn ∈ touched off n, s'.ref ip'.toDinode (slotOf bn) ≠ 0
  content : s'.content ip'.toDinode = copy (s.content ip.toDinode) off mem src n
  idle    : s.missing ip off n = ∅ → ip' = ip
  nfree   : s'.nfree sb + s.writeNeed ip off n = s.nfree sb
  logged  : sb.size ≤ BPB → ∀ x, x ∈ s'.logged ↔ x ∈ s.logged ∨ ∃ bn ∈ touched off n,
    x = s'.ref ip'.toDinode (slotOf bn) ∨ s.ref ip.toDinode (slotOf bn) = 0 ∧
      (x = sb.bmapstart ∨ ¬ bn < NDIRECT ∧ x = ip'.addrs INDIRECT)

theorem bmapNeed_le (hn : 0 < n) (hmax : off + n ≤ MAXFILE * BSIZE) :
    s.bmapNeed ip (off / BSIZE) ≤ s.writeNeed ip off n := by
  by_cases hz : s.ref ip.toDinode (slotOf (off / BSIZE)) = 0
  · unfold Disk.writeNeed
    have hmem : off / BSIZE ∈ s.missing ip off n := by
      rw [missing_step hn hmax, if_pos hz]
      exact Finset.mem_insert_self ..
    have hcard : 1 ≤ (s.missing ip off n).card := Finset.card_pos.mpr ⟨_, hmem⟩
    by_cases h1 : off / BSIZE < NDIRECT ∨ ip.addrs INDIRECT ≠ 0
    · rw [bmapNeed_one hz h1]
      omega
    · rw [not_or, not_not] at h1
      rw [if_pos ⟨h1.2, _, hmem, h1.1⟩]
      unfold Disk.bmapNeed
      split_ifs <;> omega
  · rw [bmapNeed_mapped hz]
    exact Nat.zero_le _

theorem writeNeed_zero : s.writeNeed ip off 0 = 0 := by
  simp [Disk.writeNeed, Disk.missing, touched_zero]

theorem Wrote.refl (mem : Mem) (src off : Nat) (s : Disk) (ip : Inode) (own : Nat → Option Pos) :
    Wrote sb mem src off 0 s ip own s ip own where
  same := rfl
  kept _ _ := rfl
  owner _ _ := id
  others _ _ _ _ := rfl
  iblock _ _ := rfl
  there bn hbn := by
    rw [touched_zero] at hbn
    simp at hbn
  content := (copy_zero ..).symm
  idle _ := rfl
  nfree := by rw [writeNeed_zero, add_zero]
  logged _ x := by simp [touched_zero]

theorem bblock_eq (h : sb.size ≤ BPB) (hb : b < sb.size) : sb.BBLOCK b = sb.bmapstart := by
  unfold Superblock.BBLOCK
  rw [Nat.div_eq_of_lt (by omega), zero_add]

/-- One round changes one block of the file, the rest is as before. -/
theorem content_round (hoff : off < MAXFILE * BSIZE)
    (h : ∀ m < MAXFILE, s'.page d' m = if m = off / BSIZE
      then .ofBytes (copy (s.page d m).bytes (off % BSIZE) mem src (chunk off n))
      else s.page d m) : s'.content d' = copy (s.content d) off mem src (chunk off n) := by
  obtain ⟨hend, -⟩ := chunk_end off n
  have hb := div_lt_maxfile hoff
  funext k
  by_cases hk : k < MAXFILE * BSIZE
  · have hmod : k % BSIZE < BSIZE := Nat.mod_lt _ (by decide)
    rw [content_of_lt hk, h _ (div_lt_maxfile hk)]
    unfold copy
    rw [content_of_lt hk]
    by_cases hkb : k / BSIZE = off / BSIZE
    · rw [if_pos hkb, Block.bytes_ofBytes hmod]
      by_cases hin : off ≤ k ∧ k < off + chunk off n
      · rw [if_pos hin, if_pos (by simp only [BSIZE] at *; omega)]
        congr 1
        simp only [BSIZE] at *
        omega
      · rw [if_neg hin, if_neg (by simp only [BSIZE] at *; omega)]
    · rw [if_neg hkb, if_neg (by simp only [BSIZE] at *; omega)]
  · unfold copy
    rw [content_of_ge hk, content_of_ge hk, if_neg]
    simp only [BSIZE, MAXFILE, NDIRECT, NINDIRECT] at *
    omega

theorem missing_congr (href : ∀ sl, s'.ref ip.toDinode sl = s.ref ip.toDinode sl) :
    s'.missing ip off n = s.missing ip off n := by
  unfold Disk.missing
  simp only [href]

theorem writeNeed_congr (href : ∀ sl, s'.ref ip.toDinode sl = s.ref ip.toDinode sl) :
    s'.writeNeed ip off n = s.writeNeed ip off n := by
  unfold Disk.writeNeed
  rw [missing_congr href]

section Round

variable (hsb : sb.Ok) (h : Owns sb s ino own lim) (hip : ino ip.inum = ip.toDinode)
  (hi : ip.inum < sb.ninodes) (ht : ip.type ≠ 0) (hn : 0 < n)
  (hmax : off + n ≤ MAXFILE * BSIZE) (hr : Bmapped sb s ip own (off / BSIZE) b s' ip' own')
  (h' : Owns sb s' (update ino ip.inum ip'.toDinode) own' lim)

include hi ht hr h'

/-- The block that `bmap` gives belongs to the file. -/
theorem Bmapped.owner : own' b = some (ip.inum, slotOf (off / BSIZE)) := by
  have href : s'.ref (update ino ip.inum ip'.toDinode ip.inum) (slotOf (off / BSIZE)) =
      b := by
    rw [update_self, hr.addr]
  have := h'.owner hi (by rw [update_self, hr.ext.type]; exact ht) (by rw [href]; exact hr.ne)
  rwa [href] at this

include hsb

theorem Bmapped.ne_bblock {x : Nat} (hx : x < sb.size) : b ≠ sb.BBLOCK x := by
  have ho := hr.owner hi ht h'
  exact ne_bblock_of_data hsb (h'.data b (.inl (by simp [ho]))).1 hx

theorem Bmapped.ne_iblock {j : Nat} (hj : j < sb.ninodes) : sb.IBLOCK j ≠ b := by
  have ho := hr.owner hi ht h'
  exact iblock_ne_data hsb hj (h'.data b (.inl (by simp [ho]))).1

/-- The write of a round keeps the table. -/
theorem Bmapped.write (c : Block) :
    Owns sb (s'.write b c) (update ino ip.inum ip'.toDinode) own' lim := by
  refine h'.write (fun x hx => hr.ne_bblock hsb hi ht h' hx) fun j hj => ?_
  rw [hr.owner hi ht h'] at hj
  exact slotOf_ne_indirect _ (congrArg Prod.snd (Option.some.inj hj))

omit hsb in
theorem Bmapped.ref_write (c : Block) (sl : Slot) :
    (s'.write b c).ref ip'.toDinode sl = s'.ref ip'.toDinode sl := by
  refine ref_congr (fun hz => write_of_ne fun he => ?_) sl
  have ho := h'.owner_indirect (i := ip.inum) hi (by rw [update_self, hr.ext.type]; exact ht)
    (by rw [update_self]; exact hz)
  rw [update_self, he, hr.owner hi ht h'] at ho
  exact slotOf_ne_indirect _ (congrArg Prod.snd (Option.some.inj ho))

include h hip hn hmax

omit hsb in
theorem Bmapped.content :
    (s'.write b (.ofBytes (copy (s'.blocks b).bytes (off % BSIZE) mem src
      (chunk off n)))).content ip'.toDinode =
      copy (s.content ip.toDinode) off mem src (chunk off n) := by
  have hbn := div_lt_maxfile (k := off) (by omega)
  refine content_round (by omega) fun m hm => ?_
  have hpage := hr.page h hip hi ht hbn hm
  have hown := h'.page_write (m := m) (c := .ofBytes (copy (s'.blocks b).bytes (off % BSIZE) mem src
    (chunk off n))) (by rw [hr.ext.inum, update_self]) (by rw [hr.ext.inum]; exact hi)
    (by rw [hr.ext.type]; exact ht) hbn hr.addr hr.ne hm
  rw [hown, ← hpage]
  by_cases hmb : m = off / BSIZE
  · rw [if_pos hmb, if_pos hmb, hmb, page_of_ref (by rw [hr.addr]; exact hr.ne), hr.addr]
  · rw [if_neg hmb, if_neg hmb]

theorem Bmapped.wrote
    (hw : Wrote sb mem (src + chunk off n) (off + chunk off n) (n - chunk off n)
      (s'.write b (.ofBytes (copy (s'.blocks b).bytes (off % BSIZE) mem src (chunk off n)))) ip'
      own' s'' ip'' own'') : Wrote sb mem src off n s ip own s'' ip'' own'' := by
  have hle := chunk_le off n
  have hbn := div_lt_maxfile (k := off) (by omega)
  have href := hr.ref_write hi ht h'
    (.ofBytes (copy (s'.blocks b).bytes (off % BSIZE) mem src (chunk off n)))
  have hinum := hr.ext.inum
  have hstep := touched_step hn hmax
  have hwkept := hw.kept
  have hwlogged := hw.logged
  have hwfree := hw.nfree
  simp only [href] at hwkept hwlogged
  -- the block of this round stays where it is
  have hthere : s''.ref ip''.toDinode (slotOf (off / BSIZE)) = b := by
    rw [hwkept _ (by rw [hr.addr]; exact hr.ne), hr.addr]
  refine ⟨?_, fun sl hsl => ?_, fun x p hx => hw.owner x p (hr.ext.owner x p hx),
    fun x p hx hp => ?_, fun j hj => ?_, fun m hm => ?_, ?_, fun hmiss => ?_, ?_,
    fun hone x => ?_⟩
  · rw [hw.same, hr.ext.same]
  · have h1 := hr.ext.kept sl hsl
    rw [hwkept sl (by rw [h1]; exact hsl), h1]
  · have hxb : x ≠ b := by
      rintro rfl
      have := hr.ext.owner _ _ hx
      rw [hr.owner hi ht h'] at this
      exact hp (congrArg Prod.fst (Option.some.inj this)).symm
    rw [hw.others x p (hr.ext.owner x p hx) (by rw [hinum]; exact hp), write_of_ne hxb]
    exact hr.ext.blocks x p hx fun hc => hp (congrArg Prod.fst hc)
  · rw [hw.iblock j hj, write_of_ne (hr.ne_iblock hsb hi ht h' hj), hr.ext.iblock j hj]
  · rw [hstep, Finset.mem_insert] at hm
    rcases hm with rfl | hm
    · rw [hthere]
      exact hr.ne
    · exact hw.there m hm
  · rw [hw.content, hr.content h hip hi ht hn hmax h', copy_copy]
    congr 1
    omega
  · rw [missing_step hn hmax] at hmiss
    by_cases hz : s.ref ip.toDinode (slotOf (off / BSIZE)) = 0
    · rw [if_pos hz] at hmiss
      exact absurd hmiss (Finset.insert_ne_empty _ _)
    · rw [if_neg hz, ← hr.missing (by omega)] at hmiss
      rw [hw.idle (by rw [missing_congr href]; exact hmiss), (hr.mapped hz).2]
  · rw [writeNeed_congr href, nfree_write fun x hx => hr.ne_bblock hsb hi ht h' hx] at hwfree
    have := hr.writeNeed hn hmax
    have := hr.nfree
    omega
  · have hob := hr.owner hi ht h'
    have hbb := bblock_eq hone (h'.data b (.inl (by simp [hob]))).2
    have hrest : ∀ m ∈ touched (off + chunk off n) (n - chunk off n),
        s'.ref ip'.toDinode (slotOf m) = s.ref ip.toDinode (slotOf m) := by
      intro m hm
      refine hr.only _ (fun he => ?_) (slotOf_ne_indirect m)
      have := slotOf_inj (mem_touched.mp hm).1 hbn he
      have := lt_of_mem_touched hm
      omega
    have hexists : (∃ m ∈ touched (off + chunk off n) (n - chunk off n),
          x = s''.ref ip''.toDinode (slotOf m) ∨ s'.ref ip'.toDinode (slotOf m) = 0 ∧
            (x = sb.bmapstart ∨ ¬ m < NDIRECT ∧ x = ip''.addrs INDIRECT)) ↔
        ∃ m ∈ touched (off + chunk off n) (n - chunk off n),
          x = s''.ref ip''.toDinode (slotOf m) ∨ s.ref ip.toDinode (slotOf m) = 0 ∧
            (x = sb.bmapstart ∨ ¬ m < NDIRECT ∧ x = ip''.addrs INDIRECT) := by
      refine exists_congr fun m => and_congr_right fun hm => ?_
      rw [hrest m hm]
    rw [hwlogged hone x, mem_logged_write, hr.logged x, hexists, hstep,
      Finset.exists_mem_insert, hthere, hbb]
    by_cases hd : off / BSIZE < NDIRECT
    · simp only [hd, not_true, false_and, or_false]
      grind
    · -- the indirect block is in the table, and stays
      have hind := hr.indirect_ne hbn hd
      have hoi := h'.owner_indirect (i := ip.inum) hi (by rw [update_self, hr.ext.type]; exact ht)
        (by rw [update_self]; exact hind)
      rw [update_self] at hoi
      rw [bblock_eq hone (h'.data _ (.inl (by simp [hoi]))).2]
      have hsame : ip''.addrs INDIRECT = ip'.addrs INDIRECT := hwkept .indirect hind
      rw [hsame]
      grind

end Round

/-- The loop of `writei` copies its source over the contents; the only failure is a full disk. -/
theorem writeFrom_spec (hsb : sb.Ok) (mem : Mem) (k : Nat) :
    ∀ (src off n : Nat) {s : Disk} {ino : Nat → Dinode} {own : Nat → Option Pos} {ip : Inode},
    Owns sb s ino own lim → ino ip.inum = ip.toDinode → ip.inum < sb.ninodes → ip.type ≠ 0 →
    n ≤ k → off + n ≤ MAXFILE * BSIZE →
    (s.nfree sb < s.writeNeed ip off n ∧
      Fails (writeFrom sb mem k ip src off n) s "balloc: out of blocks") ∨
    ∃ ip' s' own', Does (writeFrom sb mem k ip src off n) s ip' s' ∧
      Owns sb s' (update ino ip.inum ip'.toDinode) own' lim ∧
      Wrote sb mem src off n s ip own s' ip' own' := by
  induction k with
  | zero =>
    intro src off n s ino own ip h hip hi ht hk hmax
    obtain rfl : n = 0 := by omega
    refine .inr ⟨ip, s, own, rfl, ?_, .refl ..⟩
    rw [← hip, update_eq_self]
    exact h
  | succ k ih =>
    intro src off n s ino own ip h hip hi ht hk hmax
    unfold Does Fails
    rw [writeFrom]
    by_cases hn : 0 < n
    swap
    · obtain rfl : n = 0 := by omega
      refine .inr ⟨ip, s, own, rfl, ?_, .refl ..⟩
      rw [← hip, update_eq_self]
      exact h
    rw [if_pos hn]
    have hpos := chunk_pos off hn
    have hle := chunk_le off n
    rcases bmap_spec hsb h hip hi ht (div_lt_maxfile (k := off) (by omega)) with
      ⟨hfull, he⟩ | ⟨b, ip1, s1, own1, he, h₁, hr⟩
    · exact .inl ⟨lt_of_lt_of_le hfull (bmapNeed_le hn hmax), he.bind⟩
    rw [bind_of_does he]
    dsimp only
    rw [bind_of_does does_bread, bind_of_does does_log_write]
    have href := hr.ref_write hi ht h₁
      (.ofBytes (copy (s1.blocks b).bytes (off % BSIZE) mem src (chunk off n)))
    have h2 := hr.write hsb hi ht h₁
      (.ofBytes (copy (s1.blocks b).bytes (off % BSIZE) mem src (chunk off n)))
    rcases ih (src + chunk off n) (off + chunk off n) (n - chunk off n) h2
      (by rw [hr.ext.inum, update_self]) (by rw [hr.ext.inum]; exact hi)
      (by rw [hr.ext.type]; exact ht) (by omega) (by omega) with
      ⟨hfull, he'⟩ | ⟨ip', s', own', he', h', hw⟩
    · refine .inl ⟨?_, he'⟩
      rw [writeNeed_congr href, nfree_write fun x hx => hr.ne_bblock hsb hi ht h₁ hx] at hfull
      have := hr.writeNeed hn hmax
      have := hr.nfree
      omega
    · refine .inr ⟨ip', s', own', he', ?_, hr.wrote hsb h hip hi ht hn hmax h₁ hw⟩
      rw [hr.ext.inum, update_idem] at h'
      exact h'

/-! ## Rounds of `readi` -/

theorem bmap_there (hbn : bn < MAXFILE) (h : s.ref ip.toDinode (slotOf bn) ≠ 0) :
    Does (bmap sb ip bn) s (s.ref ip.toDinode (slotOf bn), ip) s := by
  unfold Does bmap
  by_cases hd : bn < NDIRECT
  · rw [slotOf_direct hd] at h ⊢
    have hz : ip.addrs ⟨bn, Nat.lt_succ_of_lt hd⟩ ≠ 0 := h
    rw [dif_pos hd, if_neg hz]
    rfl
  · have hlt : bn - NDIRECT < NINDIRECT := by
      simp only [MAXFILE] at hbn
      omega
    rw [slotOf_entry hd hlt] at h ⊢
    simp only [Disk.ref] at h ⊢
    have hind : ip.addrs INDIRECT ≠ 0 := fun hc => h (if_pos hc)
    rw [if_neg hind] at h ⊢
    rw [dif_neg hd, if_pos hlt]
    unfold bmapIndirect bmapEntry
    rw [if_neg hind, pure_bind]
    dsimp only
    rw [bind_of_does does_bread, if_neg h]
    rfl

/-- One round delivers its part of the contents. -/
theorem slice_page (hmax : off + n ≤ MAXFILE * BSIZE) :
    slice (s.page d (off / BSIZE)) (off % BSIZE) (chunk off n) =
      bytesFrom (s.content d) off (chunk off n) := by
  obtain ⟨hend, -⟩ := chunk_end off n
  have hle := chunk_le off n
  refine List.map_congr_left fun i hi => ?_
  rw [List.mem_range] at hi
  rw [content_of_lt (by omega)]
  have hdiv : (off + i) / BSIZE = off / BSIZE := by
    simp only [BSIZE] at *
    omega
  rw [hdiv]
  congr 1
  simp only [BSIZE] at *
  omega

/-- Where every block is there, the loop of `readi` delivers the contents and changes nothing. -/
theorem readFrom_spec (k : Nat) : ∀ (off n : Nat), n ≤ k → off + n ≤ MAXFILE * BSIZE →
    s.missing ip off n = ∅ →
    Does (readFrom sb k ip off n) s (bytesFrom (s.content ip.toDinode) off n, ip) s := by
  induction k with
  | zero =>
    intro off n hk _ _
    obtain rfl : n = 0 := by omega
    rfl
  | succ k ih =>
    intro off n hk hmax hmiss
    unfold Does
    rw [readFrom]
    by_cases hn : 0 < n
    swap
    · obtain rfl : n = 0 := by omega
      rfl
    have hpos := chunk_pos off hn
    have hle := chunk_le off n
    rw [missing_step hn hmax] at hmiss
    have hz : s.ref ip.toDinode (slotOf (off / BSIZE)) ≠ 0 := by
      intro hz
      rw [if_pos hz] at hmiss
      exact Finset.insert_ne_empty _ _ hmiss
    rw [if_neg hz] at hmiss
    rw [if_pos hn, bind_of_does (bmap_there (div_lt_maxfile (by omega)) hz)]
    dsimp only
    rw [bind_of_does does_bread,
      bind_of_does (ih _ _ (by omega) (by omega) hmiss), ← page_of_ref hz, slice_page hmax]
    dsimp only
    rw [← bytesFrom_add, Nat.add_sub_cancel' hle]
    rfl

/-! ## `readi` and `writei` -/

/-- Every block below the size is there. -/
def NoHole (s : Disk) (d : Dinode) : Prop :=
  ∀ bn, BSIZE * bn < d.size → bn < MAXFILE ∧ s.ref d (slotOf bn) ≠ 0

theorem NoHole.size_le (h : NoHole s d) : d.size ≤ MAXFILE * BSIZE := by
  by_contra hlt
  have := (h MAXFILE (by rw [mul_comm]; omega)).1
  omega

theorem NoHole.missing (h : NoHole s ip.toDinode) (hle : off + n ≤ ip.size) :
    s.missing ip off n = ∅ := by
  rw [Finset.eq_empty_iff_forall_notMem]
  intro bn hbn
  obtain ⟨hmem, hz⟩ := mem_missing.mp hbn
  obtain ⟨-, -, -, hlt⟩ := mem_touched.mp hmem
  exact (h bn (by omega)).2 hz

/-- The contents of a file. -/
def Disk.file (s : Disk) (d : Dinode) : List UInt8 := bytesFrom (s.content d) 0 d.size

theorem file_congr (h : s'.content d' = s.content d) (hs : d'.size = d.size) :
    s'.file d' = s.file d := by
  unfold Disk.file
  rw [h, hs]

/-- `writei` rejects the range: it starts behind the end, wraps around or is too long. -/
def Rejects (ip : Inode) (off n : Nat) : Prop :=
  ip.size < off ∨ 2 ^ 32 ≤ off + n ∨ MAXFILE * BSIZE < off + n

instance (ip : Inode) (off n : Nat) : Decidable (Rejects ip off n) :=
  inferInstanceAs (Decidable (_ ∨ _))

theorem u32_lt_iff (hoff : off < 2 ^ 32) (hn : n < 2 ^ 32) :
    u32 (off + n) < off ↔ 2 ^ 32 ≤ off + n := by
  unfold u32
  omega

theorem u32_of_lt (h : off + n < 2 ^ 32) : u32 (off + n) = off + n := Nat.mod_eq_of_lt h

variable {dv : Devsw} {mem : Mem} {src : Nat}

theorem writei_rejects (ht : ip.type ≠ T_DEV) (hoff : off < 2 ^ 32) (hn : n < 2 ^ 32)
    (hrej : Rejects ip off n) : Does (writei sb dv ip mem src off n) s (-1, ip) s := by
  unfold Does writei
  rw [if_neg ht]
  by_cases h1 : off > ip.size ∨ u32 (off + n) < off
  · rw [if_pos h1]
    rfl
  · rw [if_neg h1]
    rw [not_or, u32_lt_iff hoff hn] at h1
    have h2 : u32 (off + n) > MAXFILE * BSIZE := by
      rw [u32_of_lt (by omega)]
      unfold Rejects at hrej
      omega
    rw [if_pos h2]
    rfl

/-- The size after a write. -/
def Inode.grow (ip : Inode) (len : Nat) : Inode := { ip with size := max ip.size len }

/-- The inode goes to disk if the file grew. -/
def Disk.putIf (sb : Superblock) (s : Disk) (ip : Inode) (len : Nat) : Disk :=
  if ip.size < len then s.put sb ip.inum (ip.grow len).toDinode else s

theorem writei_spec (ip : Inode) (off n : Nat) (hsb : sb.Ok) (h : Owns sb s ino own lim)
    (hip : ino ip.inum = ip.toDinode)
    (hi : ip.inum < sb.ninodes) (ht : ip.type ≠ 0) (ht' : ip.type ≠ T_DEV)
    (hok : ¬ Rejects ip off n) :
    (s.nfree sb < s.writeNeed ip off n ∧
      Fails (writei sb dv ip mem src off n) s "balloc: out of blocks") ∨
    ∃ ip1 s1 own', Does (writei sb dv ip mem src off n) s (n, ip1.grow (off + n))
        (s1.putIf sb ip1 (off + n)) ∧
      Owns sb s1 (update ino ip.inum ip1.toDinode) own' lim ∧
      Wrote sb mem src off n s ip own s1 ip1 own' := by
  unfold Rejects at hok
  rw [not_or, not_or] at hok
  obtain ⟨h1, h2, h3⟩ := hok
  have hu := u32_of_lt (by omega : off + n < 2 ^ 32)
  unfold Does writei
  rw [if_neg ht', if_neg (by rw [hu]; omega), if_neg (by rw [hu]; exact h3)]
  rcases writeFrom_spec hsb mem n src off n h hip hi ht le_rfl (by omega) with
    ⟨hfull, he⟩ | ⟨ip1, s1, own', he, h₁, hw⟩
  · exact .inl ⟨hfull, he.bind⟩
  · refine .inr ⟨ip1, s1, own', ?_, h₁, hw⟩
    have hsize : ip1.size = ip.size := by rw [hw.same]
    rw [bind_of_does he]
    unfold Disk.putIf Inode.grow
    by_cases hg : ip1.size < off + n
    · rw [if_pos ⟨by omega, hg⟩, if_pos hg, Nat.max_eq_right (by omega)]
      dsimp only
      rw [bind_of_does (iupdate_spec ..)]
      rfl
    · rw [if_neg (fun hc => hg hc.2), if_neg hg, Nat.max_eq_left (by omega)]
      rfl

theorem readi_rejects (ht : ip.type ≠ T_DEV) (hoff : off < 2 ^ 32) (hn : n < 2 ^ 32)
    (hrej : ip.size < off ∨ 2 ^ 32 ≤ off + n) : Does (readi sb dv ip off n) s (-1, [], ip) s := by
  unfold Does readi
  rw [if_neg ht, if_pos (by rw [u32_lt_iff hoff hn]; exact hrej)]
  rfl

/-- `readi` delivers the part of the range that lies in the file, if its blocks are there. -/
theorem readi_there (ht : ip.type ≠ T_DEV) (hoff : off ≤ ip.size) (hn : off + n < 2 ^ 32)
    (hmax : off + min n (ip.size - off) ≤ MAXFILE * BSIZE)
    (hmiss : s.missing ip off (min n (ip.size - off)) = ∅) :
    Does (readi sb dv ip off n) s
      ((min n (ip.size - off) : Nat), ((s.file ip.toDinode).drop off).take n, ip) s := by
  have hu := u32_of_lt hn
  have hcount : (if u32 (off + n) > ip.size then ip.size - off else n) =
      min n (ip.size - off) := by
    rw [hu]
    split_ifs <;> omega
  unfold Does readi
  rw [if_neg ht, if_neg (by rw [hu]; omega)]
  simp only [hcount]
  rw [bind_of_does (readFrom_spec _ off _ le_rfl hmax hmiss)]
  unfold Disk.file
  rw [bytesFrom_drop, bytesFrom_take, zero_add, Nat.min_comm]
  rfl

theorem readi_spec (ht : ip.type ≠ T_DEV) (hole : NoHole s ip.toDinode) (hoff : off ≤ ip.size)
    (hn : off + n < 2 ^ 32) :
    Does (readi sb dv ip off n) s
      ((min n (ip.size - off) : Nat), ((s.file ip.toDinode).drop off).take n, ip) s := by
  have hsize := hole.size_le
  exact readi_there ht hoff hn (by omega) (hole.missing (by omega))

/-- A file without holes as `exec` sees it. -/
def NoHole.toContent (hole : NoHole s d) : Content := ⟨d.size, s.content d, hole.size_le⟩

/-- The count and the bytes that `exec` counts on. -/
theorem readi_toContent (ht : ip.type ≠ T_DEV) (hole : NoHole s ip.toDinode) (hoff : off < 2 ^ 32)
    (hn : n < 2 ^ 32) :
    Does (readi sb dv ip off n) s (hole.toContent.readi off n,
      bytesFrom hole.toContent.data off (hole.toContent.readi off n).toNat, ip) s := by
  by_cases hrej : ip.size < off ∨ 2 ^ 32 ≤ off + n
  · have hvalue : hole.toContent.readi off n = -1 :=
      if_pos (by rw [u32_lt_iff hoff hn]; exact hrej)
    rw [hvalue]
    exact readi_rejects ht hoff hn hrej
  · have hlt : off + n < 2 ^ 32 := by omega
    have hmin : hole.toContent.readi off n = (min (ip.size - off) n : Nat) := by
      simp only [Content.readi, NoHole.toContent, u32_of_lt hlt]
      split_ifs <;> omega
    have h := @readi_spec sb s off n ip dv ht hole (by omega) hlt
    rw [Disk.file, bytesFrom_drop, bytesFrom_take, zero_add, Nat.min_comm] at h
    rw [hmin, Int.toNat_natCast]
    exact h

/-! ## A write seen from outside -/

theorem Owns.data_of_indirect (h : Owns sb s ino own lim) (hi : i < sb.ninodes)
    (ht : (ino i).type ≠ 0) (hz : (ino i).addrs INDIRECT ≠ 0) : sb.nmeta ≤ (ino i).addrs INDIRECT :=
  (h.data _ (.inl (by simp [h.owner_indirect hi ht hz]))).1

theorem Owns.addrs_lt (hsb : sb.Ok) (h : Owns sb s ino own lim) (hi : i < sb.ninodes)
    (ht : (ino i).type ≠ 0) (k : Fin (NDIRECT + 1)) : (ino i).addrs k < 2 ^ 32 := by
  have hsize := hsb.size_lt
  have hlt : ∀ sl, s.ref (ino i) sl < 2 ^ 32 := by
    intro sl
    by_cases hz : s.ref (ino i) sl = 0
    · omega
    · have := (h.data _ (.inl (by rw [h.owner hi ht hz]; simp))).2
      omega
  cases k using Fin.lastCases with
  | last => exact hlt .indirect
  | cast k => exact hlt (.direct k)

theorem ref_grow (s : Disk) (ip : Inode) (len : Nat) (sl : Slot) :
    s.ref (ip.grow len).toDinode sl = s.ref ip.toDinode sl := by
  cases sl <;> rfl

/-- The table does not depend on the size. -/
theorem Owns.grow (h : Owns sb s (update ino ip.inum ip.toDinode) own lim) :
    Owns sb s (update ino ip.inum (ip.grow len).toDinode) own lim := by
  refine h.of_refs (fun j _ => ?_) fun j sl _ _ => ?_
  · by_cases hj : j = ip.inum
    · rw [hj, update_self, update_self]
      rfl
    · rw [update_of_ne hj, update_of_ne hj]
  · by_cases hj : j = ip.inum
    · rw [hj, update_self, update_self, ref_grow]
    · rw [update_of_ne hj, update_of_ne hj]

theorem Owns.putIf (hsb : sb.Ok) (h : Owns sb s (update ino ip.inum ip.toDinode) own lim)
    (hi : ip.inum < sb.ninodes) :
    Owns sb (s.putIf sb ip len) (update ino ip.inum (ip.grow len).toDinode) own lim := by
  unfold Disk.putIf
  split
  · exact h.grow.put hsb hi _
  · exact h.grow

theorem putIf_blocks (hx : x ≠ sb.IBLOCK ip.inum) : (s.putIf sb ip len).blocks x = s.blocks x := by
  unfold Disk.putIf
  split
  · exact put_blocks hx
  · rfl

section Seen

variable {s1 : Disk} {ip1 : Inode} (hsb : sb.Ok) (h : Owns sb s ino own lim)
  (hip : ino ip.inum = ip.toDinode) (hi : ip.inum < sb.ninodes) (ht : ip.type ≠ 0)
  (h₁ : Owns sb s1 (update ino ip.inum ip1.toDinode) own' lim)
  (hw : Wrote sb mem src off n s ip own s1 ip1 own')

include hw in
theorem Wrote.inum : ip1.inum = ip.inum := by rw [hw.same]

include hw in
theorem Wrote.type : ip1.type = ip.type := by rw [hw.same]

include hw in
theorem Wrote.size : ip1.size = ip.size := by rw [hw.same]

include hw in
/-- A write that leaves no gap leaves no hole. -/
theorem Wrote.noHole (hole : NoHole s ip.toDinode) (hok : ¬ Rejects ip off n) :
    NoHole s1 (ip1.grow (off + n)).toDinode := by
  unfold Rejects at hok
  rw [not_or, not_or] at hok
  obtain ⟨h1, -, h3⟩ := hok
  intro bn hbn
  have hsize := hw.size
  have hbn' : BSIZE * bn < max ip1.size (off + n) := hbn
  rw [ref_grow]
  by_cases hold : BSIZE * bn < ip.size
  · obtain ⟨hlt, hne⟩ := hole bn hold
    exact ⟨hlt, by rw [hw.kept _ hne]; exact hne⟩
  · have hlt : bn < MAXFILE := by
      simp only [BSIZE, MAXFILE, NDIRECT, NINDIRECT] at *
      omega
    refine ⟨hlt, hw.there bn (mem_touched.mpr ⟨hlt, by omega, ?_, by omega⟩)⟩
    simp only [BSIZE] at *
    omega

include hsb h₁ hi ht hw

theorem Wrote.fits (hold : ip.toDinode.Fits) (hok : ¬ Rejects ip off n) :
    (ip1.grow (off + n)).toDinode.Fits := by
  have hsame := hw.same
  have hup : update ino ip.inum ip1.toDinode ip.inum = ip1.toDinode :=
    update_self ..
  refine ⟨?_, ?_, ?_, ?_, ?_, fun k => ?_⟩
  · show ip1.type < _
    rw [hsame]
    exact hold.type
  · show ip1.major < _
    rw [hsame]
    exact hold.major
  · show ip1.minor < _
    rw [hsame]
    exact hold.minor
  · show ip1.nlink < _
    rw [hsame]
    exact hold.nlink
  · show max ip1.size (off + n) < _
    have := hold.size
    have := hw.size
    unfold Rejects at hok
    omega
  · show ip1.addrs k < _
    have := h₁.addrs_lt hsb hi (by rw [hup, hw.type]; exact ht) k
    rwa [hup] at this

/-- Writing the inode does not change what its places name. -/
theorem Wrote.ref_putIf (len : Nat) (sl : Slot) :
    (s1.putIf sb ip1 len).ref ip1.toDinode sl = s1.ref ip1.toDinode sl := by
  refine ref_congr (fun hz => putIf_blocks fun hc => ?_) sl
  have hdata := h₁.data_of_indirect (i := ip.inum) hi
    (by rw [update_self, hw.type]; exact ht) (by rw [update_self]; exact hz)
  rw [update_self, hc, hw.inum] at hdata
  exact iblock_ne_data hsb hi hdata rfl

/-- Block `x` is passed to `log_write` by a write of `n` bytes at `off` that leads to inode
    `ip'`. -/
def Logs (sb : Superblock) (s : Disk) (ip : Inode) (s' : Disk) (ip' : Inode) (off n x : Nat) :
    Prop :=
  (∃ bn ∈ touched off n, x = s'.ref ip'.toDinode (slotOf bn) ∨ s.ref ip.toDinode (slotOf bn) = 0 ∧
    (x = sb.bmapstart ∨ ¬ bn < NDIRECT ∧ x = ip'.addrs INDIRECT)) ∨
  ip.size < off + n ∧ x = sb.IBLOCK ip.inum

theorem Wrote.logged_putIf (hone : sb.size ≤ BPB) (x : Nat) :
    x ∈ (s1.putIf sb ip1 (off + n)).logged ↔ x ∈ s.logged ∨
      Logs sb s ip (s1.putIf sb ip1 (off + n)) (ip1.grow (off + n)) off n x := by
  have hput : x ∈ (s1.putIf sb ip1 (off + n)).logged ↔
      x ∈ s1.logged ∨ ip.size < off + n ∧ x = sb.IBLOCK ip.inum := by
    unfold Disk.putIf
    rw [hw.size, hw.inum]
    split
    · next hg => simp [Disk.put, mem_logged_write, hg]
    · next hg => simp [hg]
  unfold Logs
  rw [hput, hw.logged hone x, or_assoc]
  simp only [ref_grow, hw.ref_putIf hsb hi ht h₁]
  rfl

theorem Wrote.content_putIf (len : Nat) :
    (s1.putIf sb ip1 len).content (ip1.grow len).toDinode =
      copy (s.content ip.toDinode) off mem src n := by
  rw [← hw.content]
  refine content_congr fun bn _ => page_congr ?_ fun hz => putIf_blocks fun hc => ?_
  · rw [ref_grow, hw.ref_putIf hsb hi ht h₁]
  · have ht1 : (update ino ip.inum ip1.toDinode ip.inum).type ≠ 0 := by
      rw [update_self, hw.type]
      exact ht
    have ho := (h₁.ref ip.inum (slotOf bn) _ hz).mp ⟨hi, ht1, by rw [update_self]⟩
    have hdata := (h₁.data _ (.inl (by rw [ho]; simp))).1
    rw [hc, hw.inum] at hdata
    exact iblock_ne_data hsb hi hdata rfl

/-- The contents are the old ones with the source over them. -/
theorem Wrote.file (hoff : off ≤ ip.size) :
    (s1.putIf sb ip1 (off + n)).file (ip1.grow (off + n)).toDinode =
      overlay (s.file ip.toDinode) off (bytesFrom mem src n) := by
  unfold Disk.file
  rw [hw.content_putIf hsb hi ht h₁]
  show bytesFrom _ 0 (max ip1.size (off + n)) = _
  rw [hw.size, bytesFrom_copy _ _ _ _ hoff]

end Seen

end Xv6.Fs
