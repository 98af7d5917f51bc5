import Xv6.Mkfs.Blocks

/-! # Appending to a file of the image

    `Filed` says what each inode of the image holds. The loop of `iappend` writes block by block.

    - `appendFrom_cases`: it appends, if there is room; otherwise it fails
-/

namespace Xv6.Mkfs

open ByteMem Fs Program Function

/-! ## Contents -/

/-- The blocks of a file of `len` bytes, with its indirect block. -/
def blocksFor (len : Nat) : Nat :=
  (len + BSIZE - 1) / BSIZE + if NDIRECT * BSIZE < len then 1 else 0

/-- The file `d` holds the bytes `c` and has exactly the blocks for them. -/
structure Holds (s : Image) (d : Dinode) (c : List UInt8) : Prop where
  le    : c.length ≤ MAXFILE * BSIZE
  there : ∀ m < MAXFILE, s.disk.ref d (slotOf m) ≠ 0 ↔ BSIZE * m < c.length
  ind   : d.addrs INDIRECT ≠ 0 ↔ NDIRECT * BSIZE < c.length
  bytes : bytesFrom (s.disk.content d) 0 c.length = c

/-- The image holds the files `c`. -/
structure Filed (s : Image) (ino : Nat → Dinode) (own : Nat → Option Pos)
    (c : Nat → List UInt8) : Prop extends Laid s ino own where
  high  : s.freeblock ≤ FSSIZE
  holds : ∀ i, s.Live i → Holds s (ino i) (c i)

section Contents

variable {s s' s1 : Image} {ino : Nat → Dinode} {own : Nat → Option Pos} {c : Nat → List UInt8}
  {i j off n src a b : Nat} {mem : Mem} {bs : List UInt8}

theorem blocksFor_mono (h : a ≤ b) : blocksFor a ≤ blocksFor b := by
  unfold blocksFor
  simp only [BSIZE, NDIRECT]
  split_ifs <;> omega

theorem needs_eq {d : Dinode} (h : Holds s d bs) (hn : 0 < n) (hmax : bs.length < MAXFILE * BSIZE) :
    blocksFor bs.length + s.needs d (bs.length / BSIZE) =
      blocksFor (bs.length + chunk bs.length n) := by
  have hpos := chunk_pos bs.length hn
  obtain ⟨hend, -⟩ := chunk_end bs.length n
  have hthere := h.there _ (div_lt_maxfile hmax)
  have hind := h.ind
  unfold blocksFor Image.needs
  simp only [BSIZE, NDIRECT] at *
  by_cases hz : s.disk.ref d (slotOf (bs.length / 512)) = 0
  · rw [if_pos hz]
    have hlen : ¬ 512 * (bs.length / 512) < bs.length := fun hc => hthere.mpr hc hz
    by_cases h1 : bs.length / 512 < 12 ∨ d.addrs INDIRECT ≠ 0
    · rw [if_pos h1]
      rw [hind] at h1
      split_ifs <;> omega
    · rw [if_neg h1]
      rw [not_or, hind] at h1
      split_ifs <;> omega
  · rw [if_neg hz]
    have hlen := hthere.mp hz
    split_ifs <;> omega

theorem Laid.holds_same (h : Laid s ino own) (hj : s.Live j)
    (hsame : ∀ x sl, own x = some (j, sl) → s'.blocks x = s.blocks x) (hh : Holds s (ino j) bs) :
    Holds s' (ino j) bs := by
  refine ⟨hh.le, fun m hm => ?_, hh.ind, ?_⟩
  · rw [h.ref_same hj fun x hx => hsame x _ hx]
    exact hh.there m hm
  · have hsamePages : ∀ m < MAXFILE, s'.disk.page (ino j) m = s.disk.page (ino j) m :=
      fun m _ => h.page_same hj hsame m
    rw [content_congr hsamePages]
    exact hh.bytes

theorem bytesFrom_append_copy (f g : Mem) (len src n : Nat) :
    bytesFrom (copy f len g src n) 0 (len + n) = bytesFrom f 0 len ++ bytesFrom g src n := by
  rw [bytesFrom_add, zero_add]
  congr 1
  · refine bytesFrom_congr fun x hx => ?_
    exact if_neg (by omega)
  · refine bytesFrom_congr fun x hx => ?_
    unfold copy
    rw [if_pos (by omega)]
    congr 1
    omega

theorem min_eq_chunk (off n : Nat) : min n ((off / BSIZE + 1) * BSIZE - off) = chunk off n := by
  unfold chunk
  simp only [BSIZE]
  omega

theorem sub_eq_mod (off : Nat) : off - off / BSIZE * BSIZE = off % BSIZE := by
  simp only [BSIZE]
  omega

/-- The file behind `Placed`, after its block was written. -/
theorem Placed.holds {x : Nat} {d' : Dinode} {own' : Nat → Option Pos} (h : Filed s ino own c)
    (hi : s.Live i) (hoff : off = (c i).length) (hn : 0 < n) (hmax : off < MAXFILE * BSIZE)
    (hp : Placed s ino own i (off / BSIZE) x s1 d' own') (hfree : s1.freeblock ≤ FSSIZE) :
    Holds (s1.write x (.ofBytes (copy (s1.blocks x).bytes (off % BSIZE) mem src (chunk off n)))) d'
      (c i ++ bytesFrom mem src (chunk off n)) := by
  have hfbn := div_lt_maxfile hmax
  have hpos := chunk_pos off hn
  obtain ⟨hend, -⟩ := chunk_end off n
  have hh := h.holds i hi
  have hi1 := hp.frame.live_iff.mpr hi
  obtain ⟨hx1, hx2⟩ := hp.laid.data x (by simp [hp.addr])
  have hxlt : x < FSSIZE := by omega
  have hx0 : x ≠ 0 := by
    intro hc
    rw [hc] at hx1
    exact absurd hx1 (by decide)
  have hself : update ino i d' i = d' := update_self ..
  have hlen : (c i ++ bytesFrom mem src (chunk off n)).length = off + chunk off n := by
    rw [List.length_append, ← hoff]
    simp [bytesFrom]
  -- the indirect block is another one
  have href : ∀ sl, (s1.write x (.ofBytes (copy (s1.blocks x).bytes (off % BSIZE) mem src
      (chunk off n)))).disk.ref d' sl = s1.disk.ref d' sl := by
    intro sl
    have hsame : ∀ y, own' y = some (i, .indirect) → (s1.write x (.ofBytes
        (copy (s1.blocks x).bytes (off % BSIZE) mem src (chunk off n)))).blocks
          y = s1.blocks y := by
      intro y hy
      refine write_blocks_of_ne hxlt ?_
      rintro rfl
      rw [hp.addr] at hy
      exact slotOf_ne_indirect _ (Prod.mk.inj (Option.some.inj hy)).2
    have := hp.laid.ref_same hi1 hsame sl
    rwa [hself] at this
  refine ⟨?_, fun m hm => ?_, ?_, ?_⟩
  · rw [hlen]
    simp only [BSIZE] at *
    omega
  · rw [href, hlen]
    by_cases hmf : m = off / BSIZE
    · subst hmf
      rw [hp.ref]
      simp only [BSIZE] at *
      omega
    · rw [hp.only m hm hmf, hh.there m hm, ← hoff]
      simp only [BSIZE] at *
      omega
  · rw [hp.ind, hh.ind, ← hoff, hlen]
    simp only [BSIZE, NDIRECT] at *
    omega
  · have hpages : ∀ m < MAXFILE, (s1.write x (.ofBytes
        (copy (s1.blocks x).bytes (off % BSIZE) mem src (chunk off n)))).disk.page d' m =
        if m = off / BSIZE
          then .ofBytes (copy (s.disk.page (ino i) m).bytes (off % BSIZE) mem src (chunk off n))
          else s.disk.page (ino i) m := by
      intro m hm
      by_cases hmf : m = off / BSIZE
      · subst hmf
        rw [if_pos rfl, page_of_ref (by rw [href, hp.ref]; exact hx0), href, hp.ref, ← hp.page,
          page_of_ref (by rw [hp.ref]; exact hx0), hp.ref]
        exact write_blocks_self hxlt
      · rw [if_neg hmf, ← hp.page]
        refine page_congr (href _) fun hz => write_blocks_of_ne hxlt fun he => ?_
        have hown := hp.laid.owner hi1
          (show s1.disk.ref (update ino i d' i) (slotOf m) ≠ 0 by rw [hself]; exact hz)
        rw [hself, he, hp.addr] at hown
        exact hmf (slotOf_inj hm hfbn (Prod.mk.inj (Option.some.inj hown)).2.symm)
    rw [content_round hmax hpages, hlen, bytesFrom_append_copy, hoff, hh.bytes]

/-! ## The loop -/

/-- The result of appending `bs` to inode `i`, before the inode is written. -/
structure Appended (s : Image) (ino : Nat → Dinode) (own : Nat → Option Pos) (c : Nat → List UInt8)
    (i : Nat) (bs : List UInt8) (s' : Image) (d' : Dinode) (own' : Nat → Option Pos) : Prop where
  filed : Filed s' (update ino i d') own' (update c i (c i ++ bs))
  frame : Frame s own i s' own'
  same  : d' = { ino i with addrs := d'.addrs }
  next  : s'.freeblock + blocksFor (c i).length = s.freeblock + blocksFor ((c i).length + bs.length)

theorem append_round (mem : Mem) (src : Nat) (h : Filed s ino own c) (hi : s.Live i)
    (hoff : off = (c i).length)
    (hn : 0 < n) (hmax : off < MAXFILE * BSIZE)
    (hroom : s.freeblock + s.needs (ino i) (off / BSIZE) ≤ FSSIZE) :
    ∃ x s1 d' own', Ends (blockFor (ino i) (off / BSIZE)) s (x, d') s1 ∧
      Ends (rsect x) s1 (s1.blocks x) s1 ∧
      Appended s ino own c i (bytesFrom mem src (chunk off n))
        (s1.write x (.ofBytes (copy (s1.blocks x).bytes (off % BSIZE) mem src (chunk off n))))
        d' own' := by
  obtain ⟨x, s1, d', own', hrun, hp, -⟩ := blockFor_spec h.toLaid hi (div_lt_maxfile hmax)
    h.high (Nat.le_succ_of_le hroom)
  have hfree : s1.freeblock ≤ FSSIZE := by
    rw [hp.next]
    exact hroom
  have hx : x < FSSIZE := by
    have := (hp.laid.data x (by simp [hp.addr])).2
    omega
  obtain ⟨hlaid, hframe⟩ := hp.laid.write hp.addr
    (.ofBytes (copy (s1.blocks x).bytes (off % BSIZE) mem src (chunk off n))) hfree
  refine ⟨x, s1, d', own', hrun, ends_rsect hx hp.laid.sectors, ⟨hlaid, hfree, fun j hj => ?_⟩,
    hp.frame.trans hframe, hp.same, ?_⟩
  · have hj' : s.Live j := (hp.frame.trans hframe).live_iff.mp hj
    by_cases hji : j = i
    · subst hji
      rw [update_self, update_self]
      exact Placed.holds h hi hoff hn hmax hp hfree
    · rw [update_of_ne hji, update_of_ne hji]
      exact h.toLaid.holds_same hj'
        (fun y sl hy => (hp.frame.trans hframe).others y _ hy hji) (h.holds j hj')
  · have hneeds := needs_eq (n := n) (h.holds i hi) hn (hoff ▸ hmax)
    have hlen : (bytesFrom mem src (chunk off n)).length = chunk off n := by simp [bytesFrom]
    rw [hlen]
    show s1.freeblock + _ = _
    rw [hp.next]
    rw [← hoff] at hneeds ⊢
    omega

theorem Appended.refl (h : Filed s ino own c) (i : Nat) :
    Appended s ino own c i [] s (ino i) own := by
  refine ⟨?_, .refl .., rfl, rfl⟩
  rw [update_eq_self, List.append_nil, update_eq_self]
  exact h

theorem Appended.trans {s2 : Image} {d1 d2 : Dinode} {own1 own2 : Nat → Option Pos}
    {bs' : List UInt8} (h1 : Appended s ino own c i bs s1 d1 own1)
    (h2 : Appended s1 (update ino i d1) own1 (update c i (c i ++ bs)) i bs' s2 d2 own2) :
    Appended s ino own c i (bs ++ bs') s2 d2 own2 := by
  have hfiled := h2.filed
  have hsame := h2.same
  have hnext := h2.next
  rw [update_idem, update_self, update_idem, List.append_assoc] at hfiled
  rw [update_self] at hsame
  rw [update_self, List.length_append] at hnext
  refine ⟨hfiled, h1.frame.trans h2.frame, ?_, ?_⟩
  · rw [hsame, h1.same]
  · have := h1.next
    rw [List.length_append]
    rw [← add_assoc]
    omega

/-- There is room for `n` bytes more in a file of `len` bytes. -/
def Room (s : Image) (len n : Nat) : Prop :=
  len + n ≤ MAXFILE * BSIZE ∧ s.freeblock + blocksFor (len + n) ≤ FSSIZE + blocksFor len

theorem room_add {len : Nat}
    (hnext : s'.freeblock + blocksFor len = s.freeblock + blocksFor (len + a)) :
    Room s len (a + b) ↔ Room s' (len + a) b := by
  unfold Room
  rw [← add_assoc]
  omega

theorem Filed.room_zero (h : Filed s ino own c) (hi : s.Live i) : Room s (c i).length 0 :=
  ⟨(h.holds i hi).le, Nat.add_le_add_right h.high _⟩

/-- The loop appends if there is room, and fails otherwise. -/
theorem appendFrom_cases (mem : Mem) (k : Nat) : ∀ {s : Image} {ino : Nat → Dinode}
    {own : Nat → Option Pos} {c : Nat → List UInt8} (src off n : Nat),
    Filed s ino own c → s.Live i →
    off = (c i).length → n ≤ k →
    (Room s off n ∧ ∃ s' d' own', Ends (appendFrom mem k (ino i) src off n) s (d', off + n) s' ∧
      Appended s ino own c i (bytesFrom mem src n) s' d' own') ∨
    (¬ Room s off n ∧ ∃ e, (appendFrom mem k (ino i) src off n).run s = .error e) := by
  induction k with
  | zero =>
    intro s ino own c src off n h hi hoff hk
    obtain rfl : n = 0 := by omega
    exact .inl ⟨hoff ▸ h.room_zero hi, s, ino i, own, rfl, .refl h i⟩
  | succ k ih =>
    intro s ino own c src off n h hi hoff hk
    rw [appendFrom]
    by_cases hn : 0 < n
    swap
    · obtain rfl : n = 0 := by omega
      exact .inl ⟨hoff ▸ h.room_zero hi, s, ino i, own, rfl, .refl h i⟩
    rw [if_pos hn]
    dsimp only
    by_cases hmax : off < MAXFILE * BSIZE
    swap
    · rw [if_neg (by simp only [BSIZE] at *; omega)]
      refine .inr ⟨fun hr => ?_, _, rfl⟩
      have := hr.1
      omega
    rw [if_pos (div_lt_maxfile hmax)]
    have hpos := chunk_pos off hn
    have hle := chunk_le off n
    have hneeds := needs_eq (n := n) (h.holds i hi) hn (by omega)
    rw [← hoff] at hneeds
    by_cases hroom : s.freeblock + s.needs (ino i) (off / BSIZE) ≤ FSSIZE
    swap
    · have hmono : blocksFor (off + chunk off n) ≤ blocksFor (off + n) := blocksFor_mono (by omega)
      refine .inr ⟨fun hr => ?_, ?_⟩
      · have := hr.2
        omega
      · rcases blockFor_full h.toLaid hi h.high (div_lt_maxfile hmax) hroom with
          ⟨e, he⟩ | ⟨x, d', s', hrun, herr⟩
        · exact ⟨e, run_bind_of_error he⟩
        · refine ⟨"read", ?_⟩
          rw [run_bind_of_ends hrun]
          exact run_bind_of_error herr
    obtain ⟨x, s1, d1, own1, hrun, hread, h1⟩ := append_round mem src h hi hoff hn hmax hroom
    have hlen : (bytesFrom mem src (chunk off n)).length = chunk off n := by simp [bytesFrom]
    have hnext := h1.next
    rw [hlen, ← hoff] at hnext
    have hsum := Nat.add_sub_cancel' hle
    have hrest := room_add (b := n - chunk off n) hnext
    rw [hsum] at hrest
    unfold Ends
    rw [run_bind_of_ends hrun]
    dsimp only
    rw [run_bind_of_ends hread, min_eq_chunk, sub_eq_mod, run_bind_of_ends ends_wsect, hrest]
    have hrec := ih (src + chunk off n) (off + chunk off n) (n - chunk off n) h1.filed
      (h1.frame.live_iff.mpr hi) (by rw [update_self, List.length_append, ← hoff, hlen]) (by omega)
    rw [update_self, add_assoc, hsum] at hrec
    rcases hrec with ⟨hr, s', d', own', hrun', h'⟩ | hfull
    · refine .inl ⟨hr, s', d', own', hrun', ?_⟩
      have hcat := bytesFrom_add mem src (chunk off n) (n - chunk off n)
      rw [hsum] at hcat
      exact hcat ▸ h1.trans h'
    · exact .inr hfull

end Contents

end Xv6.Mkfs
