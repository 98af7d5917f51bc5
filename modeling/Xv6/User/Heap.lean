import Mathlib.Data.List.Perm.Basic
import Xv6.User.FreeList

/-! # The user heap is sound

    The invariant of the heap over all sequences of calls of `malloc` and `free` and of writes into
    the blocks that the program has: the free list is as `FreeList` says, and the free and the live
    blocks tile the regions that came from `sbrk`.
-/

namespace Xv6.Malloc

open LTS Cycle Tiling Function List

/-! ## The invariant -/

structure Sound (h : Heap) (fl : List (Nat × Nat)) : Prop where
  list  : FreeList h fl
  tiles : Tiles 8 (fl ++ h.live.map Live.block) h.regions
  used  : ∀ b ∈ h.live, h.size b.addr = b.size ∧ b.bytes + 8 ≤ 8 * b.size ∧ h.base + 8 ≤ b.addr
  top   : ∀ b ∈ fl ++ h.live.map Live.block, b.1 + 8 * b.2 ≤ h.brk
  brk   : h.base + 8 ≤ h.brk ∧ h.brk ≤ 2 ^ 32

variable {h h' : Heap} {fl fl' : List (Nat × Nat)} {nunits nbytes : Nat} {b : Live}

section

variable (hs : Sound h fl)
include hs

theorem Sound.freep_ne_zero : h.freep ≠ 0 := by
  have hbase := hs.list.base
  rcases mem_cons.mp hs.list.freep with heq | hmem
  · omega
  · obtain ⟨b, hb, heq⟩ := mem_map.mp hmem
    have := (hs.list.lt_of_mem hb).1
    omega

theorem Sound.apart (hb : b ∈ h.live) {c : Nat × Nat} (hc : c ∈ fl) : Apart 8 b.block c :=
  ((pairwise_append.mp hs.tiles.apart).2.2 c hc b.block (mem_map_of_mem hb)).symm

theorem Sound.live_pos (hb : b ∈ h.live) : 0 < b.size :=
  hs.tiles.pos b.block (mem_append_right _ (mem_map_of_mem hb))

theorem Sound.outside (hb : b ∈ h.live) : Outside h fl b.addr b.size where
  size := (hs.used b hb).1
  pos := hs.live_pos hb
  bound := ⟨(hs.used b hb).2.2,
    (hs.top b.block (mem_append_right _ (mem_map_of_mem hb))).trans hs.brk.2⟩
  apart := fun _ hc => hs.apart hb hc

/-! ## `free` -/

theorem Sound.free {i : Nat} (hb : h.live[i]? = some b) :
    ∃ h1 fl', Malloc.free h b.addr = some h1 ∧
      Sound { h1 with live := h1.live.eraseIdx i } fl' := by
  have hmem : b ∈ h.live := mem_of_getElem? hb
  obtain ⟨h1, fl', hfree, hlist, hsame, hjoin, hsize⟩ := free_spec hs.list (hs.outside hmem)
  refine ⟨h1, fl', hfree, ?_⟩
  obtain ⟨hbase, hbrk, hregions, hlive⟩ := hsame
  have hperm : h.live.Perm (b :: h.live.eraseIdx i) := by
    obtain ⟨hi, rfl⟩ := List.getElem?_eq_some_iff.mp hb
    exact (List.getElem_cons_eraseIdx_perm hi).symm
  have hsub : ∀ c ∈ h.live.eraseIdx i, c ∈ h.live := fun c hc => mem_of_mem_eraseIdx hc
  -- the block as one of the list
  have htiles : Tiles 8 (b.block :: (fl ++ (h.live.eraseIdx i).map Live.block)) h.regions := by
    refine hs.tiles.perm ?_
    exact ((hperm.map Live.block).append_left fl).trans perm_middle
  have hapart := (pairwise_cons.mp htiles.apart).1
  refine ⟨⟨hlist.ring, hlist.freep, hlist.zero, hlist.size, hlist.sorted, hlist.pos, hlist.bound,
    hlist.base⟩, ?_, fun c hc => ?_, fun c hc => ?_, ?_⟩
  · show Tiles 8 (fl' ++ (h1.live.eraseIdx i).map Live.block) h1.regions
    rw [hlive, hregions]
    exact hjoin.tiles _ _ htiles
  · show h1.size c.addr = c.size ∧ _ ∧ h1.base + 8 ≤ c.addr
    have hc : c ∈ h.live.eraseIdx i := by
      rw [← hlive]
      exact hc
    have hcpos := hs.live_pos (hsub c hc)
    have hbpos := hs.live_pos hmem
    rw [hbase, hsize]
    · exact hs.used c (hsub c hc)
    · -- two live blocks
      have hbc : b.addr + 8 * b.size ≤ c.addr ∨ c.addr + 8 * c.size ≤ b.addr :=
        hapart c.block (mem_append_right _ (mem_map_of_mem hc))
      omega
    · intro hmem'
      obtain ⟨x, hx, heq⟩ := mem_map.mp hmem'
      have hxpos := hs.list.pos x hx
      have hxc : c.addr + 8 * c.size ≤ x.1 ∨ x.1 + 8 * x.2 ≤ c.addr := hs.apart (hsub c hc) hx
      omega
  · show c.1 + 8 * c.2 ≤ h1.brk
    rw [hbrk]
    rcases mem_append.mp hc with hc | hc
    · refine hjoin.bound h.brk ?_ (fun x hx => hs.top x (mem_append_left _ hx)) c hc
      exact hs.top b.block (mem_append_right _ (mem_map_of_mem hmem))
    · obtain ⟨x, hx, rfl⟩ := mem_map.mp hc
      have hx : x ∈ h.live.eraseIdx i := by
        rw [← hlive]
        exact hx
      exact hs.top x.block (mem_append_right _ (mem_map_of_mem (hsub x hx)))
  · show h1.base + 8 ≤ h1.brk ∧ h1.brk ≤ 2 ^ 32
    rw [hbase, hbrk]
    exact hs.brk

/-! ## `malloc` -/

theorem Sound.region {a nu : Nat} (hpos : 0 < nu) (ha : h.brk ≤ a)
    (hend : a + 8 * nu ≤ 2 ^ 32) : let h1 : Heap := { h with
      size := update h.size a nu
      brk := a + 8 * nu
      regions := (a, nu) :: h.regions }
    FreeList h1 fl ∧ Outside h1 fl a nu ∧
      Tiles 8 ((a, nu) :: (fl ++ h.live.map Live.block)) h1.regions := by
  intro h1
  have hbrk := hs.brk
  have hbelow : ∀ b ∈ fl ++ h.live.map Live.block, b.1 + 8 * b.2 ≤ a :=
    fun b hb => (hs.top b hb).trans ha
  have hne : ∀ b ∈ fl, b.1 ≠ a := by
    intro b hb
    have := hbelow b (mem_append_left _ hb)
    have := hs.list.pos b hb
    omega
  obtain ⟨hring, hfreep, hzero, hsize, hsorted, hfpos, hbound, hbase⟩ := hs.list
  refine ⟨⟨hring, hfreep, ?_, fun b hb => ?_, hsorted, hfpos, hbound, hbase⟩,
    ⟨update_self _ _ _, hpos, ⟨?_, hend⟩, fun b hb => .inr ?_⟩, ?_⟩
  · exact (update_of_ne (show h.base ≠ a by omega) _ _).trans hzero
  · exact (update_of_ne (hne b hb) _ _).trans (hsize b hb)
  · show h.base + 8 ≤ a
    omega
  · exact hbelow b (mem_append_left _ hb)
  · exact hs.tiles.add (fun c hc => .inr (hbelow c hc)) hpos

/-- `morecore` fails, or the list has a block that is large enough. -/
theorem Sound.morecore (hsmall : 8 * nunits < 2 ^ 31) (answer : Option Nat) :
    Malloc.morecore h nunits answer = some (h, 0) ∨
    ∃ h2 fl2, Malloc.morecore h nunits answer = some (h2, h2.freep) ∧ Sound h2 fl2 ∧
      h2.live = h.live ∧ ∃ b ∈ fl2, nunits ≤ b.2 := by
  unfold Malloc.morecore
  dsimp only
  set nu := if nunits < 4096 then 4096 else nunits with hnu
  have hle : nunits ≤ nu ∧ 0 < nu ∧ 8 * nu < 2 ^ 31 := by
    rw [hnu]
    split <;> omega
  have hbytes : u32 (nu * 8) = 8 * nu := by
    rw [u32, mul_comm]
    exact Nat.mod_eq_of_lt (by omega)
  rw [hbytes]
  cases ha : sbrk h (8 * nu) answer with
  | none => exact .inl rfl
  | some a =>
    obtain ⟨hbrk, hend⟩ : h.brk ≤ a ∧ a + 8 * nu ≤ 2 ^ 32 := by
      cases answer with
      | none => cases ha
      | some gap =>
        rw [sbrk] at ha
        split at ha
        · next hfit =>
          cases ha
          exact ⟨Nat.le_add_right _ _, hfit⟩
        · cases ha
    obtain ⟨hlist, hout, htiles⟩ := hs.region hle.2.1 hbrk hend
    obtain ⟨h2, fl2, hfree, hlist2, ⟨hbase, hbrk2, hregions, hlive⟩, hjoin, hsize⟩ :=
      free_spec hlist hout
    refine .inr ⟨h2, fl2, ?_, ?_, hlive, ?_⟩
    · dsimp only
      rw [hfree]
      rfl
    · have hbelow : ∀ b ∈ fl ++ h.live.map Live.block, b.1 + 8 * b.2 ≤ a :=
        fun b hb => (hs.top b hb).trans hbrk
      refine ⟨hlist2, ?_, fun b hb => ?_, fun b hb => ?_, ?_⟩
      · rw [hlive, hregions]
        exact hjoin.tiles _ _ htiles
      · rw [hlive] at hb
        have hb' : b.addr + 8 * b.size ≤ a :=
          hbelow b.block (mem_append_right _ (mem_map_of_mem hb))
        have hbpos := hs.live_pos hb
        have hba : b.addr ≠ a := by omega
        rw [hbase, hsize b.addr hba]
        · refine ⟨?_, (hs.used b hb).2⟩
          exact (update_of_ne hba _ _).trans (hs.used b hb).1
        · intro hmem
          obtain ⟨x, hx, heq⟩ := mem_map.mp hmem
          have hxpos := hs.list.pos x hx
          have hxb : b.addr + 8 * b.size ≤ x.1 ∨ x.1 + 8 * x.2 ≤ b.addr := hs.apart hb hx
          omega
      · rw [hbrk2]
        show b.1 + 8 * b.2 ≤ a + 8 * nu
        rw [hlive] at hb
        rcases mem_append.mp hb with hb | hb
        · refine hjoin.bound _ le_rfl (fun x hx => ?_) b hb
          exact (hbelow x (mem_append_left _ hx)).trans (Nat.le_add_right _ _)
        · exact (hbelow b (mem_append_right _ hb)).trans (Nat.le_add_right _ _)
      · rw [hbase, hbrk2]
        have := hs.brk
        show h.base + 8 ≤ a + 8 * nu ∧ a + 8 * nu ≤ 2 ^ 32
        omega
    · obtain ⟨b, hb, hlarge⟩ := hjoin.large
      exact ⟨b, hb, hle.1.trans hlarge⟩

/-- The block that was taken is live now. -/
theorem Sound.carved {q : Nat} (hc : Carved h nunits fl h' q fl')
    (hbytes : nbytes + 8 ≤ 8 * nunits) :
    q ≠ 0 ∧ Sound { h' with live := ⟨q, nunits, nbytes⟩ :: h'.live } fl' := by
  obtain ⟨hlist, ⟨hbase, hbrk, hregions, hlive⟩, hsize, ⟨y, hy, hyq, hqy⟩, hothers, htiles,
    hbound⟩ := hc
  have hyb := hs.list.bound y hy
  refine ⟨by omega, ⟨hlist.ring, hlist.freep, hlist.zero, hlist.size, hlist.sorted, hlist.pos,
    hlist.bound, hlist.base⟩, ?_, fun b hb => ?_, fun b hb => ?_, ?_⟩
  · show Tiles 8 (fl' ++ (q, nunits) :: h'.live.map Live.block) h'.regions
    rw [hlive, hregions]
    exact htiles _ _ hs.tiles
  · show h'.size b.addr = b.size ∧ _ ∧ h'.base + 8 ≤ b.addr
    rw [hbase]
    rcases mem_cons.mp hb with rfl | hb
    · exact ⟨hsize, hbytes, by dsimp only; omega⟩
    · rw [show Heap.live _ = h'.live from rfl, hlive] at hb
      have hbpos := hs.live_pos hb
      have hby : b.addr + 8 * b.size ≤ y.1 ∨ y.1 + 8 * y.2 ≤ b.addr := hs.apart hb hy
      rw [hothers]
      · exact hs.used b hb
      · intro hmem
        obtain ⟨x, hx, heq⟩ := mem_map.mp hmem
        have hxpos := hs.list.pos x hx
        have hxb : b.addr + 8 * b.size ≤ x.1 ∨ x.1 + 8 * x.2 ≤ b.addr := hs.apart hb hx
        omega
      · omega
  · show b.1 + 8 * b.2 ≤ h'.brk
    rw [hbrk]
    rcases mem_append.mp hb with hb | hb
    · obtain ⟨c, hc, -, hle⟩ := hbound b hb
      exact hle.trans (hs.top c (mem_append_left _ hc))
    · rcases mem_cons.mp hb with rfl | hb
      · exact hqy.trans (hs.top y (mem_append_left _ hy))
      · rw [hlive] at hb
        exact hs.top b (mem_append_right _ hb)
  · show h'.base + 8 ≤ h'.brk ∧ h'.brk ≤ 2 ^ 32
    rw [hbase, hbrk]
    exact hs.brk

/-- The loop of `malloc` ends: it takes a block, or `sbrk` has failed. -/
theorem Sound.mallocLoop (hpos : 0 < nunits) (hsmall : 8 * nunits < 2 ^ 31)
    (answers : List (Option Nat)) (hbytes : nbytes + 8 ≤ 8 * nunits) :
    ∃ h' q fl', Malloc.mallocLoop nunits ROUNDS answers h h.freep (h.ptr h.freep) = some (h', q) ∧
      Sound (if q = 0 then h' else { h' with live := ⟨q, nunits, nbytes⟩ :: h'.live }) fl' := by
  have hlen := hs.list.length_lt
  rcases mallocLoop_round answers hs.list hpos (n := ROUNDS)
    (show fl.length < 2 ^ 32 by omega) with ⟨h', q, fl', hloop, hc⟩ | ⟨-, hloop⟩
  · obtain ⟨hq, hs'⟩ := hs.carved hc hbytes
    exact ⟨h', q, fl', hloop, by rw [if_neg hq]; exact hs'⟩
  rw [hloop, grow]
  rcases hs.morecore hsmall answers.head?.join with hfail | ⟨h2, fl2, hmore, hs2, -, b, hb, hlarge⟩
  · rw [hfail]
    exact ⟨h, 0, fl, rfl, by rw [if_pos rfl]; exact hs⟩
  · rw [hmore]
    dsimp only
    rw [if_neg hs2.freep_ne_zero]
    have hlen2 := hs2.list.length_lt
    -- the second round finds a block
    rcases mallocLoop_round answers.tail hs2.list hpos (n := ROUNDS - fl.length - 1)
      (show fl2.length < 2 ^ 32 - fl.length - 1 by omega) with
      ⟨h', q, fl', hloop, hc⟩ | ⟨hnone, -⟩
    · obtain ⟨hq, hs'⟩ := hs2.carved hc hbytes
      exact ⟨h', q, fl', hloop, by rw [if_neg hq]; exact hs'⟩
    · have := hnone b hb
      omega

end

/-! ## Runs -/

/-- The list that the first call of `malloc` makes. -/
theorem start_sound (hs : start h) : Sound { h with
      ptr := update h.ptr h.base h.base
      freep := h.base
      size := update h.size h.base 0 } [] := by
  obtain ⟨-, hbase, hbrk, htop, hregions, hlive⟩ := hs
  refine ⟨⟨⟨rfl, update_self _ _ _⟩, mem_cons_self, update_self _ _ _,
    by simp, List.Pairwise.nil, by simp, by simp, hbase⟩, ?_, fun b hb => ?_, fun b hb => ?_,
    hbrk, htop⟩
  · show Tiles 8 ([] ++ h.live.map Live.block) h.regions
    rw [hregions, hlive]
    exact ⟨List.Pairwise.nil, by simp, List.Perm.refl _⟩
  · rw [show Heap.live _ = h.live from rfl, hlive] at hb
    cases hb
  · rw [show Heap.live _ = h.live from rfl, hlive] at hb
    cases hb

/-- `malloc` returns, in any state of the heap. -/
theorem malloc_sound (hs : start h ∨ Sound h fl) (hsmall : 8 * ((nbytes + 7) / 8 + 1) < 2 ^ 31)
    (answers : List (Option Nat)) :
    ∃ h' q fl', malloc h nbytes answers = some (h', q) ∧
      Sound (if q = 0 then h'
        else { h' with live := ⟨q, u32 (nbytes + 7) / 8 + 1, nbytes⟩ :: h'.live }) fl' := by
  have hunits : u32 (nbytes + 7) = nbytes + 7 := Nat.mod_eq_of_lt (by omega)
  unfold malloc
  rw [hunits]
  dsimp only
  rcases hs with hs | hs
  · rw [if_pos hs.1]
    exact (start_sound hs).mallocLoop (by omega) hsmall answers (by omega)
  · rw [if_neg hs.freep_ne_zero]
    exact hs.mallocLoop (by omega) hsmall answers (by omega)

/-- The program writes into its blocks. -/
theorem Sound.write (hs : Sound h fl) {ptr size : Nat → Nat}
    (hsame : ∀ a, h.Untouched a → ptr a = h.ptr a ∧ size a = h.size a) :
    Sound { h with ptr := ptr, size := size } fl := by
  have hfree : ∀ b ∈ fl, h.Untouched b.1 := by
    intro b hb c hc
    have hbpos := hs.list.pos b hb
    have hap : c.addr + 8 * c.size ≤ b.1 ∨ b.1 + 8 * b.2 ≤ c.addr := hs.apart hc hb
    omega
  have hbase : h.Untouched h.base := by
    intro c hc
    have := (hs.used c hc).2.2
    omega
  have hlive : ∀ b ∈ h.live, h.Untouched b.addr := by
    intro b hb c hc
    have hbpos := hs.live_pos hb
    have hcpos := hs.live_pos hc
    -- two live blocks are apart or the same
    by_cases hbc : b.addr = c.addr
    · exact .inl (Nat.le_of_eq (by rw [hbc]))
    · have hap : b.addr + 8 * b.size ≤ c.addr ∨ c.addr + 8 * c.size ≤ b.addr :=
        (pairwise_append.mp hs.tiles.apart).2.1.forall (mem_map_of_mem hb)
          (mem_map_of_mem hc) fun heq => hbc (congrArg Prod.fst heq)
      omega
  obtain ⟨hring, hfreep, hzero, hsize, hsorted, hpos, hbound, hb⟩ := hs.list
  refine ⟨⟨hring.congr fun x hx => ?_, hfreep, ?_, fun b hb => ?_, hsorted, hpos, hbound, hb⟩,
    hs.tiles, fun b hb => ?_, hs.top, hs.brk⟩
  · rcases mem_cons.mp hx with rfl | hx
    · exact (hsame _ hbase).1
    · obtain ⟨b, hb, rfl⟩ := mem_map.mp hx
      exact (hsame _ (hfree b hb)).1
  · exact (hsame _ hbase).2.trans hzero
  · exact (hsame _ (hfree b hb)).2.trans (hsize b hb)
  · obtain ⟨h1, h2⟩ := hs.used b hb
    exact ⟨(hsame _ (hlive b hb)).2.trans h1, h2⟩

/-- Before the first call of `malloc` there is no list. -/
def Safe (h : Heap) : Prop := start h ∨ ∃ fl, Sound h fl

theorem step_safe {e : Event} (hs : Safe h) (hstep : step h e h') : Safe h' := by
  cases e with
  | malloc nbytes answers =>
    obtain ⟨hsmall, h1, p, hm, rfl⟩ := hstep
    have hs' : ∃ fl, start h ∨ Sound h fl := by
      rcases hs with hs | ⟨fl, hs⟩
      · exact ⟨[], .inl hs⟩
      · exact ⟨fl, .inr hs⟩
    obtain ⟨fl, hs'⟩ := hs'
    obtain ⟨h2, q, fl', hm', hsound⟩ := malloc_sound hs' hsmall answers
    obtain ⟨rfl, rfl⟩ : h2 = h1 ∧ q = p := by
      rw [hm'] at hm
      simpa using hm
    exact .inr ⟨fl', hsound⟩
  | free i =>
    obtain ⟨b, h1, hb, hfree, rfl⟩ := hstep
    rcases hs with ⟨-, -, -, -, -, hlive⟩ | ⟨fl, hs⟩
    · rw [hlive] at hb
      cases hb
    · obtain ⟨h2, fl', hfree', hsound⟩ := hs.free hb
      cases hfree'.symm.trans hfree
      exact .inr ⟨fl', hsound⟩
  | write =>
    obtain ⟨ptr, size, rfl, hsame⟩ := hstep
    rcases hs with hs | ⟨fl, hs⟩
    · exact .inl hs
    · exact .inr ⟨fl, hs.write hsame⟩

theorem reachable_safe (hr : system.Reachable h) : Safe h :=
  System.invariant (I := Safe) (fun _ hs => .inl hs) (fun _ _ _ hs hstep => step_safe hs hstep) hr

/-- The heap after any calls, with any answers of `sbrk`. From the first call of `malloc` on, the
    free list is circular and goes through `base` and then through the free blocks in the order of
    their addresses, with a gap after each; free and live blocks tile what came from `sbrk`; a live
    block has the bytes that were asked for. `malloc` and `free` return. -/
theorem heap_sound (hr : system.Reachable h) :
    ((h.freep = 0 ∧ h.regions = [] ∧ h.live = []) ∨
      ∃ fl : List (Nat × Nat),
        Leads h.ptr h.base (h.base :: fl.map Prod.fst) h.base ∧
        h.freep ∈ h.base :: fl.map Prod.fst ∧
        (∀ b ∈ fl, h.base < b.1 ∧ h.size b.1 = b.2) ∧
        fl.Pairwise (fun b c => b.1 + 8 * b.2 < c.1) ∧
        (fl ++ h.live.map Live.block).Pairwise (Apart 8) ∧
        ((fl ++ h.live.map Live.block).flatMap (units 8)).Perm (h.regions.flatMap (units 8)) ∧
        (h.regions.flatMap (units 8)).Nodup ∧
        ∀ b ∈ h.live, h.size b.addr = b.size ∧ b.bytes + 8 ≤ 8 * b.size) ∧
    (∀ nbytes answers, 8 * ((nbytes + 7) / 8 + 1) < 2 ^ 31 →
      (malloc h nbytes answers).isSome) ∧
    ∀ b ∈ h.live, (free h b.addr).isSome := by
  have hsafe := reachable_safe hr
  refine ⟨?_, fun nbytes answers hsmall => ?_, fun b hb => ?_⟩
  · rcases hsafe with ⟨hfreep, -, -, -, hregions, hlive⟩ | ⟨fl, hs⟩
    · exact .inl ⟨hfreep, hregions, hlive⟩
    · refine .inr ⟨fl, hs.list.ring, hs.list.freep, fun b hb => ?_, hs.list.sorted, hs.tiles.apart,
        hs.tiles.cover, hs.tiles.nodup (by decide), fun b hb => ?_⟩
      · exact ⟨(hs.list.lt_of_mem hb).1, hs.list.size b hb⟩
      · exact ⟨(hs.used b hb).1, (hs.used b hb).2.1⟩
  · have hs' : ∃ fl, start h ∨ Sound h fl := by
      rcases hsafe with hs | ⟨fl, hs⟩
      · exact ⟨[], .inl hs⟩
      · exact ⟨fl, .inr hs⟩
    obtain ⟨fl, hs'⟩ := hs'
    obtain ⟨h₂, q, fl', hm, -⟩ := malloc_sound hs' hsmall answers
    rw [hm]
    rfl
  · rcases hsafe with ⟨-, -, -, -, -, hlive⟩ | ⟨fl, hs⟩
    · rw [hlive] at hb
      cases hb
    · obtain ⟨h₂, -, hfree, -⟩ := free_spec hs.list (hs.outside hb)
      rw [hfree]
      rfl

/-- A program with `base` at address 8 and the heap from the second page on. -/
def firstHeap : Heap where
  base := 8
  freep := 0
  ptr := fun _ => 0
  size := fun _ => 0
  brk := 4096
  regions := []
  live := []

/-- The first `malloc` takes the end of the first region. -/
theorem heap_sound_firstHeap : ∃ h, system.Reachable h ∧ h.regions = [(4096, 4096)] ∧
    h.live.map Live.block = [(36840, 3)] ∧ (h.regions.flatMap (units 8)).Nodup := by
  obtain ⟨h₁, q, hm, hq, hregions, hlive⟩ : ∃ h₁ q,
      malloc firstHeap 10 [some 0] = some (h₁, q) ∧ q = 36840 ∧ h₁.regions = [(4096, 4096)] ∧
        h₁.live = [] :=
    ⟨_, _, rfl, by decide +kernel, by decide +kernel, rfl⟩
  have hstart : system.init firstHeap := ⟨rfl, by decide, by decide, by decide, rfl, rfl⟩
  have hstep : system.step firstHeap (.malloc 10 [some 0])
      { h₁ with live := ⟨q, u32 (10 + 7) / 8 + 1, 10⟩ :: h₁.live } :=
    ⟨by decide, h₁, q, hm, by rw [if_neg (by rw [hq]; decide)]⟩
  have hr := (System.Reachable.of_init hstart).step hstep
  refine ⟨_, hr, hregions, ?_, ?_⟩
  · rw [hlive, hq]
    rfl
  · rcases (heap_sound hr).1 with ⟨-, -, hno⟩ | ⟨fl, -, -, -, -, -, -, hnd, -⟩
    · cases hno
    · exact hnd

/-! ## Coalescing -/

/-- Free units that follow one another are in one block: two free blocks never meet. -/
theorem FreeList.exists_block (hf : FreeList h fl) {a n : Nat}
    (hrun : ∀ i ≤ n, a + 8 * i ∈ fl.flatMap (units 8)) :
    ∃ b ∈ fl, ∃ j, b.1 + 8 * j = a ∧ j + n < b.2 := by
  have hunit : ∀ x ∈ fl.flatMap (units 8), ∃ b ∈ fl, ∃ j < b.2, b.1 + 8 * j = x := by
    intro x hx
    simpa [units] using hx
  induction n with
  | zero =>
    obtain ⟨b, hb, j, hj, heq⟩ := hunit _ (hrun 0 le_rfl)
    exact ⟨b, hb, j, heq, hj⟩
  | succ n ih =>
    obtain ⟨b, hb, j', hj', hlt⟩ := ih fun i hi => hrun i (by omega)
    obtain ⟨c, hc, j, hj, heq⟩ := hunit _ (hrun (n + 1) le_rfl)
    -- the next unit is in a block that starts behind `b`, in `b`, or before it
    obtain ⟨i, hi, rfl⟩ := getElem_of_mem hb
    obtain ⟨k, hk, rfl⟩ := getElem_of_mem hc
    have hsorted := pairwise_iff_getElem.mp hf.sorted
    rcases Nat.lt_trichotomy i k with hik | rfl | hik
    · have := hsorted i k hi hk hik
      omega
    · exact ⟨_, hb, j', hj', by omega⟩
    · have := hsorted k i hk hi hik
      omega

/-- **Fragmentation**: `malloc` does without `sbrk` wherever enough units that follow one another
    came from `sbrk` and are not in a live block, whatever calls have cut them up before. -/
theorem malloc_without_sbrk (hr : system.Reachable h) (hsmall : 8 * ((nbytes + 7) / 8 + 1) < 2 ^ 31)
    {a : Nat} (hrun : ∀ i ≤ (nbytes + 7) / 8, a + 8 * i ∈ h.regions.flatMap (units 8) ∧
      ∀ b ∈ h.live, a + 8 * i ∉ units 8 b.block) :
    ∃ h' q, malloc h nbytes [] = some (h', q) ∧ q ≠ 0 ∧ h'.regions = h.regions := by
  rcases reachable_safe hr with ⟨-, -, -, -, hregions, -⟩ | ⟨fl, hs⟩
  · have := (hrun 0 (Nat.zero_le _)).1
    simp [hregions] at this
  have hfree : ∀ i ≤ (nbytes + 7) / 8, a + 8 * i ∈ fl.flatMap (units 8) := by
    intro i hi
    obtain ⟨hin, hno⟩ := hrun i hi
    have hmem := hs.tiles.cover.mem_iff.mpr hin
    rw [flatMap_append, mem_append] at hmem
    refine hmem.resolve_right fun hmem => ?_
    obtain ⟨x, hx, hax⟩ := mem_flatMap.mp hmem
    obtain ⟨b, hb, rfl⟩ := mem_map.mp hx
    exact hno b hb hax
  obtain ⟨b, hb, j, -, hlt⟩ := hs.list.exists_block hfree
  have hunits : u32 (nbytes + 7) = nbytes + 7 := Nat.mod_eq_of_lt (by omega)
  unfold malloc
  rw [hunits, if_neg hs.freep_ne_zero]
  have hlen := hs.list.length_lt
  rcases mallocLoop_round [] hs.list (Nat.succ_pos ((nbytes + 7) / 8)) (n := ROUNDS)
    (show fl.length < 2 ^ 32 by omega) with ⟨h', q, fl', hloop, hc⟩ | ⟨hnone, -⟩
  · obtain ⟨hq, -⟩ := hs.carved hc (show nbytes + 8 ≤ 8 * ((nbytes + 7) / 8 + 1) by omega)
    exact ⟨h', q, hloop, hq, hc.same.regions⟩
  · have := hnone b hb
    omega

/-- After a first `malloc`, the rest of its region. -/
theorem malloc_without_sbrk_firstHeap : ∃ h, system.Reachable h ∧
    ∃ h' q, malloc h 10 [] = some (h', q) ∧ q ≠ 0 ∧ h'.regions = h.regions := by
  obtain ⟨h1, q, hm, hq, hregions, hlive⟩ : ∃ h1 q, malloc firstHeap 10 [some 0] = some (h1, q) ∧
      q = 36840 ∧ h1.regions = [(4096, 4096)] ∧ h1.live = [] :=
    ⟨_, _, rfl, by decide +kernel, by decide +kernel, rfl⟩
  have hstart : system.init firstHeap := ⟨rfl, by decide, by decide, by decide, rfl, rfl⟩
  have hstep : system.step firstHeap (.malloc 10 [some 0])
      { h1 with live := ⟨q, 3, 10⟩ :: h1.live } :=
    ⟨by decide, h1, q, hm, by rw [if_neg (by rw [hq]; decide)]; rfl⟩
  have hr := (System.Reachable.of_init hstart).step hstep
  refine ⟨_, hr, malloc_without_sbrk hr (by decide) (a := 4096) fun i hi => ?_⟩
  have hi : i ≤ 2 := hi
  have h4096 : i < 4096 := by omega
  simpa [hregions, hlive, hq, units, Live.block, h4096] using fun j hj => by omega

end Xv6.Malloc
