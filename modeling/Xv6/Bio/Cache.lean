import Mathlib.Data.List.FinRange
import Xv6.Framework.Links
import Xv6.Fs.Block

/-! # The buffer cache

    `binit`, `bget` and `brelse` of `bio.c` on the `NBUF` buffers and the list through
    `bcache.head`. A node of the list is a buffer or the head, which is `none`.
-/

namespace Xv6.Bio

open List Function

/-! ## Model -/

/-- `-1` as a `uint`: the device of a buffer that was never used. -/
def NODEV : Nat := 2 ^ 32 - 1

/-- `struct buf`. The three bits of `flags` are `busy`, `valid` and `dirty`. -/
structure Buf where
  dev     : Nat
  blockno : Nat
  busy    : Bool
  valid   : Bool
  dirty   : Bool
  data    : Block

/-- `b->dev == dev && b->blockno == blockno`. -/
def Buf.isFor (b : Buf) (dev blockno : Nat) : Bool := b.dev == dev && b.blockno == blockno

/-- `(b->flags & B_BUSY) == 0 && (b->flags & B_DIRTY) == 0`. -/
def Buf.unused (b : Buf) : Bool := !b.busy && !b.dirty

/-- `bcache`. -/
structure Cache where
  buf   : Fin NBUF → Buf
  links : Links (Option (Fin NBUF))

def Cache.set (c : Cache) (b : Fin NBUF) (x : Buf) : Cache :=
  { c with buf := Function.update c.buf b x }

/-- The cache after `binit`. -/
def binit : Cache where
  buf := fun _ => ⟨NODEV, 0, false, false, false, .fill 0⟩
  links := (List.finRange NBUF).foldl (fun L b => L.pushFront none (some b)) (.single none)

/-- How the critical section of `bget` ends. -/
inductive Lookup where
  /-- With a buffer, now busy. -/
  | got (b : Fin NBUF) (c : Cache)
  /-- In `sleep(b, &bcache.lock)`. -/
  | sleep (b : Fin NBUF)
  /-- With `panic("bget: no buffers")`. -/
  | panic

/-- `bget` from the label `loop` on. The list has `NBUF` buffers, so a loop over it takes `NBUF + 1`
    tests of `b != &bcache.head`. -/
def bget (c : Cache) (dev blockno : Nat) : Lookup :=
  match Links.scan c.links.next none (·.any fun b => (c.buf b).isFor dev blockno)
      (NBUF + 1) (c.links.next none) with
  | some (some b) =>
      if (c.buf b).busy then .sleep b
      else .got b (c.set b { c.buf b with busy := true })
  | _ =>
      match Links.scan c.links.prev none (·.any fun b => (c.buf b).unused)
          (NBUF + 1) (c.links.prev none) with
      | some (some b) =>
          .got b (c.set b ⟨dev, blockno, true, false, false, (c.buf b).data⟩)
      | _ => .panic

/-- The critical section of `brelse`. -/
def brelse (c : Cache) (b : Fin NBUF) : Cache where
  buf := Function.update c.buf b { c.buf b with busy := false }
  links := (c.links.unlink (some b)).pushFront none (some b)

/-! ## The list -/

/-- The list through the head has every buffer once. -/
def Cache.Linked (c : Cache) : Prop :=
  ∃ l : List (Fin NBUF), l.Perm (List.finRange NBUF) ∧ c.links.Ring none (l.map some)

variable {c : Cache} {b : Fin NBUF}

theorem Cache.Linked.set (h : c.Linked) (b : Fin NBUF) (x : Buf) : (c.set b x).Linked := h

theorem ring_foldl {L : Links (Option (Fin NBUF))} {l : List (Fin NBUF)}
    (hL : L.Ring none (l.map some)) (bs : List (Fin NBUF)) (hnd : (bs ++ l).Nodup) :
    (bs.foldl (fun L b => L.pushFront none (some b)) L).Ring none ((bs.reverse ++ l).map some) := by
  induction bs generalizing L l with
  | nil => exact hL
  | cons b bs ih =>
    have hb : some b ∉ none :: l.map some := by
      simp only [cons_append, nodup_cons, mem_append] at hnd
      simpa using fun hm => hnd.1 (Or.inr hm)
    have hnd' : (bs ++ b :: l).Nodup := perm_middle.nodup_iff.mpr hnd
    simpa using ih (l := b :: l) (hL.pushFront hb) hnd'

theorem linked_binit : binit.Linked := by
  refine ⟨(finRange NBUF).reverse, reverse_perm _, ?_⟩
  have hring := ring_foldl (l := []) (Links.ring_single none) (finRange NBUF)
    (by simpa using nodup_finRange NBUF)
  rwa [append_nil] at hring

theorem Cache.Linked.brelse (h : c.Linked) (b : Fin NBUF) : (brelse c b).Linked := by
  obtain ⟨l, hperm, hring⟩ := h
  obtain ⟨l1, l2, rfl⟩ := append_of_mem (hperm.mem_iff.mpr (mem_finRange b))
  refine ⟨b :: (l1 ++ l2), perm_middle.symm.trans hperm, ?_⟩
  rw [map_append, map_cons] at hring
  rw [map_cons, map_append]
  exact hring.toFront

/-! ## What `bget` finds -/

/-- Everything the critical section of `bget` can do, with its reason. -/
inductive Looked (c : Cache) (dev blockno : Nat) : Lookup → Prop where
  | hit {b : Fin NBUF} (hdev : (c.buf b).dev = dev) (hno : (c.buf b).blockno = blockno)
      (hfree : (c.buf b).busy = false) :
      Looked c dev blockno (.got b (c.set b { c.buf b with busy := true }))
  | wait {b : Fin NBUF} (hdev : (c.buf b).dev = dev) (hno : (c.buf b).blockno = blockno)
      (hbusy : (c.buf b).busy = true) : Looked c dev blockno (.sleep b)
  | recycle {b : Fin NBUF} (hmiss : ∀ i, (c.buf i).dev = dev → (c.buf i).blockno ≠ blockno)
      (hfree : (c.buf b).busy = false) (hclean : (c.buf b).dirty = false) :
      Looked c dev blockno (.got b (c.set b ⟨dev, blockno, true, false, false, (c.buf b).data⟩))
  | panic (hmiss : ∀ i, (c.buf i).dev = dev → (c.buf i).blockno ≠ blockno)
      (hfull : ∀ i, (c.buf i).busy = true ∨ (c.buf i).dirty = true) : Looked c dev blockno .panic

/-- Both loops of `bget` go over all buffers. -/
theorem looked_bget (h : c.Linked) (dev blockno : Nat) :
    Looked c dev blockno (bget c dev blockno) := by
  obtain ⟨l, hperm, hring⟩ := h
  have hall : ∀ i, i ∈ l := fun i => hperm.mem_iff.mpr (mem_finRange i)
  have hlen : (l.map some).length < NBUF + 1 := by
    rw [length_map, hperm.length_eq, length_finRange]
    exact Nat.lt_succ_self _
  unfold bget
  rw [hring.scan_next _ hlen, hring.scan_prev _ hlen, ← map_reverse, find?_map, find?_map]
  cases hhit : l.find? ((·.any fun b => (c.buf b).isFor dev blockno) ∘ some) with
  | some b =>
    have hfor := find?_some hhit
    simp only [comp_apply, Option.any_some, Buf.isFor, Bool.and_eq_true, beq_iff_eq] at hfor
    simp only [Option.map_some]
    split
    · next hbusy => exact .wait hfor.1 hfor.2 hbusy
    · next hfree => exact .hit hfor.1 hfor.2 (by simpa using hfree)
  | none =>
    have hmiss : ∀ i, (c.buf i).dev = dev → (c.buf i).blockno ≠ blockno := by
      intro i hdev hno
      have := find?_eq_none.mp hhit i (hall i)
      simp [Buf.isFor, hdev, hno] at this
    simp only [Option.map_none]
    cases hfree : l.reverse.find? ((·.any fun b => (c.buf b).unused) ∘ some) with
    | some b =>
      have hb := find?_some hfree
      simp only [comp_apply, Option.any_some, Buf.unused, Bool.and_eq_true, Bool.not_eq_true'] at hb
      exact .recycle hmiss hb.1 hb.2
    | none =>
      refine .panic hmiss fun i => ?_
      have := find?_eq_none.mp hfree i (by simpa using hall i)
      simp only [comp_apply, Option.any_some, Buf.unused, Bool.and_eq_true,
        Bool.not_eq_true'] at this
      by_cases hbusy : (c.buf i).busy = true
      · exact .inl hbusy
      · exact .inr (by simpa [hbusy] using this)

end Xv6.Bio
