import Xv6.Framework.Cycle
import Xv6.Framework.System
import Xv6.Framework.Tiling
import Xv6.Param

/-! # The user heap

    `malloc` and `free` of `umalloc.c`. The free blocks form a circular list in the order of their
    addresses, with `base`, a block of size 0, as the lowest one. A header is 8 bytes, and sizes
    count units of this length.

    The memory is the two fields of the header at each address. The state remembers what no code
    reads: the regions that came from `sbrk`, and the blocks that were returned by `malloc` and not
    freed since.
-/

namespace Xv6.Malloc

open LTS Cycle Tiling Function

/-! ## Model -/

/-- A block that was returned by `malloc(bytes)`: its header and its size. -/
structure Live where
  addr  : Nat
  size  : Nat
  bytes : Nat

def Live.block (b : Live) : Nat × Nat := (b.addr, b.size)

structure Heap where
  /-- `&base`. -/
  base    : Nat
  freep   : Nat
  ptr     : Nat → Nat
  size    : Nat → Nat
  /-- Nothing above has been given out by `sbrk`. -/
  brk     : Nat
  regions : List (Nat × Nat)
  live    : List Live

/-- More rounds than any loop below can take. -/
abbrev ROUNDS : Nat := 2 ^ 32

/-- The two exits of the loop of `free`. -/
def Heap.stops (h : Heap) (bp p : Nat) : Bool :=
  (p < bp && bp < h.ptr p) || (h.ptr p ≤ p && (p < bp || bp < h.ptr p))

/-- The first `if` of `free`, which joins `bp` with the block after it. -/
def Heap.joinNext (h : Heap) (bp p : Nat) : Heap :=
  if u32 (bp + 8 * h.size bp) = h.ptr p then
    { h with
      size := update h.size bp (u32 (h.size bp + h.size (h.ptr p)))
      ptr := update h.ptr bp (h.ptr (h.ptr p)) }
  else { h with ptr := update h.ptr bp (h.ptr p) }

/-- The second one, which joins it with the block before it. -/
def Heap.joinPrev (h : Heap) (bp p : Nat) : Heap :=
  if u32 (p + 8 * h.size p) = bp then
    { h with
      size := update h.size p (u32 (h.size p + h.size bp))
      ptr := update h.ptr p (h.ptr bp) }
  else { h with ptr := update h.ptr p bp }

/-- `free` of the block with the header `bp`. -/
def free (h : Heap) (bp : Nat) : Option Heap :=
  (scan h.ptr (h.stops bp) ROUNDS h.freep).map fun p =>
    { (h.joinNext bp p).joinPrev bp p with freep := p }

/-- `sbrk(nbytes)`: `some gap` stands for a region that starts `gap` bytes
    above all earlier ones, and `none` for -1. -/
def sbrk (h : Heap) (nbytes : Nat) : Option Nat → Option Nat
  | none => none
  | some gap => if h.brk + gap + nbytes ≤ 2 ^ 32 then some (h.brk + gap) else none

/-- `morecore(nu)`: the heap and the result. -/
def morecore (h : Heap) (nu : Nat) (answer : Option Nat) : Option (Heap × Nat) :=
  let nu := if nu < 4096 then 4096 else nu
  match sbrk h (u32 (nu * 8)) answer with
  | none => some (h, 0)
  | some p =>
      let h := { h with
        size := update h.size p nu
        brk := p + u32 (nu * 8)
        regions := (p, nu) :: h.regions }
      (free h p).map fun h => (h, h.freep)

/-- The block at `p` is large enough: all or the end of it is taken. -/
def Heap.carve (h : Heap) (nunits prevp p : Nat) : Heap × Nat :=
  if h.size p = nunits then
    ({ h with ptr := update h.ptr prevp (h.ptr p), freep := prevp }, p)
  else
    let rest := h.size p - nunits
    let q := u32 (p + 8 * rest)
    ({ h with
      size := update (update h.size p rest) q nunits
      freep := prevp }, q)

/-- The loop of `malloc`. `answers` are those of the calls of `sbrk` to come; when there is none
    left, `sbrk` fails. -/
def mallocLoop (nunits : Nat) : Nat → List (Option Nat) → Heap → Nat → Nat → Option (Heap × Nat)
  | 0, _, _, _, _ => none
  | n + 1, answers, h, prevp, p =>
      if nunits ≤ h.size p then some (h.carve nunits prevp p)
      else if p = h.freep then
        match morecore h nunits answers.head?.join with
        | none => none
        | some (h', p') =>
            if p' = 0 then some (h', 0)
            else mallocLoop nunits n answers.tail h' p' (h'.ptr p')
      else mallocLoop nunits n answers h p (h.ptr p)

/-- `malloc(nbytes)`: the heap and the header of the block, or 0. -/
def malloc (h : Heap) (nbytes : Nat) (answers : List (Option Nat)) : Option (Heap × Nat) :=
  let nunits := u32 (nbytes + 7) / 8 + 1
  let h := if h.freep = 0 then
      { h with
        ptr := update h.ptr h.base h.base
        freep := h.base
        size := update h.size h.base 0 }
    else h
  mallocLoop nunits ROUNDS answers h h.freep (h.ptr h.freep)

inductive Event where
  | malloc (nbytes : Nat) (answers : List (Option Nat))
  /-- `free` of a pointer to the `i`-th live block. -/
  | free (i : Nat)
  /-- The program writes into its blocks. -/
  | write

/-- The header at `a` is not in the payload of a live block. -/
def Heap.Untouched (h : Heap) (a : Nat) : Prop :=
  ∀ b ∈ h.live, a + 8 ≤ b.addr + 8 ∨ b.addr + 8 * b.size ≤ a

/-- One call, or one write of the program. -/
def step (h : Heap) (e : Event) (h' : Heap) : Prop :=
  match e with
  | .malloc nbytes answers =>
      8 * ((nbytes + 7) / 8 + 1) < 2 ^ 31 ∧
      ∃ h₁ p, malloc h nbytes answers = some (h₁, p) ∧
        h' = if p = 0 then h₁
          else { h₁ with live := ⟨p, u32 (nbytes + 7) / 8 + 1, nbytes⟩ :: h₁.live }
  | .free i =>
      ∃ b h₁, h.live[i]? = some b ∧ free h b.addr = some h₁ ∧
        h' = { h₁ with live := h₁.live.eraseIdx i }
  | .write =>
      ∃ ptr size, h' = { h with ptr := ptr, size := size } ∧
        ∀ a, h.Untouched a → ptr a = h.ptr a ∧ size a = h.size a

/-- No call yet: the heap lies above the variables of the program. -/
def start (h : Heap) : Prop :=
  h.freep = 0 ∧ 0 < h.base ∧ h.base + 8 ≤ h.brk ∧ h.brk ≤ 2 ^ 32 ∧ h.regions = [] ∧ h.live = []

def system : System Heap Event where
  init := start
  step := step

end Xv6.Malloc
