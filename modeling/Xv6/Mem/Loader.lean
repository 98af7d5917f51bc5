import Xv6.Mem.BuildImage

/-! # `exec` on an inode of any type

    `Mem.buildImage` reads a regular file. Here the calls of `readi` are those of any inode: for a
    file they copy its bytes, for a device they may do anything that ends. What `struct elfhdr elf`
    holds before the first call is part of the input as well.

    Each function takes a flag. With it the function also stops where it would break one of the
    rules of loading: a header is used that `readi` did not deliver whole, or `readi` is called to
    store through an entry that is not one of a present user page, whatever it then delivers.
    Without it the function is what the source has.
-/

namespace Xv6.Mem

open ByteMem Program

variable (L : Layout)

/-! ## The calls of `readi` -/

/-- A call of `readi` in `exec`: for the ELF header, for a program header, for a
    page of a segment. -/
inductive Call where
  | elf
  | ph (i : Nat)
  | page (i j : Nat)

/-- What the calls of `readi` give in one run of `exec`, each for an offset and a count. -/
structure Source where
  readi : Call → Nat → Nat → Int
  /-- The bytes that are copied, from the first on. -/
  bytes : Call → Nat → ByteMem.Mem
  /-- What `elf` holds before it is read. -/
  stale : ByteMem.Mem
  readi_ge : ∀ c off n, -1 ≤ readi c off n
  readi_le : ∀ c off n, readi c off n ≤ n

/-- The fields of an ELF header at address 0. -/
def elfhdrOf (m : ByteMem.Mem) : ElfHdr where
  magic := load m 0 4
  entry := load m 24 4
  phoff := load m 28 4
  phnum := load m 44 2

/-- The fields of a program header at address `a`. -/
def proghdrOf (m : ByteMem.Mem) (a : Nat) : ProgHdr where
  type := load m a 4
  off := load m (a + 4) 4
  vaddr := load m (a + 8) 4
  filesz := load m (a + 16) 4
  memsz := load m (a + 20) 4

/-- Stop if the rule is broken and the flag is set. -/
def demand (strict : Bool) (rule : Prop) [Decidable rule] : VM Unit :=
  if strict = true ∧ ¬ rule then throw .fault else pure ()

/-- The entry of a present user page. -/
def UserEntry (e : Nat) : Prop := present e = true ∧ e &&& PTE_U ≠ 0

instance (e : Nat) : Decidable (UserEntry e) := by
  unfold UserEntry
  infer_instance

namespace Source

variable (strict : Bool) (src : Source)

/-- `elf` after the first call. -/
def elfhdr : ElfHdr :=
  elfhdrOf fun a => if a < (src.readi .elf 0 ELFHDR).toNat then src.bytes .elf 0 a else src.stale a

/-- `ph` in round `i`, where `readi` delivered all of it. -/
def proghdr (i off : Nat) : ProgHdr := proghdrOf (src.bytes (.ph i) off) 0

/-! ## The loader -/

/-- The loop of `loaduvm` for segment `seg`. -/
def loadFrom (pgdir addr seg offset sz : Nat) : Nat → Nat → VM Bool
  | 0, _ => throw .hang
  | k + 1, i =>
      if i < sz then do
        let pte ← walkpgdir pgdir (u32 (addr + i)) false
        match pte with
        | none => panic "loaduvm: address should exist"
        | some pte => do
            let e ← load32 pte
            demand strict (UserEntry e)
            let n := if sz - i < PGSIZE then sz - i else PGSIZE
            let r := src.readi (.page seg (i / PGSIZE)) (u32 (offset + i)) n
            memmove (P2V (PTE_ADDR e))
              (src.bytes (.page seg (i / PGSIZE)) (u32 (offset + i))) 0 r.toNat
            if toU32 r ≠ n then return false
            else loadFrom pgdir addr seg offset sz k (u32 (i + PGSIZE))
      else return true

def loaduvm (pgdir addr seg offset sz : Nat) : VM Bool := do
  if addr % PGSIZE ≠ 0 then panic "loaduvm: addr must be page aligned"
  else loadFrom strict src pgdir addr seg offset sz MAXPAGES 0

/-- The loop over the program headers, from number `i` on. -/
def loadSegments (pgdir : Nat) : Nat → Nat → Nat → Nat → VM (Option Nat)
  | 0, _, _, sz => return some sz
  | n + 1, i, off, sz => do
      if toU32 (src.readi (.ph i) off PROGHDR) ≠ PROGHDR then return none
      else do
        demand strict (src.readi (.ph i) off PROGHDR = PROGHDR)
        let ph := src.proghdr i off
        if ph.type ≠ ELF_PROG_LOAD then
          loadSegments pgdir n (i + 1) (u32 (off + PROGHDR)) sz
        else if ph.memsz < ph.filesz then return none
        else if u32 (ph.vaddr + ph.memsz) < ph.vaddr then return none
        else do
          let sz ← allocuvm L pgdir sz (u32 (ph.vaddr + ph.memsz))
          if sz = 0 then return none
          else if ph.vaddr % PGSIZE ≠ 0 then return none
          else do
            let ok ← loaduvm strict src pgdir ph.vaddr i ph.off ph.filesz
            if ok then loadSegments pgdir n (i + 1) (u32 (off + PROGHDR)) sz
            else return none

def fillImage (pgdir : Nat) (argv : List CStr) : VM (Option (Nat × Nat)) := do
  let r ← loadSegments L strict src pgdir src.elfhdr.phnum 0 src.elfhdr.phoff PGSIZE
  match r with
  | none => return none
  | some sz => pushStack L pgdir argv sz

/-- `exec` up to the commit; `none` after `bad`. -/
def buildImage (argv : List CStr) : VM (Option Image) := do
  if toU32 (src.readi .elf 0 ELFHDR) < ELFHDR then return none
  else do
    demand strict (src.readi .elf 0 ELFHDR = ELFHDR)
    if src.elfhdr.magic ≠ ELF_MAGIC then return none
    else do
      let pgdir ← setupkvm L
      if pgdir = 0 then return none
      else do
        let r ← fillImage L strict src pgdir argv
        match r with
        | some (sz, sp) => return some { pgdir, sz, entry := src.elfhdr.entry, sp }
        | none => do
            freevm L pgdir
            return none

end Source

/-! ## The flag only stops -/

theorem demand_false (rule : Prop) [Decidable rule] : demand false rule = pure () := by
  simp [demand]

theorem demand_of {strict : Bool} {rule : Prop} [Decidable rule] (h : rule) :
    demand strict rule = pure () := by
  simp [demand, h]

theorem demand_stricter (rule : Prop) [Decidable rule] :
    Stricter (demand true rule) (demand false rule) := by
  intro s a s' he
  unfold demand at he
  split at he
  · exact absurd he not_ends_throw
  · exact he

namespace Source

variable {L} {src : Source} {d : Nat}

theorem loadFrom_stricter {addr seg offset sz : Nat} (k : Nat) : ∀ i,
    Stricter (src.loadFrom true d addr seg offset sz k i)
      (src.loadFrom false d addr seg offset sz k i) := by
  induction k with
  | zero => exact fun i => .refl _
  | succ k ih =>
    intro i
    refine .ite (.bind (.refl _) fun pte => ?_) (.refl _)
    cases pte with
    | none => exact .refl _
    | some pte =>
      exact .bind (.refl _) fun e => .bind (demand_stricter _) fun _ => .bind (.refl _) fun _ =>
        .ite (.refl _) (ih _)

theorem loadSegments_stricter (n : Nat) : ∀ i off sz,
    Stricter (src.loadSegments L true d n i off sz) (src.loadSegments L false d n i off sz) := by
  induction n with
  | zero => exact fun i off sz => .refl _
  | succ n ih =>
    intro i off sz
    refine .ite (.refl _) (.bind (demand_stricter _) fun _ => .ite (ih _ _ _) (.ite (.refl _)
      (.ite (.refl _) (.bind (.refl _) fun sz => .ite (.refl _) (.ite (.refl _) ?_)))))
    refine .bind (.ite (.refl _) (loadFrom_stricter _ _)) fun ok => ?_
    exact .ite (ih _ _ _) (.refl _)

/-- What ends without breaking a rule is what the source does. -/
theorem buildImage_stricter (argv : List CStr) :
    Stricter (src.buildImage L true argv) (src.buildImage L false argv) := by
  refine .ite (.refl _) (.bind (demand_stricter _) fun _ => .ite (.refl _)
    (.bind (.refl _) fun pgdir => .ite (.refl _) (.bind (.bind ?_ fun _ => .refl _)
      fun _ => .refl _)))
  exact loadSegments_stricter _ _ _ _

end Source

/-! ## Regular files -/

theorem load_shift (m : ByteMem.Mem) (off a n : Nat) :
    load (fun i => m (off + i)) a n = load m (off + a) n := by
  induction n generalizing a with
  | zero => rfl
  | succ n ih => simp only [load, ih, add_assoc]

theorem copy_shift (m : ByteMem.Mem) (dst : Nat) (f : ByteMem.Mem) (off n : Nat) :
    copy m dst (fun i => f (off + i)) 0 n = copy m dst f off n := by
  funext x
  simp only [copy, zero_add]

/-- `readi` on a regular file or a directory. -/
def Source.ofContent (ip : Content) (stale : ByteMem.Mem) : Source where
  readi _ off n := ip.readi off n
  bytes _ off i := ip.data (off + i)
  stale := stale
  readi_ge _ off n := by
    unfold Content.readi
    split
    · decide
    · split <;> omega
  readi_le _ off n := by
    have := ip.toNat_readi_le off n
    omega

namespace Source

variable {ip : Content} {stale : ByteMem.Mem} {d : Nat}

theorem readi_ofContent (c : Call) (off n : Nat) :
    (ofContent ip stale).readi c off n = ip.readi off n := rfl

theorem memmove_ofContent (c : Call) (dst off n : Nat) :
    memmove dst ((ofContent ip stale).bytes c off) 0 n = memmove dst ip.data off n := by
  unfold memmove
  simp only [ofContent, copy_shift]

theorem proghdr_ofContent (i off : Nat) :
    (ofContent ip stale).proghdr i off = Mem.proghdr ip off := by
  simp only [proghdr, proghdrOf, ofContent, Mem.proghdr, load_shift, zero_add, add_zero]

theorem readi_header {n : Nat} (hn : n < 2 ^ 32) (h : ¬ toU32 (ip.readi 0 n) < n) :
    ip.readi 0 n = n := by
  unfold Content.readi at h ⊢
  rw [u32_of_lt (by omega)] at h ⊢
  rw [if_neg (by omega)] at h ⊢
  split at h
  · next hs =>
    rw [toU32_ofNat (by omega)] at h
    omega
  · next hs => rw [if_neg hs]

theorem elfhdr_ofContent (h : ip.readi 0 ELFHDR = ELFHDR) :
    (ofContent ip stale).elfhdr = Mem.elfhdr ip := by
  have hload : ∀ a n, a + n ≤ 52 → load (fun a => if a < ((ELFHDR : Nat) : Int).toNat
      then ip.data (0 + a) else stale a) a n = load ip.data a n := by
    intro a n hle
    refine load_congr fun x _ hx => ?_
    rw [if_pos (by simp only [ELFHDR]; omega), zero_add]
  have hr : (ofContent ip stale).readi .elf 0 ELFHDR = ELFHDR := h
  unfold elfhdr elfhdrOf Mem.elfhdr
  rw [hr]
  dsimp only [ofContent]
  rw [hload 0 4 (by decide), hload 24 4 (by decide), hload 28 4 (by decide), hload 44 2 (by decide)]

theorem loadFrom_ofContent {addr seg offset sz : Nat} (k : Nat) : ∀ i,
    (ofContent ip stale).loadFrom false d addr seg offset sz k i =
      Mem.loadFrom d addr ip offset sz k i := by
  induction k with
  | zero => exact fun i => rfl
  | succ k ih =>
    intro i
    simp only [loadFrom, demand_false, pure_bind, readi_ofContent, memmove_ofContent, ih]
    rfl

theorem loadSegments_ofContent (n : Nat) : ∀ i off sz,
    (ofContent ip stale).loadSegments L false d n i off sz =
      Mem.loadSegments L d ip n off sz := by
  induction n with
  | zero => exact fun i off sz => rfl
  | succ n ih =>
    intro i off sz
    simp only [loadSegments, Mem.loadSegments, demand_false, pure_bind]
    simp only [ih, loaduvm, Mem.loaduvm, loadFrom_ofContent, proghdr_ofContent, readi_ofContent]

/-- Without the flag, on a regular file: the `exec` of before. -/
theorem buildImage_ofContent (argv : List CStr) :
    (ofContent ip stale).buildImage L false argv = Mem.buildImage L ip argv := by
  unfold buildImage Mem.buildImage
  by_cases hr : toU32 (ip.readi 0 ELFHDR) < ELFHDR
  · have hr' : toU32 ((ofContent ip stale).readi .elf 0 ELFHDR) < ELFHDR := hr
    rw [if_pos hr, if_pos hr']
  · have hr' : ¬ toU32 ((ofContent ip stale).readi .elf 0 ELFHDR) < ELFHDR := hr
    rw [if_neg hr, if_neg hr', elfhdr_ofContent (readi_header (by decide) hr)]
    unfold fillImage
    rw [elfhdr_ofContent (readi_header (by decide) hr)]
    simp only [loadSegments_ofContent, demand_false, pure_bind]
    rfl

end Source

end Xv6.Mem
