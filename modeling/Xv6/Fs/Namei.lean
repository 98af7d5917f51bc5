import Mathlib.Data.List.DropRight
import Xv6.Fs.DirFull

/-! # Path names

    `namex` walks a path: it takes one element after the other with `skipelem`, locks the inode
    reached so far, looks the element up and drops the inode. In parent mode it stops one level
    early.

    - `namei_eq`, `nameiparent_eq`: `namei` is the fold of one lookup over the components,
      and `nameiparent` the fold over all but the last
    - `resolve_walk`: on a sound tree the fold returns what the directories say
      and leaves the disk and the other references alone
-/

namespace Xv6.Fs

open Program Script ByteMem Function List

/-! ## The functions -/

section Functions

variable (sb : Superblock) (dv : Devsw)

theorem skipelem_length {path rest : List UInt8} {name name' : Mem}
    (h : skipelem path name = some (rest, name')) : rest.length < path.length := by
  obtain ⟨s, tl, hs, hne, -, -, rfl, -⟩ := skipelem_spec h
  have h1 := (dropWhile_sublist (· = SLASH) (l := path)).length_le
  have h2 := (dropWhile_sublist (· = SLASH) (l := tl)).length_le
  have h3 := length_pos_iff.mpr hne
  rw [hs, length_append] at h1
  omega

/-- The loop of `namex`, with the array `name` at the end. -/
def namexFrom (parent : Bool) (ip : Nat) (path : List UInt8) (name : Mem) :
    KS (Option Nat × Mem) :=
  match _h : skipelem path name with
  | none =>
      if parent then do
        iput sb ip
        return (none, name)
      else return (some ip, name)
  | some (path', name') => do
      let dp ← ilock sb ip
      if dp.type ≠ T_DIR then do
        iput sb ip
        return (none, name')
      -- stop one level early
      else if parent ∧ path' = [] then return (some ip, name')
      else do
        let r ← dirlookup sb dv ip name'
        match r with
        | none => do
            iput sb ip
            return (none, name')
        | some (next, _) => do
            iput sb ip
            namexFrom parent next path' name'
termination_by path.length
decreasing_by exact skipelem_length _h

/-- The path is absolute. -/
def Absolute (path : List UInt8) : Prop := path.head? = some SLASH

instance (path : List UInt8) : Decidable (Absolute path) :=
  inferInstanceAs (Decidable (_ = _))

/-- The inode where `namex` starts. -/
def startOf (cwd : Nat) (path : List UInt8) : Nat := if Absolute path then ROOTINO else cwd

/-- The reference to it that `namex` takes. -/
def enter (cwd : Nat) (path : List UInt8) : KS Unit :=
  if Absolute path then iget ROOTINO else idup cwd

def namex (cwd : Nat) (path : List UInt8) (parent : Bool) (name : Mem) :
    KS (Option Nat × Mem) := do
  enter cwd path
  namexFrom sb dv parent (startOf cwd path) path name

/-- `namei`; `name` is what its local array holds at the start. -/
def namei (name : Mem) (cwd : Nat) (path : List UInt8) : KS (Option Nat) := do
  let (ip, _) ← namex sb dv cwd path false name
  return ip

def nameiparent (cwd : Nat) (path : List UInt8) (name : Mem) : KS (Option Nat × Mem) :=
  namex sb dv cwd path true name

/-- `nameiparent`, with the string that it leaves in the array. -/
def parentAndName (cwd : Nat) (path : List UInt8) (name : Mem) :
    KS (Option (Nat × List UInt8)) := do
  let (dp, name) ← nameiparent sb dv cwd path name
  return dp.map fun dp => (dp, nameOf name)

/-! ## The fold -/

/-- One lookup: the inode is locked, searched if it is a directory, and dropped. -/
def lookupStep (i : Nat) (nm : List UInt8) : KS (Option Nat) := do
  let dp ← ilock sb i
  if dp.type ≠ T_DIR then do
    iput sb i
    return none
  else do
    let r ← dirlookup sb dv i (memOf nm)
    iput sb i
    return r.map Prod.fst

/-- The lookups of a list of names, from left to right. -/
def resolve : List (List UInt8) → Nat → KS (Option Nat)
  | [], i => return some i
  | nm :: nms, i => do
      let r ← lookupStep sb dv i nm
      match r with
      | none => return none
      | some j => resolve nms j

/-- The last inode must be a directory. -/
def checkDir (i : Nat) : KS (Option Nat) := do
  let dp ← ilock sb i
  if dp.type ≠ T_DIR then do
    iput sb i
    return none
  else return some i

/-- All names but the last are looked up. -/
def resolveParent (nms : List (List UInt8)) (i : Nat) : KS (Option Nat) :=
  if nms = [] then do
    iput sb i
    return none
  else do
    let r ← resolve sb dv nms.dropLast i
    match r with
    | none => return none
    | some dp => checkDir sb dp

end Functions

/-- The non-empty parts of a path between its slashes. -/
def components (path : List UInt8) : List (List UInt8) := (path.splitOn SLASH).filter (· ≠ [])

/-- The components, cut off after `DIRSIZ` bytes. -/
def elements (path : List UInt8) : List (List UInt8) := (components path).map (·.take DIRSIZ)

/-! ## Components -/

section Components

variable {path rest l : List UInt8} {name name' : Mem}

theorem components_join (p q : List UInt8) :
    components (p ++ SLASH :: q) = components p ++ components q := by
  unfold components
  rw [splitOn_append_cons_self, filter_append]

theorem components_slash : components (SLASH :: path) = components path :=
  components_join [] path

theorem components_dropWhile (path : List UInt8) :
    components (path.dropWhile (· = SLASH)) = components path := by
  induction path with
  | nil => rfl
  | cons a path ih =>
    by_cases ha : a = SLASH
    · rw [dropWhile_cons, if_pos (by simpa using ha), ih, ha, components_slash]
    · rw [dropWhile_cons, if_neg (by simpa using ha)]

theorem components_single (hl : ∀ x ∈ l, x ≠ SLASH) (hne : l ≠ []) : components l = [l] := by
  unfold components
  rw [splitOn_eq_singleton fun hx => hl _ hx rfl]
  simp [hne]

/-- A part without slashes, up to the end of the path or the next slash. -/
theorem components_append (hl : ∀ x ∈ l, x ≠ SLASH) (hne : l ≠ [])
    (hrest : rest = [] ∨ ∃ r, rest = SLASH :: r) :
    components (l ++ rest) = l :: components rest := by
  rcases hrest with rfl | ⟨r, rfl⟩
  · rw [append_nil, components_single hl hne]
    rfl
  · rw [components_join, components_single hl hne, components_slash]
    rfl

theorem skipelem_none (h : skipelem path name = none) : components path = [] := by
  unfold skipelem at h
  dsimp only at h
  by_cases hnil : path.dropWhile (· = SLASH) = []
  · rw [← components_dropWhile, hnil]
    rfl
  · rw [if_neg hnil] at h
    cases h

theorem skipelem_some (h : skipelem path name = some (rest, name')) :
    ∃ s, components path = s :: components rest ∧ rest.dropWhile (· = SLASH) = rest ∧
      ((∀ x ∈ path, x ≠ 0) → nameOf name' = s.take DIRSIZ) := by
  obtain ⟨s, tl, hs, hne, hslash, htl, rfl, hname⟩ := skipelem_spec h
  refine ⟨s, ?_, dropWhile_idempotent .., fun hpath => hname fun x hx => hpath x ?_⟩
  · rw [components_dropWhile, ← components_dropWhile path, hs, components_append hslash hne htl]
  · exact (dropWhile_sublist _).subset (hs ▸ mem_append_left _ hx)

theorem skipelem_rest (h : skipelem path name = some (rest, name')) :
    rest = [] ↔ components rest = [] := by
  constructor
  · intro hr
    rw [hr]
    rfl
  · intro hc
    by_contra hne
    obtain ⟨-, -, hdrop, -⟩ := skipelem_some h
    have hsome : skipelem rest name ≠ none := by
      unfold skipelem
      dsimp only
      rw [hdrop, if_neg hne]
      simp
    obtain ⟨⟨rest', name''⟩, hs⟩ := Option.ne_none_iff_exists'.mp hsome
    obtain ⟨s, hsplit, -⟩ := skipelem_some hs
    cases hsplit.symm.trans hc

end Components

/-! ## `namex` is the fold -/

section Fold

variable {sb : Superblock} {dv : Devsw} {path rest : List UInt8} {name name' : Mem}

theorem lookupFrom_congr (h : nameOf name = nameOf name') (k : Nat) :
    ∀ dp off, lookupFrom sb dv name k dp off = lookupFrom sb dv name' k dp off := by
  have hcmp : ∀ m, namecmp name m = 0 ↔ namecmp name' m = 0 := by
    intro m
    rw [namecmp_eq_zero, namecmp_eq_zero, h]
  induction k with
  | zero =>
    intro dp off
    rfl
  | succ k ih =>
    intro dp off
    simp only [lookupFrom, hcmp, ih]

/-- The lookup depends on the string in the array only. -/
theorem dirlookup_congr (h : nameOf name = nameOf name') (i : Nat) :
    dirlookup sb dv i name = dirlookup sb dv i name' := by
  unfold dirlookup lookupEntry
  simp only [lookupFrom_congr h]

theorem cstr_memOf {l : List UInt8} (hl : ∀ x ∈ l, x ≠ 0) (n : Nat) :
    ∀ i, cstr (memOf l) n i = (l.drop i).take n := by
  induction n with
  | zero => intro i; rw [cstr, take_zero]
  | succ n ih =>
    intro i
    rw [cstr]
    by_cases hi : i < l.length
    · have hget : memOf l i = l.get ⟨i, hi⟩ := getD_eq_getElem _ _ hi
      rw [hget, if_neg (hl _ (l.get_mem _)), ih, drop_eq_getElem_cons hi, take_succ_cons]
      rfl
    · have hget : memOf l i = 0 := getD_eq_default _ _ (by omega)
      rw [hget, if_pos rfl, drop_eq_nil_of_le (by omega), take_nil]

theorem nameOf_memOf_nameOf (m : Mem) : nameOf (memOf (nameOf m)) = nameOf m := by
  have hne : ∀ n i, ∀ x ∈ cstr m n i, x ≠ 0 := by
    intro n
    induction n with
    | zero => intro i x hx; cases hx
    | succ n ih =>
      intro i x hx
      rw [cstr] at hx
      split at hx
      · cases hx
      · next h0 =>
        rcases mem_cons.mp hx with rfl | hx
        · exact h0
        · exact ih _ x hx
  show cstr (memOf (nameOf m)) DIRSIZ 0 = nameOf m
  rw [cstr_memOf (l := nameOf m) (hne DIRSIZ 0), drop_zero]
  exact take_of_length_le (length_cstr_le ..)

theorem dirlookup_name (i : Nat) (name : Mem) :
    dirlookup sb dv i name = dirlookup sb dv i (memOf (nameOf name)) :=
  dirlookup_congr (nameOf_memOf_nameOf name).symm i

theorem elements_of_skipelem (hpath : ∀ x ∈ path, x ≠ 0)
    (h : skipelem path name = some (rest, name')) :
    elements path = nameOf name' :: elements rest := by
  obtain ⟨s, hsplit, -, hname⟩ := skipelem_some h
  unfold elements
  rw [hsplit, map_cons, hname hpath]

theorem skipelem_subset (h : skipelem path name = some (rest, name')) : ∀ x ∈ rest, x ∈ path := by
  obtain ⟨s, tl, hs, -, -, -, rfl, -⟩ := skipelem_spec h
  intro x hx
  exact (dropWhile_sublist _).subset (hs ▸ mem_append_right s ((dropWhile_sublist _).subset hx))

theorem elements_eq_nil : elements path = [] ↔ components path = [] := map_eq_nil_iff

theorem namexFrom_fold (hpath : ∀ x ∈ path, x ≠ 0) (ip : Nat) (name : Mem) :
    (do let r ← namexFrom sb dv false ip path name; return r.1) =
      resolve sb dv (elements path) ip := by
  induction hn : path.length using Nat.strong_induction_on generalizing path ip name with
  | _ n ih =>
    rw [namexFrom]
    split
    · next hs =>
      rw [elements_eq_nil.mpr (skipelem_none hs)]
      rfl
    · next rest name' hs =>
      rw [elements_of_skipelem hpath hs]
      unfold resolve lookupStep
      simp only [bind_assoc]
      congr 1
      funext dp
      by_cases ht : dp.type ≠ T_DIR
      · simp only [if_pos ht, bind_assoc, pure_bind]
      · have hnot : ¬ (false = true ∧ rest = []) := fun hc => Bool.false_ne_true hc.1
        simp only [if_neg ht, if_neg hnot, bind_assoc, pure_bind]
        rw [dirlookup_name]
        congr 1
        funext r
        cases r with
        | none => simp only [bind_assoc, pure_bind, Option.map_none]
        | some r =>
          simp only [bind_assoc, Option.map_some]
          congr 1
          funext u
          exact ih _ (hn ▸ skipelem_length hs)
            (fun x hx => hpath x (skipelem_subset hs x hx)) r.1 name' rfl

theorem resolveParent_cons (nm : List UInt8) {nms : List (List UInt8)} (hne : nms ≠ []) (i : Nat) :
    resolveParent sb dv (nm :: nms) i = (do
      let r ← lookupStep sb dv i nm
      match r with
      | none => return none
      | some j => resolveParent sb dv nms j) := by
  unfold resolveParent
  rw [if_neg (cons_ne_nil nm nms), dropLast_cons_of_ne_nil hne]
  simp only [resolve, if_neg hne, bind_assoc]
  congr 1
  funext r
  cases r with
  | none => simp only [pure_bind]
  | some j => rfl

/-- In parent mode the loop stops before the last element, which is in `name`. -/
theorem namexFrom_parent (hpath : ∀ x ∈ path, x ≠ 0) (ip : Nat) (name : Mem) :
    (do let r ← namexFrom sb dv true ip path name; return r.1.map fun dp => (dp, nameOf r.2)) =
      (do let r ← resolveParent sb dv (elements path) ip
          return r.map fun dp => (dp, (elements path).getLastD [])) := by
  induction hn : path.length using Nat.strong_induction_on generalizing path ip name with
  | _ n ih =>
    rw [namexFrom]
    split
    · next hs =>
      rw [elements_eq_nil.mpr (skipelem_none hs)]
      unfold resolveParent
      simp only [if_true, bind_assoc, pure_bind, Option.map_none]
    · next rest name' hs =>
      rw [elements_of_skipelem hpath hs]
      by_cases hlast : rest = []
      · -- the last element
        have hnil : elements rest = [] := by
          rw [hlast]
          rfl
        have hpar : resolveParent sb dv [nameOf name'] ip = checkDir sb ip := by
          unfold resolveParent
          rw [if_neg (cons_ne_nil _ _)]
          show (pure (some ip) >>= _) = _
          rw [pure_bind]
        rw [hnil, hpar]
        unfold checkDir
        simp only [bind_assoc]
        congr 1
        funext dp
        by_cases ht : dp.type ≠ T_DIR
        · simp only [if_pos ht, bind_assoc, pure_bind, Option.map_none]
        · simp only [if_neg ht, hlast, and_self, if_true, pure_bind, Option.map_some]
          rfl
      · have hne : elements rest ≠ [] := by
          intro hc
          exact hlast ((skipelem_rest hs).mpr (elements_eq_nil.mp hc))
        have hlastD : (nameOf name' :: elements rest).getLastD [] =
            (elements rest).getLastD [] := by
          obtain ⟨a, as, has⟩ := exists_cons_of_ne_nil hne
          rw [has]
          rfl
        rw [resolveParent_cons _ hne, hlastD]
        unfold lookupStep
        simp only [bind_assoc]
        congr 1
        funext dp
        by_cases ht : dp.type ≠ T_DIR
        · simp only [if_pos ht, bind_assoc, pure_bind, Option.map_none]
        · simp only [if_neg ht, hlast, and_false, if_false, bind_assoc]
          rw [dirlookup_name]
          congr 1
          funext r
          cases r with
          | none => simp only [bind_assoc, pure_bind, Option.map_none]
          | some r =>
            simp only [bind_assoc, pure_bind, Option.map_some]
            congr 1
            funext u
            exact ih _ (hn ▸ skipelem_length hs)
              (fun x hx => hpath x (skipelem_subset hs x hx)) r.1 name' rfl

theorem resolve_append (nms nms' : List (List UInt8)) (i : Nat) :
    resolve sb dv (nms ++ nms') i = (do
      let r ← resolve sb dv nms i
      match r with
      | none => return none
      | some j => resolve sb dv nms' j) := by
  induction nms generalizing i with
  | nil => rfl
  | cons nm nms ih =>
    rw [cons_append, resolve, resolve]
    simp only [bind_assoc]
    congr 1
    funext r
    cases r with
    | none => simp only [pure_bind]
    | some j => exact ih j

theorem resolve_single (nm : List UInt8) (i : Nat) :
    resolve sb dv [nm] i = lookupStep sb dv i nm := by
  rw [resolve]
  conv_rhs => rw [← bind_pure (lookupStep sb dv i nm)]
  congr 1
  funext r
  cases r with
  | none => rfl
  | some j => rfl

end Fold

/-! ## Running the fold -/

section Run

variable {sb : Superblock} {st st' : Store} {i : Nat}

theorem ilock_again {ip : Inode} (h : Ends (ilock sb i) st ip st') :
    Ends (ilock sb i) st' ip st' := by
  have h' : ilock sb i st = .ok (ip, st') := h
  show ilock sb i st' = _
  unfold ilock at h' ⊢
  split at h'
  · cases h'
  · next hr =>
    split at h'
    · next d hd =>
      cases h'
      rw [if_neg hr, hd]
    · split at h'
      · cases h'
      · cases h'
        refine (if_neg hr).trans ?_
        rw [Store.set_mem_self]
        rfl

end Run

section Agree

variable {sb : Superblock} {dv : Devsw} {path path' : List UInt8} {name name' : Mem} {cwd dp : Nat}
  {st st₁ : Store}

theorem namei_eq (hpath : ∀ x ∈ path, x ≠ 0) :
    namei sb dv name cwd path = (do
      enter cwd path
      resolve sb dv (elements path) (startOf cwd path)) := by
  unfold namei namex
  simp only [bind_assoc]
  congr 1
  funext u
  exact namexFrom_fold hpath (startOf cwd path) name

theorem nameiparent_eq (hpath : ∀ x ∈ path, x ≠ 0) :
    parentAndName sb dv cwd path name = (do
      enter cwd path
      let r ← resolveParent sb dv (elements path) (startOf cwd path)
      return r.map fun dp => (dp, (elements path).getLastD [])) := by
  unfold parentAndName nameiparent namex
  simp only [bind_assoc]
  congr 1
  funext u
  exact namexFrom_parent hpath (startOf cwd path) name

/-- Where `nameiparent` ends, `namei` goes on with one lookup. -/
theorem namei_of_nameiparent {nm : List UInt8} (hpath : ∀ x ∈ path, x ≠ 0)
    (h : Ends (parentAndName sb dv cwd path name) st (some (dp, nm)) st₁) :
    (namei sb dv name cwd path).run st = (lookupStep sb dv dp nm).run st₁ := by
  rw [nameiparent_eq hpath] at h
  rw [namei_eq hpath]
  obtain ⟨u, st2, henter, h⟩ := ends_bind.mp h
  rw [run_bind_of_ends henter]
  obtain ⟨r, st3, hpar, h⟩ := ends_bind.mp h
  obtain ⟨hr, rfl⟩ := ends_pure.mp h
  obtain ⟨dp', rfl, hdp⟩ := Option.map_eq_some_iff.mp hr
  cases hdp
  unfold resolveParent at hpar
  by_cases hnil : elements path = []
  · rw [if_pos hnil] at hpar
    obtain ⟨_, _, -, hc⟩ := ends_bind.mp hpar
    cases (ends_pure.mp hc).1
  rw [if_neg hnil] at hpar
  obtain ⟨r, st4, hinit, hlast⟩ := ends_bind.mp hpar
  have hsplit : elements path = (elements path).dropLast ++ [(elements path).getLastD []] := by
    rw [getLastD_eq_getLast?, getLast?_eq_getLast_of_ne_nil hnil]
    exact (dropLast_append_getLast hnil).symm
  cases r with
  | none => cases (ends_pure.mp hlast).1
  | some j =>
    conv_lhs => rw [hsplit]
    rw [resolve_append, run_bind_of_ends hinit]
    show (resolve sb dv [(elements path).getLastD []] j).run st4 = _
    rw [resolve_single]
    -- the parent is locked once more
    obtain ⟨ip, st5, hlock, hcheck⟩ := ends_bind.mp hlast
    by_cases ht : ip.type ≠ T_DIR
    · rw [if_pos ht] at hcheck
      obtain ⟨_, _, -, hc⟩ := ends_bind.mp hcheck
      cases (ends_pure.mp hc).1
    · rw [if_neg ht] at hcheck
      obtain ⟨hj, rfl⟩ := ends_pure.mp hcheck
      cases hj
      unfold lookupStep
      rw [run_bind_of_ends hlock, run_bind_of_ends (ilock_again hlock)]

end Agree

/-! ## Sound trees -/

/-- The entries of the directories name inodes that are in use. -/
structure Tree (sb : Superblock) (s : Disk) : Prop where
  sound : Sound sb s
  whole : ∀ i < sb.ninodes, (s.dinode sb i).type = T_DIR → DIRENT ∣ (s.dinode sb i).size
  live  : ∀ i < sb.ninodes, (s.dinode sb i).type = T_DIR → ∀ nm j, s.dirMap sb i nm = some j →
    j < sb.ninodes ∧ (s.dinode sb j).type ≠ 0 ∧ (s.dinode sb j).nlink ≠ 0

/-- The inode that a list of names leads to. -/
def Disk.walk (sb : Superblock) (s : Disk) : List (List UInt8) → Nat → Option Nat
  | [], i => some i
  | nm :: nms, i =>
      if (s.dinode sb i).type = T_DIR then (s.dirMap sb i nm).bind (s.walk sb nms) else none

/-- The parent that they lead to. -/
def Disk.walkParent (sb : Superblock) (s : Disk) (nms : List (List UInt8)) (i : Nat) : Option Nat :=
  if nms = [] then none
  else (s.walk sb nms.dropLast i).filter fun dp => (s.dinode sb dp).type = T_DIR

/-- Valid slots hold what is on disk. -/
def Store.Synced (sb : Superblock) (st : Store) : Prop :=
  st.Slots fun i d => d = st.disk.dinode sb i

/-- The references are those of `base` and one to the inode, if there is one. -/
def Store.Holds (st : Store) (base : Multiset Nat) : Option Nat → Prop
  | none => st.refs = base
  | some i => st.refs = i ::ₘ base

section Walk

variable {sb : Superblock} {dv : Devsw} {st st' : Store} {i j : Nat} {base : Multiset Nat}
  {path : List UInt8} {nms : List (List UInt8)}

theorem Store.Holds.drop (h : st.Holds base (some i)) : (st.drop i).Holds base none := by
  show st.refs.erase i = base
  rw [show st.refs = i ::ₘ base from h, Multiset.erase_cons_head]

theorem Store.Synced.ilock (h : st.Synced sb) (hr : i ∈ st.refs)
    (ht : (st.disk.dinode sb i).type ≠ 0) :
    ∃ st', Ends (Fs.ilock sb i) st (st.disk.inode sb i) st' ∧ st'.disk = st.disk ∧
      st'.refs = st.refs ∧ st'.Synced sb ∧ st'.mem i = some (st'.disk.dinode sb i) := by
  show ∃ st', Fs.ilock sb i st = _ ∧ _
  unfold Fs.ilock
  rw [if_neg (not_not.mpr hr)]
  cases hm : st.mem i with
  | some d =>
    obtain rfl := h i hr d hm
    exact ⟨st, rfl, rfl, rfl, h, hm⟩
  | none =>
    dsimp only
    rw [if_neg ht]
    refine ⟨_, rfl, rfl, rfl, ?_, Store.set_mem_self ..⟩
    exact Store.Slots.set h (fun _ _ _ _ hd => hd) fun d hd => (Option.some.inj hd).symm

/-- Dropping a reference that is not the last one to an unlinked inode. -/
theorem Store.Synced.iput (h : st.Synced sb) (hholds : i ∈ st.refs)
    (hkeep : (st.disk.dinode sb i).nlink ≠ 0 ∨ 1 < st.refs.count i) :
    Ends (Fs.iput sb i) st () (st.drop i) := by
  refine iput_ends fun hc d hd => ?_
  rw [h i hholds d hd]
  exact hkeep.resolve_right (by omega)

/-- One step, from what the search finds if the inode is a directory. -/
theorem Store.Synced.lookupStep (h : st.Synced sb) (hholds : st.Holds base (some i))
    (hslots : base.toFinset.card + 2 ≤ NINODE) (ht : (st.disk.dinode sb i).type ≠ 0)
    (hkeep : (st.disk.dinode sb i).nlink ≠ 0 ∨ i ∈ base) (dv : Devsw) (nm : List UInt8)
    (r : Option Nat)
    (hdir : (st.disk.dinode sb i).type = T_DIR → ∃ r', r'.map Prod.fst = r ∧
      Does (lookupEntry sb dv (memOf nm) (st.disk.inode sb i)) st.disk (r', st.disk.inode sb i)
        st.disk)
    (hnot : (st.disk.dinode sb i).type ≠ T_DIR → r = none) :
    ∃ st', Ends (Fs.lookupStep sb dv i nm) st r st' ∧ st'.disk = st.disk ∧ st'.Synced sb ∧
      st'.Holds base r := by
  have hrefs : st.refs = i ::ₘ base := hholds
  have hr : i ∈ st.refs := hrefs ▸ Multiset.mem_cons_self i base
  obtain ⟨st₁, hlock, hdisk, hrefs₁, hsync, hm⟩ := h.ilock hr ht
  have hcount : (st.disk.dinode sb i).nlink ≠ 0 ∨ 1 < st₁.refs.count i := by
    rw [hrefs₁, hrefs, Multiset.count_cons_self]
    exact hkeep.imp_right fun hi => by
      have := Multiset.count_pos.mpr hi
      omega
  unfold Fs.lookupStep Ends
  rw [run_bind_of_ends hlock]
  by_cases hd : (st.disk.dinode sb i).type = T_DIR
  · rw [if_neg (not_not.mpr (show (st.disk.inode sb i).type = T_DIR from hd))]
    obtain ⟨r', hr', hlook⟩ := hdir hd
    rw [← hdisk] at hlook hcount
    cases r' with
    | none =>
      obtain rfl : none = r := hr'
      refine ⟨st₁.drop i, ?_, hdisk, hsync.drop i, ?_⟩
      · rw [run_bind_of_ends (dirlookup_of_none hm hlook),
          run_bind_of_ends (hsync.iput (hrefs₁ ▸ hr) hcount)]
        rfl
      · exact Store.Holds.drop (hrefs₁.trans hrefs)
    | some p =>
      obtain rfl : some p.1 = r := hr'
      have hslot : st₁.HasSlot p.1 := by
        refine .inr ?_
        have := Finset.card_insert_le i base.toFinset
        rw [hrefs₁, hrefs, Multiset.toFinset_cons]
        omega
      have hfind := dirlookup_of_some hm hlook
      rw [if_pos hslot] at hfind
      have hput := Store.Synced.iput (i := i) (hsync.got p.1)
        (Multiset.mem_cons_of_mem (hrefs₁ ▸ hr))
        (hcount.imp_right fun hc => hc.trans_le (Multiset.count_le_count_cons ..))
      refine ⟨(st₁.got p.1).drop i, ?_, hdisk, (hsync.got p.1).drop i, ?_⟩
      · rw [run_bind_of_ends hfind, run_bind_of_ends hput]
        rfl
      · show (p.1 ::ₘ st₁.refs).erase i = _
        rw [hrefs₁, hrefs, Multiset.cons_swap, Multiset.erase_cons_head]
  · rw [if_pos (show (st.disk.inode sb i).type ≠ T_DIR from hd)]
    obtain rfl := hnot hd
    rw [← hdisk] at hcount
    refine ⟨st₁.drop i, ?_, hdisk, hsync.drop i, ?_⟩
    · rw [run_bind_of_ends (hsync.iput (hrefs₁ ▸ hr) hcount)]
      rfl
    · exact Store.Holds.drop (hrefs₁.trans hrefs)

theorem Tree.isDir (h : Tree sb st.disk) (hi : i < sb.ninodes)
    (hd : (st.disk.dinode sb i).type = T_DIR) :
    IsDir sb st.disk i ((st.disk.dinode sb i).size / DIRENT) where
  sound := h.sound
  lt := hi
  type := hd
  size := (Nat.mul_div_cancel' (h.whole i hi hd)).symm

theorem Tree.lookupEntry (h : Tree sb st.disk) (hi : i < sb.ninodes)
    (hd : (st.disk.dinode sb i).type = T_DIR) {nm : List UInt8} (hnm : nameOf (memOf nm) = nm)
    (dv : Devsw) : ∃ r', r'.map Prod.fst = st.disk.dirMap sb i nm ∧
      Does (Fs.lookupEntry sb dv (memOf nm) (st.disk.inode sb i)) st.disk
        (r', st.disk.inode sb i) st.disk := by
  obtain ⟨r', he, hr'⟩ := (h.isDir hi hd).lookup_map dv (memOf nm)
  rw [hnm] at hr'
  exact ⟨r', hr', he⟩

/-- On a sound tree the fold ends where the directories lead to. It gives back every reference but
    the one to the result. -/
theorem resolve_walk (dv : Devsw) (hnms : ∀ nm ∈ nms, nameOf (memOf nm) = nm)
    (hslots : base.toFinset.card + 2 ≤ NINODE) :
    ∀ {st : Store} {i : Nat}, Tree sb st.disk → st.Synced sb → st.Holds base (some i) →
      i < sb.ninodes → (st.disk.dinode sb i).type ≠ 0 →
      ((st.disk.dinode sb i).nlink ≠ 0 ∨ i ∈ base) →
      ∃ st', Ends (resolve sb dv nms i) st (st.disk.walk sb nms i) st' ∧ st'.disk = st.disk ∧
        st'.Synced sb ∧ st'.Holds base (st.disk.walk sb nms i) := by
  induction nms with
  | nil =>
    intro st i _ hsync hholds _ _ _
    exact ⟨st, rfl, rfl, hsync, hholds⟩
  | cons nm nms ih =>
    intro st i htree hsync hholds hi ht hlink
    obtain ⟨st₁, hstep, hdisk, hsync₁, hholds₁⟩ := hsync.lookupStep hholds hslots ht hlink dv nm
      (if (st.disk.dinode sb i).type = T_DIR then st.disk.dirMap sb i nm else none)
      (fun hd => by rw [if_pos hd]; exact htree.lookupEntry hi hd (hnms nm (by simp)) dv)
      (fun hd => if_neg hd)
    unfold Ends resolve Disk.walk
    rw [run_bind_of_ends hstep]
    by_cases hd : (st.disk.dinode sb i).type = T_DIR
    · rw [if_pos hd] at hholds₁ ⊢
      rw [if_pos hd]
      cases hmap : st.disk.dirMap sb i nm with
      | none =>
        rw [hmap] at hholds₁
        exact ⟨st₁, rfl, hdisk, hsync₁, hholds₁⟩
      | some j =>
        obtain ⟨hj, htj, hlj⟩ := htree.live i hi hd nm j hmap
        rw [hmap] at hholds₁
        rw [← hdisk] at htree htj hlj
        obtain ⟨st₂, hrest, hdisk₂, hsync₂, hholds₂⟩ :=
          ih (fun nm hm => hnms nm (mem_cons_of_mem _ hm)) htree hsync₁ hholds₁ hj htj (.inl hlj)
        rw [hdisk] at hrest hdisk₂ hholds₂
        exact ⟨st₂, hrest, hdisk₂, hsync₂, hholds₂⟩
    · rw [if_neg hd] at hholds₁ ⊢
      rw [if_neg hd]
      exact ⟨st₁, rfl, hdisk, hsync₁, hholds₁⟩

/-- The names lead to inodes in use. -/
theorem Tree.walk_live {s : Disk} (h : Tree sb s) (base : Multiset Nat) :
    ∀ {i : Nat}, i < sb.ninodes → (s.dinode sb i).type ≠ 0 →
      ((s.dinode sb i).nlink ≠ 0 ∨ i ∈ base) → s.walk sb nms i = some j →
      j < sb.ninodes ∧ (s.dinode sb j).type ≠ 0 ∧ ((s.dinode sb j).nlink ≠ 0 ∨ j ∈ base) := by
  induction nms with
  | nil =>
    intro i hi ht hlink hw
    cases hw
    exact ⟨hi, ht, hlink⟩
  | cons nm nms ih =>
    intro i hi ht hlink hw
    unfold Disk.walk at hw
    by_cases hd : (s.dinode sb i).type = T_DIR
    · rw [if_pos hd] at hw
      obtain ⟨m, hm, hw⟩ := Option.bind_eq_some_iff.mp hw
      obtain ⟨h1, h2, h3⟩ := h.live i hi hd nm m hm
      exact ih h1 h2 (.inl h3) hw
    · rw [if_neg hd] at hw
      cases hw

/-- The reference that a walk holds, if the inode has no other. -/
theorem Store.Holds.iput (h : st.Holds base (some i)) (hsync : st.Synced sb)
    (hlink : (st.disk.dinode sb i).nlink ≠ 0 ∨ i ∈ base) :
    Ends (Fs.iput sb i) st () (st.drop i) := by
  have hrefs : st.refs = i ::ₘ base := h
  refine hsync.iput (hrefs ▸ Multiset.mem_cons_self i base) (hlink.imp_right fun hi => ?_)
  have := Multiset.count_pos.mpr hi
  rw [hrefs, Multiset.count_cons_self]
  omega

theorem resolveParent_walk (dv : Devsw) (hnms : ∀ nm ∈ nms, nameOf (memOf nm) = nm)
    (hslots : base.toFinset.card + 2 ≤ NINODE)
    (htree : Tree sb st.disk) (hsync : st.Synced sb) (hholds : st.Holds base (some i))
    (hi : i < sb.ninodes) (ht : (st.disk.dinode sb i).type ≠ 0)
    (hlink : (st.disk.dinode sb i).nlink ≠ 0 ∨ i ∈ base) :
    ∃ st', Ends (resolveParent sb dv nms i) st (st.disk.walkParent sb nms i) st' ∧
      st'.disk = st.disk ∧ st'.Synced sb ∧ st'.Holds base (st.disk.walkParent sb nms i) := by
  unfold resolveParent Disk.walkParent Ends
  by_cases hnil : nms = []
  · rw [if_pos hnil, if_pos hnil]
    refine ⟨st.drop i, ?_, rfl, hsync.drop i, hholds.drop⟩
    rw [run_bind_of_ends (hholds.iput hsync hlink)]
    rfl
  rw [if_neg hnil, if_neg hnil]
  obtain ⟨st₁, hres, hdisk, hsync₁, hholds₁⟩ := resolve_walk dv
    (fun nm hm => hnms nm (mem_of_mem_dropLast hm)) hslots htree hsync hholds hi ht hlink
  rw [run_bind_of_ends hres]
  cases hw : st.disk.walk sb nms.dropLast i with
  | none =>
    rw [hw] at hholds₁
    exact ⟨st₁, rfl, hdisk, hsync₁, hholds₁⟩
  | some j =>
    rw [hw] at hholds₁
    obtain ⟨hj, htj, hlj⟩ := htree.walk_live base hi ht hlink hw
    have hrefs : st₁.refs = j ::ₘ base := hholds₁
    obtain ⟨st₂, hlock, hdisk₂, hrefs₂, hsync₂, -⟩ := hsync₁.ilock (i := j)
      (hrefs ▸ Multiset.mem_cons_self j base) (by rw [hdisk]; exact htj)
    rw [hdisk] at hlock hdisk₂
    have hholds₂ : st₂.Holds base (some j) := hrefs₂.trans hrefs
    show ∃ st', (checkDir sb j).run st₁ = _ ∧ _
    unfold checkDir
    rw [run_bind_of_ends hlock]
    by_cases hd : (st.disk.dinode sb j).type = T_DIR
    · rw [if_neg (not_not.mpr (show (st.disk.inode sb j).type = T_DIR from hd)),
        Option.filter_some_pos (by simpa using hd)]
      exact ⟨st₂, rfl, hdisk₂, hsync₂, hholds₂⟩
    · rw [if_pos (show (st.disk.inode sb j).type ≠ T_DIR from hd),
        Option.filter_some_neg (by simpa using hd)]
      rw [← hdisk₂] at hlj
      refine ⟨st₂.drop j, ?_, hdisk₂, hsync₂.drop j, hholds₂.drop⟩
      rw [run_bind_of_ends (hholds₂.iput hsync₂ hlj)]
      rfl

/-- The reference that `namex` takes at the start. -/
theorem Store.Synced.enter (h : st.Synced sb) {cwd : Nat} (hcwd : ¬ Absolute path → cwd ∈ st.refs)
    (hslots : st.refs.toFinset.card + 2 ≤ NINODE) :
    ∃ st', Ends (Fs.enter cwd path) st () st' ∧ st'.disk = st.disk ∧ st'.Synced sb ∧
      st'.Holds st.refs (some (startOf cwd path)) := by
  unfold Fs.enter startOf
  by_cases ha : Absolute path
  · rw [if_pos ha, if_pos ha]
    refine ⟨st.got ROOTINO, ?_, rfl, h.got ROOTINO, rfl⟩
    show iget ROOTINO st = _
    rw [iget_eq, if_pos (.inr (by omega))]
  · rw [if_neg ha, if_neg ha]
    refine ⟨_, ends_modify.mpr rfl, rfl, fun k hk d hd => ?_, rfl⟩
    exact h k ((Multiset.mem_cons.mp hk).elim (fun hc => hc ▸ hcwd ha) id) d hd

theorem elements_names (hpath : ∀ x ∈ path, x ≠ 0) :
    ∀ nm ∈ elements path, nameOf (memOf nm) = nm := by
  induction hn : path.length using Nat.strong_induction_on generalizing path with
  | _ n ih =>
    cases hs : skipelem path (fun _ => 0) with
    | none =>
      rw [elements_eq_nil.mpr (skipelem_none hs)]
      intro nm hnm
      cases hnm
    | some r =>
      rw [elements_of_skipelem hpath hs]
      intro nm hnm
      rcases mem_cons.mp hnm with rfl | hnm
      · exact nameOf_memOf_nameOf r.2
      · exact ih _ (hn ▸ skipelem_length hs)
          (fun x hx => hpath x (skipelem_subset hs x hx)) rfl nm hnm

end Walk

/-! ## Path resolution -/

section Resolution

variable {sb : Superblock} {dv : Devsw} {path path' : List UInt8} {name name' : Mem} {cwd : Nat}

/-- The result depends only on where the path starts and on its components. -/
theorem same_components (hpath : ∀ x ∈ path, x ≠ 0) (hpath' : ∀ x ∈ path', x ≠ 0)
    (ha : Absolute path' ↔ Absolute path) (hc : components path' = components path) :
    namei sb dv name' cwd path' = namei sb dv name cwd path ∧
    parentAndName sb dv cwd path' name' = parentAndName sb dv cwd path name := by
  have he : elements path' = elements path := by
    unfold elements
    rw [hc]
  have hstart : startOf cwd path' = startOf cwd path := by
    unfold startOf
    simp only [ha]
  have henter : enter cwd path' = enter cwd path := by
    unfold enter
    simp only [ha]
  rw [namei_eq hpath, namei_eq hpath', nameiparent_eq hpath, nameiparent_eq hpath', he, hstart,
    henter]
  exact ⟨rfl, rfl⟩

theorem absolute_append {p q : List UInt8} (hp : p ≠ []) : Absolute (p ++ q) ↔ Absolute p := by
  obtain ⟨a, as, rfl⟩ := exists_cons_of_ne_nil hp
  exact Iff.rfl

/-- A path starts at the same inode when one of its slashes is repeated. -/
theorem absolute_repeat (p q : List UInt8) :
    Absolute (p ++ SLASH :: SLASH :: q) ↔ Absolute (p ++ SLASH :: q) := by
  cases p <;> exact Iff.rfl

/-- `namei` is the fold of one lookup after the other over the elements of the path, and
    `nameiparent` over all but the last; the two agree, and slashes that are repeated or trail make
    no difference. On a sound tree, with two slots of the inode cache to spare, the fold returns
    what the directories say, changes no block and keeps one reference to the result. -/
theorem path_resolution (sb : Superblock) (dv : Devsw) (name : Mem) (cwd : Nat) (path : List UInt8)
    (hpath : ∀ x ∈ path, x ≠ 0) :
    (namei sb dv name cwd path = do
      enter cwd path
      resolve sb dv (elements path) (startOf cwd path)) ∧
    (parentAndName sb dv cwd path name = do
      enter cwd path
      let r ← resolveParent sb dv (elements path) (startOf cwd path)
      return r.map fun dp => (dp, (elements path).getLastD [])) ∧
    (∀ st st₁ dp nm, Ends (parentAndName sb dv cwd path name) st (some (dp, nm)) st₁ →
      (namei sb dv name cwd path).run st = (lookupStep sb dv dp nm).run st₁) ∧
    (∀ p q, path = p ++ SLASH :: q →
      namei sb dv name cwd (p ++ SLASH :: SLASH :: q) = namei sb dv name cwd path ∧
      parentAndName sb dv cwd (p ++ SLASH :: SLASH :: q) name = parentAndName sb dv cwd path name) ∧
    (path ≠ [] → namei sb dv name cwd (path ++ [SLASH]) = namei sb dv name cwd path ∧
      parentAndName sb dv cwd (path ++ [SLASH]) name = parentAndName sb dv cwd path name) ∧
    ∀ st, Tree sb st.disk → st.Synced sb → (¬ Absolute path → cwd ∈ st.refs) →
      st.refs.toFinset.card + 2 ≤ NINODE →
      startOf cwd path < sb.ninodes → (st.disk.dinode sb (startOf cwd path)).type ≠ 0 →
      ((st.disk.dinode sb (startOf cwd path)).nlink ≠ 0 ∨ startOf cwd path ∈ st.refs) →
      (∃ st', Ends (namei sb dv name cwd path) st
          (st.disk.walk sb (elements path) (startOf cwd path)) st' ∧ st'.disk = st.disk ∧
        st'.Holds st.refs (st.disk.walk sb (elements path) (startOf cwd path))) ∧
      ∃ st', Ends (parentAndName sb dv cwd path name) st
          ((st.disk.walkParent sb (elements path) (startOf cwd path)).map fun dp =>
            (dp, (elements path).getLastD [])) st' ∧ st'.disk = st.disk ∧
        st'.Holds st.refs (st.disk.walkParent sb (elements path) (startOf cwd path)) := by
  have hslash : SLASH ≠ 0 := by decide
  refine ⟨namei_eq hpath, nameiparent_eq hpath,
    fun st st₁ dp nm h => namei_of_nameiparent hpath h, ?_, ?_, ?_⟩
  · intro p q hpq
    refine same_components hpath (fun x hx => ?_) ?_ ?_
    · rcases mem_append.mp hx with hx | hx
      · exact hpath x (by rw [hpq]; exact mem_append_left _ hx)
      · rcases mem_cons.mp hx with rfl | hx
        · exact hslash
        · exact hpath x (by rw [hpq]; exact mem_append_right _ hx)
    · rw [hpq]
      exact absolute_repeat p q
    · rw [hpq, components_join, components_join, components_slash]
  · intro hne
    refine same_components hpath (fun x hx => ?_) (absolute_append hne) ?_
    · rcases mem_append.mp hx with hx | hx
      · exact hpath x hx
      · rw [mem_singleton.mp hx]
        exact hslash
    · rw [components_join]
      exact append_nil _
  · intro st htree hsync hcwd hslots hlt ht hlink
    obtain ⟨st₁, henter, hdisk, hsync₁, hholds⟩ := hsync.enter hcwd hslots
    rw [← hdisk] at htree ht hlink
    rw [namei_eq hpath, nameiparent_eq hpath]
    unfold Ends
    rw [run_bind_of_ends henter, run_bind_of_ends henter]
    constructor
    · obtain ⟨st₂, hres, hdisk₂, -, hholds₂⟩ := resolve_walk dv (elements_names hpath) hslots htree
        hsync₁ hholds hlt ht hlink
      rw [hdisk] at hres hdisk₂ hholds₂
      exact ⟨st₂, hres, hdisk₂, hholds₂⟩
    · obtain ⟨st₂, hres, hdisk₂, -, hholds₂⟩ := resolveParent_walk dv (elements_names hpath)
        hslots htree hsync₁ hholds hlt ht hlink
      rw [hdisk] at hres hdisk₂ hholds₂
      refine ⟨st₂, ?_, hdisk₂, hholds₂⟩
      rw [run_bind_of_ends hres]
      rfl

end Resolution

/-- The empty root directory gets its entry `.`. -/
theorem exists_rootTree : ∃ s, Tree mkfs s ∧ s.dirMap mkfs 1 [46] = some 1 ∧
    (s.dinode mkfs 1).type = T_DIR ∧ (s.dinode mkfs 1).nlink = 1 := by
  have hnone : emptyRoot.dirMap mkfs 1 = fun _ => none := by
    unfold Disk.dirMap
    rw [emptyRoot_dir.entries]
    rfl
  have hname : nameOf (memOf [46]) = [46] := by decide
  have hempty : (findEmpty (emptyRoot.content (emptyRoot.dinode mkfs 1)) 0 0).getD 0 = 0 := rfl
  have habsent : emptyRoot.dirMap mkfs 1 (nameOf (memOf [46])) = none := by rw [hnone]
  obtain ⟨-, s, m, he, hdir, -, hmap, -⟩ := (emptyRoot_dir.link_map mkfs_ok
    (fun _ _ _ hj => absurd hj (Nat.not_lt_zero _)) noDevices ⟨0, fun _ => 0⟩ (le_refl 1)
    (by decide) habsent).resolve_left fun hc => hc.1 emptyRoot_room
  have hw : ∃ x, WroteFile mkfs emptyRoot 1 x 0 (DIRENT * 0) DIRENT s := by
    rcases emptyRoot_dir.linkEntry_spec mkfs_ok noDevices ⟨0, fun _ => 0⟩ (memOf [46]) 1 hempty with
      ⟨hfull, -⟩ | ⟨-, -, hfail⟩ | ⟨-, x, s', he', hw, -⟩
    · exact absurd hfull (by decide)
    · exact absurd hfail he.not_fails
    · obtain ⟨-, rfl⟩ := he.unique he'
      exact ⟨_, hw⟩
  obtain ⟨x, hw⟩ := hw
  rw [hnone, hname] at hmap
  have hlink : (s.dinode mkfs 1).nlink = 1 := by
    rw [hw.same, emptyRoot_one]
    rfl
  -- there is no other directory
  have hone : ∀ i < mkfs.ninodes, (s.dinode mkfs i).type = T_DIR → i = 1 := by
    intro i hi ht
    by_contra h1
    rw [(hw.others i hi h1).1, emptyRoot_free hi h1] at ht
    cases ht
  refine ⟨s, ⟨hdir.sound, fun i hi ht => ?_, fun i hi ht nm j hj => ?_⟩, ?_, hdir.type, hlink⟩
  · obtain rfl := hone i hi ht
    rw [hdir.size]
    exact Nat.dvd_mul_right _ m
  · obtain rfl := hone i hi ht
    rw [hmap, update_apply] at hj
    split at hj
    · cases hj
      exact ⟨hi, hdir.type_ne, by rw [hlink]; decide⟩
    · cases hj
  · rw [hmap, update_self]

/-- The path `/.//.` leads from the root directory to the root directory. -/
theorem path_resolution_root : ∃ s : Disk,
    namei mkfs noDevices (fun _ => 0) 1 [47, 46, 47, 47, 46] = (do
      iget 1
      resolve mkfs noDevices [[46], [46]] 1) ∧
    (∃ st', Ends (namei mkfs noDevices (fun _ => 0) 1 [47, 46, 47, 47, 46]) ⟨s, 0, fun _ => none⟩
      (some 1) st' ∧ st'.disk = s ∧ st'.refs = {1}) ∧
    ∃ st', Ends (parentAndName mkfs noDevices 1 [47, 46, 47, 47, 46] fun _ => 0)
      ⟨s, 0, fun _ => none⟩ (some (1, [46])) st' ∧ st'.disk = s ∧ st'.refs = {1} := by
  obtain ⟨s, htree, hmap, htype, hlink⟩ := exists_rootTree
  have h := path_resolution mkfs noDevices (fun _ => 0) 1 [47, 46, 47, 47, 46] (by simp)
  have he : elements [47, 46, 47, 47, 46] = [[46], [46]] := by decide
  have hs : startOf 1 [47, 46, 47, 47, 46] = 1 := by decide
  have ha : Absolute [47, 46, 47, 47, 46] := by decide
  rw [he, hs] at h
  have hwalk : s.walk mkfs [[46], [46]] 1 = some 1 := by
    simp [Disk.walk, htype, hmap]
  have hparent : s.walkParent mkfs [[46], [46]] 1 = some 1 := by
    simp [Disk.walkParent, Disk.walk, htype, hmap]
  obtain ⟨h₁, h₂⟩ := h.2.2.2.2.2 ⟨s, 0, fun _ => none⟩ htree (fun i hi => by simp at hi)
    (fun hc => absurd ha hc) (show 0 + 2 ≤ NINODE by decide) (by decide) (by rw [htype]; decide)
    (.inl (by rw [hlink]; decide))
  refine ⟨s, h.1, ?_, ?_⟩
  · rw [hwalk] at h₁
    exact h₁
  · rw [hparent] at h₂
    exact h₂

end Xv6.Fs
