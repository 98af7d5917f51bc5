import Xv6.Sync.Locks

/-! # Deadlock of the process and inode layers

    `iunlock`, `iput` and the `sleep` of `ilock` take `ptable.lock` with `icache.lock` held. `fork`
    takes `icache.lock`, in `idup`, with `ptable.lock` held. These two are the only nestings in
    opposite order: two CPUs can deadlock (`fork_iunlock_deadlock`), and they cannot when `fork` is
    kept apart from the other three (`deadlock_free`).
-/

namespace Xv6.Sync

open LTS LockFlow Function Option

variable {C P : Type*} {w : List Act} {s s' : State C P} {c c' : C} {e : Event C P} {p : P}

/-! ## Statement -/

/-- CPU `c` holds `l`. -/
def State.Holds (s : State C P) (c : C) (l : Lock) : Prop := ∃ f, s.lock l = some (c, f)

/-- The next operation of CPU `c` is to acquire `l`. -/
def State.Wants (s : State C P) (c : C) (l : Lock) : Prop := ∃ f w, s.code c = .acq f l :: w

/-- A cycle of CPUs, each spinning on a lock that the next one holds. -/
def Deadlock (s : State C P) : Prop :=
  ∃ c, Relation.TransGen (WaitsFor s.Holds s.Wants) c c

/-- The functions that wake up or go to sleep with `icache.lock` held. -/
def wakes : Fn → Bool
  | .ilock | .sleep | .iunlock | .iput => true
  | _ => false

/-- The function that took `l`. -/
def State.user (s : State C P) (l : Lock) : Option Fn := (s.lock l).map Prod.snd

/-- `fork` enters its critical section only while no `ilock`, `iunlock` or
    `iput` is in its own, and the other way round. -/
def KeepsApart (s : State C P) : Act → Prop
  | .acq f l =>
      (f = .fork → l = .ptable → ∀ f' ∈ s.user .icache, wakes f' = false) ∧
      (wakes f = true → l = .icache → s.user .ptable ≠ some .fork)
  | _ => True

/-- The condition on the steps of a run. -/
def Apart (s : State C P) : Event C P → Prop
  | .exec c => ∀ a ∈ (s.code c).head?, KeepsApart s a
  | _ => True

instance (s : State C P) : DecidablePred (KeepsApart s)
  | .acq f l => inferInstanceAs (Decidable
      ((f = .fork → l = .ptable → ∀ f' ∈ s.user .icache, wakes f' = false) ∧
       (wakes f = true → l = .icache → s.user .ptable ≠ some .fork)))
  | .rel _ | .sched | .quit | .swtch => isTrue trivial

instance (s : State C P) : (e : Event C P) → Decidable (Apart s e)
  | .exec c => inferInstanceAs (Decidable (∀ a ∈ (s.code c).head?, KeepsApart s a))
  | .start _ _ | .intr _ _ | .swtch _ _ => isTrue trivial

/-! ## What is acquired while holding what -/

/-- The uses of the four locks, as far as the nesting tells them apart. -/
inductive Kind where
  /-- `ptable.lock` in `fork`. -/
  | forkTable
  /-- `ptable.lock` elsewhere. -/
  | table
  /-- `icache.lock` in a function of `wakes`. -/
  | waking
  /-- `icache.lock` elsewhere. -/
  | icache
  | ftable
  | kmem
  deriving DecidableEq

def Kind.lock : Kind → Lock
  | .forkTable | .table => .ptable
  | .waking | .icache => .icache
  | .ftable => .ftable
  | .kmem => .kmem

def kind (f : Fn) : Lock → Kind
  | .ptable => if f = .fork then .forkTable else .table
  | .icache => if wakes f then .waking else .icache
  | .ftable => .ftable
  | .kmem => .kmem

/-- The relation "acquired while holding" of the code. -/
def nests : Kind → Kind → Bool
  | .forkTable, .icache | .forkTable, .ftable | .forkTable, .kmem => true
  | .table, .kmem => true
  | .waking, .table => true
  | _, _ => false

/-- One lock operation on the uses held, the newest first. -/
def use (h : List Kind) : Act → Option (List Kind)
  | .acq f l => if h.all fun k => nests k (kind f l) then some (kind f l :: h) else none
  | .rel l => if l ∈ h.map Kind.lock then some (h.filter fun k => k.lock ≠ l) else none
  | .sched | .swtch => if h = [.table] then some [.table] else none
  | .quit => if h = [.table] then some [] else none

@[simp] theorem kind_lock (f : Fn) (l : Lock) : (kind f l).lock = l := by
  cases l <;> simp only [kind] <;> (try split) <;> rfl

/-- Every operation nests its locks as `nests` allows and ends with none. -/
theorem check_operation : check use [] operation = some [] := by decide

theorem check_scheduler : check use [] scheduler = some [] := by decide

theorem check_interrupt : check use [] interrupt = some [] := by decide

theorem check_wakeup : check use [] wakeup = some [] := by decide

/-- A new process starts with the lock its scheduler took. -/
theorem check_forkret : check use [.table] forkret = some [] := by decide

variable {h : List Kind}

theorem follow_of_rmatch {code : Code} (hc : check use h code = some []) (hw : code.rmatch w) :
    follow use h w = some [] :=
  check_sound hc ((RegularExpression.rmatch_iff_matches' _ _).mp hw)

/-! ## The uses one CPU makes -/

/-- `h` are the uses CPU `c` makes of the locks it holds. -/
structure Sees (lock : Lock → Option (C × Fn)) (c : C) (h : List Kind) : Prop where
  owned  : ∀ k ∈ h, ∃ f, lock k.lock = some (c, f) ∧ kind f k.lock = k
  all    : ∀ l f, lock l = some (c, f) → kind f l ∈ h
  nested : h.Pairwise fun k k' => nests k' k

section Sees

variable {lock : Lock → Option (C × Fn)} {c : C} {h : List Kind} {l : Lock} {f : Fn}

theorem Sees.acq (hs : Sees lock c h) (hfree : lock l = none)
    (hn : h.all (fun k => nests k (kind f l)) = true) :
    Sees (update lock l (some (c, f))) c (kind f l :: h) := by
  refine ⟨fun k hk => ?_, fun l' f' hl => ?_, ?_⟩
  · rcases List.mem_cons.mp hk with rfl | hk
    · exact ⟨f, by simp, by simp⟩
    · obtain ⟨f', hf, hkind⟩ := hs.owned k hk
      have hne : k.lock ≠ l := by
        intro he
        rw [he, hfree] at hf
        cases hf
      exact ⟨f', by rw [update_of_ne hne, hf], hkind⟩
  · by_cases he : l' = l
    · subst he
      obtain rfl : f = f' := by simpa using hl
      simp
    · rw [update_of_ne he] at hl
      exact List.mem_cons_of_mem _ (hs.all l' f' hl)
  · refine List.pairwise_cons.mpr ⟨fun k hk => ?_, hs.nested⟩
    exact List.all_eq_true.mp hn k hk

theorem Sees.rel (hs : Sees lock c h) :
    Sees (update lock l none) c (h.filter fun k => k.lock ≠ l) := by
  refine ⟨fun k hk => ?_, fun l' f' hl => ?_, hs.nested.filter _⟩
  · obtain ⟨hk, hne⟩ := List.mem_filter.mp hk
    have hne : k.lock ≠ l := by simpa using hne
    obtain ⟨f', hf, hkind⟩ := hs.owned k hk
    exact ⟨f', by rw [update_of_ne hne, hf], hkind⟩
  · by_cases he : l' = l
    · subst he
      simp at hl
    · rw [update_of_ne he] at hl
      exact List.mem_filter.mpr ⟨hs.all l' f' hl, by simpa using he⟩

/-- Another CPU takes or releases a lock. -/
theorem Sees.other {o : Option (C × Fn)} (hs : Sees lock c h) (hold : ∀ f, lock l ≠ some (c, f))
    (hnew : ∀ f, o ≠ some (c, f)) : Sees (update lock l o) c h := by
  refine ⟨fun k hk => ?_, fun l' f' hl => ?_, hs.nested⟩
  · obtain ⟨f', hf, hkind⟩ := hs.owned k hk
    refine ⟨f', ?_, hkind⟩
    rwa [update_of_ne]
    rintro rfl
    exact hold f' hf
  · by_cases he : l' = l
    · rw [he, update_self] at hl
      exact absurd hl (hnew f')
    · rw [update_of_ne he] at hl
      exact hs.all l' f' hl

end Sees

/-! ## What a step can do -/

variable [DecidableEq C] [DecidableEq P] {k k' : Kind}

/-- Everything one step can do, with its guards. -/
inductive Fires (s : State C P) : Event C P → State C P → Prop where
  | start {c : C} {w : List Act} (hcode : s.code c = [])
      (hw : follow use [] w = some []) : Fires s (.start c w) (s.setCode c w)
  | intr {c : C} {w : List Act} (hen : s.enabled c = true)
      (hw : follow use [] w = some []) : Fires s (.intr c w) (s.setCode c (w ++ s.code c))
  | acq {c : C} {f : Fn} {l : Lock} {w : List Act} (hcode : s.code c = .acq f l :: w)
      (hfree : s.lock l = none) :
      Fires s (.exec c) { s.setCode c w with lock := update s.lock l (some (c, f)) }
  | rel {c : C} {l : Lock} {w : List Act} (hcode : s.code c = .rel l :: w)
      (hheld : s.holds c l = true) :
      Fires s (.exec c) { s.setCode c w with lock := update s.lock l none }
  | sched {c : C} {p : P} {w : List Act} (hcode : s.code c = .sched :: w)
      (hrun : s.run c = some p) :
      Fires s (.exec c) { s.setCode c w with run := update s.run c none,
                                             susp := update s.susp p true }
  | quit {c : C} {p : P} {w : List Act} (hcode : s.code c = .quit :: w)
      (hrun : s.run c = some p) :
      Fires s (.exec c) { s.setCode c w with run := update s.run c none }
  | swtch {c : C} {p : P} {w : List Act} (hrun : s.run c = none)
      (hsch : s.sch c = .swtch :: w) (hsusp : s.susp p = true) :
      Fires s (.swtch c p) { s with run := update s.run c (some p),
                                    sch := update s.sch c w,
                                    susp := update s.susp p false }

theorem exec_fires (h : exec s c = some s') : Fires s (.exec c) s' := by
  unfold exec at h
  split at h
  · next f l w hcode =>
    split at h
    · next hfree => cases h; exact .acq hcode hfree
    · cases h
  · next l w hcode =>
    split at h
    · next hheld => cases h; exact .rel hcode hheld
    · cases h
  · next w hcode =>
    split at h
    · next p hrun =>
      split at h
      · cases h; exact .sched hcode hrun
      · cases h
    · cases h
  · next w hcode =>
    split at h
    · next p hrun =>
      split at h
      · cases h; exact .quit hcode hrun
      · cases h
    · cases h
  · cases h

theorem step_fires (h : step s e = some s') : Fires s e s' := by
  cases e with
  | start c w =>
    simp only [step, ite_none_right_eq_some, some.injEq] at h
    obtain ⟨⟨hcode, hw⟩, rfl⟩ := h
    refine .start hcode (follow_of_rmatch ?_ hw)
    split
    · exact check_scheduler
    · exact check_operation
  | intr c w =>
    simp only [step, ite_none_right_eq_some, some.injEq] at h
    obtain ⟨⟨hen, hw⟩, rfl⟩ := h
    refine .intr hen (follow_of_rmatch ?_ hw)
    split
    · exact check_wakeup
    · exact check_interrupt
  | exec c => exact exec_fires h
  | swtch c p =>
    simp only [step] at h
    split at h
    · next w hrun hsch =>
      split at h
      · next hsusp => cases h; exact .swtch hrun hsch hsusp
      · cases h
    · cases h

/-! ## The invariant

    The lock operations still to come of every CPU, of every scheduler a
    process has replaced and of every process that waits to be scheduled
    follow `nests`. -/

structure Inv (s : State C P) : Prop where
  cpu   : ∀ c, ∃ h, Sees s.lock c h ∧ follow use h (s.code c) = some []
  saved : ∀ c p, s.run c = some p → follow use [.table] (s.sch c) = some []
  susp  : ∀ p, s.susp p = true → follow use [.table] (s.todo p) = some []
  alone : ∀ c c' p, s.run c = some p → s.run c' = some p → c = c'
  off   : ∀ c p, s.run c = some p → s.susp p = false

omit [DecidableEq C] [DecidableEq P] in
theorem inv_init (h : Init s) : Inv s := by
  have hcode : ∀ c, s.code c = [] := by
    intro c
    simp only [State.code, h.run, h.sch]
  refine ⟨fun c => ⟨[], ⟨by simp, ?_, .nil⟩, by rw [hcode]; rfl⟩, ?_, ?_, ?_, ?_⟩
  · intro l f hl
    simp [h.lock] at hl
  · intro c p hrun
    simp [h.run] at hrun
  · intro p _
    exact follow_of_rmatch check_forkret (h.todo p)
  · intro c c' p hrun
    simp [h.run] at hrun
  · intro c p hrun
    simp [h.run] at hrun

theorem code_setCode_self (s : State C P) (c : C) (w : List Act) : (s.setCode c w).code c = w := by
  unfold State.setCode State.code
  cases hrun : s.run c <;> simp [hrun]

theorem setCode_run (s : State C P) (c : C) (w : List Act) : (s.setCode c w).run = s.run := by
  unfold State.setCode
  split <;> rfl

theorem setCode_susp (s : State C P) (c : C) (w : List Act) : (s.setCode c w).susp = s.susp := by
  unfold State.setCode
  split <;> rfl

theorem setCode_lock (s : State C P) (c : C) (w : List Act) : (s.setCode c w).lock = s.lock := by
  unfold State.setCode
  split <;> rfl

/-- The code of another CPU is untouched: no two CPUs run one process. -/
theorem Inv.code_setCode (hi : Inv s) (hc : c' ≠ c) (w : List Act) :
    (s.setCode c w).code c' = s.code c' := by
  unfold State.code
  rw [setCode_run]
  unfold State.setCode
  cases hrun : s.run c with
  | none =>
    cases s.run c' with
    | none => simp [hc]
    | some p' => rfl
  | some p =>
    cases hrun' : s.run c' with
    | none => rfl
    | some p' =>
      have hp : p' ≠ p := by
        intro hp
        exact hc (hi.alone c' c p (hp ▸ hrun') hrun)
      simp [hp]

theorem Inv.sch_setCode (hrun : s.run c' = some p) (w : List Act) :
    (s.setCode c w).sch c' = s.sch c' := by
  unfold State.setCode
  cases hc : s.run c with
  | none =>
    have hne : c' ≠ c := by
      intro h
      rw [h, hc] at hrun
      cases hrun
    simp [hne]
  | some p => rfl

theorem Inv.todo_setCode (hi : Inv s) (hsusp : s.susp p = true) (w : List Act) :
    (s.setCode c w).todo p = s.todo p := by
  unfold State.setCode
  cases hrun : s.run c with
  | none => rfl
  | some p' =>
    have hne : p ≠ p' := by
      intro h
      have := hi.off c p' hrun
      rw [← h, hsusp] at this
      cases this
    simp [hne]

/-- CPU `c` goes on with `w` and changes only its own locks. -/
theorem Inv.setCode (hi : Inv s) {lock : Lock → Option (C × Fn)}
    (hself : ∃ h, Sees lock c h ∧ follow use h w = some [])
    (hother : ∀ c', c' ≠ c → ∀ h, Sees s.lock c' h → Sees lock c' h) :
    Inv { s.setCode c w with lock := lock } := by
  have hrun := setCode_run s c w
  have hsusp := setCode_susp s c w
  refine ⟨fun c' => ?_, fun c' p hr => ?_, fun p hs => ?_, fun c' c'' p => ?_, fun c' p => ?_⟩
  · by_cases hc : c' = c
    · subst hc
      obtain ⟨h, hsees, hw⟩ := hself
      exact ⟨h, hsees, (code_setCode_self s c' w).symm ▸ hw⟩
    · obtain ⟨h, hsees, hw⟩ := hi.cpu c'
      exact ⟨h, hother c' hc h hsees, (hi.code_setCode hc w).symm ▸ hw⟩
  · have hr' : s.run c' = some p := hrun ▸ hr
    exact (Inv.sch_setCode hr' w).symm ▸ hi.saved c' p hr'
  · have hs' : s.susp p = true := hsusp ▸ hs
    exact (hi.todo_setCode hs' w).symm ▸ hi.susp p hs'
  · exact hrun.symm ▸ hi.alone c' c'' p
  · show (s.setCode c w).run c' = some p → (s.setCode c w).susp p = false
    rw [hrun, hsusp]
    exact hi.off c' p

omit [DecidableEq P] in
/-- With interrupts enabled no lock is held. -/
theorem Sees.nil_of_enabled (hs : Sees s.lock c h) (hen : s.enabled c = true) : h = [] := by
  cases h with
  | nil => rfl
  | cons k h =>
    obtain ⟨f, hf, -⟩ := hs.owned k (by simp)
    have hheld : s.holds c k.lock = true := by simp [State.holds, hf]
    cases hk : k.lock <;> rw [hk] at hheld <;> simp [State.enabled, hheld] at hen

/-- `sched`, `quit` and `swtch` go through with `ptable.lock` alone. -/
theorem follow_leave {h' : List Kind} {a : Act}
    (ha : ∀ h0, use h0 a = if h0 = [.table] then some h' else none)
    (hf : follow use h (a :: w) = some []) : h = [.table] ∧ follow use h' w = some [] := by
  obtain ⟨h₁, h1, h2⟩ := bind_eq_some_iff.mp hf
  rw [ha] at h1
  split at h1
  · next he =>
    cases h1
    exact ⟨he, h2⟩
  · cases h1

/-- CPU `c` goes back to its scheduler; the process it ran is suspended if `b`, and gone if not. -/
theorem Inv.leave (hi : Inv s) {b : Bool} (hrun : s.run c = some p) (hsees : Sees s.lock c [.table])
    (hb : b = true → follow use [.table] w = some []) :
    Inv { s with todo := update s.todo p w,
                 run := update s.run c none,
                 susp := update s.susp p b } := by
  have hold : ∀ c' p', update s.run c none c' = some p' →
      c' ≠ c ∧ s.run c' = some p' ∧ p' ≠ p := by
    intro c' p' hr
    have hc : c' ≠ c := by
      intro hc
      rw [hc, update_self] at hr
      cases hr
    rw [update_of_ne hc] at hr
    refine ⟨hc, hr, fun hp => hc ?_⟩
    exact hi.alone c' c p (hp ▸ hr) hrun
  refine ⟨fun c' => ?_, fun c' p' hr => ?_, fun p' hs => ?_, fun c' c'' p' hr hr' => ?_,
    fun c' p' hr => ?_⟩
  · by_cases hc : c' = c
    · subst hc
      exact ⟨[.table], hsees, by simpa [State.code] using hi.saved c' p hrun⟩
    · obtain ⟨h, hsees', hfol⟩ := hi.cpu c'
      refine ⟨h, hsees', ?_⟩
      simp only [State.code, update_of_ne hc] at hfol ⊢
      cases hr : s.run c' with
      | none => simpa [hr] using hfol
      | some p' =>
        have hp : p' ≠ p := fun hp => hc (hi.alone c' c p (hp ▸ hr) hrun)
        simpa [hr, hp] using hfol
  · exact hi.saved c' p' (hold c' p' hr).2.1
  · by_cases hp : p' = p
    · subst hp
      simpa using hb (by simpa using hs)
    · have hs' : s.susp p' = true := by simpa [hp] using hs
      simpa [hp] using hi.susp p' hs'
  · exact hi.alone c' c'' p' (hold c' p' hr).2.1 (hold c'' p' hr').2.1
  · obtain ⟨-, hr', hp⟩ := hold c' p' hr
    simpa [hp] using hi.off c' p' hr'

/-- The scheduler of CPU `c` hands `ptable.lock` over to process `p`. -/
theorem Inv.swtch (hi : Inv s) (hrun : s.run c = none) (hsees : Sees s.lock c [.table])
    (hw : follow use [.table] w = some []) (hsusp : s.susp p = true) :
    Inv { s with run := update s.run c (some p),
                 sch := update s.sch c w,
                 susp := update s.susp p false } := by
  have hfree : ∀ c', s.run c' ≠ some p := by
    intro c' hr
    have := hi.off c' p hr
    rw [hsusp] at this
    cases this
  refine ⟨fun c' => ?_, fun c' p' hr => ?_, fun p' hs => ?_, fun c' c'' p' hr hr' => ?_,
    fun c' p' hr => ?_⟩
  · by_cases hc : c' = c
    · subst hc
      exact ⟨[.table], hsees, by simpa [State.code] using hi.susp p hsusp⟩
    · obtain ⟨h, hsees', hfol⟩ := hi.cpu c'
      exact ⟨h, hsees', by simpa [State.code, hc] using hfol⟩
  · by_cases hc : c' = c
    · subst hc
      simpa using hw
    · have hr' : s.run c' = some p' := by simpa [hc] using hr
      simpa [hc] using hi.saved c' p' hr'
  · have hp : p' ≠ p := by
      intro hp
      simp [hp] at hs
    exact hi.susp p' (by simpa [hp] using hs)
  · by_cases hc : c' = c
    · by_cases hc' : c'' = c
      · rw [hc, hc']
      · obtain rfl : p = p' := by simpa [hc] using hr
        exact absurd (by simpa [hc'] using hr') (hfree c'')
    · have hr1 : s.run c' = some p' := by simpa [hc] using hr
      by_cases hc' : c'' = c
      · obtain rfl : p = p' := by simpa [hc'] using hr'
        exact absurd hr1 (hfree c')
      · exact hi.alone c' c'' p' hr1 (by simpa [hc'] using hr')
  · by_cases hp : p' = p
    · simp [hp]
    · have hc : c' ≠ c := by
        intro hc
        obtain rfl : p = p' := by simpa [hc] using hr
        exact hp rfl
      simpa [hp] using hi.off c' p' (by simpa [hc] using hr)

theorem inv_step (hi : Inv s) (hf : Fires s e s') : Inv s' := by
  cases hf with
  | @start c w hcode hw =>
    obtain ⟨h, hsees, hfol⟩ := hi.cpu c
    rw [hcode] at hfol
    cases hfol
    have hnext : Inv { s.setCode c w with lock := s.lock } :=
      hi.setCode ⟨[], hsees, hw⟩ fun _ _ _ hs => hs
    rwa [← setCode_lock s c w] at hnext
  | @intr c w hen hw =>
    obtain ⟨h, hsees, hfol⟩ := hi.cpu c
    obtain rfl := hsees.nil_of_enabled hen
    have hfol' : follow use [] (w ++ s.code c) = some [] := by
      rw [follow_append, hw]
      exact hfol
    have hnext : Inv { s.setCode c (w ++ s.code c) with lock := s.lock } :=
      hi.setCode ⟨[], hsees, hfol'⟩ fun _ _ _ hs => hs
    rwa [← setCode_lock s c (w ++ s.code c)] at hnext
  | @acq c f l w hcode hfree =>
    obtain ⟨h, hsees, hfol⟩ := hi.cpu c
    rw [hcode] at hfol
    obtain ⟨h₁, h1, h2⟩ := bind_eq_some_iff.mp hfol
    simp only [use, ite_none_right_eq_some, some.injEq] at h1
    obtain ⟨hn, rfl⟩ := h1
    exact hi.setCode ⟨_, hsees.acq hfree hn, h2⟩ fun c' hc h' hs =>
      hs.other (by simp [hfree]) (by simp [hc.symm])
  | @rel c l w hcode hheld =>
    obtain ⟨h, hsees, hfol⟩ := hi.cpu c
    rw [hcode] at hfol
    obtain ⟨h₁, h1, h2⟩ := bind_eq_some_iff.mp hfol
    simp only [use, ite_none_right_eq_some, some.injEq] at h1
    obtain ⟨-, rfl⟩ := h1
    obtain ⟨f, hl⟩ : ∃ f, s.lock l = some (c, f) := by
      unfold State.holds at hheld
      split at hheld
      · next c' f hl =>
        obtain rfl : c' = c := by simpa using hheld
        exact ⟨f, hl⟩
      · cases hheld
    exact hi.setCode ⟨_, hsees.rel, h2⟩ fun c' hc h' hs =>
      hs.other (by simp [hl, hc.symm]) (by simp)
  | @sched c p w hcode hrun =>
    obtain ⟨h, hsees, hfol⟩ := hi.cpu c
    rw [hcode] at hfol
    obtain ⟨rfl, hw⟩ := follow_leave (fun _ => rfl) hfol
    simp only [State.setCode, hrun]
    exact hi.leave hrun hsees fun _ => hw
  | @quit c p w hcode hrun =>
    obtain ⟨h, hsees, hfol⟩ := hi.cpu c
    rw [hcode] at hfol
    obtain ⟨rfl, hw⟩ := follow_leave (fun _ => rfl) hfol
    have hgone : update s.susp p false = s.susp := by
      rw [← hi.off c p hrun, update_eq_self]
    have hnext := hi.leave (w := w) (b := false) hrun hsees (by simp)
    simp only [State.setCode, hrun]
    rwa [hgone] at hnext
  | @swtch c p w hrun hsch hsusp =>
    obtain ⟨h, hsees, hfol⟩ := hi.cpu c
    simp only [State.code, hrun, hsch] at hfol
    obtain ⟨rfl, hw⟩ := follow_leave (fun _ => rfl) hfol
    exact hi.swtch hrun hsees hw hsusp

/-! ## Deadlock freedom -/

/-- `fork` and the functions that wake up are not in their critical sections at the same time. -/
def NoOverlap (s : State C P) : Prop :=
  ∀ c c' f, s.lock .ptable = some (c, .fork) → s.lock .icache = some (c', f) → wakes f = false

theorem noOverlap_step (h : NoOverlap s) (hf : Fires s e s') (hok : Apart s e) : NoOverlap s' := by
  cases hf with
  | start | intr =>
    unfold NoOverlap
    rw [setCode_lock]
    exact h
  | sched | quit =>
    unfold NoOverlap
    dsimp only
    rw [setCode_lock]
    exact h
  | swtch => exact h
  | @acq c0 f0 l w hcode hfree =>
    intro c c' f hfork hic
    obtain ⟨hok1, hok2⟩ : KeepsApart s (.acq f0 l) := hok _ (by rw [hcode]; rfl)
    dsimp only at hfork hic
    by_cases hp : l = .ptable
    · subst hp
      obtain ⟨rfl, rfl⟩ : c0 = c ∧ f0 = .fork := by simpa using hfork
      have hic' : s.lock .icache = some (c', f) := by simpa using hic
      exact hok1 rfl rfl f (by simp [State.user, hic'])
    · rw [update_of_ne (Ne.symm hp)] at hfork
      by_cases hi : l = .icache
      · subst hi
        obtain ⟨rfl, rfl⟩ : c0 = c' ∧ f0 = f := by simpa using hic
        cases hw : wakes f0 with
        | false => rfl
        | true => exact absurd (by simp [State.user, hfork]) (hok2 hw rfl)
      · rw [update_of_ne (Ne.symm hi)] at hic
        exact h c c' f hfork hic
  | @rel c0 l w hcode hheld =>
    intro c c' f hfork hic
    dsimp only at hfork hic
    have hp : l ≠ .ptable := by
      rintro rfl
      simp at hfork
    have hi : l ≠ .icache := by
      rintro rfl
      simp at hic
    rw [update_of_ne (Ne.symm hp)] at hfork
    rw [update_of_ne (Ne.symm hi)] at hic
    exact h c c' f hfork hic

/-- The order while some CPU is inside `fork`: `ptable.lock` first. -/
def rankFork : Lock → Nat
  | .ptable => 0
  | .icache => 1
  | .ftable | .kmem => 2

/-- The order while none is: `icache.lock` first. -/
def rankWake : Lock → Nat
  | .icache => 0
  | .ptable => 1
  | .ftable | .kmem => 2

omit [DecidableEq C] [DecidableEq P] in
/-- What a CPU asks for nests in everything it holds. -/
theorem Inv.nests_of_wants (hi : Inv s) {f f' : Fn} {l l' : Lock} (hcode : s.code c = .acq f l :: w)
    (hheld : s.lock l' = some (c, f')) : nests (kind f' l') (kind f l) = true := by
  obtain ⟨h, hsees, hfol⟩ := hi.cpu c
  rw [hcode] at hfol
  obtain ⟨h₁, h1, -⟩ := bind_eq_some_iff.mp hfol
  simp only [use, ite_none_right_eq_some] at h1
  exact List.all_eq_true.mp h1.1 _ (hsees.all l' f' hheld)

theorem rankWake_of_nests (h : nests k k' = true) (hk : k ≠ .forkTable) :
    rankWake k.lock < rankWake k'.lock := by
  cases k <;> cases k' <;> simp_all [nests, rankWake, Kind.lock]

theorem rankFork_of_nests (h : nests k k' = true) (hk : k ≠ .waking) :
    rankFork k.lock < rankFork k'.lock := by
  cases k <;> cases k' <;> simp_all [nests, rankFork, Kind.lock]

omit [DecidableEq C] [DecidableEq P] in
/-- The two orders between them cover every state without overlap. -/
theorem no_deadlock_of_noOverlap (hi : Inv s) (hno : NoOverlap s) : ¬ Deadlock s := by
  rintro ⟨c, hcyc⟩
  by_cases hfork : ∃ c0, s.lock .ptable = some (c0, .fork)
  · obtain ⟨c0, hfork⟩ := hfork
    refine no_cycle_of_rank rankFork ?_ c hcyc
    rintro c l l' ⟨f, w, hcode⟩ ⟨f', hheld⟩
    have hn := hi.nests_of_wants hcode hheld
    have hk : kind f' l' ≠ .waking := by
      -- a waking use of `icache.lock` would overlap with the `fork`
      intro hk
      have hl : l' = .icache := by rw [← kind_lock f' l', hk]; rfl
      subst hl
      have := hno c0 c f' hfork hheld
      simp [kind, this] at hk
    simpa using rankFork_of_nests hn hk
  · refine no_cycle_of_rank rankWake ?_ c hcyc
    rintro c l l' ⟨f, w, hcode⟩ ⟨f', hheld⟩
    have hn := hi.nests_of_wants hcode hheld
    have hk : kind f' l' ≠ .forkTable := by
      intro hk
      have hl : l' = .ptable := by rw [← kind_lock f' l', hk]; rfl
      subst hl
      have hf : f' = .fork := by
        by_contra hne
        simp [kind, hne] at hk
      exact hfork ⟨c, hf ▸ hheld⟩
    simpa using rankWake_of_nests hn hk

/-- **Deadlock freedom.** In every run in which `fork` is kept apart from `ilock`, `iunlock` and
    `iput`, no state has a cycle of CPUs spinning on each other's locks. -/
theorem deadlock_free {s₀ s : State C P} {ls : List (Event C P)} (hinit : Init s₀)
    (hrun : ((system C P).restrict Apart).Run s₀ ls s) : ¬ Deadlock s := by
  have h : Inv s ∧ NoOverlap s := by
    refine System.run_invariant (I := fun _ s => Inv s ∧ NoOverlap s) ?_ ?_
      (show ((system C P).restrict Apart).init s₀ from hinit) hrun
    · intro s hs
      refine ⟨inv_init hs, ?_⟩
      intro c c' f hfork
      simp [hs.lock] at hfork
    · intro ls s e s' hs hstep
      have hf := step_fires hstep.1
      exact ⟨inv_step hs.1 hf, noOverlap_step hs.2 hf hstep.2⟩
  exact no_deadlock_of_noOverlap h.1 h.2

/-! ## Two CPUs -/

/-- Two CPUs and two processes. -/
def boot₂ : State (Fin 2) (Fin 2) where
  lock := fun _ => none
  run  := fun _ => none
  sch  := fun _ => []
  todo := fun _ => [.rel .ptable]
  susp := fun _ => true

theorem boot₂_init : Init boot₂ := by
  refine ⟨fun _ => rfl, fun _ => rfl, fun _ => rfl, fun _ => ?_⟩
  show forkret.rmatch [.rel .ptable] = true
  decide

/-- CPU `i` schedules process `i` for the first time. -/
def enter (i : Fin 2) : List (Event (Fin 2) (Fin 2)) :=
  [.start i [.acq .scheduler .ptable, .swtch, .rel .ptable], .exec i, .swtch i i, .exec i]

/-- `fork` in a process of one page: 68 pages for the kernel stack, the
    directory, the tables and the page. -/
def forkPath : List Act :=
  [.acq .fork .ptable] ++ (List.replicate 68 [.acq .kalloc .kmem, .rel .kmem]).flatten ++
    [.acq .idup .icache, .rel .icache, .rel .ptable]

def iunlockPath : List Act :=
  [.acq .iunlock .icache, .acq .wakeup .ptable, .rel .ptable, .rel .icache]

/-- CPU 0 is about to duplicate the current directory in `fork`; CPU 1 is
    about to wake up the waiters of an inode. -/
def forkMeetsIunlock : List (Event (Fin 2) (Fin 2)) :=
  enter 0 ++ enter 1 ++ [.start 0 forkPath] ++ List.replicate 137 (.exec 0) ++
    [.start 1 iunlockPath, .exec 1]

/-- CPU 0 spins on `icache.lock`, which CPU 1 holds, and the other way round. -/
theorem forkMeetsIunlock_stuck : (System.replay step boot₂ forkMeetsIunlock).any (fun s =>
    s.code 0 = [.acq .idup .icache, .rel .icache, .rel .ptable] ∧
    s.code 1 = [.acq .wakeup .ptable, .rel .ptable, .rel .icache] ∧
    s.lock .ptable = some (0, .fork) ∧ s.lock .icache = some (1, .iunlock)) = true := by
  decide +kernel

theorem fork_iunlock_deadlock :
    ¬ ∀ s₀ ls s, Init s₀ → (system (Fin 2) (Fin 2)).Run s₀ ls s → ¬ Deadlock s := by
  intro h
  obtain ⟨s, hrun, hs⟩ := System.exists_run_of_replay forkMeetsIunlock_stuck
  obtain ⟨h0, h1, hp, hi⟩ := of_decide_eq_true hs
  have h01 : WaitsFor s.Holds s.Wants 0 1 := ⟨.icache, ⟨_, _, h0⟩, _, hi⟩
  have h10 : WaitsFor s.Holds s.Wants 1 0 := ⟨.ptable, ⟨_, _, h1⟩, _, hp⟩
  exact h boot₂ forkMeetsIunlock s boot₂_init hrun ⟨0, .tail (.single h01) h10⟩

/-- `iunlock` on CPU 1 comes first; `fork`, which finds no free slot, follows
    on CPU 0 while CPU 1 takes `icache.lock` in `idup`. -/
def iunlockThenFork : List (Event (Fin 2) (Fin 2)) :=
  enter 0 ++ enter 1 ++ [.start 1 iunlockPath, .exec 1, .exec 1, .exec 1, .exec 1,
    .start 0 [.acq .fork .ptable, .rel .ptable], .exec 0,
    .start 1 [.acq .idup .icache, .rel .icache], .exec 1]

theorem deadlock_free_iunlockThenFork :
    ∃ s, ((system (Fin 2) (Fin 2)).restrict Apart).Run boot₂ iunlockThenFork s ∧
      s.lock .ptable = some (0, .fork) ∧ s.lock .icache = some (1, .idup) ∧ ¬ Deadlock s := by
  obtain ⟨s, hs, hp, hi⟩ : ∃ s, System.replay
      (fun s l => if Apart s l then step s l else none) boot₂ iunlockThenFork = some s ∧
      s.lock .ptable = some (0, .fork) ∧ s.lock .icache = some (1, .idup) :=
    ⟨_, rfl, rfl, rfl⟩
  have hrun : ((system (Fin 2) (Fin 2)).restrict Apart).Run boot₂ iunlockThenFork s :=
    System.run_restrict_of_replay hs
  exact ⟨s, hrun, hp, hi, deadlock_free boot₂_init hrun⟩

end Xv6.Sync
