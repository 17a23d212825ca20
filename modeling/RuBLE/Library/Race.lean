import Mathlib
import RuBLE.Library.Pool
import RuBLE.Library.System

/-!
# Calls that may race

Any number of threads call a function.  A step of it that reads or writes what
nothing protects takes its time: it begins, others make steps, it ends.  When two
such accesses overlap and one of them writes, that is a race, and from then on
anything may happen.

* `calls` — the calls, if each step happens at once.
* `racing` — the same calls, if an access takes its time.
* `RaceFree` — no two threads are inside accesses that clash.
* `runFrom_plain` — **the reduction rule**: a run without a race is a run of `calls`;
  `meets_plain` — and what its steps meet is what those of `calls` meet.
* `exists_step` — **the progress rule**: when one of `calls` can go on, so can one here,
  without a race.
* `countP_isStep_le` — **the ranking rule**: what lowers a weight ends here too.
-/

namespace Transition

/-- Another call begins, or the call at an index makes its next step. -/
inductive CallAction (α : Type) where
  | call (a : α)
  | step (i : Nat)
  deriving DecidableEq, Repr

/-- Calls of a function, each of which begins at `start`, over what they share. -/
def calls {α σ τ : Type} (init : σ) (start : α → τ) (step : σ → τ → Option (σ × τ)) :
    System (Pool σ τ) (CallAction α) where
  init := ⟨init, []⟩
  step p
    | .call a => some (p.spawn (start a))
    | .step i => p.stepAt step i

/-! ## Accesses -/

/-- What the next step of a thread does with what nothing protects. -/
inductive DataAccess where
  | nothing
  | reads
  | writes
  deriving DecidableEq, Repr

/-- The two may not overlap. -/
def DataAccess.clashes : DataAccess → DataAccess → Bool
  | .nothing, _ | _, .nothing | .reads, .reads => false
  | _, _ => true

/-- A thread, and whether it is inside the access that its next step ends. -/
structure Accessing (τ : Type) where
  thread : τ
  inside : Bool := false
  deriving DecidableEq, Repr

/-- No two threads are inside accesses that clash. -/
def RaceFree {σ τ : Type} (access : τ → DataAccess) (p : Pool σ (Accessing τ)) : Prop :=
  (p.threads.filter (·.inside)).Pairwise fun t u =>
    (access t.thread).clashes (access u.thread) = false

instance {σ τ : Type} (access : τ → DataAccess) : DecidablePred (RaceFree (σ := σ) access) :=
  fun _ => inferInstanceAs (Decidable (List.Pairwise _ _))

/-- A call begins, a call begins an access, a call makes a step, or what may happen
after a race. -/
inductive RacingAction (σ τ α : Type) where
  | call (a : α)
  | enter (i : Nat)
  | step (i : Nat)
  | stray (p : Pool σ (Accessing τ))
  deriving DecidableEq, Repr

/-- The access of a thread begins, if it has not. -/
def enterStep {σ τ : Type} (access : τ → DataAccess) (s : σ) (t : Accessing τ) :
    Option (σ × Accessing τ) :=
  if access t.thread = .nothing ∨ t.inside = true then none else some (s, { t with inside := true })

/-- A thread makes its step, and an access that this ends has begun before. -/
def leaveStep {σ τ : Type} (access : τ → DataAccess) (step : σ → τ → Option (σ × τ)) (s : σ)
    (t : Accessing τ) : Option (σ × Accessing τ) :=
  if access t.thread ≠ .nothing ∧ t.inside = false then none
  else (step s t.thread).map fun r => (r.1, { thread := r.2 })

/-- The calls of `calls`, if these steps are accesses to what nothing protects. -/
def racing {α σ τ : Type} (init : σ) (start : α → τ) (access : τ → DataAccess)
    (step : σ → τ → Option (σ × τ)) : System (Pool σ (Accessing τ)) (RacingAction σ τ α) where
  init := ⟨init, []⟩
  step p
    | .call a => some (p.spawn { thread := start a })
    | .enter i => p.stepAt (enterStep access) i
    | .step i => p.stepAt (leaveStep access step) i
    | .stray q => if RaceFree access p then none else some q

/-! ## The reduction -/

section Reduction

variable {α σ τ : Type} {init : σ} {start : α → τ} {access : τ → DataAccess}
  {step : σ → τ → Option (σ × τ)} {p q : Pool σ (Accessing τ)} {i : Nat}

/-- The threads, whether they are inside an access or not. -/
def Pool.plain (p : Pool σ (Accessing τ)) : Pool σ τ := ⟨p.shared, p.threads.map (·.thread)⟩

theorem Pool.plain_getElem? (p : Pool σ (Accessing τ)) (i : Nat) :
    p.plain.threads[i]? = p.threads[i]?.map (·.thread) :=
  List.getElem?_map

/-- The step that happens at once. -/
def RacingAction.plain : RacingAction σ τ α → Option (CallAction α)
  | .call a => some (.call a)
  | .step i => some (.step i)
  | .enter _ | .stray _ => none

theorem plain_enter (h : p.stepAt (enterStep access) i = some q) : q.plain = p.plain := by
  obtain ⟨t, s', t', hi, ht, rfl⟩ := Pool.stepAt_cases h
  rw [enterStep] at ht
  split at ht
  · cases ht
  · cases ht
    obtain ⟨hlt, rfl⟩ := List.getElem?_eq_some_iff.1 hi
    show Pool.mk _ _ = Pool.mk _ _
    have hlt' : i < (p.threads.map (·.thread)).length := by simpa using hlt
    have hsame : p.threads[i].thread = (p.threads.map (·.thread))[i] := by simp
    rw [List.map_set, hsame, List.set_getElem_self]

theorem plain_leave (h : p.stepAt (leaveStep access step) i = some q) :
    p.plain.stepAt step i = some q.plain := by
  obtain ⟨t, s', t', hi, ht, rfl⟩ := Pool.stepAt_cases h
  rw [leaveStep] at ht
  split at ht
  · cases ht
  · obtain ⟨⟨s'', u⟩, hstep, heq⟩ := Option.map_eq_some_iff.1 ht
    cases heq
    have hthread : p.plain.threads[i]? = some t.thread := by rw [p.plain_getElem?, hi]; rfl
    have hshared : step p.plain.shared t.thread = some (s'', u) := hstep
    rw [Pool.stepAt, hthread, Option.bind_some, hshared]
    show some (Pool.mk _ _) = some (Pool.mk _ _)
    rw [List.map_set]
    rfl

/-- Where there is no race, a step is one of `calls` or changes nothing there. -/
theorem step_plain {a : RacingAction σ τ α} (hp : RaceFree access p)
    (h : (racing init start access step).step p a = some q) :
    (calls init start step).runFrom p.plain a.plain.toList = some q.plain := by
  cases a with
  | call a =>
      cases h
      show some (Pool.spawn _ _) = some (Pool.plain _)
      simp [Pool.spawn, Pool.plain]
  | enter i =>
      show some p.plain = some q.plain
      rw [plain_enter h]
  | step i =>
      show ((calls init start step).step p.plain (.step i)).bind _ = _
      have hstep : (calls init start step).step p.plain (.step i) = some q.plain := plain_leave h
      rw [hstep]
      rfl
  | stray p' =>
      simp only [racing, if_pos hp] at h
      cases h

/-- **The reduction rule.**  A run without a race is one whose steps happen at once. -/
theorem runFrom_plain {as : List (RacingAction σ τ α)}
    (hfree : (racing init start access step).Always (RaceFree access) p as)
    (h : (racing init start access step).runFrom p as = some q) :
    (calls init start step).runFrom p.plain (as.filterMap RacingAction.plain) = some q.plain := by
  induction as generalizing p with
  | nil =>
      cases h
      rfl
  | cons a as ih =>
      rw [System.always_cons] at hfree
      rw [System.runFrom_cons] at h
      obtain ⟨u, hu, hrest⟩ := Option.bind_eq_some_iff.1 h
      have hsplit : (a :: as).filterMap RacingAction.plain =
          a.plain.toList ++ as.filterMap RacingAction.plain := by
        cases hplain : a.plain <;> simp [hplain]
      rw [hsplit, System.runFrom_append, step_plain hfree.1 hu, Option.bind_some]
      exact ih (hfree.2 u hu) hrest

/-- What the steps meet that happen at once, the run meets. -/
theorem meets_plain {ok : Pool σ τ → CallAction α → Prop} {as : List (RacingAction σ τ α)}
    (hfree : (racing init start access step).Always (RaceFree access) p as)
    (h : (racing init start access step).runFrom p as = some q) :
    (racing init start access step).Meets (fun p a => ∀ b, a.plain = some b → ok p.plain b) p as ↔
      (calls init start step).Meets ok p.plain (as.filterMap RacingAction.plain) := by
  induction as generalizing p with
  | nil => exact iff_of_true trivial trivial
  | cons a as ih =>
      rw [System.always_cons] at hfree
      rw [System.runFrom_cons] at h
      obtain ⟨u, hu, hrest⟩ := Option.bind_eq_some_iff.1 h
      have hstep := step_plain hfree.1 hu
      rw [System.meets_cons, hu]
      simp only [Option.some.injEq, forall_eq']
      rw [ih (hfree.2 u hu) hrest]
      cases hplain : a.plain with
      | none =>
          rw [hplain] at hstep
          obtain hsame : p.plain = u.plain := Option.some.inj hstep
          rw [List.filterMap_cons_none hplain, hsame]
          simp
      | some b =>
          rw [hplain, Option.toList_some, System.runFrom_cons] at hstep
          obtain ⟨v, hv, hvu⟩ := Option.bind_eq_some_iff.1 hstep
          cases hvu
          rw [List.filterMap_cons_some hplain, System.meets_cons, hv]
          simp

/-! ## Progress -/

/-- Whoever is inside an access has one to end. -/
theorem access_of_inside {as : List (RacingAction σ τ α)}
    (hfree : (racing init start access step).Always (RaceFree access)
      (racing init start access step).init as)
    (h : (racing init start access step).run as = some p) :
    ∀ (i : Nat) t, p.threads[i]? = some t → t.inside = true → access t.thread ≠ .nothing := by
  refine System.invariant_of_meets (S := racing init start access step)
    (P := fun p => ∀ (i : Nat) t, p.threads[i]? = some t → t.inside = true → access t.thread ≠ .nothing)
    ?_ (by simp [racing]) hfree.meets h
  intro p a q hall hp hstep
  cases a with
  | call a =>
      cases hstep
      exact Pool.forall_spawn hall (by simp)
  | enter i =>
      obtain ⟨t, s', t', hi, ht, rfl⟩ := Pool.stepAt_cases hstep
      refine Pool.forall_set hall hi (fun _ _ => ?_) fun _ _ _ => id
      rw [enterStep] at ht
      split at ht
      · cases ht
      · next hnot =>
          cases ht
          exact fun hnothing => hnot (.inl hnothing)
  | step i =>
      obtain ⟨t, s', t', hi, ht, rfl⟩ := Pool.stepAt_cases hstep
      refine Pool.forall_set hall hi (fun _ hinside => ?_) fun _ _ _ => id
      rw [leaveStep] at ht
      split at ht
      · cases ht
      · obtain ⟨r, -, heq⟩ := Option.map_eq_some_iff.1 ht
        cases heq
        cases hinside
  | stray p' =>
      simp only [racing, if_pos hp] at hstep
      cases hstep

/-- A thread that is outside now was perhaps inside. -/
theorem RaceFree.set_outside (h : RaceFree access p) (s' : σ) (i : Nat) (t : τ) :
    RaceFree access ⟨s', p.threads.set i { thread := t }⟩ := by
  refine h.sublist ?_
  generalize p.threads = ts
  induction ts generalizing i with
  | nil => exact List.Sublist.refl _
  | cons u ts ih =>
      cases i with
      | zero =>
          rw [List.set_cons_zero, List.filter_cons_of_neg (by simp)]
          exact (List.sublist_cons_self u ts).filter _
      | succ i =>
          rw [List.set_cons_succ]
          by_cases hu : u.inside = true
          · rw [List.filter_cons_of_pos hu, List.filter_cons_of_pos hu]
            exact (ih i).cons_cons u
          · rw [List.filter_cons_of_neg hu, List.filter_cons_of_neg hu]
            exact ih i

/-- One thread alone does not race. -/
theorem raceFree_set_of_outside (h : ∀ t ∈ p.threads, t.inside = false) (s' : σ) (i : Nat)
    (t : Accessing τ) : RaceFree access ⟨s', p.threads.set i t⟩ := by
  have hlength : ((p.threads.set i t).filter (·.inside)).length ≤ 1 := by
    revert h
    generalize p.threads = ts
    induction ts generalizing i with
    | nil => exact fun _ => Nat.zero_le 1
    | cons u ts ih =>
        intro h
        rw [List.forall_mem_cons] at h
        cases i with
        | zero =>
            have hrest : ts.filter (·.inside) = [] := List.filter_eq_nil_iff.2 (by simpa using h.2)
            rw [List.set_cons_zero, List.filter_cons, hrest]
            split <;> simp
        | succ i =>
            rw [List.set_cons_succ, List.filter_cons_of_neg (by simp [h.1])]
            exact ih i h.2
  show List.Pairwise _ ((p.threads.set i t).filter (·.inside))
  rcases hfilter : (p.threads.set i t).filter (·.inside) with - | ⟨u, - | ⟨v, us⟩⟩
  · rw [hfilter]
    exact List.Pairwise.nil
  · rw [hfilter]
    exact List.pairwise_singleton _ u
  · rw [hfilter, List.length_cons, List.length_cons] at hlength
    omega

/-- A step of a call, or the beginning of its access, and not a new call. -/
def RacingAction.isStep : RacingAction σ τ α → Bool
  | .enter _ | .step _ => true
  | .call _ | .stray _ => false

/-- **The progress rule.**  Let no access wait.  Where a call could make a step at once,
somebody can make one or begin its access, and this is no race. -/
theorem exists_step {j : Nat} {r : Pool σ τ} (hfree : RaceFree access p)
    (hinside : ∀ (i : Nat) t, p.threads[i]? = some t → t.inside = true → access t.thread ≠ .nothing)
    (hready : ∀ s t, access t ≠ .nothing → (step s t).isSome = true)
    (h : p.plain.stepAt step j = some r) :
    ∃ a q, a.isStep = true ∧ (racing init start access step).step p a = some q ∧ RaceFree access q := by
  by_cases hany : ∃ (i : Nat) (t : Accessing τ), p.threads[i]? = some t ∧ t.inside = true
  · -- somebody is inside, and can end its access
    obtain ⟨i, t, hi, ht⟩ := hany
    obtain ⟨⟨s', u⟩, hu⟩ := Option.isSome_iff_exists.1 (hready p.shared t.thread (hinside i t hi ht))
    have hleave : leaveStep access step p.shared t = some (s', { thread := u }) := by
      simp [leaveStep, ht, hu]
    refine ⟨.step i, ⟨s', p.threads.set i { thread := u }⟩, rfl, ?_, hfree.set_outside s' i u⟩
    show p.stepAt _ i = _
    rw [Pool.stepAt, hi, Option.bind_some, hleave]
    rfl
  · have houtside : ∀ t ∈ p.threads, t.inside = false := by
      intro t ht
      obtain ⟨i, hi⟩ := List.mem_iff_getElem?.1 ht
      by_contra hne
      exact hany ⟨i, t, hi, by simpa using hne⟩
    obtain ⟨u, s', u', hj, hu, -⟩ := Pool.stepAt_cases h
    rw [p.plain_getElem?, Option.map_eq_some_iff] at hj
    obtain ⟨t, hj, rfl⟩ := hj
    have hout := houtside t (List.mem_of_getElem? hj)
    by_cases haccess : access t.thread = .nothing
    · have hleave : leaveStep access step p.shared t = some (s', { thread := u' }) := by
        have hu : step p.shared t.thread = some (s', u') := hu
        simp [leaveStep, haccess, hu]
      refine ⟨.step j, ⟨s', p.threads.set j { thread := u' }⟩, rfl, ?_,
        raceFree_set_of_outside houtside _ _ _⟩
      show p.stepAt _ j = _
      rw [Pool.stepAt, hj, Option.bind_some, hleave]
      rfl
    · have henter : enterStep access p.shared t = some (p.shared, { t with inside := true }) := by
        simp [enterStep, haccess, hout]
      refine ⟨.enter j, ⟨p.shared, p.threads.set j { t with inside := true }⟩, rfl, ?_,
        raceFree_set_of_outside houtside _ _ _⟩
      show p.stepAt _ j = _
      rw [Pool.stepAt, hj, Option.bind_some, henter]
      rfl

/-! ## Ranking -/

/-- Twice the weight, and the beginning of an access. -/
def Accessing.rank (w : τ → Nat) (t : Accessing τ) : Nat := 2 * w t.thread + if t.inside then 0 else 1

theorem total_rank_stepAt {w : τ → Nat} {f : σ → Accessing τ → Option (σ × Accessing τ)}
    (hf : ∀ s t s' t', f s t = some (s', t') → t'.rank w + 1 ≤ t.rank w) (h : p.stepAt f i = some q) :
    q.total (Accessing.rank w) + 1 ≤ p.total (Accessing.rank w) ∧ q.threads.length = p.threads.length := by
  obtain ⟨t, s', t', hi, ht, rfl⟩ := Pool.stepAt_cases h
  have htotal := Pool.total_set (Accessing.rank w) hi s' t'
  have hless := hf _ _ _ _ ht
  exact ⟨by omega, List.length_set⟩

theorem rank_enterStep {w : τ → Nat} (s : σ) (t : Accessing τ) (s' : σ) (t' : Accessing τ)
    (h : enterStep access s t = some (s', t')) : t'.rank w + 1 ≤ t.rank w := by
  rw [enterStep] at h
  split at h
  · cases h
  · next hnot =>
      cases h
      simp [Accessing.rank, not_or.1 hnot]

theorem rank_leaveStep {w : τ → Nat}
    (hw : ∀ s t s' t', step s t = some (s', t') → w t' + 1 ≤ w t) (s : σ) (t : Accessing τ) (s' : σ)
    (t' : Accessing τ) (h : leaveStep access step s t = some (s', t')) : t'.rank w + 1 ≤ t.rank w := by
  rw [leaveStep] at h
  split at h
  · cases h
  · obtain ⟨⟨u, t''⟩, hstep, heq⟩ := Option.map_eq_some_iff.1 h
    cases heq
    have hless := hw _ _ _ _ hstep
    simp only [Accessing.rank]
    split <;> simp <;> omega

/-- **The ranking rule.**  If each step lowers a weight, which is `n` at most for a new
call, then a call makes at most `2 * n + 1` steps and beginnings. -/
theorem countP_isStep_le {w : τ → Nat} {n : Nat} {as : List (RacingAction σ τ α)}
    (hstart : ∀ a, w (start a) ≤ n) (hw : ∀ s t s' t', step s t = some (s', t') → w t' + 1 ≤ w t)
    (hfree : (racing init start access step).Always (RaceFree access)
      (racing init start access step).init as)
    (h : (racing init start access step).run as = some p) :
    as.countP RacingAction.isStep + p.total (Accessing.rank w) ≤ (2 * n + 1) * p.threads.length := by
  induction as using List.reverseRecOn generalizing p with
  | nil =>
      cases h
      exact Nat.le_refl _
  | append_singleton as a ih =>
      rw [System.run, System.runFrom_concat] at h
      obtain ⟨q, hq, hstep⟩ := Option.bind_eq_some_iff.1 h
      have hfree' := (System.always_concat.1 hfree).1
      have hold := ih hfree' hq
      rw [List.countP_append, List.countP_singleton]
      cases a with
      | call a =>
          cases hstep
          have hnew := hstart a
          rw [Pool.total_spawn, Pool.spawn_threads, List.length_append, List.length_singleton, Nat.mul_add]
          simp only [RacingAction.isStep, Accessing.rank, Bool.false_eq_true, if_false]
          omega
      | enter i =>
          obtain ⟨hless, hlength⟩ := total_rank_stepAt (w := w) rank_enterStep hstep
          rw [hlength]
          simp only [RacingAction.isStep, if_true]
          omega
      | step i =>
          obtain ⟨hless, hlength⟩ := total_rank_stepAt (w := w) (rank_leaveStep hw) hstep
          rw [hlength]
          simp only [RacingAction.isStep, if_true]
          omega
      | stray u =>
          simp only [racing, if_pos (hfree'.last hq)] at hstep
          cases hstep

end Reduction

end Transition
