import Mathlib
import RuBLE.Library.Race
import RuBLE.Management.RegistryFactory

/-!
# Objects that are made on first use

Three functions make an object when it is first asked for: `instance()` of a
registry factory tests, locks and tests again; `RubyQueue::instance()` only
tests; `registry(owner)` makes a registry before it knows that nobody else has.
Here any number of threads call them.  What they test and assign is a plain
`shared_ptr` or map, so that two accesses that overlap are a race; of what
happens then nothing is said, and the results are about runs without one.

* `Factory.instance_once` — **the double check is right**: there is one object,
  every call returns it, and no schedule gets stuck or goes on for ever.
* `Queue.instance_single_iff` — **without the lock**: there is one queue if and
  only if no call tests while another one is on its way to assign.
* `Registries.registry_race` — **the race that is meant to be lost**: calls with
  one index return one registry, made for an owner with this index, and what a
  loser has made is returned to nobody.
-/

namespace RuBLE.Instances

open Transition

/-! ## `RegistryFactory::instance` -/

namespace Factory

/-- What the calls share: `_instance`, `_static_mtx`, and how many objects
`new Self()` has made, numbered from zero. -/
structure Statics where
  inst : Option Nat := none
  locked : Bool := false
  made : Nat := 0
  deriving DecidableEq, Repr

/-- Where a call is. -/
inductive Pc where
  | test
  | lock
  | retest
  | construct
  | assign (self : Nat)
  | unlock
  | read
  | returned (result : Option Nat)
  deriving DecidableEq, Repr

/-- The next step of a call of `instance()`; `none` while the lock is taken, and
after the return. -/
def instanceStep (s : Statics) : Pc → Option (Statics × Pc)
  | .test => some (s, if s.inst.isSome then .read else .lock)
  | .lock => if s.locked then none else some ({ s with locked := true }, .retest)
  | .retest => some (s, if s.inst.isSome then .unlock else .construct)
  | .construct => some ({ s with made := s.made + 1 }, .assign s.made)
  | .assign self => some ({ s with inst := some self }, .unlock)
  | .unlock => some ({ s with locked := false }, .read)
  | .read => some (s, .returned s.inst)
  | .returned _ => none

/-- What a step does with `_instance`. -/
def Pc.access : Pc → DataAccess
  | .test | .retest | .read => .reads
  | .assign _ => .writes
  | .lock | .construct | .unlock | .returned _ => .nothing

/-- Any number of threads call `instance()`, each step of which happens at once. -/
abbrev instanceCalls : System (Pool Statics Pc) (CallAction Unit) :=
  calls {} (fun _ => .test) instanceStep

/-- Any number of threads call `instance()`. -/
abbrev instanceSystem : System (Pool Statics (Accessing Pc)) (RacingAction Statics Pc Unit) :=
  racing {} (fun _ => .test) Pc.access instanceStep

/-- Between taking the lock and giving it back. -/
def Pc.holds : Pc → Nat
  | .retest | .construct | .assign _ | .unlock => 1
  | .test | .lock | .read | .returned _ => 0

/-- How many steps are left at most. -/
def Pc.rank : Pc → Nat
  | .test => 7
  | .lock => 6
  | .retest => 5
  | .construct => 4
  | .assign _ => 3
  | .unlock => 2
  | .read => 1
  | .returned _ => 0

/-- What is known at a place of the function. -/
def Pc.Fits (s : Statics) : Pc → Prop
  | .test | .lock => True
  | .retest => (s.inst = none ∧ s.made = 0) ∨ (s.inst = some 0 ∧ s.made = 1)
  | .construct => s.inst = none ∧ s.made = 0
  | .assign self => s.inst = none ∧ s.made = 1 ∧ self = 0
  | .unlock | .read => s.inst = some 0 ∧ s.made = 1
  | .returned result => s.inst = some 0 ∧ s.made = 1 ∧ result = some 0

/-- The invariant of the double check. -/
structure Checked (p : Pool Statics Pc) : Prop where
  /-- The lock is taken by as many calls as are inside. -/
  mutex : p.total Pc.holds = if p.shared.locked then 1 else 0
  once : p.shared.made ≤ 1
  /-- While nobody is inside, an object is there once it has been made. -/
  free : p.shared.locked = false → p.shared.inst = none ∧ p.shared.made = 0 ∨
    p.shared.inst = some 0 ∧ p.shared.made = 1
  stored : ∀ q, p.shared.inst = some q → q = 0 ∧ p.shared.made = 1
  fits : ∀ (i : Nat) pc, p.threads[i]? = some pc → pc.Fits p.shared

section Checked

variable {p q : Pool Statics Pc} {i j : Nat} {pc pc' : Pc} {s s' : Statics}

theorem Checked.init : Checked ⟨{}, []⟩ where
  mutex := rfl
  once := Nat.zero_le 1
  free _ := .inl ⟨rfl, rfl⟩
  stored q h := by cases h
  fits i pc h := by simp at h

theorem Checked.spawn (h : Checked p) : Checked (p.spawn .test) where
  mutex := by
    rw [Pool.total_spawn]
    exact h.mutex
  once := h.once
  free := h.free
  stored := h.stored
  fits := Pool.forall_spawn h.fits trivial

/-- Nobody else is inside with a call that is. -/
theorem Checked.alone (h : Checked p) (hi : p.threads[i]? = some pc) (hin : pc.holds = 1)
    (hj : p.threads[j]? = some pc') (hne : j ≠ i) : pc'.holds = 0 := by
  have htotal := Pool.add_le_total Pc.holds hj hi hne
  have hmutex := h.mutex
  split at hmutex <;> omega

/-- The calls outside know nothing that changes while the object is made. -/
theorem Pc.Fits.outside (h : pc.Fits s) (hout : pc.holds = 0) (hinst : s.inst = none) :
    pc.Fits s' := by
  cases pc with
  | test | lock => trivial
  | retest | construct | assign | unlock => cases hout
  | read | returned => cases hinst.symm.trans h.1

/-- The lock is nothing that a place of the function depends on. -/
theorem Pc.Fits.congr (h : pc.Fits s) (hinst : s'.inst = s.inst) (hmade : s'.made = s.made) :
    pc.Fits s' := by
  cases pc <;> simp only [Pc.Fits, hinst, hmade] at h ⊢ <;> exact h

theorem Checked.step (h : Checked p) (hstep : p.stepAt instanceStep i = some q) : Checked q := by
  obtain ⟨pc, s', pc', hi, hpc, rfl⟩ := Pool.stepAt_cases hstep
  have htotal := Pool.total_set Pc.holds hi s' pc'
  have hmutex := h.mutex
  have hfit := h.fits i pc hi
  cases pc with
  | test =>
      cases hpc
      have hout : (if p.shared.inst.isSome then Pc.read else .lock).holds = 0 := by split <;> rfl
      refine ⟨?_, h.once, h.free, h.stored,
        Pool.forall_set h.fits hi (fun _ => ?_) fun _ _ _ => id⟩
      · rw [← hmutex]
        rwa [hout] at htotal
      · split
        · next hsome =>
            obtain ⟨r, hr⟩ := Option.isSome_iff_exists.1 hsome
            obtain ⟨rfl, hmade⟩ := h.stored r hr
            exact ⟨hr, hmade⟩
        · trivial
  | lock =>
      rw [instanceStep] at hpc
      split at hpc
      · cases hpc
      · next hfree =>
          cases hpc
          have hfree : p.shared.locked = false := by simpa using hfree
          refine ⟨?_, h.once, by simp, h.stored, Pool.forall_set h.fits hi (fun _ => h.free hfree)
            fun _ _ _ hfits => hfits.congr rfl rfl⟩
          rw [hfree] at hmutex
          simp only [Pc.holds] at htotal
          simp only [if_true]
          simpa [hmutex] using htotal
  | retest =>
      cases hpc
      have hin : (if p.shared.inst.isSome then Pc.unlock else .construct).holds = 1 := by
        split <;> rfl
      refine ⟨?_, h.once, h.free, h.stored,
        Pool.forall_set h.fits hi (fun _ => ?_) fun _ _ _ => id⟩
      · rw [← hmutex]
        rw [hin, show Pc.retest.holds = 1 from rfl] at htotal
        exact Nat.add_right_cancel htotal
      · rcases hfit with ⟨hnone, hmade⟩ | ⟨hsome, hmade⟩
        · rw [hnone]
          exact ⟨hnone, hmade⟩
        · rw [hsome]
          exact ⟨hsome, hmade⟩
  | construct =>
      cases hpc
      obtain ⟨hnone, hmade⟩ := hfit
      refine ⟨?_, by simp [hmade], fun hlocked => ?_, fun q hq => ?_, Pool.forall_set
        (fun j u hj => (⟨hj, h.fits j u hj⟩ : p.threads[j]? = some u ∧ u.Fits p.shared)) hi
        (fun _ => ⟨hnone, by simp [hmade], hmade⟩) ?_⟩
      · rw [← hmutex]
        simpa [Pc.holds] using htotal
      · have := Pool.le_total Pc.holds hi
        rw [hmutex, show p.shared.locked = false from hlocked] at this
        cases this
      · cases hnone.symm.trans hq
      · exact fun j u hne hu => hu.2.outside (h.alone hi rfl hu.1 hne) hnone
  | assign self =>
      cases hpc
      obtain ⟨hnone, hmade, rfl⟩ := hfit
      refine ⟨?_, h.once, fun _ => .inr ⟨rfl, hmade⟩, fun q hq => ?_, Pool.forall_set
        (fun j u hj => (⟨hj, h.fits j u hj⟩ : p.threads[j]? = some u ∧ u.Fits p.shared)) hi
        (fun _ => ⟨rfl, hmade⟩) ?_⟩
      · rw [← hmutex]
        simpa [Pc.holds] using htotal
      · cases hq
        exact ⟨rfl, hmade⟩
      · exact fun j u hne hu => hu.2.outside (h.alone hi rfl hu.1 hne) hnone
  | unlock =>
      cases hpc
      refine ⟨?_, h.once, fun _ => .inr hfit, h.stored, Pool.forall_set h.fits hi (fun _ => hfit)
        fun _ _ _ hfits => hfits.congr rfl rfl⟩
      have hle := Pool.le_total Pc.holds hi
      simp only [Pc.holds] at htotal hle
      split at hmutex
      · simpa [hmutex] using htotal
      · omega
  | read =>
      cases hpc
      refine ⟨?_, h.once, h.free, h.stored, Pool.forall_set h.fits hi
        (fun _ => ⟨hfit.1, hfit.2, hfit.1⟩) fun _ _ _ => id⟩
      rw [← hmutex]
      simpa [Pc.holds] using htotal
  | returned result => cases hpc

theorem checked (h : instanceCalls.Reachable p) : Checked p := by
  refine System.invariant (S := instanceCalls) Checked.init ?_ h
  intro p a q hp hstep
  cases a with
  | call u =>
      cases hstep
      exact hp.spawn
  | step i => exact hp.step hstep

/-- While a call has not returned, some call can make a step. -/
theorem Checked.progress (h : Checked p) (hi : p.threads[i]? = some pc)
    (hrunning : ∀ r, pc ≠ .returned r) : ∃ j q, p.stepAt instanceStep j = some q := by
  -- only a call that waits for the lock cannot step, and then the call inside can
  have hsteps : ∀ (j : Nat) (u : Pc), p.threads[j]? = some u → (∀ r, u ≠ .returned r) →
      (u = .lock → p.shared.locked = false) → ∃ j q, p.stepAt instanceStep j = some q := by
    intro j u hj hu hlock
    refine ⟨j, ?_⟩
    rw [Pool.stepAt, hj, Option.bind_some]
    cases u with
    | returned r => exact absurd rfl (hu r)
    | lock => exact ⟨_, by rw [instanceStep, if_neg (by simp [hlock rfl])]; rfl⟩
    | test | retest | construct | assign | unlock | read => exact ⟨_, rfl⟩
  cases hlocked : p.shared.locked with
  | false => exact hsteps i pc hi hrunning fun _ => hlocked
  | true =>
      have hmutex := h.mutex
      rw [hlocked, if_pos rfl] at hmutex
      obtain ⟨j, u, hj, hholds⟩ := Pool.exists_of_total_pos (by omega : 0 < p.total Pc.holds)
      refine hsteps j u hj ?_ ?_
      · rintro r rfl
        cases hholds
      · rintro rfl
        cases hholds

/-- Each step brings a call nearer to its return. -/
theorem rank_step (h : instanceStep s pc = some (s', pc')) : pc'.rank + 1 ≤ pc.rank := by
  cases pc with
  | test =>
      cases h
      split <;> decide
  | lock =>
      rw [instanceStep] at h
      split at h <;> cases h
      decide
  | retest =>
      cases h
      split <;> decide
  | construct | assign | unlock | read =>
      cases h
      exact Nat.le_refl _
  | returned => cases h

/-- Once it is set, `_instance` is not set again. -/
theorem inst_kept {r : Nat} (hp : instanceCalls.Reachable p) (hr : p.shared.inst = some r)
    (h : instanceCalls.ReachesFrom p q) : q.shared.inst = some r := by
  refine (System.invariantFrom (S := instanceCalls)
    (P := fun u => instanceCalls.Reachable u ∧ u.shared.inst = some r) ?_ ⟨hp, hr⟩ h).2
  rintro s a t ⟨hs, hinst⟩ hstep
  refine ⟨hs.step hstep, ?_⟩
  cases a with
  | call u =>
      cases hstep
      exact hinst
  | step i =>
      obtain ⟨pc, s', pc', hi, hpc, rfl⟩ := Pool.stepAt_cases hstep
      cases pc with
      | assign self =>
          cases hinst.symm.trans ((checked hs).fits i _ hi).1
      | lock =>
          rw [instanceStep] at hpc
          split at hpc <;> cases hpc
          exact hinst
      | test | retest | construct | unlock | read =>
          cases hpc
          exact hinst
      | returned => cases hpc

end Checked

/-- No access waits for another. -/
theorem isSome_of_access (s : Statics) (pc : Pc) (h : pc.access ≠ .nothing) :
    (instanceStep s pc).isSome = true := by
  cases pc with
  | lock | construct | unlock | returned => exact absurd rfl h
  | test | retest | assign | read => rfl

/-- Two calls find no object; the second waits for the lock while the first
makes it. -/
def bothTest : List (RacingAction Statics Pc Unit) :=
  [.call (), .call (), .enter 0, .enter 1, .step 0, .step 1, .step 0, .enter 0, .step 0, .step 0,
    .enter 0, .step 0, .step 0, .step 1, .enter 1, .step 1, .step 1, .enter 0, .enter 1, .step 0, .step 1]

theorem bothTest_raceFree :
    instanceSystem.Always (RaceFree Pc.access) instanceSystem.init bothTest := by
  decide +kernel

end Factory

/-! ## `RubyQueue::instance` -/

namespace Queue

/-- What the calls share: `_instance`, and how many queues `new RubyQueue()` has
made, numbered from zero. -/
structure Statics where
  inst : Option Nat := none
  made : Nat := 0
  deriving DecidableEq, Repr

/-- Where a call is. -/
inductive Pc where
  | test
  | construct
  | assign (self : Nat)
  | read
  | returned (result : Option Nat)
  deriving DecidableEq, Repr

/-- The next step of a call of `instance()`. -/
def instanceStep (s : Statics) : Pc → Option (Statics × Pc)
  | .test => some (s, if s.inst.isSome then .read else .construct)
  | .construct => some ({ s with made := s.made + 1 }, .assign s.made)
  | .assign self => some ({ s with inst := some self }, .read)
  | .read => some (s, .returned s.inst)
  | .returned _ => none

/-- What a step does with `_instance`. -/
def Pc.access : Pc → DataAccess
  | .test | .read => .reads
  | .assign _ => .writes
  | .construct | .returned _ => .nothing

/-- Any number of threads call `instance()`, each step of which happens at once. -/
abbrev instanceCalls : System (Pool Statics Pc) (CallAction Unit) :=
  calls {} (fun _ => .test) instanceStep

/-- Any number of threads call `instance()`. -/
abbrev instanceSystem : System (Pool Statics (Accessing Pc)) (RacingAction Statics Pc Unit) :=
  racing {} (fun _ => .test) Pc.access instanceStep

/-- On its way from a test that has found nothing to the assignment. -/
def Pc.busy : Pc → Nat
  | .construct | .assign _ => 1
  | .test | .read | .returned _ => 0

/-- It is going to make a queue. -/
def Pc.pending : Pc → Nat
  | .construct => 1
  | .test | .assign _ | .read | .returned _ => 0

/-- The queues that are made, and those that are going to be. -/
def queues (p : Pool Statics Pc) : Nat := p.shared.made + p.total Pc.pending

/-- If a call tests and finds nothing then no other call is on its way. -/
def Alone (p : Pool Statics Pc) : CallAction Unit → Prop
  | .call _ => True
  | .step i => p.threads[i]? = some .test → p.shared.inst = none → p.total Pc.busy = 0

instance (p : Pool Statics Pc) (a : CallAction Unit) : Decidable (Alone p a) :=
  match a with
  | .call _ => isTrue trivial
  | .step _ => inferInstanceAs (Decidable (_ → _ → _))

/-- What is known at a place of the function. -/
def Pc.Fits (s : Statics) : Pc → Prop
  | .test | .construct => True
  | .assign self => self < s.made
  | .read => s.inst.isSome = true
  | .returned result => s.inst.isSome = true ∧ ∃ q, result = some q ∧ q < s.made

/-- The invariant, whether there is a race or not. -/
structure Counted (p : Pool Statics Pc) : Prop where
  /-- Before the first assignment, whoever has found nothing is still on its way. -/
  unset : p.shared.inst = none → queues p = p.total Pc.busy
  stored : ∀ q, p.shared.inst = some q → q < p.shared.made
  fits : ∀ (i : Nat) pc, p.threads[i]? = some pc → pc.Fits p.shared

section Counted

variable {p q : Pool Statics Pc} {i : Nat} {pc : Pc} {s s' : Statics}

theorem Counted.init : Counted ⟨{}, []⟩ where
  unset _ := rfl
  stored q h := by cases h
  fits i pc h := by simp at h

theorem Counted.spawn (h : Counted p) : Counted (p.spawn .test) where
  unset hnone := by
    rw [queues, Pool.total_spawn, Pool.total_spawn]
    exact h.unset hnone
  stored := h.stored
  fits := Pool.forall_spawn h.fits trivial

theorem Pc.Fits.mono (h : pc.Fits s) (hmade : s.made ≤ s'.made)
    (hinst : s.inst.isSome = true → s'.inst.isSome = true) : pc.Fits s' := by
  cases pc with
  | test | construct => trivial
  | assign self => exact Nat.lt_of_lt_of_le h hmade
  | read => exact hinst h
  | returned result =>
      obtain ⟨hsome, q, hq, hlt⟩ := h
      exact ⟨hinst hsome, q, hq, Nat.lt_of_lt_of_le hlt hmade⟩

/-- What a step of a call does, and that it adds a queue to be made if it is a
test that finds nothing. -/
theorem Counted.step (h : Counted p) (hstep : p.stepAt instanceStep i = some q) :
    Counted q ∧ queues q = queues p +
      if p.threads[i]? = some .test ∧ p.shared.inst = none then 1 else 0 := by
  obtain ⟨pc, s', pc', hi, hpc, rfl⟩ := Pool.stepAt_cases hstep
  have hpending := Pool.total_set Pc.pending hi s' pc'
  have hbusy := Pool.total_set Pc.busy hi s' pc'
  have hunset := h.unset
  have hfit := h.fits i pc hi
  rw [hi]
  cases pc with
  | test =>
      cases hinst : p.shared.inst with
      | none =>
          obtain ⟨rfl, rfl⟩ : p.shared = s' ∧ Pc.construct = pc' := by
            simpa [instanceStep, hinst] using hpc
          simp only [Pc.pending, Pc.busy] at hpending hbusy
          have hq : queues ⟨p.shared, p.threads.set i .construct⟩ = queues p + 1 := by
            simp only [queues]
            omega
          refine ⟨⟨fun _ => ?_, h.stored, Pool.forall_set h.fits hi (fun _ => trivial) fun _ _ _ => id⟩,
            by simpa using hq⟩
          rw [hq, hunset hinst]
          omega
      | some r =>
          obtain ⟨rfl, rfl⟩ : p.shared = s' ∧ Pc.read = pc' := by
            simpa [instanceStep, hinst] using hpc
          simp only [Pc.pending] at hpending
          refine ⟨⟨fun hnone => ?_, h.stored, Pool.forall_set h.fits hi (fun _ => ?_) fun _ _ _ => id⟩,
            ?_⟩
          · cases hinst.symm.trans hnone
          · exact Option.isSome_iff_exists.2 ⟨r, hinst⟩
          · simp only [queues]
            simpa using hpending
  | construct =>
      cases hpc
      simp only [Pc.pending, Pc.busy] at hpending hbusy
      have hq : queues ⟨{ p.shared with made := p.shared.made + 1 },
          p.threads.set i (.assign p.shared.made)⟩ = queues p := by
        simp only [queues]
        omega
      refine ⟨⟨fun hnone => ?_, fun q hq => Nat.lt_succ_of_lt (h.stored q hq), Pool.forall_set h.fits hi
        (fun _ => Nat.lt_succ_self _) fun _ _ _ hfits => hfits.mono (Nat.le_succ _) id⟩, ?_⟩
      · rw [hq, hunset hnone]
        omega
      · simpa using hq
  | assign self =>
      cases hpc
      simp only [Pc.pending] at hpending
      refine ⟨⟨fun hnone => ?_, fun q hq => ?_, Pool.forall_set h.fits hi (fun _ => rfl)
        fun _ _ _ hfits => hfits.mono (Nat.le_refl _) fun _ => rfl⟩, ?_⟩
      · cases hnone
      · cases hq
        exact hfit
      · simp only [queues]
        simpa using hpending
  | read =>
      cases hpc
      simp only [Pc.pending, Pc.busy] at hpending hbusy
      obtain ⟨r, hr⟩ := Option.isSome_iff_exists.1 hfit
      refine ⟨⟨fun hnone => ?_, h.stored, Pool.forall_set h.fits hi
        (fun _ => ⟨hfit, r, hr, h.stored r hr⟩) fun _ _ _ => id⟩, ?_⟩
      · cases hr.symm.trans hnone
      · simp only [queues]
        simpa using hpending
  | returned => cases hpc

theorem counted (h : instanceCalls.Reachable p) : Counted p := by
  refine System.invariant (S := instanceCalls) Counted.init ?_ h
  intro p a q hp hstep
  cases a with
  | call u =>
      cases hstep
      exact hp.spawn
  | step i => exact (hp.step hstep).1

/-- A run has at most one queue, made or to be made, if and only if its calls
test one at a time. -/
theorem queues_le_one_iff {as : List (CallAction Unit)} (h : instanceCalls.run as = some p) :
    queues p ≤ 1 ↔ instanceCalls.Meets Alone ⟨{}, []⟩ as := by
  induction as using List.reverseRecOn generalizing p with
  | nil =>
      cases h
      exact iff_of_true (Nat.zero_le 1) trivial
  | append_singleton as a ih =>
      rw [System.run, System.runFrom_concat] at h
      obtain ⟨t, ht, hstep⟩ := Option.bind_eq_some_iff.1 h
      have ht' : instanceCalls.runFrom ⟨{}, []⟩ as = some t := ht
      rw [System.meets_concat, ← ih ht, ht']
      simp only [Option.some.injEq, forall_eq']
      cases a with
      | call u =>
          cases hstep
          rw [queues, Pool.total_spawn]
          exact (and_iff_left trivial).symm
      | step i =>
          have hcounted := counted (System.reachable_of_run ht)
          rw [(hcounted.step hstep).2]
          simp only [Alone]
          by_cases hnull : t.threads[i]? = some .test ∧ t.shared.inst = none
          · have hunset := hcounted.unset hnull.2
            rw [if_pos hnull]
            constructor
            · intro hle
              exact ⟨by omega, fun _ _ => by omega⟩
            · rintro ⟨-, halone⟩
              have := halone hnull.1 hnull.2
              omega
          · rw [if_neg hnull, Nat.add_zero]
            exact (and_iff_left fun htest hinst => absurd ⟨htest, hinst⟩ hnull).symm

end Counted

/-- The second call tests before the first has assigned. -/
def bothFindNothing : List (RacingAction Statics Pc Unit) :=
  [.call (), .call (), .enter 0, .step 0, .step 0, .enter 1, .step 1, .enter 0, .step 0, .enter 0, .step 0,
    .step 1, .enter 1, .step 1, .enter 1, .step 1]

theorem bothFindNothing_raceFree :
    instanceSystem.Always (RaceFree Pc.access) instanceSystem.init bothFindNothing := by
  decide +kernel

end Queue

/-! ## `RegistryFactory::registry` -/

namespace Registries

section

variable {ο : Type} (hash : ο → UInt64)

/-- What the calls share: the map `_registries`, and the owners that registries
have been made for, be they in the map or not. -/
structure Shared (ο : Type) where
  index : Std.TreeMap UInt64 RegistryPtr := ∅
  made : List ο := []

/-- Where a call for an owner is. -/
inductive Pc (ο : Type) where
  | contains (owner : ο)
  | lookup (owner : ο)
  | construct (owner : ο)
  | emplace (owner : ο) (newRegistry : RegistryPtr)
  | returned (owner : ο) (result : Option RegistryPtr)
  deriving DecidableEq, Repr

/-- The next step of a call of `registry(owner)`. -/
def registryStep (s : Shared ο) : Pc ο → Option (Shared ο × Pc ο)
  | .contains o => some (s, if s.index[hash o]?.isSome then .lookup o else .construct o)
  | .lookup o => some (s, .returned o s.index[hash o]?)
  | .construct o => some ({ s with made := s.made ++ [o] }, .emplace o s.made.length)
  | .emplace o r =>
      let index := s.index.insertIfNew (hash o) r
      some ({ s with index }, .returned o index[hash o]?)
  | .returned _ _ => none

/-- What a step does with `_registries`; `operator[]` might insert. -/
def Pc.access : Pc ο → DataAccess
  | .contains _ => .reads
  | .lookup _ | .emplace _ _ => .writes
  | .construct _ | .returned _ _ => .nothing

/-- Any number of threads call `registry(owner)`, each step of which happens at once. -/
abbrev registryCalls : System (Pool (Shared ο) (Pc ο)) (CallAction ο) :=
  calls {} .contains (registryStep hash)

/-- Any number of threads call `registry(owner)`. -/
abbrev registrySystem :
    System (Pool (Shared ο) (Accessing (Pc ο))) (RacingAction (Shared ο) (Pc ο) ο) :=
  racing {} .contains Pc.access (registryStep hash)

/-- What is known at a place of the function. -/
def Pc.Fits (s : Shared ο) : Pc ο → Prop
  | .contains _ | .construct _ => True
  | .lookup o => s.index[hash o]?.isSome = true
  | .emplace o r => s.made[r]? = some o
  | .returned o result => result = s.index[hash o]? ∧ result.isSome = true

/-- The invariant: what is in the map has been made for an owner with its index. -/
structure Stored (p : Pool (Shared ο) (Pc ο)) : Prop where
  stored : ∀ (k : UInt64) (r : RegistryPtr), p.shared.index[k]? = some r →
    ∃ o, p.shared.made[r]? = some o ∧ hash o = k
  fits : ∀ (i : Nat) pc, p.threads[i]? = some pc → pc.Fits hash p.shared

/-- The map keeps what it has, and the list of what was made grows. -/
structure Grows (s s' : Shared ο) : Prop where
  index : ∀ (k : UInt64) (r : RegistryPtr), s.index[k]? = some r → s'.index[k]? = some r
  made : s.made <+: s'.made

variable {hash} {p q : Pool (Shared ο) (Pc ο)} {s s' : Shared ο} {pc pc' : Pc ο} {i : Nat}

theorem Grows.refl (s : Shared ο) : Grows s s := ⟨fun _ _ h => h, List.prefix_refl _⟩

theorem Grows.isSome (h : Grows s s') {k : UInt64} (hk : s.index[k]?.isSome = true) :
    s'.index[k]? = s.index[k]? := by
  obtain ⟨r, hr⟩ := Option.isSome_iff_exists.1 hk
  rw [hr, h.index k r hr]

theorem registryStep_grows (h : registryStep hash s pc = some (s', pc')) : Grows s s' := by
  cases pc with
  | contains o | lookup o =>
      cases h
      exact Grows.refl s
  | construct o =>
      cases h
      exact ⟨fun _ _ h => h, List.prefix_append _ _⟩
  | emplace o r =>
      cases h
      exact ⟨fun _ _ h => getElem?_insertIfNew_of_some h, List.prefix_refl _⟩
  | returned => cases h

/-- What is known stays known while the map and the list grow. -/
theorem Pc.Fits.mono (h : pc.Fits hash s) (hgrows : Grows s s') : pc.Fits hash s' := by
  cases pc with
  | contains | construct => trivial
  | lookup o =>
      rw [Pc.Fits, hgrows.isSome h]
      exact h
  | emplace o r =>
      obtain ⟨hr, rfl⟩ := List.getElem?_eq_some_iff.1 h
      exact (hgrows.made.getElem hr) ▸
        List.getElem?_eq_getElem (Nat.lt_of_lt_of_le hr hgrows.made.length_le)
  | returned o result =>
      obtain ⟨rfl, hsome⟩ := h
      exact ⟨(hgrows.isSome hsome).symm, hsome⟩

theorem Stored.step (h : Stored hash p) (hstep : p.stepAt (registryStep hash) i = some q) :
    Stored hash q := by
  obtain ⟨pc, s', pc', hi, hpc, rfl⟩ := Pool.stepAt_cases hstep
  have hgrows := registryStep_grows hpc
  have hfit := h.fits i pc hi
  suffices hself : (∀ (k : UInt64) (r : RegistryPtr), s'.index[k]? = some r →
      ∃ o, s'.made[r]? = some o ∧ hash o = k) ∧
      pc'.Fits hash s' from
    ⟨hself.1, Pool.forall_set h.fits hi (fun _ => hself.2) fun _ _ _ hfits => hfits.mono hgrows⟩
  cases pc with
  | contains o =>
      cases hpc
      refine ⟨h.stored, ?_⟩
      split
      · next hsome => exact hsome
      · trivial
  | lookup o =>
      cases hpc
      exact ⟨h.stored, rfl, hfit⟩
  | construct o =>
      cases hpc
      refine ⟨fun k r hr => ?_, List.getElem?_concat_length⟩
      obtain ⟨o', ho', hk⟩ := h.stored k r hr
      exact ⟨o', List.getElem?_append_left (List.getElem?_eq_some_iff.1 ho').1 ▸ ho', hk⟩
  | emplace o r =>
      cases hpc
      refine ⟨fun k r' hr' => ?_, rfl,
        Std.TreeMap.mem_iff_isSome_getElem?.1 Std.TreeMap.mem_insertIfNew_self⟩
      rcases getElem?_insertIfNew_cases hr' with ⟨rfl, rfl⟩ | hr'
      · exact ⟨o, hfit, rfl⟩
      · exact h.stored k r' hr'
  | returned => cases hpc

theorem Stored.init : Stored hash (registryCalls hash).init where
  stored k r h := by simp [calls] at h
  fits i pc h := by simp [calls] at h

theorem stored (h : (registryCalls hash).Reachable p) : Stored hash p := by
  refine System.invariant (S := registryCalls hash) Stored.init ?_ h
  intro p a q hp hstep
  cases a with
  | call o =>
      cases hstep
      exact ⟨hp.stored, Pool.forall_spawn hp.fits trivial⟩
  | step i => exact hp.step hstep

theorem grows_run (h : (registryCalls hash).ReachesFrom p q) : Grows p.shared q.shared := by
  refine System.invariantFrom (S := registryCalls hash) (P := fun u => Grows p.shared u.shared) ?_
    (Grows.refl _) h
  intro s a t hs hstep
  cases a with
  | call o =>
      cases hstep
      exact hs
  | step i =>
      obtain ⟨pc, s', pc', hi, hpc, rfl⟩ := Pool.stepAt_cases hstep
      have hmore := registryStep_grows hpc
      exact ⟨fun k r h => hmore.index k r (hs.index k r h), hs.made.trans hmore.made⟩

/-- A registry that has been made is not in the map, and no call is about to put
it there. -/
structure Lost (r : RegistryPtr) (p : Pool (Shared ο) (Pc ο)) : Prop where
  made : r < p.shared.made.length
  absent : ∀ k : UInt64, p.shared.index[k]? ≠ some r
  abandoned : ∀ (i : Nat) o, p.threads[i]? ≠ some (.emplace o r)

/-- It stays lost. -/
theorem Lost.step {r : RegistryPtr} (h : Lost r p) (hstep : p.stepAt (registryStep hash) i = some q) :
    Lost r q := by
  obtain ⟨pc, s', pc', hi, hpc, rfl⟩ := Pool.stepAt_cases hstep
  refine ⟨Nat.lt_of_lt_of_le h.made (registryStep_grows hpc).made.length_le, fun k hk => ?_,
    fun j o hj => ?_⟩
  · cases pc with
    | contains o | lookup o | construct o =>
        cases hpc
        exact h.absent k hk
    | emplace o r' =>
        cases hpc
        rcases getElem?_insertIfNew_cases hk with ⟨-, rfl⟩ | hk
        · exact h.abandoned i o hi
        · exact h.absent k hk
    | returned => cases hpc
  · refine Pool.forall_set (P := fun _ u => u ≠ .emplace o r) (Q := fun _ u => u ≠ .emplace o r)
      (fun j u hj hu => h.abandoned j o (by rw [hj, hu])) hi (fun _ => ?_) (fun _ _ _ => id) j _ hj rfl
    cases pc with
    | contains o' =>
        cases hpc
        split <;> simp
    | construct o' =>
        -- what is made now has the next number
        cases hpc
        rintro heq
        cases heq
        exact Nat.lt_irrefl _ h.made
    | lookup | emplace =>
        cases hpc
        simp
    | returned => cases hpc

theorem Lost.run {r : RegistryPtr} (h : Lost r p) (hrun : (registryCalls hash).ReachesFrom p q) :
    Lost r q := by
  refine System.invariantFrom (S := registryCalls hash) (P := Lost r) ?_ h hrun
  intro s a t hs hstep
  cases a with
  | call o =>
      cases hstep
      refine ⟨hs.made, hs.absent, fun i o' hi => ?_⟩
      exact Pool.forall_spawn (P := fun _ u => u ≠ .emplace o' r) (fun j u hj hu =>
        hs.abandoned j o' (by rw [hj, hu])) (by simp) i _ hi rfl
  | step i => exact hs.step hstep

variable (hash) in
/-- A call that nobody interferes with does what `RegistryFactory.registry` does. -/
theorem registry_alone (f : RegistryFactory) (self : ObjectId) (owner : Ptr) (o : ο)
    (hindex : p.shared.index = f.index) (hmade : p.shared.made.length = f.registries.length) :
    ∃ n q, (registryCalls hash).runFrom p (.call o :: List.replicate n (.step p.threads.length)) =
        some q ∧
      q.threads = p.threads ++ [.returned o (some (f.registry self (hash o) owner).1)] ∧
      q.shared.index = (f.registry self (hash o) owner).2.index ∧
      q.shared.made.length = (f.registry self (hash o) owner).2.registries.length := by
  -- a step of the call that has been added last
  have hlast : ∀ s pc s' pc', registryStep hash s pc = some (s', pc') →
      (registryCalls hash).step ⟨s, p.threads ++ [pc]⟩ (.step p.threads.length) =
        some ⟨s', p.threads ++ [pc']⟩ := by
    intro s pc s' pc' hpc
    show Pool.stepAt (registryStep hash) _ _ = _
    simp [Pool.stepAt, hpc]
  cases hr : f.index[hash o]? with
  | some r =>
      rw [RegistryFactory.registry_of_some hr]
      refine ⟨2, ⟨p.shared, p.threads ++ [.returned o (some r)]⟩, ?_, rfl, hindex, hmade⟩
      have hcontains : registryStep hash p.shared (.contains o) = some (p.shared, .lookup o) := by
        rw [registryStep, hindex, hr]
        rfl
      have hlookup : registryStep hash p.shared (.lookup o) =
          some (p.shared, .returned o (some r)) := by
        rw [registryStep, hindex, hr]
      show ((registryCalls hash).step ⟨p.shared, p.threads ++ [.contains o]⟩ _).bind _ = _
      rw [hlast _ _ _ _ hcontains, Option.bind_some]
      show ((registryCalls hash).step _ _).bind _ = _
      rw [hlast _ _ _ _ hlookup]
      rfl
  | none =>
      rw [RegistryFactory.registry_of_none hr]
      let s : Shared ο := { p.shared with made := p.shared.made ++ [o] }
      let t : Shared ο := { s with index := s.index.insertIfNew (hash o) p.shared.made.length }
      have hnew : t.index[hash o]? = some f.registries.length := by
        show (p.shared.index.insertIfNew (hash o) p.shared.made.length)[hash o]? = _
        rw [hindex, hmade]
        have hmine : (f.create self (hash o) owner).index[hash o]? = some f.registries.length := by
          rw [RegistryFactory.create_index hr, if_pos rfl]
        exact hmine
      refine ⟨3, ⟨t, p.threads ++ [.returned o (some f.registries.length)]⟩, ?_, rfl, ?_, ?_⟩
      · have hcontains : registryStep hash p.shared (.contains o) = some (p.shared, .construct o) := by
          rw [registryStep, hindex, hr]
          rfl
        have hemplace : registryStep hash s (.emplace o p.shared.made.length) =
            some (t, .returned o (some f.registries.length)) := by
          rw [← hnew]
          rfl
        show ((registryCalls hash).step ⟨p.shared, p.threads ++ [.contains o]⟩ _).bind _ = _
        rw [hlast _ _ _ _ hcontains, Option.bind_some]
        show ((registryCalls hash).step _ _).bind _ = _
        rw [hlast p.shared (.construct o) s (.emplace o p.shared.made.length) rfl, Option.bind_some]
        show ((registryCalls hash).step _ _).bind _ = _
        rw [hlast _ _ _ _ hemplace]
        rfl
      · show p.shared.index.insertIfNew (hash o) p.shared.made.length = _
        rw [hindex, hmade]
        rfl
      · show (p.shared.made ++ [o]).length = (f.registries ++ [_]).length
        rw [List.length_append, List.length_append, hmade]
        rfl

end

/-- Two calls for owners with one index find no registry; the first to emplace wins. -/
def bothConstruct : List (RacingAction (Shared Nat) (Pc Nat) Nat) :=
  [.call 7, .call 9, .enter 0, .enter 1, .step 0, .step 1, .step 0, .step 1, .enter 1, .step 1, .enter 0,
    .step 0]

theorem bothConstruct_raceFree : (registrySystem fun _ : Nat => 0).Always (RaceFree Pc.access)
    (registrySystem fun _ : Nat => 0).init bothConstruct := by
  decide +kernel

end Registries

end RuBLE.Instances
