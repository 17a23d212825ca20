import Mathlib
import RuBLE.Management.RubyQueue

/-!
# Waiting for the queue to start

`_startup_latch` is released once, and `ensure_started` waits for it by
acquiring it.

* `Latch` — the invariant of the latch: one permit, once the loop has released
  it, for all calls there will ever be.
* `Succeeds` — what a caller of `ensure_started` relies on.
* `succeeds_iff_onePolls` — **the start-up check can be made once**: every call
  gets its answer in exactly the runs in which a single call polls the latch
  after its release, and none runs out of time without having polled it.
-/

namespace RuBLE.CallbackQueue

open Transition

/-! ## The latch -/

/-- The loop has released `_startup_latch`. -/
def LoopPc.released : LoopPc → Bool
  | .notCreated | .lockRunMtx | .releaseLatch => false
  | _ => true

/-- The call of `ensure_started` has acquired the latch. -/
def EnsureStartedPc.acquired : EnsureStartedPc → Bool
  | .checkTime b => b
  | .returned => true
  | .tryAcquire | .kill _ | .threw => false

/-- The call of `ensure_started` kills the queue. -/
def EnsureStartedPc.failing : EnsureStartedPc → Bool
  | .kill _ | .threw => true
  | .tryAcquire | .checkTime _ | .returned => false

/-- How many permits of the latch a call has acquired. -/
def Call.latch : Call → Nat
  | .ensureStarted pc => pc.acquired.toNat
  | _ => 0

/-- There is one permit of the latch, and it is there or with a call. -/
def Latch (s : State) : Prop :=
  s.shared.startupLatch + s.total Call.latch = s.shared.loop.released.toNat

theorem LoopEffect.latch {rq rq' : RubyQueue} (h : LoopEffect rq rq') :
    rq'.startupLatch + rq.loop.released.toNat = rq.startupLatch + rq'.loop.released.toNat := by
  cases h with
  | lock hl | releaseLatch hl | setRunning hl | goRound hl | leave hl | acquire hl | goOn hl
  | leaveEarly hl | pop front item hl | begin item hl | finish item hl | unwind item hl
  | clearRunning hl | unlock threw hl => simp [hl, LoopPc.released]

theorem Effect.released {i : CallId} {rq rq' : RubyQueue} {l l' : Ledger}
    (h : Effect i rq l l' rq') : rq'.loop.released = rq.loop.released := by
  cases h with
  | createThread hnone => rw [hnone]; rfl
  | _ => rfl

section Calls

variable {debug : Bool} {i : CallId} {env : Env} {rq rq' : RubyQueue}

theorem stopStep_latch {pc pc' : StopPc} (h : stopStep rq pc = some (rq', pc')) :
    rq'.startupLatch = rq.startupLatch := by
  cases pc with
  | testAndSet =>
      simp only [stopStep] at h
      split at h <;> cases h <;> rfl
  | release => cases h; rfl
  | done => cases h

theorem runningStep_latch {pc pc' : RunningPc} (h : runningStep env rq pc = some (rq', pc')) :
    rq'.startupLatch = rq.startupLatch := by
  cases pc with
  | tryLock =>
      simp only [runningStep] at h
      split at h <;> cases h <;> rfl
  | test | clear | unlock => cases h; rfl
  | returned b => cases h

theorem stoppedStep_latch {pc pc' : StoppedPc} (h : stoppedStep env rq pc = some (rq', pc')) :
    rq'.startupLatch = rq.startupLatch := by
  unfold stoppedStep at h
  split at h
  · cases h; rfl
  · cases h; rfl
  · obtain ⟨pc₁, hin, rfl⟩ := inside_cases h
    exact runningStep_latch hin
  · cases h

theorem startStep_latch {pc pc' : StartPc} (h : startStep rq pc = some (rq', pc')) :
    rq'.startupLatch = rq.startupLatch := by
  cases pc with
  | testAndSet | create =>
      simp only [startStep] at h
      split at h <;> cases h <;> rfl
  | store => cases h; rfl
  | done => cases h

theorem killStep_latch {pc pc' : KillPc} (h : killStep rq pc = some (rq', pc')) :
    rq'.startupLatch = rq.startupLatch := by
  unfold killStep at h
  split at h
  · cases h; rfl
  · obtain ⟨pc₁, hin, rfl⟩ := inside_cases h
    exact stopStep_latch hin
  · simp only [Option.some.injEq, Prod.mk.injEq] at h
    obtain ⟨rfl, -⟩ := h
    split <;> rfl
  · cases h

theorem stopOnExitStep_latch {pc pc' : StopOnExitPc} (h : stopOnExitStep env rq pc = some (rq', pc')) :
    rq'.startupLatch = rq.startupLatch := by
  unfold stopOnExitStep at h
  split at h
  · cases h; rfl
  · obtain ⟨pc₁, hin, rfl⟩ := inside_cases h
    exact stopStep_latch hin
  · cases h; rfl
  · obtain ⟨pc₁, hin, rfl⟩ := inside_cases h
    exact stoppedStep_latch hin
  · cases h; rfl
  · obtain ⟨pc₁, hin, rfl⟩ := inside_cases h
    exact runningStep_latch hin
  · cases h; rfl
  · cases h; rfl
  · cases h; rfl
  · obtain ⟨pc₁, hin, rfl⟩ := inside_cases h
    exact killStep_latch hin
  · cases h

/-- A step of `ensure_started` keeps the permit it has, or takes one that is
there. -/
theorem ensureStartedStep_latch {pc pc' : EnsureStartedPc}
    (h : ensureStartedStep env rq pc = some (rq', pc')) :
    rq'.startupLatch + pc'.acquired.toNat = rq.startupLatch + pc.acquired.toNat := by
  unfold ensureStartedStep at h
  split at h
  · split at h
    · cases h; rfl
    · next hpoll =>
        cases h
        simp only [Bool.or_eq_true, decide_eq_true_eq, not_or] at hpoll
        simp only [EnsureStartedPc.acquired, Bool.toNat_true, Bool.toNat_false]
        omega
  · cases h; rfl
  · simp only [Option.some.injEq, Prod.mk.injEq] at h
    obtain ⟨rfl, rfl⟩ := h
    split <;> rfl
  · cases h; rfl
  · obtain ⟨pc₁, hin, rfl⟩ := inside_cases h
    exact congrArg (· + 0) (killStep_latch hin)
  · cases h
  · cases h

/-- **What a step of a call does to the latch.** -/
theorem callStep_latch {c c' : Call} (h : callStep debug i env rq c = some (rq', c')) :
    rq'.startupLatch + c'.latch = rq.startupLatch + c.latch := by
  cases c with
  | push pc =>
      obtain ⟨pc₁, hin, rfl⟩ := inside_cases h
      cases pc <;> cases hin <;> rfl
  | stop pc =>
      obtain ⟨pc₁, hin, rfl⟩ := inside_cases h
      exact stopStep_latch hin
  | running pc =>
      obtain ⟨pc₁, hin, rfl⟩ := inside_cases h
      exact runningStep_latch hin
  | stopped pc =>
      obtain ⟨pc₁, hin, rfl⟩ := inside_cases h
      exact stoppedStep_latch hin
  | start pc =>
      obtain ⟨pc₁, hin, rfl⟩ := inside_cases h
      exact startStep_latch hin
  | kill pc =>
      obtain ⟨pc₁, hin, rfl⟩ := inside_cases h
      exact killStep_latch hin
  | ensureStarted pc =>
      obtain ⟨pc₁, hin, rfl⟩ := inside_cases h
      exact ensureStartedStep_latch hin
  | stopOnExit pc =>
      obtain ⟨pc₁, hin, rfl⟩ := inside_cases h
      exact stopOnExitStep_latch hin

end Calls

/-- There is never more than the one permit. -/
theorem latch {debug : Bool} {s : State} (h : (queueSystem debug).Reachable s) : Latch s := by
  refine System.invariant (S := queueSystem debug) (P := Latch) rfl ?_ h
  intro s a t hs hstep
  rw [Latch] at hs ⊢
  rcases step_cases hstep with ⟨m, rfl⟩ | ⟨i, env, c, rq', c', hc, hcs, rfl⟩ | ⟨threw, rq', -, hl, rfl⟩
  · have hnew : m.entry.latch = 0 := by cases m <;> rfl
    rw [Pool.total_spawn, hnew]
    exact hs
  · have hpaid := callStep_latch hcs
    have htotal := Pool.total_set Call.latch hc rq' c'
    simp only [(callStep_effect hcs).released]
    omega
  · have hpaid := (loopStep_effect hl).latch
    have htotal : Pool.total Call.latch { s with shared := rq' } = s.total Call.latch := rfl
    simp only [htotal]
    omega

/-- Two calls do not both acquire the latch. -/
theorem eq_of_acquired {debug : Bool} {s : State} {i j : CallId} {pc pc' : EnsureStartedPc}
    (h : (queueSystem debug).Reachable s) (hi : s.threads[i]? = some (.ensureStarted pc))
    (hj : s.threads[j]? = some (.ensureStarted pc')) (hpc : pc.acquired = true)
    (hpc' : pc'.acquired = true) : i = j := by
  by_contra hne
  have htwo := Pool.add_le_total Call.latch hi hj hne
  have hlatch := latch h
  have hle := Bool.toNat_le s.shared.loop.released
  simp only [Call.latch, hpc, hpc', Bool.toNat_true] at htwo
  rw [Latch] at hlatch
  omega

/-! ## What a caller relies on -/

/-- In the run the `i`th call, one of `ensure_started`, polls the latch after
the loop has released it, and the poll does not fail spuriously. -/
def Polled (debug : Bool) (as : List Action) (i : CallId) : Prop :=
  ∃ bs env cs s, as = bs ++ .step i env :: cs ∧ (queueSystem debug).run bs = some s ∧
    s.threads[i]? = some (.ensureStarted .tryAcquire) ∧ env.spurious = false ∧
    s.shared.loop.released = true

/-- When a call finds its time to be up, the loop has released the latch. -/
def StartedInTime (s : State) : Action → Prop
  | .step i env => s.threads[i]? = some (.ensureStarted (.checkTime false)) →
      env.timedOut = true → s.shared.loop.released = true
  | .call _ | .loop _ => True

instance (s : State) (a : Action) : Decidable (StartedInTime s a) :=
  match a with
  | .step i env => inferInstanceAs (Decidable (s.threads[i]? = some (.ensureStarted (.checkTime false)) →
      env.timedOut = true → s.shared.loop.released = true))
  | .call _ | .loop _ => isTrue trivial

/-- When a call finds its time to be up, it has polled the latch after the loop
has released it. -/
def PolledInTime (debug : Bool) (as : List Action) : Prop :=
  ∀ bs i env cs s, as = bs ++ .step i env :: cs → (queueSystem debug).run bs = some s →
    s.threads[i]? = some (.ensureStarted (.checkTime false)) → env.timedOut = true →
      Polled debug bs i

/-- A single call polls the latch after the loop has released it. -/
def OnePolls (debug : Bool) (as : List Action) : Prop :=
  ∀ i j, Polled debug as i → Polled debug as j → i = j

/-- No call of `ensure_started` kills the queue, and each that has polled the
latch since its release has its answer. -/
structure Succeeds (debug : Bool) (as : List Action) (s : State) : Prop where
  unharmed : ∀ (i : CallId) (pc : EnsureStartedPc),
    s.threads[i]? = some (.ensureStarted pc) → pc.failing = false
  answered : ∀ (i : CallId) (pc : EnsureStartedPc),
    s.threads[i]? = some (.ensureStarted pc) → Polled debug as i → pc.acquired = true

/-- At every point of the run every call of `ensure_started` succeeds. -/
def AllSucceed (debug : Bool) (as : List Action) : Prop :=
  ∀ bs, bs <+: as → ∀ s, (queueSystem debug).run bs = some s → Succeeds debug bs s

/-! ## The check can be made once -/

theorem Polled.of_initial {debug : Bool} {as bs : List Action} {i : CallId} (h : Polled debug bs i)
    (hp : bs <+: as) : Polled debug as i := by
  obtain ⟨ds, rfl⟩ := hp
  obtain ⟨cs, env, es, s, rfl, hs, hc, hspurious, hreleased⟩ := h
  exact ⟨cs, env, es ++ ds, s, by simp, hs, hc, hspurious, hreleased⟩

/-- The last step of a run either is the poll, or the poll was before. -/
theorem polled_concat {debug : Bool} {as : List Action} {a : Action} {i : CallId}
    (h : Polled debug (as ++ [a]) i) : Polled debug as i ∨ ∃ env s, a = .step i env ∧
      (queueSystem debug).run as = some s ∧ s.threads[i]? = some (.ensureStarted .tryAcquire) ∧
      env.spurious = false ∧ s.shared.loop.released = true := by
  obtain ⟨bs, env, cs, s, heq, hs, hc, hspurious, hreleased⟩ := h
  rcases List.eq_nil_or_concat cs with rfl | ⟨cs, b, rfl⟩
  · obtain ⟨rfl, hab⟩ := List.append_inj' heq rfl
    exact .inr ⟨env, s, (List.cons.inj hab).1, hs, hc, hspurious, hreleased⟩
  · rw [List.concat_eq_append, ← List.cons_append, ← List.append_assoc] at heq
    obtain ⟨rfl, -⟩ := List.append_inj' heq rfl
    exact .inl ⟨bs, env, cs, s, rfl, hs, hc, hspurious, hreleased⟩

theorem EnsureStartedPc.acquired_of_failing {pc : EnsureStartedPc} (h : pc.failing = true) :
    pc.acquired = false := by
  cases pc <;> first | rfl | cases h

/-- Only calls of `ensure_started` acquire the latch. -/
theorem Call.ensureStarted_of_latch {c : Call} (h : 0 < c.latch) :
    ∃ pc, c = .ensureStarted pc ∧ pc.acquired = true := by
  cases c with
  | ensureStarted pc =>
      refine ⟨pc, rfl, ?_⟩
      by_contra hnot
      rw [Call.latch, show pc.acquired = false by simpa using hnot] at h
      exact Nat.lt_irrefl _ h
  | _ => exact absurd h (Nat.lt_irrefl 0)

/-- **What a step of `ensure_started` does.** -/
theorem ensureStartedStep_cases {env : Env} {rq rq' : RubyQueue} {pc pc' : EnsureStartedPc}
    (h : ensureStartedStep env rq pc = some (rq', pc')) :
    (pc = .tryAcquire ∧ pc' = .checkTime false ∧ (rq.startupLatch = 0 ∨ env.spurious = true)) ∨
    (pc = .tryAcquire ∧ pc' = .checkTime true ∧ rq.startupLatch ≠ 0 ∧ env.spurious = false) ∨
    (pc = .checkTime true ∧ pc' = .returned) ∨
    (pc = .checkTime false ∧ env.timedOut = false ∧ pc' = .tryAcquire) ∨
    (pc = .checkTime false ∧ env.timedOut = true ∧ pc'.failing = true) ∨
    (pc.failing = true ∧ pc'.failing = true) := by
  unfold ensureStartedStep at h
  split at h
  · split at h
    · next hfails =>
        cases h
        exact .inl ⟨rfl, rfl, by simpa using hfails⟩
    · next hpoll =>
        cases h
        simp only [Bool.or_eq_true, decide_eq_true_eq, not_or, Bool.not_eq_true] at hpoll
        exact .inr (.inl ⟨rfl, rfl, hpoll.1, hpoll.2⟩)
  · cases h
    exact .inr (.inr (.inl ⟨rfl, rfl⟩))
  · simp only [Option.some.injEq, Prod.mk.injEq] at h
    obtain ⟨-, rfl⟩ := h
    cases hup : env.timedOut with
    | false => exact .inr (.inr (.inr (.inl ⟨rfl, rfl, rfl⟩)))
    | true => exact .inr (.inr (.inr (.inr (.inl ⟨rfl, rfl, rfl⟩))))
  · cases h
    exact .inr (.inr (.inr (.inr (.inr ⟨rfl, rfl⟩))))
  · obtain ⟨pc₁, -, rfl⟩ := inside_cases h
    exact .inr (.inr (.inr (.inr (.inr ⟨rfl, rfl⟩))))
  · cases h
  · cases h

/-- Where a call of `ensure_started` stands after a step: where it stood before,
at its beginning, or where its own step has brought it. -/
theorem ensureStarted_step {debug : Bool} {s t : State} {a : Action} {i : CallId}
    {pc' : EnsureStartedPc} (hstep : step debug s a = some t)
    (h : t.threads[i]? = some (.ensureStarted pc')) :
    s.threads[i]? = some (.ensureStarted pc') ∧ (∀ env, a ≠ .step i env) ∨
      i = s.threads.length ∧ pc' = .tryAcquire ∨
      ∃ env pc rq', a = .step i env ∧ s.threads[i]? = some (.ensureStarted pc) ∧
        ensureStartedStep env s.shared pc = some (rq', pc') := by
  cases hbefore : s.threads[i]? with
  | none =>
      obtain ⟨m, rfl, rfl, heq⟩ := thread_begins hbefore hstep h
      refine .inr (.inl ⟨rfl, ?_⟩)
      cases m <;> cases heq
      rfl
  | some c =>
      rcases thread_step hbefore hstep with ⟨hsame, hother⟩ | ⟨env, c', rfl, hcs, hc'⟩
      · rw [hsame] at h
        cases h
        exact .inl ⟨rfl, hother⟩
      · rw [hc'] at h
        cases h
        cases c with
        | ensureStarted pc =>
            obtain ⟨pc₁, hin, heq⟩ := inside_cases hcs
            cases heq
            exact .inr (.inr ⟨env, pc, t.shared, rfl, rfl, hin⟩)
        | push pc | stop pc | running pc | stopped pc | start pc | kill pc | stopOnExit pc =>
            obtain ⟨pc₁, -, heq⟩ := inside_cases hcs
            cases heq

/-- A call that polls is there. -/
theorem Polled.lt_length {debug : Bool} {as : List Action} {s : State} {i : CallId}
    (h : Polled debug as i) (hrun : (queueSystem debug).run as = some s) : i < s.threads.length := by
  obtain ⟨bs, env, cs, u, rfl, hu, hc, -, -⟩ := h
  rw [System.run, System.runFrom_append] at hrun
  rw [System.run] at hu
  rw [hu] at hrun
  refine System.invariantFrom (S := queueSystem debug) (P := fun v => i < v.threads.length) ?_
    (List.getElem?_eq_some_iff.1 hc).1 ⟨_, hrun⟩
  intro v a w hv hstep
  rcases step_cases hstep with ⟨m, rfl⟩ | ⟨j, env, c, rq', c', -, -, rfl⟩ | ⟨threw, rq', -, -, rfl⟩
  · rw [Pool.spawn_threads, List.length_append]
    exact Nat.lt_add_right _ hv
  · rw [List.length_set]
    exact hv
  · exact hv

/-- Who has acquired the latch has polled it after its release. -/
theorem polled_of_acquired {debug : Bool} (as : List Action) :
    ∀ s, (queueSystem debug).run as = some s → ∀ (i : CallId) (pc : EnsureStartedPc),
      s.threads[i]? = some (.ensureStarted pc) → pc.acquired = true → Polled debug as i := by
  induction as using List.reverseRecOn with
  | nil =>
      intro s hs i pc hc
      cases hs
      cases hc
  | append_singleton as a ih =>
      intro t ht i pc' hc' hpc'
      rw [System.run, System.runFrom_concat] at ht
      obtain ⟨s, hs, hstep⟩ := Option.bind_eq_some_iff.1 ht
      have hprefix : as <+: as ++ [a] := List.prefix_append as [a]
      rcases ensureStarted_step hstep hc' with ⟨hc, -⟩ | ⟨-, rfl⟩ | ⟨env, pc, rq', rfl, hc, hin⟩
      · exact (ih s hs i pc' hc hpc').of_initial hprefix
      · cases hpc'
      · cases hpc : pc.acquired with
        | true => exact (ih s hs i pc hc hpc).of_initial hprefix
        | false =>
            -- only a poll that finds the permit acquires it
            have hlatch := latch (System.reachable_of_run hs)
            have hpaid := ensureStartedStep_latch hin
            rw [hpc, hpc', Bool.toNat_true, Bool.toNat_false] at hpaid
            rw [Latch] at hlatch
            have hreleased : s.shared.loop.released = true := by
              by_contra hnot
              rw [show s.shared.loop.released = false by simpa using hnot, Bool.toNat_false] at hlatch
              omega
            rcases ensureStartedStep_cases hin with ⟨-, rfl, -⟩ | ⟨rfl, -, -, hspurious⟩ | ⟨rfl, -⟩ |
              ⟨-, -, rfl⟩ | ⟨-, -, hfailing⟩ | ⟨-, hfailing⟩
            · cases hpc'
            · exact ⟨as, env, [], s, rfl, hs, hc, hspurious, hreleased⟩
            · cases hpc
            · cases hpc'
            · rw [EnsureStartedPc.acquired_of_failing hfailing] at hpc'
              cases hpc'
            · rw [EnsureStartedPc.acquired_of_failing hfailing] at hpc'
              cases hpc'

theorem OnePolls.of_initial {debug : Bool} {as bs : List Action} (h : OnePolls debug as)
    (hp : bs <+: as) : OnePolls debug bs :=
  fun i j hi hj => h i j (hi.of_initial hp) (hj.of_initial hp)

theorem PolledInTime.of_initial {debug : Bool} {as bs : List Action} (h : PolledInTime debug as)
    (hp : bs <+: as) : PolledInTime debug bs := by
  obtain ⟨ds, rfl⟩ := hp
  rintro cs i env es s rfl
  exact h cs i env (es ++ ds) s (by simp)

/-- The only call that polls the latch after its release finds the permit. -/
theorem OnePolls.latch_ne_zero {debug : Bool} {as : List Action} {a : Action} {s : State}
    {i : CallId} (hone : OnePolls debug (as ++ [a])) (hs : (queueSystem debug).run as = some s)
    (hpolled : Polled debug (as ++ [a]) i) (hc : s.threads[i]? = some (.ensureStarted .tryAcquire))
    (hreleased : s.shared.loop.released = true) : s.shared.startupLatch ≠ 0 := by
  intro hempty
  have hlatch := latch (System.reachable_of_run hs)
  rw [Latch, hempty, hreleased, Bool.toNat_true] at hlatch
  -- the permit is gone, and the call that has it has polled too
  obtain ⟨j, c, hj, hpos⟩ := Pool.exists_of_total_pos (w := Call.latch) (p := s) (by omega)
  obtain ⟨pc, rfl, hacq⟩ := Call.ensureStarted_of_latch hpos
  have hbefore : Polled debug as j := polled_of_acquired as s hs j pc hj hacq
  obtain rfl : i = j := hone i j hpolled (hbefore.of_initial (List.prefix_append as [a]))
  rw [hc] at hj
  cases hj
  cases hacq

/-- No call is harmed that has the permit once it has polled the latch. -/
theorem Succeeds.unharmed_step {debug : Bool} {as : List Action} {a : Action} {s t : State}
    (h : Succeeds debug as s) (hs : (queueSystem debug).run as = some s)
    (hstep : step debug s a = some t) (htime : PolledInTime debug (as ++ [a])) {i : CallId}
    {pc' : EnsureStartedPc} (hc' : t.threads[i]? = some (.ensureStarted pc')) :
    pc'.failing = false := by
  rcases ensureStarted_step hstep hc' with ⟨hc, -⟩ | ⟨-, rfl⟩ | ⟨env, pc, rq', rfl, hc, hin⟩
  · exact h.unharmed i pc' hc
  · rfl
  · rcases ensureStartedStep_cases hin with ⟨-, rfl, -⟩ | ⟨-, rfl, -, -⟩ | ⟨-, rfl⟩ |
      ⟨-, -, rfl⟩ | ⟨rfl, hup, -⟩ | ⟨hfailing, -⟩
    · rfl
    · rfl
    · rfl
    · rfl
    · -- its time is up, so it has polled the latch
      have hpolled := htime as i env [] s rfl hs hc hup
      cases h.answered i _ hc hpolled
    · rw [h.unharmed i pc hc] at hfailing
      cases hfailing

/-- A call that has the permit keeps it. -/
theorem ensureStartedStep_acquired {env : Env} {rq rq' : RubyQueue} {pc pc' : EnsureStartedPc}
    (h : ensureStartedStep env rq pc = some (rq', pc')) (hpc : pc.acquired = true) :
    pc'.acquired = true := by
  rcases ensureStartedStep_cases h with ⟨rfl, -⟩ | ⟨rfl, -⟩ | ⟨-, rfl⟩ | ⟨rfl, -⟩ | ⟨rfl, -⟩ |
    ⟨hfailing, -⟩
  · cases hpc
  · cases hpc
  · rfl
  · cases hpc
  · cases hpc
  · rw [EnsureStartedPc.acquired_of_failing hfailing] at hpc
    cases hpc

/-- One step keeps what the callers rely on, in a run in which a single call
polls the latch and none runs out of time without having done so. -/
theorem Succeeds.concat {debug : Bool} {as : List Action} {a : Action} {s t : State}
    (hs : (queueSystem debug).run as = some s) (hstep : step debug s a = some t)
    (hone : OnePolls debug (as ++ [a])) (htime : PolledInTime debug (as ++ [a]))
    (h : Succeeds debug as s) : Succeeds debug (as ++ [a]) t := by
  refine ⟨fun i pc' hc' => h.unharmed_step hs hstep htime hc', fun i pc' hc' hpolled => ?_⟩
  rcases ensureStarted_step hstep hc' with ⟨hc, hother⟩ | ⟨rfl, rfl⟩ | ⟨env, pc, rq', rfl, hc, hin⟩
  · rcases polled_concat hpolled with hbefore | ⟨env, -, heq, -⟩
    · exact h.answered i pc' hc hbefore
    · exact absurd heq (hother env)
  · -- a call that begins has not polled yet
    rcases polled_concat hpolled with hbefore | ⟨env, u, -, hu, hc, -⟩
    · exact absurd (hbefore.lt_length hs) (Nat.lt_irrefl _)
    · rw [hs] at hu
      cases hu
      exact absurd (List.getElem?_eq_some_iff.1 hc).1 (Nat.lt_irrefl _)
  · rcases polled_concat hpolled with hbefore | ⟨env', u, heq, hu, hc₁, hspurious, hreleased⟩
    · exact ensureStartedStep_acquired hin (h.answered i pc hc hbefore)
    · rw [hs] at hu
      cases hu
      cases heq
      rw [hc] at hc₁
      cases hc₁
      have hpermit : s.shared.startupLatch ≠ 0 := hone.latch_ne_zero hs hpolled hc hreleased
      rcases ensureStartedStep_cases hin with ⟨-, -, hzero | hfails⟩ | ⟨-, rfl, -⟩ | ⟨hpc, -⟩ |
        ⟨hpc, -⟩ | ⟨hpc, -⟩ | ⟨hpc, -⟩
      · exact absurd hzero hpermit
      · rw [hspurious] at hfails
        cases hfails
      · rfl
      · cases hpc
      · cases hpc
      · cases hpc
      · cases hpc

/-- A call of `ensure_started` stays one. -/
theorem ensureStarted_forever {debug : Bool} {s t : State} {i : CallId} {pc : EnsureStartedPc}
    (hc : s.threads[i]? = some (.ensureStarted pc)) (h : (queueSystem debug).ReachesFrom s t) :
    ∃ pc', t.threads[i]? = some (.ensureStarted pc') := by
  refine System.invariantFrom (S := queueSystem debug)
    (P := fun u => ∃ pc, u.threads[i]? = some (.ensureStarted pc)) ?_ ⟨pc, hc⟩ h
  rintro u a v ⟨pc, hu⟩ hstep
  rcases thread_step hu hstep with ⟨hsame, -⟩ | ⟨env, c', rfl, hcs, hc'⟩
  · exact ⟨pc, hsame⟩
  · obtain ⟨pc', -, rfl⟩ := inside_cases hcs
    exact ⟨pc', hc'⟩

/-- The step a call of `ensure_started` makes in the whole system. -/
theorem step_ensureStarted {debug : Bool} {s : State} {i : CallId} {env : Env} {rq' : RubyQueue}
    {pc pc' : EnsureStartedPc} (hc : s.threads[i]? = some (.ensureStarted pc))
    (h : ensureStartedStep env s.shared pc = some (rq', pc')) :
    step debug s (.step i env) = some ⟨rq', s.threads.set i (.ensureStarted pc')⟩ := by
  simp [step, Pool.stepAt, hc, callStep, inside, h]

/-- A call that has polled the latch, in a run in which every call succeeds, has
the permit at some point of the run, and from there on. -/
theorem Polled.acquires {debug : Bool} {as : List Action} {i : CallId} (h : Polled debug as i)
    (hall : AllSucceed debug as) : ∃ bs, bs <+: as ∧ (∃ s, (queueSystem debug).run bs = some s) ∧
      ∀ cs, bs <+: cs → cs <+: as → ∀ s, (queueSystem debug).run cs = some s →
        ∃ pc, s.threads[i]? = some (.ensureStarted pc) ∧ pc.acquired = true := by
  obtain ⟨bs, env, cs, s, rfl, hs, hc, hspurious, hreleased⟩ := h
  refine ⟨bs ++ [.step i env], ⟨cs, by simp⟩, ?_, ?_⟩
  · obtain ⟨⟨rq', pc'⟩, hpoll⟩ : ∃ r, ensureStartedStep env s.shared .tryAcquire = some r := by
      simp only [ensureStartedStep]
      split <;> exact ⟨_, rfl⟩
    refine ⟨⟨rq', s.threads.set i (.ensureStarted pc')⟩, ?_⟩
    rw [System.run] at hs
    rw [System.run, System.runFrom_concat, hs]
    exact step_ensureStarted hc hpoll
  rintro ds hbs hds t ht
  have hpolled : Polled debug ds i :=
    Polled.of_initial ⟨bs, env, [], s, rfl, hs, hc, hspurious, hreleased⟩ hbs
  have hreach : (queueSystem debug).ReachesFrom s t := by
    obtain ⟨es, rfl⟩ := (List.prefix_append bs _).trans hbs
    rw [System.run] at hs
    rw [System.run, System.runFrom_append, hs] at ht
    exact ⟨es, ht⟩
  obtain ⟨pc, hpc⟩ := ensureStarted_forever hc hreach
  exact ⟨pc, hpc, (hall ds hds t ht).answered i pc hpc hpolled⟩

/-- **The start-up check can be made once.**  Every call of `ensure_started`
succeeds, at every point of a run, if and only if a single call polls the latch
after its release, and none runs out of time without having polled it. -/
theorem succeeds_iff_onePolls (debug : Bool) (as : List Action) :
    AllSucceed debug as ↔ OnePolls debug as ∧ PolledInTime debug as := by
  constructor
  · intro hall
    refine ⟨fun i j hi hj => ?_, fun bs i env cs s has hs hc hup => ?_⟩
    · obtain ⟨bs, hbs, ⟨s, hs⟩, hfrom⟩ := hi.acquires hall
      obtain ⟨cs, hcs, ⟨t, ht⟩, hfrom'⟩ := hj.acquires hall
      -- the two permits are there together at the later of the two polls
      rcases List.prefix_or_prefix_of_prefix hbs hcs with hle | hle
      · obtain ⟨pc, hpc, hacq⟩ := hfrom cs hle hcs t ht
        obtain ⟨pc', hpc', hacq'⟩ := hfrom' cs (List.prefix_refl cs) hcs t ht
        exact eq_of_acquired (System.reachable_of_run ht) hpc hpc' hacq hacq'
      · obtain ⟨pc, hpc, hacq⟩ := hfrom bs (List.prefix_refl bs) hbs s hs
        obtain ⟨pc', hpc', hacq'⟩ := hfrom' bs hle hbs s hs
        exact eq_of_acquired (System.reachable_of_run hs) hpc hpc' hacq hacq'
    · -- a call whose time is up goes on to kill the queue
      exfalso
      have hkill : ensureStartedStep env s.shared (.checkTime false) =
          some (s.shared, .kill (.stop .testAndSet)) := by
        simp [ensureStartedStep, hup]
      have hnext : (queueSystem debug).run (bs ++ [.step i env]) =
          some ⟨s.shared, s.threads.set i (.ensureStarted (.kill (.stop .testAndSet)))⟩ := by
        rw [System.run] at hs
        rw [System.run, System.runFrom_concat, hs]
        exact step_ensureStarted hc hkill
      have hok := hall _ ⟨cs, by rw [has]; simp⟩ _ hnext
      cases hok.unharmed i _ (List.getElem?_set_self (List.getElem?_eq_some_iff.1 hc).1)
  · rintro ⟨hone, htime⟩ bs hbs
    have hone' : OnePolls debug bs := hone.of_initial hbs
    have htime' : PolledInTime debug bs := htime.of_initial hbs
    clear hbs hone htime
    induction bs using List.reverseRecOn with
    | nil =>
        intro s hs
        cases hs
        exact ⟨fun i pc hc => (by cases hc), fun i pc hc => (by cases hc)⟩
    | append_singleton bs a ih =>
        intro t ht
        rw [System.run, System.runFrom_concat] at ht
        obtain ⟨s, hs, hstep⟩ := Option.bind_eq_some_iff.1 ht
        have hprefix : bs <+: bs ++ [a] := List.prefix_append bs [a]
        have hbefore : Succeeds debug bs s :=
          ih (hone'.of_initial hprefix) (htime'.of_initial hprefix) s hs
        exact hbefore.concat hs hstep hone' htime'

/-! ### A second call -/

/-- The loop has started, and one call has found that out; then another makes
the check, until its time is up. -/
def secondCheck : List Action :=
  [.call .start, .step 0 {}, .step 0 {}, .step 0 {}, .loop false, .loop false,
    .call .ensureStarted, .step 1 {}, .step 1 {}, .call .ensureStarted, .step 2 {},
    .step 2 { timedOut := true }]

/-- The second call kills the queue, which is there and runs. -/
theorem not_succeeds_secondCheck : ¬ ∀ (debug : Bool) (as : List Action),
    (queueSystem debug).Meets StartedInTime ⟨{}, []⟩ as → AllSucceed debug as := by
  intro hall
  have hok := hall false secondCheck (by decide) secondCheck (List.prefix_refl _)
  have hrun : ((queueSystem false).run secondCheck).map (·.threads[2]?) =
      some (some (.ensureStarted (.kill (.stop .testAndSet)))) := by decide
  obtain ⟨s, hs, hc⟩ := Option.map_eq_some_iff.1 hrun
  cases (hok s hs).unharmed 2 _ hc

end RuBLE.CallbackQueue
