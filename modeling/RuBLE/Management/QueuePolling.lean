import Mathlib
import RuBLE.Management.RubyQueue
import RuBLE.Utils.Async

/-!
# How the queue waits

`ensure_started` and `stop_on_exit` wait by `wait_until`, and what their
predicates look at is shared with the other threads.

* `Waits` — where a call stands in `wait_until`, or what that has returned.
* `polls_of_run` — **the calls wait by `wait_until`**: in every interleaving they
  go where its steps lead for what their polls have found.
* `not_gaveUp_of_success` — a call that has acquired the latch, or has found the
  queue not to be running, does not go on to kill the queue;
  `success_iff_acquires` says which polls acquire it.
-/

namespace RuBLE.CallbackQueue

open Transition Async

/-- Where a call stands in its `wait_until`. -/
inductive Waits : Call → WaitPc → Prop
  | tryAcquire : Waits (.ensureStarted .tryAcquire) .callFn
  | checkLatch (acquired : Bool) : Waits (.ensureStarted (.checkTime acquired)) (.checkTime acquired)
  | started : Waits (.ensureStarted .returned) (.returned true)
  | notStarted (pc : KillPc) : Waits (.ensureStarted (.kill pc)) (.returned false)
  | threw : Waits (.ensureStarted .threw) (.returned false)
  | poll (pc : RunningPc) : Waits (.stopOnExit (.poll pc)) .callFn
  | checkRunning (stillRunning : Bool) :
      Waits (.stopOnExit (.checkTime stillRunning)) (.checkTime (!stillRunning))
  | stopped : Waits (.stopOnExit .returned) (.returned true)
  | notStopped (pc : KillPc) : Waits (.stopOnExit (.kill pc)) (.returned false)
  | killed : Waits (.stopOnExit .returned) (.returned false)

/-- What a step of a call is to its `wait_until`. -/
def Call.waitEvent (env : Env) (rq : RubyQueue) : Call → Option WaitEvent
  | .ensureStarted .tryAcquire => some (.fn (!(rq.startupLatch = 0 || env.spurious)))
  | .stopOnExit (.poll (.returned b)) => some (.fn (!b))
  | .ensureStarted (.checkTime _) | .stopOnExit (.checkTime _) => some (.time env.timedOut)
  | _ => none

/-- What a step of the queue and the calls on it is to the `wait_until` of the
`i`th. -/
def waitEvent (i : CallId) (s : State) : Action → Option WaitEvent
  | .step j env => if j = i then s.threads[i]?.bind (·.waitEvent env s.shared) else none
  | .call _ | .loop _ => none

/-- The call has given up waiting, and kills the queue or has killed it. -/
def Call.gaveUp : Call → Bool
  | .ensureStarted (.kill _) | .ensureStarted .threw | .stopOnExit (.kill _) => true
  | _ => false

section Steps

variable {debug : Bool} {i : CallId} {env : Env} {rq rq' : RubyQueue} {w : WaitPc}

theorem ensureStartedStep_waits {pc pc' : EnsureStartedPc} (hw : Waits (.ensureStarted pc) w)
    (h : ensureStartedStep env rq pc = some (rq', pc')) :
    ∃ w', waitSystem.runFrom w (Call.waitEvent env rq (.ensureStarted pc)).toList = some w' ∧
      Waits (.ensureStarted pc') w' := by
  cases hw with
  | tryAcquire =>
      simp only [ensureStartedStep] at h
      simp only [Call.waitEvent]
      split at h
      · next hfails =>
          cases h
          rw [hfails]
          exact ⟨_, rfl, .checkLatch false⟩
      · next hpoll =>
          cases h
          rw [Bool.eq_false_iff.2 hpoll]
          exact ⟨_, rfl, .checkLatch true⟩
  | checkLatch acquired =>
      cases acquired with
      | true =>
          cases h
          exact ⟨_, rfl, .started⟩
      | false =>
          cases h
          refine ⟨_, rfl, ?_⟩
          cases env.timedOut with
          | true => exact .notStarted _
          | false => exact .tryAcquire
  | notStarted pc =>
      refine ⟨_, rfl, ?_⟩
      cases pc with
      | done =>
          cases h
          exact .threw
      | stop pc | threadKill =>
          obtain ⟨pc₁, -, rfl⟩ := inside_cases h
          exact .notStarted pc₁
  | started | threw => cases h

theorem stopOnExitStep_waits {pc pc' : StopOnExitPc} (hw : Waits (.stopOnExit pc) w)
    (h : stopOnExitStep env rq pc = some (rq', pc')) :
    ∃ w', waitSystem.runFrom w (Call.waitEvent env rq (.stopOnExit pc)).toList = some w' ∧
      Waits (.stopOnExit pc') w' := by
  cases hw with
  | poll pc =>
      cases pc with
      | returned b =>
          cases h
          exact ⟨_, rfl, .checkRunning b⟩
      | test | tryLock | clear | unlock =>
          obtain ⟨pc₁, -, rfl⟩ := inside_cases h
          exact ⟨_, rfl, .poll pc₁⟩
  | checkRunning stillRunning =>
      cases stillRunning with
      | false =>
          cases h
          exact ⟨_, rfl, .stopped⟩
      | true =>
          cases h
          refine ⟨_, rfl, ?_⟩
          cases env.timedOut with
          | true => exact .notStopped _
          | false => exact .poll _
  | notStopped pc =>
      refine ⟨_, rfl, ?_⟩
      cases pc with
      | done =>
          cases h
          exact .killed
      | stop pc | threadKill =>
          obtain ⟨pc₁, -, rfl⟩ := inside_cases h
          exact .notStopped pc₁
  | stopped | killed => cases h

/-- A step of a call is one of `wait_until`, or none. -/
theorem callStep_waits {c c' : Call} (hw : Waits c w)
    (h : callStep debug i env rq c = some (rq', c')) :
    ∃ w', waitSystem.runFrom w (c.waitEvent env rq).toList = some w' ∧ Waits c' w' := by
  cases c with
  | ensureStarted pc =>
      obtain ⟨pc', hin, rfl⟩ := inside_cases h
      exact ensureStartedStep_waits hw hin
  | stopOnExit pc =>
      obtain ⟨pc', hin, rfl⟩ := inside_cases h
      exact stopOnExitStep_waits hw hin
  | push pc | stop pc | running pc | stopped pc | start pc | kill pc => cases hw

/-- A poll of `ensure_started` succeeds if and only if it takes a permit of the
latch. -/
theorem success_iff_acquires {c' : Call}
    (h : callStep debug i env rq (.ensureStarted .tryAcquire) = some (rq', c')) :
    Call.waitEvent env rq (.ensureStarted .tryAcquire) = some (.fn true) ↔
      rq'.startupLatch + 1 = rq.startupLatch := by
  obtain ⟨pc', hin, rfl⟩ := inside_cases h
  simp only [ensureStartedStep] at hin
  simp only [Call.waitEvent, Option.some.injEq, WaitEvent.fn.injEq, Bool.not_eq_true']
  split at hin
  · next hfails =>
      cases hin
      simp [hfails]
  · next hpoll =>
      cases hin
      have hpos : rq.startupLatch ≠ 0 := fun hzero => hpoll (by simp [hzero])
      simp only [Bool.eq_false_iff.2 hpoll, true_iff]
      omega

end Steps

/-- A step of anyone else is not seen. -/
theorem waitEvent_of_other {i : CallId} {s : State} {a : Action} (h : ∀ env, a ≠ .step i env) :
    waitEvent i s a = none := by
  cases a with
  | call m | loop threw => rfl
  | step j env =>
      rw [waitEvent, if_neg]
      rintro rfl
      exact h env rfl

/-- **The calls wait by `wait_until`.**  In every interleaving a call that waits
goes where the steps of `wait_until` lead for what its polls have found. -/
theorem polls_of_run {debug : Bool} {i : CallId} {s t : State} {as : List Action} {c : Call}
    {w : WaitPc} (hc : s.threads[i]? = some c) (hw : Waits c w)
    (h : (queueSystem debug).runFrom s as = some t) :
    ∃ w', waitSystem.runFrom w ((queueSystem debug).seenFrom (waitEvent i) s as) = some w' ∧
      ∃ c', t.threads[i]? = some c' ∧ Waits c' w' := by
  refine System.simulation (R := fun s w => ∃ c, s.threads[i]? = some c ∧ Waits c w) ?_ ⟨c, hc, hw⟩ h
  rintro s a s' w ⟨c, hc, hw⟩ hstep
  rcases thread_step hc hstep with ⟨hsame, hother⟩ | ⟨env, c', rfl, hcs, hc'⟩
  · refine ⟨w, ?_, c, hsame, hw⟩
    rw [waitEvent_of_other hother]
    rfl
  · obtain ⟨w', hrun, hw'⟩ := callStep_waits hw hcs
    refine ⟨w', ?_, c', hc', hw'⟩
    rw [waitEvent, if_pos rfl, hc]
    exact hrun

theorem Waits.gaveUp {c : Call} {w : WaitPc} (hw : Waits c w) (h : c.gaveUp = true) :
    w = .returned false := by
  cases hw <;> first | rfl | cases h

/-- **A success is not discarded.**  A call of which a poll has succeeded does
not go on to kill the queue. -/
theorem not_gaveUp_of_success {debug : Bool} {i : CallId} {s t : State} {as : List Action}
    {c c' : Call} (hc : s.threads[i]? = some c) (hw : Waits c .callFn)
    (h : (queueSystem debug).runFrom s as = some t) (hc' : t.threads[i]? = some c')
    (hsuccess : .fn true ∈ (queueSystem debug).seenFrom (waitEvent i) s as) :
    c'.gaveUp = false := by
  obtain ⟨w', hrun, c₁, hc₁, hw'⟩ := polls_of_run hc hw h
  rw [hc'] at hc₁
  cases hc₁
  have hresult := (mem_fn_true_iff _ w' hrun).1 hsuccess
  cases hgave : c'.gaveUp with
  | false => rfl
  | true =>
      rw [hw'.gaveUp hgave] at hresult
      rcases hresult with hresult | hresult <;> cases hresult

end RuBLE.CallbackQueue
