import Mathlib
import RuBLE.Management.QueueShutdown

/-!
# What `stop_on_exit` leaves behind

`DeInit` ends with `stop_on_exit`: it requests a stop, and returns when `stopped`
says that the queue has stopped, when a poll of `running` says that the loop does
not run, or when it has killed the queue thread because the deadline is past.

* `ExitObserved` — what a call of `stop_on_exit` has found out so far, and that it
  stays so.
* `exit_final` — **once it has returned**, a stop is requested, and at most one
  more item begins; if its clock was never past the deadline, none does, and none
  is being executed.
-/

namespace RuBLE.CallbackQueue

open Transition

/-- The call has requested the stop, or found it requested. -/
def StopOnExitPc.requested : StopOnExitPc → Bool
  | .stop .testAndSet => false
  | _ => true

/-- The call has found that the loop does not go round. -/
def StopOnExitPc.sawIdle : StopOnExitPc → Bool
  | .stop _ | .kill _ => false
  | .stopped pc => pc.sawIdle
  | .poll pc => pc.sawIdle
  | .checkTime stillRunning => !stillRunning
  | .returned => true

/-- The call has given up waiting. -/
def StopOnExitPc.killing : StopOnExitPc → Bool
  | .kill _ => true
  | _ => false

theorem stopOnExitStep_requested {env : Env} {rq rq' : RubyQueue} {pc pc' : StopOnExitPc}
    (hpc : pc.requested = true → rq.stopping = true)
    (h : stopOnExitStep env rq pc = some (rq', pc')) : pc'.requested = true → rq'.stopping = true := by
  intro hr
  by_cases hentry : pc = .stop .testAndSet
  · subst hentry
    obtain ⟨pc₁, hin, rfl⟩ := inside_cases h
    simp only [stopStep] at hin
    split at hin
    · next hs => cases hin; exact hs
    · cases hin; rfl
  · refine (stopOnExitStep_effect (i := 0) h).stopping (hpc ?_)
    unfold StopOnExitPc.requested
    split
    · exact absurd rfl hentry
    · rfl

/-- What a call of `stop_on_exit` has found out is so, and it still waits. -/
structure ExitObserved (rq : RubyQueue) (pc : StopOnExitPc) : Prop where
  stopping : pc.requested = true → rq.stopping = true
  quiet : pc.sawIdle = true → rq.loop.quiet = true
  waits : pc.killing = false

theorem exitObserved_entry (rq : RubyQueue) : ExitObserved rq (.stop .testAndSet) where
  stopping := fun h => absurd h Bool.false_ne_true
  quiet := fun h => absurd h Bool.false_ne_true
  waits := rfl

theorem StopOnExitPc.requested_of_sawIdle {pc : StopOnExitPc} (h : pc.sawIdle = true) :
    pc.requested = true := by
  cases pc with
  | stop pc => cases h
  | stopped _ | poll _ | checkTime _ | kill _ | returned => rfl

/-- It stays so whatever the other calls do. -/
theorem ExitObserved.effect {i : CallId} {rq rq' : RubyQueue} {l l' : Ledger} {pc : StopOnExitPc}
    (h : ExitObserved rq pc) (he : Effect i rq l l' rq') : ExitObserved rq' pc where
  stopping := fun hr => he.stopping (h.stopping hr)
  quiet := fun hidle => he.quiet_loop (h.quiet hidle)
  waits := h.waits

/-- It stays so whatever the loop does. -/
theorem ExitObserved.loop {rq rq' : RubyQueue} {pc : StopOnExitPc} (h : ExitObserved rq pc)
    (he : LoopEffect rq rq') : ExitObserved rq' pc where
  stopping := fun hr => he.stopping.trans (h.stopping hr)
  quiet := fun hidle =>
    (he.quiet (h.stopping (StopOnExitPc.requested_of_sawIdle hidle)) (h.quiet hidle)).1
  waits := h.waits

/-- **What `stop_on_exit` finds out**, as long as its clock is not past the
deadline. -/
theorem stopOnExitStep_observed {s : State} {env : Env} {rq' : RubyQueue} {pc pc' : StopOnExitPc}
    (hlocks : Locks s) (hpc : ExitObserved s.shared pc) (henv : env.timedOut = false)
    (h : stopOnExitStep env s.shared pc = some (rq', pc')) : ExitObserved rq' pc' := by
  have hstopping := stopOnExitStep_requested hpc.stopping h
  unfold stopOnExitStep at h
  split at h
  · cases h
    exact ⟨hstopping, fun hidle => absurd hidle Bool.false_ne_true, rfl⟩
  · obtain ⟨pc₁, -, rfl⟩ := inside_cases h
    exact ⟨hstopping, fun hidle => absurd hidle Bool.false_ne_true, rfl⟩
  · next b =>
      cases h
      cases b with
      | true => exact ⟨hstopping, fun _ => hpc.quiet rfl, rfl⟩
      | false => exact ⟨hstopping, fun hidle => absurd hidle Bool.false_ne_true, rfl⟩
  · obtain ⟨pc₁, hin, rfl⟩ := inside_cases h
    have hobs := stoppedStep_observed hlocks ⟨fun _ => hpc.stopping rfl, hpc.quiet⟩ hin
    exact ⟨hstopping, hobs.quiet, rfl⟩
  · next b =>
      cases h
      refine ⟨hstopping, fun hidle => ?_, rfl⟩
      cases b with
      | true => cases hidle
      | false => exact hpc.quiet rfl
  · obtain ⟨pc₁, hin, rfl⟩ := inside_cases h
    exact ⟨hstopping, runningStep_sawIdle hlocks hpc.quiet hin, rfl⟩
  · cases h
    exact ⟨hstopping, fun _ => hpc.quiet rfl, rfl⟩
  · -- the deadline is not past, so it polls again
    cases h
    rw [if_neg (by rw [henv]; exact Bool.false_ne_true)] at hstopping ⊢
    exact ⟨hstopping, fun hidle => absurd hidle Bool.false_ne_true, rfl⟩
  · cases hpc.waits
  · cases hpc.waits
  · cases h

/-! ## Along a run -/

/-- The clock of the call `i` is not past the deadline. -/
def NeverLate (i : CallId) (_ : State) : Action → Prop
  | .step j env => j = i → env.timedOut = false
  | .call _ | .loop _ => True

instance (i : CallId) (s : State) : DecidablePred (NeverLate i s)
  | .step j env => inferInstanceAs (Decidable (j = i → env.timedOut = false))
  | .call _ | .loop _ => inferInstanceAs (Decidable True)

/-- What a call of `stop_on_exit` has found out is kept by a step of the system,
when it is kept by the effects of the calls, by the loop, and by its own steps. -/
theorem stopOnExit_step {P : RubyQueue → StopOnExitPc → Prop} {debug : Bool} {i : CallId} {s t : State}
    {a : Action} (hentry : ∀ rq, P rq (.stop .testAndSet))
    (heffect : ∀ j rq rq' l l' pc, P rq pc → Effect j rq l l' rq' → P rq' pc)
    (hloop : ∀ rq rq' pc, P rq pc → LoopEffect rq rq' → P rq' pc)
    (hown : ∀ env rq' pc pc', a = .step i env → P s.shared pc →
      stopOnExitStep env s.shared pc = some (rq', pc') → P rq' pc')
    (h : ∀ pc, s.threads[i]? = some (.stopOnExit pc) → P s.shared pc)
    (hstep : step debug s a = some t) :
    ∀ pc, t.threads[i]? = some (.stopOnExit pc) → P t.shared pc := by
  intro pc' hpc'
  cases hc : s.threads[i]? with
  | none =>
      obtain ⟨m, -, -, hbegun⟩ := thread_begins hc hstep hpc'
      cases m <;> cases hbegun
      exact hentry _
  | some c =>
      obtain ⟨hsame, -⟩ | ⟨env, c', rfl, hcs, hc'⟩ := thread_step hc hstep
      · obtain rfl := Option.some.inj (hsame.symm.trans hpc')
        rcases step_cases hstep with
          ⟨m, rfl⟩ | ⟨j, env, cj, rq', cj', -, hcs, rfl⟩ | ⟨threw, rq', -, hl, rfl⟩
        · exact h pc' hc
        · exact heffect j _ _ _ _ pc' (h pc' hc) (callStep_effect hcs)
        · exact hloop _ _ pc' (h pc' hc) (loopStep_effect hl)
      · obtain rfl := Option.some.inj (hc'.symm.trans hpc')
        -- a call that is one of `stop_on_exit` has been one from the start
        cases c with
        | stopOnExit pc =>
            obtain ⟨pc₁, hin, heq⟩ := inside_cases hcs
            cases heq
            exact hown env _ pc pc' rfl (h pc hc) hin
        | push _ | stop _ | running _ | stopped _ | start _ | kill _ | ensureStarted _ =>
            obtain ⟨pc₁, -, heq⟩ := inside_cases hcs
            cases heq

theorem exitObserved_run {debug : Bool} {i : CallId} {s : State} {as : List Action}
    (hlate : (queueSystem debug).Meets (NeverLate i) ⟨{}, []⟩ as)
    (h : (queueSystem debug).run as = some s) :
    ∀ pc, s.threads[i]? = some (.stopOnExit pc) → ExitObserved s.shared pc := by
  have key : (queueSystem debug).Reachable s ∧
      ∀ pc, s.threads[i]? = some (.stopOnExit pc) → ExitObserved s.shared pc := by
    refine System.invariant_of_meets (S := queueSystem debug)
      (P := fun s => (queueSystem debug).Reachable s ∧
        ∀ pc, s.threads[i]? = some (.stopOnExit pc) → ExitObserved s.shared pc) ?_
      ⟨System.reachable_init _, fun pc hpc => by simp [queueSystem] at hpc⟩ hlate h
    rintro s a t ⟨hs, hobs⟩ hok hstep
    refine ⟨hs.step hstep, stopOnExit_step exitObserved_entry (fun _ _ _ _ _ _ h he => h.effect he)
      (fun _ _ _ h he => h.loop he) ?_ hobs hstep⟩
    rintro env rq' pc pc' rfl hpc hown
    exact stopOnExitStep_observed (locks hs) hpc (hok rfl) hown
  exact key.2

/-- Whatever its clock says, a call of `stop_on_exit` that has got beyond its
first step leaves a stop requested. -/
theorem stopping_of_requested {debug : Bool} {s : State} {i : CallId} {pc : StopOnExitPc}
    (h : (queueSystem debug).Reachable s) (hc : s.threads[i]? = some (.stopOnExit pc))
    (hr : pc.requested = true) : s.shared.stopping = true := by
  refine System.invariant (S := queueSystem debug)
    (P := fun s => ∀ pc, s.threads[i]? = some (.stopOnExit pc) →
      pc.requested = true → s.shared.stopping = true)
    (fun pc hpc => by simp [queueSystem] at hpc) ?_ h pc hc hr
  intro s a t hs hstep
  exact stopOnExit_step (P := fun rq pc => pc.requested = true → rq.stopping = true)
    (fun _ h => absurd h Bool.false_ne_true) (fun _ _ _ _ _ _ h he hr => he.stopping (h hr))
    (fun _ _ _ h he hr => he.stopping.trans (h hr))
    (fun _ _ _ _ _ hpc hown => stopOnExitStep_requested hpc hown) hs hstep

/-- **What `stop_on_exit` leaves behind.**  Once a call of it has returned, a stop
is requested and at most one more item begins.  If the clock of that call was
never past the deadline, then no item begins any more, and none is being
executed. -/
theorem exit_final (debug : Bool) {as : List Action} {s : State} {i : CallId}
    (h : (queueSystem debug).run as = some s)
    (hreturned : s.threads[i]? = some (.stopOnExit .returned)) :
    s.shared.stopping = true ∧
      (∀ t, (queueSystem debug).ReachesFrom s t →
        ∃ more, t.shared.executed = s.shared.executed ++ more ∧ more.length ≤ 1) ∧
      ((queueSystem debug).Meets (NeverLate i) ⟨{}, []⟩ as →
        ∀ t, (queueSystem debug).ReachesFrom s t →
          t.shared.executed = s.shared.executed ∧ ∀ item, t.shared.loop ≠ .executing item) := by
  have hstopping := stopping_of_requested (System.reachable_of_run h) hreturned rfl
  refine ⟨hstopping, fun t ht => at_most_one_more hstopping ht, fun hlate t ht => ?_⟩
  have hobs := exitObserved_run hlate h .returned hreturned
  obtain ⟨hquiet, hsame⟩ := quiet_forever hstopping (hobs.quiet rfl) ht
  refine ⟨hsame, fun item hl => ?_⟩
  rw [hl] at hquiet
  cases hquiet

/-- An item is pushed and the loop is about to take it when `stop_on_exit` is
called; the item is executed, and the loop leaves, while the call polls. -/
def exitRun : List Action := List.flatten
  [[.call .start], List.replicate 3 (.step 0 {}), List.replicate 4 (.loop false),
   [.call .push], List.replicate 3 (.step 1 {}), List.replicate 2 (.loop false),
   [.call .stopOnExit], List.replicate 8 (.step 2 {}), List.replicate 6 (.loop false),
   List.replicate 3 (.step 2 {})]

theorem exitRun_at : ((queueSystem false).run exitRun).map (fun s =>
    (s.shared.loop, s.shared.executed, s.threads[2]?)) =
      some (.exited false, [1], some (.stopOnExit .returned)) := rfl

theorem exitRun_neverLate : (queueSystem false).Meets (NeverLate 2) ⟨{}, []⟩ exitRun := by
  decide +kernel

/-- The call has returned in time, the item that was pushed has been executed,
and the loop is gone. -/
theorem exit_final_exitRun : ∃ s, (queueSystem false).run exitRun = some s ∧
    s.shared.loop = .exited false ∧ s.shared.executed = [1] ∧
    ∀ t, (queueSystem false).ReachesFrom s t →
      t.shared.executed = s.shared.executed ∧ ∀ item, t.shared.loop ≠ .executing item := by
  obtain ⟨s, hs, hat⟩ := Option.map_eq_some_iff.1 exitRun_at
  simp only [Prod.mk.injEq] at hat
  obtain ⟨hloop, hexecuted, hreturned⟩ := hat
  exact ⟨s, hs, hloop, hexecuted, (exit_final false hs hreturned).2.2 exitRun_neverLate⟩

end RuBLE.CallbackQueue
