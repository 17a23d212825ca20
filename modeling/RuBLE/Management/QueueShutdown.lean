import Mathlib
import RuBLE.Management.RubyQueue

/-!
# Stopping the queue

* `Locks` — the invariant of `_run_mtx` and `_running`: the mutex is held by
  the loop from its start to its end, or shared by calls of `running`; and
  `_running` is set while the loop goes round.
* `Observed` — what a call of `stopped` has found out so far stays true.
* `shutdown_final` — **shutdown is final**: once a stop is requested at most
  one more item begins, and once `stopped` has returned true none does.
-/

namespace RuBLE.CallbackQueue

open Transition

/-! ## The mutex and the flag -/

/-- The loop is between setting and clearing `_running`. -/
def LoopPc.goesRound : LoopPc → Bool
  | .testStopping | .acquire | .testBreak | .pop | .callWithGvl _ | .executing _ | .clearRunning => true
  | _ => false

/-- The loop holds `_run_mtx`. -/
def LoopPc.locked : LoopPc → Bool
  | .notCreated | .lockRunMtx | .exited _ => false
  | _ => true

/-- Who holds `_run_mtx`, and when `_running` is set. -/
structure Locks (s : State) : Prop where
  /-- The loop holds the mutex exclusively, from its start to its end. -/
  exclusive_eq : s.shared.runMtxExclusive = s.shared.loop.locked
  /-- Shared holders are the calls of `running` that got the lock. -/
  shared_eq : s.shared.runMtxShared = s.total (·.ledger.shared)
  /-- Nobody else holds it while the loop does. -/
  shared_zero : s.shared.runMtxExclusive = true → s.shared.runMtxShared = 0
  /-- While the loop goes round, `_running` is set. -/
  running_of_goesRound : s.shared.loop.goesRound = true → s.shared.running = true

theorem Locks.init : Locks ⟨{}, []⟩ := ⟨rfl, rfl, fun _ => rfl, fun h => absurd h (by decide)⟩

theorem Locks.call {s : State} (h : Locks s) (m : Method) : Locks (s.spawn m.entry) := by
  obtain ⟨hex, hsh, hz, hr⟩ := h
  refine ⟨hex, ?_, hz, hr⟩
  rw [Pool.total_spawn, entry_ledger]
  exact hsh

theorem LoopPc.locked_of_goesRound {pc : LoopPc} (h : pc.goesRound = true) : pc.locked = true := by
  cases pc <;> first | rfl | cases h

theorem Locks.effect {s : State} {i : CallId} {c c' : Call} {l l' : Ledger} {rq' : RubyQueue}
    (h : Locks s) (hc : s.threads[i]? = some c) (hl : c.ledger = l) (hl' : c'.ledger = l')
    (he : Effect i s.shared l l' rq') : Locks ⟨rq', s.threads.set i c'⟩ := by
  have htotal := Pool.total_set (fun c : Call => c.ledger.shared) hc rq' c'
  have hheld := Pool.le_total (fun c : Call => c.ledger.shared) hc
  rw [hl, hl'] at htotal
  rw [hl] at hheld
  obtain ⟨hex, hsh, hz, hr⟩ := h
  cases he with
  | lockShared hfree =>
      refine ⟨hex, ?_, fun hlocked => ?_, hr⟩
      · simp only at htotal ⊢
        omega
      · rw [hfree] at hlocked
        cases hlocked
  | clearRunning =>
      refine ⟨hex, ?_, hz, fun hround => ?_⟩
      · simp only at htotal ⊢
        omega
      · -- the call holds the mutex, so the loop does not
        have hzero := hz (hex.trans (LoopPc.locked_of_goesRound hround))
        simp only at hheld
        omega
  | unlockShared =>
      refine ⟨hex, ?_, fun hlocked => ?_, hr⟩
      · simp only at htotal hheld ⊢
        omega
      · have hzero := hz hlocked
        simp only at hheld ⊢
        omega
  | createThread hnone =>
      rw [hnone] at hex
      refine ⟨hex, ?_, hz, fun hround => absurd hround Bool.false_ne_true⟩
      simp only at htotal ⊢
      omega
  | _ =>
      refine ⟨hex, ?_, hz, hr⟩
      simp only at htotal ⊢
      omega

theorem Locks.loop {s : State} {rq' : RubyQueue} (h : Locks s) (he : LoopEffect s.shared rq') :
    Locks { s with shared := rq' } := by
  obtain ⟨hex, hsh, hz, hr⟩ := h
  cases he with
  | lock hl hfree hnone => exact ⟨rfl, hsh, fun _ => hnone, fun hround => absurd hround Bool.false_ne_true⟩
  | setRunning hl =>
      rw [hl] at hex
      exact ⟨hex, hsh, hz, fun _ => rfl⟩
  | clearRunning hl =>
      rw [hl] at hex
      exact ⟨hex, hsh, hz, fun hround => absurd hround Bool.false_ne_true⟩
  | unlock threw hl =>
      exact ⟨rfl, hsh, fun hlocked => absurd hlocked Bool.false_ne_true,
        fun hround => absurd hround Bool.false_ne_true⟩
  | releaseLatch hl | unwind item hl =>
      rw [hl] at hex
      exact ⟨hex, hsh, hz, fun hround => absurd hround Bool.false_ne_true⟩
  | goRound hl | leave hl | acquire hl | goOn hl | leaveEarly hl | pop front item hl
  | begin item hl | finish item hl =>
      rw [hl] at hex hr
      exact ⟨hex, hsh, hz, fun _ => hr rfl⟩

theorem locks {debug : Bool} {s : State} (h : (queueSystem debug).Reachable s) : Locks s :=
  queue_invariant Locks.init (fun _ m hs => hs.call m)
    (fun _ _ _ _ _ _ _ hs hc hl hl' he => hs.effect hc hl hl' he)
    (fun _ _ hs he => hs.loop he) h

/-! ## At most one more item -/

/-- How many items the loop still begins after a stop has been requested. -/
def LoopPc.budget : LoopPc → Nat
  | .pop | .callWithGvl _ => 1
  | _ => 0

/-- From here the loop begins no item once a stop has been requested, and is
not executing one. -/
def LoopPc.quiet : LoopPc → Bool
  | .acquire | .testBreak | .pop | .callWithGvl _ | .executing _ => false
  | _ => true

theorem Effect.executed {i : CallId} {rq rq' : RubyQueue} {l l' : Ledger}
    (h : Effect i rq l l' rq') : rq'.executed = rq.executed := by
  cases h <;> rfl

theorem Effect.stopping {i : CallId} {rq rq' : RubyQueue} {l l' : Ledger}
    (h : Effect i rq l l' rq') (hs : rq.stopping = true) : rq'.stopping = true := by
  cases h <;> first | exact hs | rfl

theorem Effect.quiet_loop {i : CallId} {rq rq' : RubyQueue} {l l' : Ledger}
    (h : Effect i rq l l' rq') (hq : rq.loop.quiet = true) : rq'.loop.quiet = true := by
  cases h <;> first | exact hq | rfl

theorem Effect.budget {i : CallId} {rq rq' : RubyQueue} {l l' : Ledger}
    (h : Effect i rq l l' rq') : rq'.loop.budget = rq.loop.budget := by
  cases h with
  | createThread hnone => rw [hnone]; rfl
  | _ => rfl

theorem LoopEffect.stopping {rq rq' : RubyQueue} (h : LoopEffect rq rq') :
    rq'.stopping = rq.stopping := by
  cases h <;> rfl

/-- Under a stop request the loop pays for an item it begins. -/
theorem LoopEffect.budget {rq rq' : RubyQueue} (h : LoopEffect rq rq') (hs : rq.stopping = true) :
    ∃ more, rq'.executed = rq.executed ++ more ∧ more.length + rq'.loop.budget ≤ rq.loop.budget := by
  cases h with
  | begin item hl => exact ⟨[item], rfl, by rw [hl]; exact Nat.le_refl 1⟩
  | goRound hl hns => rw [hs] at hns; cases hns
  | goOn hl hns => rw [hs] at hns; cases hns
  | pop front item hl hq => exact ⟨[], (List.append_nil _).symm, by rw [hl]; exact Nat.le_refl 1⟩
  | _ => exact ⟨[], (List.append_nil _).symm, Nat.zero_le _⟩

/-- Under a stop request a quiet loop stays quiet, and begins nothing. -/
theorem LoopEffect.quiet {rq rq' : RubyQueue} (h : LoopEffect rq rq') (hs : rq.stopping = true)
    (hq : rq.loop.quiet = true) : rq'.loop.quiet = true ∧ rq'.executed = rq.executed := by
  cases h with
  | goRound hl hns => rw [hs] at hns; cases hns
  | acquire hl | goOn hl | pop front item hl | begin item hl | finish item hl =>
      rw [hl] at hq
      cases hq
  | _ => exact ⟨rfl, rfl⟩

/-- **At most one more item.**  From a state in which a stop has been requested
the loop begins at most one item, whatever happens. -/
theorem at_most_one_more {debug : Bool} {s t : State} (hs : s.shared.stopping = true)
    (h : (queueSystem debug).ReachesFrom s t) :
    ∃ more, t.shared.executed = s.shared.executed ++ more ∧ more.length ≤ 1 := by
  have hone : s.shared.loop.budget ≤ 1 := by
    cases s.shared.loop <;> first | exact Nat.le_refl 1 | exact Nat.zero_le 1
  suffices hinv : t.shared.stopping = true ∧ ∃ more, t.shared.executed = s.shared.executed ++ more ∧
      more.length + t.shared.loop.budget ≤ s.shared.loop.budget by
    obtain ⟨-, more, hmore, hle⟩ := hinv
    exact ⟨more, hmore, by omega⟩
  refine System.invariantFrom (S := queueSystem debug) (P := fun u => u.shared.stopping = true ∧
    ∃ more, u.shared.executed = s.shared.executed ++ more ∧
      more.length + u.shared.loop.budget ≤ s.shared.loop.budget) ?_
    ⟨hs, [], (List.append_nil _).symm, by simp⟩ h
  rintro u a v ⟨hu, more, hmore, hle⟩ hstep
  rcases step_cases hstep with ⟨m, rfl⟩ | ⟨i, env, c, rq', c', -, hcs, rfl⟩ | ⟨threw, rq', -, hl, rfl⟩
  · exact ⟨hu, more, hmore, hle⟩
  · have he := callStep_effect hcs
    refine ⟨he.stopping hu, more, he.executed.trans hmore, ?_⟩
    simp only [he.budget]
    exact hle
  · have he := loopStep_effect hl
    obtain ⟨last, hlast, hpay⟩ := he.budget hu
    refine ⟨he.stopping.trans hu, more ++ last, ?_, ?_⟩
    · simp only [hlast, hmore, List.append_assoc]
    · simp only [List.length_append]
      omega

/-- Under a stop request a quiet loop begins nothing, ever. -/
theorem quiet_forever {debug : Bool} {s t : State} (hs : s.shared.stopping = true)
    (hq : s.shared.loop.quiet = true) (h : (queueSystem debug).ReachesFrom s t) :
    t.shared.loop.quiet = true ∧ t.shared.executed = s.shared.executed := by
  suffices hinv : t.shared.stopping = true ∧ t.shared.loop.quiet = true ∧
      t.shared.executed = s.shared.executed from hinv.2
  refine System.invariantFrom (S := queueSystem debug) (P := fun u => u.shared.stopping = true ∧
    u.shared.loop.quiet = true ∧ u.shared.executed = s.shared.executed) ?_ ⟨hs, hq, rfl⟩ h
  rintro u a v ⟨hu, hquiet, hsame⟩ hstep
  rcases step_cases hstep with ⟨m, rfl⟩ | ⟨i, env, c, rq', c', -, hcs, rfl⟩ | ⟨threw, rq', -, hl, rfl⟩
  · exact ⟨hu, hquiet, hsame⟩
  · have he := callStep_effect hcs
    exact ⟨he.stopping hu, he.quiet_loop hquiet, he.executed.trans hsame⟩
  · have he := loopStep_effect hl
    obtain ⟨hquiet', hsame'⟩ := he.quiet hu hquiet
    exact ⟨he.stopping.trans hu, hquiet', hsame'.trans hsame⟩

/-! ## What `stopped` has found out -/

/-- The call of `stopped` that a call is, or is inside of. -/
def Call.insideStopped : Call → Option StoppedPc
  | .stopped pc => some pc
  | .stopOnExit (.stopped pc) => some pc
  | _ => none

/-- The call of `stopped` has found `_stopping` set. -/
def StoppedPc.sawStopping : StoppedPc → Bool
  | .testStopping | .returned false => false
  | .running _ | .returned true => true

/-- The call of `running` has found that the loop does not go round. -/
def RunningPc.sawIdle : RunningPc → Bool
  | .clear | .unlock | .returned false => true
  | .test | .tryLock | .returned true => false

/-- The call of `stopped` has found that the loop does not go round. -/
def StoppedPc.sawIdle : StoppedPc → Bool
  | .running pc => pc.sawIdle
  | .returned b => b
  | .testStopping => false

/-- What a call of `stopped` has found out is so. -/
structure Observed (rq : RubyQueue) (pc : StoppedPc) : Prop where
  stopping : pc.sawStopping = true → rq.stopping = true
  quiet : pc.sawIdle = true → rq.loop.quiet = true

theorem StoppedPc.sawStopping_of_sawIdle {pc : StoppedPc} (h : pc.sawIdle = true) :
    pc.sawStopping = true := by
  cases pc with
  | testStopping => cases h
  | running pc => rfl
  | returned b =>
      cases b with
      | true => rfl
      | false => cases h

theorem LoopPc.quiet_of_not_goesRound {pc : LoopPc} (h : pc.goesRound = false) : pc.quiet = true := by
  cases pc <;> first | rfl | cases h

theorem LoopPc.quiet_of_not_locked {pc : LoopPc} (h : pc.locked = false) : pc.quiet = true := by
  cases pc <;> first | rfl | cases h

/-- **What `running` finds out.**  When it sees the loop idle, the loop is not
going round: its flag is unset, or its mutex free. -/
theorem runningStep_sawIdle {s : State} {env : Env} {rq' : RubyQueue} {pc pc' : RunningPc}
    (hlocks : Locks s) (hpc : pc.sawIdle = true → s.shared.loop.quiet = true)
    (h : runningStep env s.shared pc = some (rq', pc')) :
    pc'.sawIdle = true → rq'.loop.quiet = true := by
  intro hidle
  cases pc with
  | test =>
      simp only [runningStep, Option.some.injEq, Prod.mk.injEq] at h
      obtain ⟨rfl, rfl⟩ := h
      split at hidle
      · cases hidle
      · next hclear =>
          refine LoopPc.quiet_of_not_goesRound ?_
          by_contra hround
          exact hclear (hlocks.running_of_goesRound (by simpa using hround))
  | tryLock =>
      simp only [runningStep] at h
      split at h
      · cases h
        cases hidle
      · next hfree =>
          cases h
          refine LoopPc.quiet_of_not_locked ?_
          rw [← hlocks.exclusive_eq]
          simp only [Bool.or_eq_true, not_or] at hfree
          simpa using hfree.1
  | clear | unlock =>
      cases h
      exact hpc rfl
  | returned b => cases h

theorem stoppedStep_observed {s : State} {env : Env} {rq' : RubyQueue} {pc pc' : StoppedPc}
    (hlocks : Locks s) (hpc : Observed s.shared pc)
    (h : stoppedStep env s.shared pc = some (rq', pc')) : Observed rq' pc' := by
  have heffect := stoppedStep_effect (i := 0) h
  unfold stoppedStep at h
  split at h
  · simp only [Option.some.injEq, Prod.mk.injEq] at h
    obtain ⟨rfl, rfl⟩ := h
    split
    · next hs => exact ⟨fun _ => hs, fun hidle => absurd hidle Bool.false_ne_true⟩
    · exact ⟨fun hs => absurd hs Bool.false_ne_true, fun hidle => absurd hidle Bool.false_ne_true⟩
  · next b =>
      cases h
      cases b with
      | true =>
          exact ⟨fun hs => absurd hs Bool.false_ne_true, fun hidle => absurd hidle Bool.false_ne_true⟩
      | false => exact ⟨fun _ => hpc.stopping rfl, fun _ => hpc.quiet rfl⟩
  · obtain ⟨pc₁, hin, rfl⟩ := inside_cases h
    exact ⟨fun _ => heffect.stopping (hpc.stopping rfl), runningStep_sawIdle hlocks hpc.quiet hin⟩
  · cases h

/-- A step of a call that is then inside of `stopped` is one of `stopped`, or
has just entered it. -/
theorem callStep_insideStopped {debug : Bool} {i : CallId} {env : Env} {rq rq' : RubyQueue}
    {c c' : Call} {pc' : StoppedPc} (h : callStep debug i env rq c = some (rq', c'))
    (hin : c'.insideStopped = some pc') :
    pc' = .testStopping ∨
      ∃ pc, c.insideStopped = some pc ∧ stoppedStep env rq pc = some (rq', pc') := by
  cases c with
  | stopped pc =>
      obtain ⟨pc₁, hstep, rfl⟩ := inside_cases h
      cases hin
      exact .inr ⟨pc, rfl, hstep⟩
  | stopOnExit pc =>
      obtain ⟨pc₁, hstep, rfl⟩ := inside_cases h
      unfold stopOnExitStep at hstep
      split at hstep
      · cases hstep
        cases hin
        exact .inl rfl
      · obtain ⟨pc₂, -, rfl⟩ := inside_cases hstep
        cases hin
      · next b => cases hstep; cases b <;> cases hin
      · next pc _ =>
          obtain ⟨pc₂, hstopped, rfl⟩ := inside_cases hstep
          cases hin
          exact .inr ⟨pc, rfl, hstopped⟩
      · cases hstep; cases hin
      · obtain ⟨pc₂, -, rfl⟩ := inside_cases hstep
        cases hin
      · cases hstep; cases hin
      · cases hstep
        split at hin <;> cases hin
      · cases hstep; cases hin
      · obtain ⟨pc₂, -, rfl⟩ := inside_cases hstep
        cases hin
      · cases hstep
  | push pc | stop pc | running pc | start pc | kill pc | ensureStarted pc =>
      obtain ⟨pc₁, hstep, rfl⟩ := inside_cases h
      cases hin

/-- What every call of `stopped` has found out is so. -/
def AllObserved (s : State) : Prop :=
  ∀ (i : CallId) (c : Call), s.threads[i]? = some c →
    ∀ pc, c.insideStopped = some pc → Observed s.shared pc

theorem observed_testStopping (rq : RubyQueue) : Observed rq .testStopping :=
  ⟨fun hs => absurd hs Bool.false_ne_true, fun hidle => absurd hidle Bool.false_ne_true⟩

theorem Observed.effect {i : CallId} {rq rq' : RubyQueue} {l l' : Ledger} {pc : StoppedPc}
    (h : Observed rq pc) (he : Effect i rq l l' rq') : Observed rq' pc :=
  ⟨fun hs => he.stopping (h.stopping hs), fun hidle => he.quiet_loop (h.quiet hidle)⟩

theorem Observed.loop {rq rq' : RubyQueue} {pc : StoppedPc} (h : Observed rq pc)
    (he : LoopEffect rq rq') : Observed rq' pc := by
  refine ⟨fun hs => he.stopping.trans (h.stopping hs), fun hidle => ?_⟩
  have hs := h.stopping (StoppedPc.sawStopping_of_sawIdle hidle)
  exact (he.quiet hs (h.quiet hidle)).1

theorem AllObserved.step {debug : Bool} {s t : State} {a : Action} (hlocks : Locks s)
    (h : AllObserved s) (hstep : step debug s a = some t) : AllObserved t := by
  rcases step_cases hstep with ⟨m, rfl⟩ | ⟨i, env, c, rq', c', hc, hcs, rfl⟩ | ⟨threw, rq', -, hl, rfl⟩
  · refine Pool.forall_spawn h fun pc hin => ?_
    cases m with
    | stopped => cases hin; exact observed_testStopping _
    | _ => cases hin
  · have he := callStep_effect hcs
    refine Pool.forall_set h hc (fun hself pc' hin => ?_) fun j u _ hu pc hin => (hu pc hin).effect he
    rcases callStep_insideStopped hcs hin with rfl | ⟨pc, hpc, hstopped⟩
    · exact observed_testStopping _
    · exact stoppedStep_observed hlocks (hself pc hpc) hstopped
  · intro i c hc pc hin
    exact (h i c hc pc hin).loop (loopStep_effect hl)

theorem allObserved {debug : Bool} {s : State} (h : (queueSystem debug).Reachable s) :
    AllObserved s :=
  System.invariant_with (S := queueSystem debug) (fun _ => locks)
    (fun i c hc => absurd hc (by simp [queueSystem]))
    (fun _ _ _ hlocks _ hs hstep => hs.step hlocks hstep) h

/-- **Shutdown is final.**  From any reachable state in which `_stopping` is
set, at most one more item begins; and from any in which some call of `stopped`
has returned true, none does, and none is being executed. -/
theorem shutdown_final (debug : Bool) (s : State) (h : (queueSystem debug).Reachable s) :
    (s.shared.stopping = true → ∀ t, (queueSystem debug).ReachesFrom s t →
      ∃ more, t.shared.executed = s.shared.executed ++ more ∧ more.length ≤ 1) ∧
    ((∃ c ∈ s.threads, c.insideStopped = some (.returned true)) →
      ∀ t, (queueSystem debug).ReachesFrom s t →
        t.shared.executed = s.shared.executed ∧ ∀ item, t.shared.loop ≠ .executing item) := by
  refine ⟨fun hs t ht => at_most_one_more hs ht, ?_⟩
  rintro ⟨c, hc, hin⟩ t ht
  obtain ⟨i, hi⟩ := List.mem_iff_getElem?.1 hc
  have hobs := allObserved h i c hi (.returned true) hin
  obtain ⟨hquiet, hsame⟩ := quiet_forever (hobs.stopping rfl) (hobs.quiet rfl) ht
  refine ⟨hsame, fun item hl => ?_⟩
  rw [hl] at hquiet
  cases hquiet

/-- A stop is requested while an item is being executed; the loop leaves, and
then `stopped` is called and returns true. -/
def stoppedRun : List Action :=
  [.call .push, .step 0 {}, .step 0 {}, .step 0 {}, .call .start, .step 1 {}, .step 1 {}, .step 1 {},
    .loop false, .loop false, .loop false, .loop false, .loop false, .loop false, .loop false,
    .loop false, .call .stop, .step 2 {}, .step 2 {}, .loop false, .loop false, .loop false,
    .loop false, .call .stopped, .step 3 {}, .step 3 {}, .step 3 {}]

/-- After it, nothing is executed any more. -/
theorem shutdown_final_stoppedRun : ∃ s, (queueSystem false).run stoppedRun = some s ∧
    s.shared.executed = [0] ∧ ∀ t, (queueSystem false).ReachesFrom s t →
      (∃ more, t.shared.executed = s.shared.executed ++ more ∧ more.length ≤ 1) ∧
        t.shared.executed = s.shared.executed := by
  have hrun : ((queueSystem false).run stoppedRun).map
      (fun s => (s.shared.stopping, s.shared.executed, s.threads[3]?)) =
        some (true, [0], some (.stopped (.returned true))) := by decide
  obtain ⟨s, hs, hat⟩ := Option.map_eq_some_iff.1 hrun
  simp only [Prod.mk.injEq] at hat
  obtain ⟨hstopping, hexecuted, hstopped⟩ := hat
  have hclaim := shutdown_final false s (System.reachable_of_run hs)
  refine ⟨s, hs, hexecuted, fun t ht => ⟨hclaim.1 hstopping t ht, ?_⟩⟩
  exact (hclaim.2 ⟨_, List.mem_of_getElem? hstopped, rfl⟩ t ht).1

end RuBLE.CallbackQueue
