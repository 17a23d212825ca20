import Mathlib
import RuBLE.Management.QueuePermits
import RuBLE.Management.QueueShutdown

/-!
# Items that fail

An exception of an item leaves `RubyQueue::loop` through the end of `lck`:
nothing between the item and the loop catches it.

* `Serving` — the loop goes round, `running()` says so, it comes to rest, and
  at rest everything pushed has been executed.
* `serving_iff_noneThrows` — **the queue serves its callers in exactly the runs
  in which no item throws** before a stop is requested.
* `exited_forever` — after an item has thrown nothing is executed any more,
  whatever is pushed.
-/

namespace RuBLE.CallbackQueue

open Transition

/-! ## What callers of the queue rely on -/

/-- The loop has set `_running`. -/
def LoopPc.begun : LoopPc → Bool
  | .notCreated | .lockRunMtx | .releaseLatch | .setRunning => false
  | _ => true

/-- A call of `running` whose tests both find the queue as it is returns true. -/
def RubyQueue.AnswersRunning (rq : RubyQueue) : Prop :=
  ∀ env, runningStep env rq .test = some (rq, .tryLock) ∧
    runningStep env rq .tryLock = some (rq, .returned true)

/-- A step of the loop. -/
def Action.isLoop : Action → Bool
  | .loop _ => true
  | .call _ | .step _ _ => false

/-- A step of a call. -/
def Action.isStep : Action → Bool
  | .step _ _ => true
  | .call _ | .loop _ => false

/-- How many steps the loop can make from here before it needs a permit. -/
def LoopPc.rank : LoopPc → Nat
  | .notCreated | .exited _ => 0
  | .unlock _ => 1
  | .clearRunning | .acquire => 2
  | .testStopping => 3
  | .setRunning | .executing _ => 4
  | .releaseLatch | .callWithGvl _ => 5
  | .lockRunMtx | .pop => 6
  | .testBreak => 7

/-- How many steps the loop can make while no call makes one. -/
def RubyQueue.rank (rq : RubyQueue) : Nat := 6 * rq.sem + rq.loop.rank

/-- The queue does its work. -/
structure Serving (debug : Bool) (s : State) : Prop where
  /-- Once it has begun, the loop goes round. -/
  goesRound : s.shared.loop.begun = true → s.shared.loop.goesRound = true
  /-- Once it has begun, `running()` says so. -/
  running : s.shared.loop.begun = true → s.shared.AnswersRunning
  /-- A loop that cannot step has executed everything that has been pushed: each
  item appended, once no call is about to release its permit and no call of
  `running` holds the mutex. -/
  executed : s.shared.loop ≠ .notCreated → (∀ threw, loopStep s.shared threw = none) →
    pushPermits s = 0 → s.shared.runMtxShared = 0 → ∀ item ∈ s.shared.appended, item ∈ s.shared.executed
  /-- The loop comes to such a rest, whatever the items do: a step of a call
  keeps it from there for at most six more of its own. -/
  rests : ∀ as t, (queueSystem debug).runFrom s as = some t →
    as.countP Action.isLoop ≤ s.shared.rank + 6 * as.countP Action.isStep

/-! ## The loop comes to rest -/

/-- A step of the loop is paid from its rank. -/
theorem LoopEffect.rank {rq rq' : RubyQueue} (h : LoopEffect rq rq') : rq'.rank + 1 ≤ rq.rank := by
  cases h with
  | acquire hl hsem =>
      simp only [RubyQueue.rank, hl, LoopPc.rank]
      omega
  | lock hl | releaseLatch hl | setRunning hl | goRound hl | leave hl | goOn hl | leaveEarly hl
  | pop front item hl | begin item hl | finish item hl | unwind item hl | clearRunning hl
  | unlock threw hl => simp [RubyQueue.rank, hl, LoopPc.rank]

/-- A call gives the loop at most one permit, or creates its thread. -/
theorem Effect.rank {i : CallId} {rq rq' : RubyQueue} {l l' : Ledger} (h : Effect i rq l l' rq') :
    rq'.rank ≤ rq.rank + 6 := by
  cases h with
  | releasePush | releaseStop =>
      simp only [RubyQueue.rank]
      omega
  | createThread hnone => simp [RubyQueue.rank, hnone, LoopPc.rank]
  | _ => exact Nat.le_add_right _ 6

/-- **The loop comes to rest.**  In every run from any state it makes no more
steps than its rank and the steps of the calls pay for. -/
theorem loop_rests {debug : Bool} {s t : State} {as : List Action}
    (h : (queueSystem debug).runFrom s as = some t) :
    as.countP Action.isLoop ≤ s.shared.rank + 6 * as.countP Action.isStep := by
  have hpaid := System.countP_add_rank_le (S := queueSystem debug) (fun u => u.shared.rank)
    Action.isLoop (fun a => if a.isStep then 6 else 0) ?_ h
  · have hrefill : ∀ bs : List Action, (bs.map fun a => if a.isStep then 6 else 0).sum =
        6 * bs.countP Action.isStep := by
      intro bs
      induction bs with
      | nil => rfl
      | cons b bs ih =>
          rw [List.map_cons, List.sum_cons, ih, List.countP_cons]
          split <;> omega
    rw [hrefill] at hpaid
    omega
  · intro u a v hstep
    cases a with
    | call m => cases hstep; exact Nat.le_refl _
    | step i env =>
        obtain ⟨c, rq', c', -, hcs, rfl⟩ := Pool.stepAt_cases hstep
        exact (callStep_effect hcs).rank
    | loop threw =>
        obtain ⟨rq', hloop, rfl⟩ := Option.map_eq_some_iff.1 hstep
        exact (loopStep_effect hloop).rank

/-! ## No item throws -/

/-- No item throws while no stop has been requested. -/
def NoneThrows (s : State) : Action → Prop
  | .loop true => (∃ item, s.shared.loop = .executing item) → s.shared.stopping = true
  | _ => True

/-- Without an exception the loop is left only on request. -/
def LeftOnRequest (s : State) : Prop := s.shared.stopping = false → s.shared.loop.active = true

/-- An exception apart, a step of the loop leaves it only on request. -/
theorem LoopEffect.active {rq rq' : RubyQueue} (h : LoopEffect rq rq') (hs : rq.stopping = false)
    (ha : rq.loop.active = true) : rq'.loop.active = true ∨
      (∃ item, rq.loop = .executing item) ∧ rq'.loop = .unlock true := by
  cases h with
  | leave hl hstop | leaveEarly hl hstop =>
      rw [hs] at hstop
      cases hstop
  | clearRunning hl | unlock threw hl =>
      rw [hl] at ha
      cases ha
  | unwind item hl => exact .inr ⟨⟨item, hl⟩, rfl⟩
  | _ => exact .inl rfl

theorem Effect.active {i : CallId} {rq rq' : RubyQueue} {l l' : Ledger}
    (h : Effect i rq l l' rq') (ha : rq.loop.active = true) : rq'.loop.active = true := by
  rcases h.loop with heq | ⟨-, hlock⟩
  · rw [heq]
    exact ha
  · rw [hlock]
    rfl

/-- An item that is being executed and returns brings the loop back to its test. -/
theorem loopStep_executing {rq : RubyQueue} {item : Item} (hl : rq.loop = .executing item)
    (threw : Bool) :
    loopStep rq threw = some { rq with loop := if threw then .unlock true else .testStopping } := by
  simp only [loopStep, hl]

theorem LeftOnRequest.step {debug : Bool} {s t : State} {a : Action} (h : LeftOnRequest s)
    (hok : NoneThrows s a) (hstep : step debug s a = some t) : LeftOnRequest t := by
  intro ht
  rcases step_cases hstep with ⟨m, rfl⟩ | ⟨i, env, c, rq', c', -, hcs, rfl⟩ | ⟨threw, rq', rfl, hl, rfl⟩
  · exact h ht
  · have he := callStep_effect hcs
    have hs : s.shared.stopping = false := by
      by_contra hne
      rw [he.stopping (by simpa using hne)] at ht
      cases ht
    exact he.active (h hs)
  · have he := loopStep_effect hl
    have hs : s.shared.stopping = false := he.stopping.symm.trans ht
    rcases he.active hs (h hs) with ha | ⟨⟨item, hexec⟩, hunlock⟩
    · exact ha
    · -- only an exception leads from the item to the end of `lck`
      rw [loopStep_executing hexec] at hl
      cases hl
      cases threw with
      | false => cases hunlock
      | true =>
          rw [hok ⟨item, hexec⟩] at hs
          cases hs

/-- A loop that waits, with no push under way, has executed everything. -/
theorem executed_of_blocked {debug : Bool} {s : State} (h : (queueSystem debug).Reachable s)
    (ha : s.shared.loop.active = true) (hs : s.shared.stopping = false)
    (hcreated : s.shared.loop ≠ .notCreated) (hblocked : ∀ threw, loopStep s.shared threw = none)
    (hpush : pushPermits s = 0) (hshared : s.shared.runMtxShared = 0) :
    ∀ item ∈ s.shared.appended, item ∈ s.shared.executed := by
  have hnone := hblocked false
  have hwaits : s.shared.loop = .acquire ∧ s.shared.sem = 0 := by
    cases hl : s.shared.loop with
    | notCreated => exact absurd hl hcreated
    | lockRunMtx =>
        have hfree : s.shared.runMtxExclusive = false := by rw [(locks h).exclusive_eq, hl]; rfl
        simp [loopStep, hl, hfree, hshared] at hnone
    | acquire =>
        refine ⟨rfl, ?_⟩
        simpa [loopStep, hl] using hnone
    | pop =>
        obtain ⟨item, hlast⟩ : ∃ item, s.shared.q.getLast? = some item :=
          ⟨_, List.getLast?_eq_some_getLast (pop_nonempty h hl)⟩
        simp [loopStep, hl, hlast] at hnone
    | clearRunning | unlock threw | exited threw =>
        rw [hl] at ha
        cases ha
    | releaseLatch | setRunning | testStopping | testBreak | callWithGvl item | executing item =>
        simp [loopStep, hl] at hnone
  have hbal := (permits h).balance ha
  have hle := (permits h).stop_le
  have hempty : s.shared.q = [] := by
    refine List.eq_nil_of_length_eq_zero ?_
    have hflag : s.shared.stopFlag = 0 := by simp [RubyQueue.stopFlag, hs]
    rw [hwaits.1, hwaits.2, hpush, hflag, show LoopPc.acquire.held = 0 from rfl] at hbal
    omega
  have hitems := items h
  intro item hitem
  have htaken : item ∈ s.shared.taken ++ s.shared.q := hitems.perm.mem_iff.2 hitem
  rw [hempty, List.append_nil, hitems.taken_eq, hwaits.1] at htaken
  simpa [LoopPc.inHand] using htaken

theorem LoopPc.goesRound_of_active {pc : LoopPc} (hb : pc.begun = true) (ha : pc.active = true) :
    pc.goesRound = true := by
  cases pc <;> first
    | rfl
    | exact absurd hb Bool.false_ne_true
    | exact absurd ha Bool.false_ne_true

theorem Serving.of_active {debug : Bool} {s : State} (h : (queueSystem debug).Reachable s)
    (ha : s.shared.loop.active = true) (hs : s.shared.stopping = false) : Serving debug s where
  goesRound hb := LoopPc.goesRound_of_active hb ha
  running := by
    intro hb env
    have hround := LoopPc.goesRound_of_active hb ha
    have hrunning := (locks h).running_of_goesRound hround
    have hlocked : s.shared.runMtxExclusive = true :=
      (locks h).exclusive_eq.trans (LoopPc.locked_of_goesRound hround)
    simp [runningStep, hrunning, hlocked]
  executed := executed_of_blocked h ha hs
  rests _ _ := loop_rests

/-- **A failing item stops the queue.**  At every point of a run at which no
stop has been requested the queue does its work, if and only if no item has
thrown before a stop was requested. -/
theorem serving_iff_noneThrows (debug : Bool) (as : List Action) :
    (queueSystem debug).Always (fun s => s.shared.stopping = false → Serving debug s) ⟨{}, []⟩ as ↔
      (queueSystem debug).Meets NoneThrows ⟨{}, []⟩ as := by
  constructor
  · intro h
    induction as using List.reverseRecOn with
    | nil => exact System.meets_nil _ _
    | append_singleton as a ih =>
        rw [System.always_concat] at h
        refine System.meets_concat.2 ⟨ih h.1, fun s hrun => ?_⟩
        match a with
        | .call m | .step i env | .loop false => trivial
        | .loop true =>
            rintro ⟨item, hl⟩
            by_contra hs
            have hnext : (queueSystem debug).runFrom ⟨{}, []⟩ (as ++ [.loop true]) =
                some { s with shared := { s.shared with loop := .unlock true } } := by
              rw [System.runFrom_concat, hrun]
              exact congrArg (Option.map _) (loopStep_executing hl true)
            have hround := (h.2 _ hnext (by simpa using hs)).goesRound rfl
            cases hround
  · intro hok bs hbs s hrun hs
    have hleft : LeftOnRequest s :=
      System.invariant_of_meets (fun _ _ _ hs hok hstep => hs.step hok hstep) (fun _ => rfl)
        (hok.of_initial hbs) hrun
    exact Serving.of_active (System.reachable_of_run hrun) (hleft hs) hs

/-- The first item throws; another is pushed after it. -/
def throwingRun : List Action :=
  [.call .start, .step 0 {}, .step 0 {}, .step 0 {}, .loop false, .loop false, .loop false,
    .loop false, .call .push, .step 1 {}, .step 1 {}, .step 1 {}, .loop false, .loop false,
    .loop false, .loop false, .loop true, .call .push, .step 2 {}, .step 2 {}, .step 2 {}, .loop false]

/-- The queue it leaves behind: the second item is in `_q`. -/
def afterThrow : RubyQueue :=
  { q := [2], sem := 1, startupLatch := 1, running := true, starting := true, rbThread := true,
    loop := .exited true, appended := [1, 2], taken := [1], executed := [1] }

theorem throwingRun_at : ((queueSystem false).run throwingRun).map
    (fun s => (s.shared, pushPermits s)) = some (afterThrow, 0) := by decide

/-- The item pushed after the one that throws is never executed. -/
theorem not_serving_throwingRun : ¬ ∀ (debug : Bool) (as : List Action),
    (queueSystem debug).Always (fun s => s.shared.stopping = false → Serving debug s) ⟨{}, []⟩ as := by
  intro hall
  obtain ⟨s, hrun, hat⟩ := Option.map_eq_some_iff.1 throwingRun_at
  obtain ⟨hshared, hpush⟩ := Prod.mk.inj hat
  have hserving : Serving false s := (hall false throwingRun).last hrun (by rw [hshared]; rfl)
  have hblocked : ∀ threw, loopStep s.shared threw = none := fun threw => by rw [hshared]; rfl
  have hmem := hserving.executed (by rw [hshared]; decide) hblocked hpush (by rw [hshared]; rfl) 2
    (by rw [hshared]; decide)
  rw [hshared] at hmem
  exact absurd hmem (by decide)

/-! ## After an exception -/

/-- A loop that has been left stays left, and executes nothing. -/
theorem exited_forever {debug : Bool} {s t : State} {threw : Bool}
    (hs : s.shared.loop = .exited threw) (h : (queueSystem debug).ReachesFrom s t) :
    t.shared.loop = .exited threw ∧ t.shared.executed = s.shared.executed := by
  refine System.invariantFrom (S := queueSystem debug)
    (P := fun u => u.shared.loop = .exited threw ∧ u.shared.executed = s.shared.executed) ?_
    ⟨hs, rfl⟩ h
  rintro u a v ⟨hu, hsame⟩ hstep
  rcases step_cases hstep with ⟨m, rfl⟩ | ⟨i, env, c, rq', c', -, hcs, rfl⟩ | ⟨threw', rq', -, hl, rfl⟩
  · exact ⟨hu, hsame⟩
  · have he := callStep_effect hcs
    refine ⟨?_, he.executed.trans hsame⟩
    rcases he.loop with heq | ⟨hnone, -⟩
    · exact heq.trans hu
    · rw [hu] at hnone
      cases hnone
  · simp only [loopStep, hu] at hl
    cases hl

end RuBLE.CallbackQueue
