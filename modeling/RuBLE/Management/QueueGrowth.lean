import Mathlib
import RuBLE.Management.QueuePermits
import RuBLE.Management.QueueShutdown

/-!
# How far the callers can run ahead of the loop

Nothing makes a call of `push` wait for the loop.

* `semaphore_bound` — **the count of `_sem` stays below its maximum** at each
  release in the runs in which few enough items wait; `not_belowMax_pushRun` is
  a run in which they are too many.
* `refusesAfterStop_iff_debug` — **only a `DEBUG` build refuses items** whose
  push begins after `_stopping` has been set.
-/

namespace RuBLE.CallbackQueue

open Transition

/-! ## The maximum of the semaphore -/

/-- `semaphore_max`, the maximum of `uint16_t`. -/
def semaphoreMax : Nat := 2 ^ 16 - 1

/-- The step is a `_sem.release()`. -/
def Releases (debug : Bool) (s : State) (a : Action) : Prop :=
  ∃ t, step debug s a = some t ∧ s.shared.sem < t.shared.sem

/-- The release finds the count below the maximum. -/
def BelowMax (debug : Bool) (s : State) (a : Action) : Prop :=
  Releases debug s a → s.shared.sem < semaphoreMax

/-- The release finds fewer items than the maximum in `_q`, not counting those
whose permit is still owed or in the hands of the loop; a stop request counts
as an item. -/
def HasRoom (debug : Bool) (s : State) (a : Action) : Prop :=
  Releases debug s a → s.shared.q.length + s.shared.stopFlag <
    semaphoreMax + pushPermits s + stopPermits s + s.shared.loop.held

/-- Every permit there, owed or in use stands for an item or for the stop
request.  The loop may have left without its permit having been put to use. -/
def Backed (s : State) : Prop :=
  s.shared.sem + pushPermits s + stopPermits s + s.shared.loop.held ≤
    s.shared.q.length + s.shared.stopFlag

theorem LoopEffect.backed {s : State} {rq' : RubyQueue} (h : LoopEffect s.shared rq')
    (hb : Backed s) : Backed { s with shared := rq' } := by
  have hpush : pushPermits { s with shared := rq' } = pushPermits s := rfl
  have hstop : stopPermits { s with shared := rq' } = stopPermits s := rfl
  rw [Backed, hpush, hstop]
  rw [Backed] at hb
  cases h with
  | acquire hl hsem =>
      simp only [hl, LoopPc.held, RubyQueue.stopFlag] at hb ⊢
      omega
  | pop front item hl hq =>
      rw [hq] at hb
      simp only [hl, LoopPc.held, RubyQueue.stopFlag, List.length_append, List.length_singleton] at hb ⊢
      omega
  | goOn hl | leaveEarly hl =>
      simp only [hl, LoopPc.held, RubyQueue.stopFlag] at hb ⊢
      omega
  | lock hl | releaseLatch hl | setRunning hl | goRound hl | leave hl | begin item hl | finish item hl
  | unwind item hl | clearRunning hl | unlock threw hl =>
      simp only [hl] at hb
      exact hb

theorem backed {debug : Bool} {s : State} (h : (queueSystem debug).Reachable s) : Backed s := by
  refine queue_invariant (P := Backed) (Nat.le_refl 0) ?_ ?_ (fun _ _ hs he => he.backed hs) h
  · intro s m hs
    rw [Backed, pushPermits, stopPermits, Pool.total_spawn, Pool.total_spawn, entry_ledger]
    exact hs
  · intro s i c c' l l' rq' hs hc hl hl' he
    have hpush : pushPermits ⟨rq', s.threads.set i c'⟩ + l.pushPermit =
        pushPermits s + l'.pushPermit := by
      rw [← hl, ← hl']
      exact Pool.total_set (fun c : Call => c.ledger.pushPermit) hc _ _
    have hstop : stopPermits ⟨rq', s.threads.set i c'⟩ + l.stopPermit =
        stopPermits s + l'.stopPermit := by
      rw [← hl, ← hl']
      exact Pool.total_set (fun c : Call => c.ledger.stopPermit) hc _ _
    have hheld : rq'.loop.held = s.shared.loop.held := by
      rcases he.loop with heq | ⟨hnone, hlock⟩
      · rw [heq]
      · rw [hnone, hlock]
        rfl
    obtain ⟨hbal, -, -⟩ := he.permits
    rw [Backed] at hs ⊢
    simp only [hheld]
    omega

/-- **The bound of the semaphore.**  In a run in which each release finds room,
each finds the count below its maximum; and as long as the loop has not been
left the two are the same. -/
theorem semaphore_bound (debug : Bool) (as : List Action) :
    ((queueSystem debug).Meets (HasRoom debug) ⟨{}, []⟩ as →
      (queueSystem debug).Meets (BelowMax debug) ⟨{}, []⟩ as) ∧
    ∀ s, (queueSystem debug).Reachable s → s.shared.loop.active = true →
      ∀ a, BelowMax debug s a ↔ HasRoom debug s a := by
  constructor
  · induction as using List.reverseRecOn with
    | nil => exact fun _ => System.meets_nil _ _
    | append_singleton as a ih =>
        intro h
        obtain ⟨hinit, hlast⟩ := System.meets_concat.1 h
        refine System.meets_concat.2 ⟨ih hinit, fun s hrun hrel => ?_⟩
        have hroom := hlast s hrun hrel
        have hb : Backed s := backed (System.reachable_of_run hrun)
        rw [Backed] at hb
        omega
  · intro s h ha a
    have hbal := (permits h).balance ha
    refine imp_congr_right fun _ => ?_
    omega

/-! ### A run that runs ahead -/

/-- One call of `push`, the `i`th call, from its beginning to its end. -/
def pushAlone (i : CallId) : List Action := [.call .push, .step i {}, .step i {}, .step i {}]

/-- `n` calls of `push`, one after the other, before the loop is started. -/
def pushRun (n : Nat) : List Action := (List.range n).flatMap pushAlone

/-- After it, `n` items wait and `n` permits are there. -/
theorem run_pushRun (debug : Bool) (n : Nat) : (queueSystem debug).run (pushRun n) =
    some ⟨{ q := List.range n, sem := n, appended := List.range n },
      List.replicate n (.push .done)⟩ := by
  induction n with
  | zero => rfl
  | succ n ih =>
      rw [pushRun, List.range_succ, List.flatMap_append, List.flatMap_singleton, System.run,
        System.runFrom_append]
      rw [pushRun, System.run] at ih
      rw [ih]
      simp [pushAlone, System.runFrom, queueSystem, step, Pool.stepAt, Pool.spawn, Method.entry,
        callStep, pushStep, inside, List.replicate_succ']

/-- One more call of `push`, up to its release. -/
def pushUpToRelease (i : CallId) : List Action := [.call .push, .step i {}, .step i {}]

theorem run_pushUpToRelease (debug : Bool) (n : Nat) :
    ∃ s, (queueSystem debug).run (pushRun n ++ pushUpToRelease n) = some s ∧ s.shared.sem = n ∧
      Releases debug s (.step n {}) := by
  have hrun := run_pushRun debug n
  rw [System.run] at hrun
  refine ⟨⟨{ q := List.range n ++ [n], sem := n, appended := List.range n ++ [n] },
    List.replicate n (.push .done) ++ [.push .release]⟩, ?_, rfl, ?_⟩
  · rw [System.run, System.runFrom_append, hrun]
    simp [pushUpToRelease, System.runFrom, queueSystem, step, Pool.stepAt, Pool.spawn, Method.entry,
      callStep, pushStep, inside]
  · refine ⟨⟨{ q := List.range n ++ [n], sem := n + 1, appended := List.range n ++ [n] },
      List.replicate n (.push .done) ++ [.push .done]⟩, ?_, Nat.lt_succ_self n⟩
    simp [step, Pool.stepAt, callStep, pushStep, inside]

/-- When as many items wait as the semaphore can count, one more is too many. -/
theorem not_belowMax_pushRun : ¬ ∀ (debug : Bool) (as : List Action),
    (queueSystem debug).Meets (BelowMax debug) ⟨{}, []⟩ as := by
  intro hall
  obtain ⟨n, hn⟩ : ∃ n, n = semaphoreMax := ⟨_, rfl⟩
  obtain ⟨s, hrun, hsem, hrel⟩ := run_pushUpToRelease false n
  have hmeets := hall false (pushRun n ++ pushUpToRelease n ++ [.step n {}])
  have hbelow := (System.meets_concat.1 hmeets).2 s hrun hrel
  rw [hsem, hn] at hbelow
  exact absurd hbelow (Nat.lt_irrefl _)

/-! ## Pushing to a queue that is stopping -/

/-- The call of `push` has not appended anything. -/
def PushPc.keptOut : PushPc → Bool
  | .test | .refused => true
  | .append | .release | .done => false

/-- The call of `push` is not between its test and its end. -/
def PushPc.settled : PushPc → Bool
  | .test | .refused | .done => true
  | .append | .release => false

/-- A call of `push` that begins once `_stopping` is set appends nothing and
releases no permit; so once no earlier one is under way, nothing is appended
and no permit is released any more, but that which the stop request owes. -/
structure Refuses (s t : State) : Prop where
  /-- Calls are numbered as they begin, so the later ones are those with a
  number that was not taken yet. -/
  keptOut : ∀ i, s.threads.length ≤ i → i ∉ t.shared.appended ∧
    ∀ pc, t.threads[i]? = some (.push pc) → pc.keptOut = true
  noGrowth : (∀ pc, .push pc ∈ s.threads → pc = .done ∨ pc = .refused) →
    t.shared.appended = s.shared.appended ∧ t.shared.q.length ≤ s.shared.q.length ∧
      t.shared.sem + stopPermits t ≤ s.shared.sem + stopPermits s

/-- From every state of a run in which `_stopping` is set, the items of later
calls are refused. -/
def RefusesAfterStop (debug : Bool) : Prop :=
  ∀ s, (queueSystem debug).Reachable s → s.shared.stopping = true →
    ∀ t, (queueSystem debug).ReachesFrom s t → Refuses s t

/-- A `DEBUG` build refuses every item whose call finds `_stopping` set. -/
theorem pushStep_debug {i : CallId} {rq rq' : RubyQueue} {pc pc' : PushPc}
    (hs : rq.stopping = true) (h : pushStep true i rq pc = some (rq', pc')) :
    (pc.keptOut = true → pc'.keptOut = true) ∧ (pc.settled = true → pc'.settled = true) := by
  cases pc with
  | test =>
      simp only [pushStep, hs, Bool.and_self, if_true] at h
      cases h
      exact ⟨fun _ => rfl, fun _ => rfl⟩
  | append | release =>
      cases h
      exact ⟨fun hk => absurd hk Bool.false_ne_true, fun hk => absurd hk Bool.false_ne_true⟩
  | done | refused => cases h

/-- What holds of a call of `push` that begins, and is kept by its steps, holds
of all of them. -/
theorem pushes_step {s t : State} {a : Action} {A : CallId → PushPc → Prop}
    (hs : s.shared.stopping = true) (hnew : A s.threads.length .test)
    (hkeep : ∀ i rq' pc pc', A i pc → pushStep true i s.shared pc = some (rq', pc') → A i pc')
    (h : ∀ (i : CallId) (c : Call), s.threads[i]? = some c → ∀ pc, c = .push pc → A i pc)
    (hstep : step true s a = some t) :
    t.shared.stopping = true ∧
      ∀ (i : CallId) (c : Call), t.threads[i]? = some c → ∀ pc, c = .push pc → A i pc := by
  rcases step_cases hstep with ⟨m, rfl⟩ | ⟨i, env, c, rq', c', hc, hcs, rfl⟩ | ⟨threw, rq', -, hl, rfl⟩
  · refine ⟨hs, Pool.forall_spawn h fun pc hpc => ?_⟩
    cases m with
    | push => cases hpc; exact hnew
    | _ => cases hpc
  · refine ⟨(callStep_effect hcs).stopping hs, Pool.forall_set h hc ?_ fun j u _ hu => hu⟩
    rintro hself pc' rfl
    cases c with
    | push pc =>
        obtain ⟨pc₁, hin, heq⟩ := inside_cases hcs
        cases heq
        exact hkeep i rq' pc pc' (hself pc rfl) hin
    | stop pc | running pc | stopped pc | start pc | kill pc | ensureStarted pc | stopOnExit pc =>
        obtain ⟨pc₁, -, heq⟩ := inside_cases hcs
        cases heq
  · exact ⟨(loopStep_effect hl).stopping.trans hs, h⟩

/-- The items of calls that begin once `_stopping` is set are kept out. -/
theorem keptOut_forever {s t : State} (hs : s.shared.stopping = true)
    (h : (queueSystem true).ReachesFrom s t) :
    ∀ i, s.threads.length ≤ i → ∀ pc, t.threads[i]? = some (.push pc) → pc.keptOut = true := by
  suffices hinv : t.shared.stopping = true ∧ ∀ (i : CallId) (c : Call), t.threads[i]? = some c →
      ∀ pc, c = .push pc → s.threads.length ≤ i → pc.keptOut = true from
    fun i hi pc hpc => hinv.2 i _ hpc pc rfl hi
  refine System.invariantFrom (S := queueSystem true) (P := fun u => u.shared.stopping = true ∧
    ∀ (i : CallId) (c : Call), u.threads[i]? = some c →
      ∀ pc, c = .push pc → s.threads.length ≤ i → pc.keptOut = true) ?_ ⟨hs, ?_⟩ h
  · rintro u a v ⟨hu, hall⟩ hstep
    exact pushes_step hu (fun _ => rfl)
      (fun i rq' pc pc' hpc hp hi => (pushStep_debug hu hp).1 (hpc hi)) hall hstep
  · intro i c hc pc _ hi
    exact absurd (List.getElem?_eq_some_iff.1 hc).1 (Nat.not_lt.2 hi)

/-- Only the two steps of `push` append or change what it owes. -/
theorem Effect.appended {i : CallId} {rq rq' : RubyQueue} {l l' : Ledger}
    (h : Effect i rq l l' rq') (hl' : l'.pushPermit = 0) :
    rq'.appended = rq.appended ∧ rq'.q = rq.q := by
  cases h with
  | append => cases hl'
  | _ => exact ⟨rfl, rfl⟩

/-- The loop appends nothing and releases no permit. -/
theorem LoopEffect.shrinks {rq rq' : RubyQueue} (h : LoopEffect rq rq') :
    rq'.appended = rq.appended ∧ rq'.q.length ≤ rq.q.length ∧ rq'.sem ≤ rq.sem := by
  cases h with
  | acquire => exact ⟨rfl, Nat.le_refl _, Nat.sub_le _ 1⟩
  | pop front item hl hq =>
      refine ⟨rfl, ?_, Nat.le_refl _⟩
      rw [hq, List.length_append]
      exact Nat.le_add_right _ _
  | _ => exact ⟨rfl, Nat.le_refl _, Nat.le_refl _⟩

/-- `push` is not called by the other member functions. -/
theorem Call.eq_push_of_inside {c : Call} {pc : PushPc} (h : c.inside = .push pc) : c = .push pc := by
  cases c with
  | push pc₁ =>
      cases h
      rfl
  | stop pc | running pc | start pc => cases h
  | stopped pc => cases pc <;> cases h
  | kill pc => cases pc <;> cases h
  | ensureStarted pc =>
      cases pc with
      | kill pc => cases pc <;> cases h
      | _ => cases h
  | stopOnExit pc =>
      cases pc with
      | stopped pc => cases pc <;> cases h
      | kill pc => cases pc <;> cases h
      | _ => cases h

/-- A call that is not between the steps of `push` owes no permit for it. -/
theorem pushPermit_of_settled {c : Call} (h : ∀ pc, c = .push pc → pc.settled = true) :
    c.ledger.pushPermit = 0 := by
  rw [pushPermit_eq, if_neg]
  intro hin
  exact absurd (h .release (Call.eq_push_of_inside hin)) Bool.false_ne_true

/-- What has been appended was appended by a call of `push`. -/
theorem Call.push_of_appended {c : Call} (h : c.ledger.appended = true) :
    ∃ pc, c = .push pc ∧ pc.keptOut = false := by
  rw [Call.ledger] at h
  cases hin : c.inside with
  | push pc =>
      rw [hin] at h
      refine ⟨pc, Call.eq_push_of_inside hin, ?_⟩
      cases pc <;> first | rfl | cases h
  | stop pc | running pc | start pc =>
      rw [hin] at h
      cases pc <;> cases h
  | between =>
      rw [hin] at h
      cases h

/-- Once `_stopping` is set and no call of `push` is between its test and its
end, neither `_q` nor the permits grow. -/
theorem noGrowth_forever {s t : State} (hs : s.shared.stopping = true)
    (hsettled : ∀ (i : CallId) (c : Call), s.threads[i]? = some c → ∀ pc, c = .push pc →
      pc.settled = true)
    (h : (queueSystem true).ReachesFrom s t) :
    t.shared.appended = s.shared.appended ∧ t.shared.q.length ≤ s.shared.q.length ∧
      t.shared.sem + stopPermits t ≤ s.shared.sem + stopPermits s := by
  suffices hinv : (t.shared.stopping = true ∧ ∀ (i : CallId) (c : Call), t.threads[i]? = some c →
      ∀ pc, c = .push pc → pc.settled = true) ∧ t.shared.appended = s.shared.appended ∧
      t.shared.q.length ≤ s.shared.q.length ∧
      t.shared.sem + stopPermits t ≤ s.shared.sem + stopPermits s from hinv.2
  refine System.invariantFrom (S := queueSystem true) (P := fun u => (u.shared.stopping = true ∧
    ∀ (i : CallId) (c : Call), u.threads[i]? = some c → ∀ pc, c = .push pc → pc.settled = true) ∧
    u.shared.appended = s.shared.appended ∧ u.shared.q.length ≤ s.shared.q.length ∧
    u.shared.sem + stopPermits u ≤ s.shared.sem + stopPermits s) ?_
    ⟨⟨hs, hsettled⟩, rfl, Nat.le_refl _, Nat.le_refl _⟩ h
  rintro u a v ⟨⟨hu, hall⟩, happ, hlen, hsem⟩ hstep
  have hnext := pushes_step (A := fun _ pc => pc.settled = true) hu rfl
    (fun i rq' pc pc' hpc hp => (pushStep_debug hu hp).2 hpc) hall hstep
  refine ⟨hnext, ?_⟩
  rcases step_cases hstep with ⟨m, rfl⟩ | ⟨i, env, c, rq', c', hc, hcs, rfl⟩ | ⟨threw, rq', -, hl, rfl⟩
  · refine ⟨happ, hlen, ?_⟩
    rw [stopPermits, Pool.total_spawn, entry_ledger]
    exact hsem
  · have he := callStep_effect hcs
    have hold : c.ledger.pushPermit = 0 := pushPermit_of_settled (hall i c hc)
    have hc' : (u.threads.set i c')[i]? = some c' := by
      rw [List.getElem?_set_self (List.getElem?_eq_some_iff.1 hc).1]
    have hnew : c'.ledger.pushPermit = 0 := pushPermit_of_settled (hnext.2 i c' hc')
    obtain ⟨happ', hq'⟩ := he.appended hnew
    refine ⟨happ'.trans happ, ?_, ?_⟩
    · show rq'.q.length ≤ _
      rw [hq']
      exact hlen
    · have hflag : rq'.stopFlag = u.shared.stopFlag := by
        rw [RubyQueue.stopFlag, RubyQueue.stopFlag, he.stopping hu, hu]
      have htotal := Pool.total_set (fun c : Call => c.ledger.stopPermit) hc rq' c'
      obtain ⟨hbal, -, -⟩ := he.permits
      rw [hq', hflag, hold, hnew] at hbal
      simp only [stopPermits] at hsem ⊢
      omega
  · obtain ⟨happ', hlen', hsem'⟩ := (loopStep_effect hl).shrinks
    refine ⟨happ'.trans happ, hlen'.trans hlen, ?_⟩
    exact (Nat.add_le_add_right hsem' _).trans hsem

/-- A `DEBUG` build refuses. -/
theorem refusesAfterStop_debug : RefusesAfterStop true := by
  intro s hs hstopping t ht
  have hkept := keptOut_forever hstopping ht
  have hitems : Items t := items (hs.trans ht)
  refine ⟨fun i hi => ⟨fun hmem => ?_, hkept i hi⟩, fun hdone => ?_⟩
  · -- only a call of `push` that is past its append has its item in the queue
    obtain ⟨c, hc⟩ : ∃ c, t.threads[i]? = some c :=
      ⟨_, List.getElem?_eq_getElem (hitems.lt_of_mem i hmem)⟩
    have happended := (hitems.mem_iff i c hc).1 hmem
    obtain ⟨pc, rfl, hpc⟩ := Call.push_of_appended happended
    rw [hkept i hi pc hc] at hpc
    cases hpc
  · refine noGrowth_forever hstopping (fun i c hc pc hpc => ?_) ht
    subst hpc
    rcases hdone pc (List.mem_of_getElem? hc) with rfl | rfl <;> rfl

/-- A stop has been requested; nothing else has happened. -/
def stopRequested : State := ⟨{ sem := 1, stopping := true }, [.stop .done]⟩

/-- Then a call of `push` begins, appends its item and releases its permit. -/
def pushedAfterStop : State :=
  ⟨{ q := [1], sem := 2, stopping := true, appended := [1] }, [.stop .done, .push .done]⟩

/-- Any other build takes the item. -/
theorem not_refusesAfterStop_release : ¬ RefusesAfterStop false := by
  intro hall
  have hstop : (queueSystem false).Reachable stopRequested :=
    ⟨[.call .stop, .step 0 {}, .step 0 {}], by decide⟩
  have hpush : (queueSystem false).ReachesFrom stopRequested pushedAfterStop :=
    ⟨[.call .push, .step 1 {}, .step 1 {}, .step 1 {}], by decide⟩
  exact ((hall stopRequested hstop rfl pushedAfterStop hpush).keptOut 1 (by decide)).1 (by decide)

/-- **Refusal after a stop.**  Items of calls that begin once `_stopping` is set
are refused in `DEBUG` builds, and only there. -/
theorem refusesAfterStop_iff_debug (debug : Bool) : RefusesAfterStop debug ↔ debug = true := by
  cases debug with
  | false => exact ⟨fun h => absurd h not_refusesAfterStop_release, fun h => absurd h Bool.false_ne_true⟩
  | true => exact ⟨fun _ => rfl, fun _ => refusesAfterStop_debug⟩

/-- The law does not hold of both builds. -/
theorem not_refusesAfterStop_all : ¬ ∀ debug, RefusesAfterStop debug :=
  fun h => not_refusesAfterStop_release (h false)

end RuBLE.CallbackQueue
