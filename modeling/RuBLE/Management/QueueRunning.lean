import Mathlib
import RuBLE.Management.QueuePermits
import RuBLE.Management.QueueShutdown

/-!
# What an answer of `running()` says

A call of `running` tests a flag and tries a lock, and the loop and other calls
move between the two.

* `Asks` — one call of `running` from its beginning to its return, alone or
  inside of another member function, among all other steps.
* `running_accurate` — **what the answers say**: a true answer, that the loop
  held its mutex when the call tried it; a false one, that the loop had at some
  instant not set its flag or cleared it again.
* `not_trueOnlyIf_spurious`, `not_falseOnlyIf_window` — why they say no more.
-/

namespace RuBLE.CallbackQueue

open Transition

/-! ## A call among all other steps -/

/-- The `i`th call is inside of `running`, and stands at `pc`. -/
def InsideRunning (i : CallId) (s : State) (pc : RunningPc) : Prop :=
  ∃ c, s.threads[i]? = some c ∧ c.inside = .running pc

/-- In `s` the `i`th call begins to run `running`, and in `t`, to which `as`
leads, it returns `b`; in between it stays inside. -/
structure Asks (debug : Bool) (i : CallId) (s : State) (as : List Action) (t : State) (b : Bool) :
    Prop where
  reachable : (queueSystem debug).Reachable s
  run : (queueSystem debug).runFrom s as = some t
  begins : InsideRunning i s .test
  during : (queueSystem debug).Always (fun u => ∃ pc, InsideRunning i u pc) s as
  returned : InsideRunning i t (.returned b)

/-- A call of `running` returns true only if `P` holds at its `try_lock`. -/
def TrueOnlyIf (P : RubyQueue → Env → Prop) : Prop :=
  ∀ debug i s as t, Asks debug i s as t true → ∃ bs env cs u, as = bs ++ .step i env :: cs ∧
    (queueSystem debug).runFrom s bs = some u ∧ InsideRunning i u .tryLock ∧ P u.shared env

/-- A call of `running` returns false only if `P` holds at some instant of it. -/
def FalseOnlyIf (P : RubyQueue → Prop) : Prop :=
  ∀ debug i s as t, Asks debug i s as t false →
    ∃ bs u, bs <+: as ∧ (queueSystem debug).runFrom s bs = some u ∧ P u.shared

/-- No call of `running` clears `_running` while the loop holds `_run_mtx`. -/
def NeverClearsLocked : Prop :=
  ∀ debug s i env t, (queueSystem debug).Reachable s → step debug s (.step i env) = some t →
    InsideRunning i s .clear → s.shared.loop.locked = false

/-- The loop has set `_running`, and has neither cleared it nor left its critical
region. -/
def LoopPc.flagged : LoopPc → Bool
  | .unlock threw => threw
  | pc => pc.goesRound

/-- The loop has set `_running`, and has not left its critical region. -/
def LoopPc.inRegion : LoopPc → Bool
  | .unlock _ => true
  | pc => pc.goesRound

/-! ## Inside of `running` -/

/-- The steps of a call that is inside of `running`, and stays there, are those
of `running`. -/
theorem callStep_insideRunning {debug : Bool} {i : CallId} {env : Env} {rq rq' : RubyQueue}
    {c c' : Call} {pc pc' : RunningPc} (h : callStep debug i env rq c = some (rq', c'))
    (hin : c.inside = .running pc) (hin' : c'.inside = .running pc') :
    runningStep env rq pc = some (rq', pc') := by
  have hstopped : ∀ {p p' : StoppedPc}, stoppedStep env rq p = some (rq', p') →
      p.inside = .running pc → p'.inside = .running pc' → runningStep env rq pc = some (rq', pc') := by
    intro p p' hp hpin hpin'
    cases p with
    | running pc₁ =>
        cases hpin
        cases pc with
        | returned b => cases hp; cases hpin'
        | test | tryLock | clear | unlock =>
            obtain ⟨pc₂, hstep, rfl⟩ := inside_cases hp
            cases hpin'
            exact hstep
    | testStopping | returned b => cases hpin
  cases c with
  | running pc₁ =>
      obtain ⟨pc₂, hstep, rfl⟩ := inside_cases h
      cases hin
      cases hin'
      exact hstep
  | stopped p =>
      obtain ⟨p', hstep, rfl⟩ := inside_cases h
      exact hstopped hstep hin hin'
  | stopOnExit p =>
      obtain ⟨p', hstep, rfl⟩ := inside_cases h
      cases p with
      | stopped p₁ =>
          cases p₁ with
          | running pc₁ =>
              obtain ⟨p₂, hin₂, rfl⟩ := inside_cases hstep
              exact hstopped hin₂ hin hin'
          | testStopping | returned b => cases hin
      | poll pc₁ =>
          cases hin
          cases pc with
          | returned b => cases hstep; cases hin'
          | test | tryLock | clear | unlock =>
              obtain ⟨pc₂, hrunning, rfl⟩ := inside_cases hstep
              cases hin'
              exact hrunning
      | kill p => cases p <;> cases hin
      | stop pc | checkTime b | returned => cases hin
  | kill p => cases p <;> cases hin
  | ensureStarted p =>
      cases p with
      | kill p => cases p <;> cases hin
      | tryAcquire | checkTime b | returned | threw => cases hin
  | push pc | stop pc | start pc => cases hin

/-- A step of anyone else leaves a call where it stands. -/
theorem InsideRunning.unique {i : CallId} {s : State} {pc pc' : RunningPc}
    (h : InsideRunning i s pc) (h' : InsideRunning i s pc') : pc = pc' := by
  obtain ⟨c, hc, hin⟩ := h
  obtain ⟨c', hc', hin'⟩ := h'
  rw [hc] at hc'
  cases hc'
  rw [hin] at hin'
  cases hin'
  rfl

/-- A step of the system leaves a call of `running` where it stands, or is its
own step. -/
theorem InsideRunning.step {debug : Bool} {i : CallId} {s t : State} {a : Action}
    {pc pc' : RunningPc} (h : InsideRunning i s pc) (h' : InsideRunning i t pc')
    (hstep : step debug s a = some t) :
    pc' = pc ∨ ∃ env, a = .step i env ∧ runningStep env s.shared pc = some (t.shared, pc') := by
  obtain ⟨c, hc, hin⟩ := h
  rcases thread_step hc hstep with ⟨hsame, -⟩ | ⟨env, c', rfl, hcs, hc'⟩
  · exact .inl (h'.unique ⟨c, hsame, hin⟩)
  · obtain ⟨c₁, hc₁, hin'⟩ := h'
    rw [hc'] at hc₁
    cases hc₁
    exact .inr ⟨env, rfl, callStep_insideRunning hcs hin hin'⟩

/-! ## The flag -/

theorem LoopPc.locked_of_flagged {pc : LoopPc} (h : pc.flagged = true) : pc.locked = true := by
  cases pc <;> first | rfl | cases h

/-- A call clears `_running` only with a share of the mutex. -/
theorem Effect.running {i : CallId} {rq rq' : RubyQueue} {l l' : Ledger} (h : Effect i rq l l' rq') :
    rq'.running = rq.running ∨ l.shared = 1 := by
  cases h with
  | clearRunning => exact .inr rfl
  | _ => exact .inl rfl

/-- While a call has a share of the mutex the loop does not hold it. -/
theorem Locks.locked_of_shared {s : State} {i : CallId} {c : Call} (h : Locks s)
    (hc : s.threads[i]? = some c) (hshared : c.ledger.shared = 1) : s.shared.loop.locked = false := by
  have hle : 1 ≤ s.total (·.ledger.shared) := by
    rw [← hshared]
    exact Pool.le_total (fun c : Call => c.ledger.shared) hc
  by_contra hlocked
  have hzero := h.shared_zero (h.exclusive_eq.trans (by simpa using hlocked))
  rw [h.shared_eq] at hzero
  omega

/-- Until the loop clears it or leaves its critical region, `_running` is set. -/
theorem running_of_flagged {debug : Bool} {s : State} (h : (queueSystem debug).Reachable s) :
    s.shared.loop.flagged = true → s.shared.running = true := by
  refine System.invariant_with (S := queueSystem debug) (fun _ => locks)
    (P := fun s => s.shared.loop.flagged = true → s.shared.running = true)
    (fun hflag => absurd hflag Bool.false_ne_true) ?_ h
  intro s a t hs ht hrunning hstep hflag
  rcases step_cases hstep with ⟨m, rfl⟩ | ⟨i, env, c, rq', c', hc, hcs, rfl⟩ | ⟨threw, rq', -, hl, rfl⟩
  · exact hrunning hflag
  · have he := callStep_effect hcs
    have hloop : rq'.loop = s.shared.loop := by
      rcases he.loop with heq | ⟨-, hlock⟩
      · exact heq
      · rw [show (⟨rq', s.threads.set i c'⟩ : State).shared.loop = .lockRunMtx from hlock] at hflag
        cases hflag
    have hflag' : s.shared.loop.flagged = true := by
      rw [← hloop]
      exact hflag
    rcases he.running with heq | hshared
    · exact heq.trans (hrunning hflag')
    · have hlocked := hs.locked_of_shared hc hshared
      rw [LoopPc.locked_of_flagged hflag'] at hlocked
      cases hlocked
  · cases loopStep_effect hl with
    | setRunning hat => rfl
    | unwind item hat => exact hrunning (by rw [hat]; rfl)
    | lock hat | releaseLatch hat | clearRunning hat => cases hflag
    | unlock threw' hat => cases hflag
    | goRound hat | leave hat | acquire hat | goOn hat | leaveEarly hat | pop front item hat
    | begin item hat | finish item hat => exact hrunning (by rw [hat]; rfl)

/-! ## The answers -/

/-- At a step of `running` that finds the flag unset, or takes the lock, the
loop has not set the flag or has cleared it again. -/
theorem flagged_of_sawIdle {debug : Bool} {s : State} {env : Env} {rq' : RubyQueue}
    {pc pc' : RunningPc} (h : (queueSystem debug).Reachable s) (hpc : pc.sawIdle = false)
    (hpc' : pc'.sawIdle = true) (hstep : runningStep env s.shared pc = some (rq', pc')) : s.shared.loop.flagged = false := by
  by_contra hflag
  have hflag : s.shared.loop.flagged = true := by simpa using hflag
  have hrunning := running_of_flagged h hflag
  have hlocked : s.shared.runMtxExclusive = true :=
    (locks h).exclusive_eq.trans (LoopPc.locked_of_flagged hflag)
  cases pc with
  | test =>
      simp only [runningStep, hrunning, if_true] at hstep
      cases hstep
      cases hpc'
  | tryLock =>
      simp only [runningStep, hlocked, Bool.true_or, if_true] at hstep
      cases hstep
      cases hpc'
  | clear | unlock => cases hpc
  | returned b => cases hstep

/-- A step of `running` that returns true finds the mutex taken, or fails
spuriously. -/
theorem locked_of_returned {debug : Bool} {s : State} {env : Env} {rq' : RubyQueue} {pc : RunningPc}
    (h : (queueSystem debug).Reachable s)
    (hstep : runningStep env s.shared pc = some (rq', .returned true)) :
    pc = .tryLock ∧ (s.shared.loop.locked = true ∨ env.spurious = true) := by
  cases pc with
  | test =>
      simp only [runningStep, Option.some.injEq, Prod.mk.injEq] at hstep
      split at hstep <;> cases hstep.2
  | tryLock =>
      simp only [runningStep] at hstep
      split at hstep
      · next hfails =>
          rw [← (locks h).exclusive_eq]
          exact ⟨rfl, by simpa using hfails⟩
      · cases hstep
  | clear | unlock | returned b => cases hstep

/-- What a call of `running` has come upon, where it stands. -/
structure Found (debug : Bool) (i : CallId) (s : State) (as : List Action) (pc : RunningPc) : Prop where
  locked : pc = .returned true → ∃ bs env cs u, as = bs ++ .step i env :: cs ∧
    (queueSystem debug).runFrom s bs = some u ∧ InsideRunning i u .tryLock ∧
      (u.shared.loop.locked = true ∨ env.spurious = true)
  idle : pc.sawIdle = true → ∃ bs u, bs <+: as ∧ (queueSystem debug).runFrom s bs = some u ∧
    u.shared.loop.flagged = false

theorem Found.concat {debug : Bool} {i : CallId} {s : State} {as : List Action} {pc : RunningPc}
    (h : Found debug i s as pc) (a : Action) : Found debug i s (as ++ [a]) pc := by
  refine ⟨fun hpc => ?_, fun hpc => ?_⟩
  · obtain ⟨bs, env, cs, u, rfl, hu, hin, hP⟩ := h.locked hpc
    exact ⟨bs, env, cs ++ [a], u, by rw [List.append_assoc, List.cons_append], hu, hin, hP⟩
  · obtain ⟨bs, u, hbs, hu, hP⟩ := h.idle hpc
    exact ⟨bs, u, hbs.trans (List.prefix_append as [a]), hu, hP⟩

/-- A call of `running` has come upon what it says, wherever it stands. -/
theorem found {debug : Bool} {i : CallId} {s : State} (hs : (queueSystem debug).Reachable s)
    (hbegin : InsideRunning i s .test) (as : List Action)
    (hduring : (queueSystem debug).Always (fun u => ∃ pc, InsideRunning i u pc) s as) :
    ∀ t, (queueSystem debug).runFrom s as = some t → ∀ pc, InsideRunning i t pc →
      Found debug i s as pc := by
  induction as using List.reverseRecOn with
  | nil =>
      rintro t ht pc hpc
      cases ht
      obtain rfl := hbegin.unique hpc
      exact ⟨fun h => (by cases h), fun h => absurd h Bool.false_ne_true⟩
  | append_singleton as a ih =>
      intro t ht pc' hpc'
      have hduring' := (System.always_concat.1 hduring).1
      rw [System.runFrom_concat] at ht
      obtain ⟨u, hu, hstep⟩ := Option.bind_eq_some_iff.1 ht
      obtain ⟨pc, hpc⟩ := hduring'.last hu
      have hreach : (queueSystem debug).Reachable u := hs.trans ⟨as, hu⟩
      have hfound := ih hduring' u hu pc hpc
      rcases hpc.step hpc' hstep with rfl | ⟨env, rfl, hrunning⟩
      · exact hfound.concat a
      · refine ⟨fun htrue => ?_, fun hidle' => ?_⟩
        · subst htrue
          obtain ⟨rfl, hlocked⟩ := locked_of_returned hreach hrunning
          exact ⟨as, env, [], u, rfl, hu, hpc, hlocked⟩
        · cases hidle : pc.sawIdle with
          | false =>
              exact ⟨as, u, List.prefix_append as _, hu,
                flagged_of_sawIdle hreach hidle hidle' hrunning⟩
          | true => exact (hfound.concat _).idle hidle

/-- **What an answer says.**  A call of `running` returns true only if the loop
holds `_run_mtx` when the call tries it, or the try fails spuriously; it returns
false only if at some instant of it the loop had not set `_running`, or had
cleared it again or left its critical region; and it never clears `_running`
while the loop holds `_run_mtx`. -/
theorem running_accurate :
    TrueOnlyIf (fun rq env => rq.loop.locked = true ∨ env.spurious = true) ∧
      FalseOnlyIf (fun rq => rq.loop.flagged = false) ∧ NeverClearsLocked := by
  refine ⟨?_, ?_, ?_⟩
  · intro debug i s as t h
    exact (found h.reachable h.begins as h.during t h.run _ h.returned).locked rfl
  · intro debug i s as t h
    exact (found h.reachable h.begins as h.during t h.run _ h.returned).idle rfl
  · rintro debug s i env t hs - ⟨c, hc, hin⟩
    refine (locks hs).locked_of_shared hc ?_
    rw [Call.ledger, hin]
    rfl

/-! ## Why the answers say no more -/

/-- The loop has been left by an exception of its first item. -/
def leftByException : State :=
  ⟨{ startupLatch := 1, running := true, starting := true, rbThread := true, loop := .exited true,
     appended := [1], taken := [1], executed := [1] },
    [.start .done, .push .done, .running .test]⟩

theorem leftByException_reachable : (queueSystem false).Reachable leftByException :=
  ⟨[.call .start, .step 0 {}, .step 0 {}, .step 0 {}, .loop false, .loop false, .loop false,
    .call .push, .step 1 {}, .step 1 {}, .step 1 {}, .loop false, .loop false, .loop false,
    .loop false, .loop false, .loop true, .loop false, .call .running], by decide⟩

/-- A `try_lock` may fail although nobody holds the mutex; the flag that an
exception has left set then makes for a true answer. -/
theorem not_trueOnlyIf_spurious : ¬ TrueOnlyIf (fun rq _ => rq.loop.locked = true) := by
  intro hall
  let as : List Action := [.step 2 {}, .step 2 { spurious := true }]
  have hinside : (queueSystem false).Always (fun u => u.threads[2]? = some (.running .test) ∨
      u.threads[2]? = some (.running .tryLock) ∨ u.threads[2]? = some (.running (.returned true)))
      leftByException as := by decide
  have hfree : (queueSystem false).Always (fun u => u.shared.loop.locked = false)
      leftByException as := by decide
  have hasks : Asks false 2 leftByException as
      { leftByException with threads := [.start .done, .push .done, .running (.returned true)] } true :=
    { reachable := leftByException_reachable
      run := by decide
      begins := ⟨_, rfl, rfl⟩
      during := by
        intro bs hbs u hu
        rcases hinside bs hbs u hu with hc | hc | hc <;> exact ⟨_, _, hc, rfl⟩
      returned := ⟨_, rfl, rfl⟩ }
  obtain ⟨bs, env, cs, u, has, hu, -, hlocked⟩ := hall _ _ _ _ _ hasks
  rw [hfree bs ⟨_, has.symm⟩ u hu] at hlocked
  cases hlocked

/-- The loop has cleared `_running`, and holds the mutex still. -/
def clearedNotUnlocked : State :=
  ⟨{ sem := 1, startupLatch := 1, runMtxExclusive := true, starting := true, stopping := true,
     rbThread := true, loop := .unlock false }, [.start .done, .stop .done, .running .test]⟩

theorem clearedNotUnlocked_reachable : (queueSystem false).Reachable clearedNotUnlocked :=
  ⟨[.call .start, .step 0 {}, .step 0 {}, .step 0 {}, .loop false, .loop false, .loop false,
    .call .stop, .step 1 {}, .step 1 {}, .loop false, .loop false, .call .running], by decide⟩

/-- A call made between the clearing of the flag and the unlocking returns false
inside of the critical region. -/
theorem not_falseOnlyIf_window : ¬ FalseOnlyIf (fun rq => rq.loop.inRegion = false) := by
  intro hall
  have hinside : (queueSystem false).Always (fun u => u.threads[2]? = some (.running .test) ∨
      u.threads[2]? = some (.running (.returned false))) clearedNotUnlocked [.step 2 {}] := by decide
  have hregion : (queueSystem false).Always (fun u => u.shared.loop.inRegion = true)
      clearedNotUnlocked [.step 2 {}] := by decide
  have hasks : Asks false 2 clearedNotUnlocked [.step 2 {}]
      { clearedNotUnlocked with threads := [.start .done, .stop .done, .running (.returned false)] }
      false :=
    { reachable := clearedNotUnlocked_reachable
      run := by decide
      begins := ⟨_, rfl, rfl⟩
      during := by
        intro bs hbs u hu
        rcases hinside bs hbs u hu with hc | hc <;> exact ⟨_, _, hc, rfl⟩
      returned := ⟨_, rfl, rfl⟩ }
  obtain ⟨bs, u, hbs, hu, hout⟩ := hall _ _ _ _ _ hasks
  rw [hregion bs hbs u hu] at hout
  cases hout

/-- Neither answer is as accurate as it could be. -/
theorem not_running_accurate : ¬ TrueOnlyIf (fun rq _ => rq.loop.locked = true) ∧
    ¬ FalseOnlyIf (fun rq => rq.loop.inRegion = false) :=
  ⟨not_trueOnlyIf_spurious, not_falseOnlyIf_window⟩

end RuBLE.CallbackQueue
