import Mathlib
import RuBLE.Management.QueueFailure
import RuBLE.Management.QueueStartup

/-!
# What a start-up that has been ensured promises

`ensure_started` returns once it has acquired `_startup_latch`, and `running`
reads `_running`.  The loop releases the one before it sets the other.

* `Undisturbed` — nobody stops the queue, and no item throws.
* `RunningAfterStart` — what a caller of `ensure_started` goes by: from then on
  `running()` says that the queue runs.
* `running_after_start_iff` — **it holds but for a window**: of exactly those
  runs in which none of these calls reads the flag between the release of the
  latch and the setting of the flag.
-/

namespace RuBLE.CallbackQueue

open Transition

/-! ## Undisturbed runs -/

/-- The step is part of no call of `stop` or `kill`, and begins none. -/
def NoneStops (s : State) : Action → Prop
  | .call m => m ≠ .stop ∧ m ≠ .kill ∧ m ≠ .stopOnExit
  -- a call of `ensure_started` whose time is up would go on to `kill`
  | .step i env => s.threads[i]? = some (.ensureStarted (.checkTime false)) → env.timedOut = false
  | .loop _ => True

instance (s : State) (a : Action) : Decidable (NoneStops s a) :=
  match a with
  | .call m => inferInstanceAs (Decidable (m ≠ .stop ∧ m ≠ .kill ∧ m ≠ .stopOnExit))
  | .step i env => inferInstanceAs
      (Decidable (s.threads[i]? = some (.ensureStarted (.checkTime false)) → env.timedOut = false))
  | .loop _ => isTrue trivial

instance (pc : LoopPc) : Decidable (∃ item, pc = .executing item) :=
  match pc with
  | .executing item => isTrue ⟨item, rfl⟩
  | .notCreated | .lockRunMtx | .releaseLatch | .setRunning | .testStopping | .acquire | .testBreak
  | .pop | .callWithGvl _ | .clearRunning | .unlock _ | .exited _ => isFalse (by simp)

instance (s : State) (a : Action) : Decidable (NoneThrows s a) :=
  match a with
  | .loop true =>
      inferInstanceAs (Decidable ((∃ item, s.shared.loop = .executing item) → s.shared.stopping = true))
  | .loop false | .call _ | .step _ _ => isTrue trivial

/-- Nobody stops the queue, and no item throws. -/
def Undisturbed (s : State) (a : Action) : Prop := NoneStops s a ∧ NoneThrows s a

instance (s : State) (a : Action) : Decidable (Undisturbed s a) :=
  inferInstanceAs (Decidable (NoneStops s a ∧ NoneThrows s a))

/-- The call does not come to stop the queue. -/
def Call.harmless : Call → Bool
  | .push _ | .running _ | .stopped _ | .start _ => true
  | .ensureStarted pc => !pc.failing
  | .stop _ | .kill _ | .stopOnExit _ => false

/-- The loop has been asked by nobody to stop, and goes on. -/
structure Unstopped (s : State) : Prop where
  stopping : s.shared.stopping = false
  active : s.shared.loop.active = true
  harmless : ∀ c ∈ s.threads, c.harmless = true

theorem Call.stopPermit_of_harmless {c : Call} (h : c.harmless = true) : c.ledger.stopPermit = 0 := by
  cases c with
  | push pc => cases pc <;> rfl
  | running pc => cases pc <;> rfl
  | start pc => cases pc <;> rfl
  | stopped pc =>
      cases pc with
      | running pc => cases pc <;> rfl
      | testStopping | returned b => rfl
  | ensureStarted pc =>
      cases pc with
      | kill pc => cases h
      | tryAcquire | checkTime b | returned | threw => rfl
  | stop pc | kill pc | stopOnExit pc => cases h

theorem entry_harmless {m : Method} (h : m ≠ .stop ∧ m ≠ .kill ∧ m ≠ .stopOnExit) :
    m.entry.harmless = true := by
  cases m <;> simp_all [Method.entry, Call.harmless, EnsureStartedPc.failing]

theorem callStep_harmless {debug : Bool} {i : CallId} {env : Env} {rq rq' : RubyQueue} {c c' : Call}
    (h : callStep debug i env rq c = some (rq', c')) (hc : c.harmless = true)
    (htime : c = .ensureStarted (.checkTime false) → env.timedOut = false) :
    c'.harmless = true := by
  cases c with
  | push pc | running pc | stopped pc | start pc =>
      obtain ⟨pc₁, -, rfl⟩ := inside_cases h
      rfl
  | stop pc | kill pc | stopOnExit pc => cases hc
  | ensureStarted pc =>
      obtain ⟨pc₁, hin, rfl⟩ := inside_cases h
      rcases ensureStartedStep_cases hin with ⟨-, rfl, -⟩ | ⟨-, rfl, -⟩ | ⟨-, rfl⟩ | ⟨-, -, rfl⟩ |
        ⟨rfl, hup, -⟩ | ⟨hfailing, -⟩
      · rfl
      · rfl
      · rfl
      · rfl
      · simp [htime rfl] at hup
      · simp [Call.harmless, hfailing] at hc

/-- A step that stops nothing leaves the flag unset. -/
theorem Effect.stopping_false {i : CallId} {rq rq' : RubyQueue} {l l' : Ledger}
    (h : Effect i rq l l' rq') (hl : l'.stopPermit = 0) (hs : rq.stopping = false) :
    rq'.stopping = false := by
  cases h <;> simp_all

theorem Unstopped.step {debug : Bool} {s t : State} {a : Action} (h : Unstopped s)
    (hok : Undisturbed s a) (hstep : CallbackQueue.step debug s a = some t) : Unstopped t := by
  have hleft : LeftOnRequest t := LeftOnRequest.step (fun _ => h.active) hok.2 hstep
  have hstops := hok.1
  clear hok
  cases a with
  | call m =>
      cases hstep
      refine ⟨h.stopping, h.active, ?_⟩
      rw [Pool.spawn_threads, List.forall_mem_append, List.forall_mem_singleton]
      exact ⟨h.harmless, entry_harmless hstops⟩
  | step i env =>
      obtain ⟨c, rq', c', hc, hcs, rfl⟩ := Pool.stepAt_cases hstep
      have hc' : c'.harmless = true := by
        apply callStep_harmless hcs (h.harmless c (List.mem_of_getElem? hc))
        rintro rfl
        exact hstops hc
      have hstopping : rq'.stopping = false :=
        (callStep_effect hcs).stopping_false (Call.stopPermit_of_harmless hc') h.stopping
      refine ⟨hstopping, hleft hstopping, fun d hd => ?_⟩
      rcases List.mem_or_eq_of_mem_set hd with hd | rfl
      · exact h.harmless d hd
      · exact hc'
  | loop threw =>
      obtain ⟨rq', hl, rfl⟩ := Option.map_eq_some_iff.1 hstep
      have hstopping : rq'.stopping = false := by
        rw [(loopStep_effect hl).stopping]
        exact h.stopping
      exact ⟨hstopping, hleft hstopping, h.harmless⟩

/-- Through an undisturbed run the queue is not stopped. -/
theorem unstopped {debug : Bool} {as : List Action} {s : State}
    (hok : (queueSystem debug).Meets Undisturbed ⟨{}, []⟩ as)
    (hs : (queueSystem debug).run as = some s) : Unstopped s :=
  System.invariant_of_meets (fun _ _ _ h ha hstep => h.step ha hstep)
    ⟨rfl, rfl, fun _ hc => absurd hc List.not_mem_nil⟩ hok hs

/-! ## What a caller goes by -/

/-- The `j`th call is of `running`, and begins after a call of `ensure_started`
has returned. -/
def BeginsAfterStart (debug : Bool) (as : List Action) (j : CallId) : Prop :=
  ∃ (pre post : List Action) (s : State) (i : CallId), as = pre ++ .call .running :: post ∧
    (queueSystem debug).run pre = some s ∧ s.threads[i]? = some (.ensureStarted .returned) ∧
      j = s.threads.length

/-- The call of `running` has returned true, or stands before one of the two
steps that this takes. -/
def RunningPc.affirms : RunningPc → Bool
  | .test | .tryLock => true
  | .clear | .unlock => false
  | .returned b => b

/-- In a run that leads to `t`, every call of `running` that begins after a call
of `ensure_started` has returned answers true. -/
def RunningAfterStart (debug : Bool) (as : List Action) (t : State) : Prop :=
  ∀ j, BeginsAfterStart debug as j → ∃ pc, t.threads[j]? = some (.running pc) ∧ pc.affirms = true

/-- None of these calls reads `_running` while the loop stands between
`_startup_latch.release()` and `_running.test_and_set()`. -/
def ReadsOutsideWindow (debug : Bool) (as : List Action) : Prop :=
  ∀ (pre : List Action) j env post (s : State), as = pre ++ .step j env :: post → BeginsAfterStart debug pre j →
    (queueSystem debug).run pre = some s → s.threads[j]? = some (.running .test) →
      s.shared.loop ≠ .setRunning

/-! ## The window -/

/-- Before the loop sets it, `_running` is not set. -/
theorem running_of_not_begun {debug : Bool} {s : State} (h : (queueSystem debug).Reachable s) :
    s.shared.loop.begun = false → s.shared.running = false := by
  refine queue_invariant (P := fun s => s.shared.loop.begun = false → s.shared.running = false)
    (fun _ => rfl) (fun _ _ h => h) ?_ ?_ h
  · intro s i c c' l l' rq' hs _ _ _ he hb
    cases he <;> simp_all [LoopPc.begun]
  · intro s rq' hs hl hb
    cases hl <;> simp_all [LoopPc.begun]

/-- Once a call of `ensure_started` has returned, the latch has been released. -/
theorem released_of_returned {debug : Bool} {s : State} {i : CallId}
    (h : (queueSystem debug).Reachable s) (hc : s.threads[i]? = some (.ensureStarted .returned)) :
    s.shared.loop.released = true := by
  have hlatch := latch h
  have hle := Pool.le_total Call.latch hc
  rw [Latch] at hlatch
  by_contra hnot
  simp only [Bool.not_eq_true] at hnot
  rw [hnot] at hlatch
  simp [Call.latch, EnsureStartedPc.acquired] at hle hlatch
  omega

theorem LoopEffect.released {rq rq' : RubyQueue} (h : LoopEffect rq rq')
    (hr : rq.loop.released = true) : rq'.loop.released = true := by
  cases h <;> simp_all [LoopPc.released]

theorem released_step {debug : Bool} {s t : State} {a : Action} (hs : s.shared.loop.released = true)
    (hstep : step debug s a = some t) : t.shared.loop.released = true := by
  rcases step_cases hstep with ⟨m, rfl⟩ | ⟨i, env, c, rq', c', -, hcs, rfl⟩ | ⟨threw, rq', -, hl, rfl⟩
  · exact hs
  · exact (callStep_effect hcs).released.trans hs
  · exact (loopStep_effect hl).released hs

theorem LoopPc.begun_of_released {pc : LoopPc} (h : pc.released = true) (hne : pc ≠ .setRunning) :
    pc.begun = true := by
  cases pc <;> simp_all [LoopPc.released, LoopPc.begun]

theorem LoopPc.locked_of_released {pc : LoopPc} (h : pc.released = true) (ha : pc.active = true) :
    pc.locked = true := by
  cases pc <;> simp_all [LoopPc.released, LoopPc.active, LoopPc.locked]

/-- Where a call of `running` stands after a step: where it stood before, or
where its own step has brought it. -/
theorem running_step {debug : Bool} {s t : State} {a : Action} {j : CallId} {pc : RunningPc}
    (hc : s.threads[j]? = some (.running pc)) (hstep : step debug s a = some t) :
    t.threads[j]? = some (.running pc) ∨ ∃ env pc', a = .step j env ∧
      runningStep env s.shared pc = some (t.shared, pc') ∧ t.threads[j]? = some (.running pc') := by
  rcases thread_step hc hstep with ⟨hsame, -⟩ | ⟨env, c', rfl, hcs, hc'⟩
  · exact .inl hsame
  · obtain ⟨pc', hin, rfl⟩ := inside_cases hcs
    exact .inr ⟨env, pc', rfl, hin, hc'⟩

/-- Outside of the window a step of `running` goes on towards true. -/
theorem affirms_step {debug : Bool} {s : State} {env : Env} {rq' : RubyQueue} {pc pc' : RunningPc}
    (h : (queueSystem debug).Reachable s) (hs : Unstopped s)
    (hreleased : s.shared.loop.released = true) (hpc : pc.affirms = true)
    (houtside : pc = .test → s.shared.loop ≠ .setRunning)
    (hstep : runningStep env s.shared pc = some (rq', pc')) : pc'.affirms = true := by
  have hserving : Serving debug s := Serving.of_active h hs.active hs.stopping
  cases pc with
  | test =>
      have hbegun := LoopPc.begun_of_released hreleased (houtside rfl)
      rw [(hserving.running hbegun env).1] at hstep
      cases hstep
      rfl
  | tryLock =>
      -- the loop holds the mutex from before it releases the latch
      have hlocked : s.shared.runMtxExclusive = true := by
        rw [(locks h).exclusive_eq]
        exact LoopPc.locked_of_released hreleased hs.active
      simp only [runningStep, hlocked, Bool.true_or, if_true, Option.some.injEq,
        Prod.mk.injEq] at hstep
      rw [← hstep.2]
      rfl
  | clear | unlock => cases hpc
  | returned b => cases hstep

theorem ReadsOutsideWindow.of_initial {debug : Bool} {as bs : List Action}
    (h : ReadsOutsideWindow debug as) (hp : bs <+: as) : ReadsOutsideWindow debug bs := by
  obtain ⟨ds, rfl⟩ := hp
  rintro pre j env post s rfl
  exact h pre j env (post ++ ds) s (by simp)

/-- A call begins with the last step, or has begun before. -/
theorem beginsAfterStart_concat {debug : Bool} {as : List Action} {a : Action} {j : CallId}
    {s : State} (h : BeginsAfterStart debug (as ++ [a]) j)
    (hs : (queueSystem debug).run as = some s) :
    BeginsAfterStart debug as j ∨ a = .call .running ∧ j = s.threads.length ∧
      ∃ i : CallId, s.threads[i]? = some (.ensureStarted .returned) := by
  obtain ⟨pre, post, u, i, heq, hu, hc, hj⟩ := h
  rcases List.eq_nil_or_concat post with rfl | ⟨post, b, rfl⟩
  · obtain ⟨rfl, hab⟩ := List.append_inj' heq rfl
    rw [hs] at hu
    cases hu
    exact .inr ⟨(List.cons.inj hab).1, hj, i, hc⟩
  · rw [List.concat_eq_append, ← List.cons_append, ← List.append_assoc] at heq
    obtain ⟨rfl, -⟩ := List.append_inj' heq rfl
    exact .inl ⟨pre, post, u, i, rfl, hu, hc, hj⟩

/-- Through an undisturbed run that keeps out of the window, each of these calls
goes on towards true. -/
theorem affirms_of_readsOutsideWindow {debug : Bool} (as : List Action) :
    (queueSystem debug).Meets Undisturbed ⟨{}, []⟩ as → ReadsOutsideWindow debug as →
    ∀ t, (queueSystem debug).run as = some t → ∀ j, BeginsAfterStart debug as j →
      t.shared.loop.released = true ∧
        ∃ pc, t.threads[j]? = some (.running pc) ∧ pc.affirms = true := by
  induction as using List.reverseRecOn with
  | nil =>
      rintro - - t - j ⟨pre, post, s, i, heq, -⟩
      simp at heq
  | append_singleton as a ih =>
      intro hok houtside t ht j hj
      have hprefix : as <+: as ++ [a] := List.prefix_append as [a]
      rw [System.run, System.runFrom_concat] at ht
      obtain ⟨s, hs, hstep⟩ := Option.bind_eq_some_iff.1 ht
      have hreach : (queueSystem debug).Reachable s := System.reachable_of_run hs
      have hbefore := (System.meets_concat.1 hok).1
      rcases beginsAfterStart_concat hj hs with hearlier | ⟨rfl, rfl, i, hi⟩
      · obtain ⟨hreleased, pc, hc, hpc⟩ := ih hbefore (houtside.of_initial hprefix) s hs j hearlier
        refine ⟨released_step hreleased hstep, ?_⟩
        rcases running_step hc hstep with hc' | ⟨env, pc', rfl, hrunning, hc'⟩
        · exact ⟨pc, hc', hpc⟩
        · refine ⟨pc', hc', affirms_step hreach (unstopped hbefore hs) hreleased hpc ?_ hrunning⟩
          rintro rfl
          exact houtside as j env [] s rfl hearlier hs hc
      · -- the call has just begun
        have hreleased := released_of_returned hreach hi
        cases hstep
        exact ⟨hreleased, .test, by simp [Method.entry], rfl⟩

/-- What a call of `running` has returned stays. -/
theorem returned_forever {debug : Bool} {s t : State} {j : CallId} {b : Bool}
    (hc : s.threads[j]? = some (.running (.returned b))) (h : (queueSystem debug).ReachesFrom s t) :
    t.threads[j]? = some (.running (.returned b)) := by
  refine System.invariantFrom (S := queueSystem debug)
    (P := fun u => u.threads[j]? = some (.running (.returned b))) ?_ hc h
  intro u a v hu hstep
  rcases running_step hu hstep with hv | ⟨env, pc', -, hrunning, -⟩
  · exact hv
  · cases hrunning

/-- **What a start-up that has been ensured promises.**  In an undisturbed run
every call of `running` that begins after a call of `ensure_started` has
returned answers true, if and only if none of these calls reads `_running`
while the loop has released the latch and not yet set the flag. -/
theorem running_after_start_iff {debug : Bool} {as : List Action} {t : State}
    (hok : (queueSystem debug).Meets Undisturbed ⟨{}, []⟩ as)
    (ht : (queueSystem debug).run as = some t) :
    RunningAfterStart debug as t ↔ ReadsOutsideWindow debug as := by
  constructor
  · rintro hall pre j env post s rfl ⟨pre', post', u, i, rfl, hu, hc₀, rfl⟩ hs hc hwindow
    -- the flag is not set yet, so the call returns false, and has returned it at the end
    have hidle : s.shared.running = false := by
      apply running_of_not_begun (System.reachable_of_run hs)
      rw [hwindow]
      rfl
    have hnext : step debug s (.step u.threads.length env) =
        some ⟨s.shared, s.threads.set u.threads.length (.running (.returned false))⟩ := by
      simp [step, Pool.stepAt, hc, callStep, inside, runningStep, hidle]
    rw [System.run, System.runFrom_append, ← System.run, hs, Option.bind_some, System.runFrom_cons,
      show (queueSystem debug).step = step debug from rfl, hnext, Option.bind_some] at ht
    have hfalse := returned_forever (List.getElem?_set_self (List.getElem?_eq_some_iff.1 hc).1)
      ⟨post, ht⟩
    obtain ⟨pc, hpc, haffirms⟩ := hall u.threads.length
      ⟨pre', post' ++ .step u.threads.length env :: post, u, i, by simp, hu, hc₀, rfl⟩
    rw [hfalse] at hpc
    cases hpc
    cases haffirms
  · intro houtside j hj
    exact (affirms_of_readsOutsideWindow as hok houtside t ht j hj).2

/-- The loop has released the latch, and a call of `ensure_started` has returned;
then the flag is asked for, before it is set. -/
def askedEarly : List Action :=
  [.call .start, .step 0 {}, .step 0 {}, .step 0 {}, .loop false, .loop false,
    .call .ensureStarted, .step 1 {}, .step 1 {}, .call .running, .step 2 {}]

/-- The same, with the flag set before it is asked for. -/
def askedLate : List Action :=
  [.call .start, .step 0 {}, .step 0 {}, .step 0 {}, .loop false, .loop false,
    .call .ensureStarted, .step 1 {}, .step 1 {}, .call .running, .loop false, .step 2 {},
    .step 2 {}]

theorem running_after_start_askedLate : ∃ t, (queueSystem false).run askedLate = some t ∧
    t.threads[2]? = some (.running (.returned true)) ∧
      (RunningAfterStart false askedLate t ↔ ReadsOutsideWindow false askedLate) :=
  ⟨_, rfl, rfl, running_after_start_iff (by decide) rfl⟩

/-- A call made in the window returns false, although the start-up has been
ensured. -/
theorem not_running_askedEarly : ¬ ∀ (debug : Bool) (as : List Action) (t : State),
    (queueSystem debug).Meets Undisturbed ⟨{}, []⟩ as → (queueSystem debug).run as = some t →
      RunningAfterStart debug as t := by
  intro hall
  have hrun : ((queueSystem false).run askedEarly).map (·.threads[2]?) =
      some (some (.running (.returned false))) := by decide
  obtain ⟨t, ht, hc⟩ := Option.map_eq_some_iff.1 hrun
  have hbegins : BeginsAfterStart false askedEarly 2 :=
    ⟨askedEarly.take 9, [.step 2 {}], _, 1, rfl, rfl, rfl, rfl⟩
  obtain ⟨pc, hpc, haffirms⟩ := hall false askedEarly t (by decide) ht 2 hbegins
  rw [hc] at hpc
  cases hpc
  cases haffirms

end RuBLE.CallbackQueue
