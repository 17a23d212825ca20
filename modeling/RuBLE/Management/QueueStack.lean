import Mathlib
import RuBLE.Library.Stack
import RuBLE.Management.QueueGrowth
import RuBLE.Management.QueueOrder

/-!
# The order in which the queue serves

`push` appends at the back of `_q` and the loop takes from the back.  So `_q` is
a stack, and what the threads do to it, in whatever order they come to do it, is
a run of one.

* `onStack` — what a step of the queue does to the stack.
* `trace_run` — **the queue refines a stack**.
* `lastInFirstOut` — **the order of service**: whatever is appended while an
  item waits is taken before that item is.
* `begins` — the item that a step begins to execute.
* `burst_reversed` — items that pile up while the loop takes none are then taken
  in the opposite order.
-/

namespace RuBLE.CallbackQueue

open Transition

/-! ## The queue as a stack -/

/-- What a step puts on the back of `_q`, or takes from there. -/
def onStack (s : State) : Action → Option (StackOp Item)
  | .call _ => none
  | .step i _ => if s.threads[i]? = some (.push .append) then some (.put i) else none
  | .loop _ => if s.shared.loop = .pop then s.shared.q.getLast?.map .take else none

/-- What a run does to `_q`. -/
def trace (debug : Bool) (s : State) (as : List Action) : List (StackOp Item) :=
  (queueSystem debug).seenFrom onStack s as

/-- The only step of a call that touches `_q` is the append of `push`. -/
theorem callStep_q {debug : Bool} {i : CallId} {env : Env} {rq rq' : RubyQueue} {c c' : Call}
    (h : callStep debug i env rq c = some (rq', c')) :
    (c = .push .append ∧ rq'.q = rq.q ++ [i] ∧ rq'.appended = rq.appended ++ [i]) ∨
      (c ≠ .push .append ∧ rq'.q = rq.q ∧ rq'.appended = rq.appended) := by
  by_cases hc : c = .push .append
  · subst hc
    cases h
    exact .inl ⟨rfl, rfl, rfl⟩
  refine .inr ⟨hc, ?_⟩
  have hpermit : c'.ledger.pushPermit = 0 := by
    rw [pushPermit_eq, if_neg]
    intro hin
    obtain rfl := Call.eq_push_of_inside hin
    -- only a call of `push` comes to its own release, and only from its append
    cases c with
    | push pc₀ =>
        obtain ⟨pc₁, hstep, heq⟩ := inside_cases h
        cases heq
        cases pc₀ with
        | append => exact hc rfl
        | test =>
            simp only [pushStep, Option.some.injEq, Prod.mk.injEq] at hstep
            obtain ⟨-, hpc⟩ := hstep
            split at hpc <;> cases hpc
        | release | done | refused => cases hstep
    | stop _ | running _ | stopped _ | start _ | kill _ | ensureStarted _ | stopOnExit _ =>
        obtain ⟨pc₁, -, heq⟩ := inside_cases h
        cases heq
  obtain ⟨happ, hq⟩ := (callStep_effect h).appended hpermit
  exact ⟨hq, happ⟩

theorem Effect.taken {i : CallId} {rq rq' : RubyQueue} {l l' : Ledger} (h : Effect i rq l l' rq') :
    rq'.taken = rq.taken := by
  cases h <;> rfl

/-- What a step does to `_q`, and to the records of what was appended and taken. -/
theorem onStack_step {debug : Bool} {s t : State} {a : Action} (h : step debug s a = some t) :
    match onStack s a with
    | none => t.shared.q = s.shared.q ∧ t.shared.appended = s.shared.appended ∧
        t.shared.taken = s.shared.taken
    | some (.put i) => t.shared.q = s.shared.q ++ [i] ∧
        t.shared.appended = s.shared.appended ++ [i] ∧ t.shared.taken = s.shared.taken
    | some (.take i) => s.shared.q = t.shared.q ++ [i] ∧
        t.shared.appended = s.shared.appended ∧ t.shared.taken = s.shared.taken ++ [i] := by
  cases a with
  | call m =>
      cases h
      exact ⟨rfl, rfl, rfl⟩
  | step i env =>
      obtain ⟨c, rq', c', hc, hcs, rfl⟩ := Pool.stepAt_cases h
      have htaken : rq'.taken = s.shared.taken := (callStep_effect hcs).taken
      obtain ⟨rfl, hq, happ⟩ | ⟨hne, hq, happ⟩ := callStep_q hcs
      · rw [onStack, if_pos hc]
        exact ⟨hq, happ, htaken⟩
      · rw [onStack, if_neg (by rw [hc]; simpa using hne)]
        exact ⟨hq, happ, htaken⟩
  | loop threw =>
      obtain ⟨rq', hloop, rfl⟩ := Option.map_eq_some_iff.1 h
      cases loopStep_effect hloop with
      | pop front item hl hq =>
          rw [onStack, if_pos hl, hq, List.getLast?_concat]
          exact ⟨rfl, rfl, rfl⟩
      | lock hl | releaseLatch hl | setRunning hl | goRound hl | leave hl | acquire hl | goOn hl
      | leaveEarly hl | begin item hl | finish item hl | unwind item hl | clearRunning hl
      | unlock threw hl =>
          rw [onStack, if_neg (by rw [hl]; exact LoopPc.noConfusion)]
          exact ⟨rfl, rfl, rfl⟩

/-- The stack follows each step. -/
theorem onStack_simulates {debug : Bool} (s : State) (a : Action) (t : State) (l : List Item)
    (hl : l = s.shared.q.reverse) (hstep : step debug s a = some t) :
    ∃ l', (stackSystem Item).runFrom l (onStack s a).toList = some l' ∧ l' = t.shared.q.reverse := by
  subst hl
  have hq := onStack_step hstep
  refine ⟨t.shared.q.reverse, ?_, rfl⟩
  cases hsee : onStack s a with
  | none =>
      rw [hsee] at hq
      rw [hq.1]
      rfl
  | some op =>
      rw [hsee] at hq
      show ((stackStep s.shared.q.reverse op).bind fun l => some l) = _
      cases op with
      | put i => simp [stackStep, hq.1]
      | take i => simp [stackStep, hq.1]

/-- **The queue refines a stack.**  What the steps of a run do to `_q`, whichever
threads make them, is a run of a stack, which holds what waits, the newest on
top. -/
theorem trace_run {debug : Bool} {s t : State} {as : List Action}
    (h : (queueSystem debug).runFrom s as = some t) :
    (stackSystem Item).runFrom s.shared.q.reverse (trace debug s as) =
      some t.shared.q.reverse := by
  obtain ⟨l, hl, hR⟩ := System.simulation (S := queueSystem debug) (T := stackSystem Item)
    (R := fun u l => l = u.shared.q.reverse) onStack_simulates rfl h
  rw [← hR]
  exact hl

/-- What a run puts on `_q` and takes from it is what it appends and takes. -/
theorem trace_items {debug : Bool} {s t : State} {as : List Action}
    (h : (queueSystem debug).runFrom s as = some t) :
    t.shared.appended = s.shared.appended ++ (trace debug s as).filterMap StackOp.putItem ∧
      t.shared.taken = s.shared.taken ++ (trace debug s as).filterMap StackOp.takenItem := by
  induction as generalizing s with
  | nil =>
      cases h
      simp [trace, System.seenFrom]
  | cons a as ih =>
      rw [System.runFrom_cons] at h
      obtain ⟨u, hu, hrest⟩ := Option.bind_eq_some_iff.1 h
      obtain ⟨happ, htaken⟩ := ih hrest
      have hq := onStack_step hu
      have htrace : trace debug s (a :: as) = (onStack s a).toList ++ trace debug u as := by
        rw [trace, System.seenFrom, hu]
        rfl
      rw [htrace, List.filterMap_append, List.filterMap_append]
      cases hsee : onStack s a with
      | none =>
          rw [hsee] at hq
          rw [happ, htaken, hq.2.1, hq.2.2]
          exact ⟨rfl, rfl⟩
      | some op =>
          rw [hsee] at hq
          cases op <;> rw [happ, htaken, hq.2.1, hq.2.2] <;>
            simp [StackOp.putItem, StackOp.takenItem]

/-- **The order of service.**  In every run, `_q` behaves as a stack does; and
whatever is appended while an item waits is taken before that item is. -/
theorem lastInFirstOut (debug : Bool) {as : List Action} {s : State}
    (h : (queueSystem debug).run as = some s) :
    (stackSystem Item).run (trace debug ⟨{}, []⟩ as) = some s.shared.q.reverse ∧
      ∀ x y before between after rest,
        trace debug ⟨{}, []⟩ as = before ++ (.put x :: between ++ .put y :: after ++ [.take x]) ++ rest →
        .take y ∈ after := by
  refine ⟨trace_run h, ?_⟩
  intro x y before between after rest hsplit
  have hitems : Items s := items (System.reachable_of_run h)
  obtain ⟨happ, htaken⟩ := trace_items h
  -- each item is put once, and taken once
  have hputs : ((trace debug ⟨{}, []⟩ as).filterMap StackOp.putItem).Nodup := by
    have hnodup := hitems.nodup
    rw [happ] at hnodup
    exact hnodup.of_append_right
  have htakes : ((trace debug ⟨{}, []⟩ as).filterMap StackOp.takenItem).Nodup := by
    have hnodup := ((hitems.perm.nodup_iff).2 hitems.nodup).of_append_left
    rw [htaken] at hnodup
    exact hnodup.of_append_right
  rw [hsplit] at hputs htakes
  simp only [List.filterMap_append, List.filterMap_cons, StackOp.putItem, List.append_assoc,
    List.cons_append] at hputs
  simp only [List.filterMap_append, List.filterMap_cons, StackOp.takenItem, List.filterMap_nil,
    List.append_assoc, List.cons_append] at htakes
  have hx : x ∉ _ := (List.nodup_cons.1 hputs.of_append_right).1
  simp only [List.mem_append, List.mem_cons, not_or] at hx
  have hbetween : x ∉ between.filterMap StackOp.takenItem := fun hmem =>
    List.disjoint_of_nodup_append htakes.of_append_right hmem (by simp)
  have hafter : x ∉ after.filterMap StackOp.takenItem := fun hmem =>
    List.disjoint_of_nodup_append htakes.of_append_right.of_append_right hmem (by simp)
  have hrun := trace_run h
  change (stackSystem Item).runFrom _ (trace debug ⟨{}, []⟩ as) = _ at hrun
  rw [hsplit, System.runFrom_append, System.runFrom_append] at hrun
  obtain ⟨l, hl, -⟩ := Option.bind_eq_some_iff.1 hrun
  obtain ⟨l₀, -, hl₀⟩ := Option.bind_eq_some_iff.1 hl
  exact take_of_take_below hx.2.1 (fun hmem => hbetween (List.mem_filterMap.2 ⟨_, hmem, rfl⟩))
    (fun hmem => hafter (List.mem_filterMap.2 ⟨_, hmem, rfl⟩))
    (fun hmem => hx.2.2.1 (List.mem_filterMap.2 ⟨_, hmem, rfl⟩)) hl₀

/-- Two items wait when the loop starts, and it takes both. -/
def bothTaken : List Action := lifoRun ++ List.replicate 5 (.loop false)

/-- The second is taken while the first waits. -/
theorem lastInFirstOut_bothTaken : ∃ s, (queueSystem false).run bothTaken = some s ∧
    (stackSystem Item).run [.put 0, .put 1, .take 1, .take 0] = some s.shared.q.reverse ∧
      StackOp.take 1 ∈ [StackOp.take 1] := by
  have hrun : ((queueSystem false).run bothTaken).isSome = true := by decide
  have htrace : trace false ⟨{}, []⟩ bothTaken = [.put 0, .put 1, .take 1, .take 0] := by decide
  obtain ⟨s, hs⟩ := Option.isSome_iff_exists.1 hrun
  have hclaim := lastInFirstOut false hs
  rw [htrace] at hclaim
  exact ⟨s, hs, hclaim.1, hclaim.2 0 1 [] [] [.take 1] [] rfl⟩

/-! ## What begins -/

/-- The item whose execution begins with a step. -/
def begins (s : State) : Action → Option Item
  | .loop _ =>
      match s.shared.loop with
      | .callWithGvl item => some item
      | _ => none
  | .call _ | .step _ _ => none

/-- What a step of the queue begins is what it has executed more. -/
theorem begins_executed {debug : Bool} {s t : State} {a : Action} (h : step debug s a = some t) :
    t.shared.executed = s.shared.executed ++ (begins s a).toList := by
  cases a with
  | call m =>
      cases h
      exact (List.append_nil _).symm
  | step i env =>
      obtain ⟨call, rq', call', -, hcs, rfl⟩ := Pool.stepAt_cases h
      rw [(callStep_effect hcs).executed]
      exact (List.append_nil _).symm
  | loop threw =>
      obtain ⟨rq', hloop, rfl⟩ := Option.map_eq_some_iff.1 h
      cases loopStep_effect hloop with
      | begin item hl => rw [begins, hl]; rfl
      | lock hl | releaseLatch hl | setRunning hl | goRound hl | leave hl | acquire hl | goOn hl
      | leaveEarly hl | pop front item hl | finish item hl | unwind item hl | clearRunning hl
      | unlock threw hl =>
          rw [begins, hl]
          exact (List.append_nil _).symm

/-! ## Bursts -/

/-- The loop takes no item. -/
def NoneTaken (s : State) (a : Action) : Prop := (onStack s a).bind StackOp.takenItem = none

/-- No item is appended. -/
def NoneAppended (s : State) (a : Action) : Prop := (onStack s a).bind StackOp.putItem = none

instance (s : State) (a : Action) : Decidable (NoneTaken s a) :=
  inferInstanceAs (Decidable (_ = _))

instance (s : State) (a : Action) : Decidable (NoneAppended s a) :=
  inferInstanceAs (Decidable (_ = _))

/-- While the loop takes nothing, items pile up in the order they are appended. -/
theorem pile_up {debug : Bool} {s t : State} {as : List Action}
    (hnone : (queueSystem debug).Meets NoneTaken s as) (h : (queueSystem debug).runFrom s as = some t) :
    t.shared.taken = s.shared.taken ∧ ∃ burst,
      t.shared.q = s.shared.q ++ burst ∧ t.shared.appended = s.shared.appended ++ burst := by
  refine System.invariant_of_meets (S := queueSystem debug)
    (P := fun u => u.shared.taken = s.shared.taken ∧ ∃ burst,
      u.shared.q = s.shared.q ++ burst ∧ u.shared.appended = s.shared.appended ++ burst)
    ?_ ⟨rfl, [], by simp⟩ hnone h
  rintro u a v ⟨htaken, burst, hq, happ⟩ hok hstep
  have heff := onStack_step hstep
  cases hsee : onStack u a with
  | none =>
      rw [hsee] at heff
      exact ⟨heff.2.2.trans htaken, burst, heff.1.trans hq, heff.2.1.trans happ⟩
  | some op =>
      rw [hsee] at heff
      cases op with
      | put i =>
          refine ⟨heff.2.2.trans htaken, burst ++ [i], ?_, ?_⟩
          · rw [heff.1, hq, List.append_assoc]
          · rw [heff.2.1, happ, List.append_assoc]
      | take i => simp [NoneTaken, hsee, StackOp.takenItem] at hok

/-- While nothing is appended, what the loop takes is what waits, from the back. -/
theorem take_from_back {debug : Bool} {s t : State} {as : List Action}
    (hnone : (queueSystem debug).Meets NoneAppended s as)
    (h : (queueSystem debug).runFrom s as = some t) :
    t.shared.appended = s.shared.appended ∧
      t.shared.taken ++ t.shared.q.reverse = s.shared.taken ++ s.shared.q.reverse := by
  refine System.invariant_of_meets (S := queueSystem debug)
    (P := fun u => u.shared.appended = s.shared.appended ∧
      u.shared.taken ++ u.shared.q.reverse = s.shared.taken ++ s.shared.q.reverse)
    ?_ ⟨rfl, rfl⟩ hnone h
  rintro u a v ⟨happ, htaken⟩ hok hstep
  have heff := onStack_step hstep
  cases hsee : onStack u a with
  | none =>
      rw [hsee] at heff
      refine ⟨heff.2.1.trans happ, ?_⟩
      rw [heff.1, heff.2.2]
      exact htaken
  | some op =>
      rw [hsee] at heff
      cases op with
      | put i => simp [NoneAppended, hsee, StackOp.putItem] at hok
      | take i =>
          refine ⟨heff.2.1.trans happ, ?_⟩
          rw [heff.2.2, List.append_assoc, ← htaken, heff.1, List.reverse_append]
          rfl

/-- **A burst is served backwards.**  Items that are appended while the loop
takes none, and are all taken before another is appended, are taken in the
opposite order. -/
theorem burst_reversed {debug : Bool} {s m t : State} {as bs : List Action} (hq : s.shared.q = [])
    (has : (queueSystem debug).Meets NoneTaken s as) (hm : (queueSystem debug).runFrom s as = some m)
    (hbs : (queueSystem debug).Meets NoneAppended m bs)
    (ht : (queueSystem debug).runFrom m bs = some t) (hempty : t.shared.q = []) :
    ∃ burst, t.shared.appended = s.shared.appended ++ burst ∧
      t.shared.taken = s.shared.taken ++ burst.reverse := by
  obtain ⟨htaken, burst, hpile, happ⟩ := pile_up has hm
  obtain ⟨happ', htaken'⟩ := take_from_back hbs ht
  refine ⟨burst, happ'.trans happ, ?_⟩
  rw [hempty, hpile, hq, htaken] at htaken'
  simpa using htaken'

end RuBLE.CallbackQueue
