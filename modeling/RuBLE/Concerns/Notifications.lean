import Mathlib
import RuBLE.Concerns.CharacteristicValueTracker
import RuBLE.Management.QueuePermits
import RuBLE.Management.QueueStack

/-!
# From the backend to `on_notify`

A notification passes through the callback queue before it reaches the
characteristic.  This puts the two models together: the queue with all its
threads, and one characteristic whose `fire_on_notify` is what some of its items
run, while Ruby threads read the characteristic and turn its tracking on and off.

* `notifySystem` — the queue and the characteristic.
* `delivered_once` — **each notification is handled exactly once**: nothing but
  the items that have begun reaches the characteristic, and a queue at rest has
  begun all that were appended.
* `burst_leaves_oldest` — **what a burst leaves behind**: notifications that pile
  up are handled newest first, so what is remembered afterwards is the oldest.
-/

namespace RuBLE.Notifications

open Transition

/-! ## The queue and the characteristic -/

/-- The queue, the characteristic, and what its callback of `on_notify` has been
passed. -/
structure Notified where
  queue : CallbackQueue.State := ⟨{}, []⟩
  characteristic : Characteristic
  fired : List (List UInt8) := []

/-- Something happens to the characteristic. -/
def Notified.happens (s : Notified) (e : ValueEvent) : Notified where
  queue := s.queue
  characteristic := s.characteristic.handle e
  fired := s.fired ++ (s.characteristic.firedBy e).toList

/-- The queue moves, or a Ruby thread uses the characteristic. -/
inductive Move where
  | queue (a : CallbackQueue.Action)
  | read (force : Bool) (reply : Option (List UInt8))
  | setValueTracking (newValue : Bool)
  deriving DecidableEq, Repr

section System

variable (debug : Bool) (payload : CallbackQueue.Item → Option (List UInt8))

/-- One step.  `payload` says which items are `fire_on_notify` of the
characteristic, and with what; the item runs under the GVL, so nothing that
happens to the characteristic comes in between. -/
def step (s : Notified) : Move → Option Notified
  | .queue a => (CallbackQueue.step debug s.queue a).map fun q =>
      match (CallbackQueue.begins s.queue a).bind payload with
      | some data => { s with queue := q }.happens (.notify data)
      | none => { s with queue := q }
  | .read force reply => some (s.happens (.read force reply))
  | .setValueTracking newValue => some (s.happens (.setValueTracking newValue))

/-- The queue as it was just constructed, and a characteristic. -/
def notifySystem (c : Characteristic) : System Notified Move :=
  ⟨{ characteristic := c }, step debug payload⟩

end System

variable {debug : Bool} {payload : CallbackQueue.Item → Option (List UInt8)} {c : Characteristic}

/-! ## Handled exactly once -/

/-- What the queue does does not depend on the characteristic. -/
def Move.queue? : Move → Option CallbackQueue.Action
  | .queue a => some a
  | .read _ _ | .setValueTracking _ => none

theorem step_queue {s t : Notified} {a : CallbackQueue.Action}
    (h : step debug payload s (.queue a) = some t) :
    CallbackQueue.step debug s.queue a = some t.queue := by
  obtain ⟨q, hq, rfl⟩ := Option.map_eq_some_iff.1 h
  rw [hq]
  split <;> rfl

/-- The queue follows each step. -/
theorem queue_simulates (s : Notified) (m : Move) (t : Notified) (q : CallbackQueue.State)
    (hq : q = s.queue) (hstep : step debug payload s m = some t) :
    ∃ q', (CallbackQueue.queueSystem debug).runFrom q m.queue?.toList = some q' ∧ q' = t.queue := by
  subst hq
  cases m with
  | queue a =>
      refine ⟨t.queue, ?_, rfl⟩
      show ((CallbackQueue.step debug s.queue a).bind fun q => some q) = _
      rw [step_queue hstep]
      rfl
  | read force reply | setValueTracking newValue =>
      cases hstep
      exact ⟨s.queue, rfl, rfl⟩

/-- The moves of the queue alone. -/
def queueMoves (debug : Bool) (payload : CallbackQueue.Item → Option (List UInt8)) (c : Characteristic)
    (s : Notified) (ms : List Move) : List CallbackQueue.Action :=
  (notifySystem debug payload c).seenFrom (fun _ m => m.queue?) s ms

/-- Every run of both is one of the queue. -/
theorem queue_run {s t : Notified} {ms : List Move}
    (h : (notifySystem debug payload c).runFrom s ms = some t) :
    (CallbackQueue.queueSystem debug).runFrom s.queue (queueMoves debug payload c s ms) =
      some t.queue := by
  obtain ⟨q, hq, hR⟩ := System.simulation (S := notifySystem debug payload c)
    (T := CallbackQueue.queueSystem debug) (R := fun s q => q = s.queue) queue_simulates rfl h
  rw [← hR]
  exact hq

theorem queue_reachable {s : Notified} (h : (notifySystem debug payload c).Reachable s) :
    (CallbackQueue.queueSystem debug).Reachable s.queue := by
  obtain ⟨ms, h⟩ := h
  exact ⟨_, queue_run h⟩

/-- What has happened to the characteristic, if the notifications among it are
what these items brought. -/
structure Handled (payload : CallbackQueue.Item → Option (List UInt8)) (c : Characteristic)
    (items : List CallbackQueue.Item) (s : Notified) (history : List ValueEvent) : Prop where
  characteristic : s.characteristic = c.after history
  fired : s.fired = c.fired history
  notifications : history.filterMap (·.notification) = items.filterMap payload

theorem Handled.happens {items : List CallbackQueue.Item} {s : Notified} {history : List ValueEvent}
    (h : Handled payload c items s history) (q : CallbackQueue.State) (e : ValueEvent)
    (more : List CallbackQueue.Item) (he : e.notification.toList = more.filterMap payload) :
    Handled payload c (items ++ more) ({ s with queue := q }.happens e) (history ++ [e]) where
  characteristic := by
    rw [Characteristic.after_concat, ← h.characteristic]
    rfl
  fired := by
    rw [Characteristic.fired, Characteristic.collect_concat, ← Characteristic.fired, ← h.fired,
      ← h.characteristic]
    rfl
  notifications := by
    rw [List.filterMap_append, List.filterMap_append, h.notifications, ← he]
    cases hnotification : e.notification <;> simp [hnotification]

/-- **What has happened to the characteristic.**  The notifications it has
handled are those of the items that have begun, in that order. -/
theorem exists_handled {s : Notified} (h : (notifySystem debug payload c).Reachable s) :
    ∃ history, Handled payload c s.queue.shared.executed s history := by
  refine System.invariant (S := notifySystem debug payload c)
    (P := fun s => ∃ history, Handled payload c s.queue.shared.executed s history)
    ⟨[], rfl, rfl, rfl⟩ ?_ h
  rintro s m t ⟨history, hhistory⟩ hstep
  cases m with
  | read force reply =>
      cases hstep
      have hnext := hhistory.happens s.queue (.read force reply) [] rfl
      rw [List.append_nil] at hnext
      exact ⟨_, hnext⟩
  | setValueTracking newValue =>
      cases hstep
      have hnext := hhistory.happens s.queue (.setValueTracking newValue) [] rfl
      rw [List.append_nil] at hnext
      exact ⟨_, hnext⟩
  | queue a =>
      obtain ⟨q, hq, rfl⟩ := Option.map_eq_some_iff.1 hstep
      have hexecuted := CallbackQueue.begins_executed hq
      cases hbegins : (CallbackQueue.begins s.queue a).bind payload with
      | some data =>
          obtain ⟨item, hitem, hdata⟩ := Option.bind_eq_some_iff.1 hbegins
          refine ⟨history ++ [.notify data], ?_⟩
          show Handled payload c q.shared.executed _ _
          rw [hexecuted, hitem]
          exact hhistory.happens q _ [item] (by simp [ValueEvent.notification, hdata])
      | none =>
          refine ⟨history, hhistory.characteristic, hhistory.fired, ?_⟩
          show _ = q.shared.executed.filterMap payload
          rw [hexecuted, List.filterMap_append, ← hhistory.notifications]
          cases hitem : CallbackQueue.begins s.queue a with
          | none => simp
          | some item =>
              rw [hitem, Option.bind_some] at hbegins
              simp [hbegins]

/-- **Each notification is handled exactly once.**  In every reachable state the
characteristic has handled the notifications of the items that have begun, in
that order, and nothing else has reached it but reads and switches of its
tracking.  When the loop waits and no push is between its append and its
release, these are all that were appended, each once. -/
theorem delivered_once (debug : Bool) (payload : CallbackQueue.Item → Option (List UInt8))
    (c : Characteristic) (s : Notified) (h : (notifySystem debug payload c).Reachable s) :
    ∃ history, Handled payload c s.queue.shared.executed s history ∧
      (s.queue.shared.loop = .acquire → s.queue.shared.sem = 0 →
        (∀ call ∈ s.queue.threads, call.inside ≠ .push .release) →
          (history.filterMap (·.notification)).Perm (s.queue.shared.appended.filterMap payload)) := by
  obtain ⟨history, hhistory⟩ := exists_handled h
  refine ⟨history, hhistory, fun hl hsem hsettled => ?_⟩
  have hqueue := queue_reachable h
  have hempty := CallbackQueue.empty_of_settled hqueue hl hsem hsettled
  have hitems := CallbackQueue.items hqueue
  have hperm := hitems.perm
  rw [hempty, List.append_nil, hitems.taken_eq, hl,
    show CallbackQueue.LoopPc.acquire.inHand = [] from rfl, List.append_nil] at hperm
  rw [hhistory.notifications]
  exact hperm.filterMap payload

/-! ## Bursts -/

/-- What the queue alone does to the characteristic: it handles the
notifications of the items that begin. -/
theorem queue_handles {s t : Notified} {as : List CallbackQueue.Action}
    (h : (notifySystem debug payload c).runFrom s (as.map .queue) = some t) :
    (CallbackQueue.queueSystem debug).runFrom s.queue as = some t.queue ∧
      ∃ more, t.queue.shared.executed = s.queue.shared.executed ++ more ∧
        t.characteristic = s.characteristic.after ((more.filterMap payload).map .notify) ∧
        t.fired = s.fired ++ s.characteristic.fired ((more.filterMap payload).map .notify) := by
  induction as generalizing s with
  | nil =>
      cases h
      exact ⟨rfl, [], by simp, rfl, by simp [Characteristic.fired, Characteristic.collect]⟩
  | cons a as ih =>
      rw [List.map_cons, System.runFrom_cons] at h
      obtain ⟨u, hu, hrest⟩ := Option.bind_eq_some_iff.1 h
      obtain ⟨hrun, more, hexecuted, hcharacteristic, hfired⟩ := ih hrest
      have hqueue := step_queue hu
      rw [System.runFrom_cons]
      refine ⟨Option.bind_eq_some_iff.2 ⟨u.queue, hqueue, hrun⟩,
        (CallbackQueue.begins s.queue a).toList ++ more, ?_, ?_⟩
      · rw [hexecuted, CallbackQueue.begins_executed hqueue, List.append_assoc]
      obtain ⟨q, hq, rfl⟩ := Option.map_eq_some_iff.1 hu
      rw [hcharacteristic, hfired]
      cases hitem : CallbackQueue.begins s.queue a with
      | none => exact ⟨rfl, rfl⟩
      | some item =>
          cases hdata : payload item with
          | none => simp [hdata]
          | some data =>
              simp only [hdata, Option.bind_some, Option.toList_some, List.singleton_append,
                List.filterMap_cons_some hdata, List.map_cons]
              exact ⟨rfl, by rw [Notified.happens, List.append_assoc]; rfl⟩

/-- After some notifications a characteristic that tracks its value remembers
the last. -/
theorem current_after {proc : ObjectId} (h : c.Listens proc) (payloads : List (List UInt8)) :
    (c.after (payloads.map .notify)).current = payloads.getLast?.getD c.current := by
  induction payloads using List.reverseRecOn with
  | nil => rfl
  | append_singleton payloads data ih =>
      have hlistens : (c.after (payloads.map .notify)).Listens proc := by
        clear ih
        induction payloads using List.reverseRecOn with
        | nil => exact h
        | append_singleton payloads data ih =>
            rw [List.map_append, List.map_singleton, Characteristic.after_concat, ih.handle_notify]
            exact ih.record data
      rw [List.map_append, List.map_singleton, Characteristic.after_concat,
        hlistens.handle_notify, List.getLast?_concat]
      rfl

/-- **What a burst leaves behind.**  Notifications that are appended while the
loop takes none, and are all handled before another is appended, are handled
newest first: the callback of `on_notify` is passed their changes in that order,
and what the characteristic remembers afterwards is the oldest of them. -/
theorem burst_leaves_oldest (debug : Bool) (payload : CallbackQueue.Item → Option (List UInt8))
    (c : Characteristic) {s m t : Notified} {as bs : List CallbackQueue.Action} {proc : ObjectId}
    (hs : (notifySystem debug payload c).Reachable s) (hlistens : s.characteristic.Listens proc)
    (hempty : s.queue.shared.q = [] ∧ s.queue.shared.loop.inHand = [])
    (has : (CallbackQueue.queueSystem debug).Meets CallbackQueue.NoneTaken s.queue as)
    (hm : (notifySystem debug payload c).runFrom s (as.map .queue) = some m)
    (hbs : (CallbackQueue.queueSystem debug).Meets CallbackQueue.NoneAppended m.queue bs)
    (ht : (notifySystem debug payload c).runFrom m (bs.map .queue) = some t)
    (hdrained : t.queue.shared.q = [] ∧ t.queue.shared.loop.inHand = []) :
    ∃ burst, t.queue.shared.appended = s.queue.shared.appended ++ burst ∧
      t.fired = s.fired ++ changes s.characteristic.current (burst.filterMap payload).reverse ∧
      t.characteristic.current = (burst.filterMap payload).head?.getD s.characteristic.current := by
  have hrun : (notifySystem debug payload c).runFrom s ((as ++ bs).map .queue) = some t := by
    rw [List.map_append, System.runFrom_append, hm]
    exact ht
  obtain ⟨hqueue, more, hexecuted, hcharacteristic, hfired⟩ := queue_handles hrun
  obtain ⟨burst, happended, htaken⟩ := CallbackQueue.burst_reversed hempty.1 has
    (queue_handles hm).1 hbs (queue_handles ht).1 hdrained.1
  -- what was taken in the burst is what began in it
  have hmore : more = burst.reverse := by
    have hsq := queue_reachable hs
    have htq := hsq.trans ⟨_, hqueue⟩
    rw [(CallbackQueue.items hsq).taken_eq, (CallbackQueue.items htq).taken_eq, hempty.2,
      hdrained.2, List.append_nil, List.append_nil, hexecuted] at htaken
    exact List.append_cancel_left htaken
  have hpayloads : more.filterMap payload = (burst.filterMap payload).reverse := by
    rw [hmore, List.filterMap_reverse]
  refine ⟨burst, happended, ?_, ?_⟩
  · rw [hfired, hpayloads, hlistens.fired_eq]
    · congr 2
      rw [List.filterMap_map]
      exact List.filterMap_some
    · intro e he
      obtain ⟨data, -, rfl⟩ := List.mem_map.1 he
      exact .inl rfl
    · intro pre force data post heq
      have hmem : ValueEvent.read force (some data) ∈
          (burst.filterMap payload).reverse.map ValueEvent.notify := by simp [heq]
      simp at hmem
  · rw [hcharacteristic, hpayloads, current_after hlistens, List.getLast?_reverse]

/-- Two notifications are appended before the loop is started. -/
def twoPushed : List CallbackQueue.Action :=
  [.call .push, .step 0 {}, .step 0 {}, .step 0 {}, .call .push, .step 1 {}, .step 1 {}, .step 1 {}]

/-- The loop is started, and goes round until it waits again. -/
def drain : List CallbackQueue.Action :=
  [.call .start, .step 2 {}, .step 2 {}, .step 2 {}] ++ List.replicate 16 (.loop false)

/-- The first brings `[7]` and the second `[8]`; no other item is a notification. -/
def twoPayloads : CallbackQueue.Item → Option (List UInt8)
  | 0 => some [7]
  | 1 => some [8]
  | _ => none

/-- The state after some moves of the queue alone. -/
def atEnd (as : List CallbackQueue.Action) : Option Notified :=
  (notifySystem false twoPayloads .sample).run (as.map .queue)

theorem atEnd_drain_rests : ((atEnd (twoPushed ++ drain)).map fun t => (t.queue.shared.loop,
    t.queue.shared.sem, t.queue.shared.appended, t.queue.threads)) =
      some (CallbackQueue.LoopPc.acquire, 0, [0, 1],
        [CallbackQueue.Call.push .done, .push .done, .start .done]) := by decide

/-- Both notifications have been handled when the loop waits again. -/
theorem delivered_once_twoPushed : ∃ s history, atEnd (twoPushed ++ drain) = some s ∧
    Handled twoPayloads .sample s.queue.shared.executed s history ∧
    (history.filterMap (·.notification)).Perm [[7], [8]] := by
  obtain ⟨s, hrun, hat⟩ := Option.map_eq_some_iff.1 atEnd_drain_rests
  simp only [Prod.mk.injEq] at hat
  obtain ⟨hl, hsem, happended, hthreads⟩ := hat
  obtain ⟨history, hhandled, hrest⟩ :=
    delivered_once false twoPayloads .sample s (System.reachable_of_run hrun)
  have hperm := hrest hl hsem (by rw [hthreads]; decide)
  rw [happended] at hperm
  exact ⟨s, history, hrun, hhandled, hperm⟩

theorem atEnd_drain : ((atEnd (twoPushed ++ drain)).map fun t => (t.queue.shared.q,
    t.queue.shared.loop.inHand, t.fired, t.characteristic.current)) =
      some ([], [], [[8], [7]], [7]) := by decide

/-- The second notification is passed on first, and the first is remembered. -/
theorem burst_leaves_oldest_twoPushed : ∃ m t burst, atEnd twoPushed = some m ∧
    (notifySystem false twoPayloads .sample).runFrom m (drain.map .queue) = some t ∧
    t.queue.shared.appended = burst ∧ t.fired = [[8], [7]] ∧
    t.fired = changes [] (burst.filterMap twoPayloads).reverse ∧
    t.characteristic.current = (burst.filterMap twoPayloads).head?.getD [] := by
  obtain ⟨t, hrun, hat⟩ := Option.map_eq_some_iff.1 atEnd_drain
  simp only [Prod.mk.injEq] at hat
  obtain ⟨hq, hhand, hfired, -⟩ := hat
  rw [atEnd, List.map_append, System.run, System.runFrom_append] at hrun
  obtain ⟨m, hm, ht⟩ := Option.bind_eq_some_iff.1 hrun
  have hmq : (CallbackQueue.queueSystem false).run twoPushed = some m.queue := (queue_handles hm).1
  have hpushed : (CallbackQueue.queueSystem false).run twoPushed =
      some ⟨{ q := [0, 1], sem := 2, appended := [0, 1] }, [.push .done, .push .done]⟩ := rfl
  have hbs : (CallbackQueue.queueSystem false).Meets CallbackQueue.NoneAppended m.queue drain := by
    rw [← Option.some.inj (hpushed.symm.trans hmq)]
    decide
  have hlistens : Characteristic.sample.Listens 1 := ⟨by decide, _, rfl, rfl⟩
  obtain ⟨burst, happended, hclaim⟩ := burst_leaves_oldest false twoPayloads .sample
    (System.reachable_init _) hlistens ⟨rfl, rfl⟩ (by decide) hm hbs ht ⟨hq, hhand⟩
  exact ⟨m, t, burst, hm, ht, happended, hfired, hclaim⟩

end RuBLE.Notifications
