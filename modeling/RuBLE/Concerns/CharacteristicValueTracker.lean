import Mathlib
import RuBLE.Bindings.Rules

/-!
# The value a characteristic remembers

With value tracking on, a characteristic remembers the value it was last told,
answers `read(false)` with it, and calls `on_notify` only when a notification
brings another one.

* `Characteristic.setValueTracking`, `fireOnNotify`, `fireOnIndicate`, `answer`
  — what can happen to one characteristic; `Characteristic.fireOnNotify_run`,
  `Characteristic.fireOnIndicate_run` and `Characteristic.read_run` say that it
  is what the programs over the `World` do.
* `Characteristic.value_tracked` — **the invariant**: a value is remembered only
  while tracking is on, and it is the last that reached `record_new_value`.
* `Characteristic.tracker_invariant` — **the invariant of the tracker**: what
  follows from its capability, and from its switch, at every moment; a refused
  call of `set_value_tracking` changes nothing.
* `Characteristic.fresh_iff` — **when the remembered value is fresh**: an
  indication does not reach `record_new_value`.
* `Characteristic.onNotify_changes` — **which notifications `on_notify` is
  called for**: those that differ from what was last remembered, be it from a
  notification or from a read.
-/

namespace RuBLE

open Transition

/-! ## The functions -/

/-- `set_value_tracking`. -/
def CharacteristicValueTracker.setValueTracking (t : CharacteristicValueTracker) (canNotify : Bool)
    (newValue : Bool) : Except String CharacteristicValueTracker :=
  if newValue && !canNotify then .error "Characteristic does not have 'notify' capability."
  else .ok { trackValues := some newValue, value := if newValue then t.value else none }

/-- `Callback::fire`: the proc that is called, with what it is passed. -/
def Callback.fire {α : Type} (cb : Callback) (args : α) : Option (ObjectId × α) :=
  cb.cb.map fun proc => (proc, args)

namespace Characteristic

/-- `set_value_tracking`, of the tracker of a characteristic. -/
def setValueTracking (c : Characteristic) (newValue : Bool) : Except String Characteristic := do
  let tracker ← c.tracker.setValueTracking c.canNotify newValue
  return { c with tracker }

/-- `fire_on_notify`: the call of the proc that is made, if any, and the
characteristic afterwards. -/
def fireOnNotify (c : Characteristic) (data : List UInt8) :
    Option (ObjectId × List UInt8 × ObjectId) × Characteristic :=
  let (changed, tracker) := c.tracker.recordNewValue c.canNotify data
  (if changed then c.onNotify.bind (·.fire (data, c.self)) else none, { c with tracker })

/-- `fire_on_indicate`, likewise. -/
def fireOnIndicate (c : Characteristic) (data : List UInt8) :
    Option (ObjectId × List UInt8 × ObjectId) × Characteristic :=
  (c.onIndicate.bind (·.fire (data, c.self)), c)

/-- `read(force)`: the value it returns, unless it throws, and the
characteristic afterwards.  `reply` is what `service()->read` returns, unless
that throws. -/
def answer (c : Characteristic) (force : Bool) (reply : Option (List UInt8)) :
    Option (List UInt8) × Characteristic :=
  match c.cached force with
  | some value => (some value.data, c)
  | none =>
      match reply with
      | some value =>
          (some value, { c with tracker := (c.tracker.recordNewValue c.canNotify value).2 })
      | none => (none, c)

end Characteristic

/-! ## Histories -/

/-- What can happen to the value of a characteristic. -/
inductive ValueEvent where
  /-- The queue runs `fire_on_notify`. -/
  | notify (data : List UInt8)
  /-- The queue runs `fire_on_indicate`. -/
  | indicate (data : List UInt8)
  /-- `read(force)` is called, and this is what the backend would answer. -/
  | read (force : Bool) (reply : Option (List UInt8))
  /-- `set_value_tracking` is called. -/
  | setValueTracking (newValue : Bool)
  deriving DecidableEq, Repr

/-- The payload, if it is a notification. -/
def ValueEvent.notification : ValueEvent → Option (List UInt8)
  | .notify data => some data
  | _ => none

/-- It is a call of `read(force)`. -/
def ValueEvent.isRead : ValueEvent → Bool
  | .read _ _ => true
  | _ => false

namespace Characteristic

/-- The characteristic afterwards; a call of `set_value_tracking` that throws
leaves it as it was. -/
def handle (c : Characteristic) : ValueEvent → Characteristic
  | .notify data => (c.fireOnNotify data).2
  | .indicate data => (c.fireOnIndicate data).2
  | .read force reply => (c.answer force reply).2
  | .setValueTracking newValue =>
      match c.setValueTracking newValue with
      | .ok c' => c'
      | .error _ => c

/-- The characteristic after a history. -/
def after (c : Characteristic) (h : List ValueEvent) : Characteristic := h.foldl handle c

/-- What an event brings from the device: the payload of a notification or an
indication, or what the backend answers to a read that asks it. -/
def deliveredBy (c : Characteristic) : ValueEvent → Option (List UInt8)
  | .notify data | .indicate data => some data
  | .read force reply => if (c.cached force).isNone then reply else none
  | .setValueTracking _ => none

/-- What an event passes to `record_new_value`. -/
def trackedBy (c : Characteristic) : ValueEvent → Option (List UInt8)
  | .indicate _ => none
  | e => c.deliveredBy e

/-- The payload an event passes to the callback of `on_notify`. -/
def firedBy (c : Characteristic) : ValueEvent → Option (List UInt8)
  | .notify data => (c.fireOnNotify data).1.map (·.2.1)
  | _ => none

/-- What the events of a history give, from first to last. -/
def collect {β : Type} (f : Characteristic → ValueEvent → Option β) (c : Characteristic) :
    List ValueEvent → List β
  | [] => []
  | e :: h => (f c e).toList ++ collect f (c.handle e) h

/-- The payloads of the notifications, indications and reads of a history. -/
def delivered (c : Characteristic) (h : List ValueEvent) : List (List UInt8) :=
  c.collect deliveredBy h

/-- The payloads of a history that were passed to `record_new_value`. -/
def tracked (c : Characteristic) (h : List ValueEvent) : List (List UInt8) :=
  c.collect trackedBy h

/-- The payloads of a history that were passed to the callback of `on_notify`. -/
def fired (c : Characteristic) (h : List ValueEvent) : List (List UInt8) :=
  c.collect firedBy h

section Histories

variable (c : Characteristic)

theorem after_append (h h' : List ValueEvent) : c.after (h ++ h') = (c.after h).after h' :=
  List.foldl_append

theorem after_concat (h : List ValueEvent) (e : ValueEvent) :
    c.after (h ++ [e]) = (c.after h).handle e :=
  c.after_append h [e]

theorem collect_append {β : Type} (f : Characteristic → ValueEvent → Option β)
    (h h' : List ValueEvent) : c.collect f (h ++ h') = c.collect f h ++ (c.after h).collect f h' := by
  induction h generalizing c with
  | nil => rfl
  | cons e h ih =>
      rw [List.cons_append, collect, collect, ih, List.append_assoc]
      rfl

theorem collect_concat {β : Type} (f : Characteristic → ValueEvent → Option β)
    (h : List ValueEvent) (e : ValueEvent) :
    c.collect f (h ++ [e]) = c.collect f h ++ (f (c.after h) e).toList := by
  rw [collect_append, collect, collect, List.append_nil]

end Histories

end Characteristic

/-! ## What is remembered -/

namespace CharacteristicValueTracker

variable {t : CharacteristicValueTracker} {canNotify : Bool}

theorem recordNewValue_of_tracking (h : t.valueTracking canNotify = true) (data : List UInt8) :
    t.recordNewValue canNotify data =
      (decide (data ≠ (t.value.map (·.data)).getD []), { t with value := some { data } }) := by
  rw [recordNewValue, if_pos h]
  cases t.value with
  | none => simp [List.length_pos_iff]
  | some old => simp [eq_comm]

theorem recordNewValue_of_not_tracking (h : t.valueTracking canNotify = false)
    (data : List UInt8) : t.recordNewValue canNotify data = (true, t) := by
  rw [recordNewValue, if_neg (by simp [h])]

theorem valueTracking_recordNewValue (data : List UInt8) :
    (t.recordNewValue canNotify data).2.valueTracking canNotify = t.valueTracking canNotify := by
  cases h : t.valueTracking canNotify with
  | true => rw [recordNewValue_of_tracking h]; exact h
  | false => rw [recordNewValue_of_not_tracking h]; exact h

/-- A value is remembered only while tracking is on, and it is the last of
these. -/
def Remembers (t : CharacteristicValueTracker) (canNotify : Bool) (tracked : List (List UInt8)) :
    Prop :=
  ∀ value, t.value = some value →
    t.valueTracking canNotify = true ∧ tracked.getLast? = some value.data

theorem Remembers.record {tracked : List (List UInt8)} (h : t.Remembers canNotify tracked)
    (data : List UInt8) :
    (t.recordNewValue canNotify data).2.Remembers canNotify (tracked ++ [data]) := by
  intro value hvalue
  rw [valueTracking_recordNewValue]
  cases htrack : t.valueTracking canNotify with
  | true =>
      rw [recordNewValue_of_tracking htrack] at hvalue
      cases hvalue
      exact ⟨rfl, List.getLast?_concat⟩
  | false =>
      rw [recordNewValue_of_not_tracking htrack] at hvalue
      rw [(h value hvalue).1] at htrack
      cases htrack

theorem Remembers.setValueTracking {tracked : List (List UInt8)} {newValue : Bool}
    {t' : CharacteristicValueTracker} (h : t.Remembers canNotify tracked)
    (ht : t.setValueTracking canNotify newValue = .ok t') : t'.Remembers canNotify tracked := by
  rw [CharacteristicValueTracker.setValueTracking] at ht
  split at ht
  · cases ht
  · cases ht
    intro value hvalue
    cases newValue with
    | true => exact ⟨rfl, (h value hvalue).2⟩
    | false => cases hvalue

/-- `set_value_tracking`, statement by statement. -/
def setTracking (canNotify newValue : Bool) :
    Program CharacteristicValueTracker String Unit := do
  Program.when (newValue && !canNotify)
    (Program.throw "Characteristic does not have 'notify' capability.")
  Program.when (!newValue) (Program.modify fun t => { t with value := none })
  Program.modify fun t => { t with trackValues := some newValue }

theorem setTracking_run (t : CharacteristicValueTracker)
    (canNotify newValue : Bool) :
    (setTracking canNotify newValue).run t = match t.setValueTracking canNotify newValue with
      | .ok t' => (.ok (), t')
      | .error e => (.error e, t) := by
  cases canNotify <;> cases newValue <;> rfl

/-- Tracking is on only where there is something to track. -/
def Capable (t : CharacteristicValueTracker) (canNotify : Bool) : Prop :=
  t.valueTracking canNotify = true → canNotify = true

theorem Capable.setValueTracking {t t' : CharacteristicValueTracker}
    {canNotify newValue : Bool} (ht : t.setValueTracking canNotify newValue = .ok t') :
    t'.Capable canNotify := by
  unfold CharacteristicValueTracker.setValueTracking at ht
  by_cases hrefused : newValue && !canNotify
  · simp [hrefused] at ht
  · rw [if_neg hrefused] at ht
    cases ht
    cases newValue <;> simp_all [Capable, valueTracking]

end CharacteristicValueTracker

namespace Characteristic

section Remembers

variable {c : Characteristic} {force : Bool} {reply : Option (List UInt8)}

theorem answer_of_cached {value : ByteArray} (h : c.cached force = some value) :
    c.answer force reply = (some value.data, c) := by
  rw [answer.eq_def, h]

theorem answer_of_reply {data : List UInt8} (h : c.cached force = none) :
    c.answer force (some data) =
      (some data, { c with tracker := (c.tracker.recordNewValue c.canNotify data).2 }) := by
  rw [answer.eq_def, h]

theorem answer_of_no_reply (h : c.cached force = none) : c.answer force none = (none, c) := by
  rw [answer.eq_def, h]

theorem trackedBy_read :
    c.trackedBy (.read force reply) = if (c.cached force).isNone then reply else none := rfl

/-- An event changes nothing but the tracker. -/
theorem handle_eq (c : Characteristic) (e : ValueEvent) : ∃ t, c.handle e = { c with tracker := t } := by
  cases e with
  | notify data => exact ⟨_, rfl⟩
  | indicate data => exact ⟨c.tracker, rfl⟩
  | read force reply =>
      cases hcached : c.cached force with
      | some value => exact ⟨c.tracker, by rw [handle, answer_of_cached hcached]⟩
      | none =>
          cases reply with
          | some data => exact ⟨_, by rw [handle, answer_of_reply hcached]⟩
          | none => exact ⟨c.tracker, by rw [handle, answer_of_no_reply hcached]⟩
  | setValueTracking newValue =>
      rw [handle, setValueTracking]
      cases c.tracker.setValueTracking c.canNotify newValue with
      | ok t => exact ⟨t, rfl⟩
      | error e => exact ⟨c.tracker, rfl⟩

theorem after_eq (c : Characteristic) (h : List ValueEvent) :
    ∃ t, c.after h = { c with tracker := t } := by
  induction h using List.reverseRecOn with
  | nil => exact ⟨c.tracker, rfl⟩
  | append_singleton h e ih =>
      obtain ⟨t, ht⟩ := ih
      obtain ⟨t', ht'⟩ := handle_eq (c.after h) e
      exact ⟨t', by rw [after_concat, ht', ht]⟩

theorem canNotify_after (c : Characteristic) (h : List ValueEvent) :
    (c.after h).canNotify = c.canNotify := by
  obtain ⟨t, ht⟩ := c.after_eq h
  rw [ht]
  rfl

/-- What one event does to the remembered value. -/
theorem remembers_handle {tracked : List (List UInt8)} (e : ValueEvent)
    (h : c.tracker.Remembers c.canNotify tracked) :
    (c.handle e).tracker.Remembers c.canNotify (tracked ++ (c.trackedBy e).toList) := by
  cases e with
  | notify data => exact h.record data
  | indicate data =>
      rw [trackedBy, Option.toList_none, List.append_nil]
      exact h
  | read force reply =>
      rw [trackedBy_read]
      cases hcached : c.cached force with
      | some value =>
          rw [handle, answer_of_cached hcached]
          simpa using h
      | none =>
          cases reply with
          | some data =>
              rw [handle, answer_of_reply hcached]
              exact h.record data
          | none =>
              rw [handle, answer_of_no_reply hcached]
              simpa using h
  | setValueTracking newValue =>
      rw [show c.trackedBy (.setValueTracking newValue) = none from rfl, Option.toList_none,
        List.append_nil, handle, setValueTracking]
      cases ht : c.tracker.setValueTracking c.canNotify newValue with
      | ok t => exact h.setValueTracking ht
      | error e => exact h

/-- **What is remembered.**  After any history, a value is remembered only while
tracking is on, and it is the last that reached `record_new_value`. -/
theorem value_tracked (hnew : c.tracker = {}) (h : List ValueEvent) :
    (c.after h).tracker.Remembers c.canNotify (c.tracked h) := by
  induction h using List.reverseRecOn with
  | nil =>
      intro value hvalue
      rw [show (c.after []).tracker = {} from hnew] at hvalue
      cases hvalue
  | append_singleton h e ih =>
      rw [after_concat, tracked, collect_concat]
      rw [← canNotify_after c h] at ih ⊢
      exact remembers_handle e ih

end Remembers

/-! ## The invariant of the tracker -/

section Invariant

variable {c : Characteristic}

/-- Tracking is on after every part of a history. -/
def StaysOn (c : Characteristic) (h : List ValueEvent) : Prop :=
  ∀ start, start <+: h → (c.after start).tracker.valueTracking c.canNotify = true

/-- What holds of the tracker after a history. -/
structure TrackerInvariant (c : Characteristic) (h : List ValueEvent) : Prop where
  /-- Tracking is on only if the characteristic can notify. -/
  capable : (c.after h).tracker.valueTracking c.canNotify = true → c.canNotify = true
  /-- Without tracking there is no last value. -/
  off : (c.after h).tracker.valueTracking c.canNotify = false → (c.after h).tracker.value = none
  /-- While tracking stays on, the last value is the last that was recorded. -/
  last : ∀ pre post, h = pre ++ post → (c.after pre).StaysOn post →
    ∀ data, ((c.after pre).tracked post).getLast? = some data →
      (c.after h).tracker.value = some { data }
  /-- A call of `set_value_tracking` that throws changes nothing. -/
  refused : ∀ newValue message t,
    (CharacteristicValueTracker.setTracking c.canNotify newValue).run (c.after h).tracker =
      (.error message, t) → t = (c.after h).tracker
  /-- What the next call of `set_value_tracking` leaves is part of the history. -/
  next : ∀ newValue, (c.after (h ++ [.setValueTracking newValue])).tracker =
    ((CharacteristicValueTracker.setTracking c.canNotify newValue).run (c.after h).tracker).2

theorem StaysOn.of_concat {h : List ValueEvent} {e : ValueEvent} (hon : c.StaysOn (h ++ [e])) :
    c.StaysOn h :=
  fun start hstart => hon start (hstart.trans (List.prefix_append h [e]))

/-- What an event can do to the tracker. -/
theorem tracker_handle (c : Characteristic) (e : ValueEvent) :
    (c.trackedBy e = none ∧ (c.handle e).tracker = c.tracker) ∨
      (∃ data, c.trackedBy e = some data ∧
        (c.handle e).tracker = (c.tracker.recordNewValue c.canNotify data).2) ∨
      (c.trackedBy e = none ∧ ∃ newValue,
        c.tracker.setValueTracking c.canNotify newValue = .ok (c.handle e).tracker) := by
  cases e with
  | notify data => exact .inr (.inl ⟨data, rfl, rfl⟩)
  | indicate data => exact .inl ⟨rfl, rfl⟩
  | read force reply =>
      rw [trackedBy_read]
      cases hcached : c.cached force with
      | some value => exact .inl ⟨rfl, by rw [handle, answer_of_cached hcached]⟩
      | none =>
          cases reply with
          | some data => exact .inr (.inl ⟨data, rfl, by rw [handle, answer_of_reply hcached]⟩)
          | none => exact .inl ⟨rfl, by rw [handle, answer_of_no_reply hcached]⟩
  | setValueTracking newValue =>
      cases ht : c.tracker.setValueTracking c.canNotify newValue with
      | ok t => exact .inr (.inr ⟨rfl, newValue, by simp [handle, setValueTracking, ht]⟩)
      | error message => exact .inl ⟨rfl, by simp [handle, setValueTracking, ht]⟩

theorem capable_handle (e : ValueEvent) (h : c.tracker.Capable c.canNotify) :
    (c.handle e).tracker.Capable c.canNotify := by
  obtain ⟨-, ht⟩ | ⟨data, -, ht⟩ | ⟨-, newValue, ht⟩ := c.tracker_handle e
  · rwa [ht]
  · unfold CharacteristicValueTracker.Capable
    rwa [ht, CharacteristicValueTracker.valueTracking_recordNewValue]
  · exact .setValueTracking ht

theorem capable_after (h : c.tracker.Capable c.canNotify) (es : List ValueEvent) :
    (c.after es).tracker.Capable c.canNotify := by
  induction es using List.reverseRecOn with
  | nil => exact h
  | append_singleton es e ih =>
      rw [after_concat]
      rw [← canNotify_after c es] at ih ⊢
      exact capable_handle e ih

/-- With tracking on before and after an event, what is recorded is remembered,
and what was remembered stays otherwise. -/
theorem value_handle (e : ValueEvent) (hon : c.tracker.valueTracking c.canNotify = true)
    (hon' : (c.handle e).tracker.valueTracking c.canNotify = true) :
    (c.handle e).tracker.value = ((c.trackedBy e).map fun data => { data }).or c.tracker.value := by
  obtain ⟨htracked, ht⟩ | ⟨data, htracked, ht⟩ | ⟨htracked, newValue, ht⟩ := c.tracker_handle e
  · rw [ht, htracked]
    rfl
  · rw [ht, htracked, CharacteristicValueTracker.recordNewValue_of_tracking hon]
    rfl
  · unfold CharacteristicValueTracker.setValueTracking at ht
    by_cases hrefused : newValue && !c.canNotify
    · simp [hrefused] at ht
    · rw [if_neg hrefused, Except.ok.injEq] at ht
      rw [← ht] at hon' ⊢
      cases newValue with
      | true => rw [htracked]; rfl
      | false => cases hon'

/-- While tracking stays on, the last value recorded is remembered. -/
theorem value_of_staysOn {h : List ValueEvent} (hon : c.StaysOn h) :
    (c.after h).tracker.value = (((c.tracked h).getLast?).map fun data => { data }).or
      c.tracker.value := by
  induction h using List.reverseRecOn with
  | nil => rfl
  | append_singleton h e ih =>
      have hafter := hon (h ++ [e]) (List.prefix_refl _)
      have hbefore := hon h (List.prefix_append h [e])
      rw [after_concat] at hafter
      rw [← canNotify_after c h] at hafter hbefore
      have htracked : c.tracked (h ++ [e]) = c.tracked h ++ ((c.after h).trackedBy e).toList :=
        c.collect_concat trackedBy h e
      rw [after_concat, value_handle e hbefore hafter, ih hon.of_concat, htracked]
      cases (c.after h).trackedBy e <;> simp

/-- **The invariant of the tracker**, after any history from the
default-constructed tracker. -/
theorem tracker_invariant (hnew : c.tracker = {}) (h : List ValueEvent) : c.TrackerInvariant h where
  capable := by
    apply capable_after
    rw [hnew]
    exact id
  off := by
    intro hoff
    by_contra hvalue
    obtain ⟨value, hvalue⟩ := Option.ne_none_iff_exists'.1 hvalue
    have hon := (value_tracked hnew h value hvalue).1
    simp [hoff] at hon
  last := by
    rintro pre post rfl hon data hdata
    rw [after_append, value_of_staysOn hon, hdata]
    rfl
  refused := by
    intro newValue message t ht
    rw [CharacteristicValueTracker.setTracking_run] at ht
    cases hset : (c.after h).tracker.setValueTracking c.canNotify newValue with
    | ok t' => simp [hset] at ht
    | error e => simp_all
  next := by
    intro newValue
    rw [CharacteristicValueTracker.setTracking_run, after_concat, handle, setValueTracking,
      canNotify_after]
    cases (c.after h).tracker.setValueTracking c.canNotify newValue <;> rfl

end Invariant

/-! ## Freshness -/

section Fresh

variable {c : Characteristic}

/-- What `read(false)` answers after a history without the backend is the last
payload delivered. -/
def Fresh (c : Characteristic) (h : List ValueEvent) : Prop :=
  ∀ reply, (c.after h).cached false ≠ none →
    ((c.after h).answer false reply).1 = (c.delivered h).getLast?

/-- If tracking is on and a value is remembered, then an indication that nothing
was delivered after has brought this value. -/
def IndicationsKnown (c : Characteristic) (h : List ValueEvent) : Prop :=
  ∀ value, (c.after h).cached false = some value →
    ∀ pre data post, h = pre ++ .indicate data :: post →
      (c.after (pre ++ [.indicate data])).delivered post = [] → data = value.data

theorem cached_eq_some {force : Bool} {value : ByteArray} (h : c.cached force = some value) :
    c.tracker.value = some value := by
  rw [cached] at h
  split at h
  · exact h
  · cases h

/-- The last delivery is an indication, if it is not what was last tracked. -/
theorem getLast?_delivered (c : Characteristic) (h : List ValueEvent) :
    (c.delivered h).getLast? = (c.tracked h).getLast? ∨
      ∃ pre data post, h = pre ++ .indicate data :: post ∧
        (c.after (pre ++ [.indicate data])).delivered post = [] := by
  induction h using List.reverseRecOn with
  | nil => exact .inl rfl
  | append_singleton h e ih =>
      by_cases hind : ∃ data, e = .indicate data
      · obtain ⟨data, rfl⟩ := hind
        exact .inr ⟨h, data, [], rfl, rfl⟩
      have htracked : (c.after h).trackedBy e = (c.after h).deliveredBy e := by
        cases e with
        | indicate data => exact absurd ⟨data, rfl⟩ hind
        | notify data | read force reply | setValueTracking newValue => rfl
      rw [delivered, tracked, collect_concat, collect_concat, htracked]
      cases hdelivered : (c.after h).deliveredBy e with
      | some data => exact .inl (by simp)
      | none =>
          rcases ih with ih | ⟨pre, data, post, rfl, hpost⟩
          · exact .inl (by simpa [delivered, tracked] using ih)
          · refine .inr ⟨pre, data, post ++ [e], by simp, ?_⟩
            rw [delivered, collect_concat, ← delivered, hpost, ← after_append, List.append_assoc,
              List.singleton_append, hdelivered]
            rfl

/-- An indication that nothing was delivered after is the last delivery. -/
theorem getLast?_delivered_of_indicate {pre post : List ValueEvent} {data : List UInt8}
    (h : (c.after (pre ++ [.indicate data])).delivered post = []) :
    (c.delivered (pre ++ .indicate data :: post)).getLast? = some data := by
  rw [delivered, List.append_cons, collect_append, ← delivered, ← delivered, h, List.append_nil,
    delivered, collect_concat]
  exact List.getLast?_concat

/-- **When the remembered value is fresh.**  An indication is the one delivery
that is not recorded: what `read(false)` answers is the last payload delivered
if and only if no indication with another payload has come last. -/
theorem fresh_iff (hnew : c.tracker = {}) (h : List ValueEvent) :
    c.Fresh h ↔ c.IndicationsKnown h := by
  constructor
  · rintro hfresh value hcached pre data post rfl hpost
    have hlast := hfresh none (by rw [hcached]; exact Option.some_ne_none value)
    rw [answer_of_cached hcached, getLast?_delivered_of_indicate hpost] at hlast
    exact (Option.some.inj hlast).symm
  · intro hknown reply hcached
    obtain ⟨value, hvalue⟩ := Option.ne_none_iff_exists'.1 hcached
    rw [answer_of_cached hvalue]
    rcases getLast?_delivered c h with hlast | ⟨pre, data, post, rfl, hpost⟩
    · rw [hlast]
      exact (value_tracked hnew h value (cached_eq_some hvalue)).2.symm
    · rw [getLast?_delivered_of_indicate hpost, hknown value hvalue pre data post rfl hpost]

/-- A characteristic that can notify and indicate, with a callback set. -/
def sample : Characteristic where
  owner := some 0
  characteristic := { uuid := "2a1c", capabilities := ["read", "notify", "indicate"] }
  uuid := "2a1c"
  onNotify := some { argCount := 2, cb := some 1 }
  self := 2

/-- Tracking is turned off and on again, and refused where the characteristic
cannot notify. -/
theorem tracker_invariant_toggle :
    (sample.after [.notify [1], .setValueTracking false, .setValueTracking true]).tracker =
        { trackValues := some true } ∧
      sample.TrackerInvariant [.notify [1], .setValueTracking false, .setValueTracking true] :=
  ⟨by decide, tracker_invariant rfl _⟩

theorem fresh_readAfterIndicate :
    (sample.after [.notify [1], .indicate [2], .read true (some [2])]).cached false =
        some { data := [2] } ∧
      sample.Fresh [.notify [1], .indicate [2], .read true (some [2])] := by
  refine ⟨rfl, (fresh_iff rfl _).2 ?_⟩
  rintro value - pre data post heq hpost
  rcases pre with _ | ⟨e₁, _ | ⟨e₂, _ | ⟨e₃, pre⟩⟩⟩
  · simp at heq
  · simp only [List.cons_append, List.nil_append, List.cons.injEq] at heq
    obtain ⟨rfl, ⟨⟩, rfl⟩ := heq
    cases hpost
  · simp at heq
  · simp at heq

/-- After a notification, an indication changes the value, and `read(false)`
answers the old one. -/
theorem not_fresh_indicate :
    ¬ ∀ c : Characteristic, "notify" ∈ c.characteristic.capabilities →
      "indicate" ∈ c.characteristic.capabilities → c.tracker = {} →
        ∀ h : List ValueEvent, c.Fresh h := by
  intro hall
  have hfresh := hall sample (by decide) (by decide) rfl [.notify [1], .indicate [2]] none (by decide)
  revert hfresh
  decide

end Fresh

end Characteristic

/-! ## Changes -/

section Lists

variable {α : Type} [DecidableEq α]

/-- A list without the elements that repeat the one before, the first of which
comes after `a`. -/
def changes (a : α) (l : List α) : List α := ((a :: l).destutter (· ≠ ·)).tail

theorem destutter'_eq_cons (a : α) (l : List α) : l.destutter' (· ≠ ·) a = a :: changes a l := by
  rw [changes, List.destutter_cons']
  induction l with
  | nil => rfl
  | cons b l ih =>
      rw [List.destutter'_cons]
      split
      · rfl
      · exact ih

theorem changes_cons (a b : α) (l : List α) :
    changes a (b :: l) = if b = a then changes a l else b :: changes b l := by
  rw [changes, List.destutter_cons', List.destutter'_cons]
  by_cases hb : b = a
  · rw [if_pos hb, if_neg (by simp [hb]), destutter'_eq_cons, List.tail_cons]
  · rw [if_neg hb, if_pos (Ne.symm hb), List.tail_cons, destutter'_eq_cons]

end Lists

namespace Characteristic

section Changes

variable {c : Characteristic} {proc : ObjectId}

/-- What was last tracked, or the empty payload before that. -/
def remembered (c : Characteristic) (h : List ValueEvent) : List UInt8 :=
  ((c.tracked h).getLast?).getD []

/-- Every read that asks the backend is told what was last tracked. -/
def Confirmed (c : Characteristic) (h : List ValueEvent) : Prop :=
  ∀ pre force data post, h = pre ++ .read force (some data) :: post →
    (c.after pre).cached force = none → data = c.remembered pre

/-- Which notifications of a history `on_notify` is called for. -/
structure OnNotifyChanges (c : Characteristic) (proc : ObjectId) (h : List ValueEvent) : Prop where
  /-- Those that differ from what was last tracked. -/
  passed : ∀ pre data post, h = pre ++ .notify data :: post →
    ((c.after pre).fireOnNotify data).1 =
      if data = c.remembered pre then none else some (proc, data, c.self)
  /-- If no read brings anything new, then all that differ from the one before,
  whether there are reads or not. -/
  confirmed : c.Confirmed h →
    c.fired h = changes [] (h.filterMap (·.notification)) ∧
      c.fired h = c.fired (h.filter (!·.isRead))

/-- Tracking is on, and the callback of `on_notify` is set to this proc. -/
structure Listens (c : Characteristic) (proc : ObjectId) : Prop where
  tracking : c.tracker.valueTracking c.canNotify = true
  callback : ∃ cb, c.onNotify = some cb ∧ cb.cb = some proc

/-- The payload remembered, or the empty one. -/
def current (c : Characteristic) : List UInt8 := (c.tracker.value.map (·.data)).getD []

/-- A payload is recorded. -/
def record (c : Characteristic) (data : List UInt8) : Characteristic :=
  { c with tracker := { c.tracker with value := some { data } } }

theorem Listens.record (h : c.Listens proc) (data : List UInt8) : (c.record data).Listens proc :=
  ⟨h.tracking, h.callback⟩

theorem Listens.fireOnNotify (h : c.Listens proc) (data : List UInt8) :
    c.fireOnNotify data =
      (if data = c.current then none else some (proc, data, c.self), c.record data) := by
  obtain ⟨cb, hcb, hproc⟩ := h.callback
  rw [Characteristic.fireOnNotify, CharacteristicValueTracker.recordNewValue_of_tracking h.tracking]
  show (if decide (data ≠ c.current) then c.onNotify.bind (·.fire (data, c.self)) else none,
    c.record data) = _
  by_cases hdata : data = c.current
  · rw [if_neg (by simp [hdata]), if_pos hdata]
  · rw [if_pos (by simpa using hdata), if_neg hdata, hcb, Option.bind_some, Callback.fire, hproc,
      Option.map_some]

theorem Listens.handle_notify (h : c.Listens proc) (data : List UInt8) :
    c.handle (.notify data) = c.record data := by
  rw [handle, h.fireOnNotify]

/-- A read that asks the backend records what it is told; others change nothing. -/
theorem Listens.handle_read (h : c.Listens proc) (force : Bool) (reply : Option (List UInt8)) :
    c.handle (.read force reply) = match c.trackedBy (.read force reply) with
      | some data => c.record data
      | none => c := by
  rw [trackedBy_read, handle]
  cases hcached : c.cached force with
  | some value => rw [answer_of_cached hcached]; rfl
  | none =>
      cases reply with
      | none => rw [answer_of_no_reply hcached]; rfl
      | some data =>
          rw [answer_of_reply hcached,
            CharacteristicValueTracker.recordNewValue_of_tracking h.tracking]
          rfl

/-- What a notification or a read does is to record what it passes on. -/
theorem Listens.handle (h : c.Listens proc) {e : ValueEvent}
    (he : e.notification.isSome ∨ e.isRead) :
    c.handle e = match c.trackedBy e with
      | some data => c.record data
      | none => c := by
  cases e with
  | notify data => exact h.handle_notify data
  | read force reply => exact h.handle_read force reply
  | indicate data | setValueTracking newValue => rcases he with ⟨⟨⟩⟩ | ⟨⟨⟩⟩

theorem Listens.handle_listens (h : c.Listens proc) {e : ValueEvent}
    (he : e.notification.isSome ∨ e.isRead) : (c.handle e).Listens proc := by
  rw [h.handle he]
  cases c.trackedBy e with
  | some data => exact h.record data
  | none => exact h

/-- Through notifications and reads the callback stays, and what is remembered is
what was last tracked. -/
theorem Listens.after (h : c.Listens proc) (hnone : c.tracker.value = none) {es : List ValueEvent}
    (hes : ∀ e ∈ es, e.notification.isSome ∨ e.isRead) :
    (c.after es).Listens proc ∧
      (c.after es).tracker.value.map (·.data) = (c.tracked es).getLast? := by
  induction es using List.reverseRecOn with
  | nil => exact ⟨h, by rw [show c.after [] = c from rfl, hnone]; rfl⟩
  | append_singleton es e ih =>
      rw [List.forall_mem_append, List.forall_mem_singleton] at hes
      obtain ⟨hlistens, hvalue⟩ := ih hes.1
      rw [after_concat, tracked, collect_concat, ← tracked]
      refine ⟨hlistens.handle_listens hes.2, ?_⟩
      rw [hlistens.handle hes.2]
      cases (c.after es).trackedBy e with
      | some data => simp [Characteristic.record]
      | none => simpa using hvalue

/-- If no read brings anything new, the callback is passed the changes. -/
theorem Listens.fired_eq {es : List ValueEvent} (h : c.Listens proc)
    (hes : ∀ e ∈ es, e.notification.isSome ∨ e.isRead)
    (hreads : ∀ pre force data post, es = pre ++ .read force (some data) :: post →
      (c.after pre).cached force = none → data = (c.after pre).current) :
    c.fired es = changes c.current (es.filterMap (·.notification)) := by
  induction es generalizing c with
  | nil => rfl
  | cons e es ih =>
      rw [List.forall_mem_cons] at hes
      have ih := ih (h.handle_listens hes.1) hes.2 fun pre force data post heq =>
        hreads (e :: pre) force data post (by rw [heq]; rfl)
      rw [fired, collect, ← fired, ih]
      cases e with
      | notify data =>
          rw [h.handle_notify, firedBy, h.fireOnNotify,
            show (ValueEvent.notify data :: es).filterMap (·.notification) =
              data :: es.filterMap (·.notification) from rfl, changes_cons]
          by_cases hdata : data = c.current
          · rw [if_pos hdata, if_pos hdata, ← hdata]
            rfl
          · rw [if_neg hdata, if_neg hdata]
            rfl
      | read force reply =>
          rw [List.filterMap_cons_none rfl, h.handle_read, trackedBy_read]
          cases hcached : c.cached force with
          | some value => rfl
          | none =>
              cases reply with
              | none => rfl
              | some data =>
                  obtain rfl := hreads [] force data es rfl hcached
                  rfl
      | indicate data | setValueTracking newValue => rcases hes.1 with ⟨⟨⟩⟩ | ⟨⟨⟩⟩

/-- **Which notifications `on_notify` is called for.**  It is called for those
that differ from what was last remembered.  A read remembers what it returns, so
it is only reads that bring nothing new that leave the calls as they are. -/
theorem onNotify_changes (hlistens : c.Listens proc) (hnone : c.tracker.value = none)
    (h : List ValueEvent) (hh : ∀ e ∈ h, e.notification.isSome ∨ e.isRead) :
    c.OnNotifyChanges proc h where
  passed := by
    rintro pre data post rfl
    rw [List.forall_mem_append] at hh
    obtain ⟨hpre, hvalue⟩ := hlistens.after hnone hh.1
    obtain ⟨t, ht⟩ := c.after_eq pre
    rw [hpre.fireOnNotify, current, hvalue, ← remembered, ht]
  confirmed := by
    intro hconfirmed
    have hcurrent : ∀ pre, (∀ e ∈ pre, e.notification.isSome ∨ e.isRead) →
        (c.after pre).current = c.remembered pre := fun pre hpre => by
      rw [current, (hlistens.after hnone hpre).2, remembered]
    have hstart : c.current = [] := by rw [current, hnone]; rfl
    rw [hlistens.fired_eq hh, hlistens.fired_eq, hstart, List.filterMap_filter]
    · refine ⟨rfl, ?_⟩
      congr 2
      funext e
      cases e <;> rfl
    · exact fun e he => hh e (List.mem_of_mem_filter he)
    · rintro pre force data post heq -
      have hmem : ValueEvent.read force (some data) ∈ h.filter (!·.isRead) := by simp [heq]
      simp [ValueEvent.isRead] at hmem
    · rintro pre force data post rfl hcached
      rw [hcurrent pre fun e he => hh e (List.mem_append_left _ he)]
      exact hconfirmed pre force data post rfl hcached

/-- A notification brings what a read has just returned, and `on_notify` is not
called. -/
def readBetween : List ValueEvent := [.notify [1], .read true (some [2]), .notify [2], .notify [3]]

theorem onNotify_changes_readBetween : sample.fired readBetween = [[1], [3]] ∧
    sample.OnNotifyChanges 1 readBetween :=
  ⟨by decide, onNotify_changes ⟨by decide, _, rfl, rfl⟩ rfl readBetween (by decide)⟩

theorem not_changes_readBetween :
    ¬ ∀ (c : Characteristic) (proc : ObjectId), c.Listens proc → c.tracker.value = none →
      ∀ h : List ValueEvent, (∀ e ∈ h, e.notification.isSome ∨ e.isRead) →
        c.fired h = changes [] (h.filterMap (·.notification)) ∧
          c.fired h = c.fired (h.filter (!·.isRead)) := by
  intro hall
  have hchanges := hall sample 1 ⟨by decide, _, rfl, rfl⟩ rfl readBetween (by decide)
  revert hchanges
  decide

end Changes

/-! ## In the world -/

section InWorld

variable {H : Hashes} {env : Env} {w : World} {this : Ptr} {c : Characteristic}

theorem recordNewValue_get? (hc : w.characteristics.get? this = some c) (data : List UInt8) :
    ((recordNewValue this data).run w).2.characteristics.get? this =
      some { c with tracker := (c.tracker.recordNewValue c.canNotify data).2 } := by
  show (w.characteristics.update this _).get? this = _
  rw [Heap.get?_update, if_pos rfl, hc]
  rfl

/-- The queue runs `fire_on_notify` of the characteristic that was captured. -/
theorem fireOnNotify_run (hc : w.characteristics.get? this = some c) (data : List UInt8) :
    (((Item.fireOnNotify this data).prog H env).run w).2.characteristics.get? this =
      some (c.handle (.notify data)) := by
  rw [Item.prog, Program.run_bind_ok (deref_run hc)]
  exact recordNewValue_get? hc data

theorem fireOnIndicate_run (hc : w.characteristics.get? this = some c) (data : List UInt8) :
    (((Item.fireOnIndicate this data).prog H env).run w).2.characteristics.get? this =
      some (c.handle (.indicate data)) := by
  rw [Item.prog, Program.run_bind_ok (deref_run hc)]
  exact hc

/-- A read that reaches the backend returns its reply, or throws, and changes
only the log. -/
theorem serviceRead_run (env : Env) {s p : Ptr} {S : Service} {P : Peripheral}
    (hS : w.services.get? s = some S) (hp : S.owner = some p)
    (hP : w.peripherals.get? p = some P) (u : BluetoothUUID) :
    (Service.read env (some s) u).run w =
      (if env.throws = some (.access .read) then .error (.backend (.access .read))
        else .ok env.reply,
      { w with log := w.log ++ [{ op := .read, characteristic := u, device := P.peripheral.backend,
                                  service := S.uuid }] }) := by
  have hvia := viaPeripheral_run env { op := .read, characteristic := u } hS hp hP
  rw [callBackend, Program.run_bind_ok (Program.run_modify _ _)] at hvia
  dsimp only [backend] at hvia
  rw [Service.read_eq]
  by_cases hthrows : env.throws = some (.access .read)
  · rw [if_pos hthrows, Program.run_throw] at hvia
    rw [if_pos hthrows, Program.run_bind_error hvia]
  · rw [if_neg hthrows, Program.run_pure] at hvia
    rw [if_neg hthrows, Program.run_bind_ok hvia]
    rfl

/-- `read(force)` of a characteristic whose chain of owners is there returns,
and leaves, what `answer` says. -/
theorem read_run {s p : Ptr} {S : Service} {P : Peripheral}
    (hc : w.characteristics.get? this = some c) (hs : c.owner = some s)
    (hS : w.services.get? s = some S) (hp : S.owner = some p)
    (hP : w.peripherals.get? p = some P) (force : Bool) :
    let reply := if env.throws = some (.access .read) then none else some env.reply
    let final := (Characteristic.read env this force).run w
    final.1.toOption = (c.answer force reply).1 ∧
      final.2.characteristics.get? this = some (c.handle (.read force reply)) := by
  intro reply final
  have hfinal : final = (Characteristic.read env this force).run w := rfl
  rw [Characteristic.read, Program.run_bind_ok (deref_run hc)] at hfinal
  cases hcached : c.cached force with
  | some value =>
      rw [hcached] at hfinal
      rw [handle, hfinal, answer_of_cached hcached]
      exact ⟨rfl, hc⟩
  | none =>
      rw [hcached, hs] at hfinal
      have hread := serviceRead_run env hS hp hP c.uuid
      by_cases hthrows : env.throws = some (.access .read)
      · rw [if_pos hthrows] at hread
        rw [handle, hfinal, Program.run_bind_error hread, show reply = none from if_pos hthrows,
          answer_of_no_reply hcached]
        exact ⟨rfl, hc⟩
      · rw [if_neg hthrows] at hread
        rw [handle, hfinal, Program.run_bind_ok hread, show reply = some env.reply from if_neg hthrows,
          answer_of_reply hcached]
        exact ⟨rfl, recordNewValue_get? (w := { w with log := _ }) hc env.reply⟩

end InWorld

end Characteristic

end RuBLE
