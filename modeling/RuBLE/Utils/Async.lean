import Mathlib
import RuBLE.Library.Program
import RuBLE.Library.System

/-!
# Waiting for something to become true

The model of `utils/async.hpp`: `wait_until` polls a predicate until it is true
or the clock is past a deadline.

* `waitUntil` — the function, over any predicate, clock and way to sleep.
* `Trace` — what a call meets: the results of the predicate and the readings of
  the clock, any sequences.
* `Trace.wait_cases` — where a call stops: at the first poll at which it is finished.
* `neverDiscards` — **polling never discards a success**: what is returned is
  the last result of the predicate, whatever the clock says.
* `waitSystem` — the same loop in single steps, for callers whose predicate
  shares data with other threads; `Trace.run_events_of_wait` is what connects
  the two.

Times are integers, as an overflow of them is undefined.
-/

namespace RuBLE.Async

open Transition

/-! ## The function -/

/-- The concept `Duration`. -/
class Duration (δ : Type) where
  /-- `chrono::duration_cast<clock::duration>`, in ticks of the clock. -/
  durationCast : δ → Int

/-- `chrono::seconds`. -/
structure Seconds where
  count : Int
  deriving DecidableEq, Repr

/-- The clock counts nanoseconds. -/
instance : Duration Seconds := ⟨fun duration => duration.count * 1000000000⟩

section Functions

variable {σ ε δ : Type} [Duration δ]

/-- `is_timed_out`, of a wait that has a timeout. -/
def isTimedOut (now : Program σ ε Int) (untilPoint : Int) : Program σ ε Bool := do
  let reading ← now
  return untilPoint < reading

/-- `check_if_done`, and the `fn_result` it leaves.  The clock is read whatever
`fn` has returned. -/
def checkIfDone (fn isTimedOut : Program σ ε Bool) : Program σ ε (Bool × Bool) := do
  let fnResult ← fn
  let timedOut ← isTimedOut
  return (fnResult, fnResult || timedOut)

/-- `wait_until`, with a bound on the number of polls; `none` is returned where
it would go on. -/
def waitUntil (fn : Program σ ε Bool) (now : Program σ ε Int) (threadSleep : Program σ ε Unit)
    (duration : Option δ) (polls : Nat) : Program σ ε (Option Bool) := do
  match duration with
  | some duration =>
      let start ← now
      let untilPoint := start + Duration.durationCast duration
      Program.repeatUntil (checkIfDone fn (isTimedOut now untilPoint)) threadSleep polls
  | none => Program.repeatUntil (checkIfDone fn (pure false)) threadSleep polls

end Functions

/-! ## What a call meets -/

/-- The results of the predicate and the readings of the clock, each in the order
in which they are asked for. -/
structure Trace where
  results : Nat → Bool
  readings : Nat → Int

/-- How many of each have been asked for. -/
structure Asked where
  calls : Nat := 0
  readings : Nat := 0
  deriving DecidableEq, Repr

namespace Trace

variable {δ : Type} [Duration δ] (trace : Trace) (duration : Option δ)

/-- The predicate. -/
def fn : Program Asked Empty Bool :=
  Program.act fun asked => (trace.results asked.calls, { asked with calls := asked.calls + 1 })

/-- The clock. -/
def now : Program Asked Empty Int :=
  Program.act fun asked =>
    (trace.readings asked.readings, { asked with readings := asked.readings + 1 })

/-- A call of `wait_until`.  How long it sleeps is in the readings. -/
def wait (polls : Nat) : Except Empty (Option Bool) × Asked :=
  (waitUntil trace.fn trace.now (pure ()) duration polls).run {}

/-- The clock is past the deadline at the `k`th poll.  The first reading is that
of the start. -/
def timedOut (k : Nat) : Bool :=
  match duration with
  | some duration => trace.readings 0 + Duration.durationCast duration < trace.readings (k + 1)
  | none => false

/-- The wait is finished at the `k`th poll. -/
def finished (k : Nat) : Bool := trace.results k || trace.timedOut duration k

/-- What a caller of `wait_until` relies on. -/
structure NeverDiscards : Prop where
  /-- The predicate is called at least once. -/
  called : ∀ polls r asked, trace.wait duration (polls + 1) = (r, asked) → 0 < asked.calls
  /-- It is not called again when it has returned true. -/
  once : ∀ polls r asked, trace.wait duration polls = (r, asked) →
    ∀ k, k + 1 < asked.calls → trace.results k = false
  /-- True is returned if and only if its last call has returned true. -/
  last : ∀ polls b asked, trace.wait duration polls = (.ok (some b), asked) →
    (b = true ↔ trace.results (asked.calls - 1) = true)
  /-- The wait ends at the first poll at which the predicate is true or the clock
  is past the deadline. -/
  first : ∀ polls b asked, trace.wait duration polls = (.ok (some b), asked) →
    trace.finished duration (asked.calls - 1) = true ∧
      ∀ k, k + 1 < asked.calls → trace.finished duration k = false
  /-- If there is such a poll then it returns. -/
  ends : (∃ k, trace.finished duration k = true) →
    ∃ b asked N, ∀ polls, N ≤ polls → trace.wait duration polls = (.ok (some b), asked)
  /-- In particular if the clock stays past the deadline from some poll on. -/
  ends_of_clock : (∃ n, ∀ k, n ≤ k → trace.timedOut duration k = true) →
    ∃ b asked N, ∀ polls, N ≤ polls → trace.wait duration polls = (.ok (some b), asked)

/-! ## Where it stops -/

/-- What has been asked for after `k` polls. -/
def asked (k : Nat) : Asked where
  calls := k
  readings := match duration with
    | some _ => k + 1
    | none => 0

/-- A poll, of a wait with this timeout. -/
def check : Program Asked Empty (Bool × Bool) :=
  match duration with
  | some duration =>
      checkIfDone trace.fn (isTimedOut trace.now (trace.readings 0 + Duration.durationCast duration))
  | none => checkIfDone trace.fn (pure false)

variable {trace duration}

theorem finished_eq_false {k : Nat} :
    trace.finished duration k = false ↔
      trace.results k = false ∧ trace.timedOut duration k = false :=
  Bool.or_eq_false_iff

theorem wait_eq (polls : Nat) :
    trace.wait duration polls =
      (Program.repeatUntil (trace.check duration) (pure ()) polls).run (asked duration 0) := by
  cases duration <;> rfl

/-- **What a poll does.** -/
theorem check_run (k : Nat) :
    (trace.check duration).run (asked duration k) =
      (.ok (trace.results k, trace.finished duration k), asked duration (k + 1)) := by
  cases duration with
  | none => simp [finished, timedOut, check, checkIfDone]; rfl
  | some duration => rfl

variable (trace duration)

/-- After `k` polls the wait is not finished. -/
def Waiting (k : Nat) (s : Asked) : Prop :=
  s = asked duration k ∧ ∀ j < k, trace.finished duration j = false

/-- The wait has stopped at the first poll at which it was finished. -/
def Stopped (b : Bool) (s : Asked) : Prop :=
  ∃ k, b = trace.results k ∧ s = asked duration (k + 1) ∧ trace.finished duration k = true ∧
    ∀ j < k, trace.finished duration j = false

theorem check_triple (k : Nat) :
    Program.Triple (trace.Waiting duration k) (trace.check duration)
      (fun r s => if r.2 then trace.Stopped duration r.1 s else trace.Waiting duration (k + 1) s)
      fun _ => False := by
  rintro s ⟨rfl, hbefore⟩
  rw [check_run]
  cases hk : trace.finished duration k with
  | true => exact ⟨k, rfl, rfl, hk, hbefore⟩
  | false => exact ⟨rfl, Nat.forall_lt_succ_right.2 ⟨hbefore, hk⟩⟩

/-- **Where a wait stops.**  It is at the first poll at which it is finished; if
it is not finished at any, then all polls are made that there may be. -/
theorem wait_cases (polls : Nat) :
    (trace.wait duration polls = (.ok none, asked duration polls) ∧
      ∀ j < polls, trace.finished duration j = false) ∨
    ∃ k, trace.wait duration polls = (.ok (some (trace.results k)), asked duration (k + 1)) ∧
      trace.finished duration k = true ∧ ∀ j < k, trace.finished duration j = false := by
  have hloop := Program.Triple.repeatUntil (trace.check_triple duration)
    (fun k => Program.Triple.skip ()) polls 0
  have hstart : trace.Waiting duration 0 (asked duration 0) := ⟨rfl, fun j hj => absurd hj j.not_lt_zero⟩
  have hend := hloop (asked duration 0) hstart
  rw [← wait_eq] at hend
  rcases hwait : trace.wait duration polls with ⟨r, s⟩
  rw [hwait] at hend
  match r with
  | .ok none =>
      obtain ⟨rfl, hbefore⟩ := hend
      rw [Nat.zero_add] at hbefore ⊢
      exact .inl ⟨rfl, hbefore⟩
  | .ok (some b) =>
      obtain ⟨k, rfl, rfl, hk, hbefore⟩ := hend
      exact .inr ⟨k, rfl, hk, hbefore⟩

variable {trace duration}

/-- A wait that has returned. -/
theorem wait_returned {polls : Nat} {b : Bool} {s : Asked}
    (h : trace.wait duration polls = (.ok (some b), s)) : trace.Stopped duration b s := by
  rcases trace.wait_cases duration polls with ⟨hnone, -⟩ | ⟨k, hsome, hk, hbefore⟩
  · rw [hnone] at h
    cases h
  · rw [hsome] at h
    cases h
    exact ⟨k, rfl, rfl, hk, hbefore⟩

/-- Before the last poll the wait is not finished. -/
theorem not_finished_before_last {polls k : Nat} {r : Except Empty (Option Bool)} {s : Asked}
    (h : trace.wait duration polls = (r, s)) (hk : k + 1 < s.calls) :
    trace.finished duration k = false := by
  rcases trace.wait_cases duration polls with ⟨hnone, hbefore⟩ | ⟨n, hsome, -, hbefore⟩
  · rw [hnone] at h
    cases h
    exact hbefore k (Nat.lt_of_succ_lt hk)
  · rw [hsome] at h
    cases h
    exact hbefore k (Nat.lt_of_succ_lt_succ hk)

theorem wait_calls_pos {polls : Nat} {r : Except Empty (Option Bool)} {s : Asked}
    (h : trace.wait duration (polls + 1) = (r, s)) : 0 < s.calls := by
  rcases trace.wait_cases duration (polls + 1) with ⟨hnone, -⟩ | ⟨k, hsome, -⟩
  · rw [hnone] at h
    cases h
    exact polls.succ_pos
  · rw [hsome] at h
    cases h
    exact k.succ_pos

/-- A wait that is finished at some poll returns. -/
theorem wait_ends {k : Nat} (h : trace.finished duration k = true) :
    ∃ b s N, ∀ polls, N ≤ polls → trace.wait duration polls = (.ok (some b), s) := by
  rcases trace.wait_cases duration (k + 1) with ⟨-, hbefore⟩ | ⟨n, hsome, -, -⟩
  · rw [hbefore k k.lt_succ_self] at h
    cases h
  · refine ⟨trace.results n, asked duration (n + 1), k + 1, fun polls hle => ?_⟩
    rw [wait_eq] at hsome ⊢
    exact Program.run_repeatUntil_of_le hsome hle

end Trace

/-- **Polling never discards a success.**  Whatever the predicate returns and
the clock says, the last result of the predicate is what is returned. -/
theorem neverDiscards {δ : Type} [Duration δ] (trace : Trace) (duration : Option δ) :
    trace.NeverDiscards duration where
  called polls r s h := Trace.wait_calls_pos h
  once polls r s h k hk := (Trace.finished_eq_false.1 (Trace.not_finished_before_last h hk)).1
  last polls b s h := by
    obtain ⟨k, rfl, rfl, -, -⟩ := Trace.wait_returned h
    exact Iff.rfl
  first polls b s h := by
    refine ⟨?_, fun k hk => Trace.not_finished_before_last h hk⟩
    obtain ⟨k, -, rfl, hk, -⟩ := Trace.wait_returned h
    exact hk
  ends h := by
    obtain ⟨k, hk⟩ := h
    exact Trace.wait_ends hk
  ends_of_clock h := by
    obtain ⟨n, hn⟩ := h
    exact Trace.wait_ends (Bool.or_eq_true_iff.2 (.inr (hn n le_rfl)))

/-- The third poll succeeds, and the deadline has passed by then. -/
example : (Trace.mk (fun k => k == 2) (fun k => 400000000 * k)).wait (some (Seconds.mk 1)) 9 =
    (.ok (some true), { calls := 3, readings := 4 }) := by rfl

/-! ## Predicates with side effects -/

section SideEffects

variable {σ δ : Type} [Duration δ] (fn : σ → Bool × σ) (now : σ → Int × σ) (threadSleep : σ → σ)
  (duration : Option δ)

/-- The clock is read only where there is a timeout. -/
def afterClock (s : σ) : σ :=
  match duration with
  | some _ => (now s).2
  | none => s

/-- The state before the `k`th poll. -/
def before (s : σ) : Nat → σ
  | 0 => afterClock now duration s
  | k + 1 => threadSleep (afterClock now duration (fn (before s k)).2)

/-- The results and readings that a call meets when it starts in a state. -/
def traceFrom (s : σ) : Trace where
  results k := (fn (before fn now threadSleep duration s k)).1
  readings
    | 0 => (now s).1
    | k + 1 => (now (fn (before fn now threadSleep duration s k)).2).1

/-- **A predicate with side effects amounts to a sequence of results**, and so
does a clock to one of readings, whatever state they share. -/
theorem waitUntil_traceFrom (s : σ) (polls : Nat) :
    ((waitUntil (Program.act fn : Program σ Empty Bool) (Program.act now)
      (Program.modify threadSleep) duration polls).run s).1 =
      ((traceFrom fn now threadSleep duration s).wait duration polls).1 := by
  rw [Trace.wait_eq]
  cases duration with
  | none =>
      refine Program.run_repeatUntil_congr (s := before fn now threadSleep (none : Option δ) s)
        (t := Trace.asked (none : Option δ)) (fun k => ?_) polls 0
      exact ⟨_, _, _, rfl, rfl, Trace.check_run k, rfl⟩
  | some duration =>
      refine Program.run_repeatUntil_congr (s := before fn now threadSleep (some duration) s)
        (t := Trace.asked (some duration)) (fun k => ?_) polls 0
      exact ⟨_, _, _, rfl, rfl, Trace.check_run k, rfl⟩

end SideEffects

/-! ## The same in single steps -/

/-- Where a call of `wait_until` stands. -/
inductive WaitPc where
  /-- `fn_result = fn()`. -/
  | callFn
  /-- `timed_out = is_timed_out()`. -/
  | checkTime (fnResult : Bool)
  | returned (fnResult : Bool)
  deriving DecidableEq, Repr

/-- What a step finds. -/
inductive WaitEvent where
  /-- The predicate returns. -/
  | fn (result : Bool)
  /-- The clock is past the deadline, or not. -/
  | time (timedOut : Bool)
  deriving DecidableEq, Repr

/-- One step of `wait_until`. -/
def waitStep : WaitPc → WaitEvent → Option WaitPc
  | .callFn, .fn result => some (.checkTime result)
  | .checkTime fnResult, .time timedOut =>
      some (if fnResult || timedOut then .returned fnResult else .callFn)
  | _, _ => none

/-- `wait_until`, once it has read the time of its start. -/
def waitSystem : System WaitPc WaitEvent := ⟨.callFn, waitStep⟩

namespace Trace

variable {δ : Type} [Duration δ] (trace : Trace) (duration : Option δ)

/-- What the first `k` polls find. -/
def events (k : Nat) : List WaitEvent :=
  (List.range k).flatMap fun j => [.fn (trace.results j), .time (trace.timedOut duration j)]

variable {trace duration}

theorem events_succ (k : Nat) :
    trace.events duration (k + 1) =
      trace.events duration k ++ [.fn (trace.results k), .time (trace.timedOut duration k)] := by
  rw [events, List.range_succ, List.flatMap_append, List.flatMap_singleton]
  rfl

theorem run_poll (k : Nat) :
    waitSystem.runFrom .callFn [.fn (trace.results k), .time (trace.timedOut duration k)] =
      some (if trace.finished duration k then .returned (trace.results k) else .callFn) := rfl

theorem run_events {k : Nat} (h : ∀ j < k, trace.finished duration j = false) :
    waitSystem.run (trace.events duration k) = some .callFn := by
  induction k with
  | zero => rfl
  | succ k ih =>
      rw [events_succ, System.run, System.runFrom_append]
      rw [System.run] at ih
      rw [ih fun j hj => h j (Nat.lt_succ_of_lt hj)]
      show waitSystem.runFrom .callFn _ = _
      rw [run_poll, h k k.lt_succ_self]
      rfl

/-- **The two agree.**  When the function has returned, the steps for what its
polls have found lead to the same result. -/
theorem run_events_of_wait {polls : Nat} {b : Bool} {s : Asked}
    (h : trace.wait duration polls = (.ok (some b), s)) :
    waitSystem.run (trace.events duration s.calls) = some (.returned b) := by
  obtain ⟨k, rfl, rfl, hk, hbefore⟩ := wait_returned h
  have hstart := run_events hbefore
  rw [System.run] at hstart
  show waitSystem.run (trace.events duration (k + 1)) = _
  rw [events_succ, System.run, System.runFrom_append, hstart]
  show waitSystem.runFrom .callFn _ = _
  rw [run_poll, hk]
  rfl

end Trace

/-- The predicate has returned true if and only if the wait has that result, or
is about to return it. -/
theorem mem_fn_true_iff (es : List WaitEvent) :
    ∀ pc, waitSystem.run es = some pc →
      (.fn true ∈ es ↔ pc = .checkTime true ∨ pc = .returned true) := by
  induction es using List.reverseRecOn with
  | nil =>
      intro pc h
      cases h
      simp [waitSystem]
  | append_singleton es e ih =>
      intro pc h
      rw [System.run, System.runFrom_concat] at h
      obtain ⟨pc₀, hpc₀, hstep⟩ := Option.bind_eq_some_iff.1 h
      rw [List.mem_append, ih pc₀ hpc₀, List.mem_singleton]
      cases pc₀ with
      | callFn =>
          cases e with
          | fn result => cases hstep; simp
          | time timedOut => cases hstep
      | checkTime fnResult =>
          cases e with
          | fn result => cases hstep
          | time timedOut => cases hstep; cases fnResult <;> cases timedOut <;> simp
      | returned fnResult => cases hstep

end RuBLE.Async
