import Mathlib
import RuBLE.Library.System
import RuBLE.Utils.RubyContext

/-!
# `ensure_ruby` and the global VM lock

The model of `ensure_ruby` (`utils/ruby.hpp`) on the threads that can run it:
the thread that loaded the extension, the thread of the `RubyQueue`, and any
number of Ruby threads the user starts.  `ensure_ruby` looks at the calling
thread's own `in_ruby` and, by its answer, either runs its function directly or
asks Ruby for the lock with `rb_thread_call_with_gvl`, which Ruby permits only
to a thread that does not hold it.

* `State.running` — a thread in Ruby code executes only while it holds the lock;
  a thread inside `rb_thread_call_without_gvl` executes without it.
* `step` — lock hand-overs, the queue thread entering and leaving its loop and
  its items, and `ensure_ruby` calls nested to any depth.
* `inv_of_reachable` — what each thread's `in_ruby` says about the lock.
* `disciplined_iff` — a call goes by the rule precisely when it is not made on
  a thread the user started; `gvlDiscipline_iff` says so of whole runs.
-/

namespace RuBLE.EnsureRuby

open Transition RubyContext

/-! ## Threads -/

/-- The threads on which the methods of the extension can run. -/
inductive ThreadId where
  /-- The thread that loaded the extension, and ran `Init_RuBLE`. -/
  | loader
  /-- The thread created by `RubyQueue::start`. -/
  | queue
  /-- A Ruby thread started by the user. -/
  | user (n : Nat)
  deriving DecidableEq, Repr

/-- The C++ frames that bear on the lock. -/
inductive Frame where
  /-- `rb_thread_call_without_gvl` around `RubyQueue::loop`. -/
  | withoutGvl
  /-- `rb_thread_call_with_gvl` around a queue item. -/
  | item
  /-- `ensure_ruby` that called its function itself. -/
  | ensureDirect
  /-- `ensure_ruby` that went through `rb_thread_call_with_gvl`. -/
  | ensureWithGvl
  deriving DecidableEq, Repr

/-- One thread: its `thread_local in_ruby` and its frames, innermost first. -/
structure Thread where
  alive : Bool := false
  inRuby : InRuby := {}
  frames : List Frame := []
  deriving DecidableEq, Repr

/-- With these frames the thread is in Ruby code, and must hold the lock to
execute; otherwise it is in a region that gave the lock up. -/
def wantsGvl : List Frame → Bool
  | [] => true
  | .withoutGvl :: _ => false
  | .item :: _ => true
  | .ensureWithGvl :: _ => true
  | .ensureDirect :: fs => wantsGvl fs

/-- The threads and the holder of the lock. -/
structure State where
  initialised : Bool
  gvl : Option ThreadId
  threads : ThreadId → Thread

/-- Ruby runs one thread, which is about to load the extension. -/
def start : State where
  initialised := false
  gvl := some .loader
  threads t := if t = .loader then { alive := true } else {}

namespace State

/-- The thread executes: it is alive and not waiting for the lock. -/
def running (s : State) (t : ThreadId) : Bool :=
  (s.threads t).alive && (!wantsGvl (s.threads t).frames || decide (s.gvl = some t))

/-- The thread can reach an `ensure_ruby` call: the extension is loaded, and the
queue thread is past `RubyQueue::run`, which makes no such call itself. -/
def canEnsure (s : State) (t : ThreadId) : Bool :=
  s.initialised && s.running t && (t != .queue || (s.threads t).frames != [])

/-- Replace one thread. -/
def setThread (s : State) (t : ThreadId) (th : Thread) : State :=
  { s with threads := Function.update s.threads t th }

@[simp] theorem setThread_self (s : State) (t : ThreadId) (th : Thread) :
    (s.setThread t th).threads t = th := by simp [setThread]

@[simp] theorem setThread_of_ne (s : State) {t u : ThreadId} (th : Thread) (h : u ≠ t) :
    (s.setThread t th).threads u = s.threads u := by simp [setThread, h]

@[simp] theorem setThread_gvl (s : State) (t : ThreadId) (th : Thread) :
    (s.setThread t th).gvl = s.gvl := rfl

@[simp] theorem setThread_initialised (s : State) (t : ThreadId) (th : Thread) :
    (s.setThread t th).initialised = s.initialised := rfl

/-- Enter a frame that holds an `InRubyGuard`, with the lock just obtained. -/
def enterGuarded (s : State) (t : ThreadId) (f : Frame) : State :=
  { s.setThread t { s.threads t with
      inRuby := ⟨(s.threads t).inRuby.useCount + 1⟩
      frames := f :: (s.threads t).frames } with gvl := some t }

/-- Leave such a frame for those below it: the guard goes, then the lock. -/
def leaveGuarded (s : State) (t : ThreadId) (rest : List Frame) : State :=
  { s.setThread t { s.threads t with
      inRuby := ⟨(s.threads t).inRuby.useCount - 1⟩
      frames := rest } with gvl := none }

end State

/-! ## Steps -/

/-- The use count `Init_RuBLE` leaves in its thread's `in_ruby`. -/
def mainThreadUseCount : UInt64 :=
  ((contextSystem.run (mainThreadInit 0)).map (fun s => s.useCount 0)).getD 0

/-- One step of one thread, or of Ruby's scheduler. -/
inductive Action where
  /-- `Init_RuBLE`, which also starts the queue thread. -/
  | initRuBLE
  /-- Ruby code starts a thread. -/
  | createUser (n : Nat)
  /-- A thread of the user ends. -/
  | exitUser (n : Nat)
  /-- A thread that waits for the lock gets it. -/
  | acquireGvl (t : ThreadId)
  /-- The holder hands the lock over: a time slice ends, or Ruby code blocks. -/
  | yieldGvl (t : ThreadId)
  /-- `RubyQueue::run` calls `rb_thread_call_without_gvl`. -/
  | enterLoop
  /-- `RubyQueue::loop` returns. -/
  | leaveLoop
  /-- `RubyQueue::loop` hands an item to `rb_thread_call_with_gvl`. -/
  | beginItem
  /-- The item returns, or throws out of the loop. -/
  | endItem (threw : Bool)
  /-- A call of `ensure_ruby`. -/
  | ensureRuby (t : ThreadId)
  /-- The innermost `ensure_ruby` returns, or is left by an exception. -/
  | ensureReturn (t : ThreadId)
  deriving DecidableEq, Repr

/-- `ensure_ruby`, up to the point where its function starts.  Ruby aborts the
process when `rb_thread_call_with_gvl` is called by the holder of the lock. -/
def ensureRuby (s : State) (t : ThreadId) : Option State :=
  if (s.threads t).inRuby.state then
    some (s.setThread t { s.threads t with frames := .ensureDirect :: (s.threads t).frames })
  else if s.gvl = some t then none
  else if s.gvl = none then some (s.enterGuarded t .ensureWithGvl)
  else none

/-- One step; `none` when the thread cannot take it. -/
def step (s : State) : Action → Option State
  | .initRuBLE =>
      if s.initialised = false ∧ s.gvl = some .loader then
        some { (s.setThread .loader { s.threads .loader with inRuby := ⟨mainThreadUseCount⟩ }).setThread
          .queue { alive := true } with initialised := true }
      else none
  | .createUser n =>
      if (s.threads (.user n)).alive = false ∧ s.gvl.isSome then
        some (s.setThread (.user n) { alive := true })
      else none
  | .exitUser n =>
      if s.gvl = some (.user n) ∧ (s.threads (.user n)).frames = [] then
        some { s.setThread (.user n) {} with gvl := none }
      else none
  | .acquireGvl t =>
      if s.gvl = none ∧ (s.threads t).alive ∧ wantsGvl (s.threads t).frames then
        some { s with gvl := some t }
      else none
  | .yieldGvl t => if s.gvl = some t then some { s with gvl := none } else none
  | .enterLoop =>
      if s.gvl = some .queue ∧ (s.threads .queue).frames = [] then
        some { s.setThread .queue { s.threads .queue with frames := [.withoutGvl] } with gvl := none }
      else none
  | .leaveLoop =>
      if (s.threads .queue).frames = [.withoutGvl] then some (s.setThread .queue {}) else none
  | .beginItem =>
      if (s.threads .queue).frames = [.withoutGvl] ∧ s.gvl = none then
        some (s.enterGuarded .queue .item)
      else none
  | .endItem threw =>
      match (s.threads .queue).frames with
      | .item :: rest =>
          if s.gvl = some .queue then
            -- an exception unwinds the loop and ends the thread
            if threw then some { s.setThread .queue {} with gvl := none }
            else some (s.leaveGuarded .queue rest)
          else none
      | _ => none
  | .ensureRuby t => if s.canEnsure t then ensureRuby s t else none
  | .ensureReturn t =>
      if s.running t then
        match (s.threads t).frames with
        | .ensureDirect :: rest => some (s.setThread t { s.threads t with frames := rest })
        | .ensureWithGvl :: rest => some (s.leaveGuarded t rest)
        | _ => none
      else none

/-- The system of all interleavings. -/
def gvlSystem : System State Action := ⟨start, step⟩

/-! ## The rule -/

/-- A call of `ensure_ruby` on `t` in this state goes by the rule: it runs its
function directly only when `t` holds the lock, and calls
`rb_thread_call_with_gvl` only when `t` does not. -/
def Disciplined (s : State) (t : ThreadId) : Prop :=
  if (s.threads t).inRuby.state then s.gvl = some t else s.gvl ≠ some t

instance (s : State) (t : ThreadId) : Decidable (Disciplined s t) := by
  unfold Disciplined
  infer_instance

/-- Every `ensure_ruby` call of the run goes by the rule. -/
def GvlDiscipline (as : List Action) : Prop :=
  gvlSystem.Meets (fun s a => ∀ t, a = .ensureRuby t → s.canEnsure t = true → Disciplined s t)
    start as

/-- No `ensure_ruby` call of the run is made on a thread the user started. -/
def NoUserCall (as : List Action) : Prop :=
  gvlSystem.Meets (fun s a => ∀ t, a = .ensureRuby t → s.canEnsure t = true → ∀ n, t ≠ .user n)
    start as

/-! ## The invariant -/

/-- The frames the queue thread can have, with the use count that goes with them. -/
inductive QueueStack : List Frame → UInt64 → Prop
  | idle : QueueStack [] 0
  | loop : QueueStack [.withoutGvl] 0
  | item : QueueStack [.item, .withoutGvl] 1
  | ensure : QueueStack [.ensureWithGvl, .withoutGvl] 1
  | direct {fs : List Frame} : QueueStack fs 1 → QueueStack (.ensureDirect :: fs) 1

/-- What holds of the threads in every reachable state. -/
structure Inv (s : State) : Prop where
  /-- The loading thread keeps its guard, and stays in Ruby code. -/
  loader : (s.initialised = true → 0 < (s.threads .loader).inRuby.useCount) ∧
    ∀ f ∈ (s.threads .loader).frames, f = .ensureDirect
  /-- The count of the queue thread mirrors its frames. -/
  queue : QueueStack (s.threads .queue).frames (s.threads .queue).inRuby.useCount
  /-- No guard is ever made on a thread of the user. -/
  user : ∀ n, (s.threads (.user n)).inRuby.useCount = 0 ∧ (s.threads (.user n)).frames = []
  /-- The holder of the lock is in Ruby code. -/
  holder : ∀ t, s.gvl = some t → wantsGvl (s.threads t).frames = true

theorem QueueStack.count_eq_zero {fs : List Frame} {n : UInt64} (h : QueueStack fs n) (hn : n = 0) :
    fs = [] ∨ fs = [.withoutGvl] := by
  cases h with
  | idle => exact Or.inl rfl
  | loop => exact Or.inr rfl
  | item => exact absurd hn (by decide)
  | ensure => exact absurd hn (by decide)
  | direct _ => exact absurd hn (by decide)

theorem QueueStack.wantsGvl_of_pos {fs : List Frame} {n : UInt64} (h : QueueStack fs n)
    (hn : 0 < n) : wantsGvl fs = true := by
  induction h with
  | idle => rfl
  | loop => exact absurd hn (by decide)
  | item => rfl
  | ensure => rfl
  | direct _ ih => exact ih hn

theorem QueueStack.eq_one_of_pos {fs : List Frame} {n : UInt64} (h : QueueStack fs n)
    (hn : 0 < n) : n = 1 := by
  cases h with
  | idle => exact absurd hn (by decide)
  | loop => exact absurd hn (by decide)
  | item => rfl
  | ensure => rfl
  | direct _ => rfl

/-- Frames of direct calls only leave a thread in Ruby code. -/
theorem wantsGvl_of_direct {fs : List Frame} (h : ∀ f ∈ fs, f = Frame.ensureDirect) :
    wantsGvl fs = true := by
  induction fs with
  | nil => rfl
  | cons f fs ih =>
      obtain rfl := h f (by simp)
      exact ih fun g hg => h g (by simp [hg])

theorem state_eq_true_iff (r : InRuby) : r.state = true ↔ 0 < r.useCount := by simp [InRuby.state]

theorem inv_start : Inv start where
  loader := ⟨by simp [start], by simp [start]⟩
  queue := by
    show QueueStack [] 0
    exact .idle
  user n := by simp [start]
  holder t ht := by
    obtain rfl : ThreadId.loader = t := by simpa [start] using ht
    rfl

/-! ### Kept by each kind of update -/

theorem Inv.setGvl {s : State} (h : Inv s) {g : Option ThreadId}
    (hg : ∀ t, g = some t → wantsGvl (s.threads t).frames = true) : Inv { s with gvl := g } :=
  ⟨h.loader, h.queue, h.user, hg⟩

theorem Inv.dropGvl {s : State} (h : Inv s) : Inv { s with gvl := none } :=
  h.setGvl fun _ ht => by cases ht

theorem Inv.setLoader {s : State} (h : Inv s) {r : Thread}
    (hcount : s.initialised = true → 0 < r.inRuby.useCount)
    (hframes : ∀ f ∈ r.frames, f = .ensureDirect) : Inv (s.setThread .loader r) where
  loader := by simpa using ⟨hcount, hframes⟩
  queue := by simpa using h.queue
  user n := by simpa using h.user n
  holder t ht := by
    by_cases hl : t = .loader
    · subst hl
      simpa using wantsGvl_of_direct hframes
    · simpa [hl] using h.holder t ht

theorem Inv.setQueue {s : State} (h : Inv s) {r : Thread}
    (hstack : QueueStack r.frames r.inRuby.useCount)
    (hholder : s.gvl = some .queue → wantsGvl r.frames = true) : Inv (s.setThread .queue r) where
  loader := by simpa using h.loader
  queue := by simpa using hstack
  user n := by simpa using h.user n
  holder t ht := by
    by_cases hq : t = .queue
    · subst hq
      simpa using hholder ht
    · simpa [hq] using h.holder t ht

theorem Inv.setUser {s : State} (h : Inv s) {n : Nat} {r : Thread}
    (hcount : r.inRuby.useCount = 0) (hframes : r.frames = []) :
    Inv (s.setThread (.user n) r) where
  loader := by simpa using h.loader
  queue := by simpa using h.queue
  user m := by
    by_cases hm : m = n
    · subst hm
      simpa using ⟨hcount, hframes⟩
    · simpa [hm] using h.user m
  holder t ht := by
    by_cases hu : t = .user n
    · subst hu
      simp [hframes, wantsGvl]
    · simpa [hu] using h.holder t ht

/-- The queue thread obtains the lock and a guard, from the bare loop. -/
theorem Inv.enterGuarded_queue {s : State} (h : Inv s) {f : Frame}
    (hf : f = .item ∨ f = .ensureWithGvl) (hg : s.gvl = none)
    (hframes : (s.threads .queue).frames = [.withoutGvl]) : Inv (s.enterGuarded .queue f) := by
  have hstack := h.queue
  rw [hframes] at hstack
  have hzero : (s.threads .queue).inRuby.useCount = 0 := by
    generalize (s.threads .queue).inRuby.useCount = n at hstack
    cases hstack
    rfl
  refine (h.setQueue ?_ (by simp [hg])).setGvl ?_
  · simp only [hframes, hzero]
    rcases hf with rfl | rfl
    · exact .item
    · exact .ensure
  · intro t ht
    obtain rfl : ThreadId.queue = t := by simpa using ht
    rcases hf with rfl | rfl <;> simp [wantsGvl]

/-- The queue thread gives the guard and the lock back. -/
theorem Inv.leaveGuarded_queue {s : State} (h : Inv s) {f : Frame} {rest : List Frame}
    (hf : f = .item ∨ f = .ensureWithGvl) (hframes : (s.threads .queue).frames = f :: rest) :
    Inv (s.leaveGuarded .queue rest) := by
  have hstack := h.queue
  rw [hframes] at hstack
  have hrest : rest = [.withoutGvl] ∧ (s.threads .queue).inRuby.useCount = 1 := by
    generalize (s.threads .queue).inRuby.useCount = n at hstack
    rcases hf with rfl | rfl <;> cases hstack <;> exact ⟨rfl, rfl⟩
  have hset : Inv { s with gvl := none } := h.dropGvl
  refine Inv.dropGvl (s := { s with gvl := none }.setThread .queue _) (hset.setQueue ?_ (by simp))
  simp only [hrest.1, hrest.2]
  exact .loop

/-! ### The step lemma -/

theorem running_of_canEnsure {s : State} {t : ThreadId} (h : s.canEnsure t = true) :
    s.initialised = true ∧ (wantsGvl (s.threads t).frames = true → s.gvl = some t) ∧
      (t = .queue → (s.threads t).frames ≠ []) := by
  simp only [State.canEnsure, State.running, Bool.and_eq_true, Bool.or_eq_true,
    Bool.not_eq_true', decide_eq_true_eq, bne_iff_ne] at h
  obtain ⟨⟨hinit, -, hrun⟩, hq⟩ := h
  refine ⟨hinit, fun hw => ?_, fun ht => hq.resolve_left (not_not.2 ht)⟩
  rcases hrun with hrun | hrun
  · rw [hw] at hrun
    cases hrun
  · exact hrun

theorem inv_ensureRuby {s s' : State} {t : ThreadId} (h : Inv s) (hcan : s.canEnsure t = true)
    (hstep : ensureRuby s t = some s') : Inv s' := by
  obtain ⟨hinit, hrun, hqueue⟩ := running_of_canEnsure hcan
  unfold ensureRuby at hstep
  split at hstep
  · next hstate =>
      cases hstep
      rw [state_eq_true_iff] at hstate
      cases t with
      | loader =>
          refine h.setLoader h.loader.1 ?_
          simpa using h.loader.2
      | queue =>
          refine h.setQueue ?_ ?_
          · have hone := h.queue.eq_one_of_pos hstate
            simp only [hone]
            exact .direct (hone ▸ h.queue)
          · intro _
            exact h.queue.wantsGvl_of_pos hstate
      | user n =>
          rw [(h.user n).1] at hstate
          exact absurd hstate (by decide)
  · next hstate =>
      rw [state_eq_true_iff] at hstate
      split at hstep
      · cases hstep
      · next hnot =>
          split at hstep
          · next hnone =>
              cases hstep
              cases t with
              | loader => exact absurd (h.loader.1 hinit) hstate
              | queue =>
                  have hzero : (s.threads .queue).inRuby.useCount = 0 := by
                    by_contra hne
                    exact hstate (UInt64.pos_iff_ne_zero.2 hne)
                  have hframes := (h.queue.count_eq_zero hzero).resolve_left (hqueue rfl)
                  exact h.enterGuarded_queue (Or.inr rfl) hnone hframes
              | user n =>
                  have hwants : wantsGvl (s.threads (.user n)).frames = true := by
                    rw [(h.user n).2]
                    rfl
                  exact absurd (hrun hwants) hnot
          · cases hstep

theorem inv_ensureReturn {s s' : State} {t : ThreadId} (h : Inv s)
    (hstep : step s (.ensureReturn t) = some s') : Inv s' := by
  simp only [step] at hstep
  split at hstep
  · split at hstep
    · next rest hframes =>
        cases hstep
        cases t with
        | loader =>
            refine h.setLoader h.loader.1 fun f hf => h.loader.2 f ?_
            rw [hframes]
            exact List.mem_cons_of_mem _ hf
        | queue =>
            have hstack := h.queue
            rw [hframes] at hstack
            refine h.setQueue ?_ fun hg => ?_
            · generalize (s.threads .queue).inRuby.useCount = n at hstack
              cases hstack
              assumption
            · have hw := h.holder .queue hg
              rw [hframes] at hw
              exact hw
        | user n => exact absurd (h.user n).2 (by simp [hframes])
    · next rest hframes =>
        cases hstep
        cases t with
        | loader => exact absurd (h.loader.2 .ensureWithGvl (by simp [hframes])) (by decide)
        | queue => exact h.leaveGuarded_queue (Or.inr rfl) hframes
        | user n => exact absurd (h.user n).2 (by simp [hframes])
    · cases hstep
  · cases hstep

theorem inv_initRuBLE {s s' : State} (h : Inv s) (hstep : step s .initRuBLE = some s') :
    Inv s' := by
  simp only [step] at hstep
  split at hstep
  · next hc =>
      cases hstep
      have hq := h.setQueue (r := { alive := true }) .idle (fun _ => rfl)
      have hl := hq.setLoader (r := { s.threads .loader with inRuby := ⟨mainThreadUseCount⟩ })
        (fun _ => show 0 < mainThreadUseCount by decide) h.loader.2
      exact ⟨⟨fun _ => by simpa using show 0 < mainThreadUseCount by decide,
        by simpa using h.loader.2⟩, by simpa using hl.queue,
        fun n => by simpa using hl.user n, fun t ht => by
          obtain rfl : ThreadId.loader = t := by simpa [hc.2] using ht
          simpa using wantsGvl_of_direct h.loader.2⟩
  · cases hstep

/-- The queue thread gives the lock up when it enters the loop. -/
theorem inv_enterLoop {s s' : State} (h : Inv s) (hstep : step s .enterLoop = some s') :
    Inv s' := by
  simp only [step] at hstep
  split at hstep
  · next hc =>
      cases hstep
      have hstack := h.queue
      rw [hc.2] at hstack
      refine Inv.dropGvl (s := { s with gvl := none }.setThread .queue _)
        (h.dropGvl.setQueue ?_ (by simp))
      generalize (s.threads .queue).inRuby.useCount = n at hstack
      cases hstack
      exact .loop
  · cases hstep

/-- **The step lemma.**  Each step of each thread keeps the invariant. -/
theorem inv_step {s s' : State} {a : Action} (h : Inv s) (hstep : step s a = some s') : Inv s' := by
  cases a with
  | initRuBLE => exact inv_initRuBLE h hstep
  | createUser n =>
      simp only [step] at hstep
      split at hstep
      · cases hstep
        exact h.setUser rfl rfl
      · cases hstep
  | exitUser n =>
      simp only [step] at hstep
      split at hstep
      · cases hstep
        exact (h.setUser rfl rfl).dropGvl
      · cases hstep
  | acquireGvl t =>
      simp only [step] at hstep
      split at hstep
      · next hc =>
          cases hstep
          refine h.setGvl fun u hu => ?_
          obtain rfl : t = u := by simpa using hu
          exact hc.2.2
      · cases hstep
  | yieldGvl t =>
      simp only [step] at hstep
      split at hstep
      · cases hstep
        exact h.dropGvl
      · cases hstep
  | enterLoop => exact inv_enterLoop h hstep
  | leaveLoop =>
      simp only [step] at hstep
      split at hstep
      · cases hstep
        exact h.setQueue .idle fun _ => rfl
      · cases hstep
  | beginItem =>
      simp only [step] at hstep
      split at hstep
      · next hc =>
          cases hstep
          exact h.enterGuarded_queue (Or.inl rfl) hc.2 hc.1
      · cases hstep
  | endItem threw =>
      simp only [step] at hstep
      split at hstep
      · next rest hframes =>
          split at hstep
          · split at hstep
            · cases hstep
              exact (h.setQueue .idle fun _ => rfl).dropGvl
            · cases hstep
              exact h.leaveGuarded_queue (Or.inl rfl) hframes
          · cases hstep
      · cases hstep
  | ensureRuby t =>
      simp only [step] at hstep
      split at hstep
      · next hcan => exact inv_ensureRuby h hcan hstep
      · cases hstep
  | ensureReturn t => exact inv_ensureReturn h hstep

theorem inv_of_reachable {s : State} (h : gvlSystem.Reachable s) : Inv s :=
  System.invariant (S := gvlSystem) inv_start (fun _ _ _ hs hstep => inv_step hs hstep) h

/-! ## When the calls go by the rule -/

/-- **One call.**  In any state, a call of `ensure_ruby` goes by the rule
precisely when its thread is not one the user started: those threads hold the
lock whenever they execute, and their `in_ruby` never says so. -/
theorem disciplined_iff {s : State} (h : Inv s) {t : ThreadId} (hcan : s.canEnsure t = true) :
    Disciplined s t ↔ ∀ n, t ≠ .user n := by
  obtain ⟨hinit, hrun, hqueue⟩ := running_of_canEnsure hcan
  unfold Disciplined
  cases t with
  | loader =>
      rw [if_pos ((state_eq_true_iff _).2 (h.loader.1 hinit))]
      exact iff_of_true (hrun (wantsGvl_of_direct h.loader.2)) (by simp)
  | queue =>
      refine iff_of_true ?_ (by simp)
      split
      · next hstate =>
          exact hrun (h.queue.wantsGvl_of_pos ((state_eq_true_iff _).1 hstate))
      · next hstate =>
          have hzero : (s.threads .queue).inRuby.useCount = 0 := by
            by_contra hne
            exact hstate ((state_eq_true_iff _).2 (UInt64.pos_iff_ne_zero.2 hne))
          have hframes := (h.queue.count_eq_zero hzero).resolve_left (hqueue rfl)
          intro hg
          have hw := h.holder .queue hg
          rw [hframes] at hw
          cases hw
  | user n =>
      have hstate : ¬ (s.threads (.user n)).inRuby.state = true := by
        rw [state_eq_true_iff, (h.user n).1]
        decide
      have hwants : wantsGvl (s.threads (.user n)).frames = true := by
        rw [(h.user n).2]
        rfl
      rw [if_neg hstate]
      exact iff_of_false (not_not.2 (hrun hwants)) (fun hne => hne n rfl)

/-- **Whole runs.**  Every `ensure_ruby` call of a run goes by the rule
precisely when none of them is made on a thread the user started, whatever the
nesting of calls and items and the hand-overs of the lock in between. -/
theorem gvlDiscipline_iff (as : List Action) : GvlDiscipline as ↔ NoUserCall as := by
  refine System.meets_congr (fun s a hs => ?_) as gvlSystem.reachable_init
  refine forall_congr' fun t => imp_congr_right fun _ => imp_congr_right fun hcan => ?_
  exact disciplined_iff (inv_of_reachable hs) hcan

/-- A thread of the user calls a method that ends in `ensure_ruby`. -/
def userThreadCall : List Action :=
  [.initRuBLE, .createUser 0, .yieldGvl .loader, .acquireGvl (.user 0), .ensureRuby (.user 0)]

/-- The call on the user's thread asks for the lock that the thread holds. -/
theorem not_gvlDiscipline_userThreadCall : ¬ GvlDiscipline userThreadCall := by
  rw [gvlDiscipline_iff]
  intro h
  obtain ⟨-, hcall⟩ := System.meets_concat.1 (show gvlSystem.Meets _ start
    (userThreadCall.dropLast ++ [.ensureRuby (.user 0)]) from h)
  have hcan : (gvlSystem.runFrom start userThreadCall.dropLast).map
      (fun s => s.canEnsure (.user 0)) = some true := by decide
  obtain ⟨s, hrun, hcan⟩ := Option.map_eq_some_iff.1 hcan
  exact hcall s hrun (.user 0) rfl hcan 0 rfl

end RuBLE.EnsureRuby
