import Mathlib
import RuBLE.Library.System
import RuBLE.Library.Pool

/-!
# The callback queue

The model of `management/RubyQueue.cpp`: one queue object, the thread that runs
`RubyQueue::loop`, and any number of calls of the other member functions, each
on a thread of its own.  Everything between two accesses to shared data is one
step; a section under `_mtx` is one step, because `_q` is only touched there.

* `RubyQueue` — the members, where the loop thread stands, and a record of
  which items were appended, taken and executed.
* `loopStep`, `callStep` — the code of the loop and of the calls.
* `queueSystem` — all interleavings.
* `LoopEffect` and `loopStep_effect` — everything a step of the loop can do.
* `Effect` and `callStep_effect` — everything a step of a call can do to the
  queue, and what the call owes it before and after.
* `thread_step` — where a call stands after a step of the system.
* `queue_invariant` — the invariant rule over calls and loop.

The semaphore is read as uncapped.  What the queue prints is left out, and so
are `_thread_id`, which nothing reads, and the delivery of `rb_thread_kill`.
-/

namespace RuBLE.CallbackQueue

open Transition

/-- A call of a member function; calls are numbered in the order they begin. -/
abbrev CallId := Nat

/-- An item of the queue is named by the call of `push` that brought it. -/
abbrev Item := CallId

/-! ## The queue object and its loop -/

/-- Where the queue thread stands in `RubyQueue::loop`. -/
inductive LoopPc where
  /-- `rb_thread_create` has not been called. -/
  | notCreated
  /-- `std::lock_guard lck(_run_mtx)`. -/
  | lockRunMtx
  /-- `_startup_latch.release()`. -/
  | releaseLatch
  /-- `_running.test_and_set()`. -/
  | setRunning
  /-- `while (!_stopping.test())`. -/
  | testStopping
  /-- `_sem.acquire()`. -/
  | acquire
  /-- `if (_stopping.test()) break`. -/
  | testBreak
  /-- `item = std::move(_q->back()); _q->pop_back()`, under `_mtx`. -/
  | pop
  /-- `rb_thread_call_with_gvl`, up to the call of the item. -/
  | callWithGvl (item : Item)
  /-- Inside the item. -/
  | executing (item : Item)
  /-- `_running.clear()`. -/
  | clearRunning
  /-- The end of `lck`, reached by the end of the function or by an exception. -/
  | unlock (threw : Bool)
  /-- `loop` has been left. -/
  | exited (threw : Bool)
  deriving DecidableEq, Repr

/-- The members of `RubyQueue`, its loop thread, and what has happened to the
items so far. -/
structure RubyQueue where
  /-- `_q`, from front to back. -/
  q : List Item := []
  /-- The count of `_sem`. -/
  sem : Nat := 0
  /-- The count of `_startup_latch`. -/
  startupLatch : Nat := 0
  /-- `_run_mtx` is held exclusively. -/
  runMtxExclusive : Bool := false
  /-- How many hold `_run_mtx` shared. -/
  runMtxShared : Nat := 0
  running : Bool := false
  starting : Bool := false
  stopping : Bool := false
  /-- `_rb_thread` holds a thread. -/
  rbThread : Bool := false
  /-- `rb_thread_kill` has been called on it. -/
  killed : Bool := false
  /-- Where the loop stands. -/
  loop : LoopPc := .notCreated
  /-- The items appended to `_q`, in that order. -/
  appended : List Item := []
  /-- The items the loop has taken from `_q`, in that order. -/
  taken : List Item := []
  /-- The items whose execution has begun, in that order. -/
  executed : List Item := []
  deriving DecidableEq, Repr

/-- One step of `RubyQueue::loop`; `threw` is how the item ends, when one is
being executed.  `none` means that the step blocks, or that there is none.
Reading `back()` of an empty deque is undefined, so it is no step either. -/
def loopStep (rq : RubyQueue) (threw : Bool) : Option RubyQueue :=
  match rq.loop with
  | .notCreated => none
  | .lockRunMtx =>
      if rq.runMtxExclusive = false ∧ rq.runMtxShared = 0 then
        some { rq with runMtxExclusive := true, loop := .releaseLatch }
      else none
  | .releaseLatch => some { rq with startupLatch := rq.startupLatch + 1, loop := .setRunning }
  | .setRunning => some { rq with running := true, loop := .testStopping }
  | .testStopping => some { rq with loop := if rq.stopping then .clearRunning else .acquire }
  | .acquire => if 0 < rq.sem then some { rq with sem := rq.sem - 1, loop := .testBreak } else none
  | .testBreak => some { rq with loop := if rq.stopping then .clearRunning else .pop }
  | .pop =>
      match rq.q.getLast? with
      | none => none
      | some item =>
          some { rq with q := rq.q.dropLast, taken := rq.taken ++ [item], loop := .callWithGvl item }
  | .callWithGvl item =>
      some { rq with executed := rq.executed ++ [item], loop := .executing item }
  -- an exception of the item unwinds to the end of `lck`, past `_running.clear()`
  | .executing _ => some { rq with loop := if threw then .unlock true else .testStopping }
  | .clearRunning => some { rq with running := false, loop := .unlock false }
  | .unlock threw => some { rq with runMtxExclusive := false, loop := .exited threw }
  | .exited _ => none

/-! ## The calls -/

/-- What a step does not decide itself. -/
structure Env where
  /-- A `try_lock_shared` or `try_acquire` fails although it could succeed. -/
  spurious : Bool := false
  /-- The clock of `wait_until` is past the deadline. -/
  timedOut : Bool := false
  deriving DecidableEq, Repr

/-- A step made inside a nested call; `f` embeds the points of that call. -/
def inside {κ κ' : Type} (f : κ → κ') (r : Option (RubyQueue × κ)) : Option (RubyQueue × κ') :=
  r.map fun r => (r.1, f r.2)

/-- Where a call of `push` stands. -/
inductive PushPc where
  /-- `_stopping.test()`. -/
  | test
  /-- `_q->emplace_back(std::move(fn))`, under `_mtx`. -/
  | append
  /-- `_sem.release()`. -/
  | release
  | done
  /-- Returned without appending. -/
  | refused
  deriving DecidableEq, Repr

/-- `RubyQueue::push`, the `i`th call; `debug` is the build's `DEBUG`. -/
def pushStep (debug : Bool) (i : CallId) (rq : RubyQueue) : PushPc → Option (RubyQueue × PushPc)
  -- a queue that is stopping refuses the item only in a `DEBUG` build
  | .test => some (rq, if rq.stopping && debug then .refused else .append)
  | .append => some ({ rq with q := rq.q ++ [i], appended := rq.appended ++ [i] }, .release)
  | .release => some ({ rq with sem := rq.sem + 1 }, .done)
  | .done => none
  | .refused => none

/-- Where a call of `stop` stands. -/
inductive StopPc where
  /-- `_stopping.test_and_set()`. -/
  | testAndSet
  /-- `_sem.release()`. -/
  | release
  | done
  deriving DecidableEq, Repr

/-- `RubyQueue::stop`. -/
def stopStep (rq : RubyQueue) : StopPc → Option (RubyQueue × StopPc)
  | .testAndSet =>
      if rq.stopping then some (rq, .done) else some ({ rq with stopping := true }, .release)
  | .release => some ({ rq with sem := rq.sem + 1 }, .done)
  | .done => none

/-- Where a call of `running` stands. -/
inductive RunningPc where
  /-- `_running.test()`. -/
  | test
  /-- `lck.try_lock()`. -/
  | tryLock
  /-- `_running.clear()`. -/
  | clear
  /-- The end of `lck`, which is held. -/
  | unlock
  | returned (b : Bool)
  deriving DecidableEq, Repr

/-- `RubyQueue::running`. -/
def runningStep (env : Env) (rq : RubyQueue) : RunningPc → Option (RubyQueue × RunningPc)
  | .test => some (rq, if rq.running then .tryLock else .returned false)
  | .tryLock =>
      if rq.runMtxExclusive || env.spurious then some (rq, .returned true)
      else some ({ rq with runMtxShared := rq.runMtxShared + 1 }, .clear)
  | .clear => some ({ rq with running := false }, .unlock)
  | .unlock => some ({ rq with runMtxShared := rq.runMtxShared - 1 }, .returned false)
  | .returned _ => none

/-- Where a call of `stopped` stands. -/
inductive StoppedPc where
  /-- `_stopping.test()`. -/
  | testStopping
  /-- Inside `running()`. -/
  | running (pc : RunningPc)
  | returned (b : Bool)
  deriving DecidableEq, Repr

/-- `RubyQueue::stopped`. -/
def stoppedStep (env : Env) (rq : RubyQueue) : StoppedPc → Option (RubyQueue × StoppedPc)
  | .testStopping => some (rq, if rq.stopping then .running .test else .returned false)
  | .running (.returned b) => some (rq, .returned (!b))
  | .running pc => inside .running (runningStep env rq pc)
  | .returned _ => none

/-- Where a call of `start` stands. -/
inductive StartPc where
  /-- `_starting.test_and_set()`. -/
  | testAndSet
  /-- `rb_thread_create(runThread, this)`. -/
  | create
  /-- `_rb_thread.store(tid)`. -/
  | store
  | done
  deriving DecidableEq, Repr

/-- `RubyQueue::start`.  The new thread runs `RubyQueue::run`, which calls
`loop`.  There is one queue thread to model: `create_notCreated` shows that no
call ever comes to create a second one. -/
def startStep (rq : RubyQueue) : StartPc → Option (RubyQueue × StartPc)
  | .testAndSet =>
      if rq.starting then some (rq, .done) else some ({ rq with starting := true }, .create)
  | .create => if rq.loop = .notCreated then some ({ rq with loop := .lockRunMtx }, .store) else none
  | .store => some ({ rq with rbThread := true }, .done)
  | .done => none

/-- Where a call of `kill` stands. -/
inductive KillPc where
  /-- Inside `stop()`. -/
  | stop (pc : StopPc)
  /-- `if (rb_thread().test()) rb_thread_kill(rb_thread())`. -/
  | threadKill
  | done
  deriving DecidableEq, Repr

/-- `RubyQueue::kill`. -/
def killStep (rq : RubyQueue) : KillPc → Option (RubyQueue × KillPc)
  | .stop .done => some (rq, .threadKill)
  | .stop pc => inside .stop (stopStep rq pc)
  | .threadKill => some (if rq.rbThread then { rq with killed := true } else rq, .done)
  | .done => none

/-- Where a call of `ensure_started` stands. -/
inductive EnsureStartedPc where
  /-- `_startup_latch.try_acquire()`, polled by `wait_until`. -/
  | tryAcquire
  /-- `wait_until` reads the clock. -/
  | checkTime (acquired : Bool)
  /-- Inside `kill()`. -/
  | kill (pc : KillPc)
  | returned
  | threw
  deriving DecidableEq, Repr

/-- `RubyQueue::ensure_started`. -/
def ensureStartedStep (env : Env) (rq : RubyQueue) :
    EnsureStartedPc → Option (RubyQueue × EnsureStartedPc)
  | .tryAcquire =>
      if rq.startupLatch = 0 || env.spurious then some (rq, .checkTime false)
      else some ({ rq with startupLatch := rq.startupLatch - 1 }, .checkTime true)
  | .checkTime true => some (rq, .returned)
  | .checkTime false => some (rq, if env.timedOut then .kill (.stop .testAndSet) else .tryAcquire)
  | .kill .done => some (rq, .threw)
  | .kill pc => inside .kill (killStep rq pc)
  | .returned => none
  | .threw => none

/-- Where a call of `stop_on_exit` stands. -/
inductive StopOnExitPc where
  /-- Inside `rq->stop()`. -/
  | stop (pc : StopPc)
  /-- Inside `rq->stopped()`. -/
  | stopped (pc : StoppedPc)
  /-- Inside `rq->running()`, polled by `wait_until`. -/
  | poll (pc : RunningPc)
  /-- `wait_until` reads the clock. -/
  | checkTime (stillRunning : Bool)
  /-- Inside `rq->kill()`. -/
  | kill (pc : KillPc)
  | returned
  deriving DecidableEq, Repr

/-- `RubyQueue::stop_on_exit`. -/
def stopOnExitStep (env : Env) (rq : RubyQueue) :
    StopOnExitPc → Option (RubyQueue × StopOnExitPc)
  | .stop .done => some (rq, .stopped .testStopping)
  | .stop pc => inside .stop (stopStep rq pc)
  | .stopped (.returned b) => some (rq, if b then .returned else .poll .test)
  | .stopped pc => inside .stopped (stoppedStep env rq pc)
  | .poll (.returned b) => some (rq, .checkTime b)
  | .poll pc => inside .poll (runningStep env rq pc)
  | .checkTime false => some (rq, .returned)
  | .checkTime true => some (rq, if env.timedOut then .kill (.stop .testAndSet) else .poll .test)
  | .kill .done => some (rq, .returned)
  | .kill pc => inside .kill (killStep rq pc)
  | .returned => none

/-- A call of a member function, at the point it has reached. -/
inductive Call where
  | push (pc : PushPc)
  | stop (pc : StopPc)
  | running (pc : RunningPc)
  | stopped (pc : StoppedPc)
  | start (pc : StartPc)
  | kill (pc : KillPc)
  | ensureStarted (pc : EnsureStartedPc)
  | stopOnExit (pc : StopOnExitPc)
  deriving DecidableEq, Repr

/-- One step of the `i`th call. -/
def callStep (debug : Bool) (i : CallId) (env : Env) (rq : RubyQueue) :
    Call → Option (RubyQueue × Call)
  | .push pc => inside .push (pushStep debug i rq pc)
  | .stop pc => inside .stop (stopStep rq pc)
  | .running pc => inside .running (runningStep env rq pc)
  | .stopped pc => inside .stopped (stoppedStep env rq pc)
  | .start pc => inside .start (startStep rq pc)
  | .kill pc => inside .kill (killStep rq pc)
  | .ensureStarted pc => inside .ensureStarted (ensureStartedStep env rq pc)
  | .stopOnExit pc => inside .stopOnExit (stopOnExitStep env rq pc)

/-! ## All interleavings -/

/-- The member functions that can be called. -/
inductive Method where
  | push
  | stop
  | running
  | stopped
  | start
  | kill
  | ensureStarted
  | stopOnExit
  deriving DecidableEq, Repr

/-- A call that is about to begin. -/
def Method.entry : Method → Call
  | .push => .push .test
  | .stop => .stop .testAndSet
  | .running => .running .test
  | .stopped => .stopped .testStopping
  | .start => .start .testAndSet
  | .kill => .kill (.stop .testAndSet)
  | .ensureStarted => .ensureStarted .tryAcquire
  | .stopOnExit => .stopOnExit (.stop .testAndSet)

/-- Who moves, and what it finds that it does not decide. -/
inductive Action where
  /-- Some thread calls a member function. -/
  | call (m : Method)
  /-- A call makes a step. -/
  | step (i : CallId) (env : Env)
  /-- The loop makes a step. -/
  | loop (threw : Bool)
  deriving DecidableEq, Repr

/-- The queue and the calls on it. -/
abbrev State := Pool RubyQueue Call

/-- One step of the queue and the calls on it. -/
def step (debug : Bool) (s : State) : Action → Option State
  | .call m => some (s.spawn m.entry)
  | .step i env => s.stepAt (callStep debug i env) i
  | .loop threw => (loopStep s.shared threw).map fun rq => { s with shared := rq }

/-- Every interleaving of any calls with the steps of the loop, from a queue
that was just constructed. -/
def queueSystem (debug : Bool) : System State Action := ⟨⟨{}, []⟩, step debug⟩

/-! ## What the loop does to the queue -/

/-- `LoopEffect rq rq'`: everything one step of the loop can do, by where the
loop stands. -/
inductive LoopEffect (rq : RubyQueue) : RubyQueue → Prop
  | lock : rq.loop = .lockRunMtx → rq.runMtxExclusive = false → rq.runMtxShared = 0 →
      LoopEffect rq { rq with runMtxExclusive := true, loop := .releaseLatch }
  | releaseLatch : rq.loop = .releaseLatch →
      LoopEffect rq { rq with startupLatch := rq.startupLatch + 1, loop := .setRunning }
  | setRunning : rq.loop = .setRunning →
      LoopEffect rq { rq with running := true, loop := .testStopping }
  | goRound : rq.loop = .testStopping → rq.stopping = false →
      LoopEffect rq { rq with loop := .acquire }
  | leave : rq.loop = .testStopping → rq.stopping = true →
      LoopEffect rq { rq with loop := .clearRunning }
  | acquire : rq.loop = .acquire → 0 < rq.sem →
      LoopEffect rq { rq with sem := rq.sem - 1, loop := .testBreak }
  | goOn : rq.loop = .testBreak → rq.stopping = false → LoopEffect rq { rq with loop := .pop }
  | leaveEarly : rq.loop = .testBreak → rq.stopping = true →
      LoopEffect rq { rq with loop := .clearRunning }
  | pop (front : List Item) (item : Item) : rq.loop = .pop → rq.q = front ++ [item] →
      LoopEffect rq { rq with q := front, taken := rq.taken ++ [item], loop := .callWithGvl item }
  | begin (item : Item) : rq.loop = .callWithGvl item →
      LoopEffect rq { rq with executed := rq.executed ++ [item], loop := .executing item }
  | finish (item : Item) : rq.loop = .executing item →
      LoopEffect rq { rq with loop := .testStopping }
  | unwind (item : Item) : rq.loop = .executing item →
      LoopEffect rq { rq with loop := .unlock true }
  | clearRunning : rq.loop = .clearRunning →
      LoopEffect rq { rq with running := false, loop := .unlock false }
  | unlock (threw : Bool) : rq.loop = .unlock threw →
      LoopEffect rq { rq with runMtxExclusive := false, loop := .exited threw }

/-- **What a step of the loop does.** -/
theorem loopStep_effect {rq rq' : RubyQueue} {threw : Bool} (h : loopStep rq threw = some rq') :
    LoopEffect rq rq' := by
  unfold loopStep at h
  split at h
  · cases h
  · next hl =>
      split at h
      · next hfree => cases h; exact .lock hl hfree.1 hfree.2
      · cases h
  · next hl => cases h; exact .releaseLatch hl
  · next hl => cases h; exact .setRunning hl
  · next hl =>
      cases h
      split
      · next hs => exact .leave hl hs
      · next hs => exact .goRound hl (by simpa using hs)
  · next hl =>
      split at h
      · next hsem => cases h; exact .acquire hl hsem
      · cases h
  · next hl =>
      cases h
      split
      · next hs => exact .leaveEarly hl hs
      · next hs => exact .goOn hl (by simpa using hs)
  · next hl =>
      split at h
      · cases h
      · next item hlast =>
          cases h
          exact .pop rq.q.dropLast item hl (List.dropLast_append_getLast? item hlast).symm
  · next item hl => cases h; exact .begin item hl
  · next item hl =>
      cases threw <;> cases h
      · exact .finish item hl
      · exact .unwind item hl
  · next hl => cases h; exact .clearRunning hl
  · next threw' hl => cases h; exact .unlock threw' hl
  · cases h

/-! ## What a call does to the queue -/

/-- What a call owes the queue, or has done to it for good, where it stands. -/
structure Ledger where
  /-- Permits to release for an item it has appended. -/
  pushPermit : Nat := 0
  /-- Permits to release for a stop it has requested. -/
  stopPermit : Nat := 0
  /-- Shared locks on `_run_mtx` to give back. -/
  shared : Nat := 0
  /-- Threads to create, and to store the id of. -/
  creating : Nat := 0
  /-- It has appended its item. -/
  appended : Bool := false
  deriving DecidableEq, Repr

def PushPc.ledger : PushPc → Ledger
  | .release => { pushPermit := 1, appended := true }
  | .done => { appended := true }
  | .test | .append | .refused => {}

def StopPc.ledger : StopPc → Ledger
  | .release => { stopPermit := 1 }
  | .testAndSet | .done => {}

def RunningPc.ledger : RunningPc → Ledger
  | .clear | .unlock => { shared := 1 }
  | .test | .tryLock | .returned _ => {}

def StartPc.ledger : StartPc → Ledger
  | .create => { creating := 1 }
  | .testAndSet | .store | .done => {}

/-- The innermost member function a call is inside of. -/
inductive Inside where
  | push (pc : PushPc)
  | stop (pc : StopPc)
  | running (pc : RunningPc)
  | start (pc : StartPc)
  /-- In the code of a function that calls these, between two calls. -/
  | between
  deriving DecidableEq, Repr

def StoppedPc.inside : StoppedPc → Inside
  | .running pc => .running pc
  | .testStopping | .returned _ => .between

def KillPc.inside : KillPc → Inside
  | .stop pc => .stop pc
  | .threadKill | .done => .between

def EnsureStartedPc.inside : EnsureStartedPc → Inside
  | .kill pc => pc.inside
  | .tryAcquire | .checkTime _ | .returned | .threw => .between

def StopOnExitPc.inside : StopOnExitPc → Inside
  | .stop pc => .stop pc
  | .stopped pc => pc.inside
  | .poll pc => .running pc
  | .kill pc => pc.inside
  | .checkTime _ | .returned => .between

def Call.inside : Call → Inside
  | .push pc => .push pc
  | .stop pc => .stop pc
  | .running pc => .running pc
  | .stopped pc => pc.inside
  | .start pc => .start pc
  | .kill pc => pc.inside
  | .ensureStarted pc => pc.inside
  | .stopOnExit pc => pc.inside

def Inside.ledger : Inside → Ledger
  | .push pc => pc.ledger
  | .stop pc => pc.ledger
  | .running pc => pc.ledger
  | .start pc => pc.ledger
  | .between => {}

/-- What a call owes, whichever member function it is of. -/
def Call.ledger (c : Call) : Ledger := c.inside.ledger

/-- `Effect i rq l l' rq'`: everything one step of the `i`th call can do, from
the queue `rq` and the ledger `l` to `rq'` and `l'`. -/
inductive Effect (i : CallId) (rq : RubyQueue) : Ledger → Ledger → RubyQueue → Prop
  | quiet (l : Ledger) : Effect i rq l l rq
  | append : Effect i rq {} { pushPermit := 1, appended := true }
      { rq with q := rq.q ++ [i], appended := rq.appended ++ [i] }
  | releasePush : Effect i rq { pushPermit := 1, appended := true } { appended := true }
      { rq with sem := rq.sem + 1 }
  | requestStop : rq.stopping = false →
      Effect i rq {} { stopPermit := 1 } { rq with stopping := true }
  | releaseStop : Effect i rq { stopPermit := 1 } {} { rq with sem := rq.sem + 1 }
  | lockShared : rq.runMtxExclusive = false →
      Effect i rq {} { shared := 1 } { rq with runMtxShared := rq.runMtxShared + 1 }
  | clearRunning : Effect i rq { shared := 1 } { shared := 1 } { rq with running := false }
  | unlockShared : Effect i rq { shared := 1 } {} { rq with runMtxShared := rq.runMtxShared - 1 }
  | requestStart : rq.starting = false →
      Effect i rq {} { creating := 1 } { rq with starting := true }
  | createThread : rq.loop = .notCreated →
      Effect i rq { creating := 1 } {} { rq with loop := .lockRunMtx }
  | storeThread : Effect i rq {} {} { rq with rbThread := true }
  | killThread : Effect i rq {} {} { rq with killed := true }
  | acquireLatch : Effect i rq {} {} { rq with startupLatch := rq.startupLatch - 1 }

theorem inside_cases {κ κ' : Type} {f : κ → κ'} {r : Option (RubyQueue × κ)} {rq' : RubyQueue}
    {k' : κ'} (h : inside f r = some (rq', k')) : ∃ k, r = some (rq', k) ∧ k' = f k := by
  obtain ⟨⟨rq₁, k⟩, hr, heq⟩ := Option.map_eq_some_iff.1 h
  cases heq
  exact ⟨k, hr, rfl⟩

section Effects

variable {debug : Bool} {i : CallId} {env : Env} {rq rq' : RubyQueue}

theorem pushStep_effect {pc pc' : PushPc} (h : pushStep debug i rq pc = some (rq', pc')) :
    Effect i rq pc.ledger pc'.ledger rq' := by
  cases pc with
  | test =>
      simp only [pushStep, Option.some.injEq, Prod.mk.injEq] at h
      obtain ⟨rfl, rfl⟩ := h
      split <;> exact .quiet _
  | append => cases h; exact .append
  | release => cases h; exact .releasePush
  | done => cases h
  | refused => cases h

theorem stopStep_effect {pc pc' : StopPc} (h : stopStep rq pc = some (rq', pc')) :
    Effect i rq pc.ledger pc'.ledger rq' := by
  cases pc with
  | testAndSet =>
      simp only [stopStep] at h
      split at h
      · cases h; exact .quiet _
      · next hs => cases h; exact .requestStop (by simpa using hs)
  | release => cases h; exact .releaseStop
  | done => cases h

theorem runningStep_effect {pc pc' : RunningPc} (h : runningStep env rq pc = some (rq', pc')) :
    Effect i rq pc.ledger pc'.ledger rq' := by
  cases pc with
  | test =>
      simp only [runningStep, Option.some.injEq, Prod.mk.injEq] at h
      obtain ⟨rfl, rfl⟩ := h
      split <;> exact .quiet _
  | tryLock =>
      simp only [runningStep] at h
      split at h
      · cases h; exact .quiet _
      · next hs =>
          cases h
          exact .lockShared (by simp only [Bool.or_eq_true, not_or] at hs; simpa using hs.1)
  | clear => cases h; exact .clearRunning
  | unlock => cases h; exact .unlockShared
  | returned b => cases h

theorem stoppedStep_effect {pc pc' : StoppedPc} (h : stoppedStep env rq pc = some (rq', pc')) :
    Effect i rq pc.inside.ledger pc'.inside.ledger rq' := by
  cases pc with
  | testStopping =>
      simp only [stoppedStep, Option.some.injEq, Prod.mk.injEq] at h
      obtain ⟨rfl, rfl⟩ := h
      split <;> exact .quiet _
  | running pc =>
      cases pc with
      | returned b => cases h; exact .quiet _
      | test | tryLock | clear | unlock =>
          obtain ⟨pc₁, hin, rfl⟩ := inside_cases h
          exact runningStep_effect hin
  | returned b => cases h

theorem startStep_effect {pc pc' : StartPc} (h : startStep rq pc = some (rq', pc')) :
    Effect i rq pc.ledger pc'.ledger rq' := by
  cases pc with
  | testAndSet =>
      simp only [startStep] at h
      split at h
      · cases h; exact .quiet _
      · next hs => cases h; exact .requestStart (by simpa using hs)
  | create =>
      simp only [startStep] at h
      split at h
      · next hl => cases h; exact .createThread hl
      · cases h
  | store => cases h; exact .storeThread
  | done => cases h

theorem killStep_effect {pc pc' : KillPc} (h : killStep rq pc = some (rq', pc')) :
    Effect i rq pc.inside.ledger pc'.inside.ledger rq' := by
  unfold killStep at h
  split at h
  · cases h; exact .quiet _
  · obtain ⟨pc₁, hin, rfl⟩ := inside_cases h
    exact stopStep_effect hin
  · simp only [Option.some.injEq, Prod.mk.injEq] at h
    obtain ⟨rfl, rfl⟩ := h
    split
    · exact .killThread
    · exact .quiet _
  · cases h

theorem ensureStartedStep_effect {pc pc' : EnsureStartedPc}
    (h : ensureStartedStep env rq pc = some (rq', pc')) :
    Effect i rq pc.inside.ledger pc'.inside.ledger rq' := by
  unfold ensureStartedStep at h
  split at h
  · split at h
    · cases h; exact .quiet _
    · cases h; exact .acquireLatch
  · cases h; exact .quiet _
  · simp only [Option.some.injEq, Prod.mk.injEq] at h
    obtain ⟨rfl, rfl⟩ := h
    split <;> exact .quiet _
  · cases h; exact .quiet _
  · obtain ⟨pc₁, hin, rfl⟩ := inside_cases h
    exact killStep_effect hin
  · cases h
  · cases h

theorem stopOnExitStep_effect {pc pc' : StopOnExitPc}
    (h : stopOnExitStep env rq pc = some (rq', pc')) :
    Effect i rq pc.inside.ledger pc'.inside.ledger rq' := by
  unfold stopOnExitStep at h
  split at h
  · cases h; exact .quiet _
  · obtain ⟨pc₁, hin, rfl⟩ := inside_cases h
    exact stopStep_effect hin
  · simp only [Option.some.injEq, Prod.mk.injEq] at h
    obtain ⟨rfl, rfl⟩ := h
    split <;> exact .quiet _
  · obtain ⟨pc₁, hin, rfl⟩ := inside_cases h
    exact stoppedStep_effect hin
  · cases h; exact .quiet _
  · obtain ⟨pc₁, hin, rfl⟩ := inside_cases h
    exact runningStep_effect hin
  · cases h; exact .quiet _
  · simp only [Option.some.injEq, Prod.mk.injEq] at h
    obtain ⟨rfl, rfl⟩ := h
    split <;> exact .quiet _
  · cases h; exact .quiet _
  · obtain ⟨pc₁, hin, rfl⟩ := inside_cases h
    exact killStep_effect hin
  · cases h

/-- **What a step of a call does.**  Whatever the call and wherever it stands,
its step has one of the listed effects on the queue and on its own ledger. -/
theorem callStep_effect {c c' : Call} (h : callStep debug i env rq c = some (rq', c')) :
    Effect i rq c.ledger c'.ledger rq' := by
  cases c with
  | push pc =>
      obtain ⟨pc₁, hin, rfl⟩ := inside_cases h
      exact pushStep_effect hin
  | stop pc =>
      obtain ⟨pc₁, hin, rfl⟩ := inside_cases h
      exact stopStep_effect hin
  | running pc =>
      obtain ⟨pc₁, hin, rfl⟩ := inside_cases h
      exact runningStep_effect hin
  | stopped pc =>
      obtain ⟨pc₁, hin, rfl⟩ := inside_cases h
      exact stoppedStep_effect hin
  | start pc =>
      obtain ⟨pc₁, hin, rfl⟩ := inside_cases h
      exact startStep_effect hin
  | kill pc =>
      obtain ⟨pc₁, hin, rfl⟩ := inside_cases h
      exact killStep_effect hin
  | ensureStarted pc =>
      obtain ⟨pc₁, hin, rfl⟩ := inside_cases h
      exact ensureStartedStep_effect hin
  | stopOnExit pc =>
      obtain ⟨pc₁, hin, rfl⟩ := inside_cases h
      exact stopOnExitStep_effect hin

end Effects

@[simp] theorem entry_ledger (m : Method) : m.entry.ledger = {} := by
  cases m <;> rfl

/-! ## Steps of the whole system -/

/-- **What a step of the system is**: a new call that owes nothing yet, an
effect of one call, or a step of the loop. -/
theorem step_cases {debug : Bool} {s t : State} {a : Action} (h : step debug s a = some t) :
    (∃ m, t = s.spawn (Method.entry m)) ∨
    (∃ i env c rq' c', s.threads[i]? = some c ∧ callStep debug i env s.shared c = some (rq', c') ∧
      t = ⟨rq', s.threads.set i c'⟩) ∨
    (∃ threw rq', a = .loop threw ∧ loopStep s.shared threw = some rq' ∧
      t = { s with shared := rq' }) := by
  cases a with
  | call m => cases h; exact .inl ⟨m, rfl⟩
  | step i env =>
      obtain ⟨c, rq', c', hc, hstep, rfl⟩ := Pool.stepAt_cases h
      exact .inr (.inl ⟨i, env, c, rq', c', hc, hstep, rfl⟩)
  | loop threw =>
      obtain ⟨rq', hloop, rfl⟩ := Option.map_eq_some_iff.1 h
      exact .inr (.inr ⟨threw, rq', rfl, hloop, rfl⟩)

/-- **Where a call stands after a step**: where it stood before, or where its own
step has brought it. -/
theorem thread_step {debug : Bool} {s t : State} {a : Action} {i : CallId} {c : Call}
    (hc : s.threads[i]? = some c) (h : step debug s a = some t) :
    t.threads[i]? = some c ∧ (∀ env, a ≠ .step i env) ∨
      ∃ env c', a = .step i env ∧ callStep debug i env s.shared c = some (t.shared, c') ∧
        t.threads[i]? = some c' := by
  have hlt : i < s.threads.length := (List.getElem?_eq_some_iff.1 hc).1
  cases a with
  | call m =>
      cases h
      refine .inl ⟨?_, fun _ => by simp⟩
      rw [Pool.spawn_threads, List.getElem?_append_left hlt, hc]
  | step j env =>
      obtain ⟨c₁, rq', c', hj, hcs, rfl⟩ := Pool.stepAt_cases h
      by_cases hij : j = i
      · subst hij
        rw [hc] at hj
        cases hj
        exact .inr ⟨env, c', rfl, hcs, List.getElem?_set_self hlt⟩
      · refine .inl ⟨?_, fun env' heq => hij (by cases heq; rfl)⟩
        rw [List.getElem?_set_ne hij, hc]
  | loop threw =>
      obtain ⟨rq', -, rfl⟩ := Option.map_eq_some_iff.1 h
      exact .inl ⟨hc, fun _ => by simp⟩

/-- A call that was not there has begun with the step. -/
theorem thread_begins {debug : Bool} {s t : State} {a : Action} {i : CallId} {c : Call}
    (hnone : s.threads[i]? = none) (h : step debug s a = some t) (hc : t.threads[i]? = some c) :
    ∃ m, a = .call m ∧ i = s.threads.length ∧ c = Method.entry m := by
  have hge : s.threads.length ≤ i := List.getElem?_eq_none_iff.1 hnone
  cases a with
  | call m =>
      cases h
      rw [Pool.spawn_threads, List.getElem?_append_right hge, List.getElem?_singleton] at hc
      split at hc
      · next hz =>
          cases hc
          exact ⟨m, rfl, Nat.le_antisymm (Nat.sub_eq_zero_iff_le.1 hz) hge, rfl⟩
      · cases hc
  | step j env =>
      obtain ⟨c₁, rq', c', -, -, rfl⟩ := Pool.stepAt_cases h
      have hlt := (List.getElem?_eq_some_iff.1 hc).1
      rw [List.length_set] at hlt
      exact absurd hlt (Nat.not_lt.2 hge)
  | loop threw =>
      obtain ⟨rq', -, rfl⟩ := Option.map_eq_some_iff.1 h
      rw [hnone] at hc
      cases hc

/-- **The invariant rule of the queue.**  What holds of a new queue, does not
look at a call that has just begun, and is kept by the effects of the calls and
by the steps of the loop, holds of every reachable state. -/
theorem queue_invariant {P : State → Prop} (hinit : P ⟨{}, []⟩)
    (hcall : ∀ s m, P s → P (s.spawn (Method.entry m)))
    (heffect : ∀ (s : State) i c c' l l' rq', P s → s.threads[i]? = some c → c.ledger = l →
      c'.ledger = l' → Effect i s.shared l l' rq' → P ⟨rq', s.threads.set i c'⟩)
    (hloop : ∀ (s : State) rq', P s → LoopEffect s.shared rq' → P { s with shared := rq' })
    {debug : Bool} {s : State} (h : (queueSystem debug).Reachable s) : P s := by
  refine System.invariant (S := queueSystem debug) hinit ?_ h
  intro s a t hs hstep
  rcases step_cases hstep with ⟨m, rfl⟩ | ⟨i, env, c, rq', c', hc, hcs, rfl⟩ | ⟨threw, rq', -, hl, rfl⟩
  · exact hcall s m hs
  · exact heffect s i c c' _ _ rq' hs hc rfl rfl (callStep_effect hcs)
  · exact hloop s rq' hs (loopStep_effect hl)

/-! ## The queue thread is created once -/

/-- One thread to come or one thread there, once `_starting` is set. -/
def ThreadCount (s : State) : Prop :=
  s.total (·.ledger.creating) + (if s.shared.loop = .notCreated then 0 else 1) =
    if s.shared.starting then 1 else 0

theorem LoopEffect.created {rq rq' : RubyQueue} (h : LoopEffect rq rq') :
    rq.loop ≠ .notCreated ∧ rq'.loop ≠ .notCreated ∧ rq'.starting = rq.starting := by
  cases h <;> simp [*]

theorem threadCount {debug : Bool} {s : State} (h : (queueSystem debug).Reachable s) :
    ThreadCount s := by
  refine queue_invariant (P := ThreadCount) rfl ?_ ?_ ?_ h
  · intro s m hs
    rw [ThreadCount, Pool.total_spawn, entry_ledger]
    exact hs
  · intro s i c c' l l' rq' hs hc hl hl' he
    have ht := Pool.total_set (fun c : Call => c.ledger.creating) hc rq' c'
    rw [ThreadCount] at hs ⊢
    rw [hl, hl'] at ht
    cases he with
    | requestStart hstarting => simp_all
    | createThread hnone => simp_all
    | _ => simp_all
  · intro s rq' hs hloop
    obtain ⟨hbefore, hafter, hstarting⟩ := hloop.created
    simp only [ThreadCount, if_neg hbefore] at hs
    simp only [ThreadCount, if_neg hafter, hstarting]
    exact hs

/-- A call of `start` that comes to create the queue thread finds none. -/
theorem create_notCreated {debug : Bool} {s : State} {i : CallId}
    (h : (queueSystem debug).Reachable s) (hc : s.threads[i]? = some (.start .create)) :
    s.shared.loop = .notCreated := by
  have hcount := threadCount h
  have hone : 1 ≤ s.total (·.ledger.creating) :=
    Pool.le_total (fun c : Call => c.ledger.creating) hc
  by_contra hne
  rw [ThreadCount, if_neg hne] at hcount
  split at hcount <;> omega

end RuBLE.CallbackQueue
