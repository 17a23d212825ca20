import Mathlib
import RuBLE.Management.QueueOrder

/-!
# The permits of the semaphore

`push` and `stop` each release one permit of `_sem`, and the loop cannot tell
them apart.

* `Permits` — the invariant that ties the count to the queue: permits given
  and still owed are as many as the items waiting, and one more once a stop has
  been requested.
* `pop_nonempty_and_items` — the loop never takes from an empty queue, and no
  item is lost or taken twice.
* `waiting_loop` — no wake-up is lost: a loop that waits at a count of zero
  will be woken for everything there is to do.
-/

namespace RuBLE.CallbackQueue

open Transition

/-- Permits that `push` has still to release for items in `_q`. -/
def pushPermits (s : State) : Nat := s.total (·.ledger.pushPermit)

/-- Permits that `stop` has still to release for the flag it has set. -/
def stopPermits (s : State) : Nat := s.total (·.ledger.stopPermit)

/-- One, once a stop has been requested. -/
def RubyQueue.stopFlag (rq : RubyQueue) : Nat := if rq.stopping then 1 else 0

/-- The loop has taken a permit for which it has done nothing yet. -/
def LoopPc.held : LoopPc → Nat
  | .testBreak | .pop => 1
  | _ => 0

/-- The loop has not been left. -/
def LoopPc.active : LoopPc → Bool
  | .clearRunning | .unlock _ | .exited _ => false
  | _ => true

/-- What the count of `_sem` stands for. -/
structure Permits (s : State) : Prop where
  /-- Permits there, permits owed and the one in use are as many as the items
  waiting and the stop requested. -/
  balance : s.shared.loop.active = true →
    s.shared.sem + pushPermits s + stopPermits s + s.shared.loop.held =
      s.shared.q.length + s.shared.stopFlag
  /-- Only the call that set `_stopping` owes a permit for it. -/
  stop_le : stopPermits s ≤ s.shared.stopFlag
  /-- The permit of a stop request is there or owed; only the loop just about to
  test `_stopping` may have taken it. -/
  stop_covered : s.shared.loop.active = true → s.shared.loop ≠ .testBreak →
    s.shared.stopFlag ≤ s.shared.sem + stopPermits s

theorem Permits.call {s : State} (h : Permits s) (m : Method) : Permits (s.spawn m.entry) := by
  have hpush : pushPermits (s.spawn m.entry) = pushPermits s := by
    rw [pushPermits, Pool.total_spawn, entry_ledger]
    rfl
  have hstop : stopPermits (s.spawn m.entry) = stopPermits s := by
    rw [stopPermits, Pool.total_spawn, entry_ledger]
    rfl
  refine ⟨?_, ?_, ?_⟩
  · rw [hpush, hstop]
    exact h.balance
  · rw [hstop]
    exact h.stop_le
  · rw [hstop]
    exact h.stop_covered

/-- What an effect of a call does to the permits: it pays what it owes, and owes
what it makes due. -/
theorem Effect.permits {i : CallId} {rq rq' : RubyQueue} {l l' : Ledger}
    (h : Effect i rq l l' rq') :
    rq'.sem + l'.pushPermit + l'.stopPermit + rq.q.length + rq.stopFlag =
        rq.sem + l.pushPermit + l.stopPermit + rq'.q.length + rq'.stopFlag ∧
      l'.stopPermit + rq.stopFlag ≤ l.stopPermit + rq'.stopFlag ∧
      rq'.stopFlag + rq.sem + l.stopPermit ≤ rq.stopFlag + rq'.sem + l'.stopPermit := by
  cases h with
  | append => simp [RubyQueue.stopFlag]; omega
  | requestStop hs => simp [RubyQueue.stopFlag, hs]; omega
  | releasePush | releaseStop => simp [RubyQueue.stopFlag]
  | _ => simp [RubyQueue.stopFlag]

/-- A call moves the loop only by creating its thread. -/
theorem Effect.loop {i : CallId} {rq rq' : RubyQueue} {l l' : Ledger} (h : Effect i rq l l' rq') :
    rq'.loop = rq.loop ∨ rq.loop = .notCreated ∧ rq'.loop = .lockRunMtx := by
  cases h with
  | createThread hnone => exact .inr ⟨hnone, rfl⟩
  | _ => exact .inl rfl

theorem Permits.effect {s : State} {i : CallId} {c c' : Call} {l l' : Ledger} {rq' : RubyQueue}
    (h : Permits s) (hc : s.threads[i]? = some c) (hl : c.ledger = l) (hl' : c'.ledger = l')
    (he : Effect i s.shared l l' rq') : Permits ⟨rq', s.threads.set i c'⟩ := by
  have hpush : pushPermits ⟨rq', s.threads.set i c'⟩ + l.pushPermit = pushPermits s + l'.pushPermit := by
    rw [← hl, ← hl']
    exact Pool.total_set (fun c : Call => c.ledger.pushPermit) hc _ _
  have hstop : stopPermits ⟨rq', s.threads.set i c'⟩ + l.stopPermit = stopPermits s + l'.stopPermit := by
    rw [← hl, ← hl']
    exact Pool.total_set (fun c : Call => c.ledger.stopPermit) hc _ _
  obtain ⟨hbal, hle, hcov⟩ := he.permits
  have hstop_le := h.stop_le
  have hloop : rq'.loop.active = s.shared.loop.active ∧ rq'.loop.held = s.shared.loop.held ∧
      (rq'.loop = .testBreak ↔ s.shared.loop = .testBreak) := by
    rcases he.loop with heq | ⟨hnone, hlock⟩
    · simp [heq]
    · simp [hnone, hlock, LoopPc.active, LoopPc.held]
  refine ⟨fun ha => ?_, ?_, fun ha hne => ?_⟩
  · have hb := h.balance (hloop.1 ▸ ha)
    simp only [hloop.2.1]
    omega
  · show stopPermits _ ≤ rq'.stopFlag
    omega
  · have hc := h.stop_covered (hloop.1 ▸ ha) (fun hs => hne (hloop.2.2.2 hs))
    show rq'.stopFlag ≤ rq'.sem + stopPermits _
    omega

theorem Permits.loop {s : State} {rq' : RubyQueue} (h : Permits s) (he : LoopEffect s.shared rq') :
    Permits { s with shared := rq' } := by
  obtain ⟨hbal, hle, hcov⟩ := h
  have hpush : pushPermits { s with shared := rq' } = pushPermits s := rfl
  have hstop : stopPermits { s with shared := rq' } = stopPermits s := rfl
  cases he with
  | acquire hl hsem =>
      rw [hl] at hbal
      refine ⟨fun _ => ?_, hle, fun _ hne => absurd rfl hne⟩
      have hb := hbal rfl
      simp only [LoopPc.held, RubyQueue.stopFlag, hpush, hstop] at hb ⊢
      omega
  | goOn hl hs =>
      rw [hl] at hbal
      refine ⟨hbal, hle, fun _ _ => ?_⟩
      simp [RubyQueue.stopFlag, hs]
  | pop front item hl hq =>
      rw [hl] at hbal hcov
      refine ⟨fun _ => ?_, hle, fun _ _ => hcov rfl (by simp)⟩
      have hb := hbal rfl
      rw [hq] at hb
      simp only [LoopPc.held, RubyQueue.stopFlag, List.length_append, List.length_singleton, hpush,
        hstop] at hb ⊢
      omega
  | leave hl | leaveEarly hl | unwind item hl | clearRunning hl | unlock threw hl =>
      exact ⟨fun ha => absurd ha (by simp [LoopPc.active]), hle,
        fun ha => absurd ha (by simp [LoopPc.active])⟩
  | lock hl | releaseLatch hl | setRunning hl | goRound hl | begin item hl | finish item hl =>
      rw [hl] at hbal hcov
      exact ⟨hbal, hle, fun _ _ => hcov rfl (by simp)⟩

/-- The count of the semaphore is accounted for in every reachable state. -/
theorem permits {debug : Bool} {s : State} (h : (queueSystem debug).Reachable s) : Permits s :=
  queue_invariant ⟨fun _ => rfl, Nat.zero_le _, fun _ _ => Nat.zero_le _⟩ (fun _ m hs => hs.call m)
    (fun _ _ _ _ _ _ _ hs hc hl hl' he => hs.effect hc hl hl' he)
    (fun _ _ hs he => hs.loop he) h

/-! ## No pop of an empty queue -/

/-- A loop that has found `_stopping` unset after taking a permit has an item
to take: the permit it took was not that of a stop. -/
theorem pop_nonempty {debug : Bool} {s : State} (h : (queueSystem debug).Reachable s)
    (hl : s.shared.loop = .pop) : s.shared.q ≠ [] := by
  have hp := permits h
  have hbal := hp.balance (by rw [hl]; rfl)
  have hcov := hp.stop_covered (by rw [hl]; rfl) (by simp [hl])
  rw [hl, LoopPc.held] at hbal
  have hlen : 0 < s.shared.q.length := by omega
  exact List.ne_nil_of_length_pos hlen

/-- **No loss, no duplication, no pop of an empty queue.**  In every reachable
state: if the loop is about to take from `_q`, there is something to take; and
what was appended so far is what the loop has taken and what still waits, each
item exactly once. -/
theorem pop_nonempty_and_items (debug : Bool) (s : State) (h : (queueSystem debug).Reachable s) :
    (s.shared.loop = .pop → s.shared.q ≠ []) ∧
      (s.shared.taken ++ s.shared.q).Perm s.shared.appended ∧
      (s.shared.taken ++ s.shared.q).Nodup := by
  have hitems := items h
  exact ⟨pop_nonempty h, hitems.perm, hitems.perm.nodup_iff.2 hitems.nodup⟩

/-- Two calls of `push` and one of `stop`, with the loop about to take an item
when the stop is requested. -/
def stopBeforePop : List Action :=
  [.call .push, .step 0 {}, .step 0 {}, .step 0 {}, .call .start, .step 1 {}, .step 1 {}, .step 1 {},
    .loop false, .loop false, .loop false, .loop false, .loop false, .loop false, .call .push,
    .step 2 {}, .step 2 {}, .call .stop, .step 3 {}]

/-- With a stop requested after its test, the loop still finds an item. -/
theorem pop_nonempty_and_items_stopBeforePop : ∃ s,
    (queueSystem false).run stopBeforePop = some s ∧ s.shared.loop = .pop ∧ s.shared.stopping = true ∧
      s.shared.q ≠ [] ∧ (s.shared.taken ++ s.shared.q).Perm s.shared.appended := by
  have hrun : ((queueSystem false).run stopBeforePop).map
      (fun s => (s.shared.loop, s.shared.stopping)) = some (.pop, true) := by decide
  obtain ⟨s, hs, hat⟩ := Option.map_eq_some_iff.1 hrun
  have hl : s.shared.loop = .pop := (Prod.mk.inj hat).1
  have hclaim := pop_nonempty_and_items false s (System.reachable_of_run hs)
  exact ⟨s, hs, hl, (Prod.mk.inj hat).2, hclaim.1 hl, hclaim.2.1⟩

/-! ## No lost wake-up -/

theorem pushPermit_eq (c : Call) :
    c.ledger.pushPermit = if c.inside = .push .release then 1 else 0 := by
  rw [Call.ledger]
  cases c.inside with
  | between => rfl
  | push pc | stop pc | running pc | start pc => cases pc <;> rfl

theorem stopPermit_eq (c : Call) :
    c.ledger.stopPermit = if c.inside = .stop .release then 1 else 0 := by
  rw [Call.ledger]
  cases c.inside with
  | between => rfl
  | push pc | stop pc | running pc | start pc => cases pc <;> rfl

theorem pushPermits_eq (s : State) :
    pushPermits s = s.threads.countP (fun c => c.inside = .push .release) :=
  Pool.total_eq_countP pushPermit_eq

/-- Nothing is left when the loop waits and no call is between its append and
its release. -/
theorem empty_of_settled {debug : Bool} {s : State} (h : (queueSystem debug).Reachable s)
    (hl : s.shared.loop = .acquire) (hsem : s.shared.sem = 0)
    (hsettled : ∀ c ∈ s.threads, c.inside ≠ .push .release) : s.shared.q = [] := by
  have hbal := (permits h).balance (by rw [hl]; rfl)
  have hcov := (permits h).stop_covered (by rw [hl]; rfl) (by simp [hl])
  have hle := (permits h).stop_le
  rw [hl, hsem, show LoopPc.acquire.held = 0 from rfl] at hbal
  have hzero : pushPermits s = 0 := by
    rw [pushPermits_eq]
    exact List.countP_eq_zero.2 fun c hc => by simpa using hsettled c hc
  exact List.eq_nil_of_length_eq_zero (by omega)

/-- **No lost wake-up.**  Whenever the loop waits at a count of zero, the items
in `_q` are as many as the calls of `push` that have appended and not yet
released; if a stop has been requested, the call that requested it has not yet
released either.  So once no call is between these two steps, a waiting loop
means an empty queue and no stop request. -/
theorem waiting_loop (debug : Bool) (s : State) (h : (queueSystem debug).Reachable s)
    (hl : s.shared.loop = .acquire) (hsem : s.shared.sem = 0) :
    s.shared.q.length = s.threads.countP (fun c => c.inside = .push .release) ∧
      (s.shared.stopping = true → ∃ c ∈ s.threads, c.inside = .stop .release) ∧
      ((∀ c ∈ s.threads, c.inside ≠ .push .release ∧ c.inside ≠ .stop .release) →
        s.shared.q = [] ∧ s.shared.stopping = false) := by
  have hp := permits h
  have hbal := hp.balance (by rw [hl]; rfl)
  have hcov := hp.stop_covered (by rw [hl]; rfl) (by simp [hl])
  have hle := hp.stop_le
  rw [hl, hsem, show LoopPc.acquire.held = 0 from rfl] at hbal
  have hpush : s.shared.q.length = s.threads.countP (fun c => c.inside = .push .release) := by
    rw [← pushPermits_eq]
    omega
  have hstop : s.shared.stopping = true → ∃ c ∈ s.threads, c.inside = .stop .release := by
    intro hs
    have hpos : 0 < stopPermits s := by
      rw [RubyQueue.stopFlag, if_pos hs] at hcov
      omega
    obtain ⟨i, c, hc, hpermit⟩ := Pool.exists_of_total_pos hpos
    refine ⟨c, List.mem_of_getElem? hc, ?_⟩
    by_contra hne
    rw [stopPermit_eq, if_neg hne] at hpermit
    exact absurd hpermit (by decide)
  refine ⟨hpush, hstop, fun hnone => ⟨?_, ?_⟩⟩
  · have hzero : s.threads.countP (fun c => c.inside = .push .release) = 0 :=
      List.countP_eq_zero.2 fun c hc => by simpa using (hnone c hc).1
    exact List.eq_nil_of_length_eq_zero (hpush.trans hzero)
  · by_contra hs
    obtain ⟨c, hc, hin⟩ := hstop (by simpa using hs)
    exact (hnone c hc).2 hin

/-- Two calls append their items, and the first releases its permit; the loop
takes the second item, executes it, and waits again. -/
def waitingRun : List Action :=
  [.call .push, .step 0 {}, .step 0 {}, .call .push, .step 1 {}, .step 1 {}, .step 0 {}, .call .start,
    .step 2 {}, .step 2 {}, .step 2 {}, .loop false, .loop false, .loop false, .loop false,
    .loop false, .loop false, .loop false, .loop false, .loop false, .loop false]

theorem waitingRun_at :
    ((queueSystem false).run waitingRun).map (fun s => (s.shared.loop, s.shared.sem, s.shared.q,
      s.threads[0]?)) = some (.acquire, 0, [0], some (.push .done)) := by decide

/-- There the loop waits with one item in the queue, and one permit is owed. -/
theorem waiting_loop_waitingRun : ∃ s, (queueSystem false).run waitingRun = some s ∧
    s.shared.q.length = s.threads.countP (fun c => c.inside = .push .release) ∧ s.shared.q.length = 1 := by
  obtain ⟨s, hs, hat⟩ := Option.map_eq_some_iff.1 waitingRun_at
  simp only [Prod.mk.injEq] at hat
  obtain ⟨hl, hsem, hq, -⟩ := hat
  have hclaim := waiting_loop false s (System.reachable_of_run hs) hl hsem
  exact ⟨s, hs, hclaim.1, by rw [hq]; rfl⟩

/-- The item that waits there need not be that of the call that owes the
permit: the permits of all calls of `push` are alike. -/
theorem not_waiting_own_push : ¬ ∀ (debug : Bool) (s : State), (queueSystem debug).Reachable s →
    s.shared.loop = .acquire → s.shared.sem = 0 →
      ∀ i ∈ s.shared.q, s.threads[i]? = some (.push .release) := by
  intro hall
  obtain ⟨s, hs, hat⟩ := Option.map_eq_some_iff.1 waitingRun_at
  simp only [Prod.mk.injEq] at hat
  obtain ⟨hl, hsem, hq, hdone⟩ := hat
  have hrelease := hall false s (System.reachable_of_run hs) hl hsem 0 (by rw [hq]; simp)
  rw [hdone] at hrelease
  exact absurd hrelease (by decide)

end RuBLE.CallbackQueue
