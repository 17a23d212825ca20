import Mathlib
import RuBLE.Management.RubyQueue

/-!
# What becomes of the items, and in which order

* `Items` — the invariant: what was appended is what was taken and what still
  waits, each item once; `items` proves it of every reachable state.
* `fifo_of_onlyWaiting` — the loop executes the items in the order in which
  they were appended, as long as it never takes one from among several.
* `not_fifo_of_among_several` — as soon as it does, the order is lost: `push`
  appends at the back of `_q`, and the loop takes from the back.
-/

namespace RuBLE.CallbackQueue

open Transition

/-- The item that has been taken and whose execution has not begun. -/
def LoopPc.inHand : LoopPc → List Item
  | .callWithGvl item => [item]
  | _ => []

/-- What was appended is what was taken and what waits, each item once. -/
structure Items (s : State) : Prop where
  /-- Nothing is lost and nothing is made up. -/
  perm : (s.shared.taken ++ s.shared.q).Perm s.shared.appended
  /-- No item is appended twice. -/
  nodup : s.shared.appended.Nodup
  /-- The items wait in the order in which they were appended. -/
  sublist : s.shared.q.Sublist s.shared.appended
  /-- Appended are the items of the calls of `push` that say so. -/
  mem_iff : ∀ i c, s.threads[i]? = some c → (i ∈ s.shared.appended ↔ c.ledger.appended = true)
  /-- Every item has its call. -/
  lt_of_mem : ∀ i ∈ s.shared.appended, i < s.threads.length
  /-- What is taken is executed next. -/
  taken_eq : s.shared.taken = s.shared.executed ++ s.shared.loop.inHand

theorem Items.init : Items ⟨{}, []⟩ where
  perm := .refl _
  nodup := List.nodup_nil
  sublist := List.nil_sublist _
  mem_iff := by simp
  lt_of_mem := by simp
  taken_eq := rfl

theorem Items.call {s : State} (h : Items s) (m : Method) : Items (s.spawn m.entry) where
  perm := h.perm
  nodup := h.nodup
  sublist := h.sublist
  mem_iff := by
    refine Pool.forall_spawn h.mem_iff ?_
    rw [entry_ledger]
    have hnew : s.threads.length ∉ s.shared.appended := fun hm =>
      absurd (h.lt_of_mem _ hm) (Nat.lt_irrefl _)
    simpa using hnew
  lt_of_mem := by
    intro i hi
    have := h.lt_of_mem i hi
    rw [Pool.spawn_threads, List.length_append, List.length_singleton]
    exact Nat.lt_succ_of_lt this
  taken_eq := h.taken_eq

/-- An effect that neither appends nor moves the loop to an item in hand leaves
the items as they are. -/
theorem Items.of_same {s : State} {i : CallId} {c c' : Call} {rq' : RubyQueue} (h : Items s)
    (hc : s.threads[i]? = some c) (happ : c'.ledger.appended = c.ledger.appended)
    (hq : rq'.q = s.shared.q) (hap : rq'.appended = s.shared.appended)
    (htk : rq'.taken = s.shared.taken) (hex : rq'.executed = s.shared.executed)
    (hhand : rq'.loop.inHand = s.shared.loop.inHand) : Items ⟨rq', s.threads.set i c'⟩ where
  perm := by simpa only [hq, hap, htk] using h.perm
  nodup := by simpa only [hap] using h.nodup
  sublist := by simpa only [hq, hap] using h.sublist
  mem_iff := by
    simp only [hap]
    refine Pool.forall_set h.mem_iff hc ?_ fun j u _ hu => hu
    intro hmem
    rw [hmem, happ]
  lt_of_mem := by simpa only [hap, List.length_set] using h.lt_of_mem
  taken_eq := by simpa only [htk, hex, hhand] using h.taken_eq

theorem Items.append {s : State} {i : CallId} {c c' : Call} (h : Items s)
    (hc : s.threads[i]? = some c) (hl : c.ledger.appended = false)
    (hl' : c'.ledger.appended = true) :
    Items ⟨{ s.shared with q := s.shared.q ++ [i], appended := s.shared.appended ++ [i] },
      s.threads.set i c'⟩ := by
  have hnew : i ∉ s.shared.appended := by
    rw [h.mem_iff i c hc, hl]
    exact Bool.false_ne_true
  refine ⟨?_, ?_, ?_, ?_, ?_, h.taken_eq⟩
  · rw [← List.append_assoc]
    exact h.perm.append_right [i]
  · rw [List.nodup_append_comm, List.singleton_append, List.nodup_cons]
    exact ⟨hnew, h.nodup⟩
  · exact h.sublist.append (List.Sublist.refl [i])
  · refine Pool.forall_set h.mem_iff hc (fun _ => by simp [hl']) ?_
    intro j u hne hu
    rw [List.mem_append, List.mem_singleton, or_iff_left hne]
    exact hu
  · intro j hj
    rw [List.length_set]
    rcases List.mem_append.1 hj with hj | hj
    · exact h.lt_of_mem j hj
    · obtain rfl := List.mem_singleton.1 hj
      exact (List.getElem?_eq_some_iff.1 hc).1

theorem Items.effect {s : State} {i : CallId} {c c' : Call} {l l' : Ledger} {rq' : RubyQueue}
    (h : Items s) (hc : s.threads[i]? = some c) (hl : c.ledger = l) (hl' : c'.ledger = l')
    (he : Effect i s.shared l l' rq') : Items ⟨rq', s.threads.set i c'⟩ := by
  have happ : l'.appended = l.appended → c'.ledger.appended = c.ledger.appended := by
    rw [hl, hl']
    exact id
  cases he with
  | append => exact h.append hc (by rw [hl]) (by rw [hl'])
  | createThread hnone => exact h.of_same hc (happ rfl) rfl rfl rfl rfl (by rw [hnone]; rfl)
  | _ => exact h.of_same hc (happ rfl) rfl rfl rfl rfl rfl

theorem Items.loop {s : State} {rq' : RubyQueue} (h : Items s) (he : LoopEffect s.shared rq') :
    Items { s with shared := rq' } := by
  obtain ⟨hperm, hnodup, hsub, hmem, hlt, htaken⟩ := h
  cases he with
  | pop front item hl hq =>
      rw [hl, show LoopPc.pop.inHand = [] from rfl, List.append_nil] at htaken
      rw [hq] at hperm hsub
      refine ⟨?_, hnodup, (List.sublist_append_left front [item]).trans hsub, hmem, hlt, ?_⟩
      · refine List.Perm.trans ?_ hperm
        rw [List.append_assoc]
        exact List.perm_append_comm.append_left _
      · rw [htaken]
        rfl
  | begin item hl =>
      refine ⟨hperm, hnodup, hsub, hmem, hlt, ?_⟩
      rw [hl] at htaken
      simpa [LoopPc.inHand] using htaken
  | lock hl | releaseLatch hl | setRunning hl | goRound hl | leave hl | acquire hl | goOn hl
  | leaveEarly hl | finish item hl | unwind item hl | clearRunning hl | unlock threw hl =>
      rw [hl] at htaken
      exact ⟨hperm, hnodup, hsub, hmem, hlt, htaken⟩

/-- **No item is lost or executed twice.** -/
theorem items {debug : Bool} {s : State} (h : (queueSystem debug).Reachable s) : Items s :=
  queue_invariant Items.init (fun _ m hs => hs.call m)
    (fun _ _ _ _ _ _ _ hs hc hl hl' he => hs.effect hc hl hl' he)
    (fun _ _ hs he => hs.loop he) h

/-! ## First in, first out -/

/-- The items executed are the first ones appended, in the same order. -/
def Fifo (s : State) : Prop := s.shared.executed <+: s.shared.appended

instance : DecidablePred Fifo := fun _ => inferInstanceAs (Decidable (_ <+: _))

/-- When the loop takes an item from `_q`, it is the only one there. -/
def OnlyWaiting (s : State) (a : Action) : Prop :=
  match a with
  | .loop _ => s.shared.loop = .pop → s.shared.q.length ≤ 1
  | _ => True

instance : (s : State) → (a : Action) → Decidable (OnlyWaiting s a)
  | s, .loop _ => inferInstanceAs (Decidable (s.shared.loop = .pop → s.shared.q.length ≤ 1))
  | _, .call _ => inferInstanceAs (Decidable True)
  | _, .step _ _ => inferInstanceAs (Decidable True)

/-- What was appended is what was taken and then what waits, in this order. -/
def InOrder (s : State) : Prop := s.shared.taken ++ s.shared.q = s.shared.appended

theorem Effect.inOrder {s : State} {i : CallId} {l l' : Ledger} {rq' : RubyQueue}
    {cs : List Call} (h : InOrder s) (he : Effect i s.shared l l' rq') : InOrder ⟨rq', cs⟩ := by
  cases he with
  | append =>
      rw [InOrder, ← List.append_assoc, h]
  | _ => exact h

/-- A step of the loop that takes no item from among several keeps the order. -/
theorem LoopEffect.inOrder {s : State} {cs : List Call} {rq' : RubyQueue} (h : InOrder s)
    (hone : s.shared.loop = .pop → s.shared.q.length ≤ 1) (he : LoopEffect s.shared rq') :
    InOrder ⟨rq', cs⟩ := by
  cases he with
  | pop front item hl hq =>
      have hlen := hone hl
      rw [hq, List.length_append, List.length_singleton] at hlen
      obtain rfl : front = [] := List.eq_nil_of_length_eq_zero (by omega)
      rw [InOrder, hq] at h
      simpa [InOrder] using h
  | _ => exact h

theorem inOrder_step {debug : Bool} {s t : State} {a : Action} (h : InOrder s)
    (hone : OnlyWaiting s a) (hstep : step debug s a = some t) : InOrder t := by
  rcases step_cases hstep with ⟨m, rfl⟩ | ⟨i, env, c, rq', c', -, hcs, rfl⟩ | ⟨threw, rq', rfl, hl, rfl⟩
  · exact h
  · exact (callStep_effect hcs).inOrder h
  · exact (loopStep_effect hl).inOrder h hone

theorem inOrder_run {debug : Bool} {s : State} {as : List Action}
    (hone : (queueSystem debug).Meets OnlyWaiting ⟨{}, []⟩ as)
    (h : (queueSystem debug).run as = some s) : InOrder s :=
  System.invariant_of_meets (S := queueSystem debug) (P := InOrder)
    (fun _ _ _ hs hok hstep => inOrder_step hs hok hstep) (show InOrder ⟨{}, []⟩ from rfl) hone h

/-- **First in, first out, when nothing is overtaken.**  In a run in which the
loop takes an item only when no other waits, the items executed are at every
point the first ones appended, in the same order. -/
theorem fifo_of_onlyWaiting (debug : Bool) (as : List Action)
    (hone : (queueSystem debug).Meets OnlyWaiting ⟨{}, []⟩ as) :
    (queueSystem debug).Always Fifo ⟨{}, []⟩ as := by
  intro bs hbs s hrun
  have horder : InOrder s := inOrder_run (hone.of_initial hbs) hrun
  have hitems : Items s := items (System.reachable_of_run hrun)
  calc s.shared.executed
    _ <+: s.shared.executed ++ s.shared.loop.inHand := List.prefix_append _ _
    _ = s.shared.taken := hitems.taken_eq.symm
    _ <+: s.shared.taken ++ s.shared.q := List.prefix_append _ _
    _ = s.shared.appended := horder

/-- A run in which the loop executes one item and then takes another, each
while it is the only one there. -/
def oneAtATime : List Action :=
  [.call .start, .step 0 {}, .step 0 {}, .step 0 {}, .loop false, .loop false, .loop false,
    .call .push, .step 1 {}, .step 1 {}, .step 1 {}, .loop false, .loop false, .loop false,
    .loop false, .loop false, .loop false, .call .push, .step 2 {}, .step 2 {}, .step 2 {},
    .loop false, .loop false, .loop false, .loop false, .loop false]

/-- Two items, one after the other: both are executed, in order. -/
theorem fifo_oneAtATime :
    (queueSystem false).Meets OnlyWaiting ⟨{}, []⟩ oneAtATime ∧
      (queueSystem false).Always Fifo ⟨{}, []⟩ oneAtATime ∧
      ((queueSystem false).run oneAtATime).map (·.shared.executed) = some [1, 2] := by
  have hone : (queueSystem false).Meets OnlyWaiting ⟨{}, []⟩ oneAtATime := by decide
  exact ⟨hone, fifo_of_onlyWaiting false oneAtATime hone, by decide⟩

/-- A list without repetitions in which `x` stands before `y` does not begin
with `y` after things that leave `x` out. -/
theorem not_prefix_of_before {α : Type} {x y : α} {l t : List α} (hn : l.Nodup)
    (hs : [x, y].Sublist l) (hx : x ∉ t) : ¬ t ++ [y] <+: l := by
  rintro ⟨rest, rfl⟩
  rw [List.append_assoc, List.singleton_append] at hn hs
  obtain ⟨l₁, l₂, heq, h₁, h₂⟩ := List.sublist_append_iff.1 hs
  cases l₁ with
  | cons z l₁ =>
      obtain rfl : x = z := (List.cons.inj heq).1
      exact hx (h₁.subset List.mem_cons_self)
  | nil =>
      obtain rfl : [x, y] = l₂ := heq
      have hy : y ∉ rest := (List.nodup_cons.1 hn.of_append_right).1
      rcases List.sublist_cons_iff.1 h₂ with h | ⟨r, hr, h⟩
      · exact hy (h.subset (by simp))
      · obtain ⟨-, rfl⟩ := List.cons.inj hr
        exact hy (h.subset (by simp))

/-- When the loop takes an item from among several, the order is lost as soon
as the item is executed. -/
theorem not_fifo_of_among_several {debug : Bool} {s : State} {threw threw' : Bool}
    {rq₁ rq₂ : RubyQueue} (h : (queueSystem debug).Reachable s) (hl : s.shared.loop = .pop)
    (hlen : 2 ≤ s.shared.q.length) (h₁ : loopStep s.shared threw = some rq₁)
    (h₂ : loopStep rq₁ threw' = some rq₂) : ¬ rq₂.executed <+: rq₂.appended := by
  have hitems := items h
  have htaken : s.shared.taken = s.shared.executed := by
    rw [hitems.taken_eq, hl]
    exact List.append_nil _
  have hne : s.shared.q ≠ [] := by
    intro hnil
    rw [hnil] at hlen
    exact absurd hlen (by decide)
  obtain ⟨item, hlast⟩ : ∃ item, s.shared.q.getLast? = some item :=
    ⟨_, List.getLast?_eq_some_getLast hne⟩
  simp only [loopStep, hl, hlast, Option.some.injEq] at h₁
  subst h₁
  cases h₂
  have hq : s.shared.q = s.shared.q.dropLast ++ [item] :=
    (List.dropLast_append_getLast? item hlast).symm
  obtain ⟨x, front, hfront⟩ : ∃ x front, s.shared.q.dropLast = x :: front := by
    refine List.exists_cons_of_length_pos ?_
    rw [List.length_dropLast]
    omega
  refine not_prefix_of_before hitems.nodup (x := x) ?_ ?_
  · refine List.Sublist.trans ?_ hitems.sublist
    rw [hq, hfront, List.cons_append]
    exact (List.sublist_append_right front [item]).cons_cons x
  · have hnodup : (s.shared.taken ++ s.shared.q).Nodup := hitems.perm.nodup_iff.2 hitems.nodup
    rw [← htaken]
    intro hx
    refine (List.nodup_append.1 hnodup).2.2 x hx x ?_ rfl
    rw [hq, hfront]
    simp

/-- Two items are appended before the loop is started; it executes the second
one first. -/
def lifoRun : List Action :=
  [.call .push, .step 0 {}, .step 0 {}, .step 0 {}, .call .push, .step 1 {}, .step 1 {}, .step 1 {},
    .call .start, .step 2 {}, .step 2 {}, .step 2 {}, .loop false, .loop false, .loop false,
    .loop false, .loop false, .loop false, .loop false, .loop false]

theorem lifoRun_executed :
    ((queueSystem false).run lifoRun).map (fun s => (s.shared.appended, s.shared.executed)) =
      some ([0, 1], [1]) := by decide

/-- The queue is not first in, first out. -/
theorem not_fifo_lifoRun : ¬ (queueSystem false).Always Fifo ⟨{}, []⟩ lifoRun := by
  intro h
  obtain ⟨s, hrun, hitems⟩ := Option.map_eq_some_iff.1 lifoRun_executed
  have hfifo : Fifo s := h.last hrun
  rw [Fifo, (Prod.mk.inj hitems).1, (Prod.mk.inj hitems).2] at hfifo
  exact absurd hfifo (by decide)

end RuBLE.CallbackQueue
