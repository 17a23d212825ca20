import Mathlib
import RuBLE.Library.System

/-!
# `InRuby` and its guards

The model of `utils/ruby_context.hpp`: an `InRuby` object counts, in a
`uint64_t`, the `InRubyGuard` objects made from it, and answers "yes" while the
count is positive.  A `Store` holds any number of `InRuby` objects and of
guards; an `Op` is one constructor, assignment or destructor call on a guard.

* `Store.moveAssign` is the move assignment, statement by statement; the move
  constructor calls it, as the source does.
* `surplus` — how far the count of an `InRuby` is ahead of its live guards,
  modulo the counter's range.  `surplus_step` is the step lemma: only a move
  whose source is engaged changes it, and always by one.
* `guardCount_iff` — the counts are exact throughout a run precisely when no
  move has an engaged source (and no `InRuby` has `2^64` guards at once).
* `mainThreadInit` — what `Init_RuBLE` does with `main_thread_in_ruby`.
-/

namespace RuBLE.RubyContext

open Transition

/-! ## Objects -/

/-- `InRuby`: a use count of 64 bits. -/
structure InRuby where
  useCount : UInt64 := 0
  deriving DecidableEq, Repr

/-- `InRuby::state`, also its conversion to `bool`. -/
def InRuby.state (r : InRuby) : Bool := decide (0 < r.useCount)

/-- The address of an `InRuby` object. -/
abbrev InRubyId := Nat

/-- The address of a guard; guards are numbered in the order they are constructed. -/
abbrev GuardId := Nat

/-- A guard: while it lives, its member `_inRuby`, a pointer that may be null. -/
inductive InRubyGuard where
  | live (inRuby : Option InRubyId)
  | destroyed
  deriving DecidableEq, Repr

/-- The guard's `_inRuby`; a destroyed guard has none. -/
def InRubyGuard.inRuby : InRubyGuard → Option InRubyId
  | .live p => p
  | .destroyed => none

/-- All the `InRuby` objects and all the guards ever constructed. -/
structure Store where
  inRubys : InRubyId → InRuby
  guards : List InRubyGuard

namespace Store

/-- No guard yet, every count zero. -/
def empty : Store := ⟨fun _ => {}, []⟩

/-- `InRuby::use_count`. -/
def useCount (s : Store) (x : InRubyId) : UInt64 := (s.inRubys x).useCount

/-- The number of live guards whose `_inRuby` points to `x`. -/
def live (s : Store) (x : InRubyId) : Nat := s.guards.count (.live (some x))

/-- Where guard `g` points, if it is alive and not empty. -/
def pointer (s : Store) (g : GuardId) : Option InRubyId := s.guards[g]?.bind (·.inRuby)

/-- Guard `g` has been constructed and not destroyed. -/
def alive (s : Store) (g : GuardId) : Bool :=
  match s.guards[g]? with
  | some (.live _) => true
  | _ => false

/-- `if (p != nullptr) ++p->_use_count`. -/
def incrementAt (s : Store) : Option InRubyId → Store
  | none => s
  | some x => { s with inRubys := Function.update s.inRubys x ⟨s.useCount x + 1⟩ }

/-- `if (p != nullptr) --p->_use_count`. -/
def decrementAt (s : Store) : Option InRubyId → Store
  | none => s
  | some x => { s with inRubys := Function.update s.inRubys x ⟨s.useCount x - 1⟩ }

/-- Write the member `_inRuby` of guard `g`. -/
def setGuard (s : Store) (g : GuardId) (p : InRubyGuard) : Store :=
  { s with guards := s.guards.set g p }

/-- The storage of one more guard, with what its constructor leaves in it. -/
def construct (s : Store) (p : Option InRubyId) : Store :=
  { s with guards := s.guards ++ [.live p] }

/-- `InRubyGuard::operator=(InRubyGuard &&other)` on guard `g`.  `g` and `other`
may be the same guard. -/
def moveAssign (s : Store) (g other : GuardId) : Option Store :=
  match s.guards[g]?, s.guards[other]? with
  | some (.live old), some (.live src) =>
      -- `old = std::exchange(_inRuby, other._inRuby)`
      let exchanged := s.setGuard g (.live src)
      let counted := (exchanged.incrementAt src).decrementAt old
      -- `other._inRuby = nullptr`, without a decrement for `other`
      some (counted.setGuard other (.live none))
  | _, _ => none

end Store

/-! ## Operations -/

/-- One operation of the class on its objects. -/
inductive Op where
  /-- `InRubyGuard()`. -/
  | construct
  /-- `InRuby::assert_in_ruby_guard` on `x`, constructing its result in place. -/
  | assertInRubyGuard (x : InRubyId)
  /-- `InRubyGuard(InRubyGuard &&other)`. -/
  | moveConstruct (other : GuardId)
  /-- `InRubyGuard::operator=(InRubyGuard &&other)`. -/
  | moveAssign (g other : GuardId)
  /-- `~InRubyGuard()`. -/
  | destroy (g : GuardId)
  deriving DecidableEq, Repr

/-- Perform an operation; `none` when it names a guard that is not alive. -/
def step (s : Store) : Op → Option Store
  | .construct => some (s.construct none)
  | .assertInRubyGuard x => some ((s.construct (some x)).incrementAt (some x))
  | .moveConstruct other =>
      if other < s.guards.length then
        -- `_inRuby` starts out null, then `*this = std::move(other)`
        (s.construct none).moveAssign s.guards.length other
      else none
  | .moveAssign g other => s.moveAssign g other
  | .destroy g =>
      match s.guards[g]? with
      | some (.live p) => some ((s.decrementAt p).setGuard g .destroyed)
      | _ => none

/-- The system of all the runs of operations. -/
def contextSystem : System Store Op := ⟨Store.empty, step⟩

/-- The `InRuby` that the source of a move points to, when the operation is a
move and its source is engaged. -/
def engagedSource (s : Store) : Op → Option InRubyId
  | .moveConstruct other => s.pointer other
  | .moveAssign g other => if s.alive g then s.pointer other else none
  | _ => none

/-- The operation takes a count below zero: a decrement finds it at zero. -/
def Underflows (s : Store) : Op → Prop
  | .destroy g => ∃ x, s.guards[g]? = some (.live (some x)) ∧ s.useCount x = 0
  | .moveAssign g other => ∃ x src, s.guards[g]? = some (.live (some x)) ∧
      s.guards[other]? = some (.live src) ∧ (s.incrementAt src).useCount x = 0
  | _ => False

/-! ## How far a count is ahead of its guards -/

/-- The range of `uint64_t`, as arithmetic on it sees it. -/
abbrev Word := ZMod (2 ^ 64)

/-- One, if `p` points to `x`. -/
def hit (p : Option InRubyId) (x : InRubyId) : Word := if p = some x then 1 else 0

@[simp] theorem hit_none (x : InRubyId) : hit none x = 0 := rfl

@[simp] theorem hit_self (x : InRubyId) : hit (some x) x = 1 := if_pos rfl

/-- The use count of `x` less the number of its live guards. -/
def surplus (s : Store) (x : InRubyId) : Word := ((s.useCount x).toNat : Word) - (s.live x : Word)

theorem toNat_add_one_cast (u : UInt64) : (((u + 1).toNat : ℕ) : Word) = (u.toNat : Word) + 1 := by
  rw [UInt64.toNat_add, ZMod.natCast_mod]
  simp

theorem toNat_sub_one_cast (u : UInt64) : (((u - 1).toNat : ℕ) : Word) = (u.toNat : Word) - 1 := by
  have h := toNat_add_one_cast (u - 1)
  rw [show u - 1 + 1 = u by simp] at h
  rw [h]
  ring

@[simp] theorem surplus_empty (x : InRubyId) : surplus Store.empty x = 0 := by
  simp [surplus, Store.empty, Store.useCount, Store.live]

theorem surplus_incrementAt (s : Store) (p : Option InRubyId) (x : InRubyId) :
    surplus (s.incrementAt p) x = surplus s x + hit p x := by
  cases p with
  | none => simp [Store.incrementAt]
  | some y =>
      by_cases h : y = x
      · subst h
        have hc : (s.incrementAt (some y)).useCount y = s.useCount y + 1 := by
          simp [Store.incrementAt, Store.useCount]
        have hl : (s.incrementAt (some y)).live y = s.live y := rfl
        rw [surplus, surplus, hc, hl, toNat_add_one_cast, hit, if_pos rfl]
        ring
      · have hc : (s.incrementAt (some y)).useCount x = s.useCount x := by
          simp [Store.incrementAt, Store.useCount, Ne.symm h]
        have hl : (s.incrementAt (some y)).live x = s.live x := rfl
        rw [surplus, surplus, hc, hl, hit, if_neg (by simpa using h), add_zero]

theorem surplus_decrementAt (s : Store) (p : Option InRubyId) (x : InRubyId) :
    surplus (s.decrementAt p) x = surplus s x - hit p x := by
  cases p with
  | none => simp [Store.decrementAt]
  | some y =>
      by_cases h : y = x
      · subst h
        have hc : (s.decrementAt (some y)).useCount y = s.useCount y - 1 := by
          simp [Store.decrementAt, Store.useCount]
        have hl : (s.decrementAt (some y)).live y = s.live y := rfl
        rw [surplus, surplus, hc, hl, toNat_sub_one_cast, hit, if_pos rfl]
        ring
      · have hc : (s.decrementAt (some y)).useCount x = s.useCount x := by
          simp [Store.decrementAt, Store.useCount, Ne.symm h]
        have hl : (s.decrementAt (some y)).live x = s.live x := rfl
        rw [surplus, surplus, hc, hl, hit, if_neg (by simpa using h), sub_zero]

theorem surplus_construct (s : Store) (p : Option InRubyId) (x : InRubyId) :
    surplus (s.construct p) x = surplus s x - hit p x := by
  have hl : ((s.construct p).live x : Word) = s.live x + hit p x := by
    by_cases h : p = some x <;> simp [Store.construct, Store.live, List.count_append, hit, h]
  rw [surplus, surplus, hl, show (s.construct p).useCount x = s.useCount x from rfl]
  ring

/-- Overwriting a guard takes what it pointed to off the books of `x`, and puts
what it points to now on them. -/
theorem surplus_setGuard {s : Store} {g : GuardId} {old : InRubyGuard} (h : s.guards[g]? = some old)
    (new : InRubyGuard) (x : InRubyId) :
    surplus (s.setGuard g new) x = surplus s x + hit old.inRuby x - hit new.inRuby x := by
  obtain ⟨hlt, hget⟩ := List.getElem?_eq_some_iff.1 h
  have hcast : ∀ p : InRubyGuard, ((if p == .live (some x) then 1 else 0 : ℕ) : Word) = hit p.inRuby x := by
    intro p
    cases p with
    | live q => by_cases hq : q = some x <;> simp [hit, InRubyGuard.inRuby, hq]
    | destroyed => simp [hit, InRubyGuard.inRuby]
  have hle : (if old == .live (some x) then 1 else 0) ≤ s.live x := by
    split
    · next heq =>
        have hmem : InRubyGuard.live (some x) ∈ s.guards := by
          rw [← eq_of_beq heq, ← hget]
          exact List.getElem_mem hlt
        exact List.count_pos_iff.2 hmem
    · exact Nat.zero_le _
  have hl : ((s.setGuard g new).live x : Word) = s.live x - hit old.inRuby x + hit new.inRuby x := by
    rw [Store.setGuard, Store.live, List.count_set hlt, hget, Nat.cast_add, ← Store.live,
      Nat.cast_sub hle, hcast, hcast]
  rw [surplus, surplus, hl, show (s.setGuard g new).useCount x = s.useCount x from rfl]
  ring

/-- **A move assignment leaks one count per engaged source.**  Its exchange and
its two counting statements balance; the last statement, which empties the
source, does not. -/
theorem surplus_moveAssign {s t : Store} {g other : GuardId} (h : s.moveAssign g other = some t)
    (x : InRubyId) :
    surplus t x = surplus s x + hit (s.pointer other) x := by
  unfold Store.moveAssign at h
  split at h
  · next old src hg hother =>
      cases h
      have hlt : g < s.guards.length := (List.getElem?_eq_some_iff.1 hg).1
      -- after the exchange `other` still holds `src`, also when it is `g` itself
      have hstill : (((s.setGuard g (.live src)).incrementAt src).decrementAt old).guards[other]? =
          some (.live src) := by
        have hguards : (((s.setGuard g (.live src)).incrementAt src).decrementAt old).guards =
            s.guards.set g (.live src) := by
          cases src <;> cases old <;> rfl
        rw [hguards, List.getElem?_set]
        split
        · next heq => subst heq; simp
        · exact hother
      rw [surplus_setGuard hstill, surplus_decrementAt, surplus_incrementAt, surplus_setGuard hg,
        Store.pointer, hother]
      simp only [InRubyGuard.inRuby, Option.bind_some, hit_none]
      ring
  · cases h

/-- **The step lemma.**  One operation changes the surplus only when it is a
move with an engaged source, and then by one. -/
theorem surplus_step {s t : Store} {op : Op} (h : step s op = some t) (x : InRubyId) :
    surplus t x = surplus s x + hit (engagedSource s op) x := by
  cases op with
  | construct =>
      cases h
      rw [surplus_construct]
      simp [engagedSource]
  | assertInRubyGuard y =>
      cases h
      rw [surplus_incrementAt, surplus_construct]
      simp [engagedSource]
  | moveConstruct other =>
      simp only [step] at h
      split at h
      · next hlt =>
          have hsame : (s.construct none).pointer other = s.pointer other := by
            rw [Store.pointer, Store.construct, List.getElem?_append_left hlt]
            rfl
          rw [surplus_moveAssign h, surplus_construct, hsame, hit_none, sub_zero]
          rfl
      · cases h
  | moveAssign g other =>
      have halive : s.alive g = true := by
        simp only [step, Store.moveAssign] at h
        split at h
        · next old src hg hother => simp [Store.alive, hg]
        · cases h
      rw [surplus_moveAssign h, engagedSource, if_pos halive]
  | destroy g =>
      simp only [step] at h
      split at h
      · next p hg =>
          cases h
          have hg' : (s.decrementAt p).guards[g]? = some (.live p) := by
            cases p <;> exact hg
          rw [surplus_setGuard hg', surplus_decrementAt]
          simp only [engagedSource, InRubyGuard.inRuby, hit_none]
          ring
      · cases h

/-! ## Exact counts -/

/-- Every use count is the number of live guards, so `state()` is false for an
`InRuby` without guards. -/
def Exact (s : Store) : Prop :=
  ∀ x, (s.useCount x).toNat = s.live x ∧ (s.live x = 0 → (s.inRubys x).state = false)

/-- Fewer than `2^64` guards of each `InRuby` are alive. -/
def Fits (s : Store) : Prop := ∀ x, s.live x < 2 ^ 64

/-- At every point of the run the counts are exact, and none ever underflows. -/
def GuardCount (ops : List Op) : Prop :=
  contextSystem.Always Exact Store.empty ops ∧
    contextSystem.Meets (fun s op => ¬ Underflows s op) Store.empty ops

theorem Exact.surplus_eq_zero {s : Store} (h : Exact s) (x : InRubyId) : surplus s x = 0 := by
  rw [surplus, (h x).1, sub_self]

theorem Exact.fits {s : Store} (h : Exact s) : Fits s := by
  intro x
  rw [← (h x).1]
  exact (s.useCount x).toNat_lt

theorem exact_of_surplus {s : Store} (hz : ∀ x, surplus s x = 0) (hf : Fits s) : Exact s := by
  intro x
  have hcount : (s.useCount x).toNat = s.live x := by
    have hcast : ((s.useCount x).toNat : Word) = (s.live x : Word) := sub_eq_zero.1 (hz x)
    have hmod := (ZMod.natCast_eq_natCast_iff' _ _ _).1 hcast
    rwa [Nat.mod_eq_of_lt (s.useCount x).toNat_lt, Nat.mod_eq_of_lt (hf x)] at hmod
  refine ⟨hcount, fun hl => ?_⟩
  have hzero : s.useCount x = 0 := by
    rw [hl] at hcount
    exact UInt64.toNat_inj.1 hcount
  simp [InRuby.state, show (s.inRubys x).useCount = 0 from hzero]

theorem guards_of_pointer {s : Store} {g : GuardId} {x : InRubyId} (h : s.pointer g = some x) :
    s.guards[g]? = some (.live (some x)) := by
  obtain ⟨p, hp, hx⟩ := Option.bind_eq_some_iff.1 h
  cases p with
  | live q => rw [hp, show q = some x from hx]
  | destroyed => cases hx

theorem alive_iff {s : Store} {g : GuardId} :
    s.alive g = true ↔ ∃ p, s.guards[g]? = some (.live p) := by
  unfold Store.alive
  split
  · next p hg => simp [hg]
  · next hg => exact ⟨fun h => absurd h (by simp), fun ⟨p, hp⟩ => absurd hp (hg p)⟩

/-- A move with an engaged source is never refused. -/
theorem engagedSource_of_refused {s : Store} {op : Op} (h : step s op = none) :
    engagedSource s op = none := by
  cases hsrc : engagedSource s op with
  | none => rfl
  | some x =>
      exfalso
      cases op with
      | construct => cases hsrc
      | assertInRubyGuard y => cases hsrc
      | destroy g => cases hsrc
      | moveConstruct other =>
          have hother := guards_of_pointer hsrc
          have hlt : other < s.guards.length := (List.getElem?_eq_some_iff.1 hother).1
          have hother' : (s.construct none).guards[other]? = some (.live (some x)) := by
            rw [Store.construct, List.getElem?_append_left hlt, hother]
          have hnew : (s.construct none).guards[s.guards.length]? = some (.live none) := by
            simp [Store.construct]
          simp [step, hlt, Store.moveAssign, hother', hnew] at h
      | moveAssign g other =>
          rw [engagedSource] at hsrc
          split at hsrc
          · next halive =>
              obtain ⟨p, hp⟩ := alive_iff.1 halive
              simp [step, Store.moveAssign, hp, guards_of_pointer hsrc] at h
          · cases hsrc

/-- With exact counts a decrement never meets a zero, unless the operation is a
move with an engaged source. -/
theorem not_underflows {s : Store} {op : Op} (he : Exact s) (hc : engagedSource s op = none) :
    ¬ Underflows s op := by
  have hpos : ∀ (g : GuardId) (x : InRubyId),
      s.guards[g]? = some (InRubyGuard.live (some x)) → s.useCount x ≠ 0 := by
    intro g x hg hzero
    have hmem : InRubyGuard.live (some x) ∈ s.guards := List.mem_of_getElem? hg
    have hlive : 0 < s.live x := List.count_pos_iff.2 hmem
    have := (he x).1
    rw [hzero] at this
    simp at this
    omega
  cases op with
  | construct => exact id
  | assertInRubyGuard x => exact id
  | moveConstruct other => exact id
  | moveAssign g other =>
      rintro ⟨x, src, hg, hother, hzero⟩
      have halive : s.alive g = true := by simp [Store.alive, hg]
      rw [engagedSource, if_pos halive, Store.pointer, hother] at hc
      obtain rfl : src = none := by simpa [InRubyGuard.inRuby] using hc
      exact hpos g x hg hzero
  | destroy g =>
      rintro ⟨x, hg, hzero⟩
      exact hpos g x hg hzero

/-- A run without engaged moves keeps every surplus at zero. -/
theorem surplus_run {ops : List Op} {t : Store}
    (hc : contextSystem.Meets (fun s op => engagedSource s op = none) Store.empty ops)
    (h : contextSystem.runFrom Store.empty ops = some t) (x : InRubyId) : surplus t x = 0 := by
  refine System.invariant_of_meets (P := fun s => surplus s x = 0) ?_ (surplus_empty x) hc h
  intro s op u hs hclean hstep
  rw [surplus_step hstep, hs, hclean, hit_none, add_zero]

/-- Exact counts on both sides of a step mean that the step was not a move with
an engaged source. -/
theorem engagedSource_of_exact {s t : Store} {op : Op} (hs : Exact s) (ht : Exact t)
    (h : step s op = some t) : engagedSource s op = none := by
  cases hsrc : engagedSource s op with
  | none => rfl
  | some x =>
      have hx := surplus_step h x
      rw [hs.surplus_eq_zero, ht.surplus_eq_zero, hsrc, zero_add] at hx
      rw [hit_self] at hx
      exact absurd hx (by decide)

theorem clean_of_always_exact {ops : List Op}
    (h : contextSystem.Always Exact Store.empty ops) :
    contextSystem.Meets (fun s op => engagedSource s op = none) Store.empty ops := by
  induction ops using List.reverseRecOn with
  | nil => trivial
  | append_singleton ops op ih =>
      obtain ⟨hbefore, hlast⟩ := System.always_concat.1 h
      refine System.meets_concat.2 ⟨ih hbefore, fun s hs => ?_⟩
      cases hstep : step s op with
      | none => exact engagedSource_of_refused hstep
      | some t =>
          refine engagedSource_of_exact (hbefore.last hs) (hlast t ?_) hstep
          rw [System.runFrom_concat, hs]
          exact hstep

/-- **When the counts are exact.**  Throughout a run of constructions, moves
and destructions, every use count is the number of live guards and no count
underflows, precisely when no move (construction or assignment) has an engaged
source and never as many as `2^64` guards of one `InRuby` are alive. -/
theorem guardCount_iff (ops : List Op) :
    GuardCount ops ↔
      contextSystem.Meets (fun s op => engagedSource s op = none) Store.empty ops ∧
        contextSystem.Always Fits Store.empty ops := by
  constructor
  · rintro ⟨hexact, -⟩
    exact ⟨clean_of_always_exact hexact, fun bs hbs t ht => (hexact bs hbs t ht).fits⟩
  · rintro ⟨hclean, hfits⟩
    have hexact : contextSystem.Always Exact Store.empty ops := fun bs hbs t ht =>
      exact_of_surplus (surplus_run (hclean.of_initial hbs) ht) (hfits bs hbs t ht)
    refine ⟨hexact, ?_⟩
    clear hfits
    induction ops using List.reverseRecOn with
    | nil => trivial
    | append_singleton ops op ih =>
        obtain ⟨hcleanBefore, hcleanLast⟩ := System.meets_concat.1 hclean
        obtain ⟨hbefore, -⟩ := System.always_concat.1 hexact
        exact System.meets_concat.2 ⟨ih hcleanBefore hbefore, fun s hs =>
          not_underflows (hbefore.last hs) (hcleanLast s hs)⟩

/-! ## The guard of the main thread -/

/-- What `Init_RuBLE` does on its thread's `in_ruby`, which is `x`: the global
`main_thread_in_ruby` was constructed empty; a temporary guard is made, moved
into it and destroyed. -/
def mainThreadInit (x : InRubyId) : List Op :=
  [.construct, .assertInRubyGuard x, .moveAssign 0 1, .destroy 1]

/-- After `Init_RuBLE` the use count is two, with one guard alive. -/
theorem mainThreadInit_count :
    (contextSystem.run (mainThreadInit 0)).map (fun s => (s.useCount 0, s.live 0)) =
      some (2, 1) := by decide

/-- The count of the main thread's `in_ruby` is not that of its guards. -/
theorem not_guardCount_mainThreadInit : ¬ GuardCount (mainThreadInit 0) := by
  rintro ⟨hexact, -⟩
  obtain ⟨s, hrun, hcount⟩ := Option.map_eq_some_iff.1 mainThreadInit_count
  simp only [Prod.mk.injEq] at hcount
  have hlive := (hexact.last hrun 0).1
  rw [hcount.1, hcount.2] at hlive
  exact absurd hlive (by decide)

end RuBLE.RubyContext
