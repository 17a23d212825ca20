import Mathlib
import RuBLE.Bindings.Objects
import RuBLE.Containers.NamedBitSet

/-!
# Status flags

`status_flags` of adapters and of peripherals.  Both keep static variables, which
are initialised by the first call and stay.

* `Adapter.statusFlags`, `Peripheral.statusFlags` — the functions.
* `StatusCall` — one call, at a moment of the backend, with the maps of testers
  iterated in any order.
* `ReceiverOnly` — what a call says should depend on its receiver alone.
* `receiverOnly_iff` — **when it does**: always for a peripheral; an adapter is
  told the flags of the first adapter that was ever asked.
-/

namespace RuBLE

open Transition

/-! ## The functions -/

/-- What the backend answers about an adapter. -/
structure AdapterStatus where
  initialized : Bool := true
  scanning : Bool := false
  deriving DecidableEq, Repr

/-- What the backend answers about a peripheral. -/
structure PeripheralStatus where
  initialized : Bool := true
  paired : Bool := false
  connected : Bool := false
  connectable : Bool := false
  deriving DecidableEq, Repr

/-- What the backend answers at one moment. -/
structure BackendStatus where
  adapter : Ptr → AdapterStatus := fun _ => {}
  peripheral : Ptr → PeripheralStatus := fun _ => {}

/-- `possible_flag_fns`. -/
def Adapter.possibleFlagFns : List (String × (AdapterStatus → Bool)) :=
  [("initialized", (·.initialized)), ("scanning", (·.scanning))]

/-- `StatusFlagNames`. -/
def Peripheral.statusFlagNames : List String := ["initialized", "connected", "connectable", "paired"]

/-- `status_flag_testers`. -/
def Peripheral.statusFlagTesters : List (String × FlagCheck PeripheralStatus) :=
  [("initialized", .member (·.initialized)), ("paired", .member (·.paired)),
    ("connected", .member (·.connected)), ("connectable", .member (·.connectable))]

/-- The static variables that are not constants. -/
structure Statics where
  /-- The `this` that `flag_check` has captured. -/
  flagCheck : Option Ptr := none
  deriving DecidableEq, Repr

/-- `Adapter::status_flags`.  `fns` is the static map, in the order of its
iteration. -/
def Adapter.statusFlags (fns : List (String × (AdapterStatus → Bool))) (now : BackendStatus)
    (this : Ptr) : Program Statics String (Finset String) := do
  -- `static auto flag_check = [this]`: only the first call captures its receiver
  Program.modify fun statics => { statics with flagCheck := some (statics.flagCheck.getD this) }
  let statics ← Program.get
  let captured := now.adapter (statics.flagCheck.getD this)
  return ((fns.filter fun pair => pair.2 captured).map (·.1)).toFinset

/-- `Peripheral::status_flags`, likewise. -/
def Peripheral.statusFlags (testers : List (String × FlagCheck PeripheralStatus))
    (now : BackendStatus) (this : Ptr) :
    Program Statics String (NamedBitSet Peripheral.statusFlagNames) :=
  Program.ofExcept (NamedBitSet.ofTesters testers (now.peripheral this))

/-- `Peripheral::statuses`. -/
def Peripheral.statuses (testers : List (String × FlagCheck PeripheralStatus))
    (now : BackendStatus) (this : Ptr) : Program Statics String (List String) := do
  return (← Peripheral.statusFlags testers now this).flagNames

/-! ## Calls and histories -/

/-- The object that is asked. -/
inductive Receiver where
  | adapter (this : Ptr)
  | peripheral (this : Ptr)
  deriving DecidableEq, Repr

/-- A call of `status_flags`, and all that it finds. -/
structure StatusCall where
  receiver : Receiver
  now : BackendStatus
  /-- The unordered maps, as they are iterated. -/
  fns : List (String × (AdapterStatus → Bool))
  testers : List (String × FlagCheck PeripheralStatus)
  fns_perm : fns.Perm Adapter.possibleFlagFns
  testers_perm : testers.Perm Peripheral.statusFlagTesters

namespace StatusCall

/-- The call, and the set of names it returns. -/
def run (c : StatusCall) : Program Statics String (Finset String) :=
  match c.receiver with
  | .adapter this => Adapter.statusFlags c.fns c.now this
  | .peripheral this => do return (← Peripheral.statuses c.testers c.now this).toFinset

/-- The static variables after a history of calls. -/
def after (h : List StatusCall) : Statics := h.foldl (fun statics c => (c.run.run statics).2) {}

/-- What a call returns after a history. -/
def result (c : StatusCall) (h : List StatusCall) : Except String (Finset String) :=
  (c.run.run (after h)).1

/-- The names whose tester is true of the receiver. -/
def ownFlags (c : StatusCall) : Finset String :=
  match c.receiver with
  | .adapter this =>
      ((Adapter.possibleFlagFns.filter fun pair => pair.2 (c.now.adapter this)).map (·.1)).toFinset
  | .peripheral this =>
      ((Peripheral.statusFlagTesters.filter fun pair =>
        pair.2.testFlag (c.now.peripheral this)).map (·.1)).toFinset

/-- The adapter that is asked, if one is. -/
def asked (c : StatusCall) : Option Ptr :=
  match c.receiver with
  | .adapter this => some this
  | .peripheral _ => none

/-- What a call returns depends on its receiver only. -/
structure ReceiverOnly (c : StatusCall) (h : List StatusCall) : Prop where
  /-- It is the set of names whose tester is true of the receiver. -/
  own : c.result h = .ok c.ownFlags
  /-- It is the same if no other object is ever asked. -/
  alone : c.result h = c.result (h.filter fun d => d.receiver = c.receiver)

/-- If an adapter is asked, then the first that was ever asked has the same
status. -/
def SameAsFirst (c : StatusCall) (h : List StatusCall) : Prop :=
  ∀ this first, c.receiver = .adapter this → h.findSome? asked = some first →
    c.now.adapter first = c.now.adapter this

/-! ## Peripherals -/

section Peripherals

variable {c : StatusCall} {this : Ptr}

/-- A peripheral is told its own flags, whatever has been asked before. -/
theorem run_peripheral (hc : c.receiver = .peripheral this) (statics : Statics) :
    c.run.run statics = (.ok c.ownFlags, statics) := by
  have hmem : ∀ p ∈ c.testers, p.1 ∈ Peripheral.statusFlagNames := by
    intro p hp
    have hp' := c.testers_perm.mem_iff.1 hp
    simp only [Peripheral.statusFlagTesters, List.mem_cons, List.not_mem_nil, or_false] at hp'
    rcases hp' with rfl | rfl | rfl | rfl <;> decide
  have hkeys : (c.testers.map (·.1)).Nodup :=
    (c.testers_perm.map (·.1)).nodup_iff.2 (by decide)
  obtain ⟨s, hs, hflags⟩ :=
    NamedBitSet.ofTesters_flagNames (c.now.peripheral this) (by decide) c.testers hmem hkeys
  have hown : s.flagNames.toFinset = c.ownFlags := by
    ext f
    rw [List.mem_toFinset, hflags]
    simp only [ownFlags, hc, List.mem_toFinset, List.mem_map, List.mem_filter,
      c.testers_perm.mem_iff]
    constructor
    · rintro ⟨p, hp, rfl, htest⟩
      exact ⟨p, ⟨hp, htest⟩, rfl⟩
    · rintro ⟨p, ⟨hp, htest⟩, rfl⟩
      exact ⟨p, hp, rfl, htest⟩
  have hflagSet : (Peripheral.statusFlags c.testers c.now this).run statics = (.ok s, statics) := by
    rw [Peripheral.statusFlags, hs]
    rfl
  simp only [run, hc]
  rw [Peripheral.statuses, bind_assoc, Program.run_bind_ok hflagSet, ← hown]
  rfl

end Peripherals

/-! ## Adapters -/

section Adapters

variable {c : StatusCall} {this : Ptr}

/-- An adapter is told the flags of the adapter that has been captured. -/
theorem run_adapter (hc : c.receiver = .adapter this) (statics : Statics) :
    c.run.run statics =
      (.ok ((Adapter.possibleFlagFns.filter fun pair =>
        pair.2 (c.now.adapter (statics.flagCheck.getD this))).map (·.1)).toFinset,
        { flagCheck := some (statics.flagCheck.getD this) }) := by
  have hperm := (c.fns_perm.filter fun pair =>
    pair.2 (c.now.adapter (statics.flagCheck.getD this))).map (·.1)
  rw [← List.toFinset_eq_of_perm _ _ hperm]
  simp only [run, hc]
  rfl

/-- A call captures its receiver, if that is an adapter and none was captured. -/
theorem flagCheck_run (c : StatusCall) (statics : Statics) :
    (c.run.run statics).2.flagCheck = statics.flagCheck.or c.asked := by
  cases hc : c.receiver with
  | adapter this =>
      rw [run_adapter hc, asked, hc]
      cases statics.flagCheck <;> rfl
  | peripheral this =>
      rw [run_peripheral hc, asked, hc, Option.or_none]

/-- What is captured after a history is the first adapter that was asked. -/
theorem flagCheck_after (h : List StatusCall) : (after h).flagCheck = h.findSome? asked := by
  induction h using List.reverseRecOn with
  | nil => rfl
  | append_singleton h c ih =>
      rw [after, List.foldl_append, ← after, List.findSome?_append, ← ih]
      simp only [List.foldl_cons, List.foldl_nil, flagCheck_run]
      cases hasked : c.asked <;> simp [List.findSome?, hasked]

/-- The flags tell the statuses of adapters apart. -/
theorem status_of_flags {a b : AdapterStatus}
    (h : ((Adapter.possibleFlagFns.filter fun pair => pair.2 a).map (·.1)).toFinset =
      ((Adapter.possibleFlagFns.filter fun pair => pair.2 b).map (·.1)).toFinset) : a = b := by
  obtain ⟨i, s⟩ := a
  obtain ⟨i', s'⟩ := b
  revert h
  cases i <;> cases s <;> cases i' <;> cases s' <;> decide

/-- Among the calls on one adapter, the first is on it. -/
theorem findSome?_same (hc : c.receiver = .adapter this) (h : List StatusCall) {first : Ptr}
    (hfirst : (h.filter fun d => d.receiver = c.receiver).findSome? asked = some first) :
    first = this := by
  obtain ⟨d, hd, hasked⟩ := List.exists_of_findSome?_eq_some hfirst
  have hreceiver : d.receiver = .adapter this := by
    simpa [hc] using (List.mem_filter.1 hd).2
  simpa [asked, hreceiver, eq_comm] using hasked

theorem result_of_sameAsFirst (h : List StatusCall) (hsame : c.SameAsFirst h) :
    c.result h = .ok c.ownFlags := by
  cases hc : c.receiver with
  | peripheral this => rw [result, run_peripheral hc]
  | adapter this =>
      rw [result, run_adapter hc, flagCheck_after]
      simp only [ownFlags, hc]
      cases hfirst : h.findSome? asked with
      | none => rfl
      | some first => rw [Option.getD_some, hsame this first hc hfirst]

end Adapters

/-- **When the result depends on the receiver only.**  It does of a peripheral,
and of an adapter that has, at that moment, the same status as the first adapter
that was ever asked. -/
theorem receiverOnly_iff (c : StatusCall) (h : List StatusCall) :
    c.ReceiverOnly h ↔ c.SameAsFirst h := by
  constructor
  · intro honly this first hc hfirst
    have hown := honly.own
    rw [result, run_adapter hc, flagCheck_after, hfirst, Option.getD_some, Except.ok.injEq] at hown
    simp only [ownFlags, hc] at hown
    exact status_of_flags hown
  · intro hsame
    have hown := result_of_sameAsFirst h hsame
    refine ⟨hown, hown.trans (result_of_sameAsFirst _ ?_).symm⟩
    intro this first hc hfirst
    rw [findSome?_same hc h hfirst]

/-- A call that finds the second adapter scanning, and the first one not. -/
def secondScans (this : Ptr) : StatusCall where
  receiver := .adapter this
  now := { adapter := fun p => { scanning := p = 1 } }
  fns := Adapter.possibleFlagFns
  testers := Peripheral.statusFlagTesters
  fns_perm := List.Perm.refl _
  testers_perm := List.Perm.refl _

/-- The second adapter is told the flags of the first. -/
theorem not_receiverOnly_secondScans :
    ¬ ∀ (c : StatusCall) (h : List StatusCall), c.ReceiverOnly h := by
  intro hall
  have hown := (hall (secondScans 1) [secondScans 0]).own
  revert hown
  decide

end StatusCall

end RuBLE
