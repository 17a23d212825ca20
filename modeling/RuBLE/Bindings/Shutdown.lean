import Mathlib
import RuBLE.Bindings.Registries
import RuBLE.Bindings.StatusFlags

/-!
# Shutting down

`DeInit` goes through the adapters and peripherals that the registries hold, and
then stops the callback queue.  It catches nothing.

* `deInit` — the function, with any of the calls it makes of the backend throwing.
* `World.shutdownCalls` — the calls it makes if none throws; `forEachAdapter_eq`
  says that it is these calls, one after the other.
* `SurvivesFailures` — what a shutdown should do in any case.
* `survivesFailures_iff` — **when it does**: only if none of the calls throws.
-/

namespace RuBLE

open Transition

/-! ## The functions -/

/-- A call that `DeInit` makes of the backend. -/
inductive ShutdownCall where
  | scanIsActive (adapter : Ptr)
  | scanStop (adapter : Ptr)
  | isPaired (peripheral : Ptr)
  | unpair (peripheral : Ptr)
  | isConnected (peripheral : Ptr)
  | disconnect (peripheral : Ptr)
  deriving DecidableEq, Repr

/-- What `DeInit` throws. -/
inductive ShutdownError where
  /-- An exception of the backend. -/
  | backend (call : ShutdownCall)
  /-- A pointer to no object was followed. -/
  | badPointer
  deriving DecidableEq, Repr

/-- What `DeInit` leaves. -/
structure ShutdownState where
  /-- The static flag `called`. -/
  called : Bool := false
  /-- The calls it has made of the backend. -/
  calls : List ShutdownCall := []
  /-- It has called `RubyQueue::stop`. -/
  stopRequested : Bool := false
  deriving DecidableEq, Repr

/-- The backend during a shutdown: what it answers, and which of the calls throw,
counted from zero. -/
structure ShutdownBackend where
  status : BackendStatus
  throws : Nat → Bool

/-- Code that `DeInit` runs. -/
abbrev Shutdown (α : Type) : Type := Program ShutdownState ShutdownError α

/-- A call of the backend. -/
def ShutdownBackend.call (b : ShutdownBackend) (c : ShutdownCall) : Shutdown Unit := do
  let s ← Program.get
  Program.modify fun s => { s with calls := s.calls ++ [c] }
  if b.throws s.calls.length then Program.throw (.backend c) else pure ()

section Functions

variable (b : ShutdownBackend)

/-- `Adapter::scan_is_active`. -/
def Adapter.scanIsActive (this : Ptr) : Shutdown Bool := do
  b.call (.scanIsActive this)
  return (b.status.adapter this).scanning

/-- `Adapter::scan_stop`. -/
def Adapter.scanStop (this : Ptr) : Shutdown Unit := do
  if ← Adapter.scanIsActive b this then b.call (.scanStop this)

/-- `Peripheral::is_paired`. -/
def Peripheral.isPaired (this : Ptr) : Shutdown Bool := do
  b.call (.isPaired this)
  return (b.status.peripheral this).paired

/-- `Peripheral::unpair`. -/
def Peripheral.unpair (this : Ptr) : Shutdown Unit := b.call (.unpair this)

/-- `Peripheral::is_connected`. -/
def Peripheral.isConnected (this : Ptr) : Shutdown Bool := do
  b.call (.isConnected this)
  return (b.status.peripheral this).connected

/-- `Peripheral::disconnect`. -/
def Peripheral.disconnect (this : Ptr) : Shutdown Unit := b.call (.disconnect this)

/-- `Registry::for_each`. -/
def Registry.forEach (registry : Registry) (fn : Ptr → Shutdown Unit) : Shutdown Unit :=
  registry.entries.toList.forM fun e => fn e.2

/-- What `DeInit` does with a peripheral. -/
def shutdownPeripheral (peripheral : Ptr) : Shutdown Unit := do
  if ← Peripheral.isPaired b peripheral then Peripheral.unpair b peripheral
  if ← Peripheral.isConnected b peripheral then Peripheral.disconnect b peripheral

/-- What `DeInit` does with an adapter. -/
def shutdownAdapter (w : World) (adapter : Ptr) : Shutdown Unit := do
  let a ← Program.orThrow .badPointer (w.adapters.get? adapter)
  if ← Adapter.scanIsActive b adapter then Adapter.scanStop b adapter
  let registry ← Program.orThrow .badPointer (w.registryAt? .peripheral a.peripheralRegistry)
  registry.forEach (shutdownPeripheral b)

/-- `RubyQueue::stop_on_exit`.  It calls `stop` first, and does not throw. -/
def stopOnExit : Shutdown Unit := Program.modify fun s => { s with stopRequested := true }

/-- `DeInit`. -/
def deInit (unpairAllOnExit : Bool) (w : World) : Shutdown Unit := do
  let s ← Program.get
  Program.modify fun s => { s with called := true }
  if s.called then return
  match w.registryAt? .adapter 0 with
  | some adapterRegistry =>
      Program.when unpairAllOnExit (adapterRegistry.forEach (shutdownAdapter b w))
  | none => pure ()
  stopOnExit

end Functions

/-! ## The calls -/

/-- The pointers that a registry holds, in the order of their keys. -/
def Registry.held (registry : Registry) : List Ptr := registry.entries.toList.map (·.2)

/-- The adapters held by `adapterRegistry`. -/
def World.heldAdapters (w : World) : List Ptr := (w.registryAt? .adapter 0).elim [] Registry.held

/-- The peripherals held by the registry of an adapter. -/
def World.heldPeripherals (w : World) (adapter : Ptr) : List Ptr :=
  ((w.adapters.get? adapter).bind fun a => w.registryAt? .peripheral a.peripheralRegistry).elim []
    Registry.held

/-- The calls made for a peripheral, if none throws. -/
def PeripheralStatus.shutdownCalls (status : PeripheralStatus) (p : Ptr) : List ShutdownCall :=
  [.isPaired p] ++ (if status.paired then [.unpair p] else []) ++
    ([.isConnected p] ++ if status.connected then [.disconnect p] else [])

/-- The calls made to stop an adapter's scan, if none throws. -/
def AdapterStatus.shutdownCalls (status : AdapterStatus) (a : Ptr) : List ShutdownCall :=
  [.scanIsActive a] ++ if status.scanning then [.scanIsActive a, .scanStop a] else []

/-- The calls that `DeInit` makes, if none throws. -/
def World.shutdownCalls (w : World) (status : BackendStatus) : List ShutdownCall :=
  w.heldAdapters.flatMap fun a => (status.adapter a).shutdownCalls a ++
    (w.heldPeripherals a).flatMap fun p => (status.peripheral p).shutdownCalls p

namespace ShutdownBackend

variable (b : ShutdownBackend)

/-- Make calls, one after the other. -/
def callAll (cs : List ShutdownCall) : Shutdown Unit := cs.forM b.call

theorem callAll_append (cs ds : List ShutdownCall) :
    b.callAll (cs ++ ds) = (do b.callAll cs; b.callAll ds) := by
  simp [callAll, List.forM_append]

theorem callAll_flatMap {α : Type} (xs : List α) (f : α → List ShutdownCall)
    (x : α → Shutdown Unit) (h : ∀ a ∈ xs, x a = b.callAll (f a)) :
    xs.forM x = b.callAll (xs.flatMap f) := by
  induction xs with
  | nil => rfl
  | cons a xs ih =>
      rw [List.forall_mem_cons] at h
      rw [List.flatMap_cons, callAll_append, ← ih h.2, ← h.1]
      rfl

theorem call_run (c : ShutdownCall) (s : ShutdownState) :
    (b.call c).run s =
      (if b.throws s.calls.length then .error (.backend c) else .ok (),
        { s with calls := s.calls ++ [c] }) := by
  unfold call
  rw [Program.run_bind_ok (show Program.get.run s = (.ok s, s) from rfl),
    Program.run_bind_ok (Program.run_modify _ s)]
  by_cases h : b.throws s.calls.length = true
  · simp only [h, if_true, Program.run_throw]
  · simp only [h, Bool.false_eq_true, if_false, Program.run_pure]

/-- The calls up to a position, none of which throws. -/
abbrev Quiet (start length : Nat) : Prop := ∀ n < length, b.throws (start + n) = false

/-- **A run of calls.**  All are made and none throws, or the last one made does. -/
theorem callAll_cases (cs : List ShutdownCall) (s : ShutdownState) :
    (b.Quiet s.calls.length cs.length ∧
        (b.callAll cs).run s = (.ok (), { s with calls := s.calls ++ cs })) ∨
      ∃ c made, ¬ b.Quiet s.calls.length cs.length ∧
        (b.callAll cs).run s = (.error (.backend c), { s with calls := s.calls ++ made }) := by
  induction cs generalizing s with
  | nil => exact .inl ⟨fun n hn => absurd hn (by simp), by simp [callAll, Program.run_pure]⟩
  | cons c cs ih =>
      have hcons : b.callAll (c :: cs) = (do b.call c; b.callAll cs) := by simp [callAll]
      have hcall := b.call_run c s
      rw [hcons]
      by_cases hc : b.throws s.calls.length = true
      · rw [if_pos hc] at hcall
        refine .inr ⟨c, [c], fun hquiet => ?_, Program.run_bind_error hcall⟩
        simpa [hc] using hquiet 0 (by simp)
      -- this call returns, so the rest is made from the next position on
      · rw [if_neg hc] at hcall
        rw [Program.run_bind_ok hcall]
        have hlength : (s.calls ++ [c]).length = s.calls.length + 1 := by simp
        have hnext : b.Quiet (s.calls.length + 1) cs.length ↔
            b.Quiet s.calls.length (c :: cs).length := by
          constructor
          · intro h n hn
            cases n with
            | zero => simpa using hc
            | succ n =>
                have := h n (by simpa using hn)
                rwa [show s.calls.length + (n + 1) = s.calls.length + 1 + n by omega]
          · intro h n hn
            have := h (n + 1) (by simpa using hn)
            rwa [show s.calls.length + 1 + n = s.calls.length + (n + 1) by omega]
        rcases ih { s with calls := s.calls ++ [c] } with ⟨hquiet, hrun⟩ | ⟨d, made, hloud, hrun⟩
        · refine .inl ⟨hnext.1 (by rwa [hlength] at hquiet), ?_⟩
          simpa using hrun
        · refine .inr ⟨d, c :: made, fun h => hloud (by rw [hlength]; exact hnext.2 h), ?_⟩
          simpa using hrun

end ShutdownBackend

section Calls

variable {H : Hashes} {w : World} (b : ShutdownBackend)

/-- The calls for a peripheral. -/
theorem shutdownPeripheral_eq (p : Ptr) :
    shutdownPeripheral b p = b.callAll ((b.status.peripheral p).shutdownCalls p) := by
  unfold shutdownPeripheral PeripheralStatus.shutdownCalls Peripheral.isPaired Peripheral.isConnected
  cases (b.status.peripheral p).paired <;> cases (b.status.peripheral p).connected <;>
    simp [ShutdownBackend.callAll, Peripheral.unpair, Peripheral.disconnect]

/-- The calls for an adapter whose registry is there. -/
theorem shutdownAdapter_eq {a : Ptr} {A : Adapter} {R : Registry} (hA : w.adapters.get? a = some A)
    (hR : w.registryAt? .peripheral A.peripheralRegistry = some R) :
    shutdownAdapter b w a =
      b.callAll ((b.status.adapter a).shutdownCalls a ++
        (w.heldPeripherals a).flatMap fun p => (b.status.peripheral p).shutdownCalls p) := by
  have hheld : w.heldPeripherals a = R.held := by
    rw [World.heldPeripherals, hA, Option.bind_some, hR, Option.elim_some]
  have hperipherals : R.forEach (shutdownPeripheral b) =
      b.callAll (R.held.flatMap fun p => (b.status.peripheral p).shutdownCalls p) := by
    rw [Registry.held, List.flatMap_map]
    exact b.callAll_flatMap _ _ _ fun e _ => shutdownPeripheral_eq b e.2
  unfold shutdownAdapter AdapterStatus.shutdownCalls Adapter.scanStop Adapter.scanIsActive
  rw [hheld, b.callAll_append, ← hperipherals, hA]
  cases (b.status.adapter a).scanning <;>
    simp [ShutdownBackend.callAll, Program.orThrow, hR]

/-- **The traversal.**  It is the calls, one after the other. -/
theorem forEachAdapter_eq (hw : (bindingsSystem H).Reachable w) {R : Registry}
    (hR : w.registryAt? .adapter 0 = some R) :
    R.forEach (shutdownAdapter b w) = b.callAll (w.shutdownCalls b.status) := by
  have hheld : w.heldAdapters = R.held := by rw [World.heldAdapters, hR, Option.elim_some]
  rw [World.shutdownCalls, hheld, Registry.held, List.flatMap_map]
  refine b.callAll_flatMap _ _ _ fun e he => ?_
  -- what the registry holds is an adapter, and its registry is there
  have hentry : R.entries[e.1]? = some e.2 := Std.TreeMap.mem_toList_iff_getElem?_eq_some.1 he
  obtain ⟨v, hlvl, -, hbuilt⟩ := registries hw .adapter 0 R e.1 e.2 hR hentry
  cases v with
  | adapter value =>
      obtain ⟨A, hA, -⟩ := hbuilt
      obtain ⟨R', hR'⟩ := (registriesMade hw).adapters e.2 A hA
      exact shutdownAdapter_eq b hA hR'
  | peripheral value | service value | characteristic value => cases hlvl

end Calls

/-! ## What a shutdown should do -/

/-- What the first call of `DeInit` leaves, with `unpair_all_on_exit` true. -/
def ShutdownBackend.firstDeInit (b : ShutdownBackend) (w : World) : ShutdownState :=
  ((deInit b true w).run {}).2

/-- The backend has said, in the course of these calls, that a peripheral is
connected, unless it threw when it was asked. -/
def ShutdownBackend.ReportedConnected (b : ShutdownBackend) (calls : List ShutdownCall) (p : Ptr) :
    Prop :=
  (b.status.peripheral p).connected = true ∧
    ∀ n, calls[n]? = some (.isConnected p) → b.throws n = false

/-- What the first call should have done, whether it returned or threw, and what
any later one should do. -/
structure SurvivesFailures (b : ShutdownBackend) (w : World) : Prop where
  disconnects : ∀ a ∈ w.heldAdapters, ∀ p ∈ w.heldPeripherals a,
    b.ReportedConnected (b.firstDeInit w).calls p → .disconnect p ∈ (b.firstDeInit w).calls
  stops : (b.firstDeInit w).stopRequested = true
  later : ∀ b' unpairAllOnExit w',
    (deInit b' unpairAllOnExit w').run (b.firstDeInit w) = (.ok (), b.firstDeInit w)

section SurvivesFailures

variable {H : Hashes} {w : World} {b : ShutdownBackend}

/-- **The once-flag.**  A later call does nothing. -/
theorem deInit_later (unpairAllOnExit : Bool) (w : World) {s : ShutdownState} (hs : s.called = true) :
    (deInit b unpairAllOnExit w).run s = (.ok (), s) := by
  cases s with
  | mk called calls stopRequested =>
      cases hs
      rfl

/-- **The first call.**  None of its calls throws, and it stops the queue; or one
throws, and it ends there. -/
theorem deInit_first (hw : (bindingsSystem H).Reachable w) :
    (b.Quiet 0 (w.shutdownCalls b.status).length ∧
        (deInit b true w).run {} =
          (.ok (), { called := true, calls := w.shutdownCalls b.status, stopRequested := true })) ∨
      ∃ c made, ¬ b.Quiet 0 (w.shutdownCalls b.status).length ∧
        (deInit b true w).run {} =
          (.error (.backend c), { called := true, calls := made, stopRequested := false }) := by
  obtain ⟨R, hR⟩ := (registriesMade hw).root
  have hrun : (deInit b true w).run {} =
      (do b.callAll (w.shutdownCalls b.status); stopOnExit : Shutdown Unit).run
        { called := true } := by
    rw [← forEachAdapter_eq b hw hR]
    unfold deInit
    rw [hR]
    rfl
  rw [hrun]
  rcases b.callAll_cases (w.shutdownCalls b.status) { called := true } with
    ⟨hquiet, hcalls⟩ | ⟨c, made, hloud, hcalls⟩
  · refine .inl ⟨hquiet, ?_⟩
    rw [Program.run_bind_ok hcalls]
    rfl
  · refine .inr ⟨c, made, hloud, ?_⟩
    rw [Program.run_bind_error hcalls]
    rfl

/-- Every peripheral held is asked, and told to disconnect if it is connected. -/
theorem mem_shutdownCalls {a p : Ptr} (ha : a ∈ w.heldAdapters) (hp : p ∈ w.heldPeripherals a)
    {status : BackendStatus} (hconnected : (status.peripheral p).connected = true) :
    .disconnect p ∈ w.shutdownCalls status := by
  rw [World.shutdownCalls, List.mem_flatMap]
  refine ⟨a, ha, List.mem_append_right _ (List.mem_flatMap.2 ⟨p, hp, ?_⟩)⟩
  simp [PeripheralStatus.shutdownCalls, hconnected]

/-- **When a shutdown survives.**  It survives no failure: it is complete if and
only if none of the calls throws that it makes when none does. -/
theorem survivesFailures_iff (hw : (bindingsSystem H).Reachable w) :
    SurvivesFailures b w ↔ ∀ n < (w.shutdownCalls b.status).length, b.throws n = false := by
  have hquiet : b.Quiet 0 (w.shutdownCalls b.status).length ↔
      ∀ n < (w.shutdownCalls b.status).length, b.throws n = false := by
    simp [ShutdownBackend.Quiet]
  rw [← hquiet]
  rcases deInit_first (b := b) hw with ⟨h, hrun⟩ | ⟨c, made, h, hrun⟩
  · refine ⟨fun _ => h, fun _ => ?_⟩
    have hfirst := congrArg Prod.snd hrun
    constructor
    · intro a ha p hp hreported
      rw [ShutdownBackend.firstDeInit, hfirst]
      exact mem_shutdownCalls ha hp hreported.1
    · rw [ShutdownBackend.firstDeInit, hfirst]
    · intro b' unpairAllOnExit w'
      rw [ShutdownBackend.firstDeInit, hfirst]
      exact deInit_later unpairAllOnExit w' rfl
  · refine ⟨fun hsurvives => ?_, fun hall => absurd hall h⟩
    have hstops := hsurvives.stops
    rw [ShutdownBackend.firstDeInit, hrun] at hstops
    cases hstops

/-- An adapter has been found, and a peripheral by it. -/
def oneOfEach : List Action :=
  [.fetch ⟨0, .adapter ⟨0, "00:00:00:00:00:01"⟩, {}⟩,
    .fetch ⟨0, .peripheral { backend := 0, address := "00:00:00:00:00:02" }, {}⟩]

/-- The adapter scans, and the peripheral is connected. -/
def allActive : BackendStatus where
  adapter _ := { scanning := true }
  peripheral _ := { connected := true }

theorem oneOfEach_held : ((bindingsSystem sampleHashes).run oneOfEach).map (fun w =>
    (w.heldAdapters, w.heldPeripherals 0, w.shutdownCalls allActive)) =
    some ([0], [0], [.scanIsActive 0, .scanIsActive 0, .scanStop 0, .isPaired 0, .isConnected 0,
      .disconnect 0]) := by
  decide +kernel

/-- Nothing throws, and the shutdown is complete. -/
theorem survivesFailures_oneOfEach :
    ∃ w, (bindingsSystem sampleHashes).run oneOfEach = some w ∧
      SurvivesFailures ⟨allActive, fun _ => false⟩ w := by
  obtain ⟨w, hrun, -⟩ := Option.map_eq_some_iff.1 oneOfEach_held
  exact ⟨w, hrun, (survivesFailures_iff (System.reachable_of_run hrun)).2 fun _ _ => rfl⟩

/-- The adapter's `scan_stop` throws, and the queue is not asked to stop. -/
theorem not_survivesFailures_scanStop :
    ¬ ∀ (H : Hashes) (w : World) (b : ShutdownBackend), (bindingsSystem H).Reachable w →
      SurvivesFailures b w := by
  intro hall
  obtain ⟨w, hrun, hw⟩ := Option.map_eq_some_iff.1 oneOfEach_held
  have hreach := System.reachable_of_run hrun
  have hstops := (hall sampleHashes w ⟨allActive, (· = 2)⟩ hreach).stops
  obtain ⟨-, hw⟩ := Prod.mk.inj hw
  obtain ⟨-, hcalls⟩ := Prod.mk.inj hw
  rcases deInit_first (b := ⟨allActive, (· = 2)⟩) hreach with ⟨h, -⟩ | ⟨c, made, -, hdeInit⟩
  · have := h 2 (by rw [hcalls]; decide)
    simp at this
  · rw [ShutdownBackend.firstDeInit, hdeInit] at hstops
    cases hstops

end SurvivesFailures

end RuBLE
