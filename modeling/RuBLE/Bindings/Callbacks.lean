import Mathlib
import RuBLE.Bindings.Delivery
import RuBLE.Bindings.Registries
import RuBLE.Concerns.CharacteristicValueTracker
import RuBLE.Utils.RubyCallbackTraits

/-!
# Which procs are called, and with what

Ruby code sets procs as callbacks of proxies.  An item of the queue, when it is
run, fires one of them.

* `Adapter.setOnScanStart` .. `Characteristic.setOnIndicate`, `Item.fire` — the
  setters, and the lambdas of the queue; `Item.fire_state` says that they leave
  the world that `Item.prog` leaves.
* `callbackSystem` — the runs of `bindingsSystem`, with calls of the setters in
  between, and a record of the procs called.
* `Everywhere` — an invariant of the single proxies; `Everywhere.action` is its rule.
* `callback_called` — **every call has its cause**: it is made by an item for an
  event that has been delivered, of a proc set on the proxy the event is about,
  and is passed this proxy's object.
* `calls_accepted` — **no call raises an `ArgumentError`**, if the procs fit the
  counters of the check made when they are set.
-/

namespace RuBLE

open Transition

/-! ## The functions -/

/-- `callback->set(cb)`, of a callback of a proxy. -/
def setVia {α : Type} (get : α → Callback) (put : α → Callback → α)
    (procOf : ObjectId → Option RubyProc) (cb : Option ObjectId) (this : α) :
    Except CallbackError Unit × α :=
  let (result, callback) := (Callback.set procOf cb).run (get this)
  (result, put this callback)

/-- `Adapter::on_scan_start`. -/
def Adapter.setOnScanStart := setVia Adapter.onScanStart fun a cb => { a with onScanStart := cb }

/-- `Adapter::on_scan_stop`. -/
def Adapter.setOnScanStop := setVia Adapter.onScanStop fun a cb => { a with onScanStop := cb }

/-- `Adapter::on_scan_update`. -/
def Adapter.setOnScanUpdate := setVia Adapter.onScanUpdate fun a cb => { a with onScanUpdate := cb }

/-- `Adapter::on_scan_find`. -/
def Adapter.setOnScanFind := setVia Adapter.onScanFind fun a cb => { a with onScanFind := cb }

/-- `Peripheral::on_connect`. -/
def Peripheral.setOnConnect := setVia Peripheral.onConnected fun p cb => { p with onConnected := cb }

/-- `Peripheral::on_disconnect`. -/
def Peripheral.setOnDisconnect :=
  setVia Peripheral.onDisconnected fun p cb => { p with onDisconnected := cb }

/-- `Characteristic::set_on_notify`: the callback is made when it is first set. -/
def Characteristic.setOnNotify :=
  setVia (fun c : Characteristic => c.onNotify.getD { argCount := 2 })
    fun c cb => { c with onNotify := some cb }

/-- `Characteristic::set_on_indicate`, likewise. -/
def Characteristic.setOnIndicate :=
  setVia (fun c : Characteristic => c.onIndicate.getD { argCount := 2 })
    fun c cb => { c with onIndicate := some cb }

/-- What a proc is passed: the Ruby object of a proxy, or bytes. -/
inductive Arg where
  | object (id : ObjectId)
  | bytes (data : List UInt8)
  deriving DecidableEq, Repr

/-- A call of a proc. -/
structure Call where
  proc : ObjectId
  args : List Arg
  deriving DecidableEq, Repr

/-- `callback->fire(args...)`. -/
def Callback.call (cb : Callback) (args : List Arg) : Option Call :=
  (cb.fire args).map fun called => ⟨called.1, called.2⟩

/-- A call made by `fire_on_notify` or `fire_on_indicate`. -/
def Call.ofData (called : ObjectId × List UInt8 × ObjectId) : Call :=
  ⟨called.1, [.bytes called.2.1, .object called.2.2]⟩

/-- The lambda that a callback of the backend pushes: the call it makes, if any. -/
def Item.fire (H : Hashes) (env : Env) : Item → Prog (Option Call)
  | .scanStart this => do
      let a ← deref World.adapters (some this)
      return a.onScanStart.call [.object a.self]
  | .scanStop this => do
      let a ← deref World.adapters (some this)
      return a.onScanStop.call [.object a.self]
  | .scanUpdate this value => do
      let a ← deref World.adapters (some this)
      let wrapped ← Fetch.prog H ⟨a.peripheralRegistry, .peripheral value, env⟩
      let a ← deref World.adapters (some this)
      let p ← deref World.peripherals (some wrapped)
      return a.onScanUpdate.call [.object p.self, .object a.self]
  | .scanFind this value => do
      let a ← deref World.adapters (some this)
      let wrapped ← Fetch.prog H ⟨a.peripheralRegistry, .peripheral value, env⟩
      let a ← deref World.adapters (some this)
      let p ← deref World.peripherals (some wrapped)
      return a.onScanFind.call [.object p.self, .object a.self]
  | .connected this => do
      let p ← deref World.peripherals (some this)
      return p.onConnected.call [.object p.self]
  | .disconnected this => do
      let p ← deref World.peripherals (some this)
      return p.onDisconnected.call [.object p.self]
  | .fireOnNotify this data => do
      let c ← deref World.characteristics (some this)
      Characteristic.recordNewValue this data
      return (c.fireOnNotify data).1.map Call.ofData
  | .fireOnIndicate this data => do
      let c ← deref World.characteristics (some this)
      return (c.fireOnIndicate data).1.map Call.ofData

/-- The queue takes an item, from the back, and runs it. -/
def fireItem (H : Hashes) (env : Env) : Prog (Option Call) := do
  let w ← Program.get
  match w.queue.getLast? with
  | none => return none
  | some item =>
      Program.modify fun w => { w with queue := w.queue.dropLast }
      item.fire H env

/-! ## The system -/

/-- The methods that set a callback. -/
inductive Setter where
  | onScanStart
  | onScanStop
  | onScanUpdate
  | onScanFind
  | onConnect
  | onDisconnect
  | onNotify
  | onIndicate
  deriving DecidableEq, Repr

/-- A member of an `Adapter` changes. -/
def World.updateAdapter (w : World) (this : Ptr) (f : Adapter → Adapter) : World :=
  { w with adapters := w.adapters.update this f }

/-- A member of a `Peripheral` changes. -/
def World.updatePeripheral (w : World) (this : Ptr) (f : Peripheral → Peripheral) : World :=
  { w with peripherals := w.peripherals.update this f }

/-- The method is called on the proxy at an address; if it throws, it has
changed what it has changed. -/
def Setter.apply (procOf : ObjectId → Option RubyProc) (this : Ptr) (cb : Option ObjectId) (w : World) :
    Setter → World
  | .onScanStart => w.updateAdapter this fun a => (a.setOnScanStart procOf cb).2
  | .onScanStop => w.updateAdapter this fun a => (a.setOnScanStop procOf cb).2
  | .onScanUpdate => w.updateAdapter this fun a => (a.setOnScanUpdate procOf cb).2
  | .onScanFind => w.updateAdapter this fun a => (a.setOnScanFind procOf cb).2
  | .onConnect => w.updatePeripheral this fun p => (p.setOnConnect procOf cb).2
  | .onDisconnect => w.updatePeripheral this fun p => (p.setOnDisconnect procOf cb).2
  | .onNotify => w.updateCharacteristic this fun c => (c.setOnNotify procOf cb).2
  | .onIndicate => w.updateCharacteristic this fun c => (c.setOnIndicate procOf cb).2

/-- The bindings, and the procs they have called so far. -/
structure Session where
  world : World := .init
  calls : List Call := []

/-- What can happen next. -/
inductive SessionAction where
  | bindings (a : Action)
  | set (setter : Setter) (this : Ptr) (cb : Option ObjectId)
  deriving DecidableEq, Repr

/-- The action of the bindings that it is, if it is one. -/
def SessionAction.action? : SessionAction → Option Action
  | .bindings a => some a
  | .set _ _ _ => none

/-- It happens. -/
def Session.step (H : Hashes) (procOf : ObjectId → Option RubyProc) (s : Session) :
    SessionAction → Session
  | .bindings (.runItem env) =>
      match (fireItem H env).run s.world with
      | (.ok (some call), w) => ⟨w, s.calls ++ [call]⟩
      | (_, w) => ⟨w, s.calls⟩
  | .bindings a => ⟨((a.prog H).run s.world).2, s.calls⟩
  | .set setter this cb => ⟨setter.apply procOf this cb s.world, s.calls⟩

/-- All runs of the bindings, with callbacks set in between.  `procOf` tells
which Ruby objects are procs, and with what parameters. -/
def callbackSystem (H : Hashes) (procOf : ObjectId → Option RubyProc) :
    System Session SessionAction :=
  ⟨{}, fun s a => some (s.step H procOf a)⟩

/-! ## The lambdas and the world -/

section Fire

variable {H : Hashes} {env : Env} {w w' : World} {item : Item} {call : Call}

/-- What is read at the end leaves no trace in the state. -/
theorem run_snd_of_reads {α β : Type} {x : Prog α} {f : α → Prog β}
    (hf : ∀ a t, ((f a).run t).2 = t) : ((x >>= f).run w).2 = (x.run w).2 := by
  cases hr : x.run w with
  | mk r t =>
      cases r with
      | ok a => rw [Program.run_bind_ok hr, hf]
      | error e => rw [Program.run_bind_error hr]

theorem deref_state {α : Type} (heap : World → Heap α) (p : Option Ptr) :
    ((deref heap p).run w).2 = w := by
  show ((Program.orThrow Error.badPointer (p.bind (heap w).get?)).run w).2 = w
  cases p.bind (heap w).get? with
  | none => rfl
  | some a => rfl

/-- The lambdas leave the world that the items leave. -/
theorem Item.fire_state (H : Hashes) (env : Env) (item : Item) (w : World) :
    ((item.fire H env).run w).2 = ((item.prog H env).run w).2 := by
  cases item with
  | scanStart this | scanStop this =>
      rw [Item.fire, Item.prog, run_snd_of_reads fun _ _ => rfl, run_snd_of_reads fun _ _ => rfl]
  | connected this | disconnected this =>
      rw [Item.fire, Item.prog, run_snd_of_reads fun _ _ => rfl, run_snd_of_reads fun _ _ => rfl]
  | fireOnIndicate this data =>
      rw [Item.fire, Item.prog, run_snd_of_reads fun _ _ => rfl, run_snd_of_reads fun _ _ => rfl]
  | fireOnNotify this data =>
      rw [Item.fire, Item.prog]
      cases hc : (deref World.characteristics (some this)).run w with
      | mk r t =>
          cases r with
          | ok c => rw [Program.run_bind_ok hc, Program.run_bind_ok hc, run_snd_of_reads fun _ _ => rfl]
          | error e => rw [Program.run_bind_error hc, Program.run_bind_error hc]
  | scanUpdate this value | scanFind this value =>
      rw [Item.fire, Item.prog]
      cases ha : (deref World.adapters (some this)).run w with
      | mk r t =>
          cases r with
          | error e => rw [Program.run_bind_error ha, Program.run_bind_error ha]
          | ok a =>
              rw [Program.run_bind_ok ha, Program.run_bind_ok ha, run_discard, run_snd_of_reads]
              intro p t
              rw [run_snd_of_reads, deref_state]
              intro a t
              rw [run_snd_of_reads fun _ _ => rfl, deref_state]

theorem fireItem_state (H : Hashes) (env : Env) (w : World) :
    ((fireItem H env).run w).2 = ((runItem H env).run w).2 := by
  rw [fireItem, runItem, Program.run_bind_ok (show Program.get.run w = (.ok w, w) from rfl),
    Program.run_bind_ok (show Program.get.run w = (.ok w, w) from rfl)]
  cases w.queue.getLast? with
  | none => rfl
  | some item => exact Item.fire_state H env item { w with queue := w.queue.dropLast }

/-- **What an item calls**, told from the world it leaves: the proc of the
callback it is for, with the object of its proxy last. -/
inductive Fired (w : World) : Item → Call → Prop
  | scanStart {this : Ptr} {A : Adapter} {proc : ObjectId} : w.adapters.get? this = some A →
      A.onScanStart.cb = some proc → Fired w (.scanStart this) ⟨proc, [.object A.self]⟩
  | scanStop {this : Ptr} {A : Adapter} {proc : ObjectId} : w.adapters.get? this = some A →
      A.onScanStop.cb = some proc → Fired w (.scanStop this) ⟨proc, [.object A.self]⟩
  | scanUpdate {this p : Ptr} {A : Adapter} {value : SimpleBLE.Peripheral} {P : Peripheral}
      {proc : ObjectId} : w.adapters.get? this = some A →
      Keeps .peripheral A.peripheralRegistry value.address p w → w.peripherals.get? p = some P →
      A.onScanUpdate.cb = some proc →
      Fired w (.scanUpdate this value) ⟨proc, [.object P.self, .object A.self]⟩
  | scanFind {this p : Ptr} {A : Adapter} {value : SimpleBLE.Peripheral} {P : Peripheral}
      {proc : ObjectId} : w.adapters.get? this = some A →
      Keeps .peripheral A.peripheralRegistry value.address p w → w.peripherals.get? p = some P →
      A.onScanFind.cb = some proc →
      Fired w (.scanFind this value) ⟨proc, [.object P.self, .object A.self]⟩
  | connected {this : Ptr} {P : Peripheral} {proc : ObjectId} : w.peripherals.get? this = some P →
      P.onConnected.cb = some proc → Fired w (.connected this) ⟨proc, [.object P.self]⟩
  | disconnected {this : Ptr} {P : Peripheral} {proc : ObjectId} :
      w.peripherals.get? this = some P → P.onDisconnected.cb = some proc →
      Fired w (.disconnected this) ⟨proc, [.object P.self]⟩
  | fireOnNotify {this : Ptr} {C : Characteristic} {cb : Callback} {data : List UInt8}
      {proc : ObjectId} : w.characteristics.get? this = some C → C.onNotify = some cb →
      cb.cb = some proc → Fired w (.fireOnNotify this data) ⟨proc, [.bytes data, .object C.self]⟩
  | fireOnIndicate {this : Ptr} {C : Characteristic} {cb : Callback} {data : List UInt8}
      {proc : ObjectId} : w.characteristics.get? this = some C → C.onIndicate = some cb →
      cb.cb = some proc → Fired w (.fireOnIndicate this data) ⟨proc, [.bytes data, .object C.self]⟩

theorem Callback.call_eq_some {cb : Callback} {args : List Arg} (h : cb.call args = some call) :
    ∃ proc, cb.cb = some proc ∧ call = ⟨proc, args⟩ := by
  obtain ⟨called, hcalled, rfl⟩ := Option.map_eq_some_iff.1 h
  obtain ⟨proc, hproc, rfl⟩ := Option.map_eq_some_iff.1 hcalled
  exact ⟨proc, hproc, rfl⟩

/-- A pointer that has been followed leads to an object, and nothing has changed. -/
theorem deref_ok {α : Type} {heap : World → Heap α} {p : Ptr} {a : α}
    (h : (deref heap (some p)).run w = (.ok a, w')) : w' = w ∧ (heap w).get? p = some a := by
  have hstate := deref_state (w := w) heap (some p)
  rw [h] at hstate
  have htriple : Program.Triple (· = w) (deref heap (some p))
      (fun a w' => w' = w ∧ ∃ q, some p = some q ∧ (heap w').get? q = some a) fun _ => True :=
    deref_triple fun _ _ => trivial
  obtain ⟨-, q, hq, ha⟩ := htriple.of_ok rfl h
  cases hq
  cases hstate
  exact ⟨rfl, ha⟩

/-- The lambda of a scan: the peripheral it passes on is the one that the
adapter's registry holds. -/
theorem scan_fired {this : Ptr} {value : SimpleBLE.Peripheral} {cb : Adapter → Callback}
    (h : (do
      let a ← deref World.adapters (some this)
      let wrapped ← Fetch.prog H ⟨a.peripheralRegistry, .peripheral value, env⟩
      let a ← deref World.adapters (some this)
      let p ← deref World.peripherals (some wrapped)
      return (cb a).call [.object p.self, .object a.self] : Prog (Option Call)).run w =
        (.ok (some call), w')) :
    ∃ (A : Adapter) (p : Ptr) (P : Peripheral) (proc : ObjectId), w'.adapters.get? this = some A ∧
      Keeps .peripheral A.peripheralRegistry value.address p w' ∧ w'.peripherals.get? p = some P ∧
        (cb A).cb = some proc ∧ call = ⟨proc, [.object P.self, .object A.self]⟩ := by
  obtain ⟨A₀, w₁, hA₀, h₁⟩ := Program.run_bind_cases h
  obtain ⟨rfl, hget₀⟩ := deref_ok hA₀
  obtain ⟨p, w₂, hfetch, h₂⟩ := Program.run_bind_cases h₁
  obtain ⟨A, w₃, hA, h₃⟩ := Program.run_bind_cases h₂
  obtain ⟨rfl, hget⟩ := deref_ok hA
  obtain ⟨P, w₄, hP, h₄⟩ := Program.run_bind_cases h₃
  obtain ⟨rfl, hgetP⟩ := deref_ok hP
  injection h₄ with hcall hw
  obtain rfl := hw
  obtain ⟨proc, hproc, rfl⟩ := Callback.call_eq_some (Except.ok.inj hcall)
  -- the fetch of a peripheral does not touch adapters
  have hleft : Program.Leaves World.adapters
      (Fetch.prog H ⟨A₀.peripheralRegistry, .peripheral value, env⟩) :=
    fetch_leaves (fun _ _ _ _ _ _ => rfl) _ fun owner =>
      Peripheral.construct_leaves (fun _ _ _ _ _ _ => rfl) (fun _ _ => rfl) value owner
  have hsame := hleft w₁
  rw [hfetch] at hsame
  rw [hsame, hget₀] at hget
  cases hget
  exact ⟨A₀, p, P, proc, hsame.symm ▸ hget₀, (fetch_ok hfetch).self, hgetP, hproc, rfl⟩

/-- **What a lambda calls.** -/
theorem Item.fire_fired (h : (item.fire H env).run w = (.ok (some call), w')) : Fired w' item call := by
  cases item with
  | scanStart this =>
      obtain ⟨A, w₁, hA, h₁⟩ := Program.run_bind_cases h
      obtain ⟨rfl, hget⟩ := deref_ok hA
      injection h₁ with hcall hw
      obtain rfl := hw
      obtain ⟨proc, hproc, rfl⟩ := Callback.call_eq_some (Except.ok.inj hcall)
      exact .scanStart hget hproc
  | scanStop this =>
      obtain ⟨A, w₁, hA, h₁⟩ := Program.run_bind_cases h
      obtain ⟨rfl, hget⟩ := deref_ok hA
      injection h₁ with hcall hw
      obtain rfl := hw
      obtain ⟨proc, hproc, rfl⟩ := Callback.call_eq_some (Except.ok.inj hcall)
      exact .scanStop hget hproc
  | scanUpdate this value =>
      obtain ⟨A, p, P, proc, hA, hkeeps, hP, hproc, rfl⟩ := scan_fired h
      exact .scanUpdate hA hkeeps hP hproc
  | scanFind this value =>
      obtain ⟨A, p, P, proc, hA, hkeeps, hP, hproc, rfl⟩ := scan_fired h
      exact .scanFind hA hkeeps hP hproc
  | connected this =>
      obtain ⟨P, w₁, hP, h₁⟩ := Program.run_bind_cases h
      obtain ⟨rfl, hget⟩ := deref_ok hP
      injection h₁ with hcall hw
      obtain rfl := hw
      obtain ⟨proc, hproc, rfl⟩ := Callback.call_eq_some (Except.ok.inj hcall)
      exact .connected hget hproc
  | disconnected this =>
      obtain ⟨P, w₁, hP, h₁⟩ := Program.run_bind_cases h
      obtain ⟨rfl, hget⟩ := deref_ok hP
      injection h₁ with hcall hw
      obtain rfl := hw
      obtain ⟨proc, hproc, rfl⟩ := Callback.call_eq_some (Except.ok.inj hcall)
      exact .disconnected hget hproc
  | fireOnNotify this data =>
      obtain ⟨C, w₁, hC, h₁⟩ := Program.run_bind_cases h
      obtain ⟨rfl, hget⟩ := deref_ok hC
      obtain ⟨u, w₂, hrecord, h₂⟩ := Program.run_bind_cases h₁
      injection h₂ with hcall hw
      obtain rfl := hw
      injection hrecord with _ hw
      obtain rfl := hw
      obtain ⟨called, hcalled, rfl⟩ := Option.map_eq_some_iff.1 (Except.ok.inj hcall)
      rw [Characteristic.fireOnNotify] at hcalled
      dsimp only at hcalled
      split at hcalled
      · obtain ⟨cb, hcb, hfire⟩ := Option.bind_eq_some_iff.1 hcalled
        obtain ⟨proc, hproc, rfl⟩ := Option.map_eq_some_iff.1 hfire
        refine .fireOnNotify (C := { C with
          tracker := (C.tracker.recordNewValue C.canNotify data).2 }) ?_ hcb hproc
        show (w₁.characteristics.update this _).get? this = _
        rw [Heap.get?_update, if_pos rfl, hget]
        rfl
      · cases hcalled
  | fireOnIndicate this data =>
      obtain ⟨C, w₁, hC, h₁⟩ := Program.run_bind_cases h
      obtain ⟨rfl, hget⟩ := deref_ok hC
      injection h₁ with hcall hw
      obtain rfl := hw
      obtain ⟨called, hcalled, rfl⟩ := Option.map_eq_some_iff.1 (Except.ok.inj hcall)
      obtain ⟨cb, hcb, hfire⟩ := Option.bind_eq_some_iff.1 hcalled
      obtain ⟨proc, hproc, rfl⟩ := Option.map_eq_some_iff.1 hfire
      exact .fireOnIndicate hget hcb hproc

/-- The call that a step of the queue makes is one of the last item. -/
theorem fireItem_fired (h : (fireItem H env).run w = (.ok (some call), w')) :
    ∃ item, w.queue.getLast? = some item ∧ Fired w' item call := by
  rw [fireItem, Program.run_bind_ok (show Program.get.run w = (.ok w, w) from rfl)] at h
  cases hlast : w.queue.getLast? with
  | none =>
      rw [hlast] at h
      cases h
  | some item =>
      rw [hlast] at h
      exact ⟨item, rfl, Item.fire_fired h⟩

end Fire

/-! ## An invariant of the single proxies -/

/-- What is to hold of each proxy. -/
structure ProxyInvariant where
  adapter : Adapter → Prop
  peripheral : Peripheral → Prop
  characteristic : Characteristic → Prop

/-- It holds of new proxies, and what the bindings themselves change of a
characteristic does not matter. -/
structure ProxyInvariant.Stable (φ : ProxyInvariant) : Prop where
  adapterNew : ∀ self adapter addr peripheralRegistry,
    φ.adapter { self, adapter, addr, peripheralRegistry }
  peripheralNew : ∀ owner peripheral addr addrType serviceRegistry self,
    φ.peripheral { owner, peripheral, addr, addrType, serviceRegistry, self }
  characteristicNew : ∀ owner characteristic uuid self,
    φ.characteristic { owner, characteristic, uuid, self }
  tracked : ∀ C tracker, φ.characteristic C → φ.characteristic { C with tracker }
  described : ∀ C descriptors, φ.characteristic C → φ.characteristic { C with descriptors }

/-- It holds of every proxy. -/
structure Everywhere (φ : ProxyInvariant) (w : World) : Prop where
  adapters : ∀ p A, w.adapters.get? p = some A → φ.adapter A
  peripherals : ∀ p P, w.peripherals.get? p = some P → φ.peripheral P
  characteristics : ∀ p C, w.characteristics.get? p = some C → φ.characteristic C

section Everywhere

variable {φ : ProxyInvariant} {H : Hashes} {env : Env} {w : World}

theorem Everywhere.init : Everywhere φ World.init where
  adapters p A h := by cases h
  peripherals p P h := by cases h
  characteristics p C h := by cases h

theorem Everywhere.updateCharacteristic (h : Everywhere φ w) (this : Ptr)
    {f : Characteristic → Characteristic} (hf : ∀ C, φ.characteristic C → φ.characteristic (f C)) :
    Everywhere φ (w.updateCharacteristic this f) where
  adapters := h.adapters
  peripherals := h.peripherals
  characteristics p C hC := by
    rw [World.updateCharacteristic, Heap.get?_update] at hC
    split at hC
    · obtain ⟨D, hD, rfl⟩ := Option.map_eq_some_iff.1 hC
      exact hf D (h.characteristics p D hD)
    · exact h.characteristics p C hC

theorem Everywhere.updateAdapter (h : Everywhere φ w) (this : Ptr) {f : Adapter → Adapter}
    (hf : ∀ A, φ.adapter A → φ.adapter (f A)) : Everywhere φ (w.updateAdapter this f) where
  adapters p A hA := by
    rw [World.updateAdapter, Heap.get?_update] at hA
    split at hA
    · obtain ⟨B, hB, rfl⟩ := Option.map_eq_some_iff.1 hA
      exact hf B (h.adapters p B hB)
    · exact h.adapters p A hA
  peripherals := h.peripherals
  characteristics := h.characteristics

theorem Everywhere.updatePeripheral (h : Everywhere φ w) (this : Ptr) {f : Peripheral → Peripheral}
    (hf : ∀ P, φ.peripheral P → φ.peripheral (f P)) : Everywhere φ (w.updatePeripheral this f) where
  adapters := h.adapters
  peripherals p P hP := by
    rw [World.updatePeripheral, Heap.get?_update] at hP
    split at hP
    · obtain ⟨Q, hQ, rfl⟩ := Option.map_eq_some_iff.1 hP
      exact hf Q (h.peripherals p Q hQ)
    · exact h.peripherals p P hP
  characteristics := h.characteristics

variable (hφ : φ.Stable)

include hφ

theorem Everywhere.stable : RuBLE.Stable (Everywhere φ) where
  newObject _ _ h := ⟨h.adapters, h.peripherals, h.characteristics⟩
  query _ _ h := ⟨h.adapters, h.peripherals, h.characteristics⟩
  log _ _ _ h := ⟨h.adapters, h.peripherals, h.characteristics⟩
  record _ _ _ h := h.updateCharacteristic _ fun C hC => hφ.tracked C _ hC
  describe _ _ _ _ h := h.updateCharacteristic _ fun C hC => hφ.described C _ hC
  deliver _ _ _ _ h := ⟨h.adapters, h.peripherals, h.characteristics⟩
  dequeue _ h := ⟨h.adapters, h.peripherals, h.characteristics⟩

/-- A constructor adds a new proxy at most. -/
theorem Value.construct_everywhere (v : Value) (owner : Option Ptr) :
    Program.Triple (Everywhere φ) (v.construct H env owner) (fun _ => Everywhere φ)
      (Everywhere φ) := by
  have hinert : ∀ w n cbs log fs, Everywhere φ w →
      Everywhere φ { w with nextObject := n, callbacks := cbs, log := log, factories := fs } :=
    fun w n cbs log fs h => ⟨h.adapters, h.peripherals, h.characteristics⟩
  have hbackend : ∀ site, Program.Triple (Everywhere φ) (backend env site) (fun _ => Everywhere φ)
      (Everywhere φ) := fun site => backend_triple fun _ _ h => h
  have hobject : Program.Triple (Everywhere φ) newObject (fun _ => Everywhere φ) (Everywhere φ) :=
    newObject_triple fun w n h => hinert w n w.callbacks w.log w.factories h
  have hregistry : ∀ lvl hash this, Program.Triple (Everywhere φ) (ownRegistry lvl hash this)
      (fun _ => Everywhere φ) (Everywhere φ) := fun lvl hash this =>
    ownRegistry_triple (fun w _ h _ => hinert w _ w.callbacks w.log w.factories h)
      fun w h _ => hinert w _ w.callbacks w.log _ h
  have hset : ∀ site slot this, Program.Triple (Everywhere φ) (setCallback env site slot this)
      (fun _ => Everywhere φ) (Everywhere φ) := fun site slot this =>
    setCallback_triple (fun _ h => h) fun w cbs h => hinert w w.nextObject cbs w.log w.factories h
  have hsubscribe : ∀ a, Program.Triple (Everywhere φ)
      (Service.viaPeripheral owner fun p s => Peripheral.access env p s a)
      (fun _ => Everywhere φ) (Everywhere φ) := fun a =>
    viaPeripheral_triple (fun _ h => h)
      (fun w _ _ _ _ h _ _ _ _ => hinert w w.nextObject w.callbacks _ w.factories h) (fun _ h => h)
      fun w _ _ _ h => hinert w w.nextObject _ w.log w.factories h
  cases v with
  | adapter value =>
      refine Program.Triple.bind (R := fun _ => Everywhere φ) ?_ fun this => ?_
      · refine Program.Triple.act fun w h => ⟨fun p A hA => ?_, h.peripherals, h.characteristics⟩
        exact h.adapters p A (Heap.get?_alloc.symm.trans hA)
      refine Program.Triple.bind hobject fun self => ?_
      refine Program.Triple.bind (hbackend _) fun _ => ?_
      refine Program.Triple.bind (hregistry _ _ _) fun registry => ?_
      refine Program.Triple.bind (hset _ _ _) fun _ => ?_
      refine Program.Triple.bind (hset _ _ _) fun _ => ?_
      refine Program.Triple.bind (hset _ _ _) fun _ => ?_
      refine Program.Triple.bind (hset _ _ _) fun _ => ?_
      refine Program.Triple.bind (R := fun _ => Everywhere φ) ?_ fun _ => Program.Triple.skip this
      refine Program.Triple.modify fun w h => ⟨fun p A hA => ?_, h.peripherals, h.characteristics⟩
      rcases Heap.get?_store_cases hA with rfl | hA
      · exact hφ.adapterNew _ _ _ _
      · exact h.adapters p A hA
  | peripheral value =>
      refine Program.Triple.bind (R := fun _ => Everywhere φ) ?_ fun this => ?_
      · refine Program.Triple.act fun w h => ⟨h.adapters, fun p P hP => ?_, h.characteristics⟩
        exact h.peripherals p P (Heap.get?_alloc.symm.trans hP)
      refine Program.Triple.bind (hbackend _) fun _ => ?_
      refine Program.Triple.bind (hbackend _) fun _ => ?_
      refine Program.Triple.bind (hregistry _ _ _) fun registry => ?_
      refine Program.Triple.bind hobject fun self => ?_
      refine Program.Triple.bind (hset _ _ _) fun _ => ?_
      refine Program.Triple.bind (hset _ _ _) fun _ => ?_
      refine Program.Triple.bind (R := fun _ => Everywhere φ) ?_ fun _ => Program.Triple.skip this
      refine Program.Triple.modify fun w h => ⟨h.adapters, fun p P hP => ?_, h.characteristics⟩
      rcases Heap.get?_store_cases hP with rfl | hP
      · exact hφ.peripheralNew _ _ _ _ _ _
      · exact h.peripherals p P hP
  | service value =>
      refine Program.Triple.bind (R := fun _ => Everywhere φ) ?_ fun this => ?_
      · exact Program.Triple.act fun w h => ⟨h.adapters, h.peripherals, h.characteristics⟩
      refine Program.Triple.bind (hregistry _ _ _) fun registry => ?_
      refine Program.Triple.bind (hbackend _) fun _ => ?_
      refine Program.Triple.bind hobject fun self => ?_
      refine Program.Triple.bind (R := fun _ => Everywhere φ) ?_ fun _ => Program.Triple.skip this
      exact Program.Triple.modify fun w h => ⟨h.adapters, h.peripherals, h.characteristics⟩
  | characteristic value =>
      refine Program.Triple.bind (R := fun _ => Everywhere φ) ?_ fun this => ?_
      · refine Program.Triple.act fun w h => ⟨h.adapters, h.peripherals, fun p C hC => ?_⟩
        exact h.characteristics p C (Heap.get?_alloc.symm.trans hC)
      refine Program.Triple.bind (hbackend _) fun _ => ?_
      refine Program.Triple.bind hobject fun self => ?_
      refine Program.Triple.bind (hbackend _) fun _ => ?_
      refine Program.Triple.bind (capabilityFlags_triple _ fun _ h => h) fun _ => ?_
      refine Program.Triple.bind (Program.Triple.when fun _ => hsubscribe _) fun _ => ?_
      refine Program.Triple.bind (Program.Triple.when fun _ => hsubscribe _) fun _ => ?_
      refine Program.Triple.bind (R := fun _ => Everywhere φ) ?_ fun _ => Program.Triple.skip this
      refine Program.Triple.modify fun w h => ⟨h.adapters, h.peripherals, fun p C hC => ?_⟩
      rcases Heap.get?_store_cases hC with rfl | hC
      · exact hφ.characteristicNew _ _ _ _
      · exact h.characteristics p C hC

/-- **The rule of invariants of single proxies.** -/
theorem Everywhere.action (h : Everywhere φ w) (a : Action) : Everywhere φ ((a.prog H).run w).2 := by
  refine (Everywhere.stable hφ).action_keeps (K := fun _ _ => True) (fun f => ?_)
    (fun _ _ _ => trivial) h (fun _ _ _ => ⟨h.adapters, h.peripherals, h.characteristics⟩)
    fun _ _ => trivial
  refine fetch_triple (J := fun _ _ => Everywhere φ) (fun w hw => hw.1) ?_ fun _ p w hw =>
    ⟨hw.adapters, hw.peripherals, hw.characteristics⟩
  exact fun _ _ R _ => (Value.construct_everywhere hφ f.value R.owner).conseq (fun w hw => hw.1.1)
    (fun _ _ hw => hw) fun _ hw => hw

end Everywhere

/-! ## Procs that take their arguments -/

/-- The callback passes `n` arguments, and its proc has passed the check for them. -/
def Callback.Armed (procOf : ObjectId → Option RubyProc) (n : Nat) (cb : Callback) : Prop :=
  cb.argCount = n ∧ ∀ id, cb.cb = some id → ∃ p, procOf id = some p ∧ p.PassesCheck n

/-- The callbacks of every proxy do, with the numbers of arguments they are fired with. -/
def armed (procOf : ObjectId → Option RubyProc) : ProxyInvariant where
  adapter A := A.onScanStart.Armed procOf 1 ∧ A.onScanStop.Armed procOf 1 ∧
    A.onScanUpdate.Armed procOf 2 ∧ A.onScanFind.Armed procOf 2
  peripheral P := P.onConnected.Armed procOf 1 ∧ P.onDisconnected.Armed procOf 1
  characteristic C := (∀ cb, C.onNotify = some cb → cb.Armed procOf 2) ∧
    ∀ cb, C.onIndicate = some cb → cb.Armed procOf 2

section Armed

variable {H : Hashes} {procOf : ObjectId → Option RubyProc} {w : World}

theorem Callback.Armed.unset (n : Nat) : Callback.Armed procOf n { argCount := n } :=
  ⟨rfl, fun _ h => by cases h⟩

/-- Setting a callback lets no proc in that has not passed the check. -/
theorem Callback.Armed.set {n : Nat} {cb : Callback} (h : cb.Armed procOf n)
    (value : Option ObjectId) :
    (((Callback.set procOf value).run cb).2).Armed procOf n := by
  obtain ⟨hcount, hproc⟩ := h
  rw [Callback.set_run, hcount]
  cases hcheck : assertAcceptsNArgs procOf value (UInt8.ofNat n) true with
  | error e => exact ⟨hcount, hproc⟩
  | ok u =>
      refine ⟨rfl, fun id hid => ?_⟩
      obtain rfl : value = some id := hid
      cases hp : procOf id with
      | none =>
          rw [assertAcceptsNArgs] at hcheck
          simp only [hp] at hcheck
          cases hcheck
      | some p =>
          rw [assertAcceptsNArgs_proc hp] at hcheck
          split at hcheck
          · next hpasses => exact ⟨p, rfl, hpasses⟩
          · cases hcheck

theorem armed_stable : (armed procOf).Stable where
  adapterNew _ _ _ _ := ⟨.unset 1, .unset 1, .unset 2, .unset 2⟩
  peripheralNew _ _ _ _ _ _ := ⟨.unset 1, .unset 1⟩
  characteristicNew _ _ _ _ := ⟨by simp, by simp⟩
  tracked _ _ h := h
  described _ _ h := h

/-- A callback that may not have been made yet. -/
theorem armed_getD {cb : Option Callback} (h : ∀ c, cb = some c → c.Armed procOf 2) :
    (cb.getD { argCount := 2 }).Armed procOf 2 := by
  cases cb with
  | none => exact .unset 2
  | some c => exact h c rfl

theorem Everywhere.apply (h : Everywhere (armed procOf) w) (setter : Setter) (this : Ptr)
    (cb : Option ObjectId) : Everywhere (armed procOf) (setter.apply procOf this cb w) := by
  cases setter with
  | onScanStart => exact h.updateAdapter this fun A ⟨h₁, h₂, h₃, h₄⟩ => ⟨h₁.set cb, h₂, h₃, h₄⟩
  | onScanStop => exact h.updateAdapter this fun A ⟨h₁, h₂, h₃, h₄⟩ => ⟨h₁, h₂.set cb, h₃, h₄⟩
  | onScanUpdate => exact h.updateAdapter this fun A ⟨h₁, h₂, h₃, h₄⟩ => ⟨h₁, h₂, h₃.set cb, h₄⟩
  | onScanFind => exact h.updateAdapter this fun A ⟨h₁, h₂, h₃, h₄⟩ => ⟨h₁, h₂, h₃, h₄.set cb⟩
  | onConnect => exact h.updatePeripheral this fun P ⟨h₁, h₂⟩ => ⟨h₁.set cb, h₂⟩
  | onDisconnect => exact h.updatePeripheral this fun P ⟨h₁, h₂⟩ => ⟨h₁, h₂.set cb⟩
  | onNotify =>
      refine h.updateCharacteristic this fun C hC => ⟨fun c hc => ?_, hC.2⟩
      cases hc
      exact (armed_getD hC.1).set cb
  | onIndicate =>
      refine h.updateCharacteristic this fun C hC => ⟨hC.1, fun c hc => ?_⟩
      cases hc
      exact (armed_getD hC.2).set cb

/-- The proc a call is made of has passed the check for the arguments it is passed. -/
theorem Fired.passes {item : Item} {call : Call} (h : Fired w item call)
    (harmed : Everywhere (armed procOf) w) :
    ∃ p, procOf call.proc = some p ∧ p.PassesCheck call.args.length := by
  cases h with
  | scanStart hA hproc => exact (harmed.adapters _ _ hA).1.2 _ hproc
  | scanStop hA hproc => exact (harmed.adapters _ _ hA).2.1.2 _ hproc
  | scanUpdate hA _ _ hproc => exact (harmed.adapters _ _ hA).2.2.1.2 _ hproc
  | scanFind hA _ _ hproc => exact (harmed.adapters _ _ hA).2.2.2.2 _ hproc
  | connected hP hproc => exact (harmed.peripherals _ _ hP).1.2 _ hproc
  | disconnected hP hproc => exact (harmed.peripherals _ _ hP).2.2 _ hproc
  | fireOnNotify hC hcb hproc => exact ((harmed.characteristics _ _ hC).1 _ hcb).2 _ hproc
  | fireOnIndicate hC hcb hproc => exact ((harmed.characteristics _ _ hC).2 _ hcb).2 _ hproc

end Armed

/-! ## Setters and addresses -/

section Setters

variable {procOf : ObjectId → Option RubyProc} {w : World} {slot : Slot} {p : Ptr}

theorem Setter.apply_queue (setter : Setter) (this : Ptr) (cb : Option ObjectId) (w : World) :
    (setter.apply procOf this cb w).queue = w.queue := by
  cases setter <;> rfl

theorem Setter.apply_callbacks (setter : Setter) (this : Ptr) (cb : Option ObjectId) (w : World) :
    (setter.apply procOf this cb w).callbacks = w.callbacks := by
  cases setter <;> rfl

theorem World.Taken.apply {lvl : Level} (h : w.Taken lvl p) (setter : Setter) (this : Ptr)
    (cb : Option ObjectId) : (setter.apply procOf this cb w).Taken lvl p := by
  have hsize : ∀ {α : Type} (heap : Heap α) (f : α → α), heap.size ≤ (heap.update this f).size :=
    fun _ _ => Nat.le_of_eq Heap.size_update.symm
  cases setter with
  | onScanStart | onScanStop | onScanUpdate | onScanFind =>
      exact h.mono (hsize _ _) le_rfl le_rfl le_rfl
  | onConnect | onDisconnect => exact h.mono le_rfl (hsize _ _) le_rfl le_rfl
  | onNotify | onIndicate => exact h.mono le_rfl le_rfl le_rfl (hsize _ _)

/-- An adapter keeps its handle. -/
theorem Slot.Concerns.updateAdapter {this : Ptr} {f : Adapter → Adapter} (h : slot.Concerns w p)
    (hf : ∀ A, (f A).adapter = A.adapter) : slot.Concerns (w.updateAdapter this f) p := by
  cases slot with
  | scanStart a | scanStop a | scanUpdated a | scanFound a =>
      intro A hA
      rw [World.updateAdapter, Heap.get?_update] at hA
      split at hA
      · obtain ⟨B, hB, rfl⟩ := Option.map_eq_some_iff.1 hA
        rw [hf]
        exact h B hB
      · exact h A hA
  | connected | disconnected | notify | indicate => exact h

/-- A peripheral keeps its handle. -/
theorem Slot.Concerns.updatePeripheral {this : Ptr} {f : Peripheral → Peripheral}
    (h : slot.Concerns w p) (hf : ∀ P, (f P).peripheral = P.peripheral) :
    slot.Concerns (w.updatePeripheral this f) p := by
  cases slot with
  | scanStart | scanStop | scanUpdated | scanFound => exact h
  | connected d | disconnected d =>
      intro P hP
      rw [World.updatePeripheral, Heap.get?_update] at hP
      split at hP
      · obtain ⟨Q, hQ, rfl⟩ := Option.map_eq_some_iff.1 hP
        rw [hf]
        exact h Q hQ
      · exact h P hP
  | notify d s u | indicate d s u =>
      intro C hC
      obtain ⟨hu, q, S, r, P, ho, hS, hs, hr, hP, hd⟩ := h C hC
      by_cases heq : r = this
      · refine ⟨hu, q, S, r, f P, ho, hS, hs, hr, ?_, by rw [hf, hd]⟩
        rw [World.updatePeripheral, Heap.get?_update, if_pos heq, hP]
        rfl
      · refine ⟨hu, q, S, r, P, ho, hS, hs, hr, ?_, hd⟩
        rw [World.updatePeripheral, Heap.get?_update, if_neg heq, hP]

/-- Setting a callback changes no proxy's identity. -/
theorem Slot.Concerns.apply (h : slot.Concerns w p) (setter : Setter) (this : Ptr)
    (cb : Option ObjectId) : slot.Concerns (setter.apply procOf this cb w) p := by
  cases setter with
  | onScanStart | onScanStop | onScanUpdate | onScanFind => exact h.updateAdapter fun _ => rfl
  | onConnect | onDisconnect => exact h.updatePeripheral fun _ => rfl
  | onNotify | onIndicate => exact h.update fun _ => ⟨rfl, rfl⟩

theorem Addressed.apply {G : Set (Slot × Ptr)} (h : Addressed G w) (setter : Setter) (this : Ptr)
    (cb : Option ObjectId) : Addressed G (setter.apply procOf this cb w) := by
  refine h.congr ?_ (fun _ _ hp => hp.apply setter this cb) fun _ _ _ hc => hc.apply setter this cb
  rw [Setter.apply_callbacks]
  exact List.Subset.refl _

theorem Delivered.apply {as : List Action} (h : Delivered as w) (setter : Setter) (this : Ptr)
    (cb : Option ObjectId) : Delivered as (setter.apply procOf this cb w) := by
  obtain ⟨events, hsub, hitems⟩ := h.items
  refine ⟨h.addressed.apply setter this cb, events, hsub, ?_⟩
  rw [Setter.apply_queue]
  exact hitems.imp fun event item ⟨heq, ht, hc⟩ =>
    ⟨heq, ht.apply setter this cb, hc.apply setter this cb⟩

end Setters

/-! ## Sessions -/

section Session

variable {H : Hashes} {procOf : ObjectId → Option RubyProc} {s s' : Session}
  {as : List SessionAction} {a : SessionAction}

/-- An action of the bindings leaves the world it leaves in `bindingsSystem`. -/
theorem Session.step_world (s : Session) (a : Action) :
    (s.step H procOf (.bindings a)).world = ((a.prog H).run s.world).2 := by
  cases a with
  | runItem env =>
      rw [show Action.prog H (.runItem env) = runItem H env from rfl, ← fireItem_state, Session.step]
      split
      · next h => rw [h]
      · next h => rw [h]
  | fetch | clear | query | descriptors | request | deliver => rfl

/-- A step records no call, or one more: of the item that it has run. -/
theorem Session.step_calls (s : Session) (a : SessionAction) :
    (s.step H procOf a).calls = s.calls ∨
      ∃ env item call, a = .bindings (.runItem env) ∧ s.world.queue.getLast? = some item ∧
        Fired (s.step H procOf a).world item call ∧
          (s.step H procOf a).calls = s.calls ++ [call] := by
  cases a with
  | set setter this cb => exact .inl rfl
  | bindings a =>
      cases a with
      | fetch | clear | query | descriptors | request | deliver => exact .inl rfl
      | runItem env =>
          cases hrun : (fireItem H env).run s.world with
          | mk r w =>
              rw [Session.step, hrun]
              match r, hrun with
              | .ok (some call), hrun =>
                  obtain ⟨item, hlast, hfired⟩ := fireItem_fired hrun
                  exact .inr ⟨env, item, call, rfl, hlast, hfired, rfl⟩
              | .ok none, _ => exact .inl rfl
              | .error e, _ => exact .inl rfl

/-- What holds of the world in every session. -/
structure InSession (procOf : ObjectId → Option RubyProc) (as : List SessionAction) (w : World) :
    Prop where
  delivered : Delivered (as.filterMap SessionAction.action?) w
  armed : Everywhere (armed procOf) w

theorem InSession.step (h : InSession procOf as s.world) (a : SessionAction) :
    InSession procOf (as ++ [a]) (s.step H procOf a).world := by
  cases a with
  | bindings a =>
      rw [Session.step_world]
      refine ⟨?_, h.armed.action armed_stable a⟩
      rw [List.filterMap_append]
      exact h.delivered.action a
  | set setter this cb =>
      refine ⟨?_, h.armed.apply setter this cb⟩
      rw [List.filterMap_append, show [SessionAction.set setter this cb].filterMap
        SessionAction.action? = [] from rfl, List.append_nil]
      exact h.delivered.apply setter this cb

theorem inSession_run (h : (callbackSystem H procOf).run as = some s) :
    InSession procOf as s.world := by
  induction as using List.reverseRecOn generalizing s with
  | nil =>
      cases h
      exact ⟨⟨Addressed.init, [], List.nil_sublist _, .nil⟩, Everywhere.init⟩
  | append_singleton as a ih =>
      rw [System.run, System.runFrom_concat] at h
      obtain ⟨t, ht, hstep⟩ := Option.bind_eq_some_iff.1 h
      cases hstep
      exact (ih ht).step a

/-- The last of the waiting items is for an event that has been delivered. -/
theorem Delivered.last {as : List Action} {w : World} {item : Item} (h : Delivered as w)
    (hlast : w.queue.getLast? = some item) :
    ∃ event : Event, .deliver event ∈ as ∧ item = event.item item.this ∧
      w.Taken event.slot.level item.this ∧ event.slot.Concerns w item.this := by
  obtain ⟨events, hsub, hitems⟩ := h.items
  obtain ⟨event, hevent, hitem⟩ :
      ∃ event ∈ events, item = event.item item.this ∧ w.Taken event.slot.level item.this ∧
        event.slot.Concerns w item.this := by
    obtain ⟨items, hitems'⟩ := List.getLast?_eq_some_iff.1 hlast
    rw [hitems'] at hitems
    have hend := List.forall₂_drop_append events items [item] hitems
    obtain ⟨event, rest, hitem, -, hdrop⟩ := List.forall₂_cons_right_iff.1 hend
    refine ⟨event, List.mem_of_mem_drop (i := items.length) ?_, hitem⟩
    rw [hdrop]
    exact List.mem_cons_self
  refine ⟨event, ?_, hitem⟩
  obtain ⟨a, ha, hdelivered⟩ := List.mem_filterMap.1 (hsub.subset hevent)
  cases a with
  | deliver event' =>
      cases hdelivered
      exact ha
  | fetch | clear | query | descriptors | request | runItem => cases hdelivered

/-- `lambda { |this| }` and `lambda { |peripheral, this| }`. -/
def sampleProcs : ObjectId → Option RubyProc
  | 100 => some { isLambda := true, parameters := [.req] }
  | 101 => some { isLambda := true, parameters := [.req, .req] }
  | _ => none

/-- A scan finds a peripheral.  The callback for it was set to a lambda that
takes two arguments; setting it to another one, that takes one, has failed. -/
def scanFinds : List SessionAction :=
  [.bindings (.fetch ⟨0, .adapter ⟨0, "00:00:00:00:00:01"⟩, {}⟩), .set .onScanFind 0 (some 101),
    .set .onScanFind 0 (some 100),
    .bindings (.deliver (.scanFound 0 ⟨7, "00:00:00:00:00:0a", .publicAddress⟩))]

/-- **No call raises an `ArgumentError`**: in every run, if the procs fit the
counters of the check that is made when they are set, then each call passes its
proc a number of arguments that Ruby accepts. -/
theorem calls_accepted (H : Hashes) (procOf : ObjectId → Option RubyProc)
    (hfits : ∀ id p, procOf id = some p → p.FitsCounters 1 ∧ p.FitsCounters 2)
    (h : (callbackSystem H procOf).run as = some s) :
    ∀ call ∈ s.calls, ∃ p, procOf call.proc = some p ∧ p.AcceptsCall call.args.length := by
  induction as using List.reverseRecOn generalizing s with
  | nil =>
      cases h
      intro call hcall
      cases hcall
  | append_singleton as a ih =>
      have hs' := inSession_run h
      rw [System.run, System.runFrom_concat] at h
      obtain ⟨t, ht, hstep⟩ := Option.bind_eq_some_iff.1 h
      cases hstep
      rcases Session.step_calls t a with
        hcalls | ⟨env, item, call, -, -, hfired, hcalls⟩
      · rw [hcalls]
        exact ih ht
      · rw [hcalls]
        intro c hc
        rcases List.mem_append.1 hc with hc | hc
        · exact ih ht c hc
        · obtain rfl := List.mem_singleton.1 hc
          obtain ⟨p, hp, hpasses⟩ := hfired.passes hs'.armed
          obtain ⟨hone, htwo⟩ := hfits _ p hp
          refine ⟨p, hp, ?_⟩
          -- a call passes one argument or two
          cases hfired with
          | scanStart | scanStop | connected | disconnected =>
              exact ((p.passesCheck_iff_acceptsCall 1).2 hone).1 hpasses
          | scanUpdate | scanFind | fireOnNotify | fireOnIndicate =>
              exact ((p.passesCheck_iff_acceptsCall 2).2 htwo).1 hpasses

theorem calls_accepted_scanFinds :
    ∃ s, (callbackSystem sampleHashes sampleProcs).run (scanFinds ++ [.bindings (.runItem {})]) =
      some s ∧ s.calls = [⟨101, [.object 4, .object 1]⟩] ∧
        ∀ call ∈ s.calls, ∃ p, sampleProcs call.proc = some p ∧ p.AcceptsCall call.args.length := by
  have hcalls : ((callbackSystem sampleHashes sampleProcs).run
      (scanFinds ++ [.bindings (.runItem {})])).map (·.calls) =
        some [⟨101, [.object 4, .object 1]⟩] := by decide +kernel
  obtain ⟨s, hs, hcalls⟩ := Option.map_eq_some_iff.1 hcalls
  refine ⟨s, hs, hcalls, calls_accepted sampleHashes sampleProcs ?_ hs⟩
  intro id p hp
  have hlambda : p.isLambda = true ∧ p.count .keyreq = 0 ∧ p.count .req ≤ 2 ∧ p.count .opt = 0 ∧
      p.count .rest = 0 := by
    unfold sampleProcs at hp
    split at hp <;> cases hp <;> decide
  obtain ⟨hl, hk, hr, ho, hrest⟩ := hlambda
  constructor <;> refine RubyProc.fitsCounters_of_lt hl ?_ ?_ ?_ ?_ <;> omega

end Session

end RuBLE
