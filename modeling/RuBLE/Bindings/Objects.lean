import Mathlib
import RuBLE.Library.Heap
import RuBLE.Library.Program
import RuBLE.Management.RegistryFactory

/-!
# The proxies and the world they live in

The data of the bindings: a proxy for each adapter, peripheral, service and
characteristic, the registries that keep them, the callbacks that the backend
holds, the items of the callback queue, and what has been asked of the backend.

* `Adapter`, `Peripheral`, `Service`, `Characteristic`, `Descriptor` — the
  members of the proxy classes.
* `World` — all of it at one moment.
* `Prog` — the programs over it, which may throw; the primitive ones follow.

Members that no modelled function reads are left out: `_service_cache_tag`,
`_resource_identifier`, and the cache of `capabilities()`, whose value is that
of the handle.
-/

namespace RuBLE

open Transition

/-! ## Ruby values -/

/-- The classes of the Ruby objects that wrap what the extension keeps. -/
inductive RubyClass where
  | adapterRegistry
  | peripheralRegistry
  | serviceRegistry
  | characteristicRegistry
  | adapter
  | peripheral
  | service
  | characteristic
  | descriptor
  | byteArray
  deriving DecidableEq, Repr

/-- A `VALUE` other than `Qnil`: the object that wraps something of a class, or
a proc. -/
inductive VALUE where
  | object (cls : RubyClass) (id : ObjectId)
  | proc (id : ObjectId)
  deriving DecidableEq, Repr

/-- `Callback`: the proc it is set to, unless that is `Qnil`. -/
structure Callback where
  argCount : Nat
  cb : Option ObjectId := none
  deriving DecidableEq, Repr

/-- `ByteArray`: its bytes, and its Ruby object once that has been allocated. -/
structure ByteArray where
  data : List UInt8
  self : Option ObjectId := none
  deriving DecidableEq, Repr

/-- `CharacteristicValueTracker`. -/
structure CharacteristicValueTracker where
  trackValues : Option Bool := none
  value : Option ByteArray := none
  deriving DecidableEq, Repr

namespace CharacteristicValueTracker

/-- `value_tracking`. -/
def valueTracking (t : CharacteristicValueTracker) (canNotify : Bool) : Bool :=
  t.trackValues.getD canNotify

/-- `record_new_value`, with whether the value counts as new. -/
def recordNewValue (t : CharacteristicValueTracker) (canNotify : Bool) (newData : List UInt8) :
    Bool × CharacteristicValueTracker :=
  if t.valueTracking canNotify then
    let changed := match t.value with
      | none => decide (0 < newData.length)
      | some old => decide (old.data ≠ newData)
    (changed, { t with value := some { data := newData } })
  else (true, t)

end CharacteristicValueTracker

/-! ## Proxies -/

/-- `Adapter`. -/
structure Adapter where
  self : ObjectId
  /-- The handle `_adapter`. -/
  adapter : SimpleBLE.Adapter
  addr : BluetoothAddress
  onScanStart : Callback := { argCount := 1 }
  onScanStop : Callback := { argCount := 1 }
  onScanUpdate : Callback := { argCount := 2 }
  onScanFind : Callback := { argCount := 2 }
  peripheralRegistry : RegistryPtr
  deriving DecidableEq, Repr

/-- `Peripheral`. -/
structure Peripheral where
  owner : Option Ptr
  /-- The handle `_peripheral`. -/
  peripheral : SimpleBLE.Peripheral
  addr : BluetoothAddress
  addrType : BluetoothAddressType
  onConnected : Callback := { argCount := 1 }
  onDisconnected : Callback := { argCount := 1 }
  serviceRegistry : RegistryPtr
  self : ObjectId
  deriving DecidableEq, Repr

/-- `Service`. -/
structure Service where
  owner : Option Ptr
  /-- The handle `_service`. -/
  service : SimpleBLE.Service
  characteristicRegistry : RegistryPtr
  uuid : BluetoothUUID
  self : ObjectId
  deriving DecidableEq, Repr

/-- `Descriptor`. -/
structure Descriptor where
  uuid : BluetoothUUID
  owner : Ptr
  self : ObjectId
  deriving DecidableEq, Repr

/-- `Characteristic`. -/
structure Characteristic where
  owner : Option Ptr
  /-- The handle `_characteristic`. -/
  characteristic : SimpleBLE.Characteristic
  uuid : BluetoothUUID
  onNotify : Option Callback := none
  onIndicate : Option Callback := none
  /-- `_descriptors`, once they have been asked for. -/
  descriptors : Option (Std.TreeMap String Descriptor) := none
  tracker : CharacteristicValueTracker := {}
  self : ObjectId

/-- `CAPABILITY_NAMES`. -/
def capabilityNames : List String := ["read", "write_request", "write_command", "notify", "indicate"]

/-- `Characteristic::can_notify`. -/
def Characteristic.canNotify (c : Characteristic) : Bool :=
  decide ("notify" ∈ c.characteristic.capabilities)

/-! ## The backend -/

/-- What the backend can be asked to do with a characteristic. -/
inductive BackendOp where
  | read
  | writeRequest
  | writeCommand
  /-- Write a descriptor. -/
  | write
  | notify
  | indicate
  deriving DecidableEq, Repr

/-- What a service passes on to its peripheral, its own UUID apart. -/
structure Access where
  op : BackendOp
  characteristic : BluetoothUUID
  descriptor : Option BluetoothUUID := none
  data : List UInt8 := []
  /-- The `Characteristic` whose `this` a callback handed over captures. -/
  callback : Option Ptr := none
  deriving DecidableEq, Repr

/-- A call that has reached a peripheral of the backend. -/
structure BackendCall extends Access where
  /-- Which peripheral of the backend. -/
  device : Nat
  service : BluetoothUUID
  deriving DecidableEq, Repr

/-- A list that the backend can be asked for, and by whom. -/
inductive Query where
  | adapters
  | scanResults (adapter : Ptr)
  | pairedPeripherals (adapter : Ptr)
  | services (peripheral : Ptr)
  | characteristics (service : Ptr)
  | descriptors (characteristic : Ptr)
  deriving DecidableEq, Repr

/-- What the backend keeps a callback for; registering another one replaces it. -/
inductive Slot where
  | scanStart (adapter : Nat)
  | scanStop (adapter : Nat)
  | scanUpdated (adapter : Nat)
  | scanFound (adapter : Nat)
  | connected (device : Nat)
  | disconnected (device : Nat)
  | notify (device : Nat) (service characteristic : BluetoothUUID)
  | indicate (device : Nat) (service characteristic : BluetoothUUID)
  deriving DecidableEq, Repr

/-- The backend invokes a callback, with what it passes. -/
inductive Event where
  | scanStart (adapter : Nat)
  | scanStop (adapter : Nat)
  | scanUpdated (adapter : Nat) (value : SimpleBLE.Peripheral)
  | scanFound (adapter : Nat) (value : SimpleBLE.Peripheral)
  | connected (device : Nat)
  | disconnected (device : Nat)
  | notify (device : Nat) (service characteristic : BluetoothUUID) (data : List UInt8)
  | indicate (device : Nat) (service characteristic : BluetoothUUID) (data : List UInt8)
  deriving DecidableEq, Repr

/-- The callback an event invokes. -/
def Event.slot : Event → Slot
  | .scanStart a => .scanStart a
  | .scanStop a => .scanStop a
  | .scanUpdated a _ => .scanUpdated a
  | .scanFound a _ => .scanFound a
  | .connected d => .connected d
  | .disconnected d => .disconnected d
  | .notify d s u _ => .notify d s u
  | .indicate d s u _ => .indicate d s u

/-- An item of the callback queue: the lambda a callback pushes, with the `this`
it captures. -/
inductive Item where
  | scanStart (this : Ptr)
  | scanStop (this : Ptr)
  | scanUpdate (this : Ptr) (value : SimpleBLE.Peripheral)
  | scanFind (this : Ptr) (value : SimpleBLE.Peripheral)
  | connected (this : Ptr)
  | disconnected (this : Ptr)
  | fireOnNotify (this : Ptr) (data : List UInt8)
  | fireOnIndicate (this : Ptr) (data : List UInt8)
  deriving DecidableEq, Repr

/-- What the callback pushes that captured `this`. -/
def Event.item (this : Ptr) : Event → Item
  | .scanStart _ => .scanStart this
  | .scanStop _ => .scanStop this
  | .scanUpdated _ value => .scanUpdate this value
  | .scanFound _ value => .scanFind this value
  | .connected _ => .connected this
  | .disconnected _ => .disconnected this
  | .notify _ _ _ data => .fireOnNotify this data
  | .indicate _ _ _ data => .fireOnIndicate this data

/-! ## The world -/

/-- The four levels of proxies. -/
inductive Level where
  | adapter
  | peripheral
  | service
  | characteristic
  deriving DecidableEq, Repr

/-- Everything the bindings keep, at one moment. -/
structure World where
  adapters : Heap Adapter := {}
  peripherals : Heap Peripheral := {}
  services : Heap Service := {}
  characteristics : Heap Characteristic := {}
  /-- The factory of the registries of each level; `adapterRegistry` is
  registry 0 of its level. -/
  factories : Level → RegistryFactory
  /-- The callbacks registered with the backend, with the `this` each captures. -/
  callbacks : List (Slot × Ptr) := []
  /-- The items waiting in the callback queue, from front to back. -/
  queue : List Item := []
  /-- The calls that have reached peripherals of the backend. -/
  log : List BackendCall := []
  /-- The lists the backend has been asked for. -/
  queries : List Query := []
  nextObject : ObjectId := 1
  /-- What has been passed to `rb_gc_mark`. -/
  marked : List VALUE := []

namespace World

/-- The world after `Init_Registries`: only the `AdapterRegistry` is there. -/
def init : World where
  factories
    | .adapter => { registries := [{ self := 0, owner := none }] }
    | .peripheral | .service | .characteristic => {}

/-- The registry at an address. -/
def registryAt? (w : World) (lvl : Level) (r : RegistryPtr) : Option Registry := (w.factories lvl).at? r

/-- A new registry, kept in the map of its factory. -/
def createRegistry (w : World) (lvl : Level) (hash : UInt64) (owner : Ptr) : World :=
  let factory := (w.factories lvl).create w.nextObject hash owner
  { w with factories := Function.update w.factories lvl factory, nextObject := w.nextObject + 1 }

/-- Change the registry at an address. -/
def modifyRegistry (w : World) (lvl : Level) (r : RegistryPtr) (f : Registry → Registry) : World :=
  let registries := (w.factories lvl).registries.modify r f
  { w with factories := Function.update w.factories lvl { w.factories lvl with registries } }

/-- Keep a callback in a slot, instead of the one there and of those in the
slots it replaces. -/
def register (w : World) (replaces : List Slot) (slot : Slot) (this : Ptr) : World :=
  { w with callbacks := (slot, this) :: w.callbacks.filter fun e => e.1 ≠ slot ∧ e.1 ∉ replaces }

/-- The `this` of the callback in a slot. -/
def registered (w : World) (slot : Slot) : Option Ptr :=
  (w.callbacks.find? (fun e => e.1 = slot)).map (·.2)

/-- An `Adapter` has been constructed. -/
def storeAdapter (w : World) (this : Ptr) (a : Adapter) : World :=
  { w with adapters := w.adapters.store this a }

/-- A `Peripheral` has been constructed. -/
def storePeripheral (w : World) (this : Ptr) (p : Peripheral) : World :=
  { w with peripherals := w.peripherals.store this p }

/-- A `Service` has been constructed. -/
def storeService (w : World) (this : Ptr) (s : Service) : World :=
  { w with services := w.services.store this s }

/-- A `Characteristic` has been constructed. -/
def storeCharacteristic (w : World) (this : Ptr) (c : Characteristic) : World :=
  { w with characteristics := w.characteristics.store this c }

/-- A member of a `Characteristic` changes. -/
def updateCharacteristic (w : World) (this : Ptr) (f : Characteristic → Characteristic) : World :=
  { w with characteristics := w.characteristics.update this f }

end World

/-! ## Programs -/

/-- Where a call of the backend is made that may throw. -/
inductive Site where
  /-- In `key_from_value`. -/
  | keyFromValue
  | address
  | addressType
  | uuid
  | capabilities
  | setCallbackOnScanStart
  | setCallbackOnScanStop
  | setCallbackOnScanUpdated
  | setCallbackOnScanFound
  | setCallbackOnConnected
  | setCallbackOnDisconnected
  | access (op : BackendOp)
  | query
  deriving DecidableEq, Repr

/-- What is thrown. -/
inductive Error where
  /-- An exception of the backend. -/
  | backend (site : Site)
  /-- "attempt to create new .. during garbage collection". -/
  | duringGc (lvl : Level) (key : String)
  /-- "Invalid field name .. in call to index_of". -/
  | invalidFieldName (name : String)
  | outOfRange
  /-- A pointer to no object was followed; the source has no defined behaviour there. -/
  | badPointer
  deriving DecidableEq, Repr

/-- What a program does not decide itself. -/
structure Env where
  /-- The backend call that throws, if any. -/
  throws : Option Site := none
  /-- Whether the backend keeps the callback it is handed by the call that throws. -/
  keeps : Bool := false
  /-- The slots whose callbacks the backend drops as it keeps another one. -/
  replaces : List Slot := []
  /-- `rb_during_gc()`. -/
  duringGc : Bool := false
  /-- What the backend answers to a read. -/
  reply : List UInt8 := []
  deriving DecidableEq, Repr

/-- A member function at work. -/
abbrev Prog (α : Type) : Type := Program World Error α

/-- A call of the backend that may throw. -/
def backend (env : Env) (site : Site) : Prog Unit :=
  if env.throws = some site then Program.throw (.backend site) else pure ()

/-- Follow a pointer. -/
def deref {α : Type} (heap : World → Heap α) (p : Option Ptr) : Prog α := do
  let w ← Program.get
  Program.orThrow .badPointer (p.bind (heap w).get?)

/-- Allocate a Ruby object. -/
def newObject : Prog ObjectId :=
  Program.act fun w => (w.nextObject, { w with nextObject := w.nextObject + 1 })

/-- Hand a callback to the backend, whose call may throw; whether it has kept the
callback by then is for the backend to say. -/
def setCallback (env : Env) (site : Site) (slot : Slot) (this : Ptr) : Prog Unit := do
  Program.when (env.throws ≠ some site ∨ env.keeps = true) do
    Program.modify (·.register env.replaces slot this)
  backend env site

/-- `RegistryFactory::registry(this)`, of the registries of this level.  The
hashers are `noexcept`: where the backend throws in one the process ends, and
the run with it. -/
def ownRegistry (lvl : Level) (hash : UInt64) (this : Ptr) : Prog RegistryPtr :=
  Program.act fun w =>
    let (r, f) := (w.factories lvl).registry w.nextObject hash this
    (r, { w with factories := Function.update w.factories lvl f, nextObject := w.nextObject + 1 })

/-- The storage of a new `Adapter`. -/
def newAdapter : Prog Ptr :=
  Program.act fun w => (w.adapters.size, { w with adapters := w.adapters.alloc })

/-- The storage of a new `Peripheral`. -/
def newPeripheral : Prog Ptr :=
  Program.act fun w => (w.peripherals.size, { w with peripherals := w.peripherals.alloc })

/-- The storage of a new `Service`. -/
def newService : Prog Ptr :=
  Program.act fun w => (w.services.size, { w with services := w.services.alloc })

/-- The storage of a new `Characteristic`. -/
def newCharacteristic : Prog Ptr :=
  Program.act fun w => (w.characteristics.size, { w with characteristics := w.characteristics.alloc })

/-- A call reaches a peripheral of the backend, with the callback it hands over. -/
def callBackend (env : Env) (call : BackendCall) : Prog Unit := do
  Program.modify fun w => { w with log := w.log ++ [call] }
  match call.op, call.callback with
  | .notify, some this =>
      setCallback env (.access .notify) (.notify call.device call.service call.characteristic) this
  | .indicate, some this =>
      setCallback env (.access .indicate) (.indicate call.device call.service call.characteristic) this
  | op, _ => backend env (.access op)

/-- Ask the backend for a list. -/
def query (env : Env) (q : Query) : Prog Unit := do
  Program.modify fun w => { w with queries := w.queries ++ [q] }
  backend env .query

/-! ## Rules for the primitive programs -/

namespace World

/-- The registry at an address is the one of this owner. -/
abbrev OwnedBy (w : World) (lvl : Level) (r : RegistryPtr) (owner : Option Ptr) : Prop :=
  ∃ R, w.registryAt? lvl r = some R ∧ R.owner = owner

/-- Storage has been taken at an address, and nothing is there yet. -/
abbrev Fresh {α : Type} (heap : Heap α) (this : Ptr) : Prop :=
  this < heap.size ∧ heap.get? this = none

/-- A registry has one owner. -/
theorem OwnedBy.unique {w : World} {lvl : Level} {r : RegistryPtr} {o o' : Option Ptr}
    (h : w.OwnedBy lvl r o) (h' : w.OwnedBy lvl r o') : o = o' := by
  obtain ⟨R, hR, rfl⟩ := h
  obtain ⟨R', hR', rfl⟩ := h'
  rw [hR] at hR'
  cases hR'
  rfl

theorem fresh_alloc {α : Type} (heap : Heap α) : Fresh heap.alloc heap.size :=
  ⟨by rw [Heap.size_alloc]; exact Nat.lt_succ_self _, by rw [Heap.get?_alloc, Heap.get?_size]⟩

theorem registryAt?_createRegistry (w : World) (lvl lvl' : Level) (hash : UInt64) (owner : Ptr)
    (r : RegistryPtr) :
    (w.createRegistry lvl hash owner).registryAt? lvl' r =
      if lvl' = lvl ∧ r = (w.factories lvl).registries.length then
        some { self := w.nextObject, owner := some owner }
      else w.registryAt? lvl' r := by
  rw [registryAt?, registryAt?, createRegistry]
  by_cases hlvl : lvl' = lvl
  · subst hlvl
    simp only [Function.update_self, RegistryFactory.create_at?, true_and]
  · simp only [Function.update_of_ne hlvl, hlvl, false_and, if_false]

theorem registryAt?_modifyRegistry (w : World) (lvl lvl' : Level) (r r' : RegistryPtr)
    (f : Registry → Registry) :
    (w.modifyRegistry lvl r f).registryAt? lvl' r' =
      if lvl' = lvl ∧ r' = r then (w.registryAt? lvl' r').map f else w.registryAt? lvl' r' := by
  rw [registryAt?, registryAt?, modifyRegistry]
  by_cases hlvl : lvl' = lvl
  · subst hlvl
    simp only [Function.update_self, RegistryFactory.at?, List.getElem?_modify, true_and, eq_comm]
    by_cases hr : r = r' <;> simp [hr]
  · simp only [Function.update_of_ne hlvl, hlvl, false_and, if_false]

/-- At the beginning no registry has an entry. -/
theorem entries_init {lvl : Level} {r : RegistryPtr} {R : Registry} (hR : init.registryAt? lvl r = some R) :
    R.entries = ∅ := by
  cases lvl with
  | adapter =>
      obtain ⟨-, rfl⟩ := List.getElem?_eq_some_iff.1 hR
      simp [init]
  | peripheral | service | characteristic => cases hR

theorem registryAt?_size (w : World) (lvl : Level) :
    w.registryAt? lvl (w.factories lvl).registries.length = none :=
  List.getElem?_eq_none (Nat.le_refl _)

/-- Creating a registry keeps those that are there. -/
theorem registryAt?_createRegistry_of_some {w : World} {lvl lvl' : Level} {hash : UInt64} {owner : Ptr}
    {r : RegistryPtr} {registry : Registry} (h : w.registryAt? lvl' r = some registry) :
    (w.createRegistry lvl hash owner).registryAt? lvl' r = some registry := by
  rw [registryAt?_createRegistry, if_neg ?_]
  · exact h
  · rintro ⟨rfl, rfl⟩
    rw [registryAt?_size] at h
    cases h

/-- A registry just created is its owner's. -/
theorem ownedBy_createRegistry (w : World) (lvl : Level) (hash : UInt64) (owner : Ptr) :
    (w.createRegistry lvl hash owner).OwnedBy lvl (w.factories lvl).registries.length (some owner) :=
  ⟨_, by rw [registryAt?_createRegistry, if_pos ⟨rfl, rfl⟩], rfl⟩

end World

/-- Storage has been taken for an object that is not there yet. -/
def FreshAt (w : World) : Level → Ptr → Prop
  | .adapter, p => World.Fresh w.adapters p
  | .peripheral, p => World.Fresh w.peripherals p
  | .service, p => World.Fresh w.services p
  | .characteristic, p => World.Fresh w.characteristics p

section Rules

variable {α : Type} {P E : World → Prop} {env : Env}

theorem backend_triple {site : Site} (h : env.throws = some site → ∀ w, P w → E w) :
    Program.Triple P (backend env site) (fun _ => P) E := by
  refine Program.Triple.ite (fun hthrows => ?_) fun _ => ?_
  · exact Program.Triple.throw _ (h hthrows)
  · exact Program.Triple.skip ()

theorem orThrow_triple {e : Error} {o : Option α} (h : ∀ w, P w → E w) :
    Program.Triple P (Program.orThrow e o) (fun a w => P w ∧ o = some a) E := by
  cases o with
  | none => exact Program.Triple.throw e h
  | some a =>
      intro w hw
      exact ⟨hw, rfl⟩

theorem deref_triple {heap : World → Heap α} {p : Option Ptr} (h : ∀ w, P w → E w) :
    Program.Triple P (deref heap p) (fun a w => P w ∧ ∃ q, p = some q ∧ (heap w).get? q = some a) E := by
  intro w hw
  have := orThrow_triple (P := fun w' => w' = w ∧ P w') (E := E) (e := .badPointer)
    (o := p.bind (heap w).get?) (fun w' hw' => h w' hw'.2)
  refine (this.conseq (fun w' hw' => hw') ?_ fun w' hw' => hw') w ⟨rfl, hw⟩
  rintro a w' ⟨⟨rfl, hw'⟩, ha⟩
  obtain ⟨q, hq, hget⟩ := Option.bind_eq_some_iff.1 ha
  exact ⟨hw', q, hq, hget⟩

theorem deref_run {heap : World → Heap α} {w : World} {q : Ptr} {a : α}
    (h : (heap w).get? q = some a) : (deref heap (some q)).run w = (.ok a, w) := by
  show (Program.orThrow Error.badPointer ((some q).bind (heap w).get?)).run w = _
  rw [Option.bind_some, h]
  rfl

theorem deref_run_none {heap : World → Heap α} {w : World} {q : Ptr} (h : (heap w).get? q = none) :
    (deref heap (some q)).run w = (.error .badPointer, w) := by
  show (Program.orThrow Error.badPointer ((some q).bind (heap w).get?)).run w = _
  rw [Option.bind_some, h]
  rfl

theorem ownRegistry_triple {lvl : Level} {hash : UInt64} {this : Ptr}
    {Q : RegistryPtr → World → Prop}
    (hfound : ∀ w r, P w → (w.factories lvl).index[hash]? = some r →
      Q r { w with nextObject := w.nextObject + 1 })
    (hmade : ∀ w, P w → (w.factories lvl).index[hash]? = none →
      Q (w.factories lvl).registries.length (w.createRegistry lvl hash this)) :
    Program.Triple P (ownRegistry lvl hash this) Q E := by
  intro w hw
  rw [ownRegistry, Program.run_act]
  cases hindex : (w.factories lvl).index[hash]? with
  | some r =>
      simp only [RegistryFactory.registry_of_some hindex, Function.update_eq_self]
      exact hfound w r hw hindex
  | none =>
      simp only [RegistryFactory.registry_of_none hindex]
      exact hmade w hw hindex

end Rules

end RuBLE
