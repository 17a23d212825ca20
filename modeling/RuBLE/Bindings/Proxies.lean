import Mathlib
import RuBLE.Bindings.Objects
import RuBLE.Library.System

/-!
# What the proxies do

The member functions of the bindings that build proxies, reach the backend or
handle its callbacks, as programs over the `World`.

* `Peripheral.read` .. `Service.indicate` — accesses, passed up the chain of
  owners to the backend.
* `Adapter.construct` .. `Characteristic.construct` — the constructors, in the
  order of the member initialisers; the object is there once its constructor
  has returned.
* `fetch`, `clear` — `Registry::fetch` and `Registry::clear`.
* `Adapter.scanGetResults`, `Peripheral.services`, `Service.characteristics`,
  `Characteristic.getDescriptors` — scans and lookups.
* `bindingsSystem` — all sequences of these, of deliveries by the backend and of
  steps of the queue; `services_after` and its like show that a scan or a
  lookup is a run of it.
-/

namespace RuBLE

open Transition

/-! ## Accesses -/

/-- What every access of `Peripheral` does: hand it to the handle. -/
def Peripheral.access (env : Env) (this : Option Ptr) (service : BluetoothUUID) (a : Access) :
    Prog Unit := do
  let p ← deref World.peripherals this
  callBackend env { a with device := p.peripheral.backend, service := service }

/-- `Peripheral::read(service, characteristic)`. -/
def Peripheral.read (env : Env) (this : Option Ptr) (service characteristic : BluetoothUUID) :
    Prog (List UInt8) := do
  Peripheral.access env this service { op := .read, characteristic }
  return env.reply

/-- `Peripheral::read(service, characteristic, descriptor)`. -/
def Peripheral.readDescriptor (env : Env) (this : Option Ptr)
    (service characteristic descriptor : BluetoothUUID) : Prog (List UInt8) := do
  Peripheral.access env this service { op := .read, characteristic, descriptor := some descriptor }
  return env.reply

/-- `Peripheral::write(service, characteristic, descriptor, data)`. -/
def Peripheral.write (env : Env) (this : Option Ptr)
    (service characteristic descriptor : BluetoothUUID) (data : List UInt8) : Prog Unit :=
  Peripheral.access env this service
    { op := .write, characteristic, descriptor := some descriptor, data }

/-- `Peripheral::write_request`. -/
def Peripheral.writeRequest (env : Env) (this : Option Ptr)
    (service characteristic : BluetoothUUID) (data : List UInt8) : Prog Unit :=
  Peripheral.access env this service { op := .writeRequest, characteristic, data }

/-- `Peripheral::write_command`. -/
def Peripheral.writeCommand (env : Env) (this : Option Ptr)
    (service characteristic : BluetoothUUID) (data : List UInt8) : Prog Unit :=
  Peripheral.access env this service { op := .writeCommand, characteristic, data }

/-- `Peripheral::notify`, with a callback that captures the `Characteristic`. -/
def Peripheral.notify (env : Env) (this : Option Ptr) (service characteristic : BluetoothUUID)
    (callback : Ptr) : Prog Unit :=
  Peripheral.access env this service { op := .notify, characteristic, callback := some callback }

/-- `Peripheral::indicate`, likewise. -/
def Peripheral.indicate (env : Env) (this : Option Ptr) (service characteristic : BluetoothUUID)
    (callback : Ptr) : Prog Unit :=
  Peripheral.access env this service { op := .indicate, characteristic, callback := some callback }

/-- What every access of `Service` does: pass it to `peripheral()`, with the
service's own UUID in front. -/
def Service.viaPeripheral {α : Type} (this : Option Ptr)
    (access : Option Ptr → BluetoothUUID → Prog α) : Prog α := do
  let s ← deref World.services this
  access s.owner s.uuid

/-- `Service::read(characteristic)`. -/
def Service.read (env : Env) (this : Option Ptr) (characteristic : BluetoothUUID) :
    Prog (List UInt8) :=
  Service.viaPeripheral this fun p s => Peripheral.read env p s characteristic

/-- `Service::read(characteristic, descriptor)`. -/
def Service.readDescriptor (env : Env) (this : Option Ptr)
    (characteristic descriptor : BluetoothUUID) : Prog (List UInt8) :=
  Service.viaPeripheral this fun p s => Peripheral.readDescriptor env p s characteristic descriptor

/-- `Service::write`. -/
def Service.write (env : Env) (this : Option Ptr) (characteristic descriptor : BluetoothUUID)
    (data : List UInt8) : Prog Unit :=
  Service.viaPeripheral this fun p s => Peripheral.write env p s characteristic descriptor data

/-- `Service::write_request`. -/
def Service.writeRequest (env : Env) (this : Option Ptr) (characteristic : BluetoothUUID)
    (data : List UInt8) : Prog Unit :=
  Service.viaPeripheral this fun p s => Peripheral.writeRequest env p s characteristic data

/-- `Service::write_command`. -/
def Service.writeCommand (env : Env) (this : Option Ptr) (characteristic : BluetoothUUID)
    (data : List UInt8) : Prog Unit :=
  Service.viaPeripheral this fun p s => Peripheral.writeCommand env p s characteristic data

/-- `Service::notify`. -/
def Service.notify (env : Env) (this : Option Ptr) (characteristic : BluetoothUUID)
    (callback : Ptr) : Prog Unit :=
  Service.viaPeripheral this fun p s => Peripheral.notify env p s characteristic callback

/-- `Service::indicate`. -/
def Service.indicate (env : Env) (this : Option Ptr) (characteristic : BluetoothUUID)
    (callback : Ptr) : Prog Unit :=
  Service.viaPeripheral this fun p s => Peripheral.indicate env p s characteristic callback

/-! ## Constructors -/

/-- `Adapter::Adapter(adapter)`. -/
def Adapter.construct (H : Hashes) (env : Env) (value : SimpleBLE.Adapter) : Prog Ptr := do
  let this ← newAdapter
  let self ← newObject
  backend env .address
  let registry ← ownRegistry .peripheral (hashAdapter H value) this
  setCallback env .setCallbackOnScanStart (.scanStart value.backend) this
  setCallback env .setCallbackOnScanStop (.scanStop value.backend) this
  setCallback env .setCallbackOnScanUpdated (.scanUpdated value.backend) this
  setCallback env .setCallbackOnScanFound (.scanFound value.backend) this
  Program.modify (·.storeAdapter this
    { self, adapter := value, addr := value.address, peripheralRegistry := registry })
  return this

/-- `Peripheral::Peripheral(peripheral, owner)`. -/
def Peripheral.construct (H : Hashes) (env : Env) (value : SimpleBLE.Peripheral)
    (owner : Option Ptr) : Prog Ptr := do
  let this ← newPeripheral
  backend env .address
  backend env .addressType
  let registry ← ownRegistry .service (hashPeripheral H value) this
  let self ← newObject
  setCallback env .setCallbackOnConnected (.connected value.backend) this
  setCallback env .setCallbackOnDisconnected (.disconnected value.backend) this
  Program.modify (·.storePeripheral this
    { owner, peripheral := value, addr := value.address, addrType := value.addressType,
      serviceRegistry := registry, self })
  return this

/-- `Service::Service(service, owner)`. -/
def Service.construct (H : Hashes) (env : Env) (value : SimpleBLE.Service) (owner : Option Ptr) :
    Prog Ptr := do
  let this ← newService
  let registry ← ownRegistry .characteristic (hashService H value) this
  backend env .uuid
  let self ← newObject
  Program.modify (·.storeService this
    { owner, service := value, characteristicRegistry := registry, uuid := value.uuid, self })
  return this

/-- `CapabilityFlags(names)`: throws for a name that is not a capability. -/
def capabilityFlags : List String → Prog Unit
  | [] => pure ()
  | name :: names => do
      if name ∈ capabilityNames then capabilityFlags names
      else Program.throw (.invalidFieldName name)

/-- `Characteristic::Characteristic(characteristic, owner)`. -/
def Characteristic.construct (env : Env) (value : SimpleBLE.Characteristic) (owner : Option Ptr) :
    Prog Ptr := do
  let this ← newCharacteristic
  backend env .uuid
  let self ← newObject
  backend env .capabilities
  capabilityFlags value.capabilities
  Program.when ("notify" ∈ value.capabilities) (Service.notify env owner value.uuid this)
  Program.when ("indicate" ∈ value.capabilities) (Service.indicate env owner value.uuid this)
  Program.modify (·.storeCharacteristic this
    { owner, characteristic := value, uuid := value.uuid, self })
  return this

/-! ## Registries -/

/-- The registry at an address. -/
def registryAt (lvl : Level) (r : RegistryPtr) : Prog Registry := do
  let w ← Program.get
  Program.orThrow .badPointer (w.registryAt? lvl r)

/-- `Registry::fetch(value)`, for a value with this key. -/
def fetch (env : Env) (lvl : Level) (r : RegistryPtr) (key : String)
    (construct : Option Ptr → Prog Ptr) : Prog Ptr := do
  let registry ← registryAt lvl r
  backend env .keyFromValue
  match registry.entries[key]? with
  | some p => return p
  | none =>
      if env.duringGc then Program.throw (.duringGc lvl key)
      else
        let p ← construct registry.owner
        Program.modify (·.modifyRegistry lvl r fun registry =>
          { registry with entries := registry.entries.insertIfNew key p })
        let registry ← registryAt lvl r
        Program.orThrow .outOfRange registry.entries[key]?

/-- `Registry::clear`. -/
def clear (lvl : Level) (r : RegistryPtr) : Prog Unit :=
  Program.modify (·.modifyRegistry lvl r fun registry => { registry with entries := ∅ })

/-- What is fetched, by its level. -/
inductive Value where
  | adapter (value : SimpleBLE.Adapter)
  | peripheral (value : SimpleBLE.Peripheral)
  | service (value : SimpleBLE.Service)
  | characteristic (value : SimpleBLE.Characteristic)
  deriving DecidableEq, Repr

namespace Value

/-- The level of the proxy for it. -/
def level : Value → Level
  | .adapter _ => .adapter
  | .peripheral _ => .peripheral
  | .service _ => .service
  | .characteristic _ => .characteristic

/-- `Registry::key_from_value`. -/
def key : Value → String
  | .adapter value => value.address
  | .peripheral value => value.address
  | .service value => value.uuid
  | .characteristic value => value.uuid

/-- `new ProxyClass(value, owner)`. -/
def construct (H : Hashes) (env : Env) (owner : Option Ptr) : Value → Prog Ptr
  | .adapter value => Adapter.construct H env value
  | .peripheral value => Peripheral.construct H env value owner
  | .service value => Service.construct H env value owner
  | .characteristic value => Characteristic.construct env value owner

end Value

/-- A call of `Registry::fetch`. -/
structure Fetch where
  registry : RegistryPtr
  value : Value
  env : Env := {}
  deriving DecidableEq, Repr

/-- The call, as a program. -/
def Fetch.prog (H : Hashes) (f : Fetch) : Prog Ptr :=
  fetch f.env f.value.level f.registry f.value.key fun owner => f.value.construct H f.env owner

/-! ## Scans and lookups -/

/-- `Registry::map_to_objects`, each value with what happens when it is fetched. -/
def mapToObjects (H : Hashes) (r : RegistryPtr) : List (Value × Env) → Prog (List Ptr)
  | [] => return []
  | (value, env) :: values => do
      let p ← Fetch.prog H ⟨r, value, env⟩
      let ps ← mapToObjects H r values
      return p :: ps

/-- `Adapter::get_adapters`. -/
def Adapter.getAdapters (H : Hashes) (env : Env) (report : List (SimpleBLE.Adapter × Env)) :
    Prog (List Ptr) := do
  query env .adapters
  mapToObjects H 0 (report.map fun v => (.adapter v.1, v.2))

/-- `Adapter::scan_get_results`. -/
def Adapter.scanGetResults (H : Hashes) (env : Env) (this : Ptr)
    (report : List (SimpleBLE.Peripheral × Env)) : Prog (List Ptr) := do
  let a ← deref World.adapters (some this)
  query env (.scanResults this)
  mapToObjects H a.peripheralRegistry (report.map fun v => (.peripheral v.1, v.2))

/-- `Adapter::get_paired_peripherals`. -/
def Adapter.getPairedPeripherals (H : Hashes) (env : Env) (this : Ptr)
    (report : List (SimpleBLE.Peripheral × Env)) : Prog (List Ptr) := do
  let a ← deref World.adapters (some this)
  query env (.pairedPeripherals this)
  mapToObjects H a.peripheralRegistry (report.map fun v => (.peripheral v.1, v.2))

/-- `Peripheral::services`; during a collection nothing is asked or built. -/
def Peripheral.services (H : Hashes) (env : Env) (this : Ptr)
    (report : List (SimpleBLE.Service × Env)) : Prog (Std.TreeMap String Ptr) := do
  let p ← deref World.peripherals (some this)
  Program.when (env.duringGc = false) do
    query env (.services this)
    let _ ← mapToObjects H p.serviceRegistry (report.map fun v => (.service v.1, v.2))
  let registry ← registryAt .service p.serviceRegistry
  return registry.entries

/-- `Service::characteristics`, likewise. -/
def Service.characteristics (H : Hashes) (env : Env) (this : Ptr)
    (report : List (SimpleBLE.Characteristic × Env)) : Prog (Std.TreeMap String Ptr) := do
  let s ← deref World.services (some this)
  Program.when (env.duringGc = false) do
    query env (.characteristics this)
    let _ ← mapToObjects H s.characteristicRegistry (report.map fun v => (.characteristic v.1, v.2))
  let registry ← registryAt .characteristic s.characteristicRegistry
  return registry.entries

/-- `Descriptor::make_map`, added to a map. -/
def Descriptor.makeMap (owner : Ptr) (result : Std.TreeMap String Descriptor) :
    List BluetoothUUID → Prog (Std.TreeMap String Descriptor)
  | [] => return result
  | uuid :: report => do
      let self ← newObject
      Descriptor.makeMap owner (result.insertIfNew uuid { uuid, owner, self }) report

/-- `Characteristic::descriptors`. -/
def Characteristic.getDescriptors (env : Env) (this : Ptr) (report : List BluetoothUUID) :
    Prog (Std.TreeMap String Descriptor) := do
  let c ← deref World.characteristics (some this)
  match c.descriptors with
  | some descriptors => return descriptors
  | none =>
      query env (.descriptors this)
      let result ← Descriptor.makeMap this ∅ report
      Program.modify (·.updateCharacteristic this fun c => { c with descriptors := some result })
      return result

/-! ## Requests -/

/-- A request made through a characteristic, or through a descriptor it holds. -/
inductive Request where
  | read (force : Bool)
  | writeRequest (data : List UInt8)
  | writeCommand (data : List UInt8)
  | readDescriptor (descriptor : BluetoothUUID)
  | writeDescriptor (descriptor : BluetoothUUID) (data : List UInt8)
  deriving DecidableEq, Repr

/-- `record_new_value`, on the tracker of a characteristic. -/
def Characteristic.recordNewValue (this : Ptr) (data : List UInt8) : Prog Unit :=
  Program.modify (·.updateCharacteristic this fun c =>
    { c with tracker := (c.tracker.recordNewValue c.canNotify data).2 })

/-- The value `Characteristic::read(force)` answers without the backend. -/
def Characteristic.cached (c : Characteristic) (force : Bool) : Option ByteArray :=
  if !force && c.tracker.valueTracking c.canNotify then c.tracker.value else none

/-- `Characteristic::read(force)`. -/
def Characteristic.read (env : Env) (this : Ptr) (force : Bool) : Prog (List UInt8) := do
  let c ← deref World.characteristics (some this)
  match c.cached force with
  | some value => return value.data
  | none =>
      let value ← Service.read env c.owner c.uuid
      Characteristic.recordNewValue this value
      return value

/-- What the other accesses of `Characteristic` do: pass them to `service()`,
with the characteristic's own UUID in front. -/
def Characteristic.viaService {α : Type} (this : Ptr)
    (access : Option Ptr → BluetoothUUID → Prog α) : Prog α := do
  let c ← deref World.characteristics (some this)
  access c.owner c.uuid

/-- `Characteristic::read(descriptor)`. -/
def Characteristic.readDescriptor (env : Env) (this : Ptr) (descriptor : BluetoothUUID) :
    Prog (List UInt8) :=
  Characteristic.viaService this fun s u => Service.readDescriptor env s u descriptor

/-- `Characteristic::write(descriptor, data)`. -/
def Characteristic.write (env : Env) (this : Ptr) (descriptor : BluetoothUUID)
    (data : List UInt8) : Prog Unit :=
  Characteristic.viaService this fun s u => Service.write env s u descriptor data

/-- `Characteristic::write_request`. -/
def Characteristic.writeRequest (env : Env) (this : Ptr) (data : List UInt8) : Prog Unit :=
  Characteristic.viaService this fun s u => Service.writeRequest env s u data

/-- `Characteristic::write_command`. -/
def Characteristic.writeCommand (env : Env) (this : Ptr) (data : List UInt8) : Prog Unit :=
  Characteristic.viaService this fun s u => Service.writeCommand env s u data

/-- `Descriptor::read`. -/
def Descriptor.read (env : Env) (d : Descriptor) : Prog (List UInt8) :=
  Characteristic.readDescriptor env d.owner d.uuid

/-- `Descriptor::write`. -/
def Descriptor.write (env : Env) (d : Descriptor) (data : List UInt8) : Prog Unit :=
  Characteristic.write env d.owner d.uuid data

/-- A descriptor that a characteristic holds. -/
def Characteristic.heldDescriptor (this : Ptr) (uuid : BluetoothUUID) : Prog Descriptor := do
  let c ← deref World.characteristics (some this)
  Program.orThrow .outOfRange (c.descriptors.bind (·[uuid]?))

/-- Make a request through a characteristic. -/
def Request.prog (env : Env) (this : Ptr) : Request → Prog Unit
  | .read force => do
      let _ ← Characteristic.read env this force
  | .writeRequest data => Characteristic.writeRequest env this data
  | .writeCommand data => Characteristic.writeCommand env this data
  | .readDescriptor uuid => do
      let d ← Characteristic.heldDescriptor this uuid
      let _ ← Descriptor.read env d
  | .writeDescriptor uuid data => do
      let d ← Characteristic.heldDescriptor this uuid
      Descriptor.write env d data

/-! ## Callbacks and the queue -/

/-- The backend invokes a callback, which pushes an item. -/
def Event.prog (event : Event) : Prog Unit :=
  Program.modify fun w =>
    match w.registered event.slot with
    | some this => { w with queue := w.queue ++ [event.item this] }
    | none => w

/-- The queue runs an item. -/
def Item.prog (H : Hashes) (env : Env) : Item → Prog Unit
  | .scanStart this | .scanStop this => do
      let _ ← deref World.adapters (some this)
  | .scanUpdate this value | .scanFind this value => do
      let a ← deref World.adapters (some this)
      let _ ← Fetch.prog H ⟨a.peripheralRegistry, .peripheral value, env⟩
  | .connected this | .disconnected this => do
      let _ ← deref World.peripherals (some this)
  | .fireOnNotify this data => do
      let _ ← deref World.characteristics (some this)
      Characteristic.recordNewValue this data
  | .fireOnIndicate this _ => do
      let _ ← deref World.characteristics (some this)

/-- The queue takes an item, from the back, and runs it. -/
def runItem (H : Hashes) (env : Env) : Prog Unit := do
  let w ← Program.get
  match w.queue.getLast? with
  | none => return ()
  | some item =>
      Program.modify fun w => { w with queue := w.queue.dropLast }
      item.prog H env

/-! ## The system -/

/-- What can happen next. -/
inductive Action where
  | fetch (f : Fetch)
  | clear (lvl : Level) (r : RegistryPtr)
  | query (q : Query) (env : Env)
  | descriptors (characteristic : Ptr) (report : List BluetoothUUID) (env : Env)
  | request (characteristic : Ptr) (req : Request) (env : Env)
  | deliver (event : Event)
  | runItem (env : Env)
  deriving DecidableEq, Repr

/-- What it is that happens. -/
def Action.prog (H : Hashes) : Action → Prog Unit
  | .fetch f => do
      let _ ← f.prog H
  | .clear lvl r => RuBLE.clear lvl r
  | .query q env => RuBLE.query env q
  | .descriptors c report env => do
      let _ ← Characteristic.getDescriptors env c report
  | .request c req env => req.prog env c
  | .deliver event => event.prog
  | .runItem env => RuBLE.runItem H env

/-- All sequences of fetches, clears, requests, deliveries and steps of the
queue.  What throws leaves behind what it has written. -/
def bindingsSystem (H : Hashes) : System World Action :=
  ⟨World.init, fun w a => some ((a.prog H).run w).2⟩

/-- The fetch an action makes, if any. -/
def Action.fetch? (w : World) : Action → Option Fetch
  | .fetch f => some f
  | .runItem env =>
      match w.queue.getLast? with
      | some (.scanUpdate this value) | some (.scanFind this value) =>
          (w.adapters.get? this).map fun a => ⟨a.peripheralRegistry, .peripheral value, env⟩
      | _ => none
  | _ => none

/-- The fetch finds no proxy and is not refused, so it comes to the constructor. -/
def Fetch.Constructs (w : World) (f : Fetch) : Prop :=
  f.env.throws ≠ some .keyFromValue ∧ f.env.duringGc = false ∧
    ∃ registry, w.registryAt? f.value.level f.registry = some registry ∧
      registry.entries[f.value.key]? = none

instance (w : World) (f : Fetch) : Decidable (f.Constructs w) :=
  match h : w.registryAt? f.value.level f.registry with
  | none => isFalse (by rintro ⟨-, -, R, hR, -⟩; rw [h] at hR; cases hR)
  | some R =>
      decidable_of_iff (f.env.throws ≠ some .keyFromValue ∧ f.env.duringGc = false ∧
        R.entries[f.value.key]? = none) (by simp [Fetch.Constructs, h])

/-! ## Scans and lookups are runs -/

section Reaches

variable {H : Hashes} {w₀ : World}

/-- `w` is the world after a run from `w₀`. -/
abbrev After (H : Hashes) (w₀ w : World) : Prop := (bindingsSystem H).ReachesFrom w₀ w

theorem after_action {w : World} (a : Action) (h : After H w₀ w) :
    After H w₀ ((a.prog H).run w).2 :=
  h.trans ⟨[a], rfl⟩

/-- Dropping what a program returns does not change the state it leaves. -/
theorem run_discard {α : Type} (x : Prog α) (w : World) :
    ((do let _ ← x) : Prog Unit).run w = ((x.run w).1.map fun _ => (), (x.run w).2) := by
  cases hr : x.run w with
  | mk r t =>
      cases r with
      | ok a => exact Program.run_bind_ok hr
      | error e => exact Program.run_bind_error hr

theorem fetch_after (f : Fetch) :
    Program.Triple (After H w₀) (f.prog H) (fun _ => After H w₀) (After H w₀) := by
  refine Program.Triple.of_final fun w hw => ?_
  have := after_action (.fetch f) hw
  rwa [Action.prog, run_discard] at this

theorem query_after (env : Env) (q : Query) :
    Program.Triple (After H w₀) (query env q) (fun _ => After H w₀) (After H w₀) :=
  Program.Triple.of_final fun _ hw => after_action (.query q env) hw

theorem mapToObjects_after (r : RegistryPtr) (values : List (Value × Env)) :
    Program.Triple (After H w₀) (mapToObjects H r values) (fun _ => After H w₀) (After H w₀) := by
  induction values with
  | nil => exact Program.Triple.skip []
  | cons v values ih =>
      refine Program.Triple.bind (fetch_after _) fun p => ?_
      refine Program.Triple.bind ih fun ps => ?_
      exact Program.Triple.skip (p :: ps)

theorem deref_after {α : Type} {heap : World → Heap α} {p : Option Ptr} :
    Program.Triple (After H w₀) (deref heap p) (fun _ => After H w₀) (After H w₀) :=
  (deref_triple fun _ hw => hw).conseq (fun _ hw => hw) (fun _ _ hw => hw.1) fun _ hw => hw

theorem registryAt_after (lvl : Level) (r : RegistryPtr) :
    Program.Triple (After H w₀) (registryAt lvl r) (fun _ => After H w₀) (After H w₀) := by
  intro w hw
  rw [registryAt, Program.run_bind_ok (show Program.get.run w = (.ok w, w) from rfl)]
  cases w.registryAt? lvl r with
  | none => exact hw
  | some R => exact hw

/-- **A scan is a run**: whatever `scan_get_results` leaves, also when it
throws half-way, is left by a sequence of single fetches. -/
theorem scanGetResults_after (env : Env) (a : Ptr) (report : List (SimpleBLE.Peripheral × Env)) :
    Program.Triple (After H w₀) (Adapter.scanGetResults H env a report) (fun _ => After H w₀)
      (After H w₀) := by
  refine Program.Triple.bind deref_after fun A => ?_
  refine Program.Triple.bind (query_after env _) fun _ => ?_
  exact mapToObjects_after _ _

/-- The same of `get_paired_peripherals`. -/
theorem getPairedPeripherals_after (env : Env) (a : Ptr)
    (report : List (SimpleBLE.Peripheral × Env)) :
    Program.Triple (After H w₀) (Adapter.getPairedPeripherals H env a report) (fun _ => After H w₀)
      (After H w₀) := by
  refine Program.Triple.bind deref_after fun A => ?_
  refine Program.Triple.bind (query_after env _) fun _ => ?_
  exact mapToObjects_after _ _

/-- The same of `get_adapters`. -/
theorem getAdapters_after (env : Env) (report : List (SimpleBLE.Adapter × Env)) :
    Program.Triple (After H w₀) (Adapter.getAdapters H env report) (fun _ => After H w₀)
      (After H w₀) := by
  refine Program.Triple.bind (query_after env _) fun _ => ?_
  exact mapToObjects_after _ _

/-- **A lookup is a run**: the same of `Peripheral::services`. -/
theorem services_after (env : Env) (p : Ptr) (report : List (SimpleBLE.Service × Env)) :
    Program.Triple (After H w₀) (Peripheral.services H env p report) (fun _ => After H w₀)
      (After H w₀) := by
  refine Program.Triple.bind deref_after fun P => ?_
  refine Program.Triple.bind (Program.Triple.when fun _ => ?_) fun _ => ?_
  · refine Program.Triple.bind (query_after env _) fun _ => ?_
    refine Program.Triple.bind (mapToObjects_after _ _) fun _ => ?_
    exact Program.Triple.skip ()
  · refine Program.Triple.bind (registryAt_after _ _) fun R => ?_
    exact Program.Triple.skip R.entries

/-- The same of `Service::characteristics`. -/
theorem characteristics_after (env : Env) (s : Ptr)
    (report : List (SimpleBLE.Characteristic × Env)) :
    Program.Triple (After H w₀) (Service.characteristics H env s report) (fun _ => After H w₀)
      (After H w₀) := by
  refine Program.Triple.bind deref_after fun S => ?_
  refine Program.Triple.bind (Program.Triple.when fun _ => ?_) fun _ => ?_
  · refine Program.Triple.bind (query_after env _) fun _ => ?_
    refine Program.Triple.bind (mapToObjects_after _ _) fun _ => ?_
    exact Program.Triple.skip ()
  · refine Program.Triple.bind (registryAt_after _ _) fun R => ?_
    exact Program.Triple.skip R.entries

end Reaches

end RuBLE
