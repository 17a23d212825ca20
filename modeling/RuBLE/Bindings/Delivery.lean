import Mathlib
import RuBLE.Bindings.Lifetimes
import RuBLE.Library.Frame

/-!
# Where callbacks go

A callback of the backend captures the `this` of the proxy that registered it,
and pushes an item with it into the queue.

* `Aside`, `fetch_leaves` — what the programs leave alone.
* `action_queue` — **what an action does to the queue**: a delivery appends, a
  step of the queue takes, nothing else touches it.
* `Concerns` — the proxy at an address is the one the callback in a slot is about.
* `Addressed` — the invariant: callbacks capture proxies that they are about,
  and whoever has been given such an address keeps it for good.
* `inbound_routing` — **end-to-end delivery**: where no pointer dangles, the items
  that wait are, in this order, for events that have been delivered, each once,
  and each for a proxy that is there and that its event is about.
-/

namespace RuBLE

open Transition

/-! ## What is left alone -/

/-- A part of the world that is none of the books kept aside from the proxies
and the queue. -/
def Aside {τ : Type} (part : World → τ) : Prop :=
  ∀ (w : World) n cbs log qs fs,
    part { w with nextObject := n, callbacks := cbs, log := log, queries := qs, factories := fs } =
      part w

section Leaves

variable {τ : Type} {part : World → τ} {H : Hashes} {env : Env}

theorem backend_leaves (site : Site) : Program.Leaves part (backend env site) :=
  Program.Leaves.ite (Program.Leaves.throw _) (Program.Leaves.pure ())

theorem deref_leaves {α : Type} (heap : World → Heap α) (p : Option Ptr) :
    Program.Leaves part (deref heap p) :=
  Program.Leaves.get.bind fun _ => Program.Leaves.orThrow _ _

theorem heldDescriptor_leaves (this : Ptr) (uuid : BluetoothUUID) :
    Program.Leaves part (Characteristic.heldDescriptor this uuid) :=
  (deref_leaves _ _).bind fun _ => Program.Leaves.orThrow _ _

theorem registryAt_leaves (lvl : Level) (r : RegistryPtr) : Program.Leaves part (registryAt lvl r) :=
  Program.Leaves.get.bind fun _ => Program.Leaves.orThrow _ _

theorem capabilityFlags_leaves (names : List String) :
    Program.Leaves part (capabilityFlags names) := by
  induction names with
  | nil => exact Program.Leaves.pure ()
  | cons name names ih => exact Program.Leaves.ite ih (Program.Leaves.throw _)

variable (h : Aside part)

include h

theorem newObject_leaves : Program.Leaves part newObject :=
  Program.Leaves.act fun w => h w (w.nextObject + 1) w.callbacks w.log w.queries w.factories

theorem setCallback_leaves (site : Site) (slot : Slot) (this : Ptr) :
    Program.Leaves part (setCallback env site slot this) := by
  refine Program.Leaves.bind (Program.Leaves.when ?_) fun _ => backend_leaves site
  exact Program.Leaves.modify fun w => h w w.nextObject _ w.log w.queries w.factories

theorem ownRegistry_leaves (lvl : Level) (hash : UInt64) (this : Ptr) :
    Program.Leaves part (ownRegistry lvl hash this) :=
  Program.Leaves.act fun w => h w (w.nextObject + 1) w.callbacks w.log w.queries _

theorem query_leaves (q : Query) : Program.Leaves part (query env q) := by
  refine Program.Leaves.bind (Program.Leaves.modify fun w => ?_) fun _ => backend_leaves _
  exact h w w.nextObject w.callbacks w.log _ w.factories

theorem callBackend_leaves (call : BackendCall) : Program.Leaves part (callBackend env call) := by
  refine Program.Leaves.bind (Program.Leaves.modify fun w => ?_) fun _ => ?_
  · exact h w w.nextObject w.callbacks _ w.queries w.factories
  split
  · exact setCallback_leaves h _ _ _
  · exact setCallback_leaves h _ _ _
  · exact backend_leaves _

/-- An access, on whichever way it is made. -/
theorem access_leaves (owner : Option Ptr) (a : Access) :
    Program.Leaves part (Service.viaPeripheral owner fun p s => Peripheral.access env p s a) := by
  refine (deref_leaves _ _).bind fun S => ?_
  exact (deref_leaves _ _).bind fun P => callBackend_leaves h _

theorem Adapter.construct_leaves (hadapters : ∀ w heap, part { w with adapters := heap } = part w)
    (value : SimpleBLE.Adapter) : Program.Leaves part (Adapter.construct H env value) := by
  refine Program.Leaves.bind (Program.Leaves.act fun w => hadapters w _) fun this => ?_
  refine (newObject_leaves h).bind fun self => ?_
  refine (backend_leaves _).bind fun _ => ?_
  refine (ownRegistry_leaves h _ _ _).bind fun r => ?_
  refine (setCallback_leaves h _ _ _).bind fun _ => ?_
  refine (setCallback_leaves h _ _ _).bind fun _ => ?_
  refine (setCallback_leaves h _ _ _).bind fun _ => ?_
  refine (setCallback_leaves h _ _ _).bind fun _ => ?_
  refine Program.Leaves.bind (Program.Leaves.modify fun w => ?_) fun _ => Program.Leaves.pure _
  exact hadapters w _

theorem Peripheral.construct_leaves
    (hperipherals : ∀ w heap, part { w with peripherals := heap } = part w)
    (value : SimpleBLE.Peripheral) (owner : Option Ptr) :
    Program.Leaves part (Peripheral.construct H env value owner) := by
  refine Program.Leaves.bind (Program.Leaves.act fun w => hperipherals w _) fun this => ?_
  refine (backend_leaves _).bind fun _ => ?_
  refine (backend_leaves _).bind fun _ => ?_
  refine (ownRegistry_leaves h _ _ _).bind fun r => ?_
  refine (newObject_leaves h).bind fun self => ?_
  refine (setCallback_leaves h _ _ _).bind fun _ => ?_
  refine (setCallback_leaves h _ _ _).bind fun _ => ?_
  refine Program.Leaves.bind (Program.Leaves.modify fun w => ?_) fun _ => Program.Leaves.pure _
  exact hperipherals w _

theorem Service.construct_leaves (hservices : ∀ w heap, part { w with services := heap } = part w)
    (value : SimpleBLE.Service) (owner : Option Ptr) :
    Program.Leaves part (Service.construct H env value owner) := by
  refine Program.Leaves.bind (Program.Leaves.act fun w => hservices w _) fun this => ?_
  refine (ownRegistry_leaves h _ _ _).bind fun r => ?_
  refine (backend_leaves _).bind fun _ => ?_
  refine (newObject_leaves h).bind fun self => ?_
  refine Program.Leaves.bind (Program.Leaves.modify fun w => ?_) fun _ => Program.Leaves.pure _
  exact hservices w _

theorem Characteristic.construct_leaves
    (hcharacteristics : ∀ w heap, part { w with characteristics := heap } = part w)
    (value : SimpleBLE.Characteristic) (owner : Option Ptr) :
    Program.Leaves part (Characteristic.construct env value owner) := by
  refine Program.Leaves.bind (Program.Leaves.act fun w => hcharacteristics w _) fun this => ?_
  refine (backend_leaves _).bind fun _ => ?_
  refine (newObject_leaves h).bind fun self => ?_
  refine (backend_leaves _).bind fun _ => ?_
  refine (capabilityFlags_leaves _).bind fun _ => ?_
  refine (Program.Leaves.when (access_leaves h owner _)).bind fun _ => ?_
  refine (Program.Leaves.when (access_leaves h owner _)).bind fun _ => ?_
  refine Program.Leaves.bind (Program.Leaves.modify fun w => ?_) fun _ => Program.Leaves.pure _
  exact hcharacteristics w _

/-- A fetch leaves alone what the constructor it may call does. -/
theorem fetch_leaves (f : Fetch)
    (hconstruct : ∀ owner, Program.Leaves part (f.value.construct H f.env owner)) :
    Program.Leaves part (f.prog H) := by
  refine (registryAt_leaves _ _).bind fun R => ?_
  refine (backend_leaves _).bind fun _ => ?_
  dsimp only
  split
  · exact Program.Leaves.pure _
  refine Program.Leaves.ite (Program.Leaves.throw _) ?_
  refine (hconstruct _).bind fun p => ?_
  refine Program.Leaves.bind (Program.Leaves.modify fun w => ?_) fun _ => ?_
  · exact h w w.nextObject w.callbacks w.log w.queries _
  exact (registryAt_leaves _ _).bind fun R' => Program.Leaves.orThrow _ _

/-- A request that is no read of the characteristic itself. -/
theorem request_leaves (this : Ptr) (req : Request) (hread : ∀ force, req ≠ .read force) :
    Program.Leaves part (req.prog env this) := by
  cases req with
  | read force => exact absurd rfl (hread force)
  | writeRequest data => exact (deref_leaves _ _).bind fun C => access_leaves h C.owner _
  | writeCommand data => exact (deref_leaves _ _).bind fun C => access_leaves h C.owner _
  | readDescriptor uuid =>
      refine (heldDescriptor_leaves _ _).bind fun d => ?_
      refine Program.Leaves.bind ?_ fun _ => Program.Leaves.pure ()
      refine (deref_leaves _ _).bind fun C => ?_
      rw [show (fun s u => Service.readDescriptor env s u d.uuid) C.owner C.uuid =
        Service.readDescriptor env C.owner C.uuid d.uuid from rfl, Service.readDescriptor_eq]
      exact (access_leaves h _ _).bind fun _ => Program.Leaves.pure _
  | writeDescriptor uuid data =>
      refine (heldDescriptor_leaves _ _).bind fun d => ?_
      exact (deref_leaves _ _).bind fun C => access_leaves h C.owner _

theorem makeMap_leaves (owner : Ptr) (report : List BluetoothUUID)
    (result : Std.TreeMap String Descriptor) :
    Program.Leaves part (Descriptor.makeMap owner result report) := by
  induction report generalizing result with
  | nil => exact Program.Leaves.pure _
  | cons uuid report ih => exact (newObject_leaves h).bind fun self => ih _

end Leaves

/-! ## The queue -/

section Queue

variable {H : Hashes} {env : Env}

/-- The program does not touch the queue. -/
abbrev LeavesQueue {α : Type} (x : Prog α) : Prop := Program.Leaves World.queue x

theorem aside_queue : Aside World.queue := fun _ _ _ _ _ _ => rfl

theorem fetch_leaves_queue (f : Fetch) : LeavesQueue (f.prog H) := by
  refine fetch_leaves aside_queue f fun owner => ?_
  cases f.value with
  | adapter value => exact Adapter.construct_leaves aside_queue (fun _ _ => rfl) value
  | peripheral value => exact Peripheral.construct_leaves aside_queue (fun _ _ => rfl) value owner
  | service value => exact Service.construct_leaves aside_queue (fun _ _ => rfl) value owner
  | characteristic value =>
      exact Characteristic.construct_leaves aside_queue (fun _ _ => rfl) value owner

theorem descriptors_leaves_queue (this : Ptr) (report : List BluetoothUUID) :
    LeavesQueue (Characteristic.getDescriptors env this report) := by
  refine (deref_leaves _ _).bind fun C => ?_
  split
  · exact Program.Leaves.pure _
  refine (query_leaves aside_queue _).bind fun _ => ?_
  refine (makeMap_leaves aside_queue _ _ _).bind fun ds => ?_
  exact Program.Leaves.bind (Program.Leaves.modify fun _ => rfl) fun _ => Program.Leaves.pure _

theorem record_leaves_queue (this : Ptr) (data : List UInt8) :
    LeavesQueue (Characteristic.recordNewValue this data) :=
  Program.Leaves.modify fun _ => rfl

theorem request_leaves_queue (this : Ptr) (req : Request) : LeavesQueue (req.prog env this) := by
  cases req with
  | read force =>
      refine Program.Leaves.bind ?_ fun _ => Program.Leaves.pure ()
      refine (deref_leaves _ _).bind fun C => ?_
      split
      · exact Program.Leaves.pure _
      refine Program.Leaves.bind ?_ fun value => ?_
      · rw [Service.read_eq]
        exact (access_leaves aside_queue _ _).bind fun _ => Program.Leaves.pure _
      · exact (record_leaves_queue this value).bind fun _ => Program.Leaves.pure _
  | writeRequest | writeCommand | readDescriptor | writeDescriptor =>
      exact request_leaves aside_queue this _ (by simp)

theorem item_leaves_queue (item : Item) : LeavesQueue (item.prog H env) := by
  cases item with
  | scanUpdate this value | scanFind this value =>
      refine (deref_leaves _ _).bind fun A => ?_
      exact (fetch_leaves_queue _).bind fun _ => Program.Leaves.pure ()
  | fireOnNotify this data =>
      exact (deref_leaves _ _).bind fun _ => record_leaves_queue this data
  | scanStart this | scanStop this | connected this | disconnected this | fireOnIndicate this _ =>
      exact (deref_leaves _ _).bind fun _ => Program.Leaves.pure ()

/-- What an action appends to the queue. -/
def Action.appended (w : World) : Action → List Item
  | .deliver event => ((w.registered event.slot).map event.item).toList
  | _ => []

/-- **What an action does to the queue.**  It takes the last item, or it appends. -/
theorem action_queue (H : Hashes) (w : World) (a : Action) :
    ((a.prog H).run w).2.queue =
      match a with
      | .runItem _ => w.queue.dropLast
      | a => w.queue ++ a.appended w := by
  have hleft : ∀ {α : Type} {x : Prog α}, LeavesQueue x → (x.run w).2.queue = w.queue ++ [] := by
    intro α x hx
    rw [hx w, List.append_nil]
  cases a with
  | fetch f => exact hleft ((fetch_leaves_queue f).bind fun _ => Program.Leaves.pure ())
  | clear lvl r => exact hleft (Program.Leaves.modify fun _ => rfl)
  | query q env => exact hleft (query_leaves aside_queue q)
  | descriptors c report env =>
      exact hleft ((descriptors_leaves_queue c report).bind fun _ => Program.Leaves.pure ())
  | request c req env => exact hleft (request_leaves_queue c req)
  | deliver event =>
      rw [Action.prog, Event.prog, Program.run_modify]
      dsimp only [Action.appended]
      cases hreg : w.registered event.slot with
      | none => exact (List.append_nil _).symm
      | some this => rfl
  | runItem env =>
      rw [Action.prog, runItem, Program.run_bind_ok (show Program.get.run w = (.ok w, w) from rfl)]
      dsimp only
      cases hlast : w.queue.getLast? with
      | none =>
          rw [List.getLast?_eq_none_iff] at hlast
          show w.queue = w.queue.dropLast
          rw [hlast, List.dropLast_nil]
      | some item => exact item_leaves_queue item { w with queue := w.queue.dropLast }

end Queue

/-! ## What a callback is about -/

/-- Storage has been taken at this address. -/
def World.Taken (w : World) : Level → Ptr → Prop
  | .adapter, p => p < w.adapters.size
  | .peripheral, p => p < w.peripherals.size
  | .service, p => p < w.services.size
  | .characteristic, p => p < w.characteristics.size

/-- The owners lead over a service with this UUID to this peripheral of the backend. -/
def LeadsTo (w : World) (owner : Option Ptr) (device : Nat) (service : BluetoothUUID) : Prop :=
  ∃ s S p P, owner = some s ∧ w.services.get? s = some S ∧ S.uuid = service ∧ S.owner = some p ∧
    w.peripherals.get? p = some P ∧ P.peripheral.backend = device

/-- The proxy at `p`, once it has been constructed, is the one that the callback
in a slot is about. -/
def Slot.Concerns (w : World) (p : Ptr) : Slot → Prop
  | .scanStart a | .scanStop a | .scanUpdated a | .scanFound a =>
      ∀ A, w.adapters.get? p = some A → A.adapter.backend = a
  | .connected d | .disconnected d => ∀ P, w.peripherals.get? p = some P → P.peripheral.backend = d
  | .notify d s u | .indicate d s u =>
      ∀ C, w.characteristics.get? p = some C → C.uuid = u ∧ LeadsTo w C.owner d s

/-- The same of a proxy that is still to be built from a value, for an owner. -/
def Slot.About (w : World) (v : Value) (owner : Option Ptr) : Slot → Prop
  | .scanStart a | .scanStop a | .scanUpdated a | .scanFound a =>
      ∀ value, v = .adapter value → value.backend = a
  | .connected d | .disconnected d => ∀ value, v = .peripheral value → value.backend = d
  | .notify d s u | .indicate d s u =>
      ∀ value, v = .characteristic value → value.uuid = u ∧ LeadsTo w owner d s

/-- Callbacks capture proxies that they are about; and those that have been
given an address, `G`, hold one that they are about. -/
def Addressed (G : Set (Slot × Ptr)) (w : World) : Prop :=
  ∀ slot p, (slot, p) ∈ G ∨ (slot, p) ∈ w.callbacks → w.Taken slot.level p ∧ slot.Concerns w p

section Addressed

variable {G : Set (Slot × Ptr)} {w w' : World} {slot : Slot} {p : Ptr} {v : Value}
  {owner : Option Ptr}

theorem LeadsTo.mono {device : Nat} {service : BluetoothUUID} (h : LeadsTo w owner device service)
    (hservices : ∀ s S, w.services.get? s = some S → w'.services.get? s = some S)
    (hperipherals : ∀ p P, w.peripherals.get? p = some P → w'.peripherals.get? p = some P) :
    LeadsTo w' owner device service := by
  obtain ⟨s, S, p, P, ho, hS, hu, hp, hP, hd⟩ := h
  exact ⟨s, S, p, P, ho, hservices s S hS, hu, hp, hperipherals p P hP, hd⟩

/-- No other proxy at this address, and no owner lost. -/
theorem Slot.Concerns.mono (h : slot.Concerns w p)
    (hA : ∀ A, w'.adapters.get? p = some A → w.adapters.get? p = some A)
    (hP : ∀ P, w'.peripherals.get? p = some P → w.peripherals.get? p = some P)
    (hC : ∀ C, w'.characteristics.get? p = some C →
      ∃ D, w.characteristics.get? p = some D ∧ C.uuid = D.uuid ∧ C.owner = D.owner)
    (hservices : ∀ s S, w.services.get? s = some S → w'.services.get? s = some S)
    (hperipherals : ∀ p P, w.peripherals.get? p = some P → w'.peripherals.get? p = some P) :
    slot.Concerns w' p := by
  cases slot with
  | scanStart a | scanStop a | scanUpdated a | scanFound a => exact fun A hget => h A (hA A hget)
  | connected d | disconnected d => exact fun P hget => h P (hP P hget)
  | notify d s u | indicate d s u =>
      intro C hget
      obtain ⟨D, hD, huuid, howner⟩ := hC C hget
      obtain ⟨hu, hleads⟩ := h D hD
      rw [huuid, howner]
      exact ⟨hu, hleads.mono hservices hperipherals⟩

theorem World.Taken.mono {lvl : Level} (h : w.Taken lvl p) (hA : w.adapters.size ≤ w'.adapters.size)
    (hP : w.peripherals.size ≤ w'.peripherals.size) (hS : w.services.size ≤ w'.services.size)
    (hC : w.characteristics.size ≤ w'.characteristics.size) : w'.Taken lvl p := by
  cases lvl with
  | adapter => exact Nat.lt_of_lt_of_le h hA
  | peripheral => exact Nat.lt_of_lt_of_le h hP
  | service => exact Nat.lt_of_lt_of_le h hS
  | characteristic => exact Nat.lt_of_lt_of_le h hC

theorem FreshAt.taken {lvl : Level} (h : FreshAt w lvl p) : w.Taken lvl p := by
  cases lvl with
  | adapter | peripheral | service | characteristic => exact h.1

/-- What is not there yet is not about anything else. -/
theorem FreshAt.concerns (h : FreshAt w slot.level p) : slot.Concerns w p := by
  cases slot with
  | scanStart | scanStop | scanUpdated | scanFound | connected | disconnected | notify | indicate =>
      intro x hx
      rw [h.2] at hx
      cases hx

theorem Addressed.init : Addressed ∅ World.init := by
  rintro slot p (h | h)
  · exact h.elim
  · cases h

/-- No more callbacks, no less storage, and no proxy replaced. -/
theorem Addressed.congr (h : Addressed G w) (hcallbacks : w'.callbacks ⊆ w.callbacks)
    (htaken : ∀ lvl p, w.Taken lvl p → w'.Taken lvl p)
    (hconcerns : ∀ slot p, (slot, p) ∈ G ∨ (slot, p) ∈ w.callbacks → slot.Concerns w p →
      slot.Concerns w' p) : Addressed G w' := by
  intro slot p hmem
  have hold : (slot, p) ∈ G ∨ (slot, p) ∈ w.callbacks := hmem.imp_right fun hcb => hcallbacks hcb
  obtain ⟨ht, hc⟩ := h slot p hold
  exact ⟨htaken _ _ ht, hconcerns slot p hold hc⟩

/-- A characteristic changes neither its UUID nor its owner. -/
theorem Slot.Concerns.update {this : Ptr} {f : Characteristic → Characteristic}
    (h : slot.Concerns w p) (hf : ∀ C, (f C).uuid = C.uuid ∧ (f C).owner = C.owner) :
    slot.Concerns (w.updateCharacteristic this f) p := by
  refine h.mono (fun _ => id) (fun _ => id) (fun C hC => ?_) (fun _ _ => id) fun _ _ => id
  rw [show (w.updateCharacteristic this f).characteristics = w.characteristics.update this f from rfl,
    Heap.get?_update] at hC
  split at hC
  · obtain ⟨D, hD, rfl⟩ := Option.map_eq_some_iff.1 hC
    exact ⟨D, hD, hf D⟩
  · exact ⟨C, hC, rfl, rfl⟩

theorem Addressed.update {this : Ptr} {f : Characteristic → Characteristic} (h : Addressed G w)
    (hf : ∀ C, (f C).uuid = C.uuid ∧ (f C).owner = C.owner) :
    Addressed G (w.updateCharacteristic this f) :=
  h.congr (List.Subset.refl _)
    (fun _ _ hp => hp.mono le_rfl le_rfl le_rfl (Nat.le_of_eq Heap.size_update.symm))
    fun _ _ _ hc => hc.update hf

theorem Addressed.stable : Stable (Addressed G) where
  newObject _ _ h := h
  query _ _ h := h
  log _ _ _ h := h
  record _ _ _ h := h.update fun _ => ⟨rfl, rfl⟩
  describe _ _ _ _ h := h.update fun _ => ⟨rfl, rfl⟩
  deliver _ _ _ _ h := h
  dequeue _ h := h

end Addressed

/-! ## Constructors -/

/-- Half-way through the constructor of the proxy at `this`: the callbacks it has
registered are about the value it is built from. -/
structure Registering (G : Set (Slot × Ptr)) (v : Value) (owner : Option Ptr) (this : Ptr) (w : World) :
    Prop where
  addressed : Addressed G w
  fresh : FreshAt w v.level this
  about : ∀ slot : Slot, slot.level = v.level → (slot, this) ∈ G ∨ (slot, this) ∈ w.callbacks →
    slot.About w v owner

section Constructors

variable {G : Set (Slot × Ptr)} {H : Hashes} {env : Env} {w w' : World} {v : Value}
  {owner : Option Ptr} {this : Ptr}

/-- Nobody has been given the address of new storage. -/
theorem Addressed.registering (h : Addressed G w) (hcallbacks : w'.callbacks = w.callbacks)
    (htaken : ∀ lvl p, w.Taken lvl p → w'.Taken lvl p)
    (hconcerns : ∀ (slot : Slot) p, slot.Concerns w p → slot.Concerns w' p)
    (hnew : ¬ w.Taken v.level this) (hfresh : FreshAt w' v.level this) :
    Registering G v owner this w' where
  addressed := h.congr (hcallbacks ▸ List.Subset.refl _) htaken fun slot p _ => hconcerns slot p
  fresh := hfresh
  about := by
    intro slot hlvl hmem
    rw [hcallbacks] at hmem
    exact absurd (hlvl ▸ (h slot this hmem).1) hnew

theorem Registering.inert (h : Registering G v owner this w) (n : ObjectId) (log : List BackendCall)
    (factories : Level → RegistryFactory) :
    Registering G v owner this { w with nextObject := n, log := log, factories := factories } :=
  ⟨h.addressed, h.fresh, h.about⟩

/-- A callback is registered that is about the value. -/
theorem Registering.register (h : Registering G v owner this w) {replaces : List Slot} {slot : Slot}
    (hlvl : slot.level = v.level) (habout : slot.About w v owner) :
    Registering G v owner this (w.register replaces slot this) := by
  have hcases : ∀ slot' p, (slot', p) ∈ G ∨ (slot', p) ∈ (w.register replaces slot this).callbacks →
      (slot' = slot ∧ p = this) ∨ (slot', p) ∈ G ∨ (slot', p) ∈ w.callbacks := by
    rintro slot' p (hG | hcb)
    · exact .inr (.inl hG)
    · rcases List.mem_cons.1 hcb with heq | hcb
      · exact .inl (Prod.mk.inj heq)
      · exact .inr (.inr (List.mem_of_mem_filter hcb))
  refine ⟨fun slot' p hmem => ?_, h.fresh, fun slot' hlvl' hmem => ?_⟩
  · rcases hcases slot' p hmem with ⟨rfl, rfl⟩ | hmem
    · exact ⟨(hlvl ▸ h.fresh : FreshAt w slot'.level p).taken,
        (hlvl ▸ h.fresh : FreshAt w slot'.level p).concerns⟩
    · exact h.addressed slot' p hmem
  · rcases hcases slot' this hmem with ⟨rfl, -⟩ | hmem
    · exact habout
    · exact h.about slot' hlvl' hmem

theorem newObject_registering :
    Program.Triple (Registering G v owner this) newObject (fun _ => Registering G v owner this)
      (Addressed G) :=
  newObject_triple fun w n hw => hw.inert n w.log w.factories

theorem backend_registering (site : Site) :
    Program.Triple (Registering G v owner this) (backend env site) (fun _ => Registering G v owner this)
      (Addressed G) :=
  backend_triple fun _ _ hw => hw.addressed

theorem ownRegistry_registering (lvl : Level) (hash : UInt64) :
    Program.Triple (Registering G v owner this) (ownRegistry lvl hash this)
      (fun _ => Registering G v owner this) (Addressed G) :=
  ownRegistry_triple (fun w _ hw _ => hw.inert _ w.log w.factories) fun w hw _ => hw.inert _ w.log _

theorem setCallback_registering (site : Site) (slot : Slot) (hlvl : slot.level = v.level)
    (habout : ∀ w, slot.About w v owner) :
    Program.Triple (Registering G v owner this) (setCallback env site slot this)
      (fun _ => Registering G v owner this) (Addressed G) :=
  setCallback_registers (fun _ _ hw => hw.addressed) fun w hw => hw.register hlvl (habout w)

/-- A characteristic subscribes up its chain of owners. -/
theorem subscribe_registering {value : SimpleBLE.Characteristic} (a : Access)
    (ha : a.characteristic = value.uuid) (hcb : a.callback = some this) :
    Program.Triple (Registering G (.characteristic value) owner this)
      (Service.viaPeripheral owner fun p s => Peripheral.access env p s a)
      (fun _ => Registering G (.characteristic value) owner this) (Addressed G) := by
  refine Program.Triple.bind (deref_triple fun _ hw => hw.addressed) fun S => ?_
  refine Program.Triple.bind (deref_triple fun _ hw => hw.1.addressed) fun P => ?_
  let R := fun w => Registering G (.characteristic value) owner this w ∧
    LeadsTo w owner P.peripheral.backend S.uuid
  refine Program.Triple.conseq (callBackend_triple (R := R) ?_ (fun _ _ _ hw => hw.1.addressed) ?_)
    (fun _ hw => hw) (fun _ _ hw => hw.1) fun _ hw => hw
  · rintro w ⟨⟨hw, s, hs, hS⟩, p, hp, hP⟩
    exact ⟨hw.inert w.nextObject _ w.factories, s, S, p, P, hs, hS, rfl, hp, hP, rfl⟩
  · -- the callback, kept or not, is about what the owners lead to
    rintro w slot this' hcb' hslot ⟨hw, hleads⟩
    obtain rfl := Option.some.inj (hcb.symm.trans hcb')
    rcases hslot with rfl | rfl
    · refine ⟨hw.register rfl fun value' hv => ?_, hleads⟩
      cases hv
      exact ⟨ha.symm, hleads⟩
    · refine ⟨hw.register rfl fun value' hv => ?_, hleads⟩
      cases hv
      exact ⟨ha.symm, hleads⟩

/-- The proxy is stored: what its callbacks are about is what has been built, and
the others are about what they were about. -/
theorem Registering.built (h : Registering G v owner this w) (hcallbacks : w'.callbacks = w.callbacks)
    (htaken : ∀ lvl p, w.Taken lvl p → w'.Taken lvl p)
    (hothers : ∀ (slot : Slot) p, slot.level = v.level → p ≠ this → slot.Concerns w p →
      slot.Concerns w' p)
    (hlevels : ∀ (slot : Slot) p, slot.level ≠ v.level → slot.Concerns w p → slot.Concerns w' p)
    (hthis : ∀ slot : Slot, slot.level = v.level → slot.About w v owner → slot.Concerns w' this) :
    Addressed G w' := by
  refine h.addressed.congr (hcallbacks ▸ List.Subset.refl _) htaken fun slot p hmem hc => ?_
  by_cases hlvl : slot.level = v.level
  · by_cases hp : p = this
    · subst hp
      exact hthis slot hlvl (h.about slot hlvl hmem)
    · exact hothers slot p hlvl hp hc
  · exact hlevels slot p hlvl hc

theorem size_le_alloc {α : Type} (h : Heap α) : h.size ≤ h.alloc.size := by
  rw [Heap.size_alloc]
  exact Nat.le_succ _

theorem Adapter.construct_addressed (value : SimpleBLE.Adapter) :
    Program.Triple (Addressed G) (Adapter.construct H env value) (fun _ => Addressed G)
      (Addressed G) := by
  refine Program.Triple.bind (R := Registering G (.adapter value) none) ?_ fun this => ?_
  · refine Program.Triple.act fun w hw => ?_
    refine hw.registering rfl (fun lvl p hp => hp.mono (size_le_alloc _) le_rfl le_rfl le_rfl)
      (fun slot p hc => ?_) (Nat.lt_irrefl w.adapters.size) (World.fresh_alloc w.adapters)
    exact hc.mono (fun A hA => Heap.get?_alloc.symm.trans hA) (fun _ => id)
      (fun C hC => ⟨C, hC, rfl, rfl⟩) (fun _ _ => id) fun _ _ => id
  refine Program.Triple.bind newObject_registering fun self => ?_
  refine Program.Triple.bind (backend_registering _) fun _ => ?_
  refine Program.Triple.bind (ownRegistry_registering _ _) fun registry => ?_
  have habout : ∀ w, (Slot.scanStart value.backend).About w (.adapter value) none := by
    rintro w value' ⟨⟩
    rfl
  refine Program.Triple.bind (setCallback_registering _ _ rfl habout) fun _ => ?_
  refine Program.Triple.bind (setCallback_registering _ _ rfl habout) fun _ => ?_
  refine Program.Triple.bind (setCallback_registering _ _ rfl habout) fun _ => ?_
  refine Program.Triple.bind (setCallback_registering _ _ rfl habout) fun _ => ?_
  refine Program.Triple.bind (R := fun _ => Addressed G) ?_ fun _ => Program.Triple.skip this
  refine Program.Triple.modify fun w hw => ?_
  have hget := fun p => Heap.get?_store (q := p) (a := (
    { self, adapter := value, addr := value.address, peripheralRegistry := registry } : Adapter))
    hw.fresh.1
  refine hw.built rfl (fun lvl p hp => hp.mono (Nat.le_of_eq Heap.size_store.symm) le_rfl le_rfl le_rfl)
    (fun slot p _ hp hc => ?_) (fun slot p hlvl hc => ?_) fun slot hlvl habout => ?_
  · exact hc.mono (fun A hA => by rwa [World.storeAdapter, hget, if_neg hp] at hA) (fun _ => id)
      (fun C hC => ⟨C, hC, rfl, rfl⟩) (fun _ _ => id) fun _ _ => id
  · cases slot with
    | scanStart | scanStop | scanUpdated | scanFound => exact absurd rfl hlvl
    | connected | disconnected | notify | indicate => exact hc
  · cases slot with
    | scanStart a | scanStop a | scanUpdated a | scanFound a =>
        intro A hA
        rw [World.storeAdapter, hget, if_pos rfl] at hA
        cases hA
        exact habout value rfl
    | connected | disconnected | notify | indicate => cases hlvl

theorem Peripheral.construct_addressed (value : SimpleBLE.Peripheral) (owner : Option Ptr) :
    Program.Triple (Addressed G) (Peripheral.construct H env value owner) (fun _ => Addressed G)
      (Addressed G) := by
  refine Program.Triple.bind (R := Registering G (.peripheral value) owner) ?_ fun this => ?_
  · refine Program.Triple.act fun w hw => ?_
    refine hw.registering rfl (fun lvl p hp => hp.mono le_rfl (size_le_alloc _) le_rfl le_rfl)
      (fun slot p hc => ?_) (Nat.lt_irrefl w.peripherals.size) (World.fresh_alloc w.peripherals)
    exact hc.mono (fun _ => id) (fun P hP => Heap.get?_alloc.symm.trans hP)
      (fun C hC => ⟨C, hC, rfl, rfl⟩) (fun _ _ => id) fun _ _ hP => Heap.get?_alloc.trans hP
  refine Program.Triple.bind (backend_registering _) fun _ => ?_
  refine Program.Triple.bind (backend_registering _) fun _ => ?_
  refine Program.Triple.bind (ownRegistry_registering _ _) fun registry => ?_
  refine Program.Triple.bind newObject_registering fun self => ?_
  have habout : ∀ w, (Slot.connected value.backend).About w (.peripheral value) owner := by
    rintro w value' ⟨⟩
    rfl
  refine Program.Triple.bind (setCallback_registering _ _ rfl habout) fun _ => ?_
  refine Program.Triple.bind (setCallback_registering _ _ rfl habout) fun _ => ?_
  refine Program.Triple.bind (R := fun _ => Addressed G) ?_ fun _ => Program.Triple.skip this
  refine Program.Triple.modify fun w hw => ?_
  have hget := fun p => Heap.get?_store (q := p) (a := (
    { owner, peripheral := value, addr := value.address, addrType := value.addressType,
      serviceRegistry := registry, self } : Peripheral)) hw.fresh.1
  refine hw.built rfl (fun lvl p hp => hp.mono le_rfl (Nat.le_of_eq Heap.size_store.symm) le_rfl le_rfl)
    (fun slot p _ hp hc => ?_) (fun slot p hlvl hc => ?_) fun slot hlvl habout => ?_
  · exact hc.mono (fun _ => id) (fun P hP => by rwa [World.storePeripheral, hget, if_neg hp] at hP)
      (fun C hC => ⟨C, hC, rfl, rfl⟩) (fun _ _ => id)
      fun _ _ => Heap.get?_store_of_some hw.fresh.1 hw.fresh.2
  · cases slot with
    | connected | disconnected => exact absurd rfl hlvl
    | scanStart | scanStop | scanUpdated | scanFound => exact hc
    | notify | indicate =>
        exact fun C hC => (hc C hC).imp_right fun hleads =>
          hleads.mono (fun _ _ => id) fun _ _ => Heap.get?_store_of_some hw.fresh.1 hw.fresh.2
  · cases slot with
    | connected d | disconnected d =>
        intro P hP
        rw [World.storePeripheral, hget, if_pos rfl] at hP
        cases hP
        exact habout value rfl
    | scanStart | scanStop | scanUpdated | scanFound | notify | indicate => cases hlvl

theorem Service.construct_addressed (value : SimpleBLE.Service) (owner : Option Ptr) :
    Program.Triple (Addressed G) (Service.construct H env value owner) (fun _ => Addressed G)
      (Addressed G) := by
  refine Program.Triple.bind (R := Registering G (.service value) owner) ?_ fun this => ?_
  · refine Program.Triple.act fun w hw => ?_
    refine hw.registering rfl (fun lvl p hp => hp.mono le_rfl le_rfl (size_le_alloc _) le_rfl)
      (fun slot p hc => ?_) (Nat.lt_irrefl w.services.size) (World.fresh_alloc w.services)
    exact hc.mono (fun _ => id) (fun _ => id) (fun C hC => ⟨C, hC, rfl, rfl⟩)
      (fun _ _ hS => Heap.get?_alloc.trans hS) fun _ _ => id
  refine Program.Triple.bind (ownRegistry_registering _ _) fun registry => ?_
  refine Program.Triple.bind (backend_registering _) fun _ => ?_
  refine Program.Triple.bind newObject_registering fun self => ?_
  refine Program.Triple.bind (R := fun _ => Addressed G) ?_ fun _ => Program.Triple.skip this
  refine Program.Triple.modify fun w hw => ?_
  -- no callback is about a service, but those of its characteristics look at it
  have hmono : ∀ (slot : Slot) p, slot.Concerns w p → slot.Concerns (w.storeService this
      { owner, service := value, characteristicRegistry := registry, uuid := value.uuid, self }) p :=
    fun slot p hc => hc.mono (fun _ => id) (fun _ => id) (fun C hC => ⟨C, hC, rfl, rfl⟩)
      (fun _ _ => Heap.get?_store_of_some hw.fresh.1 hw.fresh.2) fun _ _ => id
  refine hw.built rfl (fun lvl p hp => hp.mono le_rfl le_rfl (Nat.le_of_eq Heap.size_store.symm) le_rfl)
    (fun slot p _ _ => hmono slot p) (fun slot p _ => hmono slot p) fun slot hlvl _ => ?_
  cases slot <;> cases hlvl

theorem Characteristic.construct_addressed (value : SimpleBLE.Characteristic) (owner : Option Ptr) :
    Program.Triple (Addressed G) (Characteristic.construct env value owner) (fun _ => Addressed G)
      (Addressed G) := by
  refine Program.Triple.bind (R := Registering G (.characteristic value) owner) ?_ fun this => ?_
  · refine Program.Triple.act fun w hw => ?_
    refine hw.registering rfl (fun lvl p hp => hp.mono le_rfl le_rfl le_rfl (size_le_alloc _))
      (fun slot p hc => ?_) (Nat.lt_irrefl w.characteristics.size)
      (World.fresh_alloc w.characteristics)
    exact hc.mono (fun _ => id) (fun _ => id)
      (fun C hC => ⟨C, Heap.get?_alloc.symm.trans hC, rfl, rfl⟩) (fun _ _ => id) fun _ _ => id
  refine Program.Triple.bind (backend_registering _) fun _ => ?_
  refine Program.Triple.bind newObject_registering fun self => ?_
  refine Program.Triple.bind (backend_registering _) fun _ => ?_
  refine Program.Triple.bind (capabilityFlags_triple _ fun _ hw => hw.addressed) fun _ => ?_
  refine Program.Triple.bind (Program.Triple.when fun _ => subscribe_registering _ rfl rfl) fun _ => ?_
  refine Program.Triple.bind (Program.Triple.when fun _ => subscribe_registering _ rfl rfl) fun _ => ?_
  refine Program.Triple.bind (R := fun _ => Addressed G) ?_ fun _ => Program.Triple.skip this
  refine Program.Triple.modify fun w hw => ?_
  have hget := fun p => Heap.get?_store (q := p) (a := (
    { owner, characteristic := value, uuid := value.uuid, self } : Characteristic)) hw.fresh.1
  refine hw.built rfl (fun lvl p hp => hp.mono le_rfl le_rfl le_rfl (Nat.le_of_eq Heap.size_store.symm))
    (fun slot p _ hp hc => ?_) (fun slot p hlvl hc => ?_) fun slot hlvl habout => ?_
  · refine hc.mono (fun _ => id) (fun _ => id) (fun C hC => ⟨C, ?_, rfl, rfl⟩) (fun _ _ => id)
      fun _ _ => id
    rwa [World.storeCharacteristic, hget, if_neg hp] at hC
  · cases slot with
    | notify | indicate => exact absurd rfl hlvl
    | scanStart | scanStop | scanUpdated | scanFound | connected | disconnected => exact hc
  · cases slot with
    | notify d s u | indicate d s u =>
        intro C hC
        rw [World.storeCharacteristic, hget, if_pos rfl] at hC
        cases hC
        exact habout value rfl
    | scanStart | scanStop | scanUpdated | scanFound | connected | disconnected => cases hlvl

theorem Value.construct_addressed (v : Value) (owner : Option Ptr) :
    Program.Triple (Addressed G) (v.construct H env owner) (fun _ => Addressed G) (Addressed G) := by
  cases v with
  | adapter value => exact Adapter.construct_addressed value
  | peripheral value => exact Peripheral.construct_addressed value owner
  | service value => exact Service.construct_addressed value owner
  | characteristic value => exact Characteristic.construct_addressed value owner

end Constructors

/-! ## Delivery -/

section Delivery

variable {G : Set (Slot × Ptr)} {H : Hashes} {w : World}

theorem Addressed.action (h : Addressed G w) (a : Action) : Addressed G ((a.prog H).run w).2 := by
  refine Addressed.stable.action_keeps (K := fun _ _ => True) (fun f => ?_) (fun _ _ _ => trivial) h
    (fun _ _ _ => h) fun _ _ => trivial
  refine fetch_triple (J := fun _ _ => Addressed G) (fun w hw => hw.1) ?_ fun _ p w hw => hw
  exact fun _ _ R _ => (Value.construct_addressed f.value R.owner).conseq (fun w hw => hw.1.1)
    (fun _ _ hw => hw) fun _ hw => hw

/-- The item is the one for the event, and for a proxy that the event is about. -/
def ItemFor (w : World) (event : Event) (item : Item) : Prop :=
  item = event.item item.this ∧ event.slot.Concerns w item.this

/-- The event an action delivers. -/
def Action.delivered? : Action → Option Event
  | .deliver event => some event
  | _ => none

@[simp] theorem Event.this_item (event : Event) (this : Ptr) : (event.item this).this = this := by
  cases event <;> rfl

/-- The callbacks are about their proxies, and so are the waiting items, whose
storage is taken. -/
structure Delivered (as : List Action) (w : World) : Prop where
  addressed : Addressed ∅ w
  items : ∃ events : List Event, events.Sublist (as.filterMap Action.delivered?) ∧
    List.Forall₂ (fun event item => item = event.item item.this ∧
      w.Taken event.slot.level item.this ∧ event.slot.Concerns w item.this) events w.queue

/-- Whoever holds an address that a callback was about keeps one that it is about. -/
theorem Addressed.carry (h : Addressed ∅ w) (a : Action) {slot : Slot} {p : Ptr}
    (hp : w.Taken slot.level p ∧ slot.Concerns w p) :
    ((a.prog H).run w).2.Taken slot.level p ∧ slot.Concerns ((a.prog H).run w).2 p := by
  refine Addressed.action (G := {(slot, p)}) ?_ a slot p (.inl rfl)
  rintro slot' q (hmem | hcb)
  · cases hmem
    exact hp
  · exact h slot' q (.inr hcb)

theorem Delivered.action {as : List Action} (h : Delivered as w) (a : Action) :
    Delivered (as ++ [a]) ((a.prog H).run w).2 := by
  refine ⟨h.addressed.action a, ?_⟩
  obtain ⟨events, hsub, hitems⟩ := h.items
  have hkept : List.Forall₂ (fun event item => item = event.item item.this ∧
      ((a.prog H).run w).2.Taken event.slot.level item.this ∧
        event.slot.Concerns ((a.prog H).run w).2 item.this) events w.queue :=
    hitems.imp fun event item hitem => hitem.imp_right (h.addressed.carry a)
  have hmore : events.Sublist ((as ++ [a]).filterMap Action.delivered?) := by
    rw [List.filterMap_append]
    exact hsub.trans (List.sublist_append_left _ _)
  rw [action_queue]
  cases a with
  | runItem env =>
      refine ⟨events.dropLast, (List.dropLast_sublist _).trans hmore, ?_⟩
      rw [List.dropLast_eq_take, List.dropLast_eq_take, hitems.length_eq]
      exact List.forall₂_take _ hkept
  | deliver event =>
      cases hreg : w.registered event.slot with
      | none =>
          refine ⟨events, hmore, ?_⟩
          simpa [Action.appended, hreg] using hkept
      | some this =>
          have hthis := h.addressed.carry (H := H) (.deliver event)
            (h.addressed event.slot this (.inr (World.mem_of_registered hreg)))
          refine ⟨events ++ [event], ?_, ?_⟩
          · rw [List.filterMap_append]
            exact hsub.append (List.Sublist.refl _)
          · simp only [Action.appended, hreg, Option.map_some, Option.toList_some]
            refine List.rel_append hkept (.cons ⟨?_, ?_⟩ .nil)
            · rw [Event.this_item]
            · rw [Event.this_item]
              exact hthis
  | fetch f => exact ⟨events, hmore, by simpa [Action.appended] using hkept⟩
  | clear lvl r => exact ⟨events, hmore, by simpa [Action.appended] using hkept⟩
  | query q env => exact ⟨events, hmore, by simpa [Action.appended] using hkept⟩
  | descriptors c report env => exact ⟨events, hmore, by simpa [Action.appended] using hkept⟩
  | request c req env => exact ⟨events, hmore, by simpa [Action.appended] using hkept⟩

theorem delivered_run {as : List Action} (h : (bindingsSystem H).run as = some w) :
    Delivered as w := by
  induction as using List.reverseRecOn generalizing w with
  | nil =>
      cases h
      exact ⟨Addressed.init, [], List.nil_sublist _, .nil⟩
  | append_singleton as a ih =>
      rw [System.run, System.runFrom_concat] at h
      obtain ⟨v, hv, hstep⟩ := Option.bind_eq_some_iff.1 h
      cases hstep
      exact (ih hv).action a

/-- The item is the one for the event, and the proxy it captured is there, held
by a registry, and one that the event is about. -/
structure ItemReaches (w : World) (event : Event) (item : Item) : Prop where
  pushed : item = event.item item.this
  held : Held w event.slot.level item.this
  there : ∃ owner, Constructed w event.slot.level item.this owner
  concerns : event.slot.Concerns w item.this

/-- What waits, in a world where no pointer dangles, captured a proxy that is there. -/
theorem Safe.reaches (h : Safe w) {event : Event} {item : Item} (hmem : item ∈ w.queue)
    (hfor : ItemFor w event item) : ItemReaches w event item := by
  have hlevel : item.level = event.slot.level := by
    rw [hfor.1]
    exact (event.item_level _).1
  have hheld : Held w event.slot.level item.this := by
    rcases h.outside _ _ (.item item hmem hlevel rfl) with hheld | hnone
    · exact hheld
    · cases hnone
  obtain ⟨r, R, key, hR, hkey⟩ := hheld
  exact ⟨hfor.1, ⟨r, R, key, hR, hkey⟩, ⟨R.owner, h.entries _ r R key _ hR hkey⟩, hfor.2⟩

/-- **End-to-end delivery.**  In a run in which no constructor fails after it has
left a pointer and no proxy is dropped that is pointed to, the items that wait are
for events that have been delivered, in their order and each for one of them, and
the proxy an item captured is there and one that its event is about. -/
theorem inbound_routing (H : Hashes) {as : List Action} {w : World}
    (hok : (bindingsSystem H).Meets (Careful H) World.init as)
    (h : (bindingsSystem H).run as = some w) :
    ∃ events : List Event, events.Sublist (as.filterMap Action.delivered?) ∧
      List.Forall₂ (ItemReaches w) events w.queue := by
  obtain ⟨events, hsub, hitems⟩ := (delivered_run h).items
  have hsafe := safe_of_careful hok h
  refine ⟨events, hsub, List.forall₂_iff_get.2 ⟨hitems.length_eq, fun i hi hi' => ?_⟩⟩
  have hitem := (List.forall₂_iff_get.1 hitems).2 i hi hi'
  exact hsafe.reaches (List.get_mem _ _) ⟨hitem.1, hitem.2.2⟩

/-- A peripheral and its battery level are found, the level changes twice, and a
peripheral that nobody has asked for connects. -/
def levelChanges : List Action :=
  [.fetch ⟨0, .adapter ⟨0, "00:00:00:00:00:01"⟩, {}⟩,
   .fetch ⟨0, .peripheral ⟨7, "00:00:00:00:00:0a", .publicAddress⟩, {}⟩,
   .fetch ⟨0, .service ⟨"180f", []⟩, {}⟩,
   .fetch ⟨0, .characteristic ⟨"2a19", ["read", "notify"]⟩, {}⟩,
   .deliver (.notify 7 "180f" "2a19" [80]), .deliver (.connected 8), .deliver (.connected 7),
   .deliver (.notify 7 "180f" "2a19" [79]), .runItem {}]

theorem inbound_routing_levelChanges :
    ∃ w, (bindingsSystem sampleHashes).run levelChanges = some w ∧
      w.queue = [.fireOnNotify 0 [80], .connected 0] ∧
        ∃ events : List Event,
          events.Sublist (levelChanges.filterMap Action.delivered?) ∧
            List.Forall₂ (ItemReaches w) events w.queue := by
  have hqueue : ((bindingsSystem sampleHashes).run levelChanges).map (·.queue) =
      some [.fireOnNotify 0 [80], .connected 0] := by decide +kernel
  obtain ⟨w, hw, hitems⟩ := Option.map_eq_some_iff.1 hqueue
  exact ⟨w, hw, hitems, inbound_routing sampleHashes (by decide +kernel) hw⟩

end Delivery

end RuBLE
