import Mathlib
import RuBLE.Bindings.Rules

/-!
# Where requests go

A request made through a characteristic is passed up by raw owner pointers:
characteristic, service, peripheral, backend.

* `Routed` — the invariant: each peripheral and each service has the registry
  it owns, and what is in a registry belongs to the registry's owner.
* `Routed.fetch` — a fetch keeps it, as long as a peripheral or service under
  construction does not find a registry under its hash.
* `routing` — **end-to-end routing**: in a run without such a clash, whatever is
  requested through an entry of an entry of a peripheral reaches the backend of
  that peripheral, with these two UUIDs.
* `not_routing_twoBatteries` — two peripherals with one standard service clash.
-/

namespace RuBLE

open Transition

/-! ## Entries and targets -/

/-- The entry `characteristic` of the characteristics of the entry `service` of
the services of a peripheral. -/
def Peripheral.characteristicAt (P : Peripheral) (w : World)
    (service characteristic : BluetoothUUID) : Option Ptr := do
  let R ← w.registryAt? .service P.serviceRegistry
  let s ← R.entries[service]?
  let S ← w.services.get? s
  let R' ← w.registryAt? .characteristic S.characteristicRegistry
  R'.entries[characteristic]?

/-- What a request through the entry `characteristic` of `service` is to send to
`device`: one call, unless a read is answered from the tracked value or there is
no such descriptor. -/
def Request.expected (C : Characteristic) (device : Nat) (service characteristic : BluetoothUUID) :
    Request → List BackendCall
  | .read force =>
      match C.cached force with
      | some _ => []
      | none => [{ op := .read, characteristic, device, service }]
  | .writeRequest data => [{ op := .writeRequest, characteristic, data, device, service }]
  | .writeCommand data => [{ op := .writeCommand, characteristic, data, device, service }]
  | .readDescriptor d =>
      match C.descriptors.bind (·[d]?) with
      | some _ => [{ op := .read, characteristic, descriptor := some d, device, service }]
      | none => []
  | .writeDescriptor d data =>
      match C.descriptors.bind (·[d]?) with
      | some _ => [{ op := .write, characteristic, descriptor := some d, data, device, service }]
      | none => []

/-- A callback of `c` has been handed over by a call of this kind. -/
def Subscribed (log : List BackendCall) (c : Ptr) (op : BackendOp) : Prop :=
  ∃ call ∈ log, call.callback = some c ∧ call.op = op

/-- A characteristic that can notify or indicate has subscribed. -/
structure Subscriptions (log : List BackendCall) (c : Ptr) (C : Characteristic) : Prop where
  notify : "notify" ∈ C.characteristic.capabilities → Subscribed log c .notify
  indicate : "indicate" ∈ C.characteristic.capabilities → Subscribed log c .indicate

/-- Requests through `c`, and the callbacks registered for it, go to `device`,
with these two UUIDs in this order, and nowhere else. -/
structure RoutedTo (w : World) (c : Ptr) (device : Nat) (service characteristic : BluetoothUUID) :
    Prop where
  requests : ∃ C, w.characteristics.get? c = some C ∧ Subscriptions w.log c C ∧
    ∀ (req : Request) (env : Env),
      ((req.prog env c).run w).2.log = w.log ++ req.expected C device service characteristic
  registrations : ∀ call ∈ w.log, call.callback = some c →
    call.device = device ∧ call.service = service ∧ call.characteristic = characteristic ∧
      call.descriptor = none

/-- Every characteristic found under a peripheral is routed to that peripheral. -/
def Routes (w : World) : Prop :=
  ∀ p P service characteristic c, w.peripherals.get? p = some P →
    P.characteristicAt w service characteristic = some c →
    RoutedTo w c P.peripheral.backend service characteristic

/-! ## The invariant -/

/-- A call that registered a callback went up this chain of owners. -/
def Chain (w : World) (owner : Option Ptr) (uuid : BluetoothUUID) (call : BackendCall) : Prop :=
  ∃ s S p P, owner = some s ∧ w.services.get? s = some S ∧ S.owner = some p ∧
    w.peripherals.get? p = some P ∧ call.device = P.peripheral.backend ∧ call.service = S.uuid ∧
    call.characteristic = uuid ∧ call.descriptor = none

/-- Registries are their owners' own, and hold what belongs to their owners. -/
structure Routed (w : World) : Prop where
  ownServices : ∀ p P, w.peripherals.get? p = some P →
    w.OwnedBy .service P.serviceRegistry (some p)
  services : ∀ r R key s, w.registryAt? .service r = some R → R.entries[key]? = some s →
    ∃ S, w.services.get? s = some S ∧ S.owner = R.owner ∧ S.uuid = key
  ownCharacteristics : ∀ s S, w.services.get? s = some S →
    w.OwnedBy .characteristic S.characteristicRegistry (some s)
  characteristics : ∀ r R key c, w.registryAt? .characteristic r = some R →
    R.entries[key]? = some c →
    ∃ C, w.characteristics.get? c = some C ∧ C.owner = R.owner ∧ C.uuid = key
  descriptors : ∀ c C ds key (d : Descriptor), w.characteristics.get? c = some C →
    C.descriptors = some ds → ds[key]? = some d → d.owner = c ∧ d.uuid = key
  /-- Callbacks belong to characteristics whose construction has begun, and were
  registered up their chain of owners. -/
  registrations : ∀ call ∈ w.log, ∀ c, call.callback = some c →
    c < w.characteristics.size ∧
      ∀ C, w.characteristics.get? c = some C → Chain w C.owner C.uuid call
  subscriptions : ∀ c C, w.characteristics.get? c = some C → Subscriptions w.log c C

theorem Subscriptions.mono {log log' : List BackendCall} {c : Ptr} {C : Characteristic}
    (h : Subscriptions log c C) (hlog : log ⊆ log') : Subscriptions log' c C where
  notify := fun hcap => by
    obtain ⟨call, hcall, hrest⟩ := h.notify hcap
    exact ⟨call, hlog hcall, hrest⟩
  indicate := fun hcap => by
    obtain ⟨call, hcall, hrest⟩ := h.indicate hcap
    exact ⟨call, hlog hcall, hrest⟩

theorem Routed.init : Routed World.init where
  ownServices := by intro p P h; cases h
  services := by intro r R key s h; cases h
  ownCharacteristics := by intro s S h; cases h
  characteristics := by intro r R key c h; cases h
  descriptors := by intro c C ds key d h; cases h
  registrations := by intro call h; cases h
  subscriptions := by intro c C h; cases h

/-- Two worlds that agree on what `Routed` looks at. -/
theorem Routed.congr {w w' : World} (h : Routed w)
    (hp : ∀ p, w'.peripherals.get? p = w.peripherals.get? p)
    (hs : ∀ s, w'.services.get? s = w.services.get? s)
    (hc : ∀ c, w'.characteristics.get? c = w.characteristics.get? c)
    (hsize : w.characteristics.size ≤ w'.characteristics.size)
    (hservice : ∀ r, w'.registryAt? .service r = w.registryAt? .service r)
    (hcharacteristic : ∀ r, w'.registryAt? .characteristic r = w.registryAt? .characteristic r)
    (hlog : w'.log = w.log) : Routed w' where
  ownServices := by simpa only [World.OwnedBy, hp, hservice] using h.ownServices
  services := by simpa only [hs, hservice] using h.services
  ownCharacteristics := by simpa only [World.OwnedBy, hs, hcharacteristic] using h.ownCharacteristics
  characteristics := by simpa only [hc, hcharacteristic] using h.characteristics
  descriptors := by simpa only [hc] using h.descriptors
  registrations := by
    intro call hcall c hcb
    rw [hlog] at hcall
    obtain ⟨hlt, hchain⟩ := h.registrations call hcall c hcb
    refine ⟨Nat.lt_of_lt_of_le hlt hsize, fun C hC => ?_⟩
    rw [hc] at hC
    simpa only [Chain, hp, hs] using hchain C hC
  subscriptions := by simpa only [hc, hlog] using h.subscriptions

/-! ## What keeps the invariant -/

section Keeps

variable {w : World}

theorem Routed.inert (h : Routed w) (n : ObjectId) (cbs : List (Slot × Ptr)) :
    Routed { w with nextObject := n, callbacks := cbs } :=
  h.congr (fun _ => rfl) (fun _ => rfl) (fun _ => rfl) (Nat.le_refl _) (fun _ => rfl)
    (fun _ => rfl) rfl

theorem Routed.createRegistry (h : Routed w) (lvl : Level) (hash : UInt64) (owner : Ptr) :
    Routed (w.createRegistry lvl hash owner) where
  ownServices := by
    intro p P hP
    obtain ⟨R, hR, ho⟩ := h.ownServices p P hP
    exact ⟨R, World.registryAt?_createRegistry_of_some hR, ho⟩
  services := by
    intro r R key s hR hs
    rw [World.registryAt?_createRegistry] at hR
    split at hR
    · cases hR
      simp at hs
    · exact h.services r R key s hR hs
  ownCharacteristics := by
    intro s S hS
    obtain ⟨R, hR, ho⟩ := h.ownCharacteristics s S hS
    exact ⟨R, World.registryAt?_createRegistry_of_some hR, ho⟩
  characteristics := by
    intro r R key c hR hc
    rw [World.registryAt?_createRegistry] at hR
    split at hR
    · cases hR
      simp at hc
    · exact h.characteristics r R key c hR hc
  descriptors := h.descriptors
  registrations := h.registrations
  subscriptions := h.subscriptions

/-- A registry changes its entries, and the new ones belong to its owner. -/
theorem Routed.modifyRegistry (h : Routed w) {lvl : Level} {r : RegistryPtr}
    {f : Registry → Registry} (howner : ∀ R, (f R).owner = R.owner)
    (hservice : lvl = .service → ∀ R key s, w.registryAt? .service r = some R →
      (f R).entries[key]? = some s →
      ∃ S, w.services.get? s = some S ∧ S.owner = R.owner ∧ S.uuid = key)
    (hcharacteristic : lvl = .characteristic → ∀ R key c, w.registryAt? .characteristic r = some R →
      (f R).entries[key]? = some c →
      ∃ C, w.characteristics.get? c = some C ∧ C.owner = R.owner ∧ C.uuid = key) :
    Routed (w.modifyRegistry lvl r f) := by
  have hkeep : ∀ lvl' r' R, w.registryAt? lvl' r' = some R →
      ∃ R', (w.modifyRegistry lvl r f).registryAt? lvl' r' = some R' ∧ R'.owner = R.owner := by
    intro lvl' r' R hR
    rw [World.registryAt?_modifyRegistry, hR]
    split
    · exact ⟨f R, rfl, howner R⟩
    · exact ⟨R, rfl, rfl⟩
  refine ⟨?_, ?_, ?_, ?_, h.descriptors, h.registrations, h.subscriptions⟩
  · intro p P hP
    obtain ⟨R, hR, ho⟩ := h.ownServices p P hP
    obtain ⟨R', hR', ho'⟩ := hkeep _ _ R hR
    exact ⟨R', hR', ho'.trans ho⟩
  · intro r' R key s hR hs
    rw [World.registryAt?_modifyRegistry] at hR
    split at hR
    · next heq =>
        obtain ⟨R₀, hR₀, rfl⟩ := Option.map_eq_some_iff.1 hR
        rw [heq.2] at hR₀
        obtain ⟨S, hS, ho, hu⟩ := hservice heq.1.symm R₀ key s hR₀ hs
        exact ⟨S, hS, ho.trans (howner R₀).symm, hu⟩
    · exact h.services r' R key s hR hs
  · intro s S hS
    obtain ⟨R, hR, ho⟩ := h.ownCharacteristics s S hS
    obtain ⟨R', hR', ho'⟩ := hkeep _ _ R hR
    exact ⟨R', hR', ho'.trans ho⟩
  · intro r' R key c hR hc
    rw [World.registryAt?_modifyRegistry] at hR
    split at hR
    · next heq =>
        obtain ⟨R₀, hR₀, rfl⟩ := Option.map_eq_some_iff.1 hR
        rw [heq.2] at hR₀
        obtain ⟨C, hC, ho, hu⟩ := hcharacteristic heq.1.symm R₀ key c hR₀ hc
        exact ⟨C, hC, ho.trans (howner R₀).symm, hu⟩
    · exact h.characteristics r' R key c hR hc

theorem Routed.clear (h : Routed w) (lvl : Level) (r : RegistryPtr) :
    Routed (w.modifyRegistry lvl r fun R => { R with entries := ∅ }) :=
  h.modifyRegistry (fun _ => rfl) (fun _ _ _ _ _ hs => by simp at hs)
    (fun _ _ _ _ _ hc => by simp at hc)

theorem Routed.storePeripheral (h : Routed w) {this : Ptr} {P : Peripheral}
    (hfresh : World.Fresh w.peripherals this)
    (hown : w.OwnedBy .service P.serviceRegistry (some this)) :
    Routed (w.storePeripheral this P) where
  ownServices := by
    intro p Q hQ
    rw [show (w.storePeripheral this P).peripherals = w.peripherals.store this P from rfl,
      Heap.get?_store hfresh.1] at hQ
    split at hQ
    · next heq =>
        cases hQ
        rw [heq]
        exact hown
    · exact h.ownServices p Q hQ
  services := h.services
  ownCharacteristics := h.ownCharacteristics
  characteristics := h.characteristics
  descriptors := h.descriptors
  registrations := by
    intro call hcall c hcb
    refine ⟨(h.registrations call hcall c hcb).1, fun C hC => ?_⟩
    obtain ⟨s, S, p, Q, hs, hS, hp, hQ, hcall⟩ := (h.registrations call hcall c hcb).2 C hC
    exact ⟨s, S, p, Q, hs, hS, hp, Heap.get?_store_of_some hfresh.1 hfresh.2 hQ, hcall⟩
  subscriptions := h.subscriptions

theorem Routed.storeService (h : Routed w) {this : Ptr} {S : Service}
    (hfresh : World.Fresh w.services this)
    (hown : w.OwnedBy .characteristic S.characteristicRegistry (some this)) :
    Routed (w.storeService this S) where
  ownServices := h.ownServices
  services := by
    intro r R' key s hR' hs
    obtain ⟨T, hT, hrest⟩ := h.services r R' key s hR' hs
    exact ⟨T, Heap.get?_store_of_some hfresh.1 hfresh.2 hT, hrest⟩
  ownCharacteristics := by
    intro s T hT
    rw [show (w.storeService this S).services = w.services.store this S from rfl,
      Heap.get?_store hfresh.1] at hT
    split at hT
    · next heq =>
        cases hT
        rw [heq]
        exact hown
    · exact h.ownCharacteristics s T hT
  characteristics := h.characteristics
  descriptors := h.descriptors
  registrations := by
    intro call hcall c hcb
    refine ⟨(h.registrations call hcall c hcb).1, fun C hC => ?_⟩
    obtain ⟨s, T, p, Q, hs, hT, hrest⟩ := (h.registrations call hcall c hcb).2 C hC
    exact ⟨s, T, p, Q, hs, Heap.get?_store_of_some hfresh.1 hfresh.2 hT, hrest⟩
  subscriptions := h.subscriptions

theorem Routed.storeCharacteristic (h : Routed w) {this : Ptr} {C : Characteristic}
    (hfresh : World.Fresh w.characteristics this) (hd : C.descriptors = none)
    (hchain : ∀ call ∈ w.log, call.callback = some this → Chain w C.owner C.uuid call)
    (hsub : Subscriptions w.log this C) : Routed (w.storeCharacteristic this C) := by
  have hstore : (w.storeCharacteristic this C).characteristics = w.characteristics.store this C := rfl
  refine ⟨h.ownServices, h.services, h.ownCharacteristics, ?_, ?_, ?_, ?_⟩
  · intro r R key c hR hc
    obtain ⟨D, hD, hrest⟩ := h.characteristics r R key c hR hc
    exact ⟨D, Heap.get?_store_of_some hfresh.1 hfresh.2 hD, hrest⟩
  · intro c D ds key d hD hds hd'
    rw [hstore, Heap.get?_store hfresh.1] at hD
    split at hD
    · cases hD
      rw [hd] at hds
      cases hds
    · exact h.descriptors c D ds key d hD hds hd'
  · intro call hcall c hcb
    obtain ⟨hc, hold⟩ := h.registrations call hcall c hcb
    refine ⟨by rw [hstore, Heap.size_store]; exact hc, fun D hD => ?_⟩
    rw [hstore, Heap.get?_store hfresh.1] at hD
    split at hD
    · next heq =>
        cases hD
        exact hchain call hcall (heq ▸ hcb)
    · exact hold D hD
  · intro c D hD
    rw [hstore, Heap.get?_store hfresh.1] at hD
    split at hD
    · next heq =>
        cases hD
        rw [heq]
        exact hsub
    · exact h.subscriptions c D hD

/-- A characteristic changes members that no request looks at on its way up. -/
theorem Routed.updateCharacteristic (h : Routed w) {this : Ptr} {f : Characteristic → Characteristic}
    (howner : ∀ C, (f C).owner = C.owner) (huuid : ∀ C, (f C).uuid = C.uuid)
    (hhandle : ∀ C, (f C).characteristic = C.characteristic)
    (hd : ∀ C ds key (d : Descriptor), w.characteristics.get? this = some C →
      (f C).descriptors = some ds → ds[key]? = some d → d.owner = this ∧ d.uuid = key) :
    Routed (w.updateCharacteristic this f) := by
  have hupdate : (w.updateCharacteristic this f).characteristics = w.characteristics.update this f := rfl
  refine ⟨h.ownServices, h.services, h.ownCharacteristics, ?_, ?_, ?_, ?_⟩
  · intro r R key c hR hc
    obtain ⟨C, hC, ho, hu⟩ := h.characteristics r R key c hR hc
    rw [hupdate, Heap.get?_update, hC]
    split
    · exact ⟨f C, rfl, (howner C).trans ho, (huuid C).trans hu⟩
    · exact ⟨C, rfl, ho, hu⟩
  · intro c D ds key d hD hds hd'
    rw [hupdate, Heap.get?_update] at hD
    split at hD
    · next heq =>
        obtain ⟨C, hC, rfl⟩ := Option.map_eq_some_iff.1 hD
        rw [heq] at hC ⊢
        exact hd C ds key d hC hds hd'
    · exact h.descriptors c D ds key d hD hds hd'
  · intro call hcall c hcb
    obtain ⟨hc, hold⟩ := h.registrations call hcall c hcb
    refine ⟨by rw [hupdate, Heap.size_update]; exact hc, fun D hD => ?_⟩
    rw [hupdate, Heap.get?_update] at hD
    split at hD
    · obtain ⟨C, hC, rfl⟩ := Option.map_eq_some_iff.1 hD
      rw [howner, huuid]
      exact hold C hC
    · exact hold D hD
  · intro c D hD
    rw [hupdate, Heap.get?_update] at hD
    split at hD
    · obtain ⟨C, hC, rfl⟩ := Option.map_eq_some_iff.1 hD
      obtain ⟨hn, hi⟩ := h.subscriptions c C hC
      exact ⟨by rwa [hhandle], by rwa [hhandle]⟩
    · exact h.subscriptions c D hD

/-- A call hands over no callback, or one of a characteristic under construction. -/
theorem Routed.logCall (h : Routed w) {call : BackendCall}
    (hcb : ∀ c, call.callback = some c →
      c < w.characteristics.size ∧ w.characteristics.get? c = none) :
    Routed { w with log := w.log ++ [call] } where
  ownServices := h.ownServices
  services := h.services
  ownCharacteristics := h.ownCharacteristics
  characteristics := h.characteristics
  descriptors := h.descriptors
  registrations := by
    intro call' hcall c hc
    rcases List.mem_append.1 hcall with hcall | hcall
    · exact h.registrations call' hcall c hc
    · obtain rfl := List.mem_singleton.1 hcall
      obtain ⟨hlt, hnone⟩ := hcb c hc
      refine ⟨hlt, fun C hC => ?_⟩
      rw [show ({ w with log := w.log ++ [call'] } : World).characteristics = w.characteristics from rfl,
        hnone] at hC
      cases hC
  subscriptions := fun c C hC => (h.subscriptions c C hC).mono (List.subset_append_left _ _)

/-- Storage is taken. -/
theorem Routed.alloc (h : Routed w) :
    Routed { w with adapters := w.adapters.alloc } ∧
    Routed { w with peripherals := w.peripherals.alloc } ∧
    Routed { w with services := w.services.alloc } ∧
    Routed { w with characteristics := w.characteristics.alloc } := by
  refine ⟨?_, ?_, ?_, ?_⟩
  · exact h.congr (fun _ => rfl) (fun _ => rfl) (fun _ => rfl) (Nat.le_refl _) (fun _ => rfl)
      (fun _ => rfl) rfl
  · exact h.congr (fun _ => Heap.get?_alloc) (fun _ => rfl) (fun _ => rfl) (Nat.le_refl _)
      (fun _ => rfl) (fun _ => rfl) rfl
  · exact h.congr (fun _ => rfl) (fun _ => Heap.get?_alloc) (fun _ => rfl) (Nat.le_refl _)
      (fun _ => rfl) (fun _ => rfl) rfl
  · exact h.congr (fun _ => rfl) (fun _ => rfl) (fun _ => Heap.get?_alloc)
      (by rw [Heap.size_alloc]; exact Nat.le_succ _) (fun _ => rfl) (fun _ => rfl) rfl

theorem Routed.stable : Stable Routed where
  newObject := fun w n h => h.inert n w.callbacks
  query := fun w qs h => h.congr (fun _ => rfl) (fun _ => rfl) (fun _ => rfl) (Nat.le_refl _)
    (fun _ => rfl) (fun _ => rfl) rfl
  log := fun w call hcb h => h.logCall fun c hc => by rw [hcb] at hc; cases hc
  record := fun w this data h =>
    h.updateCharacteristic (fun _ => rfl) (fun _ => rfl) (fun _ => rfl) fun C ds key d hC =>
      h.descriptors this C ds key d hC
  describe := fun w this ds hds h =>
    h.updateCharacteristic (fun _ => rfl) (fun _ => rfl) (fun _ => rfl) fun C ds' key d hC hds' hd => by
      cases hds'
      exact hds key d hd
  deliver := fun w event this _ h => h.congr (fun _ => rfl) (fun _ => rfl) (fun _ => rfl)
    (Nat.le_refl _) (fun _ => rfl) (fun _ => rfl) rfl
  dequeue := fun w h => h.congr (fun _ => rfl) (fun _ => rfl) (fun _ => rfl) (Nat.le_refl _)
    (fun _ => rfl) (fun _ => rfl) rfl

end Keeps

/-! ## Constructors -/

section Constructors

variable (H : Hashes) (env : Env)

theorem Adapter.construct_routed (value : SimpleBLE.Adapter) :
    Program.Triple Routed (Adapter.construct H env value) (fun _ => Routed) Routed := by
  refine Program.Triple.bind (R := fun _ => Routed) ?_ fun this => ?_
  · exact Program.Triple.act fun w hw => hw.alloc.1
  refine Program.Triple.bind (newObject_triple fun w n hw => hw.inert n _) fun self => ?_
  refine Program.Triple.bind (backend_triple fun _ _ hw => hw) fun _ => ?_
  refine Program.Triple.bind (R := fun _ => Routed) ?_ fun registry => ?_
  · refine ownRegistry_triple (fun w r hw _ => hw.inert _ _) fun w hw _ => ?_
    exact hw.createRegistry _ _ _
  have hset : ∀ site slot, Program.Triple Routed (setCallback env site slot this)
      (fun _ => Routed) Routed := fun site slot =>
    setCallback_triple (fun _ hw => hw) fun w cbs hw => hw.inert _ cbs
  refine Program.Triple.bind (hset _ _) fun _ => ?_
  refine Program.Triple.bind (hset _ _) fun _ => ?_
  refine Program.Triple.bind (hset _ _) fun _ => ?_
  refine Program.Triple.bind (hset _ _) fun _ => ?_
  refine Program.Triple.bind (R := fun _ => Routed) ?_ fun _ => Program.Triple.skip this
  refine Program.Triple.modify fun w hw => ?_
  exact hw.congr (fun _ => rfl) (fun _ => rfl) (fun _ => rfl) (Nat.le_refl _) (fun _ => rfl)
    (fun _ => rfl) rfl

/-- A peripheral whose hash is not in the map gets a registry of its own. -/
theorem Peripheral.construct_routed (value : SimpleBLE.Peripheral) (owner : Option Ptr) :
    Program.Triple
      (fun w => Routed w ∧ (w.factories .service).index[hashPeripheral H value]? = none)
      (Peripheral.construct H env value owner) (fun _ => Routed) Routed := by
  refine Program.Triple.bind (R := fun this w => Routed w ∧ World.Fresh w.peripherals this ∧
    (w.factories .service).index[hashPeripheral H value]? = none) ?_ fun this => ?_
  · refine Program.Triple.act fun w hw => ?_
    exact ⟨hw.1.alloc.2.1, World.fresh_alloc w.peripherals, hw.2⟩
  refine Program.Triple.bind (backend_triple fun _ w hw => hw.1) fun _ => ?_
  refine Program.Triple.bind (backend_triple fun _ w hw => hw.1) fun _ => ?_
  refine Program.Triple.bind (R := fun r w => Routed w ∧ World.Fresh w.peripherals this ∧
    w.OwnedBy .service r (some this)) ?_ fun r => ?_
  · refine ownRegistry_triple ?_ fun w hw _ => ?_
    · intro w r hw hfound
      rw [hw.2.2] at hfound
      cases hfound
    · exact ⟨hw.1.createRegistry _ _ _, hw.2.1, w.ownedBy_createRegistry _ _ _⟩
  refine Program.Triple.bind (newObject_triple fun w n hw => ⟨hw.1.inert n _, hw.2⟩) fun self => ?_
  have hset : ∀ site slot, Program.Triple (fun w => Routed w ∧ World.Fresh w.peripherals this ∧
      w.OwnedBy .service r (some this)) (setCallback env site slot this)
      (fun _ w => Routed w ∧ World.Fresh w.peripherals this ∧ w.OwnedBy .service r (some this))
      Routed := fun site slot =>
    setCallback_triple (fun w hw => hw.1) fun w cbs hw => ⟨hw.1.inert _ cbs, hw.2⟩
  refine Program.Triple.bind (hset _ _) fun _ => ?_
  refine Program.Triple.bind (hset _ _) fun _ => ?_
  refine Program.Triple.bind (R := fun _ => Routed) ?_ fun _ => Program.Triple.skip this
  exact Program.Triple.modify fun w hw => hw.1.storePeripheral hw.2.1 hw.2.2

/-- A service whose hash is not in the map likewise, and it belongs where it is
going to be put. -/
theorem Service.construct_routed (value : SimpleBLE.Service) (owner : Option Ptr)
    (r : RegistryPtr) :
    Program.Triple
      (fun w => (Routed w ∧ (w.factories .characteristic).index[hashService H value]? = none) ∧
        w.OwnedBy .service r owner)
      (Service.construct H env value owner)
      (fun this w => Routed w ∧ w.OwnedBy .service r owner ∧
        ∃ S, w.services.get? this = some S ∧ S.owner = owner ∧ S.uuid = value.uuid) Routed := by
  refine Program.Triple.bind (R := fun this w => Routed w ∧ World.Fresh w.services this ∧
    (w.factories .characteristic).index[hashService H value]? = none ∧
    w.OwnedBy .service r owner) ?_ fun this => ?_
  · refine Program.Triple.act fun w hw => ?_
    exact ⟨hw.1.1.alloc.2.2.1, World.fresh_alloc w.services, hw.1.2, hw.2⟩
  refine Program.Triple.bind (R := fun r' w => Routed w ∧ World.Fresh w.services this ∧
    w.OwnedBy .characteristic r' (some this) ∧ w.OwnedBy .service r owner) ?_ fun r' => ?_
  · refine ownRegistry_triple ?_ fun w hw _ => ?_
    · intro w r' hw hfound
      rw [hw.2.2.1] at hfound
      cases hfound
    · obtain ⟨R, hR, ho⟩ := hw.2.2.2
      exact ⟨hw.1.createRegistry _ _ _, hw.2.1, w.ownedBy_createRegistry _ _ _, R,
        World.registryAt?_createRegistry_of_some hR, ho⟩
  refine Program.Triple.bind (backend_triple fun _ w hw => hw.1) fun _ => ?_
  refine Program.Triple.bind (newObject_triple fun w n hw => ⟨hw.1.inert n _, hw.2⟩) fun self => ?_
  refine Program.Triple.bind (R := fun _ w => Routed w ∧ w.OwnedBy .service r owner ∧
    ∃ S, w.services.get? this = some S ∧ S.owner = owner ∧ S.uuid = value.uuid) ?_ fun _ => ?_
  · refine Program.Triple.modify fun w hw => ?_
    exact ⟨hw.1.storeService hw.2.1 hw.2.2.1, hw.2.2.2, _, Heap.get?_store_self hw.2.1.1, rfl, rfl⟩
  · exact Program.Triple.pure this fun _ hw => hw

/-- The characteristic under construction at `this`, which has subscribed in the
ways of `ops`: the calls that handed over a callback of it went up its chain. -/
structure Subscribing (owner : Option Ptr) (uuid : BluetoothUUID) (r : RegistryPtr) (this : Ptr)
    (ops : List BackendOp) (w : World) : Prop where
  routed : Routed w
  fresh : World.Fresh w.characteristics this
  registry : w.OwnedBy .characteristic r owner
  chain : ∀ call ∈ w.log, call.callback = some this → Chain w owner uuid call
  subscribed : ∀ op ∈ ops, Subscribed w.log this op

theorem Subscribing.inert {owner : Option Ptr} {uuid : BluetoothUUID} {r : RegistryPtr}
    {this : Ptr} {ops : List BackendOp} {w : World} (h : Subscribing owner uuid r this ops w)
    (n : ObjectId) (cbs : List (Slot × Ptr)) :
    Subscribing owner uuid r this ops { w with nextObject := n, callbacks := cbs } :=
  ⟨h.routed.inert n cbs, h.fresh, h.registry, h.chain, h.subscribed⟩

theorem subscribe_routed {owner : Option Ptr} {uuid : BluetoothUUID} {r : RegistryPtr} {this : Ptr}
    {ops : List BackendOp} (op : BackendOp) :
    Program.Triple (Subscribing owner uuid r this ops)
      (Service.viaPeripheral owner fun p s =>
        Peripheral.access env p s { op, characteristic := uuid, callback := some this })
      (fun _ => Subscribing owner uuid r this (op :: ops)) Routed := by
  refine viaPeripheral_triple (fun w hw => hw.routed) ?_ (fun w hw => hw.routed) ?_
  · intro w s S p Q hw hs hS hp hQ
    refine ⟨hw.routed.logCall ?_, hw.fresh, hw.registry, ?_, ?_⟩
    · intro c hc
      cases hc
      exact hw.fresh
    · intro call hcall hcb
      rcases List.mem_append.1 hcall with hcall | hcall
      · exact hw.chain call hcall hcb
      · obtain rfl := List.mem_singleton.1 hcall
        exact ⟨s, S, p, Q, hs, hS, hp, hQ, rfl, rfl, rfl, rfl⟩
    · intro op' hop
      rcases List.mem_cons.1 hop with rfl | hop
      · exact ⟨_, List.mem_append_right _ (List.mem_singleton_self _), rfl, rfl⟩
      · obtain ⟨call, hcall, hrest⟩ := hw.subscribed op' hop
        exact ⟨call, List.mem_append_left _ hcall, hrest⟩
  · intro w slot c hc hw
    exact hw.inert _ _

/-- A characteristic belongs where it is going to be put, and its callbacks
were registered there. -/
theorem Characteristic.construct_routed (value : SimpleBLE.Characteristic) (owner : Option Ptr)
    (r : RegistryPtr) :
    Program.Triple (fun w => Routed w ∧ w.OwnedBy .characteristic r owner)
      (Characteristic.construct env value owner)
      (fun this w => Routed w ∧ w.OwnedBy .characteristic r owner ∧
        ∃ C, w.characteristics.get? this = some C ∧ C.owner = owner ∧ C.uuid = value.uuid)
      Routed := by
  let ops₁ : List BackendOp := if "notify" ∈ value.capabilities then [.notify] else []
  let ops₂ : List BackendOp := if "indicate" ∈ value.capabilities then .indicate :: ops₁ else ops₁
  refine Program.Triple.bind (R := fun this => Subscribing owner value.uuid r this []) ?_
    fun this => ?_
  · refine Program.Triple.act fun w hw => ?_
    refine ⟨hw.1.alloc.2.2.2, World.fresh_alloc w.characteristics, hw.2, ?_, by simp⟩
    -- no call can have handed over a callback of what has only now been allocated
    intro call hcall hcb
    exact absurd (hw.1.registrations call hcall _ hcb).1 (Nat.lt_irrefl _)
  refine Program.Triple.bind (backend_triple fun _ w hw => hw.routed) fun _ => ?_
  refine Program.Triple.bind (newObject_triple fun w n hw => hw.inert n _) fun self => ?_
  refine Program.Triple.bind (backend_triple fun _ w hw => hw.routed) fun _ => ?_
  refine Program.Triple.bind (capabilityFlags_triple _ fun w hw => hw.routed) fun _ => ?_
  refine Program.Triple.bind (R := fun _ => Subscribing owner value.uuid r this ops₁) ?_ fun _ => ?_
  · refine Program.Triple.when_of (fun hc => ?_) fun hc w hw => ?_
    · rw [show ops₁ = [.notify] from if_pos hc]
      exact subscribe_routed env .notify
    · rwa [show ops₁ = [] from if_neg hc]
  refine Program.Triple.bind (R := fun _ => Subscribing owner value.uuid r this ops₂) ?_ fun _ => ?_
  · refine Program.Triple.when_of (fun hc => ?_) fun hc w hw => ?_
    · rw [show ops₂ = .indicate :: ops₁ from if_pos hc]
      exact subscribe_routed env .indicate
    · rwa [show ops₂ = ops₁ from if_neg hc]
  have hsub : ∀ w, Subscribing owner value.uuid r this ops₂ w →
      ("notify" ∈ value.capabilities → Subscribed w.log this .notify) ∧
        ("indicate" ∈ value.capabilities → Subscribed w.log this .indicate) := by
    intro w hw
    refine ⟨fun hc => hw.subscribed _ ?_, fun hc => hw.subscribed _ ?_⟩
    · have hmem : BackendOp.notify ∈ ops₁ := by simp [ops₁, hc]
      by_cases hi : "indicate" ∈ value.capabilities
      · rw [show ops₂ = .indicate :: ops₁ from if_pos hi]
        exact List.mem_cons_of_mem _ hmem
      · rwa [show ops₂ = ops₁ from if_neg hi]
    · simp [ops₂, hc]
  refine Program.Triple.bind (R := fun _ w => Routed w ∧ w.OwnedBy .characteristic r owner ∧
    ∃ C, w.characteristics.get? this = some C ∧ C.owner = owner ∧ C.uuid = value.uuid) ?_ fun _ => ?_
  · refine Program.Triple.modify fun w hw => ?_
    exact ⟨hw.routed.storeCharacteristic hw.fresh rfl hw.chain ⟨(hsub w hw).1, (hsub w hw).2⟩,
      hw.registry, _, Heap.get?_store_self hw.fresh.1, rfl, rfl⟩
  · exact Program.Triple.pure this fun _ hw => hw

end Constructors

/-! ## Fetches and runs -/

/-- No registry is kept yet under the hash of what is to own one. -/
def Value.Unclaimed (H : Hashes) (w : World) : Value → Prop
  | .peripheral value => (w.factories .service).index[hashPeripheral H value]? = none
  | .service value => (w.factories .characteristic).index[hashService H value]? = none
  | .adapter _ | .characteristic _ => True

/-- If the action constructs a peripheral or a service, no registry is kept yet
under its hash. -/
def NoClash (H : Hashes) (w : World) (a : Action) : Prop :=
  ∀ f, a.fetch? w = some f → f.Constructs w → f.value.Unclaimed H w

instance (H : Hashes) (w : World) (value : Value) : Decidable (value.Unclaimed H w) :=
  match value with
  | .peripheral value =>
      inferInstanceAs (Decidable ((w.factories .service).index[hashPeripheral H value]? = none))
  | .service value =>
      inferInstanceAs (Decidable ((w.factories .characteristic).index[hashService H value]? = none))
  | .adapter _ | .characteristic _ => isTrue trivial

instance (H : Hashes) (w : World) (a : Action) : Decidable (NoClash H w a) :=
  match h : a.fetch? w with
  | none => isTrue (by intro f hf; rw [h] at hf; cases hf)
  | some f => decidable_of_iff (f.Constructs w → f.value.Unclaimed H w) (by simp [NoClash, h])

/-- **A fetch keeps the invariant** when what it constructs finds no registry. -/
theorem Routed.fetch (H : Hashes) (f : Fetch) :
    Program.Triple (fun w => Routed w ∧ (f.Constructs w → f.value.Unclaimed H w)) (f.prog H)
      (fun _ => Routed) Routed := by
  obtain ⟨r, value, env⟩ := f
  have hunclaimed : ∀ {w : World} {registry : Registry}, env.throws ≠ some .keyFromValue →
      env.duringGc = false → registry.entries[value.key]? = none →
      w.registryAt? value.level r = some registry →
      (Fetch.Constructs w ⟨r, value, env⟩ → value.Unclaimed H w) → value.Unclaimed H w :=
    fun hthrows hgc hnone hR hok => hok ⟨hthrows, hgc, _, hR, hnone⟩
  cases value with
  | adapter value =>
      refine fetch_triple (J := fun _ _ => Routed) (fun w hw => hw.1) ?_ ?_
      · intro _ _ registry _
        exact (Adapter.construct_routed H env value).conseq (fun w hw => hw.1.1) (fun _ _ hw => hw)
          fun _ hw => hw
      · intro owner p w hw
        exact hw.modifyRegistry (fun _ => rfl) (fun h => by cases h) fun h => by cases h
  | peripheral value =>
      refine fetch_triple (J := fun _ _ => Routed) (fun w hw => hw.1) ?_ ?_
      · intro hthrows hgc registry hnone
        exact (Peripheral.construct_routed H env value _).conseq
          (fun w hw => ⟨hw.1.1, hunclaimed hthrows hgc hnone hw.2 hw.1.2⟩) (fun _ _ hw => hw)
          fun _ hw => hw
      · intro owner p w hw
        exact hw.modifyRegistry (fun _ => rfl) (fun h => by cases h) fun h => by cases h
  | service value =>
      refine fetch_triple (J := fun owner p w => Routed w ∧ w.OwnedBy .service r owner ∧
        ∃ S, w.services.get? p = some S ∧ S.owner = owner ∧ S.uuid = value.uuid)
        (fun w hw => hw.1) ?_ ?_
      · intro hthrows hgc registry hnone
        exact (Service.construct_routed H env value _ r).conseq
          (fun w hw => ⟨⟨hw.1.1, hunclaimed hthrows hgc hnone hw.2 hw.1.2⟩, registry, hw.2, rfl⟩)
          (fun _ _ hw => hw) fun _ hw => hw
      · rintro owner p w ⟨hw, ⟨R, hR, rfl⟩, S, hS, ho, hu⟩
        refine hw.modifyRegistry (fun _ => rfl) ?_ fun h => by cases h
        intro _ R' key s hR' hs
        obtain rfl : R = R' := Option.some.inj (hR.symm.trans hR')
        rcases getElem?_insertIfNew_cases hs with ⟨rfl, rfl⟩ | hs
        · exact ⟨S, hS, ho, hu⟩
        · exact hw.services r R key s hR hs
  | characteristic value =>
      refine fetch_triple (J := fun owner p w => Routed w ∧ w.OwnedBy .characteristic r owner ∧
        ∃ C, w.characteristics.get? p = some C ∧ C.owner = owner ∧ C.uuid = value.uuid)
        (fun w hw => hw.1) ?_ ?_
      · intro _ _ registry _
        exact (Characteristic.construct_routed env value _ r).conseq
          (fun w hw => ⟨hw.1.1, registry, hw.2, rfl⟩) (fun _ _ hw => hw) fun _ hw => hw
      · rintro owner p w ⟨hw, ⟨R, hR, rfl⟩, C, hC, ho, hu⟩
        refine hw.modifyRegistry (fun _ => rfl) (fun h => by cases h) ?_
        intro _ R' key c hR' hc
        obtain rfl : R = R' := Option.some.inj (hR.symm.trans hR')
        rcases getElem?_insertIfNew_cases hc with ⟨rfl, rfl⟩ | hc
        · exact ⟨C, hC, ho, hu⟩
        · exact hw.characteristics r R key c hR hc

theorem Routed.action (H : Hashes) {w : World} {a : Action} (hw : Routed w)
    (hok : NoClash H w a) : Routed ((a.prog H).run w).2 :=
  Routed.stable.action_keeps (K := fun w f => f.Constructs w → f.value.Unclaimed H w)
    (Routed.fetch H) (fun _ _ hf => hf) hw (fun lvl r _ => hw.clear lvl r) hok

/-! ## Requests -/

section Requests

variable {w : World}

/-- The log after a call of the backend, whether it throws or not. -/
theorem callBackend_log (env : Env) (call : BackendCall) (w : World) :
    ((callBackend env call).run w).2.log = w.log ++ [call] := by
  refine Program.Triple.final (P := fun w' => w' = w) (R := fun w' => w'.log = w.log ++ [call]) ?_ rfl
  refine callBackend_triple ?_ (fun _ _ _ hw => hw) fun _ _ _ _ _ hw => hw
  rintro w' rfl
  exact rfl

/-- The chain of owners that requests through a characteristic go up. -/
structure Upwards (w : World) (c : Ptr) (C : Characteristic) (S : Service) (P : Peripheral) :
    Prop where
  characteristic : w.characteristics.get? c = some C
  service : ∃ s, C.owner = some s ∧ w.services.get? s = some S
  peripheral : ∃ p, S.owner = some p ∧ w.peripherals.get? p = some P

variable {c : Ptr} {C : Characteristic} {S : Service} {P : Peripheral} {env : Env}

/-- One access has reached the backend of the peripheral since `w`. -/
abbrev Sent (w : World) (S : Service) (P : Peripheral) (a : Access) (w' : World) : Prop :=
  w'.log = w.log ++ [{ a with device := P.peripheral.backend, service := S.uuid }]

theorem Upwards.access (h : Upwards w c C S P) (a : Access) :
    Program.Triple (fun w' => w' = w)
      (Service.viaPeripheral C.owner fun q u => Peripheral.access env q u a)
      (fun _ => Sent w S P a) (Sent w S P a) := by
  obtain ⟨-, ⟨s, ho, hS⟩, p, hp, hP⟩ := h
  refine Program.Triple.of_final ?_
  rintro w' rfl
  rw [ho, viaPeripheral_run _ a hS hp hP]
  exact callBackend_log _ _ _

theorem Upwards.read (h : Upwards w c C S P) (force : Bool) :
    ((Characteristic.read env c force).run w).2.log =
      w.log ++ (Request.read force).expected C P.peripheral.backend S.uuid C.uuid := by
  rw [Characteristic.read, Program.run_bind_ok (deref_run h.characteristic), Request.expected]
  cases C.cached force with
  | some value => exact (List.append_nil _).symm
  | none =>
      refine Program.Triple.final (P := fun w' => w' = w)
        (R := Sent w S P { op := .read, characteristic := C.uuid }) ?_ rfl
      dsimp only
      rw [Service.read_eq, bind_assoc]
      refine Program.Triple.bind (h.access _) fun _ => ?_
      refine Program.Triple.bind (Program.Triple.skip env.reply) fun value => ?_
      refine Program.Triple.bind (R := fun _ => Sent w S P _) ?_ fun _ => Program.Triple.skip value
      exact Program.Triple.modify fun _ hw => hw

theorem Upwards.readDescriptor (h : Upwards w c C S P) (uuid : BluetoothUUID) :
    Sent w S P { op := .read, characteristic := C.uuid, descriptor := some uuid }
      ((Service.readDescriptor env C.owner C.uuid uuid).run w).2 := by
  refine Program.Triple.final (P := fun w' => w' = w) ?_ rfl
  rw [Service.readDescriptor_eq]
  exact Program.Triple.bind (h.access _) fun _ => Program.Triple.skip env.reply

theorem heldDescriptor_run (hC : w.characteristics.get? c = some C) (uuid : BluetoothUUID) :
    (Characteristic.heldDescriptor c uuid).run w =
      (Program.orThrow .outOfRange (C.descriptors.bind (·[uuid]?)) : Prog Descriptor).run w := by
  rw [Characteristic.heldDescriptor, Program.run_bind_ok (deref_run hC)]

/-- **Where a request goes**: up the chain of owners, and nowhere else. -/
theorem Upwards.request (h : Upwards w c C S P)
    (hd : ∀ ds key (d : Descriptor), C.descriptors = some ds → ds[key]? = some d →
      d.owner = c ∧ d.uuid = key) (req : Request) :
    ((req.prog env c).run w).2.log =
      w.log ++ req.expected C P.peripheral.backend S.uuid C.uuid := by
  have hvia : ∀ {α : Type} (access : Option Ptr → BluetoothUUID → Prog α),
      (Characteristic.viaService c access).run w = (access C.owner C.uuid).run w :=
    fun access => Program.run_bind_ok (deref_run h.characteristic)
  have hheld : ∀ {uuid} {d : Descriptor}, C.descriptors.bind (·[uuid]?) = some d → d.owner = c ∧ d.uuid = uuid := by
    intro uuid d hd'
    obtain ⟨ds, hds, hget⟩ := Option.bind_eq_some_iff.1 hd'
    exact hd ds uuid d hds hget
  cases req with
  | read force =>
      rw [Request.prog, run_discard]
      exact h.read force
  | writeRequest data =>
      rw [Request.prog, Characteristic.writeRequest, hvia]
      exact (h.access _).final rfl
  | writeCommand data =>
      rw [Request.prog, Characteristic.writeCommand, hvia]
      exact (h.access _).final rfl
  | readDescriptor uuid =>
      have hrun := heldDescriptor_run h.characteristic uuid
      rw [Request.prog, Request.expected]
      cases hfind : C.descriptors.bind (·[uuid]?) with
      | none =>
          rw [hfind] at hrun
          rw [Program.run_bind_error hrun]
          exact (List.append_nil _).symm
      | some d =>
          rw [hfind] at hrun
          obtain ⟨ho, hu⟩ := hheld hfind
          rw [Program.run_bind_ok hrun, run_discard, Descriptor.read, ho, hu,
            Characteristic.readDescriptor, hvia]
          exact h.readDescriptor uuid
  | writeDescriptor uuid data =>
      have hrun := heldDescriptor_run h.characteristic uuid
      rw [Request.prog, Request.expected]
      cases hfind : C.descriptors.bind (·[uuid]?) with
      | none =>
          rw [hfind] at hrun
          rw [Program.run_bind_error hrun]
          exact (List.append_nil _).symm
      | some d =>
          rw [hfind] at hrun
          obtain ⟨ho, hu⟩ := hheld hfind
          rw [Program.run_bind_ok hrun, Descriptor.write, ho, hu, Characteristic.write, hvia]
          exact (h.access _).final rfl

/-- The invariant says where everything found under a peripheral is routed. -/
theorem Routed.routes (h : Routed w) : Routes w := by
  intro p P service characteristic c hP hc
  obtain ⟨R, hR, hc⟩ := Option.bind_eq_some_iff.1 hc
  obtain ⟨s, hs, hc⟩ := Option.bind_eq_some_iff.1 hc
  obtain ⟨S, hS, hc⟩ := Option.bind_eq_some_iff.1 hc
  obtain ⟨R', hR', hc⟩ := Option.bind_eq_some_iff.1 hc
  obtain ⟨R₀, hR₀, hown⟩ := h.ownServices p P hP
  obtain rfl : R = R₀ := Option.some.inj (hR.symm.trans hR₀)
  obtain ⟨S₀, hS₀, hSo, hSu⟩ := h.services _ R service s hR hs
  obtain rfl : S = S₀ := Option.some.inj (hS.symm.trans hS₀)
  obtain ⟨R₁, hR₁, hown'⟩ := h.ownCharacteristics s S hS
  obtain rfl : R' = R₁ := Option.some.inj (hR'.symm.trans hR₁)
  obtain ⟨C, hC, hCo, hCu⟩ := h.characteristics _ R' characteristic c hR' hc
  have hup : Upwards w c C S P := ⟨hC, ⟨s, hCo.trans hown', hS⟩, p, hSo.trans hown, hP⟩
  refine ⟨⟨C, hC, h.subscriptions c C hC, fun req env => ?_⟩, ?_⟩
  · rw [hup.request (fun ds key d hds hd => h.descriptors c C ds key d hC hds hd) req, hSu, hCu]
  · intro call hcall hcb
    obtain ⟨s', S', p', P', hs', hS', hp', hP', hdev, hsvc, hchr, hdesc⟩ :=
      (h.registrations call hcall c hcb).2 C hC
    obtain rfl : s = s' := Option.some.inj ((hCo.trans hown').symm.trans hs')
    obtain rfl : S = S' := Option.some.inj (hS.symm.trans hS')
    obtain rfl : p = p' := Option.some.inj ((hSo.trans hown).symm.trans hp')
    obtain rfl : P = P' := Option.some.inj (hP.symm.trans hP')
    exact ⟨hdev, hsvc.trans hSu, hchr.trans hCu, hdesc⟩

end Requests

/-! ## Runs -/

theorem routed_of_noClash {H : Hashes} {as : List Action} {w : World}
    (hok : (bindingsSystem H).Meets (NoClash H) World.init as)
    (hrun : (bindingsSystem H).run as = some w) : Routed w := by
  refine System.invariant_of_meets (S := bindingsSystem H) ?_ Routed.init hok hrun
  rintro w a w' hw hok ⟨rfl⟩
  exact hw.action H hok

/-- **End-to-end routing.**  In a run in which no peripheral or service under
construction finds a registry under its hash, at every point, whatever is
requested through a characteristic found under a peripheral goes to that
peripheral's backend, with these two UUIDs, and nowhere else. -/
theorem routing (H : Hashes) (as : List Action)
    (hok : (bindingsSystem H).Meets (NoClash H) World.init as) :
    (bindingsSystem H).Always Routes World.init as :=
  fun _ hprefix _ hrun => (routed_of_noClash (hok.of_initial hprefix) hrun).routes

/-- One adapter and two peripherals: what a scan finds. -/
def scanTwo : List Action :=
  [.fetch ⟨0, .adapter ⟨0, "00:00:00:00:00:01"⟩, {}⟩,
   .fetch ⟨0, .peripheral ⟨0, "00:00:00:00:00:0a", .publicAddress⟩, {}⟩,
   .fetch ⟨0, .peripheral ⟨1, "00:00:00:00:00:0b", .publicAddress⟩, {}⟩]

/-- The first has a battery service, the second device information; each has a
characteristic, and that of the second notifies. -/
def twoServices : List Action :=
  scanTwo ++ [.fetch ⟨0, .service ⟨"180f", []⟩, {}⟩, .fetch ⟨1, .service ⟨"180a", []⟩, {}⟩,
    .fetch ⟨0, .characteristic ⟨"2a19", ["read"]⟩, {}⟩,
    .fetch ⟨1, .characteristic ⟨"2a29", ["read", "notify"]⟩, {}⟩]

theorem routing_twoServices : (bindingsSystem sampleHashes).Always Routes World.init twoServices :=
  routing sampleHashes twoServices (by decide +kernel)

/-- Both peripherals have the battery service. -/
def twoBatteries : List Action :=
  scanTwo ++ [.fetch ⟨0, .service ⟨"180f", []⟩, {}⟩, .fetch ⟨1, .service ⟨"180f", []⟩, {}⟩,
    .fetch ⟨0, .characteristic ⟨"2a19", ["read"]⟩, {}⟩]

/-- A read through the battery level of the second peripheral goes to the first. -/
theorem twoBatteries_read : ((bindingsSystem sampleHashes).run twoBatteries).map (fun w =>
    ((w.peripherals.get? 1).map fun P => (P.peripheral.backend, P.characteristicAt w "180f" "2a19"),
      (((Request.read true).prog {} 0).run w).2.log.map (·.device))) =
    some (some (1, some 0), [0]) := by
  decide +kernel

/-- Requests do not always go to the peripheral they are made through. -/
theorem not_routing_twoBatteries :
    ¬ ∀ (H : Hashes) (as : List Action), (bindingsSystem H).Always Routes World.init as := by
  intro hall
  obtain ⟨w, hrun, hw⟩ := Option.map_eq_some_iff.1 twoBatteries_read
  obtain ⟨hfound, hlog⟩ := Prod.mk.inj hw
  obtain ⟨P, hP, hat⟩ := Option.map_eq_some_iff.1 hfound
  obtain ⟨hdevice, hc⟩ := Prod.mk.inj hat
  have hroutes : Routes w := (hall _ twoBatteries).last hrun
  obtain ⟨C, -, -, hrequests⟩ := (hroutes 1 P "180f" "2a19" 0 hP hc).requests
  rw [hrequests, hdevice] at hlog
  -- the last call would be of device 1
  have hlast : [0].getLast? = some 1 := by rw [← hlog]; simp [Request.expected, Characteristic.cached]
  exact absurd hlast (by decide)

end RuBLE
