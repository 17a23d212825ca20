import Mathlib
import RuBLE.Bindings.Lifetimes
import RuBLE.Bindings.Reports

/-!
# Lookups by UUID

`operator[]` of a peripheral, a service and a characteristic: each should return
the proxy that is there, and ask the backend only when there is none.

* `Peripheral.index`, `Service.index`, `Characteristic.index` — the operators.
* `ReadThrough` — what each of them should do.
* `listing_lookup` — what a refresh does to one UUID.
* `ReadThrough.of_listing` — a miss that lists everything is read-through.
* `readThrough_iff` — **when a lookup is read-through**: a service always is, a
  peripheral always asks the backend, a characteristic only once.
-/

namespace RuBLE

open Transition

/-! ## The operators -/

/-- The `std::out_of_range` that `at` throws is caught. -/
def outOfRangeCaught {α : Type} : Error → Option (Option α)
  | .outOfRange => some none
  | _ => none

/-- A registry that was handed out by its factory is not null. -/
def RegistryPtr.isSet (_ : RegistryPtr) : Bool := true

/-- `Peripheral::operator[]`; empty for a UUID that is not found. -/
def Peripheral.index (H : Hashes) (env : Env) (this : Ptr) (svcUuid : BluetoothUUID)
    (report : List (SimpleBLE.Service × Env)) : Prog (Option Ptr) :=
  Program.catching outOfRangeCaught do
    let p ← deref World.peripherals (some this)
    let registry ← registryAt .service p.serviceRegistry
    Program.when (p.serviceRegistry.isSet || !registry.entries.contains svcUuid) do
      let _ ← Peripheral.services H env this report
    let registry ← registryAt .service p.serviceRegistry
    let s ← Program.orThrow .outOfRange registry.entries[svcUuid]?
    return some s

/-- `Service::operator[]`. -/
def Service.index (H : Hashes) (env : Env) (this : Ptr) (charUuid : BluetoothUUID)
    (report : List (SimpleBLE.Characteristic × Env)) : Prog Ptr := do
  let s ← deref World.services (some this)
  let registry ← registryAt .characteristic s.characteristicRegistry
  Program.when (!registry.entries.contains charUuid) do
    let _ ← Service.characteristics H env this report
  let registry ← registryAt .characteristic s.characteristicRegistry
  Program.orThrow .outOfRange registry.entries[charUuid]?

/-- `Characteristic::operator[]`. -/
def Characteristic.index (env : Env) (this : Ptr) (descUuid : BluetoothUUID)
    (report : List BluetoothUUID) : Prog Descriptor := do
  let c ← deref World.characteristics (some this)
  Program.when (c.descriptors.isNone || !(c.descriptors.any (·.contains descUuid))) do
    let _ ← Characteristic.getDescriptors env this report
  let c ← deref World.characteristics (some this)
  let descriptors ← Program.orThrow .badPointer c.descriptors
  Program.orThrow .outOfRange descriptors[descUuid]?

/-! ## Read-through lookups -/

/-- How a lookup ends. -/
inductive LookupResult (α : Type) where
  | found (a : α)
  /-- With an `out_of_range`, or an empty result. -/
  | missing
  /-- With another exception. -/
  | failed (e : Error)

/-- The end of a lookup that throws `out_of_range` for what is missing. -/
def LookupResult.ofAt {α : Type} : Except Error α → LookupResult α
  | .ok a => .found a
  | .error .outOfRange => .missing
  | .error e => .failed e

/-- The end of a lookup that returns an empty pointer for what is missing. -/
def LookupResult.ofPtr {α : Type} : Except Error (Option α) → LookupResult α
  | .ok (some a) => .found a
  | .ok none => .missing
  | .error e => .failed e

/-- What a lookup of `uuid` in the world `w` should do, when `cached` is what was
instantiated before, `report` what the backend reports if it is asked `q`, and
`answers` that it answers. -/
structure ReadThrough {α : Type} (cached : Option α) (uuid : BluetoothUUID)
    (report : List BluetoothUUID) (q : Query) (isFor : α → World → Prop) (answers : Prop)
    (w : World) (result : LookupResult α) (w' : World) : Prop where
  /-- What is there is returned without a query. -/
  hit : ∀ a, cached = some a → result = .found a ∧ w'.queries = w.queries
  /-- Otherwise the backend is asked once. -/
  once : cached = none → w'.queries = w.queries ++ [q]
  /-- What is found then is a proxy for a UUID of the report. -/
  found : cached = none → ∀ a, result = .found a → uuid ∈ report ∧ isFor a w'
  /-- What is missing is not in the report. -/
  missing : cached = none → result = .missing → uuid ∉ report
  /-- There is no other end, if the backend answers. -/
  returns : answers → ∀ e, result ≠ .failed e

/-- The backend does not throw, and no collection is going on. -/
def Env.Quiet (env : Env) : Prop := env.throws = none ∧ env.duringGc = false

/-- The registry's owner and its owner are there. -/
def Owners (owner : Option Ptr) (w : World) : Prop :=
  ∃ s S p P, owner = some s ∧ w.services.get? s = some S ∧ S.owner = some p ∧
    w.peripherals.get? p = some P

/-- What the registry at `r` holds under a key. -/
def World.lookup (w : World) (lvl : Level) (r : RegistryPtr) (key : String) : Option Ptr :=
  (w.registryAt? lvl r).bind (·.entries[key]?)

/-- A lookup of a service is read-through. -/
def Peripheral.ReadThrough (H : Hashes) (env : Env) (w : World) (this : Ptr) (P : Peripheral)
    (uuid : BluetoothUUID) (report : List (SimpleBLE.Service × Env)) : Prop :=
  let final := (Peripheral.index H env this uuid report).run w
  RuBLE.ReadThrough (w.lookup .service P.serviceRegistry uuid) uuid (report.map (·.1.uuid))
    (.services this) (fun s w' => ∃ S, w'.services.get? s = some S ∧ S.uuid = uuid)
    (env.Quiet ∧ ∀ v ∈ report, v.2.Quiet) w (.ofPtr final.1) final.2

/-- A lookup of a characteristic is read-through. -/
def Service.ReadThrough (H : Hashes) (env : Env) (w : World) (this : Ptr) (S : Service)
    (uuid : BluetoothUUID) (report : List (SimpleBLE.Characteristic × Env)) : Prop :=
  let final := (Service.index H env this uuid report).run w
  RuBLE.ReadThrough (w.lookup .characteristic S.characteristicRegistry uuid) uuid
    (report.map (·.1.uuid)) (.characteristics this)
    (fun c w' => ∃ C, w'.characteristics.get? c = some C ∧ C.uuid = uuid)
    (env.Quiet ∧ (∀ v ∈ report, v.2.Quiet ∧ ∀ name ∈ v.1.capabilities, name ∈ capabilityNames) ∧
      ∀ R, w.registryAt? .characteristic S.characteristicRegistry = some R → Owners R.owner w)
    w (.ofAt final.1) final.2

/-- A lookup of a descriptor is read-through. -/
def Characteristic.ReadThrough (env : Env) (w : World) (this : Ptr) (C : Characteristic)
    (uuid : BluetoothUUID) (report : List BluetoothUUID) : Prop :=
  let final := (Characteristic.index env this uuid report).run w
  RuBLE.ReadThrough (C.descriptors.bind (·[uuid]?)) uuid report (.descriptors this)
    (fun d _ => d.uuid = uuid) env.Quiet w (.ofAt final.1) final.2

section ReadThrough

variable {α : Type} {a : α} {uuid : BluetoothUUID} {report : List BluetoothUUID} {q : Query}
  {isFor : α → World → Prop} {answers : Prop} {w w' : World}

theorem ReadThrough.of_hit : ReadThrough (some a) uuid report q isFor answers w (.found a) w where
  hit := by simp
  once := by simp
  found := by simp
  missing := by simp
  returns := by simp

theorem ReadThrough.of_found (hq : w'.queries = w.queries ++ [q]) (hmem : uuid ∈ report)
    (hfor : isFor a w') : ReadThrough none uuid report q isFor answers w (.found a) w' where
  hit := by simp
  once _ := hq
  found := by
    rintro - _ ⟨⟩
    exact ⟨hmem, hfor⟩
  missing := by simp
  returns := by simp

theorem ReadThrough.of_missing (hq : w'.queries = w.queries ++ [q]) (hmem : uuid ∉ report) :
    ReadThrough none uuid report q isFor answers w .missing w' where
  hit := by simp
  once _ := hq
  found := by simp
  missing _ _ := hmem
  returns := by simp

theorem ReadThrough.of_failed {e : Error} (hq : w'.queries = w.queries ++ [q]) (h : ¬ answers) :
    ReadThrough none uuid report q isFor answers w (.failed e) w' where
  hit := by simp
  once _ := hq
  found := by simp
  missing := by simp
  returns hanswers := absurd hanswers h

end ReadThrough

/-! ## What is thrown -/

section Throws

variable {H : Hashes} {env : Env}

/-- It never throws an `out_of_range` of its own. -/
abbrev InRange {α : Type} (x : Prog α) : Prop := Program.ThrowsOnly (· ≠ Error.outOfRange) x

theorem backend_inRange (site : Site) : InRange (backend env site) :=
  Program.ThrowsOnly.ite (Program.ThrowsOnly.throw (by simp)) (Program.ThrowsOnly.pure ())

theorem deref_inRange {α : Type} (heap : World → Heap α) (p : Option Ptr) : InRange (deref heap p) :=
  Program.ThrowsOnly.bind Program.ThrowsOnly.get fun _ => Program.ThrowsOnly.orThrow _ (by simp)

theorem registryAt_inRange (lvl : Level) (r : RegistryPtr) : InRange (registryAt lvl r) :=
  Program.ThrowsOnly.bind Program.ThrowsOnly.get fun _ => Program.ThrowsOnly.orThrow _ (by simp)

theorem setCallback_inRange (site : Site) (slot : Slot) (this : Ptr) :
    InRange (setCallback env site slot this) :=
  Program.ThrowsOnly.bind (Program.ThrowsOnly.when (Program.ThrowsOnly.modify _)) fun _ =>
    backend_inRange site

theorem callBackend_inRange (call : BackendCall) : InRange (callBackend env call) := by
  refine Program.ThrowsOnly.bind (Program.ThrowsOnly.modify _) fun _ => ?_
  split
  · exact setCallback_inRange _ _ _
  · exact setCallback_inRange _ _ _
  · exact backend_inRange _

theorem capabilityFlags_inRange (names : List String) : InRange (capabilityFlags names) := by
  induction names with
  | nil => exact Program.ThrowsOnly.pure ()
  | cons name names ih => exact Program.ThrowsOnly.ite ih (Program.ThrowsOnly.throw (by simp))

theorem Adapter.construct_inRange (value : SimpleBLE.Adapter) :
    InRange (Adapter.construct H env value) := by
  refine Program.ThrowsOnly.bind (Program.ThrowsOnly.act _) fun this => ?_
  refine Program.ThrowsOnly.bind (Program.ThrowsOnly.act _) fun self => ?_
  refine Program.ThrowsOnly.bind (backend_inRange _) fun _ => ?_
  refine Program.ThrowsOnly.bind (Program.ThrowsOnly.act _) fun registry => ?_
  refine Program.ThrowsOnly.bind (setCallback_inRange _ _ _) fun _ => ?_
  refine Program.ThrowsOnly.bind (setCallback_inRange _ _ _) fun _ => ?_
  refine Program.ThrowsOnly.bind (setCallback_inRange _ _ _) fun _ => ?_
  refine Program.ThrowsOnly.bind (setCallback_inRange _ _ _) fun _ => ?_
  exact Program.ThrowsOnly.bind (Program.ThrowsOnly.modify _) fun _ => Program.ThrowsOnly.pure this

theorem Peripheral.construct_inRange (value : SimpleBLE.Peripheral) (owner : Option Ptr) :
    InRange (Peripheral.construct H env value owner) := by
  refine Program.ThrowsOnly.bind (Program.ThrowsOnly.act _) fun this => ?_
  refine Program.ThrowsOnly.bind (backend_inRange _) fun _ => ?_
  refine Program.ThrowsOnly.bind (backend_inRange _) fun _ => ?_
  refine Program.ThrowsOnly.bind (Program.ThrowsOnly.act _) fun registry => ?_
  refine Program.ThrowsOnly.bind (Program.ThrowsOnly.act _) fun self => ?_
  refine Program.ThrowsOnly.bind (setCallback_inRange _ _ _) fun _ => ?_
  refine Program.ThrowsOnly.bind (setCallback_inRange _ _ _) fun _ => ?_
  exact Program.ThrowsOnly.bind (Program.ThrowsOnly.modify _) fun _ => Program.ThrowsOnly.pure this

theorem Service.construct_inRange (value : SimpleBLE.Service) (owner : Option Ptr) :
    InRange (Service.construct H env value owner) := by
  refine Program.ThrowsOnly.bind (Program.ThrowsOnly.act _) fun this => ?_
  refine Program.ThrowsOnly.bind (Program.ThrowsOnly.act _) fun registry => ?_
  refine Program.ThrowsOnly.bind (backend_inRange _) fun _ => ?_
  refine Program.ThrowsOnly.bind (Program.ThrowsOnly.act _) fun self => ?_
  exact Program.ThrowsOnly.bind (Program.ThrowsOnly.modify _) fun _ => Program.ThrowsOnly.pure this

theorem Characteristic.construct_inRange (value : SimpleBLE.Characteristic) (owner : Option Ptr) :
    InRange (Characteristic.construct env value owner) := by
  have hsubscribe : ∀ a : Access,
      InRange (Service.viaPeripheral owner fun p s => Peripheral.access env p s a) := fun a =>
    Program.ThrowsOnly.bind (deref_inRange _ _) fun _ =>
      Program.ThrowsOnly.bind (deref_inRange _ _) fun _ => callBackend_inRange _
  refine Program.ThrowsOnly.bind (Program.ThrowsOnly.act _) fun this => ?_
  refine Program.ThrowsOnly.bind (backend_inRange _) fun _ => ?_
  refine Program.ThrowsOnly.bind (Program.ThrowsOnly.act _) fun self => ?_
  refine Program.ThrowsOnly.bind (backend_inRange _) fun _ => ?_
  refine Program.ThrowsOnly.bind (capabilityFlags_inRange _) fun _ => ?_
  refine Program.ThrowsOnly.bind (Program.ThrowsOnly.when (hsubscribe _)) fun _ => ?_
  refine Program.ThrowsOnly.bind (Program.ThrowsOnly.when (hsubscribe _)) fun _ => ?_
  exact Program.ThrowsOnly.bind (Program.ThrowsOnly.modify _) fun _ => Program.ThrowsOnly.pure this

theorem Value.construct_inRange (v : Value) (owner : Option Ptr) :
    InRange (v.construct H env owner) := by
  cases v with
  | adapter value => exact Adapter.construct_inRange value
  | peripheral value => exact Peripheral.construct_inRange value owner
  | service value => exact Service.construct_inRange value owner
  | characteristic value => exact Characteristic.construct_inRange value owner

/-- The key that `fetch` has just emplaced is always found. -/
theorem fetch_inRange (f : Fetch) : InRange (f.prog H) := by
  intro w w' e h
  cases hR : w.registryAt? f.value.level f.registry with
  | none =>
      rw [Fetch.prog, RuBLE.fetch, Program.run_bind_error (registryAt_run_none hR)] at h
      cases h
      simp
  | some R =>
      rw [fetch_run H hR] at h
      split at h
      · cases h
        simp
      split at h
      · cases h
      split at h
      · cases h
        simp
      split at h
      · cases h
      · next hrun =>
          cases h
          exact Value.construct_inRange _ _ _ _ _ hrun

theorem mapToObjects_inRange (r : RegistryPtr) (values : List (Value × Env)) :
    InRange (mapToObjects H r values) := by
  induction values with
  | nil => exact Program.ThrowsOnly.pure []
  | cons v values ih =>
      refine Program.ThrowsOnly.bind (fetch_inRange _) fun p => ?_
      exact Program.ThrowsOnly.bind ih fun ps => Program.ThrowsOnly.pure _

theorem query_inRange (q : Query) : InRange (query env q) :=
  Program.ThrowsOnly.bind (Program.ThrowsOnly.modify _) fun _ => backend_inRange _

theorem listing_inRange (q : Query) (lvl : Level) (r : RegistryPtr) (values : List (Value × Env)) :
    InRange (listing H env q lvl r values) := by
  refine Program.ThrowsOnly.bind (query_inRange q) fun _ => ?_
  refine Program.ThrowsOnly.bind (mapToObjects_inRange r values) fun _ => ?_
  exact Program.ThrowsOnly.bind (registryAt_inRange lvl r) fun R => Program.ThrowsOnly.pure R.entries

end Throws

/-! ## What a listing does -/

section Listing

variable {H : Hashes} {env : Env} {w w' : World} {lvl : Level} {r : RegistryPtr}

theorem Fetched.queries {f : Fetch} {p : Ptr} (h : Fetched w f p w') : w'.queries = w.queries := by
  cases h with
  | found R p hR hentry => rfl
  | made R p w₁ hgc hR hnone hext hbuilt => exact hext.queries

/-- The backend is asked once. -/
theorem listing_queries (q : Query) (values : List (Value × Env)) :
    ((listing H env q lvl r values).run w).2.queries = w.queries ++ [q] := by
  have hfetches : ∀ values : List (Value × Env),
      Program.Triple (fun w' => w'.queries = w.queries ++ [q]) (mapToObjects H r values)
        (fun _ w' => w'.queries = w.queries ++ [q]) (fun w' => w'.queries = w.queries ++ [q]) := by
    intro values
    induction values with
    | nil => exact Program.Triple.skip []
    | cons v values ih =>
        refine Program.Triple.bind (fun w₁ hw₁ => ?_) fun p =>
          Program.Triple.bind ih fun ps => Program.Triple.skip _
        exact (fetch_fetched H ⟨r, v.1, v.2⟩ w₁).conseq (fun _ hw => hw)
          (fun p w' hf => hf.queries.trans hw₁) (fun w' hext => hext.queries.trans hw₁) w₁ rfl
  refine Program.Triple.final (P := (· = w)) (R := fun w' => w'.queries = w.queries ++ [q]) ?_ rfl
  refine Program.Triple.bind (R := fun _ w' => w'.queries = w.queries ++ [q]) ?_ fun _ => ?_
  · refine Program.Triple.bind (R := fun _ w' => w'.queries = w.queries ++ [q]) ?_ fun _ =>
      backend_triple fun _ _ hw => hw
    rintro w' rfl
    rfl
  refine Program.Triple.bind (hfetches values) fun _ => ?_
  refine Program.Triple.bind ((registryAt_triple lvl r).conseq (fun _ hw => hw) (fun _ _ hw => hw.1)
    fun _ hw => hw) fun R => ?_
  exact Program.Triple.skip R.entries

/-- A key that was not there before these values were reported. -/
theorem Accumulates.new_key {vs values : List Value} {R : Registry} {key : String}
    (hbefore : Accumulates lvl r vs w) (hafter : Accumulates lvl r (vs ++ values) w')
    (hnone : w.lookup lvl r key = none) (hR : w'.registryAt? lvl r = some R) :
    (∀ p, R.entries[key]? = some p → ∃ v ∈ values, v.key = key ∧ BuiltFrom w' R.owner p v) ∧
      (R.entries[key]? = none → ∀ v ∈ values, v.key ≠ key) := by
  have hfirst : firstWith key (vs ++ values) = firstWith key values := by
    have hvs : firstWith key vs = none := by
      cases hw : w.registryAt? lvl r with
      | none => rw [hbefore.absent hw]; rfl
      | some R₀ =>
          refine hbefore.missing R₀ hw key ?_
          rw [World.lookup, hw] at hnone
          exact hnone
    rw [firstWith, List.find?_append, show vs.find? _ = none from hvs, Option.none_or]
    rfl
  constructor
  · intro p hp
    obtain ⟨v, hv, hbuilt⟩ := hafter.held R hR key p hp
    rw [hfirst] at hv
    exact ⟨v, List.mem_of_find?_eq_some hv, by simpa using List.find?_some hv, hbuilt⟩
  · intro hkey v hv heq
    have hsome := firstWith_isSome.2 ⟨v, hv, heq⟩
    rw [← hfirst, hafter.missing R hR key hkey] at hsome
    cases hsome

/-- What a listing does to a key that was not there. -/
theorem listing_lookup {q : Query} {values : List (Value × Env)} {m : Std.TreeMap String Ptr}
    {key : String} (h : (bindingsSystem H).Reachable w) (hne : lvl ≠ .peripheral)
    (hlvl : ∀ v ∈ values, v.1.level = lvl) (hnone : w.lookup lvl r key = none)
    (hm : (listing H env q lvl r values).run w = (.ok m, w')) :
    (∀ p, m[key]? = some p → ∃ v ∈ values, v.1.key = key ∧ ∃ owner, BuiltFrom w' owner p v.1) ∧
      (m[key]? = none → ∀ v ∈ values, v.1.key ≠ key) := by
  obtain ⟨as, hrun⟩ := h
  obtain ⟨⟨R, hR, rfl⟩, hw', -⟩ := listing_accumulates hne hlvl hrun hm
  obtain ⟨hfound, hmissing⟩ := (accumulates_of_run hne hrun).new_key hw' hnone hR
  refine ⟨fun p hp => ?_, fun hkey v hv => hmissing hkey v.1 (List.mem_map_of_mem hv)⟩
  obtain ⟨v, hv, hkey, hbuilt⟩ := hfound p hp
  obtain ⟨u, hu, rfl⟩ := List.mem_map.1 hv
  exact ⟨u, hu, hkey, R.owner, hbuilt⟩

end Listing

/-! ## When nothing is thrown -/

section Returns

variable {H : Hashes} {env : Env} {w w' : World} {lvl : Level} {r : RegistryPtr}

/-- It returns, and keeps what it needs. -/
abbrev Returns {α : Type} (P : World → Prop) (x : Prog α) : Prop :=
  Program.Triple P x (fun _ => P) (fun _ => False)

theorem Returns.run {α : Type} {P : World → Prop} {x : Prog α} (h : Returns P x) (hw : P w) :
    ∃ a w', x.run w = (.ok a, w') := by
  have := h w hw
  revert this
  rcases x.run w with ⟨e | a, w'⟩
  · exact False.elim
  · exact fun _ => ⟨a, w', rfl⟩

theorem backend_returns {P : World → Prop} (h : env.throws = none) (site : Site) :
    Returns P (backend env site) := by
  refine backend_triple fun hthrows => ?_
  rw [h] at hthrows
  cases hthrows

theorem Service.construct_returns (h : env.throws = none) (value : SimpleBLE.Service)
    (owner : Option Ptr) : Returns (fun _ => True) (Service.construct H env value owner) := by
  refine Program.Triple.bind (R := fun _ _ => True) (Program.Triple.act fun _ hw => hw) fun this => ?_
  refine Program.Triple.bind (R := fun _ _ => True) ?_ fun registry => ?_
  · exact ownRegistry_triple (fun _ _ _ _ => trivial) fun _ _ _ => trivial
  refine Program.Triple.bind (backend_returns h _) fun _ => ?_
  refine Program.Triple.bind (newObject_triple fun _ _ hw => hw) fun self => ?_
  refine Program.Triple.bind (R := fun _ _ => True) ?_ fun _ => Program.Triple.skip this
  exact Program.Triple.modify fun _ hw => hw

/-- The chain of owners is followed to the backend. -/
theorem subscribe_returns (h : env.throws = none) (owner : Option Ptr) (a : Access) :
    Returns (Owners owner) (Service.viaPeripheral owner fun p s => Peripheral.access env p s a) := by
  have hthrows : ∀ site, env.throws = some site → ∀ w, Owners owner w → False := by
    intro site hsite
    rw [h] at hsite
    cases hsite
  have hcall : ∀ call, Returns (Owners owner) (callBackend env call) := fun call =>
    callBackend_triple (fun _ hw => hw) hthrows fun _ _ _ _ _ hw => hw
  rintro w ⟨s, S, p, P, rfl, hS, hp, hP⟩
  rw [viaPeripheral_run env a hS hp hP]
  exact hcall _ w ⟨s, S, p, P, rfl, hS, hp, hP⟩

theorem Characteristic.construct_returns (h : env.throws = none)
    {value : SimpleBLE.Characteristic} (hnames : ∀ name ∈ value.capabilities, name ∈ capabilityNames)
    (owner : Option Ptr) : Returns (Owners owner) (Characteristic.construct env value owner) := by
  have hflags : ∀ names : List String, (∀ name ∈ names, name ∈ capabilityNames) →
      Returns (Owners owner) (capabilityFlags names) := by
    intro names hnames
    induction names with
    | nil => exact Program.Triple.skip ()
    | cons name names ih =>
        rw [List.forall_mem_cons] at hnames
        exact Program.Triple.ite (fun _ => ih hnames.2) fun hname => absurd hnames.1 hname
  refine Program.Triple.bind (R := fun _ => Owners owner) (Program.Triple.act fun _ hw => hw)
    fun this => ?_
  refine Program.Triple.bind (backend_returns h _) fun _ => ?_
  refine Program.Triple.bind (newObject_triple fun _ _ hw => hw) fun self => ?_
  refine Program.Triple.bind (backend_returns h _) fun _ => ?_
  refine Program.Triple.bind (hflags _ hnames) fun _ => ?_
  refine Program.Triple.bind (Program.Triple.when fun _ => subscribe_returns h owner _) fun _ => ?_
  refine Program.Triple.bind (Program.Triple.when fun _ => subscribe_returns h owner _) fun _ => ?_
  refine Program.Triple.bind (R := fun _ => Owners owner) ?_ fun _ => Program.Triple.skip this
  exact Program.Triple.modify fun _ hw => hw

/-- The registry is there, and `Q` holds of its owner. -/
def Ready (lvl : Level) (r : RegistryPtr) (Q : Option Ptr → World → Prop) (w : World) : Prop :=
  ∃ R, w.registryAt? lvl r = some R ∧ Q R.owner w

/-- A fetch returns if the constructor does. -/
theorem fetch_returns {f : Fetch} {Q : Option Ptr → World → Prop} (hquiet : f.env.Quiet)
    (hconstruct : ∀ owner, Returns (Q owner) (f.value.construct H f.env owner))
    (hemplace : ∀ owner w lvl r g, Q owner w → Q owner (w.modifyRegistry lvl r g)) :
    Returns (Ready f.value.level f.registry Q) (f.prog H) := by
  rintro w ⟨R, hR, hQ⟩
  rw [fetch_run H hR, if_neg (by rw [hquiet.1]; exact Option.some_ne_none _ ∘ Eq.symm)]
  cases hentry : R.entries[f.value.key]? with
  | some p => exact ⟨R, hR, hQ⟩
  | none =>
      dsimp only
      rw [if_neg (by rw [hquiet.2]; exact Bool.false_ne_true)]
      have hreturns := hconstruct R.owner w hQ
      have hext := construct_extends H f.env f.value R.owner w (Extends.refl w)
      revert hreturns hext
      rcases (f.value.construct H f.env R.owner).run w with ⟨_ | p, w₁⟩
      · exact fun hfalse _ => hfalse
      · rintro hQ₁ ⟨hext, -⟩
        exact ⟨_, registryAt?_emplace (hext.registry _ _ R hR), hemplace _ _ _ _ _ hQ₁⟩

theorem mapToObjects_returns {values : List (Value × Env)} {Q : Option Ptr → World → Prop}
    (hlvl : ∀ v ∈ values, v.1.level = lvl) (hquiet : ∀ v ∈ values, v.2.Quiet)
    (hconstruct : ∀ v ∈ values, ∀ owner, Returns (Q owner) (v.1.construct H v.2 owner))
    (hemplace : ∀ owner w lvl r g, Q owner w → Q owner (w.modifyRegistry lvl r g)) :
    Returns (Ready lvl r Q) (mapToObjects H r values) := by
  induction values with
  | nil => exact Program.Triple.skip []
  | cons v values ih =>
      rw [List.forall_mem_cons] at hlvl hquiet hconstruct
      obtain ⟨rfl, hlvl⟩ := hlvl
      refine Program.Triple.bind (fetch_returns (f := ⟨r, v.1, v.2⟩) hquiet.1 hconstruct.1 hemplace)
        fun p => ?_
      exact Program.Triple.bind (ih hlvl hquiet.2 hconstruct.2) fun ps => Program.Triple.skip _

theorem listing_returns {q : Query} {values : List (Value × Env)} {Q : Option Ptr → World → Prop}
    (h : env.throws = none) (hfetches : Returns (Ready lvl r Q) (mapToObjects H r values))
    (hquery : ∀ owner w qs, Q owner w → Q owner { w with queries := qs }) :
    Returns (Ready lvl r Q) (listing H env q lvl r values) := by
  refine Program.Triple.bind (R := fun _ => Ready lvl r Q) ?_ fun _ => ?_
  · refine Program.Triple.bind (R := fun _ => Ready lvl r Q) ?_ fun _ => backend_returns h _
    refine Program.Triple.modify ?_
    rintro w ⟨R, hR, hQ⟩
    exact ⟨R, hR, hquery R.owner w _ hQ⟩
  refine Program.Triple.bind hfetches fun _ => ?_
  rintro w ⟨R, hR, hQ⟩
  rw [Program.run_bind_ok (registryAt_run hR)]
  exact ⟨R, hR, hQ⟩

end Returns

/-! ## A miss -/

/-- How a lookup ends that finds its key in what a listing returns, or does not. -/
def LookupResult.ofListing (uuid : BluetoothUUID) :
    Except Error (Std.TreeMap String Ptr) → LookupResult Ptr
  | .ok m =>
      match m[uuid]? with
      | some p => .found p
      | none => .missing
  | .error e => .failed e

/-- A lookup of what is not there, which lists everything, is read-through. -/
theorem ReadThrough.of_listing {H : Hashes} {env : Env} {w : World} {lvl : Level}
    {r : RegistryPtr} {q : Query} {values : List (Value × Env)} {uuid : BluetoothUUID}
    {isFor : Ptr → World → Prop} {answers : Prop} (h : (bindingsSystem H).Reachable w)
    (hne : lvl ≠ .peripheral) (hlvl : ∀ v ∈ values, v.1.level = lvl)
    (hnone : w.lookup lvl r uuid = none)
    (hfor : ∀ v ∈ values, v.1.key = uuid → ∀ owner p w', BuiltFrom w' owner p v.1 → isFor p w')
    (hreturns : answers → ∃ m w', (listing H env q lvl r values).run w = (.ok m, w')) :
    ReadThrough none uuid (values.map (·.1.key)) q isFor answers w
      (.ofListing uuid ((listing H env q lvl r values).run w).1)
      ((listing H env q lvl r values).run w).2 := by
  have hqueries : ((listing H env q lvl r values).run w).2.queries = w.queries ++ [q] :=
    listing_queries q values
  rcases hm : (listing H env q lvl r values).run w with ⟨e | m, w'⟩
  · rw [hm] at hqueries
    refine ReadThrough.of_failed hqueries fun hanswers => ?_
    obtain ⟨m, w'', hm'⟩ := hreturns hanswers
    rw [hm'] at hm
    cases hm
  · rw [hm] at hqueries
    obtain ⟨hfound, hmissing⟩ := listing_lookup h hne hlvl hnone hm
    rw [LookupResult.ofListing]
    cases hentry : m[uuid]? with
    | some p =>
        obtain ⟨v, hv, hkey, owner, hbuilt⟩ := hfound p hentry
        exact ReadThrough.of_found hqueries (List.mem_map.2 ⟨v, hv, hkey⟩)
          (hfor v hv hkey owner p w' hbuilt)
    | none =>
        refine ReadThrough.of_missing hqueries fun hmem => ?_
        obtain ⟨v, hv, hkey⟩ := List.mem_map.1 hmem
        exact hmissing hentry v hv hkey

/-! ## Peripherals -/

section Peripherals

variable {H : Hashes} {env : Env} {w w' : World} {this : Ptr} {P : Peripheral}
  {uuid : BluetoothUUID} {report : List (SimpleBLE.Service × Env)}

/-- What a peripheral does, on a hit and on a miss: it fetches all its services. -/
theorem Peripheral.index_run (hP : w.peripherals.get? this = some P)
    (hR : w.Has .service P.serviceRegistry) (hgc : env.duringGc = false) :
    (Peripheral.index H env this uuid report).run w =
      match (Peripheral.services H env this report).run w with
      | (.ok m, w') => (.ok m[uuid]?, w')
      | (.error e, w') => (.error e, w') := by
  obtain ⟨R, hR⟩ := hR
  rw [Peripheral.index]
  rcases hservices : (Peripheral.services H env this report).run w with ⟨e | m, w'⟩
  · -- an exception of the backend is not an `out_of_range`, and goes through
    rw [Program.run_catching_error (e := e) (t := w')]
    · rw [services_eq hP hgc] at hservices
      cases e with
      | outOfRange => exact absurd rfl (listing_inRange _ _ _ _ w w' _ hservices)
      | _ => rfl
    · rw [Program.run_bind_ok (deref_run hP), Program.run_bind_ok (registryAt_run hR), Program.when,
        RegistryPtr.isSet, Bool.true_or, if_pos rfl]
      refine Program.run_bind_error ?_
      exact Program.run_bind_error hservices
  · have hlist := hservices
    rw [services_eq hP hgc] at hlist
    obtain ⟨R', hR', rfl⟩ := (listing_run (services_level report) hlist).1
    have hwhen : (Program.when (P.serviceRegistry.isSet || !R.entries.contains uuid) do
        let _ ← Peripheral.services H env this report : Prog Unit).run w = (.ok (), w') := by
      rw [Program.when, RegistryPtr.isSet, Bool.true_or, if_pos rfl]
      exact Program.run_bind_ok hservices
    cases hentry : R'.entries[uuid]? with
    | some p =>
        refine Program.run_catching_ok ?_
        rw [Program.run_bind_ok (deref_run hP), Program.run_bind_ok (registryAt_run hR),
          Program.run_bind_ok hwhen, Program.run_bind_ok (registryAt_run hR'), hentry]
        rfl
    | none =>
        rw [Program.run_catching_error (e := .outOfRange) (t := w')]
        · dsimp only [outOfRangeCaught]
          rw [hentry]
        · rw [Program.run_bind_ok (deref_run hP), Program.run_bind_ok (registryAt_run hR),
            Program.run_bind_ok hwhen, Program.run_bind_ok (registryAt_run hR'), hentry]
          rfl

/-- **A peripheral is read-through** only for what is not there: it asks the
backend each time. -/
theorem Peripheral.readThrough (h : (bindingsSystem H).Reachable w)
    (hP : w.peripherals.get? this = some P) (hgc : env.duringGc = false) :
    Peripheral.ReadThrough H env w this P uuid report ↔
      w.lookup .service P.serviceRegistry uuid = none := by
  have hR := (registriesMade h).peripherals this P hP
  have hindex : LookupResult.ofPtr ((Peripheral.index H env this uuid report).run w).1 =
      .ofListing uuid ((Peripheral.services H env this report).run w).1 ∧
      ((Peripheral.index H env this uuid report).run w).2 =
        ((Peripheral.services H env this report).run w).2 := by
    rw [Peripheral.index_run hP hR hgc]
    rcases (Peripheral.services H env this report).run w with ⟨e | m, w'⟩
    · exact ⟨rfl, rfl⟩
    · refine ⟨?_, rfl⟩
      rw [LookupResult.ofListing]
      dsimp only
      cases m[uuid]? <;> rfl
  rw [Peripheral.ReadThrough, hindex.1, hindex.2, services_eq hP hgc]
  constructor
  · intro hread
    cases hcached : w.lookup .service P.serviceRegistry uuid with
    | none => rfl
    | some p =>
        have hqueries := (hread.hit p hcached).2
        rw [listing_queries] at hqueries
        simp at hqueries
  · intro hnone
    rw [hnone, show report.map (·.1.uuid) =
      (report.map fun v => (Value.service v.1, v.2)).map (·.1.key) by rw [List.map_map]; rfl]
    refine ReadThrough.of_listing h (by decide) (services_level report) hnone ?_ ?_
    · intro v hv hkey owner p w' hbuilt
      obtain ⟨u, -, rfl⟩ := List.mem_map.1 hv
      obtain ⟨S, hS, -, huuid, -⟩ := hbuilt
      exact ⟨S, hS, huuid.trans hkey⟩
    · rintro ⟨hquiet, hreport⟩
      obtain ⟨R, hR⟩ := hR
      have hfetches : Returns (Ready .service P.serviceRegistry fun _ _ => True)
          (mapToObjects H P.serviceRegistry (report.map fun v => (.service v.1, v.2))) := by
        refine mapToObjects_returns (services_level report) (List.forall_mem_map.2 hreport) ?_
          fun _ _ _ _ _ _ => trivial
        exact List.forall_mem_map.2 fun v hv owner =>
          Service.construct_returns (hreport v hv).1 v.1 owner
      exact (listing_returns hquiet.1 hfetches fun _ _ _ _ => trivial).run ⟨R, hR, trivial⟩

end Peripherals

/-! ## Services -/

section Services

variable {H : Hashes} {env : Env} {w w' : World} {this : Ptr} {S : Service}
  {uuid : BluetoothUUID} {report : List (SimpleBLE.Characteristic × Env)}

/-- A hit: the proxy is returned, and nothing else happens. -/
theorem Service.index_run_hit {R : Registry} {p : Ptr} (hS : w.services.get? this = some S)
    (hR : w.registryAt? .characteristic S.characteristicRegistry = some R)
    (hp : R.entries[uuid]? = some p) :
    (Service.index H env this uuid report).run w = (.ok p, w) := by
  have hcontains : R.entries.contains uuid = true := by
    rw [Std.TreeMap.contains_eq_isSome_getElem?, hp]
    rfl
  rw [Service.index, Program.run_bind_ok (deref_run hS), Program.run_bind_ok (registryAt_run hR),
    hcontains, Program.when, if_neg (by decide), Program.run_bind_ok (Program.run_pure () w),
    Program.run_bind_ok (registryAt_run hR), hp]
  rfl

/-- A miss: all characteristics are fetched, and what is missing then is not found. -/
theorem Service.index_run_miss {R : Registry} (hS : w.services.get? this = some S)
    (hR : w.registryAt? .characteristic S.characteristicRegistry = some R)
    (hnone : R.entries[uuid]? = none) (hgc : env.duringGc = false) :
    let final := (Service.index H env this uuid report).run w
    let listed := (Service.characteristics H env this report).run w
    LookupResult.ofAt final.1 = .ofListing uuid listed.1 ∧ final.2 = listed.2 := by
  intro final listed
  have hcontains : R.entries.contains uuid = false := by
    rw [Std.TreeMap.contains_eq_isSome_getElem?, hnone]
    rfl
  have hfinal : final = (Service.index H env this uuid report).run w := rfl
  rw [Service.index, Program.run_bind_ok (deref_run hS), Program.run_bind_ok (registryAt_run hR),
    hcontains, Program.when, if_pos (by decide)] at hfinal
  have hlisted : (Service.characteristics H env this report).run w = listed := rfl
  rcases hl : listed with ⟨e | m, w'⟩
  · rw [hl] at hlisted
    rw [Program.run_bind_error (Program.run_bind_error hlisted)] at hfinal
    rw [hfinal]
    rw [characteristics_eq hS hgc] at hlisted
    cases e with
    | outOfRange => exact absurd rfl (listing_inRange _ _ _ _ w w' _ hlisted)
    | _ => exact ⟨rfl, rfl⟩
  · rw [hl] at hlisted
    have hlist := hlisted
    rw [characteristics_eq hS hgc] at hlist
    obtain ⟨R', hR', rfl⟩ := (listing_run (characteristics_level report) hlist).1
    have hdone : ((do
        let _ ← Service.characteristics H env this report) : Prog Unit).run w = (.ok (), w') :=
      Program.run_bind_ok hlisted
    rw [Program.run_bind_ok hdone, Program.run_bind_ok (registryAt_run hR')] at hfinal
    rw [hfinal]
    cases hentry : R'.entries[uuid]? with
    | some p => exact ⟨by rw [LookupResult.ofListing, hentry]; rfl, rfl⟩
    | none => exact ⟨by rw [LookupResult.ofListing, hentry]; rfl, rfl⟩

/-- **A service is read-through.** -/
theorem Service.readThrough (h : (bindingsSystem H).Reachable w)
    (hS : w.services.get? this = some S) (hgc : env.duringGc = false) :
    Service.ReadThrough H env w this S uuid report := by
  obtain ⟨R, hR⟩ := (registriesMade h).services this S hS
  have hlookup : w.lookup .characteristic S.characteristicRegistry uuid = R.entries[uuid]? := by
    rw [World.lookup, hR]
    rfl
  rw [Service.ReadThrough]
  cases hentry : R.entries[uuid]? with
  | some p =>
      rw [hlookup, hentry, Service.index_run_hit hS hR hentry]
      exact ReadThrough.of_hit
  | none =>
      obtain ⟨hresult, hfinal⟩ := Service.index_run_miss (H := H) hS hR hentry hgc
      rw [hlookup, hentry, hresult, hfinal, characteristics_eq hS hgc,
        show report.map (·.1.uuid) =
          (report.map fun v => (Value.characteristic v.1, v.2)).map (·.1.key) by
            rw [List.map_map]; rfl]
      refine ReadThrough.of_listing h (by decide) (characteristics_level report)
        (hlookup.trans hentry) ?_ ?_
      · intro v hv hkey owner p w' hbuilt
        obtain ⟨u, -, rfl⟩ := List.mem_map.1 hv
        obtain ⟨C, hC, -, huuid, -⟩ := hbuilt
        exact ⟨C, hC, huuid.trans hkey⟩
      · rintro ⟨hquiet, hreport, howners⟩
        have hfetches : Returns (Ready .characteristic S.characteristicRegistry Owners)
            (mapToObjects H S.characteristicRegistry
              (report.map fun v => (.characteristic v.1, v.2))) := by
          refine mapToObjects_returns (characteristics_level report)
            (List.forall_mem_map.2 fun v hv => (hreport v hv).1) ?_ fun _ _ _ _ _ hw => hw
          exact List.forall_mem_map.2 fun v hv owner =>
            Characteristic.construct_returns (hreport v hv).1.1 (hreport v hv).2 owner
        exact (listing_returns hquiet.1 hfetches fun _ _ _ hw => hw).run ⟨R, hR, howners R hR⟩

end Services

/-! ## Characteristics -/

section Characteristics

variable {env : Env} {w w' : World} {this : Ptr} {C : Characteristic} {uuid : BluetoothUUID}
  {report : List BluetoothUUID}

/-- `make_map` holds a descriptor for each UUID of the report. -/
theorem Descriptor.makeMap_run (owner : Ptr) (w : World) (report : List BluetoothUUID)
    (result : Std.TreeMap String Descriptor)
    (hresult : ∀ (key : String) (d : Descriptor), result[key]? = some d → d.uuid = key) :
    ∃ ds n, (Descriptor.makeMap owner result report).run w = (.ok ds, { w with nextObject := n }) ∧
      (∀ (key : String) (d : Descriptor), ds[key]? = some d → d.uuid = key) ∧
      ∀ uuid, uuid ∈ ds ↔ uuid ∈ result ∨ uuid ∈ report := by
  induction report generalizing w result with
  | nil => exact ⟨result, w.nextObject, rfl, hresult, fun uuid => by simp⟩
  | cons u report ih =>
      obtain ⟨ds, n, hrun, huuid, hmem⟩ := ih { w with nextObject := w.nextObject + 1 }
        (result.insertIfNew u { uuid := u, owner, self := w.nextObject }) (by
          intro key d hd
          rcases getElem?_insertIfNew_cases hd with ⟨rfl, rfl⟩ | hd
          · rfl
          · exact hresult key d hd)
      refine ⟨ds, n, hrun, huuid, fun uuid => ?_⟩
      rw [hmem, Std.TreeMap.mem_insertIfNew, List.mem_cons, Std.compare_eq_iff_eq]
      tauto

theorem query_run_error {q : Query} (h : env.throws = some .query) :
    (query env q).run w = (.error (.backend .query), { w with queries := w.queries ++ [q] }) := by
  rw [query, Program.run_bind_ok (Program.run_modify _ w), backend, if_pos h]
  rfl

theorem query_run_ok {q : Query} (h : env.throws ≠ some .query) :
    (query env q).run w = (.ok (), { w with queries := w.queries ++ [q] }) := by
  rw [query, Program.run_bind_ok (Program.run_modify _ w), backend, if_neg h]
  rfl

/-- The first call asks the backend, unless that throws, and keeps the answer. -/
theorem Characteristic.getDescriptors_run (hC : w.characteristics.get? this = some C)
    (hnone : C.descriptors = none) (h : env.throws ≠ some .query) :
    ∃ ds w', (Characteristic.getDescriptors env this report).run w = (.ok ds, w') ∧
      w'.queries = w.queries ++ [.descriptors this] ∧
      w'.characteristics.get? this = some { C with descriptors := some ds } ∧
      (∀ (key : String) (d : Descriptor), ds[key]? = some d → d.uuid = key) ∧
      ∀ uuid, uuid ∈ ds ↔ uuid ∈ report := by
  obtain ⟨ds, n, hrun, huuid, hmem⟩ := Descriptor.makeMap_run this
    { w with queries := w.queries ++ [.descriptors this] } report ∅ (by simp)
  refine ⟨ds, World.updateCharacteristic
      { w with queries := w.queries ++ [.descriptors this], nextObject := n } this
      fun C => { C with descriptors := some ds },
    ?_, ?_, ?_, huuid, fun uuid => by simpa using hmem uuid⟩
  · rw [Characteristic.getDescriptors, Program.run_bind_ok (deref_run hC), hnone,
      Program.run_bind_ok (query_run_ok h), Program.run_bind_ok hrun]
    rfl
  · rfl
  · show (w.characteristics.update this _).get? this = _
    rw [Heap.get?_update, if_pos rfl, hC]
    rfl

/-- A hit: the descriptor is returned, and nothing else happens. -/
theorem Characteristic.index_run_hit {ds : Std.TreeMap String Descriptor} {d : Descriptor}
    (hC : w.characteristics.get? this = some C) (hds : C.descriptors = some ds)
    (hd : ds[uuid]? = some d) : (Characteristic.index env this uuid report).run w = (.ok d, w) := by
  have hcontains : ds.contains uuid = true := by
    rw [Std.TreeMap.contains_eq_isSome_getElem?, hd]
    rfl
  rw [Characteristic.index, Program.run_bind_ok (deref_run hC), hds, Program.when,
    if_neg (by simp [hcontains]), Program.run_bind_ok (Program.run_pure () w),
    Program.run_bind_ok (deref_run hC), hds,
    Program.run_bind_ok (show (Program.orThrow Error.badPointer (some ds)).run w = (.ok ds, w) from rfl),
    hd]
  rfl

/-- Once there are descriptors the backend is not asked for those that are missing. -/
theorem Characteristic.index_run_stale {ds : Std.TreeMap String Descriptor}
    (hC : w.characteristics.get? this = some C) (hds : C.descriptors = some ds)
    (hnone : ds[uuid]? = none) :
    (Characteristic.index env this uuid report).run w = (.error .outOfRange, w) := by
  have hcontains : ds.contains uuid = false := by
    rw [Std.TreeMap.contains_eq_isSome_getElem?, hnone]
    rfl
  have hdone : ((do
      let _ ← Characteristic.getDescriptors env this report) : Prog Unit).run w = (.ok (), w) := by
    refine Program.run_bind_ok (a := ds) ?_
    rw [Characteristic.getDescriptors, Program.run_bind_ok (deref_run hC), hds]
    rfl
  rw [Characteristic.index, Program.run_bind_ok (deref_run hC), hds, Program.when,
    if_pos (by simp [hcontains]), Program.run_bind_ok hdone,
    Program.run_bind_ok (deref_run hC), hds,
    Program.run_bind_ok (show (Program.orThrow Error.badPointer (some ds)).run w = (.ok ds, w) from rfl),
    hnone]
  rfl

/-- The first lookup asks the backend. -/
theorem Characteristic.readThrough_first (hC : w.characteristics.get? this = some C)
    (hnone : C.descriptors = none) :
    Characteristic.ReadThrough env w this C uuid report := by
  rw [Characteristic.ReadThrough, hnone]
  by_cases hthrows : env.throws = some .query
  · have hindex : (Characteristic.index env this uuid report).run w =
        (.error (.backend .query), { w with queries := w.queries ++ [.descriptors this] }) := by
      rw [Characteristic.index, Program.run_bind_ok (deref_run hC), hnone, Program.when,
        if_pos (by simp)]
      refine Program.run_bind_error (Program.run_bind_error ?_)
      rw [Characteristic.getDescriptors, Program.run_bind_ok (deref_run hC), hnone]
      exact Program.run_bind_error (query_run_error hthrows)
    rw [hindex]
    refine ReadThrough.of_failed rfl fun hquiet => ?_
    rw [hquiet.1] at hthrows
    cases hthrows
  · obtain ⟨ds, w', hdone, hqueries, hC', huuid, hmem⟩ :=
      getDescriptors_run hC hnone hthrows
    have hasked : ((do
        let _ ← Characteristic.getDescriptors env this report) : Prog Unit).run w = (.ok (), w') :=
      Program.run_bind_ok hdone
    have hindex : (Characteristic.index env this uuid report).run w =
        (Program.orThrow .outOfRange ds[uuid]?).run w' := by
      rw [Characteristic.index, Program.run_bind_ok (deref_run hC), hnone, Program.when,
        if_pos (by simp), Program.run_bind_ok hasked, Program.run_bind_ok (deref_run hC')]
      rfl
    rw [hindex]
    cases hd : ds[uuid]? with
    | some d =>
        refine ReadThrough.of_found hqueries ?_ (huuid uuid d hd)
        rw [← hmem, Std.TreeMap.mem_iff_isSome_getElem?, hd]
        rfl
    | none =>
        refine ReadThrough.of_missing hqueries ?_
        rw [← hmem, Std.TreeMap.mem_iff_isSome_getElem?, hd]
        exact Bool.false_ne_true

/-- **A characteristic is read-through** the first time, and for what it found then. -/
theorem Characteristic.readThrough (hC : w.characteristics.get? this = some C) :
    Characteristic.ReadThrough env w this C uuid report ↔
      C.descriptors = none ∨ (C.descriptors.bind (·[uuid]?)).isSome := by
  cases hds : C.descriptors with
  | none => exact ⟨fun _ => .inl rfl, fun _ => readThrough_first hC hds⟩
  | some ds =>
      rw [Option.bind_some]
      cases hd : ds[uuid]? with
      | some d =>
          refine ⟨fun _ => .inr rfl, fun _ => ?_⟩
          rw [Characteristic.ReadThrough, index_run_hit hC hds hd, hds, Option.bind_some, hd]
          exact ReadThrough.of_hit
      | none =>
          constructor
          · intro hread
            rw [Characteristic.ReadThrough, index_run_stale hC hds hd, hds, Option.bind_some, hd]
              at hread
            have hqueries := hread.once rfl
            simp at hqueries
          · rintro (⟨⟨⟩⟩ | ⟨⟨⟩⟩)

end Characteristics

/-! ## At all three levels -/

/-- Owners are there after a run without constructors that fail half way and
without clears of what is pointed to. -/
theorem owners_of_careful {H : Hashes} {as : List Action} {w : World} {r : RegistryPtr}
    {R : Registry} (hok : (bindingsSystem H).Meets (Careful H) World.init as)
    (hrun : (bindingsSystem H).run as = some w) (hR : w.registryAt? .characteristic r = some R) :
    Owners R.owner w := by
  have hsafe : Safe w := safe_of_careful hok hrun
  exact hsafe.chain (.inl rfl : _ ∨ none = some (Level.characteristic, 0)) hR

/-- **When lookups are read-through**, after any run.  A peripheral asks the
backend for services that are there as well, and a characteristic does not ask
it for descriptors that were not there the first time. -/
theorem readThrough_iff (H : Hashes) (as : List Action) (w : World)
    (hrun : (bindingsSystem H).run as = some w) (env : Env) (hgc : env.duringGc = false)
    (this : Ptr) (uuid : BluetoothUUID) :
    (∀ P report, w.peripherals.get? this = some P →
      (Peripheral.ReadThrough H env w this P uuid report ↔
        w.lookup .service P.serviceRegistry uuid = none)) ∧
    (∀ S report, w.services.get? this = some S →
      Service.ReadThrough H env w this S uuid report) ∧
    (∀ C report, w.characteristics.get? this = some C →
      (Characteristic.ReadThrough env w this C uuid report ↔
        C.descriptors = none ∨ (C.descriptors.bind (·[uuid]?)).isSome)) := by
  have h : (bindingsSystem H).Reachable w := System.reachable_of_run hrun
  refine ⟨fun P report hP => ?_, fun S report hS => ?_, fun C report hC => ?_⟩
  · exact Peripheral.readThrough h hP hgc
  · exact Service.readThrough h hS hgc
  · exact Characteristic.readThrough hC

/-- A battery service, its level, and the one descriptor this has at first. -/
def descriptorsRead : List Action :=
  [.fetch ⟨0, .adapter ⟨0, "00:00:00:00:00:01"⟩, {}⟩,
   .fetch ⟨0, .peripheral ⟨0, "00:00:00:00:00:0a", .publicAddress⟩, {}⟩,
   .fetch ⟨0, .service ⟨"180f", []⟩, {}⟩,
   .fetch ⟨0, .characteristic ⟨"2a19", ["read"]⟩, {}⟩,
   .descriptors 0 ["2902"] {}]

theorem descriptorsRead_cached : ((bindingsSystem sampleHashes).run descriptorsRead).map (fun w =>
    ((w.peripherals.get? 0).map fun P => (w.lookup .service P.serviceRegistry "180f",
        w.lookup .service P.serviceRegistry "180a"),
      (w.services.get? 0).isSome,
      (w.characteristics.get? 0).map fun C => (C.descriptors.isSome,
        (C.descriptors.bind (·["2902"]?)).isSome, (C.descriptors.bind (·["2904"]?)).isSome))) =
    some (some (some 0, none), true, some (true, true, false)) := by
  decide +kernel

theorem readThrough_iff_descriptorsRead :
    ∃ w, (bindingsSystem sampleHashes).run descriptorsRead = some w ∧
      (∃ P, w.peripherals.get? 0 = some P ∧ ∀ report,
        ¬ Peripheral.ReadThrough sampleHashes {} w 0 P "180f" report ∧
          Peripheral.ReadThrough sampleHashes {} w 0 P "180a" report) ∧
      (∃ S, w.services.get? 0 = some S ∧ ∀ report,
        Service.ReadThrough sampleHashes {} w 0 S "2a19" report) ∧
      (∃ C, w.characteristics.get? 0 = some C ∧ ∀ report,
        Characteristic.ReadThrough {} w 0 C "2902" report ∧
          ¬ Characteristic.ReadThrough {} w 0 C "2904" report) := by
  obtain ⟨w, hrun, hw⟩ := Option.map_eq_some_iff.1 descriptorsRead_cached
  obtain ⟨hP, hw⟩ := Prod.mk.inj hw
  obtain ⟨hS, hC⟩ := Prod.mk.inj hw
  obtain ⟨P, hP, hlookup⟩ := Option.map_eq_some_iff.1 hP
  obtain ⟨S, hS⟩ := Option.isSome_iff_exists.1 hS
  obtain ⟨C, hC, hds⟩ := Option.map_eq_some_iff.1 hC
  obtain ⟨hbattery, hdevice⟩ := Prod.mk.inj hlookup
  obtain ⟨hsome, hds⟩ := Prod.mk.inj hds
  obtain ⟨h2902, h2904⟩ := Prod.mk.inj hds
  have hiff := readThrough_iff sampleHashes descriptorsRead w hrun {} rfl 0
  refine ⟨w, hrun, ⟨P, hP, fun report => ⟨fun hread => ?_, ?_⟩⟩, ⟨S, hS, fun report => ?_⟩,
    ⟨C, hC, fun report => ⟨?_, fun hread => ?_⟩⟩⟩
  · rw [((hiff "180f").1 P report hP).1 hread] at hbattery
    cases hbattery
  · exact ((hiff "180a").1 P report hP).2 hdevice
  · exact (hiff "2a19").2.1 S report hS
  · exact ((hiff "2902").2.2 C report hC).2 (.inr h2902)
  · rcases ((hiff "2904").2.2 C report hC).1 hread with hnone | hsome
    · rw [hnone] at hsome
      cases hsome
    · rw [h2904] at hsome
      cases hsome

/-- Neither peripherals nor characteristics are always read-through. -/
theorem not_readThrough_descriptorsRead :
    (¬ ∀ (H : Hashes) (as : List Action) (w : World) (env : Env) (this : Ptr) (P : Peripheral)
      (uuid : BluetoothUUID) (report : List (SimpleBLE.Service × Env)),
      (bindingsSystem H).run as = some w → env.duringGc = false →
      w.peripherals.get? this = some P → Peripheral.ReadThrough H env w this P uuid report) ∧
    ¬ ∀ (H : Hashes) (as : List Action) (w : World) (env : Env) (this : Ptr) (C : Characteristic)
      (uuid : BluetoothUUID) (report : List BluetoothUUID),
      (bindingsSystem H).run as = some w → env.duringGc = false →
      w.characteristics.get? this = some C → Characteristic.ReadThrough env w this C uuid report := by
  obtain ⟨w, hrun, hw⟩ := Option.map_eq_some_iff.1 descriptorsRead_cached
  obtain ⟨hP, hw⟩ := Prod.mk.inj hw
  obtain ⟨-, hC⟩ := Prod.mk.inj hw
  constructor
  · intro hall
    obtain ⟨P, hP, hlookup⟩ := Option.map_eq_some_iff.1 hP
    have hread := hall sampleHashes descriptorsRead w {} 0 P "180f" [] hrun rfl hP
    rw [Peripheral.readThrough (System.reachable_of_run hrun) hP rfl] at hread
    rw [hread] at hlookup
    cases hlookup
  · intro hall
    obtain ⟨C, hC, hds⟩ := Option.map_eq_some_iff.1 hC
    obtain ⟨hsome, hds⟩ := Prod.mk.inj hds
    obtain ⟨-, h2904⟩ := Prod.mk.inj hds
    -- the report now has the descriptor, and nobody asks for it
    have hread := hall sampleHashes descriptorsRead w {} 0 C "2904" ["2902", "2904"] hrun rfl hC
    rcases (Characteristic.readThrough hC).1 hread with hnone | hnew
    · rw [hnone] at hsome
      cases hsome
    · rw [h2904] at hnew
      cases hnew

end RuBLE
