import Mathlib
import RuBLE.Library.System

/-!
# Registries and the factories that hand them out

The model of `management/RegistryFactory.hpp`, with what it uses of
`management/Registry.hpp` and `utils/hash.cpp`.  A factory keeps its registries
in a map keyed by a hash of their owner.

* `hashAdapter`, `hashPeripheral`, `hashService` — the hashers of the three
  kinds of owner, over whatever `std::hash<std::string>` is.
* `RegistryFactory.registry` — the lookup, which creates a registry when the
  index is not in the map.
* `perOwner_iff` — **one registry per owner**, precisely as long as the owners
  it is called on have different hashes.
* `hashService_eq_iff` — the hash of a service sees only its UUID, and loses the
  two leading bits of that.
-/

namespace RuBLE

open Transition

/-! ## The handles of the backend -/

/-- `SimpleBLE::BluetoothAddress`. -/
abbrev BluetoothAddress := String

/-- `SimpleBLE::BluetoothUUID`. -/
abbrev BluetoothUUID := String

/-- `SimpleBLE::BluetoothAddressType`. -/
inductive BluetoothAddressType where
  | publicAddress
  | randomAddress
  | unspecified
  deriving DecidableEq, Repr

namespace SimpleBLE

/-- A handle of an adapter of the backend. -/
structure Adapter where
  /-- Which adapter of the backend it is a handle of. -/
  backend : Nat
  address : BluetoothAddress
  deriving DecidableEq, Repr

/-- A handle of a peripheral of the backend. -/
structure Peripheral where
  /-- Which peripheral of the backend it is a handle of. -/
  backend : Nat
  address : BluetoothAddress
  addressType : BluetoothAddressType := .publicAddress
  deriving DecidableEq, Repr

/-- A service as the backend reports it. -/
structure Service where
  uuid : BluetoothUUID
  data : List UInt8 := []
  deriving DecidableEq, Repr

/-- A characteristic as the backend reports it. -/
structure Characteristic where
  uuid : BluetoothUUID
  capabilities : List String := []
  deriving DecidableEq, Repr

end SimpleBLE

/-! ## Hashes -/

/-- What the hashers are built from: `std::hash<std::string>`, and the
`typeid(..).hash_code()` of each class. -/
structure Hashes where
  string : String → UInt64
  typeSimpleBLEAdapter : UInt64
  typeAdapter : UInt64
  typeSimpleBLEPeripheral : UInt64
  typePeripheral : UInt64
  typeSimpleBLEService : UInt64
  typeService : UInt64

/-- FNV-1a, which is `std::hash<std::string>` in some standard libraries. -/
def fnv1a (s : String) : UInt64 :=
  s.toList.foldl (fun h c => (h ^^^ c.toNat.toUInt64) * 1099511628211) 14695981039346656037

/-- Hashes to run examples with. -/
def sampleHashes : Hashes := ⟨fnv1a, 11, 12, 13, 14, 15, 16⟩

/-- `h1 ^ (h2 << 1)`, which every hasher ends with. -/
def hashCombine (h1 h2 : UInt64) : UInt64 := h1 ^^^ (h2 <<< 1)

section Hashers

variable (H : Hashes)

/-- `std::hash<SimpleBLE::Adapter>`. -/
def hashSimpleBLEAdapter (a : SimpleBLE.Adapter) : UInt64 :=
  hashCombine H.typeSimpleBLEAdapter (H.string a.address)

/-- `std::hash<RuBLE::Adapter>`, of the proxy with this handle. -/
def hashAdapter (a : SimpleBLE.Adapter) : UInt64 :=
  hashCombine H.typeAdapter (hashSimpleBLEAdapter H a)

/-- `std::hash<SimpleBLE::Peripheral>`. -/
def hashSimpleBLEPeripheral (p : SimpleBLE.Peripheral) : UInt64 :=
  hashCombine H.typeSimpleBLEPeripheral (H.string p.address)

/-- `std::hash<RuBLE::Peripheral>`, of the proxy with this handle. -/
def hashPeripheral (p : SimpleBLE.Peripheral) : UInt64 :=
  hashCombine H.typePeripheral (hashSimpleBLEPeripheral H p)

/-- `std::hash<SimpleBLE::Service>`. -/
def hashSimpleBLEService (s : SimpleBLE.Service) : UInt64 :=
  hashCombine H.typeSimpleBLEService (H.string s.uuid)

/-- `std::hash<RuBLE::Service>`, of the proxy with this handle. -/
def hashService (s : SimpleBLE.Service) : UInt64 :=
  hashCombine H.typeService (hashSimpleBLEService H s)

theorem hashCombine_hashCombine (h1 h2 u : UInt64) :
    hashCombine h1 (hashCombine h2 u) = h1 ^^^ (h2 <<< 1 ^^^ u <<< 2) := by
  have htwo : u <<< 2 = u <<< 1 <<< 1 := by
    rw [show (2 : UInt64) = 1 + 1 from rfl]
    exact UInt64.shiftLeft_add (by decide : (1 : UInt64) < 64) (by decide : (1 : UInt64) < 64)
      (by decide : (1 : UInt64) + 1 < 64)
  rw [hashCombine, hashCombine, UInt64.shiftLeft_xor, htwo]

/-- Two services have one hash when the string hashes of their UUIDs agree but
for the two leading bits. -/
theorem hashService_eq_iff (s t : SimpleBLE.Service) :
    hashService H s = hashService H t ↔ H.string s.uuid <<< 2 = H.string t.uuid <<< 2 := by
  rw [hashService, hashService, hashSimpleBLEService, hashSimpleBLEService,
    hashCombine_hashCombine, hashCombine_hashCombine, UInt64.xor_right_inj, UInt64.xor_right_inj]

end Hashers

/-! ## Registries -/

section Emplace

variable {κ β : Type} [Ord κ] [Std.TransOrd κ] [Std.LawfulEqOrd κ] {m : Std.TreeMap κ β} {k a : κ}
  {v x : β}

/-- What a map holds after `emplace`: the new value at the new key, or what it held. -/
theorem getElem?_insertIfNew_cases (h : (m.insertIfNew k v)[a]? = some x) :
    (a = k ∧ x = v) ∨ m[a]? = some x := by
  rw [Std.TreeMap.getElem?_insertIfNew] at h
  split at h
  · next hk =>
      cases h
      exact .inl ⟨(Std.compare_eq_iff_eq.1 hk.1).symm, rfl⟩
  · exact .inr h

theorem getElem?_insertIfNew_of_some (h : m[a]? = some x) : (m.insertIfNew k v)[a]? = some x := by
  rw [Std.TreeMap.getElem?_insertIfNew, if_neg ?_]
  · exact h
  · rintro ⟨hk, hnew⟩
    obtain rfl := Std.compare_eq_iff_eq.1 hk
    exact hnew (Std.TreeMap.mem_iff_isSome_getElem?.2 (by rw [h]; rfl))

theorem getElem?_insertIfNew_self (h : m[k]? = none) : (m.insertIfNew k v)[k]? = some v := by
  have hnew : k ∉ m := by
    intro hmem
    rw [Std.TreeMap.getElem?_eq_some_getElem hmem] at h
    cases h
  rw [Std.TreeMap.getElem?_insertIfNew, if_pos ⟨Std.compare_self, hnew⟩]

end Emplace

/-- The address of a proxy: proxies of one class are numbered in the order
their constructors begin. -/
abbrev Ptr := Nat

/-- The address of a registry, likewise. -/
abbrev RegistryPtr := Nat

/-- A Ruby object is named by the order of its allocation. -/
abbrev ObjectId := Nat

/-- `Registry`: the Ruby object that wraps it, the owner whose proxies it keeps
(null for the `AdapterRegistry`), and its map from keys to proxies. -/
structure Registry where
  self : ObjectId
  owner : Option Ptr
  entries : Std.TreeMap String Ptr := ∅

/-- A factory: its registries in the order of their creation, and the map
`_registries` from hashes to them. -/
structure RegistryFactory where
  registries : List Registry := []
  index : Std.TreeMap UInt64 RegistryPtr := ∅

namespace RegistryFactory

/-- The registry at an address. -/
def at? (f : RegistryFactory) (r : RegistryPtr) : Option Registry := f.registries[r]?

/-- `new RegistryType(owner)`, put in the map with `try_emplace`. -/
def create (f : RegistryFactory) (self : ObjectId) (hash : UInt64) (owner : Ptr) : RegistryFactory :=
  { registries := f.registries ++ [{ self := self, owner := some owner }]
    index := f.index.insertIfNew hash f.registries.length }

/-- `RegistryFactory::registry(owner)`, for an owner with this hash; `self` is
the Ruby object a new registry gets. -/
def registry (f : RegistryFactory) (self : ObjectId) (hash : UInt64) (owner : Ptr) :
    RegistryPtr × RegistryFactory :=
  match f.index[hash]? with
  | some r => (r, f)
  | none => (f.registries.length, f.create self hash owner)

theorem registry_of_some {f : RegistryFactory} {self : ObjectId} {hash : UInt64} {owner : Ptr}
    {r : RegistryPtr} (h : f.index[hash]? = some r) : f.registry self hash owner = (r, f) := by
  rw [registry, h]

theorem registry_of_none {f : RegistryFactory} {self : ObjectId} {hash : UInt64} {owner : Ptr}
    (h : f.index[hash]? = none) :
    f.registry self hash owner = (f.registries.length, f.create self hash owner) := by
  rw [registry, h]

theorem create_index {f : RegistryFactory} {self : ObjectId} {hash : UInt64} {owner : Ptr}
    (h : f.index[hash]? = none) (k : UInt64) :
    (f.create self hash owner).index[k]? =
      if k = hash then some f.registries.length else f.index[k]? := by
  have hnew : hash ∉ f.index := by
    intro hmem
    rw [Std.TreeMap.getElem?_eq_some_getElem hmem] at h
    cases h
  rw [create, Std.TreeMap.getElem?_insertIfNew]
  simp only [Std.compare_eq_iff_eq, hnew, not_false_eq_true, and_true]
  exact if_congr eq_comm rfl rfl

theorem create_at? {f : RegistryFactory} {self : ObjectId} {hash : UInt64} {owner : Ptr}
    (r : RegistryPtr) :
    (f.create self hash owner).at? r =
      if r = f.registries.length then some { self := self, owner := some owner } else f.at? r := by
  rw [at?, at?, create, List.getElem?_append]
  split
  · next hlt => rw [if_neg (Nat.ne_of_lt hlt)]
  · next hge =>
      rw [List.getElem?_singleton]
      by_cases heq : r = f.registries.length
      · simp [heq]
      · have hgt : f.registries.length < r :=
          Nat.lt_of_le_of_ne (Nat.le_of_not_lt hge) (Ne.symm heq)
        rw [if_neg heq, if_neg (Nat.sub_ne_zero_of_lt hgt), List.getElem?_eq_none (Nat.le_of_lt hgt)]

end RegistryFactory

/-! ## One registry per owner -/

/-- A factory, the live owners, and the calls of `registry` made so far, each
with what it returned. -/
structure FactoryState (ο : Type) where
  owners : List ο := []
  factory : RegistryFactory := {}
  calls : List (Ptr × RegistryPtr) := []

/-- What happens around a factory. -/
inductive FactoryOp (ο : Type) where
  /-- One more owner is constructed. -/
  | create (value : ο)
  /-- `registry(owner)`. -/
  | registry (owner : Ptr)

section Factory

variable {ο : Type} (hash : ο → UInt64)

/-- One step; `registry` is refused for what is not a live owner. -/
def factoryStep (s : FactoryState ο) : FactoryOp ο → Option (FactoryState ο)
  | .create value => some { s with owners := s.owners ++ [value] }
  | .registry owner =>
      s.owners[owner]?.map fun value =>
        let (r, f) := s.factory.registry s.calls.length (hash value) owner
        { s with factory := f, calls := s.calls ++ [(owner, r)] }

/-- All sequences of `registry` calls and constructions of owners, for one
factory whose owners are hashed by `hash`. -/
def factorySystem : System (FactoryState ο) (FactoryOp ο) := ⟨{}, factoryStep hash⟩

variable {hash}

/-- **One registry per owner**: the same owner always gets the same registry,
different owners get different ones, and a registry is the owner's it was
returned for. -/
structure PerOwner (s : FactoryState ο) : Prop where
  same : ∀ o r r', (o, r) ∈ s.calls → (o, r') ∈ s.calls → r = r'
  distinct : ∀ o o' r, (o, r) ∈ s.calls → (o', r) ∈ s.calls → o = o'
  owner : ∀ o r, (o, r) ∈ s.calls → ∃ reg, s.factory.at? r = some reg ∧ reg.owner = some o

/-- No two owners that `registry` was called on have the same hash. -/
def Separated (hash : ο → UInt64) (s : FactoryState ο) : Prop :=
  ∀ o o' r r' v v', (o, r) ∈ s.calls → (o', r') ∈ s.calls → s.owners[o]? = some v →
    s.owners[o']? = some v' → hash v = hash v' → o = o'

/-- What the map of the factory says. -/
structure FactoryInv (hash : ο → UInt64) (s : FactoryState ο) : Prop where
  /-- A call returned what the map holds at the owner's hash. -/
  returned : ∀ o r, (o, r) ∈ s.calls → ∃ v, s.owners[o]? = some v ∧ s.factory.index[hash v]? = some r
  /-- What the map holds belongs to an owner with that hash, whose call created it. -/
  created : ∀ k r, s.factory.index[k]? = some r → ∃ reg o v, s.factory.at? r = some reg ∧
    reg.owner = some o ∧ (o, r) ∈ s.calls ∧ s.owners[o]? = some v ∧ hash v = k

theorem FactoryInv.init : FactoryInv hash {} where
  returned := by simp
  created := by simp

theorem FactoryInv.create {s : FactoryState ο} (h : FactoryInv hash s) (value : ο) :
    FactoryInv hash { s with owners := s.owners ++ [value] } where
  returned := by
    intro o r hcall
    obtain ⟨v, hv, hindex⟩ := h.returned o r hcall
    exact ⟨v, List.getElem?_append_left (List.getElem?_eq_some_iff.1 hv).1 ▸ hv, hindex⟩
  created := by
    intro k r hindex
    obtain ⟨reg, o, v, hreg, ho, hcall, hv, hhash⟩ := h.created k r hindex
    exact ⟨reg, o, v, hreg, ho, hcall,
      List.getElem?_append_left (List.getElem?_eq_some_iff.1 hv).1 ▸ hv, hhash⟩

/-- A call that finds the index in the map. -/
theorem FactoryInv.found {s : FactoryState ο} {o : Ptr} {v : ο} {r : RegistryPtr}
    (h : FactoryInv hash s) (hv : s.owners[o]? = some v)
    (hr : s.factory.index[hash v]? = some r) :
    FactoryInv hash { s with calls := s.calls ++ [(o, r)] } where
  returned := by
    intro o' r' hcall
    rcases List.mem_append.1 hcall with hcall | hcall
    · exact h.returned o' r' hcall
    · obtain ⟨rfl, rfl⟩ := Prod.mk.inj (List.mem_singleton.1 hcall)
      exact ⟨v, hv, hr⟩
  created := by
    intro k r' hindex
    obtain ⟨reg, o', v', hreg, ho, hcall, hv', hhash⟩ := h.created k r' hindex
    exact ⟨reg, o', v', hreg, ho, List.mem_append_left _ hcall, hv', hhash⟩

/-- A call that creates a registry. -/
theorem FactoryInv.made {s : FactoryState ο} {o : Ptr} {v : ο} {self : ObjectId}
    (h : FactoryInv hash s) (hv : s.owners[o]? = some v)
    (hnone : s.factory.index[hash v]? = none) :
    FactoryInv hash { s with
      factory := s.factory.create self (hash v) o
      calls := s.calls ++ [(o, s.factory.registries.length)] } where
  returned := by
    intro o' r' hcall
    rcases List.mem_append.1 hcall with hcall | hcall
    · obtain ⟨v', hv', hindex⟩ := h.returned o' r' hcall
      refine ⟨v', hv', ?_⟩
      rw [RegistryFactory.create_index hnone, if_neg ?_]
      · exact hindex
      · intro heq
        rw [heq, hnone] at hindex
        cases hindex
    · obtain ⟨rfl, rfl⟩ := Prod.mk.inj (List.mem_singleton.1 hcall)
      exact ⟨v, hv, by rw [RegistryFactory.create_index hnone, if_pos rfl]⟩
  created := by
    intro k r' hindex
    rw [RegistryFactory.create_index hnone] at hindex
    split at hindex
    · next heq =>
        cases hindex
        refine ⟨{ self := self, owner := some o }, o, v, ?_, rfl, ?_, hv, heq.symm⟩
        · rw [RegistryFactory.create_at?, if_pos rfl]
        · simp
    · obtain ⟨reg, o', v', hreg, ho, hcall, hv', hhash⟩ := h.created k r' hindex
      refine ⟨reg, o', v', ?_, ho, List.mem_append_left _ hcall, hv', hhash⟩
      rw [RegistryFactory.create_at?, if_neg ?_]
      · exact hreg
      · rintro rfl
        rw [RegistryFactory.at?, List.getElem?_eq_none (Nat.le_refl _)] at hreg
        cases hreg

theorem factoryInv {s : FactoryState ο} (h : (factorySystem hash).Reachable s) :
    FactoryInv hash s := by
  refine System.invariant (S := factorySystem hash) FactoryInv.init ?_ h
  intro s op t hs hstep
  cases op with
  | create value => cases hstep; exact hs.create value
  | registry owner =>
      obtain ⟨v, hv, rfl⟩ := Option.map_eq_some_iff.1 hstep
      cases hindex : s.factory.index[hash v]? with
      | some r => rw [RegistryFactory.registry_of_some hindex]; exact hs.found hv hindex
      | none => rw [RegistryFactory.registry_of_none hindex]; exact hs.made hv hindex

/-- The invariant pins a registry down to the owner whose call created it. -/
theorem FactoryInv.separated_iff {s : FactoryState ο} (h : FactoryInv hash s) :
    PerOwner s ↔ Separated hash s := by
  constructor
  · intro hper o o' r r' v v' hcall hcall' hv hv' hhash
    obtain ⟨w, hw, hindex⟩ := h.returned o r hcall
    obtain ⟨w', hw', hindex'⟩ := h.returned o' r' hcall'
    obtain rfl : v = w := Option.some.inj (hv.symm.trans hw)
    obtain rfl : v' = w' := Option.some.inj (hv'.symm.trans hw')
    rw [hhash, hindex'] at hindex
    cases hindex
    exact hper.distinct o o' _ hcall hcall'
  · intro hsep
    -- the owner a registry was created for is the only one that gets it
    have howner : ∀ o r, (o, r) ∈ s.calls →
        ∃ reg, s.factory.at? r = some reg ∧ reg.owner = some o := by
      intro o r hcall
      obtain ⟨v, hv, hindex⟩ := h.returned o r hcall
      obtain ⟨reg, o', v', hreg, ho, hcall', hv', hhash⟩ := h.created _ r hindex
      obtain rfl : o' = o := hsep o' o r r v' v hcall' hcall hv' hv hhash
      exact ⟨reg, hreg, ho⟩
    refine ⟨?_, ?_, howner⟩
    · intro o r r' hcall hcall'
      obtain ⟨v, hv, hindex⟩ := h.returned o r hcall
      obtain ⟨v', hv', hindex'⟩ := h.returned o r' hcall'
      obtain rfl : v = v' := Option.some.inj (hv.symm.trans hv')
      exact Option.some.inj (hindex.symm.trans hindex')
    · intro o o' r hcall hcall'
      obtain ⟨reg, hreg, ho⟩ := howner o r hcall
      obtain ⟨reg', hreg', ho'⟩ := howner o' r hcall'
      obtain rfl : reg = reg' := Option.some.inj (hreg.symm.trans hreg')
      exact Option.some.inj (ho.symm.trans ho')

theorem perOwner_always_iff (ops : List (FactoryOp ο)) :
    (factorySystem hash).Always PerOwner {} ops ↔
      (factorySystem hash).Always (Separated hash) {} ops :=
  forall_congr' fun _ => imp_congr_right fun _ => forall_congr' fun _ => imp_congr_right fun hrun =>
    (factoryInv (System.reachable_of_run hrun)).separated_iff

end Factory

/-- The factory of the registries that adapters own. -/
abbrev adapterOwners (H : Hashes) := factorySystem (hashAdapter H)

/-- The factory of the registries that peripherals own. -/
abbrev peripheralOwners (H : Hashes) := factorySystem (hashPeripheral H)

/-- The factory of the registries that services own. -/
abbrev serviceOwners (H : Hashes) := factorySystem (hashService H)

/-- **When each owner has a registry of its own.**  For each of the three
classes of owners and whatever the string hash is: throughout a run there is
one registry per owner precisely when, throughout the run, no two owners that
`registry` was called on have the same hash. -/
theorem perOwner_iff (H : Hashes) :
    (∀ ops, (adapterOwners H).Always PerOwner {} ops ↔
      (adapterOwners H).Always (Separated (hashAdapter H)) {} ops) ∧
    (∀ ops, (peripheralOwners H).Always PerOwner {} ops ↔
      (peripheralOwners H).Always (Separated (hashPeripheral H)) {} ops) ∧
    (∀ ops, (serviceOwners H).Always PerOwner {} ops ↔
      (serviceOwners H).Always (Separated (hashService H)) {} ops) :=
  ⟨perOwner_always_iff, perOwner_always_iff, perOwner_always_iff⟩

/-- Two peripherals each have the battery service; their services are two
owners with one UUID. -/
def batteryServices : List (FactoryOp SimpleBLE.Service) :=
  [.create { uuid := "180f" }, .create { uuid := "180f" }, .registry 0, .registry 1]

/-- The second service gets the registry of the first, whatever the hash is. -/
theorem batteryServices_calls (H : Hashes) :
    ((serviceOwners H).run batteryServices).map (·.calls) = some [(0, 0), (1, 0)] := by
  simp [batteryServices, System.run, System.runFrom, factorySystem, factoryStep,
    RegistryFactory.registry, RegistryFactory.create, Std.TreeMap.getElem_insertIfNew]

/-- Services of different peripherals do not have registries of their own. -/
theorem not_perOwner_batteryServices :
    ¬ ∀ (H : Hashes) (ops : List (FactoryOp SimpleBLE.Service)),
      (serviceOwners H).Always PerOwner {} ops := by
  intro hall
  obtain ⟨s, hrun, hcalls⟩ := Option.map_eq_some_iff.1
    (batteryServices_calls ⟨fun _ => 0, 0, 0, 0, 0, 0, 0⟩)
  have hper : PerOwner s := (hall _ batteryServices).last hrun
  have hsame := hper.distinct 0 1 0 (by simp [hcalls]) (by simp [hcalls])
  exact absurd hsame (by decide)

end RuBLE
