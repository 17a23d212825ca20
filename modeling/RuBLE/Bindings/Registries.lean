import Mathlib
import RuBLE.Bindings.Rules

/-!
# What a registry keeps

A registry is a cache of proxies: one for each key, made when it is first asked
for.

* `Extends` — nothing that was there is lost or replaced; it holds through
  every constructor, `construct_extends`.
* `Fetched` and `fetch_fetched` — **everything a fetch can do**.
* `Registries` — the invariant: what a registry holds under a key was built
  from a value with this key and for the owner of the registry.
* `RegistriesMade` — the invariant: the registries that proxies point to are there.
* `identityMap` — **a registry is an identity map**: until the next clear there
  is one proxy for a key, whatever fails in between.
-/

namespace RuBLE

open Transition

/-! ## Proxies and what they were built from -/

/-- The proxy at `p` was built from this value, for this owner. -/
def BuiltFrom (w : World) (owner : Option Ptr) (p : Ptr) : Value → Prop
  | .adapter value => ∃ A, w.adapters.get? p = some A ∧ A.adapter = value ∧ A.addr = value.address
  | .peripheral value => ∃ P, w.peripherals.get? p = some P ∧ P.peripheral = value ∧
      P.addr = value.address ∧ P.owner = owner
  | .service value => ∃ S, w.services.get? p = some S ∧ S.service = value ∧ S.uuid = value.uuid ∧
      S.owner = owner
  | .characteristic value => ∃ C, w.characteristics.get? p = some C ∧ C.characteristic = value ∧
      C.uuid = value.uuid ∧ C.owner = owner

/-- `w'` has all that `w` has: the proxies, and the registries as they are; the
registries that `w` does not have are empty. -/
structure Extends (w w' : World) : Prop where
  built : ∀ owner p v, BuiltFrom w owner p v → BuiltFrom w' owner p v
  registry : ∀ lvl r R, w.registryAt? lvl r = some R → w'.registryAt? lvl r = some R
  added : ∀ lvl r R, w'.registryAt? lvl r = some R → w.registryAt? lvl r = some R ∨ R.entries = ∅
  /-- Nothing has been asked of the backend. -/
  queries : w'.queries = w.queries

section Extends

variable {w w₀ w' : World}

theorem Extends.refl (w : World) : Extends w w :=
  ⟨fun _ _ _ h => h, fun _ _ _ h => h, fun _ _ _ h => .inl h, rfl⟩

/-- More proxies, the same registries. -/
theorem Extends.more (h : Extends w₀ w) (hregistry : ∀ lvl r, w'.registryAt? lvl r = w.registryAt? lvl r)
    (hadapters : ∀ p A, w.adapters.get? p = some A → w'.adapters.get? p = some A)
    (hperipherals : ∀ p P, w.peripherals.get? p = some P → w'.peripherals.get? p = some P)
    (hservices : ∀ p S, w.services.get? p = some S → w'.services.get? p = some S)
    (hcharacteristics : ∀ p C, w.characteristics.get? p = some C →
      w'.characteristics.get? p = some C) (hqueries : w'.queries = w.queries) : Extends w₀ w' where
  built := by
    intro owner p v hv
    have hw := h.built owner p v hv
    cases v with
    | adapter value =>
        obtain ⟨A, hA, hrest⟩ := hw
        exact ⟨A, hadapters p A hA, hrest⟩
    | peripheral value =>
        obtain ⟨P, hP, hrest⟩ := hw
        exact ⟨P, hperipherals p P hP, hrest⟩
    | service value =>
        obtain ⟨S, hS, hrest⟩ := hw
        exact ⟨S, hservices p S hS, hrest⟩
    | characteristic value =>
        obtain ⟨C, hC, hrest⟩ := hw
        exact ⟨C, hcharacteristics p C hC, hrest⟩
  registry := by
    intro lvl r R hR
    rw [hregistry]
    exact h.registry lvl r R hR
  added := by
    intro lvl r R hR
    rw [hregistry] at hR
    exact h.added lvl r R hR
  queries := hqueries.trans h.queries

/-- What neither stores a proxy nor touches a registry. -/
theorem Extends.inert (h : Extends w₀ w) (n : ObjectId) (cbs : List (Slot × Ptr))
    (log : List BackendCall) :
    Extends w₀ { w with nextObject := n, callbacks := cbs, log := log } :=
  h.more (fun _ _ => rfl) (fun _ _ hA => hA) (fun _ _ hP => hP) (fun _ _ hS => hS) (fun _ _ hC => hC)
    rfl

theorem Extends.createRegistry (h : Extends w₀ w) (lvl : Level) (hash : UInt64) (owner : Ptr) :
    Extends w₀ (w.createRegistry lvl hash owner) where
  built owner' p v hv := by
    have hw := h.built owner' p v hv
    cases v with
    | adapter value | peripheral value | service value | characteristic value => exact hw
  registry lvl' r R hR := World.registryAt?_createRegistry_of_some (h.registry lvl' r R hR)
  added lvl' r R hR := by
    rw [World.registryAt?_createRegistry] at hR
    split at hR
    · cases hR
      exact .inr rfl
    · exact h.added lvl' r R hR
  queries := h.queries

end Extends

/-! ## Constructors -/

/-- Half-way through a constructor: what was there is there, and the storage of
the new proxy is still empty. -/
structure Midway (w₀ : World) (lvl : Level) (this : Ptr) (w : World) : Prop where
  extended : Extends w₀ w
  fresh : FreshAt w lvl this

section Constructors

variable {H : Hashes} {env : Env} {w₀ w : World} {lvl : Level} {this : Ptr}

theorem Midway.inert (h : Midway w₀ lvl this w) (n : ObjectId) (cbs : List (Slot × Ptr))
    (log : List BackendCall) :
    Midway w₀ lvl this { w with nextObject := n, callbacks := cbs, log := log } :=
  ⟨h.extended.inert n cbs log, h.fresh⟩

theorem backend_midway (site : Site) :
    Program.Triple (Midway w₀ lvl this) (backend env site) (fun _ => Midway w₀ lvl this)
      (Extends w₀) :=
  backend_triple fun _ _ hw => hw.extended

theorem newObject_midway :
    Program.Triple (Midway w₀ lvl this) newObject (fun _ => Midway w₀ lvl this) (Extends w₀) :=
  newObject_triple fun w n hw => hw.inert n w.callbacks w.log

theorem setCallback_midway (site : Site) (slot : Slot) :
    Program.Triple (Midway w₀ lvl this) (setCallback env site slot this)
      (fun _ => Midway w₀ lvl this) (Extends w₀) :=
  setCallback_triple (fun _ hw => hw.extended) fun w cbs hw => hw.inert w.nextObject cbs w.log

theorem ownRegistry_midway (lvl' : Level) (hash : UInt64) :
    Program.Triple (Midway w₀ lvl this) (ownRegistry lvl' hash this)
      (fun _ => Midway w₀ lvl this) (Extends w₀) := by
  refine ownRegistry_triple (fun w r hw _ => hw.inert (w.nextObject + 1) w.callbacks w.log) ?_
  intro w hw _
  refine ⟨hw.extended.createRegistry lvl' hash this, ?_⟩
  have hfresh := hw.fresh
  cases lvl with
  | adapter | peripheral | service | characteristic => exact hfresh

theorem subscribe_midway (owner : Option Ptr) (a : Access) :
    Program.Triple (Midway w₀ lvl this)
      (Service.viaPeripheral owner fun p s => Peripheral.access env p s a)
      (fun _ => Midway w₀ lvl this) (Extends w₀) := by
  refine viaPeripheral_triple (fun _ hw => hw.extended) ?_ (fun _ hw => hw.extended) ?_
  · intro w s S p Q hw _ _ _ _
    exact hw.inert w.nextObject w.callbacks _
  · intro w slot this' _ hw
    exact hw.inert w.nextObject _ w.log

/-- What a constructor leaves: what was there, and its proxy. -/
abbrev Constructs (w₀ : World) (v : Value) (owner : Option Ptr) (x : Prog Ptr) : Prop :=
  Program.Triple (Extends w₀) x (fun p w => Extends w₀ w ∧ BuiltFrom w owner p v) (Extends w₀)

theorem Adapter.construct_extends (value : SimpleBLE.Adapter) (owner : Option Ptr) :
    Constructs w₀ (.adapter value) owner (Adapter.construct H env value) := by
  refine Program.Triple.bind (R := Midway w₀ .adapter) ?_ fun this => ?_
  · refine Program.Triple.act fun w hw => ⟨?_, World.fresh_alloc w.adapters⟩
    exact hw.more (fun _ _ => rfl) (fun _ _ hA => Heap.get?_alloc.trans hA) (fun _ _ hP => hP)
      (fun _ _ hS => hS) (fun _ _ hC => hC) rfl
  refine Program.Triple.bind newObject_midway fun self => ?_
  refine Program.Triple.bind (backend_midway _) fun _ => ?_
  refine Program.Triple.bind (ownRegistry_midway _ _) fun registry => ?_
  refine Program.Triple.bind (setCallback_midway _ _) fun _ => ?_
  refine Program.Triple.bind (setCallback_midway _ _) fun _ => ?_
  refine Program.Triple.bind (setCallback_midway _ _) fun _ => ?_
  refine Program.Triple.bind (setCallback_midway _ _) fun _ => ?_
  refine Program.Triple.bind
    (R := fun _ w => Extends w₀ w ∧ BuiltFrom w owner this (.adapter value)) ?_
    fun _ => Program.Triple.pure this fun _ hw => hw
  refine Program.Triple.modify fun w hw => ⟨?_, _, Heap.get?_store_self hw.fresh.1, rfl, rfl⟩
  exact hw.extended.more (fun _ _ => rfl)
    (fun _ _ hA => Heap.get?_store_of_some hw.fresh.1 hw.fresh.2 hA) (fun _ _ hP => hP)
    (fun _ _ hS => hS) (fun _ _ hC => hC) rfl

theorem Peripheral.construct_extends (value : SimpleBLE.Peripheral) (owner : Option Ptr) :
    Constructs w₀ (.peripheral value) owner (Peripheral.construct H env value owner) := by
  refine Program.Triple.bind (R := Midway w₀ .peripheral) ?_ fun this => ?_
  · refine Program.Triple.act fun w hw => ⟨?_, World.fresh_alloc w.peripherals⟩
    exact hw.more (fun _ _ => rfl) (fun _ _ hA => hA) (fun _ _ hP => Heap.get?_alloc.trans hP)
      (fun _ _ hS => hS) (fun _ _ hC => hC) rfl
  refine Program.Triple.bind (backend_midway _) fun _ => ?_
  refine Program.Triple.bind (backend_midway _) fun _ => ?_
  refine Program.Triple.bind (ownRegistry_midway _ _) fun registry => ?_
  refine Program.Triple.bind newObject_midway fun self => ?_
  refine Program.Triple.bind (setCallback_midway _ _) fun _ => ?_
  refine Program.Triple.bind (setCallback_midway _ _) fun _ => ?_
  refine Program.Triple.bind
    (R := fun _ w => Extends w₀ w ∧ BuiltFrom w owner this (.peripheral value)) ?_
    fun _ => Program.Triple.pure this fun _ hw => hw
  refine Program.Triple.modify fun w hw => ⟨?_, _, Heap.get?_store_self hw.fresh.1, rfl, rfl, rfl⟩
  exact hw.extended.more (fun _ _ => rfl) (fun _ _ hA => hA)
    (fun _ _ hP => Heap.get?_store_of_some hw.fresh.1 hw.fresh.2 hP) (fun _ _ hS => hS)
    (fun _ _ hC => hC) rfl

theorem Service.construct_extends (value : SimpleBLE.Service) (owner : Option Ptr) :
    Constructs w₀ (.service value) owner (Service.construct H env value owner) := by
  refine Program.Triple.bind (R := Midway w₀ .service) ?_ fun this => ?_
  · refine Program.Triple.act fun w hw => ⟨?_, World.fresh_alloc w.services⟩
    exact hw.more (fun _ _ => rfl) (fun _ _ hA => hA) (fun _ _ hP => hP)
      (fun _ _ hS => Heap.get?_alloc.trans hS) (fun _ _ hC => hC) rfl
  refine Program.Triple.bind (ownRegistry_midway _ _) fun registry => ?_
  refine Program.Triple.bind (backend_midway _) fun _ => ?_
  refine Program.Triple.bind newObject_midway fun self => ?_
  refine Program.Triple.bind
    (R := fun _ w => Extends w₀ w ∧ BuiltFrom w owner this (.service value)) ?_
    fun _ => Program.Triple.pure this fun _ hw => hw
  refine Program.Triple.modify fun w hw => ⟨?_, _, Heap.get?_store_self hw.fresh.1, rfl, rfl, rfl⟩
  exact hw.extended.more (fun _ _ => rfl) (fun _ _ hA => hA) (fun _ _ hP => hP)
    (fun _ _ hS => Heap.get?_store_of_some hw.fresh.1 hw.fresh.2 hS) (fun _ _ hC => hC) rfl

theorem Characteristic.construct_extends (value : SimpleBLE.Characteristic) (owner : Option Ptr) :
    Constructs w₀ (.characteristic value) owner (Characteristic.construct env value owner) := by
  refine Program.Triple.bind (R := Midway w₀ .characteristic) ?_ fun this => ?_
  · refine Program.Triple.act fun w hw => ⟨?_, World.fresh_alloc w.characteristics⟩
    exact hw.more (fun _ _ => rfl) (fun _ _ hA => hA) (fun _ _ hP => hP) (fun _ _ hS => hS)
      (fun _ _ hC => Heap.get?_alloc.trans hC) rfl
  refine Program.Triple.bind (backend_midway _) fun _ => ?_
  refine Program.Triple.bind newObject_midway fun self => ?_
  refine Program.Triple.bind (backend_midway _) fun _ => ?_
  refine Program.Triple.bind (capabilityFlags_triple _ fun _ hw => hw.extended) fun _ => ?_
  refine Program.Triple.bind (Program.Triple.when fun _ => subscribe_midway owner _) fun _ => ?_
  refine Program.Triple.bind (Program.Triple.when fun _ => subscribe_midway owner _) fun _ => ?_
  refine Program.Triple.bind
    (R := fun _ w => Extends w₀ w ∧ BuiltFrom w owner this (.characteristic value)) ?_
    fun _ => Program.Triple.pure this fun _ hw => hw
  refine Program.Triple.modify fun w hw => ⟨?_, _, Heap.get?_store_self hw.fresh.1, rfl, rfl, rfl⟩
  exact hw.extended.more (fun _ _ => rfl) (fun _ _ hA => hA) (fun _ _ hP => hP) (fun _ _ hS => hS)
    (fun _ _ hC => Heap.get?_store_of_some hw.fresh.1 hw.fresh.2 hC) rfl

/-- **What a constructor does.**  It loses nothing, whether it returns or throws,
and returns a proxy built from its value. -/
theorem construct_extends (H : Hashes) (env : Env) (v : Value) (owner : Option Ptr) :
    Constructs w₀ v owner (v.construct H env owner) := by
  cases v with
  | adapter value => exact Adapter.construct_extends value owner
  | peripheral value => exact Peripheral.construct_extends value owner
  | service value => exact Service.construct_extends value owner
  | characteristic value => exact Characteristic.construct_extends value owner

end Constructors

/-! ## Fetches -/

/-- A registry with a proxy put under a key. -/
abbrev Registry.emplace (R : Registry) (key : String) (p : Ptr) : Registry :=
  { R with entries := R.entries.insertIfNew key p }

/-- **Everything a fetch can do that returns.**  It finds the proxy, and changes
nothing; or it makes one and puts it where it found none. -/
inductive Fetched (w : World) (f : Fetch) : Ptr → World → Prop
  | found (R : Registry) (p : Ptr) : w.registryAt? f.value.level f.registry = some R →
      R.entries[f.value.key]? = some p → Fetched w f p w
  | made (R : Registry) (p : Ptr) (w₁ : World) : f.env.duringGc = false →
      w.registryAt? f.value.level f.registry = some R → R.entries[f.value.key]? = none →
      Extends w w₁ → BuiltFrom w₁ R.owner p f.value →
      Fetched w f p (w₁.modifyRegistry f.value.level f.registry (·.emplace f.value.key p))

section Fetches

variable {H : Hashes} {w w' : World} {f : Fetch} {p : Ptr}

theorem registryAt?_emplace {w : World} {lvl : Level} {r : RegistryPtr} {R : Registry} {k : String}
    {p : Ptr} (hR : w.registryAt? lvl r = some R) :
    (w.modifyRegistry lvl r (·.emplace k p)).registryAt? lvl r = some (R.emplace k p) := by
  rw [World.registryAt?_modifyRegistry, if_pos ⟨rfl, rfl⟩, hR]
  rfl

/-- **What a fetch does**, in a registry that is there. -/
theorem fetch_run (H : Hashes) {R : Registry} (hR : w.registryAt? f.value.level f.registry = some R) :
    (f.prog H).run w =
      if f.env.throws = some .keyFromValue then (.error (.backend .keyFromValue), w)
      else
        match R.entries[f.value.key]? with
        | some p => (.ok p, w)
        | none =>
            if f.env.duringGc then (.error (.duringGc f.value.level f.value.key), w)
            else
              match (f.value.construct H f.env R.owner).run w with
              | (.ok p, w₁) =>
                  (.ok p, w₁.modifyRegistry f.value.level f.registry (·.emplace f.value.key p))
              | (.error e, w₁) => (.error e, w₁) := by
  rw [Fetch.prog, RuBLE.fetch, Program.run_bind_ok (registryAt_run hR), backend]
  split
  · rw [Program.run_bind_error (Program.run_throw _ _)]
  rw [Program.run_bind_ok (Program.run_pure () w)]
  cases hentry : R.entries[f.value.key]? with
  | some p => rfl
  | none =>
      dsimp only
      split
      · rfl
      have hext := construct_extends H f.env f.value R.owner w (Extends.refl w)
      revert hext
      rcases hrun : (f.value.construct H f.env R.owner).run w with ⟨_ | p, w₁⟩
      · intro _
        rw [Program.run_bind_error hrun]
      -- the registry is still there, and holds the new proxy
      · rintro ⟨hext, -⟩
        have hR₁ := registryAt?_emplace (k := f.value.key) (p := p)
          (hext.registry f.value.level f.registry R hR)
        rw [Program.run_bind_ok hrun, Program.run_bind_ok (Program.run_modify _ _),
          Program.run_bind_ok (registryAt_run hR₁),
          show (R.emplace f.value.key p).entries[f.value.key]? = some p from
            getElem?_insertIfNew_self hentry]
        rfl

/-- A fetch that returns has done one of these, and one that throws has lost
nothing. -/
theorem fetch_fetched (H : Hashes) (f : Fetch) (w : World) :
    Program.Triple (· = w) (f.prog H) (Fetched w f) (Extends w) := by
  rintro w rfl
  cases hR : w.registryAt? f.value.level f.registry with
  | none =>
      rw [Fetch.prog, RuBLE.fetch, Program.run_bind_error (registryAt_run_none hR)]
      exact Extends.refl w
  | some R =>
      rw [fetch_run H hR]
      by_cases hthrows : f.env.throws = some .keyFromValue
      · rw [if_pos hthrows]
        exact Extends.refl w
      rw [if_neg hthrows]
      cases hentry : R.entries[f.value.key]? with
      | some p => exact .found R p hR hentry
      | none =>
          dsimp only
          by_cases hgc : f.env.duringGc = true
          · rw [if_pos hgc]
            exact Extends.refl w
          rw [if_neg hgc]
          have hmade := construct_extends H f.env f.value R.owner w (Extends.refl w)
          revert hmade
          rcases (f.value.construct H f.env R.owner).run w with ⟨_ | p, w₁⟩
          · exact id
          · exact fun hmade => .made R p w₁ (by simpa using hgc) hR hentry hmade.1 hmade.2

/-- What neither a constructor nor a fetch that returns takes away, an action
keeps, apart from clears. -/
theorem action_keeps_of_fetched {I : World → Prop} {a : Action} (hI : Stable I)
    (hext : ∀ w w', I w → Extends w w' → I w')
    (hfetched : ∀ w f p w', I w → Fetched w f p w' → I w') (hw : I w)
    (hclear : ∀ lvl r, a = .clear lvl r →
      I (w.modifyRegistry lvl r fun registry => { registry with entries := ∅ })) :
    I ((a.prog H).run w).2 := by
  refine hI.action_keeps (K := fun _ _ => True) (fun f => ?_) (fun _ _ _ => trivial) hw hclear
    fun _ _ => trivial
  rintro w ⟨hw, -⟩
  exact (fetch_fetched H f w).conseq (fun _ hw' => hw') (fun p w' => hfetched w f p w' hw)
    (fun w' => hext w w' hw) w rfl

end Fetches

/-! ## What stays in a registry -/

/-- The registry at `r` holds the proxy `p` under this key. -/
def Keeps (lvl : Level) (r : RegistryPtr) (key : String) (p : Ptr) (w : World) : Prop :=
  ∃ R, w.registryAt? lvl r = some R ∧ R.entries[key]? = some p

section Keeps

variable {H : Hashes} {w w' : World} {f : Fetch} {lvl : Level} {r : RegistryPtr} {key : String}
  {p q : Ptr}

theorem Keeps.unique (h : Keeps lvl r key p w) (h' : Keeps lvl r key q w) : p = q := by
  obtain ⟨R, hR, hp⟩ := h
  obtain ⟨R', hR', hq⟩ := h'
  rw [hR] at hR'
  cases hR'
  rw [hp] at hq
  exact Option.some.inj hq

theorem Extends.keeps (h : Extends w w') (hp : Keeps lvl r key p w) : Keeps lvl r key p w' := by
  obtain ⟨R, hR, hentry⟩ := hp
  exact ⟨R, h.registry lvl r R hR, hentry⟩

/-- A fetch takes nothing out of any registry. -/
theorem Fetched.keeps (h : Fetched w f p w') (hq : Keeps lvl r key q w) : Keeps lvl r key q w' := by
  cases h with
  | found R p hR hentry => exact hq
  | made R p w₁ hgc hR hnone hext hbuilt =>
      obtain ⟨R', hR', hentry⟩ := hext.keeps hq
      by_cases hsame : lvl = f.value.level ∧ r = f.registry
      · obtain ⟨rfl, rfl⟩ := hsame
        exact ⟨_, registryAt?_emplace hR', getElem?_insertIfNew_of_some hentry⟩
      · exact ⟨R', by rw [World.registryAt?_modifyRegistry, if_neg hsame]; exact hR', hentry⟩

/-- What a fetch returns is in the registry. -/
theorem Fetched.self (h : Fetched w f p w') : Keeps f.value.level f.registry f.value.key p w' := by
  cases h with
  | found R p hR hentry => exact ⟨R, hR, hentry⟩
  | made R p w₁ hgc hR hnone hext hbuilt =>
      exact ⟨_, registryAt?_emplace (hext.registry _ _ R hR), getElem?_insertIfNew_self hnone⟩

/-- A fetch returns what the registry holds under its key. -/
theorem Fetched.eq_of_keeps (h : Fetched w f p w')
    (hq : Keeps f.value.level f.registry f.value.key q w) : p = q :=
  h.self.unique (h.keeps hq)

theorem stable_keeps (lvl : Level) (r : RegistryPtr) (key : String) (p : Ptr) :
    Stable (Keeps lvl r key p) where
  newObject _ _ hw := hw
  query _ _ hw := hw
  log _ _ _ hw := hw
  record _ _ _ hw := hw
  describe _ _ _ _ hw := hw
  deliver _ _ _ _ hw := hw
  dequeue _ hw := hw

/-- Only a clear of its registry takes a proxy out. -/
theorem Keeps.action {a : Action} (h : Keeps lvl r key p w) (ha : a ≠ .clear lvl r) :
    Keeps lvl r key p ((a.prog H).run w).2 := by
  refine action_keeps_of_fetched (stable_keeps lvl r key p) (fun _ _ hw hext => hext.keeps hw)
    (fun _ _ _ _ hw hf => hf.keeps hw) h ?_
  rintro lvl' r' rfl
  obtain ⟨R, hR, hentry⟩ := h
  refine ⟨R, ?_, hentry⟩
  rw [World.registryAt?_modifyRegistry, if_neg ?_]
  · exact hR
  · rintro ⟨rfl, rfl⟩
    exact ha rfl

/-- Until the next clear of its registry a proxy stays in it. -/
theorem Keeps.run {as : List Action} (h : Keeps lvl r key p w)
    (hrun : (bindingsSystem H).runFrom w as = some w') (has : .clear lvl r ∉ as) :
    Keeps lvl r key p w' := by
  induction as generalizing w with
  | nil =>
      cases hrun
      exact h
  | cons a as ih =>
      rw [List.mem_cons, not_or] at has
      obtain ⟨hne, has⟩ := has
      exact ih (h.action (Ne.symm hne)) hrun has

end Keeps

/-! ## The invariant -/

/-- What a registry holds under a key was built from a value with that key, and
for the owner of the registry. -/
def Registries (w : World) : Prop :=
  ∀ lvl r (R : Registry) (key : String) p, w.registryAt? lvl r = some R → R.entries[key]? = some p →
    ∃ v : Value, v.level = lvl ∧ v.key = key ∧ BuiltFrom w R.owner p v

section Registries

variable {H : Hashes} {w w' : World} {f : Fetch} {p : Ptr}

theorem Registries.init : Registries World.init := by
  intro lvl r R key p hR hp
  simp [World.entries_init hR] at hp

theorem Registries.extends (h : Registries w) (hext : Extends w w') : Registries w' := by
  intro lvl r R key p hR hp
  rcases hext.added lvl r R hR with hR | hempty
  · obtain ⟨v, hlvl, hkey, hbuilt⟩ := h lvl r R key p hR hp
    exact ⟨v, hlvl, hkey, hext.built R.owner p v hbuilt⟩
  · simp [hempty] at hp

/-- A change of a registry's entries is no change to proxies. -/
theorem BuiltFrom.modifyRegistry {lvl : Level} {r : RegistryPtr} {g : Registry → Registry}
    {owner : Option Ptr} {v : Value} (h : BuiltFrom w owner p v) :
    BuiltFrom (w.modifyRegistry lvl r g) owner p v := by
  cases v with
  | adapter value | peripheral value | service value | characteristic value => exact h

theorem Registries.fetched (h : Registries w) (hf : Fetched w f p w') : Registries w' := by
  cases hf with
  | found R p hR hentry => exact h
  | made R p w₁ hgc hR hnone hext hbuilt =>
      have hw₁ := h.extends hext
      intro lvl r R' key q hR' hq
      by_cases hsame : lvl = f.value.level ∧ r = f.registry
      · obtain ⟨rfl, rfl⟩ := hsame
        have hR₁ := hext.registry _ _ R hR
        rw [registryAt?_emplace hR₁] at hR'
        cases hR'
        rcases getElem?_insertIfNew_cases hq with ⟨rfl, rfl⟩ | hq
        · exact ⟨f.value, rfl, rfl, hbuilt.modifyRegistry⟩
        · obtain ⟨v, hlvl, hkey, hv⟩ := hw₁ _ _ R key q hR₁ hq
          exact ⟨v, hlvl, hkey, hv.modifyRegistry⟩
      · rw [World.registryAt?_modifyRegistry, if_neg hsame] at hR'
        obtain ⟨v, hlvl, hkey, hv⟩ := hw₁ lvl r R' key q hR' hq
        exact ⟨v, hlvl, hkey, hv.modifyRegistry⟩

theorem Registries.clear {lvl : Level} {r : RegistryPtr} (h : Registries w) :
    Registries (w.modifyRegistry lvl r fun R => { R with entries := ∅ }) := by
  intro lvl' r' R' key q hR' hq
  rw [World.registryAt?_modifyRegistry] at hR'
  split at hR'
  · obtain ⟨R, -, rfl⟩ := Option.map_eq_some_iff.1 hR'
    simp at hq
  · obtain ⟨v, hlvl, hkey, hv⟩ := h lvl' r' R' key q hR' hq
    exact ⟨v, hlvl, hkey, hv.modifyRegistry⟩

/-- A change of a characteristic that leaves alone what it was built from. -/
theorem BuiltFrom.update {this : Ptr} {g : Characteristic → Characteristic} {owner : Option Ptr}
    {v : Value} (h : BuiltFrom w owner p v)
    (hg : ∀ C, (g C).characteristic = C.characteristic ∧ (g C).uuid = C.uuid ∧ (g C).owner = C.owner) :
    BuiltFrom (w.updateCharacteristic this g) owner p v := by
  cases v with
  | adapter value | peripheral value | service value => exact h
  | characteristic value =>
      obtain ⟨C, hC, hvalue, huuid, howner⟩ := h
      by_cases hp : p = this
      · refine ⟨g C, ?_, (hg C).1.trans hvalue, (hg C).2.1.trans huuid, (hg C).2.2.trans howner⟩
        show (w.characteristics.update this g).get? p = _
        rw [Heap.get?_update, if_pos hp, hC]
        rfl
      · refine ⟨C, ?_, hvalue, huuid, howner⟩
        show (w.characteristics.update this g).get? p = _
        rw [Heap.get?_update, if_neg hp, hC]

/-- The same of the invariant. -/
theorem Registries.update {this : Ptr} {g : Characteristic → Characteristic} (h : Registries w)
    (hg : ∀ C, (g C).characteristic = C.characteristic ∧ (g C).uuid = C.uuid ∧ (g C).owner = C.owner) :
    Registries (w.updateCharacteristic this g) := by
  intro lvl r R key q hR hq
  obtain ⟨v, hlvl, hkey, hv⟩ := h lvl r R key q hR hq
  exact ⟨v, hlvl, hkey, hv.update hg⟩

theorem Registries.stable : Stable Registries where
  newObject _ _ hw := hw
  query _ _ hw := hw
  log _ _ _ hw := hw
  record _ _ _ hw := hw.update fun _ => ⟨rfl, rfl, rfl⟩
  describe _ _ _ _ hw := hw.update fun _ => ⟨rfl, rfl, rfl⟩
  deliver _ _ _ _ hw := hw
  dequeue _ hw := hw

theorem registries (h : (bindingsSystem H).Reachable w) : Registries w := by
  refine System.invariant (S := bindingsSystem H) Registries.init ?_ h
  intro w a w' hw hstep
  cases hstep
  exact action_keeps_of_fetched Registries.stable (fun _ _ hw hext => hw.extends hext)
    (fun _ _ _ _ hw hf => hw.fetched hf) hw fun lvl r _ => hw.clear

end Registries

/-! ## The registries are there -/

/-- The factory of this level has made a registry at this address. -/
abbrev World.Has (w : World) (lvl : Level) (r : RegistryPtr) : Prop := ∃ R, w.registryAt? lvl r = some R

/-- The global registry is there, and so are those that proxies and factories
point to. -/
structure RegistriesMade (w : World) : Prop where
  root : w.Has .adapter 0
  index : ∀ lvl (hash : UInt64) r, (w.factories lvl).index[hash]? = some r → w.Has lvl r
  adapters : ∀ p A, w.adapters.get? p = some A → w.Has .peripheral A.peripheralRegistry
  peripherals : ∀ p P, w.peripherals.get? p = some P → w.Has .service P.serviceRegistry
  services : ∀ s S, w.services.get? s = some S → w.Has .characteristic S.characteristicRegistry

section RegistriesMade

variable {H : Hashes} {env : Env} {w w' : World}

theorem RegistriesMade.init : RegistriesMade World.init where
  root := ⟨_, rfl⟩
  index lvl hash r h := by cases lvl <;> simp [World.init] at h
  adapters p A h := by cases h
  peripherals p P h := by cases h
  services s S h := by cases h

/-- The same factories, and no other proxies. -/
theorem RegistriesMade.congr (h : RegistriesMade w) (hfactories : w'.factories = w.factories)
    (hadapters : ∀ p A, w'.adapters.get? p = some A →
      w.adapters.get? p = some A ∨ w.Has .peripheral A.peripheralRegistry)
    (hperipherals : ∀ p P, w'.peripherals.get? p = some P →
      w.peripherals.get? p = some P ∨ w.Has .service P.serviceRegistry)
    (hservices : ∀ s S, w'.services.get? s = some S →
      w.services.get? s = some S ∨ w.Has .characteristic S.characteristicRegistry) :
    RegistriesMade w' := by
  have hhas : ∀ lvl r, w.Has lvl r → w'.Has lvl r := by
    rintro lvl r ⟨R, hR⟩
    exact ⟨R, by rw [World.registryAt?, hfactories]; exact hR⟩
  refine ⟨hhas _ _ h.root, fun lvl hash r hr => ?_, fun p A hA => ?_, fun p P hP => ?_,
    fun s S hS => ?_⟩
  · rw [hfactories] at hr
    exact hhas lvl r (h.index lvl hash r hr)
  · exact hhas _ _ ((hadapters p A hA).elim (h.adapters p A) id)
  · exact hhas _ _ ((hperipherals p P hP).elim (h.peripherals p P) id)
  · exact hhas _ _ ((hservices s S hS).elim (h.services s S) id)

/-- The same factories and proxies. -/
theorem RegistriesMade.of_heaps (h : RegistriesMade w) (hfactories : w'.factories = w.factories)
    (hadapters : ∀ p, w'.adapters.get? p = w.adapters.get? p)
    (hperipherals : ∀ p, w'.peripherals.get? p = w.peripherals.get? p)
    (hservices : ∀ p, w'.services.get? p = w.services.get? p) : RegistriesMade w' :=
  h.congr hfactories (fun p _ hA => .inl (hadapters p ▸ hA)) (fun p _ hP => .inl (hperipherals p ▸ hP))
    fun s _ hS => .inl (hservices s ▸ hS)

theorem RegistriesMade.inert (h : RegistriesMade w) (n : ObjectId) (cbs : List (Slot × Ptr))
    (log : List BackendCall) :
    RegistriesMade { w with nextObject := n, callbacks := cbs, log := log } :=
  h.of_heaps rfl (fun _ => rfl) (fun _ => rfl) fun _ => rfl

theorem World.Has.createRegistry {lvl lvl' : Level} {r : RegistryPtr} (h : w.Has lvl r)
    (hash : UInt64) (owner : Ptr) : (w.createRegistry lvl' hash owner).Has lvl r := by
  obtain ⟨R, hR⟩ := h
  exact ⟨R, World.registryAt?_createRegistry_of_some hR⟩

theorem RegistriesMade.createRegistry (h : RegistriesMade w) {lvl : Level} {hash : UInt64}
    (hnone : (w.factories lvl).index[hash]? = none) (owner : Ptr) :
    RegistriesMade (w.createRegistry lvl hash owner) where
  root := h.root.createRegistry hash owner
  index lvl' hash' r hr := by
    by_cases hlvl : lvl' = lvl
    · subst hlvl
      simp only [World.createRegistry, Function.update_self, RegistryFactory.create_index hnone] at hr
      split at hr
      · cases hr
        obtain ⟨R, hR, -⟩ := w.ownedBy_createRegistry lvl' hash owner
        exact ⟨R, hR⟩
      · exact (h.index lvl' hash' r hr).createRegistry hash owner
    · simp only [World.createRegistry, Function.update_of_ne hlvl] at hr
      exact (h.index lvl' hash' r hr).createRegistry hash owner
  adapters p A hA := (h.adapters p A hA).createRegistry hash owner
  peripherals p P hP := (h.peripherals p P hP).createRegistry hash owner
  services s S hS := (h.services s S hS).createRegistry hash owner

theorem RegistriesMade.modifyRegistry (h : RegistriesMade w) (lvl : Level) (r : RegistryPtr)
    (g : Registry → Registry) : RegistriesMade (w.modifyRegistry lvl r g) := by
  have hhas : ∀ lvl' r', w.Has lvl' r' → (w.modifyRegistry lvl r g).Has lvl' r' := by
    rintro lvl' r' ⟨R, hR⟩
    rw [World.Has, World.registryAt?_modifyRegistry, hR]
    split
    · exact ⟨g R, rfl⟩
    · exact ⟨R, rfl⟩
  refine ⟨hhas _ _ h.root, fun lvl' hash r' hr => hhas lvl' r' (h.index lvl' hash r' ?_),
    fun p A hA => hhas _ _ (h.adapters p A hA), fun p P hP => hhas _ _ (h.peripherals p P hP),
    fun s S hS => hhas _ _ (h.services s S hS)⟩
  by_cases hlvl : lvl' = lvl
  · subst hlvl
    simpa only [World.modifyRegistry, Function.update_self] using hr
  · simpa only [World.modifyRegistry, Function.update_of_ne hlvl] using hr

theorem RegistriesMade.stable : Stable RegistriesMade where
  newObject w n h := h.inert n w.callbacks w.log
  query _ _ h := h.of_heaps rfl (fun _ => rfl) (fun _ => rfl) fun _ => rfl
  log w _ _ h := h.inert w.nextObject w.callbacks _
  record _ _ _ h := h.of_heaps rfl (fun _ => rfl) (fun _ => rfl) fun _ => rfl
  describe _ _ _ _ h := h.of_heaps rfl (fun _ => rfl) (fun _ => rfl) fun _ => rfl
  deliver _ _ _ _ h := h.of_heaps rfl (fun _ => rfl) (fun _ => rfl) fun _ => rfl
  dequeue _ h := h.of_heaps rfl (fun _ => rfl) (fun _ => rfl) fun _ => rfl

theorem backend_made (site : Site) :
    Program.Triple RegistriesMade (backend env site) (fun _ => RegistriesMade) RegistriesMade :=
  backend_triple fun _ _ hw => hw

theorem newObject_made :
    Program.Triple RegistriesMade newObject (fun _ => RegistriesMade) RegistriesMade :=
  newObject_triple fun w n hw => hw.inert n w.callbacks w.log

/-- They are there, and so is that of the proxy under construction. -/
def MadeWith (lvl : Level) (r : RegistryPtr) (w : World) : Prop := RegistriesMade w ∧ w.Has lvl r

theorem MadeWith.inert {lvl : Level} {r : RegistryPtr} (h : MadeWith lvl r w) (n : ObjectId)
    (cbs : List (Slot × Ptr)) : MadeWith lvl r { w with nextObject := n, callbacks := cbs } :=
  ⟨h.1.inert n cbs w.log, h.2⟩

/-- What a factory returns is there. -/
theorem ownRegistry_made (lvl : Level) (hash : UInt64) (this : Ptr) :
    Program.Triple RegistriesMade (ownRegistry lvl hash this) (MadeWith lvl) RegistriesMade := by
  refine ownRegistry_triple (fun w r hw hr => ?_) fun w hw hnone => ?_
  · exact ⟨hw.inert _ w.callbacks w.log, hw.index lvl hash r hr⟩
  · obtain ⟨R, hR, -⟩ := w.ownedBy_createRegistry lvl hash this
    exact ⟨hw.createRegistry hnone this, R, hR⟩

theorem setCallback_madeWith {lvl : Level} {r : RegistryPtr} (site : Site) (slot : Slot) (this : Ptr) :
    Program.Triple (MadeWith lvl r) (setCallback env site slot this) (fun _ => MadeWith lvl r)
      RegistriesMade :=
  setCallback_triple (fun _ hw => hw.1) fun w cbs hw => hw.inert w.nextObject cbs

theorem newObject_madeWith {lvl : Level} {r : RegistryPtr} :
    Program.Triple (MadeWith lvl r) newObject (fun _ => MadeWith lvl r) RegistriesMade :=
  newObject_triple fun w n hw => hw.inert n w.callbacks

theorem Adapter.construct_made (value : SimpleBLE.Adapter) :
    Program.Triple RegistriesMade (Adapter.construct H env value) (fun _ => RegistriesMade)
      RegistriesMade := by
  refine Program.Triple.bind (R := fun _ => RegistriesMade) ?_ fun this => ?_
  · exact Program.Triple.act fun w hw =>
      hw.of_heaps rfl (fun _ => Heap.get?_alloc) (fun _ => rfl) fun _ => rfl
  refine Program.Triple.bind newObject_made fun self => ?_
  refine Program.Triple.bind (backend_made _) fun _ => ?_
  refine Program.Triple.bind (ownRegistry_made _ _ this) fun r => ?_
  refine Program.Triple.bind (setCallback_madeWith _ _ _) fun _ => ?_
  refine Program.Triple.bind (setCallback_madeWith _ _ _) fun _ => ?_
  refine Program.Triple.bind (setCallback_madeWith _ _ _) fun _ => ?_
  refine Program.Triple.bind (setCallback_madeWith _ _ _) fun _ => ?_
  refine Program.Triple.bind (R := fun _ => RegistriesMade) ?_ fun _ => Program.Triple.skip this
  refine Program.Triple.modify fun w hw => hw.1.congr rfl (fun p A hA => ?_) (fun _ _ => .inl)
    fun _ _ => .inl
  refine (Heap.get?_store_cases hA).symm.imp_right ?_
  rintro rfl
  exact hw.2

theorem Peripheral.construct_made (value : SimpleBLE.Peripheral) (owner : Option Ptr) :
    Program.Triple RegistriesMade (Peripheral.construct H env value owner)
      (fun _ => RegistriesMade) RegistriesMade := by
  refine Program.Triple.bind (R := fun _ => RegistriesMade) ?_ fun this => ?_
  · exact Program.Triple.act fun w hw =>
      hw.of_heaps rfl (fun _ => rfl) (fun _ => Heap.get?_alloc) fun _ => rfl
  refine Program.Triple.bind (backend_made _) fun _ => ?_
  refine Program.Triple.bind (backend_made _) fun _ => ?_
  refine Program.Triple.bind (ownRegistry_made _ _ this) fun r => ?_
  refine Program.Triple.bind newObject_madeWith fun self => ?_
  refine Program.Triple.bind (setCallback_madeWith _ _ _) fun _ => ?_
  refine Program.Triple.bind (setCallback_madeWith _ _ _) fun _ => ?_
  refine Program.Triple.bind (R := fun _ => RegistriesMade) ?_ fun _ => Program.Triple.skip this
  refine Program.Triple.modify fun w hw => hw.1.congr rfl (fun _ _ => .inl) (fun p P hP => ?_)
    fun _ _ => .inl
  refine (Heap.get?_store_cases hP).symm.imp_right ?_
  rintro rfl
  exact hw.2

theorem Service.construct_made (value : SimpleBLE.Service) (owner : Option Ptr) :
    Program.Triple RegistriesMade (Service.construct H env value owner) (fun _ => RegistriesMade)
      RegistriesMade := by
  refine Program.Triple.bind (R := fun _ => RegistriesMade) ?_ fun this => ?_
  · exact Program.Triple.act fun w hw =>
      hw.of_heaps rfl (fun _ => rfl) (fun _ => rfl) fun _ => Heap.get?_alloc
  refine Program.Triple.bind (ownRegistry_made _ _ this) fun r => ?_
  refine Program.Triple.bind (backend_triple fun _ _ hw => hw.1) fun _ => ?_
  refine Program.Triple.bind newObject_madeWith fun self => ?_
  refine Program.Triple.bind (R := fun _ => RegistriesMade) ?_ fun _ => Program.Triple.skip this
  refine Program.Triple.modify fun w hw => hw.1.congr rfl (fun _ _ => .inl) (fun _ _ => .inl)
    fun s S hS => ?_
  refine (Heap.get?_store_cases hS).symm.imp_right ?_
  rintro rfl
  exact hw.2

theorem Characteristic.construct_made (value : SimpleBLE.Characteristic) (owner : Option Ptr) :
    Program.Triple RegistriesMade (Characteristic.construct env value owner)
      (fun _ => RegistriesMade) RegistriesMade := by
  have hsubscribe : ∀ a : Access, Program.Triple RegistriesMade
      (Service.viaPeripheral owner fun p s => Peripheral.access env p s a)
      (fun _ => RegistriesMade) RegistriesMade := fun a =>
    viaPeripheral_triple (fun _ hw => hw)
      (fun w s S p Q hw _ _ _ _ => hw.inert w.nextObject w.callbacks _) (fun _ hw => hw)
      fun w slot this _ hw => hw.inert w.nextObject _ w.log
  refine Program.Triple.bind (R := fun _ => RegistriesMade) ?_ fun this => ?_
  · exact Program.Triple.act fun w hw => hw.of_heaps rfl (fun _ => rfl) (fun _ => rfl) fun _ => rfl
  refine Program.Triple.bind (backend_made _) fun _ => ?_
  refine Program.Triple.bind newObject_made fun self => ?_
  refine Program.Triple.bind (backend_made _) fun _ => ?_
  refine Program.Triple.bind (capabilityFlags_triple _ fun _ hw => hw) fun _ => ?_
  refine Program.Triple.bind (Program.Triple.when fun _ => hsubscribe _) fun _ => ?_
  refine Program.Triple.bind (Program.Triple.when fun _ => hsubscribe _) fun _ => ?_
  refine Program.Triple.bind (R := fun _ => RegistriesMade) ?_ fun _ => Program.Triple.skip this
  exact Program.Triple.modify fun w hw => hw.of_heaps rfl (fun _ => rfl) (fun _ => rfl) fun _ => rfl

theorem Value.construct_made (v : Value) (owner : Option Ptr) :
    Program.Triple RegistriesMade (v.construct H env owner) (fun _ => RegistriesMade)
      RegistriesMade := by
  cases v with
  | adapter value => exact Adapter.construct_made value
  | peripheral value => exact Peripheral.construct_made value owner
  | service value => exact Service.construct_made value owner
  | characteristic value => exact Characteristic.construct_made value owner

theorem registriesMade (h : (bindingsSystem H).Reachable w) : RegistriesMade w := by
  refine System.invariant (S := bindingsSystem H) RegistriesMade.init ?_ h
  intro w a w' hw hstep
  cases hstep
  refine RegistriesMade.stable.action_keeps (K := fun _ _ => True) (fun f => ?_)
    (fun _ _ _ => trivial) hw (fun lvl r _ => hw.modifyRegistry lvl r _) fun _ _ => trivial
  refine fetch_triple (J := fun _ _ => RegistriesMade) (fun w hw => hw.1) ?_ fun _ p w hw =>
    hw.modifyRegistry _ _ _
  exact fun _ _ R _ => (Value.construct_made f.value R.owner).conseq (fun w hw => hw.1.1)
    (fun _ _ hw => hw) fun _ hw => hw

end RegistriesMade

/-! ## The identity map -/

section IdentityMap

variable {H : Hashes} {w w' : World} {lvl : Level} {r : RegistryPtr} {key : String} {p : Ptr}

theorem fetch_ok {f : Fetch} (h : (f.prog H).run w = (.ok p, w')) : Fetched w f p w' :=
  (fetch_fetched H f w).of_ok rfl h

theorem fetch_error {f : Fetch} {e : Error} (h : (f.prog H).run w = (.error e, w')) :
    Extends w w' :=
  (fetch_fetched H f w).of_error rfl h

/-- A list of fetches that all return takes nothing out of any registry. -/
theorem mapToObjects_keeps {values : List (Value × Env)} {ps : List Ptr}
    (h : (mapToObjects H r values).run w = (.ok ps, w')) {r' : RegistryPtr}
    (hp : Keeps lvl r' key p w) : Keeps lvl r' key p w' := by
  induction values generalizing w ps with
  | nil =>
      cases h
      exact hp
  | cons v values ih =>
      obtain ⟨q, w₁, hq, h⟩ := Program.run_bind_cases h
      obtain ⟨qs, w₂, hqs, h⟩ := Program.run_bind_cases h
      cases h
      exact ih hqs ((fetch_ok hq).keeps hp)

/-- One proxy for each value, in the order of the values. -/
theorem mapToObjects_forall₂ {values : List (Value × Env)} {ps : List Ptr}
    (hlvl : ∀ v ∈ values, v.1.level = lvl)
    (h : (mapToObjects H r values).run w = (.ok ps, w')) :
    List.Forall₂ (fun v p => Keeps lvl r v.1.key p w') values ps := by
  induction values generalizing w ps with
  | nil =>
      cases h
      exact .nil
  | cons v values ih =>
      obtain ⟨q, w₁, hq, h⟩ := Program.run_bind_cases h
      obtain ⟨qs, w₂, hqs, h⟩ := Program.run_bind_cases h
      cases h
      rw [List.forall_mem_cons] at hlvl
      obtain ⟨rfl, hrest⟩ := hlvl
      exact .cons (mapToObjects_keeps hqs (fetch_ok hq).self) (ih hrest hqs)

/-- A registry is an identity map. -/
structure IdentityMap (H : Hashes) (w : World) : Prop where
  /-- There is one proxy at a key. -/
  single : ∀ lvl r key p q, Keeps lvl r key p w → Keeps lvl r key q w → p = q
  /-- The proxy at a key was built from a value with that key, for the owner. -/
  built : ∀ lvl r (R : Registry) (key : String) p, w.registryAt? lvl r = some R →
    R.entries[key]? = some p → ∃ v : Value, v.level = lvl ∧ v.key = key ∧ BuiltFrom w R.owner p v
  /-- After a fetch, each fetch of a value with an equal key that returns before
  the next clear returns the same proxy. -/
  same : ∀ (f : Fetch) p w₁ as w₂ (f' : Fetch) p' w₃, (f.prog H).run w = (.ok p, w₁) →
    (bindingsSystem H).runFrom w₁ as = some w₂ → .clear f.value.level f.registry ∉ as →
    f'.registry = f.registry → f'.value.level = f.value.level → f'.value.key = f.value.key →
    (f'.prog H).run w₂ = (.ok p', w₃) → p' = p
  /-- A fetch that throws leaves the registry as it was. -/
  unchanged : ∀ (f : Fetch) e w₁ R, w.registryAt? f.value.level f.registry = some R →
    (f.prog H).run w = (.error e, w₁) → w₁.registryAt? f.value.level f.registry = some R
  /-- A list of values is mapped to as many proxies, each the one of its value's
  key. -/
  mapped : ∀ lvl r values ps w₁, (∀ v ∈ values, v.1.level = lvl) →
    (mapToObjects H r values).run w = (.ok ps, w₁) → ps.length = values.length ∧
      ∀ (i : Nat) v, values[i]? = some v → ∃ p, ps[i]? = some p ∧ Keeps lvl r v.1.key p w₁

/-- **A registry is an identity map**, whatever has happened before. -/
theorem identityMap (H : Hashes) (w : World) (h : (bindingsSystem H).Reachable w) :
    IdentityMap H w where
  single _ _ _ _ _ hp hq := hp.unique hq
  built := registries h
  same := by
    rintro f p w₁ as w₂ ⟨r, v, env⟩ p' w₃ hp hrun has hr hlvl hkey hp'
    have hkeeps := (fetch_ok hp).self.run hrun has
    rw [← hr, ← hlvl, ← hkey] at hkeeps
    exact (fetch_ok hp').eq_of_keeps hkeeps
  unchanged := by
    intro f e w₁ R hR he
    exact (fetch_error he).registry _ _ R hR
  mapped := by
    intro lvl r values ps w₁ hlvl hps
    have hall := mapToObjects_forall₂ hlvl hps
    refine ⟨hall.length_eq.symm, fun i v hv => ?_⟩
    obtain ⟨hi, rfl⟩ := List.getElem?_eq_some_iff.1 hv
    have hi' : i < ps.length := hall.length_eq ▸ hi
    exact ⟨ps[i], List.getElem?_eq_getElem hi', List.forall₂_iff_get.1 hall |>.2 i hi hi'⟩

/-- An adapter is fetched, and then again while another one fails and a third is
refused during a collection. -/
def fetchedAgain : List Action :=
  [.fetch ⟨0, .adapter ⟨0, "00:00:00:00:00:01"⟩, {}⟩,
   .fetch ⟨0, .adapter ⟨1, "00:00:00:00:00:02"⟩, { throws := some .setCallbackOnScanFound }⟩,
   .fetch ⟨0, .adapter ⟨2, "00:00:00:00:00:03"⟩, { duringGc := true }⟩,
   .fetch ⟨0, .adapter ⟨3, "00:00:00:00:00:01"⟩, {}⟩]

theorem identityMap_fetchedAgain : ∃ w, (bindingsSystem sampleHashes).run fetchedAgain = some w ∧
    (w.factories .adapter).registries.map (·.entries.toList) = [[("00:00:00:00:00:01", 0)]] ∧
      IdentityMap sampleHashes w := by
  have hrun : ((bindingsSystem sampleHashes).run fetchedAgain).map (fun w =>
      (w.factories .adapter).registries.map (·.entries.toList)) =
        some [[("00:00:00:00:00:01", 0)]] := by decide +kernel
  obtain ⟨w, hw, hentries⟩ := Option.map_eq_some_iff.1 hrun
  exact ⟨w, hw, hentries, identityMap sampleHashes w (System.reachable_of_run hw)⟩

end IdentityMap

end RuBLE
