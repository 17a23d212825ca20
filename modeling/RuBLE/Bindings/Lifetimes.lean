import Mathlib
import RuBLE.Bindings.Rules

/-!
# What raw pointers point to

Proxies hand out `this` and store pointers to their owners.  A proxy is alive as
long as a registry holds it, so each such pointer should be to one that is held.

* `Pointer`, `Held` — the pointers that are stored, and the proxies that are held.
* `SafeWith` — the invariant, which allows for one proxy that is under
  construction; `SafeWith.emplace` ends the construction.
* `Safe.fetch` — a fetch keeps it, unless the constructor throws after it has
  left a pointer behind.
* `noDangling` — **no dangling pointers** in a run without such failures and
  without clears of proxies that are pointed to.
* `not_noDangling_indicateThrows` — a characteristic whose second subscription
  fails leaves the first.
-/

namespace RuBLE

open Transition

/-! ## Pointers -/

/-- The level of the owners of registries of a level. -/
def Level.owner : Level → Option Level
  | .adapter => none
  | .peripheral => some .adapter
  | .service => some .peripheral
  | .characteristic => some .service

/-- The level of the proxy whose `this` the callback in a slot captures. -/
def Slot.level : Slot → Level
  | .scanStart _ | .scanStop _ | .scanUpdated _ | .scanFound _ => .adapter
  | .connected _ | .disconnected _ => .peripheral
  | .notify _ _ _ | .indicate _ _ _ => .characteristic

/-- The level of the proxy whose `this` an item captures. -/
def Item.level : Item → Level
  | .scanStart _ | .scanStop _ | .scanUpdate _ _ | .scanFind _ _ => .adapter
  | .connected _ | .disconnected _ => .peripheral
  | .fireOnNotify _ _ | .fireOnIndicate _ _ => .characteristic

/-- The `this` an item captures. -/
def Item.this : Item → Ptr
  | .scanStart this | .scanStop this | .scanUpdate this _ | .scanFind this _ | .connected this
  | .disconnected this | .fireOnNotify this _ | .fireOnIndicate this _ => this

/-- Some registry holds the proxy. -/
def Held (w : World) (lvl : Level) (p : Ptr) : Prop :=
  ∃ (r : RegistryPtr) (R : Registry) (key : String),
    w.registryAt? lvl r = some R ∧ R.entries[key]? = some p

/-- The pointers to proxies that are stored outside proxies: in callbacks, in
waiting items, and in registries. -/
inductive Outside (w : World) (lvl : Level) (p : Ptr) : Prop where
  | callback (slot : Slot) : (slot, p) ∈ w.callbacks → slot.level = lvl → Outside w lvl p
  | item (item : Item) : item ∈ w.queue → item.level = lvl → item.this = p → Outside w lvl p
  | registry (lvl' : Level) (r : RegistryPtr) (R : Registry) : w.registryAt? lvl' r = some R →
      lvl'.owner = some lvl → R.owner = some p → Outside w lvl p

theorem outside_iff {w : World} {lvl : Level} {p : Ptr} :
    Outside w lvl p ↔ (∃ e ∈ w.callbacks, e.1.level = lvl ∧ e.2 = p) ∨
      (∃ item ∈ w.queue, item.level = lvl ∧ item.this = p) ∨
      ∃ lvl' ∈ [Level.adapter, .peripheral, .service, .characteristic],
        lvl'.owner = some lvl ∧ ∃ R ∈ (w.factories lvl').registries, R.owner = some p := by
  constructor
  · intro h
    cases h with
    | callback slot hslot hlvl => exact .inl ⟨_, hslot, hlvl, rfl⟩
    | item item hitem hlvl hthis => exact .inr (.inl ⟨item, hitem, hlvl, hthis⟩)
    | registry lvl' r R hR hlvl ho =>
        refine .inr (.inr ⟨lvl', ?_, hlvl, R, List.mem_of_getElem? hR, ho⟩)
        cases lvl' <;> simp
  · rintro (⟨⟨slot, q⟩, hslot, hlvl, rfl⟩ | ⟨item, hitem, hlvl, hthis⟩ | ⟨lvl', -, hlvl, R, hR, ho⟩)
    · exact .callback slot hslot hlvl
    · exact .item item hitem hlvl hthis
    · obtain ⟨r, hr⟩ := List.mem_iff_getElem?.1 hR
      exact .registry lvl' r R hr hlvl ho

instance (w : World) (lvl : Level) (p : Ptr) : Decidable (Outside w lvl p) :=
  decidable_of_iff _ outside_iff.symm

/-- Nothing outside proxies points to what the registry at `r` holds. -/
def Unreferenced (w : World) (lvl : Level) (r : RegistryPtr) : Prop :=
  ∀ R (key : String) p, w.registryAt? lvl r = some R → R.entries[key]? = some p → ¬ Outside w lvl p

/-- The pointers to proxies that are stored: outside proxies, and in proxies
that are held. -/
inductive Pointer (w : World) : Level → Ptr → Prop where
  | outside {lvl : Level} {p : Ptr} : Outside w lvl p → Pointer w lvl p
  | peripheral {p o : Ptr} {P : Peripheral} : Held w .peripheral p →
      w.peripherals.get? p = some P → P.owner = some o → Pointer w .adapter o
  | service {s o : Ptr} {S : Service} : Held w .service s →
      w.services.get? s = some S → S.owner = some o → Pointer w .peripheral o
  | characteristic {c o : Ptr} {C : Characteristic} : Held w .characteristic c →
      w.characteristics.get? c = some C → C.owner = some o → Pointer w .service o
  | descriptor {c : Ptr} {C : Characteristic} {ds : Std.TreeMap String Descriptor} {key : String}
      {d : Descriptor} : Held w .characteristic c → w.characteristics.get? c = some C →
      C.descriptors = some ds → ds[key]? = some d → Pointer w .characteristic d.owner

/-- Every pointer is to a proxy that some registry holds. -/
def NoDangling (w : World) : Prop := ∀ lvl p, Pointer w lvl p → Held w lvl p

/-! ## The invariant -/

/-- The object at an address has been constructed, with this owner. -/
def Constructed (w : World) : Level → Ptr → Option Ptr → Prop
  | .adapter, p, _ => ∃ A, w.adapters.get? p = some A
  | .peripheral, p, o => ∃ P, w.peripherals.get? p = some P ∧ P.owner = o
  | .service, p, o => ∃ S, w.services.get? p = some S ∧ S.owner = o
  | .characteristic, p, o => ∃ C, w.characteristics.get? p = some C ∧ C.owner = o

/-- More objects have been constructed. -/
theorem Constructed.mono {w w' : World} {lvl : Level} {p : Ptr} {o : Option Ptr}
    (h : Constructed w lvl p o)
    (hadapters : ∀ p A, w.adapters.get? p = some A → w'.adapters.get? p = some A)
    (hperipherals : ∀ p P, w.peripherals.get? p = some P → w'.peripherals.get? p = some P)
    (hservices : ∀ p S, w.services.get? p = some S → w'.services.get? p = some S)
    (hcharacteristics : ∀ p C, w.characteristics.get? p = some C →
      w'.characteristics.get? p = some C) : Constructed w' lvl p o := by
  cases lvl with
  | adapter =>
      obtain ⟨A, hA⟩ := h
      exact ⟨A, hadapters p A hA⟩
  | peripheral =>
      obtain ⟨P, hP, ho⟩ := h
      exact ⟨P, hperipherals p P hP, ho⟩
  | service =>
      obtain ⟨S, hS, ho⟩ := h
      exact ⟨S, hservices p S hS, ho⟩
  | characteristic =>
      obtain ⟨C, hC, ho⟩ := h
      exact ⟨C, hcharacteristics p C hC, ho⟩

/-- Pointers stored outside proxies are to proxies that are held, or to the one
under construction; what is held is owned by the owner of the registry. -/
structure SafeWith (building : Option (Level × Ptr)) (w : World) : Prop where
  outside : ∀ lvl p, Outside w lvl p → Held w lvl p ∨ building = some (lvl, p)
  entries : ∀ lvl r (R : Registry) (key : String) p, w.registryAt? lvl r = some R → R.entries[key]? = some p →
    Constructed w lvl p R.owner
  owned : ∀ lvl r R, lvl ≠ .adapter → w.registryAt? lvl r = some R → R.owner ≠ none
  descriptors : ∀ c (C : Characteristic) ds (key : String) (d : Descriptor), w.characteristics.get? c = some C →
    C.descriptors = some ds → ds[key]? = some d → d.owner = c

/-- Nothing is under construction. -/
abbrev Safe : World → Prop := SafeWith none

section Safe

variable {w w' : World} {building : Option (Level × Ptr)}

theorem Safe.init : Safe World.init where
  outside := by
    intro lvl p h
    cases h with
    | callback slot h _ => cases h
    | item item h _ _ => cases h
    | registry lvl' r R hR hlvl ho =>
        cases lvl' with
        | adapter => cases hlvl
        | peripheral | service | characteristic => cases hR
  entries := by
    intro lvl r R key p hR hp
    simp [World.entries_init hR] at hp
  owned := by
    intro lvl r R hlvl hR
    cases lvl with
    | adapter => exact absurd rfl hlvl
    | peripheral | service | characteristic => cases hR
  descriptors := by intro c C ds key d h; cases h

/-- Only the proxy under construction has to be put into a registry. -/
theorem Safe.held (h : Safe w) : NoDangling w := by
  have houtside : ∀ lvl p, Outside w lvl p → Held w lvl p := by
    intro lvl p hp
    rcases h.outside lvl p hp with hp | hp
    · exact hp
    · cases hp
  -- the owner of what a registry holds is the owner of that registry
  have howner : ∀ lvl lvl' p o, Held w lvl' p → lvl'.owner = some lvl →
      (∀ o', Constructed w lvl' p o' → o' = some o) → Held w lvl o := by
    rintro lvl lvl' p o ⟨r, R, key, hR, hp⟩ hlvl hsame
    exact houtside lvl o (.registry lvl' r R hR hlvl (hsame _ (h.entries lvl' r R key p hR hp)))
  intro lvl p hp
  cases hp with
  | outside hp => exact houtside lvl p hp
  | peripheral hheld hP ho =>
      refine howner .adapter .peripheral _ _ hheld rfl ?_
      rintro o' ⟨P', hP', rfl⟩
      rw [hP] at hP'
      cases hP'
      exact ho
  | service hheld hS ho =>
      refine howner .peripheral .service _ _ hheld rfl ?_
      rintro o' ⟨S', hS', rfl⟩
      rw [hS] at hS'
      cases hS'
      exact ho
  | characteristic hheld hC ho =>
      refine howner .service .characteristic _ _ hheld rfl ?_
      rintro o' ⟨C', hC', rfl⟩
      rw [hC] at hC'
      cases hC'
      exact ho
  | descriptor hheld hC hds hd =>
      rw [h.descriptors _ _ _ _ _ hC hds hd]
      exact hheld

/-- A world with the same registries, no more pointers outside proxies, and the
same objects at least. -/
theorem SafeWith.congr (h : SafeWith building w)
    (hregistry : ∀ lvl r, w'.registryAt? lvl r = w.registryAt? lvl r)
    (hconstructed : ∀ lvl p o, Constructed w lvl p o → Constructed w' lvl p o)
    (hdescriptors : ∀ c (C : Characteristic) ds (key : String) (d : Descriptor), w'.characteristics.get? c = some C →
      C.descriptors = some ds → ds[key]? = some d → d.owner = c)
    (hcallbacks : w'.callbacks ⊆ w.callbacks) (hqueue : w'.queue ⊆ w.queue) :
    SafeWith building w' where
  outside := by
    intro lvl p hp
    have hp' : Outside w lvl p := by
      cases hp with
      | callback slot hslot hlvl => exact .callback slot (hcallbacks hslot) hlvl
      | item item hitem hlvl hthis => exact .item item (hqueue hitem) hlvl hthis
      | registry lvl' r R hR hlvl ho => exact .registry lvl' r R (hregistry lvl' r ▸ hR) hlvl ho
    refine (h.outside lvl p hp').imp_left ?_
    rintro ⟨r, R, key, hR, hkey⟩
    exact ⟨r, R, key, (hregistry lvl r).trans hR, hkey⟩
  entries := by
    intro lvl r R key p hR hp
    rw [hregistry] at hR
    exact hconstructed lvl p R.owner (h.entries lvl r R key p hR hp)
  owned := by
    intro lvl r R hlvl hR
    rw [hregistry] at hR
    exact h.owned lvl r R hlvl hR
  descriptors := hdescriptors

theorem Safe.weaken (h : Safe w) : SafeWith building w where
  outside := by
    intro lvl p hp
    rcases h.outside lvl p hp with hp | hp
    · exact .inl hp
    · cases hp
  entries := h.entries
  owned := h.owned
  descriptors := h.descriptors

/-- A change of the numbers of Ruby objects, the log, and the questions asked. -/
theorem SafeWith.inert (h : SafeWith building w) (n : ObjectId) (log : List BackendCall)
    (qs : List Query) : SafeWith building { w with nextObject := n, log := log, queries := qs } :=
  h.congr (fun _ _ => rfl) (fun _ _ _ hp => hp) h.descriptors (List.Subset.refl _)
    (List.Subset.refl _)

/-- What is under construction registers a callback. -/
theorem SafeWith.register {replaces : List Slot} {slot : Slot} {this : Ptr} (h : SafeWith building w)
    (hbuilding : building = none ∨ building = some (slot.level, this)) :
    SafeWith (some (slot.level, this)) (w.register replaces slot this) where
  outside := by
    have hold : ∀ lvl p, Outside w lvl p → Held w lvl p ∨ some (slot.level, this) = some (lvl, p) := by
      intro lvl p hp
      refine (h.outside lvl p hp).imp_right fun heq => ?_
      rcases hbuilding with hnone | hsome
      · rw [hnone] at heq
        cases heq
      · exact hsome.symm.trans heq
    intro lvl p hp
    cases hp with
    | callback slot' hslot hlvl =>
        rcases List.mem_cons.1 hslot with heq | hslot
        · cases heq
          exact .inr (by rw [hlvl])
        · exact hold lvl p (.callback slot' (List.mem_of_mem_filter hslot) hlvl)
    | item item hitem hlvl hthis => exact hold lvl p (.item item hitem hlvl hthis)
    | registry lvl' r R hR hlvl ho => exact hold lvl p (.registry lvl' r R hR hlvl ho)
  entries := h.entries
  owned := h.owned
  descriptors := h.descriptors

/-- What is under construction gets a registry, which points to it. -/
theorem Safe.createRegistry {lvl lvl' : Level} (h : Safe w) (hlvl : lvl'.owner = some lvl)
    (hash : UInt64) (this : Ptr) : SafeWith (some (lvl, this)) (w.createRegistry lvl' hash this) where
  outside := by
    intro lvl₁ p hp
    have hp' : Outside w lvl₁ p ∨ some (lvl, this) = some (lvl₁, p) := by
      cases hp with
      | callback slot hslot hlvl₁ => exact .inl (.callback slot hslot hlvl₁)
      | item item hitem hlvl₁ hthis => exact .inl (.item item hitem hlvl₁ hthis)
      | registry lvl₂ r R hR hlvl₂ ho =>
          rw [World.registryAt?_createRegistry] at hR
          split at hR
          · next heq =>
              cases hR
              cases ho
              rw [heq.1, hlvl] at hlvl₂
              cases hlvl₂
              exact .inr rfl
          · exact .inl (.registry lvl₂ r R hR hlvl₂ ho)
    rcases hp' with hp' | heq
    · rcases h.outside lvl₁ p hp' with ⟨r, R, key, hR, hkey⟩ | hnone
      · exact .inl ⟨r, R, key, World.registryAt?_createRegistry_of_some hR, hkey⟩
      · cases hnone
    · exact .inr heq
  entries := by
    intro lvl₁ r R key p hR hp
    rw [World.registryAt?_createRegistry] at hR
    split at hR
    · cases hR
      simp at hp
    · exact h.entries lvl₁ r R key p hR hp
  owned := by
    intro lvl₁ r R hne hR
    rw [World.registryAt?_createRegistry] at hR
    split at hR
    · cases hR
      exact Option.some_ne_none this
    · exact h.owned lvl₁ r R hne hR
  descriptors := h.descriptors

/-- **The end of a construction**: the registry holds the new proxy. -/
theorem SafeWith.emplace {lvl : Level} {p : Ptr} {r : RegistryPtr} {R : Registry} {key : String}
    (h : SafeWith (some (lvl, p)) w) (hR : w.registryAt? lvl r = some R)
    (hnone : R.entries[key]? = none) (hp : Constructed w lvl p R.owner) :
    Safe (w.modifyRegistry lvl r fun R => { R with entries := R.entries.insertIfNew key p }) := by
  have hlookup : ∀ lvl' r', (w.modifyRegistry lvl r fun R =>
      { R with entries := R.entries.insertIfNew key p }).registryAt? lvl' r' =
        if lvl' = lvl ∧ r' = r then some { R with entries := R.entries.insertIfNew key p }
        else w.registryAt? lvl' r' := by
    intro lvl' r'
    rw [World.registryAt?_modifyRegistry]
    split
    · next heq => rw [heq.1, heq.2, hR]; rfl
    · rfl
  have hheld : ∀ lvl' q, Held w lvl' q → Held (w.modifyRegistry lvl r fun R =>
      { R with entries := R.entries.insertIfNew key p }) lvl' q := by
    rintro lvl' q ⟨r', R', key', hR', hq⟩
    by_cases heq : lvl' = lvl ∧ r' = r
    · obtain ⟨rfl, rfl⟩ := heq
      rw [hR] at hR'
      cases hR'
      exact ⟨r', _, key', (hlookup lvl' r').trans (if_pos ⟨rfl, rfl⟩),
        getElem?_insertIfNew_of_some hq⟩
    · exact ⟨r', R', key', ((hlookup lvl' r').trans (if_neg heq)).trans hR', hq⟩
  refine ⟨?_, ?_, ?_, h.descriptors⟩
  · intro lvl' q hq
    have hq' : Outside w lvl' q := by
      cases hq with
      | callback slot hslot hlvl => exact .callback slot hslot hlvl
      | item item hitem hlvl hthis => exact .item item hitem hlvl hthis
      | registry lvl₁ r₁ R₁ hR₁ hlvl ho =>
          rw [hlookup] at hR₁
          split at hR₁
          · next heq =>
              cases hR₁
              exact .registry lvl₁ r₁ R (by rw [heq.1, heq.2, hR]) hlvl ho
          · exact .registry lvl₁ r₁ R₁ hR₁ hlvl ho
    rcases h.outside lvl' q hq' with hq' | heq
    · exact .inl (hheld lvl' q hq')
    · cases heq
      exact .inl ⟨r, _, key, (hlookup lvl r).trans (if_pos ⟨rfl, rfl⟩),
        getElem?_insertIfNew_self hnone⟩
  · intro lvl' r' R' key' q hR' hq
    rw [hlookup] at hR'
    split at hR'
    · next heq =>
        obtain ⟨rfl, rfl⟩ := heq
        cases hR'
        rcases getElem?_insertIfNew_cases hq with ⟨-, rfl⟩ | hq
        · exact hp
        · exact h.entries lvl' r' R key' q hR hq
    · exact h.entries lvl' r' R' key' q hR' hq
  · intro lvl' r' R' hne hR'
    rw [hlookup] at hR'
    split at hR'
    · next heq =>
        cases hR'
        exact h.owned lvl' r R hne (by rw [heq.1, hR])
    · exact h.owned lvl' r' R' hne hR'

/-- A clear drops proxies that nothing outside proxies points to. -/
theorem Safe.clear {lvl : Level} {r : RegistryPtr} (h : Safe w) (hclear : Unreferenced w lvl r) :
    Safe (w.modifyRegistry lvl r fun R => { R with entries := ∅ }) := by
  refine ⟨?_, ?_, ?_, h.descriptors⟩
  · intro lvl' q hq
    have hq' : Outside w lvl' q := by
      cases hq with
      | callback slot hslot hlvl => exact .callback slot hslot hlvl
      | item item hitem hlvl hthis => exact .item item hitem hlvl hthis
      | registry lvl₁ r₁ R₁ hR₁ hlvl ho =>
          rw [World.registryAt?_modifyRegistry] at hR₁
          split at hR₁
          · obtain ⟨R₂, hR₂, rfl⟩ := Option.map_eq_some_iff.1 hR₁
            exact .registry lvl₁ r₁ R₂ hR₂ hlvl ho
          · exact .registry lvl₁ r₁ R₁ hR₁ hlvl ho
    rcases h.outside lvl' q hq' with ⟨r', R', key', hR', hkey⟩ | heq
    · refine .inl ⟨r', R', key', ?_, hkey⟩
      rw [World.registryAt?_modifyRegistry, if_neg ?_]
      · exact hR'
      · rintro ⟨rfl, rfl⟩
        exact hclear R' key' q hR' hkey hq'
    · cases heq
  · intro lvl' r' R' key' q hR' hq
    rw [World.registryAt?_modifyRegistry] at hR'
    split at hR'
    · obtain ⟨R₂, -, rfl⟩ := Option.map_eq_some_iff.1 hR'
      simp at hq
    · exact h.entries lvl' r' R' key' q hR' hq
  · intro lvl' r' R' hne hR'
    rw [World.registryAt?_modifyRegistry] at hR'
    split at hR'
    · obtain ⟨R₂, hR₂, rfl⟩ := Option.map_eq_some_iff.1 hR'
      exact h.owned lvl' r' R₂ hne hR₂
    · exact h.owned lvl' r' R' hne hR'

end Safe

/-! ## Constructors -/

/-- An object of a level is under construction at `this`, for the registry `R`
at `r`; `building` is what may be pointed to. -/
structure Building (lvl : Level) (r : RegistryPtr) (R : Registry) (this : Ptr)
    (building : Option (Level × Ptr)) (w : World) : Prop where
  safe : SafeWith building w
  fresh : FreshAt w lvl this
  registry : w.registryAt? lvl r = some R

section Constructors

variable {H : Hashes} {env : Env} {lvl : Level} {r : RegistryPtr} {R : Registry} {this : Ptr}
  {building : Option (Level × Ptr)} {w : World}

theorem Building.inert (h : Building lvl r R this building w) (n : ObjectId)
    (log : List BackendCall) :
    Building lvl r R this building { w with nextObject := n, log := log } :=
  ⟨h.safe.inert n log w.queries, h.fresh, h.registry⟩

theorem Building.register (h : Building lvl r R this building w) {replaces : List Slot} {slot : Slot}
    (hslot : slot.level = lvl) (hbuilding : building = none ∨ building = some (lvl, this)) :
    Building lvl r R this (some (lvl, this)) (w.register replaces slot this) := by
  subst hslot
  exact ⟨h.safe.register hbuilding, h.fresh, h.registry⟩

/-- What is under construction hands over a callback, in a place where a failure
leaves no pointer unless the callback is kept. -/
theorem setCallback_building {site : Site} {slot : Slot} (hslot : slot.level = lvl)
    {P : World → Prop} (hthrows : env.throws = some site → env.keeps = false ∧ ∀ w, P w → Safe w)
    (hP : ∀ w, P w → Building lvl r R this building w)
    (hbuilding : building = none ∨ building = some (lvl, this)) :
    Program.Triple P (setCallback env site slot this)
      (fun _ => Building lvl r R this (some (lvl, this))) Safe := by
  by_cases hsite : env.throws = some site
  · obtain ⟨hkeeps, hsafe⟩ := hthrows hsite
    refine Program.Triple.bind (R := fun _ => P) (Program.Triple.when fun hc => ?_) fun _ => ?_
    · rcases hc with hne | hkept
      · exact absurd hsite hne
      · rw [hkeeps] at hkept
        cases hkept
    · exact Program.Triple.ite (fun _ => Program.Triple.throw _ hsafe) fun hne => absurd hsite hne
  · refine Program.Triple.bind (R := fun _ => Building lvl r R this (some (lvl, this)))
      (Program.Triple.when_of (fun _ => ?_) fun hn => absurd (.inl hsite) hn) fun _ =>
      backend_triple fun h => absurd h hsite
    exact Program.Triple.modify fun w hw => (hP w hw).register hslot hbuilding

/-- A failure of the call that gets the registry's owner its first callback
leaves no pointer if the registry is not a new one. -/
theorem ownRegistry_building {lvl' : Level} {hash : UInt64} {φ : Prop}
    (hlvl : lvl'.owner = some lvl) :
    Program.Triple
      (fun w => Building lvl r R this none w ∧ (φ → (w.factories lvl').index[hash]? ≠ none))
      (ownRegistry lvl' hash this)
      (fun _ w => Building lvl r R this (some (lvl, this)) w ∧ (φ → Safe w)) Safe := by
  refine ownRegistry_triple ?_ ?_
  · intro w r' hw hfound
    have hinert := hw.1.inert (w.nextObject + 1) w.log
    exact ⟨⟨Safe.weaken hinert.safe, hinert.fresh, hinert.registry⟩, fun _ => hinert.safe⟩
  · intro w hw hnone
    refine ⟨⟨Safe.createRegistry hw.1.safe hlvl hash this, ?_, ?_⟩, fun hφ => absurd hnone (hw.2 hφ)⟩
    · have hfresh := hw.1.fresh
      cases lvl with
      | adapter | peripheral | service | characteristic => exact hfresh
    · exact World.registryAt?_createRegistry_of_some hw.1.registry

/-- The object at `this` is there, and ready to be put into the registry at `r`,
which holds nothing under its key. -/
def Built (lvl : Level) (r : RegistryPtr) (R : Registry) (this : Ptr) (w : World) : Prop :=
  SafeWith (some (lvl, this)) w ∧ w.registryAt? lvl r = some R ∧ Constructed w lvl this R.owner

theorem Adapter.construct_built (value : SimpleBLE.Adapter)
    (hthrows : env.throws ∉ [some .setCallbackOnScanStop, some .setCallbackOnScanUpdated,
      some .setCallbackOnScanFound])
    (hkeeps : env.throws = some .setCallbackOnScanStart → env.keeps = false) :
    Program.Triple
      (fun w => (Safe w ∧ (env.throws = some .setCallbackOnScanStart →
        (w.factories .peripheral).index[hashAdapter H value]? ≠ none)) ∧
        w.registryAt? .adapter r = some R)
      (Adapter.construct H env value) (Built .adapter r R) Safe := by
  obtain ⟨hstop, hupdated, hfound⟩ : env.throws ≠ some .setCallbackOnScanStop ∧
      env.throws ≠ some .setCallbackOnScanUpdated ∧ env.throws ≠ some .setCallbackOnScanFound := by
    simpa using hthrows
  refine Program.Triple.bind (R := fun this w => Building .adapter r R this none w ∧
    (env.throws = some .setCallbackOnScanStart →
      (w.factories .peripheral).index[hashAdapter H value]? ≠ none)) ?_ fun this => ?_
  · refine Program.Triple.act fun w hw => ⟨⟨?_, World.fresh_alloc w.adapters, hw.2⟩, hw.1.2⟩
    refine hw.1.1.congr (fun _ _ => rfl) (fun _ _ _ hp => ?_) hw.1.1.descriptors
      (List.Subset.refl _) (List.Subset.refl _)
    exact hp.mono (fun _ _ hA => Heap.get?_alloc.trans hA) (fun _ _ hP => hP) (fun _ _ hS => hS)
      fun _ _ hC => hC
  refine Program.Triple.bind
    (newObject_triple fun w n hw => ⟨hw.1.inert n w.log, hw.2⟩) fun self => ?_
  refine Program.Triple.bind (backend_triple fun _ w hw => hw.1.safe) fun _ => ?_
  refine Program.Triple.bind (ownRegistry_building rfl) fun registry => ?_
  refine Program.Triple.bind (setCallback_building rfl (fun h => ⟨hkeeps h, fun w hw => hw.2 h⟩)
    (fun w hw => hw.1) (.inr rfl)) fun _ => ?_
  refine Program.Triple.bind (setCallback_building rfl (fun h => absurd h hstop)
    (fun w hw => hw) (.inr rfl)) fun _ => ?_
  refine Program.Triple.bind (setCallback_building rfl (fun h => absurd h hupdated)
    (fun w hw => hw) (.inr rfl)) fun _ => ?_
  refine Program.Triple.bind (setCallback_building rfl (fun h => absurd h hfound)
    (fun w hw => hw) (.inr rfl)) fun _ => ?_
  refine Program.Triple.bind (R := fun _ => Built .adapter r R this) ?_
    fun _ => Program.Triple.pure this fun _ hw => hw
  refine Program.Triple.modify fun w hw => ⟨?_, hw.registry, _, Heap.get?_store_self hw.fresh.1⟩
  refine hw.safe.congr (fun _ _ => rfl) (fun _ _ _ hp => ?_) hw.safe.descriptors
    (List.Subset.refl _) (List.Subset.refl _)
  exact hp.mono (fun _ _ hA => Heap.get?_store_of_some hw.fresh.1 hw.fresh.2 hA) (fun _ _ hP => hP)
    (fun _ _ hS => hS) fun _ _ hC => hC

theorem Peripheral.construct_built (value : SimpleBLE.Peripheral)
    (hthrows : env.throws ≠ some .setCallbackOnDisconnected)
    (hkeeps : env.throws = some .setCallbackOnConnected → env.keeps = false) :
    Program.Triple
      (fun w => (Safe w ∧ (env.throws = some .setCallbackOnConnected →
        (w.factories .service).index[hashPeripheral H value]? ≠ none)) ∧
        w.registryAt? .peripheral r = some R)
      (Peripheral.construct H env value R.owner) (Built .peripheral r R) Safe := by
  refine Program.Triple.bind (R := fun this w => Building .peripheral r R this none w ∧
    (env.throws = some .setCallbackOnConnected →
      (w.factories .service).index[hashPeripheral H value]? ≠ none)) ?_ fun this => ?_
  · refine Program.Triple.act fun w hw => ⟨⟨?_, World.fresh_alloc w.peripherals, hw.2⟩, hw.1.2⟩
    refine hw.1.1.congr (fun _ _ => rfl) (fun _ _ _ hp => ?_) hw.1.1.descriptors
      (List.Subset.refl _) (List.Subset.refl _)
    exact hp.mono (fun _ _ hA => hA) (fun _ _ hP => Heap.get?_alloc.trans hP) (fun _ _ hS => hS)
      fun _ _ hC => hC
  refine Program.Triple.bind (backend_triple fun _ w hw => hw.1.safe) fun _ => ?_
  refine Program.Triple.bind (backend_triple fun _ w hw => hw.1.safe) fun _ => ?_
  refine Program.Triple.bind (ownRegistry_building rfl) fun registry => ?_
  refine Program.Triple.bind (newObject_triple fun w n hw =>
    ⟨hw.1.inert n w.log, fun h => (hw.2 h).inert n w.log w.queries⟩) fun self => ?_
  refine Program.Triple.bind (setCallback_building rfl (fun h => ⟨hkeeps h, fun w hw => hw.2 h⟩)
    (fun w hw => hw.1) (.inr rfl)) fun _ => ?_
  refine Program.Triple.bind (setCallback_building rfl (fun h => absurd h hthrows)
    (fun w hw => hw) (.inr rfl)) fun _ => ?_
  refine Program.Triple.bind (R := fun _ => Built .peripheral r R this) ?_
    fun _ => Program.Triple.pure this fun _ hw => hw
  refine Program.Triple.modify fun w hw =>
    ⟨?_, hw.registry, _, Heap.get?_store_self hw.fresh.1, rfl⟩
  refine hw.safe.congr (fun _ _ => rfl) (fun _ _ _ hp => ?_) hw.safe.descriptors
    (List.Subset.refl _) (List.Subset.refl _)
  exact hp.mono (fun _ _ hA => hA) (fun _ _ hP => Heap.get?_store_of_some hw.fresh.1 hw.fresh.2 hP)
    (fun _ _ hS => hS) fun _ _ hC => hC

theorem Service.construct_built (value : SimpleBLE.Service) :
    Program.Triple
      (fun w => (Safe w ∧ (env.throws = some .uuid →
        (w.factories .characteristic).index[hashService H value]? ≠ none)) ∧
        w.registryAt? .service r = some R)
      (Service.construct H env value R.owner) (Built .service r R) Safe := by
  refine Program.Triple.bind (R := fun this w => Building .service r R this none w ∧
    (env.throws = some .uuid →
      (w.factories .characteristic).index[hashService H value]? ≠ none)) ?_ fun this => ?_
  · refine Program.Triple.act fun w hw => ⟨⟨?_, World.fresh_alloc w.services, hw.2⟩, hw.1.2⟩
    refine hw.1.1.congr (fun _ _ => rfl) (fun _ _ _ hp => ?_) hw.1.1.descriptors
      (List.Subset.refl _) (List.Subset.refl _)
    exact hp.mono (fun _ _ hA => hA) (fun _ _ hP => hP) (fun _ _ hS => Heap.get?_alloc.trans hS)
      fun _ _ hC => hC
  refine Program.Triple.bind (ownRegistry_building rfl) fun registry => ?_
  refine Program.Triple.bind (backend_triple fun h w hw => hw.2 h) fun _ => ?_
  refine Program.Triple.bind (R := fun _ => Building .service r R this (some (.service, this))) ?_
    fun self => ?_
  · exact Program.Triple.act fun w hw => hw.1.inert _ w.log
  refine Program.Triple.bind (R := fun _ => Built .service r R this) ?_
    fun _ => Program.Triple.pure this fun _ hw => hw
  refine Program.Triple.modify fun w hw =>
    ⟨?_, hw.registry, _, Heap.get?_store_self hw.fresh.1, rfl⟩
  refine hw.safe.congr (fun _ _ => rfl) (fun _ _ _ hp => ?_) hw.safe.descriptors
    (List.Subset.refl _) (List.Subset.refl _)
  exact hp.mono (fun _ _ hA => hA) (fun _ _ hP => hP)
    (fun _ _ hS => Heap.get?_store_of_some hw.fresh.1 hw.fresh.2 hS) fun _ _ hC => hC

/-- A registry's owner has been constructed, as part of a registry of its own level. -/
theorem SafeWith.registry_owner (h : SafeWith building w)
    (hbuilding : building = none ∨ building = some (.characteristic, this)) {lvl lvl' : Level}
    (hlvl : lvl'.owner = some lvl) (hR : w.registryAt? lvl' r = some R) :
    ∃ o r' R', R.owner = some o ∧ w.registryAt? lvl r' = some R' ∧ Constructed w lvl o R'.owner := by
  have hne : lvl' ≠ .adapter := by rintro rfl; cases hlvl
  obtain ⟨o, ho⟩ := Option.ne_none_iff_exists'.1 (h.owned lvl' r R hne hR)
  rcases h.outside lvl o (.registry lvl' r R hR hlvl ho) with ⟨r', R', key, hR', hkey⟩ | heq
  · exact ⟨o, r', R', ho, hR', h.entries lvl r' R' key o hR' hkey⟩
  · -- a characteristic owns no registry
    rcases hbuilding with rfl | rfl
    · cases heq
    · cases heq
      cases lvl' <;> cases hlvl

/-- The chain of owners of a registry of characteristics. -/
theorem SafeWith.chain (h : SafeWith building w)
    (hbuilding : building = none ∨ building = some (.characteristic, this))
    (hR : w.registryAt? .characteristic r = some R) :
    ∃ s S p P, R.owner = some s ∧ w.services.get? s = some S ∧ S.owner = some p ∧
      w.peripherals.get? p = some P := by
  obtain ⟨s, r', R', hs, hR', S, hS, hSo⟩ :=
    h.registry_owner hbuilding (show Level.owner .characteristic = some .service from rfl) hR
  obtain ⟨p, r'', R'', hp, hR'', P, hP, -⟩ :=
    h.registry_owner hbuilding (show Level.owner .service = some .peripheral from rfl) hR'
  exact ⟨s, S, p, P, hs, hS, hSo.trans hp, hP⟩

/-- A subscription: if the call throws, no callback has been kept so far. -/
theorem subscribe_building (op : BackendOp) (uuid : BluetoothUUID)
    (hbuilding : building = none ∨ building = some (.characteristic, this))
    (hthrows : env.throws = some (.access op) → env.keeps = false ∧ building = none) :
    Program.Triple (Building .characteristic r R this building)
      (Service.viaPeripheral R.owner fun p s =>
        Peripheral.access env p s { op, characteristic := uuid, callback := some this })
      (fun _ => Building .characteristic r R this (some (.characteristic, this))) Safe := by
  intro w hw
  obtain ⟨s, S, p, P, hs, hS, hp, hP⟩ := hw.safe.chain hbuilding hw.registry
  rw [hs, viaPeripheral_run env _ hS hp hP]
  refine Program.Triple.bind (P := Building .characteristic r R this building)
    (R := fun _ => Building .characteristic r R this building) ?_ (fun _ => ?_) w hw
  · exact Program.Triple.modify fun w hw => hw.inert w.nextObject _
  have hsafe : env.throws = some (.access op) →
      ∀ w, Building .characteristic r R this building w → Safe w := by
    intro h w hw
    have := hw.safe
    rwa [(hthrows h).2] at this
  dsimp only
  split
  · next hcb =>
      cases hcb
      exact setCallback_building rfl (fun h => ⟨(hthrows h).1, hsafe h⟩) (fun w hw => hw) hbuilding
  · next hcb =>
      cases hcb
      exact setCallback_building rfl (fun h => ⟨(hthrows h).1, hsafe h⟩) (fun w hw => hw) hbuilding
  · refine Program.Triple.conseq (backend_triple hsafe) (fun _ hw => hw) (fun _ w hw => ?_)
      fun _ hw => hw
    rcases hbuilding with rfl | rfl
    · exact ⟨Safe.weaken hw.safe, hw.fresh, hw.registry⟩
    · exact hw

theorem Characteristic.construct_built (value : SimpleBLE.Characteristic)
    (hnotify : (∀ name ∈ value.capabilities, name ∈ capabilityNames) →
      "notify" ∈ value.capabilities → env.throws = some (.access .notify) → env.keeps = false)
    (hindicate : (∀ name ∈ value.capabilities, name ∈ capabilityNames) →
      "indicate" ∈ value.capabilities → env.throws = some (.access .indicate) →
      env.keeps = false ∧ "notify" ∉ value.capabilities) :
    Program.Triple (fun w => Safe w ∧ w.registryAt? .characteristic r = some R)
      (Characteristic.construct env value R.owner) (Built .characteristic r R) Safe := by
  refine Program.Triple.bind (R := fun this => Building .characteristic r R this none) ?_
    fun this => ?_
  · refine Program.Triple.act fun w hw => ⟨?_, World.fresh_alloc w.characteristics, hw.2⟩
    refine hw.1.congr (fun _ _ => rfl) (fun _ _ _ hp => ?_) ?_ (List.Subset.refl _)
      (List.Subset.refl _)
    · exact hp.mono (fun _ _ hA => hA) (fun _ _ hP => hP) (fun _ _ hS => hS)
        fun _ _ hC => Heap.get?_alloc.trans hC
    · intro c C ds key d hC
      exact hw.1.descriptors c C ds key d (Heap.get?_alloc.symm.trans hC)
  refine Program.Triple.bind (backend_triple fun _ w hw => hw.safe) fun _ => ?_
  refine Program.Triple.bind (newObject_triple fun w n hw => hw.inert n w.log) fun self => ?_
  refine Program.Triple.bind (backend_triple fun _ w hw => hw.safe) fun _ => ?_
  refine Program.Triple.bind (capabilityFlags_valid _ fun w hw => hw.safe) fun _ => ?_
  refine Program.Triple.assume fun hvalid => ?_
  let building₁ : Option (Level × Ptr) :=
    if "notify" ∈ value.capabilities then some (.characteristic, this) else none
  have hbuilding₁ : building₁ = none ∨ building₁ = some (.characteristic, this) := by
    by_cases hn : "notify" ∈ value.capabilities
    · exact .inr (if_pos hn)
    · exact .inl (if_neg hn)
  refine Program.Triple.bind (R := fun _ => Building .characteristic r R this building₁) ?_ fun _ => ?_
  · refine Program.Triple.when_of (fun hn => ?_) fun hn w hw => ?_
    · rw [show building₁ = some (.characteristic, this) from if_pos hn]
      exact subscribe_building .notify value.uuid (.inl rfl) fun h => ⟨hnotify hvalid hn h, rfl⟩
    · rwa [show building₁ = none from if_neg hn]
  -- if the second subscription fails, there has been no first
  refine Program.Triple.bind (R := fun _ =>
    Building .characteristic r R this (some (.characteristic, this))) ?_ fun _ => ?_
  · refine Program.Triple.when_of (fun hi => ?_) fun hi w hw => ?_
    · exact subscribe_building .indicate value.uuid hbuilding₁ fun h =>
        ⟨(hindicate hvalid hi h).1, if_neg (hindicate hvalid hi h).2⟩
    · rcases hbuilding₁ with heq | heq
      · rw [heq] at hw
        exact ⟨Safe.weaken hw.safe, hw.fresh, hw.registry⟩
      · rwa [heq] at hw
  refine Program.Triple.bind (R := fun _ => Built .characteristic r R this) ?_
    fun _ => Program.Triple.pure this fun _ hw => hw
  refine Program.Triple.modify fun w hw =>
    ⟨?_, hw.registry, _, Heap.get?_store_self hw.fresh.1, rfl⟩
  refine hw.safe.congr (fun _ _ => rfl) (fun _ _ _ hp => ?_) ?_ (List.Subset.refl _)
    (List.Subset.refl _)
  · exact hp.mono (fun _ _ hA => hA) (fun _ _ hP => hP) (fun _ _ hS => hS)
      fun _ _ hC => Heap.get?_store_of_some hw.fresh.1 hw.fresh.2 hC
  · intro c C ds key d hC hds
    rw [show (w.storeCharacteristic this _).characteristics = w.characteristics.store this _ from rfl,
      Heap.get?_store hw.fresh.1] at hC
    split at hC
    · cases hC
      cases hds
    · exact hw.safe.descriptors c C ds key d hC hds

end Constructors

/-! ## Fetches, clears and runs -/

/-- Where the backend throws while a proxy for the value is constructed, no
pointer to it has been left yet: none in a new registry, and none in a callback
that the backend keeps. -/
def Value.Harmless (H : Hashes) (w : World) (env : Env) : Value → Prop
  | .adapter value =>
      env.throws ∉ [some .setCallbackOnScanStop, some .setCallbackOnScanUpdated,
        some .setCallbackOnScanFound] ∧
      (env.throws = some .setCallbackOnScanStart → env.keeps = false ∧
        (w.factories .peripheral).index[hashAdapter H value]? ≠ none)
  | .peripheral value =>
      env.throws ≠ some .setCallbackOnDisconnected ∧
      (env.throws = some .setCallbackOnConnected → env.keeps = false ∧
        (w.factories .service).index[hashPeripheral H value]? ≠ none)
  | .service value =>
      env.throws = some .uuid → (w.factories .characteristic).index[hashService H value]? ≠ none
  | .characteristic value =>
      (∀ name ∈ value.capabilities, name ∈ capabilityNames) →
        ("notify" ∈ value.capabilities → env.throws = some (.access .notify) → env.keeps = false) ∧
        ("indicate" ∈ value.capabilities → env.throws = some (.access .indicate) →
          env.keeps = false ∧ "notify" ∉ value.capabilities)

/-- If the action constructs a proxy, it does not fail after it has left a
pointer; if it clears a registry, nothing outside proxies points to what that holds. -/
def Careful (H : Hashes) (w : World) (a : Action) : Prop :=
  (∀ f, a.fetch? w = some f → f.Constructs w → f.value.Harmless H w f.env) ∧
  ∀ lvl r, a = .clear lvl r → Unreferenced w lvl r

instance (H : Hashes) (w : World) (env : Env) (value : Value) :
    Decidable (value.Harmless H w env) := by
  cases value <;> unfold Value.Harmless <;> infer_instance

instance (w : World) (lvl : Level) (r : RegistryPtr) : Decidable (Unreferenced w lvl r) :=
  match h : w.registryAt? lvl r with
  | none => isTrue (by intro R key p hR; rw [h] at hR; cases hR)
  | some R =>
      decidable_of_iff (∀ e ∈ R.entries.toList, ¬ Outside w lvl e.2) (by
        constructor
        · intro hall R' key p hR' hp
          rw [h] at hR'
          cases hR'
          exact hall (key, p) (Std.TreeMap.mem_toList_iff_getElem?_eq_some.2 hp)
        · intro hall e he
          exact hall R e.1 e.2 h (Std.TreeMap.mem_toList_iff_getElem?_eq_some.1 he))

instance (H : Hashes) (w : World) (a : Action) : Decidable (Careful H w a) :=
  have : Decidable (∀ f, a.fetch? w = some f → f.Constructs w → f.value.Harmless H w f.env) :=
    match a.fetch? w with
    | none => isTrue (by intro f hf; cases hf)
    | some f =>
        decidable_of_iff (f.Constructs w → f.value.Harmless H w f.env) (by simp)
  match a with
  | .clear lvl r =>
      decidable_of_iff (Unreferenced w lvl r) (by simp [Careful, Action.fetch?])
  | .fetch _ | .query _ _ | .descriptors _ _ _ | .request _ _ _ | .deliver _ | .runItem _ =>
      decidable_of_iff _ (and_iff_left (by intro lvl r h; cases h)).symm

/-- **A fetch keeps the invariant** unless its constructor fails at the wrong place. -/
theorem Safe.fetch (H : Hashes) (f : Fetch) :
    Program.Triple (fun w => Safe w ∧ (f.Constructs w → f.value.Harmless H w f.env))
      (f.prog H) (fun _ => Safe) Safe := by
  obtain ⟨r, value, env⟩ := f
  refine fetch_triple (J := fun owner p w => ∃ R : Registry, R.owner = owner ∧
    R.entries[value.key]? = none ∧ Built value.level r R p w) (fun w hw => hw.1) ?_ ?_
  · intro hthrows hgc R hnone w hw
    have hharmless : value.Harmless H w env := hw.1.2 ⟨hthrows, hgc, R, hw.2, hnone⟩
    have hbuilt : ∀ p w', Built value.level r R p w' → ∃ R' : Registry, R'.owner = R.owner ∧
        R'.entries[value.key]? = none ∧ Built value.level r R' p w' :=
      fun p w' h => ⟨R, rfl, hnone, h⟩
    cases value with
    | adapter value =>
        have h := Adapter.construct_built (H := H) (r := r) (R := R) value hharmless.1
          fun hstart => (hharmless.2 hstart).1
        exact (h.conseq (fun _ hw => hw) hbuilt fun _ hw => hw) w
          ⟨⟨hw.1.1, fun hstart => (hharmless.2 hstart).2⟩, hw.2⟩
    | peripheral value =>
        have h := Peripheral.construct_built (H := H) (r := r) (R := R) value hharmless.1
          fun hconnected => (hharmless.2 hconnected).1
        exact (h.conseq (fun _ hw => hw) hbuilt fun _ hw => hw) w
          ⟨⟨hw.1.1, fun hconnected => (hharmless.2 hconnected).2⟩, hw.2⟩
    | service value =>
        have h : Program.Triple _ (Service.construct H env value R.owner) _ _ :=
          Service.construct_built (r := r) value
        exact (h.conseq (fun _ hw => hw) hbuilt fun _ hw => hw) w ⟨⟨hw.1.1, hharmless⟩, hw.2⟩
    | characteristic value =>
        have h := Characteristic.construct_built (r := r) (R := R) value
          (fun hvalid => (hharmless hvalid).1) fun hvalid => (hharmless hvalid).2
        exact (h.conseq (fun _ hw => hw) hbuilt fun _ hw => hw) w ⟨hw.1.1, hw.2⟩
  · rintro owner p w ⟨R, -, hnone, hsafe, hR, hp⟩
    exact hsafe.emplace hR hnone hp

theorem Event.item_level (event : Event) (this : Ptr) :
    (event.item this).level = event.slot.level ∧ (event.item this).this = this := by
  cases event <;> exact ⟨rfl, rfl⟩

theorem World.mem_of_registered {w : World} {slot : Slot} {this : Ptr}
    (h : w.registered slot = some this) : (slot, this) ∈ w.callbacks := by
  obtain ⟨⟨slot', this'⟩, hfind, rfl⟩ := Option.map_eq_some_iff.1 h
  obtain rfl : slot' = slot := by simpa using List.find?_some hfind
  exact List.mem_of_find?_eq_some hfind

/-- What a callback pushes captures what the callback captured. -/
theorem Safe.deliver {w : World} {event : Event} {this : Ptr} (h : Safe w)
    (hthis : w.registered event.slot = some this) :
    Safe { w with queue := w.queue ++ [event.item this] } where
  outside := by
    intro lvl p hp
    have hp' : Outside w lvl p := by
      cases hp with
      | callback slot hslot hlvl => exact .callback slot hslot hlvl
      | registry lvl' r R hR hlvl ho => exact .registry lvl' r R hR hlvl ho
      | item item hitem hlvl hp =>
          rcases List.mem_append.1 hitem with hitem | hitem
          · exact .item item hitem hlvl hp
          · obtain rfl := List.mem_singleton.1 hitem
            obtain ⟨hlevel, hsame⟩ := event.item_level this
            obtain rfl : this = p := hsame.symm.trans hp
            exact .callback event.slot (World.mem_of_registered hthis) (hlevel.symm.trans hlvl)
    exact h.outside lvl p hp'
  entries := h.entries
  owned := h.owned
  descriptors := h.descriptors

theorem SafeWith.updateCharacteristic {building : Option (Level × Ptr)} {w : World} {this : Ptr}
    {f : Characteristic → Characteristic} (h : SafeWith building w)
    (howner : ∀ C, (f C).owner = C.owner)
    (hd : ∀ C ds (key : String) (d : Descriptor), w.characteristics.get? this = some C →
      (f C).descriptors = some ds → ds[key]? = some d → d.owner = this) :
    SafeWith building (w.updateCharacteristic this f) := by
  have hupdate : (w.updateCharacteristic this f).characteristics = w.characteristics.update this f := rfl
  refine h.congr (fun _ _ => rfl) ?_ ?_ (List.Subset.refl _) (List.Subset.refl _)
  · intro lvl p o hp
    cases lvl with
    | adapter | peripheral | service => exact hp
    | characteristic =>
        obtain ⟨C, hC, ho⟩ := hp
        show ∃ C, (w.characteristics.update this f).get? p = some C ∧ C.owner = o
        rw [Heap.get?_update, hC]
        split
        · exact ⟨f C, rfl, (howner C).trans ho⟩
        · exact ⟨C, rfl, ho⟩
  · intro c C ds key d hC hds hd'
    rw [hupdate, Heap.get?_update] at hC
    split at hC
    · next heq =>
        obtain ⟨C₀, hC₀, rfl⟩ := Option.map_eq_some_iff.1 hC
        rw [heq] at hC₀ ⊢
        exact hd C₀ ds key d hC₀ hds hd'
    · exact h.descriptors c C ds key d hC hds hd'

theorem Safe.stable : Stable Safe where
  newObject := fun w n h => h.inert n w.log w.queries
  query := fun w qs h => h.inert w.nextObject w.log qs
  log := fun w call _ h => h.inert w.nextObject _ w.queries
  record := fun w this data h =>
    h.updateCharacteristic (fun _ => rfl) fun C ds key d hC => h.descriptors this C ds key d hC
  describe := fun w this ds hds h =>
    h.updateCharacteristic (fun _ => rfl) fun C ds' key d _ hds' hd => by
      cases hds'
      exact (hds key d hd).1
  deliver := fun w event this hthis h => Safe.deliver h hthis
  dequeue := fun w h => h.congr (fun _ _ => rfl) (fun _ _ _ hp => hp) h.descriptors
    (List.Subset.refl _) (List.dropLast_subset _)

theorem Safe.action (H : Hashes) {w : World} {a : Action} (hw : Safe w) (hok : Careful H w a) :
    Safe ((a.prog H).run w).2 :=
  Safe.stable.action_keeps (K := fun w f => f.Constructs w → f.value.Harmless H w f.env)
    (Safe.fetch H) (fun _ _ hf => hf) hw (fun lvl r ha => Safe.clear hw (hok.2 lvl r ha)) hok.1

theorem safe_of_careful {H : Hashes} {as : List Action} {w : World}
    (hok : (bindingsSystem H).Meets (Careful H) World.init as)
    (hrun : (bindingsSystem H).run as = some w) : Safe w := by
  refine System.invariant_of_meets (S := bindingsSystem H) ?_ Safe.init hok hrun
  rintro w a w' hw hok ⟨rfl⟩
  exact Safe.action H hw hok

/-- **No dangling pointers.**  In a run in which no constructor fails after it
has left a pointer to its proxy, and no proxy is dropped that is pointed to from
outside proxies, every pointer stored anywhere is, at every point, to a proxy
that some registry holds. -/
theorem noDangling (H : Hashes) (as : List Action)
    (hok : (bindingsSystem H).Meets (Careful H) World.init as) :
    (bindingsSystem H).Always NoDangling World.init as :=
  fun _ hprefix _ hrun => Safe.held (safe_of_careful (hok.of_initial hprefix) hrun)

/-- A service with a characteristic that notifies, and one that fails to
indicate; a notification; a service whose characteristics are dropped. -/
def notifyAndClear : List Action :=
  [.fetch ⟨0, .adapter ⟨0, "00:00:00:00:00:01"⟩, {}⟩,
   .fetch ⟨0, .peripheral ⟨0, "00:00:00:00:00:0a", .publicAddress⟩, {}⟩,
   .fetch ⟨0, .service ⟨"180f", []⟩, {}⟩,
   .fetch ⟨0, .characteristic ⟨"2a19", ["read", "notify"]⟩, {}⟩,
   .fetch ⟨0, .characteristic ⟨"2a1a", ["indicate"]⟩, { throws := some (.access .indicate) }⟩,
   .deliver (.notify 0 "180f" "2a19" [42]), .runItem {},
   .fetch ⟨0, .service ⟨"180a", []⟩, {}⟩,
   .fetch ⟨1, .characteristic ⟨"2a29", ["read"]⟩, {}⟩, .clear .characteristic 1]

theorem noDangling_notifyAndClear :
    (bindingsSystem sampleHashes).Always NoDangling World.init notifyAndClear :=
  noDangling sampleHashes notifyAndClear (by decide +kernel)

/-- The second subscription of a characteristic fails. -/
def indicateThrows : List Action :=
  [.fetch ⟨0, .adapter ⟨0, "00:00:00:00:00:01"⟩, {}⟩,
   .fetch ⟨0, .peripheral ⟨0, "00:00:00:00:00:0a", .publicAddress⟩, {}⟩,
   .fetch ⟨0, .service ⟨"1809", []⟩, {}⟩,
   .fetch ⟨0, .characteristic ⟨"2a1c", ["notify", "indicate"]⟩,
     { throws := some (.access .indicate) }⟩]

/-- The first one is left, and the registry holds nothing. -/
theorem indicateThrows_callback : ((bindingsSystem sampleHashes).run indicateThrows).map (fun w =>
    (w.registered (.notify 0 "1809" "2a1c"),
      (w.factories .characteristic).registries.map (·.entries.toList))) =
    some (some 0, [[]]) := by
  decide +kernel

/-- A constructor that fails leaves a pointer to what is not there. -/
theorem not_noDangling_indicateThrows :
    ¬ ∀ (H : Hashes) (as : List Action), (bindingsSystem H).Always NoDangling World.init as := by
  intro hall
  obtain ⟨w, hrun, hw⟩ := Option.map_eq_some_iff.1 indicateThrows_callback
  obtain ⟨hcallback, hentries⟩ := Prod.mk.inj hw
  have hsafe : NoDangling w := (hall _ indicateThrows).last hrun
  have hpointer : Outside w .characteristic 0 :=
    .callback (.notify 0 "1809" "2a1c") (World.mem_of_registered hcallback) rfl
  obtain ⟨r, R, key, hR, hkey⟩ := hsafe .characteristic 0 (.outside hpointer)
  have hmem : R.entries.toList ∈ (w.factories .characteristic).registries.map (·.entries.toList) :=
    List.mem_map_of_mem (List.mem_of_getElem? hR)
  rw [hentries, List.mem_singleton] at hmem
  have := Std.TreeMap.mem_toList_iff_getElem?_eq_some.2 hkey
  rw [hmem] at this
  cases this

end RuBLE
