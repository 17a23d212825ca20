import Mathlib
import RuBLE.Bindings.Registries
import RuBLE.Bindings.Routing

/-!
# What a registry accumulates

A lookup fetches what the backend reports and returns the whole registry, which
also holds what earlier reports had.

* `reported` — the values whose fetch returned, since the last clear of a
  registry.
* `Accumulates` — the invariant: a registry has one proxy for each key that was
  reported, built from the first value with this key.
* `mapToObjects_run` — a list of fetches is a run that adds its values to what
  was reported.
* `accumulated` — **what lookups return** where each registry is its owner's own:
  all that was reported by this peripheral or service, and for each service the
  data it had in the first of these reports.
-/

namespace RuBLE

open Transition

/-- `Service::data`. -/
def Service.data (s : Service) : List UInt8 := s.service.data

/-! ## What was reported -/

/-- What an action adds to the values reported to the registry at `r`. -/
def note (H : Hashes) (lvl : Level) (r : RegistryPtr) (w : World) (vs : List Value) :
    Action → List Value
  | .clear lvl' r' => if lvl' = lvl ∧ r' = r then [] else vs
  | .fetch f =>
      if f.value.level = lvl ∧ f.registry = r ∧ ((f.prog H).run w).1.toOption.isSome then
        vs ++ [f.value]
      else vs
  | _ => vs

/-- The values reported by the end of a run, `vs` of them at its start. -/
def reportedFrom (H : Hashes) (lvl : Level) (r : RegistryPtr) (w : World) (vs : List Value) :
    List Action → List Value
  | [] => vs
  | a :: as => reportedFrom H lvl r ((a.prog H).run w).2 (note H lvl r w vs a) as

/-- The values reported to the registry at `r` since its last clear: those whose
fetch has returned. -/
def reported (H : Hashes) (lvl : Level) (r : RegistryPtr) (as : List Action) : List Value :=
  reportedFrom H lvl r World.init [] as

/-- The first value with a key. -/
def firstWith (key : String) (vs : List Value) : Option Value := vs.find? (·.key = key)

theorem firstWith_concat (key : String) (vs : List Value) (v : Value) :
    firstWith key (vs ++ [v]) = (firstWith key vs).or (if v.key = key then some v else none) := by
  rw [firstWith, List.find?_append, firstWith, List.find?_singleton]
  simp

theorem firstWith_isSome {key : String} {vs : List Value} :
    (firstWith key vs).isSome ↔ ∃ v ∈ vs, v.key = key := by
  simp [firstWith]

/-! ## The invariant -/

/-- The registry at `r` has one proxy for each key of these values, built from
the first that has it. -/
structure Accumulates (lvl : Level) (r : RegistryPtr) (vs : List Value) (w : World) : Prop where
  absent : w.registryAt? lvl r = none → vs = []
  held : ∀ R, w.registryAt? lvl r = some R → ∀ (key : String) p, R.entries[key]? = some p →
    ∃ v, firstWith key vs = some v ∧ BuiltFrom w R.owner p v
  missing : ∀ R, w.registryAt? lvl r = some R → ∀ key : String, R.entries[key]? = none →
    firstWith key vs = none

section Accumulates

variable {H : Hashes} {w w' : World} {lvl : Level} {r : RegistryPtr} {vs : List Value} {f : Fetch}
  {p : Ptr}

theorem Accumulates.init (lvl : Level) (r : RegistryPtr) : Accumulates lvl r [] World.init where
  absent _ := rfl
  held R hR key p hp := by simp [World.entries_init hR] at hp
  missing _ _ _ _ := rfl

theorem Accumulates.extends (h : Accumulates lvl r vs w) (hext : Extends w w') :
    Accumulates lvl r vs w' := by
  -- what `w` does not have is empty, and nothing has been reported to it
  have hcases : ∀ R, w'.registryAt? lvl r = some R →
      w.registryAt? lvl r = some R ∨ vs = [] ∧ R.entries = ∅ := by
    intro R hR
    cases hw : w.registryAt? lvl r with
    | some R₀ =>
        rw [hext.registry lvl r R₀ hw] at hR
        exact .inl hR
    | none =>
        rcases hext.added lvl r R hR with hR | hempty
        · rw [hw] at hR
          cases hR
        · exact .inr ⟨h.absent hw, hempty⟩
  refine ⟨fun hnone => ?_, fun R hR key p hp => ?_, fun R hR key hnone => ?_⟩
  · cases hw : w.registryAt? lvl r with
    | none => exact h.absent hw
    | some R =>
        rw [hext.registry lvl r R hw] at hnone
        cases hnone
  · rcases hcases R hR with hR | ⟨-, hempty⟩
    · obtain ⟨v, hv, hbuilt⟩ := h.held R hR key p hp
      exact ⟨v, hv, hext.built R.owner p v hbuilt⟩
    · simp [hempty] at hp
  · rcases hcases R hR with hR | ⟨rfl, -⟩
    · exact h.missing R hR key hnone
    · rfl

/-- A value is reported: the one with its key is there, or has just been made. -/
theorem Accumulates.fetched (h : Accumulates f.value.level f.registry vs w)
    (hf : Fetched w f p w') : Accumulates f.value.level f.registry (vs ++ [f.value]) w' := by
  cases hf with
  | found R p hR hentry =>
      refine ⟨fun hnone => ?_, fun R' hR' key q hq => ?_, fun R' hR' key hnone => ?_⟩
      · rw [hR] at hnone
        cases hnone
      · obtain ⟨v, hv, hbuilt⟩ := h.held R' hR' key q hq
        exact ⟨v, by rw [firstWith_concat, hv, Option.some_or], hbuilt⟩
      · rw [hR] at hR'
        cases hR'
        rw [firstWith_concat, h.missing R hR key hnone, Option.none_or, if_neg ?_]
        rintro rfl
        rw [hentry] at hnone
        cases hnone
  | made R p w₁ hgc hR hnone hext hbuilt =>
      have hw₁ := h.extends hext
      have hR₁ := hext.registry _ _ R hR
      refine ⟨fun habsent => ?_, fun R' hR' key q hq => ?_, fun R' hR' key hkey => ?_⟩
      · rw [registryAt?_emplace hR₁] at habsent
        cases habsent
      · rw [registryAt?_emplace hR₁] at hR'
        cases hR'
        rw [firstWith_concat]
        rcases getElem?_insertIfNew_cases hq with ⟨rfl, rfl⟩ | hq
        · refine ⟨f.value, ?_, hbuilt.modifyRegistry⟩
          rw [hw₁.missing R hR₁ _ hnone, Option.none_or, if_pos rfl]
        · obtain ⟨v, hv, hold⟩ := hw₁.held R hR₁ key q hq
          exact ⟨v, by rw [hv, Option.some_or], hold.modifyRegistry⟩
      · rw [registryAt?_emplace hR₁] at hR'
        cases hR'
        have hne : f.value.key ≠ key := by
          rintro rfl
          rw [show (R.emplace f.value.key p).entries[f.value.key]? = some p from
            getElem?_insertIfNew_self hnone] at hkey
          cases hkey
        have hold : R.entries[key]? = none := by
          cases hentry : R.entries[key]? with
          | none => rfl
          | some q =>
              rw [show (R.emplace f.value.key p).entries[key]? = some q from
                getElem?_insertIfNew_of_some hentry] at hkey
              cases hkey
        rw [firstWith_concat, hw₁.missing R hR₁ key hold, Option.none_or, if_neg hne]

/-- A change of another registry. -/
theorem Accumulates.modifyOther {lvl' : Level} {r' : RegistryPtr} {g : Registry → Registry}
    (h : Accumulates lvl r vs w) (hother : ¬ (lvl = lvl' ∧ r = r')) :
    Accumulates lvl r vs (w.modifyRegistry lvl' r' g) := by
  have hsame : (w.modifyRegistry lvl' r' g).registryAt? lvl r = w.registryAt? lvl r := by
    rw [World.registryAt?_modifyRegistry, if_neg hother]
  refine ⟨fun hnone => h.absent (hsame ▸ hnone), fun R hR key p hp => ?_, fun R hR => ?_⟩
  · obtain ⟨v, hv, hbuilt⟩ := h.held R (hsame ▸ hR) key p hp
    exact ⟨v, hv, hbuilt.modifyRegistry⟩
  · exact h.missing R (hsame ▸ hR)

theorem Accumulates.fetchedOther (h : Accumulates lvl r vs w) (hf : Fetched w f p w')
    (hother : ¬ (lvl = f.value.level ∧ r = f.registry)) : Accumulates lvl r vs w' := by
  cases hf with
  | found R p hR hentry => exact h
  | made R p w₁ hgc hR hnone hext hbuilt => exact (h.extends hext).modifyOther hother

theorem Accumulates.clear (h : Accumulates lvl r vs w) (lvl' : Level) (r' : RegistryPtr) :
    Accumulates lvl r (if lvl' = lvl ∧ r' = r then [] else vs)
      (w.modifyRegistry lvl' r' fun R => { R with entries := ∅ }) := by
  split
  · next hsame =>
      obtain ⟨rfl, rfl⟩ := hsame
      refine ⟨fun _ => rfl, fun R hR key p hp => ?_, fun _ _ _ _ => rfl⟩
      rw [World.registryAt?_modifyRegistry, if_pos ⟨rfl, rfl⟩] at hR
      obtain ⟨R₀, -, rfl⟩ := Option.map_eq_some_iff.1 hR
      simp at hp
  · next hother =>
      exact h.modifyOther fun heq => hother ⟨heq.1.symm, heq.2.symm⟩

theorem Accumulates.update {this : Ptr} {g : Characteristic → Characteristic}
    (h : Accumulates lvl r vs w)
    (hg : ∀ C, (g C).characteristic = C.characteristic ∧ (g C).uuid = C.uuid ∧ (g C).owner = C.owner) :
    Accumulates lvl r vs (w.updateCharacteristic this g) where
  absent := h.absent
  held R hR key p hp := by
    obtain ⟨v, hv, hbuilt⟩ := h.held R hR key p hp
    exact ⟨v, hv, hbuilt.update hg⟩
  missing := h.missing

theorem Accumulates.stable : Stable (Accumulates lvl r vs) where
  newObject _ _ hw := ⟨hw.absent, hw.held, hw.missing⟩
  query _ _ hw := ⟨hw.absent, hw.held, hw.missing⟩
  log _ _ _ hw := ⟨hw.absent, hw.held, hw.missing⟩
  record _ _ _ hw := hw.update fun _ => ⟨rfl, rfl, rfl⟩
  describe _ _ _ _ hw := hw.update fun _ => ⟨rfl, rfl, rfl⟩
  deliver _ _ _ _ hw := ⟨hw.absent, hw.held, hw.missing⟩
  dequeue _ hw := ⟨hw.absent, hw.held, hw.missing⟩

/-- **What an action does to a registry** is to add what it reports to it.  The
items of scan callbacks fetch peripherals, so these are left out. -/
theorem Accumulates.action (h : Accumulates lvl r vs w) (hlvl : lvl ≠ .peripheral) (a : Action) :
    Accumulates lvl r (note H lvl r w vs a) ((a.prog H).run w).2 := by
  -- what is neither a fetch nor a clear fetches nothing at this level
  have hother : (∀ f, a ≠ .fetch f) → (∀ lvl' r', a ≠ .clear lvl' r') →
      Accumulates lvl r vs ((a.prog H).run w).2 := by
    intro hfetch hclear
    refine Accumulates.stable.action_keeps (K := fun _ f => f.value.level ≠ lvl) (fun f => ?_)
      (fun _ _ hne => hne) h (fun lvl' r' heq => absurd heq (hclear lvl' r')) fun f hf => ?_
    · rintro w ⟨hw, hne⟩
      exact (fetch_fetched H f w).conseq (fun _ hw' => hw')
        (fun p w' hf => hw.fetchedOther hf fun heq => hne heq.1.symm)
        (fun w' hext => hw.extends hext) w rfl
    · cases a with
      | fetch f' => exact absurd rfl (hfetch f')
      | runItem env =>
          rw [Action.fetch?] at hf
          split at hf
          · obtain ⟨A, -, rfl⟩ := Option.map_eq_some_iff.1 hf
            exact hlvl.symm
          · obtain ⟨A, -, rfl⟩ := Option.map_eq_some_iff.1 hf
            exact hlvl.symm
          · cases hf
      | _ => cases hf
  cases a with
  | fetch f =>
      rw [Action.prog, run_discard, note]
      rcases hrun : (f.prog H).run w with ⟨_ | p, w'⟩
      · rw [if_neg (by rintro ⟨-, -, ⟨⟩⟩)]
        exact h.extends (fetch_error hrun)
      · by_cases hat : f.value.level = lvl ∧ f.registry = r
        · obtain ⟨rfl, rfl⟩ := hat
          rw [if_pos ⟨rfl, rfl, rfl⟩]
          exact h.fetched (fetch_ok hrun)
        · rw [if_neg fun hnote => hat ⟨hnote.1, hnote.2.1⟩]
          exact h.fetchedOther (fetch_ok hrun) fun heq => hat ⟨heq.1.symm, heq.2.symm⟩
  | clear lvl' r' => exact h.clear lvl' r'
  | _ => exact hother (by simp) (by simp)

theorem Accumulates.run (h : Accumulates lvl r vs w) (hlvl : lvl ≠ .peripheral) {as : List Action}
    (hrun : (bindingsSystem H).runFrom w as = some w') :
    Accumulates lvl r (reportedFrom H lvl r w vs as) w' := by
  induction as generalizing w vs with
  | nil =>
      cases hrun
      exact h
  | cons a as ih => exact ih (h.action hlvl a) hrun

/-- What is reported to a registry is of its level. -/
theorem level_of_mem_reportedFrom {as : List Action} (hvs : ∀ v ∈ vs, v.level = lvl) :
    ∀ v ∈ reportedFrom H lvl r w vs as, v.level = lvl := by
  induction as generalizing w vs with
  | nil => exact hvs
  | cons a as ih =>
      refine ih ?_
      rw [note.eq_def]
      split
      · split
        · simp
        · exact hvs
      · split
        · next hf => exact List.forall_mem_append.2 ⟨hvs, List.forall_mem_singleton.2 hf.1⟩
        · exact hvs
      · exact hvs

theorem reported_append {as bs : List Action} (hrun : (bindingsSystem H).run as = some w) :
    reported H lvl r (as ++ bs) = reportedFrom H lvl r w (reported H lvl r as) bs := by
  have happend : ∀ w₀ vs, (bindingsSystem H).runFrom w₀ as = some w →
      reportedFrom H lvl r w₀ vs (as ++ bs) =
        reportedFrom H lvl r w (reportedFrom H lvl r w₀ vs as) bs := by
    clear hrun
    induction as with
    | nil =>
        intro w₀ vs hrun
        cases hrun
        rfl
    | cons a as ih => exact fun w₀ vs hrun => ih _ _ hrun
  exact happend World.init [] hrun

end Accumulates

/-! ## Lookups -/

section Lookups

variable {H : Hashes} {w w' : World} {lvl : Level} {r : RegistryPtr} {env : Env}

/-- **A list of fetches is a run** that reports all of its values. -/
theorem mapToObjects_run {values : List (Value × Env)} {ps : List Ptr}
    (hlvl : ∀ v ∈ values, v.1.level = lvl)
    (h : (mapToObjects H r values).run w = (.ok ps, w')) :
    ∃ bs, (bindingsSystem H).runFrom w bs = some w' ∧
      ∀ vs, reportedFrom H lvl r w vs bs = vs ++ values.map (·.1) := by
  induction values generalizing w ps with
  | nil =>
      cases h
      exact ⟨[], rfl, fun vs => (List.append_nil vs).symm⟩
  | cons v values ih =>
      obtain ⟨p, w₁, hp, h⟩ := Program.run_bind_cases h
      obtain ⟨qs, w₂, hqs, h⟩ := Program.run_bind_cases h
      cases h
      rw [List.forall_mem_cons] at hlvl
      obtain ⟨bs, hrun, hreported⟩ := ih hlvl.2 hqs
      have hstep : ((Action.fetch ⟨r, v.1, v.2⟩).prog H).run w = (.ok (), w₁) := by
        rw [Action.prog, run_discard, hp]
        rfl
      refine ⟨.fetch ⟨r, v.1, v.2⟩ :: bs, ?_, fun vs => ?_⟩
      · rw [System.runFrom_cons, show (bindingsSystem H).step w _ = some _ from rfl, hstep]
        exact hrun
      · rw [reportedFrom, hstep, hreported, note, hp, if_pos ⟨hlvl.1, rfl, rfl⟩, List.append_assoc]
        rfl

/-- What lookups do outside of a collection: ask the backend, fetch what it
reports, and return the registry. -/
abbrev listing (H : Hashes) (env : Env) (q : Query) (lvl : Level) (r : RegistryPtr)
    (values : List (Value × Env)) : Prog (Std.TreeMap String Ptr) := do
  query env q
  let _ ← mapToObjects H r values
  let registry ← registryAt lvl r
  return registry.entries

theorem services_eq {this : Ptr} {P : Peripheral} {report : List (SimpleBLE.Service × Env)}
    (hP : w.peripherals.get? this = some P) (hgc : env.duringGc = false) :
    (Peripheral.services H env this report).run w =
      (listing H env (.services this) .service P.serviceRegistry
        (report.map fun v => (.service v.1, v.2))).run w := by
  rw [Peripheral.services, Program.run_bind_ok (deref_run hP), Program.when, if_pos hgc]
  simp only [bind_assoc, pure_bind]

theorem characteristics_eq {this : Ptr} {S : Service}
    {report : List (SimpleBLE.Characteristic × Env)} (hS : w.services.get? this = some S)
    (hgc : env.duringGc = false) :
    (Service.characteristics H env this report).run w =
      (listing H env (.characteristics this) .characteristic S.characteristicRegistry
        (report.map fun v => (.characteristic v.1, v.2))).run w := by
  rw [Service.characteristics, Program.run_bind_ok (deref_run hS), Program.when, if_pos hgc]
  simp only [bind_assoc, pure_bind]

theorem services_level (report : List (SimpleBLE.Service × Env)) :
    ∀ v ∈ report.map (fun v => (Value.service v.1, v.2)), v.1.level = .service :=
  List.forall_mem_map.2 fun _ _ => rfl

theorem characteristics_level (report : List (SimpleBLE.Characteristic × Env)) :
    ∀ v ∈ report.map (fun v => (Value.characteristic v.1, v.2)), v.1.level = .characteristic :=
  List.forall_mem_map.2 fun _ _ => rfl

/-- A lookup that returns is a run as well, and returns the registry. -/
theorem listing_run {q : Query} {values : List (Value × Env)} {m : Std.TreeMap String Ptr}
    (hlvl : ∀ v ∈ values, v.1.level = lvl)
    (h : (listing H env q lvl r values).run w = (.ok m, w')) :
    (∃ R, w'.registryAt? lvl r = some R ∧ R.entries = m) ∧
      ∃ bs, (bindingsSystem H).runFrom w bs = some w' ∧
        ∀ vs, reportedFrom H lvl r w vs bs = vs ++ values.map (·.1) := by
  obtain ⟨_, w₁, hquery, h⟩ := Program.run_bind_cases h
  obtain ⟨ps, w₂, hps, h⟩ := Program.run_bind_cases h
  obtain ⟨bs, hrun, hreported⟩ := mapToObjects_run hlvl hps
  have hstep : ((Action.query q env).prog H).run w = (.ok (), w₁) := hquery
  cases hR : w₂.registryAt? lvl r with
  | none =>
      rw [Program.run_bind_error (registryAt_run_none hR)] at h
      cases h
  | some R =>
      rw [Program.run_bind_ok (registryAt_run hR)] at h
      cases h
      refine ⟨⟨R, hR, rfl⟩, .query q env :: bs, ?_, fun vs => ?_⟩
      · rw [System.runFrom_cons, show (bindingsSystem H).step w _ = some _ from rfl, hstep]
        exact hrun
      · rw [reportedFrom, hstep]
        exact hreported vs

/-- A registry returned after these values were reported to it. -/
theorem Accumulates.mem_iff {vs : List Value} {R : Registry} (h : Accumulates lvl r vs w)
    (hR : w.registryAt? lvl r = some R) (key : String) :
    key ∈ R.entries ↔ ∃ v ∈ vs, v.key = key := by
  rw [← firstWith_isSome, Std.TreeMap.mem_iff_isSome_getElem?]
  cases hentry : R.entries[key]? with
  | none => rw [h.missing R hR key hentry]; simp
  | some p =>
      obtain ⟨v, hv, -⟩ := h.held R hR key p hentry
      rw [hv]
      simp

/-- What lookups after the run `as` return: the proxies for all that was
reported since the last clear, the report they fetch included, which counts as
reported from then on.  No other peripheral, or service, fetches into the registry. -/
structure Accumulated (H : Hashes) (as : List Action) (w : World) : Prop where
  aloneServices : ∀ this P this' P', w.peripherals.get? this = some P →
    w.peripherals.get? this' = some P' → P'.serviceRegistry = P.serviceRegistry → this' = this
  services : ∀ this P env report m w', w.peripherals.get? this = some P → env.duringGc = false →
    (Peripheral.services H env this report).run w = (.ok m, w') →
    ∃ vs, vs = reported H .service P.serviceRegistry as ++ report.map (.service ·.1) ∧
      (∀ uuid, uuid ∈ m ↔ ∃ v ∈ vs, v.key = uuid) ∧
      (∀ (uuid : String) p, m[uuid]? = some p → ∃ S value, w'.services.get? p = some S ∧
        firstWith uuid vs = some (.service value) ∧ S.data = value.data) ∧
      ∃ bs, (bindingsSystem H).run (as ++ bs) = some w' ∧
        reported H .service P.serviceRegistry (as ++ bs) = vs
  aloneCharacteristics : ∀ this S this' S', w.services.get? this = some S →
    w.services.get? this' = some S' → S'.characteristicRegistry = S.characteristicRegistry →
    this' = this
  characteristics : ∀ this S env report m w', w.services.get? this = some S → env.duringGc = false →
    (Service.characteristics H env this report).run w = (.ok m, w') →
    ∃ vs, vs = reported H .characteristic S.characteristicRegistry as ++
        report.map (.characteristic ·.1) ∧
      (∀ uuid, uuid ∈ m ↔ ∃ v ∈ vs, v.key = uuid) ∧
      ∃ bs, (bindingsSystem H).run (as ++ bs) = some w' ∧
        reported H .characteristic S.characteristicRegistry (as ++ bs) = vs

theorem accumulates_of_run {as : List Action} (hlvl : lvl ≠ .peripheral)
    (hrun : (bindingsSystem H).run as = some w) : Accumulates lvl r (reported H lvl r as) w :=
  (Accumulates.init lvl r).run hlvl hrun

theorem run_append {as bs : List Action} (hrun : (bindingsSystem H).run as = some w)
    (hbs : (bindingsSystem H).runFrom w bs = some w') :
    (bindingsSystem H).run (as ++ bs) = some w' := by
  rw [System.run, System.runFrom_append, show (bindingsSystem H).runFrom _ as = some w from hrun]
  exact hbs

/-- What a registry has accumulated when a lookup returns it. -/
theorem listing_accumulates {as : List Action} {q : Query} {values : List (Value × Env)}
    {m : Std.TreeMap String Ptr} (hne : lvl ≠ .peripheral) (hlvl : ∀ v ∈ values, v.1.level = lvl)
    (hrun : (bindingsSystem H).run as = some w)
    (h : (listing H env q lvl r values).run w = (.ok m, w')) :
    (∃ R, w'.registryAt? lvl r = some R ∧ R.entries = m) ∧
      Accumulates lvl r (reported H lvl r as ++ values.map (·.1)) w' ∧
      ∃ bs, (bindingsSystem H).run (as ++ bs) = some w' ∧
        reported H lvl r (as ++ bs) = reported H lvl r as ++ values.map (·.1) := by
  obtain ⟨hR, bs, hbs, hreported⟩ := listing_run hlvl h
  have hrun' := run_append hrun hbs
  have hvs := (reported_append hrun).trans (hreported (reported H lvl r as))
  have hw' : Accumulates lvl r _ w' := accumulates_of_run hne hrun'
  rw [hvs] at hw'
  exact ⟨hR, hw', bs, hrun', hvs⟩

/-- **What lookups return** is what was reported since the last clear, in this
report or an earlier one of the same peripheral or service; a service keeps the
data of the first. -/
theorem accumulated (H : Hashes) (as : List Action) (w : World)
    (hok : (bindingsSystem H).Meets (NoClash H) World.init as)
    (hrun : (bindingsSystem H).run as = some w) : Accumulated H as w where
  aloneServices := by
    intro this P this' P' hP hP' hsame
    have hrouted := routed_of_noClash hok hrun
    exact Option.some.inj ((hsame ▸ hrouted.ownServices this' P' hP').unique
      (hrouted.ownServices this P hP))
  aloneCharacteristics := by
    intro this S this' S' hS hS' hsame
    have hrouted := routed_of_noClash hok hrun
    exact Option.some.inj ((hsame ▸ hrouted.ownCharacteristics this' S' hS').unique
      (hrouted.ownCharacteristics this S hS))
  services := by
    intro this P env report m w' hP hgc hm
    rw [services_eq hP hgc] at hm
    obtain ⟨⟨R, hR, rfl⟩, hw', bs, hbs, hvs⟩ :=
      listing_accumulates (by decide) (services_level report) hrun hm
    rw [List.map_map] at hw' hvs
    refine ⟨_, rfl, hw'.mem_iff hR, fun uuid p hp => ?_, bs, hbs, hvs⟩
    obtain ⟨v, hv, hbuilt⟩ := hw'.held R hR uuid p hp
    have hlevel := level_of_mem_reportedFrom (by simp) v (hvs ▸ List.mem_of_find?_eq_some hv)
    cases v with
    | service value =>
        obtain ⟨S, hS, rfl, -⟩ := hbuilt
        exact ⟨S, S.service, hS, hv, rfl⟩
    | adapter value | peripheral value | characteristic value => cases hlevel
  characteristics := by
    intro this S env report m w' hS hgc hm
    rw [characteristics_eq hS hgc] at hm
    obtain ⟨⟨R, hR, rfl⟩, hw', bs, hbs, hvs⟩ :=
      listing_accumulates (by decide) (characteristics_level report) hrun hm
    rw [List.map_map] at hw' hvs
    exact ⟨_, rfl, hw'.mem_iff hR, bs, hbs, hvs⟩

/-- A peripheral whose battery service has been reported once. -/
def batteryReported : List Action :=
  [.fetch ⟨0, .adapter ⟨0, "00:00:00:00:00:01"⟩, {}⟩,
   .fetch ⟨0, .peripheral ⟨0, "00:00:00:00:00:0a", .publicAddress⟩, {}⟩,
   .query (.services 0) {}, .fetch ⟨0, .service ⟨"180f", [1]⟩, {}⟩]

/-- It is returned when the backend reports it no more. -/
theorem batteryReported_services : ((bindingsSystem sampleHashes).run batteryReported).map (fun w =>
    ((Peripheral.services sampleHashes {} 0 []).run w).1.toOption.map (·.toList)) =
      some (some [("180f", 0)]) := by
  decide +kernel

theorem accumulated_batteryReported : ∃ w, (bindingsSystem sampleHashes).run batteryReported = some w ∧
    ((Peripheral.services sampleHashes {} 0 []).run w).1.toOption.map (·.toList) =
      some [("180f", 0)] ∧
    Accumulated sampleHashes batteryReported w := by
  obtain ⟨w, hrun, hm⟩ := Option.map_eq_some_iff.1 batteryReported_services
  exact ⟨w, hrun, hm,
    accumulated sampleHashes batteryReported w (by decide +kernel) hrun⟩

/-- What `services` returns is not always what the backend reports. -/
theorem not_mirror_batteryReported :
    ¬ ∀ (H : Hashes) (as : List Action) (w w' : World) (this : Ptr) (env : Env)
      (report : List (SimpleBLE.Service × Env)) (m : Std.TreeMap String Ptr),
      (bindingsSystem H).run as = some w → env.duringGc = false →
      (Peripheral.services H env this report).run w = (.ok m, w') →
        ∀ uuid, uuid ∈ m ↔ ∃ v ∈ report, v.1.uuid = uuid := by
  intro hall
  obtain ⟨w, hrun, hm⟩ := Option.map_eq_some_iff.1 batteryReported_services
  rcases hservices : (Peripheral.services sampleHashes {} 0 []).run w with ⟨_ | m, w'⟩
  · rw [hservices] at hm
    cases hm
  · rw [hservices] at hm
    have hlist : m.toList = [("180f", 0)] := Option.some.inj hm
    have hmem : "180f" ∈ m := by
      rw [Std.TreeMap.mem_iff_isSome_getElem?,
        Std.TreeMap.mem_toList_iff_getElem?_eq_some.1 (hlist ▸ List.mem_singleton_self _)]
      rfl
    obtain ⟨v, hv, -⟩ := (hall _ _ w w' 0 {} [] m hrun rfl hservices "180f").1 hmem
    cases hv

end Lookups

end RuBLE
