import Mathlib
import RuBLE.Bindings.Registries

/-!
# What is marked during a garbage collection

The model of the `ruby_mark` functions: those of `utils/garbage_collection.cpp`
and the member functions they call.  Ruby frees the objects that are not passed
to `rb_gc_mark`, so what the proxies store should all be passed.

* `AdapterRegistry.rubyMark` — the mark function that starts it all.
* `Stored` — the values stored in the graph of objects under the `AdapterRegistry`.
* `rubyMark_run` — what is passed, in order; nothing else happens.
* `complete_iff` — **marking is complete** only while there is no adapter.
* `mem_passed_iff` — of the values stored in a linked graph, precisely those of
  three classes are missed: adapters, the registries of characteristics, and
  descriptors; the graph is linked at every point of a run, `linked`.
* `marking_read_only` — **marking is read-only**, for each mark function.
-/

namespace RuBLE

open Transition

/-! ## Mark functions -/

/-- The class of the Ruby object that wraps a registry. -/
def Level.registryClass : Level → RubyClass
  | .adapter => .adapterRegistry
  | .peripheral => .peripheralRegistry
  | .service => .serviceRegistry
  | .characteristic => .characteristicRegistry

/-- `rb_gc_mark`. -/
def gcMark (v : VALUE) : Prog Unit := Program.modify fun w => { w with marked := w.marked ++ [v] }

/-- `Rice::ruby_mark<T>`, for a type that it is not specialised for. -/
def Rice.rubyMark {α : Type} (_ : α) : Prog Unit := pure ()

/-- While the mark functions run, `rb_during_gc()` is true. -/
def collecting : Env := { duringGc := true }

/-- `Callback::ruby_mark`. -/
def Callback.rubyMark (c : Callback) : Prog Unit :=
  match c.cb with
  | some id => gcMark (.proc id)
  | none => pure ()

/-- `ByteArray::ruby_mark`. -/
def ByteArray.rubyMark (b : ByteArray) : Prog Unit :=
  match b.self with
  | some id => gcMark (.object .byteArray id)
  | none => pure ()

/-- `CharacteristicValueTracker::ruby_mark`. -/
def CharacteristicValueTracker.rubyMark (t : CharacteristicValueTracker) : Prog Unit :=
  match t.value with
  | some b => b.rubyMark
  | none => pure ()

/-- `if (callback) Rice::ruby_mark(callback.get())`. -/
def markCallback (c : Option Callback) : Prog Unit :=
  match c with
  | some c => c.rubyMark
  | none => pure ()

/-- `Characteristic::ruby_mark`; for descriptors there is no specialisation. -/
def Characteristic.rubyMark (this : Ptr) : Prog Unit := do
  let c ← deref World.characteristics (some this)
  gcMark (.object .characteristic c.self)
  c.tracker.rubyMark
  markCallback c.onIndicate
  markCallback c.onNotify
  match c.descriptors with
  | some descriptors => descriptors.toList.forM fun d => Rice.rubyMark d.2
  | none => pure ()

/-- `Registry::ruby_mark`, with the mark function of its proxies. -/
def Registry.rubyMark (lvl : Level) (markProxy : Ptr → Prog Unit) (r : RegistryPtr) : Prog Unit := do
  let registry ← registryAt lvl r
  gcMark (.object lvl.registryClass registry.self)
  Rice.rubyMark registry.entries
  registry.entries.toList.forM fun e => markProxy e.2

/-- `Service::ruby_mark`, which goes through `characteristics()`. -/
def Service.rubyMark (H : Hashes) (this : Ptr) : Prog Unit := do
  let s ← deref World.services (some this)
  gcMark (.object .service s.self)
  let characteristics ← Service.characteristics H collecting this []
  characteristics.toList.forM fun e => Characteristic.rubyMark e.2

/-- `Peripheral::ruby_mark`. -/
def Peripheral.rubyMark (H : Hashes) (this : Ptr) : Prog Unit := do
  let p ← deref World.peripherals (some this)
  gcMark (.object .peripheral p.self)
  p.onConnected.rubyMark
  p.onDisconnected.rubyMark
  Registry.rubyMark .service (Service.rubyMark H) p.serviceRegistry

/-- `Adapter::ruby_mark`. -/
def Adapter.rubyMark (H : Hashes) (this : Ptr) : Prog Unit := do
  let a ← deref World.adapters (some this)
  Registry.rubyMark .peripheral (Peripheral.rubyMark H) a.peripheralRegistry
  a.onScanStart.rubyMark
  a.onScanStop.rubyMark
  a.onScanUpdate.rubyMark
  a.onScanFind.rubyMark

/-- `AdapterRegistry::ruby_mark`. -/
def AdapterRegistry.rubyMark (H : Hashes) : Prog Unit :=
  Registry.rubyMark .adapter (Adapter.rubyMark H) 0

/-- What is passed to `rb_gc_mark` by the mark function of the `AdapterRegistry`. -/
def World.passed (w : World) (H : Hashes) : List VALUE :=
  ((AdapterRegistry.rubyMark H).run { w with marked := [] }).2.marked

/-! ## Stored values -/

/-- The proc of a callback. -/
def Callback.values (c : Callback) : List VALUE := (c.cb.map .proc).toList

/-- The object of a byte array, once it has been allocated. -/
def ByteArray.values (b : ByteArray) : List VALUE := (b.self.map (.object .byteArray)).toList

/-- The values a tracker stores. -/
def CharacteristicValueTracker.values (t : CharacteristicValueTracker) : List VALUE :=
  t.value.elim [] ByteArray.values

/-- The values an adapter stores. -/
def Adapter.values (a : Adapter) : List VALUE :=
  .object .adapter a.self :: (a.onScanStart.values ++ a.onScanStop.values ++ a.onScanUpdate.values ++
    a.onScanFind.values)

/-- The values a peripheral stores. -/
def Peripheral.values (p : Peripheral) : List VALUE :=
  .object .peripheral p.self :: (p.onConnected.values ++ p.onDisconnected.values)

/-- The values a characteristic stores, and those of its descriptors. -/
def Characteristic.values (c : Characteristic) : List VALUE :=
  .object .characteristic c.self :: (c.tracker.values ++ c.onIndicate.elim [] Callback.values ++
    c.onNotify.elim [] Callback.values ++
    c.descriptors.elim [] fun ds => ds.toList.map fun d => .object .descriptor d.2.self)

/-- The values stored in the proxy at an address. -/
def World.values (w : World) : Level → Ptr → List VALUE
  | .adapter, p => (w.adapters.get? p).elim [] Adapter.values
  | .peripheral, p => (w.peripherals.get? p).elim [] Peripheral.values
  | .service, p => (w.services.get? p).elim [] fun s => [.object .service s.self]
  | .characteristic, p => (w.characteristics.get? p).elim [] Characteristic.values

/-- The registry that the proxy at an address keeps. -/
def World.keeps (w : World) : Level → Ptr → Option (Level × RegistryPtr)
  | .adapter, p => (w.adapters.get? p).map fun a => (.peripheral, a.peripheralRegistry)
  | .peripheral, p => (w.peripherals.get? p).map fun p => (.service, p.serviceRegistry)
  | .service, p => (w.services.get? p).map fun s => (.characteristic, s.characteristicRegistry)
  | .characteristic, _ => none

/-- The registries of the graph under the `AdapterRegistry`. -/
inductive InGraph (w : World) : Level → RegistryPtr → Prop where
  | root : InGraph w .adapter 0
  | kept {lvl lvl' : Level} {r r' : RegistryPtr} {R : Registry} {key : String} {p : Ptr} :
      InGraph w lvl r → w.registryAt? lvl r = some R → R.entries[key]? = some p →
      w.keeps lvl p = some (lvl', r') → InGraph w lvl' r'

/-- The values stored in the graph. -/
inductive Stored (w : World) (v : VALUE) : Prop where
  | registry {lvl : Level} {r : RegistryPtr} {R : Registry} : InGraph w lvl r →
      w.registryAt? lvl r = some R → v = .object lvl.registryClass R.self → Stored w v
  | proxy {lvl : Level} {r : RegistryPtr} {R : Registry} {key : String} {p : Ptr} :
      InGraph w lvl r → w.registryAt? lvl r = some R → R.entries[key]? = some p →
      v ∈ w.values lvl p → Stored w v

/-- Every value stored in the graph is passed to `rb_gc_mark`. -/
def Complete (H : Hashes) (w : World) : Prop := ∀ v, Stored w v → v ∈ w.passed H

/-! ## What is missed -/

/-- A value of a class that no mark function passes. -/
def VALUE.Missed : VALUE → Prop
  | .object .adapter _ | .object .characteristicRegistry _ | .object .descriptor _ => True
  | _ => False

/-- Nothing of those classes has been passed. -/
def NoneMissed (w : World) : Prop := ∀ v ∈ w.marked, ¬ v.Missed

section Keeps

variable {Q : World → Prop}
  (hmark : ∀ v : VALUE, ¬ v.Missed → Program.Triple Q (gcMark v) (fun _ => Q) Q)

include hmark

theorem Callback.rubyMark_keeps (c : Callback) :
    Program.Triple Q c.rubyMark (fun _ => Q) Q := by
  rw [Callback.rubyMark]
  split
  · exact hmark _ id
  · exact Program.Triple.skip ()

theorem markCallback_keeps (c : Option Callback) :
    Program.Triple Q (markCallback c) (fun _ => Q) Q := by
  cases c with
  | none => exact Program.Triple.skip ()
  | some c => exact c.rubyMark_keeps hmark

theorem ByteArray.rubyMark_keeps (b : ByteArray) :
    Program.Triple Q b.rubyMark (fun _ => Q) Q := by
  rw [ByteArray.rubyMark]
  split
  · exact hmark _ id
  · exact Program.Triple.skip ()

theorem CharacteristicValueTracker.rubyMark_keeps (t : CharacteristicValueTracker) :
    Program.Triple Q t.rubyMark (fun _ => Q) Q := by
  rw [CharacteristicValueTracker.rubyMark]
  split
  · exact ByteArray.rubyMark_keeps hmark _
  · exact Program.Triple.skip ()

theorem Characteristic.rubyMark_keeps (this : Ptr) :
    Program.Triple Q (Characteristic.rubyMark this) (fun _ => Q) Q := by
  refine Program.Triple.bind (Stable.deref_keeps _ _) fun c => ?_
  refine Program.Triple.bind (hmark _ id) fun _ => ?_
  refine Program.Triple.bind (c.tracker.rubyMark_keeps hmark) fun _ => ?_
  refine Program.Triple.bind (markCallback_keeps hmark _) fun _ => ?_
  refine Program.Triple.bind (markCallback_keeps hmark _) fun _ => ?_
  cases c.descriptors with
  | none => exact Program.Triple.skip ()
  | some ds => exact Program.Triple.forM _ fun d _ => Program.Triple.skip ()

omit hmark in
theorem Registry.rubyMark_keeps {lvl : Level} {markProxy : Ptr → Prog Unit} {r : RegistryPtr}
    (hself : ∀ id, Program.Triple Q (gcMark (.object lvl.registryClass id)) (fun _ => Q) Q)
    (hproxy : ∀ p, Program.Triple Q (markProxy p) (fun _ => Q) Q) :
    Program.Triple Q (Registry.rubyMark lvl markProxy r) (fun _ => Q) Q := by
  have hregistry := (registryAt_triple (Q := Q) lvl r).conseq (fun _ hw => hw)
    (fun _ _ hw => hw.1) fun _ hw => hw
  refine Program.Triple.bind hregistry fun R => ?_
  refine Program.Triple.bind (hself R.self) fun _ => ?_
  refine Program.Triple.bind (Program.Triple.skip ()) fun _ => ?_
  exact Program.Triple.forM _ fun e _ => hproxy e.2

omit hmark in
/-- During a collection `characteristics()` only looks. -/
theorem Service.characteristics_keeps (H : Hashes) (this : Ptr) :
    Program.Triple Q (Service.characteristics H collecting this []) (fun _ => Q) Q := by
  refine Program.Triple.bind (Stable.deref_keeps _ _) fun s => ?_
  refine Program.Triple.bind (Program.Triple.when fun h => by cases h) fun _ => ?_
  have hregistry := (registryAt_triple (Q := Q) .characteristic
    s.characteristicRegistry).conseq (fun _ hw => hw) (fun _ _ hw => hw.1) fun _ hw => hw
  exact Program.Triple.bind hregistry fun R => Program.Triple.skip _

theorem Service.rubyMark_keeps (H : Hashes) (this : Ptr) :
    Program.Triple Q (Service.rubyMark H this) (fun _ => Q) Q := by
  refine Program.Triple.bind (Stable.deref_keeps _ _) fun s => ?_
  refine Program.Triple.bind (hmark _ id) fun _ => ?_
  refine Program.Triple.bind (Service.characteristics_keeps H this) fun cs => ?_
  exact Program.Triple.forM _ fun e _ => Characteristic.rubyMark_keeps hmark e.2

theorem Peripheral.rubyMark_keeps (H : Hashes) (this : Ptr) :
    Program.Triple Q (Peripheral.rubyMark H this) (fun _ => Q) Q := by
  refine Program.Triple.bind (Stable.deref_keeps _ _) fun p => ?_
  refine Program.Triple.bind (hmark _ id) fun _ => ?_
  refine Program.Triple.bind (p.onConnected.rubyMark_keeps hmark) fun _ => ?_
  refine Program.Triple.bind (p.onDisconnected.rubyMark_keeps hmark) fun _ => ?_
  exact Registry.rubyMark_keeps (fun _ => hmark _ id) (Service.rubyMark_keeps hmark H)

theorem Adapter.rubyMark_keeps (H : Hashes) (this : Ptr) :
    Program.Triple Q (Adapter.rubyMark H this) (fun _ => Q) Q := by
  refine Program.Triple.bind (Stable.deref_keeps _ _) fun a => ?_
  refine Program.Triple.bind
    (Registry.rubyMark_keeps (fun _ => hmark _ id) (Peripheral.rubyMark_keeps hmark H)) fun _ => ?_
  refine Program.Triple.bind (a.onScanStart.rubyMark_keeps hmark) fun _ => ?_
  refine Program.Triple.bind (a.onScanStop.rubyMark_keeps hmark) fun _ => ?_
  refine Program.Triple.bind (a.onScanUpdate.rubyMark_keeps hmark) fun _ => ?_
  exact a.onScanFind.rubyMark_keeps hmark

end Keeps

theorem gcMark_noneMissed {v : VALUE} (hv : ¬ v.Missed) :
    Program.Triple NoneMissed (gcMark v) (fun _ => NoneMissed) NoneMissed := by
  refine Program.Triple.modify fun w hw u hu => ?_
  rcases List.mem_append.1 hu with hu | hu
  · exact hw u hu
  · rwa [List.mem_singleton.1 hu]

/-- Three classes are never marked, whatever the graph looks like. -/
theorem not_missed_of_passed (H : Hashes) (w : World) : ∀ v ∈ w.passed H, ¬ v.Missed :=
  Program.Triple.final (Registry.rubyMark_keeps (fun _ => gcMark_noneMissed id)
    (Adapter.rubyMark_keeps (fun _ => gcMark_noneMissed) H)) (by simp [NoneMissed])

/-! ## When marking is complete -/

/-- The `AdapterRegistry` holds no adapter. -/
def NoAdapters (w : World) : Prop :=
  ∀ R (key : String) a, w.registryAt? .adapter 0 = some R → R.entries[key]? = some a →
    w.adapters.get? a = none

theorem NoAdapters.inGraph {w : World} (hnone : NoAdapters w) {lvl : Level} {r : RegistryPtr}
    (h : InGraph w lvl r) : lvl = .adapter ∧ r = 0 := by
  induction h with
  | root => exact ⟨rfl, rfl⟩
  | kept _ hR hp hkeeps ih =>
      obtain ⟨rfl, rfl⟩ := ih
      rw [World.keeps, hnone _ _ _ hR hp] at hkeeps
      cases hkeeps

/-- The object of the `AdapterRegistry` is passed first. -/
theorem NoAdapters.passed {w : World} {H : Hashes} {R : Registry} (hnone : NoAdapters w)
    (hR : w.registryAt? .adapter 0 = some R) : .object .adapterRegistry R.self ∈ w.passed H := by
  let Q : World → Prop := fun w' =>
    .object .adapterRegistry R.self ∈ w'.marked ∧ w'.adapters = w.adapters
  have hrest : Program.Triple Q (do
      Rice.rubyMark R.entries
      R.entries.toList.forM fun e => Adapter.rubyMark H e.2) (fun _ => Q) Q := by
    refine Program.Triple.bind (Program.Triple.skip ()) fun _ => ?_
    refine Program.Triple.forM _ fun e he => ?_
    refine Program.Triple.bind (R := fun _ _ => False) ?_ fun _ _ hw => hw.elim
    -- nothing is there to be marked
    refine (deref_triple fun _ hw => hw).conseq (fun _ hw => hw) ?_ fun _ hw => hw
    rintro a w' ⟨⟨-, hsame⟩, q, hq, ha⟩
    cases hq
    rw [hsame, hnone R e.1 e.2 hR (Std.TreeMap.mem_toList_iff_getElem?_eq_some.1 he)] at ha
    cases ha
  have hrun : (AdapterRegistry.rubyMark H).run { w with marked := [] } =
      Program.run (do
        Rice.rubyMark R.entries
        R.entries.toList.forM fun e => Adapter.rubyMark H e.2)
        { w with marked := [.object .adapterRegistry R.self] } := by
    refine Program.run_bind_ok (a := R) (t := { w with marked := [] }) ?_
    rw [registryAt, Program.run_bind_ok (show Program.get.run _ = (.ok _, _) from rfl)]
    rw [show ({ w with marked := [] } : World).registryAt? .adapter 0 = some R from hR]
    rfl
  have hfinal := hrest.final (s := { w with marked := [.object .adapterRegistry R.self] })
    ⟨List.mem_singleton_self _, rfl⟩
  rw [World.passed, hrun]
  exact hfinal.1

/-- **When marking is complete**: every value stored under the `AdapterRegistry`
is passed to `rb_gc_mark` precisely if there is no adapter in it. -/
theorem complete_iff (H : Hashes) (w : World) : Complete H w ↔ NoAdapters w := by
  constructor
  · intro hcomplete R key a hR ha
    cases hA : w.adapters.get? a with
    | none => rfl
    | some A =>
        have hstored : Stored w (.object .adapter A.self) :=
          .proxy .root hR ha (by rw [World.values, hA]; exact List.mem_cons_self)
        exact absurd trivial (not_missed_of_passed H w _ (hcomplete _ hstored))
  · rintro hnone v (⟨hgraph, hR, rfl⟩ | ⟨hgraph, hR, hp, hv⟩)
    · obtain ⟨rfl, rfl⟩ := hnone.inGraph hgraph
      exact hnone.passed hR
    · obtain ⟨rfl, rfl⟩ := hnone.inGraph hgraph
      rw [World.values, hnone _ _ _ hR hp] at hv
      cases hv

/-- One adapter has been found. -/
def oneAdapter : List Action := [.fetch ⟨0, .adapter ⟨0, "00:00:00:00:00:01"⟩, {}⟩]

theorem oneAdapter_stored : ((bindingsSystem sampleHashes).run oneAdapter).map (fun w =>
    ((w.registryAt? .adapter 0).bind (·.entries["00:00:00:00:00:01"]?),
      (w.adapters.get? 0).map (·.self), w.passed sampleHashes)) =
    some (some 0, some 1, [.object .adapterRegistry 0, .object .peripheralRegistry 2]) := by
  decide +kernel

/-- The object of an adapter is not passed. -/
theorem not_complete_oneAdapter :
    ¬ ∀ (H : Hashes) (w : World), (bindingsSystem H).Reachable w → Complete H w := by
  intro hall
  obtain ⟨w, hrun, hw⟩ := Option.map_eq_some_iff.1 oneAdapter_stored
  obtain ⟨hentry, hw⟩ := Prod.mk.inj hw
  obtain ⟨hself, hpassed⟩ := Prod.mk.inj hw
  obtain ⟨R, hR, ha⟩ := Option.bind_eq_some_iff.1 hentry
  obtain ⟨A, hA, hid⟩ := Option.map_eq_some_iff.1 hself
  have hstored : Stored w (.object .adapter A.self) :=
    .proxy .root hR ha (by rw [World.values, hA]; exact List.mem_cons_self)
  have hmem := hall sampleHashes w (System.reachable_of_run hrun) _ hstored
  rw [hpassed, hid] at hmem
  exact absurd hmem (by decide)

/-! ## What is passed -/

/-- From `w`, the program passes the values of a list, and does nothing else. -/
def Marks (w : World) (x : Prog Unit) (l : List VALUE) : Prop :=
  ∀ ms, x.run { w with marked := ms } = (.ok (), { w with marked := ms ++ l })

namespace Marks

variable {w : World} {x : Prog Unit} {l l' : List VALUE}

theorem skip : Marks w (pure ()) [] := by
  intro ms
  rw [List.append_nil]
  rfl

theorem gcMark (v : VALUE) : Marks w (RuBLE.gcMark v) [v] := fun _ => rfl

theorem bind {f : Unit → Prog Unit} (hx : Marks w x l) (hf : Marks w (f ()) l') :
    Marks w (x >>= f) (l ++ l') := by
  intro ms
  rw [Program.run_bind_ok (hx ms), hf, List.append_assoc]

/-- A part that reads something and changes nothing. -/
theorem bind_read {α : Type} {y : Prog α} {a : α} {f : α → Prog Unit}
    (hy : ∀ ms, y.run { w with marked := ms } = (.ok a, { w with marked := ms }))
    (hf : Marks w (f a) l) : Marks w (y >>= f) l := by
  intro ms
  rw [Program.run_bind_ok (hy ms), hf]

theorem forM {α : Type} {f : α → Prog Unit} {g : α → List VALUE} (as : List α)
    (h : ∀ a ∈ as, Marks w (f a) (g a)) : Marks w (as.forM f) (as.flatMap g) := by
  induction as with
  | nil => exact Marks.skip
  | cons a as ih =>
      rw [List.flatMap_cons]
      exact Marks.bind (h a List.mem_cons_self) (ih fun b hb => h b (List.mem_cons_of_mem a hb))

end Marks

/-- The proxy at an address has been constructed. -/
def World.Live (w : World) : Level → Ptr → Prop
  | .adapter, p => ∃ A, w.adapters.get? p = some A
  | .peripheral, p => ∃ P, w.peripherals.get? p = some P
  | .service, p => ∃ S, w.services.get? p = some S
  | .characteristic, p => ∃ C, w.characteristics.get? p = some C

/-- What registries hold is there, and so are the registries that proxies keep. -/
structure Linked (w : World) : Prop where
  root : ∃ R, w.registryAt? .adapter 0 = some R
  entries : ∀ lvl r R (key : String) p, w.registryAt? lvl r = some R → R.entries[key]? = some p →
    w.Live lvl p
  keeps : ∀ lvl p lvl' r', w.keeps lvl p = some (lvl', r') → ∃ R, w.registryAt? lvl' r' = some R

/-- What the mark function of a registry passes, given what that of a proxy does. -/
def World.registryMarks (w : World) (lvl : Level) (marks : Ptr → List VALUE) (r : RegistryPtr) :
    List VALUE :=
  (w.registryAt? lvl r).elim [] fun R =>
    .object lvl.registryClass R.self :: R.entries.toList.flatMap fun e => marks e.2

/-- What the mark function of a characteristic passes. -/
def Characteristic.marks (c : Characteristic) : List VALUE :=
  .object .characteristic c.self :: (c.tracker.values ++ (c.onIndicate.elim [] Callback.values ++
    c.onNotify.elim [] Callback.values))

/-- What the mark function of the proxy at an address passes. -/
def World.marks (w : World) : Level → Ptr → List VALUE
  | .characteristic, p => (w.characteristics.get? p).elim [] Characteristic.marks
  | .service, p => (w.services.get? p).elim [] fun s => .object .service s.self ::
      (w.registryAt? .characteristic s.characteristicRegistry).elim [] fun R =>
        R.entries.toList.flatMap fun e => w.marks .characteristic e.2
  | .peripheral, p => (w.peripherals.get? p).elim [] fun P => .object .peripheral P.self ::
      (P.onConnected.values ++ (P.onDisconnected.values ++
        w.registryMarks .service (w.marks .service) P.serviceRegistry))
  | .adapter, p => (w.adapters.get? p).elim [] fun A =>
      w.registryMarks .peripheral (w.marks .peripheral) A.peripheralRegistry ++
        (A.onScanStart.values ++ (A.onScanStop.values ++ (A.onScanUpdate.values ++
          A.onScanFind.values)))
termination_by lvl => match lvl with
  | .characteristic => 0
  | .service => 1
  | .peripheral => 2
  | .adapter => 3

section Linked

variable {H : Hashes} {w : World}

theorem Callback.rubyMark_marks (c : Callback) : Marks w c.rubyMark c.values := by
  rw [Callback.rubyMark, Callback.values]
  cases c.cb with
  | none => exact Marks.skip
  | some id => exact Marks.gcMark _

theorem markCallback_marks (c : Option Callback) :
    Marks w (markCallback c) (c.elim [] Callback.values) := by
  cases c with
  | none => exact Marks.skip
  | some c => exact c.rubyMark_marks

theorem ByteArray.rubyMark_marks (b : ByteArray) : Marks w b.rubyMark b.values := by
  rw [ByteArray.rubyMark, ByteArray.values]
  cases b.self with
  | none => exact Marks.skip
  | some id => exact Marks.gcMark _

theorem CharacteristicValueTracker.rubyMark_marks (t : CharacteristicValueTracker) :
    Marks w t.rubyMark t.values := by
  rw [CharacteristicValueTracker.rubyMark, CharacteristicValueTracker.values]
  cases t.value with
  | none => exact Marks.skip
  | some b => exact b.rubyMark_marks

theorem Characteristic.rubyMark_marks {p : Ptr} (hp : w.Live .characteristic p) :
    Marks w (Characteristic.rubyMark p) (w.marks .characteristic p) := by
  obtain ⟨C, hC⟩ := hp
  rw [World.marks, hC]
  refine Marks.bind_read (fun ms => deref_run hC) ?_
  refine Marks.bind (Marks.gcMark _) (Marks.bind C.tracker.rubyMark_marks ?_)
  refine Marks.bind (markCallback_marks _) ?_
  rw [← List.append_nil (C.onNotify.elim [] Callback.values)]
  refine Marks.bind (markCallback_marks _) ?_
  cases C.descriptors with
  | none => exact Marks.skip
  | some ds =>
      have h : Marks w (ds.toList.forM fun d => Rice.rubyMark d.2) (ds.toList.flatMap fun _ => []) :=
        Marks.forM ds.toList fun d _ => Marks.skip
      rwa [List.flatMap_eq_nil_iff.2 fun _ _ => rfl] at h

theorem Registry.rubyMark_marks {lvl : Level} {r : RegistryPtr} {markProxy : Ptr → Prog Unit}
    {marks : Ptr → List VALUE} (hw : Linked w) (hR : ∃ R, w.registryAt? lvl r = some R)
    (hmark : ∀ p, w.Live lvl p → Marks w (markProxy p) (marks p)) :
    Marks w (Registry.rubyMark lvl markProxy r) (w.registryMarks lvl marks r) := by
  obtain ⟨R, hR⟩ := hR
  rw [World.registryMarks, hR]
  refine Marks.bind_read (fun ms => registryAt_run hR) ?_
  refine Marks.bind (Marks.gcMark _) (Marks.bind Marks.skip ?_)
  refine Marks.forM R.entries.toList fun e he => ?_
  have hentry : R.entries[e.1]? = some e.2 := Std.TreeMap.mem_toList_iff_getElem?_eq_some.1 he
  exact hmark e.2 (hw.entries lvl r R e.1 e.2 hR hentry)

theorem Service.rubyMark_marks (hw : Linked w) {p : Ptr} (hp : w.Live .service p) :
    Marks w (Service.rubyMark H p) (w.marks .service p) := by
  obtain ⟨S, hS⟩ := hp
  obtain ⟨R, hR⟩ := hw.keeps .service p .characteristic S.characteristicRegistry
    (by rw [World.keeps, hS]; rfl)
  rw [World.marks, hS]
  refine Marks.bind_read (fun ms => deref_run hS) ?_
  refine Marks.bind (Marks.gcMark _) ?_
  -- `characteristics()` answers with what the registry holds
  refine Marks.bind_read (a := R.entries) (fun ms => ?_) ?_
  · refine (Program.run_bind_ok (deref_run (w := { w with marked := ms }) hS)).trans ?_
    refine (Program.run_bind_ok (a := ()) (t := { w with marked := ms }) rfl).trans ?_
    rw [Program.run_bind_ok (registryAt_run (w := { w with marked := ms }) hR)]
    rfl
  rw [hR]
  refine Marks.forM R.entries.toList fun e he => ?_
  have hentry : R.entries[e.1]? = some e.2 := Std.TreeMap.mem_toList_iff_getElem?_eq_some.1 he
  exact Characteristic.rubyMark_marks (hw.entries _ _ R e.1 e.2 hR hentry)

theorem Peripheral.rubyMark_marks (hw : Linked w) {p : Ptr} (hp : w.Live .peripheral p) :
    Marks w (Peripheral.rubyMark H p) (w.marks .peripheral p) := by
  obtain ⟨P, hP⟩ := hp
  rw [World.marks, hP]
  refine Marks.bind_read (fun ms => deref_run hP) ?_
  refine Marks.bind (Marks.gcMark _) ?_
  refine Marks.bind P.onConnected.rubyMark_marks (Marks.bind P.onDisconnected.rubyMark_marks ?_)
  refine Registry.rubyMark_marks hw ?_ fun p hp => Service.rubyMark_marks hw hp
  exact hw.keeps .peripheral p .service P.serviceRegistry (by rw [World.keeps, hP]; rfl)

theorem Adapter.rubyMark_marks (hw : Linked w) {p : Ptr} (hp : w.Live .adapter p) :
    Marks w (Adapter.rubyMark H p) (w.marks .adapter p) := by
  obtain ⟨A, hA⟩ := hp
  rw [World.marks, hA]
  refine Marks.bind_read (fun ms => deref_run hA) ?_
  refine Marks.bind ?_ ?_
  · refine Registry.rubyMark_marks hw ?_ fun p hp => Peripheral.rubyMark_marks hw hp
    exact hw.keeps .adapter p .peripheral A.peripheralRegistry (by rw [World.keeps, hA]; rfl)
  refine Marks.bind A.onScanStart.rubyMark_marks (Marks.bind A.onScanStop.rubyMark_marks ?_)
  exact Marks.bind A.onScanUpdate.rubyMark_marks A.onScanFind.rubyMark_marks

/-- In a linked graph the mark function of the `AdapterRegistry` passes the
values of a list, and does nothing else. -/
theorem rubyMark_run (hw : Linked w) :
    Marks w (AdapterRegistry.rubyMark H) (w.registryMarks .adapter (w.marks .adapter) 0) :=
  Registry.rubyMark_marks hw hw.root fun _ hp => Adapter.rubyMark_marks hw hp

theorem passed_eq (hw : Linked w) :
    w.passed H = w.registryMarks .adapter (w.marks .adapter) 0 := by
  rw [World.passed, rubyMark_run hw []]
  rfl

/-! ## What is missed of a linked graph -/

/-- Of what a proxy stores, its mark function passes all but three classes. -/
theorem mem_marks_of_values {lvl : Level} {p : Ptr} {v : VALUE} (hv : v ∈ w.values lvl p)
    (hmissed : ¬ v.Missed) : v ∈ w.marks lvl p := by
  cases lvl with
  | adapter =>
      rw [World.values] at hv
      rw [World.marks]
      cases hA : w.adapters.get? p with
      | none => rw [hA] at hv; cases hv
      | some A =>
          rw [hA] at hv
          rcases List.mem_cons.1 hv with rfl | hv
          · exact absurd trivial hmissed
          · simp only [Option.elim_some, List.mem_append] at hv ⊢
            tauto
  | peripheral =>
      rw [World.values] at hv
      rw [World.marks]
      cases hP : w.peripherals.get? p with
      | none => rw [hP] at hv; cases hv
      | some P =>
          rw [hP] at hv
          rcases List.mem_cons.1 hv with rfl | hv
          · exact List.mem_cons_self
          · simp only [Option.elim_some, List.mem_cons, List.mem_append] at hv ⊢
            tauto
  | service =>
      rw [World.values] at hv
      rw [World.marks]
      cases hS : w.services.get? p with
      | none => rw [hS] at hv; cases hv
      | some S =>
          rw [hS] at hv
          rw [List.mem_singleton.1 hv]
          exact List.mem_cons_self
  | characteristic =>
      rw [World.values] at hv
      rw [World.marks]
      cases hC : w.characteristics.get? p with
      | none => rw [hC] at hv; cases hv
      | some C =>
          rw [hC] at hv
          rcases List.mem_cons.1 hv with rfl | hv
          · exact List.mem_cons_self
          · have hdescriptors : v ∉ C.descriptors.elim [] fun ds =>
                ds.toList.map fun d => .object .descriptor d.2.self := by
              intro hd
              cases hds : C.descriptors with
              | none => rw [hds] at hd; cases hd
              | some ds =>
                  rw [hds] at hd
                  obtain ⟨d, -, rfl⟩ := List.mem_map.1 hd
                  exact hmissed trivial
            simp only [Option.elim_some, Characteristic.marks, List.mem_cons, List.mem_append] at hv ⊢
            tauto

/-- The mark function of a proxy goes on to what the registry it keeps holds, and
to the registry itself unless that is one of characteristics. -/
theorem marks_of_keeps {lvl lvl' : Level} {p : Ptr} {r' : RegistryPtr} {R' : Registry}
    (hkeeps : w.keeps lvl p = some (lvl', r')) (hR' : w.registryAt? lvl' r' = some R') :
    (lvl' ≠ .characteristic → .object lvl'.registryClass R'.self ∈ w.marks lvl p) ∧
      ∀ (key : String) q, R'.entries[key]? = some q → w.marks lvl' q ⊆ w.marks lvl p := by
  have hentries : ∀ (key : String) q, R'.entries[key]? = some q →
      w.marks lvl' q ⊆ R'.entries.toList.flatMap fun e => w.marks lvl' e.2 := by
    intro key q hq v hv
    exact List.mem_flatMap.2 ⟨(key, q), Std.TreeMap.mem_toList_iff_getElem?_eq_some.2 hq, hv⟩
  cases lvl with
  | adapter =>
      obtain ⟨A, hA, heq⟩ := Option.map_eq_some_iff.1 hkeeps
      cases heq
      rw [World.marks, hA, Option.elim_some, World.registryMarks, hR', Option.elim_some]
      refine ⟨fun _ => by simp, fun key q hq v hv => ?_⟩
      exact List.mem_append_left _ (List.mem_cons_of_mem _ (hentries key q hq hv))
  | peripheral =>
      obtain ⟨P, hP, heq⟩ := Option.map_eq_some_iff.1 hkeeps
      cases heq
      rw [World.marks, hP, Option.elim_some, World.registryMarks, hR', Option.elim_some]
      refine ⟨fun _ => by simp, fun key q hq v hv => ?_⟩
      refine List.mem_cons_of_mem _ (List.mem_append_right _ (List.mem_append_right _ ?_))
      exact List.mem_cons_of_mem _ (hentries key q hq hv)
  | service =>
      obtain ⟨S, hS, heq⟩ := Option.map_eq_some_iff.1 hkeeps
      cases heq
      rw [World.marks, hS, Option.elim_some, hR', Option.elim_some]
      exact ⟨fun h => absurd rfl h, fun key q hq v hv => List.mem_cons_of_mem _ (hentries key q hq hv)⟩
  | characteristic => cases hkeeps

/-- What is in the graph is reached by the mark functions. -/
theorem marks_of_inGraph (hw : Linked w) {lvl : Level} {r : RegistryPtr} {R : Registry}
    (h : InGraph w lvl r) (hR : w.registryAt? lvl r = some R) :
    (lvl ≠ .characteristic → .object lvl.registryClass R.self ∈ w.passed H) ∧
      ∀ (key : String) p, R.entries[key]? = some p → w.marks lvl p ⊆ w.passed H := by
  induction h generalizing R with
  | root =>
      rw [passed_eq hw, World.registryMarks, hR, Option.elim_some]
      refine ⟨fun _ => List.mem_cons_self, fun key p hp v hv => ?_⟩
      refine List.mem_cons_of_mem _ (List.mem_flatMap.2 ⟨(key, p), ?_, hv⟩)
      exact Std.TreeMap.mem_toList_iff_getElem?_eq_some.2 hp
  | kept _ hR₀ hp hkeeps ih =>
      obtain ⟨hself, hentries⟩ := marks_of_keeps hkeeps hR
      have hsub := (ih hR₀).2 _ _ hp
      exact ⟨fun hlvl => hsub (hself hlvl), fun key q hq v hv => hsub (hentries key q hq hv)⟩

theorem passed_of_stored (hw : Linked w) {v : VALUE} (hv : Stored w v) (hmissed : ¬ v.Missed) :
    v ∈ w.passed H := by
  cases hv with
  | @registry lvl _ _ hgraph hR heq =>
      refine heq ▸ (marks_of_inGraph hw hgraph hR).1 ?_
      rintro rfl
      exact hmissed (heq ▸ trivial)
  | proxy hgraph hR hp hv =>
      exact (marks_of_inGraph hw hgraph hR).2 _ _ hp (mem_marks_of_values hv hmissed)

/-- What the mark function of a registry in the graph passes is stored there. -/
theorem stored_of_registryMarks {lvl : Level} {r : RegistryPtr} {marks : Ptr → List VALUE}
    {v : VALUE} (hgraph : InGraph w lvl r)
    (hmarks : ∀ R (key : String) p, w.registryAt? lvl r = some R → R.entries[key]? = some p →
      v ∈ marks p → Stored w v) (hv : v ∈ w.registryMarks lvl marks r) : Stored w v := by
  rw [World.registryMarks] at hv
  cases hR : w.registryAt? lvl r with
  | none => rw [hR] at hv; cases hv
  | some R =>
      rw [hR] at hv
      rcases List.mem_cons.1 hv with heq | hv
      · exact .registry hgraph hR heq
      · obtain ⟨e, he, hv⟩ := List.mem_flatMap.1 hv
        exact hmarks R e.1 e.2 hR (Std.TreeMap.mem_toList_iff_getElem?_eq_some.1 he) hv

/-- What the mark function of a proxy in the graph passes is stored there. -/
theorem stored_of_marks {v : VALUE} (lvl : Level) {r : RegistryPtr} {R : Registry} {key : String}
    {p : Ptr} (hgraph : InGraph w lvl r) (hR : w.registryAt? lvl r = some R)
    (hp : R.entries[key]? = some p) (hv : v ∈ w.marks lvl p) : Stored w v := by
  -- what is not in the proxy itself is in a registry that it keeps
  by_cases hvalues : v ∈ w.values lvl p
  · exact .proxy hgraph hR hp hvalues
  rw [World.marks.eq_def] at hv
  cases lvl with
  | characteristic =>
      rw [World.values] at hvalues
      cases hC : w.characteristics.get? p with
      | none => simp only [hC, Option.elim_none, List.not_mem_nil] at hv
      | some C =>
          simp only [hC, Option.elim_some, Characteristic.marks, Characteristic.values,
            List.mem_cons, List.mem_append] at hv hvalues
          tauto
  | service =>
      cases hS : w.services.get? p with
      | none => simp only [hS, Option.elim_none, List.not_mem_nil] at hv
      | some S =>
          have hkept : InGraph w .characteristic S.characteristicRegistry :=
            .kept hgraph hR hp (by rw [World.keeps, hS]; rfl)
          rw [World.values, hS] at hvalues
          simp only [hS, Option.elim_some] at hv
          rcases List.mem_cons.1 hv with rfl | hv
          · exact absurd (List.mem_singleton_self _) hvalues
          cases hR' : w.registryAt? .characteristic S.characteristicRegistry with
          | none => rw [hR'] at hv; cases hv
          | some R' =>
              rw [hR'] at hv
              obtain ⟨e, he, hv⟩ := List.mem_flatMap.1 hv
              have hentry := Std.TreeMap.mem_toList_iff_getElem?_eq_some.1 he
              exact stored_of_marks .characteristic hkept hR' hentry hv
  | peripheral =>
      cases hP : w.peripherals.get? p with
      | none => simp only [hP, Option.elim_none, List.not_mem_nil] at hv
      | some P =>
          have hkept : InGraph w .service P.serviceRegistry :=
            .kept hgraph hR hp (by rw [World.keeps, hP]; rfl)
          rw [World.values, hP] at hvalues
          simp only [hP, Option.elim_some, Peripheral.values, List.mem_cons, List.mem_append] at hv hvalues
          refine stored_of_registryMarks hkept (fun R' key' q hR' hq hv => ?_) (by tauto)
          exact stored_of_marks .service hkept hR' hq hv
  | adapter =>
      cases hA : w.adapters.get? p with
      | none => simp only [hA, Option.elim_none, List.not_mem_nil] at hv
      | some A =>
          have hkept : InGraph w .peripheral A.peripheralRegistry :=
            .kept hgraph hR hp (by rw [World.keeps, hA]; rfl)
          rw [World.values, hA] at hvalues
          simp only [hA, Option.elim_some, Adapter.values, List.mem_cons, List.mem_append] at hv hvalues
          refine stored_of_registryMarks hkept (fun R' key' q hR' hq hv => ?_) (by tauto)
          exact stored_of_marks .peripheral hkept hR' hq hv
termination_by match lvl with
  | .characteristic => 0
  | .service => 1
  | .peripheral => 2
  | .adapter => 3

/-- **What is missed.**  Of the values stored in a linked graph, all are passed
to `rb_gc_mark` but those of three classes, and nothing else is. -/
theorem mem_passed_iff (hw : Linked w) (v : VALUE) :
    v ∈ w.passed H ↔ Stored w v ∧ ¬ v.Missed := by
  constructor
  · intro hv
    refine ⟨?_, not_missed_of_passed H w v hv⟩
    rw [passed_eq hw] at hv
    exact stored_of_registryMarks .root (fun R key p hR hp hv =>
      stored_of_marks .adapter .root hR hp hv) hv
  · rintro ⟨hv, hmissed⟩
    exact passed_of_stored hw hv hmissed

theorem BuiltFrom.live {owner : Option Ptr} {p : Ptr} {v : Value} (h : BuiltFrom w owner p v) :
    w.Live v.level p := by
  cases v with
  | adapter value | peripheral value | service value | characteristic value =>
      obtain ⟨o, ho, -⟩ := h
      exact ⟨o, ho⟩

/-- The graph is linked at every point of a run. -/
theorem linked (h : (bindingsSystem H).Reachable w) : Linked w where
  root := (registriesMade h).root
  entries := by
    intro lvl r R key p hR hp
    obtain ⟨v, rfl, -, hbuilt⟩ := (registries h) lvl r R key p hR hp
    exact hbuilt.live
  keeps := by
    intro lvl p lvl' r' hkeeps
    have hmade := registriesMade h
    cases lvl with
    | adapter =>
        obtain ⟨A, hA, heq⟩ := Option.map_eq_some_iff.1 hkeeps
        cases heq
        exact hmade.adapters p A hA
    | peripheral =>
        obtain ⟨P, hP, heq⟩ := Option.map_eq_some_iff.1 hkeeps
        cases heq
        exact hmade.peripherals p P hP
    | service =>
        obtain ⟨S, hS, heq⟩ := Option.map_eq_some_iff.1 hkeeps
        cases heq
        exact hmade.services p S hS
    | characteristic => cases hkeeps

end Linked

/-! ## Marking is read-only -/

/-- What has a mark function: the registries and proxies, at their addresses, and
the callbacks and cached values. -/
inductive Markable where
  | registry (lvl : Level) (r : RegistryPtr)
  | proxy (lvl : Level) (p : Ptr)
  | callback (c : Callback)
  | tracker (t : CharacteristicValueTracker)
  | byteArray (b : ByteArray)

/-- The mark function of the proxies of a level. -/
def proxyRubyMark (H : Hashes) : Level → Ptr → Prog Unit
  | .adapter => Adapter.rubyMark H
  | .peripheral => Peripheral.rubyMark H
  | .service => Service.rubyMark H
  | .characteristic => Characteristic.rubyMark

/-- The mark function of an object. -/
def Markable.rubyMark (H : Hashes) : Markable → Prog Unit
  | .registry lvl r => Registry.rubyMark lvl (proxyRubyMark H lvl) r
  | .proxy lvl p => proxyRubyMark H lvl p
  | .callback c => c.rubyMark
  | .tracker t => t.rubyMark
  | .byteArray b => b.rubyMark

/-- The address is that of an object. -/
def Markable.In (w : World) : Markable → Prop
  | .registry lvl r => ∃ R, w.registryAt? lvl r = some R
  | .proxy lvl p => w.Live lvl p
  | .callback _ | .tracker _ | .byteArray _ => True

/-- Nothing but the list of what has been passed is different from `w`. -/
def OnlyMarks (w w' : World) : Prop := ∃ l, w' = { w with marked := w.marked ++ l }

theorem gcMark_onlyMarks (w : World) (v : VALUE) :
    Program.Triple (OnlyMarks w) (gcMark v) (fun _ => OnlyMarks w) (OnlyMarks w) := by
  refine Program.Triple.modify fun w' hw' => ?_
  obtain ⟨l, rfl⟩ := hw'
  exact ⟨l ++ [v], by rw [← List.append_assoc]⟩

theorem proxyRubyMark_onlyMarks (H : Hashes) (w : World) (lvl : Level) (p : Ptr) :
    Program.Triple (OnlyMarks w) (proxyRubyMark H lvl p) (fun _ => OnlyMarks w) (OnlyMarks w) := by
  have hmark := fun v (_ : ¬ VALUE.Missed v) => gcMark_onlyMarks w v
  cases lvl with
  | adapter => exact Adapter.rubyMark_keeps hmark H p
  | peripheral => exact Peripheral.rubyMark_keeps hmark H p
  | service => exact Service.rubyMark_keeps hmark H p
  | characteristic => exact Characteristic.rubyMark_keeps hmark p

/-- Whatever the graph looks like, a mark function changes nothing else. -/
theorem Markable.rubyMark_onlyMarks (H : Hashes) (w : World) (x : Markable) :
    Program.Triple (OnlyMarks w) (x.rubyMark H) (fun _ => OnlyMarks w) (OnlyMarks w) := by
  have hmark := fun v (_ : ¬ VALUE.Missed v) => gcMark_onlyMarks w v
  cases x with
  | registry lvl r =>
      exact Registry.rubyMark_keeps (fun _ => gcMark_onlyMarks w _) (proxyRubyMark_onlyMarks H w lvl)
  | proxy lvl p => exact proxyRubyMark_onlyMarks H w lvl p
  | callback c => exact c.rubyMark_keeps hmark
  | tracker t => exact t.rubyMark_keeps hmark
  | byteArray b => exact b.rubyMark_keeps hmark

theorem proxyRubyMark_marks {H : Hashes} {w : World} (hw : Linked w) {lvl : Level} {p : Ptr}
    (hp : w.Live lvl p) : Marks w (proxyRubyMark H lvl p) (w.marks lvl p) := by
  cases lvl with
  | adapter => exact Adapter.rubyMark_marks hw hp
  | peripheral => exact Peripheral.rubyMark_marks hw hp
  | service => exact Service.rubyMark_marks hw hp
  | characteristic => exact Characteristic.rubyMark_marks hp

/-- In a linked graph a mark function returns. -/
theorem Markable.rubyMark_returns {H : Hashes} {w : World} (hw : Linked w) {x : Markable}
    (hx : x.In w) : ∃ l, Marks w (x.rubyMark H) l := by
  cases x with
  | registry lvl r =>
      exact ⟨_, Registry.rubyMark_marks hw hx fun p hp => proxyRubyMark_marks hw hp⟩
  | proxy lvl p => exact ⟨_, proxyRubyMark_marks hw hx⟩
  | callback c => exact ⟨_, c.rubyMark_marks⟩
  | tracker t => exact ⟨_, t.rubyMark_marks⟩
  | byteArray b => exact ⟨_, b.rubyMark_marks⟩

/-- During a collection `characteristics()` does not go to the backend, so what the
backend would report, or throw, makes no difference. -/
theorem Service.characteristics_collecting (H : Hashes) {env : Env} (hgc : env.duringGc = true)
    (this : Ptr) (report : List (SimpleBLE.Characteristic × Env)) :
    Service.characteristics H env this report = Service.characteristics H collecting this [] := by
  have hquery : ∀ x : Prog Unit, Program.when (env.duringGc = false) x = pure () := by
    intro x
    rw [Program.when, if_neg (by simp [hgc])]
  rw [Service.characteristics, Service.characteristics]
  simp only [hquery]
  rfl

/-- **Marking is read-only.**  A mark function changes nothing but the list of what
has been passed to `rb_gc_mark`; in a linked graph it does not throw; and its one
call that could go to the backend is cut off during a collection. -/
theorem marking_read_only (H : Hashes) (w : World) (x : Markable) :
    (∃ l, ((x.rubyMark H).run w).2 = { w with marked := w.marked ++ l }) ∧
      (Linked w → x.In w → ((x.rubyMark H).run w).1 = .ok ()) ∧
      ∀ (env : Env) (this : Ptr) (report : List (SimpleBLE.Characteristic × Env)),
        env.duringGc = true →
          Service.characteristics H env this report =
            Service.characteristics H collecting this [] := by
  refine ⟨?_, ?_, ?_⟩
  · exact (x.rubyMark_onlyMarks H w).final ⟨[], by rw [List.append_nil]⟩
  · intro hw hx
    obtain ⟨l, hl⟩ := x.rubyMark_returns (H := H) hw hx
    have hrun := hl w.marked
    exact congrArg Prod.fst hrun
  · intro env this report hgc
    exact Service.characteristics_collecting H hgc this report

theorem marking_read_only_oneAdapter : ∃ w, (bindingsSystem sampleHashes).run oneAdapter = some w ∧
    (((Markable.registry .adapter 0).rubyMark sampleHashes).run w).1 = .ok () := by
  obtain ⟨w, hrun, -⟩ := Option.map_eq_some_iff.1 oneAdapter_stored
  have hw := linked (System.reachable_of_run hrun)
  exact ⟨w, hrun, (marking_read_only sampleHashes w (.registry .adapter 0)).2.1 hw hw.root⟩

end RuBLE
