import Mathlib
import RuBLE.Bindings.Extension

/-!
# Each characteristic by itself

The queue, the registries and the backend are shared by all proxies.  Yet what a
characteristic remembers, and which of its procs are called, depends on nothing
but what is done to it.

* `ownSystem` — one characteristic and what can happen to it; `ownEvent` is what a
  step of the extension is to a characteristic, if it is anything to it.
* `step_at` — **what a step does to the characteristic at an address**.
* `own_history` — **the whole is made of its parts**: in every interleaving of the
  threads, a proxy has gone through a run of `ownSystem` since it was constructed,
  and the calls made by its items are those of this run.
-/

namespace RuBLE

open Transition

/-! ## One of its parts -/

/-- What can happen to one characteristic. -/
inductive OwnEvent where
  | value (e : ValueEvent)
  | setOnNotify (cb : Option ObjectId)
  | setOnIndicate (cb : Option ObjectId)
  deriving DecidableEq, Repr

namespace Characteristic

/-- It happens. -/
def own (procOf : ObjectId → Option RubyProc) (c : Characteristic) : OwnEvent → Characteristic
  | .value e => c.handle e
  | .setOnNotify cb => (c.setOnNotify procOf cb).2
  | .setOnIndicate cb => (c.setOnIndicate procOf cb).2

/-- The call that it makes. -/
def ownCall (c : Characteristic) : OwnEvent → Option Call
  | .value (.notify data) => (c.fireOnNotify data).1.map Call.ofData
  | .value (.indicate data) => (c.fireOnIndicate data).1.map Call.ofData
  | _ => none

/-- All but the descriptors that have been asked for. -/
def bare (c : Characteristic) : Characteristic := { c with descriptors := none }

/-- It has just been constructed. -/
def New (c : Characteristic) : Prop :=
  c.onNotify = none ∧ c.onIndicate = none ∧ c.descriptors = none ∧ c.tracker = {}

end Characteristic

/-- All runs of one characteristic. -/
def ownSystem (procOf : ObjectId → Option RubyProc) (c : Characteristic) :
    System Characteristic OwnEvent :=
  ⟨c, fun c e => some (c.own procOf e)⟩

/-- What `service()->read` returns to the characteristic at an address, unless it throws. -/
def serviceReply (env : Env) (w : World) (this : Ptr) : Option (List UInt8) :=
  (w.characteristics.get? this).bind fun c => ((Service.read env c.owner c.uuid).run w).1.toOption

/-- The characteristic that an item captured. -/
def Item.characteristic? : Item → Option Ptr
  | .fireOnNotify this _ | .fireOnIndicate this _ => some this
  | _ => none

/-- What running an item is, and to which characteristic. -/
def Item.ownEvent? : Item → Option (Ptr × OwnEvent)
  | .fireOnNotify this data => some (this, .value (.notify data))
  | .fireOnIndicate this data => some (this, .value (.indicate data))
  | _ => none

/-- What a Ruby thread does, and to which characteristic. -/
def Happening.ownEvent? (w : World) : Happening → Option (Ptr × OwnEvent)
  | .setValueTracking this newValue => some (this, .value (.setValueTracking newValue))
  | .set .onNotify this cb => some (this, .setOnNotify cb)
  | .set .onIndicate this cb => some (this, .setOnIndicate cb)
  | .bindings (.request this (.read force) env) =>
      some (this, .value (.read force (serviceReply env w this)))
  | _ => none

namespace Extension

/-- What a move is, and to which characteristic. -/
def ownEvent? (s : Extension) : Move → Option (Ptr × OwnEvent)
  | .ruby a => a.ownEvent? s.world
  | m => (begins s m).bind fun b => b.2.item.ownEvent?

/-- What a move is to the characteristic at `p`. -/
def ownEvent (p : Ptr) (s : Extension) (m : Move) : Option OwnEvent :=
  (s.ownEvent? m).bind fun e => if e.1 = p then some e.2 else none

/-- What the moves from `s` on are to the characteristic at `p`. -/
def ownEvents (debug : Bool) (H : Hashes) (procOf : ObjectId → Option RubyProc) (p : Ptr) (s : Extension)
    (ms : List Move) : List OwnEvent :=
  (extensionSystem debug H procOf).seenFrom (ownEvent p) s ms

/-- The call, if it was made by an item of the characteristic at `p`. -/
def ownCall? (p : Ptr) (brought : List (Option Brought)) (c : CallbackQueue.Item × Call) : Option Call :=
  if brought[c.1]?.join.bind (·.item.characteristic?) = some p then some c.2 else none

/-- The calls made so far by items of the characteristic at `p`. -/
def ownCalls (p : Ptr) (s : Extension) : List Call := s.calls.filterMap (ownCall? p s.brought)

end Extension

/-! ## What leaves the characteristics alone -/

section Characteristics

variable {H : Hashes} {env : Env} {w w' w₀ : World} {p : Ptr} {C : Characteristic}

/-- The program touches no characteristic. -/
abbrev LeavesCharacteristics {α : Type} (x : Prog α) : Prop := Program.Leaves World.characteristics x

theorem aside_characteristics : Aside World.characteristics := fun _ _ _ _ _ _ => rfl

/-- A fetch on another level constructs no characteristic. -/
theorem fetch_leaves_characteristics (f : Fetch) (hlevel : f.value.level ≠ .characteristic) :
    LeavesCharacteristics (f.prog H) := by
  refine fetch_leaves aside_characteristics f fun owner => ?_
  cases hvalue : f.value with
  | adapter value => exact Adapter.construct_leaves aside_characteristics (fun _ _ => rfl) value
  | peripheral value =>
      exact Peripheral.construct_leaves aside_characteristics (fun _ _ => rfl) value owner
  | service value => exact Service.construct_leaves aside_characteristics (fun _ _ => rfl) value owner
  | characteristic value =>
      rw [hvalue] at hlevel
      exact absurd rfl hlevel

/-- Every characteristic is still as it was, and the others are new. -/
structure Makes (w₀ w : World) : Prop where
  kept : ∀ p C, w₀.characteristics.get? p = some C → w.characteristics.get? p = some C
  made : ∀ p C, w.characteristics.get? p = some C → w₀.characteristics.get? p = some C ∨ C.New

theorem Makes.refl (w : World) : Makes w w := ⟨fun _ _ h => h, fun _ _ h => .inl h⟩

theorem Makes.congr (h : Makes w₀ w)
    (hget : ∀ p, w'.characteristics.get? p = w.characteristics.get? p) : Makes w₀ w' where
  kept p C hC := (hget p).trans (h.kept p C hC)
  made p C hC := h.made p C ((hget p).symm.trans hC)

theorem Makes.of_leaves {α : Type} {x : Prog α} (hx : LeavesCharacteristics x) :
    Program.Triple (Makes w₀) x (fun _ => Makes w₀) (Makes w₀) :=
  Program.Triple.of_final fun w hw => hw.congr fun p => by rw [hx w]

/-- Half-way through the constructor of the characteristic at `this`. -/
structure Making (w₀ : World) (this : Ptr) (w : World) : Prop where
  makes : Makes w₀ w
  fresh : World.Fresh w.characteristics this

theorem Making.of_leaves {α : Type} {x : Prog α} {this : Ptr} (hx : LeavesCharacteristics x) :
    Program.Triple (Making w₀ this) x (fun _ => Making w₀ this) (Makes w₀) := by
  intro w hw
  have hsame := hx w
  revert hsame
  rcases x.run w with ⟨r, t⟩
  intro hsame
  have hmakes : Makes w₀ t := hw.makes.congr fun p => by rw [show t.characteristics = _ from hsame]
  cases r with
  | ok a => exact ⟨hmakes, by rw [show t.characteristics = _ from hsame]; exact hw.fresh⟩
  | error e => exact hmakes

theorem Characteristic.construct_makes (value : SimpleBLE.Characteristic) (owner : Option Ptr) :
    Program.Triple (Makes w₀) (Characteristic.construct env value owner) (fun _ => Makes w₀)
      (Makes w₀) := by
  refine Program.Triple.bind (R := Making w₀) ?_ fun this => ?_
  · refine Program.Triple.act fun w hw => ⟨hw.congr fun p => Heap.get?_alloc, ?_⟩
    exact World.fresh_alloc w.characteristics
  refine Program.Triple.bind (Making.of_leaves (backend_leaves _)) fun _ => ?_
  refine Program.Triple.bind (Making.of_leaves (newObject_leaves aside_characteristics)) fun self => ?_
  refine Program.Triple.bind (Making.of_leaves (backend_leaves _)) fun _ => ?_
  refine Program.Triple.bind (Making.of_leaves (capabilityFlags_leaves _)) fun _ => ?_
  refine Program.Triple.bind (Making.of_leaves (Program.Leaves.when
    (access_leaves aside_characteristics owner _))) fun _ => ?_
  refine Program.Triple.bind (Making.of_leaves (Program.Leaves.when
    (access_leaves aside_characteristics owner _))) fun _ => ?_
  refine Program.Triple.bind (R := fun _ => Makes w₀) ?_ fun _ => Program.Triple.skip this
  refine Program.Triple.modify fun w hw => ⟨fun p C hC => ?_, fun p C hC => ?_⟩
  · exact Heap.get?_store_of_some hw.fresh.1 hw.fresh.2 (hw.makes.kept p C hC)
  · rcases Heap.get?_store_cases hC with rfl | hC
    · exact .inr ⟨rfl, rfl, rfl, rfl⟩
    · exact hw.makes.made p C hC

/-- **A fetch makes characteristics**, and changes none. -/
theorem fetch_makes (f : Fetch) :
    Program.Triple (Makes w₀) (f.prog H) (fun _ => Makes w₀) (Makes w₀) := by
  by_cases hlevel : f.value.level = .characteristic
  · refine fetch_triple (J := fun _ _ => Makes w₀) (fun w hw => hw) (fun _ _ R _ => ?_)
      fun _ _ w hw => hw.congr fun _ => rfl
    cases hvalue : f.value with
    | characteristic value =>
        exact (Characteristic.construct_makes value R.owner).conseq (fun w hw => hw.1)
          (fun _ _ hw => hw) fun _ hw => hw
    | adapter value | peripheral value | service value =>
        rw [hvalue] at hlevel
        cases hlevel
  · exact Makes.of_leaves (fetch_leaves_characteristics f hlevel)

end Characteristics

/-! ## One step -/

section Steps

variable {H : Hashes} {procOf : ObjectId → Option RubyProc} {env : Env} {w w' : World} {p this : Ptr}
  {C : Characteristic} {e : Option OwnEvent} {f : Characteristic → Characteristic}

/-- The descriptors do not matter. -/
theorem own_bare (procOf : ObjectId → Option RubyProc) (C : Characteristic) (e : OwnEvent) :
    (C.own procOf e).bare = C.bare.own procOf e := by
  cases e with
  | setOnNotify cb | setOnIndicate cb => rfl
  | value e =>
      cases e with
      | notify data | indicate data => rfl
      | read force reply =>
          show (C.answer force reply).2.bare = (C.bare.answer force reply).2
          cases hcached : C.cached force with
          | some value =>
              rw [Characteristic.answer_of_cached hcached,
                Characteristic.answer_of_cached (c := C.bare) hcached]
          | none =>
              cases reply with
              | some data =>
                  rw [Characteristic.answer_of_reply hcached,
                    Characteristic.answer_of_reply (c := C.bare) hcached]
                  rfl
              | none =>
                  rw [Characteristic.answer_of_no_reply hcached,
                    Characteristic.answer_of_no_reply (c := C.bare) hcached]
      | setValueTracking newValue =>
          cases hset : C.tracker.setValueTracking C.canNotify newValue with
          | ok tracker =>
              have hbare : C.bare.tracker.setValueTracking C.bare.canNotify newValue = .ok tracker := hset
              simp [Characteristic.own, Characteristic.handle, Characteristic.setValueTracking, hset, hbare]
              rfl
          | error message =>
              have hbare : C.bare.tracker.setValueTracking C.bare.canNotify newValue = .error message :=
                hset
              simp [Characteristic.own, Characteristic.handle, Characteristic.setValueTracking, hset, hbare]

/-- What a step does to the characteristic at `p`, if this is what it is to it. -/
structure OwnStep (procOf : ObjectId → Option RubyProc) (e : Option OwnEvent) (p : Ptr) (w w' : World) :
    Prop where
  live : ∀ C, w.characteristics.get? p = some C → ∃ D, w'.characteristics.get? p = some D ∧
    D.bare = e.elim C.bare (C.bare.own procOf)
  born : w.characteristics.get? p = none → ∀ D, w'.characteristics.get? p = some D → D.New

theorem OwnStep.of_makes (h : Makes w w') : OwnStep procOf none p w w' where
  live C hC := ⟨C, h.kept p C hC, rfl⟩
  born hnone D hD := (h.made p D hD).resolve_left (by simp [hnone])

/-- One characteristic changes, at most. -/
theorem OwnStep.of_update
    (hget : ∀ q, w'.characteristics.get? q =
      if q = this then (w.characteristics.get? q).map f else w.characteristics.get? q)
    (hf : ∀ C, w.characteristics.get? this = some C → (f C).bare = e.elim C.bare (C.bare.own procOf)) :
    OwnStep procOf (if this = p then e else none) p w w' where
  live C hC := by
    rw [hget]
    by_cases hp : p = this
    · subst hp
      rw [if_pos rfl, if_pos rfl, hC]
      exact ⟨f C, rfl, hf C hC⟩
    · rw [if_neg hp, if_neg (Ne.symm hp)]
      exact ⟨C, hC, rfl⟩
  born hnone D hD := by
    rw [hget, hnone] at hD
    split at hD <;> cases hD

/-- None changes: what happens to one leaves it as it is. -/
theorem OwnStep.of_same (hsame : w'.characteristics = w.characteristics)
    (hf : ∀ C, w.characteristics.get? this = some C → C.bare = e.elim C.bare (C.bare.own procOf)) :
    OwnStep procOf (if this = p then e else none) p w w' := by
  refine OwnStep.of_update (f := id) (fun q => ?_) hf
  rw [hsame, Option.map_id]
  split <;> rfl

theorem OwnStep.of_leaves {α : Type} {x : Prog α} (hx : LeavesCharacteristics x) :
    OwnStep procOf none p w (x.run w).2 :=
  .of_makes ((Makes.of_leaves hx).final (Makes.refl w))

theorem serviceRead_leaves (owner : Option Ptr) (u : BluetoothUUID) :
    LeavesCharacteristics (Service.read env owner u) := by
  rw [Service.read_eq]
  exact (access_leaves aside_characteristics _ _).bind fun _ => Program.Leaves.pure _

/-- A read. -/
theorem read_ownStep (env : Env) (w : World) (this : Ptr) (force : Bool) :
    OwnStep procOf (if this = p then some (.value (.read force (serviceReply env w this))) else none) p w
      (((Request.read force).prog env this).run w).2 := by
  rw [show (Request.read force).prog env this = (do let _ ← Characteristic.read env this force) from rfl,
    run_discard]
  cases hget : w.characteristics.get? this with
  | none =>
      have hrun : (Characteristic.read env this force).run w = (.error .badPointer, w) :=
        Program.run_bind_error (deref_run_none hget)
      rw [hrun]
      refine OwnStep.of_same rfl fun C hC => ?_
      rw [hget] at hC
      cases hC
  | some C =>
      have hreply : serviceReply env w this = ((Service.read env C.owner C.uuid).run w).1.toOption := by
        rw [serviceReply, hget, Option.bind_some]
      rw [Characteristic.read, Program.run_bind_ok (deref_run hget)]
      cases hcached : C.cached force with
      | some value =>
          refine OwnStep.of_same rfl fun D hD => ?_
          cases hget.symm.trans hD
          rw [Option.elim_some, ← own_bare, Characteristic.own, Characteristic.handle,
            Characteristic.answer_of_cached hcached]
      | none =>
          have hleaves : LeavesCharacteristics (Service.read env C.owner C.uuid) :=
            serviceRead_leaves C.owner C.uuid
          have hsame := hleaves w
          cases hread : (Service.read env C.owner C.uuid).run w with
          | mk r t =>
              rw [hread] at hreply hsame
              cases r with
              | error err =>
                  -- the backend throws, and nothing is recorded
                  rw [Program.run_bind_error hread, hreply]
                  refine OwnStep.of_same hsame fun D hD => ?_
                  cases hget.symm.trans hD
                  show C.bare = C.bare.own procOf (.value (.read force none))
                  rw [← own_bare, Characteristic.own, Characteristic.handle,
                    Characteristic.answer_of_no_reply hcached]
              | ok data =>
                  rw [Program.run_bind_ok hread, hreply]
                  refine OwnStep.of_update (f := fun c =>
                    { c with tracker := (c.tracker.recordNewValue c.canNotify data).2 }) (fun q => ?_)
                    fun D hD => ?_
                  · show (t.characteristics.update this _).get? q = _
                    rw [Heap.get?_update, show t.characteristics = w.characteristics from hsame]
                  · cases hget.symm.trans hD
                    show _ = C.bare.own procOf (.value (.read force (some data)))
                    rw [← own_bare, Characteristic.own, Characteristic.handle,
                      Characteristic.answer_of_reply hcached]

/-- Asking for the descriptors. -/
theorem descriptors_ownStep (env : Env) (w : World) (this : Ptr) (report : List BluetoothUUID) :
    OwnStep procOf none p w ((Characteristic.getDescriptors env this report).run w).2 := by
  let I := fun w' : World => w'.characteristics = w.characteristics ∨
    ∃ ds, w'.characteristics = w.characteristics.update this fun c => { c with descriptors := some ds }
  have hkeep : ∀ {α : Type} {x : Prog α}, LeavesCharacteristics x →
      Program.Triple (fun w' => w'.characteristics = w.characteristics) x
        (fun _ w' => w'.characteristics = w.characteristics) I := by
    intro α x hx
    exact (Program.Triple.of_final fun w' hw' => (hx w').trans hw').conseq (fun _ h => h)
      (fun _ _ h => h) fun _ h => .inl h
  have htriple : Program.Triple (fun w' => w'.characteristics = w.characteristics)
      (Characteristic.getDescriptors env this report) (fun _ => I) I := by
    refine Program.Triple.bind (hkeep (deref_leaves _ _)) fun c => ?_
    cases c.descriptors with
    | some ds => exact Program.Triple.pure ds fun w' hw' => .inl hw'
    | none =>
        refine Program.Triple.bind (hkeep (query_leaves aside_characteristics _)) fun _ => ?_
        refine Program.Triple.bind (hkeep (makeMap_leaves aside_characteristics _ _ _)) fun ds => ?_
        refine Program.Triple.bind (R := fun _ => I) ?_ fun _ => Program.Triple.skip ds
        exact Program.Triple.modify fun w' hw' => .inr ⟨ds, by rw [← hw']; rfl⟩
  have hfinal : I ((Characteristic.getDescriptors env this report).run w).2 := htriple.final rfl
  rcases hfinal with hsame | ⟨ds, hupdate⟩
  · exact .of_makes ((Makes.refl w).congr fun q => by rw [hsame])
  · have hstep : OwnStep procOf (if this = p then none else none) p w
        ((Characteristic.getDescriptors env this report).run w).2 :=
      OwnStep.of_update (f := fun c => { c with descriptors := some ds })
        (fun q => by rw [hupdate, Heap.get?_update]) fun C _ => rfl
    rwa [ite_self] at hstep

/-- An item is run. -/
theorem item_ownStep (env : Env) (w : World) (item : Item) :
    OwnStep procOf (item.ownEvent?.bind fun e => if e.1 = p then some e.2 else none) p w
      ((item.prog H env).run w).2 := by
  cases item with
  | scanStart this | scanStop this | connected this | disconnected this =>
      exact .of_leaves ((deref_leaves _ _).bind fun _ => Program.Leaves.pure ())
  | scanUpdate this value | scanFind this value =>
      refine .of_leaves ((deref_leaves _ _).bind fun A => ?_)
      exact (fetch_leaves_characteristics _ (by simp [Value.level])).bind fun _ => Program.Leaves.pure ()
  | fireOnIndicate this data =>
      rw [Item.prog, run_discard, deref_state]
      exact .of_same rfl fun C _ => rfl
  | fireOnNotify this data =>
      cases hget : w.characteristics.get? this with
      | none =>
          have hrun : ((Item.fireOnNotify this data).prog H env).run w = (.error .badPointer, w) :=
            Program.run_bind_error (deref_run_none hget)
          rw [hrun]
          refine OwnStep.of_same rfl fun C hC => ?_
          rw [hget] at hC
          cases hC
      | some C =>
          rw [Item.prog, Program.run_bind_ok (deref_run hget)]
          exact .of_update (fun q => Heap.get?_update) fun D _ => rfl

/-- What a Ruby thread does to the characteristic at an address. -/
theorem happens_at (H : Hashes) (procOf : ObjectId → Option RubyProc) (w : World) {a : Happening}
    (ha : a.isRuby = true) (p : Ptr) :
    OwnStep procOf ((a.ownEvent? w).bind fun e => if e.1 = p then some e.2 else none) p w
      (w.happens H procOf a) := by
  cases a with
  | setValueTracking this newValue =>
      exact .of_update (fun q => Heap.get?_update) fun C _ =>
        own_bare procOf C (.value (.setValueTracking newValue))
  | set setter this cb =>
      cases setter with
      | onNotify | onIndicate => exact .of_update (fun q => Heap.get?_update) fun C _ => rfl
      | onScanStart | onScanStop | onScanUpdate | onScanFind | onConnect | onDisconnect =>
          exact .of_makes ((Makes.refl _).congr fun _ => rfl)
  | bindings a =>
      cases a with
      | fetch f =>
          rw [World.happens, Action.prog, run_discard]
          exact .of_makes ((fetch_makes f).final (Makes.refl _))
      | clear lvl r => exact .of_makes ((Makes.refl _).congr fun _ => rfl)
      | query q env => exact .of_leaves (query_leaves aside_characteristics q)
      | descriptors this report env =>
          rw [World.happens, Action.prog, run_discard]
          exact descriptors_ownStep env w this report
      | request this req env =>
          cases req with
          | read force => exact read_ownStep env w this force
          | writeRequest | writeCommand | readDescriptor | writeDescriptor =>
              exact .of_leaves (request_leaves aside_characteristics this _ (by simp))
      | deliver event | runItem env => cases ha

/-- The descriptors do not matter to what is called. -/
theorem ownCall_bare (C : Characteristic) (e : OwnEvent) : C.bare.ownCall e = C.ownCall e := by
  cases e with
  | setOnNotify cb | setOnIndicate cb => rfl
  | value e => cases e <;> rfl

/-- The call that an item makes is the one of its characteristic. -/
theorem item_ownCall (H : Hashes) (env : Env) (w : World) {item : Item}
    (hthis : item.characteristic? = some p) :
    ((item.fire H env).run w).1.toOption.join =
      (w.characteristics.get? p).bind fun C => item.ownEvent?.bind fun e => C.ownCall e.2 := by
  have hrun : ∀ f : Characteristic → Prog (Option Call),
      ((do
        let c ← deref World.characteristics (some p)
        f c : Prog (Option Call)).run w).1.toOption.join =
        (w.characteristics.get? p).bind fun C => ((f C).run w).1.toOption.join := by
    intro f
    cases hget : w.characteristics.get? p with
    | none =>
        rw [Program.run_bind_error (deref_run_none hget)]
        rfl
    | some C => rw [Program.run_bind_ok (deref_run hget)]; rfl
  cases item with
  | fireOnNotify this data | fireOnIndicate this data =>
      obtain rfl := Option.some.inj hthis
      exact hrun _
  | scanStart | scanStop | scanUpdate | scanFind | connected | disconnected => cases hthis

/-- What Ruby threads do calls nothing. -/
theorem happens_ownCall (w : World) (a : Happening) (C : Characteristic) :
    ((a.ownEvent? w).bind fun e => if e.1 = p then some e.2 else none).bind C.ownCall = none := by
  have hbind : ∀ (q : Ptr) (e : OwnEvent), C.ownCall e = none →
      ((some (q, e)).bind fun e => if e.1 = p then some e.2 else none).bind C.ownCall = none := by
    intro q e he
    rw [Option.bind_some]
    by_cases hq : q = p
    · rw [if_pos hq, Option.bind_some, he]
    · rw [if_neg hq, Option.bind_none]
  unfold Happening.ownEvent?
  split
  · exact hbind _ _ rfl
  · exact hbind _ _ rfl
  · exact hbind _ _ rfl
  · exact hbind _ _ rfl
  · rfl

end Steps

/-! ## Runs -/

namespace Extension

section Runs

variable {debug : Bool} {H : Hashes} {procOf : ObjectId → Option RubyProc} {s t : Extension} {m : Move}
  {p : Ptr} {C : Characteristic}

/-- **What a step does to the characteristic at an address.** -/
theorem step_at (h : (extensionSystem debug H procOf).step s m = some t) (p : Ptr) :
    OwnStep procOf (ownEvent p s m) p s.world t.world := by
  cases step_effect h with
  | quiet hno hidle hruby hw hb hc =>
      have hnone : s.ownEvent? m = none := by
        cases m with
        | ruby a => cases hruby
        | deliver | call | step | loop => simp [ownEvent?, hidle]
      rw [ownEvent, hnone, hw]
      exact .of_makes (Makes.refl _)
  | called hf hw hb hc | heard hreg hw hb hc =>
      rw [hw]
      exact .of_makes (Makes.refl _)
  | begins hl hget hw hb hc =>
      rw [hw, Item.fire_state, ownEvent, ownEvent?, begins_of_callWithGvl _ _ hl hget]
      · exact item_ownStep _ _ _
      · simp
  | ruby ha hw hb hc =>
      rw [hw]
      exact happens_at H procOf s.world ha p

/-- The characteristic at `p` is this one, its descriptors apart. -/
def IsAt (p : Ptr) (s : Extension) (c : Characteristic) : Prop :=
  ∃ C, s.world.characteristics.get? p = some C ∧ C.bare = c

theorem own_simulates (s : Extension) (m : Move) (t : Extension) (c : Characteristic) (hat : IsAt p s c)
    (hstep : (extensionSystem debug H procOf).step s m = some t) :
    ∃ c', (ownSystem procOf C).runFrom c (ownEvent p s m).toList = some c' ∧ IsAt p t c' := by
  obtain ⟨C, hC, rfl⟩ := hat
  obtain ⟨D, hD, hbare⟩ := (step_at hstep p).live C hC
  refine ⟨D.bare, ?_, D, hD, rfl⟩
  rw [hbare]
  cases ownEvent p s m <;> rfl

/-! ### The calls -/

/-- The call that a move makes, of the characteristic at `p`. -/
def ownCalled (p : Ptr) (s : Extension) (m : Move) : Option Call :=
  (s.world.characteristics.get? p).bind fun C => (ownEvent p s m).bind C.ownCall

theorem own_shows (s : Extension) (m : Move) (t : Extension) (c : Characteristic) (hat : IsAt p s c)
    (_ : (extensionSystem debug H procOf).step s m = some t) :
    ownCalled p s m = (ownEvent p s m).bind c.ownCall := by
  obtain ⟨C, hC, rfl⟩ := hat
  rw [ownCalled, hC, Option.bind_some]
  cases ownEvent p s m with
  | none => rfl
  | some e => exact (ownCall_bare C e).symm

/-- What has been brought stays known: the calls made so far are still the same ones. -/
theorem ownCalls_of_append {more : List (Option Brought)}
    (h : (extensionSystem debug H procOf).Reachable s) :
    s.calls.filterMap (ownCall? p (s.brought ++ more)) = ownCalls p s := by
  refine List.filterMap_congr fun c hc => ?_
  have hexecuted : c.1 ∈ s.queue.shared.executed :=
    (calls_executed h).subset (List.mem_map_of_mem hc)
  obtain ⟨b, hb⟩ := brought_of_executed h hexecuted
  have hlt : c.1 < s.brought.length := (List.getElem?_eq_some_iff.1 hb).1
  rw [ownCall?, ownCall?, List.getElem?_append_left hlt]

/-- The call of an item is one of the characteristic at `p` if the item is. -/
theorem item_ownCall? (H : Hashes) (env : Env) (s : Extension) {i : CallbackQueue.Item} {b : Brought}
    (hb : s.brought[i]? = some (some b)) :
    (((b.item.fire H env).run s.world).1.toOption.join.map (i, ·)).toList.filterMap
        (ownCall? p s.brought) =
      ((s.world.characteristics.get? p).bind fun C =>
        (b.item.ownEvent?.bind fun e => if e.1 = p then some e.2 else none).bind C.ownCall).toList := by
  by_cases hthis : b.item.characteristic? = some p
  · have hown : ∃ e, b.item.ownEvent? = some (p, e) := by
      revert hthis
      cases b.item with
      | fireOnNotify this data | fireOnIndicate this data =>
          rintro ⟨⟩
          exact ⟨_, rfl⟩
      | scanStart | scanStop | scanUpdate | scanFind | connected | disconnected =>
          intro h
          cases h
    obtain ⟨e, he⟩ := hown
    rw [item_ownCall H env s.world hthis, he]
    simp only [Option.bind_some, if_true]
    cases (s.world.characteristics.get? p).bind fun C => C.ownCall e with
    | none => rfl
    | some call => simp [ownCall?, hb, hthis]
  · have hnone : (b.item.ownEvent?.bind fun e => if e.1 = p then some e.2 else none) = none := by
      revert hthis
      cases b.item with
      | fireOnNotify this data | fireOnIndicate this data =>
          intro hne
          have hp : this ≠ p := fun heq => hne (by rw [heq]; rfl)
          exact if_neg hp
      | scanStart | scanStop | scanUpdate | scanFind | connected | disconnected => exact fun _ => rfl
    rw [hnone]
    cases ((b.item.fire H env).run s.world).1.toOption.join with
    | none => cases s.world.characteristics.get? p <;> rfl
    | some call =>
        have hother : ownCall? p s.brought (i, call) = none := by simp [ownCall?, hb, hthis]
        simp only [Option.map_some, Option.toList_some, List.filterMap_cons_none hother]
        cases s.world.characteristics.get? p <;> rfl

/-- What a step adds to the calls of one characteristic. -/
theorem ownCalls_step (hs : (extensionSystem debug H procOf).Reachable s)
    (h : (extensionSystem debug H procOf).step s m = some t) :
    ownCalls p t = ownCalls p s ++ (ownCalled p s m).toList := by
  have hquiet : ownEvent p s m = none → (ownCalled p s m).toList = [] := by
    intro hnone
    rw [ownCalled, hnone]
    cases s.world.characteristics.get? p <;> rfl
  cases step_effect h with
  | quiet hno hidle hruby hw hb hc =>
      have hnone : s.ownEvent? m = none := by
        cases m with
        | ruby a => cases hruby
        | deliver | call | step | loop => simp [ownEvent?, hidle]
      rw [hquiet (by rw [ownEvent, hnone]; rfl), List.append_nil, ownCalls, hb, hc]
      rfl
  | called hf hw hb hc | heard hreg hw hb hc =>
      rw [hquiet rfl, List.append_nil, ownCalls, hb, hc]
      exact ownCalls_of_append hs
  | begins hl hget hw hb hc =>
      rw [ownCalls, hb, hc, List.filterMap_append, item_ownCall? H _ s hget]
      rw [ownCalled, ownEvent, ownEvent?, begins_of_callWithGvl _ _ hl hget, Option.bind_some]
      · rfl
      · simp
  | ruby ha hw hb hc =>
      rw [ownCalls, hb, hc]
      refine (List.append_nil _).symm.trans (congrArg _ ?_)
      rw [ownCalled, ownEvent, ownEvent?]
      cases s.world.characteristics.get? p with
      | none => rfl
      | some C => rw [Option.bind_some, happens_ownCall]; rfl

/-- What a run adds to them. -/
theorem ownCalls_run {ms : List Move} (hs : (extensionSystem debug H procOf).Reachable s)
    (h : (extensionSystem debug H procOf).runFrom s ms = some t) :
    ownCalls p t = ownCalls p s ++ (extensionSystem debug H procOf).seenFrom (ownCalled p) s ms := by
  induction ms generalizing s with
  | nil =>
      cases h
      exact (List.append_nil _).symm
  | cons m ms ih =>
      rw [System.runFrom_cons] at h
      obtain ⟨u, hu, hrest⟩ := Option.bind_eq_some_iff.1 h
      rw [ih (hs.step hu) hrest, ownCalls_step hs hu, System.seenFrom, hu, Option.elim_some,
        List.append_assoc]

/-- Nothing is called for what is not there yet. -/
theorem ownCalls_of_none {ms : List Move} (h : (extensionSystem debug H procOf).run ms = some s)
    (hnone : s.world.characteristics.get? p = none) : ownCalls p s = [] := by
  induction ms using List.reverseRecOn generalizing s with
  | nil =>
      cases h
      rfl
  | append_singleton ms m ih =>
      rw [System.run, System.runFrom_concat] at h
      obtain ⟨u, hu, hstep⟩ := Option.bind_eq_some_iff.1 h
      have hbefore : u.world.characteristics.get? p = none := by
        cases hget : u.world.characteristics.get? p with
        | none => rfl
        | some C =>
            obtain ⟨D, hD, -⟩ := (step_at hstep p).live C hget
            exact absurd (hnone.symm.trans hD) (by simp)
      rw [ownCalls_step (System.reachable_of_run hu) hstep, ih hu hbefore, ownCalled, hbefore]
      rfl

/-- Whatever is there was constructed at some moment, and nothing was called for it before. -/
theorem exists_constructed {ms : List Move} (h : (extensionSystem debug H procOf).run ms = some s)
    (hC : s.world.characteristics.get? p = some C) :
    ∃ pre post s₀ C₀, ms = pre ++ post ∧ (extensionSystem debug H procOf).run pre = some s₀ ∧
      (extensionSystem debug H procOf).runFrom s₀ post = some s ∧
      s₀.world.characteristics.get? p = some C₀ ∧ C₀.New ∧ ownCalls p s₀ = [] := by
  induction ms using List.reverseRecOn generalizing s C with
  | nil =>
      cases h
      cases hC
  | append_singleton ms m ih =>
      have hrun := h
      rw [System.run, System.runFrom_concat] at h
      obtain ⟨u, hu, hstep⟩ := Option.bind_eq_some_iff.1 h
      cases hget : u.world.characteristics.get? p with
      | some D =>
          obtain ⟨pre, post, s₀, C₀, rfl, hpre, hpost, hrest⟩ := ih hu hget
          refine ⟨pre, post ++ [m], s₀, C₀, List.append_assoc _ _ _, hpre, ?_, hrest⟩
          rw [System.runFrom_concat, hpost]
          exact hstep
      | none =>
          -- it is this step that constructs it
          refine ⟨ms ++ [m], [], s, C, (List.append_nil _).symm, hrun, rfl, hC,
            (step_at hstep p).born hget C hC, ?_⟩
          rw [ownCalls_step (System.reachable_of_run hu) hstep, ownCalls_of_none hu hget, ownCalled, hget]
          rfl

/-- Two characteristics are told something, and one of them the same again. -/
def twoTold : List Move := List.flatten
  [[.ruby (.bindings (.fetch ⟨0, .adapter ⟨0, "00:00:00:00:00:01"⟩, {}⟩)),
    .ruby (.bindings (.fetch ⟨0, .peripheral ⟨7, "00:00:00:00:00:0a", .publicAddress⟩, {}⟩)),
    .ruby (.bindings (.fetch ⟨0, .service ⟨"180f", []⟩, {}⟩)),
    .ruby (.bindings (.fetch ⟨0, .characteristic ⟨"2a19", ["notify"]⟩, {}⟩)),
    .ruby (.bindings (.fetch ⟨0, .characteristic ⟨"2a1a", ["notify"]⟩, {}⟩)),
    .ruby (.set .onNotify 0 (some 101)), .ruby (.set .onNotify 1 (some 101)), .call .start],
   List.replicate 3 (.step 0 {}), List.replicate 4 (.loop false {}),
   [.deliver (.notify 7 "180f" "2a19" [80]), .deliver (.notify 7 "180f" "2a1a" [1])],
   List.replicate 3 (.step 1 {}), List.replicate 3 (.step 2 {}), List.replicate 12 (.loop false {}),
   [.deliver (.notify 7 "180f" "2a19" [80])], List.replicate 3 (.step 3 {}),
   List.replicate 6 (.loop false {})]

end Runs

end Extension

end RuBLE
