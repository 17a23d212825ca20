import Mathlib
import RuBLE.Bindings.Proxies

/-!
# Rules for the programs of the bindings

What a proof about the proxies cites instead of looking into their programs.

* `viaPeripheral_triple`, `viaPeripheral_run` — an access that is passed up to
  the backend.
* `fetch_triple` — **the rule of `fetch`**.
* `Stable` — what an invariant about the proxies has to bear;
  `Stable.action_keeps` is **the rule of the system**: such an invariant is kept
  by an action if it is kept by the fetch the action makes, and by the clear.
-/

namespace RuBLE

open Transition

/-! ## Rules for the programs -/

section Rules

variable {P E : World → Prop} {env : Env}

theorem newObject_triple (h : ∀ w n, P w → P { w with nextObject := n }) :
    Program.Triple P newObject (fun _ => P) E :=
  fun w hw => h w (w.nextObject + 1) hw

/-- What bears the registration of the callback, kept or not, bears the call. -/
theorem setCallback_registers {site : Site} {slot : Slot} {this : Ptr}
    (he : env.throws = some site → ∀ w, P w → E w)
    (h : ∀ w, P w → P (w.register env.replaces slot this)) :
    Program.Triple P (setCallback env site slot this) (fun _ => P) E := by
  refine Program.Triple.bind (Program.Triple.when fun _ => ?_) fun _ => backend_triple he
  exact Program.Triple.modify h

theorem setCallback_triple {site : Site} {slot : Slot} {this : Ptr} (he : ∀ w, P w → E w)
    (h : ∀ w cbs, P w → P { w with callbacks := cbs }) :
    Program.Triple P (setCallback env site slot this) (fun _ => P) E :=
  setCallback_registers (fun _ => he) fun w hw => h w _ hw

/-- A call is logged, and may register the callback it hands over. -/
theorem callBackend_triple {R : World → Prop} {call : BackendCall}
    (hlog : ∀ w, P w → R { w with log := w.log ++ [call] })
    (hthrows : ∀ site, env.throws = some site → ∀ w, R w → E w)
    (hregister : ∀ w slot this, call.callback = some this →
      (slot = .notify call.device call.service call.characteristic ∨
        slot = .indicate call.device call.service call.characteristic) → R w →
      R (w.register env.replaces slot this)) :
    Program.Triple P (callBackend env call) (fun _ => R) E := by
  refine Program.Triple.bind (R := fun _ => R) (Program.Triple.modify hlog) fun _ => ?_
  split
  · next hcb =>
      exact setCallback_registers (hthrows _) fun w hw => hregister w _ _ hcb (.inl rfl) hw
  · next hcb =>
      exact setCallback_registers (hthrows _) fun w hw => hregister w _ _ hcb (.inr rfl) hw
  · exact backend_triple (hthrows _)

/-- Only names of capabilities get past `CapabilityFlags`. -/
theorem capabilityFlags_valid (names : List String) (he : ∀ w, P w → E w) :
    Program.Triple P (capabilityFlags names)
      (fun _ w => (∀ name ∈ names, name ∈ capabilityNames) ∧ P w) E := by
  induction names with
  | nil => exact Program.Triple.pure () fun w hw => ⟨by simp, hw⟩
  | cons name names ih =>
      refine Program.Triple.ite (fun hname => ?_) fun _ => Program.Triple.throw _ he
      exact ih.conseq (fun _ hw => hw)
        (fun _ _ hw => ⟨List.forall_mem_cons.2 ⟨hname, hw.1⟩, hw.2⟩) fun _ hw => hw

theorem capabilityFlags_triple (names : List String) (he : ∀ w, P w → E w) :
    Program.Triple P (capabilityFlags names) (fun _ => P) E :=
  (capabilityFlags_valid names he).conseq (fun _ hw => hw) (fun _ _ hw => hw.2) fun _ hw => hw

theorem Service.read_eq (owner : Option Ptr) (u : BluetoothUUID) :
    Service.read env owner u = (do
      Service.viaPeripheral owner fun p s => Peripheral.access env p s { op := .read, characteristic := u }
      return env.reply) := by
  simp only [Service.read, Service.viaPeripheral, Peripheral.read, bind_assoc]

theorem Service.readDescriptor_eq (owner : Option Ptr) (u d : BluetoothUUID) :
    Service.readDescriptor env owner u d = (do
      Service.viaPeripheral owner fun p s =>
        Peripheral.access env p s { op := .read, characteristic := u, descriptor := some d }
      return env.reply) := by
  simp only [Service.readDescriptor, Service.viaPeripheral, Peripheral.readDescriptor, bind_assoc]

/-- An access whose chain of owners is there is a call of the backend of the
peripheral at its end. -/
theorem viaPeripheral_run (env : Env) {w : World} {s p : Ptr} {S : Service} {P : Peripheral} (a : Access)
    (hS : w.services.get? s = some S) (hp : S.owner = some p)
    (hP : w.peripherals.get? p = some P) :
    (Service.viaPeripheral (some s) fun q u => Peripheral.access env q u a).run w =
      (callBackend env { a with device := P.peripheral.backend, service := S.uuid }).run w := by
  rw [Service.viaPeripheral, Program.run_bind_ok (deref_run hS), hp, Peripheral.access,
    Program.run_bind_ok (deref_run hP)]

/-- An access logs one call, of the peripheral at the end of the chain of
owners, and may register the callback it hands over. -/
theorem viaPeripheral_triple {R : World → Prop} {owner : Option Ptr} {a : Access}
    (hbad : ∀ w, P w → E w)
    (hlog : ∀ w s S p Q, P w → owner = some s → w.services.get? s = some S → S.owner = some p →
      w.peripherals.get? p = some Q →
      R { w with log := w.log ++ [{ a with device := Q.peripheral.backend, service := S.uuid }] })
    (hthrows : ∀ w, R w → E w)
    (hregister : ∀ w slot this, a.callback = some this → R w →
      R (w.register env.replaces slot this)) :
    Program.Triple P (Service.viaPeripheral owner fun q u => Peripheral.access env q u a)
      (fun _ => R) E := by
  refine Program.Triple.bind (deref_triple hbad) fun S => ?_
  refine Program.Triple.bind (deref_triple fun w hw => hbad w hw.1) fun Q => ?_
  refine callBackend_triple ?_ (fun _ _ => hthrows) fun w slot this hcb _ => hregister w slot this hcb
  rintro w ⟨⟨hw, s, hs, hS⟩, p, hp, hQ⟩
  exact hlog w s S p Q hw hs hS hp hQ

end Rules

theorem registryAt_run_none {w : World} {lvl : Level} {r : RegistryPtr}
    (hR : w.registryAt? lvl r = none) : (registryAt lvl r).run w = (.error .badPointer, w) := by
  rw [registryAt, Program.run_bind_ok (show Program.get.run w = (.ok w, w) from rfl), hR]
  rfl

theorem registryAt_run {w : World} {lvl : Level} {r : RegistryPtr} {R : Registry}
    (hR : w.registryAt? lvl r = some R) : (registryAt lvl r).run w = (.ok R, w) := by
  rw [registryAt, Program.run_bind_ok (show Program.get.run w = (.ok w, w) from rfl), hR]
  rfl

theorem registryAt_triple {Q : World → Prop} (lvl : Level) (r : RegistryPtr) :
    Program.Triple Q (registryAt lvl r) (fun registry w => Q w ∧ w.registryAt? lvl r = some registry)
      Q := by
  intro w hw
  rw [registryAt, Program.run_bind_ok (show Program.get.run w = (.ok w, w) from rfl)]
  cases h : w.registryAt? lvl r with
  | none => exact hw
  | some registry => exact ⟨hw, h⟩

/-- **The rule of `fetch`.**  `I` is kept, however the fetch ends, when the
constructor, run from where it is called, leaves a world in which the new
proxy can be put into the registry, or throws and leaves `I`. -/
theorem fetch_triple {Pre I : World → Prop} {J : Option Ptr → Ptr → World → Prop} {env : Env}
    {lvl : Level} {r : RegistryPtr} {key : String} {construct : Option Ptr → Prog Ptr}
    (hpre : ∀ w, Pre w → I w)
    (hconstruct : env.throws ≠ some .keyFromValue → env.duringGc = false →
      ∀ registry : Registry, registry.entries[key]? = none →
        Program.Triple (fun w => Pre w ∧ w.registryAt? lvl r = some registry)
          (construct registry.owner) (J registry.owner) I)
    (hemplace : ∀ owner p w, J owner p w → I (w.modifyRegistry lvl r fun registry =>
      { registry with entries := registry.entries.insertIfNew key p })) :
    Program.Triple Pre (fetch env lvl r key construct) (fun _ => I) I := by
  refine Program.Triple.bind
    ((registryAt_triple lvl r).conseq (fun _ hw => hw) (fun _ _ hw => hw) hpre) fun registry => ?_
  by_cases hthrows : env.throws = some .keyFromValue
  · refine Program.Triple.bind (R := fun _ _ => False) ?_ fun _ w hw => hw.elim
    rw [backend, if_pos hthrows]
    exact Program.Triple.throw _ fun w hw => hpre w hw.1
  refine Program.Triple.bind (backend_triple fun h => absurd h hthrows) fun _ => ?_
  cases hentry : registry.entries[key]? with
  | some p =>
      exact Program.Triple.pure p fun w hw => hpre w hw.1
  | none =>
      refine Program.Triple.ite (fun _ => ?_) fun hgc => ?_
      · exact Program.Triple.throw _ fun w hw => hpre w hw.1
      refine Program.Triple.bind (hconstruct hthrows (by simpa using hgc) registry hentry) fun p => ?_
      refine Program.Triple.bind (R := fun _ => I) ?_ fun _ => ?_
      · exact Program.Triple.modify (hemplace registry.owner p)
      refine Program.Triple.bind (registryAt_triple lvl r) fun registry' => ?_
      exact (orThrow_triple fun _ hw => hw.1).conseq (fun _ hw => hw) (fun _ _ hw => hw.1.1)
        fun _ hw => hw

/-! ## The rule of the system -/

/-- What an invariant that is about the proxies and who points to them has to
bear: all that an action does, apart from fetches and clears. -/
structure Stable (I : World → Prop) : Prop where
  newObject : ∀ w n, I w → I { w with nextObject := n }
  query : ∀ w qs, I w → I { w with queries := qs }
  log : ∀ w call, call.callback = none → I w → I { w with log := w.log ++ [call] }
  record : ∀ w this data, I w → I ((Characteristic.recordNewValue this data).run w).2
  describe : ∀ w this (ds : Std.TreeMap String Descriptor),
    (∀ key (d : Descriptor), ds[key]? = some d → d.owner = this ∧ d.uuid = key) → I w →
    I (w.updateCharacteristic this fun c => { c with descriptors := some ds })
  deliver : ∀ w (event : Event) this, w.registered event.slot = some this → I w →
    I { w with queue := w.queue ++ [event.item this] }
  dequeue : ∀ w, I w → I { w with queue := w.queue.dropLast }

namespace Stable

variable {H : Hashes} {I : World → Prop}

theorem deref_keeps {α : Type} (heap : World → Heap α) (p : Option Ptr) :
    Program.Triple I (deref heap p) (fun _ => I) I :=
  (deref_triple fun _ hw => hw).conseq (fun _ hw => hw) (fun _ _ hw => hw.1) fun _ hw => hw

theorem heldDescriptor_keeps (this : Ptr) (uuid : BluetoothUUID) :
    Program.Triple I (Characteristic.heldDescriptor this uuid) (fun _ => I) I := by
  refine Program.Triple.bind (deref_keeps _ _) fun c => ?_
  exact (orThrow_triple fun _ hw => hw).conseq (fun _ hw => hw) (fun _ _ hw => hw.1) fun _ hw => hw

variable (h : Stable I)

include h

theorem query_keeps (env : Env) (q : Query) : Program.Triple I (RuBLE.query env q) (fun _ => I) I := by
  refine Program.Triple.bind (R := fun _ => I) ?_ fun _ => backend_triple fun _ _ hw => hw
  exact Program.Triple.modify fun w hw => h.query w _ hw

theorem record_keeps (this : Ptr) (data : List UInt8) :
    Program.Triple I (Characteristic.recordNewValue this data) (fun _ => I) I :=
  Program.Triple.of_final fun w hw => h.record w this data hw

/-- What a request passes up hands over no callback. -/
theorem access_keeps (env : Env) (owner : Option Ptr) (a : Access) (ha : a.callback = none) :
    Program.Triple I (Service.viaPeripheral owner fun q u => Peripheral.access env q u a)
      (fun _ => I) I := by
  refine viaPeripheral_triple (fun _ hw => hw) ?_ (fun _ hw => hw) ?_
  · intro w s S p Q hw _ _ _ _
    exact h.log w _ ha hw
  · intro w slot this hcb
    rw [ha] at hcb
    cases hcb

theorem read_keeps (env : Env) (this : Ptr) (force : Bool) :
    Program.Triple I (Characteristic.read env this force) (fun _ => I) I := by
  refine Program.Triple.bind (deref_keeps _ _) fun c => ?_
  cases c.cached force with
  | some value => exact Program.Triple.skip _
  | none =>
      refine Program.Triple.bind (R := fun _ => I) ?_ fun value => ?_
      · rw [Service.read_eq]
        exact Program.Triple.bind (h.access_keeps env _ _ rfl) fun _ => Program.Triple.skip _
      · exact Program.Triple.bind (h.record_keeps this value) fun _ => Program.Triple.skip _

theorem request_keeps (env : Env) (this : Ptr) (req : Request) :
    Program.Triple I (req.prog env this) (fun _ => I) I := by
  cases req with
  | read force => exact Program.Triple.bind (h.read_keeps env this force) fun _ => Program.Triple.skip _
  | writeRequest data =>
      exact Program.Triple.bind (deref_keeps _ _) fun c => h.access_keeps env _ _ rfl
  | writeCommand data =>
      exact Program.Triple.bind (deref_keeps _ _) fun c => h.access_keeps env _ _ rfl
  | readDescriptor uuid =>
      refine Program.Triple.bind (heldDescriptor_keeps this uuid) fun d => ?_
      refine Program.Triple.bind (R := fun _ => I) ?_ fun _ => Program.Triple.skip _
      refine Program.Triple.bind (deref_keeps _ _) fun c => ?_
      rw [show (fun s u => Service.readDescriptor env s u d.uuid) c.owner c.uuid =
        Service.readDescriptor env c.owner c.uuid d.uuid from rfl, Service.readDescriptor_eq]
      exact Program.Triple.bind (h.access_keeps env _ _ rfl) fun _ => Program.Triple.skip _
  | writeDescriptor uuid data =>
      refine Program.Triple.bind (heldDescriptor_keeps this uuid) fun d => ?_
      exact Program.Triple.bind (deref_keeps _ _) fun c => h.access_keeps env _ _ rfl

/-- The descriptors made are the owner's, each under its UUID. -/
theorem makeMap_keeps (owner : Ptr) (report : List BluetoothUUID) :
    ∀ result : Std.TreeMap String Descriptor,
      (∀ key (d : Descriptor), result[key]? = some d → d.owner = owner ∧ d.uuid = key) →
      Program.Triple I (Descriptor.makeMap owner result report)
        (fun ds w => I w ∧ ∀ key (d : Descriptor), ds[key]? = some d → d.owner = owner ∧ d.uuid = key) I := by
  induction report with
  | nil =>
      intro result hresult w hw
      exact ⟨hw, hresult⟩
  | cons uuid report ih =>
      intro result hresult
      refine Program.Triple.bind (newObject_triple fun w n hw => h.newObject w n hw) fun self => ?_
      refine ih _ fun key d hd => ?_
      rcases getElem?_insertIfNew_cases hd with ⟨rfl, rfl⟩ | hd
      · exact ⟨rfl, rfl⟩
      · exact hresult key d hd

theorem descriptors_keeps (env : Env) (this : Ptr) (report : List BluetoothUUID) :
    Program.Triple I (Characteristic.getDescriptors env this report) (fun _ => I) I := by
  refine Program.Triple.bind (deref_keeps _ _) fun c => ?_
  cases c.descriptors with
  | some ds => exact Program.Triple.skip ds
  | none =>
      refine Program.Triple.bind (h.query_keeps env _) fun _ => ?_
      refine Program.Triple.bind (h.makeMap_keeps this report ∅ (by simp)) fun ds => ?_
      refine Program.Triple.bind (R := fun _ => I) ?_ fun _ => Program.Triple.skip ds
      exact Program.Triple.modify fun w hw => h.describe w this ds hw.2 hw.1

variable {K : World → Fetch → Prop}
  (hfetch : ∀ f, Program.Triple (fun w => I w ∧ K w f) (f.prog H) (fun _ => I) I)
  (hok : ∀ w f, K w f → K { w with queue := w.queue.dropLast } f)

include hfetch hok

/-- The item of a scan callback fetches the peripheral it was handed. -/
theorem scan_keeps {env : Env} {w : World} {this : Ptr} {value : SimpleBLE.Peripheral} (hw : I w)
    (hf : ∀ a, w.adapters.get? this = some a →
      K w ⟨a.peripheralRegistry, .peripheral value, env⟩) :
    I (((Item.scanUpdate this value).prog H env).run { w with queue := w.queue.dropLast }).2 := by
  rw [Item.prog]
  cases ha : w.adapters.get? this with
  | none =>
      rw [Program.run_bind_error (e := .badPointer) (t := { w with queue := w.queue.dropLast })]
      · exact h.dequeue w hw
      · exact deref_run_none (w := { w with queue := w.queue.dropLast }) ha
  | some a =>
      rw [Program.run_bind_ok (deref_run (w := { w with queue := w.queue.dropLast }) ha), run_discard]
      exact (hfetch _).final ⟨h.dequeue w hw, hok w _ (hf a ha)⟩

theorem runItem_keeps {env : Env} {w : World} (hw : I w)
    (hf : ∀ f, (Action.runItem env).fetch? w = some f → K w f) :
    I ((runItem H env).run w).2 := by
  rw [runItem, Program.run_bind_ok (show Program.get.run w = (.ok w, w) from rfl)]
  cases hlast : w.queue.getLast? with
  | none => exact hw
  | some item =>
      show I ((item.prog H env).run { w with queue := w.queue.dropLast }).2
      have hscan : ∀ this value, item = .scanUpdate this value ∨ item = .scanFind this value →
          ∀ a, w.adapters.get? this = some a →
            K w ⟨a.peripheralRegistry, .peripheral value, env⟩ := by
        rintro this value (rfl | rfl) a ha
        · exact hf _ (by rw [Action.fetch?, hlast]; simp [ha])
        · exact hf _ (by rw [Action.fetch?, hlast]; simp [ha])
      cases item with
      | scanUpdate this value => exact h.scan_keeps hfetch hok hw (hscan this value (.inl rfl))
      | scanFind this value => exact h.scan_keeps hfetch hok hw (hscan this value (.inr rfl))
      | fireOnNotify this data =>
          refine Program.Triple.final (P := I) ?_ (h.dequeue w hw)
          exact Program.Triple.bind (deref_keeps _ _) fun _ => h.record_keeps this data
      | scanStart this | scanStop this | connected this | disconnected this | fireOnIndicate this _ =>
          refine Program.Triple.final (P := I) ?_ (h.dequeue w hw)
          exact Program.Triple.bind (deref_keeps _ _) fun _ => Program.Triple.skip ()

/-- **The rule of the system.**  An action keeps a stable invariant if the
fetch it makes does, and the clear. -/
theorem action_keeps {w : World} {a : Action} (hw : I w)
    (hclear : ∀ lvl r, a = .clear lvl r →
      I (w.modifyRegistry lvl r fun registry => { registry with entries := ∅ }))
    (hf : ∀ f, a.fetch? w = some f → K w f) : I ((a.prog H).run w).2 := by
  cases a with
  | fetch f =>
      rw [Action.prog, run_discard]
      exact (hfetch f).final ⟨hw, hf f rfl⟩
  | clear lvl r => exact hclear lvl r rfl
  | query q env => exact (h.query_keeps env q).final hw
  | descriptors c report env =>
      rw [Action.prog, run_discard]
      exact (h.descriptors_keeps env c report).final hw
  | request c req env => exact (h.request_keeps env c req).final hw
  | deliver event =>
      rw [Action.prog, Event.prog, Program.run_modify]
      dsimp only
      cases hreg : w.registered event.slot with
      | none => exact hw
      | some this => exact h.deliver w event this hreg hw
  | runItem env => exact h.runItem_keeps hfetch hok hw hf

end Stable

end RuBLE
