import Mathlib
import RuBLE.Build.CMakeFlattening

/-!
# What a call leaves of its input

`cmake_generate` flattens the hash of its caller, and what it does to that hash
stays done.

* `cmakeGenerate_consumes` — what it does to its input.
* `Unconsumed` — what a call should leave.
* `unconsumed_iff` — **when it does**: if every hash that flattening comes to is
  frozen or empty.
-/

namespace RuBLE.CMake

open Transition Graph

/-! ## The text -/

section Text

variable {inspect : RHeap → RValue → String} {P : BuildState → Prop} {φ : BuildError → Prop}

theorem cmakeEscape_mapM (elements : List RValue) (h : ∀ e ∈ elements, ∃ text, e = .string text) :
    Program.Outcome P (elements.mapM (cmakeEscape true)) (fun _ => P) φ := by
  induction elements with
  | nil => exact Program.Outcome.pure _ fun _ hs => hs
  | cons e elements ih =>
      obtain ⟨⟨text, rfl⟩, helements⟩ := List.forall_mem_cons.1 h
      rw [List.mapM_cons]
      refine Program.Outcome.bind (R := fun _ => P) (Program.Outcome.pure _ fun _ hs => hs) fun _ => ?_
      exact Program.Outcome.bind (ih helements) fun _ => Program.Outcome.pure _ fun _ hs => hs

theorem cmakeSerializeArray_outcome (elements : List RValue)
    (h : ∀ e ∈ elements, ∃ text, e = .string text) :
    Program.Outcome P (cmakeSerializeArray elements)
      (fun array s => (∀ e ∈ array, ∃ text, e = .string text) ∧ P s) φ := by
  have hall : (elements.filter fun e => !e.isNil).all (fun e => e.isStringy || e.isNumeric) = true := by
    refine List.all_eq_true.2 fun e he => ?_
    obtain ⟨text, rfl⟩ := h e (List.mem_filter.1 he).1
    rfl
  unfold cmakeSerializeArray
  simp only [hall, if_true]
  exact Program.Outcome.pure _ fun s hs => ⟨fun e he => h e (List.mem_filter.1 he).1, hs⟩

/-- What flattening returns can be serialized. -/
theorem cmakeSerialize_outcome {v : RValue} (hv : v.Flat) :
    Program.Outcome P (cmakeSerialize inspect v) (fun _ => P) φ := by
  refine Program.Outcome.bind Program.Outcome.get fun s => ?_
  have hskip : ∀ text : String, Program.Outcome (fun s' => s = s' ∧ P s')
      (pure text : Build String) (fun _ => P) φ :=
    fun text => Program.Outcome.pure text fun _ hs => hs.2
  cases v with
  | string text | numeric text => exact hskip _
  | nil => exact hskip _
  | bool b => cases b <;> exact hskip _
  | array elements =>
      refine Program.Outcome.bind (cmakeSerializeArray_outcome elements hv) fun array =>
        Program.Outcome.assume fun harray => ?_
      refine Program.Outcome.bind (cmakeEscape_mapM array harray) fun _ => ?_
      exact Program.Outcome.pure _ fun _ hs => hs.2
  | symbol text | pathname text | hash id | other result => exact hv.elim

/-- **What `cmake_generate` does to its input.** -/
theorem cmakeGenerate_consumes (inspect : RHeap → RValue → String) {heap : RHeap} {data : HashId}
    (fuel : Nat) (hacc : Acceptable heap data) :
    Program.Outcome (fun s => s.hashes = heap) (cmakeGenerate inspect fuel data)
      (fun _ s => Consumed (reach (Visits heap) data) heap s.hashes) (· = .outOfFuel) := by
  refine Program.Outcome.bind (cmakeFlattenHash_consumes inspect fuel heap data hacc) fun fields =>
    Program.Outcome.assume fun hflat => ?_
  refine Program.Outcome.foldlM (I := fun (_ : String) (s : BuildState) =>
    Consumed (reach (Visits heap) data) heap s.hashes) _ (fun e he memo => ?_) _
  refine Program.Outcome.bind ?_ fun obj => Program.Outcome.pure _ fun _ hs => hs
  exact Program.Outcome.bind (cmakeSerialize_outcome (hflat e he)) fun _ =>
    Program.Outcome.pure _ fun _ hs => hs

end Text

/-! ## What a call should leave -/

/-- A value is a hash, or an array that has it in it. -/
inductive RValue.Mentions : RValue → HashId → Prop
  | hash (b : HashId) : Mentions (.hash b) b
  | array {elements : List RValue} {e : RValue} {b : HashId} : e ∈ elements → e.Mentions b →
      Mentions (.array elements) b

/-- One hash is nested in another. -/
def Holds (heap : RHeap) (a b : HashId) : Prop :=
  ∃ h, heap[a]? = some h ∧ ∃ e ∈ h.entries, e.2.Mentions b

/-- What a call should leave. -/
structure Unconsumed (inspect : RHeap → RValue → String) (fuel : Nat) (heap : RHeap) (data : HashId) :
    Prop where
  /-- `data` and the hashes nested in it have the keys and values they had. -/
  same : ∀ a ∈ reach (Holds heap) data, (generate inspect fuel heap data).2[a]? = heap[a]?
  /-- A second call returns or raises the same. -/
  again : (generate inspect fuel (generate inspect fuel heap data).2 data).1 =
    (generate inspect fuel heap data).1

section Unconsumed

variable {inspect : RHeap → RValue → String} {fuel : Nat} {heap : RHeap} {data a b : HashId}

theorem holds_of_visits (h : Visits heap a b) : Holds heap a b := by
  obtain ⟨A, hA, hb⟩ := h
  obtain ⟨k, hk⟩ := hashes_withStringKeys_subset hb
  exact ⟨A, hA, _, hk, .hash b⟩

/-- A call that ends has flattened the hashes that it came to. -/
theorem generate_hashes (hacc : Acceptable heap data)
    (hends : (generate inspect fuel heap data).1 ≠ .error .outOfFuel) {A : RHash}
    (hA : heap[a]? = some A) :
    (a ∈ reach (Visits heap) data → (generate inspect fuel heap data).2[a]? = some A.consumed) ∧
      (a ∉ reach (Visits heap) data → (generate inspect fuel heap data).2[a]? = some A) := by
  have hlt : a < heap.length := (List.getElem?_eq_some_iff.1 hA).1
  have hgenerate := cmakeGenerate_consumes inspect fuel hacc
  unfold generate at hends ⊢
  rcases hrun : (cmakeGenerate inspect fuel data).run { hashes := heap } with ⟨r, s⟩
  rw [hrun] at hends
  cases r with
  | error e => exact absurd (congrArg Except.error (hgenerate.of_error rfl hrun)) hends
  | ok text =>
      have hhash := (hgenerate.of_ok rfl hrun).hash a A hA
      rw [List.getElem?_take_of_lt hlt, hhash]
      exact ⟨fun h => by rw [if_pos h], fun h => by rw [if_neg h]⟩

/-- **When a call leaves its input alone**: if and only if every hash that
flattening comes to is frozen or empty. -/
theorem unconsumed_iff (hacc : Acceptable heap data)
    (hends : (generate inspect fuel heap data).1 ≠ .error .outOfFuel) :
    Unconsumed inspect fuel heap data ↔
      ∀ a ∈ reach (Visits heap) data, ∀ A, heap[a]? = some A → A.frozen = true ∨ A.entries = ∅ := by
  constructor
  · intro h a ha A hA
    have hholds : a ∈ reach (Holds heap) data :=
      reach_subset (fun _ _ _ => holds_of_visits) ha
    have hsame := h.same a hholds
    rw [(generate_hashes hacc hends hA).1 ha, hA] at hsame
    exact RHash.consumed_eq_iff.1 (Option.some.inj hsame)
  · intro h
    have hheap : (generate inspect fuel heap data).2 = heap := by
      refine List.ext_getElem? fun a => ?_
      cases hA : heap[a]? with
      | none =>
          have hle := List.getElem?_eq_none_iff.1 hA
          exact List.getElem?_eq_none ((List.length_take_le _ _).trans hle)
      | some A =>
          obtain ⟨hin, hout⟩ := generate_hashes hacc hends hA
          by_cases ha : a ∈ reach (Visits heap) data
          · rw [hin ha, RHash.consumed_eq_iff.2 (h a ha A hA)]
          · exact hout ha
    exact ⟨fun a _ => by rw [hheap], by rw [hheap]⟩

/-- A value is accepted; if it is a hash, it has a larger identity. -/
def RValue.fits (size : Nat) (a : HashId) : RValue → Bool
  | .hash b => decide (a < b ∧ b < size)
  | v => v.isAccepted

/-- The identities of the nested hashes increase. -/
def RHeap.ordered (heap : RHeap) : Bool :=
  heap.zipIdx.all fun p => p.1.entries.withStringKeys.entries.all fun e => e.2.fits heap.length p.2

theorem acceptable_of_ordered (h : heap.ordered = true) (hdata : data < heap.length) :
    Acceptable heap data := by
  have hfits : ∀ (a : HashId) (A : RHash), heap[a]? = some A → ∀ e ∈ A.entries.withStringKeys,
      e.2.fits heap.length a = true := by
    intro a A hA e he
    have hmem : (A, a) ∈ heap.zipIdx := List.mem_zipIdx_iff_getElem?.2 hA
    exact List.all_eq_true.1 (List.all_eq_true.1 h (A, a) hmem) e he
  have hedge : ∀ a b, Visits heap a b → a < b ∧ b < heap.length := by
    rintro a b ⟨A, hA, k, hk⟩
    simpa [RValue.fits] using hfits a A hA _ hk
  constructor
  · intro a ha
    have hlt : a < heap.length := by
      induction ha with
      | refl => exact hdata
      | tail _ hab _ => exact (hedge _ _ hab).2
    refine ⟨heap[a], List.getElem?_eq_getElem hlt, fun e he => ?_⟩
    have hfit := hfits a _ (List.getElem?_eq_getElem hlt) e he
    cases hv : e.2 <;> rw [hv] at hfit <;> first | rfl | exact hfit
  · intro a _ hcycle
    have hpath : ∀ b, Relation.TransGen (Visits heap) a b → a < b := by
      intro b hb
      induction hb with
      | single hab => exact (hedge _ _ hab).1
      | tail _ hab ih => exact ih.trans (hedge _ _ hab).1
    exact lt_irrefl a (hpath a hcycle)

/-- The shape of `config_data`: it and the data of the library are frozen, and the
data of the asset may be. -/
def configData (assetFrozen : Bool) : RHeap :=
  [{ frozen := true, entries := ⟨[(.symbol "rb_simpleble", .hash 1)], by decide⟩ },
    { frozen := true
      entries := ⟨[(.symbol "linkage", .symbol "static"), (.symbol "asset", .hash 2)], by decide⟩ },
    { frozen := assetFrozen, entries := ⟨[(.string "name", .string "simpleble.zip")], by decide⟩ }]

/-- All of it is frozen. -/
theorem unconsumed_configData : Unconsumed (fun _ _ => "") 5 (configData true) 0 := by
  refine (unconsumed_iff (acceptable_of_ordered (by decide +kernel) (by decide +kernel))
    (by decide +kernel)).2 fun a _ A hA => ?_
  have hall : ∀ A ∈ configData true, A.frozen = true := by decide
  exact .inl (hall A (List.mem_of_getElem? hA))

/-- The data of the asset is not frozen, and is gone afterwards. -/
theorem not_unconsumed_configData :
    ¬ ∀ (inspect : RHeap → RValue → String) (fuel : Nat) (heap : RHeap) (data : HashId),
      Acceptable heap data → (generate inspect fuel heap data).1 ≠ .error .outOfFuel →
      Unconsumed inspect fuel heap data := by
  intro hall
  have hagain := (hall (fun _ _ => "") 5 (configData false) 0
    (acceptable_of_ordered (by decide +kernel) (by decide +kernel)) (by decide +kernel)).again
  exact absurd hagain (by decide +kernel)

end Unconsumed

end RuBLE.CMake
