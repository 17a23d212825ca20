import Mathlib
import RuBLE.Build.CMake
import RuBLE.Library.Graph

/-!
# Flattening in place

`cmake_flatten_hash` empties the hash it works on, and works on a copy only of a
hash that is frozen.

* `Visits` — the hashes that flattening comes to from a hash.
* `Consumed` — what flattening does to the hashes there were: those it comes to are
  emptied, unless they are frozen, and no other is changed.
* `Works` — the same in the middle of the loop, with what is left of its hash.
* `transformEntries_works`, `moveArrays_works`, `flattenNested_works`,
  `moveCompleted_works` — what each phase of a round leaves of it.
* `cmakeFlattenHash_consumes` — **what flattening does**, by induction on its depth.
-/

namespace RuBLE.CMake

open Transition Graph

/-! ## The hashes that flattening comes to -/

/-- The hashes among the values. -/
def Entries.hashes (entries : Entries) : Set HashId := {b | ∃ k, (k, .hash b) ∈ entries}

/-- Flattening one hash leads to another, which is a value of it when the keys have
become strings. -/
def Visits (heap : RHeap) (a b : HashId) : Prop :=
  ∃ h, heap[a]? = some h ∧ b ∈ h.entries.withStringKeys.hashes

/-- `to_s` of the value is a `String`. -/
def RValue.prints : RValue → Bool
  | other (string _) => true
  | other _ => false
  | _ => true

/-- `to_s` of each element is a `String`, if the value is an array. -/
def RValue.elementsPrint : RValue → Bool
  | array elements => elements.all prints
  | _ => true

/-- The call does not refuse the value: `cmake_serializable?` recognizes it, and of an
array the elements become strings. -/
def RValue.isAccepted (v : RValue) : Bool := cmakeSerializable v && v.elementsPrint

/-- A finite nested hash of accepted values, as far as flattening comes. -/
structure Acceptable (heap : RHeap) (data : HashId) : Prop where
  accepted : ∀ a ∈ reach (Visits heap) data, ∃ h, heap[a]? = some h ∧
    ∀ e ∈ h.entries.withStringKeys, e.2.isAccepted = true
  acyclic : Acyclic (Visits heap) data

/-- What a hash is when it has been flattened: a frozen one is copied instead. -/
def RHash.consumed (h : RHash) : RHash := if h.frozen then h else { h with entries := ∅ }

open Classical in
/-- Of the hashes there were before, those in a set have been flattened, and the
others are as they were. -/
structure Consumed (S : Set HashId) (before after : RHeap) : Prop where
  length_le : before.length ≤ after.length
  hash : ∀ (a : HashId) (h : RHash), before[a]? = some h →
    after[a]? = some (if a ∈ S then h.consumed else h)

open Classical in
/-- A hash is being flattened: these entries are left in it, and of the others those
in a set have been flattened. -/
structure Works (before : RHeap) (hash : HashId) (S : Set HashId) (left : Entries)
    (s : BuildState) : Prop where
  length_le : before.length ≤ s.hashes.length
  work : s.hashes[hash]? = some { entries := left }
  others : ∀ (a : HashId) (h : RHash), a ≠ hash → before[a]? = some h →
    s.hashes[a]? = some (if a ∈ S then h.consumed else h)

namespace RHash

variable {h : RHash}

theorem consumed_consumed : h.consumed.consumed = h.consumed := by
  cases hf : h.frozen <;> simp [consumed, hf]

theorem consumed_eq_iff : h.consumed = h ↔ h.frozen = true ∨ h.entries = ∅ := by
  cases h with
  | mk frozen entries => cases frozen <;> simp [consumed, eq_comm]

end RHash

section Entries

variable {left : Entries} {b : HashId}

theorem hashes_withStringKeys_subset : left.withStringKeys.hashes ⊆ left.hashes := by
  rintro b ⟨k, hb⟩
  exact OrderedHash.exists_mem_of_mem_transformKeys hb

@[simp] theorem withStringKeys_empty : Entries.withStringKeys ∅ = ∅ := rfl

theorem not_mem_hashes_empty : b ∉ Entries.hashes ∅ := by
  rintro ⟨k, hb⟩
  exact OrderedHash.not_mem_empty hb

end Entries

section Visits

variable {heap heap' : RHeap} {a b data : HashId} {A : RHash} {S T : Set HashId}

theorem visits_iff (hA : heap[a]? = some A) :
    Visits heap a b ↔ b ∈ A.entries.withStringKeys.hashes := by
  constructor
  · rintro ⟨h, hh, hb⟩
    rw [hA] at hh
    cases hh
    exact hb
  · exact fun hb => ⟨A, hA, hb⟩

/-- A hash that has been flattened leads nowhere, or where it led. -/
theorem Visits.of_consumed (h : Visits heap' a b) (hA : heap[a]? = some A)
    (hA' : heap'[a]? = some A.consumed) : Visits heap a b := by
  have hb := (visits_iff hA').1 h
  rw [visits_iff hA]
  cases hf : A.frozen with
  | true => rwa [RHash.consumed, hf, if_pos rfl] at hb
  | false =>
      simp only [RHash.consumed, hf, Bool.false_eq_true, if_false, withStringKeys_empty] at hb
      exact absurd hb not_mem_hashes_empty

theorem Acceptable.of_visits (h : Acceptable heap data) (hedge : Visits heap data b) :
    Acceptable heap b :=
  ⟨fun x hx => h.accepted x (reach_of_edge hedge hx), h.acyclic.of_edge hedge⟩

open Classical in
/-- **Some hashes have been flattened.**  A hash is still acceptable afterwards, and
flattening comes from it to the same hashes, but for those that are done. -/
theorem Acceptable.of_consumed (hacc : Acceptable heap b) (hS : Closed (Visits heap) S)
    (h : ∀ x ∈ reach (Visits heap) b, ∀ X, heap[x]? = some X →
      heap'[x]? = some (if x ∈ S then X.consumed else X)) :
    Acceptable heap' b ∧ reach (Visits heap') b ⊆ reach (Visits heap) b ∧
      S ∪ reach (Visits heap') b = S ∪ reach (Visits heap) b := by
  -- within reach of `b` no hash has gained a nested hash
  have hsub : ∀ x ∈ reach (Visits heap) b, ∀ y, Visits heap' x y → Visits heap x y := by
    intro x hx y hy
    obtain ⟨X, hX, -⟩ := hacc.accepted x hx
    have hother := h x hx X hX
    by_cases hxS : x ∈ S
    · rw [if_pos hxS] at hother
      exact hy.of_consumed hX hother
    · rw [if_neg hxS] at hother
      exact (visits_iff hX).2 ((visits_iff hother).1 hy)
  have hkeep : ∀ x ∈ reach (Visits heap) b, x ∉ S → ∀ y, Visits heap x y → Visits heap' x y := by
    intro x hx hxS y hy
    obtain ⟨X, hX, -⟩ := hacc.accepted x hx
    have hother := h x hx X hX
    rw [if_neg hxS] at hother
    exact (visits_iff hother).2 ((visits_iff hX).1 hy)
  have hreach := reach_subset hsub
  refine ⟨⟨fun x hx => ?_, hacc.acyclic.mono hsub⟩, hreach, union_reach hsub hkeep hS⟩
  obtain ⟨X, hX, hall⟩ := hacc.accepted x (hreach hx)
  have hother := h x (hreach hx) X hX
  by_cases hxS : x ∈ S
  · refine ⟨X.consumed, by rw [hother, if_pos hxS], ?_⟩
    cases hf : X.frozen with
    | true => simpa only [RHash.consumed, hf, if_true] using hall
    | false =>
        intro e he
        simp only [RHash.consumed, hf, Bool.false_eq_true, if_false, withStringKeys_empty] at he
        exact absurd he OrderedHash.not_mem_empty
  · exact ⟨X, by rw [hother, if_neg hxS], hall⟩

/-- **A hash nested in one that is being flattened.** -/
theorem Works.nested {left : Entries} {s : BuildState} (hw : Works heap a S left s)
    (hacc : Acceptable heap a) (hS : Closed (Visits heap) S) (hb : Visits heap a b) :
    Acceptable s.hashes b ∧ a ∉ reach (Visits s.hashes) b ∧
      S ∪ reach (Visits s.hashes) b = S ∪ reach (Visits heap) b := by
  have hne : ∀ x ∈ reach (Visits heap) b, x ≠ a := by
    rintro x hx rfl
    exact hacc.acyclic.not_mem_reach hb hx
  obtain ⟨hacc', hreach, hunion⟩ := (hacc.of_visits hb).of_consumed hS
    fun x hx X hX => hw.others x X (hne x hx) hX
  exact ⟨hacc', fun ha => hne a (hreach ha) rfl, hunion⟩

/-- The nested hash has been flattened in its turn. -/
theorem Works.consumed {left : Entries} {s s' : BuildState} (hw : Works heap a S left s)
    (hT : a ∉ T) (h : Consumed T s.hashes s'.hashes) : Works heap a (S ∪ T) left s' where
  length_le := hw.length_le.trans h.length_le
  work := by rw [h.hash a _ hw.work, if_neg hT]
  others x A hx hA := by
    have := h.hash x _ (hw.others x A hx hA)
    rw [this]
    by_cases hxS : x ∈ S <;> by_cases hxT : x ∈ T <;>
      simp [hxS, hxT, RHash.consumed_consumed]

end Visits

/-! ## Working on one hash -/

section Works

variable {inspect : RHeap → RValue → String} {heap : RHeap} {hash : HashId} {S : Set HashId}
  {left : Entries} {φ : BuildError → Prop}

/-- What is written to the error stream does not matter. -/
theorem Works.stderr {s : BuildState} (h : Works heap hash S left s) (lines : List String) :
    Works heap hash S left { s with stderr := lines } :=
  ⟨h.length_le, h.work, h.others⟩

theorem hashAt_run {id : HashId} {s : BuildState} {h : RHash} (hh : s.hashes[id]? = some h) :
    (hashAt id).run s = (.ok h, s) := by
  show (Program.orThrow BuildError.badHash s.hashes[id]?).run s = _
  rw [hh]
  rfl

theorem hashAt_works :
    Program.Outcome (Works heap hash S left) (hashAt hash)
      (fun h s => h = { entries := left } ∧ Works heap hash S left s) φ := by
  intro s hs
  rw [hashAt_run hs.work]
  exact ⟨rfl, hs⟩

theorem mutate_works (f : Entries → Entries) :
    Program.Outcome (Works heap hash S left) (mutate hash f)
      (fun _ => Works heap hash S (f left)) φ := by
  refine Program.Outcome.bind hashAt_works fun h => Program.Outcome.assume ?_
  rintro rfl
  refine Program.Outcome.modify fun s hs => ?_
  have hlt : hash < s.hashes.length := (List.getElem?_eq_some_iff.1 hs.work).1
  constructor
  · simpa using hs.length_le
  · simp [hlt]
  · intro a h hne hh
    rw [List.getElem?_set_ne (Ne.symm hne)]
    exact hs.others a h hne hh

theorem delete_works (k : Key) :
    Program.Outcome (Works heap hash S left) (delete hash k)
      (fun v s => v = (left.get? k).getD .nil ∧ Works heap hash S (left.delete k) s) φ := by
  refine Program.Outcome.bind hashAt_works fun h => Program.Outcome.assume ?_
  rintro rfl
  refine Program.Outcome.bind (mutate_works _) fun _ => ?_
  exact Program.Outcome.pure _ fun s hs => ⟨rfl, hs⟩

theorem warnDuplicate_works (k : Key) :
    Program.Outcome (Works heap hash S left) (warnDuplicate inspect k)
      (fun _ => Works heap hash S left) φ :=
  Program.Outcome.modify fun _ hs => hs.stderr _

end Works

/-! ## The phases of a round -/

/-- What flattening returns: no hashes, and only strings in arrays. -/
def RValue.Flat : RValue → Prop
  | .string _ | .numeric _ | .nil | .bool _ => True
  | .array elements => ∀ e ∈ elements, ∃ text, e = .string text
  | _ => False

/-- All values are flat. -/
def Entries.Flat (entries : Entries) : Prop := ∀ e ∈ entries, e.2.Flat

/-- All values are flat or hashes, as they are when the arrays are joined. -/
def Entries.Ready (entries : Entries) : Prop := ∀ e ∈ entries, e.2.Flat ∨ e.2.isHash = true

/-- The keys and values have been transformed, in some state of the hashes. -/
def Entries.Transformed (inspect : RHeap → RValue → String) (left left' : Entries) : Prop :=
  ∃ hashes, left' = left.withStringKeys.mapValues (stringify inspect hashes)

/-- Values of one kind have been moved into `final`, unless the key is there; then they
are dropped, or stay. -/
structure Entries.Moved (p : RValue → Bool) (stays : Bool) (left final left' final' : Entries) :
    Prop where
  mem_final : ∀ e, e ∈ final' ↔ e ∈ final ∨ e ∈ left ∧ p e.2 = true ∧ final.hasKey e.1 = false
  left_eq : left' = left.select fun e => !p e.2 || (stays && final.hasKey e.1)

namespace Entries

variable {inspect : RHeap → RValue → String} {p : RValue → Bool} {stays : Bool}
  {left left' final final' : Entries} {k : Key} {v : RValue}

theorem Moved.mem_left (h : Moved p stays left final left' final') {e : Key × RValue} :
    e ∈ left' ↔ e ∈ left ∧ (p e.2 = false ∨ stays = true ∧ final.hasKey e.1 = true) := by
  rw [h.left_eq]
  simp

theorem Moved.ready (h : Moved p stays left final left' final') (hleft : left.Ready) : left'.Ready :=
  fun e he => hleft e (h.mem_left.1 he).1

theorem Moved.flat (h : Moved p stays left final left' final') (hfinal : final.Flat)
    (hleft : ∀ e ∈ left, p e.2 = true → e.2.Flat) : final'.Flat := by
  intro e he
  rcases (h.mem_final e).1 he with he | ⟨he, hp, -⟩
  · exact hfinal e he
  · exact hleft e he hp

/-- No hash has been moved. -/
theorem Moved.hashes (h : Moved p stays left final left' final') (hp : ∀ b, p (.hash b) = false) :
    left'.hashes = left.hashes := by
  ext b
  simp [Entries.hashes, h.mem_left, hp]

end Entries

section Phases

variable {inspect : RHeap → RValue → String} {heap : RHeap} {hash : HashId} {S : Set HashId}
  {left final : Entries} {φ : BuildError → Prop}

theorem RValue.isHash_of_isArray {v : RValue} (h : v.isArray = true) : v.isHash = false := by
  cases v with
  | array elements => rfl
  | string text | symbol text | pathname text | numeric text | nil | bool b | hash id | other result =>
      cases h

theorem flat_of_ready {v : RValue} (h : v.Flat ∨ v.isHash = true) (hv : v.isHash = false) : v.Flat :=
  h.resolve_right (by simp [hv])

theorem RValue.toS_of_prints {e : RValue} (h : e.prints = true) :
    ∃ text, e.toS inspect heap = .string text := by
  cases e with
  | string text | symbol text | pathname text | numeric text => exact ⟨_, rfl⟩
  | nil | array elements | hash id => exact ⟨_, rfl⟩
  | bool b => cases b <;> exact ⟨_, rfl⟩
  | other result =>
      cases result with
      | string text => exact ⟨_, rfl⟩
      | symbol _ | pathname _ | numeric _ | nil | bool _ | array _ | hash _ | other _ => cases h

/-- An array whose elements print is an array of strings when they have been joined. -/
theorem stringify_array_flat {elements : List RValue} (h : (RValue.array elements).elementsPrint = true) :
    (stringify inspect heap (.array elements)).Flat := by
  intro e he
  obtain ⟨e', he', rfl⟩ := List.mem_map.1 he
  exact RValue.toS_of_prints (List.all_eq_true.1 h e' he')

/-- What is accepted is flat or a hash when the arrays are joined. -/
theorem stringify_ready {v : RValue} (hv : v.isAccepted = true) :
    (stringify inspect heap v).Flat ∨ (stringify inspect heap v).isHash = true := by
  cases v with
  | string text | symbol text | pathname text | numeric text => exact .inl trivial
  | nil => exact .inl trivial
  | bool b => exact .inl trivial
  | array elements => exact .inl (stringify_array_flat hv)
  | hash id => exact .inr rfl
  | other result => cases hv

theorem stringify_eq_hash {v : RValue} {b : HashId} :
    stringify inspect heap v = .hash b ↔ v = .hash b := by
  cases v <;> simp [stringify, RValue.toS]

/-- What is flat or a hash is accepted, again. -/
theorem isAccepted_of_ready {v : RValue} (h : v.Flat ∨ v.isHash = true) : v.isAccepted = true := by
  cases v with
  | string text | numeric text | nil | hash id => rfl
  | bool b => cases b <;> rfl
  | array elements =>
      refine List.all_eq_true.2 fun e he => ?_
      obtain ⟨text, rfl⟩ := h.resolve_right Bool.false_ne_true e he
      rfl
  | symbol text | pathname text | other result => simp [RValue.Flat, RValue.isHash] at h

theorem serializable_of_ready {v : RValue} (h : v.Flat ∨ v.isHash = true) :
    cmakeSerializable v = true :=
  (Bool.and_eq_true_iff.1 (isAccepted_of_ready h)).1

theorem Entries.Transformed.ready {left' : Entries} (h : left.Transformed inspect left')
    (hleft : ∀ e ∈ left.withStringKeys, e.2.isAccepted = true) : left'.Ready := by
  obtain ⟨hashes, rfl⟩ := h
  rintro ⟨k, w⟩ he
  obtain ⟨v, hv, rfl⟩ := OrderedHash.mem_mapValues.1 he
  exact stringify_ready (hleft _ hv)

theorem Entries.Transformed.hashes {left' : Entries} (h : left.Transformed inspect left') :
    left'.hashes = left.withStringKeys.hashes := by
  obtain ⟨hashes, rfl⟩ := h
  ext b
  simp only [Entries.hashes, OrderedHash.mem_mapValues, stringify_eq_hash, Set.mem_ofPred_eq,
    exists_eq_right]

/-- The start of a round. -/
theorem transformEntries_works :
    Program.Outcome (Works heap hash S left) (transformEntries inspect hash)
      (fun _ s => ∃ left', left.Transformed inspect left' ∧ Works heap hash S left' s) φ := by
  refine Program.Outcome.bind (mutate_works _) fun _ => ?_
  refine Program.Outcome.bind Program.Outcome.get fun s => ?_
  exact (mutate_works _).conseq (fun _ hs => hs.2) fun _ t ht => ⟨_, ⟨s.hashes, rfl⟩, ht⟩

theorem moveArray_dup {k : Key} (hdup : final.hasKey k = true) :
    Program.Outcome (Works heap hash S left) (moveArray inspect hash final k)
      (fun final' s => final' = final ∧ Works heap hash S left s) φ := by
  unfold moveArray
  simp only [hdup, if_true]
  refine Program.Outcome.bind (warnDuplicate_works k) fun _ => ?_
  exact Program.Outcome.pure final fun s hs => ⟨rfl, hs⟩

theorem moveArray_new {k : Key} {v : RValue} (hk : (k, v) ∈ left) (hnew : final.hasKey k = false) :
    Program.Outcome (Works heap hash S left) (moveArray inspect hash final k)
      (fun final' s => final' = final.aset k v ∧ Works heap hash S (left.delete k) s) φ := by
  unfold moveArray
  simp only [hnew, Bool.false_eq_true, if_false]
  refine Program.Outcome.bind (delete_works k) fun w => Program.Outcome.assume ?_
  rintro rfl
  rw [OrderedHash.get?_eq_some_iff.2 hk]
  exact Program.Outcome.pure _ fun s hs => ⟨rfl, hs⟩

theorem moveCompletedEntry_dup {k : Key} (hdup : final.hasKey k = true) :
    Program.Outcome (Works heap hash S left) (moveCompletedEntry inspect hash final k)
      (fun final' s => final' = final ∧ Works heap hash S (left.delete k) s) φ := by
  refine Program.Outcome.bind (delete_works k) fun w => Program.Outcome.assume fun _ => ?_
  simp only [hdup, if_true]
  refine Program.Outcome.bind (warnDuplicate_works k) fun _ => ?_
  exact Program.Outcome.pure final fun s hs => ⟨rfl, hs⟩

theorem moveCompletedEntry_new {k : Key} {v : RValue} (hk : (k, v) ∈ left)
    (hnew : final.hasKey k = false) :
    Program.Outcome (Works heap hash S left) (moveCompletedEntry inspect hash final k)
      (fun final' s => final' = final.aset k v ∧ Works heap hash S (left.delete k) s) φ := by
  refine Program.Outcome.bind (delete_works k) fun w => Program.Outcome.assume ?_
  rintro rfl
  rw [OrderedHash.get?_eq_some_iff.2 hk]
  simp only [hnew, Bool.false_eq_true, if_false]
  exact Program.Outcome.pure _ fun s hs => ⟨rfl, hs⟩

/-- What is in `final` when the value at one more key has been moved. -/
theorem mem_moved_cons {k : Key} {v : RValue} {ks : List Key} {e : Key × RValue} (hv : (k, v) ∈ left)
    (hnew : final.hasKey k = false) :
    (e ∈ final.aset k v ∨ e ∈ left.delete k ∧ e.1 ∈ ks ∧ (final.aset k v).hasKey e.1 = false) ↔
      e ∈ final ∨ e ∈ left ∧ e.1 ∈ k :: ks ∧ final.hasKey e.1 = false := by
  obtain ⟨k', w⟩ := e
  rw [OrderedHash.mem_aset, OrderedHash.mem_delete, OrderedHash.hasKey_aset]
  by_cases hkey : k' = k
  · subst hkey
    have hnot := OrderedHash.hasKey_eq_false_iff.1 hnew w
    have hval : w = v ↔ (k', w) ∈ left :=
      ⟨fun heq => heq ▸ hv, fun hw => OrderedHash.value_unique hw hv⟩
    simp [hnot, hval, hnew]
  · simp [hkey]

/-- **Moving the values at some keys**, one after the other.  A duplicate stays or is
dropped, as the move of one entry does it. -/
theorem foldlM_works {move : Entries → Key → Build Entries} (stays : Bool)
    (hdup : ∀ left final k, final.hasKey k = true →
      Program.Outcome (Works heap hash S left) (move final k)
        (fun final' s => final' = final ∧
          Works heap hash S (if stays then left else left.delete k) s) φ)
    (hnew : ∀ left final k v, (k, v) ∈ left → final.hasKey k = false →
      Program.Outcome (Works heap hash S left) (move final k)
        (fun final' s => final' = final.aset k v ∧ Works heap hash S (left.delete k) s) φ)
    (ks : List Key) (hks : ks.Nodup) (hin : ∀ k ∈ ks, ∃ v, (k, v) ∈ left) :
    Program.Outcome (Works heap hash S left) (ks.foldlM move final)
      (fun final' s =>
        (∀ e, e ∈ final' ↔ e ∈ final ∨ e ∈ left ∧ e.1 ∈ ks ∧ final.hasKey e.1 = false) ∧
        Works heap hash S (left.select fun e => !decide (e.1 ∈ ks) || (stays && final.hasKey e.1)) s)
      φ := by
  induction ks generalizing left final with
  | nil =>
      refine Program.Outcome.pure _ fun s hs => ⟨by simp, ?_⟩
      rwa [OrderedHash.select_eq_self (by simp)]
  | cons k ks ih =>
      obtain ⟨hk, hks⟩ := List.nodup_cons.1 hks
      rw [List.forall_mem_cons] at hin
      obtain ⟨⟨v, hv⟩, hin⟩ := hin
      have hdelete : ∀ k' ∈ ks, ∃ v', (k', v') ∈ left.delete k := by
        intro k' hk'
        obtain ⟨v', hv'⟩ := hin k' hk'
        exact ⟨v', OrderedHash.mem_delete.2 ⟨hv', fun heq : k' = k => hk (heq ▸ hk')⟩⟩
      rw [List.foldlM_cons]
      cases hfinal : final.hasKey k with
      | true =>
          refine Program.Outcome.bind (hdup left final k hfinal) fun final₁ => Program.Outcome.assume ?_
          rintro rfl
          have hrest : ∀ k' ∈ ks, ∃ v', (k', v') ∈ if stays then left else left.delete k := by
            cases stays
            · exact hdelete
            · exact hin
          refine (ih hks hrest).conseq (fun _ hs => hs) ?_
          rintro final' s ⟨hmem, hs⟩
          constructor
          · intro e
            rw [hmem e]
            by_cases hkey : e.1 = k
            · simp [hkey, hfinal, hk]
            · cases stays <;> simp [hkey]
          · cases stays with
            | false =>
                simp only [Bool.false_eq_true, if_false, OrderedHash.select_delete] at hs
                rwa [OrderedHash.select_congr fun e _ => ?_]
                by_cases hkey : e.1 = k <;> simp [hkey]
            | true =>
                rwa [OrderedHash.select_congr fun e _ => ?_]
                by_cases hkey : e.1 = k <;> simp [hkey, hfinal]
      | false =>
          refine Program.Outcome.bind (hnew left final k v hv hfinal) fun final₁ =>
            Program.Outcome.assume ?_
          rintro rfl
          refine (ih hks hdelete).conseq (fun _ hs => hs) ?_
          rintro final' s ⟨hmem, hs⟩
          constructor
          · exact fun e => (hmem e).trans (mem_moved_cons hv hfinal)
          · rw [OrderedHash.select_delete] at hs
            rwa [OrderedHash.select_congr fun e _ => ?_]
            by_cases hkey : e.1 = k <;> simp [hkey, hfinal]

/-- Moving all values of one kind. -/
theorem moveWhere_works {move : Entries → Key → Build Entries} {p : RValue → Bool} (stays : Bool)
    (hdup : ∀ left final k, final.hasKey k = true →
      Program.Outcome (Works heap hash S left) (move final k)
        (fun final' s => final' = final ∧
          Works heap hash S (if stays then left else left.delete k) s) φ)
    (hnew : ∀ left final k v, (k, v) ∈ left → final.hasKey k = false →
      Program.Outcome (Works heap hash S left) (move final k)
        (fun final' s => final' = final.aset k v ∧ Works heap hash S (left.delete k) s) φ) :
    Program.Outcome (Works heap hash S left)
      (do
        let h ← hashAt hash
        (h.entries.keysWhere p).foldlM move final)
      (fun final' s => ∃ left', left.Moved p stays final left' final' ∧ Works heap hash S left' s)
      φ := by
  refine Program.Outcome.bind hashAt_works fun h => Program.Outcome.assume ?_
  rintro rfl
  have hin : ∀ k ∈ left.keysWhere p, ∃ v, (k, v) ∈ left := by
    intro k hk
    obtain ⟨v, hv, -⟩ := OrderedHash.mem_keysWhere.1 hk
    exact ⟨v, hv⟩
  have hkind : ∀ e ∈ left, e.1 ∈ left.keysWhere p ↔ p e.2 = true := by
    rintro ⟨k, v⟩ hv
    rw [OrderedHash.mem_keysWhere]
    constructor
    · rintro ⟨w, hw, hp⟩
      rwa [OrderedHash.value_unique hv hw]
    · exact fun hp => ⟨v, hv, hp⟩
  refine (foldlM_works stays hdup hnew _ (OrderedHash.nodup_keysWhere p) hin).conseq
    (fun _ hs => hs) ?_
  rintro final' s ⟨hmem, hs⟩
  refine ⟨_, ⟨fun e => ?_, OrderedHash.select_congr fun e he => ?_⟩, hs⟩
  · rw [hmem e]
    exact or_congr_right (and_congr_right fun he => by rw [hkind e he])
  · simp [hkind e he]

/-- The arrays are moved; a duplicate stays. -/
theorem moveArrays_works :
    Program.Outcome (Works heap hash S left) (moveArrays inspect hash final)
      (fun final' s => ∃ left', left.Moved RValue.isArray true final left' final' ∧
        Works heap hash S left' s) φ :=
  moveWhere_works true (fun _ _ _ => moveArray_dup) fun _ _ _ _ => moveArray_new

/-- What is completed is moved; a duplicate is dropped. -/
theorem moveCompleted_works :
    Program.Outcome (Works heap hash S left) (moveCompleted inspect hash final)
      (fun final' s => ∃ left', left.Moved RValue.isCompleted false final left' final' ∧
        Works heap hash S left' s) φ :=
  moveWhere_works false (fun _ _ _ => moveCompletedEntry_dup) fun _ _ _ _ => moveCompletedEntry_new

/-- Nothing is refused. -/
theorem rejectUnrecognized_works (hready : left.Ready) :
    Program.Outcome (Works heap hash S left) (rejectUnrecognized inspect hash)
      (fun _ => Works heap hash S left) φ := by
  refine Program.Outcome.bind hashAt_works fun h => Program.Outcome.assume ?_
  rintro rfl
  refine Program.Outcome.bind Program.Outcome.get fun s => ?_
  have hnone : left.keysWhere (fun v => !cmakeSerializable v) = [] := by
    refine List.eq_nil_iff_forall_not_mem.2 fun k hk => ?_
    obtain ⟨v, hv, hbad⟩ := OrderedHash.mem_keysWhere.1 hk
    rw [serializable_of_ready (hready _ hv)] at hbad
    cases hbad
  simp only [hnone, List.isEmpty_nil, if_true]
  exact Program.Outcome.pure _ fun s hs => hs.2

end Phases

/-! ## Copies -/

section Copies

variable {heap : RHeap} {a b x y : HashId} {A X : RHash}

/-- The heap after `dup`. -/
abbrev RHeap.withCopy (heap : RHeap) (A : RHash) : RHeap := heap ++ [{ entries := A.entries }]

theorem getElem?_withCopy (hX : heap[x]? = some X) : (heap.withCopy A)[x]? = some X := by
  rw [List.getElem?_append_left (List.getElem?_eq_some_iff.1 hX).1, hX]

theorem getElem?_copy : (heap.withCopy A)[heap.length]? = some { entries := A.entries } := by
  simp [RHeap.withCopy]

theorem visits_withCopy (hX : heap[x]? = some X) :
    Visits (heap.withCopy A) x y ↔ Visits heap x y := by
  rw [visits_iff hX, visits_iff (getElem?_withCopy hX)]

theorem visits_copy (hA : heap[a]? = some A) :
    Visits (heap.withCopy A) heap.length b ↔ Visits heap a b := by
  rw [visits_iff hA, visits_iff getElem?_copy]

theorem reach_withCopy (hacc : Acceptable heap b) :
    reach (Visits (heap.withCopy A)) b = reach (Visits heap) b := by
  refine reach_congr fun x hx y => ?_
  obtain ⟨X, hX, -⟩ := hacc.accepted x hx
  exact (visits_withCopy hX).symm

/-- From a copy flattening comes to what it comes to from the original. -/
theorem mem_reach_copy (hacc : Acceptable heap a) (hA : heap[a]? = some A) :
    x ∈ reach (Visits (heap.withCopy A)) heap.length ↔
      x = heap.length ∨ ∃ b, Visits heap a b ∧ x ∈ reach (Visits heap) b := by
  rw [mem_reach_iff]
  refine or_congr_right (exists_congr fun b => ?_)
  rw [visits_copy hA]
  exact and_congr_right fun hb => by rw [reach_withCopy (hacc.of_visits hb)]

theorem Acceptable.copy (hacc : Acceptable heap a) (hA : heap[a]? = some A) :
    Acceptable (heap.withCopy A) heap.length := by
  obtain ⟨A', hA', hall⟩ := hacc.accepted a self_mem_reach
  rw [hA] at hA'
  cases hA'
  constructor
  · intro x hx
    rcases (mem_reach_copy hacc hA).1 hx with rfl | ⟨b, hb, hx⟩
    · exact ⟨_, getElem?_copy, hall⟩
    · obtain ⟨X, hX, hX'⟩ := (hacc.of_visits hb).accepted x hx
      exact ⟨X, getElem?_withCopy hX, hX'⟩
  · intro x hx hcycle
    rcases (mem_reach_copy hacc hA).1 hx with rfl | ⟨b, hb, hx⟩
    -- nothing leads to the copy
    · obtain ⟨b, hb, hback⟩ := Relation.TransGen.head'_iff.1 hcycle
      have hb' := hacc.of_visits ((visits_copy hA).1 hb)
      have hback' : heap.length ∈ reach (Visits heap) b := reach_withCopy (A := A) hb' ▸ hback
      obtain ⟨X, hX, -⟩ := hb'.accepted _ hback'
      simp at hX
    · have hb' := hacc.of_visits hb
      refine (hb'.acyclic.mono fun x hx y hxy => ?_) x ?_ hcycle
      · obtain ⟨X, hX, -⟩ := hb'.accepted x hx
        exact (visits_withCopy hX).1 hxy
      · rwa [reach_withCopy hb']

theorem dupIfFrozen_run {s : BuildState} (hA : s.hashes[a]? = some A) :
    (dupIfFrozen a).run s = if A.frozen then
      (.ok s.hashes.length, { s with hashes := RHeap.withCopy s.hashes A }) else (.ok a, s) := by
  rw [dupIfFrozen, Program.run_bind_ok (hashAt_run hA)]
  cases A.frozen with
  | false => rfl
  | true =>
      rw [if_pos rfl, dup, Program.run_bind_ok (hashAt_run hA)]
      rfl

/-- What has been done to the copy has not been done to the original. -/
theorem Consumed.of_copy {after : RHeap} (hacc : Acceptable heap a) (hA : heap[a]? = some A)
    (hfrozen : A.frozen = true)
    (h : Consumed (reach (Visits (heap.withCopy A)) heap.length) (heap.withCopy A) after) :
    Consumed (reach (Visits heap) a) heap after where
  length_le := le_trans (by simp) h.length_le
  hash x X hX := by
    rw [h.hash x X (getElem?_withCopy hX)]
    have hne : x ≠ heap.length := by
      rintro rfl
      simp at hX
    by_cases hx : x = a
    · subst hx
      rw [hA] at hX
      cases hX
      rw [RHash.consumed_eq_iff.2 (.inl hfrozen), ite_self, ite_self]
    · have hiff : x ∈ reach (Visits (heap.withCopy A)) heap.length ↔ x ∈ reach (Visits heap) a := by
        rw [mem_reach_copy hacc hA, mem_reach_iff (a := a)]
        simp only [hne, hx, false_or]
      by_cases hreach : x ∈ reach (Visits heap) a
      · rw [if_pos (hiff.2 hreach), if_pos hreach]
      · rw [if_neg (mt hiff.1 hreach), if_neg hreach]

end Copies

/-! ## Flattening -/

/-- What flattening does: it returns flat entries, and the hashes it comes to have
been flattened. -/
def Flattens (flatten : HashId → Build Entries) : Prop :=
  ∀ heap hash, Acceptable heap hash →
    Program.Outcome (fun s => s.hashes = heap) (flatten hash)
      (fun final s => final.Flat ∧ Consumed (reach (Visits heap) hash) heap s.hashes)
      (· = .outOfFuel)

/-- It may be done to a copy, if the hash is frozen. -/
theorem Flattens.dupIfFrozen {flatten : HashId → Build Entries}
    (h : ∀ heap hash A, Acceptable heap hash → heap[hash]? = some A → A.frozen = false →
      Program.Outcome (fun s => s.hashes = heap) (flatten hash)
        (fun final s => final.Flat ∧ Consumed (reach (Visits heap) hash) heap s.hashes)
        (· = .outOfFuel)) :
    Flattens (fun hash => RuBLE.CMake.dupIfFrozen hash >>= flatten) := by
  rintro heap hash hacc s rfl
  obtain ⟨A, hA, -⟩ := hacc.accepted hash self_mem_reach
  cases hfrozen : A.frozen with
  | false =>
      have hrun := dupIfFrozen_run hA
      rw [hfrozen, if_neg (by simp)] at hrun
      rw [Program.run_bind_ok hrun]
      exact h s.hashes hash A hacc hA hfrozen s rfl
  | true =>
      have hrun := dupIfFrozen_run hA
      rw [hfrozen, if_pos rfl] at hrun
      rw [Program.run_bind_ok hrun]
      refine ((h _ _ _ (hacc.copy hA) getElem?_copy rfl).conseq (fun _ hs => hs) ?_) _ rfl
      exact fun final t ht => ⟨ht.1, ht.2.of_copy hacc hA hfrozen⟩

section Flattening

variable {inspect : RHeap → RValue → String} {flatten : HashId → Build Entries} {heap : RHeap}
  {hash b : HashId} {S : Set HashId} {left final : Entries} {k : Key}

/-- All that flattening comes to from some hashes. -/
def below (heap : RHeap) (bs : Set HashId) : Set HashId := ⋃ b ∈ bs, reach (Visits heap) b

theorem closed_below (bs : Set HashId) : Closed (Visits heap) (below heap bs) := by
  intro x hx y hxy
  simp only [below, Set.mem_iUnion] at hx ⊢
  obtain ⟨b, hb, hx⟩ := hx
  exact ⟨b, hb, closed_reach x hx y hxy⟩

theorem below_empty {bs : Set HashId} (h : ∀ b, b ∉ bs) : below heap bs = ∅ := by
  rw [below, Set.eq_empty_iff_forall_notMem.2 h, Set.biUnion_empty]

/-- A nested hash is flattened, in the middle of the loop. -/
theorem flatten_works (hflatten : Flattens flatten) (hacc : Acceptable heap hash)
    (hS : Closed (Visits heap) S) (hb : Visits heap hash b) :
    Program.Outcome (Works heap hash S left) (flatten b)
      (fun flat s => flat.Flat ∧ Works heap hash (S ∪ reach (Visits heap) b) left s)
      (· = .outOfFuel) := by
  intro s hs
  obtain ⟨hacc', hnot, hunion⟩ := hs.nested hacc hS hb
  refine ((hflatten s.hashes b hacc').conseq (fun _ ht => ht) ?_) s rfl
  rintro flat t ⟨hflat, ht⟩
  refine ⟨hflat, ?_⟩
  have hworks := hs.consumed hnot ht
  rwa [hunion] at hworks

/-- One entry has given way to flat ones. -/
def Entries.Replaced (left : Entries) (k : Key) (left' : Entries) : Prop :=
  (∀ e ∈ left', e ∈ left ∧ e.1 ≠ k ∨ e.2.Flat) ∧ ∀ e ∈ left, e.1 ≠ k → e ∈ left'

/-- The key of an entry that comes from a nested hash. -/
def joinKeys (k k' : Key) : Key := .string (k.toS ++ cmakeKeySeparator ++ k'.toS)

/-- The entry of a nested hash gives way to what it has been flattened to. -/
def Entries.replace (left : Entries) (k : Key) (flat : Entries) : Entries :=
  (left.delete k).merge (flat.transformKeys (joinKeys k))

theorem Entries.replaced {flat : Entries} (hflat : flat.Flat) :
    left.Replaced k (left.replace k flat) := by
  constructor
  · intro e he
    rcases OrderedHash.mem_of_mem_merge he with he | he
    · exact .inl (OrderedHash.mem_delete.1 he)
    · obtain ⟨k', hk'⟩ := OrderedHash.exists_mem_of_mem_transformKeys he
      exact .inr (hflat (k', e.2) hk')
  · exact fun e he hne => OrderedHash.mem_merge_of_mem (OrderedHash.mem_delete.2 ⟨he, hne⟩)

/-- A nested hash is replaced, whatever is known of what it is flattened to. -/
theorem flattenNested_works {χ : Entries → Prop} {T : Set HashId} {φ : BuildError → Prop}
    (hk : (k, .hash b) ∈ left)
    (hflatten : Program.Outcome (Works heap hash S (left.delete k)) (dupIfFrozen b >>= flatten)
      (fun flat s => χ flat ∧ Works heap hash T (left.delete k) s) φ) :
    Program.Outcome (Works heap hash S left) (flattenNested inspect flatten hash k)
      (fun _ s => ∃ flat, χ flat ∧ Works heap hash T (left.replace k flat) s) φ := by
  refine Program.Outcome.bind (delete_works k) fun v => Program.Outcome.assume ?_
  rintro rfl
  rw [OrderedHash.get?_eq_some_iff.2 hk]
  simp only [Option.getD_some]
  rw [← bind_assoc]
  refine Program.Outcome.bind hflatten fun flat => Program.Outcome.assume fun hflat => ?_
  refine Program.Outcome.bind hashAt_works fun h => Program.Outcome.assume ?_
  rintro rfl
  refine Program.Outcome.bind (Program.Outcome.forM _ fun _ _ => warnDuplicate_works _) fun _ => ?_
  exact (mutate_works _).conseq (fun _ hs => hs) fun _ t ht => ⟨flat, hflat, ht⟩

theorem Entries.Replaced.ready {left' : Entries} (h : left.Replaced k left') (hready : left.Ready) :
    left'.Ready := by
  intro e he
  rcases h.1 e he with ⟨he, -⟩ | he
  · exact hready e he
  · exact .inl he

/-- The hashes are those that were there, but for the one replaced. -/
theorem Entries.Replaced.hashes {left' : Entries} (h : left.Replaced k left')
    (hk : (k, .hash b) ∈ left) : left.hashes = insert b left'.hashes := by
  ext c
  constructor
  · rintro ⟨k', hc⟩
    by_cases hkey : k' = k
    · subst hkey
      cases OrderedHash.value_unique hc hk
      exact Set.mem_insert _ _
    · exact Set.mem_insert_of_mem _ ⟨k', h.2 _ hc hkey⟩
  · rintro (rfl | ⟨k', hc⟩)
    · exact ⟨k, hk⟩
    · exact ⟨k', ((h.1 _ hc).resolve_right (by simp [RValue.Flat])).1⟩

/-- **The nested hashes are replaced, one after the other.**  By induction on the
keys that are still to come. -/
theorem flattenNested_forM (hflatten : Flattens flatten) (hacc : Acceptable heap hash)
    (ks : List Key) (hS : Closed (Visits heap) S) (hks : ks.Nodup) (hready : left.Ready)
    (hin : ∀ k ∈ ks, ∃ b, (k, .hash b) ∈ left ∧ Visits heap hash b)
    (hall : ∀ k b, (k, .hash b) ∈ left → k ∈ ks) :
    Program.Outcome (Works heap hash S left) (ks.forM (flattenNested inspect flatten hash))
      (fun _ s => ∃ left' : Entries, left'.Flat ∧
        Works heap hash (S ∪ below heap left.hashes) left' s)
      (· = .outOfFuel) := by
  induction ks generalizing S left with
  | nil =>
      have hnone : ∀ b, b ∉ left.hashes := by
        rintro b ⟨k, hb⟩
        exact absurd (hall k b hb) List.not_mem_nil
      refine Program.Outcome.pure _ fun s hs => ⟨left, fun e he => ?_, ?_⟩
      · rcases hready e he with hflat | hhash
        · exact hflat
        · obtain ⟨k, v⟩ := e
          cases v <;> simp only [RValue.isHash, Bool.false_eq_true] at hhash
          exact absurd ⟨k, he⟩ (hnone _)
      · rwa [below_empty hnone, Set.union_empty]
  | cons k ks ih =>
      obtain ⟨hk, hks⟩ := List.nodup_cons.1 hks
      obtain ⟨b, hkb, hb⟩ := hin k List.mem_cons_self
      refine Program.Outcome.bind (flattenNested_works hkb (flatten_works
        (Flattens.dupIfFrozen fun heap hash _ hacc _ _ => hflatten heap hash hacc) hacc hS hb)) fun _ => ?_
      apply Program.Outcome.assume_exists
      intro flat hflat
      have hreplaced : left.Replaced k (left.replace k flat) := Entries.replaced hflat
      have hbelow : S ∪ below heap left.hashes =
          S ∪ reach (Visits heap) b ∪ below heap (left.replace k flat).hashes := by
        rw [hreplaced.hashes hkb, below, below, Set.biUnion_insert, Set.union_assoc]
      rw [hbelow]
      refine ih (hS.union closed_reach) hks (hreplaced.ready hready) (fun k' hk' => ?_) ?_
      · obtain ⟨b', hkb', hb'⟩ := hin k' (List.mem_cons_of_mem k hk')
        exact ⟨b', hreplaced.2 _ hkb' (by rintro rfl; exact hk hk'), hb'⟩
      · intro k' b' hkb'
        obtain ⟨hmem, hne⟩ := (hreplaced.1 _ hkb').resolve_right (by simp [RValue.Flat])
        exact (List.mem_cons.1 (hall k' b' hmem)).resolve_left hne

/-- The nested hashes are those among the entries that are left. -/
theorem flattenHashes_of_forM {Q : Unit → BuildState → Prop} {φ : BuildError → Prop}
    (h : Program.Outcome (Works heap hash S left)
      ((left.keysWhere RValue.isHash).forM (flattenNested inspect flatten hash)) Q φ) :
    Program.Outcome (Works heap hash S left) (flattenHashes inspect flatten hash) Q φ := by
  refine Program.Outcome.bind hashAt_works fun A => Program.Outcome.assume ?_
  rintro rfl
  exact h

theorem flattenHashes_works (hflatten : Flattens flatten) (hacc : Acceptable heap hash)
    (hS : Closed (Visits heap) S) (hready : left.Ready)
    (hnested : ∀ b ∈ left.hashes, Visits heap hash b) :
    Program.Outcome (Works heap hash S left) (flattenHashes inspect flatten hash)
      (fun _ s => ∃ left' : Entries, left'.Flat ∧
        Works heap hash (S ∪ below heap left.hashes) left' s)
      (· = .outOfFuel) := by
  refine flattenHashes_of_forM (flattenNested_forM hflatten hacc _ hS (OrderedHash.nodup_keysWhere _)
    hready (fun k hk => ?_) fun k b hb => OrderedHash.mem_keysWhere.2 ⟨_, hb, rfl⟩)
  obtain ⟨v, hv, hhash⟩ := OrderedHash.mem_keysWhere.1 hk
  cases v <;> simp only [RValue.isHash, Bool.false_eq_true] at hhash
  exact ⟨_, hv, hnested _ ⟨k, hv⟩⟩

/-- **A round.**  The nested hashes have been flattened, and what is left is flat. -/
theorem flattenRound_works (hflatten : Flattens flatten) (hacc : Acceptable heap hash)
    (hS : Closed (Visits heap) S) (hfinal : final.Flat)
    (hleft : ∀ e ∈ left.withStringKeys, e.2.isAccepted = true)
    (hnested : ∀ b ∈ left.withStringKeys.hashes, Visits heap hash b) :
    Program.Outcome (Works heap hash S left) (flattenRound inspect flatten hash final)
      (fun final' s => final'.Flat ∧ ∃ left' : Entries, left'.Flat ∧
        Works heap hash (S ∪ below heap left.withStringKeys.hashes) left' s)
      (· = .outOfFuel) := by
  refine Program.Outcome.bind transformEntries_works fun _ => ?_
  apply Program.Outcome.assume_exists
  intro left₁ htransformed
  have hready₁ := htransformed.ready hleft
  refine Program.Outcome.bind moveArrays_works fun final₁ => ?_
  apply Program.Outcome.assume_exists
  intro left₂ hmoved
  have hfinal₁ := hmoved.flat hfinal fun e he harray =>
    flat_of_ready (hready₁ e he) (RValue.isHash_of_isArray harray)
  have hready₂ := hmoved.ready hready₁
  have hhashes₂ : left₂.hashes = left.withStringKeys.hashes :=
    (hmoved.hashes fun _ => rfl).trans htransformed.hashes
  refine Program.Outcome.bind (rejectUnrecognized_works hready₂) fun _ => ?_
  refine Program.Outcome.bind (flattenHashes_works hflatten hacc hS hready₂
    fun b hb => hnested b (hhashes₂ ▸ hb)) fun _ => ?_
  apply Program.Outcome.assume_exists
  intro left₃ hflat₃
  rw [hhashes₂]
  refine moveCompleted_works.conseq (fun _ hs => hs) ?_
  rintro final₂ s ⟨left₄, hmoved', hs⟩
  exact ⟨hmoved'.flat hfinal₁ fun e he _ => hflat₃ e he, left₄,
    fun e he => hflat₃ e (hmoved'.mem_left.1 he).1, hs⟩

/-- What is flat has no hashes, also when the keys have become strings. -/
theorem Entries.Flat.not_mem_hashes (h : left.Flat) (b : HashId) : b ∉ left.withStringKeys.hashes := by
  intro hb
  obtain ⟨k, hk⟩ := hashes_withStringKeys_subset hb
  exact h _ hk

/-- **The loop**, by induction on its rounds: only the first finds nested hashes. -/
theorem flattenUntilEmpty_works (hflatten : Flattens flatten) (hacc : Acceptable heap hash) (n : Nat)
    (hS : Closed (Visits heap) S) (hfinal : final.Flat)
    (hleft : ∀ e ∈ left.withStringKeys, e.2.isAccepted = true)
    (hnested : ∀ b ∈ left.withStringKeys.hashes, Visits heap hash b) :
    Program.Outcome (Works heap hash S left) (flattenUntilEmpty inspect flatten hash n final)
      (fun final' s => final'.Flat ∧
        Works heap hash (S ∪ below heap left.withStringKeys.hashes) ∅ s)
      (· = .outOfFuel) := by
  induction n generalizing S left final with
  | zero => exact Program.Outcome.throw rfl
  | succ n ih =>
      refine Program.Outcome.bind hashAt_works fun h => Program.Outcome.assume ?_
      rintro rfl
      by_cases hempty : left.isEmpty = true
      · simp only [hempty, if_true]
        refine Program.Outcome.pure final fun s hs => ⟨hfinal, ?_⟩
        rw [OrderedHash.isEmpty_iff.1 hempty] at hs ⊢
        rwa [withStringKeys_empty, below_empty fun _ => not_mem_hashes_empty, Set.union_empty]
      · simp only [hempty, Bool.false_eq_true, if_false]
        refine Program.Outcome.bind (flattenRound_works hflatten hacc hS hfinal hleft hnested)
          fun final₁ => ?_
        apply Program.Outcome.assume
        intro hfinal₁
        apply Program.Outcome.assume_exists
        intro left₁ hflat
        refine (ih (hS.union (closed_below _)) hfinal₁ (fun e he => ?_)
          fun b hb => absurd hb (hflat.not_mem_hashes b)).conseq (fun _ hs => hs) ?_
        · obtain ⟨k, hk⟩ := OrderedHash.exists_mem_of_mem_transformKeys he
          exact isAccepted_of_ready (.inl (hflat (k, e.2) hk))
        · rintro final₂ t ⟨hfinal₂, ht⟩
          rw [below_empty hflat.not_mem_hashes, Set.union_empty] at ht
          exact ⟨hfinal₂, ht⟩

/-- The hash has been flattened when nothing is left in it. -/
theorem Works.finished {A : RHash} {s : BuildState} (hA : heap[hash]? = some A)
    (hfrozen : A.frozen = false)
    (h : Works heap hash (below heap A.entries.withStringKeys.hashes) ∅ s) :
    Consumed (reach (Visits heap) hash) heap s.hashes where
  length_le := h.length_le
  hash x X hX := by
    by_cases hx : x = hash
    · subst hx
      rw [hA] at hX
      cases hX
      rw [h.work, if_pos self_mem_reach]
      cases A
      cases hfrozen
      rfl
    · have hiff : x ∈ below heap A.entries.withStringKeys.hashes ↔ x ∈ reach (Visits heap) hash := by
        rw [mem_reach_iff (a := hash)]
        simp only [below, Set.mem_iUnion, hx, false_or, visits_iff hA, exists_prop]
      rw [h.others x X hx hX]
      by_cases hreach : x ∈ reach (Visits heap) hash
      · rw [if_pos (hiff.2 hreach), if_pos hreach]
      · rw [if_neg (mt hiff.1 hreach), if_neg hreach]

/-- **What flattening does**, by induction on the depth it may reach. -/
theorem cmakeFlattenHash_consumes (inspect : RHeap → RValue → String) (n : Nat) :
    Flattens (cmakeFlattenHash inspect n) := by
  induction n with
  | zero => exact fun _ _ _ => Program.Outcome.throw rfl
  | succ n ih =>
      refine Flattens.dupIfFrozen fun heap hash A hacc hA hfrozen => ?_
      obtain ⟨A', hA', hall⟩ := hacc.accepted hash self_mem_reach
      rw [hA] at hA'
      cases hA'
      refine Program.Outcome.conseq (P := Works heap hash ∅ A.entries)
        (flattenUntilEmpty_works ih hacc (n + 1) closed_empty
          (fun e he => absurd he OrderedHash.not_mem_empty) hall
          fun b hb => (visits_iff hA).2 hb) ?_ ?_
      · rintro s rfl
        refine ⟨le_rfl, ?_, fun x X _ hX => by rw [if_neg (Set.notMem_empty x), hX]⟩
        rw [hA]
        cases A
        cases hfrozen
        rfl
      · rintro final s ⟨hfinal, hs⟩
        rw [Set.empty_union] at hs
        exact ⟨hfinal, hs.finished hA hfrozen⟩

end Flattening

end RuBLE.CMake
