import Mathlib

/-!
# Sets of named flags

The model of `containers/NamedBitSet.hpp`, for any list of field names: a bit for
each field, which is found by its name.

* `NamedBitSet`, with `indexOf`, `set`, `flagNames`, `toS`, `ofNames`, `ofTesters`
  — the class.
* `NamedBitSet.has` — whether the flag of a name is set; `has_set` and
  `flagNames_eq_filter` say what the functions do in terms of it.
* `NamedBitSet.ofTesters_spec` — **a set built from testers**: each flag is what
  its tester says, whatever order the map is iterated in.
* `NamedBitSet.names_round_trip` — **names and sets**: the names of a set give the
  set back, and a list of names gives the fields that it names.
* `NamedBitSet.testers_any_order` — **testers in any order** give one set, or fail
  in every order.
-/

namespace RuBLE

/-! ## The functions -/

/-- `FlagCheck::Fn`. -/
inductive FlagCheck (α : Type) where
  /-- `ConstFlag`. -/
  | const (val : Bool)
  /-- `StaticFn`. -/
  | static (fn : Unit → Bool)
  /-- `ConstMemFn`. -/
  | member (fn : α → Bool)

/-- `FlagCheck::test_flag`. -/
def FlagCheck.testFlag {α : Type} (obj : α) : FlagCheck α → Bool
  | .const val => val
  | .static fn => fn ()
  | .member fn => fn obj

/-- `Utils::join`. -/
def join (sep : String) : List String → String
  | [] => ""
  | [name] => name
  | name :: names => names.foldl (fun a b => a ++ sep ++ b) name

/-- `NamedBitSet<FIELD_NAMES>`. -/
structure NamedBitSet (fields : List String) where
  bits : Vector Bool fields.length := Vector.replicate fields.length false
  deriving DecidableEq, Repr

namespace NamedBitSet

/-- `PAIRS`. -/
def pairs (fields : List String) : List (String × Nat) := fields.zipIdx

/-- The search of `index_of`. -/
def findIndex (name : String) : List (String × Nat) → Except String Nat
  | [] => .error ("Invalid field name " ++ name ++ " in call to index_of")
  | (field, idx) :: rest => if field = name then .ok idx else findIndex name rest

/-- `index_of`. -/
def indexOf (fields : List String) (name : String) : Except String Nat :=
  findIndex name (pairs fields)

variable {fields : List String}

/-- `(*this)[name] = value`. -/
def set (s : NamedBitSet fields) (name : String) (value : Bool) :
    Except String (NamedBitSet fields) := do
  let idx ← indexOf fields name
  return { bits := s.bits.setIfInBounds idx value }

/-- `flag_names`. -/
def flagNames (s : NamedBitSet fields) : List String :=
  (pairs fields).filterMap fun (name, idx) => if s.bits[idx]?.getD false then some name else none

/-- `to_s`. -/
def toS (s : NamedBitSet fields) : String := join "|" s.flagNames

/-- The constructor from a list of names. -/
def ofNames (names : List String) : Except String (NamedBitSet fields) :=
  names.foldlM (fun s name => s.set name true) {}

/-- The constructor from a map of testers, which is given in the order it is
iterated in. -/
def ofTesters {α : Type} (r : List (String × FlagCheck α)) (obj : α) :
    Except String (NamedBitSet fields) :=
  r.foldlM (fun s (name, fn) => s.set name (fn.testFlag obj)) {}

/-! ## Flags by name -/

/-- The flag of this name is set. -/
def has (s : NamedBitSet fields) (name : String) : Bool :=
  s.bits[fields.idxOf name]?.getD false

theorem findIndex_zipIdx (name : String) (names : List String) (k : Nat) :
    findIndex name (names.zipIdx k) =
      if name ∈ names then .ok (k + names.idxOf name)
      else .error ("Invalid field name " ++ name ++ " in call to index_of") := by
  induction names generalizing k with
  | nil => simp [findIndex]
  | cons field names ih =>
      rw [List.zipIdx_cons, findIndex, ih]
      by_cases h : field = name
      · simp [h]
      · have hne : name ≠ field := Ne.symm h
        by_cases hmem : name ∈ names
        · simp [h, hne, hmem]
          omega
        · simp [h, hne, hmem]

/-- What `index_of` finds. -/
theorem indexOf_eq (fields : List String) (name : String) :
    indexOf fields name = if name ∈ fields then .ok (fields.idxOf name)
      else .error ("Invalid field name " ++ name ++ " in call to index_of") := by
  rw [indexOf, pairs, findIndex_zipIdx, Nat.zero_add]

theorem set_of_mem {name : String} (h : name ∈ fields) (s : NamedBitSet fields) (value : Bool) :
    s.set name value = .ok { bits := s.bits.setIfInBounds (fields.idxOf name) value } := by
  rw [set, indexOf_eq, if_pos h]
  rfl

theorem set_of_not_mem {name : String} (h : name ∉ fields) (s : NamedBitSet fields) (value : Bool) :
    s.set name value = .error ("Invalid field name " ++ name ++ " in call to index_of") := by
  rw [set, indexOf_eq, if_neg h]
  rfl

/-- **Writing a flag** changes no other. -/
theorem has_set {name : String} (h : name ∈ fields) (s : NamedBitSet fields) (value : Bool)
    (f : String) :
    has { bits := s.bits.setIfInBounds (fields.idxOf name) value } f =
      if f = name then value else s.has f := by
  have hlt : fields.idxOf name < fields.length := List.idxOf_lt_length_of_mem h
  unfold has
  by_cases hf : f = name
  · subst hf
    simp [hlt]
  · have hne : fields.idxOf name ≠ fields.idxOf f := fun heq => hf ((List.idxOf_inj h).1 heq).symm
    simp [hf, Vector.getElem?_setIfInBounds_ne hne]

@[simp] theorem has_empty (f : String) : has ({} : NamedBitSet fields) f = false := by
  unfold has
  by_cases h : fields.idxOf f < fields.length <;> simp [h]

/-- With distinct names, the flags that are set, in the order of the fields. -/
theorem flagNames_eq_filter (hnodup : fields.Nodup) (s : NamedBitSet fields) :
    s.flagNames = fields.filter s.has := by
  have hpairs : pairs fields = fields.map fun f => (f, fields.idxOf f) := by
    apply List.ext_getElem
    · simp [pairs]
    · intro i hi _
      have hlt : i < fields.length := by simpa [pairs] using hi
      simp [pairs, hnodup.idxOf_getElem i hlt]
  rw [flagNames, hpairs, List.filterMap_map, ← List.filterMap_eq_filter]
  congr 1

/-- The flag of a field is the bit at its place. -/
theorem has_getElem (hnodup : fields.Nodup) (s : NamedBitSet fields) (i : Nat)
    (hi : i < fields.length) : s.has fields[i] = s.bits[i] := by
  simp [has, hnodup.idxOf_getElem i hi, hi]

/-- A set is known by its flags. -/
theorem ext_has (hnodup : fields.Nodup) {s s' : NamedBitSet fields}
    (h : ∀ f ∈ fields, s.has f = s'.has f) : s = s' := by
  have hbits : s.bits = s'.bits := by
    apply Vector.ext
    intro i hi
    rw [← has_getElem hnodup s i hi, ← has_getElem hnodup s' i hi]
    exact h _ (List.getElem_mem hi)
  cases s
  cases s'
  simp_all

/-- Writing flags one after the other fails at a name that is not a field. -/
theorem foldlM_set_error {β : Type} (key : β → String) (value : β → Bool) (l : List β)
    (s : NamedBitSet fields) (h : ∃ b ∈ l, key b ∉ fields) :
    ∃ e, l.foldlM (fun s b => s.set (key b) (value b)) s = .error e := by
  induction l generalizing s with
  | nil => simp at h
  | cons b l ih =>
      rw [List.foldlM_cons]
      by_cases hb : key b ∈ fields
      · rw [set_of_mem hb]
        simp only [List.exists_mem_cons_iff, hb, not_true_eq_false, false_or] at h
        exact ih _ h
      · rw [set_of_not_mem hb]
        exact ⟨_, rfl⟩

/-! ## Sets built from names -/

/-- `join` writes the separator between two elements and nowhere else. -/
theorem join_eq_intercalate (sep : String) (names : List String) :
    join sep names = sep.intercalate names := by
  have hfold : ∀ (names : List String) (acc : String),
      names.foldl (fun a b => a ++ sep ++ b) acc = sep.intercalate (acc :: names) := by
    intro names
    induction names with
    | nil => intro acc; rfl
    | cons name names ih =>
        intro acc
        rw [List.foldl_cons, ih]
        rfl
  cases names with
  | nil => rfl
  | cons name names =>
      cases names with
      | nil => rfl
      | cons name' names => exact hfold (name' :: names) name

/-- Setting the flags of a list of fields sets these flags and no others. -/
theorem foldlM_names (names : List String) (s : NamedBitSet fields)
    (hfields : ∀ name ∈ names, name ∈ fields) :
    ∃ s', names.foldlM (fun s name => s.set name true) s = .ok s' ∧
      ∀ f, s'.has f = (decide (f ∈ names) || s.has f) := by
  induction names generalizing s with
  | nil => exact ⟨s, rfl, by simp⟩
  | cons name names ih =>
      rw [List.forall_mem_cons] at hfields
      obtain ⟨s', hs', hhas⟩ := ih _ hfields.2
      refine ⟨s', ?_, ?_⟩
      · rw [List.foldlM_cons, set_of_mem hfields.1]
        exact hs'
      · intro f
        rw [hhas, has_set hfields.1]
        by_cases hf : f = name <;> simp [hf]

/-- The set built from a list of fields. -/
theorem ofNames_spec (names : List String) (hfields : ∀ name ∈ names, name ∈ fields) :
    ∃ s : NamedBitSet fields, ofNames names = .ok s ∧ ∀ f, s.has f = decide (f ∈ names) := by
  obtain ⟨s, hs, hhas⟩ := foldlM_names names ({} : NamedBitSet fields) hfields
  exact ⟨s, hs, fun f => by simp [hhas f]⟩

/-- **Names and sets.**  The names of the flags of a set give the set back.  A
list of fields, in any order and with repetitions, gives the set whose names are
the fields it names, in the order of the fields, and whose text is these names
with a bar between them; a list with another name gives no set. -/
theorem names_round_trip (hnodup : fields.Nodup) :
    (∀ s : NamedBitSet fields, ofNames s.flagNames = .ok s) ∧
      (∀ names : List String, (∀ name ∈ names, name ∈ fields) →
        ∃ s : NamedBitSet fields, ofNames names = .ok s ∧
          s.flagNames = fields.filter (fun f => decide (f ∈ names)) ∧
          s.toS = "|".intercalate (fields.filter fun f => decide (f ∈ names))) ∧
      ∀ names : List String, (∃ name ∈ names, name ∉ fields) →
        ∃ e, (ofNames names : Except String (NamedBitSet fields)) = .error e := by
  refine ⟨?_, ?_, ?_⟩
  · intro s
    have hmem : ∀ f, f ∈ s.flagNames ↔ f ∈ fields ∧ s.has f = true := by
      simp [flagNames_eq_filter hnodup]
    obtain ⟨s', hs', hhas⟩ := ofNames_spec s.flagNames fun f hf => ((hmem f).1 hf).1
    have heq : s' = s := by
      apply ext_has hnodup
      intro f hf
      rw [hhas f]
      simp [hmem f, hf]
    rw [hs', heq]
  · intro names hfields
    obtain ⟨s, hs, hhas⟩ := ofNames_spec names hfields
    have hnames : s.flagNames = fields.filter fun f => decide (f ∈ names) := by
      rw [flagNames_eq_filter hnodup]
      apply List.filter_congr
      intro f _
      exact hhas f
    refine ⟨s, hs, hnames, ?_⟩
    rw [toS, join_eq_intercalate, hnames]
  · intro names hother
    exact foldlM_set_error id (fun _ => true) names {} hother

theorem names_round_trip_fields :
    ∃ s : NamedBitSet ["read", "write", "notify"],
      ofNames ["notify", "read", "notify"] = .ok s ∧ s.flagNames = ["read", "notify"] ∧
        s.toS = "read|notify" := by
  have hfields : ["read", "write", "notify"].Nodup := by decide
  obtain ⟨s, hs, hnames, htext⟩ :=
    (names_round_trip hfields).2.1 ["notify", "read", "notify"] (by decide)
  exact ⟨s, hs, hnames.trans (by decide), htext.trans (by decide)⟩

/-! ## Sets built from testers -/

section Testers

variable {α : Type} (obj : α)

/-- Writing the flags of a map, one after the other. -/
theorem foldlM_testers (r : List (String × FlagCheck α)) (s : NamedBitSet fields)
    (hfields : ∀ p ∈ r, p.1 ∈ fields) (hkeys : (r.map (·.1)).Nodup) :
    ∃ s', r.foldlM (fun s (name, fn) => s.set name (fn.testFlag obj)) s = .ok s' ∧
      (∀ p ∈ r, s'.has p.1 = p.2.testFlag obj) ∧ ∀ f, f ∉ r.map (·.1) → s'.has f = s.has f := by
  induction r generalizing s with
  | nil => exact ⟨s, rfl, by simp, by simp⟩
  | cons p r ih =>
      obtain ⟨name, fn⟩ := p
      rw [List.forall_mem_cons] at hfields
      rw [List.map_cons, List.nodup_cons] at hkeys
      have hset := set_of_mem hfields.1 s (fn.testFlag obj)
      obtain ⟨s', hs', hmem, hother⟩ :=
        ih { bits := s.bits.setIfInBounds (fields.idxOf name) (fn.testFlag obj) } hfields.2 hkeys.2
      refine ⟨s', ?_, ?_, ?_⟩
      · rw [List.foldlM_cons]
        show (s.set name (fn.testFlag obj) >>= _) = _
        rw [hset]
        exact hs'
      · rw [List.forall_mem_cons]
        refine ⟨?_, hmem⟩
        -- no later key is the same, so the flag stays as it was written
        rw [hother name hkeys.1, has_set hfields.1, if_pos rfl]
      · intro f hf
        rw [List.map_cons, List.mem_cons, not_or] at hf
        rw [hother f hf.2, has_set hfields.1, if_neg hf.1]

/-- **A set built from testers.**  With distinct keys that are all fields, the
flag of each key is what its tester says, and the others are not set. -/
theorem ofTesters_spec (r : List (String × FlagCheck α)) (hfields : ∀ p ∈ r, p.1 ∈ fields)
    (hkeys : (r.map (·.1)).Nodup) :
    ∃ s : NamedBitSet fields, ofTesters r obj = .ok s ∧
      (∀ p ∈ r, s.has p.1 = p.2.testFlag obj) ∧ ∀ f, f ∉ r.map (·.1) → s.has f = false := by
  obtain ⟨s, hs, hmem, hother⟩ := foldlM_testers obj r {} hfields hkeys
  exact ⟨s, hs, hmem, fun f hf => by rw [hother f hf, has_empty]⟩

/-- The names of the flags that are set are those of the testers that say so. -/
theorem ofTesters_flagNames (hnodup : fields.Nodup) (r : List (String × FlagCheck α))
    (hfields : ∀ p ∈ r, p.1 ∈ fields) (hkeys : (r.map (·.1)).Nodup) :
    ∃ s : NamedBitSet fields, ofTesters r obj = .ok s ∧
      ∀ f, f ∈ s.flagNames ↔ ∃ p ∈ r, p.1 = f ∧ p.2.testFlag obj = true := by
  obtain ⟨s, hs, hmem, hother⟩ := ofTesters_spec obj r hfields hkeys
  refine ⟨s, hs, fun f => ?_⟩
  rw [flagNames_eq_filter hnodup, List.mem_filter]
  constructor
  · rintro ⟨-, hset⟩
    by_cases hf : f ∈ r.map (·.1)
    · obtain ⟨p, hp, rfl⟩ := List.mem_map.1 hf
      exact ⟨p, hp, rfl, (hmem p hp).symm.trans hset⟩
    · rw [hother f hf] at hset
      cases hset
  · rintro ⟨p, hp, rfl, htest⟩
    exact ⟨hfields p hp, (hmem p hp).trans htest⟩

/-- **Testers in any order.**  When all keys are fields, every order gives the same
set: the flag of a field is what its tester says, and not set without one.  When
some key is not a field, every order fails. -/
theorem testers_any_order (hnodup : fields.Nodup) (r : List (String × FlagCheck α))
    (hkeys : (r.map (·.1)).Nodup) :
    ((∀ p ∈ r, p.1 ∈ fields) → ∃ s : NamedBitSet fields,
        (∀ r' : List (String × FlagCheck α), r'.Perm r → ofTesters r' obj = .ok s) ∧
        ∀ (i : Nat) (hi : i < fields.length),
          s.bits[i] = (r.lookup fields[i]).elim false (fun fn => fn.testFlag obj)) ∧
      ((∃ p ∈ r, p.1 ∉ fields) → ∀ r' : List (String × FlagCheck α), r'.Perm r →
        ∃ e, (ofTesters r' obj : Except String (NamedBitSet fields)) = .error e) := by
  constructor
  · intro hfields
    obtain ⟨s, -, hmem, hother⟩ := ofTesters_spec obj r hfields hkeys
    refine ⟨s, ?_, ?_⟩
    · intro r' hperm
      have hkeys' : (r'.map (·.1)).Nodup := (hperm.map _).nodup_iff.2 hkeys
      obtain ⟨s', hs', hmem', hother'⟩ :=
        ofTesters_spec obj r' (fun p hp => hfields p (hperm.mem_iff.1 hp)) hkeys'
      -- both sets have the same flags, which the entries of the map decide
      have heq : s' = s := by
        apply ext_has hnodup
        intro f _
        by_cases hf : f ∈ r.map (·.1)
        · obtain ⟨p, hp, rfl⟩ := List.mem_map.1 hf
          rw [hmem' p (hperm.mem_iff.2 hp), hmem p hp]
        · have hf' : f ∉ r'.map (·.1) := fun h => hf ((hperm.map _).mem_iff.1 h)
          rw [hother' f hf', hother f hf]
      rw [hs', heq]
    · intro i hi
      rw [← has_getElem hnodup s i hi]
      cases hl : r.lookup fields[i] with
      | none =>
          have hf : fields[i] ∉ r.map (·.1) := by
            intro h
            obtain ⟨p, hp, hpi⟩ := List.mem_map.1 h
            rw [List.lookup_eq_none_iff] at hl
            simpa [hpi] using hl p hp
          exact hother _ hf
      | some fn =>
          obtain ⟨l₁, l₂, rfl, -⟩ := List.lookup_eq_some_iff.1 hl
          exact hmem (fields[i], fn) (by simp)
  · intro hother r' hperm
    obtain ⟨p, hp, hpf⟩ := hother
    exact foldlM_set_error Prod.fst (fun p => p.2.testFlag obj) r' {}
      ⟨p, hperm.mem_iff.2 hp, hpf⟩

end Testers

theorem testers_any_order_flags :
    ∃ s : NamedBitSet ["read", "write", "notify"],
      (∀ r' : List (String × FlagCheck Nat),
        r'.Perm [("notify", .member (· == 3)), ("read", .const true)] →
          ofTesters r' 3 = .ok s) ∧ s.bits[2] = true := by
  have hfields : ["read", "write", "notify"].Nodup := by decide
  have hkeys : ([("notify", .member (· == 3)), ("read", .const true)].map
      fun p : String × FlagCheck Nat => p.1).Nodup := by
    show ["notify", "read"].Nodup
    decide
  obtain ⟨s, hs, hbits⟩ := (testers_any_order 3 hfields _ hkeys).1 (by simp)
  refine ⟨s, hs, ?_⟩
  rw [hbits 2 (by decide)]
  rfl

end NamedBitSet

end RuBLE
