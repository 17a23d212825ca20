import Mathlib
import RuBLE.Build.CMakeFlattening

/-!
# The leaves of nested hashes

What flattening should return and what stands in its way, said of the hashes as they
are before it.

* `LeafAt` — a leaf, at the end of a path of keys; `joined` is the key it should get.
* `found` — the entries that flattening finds in a hash: the keys have become strings,
  and a hash that it has come to before is empty, unless it is frozen.
* `Visible` — a leaf that reaches the result, if no other takes its key.
* `Wins` — the leaf that takes a key: the one of the hash itself, or the first below it.
* `Jams` — there is a hash that flattening cannot empty.
-/

namespace RuBLE.CMake

open Transition Graph

/-! ## Paths -/

/-- The keys of a path, joined. -/
def joined (ks : List Key) : Key := .string (cmakeKeySeparator.intercalate (ks.map Key.toS))

/-- A value that is no hash, at the end of a path. -/
inductive LeafAt (heap : RHeap) : HashId → List Key → RValue → Prop
  | here {a : HashId} {A : RHash} {k : Key} {v : RValue} : heap[a]? = some A → (k, v) ∈ A.entries →
      v.isHash = false → LeafAt heap a [k] v
  | nested {a : HashId} {A : RHash} {k : Key} {b : HashId} {ks : List Key} {v : RValue} :
      heap[a]? = some A → (k, .hash b) ∈ A.entries → LeafAt heap b ks v → LeafAt heap a (k :: ks) v

/-- No two leaves have the same joined path. -/
def Distinct (heap : RHeap) (data : HashId) : Prop :=
  ∀ ks v ks' v', LeafAt heap data ks v → LeafAt heap data ks' v' → joined ks = joined ks' → ks = ks'

section Paths

variable {heap : RHeap} {a : HashId} {k k' : Key} {ks : List Key} {v v' : RValue}

theorem joined_singleton : joined [k] = .string k.toS := by
  simp [joined]

theorem joined_cons (h : ks ≠ []) : joined (k :: ks) = joinKeys k (joined ks) := by
  simp only [joined, joinKeys, List.map_cons, Key.toS]
  rw [String.intercalate_cons_of_ne_nil (by simpa using h)]

/-- Below a key there is no entry with that key. -/
theorem joinKeys_ne : joinKeys k k' ≠ k := by
  intro h
  have hlength := congrArg (fun k => k.toS.length) h
  simp only [joinKeys, Key.toS, String.length_append, cmakeKeySeparator] at hlength
  have : "_".length = 1 := rfl
  omega

theorem joinKeys_injective {text text' : String}
    (h : joinKeys k (.string text) = joinKeys k (.string text')) : text = text' := by
  simpa [joinKeys, Key.toS, String.append_right_inj] using h

theorem leafAt_iff {A : RHash} (hA : heap[a]? = some A) :
    LeafAt heap a ks v ↔ (∃ k, ks = [k] ∧ (k, v) ∈ A.entries ∧ v.isHash = false) ∨
      ∃ k b ks', ks = k :: ks' ∧ (k, .hash b) ∈ A.entries ∧ LeafAt heap b ks' v := by
  constructor
  · intro h
    cases h with
    | here hA' hk hv =>
        cases hA.symm.trans hA'
        exact .inl ⟨_, rfl, hk, hv⟩
    | nested hA' hk hbelow =>
        cases hA.symm.trans hA'
        exact .inr ⟨_, _, _, rfl, hk, hbelow⟩
  · rintro (⟨k, rfl, hk, hv⟩ | ⟨k, b, ks', rfl, hk, hbelow⟩)
    · exact .here hA hk hv
    · exact .nested hA hk hbelow

theorem LeafAt.ne_nil (h : LeafAt heap a ks v) : ks ≠ [] := by
  cases h <;> simp

theorem LeafAt.isHash_eq_false (h : LeafAt heap a ks v) : v.isHash = false := by
  induction h with
  | here _ _ hv => exact hv
  | nested _ _ _ ih => exact ih

/-- At the end of a path there is one leaf at most. -/
theorem LeafAt.unique (h : LeafAt heap a ks v) (h' : LeafAt heap a ks v') : v = v' := by
  induction h with
  | here hA hk _ =>
      cases h' with
      | here hA' hk' _ =>
          cases hA.symm.trans hA'
          exact OrderedHash.value_unique hk hk'
      | nested _ _ hbelow => exact absurd rfl hbelow.ne_nil
  | nested hA hk hbelow ih =>
      cases h' with
      | here _ _ _ => exact absurd rfl hbelow.ne_nil
      | nested hA' hk' hbelow' =>
          cases hA.symm.trans hA'
          cases OrderedHash.value_unique hk hk'
          exact ih hbelow'

end Paths

/-! ## What flattening finds -/

open Classical in
/-- The entries that flattening finds in a hash, when those in a set have been
flattened already. -/
noncomputable def found (heap : RHeap) (S : Set HashId) (a : HashId) : Entries :=
  match heap[a]? with
  | some A => (if a ∈ S then A.consumed else A).entries.withStringKeys
  | none => ∅

/-- The identity of a hash. -/
def RValue.hashId? : RValue → Option HashId
  | .hash b => some b
  | _ => none

/-- The hashes among the entries, in order, with their keys. -/
def Entries.nested (entries : Entries) : List (Key × HashId) :=
  entries.entries.filterMap fun e => e.2.hashId?.map fun b => (e.1, b)

/-- The hashes that have been flattened after those nested in one. -/
def flattened (heap : RHeap) (S : Set HashId) (kids : List (Key × HashId)) : Set HashId :=
  S ∪ below heap {b | b ∈ kids.map (·.2)}

/-- The path goes through one of these nested hashes, and is not the key of one that
is still to be flattened by then. -/
def Below (heap : RHeap) (P : Set HashId → HashId → Key → RValue → Prop) (S : Set HashId)
    (kids rest : List (Key × HashId)) (path : Key) (v : RValue) : Prop :=
  ∃ before k b after k', kids = before ++ (k, b) :: after ∧ path = joinKeys k k' ∧
    P (flattened heap S before) b k' v ∧ ∀ c, (path, c) ∉ after ++ rest

/-- Flattening a hash comes to the leaf, and no nested hash is in the way: the path is
nowhere the key of one that is still to be flattened. -/
inductive Visible (heap : RHeap) : Set HashId → HashId → Key → RValue → Prop
  | here {S : Set HashId} {a : HashId} {path : Key} {v : RValue} :
      (path, v) ∈ found heap S a → v.isHash = false → Visible heap S a path v
  | nested {S : Set HashId} {a : HashId} {path : Key} {v : RValue}
      {before : List (Key × HashId)} {k : Key} {b : HashId} {after : List (Key × HashId)} {k' : Key} :
      (found heap S a).nested = before ++ (k, b) :: after → path = joinKeys k k' →
      Visible heap (flattened heap S before) b k' v → (∀ c, (path, c) ∉ after) →
      Visible heap S a path v

/-- The leaf takes the path in what flattening a hash returns: a leaf of the hash goes
before all below it, and of these the first goes before the others. -/
inductive Wins (heap : RHeap) : Set HashId → HashId → Key → RValue → Prop
  | here {S : Set HashId} {a : HashId} {path : Key} {v : RValue} :
      (path, v) ∈ found heap S a → v.isHash = false → Wins heap S a path v
  | nested {S : Set HashId} {a : HashId} {path : Key} {v : RValue}
      {before : List (Key × HashId)} {k : Key} {b : HashId} {after : List (Key × HashId)} {k' : Key} :
      (found heap S a).nested = before ++ (k, b) :: after → path = joinKeys k k' →
      Wins heap (flattened heap S before) b k' v → (∀ c, (path, c) ∉ after) →
      (∀ w, ¬ Below heap (Visible heap) S before ((k, b) :: after) path w) →
      (∀ w, (path, w) ∈ found heap S a → w.isHash = true) → Wins heap S a path v

/-- The leaf is the first with its path below these nested hashes. -/
def First (heap : RHeap) (S : Set HashId) (kids rest : List (Key × HashId)) (path : Key) (v : RValue) :
    Prop :=
  ∃ before k b after k', kids = before ++ (k, b) :: after ∧ path = joinKeys k k' ∧
    Wins heap (flattened heap S before) b k' v ∧ (∀ c, (path, c) ∉ after ++ rest) ∧
    ∀ w, ¬ Below heap (Visible heap) S before ((k, b) :: after ++ rest) path w

/-- Some hash has an array at a key, and an array is also the first leaf below it with
that path. -/
inductive Jams (heap : RHeap) : Set HashId → HashId → Prop
  | here {S : Set HashId} {a : HashId} {path : Key} {v w : RValue} :
      (path, v) ∈ found heap S a → v.isArray = true →
      First heap S (found heap S a).nested [] path w → w.isArray = true → Jams heap S a
  | nested {S : Set HashId} {a : HashId} {before : List (Key × HashId)} {k : Key} {b : HashId}
      {after : List (Key × HashId)} :
      (found heap S a).nested = before ++ (k, b) :: after → Jams heap (flattened heap S before) b →
      Jams heap S a

section Nested

variable {entries : Entries} {k : Key} {b : HashId}

theorem RValue.hashId?_eq_some {v : RValue} : v.hashId? = some b ↔ v = .hash b := by
  cases v <;> simp [RValue.hashId?]

theorem RValue.isHash_eq {v : RValue} : v.isHash = v.hashId?.isSome := by
  cases v <;> rfl

theorem mem_nested : (k, b) ∈ entries.nested ↔ (k, .hash b) ∈ entries := by
  simp [Entries.nested, RValue.hashId?_eq_some, OrderedHash.mem_def]

theorem keysWhere_isHash : entries.keysWhere RValue.isHash = entries.nested.map (·.1) := by
  unfold OrderedHash.keysWhere Entries.nested
  induction entries.entries with
  | nil => rfl
  | cons e rest ih =>
      cases hv : e.2.hashId? with
      | none => simp [RValue.isHash_eq, hv, ← ih]
      | some b => simp [RValue.isHash_eq, hv, ← ih]

theorem nested_mapValues {f : RValue → RValue} (hf : ∀ v, (f v).hashId? = v.hashId?) :
    Entries.nested (entries.mapValues f) = entries.nested := by
  simp [Entries.nested, OrderedHash.mapValues, List.filterMap_map, hf]

theorem nested_select {p : Key × RValue → Bool}
    (hp : ∀ k b, (k, .hash b) ∈ entries → p (k, .hash b) = true) :
    Entries.nested (entries.select p) = entries.nested := by
  simp only [Entries.nested, OrderedHash.select, List.filterMap_filter]
  refine List.filterMap_congr ?_
  rintro ⟨k, v⟩ he
  cases hv : v.hashId? with
  | none => simp
  | some b =>
      cases RValue.hashId?_eq_some.1 hv
      simp [hp k b he]

theorem nodup_nested : (entries.nested.map (·.1)).Nodup :=
  keysWhere_isHash ▸ OrderedHash.nodup_keysWhere _

end Nested

section Found

variable {heap : RHeap} {S : Set HashId} {a b : HashId} {A : RHash} {k path : Key} {v w : RValue}
  {kids rest before after : List (Key × HashId)}

open Classical in
theorem found_eq (hA : heap[a]? = some A) :
    found heap S a = (if a ∈ S then A.consumed else A).entries.withStringKeys := by
  simp only [found, hA]

/-- Before anything has been flattened. -/
theorem found_empty (hA : heap[a]? = some A) : found heap ∅ a = A.entries.withStringKeys := by
  rw [found_eq hA, if_neg (Set.notMem_empty a)]

/-- What is found is there, under a key with this text. -/
theorem exists_of_mem_found (h : (k, v) ∈ found heap S a) :
    ∃ A, heap[a]? = some A ∧ (k, v) ∈ A.entries.withStringKeys ∧
      ∃ k₀, (k₀, v) ∈ A.entries ∧ k = .string k₀.toS := by
  cases hA : heap[a]? with
  | none =>
      simp only [found, hA] at h
      exact absurd h OrderedHash.not_mem_empty
  | some A =>
      rw [found_eq hA] at h
      have hmem : (k, v) ∈ A.entries.withStringKeys := by
        split at h
        · cases hfrozen : A.frozen with
          | true => rwa [RHash.consumed, hfrozen, if_pos rfl] at h
          | false =>
              simp only [RHash.consumed, hfrozen, Bool.false_eq_true, if_false,
                withStringKeys_empty] at h
              exact absurd h OrderedHash.not_mem_empty
        · exact h
      obtain ⟨k₀, hk₀, heq⟩ := OrderedHash.exists_of_mem_transformKeys hmem
      exact ⟨A, rfl, hmem, k₀, hk₀, heq.symm⟩

/-- Flattening comes from a hash to those that it finds in it. -/
theorem visits_of_nested (h : (found heap S a).nested = before ++ (k, b) :: after) :
    Visits heap a b := by
  have hmem : (k, b) ∈ (found heap S a).nested := by simp [h]
  obtain ⟨A, hA, hk, -⟩ := exists_of_mem_found (mem_nested.1 hmem)
  exact ⟨A, hA, k, hk⟩

@[simp] theorem flattened_nil : flattened heap S [] = S := by
  rw [flattened, below_empty (by simp), Set.union_empty]

theorem flattened_append :
    flattened heap S (kids ++ [(k, b)]) = flattened heap S kids ∪ reach (Visits heap) b := by
  have hset : {c | c ∈ (kids ++ [(k, b)]).map (·.2)} = insert b {c | c ∈ kids.map (·.2)} := by
    ext c
    simp [or_comm]
  rw [flattened, flattened, hset, below, below, Set.biUnion_insert, Set.union_assoc,
    Set.union_comm (reach (Visits heap) b)]

theorem closed_flattened (hS : Closed (Visits heap) S) : Closed (Visits heap) (flattened heap S kids) :=
  hS.union (closed_below _)

theorem visible_of_below (h : Below heap (Visible heap) S (found heap S a).nested [] path v) :
    Visible heap S a path v := by
  obtain ⟨before, k, b, after, k', hsplit, rfl, hbelow, hrest⟩ := h
  exact .nested hsplit rfl hbelow (by simpa using hrest)

theorem Visible.cases (h : Visible heap S a path v) :
    (path, v) ∈ found heap S a ∧ v.isHash = false ∨
      Below heap (Visible heap) S (found heap S a).nested [] path v := by
  cases h with
  | here hk hv => exact .inl ⟨hk, hv⟩
  | nested hsplit hpath hbelow hrest =>
      exact .inr ⟨_, _, _, _, _, hsplit, hpath, hbelow, by simpa using hrest⟩

theorem Wins.visible (h : Wins heap S a path v) : Visible heap S a path v := by
  induction h with
  | here hk hv => exact .here hk hv
  | nested hsplit hpath _ hrest _ _ ih => exact .nested hsplit hpath ih hrest

/-- Below no nested hash there is nothing. -/
theorem not_below_nil {P : Set HashId → HashId → Key → RValue → Prop} :
    ¬ Below heap P S [] rest path v := by
  rintro ⟨before, k, b, after, k', hsplit, -⟩
  exact absurd hsplit.symm (by simp)

theorem First.below (h : First heap S kids rest path v) :
    Below heap (Visible heap) S kids rest path v := by
  obtain ⟨before, k, b, after, k', hsplit, hpath, hwins, hrest, -⟩ := h
  exact ⟨before, k, b, after, k', hsplit, hpath, hwins.visible, hrest⟩

theorem Wins.cases (h : Wins heap S a path v) :
    (path, v) ∈ found heap S a ∧ v.isHash = false ∨
      First heap S (found heap S a).nested [] path v ∧
        ∀ w, (path, w) ∈ found heap S a → w.isHash = true := by
  cases h with
  | here hk hv => exact .inl ⟨hk, hv⟩
  | nested hsplit hpath hbelow hrest hfirst hnone =>
      exact .inr ⟨⟨_, _, _, _, _, hsplit, hpath, hbelow, by simpa using hrest, by simpa using hfirst⟩,
        hnone⟩

theorem First.wins (h : First heap S (found heap S a).nested [] path v)
    (hnone : ∀ w, (path, w) ∈ found heap S a → w.isHash = true) : Wins heap S a path v := by
  obtain ⟨before, k, b, after, k', hsplit, hpath, hwins, hrest, hfirst⟩ := h
  exact .nested hsplit hpath hwins (by simpa using hrest) (by simpa using hfirst) hnone

/-- What is visible is a leaf, and it is seen at its joined path. -/
theorem Visible.leafAt (h : Visible heap S a path v) :
    ∃ ks, LeafAt heap a ks v ∧ joined ks = path := by
  induction h with
  | here hk hv =>
      obtain ⟨A, hA, -, k₀, hk₀, rfl⟩ := exists_of_mem_found hk
      exact ⟨[k₀], .here hA hk₀ hv, joined_singleton⟩
  | @nested S a path v before k b after k' hsplit hpath _ _ ih =>
      have hmem : (k, b) ∈ (found heap S a).nested := by simp [hsplit]
      obtain ⟨A, hA, -, k₀, hk₀, rfl⟩ := exists_of_mem_found (mem_nested.1 hmem)
      obtain ⟨ks, hleaf, rfl⟩ := ih
      exact ⟨k₀ :: ks, .nested hA hk₀ hleaf, (joined_cons hleaf.ne_nil).trans hpath.symm⟩

/-- Where no hash is nested nothing is stuck. -/
theorem not_jams_of_nested (h : (found heap S a).nested = []) : ¬ Jams heap S a := by
  intro hjams
  cases hjams with
  | here _ _ hfirst _ => exact not_below_nil (h ▸ hfirst.below)
  | nested hsplit _ =>
      rw [h] at hsplit
      exact absurd hsplit.symm (by simp)

theorem First.isHash_eq_false (h : First heap S kids rest path v) : v.isHash = false := by
  obtain ⟨before, k, b, after, k', -, -, hwins, -⟩ := h
  obtain ⟨ks, hleaf, -⟩ := hwins.visible.leafAt
  exact hleaf.isHash_eq_false

/-- **Where flattening is stuck** two leaves have the same path. -/
theorem Jams.not_distinct (h : Jams heap S a) : ¬ Distinct heap a := by
  induction h with
  | @here S a path v w hk hv hfirst _ =>
      intro hdistinct
      obtain ⟨A, hA, -, k₀, hk₀, rfl⟩ := exists_of_mem_found hk
      obtain ⟨before, k, b, after, k', hsplit, hpath, hwins, -⟩ := hfirst
      have hmem : (k, b) ∈ (found heap S a).nested := by simp [hsplit]
      obtain ⟨A', hA', -, k₁, hk₁, rfl⟩ := exists_of_mem_found (mem_nested.1 hmem)
      obtain ⟨ks, hleaf, rfl⟩ := hwins.visible.leafAt
      have heq := hdistinct [k₀] v (k₁ :: ks) w (.here hA hk₀ (RValue.isHash_of_isArray hv))
        (.nested hA' hk₁ hleaf) (by rw [joined_singleton, hpath, joined_cons hleaf.ne_nil]; rfl)
      exact hleaf.ne_nil (List.cons.inj heq).2.symm
  | @nested S a before k b after hsplit _ ih =>
      intro hdistinct
      have hmem : (k, b) ∈ (found heap S a).nested := by simp [hsplit]
      obtain ⟨A, hA, -, k₀, hk₀, rfl⟩ := exists_of_mem_found (mem_nested.1 hmem)
      refine ih fun ks v ks' v' h h' heq => ?_
      have := hdistinct (k₀ :: ks) v (k₀ :: ks') v' (.nested hA hk₀ h) (.nested hA hk₀ h')
        (by rw [joined_cons h.ne_nil, joined_cons h'.ne_nil, heq])
      exact (List.cons.inj this).2

end Found

end RuBLE.CMake
