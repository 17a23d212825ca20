import Mathlib

/-!
# Hashes that keep the order of insertion

A dictionary whose entries stand in the order in which their keys came in, as
the hashes of Ruby do.  No key stands in it twice, which the type says.

* `aset`, `delete`, `select`, `mapValues`, `merge` — the operations, with what is
  an entry after each: `mem_aset`, `mem_delete`, `mem_select`, `mem_mapValues`,
  `mem_merge`.
* `transformKeys` — rename the keys in place, one after the other, while the
  rest are still there; `mem_transformKeys` says what is an entry afterwards, if no
  two keys get the same name.
* `get?_eq_some_iff` — what is found at a key.
-/

namespace Transition

/-- A dictionary, in the order of insertion. -/
structure OrderedHash (κ ν : Type) where
  entries : List (κ × ν)
  nodup : (entries.map (·.1)).Nodup

namespace OrderedHash

variable {κ ν ν' : Type} {h g : OrderedHash κ ν} {k k' : κ} {v v' : ν} {e : κ × ν}

instance : EmptyCollection (OrderedHash κ ν) := ⟨[], List.nodup_nil⟩

instance : Membership (κ × ν) (OrderedHash κ ν) := ⟨fun h e => e ∈ h.entries⟩

theorem mem_def : e ∈ h ↔ e ∈ h.entries := Iff.rfl

@[simp] theorem not_mem_empty : e ∉ (∅ : OrderedHash κ ν) := List.not_mem_nil

theorem ext (heq : h.entries = g.entries) : h = g := by
  cases h
  cases g
  cases heq
  rfl

/-- The keys, in order. -/
def keys (h : OrderedHash κ ν) : List κ := h.entries.map (·.1)

/-- There are no entries. -/
def isEmpty (h : OrderedHash κ ν) : Bool := h.entries.isEmpty

theorem isEmpty_iff : h.isEmpty = true ↔ h = ∅ := by
  rw [isEmpty, List.isEmpty_iff]
  exact ⟨fun heq => ext heq, fun heq => heq ▸ rfl⟩

theorem value_unique (hv : (k, v) ∈ h) (hv' : (k, v') ∈ h) : v = v' :=
  congrArg Prod.snd (List.inj_on_of_nodup_map h.nodup hv hv' rfl)

/-- The keys of the entries that a condition selects. -/
def keysWhere (h : OrderedHash κ ν) (p : ν → Bool) : List κ :=
  (h.entries.filter fun e => p e.2).map (·.1)

theorem mem_keysWhere {p : ν → Bool} : k ∈ h.keysWhere p ↔ ∃ v, (k, v) ∈ h ∧ p v = true := by
  simp [keysWhere, mem_def]

theorem nodup_keysWhere (p : ν → Bool) : (h.keysWhere p).Nodup :=
  h.nodup.sublist (List.filter_sublist.map _)

/-- The entries that a condition selects. -/
def select (p : κ × ν → Bool) (h : OrderedHash κ ν) : OrderedHash κ ν where
  entries := h.entries.filter p
  nodup := h.nodup.sublist (List.filter_sublist.map _)

@[simp] theorem mem_select {p : κ × ν → Bool} : e ∈ h.select p ↔ e ∈ h ∧ p e = true := by
  simp [select, mem_def]

theorem select_congr {p q : κ × ν → Bool} (hpq : ∀ e ∈ h, p e = q e) : h.select p = h.select q :=
  ext (List.filter_congr hpq)

theorem select_eq_self {p : κ × ν → Bool} (hp : ∀ e ∈ h, p e = true) : h.select p = h :=
  ext (List.filter_eq_self.2 hp)

/-- Change every value. -/
def mapValues (f : ν → ν') (h : OrderedHash κ ν) : OrderedHash κ ν' where
  entries := h.entries.map fun e => (e.1, f e.2)
  nodup := by
    rw [List.map_map]
    exact h.nodup

theorem mem_mapValues {f : ν → ν'} {w : ν'} :
    (k, w) ∈ h.mapValues f ↔ ∃ v, (k, v) ∈ h ∧ f v = w := by
  simp [mapValues, mem_def]

variable [DecidableEq κ]

/-- The value at a key. -/
def get? (h : OrderedHash κ ν) (k : κ) : Option ν :=
  (h.entries.find? fun e => e.1 = k).map (·.2)

theorem get?_eq_some_iff : h.get? k = some v ↔ (k, v) ∈ h := by
  rw [get?, Option.map_eq_some_iff]
  constructor
  · rintro ⟨⟨k', v'⟩, hfind, rfl⟩
    have hkey := List.find?_some hfind
    simp only [decide_eq_true_eq] at hkey
    exact hkey ▸ List.mem_of_find?_eq_some hfind
  · intro hv
    cases hfind : h.entries.find? fun e => e.1 = k with
    | none =>
        have := List.find?_eq_none.1 hfind (k, v) hv
        simp at this
    | some e =>
        have hkey := List.find?_some hfind
        simp only [decide_eq_true_eq] at hkey
        exact ⟨e, rfl, value_unique (hkey ▸ List.mem_of_find?_eq_some hfind) hv⟩

/-- The key is there. -/
def hasKey (h : OrderedHash κ ν) (k : κ) : Bool := decide (k ∈ h.keys)

theorem hasKey_iff : h.hasKey k = true ↔ ∃ v, (k, v) ∈ h := by
  rw [hasKey, decide_eq_true_eq, keys]
  simp [mem_def]

@[simp] theorem hasKey_empty : (∅ : OrderedHash κ ν).hasKey k = false := rfl

theorem hasKey_eq_false_iff : h.hasKey k = false ↔ ∀ v, (k, v) ∉ h := by
  rw [← Bool.not_eq_true, hasKey_iff, not_exists]

/-- Remove the entry of a key. -/
def delete (h : OrderedHash κ ν) (k : κ) : OrderedHash κ ν where
  entries := h.entries.filter fun e => e.1 ≠ k
  nodup := h.nodup.sublist (List.filter_sublist.map _)

@[simp] theorem mem_delete : e ∈ h.delete k ↔ e ∈ h ∧ e.1 ≠ k := by
  simp [delete, mem_def]

theorem select_delete {p : κ × ν → Bool} :
    (h.delete k).select p = h.select fun e => p e && decide (e.1 ≠ k) := by
  refine ext ?_
  simp only [delete, select, List.filter_filter]

/-- Set the value at a key: where the key stands, or at the end. -/
def aset (h : OrderedHash κ ν) (k : κ) (v : ν) : OrderedHash κ ν :=
  if hk : k ∈ h.keys then
    { entries := h.entries.map fun e => if e.1 = k then (k, v) else e
      nodup := by
        rw [List.map_map]
        refine (List.map_congr_left fun e _ => ?_) ▸ h.nodup
        by_cases he : e.1 = k <;> simp [he] }
  else
    { entries := h.entries ++ [(k, v)]
      nodup := by
        rw [List.map_append, List.nodup_append]
        refine ⟨h.nodup, List.nodup_singleton k, ?_⟩
        rintro a ha b hb rfl
        rw [List.map_singleton, List.mem_singleton] at hb
        subst hb
        exact hk ha }

theorem mem_aset : e ∈ h.aset k v ↔ e = (k, v) ∨ e ∈ h ∧ e.1 ≠ k := by
  unfold aset
  split
  · next hk =>
      simp only [mem_def, List.mem_map]
      constructor
      · rintro ⟨e', he', rfl⟩
        by_cases hk' : e'.1 = k
        · simp [hk']
        · simp [hk', he']
      · rintro (rfl | ⟨he, hne⟩)
        · obtain ⟨e', he', hkey⟩ := List.mem_map.1 hk
          exact ⟨e', he', by simp [hkey]⟩
        · exact ⟨e, he, by simp [hne]⟩
  · next hk =>
      simp only [mem_def, List.mem_append, List.mem_singleton]
      constructor
      · rintro (he | rfl)
        · exact .inr ⟨he, fun hkey => hk (hkey ▸ List.mem_map_of_mem he)⟩
        · exact .inl rfl
      · rintro (rfl | ⟨he, -⟩)
        · exact .inr rfl
        · exact .inl he

@[simp] theorem hasKey_aset : (h.aset k v).hasKey k' = (h.hasKey k' || decide (k' = k)) := by
  rw [Bool.eq_iff_iff, Bool.or_eq_true, decide_eq_true_eq, hasKey_iff, hasKey_iff]
  simp only [mem_aset, Prod.mk.injEq]
  constructor
  · rintro ⟨w, ⟨rfl, -⟩ | ⟨hw, -⟩⟩
    · exact .inr rfl
    · exact .inl ⟨w, hw⟩
  · rintro (⟨w, hw⟩ | rfl)
    · by_cases hkey : k' = k
      · exact ⟨v, .inl ⟨hkey, rfl⟩⟩
      · exact ⟨w, .inr ⟨hw, hkey⟩⟩
    · exact ⟨v, .inl ⟨rfl, rfl⟩⟩

/-- One key is renamed.  If it has come up as a new name by then, it stays. -/
def renameStep (f : κ → κ) (acc : OrderedHash κ ν × List κ) (e : κ × ν) :
    OrderedHash κ ν × List κ :=
  ((if e.1 ∈ acc.2 then acc.1 else acc.1.delete e.1).aset (f e.1) e.2, f e.1 :: acc.2)

/-- Rename the keys, in place. -/
def transformKeys (f : κ → κ) (h : OrderedHash κ ν) : OrderedHash κ ν :=
  (h.entries.foldl (renameStep f) (h, [])).1

/-- Some entries have been renamed and the rest have not: what is there by then. -/
theorem mem_of_mem_renameSteps {f : κ → κ} {todo : List (κ × ν)} {acc : OrderedHash κ ν × List κ}
    {done : List (κ × ν)} (hused : ∀ k, k ∈ acc.2 ↔ ∃ d ∈ done, f d.1 = k)
    (hacc : ∀ e ∈ acc.1, (∃ d ∈ done, (f d.1, d.2) = e) ∨ e ∈ todo ∧ e.1 ∉ acc.2)
    (he : e ∈ (todo.foldl (renameStep f) acc).1) : ∃ d ∈ done ++ todo, (f d.1, d.2) = e := by
  induction todo generalizing acc done with
  | nil =>
      rcases hacc e he with ⟨d, hd, rfl⟩ | ⟨h, -⟩
      · exact ⟨d, List.mem_append_left _ hd, rfl⟩
      · exact absurd h List.not_mem_nil
  | cons e' todo ih =>
      rw [List.append_cons]
      rw [List.foldl_cons] at he
      refine ih (fun k => ?_) (fun e he => ?_) he
      · simp only [renameStep, List.mem_cons, hused, List.mem_append, List.not_mem_nil, or_false,
          or_and_right, exists_or, exists_eq_left]
        rw [or_comm, eq_comm]
      · rcases mem_aset.1 he with rfl | ⟨he, hne⟩
        · exact .inl ⟨e', by simp, rfl⟩
        -- the key has not been deleted, or is the new name of another one
        · have hmem : e ∈ acc.1 ∧ (e.1 ∈ acc.2 ∨ e.1 ≠ e'.1) := by
            split at he
            · next hin =>
                refine ⟨he, ?_⟩
                by_cases hkey : e.1 = e'.1
                · exact .inl (hkey ▸ hin)
                · exact .inr hkey
            · obtain ⟨he, hkey⟩ := mem_delete.1 he
              exact ⟨he, .inr hkey⟩
          rcases hacc e hmem.1 with ⟨d, hd, rfl⟩ | ⟨htodo, hnew⟩
          · exact .inl ⟨d, by simp [hd], rfl⟩
          · have hkey : e.1 ≠ e'.1 := hmem.2.resolve_left hnew
            refine .inr ⟨(List.mem_cons.1 htodo).resolve_left (by rintro rfl; exact hkey rfl), ?_⟩
            simp [renameStep, hne, hnew]

/-- Every entry of the renamed hash was there, under a key that is renamed so. -/
theorem exists_of_mem_transformKeys {f : κ → κ} (he : (k', v) ∈ h.transformKeys f) :
    ∃ k, (k, v) ∈ h ∧ f k = k' := by
  have hdone : ∃ d ∈ [] ++ h.entries, (f d.1, d.2) = (k', v) := mem_of_mem_renameSteps (by simp)
    (fun e he => .inr ⟨mem_def.1 he, List.not_mem_nil⟩) he
  obtain ⟨d, hd, heq⟩ := hdone
  cases heq
  exact ⟨d.1, hd, rfl⟩

/-- Every value of the renamed hash was there. -/
theorem exists_mem_of_mem_transformKeys {f : κ → κ} (he : (k, v) ∈ h.transformKeys f) :
    ∃ k', (k', v) ∈ h := by
  obtain ⟨k', hk', -⟩ := exists_of_mem_transformKeys he
  exact ⟨k', hk'⟩

/-- Renaming more entries keeps those that are renamed otherwise. -/
theorem mem_renameSteps {f : κ → κ} {todo : List (κ × ν)} {acc : OrderedHash κ ν × List κ}
    (hused : k ∈ acc.2) (hne : ∀ d ∈ todo, f d.1 ≠ k) (hv : (k, v) ∈ acc.1) :
    (k, v) ∈ (todo.foldl (renameStep f) acc).1 := by
  induction todo generalizing acc with
  | nil => exact hv
  | cons e todo ih =>
      rw [List.forall_mem_cons] at hne
      rw [List.foldl_cons]
      refine ih (List.mem_cons_of_mem _ hused) hne.2 ?_
      refine mem_aset.2 (.inr ⟨?_, fun hkey => hne.1 hkey.symm⟩)
      split
      · exact hv
      · next hnew => exact mem_delete.2 ⟨hv, fun hkey => hnew (hkey ▸ hused)⟩

/-- **What is renamed**, if no two keys get the same name. -/
theorem mem_transformKeys {f : κ → κ} (hf : ∀ e ∈ h, ∀ d ∈ h, f e.1 = f d.1 → e.1 = d.1) :
    (k', v) ∈ h.transformKeys f ↔ ∃ k, (k, v) ∈ h ∧ f k = k' := by
  constructor
  · exact exists_of_mem_transformKeys
  · rintro ⟨k, hk, rfl⟩
    obtain ⟨before, after, hsplit⟩ := List.append_of_mem (mem_def.1 hk)
    have hafter : ∀ d ∈ after, f d.1 ≠ f k := by
      intro d hd hkey
      have hdh : d ∈ h := by simp [mem_def, hsplit, hd]
      have hnodup := h.nodup
      rw [hsplit, List.map_append, List.map_cons, List.nodup_append, List.nodup_cons] at hnodup
      exact hnodup.2.1.1 (List.mem_map.2 ⟨d, hd, hf d hdh (k, v) hk hkey⟩)
    rw [transformKeys, hsplit, List.foldl_append, List.foldl_cons]
    exact mem_renameSteps List.mem_cons_self hafter (mem_aset.2 (.inl rfl))

/-- An entry is taken over, if its key is not there. -/
def mergeStep (h : OrderedHash κ ν) (e : κ × ν) : OrderedHash κ ν :=
  if h.hasKey e.1 then h else h.aset e.1 e.2

/-- Take over the entries of another hash whose keys are not there. -/
def merge (h g : OrderedHash κ ν) : OrderedHash κ ν := g.entries.foldl mergeStep h

theorem mem_of_mem_mergeStep {e' : κ × ν} (he : e ∈ h.mergeStep e') : e ∈ h ∨ e = e' := by
  unfold mergeStep at he
  split at he
  · exact .inl he
  · rcases mem_aset.1 he with he | ⟨he, -⟩
    · exact .inr he
    · exact .inl he

theorem mem_mergeStep_of_mem {e' : κ × ν} (he : e ∈ h) : e ∈ h.mergeStep e' := by
  unfold mergeStep
  split
  · exact he
  · next hk => exact mem_aset.2 (.inr ⟨he, fun hkey => hk (hasKey_iff.2 ⟨e.2, hkey ▸ he⟩)⟩)

/-- What is an entry after a merge was an entry of one of the two. -/
theorem mem_of_mem_merge (he : e ∈ h.merge g) : e ∈ h ∨ e ∈ g := by
  have hall : ∀ e ∈ h.merge g, e ∈ h ∨ e ∈ g := by
    refine List.foldlRecOn (motive := fun acc => ∀ e ∈ acc, e ∈ h ∨ e ∈ g) g.entries mergeStep
      (fun e he => .inl he) ?_
    intro acc hacc e' he' e he
    rcases mem_of_mem_mergeStep he with he | rfl
    · exact hacc e he
    · exact .inr he'
  exact hall e he

/-- A merge loses no entry of the hash that it merges into. -/
theorem mem_merge_of_mem (he : e ∈ h) : e ∈ h.merge g :=
  List.foldlRecOn (motive := fun acc => e ∈ acc) g.entries mergeStep he
    fun _ hacc _ _ => mem_mergeStep_of_mem hacc

/-- Taking over a list of entries, none of whose keys comes twice. -/
theorem mem_mergeSteps {entries : List (κ × ν)} (hnodup : (entries.map (·.1)).Nodup)
    (he : e ∈ entries) (hkey : h.hasKey e.1 = false) : e ∈ entries.foldl mergeStep h := by
  induction entries generalizing h with
  | nil => exact absurd he List.not_mem_nil
  | cons e' entries ih =>
      rw [List.map_cons, List.nodup_cons] at hnodup
      rw [List.foldl_cons]
      rcases List.mem_cons.1 he with rfl | he
      · refine List.foldlRecOn (motive := fun acc => e ∈ acc) entries mergeStep ?_
          fun _ hacc _ _ => mem_mergeStep_of_mem hacc
        rw [mergeStep, hkey, if_neg (by simp)]
        exact mem_aset.2 (.inl rfl)
      · refine ih hnodup.2 he ?_
        have hne : e.1 ≠ e'.1 := by
          intro heq
          exact hnodup.1 (heq ▸ List.mem_map_of_mem he)
        rw [← Bool.not_eq_true, hasKey_iff] at hkey ⊢
        rintro ⟨w, hw⟩
        rcases mem_of_mem_mergeStep hw with hw | rfl
        · exact hkey ⟨w, hw⟩
        · exact hne rfl

/-- **What is an entry after a merge.** -/
theorem mem_merge : e ∈ h.merge g ↔ e ∈ h ∨ e ∈ g ∧ h.hasKey e.1 = false := by
  constructor
  · intro he
    by_cases hkey : h.hasKey e.1 = true
    · obtain ⟨v, hv⟩ := hasKey_iff.1 hkey
      obtain rfl : v = e.2 := value_unique (mem_merge_of_mem hv) he
      exact .inl hv
    · refine (mem_of_mem_merge he).imp_right fun hg => ⟨hg, by simpa using hkey⟩
  · rintro (he | ⟨he, hkey⟩)
    · exact mem_merge_of_mem he
    · exact mem_mergeSteps g.nodup he hkey

end OrderedHash

end Transition
