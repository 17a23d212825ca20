import Mathlib
import RuBLE.Build.CMakeLeaves

/-!
# The rounds of flattening

What is left in a hash, and what has been moved out of it, while its nested hashes are
replaced one after the other.

* `Result` — the entries that a hash is flattened to: the leaves that win their paths.
* `Folded` — the first round, when some of the nested hashes have been replaced;
  `Folded.step` says that one more can be.
* `Ended` — the end of the first round; `Ended.duplicate_iff` says when a duplicate is
  left in the hash, and `Ended.result` what is returned when none is.
-/

namespace RuBLE.CMake

open Transition Graph

/-! ## Results -/

/-- What becomes of a leaf: what is stringy becomes a string, and so do the elements of
an array, as they read by then. -/
def Normalised (inspect : RHeap → RValue → String) (v u : RValue) : Prop :=
  ∃ hashes, u = stringify inspect hashes v

/-- No array or hash is an element of the value; what an element of those reads depends on
what has been flattened by then. -/
def RValue.Plain (v : RValue) : Prop :=
  ∀ elements, v = .array elements → ∀ e ∈ elements, e.isArray = false ∧ e.isHash = false

/-- What a hash is flattened to. -/
structure Result (inspect : RHeap → RValue → String) (heap : RHeap) (S : Set HashId) (a : HashId)
    (r : Entries) : Prop where
  flat : r.Flat
  strings : ∀ e ∈ r, ∃ text, e.1 = .string text
  sound : ∀ path u, (path, u) ∈ r → ∃ v, Wins heap S a path v ∧ Normalised inspect v u
  wins : ∀ path v, Wins heap S a path v → ∃ u, (path, u) ∈ r ∧ Normalised inspect v u
  visible : ∀ path v, Visible heap S a path v → ∃ u, (path, u) ∈ r

/-- A leaf of the hash that is no array. -/
def Scalar (heap : RHeap) (S : Set HashId) (a : HashId) (path : Key) (v : RValue) : Prop :=
  (path, v) ∈ found heap S a ∧ v.isHash = false ∧ v.isArray = false

/-- The arrays of the hash have been moved away, and some of the nested hashes have been
replaced: these entries are left in it. -/
structure Folded (inspect : RHeap → RValue → String) (heap : RHeap) (S : Set HashId) (a : HashId)
    (kids rest : List (Key × HashId)) (left : Entries) : Prop where
  ready : left.Ready
  strings : ∀ e ∈ left, ∃ text, e.1 = .string text
  sound : ∀ path u, (path, u) ∈ left →
    (∃ v, Scalar heap S a path v ∧ Normalised inspect v u) ∨ (∃ c, (path, c) ∈ rest ∧ u = .hash c) ∨
      ∃ v, First heap S kids rest path v ∧ (∀ w, ¬ Scalar heap S a path w) ∧ Normalised inspect v u
  scalar : ∀ path v, Scalar heap S a path v → ∃ u, (path, u) ∈ left ∧ Normalised inspect v u
  kept : ∀ path c, (path, c) ∈ rest → (path, .hash c) ∈ left
  first : ∀ path v, First heap S kids rest path v → (∀ w, ¬ Scalar heap S a path w) →
    ∃ u, (path, u) ∈ left ∧ Normalised inspect v u
  visible : ∀ path v, Below heap (Visible heap) S kids rest path v → ∃ u, (path, u) ∈ left

section Values

variable {inspect : RHeap → RValue → String} {hashes : RHeap} {v u : RValue}

@[simp] theorem stringify_isHash : (stringify inspect hashes v).isHash = v.isHash := by
  cases v <;> rfl

@[simp] theorem stringify_isArray : (stringify inspect hashes v).isArray = v.isArray := by
  cases v <;> rfl

@[simp] theorem stringify_hashId? : (stringify inspect hashes v).hashId? = v.hashId? := by
  cases v <;> rfl

/-- A second time nothing changes. -/
theorem stringify_of_flat (h : v.Flat) : stringify inspect hashes v = v := by
  cases v with
  | array elements =>
      have hid : ∀ e ∈ elements, e.toS inspect hashes = e := by
        intro e he
        obtain ⟨text, rfl⟩ := h e he
        rfl
      simp [stringify, List.map_congr_left hid]
  | string text | numeric text | nil | bool b => rfl
  | symbol text | pathname text | hash id | other result => exact h.elim

/-- What becomes of a plain leaf does not depend on anything else. -/
theorem Normalised.eq_of_plain {w : RValue} (hu : Normalised inspect v u) (hw : Normalised inspect v w)
    (hv : v.Plain) : u = w := by
  obtain ⟨hashes, rfl⟩ := hu
  obtain ⟨hashes', rfl⟩ := hw
  cases v with
  | array elements =>
      simp only [stringify, RValue.array.injEq]
      refine List.map_congr_left fun e he => ?_
      obtain ⟨harray, hhash⟩ := hv elements rfl e he
      cases e with
      | array elements => cases harray
      | hash id => cases hhash
      | bool b => cases b <;> rfl
      | string text | symbol text | pathname text | numeric text | nil | other result => rfl
  | string text | symbol text | pathname text | numeric text | nil | bool b | hash id | other result => rfl

theorem Normalised.isHash_eq (h : Normalised inspect v u) : u.isHash = v.isHash := by
  obtain ⟨hashes, rfl⟩ := h
  exact stringify_isHash

theorem Normalised.isArray_eq (h : Normalised inspect v u) : u.isArray = v.isArray := by
  obtain ⟨hashes, rfl⟩ := h
  exact stringify_isArray

/-- What is flat is an array or completed. -/
theorem isCompleted_of_flat (h : u.Flat) : u.isCompleted = !u.isArray := by
  cases u with
  | array elements => rfl
  | string text | numeric text | nil => rfl
  | bool b => cases b <;> rfl
  | symbol text | pathname text | hash id | other result => exact h.elim

end Values

section Folding

variable {inspect : RHeap → RValue → String} {heap : RHeap} {S : Set HashId} {a b : HashId}
  {kids rest : List (Key × HashId)} {left r : Entries} {k path : Key} {v w u : RValue}
  {P : Set HashId → HashId → Key → RValue → Prop}

/-- Where a list with one more at its end can be cut. -/
theorem append_singleton_eq_iff {α : Type} {as before after : List α} {x y : α} :
    as ++ [x] = before ++ y :: after ↔
      (after = [] ∧ before = as ∧ y = x) ∨
        ∃ after', after = after' ++ [x] ∧ as = before ++ y :: after' := by
  constructor
  · intro h
    rcases List.eq_nil_or_concat after with rfl | ⟨after', z, rfl⟩
    · obtain ⟨hbefore, hlast⟩ := List.append_inj' h rfl
      exact .inl ⟨rfl, hbefore.symm, (List.cons.inj hlast).1.symm⟩
    · rw [List.concat_eq_append, ← List.cons_append, ← List.append_assoc] at h
      obtain ⟨has, hlast⟩ := List.append_inj' h rfl
      cases hlast
      exact .inr ⟨after', List.concat_eq_append, has⟩
  · rintro (⟨rfl, rfl, rfl⟩ | ⟨after', rfl, rfl⟩)
    · rfl
    · simp

theorem below_append_iff :
    Below heap P S (kids ++ [(k, b)]) rest path v ↔
      Below heap P S kids ((k, b) :: rest) path v ∨
        ∃ k', path = joinKeys k k' ∧ P (flattened heap S kids) b k' v ∧ ∀ c, (path, c) ∉ rest := by
  constructor
  · rintro ⟨before, k₁, b₁, after, k', hsplit, hpath, hbelow, hrest⟩
    rcases append_singleton_eq_iff.1 hsplit with ⟨rfl, rfl, heq⟩ | ⟨after', rfl, rfl⟩
    · cases heq
      exact .inr ⟨k', hpath, hbelow, by simpa using hrest⟩
    · exact .inl ⟨before, k₁, b₁, after', k', rfl, hpath, hbelow, by simpa using hrest⟩
  · rintro (⟨before, k₁, b₁, after, k', rfl, hpath, hbelow, hrest⟩ | ⟨k', hpath, hbelow, hrest⟩)
    · exact ⟨before, k₁, b₁, after ++ [(k, b)], k', by simp, hpath, hbelow, by simpa using hrest⟩
    · exact ⟨kids, k, b, [], k', rfl, hpath, hbelow, by simpa using hrest⟩

theorem first_append_iff :
    First heap S (kids ++ [(k, b)]) rest path v ↔
      First heap S kids ((k, b) :: rest) path v ∨
        ∃ k', path = joinKeys k k' ∧ Wins heap (flattened heap S kids) b k' v ∧
          (∀ c, (path, c) ∉ rest) ∧ ∀ w, ¬ Below heap (Visible heap) S kids ((k, b) :: rest) path w := by
  constructor
  · rintro ⟨before, k₁, b₁, after, k', hsplit, hpath, hwins, hrest, hfirst⟩
    rcases append_singleton_eq_iff.1 hsplit with ⟨rfl, rfl, heq⟩ | ⟨after', rfl, rfl⟩
    · cases heq
      exact .inr ⟨k', hpath, hwins, by simpa using hrest, by simpa using hfirst⟩
    · exact .inl ⟨before, k₁, b₁, after', k', rfl, hpath, hwins, by simpa using hrest,
        by simpa using hfirst⟩
  · rintro (⟨before, k₁, b₁, after, k', rfl, hpath, hwins, hrest, hfirst⟩ |
      ⟨k', hpath, hwins, hrest, hfirst⟩)
    · exact ⟨before, k₁, b₁, after ++ [(k, b)], k', by simp, hpath, hwins, by simpa using hrest,
        by simpa using hfirst⟩
    · exact ⟨kids, k, b, [], k', rfl, hpath, hwins, by simpa using hrest, by simpa using hfirst⟩

/-- What is left when a nested hash has been replaced. -/
theorem mem_replace (hr : ∀ e ∈ r, ∃ text, e.1 = .string text) :
    (path, u) ∈ left.replace k r ↔ (path, u) ∈ left ∧ path ≠ k ∨
      ∃ k', path = joinKeys k k' ∧ (k', u) ∈ r ∧ ∀ w, (path, w) ∉ left := by
  have hinj : ∀ e ∈ r, ∀ d ∈ r, joinKeys k e.1 = joinKeys k d.1 → e.1 = d.1 := by
    intro e he d hd heq
    obtain ⟨text, htext⟩ := hr e he
    obtain ⟨text', htext'⟩ := hr d hd
    rw [htext, htext'] at heq ⊢
    rw [joinKeys_injective heq]
  rw [Entries.replace, OrderedHash.mem_merge, OrderedHash.mem_delete, OrderedHash.mem_transformKeys hinj]
  refine or_congr_right ?_
  rw [← Bool.not_eq_true, OrderedHash.hasKey_iff]
  constructor
  · rintro ⟨⟨k', hk', rfl⟩, hnone⟩
    refine ⟨k', rfl, hk', fun w hw => hnone ⟨w, ?_⟩⟩
    exact OrderedHash.mem_delete.2 ⟨hw, joinKeys_ne⟩
  · rintro ⟨k', rfl, hk', hnone⟩
    exact ⟨⟨k', hk', rfl⟩, fun ⟨w, hw⟩ => hnone w (OrderedHash.mem_delete.1 hw).1⟩

/-- What has been left until now, other than the nested hash, is left. -/
theorem mem_replace_of_mem (hr : ∀ e ∈ r, ∃ text, e.1 = .string text) (hb : (k, .hash b) ∈ left)
    (hu : (path, u) ∈ left) (hhash : u.isHash = false) : (path, u) ∈ left.replace k r := by
  refine (mem_replace hr).2 (.inl ⟨hu, ?_⟩)
  rintro rfl
  cases OrderedHash.value_unique hu hb
  cases hhash

/-- **One more nested hash is replaced.** -/
theorem Folded.step (hfolded : Folded inspect heap S a kids ((k, b) :: rest) left)
    (hnodup : (((k, b) :: rest).map (·.1)).Nodup)
    (hr : Result inspect heap (flattened heap S kids) b r) :
    Folded inspect heap S a (kids ++ [(k, b)]) rest (left.replace k r) where
  ready := (Entries.replaced hr.flat).ready hfolded.ready
  strings := by
    rintro ⟨path, u⟩ he
    rcases (mem_replace hr.strings).1 he with ⟨he, -⟩ | ⟨k', rfl, -⟩
    · exact hfolded.strings _ he
    · exact ⟨_, rfl⟩
  sound path u hu := by
    rcases (mem_replace hr.strings).1 hu with ⟨hu, hne⟩ | ⟨k', hpath, hk', hnone⟩
    · rcases hfolded.sound path u hu with hscalar | ⟨c, hc, rfl⟩ | ⟨v, hfirst, hnone, hv⟩
      · exact .inl hscalar
      · refine .inr (.inl ⟨c, (List.mem_cons.1 hc).resolve_left ?_, rfl⟩)
        rintro heq
        exact hne (congrArg Prod.fst heq)
      · exact .inr (.inr ⟨v, first_append_iff.2 (.inl hfirst), hnone, hv⟩)
    -- the path is new, so nothing that has been left takes it
    · obtain ⟨v, hwins, hv⟩ := hr.sound k' u hk'
      refine .inr (.inr ⟨v, first_append_iff.2 (.inr ⟨k', hpath, hwins, fun c hc => ?_, fun w hw => ?_⟩),
        fun w hw => ?_, hv⟩)
      · exact hnone _ (hfolded.kept path c (List.mem_cons_of_mem _ hc))
      · obtain ⟨u', hu'⟩ := hfolded.visible path w hw
        exact hnone u' hu'
      · obtain ⟨u', hu', -⟩ := hfolded.scalar path w hw
        exact hnone u' hu'
  scalar path v hv := by
    obtain ⟨u, hu, hnormal⟩ := hfolded.scalar path v hv
    exact ⟨u, mem_replace_of_mem hr.strings (hfolded.kept k b List.mem_cons_self) hu
      (hnormal.isHash_eq.trans hv.2.1), hnormal⟩
  kept path c hc := by
    refine (mem_replace hr.strings).2 (.inl ⟨hfolded.kept path c (List.mem_cons_of_mem _ hc), ?_⟩)
    rintro rfl
    exact (List.nodup_cons.1 hnodup).1 (List.mem_map.2 ⟨_, hc, rfl⟩)
  first path v hfirst hnone := by
    rcases first_append_iff.1 hfirst with hfirst | ⟨k', hpath, hwins, hrest, hfirst⟩
    · obtain ⟨u, hu, hv⟩ := hfolded.first path v hfirst hnone
      exact ⟨u, mem_replace_of_mem hr.strings (hfolded.kept k b List.mem_cons_self) hu
        (hv.isHash_eq.trans hfirst.isHash_eq_false), hv⟩
    · obtain ⟨u, hu, hv⟩ := hr.wins k' v hwins
      refine ⟨u, (mem_replace hr.strings).2 (.inr ⟨k', hpath, hu, fun w hw => ?_⟩), hv⟩
      rcases hfolded.sound path w hw with ⟨v', hv', -⟩ | ⟨c, hc, -⟩ | ⟨v', hv', -, -⟩
      · exact hnone v' hv'
      · rcases List.mem_cons.1 hc with heq | hc
        · exact joinKeys_ne (hpath.symm.trans (congrArg Prod.fst heq))
        · exact hrest c hc
      · exact hfirst v' hv'.below
  visible path v hv := by
    rcases below_append_iff.1 hv with hv | ⟨k', hpath, hv, -⟩
    · obtain ⟨u, hu⟩ := hfolded.visible path v hv
      refine ⟨u, (mem_replace hr.strings).2 (.inl ⟨hu, ?_⟩)⟩
      rintro rfl
      obtain ⟨before, k₁, b₁, after, k', hsplit, hpath, hbelow, hrest⟩ := hv
      exact hrest b (by simp)
    · obtain ⟨u, hu⟩ := hr.visible k' v hv
      by_cases hnone : ∃ w, (path, w) ∈ left
      · obtain ⟨w, hw⟩ := hnone
        exact ⟨w, (mem_replace hr.strings).2 (.inl ⟨hw, hpath ▸ joinKeys_ne⟩)⟩
      · exact ⟨u, (mem_replace hr.strings).2 (.inr ⟨k', hpath, hu, not_exists.1 hnone⟩)⟩

/-- The start: the nested hashes are all still there. -/
theorem folded_nil {hashes : RHeap} {left₁ left₂ final₁ : Entries}
    (hleft : left₁ = (found heap S a).mapValues (stringify inspect hashes)) (hready : left₁.Ready)
    (hmoved : left₁.Moved RValue.isArray true ∅ left₂ final₁) :
    Folded inspect heap S a [] (found heap S a).nested left₂ := by
  have hmem : ∀ path u, (path, u) ∈ left₂ ↔
      ∃ v, (path, v) ∈ found heap S a ∧ stringify inspect hashes v = u ∧ v.isArray = false := by
    intro path u
    rw [hmoved.mem_left, hleft, OrderedHash.mem_mapValues]
    constructor
    · rintro ⟨⟨v, hv, rfl⟩, harray⟩
      exact ⟨v, hv, rfl, by simpa using harray⟩
    · rintro ⟨v, hv, rfl, harray⟩
      exact ⟨⟨v, hv, rfl⟩, .inl (by simpa using harray)⟩
  constructor
  · exact hmoved.ready hready
  · rintro ⟨path, u⟩ hu
    obtain ⟨v, hv, -⟩ := (hmem path u).1 hu
    obtain ⟨A, -, -, k₀, -, rfl⟩ := exists_of_mem_found hv
    exact ⟨_, rfl⟩
  · intro path u hu
    obtain ⟨v, hv, rfl, harray⟩ := (hmem path u).1 hu
    cases hhash : v.hashId? with
    | none =>
        exact .inl ⟨v, ⟨hv, by simp [RValue.isHash_eq, hhash], harray⟩, hashes, rfl⟩
    | some c =>
        cases RValue.hashId?_eq_some.1 hhash
        exact .inr (.inl ⟨c, mem_nested.2 hv, rfl⟩)
  · rintro path v ⟨hv, hhash, harray⟩
    exact ⟨_, (hmem _ _).2 ⟨v, hv, rfl, harray⟩, hashes, rfl⟩
  · intro path c hc
    exact (hmem _ _).2 ⟨.hash c, mem_nested.1 hc, rfl, rfl⟩
  · exact fun path v hfirst _ => absurd hfirst.below not_below_nil
  · exact fun path v hbelow => absurd hbelow not_below_nil

/-! ### The end of the first round -/

/-- All nested hashes have been replaced, and what is completed has been moved as well. -/
structure Ended (inspect : RHeap → RValue → String) (heap : RHeap) (S : Set HashId) (a : HashId)
    (hashes : RHeap) (final left final' left' : Entries) : Prop where
  folded : Folded inspect heap S a (found heap S a).nested [] left
  arrays : ∀ path u, (path, u) ∈ final ↔
    ∃ v, (path, v) ∈ found heap S a ∧ v.isArray = true ∧ stringify inspect hashes v = u
  flat : final.Flat
  moved : left.Moved RValue.isCompleted false final left' final'

section Ended

variable {hashes : RHeap} {left' final final' : Entries}
  (h : Ended inspect heap S a hashes final left final' left')

include h

theorem Ended.left_flat : left.Flat := by
  rintro ⟨path, u⟩ hu
  refine flat_of_ready (h.folded.ready _ hu) ?_
  rcases h.folded.sound path u hu with ⟨v, hv, hnormal⟩ | ⟨c, hc, -⟩ | ⟨v, hfirst, -, hnormal⟩
  · exact hnormal.isHash_eq.trans hv.2.1
  · exact absurd hc List.not_mem_nil
  · exact hnormal.isHash_eq.trans hfirst.isHash_eq_false

theorem Ended.mem_left' : (path, u) ∈ left' ↔ (path, u) ∈ left ∧ u.isArray = true := by
  rw [h.moved.mem_left]
  refine and_congr_right fun hu => ?_
  simp [isCompleted_of_flat (h.left_flat _ hu)]

theorem Ended.mem_final' : (path, u) ∈ final' ↔
    (path, u) ∈ final ∨ (path, u) ∈ left ∧ u.isArray = false ∧ ∀ w, (path, w) ∉ final := by
  rw [h.moved.mem_final, OrderedHash.hasKey_eq_false_iff]
  refine or_congr_right (and_congr_right fun hu => ?_)
  simp [isCompleted_of_flat (h.left_flat _ hu)]

/-- What has been left at some key is there afterwards, or the key has been taken. -/
theorem Ended.mem_final'_or_left' (hu : (path, u) ∈ left) :
    (∃ w, (path, w) ∈ final) ∨ (path, u) ∈ final' ∨ (path, u) ∈ left' := by
  cases harray : u.isArray with
  | true => exact .inr (.inr (h.mem_left'.2 ⟨hu, harray⟩))
  | false =>
      by_cases hkey : ∃ w, (path, w) ∈ final
      · exact .inl hkey
      · exact .inr (.inl (h.mem_final'.2 (.inr ⟨hu, harray, not_exists.1 hkey⟩)))

/-- What is returned and has not been moved first has been left, and takes no key of
an array. -/
theorem Ended.mem_of_not_mem (hnone : ∀ path u u', (path, u) ∈ left' → (path, u') ∉ final')
    (hu : (path, u) ∈ final' ∨ (path, u) ∈ left') (hnew : (path, u) ∉ final) :
    (path, u) ∈ left ∧ ∀ w, (path, w) ∉ final := by
  rcases hu with hu | hu
  · obtain ⟨hu, -, hnone⟩ := (h.mem_final'.1 hu).resolve_left hnew
    exact ⟨hu, hnone⟩
  · exact ⟨(h.mem_left'.1 hu).1, fun w hw => hnone path u w hu (h.mem_final'.2 (.inl hw))⟩

/-- **Where the first round leaves a duplicate**, the hash is stuck. -/
theorem Ended.duplicate_iff :
    (∃ path u u', (path, u) ∈ left' ∧ (path, u') ∈ final') ↔
      ∃ path v w, (path, v) ∈ found heap S a ∧ v.isArray = true ∧
        First heap S (found heap S a).nested [] path w ∧ w.isArray = true := by
  constructor
  · rintro ⟨path, u, u', hu, hu'⟩
    obtain ⟨hu, harray⟩ := h.mem_left'.1 hu
    rcases h.mem_final'.1 hu' with hfinal | ⟨hleft, harray', -⟩
    · obtain ⟨v, hv, hv', rfl⟩ := (h.arrays path u').1 hfinal
      rcases h.folded.sound path u hu with ⟨w, hw, hnormal⟩ | ⟨c, hc, -⟩ | ⟨w, hfirst, -, hnormal⟩
      · rw [hnormal.isArray_eq, hw.2.2] at harray
        cases harray
      · exact absurd hc List.not_mem_nil
      · exact ⟨path, v, w, hv, hv', hfirst, hnormal.isArray_eq ▸ harray⟩
    · cases OrderedHash.value_unique hu hleft
      rw [harray] at harray'
      cases harray'
  · rintro ⟨path, v, w, hv, hv', hfirst, hw⟩
    obtain ⟨u, hu, hnormal⟩ := h.folded.first path w hfirst fun w' hw' => by
      rw [OrderedHash.value_unique hw'.1 hv] at hw'
      rw [hw'.2.2] at hv'
      cases hv'
    refine ⟨path, u, stringify inspect hashes v, ?_, ?_⟩
    · exact h.mem_left'.2 ⟨hu, hnormal.isArray_eq.trans hw⟩
    · exact h.mem_final'.2 (.inl ((h.arrays _ _).2 ⟨v, hv, hv', rfl⟩))

/-- An array has been moved before anything else, and another leaf of the hash when the
arrays had been moved. -/
theorem Ended.exists_of_found (hv : (path, v) ∈ found heap S a) (hhash : v.isHash = false) :
    ∃ u, ((path, u) ∈ final' ∨ (path, u) ∈ left') ∧ Normalised inspect v u := by
  cases harray : v.isArray with
  | true =>
      refine ⟨stringify inspect hashes v, .inl ?_, hashes, rfl⟩
      exact h.mem_final'.2 (.inl ((h.arrays _ _).2 ⟨v, hv, harray, rfl⟩))
  | false =>
      obtain ⟨u, hu, hnormal⟩ := h.folded.scalar path v ⟨hv, hhash, harray⟩
      refine ⟨u, (h.mem_final'_or_left' hu).resolve_left ?_, hnormal⟩
      rintro ⟨w, hw⟩
      obtain ⟨v', hv', harray', -⟩ := (h.arrays path w).1 hw
      rw [OrderedHash.value_unique hv' hv, harray] at harray'
      cases harray'

/-- The first leaf below is there, if the hash has none with its path. -/
theorem Ended.exists_of_first (hfirst : First heap S (found heap S a).nested [] path v)
    (hnone : ∀ w, (path, w) ∈ found heap S a → w.isHash = true) :
    ∃ u, ((path, u) ∈ final' ∨ (path, u) ∈ left') ∧ Normalised inspect v u := by
  obtain ⟨u, hu, hnormal⟩ := h.folded.first path v hfirst fun w hw => by
    have hhash := hnone w hw.1
    rw [hw.2.1] at hhash
    cases hhash
  refine ⟨u, (h.mem_final'_or_left' hu).resolve_left ?_, hnormal⟩
  rintro ⟨w, hw⟩
  obtain ⟨v', hv', harray, -⟩ := (h.arrays path w).1 hw
  have hhash := hnone v' hv'
  rw [RValue.isHash_of_isArray harray] at hhash
  cases hhash

/-- What is returned is a leaf that wins its path. -/
theorem Ended.exists_wins (hnone : ∀ path u u', (path, u) ∈ left' → (path, u') ∉ final')
    (hu : (path, u) ∈ final' ∨ (path, u) ∈ left') :
    ∃ v, Wins heap S a path v ∧ Normalised inspect v u := by
  by_cases hfinal : (path, u) ∈ final
  · obtain ⟨v, hv, harray, rfl⟩ := (h.arrays path u).1 hfinal
    exact ⟨v, .here hv (RValue.isHash_of_isArray harray), hashes, rfl⟩
  · obtain ⟨hu, hnew⟩ := h.mem_of_not_mem hnone hu hfinal
    rcases h.folded.sound path u hu with ⟨v, hv, hnormal⟩ | ⟨c, hc, -⟩ | ⟨v, hfirst, hscalar, hnormal⟩
    · exact ⟨v, .here hv.1 hv.2.1, hnormal⟩
    · exact absurd hc List.not_mem_nil
    · refine ⟨v, hfirst.wins fun w hw => ?_, hnormal⟩
      by_contra hhash
      rw [Bool.not_eq_true] at hhash
      cases harray : w.isArray with
      | true => exact hnew _ ((h.arrays _ _).2 ⟨w, hw, harray, rfl⟩)
      | false => exact hscalar w ⟨hw, hhash, harray⟩

/-- **What is returned** when there is no duplicate left. -/
theorem Ended.result (hnone : ∀ path u u', (path, u) ∈ left' → (path, u') ∉ final')
    (hmem : ∀ e, e ∈ r ↔ e ∈ final' ∨ e ∈ left') : Result inspect heap S a r where
  flat := by
    rintro ⟨path, u⟩ hu
    by_cases hfinal : (path, u) ∈ final
    · exact h.flat _ hfinal
    · exact h.left_flat _ (h.mem_of_not_mem hnone ((hmem _).1 hu) hfinal).1
  strings := by
    rintro ⟨path, u⟩ hu
    by_cases hfinal : (path, u) ∈ final
    · obtain ⟨v, hv, -⟩ := (h.arrays path u).1 hfinal
      obtain ⟨A, -, -, k₀, -, rfl⟩ := exists_of_mem_found hv
      exact ⟨_, rfl⟩
    · exact h.folded.strings _ (h.mem_of_not_mem hnone ((hmem _).1 hu) hfinal).1
  sound path u hu := h.exists_wins hnone ((hmem _).1 hu)
  wins path v hwins := by
    simp only [hmem]
    rcases hwins.cases with ⟨hv, hhash⟩ | ⟨hfirst, hleaf⟩
    · exact h.exists_of_found hv hhash
    · exact h.exists_of_first hfirst hleaf
  visible path v hvisible := by
    simp only [hmem]
    rcases hvisible.cases with ⟨hv, hhash⟩ | hbelow
    · obtain ⟨u, hu, -⟩ := h.exists_of_found hv hhash
      exact ⟨u, hu⟩
    · obtain ⟨u, hu⟩ := h.folded.visible path v hbelow
      rcases h.mem_final'_or_left' hu with ⟨w, hw⟩ | hu
      · exact ⟨w, .inl (h.mem_final'.2 (.inl hw))⟩
      · exact ⟨u, hu⟩

end Ended

end Folding

end RuBLE.CMake
