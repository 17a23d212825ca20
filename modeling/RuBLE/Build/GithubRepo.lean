import Mathlib
import RuBLE.Build.CMakeLeaves

/-!
# What is kept of the data of a release

`filter_github_metadata` removes entries from a hash and from the hashes nested in it,
in place.

* `isMetadata` — the pattern that a key is searched for.
* `filterGithubMetadata` — the method, with a bound on the depth of the recursion.
* `Keeps` — the hashes it comes to; `Filtered` — what it does to the hashes there are.
* `filterGithubMetadata_filters` — **a run**, by induction on its depth.
* `filtered_leaves_iff` — **what is left**: of a hash without cycles it returns unless
  it comes to a frozen hash, and whenever it returns exactly the leaves are left that are
  not empty and have no such key on their path.
-/

namespace RuBLE.CMake

open Transition Graph

/-! ## The pattern -/

/-- `mentions|reactions|node_id|body|gravatar`. -/
def metadataWords : List (List Char) :=
  [['m', 'e', 'n', 't', 'i', 'o', 'n', 's'], ['r', 'e', 'a', 'c', 't', 'i', 'o', 'n', 's'],
    ['n', 'o', 'd', 'e', '_', 'i', 'd'], ['b', 'o', 'd', 'y'],
    ['g', 'r', 'a', 'v', 'a', 't', 'a', 'r']]

/-- One of the words begins here, and ends where `(\z|_)` matches. -/
def wordHere (cs : List Char) : Bool :=
  metadataWords.any fun w => w.isPrefixOf cs && (cs.drop w.length).head?.all (· == '_')

/-- A search for `(\A|_)`, one of the words and `(\z|_)`, from a place on that is the
beginning, or comes after an underscore, or not. -/
def searchWord (bounded : Bool) : List Char → Bool
  | [] => false
  | c :: cs => (bounded && wordHere (c :: cs)) || searchWord (c == '_') cs

/-- `match?(/(\A|_)(mentions|reactions|node_id|body|gravatar)(\z|_)/)`. -/
def isMetadata (key : String) : Bool := searchWord true key.toList

/-- The text has one of the words in it, between its ends or underscores. -/
def HasWord (bounded : Bool) (text : List Char) : Prop :=
  ∃ front w back, text = front ++ w ++ back ∧ w ∈ metadataWords ∧
    (front = [] ∧ bounded = true ∨ front.getLast? = some '_') ∧
    (back = [] ∨ back.head? = some '_')

theorem wordHere_iff {cs : List Char} :
    wordHere cs = true ↔ ∃ w back, cs = w ++ back ∧ w ∈ metadataWords ∧
      (back = [] ∨ back.head? = some '_') := by
  have hend : ∀ back : List Char, back.head?.all (· == '_') = true ↔
      back = [] ∨ back.head? = some '_' := by
    intro back
    cases back <;> simp
  simp only [wordHere, List.any_eq_true, Bool.and_eq_true, List.isPrefixOf_iff_prefix]
  constructor
  · rintro ⟨w, hw, ⟨back, rfl⟩, hback⟩
    rw [List.drop_left] at hback
    exact ⟨w, back, rfl, hw, (hend back).1 hback⟩
  · rintro ⟨w, back, rfl, hw, hback⟩
    refine ⟨w, hw, List.prefix_append w back, ?_⟩
    rw [List.drop_left]
    exact (hend back).2 hback

theorem metadataWords_ne_nil : ∀ w ∈ metadataWords, w ≠ [] := by decide

/-- **The search** finds the words where they stand. -/
theorem searchWord_iff (bounded : Bool) (text : List Char) :
    searchWord bounded text = true ↔ HasWord bounded text := by
  induction text generalizing bounded with
  | nil =>
      refine iff_of_false (by simp [searchWord]) ?_
      rintro ⟨front, w, back, htext, hw, -⟩
      have hnil : w = [] := by
        have := congrArg List.length htext
        simp only [List.length_nil, List.length_append] at this
        exact List.eq_nil_of_length_eq_zero (by omega)
      exact metadataWords_ne_nil w hw hnil
  | cons c cs ih =>
      rw [searchWord, Bool.or_eq_true, Bool.and_eq_true, wordHere_iff, ih]
      constructor
      · rintro (⟨hbounded, w, back, htext, hw, hback⟩ | ⟨front, w, back, rfl, hw, hfront, hback⟩)
        · exact ⟨[], w, back, htext, hw, .inl ⟨rfl, hbounded⟩, hback⟩
        · refine ⟨c :: front, w, back, rfl, hw, .inr ?_, hback⟩
          rcases hfront with ⟨rfl, hc⟩ | hfront
          · rw [beq_iff_eq] at hc
            rw [hc]
            rfl
          · rw [List.getLast?_cons, hfront]
            rfl
      · rintro ⟨front, w, back, htext, hw, hfront, hback⟩
        cases front with
        | nil =>
            obtain ⟨-, hbounded⟩ := hfront.resolve_right (by simp)
            exact .inl ⟨hbounded, w, back, htext, hw, hback⟩
        | cons c' front =>
            obtain ⟨rfl, rfl⟩ := List.cons.inj htext
            have hlast := hfront.resolve_left (by simp)
            refine .inr ⟨front, w, back, rfl, hw, ?_, hback⟩
            cases front with
            | nil =>
                rw [List.getLast?_singleton, Option.some_inj] at hlast
                exact .inl ⟨rfl, by simp [hlast]⟩
            | cons c' front =>
                rw [List.getLast?_cons_cons] at hlast
                exact .inr hlast

/-! ## Filtering -/

/-- `v == ''`. -/
def RValue.isBlank : RValue → Bool
  | string text => text.isEmpty
  | _ => false

/-- The block of `reject!`. -/
def rejects (e : Key × RValue) : Bool := e.2.isBlank || isMetadata e.1.toS

/-- The entries that `reject!` leaves. -/
def RHash.filtered (h : RHash) : RHash := { h with entries := h.entries.select fun e => !rejects e }

/-- The block of `transform_values!`, and the entry that gets its value. -/
def filterEntry (filter : HashId → Build HashId) (data : HashId) (e : Key × RValue) : Build Unit := do
  match e.2 with
  | .hash id => do
      let id' ← filter id
      mutate data (·.aset e.1 (.hash id'))
  | value => mutate data (·.aset e.1 value)

/-- `filter_github_metadata`. -/
def filterGithubMetadata : Nat → HashId → Build HashId
  | 0, _ => Program.throw .outOfFuel
  | n + 1, data => do
      mutate data (·.select fun e => !rejects e)
      let h ← hashAt data
      h.entries.entries.forM (filterEntry (filterGithubMetadata n) data)
      return data

/-- The nested hashes that are not removed with their entries. -/
def Keeps (heap : RHeap) (a b : HashId) : Prop :=
  ∃ A, heap[a]? = some A ∧ b ∈ A.filtered.entries.hashes

open Classical in
/-- The hashes of a set have been filtered. -/
structure Filtered (S : Set HashId) (before after : RHeap) : Prop where
  length_eq : after.length = before.length
  hash : ∀ a A, before[a]? = some A → after[a]? = some (if a ∈ S then A.filtered else A)

/-- A leaf that stays: it is not empty, and no key on its path has one of the words. -/
def Kept (ks : List Key) (v : RValue) : Prop :=
  v ≠ .string "" ∧ ∀ k ∈ ks, ¬ HasWord true k.toS.toList

section Filtering

variable {heap hashes : RHeap} {S T : Set HashId} {a b data : HashId} {A : RHash} {n : Nat}
  {e : Key × RValue}

@[simp] theorem filtered_frozen : A.filtered.frozen = A.frozen := rfl

theorem mem_filtered : e ∈ A.filtered.entries ↔ e ∈ A.entries ∧ rejects e = false := by
  simp [RHash.filtered]

@[simp] theorem filtered_filtered : A.filtered.filtered = A.filtered := by
  have hselect : A.filtered.entries.select (fun e => !rejects e) = A.filtered.entries :=
    OrderedHash.select_eq_self fun e he => by simp [(mem_filtered.1 he).2]
  rw [RHash.filtered, hselect]

theorem keeps_iff (hA : heap[a]? = some A) : Keeps heap a b ↔ b ∈ A.filtered.entries.hashes := by
  constructor
  · rintro ⟨A', hA', hb⟩
    cases hA.symm.trans hA'
    exact hb
  · exact fun hb => ⟨A, hA, hb⟩

theorem filtered_refl (heap : RHeap) : Filtered ∅ heap heap where
  length_eq := rfl
  hash a A hA := by rw [hA, if_neg (Set.notMem_empty a)]

/-- Setting a key to the value it has changes nothing. -/
theorem aset_eq_self {entries : Entries} {k : Key} {v : RValue} (h : (k, v) ∈ entries) :
    entries.aset k v = entries := by
  have hk : k ∈ entries.keys := List.mem_map.2 ⟨(k, v), h, rfl⟩
  refine OrderedHash.ext ?_
  rw [OrderedHash.aset, dif_pos hk]
  refine (List.map_congr_left fun e he => ?_).trans (List.map_id _)
  by_cases hkey : e.1 = k
  · rw [if_pos hkey]
    exact Prod.ext hkey.symm (OrderedHash.value_unique h (hkey ▸ he))
  · rw [if_neg hkey]
    rfl

/-- One more hash has been filtered, perhaps for the second time. -/
theorem Filtered.set (h : Filtered S heap hashes) (hA : heap[a]? = some A) :
    Filtered (S ∪ {a}) heap (hashes.set a A.filtered) where
  length_eq := by rw [List.length_set, h.length_eq]
  hash b B hB := by
    by_cases hab : a = b
    · subst hab
      cases hA.symm.trans hB
      have hlt : a < hashes.length := by
        rw [h.length_eq]
        exact (List.getElem?_eq_some_iff.1 hA).1
      rw [List.getElem?_set_self hlt, if_pos (.inr rfl)]
    · rw [List.getElem?_set_ne hab, h.hash b B hB]
      by_cases hb : b ∈ S
      · rw [if_pos hb, if_pos (.inl hb)]
      · rw [if_neg hb, if_neg (by simp [hb, Ne.symm hab])]

/-! ### One hash -/

/-- The hashes of a set are there and not frozen. -/
def Fine (heap : RHeap) (T : Set HashId) : Prop := ∀ a ∈ T, ∃ A, heap[a]? = some A ∧ A.frozen = false

/-- Why filtering may stop, and with what. -/
def Stops (heap : RHeap) (n : Nat) (data : HashId) (e : BuildError) : Prop :=
  (e = .outOfFuel ∧ ¬ HeightLt (Keeps heap) n data) ∨ ¬ Fine heap (reach (Keeps heap) data)

/-- What filtering does, by whatever it is done. -/
def Filters (heap : RHeap) (n : Nat) (filter : HashId → Build HashId) : Prop :=
  ∀ S b, Program.Outcome (fun s => Filtered S heap s.hashes) (filter b)
    (fun r s => r = b ∧ Fine heap (reach (Keeps heap) b) ∧
      Filtered (S ∪ reach (Keeps heap) b) heap s.hashes) (Stops heap n b)

/-- What can be reached through the values of some entries. -/
def onward (heap : RHeap) (entries : List (Key × RValue)) : Set HashId :=
  {x | ∃ k b, (k, .hash b) ∈ entries ∧ x ∈ reach (Keeps heap) b}

@[simp] theorem onward_nil : onward heap [] = ∅ := by
  simp [onward]

theorem onward_cons {entries : List (Key × RValue)} :
    onward heap (e :: entries) = onward heap [e] ∪ onward heap entries := by
  ext x
  constructor
  · rintro ⟨k, b, hmem, hx⟩
    rcases List.mem_cons.1 hmem with heq | hmem
    · exact .inl ⟨k, b, List.mem_singleton.2 heq, hx⟩
    · exact .inr ⟨k, b, hmem, hx⟩
  · rintro (⟨k, b, hmem, hx⟩ | ⟨k, b, hmem, hx⟩)
    · exact ⟨k, b, List.mem_cons.2 (.inl (List.mem_singleton.1 hmem)), hx⟩
    · exact ⟨k, b, List.mem_cons.2 (.inr hmem), hx⟩

theorem onward_hash {k : Key} : onward heap [(k, .hash b)] = reach (Keeps heap) b := by
  ext x
  constructor
  · rintro ⟨k', b', hmem, hx⟩
    cases List.mem_singleton.1 hmem
    exact hx
  · exact fun hx => ⟨k, b, List.mem_singleton_self _, hx⟩

theorem onward_value (h : e.2.isHash = false) : onward heap [e] = ∅ := by
  refine Set.eq_empty_of_forall_notMem ?_
  rintro x ⟨k, b, hmem, -⟩
  cases List.mem_singleton.1 hmem
  cases h

/-- From a hash it comes to the hash, and to what its entries lead to. -/
theorem reach_eq_onward (hA : heap[a]? = some A) :
    reach (Keeps heap) a = {a} ∪ onward heap A.filtered.entries.entries := by
  ext x
  rw [mem_reach_iff]
  refine or_congr Iff.rfl ?_
  constructor
  · rintro ⟨b, hb, hx⟩
    obtain ⟨k, hk⟩ := (keeps_iff hA).1 hb
    exact ⟨k, b, hk, hx⟩
  · rintro ⟨k, b, hk, hx⟩
    exact ⟨b, (keeps_iff hA).2 ⟨k, hk⟩, hx⟩

theorem Stops.of_nested {err : BuildError} (hkeeps : Keeps heap data b) (h : Stops heap n b err) :
    Stops heap (n + 1) data err := by
  rcases h with ⟨rfl, hheight⟩ | hfine
  · exact .inl ⟨rfl, fun hall => hheight (hall b hkeeps)⟩
  · exact .inr fun hall => hfine fun a ha => hall a (reach_of_edge hkeeps ha)

theorem mutate_run {s : BuildState} (hA : s.hashes[data]? = some A) (hfrozen : A.frozen = false)
    (f : Entries → Entries) :
    (mutate data f).run s =
      (.ok (), { s with hashes := s.hashes.set data { A with entries := f A.entries } }) := by
  unfold mutate
  rw [Program.run_bind_ok (hashAt_run hA), if_neg (by simp [hfrozen])]
  rfl

/-- Setting a key to the value it has leaves the state as it is. -/
theorem mutate_aset_run {s : BuildState} {k : Key} {v : RValue} (hA : s.hashes[data]? = some A)
    (hfrozen : A.frozen = false) (hv : (k, v) ∈ A.entries) :
    (mutate data (·.aset k v)).run s = (.ok (), s) := by
  obtain ⟨hlt, hget⟩ := List.getElem?_eq_some_iff.1 hA
  have hself : s.hashes.set data A = s.hashes := by rw [← hget, List.set_getElem_self]
  have hsame : { A with entries := A.entries.aset k v } = A := by rw [aset_eq_self hv]
  rw [mutate_run hA hfrozen, hsame, hself]

/-- `reject!`, of a hash that may have been filtered before. -/
theorem mutate_select_run {s : BuildState} (hs : Filtered S heap s.hashes) (hA : heap[data]? = some A)
    (hfrozen : A.frozen = false) :
    (mutate data (·.select fun e => !rejects e)).run s =
      (.ok (), { s with hashes := s.hashes.set data A.filtered }) := by
  have hhash := hs.hash data A hA
  by_cases hdata : data ∈ S
  · rw [if_pos hdata] at hhash
    rw [mutate_run hhash hfrozen]
    exact congrArg (fun h => (Except.ok (), { s with hashes := s.hashes.set data h })) filtered_filtered
  · rw [if_neg hdata] at hhash
    rw [mutate_run hhash hfrozen]
    rfl

/-- A hash that is frozen, or none. -/
theorem mutate_error {s : BuildState} {f : Entries → Entries} (hs : Filtered S heap s.hashes)
    (h : ¬ ∃ A, heap[data]? = some A ∧ A.frozen = false) :
    ∃ err t, (mutate data f).run s = (.error err, t) := by
  cases hA : heap[data]? with
  | none =>
      have hnone : s.hashes[data]? = none := by
        rw [List.getElem?_eq_none_iff] at hA ⊢
        rw [hs.length_eq]
        exact hA
      have hrun : (hashAt data).run s = (.error .badHash, s) := by
        show (Program.orThrow BuildError.badHash s.hashes[data]?).run s = _
        rw [hnone]
        rfl
      exact ⟨_, _, Program.run_bind_error hrun⟩
  | some A =>
      have hfrozen : A.frozen = true := by
        by_contra hne
        exact h ⟨A, hA, Bool.eq_false_iff.2 hne⟩
      refine ⟨.frozenError, s, ?_⟩
      unfold mutate
      rw [Program.run_bind_ok (hashAt_run (hs.hash data A hA))]
      by_cases hdata : data ∈ S <;> simp only [hdata, if_true, if_false, filtered_frozen, hfrozen] <;> rfl

/-- **One entry.** -/
theorem filterEntry_outcome {filter : HashId → Build HashId} (hfilter : Filters heap n filter)
    (hA : heap[data]? = some A) (hfrozen : A.frozen = false) (he : e ∈ A.filtered.entries)
    (hdata : data ∈ S) :
    Program.Outcome (fun s => Filtered S heap s.hashes) (filterEntry filter data e)
      (fun _ s => Fine heap (onward heap [e]) ∧ Filtered (S ∪ onward heap [e]) heap s.hashes)
      (Stops heap (n + 1) data) := by
  obtain ⟨k, v⟩ := e
  -- the hash has been filtered, and the entry has the value that it is given
  have hstore : ∀ T, data ∈ T → Program.Outcome (fun s => Filtered T heap s.hashes)
      (mutate data (·.aset k v)) (fun _ s => Filtered T heap s.hashes) (Stops heap (n + 1) data) := by
    intro T hT s hs
    have hhash := hs.hash data A hA
    rw [if_pos hT] at hhash
    rw [mutate_aset_run hhash hfrozen he]
    exact hs
  have hvalue : v.isHash = false →
      Program.Outcome (fun s => Filtered S heap s.hashes) (mutate data (·.aset k v))
        (fun _ s => Fine heap (onward heap [(k, v)]) ∧ Filtered (S ∪ onward heap [(k, v)]) heap s.hashes)
        (Stops heap (n + 1) data) := by
    intro hv
    rw [onward_value hv, Set.union_empty]
    exact (hstore S hdata).conseq (fun _ hs => hs) fun _ _ hs => ⟨fun _ h => h.elim, hs⟩
  cases v with
  | hash b =>
      have hkeeps : Keeps heap data b := (keeps_iff hA).2 ⟨k, he⟩
      rw [onward_hash]
      refine Program.Outcome.bind ((hfilter S b).conseq_error fun _ => Stops.of_nested hkeeps) fun b' => ?_
      refine Program.Outcome.assume fun hb' => Program.Outcome.assume fun hfine => ?_
      subst hb'
      exact (hstore _ (.inl hdata)).conseq (fun _ hs => hs) fun _ _ hs => ⟨hfine, hs⟩
  | string text | symbol text | pathname text | numeric text | nil | bool c | array elements
  | other result => exact hvalue rfl

/-- The entries, one after the other. -/
theorem filterEntries_outcome {filter : HashId → Build HashId} (hfilter : Filters heap n filter)
    (hA : heap[data]? = some A) (hfrozen : A.frozen = false) (entries : List (Key × RValue))
    (hentries : ∀ e ∈ entries, e ∈ A.filtered.entries) (hdata : data ∈ S) :
    Program.Outcome (fun s => Filtered S heap s.hashes) (entries.forM (filterEntry filter data))
      (fun _ s => Fine heap (onward heap entries) ∧ Filtered (S ∪ onward heap entries) heap s.hashes)
      (Stops heap (n + 1) data) := by
  induction entries generalizing S with
  | nil =>
      rw [onward_nil, Set.union_empty]
      exact Program.Outcome.pure _ fun _ hs => ⟨fun _ h => h.elim, hs⟩
  | cons e entries ih =>
      rw [List.forall_mem_cons] at hentries
      rw [onward_cons, ← Set.union_assoc]
      refine Program.Outcome.bind (filterEntry_outcome hfilter hA hfrozen hentries.1 hdata) fun _ => ?_
      refine Program.Outcome.assume fun hfine => ?_
      refine (ih hentries.2 (.inl hdata)).conseq (fun _ hs => hs) fun _ _ hs => ⟨?_, hs.2⟩
      rintro a (ha | ha)
      · exact hfine a ha
      · exact hs.1 a ha

/-! ### All of them -/

/-- **What a run does**: it filters the hashes that it comes to, and no others. -/
theorem filterGithubMetadata_filters (heap : RHeap) (n : Nat) :
    Filters heap n (filterGithubMetadata n) := by
  induction n with
  | zero => exact fun S b => Program.Outcome.throw (.inl ⟨rfl, fun h => h⟩)
  | succ n ih =>
      intro S data
      by_cases hfine : ∃ A, heap[data]? = some A ∧ A.frozen = false
      · obtain ⟨A, hA, hfrozen⟩ := hfine
        have hselect : Program.Outcome (fun s => Filtered S heap s.hashes)
            (mutate data (·.select fun e => !rejects e))
            (fun _ s => Filtered (S ∪ {data}) heap s.hashes) (Stops heap (n + 1) data) := by
          intro s hs
          rw [mutate_select_run hs hA hfrozen]
          exact hs.set hA
        refine Program.Outcome.bind hselect fun _ => ?_
        have hlook : Program.Outcome (fun s => Filtered (S ∪ {data}) heap s.hashes) (hashAt data)
            (fun h s => h = A.filtered ∧ Filtered (S ∪ {data}) heap s.hashes)
            (Stops heap (n + 1) data) := by
          intro s hs
          have hhash := hs.hash data A hA
          rw [if_pos (.inr rfl)] at hhash
          rw [hashAt_run hhash]
          exact ⟨rfl, hs⟩
        refine Program.Outcome.bind hlook fun h => Program.Outcome.assume ?_
        rintro rfl
        refine Program.Outcome.bind (filterEntries_outcome ih hA hfrozen _ (fun e he => he) (.inr rfl))
          fun _ => Program.Outcome.pure _ fun s hs => ⟨rfl, ?_, ?_⟩
        · rw [reach_eq_onward hA]
          rintro a (rfl | ha)
          · exact ⟨A, hA, hfrozen⟩
          · exact hs.1 a ha
        · rw [reach_eq_onward hA, ← Set.union_assoc]
          exact hs.2
      · -- the first change is refused, or there is no such hash
        have hstops : ∀ err, Stops heap (n + 1) data err :=
          fun err => .inr fun hall => hfine (hall data self_mem_reach)
        intro s hs
        rw [filterGithubMetadata]
        obtain ⟨err, t, hrun⟩ := mutate_error (f := fun entries => entries.select fun e => !rejects e) hs hfine
        rw [Program.run_bind_error hrun]
        exact hstops err

/-! ### The leaves that are left -/

theorem exists_filtered (h : Filtered S heap hashes) (ha : a ∈ S) {B : RHash} (hB : hashes[a]? = some B) :
    ∃ A, heap[a]? = some A ∧ B = A.filtered := by
  have hlt : a < heap.length := by
    rw [← h.length_eq]
    exact (List.getElem?_eq_some_iff.1 hB).1
  have hhash := h.hash a _ (List.getElem?_eq_getElem hlt)
  rw [if_pos ha, hB] at hhash
  exact ⟨heap[a], List.getElem?_eq_getElem hlt, Option.some.inj hhash⟩

theorem rejects_eq_false {k : Key} {v : RValue} :
    rejects (k, v) = false ↔ v ≠ .string "" ∧ ¬ HasWord true k.toS.toList := by
  have hblank : v.isBlank = false ↔ v ≠ .string "" := by
    cases v <;> simp [RValue.isBlank]
  rw [rejects, Bool.or_eq_false_iff, hblank, ← searchWord_iff, isMetadata, Bool.not_eq_true]

/-- **The leaves** after the hashes that filtering comes to have been filtered. -/
theorem leafAt_filtered_iff (h : Filtered S heap hashes) (hclosed : Closed (Keeps heap) S) (ha : a ∈ S)
    {ks : List Key} {v : RValue} :
    LeafAt hashes a ks v ↔ LeafAt heap a ks v ∧ Kept ks v := by
  constructor
  · intro hleaf
    induction hleaf with
    | here hB hk hv =>
        obtain ⟨A, hA, rfl⟩ := exists_filtered h ha hB
        obtain ⟨hmem, hkept⟩ := mem_filtered.1 hk
        obtain ⟨hblank, hkey⟩ := rejects_eq_false.1 hkept
        exact ⟨.here hA hmem hv, hblank, by simpa using hkey⟩
    | nested hB hk _ ih =>
        obtain ⟨A, hA, rfl⟩ := exists_filtered h ha hB
        obtain ⟨hmem, hkept⟩ := mem_filtered.1 hk
        obtain ⟨hleaf, hblank, hkeys⟩ := ih (hclosed _ ha _ ((keeps_iff hA).2 ⟨_, hk⟩))
        exact ⟨.nested hA hmem hleaf, hblank,
          List.forall_mem_cons.2 ⟨(rejects_eq_false.1 hkept).2, hkeys⟩⟩
  · rintro ⟨hleaf, hblank, hkeys⟩
    induction hleaf with
    | @here a A k v hA hk hv =>
        have hB := h.hash a A hA
        rw [if_pos ha] at hB
        exact .here hB (mem_filtered.2 ⟨hk, rejects_eq_false.2 ⟨hblank, hkeys k List.mem_cons_self⟩⟩) hv
    | @nested a A k b ks v hA hk _ ih =>
        have hB := h.hash a A hA
        rw [if_pos ha] at hB
        rw [List.forall_mem_cons] at hkeys
        have hmem := mem_filtered.2 ⟨hk, rejects_eq_false.2 ⟨by simp, hkeys.1⟩⟩
        exact .nested hB hmem (ih (hclosed _ ha _ ((keeps_iff hA).2 ⟨k, hmem⟩)) hblank hkeys.2)

/-- A run that returns, returns its argument and leaves these leaves. -/
theorem filterGithubMetadata_leaves {heap : RHeap} {fuel : Nat} {data r : HashId} {s : BuildState}
    (hrun : (filterGithubMetadata fuel data).run { hashes := heap } = (.ok r, s)) :
    r = data ∧ (∀ ks v, LeafAt s.hashes data ks v ↔ LeafAt heap data ks v ∧ Kept ks v) ∧
      ∀ a, a ∉ reach (Keeps heap) data → s.hashes[a]? = heap[a]? := by
  obtain ⟨rfl, -, hfiltered⟩ :=
    (filterGithubMetadata_filters heap fuel ∅ data).of_ok (filtered_refl heap) hrun
  rw [Set.empty_union] at hfiltered
  refine ⟨rfl, fun ks v => leafAt_filtered_iff hfiltered closed_reach self_mem_reach, fun a ha => ?_⟩
  cases hA : heap[a]? with
  | some A => rw [hfiltered.hash a A hA, if_neg ha]
  | none =>
      rw [List.getElem?_eq_none_iff] at hA ⊢
      rw [hfiltered.length_eq]
      exact hA

/-- **What is left.**  Where filtering comes to no cycle it returns, with enough fuel, if and
only if it comes to no frozen hash and no missing one; and whenever it returns the leaves are
those there were that are not empty and have no removed key on their path, and the hashes that
it does not come to are as they were. -/
theorem filtered_leaves_iff (heap : RHeap) (data : HashId) (hacyclic : Acyclic (Keeps heap) data) :
    ((∃ N, ∀ fuel, N ≤ fuel → ∃ s,
        (filterGithubMetadata fuel data).run { hashes := heap } = (.ok data, s)) ↔
      ∀ a ∈ reach (Keeps heap) data, ∃ A, heap[a]? = some A ∧ A.frozen = false) ∧
    ∀ fuel r s, (filterGithubMetadata fuel data).run { hashes := heap } = (.ok r, s) → r = data ∧
      (∀ ks v, LeafAt s.hashes data ks v ↔ LeafAt heap data ks v ∧ Kept ks v) ∧
      ∀ a, a ∉ reach (Keeps heap) data → s.hashes[a]? = heap[a]? := by
  refine ⟨⟨?_, fun hfine => ?_⟩, fun fuel r s hrun => filterGithubMetadata_leaves hrun⟩
  · rintro ⟨N, hN⟩
    obtain ⟨s, hrun⟩ := hN N le_rfl
    exact ((filterGithubMetadata_filters heap N ∅ data).of_ok (filtered_refl heap) hrun).2.1
  · have hfinite : (reach (Keeps heap) data).Finite := by
      refine (Set.finite_lt_nat heap.length).subset fun a ha => ?_
      obtain ⟨A, hA, -⟩ := hfine a ha
      exact (List.getElem?_eq_some_iff.1 hA).1
    obtain ⟨d, hd⟩ := hacyclic.exists_heightLt hfinite
    refine ⟨d, fun fuel hfuel => ?_⟩
    have houtcome := filterGithubMetadata_filters heap fuel ∅ data
    rcases hrun : (filterGithubMetadata fuel data).run { hashes := heap } with ⟨result, s⟩
    cases result with
    | error e =>
        rcases houtcome.of_error (filtered_refl heap) hrun with ⟨-, hheight⟩ | hnot
        · exact absurd (hd.mono hfuel) hheight
        · exact absurd hfine hnot
    | ok r =>
        obtain ⟨rfl, -⟩ := filterGithubMetadata_leaves hrun
        exact ⟨s, rfl⟩

end Filtering

/-- A release, with its author. -/
def sampleRelease : RHeap :=
  [{ entries := ⟨[(.string "name", .string "v1"), (.string "body", .string "notes"),
      (.string "author", .hash 1)], by decide⟩ },
    { entries := ⟨[(.string "login", .string "someone"), (.string "gravatar_id", .string ""),
      (.string "url", .string "")], by decide⟩ }]

theorem keeps_sampleRelease {a b : HashId} (h : Keeps sampleRelease a b) : a = 0 ∧ b = 1 := by
  obtain ⟨A, hA, k, hk⟩ := h
  have hmem := (mem_filtered.1 hk).1
  match a with
  | 0 =>
      cases hA
      have hauthor : k = .string "author" ∧ b = 1 := by simpa [OrderedHash.mem_def] using hmem
      exact ⟨rfl, hauthor.2⟩
  | 1 =>
      cases hA
      simp [OrderedHash.mem_def] at hmem
  | a + 2 => simp [sampleRelease] at hA

/-- The notes, what is said of the gravatar and what is empty are removed. -/
theorem filtered_leaves_sampleRelease :
    ∃ N, ∀ fuel, N ≤ fuel → ∃ s,
      (filterGithubMetadata fuel 0).run { hashes := sampleRelease } = (.ok 0, s) ∧
      (∀ ks v, LeafAt s.hashes 0 ks v ↔ LeafAt sampleRelease 0 ks v ∧ Kept ks v) ∧
      ∀ a, a ∉ reach (Keeps sampleRelease) 0 → s.hashes[a]? = sampleRelease[a]? := by
  have hlt : ∀ a b, Keeps sampleRelease a b → a < b := by
    intro a b h
    obtain ⟨rfl, rfl⟩ := keeps_sampleRelease h
    exact Nat.zero_lt_one
  obtain ⟨hreturns, hleaves⟩ := filtered_leaves_iff sampleRelease 0 (Acyclic.of_lt hlt)
  have hfine : ∀ a ∈ reach (Keeps sampleRelease) 0, ∃ A, sampleRelease[a]? = some A ∧
      A.frozen = false := by
    intro a ha
    have hcases : a = 0 ∨ a = 1 := by
      rcases Relation.ReflTransGen.cases_tail ha with rfl | ⟨b, -, hedge⟩
      · exact .inl rfl
      · exact .inr (keeps_sampleRelease hedge).2
    rcases hcases with rfl | rfl <;> exact ⟨_, rfl, rfl⟩
  obtain ⟨N, hN⟩ := hreturns.2 hfine
  refine ⟨N, fun fuel hfuel => ?_⟩
  obtain ⟨s, hrun⟩ := hN fuel hfuel
  exact ⟨s, hrun, (hleaves fuel 0 s hrun).2⟩

end RuBLE.CMake
