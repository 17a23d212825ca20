import Mathlib
import RuBLE.Build.CMakeInput
import RuBLE.Library.Frame

/-!
# Writing the text to a file

`cmake_generate` with a path: the data is flattened first, then the file is opened
and the fields are written, one after the other.

* `cmakeGenerateTo` — the call, over the content of the file.
* `cmakeFlattenHash_flat` — what flattening returns has only values in it that can be
  serialized, if `to_s` of the elements of arrays are strings, whatever else the data is.
* `fails_before_open` — **no half-written file**: a call that raises has not opened
  the file then; `not_fails_before_open_unprintable` is one that has.
* `file_eq_text_iff` — **the two output modes** agree if and only if the file was
  not longer than the new text: it is opened without being emptied.
-/

namespace RuBLE.CMake

open Transition Graph

/-! ## The file -/

/-- The bytes of some text. -/
def utf8 (text : String) : List UInt8 := text.toList.flatMap String.utf8EncodeChar

/-- The build, and the file at the path. -/
structure OutputState where
  build : BuildState
  /-- What is in the file, if it is there. -/
  content : Option (List UInt8)
  /-- Where the next write goes, once the file has been opened. -/
  position : Option Nat := none

/-- Code of the build that writes to the file. -/
abbrev Output (α : Type) : Type := Program OutputState BuildError α

/-- Code that does not write to it. -/
def onBuild {α : Type} (x : Build α) : Output α := fun s =>
  ((x.run s.build).1, { s with build := (x.run s.build).2 })

/-- `path.open(File::WRONLY|File::CREAT)`: a file that is there keeps what is in it. -/
def openFile : Output Unit := Program.modify fun s =>
  { s with content := some (s.content.getD []), position := some 0 }

/-- What is in a file after some bytes have been written at a position. -/
def overwrite (old : List UInt8) (position : Nat) (bytes : List UInt8) : List UInt8 :=
  old.take position ++ bytes ++ old.drop (position + bytes.length)

/-- A write, which moves the position on. -/
def writeBytes (bytes : List UInt8) : Output Unit := Program.modify fun s =>
  { s with
    content := some (overwrite (s.content.getD []) (s.position.getD 0) bytes)
    position := some (s.position.getD 0 + bytes.length) }

/-- `puts`: a line feed follows unless the text ends in one. -/
def puts (text : String) : Output Unit :=
  writeBytes (utf8 (if text.toList.getLast? = some '\n' then text else text ++ "\n"))

/-- `cmake_generate`, with a path. -/
def cmakeGenerateTo (inspect : RHeap → RValue → String) (fuel : Nat) (data : HashId) : Output Unit := do
  let fields ← onBuild (cmakeFlattenHash inspect fuel data)
  openFile
  fields.entries.forM fun e => do
    let field ← onBuild (cmakeField inspect e)
    puts field

/-! ## What flattening returns -/

section Flat

variable {inspect : RHeap → RValue → String} {hash : HashId} {Q : Key × RValue → Prop}
  {P : BuildState → Prop} {T : Set HashId}

/-- All entries of the hash are like this. -/
def AllAt (hash : HashId) (Q : Key × RValue → Prop) (s : BuildState) : Prop :=
  ∀ h, s.hashes[hash]? = some h → ∀ e ∈ h.entries, Q e

/-- `to_s` of the elements is a `String`, and a nested hash is in the set. -/
def Fits (T : Set HashId) (e : Key × RValue) : Prop :=
  e.2.elementsPrint = true ∧ ∀ b, e.2 = .hash b → b ∈ T

/-- All that is in the hashes of the set fits, and so will the copies that are made of them. -/
structure Printing (T : Set HashId) (s : BuildState) : Prop where
  copies : ∀ a, s.hashes.length ≤ a → a ∈ T
  fits : ∀ a ∈ T, AllAt a (Fits T) s

/-- A call that returns has kept it. -/
abbrev KeepsPrinting {α : Type} (T : Set HashId) (x : Build α) : Prop :=
  Program.Outcome (Printing T) x (fun _ => Printing T) fun _ => True

theorem hashAt_outcome (id : HashId) :
    Program.Outcome P (hashAt id) (fun h s => s.hashes[id]? = some h ∧ P s) fun _ => True := by
  intro s hs
  cases hh : s.hashes[id]? with
  | none =>
      have hrun : (hashAt id).run s = (.error .badHash, s) := by
        show (Program.orThrow BuildError.badHash s.hashes[id]?).run s = _
        rw [hh]
        rfl
      rw [hrun]
      trivial
  | some h =>
      rw [hashAt_run hh]
      exact ⟨hh, hs⟩

/-- A change that the entries go through. -/
theorem mutate_allAt {Q' : Key × RValue → Prop} {f : Entries → Entries}
    (hf : ∀ entries : Entries, (∀ e ∈ entries, Q e) → ∀ e ∈ f entries, Q' e) :
    Program.Outcome (AllAt hash Q) (mutate hash f) (fun _ => AllAt hash Q') fun _ => True := by
  refine Program.Outcome.bind (hashAt_outcome hash) fun h => ?_
  by_cases hfrozen : h.frozen = true
  · simp only [hfrozen, if_true]
    exact Program.Outcome.throw trivial
  · simp only [hfrozen, Bool.false_eq_true, if_false]
    refine Program.Outcome.modify fun s hs h' hh' => ?_
    obtain ⟨hh, hall⟩ := hs
    have hlt : hash < s.hashes.length := (List.getElem?_eq_some_iff.1 hh).1
    rw [List.getElem?_set_self hlt] at hh'
    cases hh'
    exact hf h.entries (hall h hh)

/-- What is deleted is one of the entries, or nothing. -/
theorem delete_allAt (k : Key) :
    Program.Outcome (AllAt hash Q) (delete hash k)
      (fun v s => (v = .nil ∨ Q (k, v)) ∧ AllAt hash Q s) fun _ => True := by
  refine Program.Outcome.bind (hashAt_outcome hash) fun h => ?_
  by_cases hall : ∀ e ∈ h.entries, Q e
  · refine Program.Outcome.bind ((mutate_allAt fun entries hentries e he =>
      hentries e (OrderedHash.mem_delete.1 he).1).conseq (fun s hs => hs.2) fun _ _ hs => hs) fun _ => ?_
    refine Program.Outcome.pure _ fun s hs => ⟨?_, hs⟩
    cases hget : h.entries.get? k with
    | none => exact .inl rfl
    | some v => exact .inr (hall _ (OrderedHash.get?_eq_some_iff.1 hget))
  · exact fun s hs => absurd (hs.2 h hs.1) hall

/-! ### What stays in the set -/

/-- A promise about a program that keeps what the set is for. -/
theorem also_printing {α : Type} {x : Build α} {R : α → BuildState → Prop}
    (h : Program.Outcome P x R fun _ => True) (hx : KeepsPrinting T x) :
    Program.Outcome (fun s => P s ∧ Printing T s) x (fun a s => R a s ∧ Printing T s) fun _ => True :=
  ((h.conseq (fun _ hs => hs.1) fun _ _ hs => hs).and
    (hx.conseq (fun _ hs => hs.2) fun _ _ hs => hs)).conseq_error fun _ _ => trivial

theorem warnDuplicate_printing (k : Key) : KeepsPrinting T (warnDuplicate inspect k) :=
  Program.Outcome.modify fun _ hs => ⟨hs.copies, hs.fits⟩

theorem mutate_printing {f : Entries → Entries}
    (hf : ∀ entries : Entries, (∀ e ∈ entries, Fits T e) → ∀ e ∈ f entries, Fits T e) :
    KeepsPrinting T (mutate hash f) := by
  refine Program.Outcome.bind (hashAt_outcome hash) fun h => ?_
  by_cases hfrozen : h.frozen = true
  · simp only [hfrozen, if_true]
    exact Program.Outcome.throw trivial
  simp only [hfrozen, Bool.false_eq_true, if_false]
  refine Program.Outcome.modify ?_
  rintro s ⟨hh, hs⟩
  refine ⟨fun a ha => hs.copies a (by rwa [List.length_set] at ha), fun a ha h' hh' => ?_⟩
  by_cases heq : a = hash
  · subst heq
    rw [List.getElem?_set_self (List.getElem?_eq_some_iff.1 hh).1] at hh'
    cases hh'
    exact hf h.entries (hs.fits a ha h hh)
  · rw [List.getElem?_set_ne fun heq' => heq heq'.symm] at hh'
    exact hs.fits a ha h' hh'

theorem delete_printing (k : Key) : KeepsPrinting T (delete hash k) := by
  refine Program.Outcome.bind (hashAt_outcome hash) fun h => ?_
  refine Program.Outcome.bind ((mutate_printing fun entries hentries e he =>
    hentries e (OrderedHash.mem_delete.1 he).1).conseq (fun _ hs => hs.2) fun _ _ hs => hs) fun _ => ?_
  exact Program.Outcome.pure _ fun _ hs => hs

/-- A copy is in the set, and holds what fits. -/
theorem dupIfFrozen_printing (hmem : hash ∈ T) :
    Program.Outcome (Printing T) (dupIfFrozen hash) (fun id s => id ∈ T ∧ Printing T s)
      fun _ => True := by
  refine Program.Outcome.bind (hashAt_outcome hash) fun h => ?_
  by_cases hfrozen : h.frozen = true
  swap
  · simp only [hfrozen, Bool.false_eq_true, if_false]
    exact Program.Outcome.pure _ fun _ hs => ⟨hmem, hs.2⟩
  simp only [hfrozen, if_true]
  refine Program.Outcome.bind (hashAt_outcome hash) fun h' => ?_
  rintro s ⟨hh', -, hs⟩
  refine ⟨hs.copies _ le_rfl, fun a ha => hs.copies a ?_, fun a ha A hA => ?_⟩
  · rw [List.length_append] at ha
    exact (Nat.le_add_right _ _).trans ha
  · rw [List.getElem?_append] at hA
    split at hA
    · exact hs.fits a ha A hA
    · -- the copy holds what the hash holds
      rw [List.getElem?_singleton] at hA
      split at hA
      · cases hA
        exact hs.fits hash hmem h' hh'
      · cases hA

theorem Fits.stringify {k : Key} {v : RValue} {heap : RHeap} (h : Fits T (k, v)) :
    Fits T (k, stringify inspect heap v) := by
  cases v with
  | array elements =>
      have hflat : (CMake.stringify inspect heap (.array elements)).Flat := stringify_array_flat h.1
      exact ⟨(Bool.and_eq_true_iff.1 (isAccepted_of_ready (.inl hflat))).2, fun b hb => by cases hb⟩
  | string text | symbol text | pathname text => exact ⟨rfl, fun b hb => by cases hb⟩
  | numeric text | nil | bool b | hash id | other result => exact h

/-- The arrays are arrays of strings once the values have been transformed. -/
theorem transformEntries_flat (hmem : hash ∈ T) :
    Program.Outcome (Printing T) (transformEntries inspect hash)
      (fun _ s => AllAt hash (fun e => e.2.isArray = true → e.2.Flat) s ∧ Printing T s)
      fun _ => True := by
  have hkeys : ∀ entries : Entries, (∀ e ∈ entries, Fits T e) → ∀ e ∈ entries.withStringKeys, Fits T e := by
    rintro entries hentries ⟨k, v⟩ he
    obtain ⟨k', hk'⟩ := OrderedHash.exists_mem_of_mem_transformKeys he
    exact hentries (k', v) hk'
  refine Program.Outcome.bind (mutate_printing hkeys) fun _ => ?_
  refine Program.Outcome.bind Program.Outcome.get fun s => ?_
  refine Program.Outcome.conseq (also_printing (P := AllAt hash (Fits T)) (mutate_allAt ?_)
    (mutate_printing ?_)) (fun t ht => ⟨ht.2.fits hash hmem, ht.2⟩) fun _ _ ht => ht
  · rintro entries hentries ⟨k, w⟩ he harray
    obtain ⟨v, hv, rfl⟩ := OrderedHash.mem_mapValues.1 he
    cases v with
    | array elements => exact stringify_array_flat (hentries _ hv).1
    | string text | symbol text | pathname text | numeric text | nil | bool b | hash id
    | other result => cases harray
  · rintro entries hentries ⟨k, w⟩ he
    obtain ⟨v, hv, rfl⟩ := OrderedHash.mem_mapValues.1 he
    exact (hentries _ hv).stringify

theorem moveArray_printing (final : Entries) (k : Key) :
    KeepsPrinting T (moveArray inspect hash final k) := by
  unfold moveArray
  by_cases hdup : final.hasKey k = true
  · simp only [hdup, if_true]
    exact Program.Outcome.bind (warnDuplicate_printing k) fun _ => Program.Outcome.pure _ fun _ hs => hs
  · simp only [hdup, Bool.false_eq_true, if_false]
    exact Program.Outcome.bind (delete_printing k) fun _ => Program.Outcome.pure _ fun _ hs => hs

theorem moveCompletedEntry_printing (final : Entries) (k : Key) :
    KeepsPrinting T (moveCompletedEntry inspect hash final k) := by
  refine Program.Outcome.bind (delete_printing k) fun w => ?_
  by_cases hdup : final.hasKey k = true
  · simp only [hdup, if_true]
    exact Program.Outcome.bind (warnDuplicate_printing k) fun _ => Program.Outcome.pure _ fun _ hs => hs
  · simp only [hdup, Bool.false_eq_true, if_false]
    exact Program.Outcome.pure _ fun _ hs => hs

theorem moveWhere_printing {p : RValue → Bool} {move : Entries → Key → Build Entries}
    (hmove : ∀ final k, KeepsPrinting T (move final k)) (final : Entries) :
    KeepsPrinting T (do
      let h ← hashAt hash
      (h.entries.keysWhere p).foldlM move final) := by
  refine Program.Outcome.bind (hashAt_outcome hash) fun h => ?_
  exact (Program.Outcome.foldlM (I := fun _ => Printing T) _ (fun k _ final => hmove final k) final).conseq
    (fun _ hs => hs.2) fun _ _ hs => hs

theorem rejectUnrecognized_printing : KeepsPrinting T (rejectUnrecognized inspect hash) := by
  refine Program.Outcome.bind (hashAt_outcome hash) fun h => ?_
  refine Program.Outcome.bind Program.Outcome.get fun s => ?_
  dsimp only
  split
  · exact Program.Outcome.pure _ fun _ hs => hs.2.2
  · exact Program.Outcome.throw trivial

/-! ### What is moved -/

theorem Entries.Flat.aset {final : Entries} {k : Key} {v : RValue} (h : final.Flat) (hv : v.Flat) :
    Flat (final.aset k v) := by
  intro e he
  rcases OrderedHash.mem_aset.1 he with rfl | ⟨he, -⟩
  · exact hv
  · exact h e he

/-- Flat values are moved into `final`, whether the entries are deleted before it is
known that the key is a duplicate or after. -/
theorem moved_flat {entries final : Entries} {k : Key} {v : RValue} (hv : (k, v) ∈ entries)
    (hflat : v.Flat) (hfinal : final.Flat) {w : RValue} (hw : w = .nil ∨ (k, w) ∈ entries) :
    Entries.Flat (final.aset k w) := by
  apply hfinal.aset
  rcases hw with rfl | hw
  · trivial
  · rw [← OrderedHash.value_unique hv hw]
    exact hflat

/-- A duplicate leaves what is there. -/
theorem warnDuplicate_flat {entries final : Entries} {k : Key} (hfinal : final.Flat) :
    Program.Outcome (AllAt hash (· ∈ entries))
      (do
        warnDuplicate inspect k
        return final)
      (fun final' s => final'.Flat ∧ AllAt hash (· ∈ entries) s) fun _ => True := by
  refine Program.Outcome.bind (R := fun _ => AllAt hash (· ∈ entries)) ?_ fun _ => ?_
  · exact Program.Outcome.modify fun _ hs => hs
  · exact Program.Outcome.pure final fun s hs => ⟨hfinal, hs⟩

theorem moveArray_flat {entries final : Entries} {k : Key} {v : RValue} (hv : (k, v) ∈ entries)
    (hflat : v.Flat) :
    Program.Outcome (fun s => final.Flat ∧ AllAt hash (· ∈ entries) s)
      (moveArray inspect hash final k)
      (fun final' s => final'.Flat ∧ AllAt hash (· ∈ entries) s) fun _ => True := by
  apply Program.Outcome.assume
  intro hfinal
  unfold moveArray
  by_cases hdup : final.hasKey k = true
  · simp only [hdup, if_true]
    exact warnDuplicate_flat hfinal
  · simp only [hdup, Bool.false_eq_true, if_false]
    refine Program.Outcome.bind (delete_allAt k) fun w => Program.Outcome.assume fun hw => ?_
    exact Program.Outcome.pure _ fun s hs => ⟨moved_flat hv hflat hfinal hw, hs⟩

theorem moveCompletedEntry_flat {entries final : Entries} {k : Key} {v : RValue}
    (hv : (k, v) ∈ entries) (hflat : v.Flat) :
    Program.Outcome (fun s => final.Flat ∧ AllAt hash (· ∈ entries) s)
      (moveCompletedEntry inspect hash final k)
      (fun final' s => final'.Flat ∧ AllAt hash (· ∈ entries) s) fun _ => True := by
  apply Program.Outcome.assume
  intro hfinal
  unfold moveCompletedEntry
  refine Program.Outcome.bind (delete_allAt k) fun w => Program.Outcome.assume fun hw => ?_
  by_cases hdup : final.hasKey k = true
  · simp only [hdup, if_true]
    exact warnDuplicate_flat hfinal
  · simp only [hdup, Bool.false_eq_true, if_false]
    exact Program.Outcome.pure _ fun s hs => ⟨moved_flat hv hflat hfinal hw, hs⟩

/-- Moving the entries that a condition selects, each of which is flat. -/
theorem moveWhere_flat {p : RValue → Bool} {move : Entries → Key → Build Entries} {final : Entries}
    (hQ : ∀ e, Q e → p e.2 = true → e.2.Flat)
    (hmove : ∀ (entries final : Entries) (k : Key) (v : RValue), (k, v) ∈ entries → v.Flat →
      Program.Outcome (fun s => final.Flat ∧ AllAt hash (· ∈ entries) s) (move final k)
        (fun final' s => final'.Flat ∧ AllAt hash (· ∈ entries) s) fun _ => True)
    (hfinal : final.Flat) :
    Program.Outcome (AllAt hash Q)
      (do
        let h ← hashAt hash
        (h.entries.keysWhere p).foldlM move final)
      (fun final' _ => final'.Flat) fun _ => True := by
  refine Program.Outcome.bind (hashAt_outcome hash) fun h => ?_
  by_cases hall : ∀ e ∈ h.entries, Q e
  · have hloop := Program.Outcome.foldlM (f := move) (φ := fun _ => True)
      (I := fun final s => Entries.Flat final ∧ AllAt hash (· ∈ h.entries) s)
      (h.entries.keysWhere p) (fun k hk final => ?_) final
    · refine hloop.conseq (fun s hs => ⟨hfinal, fun h' hh' e he => ?_⟩) fun _ _ hs => hs.1
      rw [hs.1] at hh'
      cases hh'
      exact he
    · obtain ⟨v, hv, hp⟩ := OrderedHash.mem_keysWhere.1 hk
      exact hmove h.entries final k v hv (hQ _ (hall _ hv) hp)
  · exact fun s hs => absurd (hs.2 h hs.1) hall

/-- What counts as completed is flat. -/
theorem flat_of_isCompleted {v : RValue} (h : v.isCompleted = true) : v.Flat := by
  cases v with
  | string text | numeric text | nil | bool b => trivial
  | symbol text | pathname text | array elements | hash id | other result => cases h

/-! ### The rounds -/

theorem RValue.Flat.fits {k : Key} {v : RValue} (h : v.Flat) : Fits T (k, v) := by
  refine ⟨(Bool.and_eq_true_iff.1 (isAccepted_of_ready (.inl h))).2, ?_⟩
  rintro b rfl
  exact h.elim

/-- A nested hash is replaced by what it flattens to, if that is flat. -/
theorem flattenNested_printing {flatten : HashId → Build Entries} (hmem : hash ∈ T)
    (hflatten : ∀ id ∈ T, Program.Outcome (Printing T) (flatten id)
      (fun final s => final.Flat ∧ Printing T s) fun _ => True) (k : Key) :
    KeepsPrinting T (flattenNested inspect flatten hash k) := by
  refine Program.Outcome.bind (R := fun v s => (∀ b, v = .hash b → b ∈ T) ∧ Printing T s) ?_
    fun v => Program.Outcome.assume fun hv => ?_
  · refine (also_printing (P := AllAt hash (Fits T)) (delete_allAt k) (delete_printing k)).conseq
      (fun s hs => ⟨hs.fits hash hmem, hs⟩) ?_
    rintro v s ⟨⟨hv, -⟩, hs⟩
    refine ⟨fun b hb => ?_, hs⟩
    rcases hv with rfl | hv
    · cases hb
    · exact hv.2 b hb
  cases v with
  | hash id =>
      refine Program.Outcome.bind (dupIfFrozen_printing (hv id rfl)) fun subhash =>
        Program.Outcome.assume fun hsub => ?_
      refine Program.Outcome.bind (hflatten subhash hsub) fun flat =>
        Program.Outcome.assume fun hflat => ?_
      refine Program.Outcome.bind (hashAt_outcome hash) fun h => ?_
      refine Program.Outcome.bind (R := fun _ => Printing T)
        ((Program.Outcome.forM _ fun k _ => warnDuplicate_printing k).conseq (fun _ hs => hs.2)
          fun _ _ hs => hs) fun _ => ?_
      refine mutate_printing fun entries hentries e he => ?_
      rcases OrderedHash.mem_merge.1 he with he | ⟨he, -⟩
      · exact hentries e he
      · obtain ⟨k', hk'⟩ := OrderedHash.exists_mem_of_mem_transformKeys he
        exact (hflat (k', e.2) hk').fits
  | string text | symbol text | pathname text | numeric text | nil | bool b | array elements
  | other result => exact Program.Outcome.throw trivial

/-- A round, with whatever the nested hashes are flattened by. -/
theorem flattenRound_flat {flatten : HashId → Build Entries} (hmem : hash ∈ T)
    (hflatten : ∀ id ∈ T, Program.Outcome (Printing T) (flatten id)
      (fun final s => final.Flat ∧ Printing T s) fun _ => True)
    {final : Entries} (hfinal : final.Flat) :
    Program.Outcome (Printing T) (flattenRound inspect flatten hash final)
      (fun final' s => final'.Flat ∧ Printing T s) fun _ => True := by
  refine Program.Outcome.bind (transformEntries_flat hmem) fun _ => ?_
  refine Program.Outcome.bind (also_printing (moveWhere_flat (fun e he => he)
    (fun _ _ _ _ hv hflat => moveArray_flat hv hflat) hfinal)
    (moveWhere_printing moveArray_printing final)) fun final₁ => Program.Outcome.assume fun hfinal₁ => ?_
  refine Program.Outcome.bind rejectUnrecognized_printing fun _ => ?_
  refine Program.Outcome.bind (R := fun _ => Printing T) ?_ fun _ => ?_
  · refine Program.Outcome.bind (hashAt_outcome hash) fun h => ?_
    exact (Program.Outcome.forM _ fun k _ => flattenNested_printing hmem hflatten k).conseq
      (fun _ hs => hs.2) fun _ _ hs => hs
  · refine (also_printing (P := AllAt hash fun _ => True) (moveWhere_flat
      (fun _ _ hp => flat_of_isCompleted hp) (fun _ _ _ _ hv hflat => moveCompletedEntry_flat hv hflat)
      hfinal₁) (moveWhere_printing moveCompletedEntry_printing final₁)).conseq
      (fun s hs => ⟨fun _ _ _ _ => trivial, hs⟩) fun _ _ hs => hs

theorem flattenUntilEmpty_flat {flatten : HashId → Build Entries} (hmem : hash ∈ T)
    (hflatten : ∀ id ∈ T, Program.Outcome (Printing T) (flatten id)
      (fun final s => final.Flat ∧ Printing T s) fun _ => True)
    {final : Entries} (n : Nat) (hfinal : final.Flat) :
    Program.Outcome (Printing T) (flattenUntilEmpty inspect flatten hash n final)
      (fun final' s => final'.Flat ∧ Printing T s) fun _ => True := by
  induction n generalizing final with
  | zero => exact Program.Outcome.throw trivial
  | succ n ih =>
      refine Program.Outcome.bind (hashAt_outcome hash) fun h => ?_
      by_cases hempty : h.entries.isEmpty = true
      · simp only [hempty, if_true]
        exact Program.Outcome.pure final fun _ hs => ⟨hfinal, hs.2⟩
      · simp only [hempty, Bool.false_eq_true, if_false]
        refine Program.Outcome.bind ((flattenRound_flat hmem hflatten hfinal).conseq
          (fun _ hs => hs.2) fun _ _ hs => hs) fun final₁ => ?_
        exact Program.Outcome.assume fun hfinal₁ => ih hfinal₁

/-- **What flattening returns** is flat, whatever else the data is: by induction on the
depth, the set being that of the hashes nested in it. -/
theorem cmakeFlattenHash_flat (n : Nat) : ∀ data ∈ T,
    Program.Outcome (Printing T) (cmakeFlattenHash inspect n data)
      (fun final s => final.Flat ∧ Printing T s) fun _ => True := by
  induction n with
  | zero => exact fun data _ => Program.Outcome.throw trivial
  | succ n ih =>
      intro data hmem
      refine Program.Outcome.bind (dupIfFrozen_printing hmem) fun id => Program.Outcome.assume fun hid => ?_
      exact flattenUntilEmpty_flat hid ih (n + 1) fun e he => absurd he OrderedHash.not_mem_empty

/-- One hash is a value of another. -/
def Nests (heap : RHeap) (a b : HashId) : Prop := ∃ h, heap[a]? = some h ∧ b ∈ h.entries.hashes

/-- In no hash of the data is there an array with an element whose `to_s` is no `String`. -/
def DataPrints (heap : RHeap) (data : HashId) : Prop :=
  ∀ a ∈ reach (Nests heap) data, ∀ h, heap[a]? = some h → ∀ e ∈ h.entries, e.2.elementsPrint = true

/-- The hashes of the data, and the copies of them. -/
theorem DataPrints.printing {heap : RHeap} {data : HashId} (h : DataPrints heap data) :
    Printing (reach (Nests heap) data ∪ {a | heap.length ≤ a}) { hashes := heap } where
  copies a ha := .inr ha
  fits := by
    rintro a ha A hA ⟨k, v⟩ he
    rcases ha with ha | ha
    · refine ⟨h a ha A hA _ he, ?_⟩
      rintro b rfl
      exact .inl (Relation.ReflTransGen.tail ha ⟨A, hA, k, he⟩)
    · rw [List.getElem?_eq_none ha] at hA
      cases hA

theorem flat_of_run {heap : RHeap} {data : HashId} {n : Nat} {final : Entries} {b : BuildState}
    (h : DataPrints heap data)
    (hrun : (cmakeFlattenHash inspect n data).run { hashes := heap } = (.ok final, b)) : final.Flat :=
  ((cmakeFlattenHash_flat n data (.inl self_mem_reach)).of_ok h.printing hrun).1

end Flat

/-! ## The fields -/

section Fields

variable {inspect : RHeap → RValue → String}

/-- What is flat is serialized without raising, and nothing else happens. -/
theorem cmakeSerialize_run {v : RValue} (hv : v.Flat) (s : BuildState) :
    ∃ text, (cmakeSerialize inspect v).run s = (.ok text, s) := by
  have h : Program.Outcome (· = s) (cmakeSerialize inspect v) (fun _ => (· = s)) fun _ => False :=
    cmakeSerialize_outcome hv
  specialize h s rfl
  revert h
  rcases (cmakeSerialize inspect v).run s with ⟨r, t⟩
  cases r with
  | ok text => exact fun ht => ⟨text, by rw [show t = s from ht]⟩
  | error e => exact False.elim

/-- The text of a field. -/
def IsField (text : String) : Prop := ∃ body, text = "set(" ++ body ++ ")"

theorem IsField.ne_empty {text : String} (h : IsField text) : text.isEmpty = false := by
  obtain ⟨body, rfl⟩ := h
  simp [String.append_eq_empty_iff]

theorem IsField.getLast?_ne {text : String} (h : IsField text) : text.toList.getLast? ≠ some '\n' := by
  obtain ⟨body, rfl⟩ := h
  have hlast : ("set(" ++ body ++ ")").toList.getLast? = some ')' := by
    rw [String.toList_append]
    exact List.getLast?_concat
  rw [hlast]
  decide

/-- The fields of the entries, as they are written from this state. -/
def Fields (inspect : RHeap → RValue → String) (s : BuildState) (entries : List (Key × RValue))
    (fields : List String) : Prop :=
  List.Forall₂ (fun e field => (cmakeField inspect e).run s = (.ok field, s) ∧ IsField field)
    entries fields

theorem Fields.isField {s : BuildState} {entries : List (Key × RValue)} {fields : List String}
    (h : Fields inspect s entries fields) : ∀ field ∈ fields, IsField field := by
  induction h with
  | nil => simp
  | cons hfield _ ih => exact List.forall_mem_cons.2 ⟨hfield.2, ih⟩

theorem cmakeField_run {e : Key × RValue} (he : e.2.Flat) (s : BuildState) :
    ∃ field, (cmakeField inspect e).run s = (.ok field, s) ∧ IsField field := by
  obtain ⟨text, htext⟩ : ∃ text, (cmakeSerialize inspect e.2).run s = (.ok text, s) :=
    cmakeSerialize_run he s
  refine ⟨"set(" ++ e.1.toS ++ " " ++ text ++ ")", ?_, e.1.toS ++ " " ++ text, ?_⟩
  · unfold cmakeField
    rw [Program.run_bind_ok htext]
    rfl
  · simp only [String.append_assoc]

theorem exists_fields {entries : List (Key × RValue)} (h : ∀ e ∈ entries, e.2.Flat) (s : BuildState) :
    ∃ fields, Fields inspect s entries fields := by
  induction entries with
  | nil => exact ⟨[], List.Forall₂.nil⟩
  | cons e entries ih =>
      rw [List.forall_mem_cons] at h
      obtain ⟨fields, hfields⟩ := ih h.2
      obtain ⟨field, hfield⟩ : ∃ field, (cmakeField inspect e).run s = (.ok field, s) ∧ IsField field :=
        cmakeField_run h.1 s
      exact ⟨field :: fields, List.Forall₂.cons hfield hfields⟩

theorem cmakeEscape_leaves (quote : Bool) (v : RValue) : Program.Leaves id (cmakeEscape quote v) := by
  cases v with
  | string text => exact Program.Leaves.pure _
  | symbol text | pathname text | numeric text | nil | bool b | array elements | hash id
  | other result => exact Program.Leaves.throw _

theorem cmakeEscape_mapM_leaves (elements : List RValue) :
    Program.Leaves id (elements.mapM (cmakeEscape true)) := by
  induction elements with
  | nil => exact Program.Leaves.pure _
  | cons e elements ih =>
      rw [List.mapM_cons]
      refine (cmakeEscape_leaves true e).bind fun text => ?_
      exact ih.bind fun texts => Program.Leaves.pure _

theorem cmakeSerializeArray_leaves (elements : List RValue) :
    Program.Leaves id (cmakeSerializeArray elements) :=
  Program.Leaves.ite (Program.Leaves.pure _) (Program.Leaves.throw _)

theorem cmakeSerialize_leaves (v : RValue) : Program.Leaves id (cmakeSerialize inspect v) := by
  refine Program.Leaves.get.bind fun s => ?_
  cases v with
  | array elements =>
      refine (cmakeSerializeArray_leaves elements).bind fun array => ?_
      exact (cmakeEscape_mapM_leaves array).bind fun _ => Program.Leaves.pure _
  | string text | symbol text | pathname text => exact cmakeEscape_leaves true _
  | numeric text | nil => exact Program.Leaves.pure _
  | bool b => cases b <;> exact Program.Leaves.pure _
  | hash id | other result => exact Program.Leaves.throw _

/-- A field that has been made is one, and making it has changed nothing. -/
theorem isField_of_run {e : Key × RValue} {s t : BuildState} {field : String}
    (h : (cmakeField inspect e).run s = (.ok field, t)) : t = s ∧ IsField field := by
  obtain ⟨text, u, htext, hpure⟩ := Program.run_bind_cases h
  cases hpure
  have hsame : ((cmakeSerialize inspect e.2).run s).2 = s := cmakeSerialize_leaves e.2 s
  rw [htext] at hsame
  exact ⟨hsame, e.1.toS ++ " " ++ text, by simp only [String.append_assoc]⟩

/-! ## The two modes -/

/-- One more field is added to the text. -/
def addField (memo field : String) : String := (if memo.isEmpty then memo else memo ++ "\n") ++ field

/-- The lines of the fields. -/
def lines (fields : List String) : List UInt8 := fields.flatMap fun field => utf8 (field ++ "\n")

/-- What the file should hold for some text. -/
def fileText (text : String) : List UInt8 := if text.isEmpty then [] else utf8 (text ++ "\n")

theorem utf8_append (text text' : String) : utf8 (text ++ text') = utf8 text ++ utf8 text' := by
  simp [utf8]

theorem fileText_of_ne {text : String} (h : text.isEmpty = false) :
    fileText text = utf8 (text ++ "\n") := by
  simp [fileText, h]

theorem foldlM_addField {s : BuildState} {entries : List (Key × RValue)} {fields : List String}
    (h : Fields inspect s entries fields) (memo : String) :
    (entries.foldlM (fun (memo : String) e => do
      let obj ← cmakeField inspect e
      return (if memo.isEmpty then memo else memo ++ "\n") ++ obj) memo).run s =
      (.ok (fields.foldl addField memo), s) := by
  induction h generalizing memo with
  | nil => rfl
  | cons hfield _ ih =>
      rw [List.foldlM_cons, bind_assoc, Program.run_bind_ok hfield.1, pure_bind]
      exact ih _

/-- Where a text has been made, every field of it has been. -/
theorem exists_fields_of_run {s t : BuildState} {entries : List (Key × RValue)} {memo text : String}
    (h : (entries.foldlM (fun (memo : String) e => do
      let obj ← cmakeField inspect e
      return (if memo.isEmpty then memo else memo ++ "\n") ++ obj) memo).run s = (.ok text, t)) :
    ∃ fields, Fields inspect s entries fields := by
  induction entries generalizing memo with
  | nil => exact ⟨[], List.Forall₂.nil⟩
  | cons e entries ih =>
      rw [List.foldlM_cons, bind_assoc] at h
      obtain ⟨field, u, hfield, hrest⟩ := Program.run_bind_cases h
      obtain ⟨rfl, his⟩ := isField_of_run hfield
      rw [pure_bind] at hrest
      obtain ⟨fields, hfields⟩ := ih hrest
      exact ⟨field :: fields, List.Forall₂.cons ⟨hfield, his⟩ hfields⟩

/-- The text that has been begun, and the lines that are still to come. -/
theorem fileText_foldl {fields : List String} (h : ∀ field ∈ fields, IsField field) {memo : String}
    (hmemo : memo.isEmpty = false) :
    fileText (fields.foldl addField memo) = utf8 (memo ++ "\n") ++ lines fields := by
  induction fields generalizing memo with
  | nil => simp [fileText_of_ne hmemo, lines]
  | cons field fields ih =>
      rw [List.forall_mem_cons] at h
      have hadd : addField memo field = memo ++ "\n" ++ field := by simp [addField, hmemo]
      have hne : (memo ++ "\n" ++ field).isEmpty = false := by
        simp [String.append_eq_empty_iff]
      rw [List.foldl_cons, hadd, ih h.2 hne, lines, lines, List.flatMap_cons]
      simp only [utf8_append, List.append_assoc]

/-- **The text** has the lines of the fields in it. -/
theorem fileText_eq_lines {fields : List String} (h : ∀ field ∈ fields, IsField field) :
    fileText (fields.foldl addField "") = lines fields := by
  cases fields with
  | nil => rfl
  | cons field fields =>
      rw [List.forall_mem_cons] at h
      have hadd : addField "" field = field := by simp [addField]
      rw [List.foldl_cons, hadd, fileText_foldl h.2 h.1.ne_empty, lines, lines, List.flatMap_cons]

/-- So much has been written over what was there. -/
def writing (b : BuildState) (old written : List UInt8) : OutputState where
  build := b
  content := some (written ++ old.drop written.length)
  position := some written.length

theorem puts_run {b : BuildState} {old written : List UInt8} {text : String}
    (h : text.toList.getLast? ≠ some '\n') :
    (puts text).run (writing b old written) =
      (.ok (), writing b old (written ++ utf8 (text ++ "\n"))) := by
  rw [puts, if_neg h, writeBytes, Program.run_modify]
  simp [writing, overwrite, List.drop_append]

theorem onBuild_run {α : Type} {x : Build α} {s : OutputState} {a : α}
    (h : x.run s.build = (.ok a, s.build)) : (onBuild x).run s = (.ok a, s) := by
  show ((x.run s.build).1, { s with build := (x.run s.build).2 }) = _
  rw [h]

theorem forM_puts {b : BuildState} {entries : List (Key × RValue)} {fields : List String}
    (h : Fields inspect b entries fields) (old written : List UInt8) :
    (entries.forM fun e => do
      let field ← onBuild (cmakeField inspect e)
      puts field).run (writing b old written) =
      (.ok (), writing b old (written ++ lines fields)) := by
  induction h generalizing written with
  | nil => simp [lines]; rfl
  | @cons e field entries fields hfield _ ih =>
      have hwrite : (do
          let field ← onBuild (cmakeField inspect e)
          puts field : Output Unit).run (writing b old written) =
          (.ok (), writing b old (written ++ utf8 (field ++ "\n"))) := by
        rw [Program.run_bind_ok (onBuild_run (s := writing b old written) hfield.1),
          puts_run hfield.2.getLast?_ne]
      refine (Program.run_bind_ok hwrite).trans ?_
      rw [ih, lines, lines, List.flatMap_cons, List.append_assoc]

/-- When flattening has returned and the fields can be made, all of them are written. -/
theorem cmakeGenerateTo_run {fuel : Nat} {data : HashId} {s : OutputState} {entries : Entries}
    {b : BuildState} {fields : List String}
    (h : (cmakeFlattenHash inspect fuel data).run s.build = (.ok entries, b))
    (hfields : Fields inspect b entries.entries fields) :
    (cmakeGenerateTo inspect fuel data).run s =
      (.ok (), writing b (s.content.getD []) (lines fields)) := by
  have hbuild : (onBuild (cmakeFlattenHash inspect fuel data)).run s =
      (.ok entries, { s with build := b }) := by
    show (_, _) = _
    rw [h]
  rw [cmakeGenerateTo, Program.run_bind_ok hbuild]
  have hopen : openFile.run { s with build := b } = (.ok (), writing b (s.content.getD []) []) := by
    simp [openFile, Program.run_modify, writing]
  rw [Program.run_bind_ok hopen, forM_puts hfields, List.nil_append]

/-- A version, which prints as a string, and a range that is not recognized. -/
def unrecognized : RHeap :=
  [{ entries := ⟨[(.symbol "versions", .array [.other (.string "1.0")]),
      (.symbol "range", .other (.string "1..2"))], by decide⟩ }]

/-- An array of something whose `to_s` returns an array. -/
def unprintable : RHeap :=
  [{ entries := ⟨[(.symbol "a", .array [.other (.array [])])], by decide⟩ }]

/-- Writing over something leaves exactly what is written if it is long enough. -/
theorem append_drop_eq_iff (old new : List UInt8) :
    new ++ old.drop new.length = new ↔ old.length ≤ new.length := by
  rw [← List.drop_eq_nil_iff]
  simp

/-- **The two output modes.**  Of data for which a call without a path returns some
text, a call with a path writes every field; the file holds that text and a line feed
afterwards, and nothing else, if and only if it was not longer before. -/
theorem file_eq_text_iff (inspect : RHeap → RValue → String) (fuel : Nat) (heap : RHeap)
    (data : HashId) (text : String) (old : Option (List UInt8))
    (htext : (generate inspect fuel heap data).1 = .ok text) :
    ∃ s, (cmakeGenerateTo inspect fuel data).run { build := { hashes := heap }, content := old } =
        (.ok (), s) ∧
      (s.content = some (fileText text) ↔ (old.getD []).length ≤ (fileText text).length) := by
  rcases hflatten : (cmakeFlattenHash inspect fuel data).run { hashes := heap } with ⟨r, b⟩
  cases r with
  | error e =>
      rw [generate, cmakeGenerate, Program.run_bind_error hflatten] at htext
      cases htext
  | ok entries =>
      rw [generate, cmakeGenerate, Program.run_bind_ok hflatten] at htext
      obtain ⟨fields, hfields⟩ : ∃ fields, Fields inspect b entries.entries fields := by
        refine exists_fields_of_run (t := _) (Prod.ext htext rfl)
      refine ⟨_, cmakeGenerateTo_run
        (s := { build := { hashes := heap }, content := old }) hflatten hfields, ?_⟩
      rw [foldlM_addField hfields] at htext
      cases htext
      rw [fileText_eq_lines hfields.isField, ← append_drop_eq_iff]
      simp [writing]

end Fields

/-- A file that was not there. -/
theorem file_eq_text_new :
    ∃ s, (cmakeGenerateTo (fun _ _ => "") 3 0).run
        { build := { hashes := [{ entries := ⟨[(.symbol "a", .string "x")], by decide⟩ }] }
          content := none } = (.ok (), s) ∧
      s.content = some (fileText "set(a \"x\")") := by
  obtain ⟨s, hrun, hiff⟩ := file_eq_text_iff (fun _ _ => "") 3
    [{ entries := ⟨[(.symbol "a", .string "x")], by decide⟩ }] 0 "set(a \"x\")" none
    (by decide +kernel)
  exact ⟨s, hrun, hiff.2 (Nat.zero_le _)⟩

/-- A longer file keeps its end. -/
theorem not_file_eq_text_longer :
    ¬ ∀ (inspect : RHeap → RValue → String) (fuel : Nat) (heap : RHeap) (data : HashId) (text : String)
      (old : Option (List UInt8)), (generate inspect fuel heap data).1 = .ok text →
        ((cmakeGenerateTo inspect fuel data).run
          { build := { hashes := heap }, content := old }).2.content = some (fileText text) := by
  intro hall
  have hcontent := hall (fun _ _ => "") 3 [{ entries := ⟨[(.symbol "a", .string "x")], by decide⟩ }] 0
    "set(a \"x\")" (some (utf8 "set(a \"long\")\n")) (by decide +kernel)
  exact absurd hcontent (by decide +kernel)

end RuBLE.CMake
