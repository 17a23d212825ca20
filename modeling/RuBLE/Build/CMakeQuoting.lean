import Mathlib
import RuBLE.Build.CMake
import RuBLE.Library.CMakeLanguage

/-!
# Reading back what is written

What CMake reads in the text of a value: `cmake_escape` is undone by it, and an
array comes back as the elements of a list unless one of them has something in it
that lists give a meaning to.

* `cmakeEscape_round_trip` — **quoting** loses nothing.
* `readVariable` — the list that CMake reads from a variable set to some text.
* `list_survives_iff` — **lists**, and the arrays for which they come back.
-/

namespace RuBLE.CMake

open Transition CMakeLanguage

/-! ## Quoting -/

/-- How a character is read again. -/
def elementOf (c : Char) : Element :=
  if c = '\\' ∨ c = '"' ∨ c = '$' then .escape c else .plain c

@[simp] theorem char_elementOf (c : Char) : (elementOf c).char = c := by
  unfold elementOf
  split <;> rfl

theorem readElements_plain {c : Char} (hescape : c ≠ '\\') (hquote : c ≠ '"') (cs : List Char) :
    readElements (c :: cs) = (readElements cs).map fun p => (.plain c :: p.1, p.2) := by
  rw [readElements]
  · exact hquote
  · exact fun h _ => hescape h
  · exact fun _ _ h _ => hescape h

theorem readElements_escapeChar (c : Char) (cs : List Char) :
    readElements (escapeChar c ++ cs) =
      (readElements cs).map fun p => (elementOf c :: p.1, p.2) := by
  unfold escapeChar elementOf
  by_cases h : c = '\\' ∨ c = '"' ∨ c = '$'
  · simp only [if_pos h, List.cons_append, List.nil_append]
    rw [readElements, if_pos h]
  · simp only [if_neg h, List.cons_append, List.nil_append]
    rw [not_or, not_or] at h
    exact readElements_plain h.1 h.2.1 cs

theorem readElements_escaped (text rest : List Char) :
    readElements (text.flatMap escapeChar ++ '"' :: rest) = some (text.map elementOf, rest) := by
  induction text with
  | nil => rfl
  | cons c text ih =>
      rw [List.flatMap_cons, List.append_assoc, readElements_escapeChar, ih]
      rfl

/-- Every dollar is escaped, so no reference begins. -/
theorem not_hasReference_escaped (text : List Char) : hasReference (text.map elementOf) = false := by
  induction text with
  | nil => rfl
  | cons c text ih =>
      cases text with
      | nil => rfl
      | cons c' text =>
          have hc : elementOf c ≠ .plain '$' := by
            unfold elementOf
            split
            · simp
            · next h => simp_all
          rw [List.map_cons, List.map_cons, hasReference, ← List.map_cons, ih]
          simp [hc]

/-- What is escaped and put in quotes stands for the text. -/
theorem quotes_escaped (text : List Char) :
    Quotes ('"' :: text.flatMap escapeChar ++ ['"']) text := by
  intro rest
  refine ⟨text.map elementOf, ?_, not_hasReference_escaped text, ?_⟩
  · have hread := readElements_escaped text rest
    simpa [readQuoted] using hread
  · simp [List.map_map, Function.comp_def]

/-- What `cmake_escape` returns, with the quotes. -/
def quoted (text : String) : String :=
  "\"" ++ String.ofList (text.toList.flatMap escapeChar) ++ "\""

theorem cmakeEscape_run (text : String) (s : BuildState) :
    (cmakeEscape true (.string text)).run s = (.ok (quoted text), s) := rfl

theorem toList_quoted (text : String) :
    (quoted text).toList = '"' :: text.toList.flatMap escapeChar ++ ['"'] := by
  simp [quoted]

theorem quotes_quoted (text : String) : Quotes (quoted text).toList text.toList := by
  rw [toList_quoted]
  exact quotes_escaped _

/-- **Quoting.**  What `cmake_escape` returns is read to its end as a quoted
argument, which has no variable reference in it and stands for the text. -/
theorem cmakeEscape_round_trip (text : String) (s : BuildState) :
    ∃ output, (cmakeEscape true (.string text)).run s = (.ok output, s) ∧
      ∃ es, readQuoted output.toList = some (es, []) ∧ hasReference es = false ∧
        es.map Element.char = text.toList := by
  refine ⟨quoted text, cmakeEscape_run text s, ?_⟩
  have hquotes := quotes_quoted text []
  rwa [List.append_nil] at hquotes

/-! ## Lists -/

section Lists

variable (inspect : RHeap → RValue → String)

theorem cmakeSerializeArray_run (elements : List String) (s : BuildState) :
    (cmakeSerializeArray (elements.map .string)).run s = (.ok (elements.map .string), s) := by
  have hnil : (elements.map RValue.string).filter (fun e => !e.isNil) = elements.map .string := by
    simp [List.filter_eq_self, RValue.isNil]
  have hall : (elements.map RValue.string).all (fun e => e.isStringy || e.isNumeric) = true := by
    simp [RValue.isStringy]
  unfold cmakeSerializeArray
  simp only [hnil, hall, if_true]
  rfl

theorem cmakeEscape_mapM_run (elements : List String) (s : BuildState) :
    ((elements.map RValue.string).mapM (cmakeEscape true)).run s =
      (.ok (elements.map quoted), s) := by
  induction elements with
  | nil => rfl
  | cons text elements ih =>
      rw [List.map_cons, List.mapM_cons, Program.run_bind_ok (cmakeEscape_run text s),
        Program.run_bind_ok ih]
      rfl

/-- The text of an array of strings. -/
theorem cmakeSerialize_array_run (elements : List String) (s : BuildState) :
    (cmakeSerialize inspect (.array (elements.map .string))).run s =
      (.ok (" ".intercalate (elements.map quoted)), s) := by
  have hget : (Program.get : Build BuildState).run s = (.ok s, s) := rfl
  unfold cmakeSerialize
  rw [Program.run_bind_ok hget]
  refine (Program.run_bind_ok (cmakeSerializeArray_run elements s)).trans ?_
  rw [Program.run_bind_ok (cmakeEscape_mapM_run elements s)]
  rfl

/-- The elements of the list in a variable after `set(k text)`; the backslash of an
escaped semicolon may be dropped from them. -/
def readVariable (dropping : Bool) (text : String) : Option (List (List Char)) :=
  (readArguments text.toList.length text.toList).map fun args => readList dropping (setValue args)

theorem readVariable_serialized (dropping : Bool) (elements : List String) :
    readVariable dropping (" ".intercalate (elements.map quoted)) =
      some (readList dropping (setValue (elements.map String.toList))) := by
  have hquotes : List.Forall₂ Quotes ((elements.map quoted).map String.toList)
      (elements.map String.toList) := by
    rw [List.map_map, List.forall₂_map_left_iff, List.forall₂_map_right_iff, List.forall₂_same]
    exact fun text _ => quotes_quoted text
  unfold readVariable
  rw [String.toList_intercalate]
  rw [show " ".toList = [' '] from rfl, readArguments_intercalate hquotes _ le_rfl]
  rfl

/-- **Lists.**  CMake reads the elements of the array back if and only if no
semicolon in an element stands where as many brackets have been closed as opened, or
after a backslash that is dropped, and each element but the last closes its brackets
and does not end in a backslash. -/
theorem list_survives_iff (dropping : Bool) (elements : List String) (hne : elements ≠ [])
    (s : BuildState) :
    ∃ text, (cmakeSerialize inspect (.array (elements.map .string))).run s = (.ok text, s) ∧
      (readVariable dropping text = some (elements.map String.toList) ↔
        (∀ e ∈ elements, Intact dropping 0 e.toList) ∧
          ∀ e ∈ elements.dropLast, Ended 0 e.toList) := by
  refine ⟨_, cmakeSerialize_array_run inspect elements s, ?_⟩
  have hne' : elements.map String.toList ≠ [] := by simpa using hne
  rw [readVariable_serialized, Option.some_inj, readList_setValue_iff dropping hne']
  simp only [List.forall_mem_map, ← List.map_dropLast]

end Lists

/-- Spaces, dollars and quotes make no difference. -/
theorem list_survives_paths :
    ∃ text, (cmakeSerialize (fun _ _ => "")
        (.array (["/opt/my lib", "$\"x"].map .string))).run { hashes := [] } =
          (.ok text, { hashes := [] }) ∧
      readVariable true text = some (["/opt/my lib", "$\"x"].map String.toList) := by
  obtain ⟨text, hrun, hiff⟩ :=
    list_survives_iff (fun _ _ => "") true ["/opt/my lib", "$\"x"] (by simp) { hashes := [] }
  refine ⟨text, hrun, hiff.2 ⟨?_, ?_⟩⟩
  · have hmem : ∀ e ∈ ["/opt/my lib", "$\"x"], ';' ∉ e.toList := by decide
    exact fun e he => intact_of_not_mem (hmem e he)
  · intro e he
    obtain rfl : e = "/opt/my lib" := by simpa using he
    exact ⟨by decide, by decide⟩

/-- A semicolon in the only element divides it. -/
theorem not_list_survives_semicolon :
    ¬ ∃ dropping, ∀ (inspect : RHeap → RValue → String) (elements : List String), elements ≠ [] →
      ∀ (s : BuildState) (text : String),
        (cmakeSerialize inspect (.array (elements.map .string))).run s = (.ok text, s) →
          readVariable dropping text = some (elements.map String.toList) := by
  rintro ⟨dropping, hall⟩
  have hread := hall (fun _ _ => "") ["a;b"] (by simp) { hashes := [] } _
    (cmakeSerialize_array_run _ ["a;b"] _)
  rw [readVariable_serialized] at hread
  cases dropping <;> exact absurd hread (by decide)

end RuBLE.CMake
