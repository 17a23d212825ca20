import Mathlib
import RuBLE.Build.CMakeFile
import RuBLE.Build.CMakeQuoting
import RuBLE.Build.CMakeResult
import RuBLE.Library.CMakeCommands

/-!
# From the build data to the variables of CMake

`write_build_config`, which removes the file before it is written, and what CMake has
in its variables when it has included that file.

* `writeBuildConfig` — the method, of some data.
* `RValue.words` — the arguments that a leaf is written as.
* `Settable` — the leaves that `set` can store.
* `cmakeField_reads` — a field, and the assignment it is read as.
* `build_config_read_back` — **from nested hashes to variables**: each leaf is the
  value of the variable that its path names, and no other variable is changed.
-/

namespace RuBLE.CMake

open Transition CMakeLanguage

/-! ## Writing the file -/

/-- `unlink`. -/
def unlink : Output Unit := Program.modify fun s => { s with content := none, position := none }

/-- `write_build_config`, of the data. -/
def writeBuildConfig (inspect : RHeap → RValue → String) (fuel : Nat) (data : HashId) : Output Unit := do
  let s ← Program.get
  Program.when (s.content.isSome = true) unlink
  cmakeGenerateTo inspect fuel data

/-! ## Leaves and variables -/

/-- What an element of an array reads, when it is no array or hash. -/
def RValue.word : RValue → String
  | string text | symbol text | pathname text | numeric text => text
  | nil | array _ | hash _ => ""
  | bool true => "true"
  | bool false => "false"
  | other result => result.word

/-- The arguments that a leaf is written as. -/
def RValue.words : RValue → List String
  | array elements => elements.map word
  | string text | symbol text | pathname text | numeric text => [text]
  | nil => ["NULL"]
  | bool true => ["ON"]
  | bool false => ["OFF"]
  | hash _ | other _ => []

/-- A word that is one argument without quotes. -/
def Unquoted (word : String) : Prop := word ≠ "" ∧ ∀ c ∈ word.toList, ordinary c = true

/-- The assignment of a leaf to the variable that its path names. -/
def assignment (e : Key × RValue) : List Char × List (List Char) :=
  (e.1.toS.toList, e.2.words.map String.toList)

/-- A leaf that `set` can store: its path and its numbers need no quotes, its texts have
no null character or line ending of two characters in them, and `set` takes none of
them for an option. -/
structure Settable (path : Key) (v : RValue) : Prop where
  name : Unquoted path.toS
  number : ∀ text, v = .numeric text → Unquoted text
  no_null : ∀ word ∈ v.words, '\x00' ∉ word.toList
  no_returns : ∀ word ∈ v.words, NoReturns word.toList
  no_options : hasOptions (assignment (path, v)).2 = false

section Words

variable {inspect : RHeap → RValue → String} {v u : RValue} {path : Key}

theorem words_of_normalised (h : Normalised inspect v u) (hv : v.Plain) (hleaf : v.isHash = false) :
    u.words = v.words := by
  obtain ⟨hashes, rfl⟩ := h
  cases v with
  | array elements =>
      simp only [stringify, RValue.words, List.map_map]
      refine List.map_congr_left fun e he => ?_
      obtain ⟨harray, hhash⟩ := hv elements rfl e he
      cases e with
      | array elements => cases harray
      | hash id => cases hhash
      | bool b => cases b <;> rfl
      | string text | symbol text | pathname text | numeric text | nil | other result => rfl
  | hash id => cases hleaf
  | string text | symbol text | pathname text | numeric text | nil | bool b | other result => rfl

theorem Settable.of_normalised (hset : Settable path v) (h : Normalised inspect v u) (hv : v.Plain)
    (hleaf : v.isHash = false) : Settable path u := by
  have hwords := words_of_normalised h hv hleaf
  obtain ⟨hashes, rfl⟩ := h
  refine ⟨hset.name, fun text htext => ?_, ?_, ?_, ?_⟩
  · cases v with
    | numeric text' => exact hset.number text htext
    | string text' | symbol text' | pathname text' | array elements | nil | bool b | hash id
    | other text' => cases htext
  · rw [hwords]
    exact hset.no_null
  · rw [hwords]
    exact hset.no_returns
  · rw [assignment, hwords]
    exact hset.no_options

end Words

/-! ## Clean text -/

section Clean

variable {word : String} {text : List Char}

theorem Unquoted.argument (h : Unquoted word) : Argument word.toList word.toList :=
  argument_word (by simpa using h.1) h.2

theorem ordinary_clean {c : Char} (h : ordinary c = true) : c ≠ '\x00' ∧ c ≠ '\n' := by
  constructor
  · rintro rfl
    exact absurd h (by decide)
  · rintro rfl
    exact absurd h (by decide)

theorem clean_of_forall (h : ∀ c ∈ text, c ≠ '\x00' ∧ c ≠ '\n') : Clean text where
  no_null hmem := (h _ hmem).1 rfl
  no_returns := by
    induction text with
    | nil => exact .nil
    | cons c text ih =>
        rw [List.forall_mem_cons] at h
        exact List.isChain_cons.2 ⟨fun c' hc' hreturn =>
          (h.2 c' (List.mem_of_mem_head? hc')).2 hreturn.2, ih h.2⟩
  head hhead := (h _ (List.mem_of_mem_head? hhead)).2 rfl

theorem Unquoted.clean (h : Unquoted word) : Clean word.toList :=
  clean_of_forall fun c hc => ordinary_clean (h.2 c hc)

theorem head_escaped (h : (text.flatMap escapeChar).head? = some '\n') : text.head? = some '\n' := by
  cases text with
  | nil => cases h
  | cons c text =>
      by_cases hc : c = '\\' ∨ c = '"' ∨ c = '$'
      · simp [escapeChar, hc] at h
      · simpa [escapeChar, hc] using h

/-- Escaping brings no carriage return before a line feed. -/
theorem noReturns_escaped (h : NoReturns text) : NoReturns (text.flatMap escapeChar) := by
  induction text with
  | nil => exact h
  | cons c text ih =>
      have htail := ih h.of_cons
      have hnext : ∀ c' ∈ (text.flatMap escapeChar).head?, ¬ (c = '\r' ∧ c' = '\n') := by
        rintro c' hc' ⟨rfl, rfl⟩
        obtain ⟨text, rfl⟩ := List.head?_eq_some_iff.1 (head_escaped hc')
        exact (List.isChain_cons_cons.1 h).1 ⟨rfl, rfl⟩
      have hcons : NoReturns (c :: text.flatMap escapeChar) := List.isChain_cons.2 ⟨hnext, htail⟩
      by_cases hc : c = '\\' ∨ c = '"' ∨ c = '$'
      · rw [List.flatMap_cons, escapeChar, if_pos hc]
        exact List.isChain_cons_cons.2 ⟨by simp, hcons⟩
      · rw [List.flatMap_cons, escapeChar, if_neg hc]
        exact hcons

theorem clean_quoted (hnull : '\x00' ∉ word.toList) (hreturns : NoReturns word.toList) :
    Clean (quoted word).toList := by
  have hbody : NoReturns ('"' :: word.toList.flatMap escapeChar) :=
    List.isChain_cons.2 ⟨by simp, noReturns_escaped hreturns⟩
  rw [toList_quoted]
  refine ⟨?_, hbody.append (List.isChain_singleton _) (by simp), by simp⟩
  have hescape : ∀ c, '\x00' ∈ escapeChar c → c = '\x00' := by
    intro c hc
    unfold escapeChar at hc
    split at hc <;> simp_all [eq_comm]
  intro hmem
  have hword : '\x00' ∈ word.toList.flatMap escapeChar := by simpa using hmem
  obtain ⟨c, hc, hmem'⟩ := List.mem_flatMap.1 hword
  exact hnull (hescape c hmem' ▸ hc)

theorem clean_intercalate {texts : List (List Char)} (h : ∀ text ∈ texts, Clean text) :
    Clean ([' '].intercalate texts) := by
  induction texts with
  | nil => exact clean_of_forall (by simp)
  | cons text texts ih =>
      rw [List.forall_mem_cons] at h
      cases texts with
      | nil => simpa using h.1
      | cons text' texts =>
          have hspace : Clean [' '] := clean_of_forall (by simp)
          simpa [List.intercalate, List.intersperse] using h.1.append (hspace.append (ih h.2))

end Clean

/-! ## Fields -/

section Fields

variable {inspect : RHeap → RValue → String} {path : Key} {u : RValue} {s : BuildState}

/-- The text of a value, as arguments. -/
theorem cmakeSerialize_reads (hflat : u.Flat) (hset : Settable path u) (s : BuildState) :
    ∃ text, (cmakeSerialize inspect u).run s = (.ok text, s) ∧
      Row text.toList (u.words.map String.toList) ∧ Clean text.toList := by
  have hone : ∀ text word : String, Argument text.toList word.toList →
      Row text.toList ([word].map String.toList) := by
    intro text word harg
    have hrow := Row.argument harg (.inl rfl) .nil
    simpa using hrow
  have hliteral : ∀ word : String, Unquoted word →
      Row word.toList ([word].map String.toList) ∧ Clean word.toList :=
    fun word h => ⟨hone word word h.argument, h.clean⟩
  cases u with
  | array elements =>
      obtain ⟨texts, rfl⟩ : elements ∈ Set.range (List.map RValue.string) := by
        rw [Set.range_list_map]
        exact fun e he => (hflat e he).imp fun _ h => h.symm
      have hwords : (RValue.array (texts.map .string)).words = texts := by
        simp [RValue.words, Function.comp_def, RValue.word]
      refine ⟨_, cmakeSerialize_array_run inspect texts s, ?_⟩
      rw [String.toList_intercalate, hwords]
      refine ⟨row_intercalate ?_, clean_intercalate ?_⟩
      · rw [List.map_map, List.forall₂_map_left_iff, List.forall₂_map_right_iff, List.forall₂_same]
        exact fun text _ => (quotes_quoted text).argument
      · intro text htext
        obtain ⟨_, hmem, rfl⟩ := List.mem_map.1 htext
        obtain ⟨word, hword, rfl⟩ := List.mem_map.1 hmem
        rw [← hwords] at hword
        exact clean_quoted (hset.no_null word hword) (hset.no_returns word hword)
  | string text =>
      have hmem : text ∈ (RValue.string text).words := List.mem_cons_self
      exact ⟨quoted text, rfl, hone _ _ (quotes_quoted text).argument,
        clean_quoted (hset.no_null text hmem) (hset.no_returns text hmem)⟩
  | numeric text => exact ⟨text, rfl, hliteral text (hset.number text rfl)⟩
  | nil => exact ⟨"NULL", rfl, hliteral "NULL" ⟨by decide, List.all_eq_true.1 rfl⟩⟩
  | bool b =>
      cases b with
      | true => exact ⟨"ON", rfl, hliteral "ON" ⟨by decide, List.all_eq_true.1 rfl⟩⟩
      | false => exact ⟨"OFF", rfl, hliteral "OFF" ⟨by decide, List.all_eq_true.1 rfl⟩⟩
  | symbol text | pathname text | hash id | other result => exact hflat.elim

/-- **A field** is read as the assignment of its value. -/
theorem cmakeField_reads (inspect : RHeap → RValue → String) (hflat : u.Flat) (hset : Settable path u)
    (s : BuildState) : ∃ field, (cmakeField inspect (path, u)).run s = (.ok field, s) ∧
      SetLine (field ++ "\n").toList (assignment (path, u)) ∧ Clean (field ++ "\n").toList := by
  obtain ⟨text, hrun, hrow, hclean⟩ : ∃ text, (cmakeSerialize inspect u).run s = (.ok text, s) ∧
      Row text.toList (u.words.map String.toList) ∧ Clean text.toList := cmakeSerialize_reads hflat hset s
  refine ⟨"set(" ++ path.toS ++ " " ++ text ++ ")", ?_, ⟨path.toS.toList ++ ' ' :: text.toList, ?_, ?_,
    hset.no_options⟩, ?_⟩
  · unfold cmakeField
    rw [Program.run_bind_ok hrun]
    rfl
  · simp
  · exact .argument hset.name.argument (.inr rfl) (.blank rfl hrow)
  · have hopen : Clean "set(".toList := clean_of_forall (by simp)
    have hspace : Clean " ".toList := clean_of_forall (by simp)
    have hend : Clean ")\n".toList := by
      refine ⟨by decide, ?_, by decide⟩
      exact List.isChain_cons_cons.2 ⟨by decide, List.isChain_singleton _⟩
    have hline := ((hopen.append hset.name.clean).append hspace).append (hclean.append hend)
    simpa using hline

end Fields

/-! ## The file and the variables -/

section Main

variable {inspect : RHeap → RValue → String} {heap : RHeap} {data : HashId}

/-- The file is written as if it had not been there. -/
theorem writeBuildConfig_run (fuel : Nat) (old : Option (List UInt8)) :
    (writeBuildConfig inspect fuel data).run { build := { hashes := heap }, content := old } =
      (cmakeGenerateTo inspect fuel data).run { build := { hashes := heap }, content := none } := by
  cases old <;> rfl

/-- The lines of the fields, and the assignments they are read as. -/
theorem fields_read {s : BuildState} {entries : List (Key × RValue)} {fields : List String}
    (h : Fields inspect s entries fields) (hflat : ∀ e ∈ entries, e.2.Flat)
    (hset : ∀ e ∈ entries, Settable e.1 e.2) :
    List.Forall₂ SetLine (fields.map fun field => (field ++ "\n").toList) (entries.map assignment) ∧
      ∀ field ∈ fields, Clean (field ++ "\n").toList := by
  induction h with
  | nil => exact ⟨.nil, by simp⟩
  | @cons e field entries fields hfield _ ih =>
      rw [List.forall_mem_cons] at hflat hset
      obtain ⟨hlines, hclean⟩ := ih hflat.2 hset.2
      obtain ⟨field', hrun, hline, hclean'⟩ := cmakeField_reads inspect hflat.1 hset.1 s
      obtain rfl : field = field' := Except.ok.inj (congrArg Prod.fst (hfield.1.symm.trans hrun))
      exact ⟨.cons hline hlines, List.forall_mem_cons.2 ⟨hclean', hclean⟩⟩

/-- The names of what is returned differ. -/
theorem nodup_names {r : Entries} (h : ∀ e ∈ r, ∃ text, e.1 = .string text) :
    ((r.entries.map assignment).map (·.1)).Nodup := by
  rw [List.map_map]
  refine List.Nodup.map_on (fun e he e' he' heq => ?_) (List.Nodup.of_map _ r.nodup)
  obtain ⟨text, htext⟩ := h e he
  obtain ⟨text', htext'⟩ := h e' he'
  have hname : e.1 = e'.1 := by
    simp only [Function.comp_apply, assignment, htext, htext', Key.toS, String.toList_inj] at heq
    rw [htext, htext', heq]
  exact Prod.ext hname (OrderedHash.value_unique (k := e.1) he (hname ▸ he'))

/-- The text of the lines. -/
def linesText (fields : List String) : List Char :=
  (fields.map fun field => (field ++ "\n").toList).flatten

theorem lines_eq_utf8 (fields : List String) : lines fields = utf8 (String.ofList (linesText fields)) := by
  rw [utf8, String.toList_ofList, linesText]
  induction fields with
  | nil => rfl
  | cons field fields ih =>
      rw [lines, List.flatMap_cons, ← lines, ih]
      simp only [List.map_cons, List.flatten_cons, List.flatMap_append, utf8]

/-- **From nested hashes to variables.**  Where flattening is nowhere stuck and the leaves
that take the paths can be stored, the file is written, whatever it held before; CMake
reads it to its end, and then the variable of each path has the value of the leaf that
takes it, and no other variable has changed. -/
theorem build_config_read_back (inspect : RHeap → RValue → String) (hacc : Acceptable heap data)
    (hfree : ¬ Jams heap ∅ data)
    (hset : ∀ path v, Wins heap ∅ data path v → v.Plain ∧ Settable path v) :
    ∃ N, ∀ fuel, N ≤ fuel → ∀ old, ∃ s text,
      (writeBuildConfig inspect fuel data).run { build := { hashes := heap }, content := old } =
        (.ok (), s) ∧ s.content = some (utf8 text) ∧
      ∀ vars, ∃ vars', readFile vars text.toList = some vars' ∧
        (∀ path v, Wins heap ∅ data path v →
          vars' path.toS.toList = assigned (v.words.map String.toList)) ∧
        ∀ name, (∀ path v, Wins heap ∅ data path v → path.toS.toList ≠ name) →
          vars' name = vars name := by
  obtain ⟨N, hN⟩ := exists_run inspect hacc hfree
  refine ⟨N, fun fuel hfuel old => ?_⟩
  obtain ⟨r, b, hrun⟩ := hN fuel hfuel
  obtain ⟨hresult, -⟩ := result_of_run hacc hrun
  obtain ⟨fields, hfields⟩ : ∃ fields, Fields inspect b r.entries fields :=
    exists_fields hresult.flat b
  have hwrite := cmakeGenerateTo_run
    (s := { build := { hashes := heap }, content := none }) hrun hfields
  -- every entry is a leaf that has been made flat
  have hentry : ∀ e ∈ r.entries, Settable e.1 e.2 := by
    rintro ⟨path, u⟩ hu
    obtain ⟨v, hwins, hnormal⟩ := hresult.sound path u hu
    obtain ⟨ks, hleaf, -⟩ := hwins.visible.leafAt
    obtain ⟨hplain, hsettable⟩ := hset path v hwins
    exact hsettable.of_normalised hnormal hplain hleaf.isHash_eq_false
  obtain ⟨hlines, hclean⟩ := fields_read hfields hresult.flat hentry
  refine ⟨writing b [] (lines fields), String.ofList (linesText fields), ?_, ?_,
    fun vars => ⟨(r.entries.map assignment).foldl assign vars, ?_, ?_, ?_⟩⟩
  · rw [writeBuildConfig_run]
    exact hwrite
  · simp [writing, lines_eq_utf8]
  · rw [String.toList_ofList]
    exact readFile_lines hlines (by simpa using hclean) vars
  · intro path v hwins
    obtain ⟨u, hu, hnormal⟩ := hresult.wins path v hwins
    obtain ⟨ks, hleaf, -⟩ := hwins.visible.leafAt
    have hwords := words_of_normalised hnormal (hset path v hwins).1 hleaf.isHash_eq_false
    rw [← hwords]
    exact foldl_assign_of_mem (nodup_names hresult.strings)
      (List.mem_map.2 ⟨(path, u), hu, rfl⟩) vars
  · intro name hname
    refine foldl_assign_of_not_mem ?_ vars
    rw [List.map_map, List.mem_map]
    rintro ⟨⟨path, u⟩, hu, rfl⟩
    obtain ⟨v, hwins, -⟩ := hresult.sound path u hu
    exact hname path v hwins rfl

/-- An array and a path, of two hashes, over an older file. -/
theorem build_config_read_back_twoHashes :
    ∃ N, ∀ fuel, N ≤ fuel → ∀ old, ∃ s text,
      (writeBuildConfig (fun _ _ => "") fuel 0).run
        { build := { hashes := twoHashes }, content := old } = (.ok (), s) ∧
      s.content = some (utf8 text) ∧
      ∀ vars, ∃ vars', readFile vars text.toList = some vars' ∧
        (∀ path v, Wins twoHashes ∅ 0 path v →
          vars' path.toS.toList = assigned (v.words.map String.toList)) ∧
        ∀ name, (∀ path v, Wins twoHashes ∅ 0 path v → path.toS.toList ≠ name) →
          vars' name = vars name := by
  refine build_config_read_back (fun _ _ => "")
    (acceptable_of_ordered (by decide +kernel) (by decide))
    (fun hjams => hjams.not_distinct distinct_twoHashes) fun path v hwins => ?_
  obtain ⟨ks, hleaf, rfl⟩ := hwins.visible.leafAt
  rcases leafAt_twoHashes hleaf with ⟨rfl, rfl⟩ | ⟨rfl, rfl⟩
  · refine ⟨?_, ⟨by decide, List.all_eq_true.1 rfl⟩, ?_, ?_, ?_, by decide⟩
    · rintro _ ⟨⟩ e he
      rcases List.mem_pair.1 he with rfl | rfl <;> exact ⟨rfl, rfl⟩
    · rintro _ ⟨⟩
    · decide
    · simp [RValue.words, RValue.word, NoReturns]
  · refine ⟨?_, ⟨by decide, List.all_eq_true.1 rfl⟩, ?_, ?_, ?_, by decide⟩
    · rintro _ ⟨⟩
    · rintro _ ⟨⟩
    · decide
    · simp [RValue.words, NoReturns]

end Main

end RuBLE.CMake
