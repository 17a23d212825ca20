import Mathlib
import RuBLE.Library.CMakeLanguage

/-!
# Files of the CMake language that set variables

A reader for files of `set` commands, and what the variables are when such a file has
been included.  What it does not read (another command, a variable reference, a
bracket argument or comment, the options of `set`) it refuses.

* `readRow`, `readCommands` — the arguments of a command, and the commands of
  a file.
* `setVariable`, `readFile` — what `set` does, and what a file does.
* `Row`, `SetLine` — the text of the arguments, and of a command.
* `readFile_lines` — **a file of such lines** is read to its end and makes the
  assignments of its lines, one after the other.
-/

namespace CMakeLanguage

/-! ## Arguments -/

/-- What separates arguments. -/
def blank (c : Char) : Bool := decide (c ∈ [' ', '\t', '\r', '\n'])

/-- A character of an unquoted argument that stands for itself. -/
def ordinary (c : Char) : Bool :=
  !blank c && decide (c ∉ ['(', ')', '#', '"', '\\', '$', ';', '[', '\x7b', '\x7d', '\x00'])

/-- An argument has to end here. -/
def separated : List Char → Bool
  | [] => false
  | c :: _ => blank c || c == ')'

/-- An argument, quoted or not, and what follows it. -/
def readArgument : List Char → Option (List Char × List Char)
  | '"' :: cs => (readQuoted ('"' :: cs)).bind fun p => (literal p.1).map fun arg => (arg, p.2)
  | cs =>
      if cs.takeWhile ordinary = [] then none
      else some (cs.takeWhile ordinary, cs.dropWhile ordinary)

/-- The arguments up to the closing parenthesis, and what follows it. -/
def readRow : Nat → List Char → Option (List (List Char) × List Char)
  | 0, _ => none
  | _ + 1, [] => none
  | n + 1, c :: cs =>
      if c = ')' then some ([], cs)
      else if blank c then readRow n cs
      else
        (readArgument (c :: cs)).bind fun p =>
          if separated p.2 then (readRow n p.2).map fun q => (p.1 :: q.1, q.2) else none

/-! ## Commands -/

/-- A command, and its arguments. -/
structure Command where
  name : List Char
  args : List (List Char)
  deriving DecidableEq, Repr

/-- A character of the name of a command. -/
def nameChar (c : Char) : Bool := c.isAlphanum || c == '_'

/-- A command has to end here. -/
def ended : List Char → Bool
  | [] => true
  | c :: _ => c == '\n'

/-- The commands of a file. -/
def readCommands : Nat → List Char → Option (List Command)
  | 0, _ => none
  | _ + 1, [] => some []
  | n + 1, c :: cs =>
      if blank c then readCommands n cs
      else
        match (c :: cs).dropWhile nameChar with
        | '(' :: rest =>
            (readRow (rest.length + 1) rest).bind fun p =>
              if ended p.2 then
                (readCommands n p.2).map (⟨(c :: cs).takeWhile nameChar, p.1⟩ :: ·)
              else none
        | _ => none

/-! ## Variables -/

/-- The variables that are set, and what to. -/
abbrev Variables := List Char → Option (List Char)

/-- Arguments after the name of the variable that `set` takes for options:
`PARENT_SCOPE` at the end, or `CACHE`, a type and a text, and perhaps `FORCE`. -/
def hasOptions (values : List (List Char)) : Bool :=
  let force := 4 ≤ values.length ∧ values.getLast? = some "FORCE".toList
  decide (values.getLast? = some "PARENT_SCOPE".toList) ||
    decide (3 ≤ values.length ∧
      values[values.length - 3 - (if force then 1 else 0)]? = some "CACHE".toList)

/-- What a variable is after the arguments: without any it is not set. -/
def assigned (values : List (List Char)) : Option (List Char) :=
  if values = [] then none else some (setValue values)

/-- An assignment. -/
def assign (vars : Variables) (a : List Char × List (List Char)) : Variables :=
  Function.update vars a.1 (assigned a.2)

/-- `set`, without options. -/
def setVariable (vars : Variables) : List (List Char) → Option Variables
  | [] => none
  | name :: values => if hasOptions values then none else some (assign vars (name, values))

/-- A command; upper and lower case make no difference to its name. -/
def Command.run (vars : Variables) (c : Command) : Option Variables :=
  if c.name.map Char.toLower = "set".toList then setVariable vars c.args else none

/-- A carriage return before a line feed is dropped. -/
def unixLines : List Char → List Char
  | '\r' :: '\n' :: cs => '\n' :: unixLines cs
  | c :: cs => c :: unixLines cs
  | [] => []

/-- The variables after a file has been included. -/
def readFile (vars : Variables) (text : List Char) : Option Variables :=
  if '\x00' ∈ text then none
  else
    (readCommands ((unixLines text).length + 1) (unixLines text)).bind fun commands =>
      commands.foldlM Command.run vars

/-! ## Reading arguments -/

/-- The text is an argument that stands for `arg`. -/
def Argument (text arg : List Char) : Prop :=
  (∃ c cs, text = c :: cs ∧ c ≠ ')' ∧ blank c = false) ∧
    ∀ rest, separated rest = true → readArgument (text ++ rest) = some (arg, rest)

theorem Quotes.argument {text s : List Char} (h : Quotes text s) : Argument text s := by
  obtain ⟨cs, rfl⟩ : ∃ cs, text = '"' :: cs := by
    obtain ⟨es, hread, -⟩ := h []
    rw [List.append_nil] at hread
    unfold readQuoted at hread
    split at hread
    · exact ⟨_, rfl⟩
    · cases hread
  refine ⟨⟨'"', cs, rfl, by decide, by decide⟩, fun rest _ => ?_⟩
  obtain ⟨es, hread, hes, rfl⟩ := h rest
  rw [List.cons_append] at hread ⊢
  simp [readArgument, hread, literal, hes]

theorem not_ordinary_of_separated {c : Char} {cs : List Char} (h : separated (c :: cs) = true) :
    ordinary c = false := by
  simp only [separated, Bool.or_eq_true, beq_iff_eq] at h
  rcases h with h | rfl
  · simp [ordinary, h]
  · decide

theorem ordinary_ne {c : Char} (h : ordinary c = true) : c ≠ ')' ∧ c ≠ '"' ∧ blank c = false := by
  refine ⟨?_, ?_, ?_⟩
  · rintro rfl
    exact absurd h (by decide)
  · rintro rfl
    exact absurd h (by decide)
  · cases hblank : blank c with
    | false => rfl
    | true => simp [ordinary, hblank] at h

/-- A word stands for itself. -/
theorem argument_word {word : List Char} (hne : word ≠ []) (h : ∀ c ∈ word, ordinary c = true) :
    Argument word word := by
  obtain ⟨c, cs, rfl⟩ := List.exists_cons_of_ne_nil hne
  obtain ⟨hclose, hquote, hblank⟩ := ordinary_ne (h c List.mem_cons_self)
  refine ⟨⟨c, cs, rfl, hclose, hblank⟩, fun rest hrest => ?_⟩
  have htake : rest.takeWhile ordinary = [] ∧ rest.dropWhile ordinary = rest := by
    cases rest with
    | nil => exact ⟨rfl, rfl⟩
    | cons c' rest => simp [not_ordinary_of_separated hrest]
  unfold readArgument
  split
  · next heq => exact absurd (List.cons.inj heq).1 hquote
  · rw [List.takeWhile_append_of_pos h, List.dropWhile_append_of_pos h, htake.1, htake.2]
    simp

/-- The text of some arguments. -/
inductive Row : List Char → List (List Char) → Prop
  | nil : Row [] []
  | blank {c : Char} {text : List Char} {args : List (List Char)} : blank c = true → Row text args →
      Row (c :: text) args
  | argument {text rest arg : List Char} {args : List (List Char)} : Argument text arg →
      (rest = [] ∨ separated rest = true) → Row rest args → Row (text ++ rest) (arg :: args)

theorem Row.read {text : List Char} {args : List (List Char)} (h : Row text args) (rest : List Char)
    (n : Nat) (hn : text.length < n) : readRow n (text ++ ')' :: rest) = some (args, rest) := by
  induction h generalizing n with
  | nil =>
      obtain ⟨n, rfl⟩ : ∃ m, n = m + 1 := ⟨n - 1, by omega⟩
      rfl
  | @blank c text args hblank _ ih =>
      rw [List.length_cons] at hn
      obtain ⟨n, rfl⟩ : ∃ m, n = m + 1 := ⟨n - 1, by omega⟩
      have hclose : c ≠ ')' := by
        rintro rfl
        exact absurd hblank (by decide)
      rw [List.cons_append, readRow, if_neg hclose, if_pos hblank, ih n (by omega)]
  | @argument text back arg args harg hback _ ih =>
      obtain ⟨⟨c, cs, rfl, hclose, hblank⟩, hread⟩ := harg
      rw [List.length_append, List.length_cons] at hn
      obtain ⟨n, rfl⟩ : ∃ m, n = m + 1 := ⟨n - 1, by omega⟩
      have hsep : separated (back ++ ')' :: rest) = true := by
        cases back with
        | nil => rfl
        | cons c' back => exact hback.resolve_left (by simp)
      have hread' := hread _ hsep
      rw [List.append_assoc, List.cons_append] at *
      rw [readRow, if_neg hclose, hblank, if_neg (by simp), hread']
      simp [hsep, ih n (by omega)]

/-- Arguments with spaces between them. -/
theorem row_intercalate {texts args : List (List Char)} (h : List.Forall₂ Argument texts args) :
    Row ([' '].intercalate texts) args := by
  induction h with
  | nil => exact .nil
  | @cons text arg texts args harg _ ih =>
      cases texts with
      | nil =>
          cases ‹List.Forall₂ Argument [] args›
          have hrow := Row.argument harg (.inl rfl) .nil
          simpa using hrow
      | cons text' texts =>
          have hsplit : [' '].intercalate (text :: text' :: texts) =
              text ++ (' ' :: [' '].intercalate (text' :: texts)) := by
            simp [List.intercalate, List.intersperse]
          rw [hsplit]
          exact .argument harg (.inr rfl) (.blank rfl ih)

/-! ## Reading lines -/

/-- The text of a command that makes an assignment, with the end of the line. -/
def SetLine (line : List Char) (a : List Char × List (List Char)) : Prop :=
  ∃ row, line = "set(".toList ++ row ++ ")\n".toList ∧ Row row (a.1 :: a.2) ∧ hasOptions a.2 = false

/-- The command of an assignment. -/
def setCommand (a : List Char × List (List Char)) : Command := ⟨"set".toList, a.1 :: a.2⟩

theorem readCommands_lines {lines : List (List Char)} {assignments : List (List Char × List (List Char))}
    (h : List.Forall₂ SetLine lines assignments) (n : Nat) (hn : lines.flatten.length < n) :
    readCommands n lines.flatten = some (assignments.map setCommand) := by
  induction h generalizing n with
  | nil =>
      obtain ⟨n, rfl⟩ : ∃ m, n = m + 1 := ⟨n - 1, by omega⟩
      rfl
  | @cons line a lines assignments hline _ ih =>
      obtain ⟨row, rfl, hrow, -⟩ := hline
      have htext : (("set(".toList ++ row ++ ")\n".toList) :: lines).flatten =
          's' :: 'e' :: 't' :: '(' :: (row ++ ')' :: '\n' :: lines.flatten) := by
        simp
      rw [htext] at hn ⊢
      simp only [List.length_cons, List.length_append] at hn
      obtain ⟨n, rfl⟩ : ∃ m, n = m + 2 := ⟨n - 2, by omega⟩
      have hname : ∀ cs, ('s' :: 'e' :: 't' :: '(' :: cs).dropWhile nameChar = '(' :: cs ∧
          ('s' :: 'e' :: 't' :: '(' :: cs).takeWhile nameChar = "set".toList := by
        intro cs
        exact ⟨rfl, rfl⟩
      have hread := hrow.read ('\n' :: lines.flatten)
        ((row ++ ')' :: '\n' :: lines.flatten).length + 1) (by simp)
      have hnext : readCommands (n + 1) ('\n' :: lines.flatten) = some (assignments.map setCommand) := by
        rw [readCommands, if_pos (by decide), ih n (by omega)]
      rw [readCommands, if_neg (by decide), (hname _).1, (hname _).2]
      simp only [hread, Option.bind_some, ended, beq_self_eq_true, if_true, hnext, Option.map_some]
      rfl

theorem run_setCommand {a : List Char × List (List Char)} (h : hasOptions a.2 = false)
    (vars : Variables) : (setCommand a).run vars = some (assign vars a) := by
  rw [Command.run, if_pos (by rfl)]
  simp [setCommand, setVariable, h]

theorem foldlM_setCommand {assignments : List (List Char × List (List Char))}
    (h : ∀ a ∈ assignments, hasOptions a.2 = false) (vars : Variables) :
    (assignments.map setCommand).foldlM Command.run vars = some (assignments.foldl assign vars) := by
  induction assignments generalizing vars with
  | nil => rfl
  | cons a assignments ih =>
      rw [List.forall_mem_cons] at h
      rw [List.map_cons, List.foldlM_cons, run_setCommand h.1]
      exact ih h.2 _

/-- No carriage return stands before a line feed. -/
def NoReturns (text : List Char) : Prop := text.IsChain fun c c' => ¬ (c = '\r' ∧ c' = '\n')

theorem unixLines_eq_self {text : List Char} (h : NoReturns text) : unixLines text = text := by
  induction text with
  | nil => rfl
  | cons c cs ih =>
      rw [unixLines, ih h.of_cons]
      rintro cs' rfl rfl
      exact (List.isChain_cons_cons.1 h).1 ⟨rfl, rfl⟩

/-- Text that is read as it stands wherever such text stands before and after it. -/
structure Clean (text : List Char) : Prop where
  no_null : '\x00' ∉ text
  no_returns : NoReturns text
  head : text.head? ≠ some '\n'

theorem Clean.append {text text' : List Char} (h : Clean text) (h' : Clean text') :
    Clean (text ++ text') where
  no_null hmem := (List.mem_append.1 hmem).elim h.no_null h'.no_null
  no_returns := h.no_returns.append h'.no_returns fun _ _ c hc hreturn => h'.head (by rw [← hreturn.2, hc])
  head := by
    cases text with
    | nil => exact h'.head
    | cons c text => simpa using h.head

theorem Clean.flatten {texts : List (List Char)} (h : ∀ text ∈ texts, Clean text) :
    Clean texts.flatten := by
  induction texts with
  | nil => exact ⟨by simp, List.IsChain.nil, by simp⟩
  | cons text texts ih =>
      rw [List.forall_mem_cons] at h
      rw [List.flatten_cons]
      exact h.1.append (ih h.2)

/-- **A file of such lines** makes the assignments of its lines. -/
theorem readFile_lines {lines : List (List Char)} {assignments : List (List Char × List (List Char))}
    (h : List.Forall₂ SetLine lines assignments) (hclean : ∀ line ∈ lines, Clean line)
    (vars : Variables) : readFile vars lines.flatten = some (assignments.foldl assign vars) := by
  have hoptions : ∀ a ∈ assignments, hasOptions a.2 = false := by
    intro a ha
    obtain ⟨i, hi, rfl⟩ := List.getElem_of_mem ha
    obtain ⟨_, -, -, hoptions⟩ := h.get (by rw [h.length_eq]; exact hi) hi
    exact hoptions
  have hfile := Clean.flatten hclean
  rw [readFile, if_neg hfile.no_null, unixLines_eq_self hfile.no_returns,
    readCommands_lines h _ (Nat.lt_succ_self _), Option.bind_some, foldlM_setCommand hoptions]

/-! ## The variables afterwards -/

section Assignments

variable {assignments : List (List Char × List (List Char))} {name : List Char}

theorem foldl_assign_of_not_mem (h : name ∉ assignments.map (·.1)) (vars : Variables) :
    assignments.foldl assign vars name = vars name := by
  induction assignments generalizing vars with
  | nil => rfl
  | cons a assignments ih =>
      simp only [List.map_cons, List.mem_cons, not_or] at h
      rw [List.foldl_cons, ih h.2, assign, Function.update_of_ne h.1]

/-- Of variables that are assigned once, each has its value. -/
theorem foldl_assign_of_mem (hnodup : (assignments.map (·.1)).Nodup)
    {values : List (List Char)} (h : (name, values) ∈ assignments) (vars : Variables) :
    assignments.foldl assign vars name = assigned values := by
  induction assignments generalizing vars with
  | nil => cases h
  | cons a assignments ih =>
      rw [List.map_cons, List.nodup_cons] at hnodup
      rw [List.foldl_cons]
      rcases List.mem_cons.1 h with rfl | h
      · rw [foldl_assign_of_not_mem hnodup.1, assign, Function.update_self]
      · exact ih hnodup.2 h _

end Assignments

end CMakeLanguage
