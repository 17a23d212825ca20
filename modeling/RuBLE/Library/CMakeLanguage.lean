import Mathlib

/-!
# Arguments and lists of the CMake language

Quoted arguments, and the lists that variables hold.

* `readQuoted`, `readArguments` — a quoted argument, and a row of them.
* `setValue`, `readList` — the value that `set` stores for its arguments, and the
  elements of a list.
* `Intact`, `Ended` — what an element has to be like to come out of a list as it
  went in; `readList_setValue_iff` — **lists survive** if and only if their elements
  are so.
-/

namespace CMakeLanguage

/-! ## Quoted arguments -/

/-- An element of a quoted argument: a character, or an escape sequence. -/
inductive Element where
  | plain (c : Char)
  | escape (c : Char)
  deriving DecidableEq, Repr

/-- The character an element stands for. -/
def Element.char : Element → Char
  | plain c | escape c => c

/-- The elements up to the closing quote, and what follows it. -/
def readElements : List Char → Option (List Element × List Char)
  | [] => none
  | '"' :: rest => some ([], rest)
  | ['\\'] => none
  | '\\' :: c :: rest =>
      if c = '\\' ∨ c = '"' ∨ c = '$' then
        (readElements rest).map fun p => (.escape c :: p.1, p.2)
      else none
  | c :: rest => (readElements rest).map fun p => (.plain c :: p.1, p.2)

/-- A quoted argument, and what follows it. -/
def readQuoted : List Char → Option (List Element × List Char)
  | '"' :: rest => readElements rest
  | _ => none

/-- An unescaped dollar and an unescaped brace begin a variable reference. -/
def hasReference : List Element → Bool
  | [] => false
  | [_] => false
  | e :: e' :: es => decide (e = .plain '$' ∧ e' = .plain '\x7b') || hasReference (e' :: es)

/-- The text an argument without references stands for. -/
def literal (es : List Element) : Option (List Char) :=
  if hasReference es then none else some (es.map Element.char)

/-- A row of quoted arguments with spaces between them; there are at most as many
as there are characters. -/
def readArguments : Nat → List Char → Option (List (List Char))
  | _, [] => some []
  | 0, _ :: _ => none
  | n + 1, c :: cs =>
      if c = ' ' then readArguments n cs
      else
        (readQuoted (c :: cs)).bind fun p => (literal p.1).bind fun arg =>
          (readArguments n p.2).map (arg :: ·)

/-- The text is a quoted argument without references that stands for `s`, whatever
follows it. -/
def Quotes (text s : List Char) : Prop :=
  ∀ rest, ∃ es, readQuoted (text ++ rest) = some (es, rest) ∧ hasReference es = false ∧
    es.map Element.char = s

theorem Quotes.readArguments {text s rest : List Char} (h : Quotes text s) (n : Nat) :
    readArguments (n + 1) (text ++ rest) = (readArguments n rest).map (s :: ·) := by
  obtain ⟨es, hread, hes, rfl⟩ := h rest
  cases htext : text ++ rest with
  | nil =>
      rw [htext] at hread
      cases hread
  | cons c cs =>
      have hquote : c = '"' := by
        by_contra hc
        rw [htext, readQuoted] at hread
        · cases hread
        · exact fun _ h => hc (List.cons.inj h).1
      have hspace : c ≠ ' ' := by rw [hquote]; decide
      rw [CMakeLanguage.readArguments, if_neg hspace, ← htext, hread]
      simp [literal, hes]

/-- **A row of arguments** is read as what each of them stands for. -/
theorem readArguments_intercalate {texts args : List (List Char)} (h : List.Forall₂ Quotes texts args)
    (n : Nat) (hn : ([' '].intercalate texts).length ≤ n) :
    readArguments n ([' '].intercalate texts) = some args := by
  induction h generalizing n with
  | nil => cases n <;> rfl
  | @cons text arg texts args hquotes hrest ih =>
      obtain ⟨es, hread, -⟩ := hquotes []
      have hpos : 0 < text.length := by
        cases text with
        | nil => cases hread
        | cons c cs => simp
      cases texts with
      | nil =>
          cases hrest
          obtain ⟨n, rfl⟩ : ∃ m, n = m + 1 := ⟨n - 1, by simp at hn; omega⟩
          rw [show [' '].intercalate [text] = text ++ [] by simp, hquotes.readArguments]
          cases n <;> rfl
      | cons text' texts =>
          have hsplit : [' '].intercalate (text :: text' :: texts) =
              text ++ (' ' :: [' '].intercalate (text' :: texts)) := by
            simp [List.intercalate, List.intersperse]
          rw [hsplit] at hn ⊢
          simp only [List.length_append, List.length_cons] at hn
          obtain ⟨n, rfl⟩ : ∃ m, n = m + 2 := ⟨n - 2, by omega⟩
          rw [hquotes.readArguments, CMakeLanguage.readArguments, if_pos rfl, ih n (by omega)]
          rfl

/-! ## Lists -/

/-- The value that `set` stores for its arguments. -/
def setValue (args : List (List Char)) : List Char := [';'].intercalate args

/-- How a character changes the number of brackets that are open. -/
def bracket (c : Char) : Int := if c = '[' then 1 else if c = ']' then -1 else 0

/-- The number of brackets that are open after some text. -/
def nesting (cs : List Char) : Int := (cs.map bracket).sum

/-- The elements of a list, from a place on where so many brackets are open: a
semicolon divides it unless brackets are open or a backslash stands before it.
Such a backslash may be dropped from the element. -/
def splitFrom (dropping : Bool) (k : Int) : List Char → List (List Char)
  | [] => [[]]
  | '\\' :: ';' :: cs =>
      (splitFrom dropping k cs).modifyHead fun e => if dropping then ';' :: e else '\\' :: ';' :: e
  | c :: cs =>
      if c = ';' ∧ k = 0 then [] :: splitFrom dropping k cs
      else (splitFrom dropping (k + bracket c) cs).modifyHead (c :: ·)

/-- The elements of a list. -/
def readList (dropping : Bool) (value : List Char) : List (List Char) := splitFrom dropping 0 value

/-- Where so many brackets are open, no semicolon of the element divides the list,
and no backslash is dropped from it. -/
def Intact (dropping : Bool) (k : Int) (e : List Char) : Prop :=
  ∀ front back, e = front ++ ';' :: back →
    if front.getLast? = some '\\' then dropping = false else k + nesting front ≠ 0

/-- A semicolon right after the element divides the list. -/
def Ended (k : Int) (e : List Char) : Prop := k + nesting e = 0 ∧ e.getLast? ≠ some '\\'

section Split

variable {dropping : Bool} {k : Int} {c : Char} {cs e rest : List Char} {es l : List (List Char)}

@[simp] theorem nesting_nil : nesting [] = 0 := rfl

@[simp] theorem nesting_cons : nesting (c :: cs) = bracket c + nesting cs := by simp [nesting]

theorem splitFrom_ne_nil : splitFrom dropping k cs ≠ [] := by
  fun_induction splitFrom dropping k cs with
  | case1 => simp
  | case2 k cs ih => simpa using ih
  | case3 => simp
  | case4 k c cs _ _ ih => simpa using ih

theorem splitFrom_divided : splitFrom dropping 0 (';' :: cs) = [] :: splitFrom dropping 0 cs := by
  rw [splitFrom]
  · simp
  · intro cs' h
    simp at h

/-- A character that stays what it is. -/
theorem splitFrom_cons (hescape : ¬ (c = '\\' ∧ cs.head? = some ';')) (hdivide : ¬ (c = ';' ∧ k = 0)) :
    splitFrom dropping k (c :: cs) =
      (splitFrom dropping (k + bracket c) cs).modifyHead (c :: ·) := by
  rw [splitFrom, if_neg hdivide]
  rintro cs' rfl rfl
  exact hescape ⟨rfl, rfl⟩

theorem modifyHead_eq_cons_iff {f : List Char → List Char} (hl : l ≠ []) :
    l.modifyHead f = e :: es ↔ ∃ e', f e' = e ∧ l = e' :: es := by
  cases l with
  | nil => exact absurd rfl hl
  | cons e' l =>
      simp only [List.modifyHead_cons, List.cons.injEq]
      constructor
      · rintro ⟨rfl, rfl⟩
        exact ⟨e', rfl, rfl, rfl⟩
      · rintro ⟨_, rfl, rfl, rfl⟩
        exact ⟨rfl, rfl⟩

theorem intact_nil : Intact dropping k [] := by
  intro front back h
  simp at h

theorem intact_of_not_mem (h : ';' ∉ e) : Intact dropping k e := by
  rintro front back rfl
  exact absurd (by simp) h

theorem not_intact_divided : ¬ Intact dropping 0 (';' :: e) := by
  intro h
  simpa using h [] e rfl

/-- In front of an element, a character that is no backslash before a semicolon. -/
theorem intact_cons (hescape : ¬ (c = '\\' ∧ e.head? = some ';')) :
    Intact dropping k (c :: e) ↔ ¬ (c = ';' ∧ k = 0) ∧ Intact dropping (k + bracket c) e := by
  -- what comes before a semicolon further on ends as it does without `c`
  have hlast : ∀ front back, e = front ++ ';' :: back →
      ((c :: front).getLast? = some '\\' ↔ front.getLast? = some '\\') := by
    rintro front back rfl
    cases front with
    | nil => simpa using hescape
    | cons c' front => rw [List.getLast?_cons_cons]
  constructor
  · intro h
    refine ⟨?_, fun front back hfront => ?_⟩
    · rintro ⟨rfl, rfl⟩
      exact not_intact_divided h
    · have hc := h (c :: front) back (by rw [hfront, List.cons_append])
      simpa only [hlast front back hfront, nesting_cons, ← add_assoc] using hc
  · rintro ⟨hdivide, hrest⟩ front back h
    cases front with
    | nil =>
        obtain ⟨rfl, rfl⟩ := List.cons.inj h
        simpa using hdivide
    | cons c' front =>
        obtain ⟨rfl, hfront⟩ := List.cons.inj h
        have hback := hrest front back hfront
        simpa only [hlast front back hfront, nesting_cons, ← add_assoc] using hback

/-- In front of an element, a backslash and a semicolon. -/
theorem intact_escaped :
    Intact dropping k ('\\' :: ';' :: e) ↔ dropping = false ∧ Intact dropping k e := by
  have hlast : ∀ front : List Char,
      ('\\' :: ';' :: front).getLast? = some '\\' ↔ front.getLast? = some '\\' := by
    intro front
    cases front with
    | nil => simp
    | cons c' front => simp [List.getLast?_cons_cons]
  have hnesting : ∀ front, nesting ('\\' :: ';' :: front) = nesting front := by
    intro front
    simp [bracket]
  constructor
  · intro h
    refine ⟨by simpa using h ['\\'] e rfl, fun front back hfront => ?_⟩
    have hc := h ('\\' :: ';' :: front) back (by rw [hfront]; rfl)
    simpa only [hlast, hnesting] using hc
  · rintro ⟨hdropping, hrest⟩ front back h
    cases front with
    | nil => simp at h
    | cons c' front =>
        obtain ⟨rfl, htail⟩ := List.cons.inj h
        cases front with
        | nil => simpa using hdropping
        | cons c'' front =>
            obtain ⟨rfl, hfront⟩ := List.cons.inj htail
            simpa only [hlast, hnesting] using hrest front back hfront

theorem ended_cons (h : ¬ (c = '\\' ∧ e = [])) : Ended k (c :: e) ↔ Ended (k + bracket c) e := by
  have hlast : (c :: e).getLast? ≠ some '\\' ↔ e.getLast? ≠ some '\\' := by
    cases e with
    | nil => simpa using h
    | cons c' e => rw [List.getLast?_cons_cons]
  simp [Ended, hlast, add_assoc]

theorem ended_escaped : Ended k ('\\' :: ';' :: e) ↔ Ended k e := by
  rw [ended_cons (by simp), ended_cons (by simp)]
  simp [bracket]

/-- A semicolon after a backslash does not divide. -/
theorem splitFrom_escaped_eq_iff :
    splitFrom dropping k ('\\' :: ';' :: cs) = ('\\' :: ';' :: e) :: es ↔
      dropping = false ∧ splitFrom dropping k cs = e :: es := by
  rw [splitFrom, modifyHead_eq_cons_iff splitFrom_ne_nil]
  cases dropping <;> simp

theorem splitFrom_cons_eq_iff (hescape : ¬ (c = '\\' ∧ cs.head? = some ';'))
    (hdivide : ¬ (c = ';' ∧ k = 0)) :
    splitFrom dropping k (c :: cs) = (c :: e) :: es ↔
      splitFrom dropping (k + bracket c) cs = e :: es := by
  rw [splitFrom_cons hescape hdivide, modifyHead_eq_cons_iff splitFrom_ne_nil]
  simp

/-- **The first element** of a list comes out as it went in, and the rest is read
as a list of its own, if and only if the element is intact and ended. -/
theorem splitFrom_append_iff :
    splitFrom dropping k (e ++ ';' :: rest) = e :: es ↔
      Intact dropping k e ∧ Ended k e ∧ splitFrom dropping 0 rest = es := by
  induction k, e using splitFrom.induct with
  | case1 k =>
      by_cases hk : k = 0
      · subst hk
        simp [splitFrom_divided, intact_nil, Ended]
      · rw [List.nil_append, splitFrom_cons (by simp) (by simp [hk]),
          modifyHead_eq_cons_iff splitFrom_ne_nil]
        simp [Ended, hk]
  | case2 k e ih =>
      rw [List.cons_append, List.cons_append, splitFrom_escaped_eq_iff, ih, intact_escaped,
        ended_escaped, and_assoc]
  | case3 k c e hescape hdivide =>
      obtain ⟨rfl, rfl⟩ := hdivide
      rw [List.cons_append, splitFrom_divided]
      simp [not_intact_divided]
  | case4 k c e hescape hdivide ih =>
      by_cases hlast : c = '\\' ∧ e = []
      · -- the element ends in a backslash, which keeps the semicolon from dividing
        obtain ⟨rfl, rfl⟩ := hlast
        have hleft : splitFrom dropping k ('\\' :: ';' :: rest) ≠ ['\\'] :: es := by
          rw [splitFrom, Ne, modifyHead_eq_cons_iff splitFrom_ne_nil]
          cases dropping <;> simp
        refine iff_of_false hleft ?_
        rintro ⟨-, hended, -⟩
        exact hended.2 rfl
      · have hhead : ¬ (c = '\\' ∧ e.head? = some ';') := by
          rintro ⟨rfl, he⟩
          obtain ⟨e', rfl⟩ := List.head?_eq_some_iff.1 he
          exact hescape e' rfl rfl
        have hhead' : ¬ (c = '\\' ∧ (e ++ ';' :: rest).head? = some ';') := by
          rintro ⟨rfl, he⟩
          cases e with
          | nil => exact hlast ⟨rfl, rfl⟩
          | cons c' e => exact hhead ⟨rfl, by simpa using he⟩
        rw [List.cons_append, splitFrom_cons_eq_iff hhead' hdivide, ih, intact_cons hhead,
          ended_cons hlast]
        tauto

/-- The last element of a list need not be ended. -/
theorem splitFrom_singleton_iff : splitFrom dropping k e = [e] ↔ Intact dropping k e := by
  induction k, e using splitFrom.induct with
  | case1 k => exact iff_of_true rfl intact_nil
  | case2 k e ih => rw [splitFrom_escaped_eq_iff, ih, intact_escaped]
  | case3 k c e hescape hdivide =>
      obtain ⟨rfl, rfl⟩ := hdivide
      rw [splitFrom_divided]
      simp [not_intact_divided]
  | case4 k c e hescape hdivide ih =>
      have hhead : ¬ (c = '\\' ∧ e.head? = some ';') := by
        rintro ⟨rfl, he⟩
        obtain ⟨e', rfl⟩ := List.head?_eq_some_iff.1 he
        exact hescape e' rfl rfl
      rw [splitFrom_cons_eq_iff hhead hdivide, ih, intact_cons hhead]
      tauto

end Split

/-- **Lists survive**: the elements that `set` has stored are read back as they are,
if and only if each is intact and each but the last is ended. -/
theorem readList_setValue_iff (dropping : Bool) {args : List (List Char)} (hne : args ≠ []) :
    readList dropping (setValue args) = args ↔
      (∀ e ∈ args, Intact dropping 0 e) ∧ ∀ e ∈ args.dropLast, Ended 0 e := by
  unfold readList
  induction args with
  | nil => exact absurd rfl hne
  | cons e args ih =>
      cases args with
      | nil =>
          have hvalue : setValue [e] = e := by simp [setValue]
          rw [hvalue, splitFrom_singleton_iff]
          simp
      | cons e' args =>
          have hvalue : setValue (e :: e' :: args) = e ++ ';' :: setValue (e' :: args) := by
            simp [setValue, List.intercalate, List.intersperse]
          rw [hvalue, splitFrom_append_iff, ih (by simp)]
          simp only [List.forall_mem_cons, List.dropLast_cons_cons]
          tauto

end CMakeLanguage
