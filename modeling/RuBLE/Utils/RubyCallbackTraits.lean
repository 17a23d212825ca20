import Mathlib
import RuBLE.Bindings.Objects

/-!
# Whether a callback takes its arguments

The model of `utils/RubyCallbackTraits.cpp` and of `Callback::set`: a callback is
set to a proc only if the proc can be called with so many arguments as the
callback passes.

* `CallbackTraits`, `acceptsNArgs`, `Callback.set` — the functions.
* `RubyProc.AcceptsCall` — when Ruby itself accepts such a call.
* `RubyProc.acceptsNArgs_make` — what the check decides: Ruby's rule for lambdas,
  of the numbers modulo 256.
* `set_exact_iff` — **when the check is exact**: a proc that is not a lambda must
  not require a keyword, and for a lambda the counters must not have wrapped
  around to another answer.
* `counts_iff` — **when the counts are exact**: a block and `**nil` leave a key
  behind that views a string which is gone, and 256 parameters of a kind count
  as none.
-/

namespace RuBLE

open Transition

/-! ## The functions -/

/-- The kinds of parameters that `Proc#parameters` reports. -/
inductive ParameterKind where
  | req
  | opt
  | rest
  | keyreq
  | key
  | keyrest
  | nokey
  | block
  deriving DecidableEq, Repr

/-- The symbol that `Proc#parameters` gives for it. -/
def ParameterKind.name : ParameterKind → String
  | .req => "req"
  | .opt => "opt"
  | .rest => "rest"
  | .keyreq => "keyreq"
  | .key => "key"
  | .keyrest => "keyrest"
  | .nokey => "nokey"
  | .block => "block"

/-- A proc, as far as `rb_proc_lambda_p` and `Proc#parameters` tell. -/
structure RubyProc where
  isLambda : Bool
  parameters : List ParameterKind
  deriving DecidableEq, Repr

/-- How many parameters of a kind it has. -/
def RubyProc.count (p : RubyProc) (kind : ParameterKind) : Nat := p.parameters.count kind

/-- The exceptions of this file. -/
inductive CallbackError where
  /-- `std::invalid_argument`. -/
  | invalidArgument (what : String)
  /-- `std::out_of_range`, from `_map.at`. -/
  | outOfRange
  deriving DecidableEq, Repr

/-- `FnParameterTypes`. -/
def fnParameterTypes : List String := ["req", "opt", "rest", "keyreq", "key", "keyrest"]

/-- An entry of `_map`.  Its key is a `std::string_view`; an entry is found by
the hash code of the text that was there when it was inserted. -/
structure MapEntry where
  key : String
  /-- The text that the key views has static storage. -/
  isStatic : Bool
  value : UInt8
  deriving DecidableEq, Repr

/-- `_map[key]`, which is changed by `f`: an entry that is missing is inserted
first, and has the value zero. -/
def updateEntry (f : UInt8 → UInt8) (key : String) (isStatic : Bool) :
    List MapEntry → List MapEntry
  | [] => [{ key, isStatic, value := f 0 }]
  | e :: es =>
      if e.key = key then { e with value := f e.value } :: es
      else e :: updateEntry f key isStatic es

/-- `CallbackTraits`. -/
structure CallbackTraits where
  isLambda : Bool := false
  map : List MapEntry := []
  deriving DecidableEq, Repr

namespace CallbackTraits

/-- `_map[key] = 0`, for the names of `FnParameterTypes`. -/
def cleared : List MapEntry :=
  fnParameterTypes.foldl (fun map key => updateEntry (fun _ => 0) key true map) []

/-- The constructor, of a value that is a proc.  `++_map[type]` counts in eight
bits, under a view of a string that is local to the loop. -/
def make (p : RubyProc) : CallbackTraits where
  isLambda := p.isLambda
  map := p.parameters.foldl (fun map kind => updateEntry (· + 1) kind.name false map) cleared

/-- `_map.at(key)`. -/
def mapAt (t : CallbackTraits) (key : String) : Except CallbackError UInt8 :=
  match t.map.find? (·.key = key) with
  | some e => .ok e.value
  | none => .error .outOfRange

/-- `accepts_n_args`. -/
def acceptsNArgs (t : CallbackTraits) (n : Int) : Except CallbackError Bool := do
  if !t.isLambda then return true
  if 0 < (← t.mapAt "keyreq") then return false
  let min ← t.mapAt "req"
  -- the sum is made of integers and then stored in eight bits
  let max ← if 0 < (← t.mapAt "rest") then pure (255 : UInt8) else (min + ·) <$> t.mapAt "opt"
  return min.toNat ≤ n && n ≤ max.toNat

end CallbackTraits

/-- What `assert_accepts_n_args` throws when a proc does not pass. -/
def notCallable (n : UInt8) : CallbackError :=
  .invalidArgument ("Argument must be callable with exactly " ++ toString n.toNat ++
    " positional arguments.")

/-- `assert_accepts_n_args`.  `val` is nil, or an object, which `procOf` finds to
be a proc or not. -/
def assertAcceptsNArgs (procOf : ObjectId → Option RubyProc) (val : Option ObjectId) (n : UInt8)
    (allowNil : Bool) : Except CallbackError Unit := do
  match val with
  | none =>
      if allowNil then return
      throw (.invalidArgument "Argument must be a proc or lambda (nil values not accepted)")
  | some id =>
      match procOf id with
      | none => throw (.invalidArgument "Argument must be a proc or lambda")
      | some p =>
          if ← (CallbackTraits.make p).acceptsNArgs n.toNat then return
          throw (notCallable n)

/-- `Callback::set`.  `_arg_count` is passed as a `uint8_t`. -/
def Callback.set (procOf : ObjectId → Option RubyProc) (cb : Option ObjectId) :
    Program Callback CallbackError Unit := do
  let this ← Program.get
  Program.ofExcept (assertAcceptsNArgs procOf cb (UInt8.ofNat this.argCount) true)
  Program.modify fun this => { this with cb }

/-! ## What Ruby accepts -/

/-- Ruby's rule for a lambda that has so many required keywords, required,
optional and rest parameters in front of a call with `n` arguments: `max` is the
number of required and optional ones. -/
def LambdaAccepts (keyreq min max rest n : Nat) : Prop :=
  keyreq = 0 ∧ min ≤ n ∧ (0 < rest ∨ n ≤ max)

instance (keyreq min max rest n : Nat) : Decidable (LambdaAccepts keyreq min max rest n) :=
  inferInstanceAs (Decidable (keyreq = 0 ∧ min ≤ n ∧ (0 < rest ∨ n ≤ max)))

namespace RubyProc

/-- A call with `n` positional arguments and no keywords raises no
`ArgumentError`. -/
def AcceptsCall (p : RubyProc) (n : Nat) : Prop :=
  if p.isLambda then
    LambdaAccepts (p.count .keyreq) (p.count .req) (p.count .req + p.count .opt) (p.count .rest) n
  else p.count .keyreq = 0

/-- A proc that is not a lambda requires no keyword; of a lambda the numbers give
the same answer as their remainders modulo 256. -/
def FitsCounters (p : RubyProc) (n : Nat) : Prop :=
  if p.isLambda then
    (LambdaAccepts (p.count .keyreq) (p.count .req) (p.count .req + p.count .opt) (p.count .rest) n ↔
      LambdaAccepts (p.count .keyreq % 256) (p.count .req % 256)
        ((p.count .req + p.count .opt) % 256) (p.count .rest % 256) (n % 256))
  else p.count .keyreq = 0

end RubyProc

/-- What `Callback::set` should do with a proc. -/
structure SetExact (procOf : ObjectId → Option RubyProc) (this : Callback) (id : ObjectId)
    (p : RubyProc) : Prop where
  /-- It is accepted if and only if it takes the arguments. -/
  accepts : ((Callback.set procOf (some id)).run this).1 = .ok () ↔ p.AcceptsCall this.argCount
  /-- If it is rejected then the callback stays what it was. -/
  kept : ∀ e this', (Callback.set procOf (some id)).run this = (.error e, this') → this' = this

/-! ## The counters -/

/-- The value stored for a key. -/
def valueAt (map : List MapEntry) (key : String) : Option UInt8 :=
  (map.find? (·.key = key)).map (·.value)

theorem valueAt_updateEntry (f : UInt8 → UInt8) (key : String) (isStatic : Bool)
    (map : List MapEntry) (k : String) :
    valueAt (updateEntry f key isStatic map) k =
      if k = key then some (f ((valueAt map key).getD 0)) else valueAt map k := by
  induction map with
  | nil => by_cases hk : k = key <;> simp [updateEntry, valueAt, hk, eq_comm]
  | cons e map ih =>
      unfold updateEntry
      by_cases he : e.key = key
      · by_cases hk : k = key
        · simp [valueAt, he, hk]
        · simp [valueAt, he, hk, eq_comm]
      · rw [if_neg he]
        by_cases hek : e.key = k
        · subst hek
          simp [valueAt, he]
        · simp only [valueAt, List.find?_cons, hek, he, decide_false] at ih ⊢
          exact ih

theorem ParameterKind.name_inj {k k' : ParameterKind} : k.name = k'.name ↔ k = k' := by
  cases k <;> cases k' <;> simp [ParameterKind.name]

/-- Counting through a list of parameters. -/
theorem valueAt_counted (kind : ParameterKind) (ps : List ParameterKind) (map : List MapEntry)
    {v : UInt8} (hv : valueAt map kind.name = some v) :
    valueAt (ps.foldl (fun map k => updateEntry (· + 1) k.name false map) map) kind.name =
      some (v + UInt8.ofNat (ps.count kind)) := by
  induction ps generalizing map v with
  | nil => simpa using hv
  | cons k ps ih =>
      rw [List.foldl_cons]
      by_cases hk : kind = k
      · subst hk
        rw [ih (v := v + 1), List.count_cons_self, UInt8.ofNat_add]
        · congr 1
          rw [UInt8.add_assoc, UInt8.add_comm 1]
          rfl
        · rw [valueAt_updateEntry, if_pos rfl, hv]
          rfl
      · rw [ih (v := v), List.count_cons_of_ne (Ne.symm hk)]
        rw [valueAt_updateEntry, if_neg (by rwa [ParameterKind.name_inj]), hv]

/-- The counter of each of the six kinds is there. -/
theorem CallbackTraits.mapAt_make (p : RubyProc) {kind : ParameterKind}
    (h : kind.name ∈ fnParameterTypes) :
    (CallbackTraits.make p).mapAt kind.name = .ok (UInt8.ofNat (p.count kind)) := by
  have hcleared : valueAt cleared kind.name = some 0 := by
    cases kind <;> first | rfl | exact absurd h (by decide)
  have hvalue := valueAt_counted kind p.parameters cleared hcleared
  rw [UInt8.zero_add] at hvalue
  obtain ⟨e, he, hev⟩ := Option.map_eq_some_iff.1 hvalue
  simp only [CallbackTraits.mapAt, make, he, hev, RubyProc.count]

namespace RubyProc

variable {p : RubyProc}

/-- Ruby's rule for lambdas, of the remainders modulo 256. -/
def PassesCheck (p : RubyProc) (n : Nat) : Prop :=
  p.isLambda = true → LambdaAccepts (p.count .keyreq % 256) (p.count .req % 256)
    ((p.count .req + p.count .opt) % 256) (p.count .rest % 256) (n % 256)

instance (p : RubyProc) (n : Nat) : Decidable (p.PassesCheck n) :=
  inferInstanceAs (Decidable (_ → _))

/-- **What the check decides.**  It follows Ruby's rule for lambdas, of numbers
that have been reduced modulo 256. -/
theorem acceptsNArgs_make (p : RubyProc) (n : Nat) :
    (CallbackTraits.make p).acceptsNArgs (UInt8.ofNat n).toNat = .ok (decide (p.PassesCheck n)) := by
  have hmap : ∀ kind : ParameterKind, kind.name ∈ fnParameterTypes →
      (CallbackTraits.make p).mapAt kind.name = .ok (UInt8.ofNat (p.count kind)) :=
    fun _ => CallbackTraits.mapAt_make p
  have hreq := hmap .req (by decide)
  have hopt := hmap .opt (by decide)
  have hrest := hmap .rest (by decide)
  have hkeyreq := hmap .keyreq (by decide)
  simp only [ParameterKind.name] at hreq hopt hrest hkeyreq
  have hlambda : (CallbackTraits.make p).isLambda = p.isLambda := rfl
  unfold CallbackTraits.acceptsNArgs
  rw [hlambda, hkeyreq, hreq, hrest, hopt]
  cases hl : p.isLambda with
  | false =>
      have hpasses : p.PassesCheck n := fun h => by simp [hl] at h
      rw [decide_eq_true hpasses]
      rfl
  | true =>
      have hpasses : p.PassesCheck n ↔ LambdaAccepts (p.count .keyreq % 256) (p.count .req % 256)
          ((p.count .req + p.count .opt) % 256) (p.count .rest % 256) (n % 256) := by
        simp [PassesCheck, hl]
      simp only [hpasses]
      have hnat : ∀ m : Nat, (UInt8.ofNat m).toNat = m % 256 := fun m => UInt8.toNat_ofNat'
      have hpos : ∀ m : Nat, (0 < UInt8.ofNat m ↔ 0 < m % 256) := fun m => by
        rw [UInt8.lt_iff_toNat_lt, hnat]
        rfl
      show (if 0 < UInt8.ofNat (p.count .keyreq) then _ else _) = _
      by_cases hk : p.count .keyreq % 256 = 0
      · rw [if_neg (by rw [hpos]; omega)]
        show (if 0 < UInt8.ofNat (p.count .rest) then _ else _) = _
        by_cases hr : p.count .rest % 256 = 0
        · rw [if_neg (by rw [hpos]; omega)]
          show Except.ok (decide (_ ≤ _) &&
            decide (_ ≤ ((UInt8.ofNat (p.count .req) + UInt8.ofNat (p.count .opt)).toNat : Int))) = _
          rw [← UInt8.ofNat_add, hnat, hnat, hnat]
          simp only [Int.ofNat_le]
          simp [LambdaAccepts, hk, hr]
        · rw [if_pos (by rw [hpos]; omega), hnat, hnat]
          show Except.ok (decide (_ ≤ _) && decide (_ ≤ (255 : Int))) = _
          have hbyte : ((n % 256 : Nat) : Int) ≤ 255 := by omega
          rw [decide_eq_true hbyte]
          simp only [Int.ofNat_le]
          simp [LambdaAccepts, hk, Nat.pos_of_ne_zero hr]
      · rw [if_pos (by rw [hpos]; omega)]
        simp [LambdaAccepts, hk]
        rfl

/-- The check is right about a proc if and only if it fits the counters. -/
theorem passesCheck_iff_acceptsCall (p : RubyProc) (n : Nat) :
    (p.PassesCheck n ↔ p.AcceptsCall n) ↔ p.FitsCounters n := by
  unfold PassesCheck AcceptsCall FitsCounters
  cases p.isLambda with
  | false => simp
  | true => simp [iff_comm]

/-- The numbers of a lambda that are below 256 fit. -/
theorem fitsCounters_of_lt {n : Nat} (hlambda : p.isLambda = true) (hkeyreq : p.count .keyreq < 256)
    (hmax : p.count .req + p.count .opt < 256) (hrest : p.count .rest < 256) (hn : n < 256) :
    p.FitsCounters n := by
  unfold FitsCounters
  rw [if_pos hlambda, Nat.mod_eq_of_lt hkeyreq, Nat.mod_eq_of_lt hmax, Nat.mod_eq_of_lt hrest,
    Nat.mod_eq_of_lt hn, Nat.mod_eq_of_lt (by omega)]

end RubyProc

/-! ## When the check is exact -/

section Set

variable {procOf : ObjectId → Option RubyProc} {id : ObjectId} {p : RubyProc}

theorem assertAcceptsNArgs_proc (h : procOf id = some p) (n : Nat) (allowNil : Bool) :
    assertAcceptsNArgs procOf (some id) (UInt8.ofNat n) allowNil =
      if p.PassesCheck n then .ok () else .error (notCallable (UInt8.ofNat n)) := by
  unfold assertAcceptsNArgs
  simp only [h, p.acceptsNArgs_make]
  by_cases hpasses : p.PassesCheck n
  · rw [if_pos hpasses, decide_eq_true hpasses]
    rfl
  · rw [if_neg hpasses, decide_eq_false hpasses]
    rfl

/-- What `Callback::set` does when the value passes the check, or does not. -/
theorem Callback.set_run (procOf : ObjectId → Option RubyProc) (cb : Option ObjectId)
    (this : Callback) :
    (Callback.set procOf cb).run this =
      match assertAcceptsNArgs procOf cb (UInt8.ofNat this.argCount) true with
      | .ok () => (.ok (), { this with cb })
      | .error e => (.error e, this) := by
  rw [Callback.set, Program.run_bind_ok (show Program.get.run this = (.ok this, this) from rfl)]
  cases assertAcceptsNArgs procOf cb (UInt8.ofNat this.argCount) true with
  | ok u => rfl
  | error e => rfl

/-- **When the check is exact.**  `Callback::set` accepts those procs that take
the arguments, if and only if a proc that is not a lambda requires no keyword,
and for a lambda the counters have not wrapped around to another answer; what is
rejected leaves the callback as it was. -/
theorem set_exact_iff (h : procOf id = some p) (this : Callback) :
    SetExact procOf this id p ↔ p.FitsCounters this.argCount := by
  have hrun := Callback.set_run procOf (some id) this
  rw [assertAcceptsNArgs_proc h] at hrun
  have hok : ((Callback.set procOf (some id)).run this).1 = .ok () ↔ p.PassesCheck this.argCount := by
    rw [hrun]
    by_cases hpasses : p.PassesCheck this.argCount <;> simp [hpasses]
  have hkept : ∀ e this', (Callback.set procOf (some id)).run this = (.error e, this') →
      this' = this := by
    intro e this' hthrown
    rw [hrun] at hthrown
    by_cases hpasses : p.PassesCheck this.argCount
    · simp [hpasses] at hthrown
    · simp [hpasses] at hthrown
      exact hthrown.2.symm
  rw [← p.passesCheck_iff_acceptsCall, ← hok]
  exact ⟨fun hexact => hexact.accepts, fun haccepts => ⟨haccepts, hkept⟩⟩

/-- `proc { |data, this, key:| }`. -/
def keywordProc : RubyProc := { isLambda := false, parameters := [.opt, .opt, .keyreq] }

/-- `lambda { |data, this| }`. -/
def plainLambda : RubyProc := { isLambda := true, parameters := [.req, .req] }

theorem set_exact_plainLambda :
    SetExact (fun _ => some plainLambda) { argCount := 2, cb := some 1 } 5 plainLambda :=
  (set_exact_iff rfl _).2 <|
    RubyProc.fitsCounters_of_lt rfl (by decide) (by decide) (by decide) (by decide)

/-- A proc that is not a lambda is accepted although it requires a keyword. -/
theorem not_set_exact_keywordProc : ¬ ∀ (procOf : ObjectId → Option RubyProc) (id : ObjectId)
    (p : RubyProc) (this : Callback), procOf id = some p → SetExact procOf this id p := by
  intro hall
  have hexact := hall (fun _ => some keywordProc) 5 keywordProc { argCount := 2, cb := some 1 } rfl
  have haccepted := hexact.accepts.1 (by rfl)
  revert haccepted
  simp [RubyProc.AcceptsCall, keywordProc, RubyProc.count]

end Set

/-! ## When the counts are exact -/

/-- What the constructor should have counted. -/
structure CallbackTraits.Counts (t : CallbackTraits) (p : RubyProc) : Prop where
  /-- The keys are the names of `FnParameterTypes`. -/
  keys : (t.map.map (·.key)).Perm fnParameterTypes
  /-- None of them views a string that is gone. -/
  isStatic : ∀ e ∈ t.map, e.isStatic = true
  /-- Under each is the number of the parameters of its kind. -/
  counted : ∀ kind : ParameterKind, kind.name ∈ fnParameterTypes →
    ∃ n, t.mapAt kind.name = .ok n ∧ n.toNat = p.count kind

section Keys

variable {f : UInt8 → UInt8} {key k : String} {isStatic : Bool} {map : List MapEntry}

theorem mem_keys_updateEntry :
    k ∈ (updateEntry f key isStatic map).map (·.key) ↔ k = key ∨ k ∈ map.map (·.key) := by
  induction map with
  | nil => simp [updateEntry]
  | cons e map ih =>
      unfold updateEntry
      by_cases he : e.key = key
      · rw [if_pos he, List.map_cons, List.map_cons, List.mem_cons, he, ← or_assoc, or_self]
      · rw [if_neg he, List.map_cons, List.map_cons, List.mem_cons, List.mem_cons, ih]
        tauto

/-- A key that is there already keeps its text. -/
theorem texts_updateEntry (h : key ∈ map.map (·.key)) :
    (updateEntry f key isStatic map).map (fun e => (e.key, e.isStatic)) =
      map.map fun e => (e.key, e.isStatic) := by
  induction map with
  | nil => simp at h
  | cons e map ih =>
      unfold updateEntry
      by_cases he : e.key = key
      · rw [if_pos he, List.map_cons, List.map_cons]
      · rw [List.map_cons, List.mem_cons] at h
        rw [if_neg he, List.map_cons, List.map_cons, ih (h.resolve_left (Ne.symm he))]

theorem mem_keys_counted (ps : List ParameterKind) :
    k ∈ (ps.foldl (fun map kind => updateEntry (· + 1) kind.name false map) map).map (·.key) ↔
      (∃ kind ∈ ps, kind.name = k) ∨ k ∈ map.map (·.key) := by
  induction ps generalizing map with
  | nil => simp
  | cons kind ps ih =>
      rw [List.foldl_cons, ih, mem_keys_updateEntry, List.exists_mem_cons_iff, eq_comm, or_left_comm,
        or_assoc]

/-- Counting parameters whose kinds are there already keeps the texts. -/
theorem texts_counted (ps : List ParameterKind) (h : ∀ kind ∈ ps, kind.name ∈ map.map (·.key)) :
    (ps.foldl (fun map kind => updateEntry (· + 1) kind.name false map) map).map
      (fun e => (e.key, e.isStatic)) = map.map fun e => (e.key, e.isStatic) := by
  induction ps generalizing map with
  | nil => rfl
  | cons kind ps ih =>
      rw [List.forall_mem_cons] at h
      rw [List.foldl_cons, ih fun kind' hk => mem_keys_updateEntry.2 (.inr (h.2 kind' hk)),
        texts_updateEntry h.1]

end Keys

/-- A kind other than the six. -/
theorem ParameterKind.name_mem_iff {kind : ParameterKind} :
    kind.name ∈ fnParameterTypes ↔ kind ≠ .nokey ∧ kind ≠ .block := by
  cases kind <;> decide

/-- The counter of a kind has not wrapped around. -/
theorem CallbackTraits.counted_iff (p : RubyProc) {kind : ParameterKind}
    (h : kind.name ∈ fnParameterTypes) :
    (∃ n, (CallbackTraits.make p).mapAt kind.name = .ok n ∧ n.toNat = p.count kind) ↔
      p.count kind < 256 := by
  rw [CallbackTraits.mapAt_make p h]
  have hmod : (UInt8.ofNat (p.count kind)).toNat = p.count kind % 256 := UInt8.toNat_ofNat'
  constructor
  · rintro ⟨n, hn, hcount⟩
    cases hn
    omega
  · intro hlt
    exact ⟨_, rfl, by omega⟩

/-- **When the counts are exact.**  The keys are the six names, and the counts
are the numbers of the parameters, if and only if no parameter is of another
kind and there are at most 255 of each. -/
theorem counts_iff (p : RubyProc) : (CallbackTraits.make p).Counts p ↔
    .nokey ∉ p.parameters ∧ .block ∉ p.parameters ∧ ∀ kind, p.count kind < 256 := by
  have hkeys : CallbackTraits.cleared.map (·.key) = fnParameterTypes := by decide
  constructor
  · intro h
    have hknown : ∀ kind ∈ p.parameters, kind.name ∈ fnParameterTypes := by
      intro kind hk
      rw [← h.keys.mem_iff]
      exact (mem_keys_counted p.parameters).2 (.inl ⟨kind, hk, rfl⟩)
    have hnokey : .nokey ∉ p.parameters := fun hk => absurd (hknown _ hk) (by decide)
    have hblock : .block ∉ p.parameters := fun hk => absurd (hknown _ hk) (by decide)
    refine ⟨hnokey, hblock, fun kind => ?_⟩
    by_cases hkind : kind.name ∈ fnParameterTypes
    · exact (CallbackTraits.counted_iff p hkind).1 (h.counted kind hkind)
    · have hnone : p.count kind = 0 := List.count_eq_zero.2 fun hk => hkind (hknown kind hk)
      omega
  · rintro ⟨hnokey, hblock, hlt⟩
    have hknown : ∀ kind ∈ p.parameters, kind.name ∈ CallbackTraits.cleared.map (·.key) := by
      intro kind hk
      rw [hkeys, ParameterKind.name_mem_iff]
      exact ⟨fun heq => hnokey (heq ▸ hk), fun heq => hblock (heq ▸ hk)⟩
    have htexts : (CallbackTraits.make p).map.map (fun e => (e.key, e.isStatic)) =
        CallbackTraits.cleared.map fun e => (e.key, e.isStatic) := texts_counted p.parameters hknown
    have hstatic : ∀ e ∈ CallbackTraits.cleared, e.isStatic = true := by decide
    refine ⟨?_, ?_, fun kind hkind => (CallbackTraits.counted_iff p hkind).2 (hlt kind)⟩
    · have hfst := congrArg (List.map Prod.fst) htexts
      rw [List.map_map, List.map_map] at hfst
      exact List.Perm.of_eq (hfst.trans hkeys)
    · intro e he
      have hmem : (e.key, e.isStatic) ∈ CallbackTraits.cleared.map fun e => (e.key, e.isStatic) := by
        rw [← htexts]
        exact List.mem_map.2 ⟨e, he, rfl⟩
      obtain ⟨e', he', heq⟩ := List.mem_map.1 hmem
      exact (congrArg Prod.snd heq).symm.trans (hstatic e' he')

/-- `lambda { |data, this, &block| }`. -/
def blockLambda : RubyProc := { isLambda := true, parameters := [.req, .req, .block] }

/-- The name of the block stays behind as a key. -/
theorem not_counts_blockLambda : ¬ ∀ p : RubyProc, (CallbackTraits.make p).Counts p := by
  intro hall
  have hkey : "block" ∈ (CallbackTraits.make blockLambda).map.map (·.key) := by decide
  exact absurd ((hall blockLambda).keys.mem_iff.1 hkey) (by decide)

end RuBLE
