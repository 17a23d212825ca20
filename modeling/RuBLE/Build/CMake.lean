import Mathlib
import RuBLE.Library.OrderedHash
import RuBLE.Library.Program

/-!
# Writing data as CMake code

The model of `build/cmake.rb`, over a heap of Ruby hashes: what the flattening
does in place it does to the hashes of the heap.

* `RValue`, `RHash` — the values, and the hashes that they name by address.
* `cmakeFlattenHash` — the flattening, with a bound on the depth of the recursion
  and on the rounds of each loop.
* `cmakeSerialize`, `cmakeGenerate` — the text.
* `generate` — a whole call: its text, and the hashes of the caller after it.
-/

namespace RuBLE.CMake

open Transition

/-! ## Values and hashes -/

/-- The identity of a hash. -/
abbrev HashId := Nat

/-- A Ruby value.  Where only its text matters, it is given by that. -/
inductive RValue where
  | string (text : String)
  | symbol (text : String)
  | pathname (text : String)
  | numeric (text : String)
  | nil
  | bool (b : Bool)
  | array (elements : List RValue)
  | hash (id : HashId)
  /-- Anything else, with what its `to_s` returns. -/
  | other (result : RValue)
  deriving Repr

/-- A key of a hash, likewise. -/
inductive Key where
  | string (text : String)
  | symbol (text : String)
  | other (id : Nat) (text : String)
  deriving DecidableEq, Repr

/-- `to_s` of a key. -/
def Key.toS : Key → String
  | .string text => text
  | .symbol text => text
  | .other _ text => text

/-- The keys and values of a hash. -/
abbrev Entries := OrderedHash Key RValue

/-- A Ruby hash. -/
structure RHash where
  frozen : Bool := false
  entries : Entries

/-- The hashes there are, by identity. -/
abbrev RHeap := List RHash

/-- `CMAKE_LITERALS`. -/
def cmakeLiterals : RValue → Option String
  | .nil => some "NULL"
  | .bool true => some "ON"
  | .bool false => some "OFF"
  | _ => none

/-- `CMAKE_KEY_SEPARATOR`. -/
def cmakeKeySeparator : String := "_"

namespace RValue

/-- `is_any_of?(*STRINGY_TYPES)`. -/
def isStringy : RValue → Bool
  | string _ | symbol _ | pathname _ => true
  | _ => false

/-- `is_a?(Numeric)`. -/
def isNumeric : RValue → Bool
  | numeric _ => true
  | _ => false

/-- `is_a?(Array)`. -/
def isArray : RValue → Bool
  | array _ => true
  | _ => false

/-- `is_a?(Hash)`. -/
def isHash : RValue → Bool
  | hash _ => true
  | _ => false

/-- `nil?`. -/
def isNil : RValue → Bool
  | nil => true
  | _ => false

/-- What is moved into `final` when the hashes have been flattened: a `String`, a
`Numeric` or a literal. -/
def isCompleted (v : RValue) : Bool :=
  match v with
  | string _ => true
  | _ => v.isNumeric || (cmakeLiterals v).isSome

end RValue

/-- `cmake_serializable?`. -/
def cmakeSerializable (v : RValue) : Bool :=
  v.isArray || v.isHash || v.isStringy || v.isNumeric || (cmakeLiterals v).isSome

/-! ## Programs -/

/-- What is raised. -/
inductive BuildError where
  | argumentError (message : String)
  | frozenError
  | noMethodError
  /-- An identity of no hash was followed. -/
  | badHash
  /-- The bound on the recursion or on a loop was reached. -/
  | outOfFuel
  deriving DecidableEq, Repr

/-- The hashes, and what has been written to the error stream. -/
structure BuildState where
  hashes : RHeap
  stderr : List String := []

/-- Code of the build. -/
abbrev Build (α : Type) : Type := Program BuildState BuildError α

/-- Look at a hash. -/
def hashAt (id : HashId) : Build RHash := do
  let s ← Program.get
  Program.orThrow .badHash s.hashes[id]?

/-- Change a hash in place. -/
def mutate (id : HashId) (f : Entries → Entries) : Build Unit := do
  let h ← hashAt id
  if h.frozen then Program.throw .frozenError
  else Program.modify fun s =>
    { s with hashes := s.hashes.set id { h with entries := f h.entries } }

/-- `delete`. -/
def delete (id : HashId) (k : Key) : Build RValue := do
  let h ← hashAt id
  mutate id (·.delete k)
  return (h.entries.get? k).getD .nil

/-- `dup`: a new hash with the same entries, not frozen. -/
def dup (id : HashId) : Build HashId := do
  let h ← hashAt id
  Program.act fun s => (s.hashes.length, { s with hashes := s.hashes ++ [{ entries := h.entries }] })

/-- `hash = hash.dup if hash.frozen?`. -/
def dupIfFrozen (id : HashId) : Build HashId := do
  let h ← hashAt id
  if h.frozen then dup id else return id

section Functions

-- `Array#inspect`, `Hash#inspect` and so on, whose text depends on the version of Ruby
variable (inspect : RHeap → RValue → String)

/-- `to_s` of a value, which for anything else need not be a `String`. -/
def RValue.toS (heap : RHeap) (v : RValue) : RValue :=
  match v with
  | string text | symbol text | pathname text | numeric text => .string text
  | nil => .string ""
  | bool true => .string "true"
  | bool false => .string "false"
  | array _ | hash _ => .string (inspect heap v)
  | other result => result

/-- `warn`, of a key that is there already. -/
def warnDuplicate (k : Key) : Build Unit :=
  Program.modify fun s => { s with stderr := s.stderr ++
    ["Duplicate hash key " ++ inspect s.hashes (.string k.toS) ++ ". Ignoring new value"] }

/-! ## Flattening -/

/-- The block of `transform_values!`: `to_s` of what is stringy, and of the elements
of an array. -/
def stringify (heap : RHeap) (v : RValue) : RValue :=
  match v with
  | .array elements => .array (elements.map (·.toS inspect heap))
  | .string _ | .symbol _ | .pathname _ => v.toS inspect heap
  | _ => v

/-- `transform_keys!(&:to_s)`, of the entries of a hash. -/
def Entries.withStringKeys (entries : Entries) : Entries :=
  entries.transformKeys fun k => .string k.toS

/-- The start of a round: the keys and values of the hash are transformed. -/
def transformEntries (hash : HashId) : Build Unit := do
  mutate hash Entries.withStringKeys
  let s ← Program.get
  mutate hash (·.mapValues (stringify inspect s.hashes))

/-- An array is moved into `final`; a duplicate stays where it is. -/
def moveArray (hash : HashId) (final : Entries) (k : Key) : Build Entries := do
  if final.hasKey k then
    warnDuplicate inspect k
    return final
  return final.aset k (← delete hash k)

/-- The arrays are moved into `final`. -/
def moveArrays (hash : HashId) (final : Entries) : Build Entries := do
  let h ← hashAt hash
  (h.entries.keysWhere RValue.isArray).foldlM (moveArray inspect hash) final

/-- Unrecognized values are refused. -/
def rejectUnrecognized (hash : HashId) : Build Unit := do
  let h ← hashAt hash
  let s ← Program.get
  let unrecognizedKeys := h.entries.keysWhere fun v => !cmakeSerializable v
  if unrecognizedKeys.isEmpty then return
  Program.throw (.argumentError ("Unrecognized values in hash at keys " ++
    inspect s.hashes (.array (unrecognizedKeys.map fun k => .string k.toS))))

/-- A nested hash is replaced by what it flattens to. -/
def flattenNested (flatten : HashId → Build Entries) (hash : HashId) (k : Key) : Build Unit := do
  match ← delete hash k with
  | .hash id =>
      let subhash ← dupIfFrozen id
      let flat ← flatten subhash
      let flatSubhash := flat.transformKeys fun k' => .string (k.toS ++ cmakeKeySeparator ++ k'.toS)
      let h ← hashAt hash
      (flatSubhash.keys.filter h.entries.hasKey).forM (warnDuplicate inspect)
      mutate hash (·.merge flatSubhash)
  | _ => Program.throw .noMethodError

/-- The nested hashes are flattened. -/
def flattenHashes (flatten : HashId → Build Entries) (hash : HashId) : Build Unit := do
  let h ← hashAt hash
  (h.entries.keysWhere RValue.isHash).forM (flattenNested inspect flatten hash)

/-- A completed entry is moved into `final`; a duplicate is removed all the same. -/
def moveCompletedEntry (hash : HashId) (final : Entries) (k : Key) : Build Entries := do
  let v ← delete hash k
  if final.hasKey k then
    warnDuplicate inspect k
    return final
  return final.aset k v

/-- What is completed is moved into `final`. -/
def moveCompleted (hash : HashId) (final : Entries) : Build Entries := do
  let h ← hashAt hash
  (h.entries.keysWhere RValue.isCompleted).foldlM (moveCompletedEntry inspect hash) final

/-- A round of the loop. -/
def flattenRound (flatten : HashId → Build Entries) (hash : HashId) (final : Entries) :
    Build Entries := do
  transformEntries inspect hash
  let final ← moveArrays inspect hash final
  rejectUnrecognized inspect hash
  flattenHashes inspect flatten hash
  moveCompleted inspect hash final

/-- The loop, `until hash.empty?`. -/
def flattenUntilEmpty (flatten : HashId → Build Entries) (hash : HashId) :
    Nat → Entries → Build Entries
  | 0, _ => Program.throw .outOfFuel
  | n + 1, final => do
      let h ← hashAt hash
      if h.entries.isEmpty then return final
      flattenUntilEmpty flatten hash n (← flattenRound inspect flatten hash final)

/-- `cmake_flatten_hash`. -/
def cmakeFlattenHash : Nat → HashId → Build Entries
  | 0, _ => Program.throw .outOfFuel
  | n + 1, hash => do
      flattenUntilEmpty inspect (cmakeFlattenHash n) (← dupIfFrozen hash) (n + 1) ∅

/-! ## Serialization -/

/-- A match of `/[\\"$]/` is escaped. -/
def escapeChar (c : Char) : List Char :=
  if c = '\\' ∨ c = '"' ∨ c = '$' then ['\\', c] else [c]

/-- `cmake_escape`, of a `String`; nothing else has `gsub`. -/
def cmakeEscape (quote : Bool) : RValue → Build String
  | .string text =>
      let result := String.ofList (text.toList.flatMap escapeChar)
      return if quote then "\"" ++ result ++ "\"" else result
  | _ => Program.throw .noMethodError

/-- `cmake_serialize_array`. -/
def cmakeSerializeArray (elements : List RValue) : Build (List RValue) := do
  let elements := elements.filter fun e => !e.isNil
  if elements.all fun e => e.isStringy || e.isNumeric then return elements
  Program.throw (.argumentError "Array must contain only String-y elements")

/-- `cmake_serialize`. -/
def cmakeSerialize (v : RValue) : Build String := do
  let s ← Program.get
  match v with
  | .array elements =>
      let array ← cmakeSerializeArray elements
      return " ".intercalate (← array.mapM (cmakeEscape true))
  | .string _ | .symbol _ | .pathname _ => cmakeEscape true (v.toS inspect s.hashes)
  | .numeric text => return text
  | _ =>
      match cmakeLiterals v with
      | some literal => return literal
      | none => Program.throw (.argumentError ("Unrecognized value " ++ inspect s.hashes v))

/-- A field of `cmake_serialized_enumerator`. -/
def cmakeField (e : Key × RValue) : Build String := do
  return "set(" ++ e.1.toS ++ " " ++ (← cmakeSerialize inspect e.2) ++ ")"

/-- `cmake_generate`, without a path. -/
def cmakeGenerate (fuel : Nat) (data : HashId) : Build String := do
  let fields ← cmakeFlattenHash inspect fuel data
  fields.entries.foldlM (fun memo e => do
    let obj ← cmakeField inspect e
    return (if memo.isEmpty then memo else memo ++ "\n") ++ obj) ""

/-- A call of `cmake_generate`, and the hashes of the caller after it; the copies
that it has made are garbage by then. -/
def generate (fuel : Nat) (heap : RHeap) (data : HashId) : Except BuildError String × RHeap :=
  let (text, s) := (cmakeGenerate inspect fuel data).run { hashes := heap }
  (text, s.hashes.take heap.length)

end Functions

end RuBLE.CMake
