import Mathlib
import RuBLE.Library.Bytes
import RuBLE.Bindings.Objects

/-!
# Byte arrays and integers

The model of `containers/ByteArray.hpp`: the conversions between a byte array and
unsigned integers, on hosts of either byte order.

* `ByteArray.toI`, `ByteArray.ofUnsigned`, the operators, `ByteArray.fromRuby` —
  the functions.
* `ByteArray.decodesInBounds_iff` — **when `to_i` is safe**: it reads as many
  bytes as the integer has, and the array must not have fewer.
* `ByteArray.roundTrip` — **the round trip** between integers and byte arrays
  of their width.
* `ByteArray.agrees_iff` — **which operators agree with the integer**: `!` never
  does, and `%` divides by whatever it is passed.
* `ByteArray.fromRuby_converts` — **what a Ruby value is converted to.**
-/

namespace RuBLE

open Transition Bytes

/-! ## The functions -/

/-- What the program runs on: the byte order, and what is in memory behind the
string that holds the data. -/
structure Host where
  order : ByteOrder
  behind : Nat → UInt8 := fun _ => 0

/-- What a call does besides: the positions it reads, counted from
`_data.data()`, and whether it has called `rb_warn`. -/
structure Trace where
  reads : List Nat := []
  warned : Bool := false
  deriving DecidableEq, Repr

/-- A signal that ends the process. -/
inductive Trap where
  /-- `SIGFPE`. -/
  | divisionByZero
  deriving DecidableEq, Repr

namespace ByteArray

/-- `char_size`. -/
def charSize : Nat := 1

/-- `chars_per_val<T>`, for a `T` of so many bytes. -/
def charsPerVal (sizeofT : Nat) : Nat :=
  sizeofT / charSize + if 0 < sizeofT % charSize then 1 else 0

/-- `length`. -/
def length (b : ByteArray) : Nat := b.data.length

/-- The byte at a position counted from `_data.data()`: the data, the null that
follows it, and what is behind that. -/
def byteAt (b : ByteArray) (host : Host) (i : Nat) : UInt8 :=
  if h : i < b.data.length then b.data[i] else if i = b.data.length then 0 else host.behind i

/-- Read a byte. -/
def readByte (b : ByteArray) (host : Host) (i : Nat) : Program Trace Trap UInt8 :=
  Program.act fun t => (b.byteAt host i, { t with reads := t.reads ++ [i] })

/-- `ByteArray(const T &data)`, for an unsigned integral `T` of so many bytes. -/
def ofUnsigned (host : Host) (sizeofT n : Nat) : ByteArray :=
  -- `_data.assign(chars_per_val<T>, '\0')`, then `dstVal` is written over its beginning
  let cleared := List.replicate (charsPerVal sizeofT) (0 : UInt8)
  let written := host.order.store sizeofT (host.order.toLittle sizeofT n)
  { data := written ++ cleared.drop written.length }

/-- `to_i<T>`, for an unsigned integral `T` of so many bytes. -/
def toI (b : ByteArray) (host : Host) (sizeofT : Nat) : Program Trace Trap Nat := do
  Program.when (sizeofT < charSize * b.length) (Program.modify fun t => { t with warned := true })
  let bytes ← (List.range sizeofT).mapM (b.readByte host)
  return host.order.toLittle sizeofT (host.order.load bytes)

/-- What `to_i<T>` returns. -/
def value (b : ByteArray) (host : Host) (sizeofT : Nat) : Nat :=
  match ((b.toI host sizeofT).run {}).1 with
  | .ok n => n
  | .error _ => 0

/-- `to_i<uint64_t>`, as the operators use it. -/
def toUInt64 (b : ByteArray) (host : Host) : Program Trace Trap UInt64 := do
  return UInt64.ofNat (← b.toI host 8)

/-- `operator&`. -/
def and (b : ByteArray) (host : Host) (other : UInt64) : Program Trace Trap UInt64 := do
  return (← b.toUInt64 host) &&& other

/-- `operator|`. -/
def or (b : ByteArray) (host : Host) (other : UInt64) : Program Trace Trap UInt64 := do
  return (← b.toUInt64 host) ||| other

/-- `operator^`. -/
def xor (b : ByteArray) (host : Host) (other : UInt64) : Program Trace Trap UInt64 := do
  return (← b.toUInt64 host) ^^^ other

/-- `operator%`. -/
def mod (b : ByteArray) (host : Host) (other : UInt64) : Program Trace Trap UInt64 := do
  let v ← b.toUInt64 host
  if other = 0 then Program.throw .divisionByZero else return v % other

/-- `operator!`. -/
def not (b : ByteArray) (host : Host) : Program Trace Trap Bool := do
  return (← b.toUInt64 host) != 0

/-- `operator~`. -/
def complement (b : ByteArray) (host : Host) : Program Trace Trap UInt64 := do
  return ~~~(← b.toUInt64 host)

/-- `operator<=>`, with an integer. -/
def compare (b : ByteArray) (host : Host) (other : UInt64) : Program Trace Trap Int := do
  match Ord.compare (← b.toUInt64 host) other with
  | .lt => return -1
  | .gt => return 1
  | .eq => return 0

/-! ### From Ruby -/

/-- A Ruby exception, or a C++ one that becomes one. -/
inductive RubyError where
  | typeError (message : String)
  | rangeError
  /-- `std::invalid_argument`. -/
  | invalidArgument (what : String)
  /-- `std::length_error`. -/
  | lengthError
  deriving DecidableEq, Repr

/-- A Ruby object, by the classes that `ByteArray.new` tells apart. -/
inductive RubyValue where
  | byteArray (b : ByteArray)
  | integer (n : Int)
  /-- Of another class of `Numeric`, with what `rb_num2ulong` makes of it. -/
  | numeric (toUlong : Except RubyError UInt64)
  | string (bytes : List UInt8)
  /-- A Symbol, with what `Rice::String(obj).str()` makes of it. -/
  | symbol (str : Except RubyError (List UInt8))
  | nil
  | true
  | false
  /-- Of any other class, with what `inspect` returns. -/
  | other (inspect : String)
  deriving DecidableEq

/-- `rb_num2ulong`, of an Integer: a negative one is taken in two's complement. -/
def rbNum2ulong (n : Int) : Except RubyError UInt64 :=
  if -2 ^ 63 ≤ n ∧ n < 2 ^ 64 then .ok (UInt64.ofNat (n % 2 ^ 64).toNat) else .error .rangeError

/-- `std::string::max_size()`. -/
def stringMaxSize : Nat := 2 ^ 63 - 1

/-- `ByteArray(const char_type &chr)`, where `char` is signed. -/
def ofChar (chr : UInt8) : Except RubyError ByteArray :=
  -- in `std::string(chr, 1)` the count comes first, and then the character
  let count := if chr < 128 then chr.toNat else chr.toNat + (2 ^ 64 - 2 ^ 8)
  if count ≤ stringMaxSize then .ok { data := List.replicate count 1 } else .error .lengthError

/-- `ByteArray(const bool &b)`. -/
def ofBool (b : Bool) : Except RubyError ByteArray := ofChar (if b then '1' else '0').toUInt8

/-- `ByteArray(Object obj)`, and `from_ruby`, which calls it. -/
def fromRuby (host : Host) (obj : RubyValue) : Except RubyError ByteArray :=
  match obj with
  | .byteArray b => .ok b
  | .integer n => (rbNum2ulong n).map fun u => ofUnsigned host 8 u.toNat
  | .numeric toUlong => toUlong.map fun u => ofUnsigned host 8 u.toNat
  | .string bytes => .ok { data := bytes }
  | .symbol str => str.map fun data => { data }
  | .nil | .false => ofBool Bool.false
  | .true => ofBool Bool.true
  | .other inspect => .error (.invalidArgument ("Cannot convert " ++ inspect ++ " to a ByteArray"))

/-! ## Reading -/

section Reading

variable {host : Host} {b : ByteArray} {w : Nat}

@[simp] theorem byteAt_of_lt {i : Nat} (h : i < b.data.length) :
    b.byteAt host i = b.data.getD i 0 := by
  simp [byteAt, h]

theorem readByte_run (i : Nat) (t : Trace) :
    (b.readByte host i).run t = (.ok (b.byteAt host i), { t with reads := t.reads ++ [i] }) := rfl

theorem readBytes_run (is : List Nat) (t : Trace) :
    (is.mapM (b.readByte host)).run t =
      (.ok (is.map (b.byteAt host)), { t with reads := t.reads ++ is }) := by
  induction is generalizing t with
  | nil => simp [Program.run_pure]
  | cons i is ih =>
      rw [List.mapM_cons, Program.run_bind_ok (readByte_run i t), Program.run_bind_ok (ih _)]
      simp [Program.run_pure]

/-- What `to_i` reads and returns. -/
theorem toI_run (b : ByteArray) (host : Host) (w : Nat) (t : Trace) :
    (b.toI host w).run t =
      (.ok (decode ((List.range w).map (b.byteAt host))),
        { reads := t.reads ++ List.range w, warned := t.warned || decide (w < b.length) }) := by
  have hwarn : (Program.when (w < charSize * b.length)
      (Program.modify fun t : Trace => { t with warned := true }) : Program Trace Trap Unit).run t =
        (.ok (), { t with warned := t.warned || decide (w < b.length) }) := by
    rw [charSize, Nat.one_mul]
    by_cases h : w < b.length
    · simp [Program.when, h, Program.run_modify]
    · simp [Program.when, h, Program.run_pure]
  rw [toI, Program.run_bind_ok hwarn, Program.run_bind_ok (readBytes_run _ _), Program.run_pure,
    ByteOrder.toLittle_load _ (by simp)]

theorem value_eq (b : ByteArray) (host : Host) (w : Nat) :
    b.value host w = decode ((List.range w).map (b.byteAt host)) := by
  rw [value, toI_run]

theorem value_lt (b : ByteArray) (host : Host) (w : Nat) : b.value host w < 256 ^ w := by
  rw [value_eq]
  simpa using decode_lt ((List.range w).map (b.byteAt host))

/-- The bytes read from an array that is long enough are its first ones. -/
theorem map_byteAt_range (h : w ≤ b.data.length) :
    (List.range w).map (b.byteAt host) = b.data.take w := by
  apply List.ext_getElem
  · simpa using h
  · intro i hi _
    have hlt : i < b.data.length := by
      simp at hi
      omega
    simp [byteAt, hlt]

end Reading

/-! ## When `to_i` is safe -/

/-- What `to_i` should do: read from the data only, and return the number that
its bytes stand for, from the least significant on. -/
structure DecodesInBounds (b : ByteArray) (host : Host) (w : Nat) : Prop where
  inBounds : ∀ i ∈ ((b.toI host w).run {}).2.reads, i < b.data.length
  value : ((b.toI host w).run {}).1 =
    .ok (∑ i ∈ Finset.range (min b.data.length w), (b.data.getD i 0).toNat * 256 ^ i)

/-- **When `to_i` is safe.**  It is if and only if the array has as many bytes as
the integer. -/
theorem decodesInBounds_iff (b : ByteArray) (host : Host) (w : Nat) :
    b.DecodesInBounds host w ↔ w ≤ b.data.length := by
  constructor
  · intro h
    by_contra hlong
    -- the first byte behind the data is read
    have hread := h.inBounds b.data.length (by rw [toI_run]; simp; omega)
    omega
  · intro h
    refine ⟨fun i hi => ?_, ?_⟩
    · rw [toI_run] at hi
      simp at hi
      omega
    · rw [toI_run, map_byteAt_range h, decode_eq_sum, List.length_take, Nat.min_comm w]
      simp only [Except.ok.injEq]
      refine Finset.sum_congr rfl fun i hi => ?_
      have hlt : i < w := by
        simp at hi
        omega
      simp [List.getD, hlt]

/-- The bytes of `abc` are decoded past their end. -/
theorem not_decodesInBounds : ¬ ∀ (b : ByteArray) (host : Host) (w : Nat),
    b.DecodesInBounds host w := by
  intro hall
  have hbounds := (hall { data := [0x61, 0x62, 0x63] } { order := .little } 8).inBounds 3
  revert hbounds
  rw [toI_run]
  decide

/-! ## The round trip -/

/-- What integers of `w` bytes and byte arrays of that length have to do with each
other. -/
structure RoundTrip (host : Host) (w : Nat) : Prop where
  /-- The array made of an integer has `w` bytes, and they are its digits. -/
  digits : ∀ n < 256 ^ w, (ofUnsigned host w n).data.length = w ∧
    ∀ i < w, ∃ c, (ofUnsigned host w n).data[i]? = some c ∧ c.toNat = n / 256 ^ i % 256
  /-- It is decoded to the integer. -/
  decodes : ∀ n < 256 ^ w, (ofUnsigned host w n).value host w = n
  /-- An array of `w` bytes is what is made of the integer it is decoded to. -/
  encodes : ∀ b : ByteArray, b.data.length = w →
    (ofUnsigned host w (b.value host w)).data = b.data

theorem data_ofUnsigned (host : Host) (w n : Nat) : (ofUnsigned host w n).data = encode w n := by
  simp [ofUnsigned, ByteOrder.store_toLittle, charsPerVal, charSize, Nat.mod_one]

/-- An array that is as long as the integer is decoded to what it stands for. -/
theorem value_of_length {b : ByteArray} {w : Nat} (host : Host) (h : b.data.length = w) :
    b.value host w = decode b.data := by
  rw [value_eq, map_byteAt_range h.ge, List.take_of_length_le h.le]

/-- **The round trip.** -/
theorem roundTrip (host : Host) (w : Nat) : RoundTrip host w where
  digits := by
    intro n _
    rw [data_ofUnsigned]
    refine ⟨length_encode w n, fun i hi => ⟨_, getElem?_encode hi, ?_⟩⟩
    simp [UInt8.toNat_ofNat']
  decodes := by
    intro n hn
    have hlen : (ofUnsigned host w n).data.length = w := by simp [data_ofUnsigned]
    rw [value_of_length host hlen, data_ofUnsigned, decode_encode hn]
  encodes := by
    intro b hb
    rw [data_ofUnsigned, value_of_length host hb, encode_decode_of_length hb]

/-! ## The operators -/

/-- The operators that take the array for an unsigned integer of 64 bits. -/
inductive Operator where
  | and
  | or
  | xor
  | complement
  | not
  | compare
  | mod
  deriving DecidableEq, Repr

/-- The operator, applied to the array and to `n`, gives what it gives of the
integer that `to_i` returns, bit by bit where it is bitwise. -/
def Agrees (b : ByteArray) (host : Host) (n : UInt64) : Operator → Prop
  | .and => ∃ r t, (b.and host n).run {} = (.ok r, t) ∧
      ∀ i, r.toNat.testBit i = ((b.value host 8).testBit i && n.toNat.testBit i)
  | .or => ∃ r t, (b.or host n).run {} = (.ok r, t) ∧
      ∀ i, r.toNat.testBit i = ((b.value host 8).testBit i || n.toNat.testBit i)
  | .xor => ∃ r t, (b.xor host n).run {} = (.ok r, t) ∧
      ∀ i, r.toNat.testBit i = ((b.value host 8).testBit i ^^ n.toNat.testBit i)
  | .complement => ∃ r t, (b.complement host).run {} = (.ok r, t) ∧
      ∀ i < 64, r.toNat.testBit i = !(b.value host 8).testBit i
  | .not => ∃ r t, (b.not host).run {} = (.ok r, t) ∧ (r = true ↔ b.value host 8 = 0)
  | .compare => ∃ r t, (b.compare host n).run {} = (.ok r, t) ∧
      r = if b.value host 8 < n.toNat then -1 else if b.value host 8 = n.toNat then 0 else 1
  | .mod => ∃ r t, (b.mod host n).run {} = (.ok r, t) ∧ r.toNat = b.value host 8 % n.toNat

section Operators

variable {b : ByteArray} {host : Host} {n : UInt64}

/-- The integer that the operators work on. -/
theorem toUInt64_run (b : ByteArray) (host : Host) : ∃ v t, (b.toUInt64 host).run {} = (.ok v, t) ∧
    v.toNat = b.value host 8 := by
  have hrun := b.toI_run host 8 {}
  refine ⟨_, _, (Program.run_bind_ok hrun).trans (Program.run_pure _ _), ?_⟩
  rw [UInt64.toNat_ofNat', ← value_eq]
  exact Nat.mod_eq_of_lt (b.value_lt host 8)

/-- What follows from the integer of an operator that does nothing else. -/
theorem exists_run {α : Type} {f : UInt64 → Program Trace Trap α} {g : UInt64 → α} {Q : α → Prop}
    (hf : ∀ v t, (f v).run t = (.ok (g v), t))
    (hQ : ∀ v : UInt64, v.toNat = b.value host 8 → Q (g v)) :
    ∃ r t, (b.toUInt64 host >>= f).run {} = (.ok r, t) ∧ Q r := by
  obtain ⟨v, t, hrun, hv⟩ := b.toUInt64_run host
  exact ⟨g v, t, (Program.run_bind_ok hrun).trans (hf v t), hQ v hv⟩

theorem and_agrees : b.Agrees host n .and := by
  apply exists_run fun v t => Program.run_pure (v &&& n) t
  intro v hv i
  rw [UInt64.toNat_and, Nat.testBit_and, hv]

theorem or_agrees : b.Agrees host n .or := by
  apply exists_run fun v t => Program.run_pure (v ||| n) t
  intro v hv i
  rw [UInt64.toNat_or, Nat.testBit_or, hv]

theorem xor_agrees : b.Agrees host n .xor := by
  apply exists_run fun v t => Program.run_pure (v ^^^ n) t
  intro v hv i
  rw [UInt64.toNat_xor, Nat.testBit_xor, hv]

theorem complement_agrees : b.Agrees host n .complement := by
  apply exists_run fun v t => Program.run_pure (~~~v) t
  intro v hv i hi
  have hbit : (~~~v).toBitVec.getLsbD i = !v.toBitVec.getLsbD i := by
    simp [hi]
  rwa [BitVec.getLsbD, BitVec.getLsbD, UInt64.toNat_toBitVec, UInt64.toNat_toBitVec, hv] at hbit

theorem compare_agrees : b.Agrees host n .compare := by
  apply exists_run (g := fun v => if v < n then -1 else if v = n then 0 else 1)
  · intro v t
    show (match compareOfLessAndEq v n with
      | .lt => pure (-1)
      | .gt => pure 1
      | .eq => pure 0 : Program Trace Trap Int).run t = _
    unfold compareOfLessAndEq
    by_cases hlt : v < n
    · simp [hlt, Program.run_pure]
    · by_cases heq : v = n <;> simp [hlt, heq, Program.run_pure]
  · intro v hv
    rw [← hv]
    simp only [UInt64.lt_iff_toNat_lt, UInt64.toNat_inj]

/-- `!` says that the integer is not zero. -/
theorem not_disagrees : ¬ b.Agrees host n .not := by
  rintro ⟨r, t, hrun, hr⟩
  obtain ⟨v, t', hv, hvalue⟩ := b.toUInt64_run host
  rw [ByteArray.not, Program.run_bind_ok hv, Program.run_pure] at hrun
  obtain rfl : (v != 0) = r := by
    cases hrun
    rfl
  rw [← hvalue, bne_iff_ne, ne_eq, ← UInt64.toNat_inj] at hr
  by_cases hzero : v.toNat = 0 <;> simp_all

theorem mod_agrees_iff : b.Agrees host n .mod ↔ n ≠ 0 := by
  obtain ⟨v, t', hv, hvalue⟩ := b.toUInt64_run host
  have hrun : (b.mod host n).run {} =
      (if n = 0 then Program.throw .divisionByZero else pure (v % n) :
        Program Trace Trap UInt64).run t' := Program.run_bind_ok hv
  constructor
  · rintro ⟨r, t, hr, -⟩ rfl
    rw [hrun, if_pos rfl] at hr
    cases hr
  · intro hn
    rw [if_neg hn] at hrun
    exact ⟨v % n, t', hrun, by rw [UInt64.toNat_mod, hvalue]⟩

/-- **Which operators agree with the integer.**  `!` never does; `%` does if and
only if it is not passed a zero, which it divides by; the others always do. -/
theorem agrees_iff (b : ByteArray) (host : Host) (n : UInt64) :
    (∀ op, b.Agrees host n op ↔ op ≠ .not ∧ (op = .mod → n ≠ 0)) ∧ ¬ ∀ op, b.Agrees host n op := by
  refine ⟨fun op => ?_, fun hall => not_disagrees (hall .not)⟩
  cases op with
  | and => simp [and_agrees]
  | or => simp [or_agrees]
  | xor => simp [xor_agrees]
  | complement => simp [complement_agrees]
  | compare => simp [compare_agrees]
  | not => simp [not_disagrees]
  | mod => simp [mod_agrees_iff]

/-- `!` of an array that stands for one is true, and `%` of zero traps. -/
theorem not_agrees_one : ¬ (∀ op, Agrees { data := [1, 0, 0, 0, 0, 0, 0, 0] } { order := .little } 0 op) ∧
    ((ByteArray.not { data := [1, 0, 0, 0, 0, 0, 0, 0] } { order := .little }).run {}).1 = .ok true ∧
    ((ByteArray.mod { data := [1, 0, 0, 0, 0, 0, 0, 0] } { order := .little } 0).run {}).1 =
      .error .divisionByZero :=
  ⟨fun hall => not_disagrees (hall .not), by decide, by decide⟩

end Operators

/-! ## What a Ruby value is converted to -/

/-- The conversion raises, or gives what the value stands for: a string its bytes,
an integer the array that is decoded to it, and `true`, `false` and `nil` a
character; what is of no such class raises `std::invalid_argument`. -/
def Represents (host : Host) (r : Except RubyError ByteArray) : RubyValue → Prop
  | .string bytes => ∃ b, r = .ok b ∧ b.data = bytes
  | .byteArray b => ∃ b', r = .ok b' ∧ b'.data = b.data
  | .integer n => ∀ b, r = .ok b → (b.value host 8 : Int) = n
  | .true => ∃ b, r = .ok b ∧ b.data = ['1'.toUInt8]
  | .false | .nil => ∃ b, r = .ok b ∧ b.data = ['0'.toUInt8]
  | .numeric _ | .symbol _ | .other _ => ∃ what, r = .error (.invalidArgument what)

/-- Every value is represented, and every character by itself. -/
def ConvertsFaithfully (host : Host) : Prop :=
  (∀ v, Represents host (fromRuby host v) v) ∧
    ∀ c, ∃ b, ofChar c = .ok b ∧ b.data = [c]

/-- What the conversion is meant to do with a value other than `true`, `false` and
`nil`: a number is decoded to what `rb_num2ulong` makes of it, so a negative
integer to its two's complement; a symbol is taken for the string that Rice makes
of it. -/
def Converts (host : Host) (r : Except RubyError ByteArray) : RubyValue → Prop
  | .string bytes => ∃ b, r = .ok b ∧ b.data = bytes
  | .byteArray b => ∃ b', r = .ok b' ∧ b'.data = b.data
  | .integer n =>
      if -2 ^ 63 ≤ n ∧ n < 2 ^ 64 then
        ∃ b, r = .ok b ∧ (b.value host 8 : Int) = if n < 0 then n + 2 ^ 64 else n
      else r = .error .rangeError
  | .numeric toUlong =>
      (∀ u, toUlong = .ok u → ∃ b, r = .ok b ∧ b.value host 8 = u.toNat) ∧
        ∀ e, toUlong = .error e → r = .error e
  | .symbol str =>
      (∀ bytes, str = .ok bytes → ∃ b, r = .ok b ∧ b.data = bytes) ∧
        ∀ e, str = .error e → r = .error e
  | .true | .false | .nil => True
  | .other inspect =>
      r = .error (.invalidArgument ("Cannot convert " ++ inspect ++ " to a ByteArray"))

section FromRuby

variable {host : Host}

theorem value_ofUInt64 (host : Host) (u : UInt64) :
    (ofUnsigned host 8 u.toNat).value host 8 = u.toNat := by
  have hlen : (ofUnsigned host 8 u.toNat).data.length = 8 := by simp [data_ofUnsigned]
  rw [value_of_length host hlen, data_ofUnsigned, decode_encode u.toNat_lt]

/-- An integer in range is decoded to itself, or to its two's complement. -/
theorem rbNum2ulong_of_range {n : Int} (h : -2 ^ 63 ≤ n ∧ n < 2 ^ 64) :
    ∃ u, rbNum2ulong n = .ok u ∧ (u.toNat : Int) = if n < 0 then n + 2 ^ 64 else n := by
  refine ⟨_, if_pos h, ?_⟩
  rw [UInt64.toNat_ofNat']
  by_cases hneg : n < 0
  · rw [if_pos hneg]
    omega
  · rw [if_neg hneg]
    omega

/-- **What a Ruby value is converted to.** -/
theorem fromRuby_converts (host : Host) (v : RubyValue) : Converts host (fromRuby host v) v := by
  cases v with
  | byteArray b => exact ⟨b, rfl, rfl⟩
  | string bytes => exact ⟨_, rfl, rfl⟩
  | integer n =>
      simp only [Converts]
      by_cases hrange : -2 ^ 63 ≤ n ∧ n < 2 ^ 64
      · obtain ⟨u, hu, hvalue⟩ := rbNum2ulong_of_range hrange
        rw [if_pos hrange]
        exact ⟨_, by rw [fromRuby, hu]; rfl, by rw [value_ofUInt64, hvalue]⟩
      · rw [if_neg hrange, fromRuby, rbNum2ulong, if_neg hrange]
        rfl
  | numeric toUlong =>
      refine ⟨?_, ?_⟩
      · rintro u rfl
        exact ⟨_, rfl, value_ofUInt64 host u⟩
      · rintro e rfl
        rfl
  | symbol str =>
      refine ⟨?_, ?_⟩
      · rintro bytes rfl
        exact ⟨_, rfl, rfl⟩
      · rintro e rfl
        rfl
  | nil | true | false => trivial
  | other inspect => rfl

/-- Minus one is decoded to the greatest integer of 64 bits. -/
theorem not_convertsFaithfully : ¬ ∀ host, ConvertsFaithfully host := by
  intro hall
  have hrepresents := (hall { order := .little }).1 (.integer (-1)) _ rfl
  rw [value_ofUInt64] at hrepresents
  revert hrepresents
  decide

end FromRuby

end ByteArray

end RuBLE
