import Mathlib
import RuBLE.Library.Hex

/-!
# Hexadecimal rendering

The model of `utils/hexadecimal.hpp`: numbers and data as hexadecimal text, with
or without the prefix.  The routine that writes the digits of a range of bytes,
`boost::algorithm::hex_lower`, is a parameter; `HexLower` is what is relied on.

* `refToHexString`, `rangeToHexData`, `toHexString`, `toHexData` — the functions
  of the file.
* `numberDecodable_refToHexString`, `dataDecodable_rangeToHexData` — the inner
  functions give text that can be read back, with and without the prefix.
* `hex_decodable_iff` — **the outer functions** do so exactly with the prefix: they
  do not hand their template argument on, so without it the prefix is still there.
-/

namespace RuBLE.Hexadecimal

/-! ## The functions -/

/-- `hex_string_prefix`. -/
def hexStringPrefix : String := "0x"

/-- `std::format` with `{:#0{}x}`, or with `{:0{}x}`: the number in lower-case
digits, filled with zeros between the prefix and the digits. -/
def formatHex (alternate : Bool) (num width : Nat) : String :=
  let start := if alternate then "0x" else ""
  let digits := Nat.toDigits 16 num
  start ++ String.ofList (List.replicate (width - start.length - digits.length) '0' ++ digits)

/-- `ref_to_hex_string`, for a type of `size` bytes. -/
def refToHexString (size num : Nat) (withPrefix : Bool := true) : String :=
  let resultLen := max 2 (size * 2) + if withPrefix then 2 else 0
  formatHex withPrefix num resultLen

/-- `to_hex_string`.  The call inside leaves the template argument to its
default. -/
def toHexString (size num : Nat) (_withPrefix : Bool := true) : String := refToHexString size num

section

variable (hexLower : List UInt8 → String)

/-- `range_to_hex_data`. -/
def rangeToHexData (data : List UInt8) (withPrefix : Bool := true) : String :=
  let prefixLen := if withPrefix then hexStringPrefix.length else 0
  let input := data.dropWhile (· == 0)
  let output := (if withPrefix then hexStringPrefix else "") ++ hexLower input
  let movedHexPairs := output.length - prefixLen
  if movedHexPairs = 0 then output ++ "00" else output

/-- `to_hex_data`.  The call inside leaves the template argument to its
default. -/
def toHexData (data : List UInt8) (_withPrefix : Bool := true) : String :=
  rangeToHexData hexLower data

/-- `boost::algorithm::hex_lower` writes two lower-case digits for each byte. -/
def HexLower : Prop := ∀ data, hexLower data = String.ofList (data.flatMap Hex.pair)

end

/-! ## Text that can be read back -/

/-- The text in front of the digits. -/
def prefixText (withPrefix : Bool) : String := if withPrefix then "0x" else ""

/-- The text is the prefix that was asked for and the digits of this number, as
many as its type has. -/
def NumberDecodable (size num : Nat) (withPrefix : Bool) (text : String) : Prop :=
  ∃ digits, text = prefixText withPrefix ++ String.ofList digits ∧
    digits.length = max 2 (2 * size) ∧ Hex.number digits = some num

/-- The text is the prefix that was asked for and the digits of these bytes from
the first that is not null, or of one null byte if there is none. -/
def DataDecodable (data : List UInt8) (withPrefix : Bool) (text : String) : Prop :=
  let rest := data.dropWhile (· == 0)
  ∃ digits, text = prefixText withPrefix ++ String.ofList digits ∧
    digits = (if rest = [] then ['0', '0'] else rest.flatMap Hex.pair) ∧
    Hex.bytes digits = some (if rest = [] then [0] else rest)

/-- **Numbers.**  `ref_to_hex_string` gives all digits of the type, with and
without the prefix. -/
theorem numberDecodable_refToHexString {size num : Nat} (hnum : num < 256 ^ size)
    (withPrefix : Bool) :
    NumberDecodable size num withPrefix (refToHexString size num withPrefix) := by
  have hdigits : (Nat.toDigits 16 num).length ≤ max 2 (2 * size) := by
    rw [Nat.length_toDigits_le_iff (by omega) (by omega)]
    calc num < 256 ^ size := hnum
      _ = 16 ^ (2 * size) := by rw [Nat.pow_mul]
      _ ≤ 16 ^ max 2 (2 * size) := Nat.pow_le_pow_right (by omega) (le_max_right ..)
  refine ⟨List.replicate (max 2 (2 * size) - (Nat.toDigits 16 num).length) '0' ++
    Nat.toDigits 16 num, ?_, ?_, ?_⟩
  · have hlen : "0x".length = 2 := by decide
    cases withPrefix with
    | true => simp [refToHexString, formatHex, prefixText, hlen, Nat.mul_comm]
    | false => simp [refToHexString, formatHex, prefixText, Nat.mul_comm]
  · rw [List.length_append, List.length_replicate]
    omega
  · rw [Hex.number_replicate_zero, Hex.number_toDigits]

/-- What `range_to_hex_data` writes. -/
theorem rangeToHexData_eq {hexLower : List UInt8 → String} (hboost : HexLower hexLower)
    (data : List UInt8) (withPrefix : Bool) :
    rangeToHexData hexLower data withPrefix = prefixText withPrefix ++ String.ofList
      (if data.dropWhile (· == 0) = [] then ['0', '0']
        else (data.dropWhile (· == 0)).flatMap Hex.pair) := by
  have hwrite : ∀ input, hexLower input = String.ofList (input.flatMap Hex.pair) := hboost
  unfold rangeToHexData
  simp only [hwrite]
  cases data.dropWhile (· == 0) with
  | nil => cases withPrefix <;> rfl
  | cons b rest =>
      -- two digits have been written at least, so nothing is added
      cases withPrefix <;> simp [prefixText, hexStringPrefix, Hex.pair]

/-- **Data.**  `range_to_hex_data` gives the bytes without the null bytes in front,
with and without the prefix. -/
theorem dataDecodable_rangeToHexData {hexLower : List UInt8 → String} (hboost : HexLower hexLower)
    (data : List UInt8) (withPrefix : Bool) :
    DataDecodable data withPrefix (rangeToHexData hexLower data withPrefix) := by
  refine ⟨_, rangeToHexData_eq hboost data withPrefix, rfl, ?_⟩
  cases data.dropWhile (· == 0) with
  | nil => rfl
  | cons b rest => simp only [reduceCtorEq, if_false, Hex.bytes_pairs]

/-- Text with the prefix has no digits right from its start. -/
theorem not_prefixed (digits digits' : List Char)
    (h : prefixText true ++ String.ofList digits = prefixText false ++ String.ofList digits') :
    digits' = '0' :: 'x' :: digits := by
  have hlist := congrArg String.toList h
  simpa [prefixText] using hlist.symm

/-- **The outer functions.**  What `to_hex_data` and `to_hex_string` give can be
read back, with the prefix that was asked for and no other, exactly when the
prefix was asked for. -/
theorem hex_decodable_iff (hexLower : List UInt8 → String) (hboost : HexLower hexLower)
    (withPrefix : Bool) :
    (∀ data, DataDecodable data withPrefix (toHexData hexLower data withPrefix) ↔
        withPrefix = true) ∧
      ∀ size num, num < 256 ^ size →
        (NumberDecodable size num withPrefix (toHexString size num withPrefix) ↔
          withPrefix = true) := by
  constructor
  · intro data
    have htrue := dataDecodable_rangeToHexData hboost data true
    cases withPrefix with
    | true => simpa [toHexData] using htrue
    | false =>
        obtain ⟨digits, htext, -, -⟩ := htrue
        simp only [Bool.false_eq_true, iff_false]
        rintro ⟨digits', htext', -, hbytes⟩
        have hdigits := not_prefixed digits digits' (htext.symm.trans htext')
        rw [hdigits] at hbytes
        cases hbytes
  · intro size num hnum
    have htrue := numberDecodable_refToHexString hnum true
    cases withPrefix with
    | true => simpa [toHexString] using htrue
    | false =>
        obtain ⟨digits, htext, -, -⟩ := htrue
        simp only [Bool.false_eq_true, iff_false]
        rintro ⟨digits', htext', -, hnumber⟩
        have hdigits := not_prefixed digits digits' (htext.symm.trans htext')
        rw [hdigits] at hnumber
        cases hnumber

theorem hex_decodable_address :
    DataDecodable [0, 10, 255] true "0x0aff" ∧ NumberDecodable 2 255 true "0x00ff" := by
  have h := hex_decodable_iff (fun data => String.ofList (data.flatMap Hex.pair)) (fun _ => rfl) true
  constructor
  · have hdata := (h.1 [0, 10, 255]).2 rfl
    have htext : toHexData (fun data => String.ofList (data.flatMap Hex.pair)) [0, 10, 255] true =
        "0x0aff" := by decide +kernel
    rwa [htext] at hdata
  · have hnumber := (h.2 2 255 (by decide)).2 rfl
    have htext : toHexString 2 255 true = "0x00ff" := by decide +kernel
    rwa [htext] at hnumber

/-- The prefix is there although it was not asked for. -/
theorem hex_without_prefix :
    toHexData (fun data => String.ofList (data.flatMap Hex.pair)) [10] false = "0x0a" ∧
      ¬DataDecodable [10] false "0x0a" ∧
      toHexString 1 10 false = "0x0a" ∧ ¬NumberDecodable 1 10 false "0x0a" := by
  refine ⟨by decide +kernel, ?_, by decide +kernel, ?_⟩
  · rintro ⟨digits, htext, -, hbytes⟩
    rw [not_prefixed ['0', 'a'] digits htext] at hbytes
    cases hbytes
  · rintro ⟨digits, htext, -, hnumber⟩
    rw [not_prefixed ['0', 'a'] digits htext] at hnumber
    cases hnumber

end RuBLE.Hexadecimal
