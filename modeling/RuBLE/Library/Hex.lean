import Mathlib

/-!
# Hexadecimal text

Numbers and bytes in lower-case hexadecimal digits, and the readers that take
them back.

* `value`, `number` — the value of a digit and of a row of digits;
  `number_toDigits` and `number_replicate_zero` say what the digits of a number,
  and zeros in front of them, are read as.
* `pair`, `bytes` — the two digits of a byte, and the bytes of a row of digits;
  `bytes_pairs` — **reading what was written** gives the bytes back.
-/

namespace Hex

/-- The value of a digit. -/
def value (c : Char) : Option Nat :=
  if '0' ≤ c ∧ c ≤ '9' then some (c.toNat - 48)
  else if 'a' ≤ c ∧ c ≤ 'f' then some (c.toNat - 87)
  else none

/-- The number that starts with `n` and goes on with these digits. -/
def numberFrom (n : Nat) : List Char → Option Nat
  | [] => some n
  | c :: cs => (value c).bind fun d => numberFrom (16 * n + d) cs

/-- The value of a row of digits. -/
def number (cs : List Char) : Option Nat := numberFrom 0 cs

/-- The two digits of a byte. -/
def pair (b : UInt8) : List Char := [Nat.digitChar (b.toNat / 16), Nat.digitChar (b.toNat % 16)]

/-- The bytes of a row of digits, two for each byte. -/
def bytes : List Char → Option (List UInt8)
  | [] => some []
  | [_] => none
  | c :: d :: cs =>
      (value c).bind fun high => (value d).bind fun low =>
        (bytes cs).map fun bs => UInt8.ofNat (16 * high + low) :: bs

theorem value_digitChar {d : Nat} (h : d < 16) : value (Nat.digitChar d) = some d := by
  interval_cases d <;> rfl

/-! ## Numbers -/

theorem numberFrom_append (n : Nat) (cs ds : List Char) :
    numberFrom n (cs ++ ds) = (numberFrom n cs).bind fun m => numberFrom m ds := by
  induction cs generalizing n with
  | nil => rfl
  | cons c cs ih =>
      rw [List.cons_append, numberFrom, numberFrom]
      cases value c with
      | none => rfl
      | some d => exact ih _

/-- The digits of a number have its value. -/
theorem number_toDigits (n : Nat) : number (Nat.toDigits 16 n) = some n := by
  induction n using Nat.strong_induction_on with
  | _ n ih =>
      rw [Nat.toDigits_eq_if (by omega)]
      by_cases h : n < 16
      · simp [h, number, numberFrom, value_digitChar h]
      · have hdiv : number (Nat.toDigits 16 (n / 16)) = some (n / 16) := ih _ (by omega)
        have hlast : value (Nat.digitChar (n % 16)) = some (n % 16) := value_digitChar (by omega)
        rw [if_neg h, number, numberFrom_append, ← number, hdiv]
        simp [numberFrom, hlast]
        omega

/-- Zeros in front of a number do not change it. -/
theorem number_replicate_zero (k : Nat) (cs : List Char) :
    number (List.replicate k '0' ++ cs) = number cs := by
  induction k with
  | zero => rfl
  | succ k ih =>
      rw [← ih]
      rfl

/-! ## Bytes -/

theorem bytes_append_pair (b : UInt8) (cs : List Char) :
    bytes (pair b ++ cs) = (bytes cs).map (b :: ·) := by
  have hlt : b.toNat < 256 := b.toNat_lt
  have hhigh : value (Nat.digitChar (b.toNat / 16)) = some (b.toNat / 16) :=
    value_digitChar (by omega)
  have hlow : value (Nat.digitChar (b.toNat % 16)) = some (b.toNat % 16) :=
    value_digitChar (by omega)
  have hbyte : UInt8.ofNat (16 * (b.toNat / 16) + b.toNat % 16) = b := by
    rw [Nat.div_add_mod, UInt8.ofNat_toNat]
  simp only [pair, List.cons_append, List.nil_append, bytes, hhigh, hlow, Option.bind_some, hbyte]

/-- **Reading what was written.**  The digits of a row of bytes are read as these
bytes. -/
theorem bytes_pairs (bs : List UInt8) : bytes (bs.flatMap pair) = some bs := by
  induction bs with
  | nil => rfl
  | cons b bs ih => rw [List.flatMap_cons, bytes_append_pair, ih, Option.map_some]

end Hex
