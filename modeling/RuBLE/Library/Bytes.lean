import Mathlib

/-!
# Numbers as bytes

A number below `256 ^ w` is kept in `w` bytes, the least significant first.  How
a host keeps it in memory depends on its byte order.

* `encode`, `decode` — numbers and lists of bytes; `decode_encode` and
  `encode_decode` say that they are inverse to each other, and `decode_eq_sum`
  gives the value digit by digit.
* `ByteOrder.store`, `ByteOrder.load` — what a host writes and reads.
* `ByteOrder.toLittle` — the conversion between a number of the host and its
  little-endian reading; `store_toLittle` and `toLittle_load` say that it cancels
  against the host's own order, whatever that is.
-/

namespace Bytes

/-! ## Little-endian digits -/

/-- The number with these digits in base 256. -/
def decode (bs : List UInt8) : Nat := Nat.ofDigits 256 (bs.map (·.toNat))

/-- The first `w` digits of a number in base 256. -/
def encode (w n : Nat) : List UInt8 := (List.range w).map fun i => UInt8.ofNat (n / 256 ^ i)

@[simp] theorem length_encode (w n : Nat) : (encode w n).length = w := by simp [encode]

@[simp] theorem decode_nil : decode [] = 0 := rfl

theorem decode_append (bs cs : List UInt8) :
    decode (bs ++ cs) = decode bs + 256 ^ bs.length * decode cs := by
  simp [decode, Nat.ofDigits_append]

theorem decode_concat (bs : List UInt8) (b : UInt8) :
    decode (bs ++ [b]) = decode bs + 256 ^ bs.length * b.toNat := by
  rw [decode_append]
  simp [decode]

theorem lt_of_mem_digits (bs : List UInt8) : ∀ d ∈ bs.map (·.toNat), d < 256 := by
  intro d h
  obtain ⟨b, -, rfl⟩ := List.mem_map.1 h
  exact b.toNat_lt

theorem decode_lt (bs : List UInt8) : decode bs < 256 ^ bs.length := by
  simpa [decode] using Nat.ofDigits_lt_base_pow_length (b := 256) (by omega) (lt_of_mem_digits bs)

/-- The digits of a number give the number back, as far as they go. -/
theorem decode_encode_mod (w n : Nat) : decode (encode w n) = n % 256 ^ w := by
  induction w with
  | zero => simp [encode, Nat.mod_one]
  | succ w ih =>
      have hlast : encode (w + 1) n = encode w n ++ [UInt8.ofNat (n / 256 ^ w)] := by
        simp [encode, List.range_succ]
      rw [hlast, decode_concat, ih, length_encode, Nat.mod_pow_succ, UInt8.toNat_ofNat']

theorem decode_encode {w n : Nat} (h : n < 256 ^ w) : decode (encode w n) = n := by
  rw [decode_encode_mod, Nat.mod_eq_of_lt h]

/-- Lists of the same length are told apart by the numbers they stand for. -/
theorem decode_injective {bs cs : List UInt8} (hlen : bs.length = cs.length)
    (h : decode bs = decode cs) : bs = cs := by
  have hmap : bs.map (·.toNat) = cs.map (·.toNat) :=
    Nat.ofDigits_inj_of_len_eq (by omega) (by simpa using hlen) (lt_of_mem_digits bs)
      (lt_of_mem_digits cs) h
  exact List.map_injective_iff.2 (fun _ _ => UInt8.toNat_inj.1) hmap

theorem encode_decode (bs : List UInt8) : encode bs.length (decode bs) = bs :=
  decode_injective (length_encode _ _) (decode_encode (decode_lt bs))

theorem encode_decode_of_length {bs : List UInt8} {w : Nat} (h : bs.length = w) :
    encode w (decode bs) = bs := by
  rw [← h, encode_decode]

/-- The value of a list of bytes, digit by digit. -/
theorem decode_eq_sum (bs : List UInt8) :
    decode bs = ∑ i ∈ Finset.range bs.length, (bs.getD i 0).toNat * 256 ^ i := by
  induction bs using List.reverseRecOn with
  | nil => simp
  | append_singleton bs b ih =>
      rw [decode_concat, ih, List.length_append, List.length_singleton, Finset.sum_range_succ]
      congr 1
      · refine Finset.sum_congr rfl fun i hi => ?_
        have hlt : i < bs.length := by simpa using hi
        simp [List.getD, List.getElem?_append_left hlt]
      · simp [Nat.mul_comm]

/-- A digit of an encoded number. -/
theorem getElem?_encode {w n i : Nat} (h : i < w) :
    (encode w n)[i]? = some (UInt8.ofNat (n / 256 ^ i)) := by
  simp [encode, List.getElem?_range h]

/-! ## Byte orders -/

/-- The order in which a host keeps the bytes of a number in memory. -/
inductive ByteOrder where
  | little
  | big
  deriving DecidableEq, Repr

namespace ByteOrder

/-- Bytes from the least significant on, as they stand in memory; and bytes as
they stand in memory, from the least significant on. -/
def arrange : ByteOrder → List UInt8 → List UInt8
  | .little, bs => bs
  | .big, bs => bs.reverse

/-- What a host writes for a number of `w` bytes. -/
def store (order : ByteOrder) (w n : Nat) : List UInt8 := order.arrange (encode w n)

/-- The number a host reads. -/
def load (order : ByteOrder) (bs : List UInt8) : Nat := decode (order.arrange bs)

/-- The bytes of a number of `w` bytes are reversed where the host is not
little-endian. -/
def toLittle (order : ByteOrder) (w n : Nat) : Nat :=
  match order with
  | .little => n
  | .big => decode (encode w n).reverse

@[simp] theorem arrange_arrange (order : ByteOrder) (bs : List UInt8) :
    order.arrange (order.arrange bs) = bs := by
  cases order <;> simp [arrange]

@[simp] theorem length_arrange (order : ByteOrder) (bs : List UInt8) :
    (order.arrange bs).length = bs.length := by
  cases order <;> simp [arrange]

@[simp] theorem length_store (order : ByteOrder) (w n : Nat) : (order.store w n).length = w := by
  simp [store]

/-- **Writing.**  A number that has been converted stands in memory from its
least significant byte on. -/
theorem store_toLittle (order : ByteOrder) (w n : Nat) :
    order.store w (order.toLittle w n) = encode w n := by
  cases order with
  | little => rfl
  | big =>
      have hlen : (encode w n).reverse.length = w := by simp
      show (encode w (decode (encode w n).reverse)).reverse = encode w n
      rw [encode_decode_of_length hlen, List.reverse_reverse]

/-- **Reading.**  What is converted after it has been read has the first byte in
memory for its least significant one. -/
theorem toLittle_load (order : ByteOrder) {w : Nat} {bs : List UInt8} (h : bs.length = w) :
    order.toLittle w (order.load bs) = decode bs := by
  cases order with
  | little => rfl
  | big =>
      have hlen : bs.reverse.length = w := by simpa using h
      show decode (encode w (decode bs.reverse)).reverse = decode bs
      rw [encode_decode_of_length hlen, List.reverse_reverse]

end ByteOrder

end Bytes
