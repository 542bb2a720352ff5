import Wiselib.Library.ByteBuffer
import Wiselib.Library.Ieee754

/-!
# Floating point numbers of four bytes

`FpSerialization` of `util/serialization/floating_point.h` for a `double` of four
bytes: `write` turns it into a double of eight bytes, `read` turns it back.  Both
specialisations, for little and for big endian hosts, are one definition that takes
the bytes from the most significant one on.

## Strategy

Each byte written is a sum of parts of two bytes of the value (`toNat_or_of_dvd`),
so the eight bytes are the pattern of double precision with `896` added to the
exponent and the mantissa moved to the top (`numberOf_writeBytes`).  The rest is the
widening of formats.  The exponents zero and `255` are not looked at: zero is
written as `2^-127`, an infinity as `2^128`.
-/

namespace Wiselib.Codecs.FloatingPoint

open Ieee754

local instance fourBytes : NeZero 4 := ⟨four_ne_zero⟩

/-- The order of bytes of the host. -/
inductive Endianness
  | little
  | big

/-- The bytes of the value, the most significant one first. -/
def Endianness.bytes (endianness : Endianness) (value : Fin 4 → UInt8) : Fin 4 → UInt8 :=
  match endianness with
  | .little => ![value 3, value 2, value 1, value 0]
  | .big => value

/-- The eight bytes of `write`. -/
def writeBytes (val : Fin 4 → UInt8) : Fin 8 → UInt8 :=
  -- sign bit and first bit of the exponent, then three bits behind it
  let first := val 0 &&& (0x80 ||| 0x40) ||| (val 0 >>> (3 : UInt8) &&& 0x07)
  ![if val 0 &&& 0x40 = 0 then first ||| 0x38 else first,
    (val 0 <<< (5 : UInt8) &&& 0xe0) ||| (val 1 >>> (3 : UInt8) &&& 0x10) |||
      (val 1 >>> (3 : UInt8) &&& 0x0f),
    (val 1 <<< (5 : UInt8) &&& 0xe0) ||| (val 2 >>> (3 : UInt8) &&& 0x1f),
    (val 2 <<< (5 : UInt8) &&& 0xe0) ||| (val 3 >>> (3 : UInt8) &&& 0x1f),
    val 3 <<< (5 : UInt8) &&& 0xe0, 0, 0, 0]

/-- `write`. -/
def write (endianness : Endianness) (value : Fin 4 → UInt8) : Fin 8 → UInt8 :=
  writeBytes (endianness.bytes value)

/-- The four bytes of `read`. -/
def readBytes (target : Fin 8 → UInt8) : Fin 4 → UInt8 :=
  ![(target 0 &&& 0xc0) ||| (target 0 <<< (3 : UInt8) &&& 0x38) |||
      (target 1 >>> (5 : UInt8) &&& 0x07),
    (target 1 <<< (3 : UInt8) &&& 0xf8) ||| (target 2 >>> (5 : UInt8) &&& 0x07),
    (target 2 <<< (3 : UInt8) &&& 0xf8) ||| (target 3 >>> (5 : UInt8) &&& 0x07),
    (target 3 <<< (3 : UInt8) &&& 0xf8) ||| (target 4 >>> (5 : UInt8) &&& 0x07)]

/-- `read`. -/
def read (endianness : Endianness) (target : Fin 8 → UInt8) : Fin 4 → UInt8 :=
  endianness.bytes (readBytes target)

/-- The bit pattern that a value has in the memory of a host. -/
def pattern (endianness : Endianness) (value : Fin 4 → UInt8) : ℕ :=
  ByteBuffer.numberOf (List.ofFn (endianness.bytes value))

/-- The bit pattern of the bytes written. -/
def widePattern (target : Fin 8 → UInt8) : ℕ :=
  ByteBuffer.numberOf (List.ofFn target)

/-! ## Bytes -/

@[simp] theorem bytes_bytes (endianness : Endianness) (value : Fin 4 → UInt8) :
    endianness.bytes (endianness.bytes value) = value := by
  cases endianness with
  | little =>
      funext i
      fin_cases i <;> rfl
  | big => rfl

theorem toNat_or_of_dvd {a b : UInt8} (i : ℕ) (ha : 2 ^ i ∣ a.toNat) (hb : b.toNat < 2 ^ i) :
    (a ||| b).toNat = a.toNat + b.toNat := by
  obtain ⟨c, hc⟩ := ha
  rw [UInt8.toNat_or, hc, Nat.two_pow_add_eq_or_of_lt hb]

theorem toNat_shiftLeft_five :
    ∀ m : UInt8, (m <<< (5 : UInt8) &&& 0xe0).toNat = m.toNat % 8 * 32 := by
  decide +kernel

theorem toNat_shiftRight_three :
    ∀ m : UInt8, (m >>> (3 : UInt8) &&& 0x1f).toNat = m.toNat / 8 := by
  decide +kernel

theorem shiftRight_three_split :
    ∀ m : UInt8, (m >>> (3 : UInt8) &&& 0x10) ||| (m >>> (3 : UInt8) &&& 0x0f) =
      m >>> (3 : UInt8) &&& 0x1f := by
  decide +kernel

theorem toNat_shiftLeft_three :
    ∀ m : UInt8, (m <<< (3 : UInt8) &&& 0xf8).toNat = m.toNat % 32 * 8 := by
  decide +kernel

theorem toNat_shiftRight_five :
    ∀ m : UInt8, (m >>> (5 : UInt8) &&& 0x07).toNat = m.toNat / 32 := by
  decide +kernel

theorem toNat_first : ∀ m : UInt8,
    (if m &&& 0x40 = 0 then (m &&& (0x80 ||| 0x40) ||| (m >>> (3 : UInt8) &&& 0x07)) ||| 0x38
      else m &&& (0x80 ||| 0x40) ||| (m >>> (3 : UInt8) &&& 0x07)).toNat =
        m.toNat / 128 * 128 + 56 + m.toNat % 128 / 8 := by
  decide +kernel

theorem toNat_back : ∀ m : UInt8, ((m &&& 0xc0) ||| (m <<< (3 : UInt8) &&& 0x38)).toNat =
    m.toNat / 64 * 64 + m.toNat % 8 * 8 := by
  decide +kernel

section Bytes

variable (val : Fin 4 → UInt8)

theorem toNat_spread (m next : UInt8) :
    ((m <<< (5 : UInt8) &&& 0xe0) ||| (next >>> (3 : UInt8) &&& 0x1f)).toNat =
      m.toNat % 8 * 32 + next.toNat / 8 := by
  have hnext := next.toNat_lt
  have hhigh := toNat_shiftLeft_five m
  have hlow := toNat_shiftRight_three next
  rw [toNat_or_of_dvd 5 ⟨m.toNat % 8, by omega⟩ (by omega), hhigh, hlow]

theorem toNat_gather (m next : UInt8) :
    ((m <<< (3 : UInt8) &&& 0xf8) ||| (next >>> (5 : UInt8) &&& 0x07)).toNat =
      m.toNat % 32 * 8 + next.toNat / 32 := by
  have hnext := next.toNat_lt
  have hhigh := toNat_shiftLeft_three m
  have hlow := toNat_shiftRight_five next
  rw [toNat_or_of_dvd 3 ⟨m.toNat % 32, by omega⟩ (by omega), hhigh, hlow]

/-- **The bytes written**, as numbers. -/
theorem toNat_writeBytes :
    (writeBytes val 0).toNat =
        (val 0).toNat / 128 * 128 + 56 + (val 0).toNat % 128 / 8 ∧
      (writeBytes val 1).toNat = (val 0).toNat % 8 * 32 + (val 1).toNat / 8 ∧
      (writeBytes val 2).toNat = (val 1).toNat % 8 * 32 + (val 2).toNat / 8 ∧
      (writeBytes val 3).toNat = (val 2).toNat % 8 * 32 + (val 3).toNat / 8 ∧
      (writeBytes val 4).toNat = (val 3).toNat % 8 * 32 := by
  refine ⟨toNat_first _, ?_, toNat_spread _ _, toNat_spread _ _, toNat_shiftLeft_five _⟩
  rw [← toNat_spread, ← shiftRight_three_split, ← UInt8.or_assoc]
  rfl

/-- **The bytes are read back.** -/
theorem readBytes_writeBytes : readBytes (writeBytes val) = val := by
  obtain ⟨h0, h1, h2, h3, h4⟩ := toNat_writeBytes val
  have hfirst := (val 0).toNat_lt
  have hsecond := (val 1).toNat_lt
  have hthird := (val 2).toNat_lt
  have hfourth := (val 3).toNat_lt
  have hhigh := toNat_back (writeBytes val 0)
  have hlow := toNat_shiftRight_five (writeBytes val 1)
  have hback0 : (readBytes (writeBytes val) 0).toNat = (val 0).toNat := by
    calc (readBytes (writeBytes val) 0).toNat
        = (writeBytes val 0).toNat / 64 * 64 + (writeBytes val 0).toNat % 8 * 8 +
            (writeBytes val 1).toNat / 32 := by
          refine (toNat_or_of_dvd 3 ⟨(writeBytes val 0).toNat / 64 * 8 +
            (writeBytes val 0).toNat % 8, by rw [hhigh]; ring⟩ (by rw [hlow]; omega)).trans ?_
          rw [hhigh, hlow]
      _ = (val 0).toNat := by omega
  have hback1 : (readBytes (writeBytes val) 1).toNat = (val 1).toNat :=
    (toNat_gather (writeBytes val 1) (writeBytes val 2)).trans (by omega)
  have hback2 : (readBytes (writeBytes val) 2).toNat = (val 2).toNat :=
    (toNat_gather (writeBytes val 2) (writeBytes val 3)).trans (by omega)
  have hback3 : (readBytes (writeBytes val) 3).toNat = (val 3).toNat :=
    (toNat_gather (writeBytes val 3) (writeBytes val 4)).trans (by omega)
  funext i
  fin_cases i
  exacts [UInt8.toNat_inj.1 hback0, UInt8.toNat_inj.1 hback1, UInt8.toNat_inj.1 hback2,
    UInt8.toNat_inj.1 hback3]

theorem numberOf_four :
    ByteBuffer.numberOf (List.ofFn val) = (val 0).toNat * 256 ^ 3 + (val 1).toNat * 256 ^ 2 +
      (val 2).toNat * 256 + (val 3).toNat := by
  simp [List.ofFn_succ, ByteBuffer.numberOf]
  ring

theorem numberOf_eight (target : Fin 8 → UInt8) :
    widePattern target = (target 0).toNat * 256 ^ 7 + (target 1).toNat * 256 ^ 6 +
      (target 2).toNat * 256 ^ 5 + (target 3).toNat * 256 ^ 4 + (target 4).toNat * 256 ^ 3 +
      (target 5).toNat * 256 ^ 2 + (target 6).toNat * 256 + (target 7).toNat := by
  simp [widePattern, List.ofFn_succ, ByteBuffer.numberOf]
  ring

/-! ## Patterns -/

/-- The exponent of the bytes. -/
def exponentOf : ℕ := (val 0).toNat % 128 * 2 + (val 1).toNat / 128

/-- The mantissa of the bytes. -/
def mantissaOf : ℕ := (val 1).toNat % 128 * 256 ^ 2 + (val 2).toNat * 256 + (val 3).toNat

/-- The sign of the bytes. -/
def negativeOf : Bool := decide (128 ≤ (val 0).toNat)

theorem exponentOf_lt : exponentOf val < 256 := by
  have hsecond := (val 1).toNat_lt
  rw [exponentOf]
  omega

theorem mantissaOf_lt : mantissaOf val < 2 ^ 23 := by
  have hthird := (val 2).toNat_lt
  have hfourth := (val 3).toNat_lt
  rw [mantissaOf]
  omega

theorem sign_eq : (if negativeOf val then 1 else 0) = (val 0).toNat / 128 := by
  have hfirst := (val 0).toNat_lt
  rw [negativeOf]
  split
  · rename_i hnegative
    have hlarge := of_decide_eq_true hnegative
    omega
  · rename_i hpositive
    have hsmall := of_decide_eq_false (Bool.eq_false_of_not_eq_true hpositive)
    omega

theorem numberOf_eq_pack : ByteBuffer.numberOf (List.ofFn val) =
    binary32.pack (negativeOf val) (exponentOf val) (mantissaOf val) := by
  have hmantissa := mantissaOf_lt val
  rw [numberOf_four, Format.pack, sign_eq, exponentOf, mantissaOf]
  simp only [binary32]
  omega

theorem numberOf_exponent :
    ByteBuffer.numberOf (List.ofFn val) / 2 ^ 23 % 2 ^ 8 = exponentOf val := by
  have hexponent := exponentOf_lt val
  have hmantissa := mantissaOf_lt val
  rw [numberOf_eq_pack, Format.pack]
  simp only [binary32]
  omega

/-- **The pattern written** has the exponent rebiased and the mantissa moved to the top. -/
theorem widePattern_writeBytes : widePattern (writeBytes val) =
    binary64.pack (negativeOf val) (exponentOf val + 896) (mantissaOf val * 2 ^ (52 - 23)) := by
  obtain ⟨h0, h1, h2, h3, h4⟩ := toNat_writeBytes val
  have h5 : (writeBytes val 5).toNat = 0 := rfl
  have h6 : (writeBytes val 6).toNat = 0 := rfl
  have h7 : (writeBytes val 7).toNat = 0 := rfl
  rw [numberOf_eight, h0, h1, h2, h3, h4, h5, h6, h7, Format.pack, sign_eq, exponentOf, mantissaOf]
  simp only [binary64]
  omega

/-- What is written denotes the same number for normal numbers only. -/
theorem value_writeBytes_iff :
    binary64.value (widePattern (writeBytes val)) =
        binary32.value (ByteBuffer.numberOf (List.ofFn val)) ↔
      exponentOf val ≠ 0 ∧ exponentOf val ≠ 255 := by
  have hbias : binary64.bias = binary32.bias + (896 : ℕ) := by decide
  rw [widePattern_writeBytes, numberOf_eq_pack]
  exact Format.value_widen_iff (f := binary32) (g := binary64) (by decide) hbias (by decide)
    (by decide) (exponentOf_lt val) (mantissaOf_lt val)

end Bytes

/-- **A float is widened** rightly exactly if it is a normal number; its bytes are read back in
any case. -/
theorem widening_right_iff (endianness : Endianness) (value : Fin 4 → UInt8) :
    (binary64.value (widePattern (write endianness value)) =
          binary32.value (pattern endianness value) ∧
        read endianness (write endianness value) = value ↔
      pattern endianness value / 2 ^ 23 % 2 ^ 8 ≠ 0 ∧
        pattern endianness value / 2 ^ 23 % 2 ^ 8 ≠ 255) ∧
    read endianness (write endianness value) = value := by
  have hback : read endianness (write endianness value) = value := by
    rw [read, write, readBytes_writeBytes, bytes_bytes]
  refine ⟨?_, hback⟩
  rw [and_iff_left hback, pattern, numberOf_exponent]
  exact value_writeBytes_iff _

/-- Zero is written as a number that is not zero, and an infinity as one that is finite. -/
theorem zero_widened_wrongly :
    binary64.value (widePattern (write .little fun _ => 0)) ≠
        binary32.value (pattern .little fun _ => 0) ∧
      binary64.value (widePattern (write .little ![0, 0, 0x80, 0x7f])) ≠
        binary32.value (pattern .little ![0, 0, 0x80, 0x7f]) := by
  constructor
  · intro hzero
    exact ((value_writeBytes_iff _).1 hzero).1 (by decide)
  · intro hinfinite
    exact ((value_writeBytes_iff _).1 hinfinite).2 (by decide)

end Wiselib.Codecs.FloatingPoint
