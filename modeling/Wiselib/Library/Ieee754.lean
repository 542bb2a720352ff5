import Mathlib

/-!
# Binary interchange formats

A bit pattern of IEEE 754 has a sign, an exponent and a mantissa.  The exponents
zero and all ones are classes of their own: zero and subnormal numbers, and
infinities and what is not a number.

Copying the mantissa of a pattern into a wider format and adding the difference of
the biases to its exponent is right for normal numbers and for no others
(`value_widen_iff`): the two classes become normal numbers of the wider format.
-/

namespace Ieee754

/-- The sizes of exponent and mantissa. -/
structure Format where
  exponentBits : ℕ
  mantissaBits : ℕ

/-- What a bit pattern denotes. -/
inductive Value
  | nan
  | infinite (negative : Bool)
  | finite (negative : Bool) (magnitude : ℚ)
deriving DecidableEq

/-- Single precision. -/
def binary32 : Format := ⟨8, 23⟩

/-- Double precision. -/
def binary64 : Format := ⟨11, 52⟩

namespace Format

variable (f g : Format)

/-- The exponent that stands for zero. -/
def bias : ℤ := 2 ^ (f.exponentBits - 1) - 1

/-- The pattern with these fields. -/
def pack (negative : Bool) (exponent mantissa : ℕ) : ℕ :=
  (if negative then 1 else 0) * 2 ^ (f.exponentBits + f.mantissaBits) +
    (exponent * 2 ^ f.mantissaBits + mantissa)

/-- The value of a number whose mantissa has a leading one. -/
def normal (exponent mantissa : ℕ) : ℚ :=
  (2 ^ f.mantissaBits + mantissa : ℕ) * 2 ^ (exponent - f.bias - f.mantissaBits)

/-- The value of a number whose mantissa has no leading one. -/
def subnormal (mantissa : ℕ) : ℚ :=
  mantissa * 2 ^ (1 - f.bias - f.mantissaBits)

/-- What fields denote. -/
def denote (negative : Bool) (exponent mantissa : ℕ) : Value :=
  if exponent = 2 ^ f.exponentBits - 1 then
    if mantissa = 0 then .infinite negative else .nan
  else if exponent = 0 then .finite negative (f.subnormal mantissa)
  else .finite negative (f.normal exponent mantissa)

/-- What a pattern denotes. -/
def value (pattern : ℕ) : Value :=
  f.denote (pattern.testBit (f.exponentBits + f.mantissaBits))
    (pattern / 2 ^ f.mantissaBits % 2 ^ f.exponentBits) (pattern % 2 ^ f.mantissaBits)

variable {f g} {negative : Bool} {exponent mantissa d : ℕ}

/-- **A packed pattern** denotes what its fields do. -/
theorem value_pack (hexponent : exponent < 2 ^ f.exponentBits)
    (hmantissa : mantissa < 2 ^ f.mantissaBits) :
    f.value (f.pack negative exponent mantissa) = f.denote negative exponent mantissa := by
  have hlow : exponent * 2 ^ f.mantissaBits + mantissa <
      2 ^ (f.exponentBits + f.mantissaBits) := by
    calc exponent * 2 ^ f.mantissaBits + mantissa
        < exponent * 2 ^ f.mantissaBits + 2 ^ f.mantissaBits := by omega
      _ = (exponent + 1) * 2 ^ f.mantissaBits := by ring
      _ ≤ 2 ^ f.exponentBits * 2 ^ f.mantissaBits := Nat.mul_le_mul_right _ hexponent
      _ = 2 ^ (f.exponentBits + f.mantissaBits) := (pow_add _ _ _).symm
  have hfields : ∀ high, (high * 2 ^ (f.exponentBits + f.mantissaBits) +
      (exponent * 2 ^ f.mantissaBits + mantissa)) % 2 ^ f.mantissaBits = mantissa ∧
      (high * 2 ^ (f.exponentBits + f.mantissaBits) +
        (exponent * 2 ^ f.mantissaBits + mantissa)) / 2 ^ f.mantissaBits % 2 ^ f.exponentBits =
          exponent := by
    intro high
    have hpattern : high * 2 ^ (f.exponentBits + f.mantissaBits) +
        (exponent * 2 ^ f.mantissaBits + mantissa) =
        mantissa + 2 ^ f.mantissaBits * (high * 2 ^ f.exponentBits + exponent) := by
      rw [pow_add]
      ring
    rw [hpattern, Nat.add_mul_mod_self_left, Nat.mod_eq_of_lt hmantissa,
      Nat.add_mul_div_left _ _ (Nat.two_pow_pos _), Nat.div_eq_of_lt hmantissa, Nat.zero_add,
      Nat.mul_add_mod_self_right, Nat.mod_eq_of_lt hexponent]
    exact ⟨rfl, rfl⟩
  have hsign : (f.pack negative exponent mantissa).testBit (f.exponentBits + f.mantissaBits) =
      negative := by
    rw [pack, Nat.mul_comm, Nat.testBit_two_pow_mul_add _ hlow, if_neg (lt_irrefl _), Nat.sub_self]
    cases negative <;> rfl
  obtain ⟨hlow', hhigh'⟩ := hfields (if negative then 1 else 0)
  rw [value, hsign, pack, hlow', hhigh']

theorem shifted_mantissa_lt (hwide : f.mantissaBits ≤ g.mantissaBits)
    (hmantissa : mantissa < 2 ^ f.mantissaBits) :
    mantissa * 2 ^ (g.mantissaBits - f.mantissaBits) < 2 ^ g.mantissaBits := by
  calc mantissa * 2 ^ (g.mantissaBits - f.mantissaBits)
      < 2 ^ f.mantissaBits * 2 ^ (g.mantissaBits - f.mantissaBits) :=
        Nat.mul_lt_mul_of_pos_right hmantissa (Nat.two_pow_pos _)
    _ = 2 ^ g.mantissaBits := by rw [← pow_add, Nat.add_sub_cancel' hwide]

/-- The normal number of the wider pattern, in terms of the narrow fields. -/
theorem normal_widen (hbias : g.bias = f.bias + d) (hwide : f.mantissaBits ≤ g.mantissaBits) :
    g.normal (exponent + d) (mantissa * 2 ^ (g.mantissaBits - f.mantissaBits)) =
      f.normal exponent mantissa := by
  obtain ⟨k, hk⟩ := Nat.exists_eq_add_of_le hwide
  have hfactor : (2 ^ g.mantissaBits + mantissa * 2 ^ (g.mantissaBits - f.mantissaBits) : ℕ) =
      (2 ^ f.mantissaBits + mantissa) * 2 ^ k := by
    rw [hk, Nat.add_sub_cancel_left, pow_add]
    ring
  have hscale : ((exponent + d : ℕ) : ℤ) - g.bias - g.mantissaBits =
      (exponent - f.bias - f.mantissaBits) - k := by
    rw [hbias, hk]
    push_cast
    ring
  rw [normal, normal, hfactor, hscale, zpow_sub₀ two_ne_zero, zpow_natCast]
  push_cast
  field_simp

/-- No subnormal number is the normal number with the same mantissa. -/
theorem normal_zero_ne_subnormal (hmantissa : mantissa < 2 ^ f.mantissaBits) :
    f.normal 0 mantissa ≠ f.subnormal mantissa := by
  intro hequal
  have hscale : (1 : ℤ) - f.bias - f.mantissaBits =
      ((0 : ℕ) : ℤ) - f.bias - f.mantissaBits + 1 := by ring
  rw [normal, subnormal, hscale, zpow_add₀ two_ne_zero, zpow_one, mul_comm _ (2 : ℚ), ← mul_assoc]
    at hequal
  have hdouble := mul_right_cancel₀ (zpow_ne_zero _ two_ne_zero) hequal
  have hdouble' : 2 ^ f.mantissaBits + mantissa = mantissa * 2 := by exact_mod_cast hdouble
  omega

/-- **Widening** is right for normal numbers and for no others: of the other patterns an
infinity or what is not a number becomes finite, and zero or a subnormal number gets a
leading one. -/
theorem value_widen_iff (hd : 0 < d) (hbias : g.bias = f.bias + d)
    (hroom : 2 ^ f.exponentBits + d ≤ 2 ^ g.exponentBits - 1)
    (hwide : f.mantissaBits ≤ g.mantissaBits)
    (hexponent : exponent < 2 ^ f.exponentBits) (hmantissa : mantissa < 2 ^ f.mantissaBits) :
    g.value (g.pack negative (exponent + d)
        (mantissa * 2 ^ (g.mantissaBits - f.mantissaBits))) =
      f.value (f.pack negative exponent mantissa) ↔
        exponent ≠ 0 ∧ exponent ≠ 2 ^ f.exponentBits - 1 := by
  have hwiden : g.denote negative (exponent + d)
      (mantissa * 2 ^ (g.mantissaBits - f.mantissaBits)) =
        .finite negative (f.normal exponent mantissa) := by
    rw [denote, if_neg (by omega), if_neg (by omega), normal_widen hbias hwide]
  rw [value_pack (by omega) (shifted_mantissa_lt hwide hmantissa),
    value_pack hexponent hmantissa, hwiden, denote]
  split_ifs with hmax hnothing hzero
  · simp [hmax]
  · simp [hmax]
  · subst hzero
    simp [normal_zero_ne_subnormal hmantissa]
  · simp [hzero, hmax]

end Format

end Ieee754
