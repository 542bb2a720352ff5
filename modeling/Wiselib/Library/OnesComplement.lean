import Mathlib

/-!
# One's complement sums

A checksum in one's complement arithmetic adds the bytes of a message as numbers
of two bytes, a byte left over being followed by zero, and brings the carries
around until the sum is below the base.  `fold` does so to the end; `fold_eq`
says that this is the residue modulo `base - 1`, taken between one and
`base - 1` for a sum that is not zero.
-/

namespace OnesComplement

/-- The sum of the bytes taken in pairs, the first of a pair being the upper. -/
def wordSum : List (BitVec 8) → ℕ
  | [] => 0
  | [last] => 256 * last.toNat
  | first :: second :: rest => 256 * first.toNat + second.toNat + wordSum rest

theorem wordSum_append_of_even {xs : List (BitVec 8)} (heven : xs.length % 2 = 0)
    (ys : List (BitVec 8)) : wordSum (xs ++ ys) = wordSum xs + wordSum ys := by
  induction xs using wordSum.induct with
  | case1 => simp [wordSum]
  | case2 last => simp at heven
  | case3 first second rest ih =>
    have hrest := ih (by
      simp only [List.length_cons] at heven
      omega)
    simp only [List.cons_append, wordSum, hrest]
    omega

theorem wordSum_le (xs : List (BitVec 8)) : wordSum xs ≤ 32768 * (xs.length + 1) := by
  induction xs using wordSum.induct with
  | case1 => simp [wordSum]
  | case2 last =>
    have hlast := last.isLt
    simp only [wordSum, List.length_singleton]
    omega
  | case3 first second rest ih =>
    have hfirst := first.isLt
    have hsecond := second.isLt
    simp only [wordSum, List.length_cons]
    omega

/-- Brings the carries around until there are none. -/
def fold (base sum : ℕ) : ℕ :=
  if sum < base ∨ base < 2 then sum else fold base (sum % base + sum / base)
termination_by sum
decreasing_by
  have hbase : 2 ≤ base := by omega
  have hdiv : 0 < sum / base := Nat.div_pos (by omega) (by omega)
  have hsplit := Nat.div_add_mod sum base
  nlinarith

theorem fold_of_lt {base sum : ℕ} (hlt : sum < base) : fold base sum = sum := by
  rw [fold, if_pos (Or.inl hlt)]

theorem fold_of_le {base sum : ℕ} (hbase : 2 ≤ base) (hle : base ≤ sum) :
    fold base sum = fold base (sum % base + sum / base) := by
  rw [fold, if_neg (by omega)]

theorem eq_add_carried (base sum : ℕ) (hbase : 0 < base) :
    sum = (base - 1) * (sum / base) + (sum % base + sum / base) := by
  obtain ⟨b, rfl⟩ : ∃ b, base = b + 1 := ⟨base - 1, by omega⟩
  calc sum
      = (b + 1) * (sum / (b + 1)) + sum % (b + 1) := (Nat.div_add_mod sum (b + 1)).symm
    _ = (b + 1 - 1) * (sum / (b + 1)) + (sum % (b + 1) + sum / (b + 1)) := by
        rw [Nat.add_sub_cancel]
        ring

theorem fold_eq {base : ℕ} (hbase : 2 ≤ base) {sum : ℕ} (hpos : 0 < sum) :
    fold base sum = (sum - 1) % (base - 1) + 1 := by
  induction sum using Nat.strong_induction_on with
  | h sum ih =>
    by_cases hlt : sum < base
    · rw [fold_of_lt hlt, Nat.mod_eq_of_lt (by omega)]
      omega
    · have hle : base ≤ sum := Nat.le_of_not_lt hlt
      have hdiv : 0 < sum / base := Nat.div_pos hle (by omega)
      have hsplit := eq_add_carried base sum (by omega)
      have hsmaller : sum % base + sum / base < sum := by
        have hgrow : 0 < (base - 1) * (sum / base) := Nat.mul_pos (by omega) hdiv
        omega
      rw [fold_of_le hbase hle, ih _ hsmaller (by omega)]
      have hshift : sum - 1 = (base - 1) * (sum / base) + (sum % base + sum / base - 1) := by omega
      rw [hshift, Nat.mul_add_mod]

end OnesComplement
