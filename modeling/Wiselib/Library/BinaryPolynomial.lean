import Mathlib

/-!
# Binary polynomials

The bits of a number are the coefficients of a polynomial over the field of two
elements.  The exclusive or of numbers is then the sum of polynomials, a shift to
the left the product with a power of the variable, and the number of bits is one
more than the degree.

Everything is read off the coefficients (`coeff_ofBits`).  `reduce` is the
division with remainder on numbers: it takes shifts of the divisor off as long as
there are enough bits, and leaves the remainder (`ofBits_reduce`).
-/

namespace BinaryPolynomial

open Polynomial

/-! ## Bits as coefficients -/

/-- The polynomial with the bits of a number as coefficients. -/
noncomputable def ofBits (n : ℕ) : (ZMod 2)[X] :=
  ∑ i ∈ Finset.range n.size, if n.testBit i then X ^ i else 0

theorem lt_size_of_testBit {n i : ℕ} (hbit : n.testBit i = true) : i < n.size := by
  by_contra hsize
  have hlt : n < 2 ^ i :=
    (Nat.lt_size_self n).trans_le (Nat.pow_le_pow_right two_pos (not_lt.1 hsize))
  rw [Nat.testBit_lt_two_pow hlt] at hbit
  exact Bool.false_ne_true hbit

@[simp] theorem coeff_ofBits (n i : ℕ) :
    (ofBits n).coeff i = if n.testBit i then 1 else 0 := by
  unfold ofBits
  rw [finsetSum_coeff]
  by_cases hbit : n.testBit i
  · rw [Finset.sum_eq_single i]
    · simp [hbit]
    · intro j _ hne
      split
      · rw [coeff_X_pow, if_neg (Ne.symm hne)]
      · exact coeff_zero i
    · intro hmem
      exact absurd (Finset.mem_range.2 (lt_size_of_testBit hbit)) hmem
  · rw [if_neg hbit]
    refine Finset.sum_eq_zero fun j _ => ?_
    split
    · rename_i hj
      rw [coeff_X_pow, if_neg]
      rintro rfl
      exact hbit hj
    · exact coeff_zero i

theorem ofBits_eq_sum {n k : ℕ} (hn : n < 2 ^ k) :
    ofBits n = ∑ i ∈ Finset.range k, if n.testBit i then X ^ i else 0 := by
  refine Finset.sum_subset (Finset.range_subset_range.2 (Nat.size_le.2 hn)) fun i _ hi => ?_
  rw [if_neg]
  exact fun hbit => hi (Finset.mem_range.2 (lt_size_of_testBit hbit))

/-- Every `d`-th place of a number, from the `j`-th on, as coefficients. -/
noncomputable def column (d n k j : ℕ) : (ZMod 2)[X] :=
  ∑ i ∈ Finset.range k, if n.testBit (i * d + j) then X ^ (i * d) else 0

/-- **A number is the sum of its columns**, each at its own place. -/
theorem ofBits_eq_sum_column {d n k : ℕ} (hn : n < 2 ^ (k * d)) :
    ofBits n = ∑ j ∈ Finset.range d, X ^ j * column d n k j := by
  have hrows : ∀ k, (∑ i ∈ Finset.range (k * d),
      if n.testBit i then (X ^ i : (ZMod 2)[X]) else 0) =
      ∑ i ∈ Finset.range k, ∑ j ∈ Finset.range d,
        if n.testBit (i * d + j) then X ^ (i * d + j) else 0 := by
    intro k
    induction k with
    | zero => simp
    | succ k ih => rw [Nat.succ_mul, Finset.sum_range_add, ih, Finset.sum_range_succ]
  rw [ofBits_eq_sum hn, hrows, Finset.sum_comm]
  refine Finset.sum_congr rfl fun j _ => ?_
  rw [column, Finset.mul_sum]
  refine Finset.sum_congr rfl fun i _ => ?_
  split
  · rw [← pow_add, Nat.add_comm]
  · rw [mul_zero]

theorem ofBits_injective : Function.Injective ofBits := by
  intro m n heq
  refine Nat.eq_of_testBit_eq fun i => ?_
  have hcoeff := congrArg (fun p => p.coeff i) heq
  simp only [coeff_ofBits] at hcoeff
  cases hm : m.testBit i <;> cases hn : n.testBit i <;> simp_all

@[simp] theorem ofBits_zero : ofBits 0 = 0 := by
  ext i
  simp

@[simp] theorem ofBits_two_pow (k : ℕ) : ofBits (2 ^ k) = X ^ k := by
  ext i
  rw [coeff_ofBits, Nat.testBit_two_pow, coeff_X_pow]
  simp [eq_comm]

@[simp] theorem ofBits_one : ofBits 1 = 1 := by
  simpa using ofBits_two_pow 0

/-- **The exclusive or** is the sum. -/
@[simp] theorem ofBits_xor (m n : ℕ) : ofBits (m ^^^ n) = ofBits m + ofBits n := by
  ext i
  rw [coeff_add, coeff_ofBits, coeff_ofBits, coeff_ofBits, Nat.testBit_xor]
  cases m.testBit i <;> cases n.testBit i <;> decide

theorem ofBits_two_pow_add {k low : ℕ} (hlow : low < 2 ^ k) :
    ofBits (2 ^ k + low) = X ^ k + ofBits low := by
  ext i
  have hbits := Nat.testBit_two_pow_mul_add 1 hlow i
  rw [Nat.mul_one] at hbits
  rw [coeff_add, coeff_X_pow, coeff_ofBits, coeff_ofBits, hbits]
  by_cases hi : i < k
  · simp [hi, hi.ne]
  · have hlow' := Nat.testBit_lt_two_pow (hlow.trans_le (Nat.pow_le_pow_right two_pos (not_lt.1 hi)))
    have hone : (1 : ℕ).testBit (i - k) = decide (i = k) := by
      rw [Bool.eq_iff_iff, Nat.testBit_one_eq_true_iff_self_eq_zero, decide_eq_true_iff]
      omega
    simp [hi, hlow', hone]

/-- **A shift** is the product with a power of the variable. -/
@[simp] theorem ofBits_shiftLeft (n k : ℕ) : ofBits (n <<< k) = X ^ k * ofBits n := by
  ext i
  rw [coeff_ofBits, Nat.testBit_shiftLeft, coeff_X_pow_mul']
  by_cases hle : k ≤ i
  · simp [hle]
  · simp [hle]

theorem ofBits_two_mul (n : ℕ) : ofBits (2 * n) = X * ofBits n := by
  have hshift := ofBits_shiftLeft n 1
  rwa [Nat.shiftLeft_eq, pow_one, pow_one, mul_comm n] at hshift

/-! ## Degrees -/

theorem degree_ofBits_lt_iff (n k : ℕ) : (ofBits n).degree < k ↔ n < 2 ^ k := by
  rw [degree_lt_iff_coeff_zero]
  constructor
  · intro hzero
    refine Nat.lt_pow_two_of_testBit n fun i hi => ?_
    have hcoeff := hzero i hi
    rw [coeff_ofBits] at hcoeff
    by_contra hbit
    rw [Bool.not_eq_false] at hbit
    rw [if_pos hbit] at hcoeff
    exact one_ne_zero hcoeff
  · intro hlt i hi
    have hbit := Nat.testBit_lt_two_pow (hlt.trans_le (Nat.pow_le_pow_right two_pos hi))
    rw [coeff_ofBits, hbit]
    rfl

theorem ofBits_eq_zero_iff (n : ℕ) : ofBits n = 0 ↔ n = 0 := by
  rw [← ofBits_zero, ofBits_injective.eq_iff]

/-- **The number of bits** is one more than the degree. -/
theorem natDegree_ofBits (n : ℕ) : (ofBits n).natDegree = n.size - 1 := by
  rcases Nat.eq_zero_or_pos n with rfl | hpos
  · simp
  · have hne : ofBits n ≠ 0 := (ofBits_eq_zero_iff n).not.2 hpos.ne'
    have hsize : 0 < n.size := Nat.size_pos.2 hpos
    have hhigh := (degree_ofBits_lt_iff n n.size).2 (Nat.lt_size_self n)
    have hlow := (degree_ofBits_lt_iff n (n.size - 1)).not.2 (not_lt.2 (Nat.lt_size.1 (by omega)))
    rw [degree_eq_natDegree hne, Nat.cast_lt] at hhigh hlow
    omega

theorem add_self (p : (ZMod 2)[X]) : p + p = 0 :=
  CharTwo.add_self_eq_zero p

/-! ## Division -/

/-- Takes shifts of the divisor `f` off the number `r`, for `fuel` leading bits. -/
def reduce (f : ℕ) : ℕ → ℕ → ℕ
  | 0, r => r
  | fuel + 1, r =>
      if f.size ≤ r.size then reduce f fuel (r ^^^ f <<< (r.size - f.size)) else r

section Division

variable {f : ℕ}

theorem size_xor_shiftLeft_lt {r : ℕ} (hf : 0 < f) (hle : f.size ≤ r.size) :
    (r ^^^ f <<< (r.size - f.size)).size < r.size := by
  have hsize : 0 < f.size := Nat.size_pos.2 hf
  have hshift : (f <<< (r.size - f.size)).size = r.size := by
    rw [Nat.size_shiftLeft hf.ne']
    omega
  have htop : ∀ n : ℕ, n.size = r.size → n.testBit (r.size - 1) = true := fun n hn => by
    have hhigh := Nat.lt_size_self n
    have hlow : 2 ^ (r.size - 1) ≤ n := Nat.lt_size.1 (by omega)
    have hpow : 2 ^ n.size = 2 * 2 ^ (r.size - 1) := by
      rw [hn, ← pow_succ']
      congr 1
      omega
    have hdiv : n / 2 ^ (r.size - 1) = 1 := by
      rw [Nat.div_eq_iff (Nat.two_pow_pos _)]
      omega
    rw [Nat.testBit_eq_decide_div_mod_eq, hdiv]
    rfl
  rw [Nat.lt_iff_le_pred (by omega), Nat.size_le]
  refine Nat.lt_pow_two_of_testBit _ fun i hi => ?_
  rcases Nat.lt_or_ge i r.size with hlt | hge
  · obtain rfl : i = r.size - 1 := by omega
    rw [Nat.testBit_xor, htop r rfl, htop _ hshift]
    rfl
  · have hpow : 2 ^ r.size ≤ 2 ^ i := Nat.pow_le_pow_right two_pos hge
    have hr := (Nat.lt_size_self r).trans_le hpow
    have hs := Nat.lt_size_self (f <<< (r.size - f.size))
    rw [hshift] at hs
    rw [Nat.testBit_xor, Nat.testBit_lt_two_pow hr, Nat.testBit_lt_two_pow (hs.trans_le hpow)]
    rfl

theorem size_reduce_lt (hf : 0 < f) {fuel r : ℕ} (hfuel : r.size ≤ fuel) :
    (reduce f fuel r).size < f.size := by
  have hsize : 0 < f.size := Nat.size_pos.2 hf
  induction fuel generalizing r with
  | zero =>
      rw [reduce]
      omega
  | succ fuel ih =>
      rw [reduce]
      split
      · rename_i hle
        have hlt := size_xor_shiftLeft_lt hf hle
        exact ih (by omega)
      · omega

theorem dvd_ofBits_reduce_add (f fuel r : ℕ) :
    ofBits f ∣ ofBits r + ofBits (reduce f fuel r) := by
  induction fuel generalizing r with
  | zero =>
      rw [reduce, add_self]
      exact dvd_zero _
  | succ fuel ih =>
      rw [reduce]
      split
      · have hrest := ih (r ^^^ f <<< (r.size - f.size))
        rw [ofBits_xor, ofBits_shiftLeft] at hrest
        have hsplit : ofBits r + ofBits (reduce f fuel (r ^^^ f <<< (r.size - f.size))) =
            ofBits r + X ^ (r.size - f.size) * ofBits f +
              ofBits (reduce f fuel (r ^^^ f <<< (r.size - f.size))) +
              X ^ (r.size - f.size) * ofBits f := by
          linear_combination -add_self (X ^ (r.size - f.size) * ofBits f)
        rw [hsplit]
        exact hrest.add (dvd_mul_left _ _)
      · rw [add_self]
        exact dvd_zero _

theorem monic_ofBits (hf : 0 < f) : (ofBits f).Monic := by
  have hone : ∀ c : ZMod 2, c ≠ 0 → c = 1 := by decide
  exact hone _ (leadingCoeff_ne_zero.2 ((ofBits_eq_zero_iff f).not.2 hf.ne'))

theorem ofBits_eq_modByMonic (hf : 0 < f) {r : ℕ} (hr : r.size < f.size) {p : (ZMod 2)[X]}
    (hdvd : ofBits f ∣ p + ofBits r) : ofBits r = p %ₘ ofBits f := by
  have hmonic := monic_ofBits hf
  have hdegree : (ofBits r).degree < (ofBits f).degree := by
    rw [degree_eq_natDegree hmonic.ne_zero, natDegree_ofBits, degree_ofBits_lt_iff]
    exact Nat.size_le.1 (by omega)
  have hsub : ofBits f ∣ p - ofBits r := by
    rwa [sub_eq_add_neg, CharTwo.neg_eq]
  rw [modByMonic_eq_of_dvd_sub hmonic hsub, (modByMonic_eq_self_iff hmonic).2 hdegree]

/-- **`reduce` leaves the remainder.** -/
theorem ofBits_reduce (hf : 0 < f) {fuel r : ℕ} (hfuel : r.size ≤ fuel) :
    ofBits (reduce f fuel r) = ofBits r %ₘ ofBits f :=
  ofBits_eq_modByMonic hf (size_reduce_lt hf hfuel) (dvd_ofBits_reduce_add f fuel r)

end Division

end BinaryPolynomial
