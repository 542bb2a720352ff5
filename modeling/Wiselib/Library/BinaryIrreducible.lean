import Wiselib.Library.BinaryPolynomial

/-!
# Irreducible binary polynomials of prime degree

A binary polynomial of prime degree `m` that divides `X ^ 2 ^ m - X` and has no
root is irreducible: an irreducible factor has a degree that divides `m`, and is
no linear one (`irreducible_of_dvd`).

The power of `X` is computed by squaring modulo the polynomial on numbers.  A
square has the bits of its root at every second place, so that a square is built
from the highest bit on by shifts by two (`squareMod_spec`).
-/

namespace BinaryPolynomial

open Polynomial

/-! ## The criterion -/

/-- **A polynomial of prime degree** without roots is irreducible if the power of the variable
comes back modulo it. -/
theorem irreducible_of_dvd {f : (ZMod 2)[X]} (hprime : f.natDegree.Prime)
    (hdvd : f ∣ X ^ 2 ^ f.natDegree - X) (hroot : ∀ c, f.eval c ≠ 0) : Irreducible f := by
  have hne : f ≠ 0 := by
    rintro rfl
    exact Nat.not_prime_zero hprime
  have hunit : ¬ IsUnit f := fun hunit => by
    rw [natDegree_eq_zero_of_isUnit hunit] at hprime
    exact Nat.not_prime_zero hprime
  obtain ⟨g, hg, hgf⟩ := WfDvdMonoid.exists_irreducible_factor hunit hne
  have hdegree : g.natDegree ∣ f.natDegree := by
    refine hg.natDegree_dvd_of_dvd_X_pow_card_pow_sub_X ?_
    rw [Nat.card_zmod]
    exact hgf.trans hdvd
  rcases (Nat.dvd_prime hprime).1 hdegree with hone | hsame
  · obtain ⟨c, hc⟩ := exists_root_of_degree_eq_one (degree_eq_iff_natDegree_eq hg.ne_zero |>.2 hone)
    exact absurd (eval_eq_zero_of_dvd_of_eval_eq_zero hgf hc) (hroot c)
  · exact (associated_of_dvd_of_natDegree_le hgf hne hsame.ge).irreducible hg

/-! ## Squares -/

/-- Takes a bit and the one above it off a number, modulo `f` of degree `m`. -/
def reduceTwo (f m s : ℕ) : ℕ :=
  let s := if s.testBit (m + 1) then s ^^^ f <<< 1 else s
  if s.testBit m then s ^^^ f else s

/-- Builds the square of `n` from its bits below the `i`-th on. -/
def squareLoop (f m n : ℕ) : ℕ → ℕ → ℕ
  | 0, r => r
  | i + 1, r =>
      -- always true; it has the rest computed before the loop goes on
      if r < 2 ^ m then
        squareLoop f m n i (reduceTwo f m ((r <<< 2) ^^^ if n.testBit i then 1 else 0))
      else 0

/-- The square of `n`, modulo `f` of degree `m`. -/
def squareMod (f m n : ℕ) : ℕ :=
  squareLoop f m n m 0

/-- `k` squares, one after the other. -/
def frobenius (f m : ℕ) : ℕ → ℕ → ℕ
  | 0, n => n
  | k + 1, n => if n < 2 ^ m then frobenius f m k (squareMod f m n) else 0

section Squares

variable {f m n : ℕ}

theorem dvd_reduceTwo (s : ℕ) : ofBits f ∣ ofBits s + ofBits (reduceTwo f m s) := by
  have hstep : ∀ (t k : ℕ) (b : Bool),
      ofBits f ∣ ofBits t + ofBits (if b then t ^^^ f <<< k else t) := by
    intro t k b
    cases b with
    | false =>
        rw [if_neg Bool.false_ne_true, add_self]
        exact dvd_zero _
    | true =>
        rw [if_pos rfl, ofBits_xor, ← add_assoc, add_self, zero_add, ofBits_shiftLeft]
        exact dvd_mul_left _ _
  have hhigh := hstep s 1 (s.testBit (m + 1))
  have hlow := hstep (if s.testBit (m + 1) then s ^^^ f <<< 1 else s) 0
    ((if s.testBit (m + 1) then s ^^^ f <<< 1 else s).testBit m)
  rw [Nat.shiftLeft_zero] at hlow
  have hboth := hhigh.add hlow
  have hcancel : ∀ p q r : (ZMod 2)[X], p + q + (q + r) = p + r := fun p q r => by
    linear_combination add_self q
  rwa [hcancel] at hboth

theorem ofBits_mod_succ (n i : ℕ) :
    ofBits (n % 2 ^ (i + 1)) = ofBits (n % 2 ^ i) + if n.testBit i then X ^ i else 0 := by
  ext j
  rw [coeff_add, coeff_ofBits, coeff_ofBits, Nat.testBit_mod_two_pow, Nat.testBit_mod_two_pow]
  rcases Nat.lt_trichotomy j i with hlt | rfl | hgt
  · cases n.testBit i <;> simp [hlt, hlt.ne, Nat.lt_succ_of_lt hlt, coeff_X_pow]
  · cases n.testBit j <;> simp
  · cases n.testBit i <;>
      simp [hgt.ne', not_lt.2 hgt.le, not_lt.2 (Nat.succ_le_of_lt hgt), coeff_X_pow]

theorem reduceTwo_lt (hlow : 2 ^ m ≤ f) (hhigh : f < 2 ^ (m + 1)) {s : ℕ} (hs : s < 2 ^ (m + 2)) :
    reduceTwo f m s < 2 ^ m := by
  have htop : f.testBit m = true := by
    have hdiv : f / 2 ^ m = 1 := by
      rw [Nat.div_eq_iff (Nat.two_pow_pos m)]
      rw [pow_succ] at hhigh
      omega
    rw [Nat.testBit_eq_decide_div_mod_eq, hdiv]
    rfl
  have hclear : ∀ t k, t < 2 ^ (m + k + 1) →
      (if t.testBit (m + k) then t ^^^ f <<< k else t) < 2 ^ (m + k) := by
    intro t k ht
    have hshift : f <<< k < 2 ^ (m + k + 1) := by
      rw [Nat.shiftLeft_eq, Nat.add_right_comm, pow_add]
      exact Nat.mul_lt_mul_of_pos_right hhigh (Nat.two_pow_pos k)
    refine Nat.lt_pow_two_of_testBit _ fun i hi => ?_
    rcases Nat.lt_or_ge i (m + k + 1) with hlt | hge
    · obtain rfl : i = m + k := by omega
      split
      · rename_i hbit
        rw [Nat.testBit_xor, hbit, Nat.testBit_shiftLeft, Nat.add_sub_cancel, htop]
        simp
      · rename_i hbit
        exact Bool.eq_false_of_not_eq_true hbit
    · have hpow : 2 ^ (m + k + 1) ≤ 2 ^ i := Nat.pow_le_pow_right two_pos hge
      split
      · rw [Nat.testBit_xor, Nat.testBit_lt_two_pow (ht.trans_le hpow),
          Nat.testBit_lt_two_pow (hshift.trans_le hpow)]
        rfl
      · exact Nat.testBit_lt_two_pow (ht.trans_le hpow)
  have hfirst := hclear s 1 hs
  have hsecond := hclear _ 0 hfirst
  rwa [Nat.shiftLeft_zero] at hsecond

theorem shift_lt {r : ℕ} (hr : r < 2 ^ m) (b : Bool) :
    (r <<< 2) ^^^ (if b then 1 else 0) < 2 ^ (m + 2) := by
  have hshift : r <<< 2 < 2 ^ (m + 2) := by
    rw [Nat.shiftLeft_eq, pow_add]
    exact Nat.mul_lt_mul_of_pos_right hr (Nat.two_pow_pos 2)
  refine Nat.xor_lt_two_pow hshift ?_
  have hone : 1 < 2 ^ (m + 2) := Nat.one_lt_two_pow (by omega)
  split <;> omega

/-- **The loop** goes on to the square of the bits that are left. -/
theorem squareLoop_spec (hlow : 2 ^ m ≤ f) (hhigh : f < 2 ^ (m + 1)) (i : ℕ) {r : ℕ}
    (hr : r < 2 ^ m) :
    squareLoop f m n i r < 2 ^ m ∧ ofBits f ∣ ofBits (squareLoop f m n i r) +
      ((X ^ i) ^ 2 * ofBits r + ofBits (n % 2 ^ i) ^ 2) := by
  induction i generalizing r with
  | zero =>
      have hzero : ofBits r + ((X ^ 0) ^ 2 * ofBits r + ofBits (n % 2 ^ 0) ^ 2) = 0 := by
        rw [Nat.pow_zero, Nat.mod_one, ofBits_zero]
        linear_combination add_self (ofBits r)
      rw [squareLoop, hzero]
      exact ⟨hr, dvd_zero _⟩
  | succ i ih =>
      rw [squareLoop, if_pos hr]
      obtain ⟨hlt, hrest⟩ := ih (reduceTwo_lt hlow hhigh (shift_lt hr (n.testBit i)))
      refine ⟨hlt, ?_⟩
      have hstep := dvd_mul_of_dvd_right
        (@dvd_reduceTwo f m ((r <<< 2) ^^^ if n.testBit i then 1 else 0)) ((X ^ i) ^ 2)
      have hboth := hrest.add hstep
      have hbit : ofBits (if n.testBit i then 1 else 0) = if n.testBit i then 1 else 0 := by
        split <;> simp
      rw [ofBits_xor, ofBits_shiftLeft, hbit] at hboth
      have hsquare : ofBits (n % 2 ^ (i + 1)) ^ 2 =
          ofBits (n % 2 ^ i) ^ 2 + (X ^ i) ^ 2 * if n.testBit i then 1 else 0 := by
        rw [ofBits_mod_succ]
        split
        · rw [CharTwo.add_sq, mul_one]
        · rw [add_zero, mul_zero, add_zero]
      rw [hsquare]
      have hcancel : ∀ L t R b S : (ZMod 2)[X],
          L + ((X ^ (i + 1)) ^ 2 * R + (S + (X ^ i) ^ 2 * b)) =
            L + ((X ^ i) ^ 2 * t + S) + (X ^ i) ^ 2 * (X ^ 2 * R + b + t) := fun L t R b S => by
        linear_combination -add_self ((X ^ i) ^ 2 * t)
      rw [hcancel _ (ofBits (reduceTwo f m ((r <<< 2) ^^^ if n.testBit i then 1 else 0)))]
      exact hboth

/-- **The square** of a number with at most `m` bits. -/
theorem dvd_squareMod (hlow : 2 ^ m ≤ f) (hhigh : f < 2 ^ (m + 1)) (hn : n < 2 ^ m) :
    squareMod f m n < 2 ^ m ∧ ofBits f ∣ ofBits (squareMod f m n) + ofBits n ^ 2 := by
  have hloop := @squareLoop_spec f m n hlow hhigh m 0 (Nat.two_pow_pos m)
  rwa [ofBits_zero, mul_zero, zero_add, Nat.mod_eq_of_lt hn] at hloop

/-- **Powers of the variable** by squares. -/
theorem dvd_frobenius (hlow : 2 ^ m ≤ f) (hhigh : f < 2 ^ (m + 1)) (k : ℕ) {n : ℕ}
    (hn : n < 2 ^ m) : ofBits f ∣ ofBits (frobenius f m k n) + ofBits n ^ 2 ^ k := by
  induction k generalizing n with
  | zero =>
      rw [frobenius, pow_zero, pow_one, add_self]
      exact dvd_zero _
  | succ k ih =>
      obtain ⟨hlt, hsquare⟩ := dvd_squareMod hlow hhigh hn
      have hrest := ih hlt
      -- congruent numbers have congruent powers
      have hpower : ofBits f ∣ ofBits (squareMod f m n) ^ 2 ^ k - (ofBits n ^ 2) ^ 2 ^ k := by
        refine Dvd.dvd.trans ?_ (sub_dvd_pow_sub_pow _ _ _)
        rwa [sub_eq_add_neg, CharTwo.neg_eq]
      have hboth := hrest.sub hpower
      rw [frobenius, if_pos hn, pow_succ', pow_mul]
      have hcancel : ∀ p q r : (ZMod 2)[X], p + q - (q - r) = p + r := fun p q r => by ring
      rwa [hcancel] at hboth

/-- **The criterion on numbers.** -/
theorem irreducible_ofBits (hm : m.Prime) (hlow : 2 ^ m ≤ f) (hhigh : f < 2 ^ (m + 1))
    (hfrobenius : frobenius f m m 2 = 2) (hroot : ∀ c, (ofBits f).eval c ≠ 0) :
    Irreducible (ofBits f) := by
  have hsize : f.size = m + 1 :=
    le_antisymm (Nat.size_le.2 hhigh) (Nat.lt_size.2 hlow)
  have hdegree : (ofBits f).natDegree = m := by rw [natDegree_ofBits, hsize, Nat.add_sub_cancel]
  have htwo : ofBits 2 = X := by simpa using ofBits_two_pow 1
  refine irreducible_of_dvd (by rwa [hdegree]) ?_ hroot
  have hn : 2 < 2 ^ m := by
    calc 2 < 2 ^ 2 := by norm_num
      _ ≤ 2 ^ m := Nat.pow_le_pow_right two_pos hm.two_le
  have hdvd := dvd_frobenius hlow hhigh m hn
  rw [hfrobenius, htwo] at hdvd
  rwa [hdegree, sub_eq_add_neg, CharTwo.neg_eq, add_comm]

end Squares

end BinaryPolynomial
