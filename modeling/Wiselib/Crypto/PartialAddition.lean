import Wiselib.Library.DoubleAndAdd

/-!
# Multiples with an incomplete addition

What `c_dbl_affine`, `c_add_affine` and `c_mul` of `crypto/eccfp.h` do to the
points of a group, apart from their coordinates.  Doubling leaves a point whose
double is zero as it is, and the sum of opposite points is not computed.

## Strategy

The order of the point decides what `c_mul` does (`multiple_eq_iff`).

* For an odd order no point but zero is its own opposite, so the state is the
  multiple by the prefix of the factor, and an odd prefix that the order divides
  is where opposite points meet (`multiple_odd`).
* For an even order from four on no opposite points meet, but from the point of
  order two on, the error of the doubling stays until the next one
  (`afterPrefix`, `multiple_even`).
* The point of order two itself is kept once it has been reached
  (`multiple_two`).
-/

namespace Wiselib.Crypto.PartialAddition

open DoubleAndAdd (ladder ladder_cases step shiftRight_eq_double shiftRight_size)

variable {Point : Type*} [AddCommGroup Point] [DecidableEq Point]

/-- `c_dbl_affine` in place. -/
def double (P0 : Point) : Point :=
  if P0 + P0 = 0 then P0 else P0 + P0

/-- `c_add_affine` of `P1` in place. -/
def add (P1 P0 : Point) : Option Point :=
  if P0 = P1 then some (double P0)
  else if P0 + P1 = 0 then none
  else some (P0 + P1)

/-- `c_mul`. -/
def multiple (P1 : Point) (n : ℕ) : Option Point :=
  ladder (fun P0 => some (double P0)) (add P1) n n.size 0

/-- Whether `c_mul` computes the `n`-fold of a point of order `o`. -/
def MultipleRight (o n : ℕ) : Prop :=
  if o % 2 = 1 then o = 1 ∨ ∀ j, (n >>> j) % 2 = 1 → ¬ o ∣ n >>> j
  else if o = 2 then n = 0 ∨ n % 2 = 1
  else n < 2 ∨ 2 ≤ n % o

section Steps

variable {P1 : Point} {n i : ℕ}

theorem step_even {X : Point} (heven : (n >>> i) % 2 = 0) :
    step (fun P0 => some (double P0)) (add P1) n i X = some (double X) := by
  have hbit : n.testBit i = false := by
    rw [Nat.testBit_eq_decide_div_mod_eq, ← Nat.shiftRight_eq_div_pow, heven]
    rfl
  simp [step, hbit]

theorem step_odd {X : Point} (hodd : (n >>> i) % 2 = 1) :
    step (fun P0 => some (double P0)) (add P1) n i X = add P1 (double X) := by
  have hbit : n.testBit i = true := by
    rw [Nat.testBit_eq_decide_div_mod_eq, ← Nat.shiftRight_eq_div_pow, hodd]
    rfl
  simp [step, hbit]

theorem shiftRight_eq_add_mod (n i : ℕ) : n >>> i = 2 * (n >>> (i + 1)) + (n >>> i) % 2 := by
  have hsplit := shiftRight_eq_double n i
  split at hsplit <;> omega

/-- **Without failing prefixes** the run of `c_mul` keeps what its steps keep. -/
theorem multiple_of_steps {P : ℕ → Point → Prop} (hzero : P 0 0)
    (hdouble : ∀ m X, P m X → P (2 * m) (double X))
    (hadd : ∀ m X, P (2 * m) X → ∃ Y, add P1 X = some Y ∧ P (2 * m + 1) Y) :
    ∃ Y, multiple P1 n = some Y ∧ P n Y := by
  have hstep : ∀ i X, P (n >>> (i + 1)) X →
      (False ∧ step (fun P0 => some (double P0)) (add P1) n i X = none) ∨
        (¬ False ∧ ∃ Y, step (fun P0 => some (double P0)) (add P1) n i X = some Y ∧
          P (n >>> i) Y) := by
    intro i X hX
    have hprefix := shiftRight_eq_add_mod n i
    refine .inr ⟨not_false, ?_⟩
    rcases Nat.mod_two_eq_zero_or_one (n >>> i) with heven | hodd
    · rw [heven, Nat.add_zero] at hprefix
      exact ⟨_, step_even heven, hprefix ▸ hdouble _ _ hX⟩
    · rw [hodd] at hprefix
      obtain ⟨Y, hsome, hY⟩ := hadd _ _ (hdouble _ _ hX)
      exact ⟨Y, (step_odd hodd).trans hsome, hprefix ▸ hY⟩
  rcases @ladder_cases _ _ _ n P (fun _ => False) hstep n.size 0 (by rwa [shiftRight_size]) with
    ⟨⟨j, -, hfalse⟩, -⟩ | ⟨-, hdone⟩
  · exact hfalse.elim
  · exact hdone

end Steps

/-! ## Odd orders -/

section Odd

variable {P1 : Point} {n : ℕ}

/-- Multiples of a point of odd order are not their own opposites. -/
theorem double_of_odd (hodd : addOrderOf P1 % 2 = 1) (m : ℕ) :
    double (m • P1) = (2 * m) • P1 := by
  unfold double
  split_ifs with hzero
  · have hdvd : addOrderOf P1 ∣ m := by
      rw [← two_nsmul, ← mul_nsmul', ← addOrderOf_dvd_iff_nsmul_eq_zero] at hzero
      exact (Nat.Coprime.dvd_of_dvd_mul_left
        (Nat.coprime_two_right.2 (Nat.odd_iff.2 hodd)) hzero)
    have hX : m • P1 = 0 := addOrderOf_dvd_iff_nsmul_eq_zero.1 hdvd
    rw [mul_nsmul', hX, nsmul_zero]
  · rw [mul_nsmul', two_nsmul]

theorem add_of_odd (hodd : addOrderOf P1 % 2 = 1) (hne : P1 ≠ 0) (m : ℕ) :
    add P1 ((2 * m) • P1) =
      if addOrderOf P1 ∣ 2 * m + 1 then none else some ((2 * m + 1) • P1) := by
  have hsum : (2 * m) • P1 + P1 = (2 * m + 1) • P1 := (succ_nsmul _ _).symm
  unfold add
  by_cases hsame : (2 * m) • P1 = P1
  · have htwice : (2 * m + 1) • P1 = 2 • P1 := by rw [← hsum, hsame, two_nsmul]
    have hnot : ¬ addOrderOf P1 ∣ 2 * m + 1 := by
      rw [addOrderOf_dvd_iff_nsmul_eq_zero, htwice, ← addOrderOf_dvd_iff_nsmul_eq_zero]
      intro hdvd
      have hle := Nat.le_of_dvd two_pos hdvd
      have hone : addOrderOf P1 = 1 := by omega
      exact hne (AddMonoid.addOrderOf_eq_one_iff.1 hone)
    have hdouble := double_of_odd hodd 1
    rw [one_nsmul, mul_one] at hdouble
    rw [if_pos hsame, if_neg hnot, hsame, hdouble, htwice]
  · rw [if_neg hsame, hsum]
    simp only [addOrderOf_dvd_iff_nsmul_eq_zero]

/-- **Odd orders**: `c_mul` fails where an odd prefix of the factor is a multiple
of the order, and computes the multiple otherwise. -/
theorem multiple_odd_cases (hodd : addOrderOf P1 % 2 = 1) (hne : P1 ≠ 0) :
    ((∃ j, (n >>> j) % 2 = 1 ∧ addOrderOf P1 ∣ n >>> j) ∧ multiple P1 n = none) ∨
      ((∀ j, (n >>> j) % 2 = 1 → ¬ addOrderOf P1 ∣ n >>> j) ∧ multiple P1 n = some (n • P1)) := by
  have hstep : ∀ i X, X = (n >>> (i + 1)) • P1 →
      (((n >>> i) % 2 = 1 ∧ addOrderOf P1 ∣ n >>> i) ∧
          step (fun P0 => some (double P0)) (add P1) n i X = none) ∨
        (¬ ((n >>> i) % 2 = 1 ∧ addOrderOf P1 ∣ n >>> i) ∧
          ∃ Y, step (fun P0 => some (double P0)) (add P1) n i X = some Y ∧
            Y = (n >>> i) • P1) := by
    rintro i _ rfl
    have hprefix := shiftRight_eq_add_mod n i
    rcases Nat.mod_two_eq_zero_or_one (n >>> i) with heven | hbit
    · rw [heven, Nat.add_zero] at hprefix
      refine .inr ⟨by omega, _, step_even heven, ?_⟩
      rw [double_of_odd hodd, ← hprefix]
    · rw [hbit] at hprefix
      rw [step_odd hbit, double_of_odd hodd, add_of_odd hodd hne, ← hprefix]
      by_cases hdvd : addOrderOf P1 ∣ n >>> i
      · exact .inl ⟨⟨hbit, hdvd⟩, if_pos hdvd⟩
      · exact .inr ⟨fun h => hdvd h.2, _, if_neg hdvd, rfl⟩
  rcases @ladder_cases _ _ _ n (fun m X => X = m • P1)
    (fun k => k % 2 = 1 ∧ addOrderOf P1 ∣ k) hstep n.size 0
    (by simp [shiftRight_size]) with ⟨⟨j, -, hfails⟩, hnone⟩ | ⟨hnever, Y, hsome, hY⟩
  · exact .inl ⟨⟨j, hfails⟩, hnone⟩
  · refine .inr ⟨fun j hbit hdvd => ?_, by rw [multiple, hsome, hY]⟩
    by_cases hj : j < n.size
    · exact hnever j hj ⟨hbit, hdvd⟩
    · have hzero : n >>> j = 0 := by
        rw [Nat.shiftRight_eq_div_pow, Nat.div_eq_of_lt]
        exact (Nat.lt_size_self n).trans_le (Nat.pow_le_pow_right two_pos (not_lt.1 hj))
      omega

theorem multiple_odd (hodd : addOrderOf P1 % 2 = 1) (hne : P1 ≠ 0) :
    multiple P1 n = some (n • P1) ↔
      ∀ j, (n >>> j) % 2 = 1 → ¬ addOrderOf P1 ∣ n >>> j := by
  rcases @multiple_odd_cases _ _ _ _ n hodd hne with ⟨⟨j, hbit, hdvd⟩, hnone⟩ | ⟨hnever, hsome⟩
  · refine iff_of_false ?_ fun hall => hall j hbit hdvd
    rw [hnone]
    exact Option.some_ne_none _ |>.symm
  · exact iff_of_true hsome hnever

theorem multiple_order (hodd : addOrderOf P1 % 2 = 1) (hne : P1 ≠ 0) :
    multiple P1 (addOrderOf P1) = none := by
  rcases @multiple_odd_cases _ _ _ _ (addOrderOf P1) hodd hne with ⟨-, hnone⟩ | ⟨hnever, -⟩
  · exact hnone
  · exact absurd (dvd_refl _) (hnever 0 hodd)

end Odd

/-! ## Even orders -/

section Even

variable {P1 : Point} {n : ℕ}

/-- **Order two**: the point is kept once it has been reached. -/
theorem multiple_two (horder : addOrderOf P1 = 2) :
    multiple P1 n = some (if n = 0 then 0 else P1) := by
  have htwice : P1 + P1 = 0 := by
    rw [← two_nsmul, ← horder, addOrderOf_nsmul_eq_zero]
  have hne : P1 ≠ 0 := by
    rintro rfl
    simp at horder
  obtain ⟨Y, hsome, rfl⟩ := @multiple_of_steps _ _ _ P1 n
    (fun m X => X = if m = 0 then 0 else P1) (by simp)
    (by
      rintro m _ rfl
      by_cases hm : m = 0 <;> simp [double, hm, htwice])
    (by
      rintro m _ rfl
      by_cases hm : m = 0
      · simp [add, hm, hne, hne.symm]
      · simp [add, double, hm, htwice])
  exact hsome

variable (P1) in
/-- The state of `c_mul` after the prefix `m` of the factor, for an even order
from four on: the point of order two is left over after its doubling. -/
noncomputable def afterPrefix (m : ℕ) : Point :=
  m • P1 + if 2 ≤ m ∧ m % addOrderOf P1 < 2 then (addOrderOf P1 / 2) • P1 else 0

variable (heven : addOrderOf P1 % 2 = 0) (hlarge : 4 ≤ addOrderOf P1)
include heven hlarge

omit [DecidableEq Point] hlarge in
theorem half_add_half : (addOrderOf P1 / 2) • P1 + (addOrderOf P1 / 2) • P1 = 0 := by
  rw [← add_nsmul]
  have horder : addOrderOf P1 / 2 + addOrderOf P1 / 2 = addOrderOf P1 := by omega
  rw [horder, addOrderOf_nsmul_eq_zero]

omit [DecidableEq Point] heven in
theorem half_ne_zero : (addOrderOf P1 / 2) • P1 ≠ 0 := by
  rw [Ne, ← addOrderOf_dvd_iff_nsmul_eq_zero]
  intro hdvd
  have hle := Nat.le_of_dvd (by omega) hdvd
  omega

omit [DecidableEq Point] hlarge in
theorem afterPrefix_add_self (m : ℕ) :
    afterPrefix P1 m + afterPrefix P1 m = (2 * m) • P1 := by
  have hhalf := half_add_half heven
  unfold afterPrefix
  split_ifs
  · calc _ = m • P1 + m • P1 + ((addOrderOf P1 / 2) • P1 + (addOrderOf P1 / 2) • P1) := by abel
      _ = (2 * m) • P1 := by rw [hhalf, add_zero, ← two_nsmul, mul_nsmul']
  · rw [add_zero, ← two_nsmul, mul_nsmul']

/-- **Doubling** leads from one state to the next. -/
theorem double_afterPrefix (m : ℕ) : double (afterPrefix P1 m) = afterPrefix P1 (2 * m) := by
  unfold double
  rw [afterPrefix_add_self heven]
  by_cases hdvd : addOrderOf P1 ∣ 2 * m
  · have hzero : (2 * m) • P1 = 0 := addOrderOf_dvd_iff_nsmul_eq_zero.1 hdvd
    have hmod : 2 * m % addOrderOf P1 = 0 := Nat.mod_eq_zero_of_dvd hdvd
    rw [if_pos hzero]
    unfold afterPrefix
    rw [hzero, hmod]
    rcases Nat.eq_zero_or_pos m with rfl | hpos
    · simp
    · have hm : 2 ≤ m := by
        have hle := Nat.le_of_dvd (by omega) hdvd
        omega
      -- the prefix is a multiple of the order, or of half of it
      have hresidue : m % addOrderOf P1 = 0 ∨ m % addOrderOf P1 = addOrderOf P1 / 2 := by
        obtain ⟨k, hk⟩ := hdvd
        have hhalf : m = addOrderOf P1 / 2 * k := by
          have horder : addOrderOf P1 = 2 * (addOrderOf P1 / 2) := by omega
          rw [horder, mul_assoc] at hk
          omega
        rcases Nat.even_or_odd' k with ⟨l, rfl | rfl⟩
        · left
          rw [hhalf]
          have hmul : addOrderOf P1 / 2 * (2 * l) = addOrderOf P1 * l := by
            rw [← mul_assoc]
            congr 1
            omega
          rw [hmul, Nat.mul_mod_right]
        · right
          have hmul : addOrderOf P1 / 2 * (2 * l + 1) =
              addOrderOf P1 / 2 + addOrderOf P1 * l := by
            rw [mul_add, mul_one, ← mul_assoc, add_comm]
            congr 2
            omega
          rw [hhalf, hmul, Nat.add_mul_mod_self_left, Nat.mod_eq_of_lt (by omega)]
      have hX : m • P1 = (m % addOrderOf P1) • P1 := (mod_addOrderOf_nsmul P1 m).symm
      rcases hresidue with hm0 | hmHalf
      · rw [hX, hm0, zero_nsmul, if_pos (by omega), if_pos (by omega)]
      · rw [hX, hmHalf, if_neg (by omega), if_pos (by omega), zero_add, add_zero]
  · have hne : (2 * m) • P1 ≠ 0 := addOrderOf_dvd_iff_nsmul_eq_zero.not.1 hdvd
    have hmod : 2 * m % addOrderOf P1 ≠ 0 := fun h => hdvd (Nat.dvd_of_mod_eq_zero h)
    have hparity : 2 * m % addOrderOf P1 % 2 = 0 := by
      rw [Nat.mod_mod_of_dvd _ (Nat.dvd_of_mod_eq_zero heven), Nat.mul_mod_right]
    rw [if_neg hne, afterPrefix, if_neg (by omega), add_zero]

/-- **Adding** leads from one state to the next, and never fails. -/
theorem add_afterPrefix (m : ℕ) :
    add P1 (afterPrefix P1 (2 * m)) = some (afterPrefix P1 (2 * m + 1)) := by
  have hparity : 2 * m % addOrderOf P1 % 2 = 0 := by
    rw [Nat.mod_mod_of_dvd _ (Nat.dvd_of_mod_eq_zero heven), Nat.mul_mod_right]
  have hlt := Nat.mod_lt (2 * m) (show 0 < addOrderOf P1 by omega)
  have hnext : (2 * m + 1) % addOrderOf P1 = 2 * m % addOrderOf P1 + 1 := by
    rw [Nat.add_mod, Nat.mod_eq_of_lt (show 1 < addOrderOf P1 by omega), Nat.mod_eq_of_lt]
    omega
  have hsum : afterPrefix P1 (2 * m) + P1 = afterPrefix P1 (2 * m + 1) := by
    unfold afterPrefix
    rw [hnext, succ_nsmul]
    by_cases hleft : 2 ≤ 2 * m ∧ 2 * m % addOrderOf P1 < 2
    · rw [if_pos hleft, if_pos (by omega)]
      abel
    · rw [if_neg hleft, if_neg (by omega)]
      abel
  have hnonzero : ∀ k, 0 < k → k < addOrderOf P1 → k • P1 ≠ 0 := by
    intro k hpos hk hzero
    exact absurd (Nat.le_of_dvd hpos (addOrderOf_dvd_iff_nsmul_eq_zero.2 hzero)) (by omega)
  unfold add
  by_cases hsame : afterPrefix P1 (2 * m) = P1
  · have htwice : P1 + P1 ≠ 0 := by
      rw [← two_nsmul]
      exact hnonzero 2 two_pos (by omega)
    rw [if_pos hsame, ← hsum, hsame, double, if_neg htwice]
  · have hgoes : afterPrefix P1 (2 * m) + P1 ≠ 0 := by
      rw [hsum, afterPrefix, ← mod_addOrderOf_nsmul P1 (2 * m + 1), hnext]
      split_ifs with hleft
      · rw [← add_nsmul]
        exact hnonzero _ (by omega) (by omega)
      · rw [add_zero]
        exact hnonzero _ (by omega) (by omega)
    rw [if_neg hsame, if_neg hgoes, hsum]

/-- **Even orders from four on**: no addition fails. -/
theorem multiple_even : multiple P1 n = some (afterPrefix P1 n) := by
  obtain ⟨Y, hsome, rfl⟩ := @multiple_of_steps _ _ _ P1 n (fun m X => X = afterPrefix P1 m)
    (by simp [afterPrefix])
    (by
      rintro m _ rfl
      exact double_afterPrefix heven hlarge m)
    (by
      rintro m _ rfl
      exact ⟨_, add_afterPrefix heven hlarge m, rfl⟩)
  exact hsome

end Even

/-- **What `c_mul` computes** depends on the order of the point and the factor. -/
theorem multiple_eq_iff {P1 : Point} (hfinite : IsOfFinAddOrder P1) (n : ℕ) :
    multiple P1 n = some (n • P1) ↔ MultipleRight (addOrderOf P1) n := by
  have hpos := hfinite.addOrderOf_pos
  unfold MultipleRight
  split_ifs with hodd htwo
  · by_cases hzero : P1 = 0
    · subst hzero
      obtain ⟨Y, hsome, rfl⟩ := @multiple_of_steps _ _ _ (0 : Point) n (fun _ X => X = 0) rfl
        (by rintro m _ rfl; simp [double]) (by rintro m _ rfl; simp [add, double])
      simp [hsome]
    · have hone : addOrderOf P1 ≠ 1 := AddMonoid.addOrderOf_eq_one_iff.not.2 hzero
      rw [multiple_odd hodd hzero, or_iff_right hone]
  · have hne : P1 ≠ 0 := by
      rintro rfl
      simp at htwo
    rw [multiple_two htwo, Option.some_inj]
    have hresidue := mod_addOrderOf_nsmul P1 n
    rw [htwo] at hresidue
    rcases Nat.eq_zero_or_pos n with rfl | hn
    · simp
    · rw [if_neg hn.ne', ← hresidue]
      rcases Nat.mod_two_eq_zero_or_one n with heven | hn1
      · rw [heven, zero_nsmul]
        exact iff_of_false hne (by omega)
      · rw [hn1, one_nsmul]
        exact iff_of_true rfl (.inr rfl)
  · have hlarge : 4 ≤ addOrderOf P1 := by omega
    rw [multiple_even (by omega) hlarge, Option.some_inj, afterPrefix, add_eq_left]
    split_ifs with hleft
    · exact iff_of_false (half_ne_zero hlarge) (by omega)
    · exact iff_of_true rfl (by omega)

theorem multipleRight_of_prime {o n : ℕ} (hprime : o.Prime) (hpos : 0 < n) (hlt : n < o) :
    MultipleRight o n := by
  unfold MultipleRight
  split_ifs with hodd htwo
  · refine .inr fun j hbit hdvd => ?_
    have hprefix : n >>> j ≤ n := by
      rw [Nat.shiftRight_eq_div_pow]
      exact Nat.div_le_self _ _
    have hpositive : 0 < n >>> j := Nat.pos_of_ne_zero fun hzero => by
      rw [hzero] at hbit
      exact absurd hbit (by decide)
    have hle := Nat.le_of_dvd hpositive hdvd
    exact absurd hlt (not_lt.2 (hle.trans hprefix))
  · omega
  · exact absurd (hprime.eq_two_or_odd.resolve_right hodd) htwo

end Wiselib.Crypto.PartialAddition
