import Wiselib.Crypto.BinaryField
import Wiselib.Library.BinaryIrreducible
import Wiselib.Library.EuclideanQuotients

/-!
# Inversion in the binary field

`f_inv` of `crypto/eccf2m.h`.  Euclid's algorithm on `u` and `v`, one shift of the
divisor at a time, with `b` and `c` as the factors that give `u` and `v` from `a`.

## Strategy

* While the distance of the degrees fits into a signed byte, a step is one of Euclid's
  algorithm (`inverts_step`), no bit leaves an array and the sum of the sizes
  decreases (`fInvLoop_spec`).
* The distance of the degrees is the degree of a quotient.  A distance above 128 has
  the other sign in a signed byte: the longer array is shifted and added to the
  shorter one, and the step after it takes the same off again (`fInvLoop_stuck`).
* The distance 128 is its own opposite in a signed byte.  It copies nothing, so that
  what the array `anonymous` held is added.

The quotients are those of the modulus and `a`, whatever steps have been done
(`Wild.step`).
-/

namespace Wiselib.Crypto

open BinaryPolynomial EuclideanQuotients Polynomial
open Digits (Octet)

namespace Bint

/-! ## The routine -/

/-- The arrays of `f_inv`. -/
structure InvState where
  u : Bint
  v : Bint
  b : Bint
  c : Bint
  anonymous : Bint

/-- The array with the number one, as `f_inv` sets it. -/
def bOne : Bint :=
  ⟨bClear.val.set (bintWords - 1) 1, by rw [List.length_set, bClear.length_val]⟩

/-- The pointers change places. -/
def InvState.swap (s : InvState) : InvState :=
  { s with u := s.v, v := s.u, b := s.c, c := s.b }

/-- Adds `v` and `c`, shifted by `j`. -/
def InvState.addShifted (s : InvState) (j : ℤ) : InvState :=
  if j = 0 then { s with u := s.u.bXor s.v, b := s.b.bXor s.c }
  else if j = 1 then
    let anonymous := s.v.bShiftleft1
    let u := s.u.bXor anonymous
    let anonymous := s.c.bShiftleft1
    { s with u := u, b := s.b.bXor anonymous, anonymous := anonymous }
  else if j = 2 then
    let anonymous := s.v.bShiftleft2
    let u := s.u.bXor anonymous
    let anonymous := s.c.bShiftleft2
    { s with u := u, b := s.b.bXor anonymous, anonymous := anonymous }
  else
    let anonymous := s.v.bShiftleft j s.anonymous
    let u := s.u.bXor anonymous
    let anonymous := s.c.bShiftleft j anonymous
    { s with u := u, b := s.b.bXor anonymous, anonymous := anonymous }

/-- The body of the loop of `f_inv`; the distance is an `int8_t`. -/
def InvState.step (s : InvState) : InvState :=
  let j := int8 (((s.u.bBitlength : ℤ) - 1) - ((s.v.bBitlength : ℤ) - 1))
  if j < 0 then s.swap.addShifted (int8 (-j)) else s.addShifted j

/-- The loop of `f_inv`. -/
def fInvLoop : ℕ → InvState → Option Bint
  | 0, _ => none
  | fuel + 1, s => if 1 < s.u.bBitlength then fInvLoop fuel s.step else some s.b

/-- `f_inv`, with what the array for shifts holds. -/
def fInv (fuel : ℕ) (a anonymous : Bint) : Option Bint :=
  (fMod fuel a).bind fun u => fInvLoop fuel ⟨u, modulus, bOne, bClear, anonymous⟩

/-! ## One addition -/

section Steps

variable {s : InvState} {a : ℕ}

theorem number_bOne : bOne.number = 1 := by
  decide +kernel

/-- **An addition** for any distance that is not negative. -/
theorem addShifted_spec (s : InvState) {j : ℕ} (hj : j < 8 * bintWords) :
    (s.addShifted j).u.number = s.u.number ^^^ s.v.number * 2 ^ j % 2 ^ (8 * bintWords) ∧
      (s.addShifted j).b.number = s.b.number ^^^ s.c.number * 2 ^ j % 2 ^ (8 * bintWords) ∧
      (s.addShifted j).v = s.v ∧ (s.addShifted j).c = s.c := by
  unfold InvState.addShifted
  split_ifs with hzero hone htwo
  · obtain rfl : j = 0 := by omega
    rw [pow_zero, Nat.mul_one, Nat.mul_one, Nat.mod_eq_of_lt s.v.number_lt,
      Nat.mod_eq_of_lt s.c.number_lt]
    exact ⟨number_bXor _ _, number_bXor _ _, rfl, rfl⟩
  · obtain rfl : j = 1 := by omega
    rw [pow_one, ← number_bShiftleft1, ← number_bShiftleft1]
    exact ⟨number_bXor _ _, number_bXor _ _, rfl, rfl⟩
  · obtain rfl : j = 2 := by omega
    rw [← number_bShiftleft2, ← number_bShiftleft2]
    exact ⟨number_bXor _ _, number_bXor _ _, rfl, rfl⟩
  · rw [← number_bShiftleft s.v s.anonymous hj,
      ← number_bShiftleft s.c (s.v.bShiftleft j s.anonymous) hj]
    exact ⟨number_bXor _ _, number_bXor _ _, rfl, rfl⟩

theorem step_eq (s : InvState) : s.step =
    if int8 ((s.u.number.size : ℤ) - s.v.number.size) < 0 then
      s.swap.addShifted (int8 (-int8 ((s.u.number.size : ℤ) - s.v.number.size)))
    else s.addShifted (int8 ((s.u.number.size : ℤ) - s.v.number.size)) := by
  unfold InvState.step
  rw [bBitlength_eq, bBitlength_eq, sub_sub_sub_cancel_right]

/-- **Distances in range**, with the longer array in `u`. -/
theorem step_of_le (hle : s.v.number.size ≤ s.u.number.size)
    (hrange : s.u.number.size - s.v.number.size < 128) :
    s.step = s.addShifted ((s.u.number.size - s.v.number.size : ℕ) : ℤ) := by
  rw [step_eq, ← Nat.cast_sub hle, int8_of_fits (by omega) (by omega), if_neg (by omega)]

/-- **Distances in range**, with the longer array in `v`. -/
theorem step_of_lt (hlt : s.u.number.size < s.v.number.size)
    (hrange : s.v.number.size - s.u.number.size < 128) :
    s.step = s.swap.addShifted ((s.v.number.size - s.u.number.size : ℕ) : ℤ) := by
  have hdistance : (s.u.number.size : ℤ) - s.v.number.size =
      -((s.v.number.size - s.u.number.size : ℕ) : ℤ) := by
    rw [Nat.cast_sub hlt.le]
    ring
  rw [step_eq, hdistance, int8_of_fits (by omega) (by omega), if_pos (by omega), neg_neg,
    int8_of_fits (by omega) (by omega)]

end Steps

/-! ## The invariant -/

/-- `b` and `c` give `u` and `v` from `a`, and there is room for the shifts. -/
structure Inverts (a : ℕ) (s : InvState) : Prop where
  u_follows : fieldPoly ∣ ofBits s.b.number * ofBits a + ofBits s.u.number
  v_follows : fieldPoly ∣ ofBits s.c.number * ofBits a + ofBits s.v.number
  b_size : s.b.number.size + s.v.number.size ≤ 165
  c_size : s.c.number.size + s.u.number.size ≤ 165
  v_size : 2 ≤ s.v.number.size
  coprime : IsCoprime (ofBits s.u.number) (ofBits s.v.number)

section Invariant

variable {s : InvState} {a : ℕ}

theorem inverts_swap (h : Inverts a s) (hu : 2 ≤ s.u.number.size) : Inverts a s.swap where
  u_follows := h.v_follows
  v_follows := h.u_follows
  b_size := h.c_size
  c_size := h.b_size
  v_size := hu
  coprime := h.coprime.symm

theorem mul_pow_mod_of_size {n j : ℕ} (hn : n.size + j ≤ 8 * bintWords) :
    n * 2 ^ j % 2 ^ (8 * bintWords) = n <<< j := by
  rw [Nat.shiftLeft_eq]
  refine Nat.mod_eq_of_lt ?_
  calc n * 2 ^ j < 2 ^ n.size * 2 ^ j :=
        Nat.mul_lt_mul_of_pos_right (Nat.lt_size_self n) (Nat.two_pow_pos j)
    _ = 2 ^ (n.size + j) := (pow_add _ _ _).symm
    _ ≤ 2 ^ (8 * bintWords) := pow_le_pow_right₀ one_le_two hn

theorem size_xor_le (m n : ℕ) : (m ^^^ n).size ≤ max m.size n.size := by
  refine Nat.size_le.2 (Nat.xor_lt_two_pow ?_ ?_)
  · exact Nat.size_le.1 (le_max_left _ _)
  · exact Nat.size_le.1 (le_max_right _ _)

theorem size_xor_of_lt {m n : ℕ} (hlt : m.size < n.size) : (m ^^^ n).size = n.size := by
  have hle := size_xor_le m n
  have hback := size_xor_le m (m ^^^ n)
  rw [← Nat.xor_assoc, Nat.xor_self, Nat.zero_xor] at hback
  omega

theorem size_shiftLeft_le (n j : ℕ) : (n <<< j).size ≤ n.size + j := by
  rcases Nat.eq_zero_or_pos n with rfl | hpos
  · simp
  · rw [Nat.size_shiftLeft hpos.ne']

theorem follows_one {F A : (ZMod 2)[X]} : F ∣ 1 * A + A := by
  rw [one_mul, add_self]
  exact dvd_zero F

theorem follows_zero {F A : (ZMod 2)[X]} : F ∣ 0 * A + F := by
  rw [zero_mul, zero_add]

theorem follows_add {F A B C U V T : (ZMod 2)[X]} (hu : F ∣ B * A + U) (hv : F ∣ C * A + V) :
    F ∣ (B + T * C) * A + (U + T * V) := by
  have hsum : (B + T * C) * A + (U + T * V) = B * A + U + T * (C * A + V) := by ring
  rw [hsum]
  exact dvd_add hu (hv.mul_left T)

/-- **The longer array** loses its highest bit. -/
theorem inverts_addShifted (h : Inverts a s) (hle : s.v.number.size ≤ s.u.number.size) :
    Inverts a (s.addShifted ((s.u.number.size - s.v.number.size : ℕ) : ℤ)) ∧
      ofBits (s.addShifted ((s.u.number.size - s.v.number.size : ℕ) : ℤ)).u.number =
        ofBits s.u.number + X ^ (s.u.number.size - s.v.number.size) * ofBits s.v.number ∧
      (s.addShifted ((s.u.number.size - s.v.number.size : ℕ) : ℤ)).u.number.size <
        s.u.number.size ∧
      (s.addShifted ((s.u.number.size - s.v.number.size : ℕ) : ℤ)).v = s.v := by
  have hcsize := h.c_size
  have hvsize := h.v_size
  have hbsize := h.b_size
  have hroom : s.u.number.size - s.v.number.size < 8 * bintWords := by
    unfold bintWords
    omega
  obtain ⟨hu, hb, hv, hc⟩ := addShifted_spec s hroom
  have hvroom : s.v.number.size + (s.u.number.size - s.v.number.size) ≤ 8 * bintWords := by
    unfold bintWords
    omega
  have hcroom : s.c.number.size + (s.u.number.size - s.v.number.size) ≤ 8 * bintWords := by
    unfold bintWords
    omega
  rw [mul_pow_mod_of_size hvroom] at hu
  rw [mul_pow_mod_of_size hcroom] at hb
  have hpoly : ofBits (s.addShifted ((s.u.number.size - s.v.number.size : ℕ) : ℤ)).u.number =
      ofBits s.u.number + X ^ (s.u.number.size - s.v.number.size) * ofBits s.v.number := by
    rw [hu, ofBits_xor, ofBits_shiftLeft]
  have hshorter : (s.addShifted ((s.u.number.size - s.v.number.size : ℕ) : ℤ)).u.number.size <
      s.u.number.size := by
    rw [hu]
    exact size_xor_shiftLeft_lt (Nat.size_pos.1 (by omega)) hle
  refine ⟨⟨?_, ?_, ?_, ?_, ?_, ?_⟩, hpoly, hshorter, hv⟩
  · rw [hpoly, hb, ofBits_xor, ofBits_shiftLeft]
    exact follows_add h.u_follows h.v_follows
  · rw [hc, hv]
    exact h.v_follows
  · rw [hb, hv]
    have hxor := size_xor_le s.b.number (s.c.number <<< (s.u.number.size - s.v.number.size))
    have hshift := size_shiftLeft_le s.c.number (s.u.number.size - s.v.number.size)
    omega
  · rw [hc]
    omega
  · rw [hv]
    exact h.v_size
  · rw [hpoly, hv]
    exact h.coprime.add_mul_right_left _

/-- What is left for the loop to do. -/
def InvState.remaining (s : InvState) : ℕ := s.u.number.size + s.v.number.size

theorem natDegree_sub_natDegree (m : ℕ) {n : ℕ} (hn : 0 < n.size) :
    (ofBits m).natDegree - (ofBits n).natDegree = m.size - n.size := by
  rw [natDegree_ofBits, natDegree_ofBits]
  omega

theorem degree_lt_of_size_lt {m n : ℕ} (hlt : m.size < n.size) :
    (ofBits m).degree < (ofBits n).degree := by
  have hn : n ≠ 0 := by
    rintro rfl
    exact Nat.not_lt_zero _ (Nat.size_zero ▸ hlt)
  rw [degree_eq_natDegree ((ofBits_eq_zero_iff n).not.2 hn), natDegree_ofBits,
    degree_ofBits_lt_iff]
  exact Nat.size_le.1 (by omega)

end Invariant

/-! ## Steps of Euclid's algorithm -/

/-- The state with the longer array in `u`. -/
def InvState.ordered (s : InvState) : InvState :=
  if s.u.number.size < s.v.number.size then s.swap else s

/-- The distance of the degrees. -/
def InvState.distance (s : InvState) : ℕ := s.ordered.u.number.size - s.ordered.v.number.size

section Euclid

variable {s : InvState} {a : ℕ} {q : (ZMod 2)[X]}

theorem ordered_le (s : InvState) : s.ordered.v.number.size ≤ s.ordered.u.number.size := by
  unfold InvState.ordered
  split_ifs with hlt
  · exact hlt.le
  · exact not_lt.1 hlt

theorem remaining_ordered (s : InvState) : s.ordered.remaining = s.remaining := by
  unfold InvState.ordered InvState.remaining
  split_ifs
  · exact Nat.add_comm _ _
  · rfl

theorem inverts_ordered (h : Inverts a s) (hu : 2 ≤ s.u.number.size) : Inverts a s.ordered := by
  unfold InvState.ordered
  split_ifs
  · exact inverts_swap h hu
  · exact h

theorem isQuotient_ordered (hv : 2 ≤ s.v.number.size) :
    IsQuotient (ofBits s.u.number) (ofBits s.v.number) q ↔
      (s.u.number.size < s.v.number.size ∧ q = 0) ∨
        IsQuotient (ofBits s.ordered.u.number) (ofBits s.ordered.v.number) q := by
  have hpos : 0 < (ofBits s.v.number).natDegree := by
    rw [natDegree_ofBits]
    omega
  unfold InvState.ordered
  split_ifs with hlt
  · rw [isQuotient_swap (degree_lt_of_size_lt hlt) hpos, and_iff_right hlt]
    rfl
  · rw [or_iff_right (fun hand => hlt hand.1)]

/-- **A distance in range** is the one that is shifted by. -/
theorem step_of_near (hnear : s.distance < 128) : s.step = s.ordered.addShifted (s.distance : ℤ) := by
  unfold InvState.distance InvState.ordered at hnear ⊢
  split_ifs at hnear ⊢ with hlt
  · exact step_of_lt hlt hnear
  · exact step_of_le (not_lt.1 hlt) hnear

/-- **A step** of Euclid's algorithm. -/
theorem inverts_step (h : Inverts a s) (hu : 2 ≤ s.u.number.size) (hnear : s.distance < 128) :
    Inverts a s.step ∧ s.step.remaining < s.remaining ∧
      s.step.u.number.size < s.ordered.u.number.size ∧
      ofBits s.step.u.number =
        ofBits s.ordered.u.number + X ^ s.distance * ofBits s.ordered.v.number ∧
      s.step.v = s.ordered.v := by
  obtain ⟨hnext, hpoly, hshorter, hsame⟩ := inverts_addShifted (inverts_ordered h hu) (ordered_le s)
  rw [step_of_near hnear]
  refine ⟨hnext, ?_, hshorter, hpoly, hsame⟩
  rw [← remaining_ordered s, InvState.remaining, InvState.remaining, InvState.distance, hsame]
  omega

theorem near_of_steady (h : Inverts a s) (hu : 2 ≤ s.u.number.size)
    (hsteady : Steady 128 (ofBits s.u.number) (ofBits s.v.number)) :
    s.distance < 128 ∧
      Steady 128 (ofBits s.ordered.u.number) (ofBits s.ordered.v.number) := by
  have hordered : Steady 128 (ofBits s.ordered.u.number) (ofBits s.ordered.v.number) :=
    fun q hquotient => hsteady q ((isQuotient_ordered h.v_size).2 (Or.inr hquotient))
  have hv := (inverts_ordered h hu).v_size
  have hpos : 0 < (ofBits s.ordered.v.number).natDegree := by
    rw [natDegree_ofBits]
    omega
  have hlt := hordered.natDegree_sub_lt hpos
  rw [natDegree_sub_natDegree _ (by omega)] at hlt
  exact ⟨hlt, hordered⟩

theorem natDegree_pos_of_size {n : ℕ} (hn : 2 ≤ n.size) : 0 < (ofBits n).natDegree := by
  rw [natDegree_ofBits]
  omega

/-- **The loop** ends with the inverse if all quotients are steady. -/
theorem fInvLoop_spec {fuel : ℕ} (h : Inverts a s)
    (hsteady : Steady 128 (ofBits s.u.number) (ofBits s.v.number)) (hfuel : s.remaining < fuel) :
    ∃ d, fInvLoop fuel s = some d ∧ fieldPoly ∣ ofBits d.number * ofBits a + 1 ∧
      d.number.size ≤ 163 := by
  induction fuel generalizing s with
  | zero => exact absurd hfuel (Nat.not_lt_zero _)
  | succ fuel ih =>
      rw [fInvLoop, bBitlength_eq]
      by_cases hu : 1 < s.u.number.size
      · obtain ⟨hnear, hordered⟩ := near_of_steady h hu hsteady
        obtain ⟨hnext, hless, hshorter, hpoly, hsame⟩ := inverts_step h hu hnear
        rw [if_pos hu]
        refine ih hnext ?_ (by omega)
        rw [hpoly, hsame]
        refine hordered.add_mul (natDegree_pos_of_size (inverts_ordered h hu).v_size) ?_
        rw [← hpoly, natDegree_ofBits, natDegree_ofBits]
        omega
      · rw [if_neg hu]
        have hbsize := h.b_size
        have hvsize := h.v_size
        have hone : s.u.number = 1 := by
          have hlt : s.u.number < 2 ^ 1 := Nat.size_le.1 (by omega)
          have hne : s.u.number ≠ 0 := by
            intro hzero
            have hcoprime := h.coprime
            rw [hzero, ofBits_zero, isCoprime_zero_left] at hcoprime
            exact (natDegree_pos_of_size hvsize).ne' (natDegree_eq_zero_of_isUnit hcoprime)
          omega
        have hfollows := h.u_follows
        rw [hone, ofBits_one] at hfollows
        exact ⟨s.b, rfl, hfollows, by omega⟩

end Euclid

/-! ## Distances out of range -/

section Far

variable {s : InvState} {a : ℕ} {q : (ZMod 2)[X]}

theorem int8_add (n : ℤ) : int8 (n + 256) = int8 n := by
  rw [int8, int8, BitVec.toInt_ofInt, BitVec.toInt_ofInt]
  exact Int.add_bmod_right n (2 ^ 8)

/-- The state with the longer array in `v`. -/
def InvState.reversed (s : InvState) : InvState :=
  if s.u.number.size < s.v.number.size then s else s.swap

theorem reversed_eq (s : InvState) : s.reversed.u = s.ordered.v ∧ s.reversed.v = s.ordered.u := by
  unfold InvState.reversed InvState.ordered
  split_ifs
  · exact ⟨rfl, rfl⟩
  · exact ⟨rfl, rfl⟩

/-- **A distance above 128** changes its sign, so that the longer array is shifted. -/
theorem step_of_far (hfar : 128 < s.distance) (hroom : s.distance < 256) :
    s.step = s.reversed.addShifted ((256 - s.distance : ℕ) : ℤ) := by
  unfold InvState.distance InvState.ordered at hfar hroom ⊢
  unfold InvState.reversed
  rw [step_eq]
  by_cases hlt : s.u.number.size < s.v.number.size
  · rw [if_pos hlt] at hfar hroom
    rw [if_pos hlt, if_pos hlt]
    change 128 < s.v.number.size - s.u.number.size at hfar
    change s.v.number.size - s.u.number.size < 256 at hroom
    change _ = s.addShifted ((256 - (s.v.number.size - s.u.number.size) : ℕ) : ℤ)
    have hdistance : (s.u.number.size : ℤ) - s.v.number.size + 256 =
        ((256 - (s.v.number.size - s.u.number.size) : ℕ) : ℤ) := by omega
    rw [← int8_add, hdistance, int8_of_fits (by omega) (by omega), if_neg (by omega)]
  · rw [if_neg hlt] at hfar hroom
    rw [if_neg hlt, if_neg hlt]
    have hdistance : (s.u.number.size : ℤ) - s.v.number.size =
        -((256 - (s.u.number.size - s.v.number.size) : ℕ) : ℤ) + 256 := by omega
    rw [hdistance, int8_add, int8_of_fits (by omega) (by omega), if_pos (by omega), neg_neg,
      int8_of_fits (by omega) (by omega)]

/-- **A far step and the one after it** lead back to the arrays. -/
theorem step_step_of_far (hfar : 128 < s.distance) (hsize : s.ordered.u.number.size ≤ 165) :
    2 ≤ s.step.u.number.size ∧ s.step.step.u = s.reversed.u ∧ s.step.step.v = s.reversed.v := by
  obtain ⟨hreversedU, hreversedV⟩ := reversed_eq s
  have hdistance : s.distance = s.ordered.u.number.size - s.ordered.v.number.size := rfl
  have hj : 256 - s.distance < 8 * bintWords := by
    unfold bintWords
    omega
  have hroom : s.ordered.u.number.size + (256 - s.distance) ≤ 8 * bintWords := by
    unfold bintWords
    omega
  have hshifted : (s.ordered.u.number <<< (256 - s.distance)).size =
      s.ordered.u.number.size + (256 - s.distance) :=
    Nat.size_shiftLeft (Nat.size_pos.1 (by omega)).ne' _
  -- the first step
  obtain ⟨hu, -, hv, -⟩ := addShifted_spec s.reversed hj
  rw [← step_of_far hfar (by omega), hreversedU, hreversedV, mul_pow_mod_of_size hroom] at hu
  rw [← step_of_far hfar (by omega), hreversedV] at hv
  have hlength : s.step.u.number.size = s.ordered.u.number.size + (256 - s.distance) := by
    rw [hu, size_xor_of_lt (by omega), hshifted]
  -- the second step
  have hback := step_of_le (s := s.step) (by rw [hv]; omega) (by rw [hv]; omega)
  obtain ⟨hu', -, hv', -⟩ := addShifted_spec s.step hj
  have hsame : s.step.u.number.size - s.step.v.number.size = 256 - s.distance := by
    rw [hv]
    omega
  rw [hsame] at hback
  rw [← hback, hv, mul_pow_mod_of_size hroom, hu, Nat.xor_assoc, Nat.xor_self, Nat.xor_zero] at hu'
  refine ⟨by omega, ?_, ?_⟩
  · rw [hreversedU]
    exact number_injective hu'
  · rw [hback, hv', hv, hreversedV]

/-- **The loop never ends** from a distance above 128 on. -/
theorem fInvLoop_stuck (hu : 2 ≤ s.u.number.size) (hv : 2 ≤ s.v.number.size)
    (hfar : 128 < s.distance) (hsize : s.ordered.u.number.size ≤ 165) (fuel : ℕ) :
    fInvLoop fuel s = none := by
  induction fuel using Nat.strong_induction_on generalizing s with
  | _ fuel ih =>
      obtain ⟨hlong, hbackU, hbackV⟩ := step_step_of_far hfar hsize
      rcases fuel with _ | _ | fuel
      · rfl
      · rw [fInvLoop, bBitlength_eq, if_pos (Nat.lt_of_succ_le hu), fInvLoop]
      · rw [fInvLoop, bBitlength_eq, if_pos (Nat.lt_of_succ_le hu), fInvLoop, bBitlength_eq,
          if_pos (Nat.lt_of_succ_le hlong)]
        obtain ⟨hreversedU, hreversedV⟩ := reversed_eq s
        have hlt : s.step.step.u.number.size < s.step.step.v.number.size := by
          rw [hbackU, hbackV, hreversedU, hreversedV]
          unfold InvState.distance at hfar
          omega
        have hordered : s.step.step.ordered.u = s.ordered.u ∧
            s.step.step.ordered.v = s.ordered.v := by
          unfold InvState.ordered
          rw [if_pos hlt]
          exact ⟨hbackV.trans hreversedV, hbackU.trans hreversedU⟩
        have hboth : 2 ≤ s.ordered.u.number.size ∧ 2 ≤ s.ordered.v.number.size := by
          unfold InvState.ordered
          split_ifs
          · exact ⟨hv, hu⟩
          · exact ⟨hu, hv⟩
        refine ih fuel (by omega) ?_ ?_ ?_ ?_
        · rw [hbackU, hreversedU]
          exact hboth.2
        · rw [hbackV, hreversedV]
          exact hboth.1
        · rw [InvState.distance, hordered.1, hordered.2]
          exact hfar
        · rw [hordered.1]
          exact hsize

/-! ## Quotients of a higher degree -/

/-- A quotient has a degree above 128, and none has the degree 128. -/
structure Wild (P Q : (ZMod 2)[X]) : Prop where
  exists_large : ∃ q, IsQuotient P Q q ∧ 128 < q.natDegree
  ne : ∀ q, IsQuotient P Q q → q.natDegree ≠ 128

theorem wild_ordered (hv : 2 ≤ s.v.number.size)
    (hwild : Wild (ofBits s.u.number) (ofBits s.v.number)) :
    Wild (ofBits s.ordered.u.number) (ofBits s.ordered.v.number) := by
  obtain ⟨q, hquotient, hlarge⟩ := hwild.exists_large
  refine ⟨⟨q, ?_, hlarge⟩, fun q hquotient => ?_⟩
  · refine ((isQuotient_ordered hv).1 hquotient).resolve_left ?_
    rintro ⟨-, rfl⟩
    exact absurd hlarge (by rw [natDegree_zero]; decide)
  · exact hwild.ne q ((isQuotient_ordered hv).2 (Or.inr hquotient))

/-- **A step** of Euclid's algorithm leaves the quotients of a higher degree. -/
theorem Wild.step {P Q R : (ZMod 2)[X]} (hwild : Wild P Q) (hQ : 0 < Q.natDegree)
    (hnear : P.natDegree - Q.natDegree < 128) (hle : (P + R * Q).natDegree ≤ P.natDegree) :
    Wild (P + R * Q) Q := by
  obtain ⟨q, hquotient, hlarge⟩ := hwild.exists_large
  refine ⟨⟨q, hquotient.add_mul hQ (by omega), hlarge⟩, fun q hquotient hdegree => ?_⟩
  exact hwild.ne q (hquotient.of_add_mul hQ (by omega)) hdegree

theorem not_wild_of_size (hu : s.u.number.size ≤ 1) (hv : 2 ≤ s.v.number.size) :
    ¬ Wild (ofBits s.u.number) (ofBits s.v.number) := by
  intro hwild
  obtain ⟨q, hquotient, hlarge⟩ := hwild.exists_large
  have hconstant : (ofBits s.u.number).natDegree = 0 := by
    rw [natDegree_ofBits]
    omega
  rcases (isQuotient_swap (degree_lt_of_size_lt (by omega)) (natDegree_pos_of_size hv)).1
    hquotient with rfl | hrest
  · exact absurd hlarge (by rw [natDegree_zero]; decide)
  · exact absurd (steady_of_natDegree_eq_zero (n := 0) hconstant q hrest) (Nat.not_lt_zero _)

/-- **The loop never ends** if a quotient has a degree above 128 and none has this degree. -/
theorem fInvLoop_wild (h : Inverts a s) (hwild : Wild (ofBits s.u.number) (ofBits s.v.number))
    (fuel : ℕ) : fInvLoop fuel s = none := by
  induction fuel generalizing s with
  | zero => rfl
  | succ fuel ih =>
      have hu : 1 < s.u.number.size := by
        by_contra hshort
        exact not_wild_of_size (not_lt.1 hshort) h.v_size hwild
      have hordered := inverts_ordered h hu
      have hwildOrdered := wild_ordered h.v_size hwild
      have hpos := natDegree_pos_of_size hordered.v_size
      have hsize : 0 < s.ordered.v.number.size := lt_of_lt_of_le two_pos hordered.v_size
      have hne : s.distance ≠ 128 := by
        have hhead := hwildOrdered.ne _ (.head hpos)
        rwa [natDegree_div (ne_zero_of_natDegree_gt hpos), natDegree_sub_natDegree _ hsize] at hhead
      rcases Nat.lt_or_ge s.distance 128 with hnear | hfar
      · obtain ⟨hnext, -, hshorter, hpoly, hsame⟩ := inverts_step h hu hnear
        rw [fInvLoop, bBitlength_eq, if_pos hu]
        refine ih hnext ?_
        rw [hpoly, hsame]
        refine hwildOrdered.step hpos ?_ ?_
        · rw [natDegree_sub_natDegree _ hsize]
          exact hnear
        · rw [← hpoly, natDegree_ofBits, natDegree_ofBits]
          omega
      · refine fInvLoop_stuck hu h.v_size (lt_of_le_of_ne hfar hne.symm) ?_ (fuel + 1)
        have hcsize := hordered.c_size
        omega

end Far

/-! ## The field -/

theorem frobenius_fieldNumber : frobenius fieldNumber 163 163 2 = 2 := by
  decide +kernel

theorem eval_fieldPoly (c : ZMod 2) : fieldPoly.eval c ≠ 0 := by
  have hcases : ∀ c : ZMod 2, c = 0 ∨ c = 1 := by decide
  rw [fieldPoly, pentanomial]
  simp only [eval_add, eval_pow, eval_X, eval_one]
  rcases hcases c with rfl | rfl
  · norm_num
  · simp only [one_pow]
    decide

/-- **The modulus is irreducible.** -/
theorem irreducible_fieldPoly : Irreducible fieldPoly := by
  have hlow : 2 ^ 163 ≤ fieldNumber := by
    unfold fieldNumber
    omega
  have hhigh : fieldNumber < 2 ^ (163 + 1) := by
    unfold fieldNumber
    omega
  rw [← ofBits_fieldNumber]
  refine irreducible_ofBits (by norm_num) hlow hhigh frobenius_fieldNumber fun c => ?_
  rw [ofBits_fieldNumber]
  exact eval_fieldPoly c

section Field

variable {a : Bint}

/-- The state before the loop. -/
def start (a anonymous : Bint) : InvState := ⟨a, modulus, bOne, bClear, anonymous⟩

theorem fInv_eq (ha : a.number < 2 ^ 163) {fuel : ℕ} (hfuel : 8 * bintWords < fuel)
    (anonymous : Bint) : fInv fuel a anonymous = fInvLoop fuel (start a anonymous) := by
  obtain ⟨u, hrun, hnumber⟩ := fMod_spec hfuel a
  have hsmall : a.number < fieldNumber := by
    unfold fieldNumber
    omega
  rw [if_pos hsmall] at hnumber
  rw [fInv, hrun, number_injective hnumber]
  rfl

theorem isCoprime_of_degree_lt {F A : (ZMod 2)[X]} (hF : Irreducible F) (hne : A ≠ 0)
    (hlt : A.degree < F.degree) : IsCoprime A F := by
  refine (hF.coprime_iff_not_dvd.2 fun hdvd => ?_).symm
  exact not_lt.2 (degree_le_of_dvd hdvd hne) hlt

theorem inverts_start (hpos : 0 < a.number) (ha : a.number < 2 ^ 163) (anonymous : Bint) :
    Inverts a.number (start a anonymous) := by
  have hu : (start a anonymous).u.number = a.number := rfl
  have hv : (start a anonymous).v.number = fieldNumber := number_modulus
  have hb : (start a anonymous).b.number = 1 := number_bOne
  have hc : (start a anonymous).c.number = 0 := number_bClear
  have hsize : a.number.size ≤ 163 := Nat.size_le.2 ha
  have hdegree : (ofBits a.number).degree < fieldPoly.degree := by
    rw [degree_fieldPoly]
    exact (degree_ofBits_lt_iff a.number 163).2 ha
  refine ⟨?_, ?_, ?_, ?_, ?_, ?_⟩
  · rw [hb, hu, ofBits_one]
    exact follows_one
  · rw [hc, hv, ofBits_zero, ofBits_fieldNumber]
    exact follows_zero
  · rw [hb, hv, size_fieldNumber, Nat.size_one]
  · rw [hc, hu, Nat.size_zero]
    omega
  · rw [hv, size_fieldNumber]
    decide
  · rw [hu, hv, ofBits_fieldNumber]
    exact isCoprime_of_degree_lt irreducible_fieldPoly
      ((ofBits_eq_zero_iff _).not.2 hpos.ne') hdegree

end Field

/-! ## The contract -/

/-- What is expected of `f_inv`: it ends, whatever the array for shifts held, and the product with
its result is one. -/
def InvRight (a : Bint) : Prop :=
  ∃ enough, ∀ fuel, enough ≤ fuel → ∀ anonymous, ∃ d c,
    fInv fuel a anonymous = some d ∧ fMul fuel a d = some c ∧ c.number = 1

section Contract

variable {a d : Bint} {F A D E P : (ZMod 2)[X]}

theorem eq_one_or_eq_add_one (hdvd : F ∣ P + 1) (hle : P.natDegree ≤ F.natDegree)
    (hpos : 0 < F.natDegree) : P = 1 ∨ P = F + 1 := by
  obtain ⟨k, hk⟩ := hdvd
  have hP : P = F * k + 1 := by
    rw [← hk, add_assoc, add_self, add_zero]
  have hF : F ≠ 0 := ne_zero_of_natDegree_gt hpos
  rcases eq_or_ne k 0 with rfl | hne
  · rw [mul_zero, zero_add] at hP
    exact Or.inl hP
  · have hdegree : (F * k).natDegree ≤ F.natDegree := by
      rw [← hk]
      exact natDegree_add_le_of_degree_le hle (by rw [natDegree_one]; exact Nat.zero_le _)
    rw [natDegree_mul hF hne] at hdegree
    have hconstant := eq_C_of_natDegree_eq_zero (show k.natDegree = 0 by omega)
    have hcases : ∀ c : ZMod 2, c = 0 ∨ c = 1 := by decide
    rcases hcases (k.coeff 0) with hzero | hone
    · rw [hzero, C_0] at hconstant
      exact absurd hconstant hne
    · rw [hone, C_1] at hconstant
      rw [hconstant, mul_one] at hP
      exact Or.inr hP

theorem inverse_unique (hF : Irreducible F) (hA : A ≠ 0) (hAF : A.degree < F.degree)
    (hD : D.degree < F.degree) (hE : E.degree < F.degree) (hinverse : F ∣ D * A + 1)
    (hother : F ∣ E * A + 1) : D = E := by
  have hproduct : F ∣ (D + E) * A := by
    have hboth := dvd_add hinverse hother
    have hsum : D * A + 1 + (E * A + 1) = (D + E) * A := by
      linear_combination add_self (1 : (ZMod 2)[X])
    rwa [hsum] at hboth
  rcases hF.prime.dvd_or_dvd hproduct with hdvd | hdvd
  · have hzero : D + E = 0 := by
      by_contra hne
      exact not_lt.2 (degree_le_of_dvd hdvd hne) ((degree_add_le D E).trans_lt (max_lt hD hE))
    calc D = D + E + E := by rw [add_assoc, add_self, add_zero]
      _ = E := by rw [hzero, zero_add]
  · exact absurd (degree_le_of_dvd hdvd hA) (not_le.2 hAF)

/-- The inverse is the cofactor of a divisor of `F + 1`. -/
theorem mul_eq_add_one_iff (hF : Irreducible F) (hA : A ≠ 0) (hAF : A.degree < F.degree)
    (hD : D.degree < F.degree) (hpos : 0 < F.natDegree) (hinverse : F ∣ D * A + 1) :
    A * D = F + 1 ↔ A ≠ 1 ∧ A ∣ F + 1 := by
  have hdegree : (F + 1).natDegree = F.natDegree := natDegree_add_C (a := 1)
  have hne : F + 1 ≠ 0 := by
    intro hzero
    rw [hzero, natDegree_zero] at hdegree
    omega
  constructor
  · intro hproduct
    refine ⟨?_, ⟨D, hproduct.symm⟩⟩
    rintro rfl
    rw [one_mul] at hproduct
    have hlt := natDegree_lt_natDegree (hproduct ▸ hne) hD
    rw [hproduct, hdegree] at hlt
    exact lt_irrefl _ hlt
  · rintro ⟨hone, E, hE⟩
    have hEne : E ≠ 0 := by
      rintro rfl
      exact hne (by rw [hE, mul_zero])
    have hApos : 0 < A.natDegree := by
      by_contra hconstant
      have hC := eq_C_of_natDegree_eq_zero (show A.natDegree = 0 by omega)
      have hcases : ∀ c : ZMod 2, c = 0 ∨ c = 1 := by decide
      rcases hcases (A.coeff 0) with hzero | hcoeff
      · exact hA (by rw [hC, hzero, C_0])
      · exact hone (by rw [hC, hcoeff, C_1])
    have hEdegree : E.degree < F.degree := by
      refine degree_lt_degree ?_
      rw [← hdegree, hE, natDegree_mul hA hEne]
      omega
    have hother : F ∣ E * A + 1 := by
      rw [mul_comm, ← hE, add_assoc, add_self, add_zero]
    rw [inverse_unique hF hA hAF hD hEdegree hinverse hother, hE]

/-- **The product with an inverse** is one unless it is the modulus without its last term. -/
theorem fMul_inverse {fuel : ℕ} (hfuel : 8 * bintWords < fuel) (ha : a.number < 2 ^ 163)
    (hd : d.number < 2 ^ 163) (hinverse : fieldPoly ∣ ofBits d.number * ofBits a.number + 1) :
    ∃ c, fMul fuel a d = some c ∧
      (c.number = 1 ↔ ofBits a.number * ofBits d.number ≠ fieldPoly + 1) := by
  have hroom : 2 ^ 163 ≤ 2 ^ 168 := Nat.pow_le_pow_right two_pos (by norm_num)
  obtain ⟨c, product, hrun, hpoly, hcases⟩ :=
    fMul_spec hfuel (ha.trans_le hroom) (hd.trans_le hroom)
  refine ⟨c, hrun, ?_⟩
  rw [mul_comm, ← hpoly] at hinverse
  rw [← hpoly]
  have hlast : fieldPoly + 1 = ofBits (fieldNumber ^^^ 1) := by
    rw [ofBits_xor, ofBits_one, ofBits_fieldNumber]
  have hless : fieldNumber ^^^ 1 < fieldNumber := by decide
  rw [hlast, ofBits_injective.ne_iff]
  split_ifs at hcases with hsmall
  · rw [hcases]
    have hdegree : (ofBits product).natDegree ≤ fieldPoly.natDegree := by
      rw [← ofBits_fieldNumber, natDegree_ofBits, natDegree_ofBits]
      exact Nat.sub_le_sub_right (Nat.size_le_size hsmall.le) 1
    have hpos : 0 < fieldPoly.natDegree := by
      rw [← ofBits_fieldNumber, natDegree_ofBits, size_fieldNumber]
      decide
    have hne : (1 : ℕ) ≠ fieldNumber ^^^ 1 := by decide
    rcases eq_one_or_eq_add_one hinverse hdegree hpos with hone | hadd
    · rw [← ofBits_one] at hone
      rw [ofBits_injective hone]
      exact iff_of_true rfl hne
    · rw [hlast] at hadd
      rw [ofBits_injective hadd]
      exact iff_of_false hne.symm fun hself => hself rfl
  · refine iff_of_true ?_ fun heq => hsmall (heq ▸ hless)
    rw [← ofBits_fieldNumber, ← ofBits_one] at hinverse
    have hone := ofBits_eq_modByMonic (show 0 < fieldNumber by decide)
      (by rw [size_fieldNumber, Nat.size_one]; decide) hinverse
    rw [ofBits_fieldNumber, ← hcases.2] at hone
    exact (ofBits_injective hone).symm

/-- A product with the modulus is no one. -/
theorem mul_self_modByMonic_ne_one (hF : F.Monic) (hirreducible : Irreducible F) :
    A * F ≠ 1 ∧ (A * F) %ₘ F = 0 :=
  ⟨fun hone => hirreducible.not_isUnit (IsUnit.of_mul_eq_one_right A hone),
    (modByMonic_eq_zero_iff_dvd hF).2 (dvd_mul_left F A)⟩

/-- **The distance 128** adds what the array held. -/
theorem addShifted_neg (s : InvState) :
    s.addShifted (-128) =
      { s with u := s.u.bXor s.anonymous, b := s.b.bXor s.anonymous } := by
  unfold InvState.addShifted
  rw [if_neg (by decide), if_neg (by decide), if_neg (by decide)]
  simp only [bShiftleft_neg]

theorem not_invRight_of_size (hsize : a.number.size = 36) : ¬ InvRight a := by
  rintro ⟨enough, hright⟩
  have ha : a.number < 2 ^ 163 :=
    (Nat.size_le.1 hsize.le).trans_le (Nat.pow_le_pow_right two_pos (by norm_num))
  have hroom : 2 ^ 163 ≤ 2 ^ 168 := Nat.pow_le_pow_right two_pos (by norm_num)
  obtain ⟨d, c, hinv, hmul, hone⟩ := hright (enough + 8 * bintWords + 2) (by omega) modulus
  have hfuel : 8 * bintWords < enough + 8 * bintWords + 2 := by omega
  have hstep : (start a modulus).step =
      { (start a modulus).swap with
        u := modulus.bXor modulus, b := bClear.bXor modulus } := by
    have hu : (start a modulus).u.number.size = 36 := hsize
    have hv : (start a modulus).v.number.size = 164 := by
      rw [← size_fieldNumber, ← number_modulus]
      rfl
    rw [step_eq, hu, hv, show int8 (((36 : ℕ) : ℤ) - (164 : ℕ)) = -128 by decide,
      if_pos (by decide), show int8 (- -128) = -128 by decide, addShifted_neg]
    rfl
  rw [fInv_eq ha hfuel, fInvLoop, bBitlength_eq] at hinv
  have hlong : 1 < (start a modulus).u.number.size := by
    have hu : (start a modulus).u.number.size = 36 := hsize
    omega
  rw [if_pos hlong, hstep, fInvLoop, bBitlength_eq, number_bXor, Nat.xor_self, Nat.size_zero,
    if_neg (by decide)] at hinv
  have hd : d.number = fieldNumber := by
    rw [← Option.some_inj.1 hinv, number_bXor, number_bClear, Nat.zero_xor, number_modulus]
  obtain ⟨c', product, hrun, hpoly, hcases⟩ := fMul_spec hfuel (ha.trans_le hroom)
    (show d.number < 2 ^ 168 by rw [hd, fieldNumber]; omega)
  obtain rfl := Option.some_inj.1 (hmul.symm.trans hrun)
  obtain ⟨hne, hzero⟩ := @mul_self_modByMonic_ne_one _ (ofBits a.number) monic_fieldPoly
    irreducible_fieldPoly
  rw [hd, ofBits_fieldNumber] at hpoly
  split_ifs at hcases with hsmall
  · rw [← hcases, hone, ofBits_one] at hpoly
    exact hne hpoly.symm
  · have hlast := hcases.2
    rw [hpoly, hzero, hone, ofBits_one] at hlast
    exact one_ne_zero hlast

/-- The loop that never ends has no result. -/
theorem not_invRight_of_wild (hpos : 0 < a.number) (ha : a.number < 2 ^ 163)
    (hwild : Wild (ofBits a.number) fieldPoly) : ¬ InvRight a := by
  rintro ⟨enough, hright⟩
  obtain ⟨d, c, hinv, -⟩ := hright (enough + 8 * bintWords + 1) (by omega) bClear
  rw [← ofBits_fieldNumber, ← number_modulus] at hwild
  rw [fInv_eq ha (by omega), fInvLoop_wild (inverts_start hpos ha bClear) hwild] at hinv
  exact absurd hinv (by simp)

theorem natDegree_fieldPoly : fieldPoly.natDegree = 163 := by
  rw [← ofBits_fieldNumber, natDegree_ofBits, size_fieldNumber]

theorem degree_lt_fieldPoly (ha : a.number < 2 ^ 163) :
    (ofBits a.number).degree < fieldPoly.degree := by
  rw [degree_fieldPoly]
  exact (degree_ofBits_lt_iff a.number 163).2 ha

/-- **Steady quotients** lead to the inverse. -/
theorem invRight_of_steady (hpos : 0 < a.number) (ha : a.number < 2 ^ 163)
    (hsteady : Steady 128 fieldPoly (ofBits a.number)) :
    InvRight a ↔ (ofBits a.number = 1 ∨ ¬ ofBits a.number ∣ fieldPoly + 1) := by
  have hne : ofBits a.number ≠ 0 := (ofBits_eq_zero_iff _).not.2 hpos.ne'
  have hdegree := degree_lt_fieldPoly ha
  have hpositive : 0 < fieldPoly.natDegree := by
    rw [natDegree_fieldPoly]
    decide
  have hswapped : ∀ anonymous, Steady 128 (ofBits (start a anonymous).u.number)
      (ofBits (start a anonymous).v.number) := fun anonymous => by
    have hv : (start a anonymous).v.number = fieldNumber := number_modulus
    rw [hv, ofBits_fieldNumber]
    exact (steady_swap_iff hdegree hpositive (by decide)).2 hsteady
  have hremaining : ∀ anonymous, (start a anonymous).remaining ≤ 8 * bintWords := fun anonymous => by
    have hv : (start a anonymous).v.number = fieldNumber := number_modulus
    have hu : (start a anonymous).u.number.size ≤ 163 := Nat.size_le.2 ha
    rw [InvState.remaining, hv, size_fieldNumber]
    unfold bintWords
    omega
  -- what a run with enough steps leaves
  have hrun : ∀ fuel, 8 * bintWords < fuel → ∀ anonymous, ∃ d c,
      fInv fuel a anonymous = some d ∧ fMul fuel a d = some c ∧
        (c.number = 1 ↔ (ofBits a.number = 1 ∨ ¬ ofBits a.number ∣ fieldPoly + 1)) := by
    intro fuel hfuel anonymous
    obtain ⟨d, hinv, hinverse, hsize⟩ := fInvLoop_spec (inverts_start hpos ha anonymous)
      (hswapped anonymous) ((hremaining anonymous).trans_lt hfuel)
    have hd : d.number < 2 ^ 163 := Nat.size_le.1 hsize
    obtain ⟨c, hmul, hone⟩ := fMul_inverse hfuel ha hd hinverse
    refine ⟨d, c, by rw [fInv_eq ha hfuel, hinv], hmul, ?_⟩
    rw [hone, Ne, mul_eq_add_one_iff irreducible_fieldPoly hne hdegree (degree_lt_fieldPoly hd)
      hpositive hinverse, not_and_or, not_not]
  constructor
  · rintro ⟨enough, hright⟩
    obtain ⟨d, c, hinv, hmul, hone⟩ := hright (enough + 8 * bintWords + 1) (by omega) bClear
    obtain ⟨d', c', hinv', hmul', hiff⟩ := hrun (enough + 8 * bintWords + 1) (by omega) bClear
    obtain rfl := Option.some_inj.1 (hinv.symm.trans hinv')
    obtain rfl := Option.some_inj.1 (hmul.symm.trans hmul')
    exact hiff.1 hone
  · intro hcondition
    refine ⟨8 * bintWords + 1, fun fuel hfuel anonymous => ?_⟩
    obtain ⟨d, c, hinv, hmul, hiff⟩ := hrun fuel (by omega) anonymous
    exact ⟨d, c, hinv, hmul, hiff.2 hcondition⟩

/-- A quotient of degree 128 or more makes `f_inv` wrong, if no later one has the degree 128. -/
theorem not_invRight_of_not_steady (hpos : 0 < a.number) (ha : a.number < 2 ^ 163)
    (hlater : ∀ q, IsQuotient (ofBits a.number) (fieldPoly % ofBits a.number) q →
      q.natDegree ≠ 128)
    (hnot : ¬ Steady 128 fieldPoly (ofBits a.number)) : ¬ InvRight a := by
  have hne : ofBits a.number ≠ 0 := (ofBits_eq_zero_iff _).not.2 hpos.ne'
  have hdegree := degree_lt_fieldPoly ha
  have hpositive : 0 < fieldPoly.natDegree := by
    rw [natDegree_fieldPoly]
    decide
  have hApos : 0 < (ofBits a.number).natDegree := by
    by_contra hconstant
    exact hnot (steady_of_natDegree_eq_zero (by omega))
  have hsize : 0 < a.number.size := Nat.size_pos.2 hpos
  have hfirst : (fieldPoly / ofBits a.number).natDegree = 164 - a.number.size := by
    rw [natDegree_div hne, ← ofBits_fieldNumber, natDegree_sub_natDegree _ hsize, size_fieldNumber]
  by_cases hexact : (fieldPoly / ofBits a.number).natDegree = 128
  · exact not_invRight_of_size (by omega)
  · refine not_invRight_of_wild hpos ha ?_
    have hnone : ∀ q, IsQuotient fieldPoly (ofBits a.number) q → q.natDegree ≠ 128 := by
      intro q hquotient
      rcases (isQuotient_iff hApos).1 hquotient with rfl | hrest
      · exact hexact
      · exact hlater q hrest
    obtain ⟨q, hquotient, hlarge⟩ := not_forall₂.1 hnot
    refine ⟨⟨q, ?_, lt_of_le_of_ne (not_lt.1 hlarge) (hnone q hquotient).symm⟩, fun q hq => ?_⟩
    · exact (isQuotient_swap hdegree hpositive).2 (Or.inr hquotient)
    · rcases (isQuotient_swap hdegree hpositive).1 hq with rfl | hrest
      · rw [natDegree_zero]
        decide
      · exact hnone q hrest

/-! ## The results -/

/-- **`f_inv` is right** if every quotient of the modulus and `a` has a degree below 128 and `a` is
one or does not divide the modulus without its last term.  Unless a later quotient has the degree
128 it is right for no other `a`. -/
theorem inversion_right_iff (hpos : 0 < a.number) (hdegree : (ofBits a.number).degree < 163) :
    (Steady 128 fieldPoly (ofBits a.number) ∧
        (ofBits a.number = 1 ∨ ¬ ofBits a.number ∣ fieldPoly + 1) → InvRight a) ∧
      ((∀ q, IsQuotient (ofBits a.number) (fieldPoly % ofBits a.number) q → q.natDegree ≠ 128) →
        (InvRight a ↔ Steady 128 fieldPoly (ofBits a.number) ∧
          (ofBits a.number = 1 ∨ ¬ ofBits a.number ∣ fieldPoly + 1))) := by
  have ha : a.number < 2 ^ 163 := (degree_ofBits_lt_iff a.number 163).1 hdegree
  have hright : Steady 128 fieldPoly (ofBits a.number) ∧
      (ofBits a.number = 1 ∨ ¬ ofBits a.number ∣ fieldPoly + 1) → InvRight a :=
    fun hcondition => (invRight_of_steady hpos ha hcondition.1).2 hcondition.2
  refine ⟨hright, fun hlater => ⟨fun hinv => ?_, hright⟩⟩
  have hsteady : Steady 128 fieldPoly (ofBits a.number) := by
    by_contra hnot
    exact not_invRight_of_not_steady hpos ha hlater hnot hinv
  exact ⟨hsteady, (invRight_of_steady hpos ha hsteady).1 hinv⟩

/-- The inverse of one. -/
theorem inversion_right_iff_one : InvRight bOne := by
  have hpos : 0 < bOne.number := by rw [number_bOne]; decide
  have hone : ofBits bOne.number = 1 := by rw [number_bOne, ofBits_one]
  have hdegree : (ofBits bOne.number).degree < 163 := by
    rw [hone, degree_one]
    decide
  refine (inversion_right_iff hpos hdegree).1 ⟨?_, Or.inl hone⟩
  refine steady_of_natDegree_eq_zero ?_
  rw [hone, natDegree_one]

/-- The polynomial `x`. -/
def bX : Bint := bClear.bSetbit 1

theorem number_bX : bX.number = 2 := by
  decide +kernel

/-- **The inverse of `x`** is searched for without end. -/
theorem inversion_wrong :
    ¬ ∀ a : Bint, 0 < a.number → (ofBits a.number).degree < 163 → InvRight a := by
  intro hright
  have hlt : bX.number < 2 ^ 163 := by
    rw [number_bX]
    decide
  have hinv := hright bX (by rw [number_bX]; decide) ((degree_ofBits_lt_iff bX.number 163).2 hlt)
  obtain ⟨enough, hends⟩ := hinv
  obtain ⟨d, c, hrun, -⟩ := hends (enough + 8 * bintWords + 1) (by omega) bClear
  have hv : (start bX bClear).v.number.size = 164 := by
    rw [← size_fieldNumber, ← number_modulus]
    rfl
  have hu : (start bX bClear).u.number.size = 2 := by
    have hsame : (start bX bClear).u.number = bX.number := rfl
    rw [hsame, number_bX]
    decide
  have hordered : (start bX bClear).ordered = (start bX bClear).swap := by
    rw [InvState.ordered, if_pos (by rw [hu, hv]; decide)]
  have hfar : (start bX bClear).distance = 162 := by
    rw [InvState.distance, hordered]
    change (start bX bClear).v.number.size - (start bX bClear).u.number.size = 162
    rw [hu, hv]
  have hnone := fInvLoop_stuck hu.ge (by rw [hv]; decide) (by rw [hfar]; decide)
    (by
      rw [hordered]
      change (start bX bClear).v.number.size ≤ 165
      rw [hv]
      decide)
    (enough + 8 * bintWords + 1)
  rw [fInv_eq hlt (by omega), hnone] at hrun
  exact absurd hrun (by simp)

end Contract

end Bint

end Wiselib.Crypto
