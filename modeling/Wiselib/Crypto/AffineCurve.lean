import Wiselib.Crypto.ModDiv
import Wiselib.Crypto.PartialAddition

/-!
# The curve over a prime field

`c_dbl_affine`, `c_add_affine` and `c_mul` of `crypto/eccfp.h` on the
coordinates of points.  Both coordinates are zero for infinity, which is
no point of the curve as long as its coefficient `b` is not zero.

## Strategy

The points of the curve are a group, `encode` writes one as coordinates.

* On reduced numbers the modular operations are those of the field
  (`modAdd_val` to `modDivOpt_val`), so the formulas of the code are the slope
  and the coordinates of the sum.
* `cDblAffine_encode` and `cAddAffine_encode` say what the code does to any two
  points: a point whose double is infinity is not written, and opposite points
  lead to a division by zero, which does not end.
* With enough steps for the divisions, `c_mul` is therefore the one of
  `PartialAddition`, and its result depends on the order of the point.
-/

namespace Wiselib.Crypto.AffineCurve

/-- The prime, the coefficients of the curve, and the bits of an array. -/
structure Params where
  bits : ℕ
  p : ℕ
  a : ℕ
  b : ℕ
  prime : p.Prime
  odd : p ≠ 2
  bits_le : 2 * p ≤ 2 ^ bits
  a_lt : a < p
  b_lt : b < p
  b_ne_zero : (b : ZMod p) ≠ 0

/-- The coordinates of a point. -/
structure Point where
  x : ℕ
  y : ℕ
deriving DecidableEq

namespace Params

variable (E : Params)

/-- `p_iszero`. -/
def pIszero (P0 : Point) : Bool :=
  P0.x = 0 ∧ P0.y = 0

/-- `c_dbl_affine` of `P1` into `P0`. -/
def cDblAffine (fuel : ℕ) (P0 P1 : Point) : Option Point :=
  if P1.y = 0 then some P0
  else do
    let t1 := modMult P1.x P1.x E.p
    let t2 := modTwice E.bits t1 E.p
    let t2 := modAdd E.bits t2 t1 E.p
    let t1 := modAdd E.bits t2 E.a E.p
    let t2 := modTwice E.bits P1.y E.p
    let slope ← modDivOpt E.bits fuel t1 t2 E.p
    let t1 := modMult slope slope E.p
    let t2 := modTwice E.bits P1.x E.p
    let t1 := modSub E.bits t1 t2 E.p
    let t2 := modSub E.bits P1.x t1 E.p
    let t2 := modMult slope t2 E.p
    some ⟨t1, modSub E.bits t2 P1.y E.p⟩

/-- `c_add_affine` of `P1` and `P2` into `P0`. -/
def cAddAffine (fuel : ℕ) (P0 P1 P2 : Point) : Option Point :=
  if P1 = P2 then E.cDblAffine fuel P0 P1
  else if pIszero P1 then some P2
  else if pIszero P2 then some P1
  else do
    let t1 := modSub E.bits P2.y P1.y E.p
    let t2 := modSub E.bits P2.x P1.x E.p
    let slope ← modDivOpt E.bits fuel t1 t2 E.p
    let t1 := modMult slope slope E.p
    let t2 := modSub E.bits t1 P1.x E.p
    let t1 := modSub E.bits t2 P2.x E.p
    let t2 := modSub E.bits P1.x t1 E.p
    let t2 := modMult t2 slope E.p
    some ⟨t1, modSub E.bits t2 P1.y E.p⟩

/-- `c_mul`. -/
def cMul (fuel : ℕ) (P1 : Point) (n : ℕ) : Option Point :=
  DoubleAndAdd.ladder (fun P0 => E.cDblAffine fuel P0 P0) (fun P0 => E.cAddAffine fuel P0 P0 P1) n
    n.size ⟨0, 0⟩

/-! ## The field -/

instance : Fact E.p.Prime := ⟨E.prime⟩

/-- The curve. -/
def curve : WeierstrassCurve.Affine (ZMod E.p) := ⟨0, 0, 0, E.a, E.b⟩

section Field

variable {E} {fuel : ℕ} (x y : ZMod E.p)

theorem two_ne_zero : (2 : ZMod E.p) ≠ 0 := by
  have hndvd : ¬ E.p ∣ 2 := fun hdvd =>
    E.odd ((Nat.prime_dvd_prime_iff_eq E.prime Nat.prime_two).1 hdvd)
  exact_mod_cast (ZMod.natCast_eq_zero_iff 2 E.p).not.2 hndvd

theorem eq_val {n : ℕ} {x : ZMod E.p} (hn : n < E.p) (hcast : (n : ZMod E.p) = x) : n = x.val := by
  rw [← hcast, ZMod.val_cast_of_lt hn]

theorem p_lt : E.p < 2 ^ E.bits := by
  have hle := E.bits_le
  have hpos := E.prime.pos
  omega

@[simp] theorem modMult_val : modMult x.val y.val E.p = (x * y).val :=
  eq_val (Nat.mod_lt _ E.prime.pos) (by simp [cast_modMult])

@[simp] theorem modSub_val : modSub E.bits x.val y.val E.p = (x - y).val := by
  have hx := x.val_lt
  have hy := y.val_lt
  have hp := @p_lt E
  refine eq_val ?_ (by simp [cast_modSub hy.le hp])
  unfold modSub
  split
  · have hsplit : 2 ^ E.bits + x.val - y.val + E.p = 2 ^ E.bits + (x.val + E.p - y.val) := by omega
    rw [hsplit, Nat.add_mod_left, Nat.mod_eq_of_lt (by omega)]
    omega
  · omega

@[simp] theorem modAdd_val : modAdd E.bits x.val y.val E.p = (x + y).val := by
  have hx := x.val_lt
  have hy := y.val_lt
  have hle := E.bits_le
  refine eq_val ?_ (by simp [cast_modAdd hx.le hy (@p_lt E)])
  unfold modAdd
  rw [Nat.mod_eq_of_lt (by omega), if_neg (by omega)]
  split <;> omega

@[simp] theorem modTwice_val : modTwice E.bits x.val E.p = (2 * x).val := by
  have hx := x.val_lt
  have hle := E.bits_le
  refine eq_val ?_ (by simp [cast_modTwice hle hx])
  unfold modTwice
  rw [Nat.mod_eq_of_lt (by omega)]
  dsimp only
  split <;> omega

/-- **`ModDiv` is the quotient of the field**, and does not end for zero. -/
theorem modDivOpt_val (hfuel : 2 * E.p ≤ fuel) :
    modDivOpt E.bits fuel x.val y.val E.p = if y = 0 then none else some (x / y).val := by
  have hodd : E.p % 2 = 1 := E.prime.mod_two_eq_one_iff_ne_two.2 E.odd
  by_cases hy : y = 0
  · rw [if_pos hy, hy, ZMod.val_zero]
    exact modDivOpt_zero E.prime.pos fuel
  · have hpos : 0 < y.val := Nat.pos_of_ne_zero fun h => hy ((ZMod.val_eq_zero y).1 h)
    obtain ⟨q, hq, hrun, hquotient⟩ :=
      modDivOpt_spec hodd E.bits_le x.val_lt hpos y.val_lt
    have hcoprime : Nat.Coprime y.val E.p :=
      (Nat.coprime_of_lt_prime hpos.ne' y.val_lt E.prime).symm
    have hcast := (ZMod.natCast_eq_natCast_iff _ _ _).2 (hquotient hcoprime)
    rw [Nat.cast_mul, ZMod.natCast_zmod_val, ZMod.natCast_zmod_val] at hcast
    have hlt := y.val_lt
    rw [if_neg hy, hrun fuel (by omega)]
    congr 1
    exact eq_val hq (by rw [← hcast, mul_div_cancel_right₀ _ hy])

end Field

/-! ## Points as coordinates -/

/-- The coordinates of a point of the curve, and zeros for infinity. -/
def encode : E.curve.Point → Point
  | .zero => ⟨0, 0⟩
  | .some x y _ => ⟨x.val, y.val⟩

section Encoding

variable {E} {fuel : ℕ}

@[simp] theorem encode_zero : E.encode 0 = ⟨0, 0⟩ := rfl

@[simp] theorem encode_some {x y : ZMod E.p} (h : E.curve.Nonsingular x y) :
    E.encode (.some x y h) = ⟨x.val, y.val⟩ := rfl

theorem equation_iff (x y : ZMod E.p) :
    E.curve.Equation x y ↔ y ^ 2 = x ^ 3 + E.a * x + E.b := by
  rw [WeierstrassCurve.Affine.equation_iff]
  simp [curve]

@[simp] theorem negY_eq (x y : ZMod E.p) : E.curve.negY x y = -y := by
  simp [WeierstrassCurve.Affine.negY, curve]

theorem addX_eq (x₁ x₂ l : ZMod E.p) : E.curve.addX x₁ x₂ l = l * l - x₁ - x₂ := by
  simp [WeierstrassCurve.Affine.addX, curve, pow_two]

theorem addY_eq (x₁ x₂ y₁ l : ZMod E.p) :
    E.curve.addY x₁ x₂ y₁ l = l * (x₁ - E.curve.addX x₁ x₂ l) - y₁ := by
  rw [WeierstrassCurve.Affine.addY, negY_eq, WeierstrassCurve.Affine.negAddY]
  ring

theorem not_both_zero {x y : ZMod E.p} (h : E.curve.Nonsingular x y) : ¬ (x = 0 ∧ y = 0) := by
  rintro ⟨rfl, rfl⟩
  have hequation := (equation_iff 0 0).1 h.1
  refine E.b_ne_zero ?_
  linear_combination -hequation

theorem pIszero_encode (Q : E.curve.Point) : pIszero (E.encode Q) = decide (Q = 0) := by
  cases Q with
  | zero => simp [pIszero, ← WeierstrassCurve.Affine.Point.zero_def]
  | some x y h =>
      have hne := not_both_zero h
      simpa [pIszero, WeierstrassCurve.Affine.Point.some_ne_zero h] using hne

/-- **Different points** have different coordinates. -/
theorem encode_injective : Function.Injective E.encode := by
  intro Q R heq
  cases Q with
  | zero =>
      have hzero := pIszero_encode R
      rw [← heq] at hzero
      have hR : R = 0 := by simpa [pIszero, encode] using hzero.symm
      exact hR.symm
  | some x y h =>
      cases R with
      | zero =>
          have hzero := pIszero_encode (.some x y h)
          rw [heq] at hzero
          simpa [pIszero, encode] using hzero.symm
      | some x' y' h' =>
          simp only [encode_some, Point.mk.injEq] at heq
          obtain rfl := ZMod.val_injective _ heq.1
          obtain rfl := ZMod.val_injective _ heq.2
          rfl

/-- The second coordinate is zero for the points whose double is infinity. -/
theorem encode_y_eq_zero (Q : E.curve.Point) : (E.encode Q).y = 0 ↔ Q + Q = 0 := by
  cases Q with
  | zero => exact iff_of_true rfl (add_zero _)
  | some x y h =>
      rw [encode_some, ZMod.val_eq_zero]
      constructor
      · rintro rfl
        exact WeierstrassCurve.Affine.Point.add_self_of_Y_eq (by rw [negY_eq, neg_zero])
      · intro hzero
        by_contra hy
        have hne : y ≠ E.curve.negY x y := by
          rw [negY_eq]
          intro heq
          have htwice : 2 * y = 0 := by linear_combination heq
          exact hy ((mul_eq_zero.1 htwice).resolve_left two_ne_zero)
        rw [WeierstrassCurve.Affine.Point.add_self_of_Y_ne hne] at hzero
        exact WeierstrassCurve.Affine.Point.some_ne_zero _ hzero

/-- **`c_dbl_affine`** doubles, unless the double is infinity: then it leaves
what was there. -/
theorem cDblAffine_encode (hfuel : 2 * E.p ≤ fuel) (P0 : Point) (Q : E.curve.Point) :
    E.cDblAffine fuel P0 (E.encode Q) = some (if Q + Q = 0 then P0 else E.encode (Q + Q)) := by
  unfold cDblAffine
  simp only [encode_y_eq_zero]
  split_ifs with hzero
  · rfl
  · cases Q with
    | zero => exact absurd (add_zero _) hzero
    | some x y h =>
        have hy : y ≠ 0 := fun h0 => hzero ((encode_y_eq_zero _).1 (by simp [h0]))
        have htwice : 2 * y ≠ 0 := mul_ne_zero two_ne_zero hy
        have hne : y ≠ E.curve.negY x y := by
          rw [negY_eq]
          intro heq
          exact htwice (by linear_combination heq)
        have ha : E.a = (E.a : ZMod E.p).val := (ZMod.val_cast_of_lt E.a_lt).symm
        rw [WeierstrassCurve.Affine.Point.add_self_of_Y_ne hne]
        simp only [encode_some, modMult_val, modTwice_val, modAdd_val]
        rw [ha]
        simp only [modAdd_val, modDivOpt_val _ _ hfuel, if_neg htwice, Option.bind_eq_bind,
          Option.bind_some, modMult_val, modSub_val]
        have hslope : E.curve.slope x x y y = (2 * (x * x) + x * x + E.a) / (2 * y) := by
          rw [WeierstrassCurve.Affine.slope_of_Y_ne rfl hne, negY_eq]
          simp only [curve]
          congr 1 <;> ring
        rw [addY_eq, addX_eq, hslope]
        congr 3 <;> ring

/-- **`c_add_affine`** adds, but equal points with infinity as their double are
not written, and opposite points do not come to an end. -/
theorem cAddAffine_encode (hfuel : 2 * E.p ≤ fuel) (P0 : Point) (Q R : E.curve.Point) :
    E.cAddAffine fuel P0 (E.encode Q) (E.encode R) =
      if Q = R then some (if Q + Q = 0 then P0 else E.encode (Q + Q))
      else if Q + R = 0 then none
      else some (E.encode (Q + R)) := by
  unfold cAddAffine
  simp only [encode_injective.eq_iff, pIszero_encode, decide_eq_true_eq]
  by_cases hsame : Q = R
  · rw [if_pos hsame, if_pos hsame]
    exact cDblAffine_encode hfuel P0 Q
  rw [if_neg hsame, if_neg hsame]
  by_cases hQ : Q = 0
  · have hR : R ≠ 0 := fun h => hsame (hQ.trans h.symm)
    rw [if_pos hQ, hQ, zero_add, if_neg hR]
  rw [if_neg hQ]
  by_cases hR : R = 0
  · rw [if_pos hR, hR, add_zero, if_neg hQ]
  rw [if_neg hR]
  cases Q with
  | zero => exact absurd rfl hQ
  | some x₁ y₁ h₁ =>
      cases R with
      | zero => exact absurd rfl hR
      | some x₂ y₂ h₂ =>
          simp only [encode_some, modSub_val, modDivOpt_val _ _ hfuel]
          by_cases hx : x₁ = x₂
          · -- points above each other that are not the same are opposite
            have hy : y₁ = E.curve.negY x₂ y₂ := by
              refine (WeierstrassCurve.Affine.Y_eq_of_X_eq h₁.1 h₂.1 hx).resolve_left fun hy => ?_
              subst hx hy
              exact hsame rfl
            rw [if_pos (sub_eq_zero.2 hx.symm), WeierstrassCurve.Affine.Point.add_of_Y_eq hx hy,
              if_pos rfl]
            rfl
          · have hslope : E.curve.slope x₁ x₂ y₁ y₂ = (y₂ - y₁) / (x₂ - x₁) := by
              rw [WeierstrassCurve.Affine.slope_of_X_ne hx, ← neg_sub y₂, ← neg_sub x₂, neg_div_neg_eq]
            rw [if_neg (sub_ne_zero.2 (Ne.symm hx)), WeierstrassCurve.Affine.Point.add_of_X_ne hx,
              if_neg (WeierstrassCurve.Affine.Point.some_ne_zero _)]
            simp only [encode_some, Option.bind_eq_bind, Option.bind_some, modMult_val, modSub_val,
              addY_eq, addX_eq, hslope]
            rw [mul_comm (x₁ - _)]

end Encoding

/-! ## Multiples -/

section Multiples

variable {E} {fuel : ℕ}

/-- The curve has finitely many points. -/
instance : Finite E.curve.Point := by
  refine Finite.of_injective (fun Q : E.curve.Point =>
    match Q with
    | .zero => (none : Option (ZMod E.p × ZMod E.p))
    | .some x y _ => some (x, y)) ?_
  intro Q R heq
  cases Q with
  | zero =>
      cases R with
      | zero => rfl
      | some x y h => simp at heq
  | some x y h =>
      cases R with
      | zero => simp at heq
      | some x' y' h' =>
          simp only [Option.some.injEq, Prod.mk.injEq] at heq
          obtain ⟨rfl, rfl⟩ := heq
          rfl

/-- **`c_mul`** is the one of the group, apart from the coordinates. -/
theorem cMul_encode (hfuel : 2 * E.p ≤ fuel) (Q : E.curve.Point) (n : ℕ) :
    E.cMul fuel (E.encode Q) n = (PartialAddition.multiple Q n).map E.encode := by
  have hrel : Option.Rel (fun P X => P = E.encode X) (E.cMul fuel (E.encode Q) n)
      (PartialAddition.multiple Q n) := by
    refine DoubleAndAdd.ladder_rel ?_ ?_ n.size _ _ rfl
    · rintro _ X rfl
      rw [cDblAffine_encode hfuel, PartialAddition.double]
      exact .some (by split_ifs <;> rfl)
    · rintro _ X rfl
      rw [cAddAffine_encode hfuel, PartialAddition.add, PartialAddition.double]
      split_ifs
      · exact .some rfl
      · exact .some rfl
      · exact .none
      · exact .some rfl
  cases hmultiple : PartialAddition.multiple Q n with
  | none =>
      rw [hmultiple] at hrel
      cases hrun : E.cMul fuel (E.encode Q) n with
      | none => rfl
      | some P => rw [hrun] at hrel; cases hrel
  | some X =>
      rw [hmultiple] at hrel
      cases hrun : E.cMul fuel (E.encode Q) n with
      | none => rw [hrun] at hrel; cases hrel
      | some P =>
          rw [hrun] at hrel
          cases hrel with
          | some heq => rw [heq, Option.map_some]

variable (E) in
/-- What is expected of `c_add_affine`, whatever was in `P0`: it ends with the sum. -/
def AddRight (P0 : Point) (Q R : E.curve.Point) : Prop :=
  ∃ enough, ∀ fuel, enough ≤ fuel →
    E.cAddAffine fuel P0 (E.encode Q) (E.encode R) = some (E.encode (Q + R))

variable (E) in
/-- What is expected of `c_mul`: it ends with the multiple. -/
def MulRight (Q : E.curve.Point) (n : ℕ) : Prop :=
  ∃ enough, ∀ fuel, enough ≤ fuel → E.cMul fuel (E.encode Q) n = some (E.encode (n • Q))

/-- What holds from some number of steps on holds with enough of them for every
division. -/
theorem forall_enough_iff {run : ℕ → Option Point} {result : Option Point} {P : Point}
    (hrun : ∀ fuel, 2 * E.p ≤ fuel → run fuel = result) :
    (∃ enough, ∀ fuel, enough ≤ fuel → run fuel = some P) ↔ result = some P := by
  constructor
  · rintro ⟨enough, hright⟩
    rw [← hrun (max enough (2 * E.p)) (le_max_right _ _), hright _ (le_max_left _ _)]
  · intro hresult
    exact ⟨2 * E.p, fun fuel hfuel => (hrun fuel hfuel).trans hresult⟩

theorem addRight_iff (P0 : Point) (Q R : E.curve.Point) :
    E.AddRight P0 Q R ↔ Q + R ≠ 0 ∨ (Q = R ∧ P0 = ⟨0, 0⟩) := by
  unfold AddRight
  rw [forall_enough_iff fun fuel hfuel => cAddAffine_encode hfuel P0 Q R]
  by_cases hsame : Q = R
  · subst hsame
    by_cases hzero : Q + Q = 0
    · simp [hzero]
    · simp [hzero]
  · by_cases hzero : Q + R = 0
    · simp [hsame, hzero]
    · simp [hsame, hzero]

theorem mulRight_iff (Q : E.curve.Point) (n : ℕ) :
    E.MulRight Q n ↔ PartialAddition.MultipleRight (addOrderOf Q) n := by
  unfold MulRight
  rw [forall_enough_iff fun fuel hfuel => cMul_encode hfuel Q n,
    ← PartialAddition.multiple_eq_iff (isOfFinAddOrder_of_finite Q) n, ← Option.map_some,
    (Option.map_injective encode_injective).eq_iff]

end Multiples

/-- **Sums and multiples on the curve.**  `c_add_affine` is right unless the sum
is infinity, and then only for a point added to itself into infinity.  Whether
`c_mul` is right depends on the order of the point and on the factor. -/
theorem add_mul_right_iff :
    (∀ (P0 : Point) (Q R : E.curve.Point),
      E.AddRight P0 Q R ↔ Q + R ≠ 0 ∨ (Q = R ∧ P0 = ⟨0, 0⟩)) ∧
    ∀ (Q : E.curve.Point) (n : ℕ),
      E.MulRight Q n ↔ PartialAddition.MultipleRight (addOrderOf Q) n :=
  ⟨addRight_iff, mulRight_iff⟩

/-- A curve over the field of 23 numbers. -/
def small : Params where
  bits := 136
  p := 23
  a := 1
  b := 1
  prime := by norm_num
  odd := by decide
  bits_le := by norm_num
  a_lt := by decide
  b_lt := by decide
  b_ne_zero := by decide

theorem small_nonsingular : small.curve.Nonsingular (3 : ZMod small.p) (10 : ZMod small.p) := by
  rw [WeierstrassCurve.Affine.nonsingular_iff, WeierstrassCurve.Affine.equation_iff]
  decide

/-- **Opposite points** of that curve are not added. -/
theorem small_opposite_stuck :
    ∃ Q : small.curve.Point, small.encode Q = ⟨3, 10⟩ ∧ small.encode (-Q) = ⟨3, 13⟩ ∧
      ¬ small.AddRight ⟨0, 0⟩ Q (-Q) := by
  have hneg : small.encode (-.some _ _ small_nonsingular) = ⟨3, 13⟩ := by
    rw [WeierstrassCurve.Affine.Point.neg_some]
    decide
  refine ⟨.some _ _ small_nonsingular, rfl, hneg, ?_⟩
  rw [addRight_iff, add_neg_cancel]
  rintro (hzero | ⟨hsame, -⟩)
  · exact hzero rfl
  · rw [← hsame] at hneg
    revert hneg
    decide

end Params

example : Params.small.cAddAffine 46 ⟨0, 0⟩ ⟨3, 10⟩ ⟨9, 7⟩ = some ⟨17, 20⟩ := by
  decide

end Wiselib.Crypto.AffineCurve
