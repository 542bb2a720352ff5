import Wiselib.Library.DoubleAndAdd

/-!
# Arithmetic of the curve

Numbers are arrays of digits with a fixed number of bits altogether, and
`ModAdd` and `ModSub` reduce their result once, as both arguments are meant to
be reduced.  The points of the curve are a group, in which `c_add_affine` is
the addition and `ModNeg` of the second coordinate the negation.

`c_mul` doubles and adds along the bits of its factor.  It is the multiple of
the group (`cMul_eq`), and as the base point has order `r`, multiples of it only
depend on the factor modulo `r` (`Curve.smul_congr`).
-/

namespace Wiselib.Crypto

/-! ## Multi-precision numbers -/

section Numbers

variable (bits : ℕ)

/-- `ModAdd`.  The sum leaves a carry if it does not fit into the digits. -/
def modAdd (b c d : ℕ) : ℕ :=
  let tmp := (b + c) % 2 ^ bits
  if 2 ^ bits ≤ b + c then (tmp + 2 ^ bits - d) % 2 ^ bits
  else if d ≤ tmp then tmp - d
  else tmp

/-- `ModSub`.  A difference that borrows is taken modulo the size of the digits. -/
def modSub (b c d : ℕ) : ℕ :=
  if b < c then (2 ^ bits + b - c + d) % 2 ^ bits else b - c

/-- Twice a number, by `LShift`, `Cmp` and `Sub`. -/
def modTwice (b d : ℕ) : ℕ :=
  let t := 2 * b % 2 ^ bits
  if d ≤ t then t - d else t

/-- `ModMult`. -/
def modMult (b c d : ℕ) : ℕ :=
  b * c % d

variable {bits} {b c d : ℕ}

theorem modAdd_modEq (hb : b ≤ d) (hc : c < d) (hd : d < 2 ^ bits) :
    modAdd bits b c d ≡ b + c [MOD d] := by
  have hreduced : modAdd bits b c d = b + c ∨ modAdd bits b c d + d = b + c := by
    unfold modAdd
    by_cases hcarry : 2 ^ bits ≤ b + c
    · have htmp : (b + c) % 2 ^ bits = b + c - 2 ^ bits := by
        rw [Nat.mod_eq_sub_mod hcarry, Nat.mod_eq_of_lt (by omega)]
      have hsum : b + c - 2 ^ bits + 2 ^ bits - d < 2 ^ bits := by omega
      simp only [htmp, if_pos hcarry, Nat.mod_eq_of_lt hsum]
      omega
    · have htmp : (b + c) % 2 ^ bits = b + c := Nat.mod_eq_of_lt (by omega)
      simp only [htmp, if_neg hcarry]
      split
      · omega
      · exact .inl rfl
  rcases hreduced with heq | heq
  · rw [heq]
  · rw [← heq]
    exact (Nat.add_mod_right _ _).symm

/-- Taking a reduced number off and adding it again changes nothing modulo the
modulus. -/
theorem add_modSub_modEq (hc : c ≤ d) (hd : d < 2 ^ bits) :
    c + modSub bits b c d ≡ b [MOD d] := by
  unfold modSub
  split
  · rename_i hborrow
    have hdifference : (2 ^ bits + b - c + d) % 2 ^ bits = b + d - c := by
      have hsplit : 2 ^ bits + b - c + d = 2 ^ bits + (b + d - c) := by omega
      rw [hsplit, Nat.add_mod_left, Nat.mod_eq_of_lt (by omega)]
    have hback : c + (b + d - c) = b + d := by omega
    rw [hdifference, hback]
    exact Nat.add_mod_right b d
  · rename_i hborrow
    have hback : c + (b - c) = b := by omega
    rw [hback]

theorem modMult_modEq (b c d : ℕ) : modMult b c d ≡ b * c [MOD d] :=
  Nat.mod_modEq _ _

theorem cast_modSub (hc : c ≤ d) (hd : d < 2 ^ bits) : (modSub bits b c d : ZMod d) = b - c := by
  have hback := (ZMod.natCast_eq_natCast_iff _ _ _).2 (@add_modSub_modEq bits b c d hc hd)
  rw [Nat.cast_add] at hback
  rw [← hback]
  ring

theorem cast_modAdd (hb : b ≤ d) (hc : c < d) (hd : d < 2 ^ bits) :
    (modAdd bits b c d : ZMod d) = b + c := by
  rw [(ZMod.natCast_eq_natCast_iff _ _ _).2 (modAdd_modEq hb hc hd), Nat.cast_add]

theorem cast_modTwice (hd : 2 * d ≤ 2 ^ bits) (hb : b < d) :
    (modTwice bits b d : ZMod d) = 2 * b := by
  unfold modTwice
  rw [Nat.mod_eq_of_lt (by omega)]
  dsimp only
  split_ifs with hle
  · rw [Nat.cast_sub hle, ZMod.natCast_self, sub_zero, Nat.cast_mul, Nat.cast_ofNat]
  · rw [Nat.cast_mul, Nat.cast_ofNat]

theorem cast_modMult (b c d : ℕ) : (modMult b c d : ZMod d) = b * c := by
  rw [(ZMod.natCast_eq_natCast_iff _ _ _).2 (modMult_modEq b c d), Nat.cast_mul]

end Numbers

/-! ## Multiples of a point -/

section Multiples

variable {Point : Type*} [AddCommGroup Point]

/-- The loop of `c_mul` over the bits of `n` below the `i`-th, from the highest. -/
def cMulLoop (P1 : Point) (n : ℕ) : ℕ → Point → Point
  | 0, P0 => P0
  | i + 1, P0 =>
      let doubled := P0 + P0
      cMulLoop P1 n i (if n.testBit i then doubled + P1 else doubled)

/-- `c_mul`. -/
def cMul (P1 : Point) (n : ℕ) : Point :=
  cMulLoop P1 n n.size 0

theorem cMulLoop_eq (P1 : Point) (n : ℕ) (i : ℕ) :
    cMulLoop P1 n i ((n >>> i) • P1) = n • P1 := by
  induction i with
  | zero => simp [cMulLoop]
  | succ i ih =>
      have hdouble : (n >>> (i + 1)) • P1 + (n >>> (i + 1)) • P1 =
          (2 * (n >>> (i + 1))) • P1 := by
        rw [two_mul, add_nsmul]
      have hbit : (if n.testBit i then (2 * (n >>> (i + 1))) • P1 + P1
          else (2 * (n >>> (i + 1))) • P1) = (n >>> i) • P1 := by
        rw [DoubleAndAdd.shiftRight_eq_double n i]
        split
        · rw [add_nsmul, one_nsmul]
        · simp only [Nat.add_zero]
      simp only [cMulLoop]
      rw [hdouble, hbit, ih]

/-- **`c_mul` is the multiple of the group.** -/
@[simp] theorem cMul_eq (P1 : Point) (n : ℕ) : cMul P1 n = n • P1 := by
  calc cMul P1 n = cMulLoop P1 n n.size ((n >>> n.size) • P1) := by
        rw [DoubleAndAdd.shiftRight_size, zero_nsmul, cMul]
    _ = n • P1 := cMulLoop_eq P1 n n.size

end Multiples

/-! ## The curve -/

/-- The parameters of the curve and the generator of private keys.  A key is
reduced while it is larger than the order. -/
structure Curve (Point : Type*) [AddCommGroup Point] where
  bits : ℕ
  r : ℕ
  G : Point
  genPrivateKey : UInt8 → ℕ
  r_pos : 0 < r
  r_lt : r < 2 ^ bits
  smul_G : r • G = 0
  genPrivateKey_le : ∀ seed, genPrivateKey seed ≤ r

namespace Curve

variable {Point : Type*} [AddCommGroup Point] (curve : Curve Point)

/-- `gen_public_key`. -/
def genPublicKey (privateKey : ℕ) : Point :=
  cMul curve.G privateKey

@[simp] theorem genPublicKey_eq (privateKey : ℕ) :
    curve.genPublicKey privateKey = privateKey • curve.G :=
  cMul_eq _ _

theorem smul_congr {a b : ℕ} (hab : a ≡ b [MOD curve.r]) : a • curve.G = b • curve.G :=
  nsmul_eq_nsmul_iff_modEq.2 (hab.of_dvd (addOrderOf_dvd_iff_nsmul_eq_zero.2 curve.smul_G))

end Curve

end Wiselib.Crypto
