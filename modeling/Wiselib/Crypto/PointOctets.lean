import Wiselib.Crypto.AffineCurve
import Wiselib.Crypto.EcdsaFp
import Wiselib.Crypto.ModSqrRoot
import Wiselib.Crypto.Octets

/-!
# Octets of points

`point2octet` and `octet2point` of `crypto/eccfp.h`.  The compressed form of a
point has its first coordinate and the parity of the second one.

## Strategy

* The uncompressed form is that of two numbers, which are decoded as they were
  encoded (`octet2point_uncompressed`).
* For the compressed form `ModSqrRootOpt` finds one of the two roots, the same
  for both points with that first coordinate.  Which one it is does not depend
  on its parity but on powers of the root (`Found`, `found_iff`).
* `octet2point` negates what was found for every odd second coordinate and for
  no even one, so the point comes back if the parity agrees with what is found
  (`octet2point_compressed`).
* For a modulus of one modulo eight there is no root: the second coordinate is
  what the point held before (`octet2point_mod_eight_one`).
-/

namespace Wiselib.Crypto

open AffineCurve Digits

/-- What `ECCFP` is compiled for, and its curve. -/
structure Eccfp where
  processor : Processor
  keyBitLen : ℕ
  param : Params
  keyBitLen_eq : keyBitLen = 128 ∨ keyBitLen = 160 ∨ keyBitLen = 192
  bits_eq : param.bits = processor.numWords keyBitLen * processor.digitBits
  p_lt : param.p < 2 ^ keyBitLen

namespace Eccfp

variable (E : Eccfp)

/-- `KEYDIGITS`. -/
def keyDigits : ℕ := E.keyBitLen / E.processor.digitBits

/-- `NUMWORDS`. -/
def numWords : ℕ := E.processor.numWords E.keyBitLen

/-- `KEYDIGITS*NN_DIGIT_LEN`. -/
def keyLen : ℕ := E.keyDigits * E.processor.digitLen

/-- `Encode` of the `KEYDIGITS` digits of a number. -/
def encodeNumber (x : ℕ) : List Octet :=
  Digits.encode E.keyLen (digitsOf E.processor.digitBits E.keyDigits x)

/-- `Decode` of the number at an address. -/
def decodeNumber (octet : Memory 8) (address : ℕ) : ℕ :=
  value (decode E.processor.digitBits E.numWords (read octet address E.keyLen))

/-- `point2octet`: what it returns, and the octets afterwards. -/
def point2octet (octet : Memory 8) (octetLen : ℕ) (P : Point) (compress : Bool) :
    ℤ × Memory 8 :=
  if compress then
    if octetLen < E.keyLen + 1 then (-1, octet)
    else
      let octet := write octet 0 [if P.y % 2 = 0 then 0x02 else 0x03]
      (int8 (E.keyLen + 1), write octet 1 (E.encodeNumber P.x))
  else
    if octetLen < 2 * E.keyLen + 1 then (-1, octet)
    else
      let octet := write octet 0 [0x04]
      let octet := write octet 1 (E.encodeNumber P.x)
      (int8 (2 * E.keyLen + 1), write octet (1 + E.keyLen) (E.encodeNumber P.y))

/-- The right side of the equation of the curve, as `octet2point` computes it. -/
def rightSide (x : ℕ) : ℕ :=
  let p := E.param.p
  let alpha := modMult x x p
  let alpha := modMult alpha x p
  let tmp := modMult E.param.a x p
  let tmp := modAdd E.param.bits tmp alpha p
  modAdd E.param.bits tmp E.param.b p

/-- `octet2point` into `P`: what it returns, and the point afterwards. -/
def octet2point (fuel : ℕ) (P : Point) (octet : Memory 8) : Option (ℤ × Point) :=
  if octet 0 = 0 then some (-1, ⟨0, 0⟩)
  else if octet 0 = 4 then
    some (int8 (2 * E.keyLen + 1),
      ⟨E.decodeNumber octet 1, E.decodeNumber octet (1 + E.keyLen)⟩)
  else if octet 0 = 2 ∨ octet 0 = 3 then do
    let x := E.decodeNumber octet 1
    let (_, y) ← modSqrRootOpt E.param.bits E.processor.digitBits fuel P.y (E.rightSide x) E.param.p
    let y := if octet 0 = 3 then modSub E.param.bits E.param.p y E.param.p else y
    some (int8 (E.keyLen + 1), ⟨x, y⟩)
  else some (-1, P)

/-! ## Numbers -/

section Numbers

variable {E}

theorem digitBits_dvd : 8 ∣ E.processor.digitBits := by
  cases E.processor <;> decide

theorem keyLen_eq : E.keyLen = E.keyBitLen / 8 := by
  unfold keyLen keyDigits Processor.digitLen
  rcases E.keyBitLen_eq with h | h | h <;> rw [h] <;> cases E.processor <;> rfl

theorem keyLen_le : E.keyLen ≤ 24 := by
  rw [keyLen_eq]
  rcases E.keyBitLen_eq with h | h | h <;> rw [h] <;> decide

theorem digits_pow : (2 ^ E.processor.digitBits) ^ E.keyDigits = 2 ^ E.keyBitLen := by
  rw [← pow_mul, keyDigits]
  congr 1
  rcases E.keyBitLen_eq with h | h | h <;> rw [h] <;> cases E.processor <;> rfl

@[simp] theorem length_encodeNumber (x : ℕ) : (E.encodeNumber x).length = E.keyLen :=
  length_encode _ _

theorem read_write_self (octet : Memory 8) (address n : ℕ) {ds : List Octet}
    (hlength : ds.length = n) : read (write octet address ds) address n = ds := by
  rw [read_write octet hlength.le, hlength, Nat.sub_self]
  exact List.append_nil _

/-- **A number is decoded** as it was encoded. -/
theorem decodeNumber_write (octet : Memory 8) (address : ℕ) {x : ℕ} (hx : x < E.param.p) :
    E.decodeNumber (write octet address (E.encodeNumber x)) address = x := by
  rw [decodeNumber, read_write_self _ _ _ (length_encodeNumber x)]
  refine value_decode_encode digitBits_dvd (Nat.le_succ _) ?_
  rw [digits_pow]
  exact hx.trans E.p_lt

theorem rightSide_val (x : ZMod E.param.p) :
    E.rightSide x.val = (x ^ 3 + E.param.a * x + E.param.b).val := by
  have ha : E.param.a = (E.param.a : ZMod E.param.p).val := (ZMod.val_cast_of_lt E.param.a_lt).symm
  have hb : E.param.b = (E.param.b : ZMod E.param.p).val := (ZMod.val_cast_of_lt E.param.b_lt).symm
  unfold rightSide
  dsimp only
  rw [ha, hb]
  simp only [Params.modMult_val, Params.modAdd_val, ZMod.natCast_zmod_val]
  congr 1
  ring

end Numbers

/-! ## Roots -/

section Roots

variable {p : ℕ} [Fact p.Prime]

/-- The number by which the root of `y²` that is found is `y` times it. -/
def rootFactor (y : ZMod p) : ZMod p :=
  if p % 4 = 3 then y ^ (p / 2)
  else y ^ (p / 4) * 2 ^ (p / 8) * (2 ^ (p / 4) * y ^ (p / 2) - 1)

/-- Whether the root of `y²` that is found is `y`. -/
def Found (y : ZMod p) : Prop :=
  y = 0 ∨ if p % 4 = 3 then IsSquare y
    else y ^ (p / 4) * 2 ^ (p / 8) * (2 ^ (p / 4) * y ^ (p / 2) - 1) = 1

theorem found_iff (y : ZMod p) : Found y ↔ y * rootFactor y = y := by
  unfold Found rootFactor
  by_cases hy : y = 0
  · simp [hy]
  · have hcancel : ∀ c : ZMod p, y * c = y ↔ c = 1 := fun c => by
      rw [mul_eq_left₀ hy]
    rw [or_iff_right hy, hcancel]
    split_ifs
    · exact ZMod.euler_criterion p hy
    · exact Iff.rfl

theorem mul_rootFactor_sq (hp : p % 8 ≠ 1) (hodd : p % 2 = 1) (y : ZMod p) :
    (y * rootFactor y) ^ 2 = y ^ 2 := by
  unfold rootFactor
  by_cases hthree : p % 4 = 3
  · have hroot := root_of_mod_four hthree (IsSquare.sq y)
    have hpower : 2 * (p / 4 + 1) = 1 + p / 2 := by omega
    rw [← pow_mul, hpower, pow_add, pow_one] at hroot
    rw [if_pos hthree, pow_two]
    exact hroot
  · have hroot := root_of_mod_eight (by omega : p % 8 = 5) (IsSquare.sq y)
    have hquarter : p / 4 = 2 * (p / 8) + 1 := by omega
    have hhalf : p / 2 = 4 * (p / 8) + 2 := by omega
    rw [if_neg hthree, hquarter, hhalf, ← hroot]
    ring

theorem mul_rootFactor_eq (hp : p % 8 ≠ 1) (hodd : p % 2 = 1) (y : ZMod p) :
    y * rootFactor y = y ∨ y * rootFactor y = -y :=
  sq_eq_sq_iff_eq_or_eq_neg.1 (mul_rootFactor_sq hp hodd y)

end Roots

section SquareRoots

variable {E} {fuel a : ℕ}

/-- **The root** that is found for a square. -/
theorem modSqrRootOpt_square (hp : E.param.p % 8 ≠ 1) (y : ZMod E.param.p) :
    modSqrRootOpt E.param.bits E.processor.digitBits fuel a (y ^ 2).val E.param.p =
      some (1, (y * rootFactor y).val) := by
  have hodd : E.param.p % 2 = 1 := E.param.prime.mod_two_eq_one_iff_ne_two.2 E.param.odd
  have hlt := @Params.p_lt E.param
  unfold modSqrRootOpt rootFactor
  by_cases hthree : E.param.p % 4 = 3
  · rw [if_pos hthree, if_pos hthree, Nat.mod_eq_of_lt (by omega)]
    congr 2
    refine Params.eq_val (modExp_lt E.param.prime.one_lt) ?_
    have hpower : 2 * (E.param.p / 4 + 1) = 1 + E.param.p / 2 := by omega
    rw [cast_modExp, ZMod.natCast_zmod_val, ← pow_mul, hpower, pow_add, pow_one]
  · have hfive : E.param.p % 8 = 5 := by omega
    have hquarter : E.param.p / 4 = 2 * (E.param.p / 8) + 1 := by omega
    have hhalf : E.param.p / 2 = 4 * (E.param.p / 8) + 2 := by omega
    rw [if_neg hthree, if_pos hfive, if_neg hthree]
    congr 2
    refine Params.eq_val (Nat.mod_lt _ E.param.prime.pos) ?_
    rw [cast_rootModEight E.param.prime.pos E.param.bits_le (ZMod.val_lt _),
      ZMod.natCast_zmod_val, hquarter, hhalf]
    ring

theorem modSub_p (y : ZMod E.param.p) {x : ℕ} (hx : x ≤ E.param.p) (hy : y ≠ 0) :
    modSub E.param.bits E.param.p x E.param.p = y.val ↔ x = (-y).val := by
  have := NeZero.mk hy
  have hval := y.val_lt
  rw [modSub, if_neg (not_lt.2 hx), ZMod.val_neg_of_ne_zero]
  omega

end SquareRoots

/-! ## Round trips -/

/-- The number of octets of a point. -/
def octetCount (compress : Bool) : ℕ :=
  if compress then E.keyLen + 1 else 2 * E.keyLen + 1

/-- What is expected of the octets of a point that are read into `P0`. -/
def RoundTrip (P0 : Point) (octet : Memory 8) (octetLen : ℕ) (compress : Bool)
    (Q : E.param.curve.Point) : Prop :=
  ∃ enough, ∀ fuel, enough ≤ fuel →
    E.octet2point fuel P0 (E.point2octet octet octetLen (E.param.encode Q) compress).2 =
      some ((E.octetCount compress : ℤ), E.param.encode Q)

/-- The points `P` that are read back into `P0` from their compressed form. -/
def Decodable (P0 P : Point) : Prop :=
  let p := E.param.p
  if p % 8 = 1 then
    2 ^ 128 ≤ (p + 1) / 2 ∧ P.y ^ 2 % p ≠ 1 ∧
      if P.y % 2 = 0 then P0.y = P.y else P0.y + P.y = p ∨ P0.y + P.y = 2 * p
  else Found (P.y : ZMod p) ↔ P.y % 2 = 0

section RoundTrips

variable {E} {octet : Memory 8} {octetLen fuel : ℕ}

theorem int8_octetCount (compress : Bool) :
    int8 (E.octetCount compress) = E.octetCount compress := by
  have hle := @keyLen_le E
  unfold octetCount
  exact int8_of_fits (by omega) (by split <;> omega)

theorem write_before (octet : Memory 8) {address k : ℕ} (ds : List Octet) (hk : k < address) :
    write octet address ds k = octet k :=
  write_outside octet (.inl hk)

/-- **The uncompressed form** is read back. -/
theorem octet2point_uncompressed (hlen : E.octetCount false ≤ octetLen) (P0 : Point)
    {x y : ℕ} (hx : x < E.param.p) (hy : y < E.param.p) :
    E.octet2point fuel P0 (E.point2octet octet octetLen ⟨x, y⟩ false).2 =
      some ((E.octetCount false : ℤ), ⟨x, y⟩) := by
  have hroom : ¬ octetLen < 2 * E.keyLen + 1 := not_lt.2 hlen
  have hfirst : (E.point2octet octet octetLen ⟨x, y⟩ false).2 0 = 4 := by
    simp only [point2octet, Bool.false_eq_true, if_false, if_neg hroom]
    rw [write_before _ _ (by omega), write_before _ _ one_pos]
    rfl
  have hxread : E.decodeNumber (E.point2octet octet octetLen ⟨x, y⟩ false).2 1 = x := by
    simp only [point2octet, Bool.false_eq_true, if_false, if_neg hroom]
    rw [decodeNumber, read_write_of_disjoint _ (by intros; omega)]
    exact decodeNumber_write _ _ hx
  have hyread :
      E.decodeNumber (E.point2octet octet octetLen ⟨x, y⟩ false).2 (1 + E.keyLen) = y := by
    simp only [point2octet, Bool.false_eq_true, if_false, if_neg hroom]
    exact decodeNumber_write _ _ hy
  have hcount := @int8_octetCount E false
  rw [octet2point, hfirst, hxread, hyread, if_neg (by decide), if_pos rfl, ← hcount]
  simp [octetCount]

/-- **The compressed form** is read back with a root, negated for an odd second
coordinate. -/
theorem octet2point_compressed (hlen : E.octetCount true ≤ octetLen) (P0 : Point)
    {x y : ℕ} (hx : x < E.param.p) :
    E.octet2point fuel P0 (E.point2octet octet octetLen ⟨x, y⟩ true).2 =
      (modSqrRootOpt E.param.bits E.processor.digitBits fuel P0.y (E.rightSide x) E.param.p).map
        fun root => ((E.octetCount true : ℤ),
          ⟨x, if y % 2 = 0 then root.2 else modSub E.param.bits E.param.p root.2 E.param.p⟩) := by
  have hroom : ¬ octetLen < E.keyLen + 1 := not_lt.2 hlen
  have hfirst : (E.point2octet octet octetLen ⟨x, y⟩ true).2 0 =
      if y % 2 = 0 then 2 else 3 := by
    simp only [point2octet, if_true, if_neg hroom]
    rw [write_before _ _ one_pos]
    rfl
  have hxread : E.decodeNumber (E.point2octet octet octetLen ⟨x, y⟩ true).2 1 = x := by
    simp only [point2octet, if_true, if_neg hroom]
    exact decodeNumber_write _ _ hx
  have hcount := @int8_octetCount E true
  rw [octet2point, hxread, ← hcount]
  rcases Nat.mod_two_eq_zero_or_one y with heven | hodd
  · rw [if_pos heven] at hfirst
    rw [hfirst, if_neg (by decide), if_neg (by decide), if_pos (by decide)]
    cases hroot : modSqrRootOpt E.param.bits E.processor.digitBits fuel P0.y (E.rightSide x)
        E.param.p with
    | none => simp [hroot]
    | some root => simp [hroot, octetCount, heven]
  · rw [if_neg (by omega)] at hfirst
    rw [hfirst, if_neg (by decide), if_neg (by decide), if_pos (by decide)]
    cases hroot : modSqrRootOpt E.param.bits E.processor.digitBits fuel P0.y (E.rightSide x)
        E.param.p with
    | none => simp [hroot]
    | some root => simp [hroot, octetCount, hodd]

/-- With a root that does not depend on the number of steps, the point comes back if it is
the second coordinate, or the opposite one for an odd coordinate. -/
theorem roundTrip_of_root (hlen : E.octetCount true ≤ octetLen) {P0 : Point} {result : ℤ}
    {root steps : ℕ} {x y : ZMod E.param.p} (h : E.param.curve.Nonsingular x y)
    (hroot : ∀ fuel, steps ≤ fuel → modSqrRootOpt E.param.bits E.processor.digitBits fuel P0.y
      (y ^ 2).val E.param.p = some (result, root)) :
    E.RoundTrip P0 octet octetLen true (.some x y h) ↔
      (if y.val % 2 = 0 then root else modSub E.param.bits E.param.p root E.param.p) = y.val := by
  have hside : E.rightSide x.val = (y ^ 2).val := by
    rw [rightSide_val, (Params.equation_iff x y).1 h.1]
  have hrun : ∀ fuel, steps ≤ fuel →
      E.octet2point fuel P0
        (E.point2octet octet octetLen (E.param.encode (.some x y h)) true).2 =
      some ((E.octetCount true : ℤ),
        ⟨x.val, if y.val % 2 = 0 then root
          else modSub E.param.bits E.param.p root E.param.p⟩) := by
    intro fuel hfuel
    rw [Params.encode_some, octet2point_compressed hlen _ x.val_lt, hside, hroot fuel hfuel]
    rfl
  constructor
  · rintro ⟨enough, hright⟩
    have heq := hright (max enough steps) (le_max_left _ _)
    rw [hrun _ (le_max_right _ _), Params.encode_some] at heq
    injection heq with hpair
    injection hpair with _ hpoint
    injection hpoint
  · intro hy
    refine ⟨steps, fun fuel hfuel => ?_⟩
    rw [hrun fuel hfuel, hy, Params.encode_some]

theorem roundTrip_of_mod_eight (hp : E.param.p % 8 ≠ 1) (hlen : E.octetCount true ≤ octetLen)
    (P0 : Point) {x y : ZMod E.param.p} (h : E.param.curve.Nonsingular x y) :
    E.RoundTrip P0 octet octetLen true (.some x y h) ↔ (Found y ↔ y.val % 2 = 0) := by
  have hodd : E.param.p % 2 = 1 := E.param.prime.mod_two_eq_one_iff_ne_two.2 E.param.odd
  rw [@roundTrip_of_root _ _ _ hlen _ _ _ 0 _ _ h fun fuel _ => modSqrRootOpt_square hp y,
    found_iff]
  rcases Nat.mod_two_eq_zero_or_one y.val with heven | hyodd
  · rw [if_pos heven, (ZMod.val_injective _).eq_iff, iff_true_right heven]
  · have hy : y ≠ 0 := by
      rintro rfl
      simp at hyodd
    have hnot : ¬ y.val % 2 = 0 := by omega
    rw [if_neg hnot, iff_false_right hnot, modSub_p _ (ZMod.val_lt _).le hy,
      (ZMod.val_injective _).eq_iff]
    have hne : y ≠ -y := fun heq => by
      have htwice : 2 * y = 0 := by linear_combination heq
      exact hy ((mul_eq_zero.1 htwice).resolve_left Params.two_ne_zero)
    rcases mul_rootFactor_eq hp hodd y with heq | heq
    · rw [heq]
      exact iff_of_false hne fun hright => hright rfl
    · rw [heq]
      exact iff_of_true rfl hne.symm

theorem counter_neg_iff :
    lucasCounter ((E.param.p + 1) / 2) < 0 ↔ 2 ^ 128 ≤ (E.param.p + 1) / 2 := by
  have hlarge := E.param.prime.two_le
  have hsize : ((E.param.p + 1) / 2).size ≤ 192 := by
    have hkey : 2 ^ E.keyBitLen ≤ 2 ^ 192 := by
      refine Nat.pow_le_pow_right two_pos ?_
      rcases E.keyBitLen_eq with h | h | h <;> omega
    have hlt := E.p_lt
    exact Nat.size_le.2 (by omega)
  have hpos : 0 < ((E.param.p + 1) / 2).size := Nat.size_pos.2 (by omega)
  have hlong := @Nat.lt_size 128 ((E.param.p + 1) / 2)
  rw [lucasCounter_neg (by omega), ← hlong, Nat.mod_eq_of_lt (by omega)]
  omega

theorem roundTrip_of_mod_eight_eq_one (hp : E.param.p % 8 = 1)
    (hlen : E.octetCount true ≤ octetLen) {P0 : Point} (hP0 : P0.y < 2 ^ E.param.bits)
    {x y : ZMod E.param.p} (h : E.param.curve.Nonsingular x y) :
    E.RoundTrip P0 octet octetLen true (.some x y h) ↔
      2 ^ 128 ≤ (E.param.p + 1) / 2 ∧ y.val ^ 2 % E.param.p ≠ 1 ∧
        if y.val % 2 = 0 then P0.y = y.val
        else P0.y + y.val = E.param.p ∨ P0.y + y.val = 2 * E.param.p := by
  have hlarge := E.param.prime.one_lt
  have hle := E.param.bits_le
  have hval := y.val_lt
  have hsquare : (y ^ 2).val = y.val ^ 2 % E.param.p := by rw [pow_two, ZMod.val_mul, pow_two]
  have hrun : ∀ fuel, modSqrRootOpt E.param.bits E.processor.digitBits fuel P0.y (y ^ 2).val
      E.param.p = rootSearch E.param.bits E.processor.digitBits fuel P0.y (y ^ 2).val E.param.p
        ((E.param.p + 1) / 2) fuel 1 := fun fuel => by
    rw [modSqrRootOpt, if_neg (by omega), if_neg (by omega), if_pos hp,
      Nat.mod_eq_of_lt (by omega : E.param.p + 1 < 2 ^ E.param.bits)]
  rcases lt_or_ge (lucasCounter ((E.param.p + 1) / 2)) 0 with hneg | hnonneg
  · rw [and_iff_right (counter_neg_iff.1 hneg), ← hsquare]
    by_cases hone : (y ^ 2).val = 1
    · -- the root is one, but the parity stands for the other root
      rw [@roundTrip_of_root _ _ _ hlen _ 1 1 1 _ _ h fun fuel hfuel => by
        obtain ⟨fuel, rfl⟩ : ∃ n, fuel = n + 1 := ⟨fuel - 1, by omega⟩
        rw [hrun, rootSearch_succ hneg (Nat.succ_pos _) hlarge _ hlarge, if_pos hone.symm]]
      refine iff_of_false ?_ fun hright => hright.1 hone
      have hsub : modSub E.param.bits E.param.p 1 E.param.p = E.param.p - 1 :=
        if_neg (not_lt.2 hlarge.le)
      rw [hsub]
      split <;> omega
    · rw [and_iff_right hone, @roundTrip_of_root _ _ _ hlen _ (-1) P0.y (E.param.p + 1) _ _ h
        fun fuel hfuel => by
          rw [hrun]
          exact rootSearch_end hneg (by omega) hlarge hone (by omega) (by omega)]
      rcases Nat.mod_two_eq_zero_or_one y.val with heven | hodd
      · rw [if_pos heven, if_pos heven]
      · have hnot : ¬ y.val % 2 = 0 := by omega
        rw [if_neg hnot, if_neg hnot, modSub]
        split
        · rename_i hborrow
          by_cases hwrap : P0.y ≤ 2 * E.param.p
          · have hsplit : 2 ^ E.param.bits + E.param.p - P0.y + E.param.p =
                2 ^ E.param.bits + (2 * E.param.p - P0.y) := by omega
            rw [hsplit, Nat.add_mod_left, Nat.mod_eq_of_lt (by omega)]
            omega
          · rw [Nat.mod_eq_of_lt (by omega)]
            omega
        · omega
  · have hside : E.rightSide x.val = (y ^ 2).val := by
      rw [rightSide_val, (Params.equation_iff x y).1 h.1]
    refine iff_of_false ?_ fun hright => not_lt.2 hnonneg (counter_neg_iff.2 hright.1)
    rintro ⟨enough, hright⟩
    have heq := hright enough (le_refl _)
    rw [Params.encode_some, octet2point_compressed hlen _ x.val_lt, hside, hrun,
      rootSearch_none hnonneg hlarge] at heq
    exact Option.some_ne_none _ heq.symm

/-- **Points are read back from their octets**: always from the uncompressed form, and from
the compressed one where `ModSqrRootOpt` finds the root that the parity stands for. -/
theorem roundTrip_iff {P0 : Point} (hP0 : P0.y < 2 ^ E.param.bits) {Q : E.param.curve.Point}
    (hQ : Q ≠ 0) :
    (∀ octet octetLen, E.octetCount false ≤ octetLen → E.RoundTrip P0 octet octetLen false Q) ∧
    ∀ octet octetLen, E.octetCount true ≤ octetLen →
      (E.RoundTrip P0 octet octetLen true Q ↔ E.Decodable P0 (E.param.encode Q)) := by
  cases Q with
  | zero => exact absurd rfl hQ
  | some x y h =>
      refine ⟨fun octet octetLen hlen => ⟨0, fun fuel _ => ?_⟩, fun octet octetLen hlen => ?_⟩
      · exact octet2point_uncompressed hlen P0 x.val_lt y.val_lt
      · rw [Decodable, Params.encode_some]
        dsimp only
        rw [ZMod.natCast_zmod_val]
        split_ifs with hp heven
        · rw [roundTrip_of_mod_eight_eq_one hp hlen hP0, if_pos heven]
        · rw [roundTrip_of_mod_eight_eq_one hp hlen hP0, if_neg heven]
        · exact roundTrip_of_mod_eight hp hlen P0 h

end RoundTrips

/-- The small curve on a processor with octets as digits. -/
def small : Eccfp where
  processor := .eightBit
  keyBitLen := 128
  param := Params.small
  keyBitLen_eq := .inl rfl
  bits_eq := rfl
  p_lt := by norm_num [Params.small]

/-- A point of the small curve with its octets. -/
theorem roundTrip_iff_small :
    (∀ octet octetLen, small.octetCount false ≤ octetLen →
      small.RoundTrip ⟨0, 0⟩ octet octetLen false (.some _ _ Params.small_nonsingular)) ∧
    ∀ octet octetLen, small.octetCount true ≤ octetLen →
      (small.RoundTrip ⟨0, 0⟩ octet octetLen true (.some _ _ Params.small_nonsingular) ↔
        small.Decodable ⟨0, 0⟩ (small.param.encode (.some _ _ Params.small_nonsingular))) :=
  roundTrip_iff (Nat.two_pow_pos _) (WeierstrassCurve.Affine.Point.some_ne_zero _)

/-- **An even coordinate that is no square** is not read back: the root that is found is the
odd one. -/
theorem small_root_negated :
    ∃ Q : small.param.curve.Point, small.param.encode Q = ⟨3, 10⟩ ∧
      ¬ small.RoundTrip ⟨0, 0⟩ (fun _ => 0) 17 true Q := by
  refine ⟨.some _ _ Params.small_nonsingular, rfl, ?_⟩
  have hround := @roundTrip_of_mod_eight small (fun _ => 0) 17 (by decide) (by decide) ⟨0, 0⟩ _ _
    Params.small_nonsingular
  have hnotFound : ¬ Found (10 : ZMod small.param.p) := by
    rintro (hzero | hroot)
    · exact absurd hzero (by decide)
    · rw [if_pos (by decide)] at hroot
      exact absurd hroot (by decide)
  exact fun hright => hnotFound ((hround.1 hright).2 (by decide))

end Eccfp

example : (Eccfp.small.octet2point 46 ⟨0, 0⟩
    (Eccfp.small.point2octet (fun _ => 0) 17 ⟨3, 10⟩ true).2) = some (17, ⟨3, 13⟩) := by
  decide +kernel

end Wiselib.Crypto
