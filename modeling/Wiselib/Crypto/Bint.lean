import Wiselib.Crypto.Octets

/-!
# Bints

The array routines of `crypto/eccf2m.h`.  A bint is an array of `NUMWORDS`
octets from the highest on; `number` is the number with its bits.

## Strategy

The routines are written as recursions over octets, and one lemma for each says
what they do to the number: `bXor`, `bShiftleft`, `bBitlength` and `bCompareto`
are the exclusive or, the shift, the size and the comparison of numbers, and
flipping bits of an octet is an exclusive or with a shifted octet
(`number_xorOctet`).  The routines for shifts by one and by two have bodies of
their own and do the same as the general one.

Where the source goes over an array by words of two octets, the model goes over
the octets.
-/

namespace Wiselib.Crypto

open Digits (Octet)

/-! ## Octets -/

namespace Octets

/-- The number of octets from the highest on. -/
def number : List Octet → ℕ
  | [] => 0
  | x :: xs => 2 ^ (8 * xs.length) * x.toNat + number xs

/-- The loop of `b_compareto`. -/
def compareto : List Octet → List Octet → ℤ
  | x :: xs, y :: ys => if x = y then compareto xs ys else if y < x then 1 else -1
  | _, _ => 0

/-- The bits of an octet, by halves. -/
def octetBits (x : Octet) : ℕ :=
  let n := 8
  let y := x >>> 4
  let (n, x) := if y ≠ 0 then (n - 4, y) else (n, x)
  let y := x >>> 2
  let (n, x) := if y ≠ 0 then (n - 2, y) else (n, x)
  let y := x >>> 1
  if y ≠ 0 then 8 - (n - 2) else 8 - (n - x.toNat)

/-- The loop of `b_bitlength`. -/
def bitlength : List Octet → ℕ
  | [] => 0
  | x :: xs => if x ≠ 0 then xs.length * 8 + octetBits x else bitlength xs

/-- The loop of `b_shiftleft` over the bits within octets. -/
def shiftBits (bits : ℕ) : List Octet → List Octet
  | x :: y :: rest => (x <<< bits ||| y >>> (8 - bits)) :: shiftBits bits (y :: rest)
  | [x] => [x <<< bits]
  | [] => []

/-- The loop of `b_shiftleft1`. -/
def shiftleft1 : List Octet → List Octet
  | x :: y :: rest =>
      (if y &&& 0x80 ≠ 0 then x <<< 1 ||| 0x01 else x <<< 1) :: shiftleft1 (y :: rest)
  | [x] => [x <<< 1]
  | [] => []

/-- The loop of `b_shiftleft2`. -/
def shiftleft2 : List Octet → List Octet
  | x :: y :: rest =>
      let x := x <<< 2
      let x := if y &&& 0x40 ≠ 0 then x ||| 0x01 else x
      let x := if y &&& 0x80 ≠ 0 then x ||| 0x02 else x
      x :: shiftleft2 (y :: rest)
  | [x] => [x <<< 2]
  | [] => []

/-- The octet that is the `k`-th from the last. -/
def octetAt (a : List Octet) (k : ℕ) : Octet :=
  a.getD (a.length - 1 - k) 0

/-- Flips bits of the octet that is the `k`-th from the last. -/
def xorOctet (a : List Octet) (k : ℕ) (x : Octet) : List Octet :=
  a.set (a.length - 1 - k) (octetAt a k ^^^ x)

/-! ## Numbers -/

section Numbers

variable {a b : List Octet}

theorem number_lt (a : List Octet) : number a < 2 ^ (8 * a.length) := by
  induction a with
  | nil => simp [number]
  | cons x xs ih =>
      have hx := x.isLt
      have hpow : 2 ^ (8 * (xs.length + 1)) = 2 ^ (8 * xs.length) * 2 ^ 8 := by rw [mul_add, pow_add]
      rw [number, List.length_cons, hpow]
      calc 2 ^ (8 * xs.length) * x.toNat + number xs
          < 2 ^ (8 * xs.length) * x.toNat + 2 ^ (8 * xs.length) := by omega
        _ = 2 ^ (8 * xs.length) * (x.toNat + 1) := by ring
        _ ≤ 2 ^ (8 * xs.length) * 2 ^ 8 := Nat.mul_le_mul_left _ hx

theorem number_replicate (n : ℕ) : number (List.replicate n 0) = 0 := by
  induction n with
  | zero => rfl
  | succ n ih => rw [List.replicate_succ, number, ih]; simp

theorem number_append (xs ys : List Octet) :
    number (xs ++ ys) = 2 ^ (8 * ys.length) * number xs + number ys := by
  induction xs with
  | nil => simp [number]
  | cons x xs ih =>
      rw [List.cons_append, number, number, ih, List.length_append, mul_add, pow_add]
      ring

theorem testBit_number_cons (x : Octet) (xs : List Octet) (i : ℕ) :
    (number (x :: xs)).testBit i =
      if i < 8 * xs.length then (number xs).testBit i else x.getLsbD (i - 8 * xs.length) := by
  rw [number, Nat.testBit_two_pow_mul_add _ (number_lt xs)]
  rfl

/-- **Exclusive or** of arrays. -/
theorem number_zipWith_xor (hlength : a.length = b.length) :
    number (List.zipWith (· ^^^ ·) a b) = number a ^^^ number b := by
  induction a generalizing b with
  | nil =>
      cases b with
      | nil => rfl
      | cons y ys => cases hlength
  | cons x xs ih =>
      cases b with
      | nil => cases hlength
      | cons y ys =>
          have htail : xs.length = ys.length := Nat.succ_injective hlength
          refine Nat.eq_of_testBit_eq fun i => ?_
          rw [List.zipWith_cons_cons, Nat.testBit_xor, testBit_number_cons, testBit_number_cons,
            testBit_number_cons, ih htail, List.length_zipWith, ← htail, Nat.min_self]
          split
          · exact Nat.testBit_xor ..
          · exact BitVec.getLsbD_xor

/-- **One octet** of the exclusive or. -/
theorem number_xorOctet {k : ℕ} (hk : k < a.length) (x : Octet) :
    number (xorOctet a k x) = number a ^^^ x.toNat <<< (8 * k) := by
  induction a with
  | nil => exact absurd hk (Nat.not_lt_zero k)
  | cons y ys ih =>
      refine Nat.eq_of_testBit_eq fun i => ?_
      rw [List.length_cons] at hk
      rcases Nat.lt_or_ge k ys.length with hlt | hge
      · have hindex : ys.length + 1 - 1 - k = ys.length - 1 - k + 1 := by omega
        have htail : xorOctet (y :: ys) k x = y :: xorOctet ys k x := by
          rw [xorOctet, octetAt, List.length_cons, hindex, List.set_cons_succ, List.getD_cons_succ]
          rfl
        have hshift : x.toNat <<< (8 * k) < 2 ^ (8 * ys.length) := by
          have hx := x.isLt
          calc x.toNat <<< (8 * k) = x.toNat * 2 ^ (8 * k) := Nat.shiftLeft_eq _ _
            _ < 2 ^ 8 * 2 ^ (8 * k) := Nat.mul_lt_mul_of_pos_right hx (Nat.two_pow_pos _)
            _ = 2 ^ (8 * (k + 1)) := by rw [← pow_add]; congr 1; ring
            _ ≤ 2 ^ (8 * ys.length) := Nat.pow_le_pow_right two_pos (by omega)
        rw [htail, Nat.testBit_xor, testBit_number_cons, testBit_number_cons, xorOctet,
          List.length_set, ← xorOctet, ih hlt, Nat.testBit_xor]
        split
        · rfl
        · rename_i hi
          have hhigh : (x.toNat <<< (8 * k)).testBit i = false :=
            Nat.testBit_lt_two_pow (hshift.trans_le (Nat.pow_le_pow_right two_pos (not_lt.1 hi)))
          rw [hhigh, Bool.xor_false]
      · obtain rfl : k = ys.length := by omega
        have hhead : xorOctet (y :: ys) ys.length x = (y ^^^ x) :: ys := by
          have hindex : ys.length + 1 - 1 - ys.length = 0 := by omega
          rw [xorOctet, octetAt, List.length_cons, hindex]
          rfl
        rw [hhead, Nat.testBit_xor, testBit_number_cons, testBit_number_cons, Nat.testBit_shiftLeft]
        split
        · rename_i hi
          rw [decide_eq_false (not_le.2 hi), Bool.false_and, Bool.xor_false]
        · rename_i hi
          rw [decide_eq_true (not_lt.1 hi), Bool.true_and]
          exact BitVec.getLsbD_xor

@[simp] theorem length_xorOctet (a : List Octet) (k : ℕ) (x : Octet) :
    (xorOctet a k x).length = a.length :=
  List.length_set

theorem testBit_number {k : ℕ} (hk : k < a.length) {i : ℕ} (hi : i < 8) :
    (number a).testBit (8 * k + i) = (octetAt a k).getLsbD i := by
  induction a with
  | nil => exact absurd hk (Nat.not_lt_zero k)
  | cons y ys ih =>
      rw [List.length_cons] at hk
      rw [testBit_number_cons, octetAt, List.length_cons]
      rcases Nat.lt_or_ge k ys.length with hlt | hge
      · have hindex : ys.length + 1 - 1 - k = ys.length - 1 - k + 1 := by omega
        rw [if_pos (by omega), ih hlt, hindex, List.getD_cons_succ]
        rfl
      · obtain rfl : k = ys.length := by omega
        have hindex : ys.length + 1 - 1 - ys.length = 0 := by omega
        rw [if_neg (by omega), hindex, List.getD_cons_zero, Nat.add_sub_cancel_left]

/-! ## Shifts -/

theorem carry_eq (y : Octet) (rest : List Octet) {s : ℕ} (hs : s ≤ 8) :
    number (y :: rest) * 2 ^ s / 2 ^ (8 * (y :: rest).length) = y.toNat / 2 ^ (8 - s) := by
  have hlt := number_lt rest
  have hpow : 2 ^ (8 * (y :: rest).length) = 2 ^ (8 * rest.length) * 2 ^ (8 - s) * 2 ^ s := by
    rw [List.length_cons, ← pow_add, ← pow_add]
    congr 1
    omega
  rw [hpow, Nat.mul_div_mul_right _ _ (Nat.two_pow_pos s), ← Nat.div_div_eq_div_mul, number,
    Nat.mul_add_div (Nat.two_pow_pos _), Nat.div_eq_of_lt hlt, Nat.add_zero]

theorem toNat_shift (x y : Octet) {s : ℕ} (hs : s ≤ 8) :
    (x <<< s ||| y >>> (8 - s)).toNat = (x.toNat * 2 ^ s + y.toNat / 2 ^ (8 - s)) % 2 ^ 8 := by
  have hy := y.isLt
  have hcarry : y.toNat / 2 ^ (8 - s) < 2 ^ s := by
    rw [Nat.div_lt_iff_lt_mul (Nat.two_pow_pos _), ← pow_add]
    rwa [Nat.add_sub_cancel' hs]
  have hpow : 2 ^ 8 = 2 ^ s * 2 ^ (8 - s) := by rw [← pow_add, Nat.add_sub_cancel' hs]
  have hlow : x.toNat * 2 ^ s % 2 ^ 8 = (x.toNat % 2 ^ (8 - s)) <<< s := by
    rw [hpow, mul_comm (2 ^ s), Nat.mul_mod_mul_right, Nat.shiftLeft_eq]
  have hmod : (x.toNat * 2 ^ s + y.toNat / 2 ^ (8 - s)) % 2 ^ 8 =
      (x.toNat % 2 ^ (8 - s)) <<< s + y.toNat / 2 ^ (8 - s) := by
    rw [Nat.add_mod, hlow, Nat.mod_eq_of_lt (hcarry.trans_le (Nat.pow_le_pow_right two_pos hs)),
      Nat.mod_eq_of_lt]
    have hx := Nat.mod_lt x.toNat (Nat.two_pow_pos (8 - s))
    rw [Nat.shiftLeft_eq, hpow]
    calc x.toNat % 2 ^ (8 - s) * 2 ^ s + y.toNat / 2 ^ (8 - s)
        < x.toNat % 2 ^ (8 - s) * 2 ^ s + 2 ^ s := by omega
      _ = (x.toNat % 2 ^ (8 - s) + 1) * 2 ^ s := by ring
      _ ≤ 2 ^ (8 - s) * 2 ^ s := Nat.mul_le_mul_right _ hx
      _ = 2 ^ s * 2 ^ (8 - s) := mul_comm _ _
  rw [hmod, BitVec.toNat_or, BitVec.toNat_shiftLeft, BitVec.toNat_ushiftRight, Nat.shiftLeft_eq,
    hlow, Nat.shiftRight_eq_div_pow, Nat.shiftLeft_add_eq_or_of_lt hcarry]

@[simp] theorem length_shiftBits (s : ℕ) (a : List Octet) :
    (shiftBits s a).length = a.length := by
  induction a with
  | nil => rfl
  | cons x xs ih =>
      cases xs with
      | nil => rfl
      | cons y rest =>
          rw [shiftBits]
          exact congrArg (· + 1) ih

/-- **The shift within octets** is that of the number. -/
theorem number_shiftBits {s : ℕ} (hs : s ≤ 8) (a : List Octet) :
    number (shiftBits s a) = number a * 2 ^ s % 2 ^ (8 * a.length) := by
  induction a with
  | nil => simp [shiftBits, number, Nat.mod_one]
  | cons x xs ih =>
      cases xs with
      | nil => simp [shiftBits, number, Nat.shiftLeft_eq]
      | cons y rest =>
          have hpow : 2 ^ (8 * (x :: y :: rest).length) =
              2 ^ (8 * (y :: rest).length) * 2 ^ 8 := by
            rw [List.length_cons, mul_add, pow_add]
          have hsplit : number (x :: y :: rest) * 2 ^ s =
              number (y :: rest) * 2 ^ s + 2 ^ (8 * (y :: rest).length) * (x.toNat * 2 ^ s) := by
            rw [number]
            ring
          rw [shiftBits, number, length_shiftBits, ih, hpow, Nat.mod_mul, hsplit,
            Nat.add_mul_mod_self_left, Nat.add_mul_div_left _ _ (Nat.two_pow_pos _),
            carry_eq y rest hs, toNat_shift x y hs, Nat.add_comm (y.toNat / _), Nat.add_comm]

theorem shiftleft1_eq (a : List Octet) : shiftleft1 a = shiftBits 1 a := by
  have hbit : ∀ y : Octet, (if y &&& 0x80 ≠ 0 then (0x01 : Octet) else 0) = y >>> 7 := by decide
  induction a with
  | nil => rfl
  | cons x xs ih =>
      cases xs with
      | nil => rfl
      | cons y rest =>
          rw [shiftleft1, shiftBits, ih, ← hbit]
          split <;> simp

theorem shiftleft2_eq (a : List Octet) : shiftleft2 a = shiftBits 2 a := by
  have hbits : ∀ y : Octet, (if y &&& 0x40 ≠ 0 then (0x01 : Octet) else 0) |||
      (if y &&& 0x80 ≠ 0 then 0x02 else 0) = y >>> 6 := by decide
  induction a with
  | nil => rfl
  | cons x xs ih =>
      cases xs with
      | nil => rfl
      | cons y rest =>
          rw [shiftleft2, shiftBits, ih, ← hbits]
          split <;> split <;> simp [BitVec.or_assoc]

/-! ## Sizes and comparisons -/

theorem octetBits_spec : ∀ x : Octet, x ≠ 0 →
    0 < octetBits x ∧ 2 ^ (octetBits x - 1) ≤ x.toNat ∧ x.toNat < 2 ^ octetBits x := by
  decide +kernel

/-- **`b_bitlength`** is the number of bits. -/
theorem bitlength_eq (a : List Octet) : bitlength a = (number a).size := by
  induction a with
  | nil => rfl
  | cons x xs ih =>
      rw [bitlength, number]
      split
      · rename_i hx
        obtain ⟨hpos, hlow, hhigh⟩ := octetBits_spec x hx
        have hlt := number_lt xs
        refine le_antisymm ?_ ?_
        · refine Nat.le_of_pred_lt (Nat.lt_size.2 ?_)
          calc 2 ^ (xs.length * 8 + octetBits x).pred
              = 2 ^ (8 * xs.length) * 2 ^ (octetBits x - 1) := by
                rw [← pow_add]
                congr 1
                rw [Nat.pred_eq_sub_one]
                omega
            _ ≤ 2 ^ (8 * xs.length) * x.toNat := Nat.mul_le_mul_left _ hlow
            _ ≤ 2 ^ (8 * xs.length) * x.toNat + number xs := Nat.le_add_right _ _
        · refine Nat.size_le.2 ?_
          calc 2 ^ (8 * xs.length) * x.toNat + number xs
              < 2 ^ (8 * xs.length) * x.toNat + 2 ^ (8 * xs.length) := by omega
            _ = 2 ^ (8 * xs.length) * (x.toNat + 1) := by ring
            _ ≤ 2 ^ (8 * xs.length) * 2 ^ octetBits x := Nat.mul_le_mul_left _ hhigh
            _ = 2 ^ (xs.length * 8 + octetBits x) := by rw [← pow_add, mul_comm]
      · rename_i hx
        rw [not_not.1 hx, ih]
        simp

/-- **`b_compareto`** compares the numbers. -/
theorem compareto_eq (hlength : a.length = b.length) :
    compareto a b = if number a = number b then 0 else if number b < number a then 1 else -1 := by
  induction a generalizing b with
  | nil =>
      cases b with
      | nil => rfl
      | cons y ys => cases hlength
  | cons x xs ih =>
      cases b with
      | nil => cases hlength
      | cons y ys =>
          have htail : xs.length = ys.length := Nat.succ_injective hlength
          have hx := number_lt xs
          have hy := number_lt ys
          rw [compareto, number, number, ← htail]
          rw [← htail] at hy
          by_cases heq : x = y
          · rw [if_pos heq, heq, ih htail]
            simp
          · have hne : x.toNat ≠ y.toNat := fun h => heq (BitVec.eq_of_toNat_eq h)
            rw [if_neg heq]
            rcases Nat.lt_or_gt_of_ne hne with hlt | hgt
            · have hless : 2 ^ (8 * xs.length) * x.toNat + number xs <
                  2 ^ (8 * xs.length) * y.toNat + number ys :=
                calc 2 ^ (8 * xs.length) * x.toNat + number xs
                    < 2 ^ (8 * xs.length) * (x.toNat + 1) := by rw [mul_add]; omega
                  _ ≤ 2 ^ (8 * xs.length) * y.toNat := Nat.mul_le_mul_left _ hlt
                  _ ≤ 2 ^ (8 * xs.length) * y.toNat + number ys := Nat.le_add_right _ _
              rw [if_neg (BitVec.lt_def.not.2 hlt.not_gt), if_neg hless.ne, if_neg hless.not_gt]
            · have hmore : 2 ^ (8 * xs.length) * y.toNat + number ys <
                  2 ^ (8 * xs.length) * x.toNat + number xs :=
                calc 2 ^ (8 * xs.length) * y.toNat + number ys
                    < 2 ^ (8 * xs.length) * (y.toNat + 1) := by rw [mul_add]; omega
                  _ ≤ 2 ^ (8 * xs.length) * x.toNat := Nat.mul_le_mul_left _ hgt
                  _ ≤ 2 ^ (8 * xs.length) * x.toNat + number xs := Nat.le_add_right _ _
              rw [if_pos (BitVec.lt_def.2 hgt), if_neg hmore.ne', if_pos hmore]

theorem toNat_octetAt {k : ℕ} (hk : k < a.length) :
    (octetAt a k).toNat = number a / 2 ^ (8 * k) % 2 ^ 8 := by
  refine Nat.eq_of_testBit_eq fun i => ?_
  rw [Nat.testBit_mod_two_pow, Nat.testBit_div_two_pow, Nat.add_comm]
  rcases Nat.lt_or_ge i 8 with hlt | hge
  · rw [decide_eq_true hlt, Bool.true_and, testBit_number hk hlt]
    rfl
  · rw [decide_eq_false (not_lt.2 hge), Bool.false_and]
    exact BitVec.getLsbD_of_ge _ _ hge

theorem mod_xor_shiftLeft (n k m : ℕ) :
    n % 2 ^ k ^^^ (n / 2 ^ k % 2 ^ m) <<< k = n % 2 ^ (k + m) := by
  refine Nat.eq_of_testBit_eq fun i => ?_
  simp only [Nat.testBit_xor, Nat.testBit_shiftLeft, Nat.testBit_mod_two_pow,
    Nat.testBit_div_two_pow]
  rcases Nat.lt_or_ge i k with hlt | hge
  · simp [hlt, not_le.2 hlt, Nat.lt_add_right m hlt]
  · have hiff : i - k < m ↔ i < k + m := by omega
    simp [hge, not_lt.2 hge, Nat.sub_add_cancel hge, hiff]

end Numbers

end Octets

/-! ## Arrays -/

/-- `NUMWORDS` of `crypto/eccf2m.h`. -/
def bintWords : ℕ := 42

/-- An array of `NUMWORDS` octets from the highest on. -/
structure Bint where
  val : List Octet
  length_val : val.length = bintWords
deriving DecidableEq

namespace Bint

open Octets

/-- The number with the bits of an array. -/
def number (a : Bint) : ℕ :=
  Octets.number a.val

/-- `b_clear`. -/
def bClear : Bint :=
  ⟨List.replicate bintWords 0, List.length_replicate⟩

/-- `b_testbit`. -/
def bTestbit (a : Bint) (i : ℕ) : Bool :=
  octetAt a.val (i / 8) &&& 1 <<< (i % 8) ≠ 0

/-- Flips bits of the octet that is the `k`-th from the last. -/
def xorOctet (a : Bint) (k : ℕ) (x : Octet) : Bint :=
  ⟨Octets.xorOctet a.val k x, by rw [length_xorOctet, a.length_val]⟩

/-- `b_setbit`. -/
def bSetbit (a : Bint) (i : ℕ) : Bint :=
  ⟨a.val.set (bintWords - i / 8 - 1) (octetAt a.val (i / 8) ||| 1 <<< (i % 8)),
    by rw [List.length_set, a.length_val]⟩

/-- `b_xor`. -/
def bXor (a b : Bint) : Bint :=
  ⟨List.zipWith (· ^^^ ·) a.val b.val,
    by rw [List.length_zipWith, a.length_val, b.length_val, Nat.min_self]⟩

/-- `b_compareto`. -/
def bCompareto (a b : Bint) : ℤ :=
  compareto a.val b.val

/-- `b_bitlength`. -/
def bBitlength (a : Bint) : ℕ :=
  bitlength a.val

/-- `b_shiftleft1`. -/
def bShiftleft1 (a : Bint) : Bint :=
  ⟨shiftleft1 a.val, by rw [shiftleft1_eq, length_shiftBits, a.length_val]⟩

/-- `b_shiftleft2`. -/
def bShiftleft2 (a : Bint) : Bint :=
  ⟨shiftleft2 a.val, by rw [shiftleft2_eq, length_shiftBits, a.length_val]⟩

/-- The whole octets of `b_shiftleft`, which are not copied for a negative distance. -/
def shiftBytes (a : Bint) (bytes : ℤ) (b : Bint) : Bint :=
  if 0 < bytes then
    ⟨(a.val.drop bytes.toNat ++ List.replicate bytes.toNat 0).takeD bintWords 0,
      List.takeD_length ..⟩
  else if bytes = 0 then a
  else b

/-- `b_shiftleft` by `n` bits into the array `b`.  Quotient and remainder are those of C. -/
def bShiftleft (a : Bint) (n : ℤ) (b : Bint) : Bint :=
  let shifted := a.shiftBytes (n.tdiv 8) b
  ⟨shiftBits (n.tmod 8).toNat shifted.val, by rw [length_shiftBits, shifted.length_val]⟩

section Routines

variable (a b : Bint)

theorem number_lt : a.number < 2 ^ (8 * bintWords) := by
  have hlt := Octets.number_lt a.val
  rwa [a.length_val] at hlt

@[simp] theorem number_bClear : bClear.number = 0 :=
  number_replicate bintWords

@[simp] theorem number_bXor : (a.bXor b).number = a.number ^^^ b.number :=
  number_zipWith_xor (a.length_val.trans b.length_val.symm)

@[simp] theorem bBitlength_eq : a.bBitlength = a.number.size :=
  bitlength_eq a.val

theorem bCompareto_eq : a.bCompareto b =
    if a.number = b.number then 0 else if b.number < a.number then 1 else -1 :=
  compareto_eq (a.length_val.trans b.length_val.symm)

@[simp] theorem number_bShiftleft1 : a.bShiftleft1.number = a.number * 2 % 2 ^ (8 * bintWords) := by
  have hshift := number_shiftBits (show 1 ≤ 8 by decide) a.val
  rw [a.length_val, ← shiftleft1_eq, pow_one] at hshift
  exact hshift

@[simp] theorem number_bShiftleft2 :
    a.bShiftleft2.number = a.number * 2 ^ 2 % 2 ^ (8 * bintWords) := by
  have hshift := number_shiftBits (show 2 ≤ 8 by decide) a.val
  rw [a.length_val, ← shiftleft2_eq] at hshift
  exact hshift

theorem number_xorOctet {k : ℕ} (hk : k < bintWords) (x : Octet) :
    (a.xorOctet k x).number = a.number ^^^ x.toNat <<< (8 * k) :=
  Octets.number_xorOctet (by rwa [a.length_val]) x

theorem bTestbit_eq {i : ℕ} (hi : i < 336) : a.bTestbit i = a.number.testBit i := by
  have hmask : ∀ x : Octet, ∀ r < 8, decide (x &&& 1 <<< r ≠ 0) = x.getLsbD r := by
    decide +kernel
  have hk : i / 8 < a.val.length := by
    rw [a.length_val]
    unfold bintWords
    omega
  have hbit := testBit_number hk (Nat.mod_lt i (show 0 < 8 by decide))
  rw [Nat.div_add_mod] at hbit
  rw [bTestbit, hmask _ _ (Nat.mod_lt i (by decide)), ← hbit]
  rfl

theorem number_injective : Function.Injective number := by
  intro a b heq
  have hoctets : ∀ (xs ys : List Octet), xs.length = ys.length →
      Octets.number xs = Octets.number ys → xs = ys := by
    intro xs
    induction xs with
    | nil =>
        intro ys hlength _
        exact (List.length_eq_zero_iff.1 hlength.symm).symm
    | cons x xs ih =>
        intro ys hlength hnumber
        cases ys with
        | nil => cases hlength
        | cons y ys =>
            have htail : xs.length = ys.length := Nat.succ_injective hlength
            have hx := Octets.number_lt xs
            have hy := Octets.number_lt ys
            rw [Octets.number, Octets.number, ← htail] at hnumber
            rw [← htail] at hy
            have hlow := congrArg (· % 2 ^ (8 * xs.length)) hnumber
            have hhigh := congrArg (· / 2 ^ (8 * xs.length)) hnumber
            simp only [Nat.mul_add_mod, Nat.mod_eq_of_lt hx, Nat.mod_eq_of_lt hy] at hlow
            simp only [Nat.mul_add_div (Nat.two_pow_pos _), Nat.div_eq_of_lt hx,
              Nat.div_eq_of_lt hy, Nat.add_zero] at hhigh
            rw [BitVec.eq_of_toNat_eq hhigh, ih ys htail hlow]
  cases a
  cases b
  congr 1
  exact hoctets _ _ (by simp_all) heq

theorem number_shiftBytes {bytes : ℕ} (hbytes : bytes ≤ bintWords) :
    (a.shiftBytes bytes b).number = a.number * 2 ^ (8 * bytes) % 2 ^ (8 * bintWords) := by
  unfold shiftBytes
  by_cases hpos : 0 < (bytes : ℤ)
  · have hlength := a.length_val
    have hsplit := number_append (a.val.take bytes) (a.val.drop bytes)
    have hlow := Octets.number_lt (a.val.drop bytes)
    have hpow : 2 ^ (8 * bintWords) = 2 ^ (8 * (bintWords - bytes)) * 2 ^ (8 * bytes) := by
      rw [← pow_add]
      congr 1
      omega
    rw [List.take_append_drop, List.length_drop, hlength] at hsplit
    rw [List.length_drop, hlength] at hlow
    have hcut : (a.val.drop bytes ++ List.replicate bytes (0 : Octet)).takeD bintWords 0 =
        a.val.drop bytes ++ List.replicate bytes 0 := by
      have hall : (a.val.drop bytes ++ List.replicate bytes (0 : Octet)).length = bintWords := by
        rw [List.length_append, List.length_drop, List.length_replicate, hlength]
        omega
      rw [List.takeD_eq_take _ hall.ge, ← hall, List.take_length]
    rw [if_pos hpos]
    simp only [number, Int.toNat_natCast]
    rw [hcut, number_append, number_replicate, List.length_replicate, Nat.add_zero, hsplit, hpow,
      Nat.mul_mod_mul_right, Nat.mul_add_mod, Nat.mod_eq_of_lt hlow, mul_comm]
  · obtain rfl : bytes = 0 := by omega
    rw [if_neg hpos, if_pos Nat.cast_zero, Nat.mul_zero, pow_zero, Nat.mul_one,
      Nat.mod_eq_of_lt a.number_lt]

/-- **`b_shiftleft`** by a distance that is not negative. -/
theorem number_bShiftleft {n : ℕ} (hn : n < 8 * bintWords) :
    (a.bShiftleft n b).number = a.number * 2 ^ n % 2 ^ (8 * bintWords) := by
  have hbits : n % 8 < 8 := Nat.mod_lt n (by decide)
  have hbytes : n / 8 ≤ bintWords := by omega
  have hshift := number_shiftBits hbits.le (a.shiftBytes ((n / 8 : ℕ) : ℤ) b).val
  rw [Bint.length_val] at hshift
  have hpow : 2 ^ (8 * (n / 8)) * 2 ^ (n % 8) = 2 ^ n := by
    rw [← pow_add, Nat.div_add_mod]
  -- quotient and remainder of a distance that is not negative are those of its number
  refine hshift.trans ?_
  have hmoved := number_shiftBytes a b hbytes
  unfold number at hmoved
  rw [hmoved, Nat.mod_mul_mod, mul_assoc, hpow]
  rfl

theorem bShiftleft_neg : a.bShiftleft (-128) b = b := by
  refine number_injective ?_
  have hshift := number_shiftBits (show 0 ≤ 8 by decide) b.val
  rw [b.length_val, pow_zero, Nat.mul_one] at hshift
  exact hshift.trans (Nat.mod_eq_of_lt b.number_lt)

end Routines

end Bint

end Wiselib.Crypto
