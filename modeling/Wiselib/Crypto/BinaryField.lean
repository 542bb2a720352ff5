import Wiselib.Crypto.Bint
import Wiselib.Library.BinaryPolynomial

/-!
# Multiplication in the binary field

`f_mod` and `f_mul` of `crypto/eccf2m.h`.  A bint is the polynomial of its bits,
and the field has those modulo `x ^ 163 + x ^ 7 + x ^ 6 + x ^ 3 + 1`.

## Strategy

* Every round of `f_mul` takes one bit of each octet of `a`, a column of its
  bits, and shifts what it has by one.  The columns are the polynomial
  (`BinaryPolynomial.ofBits_eq_sum_column`), and no bit leaves the array
  (`combLoop_spec`).
* The loop of `f_mod` is the reduction on numbers (`fModLoop_spec`), but it is not
  reached if the comparison with the modulus finds a smaller number.
* The comparison is one of numbers.  A polynomial of degree 163 whose other bits
  are a smaller number than those of the modulus is therefore not reduced
  (`fMul_right_iff`).
-/

namespace Wiselib.Crypto

open BinaryPolynomial Polynomial
open Digits (Memory Octet)

namespace Bint

/-! ## The routines -/

/-- `params.E.modulus`, as `init` sets its bits. -/
def modulus : Bint :=
  ((((bClear.bSetbit 163).bSetbit 7).bSetbit 6).bSetbit 3).bSetbit 0

/-- Flips a bit, in `f_mod`. -/
def flipBit (r : Bint) (i : ℕ) : Bint :=
  r.xorOctet (i / 8) ((1 : Octet) <<< (i % 8))

/-- The loop of `f_mod`; 164 is `params.E.bitlength`. -/
def fModLoop : ℕ → Bint → Option Bint
  | 0, _ => none
  | fuel + 1, r =>
      let blr := r.bBitlength
      if 164 ≤ blr then
        let shf := blr - 164
        let r := r.flipBit (163 + shf)
        let r := r.flipBit (7 + shf)
        let r := r.flipBit (6 + shf)
        let r := r.flipBit (3 + shf)
        let r := r.flipBit (0 + shf)
        fModLoop fuel r
      else some r

/-- `f_mod`. -/
def fMod (fuel : ℕ) (a : Bint) : Option Bint :=
  let comp := a.bCompareto modulus
  if comp < 0 then some a
  else if comp = 0 then some bClear
  else fModLoop fuel a

/-- The loop of `f_mul` over the octets of `b`, which are added from the octet `i` on. -/
def addOctets (b T : Bint) (i : ℕ) : Bint :=
  (List.range (bintWords / 2)).foldl
    (fun T k => T.xorOctet (k + i) (Octets.octetAt b.val k)) T

/-- The loop of `f_mul` over the octets of `a`, with the bit `j` of each. -/
def combRound (a b T : Bint) (j : ℕ) : Bint :=
  (List.range (bintWords / 2)).foldl
    (fun T i => if a.bTestbit (i * 8 + j) then b.addOctets T i else T) T

/-- The loop of `f_mul` over the bits of octets below `j`, from the highest. -/
def combLoop (a b : Bint) : ℕ → Bint → Bint
  | 0, T => T
  | j + 1, T =>
      let T := a.combRound b T j
      combLoop a b j (if j ≠ 0 then T.bShiftleft1 else T)

/-- `f_mul`. -/
def fMul (fuel : ℕ) (a b : Bint) : Option Bint :=
  (a.combLoop b 8 bClear).fMod fuel

/-- An irreducible pentanomial, by its exponents. -/
noncomputable def pentanomial (m k3 k2 k1 : ℕ) : (ZMod 2)[X] :=
  X ^ m + X ^ k3 + X ^ k2 + X ^ k1 + 1

/-- The modulus of the field, by `params.p` and the exponents of `params`. -/
noncomputable def fieldPoly : (ZMod 2)[X] :=
  pentanomial 163 7 6 3

/-- The number of the modulus. -/
def fieldNumber : ℕ := 2 ^ 163 + 0xC9

theorem number_modulus : modulus.number = fieldNumber := by
  decide +kernel

theorem ofBits_pentanomial (m k3 k2 k1 : ℕ) :
    ofBits (2 ^ m ^^^ 2 ^ k3 ^^^ 2 ^ k2 ^^^ 2 ^ k1 ^^^ 2 ^ 0) = pentanomial m k3 k2 k1 := by
  rw [ofBits_xor, ofBits_xor, ofBits_xor, ofBits_xor, ofBits_two_pow, ofBits_two_pow,
    ofBits_two_pow, ofBits_two_pow, ofBits_two_pow, pow_zero, pentanomial]

theorem fieldNumber_eq : fieldNumber = 2 ^ 163 ^^^ 2 ^ 7 ^^^ 2 ^ 6 ^^^ 2 ^ 3 ^^^ 2 ^ 0 := by
  decide +kernel

theorem ofBits_fieldNumber : ofBits fieldNumber = fieldPoly := by
  rw [fieldNumber_eq]
  exact ofBits_pentanomial 163 7 6 3

theorem size_fieldNumber : fieldNumber.size = 164 := by
  refine le_antisymm (Nat.size_le.2 (by norm_num [fieldNumber])) ?_
  exact Nat.lt_size.2 (by norm_num [fieldNumber])

theorem monic_fieldPoly : fieldPoly.Monic := by
  rw [← ofBits_fieldNumber]
  exact monic_ofBits (by decide)

theorem degree_fieldPoly : fieldPoly.degree = 163 := by
  rw [degree_eq_natDegree monic_fieldPoly.ne_zero, ← ofBits_fieldNumber, natDegree_ofBits,
    size_fieldNumber]
  rfl

/-! ## Reduction -/

section Reduction

variable {a r : Bint} {fuel : ℕ}

theorem number_flipBit {i : ℕ} (hi : i < 8 * bintWords) :
    (r.flipBit i).number = r.number ^^^ 2 ^ i := by
  have hmask : ∀ s < 8, ((1 : Octet) <<< s).toNat = 2 ^ s := by decide
  rw [flipBit, number_xorOctet _ (by omega), hmask _ (Nat.mod_lt i (by decide)),
    Nat.shiftLeft_eq, ← pow_add, Nat.mod_add_div]

theorem shiftLeft_pentanomial (m k3 k2 k1 shf : ℕ) :
    (2 ^ m ^^^ 2 ^ k3 ^^^ 2 ^ k2 ^^^ 2 ^ k1 ^^^ 2 ^ 0) <<< shf =
      2 ^ (m + shf) ^^^ 2 ^ (k3 + shf) ^^^ 2 ^ (k2 + shf) ^^^ 2 ^ (k1 + shf) ^^^
        2 ^ (0 + shf) := by
  simp only [Nat.shiftLeft_xor_distrib]
  simp only [Nat.shiftLeft_eq, ← pow_add]

/-- **The loop of `f_mod`** reduces. -/
theorem fModLoop_spec (hfuel : r.number.size ≤ 163 + fuel) :
    ∃ c, fModLoop (fuel + 1) r = some c ∧ c.number = reduce fieldNumber fuel r.number := by
  induction fuel generalizing r with
  | zero =>
      refine ⟨r, ?_, rfl⟩
      rw [fModLoop, bBitlength_eq]
      exact if_neg (by omega)
  | succ fuel ih =>
      rw [fModLoop, bBitlength_eq, reduce, size_fieldNumber]
      by_cases hlong : 164 ≤ r.number.size
      · have hsize : r.number.size ≤ 8 * bintWords := Nat.size_le.2 r.number_lt
        have hle : fieldNumber.size ≤ r.number.size := by rwa [size_fieldNumber]
        have hlt := size_xor_shiftLeft_lt (show 0 < fieldNumber by decide) hle
        rw [size_fieldNumber] at hlt
        have hflipped : (((((r.flipBit (163 + (r.number.size - 164))).flipBit
            (7 + (r.number.size - 164))).flipBit (6 + (r.number.size - 164))).flipBit
            (3 + (r.number.size - 164))).flipBit (0 + (r.number.size - 164))).number =
            r.number ^^^ fieldNumber <<< (r.number.size - 164) := by
          rw [number_flipBit (by omega), number_flipBit (by omega), number_flipBit (by omega),
            number_flipBit (by omega), number_flipBit (by omega), fieldNumber_eq,
            shiftLeft_pentanomial]
          simp only [Nat.xor_assoc]
        dsimp only
        rw [if_pos hlong, if_pos hlong, ← hflipped]
        exact ih (by rw [hflipped]; omega)
      · rw [if_neg hlong, if_neg hlong]
        exact ⟨r, rfl, rfl⟩

/-- **`f_mod`** reduces numbers that are not below that of the modulus. -/
theorem fMod_spec (hfuel : 8 * bintWords < fuel) (a : Bint) :
    ∃ c, fMod fuel a = some c ∧ c.number =
      if a.number < fieldNumber then a.number
      else reduce fieldNumber (fuel - 1) a.number := by
  obtain ⟨fuel, rfl⟩ : ∃ n, fuel = n + 1 := ⟨fuel - 1, by omega⟩
  have hsize : a.number.size ≤ 8 * bintWords := Nat.size_le.2 a.number_lt
  unfold fMod
  dsimp only
  rw [bCompareto_eq, number_modulus, Nat.add_sub_cancel]
  rcases Nat.lt_trichotomy a.number fieldNumber with hlt | heq | hgt
  · rw [if_neg hlt.ne, if_neg hlt.not_gt, if_pos (by decide), if_pos hlt]
    exact ⟨a, rfl, rfl⟩
  · have hreduced : reduce fieldNumber fuel a.number = 0 := by
      obtain ⟨fuel, rfl⟩ : ∃ n, fuel = n + 1 := ⟨fuel - 1, by unfold bintWords at hfuel; omega⟩
      have hzero : reduce fieldNumber fuel 0 = 0 := by
        cases fuel with
        | zero => rfl
        | succ fuel => rw [reduce, size_fieldNumber, Nat.size_zero, if_neg (by decide)]
      rw [reduce, heq, if_pos (le_refl _), Nat.sub_self, Nat.shiftLeft_zero, Nat.xor_self, hzero]
    rw [if_pos heq, if_neg (lt_irrefl 0), if_pos rfl, if_neg heq.not_lt, hreduced]
    exact ⟨bClear, rfl, number_bClear⟩
  · rw [if_neg hgt.ne', if_pos hgt, if_neg (by decide), if_neg (by decide), if_neg hgt.not_gt]
    exact fModLoop_spec (by omega)

end Reduction

/-! ## Products -/

section Products

variable {a b T : Bint} {fuel : ℕ}

theorem addOctets_spec {i : ℕ} (hi : i < bintWords / 2) (hb : b.number < 2 ^ 168) :
    (b.addOctets T i).number = T.number ^^^ b.number <<< (8 * i) := by
  have hloop : ∀ n ≤ bintWords / 2, ((List.range n).foldl
      (fun T k => T.xorOctet (k + i) (Octets.octetAt b.val k)) T).number =
      T.number ^^^ (b.number % 2 ^ (8 * n)) <<< (8 * i) := by
    intro n
    induction n with
    | zero => simp [Nat.mod_one]
    | succ n ih =>
        intro hn
        have hn' : n < bintWords := by unfold bintWords at hn ⊢; omega
        have hplace : n + i < bintWords := by unfold bintWords at hn hi ⊢; omega
        have hoctet := Octets.toNat_octetAt (show n < b.val.length by rwa [b.length_val])
        have hshift : 8 * (n + i) = 8 * n + 8 * i := by ring
        rw [List.range_succ, List.foldl_append, List.foldl_cons, List.foldl_nil,
          number_xorOctet _ hplace, ih (by omega), Nat.xor_assoc, hoctet, hshift,
          Nat.shiftLeft_add, ← Nat.shiftLeft_xor_distrib]
        congr 2
        exact Octets.mod_xor_shiftLeft b.number (8 * n) 8
  have hwhole : b.number < 2 ^ (8 * (bintWords / 2)) := hb
  have hall := hloop _ (le_refl _)
  rw [Nat.mod_eq_of_lt hwhole] at hall
  exact hall

/-- **One round** adds the product with a column of `a`. -/
theorem combRound_spec {j : ℕ} (hj : j < 8) (hb : b.number < 2 ^ 168) {m : ℕ}
    (hT : T.number < 2 ^ m) (hm : 328 ≤ m) :
    ofBits (a.combRound b T j).number =
        ofBits T.number + column 8 a.number (bintWords / 2) j * ofBits b.number ∧
      (a.combRound b T j).number < 2 ^ m := by
  have hloop : ∀ n ≤ bintWords / 2,
      ofBits ((List.range n).foldl
        (fun T i => if a.bTestbit (i * 8 + j) then b.addOctets T i else T) T).number =
          ofBits T.number + column 8 a.number n j * ofBits b.number ∧
        ((List.range n).foldl
          (fun T i => if a.bTestbit (i * 8 + j) then b.addOctets T i else T) T).number < 2 ^ m := by
    intro n
    induction n with
    | zero => simp [column, hT]
    | succ n ih =>
        intro hn
        obtain ⟨hpoly, hlt⟩ := ih (by omega)
        have hplace : n * 8 + j < 336 := by unfold bintWords at hn; omega
        rw [List.range_succ, List.foldl_append, List.foldl_cons, List.foldl_nil,
          bTestbit_eq a hplace, column, Finset.sum_range_succ, ← column]
        split
        · rw [addOctets_spec (by omega) hb]
          constructor
          · rw [ofBits_xor, ofBits_shiftLeft, hpoly, Nat.mul_comm 8 n]
            ring
          · refine Nat.xor_lt_two_pow hlt ?_
            calc b.number <<< (8 * n) = b.number * 2 ^ (8 * n) := Nat.shiftLeft_eq _ _
              _ < 2 ^ 168 * 2 ^ (8 * n) := Nat.mul_lt_mul_of_pos_right hb (Nat.two_pow_pos _)
              _ = 2 ^ (168 + 8 * n) := (pow_add _ _ _).symm
              _ ≤ 2 ^ m := Nat.pow_le_pow_right two_pos (by unfold bintWords at hn; omega)
        · rw [add_zero]
          exact ⟨hpoly, hlt⟩
  exact hloop _ (le_refl _)

/-- **The rounds** add the columns at their places. -/
theorem combLoop_spec (hb : b.number < 2 ^ 168) {j : ℕ} (hj : j ≤ 8)
    (hT : T.number < 2 ^ (336 - j)) :
    ofBits (a.combLoop b j T).number = X ^ (j - 1) * ofBits T.number +
      (∑ i ∈ Finset.range j, X ^ i * column 8 a.number (bintWords / 2) i) * ofBits b.number := by
  induction j generalizing T with
  | zero => simp [combLoop]
  | succ j ih =>
      obtain ⟨hpoly, hlt⟩ := @combRound_spec a b T j (Nat.lt_of_succ_le hj) hb _ hT (by omega)
      rw [combLoop]
      by_cases hzero : j = 0
      · subst hzero
        simp [combLoop, hpoly]
      · have hroom : (a.combRound b T j).number * 2 < 2 ^ (336 - j) := by
          have hpow : 2 ^ (336 - j) = 2 ^ (336 - (j + 1)) * 2 := by
            rw [← pow_succ]
            congr 1
            omega
          rw [hpow]
          exact Nat.mul_lt_mul_of_pos_right hlt two_pos
        have hexponent : 336 - j ≤ 8 * bintWords := Nat.sub_le 336 j
        have hwhole : 2 ^ (336 - j) ≤ 2 ^ (8 * bintWords) :=
          pow_le_pow_right₀ one_le_two hexponent
        have hdouble : ((a.combRound b T j).bShiftleft1).number =
            (a.combRound b T j).number * 2 := by
          rw [number_bShiftleft1, Nat.mod_eq_of_lt (hroom.trans_le hwhole)]
        rw [← hdouble] at hroom
        obtain ⟨j, rfl⟩ : ∃ n, j = n + 1 := ⟨j - 1, by omega⟩
        rw [if_pos hzero, ih (by omega) hroom, hdouble, Nat.mul_comm _ 2, ofBits_two_mul,
          hpoly, Finset.sum_range_succ _ (j + 1)]
        simp only [Nat.add_sub_cancel]
        ring

/-- **The product** before its reduction. -/
theorem ofBits_combLoop (ha : a.number < 2 ^ 168) (hb : b.number < 2 ^ 168) :
    ofBits (a.combLoop b 8 bClear).number = ofBits a.number * ofBits b.number := by
  rw [combLoop_spec hb (le_refl 8) (by rw [number_bClear]; exact pow_pos two_pos _),
    number_bClear, ofBits_zero, mul_zero, zero_add]
  congr 1
  exact (ofBits_eq_sum_column (show a.number < 2 ^ (bintWords / 2 * 8) from ha)).symm

/-- **`f_mul`** ends.  It leaves the remainder of the product, or the product itself if its
number is below that of the modulus. -/
theorem fMul_spec (hfuel : 8 * bintWords < fuel) (ha : a.number < 2 ^ 168)
    (hb : b.number < 2 ^ 168) :
    ∃ c product, fMul fuel a b = some c ∧ ofBits product = ofBits a.number * ofBits b.number ∧
      if product < fieldNumber then c.number = product
      else c.number < 2 ^ 163 ∧ ofBits c.number = ofBits product %ₘ fieldPoly := by
  obtain ⟨c, hrun, hnumber⟩ := fMod_spec hfuel (a.combLoop b 8 bClear)
  refine ⟨c, _, hrun, ofBits_combLoop ha hb, ?_⟩
  have hsize : (a.combLoop b 8 bClear).number.size ≤ fuel - 1 :=
    (Nat.size_le.2 (number_lt _)).trans (by omega)
  split_ifs at hnumber ⊢ with hsmall
  · exact hnumber
  · have hpos : 0 < fieldNumber := by decide
    rw [hnumber, ← ofBits_fieldNumber]
    refine ⟨?_, ofBits_reduce hpos hsize⟩
    have hshort := size_reduce_lt hpos hsize
    rw [size_fieldNumber] at hshort
    exact Nat.size_le.1 (by omega)

end Products

/-! ## The contract -/

/-- The bint at an address. -/
def readBint (memory : Memory 8) (p : ℕ) : Bint :=
  ⟨Digits.read memory p bintWords, Digits.length_read memory⟩

/-- `f_mul` on the arrays at addresses, which may be the same. -/
def fMulAt (fuel : ℕ) (memory : Memory 8) (a b c : ℕ) : Option (Memory 8) :=
  (fMul fuel (readBint memory a) (readBint memory b)).map fun r => Digits.write memory c r.val

/-- What is expected of `f_mul`: it ends, and `c` is the reduced product. -/
def MulRight (memory : Memory 8) (a b c : ℕ) : Prop :=
  ∃ enough, ∀ fuel, enough ≤ fuel → ∃ memory', fMulAt fuel memory a b c = some memory' ∧
    ofBits (readBint memory' c).number =
      (ofBits (readBint memory a).number * ofBits (readBint memory b).number) %ₘ fieldPoly ∧
    (ofBits (readBint memory' c).number).degree < 163

section Contract

variable {memory : Memory 8} {a b : ℕ}

theorem readBint_write (memory : Memory 8) (p : ℕ) (r : Bint) :
    readBint (Digits.write memory p r.val) p = r := by
  have hread := @Digits.read_write 8 memory p bintWords r.val r.length_val.le
  rw [r.length_val, Nat.sub_self] at hread
  have hval : (readBint (Digits.write memory p r.val) p).val = r.val :=
    hread.trans (List.append_nil _)
  cases r
  exact (Bint.mk.injEq ..).mpr hval

theorem fMulAt_eq {fuel c : ℕ} {r : Bint}
    (hrun : fMul fuel (readBint memory a) (readBint memory b) = some r) :
    ∃ memory', fMulAt fuel memory a b c = some memory' ∧ readBint memory' c = r := by
  refine ⟨_, by rw [fMulAt, hrun, Option.map_some], readBint_write _ _ _⟩

theorem not_mulRight (ha : (readBint memory a).number < 2 ^ 168)
    (hb : (readBint memory b).number < 2 ^ 168) {c low : ℕ} (hlow : low < 0xC9)
    (hproduct : ofBits (readBint memory a).number * ofBits (readBint memory b).number =
      X ^ 163 + ofBits low) : ¬ MulRight memory a b c := by
  rintro ⟨enough, hright⟩
  obtain ⟨r, product, hrun, hpoly, hcases⟩ :=
    fMul_spec (show 8 * bintWords < enough + 8 * bintWords + 1 by omega) ha hb
  obtain ⟨memory', hrun', -, hdegree⟩ := hright (enough + 8 * bintWords + 1) (by omega)
  obtain ⟨memory'', hrun'', hr⟩ := @fMulAt_eq memory a b _ c r hrun
  rw [hrun'] at hrun''
  obtain rfl := Option.some_inj.1 hrun''
  have hnumber : product = 2 ^ 163 + low := by
    refine ofBits_injective ?_
    rw [hpoly, hproduct, ofBits_two_pow_add (by omega)]
  have hsmall : product < fieldNumber := by
    rw [hnumber, fieldNumber]
    omega
  rw [if_pos hsmall] at hcases
  rw [hr, hcases, hnumber] at hdegree
  have hlt := (degree_ofBits_lt_iff (2 ^ 163 + low) 163).1 hdegree
  omega

theorem mulRight_of_not (ha : (readBint memory a).number < 2 ^ 168)
    (hb : (readBint memory b).number < 2 ^ 168) (c : ℕ)
    (hnot : ¬ ∃ low < 0xC9, ofBits (readBint memory a).number * ofBits (readBint memory b).number =
      X ^ 163 + ofBits low) : MulRight memory a b c := by
  refine ⟨8 * bintWords + 1, fun fuel hfuel => ?_⟩
  obtain ⟨r, product, hrun, hpoly, hcases⟩ :=
    fMul_spec (show 8 * bintWords < fuel by omega) ha hb
  obtain ⟨memory', hrun', hr⟩ := @fMulAt_eq memory a b _ c r hrun
  refine ⟨memory', hrun', ?_⟩
  rw [hr, ← hpoly]
  by_cases hsmall : product < fieldNumber
  · rw [if_pos hsmall] at hcases
    have hreduced : product < 2 ^ 163 := by
      by_contra hlarge
      refine hnot ⟨product - 2 ^ 163, by unfold fieldNumber at hsmall; omega, ?_⟩
      unfold fieldNumber at hsmall
      rw [← hpoly, ← ofBits_two_pow_add (by omega), Nat.add_sub_cancel' (not_lt.1 hlarge)]
    have hdegree := (degree_ofBits_lt_iff product 163).2 hreduced
    rw [hcases]
    refine ⟨((modByMonic_eq_self_iff monic_fieldPoly).2 ?_).symm, hdegree⟩
    rwa [degree_fieldPoly]
  · rw [if_neg hsmall] at hcases
    exact ⟨hcases.2, (degree_ofBits_lt_iff r.number 163).2 hcases.1⟩

/-- **`f_mul` is right** unless the product has degree 163 and its other bits are a smaller
number than those of the modulus. -/
theorem fMul_right_iff (ha : (ofBits (readBint memory a).number).degree < 163)
    (hb : (ofBits (readBint memory b).number).degree < 163) (c : ℕ) :
    MulRight memory a b c ↔ ¬ ∃ low < 0xC9,
      ofBits (readBint memory a).number * ofBits (readBint memory b).number =
        X ^ 163 + ofBits low := by
  have hroom : 2 ^ 163 ≤ 2 ^ 168 := Nat.pow_le_pow_right two_pos (by norm_num)
  have ha' := ((degree_ofBits_lt_iff _ 163).1 ha).trans_le hroom
  have hb' := ((degree_ofBits_lt_iff _ 163).1 hb).trans_le hroom
  constructor
  · rintro hright ⟨low, hlow, hproduct⟩
    exact not_mulRight ha' hb' hlow hproduct hright
  · exact mulRight_of_not ha' hb' c

/-- The polynomials `x` and `x ^ 162`, in arrays one after the other. -/
def twoPowers : Memory 8 := fun k => if k = 41 then 0x02 else if k = 63 then 0x04 else 0

theorem number_twoPowers :
    (readBint twoPowers 0).number = 2 ^ 1 ∧ (readBint twoPowers 42).number = 2 ^ 162 := by
  decide +kernel

/-- The square of `x`, in the array of `x`. -/
theorem fMul_right_iff_square :
    MulRight twoPowers 0 0 0 ↔ ¬ ∃ low < 0xC9,
      ofBits (readBint twoPowers 0).number * ofBits (readBint twoPowers 0).number =
        X ^ 163 + ofBits low :=
  fMul_right_iff
    ((degree_ofBits_lt_iff _ 163).2 (by rw [number_twoPowers.1]; norm_num))
    ((degree_ofBits_lt_iff _ 163).2 (by rw [number_twoPowers.1]; norm_num)) 0

/-- **The product of `x` and `x ^ 162`** is left as `x ^ 163`. -/
theorem product_not_reduced :
    (ofBits (readBint twoPowers 0).number).degree < 163 ∧
      (ofBits (readBint twoPowers 42).number).degree < 163 ∧ ¬ MulRight twoPowers 0 42 84 := by
  obtain ⟨hone, hhigh⟩ := number_twoPowers
  refine ⟨(degree_ofBits_lt_iff _ 163).2 (by rw [hone]; norm_num),
    (degree_ofBits_lt_iff _ 163).2 (by rw [hhigh]; norm_num), ?_⟩
  refine not_mulRight (by rw [hone]; norm_num) (by rw [hhigh]; norm_num) (show 0 < 0xC9 by decide) ?_
  rw [hone, hhigh, ofBits_two_pow, ofBits_two_pow, ← pow_add, ofBits_zero, add_zero]

end Contract

end Bint

end Wiselib.Crypto
