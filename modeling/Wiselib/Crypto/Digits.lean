import Mathlib

/-!
# Arrays of digits

The digit operations of `crypto/pmp.h`.  A digit is a machine word of `w` bits
(8, 16 or 32 on the processors that the code is for) and an array a list of
digits from the lowest on; `value` is the number that it stands for.

## Strategy

`Add`, `Sub`, `AddDigitMult` and `SubDigitMult` run over their arrays with a
carry and differ in what they do with two digits only: they are one `chain`
with one equation for a sum (`value_chain_add`) and one for a difference
(`value_chain_sub`).  The tests for a carry compare the new digit with what was
added or taken off; `add_cases` and `sub_cases` say what these tests mean.

The arrays that may be the same are read, digit by digit, before they are
written at that digit, so that the operations are functions of the old digits.
`value_add_eq` and `value_sub_eq` are what the modules on the values of arrays
rest on.
-/

namespace Wiselib.Crypto.Digits

variable {w : ℕ}

/-! ## Values -/

/-- The number that an array stands for. -/
def value (digits : List (BitVec w)) : ℕ :=
  Nat.ofDigits (2 ^ w) (digits.map BitVec.toNat)

@[simp] theorem value_nil : value ([] : List (BitVec w)) = 0 := rfl

@[simp] theorem value_cons (d : BitVec w) (ds : List (BitVec w)) :
    value (d :: ds) = d.toNat + 2 ^ w * value ds := rfl

theorem value_append (low high : List (BitVec w)) :
    value (low ++ high) = value low + (2 ^ w) ^ low.length * value high := by
  unfold value
  rw [List.map_append, Nat.ofDigits_append, List.length_map]

theorem value_lt (ds : List (BitVec w)) : value ds < (2 ^ w) ^ ds.length := by
  induction ds with
  | nil => simp
  | cons d ds ih =>
      rw [value_cons, List.length_cons, pow_succ]
      have hd := d.isLt
      calc d.toNat + 2 ^ w * value ds < 2 ^ w + 2 ^ w * value ds := by omega
        _ = 2 ^ w * (value ds + 1) := by ring
        _ ≤ 2 ^ w * (2 ^ w) ^ ds.length := Nat.mul_le_mul_left _ ih
        _ = (2 ^ w) ^ ds.length * 2 ^ w := mul_comm _ _

@[simp] theorem value_replicate (n : ℕ) : value (List.replicate n (0 : BitVec w)) = 0 := by
  induction n with
  | zero => rfl
  | succ n ih => rw [List.replicate_succ, value_cons, ih]; simp

/-! ## Carries of single digits -/

@[simp] theorem toNat_zero : (0 : BitVec w).toNat = 0 := by simp

theorem toNat_one (hw : 0 < w) : (1 : BitVec w).toNat = 1 := by
  simp [Nat.mod_eq_of_lt (Nat.one_lt_two_pow hw.ne')]

theorem toNat_allOnes_sub (y : BitVec w) :
    (BitVec.allOnes w - y).toNat = 2 ^ w - 1 - y.toNat := by
  have hy := y.isLt
  rw [BitVec.toNat_sub_of_le, BitVec.toNat_allOnes]
  rw [BitVec.le_def, BitVec.toNat_allOnes]
  omega

theorem add_cases (x y : BitVec w) :
    (¬ x + y < y ∧ (x + y).toNat = x.toNat + y.toNat) ∨
      (x + y < y ∧ (x + y).toNat + 2 ^ w = x.toNat + y.toNat) := by
  have hx := x.isLt
  have hy := y.isLt
  rw [BitVec.lt_def, BitVec.toNat_add]
  by_cases hfits : x.toNat + y.toNat < 2 ^ w
  · rw [Nat.mod_eq_of_lt hfits]
    omega
  · rw [Nat.mod_eq_sub_mod (by omega), Nat.mod_eq_of_lt (by omega)]
    omega

theorem sub_cases (x y : BitVec w) :
    (¬ BitVec.allOnes w - y < x - y ∧ (x - y).toNat + y.toNat = x.toNat) ∨
      (BitVec.allOnes w - y < x - y ∧ (x - y).toNat + y.toNat = x.toNat + 2 ^ w) := by
  have hx := x.isLt
  have hy := y.isLt
  rw [BitVec.lt_def, toNat_allOnes_sub]
  rcases Nat.lt_or_ge x.toNat y.toNat with hborrow | hle
  · rw [BitVec.toNat_sub_of_lt hborrow]
    omega
  · rw [BitVec.toNat_sub_of_le hle]
    omega

/-! ## Chains of digits -/

/-- A loop over two arrays with a carry: what it leaves in the array and the
carry that it returns. -/
def chain (f : BitVec w → BitVec w → BitVec w → BitVec w × BitVec w) :
    BitVec w → List (BitVec w) → List (BitVec w) → List (BitVec w) × BitVec w
  | carry, x :: xs, y :: ys =>
      let step := f x y carry
      let rest := chain f step.2 xs ys
      (step.1 :: rest.1, rest.2)
  | carry, _, _ => ([], carry)

section Chain

variable {f : BitVec w → BitVec w → BitVec w → BitVec w × BitVec w}

@[simp] theorem length_chain (carry : BitVec w) {xs ys : List (BitVec w)}
    (hlength : xs.length = ys.length) : (chain f carry xs ys).1.length = xs.length := by
  induction xs generalizing carry ys with
  | nil => rfl
  | cons x xs ih =>
      cases ys with
      | nil => simp at hlength
      | cons y ys => simp [chain, ih _ (Nat.succ.inj hlength)]

variable {m : ℕ} {ok : BitVec w → Prop}

theorem value_chain {sign : ℤ}
    (hstep : ∀ x y carry, ok carry → ok (f x y carry).2 ∧
      ((f x y carry).1.toNat + sign * (2 ^ w * (f x y carry).2.toNat) : ℤ) =
        x.toNat + sign * (m * y.toNat + carry.toNat))
    {carry : BitVec w} (hcarry : ok carry) {xs ys : List (BitVec w)}
    (hlength : xs.length = ys.length) :
    ok (chain f carry xs ys).2 ∧
      (value (chain f carry xs ys).1 +
          sign * ((2 ^ w) ^ xs.length * (chain f carry xs ys).2.toNat) : ℤ) =
        value xs + sign * (m * value ys + carry.toNat) := by
  induction xs generalizing carry ys with
  | nil =>
      obtain rfl : ys = [] := List.eq_nil_of_length_eq_zero hlength.symm
      exact ⟨hcarry, by simp [chain]⟩
  | cons x xs ih =>
      cases ys with
      | nil => simp at hlength
      | cons y ys =>
          obtain ⟨hok, heq⟩ := hstep x y carry hcarry
          obtain ⟨hrest, hvalue⟩ := ih hok (Nat.succ.inj hlength)
          refine ⟨hrest, ?_⟩
          simp only [chain, value_cons, List.length_cons]
          generalize f x y carry = step at heq hvalue ⊢
          generalize chain f step.2 xs ys = rest at hvalue ⊢
          push_cast
          linear_combination heq + 2 ^ w * hvalue

theorem value_chain_add
    (hstep : ∀ x y carry, ok carry → ok (f x y carry).2 ∧
      (f x y carry).1.toNat + 2 ^ w * (f x y carry).2.toNat =
        x.toNat + m * y.toNat + carry.toNat)
    {carry : BitVec w} (hcarry : ok carry) {xs ys : List (BitVec w)}
    (hlength : xs.length = ys.length) :
    ok (chain f carry xs ys).2 ∧
      value (chain f carry xs ys).1 + (2 ^ w) ^ xs.length * (chain f carry xs ys).2.toNat =
        value xs + m * value ys + carry.toNat := by
  obtain ⟨hok, hvalue⟩ := @value_chain _ _ _ _ 1 (fun x y carry hcarry => by
    obtain ⟨hok, heq⟩ := hstep x y carry hcarry
    refine ⟨hok, ?_⟩
    zify at heq
    linear_combination heq) _ hcarry _ _ hlength
  refine ⟨hok, ?_⟩
  zify
  linear_combination hvalue

theorem value_chain_sub
    (hstep : ∀ x y borrow, ok borrow → ok (f x y borrow).2 ∧
      (f x y borrow).1.toNat + m * y.toNat + borrow.toNat =
        x.toNat + 2 ^ w * (f x y borrow).2.toNat)
    {borrow : BitVec w} (hborrow : ok borrow) {xs ys : List (BitVec w)}
    (hlength : xs.length = ys.length) :
    ok (chain f borrow xs ys).2 ∧
      value (chain f borrow xs ys).1 + m * value ys + borrow.toNat =
        value xs + (2 ^ w) ^ xs.length * (chain f borrow xs ys).2.toNat := by
  obtain ⟨hok, hvalue⟩ := @value_chain _ _ _ _ (-1) (fun x y borrow hborrow => by
    obtain ⟨hok, heq⟩ := hstep x y borrow hborrow
    refine ⟨hok, ?_⟩
    zify at heq
    linear_combination heq) _ hborrow _ _ hlength
  refine ⟨hok, ?_⟩
  zify
  linear_combination hvalue

end Chain

/-! ## The operations on digits -/

/-- The body of the loop of `Add`. -/
def addDigit (b c carry : BitVec w) : BitVec w × BitVec w :=
  if b + carry < carry then (c, carry)
  else (b + carry + c, if b + carry + c < c then 1 else 0)

/-- `Add`. -/
def add (b c : List (BitVec w)) : List (BitVec w) × BitVec w :=
  chain addDigit 0 b c

/-- The body of the loop of `Sub`. -/
def subDigit (b c borrow : BitVec w) : BitVec w × BitVec w :=
  if BitVec.allOnes w - borrow < b - borrow then (BitVec.allOnes w - c, borrow)
  else (b - borrow - c, if BitVec.allOnes w - c < b - borrow - c then 1 else 0)

/-- `Sub`. -/
def sub (b c : List (BitVec w)) : List (BitVec w) × BitVec w :=
  chain subDigit 0 b c

/-- The body of the loop of `AddDigitMult`.  A double digit holds the product. -/
def addDigitMultDigit (c b d carry : BitVec w) : BitVec w × BitVec w :=
  let t := c.toNat * d.toNat
  let low := BitVec.ofNat w t
  let carry' : BitVec w := if b + carry < carry then 1 else 0
  let carry' := if b + carry + low < low then carry' + 1 else carry'
  (b + carry + low, carry' + BitVec.ofNat w (t >>> w))

/-- `AddDigitMult` with the result in `a`, which is left as it is if `c` is zero. -/
def addDigitMult (a b : List (BitVec w)) (c : BitVec w) (d : List (BitVec w)) :
    List (BitVec w) × BitVec w :=
  if c = 0 then (a, 0) else chain (addDigitMultDigit c) 0 b d

/-- The body of the loop of `SubDigitMult`. -/
def subDigitMultDigit (c b d borrow : BitVec w) : BitVec w × BitVec w :=
  let t := c.toNat * d.toNat
  let low := BitVec.ofNat w t
  let borrow' : BitVec w := if BitVec.allOnes w - borrow < b - borrow then 1 else 0
  let borrow' := if BitVec.allOnes w - low < b - borrow - low then borrow' + 1 else borrow'
  (b - borrow - low, borrow' + BitVec.ofNat w (t >>> w))

/-- `SubDigitMult` with the result in `a`, which is left as it is if `c` is zero. -/
def subDigitMult (a b : List (BitVec w)) (c : BitVec w) (d : List (BitVec w)) :
    List (BitVec w) × BitVec w :=
  if c = 0 then (a, 0) else chain (subDigitMultDigit c) 0 b d

section Operations

variable {b c d : List (BitVec w)}

theorem addDigit_spec (hw : 0 < w) (b c carry : BitVec w) (hcarry : carry.toNat ≤ 1) :
    (addDigit b c carry).2.toNat ≤ 1 ∧
      (addDigit b c carry).1.toNat + 2 ^ w * (addDigit b c carry).2.toNat =
        b.toNat + 1 * c.toNat + carry.toNat := by
  have hone := toNat_one hw
  unfold addDigit
  rcases add_cases b carry with ⟨hfits, heq⟩ | ⟨hcarries, heq⟩
  · rw [if_neg hfits]
    rcases add_cases (b + carry) c with ⟨hfits', heq'⟩ | ⟨hcarries', heq'⟩
    · simp only [if_neg hfits', toNat_zero]
      omega
    · simp only [if_pos hcarries', hone]
      omega
  · -- the sum with the carry wraps to zero, so that the carry stays one
    have hb := b.isLt
    have hcarry' : carry.toNat = 1 := by omega
    simp only [if_pos hcarries, hcarry']
    omega

/-- **`Add` loses no carry.** -/
theorem value_add (hw : 0 < w) (hlength : b.length = c.length) :
    (add b c).2.toNat ≤ 1 ∧
      value (add b c).1 + (2 ^ w) ^ b.length * (add b c).2.toNat = value b + value c := by
  have hzero : (0 : BitVec w).toNat ≤ 1 := by simp
  have hchain := value_chain_add (addDigit_spec hw) hzero hlength
  rwa [one_mul, toNat_zero, Nat.add_zero] at hchain

theorem subDigit_spec (hw : 0 < w) (b c borrow : BitVec w) (hborrow : borrow.toNat ≤ 1) :
    (subDigit b c borrow).2.toNat ≤ 1 ∧
      (subDigit b c borrow).1.toNat + 1 * c.toNat + borrow.toNat =
        b.toNat + 2 ^ w * (subDigit b c borrow).2.toNat := by
  have hone := toNat_one hw
  have hc := c.isLt
  unfold subDigit
  rcases sub_cases b borrow with ⟨hfits, heq⟩ | ⟨hborrows, heq⟩
  · rw [if_neg hfits]
    rcases sub_cases (b - borrow) c with ⟨hfits', heq'⟩ | ⟨hborrows', heq'⟩
    · simp only [if_neg hfits', toNat_zero]
      omega
    · simp only [if_pos hborrows', hone]
      omega
  · -- nothing is left for the borrow, so that the digit is taken off the largest one
    have hlt := (b - borrow).isLt
    have hborrow' : borrow.toNat = 1 := by omega
    simp only [if_pos hborrows, hborrow', toNat_allOnes_sub]
    omega

/-- **`Sub` loses no borrow.** -/
theorem value_sub (hw : 0 < w) (hlength : b.length = c.length) :
    (sub b c).2.toNat ≤ 1 ∧
      value (sub b c).1 + value c = value b + (2 ^ w) ^ b.length * (sub b c).2.toNat := by
  have hzero : (0 : BitVec w).toNat ≤ 1 := by simp
  have hchain := value_chain_sub (subDigit_spec hw) hzero hlength
  rwa [one_mul, toNat_zero, Nat.add_zero] at hchain

theorem halves (c d : BitVec w) :
    (BitVec.ofNat w (c.toNat * d.toNat)).toNat +
        2 ^ w * (BitVec.ofNat w ((c.toNat * d.toNat) >>> w)).toNat = c.toNat * d.toNat := by
  have hupper : (c.toNat * d.toNat) / 2 ^ w < 2 ^ w := by
    rw [Nat.div_lt_iff_lt_mul (by positivity)]
    exact Nat.mul_lt_mul'' c.isLt d.isLt
  rw [BitVec.toNat_ofNat, BitVec.toNat_ofNat, Nat.shiftRight_eq_div_pow, Nat.mod_eq_of_lt hupper]
  exact Nat.mod_add_div _ _

theorem product_le (c d : BitVec w) : c.toNat * d.toNat + 2 * (2 ^ w - 1) < 2 ^ w * 2 ^ w := by
  have hpos : 0 < 2 ^ w := by positivity
  obtain ⟨B, hB⟩ : ∃ B, 2 ^ w = B + 1 := ⟨2 ^ w - 1, by omega⟩
  have hc : c.toNat ≤ B := by have := c.isLt; omega
  have hd : d.toNat ≤ B := by have := d.isLt; omega
  rw [hB]
  calc c.toNat * d.toNat + 2 * (B + 1 - 1) ≤ B * B + 2 * B :=
        Nat.add_le_add (Nat.mul_le_mul hc hd) (by omega)
    _ < (B + 1) * (B + 1) := by ring_nf; omega

theorem addDigitMultDigit_spec (c b d carry : BitVec w) :
    (addDigitMultDigit c b d carry).1.toNat + 2 ^ w * (addDigitMultDigit c b d carry).2.toNat =
      b.toNat + c.toNat * d.toNat + carry.toNat := by
  have hhalves := halves c d
  have hbound := product_le c d
  have hb := b.isLt
  have hcarry := carry.isLt
  unfold addDigitMultDigit
  dsimp only
  generalize BitVec.ofNat w (c.toNat * d.toNat) = low at hhalves ⊢
  generalize BitVec.ofNat w ((c.toNat * d.toNat) >>> w) = high at hhalves ⊢
  -- the carries of the two sums add up to `count`
  have hcount : ∀ count : ℕ, ∀ carry' : BitVec w,
      (count < 2 ^ w → carry'.toNat = count) →
      (b + carry + low).toNat + 2 ^ w * count = b.toNat + carry.toNat + low.toNat →
      (b + carry + low).toNat + 2 ^ w * (carry' + high).toNat =
        b.toNat + c.toNat * d.toNat + carry.toNat := by
    intro count carry' hcarry' hsum
    have hfits : count + high.toNat < 2 ^ w := by
      refine Nat.lt_of_mul_lt_mul_left (a := 2 ^ w) ?_
      rw [mul_add]
      omega
    rw [BitVec.toNat_add carry', hcarry' (by omega), Nat.mod_eq_of_lt hfits, mul_add]
    omega
  rcases add_cases b carry with ⟨hfirst, heq⟩ | ⟨hfirst, heq⟩ <;>
    rcases add_cases (b + carry) low with ⟨hsecond, heq'⟩ | ⟨hsecond, heq'⟩
  · rw [if_neg hfirst, if_neg hsecond]
    exact hcount 0 _ (fun _ => by simp) (by omega)
  · rw [if_neg hfirst, if_pos hsecond]
    exact hcount 1 _ (fun h => by simp [Nat.mod_eq_of_lt h]) (by omega)
  · rw [if_pos hfirst, if_neg hsecond]
    exact hcount 1 _ (fun h => by simp [Nat.mod_eq_of_lt h]) (by omega)
  · rw [if_pos hfirst, if_pos hsecond]
    exact hcount 2 _ (fun h => by simp [Nat.mod_eq_of_lt h]) (by omega)

/-- **`AddDigitMult` loses no carry.** -/
theorem value_addDigitMult (b : List (BitVec w)) (c : BitVec w) {d : List (BitVec w)}
    (hlength : b.length = d.length) :
    value (addDigitMult b b c d).1 + (2 ^ w) ^ b.length * (addDigitMult b b c d).2.toNat =
      value b + c.toNat * value d := by
  unfold addDigitMult
  split_ifs with hc
  · subst hc
    simp
  · have hstep : ∀ x y carry, True → True ∧ _ := fun x y carry _ =>
      ⟨trivial, addDigitMultDigit_spec c x y carry⟩
    obtain ⟨-, hchain⟩ := @value_chain_add _ _ _ (fun _ => True) hstep 0 trivial _ _ hlength
    rwa [toNat_zero, Nat.add_zero] at hchain

/-- Steps of `SubDigitMult` return what they took too much. -/
theorem subDigitMultDigit_spec (c b d borrow : BitVec w) :
    (subDigitMultDigit c b d borrow).1.toNat + c.toNat * d.toNat + borrow.toNat =
      b.toNat + 2 ^ w * (subDigitMultDigit c b d borrow).2.toNat := by
  have hhalves := halves c d
  have hbound := product_le c d
  have hborrow := borrow.isLt
  have hresult := (b - borrow - BitVec.ofNat w (c.toNat * d.toNat)).isLt
  unfold subDigitMultDigit
  dsimp only
  generalize BitVec.ofNat w (c.toNat * d.toNat) = low at hhalves hresult ⊢
  generalize BitVec.ofNat w ((c.toNat * d.toNat) >>> w) = high at hhalves ⊢
  -- the borrows of the two differences add up to `count`
  have hcount : ∀ count : ℕ, ∀ borrow' : BitVec w,
      (count < 2 ^ w → borrow'.toNat = count) →
      (b - borrow - low).toNat + borrow.toNat + low.toNat = b.toNat + 2 ^ w * count →
      (b - borrow - low).toNat + c.toNat * d.toNat + borrow.toNat =
        b.toNat + 2 ^ w * (borrow' + high).toNat := by
    intro count borrow' hborrow' hdifference
    have hfits : count + high.toNat < 2 ^ w := by
      refine Nat.lt_of_mul_lt_mul_left (a := 2 ^ w) ?_
      rw [mul_add]
      omega
    rw [BitVec.toNat_add borrow', hborrow' (by omega), Nat.mod_eq_of_lt hfits, mul_add]
    omega
  rcases sub_cases b borrow with ⟨hfirst, heq⟩ | ⟨hfirst, heq⟩ <;>
    rcases sub_cases (b - borrow) low with ⟨hsecond, heq'⟩ | ⟨hsecond, heq'⟩
  · rw [if_neg hfirst, if_neg hsecond]
    exact hcount 0 _ (fun _ => by simp) (by omega)
  · rw [if_neg hfirst, if_pos hsecond]
    exact hcount 1 _ (fun h => by simp [Nat.mod_eq_of_lt h]) (by omega)
  · rw [if_pos hfirst, if_neg hsecond]
    exact hcount 1 _ (fun h => by simp [Nat.mod_eq_of_lt h]) (by omega)
  · rw [if_pos hfirst, if_pos hsecond]
    exact hcount 2 _ (fun h => by simp [Nat.mod_eq_of_lt h]) (by omega)

/-- **`SubDigitMult` loses no borrow.** -/
theorem value_subDigitMult (b : List (BitVec w)) (c : BitVec w) {d : List (BitVec w)}
    (hlength : b.length = d.length) :
    value (subDigitMult b b c d).1 + c.toNat * value d =
      value b + (2 ^ w) ^ b.length * (subDigitMult b b c d).2.toNat := by
  unfold subDigitMult
  split_ifs with hc
  · subst hc
    simp
  · have hstep : ∀ x y borrow, True → True ∧ _ := fun x y borrow _ =>
      ⟨trivial, subDigitMultDigit_spec c x y borrow⟩
    obtain ⟨-, hchain⟩ := @value_chain_sub _ _ _ (fun _ => True) hstep 0 trivial _ _ hlength
    rwa [toNat_zero, Nat.add_zero] at hchain

end Operations

/-! ## Shifts -/

/-- The loop of `LShift`. -/
def lShiftLoop (c : ℕ) : BitVec w → List (BitVec w) → List (BitVec w) × BitVec w
  | carry, [] => ([], carry)
  | carry, bi :: bs =>
      let rest := lShiftLoop c (if c ≠ 0 then bi >>> (w - c) else 0) bs
      ((bi <<< c ||| carry) :: rest.1, rest.2)

/-- `LShift` with the result in `a`, which is left as it is by too large a shift. -/
def lShift (a b : List (BitVec w)) (c : ℕ) : List (BitVec w) × BitVec w :=
  if w ≤ c then (a, 0) else lShiftLoop c 0 b

/-- The loop of `RShift`, which starts at the highest digit. -/
def rShiftLoop (c : ℕ) : List (BitVec w) → List (BitVec w) × BitVec w
  | [] => ([], 0)
  | bi :: bs =>
      let rest := rShiftLoop c bs
      ((bi >>> c ||| rest.2) :: rest.1, if c ≠ 0 then bi <<< (w - c) else 0)

/-- `RShift` with the result in `a`, which is left as it is by too large a shift. -/
def rShift (a b : List (BitVec w)) (c : ℕ) : List (BitVec w) × BitVec w :=
  if w ≤ c then (a, 0) else rShiftLoop c b

section Shifts

variable {c : ℕ}

@[simp] theorem length_lShiftLoop (carry : BitVec w) (b : List (BitVec w)) :
    (lShiftLoop c carry b).1.length = b.length := by
  induction b generalizing carry with
  | nil => rfl
  | cons bi bs ih => simp [lShiftLoop, ih]

@[simp] theorem length_rShiftLoop (b : List (BitVec w)) :
    (rShiftLoop c b).1.length = b.length := by
  induction b with
  | nil => rfl
  | cons bi bs ih => simp [rShiftLoop, ih]

theorem toNat_carry (hc : c < w) (bi : BitVec w) :
    (if c ≠ 0 then bi >>> (w - c) else 0 : BitVec w).toNat = bi.toNat / 2 ^ (w - c) := by
  split_ifs with hzero
  · rw [BitVec.toNat_ushiftRight, Nat.shiftRight_eq_div_pow]
  · obtain rfl : c = 0 := not_not.1 hzero
    rw [toNat_zero, Nat.sub_zero, Nat.div_eq_of_lt bi.isLt]

theorem toNat_shiftLeft_or (hc : c < w) (bi : BitVec w) {carry : BitVec w}
    (hcarry : carry.toNat < 2 ^ c) :
    (bi <<< c ||| carry).toNat = 2 ^ c * (bi.toNat % 2 ^ (w - c)) + carry.toNat := by
  have hpow : 2 ^ w = 2 ^ c * 2 ^ (w - c) := by rw [← pow_add]; congr 1; omega
  rw [BitVec.toNat_or, BitVec.toNat_shiftLeft, Nat.shiftLeft_eq, mul_comm bi.toNat, hpow,
    Nat.mul_mod_mul_left, Nat.two_pow_add_eq_or_of_lt hcarry]

/-- **`LShift` loses no bit.** -/
theorem value_lShiftLoop (hc : c < w) {carry : BitVec w} (hcarry : carry.toNat < 2 ^ c)
    (b : List (BitVec w)) :
    value (lShiftLoop c carry b).1 + (2 ^ w) ^ b.length * (lShiftLoop c carry b).2.toNat =
      2 ^ c * value b + carry.toNat := by
  have hpow : 2 ^ w = 2 ^ c * 2 ^ (w - c) := by rw [← pow_add]; congr 1; omega
  induction b generalizing carry with
  | nil => simp [lShiftLoop]
  | cons bi bs ih =>
      have hnext := toNat_carry hc bi
      have hsmall : (if c ≠ 0 then bi >>> (w - c) else 0 : BitVec w).toNat < 2 ^ c := by
        rw [hnext, Nat.div_lt_iff_lt_mul (by positivity), ← hpow]
        exact bi.isLt
      have hrest := ih hsmall
      rw [hnext] at hrest
      simp only [lShiftLoop, value_cons, List.length_cons, toNat_shiftLeft_or hc bi hcarry]
      generalize lShiftLoop c (if c ≠ 0 then bi >>> (w - c) else 0 : BitVec w) bs = rest at hrest ⊢
      calc 2 ^ c * (bi.toNat % 2 ^ (w - c)) + carry.toNat + 2 ^ w * value rest.1 +
            (2 ^ w) ^ (bs.length + 1) * rest.2.toNat
          = 2 ^ c * (bi.toNat % 2 ^ (w - c)) + carry.toNat +
              2 ^ w * (value rest.1 + (2 ^ w) ^ bs.length * rest.2.toNat) := by ring
        _ = 2 ^ c * (2 ^ (w - c) * (bi.toNat / 2 ^ (w - c)) + bi.toNat % 2 ^ (w - c)) +
              2 ^ c * (2 ^ w * value bs) + carry.toNat := by
            rw [hrest]
            conv_lhs => rw [mul_add, hpow]
            conv_rhs => rw [hpow]
            ring
        _ = 2 ^ c * (bi.toNat + 2 ^ w * value bs) + carry.toNat := by
            rw [Nat.div_add_mod]
            ring

/-- **`RShift` divides** by a power of two, and returns the remainder in the
highest bits of a digit. -/
theorem value_rShiftLoop (hc : c < w) (b : List (BitVec w)) :
    value (rShiftLoop c b).1 = value b / 2 ^ c ∧
      (rShiftLoop c b).2.toNat = 2 ^ (w - c) * (value b % 2 ^ c) := by
  have hpow : 2 ^ w = 2 ^ c * 2 ^ (w - c) := by rw [← pow_add]; congr 1; omega
  have hpos : 0 < 2 ^ c := by positivity
  induction b with
  | nil => simp [rShiftLoop]
  | cons bi bs ih =>
      obtain ⟨hvalue, hcarry⟩ := ih
      have hdigit : bi.toNat / 2 ^ c < 2 ^ (w - c) := by
        rw [Nat.div_lt_iff_lt_mul hpos, mul_comm, ← hpow]
        exact bi.isLt
      simp only [rShiftLoop, value_cons]
      constructor
      · rw [BitVec.toNat_or, BitVec.toNat_ushiftRight, Nat.shiftRight_eq_div_pow, hcarry, Nat.or_comm,
          ← Nat.two_pow_add_eq_or_of_lt hdigit, hvalue]
        have hsplit := Nat.div_add_mod (value bs) (2 ^ c)
        calc 2 ^ (w - c) * (value bs % 2 ^ c) + bi.toNat / 2 ^ c + 2 ^ w * (value bs / 2 ^ c)
            = bi.toNat / 2 ^ c +
                2 ^ (w - c) * (2 ^ c * (value bs / 2 ^ c) + value bs % 2 ^ c) := by
              conv_lhs => rw [hpow]
              ring
          _ = (bi.toNat + 2 ^ c * (2 ^ (w - c) * value bs)) / 2 ^ c := by
              rw [hsplit, Nat.add_mul_div_left _ _ hpos]
          _ = (bi.toNat + 2 ^ w * value bs) / 2 ^ c := by rw [hpow, mul_assoc]
      · have hmod : (bi.toNat + 2 ^ w * value bs) % 2 ^ c = bi.toNat % 2 ^ c := by
          rw [hpow, mul_assoc, Nat.add_mul_mod_self_left]
        rw [hmod]
        split_ifs with hzero
        · rw [BitVec.toNat_shiftLeft, Nat.shiftLeft_eq, mul_comm, hpow, mul_comm (2 ^ c),
            Nat.mul_mod_mul_left]
        · obtain rfl : c = 0 := not_not.1 hzero
          simp [Nat.mod_one]

end Shifts

/-- No operation on digits loses a carry, a borrow or a bit. -/
structure Lossless (w : ℕ) : Prop where
  add : ∀ b c : List (BitVec w), b.length = c.length →
    value (add b c).1 + (2 ^ w) ^ b.length * (add b c).2.toNat = value b + value c
  sub : ∀ b c : List (BitVec w), b.length = c.length →
    value (sub b c).1 + value c = value b + (2 ^ w) ^ b.length * (sub b c).2.toNat
  addDigitMult : ∀ (b : List (BitVec w)) (c : BitVec w) (d : List (BitVec w)),
    b.length = d.length →
      value (addDigitMult b b c d).1 + (2 ^ w) ^ b.length * (addDigitMult b b c d).2.toNat =
        value b + c.toNat * value d
  subDigitMult : ∀ (b : List (BitVec w)) (c : BitVec w) (d : List (BitVec w)),
    b.length = d.length →
      value (subDigitMult b b c d).1 + c.toNat * value d =
        value b + (2 ^ w) ^ b.length * (subDigitMult b b c d).2.toNat
  lShift : ∀ (b : List (BitVec w)) (c : ℕ), c < w →
    value (lShift b b c).1 + (2 ^ w) ^ b.length * (lShift b b c).2.toNat = 2 ^ c * value b

theorem lossless (hw : 0 < w) : Lossless w where
  add _ _ hlength := (value_add hw hlength).2
  sub _ _ hlength := (value_sub hw hlength).2
  addDigitMult b c _ hlength := value_addDigitMult b c hlength
  subDigitMult b c _ hlength := value_subDigitMult b c hlength
  lShift b c hc := by
    have hzero : (0 : BitVec w).toNat < 2 ^ c := by simp
    rw [Digits.lShift, if_neg (not_le.2 hc), value_lShiftLoop hc hzero b, toNat_zero, Nat.add_zero]

/-! ## Lengths and comparisons -/

/-- The loop of `Digits`, from the highest of `i` digits. -/
def digitsLoop (a : List (BitVec w)) : ℕ → ℕ
  | 0 => 0
  | i + 1 => if a.getD i 0 ≠ 0 then i + 1 else digitsLoop a i

/-- `Digits`. -/
def digits (a : List (BitVec w)) : ℕ :=
  digitsLoop a a.length

/-- The loop of `Cmp`, from the highest of `i` digits. -/
def cmpLoop (a b : List (BitVec w)) : ℕ → ℤ
  | 0 => 0
  | i + 1 =>
      if b.getD i 0 < a.getD i 0 then 1
      else if a.getD i 0 < b.getD i 0 then -1
      else cmpLoop a b i

/-- `Cmp`. -/
def cmp (a b : List (BitVec w)) : ℤ :=
  cmpLoop a b a.length

/-- The loop of `DigitBits` with `rest` rounds to go. -/
def digitBitsLoop : ℕ → ℕ → BitVec w → ℕ
  | 0, i, _ => i
  | rest + 1, i, a => if a = 0 then i else digitBitsLoop rest (i + 1) (a >>> 1)

/-- `DigitBits`. -/
def digitBits (a : BitVec w) : ℕ :=
  digitBitsLoop w 0 a

section Lengths

variable {a b : List (BitVec w)}

theorem value_take_succ {n : ℕ} (hn : n < a.length) :
    value (a.take (n + 1)) = value (a.take n) + (2 ^ w) ^ n * (a.getD n 0).toNat := by
  have hsplit : a.take (n + 1) = a.take n ++ [a.getD n 0] := by
    rw [List.take_succ_eq_append_getElem hn, List.getD_eq_getElem _ _ hn]
  rw [hsplit, value_append, List.length_take, Nat.min_eq_left hn.le]
  simp

theorem digitsLoop_spec {n : ℕ} (hn : n ≤ a.length) :
    digitsLoop a n ≤ n ∧ value (a.take (digitsLoop a n)) = value (a.take n) ∧
      (digitsLoop a n ≠ 0 → a.getD (digitsLoop a n - 1) 0 ≠ 0) := by
  induction n with
  | zero => simp [digitsLoop]
  | succ n ih =>
      unfold digitsLoop
      split_ifs with htop
      · exact ⟨le_refl _, rfl, fun _ => htop⟩
      · obtain ⟨hle, hvalue, hnonzero⟩ := ih (by omega)
        refine ⟨by omega, ?_, hnonzero⟩
        rw [hvalue, value_take_succ hn, not_not.1 htop]
        simp

/-- **`Digits`** leaves out zeros only, and ends at a digit that is not zero. -/
theorem digits_spec (a : List (BitVec w)) :
    digits a ≤ a.length ∧ value (a.take (digits a)) = value a ∧
      (digits a ≠ 0 → a.getD (digits a - 1) 0 ≠ 0) := by
  obtain ⟨hle, hvalue, hnonzero⟩ := digitsLoop_spec (le_refl a.length)
  rw [List.take_length] at hvalue
  exact ⟨hle, hvalue, hnonzero⟩

theorem pow_le_value {n : ℕ} (hn : n < a.length) (htop : a.getD n 0 ≠ 0) :
    (2 ^ w) ^ n ≤ value (a.take (n + 1)) := by
  have hpos : 0 < (a.getD n 0).toNat := by
    rw [Nat.pos_iff_ne_zero]
    exact fun hzero => htop (BitVec.eq_of_toNat_eq (by simpa using hzero))
  rw [value_take_succ hn]
  exact (Nat.le_mul_of_pos_right _ hpos).trans (Nat.le_add_left _ _)

theorem cmpLoop_spec {n : ℕ} (ha : n ≤ a.length) (hb : n ≤ b.length) :
    0 ≤ cmpLoop a b n ↔ value (b.take n) ≤ value (a.take n) := by
  induction n with
  | zero => simp [cmpLoop]
  | succ n ih =>
      have hlower : ∀ {ds : List (BitVec w)}, n + 1 ≤ ds.length →
          value (ds.take n) < (2 ^ w) ^ n := by
        intro ds hds
        have hlt := value_lt (ds.take n)
        rwa [List.length_take, Nat.min_eq_left (by omega)] at hlt
      have hla := hlower ha
      have hlb := hlower hb
      -- a difference in the highest digit outweighs all digits below
      have hcarry : ∀ x y : ℕ, x < y → (2 ^ w) ^ n * x + (2 ^ w) ^ n ≤ (2 ^ w) ^ n * y := by
        intro x y hxy
        calc (2 ^ w) ^ n * x + (2 ^ w) ^ n = (2 ^ w) ^ n * (x + 1) := by ring
          _ ≤ (2 ^ w) ^ n * y := Nat.mul_le_mul_left _ hxy
      rw [value_take_succ ha, value_take_succ hb]
      unfold cmpLoop
      split_ifs with hgt hlt
      · have hstep := hcarry _ _ (BitVec.lt_def.1 hgt)
        simp only [zero_le_one, true_iff]
        omega
      · have hstep := hcarry _ _ (BitVec.lt_def.1 hlt)
        constructor
        · intro habsurd
          omega
        · intro hle
          omega
      · have heq : (a.getD n 0).toNat = (b.getD n 0).toNat := by
          rw [BitVec.lt_def] at hgt hlt
          omega
        rw [ih (by omega) (by omega), heq]
        omega

/-- **`Cmp`** compares the values. -/
theorem cmp_nonneg (hlength : a.length = b.length) : 0 ≤ cmp a b ↔ value b ≤ value a := by
  have hspec := cmpLoop_spec (le_refl a.length) hlength.le
  rw [List.take_length] at hspec
  conv_rhs at hspec => rw [hlength, List.take_length]
  exact hspec

theorem digitBitsLoop_spec {rest i : ℕ} {a : BitVec w} (ha : a.toNat < 2 ^ rest) :
    digitBitsLoop rest i a = i + a.toNat.size := by
  induction rest generalizing i a with
  | zero =>
      have hzero : a.toNat = 0 := by simpa using ha
      simp [digitBitsLoop, hzero]
  | succ rest ih =>
      unfold digitBitsLoop
      split_ifs with hzero
      · simp [hzero]
      · have hhalf : (a >>> 1).toNat = a.toNat / 2 := by
          rw [BitVec.toNat_ushiftRight, Nat.shiftRight_eq_div_pow, pow_one]
        have hpos : a.toNat ≠ 0 := fun h => hzero (BitVec.eq_of_toNat_eq (by simpa using h))
        have hsize : a.toNat.size = (a.toNat / 2).size + 1 := by
          conv_lhs => rw [← Nat.bit_bodd_div2 a.toNat]
          rw [Nat.size_bit (by rwa [Nat.bit_bodd_div2]), Nat.div2_val]
        rw [ih (by rw [hhalf]; omega), hhalf, hsize]
        omega

/-- **`DigitBits`** is the length of a digit in bits. -/
theorem digitBits_eq (a : BitVec w) : digitBits a = a.toNat.size := by
  rw [digitBits, digitBitsLoop_spec a.isLt, Nat.zero_add]

end Lengths

/-! ## Memory -/

/-- The digits at the addresses that pointers lead to. -/
abbrev Memory (w : ℕ) := ℕ → BitVec w

/-- The array of `n` digits at an address. -/
def read (memory : Memory w) (p n : ℕ) : List (BitVec w) :=
  (List.range n).map fun k => memory (p + k)

/-- Writes an array to an address. -/
def write (memory : Memory w) (p : ℕ) (ds : List (BitVec w)) : Memory w :=
  fun k => if p ≤ k ∧ k < p + ds.length then ds.getD (k - p) 0 else memory k

section Memories

variable (memory : Memory w) {p q n : ℕ} {ds : List (BitVec w)}

@[simp] theorem length_read : (read memory p n).length = n := by
  simp [read]

theorem write_outside {k : ℕ} (hk : k < p ∨ p + ds.length ≤ k) : write memory p ds k = memory k := by
  unfold write
  rw [if_neg (by omega)]

theorem read_write (hn : ds.length ≤ n) :
    read (write memory p ds) p n = ds ++ read memory (p + ds.length) (n - ds.length) := by
  refine List.ext_getElem (by simp [read]; omega) fun k hk _ => ?_
  rw [length_read] at hk
  simp only [read, List.getElem_map, List.getElem_range, List.getElem_append]
  split_ifs with hlt
  · rw [write, if_pos (by omega), Nat.add_sub_cancel_left, List.getD_eq_getElem _ _ hlt]
  · rw [write_outside _ (by omega)]
    congr 1
    omega

theorem read_write_of_disjoint (hdisjoint : ∀ i < n, ∀ j < ds.length, p + i ≠ q + j) :
    read (write memory q ds) p n = read memory p n := by
  unfold read
  refine List.map_congr_left fun k hk => write_outside _ ?_
  by_contra hinside
  exact hdisjoint k (List.mem_range.1 hk) (p + k - q) (by omega) (by omega)

theorem value_read_write_cleared (hn : ds.length ≤ n) :
    value (read (write (write memory p (List.replicate n 0)) p ds) p n) = value ds := by
  have hzero : read (write memory p (List.replicate n 0)) (p + ds.length) (n - ds.length) =
      List.replicate (n - ds.length) 0 := by
    refine List.ext_getElem (by simp) fun k hk _ => ?_
    rw [length_read] at hk
    simp only [read, List.getElem_map, List.getElem_range, List.getElem_replicate]
    rw [write, if_pos (by simp; omega)]
    simp
  rw [read_write _ hn, hzero, value_append, value_replicate, Nat.mul_zero, Nat.add_zero]

theorem write_write (last : BitVec w) :
    write (write memory (p + ds.length) [last]) p ds = write memory p (ds ++ [last]) := by
  funext k
  simp only [write, List.length_append, List.length_singleton]
  by_cases hlow : p ≤ k ∧ k < p + ds.length
  · rw [if_pos hlow, if_pos (by omega), List.getD_append _ _ _ _ (by omega)]
  · rw [if_neg hlow]
    by_cases hlast : k = p + ds.length
    · subst hlast
      simp
    · rw [if_neg (by omega), if_neg (by omega)]

end Memories

end Wiselib.Crypto.Digits
