import Wiselib.Crypto.Digits

/-!
# Division and multiplication of arrays of digits

`Div` and `Mult` of `crypto/pmp.h`.  `Div` divides digit by digit from the
highest on.  It shifts both numbers so that the highest digit `t` of the divisor
has its highest bit, underestimates a digit of the quotient by dividing two
digits by `t + 1`, and takes the divisor off until the rest is smaller.

## Strategy

One round looks at a window of the dividend, as many digits as the divisor has,
and at the digit `top` above it.  The rest of the rounds before is smaller than
the divisor, so window and `top` are smaller than the divisor with another
digit below (`Partial.Started`).  That bounds the digit of the quotient in
every state of the round: estimate and correction stay in one digit, and what
is taken off never exceeds what is there.

`exact` is no variable of the code.  It records whether every digit so far held
its quotient and every `top` its borrow.
-/

namespace Wiselib.Crypto.Digits

variable {w : ℕ}

/-! ## One digit of the quotient -/

/-- `DigitDiv` in a double digit. -/
def digitDiv (b0 b1 c : BitVec w) : ℕ :=
  ((b1.toNat <<< w) ^^^ b0.toNat) / c.toNat

/-- The variables of one round of `Div`: the digit of the quotient, the digits
of `cc` below the divisor and the one above them. -/
structure Partial (w : ℕ) where
  ai : BitVec w
  window : List (BitVec w)
  top : BitVec w
  exact : Bool

/-- The underestimated digit, subtracted. -/
def estimate (dd window : List (BitVec w)) (top : BitVec w) : Partial w :=
  let t := dd.getD (dd.length - 1) 0
  let quotient :=
    if t = BitVec.allOnes w then top.toNat
    else digitDiv (window.getD (dd.length - 1) 0) top (t + 1)
  let ai := BitVec.ofNat w quotient
  let taken := subDigitMult window window ai dd
  ⟨ai, taken.1, top - taken.2, decide (quotient < 2 ^ w) && decide (taken.2 ≤ top)⟩

/-- The body of the loop that corrects the estimate. -/
def Partial.next (dd : List (BitVec w)) (p : Partial w) : Partial w :=
  let taken := sub p.window dd
  ⟨p.ai + 1, taken.1, p.top - taken.2,
    p.exact && decide (p.ai ≠ BitVec.allOnes w) && decide (taken.2 ≤ p.top)⟩

/-- The loop that corrects the estimate. -/
def correct (dd : List (BitVec w)) : ℕ → Partial w → Option (Partial w)
  | 0, _ => none
  | fuel + 1, p =>
      if p.top ≠ 0 ∨ 0 ≤ cmp p.window dd then correct dd fuel (p.next dd) else some p

namespace Partial

/-- What is left of the dividend in a round. -/
def remaining (p : Partial w) : ℕ :=
  value p.window + (2 ^ w) ^ p.window.length * p.top.toNat

/-- A round that has divided `dividend`, as far as it got. -/
structure Started (dd : List (BitVec w)) (dividend : ℕ) (p : Partial w) : Prop where
  length_eq : p.window.length = dd.length
  value_eq : p.ai.toNat * value dd + p.remaining = dividend
  exact_eq : p.exact = true

variable {dd : List (BitVec w)} {dividend : ℕ} {p : Partial w}

theorem correct_iff (hlength : p.window.length = dd.length) :
    p.top ≠ 0 ∨ 0 ≤ cmp p.window dd ↔ value dd ≤ p.remaining := by
  unfold remaining
  rw [cmp_nonneg hlength, hlength]
  by_cases htop : p.top = 0
  · simp [htop]
  · have hpos : 1 ≤ p.top.toNat := by
      rw [Nat.one_le_iff_ne_zero]
      exact fun hzero => htop (BitVec.eq_of_toNat_eq (by simpa using hzero))
    have hlt := value_lt dd
    have hle := Nat.le_mul_of_pos_right ((2 ^ w) ^ dd.length) hpos
    simp only [ne_eq, htop, not_false_eq_true, true_or, true_iff]
    omega

/-- **One correction** takes the divisor off once more. -/
theorem Started.next (hw : 0 < w) (hstarted : Started dd dividend p)
    (hbound : dividend < 2 ^ w * value dd) (hle : value dd ≤ p.remaining) :
    Started dd dividend (p.next dd) ∧ (p.next dd).remaining + value dd = p.remaining := by
  obtain ⟨hlength, hvalue, hexact⟩ := hstarted
  obtain ⟨hborrow, htaken⟩ := value_sub hw hlength
  have hlength' : (sub p.window dd).1.length = dd.length := by
    rw [sub, length_chain _ hlength, hlength]
  have hnew := value_lt (sub p.window dd).1
  have hold := hle
  rw [remaining] at hold
  rw [hlength'] at hnew
  rw [hlength] at htaken hold
  unfold Partial.next
  dsimp only
  generalize sub p.window dd = taken at *
  have hone := toNat_one hw
  -- a borrow comes out of a digit above
  have hfits : taken.2 ≤ p.top := by
    rw [BitVec.le_def]
    by_contra hlt
    have hzero : p.top.toNat = 0 := by omega
    have hborrows : taken.2.toNat = 1 := by omega
    rw [hzero, Nat.mul_zero] at hold
    rw [hborrows, Nat.mul_one] at htaken
    omega
  have htop : (p.top - taken.2).toNat + taken.2.toNat = p.top.toNat := by
    rw [BitVec.toNat_sub_of_le hfits]
    have := BitVec.le_def.1 hfits
    omega
  have hremaining : value taken.1 + (2 ^ w) ^ taken.1.length * (p.top - taken.2).toNat +
      value dd = p.remaining := by
    rw [remaining, ← htop, hlength, hlength', mul_add]
    omega
  -- the digit of the quotient is bounded by what has been taken off
  have hdigit : p.ai.toNat + 1 < 2 ^ w := by
    refine Nat.lt_of_mul_lt_mul_right (a := value dd) ?_
    rw [add_mul, one_mul]
    omega
  have hai : (p.ai + 1).toNat = p.ai.toNat + 1 := by
    rw [BitVec.toNat_add, hone, Nat.mod_eq_of_lt hdigit]
  have hnotFull : p.ai ≠ BitVec.allOnes w := by
    intro hfull
    rw [hfull, BitVec.toNat_allOnes] at hdigit
    omega
  refine ⟨⟨hlength', ?_, ?_⟩, hremaining⟩
  · show (p.ai + 1).toNat * value dd +
      (value taken.1 + (2 ^ w) ^ taken.1.length * (p.top - taken.2).toNat) = dividend
    rw [hai, add_mul, one_mul]
    omega
  · simp [hexact, hnotFull, hfits]

/-- **The correction ends** with a rest that is smaller than the divisor. -/
theorem Started.correct (hw : 0 < w) (hbound : dividend < 2 ^ w * value dd) :
    ∀ fuel (p : Partial w), Started dd dividend p → p.remaining < fuel * value dd →
      ∃ p', (∀ more, fuel ≤ more → Digits.correct dd more p = some p') ∧
        Started dd dividend p' ∧ p'.remaining < value dd := by
  intro fuel
  induction fuel with
  | zero =>
      intro p _ hfuel
      rw [Nat.zero_mul] at hfuel
      exact absurd hfuel (Nat.not_lt_zero _)
  | succ fuel ih =>
      intro p hstarted hfuel
      by_cases htest : p.top ≠ 0 ∨ 0 ≤ cmp p.window dd
      · have hle := (correct_iff hstarted.length_eq).1 htest
        obtain ⟨hnext, hless⟩ := hstarted.next hw hbound hle
        obtain ⟨p', hrun, hdone⟩ := ih _ hnext (by rw [add_mul, one_mul] at hfuel; omega)
        refine ⟨p', fun more hmore => ?_, hdone⟩
        obtain ⟨more, rfl⟩ : ∃ k, more = k + 1 := ⟨more - 1, by omega⟩
        rw [Digits.correct, if_pos htest]
        exact hrun more (by omega)
      · have hlt := fun hle => htest ((correct_iff hstarted.length_eq).2 hle)
        refine ⟨p, fun more hmore => ?_, hstarted, not_le.1 hlt⟩
        obtain ⟨more, rfl⟩ : ∃ k, more = k + 1 := ⟨more - 1, by omega⟩
        rw [Digits.correct, if_neg htest]

end Partial

section Estimate

variable {dd window : List (BitVec w)} {top : BitVec w}

theorem digitDiv_eq (b0 b1 c : BitVec w) :
    digitDiv b0 b1 c = (2 ^ w * b1.toNat + b0.toNat) / c.toNat := by
  have hdigits : (b1.toNat <<< w) ^^^ b0.toNat = 2 ^ w * b1.toNat + b0.toNat := by
    refine Nat.eq_of_testBit_eq fun j => ?_
    rw [Nat.testBit_xor, Nat.testBit_shiftLeft, Nat.testBit_two_pow_mul_add _ b0.isLt]
    by_cases hj : j < w
    · simp [hj, not_le.2 hj]
    · have hhigh : b0.toNat.testBit j = false :=
        Nat.testBit_lt_two_pow (b0.isLt.trans_le (Nat.pow_le_pow_right two_pos (by omega)))
      simp [hj, hhigh, not_lt.1 hj]
  rw [digitDiv, hdigits]

/-- **The estimate is an underestimate.**  The divisor is smaller than its
highest digit and one more, with zeros below. -/
theorem estimate_mul_le (hlength : window.length = dd.length) (hpos : 0 < dd.length) :
    (if dd.getD (dd.length - 1) 0 = BitVec.allOnes w then top.toNat
      else digitDiv (window.getD (dd.length - 1) 0) top (dd.getD (dd.length - 1) 0 + 1)) *
        value dd ≤ value window + (2 ^ w) ^ window.length * top.toNat := by
  obtain ⟨n, hn⟩ : ∃ n, dd.length = n + 1 := ⟨dd.length - 1, by omega⟩
  rw [hlength, hn, Nat.add_sub_cancel]
  have hsplit : ∀ {ds : List (BitVec w)}, ds.length = n + 1 →
      value ds = value (ds.take n) + (2 ^ w) ^ n * (ds.getD n 0).toNat := by
    intro ds hds
    rw [← value_take_succ (by omega), ← hds, List.take_length]
  have hlow : value (dd.take n) < (2 ^ w) ^ n := by
    have hlt := value_lt (dd.take n)
    rwa [List.length_take, Nat.min_eq_left (by omega)] at hlt
  split_ifs with hfull
  · have hdd := value_lt dd
    rw [hn] at hdd
    calc top.toNat * value dd ≤ top.toNat * (2 ^ w) ^ (n + 1) := Nat.mul_le_mul_left _ hdd.le
      _ = (2 ^ w) ^ (n + 1) * top.toNat := mul_comm _ _
      _ ≤ value window + (2 ^ w) ^ (n + 1) * top.toNat := Nat.le_add_left _ _
  · have hvalue := hsplit hn
    generalize dd.getD n 0 = t at hvalue hfull ⊢
    have ht : (t + 1).toNat = t.toNat + 1 := by
      have hlt := t.isLt
      have hne : t.toNat ≠ 2 ^ w - 1 := fun heq =>
        hfull (BitVec.eq_of_toNat_eq (by rw [heq, BitVec.toNat_allOnes]))
      have hw : 0 < w := by
        rw [Nat.pos_iff_ne_zero]
        rintro rfl
        omega
      rw [BitVec.toNat_add, toNat_one hw, Nat.mod_eq_of_lt (by omega)]
    have hdd : value dd ≤ (2 ^ w) ^ n * (t + 1).toNat := by
      rw [hvalue, ht, mul_add]
      omega
    rw [digitDiv_eq, hsplit (hlength.trans hn)]
    generalize window.getD n 0 = x
    calc (2 ^ w * top.toNat + x.toNat) / (t + 1).toNat * value dd
        ≤ (2 ^ w * top.toNat + x.toNat) / (t + 1).toNat * ((2 ^ w) ^ n * (t + 1).toNat) :=
          Nat.mul_le_mul_left _ hdd
      _ = (2 ^ w) ^ n * ((2 ^ w * top.toNat + x.toNat) / (t + 1).toNat * (t + 1).toNat) := by ring
      _ ≤ (2 ^ w) ^ n * (2 ^ w * top.toNat + x.toNat) :=
          Nat.mul_le_mul_left _ (Nat.div_mul_le_self _ _)
      _ = (2 ^ w) ^ n * x.toNat + (2 ^ w) ^ (n + 1) * top.toNat := by ring
      _ ≤ value (window.take n) + (2 ^ w) ^ n * x.toNat + (2 ^ w) ^ (n + 1) * top.toNat := by
          omega

/-- **The estimate** starts the round. -/
theorem estimate_started (hlength : window.length = dd.length) (hpos : 0 < dd.length)
    (hbound : value window + (2 ^ w) ^ window.length * top.toNat < 2 ^ w * value dd) :
    (estimate dd window top).Started dd
      (value window + (2 ^ w) ^ window.length * top.toNat) := by
  have hle := @estimate_mul_le _ _ _ top hlength hpos
  unfold estimate
  dsimp only
  generalize (if dd.getD (dd.length - 1) 0 = BitVec.allOnes w then top.toNat
    else digitDiv (window.getD (dd.length - 1) 0) top (dd.getD (dd.length - 1) 0 + 1)) =
      quotient at hle ⊢
  have hfits : quotient < 2 ^ w := Nat.lt_of_mul_lt_mul_right (hle.trans_lt hbound)
  have hai : (BitVec.ofNat w quotient).toNat = quotient := by
    rw [BitVec.toNat_ofNat, Nat.mod_eq_of_lt hfits]
  have htaken := value_subDigitMult window (BitVec.ofNat w quotient) hlength
  have hlength' :
      (subDigitMult window window (BitVec.ofNat w quotient) dd).1.length = window.length := by
    unfold subDigitMult
    split_ifs
    · rfl
    · exact length_chain _ hlength
  have hnew := value_lt (subDigitMult window window (BitVec.ofNat w quotient) dd).1
  rw [hlength'] at hnew
  rw [hai] at htaken
  generalize BitVec.ofNat w quotient = ai at *
  generalize subDigitMult window window ai dd = taken at *
  have hborrow : taken.2.toNat ≤ top.toNat := by
    refine Nat.le_of_lt_succ (Nat.lt_of_mul_lt_mul_left (a := (2 ^ w) ^ window.length) ?_)
    rw [Nat.mul_succ]
    omega
  have htop : (top - taken.2).toNat + taken.2.toNat = top.toNat := by
    rw [BitVec.toNat_sub_of_le (BitVec.le_def.2 hborrow)]
    omega
  refine ⟨hlength'.trans hlength, ?_, ?_⟩
  · show ai.toNat * value dd +
      (value taken.1 + (2 ^ w) ^ taken.1.length * (top - taken.2).toNat) = _
    rw [← htop, hlength', hai, mul_add]
    omega
  · simp [hfits, BitVec.le_def, hborrow]

end Estimate

/-! ## The digits of the quotient -/

/-- The variables of `Div` between two rounds. -/
structure Division (w : ℕ) where
  cc : List (BitVec w)
  memory : Memory w
  exact : Bool

/-- Writes digits of the quotient, unless the pointer to them is null. -/
def writeQuotient (memory : Memory w) (a : Option ℕ) (quotient : List (BitVec w)) : Memory w :=
  match a with
  | none => memory
  | some a => write memory a quotient

/-- The round of `Div` for the `i`-th digit of the quotient. -/
def divRound (fuel : ℕ) (a : Option ℕ) (dd : List (BitVec w)) (i : ℕ) (s : Division w) :
    Option (Division w) := do
  let window := (s.cc.drop i).take dd.length
  let top := s.cc.getD (i + dd.length) 0
  let p ← correct dd fuel (estimate dd window top)
  let cc := s.cc.take i ++ (p.window ++ p.top :: s.cc.drop (i + dd.length + 1))
  pure ⟨cc, writeQuotient s.memory (a.map (· + i)) [p.ai], s.exact && p.exact⟩

/-- The rounds of `Div` from the `i`-th digit of the quotient down. -/
def divLoop (fuel : ℕ) (a : Option ℕ) (dd : List (BitVec w)) : ℕ → Division w → Option (Division w)
  | 0, s => some s
  | i + 1, s => do
      let s ← divRound fuel a dd i s
      divLoop fuel a dd i s

/-- `Div`.  The array `cc` is modelled as far as it is written: the shifted
dividend with its carry, and the zeros above them for a longer divisor.  The
documented lengths fit into its counters of eight bits. -/
def div (fuel : ℕ) (memory : Memory w) (a : Option ℕ) (b c cDigits d dDigits : ℕ) :
    Option (Memory w × Bool) :=
  let ddDigits := digits (read memory d dDigits)
  if ddDigits = 0 then some (memory, true)
  else do
    let shift := w - digitBits (memory (d + (ddDigits - 1)))
    let shifted := lShift (read memory c cDigits) (read memory c cDigits) shift
    let cc := shifted.1 ++ shifted.2 :: List.replicate (ddDigits - (cDigits + 1)) 0
    let dd := (lShift (read memory d ddDigits) (read memory d ddDigits) shift).1
    let cleared := writeQuotient memory a (List.replicate cDigits 0)
    let s ← divLoop fuel a dd (cDigits + 1 - ddDigits) ⟨cc, cleared, true⟩
    let cleared := write s.memory b (List.replicate dDigits 0)
    pure (write cleared b (rShift (s.cc.take ddDigits) (s.cc.take ddDigits) shift).1, s.exact)

section Rounds

variable {fuel : ℕ} {a : Option ℕ} {dd : List (BitVec w)}

/-- **One round** divides the rest of the rounds before, with another digit
below, and leaves a rest and a zero above it. -/
theorem divRound_spec (hw : 0 < w) (hpos : 0 < dd.length) (low : List (BitVec w)) (x : BitVec w)
    {r : List (BitVec w)} (hr : r.length = dd.length) (hrest : value r < value dd)
    (high : List (BitVec w)) (memory : Memory w) :
    ∃ ai r', r'.length = dd.length ∧ value r' < value dd ∧
      ai.toNat * value dd + value r' = x.toNat + 2 ^ w * value r ∧
      ∀ fuel, 2 ^ w ≤ fuel →
        divRound fuel a dd low.length ⟨low ++ x :: (r ++ high), memory, true⟩ =
          some ⟨low ++ (r' ++ 0 :: high),
            writeQuotient memory (a.map (· + low.length)) [ai], true⟩ := by
  -- the digits that the round looks at, the window and the digit above it
  have hlength : (x :: r).length = dd.length + 1 := by rw [List.length_cons, hr]
  have hwindow : ((low ++ x :: (r ++ high)).drop low.length).take dd.length =
      (x :: r).take dd.length := by
    rw [List.drop_left, ← List.cons_append, List.take_append_of_le_length (by omega)]
  have htop : (low ++ x :: (r ++ high)).getD (low.length + dd.length) 0 =
      (x :: r).getD dd.length 0 := by
    rw [List.getD_append_right _ _ _ _ (by omega), Nat.add_sub_cancel_left, ← List.cons_append,
      List.getD_append _ _ _ _ (by omega)]
  have hhigh : (low ++ x :: (r ++ high)).drop (low.length + dd.length + 1) = high := by
    have hsplit : low ++ x :: (r ++ high) = (low ++ x :: r) ++ high := by simp
    rw [hsplit, List.drop_left' (by simp [hr]; omega)]
  have hwindowLength : ((x :: r).take dd.length).length = dd.length := by
    rw [List.length_take, hlength]
    omega
  have hdividend : value ((x :: r).take dd.length) +
      (2 ^ w) ^ ((x :: r).take dd.length).length * ((x :: r).getD dd.length 0).toNat =
        x.toNat + 2 ^ w * value r := by
    rw [hwindowLength, ← value_take_succ (by omega), ← hlength, List.take_length, value_cons]
  have hbound : x.toNat + 2 ^ w * value r < 2 ^ w * value dd := by
    have hx := x.isLt
    calc x.toNat + 2 ^ w * value r < 2 ^ w + 2 ^ w * value r := by omega
      _ = 2 ^ w * (value r + 1) := by ring
      _ ≤ 2 ^ w * value dd := Nat.mul_le_mul_left _ hrest
  have hstarted := estimate_started hwindowLength hpos (by rw [hdividend]; exact hbound)
  rw [hdividend] at hstarted
  have hfuel : (estimate dd ((x :: r).take dd.length) ((x :: r).getD dd.length 0)).remaining <
      2 ^ w * value dd := by
    have hvalue := hstarted.value_eq
    omega
  obtain ⟨p, hrun, ⟨hlength', hvalue, hexact⟩, hsmall⟩ :=
    Partial.Started.correct hw hbound _ _ hstarted hfuel
  have htopZero : p.top = 0 := by
    by_contra hne
    have hle := (Partial.correct_iff hlength').1 (.inl hne)
    omega
  have hremaining : p.remaining = value p.window := by
    rw [Partial.remaining, htopZero]
    simp
  refine ⟨p.ai, p.window, hlength', by omega, by omega, fun fuel hfuel => ?_⟩
  unfold divRound
  simp only [hwindow, htop, hhigh, hrun fuel hfuel, List.take_left]
  simp [htopZero, hexact]

/-- **The rounds** divide: the digits that they write are those of the quotient. -/
theorem divLoop_spec (hw : 0 < w) (hpos : 0 < dd.length) (low : List (BitVec w))
    {r : List (BitVec w)} (hr : r.length = dd.length) (hrest : value r < value dd)
    (high : List (BitVec w)) (memory : Memory w) :
    ∃ quotient r' high', quotient.length = low.length ∧ r'.length = dd.length ∧
      value r' < value dd ∧
      value quotient * value dd + value r' = value low + (2 ^ w) ^ low.length * value r ∧
      ∀ fuel, 2 ^ w ≤ fuel →
        divLoop fuel a dd low.length ⟨low ++ (r ++ high), memory, true⟩ =
          some ⟨r' ++ high', writeQuotient memory a quotient, true⟩ := by
  induction low using List.reverseRecOn generalizing r high memory with
  | nil =>
      refine ⟨[], r, high, rfl, hr, hrest, by simp, fun fuel _ => ?_⟩
      have hwrite : writeQuotient memory a [] = memory := by
        cases a with
        | none => rfl
        | some a =>
            funext k
            exact write_outside memory (by simp; omega)
      rw [hwrite]
      rfl
  | append_singleton low x ih =>
      obtain ⟨ai, r₁, hlength₁, hsmall₁, hvalue₁, hround⟩ :=
        @divRound_spec w a dd hw hpos low x r hr hrest high memory
      obtain ⟨quotient, r', high', hquotient, hlength', hsmall', hvalue', hloop⟩ :=
        ih hlength₁ hsmall₁ (0 :: high) (writeQuotient memory (a.map (· + low.length)) [ai])
      refine ⟨quotient ++ [ai], r', high', by simp [hquotient], hlength', hsmall', ?_, ?_⟩
      · rw [value_append, value_append, hquotient, List.length_append, List.length_singleton,
          pow_succ]
        simp only [value_cons, value_nil, Nat.mul_zero, Nat.add_zero]
        calc (value quotient + (2 ^ w) ^ low.length * ai.toNat) * value dd + value r'
            = value quotient * value dd + value r' +
                (2 ^ w) ^ low.length * (ai.toNat * value dd) := by ring
          _ = value low + (2 ^ w) ^ low.length * (ai.toNat * value dd + value r₁) := by
              rw [hvalue']
              ring
          _ = value low + (2 ^ w) ^ low.length * x.toNat +
                (2 ^ w) ^ low.length * 2 ^ w * value r := by
              rw [hvalue₁]
              ring
      · intro fuel hfuel
        have hwrite : writeQuotient (writeQuotient memory (a.map (· + low.length)) [ai]) a quotient =
            writeQuotient memory a (quotient ++ [ai]) := by
          cases a with
          | none => rfl
          | some a =>
              show write (write memory (a + low.length) [ai]) a quotient = _
              rw [← hquotient]
              exact write_write memory ai
        rw [List.length_append, List.length_singleton, List.append_assoc, List.singleton_append,
          divLoop, hround fuel hfuel, ← hwrite]
        exact hloop fuel hfuel

end Rounds

/-! ## `Div` -/

section Div

variable (memory : Memory w) {a : Option ℕ} {b c cDigits d dDigits : ℕ}

theorem take_read {n : ℕ} (hn : n ≤ dDigits) : (read memory d dDigits).take n = read memory d n := by
  rw [read, ← List.map_take, List.take_range, Nat.min_eq_left hn, read]

/-- **The normalized divisor** is the divisor times a power of two, without a
carry. -/
theorem normalized (hpos : 0 < value (read memory d dDigits)) :
    let ddDigits := digits (read memory d dDigits)
    let shift := w - digitBits (memory (d + (ddDigits - 1)))
    0 < ddDigits ∧ shift < w ∧ (2 ^ w) ^ (ddDigits - 1) ≤ value (read memory d dDigits) ∧
      value (lShiftLoop shift 0 (read memory d ddDigits)).1 =
        2 ^ shift * value (read memory d dDigits) := by
  obtain ⟨hle, hvalue, hnonzero⟩ := digits_spec (read memory d dDigits)
  rw [length_read] at hle
  rw [take_read memory hle] at hvalue
  generalize digits (read memory d dDigits) = n at *
  have hn : 0 < n := by
    rw [Nat.pos_iff_ne_zero]
    rintro rfl
    rw [← hvalue] at hpos
    simp [read] at hpos
  obtain ⟨m, rfl⟩ : ∃ m, n = m + 1 := ⟨n - 1, by omega⟩
  have htop := hnonzero hn.ne'
  have hlength : m < (read memory d dDigits).length := by rw [length_read]; omega
  have hdigit : (read memory d dDigits).getD m 0 = memory (d + m) := by
    rw [List.getD_eq_getElem _ _ hlength]
    simp [read]
  have hlower := pow_le_value hlength htop
  rw [take_read memory hle, hvalue] at hlower
  simp only [Nat.add_sub_cancel] at htop ⊢
  rw [hdigit] at htop
  -- the length of the highest digit in bits
  have hsize : 0 < (memory (d + m)).toNat.size := by
    rw [Nat.size_pos, Nat.pos_iff_ne_zero]
    exact fun hzero => htop (BitVec.eq_of_toNat_eq (by simpa using hzero))
  have hsizeLe : (memory (d + m)).toNat.size ≤ w := Nat.size_le.2 (memory (d + m)).isLt
  rw [digitBits_eq]
  have hshift : w - (memory (d + m)).toNat.size < w := by omega
  refine ⟨hn, hshift, hlower, ?_⟩
  have hzero : (0 : BitVec w).toNat < 2 ^ (w - (memory (d + m)).toNat.size) := by simp
  have hshifted := value_lShiftLoop hshift hzero (read memory d (m + 1))
  rw [length_read, toNat_zero, Nat.add_zero, hvalue] at hshifted
  have hcarry : (lShiftLoop (w - (memory (d + m)).toNat.size) 0 (read memory d (m + 1))).2.toNat =
      0 := by
    by_contra hne
    have hupper : value (read memory d dDigits) <
        (2 ^ w) ^ m * 2 ^ (memory (d + m)).toNat.size := by
      have hsplit := @value_take_succ _ (read memory d dDigits) m hlength
      rw [take_read memory hle, take_read memory (by omega), hvalue, hdigit] at hsplit
      have hlow := value_lt (read memory d m)
      rw [length_read] at hlow
      have htopLt := Nat.lt_size_self (memory (d + m)).toNat
      calc value (read memory d dDigits)
          < (2 ^ w) ^ m + (2 ^ w) ^ m * (memory (d + m)).toNat := by omega
        _ = (2 ^ w) ^ m * ((memory (d + m)).toNat + 1) := by ring
        _ ≤ (2 ^ w) ^ m * 2 ^ (memory (d + m)).toNat.size := Nat.mul_le_mul_left _ htopLt
    have hone : (2 ^ w) ^ (m + 1) ≤
        (2 ^ w) ^ (m + 1) *
          (lShiftLoop (w - (memory (d + m)).toNat.size) 0 (read memory d (m + 1))).2.toNat :=
      Nat.le_mul_of_pos_right _ (Nat.pos_of_ne_zero hne)
    have hpow : 2 ^ (w - (memory (d + m)).toNat.size) * 2 ^ (memory (d + m)).toNat.size = 2 ^ w := by
      rw [← pow_add]
      congr 1
      omega
    have hlt : 2 ^ (w - (memory (d + m)).toNat.size) * value (read memory d dDigits) <
        (2 ^ w) ^ (m + 1) :=
      calc 2 ^ (w - (memory (d + m)).toNat.size) * value (read memory d dDigits)
          < 2 ^ (w - (memory (d + m)).toNat.size) *
              ((2 ^ w) ^ m * 2 ^ (memory (d + m)).toNat.size) :=
            Nat.mul_lt_mul_of_pos_left hupper (by positivity)
        _ = (2 ^ w) ^ m *
              (2 ^ (w - (memory (d + m)).toNat.size) * 2 ^ (memory (d + m)).toNat.size) := by ring
        _ = (2 ^ w) ^ (m + 1) := by rw [hpow, pow_succ]
    omega
  rwa [hcarry, Nat.mul_zero, Nat.add_zero] at hshifted

/-- **A run of `Div`**: what it writes to the array of the quotient, unless
there is none, and to that of the rest. -/
theorem div_run (hw : 0 < w) (a : Option ℕ) (b c cDigits : ℕ)
    (hpos : 0 < value (read memory d dDigits)) :
    ∃ quotient rest : List (BitVec w), quotient.length ≤ cDigits ∧ rest.length ≤ dDigits ∧
      value quotient * value (read memory d dDigits) + value rest =
        value (read memory c cDigits) ∧
      value rest < value (read memory d dDigits) ∧
      ∀ fuel, 2 ^ w ≤ fuel → div fuel memory a b c cDigits d dDigits =
        some (write (write (writeQuotient (writeQuotient memory a (List.replicate cDigits 0))
          a quotient) b (List.replicate dDigits 0)) b rest, true) := by
  obtain ⟨hn, hshift, hlower, hdd⟩ := normalized memory hpos
  have hle : digits (read memory d dDigits) ≤ dDigits := by
    have := (digits_spec (read memory d dDigits)).1
    rwa [length_read] at this
  unfold div
  dsimp only
  generalize digits (read memory d dDigits) = n at *
  generalize w - digitBits (memory (d + (n - 1))) = shift at *
  have hzero : (0 : BitVec w).toNat < 2 ^ shift := by simp
  have hcc := value_lShiftLoop hshift hzero (read memory c cDigits)
  have hccLength : (lShiftLoop shift 0 (read memory c cDigits)).1.length = cDigits := by simp
  have hddLength : (lShiftLoop shift 0 (read memory d n)).1.length = n := by simp
  have hlShift : ∀ ds : List (BitVec w), lShift ds ds shift = lShiftLoop shift 0 ds := fun ds => by
    rw [lShift, if_neg (by omega)]
  have hrShift : ∀ ds : List (BitVec w), rShift ds ds shift = rShiftLoop shift ds := fun ds => by
    rw [rShift, if_neg (by omega)]
  simp only [hlShift, hrShift, if_neg hn.ne']
  rw [toNat_zero, Nat.add_zero, length_read] at hcc
  generalize lShiftLoop shift 0 (read memory c cDigits) = shifted at *
  generalize (lShiftLoop shift 0 (read memory d n)).1 = dd at *
  -- the shifted dividend with its carry, as the digits below the first window and that window
  obtain ⟨cc, hccEq⟩ : ∃ cc, cc = shifted.1 ++ shifted.2 :: List.replicate (n - (cDigits + 1)) 0 :=
    ⟨_, rfl⟩
  have hlength : cc.length = (cDigits + 1 - n) + n := by
    rw [hccEq]
    simp [hccLength]
    omega
  have hvalue : value cc = 2 ^ shift * value (read memory c cDigits) := by
    rw [hccEq, value_append, value_cons, value_replicate, hccLength, Nat.mul_zero, Nat.add_zero, hcc]
  have hsplit : value (cc.take (cDigits + 1 - n)) +
      (2 ^ w) ^ (cDigits + 1 - n) * value (cc.drop (cDigits + 1 - n)) = value cc := by
    have happend := value_append (cc.take (cDigits + 1 - n)) (cc.drop (cDigits + 1 - n))
    rw [List.take_append_drop, List.length_take, Nat.min_eq_left (by omega)] at happend
    exact happend.symm
  have hwindow : value (cc.drop (cDigits + 1 - n)) < value dd := by
    rw [hdd]
    have hdividend : value (read memory c cDigits) < (2 ^ w) ^ cDigits := by
      have hlt := value_lt (read memory c cDigits)
      rwa [length_read] at hlt
    refine lt_of_lt_of_le ?_ (Nat.mul_le_mul_left _ hlower)
    refine Nat.lt_of_mul_lt_mul_left (a := (2 ^ w) ^ (cDigits + 1 - n)) ?_
    calc (2 ^ w) ^ (cDigits + 1 - n) * value (cc.drop (cDigits + 1 - n))
        ≤ 2 ^ shift * value (read memory c cDigits) := by omega
      _ < 2 ^ shift * (2 ^ w) ^ cDigits := Nat.mul_lt_mul_of_pos_left hdividend (by positivity)
      _ ≤ 2 ^ shift * (2 ^ w) ^ (cDigits + 1 - n + (n - 1)) :=
          Nat.mul_le_mul_left _ (Nat.pow_le_pow_right (by positivity) (by omega))
      _ = (2 ^ w) ^ (cDigits + 1 - n) * (2 ^ shift * (2 ^ w) ^ (n - 1)) := by ring
  obtain ⟨quotient, r, high, hquotient, hr, hsmall, hdivision, hloop⟩ :=
    @divLoop_spec w a dd hw (by omega) (cc.take (cDigits + 1 - n)) (cc.drop (cDigits + 1 - n))
      (by simp; omega) hwindow [] (writeQuotient memory a (List.replicate cDigits 0))
  have htake : (cc.take (cDigits + 1 - n)).length = cDigits + 1 - n := by simp; omega
  rw [htake] at hquotient hloop hdivision
  rw [List.append_nil, List.take_append_drop] at hloop
  rw [hsplit, hvalue, hdd] at hdivision
  rw [hdd] at hsmall
  obtain ⟨hrest, -⟩ := value_rShiftLoop hshift r
  -- the rest is a multiple of the power of two, too
  have hexact : value quotient * value (read memory d dDigits) + value (rShiftLoop shift r).1 =
      value (read memory c cDigits) := by
    have hpow : 0 < 2 ^ shift := by positivity
    have hdivision' : 2 ^ shift * value (read memory c cDigits) =
        value r + 2 ^ shift * (value quotient * value (read memory d dDigits)) := by
      rw [← hdivision]
      ring
    have hhalf := congrArg (· / 2 ^ shift) hdivision'
    simp only [Nat.add_mul_div_left _ _ hpow, Nat.mul_div_cancel_left _ hpow] at hhalf
    rw [hrest]
    omega
  refine ⟨quotient, (rShiftLoop shift r).1, by omega, by simp; omega, hexact, ?_, ?_⟩
  · rw [hrest, Nat.div_lt_iff_lt_mul (by positivity), mul_comm]
    exact hsmall
  · intro fuel hfuel
    rw [← hccEq, hloop fuel hfuel]
    have hr' : r.length = n := by omega
    simp [← hr']

/-- **`Div`** divides, ends, and loses no carry or borrow, whatever the arrays of
the quotient and the rest share with those of the dividend and the divisor. -/
theorem div_spec (hw : 0 < w) {a : ℕ} (c : ℕ) (hpos : 0 < value (read memory d dDigits))
    (hdisjoint : ∀ i < cDigits, ∀ j < dDigits, a + i ≠ b + j) :
    ∃ memory', (∀ fuel, 2 ^ w ≤ fuel →
        div fuel memory (some a) b c cDigits d dDigits = some (memory', true)) ∧
      value (read memory c cDigits) =
        value (read memory' a cDigits) * value (read memory d dDigits) +
          value (read memory' b dDigits) ∧
      value (read memory' b dDigits) < value (read memory d dDigits) := by
  obtain ⟨quotient, rest, hquotient, hrest, hdivision, hsmall, hrun⟩ :=
    div_run memory hw (some a) b c cDigits hpos
  refine ⟨_, hrun, ?_⟩
  have hkeep : ∀ (before : Memory w) (ds : List (BitVec w)), ds.length ≤ dDigits →
      read (write before b ds) a cDigits = read before a cDigits := fun before ds hds =>
    read_write_of_disjoint before fun i hi j hj => hdisjoint i hi j (by omega)
  rw [value_read_write_cleared _ hrest, hkeep _ _ hrest, hkeep _ _ (by simp), writeQuotient,
    writeQuotient, value_read_write_cleared _ hquotient]
  exact ⟨hdivision.symm, hsmall⟩

end Div

/-! ## `Mult` -/

/-- The body of the loop of `Mult` for the `i`-th digit of `b`. -/
def multStep (b c : List (BitVec w)) (i : ℕ) (t : List (BitVec w)) : List (BitVec w) :=
  let window := (t.drop i).take c.length
  let added := addDigitMult window window (b.getD i 0) c
  t.take i ++ (added.1 ++ (t.getD (i + c.length) 0 + added.2) :: t.drop (i + c.length + 1))

/-- The loop of `Mult` for the first digits of `b`. -/
def multLoop (b c : List (BitVec w)) : ℕ → List (BitVec w) → List (BitVec w)
  | 0, t => t
  | i + 1, t => multStep b c i (multLoop b c i t)

/-- `Mult`. -/
def mult (memory : Memory w) (a b c digits : ℕ) : Memory w :=
  let bDigits := Digits.digits (read memory b digits)
  let cDigits := Digits.digits (read memory c digits)
  write memory a
    (multLoop (read memory b digits) (read memory c cDigits) bDigits (List.replicate (2 * digits) 0))

section Mult

variable {b c t : List (BitVec w)}

/-- **The loop of `Mult`** has multiplied by the digits so far; above them and
the other factor it has not written yet. -/
theorem multLoop_spec (n : ℕ) {m : ℕ} (hm : n + c.length ≤ m) (hn : n ≤ b.length) :
    ∃ product, multLoop b c n (List.replicate m 0) =
        product ++ List.replicate (m - (n + c.length)) 0 ∧
      product.length = n + c.length ∧ value product = value (b.take n) * value c := by
  induction n with
  | zero =>
      refine ⟨List.replicate c.length 0, ?_, by simp, by rw [value_replicate]; simp⟩
      rw [multLoop, ← List.replicate_add]
      congr 1
      omega
  | succ n ih =>
      obtain ⟨product, hloop, hlength, hvalue⟩ := ih (by omega) (by omega)
      obtain ⟨k, hk⟩ : ∃ k, m - (n + c.length) = k + 1 := ⟨m - (n + c.length) - 1, by omega⟩
      -- the window are the digits of the product from the `n`-th on
      have hdone : (product.take n).length = n := by simp; omega
      have hwindow : (product.drop n).length = c.length := by simp; omega
      have hsplit := value_append (product.take n) (product.drop n)
      rw [List.take_append_drop, hdone] at hsplit
      have hadded := value_addDigitMult (product.drop n) (b.getD n 0) hwindow
      have haddedLength :
          (addDigitMult (product.drop n) (product.drop n) (b.getD n 0) c).1.length = c.length := by
        unfold addDigitMult
        split_ifs
        · exact hwindow
        · rw [length_chain _ hwindow, hwindow]
      have hstep : multLoop b c (n + 1) (List.replicate m 0) =
          product.take n ++
            ((addDigitMult (product.drop n) (product.drop n) (b.getD n 0) c).1 ++
              (addDigitMult (product.drop n) (product.drop n) (b.getD n 0) c).2 ::
                List.replicate k 0) := by
        rw [multLoop, hloop, hk, multStep]
        have hdrop : ((product ++ List.replicate (k + 1) 0).drop n).take c.length =
            product.drop n := by
          rw [List.drop_append_of_le_length (by omega), List.take_append_of_le_length (by omega),
            List.take_of_length_le (by omega)]
        have htake : (product ++ List.replicate (k + 1) 0).take n = product.take n :=
          List.take_append_of_le_length (by omega)
        have htop : (product ++ List.replicate (k + 1) 0).getD (n + c.length) 0 = (0 : BitVec w) := by
          rw [List.getD_append_right _ _ _ _ (by omega)]
          simp [hlength]
        have hhigh : (product ++ List.replicate (k + 1) (0 : BitVec w)).drop (n + c.length + 1) =
            List.replicate k 0 := by
          rw [← hlength, ← List.drop_drop, List.drop_left]
          rfl
        simp only [hdrop, htake, htop, hhigh]
        rw [BitVec.ofNat_eq_ofNat, BitVec.zero_add]
      generalize addDigitMult (product.drop n) (product.drop n) (b.getD n 0) c = added at *
      refine ⟨product.take n ++ (added.1 ++ [added.2]), ?_, ?_, ?_⟩
      · rw [hstep]
        simp only [List.append_assoc, List.singleton_append]
        congr 4
        omega
      · simp [haddedLength]
        omega
      · rw [hwindow] at hadded
        rw [value_append, value_append, hdone, haddedLength, value_cons, value_nil, Nat.mul_zero,
          Nat.add_zero, hadded, value_take_succ (by omega), add_mul, ← hvalue, hsplit]
        ring

/-- **`Mult`** is the exact product, whatever the three arrays share. -/
theorem mult_spec (memory : Memory w) (a b c digits : ℕ) :
    value (read (mult memory a b c digits) a (2 * digits)) =
      value (read memory b digits) * value (read memory c digits) := by
  obtain ⟨hbLe, hb, -⟩ := digits_spec (read memory b digits)
  obtain ⟨hcLe, hc, -⟩ := digits_spec (read memory c digits)
  rw [length_read] at hbLe hcLe
  rw [take_read memory hcLe] at hc
  obtain ⟨product, hloop, hlength, hvalue⟩ :=
    @multLoop_spec w (read memory b digits)
      (read memory c (Digits.digits (read memory c digits)))
      (Digits.digits (read memory b digits)) (2 * digits) (by simp; omega) (by simpa using hbLe)
  have hwritten : (product ++ List.replicate (2 * digits -
      (Digits.digits (read memory b digits) +
        (read memory c (Digits.digits (read memory c digits))).length)) 0).length = 2 * digits := by
    simp at hlength ⊢
    omega
  rw [mult, hloop, read_write _ hwritten.le, value_append, value_append, value_replicate, hvalue, hb,
    hc, hwritten, Nat.sub_self]
  simp [read]

end Mult

/-! ## Division and multiplication -/

/-- **`Div` and `Mult` are exact.**  `Div` ends with quotient and rest, none of
its digits losing a carry or a borrow, also when the arrays of the results share
digits with those of the numbers; only the two results need digits of their own. -/
theorem div_mult_exact (hw : 0 < w) (memory : Memory w) :
    Lossless w ∧
    (∀ a b c cDigits d dDigits : ℕ, 0 < value (read memory d dDigits) →
      (∀ i < cDigits, ∀ j < dDigits, a + i ≠ b + j) →
      ∃ memory', (∀ fuel, 2 ^ w ≤ fuel →
          div fuel memory (some a) b c cDigits d dDigits = some (memory', true)) ∧
        value (read memory c cDigits) =
          value (read memory' a cDigits) * value (read memory d dDigits) +
            value (read memory' b dDigits) ∧
        value (read memory' b dDigits) < value (read memory d dDigits)) ∧
    ∀ a b c digits : ℕ, value (read (mult memory a b c digits) a (2 * digits)) =
      value (read memory b digits) * value (read memory c digits) :=
  ⟨lossless hw, fun _ _ c _ _ _ hpos hdisjoint => div_spec memory hw c hpos hdisjoint,
    mult_spec memory⟩

/-- A division of four digits by two in place: the quotient goes to the dividend
and the rest to the divisor. -/
theorem div_mult_exact_inPlace :
    ∃ memory', (∀ fuel, 2 ^ 8 ≤ fuel →
        div fuel (fun k => BitVec.ofNat 8 (k + 1)) (some 0) 4 0 4 4 2 = some (memory', true)) ∧
      67305985 = value (read memory' 0 4) * 1541 + value (read memory' 4 2) ∧
      value (read memory' 4 2) < 1541 := by
  have hexact := (div_mult_exact (by decide : 0 < 8) fun k => BitVec.ofNat 8 (k + 1)).2.1
  exact hexact 0 4 0 4 4 2 (by decide) (by decide)

end Wiselib.Crypto.Digits
