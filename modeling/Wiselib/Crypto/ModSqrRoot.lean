import Wiselib.Crypto.EccFp

/-!
# Modular square roots

`ModExp`, `Lucas_Sequence` and `ModSqrRootOpt` of `crypto/pmp.h` on the values
of the digit arrays, which have `bits` bits altogether and digits of `w` bits.

## Strategy

* `ModExp` scans pairs of bits from the highest on.  What it has computed after
  some pairs, raised to the pairs that are left, stays the power
  (`modExpLoop_modEq`).
* For a modulus of three modulo four and of five modulo eight the root is
  written down, and Euler's criterion says that its square is right
  (`root_of_mod_four`, `root_of_mod_eight`).
* For one modulo eight the search calls `Lucas_Sequence`, whose counter `r` is
  never changed.  It is a signed byte that holds a length in bits: it starts
  negative from 129 bits on, and then the sequence is not computed at all.
-/

namespace Wiselib.Crypto

/-! ## `ModExp` -/

/-- The loop of `ModExp` over the `n` lowest pairs of bits of the exponent `c`. -/
def modExpLoop (b c d : ℕ) : ℕ → ℕ → ℕ
  | 0, t => t
  | n + 1, t =>
      let t := modMult t t d
      let t := modMult t t d
      let s := c / 4 ^ n % 4
      -- the powers of `b` that are looked up
      let bPower := [b, modMult b b d, modMult (modMult b b d) b d]
      modExpLoop b c d n (if s ≠ 0 then modMult t (bPower.getD (s - 1) 0) d else t)

/-- `ModExp`.  A digit has an even number of bits, so that the pairs of its bits
are pairs of the number, and leading pairs of zeros are left out. -/
def modExp (b c d : ℕ) : ℕ :=
  modExpLoop b c d ((c.size + 1) / 2) 1

section ModExp

variable {b c d : ℕ}

/-- **The loop** goes on to the power of all pairs. -/
theorem modExpLoop_modEq (n t : ℕ) :
    modExpLoop b c d n t ≡ t ^ 4 ^ n * b ^ (c % 4 ^ n) [MOD d] := by
  induction n generalizing t with
  | zero => simp [modExpLoop, Nat.mod_one, Nat.ModEq.refl]
  | succ n ih =>
      have hfourth : modMult (modMult t t d) (modMult t t d) d ≡ t ^ 4 [MOD d] :=
        calc modMult (modMult t t d) (modMult t t d) d
            ≡ modMult t t d * modMult t t d [MOD d] := modMult_modEq _ _ _
          _ ≡ t * t * (t * t) [MOD d] := (modMult_modEq t t d).mul (modMult_modEq t t d)
          _ = t ^ 4 := by ring
      have hpower : ∀ s, s < 4 → s ≠ 0 →
          [b, modMult b b d, modMult (modMult b b d) b d].getD (s - 1) 0 ≡ b ^ s [MOD d] := by
        intro s hs hne
        have hsquare : modMult b b d ≡ b ^ 2 [MOD d] := by
          rw [pow_two]
          exact modMult_modEq b b d
        have hcube : modMult (modMult b b d) b d ≡ b ^ 3 [MOD d] := by
          rw [pow_succ]
          exact (modMult_modEq _ _ _).trans (hsquare.mul_right b)
        interval_cases s
        · exact absurd rfl hne
        · rw [pow_one]
          rfl
        · exact hsquare
        · exact hcube
      have hround : (if c / 4 ^ n % 4 ≠ 0 then
          modMult (modMult (modMult t t d) (modMult t t d) d)
            ([b, modMult b b d, modMult (modMult b b d) b d].getD (c / 4 ^ n % 4 - 1) 0) d
          else modMult (modMult t t d) (modMult t t d) d) ≡ t ^ 4 * b ^ (c / 4 ^ n % 4) [MOD d] := by
        split_ifs with hzero
        · exact (modMult_modEq _ _ _).trans
            (hfourth.mul (hpower _ (Nat.mod_lt _ (by decide)) hzero))
        · rw [not_not.1 hzero, pow_zero, mul_one]
          exact hfourth
      refine (ih _).trans ?_
      calc _ ≡ (t ^ 4 * b ^ (c / 4 ^ n % 4)) ^ 4 ^ n * b ^ (c % 4 ^ n) [MOD d] :=
            (hround.pow _).mul_right _
        _ = t ^ 4 ^ (n + 1) * b ^ (c % 4 ^ (n + 1)) := by
            have hsplit : c % 4 ^ (n + 1) = c % 4 ^ n + 4 ^ n * (c / 4 ^ n % 4) := by
              rw [Nat.mod_pow_succ]
            rw [hsplit, pow_add b, mul_pow, ← pow_mul, ← pow_mul, pow_succ 4, mul_comm (4 ^ n) 4,
              mul_comm (4 ^ n) (c / 4 ^ n % 4)]
            ring

/-- **`ModExp` is the power.** -/
theorem modExp_modEq (b c d : ℕ) : modExp b c d ≡ b ^ c [MOD d] := by
  have hpairs : c < 4 ^ ((c.size + 1) / 2) := by
    calc c < 2 ^ c.size := Nat.lt_size_self c
      _ ≤ 2 ^ (2 * ((c.size + 1) / 2)) := Nat.pow_le_pow_right two_pos (by omega)
      _ = (2 ^ 2) ^ ((c.size + 1) / 2) := pow_mul _ _ _
  have hloop := @modExpLoop_modEq b c d ((c.size + 1) / 2) 1
  rwa [one_pow, one_mul, Nat.mod_eq_of_lt hpairs] at hloop

theorem modExpLoop_lt (n : ℕ) {t : ℕ} (ht : t < d) : modExpLoop b c d n t < d := by
  have hpos : 0 < d := by omega
  induction n generalizing t with
  | zero => exact ht
  | succ n ih =>
      rw [modExpLoop]
      refine ih ?_
      split
      · exact Nat.mod_lt _ hpos
      · exact Nat.mod_lt _ hpos

theorem modExp_lt (hd : 1 < d) : modExp b c d < d :=
  modExpLoop_lt _ hd

end ModExp

/-! ## `Lucas_Sequence` -/

/-- The variables of `Lucas_Sequence`. -/
structure LucasState where
  v0 : ℕ
  v1 : ℕ
  q0 : ℕ
  q1 : ℕ

/-- The body of the loop of `Lucas_Sequence`. -/
def LucasState.next (bits P Q k p : ℕ) (r : ℤ) (s : LucasState) : LucasState :=
  let q0 := modMult s.q0 s.q1 p
  let tmp := modMult P q0 p
  if k.testBit r.toNat then
    let q1 := modMult q0 Q p
    { v0 := modSub bits (modMult s.v0 s.v1 p) tmp p
      v1 := modSub bits (modSub bits (modMult s.v1 s.v1 p) q1 p) q1 p
      q0 := q0
      q1 := q1 }
  else
    { v0 := modSub bits (modSub bits (modMult s.v0 s.v0 p) q0 p) q0 p
      v1 := modSub bits (modMult s.v1 s.v0 p) tmp p
      q0 := q0
      q1 := q0 }

/-- The loop of `Lucas_Sequence`, which leaves its counter as it is. -/
def lucasLoop (bits P Q k p : ℕ) (r : ℤ) : ℕ → LucasState → Option (ℕ × ℕ)
  | 0, _ => none
  | fuel + 1, s =>
      if 0 ≤ r then lucasLoop bits P Q k p r fuel (s.next bits P Q k p r) else some (s.v0, s.q0)

/-- The counter of `Lucas_Sequence`, a signed byte. -/
def lucasCounter (k : ℕ) : ℤ :=
  (BitVec.ofInt 8 (k.size - 1)).toInt

/-- `Lucas_Sequence`.  The one that `q1` starts with is its second digit. -/
def lucasSequence (bits w fuel P Q k p : ℕ) : Option (ℕ × ℕ) :=
  lucasLoop bits P Q k p (lucasCounter k) fuel ⟨2, P, 1, 2 ^ w⟩

section Lucas

variable {bits w P Q k p : ℕ}

theorem lucasCounter_neg (hk : 0 < k) : lucasCounter k < 0 ↔ 128 ≤ (k.size - 1) % 256 := by
  have hsize : 0 < k.size := Nat.size_pos.2 hk
  have hcast : ((k.size : ℤ) - 1) = ((k.size - 1 : ℕ) : ℤ) := by omega
  unfold lucasCounter
  rw [hcast, BitVec.ofInt_natCast, BitVec.toInt_eq_toNat_cond, BitVec.toNat_ofNat]
  have hlt := Nat.mod_lt (k.size - 1) (show 2 ^ 8 > 0 by decide)
  split_ifs
  · omega
  · omega

theorem lucasLoop_none {r : ℤ} (hr : 0 ≤ r) (fuel : ℕ) (s : LucasState) :
    lucasLoop bits P Q k p r fuel s = none := by
  induction fuel generalizing s with
  | zero => rfl
  | succ fuel ih =>
      rw [lucasLoop, if_pos hr]
      exact ih _

/-- **With a counter from zero on** the sequence is never done. -/
theorem lucasSequence_none (hr : 0 ≤ lucasCounter k) (fuel : ℕ) :
    lucasSequence bits w fuel P Q k p = none :=
  lucasLoop_none hr fuel _

/-- **With a counter below zero** the sequence is left as it starts. -/
theorem lucasSequence_some (hr : lucasCounter k < 0) {fuel : ℕ} (hfuel : 0 < fuel) :
    lucasSequence bits w fuel P Q k p = some (2, 1) := by
  obtain ⟨fuel, rfl⟩ : ∃ n, fuel = n + 1 := ⟨fuel - 1, by omega⟩
  rw [lucasSequence, lucasLoop, if_neg (not_le.2 hr)]

end Lucas

/-! ## `ModSqrRootOpt` -/

/-- The search of `ModSqrRootOpt` from the parameter `i` on. -/
def rootSearch (bits w lucasFuel a b c k : ℕ) : ℕ → ℕ → Option (ℤ × ℕ)
  | 0, _ => none
  | fuel + 1, i =>
      if i < c then do
        let (gam, twog) ← lucasSequence bits w lucasFuel i b k c
        let gam := (if gam % 2 = 1 then (gam + c) % 2 ^ bits else gam) / 2
        if modMult gam gam c = b then some (1, gam)
        else if 1 < twog ∧ (twog + 1) % 2 ^ bits < c then some (-1, a)
        else rootSearch bits w lucasFuel a b c k fuel ((i + 1) % 2 ^ bits)
      else some (-1, a)

/-- The root for a modulus of five modulo eight. -/
def rootModEight (bits b c : ℕ) : ℕ :=
  let twog := modTwice bits b c
  let gam := modExp twog (c / 8) c
  let i := modSub bits (modMult (modMult gam gam c) twog c) 1 c
  modMult (modMult b gam c) i c

/-- `ModSqrRootOpt`: what it returns, and the array `a` afterwards. -/
def modSqrRootOpt (bits w fuel a b c : ℕ) : Option (ℤ × ℕ) :=
  if c % 4 = 3 then some (1, modExp b ((c / 4 + 1) % 2 ^ bits) c)
  else if c % 8 = 5 then some (1, rootModEight bits b c)
  else if c % 8 = 1 then rootSearch bits w fuel a b c ((c + 1) % 2 ^ bits / 2) fuel 1
  else some (-1, a)

section Roots

variable {p : ℕ} [Fact p.Prime]

theorem root_of_mod_four {x : ZMod p} (hp : p % 4 = 3) (hx : IsSquare x) :
    x ^ (p / 4 + 1) * x ^ (p / 4 + 1) = x := by
  by_cases hzero : x = 0
  · rw [hzero, zero_pow (Nat.succ_ne_zero _), mul_zero]
  · have heuler := (ZMod.euler_criterion p hzero).1 hx
    have hhalf : p / 4 + 1 + (p / 4 + 1) = p / 2 + 1 := by omega
    rw [← pow_add, hhalf, pow_succ, heuler, one_mul]

/-- Two is no square for a modulus of five modulo eight. -/
theorem two_pow_of_mod_eight (hp : p % 8 = 5) : (2 : ZMod p) ^ (p / 2) = -1 := by
  have hodd : p ≠ 2 := by omega
  have htwo : (2 : ZMod p) ≠ 0 := by
    have hndvd : ¬ p ∣ 2 := fun hdvd => by
      have hle := Nat.le_of_dvd two_pos hdvd
      interval_cases p <;> omega
    exact_mod_cast (ZMod.natCast_eq_zero_iff 2 p).not.2 hndvd
  refine (ZMod.pow_div_two_eq_neg_one_or_one p htwo).resolve_left fun hone => ?_
  have hsquare := (ZMod.euler_criterion p htwo).2 hone
  rw [ZMod.exists_sq_eq_two_iff hodd] at hsquare
  omega

theorem root_of_mod_eight {x : ZMod p} (hp : p % 8 = 5) (hx : IsSquare x) :
    let root := x * (2 * x) ^ (p / 8) * (2 * x * ((2 * x) ^ (p / 8)) ^ 2 - 1)
    root * root = x := by
  dsimp only
  by_cases hzero : x = 0
  · simp [hzero]
  · have heuler := (ZMod.euler_criterion p hzero).1 hx
    have hfourth : p / 2 = 4 * (p / 8) + 2 := by omega
    -- `J` is a root of minus one
    have hJ : (2 * x * ((2 * x) ^ (p / 8)) ^ 2) ^ 2 = -1 := by
      calc (2 * x * ((2 * x) ^ (p / 8)) ^ 2) ^ 2 = (2 * x) ^ (4 * (p / 8) + 2) := by ring
        _ = 2 ^ (p / 2) * x ^ (p / 2) := by rw [← hfourth, mul_pow]
        _ = -1 := by rw [two_pow_of_mod_eight hp, heuler, mul_one]
    generalize (2 * x) ^ (p / 8) = g at hJ ⊢
    calc x * g * (2 * x * g ^ 2 - 1) * (x * g * (2 * x * g ^ 2 - 1))
        = x ^ 2 * g ^ 2 * ((2 * x * g ^ 2) ^ 2 - 2 * (2 * x * g ^ 2) + 1) := by ring
      _ = -x * (2 * x * g ^ 2) ^ 2 := by linear_combination (x ^ 2 * g ^ 2) * hJ
      _ = x := by rw [hJ]; ring

end Roots

section ModSqrRoot

variable {bits w a b c : ℕ}

theorem cast_modExp (b' c' : ℕ) : (modExp b' c' c : ZMod c) = b' ^ c' := by
  rw [(ZMod.natCast_eq_natCast_iff _ _ _).2 (modExp_modEq b' c' c), Nat.cast_pow]

theorem cast_rootModEight (hpos : 0 < c) (hbits : 2 * c ≤ 2 ^ bits) (hb : b < c) :
    (rootModEight bits b c : ZMod c) =
      b * (2 * b) ^ (c / 8) * (2 * b * ((2 * b) ^ (c / 8)) ^ 2 - 1) := by
  have htwog := cast_modTwice hbits hb
  unfold rootModEight
  dsimp only
  simp only [cast_modMult, cast_modExp, cast_modSub hpos (by omega : c < 2 ^ bits), htwog,
    Nat.cast_one]
  ring

/-- With its counter from zero on, the search never gets beyond its first sequence. -/
theorem rootSearch_none {k : ℕ} (hk : 0 ≤ lucasCounter k) (hc : 1 < c) (lucasFuel fuel : ℕ) :
    rootSearch bits w lucasFuel a b c k fuel 1 = none := by
  cases fuel with
  | zero => rfl
  | succ fuel => rw [rootSearch, if_pos hc, lucasSequence_none hk]; rfl

/-- With its counter below zero, every round of the search compares with one. -/
theorem rootSearch_succ {k : ℕ} (hk : lucasCounter k < 0) {lucasFuel : ℕ} (hfuel : 0 < lucasFuel)
    (hc : 1 < c) (fuel : ℕ) {i : ℕ} (hi : i < c) :
    rootSearch bits w lucasFuel a b c k (fuel + 1) i =
      if 1 = b then some (1, 1)
      else rootSearch bits w lucasFuel a b c k fuel ((i + 1) % 2 ^ bits) := by
  rw [rootSearch, if_pos hi, lucasSequence_some hk hfuel]
  simp [modMult, Nat.mod_eq_of_lt hc]

theorem rootSearch_ne {k : ℕ} (hk : lucasCounter k < 0) {lucasFuel : ℕ} (hfuel : 0 < lucasFuel)
    (hc : 1 < c) (hb : b ≠ 1) (fuel i root : ℕ) :
    rootSearch bits w lucasFuel a b c k fuel i ≠ some (1, root) := by
  induction fuel generalizing i with
  | zero => exact Option.some_ne_none _ |>.symm
  | succ fuel ih =>
      by_cases hi : i < c
      · rw [rootSearch_succ hk hfuel hc fuel hi, if_neg (Ne.symm hb)]
        exact ih _
      · rw [rootSearch, if_neg hi]
        intro heq
        injection heq with hpair
        injection hpair with hone
        omega

theorem rootSearch_end {k : ℕ} (hk : lucasCounter k < 0) {lucasFuel : ℕ} (hfuel : 0 < lucasFuel)
    (hc : 1 < c) (hb : b ≠ 1) (hbits : c < 2 ^ bits) {fuel i : ℕ} (hi : c - i < fuel) :
    rootSearch bits w lucasFuel a b c k fuel i = some (-1, a) := by
  induction fuel generalizing i with
  | zero => omega
  | succ fuel ih =>
      by_cases hlt : i < c
      · rw [rootSearch_succ hk hfuel hc fuel hlt, if_neg (Ne.symm hb),
          Nat.mod_eq_of_lt (by omega)]
        exact ih (by omega)
      · rw [rootSearch, if_neg hlt]

/-- What is expected of the square root: it ends, returns one and leaves a root. -/
def RootRight (bits w a b c : ℕ) : Prop :=
  ∃ root, (∃ enough, ∀ fuel, enough ≤ fuel → modSqrRootOpt bits w fuel a b c = some (1, root)) ∧
    root * root ≡ b [MOD c]

theorem mul_self_modEq {root : ℕ} {x : ZMod c} (hroot : (root : ZMod c) = x) (hx : x * x = b) :
    root * root ≡ b [MOD c] := by
  rw [← ZMod.natCast_eq_natCast_iff, Nat.cast_mul, hroot, hx]

/-- The search for a root never ends from a counter of zero on. -/
theorem not_rootRight_of_counter (hc : c % 8 = 1) (hlarge : 1 < c) (hbits : c + 1 < 2 ^ bits)
    (hcounter : 0 ≤ lucasCounter ((c + 1) / 2)) : ¬ RootRight bits w a b c := by
  rintro ⟨root, ⟨enough, hrun⟩, -⟩
  have hnone : modSqrRootOpt bits w enough a b c = none := by
    rw [modSqrRootOpt, if_neg (by omega), if_neg (by omega), if_pos hc, Nat.mod_eq_of_lt hbits]
    exact rootSearch_none hcounter hlarge enough enough
  rw [hrun enough (le_refl _)] at hnone
  exact Option.some_ne_none _ hnone

/-- **`ModSqrRootOpt` is right** for the moduli whose roots are written down.  For
one modulo eight it only is for the number one, and only where the counter of
`Lucas_Sequence` starts below zero. -/
theorem rootRight_iff (hprime : c.Prime) (hodd : c ≠ 2) (hbits : 2 * c ≤ 2 ^ bits) (hb : b < c)
    (hsquare : IsSquare (b : ZMod c)) :
    RootRight bits w a b c ↔
      c % 8 ≠ 1 ∨ (b = 1 ∧ 128 ≤ (((c + 1) / 2).size - 1) % 256) := by
  have := Fact.mk hprime
  have hlarge := hprime.one_lt
  have hmod : c % 2 = 1 := hprime.mod_two_eq_one_iff_ne_two.2 hodd
  by_cases hone : c % 8 = 1
  · have hcounter := lucasCounter_neg (show 0 < (c + 1) / 2 by omega)
    rcases lt_or_ge (lucasCounter ((c + 1) / 2)) 0 with hneg | hnonneg
    · have hrun : ∀ fuel, modSqrRootOpt bits w fuel a b c =
          rootSearch bits w fuel a b c ((c + 1) / 2) fuel 1 := fun fuel => by
        rw [modSqrRootOpt, if_neg (by omega), if_neg (by omega), if_pos hone,
          Nat.mod_eq_of_lt (by omega : c + 1 < 2 ^ bits)]
      by_cases hb1 : b = 1
      · refine iff_of_true ⟨1, ⟨1, fun fuel hfuel => ?_⟩, by rw [hb1]⟩ (.inr ⟨hb1, hcounter.1 hneg⟩)
        obtain ⟨fuel, rfl⟩ : ∃ n, fuel = n + 1 := ⟨fuel - 1, by omega⟩
        rw [hrun, rootSearch_succ hneg (Nat.succ_pos _) hlarge _ hlarge, if_pos hb1.symm]
      · refine iff_of_false ?_ (by omega)
        rintro ⟨root, ⟨enough, hright⟩, -⟩
        have hfound := hright (enough + 1) (Nat.le_succ _)
        rw [hrun] at hfound
        exact rootSearch_ne hneg (Nat.succ_pos _) hlarge hb1 _ _ _ hfound
    · refine iff_of_false (not_rootRight_of_counter hone hlarge (by omega) hnonneg) ?_
      rintro (hne | ⟨-, hlength⟩)
      · exact hne hone
      · exact not_lt.2 hnonneg (hcounter.2 hlength)
  · refine iff_of_true ?_ (.inl hone)
    by_cases hthree : c % 4 = 3
    · refine ⟨modExp b (c / 4 + 1) c, ⟨0, fun fuel _ => ?_⟩,
        mul_self_modEq (cast_modExp b (c / 4 + 1)) (root_of_mod_four hthree hsquare)⟩
      rw [modSqrRootOpt, if_pos hthree, Nat.mod_eq_of_lt (by omega)]
    · have hfive : c % 8 = 5 := by omega
      refine ⟨rootModEight bits b c, ⟨0, fun fuel _ => ?_⟩,
        mul_self_modEq (cast_rootModEight (by omega) hbits hb) (root_of_mod_eight hfive hsquare)⟩
      rw [modSqrRootOpt, if_neg hthree, if_pos hfive]

/-- The root of two modulo seven. -/
theorem rootRight_iff_seven :
    RootRight 136 8 0 2 7 ↔ 7 % 8 ≠ 1 ∨ (2 = 1 ∧ 128 ≤ (((7 + 1) / 2).size - 1) % 256) :=
  rootRight_iff (by norm_num) (by decide) (by norm_num) (by decide) ⟨3, by decide⟩

/-- **No root of two modulo seventeen** is found, though six is one. -/
theorem rootRight_seventeen_stuck :
    IsSquare ((2 : ℕ) : ZMod 17) ∧ ¬ RootRight 136 8 0 2 17 :=
  ⟨⟨6, by decide⟩, not_rootRight_of_counter (by decide) (by decide) (by norm_num) (by decide)⟩

end ModSqrRoot

end Wiselib.Crypto
