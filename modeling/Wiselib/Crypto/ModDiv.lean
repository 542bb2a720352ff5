import Wiselib.Crypto.Pmp
import Wiselib.Crypto.EccFp

/-!
# Modular division

`ModDivOpt` of `crypto/pmp.h` on the values of the digit arrays, which have
`bits` bits altogether.  It is a binary algorithm: `A` and `B` start with the
divisor `c` and the modulus `d` and are halved and subtracted until they are
equal, and `U` and `V` follow them modulo `d` (`Follows`), `U` from the dividend
`b` on and `V` from zero on.

## Strategy

* One step of any branch halves `A` or `B`, or halves their difference.
  `Follows.halve` and `Follows.subtract` say what the coefficient does with it,
  so that `Inv.next` is one line per branch.
* `A + B` decreases in every step as long as both are positive, which they are
  from a divisor other than zero on (`loop_spec`).
* Zero is even and half of it is zero: `loop_zero` is the run that never ends.
-/

namespace Wiselib.Crypto

/-- The variables of `ModDivOpt`. -/
structure DivState where
  A : ℕ
  B : ℕ
  U : ℕ
  V : ℕ

namespace DivState

variable (bits d : ℕ)

/-- Halves a coefficient, after adding the modulus if it is odd. -/
def halve (u : ℕ) : ℕ :=
  if u % 2 = 0 then u / 2 else (u + d) % 2 ^ bits / 2

/-- The difference of two coefficients, after adding the modulus if it borrows. -/
def subtract (u v : ℕ) : ℕ :=
  (2 ^ bits + (if u < v then (u + d) % 2 ^ bits else u) - v) % 2 ^ bits

/-- The body of the loop of `ModDivOpt`. -/
def next (s : DivState) : DivState :=
  if s.A % 2 = 0 then { s with A := s.A / 2, U := halve bits d s.U }
  else if s.B % 2 = 0 then { s with B := s.B / 2, V := halve bits d s.V }
  else if s.B < s.A then
    { s with
      A := (2 ^ bits + s.A - s.B) % 2 ^ bits / 2
      U := halve bits d (subtract bits d s.U s.V) }
  else
    { s with
      B := (2 ^ bits + s.B - s.A) % 2 ^ bits / 2
      V := halve bits d (subtract bits d s.V s.U) }

/-- The loop of `ModDivOpt`, as far as the fuel lasts. -/
def loop : ℕ → DivState → Option ℕ
  | 0, _ => none
  | fuel + 1, s => if s.A = s.B then some s.U else loop fuel (s.next bits d)

end DivState

/-- `ModDivOpt`. -/
def modDivOpt (bits fuel b c d : ℕ) : Option ℕ :=
  DivState.loop bits d fuel ⟨c, d, b, 0⟩

namespace DivState

/-! ## Coefficients -/

/-- A coefficient `u` follows `a`: they stand in the same relation as the
result and the divisor. -/
structure Follows (b c d a u : ℕ) : Prop where
  lt : u < d
  congr : u * c ≡ a * b [MOD d]

section Coefficients

variable {bits b c d a a' u v : ℕ}

theorem halve_spec (hodd : d % 2 = 1) (hbits : 2 * d ≤ 2 ^ bits) (hu : u < d) :
    halve bits d u < d ∧ 2 * halve bits d u ≡ u [MOD d] := by
  unfold halve
  split_ifs with heven
  · refine ⟨by omega, ?_⟩
    have hhalf : 2 * (u / 2) = u := by omega
    rw [hhalf]
  · rw [Nat.mod_eq_of_lt (by omega)]
    refine ⟨by omega, ?_⟩
    have hhalf : 2 * ((u + d) / 2) = u + d := by omega
    rw [hhalf]
    exact Nat.add_mod_right u d

theorem subtract_spec (hbits : 2 * d ≤ 2 ^ bits) (hu : u < d) (hv : v < d) :
    subtract bits d u v < d ∧ subtract bits d u v + v ≡ u [MOD d] := by
  have hdifference : ∀ x, v ≤ x → x < 2 ^ bits → (2 ^ bits + x - v) % 2 ^ bits = x - v := by
    intro x hle hlt
    have hsplit : 2 ^ bits + x - v = 2 ^ bits + (x - v) := by omega
    rw [hsplit, Nat.add_mod_left, Nat.mod_eq_of_lt (by omega)]
  unfold subtract
  split_ifs with hborrow
  · rw [Nat.mod_eq_of_lt (show u + d < 2 ^ bits by omega), hdifference _ (by omega) (by omega)]
    refine ⟨by omega, ?_⟩
    have hback : u + d - v + v = u + d := by omega
    rw [hback]
    exact Nat.add_mod_right u d
  · rw [hdifference _ (by omega) (by omega)]
    refine ⟨by omega, ?_⟩
    have hback : u - v + v = u := by omega
    rw [hback]

theorem Follows.halve (hfollows : Follows b c d a u) (hodd : d % 2 = 1)
    (hbits : 2 * d ≤ 2 ^ bits) (heven : a % 2 = 0) :
    Follows b c d (a / 2) (DivState.halve bits d u) := by
  obtain ⟨hlt, hhalf⟩ := halve_spec hodd hbits hfollows.lt
  refine ⟨hlt, ?_⟩
  have htwo : Nat.gcd d 2 = 1 := Nat.coprime_two_right.2 (Nat.odd_iff.2 hodd)
  refine Nat.ModEq.cancel_left_of_coprime htwo ?_
  calc 2 * (DivState.halve bits d u * c) = 2 * DivState.halve bits d u * c := (mul_assoc _ _ _).symm
    _ ≡ u * c [MOD d] := hhalf.mul_right c
    _ ≡ a * b [MOD d] := hfollows.congr
    _ = 2 * (a / 2 * b) := by rw [← mul_assoc]; congr 1; omega

theorem Follows.subtract (hfollows : Follows b c d a u) (hfollows' : Follows b c d a' v)
    (hbits : 2 * d ≤ 2 ^ bits) (hle : a' ≤ a) :
    Follows b c d (a - a') (DivState.subtract bits d u v) := by
  obtain ⟨hlt, hback⟩ := subtract_spec hbits hfollows.lt hfollows'.lt
  refine ⟨hlt, Nat.ModEq.add_right_cancel hfollows'.congr ?_⟩
  calc DivState.subtract bits d u v * c + v * c = (DivState.subtract bits d u v + v) * c := by ring
    _ ≡ u * c [MOD d] := hback.mul_right c
    _ ≡ a * b [MOD d] := hfollows.congr
    _ = (a - a') * b + a' * b := by rw [← add_mul]; congr 1; omega

end Coefficients

/-! ## Runs -/

/-- The invariant of the loop. -/
structure Inv (b c d : ℕ) (s : DivState) : Prop where
  A_pos : 0 < s.A
  B_pos : 0 < s.B
  A_le : s.A ≤ d
  B_le : s.B ≤ d
  U_follows : Follows b c d s.A s.U
  V_follows : Follows b c d s.B s.V
  coprime : Nat.Coprime c d → Nat.Coprime s.A s.B

section Runs

variable {bits b c d : ℕ} {s : DivState}

theorem coprime_half_sub {x y : ℕ} (hcoprime : Nat.Coprime x y) (hlt : y < x) (hx : x % 2 = 1)
    (hy : y % 2 = 1) : Nat.Coprime ((x - y) / 2) y := by
  have hdvd : (x - y) / 2 ∣ x - y := Nat.div_dvd_of_dvd (by omega)
  refine Nat.Coprime.coprime_dvd_left hdvd ?_
  exact (Nat.coprime_sub_self_left hlt.le).2 hcoprime

/-- **One step** keeps the invariant and decreases the sum of `A` and `B`. -/
theorem Inv.next (hinv : Inv b c d s) (hodd : d % 2 = 1) (hbits : 2 * d ≤ 2 ^ bits)
    (hne : s.A ≠ s.B) :
    Inv b c d (s.next bits d) ∧ (s.next bits d).A + (s.next bits d).B < s.A + s.B := by
  obtain ⟨hA, hB, hAle, hBle, hU, hV, hcoprime⟩ := hinv
  have hdifference : ∀ x y, y ≤ x → x ≤ d → (2 ^ bits + x - y) % 2 ^ bits = x - y := by
    intro x y hyx hxd
    have hsplit : 2 ^ bits + x - y = 2 ^ bits + (x - y) := by omega
    rw [hsplit, Nat.add_mod_left, Nat.mod_eq_of_lt (by omega)]
  unfold DivState.next
  split_ifs with hAeven hBeven hlt
  · have hdvd : s.A / 2 ∣ s.A := Nat.div_dvd_of_dvd (Nat.dvd_of_mod_eq_zero hAeven)
    refine ⟨⟨by dsimp only; omega, hB, by dsimp only; omega, hBle, hU.halve hodd hbits hAeven, hV,
      fun h => (hcoprime h).coprime_dvd_left hdvd⟩, by dsimp only; omega⟩
  · have hdvd : s.B / 2 ∣ s.B := Nat.div_dvd_of_dvd (Nat.dvd_of_mod_eq_zero hBeven)
    refine ⟨⟨hA, by dsimp only; omega, hAle, by dsimp only; omega, hU,
      hV.halve hodd hbits hBeven, fun h => (hcoprime h).coprime_dvd_right hdvd⟩,
      by dsimp only; omega⟩
  · rw [hdifference _ _ hlt.le hAle]
    refine ⟨⟨by dsimp only; omega, hB, by dsimp only; omega, hBle,
      (hU.subtract hV hbits hlt.le).halve hodd hbits (by omega), hV,
      fun h => coprime_half_sub (hcoprime h) hlt (by omega) (by omega)⟩, by dsimp only; omega⟩
  · have hgt : s.A < s.B := by omega
    rw [hdifference _ _ hgt.le hBle]
    refine ⟨⟨hA, by dsimp only; omega, hAle, by dsimp only; omega, hU,
      (hV.subtract hU hbits hgt.le).halve hodd hbits (by omega),
      fun h => (coprime_half_sub (hcoprime h).symm hgt (by omega) (by omega)).symm⟩,
      by dsimp only; omega⟩

/-- **The loop** ends with equal numbers. -/
theorem loop_spec (hodd : d % 2 = 1) (hbits : 2 * d ≤ 2 ^ bits) :
    ∀ n (s : DivState), Inv b c d s → s.A + s.B ≤ n →
      ∃ last, Inv b c d last ∧ last.A = last.B ∧
        ∀ fuel, n < fuel → loop bits d fuel s = some last.U := by
  intro n
  induction n with
  | zero =>
      intro s hinv hn
      have hpos := hinv.A_pos
      omega
  | succ n ih =>
      intro s hinv hn
      by_cases heq : s.A = s.B
      · refine ⟨s, hinv, heq, fun fuel hfuel => ?_⟩
        obtain ⟨fuel, rfl⟩ : ∃ k, fuel = k + 1 := ⟨fuel - 1, by omega⟩
        rw [loop, if_pos heq]
      · obtain ⟨hnext, hless⟩ := hinv.next hodd hbits heq
        obtain ⟨last, hlast, hdone, hrun⟩ := ih _ hnext (by omega)
        refine ⟨last, hlast, hdone, fun fuel hfuel => ?_⟩
        obtain ⟨fuel, rfl⟩ : ∃ k, fuel = k + 1 := ⟨fuel - 1, by omega⟩
        rw [loop, if_neg heq]
        exact hrun fuel (by omega)

/-- **The loop** never ends from zero on. -/
theorem loop_zero (fuel : ℕ) : ∀ s : DivState, s.A = 0 → 0 < s.B → loop bits d fuel s = none := by
  induction fuel with
  | zero => exact fun s _ _ => rfl
  | succ fuel ih =>
      intro s hA hB
      have hnext : s.next bits d = { s with A := 0, U := halve bits d s.U } := by
        rw [DivState.next, if_pos (by rw [hA]), hA]
      rw [loop, if_neg (by omega), hnext]
      exact ih _ rfl hB

end Runs

end DivState

/-! ## `ModDivOpt` -/

section ModDivOpt

variable {bits b c d : ℕ}

/-- **`ModDivOpt` divides** by a number other than zero that is coprime to the
modulus, and ends with any number other than zero. -/
theorem modDivOpt_spec (hodd : d % 2 = 1) (hbits : 2 * d ≤ 2 ^ bits) (hb : b < d) (hpos : 0 < c)
    (hc : c < d) :
    ∃ a, a < d ∧ (∀ fuel, c + d < fuel → modDivOpt bits fuel b c d = some a) ∧
      (Nat.Coprime c d → a * c ≡ b [MOD d]) := by
  have hstart : DivState.Inv b c d ⟨c, d, b, 0⟩ :=
    ⟨hpos, by dsimp only; omega, hc.le, le_refl d, ⟨hb, by rw [mul_comm]⟩,
      ⟨Nat.zero_lt_of_lt hb, by simp [Nat.ModEq]⟩, fun hcoprime => hcoprime⟩
  obtain ⟨last, hinv, hdone, hrun⟩ := DivState.loop_spec hodd hbits (c + d) _ hstart (le_refl _)
  refine ⟨last.U, hinv.U_follows.lt, hrun, fun hcoprime => ?_⟩
  have hone : last.A = 1 := by
    have hself := hinv.coprime hcoprime
    rwa [← hdone, Nat.coprime_self] at hself
  have hcongr := hinv.U_follows.congr
  rwa [hone, one_mul] at hcongr

theorem modDivOpt_zero (hd : 0 < d) (fuel : ℕ) : modDivOpt bits fuel b 0 d = none :=
  DivState.loop_zero fuel _ rfl hd

theorem eq_modMult_modInv {a : ℕ} (hd : d < 2 ^ bits) (ha : a < d) (hcoprime : Nat.Coprime c d)
    (hquotient : a * c ≡ b [MOD d]) : a = modMult b (modInv bits c d) d := by
  have hinverse := modInv_mul (Nat.zero_lt_of_lt ha) hd hcoprime
  have hresidue : (a : ZMod d) = ((b * modInv bits c d : ℕ) : ZMod d) := by
    have hb : ((a * c : ℕ) : ZMod d) = b := (ZMod.natCast_eq_natCast_iff _ _ _).2 hquotient
    rw [Nat.cast_mul, ← hb, Nat.cast_mul, mul_assoc, mul_comm (c : ZMod d), hinverse, mul_one]
  rw [modMult, ← (ZMod.natCast_eq_natCast_iff _ _ _).1 hresidue, Nat.mod_eq_of_lt ha]

/-- What is expected of a modular division: it ends, and it divides where there
is an inverse, as the product with that inverse does. -/
def DividesRight (bits b c d : ℕ) : Prop :=
  ∃ a, (∃ enough, ∀ fuel, enough ≤ fuel → modDivOpt bits fuel b c d = some a) ∧
    (0 < c → Nat.Coprime c d →
      a < d ∧ a * c ≡ b [MOD d] ∧ a = modMult b (modInv bits c d) d)

/-- **`ModDivOpt` is right for every divisor but zero.** -/
theorem modDivOpt_right_iff (hodd : d % 2 = 1) (hbits : 2 * d ≤ 2 ^ bits) (hb : b < d)
    (hc : c < d) : DividesRight bits b c d ↔ c ≠ 0 := by
  constructor
  · rintro ⟨a, ⟨enough, hrun⟩, -⟩ rfl
    have hnone := @modDivOpt_zero bits b d (by omega) enough
    rw [hrun enough (le_refl _)] at hnone
    exact Option.some_ne_none _ hnone
  · intro hne
    obtain ⟨a, ha, hrun, hquotient⟩ := modDivOpt_spec hodd hbits hb (Nat.pos_of_ne_zero hne) hc
    refine ⟨a, ⟨c + d + 1, fun fuel hfuel => hrun fuel hfuel⟩, fun _ hcoprime => ?_⟩
    exact ⟨ha, hquotient hcoprime, eq_modMult_modInv (by omega) ha hcoprime (hquotient hcoprime)⟩

/-- Five divided by three modulo seven. -/
theorem modDivOpt_right_iff_seven : DividesRight 8 5 3 7 ↔ 3 ≠ 0 :=
  modDivOpt_right_iff (by decide) (by decide) (by decide) (by decide)

/-- **Nothing divided by zero** is not computed: with the prime of the built-in
curve of 128 bits the loop halves zero forever. -/
theorem modDivOpt_zero_stuck :
    ¬ DividesRight 136 1 0 0xFFFFFFFDFFFFFFFFFFFFFFFFFFFFFFFF := by
  rintro ⟨a, ⟨enough, hrun⟩, -⟩
  have hnone := @modDivOpt_zero 136 1 0xFFFFFFFDFFFFFFFFFFFFFFFFFFFFFFFF (by norm_num) enough
  rw [hrun enough (le_refl _)] at hnone
  exact Option.some_ne_none _ hnone

end ModDivOpt

end Wiselib.Crypto
