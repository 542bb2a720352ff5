import Mathlib

/-!
# Reduction and inverses of multi-precision numbers

`ModSmall` and `ModInv` of `crypto/pmp.h` on the values of the digit arrays.

`ModInv` is the extended Euclidean algorithm without negative numbers: the
coefficients stay positive and a sign says how to read them.  `InvState` is its
invariant, kept by one step (`InvState.step`); its equation bounds the
coefficients by the modulus, so that none of them outgrows its array.
-/

namespace Wiselib.Crypto

/-! ## `ModSmall` -/

/-- The loop of `ModSmall`, which subtracts the modulus while the number is larger. -/
def modSmallLoop (c : ℕ) : ℕ → ℕ → ℕ
  | 0, b => b
  | fuel + 1, b => if c < b then modSmallLoop c fuel (b - c) else b

/-- `ModSmall`. -/
def modSmall (b c : ℕ) : ℕ :=
  modSmallLoop c b b

theorem modSmallLoop_spec {c : ℕ} (hc : 0 < c) :
    ∀ fuel b, b ≤ fuel → modSmallLoop c fuel b ≤ c ∧ modSmallLoop c fuel b ≡ b [MOD c] := by
  intro fuel
  induction fuel with
  | zero =>
      intro b hb
      exact ⟨hb.trans (Nat.zero_le c), rfl⟩
  | succ fuel ih =>
      intro b hb
      unfold modSmallLoop
      split_ifs with hlarger
      · obtain ⟨hle, hmod⟩ := ih (b - c) (by omega)
        refine ⟨hle, hmod.trans ?_⟩
        calc b - c ≡ b - c + c [MOD c] := (Nat.add_mod_right _ _).symm
          _ = b := by omega
      · exact ⟨by omega, rfl⟩

theorem modSmall_spec {b c : ℕ} (hc : 0 < c) : modSmall b c ≤ c ∧ modSmall b c ≡ b [MOD c] :=
  modSmallLoop_spec hc b b (le_refl b)

theorem modSmall_eq_mod {b c : ℕ} (hc : 0 < c) (hb : b % c ≠ 0) : modSmall b c = b % c := by
  obtain ⟨hle, hmod⟩ := @modSmall_spec b c hc
  have hne : modSmall b c ≠ c := fun heq => hb (by rw [← hmod, heq, Nat.mod_self])
  rw [← hmod, Nat.mod_eq_of_lt (lt_of_le_of_ne hle hne)]

/-! ## `ModInv` -/

/-- The variables of the loop of `ModInv`. -/
structure InvState where
  u1 : ℕ
  u3 : ℕ
  v1 : ℕ
  v3 : ℕ
  /-- `u1Sign` is one. -/
  positive : Bool

/-- The body of the loop, on arrays of `bits` bits. -/
def InvState.next (bits : ℕ) (state : InvState) : InvState where
  u1 := state.v1
  u3 := state.v3
  v1 := (state.u1 + state.u3 / state.v3 * state.v1 % 2 ^ bits) % 2 ^ bits
  v3 := state.u3 % state.v3
  positive := !state.positive

/-- The loop of `ModInv`. -/
def modInvLoop (bits : ℕ) : ℕ → InvState → InvState
  | 0, state => state
  | fuel + 1, state => if state.v3 = 0 then state else modInvLoop bits fuel (state.next bits)

/-- `ModInv`. -/
def modInv (bits b c : ℕ) : ℕ :=
  let last := modInvLoop bits (c + 1) ⟨1, b, 0, c, true⟩
  if last.positive then last.u1 else (2 ^ bits + c - last.u1) % 2 ^ bits

namespace InvState

/-- The sign as a residue. -/
def sign (c : ℕ) (state : InvState) : ZMod c :=
  if state.positive then 1 else -1

/-- The invariant of the loop for the inverse of `b` modulo `c`. -/
structure Inv (b c : ℕ) (state : InvState) : Prop where
  cross : state.v1 * state.u3 + state.u1 * state.v3 = c
  u1_le : state.u1 ≤ c
  v1_le : state.v1 ≤ c
  u1_eq : (b * state.u1 : ZMod c) = sign c state * state.u3
  v1_eq : (b * state.v1 : ZMod c) = -(sign c state * state.v3)
  coprime : Nat.Coprime state.u3 state.v3

variable {bits b c : ℕ} {state : InvState}

theorem Inv.next_v1 (hinv : Inv b c state) (hc : c < 2 ^ bits) (hv3 : state.v3 ≠ 0) :
    (state.next bits).v1 = state.u1 + state.u3 / state.v3 * state.v1 ∧
      state.u1 + state.u3 / state.v3 * state.v1 ≤ c := by
  have hle : state.u1 + state.u3 / state.v3 * state.v1 ≤ c :=
    calc state.u1 + state.u3 / state.v3 * state.v1
        ≤ (state.u1 + state.u3 / state.v3 * state.v1) * state.v3 :=
          Nat.le_mul_of_pos_right _ (Nat.pos_of_ne_zero hv3)
      _ = state.v1 * (state.v3 * (state.u3 / state.v3)) + state.u1 * state.v3 := by ring
      _ ≤ state.v1 * state.u3 + state.u1 * state.v3 :=
          Nat.add_le_add_right (Nat.mul_le_mul_left _ (Nat.mul_div_le _ _)) _
      _ = c := hinv.cross
  refine ⟨?_, hle⟩
  have hproduct : state.u3 / state.v3 * state.v1 % 2 ^ bits = state.u3 / state.v3 * state.v1 :=
    Nat.mod_eq_of_lt (by omega)
  show (state.u1 + state.u3 / state.v3 * state.v1 % 2 ^ bits) % 2 ^ bits = _
  rw [hproduct, Nat.mod_eq_of_lt (by omega)]

/-- **One step** of the Euclidean algorithm. -/
theorem Inv.step (hinv : Inv b c state) (hc : c < 2 ^ bits) (hv3 : state.v3 ≠ 0) :
    Inv b c (state.next bits) := by
  obtain ⟨hv1, hle⟩ := hinv.next_v1 hc hv3
  have hsign : sign c (state.next bits) = -sign c state := by
    unfold sign InvState.next
    cases state.positive <;> simp
  have hdivision := Nat.div_add_mod state.u3 state.v3
  have hremainder : (state.u3 : ZMod c) =
      state.v3 * (state.u3 / state.v3 : ℕ) + (state.u3 % state.v3 : ℕ) := by
    rw [← Nat.cast_mul, ← Nat.cast_add, hdivision]
  have hcross := hinv.cross
  have hu1 := hinv.u1_eq
  have hv1' := hinv.v1_eq
  constructor
  · rw [hv1]
    show (state.u1 + state.u3 / state.v3 * state.v1) * state.v3 +
      state.v1 * (state.u3 % state.v3) = c
    calc (state.u1 + state.u3 / state.v3 * state.v1) * state.v3 +
          state.v1 * (state.u3 % state.v3)
        = state.v1 * (state.v3 * (state.u3 / state.v3) + state.u3 % state.v3) +
            state.u1 * state.v3 := by ring
      _ = c := by rw [hdivision, hcross]
  · exact hinv.v1_le
  · rw [hv1]
    exact hle
  · rw [hsign]
    show (b * state.v1 : ZMod c) = -sign c state * state.v3
    rw [hv1', neg_mul]
  · rw [hsign, hv1]
    show (b * (state.u1 + state.u3 / state.v3 * state.v1 : ℕ) : ZMod c) =
      -(-sign c state * (state.u3 % state.v3 : ℕ))
    push_cast
    calc (b * (state.u1 + (state.u3 / state.v3 : ℕ) * state.v1) : ZMod c)
        = b * state.u1 + (state.u3 / state.v3 : ℕ) * (b * state.v1) := by ring
      _ = sign c state * state.u3 -
            (state.u3 / state.v3 : ℕ) * (sign c state * state.v3) := by rw [hu1, hv1']; ring
      _ = -(-sign c state * (state.u3 % state.v3 : ℕ)) := by rw [hremainder]; ring
  · show Nat.gcd state.v3 (state.u3 % state.v3) = 1
    rw [Nat.gcd_comm, ← Nat.gcd_rec, Nat.gcd_comm]
    exact hinv.coprime

/-- **The loop** ends with the invariant and nothing left to divide by. -/
theorem Inv.loop (hc : c < 2 ^ bits) :
    ∀ fuel (state : InvState), Inv b c state → state.v3 < fuel →
      Inv b c (modInvLoop bits fuel state) ∧ (modInvLoop bits fuel state).v3 = 0 := by
  intro fuel
  induction fuel with
  | zero => exact fun state _ hfuel => absurd hfuel (Nat.not_lt_zero _)
  | succ fuel ih =>
      intro state hinv hfuel
      unfold modInvLoop
      by_cases hv3 : state.v3 = 0
      · rw [if_pos hv3]
        exact ⟨hinv, hv3⟩
      · rw [if_neg hv3]
        have hsmaller : (state.next bits).v3 < state.v3 :=
          Nat.mod_lt _ (Nat.pos_of_ne_zero hv3)
        exact ih _ (hinv.step hc hv3) (by omega)

end InvState

/-- **`ModInv` is the inverse** of a number that is coprime to the modulus. -/
theorem modInv_mul {bits b c : ℕ} (hpos : 0 < c) (hc : c < 2 ^ bits) (hcoprime : Nat.Coprime b c) :
    (modInv bits b c * b : ZMod c) = 1 := by
  have hstart : InvState.Inv b c ⟨1, b, 0, c, true⟩ := by
    refine ⟨by simp, hpos, Nat.zero_le c, ?_, ?_, hcoprime⟩
    · simp [InvState.sign]
    · simp [InvState.sign]
  obtain ⟨hinv, hdone⟩ := InvState.Inv.loop hc (c + 1) _ hstart (Nat.lt_succ_self c)
  unfold modInv
  generalize modInvLoop bits (c + 1) ⟨1, b, 0, c, true⟩ = last at hinv hdone
  have hgcd : last.u3 = 1 := by
    have hcoprime' := hinv.coprime
    rwa [hdone, Nat.coprime_zero_right] at hcoprime'
  have hresult := hinv.u1_eq
  rw [hgcd, Nat.cast_one, mul_one] at hresult
  dsimp only
  split_ifs with hpositive
  · rw [InvState.sign, if_pos hpositive] at hresult
    rw [mul_comm]
    exact hresult
  · rw [InvState.sign, if_neg hpositive] at hresult
    have hle := hinv.u1_le
    have hnegated : (2 ^ bits + c - last.u1) % 2 ^ bits = c - last.u1 := by
      have hsplit : 2 ^ bits + c - last.u1 = 2 ^ bits + (c - last.u1) := by omega
      rw [hsplit, Nat.add_mod_left, Nat.mod_eq_of_lt (by omega)]
    rw [hnegated, Nat.cast_sub hle, ZMod.natCast_self, zero_sub, neg_mul, mul_comm, hresult, neg_neg]

end Wiselib.Crypto
