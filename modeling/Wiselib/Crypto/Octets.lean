import Wiselib.Crypto.Digits

/-!
# Octets of numbers

`Encode` and `Decode` of `crypto/pmp.h`.  A number is an array of digits from
the lowest on; its octets are a character string from the highest on.

Every digit is a whole number of octets, so both conversions keep the number
modulo what fits into the result (`value_encode`, `value_decode`).
-/

namespace Wiselib.Crypto

/-- The conversion to `int8_t`. -/
def int8 (n : ℤ) : ℤ :=
  (BitVec.ofInt 8 n).toInt

theorem int8_of_fits {n : ℤ} (hlow : -128 ≤ n) (hhigh : n < 128) : int8 n = n := by
  rw [int8, BitVec.toInt_ofInt, Int.bmod_eq_of_le] <;> omega

namespace Digits

variable {w : ℕ}

/-! ## Conversions -/

/-- An octet. -/
abbrev Octet := BitVec 8

/-- The array of `n` digits for a number. -/
def digitsOf (w : ℕ) : ℕ → ℕ → List (BitVec w)
  | 0, _ => []
  | n + 1, x => BitVec.ofNat w x :: digitsOf w n (x / 2 ^ w)

/-- The inner loop of `Encode`: the octets of the digit `t` from the `u`-th bit on. -/
def octetsFrom (t : BitVec w) : ℕ → ℕ → List Octet
  | 0, _ => []
  | n + 1, u => (t >>> u).setWidth 8 :: octetsFrom t n (u + 8)

/-- `Encode` of `b` into `len` octets.  The last octet is written first. -/
def encode (len : ℕ) (b : List (BitVec w)) : List Octet :=
  ((b.flatMap fun t => octetsFrom t (w / 8) 0).takeD len 0).reverse

/-- The inner loop of `Decode`: octets from the `u`-th bit of a digit on. -/
def digitFrom (w : ℕ) : List Octet → ℕ → BitVec w
  | [], _ => 0
  | b :: bs, u => b.setWidth w <<< u ||| digitFrom w bs (u + 8)

/-- The outer loop of `Decode` over the digits, for octets from the last on. -/
def decodeLoop (w : ℕ) : ℕ → List Octet → List (BitVec w)
  | 0, _ => []
  | digits + 1, bs =>
      digitFrom w (bs.take (w / 8)) 0 :: decodeLoop w digits (bs.drop (w / 8))

/-- `Decode` of `b` into an array of `digits` digits. -/
def decode (w digits : ℕ) (b : List Octet) : List (BitVec w) :=
  decodeLoop w digits b.reverse

@[simp] theorem length_encode (len : ℕ) (b : List (BitVec w)) : (encode len b).length = len := by
  simp [encode]

/-! ## Values -/

theorem value_digitsOf (n x : ℕ) : value (digitsOf w n x) = x % (2 ^ w) ^ n := by
  induction n generalizing x with
  | zero => simp [digitsOf, Nat.mod_one]
  | succ n ih =>
      rw [digitsOf, value_cons, ih, BitVec.toNat_ofNat, pow_succ', Nat.mod_mul]

theorem value_takeD (len : ℕ) (ds : List (BitVec w)) :
    value (ds.takeD len 0) = value ds % (2 ^ w) ^ len := by
  induction len generalizing ds with
  | zero => simp [Nat.mod_one]
  | succ len ih =>
      rw [pow_succ']
      cases ds with
      | nil =>
          rw [List.takeD_succ, value_cons, ih]
          simp
      | cons d ds =>
          rw [List.takeD_succ, value_cons, List.head?_cons, Option.getD_some, List.tail_cons, ih,
            value_cons, Nat.mod_mul, Nat.add_mul_mod_self_left, Nat.mod_eq_of_lt d.isLt,
            Nat.add_mul_div_left _ _ (Nat.two_pow_pos w), Nat.div_eq_of_lt d.isLt, Nat.zero_add]

theorem value_octetsFrom (t : BitVec w) (n u : ℕ) :
    value (octetsFrom t n u) = t.toNat / 2 ^ u % (2 ^ 8) ^ n := by
  induction n generalizing u with
  | zero => simp [octetsFrom, Nat.mod_one]
  | succ n ih =>
      rw [octetsFrom, value_cons, ih, BitVec.toNat_setWidth, BitVec.toNat_ushiftRight,
        Nat.shiftRight_eq_div_pow, pow_succ' (2 ^ 8), Nat.mod_mul, Nat.div_div_eq_div_mul,
        ← pow_add]

theorem length_octetsFrom (t : BitVec w) (n u : ℕ) : (octetsFrom t n u).length = n := by
  induction n generalizing u with
  | zero => rfl
  | succ n ih => rw [octetsFrom, List.length_cons, ih]

theorem octets_pow (hw : 8 ∣ w) : (2 ^ 8) ^ (w / 8) = 2 ^ w := by
  rw [← pow_mul, Nat.mul_div_cancel' hw]

theorem value_flatMap (hw : 8 ∣ w) (b : List (BitVec w)) :
    value (b.flatMap fun t => octetsFrom t (w / 8) 0) = value b := by
  induction b with
  | nil => rfl
  | cons t ts ih =>
      rw [List.flatMap_cons, value_append, value_octetsFrom, length_octetsFrom, ih, octets_pow hw,
        pow_zero, Nat.div_one, Nat.mod_eq_of_lt t.isLt, value_cons]

/-- **`Encode`** keeps the number modulo what fits into the octets. -/
theorem value_encode (hw : 8 ∣ w) (len : ℕ) (b : List (BitVec w)) :
    value (encode len b).reverse = value b % (2 ^ 8) ^ len := by
  rw [encode, List.reverse_reverse, value_takeD, value_flatMap hw]

theorem toNat_digitFrom (bs : List Octet) {u : ℕ} (hfits : u + 8 * bs.length ≤ w) :
    (digitFrom w bs u).toNat = 2 ^ u * value bs := by
  induction bs generalizing u with
  | nil => simp [digitFrom]
  | cons b bs ih =>
      rw [List.length_cons] at hfits
      have hb : b.toNat < 2 ^ w := b.isLt.trans_le (Nat.pow_le_pow_right two_pos (by omega))
      have hshift : b.toNat <<< u < 2 ^ (u + 8) := by
        rw [Nat.shiftLeft_eq, Nat.add_comm, pow_add]
        exact Nat.mul_lt_mul_of_pos_right b.isLt (Nat.two_pow_pos u)
      have hw : 2 ^ (u + 8) ≤ 2 ^ w := Nat.pow_le_pow_right two_pos (by omega)
      rw [digitFrom, BitVec.toNat_or, BitVec.toNat_shiftLeft, BitVec.toNat_setWidth,
        Nat.mod_eq_of_lt hb, Nat.mod_eq_of_lt (hshift.trans_le hw), ih (by omega), Nat.lor_comm,
        ← Nat.two_pow_add_eq_or_of_lt hshift, value_cons, Nat.shiftLeft_eq]
      ring

/-- **`Decode`** keeps the number modulo what fits into the digits. -/
theorem value_decodeLoop (hw : 8 ∣ w) (digits : ℕ) (bs : List Octet) :
    value (decodeLoop w digits bs) = value bs % (2 ^ w) ^ digits := by
  induction digits generalizing bs with
  | zero => simp [decodeLoop, Nat.mod_one]
  | succ digits ih =>
      have hfits : 0 + 8 * (bs.take (w / 8)).length ≤ w := by
        have hlength := List.length_take_le (w / 8) bs
        omega
      have hlow := value_lt (bs.take (w / 8))
      rw [decodeLoop, value_cons, toNat_digitFrom _ hfits, ih, pow_zero, Nat.one_mul]
      by_cases hlength : w / 8 ≤ bs.length
      · have hsplit : value bs = value (bs.take (w / 8)) + 2 ^ w * value (bs.drop (w / 8)) := by
          conv_lhs => rw [← List.take_append_drop (w / 8) bs]
          rw [value_append, List.length_take, Nat.min_eq_left hlength, octets_pow hw]
        rw [List.length_take, Nat.min_eq_left hlength, octets_pow hw] at hlow
        rw [hsplit, pow_succ', Nat.mod_mul, Nat.add_mul_mod_self_left, Nat.mod_eq_of_lt hlow,
          Nat.add_mul_div_left _ _ (Nat.two_pow_pos w), Nat.div_eq_of_lt hlow, Nat.zero_add]
      · have hall : bs.length ≤ w / 8 := by omega
        rw [List.take_of_length_le hall] at hlow ⊢
        rw [List.drop_of_length_le hall, value_nil, Nat.zero_mod, Nat.mul_zero, Nat.add_zero,
          Nat.mod_eq_of_lt]
        calc value bs < (2 ^ 8) ^ bs.length := hlow
          _ ≤ (2 ^ 8) ^ (w / 8) := Nat.pow_le_pow_right (by norm_num) hall
          _ = 2 ^ w := octets_pow hw
          _ ≤ (2 ^ w) ^ (digits + 1) := Nat.le_self_pow (Nat.succ_ne_zero _) _

/-- **A number of some digits** is decoded from as many octets as these digits have. -/
theorem value_decode_encode (hw : 8 ∣ w) {digits n x : ℕ} (hdigits : n ≤ digits)
    (hx : x < (2 ^ w) ^ n) :
    value (decode w digits (encode (n * (w / 8)) (digitsOf w n x))) = x := by
  have hroom : (2 ^ w) ^ n ≤ (2 ^ w) ^ digits := Nat.pow_le_pow_right (Nat.two_pow_pos w) hdigits
  have hoctets : (2 ^ 8) ^ (n * (w / 8)) = (2 ^ w) ^ n := by
    rw [Nat.mul_comm, pow_mul, octets_pow hw]
  rw [decode, value_decodeLoop hw, value_encode hw, value_digitsOf, hoctets, Nat.mod_mod,
    Nat.mod_eq_of_lt hx, Nat.mod_eq_of_lt (hx.trans_le hroom)]

end Digits

end Wiselib.Crypto
