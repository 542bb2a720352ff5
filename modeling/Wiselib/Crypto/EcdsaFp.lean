import Wiselib.Crypto.EccFp
import Wiselib.Crypto.Pmp

/-!
# ECDSA

`sign` and `verify` of `crypto/ecdsafp.h`, with the additions on the curve of
`crypto/eccfp.h`.

The points are a group; `c_dbl_affine` and `c_add_affine` compute its sums as
long as no sum of opposite points comes up, for which they have no case.

## Strategy

* `cMul` is the multiple for factors below the order of the point
  (`cMul_eq_of_lt`): no partial multiple is zero, so no opposite points meet.
* Both functions turn the hash into the same number (`digest`), congruent to the
  hash modulo the order (`digest_spec`).  Where the hash is not longer than the
  order this copies all of its digits, also where the array has fewer.
* `verify_signOnce`: what is signed is verified, because both factors of `verify`
  together are the ephemeral key again.

`complete_iff` says for which inputs both hold: nothing is written outside the
arrays, and what is signed is verified.
-/

namespace Wiselib.Crypto

/-! ## Words -/

/-- The processors of `crypto/pmp.h`. -/
inductive Processor where
  | eightBit
  | sixteenBit
  | thirtytwoBit
  deriving DecidableEq

/-- `NN_DIGIT_BITS`. -/
def Processor.digitBits : Processor → ℕ
  | .eightBit => 8
  | .sixteenBit => 16
  | .thirtytwoBit => 32

/-- `NN_DIGIT_LEN`. -/
def Processor.digitLen (processor : Processor) : ℕ := processor.digitBits / 8

/-- `NUMWORDS`. -/
def Processor.numWords (processor : Processor) (keyBitLen : ℕ) : ℕ :=
  keyBitLen / processor.digitBits + 1

/-! ## Points -/

/-- What ECDSA is instantiated with: the digits, the curve with its base point, and the
hash.  The pair of two zeroes stands for the neutral point. -/
structure Ecdsa (Point : Type*) [AddCommGroup Point] where
  processor : Processor
  /-- `KEY_BIT_LEN`. -/
  keyBitLen : ℕ
  r : ℕ
  G : Point
  x : Point → ℕ
  /-- What `c_add_affine` leaves for opposite points, where its slope is a division by
  zero. -/
  opposite : Point → Point → Point
  sha1 : List UInt8 → ℕ
  r_prime : r.Prime
  r_lt : r < 2 ^ (processor.numWords keyBitLen * processor.digitBits)
  smul_G : r • G = 0
  G_ne_zero : G ≠ 0
  x_zero : x 0 = 0
  sha1_lt : ∀ message, sha1 message < 2 ^ 160

namespace Ecdsa

variable {Point : Type*} [AddCommGroup Point] [DecidableEq Point] (ecdsa : Ecdsa Point)

/-- The bits of an array of `NUMWORDS` digits. -/
def bits : ℕ := ecdsa.processor.numWords ecdsa.keyBitLen * ecdsa.processor.digitBits

/-- `c_dbl_affine` of `P1` into `P0`.  A point whose second coordinate is zero is its own
opposite, and nothing is written for it. -/
def cDblAffine (P0 P1 : Point) : Point :=
  if P1 + P1 = 0 then P0 else P1 + P1

/-- `c_add_affine` of `P1` and `P2` into `P0`. -/
def cAddAffine (P0 P1 P2 : Point) : Point :=
  if P1 = P2 then cDblAffine P0 P1
  else if P1 = 0 then P2
  else if P2 = 0 then P1
  else if P1 + P2 = 0 then ecdsa.opposite P1 P2
  else P1 + P2

/-- The loop of `c_mul` over the bits of `n` below the `i`-th, from the highest. -/
def cMulLoop (P1 : Point) (n : ℕ) : ℕ → Point → Point
  | 0, P0 => P0
  | i + 1, P0 =>
      let doubled := cDblAffine P0 P0
      cMulLoop P1 n i (if n.testBit i then ecdsa.cAddAffine doubled doubled P1 else doubled)

/-- `c_mul`. -/
def cMul (P1 : Point) (n : ℕ) : Point :=
  ecdsa.cMulLoop P1 n n.size 0

/-! ## Signing and verifying -/

/-- The hash as a number of `NUMWORDS` digits, as both functions compute it, or none where
`Assign` writes behind the array. -/
def digest (hash : ℕ) : Option ℕ :=
  if ecdsa.r.size < hash.size then some (hash % ecdsa.r)
  else if 20 / ecdsa.processor.digitLen ≤ ecdsa.processor.numWords ecdsa.keyBitLen then
    some (if hash.size = ecdsa.r.size then modSmall hash ecdsa.r else hash)
  else none

/-- How a round of the loop of `sign` ends. -/
inductive Signing where
  /-- A write behind `digest`. -/
  | outside
  | retry
  | signed (r s : ℕ)
  deriving DecidableEq

/-- The body of the loop of `sign`, with the ephemeral key `k`. -/
def signOnce (msg : List UInt8) (d k : ℕ) : Signing :=
  if k = 0 then .retry
  else
    let P := ecdsa.cMul ecdsa.G k
    let r := ecdsa.x P % ecdsa.r
    if r = 0 then .retry
    else
      let kInv := modInv ecdsa.bits k ecdsa.r
      match ecdsa.digest (ecdsa.sha1 msg) with
      | none => .outside
      | some digest =>
          let dr := modMult d r ecdsa.r
          let tmp := modAdd ecdsa.bits digest dr ecdsa.r
          let s := modMult kInv tmp ecdsa.r
          if s = 0 then .retry else .signed r s

/-- `sign` with the ephemeral keys that `gen_private_key` gives one after the other;
`retry` when the loop asks for another one. -/
def sign (msg : List UInt8) (d : ℕ) : List ℕ → Signing
  | [] => .retry
  | k :: rest =>
      match ecdsa.signOnce msg d k with
      | .retry => sign msg d rest
      | result => result

/-- The end of `verify`: the coordinate reduced by the order. -/
def reduceX (x : ℕ) : ℕ :=
  if ecdsa.r.size < x.size then x % ecdsa.r
  else if x.size = ecdsa.r.size then modSmall x ecdsa.r
  else x

/-- `verify`: 1 for a signature that is accepted, none for a write behind `digest`. -/
def verify (msg : List UInt8) (r s : ℕ) (Q : Point) : Option ℕ :=
  if ecdsa.r ≤ r then some 3
  else if r = 0 then some 4
  else if ecdsa.r ≤ s then some 5
  else if s = 0 then some 6
  else
    let w := modInv ecdsa.bits s ecdsa.r
    match ecdsa.digest (ecdsa.sha1 msg) with
    | none => none
    | some digest =>
        let u1 := modMult digest w ecdsa.r
        let u2 := modMult r w ecdsa.r
        let final := ecdsa.cAddAffine 0 (ecdsa.cMul ecdsa.G u1) (ecdsa.cMul Q u2)
        if ecdsa.reduceX (ecdsa.x final) = r then some 1 else some 2

/-! ## Multiples -/

variable {ecdsa} {P P1 P2 : Point} {n : ℕ}

omit ecdsa in
theorem cDblAffine_eq (hzero : P1 + P1 = 0 → P = 0) : cDblAffine P P1 = P1 + P1 := by
  unfold cDblAffine
  split_ifs with hsum
  · rw [hsum, hzero hsum]
  · rfl

theorem cAddAffine_eq (hsum : P1 + P2 ≠ 0) : ecdsa.cAddAffine P P1 P2 = P1 + P2 := by
  unfold cAddAffine
  split_ifs with hequal hfirst hsecond
  · subst hequal
    exact cDblAffine_eq fun hzero => absurd hzero hsum
  · rw [hfirst, zero_add]
  · rw [hsecond, add_zero]
  · rfl

omit [DecidableEq Point] in
theorem smul_ne_zero_of_lt (hP : P ≠ 0) (horder : ecdsa.r • P = 0) (hpos : 0 < n)
    (hn : n < ecdsa.r) : n • P ≠ 0 := by
  have := Fact.mk ecdsa.r_prime
  intro hzero
  have hdvd := addOrderOf_dvd_of_nsmul_eq_zero hzero
  rw [addOrderOf_eq_prime horder hP] at hdvd
  exact absurd (Nat.le_of_dvd hpos hdvd) (not_le.2 hn)

theorem cMulLoop_eq (hP : P ≠ 0) (horder : ecdsa.r • P = 0) (hn : n < ecdsa.r) (i : ℕ) :
    ecdsa.cMulLoop P n i ((n >>> i) • P) = n • P := by
  induction i with
  | zero => simp [cMulLoop]
  | succ i ih =>
      have hsplit := DoubleAndAdd.shiftRight_eq_double n i
      have hle : n >>> i ≤ n := by
        rw [Nat.shiftRight_eq_div_pow]
        exact Nat.div_le_self _ _
      have hdouble : (n >>> (i + 1)) • P + (n >>> (i + 1)) • P = (2 * (n >>> (i + 1))) • P := by
        rw [two_mul, add_nsmul]
      have hdoubled : cDblAffine ((n >>> (i + 1)) • P) ((n >>> (i + 1)) • P) =
          (2 * (n >>> (i + 1))) • P := by
        rw [cDblAffine_eq, hdouble]
        -- a double that is zero is that of the neutral point
        intro hzero
        rw [hdouble] at hzero
        by_cases hsmall : n >>> (i + 1) = 0
        · rw [hsmall, zero_nsmul]
        · exact absurd hzero (smul_ne_zero_of_lt hP horder (by omega) (by omega))
      have hbit : (if n.testBit i then ecdsa.cAddAffine ((2 * (n >>> (i + 1))) • P)
          ((2 * (n >>> (i + 1))) • P) P else (2 * (n >>> (i + 1))) • P) = (n >>> i) • P := by
        by_cases htest : n.testBit i = true
        · rw [if_pos htest] at hsplit ⊢
          have hsum : (2 * (n >>> (i + 1))) • P + P = (n >>> i) • P := by
            rw [hsplit, add_nsmul, one_nsmul]
          rw [cAddAffine_eq, hsum]
          rw [hsum]
          exact smul_ne_zero_of_lt hP horder (by omega) (by omega)
        · rw [if_neg htest] at hsplit ⊢
          exact congrArg (· • P) hsplit.symm
      simp only [cMulLoop]
      rw [hdoubled, hbit, ih]

/-- **`c_mul` is the multiple of the group** for factors below the order. -/
theorem cMul_eq_of_lt (hP : P ≠ 0) (horder : ecdsa.r • P = 0) (hn : n < ecdsa.r) :
    ecdsa.cMul P n = n • P := by
  have hzero : n >>> n.size = 0 := by
    rw [Nat.shiftRight_eq_div_pow, Nat.div_eq_of_lt (Nat.lt_size_self n)]
  calc ecdsa.cMul P n = ecdsa.cMulLoop P n n.size ((n >>> n.size) • P) := by
        rw [hzero, zero_nsmul, cMul]
    _ = n • P := cMulLoop_eq hP horder hn n.size

/-! ## The hash -/

omit [DecidableEq Point] ecdsa in
theorem lt_of_size_lt {a b : ℕ} (hsize : a.size < b.size) : a < b :=
  lt_of_not_ge fun hle => absurd (Nat.size_le_size hle) (not_le.2 hsize)

omit [DecidableEq Point] in
theorem digest_spec {hash digest : ℕ} (hdigest : ecdsa.digest hash = some digest) :
    digest ≤ ecdsa.r ∧ digest ≡ hash [MOD ecdsa.r] := by
  have hpos := ecdsa.r_prime.pos
  unfold Ecdsa.digest at hdigest
  split_ifs at hdigest with hlonger hfits hequal
  · obtain rfl := Option.some.inj hdigest
    exact ⟨(Nat.mod_lt _ hpos).le, Nat.mod_modEq _ _⟩
  · obtain rfl := Option.some.inj hdigest
    exact modSmall_spec hpos
  · obtain rfl := Option.some.inj hdigest
    have hshorter : hash.size < ecdsa.r.size := lt_of_le_of_ne (not_lt.1 hlonger) hequal
    exact ⟨(lt_of_size_lt hshorter).le, rfl⟩

omit [DecidableEq Point] in
/-- The hash is converted within the array if the array has all digits of a hash, or the
hash is longer than the order. -/
theorem digest_isSome_iff {hash : ℕ} : (ecdsa.digest hash).isSome ↔
    20 / ecdsa.processor.digitLen ≤ ecdsa.processor.numWords ecdsa.keyBitLen ∨
      ecdsa.r.size < hash.size := by
  unfold Ecdsa.digest
  by_cases hlonger : ecdsa.r.size < hash.size
  · simp [hlonger]
  · by_cases hfits :
        20 / ecdsa.processor.digitLen ≤ ecdsa.processor.numWords ecdsa.keyBitLen
    · simp [hlonger, hfits]
    · simp [hlonger, hfits]

omit [DecidableEq Point] in
theorem reduceX_eq {x : ℕ} (hx : x % ecdsa.r ≠ 0) : ecdsa.reduceX x = x % ecdsa.r := by
  unfold reduceX
  split_ifs with hlonger hequal
  · rfl
  · exact modSmall_eq_mod ecdsa.r_prime.pos hx
  · have hshorter : x.size < ecdsa.r.size := lt_of_le_of_ne (not_lt.1 hlonger) hequal
    rw [Nat.mod_eq_of_lt (lt_of_size_lt hshorter)]

/-! ## Completeness -/

omit [DecidableEq Point] in
theorem modInv_mul_of_lt {b : ℕ} (hpos : 0 < b) (hb : b < ecdsa.r) :
    (modInv ecdsa.bits b ecdsa.r * b : ZMod ecdsa.r) = 1 :=
  modInv_mul ecdsa.r_prime.pos ecdsa.r_lt 
    (Nat.coprime_of_lt_prime hpos.ne' hb ecdsa.r_prime).symm

theorem signOnce_eq_signed {msg : List UInt8} {d k r s : ℕ}
    (hsigned : ecdsa.signOnce msg d k = .signed r s) :
    k ≠ 0 ∧ r = ecdsa.x (ecdsa.cMul ecdsa.G k) % ecdsa.r ∧ r ≠ 0 ∧ s ≠ 0 ∧
      ∃ digest, ecdsa.digest (ecdsa.sha1 msg) = some digest ∧
        s = modMult (modInv ecdsa.bits k ecdsa.r)
          (modAdd ecdsa.bits digest (modMult d r ecdsa.r) ecdsa.r) ecdsa.r := by
  unfold signOnce at hsigned
  by_cases hk : k = 0
  · simp [hk] at hsigned
  by_cases hr : ecdsa.x (ecdsa.cMul ecdsa.G k) % ecdsa.r = 0
  · simp [hk, hr] at hsigned
  cases hdigest : ecdsa.digest (ecdsa.sha1 msg) with
  | none => simp [hk, hr, hdigest] at hsigned
  | some digest =>
      simp only [if_neg hk, if_neg hr, hdigest] at hsigned
      split_ifs at hsigned with hs
      obtain ⟨rfl, rfl⟩ := Signing.signed.inj hsigned
      exact ⟨hk, rfl, hr, hs, digest, rfl, rfl⟩

omit [DecidableEq Point] in
/-- The two factors of `verify` together are the ephemeral key. -/
theorem factors_modEq {digest d k r s : ℕ} (hk : 0 < k) (hkr : k < ecdsa.r)
    (hs : s ≠ 0) (hdigest : digest ≤ ecdsa.r)
    (hsigned : s = modMult (modInv ecdsa.bits k ecdsa.r)
      (modAdd ecdsa.bits digest (modMult d r ecdsa.r) ecdsa.r) ecdsa.r) :
    modMult digest (modInv ecdsa.bits s ecdsa.r) ecdsa.r +
      modMult r (modInv ecdsa.bits s ecdsa.r) ecdsa.r * d ≡ k [MOD ecdsa.r] := by
  have hrpos := ecdsa.r_prime.pos
  have hslt : s < ecdsa.r := hsigned ▸ Nat.mod_lt _ hrpos
  have hkinv : (modInv ecdsa.bits k ecdsa.r * k : ZMod ecdsa.r) = 1 := modInv_mul_of_lt hk hkr
  have hsinv : (modInv ecdsa.bits s ecdsa.r * s : ZMod ecdsa.r) = 1 :=
    modInv_mul_of_lt (Nat.pos_of_ne_zero hs) hslt
  have hsum : (modAdd ecdsa.bits digest (modMult d r ecdsa.r) ecdsa.r : ZMod ecdsa.r) =
      digest + d * r := by
    have hmod : modAdd ecdsa.bits digest (modMult d r ecdsa.r) ecdsa.r ≡
        digest + modMult d r ecdsa.r [MOD ecdsa.r] :=
      modAdd_modEq hdigest (Nat.mod_lt _ hrpos) ecdsa.r_lt
    rw [← ZMod.natCast_eq_natCast_iff] at hmod
    rw [hmod, Nat.cast_add, modMult, ZMod.natCast_mod, Nat.cast_mul]
  have hsvalue : (s : ZMod ecdsa.r) = modInv ecdsa.bits k ecdsa.r * (digest + d * r) := by
    rw [← hsum, hsigned, modMult, ZMod.natCast_mod, Nat.cast_mul]
  -- what is signed, times the ephemeral key, is the number that is verified
  have hks : (k * s : ZMod ecdsa.r) = digest + r * d := by
    rw [hsvalue]
    linear_combination (digest + d * r : ZMod ecdsa.r) * hkinv
  rw [← ZMod.natCast_eq_natCast_iff]
  simp only [modMult, Nat.cast_add, Nat.cast_mul, ZMod.natCast_mod]
  linear_combination (-modInv ecdsa.bits s ecdsa.r : ZMod ecdsa.r) * hks +
    (k : ZMod ecdsa.r) * hsinv

/-- **What a round of `sign` signs is verified.** -/
theorem verify_signOnce {msg : List UInt8} {d k r s : ℕ} (hd : 0 < d) (hdr : d < ecdsa.r)
    (hkr : k < ecdsa.r) (hsigned : ecdsa.signOnce msg d k = .signed r s) :
    ecdsa.verify msg r s (d • ecdsa.G) = some 1 := by
  obtain ⟨hk, hr, hrne, hs, digest, hdigest, hvalue⟩ := signOnce_eq_signed hsigned
  have hrpos := ecdsa.r_prime.pos
  have hkpos := Nat.pos_of_ne_zero hk
  have hrlt : r < ecdsa.r := hr ▸ Nat.mod_lt _ hrpos
  have hslt : s < ecdsa.r := hvalue ▸ Nat.mod_lt _ hrpos
  have hQ : d • ecdsa.G ≠ 0 := smul_ne_zero_of_lt ecdsa.G_ne_zero ecdsa.smul_G hd hdr
  have hQorder : ecdsa.r • (d • ecdsa.G) = 0 := by
    rw [smul_comm, ecdsa.smul_G, smul_zero]
  have hkG : k • ecdsa.G ≠ 0 := smul_ne_zero_of_lt ecdsa.G_ne_zero ecdsa.smul_G hkpos hkr
  have hfactors := factors_modEq hkpos hkr hs (digest_spec hdigest).1 hvalue
  have hreduced : ∀ b c, modMult b c ecdsa.r < ecdsa.r := fun b c => Nat.mod_lt _ hrpos
  have hsum : ecdsa.cMul ecdsa.G (modMult digest (modInv ecdsa.bits s ecdsa.r) ecdsa.r) +
      ecdsa.cMul (d • ecdsa.G) (modMult r (modInv ecdsa.bits s ecdsa.r) ecdsa.r) =
        k • ecdsa.G := by
    rw [cMul_eq_of_lt ecdsa.G_ne_zero ecdsa.smul_G (hreduced _ _),
      cMul_eq_of_lt hQ hQorder (hreduced _ _), ← mul_nsmul', ← add_nsmul]
    exact nsmul_eq_nsmul_iff_modEq.2
      (hfactors.of_dvd (addOrderOf_dvd_of_nsmul_eq_zero ecdsa.smul_G))
  have hfinal : ecdsa.cAddAffine 0
      (ecdsa.cMul ecdsa.G (modMult digest (modInv ecdsa.bits s ecdsa.r) ecdsa.r))
      (ecdsa.cMul (d • ecdsa.G) (modMult r (modInv ecdsa.bits s ecdsa.r) ecdsa.r)) =
        k • ecdsa.G := by
    rw [cAddAffine_eq, hsum]
    rwa [hsum]
  have hx : ecdsa.reduceX (ecdsa.x (k • ecdsa.G)) = r := by
    rw [cMul_eq_of_lt ecdsa.G_ne_zero ecdsa.smul_G hkr] at hr
    rw [reduceX_eq (hr ▸ hrne), hr]
  unfold verify
  simp only [if_neg (not_le.2 hrlt), if_neg hrne, if_neg (not_le.2 hslt), if_neg hs, hdigest,
    hfinal, hx, if_true]

/-- An accepted signature comes from the round of one of the keys. -/
theorem exists_of_sign_eq_signed {msg : List UInt8} {d r s : ℕ} :
    ∀ {keys : List ℕ}, ecdsa.sign msg d keys = .signed r s →
      ∃ k ∈ keys, ecdsa.signOnce msg d k = .signed r s := by
  intro keys
  induction keys with
  | nil => exact fun hsigned => absurd hsigned (by simp [sign])
  | cons k rest ih =>
      intro hsigned
      unfold sign at hsigned
      cases hround : ecdsa.signOnce msg d k with
      | outside => simp [hround] at hsigned
      | retry =>
          simp only [hround] at hsigned
          obtain ⟨found, hfound, heq⟩ := ih hsigned
          exact ⟨found, List.mem_cons_of_mem _ hfound, heq⟩
      | signed r' s' =>
          simp only [hround] at hsigned
          exact ⟨k, List.mem_cons_self, hround.trans hsigned⟩

theorem sign_ne_outside {msg : List UInt8} {d : ℕ} (keys : List ℕ)
    (hdigest : (ecdsa.digest (ecdsa.sha1 msg)).isSome) : ecdsa.sign msg d keys ≠ .outside := by
  obtain ⟨digest, hdigest⟩ := Option.isSome_iff_exists.1 hdigest
  induction keys with
  | nil => exact fun h => absurd h (by simp [sign])
  | cons k rest ih =>
      have hround : ecdsa.signOnce msg d k ≠ .outside := by
        unfold signOnce
        simp only [hdigest]
        split_ifs <;> simp
      unfold sign
      split
      · exact ih
      · exact hround

/-- Where it is not, the first key that gets to the hash makes `sign` write behind the
array; before, all keys are retried. -/
theorem sign_eq_of_digest_eq_none {msg : List UInt8} {d : ℕ}
    (hdigest : ecdsa.digest (ecdsa.sha1 msg) = none) :
    ∀ {keys : List ℕ}, (∀ k ∈ keys, 0 < k ∧ k < ecdsa.r) →
      ecdsa.sign msg d keys =
        if ∀ k ∈ keys, ecdsa.x (k • ecdsa.G) % ecdsa.r = 0 then .retry else .outside := by
  intro keys
  induction keys with
  | nil => exact fun _ => by simp [sign]
  | cons k rest ih =>
      intro hkeys
      obtain ⟨hpos, hlt⟩ := hkeys k List.mem_cons_self
      have hrest := ih fun k' hk' => hkeys k' (List.mem_cons_of_mem _ hk')
      have hmul := cMul_eq_of_lt ecdsa.G_ne_zero ecdsa.smul_G hlt
      by_cases hx : ecdsa.x (k • ecdsa.G) % ecdsa.r = 0
      · have hround : ecdsa.signOnce msg d k = .retry := by
          simp [signOnce, hpos.ne', hmul, hx]
        simp only [sign, hround, hrest, List.forall_mem_cons, hx, true_and]
      · have hround : ecdsa.signOnce msg d k = .outside := by
          simp [signOnce, hpos.ne', hmul, hx, hdigest]
        have hall : ¬ ∀ k' ∈ k :: rest, ecdsa.x (k' • ecdsa.G) % ecdsa.r = 0 :=
          fun h => hx (h k List.mem_cons_self)
        simp only [sign, hround, if_neg hall]

/-- Nothing is written behind the arrays, and the signature that `sign` returns is
accepted. -/
def Complete (ecdsa : Ecdsa Point) (msg : List UInt8) (d : ℕ) (keys : List ℕ) : Prop :=
  ecdsa.sign msg d keys ≠ .outside ∧
    ∀ r s, ecdsa.sign msg d keys = .signed r s →
      ecdsa.verify msg r s (ecdsa.cMul ecdsa.G d) = some 1

/-- **Signing and verifying are complete** exactly if the array has room for all digits of
a hash, or the hash is longer than the order, or no ephemeral key gets to the hash. -/
theorem complete_iff {msg : List UInt8} {d : ℕ} {keys : List ℕ} (hd : 0 < d)
    (hdr : d < ecdsa.r) (hkeys : ∀ k ∈ keys, 0 < k ∧ k < ecdsa.r) :
    ecdsa.Complete msg d keys ↔
      20 / ecdsa.processor.digitLen ≤ ecdsa.processor.numWords ecdsa.keyBitLen ∨
        ecdsa.r.size < (ecdsa.sha1 msg).size ∨
          ∀ k ∈ keys, ecdsa.x (k • ecdsa.G) % ecdsa.r = 0 := by
  rw [← or_assoc, ← digest_isSome_iff]
  by_cases hdigest : (ecdsa.digest (ecdsa.sha1 msg)).isSome
  · refine iff_of_true ⟨sign_ne_outside keys hdigest, fun r s hsigned => ?_⟩ (.inl hdigest)
    obtain ⟨k, hk, hround⟩ := exists_of_sign_eq_signed hsigned
    rw [cMul_eq_of_lt ecdsa.G_ne_zero ecdsa.smul_G hdr]
    exact verify_signOnce hd hdr (hkeys k hk).2 hround
  · have hnone : ecdsa.digest (ecdsa.sha1 msg) = none := by simpa using hdigest
    have hsign := @sign_eq_of_digest_eq_none _ _ _ _ _ d hnone _ hkeys
    rw [or_iff_right hdigest, Complete, hsign]
    by_cases hall : ∀ k ∈ keys, ecdsa.x (k • ecdsa.G) % ecdsa.r = 0
    · rw [if_pos hall]
      exact iff_of_true ⟨nofun, nofun⟩ hall
    · rw [if_neg hall]
      exact iff_of_false (fun h => h.1 rfl) hall

end Ecdsa

/-! ## The curve of `init128` -/

/-- A number is prime if the powers of some residue tell so, for the prime factors of its
predecessor. -/
theorem prime_of_powers {p : ℕ} (a : ZMod p) (factors : List ℕ)
    (hproduct : factors.prod = p - 1) (hprime : ∀ q ∈ factors, q.Prime)
    (hone : a ^ (p - 1) = 1) (hne : ∀ q ∈ factors, a ^ ((p - 1) / q) ≠ 1) : p.Prime := by
  refine lucas_primality p a hone fun q hq hdvd => hne q ?_
  rw [← hproduct] at hdvd
  exact mem_list_primes_of_dvd_prod hq.prime (fun q hq => (hprime q hq).prime) hdvd

theorem prime_43117050034573 : Nat.Prime 43117050034573 := by
  refine prime_of_powers 2 [2, 2, 3, 821, 24499, 178639] (by norm_num) ?_
    (by reduce_mod_char) ?_
  all_goals simp only [List.forall_mem_cons, List.not_mem_nil, false_imp_iff, implies_true,
    and_true]
  · norm_num
  · refine ⟨?_, ?_, ?_, ?_, ?_, ?_⟩
    all_goals
      reduce_mod_char
      decide

theorem prime_90718273272741593 : Nat.Prime 90718273272741593 := by
  refine prime_of_powers 3 [2, 2, 2, 263, 43117050034573] (by norm_num) ?_
    (by reduce_mod_char) ?_
  all_goals simp only [List.forall_mem_cons, List.not_mem_nil, false_imp_iff, implies_true,
    and_true]
  · exact ⟨by norm_num, by norm_num, by norm_num, by norm_num, prime_43117050034573⟩
  · refine ⟨?_, ?_, ?_, ?_, ?_⟩
    all_goals
      reduce_mod_char
      decide

theorem prime_676862640071 : Nat.Prime 676862640071 := by
  refine prime_of_powers 7 [2, 5, 1993, 33961999] (by norm_num) ?_ (by reduce_mod_char) ?_
  all_goals simp only [List.forall_mem_cons, List.not_mem_nil, false_imp_iff, implies_true,
    and_true]
  · norm_num
  · refine ⟨?_, ?_, ?_, ?_⟩
    all_goals
      reduce_mod_char
      decide

theorem prime_order128 : Nat.Prime 340282366762482138443322565580356624661 := by
  refine prime_of_powers 11
    [2, 2, 5, 7, 37, 641, 1669, 676862640071, 90718273272741593] (by norm_num) ?_
    (by reduce_mod_char) ?_
  all_goals simp only [List.forall_mem_cons, List.not_mem_nil, false_imp_iff, implies_true,
    and_true]
  · exact ⟨by norm_num, by norm_num, by norm_num, by norm_num, by norm_num, by norm_num,
      by norm_num, prime_676862640071, prime_90718273272741593⟩
  · refine ⟨?_, ?_, ?_, ?_, ?_, ?_, ?_, ?_, ?_⟩
    all_goals
      reduce_mod_char
      decide

/-- A message whose hash begins with 38 zero bits. -/
def shortHashed : List UInt8 :=
  [0x43, 0x2D, 0x30, 0x30, 0x38, 0x33, 0x30, 0x33, 0x36, 0x66, 0x38, 0x61]

/-- `init128` with its base point and order, on the multiples of the base point.  Of their
coordinates only that of the base point is filled in, of the hashes only one. -/
def init128 (processor : Processor) :
    Ecdsa (ZMod 340282366762482138443322565580356624661) where
  processor := processor
  keyBitLen := 128
  r := 340282366762482138443322565580356624661
  G := 1
  x point := if point = 0 then 0 else 0x161FF7528B899B2D0C28607CA52C5B86
  opposite _ _ := 0
  sha1 msg := if msg = shortHashed then 0x0229CD052BCAA0AD289921CC7C03D991 else 0
  r_prime := prime_order128
  r_lt := by cases processor <;> norm_num [Processor.numWords, Processor.digitBits]
  smul_G := by
    rw [nsmul_one]
    exact ZMod.natCast_self _
  G_ne_zero := by decide
  x_zero := if_pos rfl
  sha1_lt msg := by split_ifs <;> norm_num

/-- On 32-bit digits all hashes fit. -/
theorem complete_init128 : (init128 .thirtytwoBit).Complete shortHashed 5 [3, 4] :=
  (Ecdsa.complete_iff (by decide) (by norm_num [init128])
    (by norm_num [init128])).2 (.inl (by decide))

/-- On 8-bit digits a hash of 122 bits is copied with all of its 20 digits into an array
of 17. -/
theorem not_complete_init128 :
    (init128 .eightBit).sign shortHashed 5 [1] = .outside ∧
      ¬ (init128 .eightBit).Complete shortHashed 5 [1] := by
  have hfits : ¬ 20 / (init128 .eightBit).processor.digitLen ≤
      (init128 .eightBit).processor.numWords (init128 .eightBit).keyBitLen := by decide
  have hlonger : ¬ (init128 .eightBit).r.size < ((init128 .eightBit).sha1 shortHashed).size := by
    have horder : 127 < (340282366762482138443322565580356624661 : ℕ).size :=
      Nat.lt_size.2 (by norm_num)
    have hhash : (0x0229CD052BCAA0AD289921CC7C03D991 : ℕ).size ≤ 122 :=
      Nat.size_le.2 (by norm_num)
    show ¬ (340282366762482138443322565580356624661 : ℕ).size <
      (0x0229CD052BCAA0AD289921CC7C03D991 : ℕ).size
    omega
  have hnone : (init128 .eightBit).digest ((init128 .eightBit).sha1 shortHashed) = none := by
    rw [← Option.not_isSome_iff_eq_none, Ecdsa.digest_isSome_iff]
    exact not_or.2 ⟨hfits, hlonger⟩
  have hsign : (init128 .eightBit).sign shortHashed 5 [1] = .outside := by
    rw [Ecdsa.sign_eq_of_digest_eq_none hnone (by norm_num [init128])]
    refine if_neg fun hall => ?_
    have hx := hall 1 List.mem_cons_self
    rw [one_nsmul] at hx
    have hpoint : (init128 .eightBit).x (init128 .eightBit).G =
        0x161FF7528B899B2D0C28607CA52C5B86 := by
      have hone : (1 : ZMod 340282366762482138443322565580356624661) ≠ 0 := by decide
      exact @if_neg _ _ hone ℕ 0 _
    rw [hpoint] at hx
    exact absurd hx (by norm_num [init128])
  exact ⟨hsign, fun hcomplete => hcomplete.1 hsign⟩

end Wiselib.Crypto
