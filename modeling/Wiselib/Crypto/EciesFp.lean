import Wiselib.Crypto.PointOctets
import Wiselib.Crypto.Sha1

/-!
# ECIES

`encrypt` and `decrypt` of `crypto/eciesfp.h`.  What is sent has the octets of
the ephemeral public key, one octet that is left out, the encrypted message and
its tag.

## Strategy

* The tag is compared before the output is written, whatever the input is
  (`authentic_of_written`).
* Both factors of the shared point are below the order of the base point, which
  is prime, so that both sides compute the multiples of the group (`cMul_of_lt`)
  and with them the same key stream and the same key for the tag.
* The octets that `encrypt` wrote are found again at the offsets that `decrypt`
  computes in a signed byte (`decrypt_encrypt`).
* `decrypt` checks the ephemeral public key first, and the check rejects points
  with a coordinate that is zero (`checkPoint_encode`).
-/

namespace Wiselib.Crypto

open AffineCurve Digits Sha1

/-- `HMAC_LEN`. -/
def hmacLen : ℕ := 20

/-- `MAX_M_LEN`. -/
def maxMLen : ℕ := 54

/-- `ECIESFP`, with the base point of its curve. -/
structure Ecies extends Eccfp where
  G : param.curve.Point
  r : ℕ
  r_prime : r.Prime
  addOrderOf_G : addOrderOf G = r

namespace Ecies

variable (E : Ecies)

/-- `check_point`. -/
def checkPoint (P : Point) : ℤ :=
  let p := E.param.p
  if P.x = 0 then -1
  else if p ≤ P.x then -1
  else if P.y = 0 then -1
  else if p ≤ P.y then -1
  else
    let tmp2 := modMult P.x P.x p
    let tmp2 := modMult tmp2 P.x p
    let tmp1 := modMult P.x E.param.a p
    let tmp2 := modAdd E.param.bits tmp1 tmp2 p
    let tmp2 := modAdd E.param.bits tmp2 E.param.b p
    let tmp1 := modMult P.y P.y p
    if tmp1 ≠ tmp2 then -2 else 1

/-- The octets `z` of the first coordinate of the shared point. -/
def encodeSecret (x : ℕ) : List Octet :=
  Digits.encode (E.keyLen + 1) (digitsOf E.processor.digitBits E.numWords x)

/-- The keys `K` for a message and its tag. -/
def keys (sha1sum : List Octet) (msgLength : ℕ) (P : Point) : List Octet :=
  kdf E.keyLen sha1sum (msgLength + hmacLen) (E.encodeSecret P.x)

/-- The octets at an address with a key stream added. -/
def addKeys (memory : Memory 8) (address msgLength : ℕ) (K : List Octet) : List Octet :=
  (List.range msgLength).map fun i => memory (address + i) ^^^ K.getD i 0

/-- `encrypt` with the ephemeral key `k`: what it returns, and the output afterwards. -/
def encrypt (fuel k : ℕ) (sha1sum : List Octet) (input output : Memory 8) (msgLength : ℕ)
    (KeyA : Point) : Option (ℤ × Memory 8) := do
  let R ← E.param.cMul fuel (E.param.encode E.G) k
  let octets := E.point2octet output (2 * (E.keyLen + 1)) R false
  let octetLen := int8 (octets.1 + 1)
  let P ← E.param.cMul fuel KeyA k
  if Params.pIszero P then some (-1, octets.2)
  else
    let K := E.keys sha1sum msgLength P
    let output := write octets.2 octetLen.toNat (addKeys input 0 msgLength K)
    let text := read output octetLen.toNat msgLength
    let digest := read output (octetLen.toNat + msgLength) hmacLen
    let tag := hmacSha1 text (K.drop msgLength) digest
    some (int8 (octetLen + msgLength + hmacLen), write output (octetLen.toNat + msgLength) tag)

/-- `decrypt`: what it returns, and the output afterwards.  The arrays `sha1sum` and `hmacTmp`
hold what was on the stack. -/
def decrypt (fuel : ℕ) (sha1sum hmacTmp : List Octet) (input output : Memory 8)
    (msgLength KeyB : ℕ) : Option (ℤ × Memory 8) := do
  let len := int8 (2 * (E.keyLen + 1) + msgLength + hmacLen)
  let octets ← E.octet2point fuel ⟨0, 0⟩ input
  let octetLen := int8 (octets.1 + 1)
  if E.checkPoint octets.2 ≠ 1 then some (3, output)
  else do
    let P ← E.param.cMul fuel octets.2 KeyB
    if Params.pIszero P then some (4, output)
    else
      let K := E.keys sha1sum msgLength P
      if (msgLength : ℤ) < len - hmacLen - octetLen then some (5, output)
      else
        let text := read input octetLen.toNat msgLength
        if hmacSha1 text (K.drop msgLength) hmacTmp ≠
            read input (octetLen.toNat + msgLength) hmacLen then some (6, output)
        else some (msgLength, write output 0 (addKeys input octetLen.toNat msgLength K))

/-! ## The tag -/

/-- The tag of the input is that of its ciphertext. -/
def Authentic (fuel : ℕ) (sha1sum hmacTmp : List Octet) (input : Memory 8) (msgLength KeyB : ℕ) :
    Prop :=
  ∃ octets P, E.octet2point fuel ⟨0, 0⟩ input = some octets ∧
    E.param.cMul fuel octets.2 KeyB = some P ∧
    let octetLen := (int8 (octets.1 + 1)).toNat
    hmacSha1 (read input octetLen msgLength) ((E.keys sha1sum msgLength P).drop msgLength) hmacTmp =
      read input (octetLen + msgLength) hmacLen

section Tag

variable {E} {fuel msgLength KeyB : ℕ} {sha1sum hmacTmp : List Octet}
  {input output output' : Memory 8} {result : ℤ}

/-- **Nothing is written** unless the tag is right. -/
theorem authentic_of_written
    (hrun : E.decrypt fuel sha1sum hmacTmp input output msgLength KeyB = some (result, output'))
    (hwritten : output' ≠ output) : E.Authentic fuel sha1sum hmacTmp input msgLength KeyB := by
  unfold decrypt at hrun
  cases hoctets : E.octet2point fuel ⟨0, 0⟩ input with
  | none => simp [hoctets] at hrun
  | some octets =>
      simp only [hoctets, Option.bind_eq_bind, Option.bind_some] at hrun
      by_cases hcheck : E.checkPoint octets.2 ≠ 1
      · rw [if_pos hcheck] at hrun
        cases hrun
        exact absurd rfl hwritten
      · rw [if_neg hcheck] at hrun
        cases hP : E.param.cMul fuel octets.2 KeyB with
        | none => simp [hP] at hrun
        | some P =>
            simp only [hP, Option.bind_some] at hrun
            split_ifs at hrun with hzero hlong htag
            · cases hrun
              exact absurd rfl hwritten
            · cases hrun
              exact absurd rfl hwritten
            · cases hrun
              exact absurd rfl hwritten
            · exact ⟨octets, P, hoctets, hP, not_not.1 htag⟩

end Tag

/-! ## Points -/

section Points

variable {E} {fuel n : ℕ}

/-- **`check_point`** accepts the points of the curve that have no zero coordinate. -/
theorem checkPoint_encode (Q : E.param.curve.Point) :
    E.checkPoint (E.param.encode Q) = 1 ↔
      (E.param.encode Q).x ≠ 0 ∧ (E.param.encode Q).y ≠ 0 := by
  cases Q with
  | zero => simp [checkPoint, Params.encode]
  | some x y h =>
      have hx := x.val_lt
      have hy := y.val_lt
      rw [Params.encode_some, checkPoint]
      dsimp only
      rw [if_neg (not_le.2 hx), if_neg (not_le.2 hy)]
      by_cases hxzero : x.val = 0
      · simp [hxzero]
      by_cases hyzero : y.val = 0
      · simp [hyzero]
      have hside : modAdd E.param.bits (modAdd E.param.bits (modMult x.val E.param.a E.param.p)
          (modMult (modMult x.val x.val E.param.p) x.val E.param.p) E.param.p) E.param.b
          E.param.p = modMult y.val y.val E.param.p := by
        have hequation := (Params.equation_iff x y).1 h.1
        have ha : E.param.a = (E.param.a : ZMod E.param.p).val :=
          (ZMod.val_cast_of_lt E.param.a_lt).symm
        have hb : E.param.b = (E.param.b : ZMod E.param.p).val :=
          (ZMod.val_cast_of_lt E.param.b_lt).symm
        rw [ha, hb]
        simp only [Params.modMult_val, Params.modAdd_val]
        congr 1
        linear_combination -hequation
      rw [if_neg hxzero, if_neg hyzero, hside]
      simp [hxzero, hyzero]

theorem cMul_of_lt (hfuel : 2 * E.param.p ≤ fuel) {Q : E.param.curve.Point}
    (hprime : (addOrderOf Q).Prime) (hpos : 0 < n) (hn : n < addOrderOf Q) :
    E.param.cMul fuel (E.param.encode Q) n = some (E.param.encode (n • Q)) := by
  rw [Params.cMul_encode hfuel, (PartialAddition.multiple_eq_iff
    (isOfFinAddOrder_of_finite Q) n).2 (PartialAddition.multipleRight_of_prime hprime hpos hn)]
  rfl

theorem octet2point_congr {octet octet' : Memory 8} {P : Point}
    (hsame : ∀ a < 2 * E.keyLen + 1, octet a = octet' a) :
    E.octet2point fuel P octet = E.octet2point fuel P octet' := by
  have hread : ∀ address, address + E.keyLen ≤ 2 * E.keyLen + 1 →
      E.decodeNumber octet address = E.decodeNumber octet' address := by
    intro address haddress
    have hoctets : read octet address E.keyLen = read octet' address E.keyLen := by
      refine List.map_congr_left fun k hk => hsame _ ?_
      have hlt := List.mem_range.1 hk
      omega
    rw [Eccfp.decodeNumber, Eccfp.decodeNumber, hoctets]
  rw [Eccfp.octet2point, Eccfp.octet2point, hsame 0 (by omega), hread 1 (by omega),
    hread (1 + E.keyLen) (by omega)]

end Points

/-! ## What is sent -/

section Sent

variable {E} {fuel k msgLength KeyB n m : ℕ} {sha1sum sha1sum' hmacTmp K : List Octet}
  {input output plain memory memory' sent : Memory 8} {R P KeyA : Point} {len : ℤ}

theorem octetCount_le : E.octetCount false ≤ 2 * (E.keyLen + 1) := by
  simp only [Eccfp.octetCount, Bool.false_eq_true, if_false]
  omega

theorem octetLen_eq (hlength : E.octetCount false ≤ n) :
    int8 ((E.point2octet output n R false).1 + 1) = ((2 * E.keyLen + 2 : ℕ) : ℤ) := by
  have hle := @Eccfp.keyLen_le E.toEccfp
  have hroom : ¬ n < 2 * E.keyLen + 1 := not_lt.2 hlength
  simp only [Eccfp.point2octet, Bool.false_eq_true, if_false, if_neg hroom]
  have hcount : int8 (2 * E.keyLen + 1) = 2 * E.keyLen + 1 := int8_of_fits (by omega) (by omega)
  rw [hcount, int8_of_fits (by omega) (by omega)]
  push_cast
  ring

/-- **A key stream** that is added twice is gone. -/
theorem addKeys_addKeys (hread : read memory n msgLength = addKeys memory' m msgLength K) :
    addKeys memory n msgLength K = read memory' m msgLength := by
  have hsame := List.map_inj_left.1 hread
  refine List.map_congr_left fun i hi => ?_
  rw [hsame i hi, BitVec.xor_assoc, BitVec.xor_self, BitVec.xor_zero]

theorem length_addKeys : (addKeys memory n msgLength K).length = msgLength := by
  simp [addKeys]

variable (E) in
/-- The octets of a point with the ciphertext and the tag behind them. -/
def withMessage (octets input : Memory 8) (msgLength : ℕ) (K : List Octet) : Memory 8 :=
  let written := write octets (2 * E.keyLen + 2) (addKeys input 0 msgLength K)
  write written (2 * E.keyLen + 2 + msgLength)
    (hmacSha1 (addKeys input 0 msgLength K) (K.drop msgLength)
      (read written (2 * E.keyLen + 2 + msgLength) hmacLen))

/-- **What `encrypt` does** with a public and a shared point. -/
theorem encrypt_eq (hR : E.param.cMul fuel (E.param.encode E.G) k = some R)
    (hP : E.param.cMul fuel KeyA k = some P) (hne : Params.pIszero P = false) :
    E.encrypt fuel k sha1sum input output msgLength KeyA =
      some (int8 ((2 * E.keyLen + 2 : ℕ) + msgLength + hmacLen),
        E.withMessage (E.point2octet output (2 * (E.keyLen + 1)) R false).2 input msgLength
          (E.keys sha1sum msgLength P)) := by
  simp only [encrypt, hR, hP, Option.bind_eq_bind, Option.bind_some, octetLen_eq octetCount_le,
    Int.toNat_natCast, hne, Bool.false_eq_true, if_false, withMessage,
    Eccfp.read_write_self _ _ _ length_addKeys]

theorem withMessage_before (octets : Memory 8) {a : ℕ} (ha : a < 2 * E.keyLen + 1) :
    E.withMessage octets input msgLength K a = octets a := by
  unfold withMessage
  rw [Eccfp.write_before _ _ (by omega), Eccfp.write_before _ _ (by omega)]

theorem read_withMessage_text (octets : Memory 8) :
    read (E.withMessage octets input msgLength K) (2 * E.keyLen + 2) msgLength =
      addKeys input 0 msgLength K := by
  unfold withMessage
  dsimp only
  rw [read_write_of_disjoint _ (by intros; omega)]
  exact Eccfp.read_write_self _ _ _ length_addKeys

theorem read_withMessage_tag (octets : Memory 8) (hmsg : msgLength ≤ maxMLen) (old : List Octet) :
    read (E.withMessage octets input msgLength K) (2 * E.keyLen + 2 + msgLength) hmacLen =
      hmacSha1 (addKeys input 0 msgLength K) (K.drop msgLength) old := by
  have hshort : 8 * (64 + (addKeys input 0 msgLength K).length) < 2 ^ 32 := by
    rw [length_addKeys]
    unfold maxMLen at hmsg
    omega
  unfold withMessage
  dsimp only
  rw [Eccfp.read_write_self _ _ hmacLen (length_hmacSha1 hshort _)]
  exact hmacSha1_congr hshort _ _

theorem encrypt_sent
    (hrun : E.encrypt fuel k sha1sum input output msgLength KeyA = some (len, sent)) :
    ∃ R, E.param.cMul fuel (E.param.encode E.G) k = some R ∧ ∀ a < 2 * E.keyLen + 1,
      sent a = (E.point2octet output (2 * (E.keyLen + 1)) R false).2 a := by
  cases hR : E.param.cMul fuel (E.param.encode E.G) k with
  | none => simp [encrypt, hR] at hrun
  | some R =>
      refine ⟨R, rfl, fun a ha => ?_⟩
      cases hP : E.param.cMul fuel KeyA k with
      | none => simp [encrypt, hR, hP] at hrun
      | some P =>
          cases hzero : Params.pIszero P with
          | false =>
              rw [encrypt_eq hR hP hzero] at hrun
              cases hrun
              exact withMessage_before _ ha
          | true =>
              simp only [encrypt, hR, hP, hzero, Option.bind_eq_bind, Option.bind_some,
                if_true] at hrun
              cases hrun
              rfl

theorem octet2point_sent (fuel : ℕ) {Q : E.param.curve.Point}
    (hsent : ∀ a < 2 * E.keyLen + 1,
      sent a = (E.point2octet output (2 * (E.keyLen + 1)) (E.param.encode Q) false).2 a) :
    E.octet2point fuel ⟨0, 0⟩ sent = some ((E.octetCount false : ℤ), E.param.encode Q) := by
  rw [octet2point_congr hsent]
  cases Q with
  | zero => exact Eccfp.octet2point_uncompressed octetCount_le _ E.param.prime.pos E.param.prime.pos
  | some x y h => exact Eccfp.octet2point_uncompressed octetCount_le _ x.val_lt y.val_lt

theorem decrypt_rejected {Q : E.param.curve.Point} (hcheck : E.checkPoint (E.param.encode Q) ≠ 1)
    (hsent : ∀ a < 2 * E.keyLen + 1,
      sent a = (E.point2octet output (2 * (E.keyLen + 1)) (E.param.encode Q) false).2 a) :
    E.decrypt fuel sha1sum hmacTmp sent plain msgLength KeyB = some (3, plain) := by
  simp only [decrypt, octet2point_sent fuel hsent, Option.bind_eq_bind, Option.bind_some]
  exact if_pos hcheck

/-- **What `encrypt` wrote is decrypted**, if its point is accepted and both sides have
the same shared point. -/
theorem decrypt_encrypt {Q : E.param.curve.Point}
    (hR : E.param.cMul fuel (E.param.encode E.G) k = some (E.param.encode Q))
    (hcheck : E.checkPoint (E.param.encode Q) = 1)
    (hP : E.param.cMul fuel KeyA k = some P)
    (hP' : E.param.cMul fuel (E.param.encode Q) KeyB = some P)
    (hne : Params.pIszero P = false) (hmsg : msgLength ≤ maxMLen) :
    ∃ len sent out, E.encrypt fuel k sha1sum input output msgLength KeyA = some (len, sent) ∧
      E.decrypt fuel sha1sum' hmacTmp sent plain msgLength KeyB = some ((msgLength : ℤ), out) ∧
      read out 0 msgLength = read input 0 msgLength := by
  have hle := @Eccfp.keyLen_le E.toEccfp
  have hshort := hmsg
  unfold maxMLen at hshort
  have hkeys : E.keys sha1sum' msgLength P = E.keys sha1sum msgLength P :=
    kdf_congr (by omega) _ _
  have htotal : int8 (2 * (E.keyLen + 1) + msgLength + hmacLen) =
      2 * (E.keyLen + 1) + msgLength + hmacLen := by
    unfold hmacLen
    exact int8_of_fits (by omega) (by omega)
  have hcount : int8 ((E.octetCount false : ℤ) + 1) = ((2 * E.keyLen + 2 : ℕ) : ℤ) := by
    simp only [Eccfp.octetCount, Bool.false_eq_true, if_false]
    rw [int8_of_fits (by omega) (by omega)]
    push_cast
    ring
  have hlong : ¬ (msgLength : ℤ) <
      2 * (E.keyLen + 1) + msgLength + hmacLen - hmacLen - (2 * E.keyLen + 2 : ℕ) := by
    push_cast
    omega
  refine ⟨_, _, write plain 0 (read input 0 msgLength), encrypt_eq hR hP hne, ?_, ?_⟩
  · simp only [decrypt, octet2point_sent fuel fun a ha => withMessage_before _ ha,
      Option.bind_eq_bind, Option.bind_some, hcheck, hP', hne, Bool.false_eq_true, if_false, htotal,
      hcount, hlong, hkeys, Int.toNat_natCast, read_withMessage_text,
      read_withMessage_tag _ hmsg hmacTmp, ne_eq, not_true_eq_false,
      addKeys_addKeys (read_withMessage_text _)]
  · exact Eccfp.read_write_self _ _ _ (length_read input)

end Sent

/-! ## Round trips -/

/-- What is expected of a message to the holder of the key `keyB`: it is decrypted, whatever
the arrays held. -/
def RoundTrip (keyB k : ℕ) (input : Memory 8) (msgLength : ℕ) : Prop :=
  ∃ enough, ∀ fuel, enough ≤ fuel →
    ∀ (sha1sum sha1sum' hmacTmp : List Octet) (output plain : Memory 8),
      ∃ len sent out,
        E.encrypt fuel k sha1sum input output msgLength (E.param.encode (keyB • E.G)) =
          some (len, sent) ∧
        E.decrypt fuel sha1sum' hmacTmp sent plain msgLength keyB = some ((msgLength : ℤ), out) ∧
        read out 0 msgLength = read input 0 msgLength

section RoundTrips

variable {E} {keyB k msgLength : ℕ} {input : Memory 8}

theorem addOrderOf_smul_G (hpos : 0 < k) (hk : k < E.r) : addOrderOf (k • E.G) = E.r := by
  have := Fact.mk E.r_prime
  have horder := E.addOrderOf_G
  refine addOrderOf_eq_prime ?_ ?_
  · rw [← mul_nsmul, mul_comm, mul_nsmul, ← horder, addOrderOf_nsmul_eq_zero, nsmul_zero]
  · rw [Ne, ← addOrderOf_dvd_iff_nsmul_eq_zero, horder]
    exact Nat.not_dvd_of_pos_of_lt hpos hk

theorem not_roundTrip (hrejected : ∀ fuel, 2 * E.param.p ≤ fuel →
    ∀ R, E.param.cMul fuel (E.param.encode E.G) k = some R →
      ∃ Q, R = E.param.encode Q ∧ E.checkPoint (E.param.encode Q) ≠ 1) :
    ¬ E.RoundTrip keyB k input msgLength := by
  rintro ⟨enough, hright⟩
  -- an output that differs from the message everywhere
  obtain ⟨len, sent, out, hencrypt, hdecrypt, hrestored⟩ :=
    hright (max enough (2 * E.param.p)) (le_max_left _ _) [] [] [] (fun _ => 0)
      fun a => input a + 1
  obtain ⟨R, hR, hsent⟩ := encrypt_sent hencrypt
  obtain ⟨Q, rfl, hcheck⟩ := hrejected _ (le_max_right _ _) R hR
  rw [decrypt_rejected hcheck hsent] at hdecrypt
  injection hdecrypt with hpair
  injection hpair with hlength hout
  have hthree : 0 < msgLength := by omega
  rw [← hout] at hrestored
  have hfirst := List.map_inj_left.1 hrestored 0 (List.mem_range.2 hthree)
  have hne : ∀ octet : Octet, octet + 1 ≠ octet := by decide
  exact hne _ hfirst

/-- **The round trip** works for the ephemeral keys whose public key has no zero coordinate. -/
theorem roundTrip_iff_coordinates (hkeyB : 0 < keyB) (hkeyB' : keyB < E.r) (hk : 0 < k) (hk' : k ≤ E.r)
    (hmsg : msgLength ≤ maxMLen) :
    E.RoundTrip keyB k input msgLength ↔
      (E.param.encode (k • E.G)).x ≠ 0 ∧ (E.param.encode (k • E.G)).y ≠ 0 := by
  have hprime : (addOrderOf E.G).Prime := by
    rw [E.addOrderOf_G]
    exact E.r_prime
  rcases hk'.lt_or_eq with hlt | rfl
  · have hR : ∀ fuel, 2 * E.param.p ≤ fuel →
        E.param.cMul fuel (E.param.encode E.G) k = some (E.param.encode (k • E.G)) :=
      fun fuel hfuel => cMul_of_lt hfuel hprime hk (by rwa [E.addOrderOf_G])
    constructor
    · intro hright
      by_contra hcheck
      refine not_roundTrip (fun fuel hfuel R hsome => ⟨k • E.G, ?_, ?_⟩) hright
      · rw [hR fuel hfuel] at hsome
        exact (Option.some_inj.1 hsome).symm
      · exact fun h => hcheck ((checkPoint_encode _).1 h)
    · intro hcheck
      refine ⟨2 * E.param.p, fun fuel hfuel sha1sum sha1sum' hmacTmp output plain => ?_⟩
      have horder := addOrderOf_smul_G hkeyB hkeyB'
      have horder' := addOrderOf_smul_G hk hlt
      have hP := @cMul_of_lt E fuel k hfuel (keyB • E.G) (by rw [horder]; exact E.r_prime) hk
        (by rwa [horder])
      have hP' := @cMul_of_lt E fuel keyB hfuel (k • E.G) (by rw [horder']; exact E.r_prime) hkeyB
        (by rwa [horder'])
      have hshared : keyB • k • E.G = k • keyB • E.G := smul_comm _ _ _
      have hne : k • keyB • E.G ≠ 0 := by
        rw [Ne, ← addOrderOf_dvd_iff_nsmul_eq_zero, horder]
        exact Nat.not_dvd_of_pos_of_lt hk hlt
      rw [hshared] at hP'
      refine decrypt_encrypt (hR fuel hfuel) ((checkPoint_encode _).2 hcheck) hP hP' ?_ hmsg
      rw [Params.pIszero_encode]
      exact decide_eq_false hne
  · have hzero : E.r • E.G = 0 := by
      rw [← E.addOrderOf_G, addOrderOf_nsmul_eq_zero]
    rw [hzero]
    refine iff_of_false (not_roundTrip fun fuel hfuel R hsome => ?_) fun hcheck => hcheck.1 rfl
    have hG : E.G ≠ 0 := fun h => by
      rw [h, addOrderOf_zero] at hprime
      exact Nat.not_prime_one hprime
    rw [Params.cMul_encode hfuel, ← E.addOrderOf_G] at hsome
    rcases E.r_prime.eq_two_or_odd with htwo | hodd
    · -- the double of the base point is not written
      rw [E.addOrderOf_G, htwo, PartialAddition.multiple_two (by rw [E.addOrderOf_G, htwo])] at hsome
      refine ⟨E.G, by simpa using hsome.symm, fun hcheck => ?_⟩
      refine ((checkPoint_encode _).1 hcheck).2 ((Params.encode_y_eq_zero _).2 ?_)
      rw [← two_nsmul, ← htwo, hzero]
    · rw [PartialAddition.multiple_order (by rwa [E.addOrderOf_G]) hG] at hsome
      cases hsome

/-- **ECIES.**  A message is decrypted if the public key of its ephemeral key has no zero
coordinate, and nothing is written for any input whose tag is not that of its ciphertext. -/
theorem round_trip_and_gate (hkeyB : 0 < keyB) (hkeyB' : keyB < E.r) (hk : 0 < k) (hk' : k ≤ E.r)
    (hmsg : msgLength ≤ maxMLen) :
    (E.RoundTrip keyB k input msgLength ↔
      (E.param.encode (k • E.G)).x ≠ 0 ∧ (E.param.encode (k • E.G)).y ≠ 0) ∧
    ∀ (fuel : ℕ) (sha1sum hmacTmp : List Octet) (sent plain out : Memory 8) (length key : ℕ)
      (result : ℤ), E.decrypt fuel sha1sum hmacTmp sent plain length key = some (result, out) →
        out ≠ plain → E.Authentic fuel sha1sum hmacTmp sent length key :=
  ⟨roundTrip_iff_coordinates hkeyB hkeyB' hk hk' hmsg,
    fun _ _ _ _ _ _ _ _ _ hrun hwritten => authentic_of_written hrun hwritten⟩

end RoundTrips

/-! ## A small curve -/

/-- A curve over the field of 17 numbers with 19 points. -/
def smallParam : Params where
  bits := 136
  p := 17
  a := 2
  b := 2
  prime := by norm_num
  odd := by decide
  bits_le := by norm_num
  a_lt := by decide
  b_lt := by decide
  b_ne_zero := by decide

theorem smallParam_nonsingular :
    smallParam.curve.Nonsingular (5 : ZMod smallParam.p) (1 : ZMod smallParam.p) := by
  rw [WeierstrassCurve.Affine.nonsingular_iff, WeierstrassCurve.Affine.equation_iff]
  decide

/-- The base point of the small curve. -/
def smallG : smallParam.curve.Point :=
  .some _ _ smallParam_nonsingular

theorem encode_add_small {Q R : smallParam.curve.Point} {P : Point}
    (hrun : smallParam.cAddAffine 34 ⟨0, 0⟩ (smallParam.encode Q) (smallParam.encode R) = some P) :
    smallParam.encode (Q + R) = P := by
  rw [Params.cAddAffine_encode (by decide)] at hrun
  split_ifs at hrun with hsame htwice hzero
  · rw [← hsame, htwice]
    exact Option.some_inj.1 hrun
  · rw [← hsame]
    exact Option.some_inj.1 hrun
  · exact Option.some_inj.1 hrun

theorem encode_small_add {m n : ℕ} {P Q R : Point} (hm : smallParam.encode (m • smallG) = P)
    (hn : smallParam.encode (n • smallG) = Q)
    (hrun : smallParam.cAddAffine 34 ⟨0, 0⟩ P Q = some R) :
    smallParam.encode ((m + n) • smallG) = R := by
  rw [add_nsmul]
  subst hm hn
  exact encode_add_small hrun

theorem encode_small_one : smallParam.encode (1 • smallG) = ⟨5, 1⟩ := by
  rw [one_nsmul]
  rfl

theorem encode_small_two : smallParam.encode (2 • smallG) = ⟨6, 3⟩ :=
  encode_small_add encode_small_one encode_small_one (by decide)

theorem encode_small_four : smallParam.encode (4 • smallG) = ⟨3, 1⟩ :=
  encode_small_add encode_small_two encode_small_two (by decide)

theorem encode_small_six : smallParam.encode (6 • smallG) = ⟨16, 13⟩ :=
  encode_small_add encode_small_four encode_small_two (by decide)

theorem encode_small_seven : smallParam.encode (7 • smallG) = ⟨0, 6⟩ :=
  encode_small_add encode_small_six encode_small_one (by decide)

theorem encode_small_twelve : smallParam.encode (12 • smallG) = ⟨0, 11⟩ :=
  encode_small_add encode_small_six encode_small_six (by decide)

theorem encode_small_eighteen : smallParam.encode (18 • smallG) = ⟨5, 16⟩ :=
  encode_small_add encode_small_twelve encode_small_six (by decide)

theorem addOrderOf_smallG : addOrderOf smallG = 19 := by
  have := Fact.mk (show Nat.Prime 19 by norm_num)
  have hneg : smallParam.encode (-smallG) = ⟨5, 16⟩ := by
    rw [smallG, WeierstrassCurve.Affine.Point.neg_some]
    decide
  have hopposite : 18 • smallG = -smallG :=
    Params.encode_injective (encode_small_eighteen.trans hneg.symm)
  refine addOrderOf_eq_prime ?_ (WeierstrassCurve.Affine.Point.some_ne_zero _)
  rw [succ_nsmul, hopposite, neg_add_cancel]

/-- ECIES on the small curve. -/
def small : Ecies where
  processor := .eightBit
  keyBitLen := 128
  param := smallParam
  keyBitLen_eq := Eccfp.small.keyBitLen_eq
  bits_eq := rfl
  p_lt := by norm_num [smallParam]
  G := smallG
  r := 19
  r_prime := by norm_num
  addOrderOf_G := addOrderOf_smallG

/-- A message of five octets on the small curve. -/
theorem round_trip_and_gate_small :
    (small.RoundTrip 2 6 (fun _ => 0) 5 ↔
      (small.param.encode (6 • small.G)).x ≠ 0 ∧ (small.param.encode (6 • small.G)).y ≠ 0) ∧
    ∀ (fuel : ℕ) (sha1sum hmacTmp : List Octet) (sent plain out : Memory 8) (length key : ℕ)
      (result : ℤ), small.decrypt fuel sha1sum hmacTmp sent plain length key =
        some (result, out) → out ≠ plain → small.Authentic fuel sha1sum hmacTmp sent length key :=
  round_trip_and_gate (by decide) (by decide) (by decide) (by decide) (by decide)

/-- **An ephemeral key with a zero coordinate**: nothing is decrypted. -/
theorem small_ephemeral_rejected : ¬ small.RoundTrip 1 7 (fun _ => 0) 5 := by
  rw [roundTrip_iff_coordinates (by decide) (by decide) (by decide) (by decide) (by decide)]
  exact fun hcheck => hcheck.1 (congrArg Point.x encode_small_seven)

end Ecies

end Wiselib.Crypto
