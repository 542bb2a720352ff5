import Wiselib.Coap.CoapEngine
import Wiselib.Coap.CoapPacketNumbers

/-!
# Blockwise responses

A representation that is too long for a message is answered block by block.  The
client names a block by its number and the exponent of its size, and
`blockwise_response` chooses what of the representation goes into the response.

## Strategy

* `blockwiseResponse_cases` gives the number, the size, the more flag and the
  length of an answer; the offset is always the one that was asked for.
* The answer lies inside the representation exactly when the offset does
  (`inside_iff`).
* A client that starts at the first block never asks behind the end, so it gets
  the whole representation (`fetch_from`, by induction on what is left of it).
-/

namespace Wiselib.Coap

open ByteBuffer CoapPacket CoapEngine

/-! ## Requests, answers and the client -/

/-- A request with the block option `value` of the client, if it has one. -/
def blockRequest (base : CoapPacket) : Option UInt32 → CoapPacket
  | none => base
  | some value => setBlock (base.setOption .block2) value

/-- The end of `receiver` for a representation in `output_data`. -/
def answerBlock (outputData : ℕ → UInt8) (req resp : CoapPacket) (dataLen : UInt16) : CoapPacket :=
  let (response, outputDataLen, offset) := blockwiseResponse req resp dataLen
  setPayload response outputData offset outputDataLen

/-- Where the block starts that is asked for, with 32 bits. -/
def requestedOffset : Option UInt32 → ℕ
  | none => 0
  | some value => value.toNat / 16 * (16 * 2 ^ (value.toNat % 8)) % 2 ^ 32

/-- The block option of the request after a response with the block option `value`: the next
number, and the announced size. -/
def nextBlock (value : UInt32) : UInt32 := (value >>> 4 + 1) <<< 4 ||| value &&& 0x07

/-- A client that puts the payloads together until a response has no more flag. -/
def fetch (respond : Option UInt32 → CoapPacket) : ℕ → Option UInt32 → Option (List UInt8)
  | 0, _ => none
  | rounds + 1, value =>
      let response := respond value
      if response.isOption .block2 ∧ response.block2More ≠ 0 then
        (fetch respond rounds (some (nextBlock response.blockValue))).map (response.payload ++ ·)
      else some response.payload

/-- The payload of an answer lies inside the representation, and is not longer than a message
or than the size that the answer announces. -/
structure Inside (dataLen : UInt16) (answer : CoapPacket × UInt16 × UInt32) : Prop where
  inside : answer.2.2.toNat + answer.2.1.toNat ≤ dataLen.toNat
  payload : answer.2.1 ≤ confMaxPayloadLen
  announced : answer.1.isOption .block2 → answer.2.1 ≤ answer.1.block2Size

/-- A request for the first block, of any size, or without a block option. -/
def Starts : Option UInt32 → Prop
  | none => True
  | some value => value < 16

/-! ## One answer -/

section Answer

variable {req resp : CoapPacket} {dataLen : UInt16}

@[simp] theorem isOption_setOption (packet : CoapPacket) (option : CoapOption) :
    (packet.setOption option).isOption option = true := by
  simp [setOption, isOption]

theorem toNat_remaining (dataLen : UInt16) (offset : UInt32) :
    (dataLen.toUInt32 - offset).toNat =
      if offset.toNat ≤ dataLen.toNat then dataLen.toNat - offset.toNat
      else 2 ^ 32 + dataLen.toNat - offset.toNat := by
  have hlen := dataLen.toNat_lt
  have hoffset := offset.toNat_lt
  rw [UInt32.toNat_sub, UInt16.toNat_toUInt32]
  split <;> omega

theorem remaining_cases (dataLen size : UInt16) (offset : UInt32) :
    ∃ more length, (if dataLen < size then ((0 : UInt8), dataLen)
        else if dataLen.toUInt32 - offset > size.toUInt32 then (1, size)
        else (0, (dataLen.toUInt32 - offset).toUInt16)) = (more, length) ∧
      (dataLen.toNat < size.toNat ∧ more = 0 ∧ length = dataLen ∨
        size.toNat ≤ dataLen.toNat ∧ offset.toNat ≤ dataLen.toNat ∧
          dataLen.toNat ≤ offset.toNat + size.toNat ∧
          more = 0 ∧ length.toNat = dataLen.toNat - offset.toNat ∨
        size.toNat ≤ dataLen.toNat ∧
          ¬ (offset.toNat ≤ dataLen.toNat ∧ dataLen.toNat ≤ offset.toNat + size.toNat) ∧
          more = 1 ∧ length = size) := by
  have hlen := dataLen.toNat_lt
  have hsize := size.toNat_lt
  have hoffset := offset.toNat_lt
  have hremaining := toNat_remaining dataLen offset
  by_cases hshort : dataLen < size
  · exact ⟨0, dataLen, if_pos hshort, .inl ⟨UInt16.lt_iff_toNat_lt.1 hshort, rfl, rfl⟩⟩
  · have hlong : size.toNat ≤ dataLen.toNat := by
      rw [UInt16.lt_iff_toNat_lt] at hshort
      omega
    by_cases hmore : dataLen.toUInt32 - offset > size.toUInt32
    · refine ⟨1, size, by rw [if_neg hshort, if_pos hmore], .inr (.inr ⟨hlong, ?_, rfl, rfl⟩)⟩
      rw [gt_iff_lt, UInt32.lt_iff_toNat_lt, hremaining, UInt16.toNat_toUInt32] at hmore
      split at hmore <;> omega
    · refine ⟨0, _, by rw [if_neg hshort, if_neg hmore], .inr (.inl ?_)⟩
      rw [gt_iff_lt, UInt32.lt_iff_toNat_lt, hremaining, UInt16.toNat_toUInt32] at hmore
      have hinside : offset.toNat ≤ dataLen.toNat := by
        by_contra houtside
        rw [if_neg houtside] at hmore
        omega
      rw [if_pos hinside] at hmore hremaining
      refine ⟨hlong, hinside, by omega, rfl, ?_⟩
      rw [UInt32.toNat_toUInt16, hremaining]
      omega

/-- The three ways to answer a request with a block option: the representation is smaller than
a block, this is the last block, or there are more. -/
theorem blockwiseResponse_cases (resp : CoapPacket) (dataLen : UInt16)
    (hset : req.isOption .block2 = true) :
    ∃ response length, blockwiseResponse req resp dataLen = (response, length, req.block2Offset) ∧
      response.isOption .block2 = true ∧
      response.block2Size.toNat = min req.block2Size.toNat 64 ∧
      (response.block2Num = req.block2Num ∨
        response.block2Num = req.block2Num * req.block2Size.toUInt32 / 64 ∧
          64 < req.block2Size.toNat) ∧
      (dataLen.toNat < response.block2Size.toNat ∧ response.block2More = 0 ∧ length = dataLen ∨
        response.block2Size.toNat ≤ dataLen.toNat ∧
          req.block2Offset.toNat ≤ dataLen.toNat ∧
          dataLen.toNat ≤ req.block2Offset.toNat + response.block2Size.toNat ∧
          response.block2More = 0 ∧ length.toNat = dataLen.toNat - req.block2Offset.toNat ∨
        response.block2Size.toNat ≤ dataLen.toNat ∧
          ¬ (req.block2Offset.toNat ≤ dataLen.toNat ∧
            dataLen.toNat ≤ req.block2Offset.toNat + response.block2Size.toNat) ∧
          response.block2More = 1 ∧ length = response.block2Size) := by
  by_cases hlarge : req.block2Size > confMaxPayloadLen
  · obtain ⟨more, length, hcase, hcases⟩ :=
      remaining_cases dataLen confMaxPayloadLen req.block2Offset
    have hsize : 64 < req.block2Size.toNat := UInt16.lt_iff_toNat_lt.1 hlarge
    have hmin : confMaxPayloadLen.toNat = min req.block2Size.toNat 64 :=
      (Nat.min_eq_right hsize.le).symm
    refine ⟨CoapPacket.setOption { resp with
        block2Size := confMaxPayloadLen
        block2Num := req.block2Num * req.block2Size.toUInt32 / 64
        block2More := more } .block2, length, ?_, isOption_setOption _ _, hmin,
      .inr ⟨rfl, hsize⟩, hcases⟩
    simp only [blockwiseResponse, hset, if_true, if_pos hlarge, hcase]
    rfl
  · obtain ⟨more, length, hcase, hcases⟩ :=
      remaining_cases dataLen req.block2Size req.block2Offset
    have hsize : req.block2Size.toNat ≤ 64 := by
      rw [gt_iff_lt, UInt16.lt_iff_toNat_lt] at hlarge
      exact not_lt.1 hlarge
    have hmin : req.block2Size.toNat = min req.block2Size.toNat 64 :=
      (Nat.min_eq_left hsize).symm
    refine ⟨CoapPacket.setOption { resp with
        block2Size := req.block2Size
        block2Num := req.block2Num
        block2More := more } .block2, length, ?_, isOption_setOption _ _, hmin, .inl rfl, hcases⟩
    simp only [blockwiseResponse, hset, if_true, if_neg hlarge, hcase]

theorem blockwiseResponse_none (resp : CoapPacket) (dataLen : UInt16)
    (hset : req.isOption .block2 = false) :
    (64 < dataLen.toNat ∧ ∃ response, blockwiseResponse req resp dataLen = (response, 64, 0) ∧
        response.isOption .block2 = true ∧ response.block2Size = 64 ∧
        response.block2Num = 0 ∧ response.block2More = 1) ∨
      dataLen.toNat ≤ 64 ∧ blockwiseResponse req resp dataLen = (resp, dataLen, 0) := by
  by_cases hlong : dataLen > confMaxPayloadLen
  · refine .inl ⟨UInt16.lt_iff_toNat_lt.1 hlong, CoapPacket.setOption { resp with
        block2Num := 0
        block2More := 1
        block2Size := confMaxPayloadLen } .block2, ?_, isOption_setOption _ _, rfl, rfl, rfl⟩
    simp only [blockwiseResponse, hset, Bool.false_eq_true, if_false, if_pos hlong]
    rfl
  · refine .inr ⟨?_, ?_⟩
    · rw [gt_iff_lt, UInt16.lt_iff_toNat_lt] at hlong
      exact not_lt.1 hlong
    · simp only [blockwiseResponse, hset, Bool.false_eq_true, if_false, if_neg hlong]

/-! ## Requests -/

theorem isOption_blockRequest (base : CoapPacket) (value : UInt32) :
    (blockRequest base (some value)).isOption .block2 = true :=
  isOption_setOption base .block2

theorem toNat_block2Size (packet : CoapPacket) (value : UInt32) :
    (setBlock packet value).block2Size.toNat = 16 * 2 ^ (value.toNat % 8) :=
  (setBlock_fields packet value).2.2

theorem toNat_block2Offset (packet : CoapPacket) (value : UInt32) :
    (setBlock packet value).block2Offset.toNat = requestedOffset (some value) := by
  have hseven : (value &&& 7).toNat = value.toNat % 8 := Nat.and_two_pow_sub_one_eq_mod _ 3
  have hhigh : value &&& ~~~(0x0f : UInt32) = (value >>> 4) <<< 4 := by
    apply UInt32.toBitVec_inj.1
    ext i hi
    interval_cases i <;> simp
  have hnumber : ((value >>> 4) <<< 4).toNat = value.toNat / 16 * 16 := by
    have hlt := value.toNat_lt
    simp [Nat.shiftLeft_eq, Nat.shiftRight_eq_div_pow]
    omega
  have hmod : value.toNat % 8 % 32 = value.toNat % 8 := by omega
  simp only [setBlock, hhigh, UInt32.toNat_shiftLeft, hnumber, hseven, Nat.shiftLeft_eq,
    requestedOffset]
  rw [hmod, Nat.mul_assoc]

theorem requestedOffset_eq_zero {value : UInt32}
    (hless : requestedOffset (some value) < 16 * 2 ^ (value.toNat % 8)) :
    requestedOffset (some value) = 0 := by
  have hexponent : value.toNat % 8 < 8 := Nat.mod_lt _ (by decide)
  have hpow : 16 * 2 ^ (value.toNat % 8) ∣ 2 ^ 32 := by
    have hsplit : 2 ^ 32 = 16 * 2 ^ (value.toNat % 8) * 2 ^ (28 - value.toNat % 8) := by
      rw [Nat.mul_assoc, ← Nat.pow_add, Nat.add_sub_cancel' (by omega)]
      rfl
    exact ⟨_, hsplit⟩
  have hdvd : 16 * 2 ^ (value.toNat % 8) ∣ requestedOffset (some value) := by
    rw [requestedOffset, Nat.dvd_mod_iff hpow]
    exact Nat.dvd_mul_left _ _
  exact Nat.eq_zero_of_dvd_of_lt hdvd hless

theorem inside_iff {base : CoapPacket} (hbase : base.isOption .block2 = false)
    (hresp : resp.isOption .block2 = false) (dataLen : UInt16) (value : Option UInt32) :
    Inside dataLen (blockwiseResponse (blockRequest base value) resp dataLen) ↔
      requestedOffset value ≤ dataLen.toNat := by
  cases value with
  | none =>
      refine iff_of_true ?_ (Nat.zero_le _)
      rcases blockwiseResponse_none resp dataLen hbase with
        ⟨hlong, response, heq, -, hsize, -⟩ | ⟨hshort, heq⟩
      · rw [blockRequest, heq]
        refine ⟨?_, UInt16.le_refl _, fun _ => ?_⟩
        · change 0 + 64 ≤ dataLen.toNat
          omega
        · simp only [hsize]
          exact UInt16.le_refl 64
      · rw [blockRequest, heq]
        refine ⟨?_, ?_, fun hset => ?_⟩
        · exact (Nat.zero_add dataLen.toNat).le
        · exact UInt16.le_iff_toNat_le.2 hshort
        · exact absurd (hresp.symm.trans hset) (by decide)
  | some value =>
      have hsize : (blockRequest base (some value)).block2Size.toNat =
          16 * 2 ^ (value.toNat % 8) := toNat_block2Size _ value
      have hoffset : (blockRequest base (some value)).block2Offset.toNat =
          requestedOffset (some value) := toNat_block2Offset _ value
      obtain ⟨response, length, heq, hset, hmin, -, hcases⟩ :=
        blockwiseResponse_cases resp dataLen (isOption_blockRequest base value)
      rw [heq]
      rw [hoffset] at hcases
      rw [hsize] at hmin
      constructor
      · intro hinside
        have hrange := hinside.inside
        simp only [hoffset] at hrange
        omega
      · intro hle
        have hshort : length.toNat ≤ response.block2Size.toNat := by
          rcases hcases with ⟨hless, -, rfl⟩ | ⟨-, -, hlast, -, hlength⟩ | ⟨-, -, -, rfl⟩
          · exact hless.le
          · omega
          · exact le_rfl
        refine ⟨?_, ?_, fun _ => UInt16.le_iff_toNat_le.2 hshort⟩
        · simp only [hoffset]
          rcases hcases with ⟨hless, -, rfl⟩ | ⟨-, -, -, -, hlength⟩ | ⟨-, hmore, -, rfl⟩
          · rw [requestedOffset_eq_zero (by omega)]
            omega
          · omega
          · omega
        · rw [UInt16.le_iff_toNat_le]
          change length.toNat ≤ 64
          omega

end Answer

/-! ## The client -/

section Client

theorem toNat_nextBlock {value : UInt32} (hvalue : value.toNat < 2 ^ 31) :
    (nextBlock value).toNat = (value.toNat / 16 + 1) * 16 + value.toNat % 8 := by
  have hseven : value.toNat &&& 7 = value.toNat % 8 := Nat.and_two_pow_sub_one_eq_mod _ 3
  have hsmall : value.toNat % 8 < 2 ^ 4 := by omega
  have hor : (value.toNat / 16 + 1) * 16 ||| value.toNat % 8 =
      (value.toNat / 16 + 1) * 16 + value.toNat % 8 := by
    have hshift := Nat.shiftLeft_add_eq_or_of_lt hsmall (value.toNat / 16 + 1)
    rw [Nat.shiftLeft_eq] at hshift
    exact hshift.symm
  have hnumber : (value.toNat / 16 + 1) % 4294967296 * 16 % 4294967296 =
      (value.toNat / 16 + 1) * 16 := by omega
  simp [nextBlock, Nat.shiftLeft_eq, Nat.shiftRight_eq_div_pow, hseven, hnumber, hor]

theorem next_of_response {response : CoapPacket} {n e : ℕ}
    (hnum : response.block2Num.toNat = n) (hn : n < 2 ^ 16)
    (hsize : response.block2Size.toNat = 16 * 2 ^ e) (he : e ≤ 2) :
    (nextBlock response.blockValue).toNat = (n + 1) * 16 + e := by
  have hlog : Nat.log 2 response.block2Size.toNat = 4 + e := by
    rw [hsize, show 16 * 2 ^ e = 2 ^ (4 + e) by rw [Nat.pow_add], Nat.log_pow (by decide)]
  have hexponent : 4 + e < 16 := by omega
  have hvalue : response.blockValue.toNat = n * 16 % 2 ^ 32 + blockBits response.block2More (4 + e) := by
    rw [blockValue, hlog, toNat_block hexponent, hnum]
  have hbits : blockBits response.block2More (4 + e) % 8 = e ∧
      blockBits response.block2More (4 + e) < 16 := by
    refine ⟨?_, blockBits_lt hexponent⟩
    interval_cases e <;> simp only [blockBits] <;> split <;> decide
  rw [toNat_nextBlock (by omega)]
  omega

/-- What the client is told in answer to a block option. -/
structure Told (outputData : ℕ → UInt8) (dataLen n e : ℕ) (response : CoapPacket) : Prop where
  block : response.isOption .block2 = true
  more : response.block2More ≠ 0 ↔ (n + 1) * (16 * 2 ^ e) < dataLen
  next : response.block2More ≠ 0 → (nextBlock response.blockValue).toNat = (n + 1) * 16 + e
  payload : response.payload = read outputData (n * (16 * 2 ^ e))
    (min (16 * 2 ^ e) (dataLen - n * (16 * 2 ^ e)))

theorem told (base resp : CoapPacket) (outputData : ℕ → UInt8) (dataLen : UInt16)
    (value : UInt32) {n e : ℕ} (hnumber : value.toNat / 16 = n)
    (hexponent : min (value.toNat % 8) 2 = e)
    (hstart : n = 0 ∨ value.toNat % 8 ≤ 2 ∧ n * (16 * 2 ^ e) < dataLen.toNat) :
    Told outputData dataLen.toNat n e
      (answerBlock outputData (blockRequest base (some value)) resp dataLen) := by
  have hlen := dataLen.toNat_lt
  have he : e ≤ 2 := by omega
  have hsize : (blockRequest base (some value)).block2Size.toNat =
      16 * 2 ^ (value.toNat % 8) := toNat_block2Size _ value
  have hnum : (blockRequest base (some value)).block2Num.toNat = n :=
    (setBlock_fields _ value).1.trans hnumber
  have hless : value.toNat % 8 < 8 := Nat.mod_lt _ (by decide)
  have hblock : min (16 * 2 ^ (value.toNat % 8)) 64 = 16 * 2 ^ e := by
    rw [← hexponent]
    generalize value.toNat % 8 = exponent at hless
    interval_cases exponent <;> rfl
  have hoffset : (blockRequest base (some value)).block2Offset.toNat = n * (16 * 2 ^ e) := by
    rw [blockRequest, toNat_block2Offset, requestedOffset, hnumber]
    rcases hstart with rfl | ⟨hsmall, hinside⟩
    · simp
    · rw [Nat.min_eq_left hsmall] at hexponent
      rw [hexponent]
      exact Nat.mod_eq_of_lt (by omega)
  obtain ⟨response, length, heq, hset, hmin, hnum', hcases⟩ :=
    blockwiseResponse_cases resp dataLen (isOption_blockRequest base value)
  rw [hsize, hblock] at hmin
  rw [hoffset, hmin] at hcases
  have hshort : length.toNat ≤ 64 := by
    have hle : 16 * 2 ^ e ≤ 64 := hblock ▸ Nat.min_le_right _ _
    rcases hcases with ⟨hless, -, rfl⟩ | ⟨-, -, hlast, -, hlength⟩ | ⟨-, -, -, rfl⟩ <;> omega
  have hpayload : length.toUInt8.toNat = length.toNat := by
    rw [UInt16.toNat_toUInt8]
    omega
  have hnext : response.block2Num.toNat = n := by
    rcases hnum' with heq | ⟨heq, hlarge⟩
    · rw [heq, hnum]
    · have hzero : n = 0 := by
        rcases hstart with hzero | ⟨hsmall, -⟩
        · exact hzero
        · rw [hsize] at hlarge
          generalize value.toNat % 8 = exponent at hsmall hlarge
          interval_cases exponent <;> omega
      rw [heq, UInt32.toNat_div, UInt32.toNat_mul, hnum, hzero, Nat.zero_mul, Nat.zero_mod,
        Nat.zero_div]
  have hroom : n * (16 * 2 ^ e) ≤ dataLen.toNat := by
    rcases hstart with rfl | ⟨-, hinside⟩
    · simp
    · exact hinside.le
  have hsum : (n + 1) * (16 * 2 ^ e) = n * (16 * 2 ^ e) + 16 * 2 ^ e := by ring
  have hfew : n ≤ n * (16 * 2 ^ e) := Nat.le_mul_of_pos_right n (by positivity)
  rw [answerBlock, heq]
  refine ⟨hset, ?_, fun _ => next_of_response hnext (by omega) hmin he, ?_⟩
  · change response.block2More ≠ 0 ↔ _
    rw [hsum]
    rcases hcases with ⟨hless, hmore, -⟩ | ⟨-, -, hlast, hmore, -⟩ | ⟨-, hlater, hmore, -⟩
    · exact iff_of_false (not_not.2 hmore) (by omega)
    · exact iff_of_false (not_not.2 hmore) (by omega)
    · exact iff_of_true (by rw [hmore]; decide) (by omega)
  · change read outputData _ length.toUInt8.toNat = _
    rw [hpayload, hoffset]
    congr 1
    rcases hcases with ⟨hless, -, rfl⟩ | ⟨-, -, hlast, -, hlength⟩ | ⟨-, hlater, -, rfl⟩
    · have hzero : n * (16 * 2 ^ e) = 0 := by
        have hfirst : n < 1 := Nat.lt_of_mul_lt_mul_right (a := 16 * 2 ^ e) (by omega)
        rw [Nat.lt_one_iff.1 hfirst, Nat.zero_mul]
      omega
    · omega
    · omega

theorem fetch_from (base resp : Option UInt32 → CoapPacket) (outputData : ℕ → UInt8)
    (dataLen : UInt16) {e : ℕ} (he : e ≤ 2) (rounds : ℕ) {n : ℕ} {value : UInt32}
    (hvalue : value.toNat = n * 16 + e) (hinside : n * (16 * 2 ^ e) < dataLen.toNat)
    (hrounds : dataLen.toNat - n * (16 * 2 ^ e) ≤ rounds) :
    fetch (fun value => answerBlock outputData (blockRequest (base value) value) (resp value) dataLen)
        rounds (some value) =
      some (read outputData (n * (16 * 2 ^ e)) (dataLen.toNat - n * (16 * 2 ^ e))) := by
  induction rounds generalizing n value with
  | zero => omega
  | succ rounds ih =>
      have htold := told (base (some value)) (resp (some value)) outputData dataLen value
        (n := n) (e := e) (by omega) (by omega) (.inr ⟨by omega, hinside⟩)
      have hsum : (n + 1) * (16 * 2 ^ e) = n * (16 * 2 ^ e) + 16 * 2 ^ e := by ring
      have hpos : 0 < 16 * 2 ^ e := by positivity
      by_cases hmore : (n + 1) * (16 * 2 ^ e) < dataLen.toNat
      · have hflag := htold.more.2 hmore
        have hrest := ih (htold.next hflag) hmore (by omega)
        rw [fetch, if_pos ⟨htold.block, hflag⟩, hrest, Option.map_some, htold.payload,
          Nat.min_eq_left (by omega), hsum, ← read_add]
        congr 2
        omega
      · have hflag : ¬ _ := fun hflag => hmore (htold.more.1 hflag)
        rw [fetch, if_neg (fun hboth => hflag hboth.2), htold.payload, Nat.min_eq_right (by omega)]

theorem fetch_start {base resp : Option UInt32 → CoapPacket}
    (hbase : ∀ value, (base value).isOption .block2 = false)
    (hresp : ∀ value, (resp value).isOption .block2 = false) (outputData : ℕ → UInt8)
    (dataLen : UInt16) {start : Option UInt32} (hstart : Starts start) :
    ∃ rounds, fetch
        (fun value => answerBlock outputData (blockRequest (base value) value) (resp value) dataLen)
        rounds start = some (read outputData 0 dataLen.toNat) := by
  refine ⟨dataLen.toNat + 1, ?_⟩
  cases start with
  | none =>
      rcases blockwiseResponse_none (resp none) dataLen (hbase none) with
        ⟨hlong, response, heq, hset, hsize, hnum, hmore⟩ | ⟨hshort, heq⟩
      · have hflag : response.block2More ≠ 0 := by rw [hmore]; decide
        have hnext : (nextBlock (setPayload response outputData 0 64).blockValue).toNat =
            (0 + 1) * 16 + 2 :=
          next_of_response (congrArg UInt32.toNat hnum) (by decide) (congrArg UInt16.toNat hsize)
            le_rfl
        have hblock : answerBlock outputData (base none) (resp none) dataLen =
            setPayload response outputData 0 64 := by rw [answerBlock, heq]
        have hrest := fetch_from base resp outputData dataLen le_rfl dataLen.toNat hnext
          (by omega) (by omega)
        rw [fetch, blockRequest, hblock, if_pos ⟨hset, hflag⟩, hrest, Option.map_some]
        change some (read outputData 0 64 ++ read outputData (0 + 64) _) = _
        rw [← read_add]
        congr 2
        omega
      · have hblock : answerBlock outputData (base none) (resp none) dataLen =
            setPayload (resp none) outputData 0 dataLen := by rw [answerBlock, heq]
        have hclear : (setPayload (resp none) outputData 0 dataLen).isOption .block2 = false :=
          hresp none
        rw [fetch, blockRequest, hblock, if_neg (by simp [hclear])]
        change some (read outputData 0 dataLen.toUInt8.toNat) = _
        rw [UInt16.toNat_toUInt8, Nat.mod_eq_of_lt (by omega)]
  | some value =>
      have hvalue : value.toNat < 16 := UInt32.lt_iff_toNat_lt.1 hstart
      obtain ⟨e, hexponent⟩ : ∃ e, min (value.toNat % 8) 2 = e := ⟨_, rfl⟩
      have htold := told (base (some value)) (resp (some value)) outputData dataLen value
        (n := 0) (by omega) hexponent (.inl rfl)
      have hpos : 0 < 16 * 2 ^ e := by positivity
      by_cases hmore : (0 + 1) * (16 * 2 ^ e) < dataLen.toNat
      · have hflag := htold.more.2 hmore
        have hrest := fetch_from base resp outputData dataLen (by omega) dataLen.toNat
          (htold.next hflag) hmore (by omega)
        rw [fetch, if_pos ⟨htold.block, hflag⟩, hrest, Option.map_some, htold.payload,
          Nat.zero_mul, Nat.min_eq_left (by omega), Nat.zero_add, Nat.one_mul]
        have hjoin : read outputData 0 (16 * 2 ^ e + (dataLen.toNat - 16 * 2 ^ e)) =
            read outputData 0 (16 * 2 ^ e) ++ read outputData (0 + 16 * 2 ^ e) _ := read_add _ _
        rw [Nat.zero_add] at hjoin
        rw [← hjoin, Nat.add_sub_cancel' (by omega)]
      · have hflag : ¬ _ := fun hflag => hmore (htold.more.1 hflag)
        rw [fetch, if_neg (fun hboth => hflag hboth.2), htold.payload, Nat.zero_mul,
          Nat.sub_zero, Nat.min_eq_right (by omega)]

/-- The answer to a request lies inside the representation exactly when the requested block
starts there, and a client that starts at the first block gets exactly the representation. -/
theorem blockwise_served {base resp : Option UInt32 → CoapPacket}
    (hbase : ∀ value, (base value).isOption .block2 = false)
    (hresp : ∀ value, (resp value).isOption .block2 = false) (outputData : ℕ → UInt8)
    (dataLen : UInt16) :
    (∀ value, Inside dataLen
        (blockwiseResponse (blockRequest (base value) value) (resp value) dataLen) ↔
      requestedOffset value ≤ dataLen.toNat) ∧
    ∀ start, Starts start → ∃ rounds, fetch
      (fun value => answerBlock outputData (blockRequest (base value) value) (resp value) dataLen)
      rounds start = some (read outputData 0 dataLen.toNat) :=
  ⟨fun value => inside_iff (hbase value) (hresp value) dataLen value,
    fun _ hstart => fetch_start hbase hresp outputData dataLen hstart⟩

/-- Two packets as `init` leaves them, one for the request and one for the response. -/
def initialPacket : CoapPacket :=
  { version := coapVersion, type := 0, optCount := 0, code := 0, mid := 0, options := 0,
    contentType := 0, maxAge := 0, uriHost := 0, uriPort := 0, uriPathLen := 0, uriPath := [],
    observe := 0, tokenLen := 0, token := [], accept := 0, block2Num := 0, block2More := 0,
    block2Size := 0, block2Offset := 0, payloadLen := 0, payload := [] }

theorem blockwise_served_initial :
    (∀ value, Inside 100
        (blockwiseResponse (blockRequest initialPacket value) initialPacket 100) ↔
      requestedOffset value ≤ 100) ∧
    ∀ start, Starts start → ∃ rounds, fetch
      (fun value => answerBlock (fun _ => 7) (blockRequest initialPacket value) initialPacket 100)
      rounds start = some (read (fun _ => 7) 0 100) :=
  blockwise_served (fun _ => rfl) (fun _ => rfl) (fun _ => 7) 100

/-- Asked for the second block of 16 bytes of a representation of ten bytes, the engine answers
with the ten bytes from position 16 on. -/
theorem not_inside_second_block :
    ¬ ∀ (base resp : CoapPacket) (dataLen : UInt16) (value : Option UInt32),
      base.isOption .block2 = false → resp.isOption .block2 = false →
        Inside dataLen (blockwiseResponse (blockRequest base value) resp dataLen) := by
  intro hall
  have hinside := (hall initialPacket initialPacket 10 (some 0x10) rfl rfl).inside
  exact absurd hinside (by decide)

/-! ## The receiver -/

/-- The response to a request for a resource is such an answer. -/
theorem executeRequest_answer (env : Surroundings) (msg response : CoapPacket) (i : ℕ)
    (coap : CoapEngine) (hresponse : response.isOption .block2 = false) :
    ∃ resp output, resp.isOption .block2 = false ∧
      (executeRequest env msg i response coap).1 =
        answerBlock (writeOutput output coap).outputData msg resp (outputLen output 0) := by
  refine ⟨_, _, ?_, rfl⟩
  have hclear : response.options.testBit 17 = false := hresponse
  change (response.options ||| 1 <<< 1 ||| 1 <<< 2).testBit 17 = false
  rw [Nat.testBit_or, Nat.testBit_or, hclear]
  decide

end Client

end Wiselib.Coap
