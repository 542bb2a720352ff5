import Wiselib.Library.ByteBuffer
import Wiselib.Library.OnesComplement

/-!
# Messages with a Fletcher checksum

`fletcher16_checksum`, `set_payload` and `compare_checksum` of
`internal_interface/message/message.h`, with the checksum compiled in.

## Strategy

The code sums up to twenty bytes before it brings the carries around once.
`Within` bounds both sums along such a block: twenty bytes are as many as keep
them in 16 bits (`within_addBytes`), so nothing that is assigned is truncated
(`assigned_le`).

Bringing the carry around keeps a sum modulo 255 and keeps it from being zero.
The sums that are left at the end are therefore the residues between 1 and 255
(`fletcher16Checksum_eq`), and two payloads that differ in one byte modulo 255
have different first sums.
-/

namespace Wiselib.Codecs

open ByteBuffer

/-! ## The checksum -/

namespace Fletcher

/-- The accumulators. -/
structure Sums where
  sum1 : ℕ
  sum2 : ℕ
deriving DecidableEq

/-- A number as `uint16_t`. -/
def uint16 (n : ℕ) : ℕ := n % 2 ^ 16

/-- The body of the inner loop. -/
def addByte (s : Sums) (byte : UInt8) : Sums :=
  let sum1 := uint16 (s.sum1 + byte.toNat)
  ⟨sum1, uint16 (s.sum2 + sum1)⟩

/-- The inner loop. -/
def addBytes (s : Sums) (bytes : List UInt8) : Sums :=
  bytes.foldl addByte s

/-- A sum with its carry added to it. -/
def carried (sum : ℕ) : ℕ :=
  (sum &&& 0xff) + (sum >>> 8)

/-- Brings the carry around. -/
def carry (sum : ℕ) : ℕ :=
  uint16 (carried sum)

/-- Brings both carries around. -/
def fold (s : Sums) : Sums :=
  ⟨carry s.sum1, carry s.sum2⟩

/-- The outer loop. -/
def sums (s : Sums) (data : List UInt8) : Sums :=
  if data = [] then s
  else
    let tlen := if 20 < data.length then 20 else data.length
    sums (fold (addBytes s (data.take tlen))) (data.drop tlen)
termination_by data.length
decreasing_by
  have hpos := List.length_pos_of_ne_nil ‹_›
  rw [List.length_drop]
  split <;> omega

/-- The accumulators before the first byte. -/
def start : Sums := ⟨0xff, 0xff⟩

/-- `fletcher16_checksum`. -/
def fletcher16Checksum (data : List UInt8) : ℕ :=
  let s := fold (sums start data)
  uint16 (s.sum2 <<< 8 ||| s.sum1)

/-! ## What is assigned -/

/-- What the inner loop assigns to the accumulators, before it is truncated. -/
def assignedBytes : Sums → List UInt8 → List ℕ
  | _, [] => []
  | s, byte :: bytes =>
      (s.sum1 + byte.toNat) :: (s.sum2 + (addByte s byte).sum1) ::
        assignedBytes (addByte s byte) bytes

/-- What bringing the carries around assigns. -/
def assignedFold (s : Sums) : List ℕ :=
  [carried s.sum1, carried s.sum2]

/-- What the outer loop and the statements behind it assign. -/
def assigned (s : Sums) (data : List UInt8) : List ℕ :=
  if data = [] then assignedFold s
  else
    let tlen := if 20 < data.length then 20 else data.length
    let next := addBytes s (data.take tlen)
    assignedBytes s (data.take tlen) ++ assignedFold next ++ assigned (fold next) (data.drop tlen)
termination_by data.length
decreasing_by
  have hpos := List.length_pos_of_ne_nil ‹_›
  rw [List.length_drop]
  split <;> omega

/-! ## Bounds -/

/-- The sums after `count` bytes behind a fold. -/
structure Within (count : ℕ) (s : Sums) : Prop where
  sum1_pos : 0 < s.sum1
  sum2_pos : 0 < s.sum2
  sum1_le : s.sum1 ≤ 510 + 255 * count
  sum2_le : 2 * s.sum2 ≤ 1020 * (count + 1) + 255 * (count * (count + 1))

section Bounds

variable {s : Sums} {count : ℕ} {data bytes : List UInt8}

theorem uint16_eq {n : ℕ} (hn : n ≤ 65535) : uint16 n = n :=
  Nat.mod_eq_of_lt (by omega)

/-- Up to twenty bytes both sums stay in 16 bits. -/
theorem Within.fits (hwithin : Within count s) (hcount : count ≤ 20) :
    s.sum1 ≤ 5610 ∧ s.sum2 ≤ 64260 := by
  have hsum1 := hwithin.sum1_le
  have hsum2 := hwithin.sum2_le
  have hsquare : count * (count + 1) ≤ 20 * 21 := Nat.mul_le_mul hcount (by omega)
  omega

/-- **One byte.** -/
theorem within_addByte (hwithin : Within count s) (hcount : count + 1 ≤ 20) (byte : UInt8) :
    Within (count + 1) (addByte s byte) ∧
      s.sum1 + byte.toNat ≤ 65535 ∧ s.sum2 + (addByte s byte).sum1 ≤ 65535 := by
  have hbyte : byte.toNat < 256 := byte.toNat_lt
  have hsum1 := hwithin.sum1_le
  have hsum2 := hwithin.sum2_le
  have hpos1 := hwithin.sum1_pos
  have hpos2 := hwithin.sum2_pos
  have hsquare : (count + 1) * (count + 1 + 1) = count * (count + 1) + 2 * (count + 1) := by ring
  have hlarge : (count + 1) * (count + 1 + 1) ≤ 20 * 21 := Nat.mul_le_mul hcount (by omega)
  have hfirst : (addByte s byte).sum1 = s.sum1 + byte.toNat := uint16_eq (by omega)
  have hsecond : (addByte s byte).sum2 = s.sum2 + (s.sum1 + byte.toNat) := by
    show uint16 (s.sum2 + (addByte s byte).sum1) = _
    rw [hfirst, uint16_eq (by omega)]
  refine ⟨⟨?_, ?_, ?_, ?_⟩, ?_, ?_⟩ <;> omega

/-- **A block** of bytes. -/
theorem within_addBytes (hwithin : Within count s) (hcount : count + bytes.length ≤ 20) :
    Within (count + bytes.length) (addBytes s bytes) ∧
      ∀ value ∈ assignedBytes s bytes, value ≤ 65535 := by
  induction bytes generalizing s count with
  | nil => exact ⟨hwithin, fun value hmem => absurd hmem List.not_mem_nil⟩
  | cons byte bytes ih =>
      rw [List.length_cons] at hcount ⊢
      obtain ⟨hnext, hfirst, hsecond⟩ := within_addByte hwithin (by omega) byte
      obtain ⟨hlast, hvalues⟩ := ih hnext (by omega)
      have hadd : count + (bytes.length + 1) = count + 1 + bytes.length := by omega
      rw [hadd]
      refine ⟨hlast, fun value hmem => ?_⟩
      rw [assignedBytes, List.mem_cons, List.mem_cons] at hmem
      rcases hmem with rfl | rfl | hmem
      · exact hfirst
      · exact hsecond
      · exact hvalues value hmem

theorem carried_eq (sum : ℕ) : carried sum = sum % 256 + sum / 256 := by
  rw [carried, Nat.and_two_pow_sub_one_eq_mod sum 8, Nat.shiftRight_eq_div_pow]

theorem carry_spec {sum : ℕ} (hpos : 0 < sum) (hle : sum ≤ 65535) :
    carry sum = sum % 256 + sum / 256 ∧ 0 < carry sum ∧ carry sum ≤ 510 := by
  have hcarry : carry sum = sum % 256 + sum / 256 := by
    rw [carry, carried_eq, uint16_eq (by omega)]
  omega

/-- **The carries** of a block. -/
theorem within_fold (hwithin : Within count s) (hcount : count ≤ 20) :
    Within 0 (fold s) ∧ ∀ value ∈ assignedFold s, value ≤ 65535 := by
  obtain ⟨hle1, hle2⟩ := hwithin.fits hcount
  obtain ⟨hcarry1, hpos1, hsmall1⟩ := carry_spec hwithin.sum1_pos (by omega)
  obtain ⟨hcarry2, hpos2, hsmall2⟩ := carry_spec hwithin.sum2_pos (by omega)
  constructor
  · refine ⟨hpos1, hpos2, hsmall1, ?_⟩
    show 2 * carry s.sum2 ≤ _
    omega
  · intro value hmem
    simp only [assignedFold, carried_eq, List.mem_cons, List.not_mem_nil, or_false] at hmem
    omega

theorem within_start : Within 0 start :=
  ⟨by decide, by decide, by decide, by decide⟩

theorem length_block (data : List UInt8) :
    (data.take (if 20 < data.length then 20 else data.length)).length ≤ 20 := by
  rw [List.length_take]
  split <;> omega

/-- **Nothing that is assigned is truncated**, and the sums stay within what a fold leaves. -/
theorem within_sums (hwithin : Within 0 s) (data : List UInt8) :
    Within 0 (sums s data) ∧ ∀ value ∈ assigned s data, value ≤ 65535 := by
  fun_induction sums s data with
  | case1 s =>
      rw [assigned, if_pos rfl]
      exact ⟨hwithin, (within_fold hwithin (Nat.zero_le _)).2⟩
  | case2 s data hne tlen ih =>
      have hcount : 0 + (data.take tlen).length ≤ 20 := by
        rw [Nat.zero_add]
        exact length_block data
      obtain ⟨hblock, hbytes⟩ := within_addBytes hwithin hcount
      obtain ⟨hfold, hcarries⟩ := within_fold hblock hcount
      obtain ⟨hlast, hvalues⟩ := ih hfold
      refine ⟨hlast, fun value hmem => ?_⟩
      rw [assigned, if_neg hne] at hmem
      dsimp only at hmem
      rw [List.mem_append, List.mem_append] at hmem
      rcases hmem with (hmem | hmem) | hmem
      · exact hbytes value hmem
      · exact hcarries value hmem
      · exact hvalues value hmem

end Bounds

/-! ## The sums modulo 255 -/

/-- The sum of the bytes. -/
def byteSum (data : List UInt8) : ℕ :=
  (data.map UInt8.toNat).sum

/-- The sum of the bytes, each as often as bytes are left from it on. -/
def weightedSum : List UInt8 → ℕ
  | [] => 0
  | byte :: data => (data.length + 1) * byte.toNat + weightedSum data

section Residues

variable {s : Sums} {count : ℕ} {data bytes : List UInt8}

@[simp] theorem byteSum_cons (byte : UInt8) (data : List UInt8) :
    byteSum (byte :: data) = byte.toNat + byteSum data := by
  rw [byteSum, List.map_cons, List.sum_cons, byteSum]

theorem byteSum_append (xs ys : List UInt8) : byteSum (xs ++ ys) = byteSum xs + byteSum ys := by
  rw [byteSum, List.map_append, List.sum_append, byteSum, byteSum]

theorem weightedSum_append (xs ys : List UInt8) :
    weightedSum (xs ++ ys) = weightedSum xs + ys.length * byteSum xs + weightedSum ys := by
  induction xs with
  | nil => simp [weightedSum, byteSum]
  | cons byte xs ih =>
      rw [List.cons_append, weightedSum, weightedSum, ih, List.length_append, byteSum_cons]
      ring

/-- A block adds its bytes to the first sum, and what the first sum becomes to the second. -/
theorem addBytes_eq (hwithin : Within count s) (hcount : count + bytes.length ≤ 20) :
    (addBytes s bytes).sum1 = s.sum1 + byteSum bytes ∧
      (addBytes s bytes).sum2 = s.sum2 + bytes.length * s.sum1 + weightedSum bytes := by
  induction bytes generalizing s count with
  | nil => simp [addBytes, byteSum, weightedSum]
  | cons byte bytes ih =>
      rw [List.length_cons] at hcount ⊢
      obtain ⟨hnext, hfirst, hsecond⟩ := within_addByte hwithin (by omega) byte
      obtain ⟨hsum1, hsum2⟩ := ih hnext (by omega)
      have hbyte1 : (addByte s byte).sum1 = s.sum1 + byte.toNat := uint16_eq hfirst
      have hbyte2 : (addByte s byte).sum2 = s.sum2 + (s.sum1 + byte.toNat) := by
        rw [← hbyte1]
        exact uint16_eq hsecond
      have hunfold : addBytes s (byte :: bytes) = addBytes (addByte s byte) bytes := rfl
      rw [hunfold, hsum1, hsum2, hbyte1, hbyte2, byteSum_cons, weightedSum]
      constructor
      · omega
      · ring

theorem carry_modEq {sum : ℕ} (hpos : 0 < sum) (hle : sum ≤ 65535) : carry sum ≡ sum [MOD 255] := by
  have hsplit := OnesComplement.eq_add_carried 256 sum (by decide)
  rw [(carry_spec hpos hle).1]
  unfold Nat.ModEq
  omega

/-- **The sums** modulo 255. -/
theorem sums_modEq (hwithin : Within 0 s) (data : List UInt8) :
    (sums s data).sum1 ≡ s.sum1 + byteSum data [MOD 255] ∧
      (sums s data).sum2 ≡ s.sum2 + data.length * s.sum1 + weightedSum data [MOD 255] := by
  fun_induction sums s data with
  | case1 s => exact ⟨rfl, by simp [weightedSum, Nat.ModEq]⟩
  | case2 s data hne tlen ih =>
      have hcount : 0 + (data.take tlen).length ≤ 20 := by
        rw [Nat.zero_add]
        exact length_block data
      obtain ⟨hblock, -⟩ := within_addBytes hwithin hcount
      obtain ⟨hle1, hle2⟩ := hblock.fits hcount
      obtain ⟨hsum1, hsum2⟩ := addBytes_eq hwithin hcount
      obtain ⟨hrest1, hrest2⟩ := ih (within_fold hblock hcount).1
      have hcarry1 := carry_modEq hblock.sum1_pos (by omega)
      have hcarry2 := carry_modEq hblock.sum2_pos (by omega)
      have hlength : data.length = (data.take tlen).length + (data.drop tlen).length := by
        rw [← List.length_append, List.take_append_drop]
      have hbytes : byteSum data = byteSum (data.take tlen) + byteSum (data.drop tlen) := by
        rw [← byteSum_append, List.take_append_drop]
      have hweighted : weightedSum data = weightedSum (data.take tlen) +
          (data.drop tlen).length * byteSum (data.take tlen) + weightedSum (data.drop tlen) := by
        rw [← weightedSum_append, List.take_append_drop]
      constructor
      · calc (sums (fold (addBytes s (data.take tlen))) (data.drop tlen)).sum1
            ≡ carry (addBytes s (data.take tlen)).sum1 + byteSum (data.drop tlen) [MOD 255] :=
              hrest1
          _ ≡ (addBytes s (data.take tlen)).sum1 + byteSum (data.drop tlen) [MOD 255] :=
              hcarry1.add_right _
          _ = s.sum1 + byteSum data := by rw [hsum1, hbytes, Nat.add_assoc]
      · calc (sums (fold (addBytes s (data.take tlen))) (data.drop tlen)).sum2
            ≡ carry (addBytes s (data.take tlen)).sum2 +
                (data.drop tlen).length * carry (addBytes s (data.take tlen)).sum1 +
                weightedSum (data.drop tlen) [MOD 255] := hrest2
          _ ≡ (addBytes s (data.take tlen)).sum2 +
                (data.drop tlen).length * (addBytes s (data.take tlen)).sum1 +
                weightedSum (data.drop tlen) [MOD 255] :=
              (hcarry2.add (hcarry1.mul_left _)).add_right _
          _ = s.sum2 + data.length * s.sum1 + weightedSum data := by
              rw [hsum1, hsum2, hlength, hweighted]
              ring

/-- The residue between 1 and 255. -/
def residue (n : ℕ) : ℕ := (n + 254) % 255 + 1

theorem carry_eq_residue {sum n : ℕ} (hpos : 0 < sum) (hle : sum ≤ 510) (hmod : sum ≡ n [MOD 255]) :
    carry sum = residue n := by
  have hcarry := (carry_spec hpos (by omega)).1
  unfold Nat.ModEq at hmod
  unfold residue
  omega

/-- **The checksum** is made of the residues of the two sums. -/
theorem fletcher16Checksum_eq (data : List UInt8) :
    fletcher16Checksum data = 256 * residue (weightedSum data) + residue (byteSum data) := by
  obtain ⟨hlast, -⟩ := within_sums within_start data
  obtain ⟨hmod1, hmod2⟩ := sums_modEq within_start data
  have hle1 := hlast.sum1_le
  have hle2 := hlast.sum2_le
  -- the sums begin with 255, which is nothing modulo 255
  have hstart1 : (sums start data).sum1 ≡ byteSum data [MOD 255] := by
    refine hmod1.trans ?_
    show (255 + byteSum data) % 255 = byteSum data % 255
    omega
  have hstart2 : (sums start data).sum2 ≡ weightedSum data [MOD 255] := by
    refine hmod2.trans ?_
    show (255 + data.length * 255 + weightedSum data) % 255 = weightedSum data % 255
    omega
  have hsum1 := carry_eq_residue hlast.sum1_pos (by omega) hstart1
  have hsum2 := carry_eq_residue hlast.sum2_pos (by omega) hstart2
  have hsmall1 : residue (byteSum data) < 2 ^ 8 := by
    unfold residue
    omega
  have hsmall2 : residue (weightedSum data) < 2 ^ 8 := by
    unfold residue
    omega
  have hjoin : residue (weightedSum data) <<< 8 ||| residue (byteSum data) =
      256 * residue (weightedSum data) + residue (byteSum data) := by
    rw [← Nat.shiftLeft_add_eq_or_of_lt hsmall1, Nat.shiftLeft_eq, Nat.mul_comm]
  unfold fletcher16Checksum fold
  dsimp only
  rw [hsum1, hsum2, hjoin, uint16_eq (by omega)]

/-- A byte that changes modulo 255 changes the checksum. -/
theorem fletcher16Checksum_set_ne {i : ℕ} (hi : i < data.length) {byte : UInt8}
    (hbyte : byte.toNat % 255 ≠ (data.get ⟨i, hi⟩).toNat % 255) :
    fletcher16Checksum (data.set i byte) ≠ fletcher16Checksum data := by
  have hbytes : ∀ x : UInt8, byteSum (data.set i x) =
      byteSum (data.take i) + (x.toNat + byteSum (data.drop (i + 1))) := by
    intro x
    rw [List.set_eq_take_append_cons_drop, if_pos hi, byteSum_append, byteSum_cons]
  have hold := hbytes (data.get ⟨i, hi⟩)
  rw [List.get_eq_getElem, List.set_getElem_self] at hold
  have hnew := hbytes byte
  rw [List.get_eq_getElem] at hbyte
  rw [fletcher16Checksum_eq, fletcher16Checksum_eq]
  unfold residue
  intro heq
  omega

end Residues

end Fletcher

/-! ## Messages -/

/-- The sizes of `message_id_t` and of `size_t`, whose values are numbers of bytes. -/
structure MessageFormat where
  idSize : ℕ
  sizeSize : ℕ

namespace MessageFormat

open Fletcher

variable (format : MessageFormat)

/-- `CSUM_POS`. -/
def csumPos : ℕ := format.idSize

/-- `PAYLOAD_SIZE_POS`. -/
def payloadSizePos : ℕ := format.csumPos + 2

/-- `PAYLOAD_POS`. -/
def payloadPos : ℕ := format.payloadSizePos + format.sizeSize

/-- `set_payload` of `len` bytes at an address. -/
def setPayload (buffer : ℕ → UInt8) (len : ℕ) (buff : ℕ → UInt8) (offset : ℕ) : ℕ → UInt8 :=
  let csum := fletcher16Checksum (read buff offset len)
  let buffer := write buffer (offset + format.csumPos) (bytesOf 2 csum)
  let buffer := write buffer (offset + format.payloadSizePos) (bytesOf format.sizeSize len)
  write buffer format.payloadPos (read buff 0 len)

/-- `get_payload_size`. -/
def getPayloadSize (buffer : ℕ → UInt8) : ℕ :=
  numberOf (read buffer format.payloadSizePos format.sizeSize)

/-- `compare_checksum`. -/
def compareChecksum (buffer : ℕ → UInt8) : Bool :=
  let csumTransmitted := numberOf (read buffer format.csumPos 2)
  let csumActual :=
    fletcher16Checksum (read buffer format.payloadPos (format.getPayloadSize buffer))
  csumTransmitted == csumActual

section Message

variable {format} {len : ℕ} {message : ℕ → UInt8}

/-- The checksum of a payload, in a message that holds it and its size. -/
def Transmits (format : MessageFormat) (message : ℕ → UInt8) (len : ℕ) (payload : List UInt8) :
    Prop :=
  Holds message format.csumPos (bytesOf 2 (fletcher16Checksum payload)) ∧
    Holds message format.payloadSizePos (bytesOf format.sizeSize len)

theorem compareChecksum_eq (hlen : len < 256 ^ format.sizeSize) {payload : List UInt8}
    (hmessage : format.Transmits message len payload) :
    format.compareChecksum message =
      (fletcher16Checksum payload == fletcher16Checksum (read message format.payloadPos len)) := by
  obtain ⟨hcsum, hsize⟩ := hmessage
  have hchecksum : fletcher16Checksum payload < 256 ^ 2 := by
    rw [fletcher16Checksum_eq]
    unfold residue
    omega
  unfold compareChecksum getPayloadSize
  dsimp only
  rw [hsize.read_eq (length_bytesOf _ _).symm, hcsum.read_eq (length_bytesOf _ _).symm,
    numberOf_bytesOf, numberOf_bytesOf, Nat.mod_eq_of_lt hchecksum, Nat.mod_eq_of_lt hlen]

/-- **`set_payload`** at offset 0 leaves the payload, its size and its checksum. -/
theorem setPayload_spec (format : MessageFormat) (buffer : ℕ → UInt8) (len : ℕ)
    (buff : ℕ → UInt8) :
    format.Transmits (format.setPayload buffer len buff 0) len (read buff 0 len) ∧
      Holds (format.setPayload buffer len buff 0) format.payloadPos (read buff 0 len) := by
  unfold setPayload
  simp only [Nat.zero_add]
  refine ⟨⟨?_, ?_⟩, holds_write⟩
  · refine (holds_write.write_of_le ?_).write_of_le ?_
    · rw [length_bytesOf, payloadSizePos]
    · rw [length_bytesOf, payloadPos, payloadSizePos]
      exact Nat.le_add_right _ _
  · refine holds_write.write_of_le ?_
    rw [length_bytesOf, payloadPos]

/-- **Fletcher's checksum.**  For every data nothing that is assigned to the accumulators
exceeds 65535, and the result is made of the residues of the sum of the bytes and of their
weighted sum.  A message compares equal after its payload was set, and not equal once a byte of
the payload has changed modulo 255. -/
theorem fletcher_checksum (format : MessageFormat) (buffer buff : ℕ → UInt8)
    (hlen : len < 256 ^ format.sizeSize) :
    (∀ data, (∀ value ∈ assigned start data, value ≤ 65535) ∧
      fletcher16Checksum data = 256 * residue (weightedSum data) + residue (byteSum data)) ∧
    format.compareChecksum (format.setPayload buffer len buff 0) = true ∧
    ∀ i < len, ∀ byte : UInt8, byte.toNat % 255 ≠ (buff i).toNat % 255 →
      format.compareChecksum (Function.update (format.setPayload buffer len buff 0)
        (format.payloadPos + i) byte) = false := by
  obtain ⟨htransmits, hpayload⟩ := format.setPayload_spec buffer len buff
  have hread := hpayload.read_eq (length_read).symm
  refine ⟨fun data => ⟨(within_sums within_start data).2, fletcher16Checksum_eq data⟩, ?_, ?_⟩
  · rw [compareChecksum_eq hlen htransmits, hread, beq_self_eq_true]
  · intro i hi byte hbyte
    have hbelow : ∀ j < format.payloadPos, Function.update (format.setPayload buffer len buff 0)
        (format.payloadPos + i) byte j = format.setPayload buffer len buff 0 j :=
      fun j hj => Function.update_of_ne (by omega) _ _
    have htransmits' : format.Transmits (Function.update (format.setPayload buffer len buff 0)
        (format.payloadPos + i) byte) len (read buff 0 len) := by
      refine ⟨htransmits.1.congr fun j _ hj => hbelow j ?_,
        htransmits.2.congr fun j _ hj => hbelow j ?_⟩
      · rw [length_bytesOf] at hj
        unfold payloadPos payloadSizePos
        omega
      · rw [length_bytesOf] at hj
        exact hj
    have hset : read (Function.update (format.setPayload buffer len buff 0)
        (format.payloadPos + i) byte) format.payloadPos len = (read buff 0 len).set i byte := by
      rw [← hread]
      refine List.ext_getElem (by simp) fun j hj hj' => ?_
      rw [length_read] at hj
      rw [List.getElem_set]
      simp only [ByteBuffer.read, List.getElem_map, List.getElem_range]
      split
      · rename_i heq
        rw [heq, Function.update_self]
      · exact Function.update_of_ne (by omega) _ _
    have hlt : i < (read buff 0 len).length := by rwa [length_read]
    have hget : (read buff 0 len).get ⟨i, hlt⟩ = buff i := by simp [ByteBuffer.read]
    rw [compareChecksum_eq hlen htransmits', hset, beq_eq_false_iff_ne]
    exact (fletcher16Checksum_set_ne hlt (by rwa [hget])).symm

/-- A payload of two bytes in a message with one byte for its id and one for the size. -/
theorem fletcher_checksum_two :
    (∀ data, (∀ value ∈ assigned start data, value ≤ 65535) ∧
      fletcher16Checksum data = 256 * residue (weightedSum data) + residue (byteSum data)) ∧
    (⟨1, 1⟩ : MessageFormat).compareChecksum
      ((⟨1, 1⟩ : MessageFormat).setPayload (fun _ => 0) 2 (fun i => UInt8.ofNat i) 0) = true ∧
    ∀ i < 2, ∀ byte : UInt8, byte.toNat % 255 ≠ (UInt8.ofNat i).toNat % 255 →
      (⟨1, 1⟩ : MessageFormat).compareChecksum (Function.update
        ((⟨1, 1⟩ : MessageFormat).setPayload (fun _ => 0) 2 (fun i => UInt8.ofNat i) 0)
        ((⟨1, 1⟩ : MessageFormat).payloadPos + i) byte) = false :=
  fletcher_checksum ⟨1, 1⟩ (fun _ => 0) (fun i => UInt8.ofNat i) (show 2 < 256 ^ 1 by decide)

end Message

end MessageFormat

end Wiselib.Codecs
