import Wiselib.Library.OnesComplement
import Wiselib.SixLowpan.ExtensionHeaders

/-!
# The checksum of the upper layer

`IPv6Packet::generate_checksum` sums the pseudo header and the transport part of
a packet with `checksum_serialize`, brings the carries around once and
complements the sum.  What it should compute is the complement of the one's
complement sum of the pseudo header of the *upper layer*, with the length of
the upper-layer packet and the number of its protocol, and of the upper-layer
packet.

## Strategy

* `checksumSerialize_eq` turns the 32-bit loop into the sum of the words.
* `accumulated_add` compares what is accumulated with `upperSum`: the
  pseudo header is built from the IPv6 header, so with extension headers their
  length and the first next header value are counted in.
* `once_eq_fold_iff` says when bringing the carries around once gives the one's
  complement sum of a number close by; `checksum_value_iff` is the case at hand.
-/

namespace Wiselib.SixLowpan

open OnesComplement

namespace IPv6Packet

/-! ## The code -/

/-- The loop of `checksum_serialize` and the byte that is left behind it. -/
def serializePairs (data : ℕ → BitVec 8) (len place : ℕ) (sum : BitVec 32) : BitVec 32 :=
  if 1 < len then
    serializePairs data (len - 2) (place + 2)
      (sum + (data place).setWidth 32 <<< 8 + (data (place + 1)).setWidth 32)
  else if 0 < len then sum + (data place).setWidth 32 <<< 8
  else sum
termination_by len

/-- `checksum_serialize`, with the bytes at `data` from `place` on. -/
def checksumSerialize (len : ℕ) (data : ℕ → BitVec 8) (place : ℕ) (sum : BitVec 32)
    (startOdd : Bool) : BitVec 32 :=
  if startOdd = true ∧ 0 < len then
    serializePairs data (len - 1) (place + 1) (sum + (data place).setWidth 32)
  else serializePairs data len place sum

/-- The four bytes of `tmp` with `upper` and `lower` at its end. -/
def tmpBytes (upper lower : BitVec 8) : ℕ → BitVec 8 :=
  fun i => if i = 2 then upper else if i = 3 then lower else 0

/-- The accumulator of `generate_checksum` when everything is summed. -/
def accumulator (packet : IPv6Packet) : BitVec 32 :=
  let sum := checksumSerialize 16 packet.buffer sourceAddressByte 0 false
  let sum := checksumSerialize 16 packet.buffer destinationAddressByte sum false
  let tmp := tmpBytes (packet.buffer lengthByte) (packet.buffer (lengthByte + 1))
  let sum := checksumSerialize 4 tmp 0 sum false
  let tmp := tmpBytes 0 (packet.buffer nextHeaderByte)
  let sum := checksumSerialize 4 tmp 0 sum false
  checksumSerialize packet.transportLength.toNat packet.buffer packet.transportPos.toNat sum false

/-- `generate_checksum`. -/
def generateChecksum (packet : IPv6Packet) : BitVec 16 :=
  let sum := packet.accumulator
  let sum := (sum &&& 0xFFFF#32) + sum >>> 16
  (sum ^^^ 0xFFFF#32).setWidth 16

/-! ## What it should compute -/

/-- The packet carries a packet of `protocol` from `start` on, behind its
extension headers and inside the buffer. -/
structure Carries (packet : IPv6Packet) (protocol : BitVec 8) (start : ℕ) : Prop where
  chain : Chain packet.buffer packet.realNextHeader payloadPos protocol start
  position : packet.transportPos.toNat = start
  behind : start ≤ payloadPos + packet.realLength.toNat
  inside : payloadPos + packet.realLength.toNat ≤ lowpanIpPacketBufferMaxSize

/-- The length of the upper-layer packet. -/
def upperLength (packet : IPv6Packet) (start : ℕ) : ℕ :=
  payloadPos + packet.realLength.toNat - start

/-- The pseudo header of the upper layer. -/
def pseudoHeader (packet : IPv6Packet) (protocol : BitVec 8) (start : ℕ) : List (BitVec 8) :=
  ByteBuffer.read packet.buffer sourceAddressByte 16 ++
    ByteBuffer.read packet.buffer destinationAddressByte 16 ++
    [0, 0, BitVec.ofNat 8 (packet.upperLength start / 256),
      BitVec.ofNat 8 (packet.upperLength start), 0, 0, 0, protocol]

/-- The words of the pseudo header and of the upper-layer packet, summed. -/
def upperSum (packet : IPv6Packet) (protocol : BitVec 8) (start : ℕ) : ℕ :=
  wordSum (packet.pseudoHeader protocol start ++
    ByteBuffer.read packet.buffer start (packet.upperLength start))

/-- The words `generate_checksum` sums. -/
def accumulated (packet : IPv6Packet) : ℕ :=
  wordSum (ByteBuffer.read packet.buffer sourceAddressByte 16) +
    wordSum (ByteBuffer.read packet.buffer destinationAddressByte 16) +
    packet.realLength.toNat + (packet.buffer nextHeaderByte).toNat +
    wordSum (ByteBuffer.read packet.buffer packet.transportPos.toNat packet.transportLength.toNat)

/-- The checksum is the complement of the one's complement sum, and the
accumulator has not overflowed. -/
structure ChecksumRight (packet : IPv6Packet) (protocol : BitVec 8) (start : ℕ) : Prop where
  value : packet.generateChecksum.toNat = 0xFFFF - fold 65536 (packet.upperSum protocol start)
  noOverflow : packet.accumulator.toNat = packet.accumulated

/-! ## Summing -/

theorem serializePairs_eq (data : ℕ → BitVec 8) (len place : ℕ) (sum : BitVec 32) :
    serializePairs data len place sum =
      sum + BitVec.ofNat 32 (wordSum (ByteBuffer.read data place len)) := by
  have hbyte : ∀ b : BitVec 8, b.setWidth 32 = BitVec.ofNat 32 b.toNat := fun b => by
    apply BitVec.eq_of_toNat_eq
    rw [BitVec.toNat_setWidth, BitVec.toNat_ofNat]
  have hupper : ∀ b : BitVec 8, b.setWidth 32 <<< 8 = BitVec.ofNat 32 (256 * b.toNat) := fun b => by
    apply BitVec.eq_of_toNat_eq
    rw [BitVec.toNat_shiftLeft, BitVec.toNat_setWidth, BitVec.toNat_ofNat, Nat.shiftLeft_eq]
    have hlt := b.isLt
    omega
  induction len using Nat.strong_induction_on generalizing place sum with
  | h len ih =>
    rw [serializePairs]
    match len, ih with
    | 0, _ => simp [wordSum]
    | 1, _ => simp [ByteBuffer.read_succ, wordSum, hupper]
    | len + 2, ih =>
      rw [if_pos (by omega), ih _ (by omega), ByteBuffer.read_succ, ByteBuffer.read_succ, wordSum,
        hupper, hbyte, Nat.add_sub_cancel]
      simp only [BitVec.ofNat_add, BitVec.add_assoc]

theorem checksumSerialize_eq (len : ℕ) (data : ℕ → BitVec 8) (place : ℕ) (sum : BitVec 32) :
    checksumSerialize len data place sum false =
      sum + BitVec.ofNat 32 (wordSum (ByteBuffer.read data place len)) := by
  rw [checksumSerialize, if_neg (by simp), serializePairs_eq]

theorem wordSum_tmpBytes (upper lower : BitVec 8) :
    wordSum (ByteBuffer.read (tmpBytes upper lower) 0 4) = 256 * upper.toNat + lower.toNat := by
  simp [ByteBuffer.read_succ, tmpBytes, wordSum]

theorem accumulator_eq (packet : IPv6Packet) :
    packet.accumulator = BitVec.ofNat 32 packet.accumulated := by
  simp only [accumulator, checksumSerialize_eq, wordSum_tmpBytes, accumulated, toNat_realLength,
    BitVec.ofNat_add]
  simp

theorem accumulated_lt (packet : IPv6Packet) : packet.accumulated < 65536 * 65000 := by
  have hsource := wordSum_le (ByteBuffer.read packet.buffer sourceAddressByte 16)
  have hdestination := wordSum_le (ByteBuffer.read packet.buffer destinationAddressByte 16)
  have hlen := packet.transportLength.isLt
  have hdata := wordSum_le
    (ByteBuffer.read packet.buffer packet.transportPos.toNat packet.transportLength.toNat)
  have hlength := packet.realLength.isLt
  have hnext := (packet.buffer nextHeaderByte).isLt
  simp only [ByteBuffer.length_read] at hsource hdestination hdata
  simp only [accumulated]
  omega

theorem toNat_accumulator (packet : IPv6Packet) :
    packet.accumulator.toNat = packet.accumulated := by
  have hlt := packet.accumulated_lt
  rw [accumulator_eq, BitVec.toNat_ofNat, Nat.mod_eq_of_lt (by omega)]

/-! ## The sum of the code against the sum of the upper layer -/

variable {packet : IPv6Packet} {protocol : BitVec 8} {start : ℕ}

theorem Chain.start_le {buffer : ℕ → BitVec 8} {nextHeader : BitVec 8} {first finish : ℕ}
    (hchain : Chain buffer nextHeader first protocol finish) : first ≤ finish := by
  induction hchain with
  | transport _ _ => exact le_rfl
  | extension _ _ ih => exact (Nat.le_add_right _ _).trans ih

theorem Carries.toNat_transportLength (hcarries : Carries packet protocol start) :
    packet.transportLength.toNat = packet.upperLength start := by
  have hposition := hcarries.position
  have hbehind := hcarries.behind
  have hstart := hcarries.chain.start_le
  have hlength := packet.realLength.isLt
  have hwidth : (packet.transportPos.setWidth 16).toNat = start := by
    have hlt := packet.transportPos.isLt
    rw [BitVec.toNat_setWidth, hposition, Nat.mod_eq_of_lt (by omega)]
  simp only [payloadPos] at hbehind hstart
  simp only [transportLength, upperLength, BitVec.toNat_sub, hwidth, BitVec.toNat_ofNat, payloadPos]
  omega

theorem upperSum_eq (packet : IPv6Packet) (protocol : BitVec 8) (start : ℕ)
    (hlength : packet.upperLength start < 65536) :
    packet.upperSum protocol start =
      wordSum (ByteBuffer.read packet.buffer sourceAddressByte 16) +
        wordSum (ByteBuffer.read packet.buffer destinationAddressByte 16) +
        packet.upperLength start + protocol.toNat +
        wordSum (ByteBuffer.read packet.buffer start (packet.upperLength start)) := by
  have hupper : (BitVec.ofNat 8 (packet.upperLength start / 256)).toNat =
      packet.upperLength start / 256 := by
    rw [BitVec.toNat_ofNat]
    omega
  have hlower : (BitVec.ofNat 8 (packet.upperLength start)).toNat =
      packet.upperLength start % 256 := by
    rw [BitVec.toNat_ofNat]
  have htail : wordSum [0, 0, BitVec.ofNat 8 (packet.upperLength start / 256),
      BitVec.ofNat 8 (packet.upperLength start), 0, 0, 0, protocol] =
        packet.upperLength start + protocol.toNat := by
    have hzero : (0 : BitVec 8).toNat = 0 := rfl
    simp only [wordSum, hupper, hlower, hzero]
    omega
  rw [upperSum, pseudoHeader, wordSum_append_of_even (by simp), wordSum_append_of_even (by simp),
    wordSum_append_of_even (by simp), htail]
  ring

theorem Carries.accumulated_add (hcarries : Carries packet protocol start) :
    packet.accumulated + protocol.toNat =
      packet.upperSum protocol start + (start - payloadPos) +
        (packet.buffer nextHeaderByte).toNat := by
  have hbehind := hcarries.behind
  have hstart := hcarries.chain.start_le
  have hlength := packet.realLength.isLt
  have hupper : packet.upperLength start = payloadPos + packet.realLength.toNat - start := rfl
  rw [accumulated, hcarries.toNat_transportLength, hcarries.position,
    upperSum_eq packet protocol start (by rw [hupper]; omega)]
  omega

/-! ## Bringing the carries around once -/

theorem toNat_generateChecksum (packet : IPv6Packet) :
    packet.generateChecksum.toNat =
      0xFFFF - (packet.accumulated % 65536 + packet.accumulated / 65536) % 65536 := by
  have hlt := packet.accumulated_lt
  have hsum := packet.toNat_accumulator
  have hlow : (packet.accumulator &&& 0xFFFF#32).toNat = packet.accumulated % 65536 := by
    rw [BitVec.toNat_and, hsum]
    exact Nat.and_two_pow_sub_one_eq_mod packet.accumulated 16
  have hhigh : (packet.accumulator >>> 16).toNat = packet.accumulated / 65536 := by
    rw [BitVec.toNat_ushiftRight, hsum, Nat.shiftRight_eq_div_pow]
  have hnot : ∀ x : BitVec 32, (x ^^^ 0xFFFF#32).setWidth 16 = ~~~(x.setWidth 16) := fun x => by
    apply BitVec.eq_of_getLsbD_eq
    intro i hi
    have hones : (0xFFFF#32).getLsbD i = true := by
      interval_cases i <;> rfl
    simp only [BitVec.getLsbD_setWidth, BitVec.getLsbD_xor, BitVec.getLsbD_not, hones, hi,
      decide_true, Bool.true_and, Bool.xor_true]
  change BitVec.toNat (BitVec.setWidth 16
    ((packet.accumulator &&& 0xFFFF#32) + packet.accumulator >>> 16 ^^^ 0xFFFF#32)) = _
  rw [hnot, BitVec.toNat_not, BitVec.toNat_setWidth, BitVec.toNat_add, hlow, hhigh]
  omega

/-- Bringing the carries of `sum` around once gives the one's complement sum of
`other`, a number close by: they are equal and nothing is carried a second time,
or `sum` is the next number and the second carry makes up for it. -/
theorem once_eq_fold_iff {sum other : ℕ} (hpos : 0 < other) (hsmall : sum < 65536 * 65000)
    (hnear : sum ≤ other + 500) (hfar : other ≤ sum + 500) :
    (sum % 65536 + sum / 65536) % 65536 = fold 65536 other ↔
      sum = other ∧ sum % 65536 + sum / 65536 < 65536 ∨
        sum = other + 1 ∧ 65536 < sum % 65536 + sum / 65536 := by
  obtain ⟨q, hq⟩ : ∃ q, sum / 65536 = q := ⟨_, rfl⟩
  obtain ⟨r, hr⟩ : ∃ r, sum % 65536 = r := ⟨_, rfl⟩
  obtain ⟨k, hk⟩ : ∃ k, (other - 1) / 65535 = k := ⟨_, rfl⟩
  obtain ⟨f, hf⟩ : ∃ f, (other - 1) % 65535 = f := ⟨_, rfl⟩
  have hsum : sum = 65536 * q + r := by omega
  have hother : other = 65535 * k + f + 1 := by omega
  have hrlt : r < 65536 := by omega
  have hflt : f < 65535 := by omega
  have hqlt : q < 65000 := by omega
  rw [fold_eq (by decide) hpos, hq, hr, hf]
  clear hq hr hk hf
  rcases Nat.lt_or_ge (r + q) 65536 with hcarry | hcarry
  · rw [Nat.mod_eq_of_lt hcarry]
    omega
  · have hlow : (r + q) % 65536 = r + q - 65536 := by omega
    rw [hlow]
    omega

theorem Carries.value_iff (hcarries : Carries packet protocol start) :
    packet.generateChecksum.toNat = 0xFFFF - fold 65536 (packet.upperSum protocol start) ↔
      let sum := packet.upperSum protocol start
      let nextHeader := (packet.buffer nextHeaderByte).toNat
      start - payloadPos + nextHeader = protocol.toNat ∧ sum % 65536 + sum / 65536 < 65536 ∨
        start - payloadPos + nextHeader = protocol.toNat + 1 ∧
          65536 < (sum + 1) % 65536 + (sum + 1) / 65536 := by
  have hadd := hcarries.accumulated_add
  have hnext := (packet.buffer nextHeaderByte).isLt
  have hpos := packet.transportPos.isLt
  rw [hcarries.position] at hpos
  have hprotocol : protocol.toNat = 17 ∨ protocol.toNat = 58 := by
    rcases hcarries.chain.protocol_cases with rfl | rfl
    · exact Or.inl rfl
    · exact Or.inr rfl
  have hupper : protocol.toNat ≤ packet.upperSum protocol start := by
    have hlength := packet.realLength.isLt
    rw [upperSum_eq packet protocol start (by
      have hstart := hcarries.chain.start_le
      rw [upperLength]
      omega)]
    omega
  have hfold : fold 65536 (packet.upperSum protocol start) ≤ 65535 := by
    rw [fold_eq (by decide) (by omega)]
    omega
  have hiff := @once_eq_fold_iff packet.accumulated (packet.upperSum protocol start) (by omega)
    packet.accumulated_lt (by omega) (by omega)
  rw [toNat_generateChecksum]
  dsimp only
  constructor
  · intro hvalue
    rcases hiff.1 (by omega) with ⟨heq, hcarry⟩ | ⟨heq, hcarry⟩
    · exact Or.inl ⟨by omega, by rwa [heq] at hcarry⟩
    · exact Or.inr ⟨by omega, by rwa [heq] at hcarry⟩
  · rintro (⟨heq, hcarry⟩ | ⟨heq, hcarry⟩)
    · have hsame : packet.accumulated = packet.upperSum protocol start := by omega
      rw [hiff.2 (Or.inl ⟨hsame, by rwa [hsame]⟩)]
    · have hsame : packet.accumulated = packet.upperSum protocol start + 1 := by omega
      rw [hiff.2 (Or.inr ⟨hsame, by rwa [hsame]⟩)]

/-! ## The checksum -/

/-- The checksum is right if and only if the IPv6 header names the protocol
itself and one round brings all carries around, or the extension headers put
exactly one into the sum and one more carry is left. -/
theorem generateChecksum_right_iff (packet : IPv6Packet) (protocol : BitVec 8) (start : ℕ)
    (hcarries : Carries packet protocol start) :
    ChecksumRight packet protocol start ↔
      let sum := packet.upperSum protocol start
      let nextHeader := (packet.buffer nextHeaderByte).toNat
      start - payloadPos + nextHeader = protocol.toNat ∧ sum % 65536 + sum / 65536 < 65536 ∨
        start - payloadPos + nextHeader = protocol.toNat + 1 ∧
          65536 < (sum + 1) % 65536 + (sum + 1) / 65536 := by
  rw [← hcarries.value_iff]
  exact ⟨fun hright => hright.value, fun hvalue => ⟨hvalue, packet.toNat_accumulator⟩⟩

/-- A UDP packet without payload, between addresses of ones but for one byte. -/
def emptyDatagram (addressByte : BitVec 8) : IPv6Packet where
  buffer := fun i =>
    if i = 5 then 8 else if i = 6 then UDP else if i = 23 then addressByte
    else if 8 ≤ i ∧ i < 40 then 0xFF else 0
  transportPos := 40
  transportNextHeader := 0
  valid := true

theorem upperLength_emptyDatagram (addressByte : BitVec 8) :
    (emptyDatagram addressByte).upperLength 40 = 8 := by
  rw [upperLength, toNat_realLength]
  rfl

theorem emptyDatagram_carries (addressByte : BitVec 8) :
    Carries (emptyDatagram addressByte) UDP 40 where
  chain := by
    rw [realNextHeader_eq]
    exact Chain.transport (Or.inl rfl) (by decide)
  position := rfl
  behind := Nat.le_add_right _ _
  inside := by
    rw [toNat_realLength]
    exact Nat.le_of_ble_eq_true rfl

theorem generateChecksum_right_iff_emptyDatagram :
    Carries (emptyDatagram 0) UDP 40 ∧
      (ChecksumRight (emptyDatagram 0) UDP 40 ↔
        let sum := (emptyDatagram 0).upperSum UDP 40
        let nextHeader := ((emptyDatagram 0).buffer nextHeaderByte).toNat
        40 - payloadPos + nextHeader = UDP.toNat ∧ sum % 65536 + sum / 65536 < 65536 ∨
          40 - payloadPos + nextHeader = UDP.toNat + 1 ∧
            65536 < (sum + 1) % 65536 + (sum + 1) / 65536) :=
  ⟨emptyDatagram_carries 0, generateChecksum_right_iff _ _ _ (emptyDatagram_carries 0)⟩

/-- With the words of this datagram a carry is left after one round. -/
theorem generateChecksum_loses_carry :
    ¬ ∀ (packet : IPv6Packet) (protocol : BitVec 8) (start : ℕ),
      Carries packet protocol start → ChecksumRight packet protocol start := by
  intro hall
  have hvalue := (hall _ _ _ (emptyDatagram_carries 0xEB)).value
  have hsum : (emptyDatagram 0xEB).upperSum UDP 40 = 1048565 := by
    simp only [upperSum, pseudoHeader, upperLength_emptyDatagram]
    decide
  rw [(emptyDatagram_carries 0xEB).value_iff] at hvalue
  simp only [hsum] at hvalue
  exact absurd hvalue (by decide)

end IPv6Packet

end Wiselib.SixLowpan
