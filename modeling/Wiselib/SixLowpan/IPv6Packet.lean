import Wiselib.Library.ByteBuffer
import Wiselib.SixLowpan.NeighborCache

/-!
# The IPv6 packet

`IPv6Packet` of `ipv6_packet.h` is a buffer of bytes whose first forty hold the
IPv6 header, together with the position of the transport header and the saved
number of the transport protocol.  The fields of the header are read and written
with `Bitwise_Serialization`; `payload` points to the transport header.

`buffer_` has `lowpanIpPacketBufferMaxSize` bytes.  The code computes addresses
into it without looking at its size, so the model gives a byte at every offset
from its start, and what belongs to the packet is said where it matters.

`bitwiseRead_byte`, `bitwiseRead_word` and their counterparts for writing say
what the serialization does at fields of whole bytes, which all fields used
here are.
-/

namespace Wiselib.SixLowpan

/-- Bytes in `buffer_`. -/
abbrev lowpanIpPacketBufferMaxSize : ℕ := 1500

/-! ## Bitwise serialization -/

section Bitwise

variable {n : ℕ}

/-- The loop of `Bitwise_Serialization::read` from one byte on. -/
def bitwiseReadFrom (target : ℕ → BitVec 8) (position : ℕ) (value : BitVec n) (targetShift : Fin 8)
    (valueLength : ℕ) : BitVec n :=
  let mask : BitVec 8 := 0xFF#8 >>> targetShift.val
  if valueLength ≤ 8 - targetShift then
    value <<< valueLength |||
      ((target position &&& mask) >>> (8 - valueLength - targetShift)).setWidth n
  else
    bitwiseReadFrom target (position + 1)
      (value <<< (8 - targetShift.val) ||| (target position &&& mask).setWidth n) 0
      (valueLength - (8 - targetShift))
termination_by valueLength
decreasing_by omega

/-- `Bitwise_Serialization::read`. -/
def bitwiseRead (n : ℕ) (target : ℕ → BitVec 8) (shift : Fin 8) (valueLength : ℕ) : BitVec n :=
  bitwiseReadFrom target 0 0 shift (if valueLength = 0 then n else valueLength)

/-- The loop of `Bitwise_Serialization::write` from one byte on. -/
def bitwiseWriteFrom (target : ℕ → BitVec 8) (position : ℕ) (value : BitVec n)
    (targetShift : Fin 8) (valueLength : ℕ) : ℕ → BitVec 8 :=
  if valueLength ≤ 8 - targetShift then
    let mask : BitVec 8 :=
      0xFF#8 <<< (8 - targetShift.val) ||| ~~~(0xFF#8 <<< (8 - targetShift - valueLength))
    Function.update target position
      (target position &&& mask ||| (value.setWidth 8) <<< (8 - valueLength - targetShift))
  else
    let remaining := valueLength - (8 - targetShift)
    let cleared := target position &&& ~~~(0xFF#8 >>> targetShift.val)
    bitwiseWriteFrom
      (Function.update target position (cleared ||| (value >>> remaining).setWidth 8))
      (position + 1) value 0 remaining
termination_by valueLength
decreasing_by omega

/-- `Bitwise_Serialization::write`. -/
def bitwiseWrite (target : ℕ → BitVec 8) (position : ℕ) (value : BitVec n) (shift : Fin 8)
    (valueLength : ℕ) : ℕ → BitVec 8 :=
  bitwiseWriteFrom target position value shift (if valueLength = 0 then n else valueLength)

theorem and_ones (b : BitVec 8) : b &&& 0xFF#8 = b := BitVec.and_allOnes

theorem bitwiseReadFrom_last (target : ℕ → BitVec 8) (position : ℕ) (value : BitVec n) :
    bitwiseReadFrom target position value 0 8 =
      value <<< 8 ||| (target position).setWidth n := by
  rw [bitwiseReadFrom]
  simp [and_ones]

theorem bitwiseRead_byte (target : ℕ → BitVec 8) : bitwiseRead 8 target 0 8 = target 0 := by
  rw [bitwiseRead, if_neg (by decide), bitwiseReadFrom_last]
  simp

theorem toNat_bitwiseRead_word (target : ℕ → BitVec 8) :
    (bitwiseRead 16 target 0 16).toNat = 256 * (target 0).toNat + (target 1).toNat := by
  have hhigh := (target 0).isLt
  have hlow := (target 1).isLt
  have hfirst : bitwiseRead 16 target 0 16 =
      ((target 0).setWidth 16) <<< 8 ||| (target 1).setWidth 16 := by
    rw [bitwiseRead, if_neg (by decide), bitwiseReadFrom, if_neg (by decide)]
    change bitwiseReadFrom target 1 _ 0 8 = _
    rw [bitwiseReadFrom_last]
    simp [and_ones]
  have hshift : (((target 0).setWidth 16) <<< 8).toNat = 2 ^ 8 * (target 0).toNat := by
    rw [BitVec.toNat_shiftLeft, BitVec.toNat_setWidth, Nat.shiftLeft_eq]
    omega
  have hword : ((target 1).setWidth 16).toNat = (target 1).toNat := by
    rw [BitVec.toNat_setWidth]
    omega
  rw [hfirst, BitVec.toNat_or, hshift, hword, ← Nat.two_pow_add_eq_or_of_lt hlow]

theorem bitwiseWriteFrom_last (target : ℕ → BitVec 8) (position : ℕ) (value : BitVec n) :
    bitwiseWriteFrom target position value 0 8 =
      Function.update target position (value.setWidth 8) := by
  rw [bitwiseWriteFrom, if_pos (by decide)]
  simp

theorem bitwiseWrite_byte (target : ℕ → BitVec 8) (position : ℕ) (value : BitVec 8) :
    bitwiseWrite target position value 0 8 = Function.update target position value := by
  rw [bitwiseWrite, if_neg (by decide), bitwiseWriteFrom_last, BitVec.setWidth_eq]

end Bitwise

/-! ## The packet -/

/-- `IPv6Packet`: the bytes from `buffer_` on, the offset of the transport header
and the saved next header value of the transport layer. -/
structure IPv6Packet where
  buffer : ℕ → BitVec 8
  transportPos : BitVec 8
  transportNextHeader : BitVec 8
  valid : Bool

namespace IPv6Packet

/-! The positions and lengths of the fields. -/

abbrev lengthByte : ℕ := 4
abbrev nextHeaderByte : ℕ := 6
abbrev hopLimitByte : ℕ := 7
abbrev sourceAddressByte : ℕ := 8
abbrev destinationAddressByte : ℕ := 24
abbrev payloadPos : ℕ := 40

/-! The enumeration `NextHeaders`. -/

abbrev UDP : BitVec 8 := 17
abbrev ICMPV6 : BitVec 8 := 58
abbrev EH_HOHO : BitVec 8 := 0
abbrev REAL_NH_NOT_SET : BitVec 8 := 255

/-- `IPv6Packet()` in place of the packet `old`: only its own bytes are cleared. -/
def new (old : IPv6Packet) : IPv6Packet where
  buffer :=
    let cleared : ℕ → BitVec 8 :=
      fun i => if i < lowpanIpPacketBufferMaxSize then 0 else old.buffer i
    bitwiseWrite (bitwiseWrite cleared 0 (6 : BitVec 8) 0 4) nextHeaderByte REAL_NH_NOT_SET 0 8
  transportPos := 40
  transportNextHeader := 0
  valid := false

/-- `set_real_length`. -/
def setRealLength (packet : IPv6Packet) (length : BitVec 16) : IPv6Packet :=
  { packet with buffer := bitwiseWrite packet.buffer lengthByte length 0 16 }

/-- `set_transport_length`: the size of the extension headers is added. -/
def setTransportLength (packet : IPv6Packet) (length : BitVec 16) : IPv6Packet :=
  packet.setRealLength (length + (packet.transportPos.setWidth 16 - BitVec.ofNat 16 payloadPos))

/-- `set_transport_next_header`: the value is only stored. -/
def setTransportNextHeader (packet : IPv6Packet) (nextHeader : BitVec 8) : IPv6Packet :=
  { packet with transportNextHeader := nextHeader }

/-- `set_real_next_header`. -/
def setRealNextHeader (packet : IPv6Packet) (nextHeader : BitVec 8) : IPv6Packet :=
  { packet with buffer := bitwiseWrite packet.buffer nextHeaderByte nextHeader 0 8 }

/-- `set_hop_limit`. -/
def setHopLimit (packet : IPv6Packet) (hopLimit : BitVec 8) : IPv6Packet :=
  { packet with buffer := bitwiseWrite packet.buffer hopLimitByte hopLimit 0 8 }

/-- `set_destination_address`. -/
def setDestinationAddress (packet : IPv6Packet) (destination : IPv6Address) : IPv6Packet :=
  { packet with
    buffer := ByteBuffer.write packet.buffer destinationAddressByte
      (List.ofFn fun k => BitVec.ofNat 8 (destination.addr k)) }

/-- `real_length`. -/
def realLength (packet : IPv6Packet) : BitVec 16 :=
  bitwiseRead 16 (fun i => packet.buffer (lengthByte + i)) 0 16

/-- `transport_length`. -/
def transportLength (packet : IPv6Packet) : BitVec 16 :=
  packet.realLength - (packet.transportPos.setWidth 16 - BitVec.ofNat 16 payloadPos)

/-- `real_next_header`. -/
def realNextHeader (packet : IPv6Packet) : BitVec 8 :=
  bitwiseRead 8 (fun i => packet.buffer (nextHeaderByte + i)) 0 8

theorem toNat_realLength (packet : IPv6Packet) :
    packet.realLength.toNat = 256 * (packet.buffer 4).toNat + (packet.buffer 5).toNat :=
  toNat_bitwiseRead_word _

@[simp] theorem realNextHeader_eq (packet : IPv6Packet) :
    packet.realNextHeader = packet.buffer 6 := bitwiseRead_byte _

end IPv6Packet

end Wiselib.SixLowpan
