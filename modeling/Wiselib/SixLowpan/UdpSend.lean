import Wiselib.SixLowpan.IPv6Packet

/-!
# Sending a UDP datagram

`UDP::send` takes a packet from the packet pool, fills in the header fields the
UDP layer knows and copies the UDP header and the payload behind the IPv6 header
with `IPv6Packet::set_payload`.  The IP layer, which gets the packet afterwards,
is a parameter.

Pointers passed to `set_payload` are functions from offsets to bytes; a `Copy`
notes which offsets of the source were read and which of `buffer_` were written.

## Strategy

`setPayload_bytes` says what copying single bytes does, `setPayload_word` what
storing one number of two bytes does.  The variable `len` holds the length of the
datagram when the payload is copied, so `frame_payload_reads` counts eight bytes
too many.
-/

namespace Wiselib.SixLowpan

/-- `OsModel::endianness`. -/
inductive Endianness
  | little
  | big
deriving DecidableEq

namespace IPv6Packet

/-- A packet after copying into it, with the offsets read from the source and
written in `buffer_`. -/
structure Copy where
  packet : IPv6Packet
  reads : List ℕ
  writes : List ℕ

/-- Two copies one after the other, the second from the packet of the first. -/
def Copy.andThen (first : Copy) (second : IPv6Packet → Copy) : Copy where
  packet := (second first.packet).packet
  reads := first.reads ++ (second first.packet).reads
  writes := first.writes ++ (second first.packet).writes

/-- One byte of `set_payload`. -/
def copyByte (data : ℕ → BitVec 8) (target source : ℕ) (packet : IPv6Packet) : Copy where
  packet := { packet with buffer := Function.update packet.buffer target (data source) }
  reads := [source]
  writes := [target]

/-- The inner loop of `set_payload`, over the bytes `i` of one element of `size`
bytes. -/
def copyElement (endianness : Endianness) (size : ℕ) (data : ℕ → BitVec 8) (shift source : ℕ)
    (packet : IPv6Packet) : ℕ → Copy
  | 0 => { packet := packet, reads := [], writes := [] }
  | i + 1 =>
      let target :=
        match endianness with
        | .little => packet.transportPos.toNat + shift + size - 1 - i
        | .big => packet.transportPos.toNat + shift + i
      (copyElement endianness size data shift source packet i).andThen
        (copyByte data target (source + i))

/-- `set_payload` for elements of `size` bytes.  The counter of the loop has
sixteen bits, so this is the loop for every `len` below 65535. -/
def setPayload (endianness : Endianness) (size : ℕ) (data : ℕ → BitVec 8) :
    (shift len source : ℕ) → IPv6Packet → Copy
  | _, 0, _, packet => { packet := packet, reads := [], writes := [] }
  | shift, len + 1, source, packet =>
      (copyElement endianness size data shift source packet size).andThen
        (setPayload endianness size data (shift + size) len (source + size))

/-- The bytes of a `uint16_t` in memory. -/
def wordBytes (endianness : Endianness) (value : BitVec 16) : ℕ → BitVec 8 := fun i =>
  match endianness with
  | .little => if i = 0 then value.setWidth 8 else (value >>> 8).setWidth 8
  | .big => if i = 0 then (value >>> 8).setWidth 8 else value.setWidth 8

end IPv6Packet

open IPv6Packet

/-- The return codes of `UDP::send`. -/
inductive ReturnCode
  | success
  | errUnspec
  | errNotimpl
  | errHostunreach
  | routingCalled
deriving DecidableEq

/-- `UDPSocket`; its callback is not used here. -/
structure UdpSocket where
  localPort : BitVec 16
  remotePort : BitVec 16
  remoteHost : IPv6Address

/-- `get_unused_packet_with_number`: the first packet that is not valid is made
new and valid. -/
def getUnusedPacketWithNumber (pool : List IPv6Packet) : Option (ℕ × List IPv6Packet) :=
  match pool.findIdx? (fun packet => !packet.valid) with
  | none => none
  | some i => some (i, pool.modify i fun packet => { IPv6Packet.new packet with valid := true })

/-- What `send` stores in the packet: the packet with the accesses of each of the
calls of `set_payload`, in their order. -/
structure Framing where
  localPort : Copy
  remotePort : Copy
  length : Copy
  payload : Copy

/-- The part of `send` between the packet pool and the IP layer, with the new
packet `message`. -/
def frame (endianness : Endianness) (socket : UdpSocket) (len : BitVec 16) (data : ℕ → BitVec 8)
    (message : IPv6Packet) : Framing :=
  let message := (message.setTransportNextHeader UDP).setHopLimit 255
  -- The length includes the UDP header from here on.
  let len := len + 8
  let message := (message.setTransportLength len).setDestinationAddress socket.remoteHost
  let localPort := setPayload endianness 2 (wordBytes endianness socket.localPort) 0 1 0 message
  let remotePort :=
    setPayload endianness 2 (wordBytes endianness socket.remotePort) 2 1 0 localPort.packet
  let length := setPayload endianness 2 (wordBytes endianness len) 4 1 0 remotePort.packet
  let payload := setPayload endianness 1 data 8 len.toNat 0 length.packet
  { localPort, remotePort, length, payload }

/-- What `UDP::send` returns, with the pool it leaves and what it has stored in a
packet, if it came so far. -/
structure SendOutcome where
  code : ReturnCode
  pool : List IPv6Packet
  framing : Option Framing

/-- `UDP::send`.  `ipSend` is the IP layer, which gets the number of the packet,
and `nullNodeId` its address of no host. -/
def udpSend (endianness : Endianness) (nullNodeId : IPv6Address)
    (ipSend : IPv6Address → ℕ → List IPv6Packet → ReturnCode × List IPv6Packet)
    (pool : List IPv6Packet) (socket : UdpSocket) (len : BitVec 16) (data : ℕ → BitVec 8) :
    SendOutcome :=
  if lowpanIpPacketBufferMaxSize ≤ len.toNat then
    { code := .errNotimpl, pool := pool, framing := none }
  else if socket.remoteHost = nullNodeId then
    { code := .errUnspec, pool := pool, framing := none }
  else
    match getUnusedPacketWithNumber pool with
    | none => { code := .errUnspec, pool := pool, framing := none }
    | some (packetNumber, taken) =>
        match taken[packetNumber]? with
        | none => { code := .errUnspec, pool := taken, framing := none }
        | some message =>
            let framing := frame endianness socket len data message
            let (code, sent) := ipSend socket.remoteHost packetNumber
              (taken.set packetNumber framing.payload.packet)
            { code := code
              pool :=
                if code = .routingCalled then sent
                else sent.modify packetNumber fun packet => { packet with valid := false }
              framing := some framing }

/-! ## Copying -/

theorem write_singleton (buffer : ℕ → BitVec 8) (start : ℕ) (cell : BitVec 8) :
    ByteBuffer.write buffer start [cell] = Function.update buffer start cell := by
  funext i
  rcases Nat.lt_trichotomy i start with hlt | rfl | hgt
  · rw [ByteBuffer.write_below hlt, Function.update_of_ne (by omega)]
  · simp [ByteBuffer.write]
  · rw [ByteBuffer.write_above (by simpa using hgt), Function.update_of_ne (by omega)]

namespace IPv6Packet

/-- The packet with `cells` stored from `shift` bytes behind the start of the
transport header on. -/
def stored (packet : IPv6Packet) (shift : ℕ) (cells : List (BitVec 8)) : IPv6Packet :=
  { packet with
    buffer := ByteBuffer.write packet.buffer (packet.transportPos.toNat + shift) cells }

@[simp] theorem stored_transportPos (packet : IPv6Packet) (shift : ℕ) (cells : List (BitVec 8)) :
    (packet.stored shift cells).transportPos = packet.transportPos := rfl

theorem copyElement_byte (endianness : Endianness) (data : ℕ → BitVec 8) (shift source : ℕ)
    (packet : IPv6Packet) :
    copyElement endianness 1 data shift source packet 1 =
      { packet := packet.stored shift [data source]
        reads := [source]
        writes := [packet.transportPos.toNat + shift] } := by
  cases endianness <;> simp [copyElement, Copy.andThen, copyByte, stored, write_singleton]

theorem setPayload_bytes (endianness : Endianness) (data : ℕ → BitVec 8) (shift len source : ℕ)
    (packet : IPv6Packet) :
    setPayload endianness 1 data shift len source packet =
      { packet := packet.stored shift (ByteBuffer.read data source len)
        reads := List.range' source len
        writes := List.range' (packet.transportPos.toNat + shift) len } := by
  induction len generalizing shift source packet with
  | zero =>
    have hnothing : ByteBuffer.write packet.buffer (packet.transportPos.toNat + shift) [] =
        packet.buffer := by
      funext i
      simp [ByteBuffer.write]
    simp [setPayload, stored, hnothing]
  | succ len ih =>
    have hcells : (packet.stored shift [data source]).stored (shift + 1)
        (ByteBuffer.read data (source + 1) len) =
          packet.stored shift (ByteBuffer.read data source (len + 1)) := by
      unfold stored
      rw [ByteBuffer.read_succ, ByteBuffer.write_cons _ _ (data source)
        (ByteBuffer.read data (source + 1) len), Nat.add_assoc]
    rw [setPayload, copyElement_byte]
    simp only [Copy.andThen, ih, hcells, stored_transportPos, List.range'_succ, List.singleton_append,
      Nat.add_assoc]

/-- A number of two bytes is stored with the upper byte first, whatever the order
in memory is. -/
theorem setPayload_word (endianness : Endianness) (value : BitVec 16) (shift : ℕ)
    (packet : IPv6Packet) :
    (setPayload endianness 2 (wordBytes endianness value) shift 1 0 packet).packet =
        packet.stored shift [(value >>> 8).setWidth 8, value.setWidth 8] ∧
      ∀ offset ∈ (setPayload endianness 2 (wordBytes endianness value) shift 1 0 packet).writes,
        offset < packet.transportPos.toNat + shift + 2 := by
  have hcells : ByteBuffer.write packet.buffer (packet.transportPos.toNat + shift)
      [(value >>> 8).setWidth 8, value.setWidth 8] =
        Function.update
          (Function.update packet.buffer (packet.transportPos.toNat + shift)
            ((value >>> 8).setWidth 8))
          (packet.transportPos.toNat + shift + 1) (value.setWidth 8) := by
    rw [ByteBuffer.write_cons, write_singleton, write_singleton]
  cases endianness with
  | little =>
    constructor
    · simp only [stored, hcells]
      rw [Function.update_comm (by omega)]
      simp [setPayload, copyElement, Copy.andThen, copyByte, wordBytes]
    · intro offset hmem
      simp only [setPayload, copyElement, Copy.andThen, copyByte] at hmem
      simp at hmem
      omega
  | big =>
    constructor
    · simp only [stored, hcells]
      simp [setPayload, copyElement, Copy.andThen, copyByte, wordBytes]
    · intro offset hmem
      simp [setPayload, copyElement, Copy.andThen, copyByte] at hmem
      omega

end IPv6Packet

/-! ## What is sent -/

/-- What the framing is for: the payload and nothing else is read from the
caller's data and lies behind the UDP header, the length field of the header
counts the header and the payload, and nothing is written behind `buffer_`. -/
structure SendFramed (framing : Framing) (len : BitVec 16) (data : ℕ → BitVec 8) : Prop where
  reads : framing.payload.reads = List.range len.toNat
  stored : ∀ i < len.toNat,
    framing.payload.packet.buffer (framing.payload.packet.transportPos.toNat + 8 + i) = data i
  lengthField :
    256 * (framing.payload.packet.buffer
        (framing.payload.packet.transportPos.toNat + 4)).toNat +
      (framing.payload.packet.buffer
        (framing.payload.packet.transportPos.toNat + 5)).toNat = len.toNat + 8
  inside : ∀ copy ∈ [framing.localPort, framing.remotePort, framing.length, framing.payload],
    ∀ offset ∈ copy.writes, offset < lowpanIpPacketBufferMaxSize

section Framing

variable (endianness : Endianness) (socket : UdpSocket) (data : ℕ → BitVec 8)
  (message : IPv6Packet) {len : BitVec 16}

/-- The packet before the UDP header is stored. -/
def framed (len : BitVec 16) : IPv6Packet :=
  (((message.setTransportNextHeader UDP).setHopLimit 255).setTransportLength
    (len + 8)).setDestinationAddress socket.remoteHost

/-- The UDP header as far as `send` fills it in. -/
def udpHeader (len : BitVec 16) (packet : IPv6Packet) : IPv6Packet :=
  ((packet.stored 0 [(socket.localPort >>> 8).setWidth 8, socket.localPort.setWidth 8]).stored 2
    [(socket.remotePort >>> 8).setWidth 8, socket.remotePort.setWidth 8]).stored 4
      [((len + 8) >>> 8).setWidth 8, (len + 8).setWidth 8]

theorem frame_payload (len : BitVec 16) :
    (frame endianness socket len data message).payload =
      { packet := (udpHeader socket len (framed socket message len)).stored 8
          (ByteBuffer.read data 0 (len + 8).toNat)
        reads := List.range' 0 (len + 8).toNat
        writes := List.range' (message.transportPos.toNat + 8) (len + 8).toNat } := by
  simp only [frame, setPayload_bytes, (setPayload_word _ _ _ _).1]
  rfl

variable (haccepted : len.toNat < lowpanIpPacketBufferMaxSize)

include haccepted

theorem toNat_datagram_length : (len + 8).toNat = len.toNat + 8 := by
  rw [BitVec.toNat_add]
  have height : (8 : BitVec 16).toNat = 8 := rfl
  have hsize : lowpanIpPacketBufferMaxSize = 1500 := rfl
  omega

/-- Eight bytes more than the payload has are read. -/
theorem frame_payload_reads :
    (frame endianness socket len data message).payload.reads = List.range (len.toNat + 8) := by
  rw [frame_payload, toNat_datagram_length haccepted, List.range_eq_range']

theorem frame_length_field :
    let packet := (frame endianness socket len data message).payload.packet
    256 * (packet.buffer (packet.transportPos.toNat + 4)).toNat +
      (packet.buffer (packet.transportPos.toNat + 5)).toNat = len.toNat + 8 := by
  have hlength := toNat_datagram_length haccepted
  have hhigh : (BitVec.setWidth 8 ((len + 8) >>> 8)).toNat = (len.toNat + 8) / 256 := by
    rw [BitVec.toNat_setWidth, BitVec.toNat_ushiftRight, hlength, Nat.shiftRight_eq_div_pow]
    omega
  have hlow : (BitVec.setWidth 8 (len + 8)).toNat = (len.toNat + 8) % 256 := by
    rw [BitVec.toNat_setWidth, hlength]
  have hheader : ByteBuffer.Holds
      (udpHeader socket len (framed socket message len)).buffer (message.transportPos.toNat + 4)
      [((len + 8) >>> 8).setWidth 8, (len + 8).setWidth 8] := ByteBuffer.holds_write
  have hbehind : ByteBuffer.Holds
      (ByteBuffer.write (udpHeader socket len (framed socket message len)).buffer
        (message.transportPos.toNat + 8) (ByteBuffer.read data 0 (len + 8).toNat))
      (message.transportPos.toNat + 4) [((len + 8) >>> 8).setWidth 8, (len + 8).setWidth 8] :=
    hheader.write_of_le (by simp)
  obtain ⟨hfirst, hrest⟩ := ByteBuffer.holds_cons.1 hbehind
  obtain ⟨hsecond, -⟩ := ByteBuffer.holds_cons.1 hrest
  rw [frame_payload]
  calc 256 * (ByteBuffer.write (udpHeader socket len (framed socket message len)).buffer
          (message.transportPos.toNat + 8) (ByteBuffer.read data 0 (len + 8).toNat)
          (message.transportPos.toNat + 4)).toNat +
        (ByteBuffer.write (udpHeader socket len (framed socket message len)).buffer
          (message.transportPos.toNat + 8) (ByteBuffer.read data 0 (len + 8).toNat)
          (message.transportPos.toNat + 4 + 1)).toNat
      = 256 * ((len.toNat + 8) / 256) + (len.toNat + 8) % 256 := by
        rw [hfirst, hsecond, hhigh, hlow]
    _ = len.toNat + 8 := Nat.div_add_mod _ _

omit haccepted in
theorem frame_stored {i : ℕ} (hi : i < (len + 8).toNat) :
    let packet := (frame endianness socket len data message).payload.packet
    packet.buffer (packet.transportPos.toNat + 8 + i) = data i := by
  rw [frame_payload]
  change ByteBuffer.write _ (message.transportPos.toNat + 8) (ByteBuffer.read data 0 (len + 8).toNat)
    (message.transportPos.toNat + 8 + i) = data i
  rw [ByteBuffer.write_inside (by simpa using hi)]
  simp [ByteBuffer.read]

/-- The framing stays inside the packet as long as eight bytes behind the payload
are free. -/
theorem frame_inside_iff :
    let framing := frame endianness socket len data message
    (∀ copy ∈ [framing.localPort, framing.remotePort, framing.length, framing.payload],
      ∀ offset ∈ copy.writes, offset < lowpanIpPacketBufferMaxSize) ↔
        message.transportPos.toNat + len.toNat + 16 ≤ lowpanIpPacketBufferMaxSize := by
  have hlength := toNat_datagram_length haccepted
  have hsize : lowpanIpPacketBufferMaxSize = 1500 := rfl
  have hpos := message.transportPos.isLt
  have hwrites : (frame endianness socket len data message).payload.writes =
      List.range' (message.transportPos.toNat + 8) (len.toNat + 8) := by
    rw [frame_payload, hlength]
  constructor
  · intro hinside
    have hlast := hinside (frame endianness socket len data message).payload (by simp)
      (message.transportPos.toNat + 8 + (len.toNat + 7)) (by
        rw [hwrites, List.mem_range'_1]
        omega)
    omega
  · intro hle copy hcopy offset hoffset
    simp only [List.mem_cons, List.not_mem_nil, or_false] at hcopy
    rcases hcopy with rfl | rfl | rfl | rfl
    · have hlt := (setPayload_word endianness socket.localPort 0 _).2 offset hoffset
      change offset < message.transportPos.toNat + 0 + 2 at hlt
      omega
    · have hlt := (setPayload_word endianness socket.remotePort 2 _).2 offset hoffset
      simp only [(setPayload_word _ _ _ _).1] at hlt
      change offset < message.transportPos.toNat + 2 + 2 at hlt
      omega
    · have hlt := (setPayload_word endianness (len + 8) 4 _).2 offset hoffset
      simp only [(setPayload_word _ _ _ _).1] at hlt
      change offset < message.transportPos.toNat + 4 + 2 at hlt
      omega
    · rw [hwrites, List.mem_range'_1] at hoffset
      omega

/-- The framing is never what it is for: it reads behind the caller's data. -/
theorem not_sendFramed : ¬ SendFramed (frame endianness socket len data message) len data := by
  intro hframed
  have hreads := hframed.reads
  rw [frame_payload_reads endianness socket data message haccepted] at hreads
  have hcount := congrArg List.length hreads
  simp only [List.length_range] at hcount
  omega

end Framing

/-- A packet taken from the pool has its transport header behind the IPv6 header. -/
theorem transportPos_of_unused {pool taken : List IPv6Packet} {packetNumber : ℕ}
    {message : IPv6Packet} (hunused : getUnusedPacketWithNumber pool = some (packetNumber, taken))
    (hmessage : taken[packetNumber]? = some message) : message.transportPos.toNat = payloadPos := by
  unfold getUnusedPacketWithNumber at hunused
  split at hunused
  · cases hunused
  · obtain ⟨rfl, rfl⟩ := Prod.mk.inj (Option.some.inj hunused)
    rw [List.getElem?_modify_eq, Option.map_eq_map, Option.map_eq_some_iff] at hmessage
    obtain ⟨old, -, rfl⟩ := hmessage
    rfl

/-- What `send` has stored is the framing of a packet taken from the pool, and the
length was accepted. -/
theorem udpSend_framing {endianness : Endianness} {nullNodeId : IPv6Address}
    {ipSend : IPv6Address → ℕ → List IPv6Packet → ReturnCode × List IPv6Packet}
    {pool : List IPv6Packet} {socket : UdpSocket} {len : BitVec 16} {data : ℕ → BitVec 8}
    {framing : Framing}
    (hsent : (udpSend endianness nullNodeId ipSend pool socket len data).framing = some framing) :
    len.toNat < lowpanIpPacketBufferMaxSize ∧
      ∃ message, message.transportPos.toNat = payloadPos ∧
        framing = frame endianness socket len data message := by
  unfold udpSend at hsent
  split at hsent
  · cases hsent
  · next haccepted =>
    split at hsent
    · cases hsent
    · split at hsent
      · cases hsent
      · next hunused =>
        split at hsent
        · cases hsent
        · next message hmessage =>
          exact ⟨Nat.lt_of_not_le haccepted, message, transportPos_of_unused hunused hmessage,
            (Option.some.inj hsent).symm⟩

/-- Whatever is sent, the framing is not what it is for. -/
theorem udpSend_never_framed (endianness : Endianness) (nullNodeId : IPv6Address)
    (ipSend : IPv6Address → ℕ → List IPv6Packet → ReturnCode × List IPv6Packet)
    (pool : List IPv6Packet) (socket : UdpSocket) (len : BitVec 16) (data : ℕ → BitVec 8)
    (framing : Framing)
    (hsent : (udpSend endianness nullNodeId ipSend pool socket len data).framing = some framing) :
    ¬ SendFramed framing len data := by
  obtain ⟨haccepted, message, -, rfl⟩ := udpSend_framing hsent
  exact not_sendFramed endianness socket data message haccepted

/-- A pool with one packet that is free. -/
def freePool : List IPv6Packet := [⟨fun _ => 0, 40, 0, false⟩]

/-- A socket with a remote host. -/
def routerSocket : UdpSocket := ⟨5683, 5683, IPv6Address.allRouters⟩

/-- The framing of one byte sent through `routerSocket`. -/
def oneByteFraming (data : ℕ → BitVec 8) : Framing :=
  frame .little routerSocket 1 data
    { IPv6Packet.new ⟨fun _ => 0, 40, 0, false⟩ with valid := true }

theorem oneByte_sent (data : ℕ → BitVec 8) :
    (udpSend .little IPv6Address.unspecified (fun _ _ pool => (.success, pool)) freePool routerSocket
      1 data).framing = some (oneByteFraming data) := by
  unfold udpSend
  rw [if_neg (by decide), if_neg (fun heq => IPv6Address.unspecified_ne_allRouters heq.symm)]
  rfl

/-- The length field `send` has stored is right, the payload is stored behind the header, and
nothing is written behind the packet exactly for payloads of 1444 bytes or less. -/
theorem udpSend_length_inside {endianness : Endianness} {nullNodeId : IPv6Address}
    {ipSend : IPv6Address → ℕ → List IPv6Packet → ReturnCode × List IPv6Packet}
    {pool : List IPv6Packet} {socket : UdpSocket} {len : BitVec 16} {data : ℕ → BitVec 8}
    {framing : Framing}
    (hsent : (udpSend endianness nullNodeId ipSend pool socket len data).framing = some framing) :
    let packet := framing.payload.packet
    256 * (packet.buffer (packet.transportPos.toNat + 4)).toNat +
        (packet.buffer (packet.transportPos.toNat + 5)).toNat = len.toNat + 8 ∧
      (∀ i < len.toNat, packet.buffer (packet.transportPos.toNat + 8 + i) = data i) ∧
      ((∀ copy ∈ [framing.localPort, framing.remotePort, framing.length, framing.payload],
        ∀ offset ∈ copy.writes, offset < lowpanIpPacketBufferMaxSize) ↔ len.toNat ≤ 1444) := by
  obtain ⟨haccepted, message, hposition, rfl⟩ := udpSend_framing hsent
  refine ⟨frame_length_field endianness socket data message haccepted, fun i hi => ?_, ?_⟩
  · refine frame_stored endianness socket data message ?_
    rw [toNat_datagram_length haccepted]
    omega
  · have hinside := frame_inside_iff endianness socket data message haccepted
    rw [hposition] at hinside
    refine hinside.trans ⟨fun hle => ?_, fun hle => ?_⟩ <;>
      simp only [payloadPos, lowpanIpPacketBufferMaxSize] at hle ⊢ <;> omega

theorem udpSend_length_inside_oneByte :
    let packet := (oneByteFraming fun _ => 7).payload.packet
    256 * (packet.buffer (packet.transportPos.toNat + 4)).toNat +
        (packet.buffer (packet.transportPos.toNat + 5)).toNat = (1 : BitVec 16).toNat + 8 :=
  (udpSend_length_inside (oneByte_sent _)).1

theorem udpSend_never_framed_oneByte :
    (udpSend .little IPv6Address.unspecified (fun _ _ pool => (.success, pool)) freePool routerSocket
        1 fun _ => 7).framing = some (oneByteFraming fun _ => 7) ∧
      ¬ SendFramed (oneByteFraming fun _ => 7) 1 fun _ => 7 :=
  ⟨oneByte_sent _, udpSend_never_framed _ _ _ _ _ _ _ _ (oneByte_sent _)⟩

/-- Nine bytes are read for a payload of one. -/
theorem udpSend_reads_behind_payload :
    ¬ ∀ (endianness : Endianness) (nullNodeId : IPv6Address)
      (ipSend : IPv6Address → ℕ → List IPv6Packet → ReturnCode × List IPv6Packet)
      (pool : List IPv6Packet) (socket : UdpSocket) (len : BitVec 16) (data : ℕ → BitVec 8)
      (framing : Framing),
      (udpSend endianness nullNodeId ipSend pool socket len data).framing = some framing →
        SendFramed framing len data := by
  intro hall
  exact not_sendFramed .little routerSocket (fun _ => 7) _ (by decide)
    (hall .little IPv6Address.unspecified (fun _ _ pool => (.success, pool)) freePool routerSocket 1
      (fun _ => 7) _ (oneByte_sent _))

end Wiselib.SixLowpan
