import Wiselib.Library.ByteBuffer
import Wiselib.Library.Run

/-!
# Packets from single bytes

`UartPacketExtractor` of `util/wisebed_node_api/uart_packet_extractor.h`.  Bytes from
the serial line are collected until the packet they begin has the size that its
command says; then the receivers are notified.

## Strategy

The bytes collected so far determine the size that the extractor goes by
(`expected`), and the state is related to them (`Pending`).  One byte is described
once (`handle_pending`), a stream by induction over it.

Three things are not what the packets need.  The payload length of a message is its
fifth byte, but the byte behind it is taken, which is the first of the destination.
The buffer has `BUFFER_SIZE` bytes whatever that byte says.  And the template
arguments of `UartBase` are given in the wrong order, so that the receivers are told
a length that has the type of a byte.
-/

namespace Wiselib.NodeApi

open Transition

/-- `SET_VIRTUAL_LINK`. -/
def setVirtualLink : UInt8 := 30

/-- `DESTROY_VIRTUAL_LINK`. -/
def destroyVirtualLink : UInt8 := 31

/-- `VIRTUAL_LINK_MESSAGE`. -/
def virtualLinkMessage : UInt8 := 11

/-- `UartPacketExtractor`.  The buffer has `BUFFER_SIZE` bytes. -/
structure UartPacketExtractor where
  packetSize : ℕ
  inProcess : Bool
  type : UInt8
  buf : List UInt8
  bufIdx : ℕ

namespace UartPacketExtractor

/-- The constructor, on a buffer that is not initialized. -/
def new (buf : List UInt8) : UartPacketExtractor := ⟨0, false, 0, buf, 0⟩

/-- `buf_[buf_idx_++] = byte`. -/
def store (extractor : UartPacketExtractor) (byte : UInt8) : Option UartPacketExtractor :=
  if extractor.bufIdx < extractor.buf.length then
    some { extractor with
      buf := extractor.buf.set extractor.bufIdx byte
      bufIdx := extractor.bufIdx + 1 }
  else none

/-- The `switch` over the first byte of a packet. -/
def packetSizeOf (byte : UInt8) : Option ℕ :=
  if byte = setVirtualLink then some 10
  else if byte = destroyVirtualLink then some 10
  else if byte = virtualLinkMessage then some 21
  else none

/-- What receivers are handed by `notify_receivers`: as many bytes of the buffer as they are
told, in a parameter of type `block_data_t`. -/
def notification (extractor : UartPacketExtractor) : List UInt8 :=
  extractor.buf.take (extractor.bufIdx % 256)

/-- The size of a message grows by the byte that is taken for its payload length. -/
def addPayloadLength (extractor : UartPacketExtractor) (byte : UInt8) : UartPacketExtractor :=
  if extractor.type = virtualLinkMessage ∧ extractor.bufIdx = 5 then
    { extractor with packetSize := extractor.packetSize + byte.toNat }
  else extractor

/-- The end of `handle_uart_packet`. -/
def finish (extractor : UartPacketExtractor) : UartPacketExtractor × List (List UInt8) :=
  if extractor.bufIdx = extractor.packetSize then
    ({ extractor with inProcess := false }, [extractor.notification])
  else (extractor, [])

/-- `handle_uart_packet`, with what the receivers are notified of. -/
def handleUartPacket (extractor : UartPacketExtractor) (byte : UInt8) :
    Option (UartPacketExtractor × List (List UInt8)) :=
  if extractor.inProcess = false then
    match packetSizeOf byte with
    | none => some (extractor, [])
    | some size =>
        (store { extractor with
          packetSize := size
          bufIdx := 0
          type := byte
          inProcess := true } byte).map finish
  else ((extractor.addPayloadLength byte).store byte).map finish

/-- A stream of bytes, fed byte by byte. -/
def feed (extractor : UartPacketExtractor) :
    List UInt8 → Option (UartPacketExtractor × List (List UInt8))
  | [] => some (extractor, [])
  | byte :: bytes =>
      (extractor.handleUartPacket byte).bind fun (next, first) =>
        (feed next bytes).map fun (last, rest) => (last, first ++ rest)

/-! ## Packets -/

/-- The packets of a virtual link, as `VirtualLinkInMessage` and `VirtualRadio` read them. -/
inductive Packet
  | setVirtualLink (requestId : UInt8) (destination : ℕ)
  | destroyVirtualLink (requestId : UInt8) (destination : ℕ)
  | message (requestId rssi lqi : UInt8) (destination source : ℕ) (payload : List UInt8)
      (payload_fits : payload.length < 256)

/-- The bytes of a packet. -/
def Packet.bytes : Packet → List UInt8
  | .setVirtualLink requestId destination =>
      NodeApi.setVirtualLink :: requestId :: ByteBuffer.bytesOf 8 destination
  | .destroyVirtualLink requestId destination =>
      NodeApi.destroyVirtualLink :: requestId :: ByteBuffer.bytesOf 8 destination
  | .message requestId rssi lqi destination source payload _ =>
      virtualLinkMessage :: requestId :: rssi :: lqi :: UInt8.ofNat payload.length ::
        (ByteBuffer.bytesOf 8 destination ++ (ByteBuffer.bytesOf 8 source ++ payload))

/-- The packets that are extracted: they fit the buffer and their length fits one byte, and the
first byte of the destination of a message happens to be its payload length. -/
def Packet.Extracted (bufferSize : ℕ) : Packet → Prop
  | .setVirtualLink _ _ => 10 ≤ bufferSize
  | .destroyVirtualLink _ _ => 10 ≤ bufferSize
  | .message _ _ _ destination _ payload _ =>
      destination / 256 ^ 7 % 256 = payload.length ∧ 21 + payload.length ≤ bufferSize ∧
        21 + payload.length < 256

/-- A byte for which the buffer is large enough: the size that its packet will have. -/
def Fits (extractor : UartPacketExtractor) (byte : UInt8) : Prop :=
  if extractor.inProcess = false then
    ∀ size, packetSizeOf byte = some size → size ≤ extractor.buf.length
  else
    extractor.type = virtualLinkMessage → extractor.bufIdx = 5 →
      21 + byte.toNat ≤ extractor.buf.length

/-! ## Bytes that are pending -/

/-- The size that the extractor goes by after some bytes of a packet. -/
def expected (bytes : List UInt8) : ℕ :=
  if bytes[0]? = some virtualLinkMessage then 21 + (bytes[5]?.getD 0).toNat else 10

/-- The bytes of a packet that are collected so far. -/
structure Pending (extractor : UartPacketExtractor) (bufferSize : ℕ) (bytes : List UInt8) :
    Prop where
  inProcess_eq : extractor.inProcess = true
  length_eq : extractor.buf.length = bufferSize
  type_eq : bytes[0]? = some extractor.type
  bufIdx_eq : extractor.bufIdx = bytes.length
  taken : extractor.buf.take bytes.length = bytes
  packetSize_eq : extractor.packetSize = expected bytes
  unfinished : bytes.length < expected bytes

/-- Outside of a packet. -/
structure Outside (extractor : UartPacketExtractor) (bufferSize : ℕ) : Prop where
  inProcess_eq : extractor.inProcess = false
  length_eq : extractor.buf.length = bufferSize

section Bytes

variable {extractor : UartPacketExtractor} {bufferSize : ℕ} {bytes more : List UInt8} {byte : UInt8}

theorem expected_append (hbytes : bytes ≠ []) (byte : UInt8) :
    expected (bytes ++ [byte]) =
      if bytes[0]? = some virtualLinkMessage ∧ bytes.length = 5 then expected bytes + byte.toNat
      else expected bytes := by
  have hpos := List.length_pos_of_ne_nil hbytes
  have hhead : (bytes ++ [byte])[0]? = bytes[0]? := List.getElem?_append_left hpos
  rw [expected, expected, hhead]
  by_cases hmessage : bytes[0]? = some virtualLinkMessage
  · simp only [hmessage, if_true, true_and]
    rcases Nat.lt_trichotomy bytes.length 5 with hlt | heq | hgt
    · have hshort : bytes[5]? = none := List.getElem?_eq_none (by omega)
      have hshort' : (bytes ++ [byte])[5]? = none := List.getElem?_eq_none (by simp; omega)
      rw [if_neg hlt.ne, hshort, hshort']
    · have hlast : (bytes ++ [byte])[5]? = some byte := by
        rw [← heq, List.getElem?_concat_length]
      have hnone : bytes[5]? = none := List.getElem?_eq_none heq.le
      rw [if_pos heq, hlast, hnone]
      rfl
    · rw [if_neg hgt.ne', List.getElem?_append_left hgt]
  · simp [hmessage]

theorem Pending.length_le (hpending : Pending extractor bufferSize bytes) :
    bytes.length ≤ bufferSize := by
  calc bytes.length = (extractor.buf.take bytes.length).length := by rw [hpending.taken]
    _ ≤ extractor.buf.length := List.length_take_le' _ _
    _ = bufferSize := hpending.length_eq

theorem Pending.ne_nil (hpending : Pending extractor bufferSize bytes) : bytes ≠ [] := by
  rintro rfl
  exact absurd hpending.type_eq (by simp)

theorem expected_le_append (hbytes : bytes ≠ []) (byte : UInt8) :
    expected bytes ≤ expected (bytes ++ [byte]) := by
  rw [expected_append hbytes]
  split <;> omega

theorem addPayloadLength_eq (extractor : UartPacketExtractor) (byte : UInt8) :
    extractor.addPayloadLength byte =
      { extractor with packetSize := (extractor.addPayloadLength byte).packetSize } := by
  unfold addPayloadLength
  split <;> rfl

theorem Pending.packetSize_add (hpending : Pending extractor bufferSize bytes) (byte : UInt8) :
    (extractor.addPayloadLength byte).packetSize = expected (bytes ++ [byte]) := by
  have htype : bytes[0]? = some virtualLinkMessage ↔ extractor.type = virtualLinkMessage := by
    rw [hpending.type_eq, Option.some_inj]
  rw [expected_append hpending.ne_nil, addPayloadLength, hpending.bufIdx_eq,
    if_congr (and_congr_left fun _ => htype) rfl rfl, ← hpending.packetSize_eq]
  split <;> rfl

theorem take_set_length {buf : List UInt8} (htaken : buf.take bytes.length = bytes)
    (hlt : bytes.length < buf.length) :
    (buf.set bytes.length byte).take (bytes.length + 1) = bytes ++ [byte] := by
  rw [List.take_add_one, List.getElem?_set_self hlt, List.take_set_of_le le_rfl, htaken]
  rfl

/-- **One byte of a packet** is collected where it fits. -/
theorem handle_pending (hpending : Pending extractor bufferSize bytes)
    (hroom : bytes.length < bufferSize) (byte : UInt8) :
    (bytes.length + 1 < expected (bytes ++ [byte]) ∧
      ∃ next, extractor.handleUartPacket byte = some (next, []) ∧
        Pending next bufferSize (bytes ++ [byte])) ∨
    (bytes.length + 1 = expected (bytes ++ [byte]) ∧
      ∃ next, extractor.handleUartPacket byte =
          some (next, [(bytes ++ [byte]).take ((bytes.length + 1) % 256)]) ∧
        Outside next bufferSize ∧ next.bufIdx = bytes.length + 1) := by
  have hsize := hpending.packetSize_add byte
  have hgrows := expected_le_append hpending.ne_nil byte
  have hunfinished := hpending.unfinished
  have hlt : bytes.length < extractor.buf.length := hpending.length_eq.symm ▸ hroom
  have htake := @take_set_length _ byte _ hpending.taken hlt
  have hhandle : extractor.handleUartPacket byte =
      some (finish
        { extractor with
          packetSize := expected (bytes ++ [byte])
          buf := extractor.buf.set bytes.length byte
          bufIdx := bytes.length + 1 }) := by
    rw [handleUartPacket, if_neg (by rw [hpending.inProcess_eq]; decide), addPayloadLength_eq,
      hsize]
    simp only [store, hpending.bufIdx_eq, if_pos hlt, Option.map_some]
  rw [hhandle]
  rcases Nat.lt_or_ge (bytes.length + 1) (expected (bytes ++ [byte])) with hless | hge
  · refine .inl ⟨hless, _, by rw [finish, if_neg hless.ne], ?_⟩
    exact
      { inProcess_eq := hpending.inProcess_eq
        length_eq := by simp only [List.length_set, hpending.length_eq]
        type_eq := by
          rw [List.getElem?_append_left (List.length_pos_of_ne_nil hpending.ne_nil)]
          exact hpending.type_eq
        bufIdx_eq := by simp
        taken := by simpa using htake
        packetSize_eq := rfl
        unfinished := by simpa using hless }
  · have heq : bytes.length + 1 = expected (bytes ++ [byte]) := by omega
    have hnotified : (extractor.buf.set bytes.length byte).take ((bytes.length + 1) % 256) =
        (bytes ++ [byte]).take ((bytes.length + 1) % 256) := by
      rw [← htake, List.take_take, min_eq_left (Nat.mod_le _ _)]
    refine .inr ⟨heq, { extractor with
        packetSize := expected (bytes ++ [byte])
        buf := extractor.buf.set bytes.length byte
        bufIdx := bytes.length + 1
        inProcess := false }, ?_, ⟨rfl, ?_⟩, rfl⟩
    · rw [finish, if_pos heq, notification, hnotified]
    · rw [List.length_set, hpending.length_eq]

theorem handle_overflow (hpending : Pending extractor bufferSize bytes)
    (hfull : bufferSize ≤ bytes.length) (byte : UInt8) :
    extractor.handleUartPacket byte = none := by
  have hge : ¬ extractor.bufIdx < extractor.buf.length := by
    rw [hpending.bufIdx_eq, hpending.length_eq]
    omega
  rw [handleUartPacket, if_neg (by rw [hpending.inProcess_eq]; decide), addPayloadLength_eq, store,
    if_neg hge]
  rfl

theorem packetSizeOf_cases {size : ℕ} (hsize : packetSizeOf byte = some size) :
    byte = virtualLinkMessage ∧ size = 21 ∨ byte ≠ virtualLinkMessage ∧ size = 10 := by
  unfold packetSizeOf at hsize
  split_ifs at hsize with hset hdestroy hmessage
  · exact .inr ⟨hset ▸ by decide, (Option.some.inj hsize).symm⟩
  · exact .inr ⟨hdestroy ▸ by decide, (Option.some.inj hsize).symm⟩
  · exact .inl ⟨hmessage, (Option.some.inj hsize).symm⟩

theorem expected_singleton {size : ℕ} (hsize : packetSizeOf byte = some size) :
    expected [byte] = size := by
  rcases packetSizeOf_cases hsize with ⟨rfl, rfl⟩ | ⟨hne, rfl⟩
  · rfl
  · rw [expected, if_neg (by simpa using hne)]

/-- **The first byte of a packet.** -/
theorem handle_first (houtside : Outside extractor bufferSize) {size : ℕ}
    (hsize : packetSizeOf byte = some size) (hroom : 0 < bufferSize) :
    ∃ next, extractor.handleUartPacket byte = some (next, []) ∧
      Pending next bufferSize [byte] := by
  have hexpected := expected_singleton hsize
  have hlarge : 1 < size := by
    rcases packetSizeOf_cases hsize with ⟨-, rfl⟩ | ⟨-, rfl⟩ <;> decide
  have hlt : 0 < extractor.buf.length := houtside.length_eq.symm ▸ hroom
  refine ⟨{ extractor with
      packetSize := size
      bufIdx := 1
      type := byte
      inProcess := true
      buf := extractor.buf.set 0 byte }, ?_, ?_⟩
  · rw [handleUartPacket, if_pos houtside.inProcess_eq, hsize]
    simp only [store, if_pos hlt, Option.map_some, finish, Nat.zero_add, if_neg hlarge.ne]
  · exact
      { inProcess_eq := rfl
        length_eq := by rw [List.length_set, houtside.length_eq]
        type_eq := rfl
        bufIdx_eq := rfl
        taken := @take_set_length [] _ _ rfl hlt
        packetSize_eq := hexpected.symm
        unfinished := by rwa [hexpected] }

theorem handle_first_overflow (houtside : Outside extractor 0) {size : ℕ}
    (hsize : packetSizeOf byte = some size) : extractor.handleUartPacket byte = none := by
  have hempty : ¬ 0 < extractor.buf.length := by
    rw [houtside.length_eq]
    exact lt_irrefl 0
  rw [handleUartPacket, if_pos houtside.inProcess_eq, hsize]
  simp only [store, if_neg hempty, Option.map_none]

/-! ## Streams -/

theorem feed_singleton (extractor : UartPacketExtractor) (byte : UInt8) :
    extractor.feed [byte] = extractor.handleUartPacket byte := by
  simp [feed]

theorem feed_append (extractor : UartPacketExtractor) (bytes more : List UInt8) :
    extractor.feed (bytes ++ more) =
      (extractor.feed bytes).bind fun (next, first) =>
        (feed next more).map fun (last, rest) => (last, first ++ rest) := by
  induction bytes generalizing extractor with
  | nil => simp [feed]
  | cons byte bytes ih =>
      rw [List.cons_append, feed, feed]
      cases extractor.handleUartPacket byte with
      | none => rfl
      | some result =>
          obtain ⟨next, first⟩ := result
          simp only [Option.bind_some, ih, Option.map_eq_bind, Option.bind_assoc,
            Function.comp_apply, List.append_assoc]

theorem feed_append_of {next : UartPacketExtractor} {first : List (List UInt8)}
    (hfeed : extractor.feed bytes = some (next, first)) (more : List UInt8) :
    extractor.feed (bytes ++ more) =
      (feed next more).map fun (last, rest) => (last, first ++ rest) := by
  rw [feed_append, hfeed]
  rfl

/-- **Bytes that do not finish a packet** are collected, as long as they fit. -/
theorem feed_unfinished (hpending : Pending extractor bufferSize bytes)
    (hunfinished : bytes.length + more.length < expected bytes) :
    if bytes.length + more.length ≤ bufferSize then
      ∃ next, extractor.feed more = some (next, []) ∧ Pending next bufferSize (bytes ++ more)
    else extractor.feed more = none := by
  induction more generalizing extractor bytes with
  | nil =>
      rw [List.length_nil, Nat.add_zero, if_pos hpending.length_le, List.append_nil]
      exact ⟨extractor, rfl, hpending⟩
  | cons byte more ih =>
      rw [List.length_cons] at hunfinished ⊢
      have hgrows := expected_le_append hpending.ne_nil byte
      by_cases hroom : bytes.length < bufferSize
      · rcases handle_pending hpending hroom byte with
          ⟨-, next, hhandle, hnext⟩ | ⟨hfinished, -⟩
        · have hrest := ih hnext (by rw [List.length_append, List.length_singleton]; omega)
          have hfeed : extractor.feed (byte :: more) = next.feed more := by
            rw [feed, hhandle]
            simp
          rw [List.length_append, List.length_singleton, Nat.add_assoc, Nat.add_comm 1,
            List.append_assoc, List.singleton_append, ← hfeed] at hrest
          exact hrest
        · omega
      · rw [if_neg (by omega), feed, handle_overflow hpending (by omega)]
        rfl

/-- The bytes that determine the size of their packet. -/
def Settled (bytes : List UInt8) : Prop := bytes[0]? ≠ some virtualLinkMessage ∨ 6 ≤ bytes.length

theorem Settled.append (hsettled : Settled bytes) (hbytes : bytes ≠ []) (more : List UInt8) :
    Settled (bytes ++ more) ∧ expected (bytes ++ more) = expected bytes := by
  have hpos := List.length_pos_of_ne_nil hbytes
  have hhead : (bytes ++ more)[0]? = bytes[0]? := List.getElem?_append_left hpos
  refine ⟨hsettled.imp (fun hother => by rwa [hhead]) (by rw [List.length_append]; omega), ?_⟩
  rw [expected, expected, hhead]
  rcases hsettled with hother | hlong
  · rw [if_neg hother, if_neg hother]
  · rw [List.getElem?_append_left (by omega)]

/-- **The rest of a packet**: the receivers are notified where it fits. -/
theorem feed_rest (hpending : Pending extractor bufferSize bytes) (hsettled : Settled bytes)
    (hrest : bytes.length + more.length = expected bytes) :
    if expected bytes ≤ bufferSize then
      ∃ next, extractor.feed more = some (next, [(bytes ++ more).take (expected bytes % 256)]) ∧
        Outside next bufferSize
    else extractor.feed more = none := by
  have hmore : more ≠ [] := by
    rintro rfl
    have := hpending.unfinished
    simp at hrest
    omega
  obtain ⟨init, last, rfl⟩ := (List.eq_nil_or_concat' more).resolve_left hmore
  rw [List.length_append, List.length_singleton] at hrest
  have hexpected : expected (bytes ++ init ++ [last]) = expected bytes := by
    rw [List.append_assoc]
    exact (hsettled.append hpending.ne_nil _).2
  have hinit := @feed_unfinished _ _ _ init hpending (by omega)
  by_cases hroom : bytes.length + init.length ≤ bufferSize
  · rw [if_pos hroom] at hinit
    obtain ⟨next, hnext, hpending'⟩ := hinit
    rw [feed_append_of hnext, feed_singleton]
    by_cases hfits : expected bytes ≤ bufferSize
    · rw [if_pos hfits]
      have hlength : (bytes ++ init).length + 1 = expected bytes := by
        rw [List.length_append]
        omega
      rcases handle_pending hpending' (by omega) last with
        ⟨hless, -⟩ | ⟨-, final, hfinal, houtside, -⟩
      · omega
      · refine ⟨final, ?_, houtside⟩
        rw [hfinal, hlength, List.append_assoc]
        rfl
    · rw [if_neg hfits, handle_overflow hpending' (by rw [List.length_append]; omega)]
      rfl
  · rw [if_neg hroom] at hinit
    rw [if_neg (by omega), feed_append, hinit]
    rfl

/-- **What comes first** after the bytes of a packet that are collected. -/
theorem first_notification (hpending : Pending extractor bufferSize bytes)
    (hsettled : Settled bytes) {last : UartPacketExtractor} {first : List UInt8}
    {rest : List (List UInt8)} (hfeed : extractor.feed more = some (last, first :: rest)) :
    first.length = expected bytes % 256 ∧ expected bytes ≤ bufferSize := by
  have hunfinished := hpending.unfinished
  by_cases hshort : bytes.length + more.length < expected bytes
  · have hnone := feed_unfinished hpending hshort
    split at hnone
    · obtain ⟨next, hnext, -⟩ := hnone
      exact absurd (hnext.symm.trans hfeed) (by simp)
    · exact absurd (hnone.symm.trans hfeed) (by simp)
  · have hlength : (more.take (expected bytes - bytes.length)).length =
        expected bytes - bytes.length := by
      rw [List.length_take]
      omega
    have hpacket := @feed_rest _ _ _ (more.take (expected bytes - bytes.length)) hpending
      hsettled (by omega)
    rw [← List.take_append_drop (expected bytes - bytes.length) more] at hfeed
    split at hpacket
    · rename_i hfits
      obtain ⟨next, hnext, -⟩ := hpacket
      rw [feed_append_of hnext] at hfeed
      obtain ⟨⟨_, _⟩, -, hresult⟩ := Option.map_eq_some_iff.1 hfeed
      obtain ⟨-, hlist⟩ := Prod.mk.inj hresult
      obtain ⟨hfirst, -⟩ := List.cons.inj hlist
      refine ⟨?_, hfits⟩
      rw [← hfirst, List.length_take, List.length_append, hlength]
      have hmod := Nat.mod_le (expected bytes) 256
      omega
    · rw [feed_append, hpacket] at hfeed
      exact absurd hfeed (by simp)

/-! ## Packets -/

section Packets

variable {packet : Packet}

/-- The first six bytes of a packet, with its command and the byte taken for its length. -/
theorem take_six (packet : Packet) :
    ∃ command more size, packet.bytes.take 6 = command :: more ∧ more.length = 5 ∧
      packetSizeOf command = some size ∧ Settled (packet.bytes.take 6) ∧
      6 ≤ packet.bytes.length := by
  cases packet with
  | setVirtualLink requestId destination =>
      exact ⟨_, _, 10, rfl, rfl, rfl, .inl (by simp [Packet.bytes]; decide), by simp [Packet.bytes]⟩
  | destroyVirtualLink requestId destination =>
      exact ⟨_, _, 10, rfl, rfl, rfl, .inl (by simp [Packet.bytes]; decide), by simp [Packet.bytes]⟩
  | message requestId rssi lqi destination source payload _ =>
      exact ⟨_, _, 21, rfl, rfl, rfl, .inr (by simp [Packet.bytes]; omega),
        by simp [Packet.bytes]; omega⟩

/-- The size that the extractor goes by in a packet. -/
def Packet.sizeTaken : Packet → ℕ
  | .setVirtualLink _ _ => 10
  | .destroyVirtualLink _ _ => 10
  | .message _ _ _ destination _ _ _ => 21 + destination / 256 ^ 7 % 256

theorem expected_take_six (packet : Packet) :
    expected (packet.bytes.take 6) = packet.sizeTaken := by
  cases packet with
  | setVirtualLink requestId destination => rfl
  | destroyVirtualLink requestId destination => rfl
  | message requestId rssi lqi destination source payload _ =>
      have hbyte : (UInt8.ofNat (destination / 256 ^ 7)).toNat = destination / 256 ^ 7 % 256 :=
        UInt8.toNat_ofNat'
      rw [Packet.sizeTaken, ← hbyte]
      rfl

/-- The size of a packet. -/
def Packet.size : Packet → ℕ
  | .setVirtualLink _ _ => 10
  | .destroyVirtualLink _ _ => 10
  | .message _ _ _ _ _ payload _ => 21 + payload.length

theorem length_bytes (packet : Packet) : packet.bytes.length = packet.size := by
  cases packet with
  | setVirtualLink requestId destination => simp [Packet.bytes, Packet.size]
  | destroyVirtualLink requestId destination => simp [Packet.bytes, Packet.size]
  | message requestId rssi lqi destination source payload _ =>
      simp [Packet.bytes, Packet.size]
      omega

theorem extracted_iff (packet : Packet) :
    packet.Extracted bufferSize ↔
      packet.sizeTaken = packet.size ∧ packet.size ≤ bufferSize ∧ packet.size < 256 := by
  cases packet with
  | setVirtualLink requestId destination => simp [Packet.Extracted, Packet.sizeTaken, Packet.size]
  | destroyVirtualLink requestId destination =>
      simp [Packet.Extracted, Packet.sizeTaken, Packet.size]
  | message requestId rssi lqi destination source payload hpayload =>
      rw [Packet.Extracted, Packet.sizeTaken, Packet.size, Nat.add_left_cancel_iff]

/-- A size that is not the packet's is not its length as the receivers are told it, either. -/
theorem extracted_of_mod (packet : Packet) (hsize : packet.sizeTaken % 256 = packet.size)
    (hfits : packet.sizeTaken ≤ bufferSize) : packet.Extracted bufferSize := by
  have hlt : packet.sizeTaken < 256 + 10 ∨ 21 ≤ packet.size ∧ packet.sizeTaken < 256 + 21 := by
    cases packet with
    | setVirtualLink _ _ => exact .inl (show 10 < 256 + 10 by decide)
    | destroyVirtualLink _ _ => exact .inl (show 10 < 256 + 10 by decide)
    | message _ _ _ destination _ payload _ =>
        have hbyte := Nat.mod_lt (destination / 256 ^ 7) (show 0 < 256 by decide)
        exact .inr ⟨Nat.le_add_right 21 _, show 21 + destination / 256 ^ 7 % 256 < 277 by omega⟩
  have hsmall : 10 ≤ packet.size := by
    cases packet with
    | setVirtualLink _ _ => exact le_refl 10
    | destroyVirtualLink _ _ => exact le_refl 10
    | message _ _ _ _ _ payload _ => exact show 10 ≤ 21 + payload.length by omega
  rw [extracted_iff]
  omega

/-- **The first six bytes** are collected, if the buffer has room for them. -/
theorem feed_take_six (houtside : Outside extractor bufferSize) (packet : Packet) :
    if 6 ≤ bufferSize then
      ∃ next, extractor.feed (packet.bytes.take 6) = some (next, []) ∧
        Pending next bufferSize (packet.bytes.take 6)
    else extractor.feed (packet.bytes.take 6) = none := by
  obtain ⟨command, more, size, hsix, hmore, hsize, -, -⟩ := take_six packet
  rw [hsix]
  rcases Nat.eq_zero_or_pos bufferSize with rfl | hroom
  · rw [if_neg (by decide), feed, handle_first_overflow houtside hsize]
    rfl
  · obtain ⟨next, hnext, hpending⟩ := handle_first houtside hsize hroom
    have hlarge : 10 ≤ size := by
      rcases packetSizeOf_cases hsize with ⟨-, rfl⟩ | ⟨-, rfl⟩ <;> decide
    have hrest := @feed_unfinished _ _ _ more hpending (by
      rw [expected_singleton hsize, hmore, List.length_singleton]
      omega)
    have hfeed : extractor.feed (command :: more) = next.feed more := by
      rw [feed, hnext]
      simp
    rw [hmore, List.length_singleton, ← hfeed] at hrest
    exact hrest

/-- **A packet that is extracted.** -/
theorem feed_packet (houtside : Outside extractor bufferSize)
    (hextracted : packet.Extracted bufferSize) :
    ∃ next, extractor.feed packet.bytes = some (next, [packet.bytes]) ∧
      Outside next bufferSize := by
  obtain ⟨htaken, hfits, hlt⟩ := (extracted_iff packet).1 hextracted
  obtain ⟨-, -, -, -, -, -, hsettled, hsix⟩ := take_six packet
  have hlength := length_bytes packet
  have hfirst := feed_take_six houtside packet
  rw [if_pos (by omega)] at hfirst
  obtain ⟨middle, hmiddle, hpending⟩ := hfirst
  have hrest := @feed_rest _ _ _ (packet.bytes.drop 6) hpending hsettled (by
    rw [expected_take_six, List.length_take, List.length_drop]
    omega)
  rw [expected_take_six, htaken, if_pos hfits, List.take_append_drop, Nat.mod_eq_of_lt hlt,
    ← hlength, List.take_length] at hrest
  obtain ⟨next, hnext, houtside'⟩ := hrest
  refine ⟨next, ?_, houtside'⟩
  calc extractor.feed packet.bytes
      = extractor.feed (packet.bytes.take 6 ++ packet.bytes.drop 6) := by
        rw [List.take_append_drop]
    _ = some (next, [packet.bytes]) := by
        rw [feed_append_of hmiddle, hnext]
        rfl

/-- **A packet that the receivers are notified of** is one that is extracted. -/
theorem extracted_of_feed (houtside : Outside extractor bufferSize)
    {last : UartPacketExtractor} {rest : List (List UInt8)}
    (hfeed : extractor.feed (packet.bytes ++ more) = some (last, packet.bytes :: rest)) :
    packet.Extracted bufferSize := by
  obtain ⟨-, -, -, -, -, -, hsettled, hsix⟩ := take_six packet
  have hfirst := feed_take_six houtside packet
  have hbytes : packet.bytes ++ more = packet.bytes.take 6 ++ (packet.bytes.drop 6 ++ more) := by
    rw [← List.append_assoc, List.take_append_drop]
  rw [hbytes] at hfeed
  split at hfirst
  · obtain ⟨middle, hmiddle, hpending⟩ := hfirst
    rw [feed_append_of hmiddle] at hfeed
    obtain ⟨⟨_, _⟩, hrest, hresult⟩ := Option.map_eq_some_iff.1 hfeed
    obtain ⟨-, hlist⟩ := Prod.mk.inj hresult
    rw [List.nil_append] at hlist
    rw [hlist] at hrest
    obtain ⟨hsize, hfits⟩ := first_notification hpending hsettled hrest
    rw [expected_take_six] at hsize hfits
    exact extracted_of_mod packet (hsize.symm.trans (length_bytes packet)) hfits
  · rw [feed_append, hfirst] at hfeed
    exact absurd hfeed (by simp)

/-- **A sequence of packets** is extracted exactly if each of them is. -/
theorem feed_packets_iff (houtside : Outside extractor bufferSize) (packets : List Packet) :
    (∃ last, extractor.feed (packets.flatMap Packet.bytes) =
        some (last, packets.map Packet.bytes)) ↔
      ∀ packet ∈ packets, packet.Extracted bufferSize := by
  induction packets generalizing extractor with
  | nil => exact ⟨fun _ packet hmem => absurd hmem (by simp), fun _ => ⟨extractor, rfl⟩⟩
  | cons packet packets ih =>
      rw [List.flatMap_cons, List.map_cons, List.forall_mem_cons]
      constructor
      · rintro ⟨last, hlast⟩
        have hextracted := extracted_of_feed houtside hlast
        obtain ⟨next, hnext, houtside'⟩ := feed_packet houtside hextracted
        refine ⟨hextracted, (ih houtside').1 ⟨last, ?_⟩⟩
        rw [feed_append_of hnext] at hlast
        obtain ⟨⟨_, _⟩, hrest, hresult⟩ := Option.map_eq_some_iff.1 hlast
        obtain ⟨rfl, hlist⟩ := Prod.mk.inj hresult
        obtain ⟨-, rfl⟩ := List.cons.inj hlist
        exact hrest
      · rintro ⟨hextracted, hrest⟩
        obtain ⟨next, hnext, houtside'⟩ := feed_packet houtside hextracted
        obtain ⟨last, hlast⟩ := (ih houtside').2 hrest
        refine ⟨last, ?_⟩
        rw [feed_append_of hnext, hlast]
        rfl

end Packets

/-! ## The buffer -/

/-- The steps of the extractor. -/
def step : UartPacketExtractor → UInt8 → UartPacketExtractor → Prop :=
  stepOf fun extractor byte => (extractor.handleUartPacket byte).map Prod.fst

/-- What is collected is going to fit the buffer. -/
def Sound (bufferSize : ℕ) (extractor : UartPacketExtractor) : Prop :=
  Outside extractor bufferSize ∧ extractor.bufIdx ≤ bufferSize ∨
    ∃ bytes, Pending extractor bufferSize bytes ∧ expected bytes ≤ bufferSize

theorem sound_new (buf : List UInt8) : Sound buf.length (new buf) :=
  .inl ⟨⟨rfl, rfl⟩, Nat.zero_le _⟩

theorem Sound.bufIdx_le (hsound : Sound bufferSize extractor) : extractor.bufIdx ≤ bufferSize := by
  rcases hsound with ⟨-, hle⟩ | ⟨bytes, hpending, -⟩
  · exact hle
  · rw [hpending.bufIdx_eq]
    exact hpending.length_le

theorem expected_append_le (hpending : Pending extractor bufferSize bytes)
    (hroom : expected bytes ≤ bufferSize) (hfits : extractor.Fits byte) :
    expected (bytes ++ [byte]) ≤ bufferSize := by
  rw [expected_append hpending.ne_nil]
  split
  · rename_i hlength
    obtain ⟨hmessage, hlength⟩ := hlength
    have hshort : bytes[5]? = none := List.getElem?_eq_none hlength.le
    have htype : extractor.type = virtualLinkMessage :=
      Option.some.inj (hpending.type_eq.symm.trans hmessage)
    rw [Fits, if_neg (by rw [hpending.inProcess_eq]; decide), hpending.length_eq] at hfits
    have hsize := hfits htype (hpending.bufIdx_eq.trans hlength)
    rw [expected, if_pos hmessage, hshort]
    exact hsize
  · exact hroom

/-- **A byte that fits** is taken. -/
theorem Sound.handle (hsound : Sound bufferSize extractor) (hfits : extractor.Fits byte) :
    ∃ next notified, extractor.handleUartPacket byte = some (next, notified) ∧
      Sound bufferSize next := by
  rcases hsound with ⟨houtside, hle⟩ | ⟨bytes, hpending, hroom⟩
  · cases hsize : packetSizeOf byte with
    | none =>
        refine ⟨extractor, [], ?_, .inl ⟨houtside, hle⟩⟩
        rw [handleUartPacket, if_pos houtside.inProcess_eq, hsize]
    | some size =>
        rw [Fits, if_pos houtside.inProcess_eq, houtside.length_eq] at hfits
        have hpos : 0 < size := by
          rcases packetSizeOf_cases hsize with ⟨-, rfl⟩ | ⟨-, rfl⟩ <;> decide
        obtain ⟨next, hnext, hpending⟩ :=
          handle_first houtside hsize (hpos.trans_le (hfits size hsize))
        refine ⟨next, [], hnext, .inr ⟨[byte], hpending, ?_⟩⟩
        rw [expected_singleton hsize]
        exact hfits size hsize
  · have hlt := hpending.unfinished.trans_le hroom
    rcases handle_pending hpending hlt byte with
      ⟨-, next, hnext, hpending'⟩ | ⟨-, next, hnext, houtside, hidx⟩
    · exact ⟨next, [], hnext, .inr ⟨_, hpending', expected_append_le hpending hroom hfits⟩⟩
    · exact ⟨next, _, hnext, .inl ⟨houtside, hidx ▸ hlt⟩⟩

theorem fits_of_large (hsound : Sound bufferSize extractor) (hlarge : 276 ≤ bufferSize)
    (byte : UInt8) : extractor.Fits byte := by
  have hlength : extractor.buf.length = bufferSize := by
    rcases hsound with ⟨houtside, -⟩ | ⟨bytes, hpending, -⟩
    · exact houtside.length_eq
    · exact hpending.length_eq
  have hbyte := byte.toNat_lt
  unfold Fits
  rw [hlength]
  split
  · intro size hsize
    rcases packetSizeOf_cases hsize with ⟨-, rfl⟩ | ⟨-, rfl⟩ <;> omega
  · intro _ _
    omega

theorem feed_of_large (hsound : Sound bufferSize extractor) (hlarge : 276 ≤ bufferSize)
    (bytes : List UInt8) :
    ∃ last notified, extractor.feed bytes = some (last, notified) ∧ Sound bufferSize last := by
  induction bytes generalizing extractor with
  | nil => exact ⟨extractor, [], rfl, hsound⟩
  | cons byte bytes ih =>
      obtain ⟨next, first, hnext, hsound'⟩ := hsound.handle (fits_of_large hsound hlarge byte)
      obtain ⟨last, rest, hlast, hsound''⟩ := ih hsound'
      refine ⟨last, first ++ rest, ?_, hsound''⟩
      rw [← List.singleton_append, feed_append_of ((feed_singleton extractor byte).trans hnext),
        hlast]
      rfl

/-- A message whose length is taken to be `255` does not fit a smaller buffer. -/
theorem feed_of_small (hsmall : bufferSize < 276) (houtside : Outside extractor bufferSize) :
    ∃ bytes, extractor.feed bytes = none := by
  let packet : Packet := .message 0 0 0 (255 * 256 ^ 7) 0 [] (by decide)
  have htaken : packet.sizeTaken = 276 := rfl
  obtain ⟨-, -, -, -, -, -, hsettled, hsix⟩ := take_six packet
  have hfirst := feed_take_six houtside packet
  split at hfirst
  · obtain ⟨next, hnext, hpending⟩ := hfirst
    have hrest := @feed_rest _ _ _ (List.replicate 270 0) hpending hsettled (by
      rw [expected_take_six, htaken, List.length_take, List.length_replicate]
      omega)
    rw [expected_take_six, htaken, if_neg (by omega)] at hrest
    refine ⟨packet.bytes.take 6 ++ List.replicate 270 0, ?_⟩
    rw [feed_append_of hnext, hrest]
    rfl
  · exact ⟨_, hfirst⟩

end Bytes

/-- **When bytes and packets are extracted rightly.**  No byte is stored outside of any buffer
of `276` bytes, and of smaller ones as long as every byte fits.  A sequence of packets reaches
the receivers exactly if each of them is one that is extracted. -/
theorem extraction_right_iff (buf : List UInt8) (extractor : UartPacketExtractor)
    (hinProcess : extractor.inProcess = false) :
    ((∀ bytes, ∃ last notified, (new buf).feed bytes = some (last, notified) ∧
        last.bufIdx ≤ buf.length) ↔ 276 ≤ buf.length) ∧
    (∀ (bytes : List UInt8) (last : UartPacketExtractor),
      Run (Guarded Fits step) (new buf) bytes last →
        last.bufIdx ≤ buf.length ∧
          ∀ byte, last.Fits byte → (last.handleUartPacket byte).isSome) ∧
    ∀ packets : List Packet,
      (∃ last, extractor.feed (packets.flatMap Packet.bytes) =
        some (last, packets.map Packet.bytes)) ↔
      ∀ packet ∈ packets, packet.Extracted extractor.buf.length := by
  refine ⟨⟨fun hall => ?_, fun hlarge bytes => ?_⟩, fun bytes last hrun => ?_,
    feed_packets_iff ⟨hinProcess, rfl⟩⟩
  · by_contra hsmall
    obtain ⟨bytes, hbytes⟩ :=
      @feed_of_small (new buf) _ (not_le.1 hsmall) ⟨rfl, rfl⟩
    obtain ⟨last, notified, hfeed, -⟩ := hall bytes
    exact absurd (hbytes.symm.trans hfeed) (by simp)
  · obtain ⟨last, notified, hfeed, hsound⟩ := feed_of_large (sound_new buf) hlarge bytes
    exact ⟨last, notified, hfeed, hsound.bufIdx_le⟩
  · have hsound : Sound buf.length last := by
      refine hrun.invariant (fun state byte next hstate hstep => ?_) (sound_new buf)
      obtain ⟨hfits, hnext⟩ := hstep
      obtain ⟨reached, notified, hreached, hsound⟩ := hstate.handle hfits
      have hmapped : (state.handleUartPacket byte).map Prod.fst = some next := hnext
      rw [hreached] at hmapped
      obtain rfl : reached = next := Option.some.inj hmapped
      exact hsound
    refine ⟨hsound.bufIdx_le, fun byte hfits => ?_⟩
    obtain ⟨next, notified, hnext, -⟩ := hsound.handle hfits
    rw [hnext]
    rfl

/-- The extractor of a buffer of `BUFFER_SIZE` bytes by default. -/
def byDefault : UartPacketExtractor := new (List.replicate 128 0)

/-- A link is set. -/
theorem extraction_right_iff_link :
    byDefault.bufIdx ≤ 128 ∧
      ∃ last, byDefault.feed (Packet.setVirtualLink 7 9).bytes =
        some (last, [(Packet.setVirtualLink 7 9).bytes]) := by
  have hright := extraction_right_iff (List.replicate 128 0) byDefault rfl
  have hrun := hright.2.1 [] _ (.nil _)
  have hlink := (hright.2.2 [.setVirtualLink 7 9]).2 fun packet hpacket => by
    rw [List.mem_singleton.1 hpacket]
    exact show 10 ≤ byDefault.buf.length by simp [byDefault, new]
  rw [List.flatMap_singleton] at hlink
  rw [List.length_replicate] at hrun
  exact ⟨hrun.1, hlink⟩

/-- A message of one byte to node `9` is cut off, and the byte that is taken for the length of
another leads out of the buffer. -/
theorem extraction_wrong :
    (byDefault.feed (Packet.message 0 0 0 9 8 [42] (by decide)).bytes).map Prod.snd =
        some [(Packet.message 0 0 0 9 8 [42] (by decide)).bytes.take 21] ∧
      (Packet.message 0 0 0 9 8 [42] (by decide)).bytes.length = 22 ∧
      byDefault.feed (virtualLinkMessage :: List.replicate 128 255) = none := by
  refine ⟨by decide +kernel, by decide +kernel, ?_⟩
  have hnone : (byDefault.feed (virtualLinkMessage :: List.replicate 128 255)).isNone := by
    decide +kernel
  exact Option.isNone_iff_eq_none.1 hnone

end UartPacketExtractor

end Wiselib.NodeApi
