import Wiselib.Coap.CoapPacketSegments

/-!
# Encoding and decoding a packet

`RoundTrip packet` says that the packet comes back from the bytes it is written
as, whatever the buffer held before and whatever is in the memory of the packet
it is read into.  `Restorable packet` is the condition for it, told by the
fields of the packet.

The condition leaves out what the two sides do differently: the value of a
max-age option is not read, a host is written in binary and read as
hexadecimal digits, a segment of 15 bytes is announced by a code that the
reader takes for a longer one, and fields are cut to the bits there are for
them.  For each of these the round trip fails on every packet.
-/

namespace Wiselib.Coap

open ByteBuffer

namespace CoapPacket

/-- Encoding a packet and decoding the bytes restores it. -/
def RoundTrip (packet : CoapPacket) : Prop :=
  ∀ (buffer : ℕ → UInt8) (memory : CoapPacket), ∃ sent written len decoded,
    packet.packetToBuffer buffer = some (sent, written, len) ∧
      bufferToPacket (init memory) len written = (.noError, decoded) ∧ Restored packet decoded

/-- The condition for the round trip. -/
structure Restorable (packet : CoapPacket) : Prop where
  version : packet.version < 4
  type : packet.type < 4
  maxAge : packet.isOption .maxAge = false
  uriHost : packet.isOption .uriHost → packet.uriHost = 0
  uriPath : packet.isOption .uriPath → ∀ segment ∈ packet.segments, segment.length ≠ 15
  block2 : packet.isOption .block2 →
    packet.block2Num.toNat < 2 ^ 28 ∧ packet.block2More ≤ 1 ∧ packet.block2Size ≤ 2048

theorem readOptions_of_bufferToPacket {memory decoded : CoapPacket} {len : UInt8}
    {written : ℕ → UInt8}
    (hdecoded : bufferToPacket (init memory) len written = (.noError, decoded)) :
    ∃ last, readOptions (startReader memory written).packet.optCount.toNat
        (startReader memory written) = .ok last ∧ decoded.uriPath = last.view.uriPath := by
  cases hread : readOptions (startReader memory written).packet.optCount.toNat
      (startReader memory written) with
  | error failed =>
      unfold startReader at hread
      simp [bufferToPacket, hread] at hdecoded
  | ok last =>
      unfold startReader at hread
      simp only [bufferToPacket, hread, Prod.mk.injEq, true_and] at hdecoded
      exact ⟨last, rfl, by rw [← hdecoded]⟩

theorem no_long_of_roundTrip {packet : CoapPacket} (hbuilt : Built packet)
    (hcount : packet.wireOptions.length ≤ 15) (hfits : packet.encodedLength ≤ 255)
    (hround : RoundTrip packet) (hset : packet.isOption .uriPath) :
    ∀ segment ∈ packet.segments, segment.length ≠ 15 := by
  intro segment hsegment hlength
  have hlong : ∃ text ∈ packet.segments, text.length = 15 := ⟨segment, hsegment, hlength⟩
  obtain ⟨written, sent, hsent, hholds⟩ := packetToBuffer_spec hbuilt hfits fun _ => 0
  obtain ⟨sent', written', len, decoded, hsent', hdecoded, hrestored⟩ := hround (fun _ => 0) packet
  rw [hsent] at hsent'
  cases hsent'
  obtain ⟨last, hread, hpath⟩ := readOptions_of_bufferToPacket hdecoded
  rw [optCount_startReader packet hcount hholds] at hread
  apply path_ne_of_long hbuilt hset hfits hlong hholds hread
  rw [← hpath]
  exact (hrestored.uriPath hset).2

theorem roundTrip_iff_restored {packet : CoapPacket} (hbuilt : Built packet)
    (hcount : packet.wireOptions.length ≤ 15) (hfits : packet.encodedLength ≤ 255)
    (hshort : packet.isOption .uriPath → ∀ segment ∈ packet.segments, segment.length ≠ 15) :
    RoundTrip packet ↔ ∀ memory, Restored packet (decodedPacket packet memory) := by
  have hall : packet.plainOptions = packet.plainOptions ++ [] := by simp
  have hlegal : Legal 0 packet.wireOptions := by
    apply legal_part hall hfits
    intro opt hopt hnumber
    obtain ⟨option, hset, hoption, hsegment⟩ := mem_plainOptions hopt
    have hpath : option = .uriPath := number_injective (hoption.symm.trans hnumber)
    subst hpath
    exact hshort hset opt.2 (hsegment rfl)
  constructor
  · intro hround memory
    obtain ⟨written, sent, hsent, hholds⟩ := packetToBuffer_spec hbuilt hfits fun _ => 0
    obtain ⟨sent', written', len, decoded, hsent', hdecoded, hrestored⟩ :=
      hround (fun _ => 0) memory
    rw [hsent] at hsent'
    cases hsent'
    rw [bufferToPacket_spec hbuilt hcount hlegal hholds] at hdecoded
    cases hdecoded
    exact hrestored
  · intro hrestored buffer memory
    obtain ⟨written, sent, hsent, hholds⟩ := packetToBuffer_spec hbuilt hfits buffer
    exact ⟨sent, written, _, _, hsent, bufferToPacket_spec hbuilt hcount hlegal hholds,
      hrestored memory⟩

/-- A packet that fits into a message comes back exactly when it is restorable. -/
theorem roundTrip_iff_restorable {packet : CoapPacket} (hbuilt : Built packet)
    (hcount : packet.wireOptions.length ≤ 15) (hfits : packet.encodedLength ≤ 255) :
    RoundTrip packet ↔ Restorable packet := by
  constructor
  · intro hround
    have hshort := no_long_of_roundTrip hbuilt hcount hfits hround
    obtain ⟨hversion, htype, hmaxAge, hhost, hblock⟩ := (restored_decoded_iff hbuilt).1
      ((roundTrip_iff_restored hbuilt hcount hfits hshort).1 hround)
    exact ⟨hversion, htype, hmaxAge, hhost, hshort, hblock⟩
  · intro h
    apply (roundTrip_iff_restored hbuilt hcount hfits h.uriPath).2
    exact (restored_decoded_iff hbuilt).2 ⟨h.version, h.type, h.maxAge, h.uriHost, h.block2⟩

/-! ### Two packets -/

/-- A packet whose memory was zero before it went through `init`. -/
def newPacket : CoapPacket :=
  init ⟨0, 0, 0, 0, 0, 0, 0, 0, 0, 0, 0, [], 0, 0, [], 0, 0, 0, 0, 0, 0, []⟩

/-- A request for the third block of `a/bc`. -/
def blockRequest : CoapPacket :=
  { ((newPacket.setOption .uriPath).setOption .token).setOption .block2 with
    code := 1, mid := 300, uriPath := [0x61, 0x2f, 0x62, 0x63], uriPathLen := 4, tokenLen := 2,
    token := [7, 8], block2Num := 2, block2More := 0, block2Size := 64 }

/-- A request for a path whose only segment has 15 bytes. -/
def longRequest : CoapPacket :=
  { newPacket.setOption .uriPath with
    code := 1, mid := 300, uriPath := List.replicate 15 0x61, uriPathLen := 15 }

theorem built_blockRequest : Built blockRequest where
  optCount := rfl
  options := by intro option; cases option <;> decide
  path := by decide
  token := by decide
  block2 := fun _ => ⟨6, by decide, by decide⟩
  payload := rfl

theorem built_longRequest : Built longRequest where
  optCount := rfl
  options := by intro option; cases option <;> decide
  path := by decide
  token := by decide
  block2 := fun hset => absurd hset (by decide)
  payload := rfl

/-- The request for a block comes back. -/
theorem roundTrip_blockRequest : RoundTrip blockRequest :=
  (roundTrip_iff_restorable built_blockRequest (by decide) (by decide)).2
    ⟨by decide, by decide, by decide, by decide, by decide, by decide⟩

/-- The request with the long segment does not, though it is one that can be sent. -/
theorem not_roundTrip_longRequest :
    Built longRequest ∧ longRequest.wireOptions.length ≤ 15 ∧ longRequest.encodedLength ≤ 255 ∧
      ¬ RoundTrip longRequest := by
  refine ⟨built_longRequest, by decide, by decide, ?_⟩
  intro hround
  have hshort := no_long_of_roundTrip built_longRequest (by decide) (by decide) hround (by decide)
  exact hshort (List.replicate 15 0x61) (by decide) rfl

end CoapPacket

end Wiselib.Coap
