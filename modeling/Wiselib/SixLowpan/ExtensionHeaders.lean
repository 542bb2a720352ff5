import Wiselib.SixLowpan.IPv6Packet

/-!
# Looking up the transport header

`IPv6Packet::transport_next_header` returns the number of the transport protocol
of a packet and saves it.  Where the IPv6 header does not name the protocol, it
walks along the extension headers and moves `TRANSPORT_POS` behind them: the
first byte of a header is the next header value, the second its length in units
of eight bytes, the first unit not counted.

## Strategy

* `Chain` says what a chain of extension headers in the buffer is, with the
  protocol it ends in and the offset it ends at.
* The condition of the loop is the disjunction of two inequalities, so one of
  them always holds (`walks_on`) and only leaving the buffer ends the walk:
  `walk_leaves` gives the byte behind the buffer it has read by then.
* `lookupRight_iff` puts the saved value, the empty chain and the walk together.
-/

namespace Wiselib.SixLowpan

namespace IPv6Packet

/-- The size of the extension header at `place`. -/
def extensionSize (buffer : ℕ → BitVec 8) (place : ℕ) : ℕ :=
  ((buffer (place + 1)).toNat + 1) * 8

/-- From `start` on, where the next header value `nextHeader` leads to, lie
extension headers up to `finish`, all inside the packet; the last one names
`protocol`, which is UDP or ICMPv6. -/
inductive Chain (buffer : ℕ → BitVec 8) : BitVec 8 → ℕ → BitVec 8 → ℕ → Prop
  | transport {protocol : BitVec 8} {start : ℕ} (hprotocol : protocol = UDP ∨ protocol = ICMPV6)
      (hinside : start ≤ lowpanIpPacketBufferMaxSize) : Chain buffer protocol start protocol start
  | extension {nextHeader protocol : BitVec 8} {start finish : ℕ}
      (hextension : nextHeader ≠ UDP ∧ nextHeader ≠ ICMPV6)
      (hrest : Chain buffer (buffer start) (start + extensionSize buffer start) protocol finish) :
      Chain buffer nextHeader start protocol finish

/-- The transport header a walk has found, with the position it has computed,
and the offsets it has read. -/
structure Walk where
  found : Option (BitVec 8)
  transportPos : BitVec 8
  reads : List ℕ

/-- The loop of `transport_next_header` from `act_place` on and the two
statements behind it. -/
def walk (buffer : ℕ → BitVec 8) (actPlace : ℕ) (transportPos : BitVec 8) : Walk :=
  let size := extensionSize buffer actPlace
  if buffer actPlace ≠ UDP ∨ buffer actPlace ≠ ICMPV6 then
    if lowpanIpPacketBufferMaxSize < actPlace then
      { found := none, transportPos := transportPos, reads := [actPlace] }
    else
      let rest := walk buffer (actPlace + size) (transportPos + BitVec.ofNat 8 size)
      { rest with reads := actPlace :: (actPlace + 1) :: rest.reads }
  else
    { found := some (buffer actPlace)
      transportPos := transportPos + BitVec.ofNat 8 size
      reads := [actPlace, actPlace + 1] }
termination_by lowpanIpPacketBufferMaxSize + 1 - actPlace
decreasing_by
  simp only [extensionSize]
  omega

/-- What `transport_next_header` returns, the packet it leaves and the offsets
it has read. -/
structure Lookup where
  result : BitVec 8
  packet : IPv6Packet
  reads : List ℕ

/-- `transport_next_header`. -/
def lookupTransport (packet : IPv6Packet) : Lookup :=
  if packet.transportNextHeader = 0 then
    if packet.realNextHeader = UDP ∨ packet.realNextHeader = ICMPV6 then
      { result := packet.realNextHeader
        packet := { packet with transportNextHeader := packet.realNextHeader }
        reads := [nextHeaderByte] }
    else
      let walked := walk packet.buffer payloadPos packet.transportPos
      match walked.found with
      | none =>
          { result := 255
            packet := { packet with transportPos := walked.transportPos }
            reads := nextHeaderByte :: walked.reads }
      | some nextHeader =>
          { result := nextHeader
            packet :=
              { packet with
                transportPos := walked.transportPos
                transportNextHeader := nextHeader }
            reads := nextHeaderByte :: walked.reads }
  else { result := packet.transportNextHeader, packet := packet, reads := [] }

/-! ## The walk -/

theorem walks_on (b : BitVec 8) : b ≠ UDP ∨ b ≠ ICMPV6 := by
  by_cases hudp : b = UDP
  · right
    rw [hudp]
    decide
  · exact Or.inl hudp

/-- The walk finds nothing and has read a byte behind the buffer. -/
theorem walk_leaves (buffer : ℕ → BitVec 8) (actPlace : ℕ) (transportPos : BitVec 8) :
    (walk buffer actPlace transportPos).found = none ∧
      ∃ offset ∈ (walk buffer actPlace transportPos).reads,
        lowpanIpPacketBufferMaxSize < offset := by
  induction actPlace, transportPos using walk.induct buffer with
  | case1 actPlace transportPos _ hbehind =>
    rw [walk, if_pos (walks_on _), if_pos hbehind]
    exact ⟨rfl, actPlace, by simp, hbehind⟩
  | case2 actPlace transportPos size _ hinside ih =>
    obtain ⟨hfound, offset, hmem, hoffset⟩ := ih
    rw [walk, if_pos (walks_on _), if_neg hinside]
    exact ⟨hfound, offset, List.mem_cons_of_mem _ (List.mem_cons_of_mem _ hmem), hoffset⟩
  | case3 actPlace _ hexit => exact absurd (walks_on _) hexit

/-! ## The lookup -/

/-- What the lookup is for: the protocol the chain ends in, the position behind
the last extension header, reads inside the packet only, and the same again
from a second call. -/
structure LookupRight (packet : IPv6Packet) (protocol : BitVec 8) (finish : ℕ) : Prop where
  result : (lookupTransport packet).result = protocol
  position : (lookupTransport packet).packet.transportPos.toNat = finish
  inside : ∀ offset ∈ (lookupTransport packet).reads, offset < lowpanIpPacketBufferMaxSize
  again : (lookupTransport (lookupTransport packet).packet).result = protocol
  settled : (lookupTransport (lookupTransport packet).packet).packet.transportPos =
    (lookupTransport packet).packet.transportPos

theorem lookupTransport_of_saved {packet : IPv6Packet} (hsaved : packet.transportNextHeader ≠ 0) :
    lookupTransport packet =
      { result := packet.transportNextHeader, packet := packet, reads := [] } :=
  if_neg hsaved

theorem lookupTransport_of_transport {packet : IPv6Packet}
    (hsaved : packet.transportNextHeader = 0)
    (hreal : packet.buffer 6 = UDP ∨ packet.buffer 6 = ICMPV6) :
    lookupTransport packet =
      { result := packet.buffer 6
        packet := { packet with transportNextHeader := packet.buffer 6 }
        reads := [nextHeaderByte] } := by
  unfold lookupTransport
  rw [if_pos hsaved, if_pos (by simpa using hreal), realNextHeader_eq]

theorem lookupTransport_of_extension {packet : IPv6Packet}
    (hsaved : packet.transportNextHeader = 0)
    (hreal : ¬ (packet.buffer 6 = UDP ∨ packet.buffer 6 = ICMPV6)) :
    ∃ offset ∈ (lookupTransport packet).reads, lowpanIpPacketBufferMaxSize < offset := by
  obtain ⟨hfound, offset, hmem, hoffset⟩ :=
    walk_leaves packet.buffer payloadPos packet.transportPos
  refine ⟨offset, ?_, hoffset⟩
  unfold lookupTransport
  rw [if_pos hsaved, if_neg (by simpa using hreal)]
  simp only [hfound]
  exact List.mem_cons_of_mem _ hmem

theorem Chain.protocol_cases {buffer : ℕ → BitVec 8} {nextHeader protocol : BitVec 8}
    {start finish : ℕ} (hchain : Chain buffer nextHeader start protocol finish) :
    protocol = UDP ∨ protocol = ICMPV6 := by
  induction hchain with
  | transport hprotocol _ => exact hprotocol
  | extension _ _ ih => exact ih

theorem Chain.of_transport {buffer : ℕ → BitVec 8} {nextHeader protocol : BitVec 8}
    {start finish : ℕ} (hchain : Chain buffer nextHeader start protocol finish)
    (htransport : nextHeader = UDP ∨ nextHeader = ICMPV6) :
    protocol = nextHeader ∧ finish = start := by
  cases hchain with
  | transport _ _ => exact ⟨rfl, rfl⟩
  | extension hextension _ => exact absurd htransport (not_or.2 hextension)

theorem lookupRight_cases {packet : IPv6Packet} {protocol : BitVec 8} {finish : ℕ}
    (hchain : Chain packet.buffer packet.realNextHeader payloadPos protocol finish) :
    LookupRight packet protocol finish ↔
      if packet.transportNextHeader = 0 then
        (packet.realNextHeader = UDP ∨ packet.realNextHeader = ICMPV6) ∧
          packet.transportPos.toNat = payloadPos
      else packet.transportNextHeader = protocol ∧ packet.transportPos.toNat = finish := by
  by_cases hsaved : packet.transportNextHeader = 0
  · rw [if_pos hsaved]
    by_cases hreal : packet.buffer 6 = UDP ∨ packet.buffer 6 = ICMPV6
    · -- The IPv6 header names the protocol, which the first call saves.
      obtain ⟨hprotocol, hfinish⟩ := hchain.of_transport (by simpa using hreal)
      rw [realNextHeader_eq] at hprotocol
      have hnonzero : packet.buffer 6 ≠ 0 := by
        rcases hreal with hudp | hicmp
        · rw [hudp]; decide
        · rw [hicmp]; decide
      have hfirst := lookupTransport_of_transport hsaved hreal
      have hsecond := @lookupTransport_of_saved
        { packet with transportNextHeader := packet.buffer 6 } hnonzero
      constructor
      · intro hright
        have hposition := hright.position
        rw [hfirst] at hposition
        exact ⟨by simpa using hreal, hposition.trans hfinish⟩
      · rintro ⟨-, hposition⟩
        exact
          { result := by rw [hfirst, hprotocol]
            position := by rw [hfirst, hfinish, ← hposition]
            inside := by
              intro offset hmem
              rw [hfirst, List.mem_singleton] at hmem
              rw [hmem]
              decide
            again := by rw [hfirst, hsecond, hprotocol]
            settled := by rw [hfirst, hsecond] }
    · constructor
      · intro hright
        obtain ⟨offset, hmem, hoffset⟩ := lookupTransport_of_extension hsaved hreal
        exact absurd (hright.inside offset hmem) (by omega)
      · rintro ⟨htransport, -⟩
        exact absurd (by simpa using htransport) hreal
  · rw [if_neg hsaved]
    have hcall := lookupTransport_of_saved hsaved
    constructor
    · intro hright
      have hresult := hright.result
      have hposition := hright.position
      rw [hcall] at hresult hposition
      exact ⟨hresult, hposition⟩
    · rintro ⟨hprotocol, hposition⟩
      exact
        { result := by rw [hcall, hprotocol]
          position := by rw [hcall, hposition]
          inside := by
            intro offset hmem
            rw [hcall] at hmem
            cases hmem
          again := by rw [hcall, hcall, hprotocol]
          settled := by rw [hcall, hcall] }

/-- The lookup does what it is for if and only if the protocol and the position
are saved in the packet already, or the chain has no extension header and
`TRANSPORT_POS` is where a new packet has it. -/
theorem transportNextHeader_right_iff (packet : IPv6Packet) (protocol : BitVec 8) (finish : ℕ)
    (hchain : Chain packet.buffer packet.realNextHeader payloadPos protocol finish) :
    LookupRight packet protocol finish ↔
      if packet.transportNextHeader = 0 then
        (packet.realNextHeader = UDP ∨ packet.realNextHeader = ICMPV6) ∧
          packet.transportPos.toNat = payloadPos
      else packet.transportNextHeader = protocol ∧ packet.transportPos.toNat = finish :=
  lookupRight_cases hchain

/-- A packet whose IPv6 header is followed by one hop-by-hop header of eight
bytes and by UDP. -/
def hopByHopPacket : IPv6Packet where
  buffer := fun i => if i = 40 then UDP else 0
  transportPos := 40
  transportNextHeader := 0
  valid := true

theorem hopByHopPacket_chain :
    Chain hopByHopPacket.buffer hopByHopPacket.realNextHeader payloadPos UDP 48 := by
  rw [realNextHeader_eq]
  refine Chain.extension ⟨by decide, by decide⟩ ?_
  exact Chain.transport (Or.inl rfl) (by decide)

theorem transportNextHeader_right_iff_hopByHop :
    Chain hopByHopPacket.buffer hopByHopPacket.realNextHeader payloadPos UDP 48 ∧
      (LookupRight hopByHopPacket UDP 48 ↔
        if hopByHopPacket.transportNextHeader = 0 then
          (hopByHopPacket.realNextHeader = UDP ∨ hopByHopPacket.realNextHeader = ICMPV6) ∧
            hopByHopPacket.transportPos.toNat = payloadPos
        else hopByHopPacket.transportNextHeader = UDP ∧ hopByHopPacket.transportPos.toNat = 48) :=
  ⟨hopByHopPacket_chain, transportNextHeader_right_iff _ _ _ hopByHopPacket_chain⟩

/-- Behind one extension header the lookup does not find UDP. -/
theorem transportNextHeader_runs_away :
    ¬ ∀ (packet : IPv6Packet) (protocol : BitVec 8) (finish : ℕ),
      packet.transportNextHeader = 0 → packet.transportPos.toNat = payloadPos →
      Chain packet.buffer packet.realNextHeader payloadPos protocol finish →
        LookupRight packet protocol finish := by
  intro hall
  have hright := hall hopByHopPacket UDP 48 rfl rfl hopByHopPacket_chain
  rw [lookupRight_cases hopByHopPacket_chain, realNextHeader_eq] at hright
  exact absurd hright (by decide)

end IPv6Packet

end Wiselib.SixLowpan
