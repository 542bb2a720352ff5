import Wiselib.SixLowpan.ExtensionHeaderCompression

/-!
# Sending extension headers

A chain of hop-by-hop headers is compressed by `send` and taken apart by
`receive` on the other side.  The chain comes back unless a position leaves the
byte it is kept in: the place of a dispatch in the frame, the length of a header
in the frame, or the place of a header in the packet.

## Strategy

* `encode` is what the loop of `send` writes, by recursion on the chain.
* `Narrow` and, for UDP, the end of the chain below 256 are the condition.  Under
  it the frame holds the compressed chain (`Encoded`), which the loop of
  `receive` takes apart header by header (`exists_decoded`).
* Conversely, a frame is at least `Written`: lengths are where they belong, since
  a misplaced dispatch byte hits offsets of the same remainder modulo 8 as the
  dispatch bytes only.  That is enough for the receiver to stay in step with
  the headers while it produces the right bytes (`narrow_of_decoded`).
* In front of UDP it is enough that the receiver has to stop at the UDP header,
  whose dispatch is missing from 256 on; otherwise `EH_LEN` is wrong modulo 256.
-/

namespace Wiselib.SixLowpan

open ByteBuffer

namespace LoWPAN

open IPv6Packet (UDP ICMPV6 EH_HOHO REAL_NH_NOT_SET payloadPos)

/-! ## Chains -/

/-- An extension header behind its next header value. -/
structure ExtensionHeader where
  len : BitVec 8
  content : List (BitVec 8)
  length_content : content.length = contentLength len

namespace ExtensionHeader

/-- The size in the packet, in bytes. -/
def size (header : ExtensionHeader) : ℕ :=
  (header.len.toNat + 1) * 8

theorem length_content_add (header : ExtensionHeader) :
    header.content.length + 2 = header.size := by
  rw [header.length_content, contentLength, size]
  omega

end ExtensionHeader

/-- The next header value that leads to a chain of hop-by-hop headers in front of
a transport header. -/
def leading (transport : BitVec 8) : List ExtensionHeader → BitVec 8
  | [] => transport
  | _ :: _ => EH_HOHO

/-- The chain in the packet. -/
def chainBytes (transport : BitVec 8) : List ExtensionHeader → List (BitVec 8)
  | [] => []
  | header :: rest =>
      (leading transport rest :: header.len :: header.content) ++ chainBytes transport rest

/-- The size of a chain in the packet. -/
def chainSize (chain : List ExtensionHeader) : ℕ :=
  (chain.map ExtensionHeader.size).sum

@[simp] theorem chainSize_nil : chainSize [] = 0 := rfl

@[simp] theorem chainSize_cons (header : ExtensionHeader) (rest : List ExtensionHeader) :
    chainSize (header :: rest) = header.size + chainSize rest := by
  simp [chainSize]

theorem length_chainBytes (transport : BitVec 8) (chain : List ExtensionHeader) :
    (chainBytes transport chain).length = chainSize chain := by
  induction chain with
  | nil => rfl
  | cons header rest ih =>
    have := header.length_content_add
    simp only [chainBytes, List.length_append, List.length_cons, ih, chainSize_cons]
    omega

theorem leading_of_ne {transport : BitVec 8} {chain : List ExtensionHeader} (hne : chain ≠ []) :
    leading transport chain = EH_HOHO := by
  cases chain with
  | nil => exact absurd rfl hne
  | cons header rest => rfl

theorem leading_eq_icmpv6_iff {transport : BitVec 8} {chain : List ExtensionHeader} :
    leading transport chain = ICMPV6 ↔ chain = [] ∧ transport = ICMPV6 := by
  cases chain with
  | nil => simp [leading]
  | cons header rest => simp [leading]

/-! ## The sender -/

/-- What the loop of `send` writes. -/
def encode (transport : BitVec 8) : List ExtensionHeader → Frame → Frame
  | [], frame => frame
  | header :: rest, frame =>
      encode transport rest
        (compressed (leading transport rest) header.len header.content frame)

/-- The size of a compressed header. -/
def compressedSize (nextHeader : BitVec 8) (header : ExtensionHeader) : ℕ :=
  header.size + if nextHeader = ICMPV6 then 1 else 0

theorem actualShift_compressed (nextHeader : BitVec 8) (header : ExtensionHeader) (frame : Frame) :
    (compressed nextHeader header.len header.content frame).actualShift =
      frame.actualShift + compressedSize nextHeader header := by
  have := header.length_content_add
  simp only [compressed, compressedTail, compressedSize, List.length_append, List.length_cons]
  split <;> (simp; omega)

theorem sendExtensions_eq {ip : ℕ → BitVec 8} {transport : BitVec 8}
    (htransport : transport = UDP ∨ transport = ICMPV6) {chain : List ExtensionHeader} {place : ℕ}
    (hchain : Holds ip place (chainBytes transport chain)) (frame : Frame) :
    sendExtensions ip (chain.length + 1) place (leading transport chain) frame =
      some (encode transport chain frame, transport) := by
  induction chain generalizing place frame with
  | nil =>
    have hstop : ¬ (transport ≠ UDP ∧ transport ≠ ICMPV6) := by tauto
    rw [sendExtensions, leading, if_neg hstop, encode]
  | cons header rest ih =>
    rw [chainBytes, holds_append, holds_cons, holds_cons] at hchain
    obtain ⟨⟨hnext, hlen, hcontent⟩, hrest⟩ := hchain
    have hsize : (leading transport rest :: header.len :: header.content).length = header.size := by
      simpa using header.length_content_add
    rw [hsize] at hrest
    have hread : read ip (place + 2) (contentLength header.len) = header.content :=
      hcontent.read_eq header.length_content.symm
    have hgo : (EH_HOHO : BitVec 8) ≠ UDP ∧ EH_HOHO ≠ ICMPV6 := by decide
    rw [List.length_cons, sendExtensions, leading, if_pos hgo, setEHHeader_eq, hlen, hnext, hread,
      IPv6Packet.extensionSize, hlen, encode]
    exact ih hrest _

theorem encode_cons (transport : BitVec 8) (header : ExtensionHeader)
    (rest : List ExtensionHeader) (frame : Frame) :
    encode transport (header :: rest) frame =
      encode transport rest
        (compressed (leading transport rest) header.len header.content frame) :=
  rfl

theorem actualShift_encode (transport : BitVec 8) (chain : List ExtensionHeader) (frame : Frame) :
    (encode transport chain frame).actualShift =
      frame.actualShift + chainSize chain +
        if chain ≠ [] ∧ transport = ICMPV6 then 1 else 0 := by
  induction chain generalizing frame with
  | nil => simp [encode]
  | cons header rest ih =>
    rw [encode_cons, ih, actualShift_compressed, compressedSize, chainSize_cons]
    simp only [leading_eq_icmpv6_iff]
    cases rest with
    | nil => simp [Nat.add_assoc]
    | cons next rest => simp [Nat.add_assoc]

/-! ## What a misplaced dispatch byte can hit -/

theorem compressed_buffer (nextHeader : BitVec 8) (header : ExtensionHeader) (frame : Frame) :
    (compressed nextHeader header.len header.content frame).buffer =
      write
        (Function.update frame.buffer (frame.actualShift % 2 ^ 8)
          (if nextHeader = ICMPV6 then 0xE0 else 0xE1))
        (frame.actualShift + 1) (compressedTail nextHeader header.len header.content) :=
  rfl

theorem compressed_below (nextHeader : BitVec 8) (header : ExtensionHeader) (frame : Frame) {i : ℕ}
    (hi : i ≤ frame.actualShift) (hne : i ≠ frame.actualShift % 2 ^ 8) :
    (compressed nextHeader header.len header.content frame).buffer i = frame.buffer i := by
  rw [compressed_buffer, write_below (by omega), Function.update_of_ne hne]

/-- Offsets before the position stay if they are 256 or more, or have another
remainder modulo 8. -/
theorem encode_below (transport : BitVec 8) (chain : List ExtensionHeader) (frame : Frame) {i : ℕ}
    (hi : i < frame.actualShift) (haway : 2 ^ 8 ≤ i ∨ i % 8 ≠ frame.actualShift % 8) :
    (encode transport chain frame).buffer i = frame.buffer i := by
  induction chain generalizing frame with
  | nil => rfl
  | cons header rest ih =>
    rw [encode_cons]
    by_cases hlast : leading transport rest = ICMPV6
    · obtain ⟨rfl, -⟩ := leading_eq_icmpv6_iff.mp hlast
      exact compressed_below _ _ _ hi.le (by omega)
    · have hshift := actualShift_compressed (leading transport rest) header frame
      rw [compressedSize, if_neg hlast, ExtensionHeader.size] at hshift
      rw [ih _ (by omega) (by omega)]
      exact compressed_below _ _ _ hi.le (by omega)

/-- A dispatch byte. -/
def IsDispatch (b : BitVec 8) : Prop :=
  b = 0xE0 ∨ b = 0xE1

/-- What changes before the position becomes a dispatch byte. -/
theorem encode_dispatch (transport : BitVec 8) (chain : List ExtensionHeader) (frame : Frame)
    {i : ℕ} (hi : i < frame.actualShift) :
    (encode transport chain frame).buffer i = frame.buffer i ∨
      IsDispatch ((encode transport chain frame).buffer i) := by
  induction chain generalizing frame with
  | nil => exact .inl rfl
  | cons header rest ih =>
    rw [encode_cons]
    have hshift := actualShift_compressed (leading transport rest) header frame
    rcases ih (compressed (leading transport rest) header.len header.content frame) (by omega) with
      hsame | hdispatch
    · rw [hsame]
      by_cases hhere : i = frame.actualShift % 2 ^ 8
      · right
        rw [compressed_buffer, write_below (by omega), hhere, Function.update_self, IsDispatch]
        split <;> simp
      · exact .inl (compressed_below _ _ _ hi.le hhere)
    · exact .inr hdispatch

/-- What lies behind the chain is not changed from 256 on. -/
theorem encode_behind (transport : BitVec 8) (chain : List ExtensionHeader) (frame : Frame) {i : ℕ}
    (hi : (encode transport chain frame).actualShift ≤ i) (hhigh : 2 ^ 8 ≤ i) :
    (encode transport chain frame).buffer i = frame.buffer i := by
  induction chain generalizing frame with
  | nil => rfl
  | cons header rest ih =>
    rw [encode_cons] at hi ⊢
    rw [ih _ hi]
    have hend := actualShift_encode transport rest
      (compressed (leading transport rest) header.len header.content frame)
    have hcompressed : (compressed (leading transport rest) header.len header.content
        frame).actualShift ≤ i := by omega
    rw [compressed_buffer, write_above hcompressed, Function.update_of_ne (by omega)]

/-! ## What the frame holds in any case -/

/-- The length in the frame. -/
def frameLength (header : ExtensionHeader) : BitVec 8 :=
  BitVec.ofNat 8 (contentLength header.len)

/-- What the receiver can rely on: the dispatch byte of a header is none of a UDP
header, and it is missing from 256 on; the next header value that is carried and
the lengths are where they belong. -/
def Written (buffer : ℕ → BitVec 8) (transport : BitVec 8) : List ExtensionHeader → ℕ → Prop
  | [], _ => True
  | header :: rest, shift =>
      buffer shift >>> 3 ≠ 30#8 ∧
        if leading transport rest = ICMPV6 then
          buffer shift &&& 1 = 0 ∧ buffer (shift + 2) = frameLength header
        else
          (2 ^ 8 ≤ shift → buffer shift = 0) ∧ buffer (shift + 1) = frameLength header ∧
            Written buffer transport rest (shift + header.size)

theorem IsDispatch.ne_udp {b : BitVec 8} (hdispatch : IsDispatch b) : b >>> 3 ≠ 30#8 := by
  rcases hdispatch with rfl | rfl
  all_goals decide

theorem compressed_dispatch (nextHeader : BitVec 8) (header : ExtensionHeader) (frame : Frame)
    (hlow : frame.actualShift < 2 ^ 8) :
    (compressed nextHeader header.len header.content frame).buffer frame.actualShift =
      if nextHeader = ICMPV6 then 0xE0 else 0xE1 := by
  rw [compressed_buffer, write_below (by omega), Nat.mod_eq_of_lt hlow, Function.update_self]

theorem compressed_tail (nextHeader : BitVec 8) (header : ExtensionHeader) (frame : Frame) :
    Holds (compressed nextHeader header.len header.content frame).buffer (frame.actualShift + 1)
      (compressedTail nextHeader header.len header.content) :=
  holds_write

theorem encode_written {transport : BitVec 8} {chain : List ExtensionHeader} {frame : Frame}
    {buffer : ℕ → BitVec 8}
    (hzero : ∀ i, frame.actualShift ≤ i → i < (encode transport chain frame).actualShift →
      frame.buffer i = 0)
    (hsame : ∀ i < (encode transport chain frame).actualShift,
      buffer i = (encode transport chain frame).buffer i) :
    Written buffer transport chain frame.actualShift := by
  induction chain generalizing frame with
  | nil => trivial
  | cons header rest ih =>
    rw [encode_cons] at hzero hsame
    have hshift := actualShift_compressed (leading transport rest) header frame
    have hend := actualShift_encode transport rest
      (compressed (leading transport rest) header.len header.content frame)
    have htail := compressed_tail (leading transport rest) header frame
    have hsize := header.length_content_add
    have hgrow : frame.actualShift <
        (compressed (leading transport rest) header.len header.content frame).actualShift := by
      rw [hshift, compressedSize, ← hsize]
      omega
    have hhigh : 2 ^ 8 ≤ frame.actualShift → buffer frame.actualShift = 0 := by
      intro hhigh
      rw [hsame _ (by omega), encode_below _ _ _ hgrow (.inl hhigh),
        compressed_below _ _ _ le_rfl (by omega), hzero _ le_rfl (by omega)]
    have hlow : frame.actualShift < 2 ^ 8 → IsDispatch (buffer frame.actualShift) := by
      intro hlow
      rw [hsame _ (by omega)]
      rcases encode_dispatch transport rest _ hgrow with hkept | hdispatch
      · rw [hkept, compressed_dispatch _ _ _ hlow, IsDispatch]
        split <;> simp
      · exact hdispatch
    refine ⟨?_, ?_⟩
    · rcases lt_or_ge frame.actualShift (2 ^ 8) with hlt | hge
      · exact (hlow hlt).ne_udp
      · rw [hhigh hge]
        decide
    split
    · rename_i hlast
      obtain ⟨rfl, -⟩ := leading_eq_icmpv6_iff.mp hlast
      rw [compressedTail, if_pos hlast, List.singleton_append, holds_cons, holds_cons] at htail
      refine ⟨?_, (hsame _ (by rw [hend, hshift, compressedSize, if_pos hlast]; omega)).trans htail.2.1⟩
      rcases lt_or_ge frame.actualShift (2 ^ 8) with hlt | hge
      · rw [hsame _ (by omega), encode, compressed_dispatch _ _ _ hlt, if_pos hlast]
        decide
      · rw [hhigh hge]
        decide
    · rename_i hnext
      rw [compressedTail, if_neg hnext, List.nil_append, holds_cons] at htail
      rw [compressedSize, if_neg hnext, Nat.add_zero] at hshift
      refine ⟨hhigh, ?_, ?_⟩
      · have hmod : (frame.actualShift + 1) % 8 ≠
            (frame.actualShift + header.size) % 8 := by
          rw [ExtensionHeader.size]
          omega
        rw [hsame _ (by omega), encode_below _ _ _ (by omega) (.inr (by rwa [hshift])), htail.1,
          frameLength]
      · rw [← hshift]
        refine ih (fun i hi hlt => ?_) hsame
        rw [compressed_buffer, write_above hi, Function.update_of_ne (by omega)]
        exact hzero i (by omega) hlt

/-! ## What the receiver does not take back -/

/-- A byte of the packet stays, or the number of UDP is written there at the end. -/
theorem uncompressExtensions_keeps {buffer : ℕ → BitVec 8} {fuel : ℕ} {state final : Uncompressed}
    (hrun : uncompressExtensions buffer fuel state = some final)
    (hroom : state.nextHeaderShift + (final.actualShift - state.actualShift) < 2 ^ 16) {i : ℕ}
    (hi : i < state.nextHeaderShift) :
    final.packet.buffer (payloadPos + i) = state.packet.buffer (payloadPos + i) ∨
      final.packet.buffer (payloadPos + i) = UDP := by
  induction fuel generalizing state with
  | zero => exact absurd hrun (by simp [uncompressExtensions])
  | succ fuel ih =>
    have hnamed := @named_buffer buffer state (payloadPos + i) (Nat.le_add_right _ _)
    rcases nhMode_cases (buffer state.actualShift) with hmode | hmode
    · obtain ⟨hdone, hactual, -⟩ := uncompressEH_carried_shifts buffer state hmode rfl
      rw [uncompressExtensions_done fuel hdone] at hrun
      obtain rfl := Option.some.inj hrun
      rw [uncompressEH_carried buffer state hmode rfl (by omega)]
      exact .inl ((write_below (by omega)).trans hnamed)
    · obtain ⟨-, hactual, -⟩ := uncompressEH_elided_shifts buffer state hmode rfl
      set count := (buffer (state.actualShift + 1)).toNat with hcount
      have hlast := actualShift_uncompressEH_le hrun
      by_cases hudp : buffer (state.actualShift + 2 + count) >>> 3 = 30#8
      · have hcall := uncompressEH_udp buffer state hmode hcount.symm (by omega) hudp
        rw [uncompressExtensions_done fuel (by rw [hcall])] at hrun
        obtain rfl := Option.some.inj hrun
        rw [hcall]
        simp only
        by_cases hhere : i = state.nextHeaderShift % 2 ^ 8
        · rw [hhere]
          exact .inr (Function.update_self _ _ _)
        · rw [Function.update_of_ne (by omega)]
          exact .inl ((write_below (by omega)).trans hnamed)
      · have hcall := uncompressEH_more buffer state hmode hcount.symm (by omega) hudp
        rw [uncompressExtensions_more fuel (by rw [hcall])] at hrun
        refine (ih hrun (by rw [hcall]; simp only; omega) (by rw [hcall]; simp only; omega)).imp_left
          fun hkept => ?_
        rw [hkept, hcall]
        exact (write_below (by omega)).trans hnamed

/-! ## In front of ICMPv6 -/

/-- In a frame with the first header at `start`: each header of the chain from
`place` on is at most 256 bytes long, starts in the first 256 bytes of the chain
and, unless it is the last one, in the first 256 bytes of the frame. -/
def Narrow (start : ℕ) : List ExtensionHeader → ℕ → Prop
  | [], _ => True
  | header :: rest, place =>
      header.len.toNat < 32 ∧ place < 2 ^ 8 ∧ (rest ≠ [] → start + place < 2 ^ 8) ∧
        Narrow start rest (place + header.size)

theorem toNat_frameLength (header : ExtensionHeader) :
    (frameLength header).toNat = (header.size - 2) % 2 ^ 8 := by
  rw [frameLength, BitVec.toNat_ofNat, contentLength, ExtensionHeader.size]

theorem toNat_lengthByte_lt {count : ℕ} (hcount : count < 2 ^ 8) (hpos : 6 ≤ count) :
    (lengthByte count).toNat < 32 := by
  have hone : (1 : BitVec 8).toNat = 1 := rfl
  rw [lengthByte, BitVec.toNat_sub, BitVec.toNat_ofNat, hone]
  omega

/-- The receiver in front of a header, in a run that ends with the chain in the packet. -/
structure Arriving (header : ExtensionHeader) (rest : List ExtensionHeader)
    (buffer : ℕ → BitVec 8) (fuel : ℕ) (state final : Uncompressed) : Prop where
  written : Written buffer ICMPV6 (header :: rest) state.actualShift
  ehLen : state.ehLen = state.nextHeaderShift
  room : state.nextHeaderShift + (header.size + chainSize rest) < 2 ^ 12
  run : uncompressExtensions buffer (fuel + 1) state = some final
  finish : final.actualShift = state.actualShift + (header.size + chainSize rest) + 1
  finishLen : final.ehLen = state.nextHeaderShift + (header.size + chainSize rest)
  holds : Holds final.packet.buffer (payloadPos + state.nextHeaderShift)
    (chainBytes ICMPV6 (header :: rest))

section Arriving

variable {header : ExtensionHeader} {rest : List ExtensionHeader} {buffer : ℕ → BitVec 8}
  {fuel : ℕ} {state final : Uncompressed}

theorem Arriving.parts (harriving : Arriving header rest buffer fuel state final) :
    final.packet.buffer (payloadPos + state.nextHeaderShift) = leading ICMPV6 rest ∧
      final.packet.buffer (payloadPos + state.nextHeaderShift + 1) = header.len ∧
      Holds final.packet.buffer (payloadPos + state.nextHeaderShift + header.size)
        (chainBytes ICMPV6 rest) := by
  have hholds := harriving.holds
  have hlength : (leading ICMPV6 rest :: header.len :: header.content).length = header.size := by
    simpa using header.length_content_add
  rw [chainBytes, holds_append, holds_cons, holds_cons, hlength] at hholds
  obtain ⟨⟨hnextByte, hlenByte, -⟩, hrest⟩ := hholds
  exact ⟨hnextByte, hlenByte, hrest⟩

theorem Arriving.last (harriving : Arriving header [] buffer fuel state final) :
    header.len.toNat < 32 ∧ state.nextHeaderShift < 2 ^ 8 := by
  obtain ⟨⟨-, hbytes⟩, hlen, hroom, hrun, hend, hendLen, -⟩ := harriving
  have hsize : header.size = (header.len.toNat + 1) * 8 := rfl
  have hlast : leading ICMPV6 [] = ICMPV6 := rfl
  rw [if_pos hlast] at hbytes
  obtain ⟨hmode, hcountByte⟩ := hbytes
  have hcount := toNat_frameLength header
  rw [← hcountByte] at hcount
  have hcall := uncompressEH_carried buffer state hmode hcount (by omega)
  rw [uncompressExtensions_done fuel (by rw [hcall])] at hrun
  obtain rfl := Option.some.inj hrun
  rw [hcall] at hend hendLen
  simp only [chainSize_nil] at hend hendLen
  exact ⟨by omega, by omega⟩

/-- In front of another header the length would be taken for the next header value, if
the receiver took one from the frame. -/
theorem Arriving.mode (harriving : Arriving header rest buffer fuel state final)
    (hne : rest ≠ []) : buffer state.actualShift &&& 1 = 1 := by
  refine (nhMode_cases (buffer state.actualShift)).resolve_left fun hmode => ?_
  obtain ⟨hnextByte, -, -⟩ := harriving.parts
  obtain ⟨⟨-, hbytes⟩, hlen, hroom, hrun, -, -, -⟩ := harriving
  have hsize : header.size = (header.len.toNat + 1) * 8 := rfl
  have hlenLt := header.len.isLt
  rw [if_neg fun hicmp => hne (leading_eq_icmpv6_iff.mp hicmp).1] at hbytes
  obtain ⟨-, hcountByte, -⟩ := hbytes
  have hcount := toNat_frameLength header
  have hother := (buffer (state.actualShift + 2)).isLt
  have hcall := uncompressEH_carried buffer state hmode rfl (by omega)
  rw [uncompressExtensions_done fuel (by rw [hcall])] at hrun
  obtain rfl := Option.some.inj hrun
  rw [hcall, leading_of_ne hne] at hnextByte
  rw [← hcountByte, (write_cons_self _ _ _ _).symm.trans hnextByte] at hcount
  have hzero : (EH_HOHO : BitVec 8).toNat = 0 := rfl
  omega

theorem Arriving.elided (harriving : Arriving header rest buffer fuel state final)
    (hne : rest ≠ []) :
    state.actualShift < 2 ^ 8 ∧
      (buffer (state.actualShift + 1)).toNat = (header.size - 2) % 2 ^ 8 ∧
      Written buffer ICMPV6 rest (state.actualShift + header.size) := by
  have hmode := harriving.mode hne
  obtain ⟨-, hbytes⟩ := harriving.written
  rw [if_neg fun hicmp => hne (leading_eq_icmpv6_iff.mp hicmp).1] at hbytes
  obtain ⟨hhigh, hcountByte, hwritten⟩ := hbytes
  refine ⟨?_, hcountByte ▸ toNat_frameLength header, hwritten⟩
  by_contra hge
  rw [hhigh (by omega)] at hmode
  exact absurd hmode (by decide)

/-- It does not look like the header in front of UDP: the receiver would stop before
the end. -/
theorem Arriving.call (harriving : Arriving header rest buffer fuel state final)
    (hne : rest ≠ []) :
    uncompressEH buffer state =
      (true,
        { packet := { named buffer state with
            buffer := copiedHeader buffer state ((header.size - 2) % 2 ^ 8) }
          nextHeaderShift := state.nextHeaderShift + 2 + (header.size - 2) % 2 ^ 8
          ehLen := (state.ehLen + 2 ^ 16 + (state.nextHeaderShift + 2 + (header.size - 2) % 2 ^ 8) -
            state.nextHeaderShift % 2 ^ 8) % 2 ^ 16
          isUdp := state.isUdp
          actualShift := state.actualShift + 2 + (header.size - 2) % 2 ^ 8 }) := by
  have hmode := harriving.mode hne
  obtain ⟨-, hcount, -⟩ := harriving.elided hne
  have hsize : header.size = (header.len.toNat + 1) * 8 := rfl
  have hroom := harriving.room
  refine uncompressEH_more buffer state hmode hcount (by omega) fun hudp => ?_
  have hcall := uncompressEH_udp buffer state hmode hcount (by omega) hudp
  have hrun := harriving.run
  rw [uncompressExtensions_done fuel (by rw [hcall])] at hrun
  obtain rfl := Option.some.inj hrun
  have hend := harriving.finish
  rw [hcall] at hend
  simp only at hend
  omega

/-- The length in the packet is less than 32, and so is the number of UDP. -/
theorem Arriving.short (harriving : Arriving header rest buffer fuel state final)
    (hne : rest ≠ []) : header.len.toNat < 32 := by
  have hcall := harriving.call hne
  have hsize : header.size = (header.len.toNat + 1) * 8 := rfl
  have hroom := harriving.room
  have hend := harriving.finish
  have hrun := harriving.run
  obtain ⟨-, hlenByte, -⟩ := harriving.parts
  rw [uncompressExtensions_more fuel (by rw [hcall])] at hrun
  have hstep := (uncompressExtensions_shifts hrun).1
  rw [hcall] at hrun hstep
  simp only at hrun hstep
  have hlt : (header.size - 2) % 2 ^ 8 < 2 ^ 8 := Nat.mod_lt _ (by decide)
  rcases uncompressExtensions_keeps hrun (by simp only; omega)
    (show state.nextHeaderShift + 1 < _ by simp only; omega) with hkept | hudpByte
  · rw [← hlenByte, Nat.add_assoc, hkept.trans (copiedHeader_length buffer state _)]
    exact toNat_lengthByte_lt hlt (by omega)
  · rw [← hlenByte, Nat.add_assoc, hudpByte]
    decide

end Arriving

/-- The receiver stays in step with headers that come out right. -/
theorem narrow_of_decoded {buffer : ℕ → BitVec 8} {fuel start place : ℕ}
    {chain : List ExtensionHeader} {state final : Uncompressed}
    (hwritten : Written buffer ICMPV6 chain state.actualShift) (hne : chain ≠ [])
    (hactual : state.actualShift = start + place) (hnext : state.nextHeaderShift = place)
    (hlen : state.ehLen = place) (hroom : place + chainSize chain < 2 ^ 12)
    (hrun : uncompressExtensions buffer fuel state = some final)
    (hend : final.actualShift = start + place + chainSize chain + 1)
    (hendLen : final.ehLen = place + chainSize chain)
    (hholds : Holds final.packet.buffer (payloadPos + place) (chainBytes ICMPV6 chain)) :
    Narrow start chain place := by
  induction chain generalizing fuel place state with
  | nil => exact absurd rfl hne
  | cons header rest ih =>
    subst hnext
    cases fuel with
    | zero => exact absurd hrun (by simp [uncompressExtensions])
    | succ fuel =>
    have hsize : header.size = (header.len.toNat + 1) * 8 := rfl
    rw [chainSize_cons] at hroom hend hendLen
    have harriving : Arriving header rest buffer fuel state final :=
      ⟨hwritten, hlen, hroom, hrun, by omega, hendLen, hholds⟩
    by_cases hempty : rest = []
    · subst hempty
      obtain ⟨hshort, hplace⟩ := harriving.last
      exact ⟨hshort, hplace, fun hnot => absurd rfl hnot, trivial⟩
    · obtain ⟨hlow, -, hrestWritten⟩ := harriving.elided hempty
      have hshort := harriving.short hempty
      have hcall := harriving.call hempty
      obtain ⟨-, -, hrest⟩ := harriving.parts
      refine ⟨hshort, by omega, fun _ => by omega, ?_⟩
      rw [uncompressExtensions_more fuel (by rw [hcall]), hcall,
        show (header.size - 2) % 2 ^ 8 = header.size - 2 by omega] at hrun
      refine ih ?_ hempty ?_ ?_ ?_ (by omega) hrun (by omega) (by omega) ?_
      · simp only
        rwa [show state.actualShift + 2 + (header.size - 2) = state.actualShift + header.size
          by omega]
      · simp only
        omega
      · simp only
        omega
      · simp only
        omega
      · rwa [← Nat.add_assoc]

/-! ## What the frame holds under the condition -/

/-- The compressed chain lies in the frame.  The dispatch byte of the last header
may be missing in front of ICMPv6: the receiver takes a zero for it. -/
def Encoded (buffer : ℕ → BitVec 8) (transport : BitVec 8) : List ExtensionHeader → ℕ → Prop
  | [], _ => True
  | header :: rest, shift =>
      (if leading transport rest = ICMPV6 then buffer shift = 0xE0 ∨ buffer shift = 0
        else buffer shift = 0xE1) ∧
      Holds buffer (shift + 1)
        (compressedTail (leading transport rest) header.len header.content) ∧
      Encoded buffer transport rest
        (shift + compressedSize (leading transport rest) header)

theorem compressed_kept {start place : ℕ} (nextHeader : BitVec 8) (header : ExtensionHeader)
    {frame : Frame} (hactual : frame.actualShift = start + place) (hplace : place < 2 ^ 8) {i : ℕ}
    (hi : start ≤ i) (hlt : i < frame.actualShift) :
    (compressed nextHeader header.len header.content frame).buffer i = frame.buffer i :=
  compressed_below _ _ _ hlt.le (by omega)

theorem encode_kept {start place : ℕ} {transport : BitVec 8} {chain : List ExtensionHeader}
    {frame : Frame} (hnarrow : Narrow start chain place)
    (hactual : frame.actualShift = start + place) {i : ℕ} (hi : start ≤ i)
    (hlt : i < frame.actualShift) :
    (encode transport chain frame).buffer i = frame.buffer i := by
  induction chain generalizing frame place with
  | nil => rfl
  | cons header rest ih =>
    obtain ⟨-, hplace, -, hrest⟩ := hnarrow
    rw [encode_cons]
    have hshift := actualShift_compressed (leading transport rest) header frame
    by_cases hlast : leading transport rest = ICMPV6
    · obtain ⟨rfl, -⟩ := leading_eq_icmpv6_iff.mp hlast
      exact compressed_kept _ _ hactual hplace hi hlt
    · rw [compressedSize, if_neg hlast] at hshift
      rw [ih hrest (by omega) (by omega)]
      exact compressed_kept _ _ hactual hplace hi hlt

theorem encode_encoded {start place : ℕ} {transport : BitVec 8}
    (htransport : transport = UDP ∨ transport = ICMPV6) {chain : List ExtensionHeader}
    {frame : Frame} {buffer : ℕ → BitVec 8} (hnarrow : Narrow start chain place)
    (hactual : frame.actualShift = start + place)
    (hudp : transport = UDP → start + place + chainSize chain < 2 ^ 8)
    (hzero : ∀ i, frame.actualShift ≤ i → i < (encode transport chain frame).actualShift →
      frame.buffer i = 0)
    (hsame : ∀ i < (encode transport chain frame).actualShift, start ≤ i →
      buffer i = (encode transport chain frame).buffer i) :
    Encoded buffer transport chain frame.actualShift := by
  induction chain generalizing frame place with
  | nil => trivial
  | cons header rest ih =>
    obtain ⟨-, hplace, hlow, hrest⟩ := hnarrow
    rw [encode_cons] at hzero hsame
    have hshift := actualShift_compressed (leading transport rest) header frame
    have hend := actualShift_encode transport rest
      (compressed (leading transport rest) header.len header.content frame)
    have htail := compressed_tail (leading transport rest) header frame
    have hlength : frame.actualShift + 1 +
          (compressedTail (leading transport rest) header.len header.content).length =
        (compressed (leading transport rest) header.len header.content frame).actualShift := rfl
    by_cases hlast : leading transport rest = ICMPV6
    · obtain ⟨rfl, -⟩ := leading_eq_icmpv6_iff.mp hlast
      refine ⟨?_, htail.congr fun i hi hlt => hsame i (by omega) (by omega), trivial⟩
      rw [if_pos hlast, hsame _ (by omega) (by omega), encode]
      rcases lt_or_ge frame.actualShift (2 ^ 8) with hlt | hge
      · rw [compressed_dispatch _ _ _ hlt, if_pos hlast]
        exact .inl rfl
      · rw [compressed_below _ _ _ le_rfl (by omega)]
        exact .inr (hzero _ le_rfl (by omega))
    · have hact : frame.actualShift < 2 ^ 8 := by
        rw [hactual]
        by_cases hempty : rest = []
        · -- Without a header behind it, it is the one in front of UDP.
          have hudpTransport : transport = UDP := by
            refine htransport.resolve_right fun hicmp => hlast ?_
            exact leading_eq_icmpv6_iff.mpr ⟨hempty, hicmp⟩
          have := hudp hudpTransport
          rw [chainSize_cons] at this
          omega
        · exact hlow hempty
      rw [compressedSize, if_neg hlast, Nat.add_zero] at hshift
      have hkept : ∀ i, start ≤ i →
          i < (compressed (leading transport rest) header.len header.content frame).actualShift →
          buffer i =
            (compressed (leading transport rest) header.len header.content frame).buffer i := by
        intro i hi hlt
        rw [hsame i (by omega) hi, encode_kept hrest (by omega) hi hlt]
      refine ⟨?_, htail.congr fun i hi hlt => hkept i (by omega) (by omega), ?_⟩
      · rw [if_neg hlast, hkept _ (by omega) (by omega), compressed_dispatch _ _ _ hact,
          if_neg hlast]
      · rw [compressedSize, if_neg hlast, Nat.add_zero, ← hshift]
        refine ih hrest (by omega) (fun htr => ?_) (fun i hi hlt => ?_) hsame
        · have := hudp htr
          rw [chainSize_cons] at this
          omega
        · rw [compressed_buffer, write_above (by omega), Function.update_of_ne (by omega)]
          exact hzero i (by omega) hlt

/-- A header has the dispatch byte of an extension header, or a zero for it. -/
theorem Encoded.ne_udp {buffer : ℕ → BitVec 8} {transport : BitVec 8}
    {chain : List ExtensionHeader} {shift : ℕ} (hencoded : Encoded buffer transport chain shift)
    (hne : chain ≠ []) : buffer shift >>> 3 ≠ 30#8 := by
  cases chain with
  | nil => exact absurd rfl hne
  | cons header rest =>
    obtain ⟨hbyte, -⟩ := hencoded
    split at hbyte
    · rcases hbyte with hbyte | hbyte
      all_goals
        rw [hbyte]
        decide
    · rw [hbyte]
      decide

/-! ## What the receiver makes of it -/

theorem lengthByte_size (header : ExtensionHeader) : lengthByte (header.size - 2) = header.len := by
  have hlen := header.len.isLt
  have hone : (1 : BitVec 8).toNat = 1 := rfl
  apply BitVec.eq_of_toNat_eq
  rw [lengthByte, BitVec.toNat_sub, BitVec.toNat_ofNat, hone, ExtensionHeader.size]
  omega

/-- What the loop of `receive` leaves of a chain. -/
structure Decoded (transport : BitVec 8) (chain : List ExtensionHeader) (place : ℕ)
    (state final : Uncompressed) : Prop where
  holds : Holds final.packet.buffer (payloadPos + place) (chainBytes transport chain)
  kept : ∀ i < place, final.packet.buffer (payloadPos + i) = state.packet.buffer (payloadPos + i)
  ehLen : final.ehLen = place + chainSize chain
  actualShift : final.actualShift =
    state.actualShift + chainSize chain + if transport = ICMPV6 then 1 else 0

/-- The first header of what the receiver still has to take apart. -/
structure Pending (transport : BitVec 8) (header : ExtensionHeader) (rest : List ExtensionHeader)
    (buffer : ℕ → BitVec 8) (state : Uncompressed) : Prop where
  encoded : Encoded buffer transport (header :: rest) state.actualShift
  short : header.len.toNat < 32
  place : state.nextHeaderShift < 2 ^ 8
  ehLen : state.ehLen = state.nextHeaderShift
  room : state.nextHeaderShift + header.size < 2 ^ 12

section Pending

variable {transport : BitVec 8} {header : ExtensionHeader} {rest : List ExtensionHeader}
  {buffer : ℕ → BitVec 8} {state : Uncompressed}

theorem toNat_frameLength_of_lt (hshort : header.len.toNat < 32) :
    (frameLength header).toNat = header.size - 2 := by
  have hsize : header.size = (header.len.toNat + 1) * 8 := rfl
  rw [toNat_frameLength]
  omega

theorem Pending.decoded_icmpv6 (hpending : Pending ICMPV6 header [] buffer state) :
    (uncompressEH buffer state).1 = false ∧
      Decoded ICMPV6 [header] state.nextHeaderShift state (uncompressEH buffer state).2 := by
  obtain ⟨⟨hdispatch, htail, -⟩, hshort, hplace, hlen, hroom⟩ := hpending
  have hsize : header.size = (header.len.toNat + 1) * 8 := rfl
  have hcontent := header.length_content_add
  have hlast : leading ICMPV6 [] = ICMPV6 := rfl
  rw [if_pos hlast] at hdispatch
  rw [compressedTail, if_pos hlast, List.singleton_append, holds_cons, holds_cons] at htail
  obtain ⟨hnextByte, hlenByte, hbytes⟩ := htail
  have hmode : buffer state.actualShift &&& 1 = 0 := by
    rcases hdispatch with hbyte | hbyte
    all_goals
      rw [hbyte]
      decide
  have hcountByte := (congrArg BitVec.toNat hlenByte).trans (toNat_frameLength_of_lt hshort)
  rw [uncompressEH_carried buffer state hmode hcountByte (by omega), hnextByte, lengthByte_size,
    hbytes.read_eq (by omega)]
  refine ⟨rfl, ?_⟩
  constructor
  · rw [chainBytes, chainBytes, List.append_nil, hlast]
    exact holds_write
  · exact fun i hi => (write_below (by omega)).trans (named_buffer _ _ (Nat.le_add_right _ _))
  · simp only [chainSize_cons, chainSize_nil]
    omega
  · simp only [chainSize_cons, chainSize_nil, if_true]
    omega

theorem Pending.mode (hpending : Pending transport header rest buffer state)
    (hnext : leading transport rest ≠ ICMPV6) : buffer state.actualShift &&& 1 = 1 := by
  obtain ⟨hdispatch, -⟩ := hpending.encoded
  rw [if_neg hnext] at hdispatch
  rw [hdispatch]
  decide

theorem Pending.tail (hpending : Pending transport header rest buffer state)
    (hnext : leading transport rest ≠ ICMPV6) :
    (buffer (state.actualShift + 1)).toNat = header.size - 2 ∧
      Holds buffer (state.actualShift + 2) header.content := by
  obtain ⟨-, htail, -⟩ := hpending.encoded
  rw [compressedTail, if_neg hnext, List.nil_append, holds_cons] at htail
  obtain ⟨hlenByte, hbytes⟩ := htail
  exact ⟨(congrArg BitVec.toNat hlenByte).trans (toNat_frameLength_of_lt hpending.short), hbytes⟩

/-- Its length and its content are copied behind the place of the value. -/
theorem Pending.copiedHeader_eq (hpending : Pending transport header rest buffer state)
    (hnext : leading transport rest ≠ ICMPV6) :
    copiedHeader buffer state (header.size - 2) =
      write (named buffer state).buffer (payloadPos + (state.nextHeaderShift + 1))
        (header.len :: header.content) := by
  have hcontent := header.length_content_add
  rw [copiedHeader, lengthByte_size, (hpending.tail hnext).2.read_eq (by omega)]

theorem Pending.copiedHeader_kept (hpending : Pending transport header rest buffer state)
    (hnext : leading transport rest ≠ ICMPV6) {i : ℕ} (hi : i < state.nextHeaderShift + 1) :
    copiedHeader buffer state (header.size - 2) (payloadPos + i) =
      state.packet.buffer (payloadPos + i) := by
  rw [hpending.copiedHeader_eq hnext, write_below (by omega),
    named_buffer _ _ (Nat.le_add_right _ _)]

theorem Pending.decoded_udp (hpending : Pending UDP header [] buffer state)
    (hudp : buffer (state.actualShift + header.size) >>> 3 = 30#8) :
    (uncompressEH buffer state).1 = false ∧
      Decoded UDP [header] state.nextHeaderShift state (uncompressEH buffer state).2 := by
  have hsize : header.size = (header.len.toNat + 1) * 8 := rfl
  have hroom := hpending.room
  have hlen := hpending.ehLen
  have hplace := hpending.place
  have hnext : leading UDP [] ≠ ICMPV6 := by decide
  have hstop : buffer (state.actualShift + 2 + (header.size - 2)) >>> 3 = 30#8 := by
    rwa [show state.actualShift + 2 + (header.size - 2) = state.actualShift + header.size by omega]
  rw [uncompressEH_udp buffer state (hpending.mode hnext) (hpending.tail hnext).1 (by omega) hstop,
    Nat.mod_eq_of_lt hplace]
  refine ⟨rfl, ?_⟩
  constructor
  · rw [chainBytes, chainBytes, List.append_nil, leading, holds_cons]
    refine ⟨Function.update_self _ _ _, ?_⟩
    have hwritten : Holds (copiedHeader buffer state (header.size - 2))
        (payloadPos + (state.nextHeaderShift + 1)) (header.len :: header.content) :=
      hpending.copiedHeader_eq hnext ▸ holds_write
    exact hwritten.congr fun i hi _ => Function.update_of_ne (by omega) _ _
  · intro i hi
    exact (Function.update_of_ne (by omega) _ _).trans
      (hpending.copiedHeader_kept hnext (by omega))
  · simp only [chainSize_cons, chainSize_nil]
    omega
  · simp only [chainSize_cons, chainSize_nil, show ¬ (UDP : BitVec 8) = ICMPV6 by decide, if_false]
    omega

/-- The receiver behind a header with another one behind it. -/
structure Passed (header : ExtensionHeader) (buffer : ℕ → BitVec 8) (state next : Uncompressed) :
    Prop where
  actualShift : next.actualShift = state.actualShift + header.size
  nextHeaderShift : next.nextHeaderShift = state.nextHeaderShift + header.size
  ehLen : next.ehLen = state.nextHeaderShift + header.size
  copied : next.packet.buffer = copiedHeader buffer state (header.size - 2)

theorem Pending.passed (hpending : Pending transport header rest buffer state)
    (hnext : leading transport rest ≠ ICMPV6) (hne : rest ≠ []) :
    (uncompressEH buffer state).1 = true ∧
      Passed header buffer state (uncompressEH buffer state).2 := by
  have hsize : header.size = (header.len.toNat + 1) * 8 := rfl
  have hroom := hpending.room
  have hlen := hpending.ehLen
  have hplace := hpending.place
  obtain ⟨-, -, hrest⟩ := hpending.encoded
  rw [compressedSize, if_neg hnext, Nat.add_zero] at hrest
  have hshift : state.actualShift + 2 + (header.size - 2) = state.actualShift + header.size := by
    omega
  have hother : buffer (state.actualShift + 2 + (header.size - 2)) >>> 3 ≠ 30#8 := by
    rw [hshift]
    exact hrest.ne_udp hne
  rw [uncompressEH_more buffer state (hpending.mode hnext) (hpending.tail hnext).1 (by omega) hother]
  refine ⟨rfl, ?_⟩
  constructor
  · exact hshift
  · simp only
    omega
  · simp only
    omega
  · rfl

/-- What the rest of the loop leaves of the rest of the chain, it leaves of the chain. -/
theorem Pending.decoded_cons (hpending : Pending transport header rest buffer state)
    (hnext : leading transport rest ≠ ICMPV6) (hne : rest ≠ [])
    (hzero : state.packet.buffer (payloadPos + state.nextHeaderShift) = 0)
    {next final : Uncompressed} (hpassed : Passed header buffer state next)
    (hdecoded : Decoded transport rest (state.nextHeaderShift + header.size) next final) :
    Decoded transport (header :: rest) state.nextHeaderShift state final := by
  have hsize : header.size = (header.len.toNat + 1) * 8 := rfl
  have hkeep := hdecoded.kept
  rw [hpassed.copied] at hkeep
  have hlength : (leading transport rest :: header.len :: header.content).length =
      header.size := by
    simpa using header.length_content_add
  constructor
  · rw [chainBytes, holds_append, hlength]
    refine ⟨?_, by rw [Nat.add_assoc]; exact hdecoded.holds⟩
    -- The next header value is the zero that was there.
    have hfirst : copiedHeader buffer state (header.size - 2)
        (payloadPos + state.nextHeaderShift) = leading transport rest := by
      rw [hpending.copiedHeader_kept hnext (Nat.lt_succ_self _), hzero, leading_of_ne hne]
    have hwritten : Holds (copiedHeader buffer state (header.size - 2))
        (payloadPos + state.nextHeaderShift)
        (leading transport rest :: header.len :: header.content) :=
      holds_cons.mpr ⟨hfirst, hpending.copiedHeader_eq hnext ▸ holds_write⟩
    refine hwritten.congr fun i hi hlt => ?_
    obtain ⟨offset, rfl⟩ := Nat.exists_eq_add_of_le hi
    rw [Nat.add_assoc]
    exact hkeep _ (by omega)
  · intro i hi
    rw [hkeep i (by omega), hpending.copiedHeader_kept hnext (by omega)]
  · rw [hdecoded.ehLen, chainSize_cons, Nat.add_assoc]
  · rw [hdecoded.actualShift, hpassed.actualShift, chainSize_cons,
      Nat.add_assoc state.actualShift]

end Pending

theorem exists_decoded {buffer : ℕ → BitVec 8} {transport : BitVec 8} {start place : ℕ}
    (htransport : transport = UDP ∨ transport = ICMPV6) {chain : List ExtensionHeader}
    {state : Uncompressed} (hne : chain ≠ [])
    (hencoded : Encoded buffer transport chain state.actualShift)
    (hnarrow : Narrow start chain place) (hnext : state.nextHeaderShift = place)
    (hlen : state.ehLen = place) (hroom : place + chainSize chain < 2 ^ 12)
    (hfresh : ∀ i, place ≤ i → i < place + chainSize chain →
      state.packet.buffer (payloadPos + i) = 0)
    (hudp : transport = UDP → buffer (state.actualShift + chainSize chain) >>> 3 = 30#8) :
    ∃ fuel final, uncompressExtensions buffer fuel state = some final ∧
      Decoded transport chain place state final := by
  induction chain generalizing place state with
  | nil => exact absurd rfl hne
  | cons header rest ih =>
    subst hnext
    obtain ⟨hshort, hplace, -, hrestNarrow⟩ := hnarrow
    rw [chainSize_cons] at hroom hfresh hudp
    have hsize : header.size = (header.len.toNat + 1) * 8 := rfl
    have hpending : Pending transport header rest buffer state :=
      ⟨hencoded, hshort, hplace, hlen, by omega⟩
    by_cases hempty : rest = []
    · subst hempty
      rcases htransport with rfl | rfl
      · obtain ⟨hdone, hdecoded⟩ := hpending.decoded_udp (hudp rfl)
        exact ⟨1, _, uncompressExtensions_done 0 hdone, hdecoded⟩
      · obtain ⟨hdone, hdecoded⟩ := hpending.decoded_icmpv6
        exact ⟨1, _, uncompressExtensions_done 0 hdone, hdecoded⟩
    · have hother : leading transport rest ≠ ICMPV6 := fun hicmp =>
        hempty (leading_eq_icmpv6_iff.mp hicmp).1
      obtain ⟨hmore, hpassed⟩ := hpending.passed hother hempty
      obtain ⟨-, -, hrestEncoded⟩ := hencoded
      rw [compressedSize, if_neg hother, Nat.add_zero] at hrestEncoded
      have hcontent := header.length_content_add
      -- The rest of the place in the packet is as it was.
      have hrestFresh : ∀ i, state.nextHeaderShift + header.size ≤ i →
          i < state.nextHeaderShift + header.size + chainSize rest →
          (uncompressEH buffer state).2.packet.buffer (payloadPos + i) = 0 := by
        intro i hi hlt
        rw [hpassed.copied, hpending.copiedHeader_eq hother,
          write_above (by simp only [List.length_cons]; omega),
          named_buffer _ _ (Nat.le_add_right _ _)]
        exact hfresh i (by omega) (by omega)
      have hrestUdp : transport = UDP →
          buffer ((uncompressEH buffer state).2.actualShift + chainSize rest) >>> 3 = 30#8 := by
        intro htr
        rw [hpassed.actualShift, Nat.add_assoc]
        exact hudp htr
      obtain ⟨fuel, final, hrun, hdecoded⟩ :=
        ih hempty (hpassed.actualShift.symm ▸ hrestEncoded) hrestNarrow hpassed.nextHeaderShift
          hpassed.ehLen (by omega) hrestFresh hrestUdp
      exact ⟨fuel + 1, final, (uncompressExtensions_more fuel hmore).trans hrun,
        hpending.decoded_cons hother hempty (hfresh _ le_rfl (by omega)) hpassed hdecoded⟩

/-! ## The round trip -/

/-- The frame of a sender whose packet holds a chain, and the packet of the
receiver when the IPv6 header is uncompressed. -/
structure Transfer (transport : BitVec 8) (chain : List ExtensionHeader) (ip : IPv6Packet)
    (frame : Frame) (maxMessageLength : ℕ) (packet : IPv6Packet) : Prop where
  protocol : transport = UDP ∨ transport = ICMPV6
  holds : Holds ip.buffer payloadPos (chainBytes transport chain)
  nextHeader : ip.realNextHeader = leading transport chain
  inside : payloadPos + chainSize chain ≤ lowpanIpPacketBufferMaxSize
  reset : ∀ i, frame.actualShift ≤ i → i < maxMessageLength → frame.buffer i = 0
  fresh : ∀ i, payloadPos ≤ i → i < lowpanIpPacketBufferMaxSize → packet.buffer i = 0
  elided : packet.realNextHeader =
    if ip.realNextHeader = ICMPV6 then ICMPV6 else REAL_NH_NOT_SET

/-- The receiver ends with the chain in its packet, its size in `EH_LEN` and the
position behind what the sender wrote. -/
def RoundTrip (transport : BitVec 8) (chain : List ExtensionHeader) (buffer : ℕ → BitVec 8)
    (packet : IPv6Packet) (start finish : ℕ) : Prop :=
  ∃ fuel final, receiveHeaders fuel buffer packet start = some final ∧
    Holds final.packet.buffer payloadPos (chainBytes transport chain) ∧
    final.ehLen = (chainBytes transport chain).length ∧ final.actualShift = finish

/-- In front of UDP the chain ends in the first 256 bytes of the frame. -/
def Fits (transport : BitVec 8) (chain : List ExtensionHeader) (start : ℕ) : Prop :=
  if transport = UDP then start + chainSize chain < 2 ^ 8 else Narrow start chain 0

section Transfer

variable {transport : BitVec 8} {chain : List ExtensionHeader} {ip packet : IPv6Packet}
  {frame : Frame} {maxMessageLength : ℕ} {buffer : ℕ → BitVec 8}

/-- The receiver looks for headers unless the IPv6 header carries the number of ICMPv6. -/
theorem Transfer.notSet
    (htransfer : Transfer transport chain ip frame maxMessageLength packet)
    (hother : ¬ (chain = [] ∧ transport = ICMPV6)) : packet.realNextHeader = REAL_NH_NOT_SET := by
  rw [htransfer.elided, htransfer.nextHeader, if_neg (mt leading_eq_icmpv6_iff.mp hother)]

theorem receiveHeaders_extensions {start : ℕ} (hnotSet : packet.realNextHeader = REAL_NH_NOT_SET)
    (hother : buffer start >>> 3 ≠ 30#8) (fuel : ℕ) :
    receiveHeaders fuel buffer packet start =
      uncompressExtensions buffer fuel ⟨packet, 0, 0, false, start⟩ := by
  rw [receiveHeaders, if_pos hnotSet, nhcDispatch_eq]
  exact if_neg hother

theorem receiveHeaders_udp {start : ℕ} (hnotSet : packet.realNextHeader = REAL_NH_NOT_SET)
    (hudp : buffer start >>> 3 = 30#8) (fuel : ℕ) :
    receiveHeaders fuel buffer packet start =
      some ⟨packet.setRealNextHeader UDP, 0, 0, true, start⟩ := by
  rw [receiveHeaders, if_pos hnotSet, nhcDispatch_eq]
  exact if_pos hudp

theorem Transfer.roundTrip
    (htransfer : Transfer transport chain ip frame maxMessageLength packet) (hne : chain ≠ [])
    (hencoded : Encoded buffer transport chain frame.actualShift)
    (hnarrow : Narrow frame.actualShift chain 0)
    (hudp : transport = UDP → buffer (frame.actualShift + chainSize chain) >>> 3 = 30#8) :
    RoundTrip transport chain buffer packet frame.actualShift
      (frame.actualShift + chainSize chain + if transport = ICMPV6 then 1 else 0) := by
  have hinside := htransfer.inside
  have hnotSet := htransfer.notSet fun hboth => hne hboth.1
  obtain ⟨fuel, final, hrun, hdecoded⟩ :=
    @exists_decoded buffer transport _ 0 htransfer.protocol chain
      ⟨packet, 0, 0, false, frame.actualShift⟩ hne hencoded hnarrow rfl rfl
      (by simp only [payloadPos, lowpanIpPacketBufferMaxSize] at hinside; omega)
      (fun i _ hlt => htransfer.fresh _ (Nat.le_add_right _ _) (by omega)) hudp
  refine ⟨fuel, final, ?_, hdecoded.holds, ?_, hdecoded.actualShift⟩
  · rw [receiveHeaders_extensions hnotSet (hencoded.ne_udp hne), hrun]
  · rw [hdecoded.ehLen, length_chainBytes, Nat.zero_add]

theorem narrow_of_lt {start place : ℕ} (hlt : start + place + chainSize chain < 2 ^ 8) :
    Narrow start chain place := by
  induction chain generalizing place with
  | nil => trivial
  | cons header rest ih =>
    have hsize : header.size = (header.len.toNat + 1) * 8 := rfl
    rw [chainSize_cons] at hlt
    exact ⟨by omega, by omega, fun _ => by omega, ih (by omega)⟩

/-! ## In front of UDP -/

theorem roundTrip_iff_udp
    (htransfer : Transfer UDP chain ip frame maxMessageLength packet)
    (hfits : (setNHCHeader ip (encode UDP chain frame)).actualShift ≤ maxMessageLength)
    (hsame : ∀ i < (setNHCHeader ip (encode UDP chain frame)).actualShift,
      buffer i = (setNHCHeader ip (encode UDP chain frame)).buffer i) :
    RoundTrip UDP chain buffer packet frame.actualShift (encode UDP chain frame).actualShift ↔
      frame.actualShift + chainSize chain < 2 ^ 8 := by
  have hicmp : ¬ (UDP : BitVec 8) = ICMPV6 := by decide
  have hend := actualShift_encode UDP chain frame
  rw [if_neg fun hboth => hicmp hboth.2, Nat.add_zero] at hend
  have hbehind := lt_setNHCHeader ip (encode UDP chain frame)
  have hnotSet := htransfer.notSet fun hboth => hicmp hboth.2
  constructor
  · rintro ⟨fuel, final, hrun, -, hlen, hactual⟩
    by_contra hhigh
    -- The dispatch of the UDP header is not where the chain ends.
    have hmissing : buffer (encode UDP chain frame).actualShift = 0 := by
      rw [hsame _ hbehind, setNHCHeader_of_ne _ _ le_rfl (by omega),
        encode_behind _ _ _ le_rfl (by omega), htransfer.reset _ (by omega) (by omega)]
    rw [length_chainBytes] at hlen
    by_cases hfirst : buffer frame.actualShift >>> 3 = 30#8
    · rw [receiveHeaders_udp hnotSet hfirst] at hrun
      obtain rfl := Option.some.inj hrun
      simp only at hlen hactual
      rw [hactual, hmissing] at hfirst
      exact absurd hfirst (by decide)
    · rw [receiveHeaders_extensions hnotSet hfirst] at hrun
      rcases (uncompressExtensions_shifts hrun).2 with hdispatch | hmod
      · rw [hactual, hmissing] at hdispatch
        exact absurd hdispatch (by decide)
      · simp only at hmod
        omega
  · intro hlow
    have hdispatch : buffer (frame.actualShift + chainSize chain) >>> 3 = 30#8 := by
      rw [← hend, hsame _ hbehind]
      exact setNHCHeader_dispatch _ _ (by omega)
    by_cases hempty : chain = []
    · subst hempty
      exact ⟨0, _, receiveHeaders_udp hnotSet hdispatch 0, rfl, rfl, hend.symm⟩
    · have hnarrow := @narrow_of_lt chain frame.actualShift 0 (by omega)
      have hencoded := encode_encoded (.inl rfl) hnarrow rfl (fun _ => by omega)
        (fun i hi hlt => htransfer.reset i hi (by omega))
        (fun i hi _ => (hsame i (by omega)).trans
          (setNHCHeader_of_ne _ _ hi.le (by omega)))
      have hround := htransfer.roundTrip hempty hencoded hnarrow fun _ => hdispatch
      rwa [if_neg hicmp, Nat.add_zero, ← hend] at hround

/-! ## In front of ICMPv6 -/

theorem roundTrip_iff_icmpv6
    (htransfer : Transfer ICMPV6 chain ip frame maxMessageLength packet)
    (hfits : (encode ICMPV6 chain frame).actualShift ≤ maxMessageLength)
    (hsame : ∀ i < (encode ICMPV6 chain frame).actualShift,
      buffer i = (encode ICMPV6 chain frame).buffer i) :
    RoundTrip ICMPV6 chain buffer packet frame.actualShift
        (encode ICMPV6 chain frame).actualShift ↔
      Narrow frame.actualShift chain 0 := by
  have hinside := htransfer.inside
  have hend := actualShift_encode ICMPV6 chain frame
  by_cases hempty : chain = []
  · -- The IPv6 header carries the number, and there is nothing to do.
    subst hempty
    refine ⟨fun _ => trivial, fun _ => ?_⟩
    refine ⟨0, ⟨packet, 0, 0, false, frame.actualShift⟩, ?_, rfl, rfl, rfl⟩
    have hset : packet.realNextHeader = ICMPV6 := by
      rw [htransfer.elided, htransfer.nextHeader, leading, if_pos rfl]
    rw [receiveHeaders, if_neg (by rw [hset]; decide)]
  · rw [if_pos ⟨hempty, rfl⟩] at hend
    have hnotSet := htransfer.notSet fun hboth => hempty hboth.1
    constructor
    · rintro ⟨fuel, final, hrun, hholds, hlen, hactual⟩
      have hwritten := encode_written (fun i hi hlt => htransfer.reset i hi (by omega)) hsame
      have hfirst : buffer frame.actualShift >>> 3 ≠ 30#8 := by
        cases chain with
        | nil => exact absurd rfl hempty
        | cons header rest => exact hwritten.1
      rw [receiveHeaders_extensions hnotSet hfirst] at hrun
      rw [length_chainBytes] at hlen
      exact narrow_of_decoded hwritten hempty rfl rfl rfl
        (by simp only [payloadPos, lowpanIpPacketBufferMaxSize] at hinside; omega) hrun
        (by omega) (by omega) hholds
    · intro hnarrow
      have hencoded := encode_encoded (.inr rfl) hnarrow rfl
        (fun hudp => absurd hudp (by decide))
        (fun i hi hlt => htransfer.reset i hi (by omega)) (fun i hi _ => hsame i hi)
      have hround := htransfer.roundTrip hempty hencoded hnarrow
        fun hudp => absurd hudp (by decide)
      rwa [if_pos rfl, ← hend] at hround

/-! ## Exactly when the chain comes back -/

theorem Transfer.sendHeaders_eq
    (htransfer : Transfer transport chain ip frame maxMessageLength packet) :
    sendHeaders (chain.length + 1) ip frame =
      some
        { frame :=
            if transport = UDP then setNHCHeader ip (encode transport chain frame)
            else encode transport chain frame
          extensionsEnd := (encode transport chain frame).actualShift } := by
  have hsend := sendExtensions_eq htransfer.protocol htransfer.holds frame
  rw [← htransfer.nextHeader] at hsend
  rw [sendHeaders, hsend]
  rfl

theorem right_iff (htransfer : Transfer transport chain ip frame maxMessageLength packet) :
    ∃ fuel sent, sendHeaders fuel ip frame = some sent ∧
      (sent.frame.actualShift ≤ maxMessageLength →
        ∀ buffer : ℕ → BitVec 8,
          (∀ i < sent.frame.actualShift, buffer i = sent.frame.buffer i) →
          (RoundTrip transport chain buffer packet frame.actualShift sent.extensionsEnd ↔
            Fits transport chain frame.actualShift)) := by
  refine ⟨chain.length + 1, _, htransfer.sendHeaders_eq, ?_⟩
  rcases htransfer.protocol with rfl | rfl
  · simp only [if_true, Fits]
    exact fun hfits buffer hsame => roundTrip_iff_udp htransfer hfits hsame
  · simp only [Fits, show ¬ (ICMPV6 : BitVec 8) = UDP by decide, if_false]
    exact fun hfits buffer hsame => roundTrip_iff_icmpv6 htransfer hfits hsame

/-- The sender ends, and if what it has written fits the frame, then the chain comes
back exactly if it ends in the first 256 bytes of the frame, in front of UDP, or
if it is narrow, in front of ICMPv6. -/
theorem extensionHeaders_right_iff
    (htransfer : Transfer transport chain ip frame maxMessageLength packet) :
    ∃ fuel sent, sendHeaders fuel ip frame = some sent ∧
      (sent.frame.actualShift ≤ maxMessageLength →
        ∀ buffer : ℕ → BitVec 8,
          (∀ i < sent.frame.actualShift, buffer i = sent.frame.buffer i) →
          (RoundTrip transport chain buffer packet frame.actualShift sent.extensionsEnd ↔
            Fits transport chain frame.actualShift)) :=
  right_iff htransfer

end Transfer

/-- A hop-by-hop header of 208 bytes. -/
def longHeader : ExtensionHeader where
  len := 25
  content := List.replicate 206 0
  length_content := List.length_replicate

/-- A packet with this header in front of UDP. -/
def longPacket : IPv6Packet where
  buffer := write (fun _ => 0) payloadPos (chainBytes UDP [longHeader])
  transportPos := 248
  transportNextHeader := UDP
  valid := true

/-- The packet of the receiver. -/
def emptyPacket : IPv6Packet where
  buffer := Function.update (fun _ => 0) 6 REAL_NH_NOT_SET
  transportPos := 40
  transportNextHeader := 0
  valid := true

theorem longPacket_nextHeader : longPacket.realNextHeader = EH_HOHO := by
  have hbelow : 6 < payloadPos := by decide
  rw [IPv6Packet.realNextHeader_eq]
  exact @write_below _ (fun _ => 0) payloadPos 6 (chainBytes UDP [longHeader]) hbelow

theorem chainSize_longHeader : chainSize [longHeader] = 208 := rfl

theorem longPacket_transfer (start : ℕ) :
    Transfer UDP [longHeader] longPacket ⟨fun _ => 0, start⟩ 512 emptyPacket where
  protocol := .inl rfl
  holds := holds_write
  nextHeader := longPacket_nextHeader
  inside := by decide
  reset _ _ _ := rfl
  fresh i hi _ := by
    have hne : i ≠ 6 := by
      simp only [payloadPos] at hi
      omega
    exact Function.update_of_ne hne REAL_NH_NOT_SET fun _ => (0 : BitVec 8)
  elided := by
    rw [longPacket_nextHeader, IPv6Packet.realNextHeader_eq]
    exact Function.update_self 6 REAL_NH_NOT_SET fun _ => (0 : BitVec 8)

theorem extensionHeaders_right_iff_long :
    ∃ fuel sent, sendHeaders fuel longPacket ⟨fun _ => 0, 2⟩ = some sent ∧
      (sent.frame.actualShift ≤ 512 →
        ∀ buffer : ℕ → BitVec 8,
          (∀ i < sent.frame.actualShift, buffer i = sent.frame.buffer i) →
          (RoundTrip UDP [longHeader] buffer emptyPacket 2 sent.extensionsEnd ↔
            Fits UDP [longHeader] 2)) :=
  extensionHeaders_right_iff (longPacket_transfer 2)

/-- Behind 48 bytes of other headers it does not come back, in a frame of 512 bytes. -/
theorem longHeader_lost :
    Transfer UDP [longHeader] longPacket ⟨fun _ => 0, 48⟩ 512 emptyPacket ∧
      ∃ fuel sent, sendHeaders fuel longPacket ⟨fun _ => 0, 48⟩ = some sent ∧
        sent.frame.actualShift ≤ 512 ∧
        ¬ RoundTrip UDP [longHeader] sent.frame.buffer emptyPacket 48 sent.extensionsEnd := by
  have htransfer := longPacket_transfer 48
  have hsize : (setNHCHeader longPacket
      (encode UDP [longHeader] ⟨fun _ => 0, 48⟩)).actualShift ≤ 512 := by
    refine (setNHCHeader_le _ _).trans ?_
    rw [actualShift_encode]
    decide
  refine ⟨htransfer, _, _, htransfer.sendHeaders_eq, hsize, ?_⟩
  intro hround
  have := (roundTrip_iff_udp htransfer hsize fun _ _ => rfl).mp hround
  rw [chainSize_longHeader] at this
  exact absurd this (by decide)

end LoWPAN

end Wiselib.SixLowpan
