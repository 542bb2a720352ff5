import Wiselib.SixLowpan.ExtensionHeaders

/-!
# Compressing extension headers

`set_EH_header` writes an extension header of an IPv6 packet into the frame: a
byte for the dispatch, the kind of header and whether the next header value is
left out, then that value where it is not, the length in bytes and the content.
`uncompress_EH` takes it apart again.  `send` and `receive` call them once for
each header of the chain.

The position in the frame is an `int`, but `set_EH_header` and `set_NHC_header`
keep the place of their first byte in a `uint8_t`; the length is a byte of the
frame; `uncompress_EH` counts in `uint16_t` and keeps where a header starts in
the packet in a `uint8_t`.

## Strategy

* Buffers are maps from offsets to bytes, as in `IPv6Packet`.  The machine
  integers are natural numbers with the remainder taken where one is stored.
* `setEHHeader_eq` and `uncompressEH_eq` say what a call does in terms of
  `ByteBuffer.write`; the bits of the first byte are settled there, by going
  through the 256 values of a byte (`eh_nhc_byte`, `nhc_byte`).
-/

namespace Wiselib.SixLowpan

open ByteBuffer

/-! ## Bits of one byte -/

theorem bitwiseWrite_bits (target : ℕ → BitVec 8) (position : ℕ) (value : BitVec 8) {shift : Fin 8}
    {count : ℕ} (hpos : count ≠ 0) (hfit : count ≤ 8 - shift) :
    bitwiseWrite target position value shift count =
      Function.update target position
        (target position &&&
            (0xFF#8 <<< (8 - shift.val) ||| ~~~(0xFF#8 <<< (8 - shift - count))) |||
          value <<< (8 - count - shift)) := by
  rw [bitwiseWrite, if_neg hpos, bitwiseWriteFrom, if_pos hfit, BitVec.setWidth_eq]

theorem bitwiseRead_bits (target : ℕ → BitVec 8) {shift : Fin 8} {count : ℕ} (hpos : count ≠ 0)
    (hfit : count ≤ 8 - shift) :
    bitwiseRead 8 target shift count =
      (target 0 &&& 0xFF#8 >>> shift.val) >>> (8 - count - shift) := by
  rw [bitwiseRead, if_neg hpos, bitwiseReadFrom, if_pos hfit]
  simp

namespace LoWPAN

open IPv6Packet (UDP ICMPV6 EH_HOHO REAL_NH_NOT_SET payloadPos)

/-! ## The sender -/

/-- `buffer_` and `ACTUAL_SHIFT`. -/
structure Frame where
  buffer : ℕ → BitVec 8
  actualShift : ℕ

/-- The number of bytes behind the first two of an extension header. -/
def contentLength (len : BitVec 8) : ℕ :=
  (len.toNat + 1) * 8 - 2

/-- `set_EH_header`: the header lies in `ip` from `actualEHShift` on. -/
def setEHHeader (ip : ℕ → BitVec 8) (actualEHShift : ℕ) (actualNHValue : BitVec 8)
    (frame : Frame) : Frame :=
  let actEHShift := frame.actualShift % 2 ^ 8
  let shift := frame.actualShift + 1
  let dispatched := bitwiseWrite frame.buffer actEHShift (14 : BitVec 8) 0 4
  -- Another kind of header is reported only.
  let identified :=
    if actualNHValue = EH_HOHO then bitwiseWrite dispatched actEHShift (0 : BitVec 8) 4 3
    else dispatched
  let (mode, carried, shift) :=
    if ip actualEHShift = ICMPV6 then
      ((0 : BitVec 8), Function.update identified shift ICMPV6, shift + 1)
    else ((1 : BitVec 8), identified, shift)
  let moded := bitwiseWrite carried actEHShift mode 7 1
  let count := contentLength (ip (actualEHShift + 1))
  let measured := Function.update moded shift (BitVec.ofNat 8 count)
  { buffer := write measured (shift + 1) (read ip (actualEHShift + 2) count)
    actualShift := shift + 1 + count }

/-- The loop over the extension headers in `send`, with the next header value it
ends with. -/
def sendExtensions (ip : ℕ → BitVec 8) :
    ℕ → ℕ → BitVec 8 → Frame → Option (Frame × BitVec 8)
  | 0, _, _, _ => none
  | fuel + 1, actualEHShift, actualNHValue, frame =>
      if actualNHValue ≠ UDP ∧ actualNHValue ≠ ICMPV6 then
        sendExtensions ip fuel (actualEHShift + IPv6Packet.extensionSize ip actualEHShift)
          (ip actualEHShift) (setEHHeader ip actualEHShift actualNHValue frame)
      else some (frame, actualNHValue)

/-- The ports in `set_NHC_header`: the mode and the bytes in the frame. -/
def compressedPorts (payload : ℕ → BitVec 8) : BitVec 8 × List (BitVec 8) :=
  if payload 0 = 0xF0 then
    if payload 2 = 0xF0 ∧ payload 1 &&& 0xF0 = 0xB0 ∧ payload 3 &&& 0xF0 = 0xB0 then
      (3, [(payload 1 <<< 4) &&& 0xF0 ||| payload 3 &&& 0x0F])
    else (2, [payload 1, payload 2, payload 3])
  else if payload 2 = 0xF0 then (1, [payload 0, payload 1, payload 3])
  else (0, [payload 0, payload 1, payload 2, payload 3])

/-- `set_NHC_header`. -/
def setNHCHeader (ip : IPv6Packet) (frame : Frame) : Frame :=
  let nhcShift := frame.actualShift % 2 ^ 8
  let payload : ℕ → BitVec 8 := fun i => ip.buffer (ip.transportPos.toNat + i)
  let dispatched := bitwiseWrite frame.buffer nhcShift (30 : BitVec 8) 0 5
  let checked := bitwiseWrite dispatched nhcShift (0 : BitVec 8) 5 1
  let (mode, ports) := compressedPorts payload
  let carried := write checked (frame.actualShift + 1) ports
  let moded := bitwiseWrite carried nhcShift mode 6 2
  { buffer := write moded (frame.actualShift + 1 + ports.length) [payload 6, payload 7]
    actualShift := frame.actualShift + 1 + ports.length + 2 }

/-- What `send` has written when all headers are compressed, and the position
behind the extension headers. -/
structure Sent where
  frame : Frame
  extensionsEnd : ℕ

/-- The part of `send` on the headers behind the IPv6 header. -/
def sendHeaders (fuel : ℕ) (ip : IPv6Packet) (frame : Frame) : Option Sent :=
  (sendExtensions ip.buffer fuel payloadPos ip.realNextHeader frame).map fun (extended, nhValue) =>
    { frame := if nhValue = UDP then setNHCHeader ip extended else extended
      extensionsEnd := extended.actualShift }

/-! ## The receiver -/

/-- The packet and the variables of `receive` that `uncompress_EH` changes. -/
structure Uncompressed where
  packet : IPv6Packet
  nextHeaderShift : ℕ
  ehLen : ℕ
  isUdp : Bool
  actualShift : ℕ

/-- The loop of `uncompress_EH` over the content, with `NEXT_HEADER_SHIFT` and
`ACTUAL_SHIFT`. -/
def copyContent (buffer : ℕ → BitVec 8) : ℕ → (ℕ → BitVec 8) × ℕ × ℕ → (ℕ → BitVec 8) × ℕ × ℕ
  | 0, state => state
  | count + 1, (target, nextHeaderShift, actualShift) =>
      copyContent buffer count
        (Function.update target (payloadPos + nextHeaderShift) (buffer actualShift),
          (nextHeaderShift + 1) % 2 ^ 16, actualShift + 1)

/-- The packet when `uncompress_EH` has looked at the kind of the header: the first
header gives the IPv6 header its next header value. -/
def named (buffer : ℕ → BitVec 8) (state : Uncompressed) : IPv6Packet :=
  let eidMode : BitVec 8 := bitwiseRead 8 (fun i => buffer (state.actualShift + i)) 4 3
  if state.packet.realNextHeader = REAL_NH_NOT_SET ∧ eidMode = 0 then
    state.packet.setRealNextHeader EH_HOHO
  else state.packet

/-- `uncompress_EH`, with what it returns. -/
def uncompressEH (buffer : ℕ → BitVec 8) (state : Uncompressed) : Bool × Uncompressed :=
  let ehStartShift := state.nextHeaderShift % 2 ^ 8
  let packet := named buffer state
  let nhMode := bitwiseRead 8 (fun i => buffer (state.actualShift + i)) 7 1
  let shift := state.actualShift + 1
  let (carried, shift) :=
    if nhMode = 0 then
      (Function.update packet.buffer (payloadPos + state.nextHeaderShift) (buffer shift), shift + 1)
    else (packet.buffer, shift)
  let nextHeaderShift := (state.nextHeaderShift + 1) % 2 ^ 16
  let lowpanLen := (buffer shift).toNat
  let measured :=
    Function.update carried (payloadPos + nextHeaderShift)
      (BitVec.ofNat 8 ((lowpanLen + 2) / 8) - 1)
  let (copied, nextHeaderShift, shift) :=
    copyContent buffer lowpanLen (measured, (nextHeaderShift + 1) % 2 ^ 16, shift + 1)
  let ehLen := (state.ehLen + 2 ^ 16 + nextHeaderShift - ehStartShift) % 2 ^ 16
  if nhMode = 1 then
    if bitwiseRead 8 (fun i => buffer (shift + i)) 0 5 = 30 then
      (false,
        { packet := { packet with buffer := Function.update copied (payloadPos + ehStartShift) UDP }
          nextHeaderShift := nextHeaderShift
          ehLen := ehLen
          isUdp := true
          actualShift := shift })
    else
      (true,
        { packet := { packet with buffer := copied }
          nextHeaderShift := nextHeaderShift
          ehLen := ehLen
          isUdp := state.isUdp
          actualShift := shift })
  else
    (false,
      { packet := { packet with buffer := copied }
        nextHeaderShift := nextHeaderShift
        ehLen := ehLen
        isUdp := state.isUdp
        actualShift := shift })

/-- The loop over the extension headers in `receive`. -/
def uncompressExtensions (buffer : ℕ → BitVec 8) : ℕ → Uncompressed → Option Uncompressed
  | 0, _ => none
  | fuel + 1, state =>
      let (more, next) := uncompressEH buffer state
      if more then uncompressExtensions buffer fuel next else some next

/-- The part of `receive` on the extension headers, behind `uncompress_IPHC`. -/
def receiveHeaders (fuel : ℕ) (buffer : ℕ → BitVec 8) (packet : IPv6Packet) (actualShift : ℕ) :
    Option Uncompressed :=
  let state : Uncompressed := ⟨packet, 0, 0, false, actualShift⟩
  if packet.realNextHeader = REAL_NH_NOT_SET then
    if bitwiseRead 8 (fun i => buffer (actualShift + i)) 0 5 = 30 then
      some { state with packet := packet.setRealNextHeader UDP, isUdp := true }
    else uncompressExtensions buffer fuel state
  else some state

/-! ## What a call of `set_EH_header` does -/

theorem eh_nhc_byte (b : BitVec 8) (mode : BitVec 8) (hmode : mode = 0 ∨ mode = 1) :
    ((((b &&& (0xFF#8 <<< 8 ||| ~~~(0xFF#8 <<< 4))) ||| 14 <<< 4) &&&
          (0xFF#8 <<< 4 ||| ~~~(0xFF#8 <<< 1)) ||| 0 <<< 1) &&&
        (0xFF#8 <<< 1 ||| ~~~(0xFF#8 <<< 0))) ||| mode <<< 0 = 0xE0#8 ||| mode := by
  rcases hmode with rfl | rfl
  · revert b
    decide
  · revert b
    decide

theorem dispatch_eq (buffer : ℕ → BitVec 8) (position : ℕ) {mode : BitVec 8}
    (hmode : mode = 0 ∨ mode = 1) :
    bitwiseWrite (bitwiseWrite (bitwiseWrite buffer position (14 : BitVec 8) 0 4) position
        (0 : BitVec 8) 4 3) position mode 7 1 =
      Function.update buffer position (0xE0 ||| mode) := by
  rw [bitwiseWrite_bits _ _ _ (by decide) (by decide),
    bitwiseWrite_bits _ _ _ (by decide) (by decide),
    bitwiseWrite_bits _ _ _ (by decide) (by decide)]
  simp only [Function.update_self, Function.update_idem]
  exact congrArg (Function.update buffer position) (eh_nhc_byte (buffer position) mode hmode)

theorem bitwiseWrite_update (buffer : ℕ → BitVec 8) {position other : ℕ} (hne : position ≠ other)
    (cell value : BitVec 8) {shift : Fin 8} {count : ℕ} (hpos : count ≠ 0)
    (hfit : count ≤ 8 - shift) :
    bitwiseWrite (Function.update buffer other cell) position value shift count =
      Function.update (bitwiseWrite buffer position value shift count) other cell := by
  rw [bitwiseWrite_bits _ _ _ hpos hfit, bitwiseWrite_bits _ _ _ hpos hfit,
    Function.update_of_ne hne, Function.update_comm hne]

/-- What follows the first byte of a compressed extension header. -/
def compressedTail (nextHeader : BitVec 8) (len : BitVec 8) (content : List (BitVec 8)) :
    List (BitVec 8) :=
  (if nextHeader = ICMPV6 then [ICMPV6] else []) ++ BitVec.ofNat 8 (contentLength len) :: content

/-- The frame with a compressed extension header behind it. -/
def compressed (nextHeader : BitVec 8) (len : BitVec 8) (content : List (BitVec 8))
    (frame : Frame) : Frame where
  buffer := write
    (Function.update frame.buffer (frame.actualShift % 2 ^ 8)
      (if nextHeader = ICMPV6 then 0xE0 else 0xE1))
    (frame.actualShift + 1) (compressedTail nextHeader len content)
  actualShift := frame.actualShift + 1 + (compressedTail nextHeader len content).length

theorem write_singleton (buffer : ℕ → BitVec 8) (start : ℕ) (cell : BitVec 8) :
    write buffer start [cell] = Function.update buffer start cell := by
  funext i
  rcases lt_trichotomy i start with hlt | rfl | hgt
  · rw [write_below hlt, Function.update_of_ne (by omega)]
  · rw [Function.update_self]
    exact write_cons_self _ _ _ _
  · rw [write_above (by simpa using hgt), Function.update_of_ne (by omega)]

theorem setEHHeader_eq (ip : ℕ → BitVec 8) (place : ℕ) (frame : Frame) :
    setEHHeader ip place EH_HOHO frame =
      compressed (ip place) (ip (place + 1)) (read ip (place + 2) (contentLength (ip (place + 1))))
        frame := by
  have hne : frame.actualShift % 2 ^ 8 ≠ frame.actualShift + 1 := by omega
  unfold setEHHeader compressed compressedTail
  by_cases hnext : ip place = ICMPV6
  · simp only [hnext, if_true, List.singleton_append]
    rw [bitwiseWrite_update _ hne _ _ (by decide) (by decide), dispatch_eq _ _ (.inl rfl),
      write_cons _ _ ICMPV6, write_singleton, write_cons, write_singleton]
    refine Frame.mk.injEq .. |>.mpr ⟨rfl, ?_⟩
    simp only [List.length_cons, length_read]
    omega
  · simp only [hnext, if_false, if_true, List.nil_append]
    rw [dispatch_eq _ _ (.inr rfl), write_cons, write_singleton]
    refine Frame.mk.injEq .. |>.mpr ⟨rfl, ?_⟩
    simp only [List.length_cons, length_read]
    omega

/-! ## What a call of `set_NHC_header` does -/

theorem nhc_byte (b : BitVec 8) (mode : BitVec 8) (hmode : mode = 0 ∨ mode = 1 ∨ mode = 2 ∨ mode = 3) :
    (((((b &&& (0xFF#8 <<< 8 ||| ~~~(0xFF#8 <<< 3))) ||| 30 <<< 3) &&&
          (0xFF#8 <<< 3 ||| ~~~(0xFF#8 <<< 2)) ||| 0 <<< 2) &&&
        (0xFF#8 <<< 2 ||| ~~~(0xFF#8 <<< 0))) ||| mode <<< 0) >>> 3 = 30#8 := by
  rcases hmode with rfl | rfl | rfl | rfl
  all_goals
    revert b
    decide

theorem compressedPorts_mode (payload : ℕ → BitVec 8) :
    (compressedPorts payload).1 = 0 ∨ (compressedPorts payload).1 = 1 ∨
      (compressedPorts payload).1 = 2 ∨ (compressedPorts payload).1 = 3 := by
  unfold compressedPorts
  repeat' split
  all_goals simp

theorem length_compressedPorts_le (payload : ℕ → BitVec 8) :
    (compressedPorts payload).2.length ≤ 4 := by
  unfold compressedPorts
  repeat' split
  all_goals simp

theorem setNHCHeader_le (ip : IPv6Packet) (frame : Frame) :
    (setNHCHeader ip frame).actualShift ≤ frame.actualShift + 7 := by
  have := length_compressedPorts_le fun i => ip.buffer (ip.transportPos.toNat + i)
  simp only [setNHCHeader]
  omega

theorem lt_setNHCHeader (ip : IPv6Packet) (frame : Frame) :
    frame.actualShift < (setNHCHeader ip frame).actualShift := by
  simp only [setNHCHeader]
  omega

/-- Only the byte that the stored position names is written before the ports. -/
theorem setNHCHeader_of_ne (ip : IPv6Packet) (frame : Frame) {i : ℕ} (hle : i ≤ frame.actualShift)
    (hne : i ≠ frame.actualShift % 2 ^ 8) :
    (setNHCHeader ip frame).buffer i = frame.buffer i := by
  simp only [setNHCHeader]
  rw [write_below (by omega), bitwiseWrite_bits _ _ _ (by decide) (by decide),
    Function.update_of_ne hne, write_below (by omega),
    bitwiseWrite_bits _ _ _ (by decide) (by decide), Function.update_of_ne hne,
    bitwiseWrite_bits _ _ _ (by decide) (by decide), Function.update_of_ne hne]

theorem setNHCHeader_dispatch (ip : IPv6Packet) (frame : Frame) (hlow : frame.actualShift < 2 ^ 8) :
    (setNHCHeader ip frame).buffer frame.actualShift >>> 3 = 30#8 := by
  simp only [setNHCHeader, Nat.mod_eq_of_lt hlow]
  rw [write_below (by omega), bitwiseWrite_bits _ _ _ (by decide) (by decide),
    Function.update_self, write_below (by omega),
    bitwiseWrite_bits _ _ _ (by decide) (by decide), Function.update_self,
    bitwiseWrite_bits _ _ _ (by decide) (by decide), Function.update_self]
  exact nhc_byte _ _ (compressedPorts_mode _)

/-! ## What a call of `uncompress_EH` does -/

theorem nhMode_eq (buffer : ℕ → BitVec 8) (position : ℕ) :
    bitwiseRead 8 (fun i => buffer (position + i)) 7 1 = buffer position &&& 1 := by
  rw [bitwiseRead_bits _ (by decide) (by decide)]
  simp

theorem nhcDispatch_eq (buffer : ℕ → BitVec 8) (position : ℕ) :
    bitwiseRead 8 (fun i => buffer (position + i)) 0 5 = buffer position >>> 3 := by
  rw [bitwiseRead_bits _ (by decide) (by decide)]
  simp [and_ones]

theorem nhMode_cases (b : BitVec 8) : b &&& 1 = 0 ∨ b &&& 1 = 1 := by
  revert b
  decide

theorem named_buffer (buffer : ℕ → BitVec 8) (state : Uncompressed) {i : ℕ} (hi : payloadPos ≤ i) :
    (named buffer state).buffer i = state.packet.buffer i := by
  unfold named
  dsimp only
  split
  · rw [IPv6Packet.setRealNextHeader, bitwiseWrite_byte]
    refine Function.update_of_ne ?_ _ _
    simp only [payloadPos, IPv6Packet.nextHeaderByte] at hi ⊢
    omega
  · rfl

theorem copyContent_eq (buffer : ℕ → BitVec 8) (count : ℕ) (target : ℕ → BitVec 8)
    (nextHeaderShift actualShift : ℕ) (hroom : nextHeaderShift + count < 2 ^ 16) :
    copyContent buffer count (target, nextHeaderShift, actualShift) =
      (write target (payloadPos + nextHeaderShift) (read buffer actualShift count),
        nextHeaderShift + count, actualShift + count) := by
  induction count generalizing target nextHeaderShift actualShift with
  | zero => simp [copyContent]
  | succ count ih =>
    rw [copyContent, Nat.mod_eq_of_lt (by omega), ih _ _ _ (by omega), read_succ,
      write_cons _ _ _ (read _ _ _), write_singleton]
    simp only [Prod.mk.injEq]
    exact ⟨rfl, by omega, by omega⟩

/-- The positions after the copy, whatever the numbers. -/
theorem copyContent_shifts (buffer : ℕ → BitVec 8) (count : ℕ) (target : ℕ → BitVec 8)
    (nextHeaderShift actualShift : ℕ) :
    (copyContent buffer count (target, nextHeaderShift, actualShift)).2.1 % 2 ^ 16 =
        (nextHeaderShift + count) % 2 ^ 16 ∧
      (copyContent buffer count (target, nextHeaderShift, actualShift)).2.2 =
        actualShift + count := by
  induction count generalizing target nextHeaderShift actualShift with
  | zero => exact ⟨rfl, rfl⟩
  | succ count ih =>
    obtain ⟨hnext, hactual⟩ := ih
      (Function.update target (payloadPos + nextHeaderShift) (buffer actualShift))
      ((nextHeaderShift + 1) % 2 ^ 16) (actualShift + 1)
    rw [copyContent]
    exact ⟨by omega, by omega⟩

/-- The length of a header in the packet, for a length in the frame. -/
def lengthByte (lowpanLen : ℕ) : BitVec 8 :=
  BitVec.ofNat 8 ((lowpanLen + 2) / 8) - 1

theorem uncompressEH_carried (buffer : ℕ → BitVec 8) (state : Uncompressed)
    (hmode : buffer state.actualShift &&& 1 = 0) {count : ℕ}
    (hcount : (buffer (state.actualShift + 2)).toNat = count)
    (hroom : state.nextHeaderShift + 2 + count < 2 ^ 16) :
    uncompressEH buffer state =
      (false,
        { packet := { named buffer state with
            buffer := write (named buffer state).buffer (payloadPos + state.nextHeaderShift)
              (buffer (state.actualShift + 1) :: lengthByte count ::
                read buffer (state.actualShift + 3) count) }
          nextHeaderShift := state.nextHeaderShift + 2 + count
          ehLen := (state.ehLen + 2 ^ 16 + (state.nextHeaderShift + 2 + count) -
            state.nextHeaderShift % 2 ^ 8) % 2 ^ 16
          isUdp := state.isUdp
          actualShift := state.actualShift + 3 + count }) := by
  unfold uncompressEH
  rw [nhMode_eq, hmode]
  simp only [if_true, hcount]
  rw [Nat.mod_eq_of_lt (show state.nextHeaderShift + 1 < 2 ^ 16 by omega),
    Nat.mod_eq_of_lt (show state.nextHeaderShift + 1 + 1 < 2 ^ 16 by omega),
    copyContent_eq _ _ _ _ _ (by omega), write_cons _ _ _ (_ :: _), write_cons _ _ _ (read _ _ _),
    write_singleton, write_singleton]
  simp only [show ¬ (0 : BitVec 8) = 1 by decide, if_false]
  rfl

/-- The packet with a header that leaves its next header value out. -/
def copiedHeader (buffer : ℕ → BitVec 8) (state : Uncompressed) (count : ℕ) : ℕ → BitVec 8 :=
  write (named buffer state).buffer (payloadPos + (state.nextHeaderShift + 1))
    (lengthByte count :: read buffer (state.actualShift + 2) count)

theorem copiedHeader_length (buffer : ℕ → BitVec 8) (state : Uncompressed) (count : ℕ) :
    copiedHeader buffer state count (payloadPos + (state.nextHeaderShift + 1)) =
      lengthByte count :=
  write_cons_self _ _ _ _

/-- A header that leaves its next header value out, in front of another header. -/
theorem uncompressEH_more (buffer : ℕ → BitVec 8) (state : Uncompressed)
    (hmode : buffer state.actualShift &&& 1 = 1) {count : ℕ}
    (hcount : (buffer (state.actualShift + 1)).toNat = count)
    (hroom : state.nextHeaderShift + 2 + count < 2 ^ 16)
    (hother : buffer (state.actualShift + 2 + count) >>> 3 ≠ 30#8) :
    uncompressEH buffer state =
      (true,
        { packet := { named buffer state with buffer := copiedHeader buffer state count }
          nextHeaderShift := state.nextHeaderShift + 2 + count
          ehLen := (state.ehLen + 2 ^ 16 + (state.nextHeaderShift + 2 + count) -
            state.nextHeaderShift % 2 ^ 8) % 2 ^ 16
          isUdp := state.isUdp
          actualShift := state.actualShift + 2 + count }) := by
  unfold uncompressEH copiedHeader
  rw [nhMode_eq, hmode]
  simp only [show ¬ (1 : BitVec 8) = 0 by decide, if_false, hcount, if_true]
  rw [Nat.mod_eq_of_lt (show state.nextHeaderShift + 1 < 2 ^ 16 by omega),
    Nat.mod_eq_of_lt (show state.nextHeaderShift + 1 + 1 < 2 ^ 16 by omega),
    copyContent_eq _ _ _ _ _ (by omega), write_cons _ _ _ (read _ _ _), write_singleton,
    nhcDispatch_eq]
  exact if_neg hother

theorem uncompressEH_udp (buffer : ℕ → BitVec 8) (state : Uncompressed)
    (hmode : buffer state.actualShift &&& 1 = 1) {count : ℕ}
    (hcount : (buffer (state.actualShift + 1)).toNat = count)
    (hroom : state.nextHeaderShift + 2 + count < 2 ^ 16)
    (hudp : buffer (state.actualShift + 2 + count) >>> 3 = 30#8) :
    uncompressEH buffer state =
      (false,
        { packet := { named buffer state with
            buffer := Function.update (copiedHeader buffer state count)
              (payloadPos + state.nextHeaderShift % 2 ^ 8) UDP }
          nextHeaderShift := state.nextHeaderShift + 2 + count
          ehLen := (state.ehLen + 2 ^ 16 + (state.nextHeaderShift + 2 + count) -
            state.nextHeaderShift % 2 ^ 8) % 2 ^ 16
          isUdp := true
          actualShift := state.actualShift + 2 + count }) := by
  unfold uncompressEH copiedHeader
  rw [nhMode_eq, hmode]
  simp only [show ¬ (1 : BitVec 8) = 0 by decide, if_false, hcount, if_true]
  rw [Nat.mod_eq_of_lt (show state.nextHeaderShift + 1 < 2 ^ 16 by omega),
    Nat.mod_eq_of_lt (show state.nextHeaderShift + 1 + 1 < 2 ^ 16 by omega),
    copyContent_eq _ _ _ _ _ (by omega), write_cons _ _ _ (read _ _ _), write_singleton,
    nhcDispatch_eq]
  exact if_pos hudp

/-! ## What a call consumes -/

/-- A header that carries its next header value ends the chain.  Modulo 256 `EH_LEN`
grows by the bytes in the packet, whatever the types of the positions. -/
theorem uncompressEH_carried_shifts (buffer : ℕ → BitVec 8) (state : Uncompressed)
    (hmode : buffer state.actualShift &&& 1 = 0) {count : ℕ}
    (hcount : (buffer (state.actualShift + 2)).toNat = count) :
    (uncompressEH buffer state).1 = false ∧
      (uncompressEH buffer state).2.actualShift = state.actualShift + 3 + count ∧
      (uncompressEH buffer state).2.ehLen % 2 ^ 8 = (state.ehLen + 2 + count) % 2 ^ 8 := by
  unfold uncompressEH
  rw [nhMode_eq, hmode]
  simp only [if_true, show ¬ (0 : BitVec 8) = 1 by decide, if_false, hcount]
  generalize hcopy : copyContent _ _ _ = copied
  obtain ⟨hnext, hactual⟩ : copied.2.1 % 2 ^ 16 = (state.nextHeaderShift + 2 + count) % 2 ^ 16 ∧
      copied.2.2 = state.actualShift + 3 + count := by
    rw [← hcopy]
    obtain ⟨hnext, hactual⟩ := copyContent_shifts buffer count _ _ _
    exact ⟨hnext.trans (by omega), hactual.trans (by omega)⟩
  obtain ⟨target, next, actual⟩ := copied
  simp only at hnext hactual ⊢
  exact ⟨trivial, hactual, by omega⟩

/-- A header that leaves it out ends the chain in front of a UDP header. -/
theorem uncompressEH_elided_shifts (buffer : ℕ → BitVec 8) (state : Uncompressed)
    (hmode : buffer state.actualShift &&& 1 = 1) {count : ℕ}
    (hcount : (buffer (state.actualShift + 1)).toNat = count) :
    ((uncompressEH buffer state).1 = true ∨
        buffer (state.actualShift + 2 + count) >>> 3 = 30#8) ∧
      (uncompressEH buffer state).2.actualShift = state.actualShift + 2 + count ∧
      (uncompressEH buffer state).2.ehLen % 2 ^ 8 = (state.ehLen + 2 + count) % 2 ^ 8 := by
  unfold uncompressEH
  rw [nhMode_eq, hmode]
  simp only [if_true, show ¬ (1 : BitVec 8) = 0 by decide, if_false, hcount, nhcDispatch_eq]
  generalize hcopy : copyContent _ _ _ = copied
  obtain ⟨hnext, hactual⟩ : copied.2.1 % 2 ^ 16 = (state.nextHeaderShift + 2 + count) % 2 ^ 16 ∧
      copied.2.2 = state.actualShift + 2 + count := by
    rw [← hcopy]
    obtain ⟨hnext, hactual⟩ := copyContent_shifts buffer count _ _ _
    exact ⟨hnext.trans (by omega), hactual.trans (by omega)⟩
  obtain ⟨target, next, actual⟩ := copied
  simp only at hnext hactual ⊢
  subst hactual
  split
  · rename_i hudp
    exact ⟨.inr hudp, rfl, by simp only; omega⟩
  · exact ⟨.inl rfl, rfl, by simp only; omega⟩

theorem uncompressExtensions_more {buffer : ℕ → BitVec 8} {state : Uncompressed} (fuel : ℕ)
    (hmore : (uncompressEH buffer state).1 = true) :
    uncompressExtensions buffer (fuel + 1) state =
      uncompressExtensions buffer fuel (uncompressEH buffer state).2 := by
  simp only [uncompressExtensions, hmore, if_true]

theorem uncompressExtensions_done {buffer : ℕ → BitVec 8} {state : Uncompressed} (fuel : ℕ)
    (hdone : (uncompressEH buffer state).1 = false) :
    uncompressExtensions buffer (fuel + 1) state = some (uncompressEH buffer state).2 := by
  simp [uncompressExtensions, hdone]

/-- What the loop consumes: at least a header, up to a UDP header or behind a header
that carries its next header value. -/
theorem uncompressExtensions_shifts {buffer : ℕ → BitVec 8} {fuel : ℕ}
    {state final : Uncompressed} (hrun : uncompressExtensions buffer fuel state = some final) :
    state.actualShift + 2 ≤ final.actualShift ∧
      (buffer final.actualShift >>> 3 = 30#8 ∨
        (final.ehLen + 1) % 2 ^ 8 =
          (state.ehLen + (final.actualShift - state.actualShift)) % 2 ^ 8) := by
  induction fuel generalizing state with
  | zero => exact absurd hrun (by simp [uncompressExtensions])
  | succ fuel ih =>
    rcases nhMode_cases (buffer state.actualShift) with hmode | hmode
    · obtain ⟨hdone, hactual, hlen⟩ := uncompressEH_carried_shifts buffer state hmode rfl
      rw [uncompressExtensions_done fuel hdone] at hrun
      obtain rfl := Option.some.inj hrun
      exact ⟨by omega, .inr (by omega)⟩
    · obtain ⟨hudp, hactual, hlen⟩ := uncompressEH_elided_shifts buffer state hmode rfl
      cases hmore : (uncompressEH buffer state).1 with
      | true =>
        rw [uncompressExtensions_more fuel hmore] at hrun
        obtain ⟨hle, hend⟩ := ih hrun
        exact ⟨by omega, hend.imp_right fun hmod => by omega⟩
      | false =>
        rw [uncompressExtensions_done fuel hmore] at hrun
        obtain rfl := Option.some.inj hrun
        refine ⟨by omega, .inl ?_⟩
        rw [hactual]
        exact hudp.resolve_left (by simp [hmore])

theorem actualShift_uncompressEH_le {buffer : ℕ → BitVec 8} {fuel : ℕ} {state final : Uncompressed}
    (hrun : uncompressExtensions buffer (fuel + 1) state = some final) :
    (uncompressEH buffer state).2.actualShift ≤ final.actualShift := by
  cases hmore : (uncompressEH buffer state).1 with
  | true =>
    rw [uncompressExtensions_more fuel hmore] at hrun
    exact (Nat.le_add_right _ 2).trans (uncompressExtensions_shifts hrun).1
  | false =>
    rw [uncompressExtensions_done fuel hmore] at hrun
    rw [Option.some.inj hrun]

end LoWPAN

end Wiselib.SixLowpan
