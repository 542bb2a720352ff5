import Wiselib.Coap.CoapPacketNumbers

/-!
# What the decoder makes of a packet

When no segment of the path has 15 bytes the decoder absorbs the options that
were written, so its result is known field by field: `decodedPacket`.  A field
that one option sets depends on the values of this option only
(`field_of_fenced`), and these are the ones of the packet.

`restored_decoded_iff` says for which packets the result is the packet again.
-/

namespace Wiselib.Coap

open ByteBuffer

namespace CoapPacket

/-! ## Reading a packet back -/

/-- The values that are set on a packet come back. -/
structure Restored (packet decoded : CoapPacket) : Prop where
  version : decoded.version = packet.version
  type : decoded.type = packet.type
  code : decoded.code = packet.code
  mid : decoded.mid = packet.mid
  options : ∀ option, decoded.isOption option = packet.isOption option
  contentType : packet.isOption .contentType → decoded.contentType = packet.contentType
  maxAge : packet.isOption .maxAge → decoded.maxAge = packet.maxAge
  uriHost : packet.isOption .uriHost → decoded.uriHost = packet.uriHost
  uriPort : packet.isOption .uriPort → decoded.uriPort = packet.uriPort
  uriPath : packet.isOption .uriPath →
    decoded.uriPathLen = packet.uriPathLen ∧ decoded.uriPath = packet.uriPath
  observe : packet.isOption .observe → decoded.observe = packet.observe
  token : packet.isOption .token →
    decoded.tokenLen = packet.tokenLen ∧ decoded.token = packet.token
  accept : packet.isOption .accept → decoded.accept = packet.accept
  block2 : packet.isOption .block2 →
    decoded.block2Num = packet.block2Num ∧ decoded.block2More = packet.block2More ∧
      decoded.block2Size = packet.block2Size
  payload : decoded.payloadLen = packet.payloadLen ∧ decoded.payload = packet.payload

theorem mem_plainOptions {packet : CoapPacket} {opt : ℕ × List UInt8}
    (hopt : opt ∈ packet.plainOptions) :
    ∃ option, packet.isOption option ∧ opt.1 = option.number ∧
      (option = .uriPath → opt.2 ∈ packet.segments) := by
  simp only [plainOptions, List.mem_append, mem_optionIf] at hopt
  rcases hopt with (((((((hopt | hopt) | hopt) | hopt) | hopt) | hopt) | hopt) | hopt) | hopt
  all_goals
    obtain ⟨hset, hnumber, hvalue⟩ := hopt
    refine ⟨_, hset, hnumber, ?_⟩
    first
      | exact fun _ => hvalue
      | exact fun heq => nomatch heq

theorem length_le_wire_of_mem {opts : List (ℕ × List UInt8)} {opt : ℕ × List UInt8} :
    ∀ {delta : ℕ}, opt ∈ opts → opt.2.length ≤ (wire delta (fenced delta opts)).length := by
  induction opts with
  | nil => intro delta hopt; exact absurd hopt List.not_mem_nil
  | cons first rest ih =>
      intro delta hopt
      obtain ⟨number, value⟩ := first
      have hstep : (wire delta (fenced delta ((number, value) :: rest))).length ≥
          value.length + (wire number (fenced number rest)).length := by
        rw [fenced]
        split_ifs <;> simp only [wire, List.length_append] <;> omega
      rcases List.mem_cons.1 hopt with rfl | hrest
      · exact le_trans (Nat.le_add_right _ _) hstep
      · exact le_trans (ih hrest) (le_trans (Nat.le_add_left _ _) hstep)

/-- A part of the options whose segments are read as they are written is legal. -/
theorem legal_part {packet : CoapPacket} {opts rest : List (ℕ × List UInt8)}
    (hpart : packet.plainOptions = opts ++ rest) (hfits : packet.encodedLength ≤ 255)
    (hpath : ∀ opt ∈ opts, opt.1 = CoapOption.uriPath.number → opt.2.length ≠ 15) :
    Legal 0 (fenced 0 opts) := by
  have hsorted := (plainOptions_ascending packet).1
  rw [hpart] at hsorted
  apply legal_fenced (List.pairwise_append.1 hsorted).1
  · intro opt hopt
    have hmem : opt ∈ packet.plainOptions := by
      rw [hpart]
      exact List.mem_append_left _ hopt
    obtain ⟨option, _, hnumber, _⟩ := mem_plainOptions hmem
    refine ⟨by rw [hnumber, CoapOption.ofNumber_number]; rfl, ?_, hpath opt hopt⟩
    have hle : opt.2.length ≤ (wire 0 packet.wireOptions).length := length_le_wire_of_mem hmem
    unfold encodedLength at hfits
    omega
  · intro opt _
    exact Nat.zero_le _

/-- The packet before its first option is read. -/
def started (packet memory : CoapPacket) : CoapPacket :=
  { init memory with
    version := packet.version &&& 3
    type := packet.type &&& 3
    optCount := UInt8.ofNat packet.wireOptions.length &&& 0x0f
    code := packet.code
    mid := packet.mid
    uriPath := [] }

/-- The decoder at the first option. -/
def startReader (memory : CoapPacket) (written : ℕ → UInt8) : Reader :=
  { packet := (init memory).readHeader written
    buffer := written
    currentOpt := coapHeaderLen + 1
    currentDelta := 0
    pathAt := 0 }

theorem view_startReader {packet memory : CoapPacket} {written : ℕ → UInt8}
    (hholds : Holds written 0
      (packet.headerBytes ++ wire 0 packet.wireOptions ++ packet.payload)) :
    (startReader memory written).view = started packet memory := by
  obtain ⟨hheader, -⟩ := holds_append.1 (holds_append.1 hholds).1
  simp only [headerBytes, holds_cons, holds_nil, and_true, Nat.zero_add, Nat.reduceAdd] at hheader
  obtain ⟨-, h1, h2, h3, h4⟩ := hheader
  simp only [startReader, Reader.view, started, readHeader, init, h1, h2, h3, h4,
    version_headerByte, type_headerByte, count_headerByte, mid_bytes, read_zero]

theorem optCount_startReader {packet : CoapPacket} (memory : CoapPacket) {written : ℕ → UInt8}
    (hcount : packet.wireOptions.length ≤ 15)
    (hholds : Holds written 0
      (packet.headerBytes ++ wire 0 packet.wireOptions ++ packet.payload)) :
    (startReader memory written).packet.optCount.toNat = packet.wireOptions.length := by
  have hview : (startReader memory written).view = started packet memory := view_startReader hholds
  have hand : packet.wireOptions.length &&& 15 = packet.wireOptions.length := by
    rw [Nat.and_two_pow_sub_one_eq_mod _ 4, Nat.mod_eq_of_lt (by omega)]
  have hsmall : packet.wireOptions.length % 256 = packet.wireOptions.length :=
    Nat.mod_eq_of_lt (by omega)
  show (startReader memory written).view.optCount.toNat = _
  rw [hview]
  simp [started, hsmall, hand]

theorem holds_startReader {packet : CoapPacket} (memory : CoapPacket) {written : ℕ → UInt8}
    (hholds : Holds written 0
      (packet.headerBytes ++ wire 0 packet.wireOptions ++ packet.payload)) :
    Holds (startReader memory written).buffer (startReader memory written).currentOpt
      (wire (startReader memory written).currentDelta packet.wireOptions) := by
  have hwire := (holds_append.1 (holds_append.1 hholds).1).2
  simpa [headerBytes, startReader, coapHeaderLen] using hwire

theorem pathBelow_startReader (memory : CoapPacket) (written : ℕ → UInt8) :
    (startReader memory written).PathBelow := by
  simp [Reader.PathBelow, startReader, readHeader, init]

/-- What the decoder makes of the bytes of a packet whose segments are read as they are written. -/
def decodedPacket (packet memory : CoapPacket) : CoapPacket :=
  { packet.wireOptions.foldl absorb (started packet memory) with
    payloadLen := packet.payloadLen
    payload := packet.payload }

theorem bufferToPacket_spec {packet memory : CoapPacket} {written : ℕ → UInt8}
    (hbuilt : Built packet) (hcount : packet.wireOptions.length ≤ 15)
    (hlegal : Legal 0 packet.wireOptions)
    (hholds : Holds written 0
      (packet.headerBytes ++ wire 0 packet.wireOptions ++ packet.payload)) :
    bufferToPacket (init memory) (UInt8.ofNat packet.encodedLength) written =
      (.noError, decodedPacket packet memory) := by
  have hview : (startReader memory written).view = started packet memory := view_startReader hholds
  have hcounted := optCount_startReader memory hcount hholds
  have hwire := holds_startReader memory hholds
  have hbelow := pathBelow_startReader memory written
  rw [holds_append] at hholds
  obtain ⟨-, hpayload⟩ := hholds
  obtain ⟨last, habsorbed, hloop⟩ := readOptions_wire hbelow hlegal hwire
  have hread : readOptions packet.wireOptions.length (startReader memory written) = .ok last :=
    hloop 0
  have hlast : last.currentOpt = coapHeaderLen + 1 + (wire 0 packet.wireOptions).length :=
    habsorbed.opt
  have hrest : Holds last.buffer last.currentOpt packet.payload := by
    have hplace : 0 + (packet.headerBytes ++ wire 0 packet.wireOptions).length =
        last.currentOpt := by
      rw [hlast]
      simp [headerBytes, coapHeaderLen]
      omega
    rw [hplace] at hpayload
    exact hpayload.congr fun i hi _ => habsorbed.behind i hi
  have hlen : UInt8.ofNat packet.encodedLength - UInt8.ofNat last.currentOpt =
      packet.payloadLen := by
    have hsum : UInt8.ofNat packet.encodedLength =
        UInt8.ofNat last.currentOpt + UInt8.ofNat packet.payload.length := by
      rw [← UInt8.ofNat_add, encodedLength, hlast]
    rw [hsum, hbuilt.payload, UInt8.ofNat_toNat]
    rw [UInt8.add_comm, UInt8.add_sub_cancel]
  have hpacket : last.view = packet.wireOptions.foldl absorb (started packet memory) := by
    rw [habsorbed.view, hview]
  have hpay : read last.buffer last.currentOpt packet.payloadLen.toNat = packet.payload :=
    hrest.read_eq hbuilt.payload.symm
  unfold startReader at hread hcounted
  simp only [bufferToPacket, hcounted, hread, hlen, hpacket, hpay, decodedPacket]

/-! ### The options of the packet -/

/-- The values that are written for an option that is set. -/
def writtenValues (packet : CoapPacket) : CoapOption → List (List UInt8)
  | .contentType => [intBytes packet.contentType.toUInt32]
  | .maxAge => [intBytes packet.maxAge]
  | .uriHost => [intBytes packet.uriHost.toUInt32]
  | .uriPort => [intBytes packet.uriPort.toUInt32]
  | .uriPath => packet.segments
  | .observe => [intBytes packet.observe.toUInt32]
  | .token => [packet.token]
  | .accept => [intBytes packet.accept.toUInt32]
  | .block2 => [intBytes packet.blockValue]
  | _ => []

/-- The values that the encoder writes for an option. -/
def valuesOf (packet : CoapPacket) (option : CoapOption) : List (List UInt8) :=
  (packet.plainOptions.filter fun opt => opt.1 = option.number).map Prod.snd

theorem valuesOf_eq (packet : CoapPacket) (option : CoapOption) :
    packet.valuesOf option =
      if packet.isOption option then packet.writtenValues option else [] := by
  unfold valuesOf plainOptions
  cases option <;>
    simp [List.filter_append, filter_optionIf, writtenValues]

theorem valuesOf_set {packet : CoapPacket} {option : CoapOption}
    (hset : packet.isOption option) : packet.valuesOf option = packet.writtenValues option := by
  rw [valuesOf_eq, if_pos hset]

theorem mem_fenced {opts : List (ℕ × List UInt8)} {opt : ℕ × List UInt8} :
    ∀ {delta : ℕ}, opt ∈ fenced delta opts → opt = (14, []) ∨ opt ∈ opts := by
  induction opts with
  | nil => intro delta hopt; exact absurd hopt List.not_mem_nil
  | cons first rest ih =>
      intro delta hopt
      obtain ⟨number, value⟩ := first
      rw [fenced] at hopt
      split_ifs at hopt
      · rcases List.mem_cons.1 hopt with hfence | hopt
        · exact .inl hfence
        · rcases List.mem_cons.1 hopt with rfl | hrest
          · exact .inr List.mem_cons_self
          · exact (ih hrest).imp_right (List.mem_cons_of_mem _)
      · rcases List.mem_cons.1 hopt with rfl | hrest
        · exact .inr List.mem_cons_self
        · exact (ih hrest).imp_right (List.mem_cons_of_mem _)

theorem absorb_plain {option : CoapOption} {value : List UInt8}
    (hfence : option ≠ .maxOfe) (start : CoapPacket) :
    absorb start (option.number, value) = store option value start := by
  have hnumber : option.number ≠ 14 := fun heq => hfence (number_injective heq)
  simp [absorb, hnumber]

theorem isOption_decoded {packet memory : CoapPacket} (hbuilt : Built packet)
    (option : CoapOption) :
    (decodedPacket packet memory).isOption option = packet.isOption option := by
  have hstart : (started packet memory).isOption option = false := by
    simp [started, init, isOption]
  show (packet.wireOptions.foldl absorb (started packet memory)).isOption option = _
  by_cases hfence : option = .maxOfe
  · -- fence posts are no options of the packet, and it has no other option of their number
    subst hfence
    have hunset : packet.isOption .maxOfe = false := by
      by_contra hset
      have hmem := hbuilt.options .maxOfe (by simpa using hset)
      simp at hmem
    rw [hunset, ← hstart]
    apply field_foldl_absorb (fun start => start.isOption .maxOfe) packet.wireOptions
    intro opt hopt start
    rcases mem_fenced hopt with rfl | hplain
    · simp [absorb]
    · obtain ⟨other, hset, hnumber, _⟩ := mem_plainOptions hplain
      have hne : other ≠ .maxOfe := by
        rintro rfl
        rw [hunset] at hset
        exact absurd hset Bool.false_ne_true
      obtain ⟨number, value⟩ := opt
      simp only at hnumber
      subst hnumber
      rw [absorb_plain hne, isOption_store]
      simp [hne]
  · have hfield := field_of_fenced (fun start => start.isOption option) (fun _ _ => true)
      option hfence (fun value start => by simp [isOption_store])
      (fun other value start hne => by simp [isOption_store, hne]) packet.plainOptions 0
      (started packet memory)
    rw [wireOptions, hfield, hstart, ← valuesOf, valuesOf_eq]
    by_cases hset : packet.isOption option = true
    · rw [if_pos hset, hset]
      have hvalues : packet.writtenValues option ≠ [] := by
        have hmem := hbuilt.options option hset
        have hsegments : packet.segments ≠ [] := List.splitOn_ne_nil _ _
        cases option <;> simp [writtenValues, hsegments] at hmem ⊢
      obtain ⟨value, rest, hsplit⟩ := List.exists_cons_of_ne_nil hvalues
      rw [hsplit, List.foldl_cons]
      clear hsplit
      induction rest with
      | nil => rfl
      | cons next rest ih => exact ih
    · rw [if_neg hset]
      simpa using hset

/-- What a segment does to the text and the length of a path. -/
def joinSegment (path : List UInt8 × ℕ) (segment : List UInt8) : List UInt8 × ℕ :=
  (if path.2 > 0 then path.1 ++ separator :: segment else segment,
    if path.2 > 0 then path.2 + 1 + segment.length else segment.length)

theorem intercalate_append_head (first text : List UInt8) (rest : List (List UInt8)) :
    [separator].intercalate ((first ++ text) :: rest) =
      first ++ [separator].intercalate (text :: rest) := by
  cases rest <;> simp

theorem foldl_joinSegment {rest : List (List UInt8)} :
    ∀ {text : List UInt8}, text ≠ [] →
      rest.foldl joinSegment (text, text.length) =
        ([separator].intercalate (text :: rest),
          ([separator].intercalate (text :: rest)).length) := by
  induction rest with
  | nil => intro text _; simp
  | cons next rest ih =>
      intro text hne
      have hpos : text.length > 0 := List.length_pos_iff.2 hne
      have hjoin : joinSegment (text, text.length) next =
          (text ++ separator :: next, (text ++ separator :: next).length) := by
        simp only [joinSegment, if_pos hpos, List.length_append, List.length_cons, Prod.mk.injEq,
          true_and]
        omega
      have hsplit : [separator].intercalate (text :: next :: rest) =
          [separator].intercalate ((text ++ separator :: next) :: rest) := by
        rw [intercalate_append_head, show separator :: next = [separator] ++ next from rfl,
          intercalate_append_head, List.intercalate_cons_cons, List.append_assoc]
      rw [List.foldl_cons, hjoin, ih (by simp), hsplit]

theorem decoded_path {packet memory : CoapPacket} (hbuilt : Built packet)
    (hset : packet.isOption .uriPath) :
    (decodedPacket packet memory).uriPath = packet.uriPath ∧
      (decodedPacket packet memory).uriPathLen = packet.uriPathLen := by
  have hfield := field_of_fenced (fun p => (p.uriPath, p.uriPathLen)) joinSegment
    .uriPath (by decide) (fun value start => rfl)
    (fun other value start hne => by cases other <;> first | rfl | exact absurd rfl hne)
    packet.plainOptions 0 (started packet memory)
  rw [← valuesOf, valuesOf_set hset, writtenValues] at hfield
  have hjoin : [separator].intercalate packet.segments = packet.uriPath :=
    List.intercalate_splitOn separator
  cases hsegments : packet.segments with
  | nil => exact absurd hsegments (List.splitOn_ne_nil separator packet.uriPath)
  | cons segment rest =>
      have hne : segment ≠ [] := ((hbuilt.path hset).2 segment (by simp [hsegments])).1
      have hfirst : joinSegment ([], 0) segment = (segment, segment.length) := by
        simp [joinSegment]
      rw [hsegments] at hfield hjoin
      rw [show ((started packet memory).uriPath, (started packet memory).uriPathLen) = ([], 0)
        from rfl, List.foldl_cons, hfirst, foldl_joinSegment hne, hjoin] at hfield
      obtain ⟨hpath, hlen⟩ := Prod.mk.inj hfield
      exact ⟨hpath, hlen.trans (hbuilt.path hset).1.symm⟩

theorem decoded_field {β : Type*} (packet memory : CoapPacket) (field : CoapPacket → β)
    (value : List UInt8 → β) (option : CoapOption) (hfence : option ≠ .maxOfe)
    (hset : packet.isOption option) {bytes : List UInt8}
    (hvalues : packet.writtenValues option = [bytes])
    (hsame : ∀ bytes start, field (store option bytes start) = value bytes)
    (hother : ∀ other bytes start, other ≠ option →
      field (store other bytes start) = field start) :
    field (packet.wireOptions.foldl absorb (started packet memory)) = value bytes := by
  rw [wireOptions, field_of_fenced field (fun _ bytes => value bytes) option hfence hsame hother,
    ← valuesOf, valuesOf_set hset, hvalues]
  rfl

theorem decoded_header (packet memory : CoapPacket) :
    (decodedPacket packet memory).version = packet.version &&& 3 ∧
      (decodedPacket packet memory).type = packet.type &&& 3 ∧
      (decodedPacket packet memory).code = packet.code ∧
      (decodedPacket packet memory).mid = packet.mid ∧
      (decodedPacket packet memory).maxAge = memory.maxAge := by
  have hkeeps := field_foldl_absorb (fun p => (p.version, p.type, p.code, p.mid, p.maxAge))
    packet.wireOptions (fun opt _ start =>
      absorb_keeps (fun p => (p.version, p.type, p.code, p.mid, p.maxAge))
        (fun option value start => by cases option <;> rfl) opt start)
    (started packet memory)
  simpa [started, init, decodedPacket] using hkeeps

theorem decoded_contentType {packet : CoapPacket} (memory : CoapPacket)
    (hset : packet.isOption .contentType) :
    (decodedPacket packet memory).contentType = packet.contentType := by
  have hvalue := decoded_field packet memory (fun p => p.contentType)
    (fun bytes => (getIntOptValue false bytes).toUInt8) .contentType (by decide) hset rfl
    (fun _ _ => rfl) (fun other _ _ hne => by cases other <;> first | rfl | exact absurd rfl hne)
  simpa [getIntOptValue_intBytes, decodedPacket] using hvalue

theorem decoded_uriHost {packet : CoapPacket} (memory : CoapPacket)
    (hset : packet.isOption .uriHost) :
    (decodedPacket packet memory).uriHost =
      (getIntOptValue true (intBytes packet.uriHost.toUInt32)).toUInt16 :=
  decoded_field packet memory (fun p => p.uriHost)
    (fun bytes => (getIntOptValue true bytes).toUInt16) .uriHost (by decide) hset rfl
    (fun _ _ => rfl) (fun other _ _ hne => by cases other <;> first | rfl | exact absurd rfl hne)

theorem decoded_uriPort {packet : CoapPacket} (memory : CoapPacket)
    (hset : packet.isOption .uriPort) :
    (decodedPacket packet memory).uriPort = packet.uriPort := by
  have hvalue := decoded_field packet memory (fun p => p.uriPort)
    (fun bytes => (getIntOptValue false bytes).toUInt16) .uriPort (by decide) hset rfl
    (fun _ _ => rfl) (fun other _ _ hne => by cases other <;> first | rfl | exact absurd rfl hne)
  simpa [getIntOptValue_intBytes, decodedPacket] using hvalue

theorem decoded_observe {packet : CoapPacket} (memory : CoapPacket)
    (hset : packet.isOption .observe) :
    (decodedPacket packet memory).observe = packet.observe := by
  have hvalue := decoded_field packet memory (fun p => p.observe)
    (fun bytes => (getIntOptValue false bytes).toUInt16) .observe (by decide) hset rfl
    (fun _ _ => rfl) (fun other _ _ hne => by cases other <;> first | rfl | exact absurd rfl hne)
  simpa [getIntOptValue_intBytes, decodedPacket] using hvalue

theorem decoded_accept {packet : CoapPacket} (memory : CoapPacket)
    (hset : packet.isOption .accept) :
    (decodedPacket packet memory).accept = packet.accept := by
  have hvalue := decoded_field packet memory (fun p => p.accept)
    (fun bytes => (getIntOptValue false bytes).toUInt16) .accept (by decide) hset rfl
    (fun _ _ => rfl) (fun other _ _ hne => by cases other <;> first | rfl | exact absurd rfl hne)
  simpa [getIntOptValue_intBytes, decodedPacket] using hvalue

theorem decoded_token {packet : CoapPacket} (memory : CoapPacket) (hbuilt : Built packet)
    (hset : packet.isOption .token) :
    (decodedPacket packet memory).tokenLen = packet.tokenLen ∧
      (decodedPacket packet memory).token = packet.token := by
  have hvalue := decoded_field packet memory (fun p => (p.tokenLen, p.token))
    (fun bytes => (UInt8.ofNat bytes.length, bytes)) .token (by decide) hset rfl
    (fun _ _ => rfl) (fun other _ _ hne => by cases other <;> first | rfl | exact absurd rfl hne)
  obtain ⟨hlen, htoken⟩ := Prod.mk.inj hvalue
  refine ⟨?_, htoken⟩
  rw [(hbuilt.token hset).2, UInt8.ofNat_toNat] at hlen
  exact hlen

theorem decoded_block {packet : CoapPacket} (memory : CoapPacket)
    (hset : packet.isOption .block2) :
    (decodedPacket packet memory).block2Num = (setBlock packet packet.blockValue).block2Num ∧
      (decodedPacket packet memory).block2More = (setBlock packet packet.blockValue).block2More ∧
      (decodedPacket packet memory).block2Size =
        (setBlock packet packet.blockValue).block2Size := by
  have hvalue := decoded_field packet memory (fun p => (p.block2Num, p.block2More, p.block2Size))
    (fun bytes => ((setBlock packet (getIntOptValue false bytes)).block2Num,
      (setBlock packet (getIntOptValue false bytes)).block2More,
      (setBlock packet (getIntOptValue false bytes)).block2Size)) .block2 (by decide) hset rfl
    (fun _ _ => rfl) (fun other _ _ hne => by cases other <;> first | rfl | exact absurd rfl hne)
  rw [getIntOptValue_intBytes] at hvalue
  obtain ⟨hnum, hrest⟩ := Prod.mk.inj hvalue
  obtain ⟨hmore, hsize⟩ := Prod.mk.inj hrest
  exact ⟨hnum, hmore, hsize⟩

theorem block_restored_iff {packet : CoapPacket} (memory : CoapPacket) (hbuilt : Built packet)
    (hset : packet.isOption .block2) :
    ((decodedPacket packet memory).block2Num = packet.block2Num ∧
      (decodedPacket packet memory).block2More = packet.block2More ∧
      (decodedPacket packet memory).block2Size = packet.block2Size) ↔
      packet.block2Num.toNat < 2 ^ 28 ∧ packet.block2More ≤ 1 ∧ packet.block2Size ≤ 2048 := by
  obtain ⟨exponent, hexponent, hsize⟩ := hbuilt.block2 hset
  obtain ⟨hnum, hmore, hblock⟩ := decoded_block memory hset
  rw [hnum, hmore, hblock, blockValue, hsize, Nat.log_pow (by decide)]
  exact block_iff hexponent hsize packet

/-- When no segment has 15 bytes, the rest of the condition is what it takes. -/
theorem restored_decoded_iff {packet : CoapPacket} (hbuilt : Built packet) :
    (∀ memory, Restored packet (decodedPacket packet memory)) ↔
      (packet.version < 4 ∧ packet.type < 4 ∧ packet.isOption .maxAge = false ∧
        (packet.isOption .uriHost → packet.uriHost = 0) ∧
        (packet.isOption .block2 → packet.block2Num.toNat < 2 ^ 28 ∧ packet.block2More ≤ 1 ∧
          packet.block2Size ≤ 2048)) := by
  constructor
  · intro hrestored
    have h := hrestored packet
    obtain ⟨hversion, htype, -, -, -⟩ := decoded_header packet packet
    refine ⟨?_, ?_, ?_, ?_, ?_⟩
    · rw [← and_three, ← hversion]
      exact h.version
    · rw [← and_three, ← htype]
      exact h.type
    · -- the value that is found in memory may be any other
      by_contra hset
      have hmaxAge := (hrestored { packet with maxAge := packet.maxAge + 1 }).maxAge
        (by simpa using hset)
      rw [(decoded_header packet _).2.2.2.2] at hmaxAge
      simp at hmaxAge
    · intro hset
      have hhost := h.uriHost hset
      rw [decoded_uriHost packet hset] at hhost
      exact hex_intBytes.1 hhost
    · intro hset
      exact (block_restored_iff packet hbuilt hset).1 (h.block2 hset)
  · rintro ⟨hversion, htype, hmaxAge, hhost, hblock⟩ memory
    obtain ⟨hversion', htype', hcode, hmid, -⟩ := decoded_header packet memory
    constructor
    · rw [hversion', (and_three _).2 hversion]
    · rw [htype', (and_three _).2 htype]
    · exact hcode
    · exact hmid
    · exact isOption_decoded hbuilt
    · exact decoded_contentType memory
    · intro hset
      rw [hmaxAge] at hset
      exact absurd hset Bool.false_ne_true
    · intro hset
      rw [decoded_uriHost memory hset]
      exact hex_intBytes.2 (hhost hset)
    · exact decoded_uriPort memory
    · intro hset
      exact (decoded_path hbuilt hset).symm
    · exact decoded_observe memory
    · exact decoded_token memory hbuilt
    · exact decoded_accept memory
    · intro hset
      exact (block_restored_iff memory hbuilt hset).2 (hblock hset)
    · exact ⟨rfl, rfl⟩

end CoapPacket

end Wiselib.Coap
