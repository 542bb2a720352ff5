import Wiselib.Coap.CoapPacket

/-!
# What `packetToBuffer` writes

The encoder computes addresses as it goes: the loop over the segments of a path
finds the place of the next option from the position in the path and the number
of long segments so far.  Here its result is described as a list of bytes.

An option is a number with the bytes of its value, `wire` the bytes of a list
of options and `options packet` what a packet is written as.  `Wrote` says that
a step of the encoder wrote a list of options.  Each step is shown to do so on
its own, as long as the bytes fit, and `Wrote.append` puts them together.
-/

namespace Wiselib.Coap

open ByteBuffer

namespace CoapPacket

/-! ## Options on the wire -/

/-- What `split_option` writes before a segment. -/
def segmentHeader (delta length : ℕ) : List UInt8 :=
  if length > 15 then [UInt8.ofNat (delta <<< 4 ||| 15), UInt8.ofNat (length - 15)]
  else [UInt8.ofNat (delta <<< 4 ||| length)]

/-- What the encoder writes before the value of an option. -/
def headerOf (number delta length : ℕ) : List UInt8 :=
  if number = CoapOption.uriPath.number then segmentHeader delta length
  else setOptHeader delta length

/-- The bytes of options after the number `delta`. -/
def wire : ℕ → List (ℕ × List UInt8) → List UInt8
  | _, [] => []
  | delta, (number, value) :: rest =>
      headerOf number (number - delta) value.length ++ value ++ wire number rest

/-- The number of the last option. -/
def lastNumber (delta : ℕ) (opts : List (ℕ × List UInt8)) : ℕ :=
  opts.foldl (fun _ opt => opt.1) delta

/-- The options with the fence posts they need after the number `delta`. -/
def fenced : ℕ → List (ℕ × List UInt8) → List (ℕ × List UInt8)
  | _, [] => []
  | delta, (number, value) :: rest =>
      if number - delta > 15 then (14, []) :: (number, value) :: fenced number rest
      else (number, value) :: fenced number rest

/-- The segments of the path. -/
def segments (packet : CoapPacket) : List (List UInt8) := packet.uriPath.splitOn separator

/-- The number that stands for a block option with a size that is a power of two. -/
def blockValue (packet : CoapPacket) : UInt32 :=
  block packet.block2Num packet.block2More (Nat.log 2 packet.block2Size.toNat)

/-- An option with the values it is set to. -/
def optionIf (packet : CoapPacket) (option : CoapOption) (values : List (List UInt8)) :
    List (ℕ × List UInt8) :=
  if packet.isOption option then values.map fun value => (option.number, value) else []

/-- The options that are set, with their values. -/
def plainOptions (packet : CoapPacket) : List (ℕ × List UInt8) :=
  packet.optionIf .contentType [intBytes packet.contentType.toUInt32] ++
  packet.optionIf .maxAge [intBytes packet.maxAge] ++
  packet.optionIf .uriHost [intBytes packet.uriHost.toUInt32] ++
  packet.optionIf .uriPort [intBytes packet.uriPort.toUInt32] ++
  packet.optionIf .uriPath packet.segments ++
  packet.optionIf .observe [intBytes packet.observe.toUInt32] ++
  packet.optionIf .token [packet.token] ++
  packet.optionIf .accept [intBytes packet.accept.toUInt32] ++
  packet.optionIf .block2 [intBytes packet.blockValue]

/-- The options that the encoder writes for a packet. -/
def wireOptions (packet : CoapPacket) : List (ℕ × List UInt8) := fenced 0 packet.plainOptions

/-- The number of bytes that the encoder writes for a packet. -/
def encodedLength (packet : CoapPacket) : ℕ :=
  coapHeaderLen + 1 + (wire 0 packet.wireOptions).length + packet.payload.length

@[simp] theorem wire_nil {delta : ℕ} : wire delta [] = [] := rfl

theorem wire_append {delta : ℕ} {opts more : List (ℕ × List UInt8)} :
    wire delta (opts ++ more) = wire delta opts ++ wire (lastNumber delta opts) more := by
  induction opts generalizing delta with
  | nil => rfl
  | cons opt rest ih =>
      obtain ⟨number, value⟩ := opt
      simp [wire, lastNumber, ih]

theorem fenced_append {delta : ℕ} {opts more : List (ℕ × List UInt8)} :
    fenced delta (opts ++ more) = fenced delta opts ++ fenced (lastNumber delta opts) more := by
  induction opts generalizing delta with
  | nil => rfl
  | cons opt rest ih =>
      obtain ⟨number, value⟩ := opt
      by_cases hfar : number - delta > 15 <;> simp [fenced, hfar, lastNumber, ih]

theorem lastNumber_append {delta : ℕ} {opts more : List (ℕ × List UInt8)} :
    lastNumber delta (opts ++ more) = lastNumber (lastNumber delta opts) more := by
  simp [lastNumber]

theorem lastNumber_fenced {delta : ℕ} {opts : List (ℕ × List UInt8)} :
    lastNumber delta (fenced delta opts) = lastNumber delta opts := by
  induction opts generalizing delta with
  | nil => rfl
  | cons opt rest ih =>
      obtain ⟨number, value⟩ := opt
      by_cases hfar : number - delta > 15 <;> simpa [fenced, hfar, lastNumber] using ih

/-! ## Steps of the encoder -/

/-- A step of the encoder wrote `opts`. -/
structure Wrote (writer : Writer) (opts : List (ℕ × List UInt8)) (next : Writer) : Prop where
  holds : Holds next.buffer writer.bufIndex (wire writer.currentDelta opts)
  below : ∀ i < writer.bufIndex, next.buffer i = writer.buffer i
  index : next.bufIndex = writer.bufIndex + (wire writer.currentDelta opts).length
  delta : next.currentDelta = lastNumber writer.currentDelta opts
  count : next.optCount = writer.optCount + UInt8.ofNat opts.length

theorem Wrote.refl (writer : Writer) : Wrote writer [] writer :=
  ⟨holds_nil, fun _ _ => rfl, by simp, rfl, by simp⟩

theorem Wrote.append {writer middle last : Writer} {opts more : List (ℕ × List UInt8)}
    (hfirst : Wrote writer opts middle) (hsecond : Wrote middle more last) :
    Wrote writer (opts ++ more) last where
  holds := by
    have hmore := hsecond.holds
    rw [hfirst.index, hfirst.delta] at hmore
    rw [wire_append, holds_append]
    refine ⟨hfirst.holds.congr ?_, hmore⟩
    intro i _ hi
    exact hsecond.below i (by rw [hfirst.index]; exact hi)
  below := by
    intro i hi
    have hlt : i < middle.bufIndex := by rw [hfirst.index]; omega
    rw [hsecond.below i hlt, hfirst.below i hi]
  index := by
    rw [hsecond.index, hfirst.index, hfirst.delta, wire_append, List.length_append, Nat.add_assoc]
  delta := by rw [hsecond.delta, hfirst.delta, lastNumber_append]
  count := by
    rw [hsecond.count, hfirst.count, List.length_append, UInt8.ofNat_add, UInt8.add_assoc]

/-! ### Numbers -/

theorem length_intBytes_le (value : UInt32) : (intBytes value).length ≤ 4 := by
  unfold intBytes
  split_ifs <;> simp

theorem setOptHeader_short {delta length : ℕ} (hlength : length < 15) :
    setOptHeader delta length = [UInt8.ofNat (delta <<< 4 ||| length)] := by
  simp [setOptHeader, hlength]

theorem headerOf_short {number delta length : ℕ} (hlength : length < 15) :
    headerOf number delta length = [UInt8.ofNat (delta <<< 4 ||| length)] := by
  simp [headerOf, segmentHeader, setOptHeader, hlength, show ¬ length > 15 by omega]

theorem wrote_short {writer : Writer} {number : ℕ} {value : List UInt8} {buffer : ℕ → UInt8}
    (hlength : value.length < 15)
    (hholds : Holds buffer writer.bufIndex
      (UInt8.ofNat ((number - writer.currentDelta) <<< 4 ||| value.length) :: value))
    (hbelow : ∀ i < writer.bufIndex, buffer i = writer.buffer i) :
    Wrote writer [(number, value)]
      { buffer := buffer, bufIndex := writer.bufIndex + (value.length + 1),
        currentDelta := number, optCount := writer.optCount + 1 } where
  holds := by simpa [wire, headerOf_short hlength] using hholds
  below := hbelow
  index := by simp [wire, headerOf_short hlength]
  delta := rfl
  count := rfl

/-- The buffer after writing a value behind the place of its header, then the header. -/
theorem holds_value_header {buffer : ℕ → UInt8} {start : ℕ} {head : UInt8} {value : List UInt8} :
    Holds (write (write buffer (start + 1) value) start [head]) start (head :: value) := by
  rw [holds_cons]
  constructor
  · exact (holds_cons.1 holds_write).1
  · apply holds_write.congr
    intro i hi _
    exact write_above (by simpa using hi)

theorem holds_header_value {buffer : ℕ → UInt8} {start : ℕ} {header value : List UInt8} :
    Holds (write (write buffer start header) (start + header.length) value) start
      (header ++ value) :=
  holds_append.2 ⟨holds_write.write_of_le le_rfl, holds_write⟩

theorem number_le (option : CoapOption) : option.number ≤ 21 := by
  cases option <;> decide

theorem addFenceOpt_near {opt rounds written : ℕ} {writer : Writer}
    (hnear : ¬ opt - writer.currentDelta > 15) :
    addFenceOpt opt rounds writer written = (writer, written) := by
  cases rounds with
  | zero => rfl
  | succ rounds => rw [addFenceOpt, if_neg hnear]

theorem fence_delta {opt delta : ℕ} (hfar : opt - delta > 15) (hopt : opt ≤ 21) :
    (delta + (14 - delta % 14)) % 256 = 14 := by
  have hsmall : delta % 14 = delta := Nat.mod_eq_of_lt (by omega)
  omega

/-- The writer after one fence post. -/
def fencePost (writer : Writer) : Writer :=
  { buffer := write writer.buffer writer.bufIndex (setOptHeader (14 - writer.currentDelta % 14) 0)
    bufIndex := writer.bufIndex + 1
    currentDelta := 14
    optCount := writer.optCount + 1 }

theorem addFenceOpt_far {option : CoapOption} {writer : Writer}
    (hfar : option.number - writer.currentDelta > 15) :
    addFenceOpt option.number option.number writer 0 =
      ({ fencePost writer with bufIndex := writer.bufIndex }, 1) := by
  have hopt := number_le option
  obtain ⟨rounds, hrounds⟩ : ∃ rounds, option.number = rounds + 1 :=
    ⟨option.number - 1, by omega⟩
  have hdelta := fence_delta hfar hopt
  conv_lhs => rw [hrounds, addFenceOpt, ← hrounds, if_pos hfar]
  rw [addFenceOpt_near]
  · simp [fencePost, hdelta]
  · simp only [hdelta]
    omega

theorem wrote_fencePost {writer : Writer} (hdelta : writer.currentDelta < 14) :
    Wrote writer [(14, [])] (fencePost writer) := by
  have hmod : writer.currentDelta % 14 = writer.currentDelta := Nat.mod_eq_of_lt hdelta
  have hhead : Holds (fencePost writer).buffer writer.bufIndex
      (setOptHeader (14 - writer.currentDelta % 14) 0) := holds_write
  apply wrote_short (by simp)
  · simpa [fencePost, hmod, setOptHeader_short] using hhead
  · intro i hi
    exact write_below hi

/-- The part of `setIntOptValue` after the fence posts. -/
def putInt (option : CoapOption) (value : UInt32) (writer : Writer) : Writer :=
  let bytes := intBytes value
  let header := setOptHeader (option.number - writer.currentDelta) bytes.length
  { buffer := write (write writer.buffer (writer.bufIndex + 1) bytes) writer.bufIndex header
    bufIndex := writer.bufIndex + (bytes.length + 1)
    currentDelta := option.number
    optCount := writer.optCount + 1 }

theorem wrote_putInt {option : CoapOption} {value : UInt32} {writer : Writer} :
    Wrote writer [(option.number, intBytes value)] (putInt option value writer) := by
  have hshort : (intBytes value).length < 15 := by
    have := length_intBytes_le value
    omega
  apply wrote_short hshort
  · simpa [setOptHeader_short hshort] using holds_value_header
  · intro i hi
    simp only [write_below hi]
    exact write_below (by omega)

theorem wrote_setIntOptValue {option : CoapOption} {value : UInt32} {writer : Writer}
    (hfits : writer.bufIndex +
      (wire writer.currentDelta (fenced writer.currentDelta [(option.number, intBytes value)])).length
        ≤ 255) :
    Wrote writer (fenced writer.currentDelta [(option.number, intBytes value)])
      (setIntOptValue option value writer) := by
  have hshort : (intBytes value).length < 15 := by
    have := length_intBytes_le value
    omega
  have hopt := number_le option
  by_cases hfar : option.number - writer.currentDelta > 15
  · have hdelta : writer.currentDelta < 14 := by omega
    have hlist : fenced writer.currentDelta [(option.number, intBytes value)] =
        [(14, [])] ++ [(option.number, intBytes value)] := by simp [fenced, hfar]
    rw [hlist] at hfits ⊢
    have hbound : writer.bufIndex + (intBytes value).length + 2 ≤ 255 := by
      simpa [wire, headerOf_short, hshort, Nat.add_assoc, Nat.add_comm 1] using hfits
    have hput : Wrote (fencePost writer) [(option.number, intBytes value)]
        (putInt option value (fencePost writer)) := wrote_putInt
    have hsteps := (wrote_fencePost hdelta).append hput
    suffices setIntOptValue option value writer = putInt option value (fencePost writer) by
      rwa [this]
    simp [setIntOptValue, addFenceOpt_far hfar, putInt, fencePost, setOptHeader_short hshort]
    omega
  · have hlist : fenced writer.currentDelta [(option.number, intBytes value)] =
        [(option.number, intBytes value)] := by simp [fenced, hfar]
    rw [hlist] at hfits ⊢
    have hbound : writer.bufIndex + (intBytes value).length + 1 ≤ 255 := by
      simpa [wire, headerOf_short, hshort, Nat.add_assoc, Nat.add_comm 1] using hfits
    suffices setIntOptValue option value writer = putInt option value writer by
      rw [this]
      exact wrote_putInt
    simp [setIntOptValue, addFenceOpt_near hfar, putInt, setOptHeader_short hshort]
    omega

/-! ### Token and path -/

theorem wrote_setToken {packet : CoapPacket} {writer : Writer} (hlen : packet.tokenLen ≤ 8)
    (htoken : packet.token.length = packet.tokenLen.toNat)
    (hfits : writer.bufIndex + packet.token.length + 1 ≤ 255) :
    Wrote writer [(CoapOption.token.number, packet.token)] (packet.setToken writer) := by
  have hshort : packet.token.length < 15 := by
    have : packet.tokenLen.toNat ≤ 8 := hlen
    omega
  have hnext : (writer.bufIndex + 1) % 256 = writer.bufIndex + 1 := Nat.mod_eq_of_lt (by omega)
  have hend : (writer.bufIndex + 1 + packet.token.length) % 256 =
      writer.bufIndex + (packet.token.length + 1) := by omega
  suffices hbuffer : packet.setToken writer =
      { buffer := write (write writer.buffer writer.bufIndex
          [UInt8.ofNat ((CoapOption.token.number - writer.currentDelta) <<< 4 |||
            packet.token.length)]) (writer.bufIndex + 1) packet.token
        bufIndex := writer.bufIndex + (packet.token.length + 1)
        currentDelta := CoapOption.token.number
        optCount := writer.optCount + 1 } by
    rw [hbuffer]
    apply wrote_short hshort
    · exact holds_header_value
    · intro i hi
      rw [write_below (by omega), write_below hi]
  simp only [setToken, hnext, ← htoken, hend, List.take_length]

/-- The writer that a splitter of a path with options from `base` on stands for. -/
def Splitter.writer (s : Splitter) (base : ℕ) : Writer :=
  { buffer := s.buffer
    bufIndex := base + s.bufLast
    currentDelta := s.currentDelta
    optCount := s.optCount }

/-- What holds between the rounds of the loop of `split_option`: the position in
the path and in the buffer differ by the number of long segments so far. -/
structure Splitter.InStep (s : Splitter) : Prop where
  last : s.pathLast = s.index
  buffer : s.bufLast = s.index + s.shift

theorem mystrcspn_segment {segment rest : List UInt8}
    (hsegment : ∀ c ∈ segment, c ≠ separator ∧ c ≠ 0)
    (hrest : rest = [] ∨ ∃ more, rest = separator :: more) :
    mystrcspn (segment ++ rest) = segment.length := by
  rw [mystrcspn, List.takeWhile_append_of_pos (by simpa using hsegment)]
  rcases hrest with rfl | ⟨more, rfl⟩
  · simp
  · simp

/-- An option for a segment, behind the options written before. -/
def putSegment (segment : List UInt8) (writer : Writer) : Writer :=
  let header := segmentHeader (CoapOption.uriPath.number - writer.currentDelta) segment.length
  { buffer := write (write writer.buffer writer.bufIndex header)
      (writer.bufIndex + header.length) segment
    bufIndex := writer.bufIndex + header.length + segment.length
    currentDelta := CoapOption.uriPath.number
    optCount := writer.optCount + 1 }

theorem wrote_putSegment {writer : Writer} {segment : List UInt8} :
    Wrote writer [(CoapOption.uriPath.number, segment)] (putSegment segment writer) where
  holds := by simpa [wire, headerOf, putSegment] using holds_header_value
  below := by
    intro i hi
    simp only [putSegment]
    rw [write_below (by omega), write_below hi]
  index := by simp [putSegment, wire, headerOf, Nat.add_assoc]
  delta := rfl
  count := rfl

theorem splitSegment_spec {path segment rest : List UInt8} {base : ℕ} {s : Splitter}
    (hstep : s.InStep) (hdrop : path.drop s.index = segment ++ rest)
    (hsegment : ∀ c ∈ segment, c ≠ separator ∧ c ≠ 0)
    (hrest : rest = [] ∨ ∃ more, rest = separator :: more)
    (hfits : base + s.bufLast +
      (wire s.currentDelta [(CoapOption.uriPath.number, segment)]).length ≤ 255) :
    (splitSegment path base CoapOption.uriPath.number s).writer base =
        putSegment segment (s.writer base) ∧
      (splitSegment path base CoapOption.uriPath.number s).InStep ∧
      (splitSegment path base CoapOption.uriPath.number s).index =
        s.index + segment.length + 1 := by
  obtain ⟨hlast, hbuffer⟩ := hstep
  have hspan : mystrcspn (path.drop s.index) = segment.length := by
    rw [hdrop, mystrcspn_segment hsegment hrest]
  have htake : (path.drop s.index).take segment.length = segment := by
    rw [hdrop, List.take_left]
  have hlength : s.index + segment.length + 1 - s.index - 1 = segment.length := by omega
  by_cases hlong : segment.length > 15
  · have hbound : base + s.bufLast + (segment.length + 2) ≤ 255 := by
      simpa [wire, headerOf, segmentHeader, hlong, Nat.add_comm, Nat.add_left_comm] using hfits
    have hindex : (s.index + segment.length + 1) % 256 = s.index + segment.length + 1 :=
      Nat.mod_eq_of_lt (by omega)
    have hshift : (s.shift + 1) % 256 = s.shift + 1 := Nat.mod_eq_of_lt (by omega)
    have hnext : (s.index + segment.length + 1 + (s.shift + 1)) % 256 =
        s.index + segment.length + 1 + (s.shift + 1) := Nat.mod_eq_of_lt (by omega)
    simp only [splitSegment, hspan, hindex, hlast, hlength, htake, hlong, if_true, hshift, hnext]
    refine ⟨?_, ⟨rfl, rfl⟩, trivial⟩
    simp only [Splitter.writer, putSegment, segmentHeader, hlong, if_true, Writer.mk.injEq,
      List.length_cons, List.length_nil, true_and, and_true]
    omega
  · have hbound : base + s.bufLast + (segment.length + 1) ≤ 255 := by
      simpa [wire, headerOf, segmentHeader, hlong, Nat.add_comm, Nat.add_left_comm] using hfits
    have hindex : (s.index + segment.length + 1) % 256 = s.index + segment.length + 1 :=
      Nat.mod_eq_of_lt (by omega)
    have hnext : (s.index + segment.length + 1 + s.shift) % 256 =
        s.index + segment.length + 1 + s.shift := Nat.mod_eq_of_lt (by omega)
    simp only [splitSegment, hspan, hindex, hlast, hlength, htake, hlong, if_false, hnext]
    refine ⟨?_, ⟨rfl, rfl⟩, trivial⟩
    simp only [Splitter.writer, putSegment, segmentHeader, hlong, if_false, Writer.mk.injEq,
      List.length_cons, List.length_nil, true_and, and_true]
    omega

theorem splitLoop_spec {path : List UInt8} {base : ℕ} {rest : List (List UInt8)} :
    ∀ {segment : List UInt8} {rounds : ℕ} {s : Splitter}, s.InStep →
      path.drop s.index = [separator].intercalate (segment :: rest) →
      (∀ text ∈ segment :: rest, text ≠ [] ∧ ∀ c ∈ text, c ≠ separator ∧ c ≠ 0) →
      rest.length < rounds →
      base + s.bufLast + (wire s.currentDelta
        ((segment :: rest).map fun text => (CoapOption.uriPath.number, text))).length ≤ 255 →
      ∃ last, splitLoop path path.length base CoapOption.uriPath.number rounds s = some last ∧
        Wrote (s.writer base)
          ((segment :: rest).map fun text => (CoapOption.uriPath.number, text))
          (last.writer base) := by
  induction rest with
  | nil =>
      intro segment rounds s hstep hdrop htexts hrounds hfits
      obtain ⟨rounds, rfl⟩ : ∃ n, rounds = n + 1 := ⟨rounds - 1, by omega⟩
      obtain ⟨hne, hsegment⟩ := htexts segment List.mem_cons_self
      have hdrop : path.drop s.index = segment ++ [] := by simpa [List.intercalate] using hdrop
      have hlength : path.length - s.index = segment.length := by
        simpa using congrArg List.length hdrop
      have hpos : 0 < segment.length := List.length_pos_iff.2 hne
      obtain ⟨hround, hnext, hindex⟩ :=
        splitSegment_spec hstep hdrop hsegment (.inl rfl) (by simpa using hfits)
      refine ⟨splitSegment path base CoapOption.uriPath.number s, ?_, ?_⟩
      · rw [splitLoop, if_pos (by omega)]
        cases rounds with
        | zero => rw [splitLoop, if_neg (by omega)]
        | succ rounds => rw [splitLoop, if_neg (by omega)]
      · rw [hround]
        exact wrote_putSegment
  | cons text rest ih =>
      intro segment rounds s hstep hdrop htexts hrounds hfits
      obtain ⟨rounds, rfl⟩ : ∃ n, rounds = n + 1 := ⟨rounds - 1, by omega⟩
      obtain ⟨hne, hsegment⟩ := htexts segment List.mem_cons_self
      have hdrop : path.drop s.index =
          segment ++ separator :: [separator].intercalate (text :: rest) := by
        simpa [List.intercalate] using hdrop
      have hlength := congrArg List.length hdrop
      simp only [List.length_drop, List.length_append, List.length_cons] at hlength
      have hsplit : (segment :: text :: rest).map (fun text => (CoapOption.uriPath.number, text)) =
          [(CoapOption.uriPath.number, segment)] ++
            (text :: rest).map fun text => (CoapOption.uriPath.number, text) := rfl
      rw [hsplit, wire_append, List.length_append] at hfits
      have hfirst : base + s.bufLast +
          (wire s.currentDelta [(CoapOption.uriPath.number, segment)]).length ≤ 255 := by omega
      obtain ⟨hround, hnext, hindex⟩ :=
        splitSegment_spec hstep hdrop hsegment (.inr ⟨_, rfl⟩) hfirst
      have hwrote : Wrote (s.writer base) [(CoapOption.uriPath.number, segment)]
          ((splitSegment path base CoapOption.uriPath.number s).writer base) := by
        rw [hround]
        exact wrote_putSegment
      have hafter : path.drop (splitSegment path base CoapOption.uriPath.number s).index =
          [separator].intercalate (text :: rest) := by
        rw [hindex, Nat.add_assoc, ← List.drop_drop, hdrop, List.drop_append]
        simp
      have hwritten := hwrote.index
      have hdelta := hwrote.delta
      simp only [Splitter.writer] at hwritten hdelta
      have hfits : base + (splitSegment path base CoapOption.uriPath.number s).bufLast +
          (wire (splitSegment path base CoapOption.uriPath.number s).currentDelta
            ((text :: rest).map fun text => (CoapOption.uriPath.number, text))).length ≤ 255 := by
        rw [hdelta, hwritten]
        omega
      have hrounds : rest.length < rounds := by simpa using hrounds
      obtain ⟨last, hloop, hlast⟩ := ih hnext hafter
        (fun t ht => htexts t (List.mem_cons_of_mem _ ht)) hrounds hfits
      refine ⟨last, ?_, ?_⟩
      · rw [splitLoop, if_pos (by omega)]
        exact hloop
      · rw [hsplit]
        exact hwrote.append hlast

/-! ### All options -/

theorem fenced_of_le {opts : List (ℕ × List UInt8)} (hsmall : ∀ opt ∈ opts, opt.1 ≤ 15) :
    ∀ {delta : ℕ}, fenced delta opts = opts := by
  induction opts with
  | nil => intro delta; rfl
  | cons opt rest ih =>
      intro delta
      obtain ⟨number, value⟩ := opt
      have hnumber : number ≤ 15 := hsmall (number, value) List.mem_cons_self
      rw [fenced, if_neg (by omega), ih fun opt hopt => hsmall opt (List.mem_cons_of_mem _ hopt)]

/-- A packet as the setters build it.  The options are those the encoder knows,
a path consists of segments that are not empty, a token fits into its array and
the size of a block is a power of two. -/
structure Built (packet : CoapPacket) : Prop where
  optCount : packet.optCount = 0
  options : ∀ option, packet.isOption option →
    option ∈ [CoapOption.contentType, .maxAge, .uriHost, .uriPort, .uriPath, .observe, .token,
      .accept, .block2]
  path : packet.isOption .uriPath →
    packet.uriPathLen = packet.uriPath.length ∧ ∀ segment ∈ packet.segments, segment ≠ [] ∧ 0 ∉ segment
  token : packet.isOption .token →
    packet.tokenLen ≤ 8 ∧ packet.token.length = packet.tokenLen.toNat
  block2 : packet.isOption .block2 →
    ∃ exponent, 4 ≤ exponent ∧ packet.block2Size.toNat = 2 ^ exponent
  payload : packet.payload.length = packet.payloadLen.toNat

theorem not_mem_of_mem_splitOn {c : UInt8} {text : List UInt8} :
    ∀ segment ∈ text.splitOn c, c ∉ segment := by
  induction text with
  | nil => simp
  | cons first rest ih =>
      rw [List.splitOn_cons_eq_if_modifyHead]
      intro segment hsegment
      split_ifs at hsegment with heq
      · rcases List.mem_cons.1 hsegment with rfl | hrest
        · exact List.not_mem_nil
        · exact ih segment hrest
      · cases hsplit : rest.splitOn c with
        | nil => simp [hsplit] at hsegment
        | cons head tail =>
            rw [hsplit, List.modifyHead_cons, List.mem_cons] at hsegment
            rw [hsplit] at ih
            rcases hsegment with rfl | htail
            · have hhead : c ∉ head := ih head List.mem_cons_self
              have hfirst : c ≠ first := fun hsame => heq (by simp [hsame])
              simp [hhead, hfirst]
            · exact ih segment (List.mem_cons_of_mem _ htail)

theorem Built.segment {packet : CoapPacket} (hbuilt : Built packet)
    (hset : packet.isOption .uriPath) :
    ∀ text ∈ packet.segments, text ≠ [] ∧ ∀ c ∈ text, c ≠ separator ∧ c ≠ 0 := by
  intro text htext
  obtain ⟨hne, hzero⟩ := (hbuilt.path hset).2 text htext
  refine ⟨hne, ?_⟩
  intro c hc
  refine ⟨?_, fun heq => hzero (heq ▸ hc)⟩
  intro heq
  exact not_mem_of_mem_splitOn text htext (heq ▸ hc)

theorem length_le_wire (opts : List (ℕ × List UInt8)) :
    ∀ delta : ℕ, opts.length ≤ (wire delta opts).length := by
  induction opts with
  | nil => intro delta; simp
  | cons opt rest ih =>
      intro delta
      obtain ⟨number, value⟩ := opt
      have hheader : 1 ≤ (headerOf number (number - delta) value.length).length := by
        unfold headerOf segmentHeader setOptHeader
        split_ifs <;> simp
      have hrest := ih number
      simp only [wire, List.length_append, List.length_cons]
      omega

theorem lastNumber_map {number : ℕ} (texts : List (List UInt8)) :
    ∀ delta : ℕ, texts ≠ [] →
      lastNumber delta (texts.map fun text => (number, text)) = number := by
  induction texts with
  | nil => intro delta hne; exact absurd rfl hne
  | cons text rest ih =>
      intro delta _
      cases rest with
      | nil => rfl
      | cons next rest => exact ih number (List.cons_ne_nil next rest)

theorem wrote_splitOption {packet : CoapPacket} {writer : Writer} (hbuilt : Built packet)
    (hset : packet.isOption .uriPath)
    (hfits : writer.bufIndex + (wire writer.currentDelta
      (packet.segments.map fun text => (CoapOption.uriPath.number, text))).length ≤ 255) :
    ∃ next, packet.splitOption writer = some next ∧
      Wrote writer (packet.segments.map fun text => (CoapOption.uriPath.number, text)) next := by
  have hlen : packet.uriPathLen = packet.uriPath.length := (hbuilt.path hset).1
  have hjoin : [separator].intercalate packet.segments = packet.uriPath :=
    List.intercalate_splitOn separator
  have htexts := hbuilt.segment hset
  cases hsegments : packet.segments with
  | nil => exact absurd hsegments (List.splitOn_ne_nil separator packet.uriPath)
  | cons segment rest =>
      rw [hsegments] at hfits hjoin htexts
      -- each of the segments takes at least one byte
      have hcount : rest.length < 256 := by
        have hle := length_le_wire
          ((segment :: rest).map fun text => (CoapOption.uriPath.number, text)) writer.currentDelta
        simp only [List.length_map, List.length_cons] at hle
        omega
      let s : Splitter := ⟨writer.buffer, writer.currentDelta, writer.optCount, 0, 0, 0, 0⟩
      have hstep : s.InStep := ⟨rfl, rfl⟩
      have hfits : writer.bufIndex + s.bufLast + (wire s.currentDelta
          ((segment :: rest).map fun text => (CoapOption.uriPath.number, text))).length ≤ 255 := hfits
      obtain ⟨last, hloop, hlast⟩ := splitLoop_spec hstep hjoin.symm htexts hcount hfits
      have hindex : writer.bufIndex + last.bufLast = writer.bufIndex + (wire writer.currentDelta
          ((segment :: rest).map fun text => (CoapOption.uriPath.number, text))).length :=
        hlast.index
      have hdelta : last.currentDelta = CoapOption.uriPath.number :=
        hlast.delta.trans (lastNumber_map (segment :: rest) _ (List.cons_ne_nil segment rest))
      refine ⟨last.writer writer.bufIndex, ?_, hlast⟩
      rw [splitOption, hlen, hloop, Option.map_some, Splitter.writer, hdelta,
        Nat.mod_eq_of_lt (by omega)]

theorem powerOfTwo_pow {exponent rounds : ℕ} (hrounds : exponent < rounds) :
    powerOfTwo rounds (2 ^ exponent) = some exponent := by
  induction exponent generalizing rounds with
  | zero =>
      obtain ⟨rounds, rfl⟩ : ∃ n, rounds = n + 1 := ⟨rounds - 1, by omega⟩
      simp [powerOfTwo]
  | succ exponent ih =>
      obtain ⟨rounds, rfl⟩ : ∃ n, rounds = n + 1 := ⟨rounds - 1, by omega⟩
      have hhalf : 2 ^ (exponent + 1) >>> 1 = 2 ^ exponent := by
        rw [Nat.shiftRight_eq_div_pow, Nat.pow_succ]
        omega
      simp [powerOfTwo, hhalf, ih (show exponent < rounds by omega)]

theorem Wrote.writeIf {packet : CoapPacket} {option : CoapOption} {values : List (List UInt8)}
    {start writer : Writer} {opts : List (ℕ × List UInt8)} {step : Writer → Option Writer}
    (hwrote : Wrote start (fenced start.currentDelta opts) writer)
    (hfits : start.bufIndex + (wire start.currentDelta
      (fenced start.currentDelta (opts ++ packet.optionIf option values))).length ≤ 255)
    (hstep : packet.isOption option →
      writer.bufIndex + (wire writer.currentDelta (fenced writer.currentDelta
        (values.map fun value => (option.number, value)))).length ≤ 255 →
      ∃ next, step writer = some next ∧ Wrote writer (fenced writer.currentDelta
        (values.map fun value => (option.number, value))) next) :
    ∃ next, CoapPacket.writeIf (packet.isOption option) step writer = some next ∧
      Wrote start (fenced start.currentDelta (opts ++ packet.optionIf option values)) next := by
  by_cases hset : packet.isOption option = true
  · have hindex := hwrote.index
    have hdelta : writer.currentDelta = lastNumber start.currentDelta opts := by
      rw [hwrote.delta, lastNumber_fenced]
    rw [optionIf, if_pos hset, fenced_append, wire_append, lastNumber_fenced, ← hdelta,
      List.length_append] at hfits
    obtain ⟨next, hnext, hwritten⟩ := hstep hset (by omega)
    refine ⟨next, by simp [CoapPacket.writeIf, hset, hnext], ?_⟩
    rw [optionIf, if_pos hset, fenced_append, ← hdelta]
    exact hwrote.append hwritten
  · refine ⟨writer, by simp [CoapPacket.writeIf, hset], ?_⟩
    simpa [optionIf, hset] using hwrote

theorem Wrote.writeInt {packet : CoapPacket} {option : CoapOption} {value : UInt32}
    {start writer : Writer} {opts : List (ℕ × List UInt8)}
    (hwrote : Wrote start (fenced start.currentDelta opts) writer)
    (hfits : start.bufIndex + (wire start.currentDelta (fenced start.currentDelta
      (opts ++ packet.optionIf option [intBytes value]))).length ≤ 255) :
    ∃ next, CoapPacket.writeIf (packet.isOption option)
        (fun w => setIntOptValue option value w) writer = some next ∧
      Wrote start (fenced start.currentDelta
        (opts ++ packet.optionIf option [intBytes value])) next := by
  apply hwrote.writeIf hfits
  intro _ hroom
  exact ⟨_, rfl, wrote_setIntOptValue hroom⟩

theorem Wrote.writePath {packet : CoapPacket} {start writer : Writer}
    {opts : List (ℕ × List UInt8)} (hbuilt : Built packet)
    (hwrote : Wrote start (fenced start.currentDelta opts) writer)
    (hfits : start.bufIndex + (wire start.currentDelta (fenced start.currentDelta
      (opts ++ packet.optionIf .uriPath packet.segments))).length ≤ 255) :
    ∃ next, CoapPacket.writeIf (packet.isOption .uriPath) packet.splitOption writer = some next ∧
      Wrote start (fenced start.currentDelta
        (opts ++ packet.optionIf .uriPath packet.segments)) next := by
  apply hwrote.writeIf hfits
  intro hset hroom
  have hnear : fenced writer.currentDelta
      (packet.segments.map fun text => (CoapOption.uriPath.number, text)) =
        packet.segments.map fun text => (CoapOption.uriPath.number, text) := by
    apply fenced_of_le
    intro opt hopt
    obtain ⟨text, _, rfl⟩ := List.mem_map.1 hopt
    show CoapOption.uriPath.number ≤ 15
    decide
  rw [hnear] at hroom ⊢
  exact wrote_splitOption hbuilt hset hroom

theorem Wrote.writeToken {packet : CoapPacket} {start writer : Writer}
    {opts : List (ℕ × List UInt8)} (hbuilt : Built packet)
    (hwrote : Wrote start (fenced start.currentDelta opts) writer)
    (hfits : start.bufIndex + (wire start.currentDelta (fenced start.currentDelta
      (opts ++ packet.optionIf .token [packet.token]))).length ≤ 255) :
    ∃ next, CoapPacket.writeIf (packet.isOption .token) (fun w => packet.setToken w) writer =
        some next ∧
      Wrote start (fenced start.currentDelta (opts ++ packet.optionIf .token [packet.token]))
        next := by
  apply hwrote.writeIf hfits
  intro hset hroom
  have hnear : fenced writer.currentDelta ([packet.token].map fun text =>
      (CoapOption.token.number, text)) = [(CoapOption.token.number, packet.token)] := by
    apply fenced_of_le
    simp [CoapOption.number]
  obtain ⟨hlen, htoken⟩ := hbuilt.token hset
  rw [hnear] at hroom ⊢
  refine ⟨packet.setToken writer, rfl, wrote_setToken hlen htoken ?_⟩
  have hle : packet.tokenLen.toNat ≤ 8 := hlen
  have hshort : packet.token.length < 15 := by omega
  simp only [wire, headerOf_short hshort, List.length_append, List.length_cons,
    List.length_nil] at hroom
  omega

theorem Wrote.writeBlock {packet : CoapPacket} {start writer : Writer}
    {opts : List (ℕ × List UInt8)} (hbuilt : Built packet)
    (hwrote : Wrote start (fenced start.currentDelta opts) writer)
    (hfits : start.bufIndex + (wire start.currentDelta (fenced start.currentDelta
      (opts ++ packet.optionIf .block2 [intBytes packet.blockValue]))).length ≤ 255) :
    ∃ next, CoapPacket.writeIf (packet.isOption .block2)
        (fun w => (powerOfTwo 16 packet.block2Size.toNat).map fun exponent =>
          setIntOptValue .block2 (block packet.block2Num packet.block2More exponent) w) writer =
        some next ∧
      Wrote start (fenced start.currentDelta
        (opts ++ packet.optionIf .block2 [intBytes packet.blockValue])) next := by
  apply hwrote.writeIf hfits
  intro hset hroom
  obtain ⟨exponent, _, hsize⟩ := hbuilt.block2 hset
  have hlt : exponent < 16 := by
    apply (Nat.pow_lt_pow_iff_right (by decide : 1 < 2)).1
    rw [← hsize]
    exact packet.block2Size.toNat_lt
  have hvalue : packet.blockValue = block packet.block2Num packet.block2More exponent := by
    rw [blockValue, hsize, Nat.log_pow (by decide)]
  refine ⟨setIntOptValue .block2 packet.blockValue writer, ?_, wrote_setIntOptValue hroom⟩
  rw [hsize, powerOfTwo_pow hlt, hvalue]
  rfl

theorem fits_left {base delta bound : ℕ} {opts more : List (ℕ × List UInt8)}
    (hfits : base + (wire delta (fenced delta (opts ++ more))).length ≤ bound) :
    base + (wire delta (fenced delta opts)).length ≤ bound := by
  rw [fenced_append, wire_append, List.length_append] at hfits
  omega

theorem writeOptions_spec {packet : CoapPacket} {writer : Writer} (hbuilt : Built packet)
    (hdelta : writer.currentDelta = 0)
    (hfits : writer.bufIndex + (wire 0 packet.wireOptions).length ≤ 255) :
    ∃ next, packet.writeOptions writer = some next ∧ Wrote writer packet.wireOptions next := by
  unfold wireOptions plainOptions at hfits ⊢
  rw [← hdelta] at hfits ⊢
  have hfits8 := fits_left hfits
  have hfits7 := fits_left hfits8
  have hfits6 := fits_left hfits7
  have hfits5 := fits_left hfits6
  have hfits4 := fits_left hfits5
  have hfits3 := fits_left hfits4
  have hfits2 := fits_left hfits3
  have hfits1 := fits_left hfits2
  have hstart : Wrote writer (fenced writer.currentDelta []) writer := Wrote.refl writer
  obtain ⟨w1, heq1, hw1⟩ := hstart.writeInt hfits1
  obtain ⟨w2, heq2, hw2⟩ := hw1.writeInt hfits2
  obtain ⟨w3, heq3, hw3⟩ := hw2.writeInt hfits3
  obtain ⟨w4, heq4, hw4⟩ := hw3.writeInt hfits4
  obtain ⟨w5, heq5, hw5⟩ := hw4.writePath hbuilt hfits5
  obtain ⟨w6, heq6, hw6⟩ := hw5.writeInt hfits6
  obtain ⟨w7, heq7, hw7⟩ := hw6.writeToken hbuilt hfits7
  obtain ⟨w8, heq8, hw8⟩ := hw7.writeInt hfits8
  obtain ⟨w9, heq9, hw9⟩ := hw8.writeBlock hbuilt hfits
  refine ⟨w9, ?_, hw9⟩
  simp only [writeOptions, heq1, heq2, heq3, heq4, heq5, heq6, heq7, heq8, heq9,
    Option.bind_eq_bind, Option.bind_some]

/-- The bytes in front of the options. -/
def headerBytes (packet : CoapPacket) : List UInt8 :=
  [wiselibMidCoapResp,
    headerByte packet.version packet.type (UInt8.ofNat packet.wireOptions.length), packet.code,
    (packet.mid >>> 8).toUInt8, packet.mid.toUInt8]

theorem packetToBuffer_spec {packet : CoapPacket} (hbuilt : Built packet)
    (hfits : packet.encodedLength ≤ 255) (buffer : ℕ → UInt8) :
    ∃ written written', packet.packetToBuffer buffer =
        some (written', written, UInt8.ofNat packet.encodedLength) ∧
      Holds written 0 (packet.headerBytes ++ wire 0 packet.wireOptions ++ packet.payload) := by
  unfold encodedLength at hfits ⊢
  let writer : Writer :=
    { buffer := buffer, bufIndex := coapHeaderLen + 1, currentDelta := 0,
      optCount := packet.optCount }
  have hroom : writer.bufIndex + (wire 0 packet.wireOptions).length ≤ 255 := by
    change coapHeaderLen + 1 + _ ≤ 255
    omega
  obtain ⟨next, hnext, hwrote⟩ := writeOptions_spec hbuilt rfl hroom
  have hpayload : packet.payload.take packet.payloadLen.toNat = packet.payload := by
    rw [← hbuilt.payload, List.take_length]
  have hindex : next.bufIndex = coapHeaderLen + 1 + (wire 0 packet.wireOptions).length :=
    hwrote.index
  have hcount : next.optCount = UInt8.ofNat packet.wireOptions.length := by
    rw [hwrote.count]
    simp [writer, hbuilt.optCount]
  refine ⟨write (write next.buffer 0 packet.headerBytes) next.bufIndex packet.payload,
    { packet with optCount := next.optCount }, ?_, ?_⟩
  · simp only [packetToBuffer]
    rw [hnext]
    simp [hpayload, hcount, headerBytes, hbuilt.payload, hindex]
  · rw [holds_append, holds_append]
    refine ⟨⟨?_, ?_⟩, ?_⟩
    · apply holds_write.write_of_le
      rw [hindex]
      simp [headerBytes, coapHeaderLen]
    · apply Holds.write_of_le
      · apply hwrote.holds.congr
        intro i hi _
        apply write_above
        simp [writer, coapHeaderLen] at hi
        simp [headerBytes]
        omega
      · simp [hindex, headerBytes, coapHeaderLen]
    · have hlength : 0 + (packet.headerBytes ++ wire 0 packet.wireOptions).length =
          next.bufIndex := by
        rw [hindex]
        simp [headerBytes, coapHeaderLen]
        omega
      rw [hlength]
      exact holds_write

end CoapPacket

end Wiselib.Coap
