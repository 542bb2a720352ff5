import Wiselib.Library.ByteBuffer

/-!
# CoAP packets and their encoding

`CoapPacket` holds the header fields, the options and the payload of a message.
`packetToBuffer` writes a packet into a buffer: the options in the order of
their numbers, each with the difference to the number before it, then the
header, then the payload.  `bufferToPacket` goes through a buffer option by
option and fills the fields of a packet.

The buffer is the memory it points into.  A path of several segments is put
together there, over the headers of the options it comes from, and `uri_path_`
points to the result.
-/

namespace Wiselib.Coap

open ByteBuffer

/-! ## Numbers -/

/-- `coap_option_t`. -/
inductive CoapOption
  | contentType
  | maxAge
  | proxyUri
  | etag
  | uriHost
  | locationPath
  | uriPort
  | locationQuery
  | uriPath
  | observe
  | token
  | accept
  | ifMatch
  | maxOfe
  | uriQuery
  | block2
  | block1
  | ifNoneMatch
deriving DecidableEq

/-- The number of an option. -/
def CoapOption.number : CoapOption → ℕ
  | .contentType => 1
  | .maxAge => 2
  | .proxyUri => 3
  | .etag => 4
  | .uriHost => 5
  | .locationPath => 6
  | .uriPort => 7
  | .locationQuery => 8
  | .uriPath => 9
  | .observe => 10
  | .token => 11
  | .accept => 12
  | .ifMatch => 13
  | .maxOfe => 14
  | .uriQuery => 15
  | .block2 => 17
  | .block1 => 19
  | .ifNoneMatch => 21

/-- The option with a number, the cases of the `switch` of `buffer_to_packet`. -/
def CoapOption.ofNumber : ℕ → Option CoapOption
  | 1 => some .contentType
  | 2 => some .maxAge
  | 3 => some .proxyUri
  | 4 => some .etag
  | 5 => some .uriHost
  | 6 => some .locationPath
  | 7 => some .uriPort
  | 8 => some .locationQuery
  | 9 => some .uriPath
  | 10 => some .observe
  | 11 => some .token
  | 12 => some .accept
  | 13 => some .ifMatch
  | 14 => some .maxOfe
  | 15 => some .uriQuery
  | 17 => some .block2
  | 19 => some .block1
  | 21 => some .ifNoneMatch
  | _ => none

@[simp] theorem CoapOption.ofNumber_number (option : CoapOption) :
    CoapOption.ofNumber option.number = some option := by
  cases option <;> rfl

/-- `coap_status_t`. -/
inductive CoapStatus
  | noError
  | created
  | deleted
  | valid
  | changed
  | content
  | badRequest
  | unathorized
  | badOption
  | forbidden
  | notFound
  | methodNotAllowed
  | preconditionFailed
  | requestEntityTooLarge
  | unsupportedMediaType
  | internalServerError
  | notImplemented
  | badGateway
  | serviceUnavailable
  | gatewayTimeout
  | proxyingNotSupported
deriving DecidableEq

def coapVersion : UInt8 := 1

def coapHeaderLen : ℕ := 4

/-- The first byte of every message, which tells the receiving node what it is. -/
def wiselibMidCoapResp : UInt8 := 102

/-- Separates the segments of a path. -/
def separator : UInt8 := 0x2f

/-! ## Packets -/

/-- A packet.  `uriPath` is the text `uri_path_` points to, and the memory
behind it is taken to go on with a null character. -/
structure CoapPacket where
  version : UInt8
  type : UInt8
  optCount : UInt8
  code : UInt8
  mid : UInt16
  /-- The bit at the number of each option that is set. -/
  options : ℕ
  contentType : UInt8
  maxAge : UInt32
  uriHost : UInt16
  uriPort : UInt16
  uriPathLen : ℕ
  uriPath : List UInt8
  observe : UInt16
  tokenLen : UInt8
  token : List UInt8
  accept : UInt16
  block2Num : UInt32
  block2More : UInt8
  block2Size : UInt16
  block2Offset : UInt32
  payloadLen : UInt8
  payload : List UInt8
deriving DecidableEq

namespace CoapPacket

/-- `init`, which leaves the values of the options as they are in memory. -/
def init (memory : CoapPacket) : CoapPacket :=
  { memory with
    version := coapVersion
    type := 0
    optCount := 0
    code := 0
    mid := 0
    options := 0
    uriPathLen := 0
    payloadLen := 0 }

/-- `is_option`. -/
def isOption (packet : CoapPacket) (option : CoapOption) : Bool :=
  packet.options.testBit option.number

/-- `set_option`. -/
def setOption (packet : CoapPacket) (option : CoapOption) : CoapPacket :=
  { packet with options := packet.options ||| 1 <<< option.number }

/-! ## Writing a packet -/

/-- `set_opt_header`: the bytes before the value of an option. -/
def setOptHeader (delta length : ℕ) : List UInt8 :=
  if length < 15 then [UInt8.ofNat (delta <<< 4 ||| length)]
  else [UInt8.ofNat (delta <<< 4 ||| 0x0f), UInt8.ofNat (length - 15)]

/-- The bytes of a number without leading zeros. -/
def intBytes (value : UInt32) : List UInt8 :=
  (if value &&& 0xff000000 ≠ 0 then [(value >>> 24).toUInt8] else []) ++
  (if value &&& 0xffff0000 ≠ 0 then [(value >>> 16).toUInt8] else []) ++
  (if value &&& 0xffffff00 ≠ 0 then [(value >>> 8).toUInt8] else []) ++
  (if value &&& 0xffffffff ≠ 0 then [value.toUInt8] else [])

/-- The local variables of `packet_to_buffer`. -/
structure Writer where
  buffer : ℕ → UInt8
  bufIndex : ℕ
  currentDelta : ℕ
  optCount : UInt8

/-- `add_fence_opt`: empty options of numbers divisible by 14, until the next
number is near enough.  `written` counts the bytes behind `bufIndex`, and
every round raises the delta, so `opt` rounds are enough. -/
def addFenceOpt (opt : ℕ) : ℕ → Writer → ℕ → Writer × ℕ
  | 0, writer, written => (writer, written)
  | rounds + 1, writer, written =>
      if opt - writer.currentDelta > 15 then
        let delta := 14 - writer.currentDelta % 14
        addFenceOpt opt rounds
          { writer with
            buffer := write writer.buffer (writer.bufIndex + written) (setOptHeader delta 0)
            currentDelta := (writer.currentDelta + delta) % 256
            optCount := writer.optCount + 1 }
          ((written + 1) % 256)
      else (writer, written)

/-- An option with a number for its value: `set_int_opt_value` and the lines
after its calls, which move on `buf_index`, `current_delta` and `opt_count_`. -/
def setIntOptValue (option : CoapOption) (value : UInt32) (writer : Writer) : Writer :=
  let (fenced, start) := addFenceOpt option.number option.number writer 0
  let bytes := intBytes value
  let header := setOptHeader (option.number - fenced.currentDelta) bytes.length
  -- the header of a number is one byte, and the value is written behind it first
  let buffer := write fenced.buffer (writer.bufIndex + start + 1) bytes
  { buffer := write buffer (writer.bufIndex + start) header
    bufIndex := (writer.bufIndex + (start + bytes.length + header.length) % 256) % 256
    currentDelta := option.number
    optCount := fenced.optCount + 1 }

/-- `mystrcspn`: the length of a text up to a separator or its end. -/
def mystrcspn (text : List UInt8) : ℕ :=
  (text.takeWhile fun c => c ≠ separator ∧ c ≠ 0).length

/-- The local variables of `split_option`, with the buffer. -/
structure Splitter where
  buffer : ℕ → UInt8
  currentDelta : ℕ
  optCount : UInt8
  index : ℕ
  bufLast : ℕ
  pathLast : ℕ
  shift : ℕ

/-- One round of the loop of `split_option`: an option for the next segment. -/
def splitSegment (path : List UInt8) (base opt : ℕ) (s : Splitter) : Splitter :=
  let index := (s.index + mystrcspn (path.drop s.index) + 1) % 256
  let length := index - s.pathLast - 1
  let segment := (path.drop s.pathLast).take length
  let delta := opt - s.currentDelta
  if length > 15 then
    { buffer :=
        write (write s.buffer (base + s.bufLast)
          [UInt8.ofNat (delta <<< 4 ||| 15), UInt8.ofNat (length - 15)])
          (base + s.bufLast + 2) segment
      currentDelta := opt
      optCount := s.optCount + 1
      index := index
      bufLast := (index + (s.shift + 1) % 256) % 256
      pathLast := index
      shift := (s.shift + 1) % 256 }
  else
    { buffer :=
        write (write s.buffer (base + s.bufLast) [UInt8.ofNat (delta <<< 4 ||| length)])
          (base + s.bufLast + 1) segment
      currentDelta := opt
      optCount := s.optCount + 1
      index := index
      bufLast := (index + s.shift) % 256
      pathLast := index
      shift := s.shift }

/-- The loop of `split_option`; `none` stands for going on after all rounds. -/
def splitLoop (path : List UInt8) (pathLen base opt : ℕ) : ℕ → Splitter → Option Splitter
  | 0, s => if s.index < pathLen then none else some s
  | rounds + 1, s =>
      if s.index < pathLen then splitLoop path pathLen base opt rounds (splitSegment path base opt s)
      else some s

/-- The options of a path: `split_option` and the lines after its call. -/
def splitOption (packet : CoapPacket) (writer : Writer) : Option Writer :=
  (splitLoop packet.uriPath packet.uriPathLen writer.bufIndex CoapOption.uriPath.number 256
    { buffer := writer.buffer
      currentDelta := writer.currentDelta
      optCount := writer.optCount
      index := 0
      bufLast := 0
      pathLast := 0
      shift := 0 }).map fun s =>
    { buffer := s.buffer
      bufIndex := (writer.bufIndex + s.bufLast) % 256
      currentDelta := CoapOption.uriPath.number
      optCount := s.optCount }

/-- The option of the token. -/
def setToken (packet : CoapPacket) (writer : Writer) : Writer :=
  let delta := CoapOption.token.number - writer.currentDelta
  let buffer := write writer.buffer writer.bufIndex
    [UInt8.ofNat (delta <<< 4 ||| packet.tokenLen.toNat)]
  { buffer := write buffer ((writer.bufIndex + 1) % 256) (packet.token.take packet.tokenLen.toNat)
    bufIndex := ((writer.bufIndex + 1) % 256 + packet.tokenLen.toNat) % 256
    currentDelta := CoapOption.token.number
    optCount := writer.optCount + 1 }

/-- `power_of_two`, whose loop does not end on zero. -/
def powerOfTwo : ℕ → ℕ → Option ℕ
  | 0, _ => none
  | rounds + 1, num => if num ≠ 1 then (powerOfTwo rounds (num >>> 1)).map (· + 1) else some 0

/-- The number that stands for the fields of the block option. -/
def block (num : UInt32) (more : UInt8) (exponent : ℕ) : UInt32 :=
  let block := num <<< 4
  let block := if more ≠ 0 then block ||| 0x8 else block
  block ||| UInt32.ofNat ((exponent - 4) &&& 0xf)

/-- The byte with the version, the type and the number of options. -/
def headerByte (version type optCount : UInt8) : UInt8 :=
  ((0xc0 : UInt8) &&& version <<< 6) ||| ((0x30 : UInt8) &&& type <<< 4) ||| ((0x0f : UInt8) &&& optCount)

/-- An option that is written when it is set. -/
def writeIf (condition : Bool) (step : Writer → Option Writer) (writer : Writer) : Option Writer :=
  if condition then step writer else some writer

/-- The options part of `packet_to_buffer`. -/
def writeOptions (packet : CoapPacket) (writer : Writer) : Option Writer := do
  let writer ← writeIf (packet.isOption .contentType)
    (fun w => setIntOptValue .contentType packet.contentType.toUInt32 w) writer
  let writer ← writeIf (packet.isOption .maxAge)
    (fun w => setIntOptValue .maxAge packet.maxAge w) writer
  let writer ← writeIf (packet.isOption .uriHost)
    (fun w => setIntOptValue .uriHost packet.uriHost.toUInt32 w) writer
  let writer ← writeIf (packet.isOption .uriPort)
    (fun w => setIntOptValue .uriPort packet.uriPort.toUInt32 w) writer
  let writer ← writeIf (packet.isOption .uriPath) packet.splitOption writer
  let writer ← writeIf (packet.isOption .observe)
    (fun w => setIntOptValue .observe packet.observe.toUInt32 w) writer
  let writer ← writeIf (packet.isOption .token) (fun w => packet.setToken w) writer
  let writer ← writeIf (packet.isOption .accept)
    (fun w => setIntOptValue .accept packet.accept.toUInt32 w) writer
  writeIf (packet.isOption .block2)
    (fun w => (powerOfTwo 16 packet.block2Size.toNat).map fun exponent =>
      setIntOptValue .block2 (block packet.block2Num packet.block2More exponent) w) writer

/-- `packet_to_buffer`: the packet with its new option count, the buffer and the
number of bytes written; `none` where a loop of the code does not end. -/
def packetToBuffer (packet : CoapPacket) (buffer : ℕ → UInt8) :
    Option (CoapPacket × (ℕ → UInt8) × UInt8) := do
  let writer ← packet.writeOptions
    { buffer := buffer, bufIndex := coapHeaderLen + 1, currentDelta := 0,
      optCount := packet.optCount }
  let buffer := write writer.buffer 0
    [wiselibMidCoapResp, headerByte packet.version packet.type writer.optCount, packet.code,
      (packet.mid >>> 8).toUInt8, packet.mid.toUInt8]
  let buffer := write buffer writer.bufIndex (packet.payload.take packet.payloadLen.toNat)
  return ({ packet with optCount := writer.optCount }, buffer,
    UInt8.ofNat (writer.bufIndex + packet.payloadLen.toNat))

/-! ## Reading a packet -/

/-- The digit that `get_int_opt_value` takes a character for. -/
def hexDigit (c : UInt8) : UInt32 :=
  if 0x41 ≤ c ∧ c ≤ 0x5a then (c - 0x41 + 10).toUInt32
  else if 0x61 ≤ c ∧ c ≤ 0x7a then (c - 0x61 + 10).toUInt32
  else if 0x30 ≤ c ∧ c ≤ 0x39 then (c - 0x30).toUInt32
  else 0

/-- `get_int_opt_value`. -/
def getIntOptValue (hexAscii : Bool) (value : List UInt8) : UInt32 :=
  value.foldl (fun var c => if hexAscii then var * 16 + hexDigit c else var <<< 8 ||| c.toUInt32) 0

/-- The local variables of `buffer_to_packet` with the packet and the buffer.
`pathAt` is the address in `uri_path_`, which counts once the path is not empty. -/
structure Reader where
  packet : CoapPacket
  buffer : ℕ → UInt8
  currentOpt : ℕ
  currentDelta : ℕ
  pathAt : ℕ

/-- `merge_options` with the value of length `length` at `currentOpt`. -/
def mergeOptions (reader : Reader) (length : ℕ) : Reader :=
  let pathLen := reader.packet.uriPathLen
  if pathLen > 0 then
    let separated := write reader.buffer (reader.pathAt + pathLen) [separator]
    { reader with
      buffer := write separated (reader.pathAt + (pathLen + 1))
        (read separated reader.currentOpt length)
      packet := { reader.packet with uriPathLen := pathLen + 1 + length } }
  else
    { reader with
      pathAt := reader.currentOpt
      packet := { reader.packet with uriPathLen := length } }

/-- The fields that the block option stands for. -/
def setBlock (packet : CoapPacket) (num : UInt32) : CoapPacket :=
  { packet with
    block2Num := num >>> 4
    block2More := ((num &&& 0x08) >>> 3).toUInt8
    block2Size := UInt16.ofNat (16 <<< (num &&& 0x07).toNat)
    block2Offset := (num &&& ~~~0x0f) <<< (num &&& 0x07) }

/-- The `switch` of `buffer_to_packet`: keeps the value of an option. -/
def storeOption (option : CoapOption) (length : ℕ) (reader : Reader) : Reader :=
  let value := read reader.buffer reader.currentOpt length
  let packet := reader.packet.setOption option
  match option with
  | .contentType =>
      { reader with packet := { packet with contentType := (getIntOptValue false value).toUInt8 } }
  | .uriHost =>
      { reader with packet := { packet with uriHost := (getIntOptValue true value).toUInt16 } }
  | .uriPort =>
      { reader with packet := { packet with uriPort := (getIntOptValue false value).toUInt16 } }
  | .uriPath => mergeOptions { reader with packet := packet } length
  | .observe =>
      { reader with packet := { packet with observe := (getIntOptValue false value).toUInt16 } }
  | .token =>
      { reader with packet := { packet with tokenLen := UInt8.ofNat length, token := value } }
  | .accept =>
      { reader with packet := { packet with accept := (getIntOptValue false value).toUInt16 } }
  | .block2 => { reader with packet := setBlock packet (getIntOptValue false value) }
  -- the value of a max-age option is skipped, as is that of the other options
  | _ => { reader with packet := packet }

/-- The number of the option at the reader, the length of its value and where it starts. -/
def optionHeader (reader : Reader) : ℕ × ℕ × ℕ :=
  let head := reader.buffer reader.currentOpt
  let delta := (reader.currentDelta + (head >>> 4).toNat) % 256
  let length := head &&& 0x0f
  if length < 15 then (delta, length.toNat, reader.currentOpt + 1)
  else (delta, (reader.buffer (reader.currentOpt + 1)).toNat + 15, reader.currentOpt + 2)

/-- One round of the loop of `buffer_to_packet`. -/
def readOption (reader : Reader) : Except Reader Reader :=
  let (delta, length, value) := optionHeader reader
  let reader := { reader with currentDelta := delta, currentOpt := value }
  if delta = 14 ∧ length = 0 then .ok reader
  else
    match CoapOption.ofNumber delta with
    | none => .error reader
    | some option => .ok { storeOption option length reader with currentOpt := value + length }

/-- The loop of `buffer_to_packet`. -/
def readOptions : ℕ → Reader → Except Reader Reader
  | 0, reader => .ok reader
  | count + 1, reader => (readOption reader).bind (readOptions count)

/-- The packet of a reader, with the text of its path. -/
def Reader.view (reader : Reader) : CoapPacket :=
  { reader.packet with uriPath := read reader.buffer reader.pathAt reader.packet.uriPathLen }

/-- The header of a message. -/
def readHeader (packet : CoapPacket) (buffer : ℕ → UInt8) : CoapPacket :=
  { packet with
    version := (buffer 1 &&& 0xc0) >>> 6
    type := (buffer 1 &&& 0x30) >>> 4
    optCount := buffer 1 &&& 0x0f
    code := buffer 2
    mid := (buffer 3).toUInt16 <<< 8 ||| (buffer 4).toUInt16 }

/-- `buffer_to_packet` on a packet that went through `init`. -/
def bufferToPacket (packet : CoapPacket) (len : UInt8) (buffer : ℕ → UInt8) :
    CoapStatus × CoapPacket :=
  let packet := packet.readHeader buffer
  match readOptions packet.optCount.toNat
    { packet := packet, buffer := buffer, currentOpt := coapHeaderLen + 1, currentDelta := 0,
      pathAt := 0 } with
  | .error reader => (.badOption, reader.view)
  | .ok reader =>
      let payloadLen := len - UInt8.ofNat reader.currentOpt
      (.noError,
        { reader.view with
          payloadLen := payloadLen
          payload := read reader.buffer reader.currentOpt payloadLen.toNat })

end CoapPacket

end Wiselib.Coap
