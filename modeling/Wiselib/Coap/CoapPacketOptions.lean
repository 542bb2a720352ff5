import Wiselib.Coap.CoapPacketAssignment

/-!
# Changing the options of a static CoAP packet

`add_option`, `set_option` and `remove_option` of `CoapPacketStatic`, on the
packet objects and the memory of `CoapPacketAssignment`.

An option that is added goes before the next bigger one, whose delta changes.
Deltas that do not fit get a fencepost between the two options, and from 15
options on a marker is put behind the last one.  There is no result where the
source would follow a null pointer of the option table or look behind its end.
-/

namespace Wiselib.StaticCoap

/-! ## Constants -/

def coapMaxDeltaDefault : ℕ := 16

def coapMaxDeltaUnlimited : ℕ := 14

def coapOptFencepost : OptionNumber := ⟨14, by decide⟩

def coapStringOptsMaxlen : ℕ := 270

/-- In place of a number of options: a value that gets a header when it is added. -/
def singleOptionNoHeader : ℕ := 0

/-- What `add_option` and `set_option` return. -/
inductive OptionStatus
  | success
  | errUnknownOpt
  | errWrongType
  | errNomem
  | errMultipleOccurencesOfOption
deriving DecidableEq

/-- The values of the three overloads. -/
inductive OptionValue
  | uint (value : UInt32)
  | string (value : List UInt8)
  | opaqueData (value : List UInt8)

/-! ## Memory -/

/-- `memmove`. -/
def memmove (memory : Memory) (target source : ℤ) (count : ℕ) : Memory := fun p =>
  if target ≤ p ∧ p < target + count then memory (source + (p - target)) else memory p

/-- `memcpy` from bytes that are not in the memory of a packet. -/
def memcpy (memory : Memory) (target : ℤ) (bytes : List UInt8) : Memory := fun p =>
  if target ≤ p ∧ p < target + bytes.length then bytes.getD (p - target).toNat 0 else memory p

/-- A delta in the upper half of a byte. -/
def upperHalf (delta : ℤ) : UInt8 := UInt8.ofNat ((delta * 16) % 256).toNat

/-- The delta of the option at a position. -/
def deltaAt (memory : Memory) (position : ℤ) : ℕ := ((memory position &&& 0xf0) >>> 4).toNat

/-- Change the delta of the option at a position. -/
def setDelta (memory : Memory) (position : ℤ) (delta : ℤ) : Memory :=
  Function.update memory position ((memory position &&& 0x0f) ||| upperHalf delta)

/-- The pointer of an option, none for null and behind the table. -/
def lookup (options : OptionNumber → Option ℤ) (number : ℕ) : Option ℤ :=
  if h : number < coapOptionArraySize then options ⟨number, h⟩ else none

/-- Change a pointer of the table. -/
def point (options : OptionNumber → Option ℤ) (number : ℕ) (pointer : Option ℤ) :
    OptionNumber → Option ℤ := fun i =>
  if i.val = number then pointer else options i

/-! ## Fenceposts and scanning -/

/-- `is_fencepost`. -/
def isFencepost (number : ℕ) : Bool := 0 < number ∧ number % 14 = 0

/-- `next_fencepost_delta`. -/
def nextFencepostDelta (previous : ℕ) : ℕ := 14 - previous % 14

/-- `scan_opts`.  Every round goes over a byte at least. -/
def scanOptsLoop (memory : Memory) : (rounds : ℕ) → PacketObject → ℤ → ℕ → PacketObject
  | 0, packet, _, _ => packet
  | rounds + 1, packet, start, prev =>
      if start < packet.endOfOptions then
        if isEndOfOptsMarker packet.optionCount (memory start) then packet
        else
          let delta := deltaAt memory start
          let next := start + optionLength (memory start) (memory (start + 1))
          if delta = 0 then scanOptsLoop memory rounds packet next prev
          else if coapLargestOptionNumber.toNat < prev + delta then packet
          else
            scanOptsLoop memory rounds
              { packet with options := point packet.options (prev + delta) (some start) }
              next (prev + delta)
      else packet

def scanOpts (memory : Memory) (packet : PacketObject) (start : ℤ) (prev : ℕ) : PacketObject :=
  scanOptsLoop memory (packet.endOfOptions - start).toNat packet start prev

/-! ## The marker behind the options -/

/-- The loop of `add_end_of_opts_marker`, which puts a fencepost between options whose
numbers are 16 apart. -/
def splitGaps : List OptionNumber → (prev : ℕ) → Memory → PacketObject →
    OptionStatus × Memory × PacketObject
  | [], _, memory, packet => (.success, memory, packet)
  | i :: rest, prev, memory, packet =>
      match packet.options i with
      | none => splitGaps rest prev memory packet
      | some start =>
          if i.val = prev + coapMaxDeltaDefault then
            if packet.payload < packet.endOfOptions + 1 then (.errNomem, memory, packet)
            else
              let fencepost := prev + nextFencepostDelta prev
              let moved :=
                memmove memory (start + 1) start (packet.endOfOptions - start).toNat
              let split := Function.update moved start (upperHalf (nextFencepostDelta prev))
              splitGaps rest i (setDelta split (start + 1) (i.val - fencepost))
                { packet with
                  options := point (point packet.options i (some (start + 1))) fencepost (some start)
                  endOfOptions := packet.endOfOptions + 1
                  optionCount := packet.optionCount + 1 }
          else splitGaps rest i memory packet

/-- `add_end_of_opts_marker`. -/
def addEndOfOptsMarker (memory : Memory) (packet : PacketObject) :
    OptionStatus × Memory × PacketObject :=
  match splitGaps (List.finRange coapOptionArraySize) 0 memory packet with
  | (.success, memory, packet) =>
      if packet.payload < packet.endOfOptions + 1 then (.errNomem, memory, packet)
      else
        let marked := Function.update memory packet.endOfOptions coapEndOfOptionsMarker
        (.success, marked,
          scanOpts marked { packet with endOfOptions := packet.endOfOptions + 1 } packet.storage 0)
  | failed => failed

/-- `remove_end_of_opts_marker`.  The loop has one round, for the fencepost 14. -/
def removeEndOfOptsMarker (memory : Memory) (packet : PacketObject) :
    Option (Memory × PacketObject) := do
  let (memory, packet) ←
    match packet.options coapOptFencepost with
    | none => some (memory, packet)
    | some start =>
        let prev := (coapOptFencepost.val + 256 - deltaAt memory start) % 256
        let next := coapOptFencepost.val + deltaAt memory (start + 1)
        if next = prev + coapMaxDeltaDefault then
          if next < coapOptionArraySize then
            let moved := memmove memory start (start + 1) (packet.endOfOptions - (start + 1)).toNat
            some (Function.update moved start ((moved start &&& 0x0f) ||| coapEndOfOptionsMarker),
              { packet with
                options := point (point packet.options next (some start)) coapOptFencepost.val none
                optionCount := packet.optionCount - 1
                endOfOptions := packet.endOfOptions - 1 })
          else none
        else some (memory, packet)
  let scanned := scanOpts memory packet packet.storage 0
  return (memory, { scanned with endOfOptions := scanned.endOfOptions - 1 })

/-! ## `add_option` -/

/-- Where `add_option` puts an option: from `putHere` on, before the option `next` at
`nextOptStart` (number 0 if there is none), behind the option `prev`; `options` is the table
without the fenceposts that are not needed any more. -/
structure Place where
  putHere : ℤ
  nextOptStart : ℤ
  prev : ℕ
  next : ℕ
  options : OptionNumber → Option ℤ

/-- The largest delta that is used without a fencepost. -/
def maxDelta (packet : PacketObject) (numOfOpts : ℕ) : ℕ :=
  if coapUnlimitedOptions ≤ packet.optionCount + numOfOpts ∨
      (numOfOpts = singleOptionNoHeader ∧ coapUnlimitedOptions ≤ packet.optionCount + 1) then
    coapMaxDeltaUnlimited
  else coapMaxDeltaDefault

/-- The search for the next bigger option: its number, where it starts, where its fencepost
starts, and the table without a fencepost that is not needed. -/
def findNext (memory : Memory) (packet : PacketObject) (num : OptionNumber) (maxDelta : ℕ) :
    Option (ℕ × ℤ × ℤ × (OptionNumber → Option ℤ)) :=
  match (List.finRange coapOptionArraySize).find? fun i =>
      num.val < i.val ∧ (packet.options i).isSome with
  | none => some (0, packet.endOfOptions, packet.endOfOptions, packet.options)
  | some i => do
      let putHere ← packet.options i
      let nextnext :=
        i.val + deltaAt memory (putHere + (memory putHere &&& 0x0f).toNat + 1)
      if isFencepost i ∧ nextnext ≤ num.val + maxDelta then
        let options := point packet.options i none
        let nextOptStart ← lookup options nextnext
        return (nextnext, nextOptStart, putHere, options)
      else return (i.val, putHere, putHere, packet.options)

/-- The search for the place of an option. -/
def findPlace (memory : Memory) (packet : PacketObject) (num : OptionNumber) (maxDelta : ℕ) :
    Option Place :=
  if packet.storage < packet.endOfOptions then do
    let (next, nextOptStart, putHere, options) ← findNext memory packet num maxDelta
    let prev ←
      if next ≠ 0 then
        if deltaAt memory nextOptStart ≤ next then some (next - deltaAt memory nextOptStart)
        else none
      else
        some (((List.finRange coapOptionArraySize).reverse.find? fun i =>
          0 < i.val ∧ i.val ≤ num.val ∧ (options i).isSome).elim 0 Fin.val)
    if isFencepost prev then
      let fencepost ← lookup options prev
      -- `prevprev` is `prev`: the byte and `0xf0` are combined by `&&`, and the result shifted
      if (num.val : ℤ) - prev ≤ maxDelta then
        return ⟨fencepost, nextOptStart, prev, next, point options prev none⟩
      else return ⟨putHere, nextOptStart, prev, next, options⟩
    else return ⟨putHere, nextOptStart, prev, next, options⟩
  else some ⟨packet.endOfOptions, packet.endOfOptions, 0, 0, packet.options⟩

/-- The option needs a fencepost before it. -/
def needsFencepost (place : Place) (num : OptionNumber) (maxDelta : ℕ) : Bool :=
  (maxDelta : ℤ) < num.val - place.prev

/-- `bytes_needed`. -/
def bytesNeeded (place : Place) (num : OptionNumber) (maxDelta length numOfOpts : ℕ) : ℤ :=
  length +
    ((if numOfOpts = singleOptionNoHeader then if coapLongOption.toNat ≤ length then 2 else 1
      else 0) + (if needsFencepost place num maxDelta then 1 else 0)) -
    (place.nextOptStart - place.putHere)

/-- The length of a value in its header. -/
def writeLength (memory : Memory) (position : ℤ) (length : ℕ) : Memory :=
  if length < coapLongOption.toNat then
    Function.update memory position
      ((memory position &&& 0xf0) ||| (UInt8.ofNat length &&& 0x0f))
  else
    Function.update (Function.update memory position ((memory position &&& 0xf0) ||| 0x0f))
      (position + 1) (UInt8.ofNat (length - coapLongOption.toNat))

/-- The part of `add_option` that writes, up to the new number of options. -/
def insertAt (memory : Memory) (packet : PacketObject) (place : Place) (num : OptionNumber)
    (serial : List UInt8) (numOfOpts : ℕ) : Memory × PacketObject :=
  let maxDelta := maxDelta packet numOfOpts
  let bytesNeeded := bytesNeeded place num maxDelta serial.length numOfOpts
  let opened :=
    if place.putHere < packet.endOfOptions then
      memmove (setDelta memory place.nextOptStart ((place.next : ℤ) - num.val))
        (place.nextOptStart + bytesNeeded) place.nextOptStart
        (packet.endOfOptions - place.nextOptStart).toNat
    else memory
  let copied := memcpy opened (place.putHere + (bytesNeeded - serial.length)) serial
  let fencepost := nextFencepostDelta place.prev
  let prev := if needsFencepost place num maxDelta then fencepost else place.prev
  let putHere :=
    if needsFencepost place num maxDelta then place.putHere + 1 else place.putHere
  let posted :=
    if needsFencepost place num maxDelta then
      Function.update copied place.putHere (upperHalf fencepost)
    else copied
  let numbered := setDelta posted putHere ((num.val : ℤ) - prev)
  let written :=
    if numOfOpts = singleOptionNoHeader then writeLength numbered putHere serial.length
    else numbered
  let changed : PacketObject :=
    { packet with
      endOfOptions := packet.endOfOptions + bytesNeeded
      options :=
        if needsFencepost place num maxDelta then
          point place.options fencepost (some place.putHere)
        else place.options
      optionCount :=
        if needsFencepost place num maxDelta then packet.optionCount + 1 else packet.optionCount }
  let scanned :=
    scanOpts written changed (if prev = num.val then putHere + serial.length else putHere) prev
  (written,
    { scanned with
      optionCount := changed.optionCount +
        if numOfOpts = singleOptionNoHeader then 1 else numOfOpts })

/-- The test for a number of options that has to be announced by the marker only now. -/
def crossesUnlimited (optionCount numOfOpts : ℕ) : Prop :=
  coapUnlimitedOptions ≤ optionCount ∧ (optionCount - numOfOpts < coapUnlimitedOptions ∨
    (numOfOpts = singleOptionNoHeader ∧ optionCount - 1 < coapUnlimitedOptions))

instance (optionCount numOfOpts : ℕ) : Decidable (crossesUnlimited optionCount numOfOpts) :=
  inferInstanceAs (Decidable (_ ∧ _))

/-- The private `add_option`, which gets the bytes to put into the packet. -/
def addSerial (memory : Memory) (packet : PacketObject) (num : OptionNumber)
    (serial : List UInt8) (numOfOpts : ℕ) : Option (OptionStatus × Memory × PacketObject) :=
  if (packet.options num).isSome ∧ coapOptCanOccurMultiple.getD num false = false then
    some (.errMultipleOccurencesOfOption, memory, packet)
  else
    (findPlace memory packet num (maxDelta packet numOfOpts)).map fun place =>
      if packet.payload ≤ packet.endOfOptions +
          bytesNeeded place num (maxDelta packet numOfOpts) serial.length numOfOpts then
        (.errNomem, memory, { packet with options := place.options })
      else
        let (memory, packet) := insertAt memory packet place num serial numOfOpts
        if crossesUnlimited packet.optionCount numOfOpts then addEndOfOptsMarker memory packet
        else (.success, memory, packet)

/-! ## The values -/

/-- What an overload hands to the private `add_option`. -/
inductive Encoded
  | failed (status : OptionStatus)
  | nothing
  | bytes (serial : List UInt8) (numOfOpts : ℕ)

/-- The four bytes of a value, the highest first. -/
def uintBytes (value : UInt32) : List UInt8 :=
  [UInt8.ofNat (value.toNat / 2 ^ 24), UInt8.ofNat (value.toNat / 2 ^ 16),
    UInt8.ofNat (value.toNat / 2 ^ 8), UInt8.ofNat value.toNat]

/-- `make_segments_from_string`, from a position where `segment` was read since the last
delimiter; `segments` and `count` are what is written already. -/
def makeSegments (delimiter : UInt8) : (rest segment segments : List UInt8) → (count : ℕ) →
    List UInt8 × ℕ
  | [], [], segments, count => (segments, count)
  | [], segment, segments, count =>
      if segment.length < coapLongOption.toNat then
        (segments ++ UInt8.ofNat segment.length :: segment, count + 1)
      else if segment.length ≤ coapStringOptsMaxlen then
        (segments ++ 0x0f :: UInt8.ofNat (segment.length - coapLongOption.toNat) :: segment,
          count + 1)
      else ([], count)
  | byte :: rest, segment, segments, count =>
      if byte = delimiter then
        if segment = [] then ([], count)
        else if segment.length < coapLongOption.toNat then
          makeSegments delimiter rest [] (segments ++ UInt8.ofNat segment.length :: segment)
            (count + 1)
        else if segment.length ≤ coapStringOptsMaxlen then
          makeSegments delimiter rest []
            (segments ++ 0x0f :: UInt8.ofNat (segment.length - coapLongOption.toNat) :: segment)
            (count + 1)
        else ([], count)
      else makeSegments delimiter rest (segment ++ [byte]) segments count

/-- The segments of a string that `rounds` rounds of the loop for long values make. -/
def longSegments : (rounds : ℕ) → List UInt8 → List UInt8 × ℕ
  | 0, _ => ([], 0)
  | rounds + 1, value =>
      let chunk := value.take coapStringOptsMaxlen
      let rest := value.drop coapStringOptsMaxlen
      let (more, count) := if rest = [] then ([], 0) else longSegments rounds rest
      (coapLongOption :: 0xff :: chunk ++ more, count + 1)

/-- Leave out a byte at the beginning. -/
def dropLeading (byte : UInt8) (value : List UInt8) : List UInt8 :=
  if value.head? = some byte then value.tail else value

/-- The segments of a path or query; a C string ends at its first zero. -/
def encodeSegments (delimiter : UInt8) (value : List UInt8) : Encoded :=
  if value = [] then .nothing
  else
    let (serial, count) := makeSegments delimiter (value.takeWhile (· ≠ 0)) [] [] 0
    .bytes serial count

/-- The overload of `add_option` for strings. -/
def encodeString (num : OptionNumber) (value : List UInt8) : Encoded :=
  if coapOptionFormat.getD num .formatUnknown ≠ .formatString then .failed .errWrongType
  else if value = [] then .nothing
  else if num = coapOptLocationPath ∨ num = coapOptUriPath then
    encodeSegments 0x2f (dropLeading 0x2f value)
  else if num = coapOptLocationQuery ∨ num = coapOptUriQuery then
    encodeSegments 0x26 (dropLeading 0x3f (dropLeading 0x2f value))
  else if value.length ≤ coapStringOptsMaxlen then .bytes value 0
  else
    let (serial, count) := longSegments value.length value
    .bytes serial count

/-- The overloads of `add_option`, up to the call of the private one. -/
def encode (num : OptionNumber) : OptionValue → Encoded
  | .uint value =>
      if coapOptionFormat.getD num .formatUnknown ≠ .formatUint then .failed .errWrongType
      else .bytes ((uintBytes value).dropWhile (· = 0)) singleOptionNoHeader
  | .string value => encodeString num value
  | .opaqueData value =>
      if coapOptionFormat.getD num .formatUnknown ≠ .formatOpaque then .failed .errWrongType
      else .bytes value singleOptionNoHeader

/-- `add_option`. -/
def addOption (memory : Memory) (packet : PacketObject) (number : ℕ) (value : OptionValue) :
    Option (OptionStatus × Memory × PacketObject) :=
  if h : number < coapOptionArraySize then
    match encode ⟨number, h⟩ value with
    | .failed status => some (status, memory, packet)
    | .nothing => some (.success, memory, packet)
    | .bytes serial numOfOpts => addSerial memory packet ⟨number, h⟩ serial numOfOpts
  else some (.errUnknownOpt, memory, packet)

/-! ## `remove_option` and `set_option` -/

/-- The loop over the segments of the option at `start`: their length and number.  A long
segment is measured by the byte behind the first header.  Every round goes over a byte at
least. -/
def segmentsOf (memory : Memory) (start stop : ℤ) : (rounds : ℕ) → (length count : ℕ) → ℕ × ℕ
  | 0, length, count => (length, count)
  | rounds + 1, length, count =>
      let head := memory (start + length)
      let length := length +
        if head &&& 0x0f = coapLongOption then
          coapLongOption.toNat + (memory (start + 1)).toNat + 2
        else (head &&& 0x0f).toNat + 1
      if start + length < stop ∧ memory (start + length) &&& 0xf0 = 0 then
        segmentsOf memory start stop rounds length (count + 1)
      else (length, count + 1)

/-- What `remove_option` takes out: from where on, how many bytes, how many segments, and the
number before it; with the memory and the table then. -/
structure Removal where
  memory : Memory
  start : ℤ
  length : ℤ
  segments : ℕ
  prev : ℕ
  options : OptionNumber → Option ℤ

/-- The part of `remove_option` that moves the options behind the removed one. -/
def closeGap (memory : Memory) (packet : PacketObject) (num : OptionNumber) (start : ℤ)
    (length count : ℕ) : Option Removal :=
  let maxDelta := if coapUnlimitedOptions ≤ packet.optionCount then coapMaxDeltaUnlimited
    else coapMaxDeltaDefault
  let prev := (num.val + 256 - deltaAt memory start) % 256
  if packet.endOfOptions ≤ start + length then
    if isFencepost prev then do
      let fencepost ← lookup packet.options prev
      return ⟨memory, fencepost, packet.endOfOptions - fencepost, count + 1, prev,
        point packet.options prev none⟩
    else some ⟨memory, start, length, count, prev, packet.options⟩
  else
    let next := num.val + deltaAt memory (start + length)
    let fencepost := prev + maxDelta < next ∧
      ¬ isEndOfOptsMarker packet.optionCount (memory (start + length))
    let fencepostDelta := nextFencepostDelta prev
    let posted :=
      if fencepost then Function.update memory start (upperHalf fencepostDelta) else memory
    let from' : ℤ := if fencepost then start + 1 else start
    let left : ℤ := if fencepost then (length : ℤ) - 1 else length
    let before := if fencepost then prev + fencepostDelta else prev
    let moved := memmove posted from' (from' + left) (packet.endOfOptions - (from' + left)).toNat
    some ⟨setDelta moved from' ((next : ℤ) - before), from', left,
      if fencepost then count - 1 else count, before, packet.options⟩

/-- `remove_option`. -/
def removeOption (memory : Memory) (packet : PacketObject) (num : OptionNumber) :
    Option (Memory × PacketObject) :=
  match packet.options num with
  | none => some (memory, packet)
  | some start => do
      let (length, count) := segmentsOf memory start packet.endOfOptions
        ((packet.endOfOptions - start).toNat + 1) 0 0
      let removal ← closeGap memory packet num start length count
      let removed := scanOpts removal.memory
        { packet with
          options := point removal.options num none
          endOfOptions := packet.endOfOptions - removal.length
          optionCount := packet.optionCount - removal.segments }
        removal.start removal.prev
      let lonelyFencepost := (removed.options coapOptFencepost).any fun fencepost =>
        (removal.memory fencepost &&& 0xf0) + (removal.memory (fencepost + 1) &&& 0xf0) =
          coapEndOfOptionsMarker
      if (coapUnlimitedOptions ≤ removed.optionCount + removal.segments ∧
            removed.optionCount < coapUnlimitedOptions) ∨
          (removed.optionCount = coapUnlimitedOptions ∧ lonelyFencepost = true) then
        removeEndOfOptsMarker removal.memory removed
      else return (removal.memory, removed)

/-- `set_option`.  A number behind the option table is looked up by `remove_option` before
`add_option` could refuse it. -/
def setOption (memory : Memory) (packet : PacketObject) (number : ℕ) (value : OptionValue) :
    Option (OptionStatus × Memory × PacketObject) :=
  if h : number < coapOptionArraySize then
    (removeOption memory packet ⟨number, h⟩).bind fun removed =>
      addOption removed.1 removed.2 number value
  else none

end Wiselib.StaticCoap
