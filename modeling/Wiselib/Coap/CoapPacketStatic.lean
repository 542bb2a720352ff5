import Mathlib

/-!
# Parsing a message into a static CoAP packet

`parse_message` copies the bytes behind the four header bytes into `storage_`
and goes through the options there with `initial_scan_opts`.  `storage_` is
modelled with whatever follows the copied bytes in memory, since the scan can
read on behind them.

Next to its result the parser returns what it did on the way: the bytes it
read, the table entries it looked up and the options it went through, all
counted from the first byte of the message.  `Safe` is the input safety of one
call, `Contained` the condition on the bytes under which it holds.
-/

namespace Wiselib.StaticCoap

/-! ## Constants and tables -/

def coapVersion : UInt8 := 1

/-- An option count that announces an end marker in place of a number of options. -/
def coapUnlimitedOptions : ℕ := 15

/-- A length code that announces a byte with the rest of the length. -/
def coapLongOption : UInt8 := 15

def coapEndOfOptionsMarker : UInt8 := 0xf0

def coapStartOfOptions : ℕ := 4

def coapLargestOptionNumber : UInt8 := 23

def coapOptionArraySize : ℕ := 24

/-- The response codes stored for a parse error. -/
inductive CoapCode
  | empty
  | badRequest
  | badOption
  | notImplemented
deriving DecidableEq

/-- The formats of options. -/
inductive Format
  | formatNone
  | formatUint
  | formatString
  | formatOpaque
  | formatUnknown
deriving DecidableEq

/-- `COAP_OPTION_FORMAT`. -/
def coapOptionFormat : List Format :=
  [.formatUnknown, .formatUint, .formatUint, .formatString, .formatOpaque, .formatString,
    .formatString, .formatUint, .formatString, .formatString, .formatUint, .formatOpaque,
    .formatUint, .formatOpaque, .formatNone, .formatString, .formatUnknown, .formatUnknown,
    .formatOpaque, .formatUnknown, .formatUnknown, .formatNone, .formatUnknown, .formatOpaque]

/-- `COAP_OPT_CAN_OCCUR_MULTIPLE`. -/
def coapOptCanOccurMultiple : List Bool :=
  [false, false, false, true, true, false, true, false, true, true, false, false, true, true,
    false, true, false, false, true, false, false, false, false, true]

/-- What `parse_message` returns. -/
inductive Status
  | success
  | errNomem
  | errNotCoap
  | errWrongCoapVersion
  | errOptionsExceedPacketLength
  | errUnknownCriticalOption
  | errMultipleOccurencesOfCriticalOption
  | errEmptyStringOption
deriving DecidableEq

/-- A packet.  Positions are counted from the start of `storage_`. -/
structure CoapPacketStatic where
  version : UInt8
  type : UInt8
  code : UInt8
  msgId : ℕ
  /-- `options_`: where the first option of each number starts. -/
  options : ℕ → Option ℕ
  optionCount : ℕ
  endOfOptions : ℕ
  payload : ℕ
  dataLength : ℕ
  errorCode : CoapCode
  errorOption : UInt8
  /-- The bytes of `storage_` and of the memory behind it. -/
  storage : ℕ → UInt8

/-- What the parser does on the way, with positions counted from the start of the message. -/
inductive Event
  | read (position : ℕ)
  | lookup (index : ℕ)
  | option (start length : ℕ)
deriving DecidableEq

/-! ## The scan of the options -/

/-- Odd option numbers are critical. -/
def isCritical (optionNumber : UInt8) : Bool := optionNumber &&& 1 ≠ 0

/-- The option number at a header byte; `uint8_t` wraps around. -/
def optionNumber (head previous : UInt8) : UInt8 := previous + ((head &&& 0xf0) >>> 4)

/-- Length of an option with its header bytes. -/
def optionLength (head extension : UInt8) : ℕ :=
  if head &&& 0x0f = coapLongOption then extension.toNat + 17 else (head &&& 0x0f).toNat + 1

/-- What happens to an option. -/
inductive Verdict
  | accepted
  | ignored
  | rejected (error : Status)
deriving DecidableEq

/-- An option that cannot be used is an error where it is critical, otherwise ignored. -/
def unusable (number : UInt8) (error : Status) : Verdict :=
  if isCritical number then .rejected error else .ignored

/-- The checks of one option.  `stray` gives the values behind the end of
`COAP_OPT_CAN_OCCUR_MULTIPLE`. -/
def judge (stray : ℕ → Bool) (current previous : UInt8) (length : ℕ) : Verdict :=
  if current = previous ∧
      (coapOptCanOccurMultiple[current.toNat]?).getD (stray current.toNat) = false then
    unusable current .errMultipleOccurencesOfCriticalOption
  else if current > coapLargestOptionNumber ∨
      (coapOptionFormat[current.toNat]?).getD .formatUnknown = .formatUnknown then
    unusable current .errUnknownCriticalOption
  else if (coapOptionFormat[current.toNat]?).getD .formatUnknown = .formatString ∧ length = 0 then
    unusable current .errEmptyStringOption
  else .accepted

/-- `is_end_of_opts_marker`. -/
def isEndOfOptsMarker (optionCount : ℕ) (head : UInt8) : Prop :=
  coapUnlimitedOptions ≤ optionCount ∧ head = coapEndOfOptionsMarker

instance (optionCount : ℕ) (head : UInt8) : Decidable (isEndOfOptsMarker optionCount head) :=
  inferInstanceAs (Decidable (_ ∧ _))

/-- The scan looks for another option: fewer than announced, or their number is open. -/
def MoreOptions (numOfOpts optionCount : ℕ) : Prop :=
  optionCount < numOfOpts ∨ numOfOpts = coapUnlimitedOptions

instance (numOfOpts optionCount : ℕ) : Decidable (MoreOptions numOfOpts optionCount) :=
  inferInstanceAs (Decidable (_ ∨ _))

/-- What the scan does at one option before it judges it: it reads the header, for a long
option the byte behind it, and for a repeated number the table of options that may repeat. -/
def optionEvents (storage : ℕ → UInt8) (position : ℕ) (previous : UInt8) : List Event :=
  let head := storage position
  let current := optionNumber head previous
  .read (coapStartOfOptions + position) ::
    ((if head &&& 0x0f = coapLongOption then [.read (coapStartOfOptions + position + 1)] else []) ++
      if current = previous then [.lookup current.toNat] else [])

/-- `set_data`: move the payload to the end of the storage. -/
def setData (storageSize : ℕ) (packet : CoapPacketStatic) (data length : ℕ) :
    Status × CoapPacketStatic :=
  let payload := storageSize - length
  if payload < packet.endOfOptions then (.errNomem, packet)
  else
    (.success, { packet with
      dataLength := length
      payload := payload
      storage := fun p =>
        if payload ≤ p ∧ p < payload + length then packet.storage (data + (p - payload))
        else packet.storage p })

/-- The end of `initial_scan_opts`: the bytes from `position` on are the payload. -/
def endScan (storageSize messageLength : ℕ) (packet : CoapPacketStatic) (position : ℕ) :
    Status × CoapPacketStatic × List Event :=
  let packet := { packet with endOfOptions := position }
  if position < messageLength then
    match setData storageSize packet position (messageLength - position) with
    | (status, packet) =>
        (status, packet,
          (List.range' (coapStartOfOptions + position) (messageLength - position)).map .read)
  else (.success, packet, [])

/-- `initial_scan_opts`, from the option at `position` on; `none` when `fuel` runs out. -/
def initialScanOpts (stray : ℕ → Bool) (storageSize numOfOpts messageLength : ℕ) :
    ℕ → CoapPacketStatic → ℕ → UInt8 → Option (Status × CoapPacketStatic × List Event)
  | 0, _, _, _ => none
  | fuel + 1, packet, position, previous =>
      if MoreOptions numOfOpts packet.optionCount then
        let head := packet.storage position
        if isEndOfOptsMarker packet.optionCount head then
          match endScan storageSize messageLength packet position with
          | (status, packet, events) =>
              some (status, packet, .read (coapStartOfOptions + position) :: events)
        else
          let current := optionNumber head previous
          let length := optionLength head (packet.storage (position + 1))
          let events := optionEvents packet.storage position previous ++
            [.option (coapStartOfOptions + position) length]
          match judge stray current previous length with
          | .rejected error =>
              some (error, { packet with errorCode := .badOption, errorOption := current }, events)
          | .ignored =>
              match initialScanOpts stray storageSize numOfOpts messageLength fuel
                  { packet with optionCount := packet.optionCount + 1 }
                  (position + length) current with
              | none => none
              | some (status, packet, rest) => some (status, packet, events ++ rest)
          | .accepted =>
              let packet := { packet with
                options := if current ≠ previous then
                    Function.update packet.options current.toNat (some position)
                  else packet.options
                optionCount := packet.optionCount + 1 }
              if (storageSize ≤ position + length ∨ messageLength ≤ position + length) ∧
                  packet.optionCount < numOfOpts then
                some (.errOptionsExceedPacketLength,
                  { packet with errorCode := .badRequest, errorOption := current }, events)
              else
                match initialScanOpts stray storageSize numOfOpts messageLength fuel packet
                    (position + length) current with
                | none => none
                | some (status, packet, rest) => some (status, packet, events ++ rest)
      else some (endScan storageSize messageLength packet position)

/-! ## parse_message -/

/-- `init`. -/
def CoapPacketStatic.init (storageSize : ℕ) (packet : CoapPacketStatic) : CoapPacketStatic where
  version := coapVersion
  type := 1
  code := 0
  msgId := 0
  options := fun _ => none
  payload := storageSize
  endOfOptions := 0
  dataLength := 0
  optionCount := 0
  errorCode := .empty
  errorOption := 0
  storage := packet.storage

/-- The byte `position` of a message. -/
def byteAt (datastream : List UInt8) (position : ℕ) : UInt8 := datastream.getD position 0

/-- The number of options the header announces. -/
def announcedOptions (datastream : List UInt8) : ℕ := (byteAt datastream 0 &&& 0x0f).toNat

/-- The packet once the header is read and the rest of the message copied. -/
def readHeader (packet : CoapPacketStatic) (datastream : List UInt8) : CoapPacketStatic :=
  { packet with
    version := byteAt datastream 0 >>> 6
    type := (byteAt datastream 0 &&& 0x30) >>> 4
    code := byteAt datastream 1
    msgId := 256 * (byteAt datastream 2).toNat + (byteAt datastream 3).toNat
    storage := fun p =>
      if p < datastream.length - coapStartOfOptions then
        byteAt datastream (coapStartOfOptions + p)
      else packet.storage p }

/-- `parse_message` on all bytes of `datastream`, with what it did on the way. -/
def parseMessage (stray : ℕ → Bool) (storageSize : ℕ) (packet : CoapPacketStatic)
    (datastream : List UInt8) (fuel : ℕ) : Option (Status × CoapPacketStatic × List Event) :=
  let packet := packet.init storageSize
  let length := datastream.length
  if coapStartOfOptions ≤ length then
    if storageSize < length - coapStartOfOptions then some (.errNomem, packet, [])
    else if byteAt datastream 0 >>> 6 ≠ coapVersion then
      some (.errWrongCoapVersion,
        { packet with
          version := byteAt datastream 0 >>> 6
          errorCode := .notImplemented
          errorOption := 0 }, [.read 0])
    else
      match initialScanOpts stray storageSize (announcedOptions datastream)
          (length - coapStartOfOptions) fuel (readHeader packet datastream) 0 0 with
      | none => none
      | some (status, packet, events) =>
          some (status, packet, (List.range length).map .read ++ events)
  else some (.errNotCoap, packet, [])

/-! ## Input safety -/

/-- What was done stays inside a message of `length` bytes and inside the tables. -/
def InBounds (length : ℕ) (events : List Event) : Prop :=
  (∀ position, .read position ∈ events → position < length) ∧
    ∀ index, .lookup index ∈ events → index < coapOptionArraySize

/-- After success the header, every option and the end of the options lie inside the message. -/
def Enclosed (length : ℕ) (status : Status) (packet : CoapPacketStatic) (events : List Event) :
    Prop :=
  status = .success → coapStartOfOptions ≤ length ∧
    (∀ start size, .option start size ∈ events → start + size ≤ length) ∧
    coapStartOfOptions + packet.endOfOptions ≤ length

/-- One call of `parse_message` ends and stays inside its input. -/
def Safe (stray : ℕ → Bool) (storageSize : ℕ) (packet : CoapPacketStatic)
    (datastream : List UInt8) : Prop :=
  ∃ fuel status parsed events,
    parseMessage stray storageSize packet datastream fuel = some (status, parsed, events) ∧
      InBounds datastream.length events ∧ Enclosed datastream.length status parsed events

/-! ## The condition on the bytes -/

/-- The table of options that may repeat, for the numbers it has. -/
def noStray : ℕ → Bool := fun _ => false

/-- The option at `position` starts inside the options: its header byte is there, the byte
behind it where the length takes two bytes, and a repeated number is one of the table. -/
structure HeaderInside (message : ℕ → UInt8) (messageLength position : ℕ) (previous : UInt8) :
    Prop where
  header : position < messageLength
  extension : message position &&& 0x0f = coapLongOption → position + 1 < messageLength
  repeated : optionNumber (message position) previous = previous →
    previous.toNat < coapOptionArraySize

/-- The options from `position` on keep to the first `messageLength` bytes of `message`. -/
inductive Contained (message : ℕ → UInt8) (numOfOpts messageLength : ℕ) : ℕ → ℕ → UInt8 → Prop
  /-- All announced options are gone through, and the last one ends inside. -/
  | finished {position optionCount : ℕ} {previous : UInt8}
      (hdone : ¬ MoreOptions numOfOpts optionCount) (hinside : position ≤ messageLength) :
      Contained message numOfOpts messageLength position optionCount previous
  /-- The end marker is inside. -/
  | endMarker {position optionCount : ℕ} {previous : UInt8}
      (hmore : MoreOptions numOfOpts optionCount) (hinside : position < messageLength)
      (hmarker : isEndOfOptsMarker optionCount (message position)) :
      Contained message numOfOpts messageLength position optionCount previous
  /-- The option is an error. -/
  | rejected {position optionCount : ℕ} {previous : UInt8} {error : Status}
      (hmore : MoreOptions numOfOpts optionCount)
      (hmarker : ¬ isEndOfOptsMarker optionCount (message position))
      (hheader : HeaderInside message messageLength position previous)
      (hjudge : judge noStray (optionNumber (message position) previous) previous
        (optionLength (message position) (message (position + 1))) = .rejected error) :
      Contained message numOfOpts messageLength position optionCount previous
  /-- The option is accepted, and found to leave no room for the next one. -/
  | exceeding {position optionCount : ℕ} {previous : UInt8}
      (hmore : MoreOptions numOfOpts optionCount)
      (hmarker : ¬ isEndOfOptsMarker optionCount (message position))
      (hheader : HeaderInside message messageLength position previous)
      (hjudge : judge noStray (optionNumber (message position) previous) previous
        (optionLength (message position) (message (position + 1))) = .accepted)
      (hexceeds : messageLength ≤
        position + optionLength (message position) (message (position + 1)))
      (hnext : optionCount + 1 < numOfOpts) :
      Contained message numOfOpts messageLength position optionCount previous
  /-- The options go on behind this one. -/
  | next {position optionCount : ℕ} {previous : UInt8}
      (hmore : MoreOptions numOfOpts optionCount)
      (hmarker : ¬ isEndOfOptsMarker optionCount (message position))
      (hheader : HeaderInside message messageLength position previous)
      (hrest : Contained message numOfOpts messageLength
        (position + optionLength (message position) (message (position + 1))) (optionCount + 1)
        (optionNumber (message position) previous)) :
      Contained message numOfOpts messageLength position optionCount previous

/-! ## One option -/

theorem inBounds_nil (length : ℕ) : InBounds length [] := by
  constructor <;> intro _ hmem <;> cases hmem

theorem inBounds_append {length : ℕ} {first second : List Event} :
    InBounds length (first ++ second) ↔ InBounds length first ∧ InBounds length second := by
  unfold InBounds
  constructor
  · intro hboth
    refine ⟨⟨fun p hp => ?_, fun i hi => ?_⟩, fun p hp => ?_, fun i hi => ?_⟩
    · exact hboth.1 p (List.mem_append_left _ hp)
    · exact hboth.2 i (List.mem_append_left _ hi)
    · exact hboth.1 p (List.mem_append_right _ hp)
    · exact hboth.2 i (List.mem_append_right _ hi)
  · rintro ⟨hfirst, hsecond⟩
    refine ⟨fun p hp => ?_, fun i hi => ?_⟩
    · exact (List.mem_append.1 hp).elim (hfirst.1 p) (hsecond.1 p)
    · exact (List.mem_append.1 hi).elim (hfirst.2 i) (hsecond.2 i)

theorem inBounds_read {length position : ℕ} :
    InBounds length [.read position] ↔ position < length := by
  simp [InBounds]

theorem inBounds_lookup {length index : ℕ} :
    InBounds length [.lookup index] ↔ index < coapOptionArraySize := by
  simp [InBounds]

theorem inBounds_option (length start size : ℕ) : InBounds length [.option start size] := by
  simp [InBounds]

theorem inBounds_reads {length start count : ℕ} (hlength : start + count ≤ length) :
    InBounds length ((List.range' start count).map .read) := by
  constructor
  · intro position hmem
    have hrange : start ≤ position ∧ position < start + count := by simpa using hmem
    omega
  · intro index hmem
    simp at hmem

theorem optionLength_congr {head extension other : UInt8}
    (hextension : head &&& 0x0f = coapLongOption → extension = other) :
    optionLength head extension = optionLength head other := by
  unfold optionLength
  split
  next hlong => rw [hextension hlong]
  next => rfl

theorem judge_noStray (stray : ℕ → Bool) {current previous : UInt8} (length : ℕ)
    (hrepeated : current = previous → previous.toNat < coapOptionArraySize) :
    judge stray current previous length = judge noStray current previous length := by
  by_cases hsame : current = previous
  · have hindex : current.toNat < coapOptCanOccurMultiple.length := by
      rw [hsame]
      exact hrepeated hsame
    unfold judge
    rw [List.getElem?_eq_getElem hindex]
    rfl
  · unfold judge
    simp [hsame]

theorem judge_rejected_ne_success {stray : ℕ → Bool} {current previous : UInt8} {length : ℕ}
    {error : Status} (hjudge : judge stray current previous length = .rejected error) :
    error ≠ .success := by
  have hunusable : ∀ {reason : Status}, unusable current reason = .rejected error →
      reason = error := by
    intro reason hreason
    unfold unusable at hreason
    split at hreason
    · exact Verdict.rejected.inj hreason
    · cases hreason
  unfold judge at hjudge
  split at hjudge
  · exact hunusable hjudge ▸ by decide
  · split at hjudge
    · exact hunusable hjudge ▸ by decide
    · split at hjudge
      · exact hunusable hjudge ▸ by decide
      · cases hjudge

theorem inBounds_optionEvents {storage : ℕ → UInt8} {messageLength position : ℕ}
    {previous : UInt8} :
    InBounds (coapStartOfOptions + messageLength) (optionEvents storage position previous) ↔
      HeaderInside storage messageLength position previous := by
  have hsplit : InBounds (coapStartOfOptions + messageLength)
      (optionEvents storage position previous) ↔
      position < messageLength ∧
        (storage position &&& 0x0f = coapLongOption → position + 1 < messageLength) ∧
        (optionNumber (storage position) previous = previous →
          previous.toNat < coapOptionArraySize) := by
    unfold optionEvents
    rw [← List.singleton_append, inBounds_append, inBounds_append, inBounds_read]
    apply and_congr (by omega)
    apply and_congr
    · split
      next hlong => rw [inBounds_read]; exact ⟨fun h _ => by omega, fun h => by have := h hlong; omega⟩
      next hshort => exact ⟨fun _ h => absurd h hshort, fun _ => inBounds_nil _⟩
    · split
      next hsame => rw [inBounds_lookup, hsame]; exact ⟨fun h _ => h, fun h => h rfl⟩
      next hother => exact ⟨fun _ h => absurd h hother, fun _ => inBounds_nil _⟩
  rw [hsplit]
  exact ⟨fun ⟨h1, h2, h3⟩ => ⟨h1, h2, h3⟩, fun h => ⟨h.header, h.extension, h.repeated⟩⟩

section Scan

variable {stray : ℕ → Bool} {storageSize numOfOpts messageLength : ℕ} {message : ℕ → UInt8}

theorem HeaderInside.congr {storage : ℕ → UInt8} {position : ℕ} {previous : UInt8}
    (hcopy : ∀ p, p < messageLength → storage p = message p)
    (hheader : HeaderInside storage messageLength position previous) :
    HeaderInside message messageLength position previous := by
  have hhead := hcopy position hheader.header
  constructor
  · exact hheader.header
  · intro hlong
    exact hheader.extension (by rw [hhead]; exact hlong)
  · intro hsame
    exact hheader.repeated (by rw [hhead]; exact hsame)

theorem HeaderInside.optionLength_eq {storage : ℕ → UInt8} {position : ℕ} {previous : UInt8}
    (hcopy : ∀ p, p < messageLength → storage p = message p)
    (hheader : HeaderInside message messageLength position previous) :
    optionLength (storage position) (storage (position + 1)) =
      optionLength (message position) (message (position + 1)) := by
  rw [hcopy position hheader.header]
  apply optionLength_congr
  intro hlong
  exact hcopy (position + 1) (hheader.extension hlong)

theorem Contained.position_le {position optionCount : ℕ} {previous : UInt8}
    (hcontained : Contained message numOfOpts messageLength position optionCount previous) :
    position ≤ messageLength := by
  cases hcontained with
  | finished _ hinside => exact hinside
  | endMarker _ hinside _ => exact hinside.le
  | rejected _ _ hheader _ => exact hheader.header.le
  | exceeding _ _ hheader _ _ _ => exact hheader.header.le
  | next _ _ hheader _ => exact hheader.header.le

theorem inBounds_endScan (packet : CoapPacketStatic) (position : ℕ) :
    InBounds (coapStartOfOptions + messageLength)
      (endScan storageSize messageLength packet position).2.2 := by
  unfold endScan
  dsimp only
  split
  next hpayload => exact inBounds_reads (by omega)
  next => exact inBounds_nil _

theorem endScan_spec (packet : CoapPacketStatic) (position : ℕ)
    (hstorage : messageLength ≤ storageSize) :
    (endScan storageSize messageLength packet position).1 = .success ∧
      (endScan storageSize messageLength packet position).2.1.endOfOptions = position ∧
      ∀ start size, Event.option start size ∉
        (endScan storageSize messageLength packet position).2.2 := by
  unfold endScan
  dsimp only
  split
  next hpayload =>
    have hroom : ¬ storageSize - (messageLength - position) < position := by omega
    simp [setData, hroom]
  next => simp

/-- What the scan does when the option at `position` leaves it running or fails. -/
theorem initialScanOpts_option {packet : CoapPacketStatic} {position fuel : ℕ} {previous : UInt8}
    {status : Status} {parsed : CoapPacketStatic} {events : List Event}
    (hmore : MoreOptions numOfOpts packet.optionCount)
    (hmarker : ¬ isEndOfOptsMarker packet.optionCount (packet.storage position))
    (hscan : initialScanOpts stray storageSize numOfOpts messageLength (fuel + 1) packet position
      previous = some (status, parsed, events)) :
    ∃ rest, events = optionEvents packet.storage position previous ++
        .option (coapStartOfOptions + position) (optionLength (packet.storage position)
          (packet.storage (position + 1))) :: rest ∧
      ((∃ error, judge stray (optionNumber (packet.storage position) previous) previous
          (optionLength (packet.storage position) (packet.storage (position + 1))) =
            .rejected error) ∨
        (judge stray (optionNumber (packet.storage position) previous) previous
            (optionLength (packet.storage position) (packet.storage (position + 1))) = .accepted ∧
          (storageSize ≤ position + optionLength (packet.storage position)
              (packet.storage (position + 1)) ∨
            messageLength ≤ position + optionLength (packet.storage position)
              (packet.storage (position + 1))) ∧ packet.optionCount + 1 < numOfOpts) ∨
        ∃ packet', packet'.storage = packet.storage ∧
          packet'.optionCount = packet.optionCount + 1 ∧
          initialScanOpts stray storageSize numOfOpts messageLength fuel packet'
            (position + optionLength (packet.storage position) (packet.storage (position + 1)))
            (optionNumber (packet.storage position) previous) = some (status, parsed, rest)) := by
  rw [initialScanOpts, if_pos hmore, if_neg hmarker] at hscan
  dsimp only at hscan
  split at hscan
  next hjudge =>
    cases hscan
    exact ⟨[], rfl, .inl ⟨_, hjudge⟩⟩
  next hjudge =>
    split at hscan
    · cases hscan
    next rest hrest =>
      cases hscan
      refine ⟨rest, by simp, .inr (.inr ⟨_, ?_, ?_, hrest⟩)⟩
      · rfl
      · rfl
  next hjudge =>
    split at hscan
    next hexceeds =>
      cases hscan
      exact ⟨[], rfl, .inr (.inl ⟨hjudge, hexceeds.1, hexceeds.2⟩)⟩
    next =>
      split at hscan
      · cases hscan
      next rest hrest =>
        cases hscan
        refine ⟨rest, by simp, .inr (.inr ⟨_, ?_, ?_, hrest⟩)⟩
        · rfl
        · rfl

theorem Enclosed.of_append {length : ℕ} {status : Status} {parsed : CoapPacketStatic}
    {first second : List Event} (henclosed : Enclosed length status parsed (first ++ second)) :
    Enclosed length status parsed second := by
  intro hsuccess
  obtain ⟨hlength, hoptions, hend⟩ := henclosed hsuccess
  exact ⟨hlength, fun start size hmem => hoptions start size (List.mem_append_right _ hmem), hend⟩

theorem contained_of_scan (hstorage : messageLength ≤ storageSize) {fuel : ℕ} :
    ∀ {packet : CoapPacketStatic} {position : ℕ} {previous : UInt8} {status : Status}
      {parsed : CoapPacketStatic} {events : List Event},
      (∀ p, p < messageLength → packet.storage p = message p) →
      initialScanOpts stray storageSize numOfOpts messageLength fuel packet position previous =
        some (status, parsed, events) →
      InBounds (coapStartOfOptions + messageLength) events →
      Enclosed (coapStartOfOptions + messageLength) status parsed events →
      Contained message numOfOpts messageLength position packet.optionCount previous := by
  induction fuel with
  | zero =>
      intro packet position previous status parsed events _ hscan
      simp [initialScanOpts] at hscan
  | succ fuel ih =>
      intro packet position previous status parsed events hcopy hscan hbounds henclosed
      by_cases hmore : MoreOptions numOfOpts packet.optionCount
      · by_cases hmarker : isEndOfOptsMarker packet.optionCount (packet.storage position)
        · rw [initialScanOpts, if_pos hmore, if_pos hmarker] at hscan
          cases hscan
          have hinside : position < messageLength := by
            have hread := hbounds.1 (coapStartOfOptions + position) List.mem_cons_self
            omega
          exact .endMarker hmore hinside (hcopy position hinside ▸ hmarker)
        · obtain ⟨rest, rfl, hcases⟩ := initialScanOpts_option hmore hmarker hscan
          obtain ⟨hoption, hrest⟩ := inBounds_append.1 hbounds
          have hheader := (inBounds_optionEvents.1 hoption).congr hcopy
          have hhead := hcopy position hheader.header
          have hlength := hheader.optionLength_eq hcopy
          rw [hhead] at hmarker
          have hjudge := judge_noStray stray
            (optionLength (message position) (message (position + 1))) hheader.repeated
          rw [hlength, hhead, hjudge] at hcases
          rcases hcases with ⟨error, hrejected⟩ | ⟨haccepted, hexceeds, hnext⟩ |
            ⟨packet', hsame, hcount, hgo⟩
          · exact .rejected hmore hmarker hheader hrejected
          · exact .exceeding hmore hmarker hheader haccepted (by omega) hnext
          · apply Contained.next hmore hmarker hheader
            rw [← hcount]
            have hcopy' : ∀ p, p < messageLength → packet'.storage p = message p := by
              rw [hsame]
              exact hcopy
            rw [← List.singleton_append] at hrest henclosed
            exact ih hcopy' hgo (inBounds_append.1 hrest).2 henclosed.of_append.of_append
      · rw [initialScanOpts, if_neg hmore] at hscan
        obtain ⟨hsuccess, hend, -⟩ := endScan_spec packet position hstorage
        rw [Option.some.inj hscan] at hsuccess hend
        obtain ⟨-, -, hinside⟩ := henclosed hsuccess
        exact .finished hmore (by dsimp only at hend; omega)

/-- A scan that fails encloses nothing it could overrun. -/
theorem enclosed_of_ne_success {length : ℕ} {status : Status} {parsed : CoapPacketStatic}
    {events : List Event} (hfailed : status ≠ .success) : Enclosed length status parsed events :=
  fun hsuccess => absurd hsuccess hfailed

/-- The events of an option whose header and value are inside, put before those of the rest. -/
theorem enclosed_option {position size : ℕ} {status : Status} {parsed : CoapPacketStatic}
    {storage : ℕ → UInt8} {previous : UInt8} {rest : List Event}
    (hfits : position + size ≤ messageLength)
    (hrest : Enclosed (coapStartOfOptions + messageLength) status parsed rest) :
    Enclosed (coapStartOfOptions + messageLength) status parsed
      (optionEvents storage position previous ++
        [.option (coapStartOfOptions + position) size] ++ rest) := by
  intro hsuccess
  obtain ⟨hlength, hoptions, hend⟩ := hrest hsuccess
  refine ⟨hlength, fun start bytes hmem => ?_, hend⟩
  rcases List.mem_append.1 hmem with hfirst | hlater
  · rcases List.mem_append.1 hfirst with hheader | hsingle
    · unfold optionEvents at hheader
      dsimp only at hheader
      split at hheader <;> split at hheader <;> simp at hheader
    · obtain ⟨rfl, rfl⟩ : start = coapStartOfOptions + position ∧ bytes = size := by
        simpa using hsingle
      omega
  · exact hoptions start bytes hlater

/-- The scan from `position` on ends and keeps inside. -/
def ScanSafe (stray : ℕ → Bool) (storageSize numOfOpts messageLength : ℕ)
    (packet : CoapPacketStatic) (position : ℕ) (previous : UInt8) : Prop :=
  ∃ fuel status parsed events,
    initialScanOpts stray storageSize numOfOpts messageLength fuel packet position previous =
      some (status, parsed, events) ∧
    InBounds (coapStartOfOptions + messageLength) events ∧
    Enclosed (coapStartOfOptions + messageLength) status parsed events

theorem scanSafe_endScan (packet : CoapPacketStatic) {position : ℕ}
    (hstorage : messageLength ≤ storageSize) (hinside : position ≤ messageLength)
    {first : List Event} (hfirst : InBounds (coapStartOfOptions + messageLength) first)
    (hnone : ∀ start size, Event.option start size ∉ first) :
    InBounds (coapStartOfOptions + messageLength)
        (first ++ (endScan storageSize messageLength packet position).2.2) ∧
      Enclosed (coapStartOfOptions + messageLength)
        (endScan storageSize messageLength packet position).1
        (endScan storageSize messageLength packet position).2.1
        (first ++ (endScan storageSize messageLength packet position).2.2) := by
  obtain ⟨-, hend, hno⟩ := endScan_spec packet position hstorage
  refine ⟨inBounds_append.2 ⟨hfirst, inBounds_endScan packet position⟩, fun _ =>
    ⟨by omega, fun start size hmem => ?_, by omega⟩⟩
  rcases List.mem_append.1 hmem with hbefore | hafter
  · exact absurd hbefore (hnone start size)
  · exact absurd hafter (hno start size)

theorem scanSafe_error {packet : CoapPacketStatic} {position : ℕ} {previous : UInt8}
    {error : Status} (hmore : MoreOptions numOfOpts packet.optionCount)
    (hmarker : ¬ isEndOfOptsMarker packet.optionCount (packet.storage position))
    (hheader : HeaderInside packet.storage messageLength position previous)
    (hjudge : judge stray (optionNumber (packet.storage position) previous) previous
      (optionLength (packet.storage position) (packet.storage (position + 1))) = .rejected error) :
    ScanSafe stray storageSize numOfOpts messageLength packet position previous := by
  have hscan : initialScanOpts stray storageSize numOfOpts messageLength 1 packet position
      previous = some (error, { packet with
        errorCode := .badOption
        errorOption := optionNumber (packet.storage position) previous },
        optionEvents packet.storage position previous ++
          [.option (coapStartOfOptions + position) (optionLength (packet.storage position)
            (packet.storage (position + 1)))]) := by
    rw [initialScanOpts, if_pos hmore, if_neg hmarker]
    simp only [hjudge]
  exact ⟨1, error, _, _, hscan,
    inBounds_append.2 ⟨inBounds_optionEvents.2 hheader, inBounds_option _ _ _⟩,
    enclosed_of_ne_success (judge_rejected_ne_success hjudge)⟩

theorem scanSafe_exceeding {packet : CoapPacketStatic} {position : ℕ} {previous : UInt8}
    (hmore : MoreOptions numOfOpts packet.optionCount)
    (hmarker : ¬ isEndOfOptsMarker packet.optionCount (packet.storage position))
    (hheader : HeaderInside packet.storage messageLength position previous)
    (hjudge : judge stray (optionNumber (packet.storage position) previous) previous
      (optionLength (packet.storage position) (packet.storage (position + 1))) = .accepted)
    (hexceeds : (storageSize ≤ position + optionLength (packet.storage position)
        (packet.storage (position + 1)) ∨
      messageLength ≤ position + optionLength (packet.storage position)
        (packet.storage (position + 1))) ∧ packet.optionCount + 1 < numOfOpts) :
    ScanSafe stray storageSize numOfOpts messageLength packet position previous := by
  have hscan : ∃ parsed, initialScanOpts stray storageSize numOfOpts messageLength 1 packet position
      previous = some (.errOptionsExceedPacketLength, parsed,
        optionEvents packet.storage position previous ++
          [.option (coapStartOfOptions + position) (optionLength (packet.storage position)
            (packet.storage (position + 1)))]) := by
    rw [initialScanOpts, if_pos hmore, if_neg hmarker]
    simp only [hjudge]
    rw [if_pos hexceeds]
    exact ⟨_, rfl⟩
  obtain ⟨parsed, hscan⟩ := hscan
  exact ⟨1, .errOptionsExceedPacketLength, parsed, _, hscan,
    inBounds_append.2 ⟨inBounds_optionEvents.2 hheader, inBounds_option _ _ _⟩,
    enclosed_of_ne_success (by decide)⟩

theorem scanSafe_next {packet : CoapPacketStatic} {position : ℕ} {previous : UInt8}
    (hmore : MoreOptions numOfOpts packet.optionCount)
    (hmarker : ¬ isEndOfOptsMarker packet.optionCount (packet.storage position))
    (hheader : HeaderInside packet.storage messageLength position previous)
    (hfits : position + optionLength (packet.storage position) (packet.storage (position + 1)) ≤
      messageLength)
    (hrest : ∀ packet' : CoapPacketStatic, packet'.optionCount = packet.optionCount + 1 →
      packet'.storage = packet.storage →
      ScanSafe stray storageSize numOfOpts messageLength packet'
        (position + optionLength (packet.storage position) (packet.storage (position + 1)))
        (optionNumber (packet.storage position) previous)) :
    ScanSafe stray storageSize numOfOpts messageLength packet position previous := by
  have hevents : InBounds (coapStartOfOptions + messageLength)
      (optionEvents packet.storage position previous ++
        [.option (coapStartOfOptions + position) (optionLength (packet.storage position)
          (packet.storage (position + 1)))]) :=
    inBounds_append.2 ⟨inBounds_optionEvents.2 hheader, inBounds_option _ _ _⟩
  cases hjudge : judge stray (optionNumber (packet.storage position) previous) previous
      (optionLength (packet.storage position) (packet.storage (position + 1))) with
  | rejected error => exact scanSafe_error hmore hmarker hheader hjudge
  | ignored =>
      obtain ⟨fuel, status, parsed, rest, hscan, hbounds, henclosed⟩ :=
        hrest { packet with optionCount := packet.optionCount + 1 } rfl rfl
      refine ⟨fuel + 1, status, parsed, _, ?_, inBounds_append.2 ⟨hevents, hbounds⟩,
        enclosed_option hfits henclosed⟩
      rw [initialScanOpts, if_pos hmore, if_neg hmarker]
      simp only [hjudge, hscan]
  | accepted =>
      by_cases hexceeds : (storageSize ≤ position + optionLength (packet.storage position)
          (packet.storage (position + 1)) ∨
        messageLength ≤ position + optionLength (packet.storage position)
          (packet.storage (position + 1))) ∧ packet.optionCount + 1 < numOfOpts
      · exact scanSafe_exceeding hmore hmarker hheader hjudge hexceeds
      · obtain ⟨fuel, status, parsed, rest, hscan, hbounds, henclosed⟩ :=
          hrest { packet with
            options := if optionNumber (packet.storage position) previous ≠ previous then
                Function.update packet.options
                  (optionNumber (packet.storage position) previous).toNat (some position)
              else packet.options
            optionCount := packet.optionCount + 1 } rfl rfl
        refine ⟨fuel + 1, status, parsed, _, ?_, inBounds_append.2 ⟨hevents, hbounds⟩,
          enclosed_option hfits henclosed⟩
        rw [initialScanOpts, if_pos hmore, if_neg hmarker]
        simp only [hjudge]
        rw [if_neg hexceeds]
        simp only [hscan]

theorem scan_of_contained (stray : ℕ → Bool) (hstorage : messageLength ≤ storageSize)
    {position optionCount : ℕ} {previous : UInt8}
    (hcontained : Contained message numOfOpts messageLength position optionCount previous) :
    ∀ packet : CoapPacketStatic, packet.optionCount = optionCount →
      (∀ p, p < messageLength → packet.storage p = message p) →
      ScanSafe stray storageSize numOfOpts messageLength packet position previous := by
  induction hcontained with
  | finished hdone hinside =>
      rintro packet rfl hcopy
      obtain ⟨hbounds, henclosed⟩ := scanSafe_endScan packet hstorage hinside
        (inBounds_nil _) (by simp)
      exact ⟨1, _, _, _, by rw [initialScanOpts, if_neg hdone]; rfl, hbounds, henclosed⟩
  | endMarker hmore hinside hmarker =>
      rintro packet rfl hcopy
      rw [← hcopy _ hinside] at hmarker
      obtain ⟨hbounds, henclosed⟩ := scanSafe_endScan packet hstorage hinside.le
        (inBounds_read.2 (Nat.add_lt_add_left hinside _)) (by simp)
      exact ⟨1, _, _, _, by rw [initialScanOpts, if_pos hmore, if_pos hmarker]; rfl, hbounds,
        henclosed⟩
  | rejected hmore hmarker hheader hjudge =>
      rintro packet rfl hcopy
      have hheader' := hheader.congr fun p hp => (hcopy p hp).symm
      rw [← hheader.optionLength_eq hcopy, ← hcopy _ hheader.header,
        ← judge_noStray stray _ hheader'.repeated] at hjudge
      rw [← hcopy _ hheader.header] at hmarker
      exact scanSafe_error hmore hmarker hheader' hjudge
  | exceeding hmore hmarker hheader hjudge hexceeds hnext =>
      rintro packet rfl hcopy
      have hheader' := hheader.congr fun p hp => (hcopy p hp).symm
      rw [← hheader.optionLength_eq hcopy, ← hcopy _ hheader.header,
        ← judge_noStray stray _ hheader'.repeated] at hjudge
      rw [← hheader.optionLength_eq hcopy] at hexceeds
      rw [← hcopy _ hheader.header] at hmarker
      exact scanSafe_exceeding hmore hmarker hheader' hjudge ⟨.inr hexceeds, hnext⟩
  | next hmore hmarker hheader hrest ih =>
      rintro packet rfl hcopy
      have hheader' := hheader.congr fun p hp => (hcopy p hp).symm
      have hfits := hrest.position_le
      rw [← hheader.optionLength_eq hcopy] at hfits ih
      rw [← hcopy _ hheader.header] at hmarker ih
      refine scanSafe_next hmore hmarker hheader' hfits fun packet' hcount hsame => ?_
      apply ih packet' hcount
      rw [hsame]
      exact hcopy

end Scan

/-! ## The whole message -/

/-- The message can be parsed without leaving it: it is not taken for a CoAP message that fits,
or the options it announces keep inside. -/
def MessageContained (storageSize : ℕ) (datastream : List UInt8) : Prop :=
  datastream.length < coapStartOfOptions ∨
    storageSize < datastream.length - coapStartOfOptions ∨
    byteAt datastream 0 >>> 6 ≠ coapVersion ∨
    Contained (fun p => byteAt datastream (coapStartOfOptions + p)) (announcedOptions datastream)
      (datastream.length - coapStartOfOptions) 0 0 0

theorem readHeader_storage (packet : CoapPacketStatic) (datastream : List UInt8) (p : ℕ)
    (hp : p < datastream.length - coapStartOfOptions) :
    (readHeader packet datastream).storage p = byteAt datastream (coapStartOfOptions + p) := by
  simp [readHeader, hp]

theorem safe_of_messageContained (stray : ℕ → Bool) {storageSize : ℕ} (packet : CoapPacketStatic)
    {datastream : List UInt8} (hcontained : MessageContained storageSize datastream) :
    Safe stray storageSize packet datastream := by
  by_cases hlength : coapStartOfOptions ≤ datastream.length
  · by_cases hroom : storageSize < datastream.length - coapStartOfOptions
    · exact ⟨0, .errNomem, _, [], by simp only [parseMessage, if_pos hlength, if_pos hroom]; rfl,
        inBounds_nil _, enclosed_of_ne_success (by decide)⟩
    · by_cases hversion : byteAt datastream 0 >>> 6 ≠ coapVersion
      · refine ⟨0, .errWrongCoapVersion, _, [.read 0], by
          simp only [parseMessage, if_pos hlength, if_neg hroom, if_pos hversion]; rfl,
          inBounds_read.2 ?_, enclosed_of_ne_success (by decide)⟩
        unfold coapStartOfOptions at hlength
        omega
      · obtain ⟨fuel, status, parsed, events, hscan, hbounds, henclosed⟩ :=
          scan_of_contained stray (by omega : datastream.length - coapStartOfOptions ≤ storageSize)
            (((hcontained.resolve_left (by omega)).resolve_left hroom).resolve_left hversion)
            (readHeader (packet.init storageSize) datastream) rfl
            (readHeader_storage (packet.init storageSize) datastream)
        rw [Nat.add_sub_cancel' hlength] at hbounds henclosed
        refine ⟨fuel, status, parsed, (List.range datastream.length).map .read ++ events,
          ?_, inBounds_append.2 ⟨?_, hbounds⟩, fun hsuccess => ?_⟩
        · simp only [parseMessage, if_pos hlength, if_neg hroom, if_neg hversion, hscan]
        · rw [List.range_eq_range']
          exact inBounds_reads (by omega)
        · obtain ⟨hstart, hoptions, hend⟩ := henclosed hsuccess
          refine ⟨hstart, fun start size hmem => ?_, hend⟩
          exact hoptions start size (by simpa using hmem)
  · exact ⟨0, .errNotCoap, _, [], by simp only [parseMessage, if_neg hlength]; rfl,
      inBounds_nil _, enclosed_of_ne_success (by decide)⟩

theorem messageContained_of_safe {stray : ℕ → Bool} {storageSize : ℕ} {packet : CoapPacketStatic}
    {datastream : List UInt8} (hsafe : Safe stray storageSize packet datastream) :
    MessageContained storageSize datastream := by
  obtain ⟨fuel, status, parsed, events, hparse, hbounds, henclosed⟩ := hsafe
  by_cases hlength : coapStartOfOptions ≤ datastream.length
  · by_cases hroom : storageSize < datastream.length - coapStartOfOptions
    · exact .inr (.inl hroom)
    · by_cases hversion : byteAt datastream 0 >>> 6 ≠ coapVersion
      · exact .inr (.inr (.inl hversion))
      · simp only [parseMessage, if_pos hlength, if_neg hroom, if_neg hversion] at hparse
        split at hparse
        · cases hparse
        next events hscan =>
          cases hparse
          rw [← Nat.add_sub_cancel' hlength] at hbounds henclosed
          exact .inr (.inr (.inr (contained_of_scan (by omega)
            (readHeader_storage (packet.init storageSize) datastream) hscan
            (inBounds_append.1 hbounds).2 henclosed.of_append)))
  · exact .inl (by omega)

/-- Parsing is safe for exactly the contained messages, whatever the packet held before and
whatever lies behind the tables. -/
theorem safe_iff_messageContained (stray : ℕ → Bool) (storageSize : ℕ)
    (packet : CoapPacketStatic) (datastream : List UInt8) :
    Safe stray storageSize packet datastream ↔ MessageContained storageSize datastream :=
  ⟨messageContained_of_safe, safe_of_messageContained stray packet⟩

/-- A header that announces one option, with nothing behind it, is read past its end. -/
theorem not_safe_of_missing_option :
    ¬ ∀ stray storageSize packet datastream, Safe stray storageSize packet datastream := by
  intro hsafe
  have hcontained := messageContained_of_safe (hsafe noStray 512
    ((CoapPacketStatic.mk 1 0 0 0 (fun _ => none) 0 0 0 0 .empty 0 fun _ => 0).init 512)
    [0x41, 1, 0, 1])
  rcases hcontained with hshort | hlong | hversion | hoptions
  · exact absurd hshort (by decide)
  · exact absurd hlong (by decide)
  · exact hversion (by decide)
  · cases hoptions with
    | finished hdone _ => exact hdone (by decide)
    | endMarker _ hinside _ => exact absurd hinside (by decide)
    | rejected _ _ hheader _ => exact absurd hheader.header (by decide)
    | exceeding _ _ hheader _ _ _ => exact absurd hheader.header (by decide)
    | next _ _ hheader _ => exact absurd hheader.header (by decide)

end Wiselib.StaticCoap
