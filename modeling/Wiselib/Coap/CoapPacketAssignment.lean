import Wiselib.Coap.CoapPacketStatic

/-!
# Assigning static CoAP packets

`operator=` of `CoapPacketStatic`.  A packet points into its own storage: at its
options, behind the last of them and at its payload.  Here the pointers are
addresses of one memory that holds the storage of all packets, and a packet can
read its own storage only.

## Strategy

* Every observer reads relative to the pointers of its packet, so it does not
  notice when all of them and the storage are moved (`observe_moved`).
* `assign` moves all pointers of the right-hand side except those it does not
  have: where the right-hand side has none, the packet keeps its own.

So the assignment makes a copy exactly where the packet had no option more than
what it is assigned (`assignsValue_iff`); an option more still shows among the
options that are set (`whatOptionsAreSet_lt`).
-/

namespace Wiselib.StaticCoap

abbrev Memory : Type := ℤ → UInt8

abbrev OptionNumber : Type := Fin coapOptionArraySize

def coapOptLocationPath : OptionNumber := ⟨6, by decide⟩

def coapOptUriPort : OptionNumber := ⟨7, by decide⟩

def coapOptLocationQuery : OptionNumber := ⟨8, by decide⟩

def coapOptUriPath : OptionNumber := ⟨9, by decide⟩

def coapOptToken : OptionNumber := ⟨11, by decide⟩

def coapOptUriQuery : OptionNumber := ⟨15, by decide⟩

def coapOptIfNoneMatch : OptionNumber := ⟨21, by decide⟩

/-- The port of a packet that does not name one. -/
def coapStdPort : ℕ := 5683

/-- A packet whose `storage_` starts at an address.  A pointer that is null is none. -/
structure PacketObject where
  storage : ℤ
  payload : ℤ
  endOfOptions : ℤ
  dataLength : ℕ
  optionCount : ℕ
  msgId : UInt16
  type : UInt8
  code : UInt8
  errorCode : UInt8
  errorOption : UInt8
  version : UInt8
  options : OptionNumber → Option ℤ

/-! ## Observers -/

/-- What a query for an option answers. -/
inductive Answer (Value : Type)
  | success (value : Value)
  | optNotSet
  | optTooLong
  | methodNotApplicable

section Observers

variable (read : ℤ → Option UInt8)

/-- The bytes from an address on. -/
def readBytes (address : ℤ) : ℕ → Option (List UInt8)
  | 0 => some []
  | count + 1 => do
      let byte ← read address
      let rest ← readBytes (address + 1) count
      return byte :: rest

/-- `optlen`. -/
def optlen (header : ℤ) : Option ℕ := do
  let head ← read header
  if head &&& 0x0f = coapLongOption then do
    let extension ← read (header + 1)
    return (head &&& 0x0f).toNat + extension.toNat
  else return (head &&& 0x0f).toNat

/-- Where the value of an option starts. -/
def valueStart (length : ℕ) : ℕ := if length < 15 then 1 else 2

/-- `get_option` of an unsigned value, and the value it leaves. -/
def getUint (option : Option ℤ) : Option (Answer ℕ × ℕ) :=
  match option with
  | none => some (.optNotSet, 0)
  | some raw => do
      let head ← read raw
      let length := (head &&& 0x0f).toNat
      if 4 < length then return (.optTooLong, 0)
      else do
        let bytes ← readBytes read (raw + 1) length
        let value := bytes.foldl (fun value byte => value * 256 + byte.toNat) 0
        return (.success value, value)

/-- The loop of `make_string_from_segments` and of `get_query_list`: the segments, each up to
the first zero, which the code puts behind it for a moment.  A segment takes a byte at
least, so a bound on the rounds is the size of the storage. -/
def stringSegments (stop : ℤ) : ℕ → ℤ → Option (List (List UInt8))
  | 0, _ => none
  | fuel + 1, position => do
      let length ← optlen read position
      let next := position + length + valueStart length
      let swap ← read next
      let bytes ← readBytes read (position + valueStart length) length
      let segment := bytes.takeWhile (· ≠ 0)
      if next < stop ∧ swap &&& 0xf0 = 0 then do
        let rest ← stringSegments stop fuel next
        return segment :: rest
      else return [segment]

/-- The loop of `get_options`. -/
def opaqueValues (stop : ℤ) : ℕ → ℤ → Option (List (List UInt8))
  | 0, _ => none
  | fuel + 1, position => do
      let length ← optlen read position
      let value ← readBytes read (position + valueStart length) length
      let next := position + valueStart length + length
      if next < stop then do
        let head ← read next
        if head &&& 0xf0 = 0 then do
          let rest ← opaqueValues stop fuel next
          return value :: rest
        else return [value]
      else return [value]

/-- The bytes between two addresses; their number is a `size_t`. -/
def readBetween (start stop : ℤ) : Option (List UInt8) :=
  if start ≤ stop then readBytes read start (stop - start).toNat else none

end Observers

/-- A packet reads the `size` bytes of its own storage. -/
def PacketObject.read (size : ℕ) (memory : Memory) (packet : PacketObject) (address : ℤ) :
    Option UInt8 :=
  if packet.storage ≤ address ∧ address < packet.storage + size then some (memory address)
  else none

/-- What the segments of a string are joined with. -/
def delimiter (number : OptionNumber) : List UInt8 :=
  if number = coapOptLocationPath ∨ number = coapOptUriPath then [0x2f]
  else if number = coapOptLocationQuery ∨ number = coapOptUriQuery then [0x26]
  else []

/-- All that can be asked of a packet.  A query that reads outside the storage has no answer. -/
structure Observation where
  whatOptionsAreSet : ℕ
  getOptionUint : OptionNumber → Option (Answer ℕ)
  getOptionString : OptionNumber → Option (Answer (List UInt8))
  getOptionOpaque : OptionNumber → Option (Answer (List UInt8))
  getOptions : OptionNumber → Option (Answer (List (List UInt8)))
  getQueryList : OptionNumber → Option (Answer (List (List UInt8)))
  token : Option (List UInt8)
  uriPath : Option (List UInt8)
  uriPort : Option ℕ
  optIfNoneMatch : Bool
  data : Option (List UInt8)
  dataLength : ℕ
  optionCount : ℕ
  serializeLength : ℤ
  serialize : Option (List UInt8)
  msgId : UInt16
  type : UInt8
  code : UInt8
  version : UInt8
  errorContext : UInt8 × UInt8

section Packet

variable (size : ℕ) (memory : Memory) (packet : PacketObject)

/-- `what_options_are_set`. -/
def whatOptionsAreSet : ℕ :=
  ((List.finRange coapOptionArraySize).map fun i =>
    if packet.options i = none then 0 else 2 ^ i.val).sum

/-- `get_option` of a string. -/
def getOptionString (number : OptionNumber) : Option (Answer (List UInt8)) :=
  match packet.options number with
  | none => some .optNotSet
  | some position => do
      let segments ←
        stringSegments (packet.read size memory) packet.endOfOptions (size + 1) position
      return .success (List.intercalate (delimiter number) segments)

/-- `get_option` of opaque data. -/
def getOptionOpaque (number : OptionNumber) : Option (Answer (List UInt8)) :=
  match packet.options number with
  | none => some .optNotSet
  | some position => do
      let length ← optlen (packet.read size memory) position
      let value ← readBytes (packet.read size memory) (position + valueStart length) length
      return .success value

/-- `get_options`. -/
def getOptions (number : OptionNumber) : Option (Answer (List (List UInt8))) :=
  match packet.options number with
  | none => some .optNotSet
  | some position =>
      if coapOptionFormat.getD number .formatUnknown = .formatOpaque then do
        let values ← opaqueValues (packet.read size memory) packet.endOfOptions (size + 1) position
        return .success values
      else some .methodNotApplicable

/-- `get_query_list`. -/
def getQueryList (number : OptionNumber) : Option (Answer (List (List UInt8))) :=
  if number ≠ coapOptLocationQuery ∧ number ≠ coapOptUriQuery then some .methodNotApplicable
  else
    match packet.options number with
    | none => some .optNotSet
    | some position => do
        let segments ←
          stringSegments (packet.read size memory) packet.endOfOptions (size + 1) position
        return .success segments

/-- The value of an answer, or what it was before the query. -/
def Answer.valueOr {Value : Type} (default : Value) : Answer Value → Value
  | .success value => value
  | _ => default

/-- `uri_port`. -/
def uriPort : Option ℕ := do
  let (answer, value) ← getUint (packet.read size memory) (packet.options coapOptUriPort)
  match answer with
  | .optNotSet => return coapStdPort
  | _ => return value

/-- `serialize`. -/
def serialize : Option (List UInt8) := do
  let count :=
    if coapUnlimitedOptions ≤ packet.optionCount then UInt8.ofNat coapUnlimitedOptions
    else UInt8.ofNat packet.optionCount &&& 0x0f
  let header := [((packet.version &&& 0x03) <<< 6) ||| ((packet.type &&& 0x03) <<< 4) ||| count,
    packet.code, UInt8.ofNat (packet.msgId.toNat / 256), UInt8.ofNat packet.msgId.toNat]
  let options ← readBetween (packet.read size memory) packet.storage packet.endOfOptions
  let data ← readBytes (packet.read size memory) packet.payload packet.dataLength
  return header ++ options ++ data

/-- What the queries of a packet answer. -/
def observe : Observation where
  whatOptionsAreSet := whatOptionsAreSet packet
  getOptionUint number :=
    (getUint (packet.read size memory) (packet.options number)).map Prod.fst
  getOptionString := getOptionString size memory packet
  getOptionOpaque := getOptionOpaque size memory packet
  getOptions := getOptions size memory packet
  getQueryList := getQueryList size memory packet
  token := (getOptionOpaque size memory packet coapOptToken).map (Answer.valueOr [])
  uriPath := (getOptionString size memory packet coapOptUriPath).map (Answer.valueOr [])
  uriPort := uriPort size memory packet
  optIfNoneMatch := (packet.options coapOptIfNoneMatch).isSome
  data := readBytes (packet.read size memory) packet.payload packet.dataLength
  dataLength := packet.dataLength
  optionCount := packet.optionCount
  serializeLength := 4 + (packet.endOfOptions - packet.storage) + packet.dataLength
  serialize := serialize size memory packet
  msgId := packet.msgId
  type := packet.type
  code := packet.code
  version := packet.version
  errorContext := (packet.errorCode, packet.errorOption)

end Packet

/-! ## Assignment -/

/-- `memcpy( storage_, rhs.storage_, storage_size_ )`. -/
def copyStorage (size : ℕ) (memory : Memory) (this rhs : PacketObject) : Memory := fun address =>
  if this.storage ≤ address ∧ address < this.storage + size then
    memory (rhs.storage + (address - this.storage))
  else memory address

/-- `operator=`. -/
def assign (size : ℕ) (memory : Memory) (this rhs : PacketObject) : Memory × PacketObject :=
  if rhs.storage ≠ this.storage then
    (copyStorage size memory this rhs,
      { this with
        options := fun i =>
          match rhs.options i with
          | some option => some (this.storage + (option - rhs.storage))
          | none => this.options i
        payload := this.storage + (rhs.payload - rhs.storage)
        endOfOptions := this.storage + (rhs.endOfOptions - rhs.storage)
        dataLength := rhs.dataLength
        optionCount := rhs.optionCount
        msgId := rhs.msgId
        type := rhs.type
        code := rhs.code
        errorCode := rhs.errorCode
        errorOption := rhs.errorOption
        version := rhs.version })
  else (memory, this)

/-- Two packets are different objects: their storages do not overlap. -/
structure Apart (size : ℕ) (this rhs : PacketObject) : Prop where
  distinct : this.storage ≠ rhs.storage
  disjoint : this.storage + size ≤ rhs.storage ∨ rhs.storage + size ≤ this.storage

/-- A packet points into its own storage, or to its end. -/
structure Owned (size : ℕ) (packet : PacketObject) : Prop where
  options : ∀ i, ∀ option ∈ packet.options i,
    packet.storage ≤ option ∧ option ≤ packet.storage + size
  payload : packet.storage ≤ packet.payload ∧ packet.payload ≤ packet.storage + size
  endOfOptions : packet.storage ≤ packet.endOfOptions ∧ packet.endOfOptions ≤ packet.storage + size

/-- What a later change of a packet can do to the memory: it writes to the packet's storage. -/
def ChangedWithin (size : ℕ) (packet : PacketObject) (memory later : Memory) : Prop :=
  ∀ address, ¬ (packet.storage ≤ address ∧ address < packet.storage + size) →
    later address = memory address

/-- Assignment of a value: afterwards the packet answers what the right-hand side answers,
points into its own storage, and later changes to either packet leave the other as it is. -/
structure AssignsValue (size : ℕ) (memory : Memory) (this rhs : PacketObject) : Prop where
  observed : observe size (assign size memory this rhs).1 (assign size memory this rhs).2 =
    observe size (assign size memory this rhs).1 rhs
  unchanged : observe size (assign size memory this rhs).1 rhs = observe size memory rhs
  owned : Owned size this → Owned size rhs → Owned size (assign size memory this rhs).2
  left_independent : Apart size this rhs → ∀ later,
    ChangedWithin size rhs (assign size memory this rhs).1 later →
      observe size later (assign size memory this rhs).2 =
        observe size (assign size memory this rhs).1 (assign size memory this rhs).2
  right_independent : Apart size this rhs → ∀ later,
    ChangedWithin size (assign size memory this rhs).2 (assign size memory this rhs).1 later →
      observe size later rhs = observe size (assign size memory this rhs).1 rhs

/-! ## Moving what is read -/

section Moved

variable {read read' : ℤ → Option UInt8} {shift : ℤ}

theorem readBytes_moved (hmoved : ∀ p, read' (p + shift) = read p) (address : ℤ) (count : ℕ) :
    readBytes read' (address + shift) count = readBytes read address count := by
  induction count generalizing address with
  | zero => rfl
  | succ count ih =>
      have hnext : address + shift + 1 = address + 1 + shift := by ring
      simp only [readBytes, hmoved, hnext, ih]

theorem optlen_moved (hmoved : ∀ p, read' (p + shift) = read p) (header : ℤ) :
    optlen read' (header + shift) = optlen read header := by
  have hnext : header + shift + 1 = header + 1 + shift := by ring
  simp only [optlen, hmoved, hnext]

theorem getUint_moved (hmoved : ∀ p, read' (p + shift) = read p) (option : Option ℤ) :
    getUint read' (option.map (· + shift)) = getUint read option := by
  cases option with
  | none => rfl
  | some raw =>
      have hnext : raw + shift + 1 = raw + 1 + shift := by ring
      simp only [getUint, Option.map_some, hmoved, hnext, readBytes_moved hmoved]

theorem stringSegments_moved (hmoved : ∀ p, read' (p + shift) = read p) (stop : ℤ) (fuel : ℕ)
    (position : ℤ) :
    stringSegments read' (stop + shift) fuel (position + shift) =
      stringSegments read stop fuel position := by
  induction fuel generalizing position with
  | zero => rfl
  | succ fuel ih =>
      simp only [stringSegments, optlen_moved hmoved]
      congr 1
      funext length
      have hnext : position + shift + length + valueStart length =
          position + length + valueStart length + shift := by ring
      have hstart : position + shift + valueStart length =
          position + valueStart length + shift := by ring
      simp only [hnext, hstart, hmoved, readBytes_moved hmoved, ih, add_lt_add_iff_right]

theorem opaqueValues_moved (hmoved : ∀ p, read' (p + shift) = read p) (stop : ℤ) (fuel : ℕ)
    (position : ℤ) :
    opaqueValues read' (stop + shift) fuel (position + shift) =
      opaqueValues read stop fuel position := by
  induction fuel generalizing position with
  | zero => rfl
  | succ fuel ih =>
      simp only [opaqueValues, optlen_moved hmoved]
      congr 1
      funext length
      have hstart : position + shift + valueStart length =
          position + valueStart length + shift := by ring
      have hnext : position + valueStart length + shift + length =
          position + valueStart length + length + shift := by ring
      simp only [hstart, hnext, hmoved, readBytes_moved hmoved, ih, add_lt_add_iff_right]

theorem readBetween_moved (hmoved : ∀ p, read' (p + shift) = read p) (start stop : ℤ) :
    readBetween read' (start + shift) (stop + shift) = readBetween read start stop := by
  have hlength : stop + shift - (start + shift) = stop - start := by ring
  simp only [readBetween, readBytes_moved hmoved, hlength, add_le_add_iff_right]

end Moved

/-- A packet with its storage and all its pointers moved. -/
def PacketObject.moved (shift : ℤ) (packet : PacketObject) : PacketObject :=
  { packet with
    storage := packet.storage + shift
    payload := packet.payload + shift
    endOfOptions := packet.endOfOptions + shift
    options := fun i => (packet.options i).map (· + shift) }

section Observing

variable {size : ℕ} {memory later : Memory} {packet : PacketObject} {shift : ℤ}

theorem PacketObject.moved_none {number : OptionNumber} (hoption : packet.options number = none) :
    (packet.moved shift).options number = none := by
  simp only [PacketObject.moved, hoption, Option.map_none]

theorem PacketObject.moved_some {number : OptionNumber} {position : ℤ}
    (hoption : packet.options number = some position) :
    (packet.moved shift).options number = some (position + shift) := by
  simp only [PacketObject.moved, hoption, Option.map_some]

theorem whatOptionsAreSet_moved :
    whatOptionsAreSet (packet.moved shift) = whatOptionsAreSet packet := by
  simp only [whatOptionsAreSet, PacketObject.moved, Option.map_eq_none_iff]

theorem getOptionUint_moved
    (hmoved : ∀ p, (packet.moved shift).read size later (p + shift) = packet.read size memory p)
    (number : OptionNumber) :
    getUint ((packet.moved shift).read size later) ((packet.moved shift).options number) =
      getUint (packet.read size memory) (packet.options number) :=
  getUint_moved hmoved (packet.options number)

theorem segments_moved
    (hmoved : ∀ p, (packet.moved shift).read size later (p + shift) = packet.read size memory p)
    (position : ℤ) :
    stringSegments ((packet.moved shift).read size later) (packet.moved shift).endOfOptions
        (size + 1) (position + shift) =
      stringSegments (packet.read size memory) packet.endOfOptions (size + 1) position :=
  stringSegments_moved hmoved packet.endOfOptions (size + 1) position

theorem getOptionString_moved
    (hmoved : ∀ p, (packet.moved shift).read size later (p + shift) = packet.read size memory p)
    (number : OptionNumber) :
    getOptionString size later (packet.moved shift) number =
      getOptionString size memory packet number := by
  cases hoption : packet.options number with
  | none => simp only [getOptionString, hoption, PacketObject.moved_none hoption]
  | some position =>
      simp only [getOptionString, hoption, PacketObject.moved_some hoption,
        segments_moved hmoved position]

theorem getQueryList_moved
    (hmoved : ∀ p, (packet.moved shift).read size later (p + shift) = packet.read size memory p)
    (number : OptionNumber) :
    getQueryList size later (packet.moved shift) number =
      getQueryList size memory packet number := by
  cases hoption : packet.options number with
  | none => simp only [getQueryList, hoption, PacketObject.moved_none hoption]
  | some position =>
      simp only [getQueryList, hoption, PacketObject.moved_some hoption,
        segments_moved hmoved position]

theorem getOptionOpaque_moved
    (hmoved : ∀ p, (packet.moved shift).read size later (p + shift) = packet.read size memory p)
    (number : OptionNumber) :
    getOptionOpaque size later (packet.moved shift) number =
      getOptionOpaque size memory packet number := by
  cases hoption : packet.options number with
  | none => simp only [getOptionOpaque, hoption, PacketObject.moved_none hoption]
  | some position =>
      simp only [getOptionOpaque, hoption, PacketObject.moved_some hoption, optlen_moved hmoved]
      congr 1
      funext length
      have hstart : position + shift + valueStart length =
          position + valueStart length + shift := by ring
      rw [hstart, readBytes_moved hmoved]

theorem getOptions_moved
    (hmoved : ∀ p, (packet.moved shift).read size later (p + shift) = packet.read size memory p)
    (number : OptionNumber) :
    getOptions size later (packet.moved shift) number = getOptions size memory packet number := by
  cases hoption : packet.options number with
  | none => simp only [getOptions, hoption, PacketObject.moved_none hoption]
  | some position =>
      have hvalues :
          opaqueValues ((packet.moved shift).read size later) (packet.moved shift).endOfOptions
              (size + 1) (position + shift) =
            opaqueValues (packet.read size memory) packet.endOfOptions (size + 1) position :=
        opaqueValues_moved hmoved packet.endOfOptions (size + 1) position
      simp only [getOptions, hoption, PacketObject.moved_some hoption, hvalues]

theorem data_moved
    (hmoved : ∀ p, (packet.moved shift).read size later (p + shift) = packet.read size memory p) :
    readBytes ((packet.moved shift).read size later) (packet.moved shift).payload
        (packet.moved shift).dataLength =
      readBytes (packet.read size memory) packet.payload packet.dataLength :=
  readBytes_moved hmoved packet.payload packet.dataLength

theorem serialize_moved
    (hmoved : ∀ p, (packet.moved shift).read size later (p + shift) = packet.read size memory p) :
    serialize size later (packet.moved shift) = serialize size memory packet := by
  have hbetween : readBetween ((packet.moved shift).read size later)
        (packet.moved shift).storage (packet.moved shift).endOfOptions =
      readBetween (packet.read size memory) packet.storage packet.endOfOptions :=
    readBetween_moved hmoved packet.storage packet.endOfOptions
  simp only [serialize, hbetween, data_moved hmoved]
  rfl

theorem observe_moved
    (hmoved : ∀ p, (packet.moved shift).read size later (p + shift) = packet.read size memory p) :
    observe size later (packet.moved shift) = observe size memory packet := by
  have hlength : (packet.moved shift).endOfOptions - (packet.moved shift).storage =
      packet.endOfOptions - packet.storage := by
    simp only [PacketObject.moved, add_sub_add_right_eq_sub]
  have hnone : ((packet.moved shift).options coapOptIfNoneMatch).isSome =
      (packet.options coapOptIfNoneMatch).isSome := by
    simp only [PacketObject.moved, Option.isSome_map]
  simp only [observe, uriPort, whatOptionsAreSet_moved, getOptionUint_moved hmoved,
    funext (getOptionString_moved hmoved), funext (getQueryList_moved hmoved),
    funext (getOptionOpaque_moved hmoved), funext (getOptions_moved hmoved), data_moved hmoved,
    serialize_moved hmoved, hlength, hnone]
  simp only [PacketObject.moved]

theorem observe_of_read (hread : packet.read size later = packet.read size memory) :
    observe size later packet = observe size memory packet := by
  have hstring : getOptionString size later packet = getOptionString size memory packet := by
    funext number
    simp only [getOptionString, hread]
  have hqueries : getQueryList size later packet = getQueryList size memory packet := by
    funext number
    simp only [getQueryList, hread]
  have hopaque : getOptionOpaque size later packet = getOptionOpaque size memory packet := by
    funext number
    simp only [getOptionOpaque, hread]
  have hoptions : getOptions size later packet = getOptions size memory packet := by
    funext number
    simp only [getOptions, hread]
  have hserialize : serialize size later packet = serialize size memory packet := by
    simp only [serialize, hread]
  simp only [observe, uriPort, hstring, hqueries, hopaque, hoptions, hserialize, hread]

theorem observe_of_storage
    (hstorage : ∀ address, packet.storage ≤ address ∧ address < packet.storage + size →
      later address = memory address) :
    observe size later packet = observe size memory packet := by
  apply observe_of_read
  funext address
  by_cases hinside : packet.storage ≤ address ∧ address < packet.storage + size
  · simp only [PacketObject.read, if_pos hinside, hstorage address hinside]
  · simp only [PacketObject.read, if_neg hinside]

end Observing

/-! ## What an assignment does -/

section Assigning

variable {size : ℕ} {memory : Memory} {this rhs : PacketObject}

theorem Apart.symm (hapart : Apart size this rhs) : Apart size rhs this :=
  ⟨hapart.distinct.symm, hapart.disjoint.symm⟩

theorem Apart.outside (hapart : Apart size this rhs) {address : ℤ}
    (hinside : rhs.storage ≤ address ∧ address < rhs.storage + size) :
    ¬ (this.storage ≤ address ∧ address < this.storage + size) := by
  have hdisjoint := hapart.disjoint
  omega

theorem observe_changedWithin {memory later : Memory} (hapart : Apart size this rhs)
    (hchanged : ChangedWithin size this memory later) :
    observe size later rhs = observe size memory rhs :=
  observe_of_storage fun address hinside => hchanged address (hapart.outside hinside)

theorem changedWithin_copyStorage :
    ChangedWithin size this memory (copyStorage size memory this rhs) := by
  intro address houtside
  simp only [copyStorage, if_neg houtside]

theorem assign_apart (hapart : Apart size this rhs) :
    (assign size memory this rhs).1 = copyStorage size memory this rhs := by
  simp only [assign, ne_eq, hapart.distinct.symm, not_false_eq_true, if_true]

theorem assign_options (hapart : Apart size this rhs) (i : OptionNumber) :
    (assign size memory this rhs).2.options i =
      match rhs.options i with
      | some option => some (this.storage + (option - rhs.storage))
      | none => this.options i := by
  simp only [assign, ne_eq, hapart.distinct.symm, not_false_eq_true, if_true]

theorem assign_storage : (assign size memory this rhs).2.storage = this.storage := by
  by_cases hstorage : rhs.storage ≠ this.storage
  · simp only [assign, if_pos hstorage]
  · simp only [assign, if_neg hstorage]

theorem assign_eq_moved (hapart : Apart size this rhs)
    (hnone : ∀ i, rhs.options i = none → this.options i = none) :
    (assign size memory this rhs).2 = rhs.moved (this.storage - rhs.storage) := by
  have hoptions : (assign size memory this rhs).2.options =
      (rhs.moved (this.storage - rhs.storage)).options := by
    funext i
    rw [assign_options hapart]
    cases hoption : rhs.options i with
    | none => simp only [hnone i hoption, PacketObject.moved_none hoption]
    | some option =>
        simp only [PacketObject.moved_some hoption, Option.some.injEq]
        ring
  have hpayload : this.storage + (rhs.payload - rhs.storage) =
      rhs.payload + (this.storage - rhs.storage) := by ring
  have hend : this.storage + (rhs.endOfOptions - rhs.storage) =
      rhs.endOfOptions + (this.storage - rhs.storage) := by ring
  have hstorage : this.storage = rhs.storage + (this.storage - rhs.storage) := by ring
  simp only [assign, ne_eq, hapart.distinct.symm, not_false_eq_true, if_true] at hoptions ⊢
  simp only [PacketObject.moved, PacketObject.mk.injEq, true_and] at hoptions ⊢
  exact ⟨hstorage, hpayload, hend, hoptions⟩

theorem read_copyStorage (address : ℤ) :
    (rhs.moved (this.storage - rhs.storage)).read size (copyStorage size memory this rhs)
        (address + (this.storage - rhs.storage)) =
      rhs.read size memory address := by
  have hplace : (rhs.moved (this.storage - rhs.storage)).storage = this.storage := by
    simp only [PacketObject.moved]
    ring
  have hback : rhs.storage + (address + (this.storage - rhs.storage) - this.storage) = address := by
    ring
  rw [PacketObject.read, PacketObject.read, hplace]
  by_cases hinside : rhs.storage ≤ address ∧ address < rhs.storage + size
  · have hmoved : this.storage ≤ address + (this.storage - rhs.storage) ∧
        address + (this.storage - rhs.storage) < this.storage + size := by omega
    rw [if_pos hinside, if_pos hmoved, copyStorage, if_pos hmoved, hback]
  · have hmoved : ¬ (this.storage ≤ address + (this.storage - rhs.storage) ∧
        address + (this.storage - rhs.storage) < this.storage + size) := by omega
    rw [if_neg hinside, if_neg hmoved]

theorem assign_same (size : ℕ) (memory : Memory) (hsame : rhs.storage = this.storage) :
    assign size memory this rhs = (memory, this) := by
  simp only [assign, hsame, ne_eq, not_true_eq_false, if_false]

theorem owned_assign (hthis : Owned size this) (hrhs : Owned size rhs) :
    Owned size (assign size memory this rhs).2 := by
  by_cases hstorage : rhs.storage ≠ this.storage
  · have hpayload := hrhs.payload
    have hend := hrhs.endOfOptions
    simp only [assign, if_pos hstorage]
    refine ⟨fun i option hoption => ?_, by dsimp only; omega, by dsimp only; omega⟩
    dsimp only at hoption ⊢
    cases hold : rhs.options i with
    | none =>
        rw [hold] at hoption
        exact hthis.options i option hoption
    | some position =>
        have hposition := hrhs.options i position hold
        rw [hold] at hoption
        obtain rfl : this.storage + (position - rhs.storage) = option :=
          Option.some.inj hoption
        omega
  · rwa [assign_same size memory (not_not.mp hstorage)]

theorem whatOptionsAreSet_lt {packet more : PacketObject}
    (hmore : ∀ i, more.options i = none → packet.options i = none) {i : OptionNumber}
    (hnone : packet.options i = none) (hsome : more.options i ≠ none) :
    whatOptionsAreSet packet < whatOptionsAreSet more := by
  apply List.sum_lt_sum
  · intro j _
    by_cases hj : more.options j = none
    · simp only [hj, hmore j hj, if_true, le_refl]
    · simp only [hj, if_false]
      split
      · exact Nat.zero_le _
      · exact le_rfl
  · have hpositive : 0 < 2 ^ i.val := Nat.two_pow_pos i.val
    exact ⟨i, List.mem_finRange i, by simpa only [hnone, hsome, if_true, if_false] using hpositive⟩

/-- An option that only the packet had before is still set afterwards. -/
theorem observed_none (hapart : Apart size this rhs)
    (hobserved : observe size (assign size memory this rhs).1 (assign size memory this rhs).2 =
      observe size (assign size memory this rhs).1 rhs)
    (i : OptionNumber) (hnone : rhs.options i = none) : this.options i = none := by
  by_contra hsome
  have hset := congrArg Observation.whatOptionsAreSet hobserved
  simp only [observe] at hset
  have hless : whatOptionsAreSet rhs < whatOptionsAreSet (assign size memory this rhs).2 := by
    apply whatOptionsAreSet_lt (i := i) _ hnone
    · rw [assign_options hapart, hnone]
      exact hsome
    · intro j hj
      rw [assign_options hapart] at hj
      cases hold : rhs.options j with
      | none => rfl
      | some option => simp only [hold, reduceCtorEq] at hj
  omega

theorem assign_changedWithin (hapart : Apart size this rhs) :
    observe size (assign size memory this rhs).1 rhs = observe size memory rhs := by
  rw [assign_apart hapart]
  exact observe_changedWithin hapart changedWithin_copyStorage

/-- The assignment makes the packet a copy exactly when it had no option that the right-hand
side does not have. -/
theorem assignsValue_iff (hobjects : this = rhs ∨ Apart size this rhs) :
    AssignsValue size memory this rhs ↔ ∀ i, rhs.options i = none → this.options i = none := by
  obtain rfl | hapart := hobjects
  · have hself := assign_same size memory (rfl : this.storage = this.storage)
    refine ⟨fun _ i hnone => hnone, fun _ => ⟨?_, ?_, ?_, ?_, ?_⟩⟩
    · rw [hself]
    · rw [hself]
    · exact fun hthis _ => owned_assign hthis hthis
    · exact fun hapart => absurd rfl hapart.distinct
    · exact fun hapart => absurd rfl hapart.distinct
  · refine ⟨fun hvalue => observed_none hapart hvalue.observed, fun hnone => ?_⟩
    have hplace : Apart size (assign size memory this rhs).2 rhs :=
      ⟨by rw [assign_storage]; exact hapart.distinct,
        by rw [assign_storage]; exact hapart.disjoint⟩
    constructor
    · rw [assign_changedWithin hapart, assign_eq_moved hapart hnone, assign_apart hapart]
      exact observe_moved read_copyStorage
    · exact assign_changedWithin hapart
    · exact owned_assign
    · exact fun _ later hchanged => observe_changedWithin hplace.symm hchanged
    · exact fun _ later hchanged => observe_changedWithin hplace hchanged

end Assigning

/-! ## Packets at an address -/

/-- The number of a response code. -/
def CoapCode.value : CoapCode → UInt8
  | .empty => 0
  | .badRequest => 128
  | .badOption => 130
  | .notImplemented => 161

/-- A packet whose `storage_` is put at an address. -/
def CoapPacketStatic.place (storage : ℤ) (packet : CoapPacketStatic) : PacketObject where
  storage := storage
  payload := storage + packet.payload
  endOfOptions := storage + packet.endOfOptions
  dataLength := packet.dataLength
  optionCount := packet.optionCount
  msgId := UInt16.ofNat packet.msgId
  type := packet.type
  code := packet.code
  errorCode := packet.errorCode.value
  errorOption := packet.errorOption
  version := packet.version
  options i := (packet.options i).map (storage + ·)

/-- The memory with the bytes of a packet put at an address. -/
def CoapPacketStatic.store (size : ℕ) (storage : ℤ) (packet : CoapPacketStatic) (memory : Memory) :
    Memory := fun address =>
  if storage ≤ address ∧ address < storage + size then packet.storage (address - storage).toNat
  else memory address

/-- Packets in storages of eight bytes: a new one, and one that has parsed a message with
the one-byte token 42. -/
def newPacket : CoapPacketStatic :=
  (CoapPacketStatic.mk 1 0 0 0 (fun _ => none) 0 0 0 0 .empty 0 fun _ => 0).init 8

def tokenMessage : List UInt8 := [0x51, 1, 0, 7, 0xb1, 42]

def tokenPacket : CoapPacketStatic :=
  match parseMessage noStray 8 newPacket tokenMessage 2 with
  | some (_, packet, _) => packet
  | none => newPacket

/-- The token packet at 0 and the new packet at 8. -/
def twoPackets : Memory := tokenPacket.store 8 0 (newPacket.store 8 8 fun _ => 0)

theorem assignsValue_iff_new :
    AssignsValue 8 twoPackets (newPacket.place 8) (tokenPacket.place 0) ↔
      ∀ i, (tokenPacket.place 0).options i = none → (newPacket.place 8).options i = none :=
  assignsValue_iff (.inr ⟨by decide, by decide⟩)

/-- A packet with a token that is assigned a new one keeps the token. -/
theorem not_assignsValue_token :
    (∃ events, parseMessage noStray 8 newPacket tokenMessage 2 =
      some (.success, tokenPacket, events)) ∧
    ¬ AssignsValue 8 twoPackets (tokenPacket.place 0) (newPacket.place 8) := by
  refine ⟨⟨_, rfl⟩, fun hvalue => ?_⟩
  have hnone := observed_none ⟨by decide, by decide⟩ hvalue.observed coapOptToken rfl
  exact absurd hnone (by decide)

end Wiselib.StaticCoap
