import Wiselib.Coap.CoapPacketDecoding

/-!
# Where `bufferToPacket` reads and writes

`buffer_to_packet` is told the length of the message, but uses it for the length
of the payload only.  `decodeAccesses` notes what the decoder touches: the
offsets in the message it reads, those `merge_options` writes, and the sizes of
what is copied into `token_`.

## Strategy

* `OptionsFit` follows the headers of the options through the message and says
  that all of them, and the position behind the last one, are inside.
* `merge_options` writes in front of the option that is read next only
  (`readOption_spec`), so the headers the decoder meets are those of the message
  as it came.
* `optionsSafe_iff` is the induction over the rounds of the loop, and
  `decodesSafely_iff` adds the header of the message.
-/

namespace Wiselib.Coap

open ByteBuffer

namespace CoapPacket

/-- Bytes of `token_`. -/
def tokenSize : ℕ := 8

/-- The offsets in the message that are read and written, and the sizes of what is
copied into `token_`. -/
structure Accesses where
  reads : List ℕ
  writes : List ℕ
  tokens : List ℕ

/-- One after the other. -/
def Accesses.append (first second : Accesses) : Accesses where
  reads := first.reads ++ second.reads
  writes := first.writes ++ second.writes
  tokens := first.tokens ++ second.tokens

/-- Nothing but reads. -/
def Accesses.ofReads (reads : List ℕ) : Accesses := { reads := reads, writes := [], tokens := [] }

/-- The accesses of the `switch` of `buffer_to_packet`. -/
def storeAccesses (option : CoapOption) (length : ℕ) (reader : Reader) : Accesses :=
  let value := List.range' reader.currentOpt length
  match option with
  | .contentType | .uriHost | .uriPort | .observe | .accept | .block2 => Accesses.ofReads value
  | .token => { reads := value, writes := [], tokens := [length] }
  | .uriPath =>
      let pathEnd := reader.pathAt + reader.packet.uriPathLen
      if reader.packet.uriPathLen > 0 then
        { reads := value, writes := pathEnd :: List.range' (pathEnd + 1) length, tokens := [] }
      else Accesses.ofReads []
  | _ => Accesses.ofReads []

/-- The bytes of the header of the option at the reader. -/
def headerReads (reader : Reader) : List ℕ :=
  if reader.buffer reader.currentOpt &&& 0x0f < 15 then [reader.currentOpt]
  else [reader.currentOpt, reader.currentOpt + 1]

/-- The accesses of one round of the loop of `buffer_to_packet`. -/
def optionAccesses (reader : Reader) : Accesses :=
  let (delta, length, value) := optionHeader reader
  let found := { reader with currentDelta := delta, currentOpt := value }
  let header := Accesses.ofReads (headerReads reader)
  if delta = 14 ∧ length = 0 then header
  else
    match CoapOption.ofNumber delta with
    | none => header
    | some option => header.append (storeAccesses option length found)

/-- The accesses of the loop of `buffer_to_packet`. -/
def optionsAccesses : ℕ → Reader → Accesses
  | 0, _ => Accesses.ofReads []
  | count + 1, reader =>
      match readOption reader with
      | .error _ => optionAccesses reader
      | .ok next => (optionAccesses reader).append (optionsAccesses count next)

/-- The reader in front of the first option. -/
def firstReader (packet : CoapPacket) (buffer : ℕ → UInt8) : Reader where
  packet := packet.readHeader buffer
  buffer := buffer
  currentOpt := coapHeaderLen + 1
  currentDelta := 0
  pathAt := 0

/-- The accesses of `buffer_to_packet`. -/
def decodeAccesses (packet : CoapPacket) (buffer : ℕ → UInt8) : Accesses :=
  let reader := firstReader packet buffer
  (Accesses.ofReads [1, 2, 3, 4]).append (optionsAccesses reader.packet.optCount.toNat reader)

/-- The position at which `buffer_to_packet` takes the payload to start. -/
def payloadAt (packet : CoapPacket) (buffer : ℕ → UInt8) : Option ℕ :=
  let reader := firstReader packet buffer
  match readOptions reader.packet.optCount.toNat reader with
  | .error _ => none
  | .ok last => some last.currentOpt

/-! ## What is safe -/

/-- All accesses are inside a message of `len` bytes and inside `token_`. -/
structure Accesses.Inside (accesses : Accesses) (len : ℕ) : Prop where
  reads : ∀ offset ∈ accesses.reads, offset < len
  writes : ∀ offset ∈ accesses.writes, offset < len
  tokens : ∀ size ∈ accesses.tokens, size ≤ tokenSize

/-- Decoding touches bytes of the message only, keeps to `token_`, and the length
of the payload does not underflow. -/
structure DecodesSafely (packet : CoapPacket) (len : UInt8) (buffer : ℕ → UInt8) : Prop where
  inside : (decodeAccesses packet buffer).Inside len.toNat
  payload : ∀ start, payloadAt packet buffer = some start → start ≤ len.toNat

/-- The number of the option at `position`, the length of its value and where it
starts, after an option `delta`. -/
def headerAt (buffer : ℕ → UInt8) (delta position : ℕ) : ℕ × ℕ × ℕ :=
  let head := buffer position
  let number := (delta + (head >>> 4).toNat) % 256
  let length := head &&& 0x0f
  if length < 15 then (number, length.toNat, position + 1)
  else (number, (buffer (position + 1)).toNat + 15, position + 2)

/-- The headers of the next `count` options in the message are inside the message,
no token is longer than `token_`, and the message ends behind the last option;
an option without a number of its own ends the decoding. -/
def OptionsFit (buffer : ℕ → UInt8) (len : ℕ) : (count delta position : ℕ) → Prop
  | 0, _, position => position ≤ len
  | count + 1, delta, position =>
      let (number, length, value) := headerAt buffer delta position
      value ≤ len ∧
        if number = 14 ∧ length = 0 then OptionsFit buffer len count number value
        else
          match CoapOption.ofNumber number with
          | none => True
          | some option =>
              (option = .token → length ≤ tokenSize) ∧
                OptionsFit buffer len count number (value + length)

theorem optionHeader_eq (reader : Reader) :
    optionHeader reader = headerAt reader.buffer reader.currentDelta reader.currentOpt := rfl

theorem headerAt_congr {buffer other : ℕ → UInt8} {position : ℕ}
    (hsame : ∀ i, position ≤ i → other i = buffer i) (delta : ℕ) :
    headerAt other delta position = headerAt buffer delta position := by
  simp only [headerAt, hsame position le_rfl, hsame (position + 1) (Nat.le_succ _)]

theorem OptionsFit.position_le {buffer : ℕ → UInt8} {len count delta position : ℕ}
    (hfit : OptionsFit buffer len count delta position) : position ≤ len := by
  cases count with
  | zero => exact hfit
  | succ count =>
    have hbehind : position < (headerAt buffer delta position).2.2 := by
      simp only [headerAt]
      split_ifs <;> simp
    exact hbehind.le.trans hfit.1

/-! ## The accesses of a round -/

section Inside

variable {len : ℕ}

theorem inside_append {first second : Accesses} :
    (first.append second).Inside len ↔ first.Inside len ∧ second.Inside len := by
  constructor
  · intro hinside
    have hreads := hinside.reads
    have hwrites := hinside.writes
    have htokens := hinside.tokens
    simp only [Accesses.append, List.mem_append, or_imp, forall_and] at hreads hwrites htokens
    exact ⟨⟨hreads.1, hwrites.1, htokens.1⟩, ⟨hreads.2, hwrites.2, htokens.2⟩⟩
  · rintro ⟨hfirst, hsecond⟩
    constructor <;> simp only [Accesses.append, List.mem_append, or_imp, forall_and]
    · exact ⟨hfirst.reads, hsecond.reads⟩
    · exact ⟨hfirst.writes, hsecond.writes⟩
    · exact ⟨hfirst.tokens, hsecond.tokens⟩

theorem inside_ofReads {reads : List ℕ} :
    (Accesses.ofReads reads).Inside len ↔ ∀ offset ∈ reads, offset < len :=
  ⟨fun hinside => hinside.reads, fun hreads =>
    { reads := hreads
      writes := fun _ hmem => absurd hmem List.not_mem_nil
      tokens := fun _ hmem => absurd hmem List.not_mem_nil }⟩

theorem headerReads_inside (reader : Reader) :
    (∀ offset ∈ headerReads reader, offset < len) ↔ (optionHeader reader).2.2 ≤ len := by
  unfold headerReads optionHeader
  dsimp only
  split_ifs with hshort
  · simp only [List.mem_singleton, forall_eq]
    exact Nat.lt_iff_add_one_le
  · simp only [List.mem_cons, List.not_mem_nil, or_false, forall_eq_or_imp, forall_eq]
    omega

/-- Keeping an option that ends inside the message touches nothing outside, but
for a token that is too long. -/
theorem storeAccesses_inside {option : CoapOption} {length : ℕ} {reader : Reader}
    (hbelow : reader.pathAt + reader.packet.uriPathLen < reader.currentOpt)
    (hend : reader.currentOpt + length ≤ len) (htoken : option = .token → length ≤ tokenSize) :
    (storeAccesses option length reader).Inside len := by
  have hvalue : ∀ offset ∈ List.range' reader.currentOpt length, offset < len := by
    intro offset hmem
    rw [List.mem_range'_1] at hmem
    omega
  have hreads := inside_ofReads.2 hvalue
  have hnothing : (Accesses.ofReads []).Inside len :=
    inside_ofReads.2 fun _ hmem => absurd hmem List.not_mem_nil
  cases option with
  | contentType | uriHost | uriPort | observe | accept | block2 => exact hreads
  | token =>
      exact
        { reads := hvalue
          writes := hnothing.writes
          tokens := fun size hmem => by
            rw [List.mem_singleton.1 hmem]
            exact htoken rfl }
  | uriPath =>
      simp only [storeAccesses]
      split_ifs with hpath
      · refine { reads := hvalue, writes := ?_, tokens := hnothing.tokens }
        intro offset hmem
        rw [List.mem_cons, List.mem_range'_1] at hmem
        omega
      · exact hnothing
  | _ => exact hnothing

/-! ## The accesses of all rounds -/

/-- Every access from the reader on is inside, and the payload starts inside. -/
def OptionsSafe (len count : ℕ) (reader : Reader) : Prop :=
  (optionsAccesses count reader).Inside len ∧
    ∀ last, readOptions count reader = .ok last → last.currentOpt ≤ len

section Round

variable {count number length value : ℕ} {reader next stopped : Reader}

theorem optionsSafe_ok (hread : readOption reader = .ok next) :
    OptionsSafe len (count + 1) reader ↔
      (optionAccesses reader).Inside len ∧ OptionsSafe len count next := by
  simp only [OptionsSafe, optionsAccesses, readOptions, hread, inside_append, Except.bind, and_assoc]

theorem optionsSafe_error (hread : readOption reader = .error stopped) :
    OptionsSafe len (count + 1) reader ↔ (optionAccesses reader).Inside len := by
  simp [OptionsSafe, optionsAccesses, readOptions, hread, Except.bind]

theorem round_fence (hparts : optionHeader reader = (number, length, value))
    (hfence : number = 14 ∧ length = 0) :
    readOption reader = .ok { reader with currentDelta := number, currentOpt := value } ∧
      optionAccesses reader = Accesses.ofReads (headerReads reader) := by
  rw [readOption, optionAccesses, hparts]
  exact ⟨if_pos hfence, if_pos hfence⟩

theorem round_unknown (hparts : optionHeader reader = (number, length, value))
    (hfence : ¬ (number = 14 ∧ length = 0)) (hoption : CoapOption.ofNumber number = none) :
    readOption reader = .error { reader with currentDelta := number, currentOpt := value } ∧
      optionAccesses reader = Accesses.ofReads (headerReads reader) := by
  rw [readOption, optionAccesses, hparts]
  simp only [if_neg hfence, hoption]
  exact ⟨trivial, trivial⟩

theorem round_known {option : CoapOption} (hparts : optionHeader reader = (number, length, value))
    (hfence : ¬ (number = 14 ∧ length = 0)) (hoption : CoapOption.ofNumber number = some option) :
    readOption reader =
        .ok
          { storeOption option length
              { reader with currentDelta := number, currentOpt := value } with
            currentOpt := value + length } ∧
      optionAccesses reader =
        (Accesses.ofReads (headerReads reader)).append
          (storeAccesses option length
            { reader with currentDelta := number, currentOpt := value }) := by
  rw [readOption, optionAccesses, hparts]
  simp only [if_neg hfence, hoption]
  exact ⟨trivial, trivial⟩

theorem optionsFit_succ {buffer : ℕ → UInt8} {delta position : ℕ}
    (hparts : headerAt buffer delta position = (number, length, value)) :
    OptionsFit buffer len (count + 1) delta position ↔
      value ≤ len ∧
        if number = 14 ∧ length = 0 then OptionsFit buffer len count number value
        else
          match CoapOption.ofNumber number with
          | none => True
          | some option =>
              (option = .token → length ≤ tokenSize) ∧
                OptionsFit buffer len count number (value + length) := by
  rw [OptionsFit, hparts]

end Round

/-- Induction over the rounds of the loop: each meets the header of the message as
it came. -/
theorem optionsSafe_iff {buffer : ℕ → UInt8} (count : ℕ) (reader : Reader)
    (hbelow : reader.PathBelow)
    (hsame : ∀ i, reader.currentOpt ≤ i → reader.buffer i = buffer i) :
    OptionsSafe len count reader ↔
      OptionsFit buffer len count reader.currentDelta reader.currentOpt := by
  induction count generalizing reader with
  | zero =>
    have hnothing : (Accesses.ofReads []).Inside len :=
      inside_ofReads.2 fun _ hmem => absurd hmem List.not_mem_nil
    constructor
    · rintro ⟨-, hlast⟩
      exact hlast reader rfl
    · intro hfit
      refine ⟨hnothing, ?_⟩
      rintro last ⟨⟩
      exact hfit
  | succ count ih =>
    have hheader : optionHeader reader = headerAt buffer reader.currentDelta reader.currentOpt :=
      (optionHeader_eq reader).trans (headerAt_congr hsame _)
    have hreads := @headerReads_inside len reader
    have hvalue := optionHeader_value reader
    rcases hparts : optionHeader reader with ⟨number, length, value⟩
    rw [hparts] at hheader hreads hvalue
    dsimp only at hvalue
    rw [optionsFit_succ hheader.symm, ← hreads, ← inside_ofReads]
    -- What a round that goes on leaves to the rounds behind it.
    have hnext : ∀ next, readOption reader = .ok next →
        (OptionsSafe len count next ↔ OptionsFit buffer len count number (value + length)) := by
      intro next hread
      have hspec := readOption_spec hbelow hread
      have hdelta : next.currentDelta = number := by rw [hspec.delta, hparts]
      have hopt : next.currentOpt = value + length := by rw [hspec.opt, hparts]
      rw [← hdelta, ← hopt]
      refine ih next hspec.below fun i hi => ?_
      rw [hspec.behind i hi]
      exact hsame i (by omega)
    by_cases hfence : number = 14 ∧ length = 0
    · obtain ⟨hread, hround⟩ := round_fence hparts hfence
      have hrest := hnext _ hread
      rw [hfence.2, Nat.add_zero] at hrest
      rw [if_pos hfence, optionsSafe_ok hread, hround, hrest]
    · rw [if_neg hfence]
      cases hoption : CoapOption.ofNumber number with
      | none =>
        obtain ⟨hread, hround⟩ := round_unknown hparts hfence hoption
        rw [optionsSafe_error hread, hround]
        exact (iff_of_eq (and_true _)).symm
      | some option =>
        obtain ⟨hread, hround⟩ := round_known hparts hfence hoption
        have hrest := hnext _ hread
        have hfound : reader.pathAt + reader.packet.uriPathLen < value :=
          lt_of_le_of_lt hbelow hvalue
        rw [optionsSafe_ok hread, hround, inside_append]
        dsimp only
        rw [← hrest]
        constructor
        · rintro ⟨⟨hhead, hstore⟩, hafter⟩
          refine ⟨hhead, ?_, hafter⟩
          rintro rfl
          exact hstore.tokens length (List.mem_singleton_self _)
        · rintro ⟨hhead, htoken, hafter⟩
          have hfit := hrest.1 hafter
          exact ⟨⟨hhead, storeAccesses_inside hfound hfit.position_le htoken⟩, hafter⟩

end Inside

/-! ## The whole message -/

theorem firstReader_below (memory : CoapPacket) (buffer : ℕ → UInt8) :
    (firstReader (init memory) buffer).PathBelow := Nat.zero_le _

theorem payloadAt_eq_some {packet : CoapPacket} {buffer : ℕ → UInt8} {start : ℕ} :
    payloadAt packet buffer = some start ↔
      ∃ last, readOptions (buffer 1 &&& 0x0f).toNat (firstReader packet buffer) = .ok last ∧
        last.currentOpt = start := by
  have hcount : (firstReader packet buffer).packet.optCount = buffer 1 &&& 0x0f := rfl
  unfold payloadAt
  dsimp only
  rw [hcount]
  rcases readOptions (buffer 1 &&& 0x0f).toNat (firstReader packet buffer) with failed | last
  · simp
  · simp

theorem decodesSafely_iff (memory : CoapPacket) (len : UInt8) (buffer : ℕ → UInt8) :
    DecodesSafely (init memory) len buffer ↔
      OptionsFit buffer len.toNat (buffer 1 &&& 0x0f).toNat 0 (coapHeaderLen + 1) := by
  have hloop := @optionsSafe_iff len.toNat buffer (buffer 1 &&& 0x0f).toNat
    (firstReader (init memory) buffer) (firstReader_below memory buffer) fun _ _ => rfl
  have hdelta : (firstReader (init memory) buffer).currentDelta = 0 := rfl
  have hopt : (firstReader (init memory) buffer).currentOpt = coapHeaderLen + 1 := rfl
  rw [hdelta, hopt] at hloop
  have haccesses : decodeAccesses (init memory) buffer =
      (Accesses.ofReads [1, 2, 3, 4]).append
        (optionsAccesses (buffer 1 &&& 0x0f).toNat (firstReader (init memory) buffer)) := rfl
  rw [← hloop]
  constructor
  · rintro ⟨hinside, hpayload⟩
    rw [haccesses, inside_append] at hinside
    exact ⟨hinside.2, fun last hread => hpayload _ (payloadAt_eq_some.2 ⟨last, hread, rfl⟩)⟩
  · intro hsafe
    have hstart := (hloop.1 hsafe).position_le
    simp only [coapHeaderLen] at hstart
    constructor
    · rw [haccesses, inside_append]
      refine ⟨inside_ofReads.2 fun offset hmem => ?_, hsafe.1⟩
      simp only [List.mem_cons, List.not_mem_nil, or_false] at hmem
      omega
    · intro start hpayload
      obtain ⟨last, hread, rfl⟩ := payloadAt_eq_some.1 hpayload
      exact hsafe.2 last hread

/-- The decoder keeps to the message, the token and the payload length if and only
if the options the message announces fit into it. -/
theorem bufferToPacket_safe_iff (memory : CoapPacket) (len : UInt8) (buffer : ℕ → UInt8) :
    DecodesSafely (init memory) len buffer ↔
      OptionsFit buffer len.toNat (buffer 1 &&& 0x0f).toNat 0 (coapHeaderLen + 1) :=
  decodesSafely_iff memory len buffer

/-- A message of six bytes with one option, a token of twelve bytes. -/
def longToken : ℕ → UInt8 := fun i => if i = 1 then 0x41 else if i = 5 then 0xbc else 0

/-- The decoder trusts the length of the token. -/
theorem bufferToPacket_unsafe :
    ¬ ∀ (memory : CoapPacket) (len : UInt8) (buffer : ℕ → UInt8),
      DecodesSafely (init memory) len buffer := by
  intro hall
  have hsafe := hall ⟨0, 0, 0, 0, 0, 0, 0, 0, 0, 0, 0, [], 0, 0, [], 0, 0, 0, 0, 0, 0, []⟩ 6 longToken
  rw [decodesSafely_iff] at hsafe
  obtain ⟨-, hfit⟩ := hsafe
  rw [if_neg (by decide)] at hfit
  have htoken : 12 ≤ tokenSize := hfit.1 rfl
  exact absurd htoken (by decide)

end CoapPacket

end Wiselib.Coap
