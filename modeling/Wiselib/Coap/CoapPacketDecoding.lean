import Wiselib.Coap.CoapPacketEncoding

/-!
# How `bufferToPacket` reads options

`absorb` is what an option does to a packet, told by its number and the bytes
of its value.  `readOption_spec` says that a round of the decoder absorbs the
option it finds in the buffer, although it may put segments together over bytes
that were read before: the path always ends before the option that is read, so
nothing that is still to be read changes.

`readOptions_wire` lifts this to the options of a packet on the wire.
-/

namespace Wiselib.Coap

open ByteBuffer

namespace CoapPacket

/-! ## Absorbing an option -/

/-- Keeps the value of an option, with the text of the path in place of its address. -/
def store (option : CoapOption) (value : List UInt8) (packet : CoapPacket) : CoapPacket :=
  let packet := packet.setOption option
  match option with
  | .contentType => { packet with contentType := (getIntOptValue false value).toUInt8 }
  | .uriHost => { packet with uriHost := (getIntOptValue true value).toUInt16 }
  | .uriPort => { packet with uriPort := (getIntOptValue false value).toUInt16 }
  | .uriPath =>
      { packet with
        uriPath :=
          if packet.uriPathLen > 0 then packet.uriPath ++ separator :: value else value
        uriPathLen :=
          if packet.uriPathLen > 0 then packet.uriPathLen + 1 + value.length else value.length }
  | .observe => { packet with observe := (getIntOptValue false value).toUInt16 }
  | .token => { packet with tokenLen := UInt8.ofNat value.length, token := value }
  | .accept => { packet with accept := (getIntOptValue false value).toUInt16 }
  | .block2 => setBlock packet (getIntOptValue false value)
  | _ => packet

/-- What an option with a number and a value does to a packet. -/
def absorb (packet : CoapPacket) (opt : ℕ × List UInt8) : CoapPacket :=
  if opt.1 = 14 ∧ opt.2.length = 0 then packet
  else
    match CoapOption.ofNumber opt.1 with
    | none => packet
    | some option => store option opt.2 packet

/-! ## A round of the decoder -/

/-- The path lies in front of the option that is read next. -/
def Reader.PathBelow (reader : Reader) : Prop :=
  reader.pathAt + reader.packet.uriPathLen ≤ reader.currentOpt

/-- What `merge_options` leaves in the buffer: the path, the separator and the value. -/
theorem read_merged {buffer : ℕ → UInt8} {pathAt pathLen value length : ℕ}
    (hbelow : pathAt + pathLen < value) :
    read (write (write buffer (pathAt + pathLen) [separator]) (pathAt + (pathLen + 1))
        (read (write buffer (pathAt + pathLen) [separator]) value length))
        pathAt (pathLen + 1 + length) =
      read buffer pathAt pathLen ++ separator :: read buffer value length := by
  have hvalue : read (write buffer (pathAt + pathLen) [separator]) value length =
      read buffer value length := by
    apply read_congr
    intro i hi _
    exact write_above (by simp; omega)
  have hsep : read (write buffer (pathAt + pathLen) [separator]) pathAt (pathLen + 1) =
      read buffer pathAt pathLen ++ [separator] := by
    rw [read_add, read_write_of_le le_rfl]
    exact congrArg _ read_write_self
  rw [hvalue, read_add, read_write_of_le (by omega), hsep, ← Nat.add_assoc]
  have hself : read (write (write buffer (pathAt + pathLen) [separator]) (pathAt + pathLen + 1)
      (read buffer value length)) (pathAt + pathLen + 1) length = read buffer value length := by
    apply holds_write.read_eq
    rw [length_read]
  rw [hself]
  simp

theorem view_storeOption {option : CoapOption} {length : ℕ} {reader : Reader}
    (hbelow : reader.pathAt + reader.packet.uriPathLen < reader.currentOpt) :
    (storeOption option length reader).view =
      store option (read reader.buffer reader.currentOpt length) reader.view := by
  cases option with
  | uriPath =>
      by_cases hempty : reader.packet.uriPathLen > 0
      · simp [storeOption, mergeOptions, store, Reader.view, setOption, hempty,
          read_merged hbelow]
      · simp [storeOption, mergeOptions, store, Reader.view, setOption, hempty]
  | _ => simp [storeOption, store, Reader.view, setOption, setBlock]

theorem storeOption_behind {option : CoapOption} {length i : ℕ} {reader : Reader}
    (hbelow : reader.pathAt + reader.packet.uriPathLen < reader.currentOpt)
    (hi : reader.currentOpt + length ≤ i) :
    (storeOption option length reader).buffer i = reader.buffer i := by
  cases option with
  | uriPath =>
      by_cases hempty : reader.packet.uriPathLen > 0
      · simp only [storeOption, mergeOptions, setOption, hempty, if_true]
        rw [write_above (by simp; omega), write_above (by simp; omega)]
      · simp [storeOption, mergeOptions, setOption, hempty]
  | _ => rfl

theorem storeOption_pathBelow {option : CoapOption} {length : ℕ} {reader : Reader}
    (hbelow : reader.pathAt + reader.packet.uriPathLen < reader.currentOpt) :
    (storeOption option length reader).pathAt +
      (storeOption option length reader).packet.uriPathLen ≤ reader.currentOpt + length := by
  cases option with
  | uriPath =>
      by_cases hempty : reader.packet.uriPathLen > 0
      · simp [storeOption, mergeOptions, setOption, hempty]
        omega
      · simp [storeOption, mergeOptions, setOption, hempty]
  | _ => simp [storeOption, setOption, setBlock]; omega

theorem optionHeader_value (reader : Reader) :
    reader.currentOpt < (optionHeader reader).2.2 := by
  simp only [optionHeader]
  split_ifs <;> simp

/-- What a round of the decoder leaves: the option at the reader is absorbed, and
nothing behind it has changed. -/
structure Absorbed (reader next : Reader) : Prop where
  view : next.view = absorb reader.view ((optionHeader reader).1,
    read reader.buffer (optionHeader reader).2.2 (optionHeader reader).2.1)
  opt : next.currentOpt = (optionHeader reader).2.2 + (optionHeader reader).2.1
  delta : next.currentDelta = (optionHeader reader).1
  behind : ∀ i, next.currentOpt ≤ i → next.buffer i = reader.buffer i
  below : next.PathBelow

theorem storeOption_currentDelta {option : CoapOption} {length : ℕ} {reader : Reader} :
    (storeOption option length reader).currentDelta = reader.currentDelta := by
  cases option with
  | uriPath =>
      by_cases hempty : reader.packet.uriPathLen > 0 <;>
        simp [storeOption, mergeOptions, setOption, hempty]
  | _ => rfl

theorem readOption_spec {reader next : Reader} (hbelow : reader.PathBelow)
    (hread : readOption reader = .ok next) : Absorbed reader next := by
  have hvalue := optionHeader_value reader
  rcases hheader : optionHeader reader with ⟨delta, length, value⟩
  simp only [hheader] at hvalue
  let found : Reader := { reader with currentDelta := delta, currentOpt := value }
  have hfound : found.pathAt + found.packet.uriPathLen < found.currentOpt :=
    lt_of_le_of_lt hbelow hvalue
  simp only [readOption, hheader] at hread
  by_cases hfence : delta = 14 ∧ length = 0
  · rw [if_pos hfence] at hread
    cases hread
    obtain ⟨rfl, rfl⟩ := hfence
    constructor
    · simp [hheader, absorb, Reader.view]
    · simp [hheader]
    · simp [hheader]
    · intro i _
      rfl
    · exact hfound.le
  · rw [if_neg hfence] at hread
    cases hoption : CoapOption.ofNumber delta with
    | none => simp [hoption] at hread
    | some option =>
        simp only [hoption] at hread
        cases hread
        constructor
        · have hstore : (storeOption option length found).view =
              store option (read reader.buffer value length) reader.view := view_storeOption hfound
          simp only [hheader, absorb, length_read, if_neg hfence, hoption]
          exact hstore
        · simp [hheader]
        · simp only [hheader]
          exact storeOption_currentDelta
        · intro i hi
          exact storeOption_behind hfound hi
        · exact storeOption_pathBelow hfound

/-- A round of the decoder fails on options without a number of their own only. -/
theorem readOption_ok {reader : Reader}
    (hknown : (CoapOption.ofNumber (optionHeader reader).1).isSome) :
    ∃ next, readOption reader = .ok next := by
  rcases hheader : optionHeader reader with ⟨delta, length, value⟩
  rw [hheader] at hknown
  obtain ⟨option, hoption⟩ := Option.isSome_iff_exists.1 hknown
  by_cases hfence : delta = 14 ∧ length = 0
  · simp only [readOption, hheader, if_pos hfence]
    exact ⟨_, rfl⟩
  · simp only [readOption, hheader, if_neg hfence, hoption]
    exact ⟨_, rfl⟩

/-! ## The options on the wire -/

theorem toNat_header {delta length : ℕ} (hdelta : delta < 16) (hlength : length < 16) :
    (UInt8.ofNat (delta <<< 4 ||| length)).toNat = 16 * delta + length := by
  have hor : delta <<< 4 ||| length = delta <<< 4 + length :=
    (Nat.shiftLeft_add_eq_or_of_lt (by simpa using hlength) delta).symm
  rw [hor, Nat.shiftLeft_eq, UInt8.toNat_ofNat']
  omega

theorem header_delta {delta length : ℕ} (hdelta : delta < 16) (hlength : length < 16) :
    (UInt8.ofNat (delta <<< 4 ||| length) >>> 4).toNat = delta := by
  rw [UInt8.toNat_shiftRight, toNat_header hdelta hlength, Nat.shiftRight_eq_div_pow]
  simp
  omega

theorem header_length {delta length : ℕ} (hdelta : delta < 16) (hlength : length < 16) :
    (UInt8.ofNat (delta <<< 4 ||| length) &&& 0x0f).toNat = length := by
  have hand : (16 * delta + length) &&& 15 = (16 * delta + length) % 16 :=
    Nat.and_two_pow_sub_one_eq_mod _ 4
  rw [UInt8.toNat_and, toNat_header hdelta hlength]
  simp [hand]
  omega

theorem optionHeader_of_holds {reader : Reader} {delta : ℕ} {value : List UInt8}
    (hdelta : delta < 16) (hlength : value.length < 271)
    (hholds : Holds reader.buffer reader.currentOpt (setOptHeader delta value.length)) :
    optionHeader reader = ((reader.currentDelta + delta) % 256, value.length,
      reader.currentOpt + (setOptHeader delta value.length).length) := by
  by_cases hshort : value.length < 15
  · rw [setOptHeader_short hshort] at hholds ⊢
    have hhead := (holds_cons.1 hholds).1
    have hsmall : (UInt8.ofNat (delta <<< 4 ||| value.length) &&& 0x0f) < 15 := by
      rw [UInt8.lt_iff_toNat_lt, header_length hdelta (by omega)]
      exact hshort
    simp only [optionHeader, hhead, if_pos hsmall, header_delta hdelta (show value.length < 16 by omega),
      header_length hdelta (show value.length < 16 by omega), List.length_singleton]
  · have hlong : setOptHeader delta value.length =
        [UInt8.ofNat (delta <<< 4 ||| 15), UInt8.ofNat (value.length - 15)] := by
      simp [setOptHeader, hshort]
    rw [hlong] at hholds ⊢
    obtain ⟨hhead, hrest⟩ := holds_cons.1 hholds
    have hext := (holds_cons.1 hrest).1
    have hfull : ¬ (UInt8.ofNat (delta <<< 4 ||| 15) &&& 0x0f) < 15 := by
      rw [UInt8.lt_iff_toNat_lt, header_length hdelta (by omega)]
      simp
    have hlen : (UInt8.ofNat (value.length - 15)).toNat + 15 = value.length := by
      rw [UInt8.toNat_ofNat']
      omega
    simp only [optionHeader, hhead, hext, if_neg hfull, header_delta hdelta (show 15 < 16 by omega),
      hlen, List.length_cons, List.length_nil]

/-- Options that the decoder reads as they were written: their numbers ascend by
less than 16, and no segment has the length that the two sides take differently. -/
def Legal : ℕ → List (ℕ × List UInt8) → Prop
  | _, [] => True
  | delta, (number, value) :: rest =>
      delta ≤ number ∧ number ≤ delta + 15 ∧ (CoapOption.ofNumber number).isSome ∧
        value.length < 271 ∧ (number = CoapOption.uriPath.number → value.length ≠ 15) ∧
        Legal number rest

theorem number_lt_of_known {number : ℕ} (hknown : (CoapOption.ofNumber number).isSome) :
    number < 22 := by
  by_contra hge
  have hnone : CoapOption.ofNumber number = none := by
    unfold CoapOption.ofNumber
    split <;> first | omega | rfl
  simp [hnone] at hknown

theorem headerOf_eq {number delta length : ℕ}
    (hlength : number = CoapOption.uriPath.number → length ≠ 15) :
    headerOf number delta length = setOptHeader delta length := by
  by_cases hpath : number = CoapOption.uriPath.number
  · have hne := hlength hpath
    simp only [headerOf, if_pos hpath, segmentHeader, setOptHeader]
    split_ifs <;> first | omega | rfl
  · simp [headerOf, hpath]

/-- What the decoder leaves after the options `opts`. -/
structure AbsorbedAll (reader : Reader) (opts : List (ℕ × List UInt8)) (last : Reader) : Prop where
  view : last.view = opts.foldl absorb reader.view
  opt : last.currentOpt = reader.currentOpt + (wire reader.currentDelta opts).length
  delta : last.currentDelta = lastNumber reader.currentDelta opts
  behind : ∀ i, last.currentOpt ≤ i → last.buffer i = reader.buffer i
  below : last.PathBelow

theorem readOptions_wire {opts : List (ℕ × List UInt8)} :
    ∀ {reader : Reader}, reader.PathBelow → Legal reader.currentDelta opts →
      Holds reader.buffer reader.currentOpt (wire reader.currentDelta opts) →
      ∃ last, AbsorbedAll reader opts last ∧
        ∀ count, readOptions (opts.length + count) reader = readOptions count last := by
  induction opts with
  | nil =>
      intro reader hbelow _ _
      exact ⟨reader, ⟨rfl, by simp, rfl, fun _ _ => rfl, hbelow⟩, fun count => by simp⟩
  | cons opt rest ih =>
      intro reader hbelow hlegal hholds
      obtain ⟨number, value⟩ := opt
      obtain ⟨hle, hnear, hknown, hlength, hpath, hrest⟩ := hlegal
      rw [wire, headerOf_eq hpath, holds_append, holds_append] at hholds
      obtain ⟨⟨hheader, hvalue⟩, hmore⟩ := hholds
      have hnumber := number_lt_of_known hknown
      have hfound := optionHeader_of_holds (by omega) hlength hheader
      rw [show (reader.currentDelta + (number - reader.currentDelta)) % 256 = number by omega]
        at hfound
      have hfoundKnown : (CoapOption.ofNumber (optionHeader reader).1).isSome := by
        rw [hfound]
        exact hknown
      obtain ⟨next, hnext⟩ := readOption_ok hfoundKnown
      obtain ⟨hview, hopt, hdelta, hbehind, hnextBelow⟩ := readOption_spec hbelow hnext
      simp only [hfound] at hview hopt hdelta
      rw [hvalue.read_eq rfl] at hview
      have hnextOpt : next.currentOpt = reader.currentOpt +
          (setOptHeader (number - reader.currentDelta) value.length ++ value).length := by
        rw [hopt, List.length_append, Nat.add_assoc]
      have hnextHolds : Holds next.buffer next.currentOpt (wire next.currentDelta rest) := by
        rw [hnextOpt, hdelta]
        apply hmore.congr
        intro i hi _
        exact hbehind i (by omega)
      have hnextLegal : Legal next.currentDelta rest := by
        rw [hdelta]
        exact hrest
      obtain ⟨last, hlast, hloop⟩ := ih hnextBelow hnextLegal hnextHolds
      refine ⟨last, ?_, ?_⟩
      · constructor
        · rw [hlast.view, hview]
          rfl
        · rw [hlast.opt, hnextOpt, hdelta, wire, headerOf_eq hpath]
          simp only [List.length_append]
          omega
        · rw [hlast.delta, hdelta]
          rfl
        · intro i hi
          have hge : next.currentOpt ≤ last.currentOpt := by
            rw [hlast.opt]
            omega
          rw [hlast.behind i hi, hbehind i (by omega)]
        · exact hlast.below
      · intro count
        rw [List.length_cons, Nat.add_right_comm, readOptions, hnext]
        exact hloop count

/-! ### The options of a packet -/

theorem mem_optionIf {packet : CoapPacket} {option : CoapOption} {values : List (List UInt8)}
    {opt : ℕ × List UInt8} :
    opt ∈ packet.optionIf option values ↔
      packet.isOption option ∧ opt.1 = option.number ∧ opt.2 ∈ values := by
  obtain ⟨number, value⟩ := opt
  by_cases hset : packet.isOption option = true
  · rw [optionIf, if_pos hset, List.mem_map]
    constructor
    · rintro ⟨text, htext, heq⟩
      cases heq
      exact ⟨hset, rfl, htext⟩
    · rintro ⟨_, rfl, hvalue⟩
      exact ⟨value, hvalue, rfl⟩
  · simp [optionIf, hset]

/-- Ascending numbers up to a bound. -/
def Ascending (bound : ℕ) (opts : List (ℕ × List UInt8)) : Prop :=
  opts.Pairwise (fun a b => a.1 ≤ b.1) ∧ ∀ opt ∈ opts, opt.1 ≤ bound

theorem Ascending.optionIf {bound : ℕ} {opts : List (ℕ × List UInt8)} (hopts : Ascending bound opts)
    (packet : CoapPacket) (option : CoapOption) (values : List (List UInt8))
    (hbound : bound ≤ option.number) :
    Ascending option.number (opts ++ packet.optionIf option values) := by
  have hnew : ∀ opt ∈ packet.optionIf option values, opt.1 = option.number :=
    fun opt hopt => (mem_optionIf.1 hopt).2.1
  constructor
  · rw [List.pairwise_append]
    refine ⟨hopts.1, ?_, ?_⟩
    · apply List.pairwise_iff_getElem.2
      intro i j hi hj _
      rw [hnew _ (List.getElem_mem hi), hnew _ (List.getElem_mem hj)]
    · intro a ha b hb
      rw [hnew b hb]
      exact (hopts.2 a ha).trans hbound
  · intro opt hopt
    rcases List.mem_append.1 hopt with hold | hadded
    · exact (hopts.2 opt hold).trans hbound
    · rw [hnew opt hadded]

theorem plainOptions_ascending (packet : CoapPacket) :
    Ascending CoapOption.block2.number packet.plainOptions := by
  have hempty : Ascending 0 [] := ⟨List.Pairwise.nil, by simp⟩
  have h1 := hempty.optionIf packet .contentType [intBytes packet.contentType.toUInt32] (by decide)
  have h2 := h1.optionIf packet .maxAge [intBytes packet.maxAge] (by decide)
  have h3 := h2.optionIf packet .uriHost [intBytes packet.uriHost.toUInt32] (by decide)
  have h4 := h3.optionIf packet .uriPort [intBytes packet.uriPort.toUInt32] (by decide)
  have h5 := h4.optionIf packet .uriPath packet.segments (by decide)
  have h6 := h5.optionIf packet .observe [intBytes packet.observe.toUInt32] (by decide)
  have h7 := h6.optionIf packet .token [packet.token] (by decide)
  have h8 := h7.optionIf packet .accept [intBytes packet.accept.toUInt32] (by decide)
  exact h8.optionIf packet .block2 [intBytes packet.blockValue] (by decide)

theorem legal_fenced {opts : List (ℕ × List UInt8)}
    (hsorted : opts.Pairwise (fun a b => a.1 ≤ b.1))
    (hopts : ∀ opt ∈ opts, (CoapOption.ofNumber opt.1).isSome ∧ opt.2.length < 271 ∧
      (opt.1 = CoapOption.uriPath.number → opt.2.length ≠ 15)) :
    ∀ {delta : ℕ}, (∀ opt ∈ opts, delta ≤ opt.1) → Legal delta (fenced delta opts) := by
  induction opts with
  | nil => intro delta _; trivial
  | cons opt rest ih =>
      intro delta hdelta
      obtain ⟨number, value⟩ := opt
      obtain ⟨hknown, hlength, hpath⟩ := hopts (number, value) List.mem_cons_self
      obtain ⟨hfirst, hrest⟩ := List.pairwise_cons.1 hsorted
      have hle : delta ≤ number := hdelta (number, value) List.mem_cons_self
      have hnumber := number_lt_of_known hknown
      have hlegal := ih hrest (fun opt hopt => hopts opt (List.mem_cons_of_mem _ hopt)) hfirst
      by_cases hfar : number - delta > 15
      · rw [fenced, if_pos hfar]
        refine ⟨by omega, by omega, by decide, by decide, by decide, ?_⟩
        exact ⟨by omega, by omega, hknown, hlength, hpath, hlegal⟩
      · rw [fenced, if_neg hfar]
        exact ⟨hle, by omega, hknown, hlength, hpath, hlegal⟩

/-! ## Fields after absorbing -/

/-- A field that only the options of one number change, after absorbing a list. -/
theorem foldl_absorb_field {β : Type*} {field : CoapPacket → β} {number : ℕ}
    {change : β → List UInt8 → β}
    (hsame : ∀ packet value, field (absorb packet (number, value)) = change (field packet) value)
    (hother : ∀ packet opt, opt.1 ≠ number → field (absorb packet opt) = field packet)
    (opts : List (ℕ × List UInt8)) (packet : CoapPacket) :
    field (opts.foldl absorb packet) =
      ((opts.filter fun opt => opt.1 = number).map Prod.snd).foldl change (field packet) := by
  induction opts generalizing packet with
  | nil => rfl
  | cons opt rest ih =>
      obtain ⟨other, value⟩ := opt
      rw [List.foldl_cons, ih]
      by_cases hnumber : other = number
      · subst hnumber
        simp [hsame]
      · rw [hother packet (other, value) hnumber]
        simp [hnumber]

theorem filter_fenced {number : ℕ} (hnumber : number ≠ 14) {opts : List (ℕ × List UInt8)} :
    ∀ {delta : ℕ}, (fenced delta opts).filter (fun opt => opt.1 = number) =
      opts.filter fun opt => opt.1 = number := by
  induction opts with
  | nil => intro delta; rfl
  | cons opt rest ih =>
      intro delta
      obtain ⟨other, value⟩ := opt
      by_cases hfar : other - delta > 15
      · rw [fenced, if_pos hfar]
        simp [List.filter_cons, ih, Ne.symm hnumber]
      · rw [fenced, if_neg hfar]
        simp [List.filter_cons, ih]

theorem number_injective {option other : CoapOption} (heq : option.number = other.number) :
    option = other := by
  have hsome : some option = some other := by
    rw [← CoapOption.ofNumber_number option, heq, CoapOption.ofNumber_number]
  exact Option.some.inj hsome

theorem number_of_ofNumber {number : ℕ} {option : CoapOption}
    (hoption : CoapOption.ofNumber number = some option) : option.number = number := by
  unfold CoapOption.ofNumber at hoption
  split at hoption <;> cases hoption <;> rfl

theorem filter_optionIf {packet : CoapPacket} {option other : CoapOption}
    {values : List (List UInt8)} :
    ((packet.optionIf option values).filter fun opt => opt.1 = other.number).map Prod.snd =
      if option = other ∧ packet.isOption option then values else [] := by
  by_cases hset : packet.isOption option = true
  · by_cases hsame : option = other
    · subst hsame
      simp [optionIf, hset, List.filter_map, Function.comp_def]
    · have hne : ¬ option.number = other.number := fun heq => hsame (number_injective heq)
      simp [optionIf, hset, hsame, hne, List.filter_map, Function.comp_def]
  · simp [optionIf, hset]

/-- A field that one option sets, after absorbing options with their fence posts. -/
theorem field_of_fenced {β : Type*} (field : CoapPacket → β) (change : β → List UInt8 → β)
    (option : CoapOption) (hfence : option ≠ .maxOfe)
    (hsame : ∀ value packet, field (store option value packet) = change (field packet) value)
    (hother : ∀ other value packet, other ≠ option → field (store other value packet) = field packet)
    (opts : List (ℕ × List UInt8)) (delta : ℕ) (start : CoapPacket) :
    field ((fenced delta opts).foldl absorb start) =
      ((opts.filter fun opt => opt.1 = option.number).map Prod.snd).foldl change (field start) := by
  have hnumber : option.number ≠ 14 := fun heq => hfence (number_injective heq)
  have hkeep : ∀ packet opt, opt.1 ≠ option.number → field (absorb packet opt) = field packet := by
    intro packet opt hne
    unfold absorb
    split_ifs
    · rfl
    · cases hoption : CoapOption.ofNumber opt.1 with
      | none => rfl
      | some other =>
          apply hother
          rintro rfl
          exact hne (number_of_ofNumber hoption).symm
  have hset : ∀ packet value,
      field (absorb packet (option.number, value)) = change (field packet) value := by
    intro packet value
    simp only [absorb, hnumber, false_and, if_false, CoapOption.ofNumber_number]
    exact hsame value packet
  rw [foldl_absorb_field hset hkeep, filter_fenced hnumber]

theorem store_options (option : CoapOption) (value : List UInt8) (packet : CoapPacket) :
    (store option value packet).options = packet.options ||| 1 <<< option.number := by
  cases option <;> rfl

theorem isOption_store (option other : CoapOption) (value : List UInt8) (packet : CoapPacket) :
    (store other value packet).isOption option = (packet.isOption option || other = option) := by
  have hbit : (1 <<< other.number).testBit option.number = decide (other = option) := by
    rw [Nat.one_shiftLeft, Nat.testBit_two_pow]
    apply decide_eq_decide.2
    exact ⟨number_injective, fun heq => by rw [heq]⟩
  rw [isOption, store_options, Nat.testBit_or, hbit]
  rfl

theorem field_foldl_absorb {β : Type*} (field : CoapPacket → β) (opts : List (ℕ × List UInt8))
    (hkeep : ∀ opt ∈ opts, ∀ packet, field (absorb packet opt) = field packet)
    (packet : CoapPacket) : field (opts.foldl absorb packet) = field packet := by
  induction opts generalizing packet with
  | nil => rfl
  | cons opt rest ih =>
      rw [List.foldl_cons, ih fun opt hopt => hkeep opt (List.mem_cons_of_mem _ hopt),
        hkeep opt List.mem_cons_self]

theorem absorb_keeps {β : Type*} (field : CoapPacket → β)
    (hstore : ∀ option value start, field (store option value start) = field start)
    (opt : ℕ × List UInt8) (start : CoapPacket) : field (absorb start opt) = field start := by
  unfold absorb
  split_ifs
  · rfl
  · cases CoapOption.ofNumber opt.1 with
    | none => rfl
    | some option => exact hstore option opt.2 start

end CoapPacket

end Wiselib.Coap
