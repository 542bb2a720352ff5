import Wiselib.Coap.CoapPacketOptions

/-!
# Atomicity of option updates in static CoAP packets

A call of `add_option` or `set_option` that returns an error should leave the
bytes of the packet as they were before the call.

## Strategy

* The bytes depend on the options and the data only, not on the option table
  (`serialized`).  An error that `add_option` finds before it writes changes the
  table at most (`addOption_of_not_admits`).
* The marker behind the options is the only thing that can fail after the option
  was written.  The number in the header is 15 then and was less before
  (`addOption_of_not_room`).
* `set_option` removes the option before it looks at the new value, and a removal
  shows in the bytes (`serialized_removeOption_ne`).
-/

namespace Wiselib.StaticCoap

/-! ## The bytes of a packet -/

/-- The bytes from an address on. -/
def bytesFrom (memory : Memory) (address : ℤ) (count : ℕ) : List UInt8 :=
  (List.range count).map fun k : ℕ => memory (address + k)

/-- The number of options in the header. -/
def PacketObject.headerCount (packet : PacketObject) : UInt8 :=
  if coapUnlimitedOptions ≤ packet.optionCount then UInt8.ofNat coapUnlimitedOptions
  else UInt8.ofNat packet.optionCount &&& 0x0f

/-- The first byte of the header. -/
def PacketObject.firstByte (packet : PacketObject) : UInt8 :=
  ((packet.version &&& 0x03) <<< 6) ||| ((packet.type &&& 0x03) <<< 4) ||| packet.headerCount

/-- What `serialize` writes where it reads inside the storage. -/
def PacketObject.serialized (memory : Memory) (packet : PacketObject) : List UInt8 :=
  [packet.firstByte, packet.code, UInt8.ofNat (packet.msgId.toNat / 256),
      UInt8.ofNat packet.msgId.toNat] ++
    bytesFrom memory packet.storage (packet.endOfOptions - packet.storage).toNat ++
      bytesFrom memory packet.payload packet.dataLength

/-- A call that fails leaves the bytes of the packet as they are. -/
def Atomic (memory : Memory) (packet : PacketObject)
    (call : Option (OptionStatus × Memory × PacketObject)) : Prop :=
  ∀ status memory' packet', call = some (status, memory', packet') → status ≠ .success →
    packet'.serialized memory' = packet.serialized memory

theorem bytesFrom_succ (memory : Memory) (address : ℤ) (count : ℕ) :
    bytesFrom memory address (count + 1) = memory address :: bytesFrom memory (address + 1) count := by
  simp only [bytesFrom, List.range_succ_eq_map, List.map_cons, List.map_map, Nat.cast_zero,
    add_zero, List.cons.injEq, true_and]
  apply List.map_congr_left
  intro k _
  simp only [Function.comp_apply, Nat.succ_eq_add_one, Nat.cast_add, Nat.cast_one]
  ring_nf

theorem readBytes_eq {size : ℕ} {memory : Memory} {packet : PacketObject} {address : ℤ}
    {count : ℕ} {bytes : List UInt8}
    (hread : readBytes (packet.read size memory) address count = some bytes) :
    bytes = bytesFrom memory address count := by
  induction count generalizing address bytes with
  | zero => simpa [readBytes, bytesFrom, eq_comm] using hread
  | succ count ih =>
      simp only [readBytes, PacketObject.read, Option.bind_eq_bind, Option.bind_eq_some_iff,
        Option.pure_def, Option.some.injEq] at hread
      obtain ⟨byte, hbyte, rest, hrest, rfl⟩ := hread
      have hvalue : memory address = byte := by
        split at hbyte
        · exact Option.some.inj hbyte
        · cases hbyte
      rw [bytesFrom_succ, hvalue, ← ih hrest]

theorem serialize_eq {size : ℕ} {memory : Memory} {packet : PacketObject} {bytes : List UInt8}
    (hserialize : serialize size memory packet = some bytes) :
    bytes = packet.serialized memory := by
  simp only [serialize, readBetween, Option.bind_eq_bind, Option.bind_eq_some_iff,
    Option.pure_def, Option.some.injEq] at hserialize
  obtain ⟨options, hoptions, data, hdata, rfl⟩ := hserialize
  split at hoptions
  · rw [readBytes_eq hoptions, readBytes_eq hdata]
    rfl
  · cases hoptions

theorem length_serialized (memory : Memory) (packet : PacketObject) :
    (packet.serialized memory).length =
      4 + (packet.endOfOptions - packet.storage).toNat + packet.dataLength := by
  simp [PacketObject.serialized, bytesFrom]
  omega

theorem firstByte_and (packet : PacketObject) :
    packet.firstByte &&& (0x0f : UInt8) = packet.headerCount &&& 0x0f := by
  apply UInt8.toBitVec_inj.1
  ext i hi
  interval_cases i <;> simp [PacketObject.firstByte]

theorem headerCount_and {packet : PacketObject} :
    (packet.headerCount &&& (0x0f : UInt8)).toNat = min packet.optionCount coapUnlimitedOptions := by
  have hlow (c : UInt8) : (c &&& (0x0f : UInt8)).toNat = c.toNat % 16 := by
    rw [UInt8.toNat_and]
    exact Nat.and_two_pow_sub_one_eq_mod c.toNat 4
  by_cases hmany : coapUnlimitedOptions ≤ packet.optionCount
  · rw [PacketObject.headerCount, if_pos hmany, min_eq_right hmany]
    rfl
  · have hfew : packet.optionCount < coapUnlimitedOptions := not_le.mp hmany
    rw [PacketObject.headerCount, if_neg hmany, hlow, hlow, UInt8.toNat_ofNat', min_eq_left hfew.le]
    have hnibble : coapUnlimitedOptions = 15 := rfl
    omega

/-- The header shows when a packet gets its fifteenth option. -/
theorem serialized_ne_of_optionCount {memory memory' : Memory} {packet later : PacketObject}
    (hfew : packet.optionCount < coapUnlimitedOptions)
    (hmany : coapUnlimitedOptions ≤ later.optionCount) :
    later.serialized memory' ≠ packet.serialized memory := by
  intro hsame
  have hfirst : later.firstByte = packet.firstByte := by
    simpa [PacketObject.serialized] using congrArg List.head? hsame
  have hcount := congrArg (fun byte : UInt8 => (byte &&& (0x0f : UInt8)).toNat) hfirst
  simp only [firstByte_and, headerCount_and] at hcount
  omega

/-! ## What a change of the options keeps -/

/-- The second packet differs from the first in its options only. -/
def OnlyOptions (packet later : PacketObject) : Prop :=
  ∃ options endOfOptions optionCount, later =
    { packet with
      options := options
      endOfOptions := endOfOptions
      optionCount := optionCount }

namespace OnlyOptions

variable {packet later last : PacketObject}

theorem refl (packet : PacketObject) : OnlyOptions packet packet := ⟨_, _, _, rfl⟩

theorem trans (hfirst : OnlyOptions packet later) (hsecond : OnlyOptions later last) :
    OnlyOptions packet last := by
  obtain ⟨_, _, _, rfl⟩ := hfirst
  obtain ⟨options, endOfOptions, optionCount, rfl⟩ := hsecond
  exact ⟨options, endOfOptions, optionCount, rfl⟩

theorem storage (honly : OnlyOptions packet later) : later.storage = packet.storage := by
  obtain ⟨_, _, _, rfl⟩ := honly
  rfl

theorem payload (honly : OnlyOptions packet later) : later.payload = packet.payload := by
  obtain ⟨_, _, _, rfl⟩ := honly
  rfl

/-- The bytes show when the options get shorter or longer. -/
theorem serialized_ne_of_endOfOptions (honly : OnlyOptions packet later) {memory memory' : Memory}
    (hsome : packet.storage < packet.endOfOptions)
    (hend : later.endOfOptions ≠ packet.endOfOptions) :
    later.serialized memory' ≠ packet.serialized memory := by
  intro hsame
  have hlength := congrArg List.length hsame
  have hdata : later.dataLength = packet.dataLength := by
    obtain ⟨_, _, _, rfl⟩ := honly
    rfl
  rw [length_serialized, length_serialized, honly.storage, hdata] at hlength
  omega

end OnlyOptions

/-- The bytes show when one of the option bytes changes. -/
theorem serialized_ne_of_byte {memory memory' : Memory} {packet later : PacketObject}
    (hstorage : later.storage = packet.storage) (hend : later.endOfOptions = packet.endOfOptions)
    {position : ℤ} (hstart : packet.storage ≤ position) (hstop : position < packet.endOfOptions)
    (hbyte : memory' position ≠ memory position) :
    later.serialized memory' ≠ packet.serialized memory := by
  intro hsame
  have hget := congrArg (fun bytes : List UInt8 => bytes[4 + (position - packet.storage).toNat]?) hsame
  have hinside : (position - packet.storage).toNat <
      (packet.endOfOptions - packet.storage).toNat := by omega
  have hplace : packet.storage + ((position - packet.storage).toNat : ℤ) = position := by omega
  have hindex : 4 + (position - packet.storage).toNat =
      (position - packet.storage).toNat + 1 + 1 + 1 + 1 := by omega
  simp only [PacketObject.serialized, hstorage, hend, hindex, List.cons_append, List.nil_append,
    List.getElem?_cons_succ, bytesFrom] at hget
  rw [List.getElem?_append_left (by simpa using hinside),
    List.getElem?_append_left (by simpa using hinside)] at hget
  simp only [List.getElem?_map, List.getElem?_range hinside, Option.map_some, hplace,
    Option.some.injEq] at hget
  exact hbyte hget

theorem scanOptsLoop_eq (memory : Memory) (rounds : ℕ) (packet : PacketObject) (start : ℤ)
    (prev : ℕ) :
    ∃ options, scanOptsLoop memory rounds packet start prev = { packet with options := options } := by
  induction rounds generalizing packet start prev with
  | zero => exact ⟨_, rfl⟩
  | succ rounds ih =>
      rw [scanOptsLoop]
      split
      · split
        · exact ⟨_, rfl⟩
        · dsimp only
          split
          · exact ih packet _ prev
          · split
            · exact ⟨_, rfl⟩
            · obtain ⟨options, hoptions⟩ := ih
                { packet with
                  options := point packet.options (prev + deltaAt memory start) (some start) }
                (start + optionLength (memory start) (memory (start + 1)))
                (prev + deltaAt memory start)
              exact ⟨options, hoptions⟩
      · exact ⟨_, rfl⟩

theorem scanOpts_eq (memory : Memory) (packet : PacketObject) (start : ℤ) (prev : ℕ) :
    ∃ options, scanOpts memory packet start prev = { packet with options := options } :=
  scanOptsLoop_eq memory _ packet start prev

/-! ## The marker behind the options -/

/-- The options of a list that follow the previous one at a distance of 16. -/
def gapsOfSixteen (options : OptionNumber → Option ℤ) : List OptionNumber → (prev : ℕ) → ℕ
  | [], _ => 0
  | i :: rest, prev =>
      match options i with
      | none => gapsOfSixteen options rest prev
      | some _ =>
          (if i.val = prev + coapMaxDeltaDefault then 1 else 0) + gapsOfSixteen options rest i

/-- The bytes that the fenceposts and the marker behind the options take. -/
def PacketObject.markerLength (packet : PacketObject) : ℕ :=
  gapsOfSixteen packet.options (List.finRange coapOptionArraySize) 0 + 1

theorem gapsOfSixteen_congr {options options' : OptionNumber → Option ℤ} {is : List OptionNumber}
    (hsame : ∀ i ∈ is, options' i = options i) (prev : ℕ) :
    gapsOfSixteen options' is prev = gapsOfSixteen options is prev := by
  induction is generalizing prev with
  | nil => rfl
  | cons i rest ih =>
      have hrest := ih fun j hj => hsame j (List.mem_cons_of_mem i hj)
      simp only [gapsOfSixteen, hsame i List.mem_cons_self, hrest]

/-- The fenceposts are put in where they fit, and take one byte each. -/
theorem splitGaps_spec {is : List OptionNumber} (hsorted : is.Pairwise (· < ·)) (prev : ℕ)
    (memory : Memory) (packet : PacketObject) (hroom : packet.endOfOptions ≤ packet.payload) :
    OnlyOptions packet (splitGaps is prev memory packet).2.2 ∧
    packet.optionCount ≤ (splitGaps is prev memory packet).2.2.optionCount ∧
    ((splitGaps is prev memory packet).1 = .success →
      (splitGaps is prev memory packet).2.2.endOfOptions =
        packet.endOfOptions + gapsOfSixteen packet.options is prev) ∧
    ((splitGaps is prev memory packet).1 ≠ .success →
      (splitGaps is prev memory packet).2.2.endOfOptions = packet.payload) ∧
    ((splitGaps is prev memory packet).1 = .success ↔
      packet.endOfOptions + gapsOfSixteen packet.options is prev ≤ packet.payload) := by
  induction is generalizing prev memory packet with
  | nil => simpa [splitGaps, gapsOfSixteen, OnlyOptions.refl] using hroom
  | cons i rest ih =>
      have hrest := (List.pairwise_cons.mp hsorted).2
      cases hoption : packet.options i with
      | none =>
          simpa only [splitGaps, gapsOfSixteen, hoption] using ih hrest prev memory packet hroom
      | some start =>
          by_cases hgap : i.val = prev + coapMaxDeltaDefault
          · by_cases hfull : packet.payload < packet.endOfOptions + 1
            · simp only [splitGaps, gapsOfSixteen, hoption, if_pos hgap, if_pos hfull, reduceCtorEq,
                false_implies, true_and, false_iff, le_refl, ne_eq, not_false_eq_true,
                forall_const]
              exact ⟨.refl packet, by omega, by push_cast; omega⟩
            · -- the options behind keep their place in the table
              let split : PacketObject :=
                { packet with
                  options := point (point packet.options i (some (start + 1)))
                    (prev + nextFencepostDelta prev) (some start)
                  endOfOptions := packet.endOfOptions + 1
                  optionCount := packet.optionCount + 1 }
              have hsame : ∀ j ∈ rest, split.options j = packet.options j := by
                intro j hj
                have hless : i.val < j.val := (List.pairwise_cons.mp hsorted).1 j hj
                have hlast : j.val < 24 := j.isLt
                have hdefault : coapMaxDeltaDefault = 16 := rfl
                have hpost : j.val ≠ prev + nextFencepostDelta prev := by
                  simp only [nextFencepostDelta]
                  omega
                simp only [split, point, if_neg hpost, if_neg hless.ne']
              have hsplit := ih hrest i.val
                (setDelta (Function.update
                  (memmove memory (start + 1) start (packet.endOfOptions - start).toNat) start
                  (upperHalf (nextFencepostDelta prev))) (start + 1)
                  (i.val - (prev + nextFencepostDelta prev : ℕ))) split
                (by simp only [split]; omega)
              rw [gapsOfSixteen_congr hsame] at hsplit
              simp only [splitGaps, gapsOfSixteen, hoption, if_pos hgap, if_neg hfull]
              obtain ⟨honly, hcount, hend, hfailed, hsuccess⟩ := hsplit
              refine ⟨.trans ⟨_, _, _, rfl⟩ honly, by simp only [split] at hcount; omega, ?_,
                hfailed, ?_⟩
              · intro hstatus
                rw [hend hstatus]
                push_cast
                simp only [split]
                ring
              · rw [hsuccess]
                push_cast
                simp only [split]
                rw [add_assoc]
          · simpa only [splitGaps, gapsOfSixteen, hoption, if_neg hgap, zero_add] using
              ih hrest i.val memory packet hroom

/-- The marker fails exactly when it does not fit together with the fenceposts it needs. -/
theorem addEndOfOptsMarker_spec (memory : Memory) (packet : PacketObject)
    (hroom : packet.endOfOptions ≤ packet.payload) :
    OnlyOptions packet (addEndOfOptsMarker memory packet).2.2 ∧
    packet.optionCount ≤ (addEndOfOptsMarker memory packet).2.2.optionCount ∧
    ((addEndOfOptsMarker memory packet).1 ≠ .success →
      (addEndOfOptsMarker memory packet).2.2.endOfOptions = packet.payload) ∧
    ((addEndOfOptsMarker memory packet).1 = .success ↔
      packet.endOfOptions + packet.markerLength ≤ packet.payload) := by
  have hspec := splitGaps_spec (List.pairwise_lt_finRange coapOptionArraySize) 0 memory packet hroom
  simp only [addEndOfOptsMarker, PacketObject.markerLength]
  generalize splitGaps (List.finRange coapOptionArraySize) 0 memory packet = split at hspec ⊢
  obtain ⟨status, memory', split⟩ := split
  obtain ⟨honly, hcount, hend, hfailed, hsuccess⟩ := hspec
  dsimp only at honly hcount hend hfailed hsuccess
  by_cases hstatus : status = .success
  · subst hstatus
    have hplace := hend rfl
    have hpayload := honly.payload
    by_cases hfull : split.payload < split.endOfOptions + 1
    · have hfits := hsuccess.mp rfl
      simp only [if_pos hfull, reduceCtorEq, false_iff, ne_eq, not_false_eq_true, forall_const]
      exact ⟨honly, hcount, by omega, by push_cast; omega⟩
    · obtain ⟨options, hoptions⟩ := scanOpts_eq
        (Function.update memory' split.endOfOptions coapEndOfOptionsMarker)
        { split with endOfOptions := split.endOfOptions + 1 } split.storage 0
      simp only [if_neg hfull, hoptions, true_iff, ne_eq, not_true_eq_false, false_implies,
        true_and]
      exact ⟨honly.trans ⟨_, _, _, rfl⟩, hcount, by push_cast; omega⟩
  · have hmore : ¬ packet.endOfOptions +
        gapsOfSixteen packet.options (List.finRange coapOptionArraySize) 0 ≤ packet.payload := by
      rw [← hsuccess]
      exact hstatus
    cases status with
    | success => exact absurd rfl hstatus
    | errUnknownOpt | errWrongType | errNomem | errMultipleOccurencesOfOption =>
        simp only [reduceCtorEq, false_iff, ne_eq, not_false_eq_true, forall_const] at hfailed ⊢
        exact ⟨honly, hcount, hfailed, by push_cast; omega⟩

/-! ## `add_option` -/

/-- `add_option` finds no error before it writes: the value has the type of the option, the
option is not set already or can occur again, and its bytes fit before the data. -/
def Admits (memory : Memory) (packet : PacketObject) (num : OptionNumber) (value : OptionValue) :
    Prop :=
  match encode num value with
  | .failed _ => False
  | .nothing => True
  | .bytes serial numOfOpts =>
      ¬ ((packet.options num).isSome ∧ coapOptCanOccurMultiple.getD num false = false) ∧
      ∀ place ∈ findPlace memory packet num (maxDelta packet numOfOpts),
        packet.endOfOptions +
          bytesNeeded place num (maxDelta packet numOfOpts) serial.length numOfOpts <
            packet.payload

/-- Where the packet gets its fifteenth option, the marker and the fenceposts it needs fit
before the data too. -/
def MarkerHasRoom (memory : Memory) (packet : PacketObject) (num : OptionNumber)
    (value : OptionValue) : Prop :=
  Admits memory packet num value → ∀ serial numOfOpts, encode num value = .bytes serial numOfOpts →
    ∀ place ∈ findPlace memory packet num (maxDelta packet numOfOpts),
      let inserted := (insertAt memory packet place num serial numOfOpts).2
      crossesUnlimited inserted.optionCount numOfOpts →
        inserted.endOfOptions + inserted.markerLength ≤ inserted.payload

theorem insertAt_spec (memory : Memory) (packet : PacketObject) (place : Place)
    (num : OptionNumber) (serial : List UInt8) (numOfOpts : ℕ) :
    OnlyOptions packet (insertAt memory packet place num serial numOfOpts).2 ∧
    (insertAt memory packet place num serial numOfOpts).2.endOfOptions = packet.endOfOptions +
      bytesNeeded place num (maxDelta packet numOfOpts) serial.length numOfOpts ∧
    ∃ before ≥ packet.optionCount,
      (insertAt memory packet place num serial numOfOpts).2.optionCount =
        before + if numOfOpts = singleOptionNoHeader then 1 else numOfOpts := by
  simp only [insertAt]
  generalize hscanned : scanOpts _ _ _ _ = scanned
  obtain ⟨options, hoptions⟩ := scanOpts_eq _ _ _ _
  rw [hoptions] at hscanned
  subst hscanned
  refine ⟨⟨_, _, _, rfl⟩, rfl, _, ?_, rfl⟩
  split <;> omega

theorem lt_of_crossesUnlimited {before optionCount numOfOpts : ℕ}
    (hcount : optionCount = before + if numOfOpts = singleOptionNoHeader then 1 else numOfOpts)
    (hcrosses : crossesUnlimited optionCount numOfOpts) : before < coapUnlimitedOptions := by
  simp only [crossesUnlimited] at hcrosses
  by_cases hsingle : numOfOpts = singleOptionNoHeader
  · rw [if_pos hsingle] at hcount
    have hzero : numOfOpts = 0 := hsingle
    omega
  · rw [if_neg hsingle] at hcount
    have hpositive : numOfOpts ≠ 0 := hsingle
    omega

section AddOption

variable {memory : Memory} {packet : PacketObject} {num : OptionNumber} {value : OptionValue}

theorem addOption_eq (memory : Memory) (packet : PacketObject) (num : OptionNumber)
    (value : OptionValue) :
    addOption memory packet num value =
      match encode num value with
      | .failed status => some (status, memory, packet)
      | .nothing => some (.success, memory, packet)
      | .bytes serial numOfOpts => addSerial memory packet num serial numOfOpts := by
  unfold addOption
  exact dif_pos num.isLt

theorem encode_ne_success {status : OptionStatus} (hfailed : encode num value = .failed status) :
    status ≠ .success := by
  cases value with
  | uint value | opaqueData value =>
      simp only [encode] at hfailed
      split at hfailed
      · cases hfailed
        decide
      · cases hfailed
  | string value =>
      simp only [encode, encodeString, encodeSegments] at hfailed
      repeat' split at hfailed
      all_goals first
        | cases hfailed; decide
        | cases hfailed

theorem addOption_of_not_admits (hrefused : ¬ Admits memory packet num value) :
    ∃ status packet', addOption memory packet num value = some (status, memory, packet') ∧
      status ≠ .success ∧ packet'.serialized memory = packet.serialized memory := by
  rw [addOption_eq]
  simp only [Admits] at hrefused
  cases hencode : encode num value with
  | failed status => exact ⟨status, packet, rfl, encode_ne_success hencode, rfl⟩
  | nothing => simp only [hencode, not_true_eq_false] at hrefused
  | bytes serial numOfOpts =>
      simp only [hencode] at hrefused
      rw [not_and_or, not_not] at hrefused
      simp only [addSerial]
      by_cases hmultiple : (packet.options num).isSome ∧
          coapOptCanOccurMultiple.getD num false = false
      · rw [if_pos hmultiple]
        exact ⟨_, _, rfl, by decide, rfl⟩
      · obtain ⟨place, hplace, hfull⟩ : ∃ place ∈ findPlace memory packet num
            (maxDelta packet numOfOpts), packet.payload ≤ packet.endOfOptions +
              bytesNeeded place num (maxDelta packet numOfOpts) serial.length numOfOpts := by
          simpa only [not_forall, not_lt, exists_prop] using hrefused.resolve_left hmultiple
        rw [if_neg hmultiple, hplace, Option.map_some, if_pos hfull]
        exact ⟨_, _, rfl, by decide, rfl⟩

/-- The rest of `add_option`, where there is no error before something is written. -/
theorem addSerial_of_admits {serial : List UInt8} {numOfOpts : ℕ} {place : Place}
    (hadmits : Admits memory packet num value)
    (hencode : encode num value = .bytes serial numOfOpts)
    (hplace : place ∈ findPlace memory packet num (maxDelta packet numOfOpts)) :
    addOption memory packet num value = some
      (if crossesUnlimited (insertAt memory packet place num serial numOfOpts).2.optionCount
          numOfOpts then
        addEndOfOptsMarker (insertAt memory packet place num serial numOfOpts).1
          (insertAt memory packet place num serial numOfOpts).2
      else (.success, insertAt memory packet place num serial numOfOpts)) := by
  simp only [Admits, hencode] at hadmits
  have hroom := not_le.mpr (hadmits.2 place hplace)
  have hfound : findPlace memory packet num (maxDelta packet numOfOpts) = some place := hplace
  rw [addOption_eq]
  simp only [hencode, addSerial, if_neg hadmits.1, hfound, Option.map_some, if_neg hroom]

theorem insertAt_room {serial : List UInt8} {numOfOpts : ℕ} {place : Place}
    (hadmits : Admits memory packet num value)
    (hencode : encode num value = .bytes serial numOfOpts)
    (hplace : place ∈ findPlace memory packet num (maxDelta packet numOfOpts)) :
    (insertAt memory packet place num serial numOfOpts).2.endOfOptions ≤
      (insertAt memory packet place num serial numOfOpts).2.payload := by
  simp only [Admits, hencode] at hadmits
  obtain ⟨honly, hend, -⟩ := insertAt_spec memory packet place num serial numOfOpts
  rw [hend, honly.payload]
  exact (hadmits.2 place hplace).le

/-- There is no other error than those that are found before something is written, as long as
there is room for the marker. -/
theorem addOption_success {status : OptionStatus} {memory' : Memory} {packet' : PacketObject}
    (hadmits : Admits memory packet num value) (hmarker : MarkerHasRoom memory packet num value)
    (hcall : addOption memory packet num value = some (status, memory', packet')) :
    status = .success := by
  cases hencode : encode num value with
  | failed status => simp only [Admits, hencode] at hadmits
  | nothing =>
      rw [addOption_eq, hencode] at hcall
      exact (congrArg Prod.fst (Option.some.inj hcall)).symm
  | bytes serial numOfOpts =>
      cases hplace : findPlace memory packet num (maxDelta packet numOfOpts) with
      | none =>
          have hmultiple : ¬ ((packet.options num).isSome ∧
              coapOptCanOccurMultiple.getD num false = false) := by
            simp only [Admits, hencode] at hadmits
            exact hadmits.1
          rw [addOption_eq, hencode] at hcall
          simp only [addSerial, if_neg hmultiple, hplace, Option.map_none, reduceCtorEq] at hcall
      | some place =>
          rw [addSerial_of_admits hadmits hencode hplace] at hcall
          have hresult := congrArg Prod.fst (Option.some.inj hcall)
          rw [← show _ = status from hresult]
          split
          · rename_i hcrosses
            rw [(addEndOfOptsMarker_spec _ _ (insertAt_room hadmits hencode hplace)).2.2.2]
            exact hmarker hadmits serial numOfOpts hencode place hplace hcrosses
          · rfl

/-- The marker that does not fit is noticed when the option is in the packet, and the packet is
full then. -/
theorem addOption_of_not_markerHasRoom (hfull : ¬ MarkerHasRoom memory packet num value) :
    ∃ status memory' packet', addOption memory packet num value =
        some (status, memory', packet') ∧ status ≠ .success ∧
      packet.optionCount < coapUnlimitedOptions ∧
      coapUnlimitedOptions ≤ packet'.optionCount ∧
      OnlyOptions packet packet' ∧ packet'.endOfOptions = packet.payload := by
  simp only [MarkerHasRoom, not_forall, exists_prop] at hfull
  obtain ⟨hadmits, serial, numOfOpts, hencode, place, hplace, hcrosses, hroom⟩ := hfull
  obtain ⟨hinserted, -, before, hbefore, hcount⟩ :=
    insertAt_spec memory packet place num serial numOfOpts
  obtain ⟨honly, hmarked, hfailed, hsuccess⟩ := addEndOfOptsMarker_spec
    (insertAt memory packet place num serial numOfOpts).1
    (insertAt memory packet place num serial numOfOpts).2 (insertAt_room hadmits hencode hplace)
  have hless := lt_of_crossesUnlimited hcount hcrosses
  have hstatus := fun hstatus => hroom (hsuccess.mp hstatus)
  have hcall := addSerial_of_admits hadmits hencode hplace
  rw [if_pos hcrosses] at hcall
  exact ⟨_, _, _, hcall, hstatus, hbefore.trans_lt hless, hcrosses.1.trans hmarked,
    hinserted.trans honly, (hfailed hstatus).trans hinserted.payload⟩

/-- `add_option` fails without a trace exactly where the marker is no problem. -/
theorem atomic_addOption_iff :
    Atomic memory packet (addOption memory packet num value) ↔
      MarkerHasRoom memory packet num value := by
  constructor
  · intro hatomic
    by_contra hfull
    obtain ⟨status, memory', packet', hcall, hstatus, hfew, hmany, -⟩ :=
      addOption_of_not_markerHasRoom hfull
    exact serialized_ne_of_optionCount hfew hmany (hatomic _ _ _ hcall hstatus)
  · intro hmarker status memory' packet' hcall hstatus
    by_cases hadmits : Admits memory packet num value
    · exact absurd (addOption_success hadmits hmarker hcall) hstatus
    · obtain ⟨_, _, hrefused, -, hsame⟩ := addOption_of_not_admits hadmits
      rw [hrefused] at hcall
      simp only [Option.some.injEq, Prod.mk.injEq] at hcall
      obtain ⟨-, rfl, rfl⟩ := hcall
      exact hsame

end AddOption

/-! ## `remove_option` -/

/-- The option is set, and the table points between the start and the end of the options. -/
structure Stored (memory : Memory) (packet : PacketObject) (num : OptionNumber) : Prop where
  isSet : (packet.options num).isSome
  inside : ∀ i, ∀ start ∈ packet.options i,
    packet.storage ≤ start ∧ start < packet.endOfOptions
  delta : ∀ start ∈ packet.options num, deltaAt memory start ≤ num

theorem le_segmentsOf (memory : Memory) (start stop : ℤ) (rounds length count : ℕ) :
    length ≤ (segmentsOf memory start stop rounds length count).1 := by
  induction rounds generalizing length count with
  | zero => exact le_rfl
  | succ rounds ih =>
      rw [segmentsOf]
      split_ifs
      · exact le_trans (by omega) (ih _ _)
      · exact Nat.le_add_right _ _
      · exact le_trans (by omega) (ih _ _)
      · exact Nat.le_add_right _ _

theorem segmentsOf_pos (memory : Memory) (start stop : ℤ) (rounds : ℕ) :
    0 < (segmentsOf memory start stop (rounds + 1) 0 0).1 := by
  rw [segmentsOf]
  split_ifs
  · exact Nat.lt_of_lt_of_le (by omega) (le_segmentsOf _ _ _ _ _ _)
  · exact Nat.lt_of_lt_of_le (by omega) le_rfl
  · exact Nat.lt_of_lt_of_le (by omega) (le_segmentsOf _ _ _ _ _ _)
  · exact Nat.lt_of_lt_of_le (by omega) le_rfl

theorem deltaAt_upperHalf {memory : Memory} {position : ℤ} {delta : ℕ} (hdelta : delta < 16)
    (hbyte : memory position = upperHalf delta) : deltaAt memory position = delta := by
  rw [deltaAt, hbyte]
  interval_cases delta <;> rfl

/-- A fencepost that takes the place of an option has another delta, except where the option
is the fencepost itself. -/
theorem upperHalf_ne {memory : Memory} {start : ℤ} {num : OptionNumber}
    (hdelta : deltaAt memory start ≤ num) (hnum : num ≠ coapOptFencepost) :
    upperHalf (nextFencepostDelta ((num.val + 256 - deltaAt memory start) % 256)) ≠
      memory start := by
  intro hsame
  have hnext := deltaAt_upperHalf (by simp only [nextFencepostDelta]; omega) hsame.symm
  have hpost : num.val ≠ 14 := fun hvalue => hnum (Fin.ext hvalue)
  have hlast : num.val < 24 := num.isLt
  have hprev : (num.val + 256 - deltaAt memory start) % 256 = num.val - deltaAt memory start := by
    omega
  rw [hprev, nextFencepostDelta] at hnext
  omega

theorem closeGap_spec {memory : Memory} {packet : PacketObject} {num : OptionNumber}
    {start : ℤ} {length count : ℕ} {removal : Removal} (hstored : Stored memory packet num)
    (hstart : start ∈ packet.options num) (hnum : num ≠ coapOptFencepost) (hlength : 0 < length)
    (hclose : closeGap memory packet num start length count = some removal) :
    0 < removal.length ∨ (removal.length = 0 ∧ removal.memory start ≠ memory start) := by
  rw [closeGap] at hclose
  generalize (if coapUnlimitedOptions ≤ packet.optionCount then coapMaxDeltaUnlimited
    else coapMaxDeltaDefault) = maxDelta at hclose
  split at hclose
  · split at hclose
    · simp only [Option.bind_eq_bind, Option.bind_eq_some_iff, Option.pure_def,
        Option.some.injEq] at hclose
      obtain ⟨fencepost, hfencepost, rfl⟩ := hclose
      left
      rw [lookup] at hfencepost
      split at hfencepost
      · have hinside := hstored.inside _ fencepost hfencepost
        dsimp only
        omega
      · cases hfencepost
    · obtain rfl := Option.some.inj hclose
      left
      dsimp only
      omega
  · obtain rfl := Option.some.inj hclose
    dsimp only
    split_ifs with hfencepost
    · by_cases hone : length = 1
      · right
        subst hone
        refine ⟨by norm_num, ?_⟩
        -- the byte at `start` is not touched after the fencepost is written
        have hbefore : ¬ (start + 1 ≤ start) := by omega
        have hother : start ≠ start + 1 := by omega
        simp only [setDelta, Function.update_of_ne hother, memmove, hbefore, false_and, if_false,
          Function.update_self]
        exact upperHalf_ne (hstored.delta start hstart) hnum
      · left
        omega
    · left
      omega

/-- The marker takes a byte, and so do the fenceposts that are removed with it. -/
theorem removeEndOfOptsMarker_spec {memory memory' : Memory} {packet packet' : PacketObject}
    (hremove : removeEndOfOptsMarker memory packet = some (memory', packet')) :
    OnlyOptions packet packet' ∧ packet'.endOfOptions < packet.endOfOptions := by
  have hscan (between : Memory) (merged : PacketObject) (hmerge : OnlyOptions packet merged)
      (hend : merged.endOfOptions ≤ packet.endOfOptions) :
      OnlyOptions packet
          { scanOpts between merged merged.storage 0 with
            endOfOptions := (scanOpts between merged merged.storage 0).endOfOptions - 1 } ∧
        (scanOpts between merged merged.storage 0).endOfOptions - 1 < packet.endOfOptions := by
    obtain ⟨options, hoptions⟩ := scanOpts_eq between merged merged.storage 0
    rw [hoptions]
    exact ⟨hmerge.trans ⟨_, _, _, rfl⟩, by dsimp only; omega⟩
  rw [removeEndOfOptsMarker] at hremove
  cases hfencepost : packet.options coapOptFencepost with
  | none =>
      simp only [hfencepost, Option.bind_eq_bind, Option.bind_some, Option.pure_def,
        Option.some.injEq, Prod.mk.injEq] at hremove
      obtain ⟨-, rfl⟩ := hremove
      exact hscan memory packet (.refl packet) le_rfl
  | some start =>
      simp only [hfencepost] at hremove
      split_ifs at hremove
      · simp only [Option.bind_eq_bind, Option.bind_some, Option.pure_def, Option.some.injEq,
          Prod.mk.injEq] at hremove
        obtain ⟨-, rfl⟩ := hremove
        exact hscan _ _ ⟨_, _, _, rfl⟩ (by dsimp only; omega)
      · simp only [Option.bind_eq_bind, Option.bind_none, reduceCtorEq] at hremove
      · simp only [Option.bind_eq_bind, Option.bind_some, Option.pure_def, Option.some.injEq,
          Prod.mk.injEq] at hremove
        obtain ⟨-, rfl⟩ := hremove
        exact hscan memory packet (.refl packet) le_rfl

theorem removeOption_spec {memory memory' : Memory} {packet packet' : PacketObject}
    {num : OptionNumber} (hstored : Stored memory packet num) (hnum : num ≠ coapOptFencepost)
    (hremove : removeOption memory packet num = some (memory', packet')) :
    OnlyOptions packet packet' ∧ packet'.serialized memory' ≠ packet.serialized memory := by
  obtain ⟨start, hstart⟩ := Option.isSome_iff_exists.mp hstored.isSet
  have hinside := hstored.inside num start hstart
  simp only [removeOption, hstart, Option.bind_eq_bind, Option.bind_eq_some_iff,
    Option.pure_def] at hremove
  obtain ⟨removal, hclose, hremove⟩ := hremove
  have hshows := closeGap_spec hstored hstart hnum (segmentsOf_pos _ _ _ _) hclose
  generalize hremoved : scanOpts removal.memory _ removal.start removal.prev = removed at hremove
  obtain ⟨options, hoptions⟩ := scanOpts_eq removal.memory _ removal.start removal.prev
  rw [hoptions] at hremoved
  have honly : OnlyOptions packet removed := ⟨_, _, _, hremoved.symm⟩
  have hend : removed.endOfOptions = packet.endOfOptions - removal.length := by rw [← hremoved]
  split at hremove
  · obtain ⟨hmarker, hless⟩ := removeEndOfOptsMarker_spec hremove
    have honly := honly.trans hmarker
    exact ⟨honly, honly.serialized_ne_of_endOfOptions (by omega) (by omega)⟩
  · simp only [Option.some.injEq, Prod.mk.injEq] at hremove
    obtain ⟨rfl, rfl⟩ := hremove
    refine ⟨honly, ?_⟩
    obtain hlength | ⟨hlength, hbyte⟩ := hshows
    · exact honly.serialized_ne_of_endOfOptions (by omega) (by omega)
    · exact serialized_ne_of_byte honly.storage (by omega) hinside.1 hinside.2 hbyte

/-! ## `set_option` -/

/-- What `set_option` needs to leave no trace when it fails: the option was not set, or the
packet without it admits the new value; and the marker has room in any case. -/
def SetsSafely (memory : Memory) (packet : PacketObject) (num : OptionNumber)
    (value : OptionValue) : Prop :=
  ∀ removed ∈ removeOption memory packet num,
    MarkerHasRoom removed.1 removed.2 num value ∧
      (packet.options num = none ∨ Admits removed.1 removed.2 num value)

section SetOption

variable {memory memory' : Memory} {packet packet' : PacketObject} {num : OptionNumber}
  {value : OptionValue}

theorem setOption_eq (memory : Memory) (packet : PacketObject) (num : OptionNumber)
    (value : OptionValue) :
    setOption memory packet num value = (removeOption memory packet num).bind fun removed =>
      addOption removed.1 removed.2 num value := by
  rw [setOption, dif_pos num.isLt]

/-- An option that is set is gone if `add_option` fails early, and the packet has got full or its
fifteenth option if it fails late. -/
theorem atomic_setOption_of_set (hstored : Stored memory packet num) (hnum : num ≠ coapOptFencepost)
    (hspace : packet.optionCount < coapUnlimitedOptions ∨ packet.endOfOptions < packet.payload)
    (hremove : removeOption memory packet num = some (memory', packet')) :
    Atomic memory packet (addOption memory' packet' num value) ↔
      MarkerHasRoom memory' packet' num value ∧ Admits memory' packet' num value := by
  obtain ⟨honly, hshows⟩ := removeOption_spec hstored hnum hremove
  constructor
  · intro hatomic
    constructor
    · by_contra hfull
      obtain ⟨status, _, later, hcall, hstatus, -, hmany, hlater, hend⟩ :=
        addOption_of_not_markerHasRoom hfull
      have hsame := hatomic _ _ _ hcall hstatus
      obtain hfew | hless := hspace
      · exact serialized_ne_of_optionCount hfew hmany hsame
      · obtain ⟨start, hstart⟩ := Option.isSome_iff_exists.mp hstored.isSet
        have hinside := hstored.inside num start hstart
        rw [honly.payload] at hend
        exact (honly.trans hlater).serialized_ne_of_endOfOptions (by omega) (by omega) hsame
    · by_contra hrefused
      obtain ⟨status, later, hcall, hstatus, hsame⟩ := addOption_of_not_admits hrefused
      exact hshows (hsame.symm.trans (hatomic _ _ _ hcall hstatus))
  · intro ⟨hmarker, hadmits⟩ status _ _ hcall hstatus
    exact absurd (addOption_success hadmits hmarker hcall) hstatus

/-- `set_option` fails without a trace exactly where it is safe. -/
theorem atomic_setOption_iff
    (hset : packet.options num ≠ none → Stored memory packet num ∧ num ≠ coapOptFencepost ∧
      (packet.optionCount < coapUnlimitedOptions ∨ packet.endOfOptions < packet.payload)) :
    Atomic memory packet (setOption memory packet num value) ↔ SetsSafely memory packet num value := by
  rw [setOption_eq]
  cases hremove : removeOption memory packet num with
  | none => simp only [Atomic, SetsSafely, hremove, Option.bind_none, reduceCtorEq, false_implies,
      implies_true, Option.not_mem_none]
  | some removed =>
      obtain ⟨memory', packet'⟩ := removed
      simp only [SetsSafely, hremove, Option.bind_some, Option.mem_some_iff, forall_eq']
      by_cases hnone : packet.options num = none
      · simp only [removeOption, hnone, Option.some.injEq, Prod.mk.injEq] at hremove
        obtain ⟨rfl, rfl⟩ := hremove
        simp only [hnone, true_or, and_true]
        exact atomic_addOption_iff
      · obtain ⟨hstored, hnum, hspace⟩ := hset hnone
        simp only [hnone, false_or]
        exact atomic_setOption_of_set hstored hnum hspace hremove

end SetOption

/-- `add_option` leaves no trace of a failure exactly when the marker has room where it is
needed.  `set_option` leaves none exactly when also the option was not set before or can be set
to the new value. -/
theorem options_atomic_iff (memory : Memory) (packet : PacketObject) (number : ℕ)
    (value : OptionValue) :
    (Atomic memory packet (addOption memory packet number value) ↔
      ∀ num : OptionNumber, num.val = number → MarkerHasRoom memory packet num value) ∧
    ∀ num : OptionNumber, num.val = number →
      (packet.options num ≠ none → Stored memory packet num ∧ num ≠ coapOptFencepost ∧
        (packet.optionCount < coapUnlimitedOptions ∨ packet.endOfOptions < packet.payload)) →
      (Atomic memory packet (setOption memory packet number value) ↔
        SetsSafely memory packet num value) := by
  constructor
  · by_cases hnumber : number < coapOptionArraySize
    · have hadd : Atomic memory packet (addOption memory packet number value) ↔
          MarkerHasRoom memory packet ⟨number, hnumber⟩ value :=
        @atomic_addOption_iff memory packet ⟨number, hnumber⟩ value
      rw [hadd]
      constructor
      · rintro hmarker num rfl
        exact hmarker
      · exact fun hmarker => hmarker ⟨number, hnumber⟩ rfl
    · have hnone (num : OptionNumber) (hnum : num.val = number) :
          MarkerHasRoom memory packet num value := absurd (hnum ▸ num.isLt) hnumber
      simp only [addOption, dif_neg hnumber]
      refine ⟨fun _ => hnone, fun _ status memory' packet' hcall _ => ?_⟩
      simp only [Option.some.injEq, Prod.mk.injEq] at hcall
      obtain ⟨-, rfl, rfl⟩ := hcall
      rfl
  · rintro num rfl hset
    exact atomic_setOption_iff hset

/-- A new packet with storage for eight bytes, and its memory. -/
def emptyObject : PacketObject := newPacket.place 0

def emptyMemory : Memory := fun _ => 0

/-- The packet and its memory when the token is set. -/
def tokenObject : Option (OptionStatus × Memory × PacketObject) :=
  setOption emptyMemory emptyObject coapOptToken (.opaqueData [42])


theorem options_atomic_iff_token : ∃ memory packet,
    tokenObject = some (.success, memory, packet) ∧
    (Atomic memory packet (setOption memory packet coapOptToken (.uint 5)) ↔
      SetsSafely memory packet coapOptToken (.uint 5)) := by
  refine ⟨_, _, rfl, (options_atomic_iff _ _ _ _).2 coapOptToken rfl fun _ => ⟨⟨?_, ?_, ?_⟩, ?_⟩⟩
  · decide
  · decide
  · decide
  · decide

/-- Setting the token to a number fails for its type, and the token is gone. -/
theorem not_atomic_token : ∃ memory packet, tokenObject = some (.success, memory, packet) ∧
    packet.serialized memory = [0x51, 0, 0, 0, 0xb1, 42] ∧
    (∃ memory' packet', setOption memory packet coapOptToken (.uint 5) =
        some (.errWrongType, memory', packet') ∧
      packet'.serialized memory' = [0x50, 0, 0, 0]) ∧
    ¬ Atomic memory packet (setOption memory packet coapOptToken (.uint 5)) := by
  refine ⟨_, _, rfl, by decide, ⟨_, _, rfl, by decide⟩, fun hatomic => ?_⟩
  have hsame := hatomic _ _ _ rfl (by decide)
  revert hsame
  decide

end Wiselib.StaticCoap
