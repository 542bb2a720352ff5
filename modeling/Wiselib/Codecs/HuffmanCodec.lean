import Wiselib.Library.BitStuffing
import Wiselib.Codecs.BitArray
import Wiselib.Codecs.HuffmanTree

/-!
# The Huffman codec

`encode` and `decode` of `HuffmanCodec`.  The bits of the codes are written with a
one put in wherever a byte would otherwise become zero.  The byte that is left open
at the end is filled with the beginning of `filler_`, which starts with a one and
passes no leaf of the tree, and a zero byte ends the string.  `encode` runs twice, the
first time without an array and only to measure.

## Strategy

`writeBit` and `nextBit` are the two sides of the bit stuffing of the library, so
reading what was written gives the codes back (`decodeLoop_stuff`), which the tree
decodes to the string.  What follows them are the bits of the filler, and a bit of the
zero byte where the filler is taken for a bit put in; neither completes a symbol
(`decodeLoop_filler`).  That no byte is zero is the invariant of the sender.

Sizes are natural numbers: `size_type` counts the bits of any string in memory.
-/

namespace Wiselib.Codecs.Huffman

open BitStuffing

/-! ## Encoding -/

/-- The variables `out`, `out_pos` and `zero_count_` of `encode_internal`. -/
structure Writer where
  out : Option BitArray
  outPos : ℕ
  zeroCount : ℕ

namespace Writer

/-- Sets the next bit, where there is an array. -/
def put (writer : Writer) (bit : Bool) : Writer :=
  { writer with
    out := writer.out.map fun array => array.set writer.outPos bit
    outPos := writer.outPos + 1 }

/-- `write_bit`. -/
def writeBit (writer : Writer) (bit : Bool) : Writer :=
  let stuffed := if writer.outPos % 8 = 7 ∧ writer.zeroCount = 7 then writer.put true else writer
  let zeros := if stuffed.outPos % 8 = 0 then 0 else stuffed.zeroCount
  ({ stuffed with zeroCount := if bit then zeros else zeros + 1 }).put bit

end Writer

/-- `filler_`. -/
def filler : ℕ := 0x49

/-- Fills up the current byte with the first bits of the filler. -/
def fillByte (writer : Writer) : Writer :=
  (List.range ((8 - writer.outPos % 8) % 8)).foldl
    (fun writer i => writer.put (filler.testBit i)) writer

/-- The loop over the symbols. -/
def writeSymbols : List (BitVec 8) → Writer → Option Writer
  | [], writer => some writer
  | c :: rest, writer => do
      let bits ← code c.toNat
      writeSymbols rest (bits.foldl Writer.writeBit writer)

/-- `encode_internal`. -/
def encodeInternal (string : List (BitVec 8)) (out : Option BitArray) : Option Writer := do
  let written ← writeSymbols string ⟨out, 0, 0⟩
  return (List.replicate 8 false).foldl Writer.put (fillByte written)

/-- `encode`, of the bytes before the terminator. -/
def encode (memory : ℕ → BitVec 8) (string : List (BitVec 8)) : Option BitArray := do
  let measured ← encodeInternal string none
  let written ← encodeInternal string (some (BitArray.make memory measured.outPos))
  written.out

/-! ## Decoding -/

/-- The bit at `i`, or the one after it where `i` is the place of a bit that was put
in; `none` at the terminating byte. -/
def nextBit (array : BitArray) (position : Position) : Option (Bool × Position) :=
  if position.pos % 8 = 7 ∧ position.zeros = 7 then
    if array.get position.pos then
      let bit := array.get (position.pos + 1)
      some (bit, position.skip.count 8 bit)
    else none
  else
    let bit := array.get position.pos
    some (bit, position.count 8 bit)

/-- The loop of `decode_internal` while `i < limit`.  `i` rises in every round, so
`limit` rounds are enough. -/
def decodeLoop (array : BitArray) (limit : ℕ) :
    ℕ → Position → ℕ → List (BitVec 8) → Option (List (BitVec 8))
  | 0, position, _, out => if position.pos < limit then none else some out
  | fuel + 1, position, Ti, out =>
      if position.pos < limit then
        match nextBit array position with
        | none => some out
        | some (bit, position) => do
            let (Ti, symbol) ← treeStep Ti bit
            decodeLoop array limit fuel position Ti (out ++ symbol.toList.map (BitVec.ofNat 8))
      else some out

/-- `decode`, up to the terminator of what is returned. -/
def decode (array : BitArray) : Option (List (BitVec 8)) := do
  let l ← array.strlen
  decodeLoop array (l * 8) (l * 8) ⟨0, 0⟩ 0 []

/-! ## What is written -/

/-- The writer has written `bits`, to the array if there is one. -/
structure Writer.Wrote (writer : Writer) (size : Option ℕ) (bits : List Bool) : Prop where
  sizes : writer.out.map BitArray.size = size
  outPos : writer.outPos = bits.length
  out : ∀ array, writer.out = some array → Carries array.get 0 bits

/-- The place and the zeros of a writer. -/
def Writer.position (writer : Writer) : Position := ⟨writer.outPos, writer.zeroCount⟩

variable {writer : Writer} {size : Option ℕ} {bits written : List Bool} {bit : Bool}

theorem Writer.Wrote.put (hwrote : writer.Wrote size bits) (bit : Bool) :
    (writer.put bit).Wrote size (bits ++ [bit]) := by
  refine ⟨?_, by simp [Writer.put, hwrote.outPos], fun array harray i hi => ?_⟩
  · rw [← hwrote.sizes, Writer.put, Option.map_map]
    rfl
  obtain ⟨before, hbefore, rfl⟩ := Option.map_eq_some_iff.1 harray
  rw [BitArray.get_set, hwrote.outPos, Nat.zero_add]
  rcases Nat.lt_or_ge i bits.length with hold | hnew
  · rw [if_neg (by omega), List.getElem_append_left hold]
    simpa using hwrote.out before hbefore i hold
  · have hlast : i = bits.length := by
      rw [List.length_append, List.length_singleton] at hi
      omega
    subst hlast
    simp

theorem Writer.Wrote.puts (hwrote : writer.Wrote size written) (bits : List Bool) :
    (bits.foldl Writer.put writer).Wrote size (written ++ bits) := by
  induction bits generalizing writer written with
  | nil => simpa using hwrote
  | cons bit bits ih => simpa using ih (hwrote.put bit)

/-- **`write_bit` stuffs.** -/
theorem Writer.Wrote.writeBit (hwrote : writer.Wrote size written) (bit : Bool) :
    (writer.writeBit bit).Wrote size (written ++ (stuffBit 8 writer.position bit).1) ∧
      (writer.writeBit bit).position = (stuffBit 8 writer.position bit).2 := by
  unfold Writer.writeBit stuffBit
  by_cases hfull : writer.position.Full 8
  · have hput : writer.outPos % 8 = 7 ∧ writer.zeroCount = 7 := hfull
    rw [if_pos hput, if_pos hfull]
    refine ⟨?_, ?_⟩
    · have htwo := ((hwrote.put true).puts [bit])
      rw [List.append_assoc] at htwo
      exact ⟨htwo.sizes, htwo.outPos, htwo.out⟩
    · cases bit <;> rfl
  · have hput : ¬ (writer.outPos % 8 = 7 ∧ writer.zeroCount = 7) := hfull
    rw [if_neg hput, if_neg hfull]
    refine ⟨?_, ?_⟩
    · have hone := hwrote.put bit
      exact ⟨hone.sizes, hone.outPos, hone.out⟩
    · cases bit <;> rfl

theorem Writer.Wrote.writeBits (hwrote : writer.Wrote size written) (bits : List Bool) :
    (bits.foldl Writer.writeBit writer).Wrote size (written ++ (stuff 8 writer.position bits).1) ∧
      (bits.foldl Writer.writeBit writer).position = (stuff 8 writer.position bits).2 := by
  induction bits generalizing writer written with
  | nil => simpa [stuff] using hwrote
  | cons bit bits ih =>
      obtain ⟨hone, hposition⟩ := hwrote.writeBit bit
      obtain ⟨hrest, hlast⟩ := ih hone
      rw [hposition] at hrest hlast
      rw [List.append_assoc] at hrest
      exact ⟨hrest, hlast⟩

/-- The symbols of a string leave the stuffed stream of its codes. -/
theorem Writer.Wrote.writeSymbols (hwrote : writer.Wrote size written) {string : List (BitVec 8)}
    (hcodes : codes (string.map BitVec.toNat) = some bits) :
    ∃ last, Huffman.writeSymbols string writer = some last ∧
      last.Wrote size (written ++ (stuff 8 writer.position bits).1) ∧
        last.position = (stuff 8 writer.position bits).2 := by
  induction string generalizing writer written bits with
  | nil =>
      obtain rfl : [] = bits := by simpa [codes] using hcodes
      exact ⟨writer, rfl, by simpa [stuff] using hwrote, rfl⟩
  | cons c string ih =>
      rw [List.map_cons] at hcodes
      obtain ⟨first, hfirst, hcodes⟩ := Option.bind_eq_some_iff.1 hcodes
      obtain ⟨rest, hrest, heq⟩ := Option.bind_eq_some_iff.1 hcodes
      obtain rfl : first ++ rest = bits := Option.some.inj heq
      obtain ⟨hwritten, hposition⟩ := hwrote.writeBits first
      obtain ⟨last, hlast, hall, hend⟩ := ih hwritten hrest
      refine ⟨last, ?_, ?_, ?_⟩
      · simp only [Huffman.writeSymbols, hfirst, Option.bind_eq_bind, Option.bind_some]
        exact hlast
      · rw [hposition, List.append_assoc] at hall
        rw [stuff_append]
        exact hall
      · rw [hend, hposition, stuff_append]

/-- The bits that fill up the byte at `pos`. -/
def fillerBits (pos : ℕ) : List Bool :=
  (List.range ((8 - pos % 8) % 8)).map filler.testBit

/-- The bits of an encoded string before the terminator. -/
def content (bits : List Bool) : List Bool :=
  let stuffed := (stuff 8 ⟨0, 0⟩ bits).1
  stuffed ++ fillerBits stuffed.length

theorem length_fillerBits (pos : ℕ) : (fillerBits pos).length = (8 - pos % 8) % 8 := by
  simp [fillerBits]

theorem length_content_mod (bits : List Bool) : (content bits).length % 8 = 0 := by
  simp only [content, List.length_append, length_fillerBits]
  omega

/-- **What `encode_internal` writes**, and how far it gets. -/
theorem encodeInternal_spec {string : List (BitVec 8)} (out : Option BitArray)
    (hcodes : codes (string.map BitVec.toNat) = some bits) :
    ∃ last, encodeInternal string out = some last ∧
      last.Wrote (out.map BitArray.size) (content bits ++ List.replicate 8 false) := by
  have hstart : (⟨out, 0, 0⟩ : Writer).Wrote (out.map BitArray.size) [] :=
    ⟨rfl, rfl, fun array _ i hi => absurd hi (Nat.not_lt_zero i)⟩
  obtain ⟨written, hwritten, hwrote, -⟩ := hstart.writeSymbols hcodes
  rw [List.nil_append] at hwrote
  have hfill : fillByte written = (fillerBits written.outPos).foldl Writer.put written := by
    rw [fillByte, fillerBits, List.foldl_map]
  have hfilled := (hwrote.puts (fillerBits written.outPos)).puts (List.replicate 8 false)
  rw [← hfill, hwrote.outPos] at hfilled
  exact ⟨_, by simp [encodeInternal, hwritten], hfilled⟩

/-! ## What is read back -/

variable {array : BitArray} {position : Position} {Ti node limit fuel : ℕ}
  {symbols : List ℕ} {out : List (BitVec 8)}

theorem nextBit_eq : nextBit array position = readBit 8 array.get position := rfl

theorem decodeLoop_end (hend : limit ≤ position.pos) :
    decodeLoop array limit fuel position Ti out = some out := by
  have hnot : ¬ position.pos < limit := by omega
  cases fuel <;> simp [decodeLoop, hnot]

theorem decodeLoop_step {next : Position} {symbol : Option ℕ} (hlt : position.pos < limit)
    (hbit : nextBit array position = some (bit, next))
    (hstep : treeStep Ti bit = some (node, symbol)) :
    decodeLoop array limit (fuel + 1) position Ti out =
      decodeLoop array limit fuel next node (out ++ symbol.toList.map (BitVec.ofNat 8)) := by
  simp [decodeLoop, hlt, hbit, hstep]

/-- **Reading a stuffed stream** decodes its bits. -/
theorem decodeLoop_stuff
    (hcarries : Carries array.get position.pos (stuff 8 position bits).1)
    (hroom : position.pos + (stuff 8 position bits).1.length ≤ limit)
    (hbits : decodeBits Ti bits = some (node, symbols)) :
    decodeLoop array limit (fuel + bits.length) position Ti out =
      decodeLoop array limit fuel (stuff 8 position bits).2 node
        (out ++ symbols.map (BitVec.ofNat 8)) := by
  induction bits generalizing position Ti out symbols with
  | nil =>
      obtain ⟨rfl, rfl⟩ := Prod.mk.inj (Option.some.inj hbits)
      simp [stuff]
  | cons bit bits ih =>
      obtain ⟨⟨next, symbol⟩, hstep, hbits⟩ := Option.bind_eq_some_iff.1 hbits
      obtain ⟨⟨last, rest⟩, hrest, heq⟩ := Option.bind_eq_some_iff.1 hbits
      obtain ⟨rfl, rfl⟩ := Prod.mk.inj (Option.some.inj heq)
      simp only [stuff] at hcarries hroom ⊢
      rw [List.length_append] at hroom
      have hone : 1 ≤ (stuffBit 8 position bit).1.length := one_le_length_stuffBit
      have hbit : nextBit array position = some (bit, (stuffBit 8 position bit).2) :=
        readBit_stuffBit hcarries.append_left
      have hpos : (stuffBit 8 position bit).2.pos =
          position.pos + (stuffBit 8 position bit).1.length := pos_stuffBit
      have hmore := hcarries.append_right
      rw [← hpos] at hmore
      calc decodeLoop array limit (fuel + (bit :: bits).length) position Ti out
          = decodeLoop array limit (fuel + bits.length) (stuffBit 8 position bit).2 next
              (out ++ symbol.toList.map (BitVec.ofNat 8)) :=
            decodeLoop_step (by omega) hbit hstep
        _ = _ := by
            rw [ih hmore (by rw [hpos]; omega) hrest, List.map_append, List.append_assoc]

theorem treeStep_of_passes (hbits : passes Ti (bit :: bits) = true) :
    ∃ next, treeStep Ti bit = some (next, none) ∧ passes next bits = true := by
  cases hnext : descend Ti bit with
  | none => simp [passes, hnext] at hbits
  | some next =>
      simp only [passes, hnext, Bool.and_eq_true, Bool.not_eq_true'] at hbits
      exact ⟨next, by simp [treeStep, hnext, symbolAt_of_not_leaf hbits.1], hbits.2⟩

/-- The rest of a word that has a one is read as it is, and yields no symbol where its
bits pass no leaf. -/
theorem decodeLoop_of_passes (hone : position.HasOne 8)
    (hinside : position.pos % 8 ≠ 0 ∨ bits = [])
    (hword : position.pos % 8 + bits.length ≤ 8) (hbits : passes Ti bits = true)
    (hcarries : Carries array.get position.pos bits)
    (hlimit : limit = position.pos + bits.length) :
    decodeLoop array limit (fuel + bits.length) position Ti out = some out := by
  induction bits generalizing position Ti with
  | nil => exact decodeLoop_end (by simp [hlimit])
  | cons bit bits ih =>
      rw [List.length_cons] at hword hlimit
      have hstart : position.pos % 8 ≠ 0 := hinside.resolve_right (by simp)
      obtain ⟨next, hstep, hrest⟩ := treeStep_of_passes hbits
      have hbit : nextBit array position = some (bit, position.count 8 bit) := by
        rw [nextBit_eq, readBit, if_neg (hone.not_full (by decide)), hcarries.head]
      have hround : decodeLoop array limit (fuel + (bit :: bits).length) position Ti out =
          decodeLoop array limit (fuel + bits.length) (position.count 8 bit) next
            (out ++ (none : Option ℕ).toList.map (BitVec.ofNat 8)) :=
        decodeLoop_step (by omega) hbit hstep
      have hnext : (position.pos + 1) % 8 ≠ 0 ∨ bits = [] := by
        by_cases hnil : bits = []
        · exact .inr hnil
        · have := List.length_pos_iff.2 hnil
          omega
      rw [hround]
      simp only [Option.toList_none, List.map_nil, List.append_nil]
      refine ih (hone.count hstart bit) hnext ?_ hrest hcarries.tail ?_
      · rw [Position.pos_count]
        rcases hnext with hne | rfl
        · omega
        · simp only [List.length_nil]
          omega
      · rw [Position.pos_count]
        omega

theorem fillerBits_passes : ∀ j < 8, j ≠ 0 →
    ∃ rest, fillerBits j = true :: rest ∧ passes 0 (true :: rest) = true := by
  intro j hj hne
  have hhead : (fillerBits j).head? = some true := by
    revert j
    decide
  have hpasses : passes 0 (fillerBits j) = true := by
    revert j
    decide +kernel
  obtain ⟨rest, hrest⟩ := List.head?_eq_some_iff.1 hhead
  exact ⟨rest, hrest, hrest ▸ hpasses⟩

theorem fillerBits_mod (pos : ℕ) : fillerBits (pos % 8) = fillerBits pos := by
  simp [fillerBits]

/-- **What follows the codes yields no symbol.**  A filler of one bit behind seven
zeros is taken for a bit put in, and the first bit of the terminator for the bit
behind it. -/
theorem decodeLoop_filler (hcounted : position.Counted 8)
    (hcarries : Carries array.get position.pos
      (fillerBits position.pos ++ List.replicate 8 false))
    (hlimit : limit = position.pos + (fillerBits position.pos).length) :
    decodeLoop array limit (fuel + (fillerBits position.pos).length) position 0 out =
      some out := by
  by_cases hstart : position.pos % 8 = 0
  · refine decodeLoop_end ?_
    rw [hlimit, length_fillerBits, hstart]
    simp
  · obtain ⟨rest, hrest, hpasses⟩ :=
      fillerBits_passes (position.pos % 8) (Nat.mod_lt _ (by decide)) hstart
    have hlength := length_fillerBits position.pos
    rw [fillerBits_mod] at hrest
    rw [hrest] at hcarries hlimit hlength ⊢
    rw [List.length_cons] at hlimit hlength
    have hhead : array.get position.pos = true := hcarries.append_left.head
    by_cases hfull : position.Full 8
    · -- the filler is the one bit behind seven zeros
      have hlast : position.pos % 8 = 7 := hfull.1
      obtain rfl : rest = [] := List.length_eq_zero_iff.1 (by omega)
      have hzero : array.get (position.pos + 1) = false := hcarries.tail.head
      have hbit : nextBit array position = some (false, position.skip.count 8 false) := by
        rw [nextBit_eq, readBit, if_pos hfull, if_pos hhead, hzero]
      have hstep : treeStep 0 false = some (1, none) := by decide +kernel
      have hround : decodeLoop array limit (fuel + 1) position 0 out =
          decodeLoop array limit fuel (position.skip.count 8 false) 1
            (out ++ (none : Option ℕ).toList.map (BitVec.ofNat 8)) :=
        decodeLoop_step (by simp [hlimit]) hbit hstep
      rw [List.length_singleton, hround, decodeLoop_end (by simp [hlimit])]
      simp
    · obtain ⟨next, hstep, hmore⟩ := treeStep_of_passes hpasses
      have hbit : nextBit array position = some (true, position.count 8 true) := by
        rw [nextBit_eq, readBit, if_neg hfull, hhead]
      have hround : decodeLoop array limit (fuel + (true :: rest).length) position 0 out =
          decodeLoop array limit (fuel + rest.length) (position.count 8 true) next
            (out ++ (none : Option ℕ).toList.map (BitVec.ofNat 8)) :=
        decodeLoop_step (by omega) hbit hstep
      have hnext : (position.pos + 1) % 8 ≠ 0 ∨ rest = [] := by
        by_cases hnil : rest = []
        · exact .inr hnil
        · have := List.length_pos_iff.2 hnil
          omega
      rw [hround]
      simp only [Option.toList_none, List.map_nil, List.append_nil]
      refine decodeLoop_of_passes hcounted.hasOne hnext ?_ hmore
        hcarries.append_left.tail ?_
      · rw [Position.pos_count]
        omega
      · rw [Position.pos_count]
        omega

/-! ## The round trip -/

theorem exists_one_content (bits : List Bool) {k : ℕ} (hk : k < (content bits).length / 8) :
    ∃ i < 8, (content bits)[k * 8 + i]? = some true := by
  have hwords : WordsNonzero 8 ([] ++ (stuff 8 ⟨0, 0⟩ bits).1) (stuff 8 ⟨0, 0⟩ bits).2 :=
    (wordsNonzero_nil (by decide)).stuff (by decide)
  rw [List.nil_append] at hwords
  simp only [content, List.length_append, length_fillerBits] at hk ⊢
  generalize (stuff 8 ⟨0, 0⟩ bits).1 = stuffed at *
  rcases Nat.lt_or_ge stuffed.length ((k + 1) * 8) with hopen | hwhole
  · -- the byte that is filled up has the first bit of the filler
    have hbyte : k * 8 + stuffed.length % 8 = stuffed.length := by omega
    have hstart : stuffed.length % 8 ≠ 0 := by omega
    obtain ⟨rest, hrest, -⟩ :=
      fillerBits_passes (stuffed.length % 8) (Nat.mod_lt _ (by decide)) hstart
    rw [fillerBits_mod] at hrest
    refine ⟨stuffed.length % 8, Nat.mod_lt _ (by decide), ?_⟩
    rw [hbyte, hrest, List.getElem?_append_right (le_refl _)]
    simp
  · obtain ⟨i, hi, hone⟩ := hwords.complete k hwhole
    exact ⟨i, hi, getElem?_append_of_some hone⟩

/-- **A string is encoded as a C string and decoded again.**  The encoded string has
no zero byte before its terminator, which is the last of its bytes. -/
theorem decode_encode (memory : ℕ → BitVec 8) (string : List (BitVec 8))
    (hstring : 0#8 ∉ string) :
    ∃ encoded length, encode memory string = some encoded ∧ encoded.size = length + 1 ∧
      (∀ k < length, encoded.data k ≠ 0#8) ∧ encoded.data length = 0#8 ∧
        decode encoded = some string := by
  have hbytes : ∀ c ∈ string.map BitVec.toNat, c < 256 ∧ c ≠ 0 := by
    intro c hc
    obtain ⟨byte, hbyte, rfl⟩ := List.mem_map.1 hc
    refine ⟨byte.isLt, fun hzero => hstring ?_⟩
    rwa [← BitVec.eq_of_toNat_eq (y := 0#8) hzero]
  obtain ⟨bits, hcodes, hdecoded⟩ := decodeBits_codes hbytes
  obtain ⟨measured, hmeasured, hsize⟩ := encodeInternal_spec none hcodes
  obtain ⟨last, hlast, hwrote⟩ :=
    encodeInternal_spec (some (BitArray.make memory measured.outPos)) hcodes
  obtain ⟨encoded, hencoded, hsizes⟩ := Option.map_eq_some_iff.1 hwrote.sizes
  have hcarries := hwrote.out encoded hencoded
  have hwhole := length_content_mod bits
  obtain ⟨length, hlength⟩ : ∃ length, (content bits).length = length * 8 :=
    ⟨(content bits).length / 8, by omega⟩
  have hbits : encoded.size = length + 1 := by
    have hmake : (BitArray.make memory measured.outPos).size = (measured.outPos + 7) / 8 := rfl
    rw [hsizes, hmake, hsize.outPos, List.length_append, List.length_replicate, hlength]
    omega
  have hnonzero : ∀ k < length, encoded.data k ≠ 0#8 := by
    intro k hk hzero
    obtain ⟨i, hi, hone⟩ := exists_one_content bits (k := k) (by omega)
    obtain ⟨hlt, hbit⟩ := List.getElem?_eq_some_iff.1 hone
    have hread := hcarries.append_left (k * 8 + i) hlt
    rw [hbit, Nat.zero_add, BitArray.data_eq_zero_iff.1 hzero i hi] at hread
    exact Bool.false_ne_true hread
  have hterminator : encoded.data length = 0#8 := by
    rw [BitArray.data_eq_zero_iff]
    intro i hi
    have hread := hcarries.append_right i (by simpa using hi)
    rwa [hlength, Nat.zero_add, List.getElem_replicate] at hread
  refine ⟨encoded, length, ?_, hbits, hnonzero, hterminator, ?_⟩
  · simp [encode, hmeasured, hlast, hencoded]
  · have hstrlen : encoded.strlen = some length :=
      BitArray.strlen_eq (by omega) hnonzero hterminator
    have hpos : (stuff 8 ⟨0, 0⟩ bits).2.pos = (stuff 8 ⟨0, 0⟩ bits).1.length := by
      rw [pos_stuff, Nat.zero_add]
    have hcounted : (stuff 8 ⟨0, 0⟩ bits).2.Counted 8 :=
      counted_stuff (by decide) fun hne => absurd (Nat.zero_mod 8) hne
    have hle := @length_le_stuff 8 ⟨0, 0⟩ bits
    have hfilled : length * 8 = (stuff 8 ⟨0, 0⟩ bits).1.length +
        (fillerBits (stuff 8 ⟨0, 0⟩ bits).1.length).length := by
      rw [← hlength, content, List.length_append]
    -- the rounds for the codes, then those for the filler
    obtain ⟨fuel, hfuel⟩ : ∃ fuel, length * 8 =
        fuel + (fillerBits (stuff 8 ⟨0, 0⟩ bits).1.length).length + bits.length :=
      ⟨(stuff 8 ⟨0, 0⟩ bits).1.length - bits.length, by omega⟩
    have hsymbols : (string.map BitVec.toNat).map (BitVec.ofNat 8) = string := by
      rw [List.map_map]
      exact List.map_id'' (fun byte => by simp) string
    unfold decode
    rw [hstrlen, Option.bind_eq_bind, Option.bind_some]
    calc decodeLoop encoded (length * 8) (length * 8) ⟨0, 0⟩ 0 []
        = decodeLoop encoded (length * 8)
            (fuel + (fillerBits (stuff 8 ⟨0, 0⟩ bits).1.length).length + bits.length)
            ⟨0, 0⟩ 0 [] := by rw [← hfuel]
      _ = decodeLoop encoded (length * 8)
            (fuel + (fillerBits (stuff 8 ⟨0, 0⟩ bits).1.length).length)
            (stuff 8 ⟨0, 0⟩ bits).2 0 string := by
          rw [decodeLoop_stuff hcarries.append_left.append_left (by simp; omega) hdecoded,
            hsymbols, List.nil_append]
      _ = some string := by
          rw [← hpos]
          refine decodeLoop_filler hcounted ?_ (by rw [hpos, hfilled])
          rw [hpos]
          have hrest := hcarries
          rw [content, List.append_assoc] at hrest
          simpa using hrest.append_right

/-- The second byte has the code that the filler with a zero behind it would be. -/
theorem decode_encode_pair :
    ∃ encoded length, encode (fun _ => 0#8) [101#8, 45#8] = some encoded ∧
      encoded.size = length + 1 ∧ (∀ k < length, encoded.data k ≠ 0#8) ∧
        encoded.data length = 0#8 ∧ decode encoded = some [101#8, 45#8] :=
  decode_encode _ _ (by decide)

end Wiselib.Codecs.Huffman
