import Wiselib.Library.WordBits

/-!
# The chunk map block

`ChunkMapBlock` of `algorithms/block_memory/chunk_map_block.h`: one bit for each
chunk, set while the chunk is free, in the words of one block.  `mark` and
`unmark` change ranges of bits, `find` looks for a run of free chunks within the
chunks of one mapped block and `summary` says how long a run it can find.

## Strategy

A shift by the width of its operand or more, and a signed shift into or behind
the sign bit, have no result here.  `change_of_shiftable` follows the three
writes of a change (the end of a word, whole words, the start of a word) where
they come out right, and `change_unaligned` and `change_tail` show what happens
otherwise.
-/

namespace Wiselib.ChunkMap

open WordBits Bitmap

/-- The template parameters and the widths of `word_t` (which is `size_type`),
`unsigned long`, `int` and `summary_t`. -/
structure Layout where
  blockSize : ℕ
  chunkSize : ℕ
  wordBits : ℕ
  longBits : ℕ
  intBits : ℕ
  summaryBits : ℕ
  chunkSize_pos : 0 < chunkSize
  chunkSize_le : chunkSize ≤ blockSize
  wordBits_pos : 0 < wordBits
  wordBits_le : wordBits ≤ longBits
  map_lt : 8 * blockSize < 2 ^ wordBits

namespace Layout

variable (layout : Layout)

/-- `BLOCKBITS`: the chunks of a mapped block. -/
def blockBits : ℕ := layout.blockSize / layout.chunkSize

/-- `BLOCKBLOCKS`: the blocks that are mapped. -/
def blockBlocks : ℕ := layout.blockSize * 8 / layout.blockBits

/-- `BLOCKWORDS`. -/
def blockWords : ℕ := layout.blockBits / layout.wordBits

/-- `data_`, read as words. -/
abbrev Data : Type := ℕ → BitVec layout.wordBits

/-- `1UL << count`, less one. -/
def longOnes (count : ℕ) : Option ℕ :=
  if count < layout.longBits then some (2 ^ count - 1) else none

/-- `value << count`, as `unsigned long`. -/
def shiftLong (value count : ℕ) : Option ℕ :=
  if count < layout.longBits then some (value * 2 ^ count % 2 ^ layout.longBits) else none

/-- `(1 << count) - 1`, as `int`. -/
def intOnes (count : ℕ) : Option ℕ :=
  if count + 1 < layout.intBits then some (2 ^ count - 1) else none

end Layout

variable {layout : Layout}

/-! ## Changing ranges -/

section Change

variable (layout)

/-- The first write: from `offset` to the end of its word, where `room` chunks are said to
be left. -/
def changeHead (value : Bool) (data : layout.Data) (offset n room : ℕ) : Option layout.Data := do
  let pos := offset / layout.wordBits
  let ones ← layout.longOnes (min n room)
  let mask ← layout.shiftLong ones offset
  return Function.update data pos (store value (data pos) (BitVec.ofNat layout.wordBits mask))

/-- The loop and the last write: `n` chunks from the start of word `pos`. -/
def changeTail (value : Bool) (data : layout.Data) (pos n : ℕ) : Option layout.Data :=
  let filled := fill value data pos (n / layout.wordBits)
  let pos := pos + n / layout.wordBits
  if n % layout.wordBits ≠ 0 then do
    let mask ← layout.intOnes (n % layout.wordBits)
    return Function.update filled pos
      (store value (filled pos) (BitVec.ofNat layout.wordBits mask))
  else some filled

/-- The common body of `mark` and `unmark`. -/
def change (value : Bool) (data : layout.Data) (offset n room : ℕ) : Option layout.Data :=
  let pos := offset / layout.wordBits
  if offset % layout.wordBits ≠ 0 then do
    let data ← changeHead layout value data offset n room
    changeTail layout value data (pos + 1) (n - min room n)
  else changeTail layout value data pos n

/-- `mark`. -/
def mark (data : layout.Data) (offset n : ℕ) : Option layout.Data :=
  change layout false data offset n (layout.wordBits - offset % layout.wordBits)

/-- `unmark`; the room in the word is the one at `offset` of the first word. -/
def unmark (data : layout.Data) (offset n : ℕ) : Option layout.Data :=
  change layout true data offset n
    ((2 ^ layout.wordBits + layout.wordBits - offset) % 2 ^ layout.wordBits)

/-- `used`. -/
def used (data : layout.Data) (pos : ℕ) : Bool := !bit data pos

/-- What is left for whole words and the last one. -/
def rest (offset n : ℕ) : ℕ :=
  if offset % layout.wordBits = 0 then n
  else n - min (layout.wordBits - offset % layout.wordBits) n

/-- The shifts that go right: a range that starts within a word starts in the first one, and
less than the value bits of an `int` are left for the last word. -/
def Shiftable (offset n : ℕ) : Prop :=
  (offset % layout.wordBits = 0 ∨ offset < layout.wordBits ∨ n = 0 ∧ offset < layout.longBits) ∧
    (rest layout offset n % layout.wordBits = 0 ∨
      rest layout offset n % layout.wordBits + 1 < layout.intBits)

end Change

theorem bit_changeTail (value : Bool) (data : layout.Data) (pos : ℕ) {n : ℕ}
    (hshift : n % layout.wordBits = 0 ∨ n % layout.wordBits + 1 < layout.intBits) :
    ∃ last, changeTail layout value data pos n = some last ∧
      bit last = setRange (bit data) (pos * layout.wordBits) value n := by
  have hk := layout.wordBits_pos
  have hn := Nat.div_add_mod' n layout.wordBits
  by_cases hzero : n % layout.wordBits = 0
  · refine ⟨_, if_neg (not_not.2 hzero), ?_⟩
    rw [bit_fill hk, Nat.div_mul_cancel (Nat.dvd_of_mod_eq_zero hzero)]
  · have hones : layout.intOnes (n % layout.wordBits) =
        some (mask layout.wordBits 0 (n % layout.wordBits)) := by
      have hlt : 2 ^ (n % layout.wordBits) - 1 < 2 ^ layout.wordBits := by
        exact (Nat.sub_le _ _).trans_lt (Nat.pow_lt_pow_right one_lt_two (Nat.mod_lt n hk))
      rw [Layout.intOnes, if_pos (hshift.resolve_left hzero), mask, pow_zero, mul_one,
        Nat.mod_eq_of_lt hlt]
    refine ⟨_, (if_pos hzero).trans (by rw [hones]; rfl), ?_⟩
    rw [bit_store_range hk value _ le_rfl (by have := Nat.mod_lt n hk; omega), bit_fill hk]
    funext i
    simp only [setRange_apply]
    have hstart : (pos + n / layout.wordBits) * layout.wordBits =
        pos * layout.wordBits + n / layout.wordBits * layout.wordBits := Nat.add_mul ..
    split_ifs <;> first | rfl | omega

theorem room_eq {offset : ℕ} (hfirst : offset < layout.wordBits) :
    layout.wordBits - offset % layout.wordBits = layout.wordBits - offset ∧
      (2 ^ layout.wordBits + layout.wordBits - offset) % 2 ^ layout.wordBits =
        layout.wordBits - offset := by
  refine ⟨by rw [Nat.mod_eq_of_lt hfirst], ?_⟩
  have hlt : layout.wordBits - offset < 2 ^ layout.wordBits :=
    (Nat.sub_le _ _).trans_lt Nat.lt_two_pow_self
  rw [Nat.add_sub_assoc hfirst.le, Nat.add_mod_left, Nat.mod_eq_of_lt hlt]

theorem bit_changeHead (value : Bool) (data : layout.Data) (n : ℕ) {offset : ℕ}
    (hfirst : offset < layout.wordBits) (hunaligned : offset % layout.wordBits ≠ 0) :
    ∃ last, changeHead layout value data offset n (layout.wordBits - offset) = some last ∧
      bit last = setRange (bit data) offset value (min n (layout.wordBits - offset)) := by
  rw [Nat.mod_eq_of_lt hfirst] at hunaligned
  have hlong := layout.wordBits_le
  have hones : layout.longOnes (min n (layout.wordBits - offset)) =
      some (2 ^ min n (layout.wordBits - offset) - 1) := if_pos (by omega)
  have hmask : layout.shiftLong (2 ^ min n (layout.wordBits - offset) - 1) offset =
      some (mask layout.longBits offset (min n (layout.wordBits - offset))) :=
    if_pos (by omega)
  refine ⟨_, by rw [changeHead, hones, Option.bind_eq_bind, Option.bind_some, hmask]; rfl, ?_⟩
  rw [Nat.div_eq_of_lt hfirst,
    bit_store_range layout.wordBits_pos value data hlong (by omega), Nat.zero_mul, Nat.zero_add]

/-- An empty range changes nothing, as long as the shift by the offset is defined. -/
theorem change_zero {value : Bool} {data : layout.Data} {offset room : ℕ}
    (hlong : offset < layout.longBits) :
    ∃ last, change layout value data offset 0 room = some last ∧ bit last = bit data := by
  have hpos : 0 < layout.longBits := by omega
  have hnothing := fun pos => bit_changeTail (n := 0) value data pos (.inl (Nat.zero_mod _))
  by_cases haligned : offset % layout.wordBits = 0
  · obtain ⟨last, htail, hbit⟩ := hnothing (offset / layout.wordBits)
    exact ⟨last, (if_neg (not_not.2 haligned)).trans htail, hbit⟩
  · obtain ⟨last, htail, hbit⟩ := hnothing (offset / layout.wordBits + 1)
    have hhead : changeHead layout value data offset 0 room = some data := by
      have hstore : ∀ word : BitVec layout.wordBits,
          store value word 0#(layout.wordBits) = word := by
        intro word
        cases value <;> simp [store]
      simp [changeHead, Layout.longOnes, Layout.shiftLong, hlong, hpos, hstore]
    refine ⟨last, (if_pos haligned).trans ?_, hbit⟩
    rw [hhead, Nat.zero_sub]
    exact htail

/-- **Where the shifts go right** the bits of the range are changed and no others. -/
theorem bit_change {value : Bool} {data : layout.Data} {offset n room : ℕ}
    (hshift : Shiftable layout offset n)
    (hroom : offset < layout.wordBits → room = layout.wordBits - offset) :
    ∃ last, change layout value data offset n room = some last ∧
      bit last = setRange (bit data) offset value n := by
  obtain ⟨hhead, htail⟩ := hshift
  rw [change]
  by_cases haligned : offset % layout.wordBits = 0
  · rw [rest, if_pos haligned] at htail
    obtain ⟨last, hlast, hbit⟩ := bit_changeTail value data (offset / layout.wordBits) htail
    refine ⟨last, (if_neg (not_not.2 haligned)).trans hlast, ?_⟩
    rw [hbit, Nat.div_mul_cancel (Nat.dvd_of_mod_eq_zero haligned)]
  · rcases hhead.resolve_left haligned with hfirst | ⟨rfl, hlong⟩
    · have hmod := Nat.mod_eq_of_lt hfirst
      have hpos := Nat.div_eq_of_lt hfirst
      rw [rest, if_neg haligned, hmod] at htail
      obtain ⟨middle, hmiddle, hmiddleBit⟩ :=
        bit_changeHead value data n hfirst haligned
      obtain ⟨last, hlast, hlastBit⟩ := bit_changeTail value middle 1 htail
      refine ⟨last, ?_, ?_⟩
      · rw [if_pos haligned, hroom hfirst, hmiddle, hpos]
        exact hlast
      · rw [hlastBit, hmiddleBit]
        funext i
        simp only [setRange_apply, Nat.one_mul]
        split_ifs <;> first | rfl | omega
    · exact change_zero hlong

theorem of_changeTail {value : Bool} {data last : layout.Data} {pos n : ℕ}
    (htail : changeTail layout value data pos n = some last) :
    n % layout.wordBits = 0 ∨ n % layout.wordBits + 1 < layout.intBits := by
  by_contra hshift
  rw [not_or] at hshift
  rw [changeTail, if_pos hshift.1, Layout.intOnes, if_neg hshift.2] at htail
  simp at htail

/-- Behind the first word, a range that starts within a word has its first bit left out. -/
theorem bit_change_unaligned {value : Bool} {data last : layout.Data} {offset n room : ℕ}
    (hbehind : layout.wordBits ≤ offset) (hunaligned : offset % layout.wordBits ≠ 0)
    (hchange : change layout value data offset n room = some last) :
    offset < layout.longBits ∧ bit last offset = bit data offset := by
  have hk := layout.wordBits_pos
  rw [change, if_pos hunaligned] at hchange
  obtain ⟨middle, hhead, htail⟩ := Option.bind_eq_some_iff.1 hchange
  obtain ⟨ones, -, hhead⟩ := Option.bind_eq_some_iff.1 hhead
  obtain ⟨bits, hbits, hhead⟩ := Option.bind_eq_some_iff.1 hhead
  rw [Layout.shiftLong] at hbits
  split at hbits
  · rename_i hlong
    obtain rfl := Option.some.inj hbits
    obtain rfl := Option.some.inj hhead
    -- the mask has been shifted out of the word
    have hmask : (BitVec.ofNat layout.wordBits
        (ones * 2 ^ offset % 2 ^ layout.longBits)).getLsbD (offset % layout.wordBits) = false := by
      have hlow : ¬ offset ≤ offset % layout.wordBits := by
        have := Nat.mod_lt offset hk
        omega
      rw [BitVec.getLsbD_ofNat, Nat.testBit_mod_two_pow, ← Nat.shiftLeft_eq, Nat.testBit_shiftLeft,
        decide_eq_false hlow, Bool.false_and, Bool.and_false, Bool.and_false]
    obtain ⟨last', hlast', hbit⟩ := bit_changeTail value
      (Function.update data (offset / layout.wordBits) (store value
        (data (offset / layout.wordBits))
        (BitVec.ofNat layout.wordBits (ones * 2 ^ offset % 2 ^ layout.longBits))))
      (offset / layout.wordBits + 1) (of_changeTail htail)
    obtain rfl := Option.some.inj (htail.symm.trans hlast')
    have hbefore : ¬ (offset / layout.wordBits + 1) * layout.wordBits ≤ offset := by
      rw [← Nat.le_div_iff_mul_le hk]
      omega
    refine ⟨hlong, ?_⟩
    rw [hbit, setRange_apply, if_neg fun h => hbefore h.1, bit_update_store hk, hmask,
      if_neg (by simp)]
  · simp at hbits

/-- **A change is exact for every content** exactly where its shifts go right. -/
theorem change_exact_iff {value : Bool} {offset n room : ℕ}
    (hroom : offset < layout.wordBits → room = layout.wordBits - offset) :
    (∀ data : layout.Data, ∃ last, change layout value data offset n room = some last ∧
      bit last = setRange (bit data) offset value n) ↔ Shiftable layout offset n := by
  constructor
  · intro hexact
    have hk := layout.wordBits_pos
    obtain ⟨last, hchange, hbit⟩ := hexact fun _ => filled !value
    have hhead : offset % layout.wordBits = 0 ∨ offset < layout.wordBits ∨
        n = 0 ∧ offset < layout.longBits := by
      by_contra hbad
      simp only [not_or, not_and, not_lt] at hbad
      obtain ⟨hlong, hsame⟩ := bit_change_unaligned hbad.2.1 hbad.1 hchange
      have hpos : n ≠ 0 := fun hzero => absurd (hbad.2.2 hzero) (by omega)
      rw [hbit, setRange_apply, if_pos ⟨le_rfl, by omega⟩, bit,
        getLsbD_filled (Nat.mod_lt _ hk)] at hsame
      simp at hsame
    refine ⟨hhead, ?_⟩
    rw [rest]
    rw [change] at hchange
    by_cases haligned : offset % layout.wordBits = 0
    · rw [if_neg (not_not.2 haligned)] at hchange
      rw [if_pos haligned]
      exact of_changeTail hchange
    · rw [if_pos haligned] at hchange
      rw [if_neg haligned]
      rcases hhead.resolve_left haligned with hfirst | ⟨rfl, -⟩
      · obtain ⟨middle, -, htail⟩ := Option.bind_eq_some_iff.1 hchange
        rw [(room_eq hfirst).1, ← hroom hfirst]
        exact of_changeTail htail
      · exact .inl (by rw [Nat.zero_sub, Nat.zero_mod])
  · exact fun hshift data => bit_change hshift hroom

/-- **Marking and unmarking** change the bits of the range and no others, whatever the
block holds, exactly where the shifts go right. -/
theorem mark_unmark_exact_iff (layout : Layout) (offset n : ℕ) :
    ((∀ data : layout.Data, ∃ last, mark layout data offset n = some last ∧
        bit last = setRange (bit data) offset false n) ↔ Shiftable layout offset n) ∧
      ((∀ data : layout.Data, ∃ last, unmark layout data offset n = some last ∧
        bit last = setRange (bit data) offset true n) ↔ Shiftable layout offset n) :=
  ⟨change_exact_iff fun hfirst => (room_eq hfirst).1,
    change_exact_iff fun hfirst => (room_eq hfirst).2⟩

/-- A PC: words and `unsigned long` of 64 bits, `int` of 32; blocks of 512 bytes with chunks
of 4. -/
def pc : Layout where
  blockSize := 512
  chunkSize := 4
  wordBits := 64
  longBits := 64
  intBits := 32
  summaryBits := 8
  chunkSize_pos := by decide
  chunkSize_le := by decide
  wordBits_pos := by decide
  wordBits_le := by decide
  map_lt := by decide

/-- Forty chunks from the start of the map on are marked with an `int` shifted by forty, and
one chunk of the second word is freed with a word shifted by sixty-five. -/
theorem not_mark_unmark_exact :
    (¬ ∀ (data : pc.Data) (offset n : ℕ), offset + n ≤ 8 * pc.blockSize →
      ∃ last, mark pc data offset n = some last ∧
        bit last = setRange (bit data) offset false n) ∧
    ¬ ∀ (data : pc.Data) (offset n : ℕ), offset + n ≤ 8 * pc.blockSize →
      ∃ last, unmark pc data offset n = some last ∧
        bit last = setRange (bit data) offset true n := by
  constructor
  · intro hexact
    obtain ⟨last, hmark, -⟩ := hexact (fun _ => filled true) 0 40 (by decide)
    have hnone : mark pc (fun _ => filled true) 0 40 = none := by decide
    simp [hnone] at hmark
  · intro hexact
    obtain ⟨last, hunmark, -⟩ := hexact (fun _ => filled false) 65 1 (by decide)
    have hnone : unmark pc (fun _ => filled false) 65 1 = none := by decide
    simp [hnone] at hunmark

end Wiselib.ChunkMap
