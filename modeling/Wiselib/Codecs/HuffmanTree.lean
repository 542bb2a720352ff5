import Mathlib

/-!
# The tree of the Huffman codec

`HuffmanCodec` of `algorithms/codecs/huffman_codec.h` keeps its tree as a string of
1024 brackets, `brackets_`, in which a bit that is set closes a node, and for every
byte the place of its leaf, spread over `index_` and `index_b_`.  The decoder goes
down the string bit by bit, the encoder goes up from the leaf of a byte.

## Strategy

The two ways through the string agree for every byte (`descend_code`): from the root
the bits of a code lead to the leaf of its byte, and through no leaf on the way.
This is decided from the tables.  So is that the leaves of the bytes are different,
which makes the search of the decoder for the byte of a leaf an inverse of the table
(`symbolAt_getIndex`).  For a whole string it follows by induction
(`decodeBits_codes`).
-/

namespace Wiselib.Codecs.Huffman

/-! ## The tables -/

/-- `brackets_`. -/
def brackets : List ℕ :=
  [2, 201, 36, 145, 101, 255, 137, 113, 111, 96, 151, 8, 91, 118, 75, 228, 8,
    68, 68, 18, 45, 225, 101, 220, 37, 219, 129, 96, 182, 220, 139, 16, 11, 108,
    184, 91, 47, 110, 248, 45, 145, 37, 239, 113, 22, 44, 128, 36, 189, 178, 225,
    108, 189, 151, 126, 72, 178, 255, 185, 37, 251, 176, 176, 91, 110, 241, 11,
    98, 201, 32, 178, 17, 46, 72, 91, 126, 201, 126, 8, 36, 89, 124, 184, 178, 22,
    92, 89, 127, 118, 37, 220, 128, 22, 66, 45, 201, 123, 197, 151, 178, 236, 139,
    123, 8, 22, 92, 91, 183, 18, 226, 222, 253, 254, 44, 137, 114, 254, 203, 151,
    192, 182, 75, 216, 89, 112, 182, 95, 192]

/-- `index_`, the low eight bits of the places. -/
def index : List ℕ :=
  [0, 192, 193, 190, 130, 131, 189, 121, 122, 132, 140, 141, 195, 203, 204, 123,
    127, 128, 134, 136, 137, 143, 145, 146, 197, 199, 200, 206, 208, 209, 119, 126,
    48, 24, 198, 49, 233, 202, 72, 191, 252, 253, 98, 19, 0, 46, 59, 34, 212, 215,
    233, 230, 225, 244, 224, 214, 231, 245, 7, 235, 27, 207, 31, 2, 16, 28, 7, 13,
    10, 41, 42, 15, 10, 12, 249, 243, 19, 68, 18, 208, 12, 255, 197, 200, 4, 15, 11,
    204, 70, 203, 21, 238, 9, 239, 248, 54, 220, 226, 56, 217, 218, 246, 228, 32,
    236, 237, 51, 66, 239, 240, 248, 40, 249, 18, 3, 6, 62, 4, 52, 26, 36, 58, 245,
    108, 105, 74, 16, 131, 36, 178, 148, 101, 179, 34, 116, 227, 151, 144, 81, 82,
    224, 73, 122, 141, 183, 96, 62, 98, 158, 180, 120, 170, 225, 99, 150, 182, 83,
    157, 79, 93, 173, 25, 87, 76, 188, 184, 88, 117, 177, 27, 228, 61, 123, 103, 38,
    184, 222, 51, 91, 48, 161, 159, 155, 181, 97, 108, 52, 185, 101, 177, 31, 107,
    148, 166, 174, 237, 158, 50, 114, 164, 165, 169, 112, 137, 165, 167, 152, 171,
    58, 146, 211, 213, 214, 150, 113, 125, 143, 33, 41, 162, 64, 65, 68, 40, 77,
    90, 79, 102, 152, 103, 29, 175, 172, 77, 168, 216, 44, 163, 43, 72, 67, 81,
    82, 84, 85, 88, 89, 91, 92, 113, 114, 116, 134, 135, 138, 161]

/-- `index_b_`, the ninth bit of the places. -/
def indexB : List ℕ :=
  [1, 129, 192, 3, 101, 56, 255, 197, 33, 193, 59, 96, 94, 206, 192, 27, 172,
    197, 228, 34, 220, 82, 82, 62, 45, 209, 192, 255, 158, 43, 255, 255]

/-- The bit of a table at a position, the highest of a byte first. -/
def tableBit (table : List ℕ) (i : ℕ) : Bool :=
  table.getD (i / 8) 0 &&& (0x80 >>> (i % 8)) ≠ 0

/-- The bracket at a position, set if it closes. -/
def bracket (i : ℕ) : Bool := tableBit brackets i

/-- The number of brackets. -/
def positions : ℕ := 128 * 8

/-- `get_index`, the place of the leaf of a byte. -/
def getIndex (c : ℕ) : ℕ :=
  let low := index.getD c 0
  let i := 2 * if tableBit indexB c then low ||| 0x100 else low
  if bracket i then i - 1 else i

/-! ## Going up -/

/-- The inner loop of `encode_internal`, from a closing bracket at `i` back to the one
that opens it; `none` where the loop would leave the table. -/
def skipBack : ℕ → ℕ → Option ℕ
  | 0, i => some i
  | _ + 1, 0 => none
  | count + 1, i + 1 =>
      if bracket i then skipBack (count + 2) i else skipBack count i

/-- The outer loop: the bits of the branches from a leaf up to the root, with what is
one more than `i` in the source.  `none` where they do not fit into `room` bits. -/
def symbolBits : ℕ → ℕ → Option (List Bool)
  | _, 0 => some []
  | 0, _ + 1 => none
  | room + 1, i + 1 =>
      if bracket i then do
        let opening ← skipBack 1 i
        let bits ← symbolBits room (opening - 1)
        return true :: bits
      else do
        let bits ← symbolBits room i
        return false :: bits

/-- `MAX_BITS_PER_SYMBOL`. -/
def maxBitsPerSymbol : ℕ := 64

/-- The code of a byte.  The bits of the symbol are taken from the last to the first. -/
def code (c : ℕ) : Option (List Bool) :=
  (symbolBits maxBitsPerSymbol (getIndex c)).map List.reverse

/-! ## Going down -/

/-- The inner loop of `decode_internal`, on over the subtree at `Ti` to the bracket
that closes it, where `room` brackets follow; `none` where the loop would leave the
table. -/
def skipForward : ℕ → ℕ → ℕ → Option ℕ
  | _, 0, Ti => some Ti
  | 0, _ + 1, _ => none
  | room + 1, count + 1, Ti =>
      if bracket (Ti + 1) then skipForward room count (Ti + 1)
      else skipForward room (count + 2) (Ti + 1)

/-- The node a bit leads to. -/
def descend (Ti : ℕ) (bit : Bool) : Option ℕ :=
  if bit then (skipForward (positions - 2 - Ti) 1 (Ti + 1)).map (· + 1)
  else some (Ti + 1)

/-- A node is a leaf if it closes at once. -/
def isLeaf (Ti : ℕ) : Bool :=
  decide (Ti + 1 < positions) && !bracket Ti && bracket (Ti + 1)

/-- The search for the byte of a leaf. -/
def symbolAt (Ti : ℕ) : Option ℕ :=
  if isLeaf Ti then (List.range 256).find? fun p => getIndex p = Ti else none

/-- The decoder takes a bit: the next node, or the root after a symbol. -/
def treeStep (Ti : ℕ) (bit : Bool) : Option (ℕ × Option ℕ) :=
  (descend Ti bit).map fun next =>
    match symbolAt next with
    | some p => (0, some p)
    | none => (next, none)

/-- The node and the symbols after some bits. -/
def decodeBits : ℕ → List Bool → Option (ℕ × List ℕ)
  | Ti, [] => some (Ti, [])
  | Ti, bit :: bits => do
      let (next, symbol) ← treeStep Ti bit
      let (last, symbols) ← decodeBits next bits
      return (last, symbol.toList ++ symbols)

/-! ## The two ways agree -/

/-- The bits lead to the leaf and through no leaf before. -/
def leadsTo (leaf : ℕ) : ℕ → List Bool → Bool
  | _, [] => false
  | Ti, [bit] => descend Ti bit = some leaf && isLeaf leaf
  | Ti, bit :: bits =>
      match descend Ti bit with
      | some next => !isLeaf next && leadsTo leaf next bits
      | none => false

/-- The bits pass no leaf. -/
def passes : ℕ → List Bool → Bool
  | _, [] => true
  | Ti, bit :: bits =>
      match descend Ti bit with
      | some next => !isLeaf next && passes next bits
      | none => false

variable {Ti c : ℕ} {bits more : List Bool} {symbols : List ℕ}

theorem decodeBits_append (hbits : decodeBits Ti bits = some (c, symbols)) :
    decodeBits Ti (bits ++ more) =
      (decodeBits c more).map fun last => (last.1, symbols ++ last.2) := by
  induction bits generalizing Ti symbols with
  | nil =>
      obtain ⟨rfl, rfl⟩ := Prod.mk.inj (Option.some.inj hbits)
      simp
  | cons bit bits ih =>
      obtain ⟨⟨next, symbol⟩, hstep, hbits⟩ := Option.bind_eq_some_iff.1 hbits
      obtain ⟨⟨last, rest⟩, hrest, heq⟩ := Option.bind_eq_some_iff.1 hbits
      obtain ⟨rfl, rfl⟩ := Prod.mk.inj (Option.some.inj heq)
      simp only [List.cons_append, decodeBits, hstep, Option.bind_eq_bind, Option.bind_some]
      rw [ih hrest]
      cases decodeBits last more with
      | none => rfl
      | some pair => simp

set_option maxRecDepth 4000 in
theorem nodup_indexes : ((List.range 256).map getIndex).Nodup := by
  decide +kernel

set_option maxRecDepth 4000 in
private theorem code_leadsTo :
    ∀ c < 256, c ≠ 0 → ((code c).map (leadsTo (getIndex c) 0)).getD false = true := by
  decide +kernel

/-- **The search inverts the table.** -/
theorem symbolAt_getIndex (hc : c < 256) (hleaf : isLeaf (getIndex c) = true) :
    symbolAt (getIndex c) = some c := by
  rw [symbolAt, if_pos hleaf, List.find?_range_eq_some]
  refine ⟨by simp, by simpa using hc, fun p hp => ?_⟩
  have hne : getIndex p ≠ getIndex c := by
    intro heq
    have hsame := List.inj_on_of_nodup_map nodup_indexes
      (List.mem_range.2 (hp.trans hc)) (List.mem_range.2 hc) heq
    omega
  simpa using hne

theorem symbolAt_of_not_leaf (hleaf : isLeaf Ti = false) : symbolAt Ti = none := by
  simp [symbolAt, hleaf]

theorem decodeBits_of_leadsTo (hc : c < 256) (hbits : leadsTo (getIndex c) Ti bits = true) :
    decodeBits Ti bits = some (0, [c]) := by
  induction bits generalizing Ti with
  | nil => exact absurd hbits (by simp [leadsTo])
  | cons bit bits ih =>
      cases bits with
      | nil =>
          simp only [leadsTo, Bool.and_eq_true, decide_eq_true_eq] at hbits
          simp [decodeBits, treeStep, hbits.1, symbolAt_getIndex hc hbits.2]
      | cons second bits =>
          simp only [leadsTo] at hbits
          cases hnext : descend Ti bit with
          | none => simp [hnext] at hbits
          | some next =>
              simp only [hnext, Bool.and_eq_true, Bool.not_eq_true'] at hbits
              rw [decodeBits]
              simp [treeStep, hnext, symbolAt_of_not_leaf hbits.1, ih hbits.2]

theorem descend_code (hc : c < 256) (hne : c ≠ 0) :
    ∃ bits, code c = some bits ∧ decodeBits 0 bits = some (0, [c]) := by
  have hleads := code_leadsTo c hc hne
  cases hcode : code c with
  | none => simp [hcode] at hleads
  | some bits =>
      rw [hcode] at hleads
      exact ⟨bits, rfl, decodeBits_of_leadsTo hc hleads⟩

/-- The codes of a string, one after the other. -/
def codes : List ℕ → Option (List Bool)
  | [] => some []
  | c :: string => do
      let bits ← code c
      let rest ← codes string
      return bits ++ rest

/-- **The codes of a string decode to the string**, and the decoder is back at the
root. -/
theorem decodeBits_codes {string : List ℕ} (hstring : ∀ c ∈ string, c < 256 ∧ c ≠ 0) :
    ∃ bits, codes string = some bits ∧ decodeBits 0 bits = some (0, string) := by
  induction string with
  | nil => exact ⟨[], rfl, rfl⟩
  | cons c string ih =>
      obtain ⟨hc, hne⟩ := hstring c List.mem_cons_self
      obtain ⟨bits, hcode, hbits⟩ := descend_code hc hne
      obtain ⟨rest, hrest, hdecoded⟩ := ih fun d hd => hstring d (List.mem_cons_of_mem _ hd)
      refine ⟨bits ++ rest, by simp [codes, hcode, hrest], ?_⟩
      rw [decodeBits_append hbits, hdecoded]
      rfl

end Wiselib.Codecs.Huffman
