import Mathlib

/-!
# The secure hash SHA-1 and keyed hashing

The hash of FIPS 180: a message is padded to whole blocks of 512 bits, each block is
expanded to a schedule of eighty words, and eighty rounds mix the schedule into five
words.  Messages consist of octets.

The message authentication of RFC 2104 hashes twice with a key, which is hashed
itself where it is longer than a block.

Blocks are taken off a message by their number (`blockAt`), so that a message that
grows keeps the blocks it has (`blockAt_append`, `absorb_append`).
-/

namespace SecureHash

/-- Octets. -/
abbrev Octet := BitVec 8

/-- Words. -/
abbrev Word := BitVec 32

/-! ## Words -/

/-- A word from its octets, the highest one first. -/
def word (first second third fourth : Octet) : Word := first ++ second ++ third ++ fourth

/-- The octets of a word, the highest one first. -/
def octets (w : Word) : List Octet :=
  [w.extractLsb' 24 8, w.extractLsb' 16 8, w.extractLsb' 8 8, w.extractLsb' 0 8]

/-- The functions of the rounds. -/
def f (t : ℕ) (x y z : Word) : Word :=
  if t < 20 then (x &&& y) ^^^ (~~~x &&& z)
  else if t < 40 then x ^^^ y ^^^ z
  else if t < 60 then (x &&& y) ^^^ (x &&& z) ^^^ (y &&& z)
  else x ^^^ y ^^^ z

/-- The constants of the rounds. -/
def k (t : ℕ) : Word :=
  if t < 20 then 0x5a827999 else if t < 40 then 0x6ed9eba1
  else if t < 60 then 0x8f1bbcdc else 0xca62c1d6

/-- The five words of a hash value. -/
structure State where
  a : Word
  b : Word
  c : Word
  d : Word
  e : Word

/-- The initial hash value. -/
def initial : State := ⟨0x67452301, 0xefcdab89, 0x98badcfe, 0x10325476, 0xc3d2e1f0⟩

/-! ## Blocks -/

/-- The word `t` of the schedule of a block. -/
def schedule (block : List Octet) (t : ℕ) : Word :=
  if t < 16 then
    word (block.getD (4 * t) 0) (block.getD (4 * t + 1) 0) (block.getD (4 * t + 2) 0)
      (block.getD (4 * t + 3) 0)
  else
    (schedule block (t - 3) ^^^ schedule block (t - 8) ^^^ schedule block (t - 14) ^^^
      schedule block (t - 16)).rotateLeft 1
termination_by t
decreasing_by all_goals omega

/-- The round `t`. -/
def round (block : List Octet) (s : State) (t : ℕ) : State :=
  ⟨s.a.rotateLeft 5 + f t s.b s.c s.d + s.e + k t + schedule block t, s.a, s.b.rotateLeft 30,
    s.c, s.d⟩

/-- The hash value behind a block. -/
def compress (h : State) (block : List Octet) : State :=
  let s := (List.range 80).foldl (round block) h
  ⟨h.a + s.a, h.b + s.b, h.c + s.c, h.d + s.d, h.e + s.e⟩

/-- The block `i` of a message. -/
def blockAt (message : List Octet) (i : ℕ) : List Octet := (message.drop (64 * i)).take 64

/-- The hash value behind the first `n` blocks of a message. -/
def absorb (message : List Octet) (n : ℕ) : State :=
  (List.range n).foldl (fun h i => compress h (blockAt message i)) initial

/-! ## Messages -/

/-- A number as `count` octets, the highest one first. -/
def numberOctets : ℕ → ℕ → List Octet
  | 0, _ => []
  | count + 1, n => BitVec.ofNat 8 (n / 256 ^ count) :: numberOctets count n

/-- The padding behind `length` octets: a one, zeros, and the length in bits as 64 bits. -/
def padding (length : ℕ) : List Octet :=
  0x80 :: (List.replicate ((119 - length % 64) % 64) 0 ++ numberOctets 8 (8 * length))

/-- The padded message. -/
def padded (message : List Octet) : List Octet := message ++ padding message.length

/-- **The digest** of a message. -/
def sha1 (message : List Octet) : List Octet :=
  let h := absorb (padded message) ((padded message).length / 64)
  octets h.a ++ octets h.b ++ octets h.c ++ octets h.d ++ octets h.e

/-- The key of `hmac` as a block. -/
def keyBlock (hash : List Octet → List Octet) (size : ℕ) (key : List Octet) : List Octet :=
  let key := if size < key.length then hash key else key
  key ++ List.replicate (size - key.length) 0

/-- **The keyed hash** of a text, for a hash with blocks of `size` octets. -/
def hmac (hash : List Octet → List Octet) (size : ℕ) (key text : List Octet) : List Octet :=
  let block := keyBlock hash size key
  hash (block.map (· ^^^ 0x5c) ++ hash (block.map (· ^^^ 0x36) ++ text))

/-! ## Messages that grow -/

section Grow

variable {message more : List Octet} {i n : ℕ}

theorem blockAt_append (hi : 64 * (i + 1) ≤ message.length) :
    blockAt (message ++ more) i = blockAt message i := by
  rw [blockAt, blockAt, List.drop_append_of_le_length (by omega), List.take_append_of_le_length]
  rw [List.length_drop]
  omega

theorem absorb_zero (message : List Octet) : absorb message 0 = initial := by
  rw [absorb, List.range_zero, List.foldl_nil]

theorem absorb_succ (message : List Octet) (n : ℕ) :
    absorb message (n + 1) = compress (absorb message n) (blockAt message n) := by
  rw [absorb, absorb, List.range_succ, List.foldl_append, List.foldl_cons, List.foldl_nil]

/-- **The blocks that are full** stay as they are. -/
theorem absorb_append (hn : 64 * n ≤ message.length) :
    absorb (message ++ more) n = absorb message n := by
  induction n with
  | zero => rw [absorb_zero, absorb_zero]
  | succ n ih => rw [absorb_succ, absorb_succ, ih (by omega), blockAt_append hn]

@[simp] theorem length_numberOctets (count n : ℕ) : (numberOctets count n).length = count := by
  induction count with
  | zero => rfl
  | succ count ih => rw [numberOctets, List.length_cons, ih]

theorem octets_append_octets (high low : Word) :
    octets high ++ octets low = numberOctets 8 (high.toNat * 2 ^ 32 + low.toNat) := by
  have hhigh := high.isLt
  have hlow := low.isLt
  simp only [octets, numberOctets, List.cons_append, List.nil_append]
  refine congrArg₂ _ ?_ <| congrArg₂ _ ?_ <| congrArg₂ _ ?_ <| congrArg₂ _ ?_ <|
    congrArg₂ _ ?_ <| congrArg₂ _ ?_ <| congrArg₂ _ ?_ <| congrArg₂ _ ?_ rfl
  all_goals
    apply BitVec.eq_of_toNat_eq
    rw [BitVec.extractLsb'_toNat, BitVec.toNat_ofNat, Nat.shiftRight_eq_div_pow]
    omega

theorem blockAt_eq {before block after : List Octet} (hbefore : before.length = 64 * i)
    (hblock : block.length = 64) : blockAt (before ++ (block ++ after)) i = block := by
  rw [blockAt, ← hbefore, List.drop_left, ← hblock, List.take_left]

theorem length_padded (message : List Octet) :
    (padded message).length =
      64 * (message.length / 64 + if message.length % 64 ≤ 55 then 1 else 2) := by
  simp only [padded, padding, List.length_append, List.length_cons, List.length_replicate,
    length_numberOctets]
  split <;> omega

end Grow

/-! ## The last blocks

The octets behind the full blocks and the padding are one block or two. -/

section Last

variable {message : List Octet}

theorem length_full (message : List Octet) :
    (message.take (64 * (message.length / 64))).length = 64 * (message.length / 64) := by
  rw [List.length_take]
  omega

theorem length_rest (message : List Octet) :
    (message.drop (64 * (message.length / 64))).length = message.length % 64 := by
  rw [List.length_drop]
  omega

theorem padded_eq (message : List Octet) :
    padded message = message.take (64 * (message.length / 64)) ++
      (message.drop (64 * (message.length / 64)) ++ padding message.length) := by
  rw [← List.append_assoc, List.take_append_drop, padded]

theorem absorb_padded (message : List Octet) :
    absorb (padded message) (message.length / 64) = absorb message (message.length / 64) :=
  absorb_append (Nat.mul_div_le _ _)

/-- **The padding fits** behind up to 55 octets. -/
theorem absorb_padded_short (hshort : message.length % 64 ≤ 55) :
    absorb (padded message) (message.length / 64 + 1) =
      compress (absorb message (message.length / 64))
        (message.drop (64 * (message.length / 64)) ++ [0x80] ++
          List.replicate (55 - message.length % 64) 0 ++ numberOctets 8 (8 * message.length)) := by
  have hzeros : (119 - message.length % 64) % 64 = 55 - message.length % 64 := by omega
  have hblock := @blockAt_eq (message.length / 64) (message.take (64 * (message.length / 64)))
    (message.drop (64 * (message.length / 64)) ++ padding message.length) []
    (length_full message) (by
      simp only [padding, List.length_append, List.length_cons, List.length_replicate,
        length_numberOctets, length_rest, hzeros]
      omega)
  rw [List.append_nil, ← padded_eq] at hblock
  rw [absorb_succ, absorb_padded, hblock, padding, hzeros, List.append_assoc, List.append_assoc]
  rfl

/-- **The padding takes one block more** behind more octets. -/
theorem absorb_padded_long (hlong : 55 < message.length % 64) :
    absorb (padded message) (message.length / 64 + 2) =
      compress
        (compress (absorb message (message.length / 64))
          (message.drop (64 * (message.length / 64)) ++ [0x80] ++
            List.replicate (63 - message.length % 64) 0))
        (List.replicate 56 0 ++ numberOctets 8 (8 * message.length)) := by
  have hlt := Nat.mod_lt message.length (show 0 < 64 by decide)
  have hzeros : (119 - message.length % 64) % 64 = 63 - message.length % 64 + 56 := by omega
  set first := message.drop (64 * (message.length / 64)) ++ [0x80] ++
    List.replicate (63 - message.length % 64) 0 with hfirst
  set last := List.replicate 56 0 ++ numberOctets 8 (8 * message.length) with hlast
  have hlength : first.length = 64 := by
    simp only [hfirst, List.length_append, List.length_singleton, List.length_replicate,
      length_rest]
    omega
  have hlengthLast : last.length = 64 := by
    rw [hlast, List.length_append, List.length_replicate, length_numberOctets]
  have hpadded : padded message =
      message.take (64 * (message.length / 64)) ++ (first ++ last) := by
    rw [padded_eq, padding, hzeros, List.replicate_add, hfirst, hlast]
    simp only [List.append_assoc, List.cons_append, List.nil_append]
  have hblock := @blockAt_eq (message.length / 64) _ _ last (length_full message) hlength
  have hnext := @blockAt_eq (message.length / 64 + 1)
    (message.take (64 * (message.length / 64)) ++ first) last []
    (by rw [List.length_append, length_full, hlength]; omega) hlengthLast
  rw [List.append_nil, List.append_assoc] at hnext
  rw [absorb_succ, absorb_succ, absorb_padded, hpadded, hblock, hnext]

end Last

/-! ## Keys -/

section Keys

variable {hash : List Octet → List Octet} {size : ℕ} {key text : List Octet}

@[simp] theorem length_octets (w : Word) : (octets w).length = 4 := rfl

theorem length_sha1 (message : List Octet) : (sha1 message).length = 20 := by
  simp only [sha1, List.length_append, length_octets]

theorem keyBlock_of_le (hkey : key.length ≤ size) :
    keyBlock hash size key = key ++ List.replicate (size - key.length) 0 := by
  rw [keyBlock, if_neg (by omega)]

theorem hmac_of_lt (hkey : size < key.length) (hdigest : (hash key).length ≤ size) :
    hmac hash size key text = hmac hash size (hash key) text := by
  have hblock : keyBlock hash size key = keyBlock hash size (hash key) := by
    rw [keyBlock_of_le hdigest, keyBlock, if_pos hkey]
  rw [hmac, hmac, hblock]

end Keys

end SecureHash
