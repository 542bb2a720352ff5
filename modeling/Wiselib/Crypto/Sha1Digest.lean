import Wiselib.Library.SecureHash
import Wiselib.Crypto.Sha1

/-!
# The digest and the tag are the standard ones

`crypto/sha1.h` against the secure hash and the keyed hash as they are defined.

## Strategy

A context is described by the octets it has been given (`Absorbed`): the hash value
behind the full blocks, the octets behind them and the length.  One octet keeps the
description (`absorbed_updateOctet`), so any splitting into calls does.

The rounds use sixteen words in turn; word `j` of the schedule is in place `j % 16`
until round `j + 16` (`foldl_round`).

The key of `hmac_sha1` is not hashed where it is longer than a block.  It is copied to
an array of 65 octets of which 64 are used, so that a longer key does not fit, and
from one of 65 octets the last is ignored.
-/

namespace Wiselib.Crypto.Sha1

open Digits
open SecureHash (State compress schedule absorb blockAt padded padding numberOctets)

/-! ## Words -/

/-- The registers as a hash value. -/
def Registers.state (r : Registers) : State := ⟨r.wA, r.wB, r.wC, r.wD, r.wE⟩

theorem circularShift_eq {bits : ℕ} (hbits : bits < 32) (word : Word) :
    circularShift bits word = word.rotateLeft bits := by
  rw [circularShift, BitVec.rotateLeft, BitVec.rotateLeftAux, Nat.mod_eq_of_lt hbits]

/-- The choice and the majority are the same with either connective. -/
theorem roundFunction_eq (t : ℕ) (x y z : Word) :
    roundFunction t x y z = SecureHash.f t x y z := by
  unfold roundFunction SecureHash.f
  split_ifs
  · apply BitVec.eq_of_getLsbD_eq
    intro i hi
    simp only [BitVec.getLsbD_or, BitVec.getLsbD_and, BitVec.getLsbD_xor, BitVec.getLsbD_not, hi,
      decide_true, Bool.true_and]
    cases x.getLsbD i <;> simp
  · rfl
  · apply BitVec.eq_of_getLsbD_eq
    intro i hi
    simp only [BitVec.getLsbD_or, BitVec.getLsbD_and, BitVec.getLsbD_xor]
    cases x.getLsbD i <;> cases y.getLsbD i <;> simp
  · rfl

theorem roundConstants_getD {t : ℕ} (ht : t < 80) :
    roundConstants.getD (t / 20) 0 = SecureHash.k t := by
  have hdiv := Nat.div_add_mod t 20
  have hmod := Nat.mod_lt t (show 0 < 20 by decide)
  unfold SecureHash.k
  split_ifs with hfirst hsecond hthird
  · rw [show t / 20 = 0 by omega]
    rfl
  · rw [show t / 20 = 1 by omega]
    rfl
  · rw [show t / 20 = 2 by omega]
    rfl
  · rw [show t / 20 = 3 by omega]
    rfl

theorem octet_eq (word : Word) (i : ℕ) : (word >>> i).setWidth 8 = word.extractLsb' i 8 := by
  apply BitVec.eq_of_toNat_eq
  rw [BitVec.toNat_setWidth, BitVec.toNat_ushiftRight, BitVec.extractLsb'_toNat]

theorem wordOctets_eq (word : Word) : wordOctets word = SecureHash.octets word := by
  rw [wordOctets, octet_eq, octet_eq, octet_eq, SecureHash.octets, ← octet_eq word 0,
    BitVec.ushiftRight_zero]

theorem toNat_shiftLeft_octet {i : ℕ} (hi : i ≤ 24) (octet : Octet) :
    (octet.setWidth 32 <<< i).toNat = octet.toNat <<< i := by
  have hoctet := octet.isLt
  rw [BitVec.toNat_shiftLeft, BitVec.toNat_setWidth, Nat.mod_eq_of_lt (a := octet.toNat) (by omega)]
  refine Nat.mod_eq_of_lt ?_
  rw [Nat.shiftLeft_eq]
  calc octet.toNat * 2 ^ i < 2 ^ 8 * 2 ^ i := by gcongr
    _ = 2 ^ (8 + i) := by rw [pow_add]
    _ ≤ 2 ^ 32 := Nat.pow_le_pow_right (by decide) (by omega)

theorem word_eq (first second third fourth : Octet) :
    first.setWidth 32 <<< 24 ||| second.setWidth 32 <<< 16 ||| third.setWidth 32 <<< 8 |||
      fourth.setWidth 32 = SecureHash.word first second third fourth := by
  apply BitVec.eq_of_toNat_eq
  have hlast := toNat_shiftLeft_octet (show 0 ≤ 24 by decide) fourth
  rw [BitVec.shiftLeft_zero] at hlast
  simp only [BitVec.toNat_or, toNat_shiftLeft_octet (show 24 ≤ 24 by decide),
    toNat_shiftLeft_octet (show 16 ≤ 24 by decide), toNat_shiftLeft_octet (show 8 ≤ 24 by decide),
    hlast, SecureHash.word, BitVec.toNat_append, Nat.shiftLeft_or_distrib, ← Nat.shiftLeft_add,
    Nat.shiftLeft_zero]

/-! ## Rounds -/

section Rounds

variable {block : List Octet} {n t : ℕ} {r : Registers × List Word}

theorem blockWords_getD (ht : t < 16) : (blockWords block).getD t 0 = schedule block t := by
  rw [schedule, if_pos ht, blockWords, List.getD_eq_getElem?_getD, List.getElem?_map,
    List.getElem?_range ht, Option.map_some, Option.getD_some, word_eq, Nat.mul_comm t 4]

/-- The sixteen words before the round `n`: those of the schedule that are still needed. -/
structure Turned (block : List Octet) (n : ℕ) (W : List Word) : Prop where
  length : W.length = 16
  window : ∀ j < max n 16, n ≤ j + 16 → W.getD (j % 16) 0 = schedule block j

theorem turned_blockWords (block : List Octet) : Turned block 0 (blockWords block) where
  length := by rw [blockWords, List.length_map, List.length_range]
  window j hj _ := by
    have hfirst : j < 16 := by omega
    rw [Nat.mod_eq_of_lt hfirst]
    exact blockWords_getD hfirst

/-- **The word of a round** takes the place of the one that is sixteen rounds old. -/
theorem turned_round (hr : Turned block n r.2) : Turned block (n + 1) (round r n).2 := by
  unfold round
  dsimp only
  split_ifs with hn
  · refine ⟨by rw [List.length_set, hr.length], fun j hj hnj => ?_⟩
    rw [List.getD_eq_getElem?_getD, List.getElem?_set]
    rw [max_eq_left (by omega)] at hj
    split_ifs with hplace hlength
    · have hjn : j = n := by omega
      have hterm : ∀ i, i < n → n ≤ i + 16 → ∀ place, place = i % 16 →
          r.2.getD place 0 = schedule block i := by
        rintro i hi hni _ rfl
        exact hr.window i (by omega) hni
      rw [Option.getD_some, hjn, schedule, if_neg (by omega), circularShift_eq (by decide),
        hterm (n - 3) (by omega) (by omega) _ (by omega),
        hterm (n - 8) (by omega) (by omega) _ (by omega),
        hterm (n - 14) (by omega) (by omega) _ (by omega),
        hterm (n - 16) (by omega) (by omega) _ (by omega)]
    · exact absurd (Nat.mod_lt n (by decide)) (hr.length ▸ hlength)
    · rw [← List.getD_eq_getElem?_getD]
      have hjn : j ≠ n := fun hjn => hplace (by rw [hjn])
      exact hr.window j (by omega) (by omega)
  · exact ⟨hr.length, fun j hj hnj => hr.window j (by omega) (by omega)⟩

theorem state_round (hn : n < 80) (hr : Turned block n r.2) :
    (round r n).1.state = SecureHash.round block r.1.state n := by
  have hword : (round r n).2.getD (n % 16) 0 = schedule block n :=
    (turned_round hr).window n (by omega) (by omega)
  unfold round at hword ⊢
  dsimp only at hword ⊢
  rw [hword, circularShift_eq (by decide), circularShift_eq (by decide), roundFunction_eq,
    roundConstants_getD hn]
  simp only [Registers.state, SecureHash.round, State.mk.injEq, and_true]
  ring

/-- **The rounds.** -/
theorem foldl_round (hn : n ≤ 80) (h : Registers) :
    Turned block n ((List.range n).foldl round (h, blockWords block)).2 ∧
      ((List.range n).foldl round (h, blockWords block)).1.state =
        (List.range n).foldl (SecureHash.round block) h.state := by
  induction n with
  | zero => exact ⟨turned_blockWords block, rfl⟩
  | succ n ih =>
      obtain ⟨hturned, hstate⟩ := ih (by omega)
      rw [List.range_succ, List.foldl_append, List.foldl_append, List.foldl_cons, List.foldl_nil,
        List.foldl_cons, List.foldl_nil]
      exact ⟨turned_round hturned, by rw [state_round (by omega) hturned, hstate]⟩

/-- **A block.** -/
theorem state_processMessageBlock (context : Sha1Context) :
    (processMessageBlock context).intermediateHash.state =
      compress context.intermediateHash.state context.messageBlock := by
  rw [compress, ← (foldl_round le_rfl context.intermediateHash).2]
  rfl

theorem fields_processMessageBlock (context : Sha1Context) :
    (processMessageBlock context).computed = context.computed ∧
      (processMessageBlock context).corrupted = context.corrupted ∧
      (processMessageBlock context).lengthHigh = context.lengthHigh ∧
      (processMessageBlock context).lengthLow = context.lengthLow ∧
      (processMessageBlock context).messageBlock = [] := by
  unfold processMessageBlock
  exact ⟨rfl, rfl, rfl, rfl, rfl⟩

end Rounds

/-! ## Octets -/

section Messages

variable {context : Sha1Context} {m message : List Octet} {n : ℕ} {high low : Word}

theorem sixtyfour_mul_div_le (m : List Octet) : 64 * (m.length / 64) ≤ m.length :=
  Nat.mul_div_le _ _

/-- A context that has been given the octets `m`. -/
structure Absorbed (context : Sha1Context) (m : List Octet) : Prop where
  computed : context.computed = false
  corrupted : context.corrupted = 0
  length : context.lengthHigh.toNat * 2 ^ 32 + context.lengthLow.toNat = 8 * m.length
  messageBlock : context.messageBlock = m.drop (64 * (m.length / 64))
  state : context.intermediateHash.state = absorb m (m.length / 64)

theorem absorbed_reset : Absorbed reset [] where
  computed := rfl
  corrupted := rfl
  length := by decide
  messageBlock := rfl
  state := rfl

/-- **The carry.**  The lower word is a multiple of eight, so that it becomes zero where it is
full. -/
theorem length_carry (hlength : high.toNat * 2 ^ 32 + low.toNat = 8 * n)
    (hn : 8 * (n + 1) < 2 ^ 64) (hzero : low + 8 = 0) :
    high + 1 ≠ 0 ∧ (high + 1).toNat * 2 ^ 32 + (low + 8).toNat = 8 * (n + 1) := by
  have hlow := low.isLt
  have hsum : (low + 8).toNat = (low.toNat + 8) % 2 ^ 32 := BitVec.toNat_add _ _
  have hhigh : (high + 1).toNat = (high.toNat + 1) % 2 ^ 32 := BitVec.toNat_add _ _
  have hnone : (low + 8).toNat = 0 := by rw [hzero]; rfl
  constructor
  · intro hwrap
    have hwrapped : (high + 1).toNat = 0 := by rw [hwrap]; rfl
    omega
  · have hfull : low.toNat = 2 ^ 32 - 8 := by omega
    have hnext : (high + 1).toNat = high.toNat + 1 := by
      rw [hhigh, Nat.mod_eq_of_lt (by omega)]
    calc (high + 1).toNat * 2 ^ 32 + (low + 8).toNat = high.toNat * 2 ^ 32 + low.toNat + 8 := by
          rw [hnone, hnext, hfull, add_mul, add_zero, add_assoc, one_mul,
            Nat.sub_add_cancel (by decide)]
      _ = 8 * (n + 1) := by rw [hlength, Nat.mul_succ]

theorem length_noCarry (hlength : high.toNat * 2 ^ 32 + low.toNat = 8 * n)
    (hne : low + 8 ≠ 0) : high.toNat * 2 ^ 32 + (low + 8).toNat = 8 * (n + 1) := by
  have hlow := low.isLt
  have hsum : (low + 8).toNat = (low.toNat + 8) % 2 ^ 32 := BitVec.toNat_add _ _
  have hpos : (low + 8).toNat ≠ 0 := fun hzero => hne (BitVec.eq_of_toNat_eq hzero)
  omega

theorem absorbed_full {octet : Octet} (hcomputed : context.computed = false)
    (hcorrupted : context.corrupted = 0)
    (hlength : context.lengthHigh.toNat * 2 ^ 32 + context.lengthLow.toNat = 8 * (m.length + 1))
    (hblock : context.messageBlock = m.drop (64 * (m.length / 64)) ++ [octet])
    (hstate : context.intermediateHash.state = absorb m (m.length / 64)) :
    Absorbed (if context.messageBlock.length = 64 then processMessageBlock context else context)
      (m ++ [octet]) := by
  have hle := sixtyfour_mul_div_le m
  have hsize : context.messageBlock.length = m.length % 64 + 1 := by
    rw [hblock, List.length_append, List.length_drop, List.length_singleton]
    omega
  have hm : m = m.take (64 * (m.length / 64)) ++ m.drop (64 * (m.length / 64)) :=
    (List.take_append_drop _ _).symm
  have hmore : (m ++ [octet]).length = m.length + 1 := List.length_append
  split_ifs with hfull
  · have hnext : (m.length + 1) / 64 = m.length / 64 + 1 := by omega
    obtain ⟨hsameComputed, hsameCorrupted, hhigh, hlow, hempty⟩ :=
      fields_processMessageBlock context
    refine ⟨hsameComputed.trans hcomputed, hsameCorrupted.trans hcorrupted, ?_, ?_, ?_⟩
    · rw [hhigh, hlow, hmore, hlength]
    · rw [hempty, List.drop_eq_nil_of_le (by omega)]
    · have hlast : blockAt (m ++ [octet]) (m.length / 64) = context.messageBlock := by
        have hbehind := @SecureHash.blockAt_eq (m.length / 64) (m.take (64 * (m.length / 64)))
          context.messageBlock [] (by rw [List.length_take]; omega) hfull
        rwa [hblock, List.append_nil, ← List.append_assoc, ← hm, ← hblock] at hbehind
      rw [state_processMessageBlock, hstate, hmore, hnext, SecureHash.absorb_succ,
        SecureHash.absorb_append hle, hlast]
  · have hsame : (m.length + 1) / 64 = m.length / 64 := by omega
    refine ⟨hcomputed, hcorrupted, by rw [hmore]; exact hlength, ?_, ?_⟩
    · rw [hmore, hsame, List.drop_append_of_le_length hle, hblock]
    · rw [hmore, hsame, SecureHash.absorb_append hle, hstate]

/-- **One octet.** -/
theorem absorbed_updateOctet (h : Absorbed context m) (hm : 8 * (m.length + 1) < 2 ^ 64)
    (octet : Octet) : Absorbed (updateOctet context octet) (m ++ [octet]) := by
  unfold updateOctet
  dsimp only
  by_cases hzero : context.lengthLow + 8 = 0
  · obtain ⟨hne, hlength⟩ := length_carry h.length hm hzero
    rw [if_pos hzero]
    refine absorbed_full h.computed ?_ hlength (by rw [← h.messageBlock]) h.state
    rw [if_neg hne]
    exact h.corrupted
  · rw [if_neg hzero]
    exact absorbed_full h.computed h.corrupted (length_noCarry h.length hzero)
      (by rw [← h.messageBlock]) h.state

theorem absorbed_updateLoop (h : Absorbed context m)
    (hm : 8 * (m.length + message.length) < 2 ^ 64) :
    Absorbed (updateLoop context message) (m ++ message) := by
  induction message generalizing context m with
  | nil =>
      rw [List.append_nil]
      exact h
  | cons octet message ih =>
      rw [List.length_cons] at hm
      have hnext := absorbed_updateOctet h (by omega) octet
      rw [updateLoop, if_neg (not_not.2 h.corrupted), List.append_cons]
      refine ih hnext ?_
      rw [List.length_append, List.length_singleton]
      omega

/-- **One call.** -/
theorem absorbed_update (h : Absorbed context m)
    (hm : 8 * (m.length + message.length) < 2 ^ 64) :
    Absorbed (update context message) (m ++ message) := by
  unfold update
  split_ifs with hempty hcomputed
  · rw [hempty, List.append_nil]
    exact h
  · exact absurd hcomputed (by simp [h.computed])
  · exact absorbed_updateLoop h hm

/-- **Successive calls**, however the octets are split. -/
theorem absorbed_foldl {pieces : List (List Octet)} (h : Absorbed context m)
    (hm : 8 * (m.length + pieces.flatten.length) < 2 ^ 64) :
    Absorbed (pieces.foldl update context) (m ++ pieces.flatten) := by
  induction pieces generalizing context m with
  | nil =>
      rw [List.flatten_nil, List.append_nil]
      exact h
  | cons piece pieces ih =>
      rw [List.flatten_cons, List.length_append] at hm
      rw [List.foldl_cons, List.flatten_cons, ← List.append_assoc]
      refine ih (absorbed_update h (by omega)) ?_
      rw [List.length_append]
      omega

/-! ## Digests -/

theorem lengthOctets_eq (h : Absorbed context m) :
    wordOctets context.lengthHigh ++ wordOctets context.lengthLow =
      numberOctets 8 (8 * m.length) := by
  rw [wordOctets_eq, wordOctets_eq, SecureHash.octets_append_octets, h.length]

/-- **The padding**, where it fits behind the message and where it takes one block more. -/
theorem state_padMessage (h : Absorbed context m) :
    (padMessage context).intermediateHash.state =
      absorb (padded m) ((padded m).length / 64) := by
  have hlt := Nat.mod_lt m.length (show 0 < 64 by decide)
  have hlength : context.messageBlock.length = m.length % 64 := by
    rw [h.messageBlock, SecureHash.length_rest]
  have hlengthMore (octet : Octet) :
      (context.messageBlock ++ [octet]).length = m.length % 64 + 1 := by
    rw [List.length_append, hlength, List.length_singleton]
  rw [SecureHash.length_padded, Nat.mul_div_cancel_left _ (by decide)]
  unfold padMessage
  dsimp only
  rw [hlengthMore, hlength]
  by_cases hlong : 55 < m.length % 64
  · rw [if_pos hlong, if_neg (by omega), SecureHash.absorb_padded_long hlong,
      ← lengthOctets_eq h, ← h.state, ← h.messageBlock]
    obtain ⟨-, -, hhigh, hlow, -⟩ := fields_processMessageBlock
      { context with messageBlock := context.messageBlock ++ [0x80] ++
          List.replicate (64 - (m.length % 64 + 1)) 0 }
    rw [state_processMessageBlock, hhigh, hlow, state_processMessageBlock,
      show 64 - (m.length % 64 + 1) = 63 - m.length % 64 by omega]
    dsimp only
    rw [List.append_assoc (List.replicate 56 0)]
  · rw [if_neg hlong, if_pos (by omega), SecureHash.absorb_padded_short (by omega),
      ← lengthOctets_eq h, ← h.state, ← h.messageBlock, state_processMessageBlock,
      show 56 - (m.length % 64 + 1) = 55 - m.length % 64 by omega]
    dsimp only
    rw [List.append_assoc (context.messageBlock ++ [0x80] ++ _)]

/-- **The digest of a message.** -/
theorem digest_eq (h : Absorbed context m) (old : List Octet) :
    (digest context old).2 = SecureHash.sha1 m := by
  have hstate := state_padMessage h
  rw [digest, if_neg (not_not.2 h.corrupted), if_neg (by simp [h.computed])]
  dsimp only
  rw [wordOctets_eq, wordOctets_eq, wordOctets_eq, wordOctets_eq, wordOctets_eq, SecureHash.sha1,
    ← hstate]
  rfl

theorem digest_update_update {first second : List Octet}
    (hlength : 8 * (first.length + second.length) < 2 ^ 64) (old : List Octet) :
    (digest (update (update reset first) second) old).2 = SecureHash.sha1 (first ++ second) := by
  have hfirst := @absorbed_update reset [] first absorbed_reset (by
    rw [List.length_nil]
    omega)
  exact digest_eq (absorbed_update hfirst hlength) old

end Messages

/-! ## Tags -/

section Tags

variable {text key : List Octet}

/-- `hmac_sha1` with its two arrays of 65 octets, `none` where it copies a key beyond them. -/
def hmacSha1Arrays (text key messageDigest : List Octet) : Option (List Octet) :=
  if key.length ≤ 65 then some (hmacSha1 text key messageDigest) else none

theorem takeD_eq_keyBlock (hkey : key.length ≤ 64) (hash : List Octet → List Octet) :
    key.takeD 64 0 = SecureHash.keyBlock hash 64 key := by
  have happend : ∀ (key : List Octet) (n : ℕ), key.length ≤ n →
      key.takeD n 0 = key ++ List.replicate (n - key.length) 0 := by
    intro key
    induction key with
    | nil => exact fun n _ => List.takeD_nil n 0
    | cons octet key ih =>
        rintro (_ | n) hn
        · exact absurd hn (by simp)
        · rw [List.takeD_succ, List.length_cons, Nat.add_sub_add_right, List.cons_append]
          exact congrArg _ (ih n (by simpa using hn))
  rw [SecureHash.keyBlock_of_le hkey, happend key 64 hkey]

/-- **The tag** of a text with a key that fits a block. -/
theorem hmacSha1_eq (hkey : key.length ≤ 64) (htext : 8 * (64 + text.length) < 2 ^ 64)
    (old : List Octet) : hmacSha1 text key old = SecureHash.hmac SecureHash.sha1 64 key text := by
  have hinner := @digest_update_update (keyPad key 0x36) text (by rwa [length_keyPad]) old
  have houter := @digest_update_update (keyPad key 0x5c)
    (SecureHash.sha1 (keyPad key 0x36 ++ text))
    (by rw [length_keyPad, SecureHash.length_sha1]; decide)
    (SecureHash.sha1 (keyPad key 0x36 ++ text))
  rw [hmacSha1, hinner, houter, SecureHash.hmac, keyPad, keyPad,
    takeD_eq_keyBlock hkey SecureHash.sha1]

/-- **A key of 65 octets** is not hashed. -/
theorem hmacSha1_longKey :
    hmacSha1 [] (List.replicate 65 0) [] ≠
      SecureHash.hmac SecureHash.sha1 64 (List.replicate 65 0) [] := by
  have hkey := @digest_update_update [] (List.replicate 65 0) (by decide) []
  rw [List.nil_append, show update reset [] = reset from if_pos rfl] at hkey
  rw [SecureHash.hmac_of_lt (by decide) (by rw [SecureHash.length_sha1]; decide),
    ← hmacSha1_eq (by rw [SecureHash.length_sha1]; decide) (by decide) [], ← hkey]
  decide +kernel

end Tags

/-! ## The results -/

/-- **Messages and keys.**  The digest is the standard one for every message below `2 ^ 64` bits
and every splitting, and the tag for all keys of a length if and only if they fit a block. -/
theorem digest_right_hmac_right_iff (pieces : List (List Octet)) (old : List Octet)
    (hlength : 8 * pieces.flatten.length < 2 ^ 64) (L : ℕ) :
    (digest (pieces.foldl update reset) old).2 = SecureHash.sha1 pieces.flatten ∧
      ((∀ key text old : List Octet, key.length = L → 8 * (64 + text.length) < 2 ^ 64 →
        hmacSha1Arrays text key old = some (SecureHash.hmac SecureHash.sha1 64 key text)) ↔
          L ≤ 64) := by
  refine ⟨?_, fun hright => ?_, ?_⟩
  · have habsorbed := absorbed_foldl absorbed_reset (by
      rw [List.length_nil, Nat.zero_add]
      exact hlength)
    exact digest_eq habsorbed old
  · by_contra hlong
    have htag := hright (List.replicate L 0) [] [] (List.length_replicate) (by decide)
    rcases Nat.lt_or_ge 65 L with hmore | hnone
    · rw [hmacSha1Arrays, if_neg (by rw [List.length_replicate]; omega)] at htag
      exact absurd htag (by simp)
    · obtain rfl : L = 65 := by omega
      exact hmacSha1_longKey (Option.some.inj htag)
  · rintro hshort key text old rfl htext
    rw [hmacSha1Arrays, if_pos (by omega), hmacSha1_eq hshort htext]

/-- The digest of `abc` in two parts, and the tag of `Hi There` with a key of twenty octets. -/
theorem digest_right_hmac_right_iff_abc :
    SecureHash.sha1 [0x61, 0x62, 0x63] =
        [0xA9, 0x99, 0x3E, 0x36, 0x47, 0x06, 0x81, 0x6A, 0xBA, 0x3E, 0x25, 0x71, 0x78, 0x50, 0xC2,
          0x6C, 0x9C, 0xD0, 0xD8, 0x9D] ∧
      SecureHash.hmac SecureHash.sha1 64 (List.replicate 20 0x0b)
          [0x48, 0x69, 0x20, 0x54, 0x68, 0x65, 0x72, 0x65] =
        [0xb6, 0x17, 0x31, 0x86, 0x55, 0x05, 0x72, 0x64, 0xe2, 0x8b, 0xc0, 0xb6, 0xfb, 0x37, 0x8c,
          0x8e, 0xf1, 0x46, 0xbe, 0x00] := by
  have hright := digest_right_hmac_right_iff [[0x61], [0x62, 0x63]] [] (by decide) 20
  constructor
  · exact hright.1.symm.trans (by decide +kernel)
  · have htag := hright.2.2 (by decide) (List.replicate 20 0x0b)
      [0x48, 0x69, 0x20, 0x54, 0x68, 0x65, 0x72, 0x65] [] (by decide) (by decide)
    exact (Option.some.inj htag).symm.trans (by decide +kernel)

/-- A key of 65 octets gets a tag that is not the standard one. -/
theorem hmac_wrong :
    ¬ ∀ key text old : List Octet, 8 * (64 + text.length) < 2 ^ 64 →
      hmacSha1Arrays text key old = some (SecureHash.hmac SecureHash.sha1 64 key text) := by
  intro hright
  exact hmacSha1_longKey (Option.some.inj (hright (List.replicate 65 0) [] [] (by decide)))

end Wiselib.Crypto.Sha1
