import Mathlib

/-!
# Fields of bits in a byte array

`Bitwise_Serialization` of `util/serialization/bitwise_serialization.h`.  A field
begins at a bit of the first byte, counted from its highest one, and may go on
over several bytes.

## Strategy

`bitAt` numbers the bits of the array in that order.  Both loops are described bit
by bit: the loop of `write` puts the bits of the value into the field and leaves
every other bit (`bitAt_writeLoop`), and the loop of `read` appends the bits of the
field to the value (`testBit_readLoop`).  Each goes by one byte that the field goes
beyond, or by the last one (`getLsbD_writeLast`, `getLsbD_writeHead`).
-/

namespace Wiselib.Codecs.Bitwise

/-- `BlockData`. -/
abbrev Byte := BitVec 8

/-- The byte that a field ends in, in `write`. -/
def writeLast (byte : Byte) (value targetShift valueLength : ℕ) : Byte :=
  let mask := BitVec.ofNat 8 (0xFF <<< (8 - targetShift))
  let mask := mask ||| ~~~BitVec.ofNat 8 (0xFF <<< (8 - targetShift - valueLength))
  byte &&& mask ||| BitVec.ofNat 8 (value <<< (8 - valueLength - targetShift))

/-- A byte that a field goes beyond, in `write`, with `valueLength` bits left behind it. -/
def writeHead (byte : Byte) (value targetShift valueLength : ℕ) : Byte :=
  byte &&& ~~~BitVec.ofNat 8 (0xFF >>> targetShift) |||
    BitVec.ofNat 8 (value >>> valueLength &&& 0xFF)

/-- The loop of `write`. -/
def writeLoop (target : ℕ → Byte) (value targetShift valueLength position : ℕ) : ℕ → Byte :=
  if valueLength ≤ 8 - targetShift then
    Function.update target position (writeLast (target position) value targetShift valueLength)
  else
    let rest := valueLength - (8 - targetShift)
    writeLoop (Function.update target position (writeHead (target position) value targetShift rest))
      value 0 rest (position + 1)
termination_by (valueLength, targetShift)
decreasing_by
  rcases Nat.eq_zero_or_pos (8 - targetShift) with hzero | hpos
  · rw [hzero, Nat.sub_zero]
    exact Prod.Lex.right _ (by omega)
  · exact Prod.Lex.left _ _ (by omega)

/-- `write` of a value of a type of `size` bytes. -/
def write (size : ℕ) (target : ℕ → Byte) (value targetShift valueLength : ℕ) : ℕ → Byte :=
  writeLoop target value targetShift (if valueLength = 0 then size * 8 else valueLength) 0

/-- The mask of `read` for the bits from `targetShift` on. -/
def readMask (targetShift : ℕ) : ℕ :=
  (fun mask => mask / 2)^[targetShift] 0xFF

/-- The loop of `read`. -/
def readLoop (size : ℕ) (target : ℕ → Byte) (value targetShift valueLength position : ℕ) : ℕ :=
  let byte := (target position).toNat &&& readMask targetShift
  if valueLength ≤ 8 - targetShift then
    value <<< valueLength % 2 ^ (size * 8) ||| byte >>> (8 - valueLength - targetShift)
  else
    let rest := valueLength - (8 - targetShift)
    readLoop size target (value <<< (8 - targetShift) % 2 ^ (size * 8) ||| byte) 0 rest
      (position + 1)
termination_by (valueLength, targetShift)
decreasing_by
  rcases Nat.eq_zero_or_pos (8 - targetShift) with hzero | hpos
  · rw [hzero, Nat.sub_zero]
    exact Prod.Lex.right _ (by omega)
  · exact Prod.Lex.left _ _ (by omega)

/-- `read` of a value of a type of `size` bytes. -/
def read (size : ℕ) (target : ℕ → Byte) (targetShift valueLength : ℕ) : ℕ :=
  readLoop size target 0 targetShift (if valueLength = 0 then size * 8 else valueLength) 0

/-! ## Bits -/

/-- The bits of an array, those of a byte from the highest on. -/
def bitAt (target : ℕ → Byte) (k : ℕ) : Bool :=
  (target (k / 8)).getLsbD (7 - k % 8)

section Bits

variable {target : ℕ → Byte} {byte : Byte} {size value targetShift valueLength position k i : ℕ}

theorem testBit_ff (i : ℕ) : (0xFF : ℕ).testBit i = decide (i < 8) :=
  Nat.testBit_two_pow_sub_one 8 i

theorem bitAt_update (hk : k / 8 ≠ position) (byte : Byte) :
    bitAt (Function.update target position byte) k = bitAt target k := by
  rw [bitAt, bitAt, Function.update_of_ne hk]

theorem bitAt_update_self (hk : k / 8 = position) (byte : Byte) :
    bitAt (Function.update target position byte) k = byte.getLsbD (7 - k % 8) := by
  rw [bitAt, hk, Function.update_self]

/-- **The last byte** of a field, bit by bit. -/
theorem getLsbD_writeLast (hlast : valueLength ≤ 8 - targetShift) (hi : i < 8)
    (hvalue : targetShift = 0 ∨ value < 2 ^ valueLength) :
    (writeLast byte value targetShift valueLength).getLsbD i =
      if 8 - targetShift - valueLength ≤ i ∧ i < 8 - targetShift then
        value.testBit (i - (8 - targetShift - valueLength))
      else byte.getLsbD i := by
  have hsub : 8 - valueLength - targetShift = 8 - targetShift - valueLength := by omega
  simp only [writeLast, BitVec.getLsbD_or, BitVec.getLsbD_and, BitVec.getLsbD_not,
    BitVec.getLsbD_ofNat, Nat.testBit_shiftLeft, testBit_ff, hi, hsub, decide_true, Bool.true_and]
  by_cases hlow : 8 - targetShift - valueLength ≤ i
  · by_cases hhigh : i < 8 - targetShift
    · have hout : ¬ 8 - targetShift ≤ i := by omega
      have hsmall : i - (8 - targetShift - valueLength) < 8 := by omega
      simp [hlow, hhigh, hout, hsmall]
    · have hout : 8 - targetShift ≤ i := by omega
      have hsmall : i - (8 - targetShift) < 8 := by omega
      -- the value has no bits above the field
      have hbit : value.testBit (i - (8 - targetShift - valueLength)) = false := by
        refine Nat.testBit_lt_two_pow ((hvalue.resolve_left (by omega)).trans_le ?_)
        exact Nat.pow_le_pow_right two_pos (by omega)
      simp [hhigh, hout, hsmall, hbit]
  · simp [hlow]

/-- **A byte that the field goes beyond**, bit by bit. -/
theorem getLsbD_writeHead (hi : i < 8)
    (hvalue : targetShift = 0 ∨ value < 2 ^ (valueLength + (8 - targetShift))) :
    (writeHead byte value targetShift valueLength).getLsbD i =
      if i < 8 - targetShift then value.testBit (valueLength + i) else byte.getLsbD i := by
  simp only [writeHead, BitVec.getLsbD_or, BitVec.getLsbD_and, BitVec.getLsbD_not,
    BitVec.getLsbD_ofNat, Nat.testBit_shiftRight, Nat.testBit_and, testBit_ff, hi, decide_true,
    Bool.true_and, Bool.and_true]
  by_cases hfield : i < 8 - targetShift
  · have hmask : targetShift + i < 8 := by omega
    simp [hfield, hmask]
  · have hmask : ¬ targetShift + i < 8 := by omega
    have hbit : value.testBit (valueLength + i) = false := by
      refine Nat.testBit_lt_two_pow ((hvalue.resolve_left (by omega)).trans_le ?_)
      exact Nat.pow_le_pow_right two_pos (by omega)
    simp [hfield, hmask, hbit]

/-- **The loop of `write`** puts the bits of the value into the field, from the highest on, and
leaves every other bit. -/
theorem bitAt_writeLoop (hshift : targetShift < 8)
    (hvalue : targetShift = 0 ∨ value < 2 ^ valueLength) (k : ℕ) :
    bitAt (writeLoop target value targetShift valueLength position) k =
      if 8 * position + targetShift ≤ k ∧ k < 8 * position + targetShift + valueLength then
        value.testBit (8 * position + targetShift + valueLength - 1 - k)
      else bitAt target k := by
  have hdiv := Nat.div_add_mod k 8
  have hmod := Nat.mod_lt k (show 0 < 8 by decide)
  fun_induction writeLoop target value targetShift valueLength position with
  | case1 target targetShift valueLength position hlast =>
      by_cases hbyte : k / 8 = position
      · rw [bitAt_update_self hbyte, getLsbD_writeLast hlast (by omega) hvalue]
        have hiff : (8 - targetShift - valueLength ≤ 7 - k % 8 ∧ 7 - k % 8 < 8 - targetShift) ↔
            (8 * position + targetShift ≤ k ∧
              k < 8 * position + targetShift + valueLength) := by omega
        have hbit : bitAt target k = (target position).getLsbD (7 - k % 8) := by rw [bitAt, hbyte]
        rw [if_congr hiff rfl rfl, hbit]
        split
        · congr 1
          omega
        · rfl
      · rw [bitAt_update hbyte, if_neg (by omega)]
  | case2 target targetShift valueLength position hlast rest ih =>
      rw [ih (by decide) (Or.inl rfl)]
      have hrest : rest + (8 - targetShift) = valueLength := by omega
      by_cases hbyte : k / 8 = position
      · rw [if_neg (by omega), bitAt_update_self hbyte,
          getLsbD_writeHead (by omega) (by rwa [hrest])]
        have hiff : 7 - k % 8 < 8 - targetShift ↔
            (8 * position + targetShift ≤ k ∧
              k < 8 * position + targetShift + valueLength) := by omega
        have hbit : bitAt target k = (target position).getLsbD (7 - k % 8) := by rw [bitAt, hbyte]
        rw [if_congr hiff rfl rfl, hbit]
        split
        · congr 1
          omega
        · rfl
      · have hiff : (8 * (position + 1) + 0 ≤ k ∧ k < 8 * (position + 1) + 0 + rest) ↔
            (8 * position + targetShift ≤ k ∧
              k < 8 * position + targetShift + valueLength) := by omega
        rw [if_congr hiff rfl rfl, bitAt_update hbyte]
        split
        · congr 1
          omega
        · rfl

/-! ## Reading -/

theorem testBit_readMask (targetShift i : ℕ) :
    (readMask targetShift).testBit i = decide (i + targetShift < 8) := by
  have hdiv : ∀ mask, (fun mask => mask / 2)^[targetShift] mask = mask >>> targetShift := by
    intro mask
    induction targetShift generalizing mask with
    | zero => rfl
    | succ n ih =>
        rw [Function.iterate_succ_apply, ih, Nat.shiftRight_succ_inside]
  rw [readMask, hdiv, Nat.testBit_shiftRight, testBit_ff, Nat.add_comm]

theorem testBit_masked (i : ℕ) :
    ((target position).toNat &&& readMask targetShift).testBit i =
      (decide (i < 8 - targetShift) && bitAt target (8 * position + (7 - i))) := by
  rw [Nat.testBit_and, testBit_readMask]
  by_cases hi : i < 8 - targetShift
  · have hplace : (8 * position + (7 - i)) / 8 = position := by omega
    have hbit : 7 - (8 * position + (7 - i)) % 8 = i := by omega
    have hmask : i + targetShift < 8 := by omega
    rw [bitAt, hplace, hbit, decide_eq_true hi, decide_eq_true hmask, Bool.and_true, Bool.true_and]
    rfl
  · have hmask : ¬ i + targetShift < 8 := by omega
    rw [decide_eq_false hi, decide_eq_false hmask, Bool.and_false, Bool.false_and]

/-- **The loop of `read`** appends the bits of the field, as far as the type goes. -/
theorem testBit_readLoop (hshift : targetShift < 8) (hsize : valueLength ≤ size * 8) (i : ℕ) :
    (readLoop size target value targetShift valueLength position).testBit i =
      if i < valueLength then bitAt target (8 * position + targetShift + valueLength - 1 - i)
      else decide (i < size * 8) && value.testBit (i - valueLength) := by
  fun_induction readLoop size target value targetShift valueLength position with
  | case1 value targetShift valueLength position byte hlast =>
      rw [Nat.testBit_or, Nat.testBit_mod_two_pow, Nat.testBit_shiftLeft, Nat.testBit_shiftRight,
        testBit_masked]
      split
      · rename_i hi
        have hout : ¬ valueLength ≤ i := by omega
        have hin : 8 - valueLength - targetShift + i < 8 - targetShift := by omega
        have hplace : 8 * position + (7 - (8 - valueLength - targetShift + i)) =
            8 * position + targetShift + valueLength - 1 - i := by omega
        simp [hout, hin, hplace]
      · rename_i hi
        have hin : valueLength ≤ i := by omega
        have hout : ¬ 8 - valueLength - targetShift + i < 8 - targetShift := by omega
        simp [hout, hin]
  | case2 value targetShift valueLength position byte hlast rest ih =>
      rw [ih (by decide) (by omega)]
      by_cases hi : i < rest
      · have hin : i < valueLength := by omega
        have hplace : 8 * (position + 1) + 0 + rest - 1 - i =
            8 * position + targetShift + valueLength - 1 - i := by omega
        rw [if_pos hi, if_pos hin, hplace]
      · rw [if_neg hi, Nat.testBit_or, Nat.testBit_mod_two_pow, Nat.testBit_shiftLeft,
          testBit_masked]
        by_cases hbyte : i < valueLength
        · have hout : ¬ 8 - targetShift ≤ i - rest := by omega
          have hin : i - rest < 8 - targetShift := by omega
          have htype : i < size * 8 := by omega
          have hplace : 8 * position + (7 - (i - rest)) =
              8 * position + targetShift + valueLength - 1 - i := by omega
          simp [hbyte, hout, hin, htype, hplace]
        · have hin : 8 - targetShift ≤ i - rest := by omega
          have hout : ¬ i - rest < 8 - targetShift := by omega
          have hplace : i - rest - (8 - targetShift) = i - valueLength := by omega
          by_cases htype : i < size * 8
          · have htype' : i - rest < size * 8 := by omega
            simp [hbyte, hin, hout, htype, htype', hplace]
          · simp [hbyte, htype]

/-- **A value is read back**, and every bit outside of its field is as it was. -/
theorem field_read_back (htype : valueLength ≤ size * 8) (hpos : 1 ≤ valueLength)
    (hshift : targetShift ≤ 7) (hvalue : value < 2 ^ valueLength) (target : ℕ → Byte) :
    read size (write size target value targetShift valueLength) targetShift valueLength = value ∧
      ∀ k, ¬ (targetShift ≤ k ∧ k < targetShift + valueLength) →
        bitAt (write size target value targetShift valueLength) k = bitAt target k := by
  have hne : valueLength ≠ 0 := by omega
  have hbits : ∀ k, bitAt (write size target value targetShift valueLength) k =
      if targetShift ≤ k ∧ k < targetShift + valueLength then
        value.testBit (targetShift + valueLength - 1 - k)
      else bitAt target k := by
    intro k
    have hloop := @bitAt_writeLoop target value targetShift valueLength 0 (by omega) (.inr hvalue) k
    rw [Nat.mul_zero, Nat.zero_add] at hloop
    rw [write, if_neg hne]
    exact hloop
  refine ⟨Nat.eq_of_testBit_eq fun i => ?_, fun k hk => ?_⟩
  · rw [read, if_neg hne, testBit_readLoop (by omega) htype]
    split
    · rename_i hi
      have hplace : targetShift + valueLength - 1 -
          (8 * 0 + targetShift + valueLength - 1 - i) = i := by omega
      rw [hbits, if_pos (by omega), hplace]
    · rename_i hi
      have hhigh : value.testBit i = false :=
        Nat.testBit_lt_two_pow (hvalue.trans_le (Nat.pow_le_pow_right two_pos (not_lt.1 hi)))
      rw [Nat.zero_testBit, Bool.and_false, hhigh]
  · rw [hbits, if_neg hk]

/-- Eleven bits of a number of two bytes, from the sixth bit on, over three bytes. -/
theorem field_read_back_eleven :
    read 2 (write 2 (fun _ => 0xFF) 0x555 6 11) 6 11 = 0x555 ∧
      ∀ k, ¬ (6 ≤ k ∧ k < 6 + 11) → bitAt (write 2 (fun _ => 0xFF) 0x555 6 11) k =
        bitAt (fun _ => 0xFF) k :=
  field_read_back (by decide) (by decide) (by decide) (by decide) _

end Bits

end Wiselib.Codecs.Bitwise
