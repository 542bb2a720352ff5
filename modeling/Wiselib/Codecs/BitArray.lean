import Mathlib

/-!
# Bit arrays

`BitArray` of `util/pstl/bit_array.h`: bytes whose bits are numbered from the
lowest of the first byte on.  `set` clears a bit and then writes it, so it changes
this bit and no other whatever the byte held before (`get_set`).

The bytes of an array are handed on as C strings; `strlen` is the number of bytes
before the first that is zero.
-/

namespace Wiselib.Codecs

/-- The memory `make` allocates: `size` bytes, with what happens to be in them. -/
structure BitArray where
  size : ℕ
  data : ℕ → BitVec 8

namespace BitArray

/-- `byte`, the byte of a bit. -/
def byte (pos : ℕ) : ℕ := pos / 8

/-- `bit`, the place of a bit in its byte. -/
def bit (pos : ℕ) : ℕ := pos % 8

/-- `bytes_needed`. -/
def bytesNeeded (bits : ℕ) : ℕ := (bits + 7) / 8

/-- `make`; the allocated memory is not cleared. -/
def make (memory : ℕ → BitVec 8) (bits : ℕ) : BitArray := ⟨bytesNeeded bits, memory⟩

/-- `get`. -/
def get (array : BitArray) (idx : ℕ) : Bool :=
  array.data (byte idx) &&& (1#8 <<< bit idx) ≠ 0#8

/-- `set`. -/
def set (array : BitArray) (i : ℕ) (v : Bool) : BitArray :=
  let cleared := array.data (byte i) &&& ~~~(1#8 <<< bit i)
  { array with
    data := Function.update array.data (byte i)
      (cleared ||| ((if v then 1#8 else 0#8) <<< bit i)) }

variable {array : BitArray} {i j k : ℕ} {v : Bool}

private theorem and_one_shiftLeft_ne_zero (b : BitVec 8) (hk : k < 8) :
    b &&& (1#8 <<< k) ≠ 0#8 ↔ b.getLsbD k = true := by
  constructor
  · intro hne
    by_contra hclear
    refine hne (BitVec.eq_of_getLsbD_eq fun m hm => ?_)
    rw [BitVec.getLsbD_and, BitVec.getLsbD_shiftLeft, BitVec.getLsbD_one]
    by_cases hsame : m = k
    · simp [hsame, hclear]
    · have hapart : m < k ∨ m - k ≠ 0 := by omega
      rcases hapart with hlt | hne
      · simp [hlt]
      · simp [hne]
  · intro hset hzero
    have hbit : (b &&& (1#8 <<< k)).getLsbD k = false := by
      rw [hzero]
      simp
    rw [BitVec.getLsbD_and, hset] at hbit
    simp [hk] at hbit

theorem get_eq : array.get i = (array.data (byte i)).getLsbD (bit i) := by
  rw [Bool.eq_iff_iff, get, decide_eq_true_iff]
  exact and_one_shiftLeft_ne_zero _ (Nat.mod_lt _ (by decide))

/-- **`set` writes one bit** and leaves all others as they are. -/
theorem get_set : (array.set i v).get j = if j = i then v else array.get j := by
  have hplace : bit i < 8 := Nat.mod_lt _ (by decide)
  have hplace' : bit j < 8 := Nat.mod_lt _ (by decide)
  rw [get_eq, get_eq]
  simp only [set]
  by_cases hbyte : byte j = byte i
  · rw [hbyte, Function.update_self]
    by_cases hsame : j = i
    · subst hsame
      cases v <;> simp [hplace]
    · have hbit : bit j ≠ bit i := by
        intro heq
        unfold byte at hbyte
        unfold bit at heq
        omega
      have hapart : bit j < bit i ∨ bit j - bit i ≠ 0 := by omega
      rcases hapart with hlt | hne
      · cases v <;> simp [hsame, hplace', hlt]
      · cases v <;> simp [hsame, hplace', hne]
  · have hsame : j ≠ i := fun heq => hbyte (by rw [heq])
    rw [Function.update_of_ne hbyte, if_neg hsame]

theorem data_eq_zero_iff : array.data k = 0#8 ↔ ∀ i < 8, array.get (k * 8 + i) = false := by
  have hbits : ∀ i < 8, array.get (k * 8 + i) = (array.data k).getLsbD i := by
    intro i hi
    have hbyte : byte (k * 8 + i) = k := by
      unfold byte
      omega
    have hbit : bit (k * 8 + i) = i := by
      unfold bit
      omega
    rw [get_eq, hbyte, hbit]
  constructor
  · intro hzero i hi
    rw [hbits i hi, hzero]
    simp
  · intro hclear
    refine BitVec.eq_of_getLsbD_eq fun i hi => ?_
    rw [← hbits i hi, hclear i hi]
    simp

/-- `strlen` of the bytes; reading on behind the memory is undefined. -/
def strlen (array : BitArray) : Option ℕ :=
  (List.range array.size).find? fun k => array.data k = 0#8

theorem strlen_eq {length : ℕ} (hlength : length < array.size)
    (hnonzero : ∀ k < length, array.data k ≠ 0#8) (hzero : array.data length = 0#8) :
    array.strlen = some length := by
  unfold strlen
  rw [List.find?_range_eq_some]
  refine ⟨by simpa using hzero, by simpa using hlength, fun k hk => ?_⟩
  simpa using hnonzero k hk

end BitArray

end Wiselib.Codecs
