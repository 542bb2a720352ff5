import Wiselib.Library.Bitmap

/-!
# Bitmaps stored in words

An array of words of `k` bits is a bitmap: bit `pos` is bit `pos % k` of word
`pos / k`.  The edits a program makes to the words, storing under a mask and
filling whole words, are stated by what they do to the bits.
-/

namespace WordBits

variable {k : ℕ}

/-- Bit `pos` of the array. -/
def bit (data : ℕ → BitVec k) (pos : ℕ) : Bool :=
  (data (pos / k)).getLsbD (pos % k)

/-- `length` ones from bit `start` on, the ones that do not fit in `size` bits cut off. -/
def mask (size start length : ℕ) : ℕ :=
  (2 ^ length - 1) * 2 ^ start % 2 ^ size

theorem testBit_mask (size start length i : ℕ) :
    (mask size start length).testBit i =
      decide (i < size ∧ start ≤ i ∧ i < start + length) := by
  rw [mask, Nat.testBit_mod_two_pow, ← Nat.shiftLeft_eq, Nat.testBit_shiftLeft,
    Nat.testBit_two_pow_sub_one, ← Bool.decide_and, ← Bool.decide_and]
  exact decide_eq_decide.2 (by omega)

/-- A word in which the bits of `mask` are `value`. -/
def store (value : Bool) (word mask : BitVec k) : BitVec k :=
  if value then word ||| mask else word &&& ~~~mask

theorem getLsbD_store {value : Bool} {word mask : BitVec k} {i : ℕ} (hi : i < k) :
    (store value word mask).getLsbD i = if mask.getLsbD i then value else word.getLsbD i := by
  cases value with
  | false =>
      rw [store, if_neg Bool.false_ne_true, BitVec.getLsbD_and, BitVec.getLsbD_not]
      cases hmask : mask.getLsbD i <;> simp [hi]
  | true => cases hmask : mask.getLsbD i <;> simp [store, hmask]

/-- All bits are `value`. -/
def filled (value : Bool) : BitVec k :=
  if value then BitVec.allOnes k else 0

theorem getLsbD_filled {value : Bool} {i : ℕ} (hi : i < k) :
    (filled value : BitVec k).getLsbD i = value := by
  cases value <;> simp [filled, hi]

/-- Store `value` in `count` whole words from word `pos` on. -/
def fill (value : Bool) (data : ℕ → BitVec k) (pos : ℕ) : ℕ → ℕ → BitVec k
  | 0 => data
  | count + 1 => Function.update (fill value data pos count) (pos + count) (filled value)

theorem fill_apply (value : Bool) (data : ℕ → BitVec k) (pos count i : ℕ) :
    fill value data pos count i =
      if pos ≤ i ∧ i < pos + count then filled value else data i := by
  induction count with
  | zero => rw [fill, if_neg (by omega)]
  | succ count ih =>
      rcases eq_or_ne i (pos + count) with rfl | hne
      · simp [fill]
      · rw [fill, Function.update_of_ne hne, ih]
        exact if_congr (by omega) rfl rfl

theorem bit_update_store (hk : 0 < k) (value : Bool) (data : ℕ → BitVec k) (word : ℕ)
    (mask : BitVec k) (pos : ℕ) :
    bit (Function.update data word (store value (data word) mask)) pos =
      if pos / k = word ∧ mask.getLsbD (pos % k) then value else bit data pos := by
  rw [bit]
  by_cases hword : pos / k = word
  · simp only [hword, Function.update_self, getLsbD_store (Nat.mod_lt pos hk), true_and]
    rw [bit, hword]
  · rw [Function.update_of_ne hword, if_neg fun h => hword h.1, bit]

theorem div_eq_iff_in_word (hk : 0 < k) {word start length pos : ℕ} (hfit : start + length ≤ k) :
    (pos / k = word ∧ start ≤ pos % k ∧ pos % k < start + length) ↔
      word * k + start ≤ pos ∧ pos < word * k + start + length := by
  have hpos := Nat.div_add_mod' pos k
  have hmod := Nat.mod_lt pos hk
  constructor
  · rintro ⟨rfl, hstart, hstop⟩
    omega
  · rintro ⟨hstart, hstop⟩
    have hword : pos / k = word := by
      rw [Nat.div_eq_iff hk]
      omega
    rw [hword] at hpos
    exact ⟨hword, by omega, by omega⟩

/-- **A range within one word.** -/
theorem bit_store_range (hk : 0 < k) (value : Bool) (data : ℕ → BitVec k)
    {size word start length : ℕ} (hsize : k ≤ size) (hfit : start + length ≤ k) :
    bit (Function.update data word
        (store value (data word) (BitVec.ofNat k (mask size start length)))) =
      Bitmap.setRange (bit data) (word * k + start) value length := by
  funext pos
  have hmod := Nat.mod_lt pos hk
  rw [bit_update_store hk, Bitmap.setRange_apply]
  refine if_congr ?_ rfl rfl
  rw [← div_eq_iff_in_word hk hfit, BitVec.getLsbD_ofNat, testBit_mask]
  simp only [Bool.and_eq_true, decide_eq_true_eq]
  omega

/-- **A range of whole words.** -/
theorem bit_fill (hk : 0 < k) (value : Bool) (data : ℕ → BitVec k) (pos count : ℕ) :
    bit (fill value data pos count) =
      Bitmap.setRange (bit data) (pos * k) value (count * k) := by
  funext i
  have hrange : (pos ≤ i / k ∧ i / k < pos + count) ↔
      pos * k ≤ i ∧ i < pos * k + count * k := by
    rw [Nat.le_div_iff_mul_le hk, Nat.div_lt_iff_lt_mul hk, Nat.add_mul]
  rw [bit, fill_apply, Bitmap.setRange_apply]
  by_cases hmem : pos ≤ i / k ∧ i / k < pos + count
  · rw [if_pos hmem, if_pos (hrange.1 hmem), getLsbD_filled (Nat.mod_lt i hk)]
  · rw [if_neg hmem, if_neg fun h => hmem (hrange.2 h), bit]

end WordBits
