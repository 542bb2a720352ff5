import Wiselib.Coap.CoapPacketDecoding

/-!
# Numbers in packets

Numbers are written with as few bytes as they need and read back from these.
Here the bit operations of the two sides are told as arithmetic: what the bytes
of a number say, what is left of the fields that share the byte of the header
or the number of a block, and what hexadecimal digits make of a number that was
written in binary.
-/

namespace Wiselib.Coap

namespace CoapPacket

/-! ## Numbers -/

/-- A mask of all bits from `k` on leaves nothing of the numbers below `2 ^ k` only. -/
theorem and_high_eq_zero {value mask : UInt32} {k : ℕ} (hk : k ≤ 32)
    (hlow : (2 ^ k - 1) &&& mask.toNat = 0) (hhigh : mask.toNat >>> k = 2 ^ (32 - k) - 1) :
    value &&& mask = 0 ↔ value.toNat < 2 ^ k := by
  have hvalue := value.toNat_lt
  rw [← UInt32.toNat_inj, UInt32.toNat_and]
  constructor
  · intro hzero
    have hshift := congrArg (· >>> k) hzero
    simp only [Nat.shiftRight_and_distrib, hhigh, Nat.and_two_pow_sub_one_eq_mod] at hshift
    have hquot : value.toNat >>> k < 2 ^ (32 - k) := by
      rw [Nat.shiftRight_eq_div_pow, Nat.div_lt_iff_lt_mul (by positivity), ← pow_add,
        Nat.sub_add_cancel hk]
      exact hvalue
    rw [Nat.mod_eq_of_lt hquot, Nat.shiftRight_eq_div_pow] at hshift
    exact (Nat.div_eq_zero_iff_lt (by positivity)).1 (by simpa using hshift)
  · intro hlt
    have hself : value.toNat &&& (2 ^ k - 1) = value.toNat := by
      rw [Nat.and_two_pow_sub_one_eq_mod, Nat.mod_eq_of_lt hlt]
    rw [← hself, Nat.and_assoc, hlow]
    simp

theorem toNat_shift_or (var : UInt32) (c : UInt8) :
    (var <<< 8 ||| c.toUInt32).toNat = var.toNat * 256 % 2 ^ 32 + c.toNat := by
  have hc := c.toNat_lt
  have hshift : var.toNat * 256 % 2 ^ 32 = (var.toNat % 2 ^ 24) <<< 8 := by
    rw [Nat.shiftLeft_eq]
    omega
  rw [UInt32.toNat_or, UInt32.toNat_shiftLeft]
  simp only [UInt32.toNat_ofNat, UInt8.toNat_toUInt32, Nat.shiftLeft_eq] at hshift ⊢
  norm_num at hshift ⊢
  rw [hshift, ← Nat.shiftLeft_eq _ 8]
  exact (Nat.shiftLeft_add_eq_or_of_lt (by omega) _).symm

theorem intBytes_eq (value : UInt32) :
    intBytes value =
      (if value.toNat < 2 ^ 24 then [] else [(value >>> 24).toUInt8]) ++
      (if value.toNat < 2 ^ 16 then [] else [(value >>> 16).toUInt8]) ++
      (if value.toNat < 2 ^ 8 then [] else [(value >>> 8).toUInt8]) ++
      (if value.toNat < 2 ^ 0 then [] else [value.toUInt8]) := by
  have h24 : value &&& 0xff000000 = 0 ↔ value.toNat < 2 ^ 24 :=
    and_high_eq_zero (by decide) (by decide) (by decide)
  have h16 : value &&& 0xffff0000 = 0 ↔ value.toNat < 2 ^ 16 :=
    and_high_eq_zero (by decide) (by decide) (by decide)
  have h8 : value &&& 0xffffff00 = 0 ↔ value.toNat < 2 ^ 8 :=
    and_high_eq_zero (by decide) (by decide) (by decide)
  have h0 : value &&& 0xffffffff = 0 ↔ value.toNat < 2 ^ 0 :=
    and_high_eq_zero (by decide) (by decide) (by decide)
  simp only [intBytes, ne_eq, h24, h16, h8, h0, ite_not]

theorem getIntOptValue_intBytes (value : UInt32) :
    getIntOptValue false (intBytes value) = value := by
  have hlt := value.toNat_lt
  apply UInt32.toNat_inj.1
  rw [intBytes_eq]
  split_ifs <;>
    simp only [getIntOptValue, List.nil_append, List.cons_append, List.foldl_cons, List.foldl_nil,
      Bool.false_eq_true, if_false, toNat_shift_or, UInt32.toNat_toUInt8, UInt32.toNat_shiftRight,
      UInt32.toNat_ofNat, Nat.shiftRight_eq_div_pow, Nat.reduceMod, Nat.reducePow] <;>
    omega

theorem hexDigit_byte : ∀ c : UInt8,
    (hexDigit c).toNat ≤ 35 ∧ (c < 0x30 → hexDigit c = 0) ∧
      ((hexDigit c).toNat = c.toNat → c = 0) := by
  decide +kernel

theorem hex_intBytes {host : UInt16} :
    (getIntOptValue true (intBytes host.toUInt32)).toUInt16 = host ↔ host = 0 := by
  have hlt := host.toNat_lt
  have hlow : host.toUInt32.toUInt8.toNat = host.toNat % 256 := by simp
  have hhigh : (host.toUInt32 >>> 8).toUInt8.toNat = host.toNat / 256 := by
    simp [Nat.shiftRight_eq_div_pow]
    omega
  obtain ⟨hle, -, hzero⟩ := hexDigit_byte host.toUInt32.toUInt8
  obtain ⟨hle', hdigit, -⟩ := hexDigit_byte (host.toUInt32 >>> 8).toUInt8
  constructor
  · intro heq
    by_contra hne
    have hpos : host.toNat ≠ 0 := fun h => hne (UInt16.toNat_inj.1 h)
    have hvalue := congrArg UInt16.toNat heq
    rw [intBytes_eq, UInt32.toNat_toUInt16] at hvalue
    have hsame : host.toUInt32.toNat = host.toNat := UInt16.toNat_toUInt32 host
    generalize host.toUInt32.toUInt8 = low at *
    generalize (host.toUInt32 >>> 8).toUInt8 = high at *
    by_cases h8 : host.toNat < 2 ^ 8
    · -- one byte, and no byte but zero is the value of its digit
      simp only [hsame, if_pos (show host.toNat < 2 ^ 24 by omega),
        if_pos (show host.toNat < 2 ^ 16 by omega), if_pos h8,
        if_neg (show ¬ host.toNat < 2 ^ 0 by omega), getIntOptValue, List.nil_append,
        List.foldl_cons, List.foldl_nil, if_true, zero_mul, zero_add] at hvalue
      have hbyte : low = 0 := hzero (by omega)
      rw [hbyte] at hlow
      simp at hlow
      omega
    · -- two bytes have two digits, which stay below 596
      simp only [hsame, if_pos (show host.toNat < 2 ^ 24 by omega),
        if_pos (show host.toNat < 2 ^ 16 by omega), if_neg h8,
        if_neg (show ¬ host.toNat < 2 ^ 0 by omega), getIntOptValue, List.nil_append,
        List.cons_append, List.foldl_cons, List.foldl_nil, if_true, zero_mul, zero_add,
        UInt32.toNat_add, UInt32.toNat_mul] at hvalue
      simp only [UInt32.toNat_ofNat, Nat.reduceMod, Nat.reducePow] at hvalue
      by_cases hsmall : high < 0x30
      · rw [hdigit hsmall] at hvalue
        simp at hvalue
        omega
      · rw [UInt8.lt_iff_toNat_lt, hhigh] at hsmall
        simp at hsmall
        omega
  · rintro rfl
    decide

theorem version_headerByte (version type count : UInt8) :
    (headerByte version type count &&& 0xc0) >>> 6 = version &&& 3 := by
  apply UInt8.toBitVec_inj.1
  ext i hi
  interval_cases i <;> simp [headerByte]

theorem type_headerByte (version type count : UInt8) :
    (headerByte version type count &&& 0x30) >>> 4 = type &&& 3 := by
  apply UInt8.toBitVec_inj.1
  ext i hi
  interval_cases i <;> simp [headerByte]

theorem count_headerByte (version type count : UInt8) :
    headerByte version type count &&& (0x0f : UInt8) = count &&& 0x0f := by
  apply UInt8.toBitVec_inj.1
  ext i hi
  interval_cases i <;> simp [headerByte]

theorem and_three (c : UInt8) : c &&& 3 = c ↔ c < 4 := by
  have hand : c.toNat &&& 3 = c.toNat % 4 := Nat.and_two_pow_sub_one_eq_mod _ 2
  rw [← UInt8.toNat_inj, UInt8.lt_iff_toNat_lt, UInt8.toNat_and]
  simp only [UInt8.toNat_ofNat, hand]
  norm_num

theorem mid_bytes (mid : UInt16) :
    (mid >>> 8).toUInt8.toUInt16 <<< 8 ||| mid.toUInt8.toUInt16 = mid := by
  have hlt := mid.toNat_lt
  have hor : (mid.toNat / 256 % 256) <<< 8 ||| mid.toNat % 256 =
      (mid.toNat / 256 % 256) <<< 8 + mid.toNat % 256 :=
    (Nat.shiftLeft_add_eq_or_of_lt (by omega) _).symm
  apply UInt16.toNat_inj.1
  simp [Nat.shiftRight_eq_div_pow]
  rw [Nat.mod_eq_of_lt, hor, Nat.shiftLeft_eq]
  · omega
  · rw [Nat.shiftLeft_eq]
    omega

/-! ### Blocks -/

/-- The last four bits of the number of a block option. -/
def blockBits (more : UInt8) (exponent : ℕ) : ℕ := (if more ≠ 0 then 8 else 0) ||| (exponent - 4)

theorem blockBits_lt {more : UInt8} {exponent : ℕ} (hexponent : exponent < 16) :
    blockBits more exponent < 16 := by
  unfold blockBits
  have hflag : (if more ≠ 0 then 8 else 0) < 2 ^ 4 := by split_ifs <;> decide
  exact Nat.or_lt_two_pow hflag (by omega)

theorem toNat_block {num : UInt32} {more : UInt8} {exponent : ℕ} (hexponent : exponent < 16) :
    (block num more exponent).toNat = num.toNat * 16 % 2 ^ 32 + blockBits more exponent := by
  have hbits : blockBits more exponent < 16 := blockBits_lt hexponent
  have hand : (exponent - 4) &&& 15 = exponent - 4 := by
    rw [Nat.and_two_pow_sub_one_eq_mod _ 4, Nat.mod_eq_of_lt (by omega)]
  have hshift : num.toNat * 16 % 2 ^ 32 = (num.toNat % 2 ^ 28) <<< 4 := by
    rw [Nat.shiftLeft_eq]
    omega
  have hsmall : (exponent - 4) % 4294967296 = exponent - 4 := Nat.mod_eq_of_lt (by omega)
  rw [hshift, Nat.shiftLeft_add_eq_or_of_lt hbits, ← hshift]
  by_cases hmore : more = 0
  · simp [block, blockBits, hmore, hand, hsmall, Nat.shiftLeft_eq]
  · simp [block, blockBits, hmore, hand, hsmall, Nat.shiftLeft_eq, Nat.or_assoc]

theorem setBlock_fields (packet : CoapPacket) (value : UInt32) :
    (setBlock packet value).block2Num.toNat = value.toNat / 16 ∧
      (setBlock packet value).block2More.toNat = value.toNat / 8 % 2 ∧
      (setBlock packet value).block2Size.toNat = 16 * 2 ^ (value.toNat % 8) := by
  refine ⟨?_, ?_, ?_⟩
  · simp [setBlock, Nat.shiftRight_eq_div_pow]
  · have hbit : (value.toNat &&& 8) >>> 3 = value.toNat / 8 % 2 := by
      rw [Nat.shiftRight_and_distrib, Nat.shiftRight_eq_div_pow]
      exact Nat.and_two_pow_sub_one_eq_mod _ 1
    simp [setBlock, hbit]
    omega
  · have hseven : value.toNat &&& 7 = value.toNat % 8 := Nat.and_two_pow_sub_one_eq_mod _ 3
    have hlt : value.toNat % 8 < 8 := Nat.mod_lt _ (by decide)
    simp [setBlock, hseven, Nat.shiftLeft_eq]
    generalize value.toNat % 8 = exponent at hlt ⊢
    interval_cases exponent <;> decide

theorem block_iff {num : UInt32} {more : UInt8} {size : UInt16} {exponent : ℕ}
    (hexponent : 4 ≤ exponent) (hsize : size.toNat = 2 ^ exponent) (packet : CoapPacket) :
    ((setBlock packet (block num more exponent)).block2Num = num ∧
      (setBlock packet (block num more exponent)).block2More = more ∧
      (setBlock packet (block num more exponent)).block2Size = size) ↔
      num.toNat < 2 ^ 28 ∧ more ≤ 1 ∧ size ≤ 2048 := by
  have hlt : exponent < 16 := by
    apply (Nat.pow_lt_pow_iff_right (by decide : 1 < 2)).1
    rw [← hsize]
    exact size.toNat_lt
  have hnum := num.toNat_lt
  have hvalue : (block num more exponent).toNat =
      num.toNat * 16 % 2 ^ 32 + blockBits more exponent := toNat_block hlt
  obtain ⟨hnum', hmore', hsize'⟩ := setBlock_fields packet (block num more exponent)
  have hbits : blockBits more exponent < 16 := blockBits_lt hlt
  have hhigh : (block num more exponent).toNat / 16 = num.toNat % 2 ^ 28 := by omega
  have hbit : (block num more exponent).toNat / 8 % 2 = blockBits more exponent / 8 := by omega
  have hlow : (block num more exponent).toNat % 8 = blockBits more exponent % 8 := by omega
  rw [← UInt32.toNat_inj, ← UInt8.toNat_inj, ← UInt16.toNat_inj, UInt8.le_iff_toNat_le,
    UInt16.le_iff_toNat_le, hnum', hmore', hsize', hsize, hhigh, hbit, hlow]
  by_cases hzero : more = 0
  · subst hzero
    interval_cases exponent <;> simp [blockBits]
  · have hpos : more.toNat ≠ 0 := fun h => hzero (UInt8.toNat_inj.1 h)
    interval_cases exponent <;> simp [blockBits, hzero] <;> omega

end CoapPacket

end Wiselib.Coap
