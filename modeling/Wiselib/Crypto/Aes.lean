import Mathlib

/-!
# The AES block cipher

`crypto/aes.h`: the round functions, `KeyExpansion`, `encrypt` and `decrypt`.
The member `state` is filled from the input before it is read, so both
directions are functions of the round keys and of one block.

## Strategy

Every step of a round has its inverse in the other direction.

* `SubBytes` reads a table, and `InvSubBytes` a table that reads it backwards
  (`getSBoxInvert_getSBoxValue`).
* `MixColumns` multiplies with `xtime`, `InvMixColumns` with `xtimes`.  Both
  respect the sum of two bytes, so the products of the two circulant matrices
  are four facts about one byte (`xtimes_mixing`).
* A round of `decrypt` does not undo a round of `encrypt`: it starts between
  `ShiftRows` and `MixColumns`.  `invRounds_rounds` and `rounds_invRounds` move
  the substitution from one side of the inner rounds to the other.

The round keys only have to be the same in both directions, whatever
`KeyExpansion` wrote.
-/

namespace Wiselib.Crypto.Aes

/-- A byte of the cipher. -/
abbrev Byte := BitVec 8

/-- One of the four columns of the state, or a word of the key. -/
abbrev Column := Fin 4 → Byte

/-- `state[row][column]`. -/
abbrev State := Fin 4 → Fin 4 → Byte

/-- A block of input or output. -/
abbrev Block := Fin 16 → Byte

/-! ## Tables -/

/-- The array `Rcon`. -/
def rcon : List Byte :=
  [0x8d, 0x01, 0x02, 0x04, 0x08, 0x10, 0x20, 0x40, 0x80, 0x1b, 0x36, 0x6c, 0xd8, 0xab, 0x4d, 0x9a,
    0x2f, 0x5e, 0xbc, 0x63, 0xc6, 0x97, 0x35, 0x6a, 0xd4, 0xb3, 0x7d, 0xfa, 0xef, 0xc5, 0x91, 0x39,
    0x72, 0xe4, 0xd3, 0xbd, 0x61, 0xc2, 0x9f, 0x25, 0x4a, 0x94, 0x33, 0x66, 0xcc, 0x83, 0x1d, 0x3a,
    0x74, 0xe8, 0xcb, 0x8d, 0x01, 0x02, 0x04, 0x08, 0x10, 0x20, 0x40, 0x80, 0x1b, 0x36, 0x6c, 0xd8,
    0xab, 0x4d, 0x9a, 0x2f, 0x5e, 0xbc, 0x63, 0xc6, 0x97, 0x35, 0x6a, 0xd4, 0xb3, 0x7d, 0xfa, 0xef,
    0xc5, 0x91, 0x39, 0x72, 0xe4, 0xd3, 0xbd, 0x61, 0xc2, 0x9f, 0x25, 0x4a, 0x94, 0x33, 0x66, 0xcc,
    0x83, 0x1d, 0x3a, 0x74, 0xe8, 0xcb, 0x8d, 0x01, 0x02, 0x04, 0x08, 0x10, 0x20, 0x40, 0x80, 0x1b,
    0x36, 0x6c, 0xd8, 0xab, 0x4d, 0x9a, 0x2f, 0x5e, 0xbc, 0x63, 0xc6, 0x97, 0x35, 0x6a, 0xd4, 0xb3,
    0x7d, 0xfa, 0xef, 0xc5, 0x91, 0x39, 0x72, 0xe4, 0xd3, 0xbd, 0x61, 0xc2, 0x9f, 0x25, 0x4a, 0x94,
    0x33, 0x66, 0xcc, 0x83, 0x1d, 0x3a, 0x74, 0xe8, 0xcb, 0x8d, 0x01, 0x02, 0x04, 0x08, 0x10, 0x20,
    0x40, 0x80, 0x1b, 0x36, 0x6c, 0xd8, 0xab, 0x4d, 0x9a, 0x2f, 0x5e, 0xbc, 0x63, 0xc6, 0x97, 0x35,
    0x6a, 0xd4, 0xb3, 0x7d, 0xfa, 0xef, 0xc5, 0x91, 0x39, 0x72, 0xe4, 0xd3, 0xbd, 0x61, 0xc2, 0x9f,
    0x25, 0x4a, 0x94, 0x33, 0x66, 0xcc, 0x83, 0x1d, 0x3a, 0x74, 0xe8, 0xcb, 0x8d, 0x01, 0x02, 0x04,
    0x08, 0x10, 0x20, 0x40, 0x80, 0x1b, 0x36, 0x6c, 0xd8, 0xab, 0x4d, 0x9a, 0x2f, 0x5e, 0xbc, 0x63,
    0xc6, 0x97, 0x35, 0x6a, 0xd4, 0xb3, 0x7d, 0xfa, 0xef, 0xc5, 0x91, 0x39, 0x72, 0xe4, 0xd3, 0xbd,
    0x61, 0xc2, 0x9f, 0x25, 0x4a, 0x94, 0x33, 0x66, 0xcc, 0x83, 0x1d, 0x3a, 0x74, 0xe8, 0xcb]

/-- `getRconValue`. -/
def getRconValue (num : ℕ) : Byte :=
  rcon.getD num 0

/-- The array `sbox`. -/
def sbox : List Byte :=
  [0x63, 0x7c, 0x77, 0x7b, 0xf2, 0x6b, 0x6f, 0xc5, 0x30, 0x01, 0x67, 0x2b, 0xfe, 0xd7, 0xab, 0x76,
    0xca, 0x82, 0xc9, 0x7d, 0xfa, 0x59, 0x47, 0xf0, 0xad, 0xd4, 0xa2, 0xaf, 0x9c, 0xa4, 0x72, 0xc0,
    0xb7, 0xfd, 0x93, 0x26, 0x36, 0x3f, 0xf7, 0xcc, 0x34, 0xa5, 0xe5, 0xf1, 0x71, 0xd8, 0x31, 0x15,
    0x04, 0xc7, 0x23, 0xc3, 0x18, 0x96, 0x05, 0x9a, 0x07, 0x12, 0x80, 0xe2, 0xeb, 0x27, 0xb2, 0x75,
    0x09, 0x83, 0x2c, 0x1a, 0x1b, 0x6e, 0x5a, 0xa0, 0x52, 0x3b, 0xd6, 0xb3, 0x29, 0xe3, 0x2f, 0x84,
    0x53, 0xd1, 0x00, 0xed, 0x20, 0xfc, 0xb1, 0x5b, 0x6a, 0xcb, 0xbe, 0x39, 0x4a, 0x4c, 0x58, 0xcf,
    0xd0, 0xef, 0xaa, 0xfb, 0x43, 0x4d, 0x33, 0x85, 0x45, 0xf9, 0x02, 0x7f, 0x50, 0x3c, 0x9f, 0xa8,
    0x51, 0xa3, 0x40, 0x8f, 0x92, 0x9d, 0x38, 0xf5, 0xbc, 0xb6, 0xda, 0x21, 0x10, 0xff, 0xf3, 0xd2,
    0xcd, 0x0c, 0x13, 0xec, 0x5f, 0x97, 0x44, 0x17, 0xc4, 0xa7, 0x7e, 0x3d, 0x64, 0x5d, 0x19, 0x73,
    0x60, 0x81, 0x4f, 0xdc, 0x22, 0x2a, 0x90, 0x88, 0x46, 0xee, 0xb8, 0x14, 0xde, 0x5e, 0x0b, 0xdb,
    0xe0, 0x32, 0x3a, 0x0a, 0x49, 0x06, 0x24, 0x5c, 0xc2, 0xd3, 0xac, 0x62, 0x91, 0x95, 0xe4, 0x79,
    0xe7, 0xc8, 0x37, 0x6d, 0x8d, 0xd5, 0x4e, 0xa9, 0x6c, 0x56, 0xf4, 0xea, 0x65, 0x7a, 0xae, 0x08,
    0xba, 0x78, 0x25, 0x2e, 0x1c, 0xa6, 0xb4, 0xc6, 0xe8, 0xdd, 0x74, 0x1f, 0x4b, 0xbd, 0x8b, 0x8a,
    0x70, 0x3e, 0xb5, 0x66, 0x48, 0x03, 0xf6, 0x0e, 0x61, 0x35, 0x57, 0xb9, 0x86, 0xc1, 0x1d, 0x9e,
    0xe1, 0xf8, 0x98, 0x11, 0x69, 0xd9, 0x8e, 0x94, 0x9b, 0x1e, 0x87, 0xe9, 0xce, 0x55, 0x28, 0xdf,
    0x8c, 0xa1, 0x89, 0x0d, 0xbf, 0xe6, 0x42, 0x68, 0x41, 0x99, 0x2d, 0x0f, 0xb0, 0x54, 0xbb, 0x16]

/-- `getSBoxValue`. -/
def getSBoxValue (num : Byte) : Byte :=
  sbox.getD num.toNat 0

/-- The array `rsbox`. -/
def rsbox : List Byte :=
  [0x52, 0x09, 0x6a, 0xd5, 0x30, 0x36, 0xa5, 0x38, 0xbf, 0x40, 0xa3, 0x9e, 0x81, 0xf3, 0xd7, 0xfb,
    0x7c, 0xe3, 0x39, 0x82, 0x9b, 0x2f, 0xff, 0x87, 0x34, 0x8e, 0x43, 0x44, 0xc4, 0xde, 0xe9, 0xcb,
    0x54, 0x7b, 0x94, 0x32, 0xa6, 0xc2, 0x23, 0x3d, 0xee, 0x4c, 0x95, 0x0b, 0x42, 0xfa, 0xc3, 0x4e,
    0x08, 0x2e, 0xa1, 0x66, 0x28, 0xd9, 0x24, 0xb2, 0x76, 0x5b, 0xa2, 0x49, 0x6d, 0x8b, 0xd1, 0x25,
    0x72, 0xf8, 0xf6, 0x64, 0x86, 0x68, 0x98, 0x16, 0xd4, 0xa4, 0x5c, 0xcc, 0x5d, 0x65, 0xb6, 0x92,
    0x6c, 0x70, 0x48, 0x50, 0xfd, 0xed, 0xb9, 0xda, 0x5e, 0x15, 0x46, 0x57, 0xa7, 0x8d, 0x9d, 0x84,
    0x90, 0xd8, 0xab, 0x00, 0x8c, 0xbc, 0xd3, 0x0a, 0xf7, 0xe4, 0x58, 0x05, 0xb8, 0xb3, 0x45, 0x06,
    0xd0, 0x2c, 0x1e, 0x8f, 0xca, 0x3f, 0x0f, 0x02, 0xc1, 0xaf, 0xbd, 0x03, 0x01, 0x13, 0x8a, 0x6b,
    0x3a, 0x91, 0x11, 0x41, 0x4f, 0x67, 0xdc, 0xea, 0x97, 0xf2, 0xcf, 0xce, 0xf0, 0xb4, 0xe6, 0x73,
    0x96, 0xac, 0x74, 0x22, 0xe7, 0xad, 0x35, 0x85, 0xe2, 0xf9, 0x37, 0xe8, 0x1c, 0x75, 0xdf, 0x6e,
    0x47, 0xf1, 0x1a, 0x71, 0x1d, 0x29, 0xc5, 0x89, 0x6f, 0xb7, 0x62, 0x0e, 0xaa, 0x18, 0xbe, 0x1b,
    0xfc, 0x56, 0x3e, 0x4b, 0xc6, 0xd2, 0x79, 0x20, 0x9a, 0xdb, 0xc0, 0xfe, 0x78, 0xcd, 0x5a, 0xf4,
    0x1f, 0xdd, 0xa8, 0x33, 0x88, 0x07, 0xc7, 0x31, 0xb1, 0x12, 0x10, 0x59, 0x27, 0x80, 0xec, 0x5f,
    0x60, 0x51, 0x7f, 0xa9, 0x19, 0xb5, 0x4a, 0x0d, 0x2d, 0xe5, 0x7a, 0x9f, 0x93, 0xc9, 0x9c, 0xef,
    0xa0, 0xe0, 0x3b, 0x4d, 0xae, 0x2a, 0xf5, 0xb0, 0xc8, 0xeb, 0xbb, 0x3c, 0x83, 0x53, 0x99, 0x61,
    0x17, 0x2b, 0x04, 0x7e, 0xba, 0x77, 0xd6, 0x26, 0xe1, 0x69, 0x14, 0x63, 0x55, 0x21, 0x0c, 0x7d]

/-- `getSBoxInvert`. -/
def getSBoxInvert (num : Byte) : Byte :=
  rsbox.getD num.toNat 0

@[simp] theorem getSBoxInvert_getSBoxValue : ∀ num, getSBoxInvert (getSBoxValue num) = num := by
  decide +kernel

@[simp] theorem getSBoxValue_getSBoxInvert : ∀ num, getSBoxValue (getSBoxInvert num) = num := by
  decide +kernel

/-! ## Multiplication of bytes -/

/-- The macro `xtime`. -/
def xtime (x : Byte) : Byte :=
  (x <<< 1) ^^^ (((x >>> 7) &&& 1) * 0x1b)

/-- What the loop of `xtimes` does with `a`. -/
def shifted (a : Byte) : Byte :=
  if a &&& 128 ≠ 0 then (a <<< 1) ^^^ 0x1b else a <<< 1

/-- The loop of `xtimes`. -/
def xtimesLoop : ℕ → Byte → Byte → Byte → Byte
  | 0, result, _, _ => result
  | count + 1, result, a, b =>
      xtimesLoop count (if b &&& 1 ≠ 0 then result ^^^ a else result) (shifted a) (b >>> 1)

/-- `xtimes`. -/
def xtimes (a b : Byte) : Byte :=
  xtimesLoop 8 0 a b

/-- Both routines double a byte in the same way. -/
theorem shifted_eq_xtime : ∀ a, shifted a = xtime a := by
  decide +kernel

/-! ## Round functions -/

/-- `SubBytes`. -/
def subBytes (state : State) : State :=
  fun i j => getSBoxValue (state i j)

/-- `InvSubBytes`. -/
def invSubBytes (state : State) : State :=
  fun i j => getSBoxInvert (state i j)

/-- `ShiftRows`. -/
def shiftRows (state : State) : State :=
  ![state 0,
    ![state 1 1, state 1 2, state 1 3, state 1 0],
    ![state 2 2, state 2 3, state 2 0, state 2 1],
    ![state 3 3, state 3 0, state 3 1, state 3 2]]

/-- `InvShiftRows`. -/
def invShiftRows (state : State) : State :=
  ![state 0,
    ![state 1 3, state 1 0, state 1 1, state 1 2],
    ![state 2 2, state 2 3, state 2 0, state 2 1],
    ![state 3 1, state 3 2, state 3 3, state 3 0]]

/-- The body of the loop of `MixColumns`.  It writes the bytes one after the
other, and a byte that was written is not read again. -/
def mixColumn (column : Column) : Column :=
  let t := column 0
  let tmp := column 0 ^^^ column 1 ^^^ column 2 ^^^ column 3
  ![column 0 ^^^ (xtime (column 0 ^^^ column 1) ^^^ tmp),
    column 1 ^^^ (xtime (column 1 ^^^ column 2) ^^^ tmp),
    column 2 ^^^ (xtime (column 2 ^^^ column 3) ^^^ tmp),
    column 3 ^^^ (xtime (column 3 ^^^ t) ^^^ tmp)]

/-- The body of the loop of `InvMixColumns`. -/
def invMixColumn (column : Column) : Column :=
  let a := column 0
  let b := column 1
  let c := column 2
  let d := column 3
  ![xtimes a 0x0e ^^^ xtimes b 0x0b ^^^ xtimes c 0x0d ^^^ xtimes d 0x09,
    xtimes a 0x09 ^^^ xtimes b 0x0e ^^^ xtimes c 0x0b ^^^ xtimes d 0x0d,
    xtimes a 0x0d ^^^ xtimes b 0x09 ^^^ xtimes c 0x0e ^^^ xtimes d 0x0b,
    xtimes a 0x0b ^^^ xtimes b 0x0d ^^^ xtimes c 0x09 ^^^ xtimes d 0x0e]

/-- `MixColumns`. -/
def mixColumns (state : State) : State :=
  fun j i => mixColumn (fun row => state row i) j

/-- `InvMixColumns`. -/
def invMixColumns (state : State) : State :=
  fun j i => invMixColumn (fun row => state row i) j

/-- `AddRoundKey`. -/
def addRoundKey (roundKey : List Byte) (round : ℕ) (state : State) : State :=
  fun j i => state j i ^^^ roundKey.getD (round * 4 * 4 + i * 4 + j) 0

/-! ## Keys -/

/-- The members of the cipher. -/
structure Cipher where
  nr : ℕ
  nk : ℕ
  /-- The array `RoundKey` of 240 bytes. -/
  roundKey : List Byte

/-- The four bytes from `i * 4` on. -/
def word (bytes : List Byte) (i : ℕ) : Column :=
  fun j => bytes.getD (i * 4 + j) 0

/-- Writes the four bytes from `i * 4` on. -/
def setWord (bytes : List Byte) (i : ℕ) (temp : Column) : List Byte :=
  (((bytes.set (i * 4) (temp 0)).set (i * 4 + 1) (temp 1)).set (i * 4 + 2) (temp 2)).set
    (i * 4 + 3) (temp 3)

/-- The word `temp` that `KeyExpansion` adds to an earlier one. -/
def nextTemp (nk : ℕ) (roundKey : List Byte) (i : ℕ) : Column :=
  let temp := word roundKey (i - 1)
  if i % nk = 0 then
    ![getSBoxValue (temp 1) ^^^ getRconValue (i / nk), getSBoxValue (temp 2),
      getSBoxValue (temp 3), getSBoxValue (temp 0)]
  else if 6 < nk ∧ i % nk = 4 then fun j => getSBoxValue (temp j)
  else temp

/-- `KeyExpansion`: the key first, then each word from the one before and the
one `Nk` words before. -/
def keyExpansion (nk nr : ℕ) (roundKey key : List Byte) : List Byte :=
  let first := (List.range nk).foldl (fun bytes i => setWord bytes i (word key i)) roundKey
  (List.range' nk (4 * (nr + 1) - nk)).foldl
    (fun bytes i =>
      setWord bytes i (fun j => word bytes (i - nk) j ^^^ nextTemp nk bytes i j)) first

/-- `key_setup`.  Another length is only reported. -/
def keySetup (cipher : Cipher) (key : List Byte) (keyLength : ℕ) : Cipher :=
  if keyLength = 128 then ⟨10, 4, keyExpansion 4 10 cipher.roundKey key⟩
  else if keyLength = 192 then ⟨12, 6, keyExpansion 6 12 cipher.roundKey key⟩
  else if keyLength = 256 then ⟨14, 8, keyExpansion 8 14 cipher.roundKey key⟩
  else cipher

/-! ## The cipher -/

/-- The copy of the input into `state`. -/
def load (input : Block) : State :=
  fun j i => input ⟨i * 4 + j, by omega⟩

/-- The copy of `state` into the output. -/
def store (state : State) : Block :=
  fun k => state ⟨k % 4, by omega⟩ ⟨k / 4, by omega⟩

/-- The rounds `1` to `n` of `encrypt`. -/
def rounds (roundKey : List Byte) : ℕ → State → State
  | 0, state => state
  | n + 1, state =>
      addRoundKey roundKey (n + 1)
        (mixColumns (shiftRows (subBytes (rounds roundKey n state))))

/-- The rounds `n` to `1` of `decrypt`. -/
def invRounds (roundKey : List Byte) : ℕ → State → State
  | 0, state => state
  | n + 1, state =>
      invRounds roundKey n
        (invMixColumns (addRoundKey roundKey (n + 1) (invSubBytes (invShiftRows state))))

/-- `encrypt`. -/
def encrypt (cipher : Cipher) (input : Block) : Block :=
  let state := addRoundKey cipher.roundKey 0 (load input)
  let state := rounds cipher.roundKey (cipher.nr - 1) state
  store (addRoundKey cipher.roundKey cipher.nr (shiftRows (subBytes state)))

/-- `decrypt`. -/
def decrypt (cipher : Cipher) (input : Block) : Block :=
  let state := addRoundKey cipher.roundKey cipher.nr (load input)
  let state := invRounds cipher.roundKey (cipher.nr - 1) state
  store (addRoundKey cipher.roundKey 0 (invSubBytes (invShiftRows state)))

/-! ## Linearity of the multiplications -/

theorem xtime_xor (x y : Byte) : xtime (x ^^^ y) = xtime x ^^^ xtime y := by
  have hone : ∀ u : Byte, u &&& 1 = 0 ∨ u &&& 1 = 1 := by decide +kernel
  have hbit : ∀ u v : Byte, ((u ^^^ v) &&& 1) * 0x1b = (u &&& 1) * 0x1b ^^^ (v &&& 1) * 0x1b := by
    intro u v
    have hsplit : (u ^^^ v) &&& 1 = (u &&& 1) ^^^ (v &&& 1) := by
      ext i
      simp [Bool.and_xor_distrib_right]
    rw [hsplit]
    rcases hone u with hu | hu <;> rcases hone v with hv | hv <;> rw [hu, hv] <;> decide
  unfold xtime
  rw [BitVec.shiftLeft_xor_distrib, BitVec.ushiftRight_xor_distrib, hbit]
  ac_rfl

theorem xtimesLoop_xor (b : Byte) (count : ℕ) (r s x y : Byte) :
    xtimesLoop count (r ^^^ s) (x ^^^ y) b = xtimesLoop count r x b ^^^ xtimesLoop count s y b := by
  induction count generalizing r s x y b with
  | zero => rfl
  | succ count ih =>
      have hdoubled : shifted (x ^^^ y) = shifted x ^^^ shifted y := by
        simp only [shifted_eq_xtime, xtime_xor]
      simp only [xtimesLoop]
      rw [hdoubled]
      split_ifs
      · rw [← ih]
        congr 1
        ac_rfl
      · exact ih _ _ _ _ _

theorem xtimes_xor (b x y : Byte) : xtimes (x ^^^ y) b = xtimes x b ^^^ xtimes y b :=
  xtimesLoop_xor b 8 0 0 x y

/-! ## Mixing of columns -/

theorem mixColumn_eq (column : Column) (j : Fin 4) :
    mixColumn column j = xtime (column j) ^^^ (xtime (column (j + 1)) ^^^ column (j + 1)) ^^^
      column (j + 2) ^^^ column (j + 3) := by
  have hcancel : ∀ x y z : Byte, x ^^^ (y ^^^ (x ^^^ z)) = y ^^^ z := by
    intro x y z
    calc x ^^^ (y ^^^ (x ^^^ z)) = (x ^^^ x) ^^^ (y ^^^ z) := by ac_rfl
      _ = y ^^^ z := by rw [BitVec.xor_self, BitVec.zero_xor]
  have hbyte : mixColumn column j = column j ^^^ (xtime (column j ^^^ column (j + 1)) ^^^
      (column j ^^^ (column (j + 1) ^^^ column (j + 2) ^^^ column (j + 3)))) := by
    match j with
    | 0 | 1 | 2 | 3 =>
        simp only [mixColumn, Fin.reduceAdd, Fin.isValue, Matrix.cons_val]
        ac_rfl
  rw [hbyte, hcancel, xtime_xor]
  ac_rfl

theorem invMixColumn_eq (column : Column) (j : Fin 4) :
    invMixColumn column j = xtimes (column j) 0x0e ^^^ xtimes (column (j + 1)) 0x0b ^^^
      xtimes (column (j + 2)) 0x0d ^^^ xtimes (column (j + 3)) 0x09 := by
  match j with
  | 0 => rfl
  | 1 | 2 | 3 =>
      simp only [invMixColumn, Fin.reduceAdd, Fin.isValue, Matrix.cons_val]
      ac_rfl

theorem xtimes_eq (x : Byte) :
    xtimes x 0x09 = x ^^^ xtime (xtime (xtime x)) ∧
    xtimes x 0x0b = x ^^^ xtime x ^^^ xtime (xtime (xtime x)) ∧
    xtimes x 0x0d = x ^^^ xtime (xtime x) ^^^ xtime (xtime (xtime x)) ∧
    xtimes x 0x0e = xtime x ^^^ xtime (xtime x) ^^^ xtime (xtime (xtime x)) := by
  simp [xtimes, xtimesLoop, shifted_eq_xtime]

/-- The product of the two matrices, entry by entry: one on the diagonal and
zero elsewhere, whatever `xtime` reduces by. -/
theorem xtimes_mixing (x : Byte) :
    xtimes (xtime x) 0x0e ^^^ xtimes x 0x0b ^^^ xtimes x 0x0d ^^^ xtimes (xtime x ^^^ x) 0x09 = x ∧
    xtimes (xtime x ^^^ x) 0x0e ^^^ xtimes (xtime x) 0x0b ^^^ xtimes x 0x0d ^^^ xtimes x 0x09 = 0 ∧
    xtimes x 0x0e ^^^ xtimes (xtime x ^^^ x) 0x0b ^^^ xtimes (xtime x) 0x0d ^^^ xtimes x 0x09 = 0 ∧
    xtimes x 0x0e ^^^ xtimes x 0x0b ^^^ xtimes (xtime x ^^^ x) 0x0d ^^^ xtimes (xtime x) 0x09 = 0 := by
  obtain ⟨h9, hb, hd, he⟩ := xtimes_eq x
  obtain ⟨h9', hb', hd', he'⟩ := xtimes_eq (xtime x)
  simp only [xtimes_xor, h9, hb, hd, he, h9', hb', hd', he']
  generalize xtime (xtime (xtime (xtime x))) = x4
  generalize xtime (xtime (xtime x)) = x3
  generalize xtime (xtime x) = x2
  generalize xtime x = x1
  refine ⟨?_, ?_, ?_, ?_⟩ <;> (ext i; simp; grind)

theorem xtimes_xtime (x : Byte) :
    xtimes (xtime x) 0x0e = xtime (xtimes x 0x0e) ∧ xtimes (xtime x) 0x0b = xtime (xtimes x 0x0b) ∧
    xtimes (xtime x) 0x0d = xtime (xtimes x 0x0d) ∧ xtimes (xtime x) 0x09 = xtime (xtimes x 0x09) := by
  obtain ⟨h9, hb, hd, he⟩ := xtimes_eq x
  obtain ⟨h9', hb', hd', he'⟩ := xtimes_eq (xtime x)
  simp only [h9, hb, hd, he, h9', hb', hd', he', xtime_xor, and_self]

theorem place_add (j : Fin 4) :
    j + 1 + 1 = j + 2 ∧ j + 1 + 2 = j + 3 ∧ j + 1 + 3 = j ∧ j + 2 + 1 = j + 3 ∧ j + 2 + 2 = j ∧
      j + 2 + 3 = j + 1 ∧ j + 3 + 1 = j ∧ j + 3 + 2 = j + 1 ∧ j + 3 + 3 = j + 2 := by
  fin_cases j <;> decide

theorem mixing_eq (column : Column) (j : Fin 4) :
    (xtimes (xtime (column j)) 0x0e ^^^ xtimes (column j) 0x0b ^^^ xtimes (column j) 0x0d ^^^
        xtimes (xtime (column j) ^^^ column j) 0x09) ^^^
      (xtimes (xtime (column (j + 1)) ^^^ column (j + 1)) 0x0e ^^^
        xtimes (xtime (column (j + 1))) 0x0b ^^^ xtimes (column (j + 1)) 0x0d ^^^
        xtimes (column (j + 1)) 0x09) ^^^
      (xtimes (column (j + 2)) 0x0e ^^^ xtimes (xtime (column (j + 2)) ^^^ column (j + 2)) 0x0b ^^^
        xtimes (xtime (column (j + 2))) 0x0d ^^^ xtimes (column (j + 2)) 0x09) ^^^
      (xtimes (column (j + 3)) 0x0e ^^^ xtimes (column (j + 3)) 0x0b ^^^
        xtimes (xtime (column (j + 3)) ^^^ column (j + 3)) 0x0d ^^^
        xtimes (xtime (column (j + 3))) 0x09) = column j := by
  obtain ⟨hdiagonal, -, -, -⟩ := xtimes_mixing (column j)
  obtain ⟨-, hfirst, -, -⟩ := xtimes_mixing (column (j + 1))
  obtain ⟨-, -, hsecond, -⟩ := xtimes_mixing (column (j + 2))
  obtain ⟨-, -, -, hthird⟩ := xtimes_mixing (column (j + 3))
  rw [hdiagonal, hfirst, hsecond, hthird]
  simp only [BitVec.ofNat_eq_ofNat, BitVec.xor_zero]

/-- **`InvMixColumns` undoes `MixColumns`** in a column. -/
@[simp] theorem invMixColumn_mixColumn (column : Column) :
    invMixColumn (mixColumn column) = column := by
  funext j
  refine Eq.trans ?_ (mixing_eq column j)
  simp only [invMixColumn_eq, mixColumn_eq, place_add, xtimes_xor]
  ac_rfl

/-- **`MixColumns` undoes `InvMixColumns`** in a column, as the two
multiplications commute. -/
@[simp] theorem mixColumn_invMixColumn (column : Column) :
    mixColumn (invMixColumn column) = column := by
  funext j
  refine Eq.trans ?_ (mixing_eq column j)
  simp only [invMixColumn_eq, mixColumn_eq, place_add, xtime_xor, xtimes_xor, ← xtimes_xtime]
  ac_rfl

/-! ## Inverse steps -/

@[simp] theorem invSubBytes_subBytes (state : State) : invSubBytes (subBytes state) = state := by
  funext i j
  exact getSBoxInvert_getSBoxValue _

@[simp] theorem subBytes_invSubBytes (state : State) : subBytes (invSubBytes state) = state := by
  funext i j
  exact getSBoxValue_getSBoxInvert _

@[simp] theorem invShiftRows_shiftRows (state : State) :
    invShiftRows (shiftRows state) = state := by
  funext i j
  fin_cases i <;> fin_cases j <;> rfl

@[simp] theorem shiftRows_invShiftRows (state : State) :
    shiftRows (invShiftRows state) = state := by
  funext i j
  fin_cases i <;> fin_cases j <;> rfl

@[simp] theorem invMixColumns_mixColumns (state : State) :
    invMixColumns (mixColumns state) = state := by
  funext j i
  exact congrFun (invMixColumn_mixColumn fun row => state row i) j

@[simp] theorem mixColumns_invMixColumns (state : State) :
    mixColumns (invMixColumns state) = state := by
  funext j i
  exact congrFun (mixColumn_invMixColumn fun row => state row i) j

@[simp] theorem addRoundKey_addRoundKey (roundKey : List Byte) (round : ℕ) (state : State) :
    addRoundKey roundKey round (addRoundKey roundKey round state) = state := by
  funext j i
  simp only [addRoundKey, BitVec.xor_assoc, BitVec.xor_self, BitVec.xor_zero]

@[simp] theorem load_store (state : State) : load (store state) = state := by
  funext j i
  fin_cases j <;> fin_cases i <;> rfl

@[simp] theorem store_load (input : Block) : store (load input) = input := by
  funext k
  unfold store load
  congr 1
  exact Fin.ext (by dsimp only; omega)

/-! ## The rounds -/

/-- **The inner rounds** of `decrypt` take the input of the last substitution
back to the input of the first one. -/
theorem invRounds_rounds (roundKey : List Byte) (n : ℕ) (state : State) :
    invRounds roundKey n (shiftRows (subBytes (rounds roundKey n state))) =
      shiftRows (subBytes state) := by
  induction n with
  | zero => rfl
  | succ n ih =>
      simp only [rounds, invRounds, invShiftRows_shiftRows, invSubBytes_subBytes,
        addRoundKey_addRoundKey, invMixColumns_mixColumns]
      exact ih

/-- **The inner rounds** of `encrypt` take the output of the last inverse
substitution back to the output of the first one. -/
theorem rounds_invRounds (roundKey : List Byte) (n : ℕ) (state : State) :
    rounds roundKey n (invSubBytes (invShiftRows (invRounds roundKey n state))) =
      invSubBytes (invShiftRows state) := by
  induction n generalizing state with
  | zero => rfl
  | succ n ih =>
      simp only [rounds, invRounds]
      rw [ih]
      simp only [subBytes_invSubBytes, shiftRows_invShiftRows, mixColumns_invMixColumns,
        addRoundKey_addRoundKey]

theorem decrypt_encrypt (cipher : Cipher) (input : Block) :
    decrypt cipher (encrypt cipher input) = input := by
  simp only [decrypt, encrypt, load_store, addRoundKey_addRoundKey, invRounds_rounds,
    invShiftRows_shiftRows, invSubBytes_subBytes, store_load]

theorem encrypt_decrypt (cipher : Cipher) (input : Block) :
    encrypt cipher (decrypt cipher input) = input := by
  simp only [decrypt, encrypt, load_store, addRoundKey_addRoundKey, rounds_invRounds,
    subBytes_invSubBytes, shiftRows_invShiftRows, store_load]

/-- **The cipher and its inverse.**  After `key_setup`, `decrypt` restores every
block that was encrypted and `encrypt` every block that was decrypted. -/
theorem keySetup_inverse (cipher : Cipher) (key : List Byte) (keyLength : ℕ) (x : Block) :
    decrypt (keySetup cipher key keyLength) (encrypt (keySetup cipher key keyLength) x) = x ∧
      encrypt (keySetup cipher key keyLength) (decrypt (keySetup cipher key keyLength) x) = x :=
  ⟨decrypt_encrypt _ x, encrypt_decrypt _ x⟩

example :
    let key := (List.range 16).map fun k => BitVec.ofNat 8 k
    let cipher := keySetup ⟨0, 0, List.replicate 240 0⟩ key 128
    (List.finRange 16).map (encrypt cipher fun k => 0x11 * BitVec.ofNat 8 k) =
      [0x69, 0xc4, 0xe0, 0xd8, 0x6a, 0x7b, 0x04, 0x30, 0xd8, 0xcd, 0xb7, 0x80, 0x70, 0xb4, 0xc5,
        0x5a] := by
  decide +kernel

end Wiselib.Crypto.Aes
