import Wiselib.Library.ByteBuffer

/-!
# Protobuf varints

`VarInt` of `util/protobuf/varint.h` writes an unsigned integer in groups of
seven bits, the lowest group first, and reads it back; `Byte` of
`util/protobuf/byte.h` moves one byte through a pair of iterators.  The width of
`int_t` is the parameter `w`, that of the type `unsigned` of the platform is
`u`: `write` converts its argument to `unsigned` before it looks at it, `read`
collects the groups in `int_t`.

## Strategy

* `groups n` is what a varint of the number `n` looks like; `groups_of_lt` and
  `groups_of_le` unfold it once.
* `write_spec` says that `write` stores `groups (v % 2 ^ u)` where they fit, and
  `read_groups` that `read` finds `n` modulo `2 ^ w` at the groups of `n`.
* `read_within` and `read_local` keep the reader before `buffer_end`, so the
  value that comes back is the one that was written precisely if it fits into
  `unsigned` (`roundTrip_iff`).
-/

namespace VarInt

/-- A pair of iterators `buffer` and `buffer_end` into a memory of bytes. -/
structure Cursor where
  memory : ℕ → BitVec 8
  buffer : ℕ
  bufferEnd : ℕ
  inside : buffer ≤ bufferEnd

/-- `++buffer`, from an iterator that has not reached `buffer_end`. -/
def Cursor.next (cursor : Cursor) (hroom : cursor.buffer ≠ cursor.bufferEnd) : Cursor where
  memory := cursor.memory
  buffer := cursor.buffer + 1
  bufferEnd := cursor.bufferEnd
  inside := by have := cursor.inside; omega

/-- The same iterators into another memory. -/
def Cursor.over (cursor : Cursor) (memory : ℕ → BitVec 8) : Cursor :=
  { cursor with memory := memory }

/-- The same iterators with `cells` stored from `buffer` on. -/
def Cursor.stored (cursor : Cursor) (cells : List (BitVec 8)) : Cursor :=
  cursor.over (ByteBuffer.write cursor.memory cursor.buffer cells)

/-- `count` times `++buffer`. -/
def Cursor.advance (cursor : Cursor) (count : ℕ)
    (hroom : cursor.buffer + count ≤ cursor.bufferEnd) : Cursor where
  memory := cursor.memory
  buffer := cursor.buffer + count
  bufferEnd := cursor.bufferEnd
  inside := hroom

/-- `Byte::write`. -/
def writeByte (cursor : Cursor) (v : BitVec 8) : Bool × Cursor :=
  if hroom : cursor.buffer = cursor.bufferEnd then (false, cursor)
  else (true, (cursor.stored [v]).next hroom)

/-- `Byte::read`; nothing is `return false`. -/
def readByte (cursor : Cursor) : Option (BitVec 8) × Cursor :=
  if hroom : cursor.buffer = cursor.bufferEnd then (none, cursor)
  else (some (cursor.memory cursor.buffer), cursor.next hroom)

/-- The mask of the seven data bits. -/
def DATA : ℕ := 0x7f

variable {w u : ℕ}

/-- The byte `(v & DATA) | (continuation << 7)`, computed in `unsigned` and
converted to `int_t` and then to a byte. -/
def groupByte (w : ℕ) (v : BitVec u) (continuation : Bool) : BitVec 8 :=
  (((v &&& BitVec.ofNat u DATA) ||| BitVec.ofNat u (continuation.toNat <<< 7)).setWidth w).setWidth 8

theorem shift_lt_of_continuation {v : BitVec u} (hcont : (v >>> 7 != 0) = true) :
    (v >>> 7).toNat < v.toNat := by
  have hne : (v >>> 7).toNat ≠ 0 := by simpa [BitVec.toNat_eq] using hcont
  have hshift : (v >>> 7).toNat = v.toNat / 128 := by
    simp [Nat.shiftRight_eq_div_pow]
  omega

/-- `VarInt::write`.  The bytes written before `buffer_end` is reached stay in
the buffer. -/
def write (u : ℕ) (cursor : Cursor) (v_ : BitVec w) : Bool × Cursor :=
  let v : BitVec u := v_.setWidth u
  let continuation : Bool := v >>> 7 != 0
  match writeByte cursor (groupByte w v continuation) with
  | (false, cursor) => (false, cursor)
  | (true, cursor) =>
      if _hcont : continuation = true then write u cursor ((v >>> 7).setWidth w)
      else (true, cursor)
termination_by v_.toNat
decreasing_by
  have hlt := shift_lt_of_continuation _hcont
  calc ((v >>> 7).setWidth w).toNat
      ≤ (v >>> 7).toNat := by simpa using Nat.mod_le _ _
    _ < v.toNat := hlt
    _ ≤ v_.toNat := by simpa [v] using Nat.mod_le _ _

theorem room_lt_of_readByte {cursor after : Cursor} {b : BitVec 8}
    (hread : readByte cursor = (some b, after)) :
    after.bufferEnd - after.buffer < cursor.bufferEnd - cursor.buffer := by
  have hinside := cursor.inside
  unfold readByte at hread
  split at hread
  · simp at hread
  · obtain ⟨-, rfl⟩ := Prod.mk.inj hread
    simp only [Cursor.next]
    omega

/-- `VarInt::read`; nothing is `return false`, which leaves the iterator where
the buffer ended. -/
def read (w : ℕ) (cursor : Cursor) : Option (BitVec w) × Cursor :=
  match _hread : readByte cursor with
  | (none, cursor) => (none, cursor)
  | (some b, after) =>
      let v : BitVec w := b.setWidth w
      let continuation : Bool := v >>> 7 != 0
      let v := v &&& BitVec.ofNat w DATA
      if continuation = true then
        match read w after with
        | (none, last) => (none, last)
        | (some v2, last) => (some (v ||| v2 <<< 7), last)
      else (some v, after)
termination_by cursor.bufferEnd - cursor.buffer
decreasing_by exact room_lt_of_readByte _hread

/-! ## One step -/

variable {cursor : Cursor}

theorem readByte_of_eq (hroom : cursor.buffer = cursor.bufferEnd) :
    readByte cursor = (none, cursor) := dif_pos hroom

theorem readByte_of_ne (hroom : cursor.buffer ≠ cursor.bufferEnd) :
    readByte cursor = (some (cursor.memory cursor.buffer), cursor.next hroom) := dif_neg hroom

theorem writeByte_of_eq (hroom : cursor.buffer = cursor.bufferEnd) (v : BitVec 8) :
    writeByte cursor v = (false, cursor) := dif_pos hroom

theorem writeByte_of_ne (hroom : cursor.buffer ≠ cursor.bufferEnd) (v : BitVec 8) :
    writeByte cursor v = (true, (cursor.stored [v]).next hroom) := dif_neg hroom

theorem read_of_eq (hroom : cursor.buffer = cursor.bufferEnd) : read w cursor = (none, cursor) := by
  rw [read]
  split
  · next after hread =>
    rw [readByte_of_eq hroom] at hread
    exact Prod.ext rfl (Prod.mk.inj hread).2.symm
  · next hread => simp [readByte_of_eq hroom] at hread

theorem read_of_ne (hroom : cursor.buffer ≠ cursor.bufferEnd) :
    read w cursor =
      (let v : BitVec w := (cursor.memory cursor.buffer).setWidth w
       if (v >>> 7 != 0) = true then
        ((read w (cursor.next hroom)).1.map fun v2 : BitVec w =>
            v &&& BitVec.ofNat w DATA ||| v2 <<< 7,
          (read w (cursor.next hroom)).2)
      else (some (v &&& BitVec.ofNat w DATA), cursor.next hroom)) := by
  rw [read]
  split
  · next hread => simp [readByte_of_ne hroom] at hread
  · next b after hread =>
    rw [readByte_of_ne hroom, Prod.mk.injEq, Option.some.injEq] at hread
    obtain ⟨rfl, rfl⟩ := hread
    dsimp only
    split
    · rcases read w (cursor.next hroom) with ⟨_ | v2, last⟩ <;> rfl
    · rfl

/-! ## The groups of a number -/

/-- The bytes of a varint: seven bits each, the lowest first, with the top bit
set on all but the last. -/
def groups (n : ℕ) : List (BitVec 8) :=
  if n < 128 then [BitVec.ofNat 8 n]
  else BitVec.ofNat 8 (n % 128 + 128) :: groups (n / 128)

theorem groups_of_lt {n : ℕ} (hlt : n < 128) : groups n = [BitVec.ofNat 8 n] := by
  rw [groups, if_pos hlt]

theorem groups_of_le {n : ℕ} (hle : 128 ≤ n) :
    groups n = BitVec.ofNat 8 (n % 128 + 128) :: groups (n / 128) := by
  rw [groups, if_neg (by omega)]

theorem length_groups_pos (n : ℕ) : 0 < (groups n).length := by
  rw [groups]
  split <;> simp

theorem shift_bne_zero (v : BitVec u) : (v >>> 7 != 0) = decide (128 ≤ v.toNat) := by
  have hshift : (v >>> 7).toNat = v.toNat / 128 := by simp [Nat.shiftRight_eq_div_pow]
  rw [Bool.eq_iff_iff, bne_iff_ne, decide_eq_true_iff, ne_eq, BitVec.toNat_eq, hshift,
    show (0 : BitVec u).toNat = 0 from BitVec.toNat_zero]
  omega

theorem groupByte_eq (hw : 8 ≤ w) (hu : 8 ≤ u) (v : BitVec u) (continuation : Bool) :
    groupByte w v continuation = BitVec.ofNat 8 (v.toNat % 128 + 128 * continuation.toNat) := by
  apply BitVec.eq_of_getLsbD_eq
  intro i hi
  have hiw : i < w := by omega
  have hiu : i < u := by omega
  have hdata : DATA.testBit i = decide (i < 7) := Nat.testBit_two_pow_sub_one 7 i
  have hsum : (v.toNat % 128 + 128 * continuation.toNat).testBit i =
      if i < 7 then (v.toNat % 128).testBit i else continuation.toNat.testBit (i - 7) := by
    rw [Nat.add_comm]
    have hlow : v.toNat % 128 < 2 ^ 7 := Nat.mod_lt _ (by decide)
    exact Nat.testBit_two_pow_mul_add continuation.toNat hlow i
  have hmod : (v.toNat % 128).testBit i = (decide (i < 7) && v.toNat.testBit i) :=
    Nat.testBit_mod_two_pow v.toNat 7 i
  simp only [groupByte, BitVec.getLsbD_setWidth, BitVec.getLsbD_or, BitVec.getLsbD_and,
    BitVec.getLsbD_ofNat, hi, hiw, hiu, hdata, hsum, hmod, decide_true, Bool.true_and,
    Nat.testBit_shiftLeft]
  by_cases hlow : i < 7
  · simp [hlow, show ¬ 7 ≤ i by omega, BitVec.testBit_toNat]
  · simp [hlow, show 7 ≤ i by omega]

theorem join_groups (n : ℕ) :
    BitVec.ofNat w (n % 128) ||| BitVec.ofNat w (n / 128) <<< 7 = BitVec.ofNat w n := by
  apply BitVec.eq_of_getLsbD_eq
  intro i hi
  have hmod : (n % 128).testBit i = (decide (i < 7) && n.testBit i) :=
    Nat.testBit_mod_two_pow n 7 i
  have hdiv : ∀ j, (n / 128).testBit j = n.testBit (7 + j) := fun j => by
    have hshift : (n / 2 ^ 7).testBit j = n.testBit (j + 7) := Nat.testBit_div_two_pow n j
    rw [Nat.add_comm]
    exact hshift
  simp only [BitVec.getLsbD_or, BitVec.getLsbD_ofNat, BitVec.getLsbD_shiftLeft, hi, hmod, hdiv,
    decide_true, Bool.true_and]
  by_cases hlow : i < 7
  · simp [hlow]
  · have hrest : 7 + (i - 7) = i := by omega
    simp [hlow, hrest, show i - 7 < w by omega]

/-! ## The writer -/

theorem Cursor.stored_cons (cursor : Cursor) (hroom : cursor.buffer ≠ cursor.bufferEnd)
    (cell : BitVec 8) (cells : List (BitVec 8))
    (hrest : ((cursor.stored [cell]).next hroom).buffer + cells.length ≤ cursor.bufferEnd)
    (hall : cursor.buffer + (cell :: cells).length ≤ cursor.bufferEnd) :
    (((cursor.stored [cell]).next hroom).stored cells).advance cells.length hrest =
      (cursor.stored (cell :: cells)).advance (cell :: cells).length hall := by
  have hmemory : ByteBuffer.write (ByteBuffer.write cursor.memory cursor.buffer [cell])
      (cursor.buffer + 1) cells = ByteBuffer.write cursor.memory cursor.buffer (cell :: cells) :=
    (ByteBuffer.write_cons ..).symm
  simp only [Cursor.next, Cursor.stored, Cursor.over, Cursor.advance, hmemory, List.length_cons, Cursor.mk.injEq,
    true_and, and_true]
  omega

theorem toNat_next_group {v_ : BitVec w} {n : ℕ} (hn : v_.toNat % 2 ^ u = n) :
    (((v_.setWidth u) >>> 7).setWidth w : BitVec w).toNat % 2 ^ u = n / 128 := by
  have hshift : (v_.setWidth u >>> 7).toNat = n / 128 := by
    rw [BitVec.toNat_ushiftRight, BitVec.toNat_setWidth, hn, Nat.shiftRight_eq_div_pow]
  have hdiv : n / 128 ≤ n := Nat.div_le_self n 128
  have hnw : n / 128 < 2 ^ w :=
    calc n / 128 ≤ n := hdiv
      _ ≤ v_.toNat := hn ▸ Nat.mod_le _ _
      _ < 2 ^ w := v_.isLt
  have hnu : n / 128 < 2 ^ u :=
    calc n / 128 ≤ n := hdiv
      _ < 2 ^ u := hn ▸ Nat.mod_lt _ (by positivity)
  rw [BitVec.toNat_setWidth, hshift, Nat.mod_eq_of_lt hnw, Nat.mod_eq_of_lt hnu]

theorem write_of_eq (hroom : cursor.buffer = cursor.bufferEnd) (v_ : BitVec w) :
    write u cursor v_ = (false, cursor) := by
  rw [write, writeByte_of_eq hroom]

theorem write_of_lt (hw : 8 ≤ w) (hu : 8 ≤ u) (hroom : cursor.buffer ≠ cursor.bufferEnd)
    {v_ : BitVec w} {n : ℕ} (hn : v_.toNat % 2 ^ u = n) (hlt : n < 128) :
    write u cursor v_ = (true, (cursor.stored [BitVec.ofNat 8 n]).next hroom) := by
  have htoNat : (v_.setWidth u).toNat = n := by rw [BitVec.toNat_setWidth, hn]
  have hcont : (v_.setWidth u >>> 7 != 0) = false := by
    rw [shift_bne_zero, htoNat, decide_eq_false_iff_not]
    omega
  have hcell : groupByte w (v_.setWidth u) false = BitVec.ofNat 8 n := by
    rw [groupByte_eq hw hu, htoNat, Nat.mod_eq_of_lt hlt]
    rfl
  rw [write, hcont, hcell, writeByte_of_ne hroom]
  rfl

theorem write_of_le (hw : 8 ≤ w) (hu : 8 ≤ u) (hroom : cursor.buffer ≠ cursor.bufferEnd)
    {v_ : BitVec w} {n : ℕ} (hn : v_.toNat % 2 ^ u = n) (hle : 128 ≤ n) :
    write u cursor v_ =
      write u ((cursor.stored [BitVec.ofNat 8 (n % 128 + 128)]).next hroom)
        ((v_.setWidth u >>> 7).setWidth w) := by
  have htoNat : (v_.setWidth u).toNat = n := by rw [BitVec.toNat_setWidth, hn]
  have hcont : (v_.setWidth u >>> 7 != 0) = true := by
    rw [shift_bne_zero, htoNat, decide_eq_true_iff]
    exact hle
  have hcell : groupByte w (v_.setWidth u) true = BitVec.ofNat 8 (n % 128 + 128) := by
    rw [groupByte_eq hw hu, htoNat]
    rfl
  rw [write, hcont, hcell, writeByte_of_ne hroom]
  simp

/-- The writer stores the groups of what the conversion to `unsigned` leaves, or
refuses for want of room. -/
theorem write_spec (hw : 8 ≤ w) (hu : 8 ≤ u) (cursor : Cursor) (v_ : BitVec w) :
    if hroom : cursor.buffer + (groups (v_.toNat % 2 ^ u)).length ≤ cursor.bufferEnd then
      write u cursor v_ = (true, (cursor.stored (groups (v_.toNat % 2 ^ u))).advance _ hroom)
    else (write u cursor v_).1 = false := by
  obtain ⟨n, hn⟩ : ∃ n, v_.toNat % 2 ^ u = n := ⟨_, rfl⟩
  rw [hn]
  induction n using Nat.strong_induction_on generalizing cursor v_ with
  | h n ih =>
    have hinside := cursor.inside
    have hlen := length_groups_pos n
    by_cases hfull : cursor.buffer = cursor.bufferEnd
    · rw [dif_neg (by omega), write_of_eq hfull]
    by_cases hlt : n < 128
    · simp only [groups_of_lt hlt, List.length_singleton]
      rw [dif_pos (by omega), write_of_lt hw hu hfull hn hlt]
      rfl
    · have hle : 128 ≤ n := Nat.le_of_not_lt hlt
      have hrest := ih (n / 128) (by omega)
        ((cursor.stored [BitVec.ofNat 8 (n % 128 + 128)]).next hfull) _ (toNat_next_group hn)
      rw [write_of_le hw hu hfull hn hle]
      have hlength : (groups n).length = (groups (n / 128)).length + 1 := by
        rw [groups_of_le hle, List.length_cons]
      have hbuffer : ((cursor.stored [BitVec.ofNat 8 (n % 128 + 128)]).next hfull).buffer =
          cursor.buffer + 1 := rfl
      have hend : ((cursor.stored [BitVec.ofNat 8 (n % 128 + 128)]).next hfull).bufferEnd =
          cursor.bufferEnd := rfl
      by_cases hroom : cursor.buffer + (groups n).length ≤ cursor.bufferEnd
      · rw [dif_pos (by rw [hbuffer, hend]; omega)] at hrest
        simp only [groups_of_le hle] at hroom ⊢
        rw [dif_pos hroom, hrest]
        exact congrArg (Prod.mk true) (Cursor.stored_cons cursor hfull _ _ _ hroom)
      · rw [dif_neg hroom]
        rwa [dif_neg (by rw [hbuffer, hend]; omega)] at hrest

/-! ## The reader -/

/-- What is read at the groups of a number is the number, as far as `int_t`
holds it. -/
theorem read_groups (hw : 8 ≤ w) (n : ℕ) (cursor : Cursor)
    (hholds : ByteBuffer.Holds cursor.memory cursor.buffer (groups n))
    (hroom : cursor.buffer + (groups n).length ≤ cursor.bufferEnd) :
    read w cursor = (some (BitVec.ofNat w n), cursor.advance _ hroom) := by
  induction n using Nat.strong_induction_on generalizing cursor with
  | h n ih =>
    have hlen := length_groups_pos n
    have hfull : cursor.buffer ≠ cursor.bufferEnd := by omega
    have hwide : 2 ^ 8 ≤ 2 ^ w := Nat.pow_le_pow_right (by decide) hw
    have hmask : ∀ m < 256, BitVec.ofNat w m &&& BitVec.ofNat w DATA = BitVec.ofNat w (m % 128) := by
      intro m hm
      rw [← BitVec.ofNat_and]
      exact congrArg _ (Nat.and_two_pow_sub_one_eq_mod m 7)
    rw [read_of_ne hfull]
    by_cases hlt : n < 128
    · have hgroups := groups_of_lt hlt
      rw [hgroups] at hholds
      have hcell : cursor.memory cursor.buffer = BitVec.ofNat 8 n := by
        simpa using (ByteBuffer.holds_cons.1 hholds).1
      have hv : (BitVec.ofNat 8 n).setWidth w = BitVec.ofNat w n := by
        apply BitVec.eq_of_toNat_eq
        simp only [BitVec.toNat_setWidth, BitVec.toNat_ofNat]
        rw [Nat.mod_eq_of_lt (show n < 2 ^ 8 by omega)]
      have hcont : (BitVec.ofNat w n >>> 7 != 0) = false := by
        rw [shift_bne_zero, BitVec.toNat_ofNat, Nat.mod_eq_of_lt (by omega), decide_eq_false_iff_not]
        omega
      simp only [hcell, hv, hcont, hmask n (by omega), Nat.mod_eq_of_lt hlt, hgroups]
      rfl
    · have hle : 128 ≤ n := Nat.le_of_not_lt hlt
      have hgroups := groups_of_le hle
      rw [hgroups] at hholds
      obtain ⟨hfirst, hbehind⟩ := ByteBuffer.holds_cons.1 hholds
      have hv : (cursor.memory cursor.buffer).setWidth w = BitVec.ofNat w (n % 128 + 128) := by
        rw [hfirst]
        apply BitVec.eq_of_toNat_eq
        simp only [BitVec.toNat_setWidth, BitVec.toNat_ofNat]
        rw [Nat.mod_eq_of_lt (show n % 128 + 128 < 2 ^ 8 by omega)]
      have hcont : (BitVec.ofNat w (n % 128 + 128) >>> 7 != 0) = true := by
        rw [shift_bne_zero, BitVec.toNat_ofNat, Nat.mod_eq_of_lt (by omega), decide_eq_true_iff]
        omega
      have hlength : (groups n).length = (groups (n / 128)).length + 1 := by
        rw [hgroups, List.length_cons]
      have hrest := ih (n / 128) (by omega) (cursor.next hfull) hbehind (by
        simp only [Cursor.next]
        omega)
      simp only [hv, hcont, if_true, hrest, Option.map_some, hmask _ (show n % 128 + 128 < 256 by omega)]
      rw [show (n % 128 + 128) % 128 = n % 128 by omega, join_groups]
      simp only [Prod.mk.injEq, true_and, Cursor.advance, Cursor.next, Cursor.mk.injEq, and_true]
      omega

/-- The reader leaves the memory alone and stops at `buffer_end` at the latest. -/
theorem read_within (w : ℕ) (cursor : Cursor) :
    (read w cursor).2.memory = cursor.memory ∧ (read w cursor).2.bufferEnd = cursor.bufferEnd ∧
      cursor.buffer ≤ (read w cursor).2.buffer ∧ (read w cursor).2.buffer ≤ cursor.bufferEnd := by
  obtain ⟨room, hroom⟩ : ∃ room, cursor.bufferEnd = cursor.buffer + room :=
    Nat.exists_eq_add_of_le cursor.inside
  induction room generalizing cursor with
  | zero =>
    rw [read_of_eq (by omega)]
    exact ⟨rfl, rfl, le_rfl, cursor.inside⟩
  | succ room ih =>
    have hfull : cursor.buffer ≠ cursor.bufferEnd := by omega
    obtain ⟨hmemory, hend, hlow, hhigh⟩ := ih (cursor.next hfull) (by
      simp only [Cursor.next]
      omega)
    simp only [Cursor.next] at hmemory hend hlow hhigh
    rw [read_of_ne hfull]
    dsimp only
    split
    · exact ⟨hmemory, hend, by simp only [Cursor.next]; omega, hhigh⟩
    · refine ⟨rfl, rfl, ?_, ?_⟩ <;> simp only [Cursor.next] <;> omega

theorem read_local (w : ℕ) (cursor : Cursor) (memory : ℕ → BitVec 8)
    (hsame : ∀ i, cursor.buffer ≤ i → i < (read w cursor).2.buffer → memory i = cursor.memory i) :
    read w (cursor.over memory) = ((read w cursor).1, (read w cursor).2.over memory) := by
  obtain ⟨room, hroom⟩ : ∃ room, cursor.bufferEnd = cursor.buffer + room :=
    Nat.exists_eq_add_of_le cursor.inside
  induction room generalizing cursor with
  | zero =>
    have hfull : cursor.buffer = cursor.bufferEnd := by omega
    have hover : (cursor.over memory).buffer = (cursor.over memory).bufferEnd := hfull
    rw [read_of_eq hfull, read_of_eq hover]
  | succ room ih =>
    have hfull : cursor.buffer ≠ cursor.bufferEnd := by omega
    have hover : (cursor.over memory).buffer ≠ (cursor.over memory).bufferEnd := hfull
    have hnext : (cursor.over memory).next hover = (cursor.next hfull).over memory := rfl
    have hlow : cursor.buffer + 1 ≤ (read w (cursor.next hfull)).2.buffer :=
      (read_within w (cursor.next hfull)).2.2.1
    have hend : (cursor.next hfull).bufferEnd = (cursor.next hfull).buffer + room := by
      simp only [Cursor.next]
      omega
    have hstep := @read_of_ne w cursor hfull
    have hstepOver := @read_of_ne w (cursor.over memory) hover
    simp only [hnext] at hstepOver
    by_cases hcont : ((cursor.memory cursor.buffer).setWidth w >>> 7 != 0) = true
    · simp only [hcont, if_true] at hstep
      rw [hstep] at hsame ⊢
      have hcell : (cursor.over memory).memory (cursor.over memory).buffer =
          cursor.memory cursor.buffer := hsame cursor.buffer le_rfl hlow
      simp only [hcell, hcont, if_true] at hstepOver
      have hrest := ih (cursor.next hfull)
        (fun i hle hlt => hsame i (Nat.le_of_succ_le hle) hlt) hend
      rw [hstepOver, hrest]
    · simp only [hcont] at hstep
      rw [hstep] at hsame ⊢
      have hcell : (cursor.over memory).memory (cursor.over memory).buffer =
          cursor.memory cursor.buffer := hsame cursor.buffer le_rfl (Nat.lt_succ_self _)
      simp only [hcell, hcont] at hstepOver
      rw [hstepOver]
      rfl

/-! ## Round trip -/

/-- What is read at the bytes written for a value is the value, and the reader
stops where the writer stopped. -/
def RoundTrips (u : ℕ) (v : BitVec w) : Prop :=
  ∀ cursor after : Cursor, write u cursor v = (true, after) →
    read w (cursor.over after.memory) = (some v, after)

/-- From any bytes, the reader stays before `buffer_end`, and bytes it has not
passed, in particular those from `buffer_end` on, do not bear on its outcome. -/
def ReaderWithin (w : ℕ) : Prop :=
  ∀ cursor : Cursor,
    (read w cursor).2.bufferEnd = cursor.bufferEnd ∧
      (read w cursor).2.buffer ≤ cursor.bufferEnd ∧
      ∀ memory : ℕ → BitVec 8,
        (∀ i, cursor.buffer ≤ i → i < (read w cursor).2.buffer → memory i = cursor.memory i) →
          read w (cursor.over memory) = ((read w cursor).1, (read w cursor).2.over memory)

theorem readerWithin (w : ℕ) : ReaderWithin w := fun cursor =>
  ⟨(read_within w cursor).2.1, (read_within w cursor).2.2.2, read_local w cursor⟩

theorem read_of_write (hw : 8 ≤ w) (hu : 8 ≤ u) {v : BitVec w} {cursor after : Cursor}
    (hwrite : write u cursor v = (true, after)) :
    read w (cursor.over after.memory) =
      (some (BitVec.ofNat w (v.toNat % 2 ^ u)), after) := by
  have hspec := write_spec hw hu cursor v
  split at hspec
  · next hroom =>
    obtain ⟨-, rfl⟩ := Prod.mk.inj (hwrite.symm.trans hspec)
    exact read_groups hw _ (cursor.stored (groups (v.toNat % 2 ^ u))) ByteBuffer.holds_write hroom
  · rw [hwrite] at hspec
    cases hspec

theorem exists_write (hw : 8 ≤ w) (hu : 8 ≤ u) (v : BitVec w) :
    ∃ cursor after : Cursor, write u cursor v = (true, after) := by
  have hspec := write_spec hw hu
    ⟨fun _ => 0, 0, (groups (v.toNat % 2 ^ u)).length, Nat.zero_le _⟩ v
  rw [dif_pos (by simp)] at hspec
  exact ⟨_, _, hspec⟩

theorem roundTrips_iff (hw : 8 ≤ w) (hu : 8 ≤ u) (v : BitVec w) :
    RoundTrips u v ↔ v.toNat < 2 ^ u := by
  constructor
  · intro htrip
    obtain ⟨cursor, after, hwrite⟩ := exists_write hw hu v
    have hread := (read_of_write hw hu hwrite).symm.trans (htrip cursor after hwrite)
    have hvalue : BitVec.ofNat w (v.toNat % 2 ^ u) = v := Option.some.inj (Prod.mk.inj hread).1
    calc v.toNat
        = (BitVec.ofNat w (v.toNat % 2 ^ u)).toNat := by rw [hvalue]
      _ ≤ v.toNat % 2 ^ u := by simpa using Nat.mod_le _ _
      _ < 2 ^ u := Nat.mod_lt _ (by positivity)
  · intro hlt cursor after hwrite
    have hread := read_of_write hw hu hwrite
    rwa [Nat.mod_eq_of_lt hlt, BitVec.ofNat_toNat, BitVec.setWidth_eq] at hread

/-- A varint survives the round trip if and only if `unsigned`, to which the
writer converts it, holds it. -/
theorem varInt_faithful_iff (hw : 8 ≤ w) (hu : 16 ≤ u) (v : BitVec w) :
    RoundTrips u v ∧ ReaderWithin w ↔ v.toNat < 2 ^ u := by
  rw [and_iff_left (readerWithin w)]
  exact roundTrips_iff hw (by omega) v

theorem varInt_faithful_iff_at_300 :
    (8 ≤ 64 ∧ 16 ≤ 32) ∧
      (RoundTrips 32 (300 : BitVec 64) ∧ ReaderWithin 64 ↔ (300 : BitVec 64).toNat < 2 ^ 32) :=
  ⟨by decide, varInt_faithful_iff (by decide) (by decide) 300⟩

/-- Where `unsigned` has 32 bits, `2 ^ 32` in 64 bits is read back as zero. -/
theorem varInt_loses_upper_half :
    ¬ ∀ v : BitVec 64, RoundTrips 32 v ∧ ReaderWithin 64 := by
  intro hall
  have htrip := (hall (BitVec.ofNat 64 (2 ^ 32))).1
  rw [roundTrips_iff (by decide) (by decide)] at htrip
  exact absurd htrip (by decide)

end VarInt
