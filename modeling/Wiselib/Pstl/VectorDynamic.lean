import Wiselib.Library.Run

/-!
# The dynamic vector

`vector_dynamic` of `util/pstl/vector_dynamic.h`.  Its size and its capacity are
16-bit numbers beside a pointer to an array that an allocator provides.  An access
outside of that array is undefined, which is a step without a result here, and so is
one through an iterator into an array that has been freed.

## Strategy

`Sound` says that the capacity is the length of the array and the size at most that.
`Safe` is what a call needs to keep it that way: `attach` and `detach` leave the
capacity as it is, `erase` reads one element behind the last, `insert` goes on with an
iterator from before it grows, `resize` copies as many elements as the new size has,
and a capacity of 2 ^ 15 or more cannot be doubled.  A call that meets its condition
goes through (`perform_of_safe`), and so does a run of them (`sound_of_safe_run`).

`change_capacity` is the one place where the array is exchanged, so its
specification (`changeCapacity_spec`) is all that the other calls need.

`size_t` and `int` are taken wide enough for twice a 16-bit number.
-/

namespace Wiselib.Pstl

open Transition

/-- The size and the capacity, and the array the buffer points to, if any.  Cells of a
new array hold no value yet.  `allocation` tells arrays apart: iterators into different
arrays are different. -/
structure VectorDynamic (α : Type*) where
  size : ℕ
  capacity : ℕ
  buffer : Option (List (Option α))
  allocation : ℕ

namespace VectorDynamic

variable {α : Type*}

/-- The number of values of `uint16_t`. -/
def uint16 : ℕ := 2 ^ 16

/-- The default constructor. -/
def new : VectorDynamic α := ⟨0, 0, none, 0⟩

/-- The number of elements that are allocated. -/
def allocated (vector : VectorDynamic α) : ℕ := (vector.buffer.getD []).length

/-- `buffer_[n]`. -/
def read (vector : VectorDynamic α) (n : ℕ) : Option (Option α) := (vector.buffer.getD [])[n]?

/-- `buffer_[n] = x`. -/
def write (vector : VectorDynamic α) (n : ℕ) (x : Option α) : Option (VectorDynamic α) :=
  if n < vector.allocated then
    some { vector with buffer := vector.buffer.map fun cells => cells.set n x }
  else none

/-- `change_capacity`.  The allocator returns a null pointer where it does not grant the
request; no element is copied to or from a null pointer. -/
def changeCapacity (grants : ℕ → Bool) (vector : VectorDynamic α) (n : ℕ) :
    Option (VectorDynamic α) :=
  let newBuffer := if n ≠ 0 ∧ grants n = true then some (List.replicate n none) else none
  let next : VectorDynamic α :=
    { vector with
      capacity := n % uint16
      buffer := newBuffer
      allocation := vector.allocation + 1 }
  match vector.buffer with
  | none => some next
  | some cells =>
      if vector.size ≤ cells.length ∧ vector.size ≤ (newBuffer.getD []).length then
        some { next with
          buffer := newBuffer.map fun fresh =>
            cells.take vector.size ++ fresh.drop vector.size }
      else none

/-- The capacity that `grow` asks for, `VECTOR_DYNAMIC_MIN_SIZE` at least. -/
def grown (vector : VectorDynamic α) : ℕ :=
  if vector.capacity < 4 then 4 else vector.capacity * 2

/-- `grow`. -/
def grow (grants : ℕ → Bool) (vector : VectorDynamic α) : Option (VectorDynamic α) :=
  vector.changeCapacity grants vector.grown

/-- `shrink`. -/
def shrink (grants : ℕ → Bool) (vector : VectorDynamic α) : Option (VectorDynamic α) :=
  vector.changeCapacity grants (vector.capacity / 2)

/-- The first statement of `push_back` and of `insert`. -/
def makeRoom (grants : ℕ → Bool) (vector : VectorDynamic α) : Option (VectorDynamic α) :=
  if vector.size ≥ vector.capacity then vector.grow grants else some vector

/-- `push_back`. -/
def pushBack (grants : ℕ → Bool) (vector : VectorDynamic α) (x : Option α) :
    Option (VectorDynamic α) := do
  let vector ← vector.makeRoom grants
  let written ← vector.write vector.size x
  return { written with size := (vector.size + 1) % uint16 }

/-- `pop_back`. -/
def popBack (grants : ℕ → Bool) (vector : VectorDynamic α) : Option (VectorDynamic α) :=
  let popped := if vector.size > 0 then { vector with size := vector.size - 1 } else vector
  if popped.size < popped.capacity / 4 then popped.shrink grants else some popped

/-- The loop of `insert` over `count` cells from `it` on. -/
def shiftUp : ℕ → VectorDynamic α → ℕ → Option α → Option (VectorDynamic α × Option α)
  | 0, vector, _, cur => some (vector, cur)
  | count + 1, vector, it, cur => do
      let temp ← vector.read it
      let written ← vector.write it cur
      shiftUp count written (it + 1) temp

/-- `insert` at the position `begin() + position`. -/
def insert (grants : ℕ → Bool) (vector : VectorDynamic α) (position : ℕ) (x : α) :
    Option (VectorDynamic α) := do
  let room ← vector.makeRoom grants
  let longer := { room with size := (room.size + 1) % uint16 }
  -- an iterator into the array from before is not the end, and is read
  if longer.allocation = vector.allocation then
    let (shifted, cur) ← shiftUp (longer.size - position) longer position (some x)
    shifted.pushBack grants cur
  else none

/-- The loop of `erase` over `count` cells from `cur` on. -/
def shiftDown : ℕ → VectorDynamic α → ℕ → Option (VectorDynamic α)
  | 0, vector, _ => some vector
  | count + 1, vector, cur => do
      let next ← vector.read (cur + 1)
      let written ← vector.write cur next
      shiftDown count written (cur + 1)

/-- `erase` at the position `begin() + position`. -/
def erase (grants : ℕ → Bool) (vector : VectorDynamic α) (position : ℕ) :
    Option (VectorDynamic α) :=
  if position = vector.size then some vector
  else do
    let shifted ← shiftDown (vector.size - position) vector position
    shifted.popBack grants

/-- The loop of `erase` of a range, which has `count` elements left to move. -/
def moveDown : ℕ → VectorDynamic α → ℕ → ℕ → Option (VectorDynamic α × ℕ)
  | 0, vector, first, _ => some (vector, first)
  | count + 1, vector, first, last => do
      let next ← vector.read last
      let written ← vector.write first next
      moveDown count written (first + 1) (last + 1)

/-- `erase` of the range from `begin() + first` to `begin() + last`. -/
def eraseRange (vector : VectorDynamic α) (first last : ℕ) : Option (VectorDynamic α) :=
  if first = vector.size ∨ first = last then some vector
  else do
    let (moved, first) ← moveDown (vector.size - last) vector first last
    return { moved with size := first % uint16 }

/-- `resize`. -/
def resize (grants : ℕ → Bool) (vector : VectorDynamic α) (n : ℕ) : Option (VectorDynamic α) :=
  { vector with size := n % uint16 }.changeCapacity grants n

/-- `clear`. -/
def clear (grants : ℕ → Bool) (vector : VectorDynamic α) : Option (VectorDynamic α) :=
  { vector with size := 0 }.changeCapacity grants 0

/-- `attach`. -/
def attach (vector : VectorDynamic α) (buffer : Option (List (Option α))) (size : ℕ) :
    VectorDynamic α :=
  { vector with
    buffer := buffer
    size := size % uint16
    allocation := vector.allocation + 1 }

/-- `detach`. -/
def detach (vector : VectorDynamic α) : VectorDynamic α :=
  { vector with
    size := 0
    buffer := none
    allocation := vector.allocation + 1 }

/-- The calls.  An iterator is given by its place. -/
inductive Call (α : Type*) where
  | pushBack (x : α)
  | popBack
  | insert (position : ℕ) (x : α)
  | erase (position : ℕ)
  | eraseRange (first last : ℕ)
  | resize (n : ℕ)
  | grow
  | clear
  | attach (buffer : Option (List (Option α))) (size : ℕ)
  | detach

/-- A call, and which requests the allocator grants meanwhile. -/
structure Op (α : Type*) where
  call : Call α
  grants : ℕ → Bool

/-- What a caller owes: iterators of the vector, and an array with the elements that are
attached. -/
def Valid (vector : VectorDynamic α) : Call α → Prop
  | .insert position _ => position ≤ vector.size
  | .erase position => position ≤ vector.size
  | .eraseRange first last => first ≤ last ∧ last ≤ vector.size
  | .attach buffer size => size ≤ (buffer.getD []).length
  | _ => True

/-- Performs a call. -/
def perform (vector : VectorDynamic α) (op : Op α) : Option (VectorDynamic α) :=
  match op.call with
  | .pushBack x => vector.pushBack op.grants (some x)
  | .popBack => vector.popBack op.grants
  | .insert position x => vector.insert op.grants position x
  | .erase position => vector.erase op.grants position
  | .eraseRange first last => vector.eraseRange first last
  | .resize n => vector.resize op.grants n
  | .grow => vector.grow op.grants
  | .clear => vector.clear op.grants
  | .attach buffer size => some (vector.attach buffer size)
  | .detach => some vector.detach

/-! ## The invariant -/

/-- The capacity is what is allocated, and the size is at most that. -/
structure Sound (vector : VectorDynamic α) : Prop where
  capacity_eq : vector.capacity = vector.allocated
  size_le : vector.size ≤ vector.capacity
  capacity_lt : vector.capacity < uint16

/-- The vector can grow: the new capacity is a 16-bit number and its array is granted. -/
def Grows (vector : VectorDynamic α) (grants : ℕ → Bool) : Prop :=
  vector.grown < uint16 ∧ grants vector.grown = true

/-- The array for a shrunk vector is granted, if it shrinks with `size` elements left. -/
def Shrinks (vector : VectorDynamic α) (grants : ℕ → Bool) (size : ℕ) : Prop :=
  size < vector.capacity / 4 → grants (vector.capacity / 2) = true

/-- What keeps a call within the array and the capacity right. -/
def Safe (vector : VectorDynamic α) (op : Op α) : Prop :=
  match op.call with
  | .pushBack _ => vector.size < vector.capacity ∨ vector.Grows op.grants
  | .popBack => vector.Shrinks op.grants (vector.size - 1)
  | .insert _ _ =>
      vector.size < vector.capacity ∧
        (vector.size + 1 < vector.capacity ∨ vector.Grows op.grants)
  | .erase position =>
      position = vector.size ∨
        vector.size < vector.capacity ∧ vector.Shrinks op.grants (vector.size - 1)
  | .eraseRange _ _ => True
  | .resize n =>
      n = 0 ∨ n < uint16 ∧ op.grants n = true ∧ (vector.buffer = none ∨ n ≤ vector.capacity)
  | .grow => vector.Grows op.grants
  | .clear => True
  | .attach buffer _ => (buffer.getD []).length = vector.capacity
  | .detach => vector.capacity = 0

variable {vector next : VectorDynamic α} {grants : ℕ → Bool} {n position count : ℕ}

theorem sound_new : (new : VectorDynamic α).Sound :=
  ⟨rfl, le_refl _, Nat.two_pow_pos 16⟩

/-! ## Changing the capacity -/

theorem mod_uint16 (hn : n < uint16) : n % uint16 = n := Nat.mod_eq_of_lt hn

/-- **A change of the capacity** that keeps all elements. -/
theorem changeCapacity_spec (hcopied : vector.buffer = none ∨ vector.size ≤ vector.allocated)
    (hsize : vector.size ≤ n) (hn : n < uint16) (hgrants : n = 0 ∨ grants n = true) :
    ∃ next, vector.changeCapacity grants n = some next ∧ next.Sound ∧
      next.size = vector.size ∧ next.capacity = n := by
  have hlength : ((if n ≠ 0 ∧ grants n = true then
      some (List.replicate n (none : Option α)) else none).getD []).length = n := by
    by_cases hzero : n = 0
    · simp [hzero]
    · simp [hzero, hgrants.resolve_left hzero]
  unfold changeCapacity
  generalize (if n ≠ 0 ∧ grants n = true then
    some (List.replicate n (none : Option α)) else none) = newBuffer at hlength
  cases hbuffer : vector.buffer with
  | none =>
      refine ⟨_, rfl, ⟨?_, ?_, ?_⟩, rfl, mod_uint16 hn⟩
      · simp [allocated, hlength, mod_uint16 hn]
      · simpa [mod_uint16 hn] using hsize
      · simpa [mod_uint16 hn] using hn
  | some cells =>
      have hcells : vector.size ≤ cells.length := by
        simpa [hbuffer, allocated] using hcopied
      have hcopy : vector.size ≤ cells.length ∧
          vector.size ≤ (newBuffer.getD []).length := ⟨hcells, hlength.symm ▸ hsize⟩
      simp only [if_pos hcopy]
      refine ⟨_, rfl, ⟨?_, ?_, ?_⟩, rfl, mod_uint16 hn⟩
      · cases newBuffer with
        | none => simpa [allocated, mod_uint16 hn] using hlength.symm
        | some fresh =>
            simp only [Option.getD_some] at hlength
            simp only [allocated, Option.map_some, Option.getD_some, List.length_append,
              List.length_take, List.length_drop, mod_uint16 hn]
            omega
      · simpa [mod_uint16 hn] using hsize
      · simpa [mod_uint16 hn] using hn

theorem Sound.size_allocated (hsound : vector.Sound) : vector.size ≤ vector.allocated :=
  hsound.capacity_eq ▸ hsound.size_le

theorem capacity_le_grown (vector : VectorDynamic α) : vector.capacity < vector.grown := by
  unfold grown
  split <;> omega

theorem grow_spec (hsound : vector.Sound) (hgrows : vector.Grows grants) :
    ∃ next, vector.grow grants = some next ∧ next.Sound ∧ next.size = vector.size ∧
      next.capacity = vector.grown :=
  changeCapacity_spec (.inr hsound.size_allocated)
    (hsound.size_le.trans (capacity_le_grown vector).le) hgrows.1 (.inr hgrows.2)

theorem makeRoom_spec (hsound : vector.Sound)
    (hsafe : vector.size < vector.capacity ∨ vector.Grows grants) :
    ∃ room, vector.makeRoom grants = some room ∧ room.Sound ∧ room.size = vector.size ∧
      room.size < room.capacity := by
  unfold makeRoom
  by_cases hfull : vector.size ≥ vector.capacity
  · rw [if_pos hfull]
    obtain ⟨room, hroom, hsound', hsize, hcapacity⟩ :=
      grow_spec hsound (hsafe.resolve_left (by omega))
    refine ⟨room, hroom, hsound', hsize, ?_⟩
    rw [hsize, hcapacity]
    exact hsound.size_le.trans_lt (capacity_le_grown vector)
  · rw [if_neg hfull]
    exact ⟨vector, rfl, hsound, rfl, by omega⟩

/-! ## Accesses -/

/-- Two vectors with arrays of the same length. -/
structure SameShape (vector next : VectorDynamic α) : Prop where
  size : next.size = vector.size
  capacity : next.capacity = vector.capacity
  allocated : next.allocated = vector.allocated

theorem SameShape.refl (vector : VectorDynamic α) : vector.SameShape vector :=
  ⟨rfl, rfl, rfl⟩

theorem SameShape.trans {last : VectorDynamic α} (hfirst : vector.SameShape next)
    (hsecond : next.SameShape last) : vector.SameShape last :=
  ⟨hsecond.size.trans hfirst.size, hsecond.capacity.trans hfirst.capacity,
    hsecond.allocated.trans hfirst.allocated⟩

theorem SameShape.sound (hshape : vector.SameShape next) (hsound : vector.Sound) : next.Sound :=
  ⟨by rw [hshape.capacity, hshape.allocated, hsound.capacity_eq],
    by rw [hshape.size, hshape.capacity]; exact hsound.size_le,
    by rw [hshape.capacity]; exact hsound.capacity_lt⟩

theorem read_spec (hn : n < vector.allocated) : ∃ x, vector.read n = some x :=
  ⟨_, List.getElem?_eq_getElem hn⟩

theorem write_spec (hn : n < vector.allocated) (x : Option α) :
    ∃ next, vector.write n x = some next ∧ vector.SameShape next := by
  refine ⟨_, if_pos hn, rfl, rfl, ?_⟩
  cases hbuffer : vector.buffer <;> simp [allocated, hbuffer]

theorem shiftUp_spec (hroom : position + count ≤ vector.allocated) (cur : Option α) :
    ∃ next last, shiftUp count vector position cur = some (next, last) ∧
      vector.SameShape next := by
  induction count generalizing vector position cur with
  | zero => exact ⟨vector, cur, rfl, .refl vector⟩
  | succ count ih =>
      obtain ⟨temp, htemp⟩ := read_spec (show position < vector.allocated by omega)
      obtain ⟨written, hwritten, hshape⟩ := write_spec (show position < vector.allocated by omega) cur
      obtain ⟨next, last, hnext, hrest⟩ :=
        ih (show position + 1 + count ≤ written.allocated by rw [hshape.allocated]; omega) temp
      exact ⟨next, last, by simp [shiftUp, htemp, hwritten, hnext], hshape.trans hrest⟩

theorem shiftDown_spec (hroom : position + count < vector.allocated) :
    ∃ next, shiftDown count vector position = some next ∧ vector.SameShape next := by
  induction count generalizing vector position with
  | zero => exact ⟨vector, rfl, .refl vector⟩
  | succ count ih =>
      obtain ⟨x, hx⟩ := read_spec (show position + 1 < vector.allocated by omega)
      obtain ⟨written, hwritten, hshape⟩ := write_spec (show position < vector.allocated by omega) x
      obtain ⟨next, hnext, hrest⟩ :=
        ih (show position + 1 + count < written.allocated by rw [hshape.allocated]; omega)
      exact ⟨next, by simp [shiftDown, hx, hwritten, hnext], hshape.trans hrest⟩

theorem moveDown_spec {first last : ℕ} (hle : first ≤ last)
    (hroom : last + count ≤ vector.allocated) :
    ∃ next, moveDown count vector first last = some (next, first + count) ∧
      vector.SameShape next := by
  induction count generalizing vector first last with
  | zero => exact ⟨vector, rfl, .refl vector⟩
  | succ count ih =>
      obtain ⟨x, hx⟩ := read_spec (show last < vector.allocated by omega)
      obtain ⟨written, hwritten, hshape⟩ := write_spec (show first < vector.allocated by omega) x
      obtain ⟨next, hnext, hrest⟩ := ih (show first + 1 ≤ last + 1 by omega)
        (show last + 1 + count ≤ written.allocated by rw [hshape.allocated]; omega)
      refine ⟨next, ?_, hshape.trans hrest⟩
      simp only [moveDown, hx, hwritten, Option.bind_eq_bind, Option.bind_some, hnext]
      congr 2
      omega

/-! ## Calls -/

theorem pushBack_spec (hsound : vector.Sound)
    (hsafe : vector.size < vector.capacity ∨ vector.Grows grants) (x : Option α) :
    ∃ next, vector.pushBack grants x = some next ∧ next.Sound := by
  obtain ⟨room, hroom, hsound', -, hlt⟩ := makeRoom_spec hsound hsafe
  obtain ⟨written, hwritten, hshape⟩ := write_spec (hsound'.capacity_eq ▸ hlt) x
  have hwrap : (room.size + 1) % uint16 = room.size + 1 :=
    mod_uint16 (Nat.lt_of_le_of_lt hlt hsound'.capacity_lt)
  refine ⟨{ written with size := (room.size + 1) % uint16 },
    by simp [pushBack, hroom, hwritten], ?_, ?_, ?_⟩
  · exact (hshape.sound hsound').capacity_eq
  · show (room.size + 1) % uint16 ≤ written.capacity
    rw [hwrap, hshape.capacity]
    exact hlt
  · exact (hshape.sound hsound').capacity_lt

theorem popBack_spec (hsound : vector.Sound) (hsafe : vector.Shrinks grants (vector.size - 1)) :
    ∃ next, vector.popBack grants = some next ∧ next.Sound := by
  have hle := hsound.size_le
  have hlt := hsound.capacity_lt
  have hallocated := hsound.size_allocated
  have hpopped : (if vector.size > 0 then { vector with size := vector.size - 1 } else vector) =
      { vector with size := vector.size - 1 } := by
    split
    · rfl
    · rw [show vector.size - 1 = vector.size by omega]
  unfold popBack
  rw [hpopped]
  by_cases hshrink : vector.size - 1 < vector.capacity / 4
  · simp only [if_pos hshrink]
    obtain ⟨next, hnext, hsound', -⟩ :=
      @changeCapacity_spec _ { vector with size := vector.size - 1 } grants (vector.capacity / 2)
        (.inr (show vector.size - 1 ≤ vector.allocated by omega))
        (show vector.size - 1 ≤ vector.capacity / 2 by omega) (by omega)
        (.inr (hsafe hshrink))
    exact ⟨next, hnext, hsound'⟩
  · simp only [if_neg hshrink]
    exact ⟨_, rfl, hsound.capacity_eq, (Nat.sub_le _ _).trans hle, hlt⟩

theorem insert_spec (hsound : vector.Sound) (hposition : position ≤ vector.size)
    (hlt : vector.size < vector.capacity)
    (hsafe : vector.size + 1 < vector.capacity ∨ vector.Grows grants) (x : α) :
    ∃ next, vector.insert grants position x = some next ∧ next.Sound := by
  have hroom : vector.makeRoom grants = some vector := if_neg (by omega)
  have hwrap : (vector.size + 1) % uint16 = vector.size + 1 :=
    mod_uint16 (Nat.lt_of_le_of_lt hlt hsound.capacity_lt)
  have hlonger : ({ vector with size := vector.size + 1 } : VectorDynamic α).Sound :=
    ⟨hsound.capacity_eq, hlt, hsound.capacity_lt⟩
  obtain ⟨shifted, cur, hshifted, hshape⟩ :=
    @shiftUp_spec _ { vector with size := vector.size + 1 } position (vector.size + 1 - position)
      (by
        have := hlonger.size_allocated
        simp only at this ⊢
        omega) (some x)
  have hsafe' : shifted.size < shifted.capacity ∨ shifted.Grows grants := by
    rw [hshape.size, hshape.capacity]
    unfold Grows grown
    rw [hshape.capacity]
    exact hsafe
  obtain ⟨next, hnext, hsound'⟩ := pushBack_spec (hshape.sound hlonger) hsafe' cur
  exact ⟨next, by simp [insert, hroom, hwrap, hshifted, hnext], hsound'⟩

theorem erase_spec (hsound : vector.Sound) (hposition : position ≤ vector.size)
    (hsafe : position = vector.size ∨
      vector.size < vector.capacity ∧ vector.Shrinks grants (vector.size - 1)) :
    ∃ next, vector.erase grants position = some next ∧ next.Sound := by
  unfold erase
  by_cases hend : position = vector.size
  · exact ⟨vector, if_pos hend, hsound⟩
  · rw [if_neg hend]
    obtain ⟨hlt, hshrinks⟩ := hsafe.resolve_left hend
    obtain ⟨shifted, hshifted, hshape⟩ :=
      @shiftDown_spec _ vector position (vector.size - position)
        (by rw [← hsound.capacity_eq]; omega)
    have hshrinks' : shifted.Shrinks grants (shifted.size - 1) := by
      unfold Shrinks
      rw [hshape.size, hshape.capacity]
      exact hshrinks
    obtain ⟨next, hnext, hsound'⟩ := popBack_spec (hshape.sound hsound) hshrinks'
    exact ⟨next, by simp [hshifted, hnext], hsound'⟩

theorem eraseRange_spec (hsound : vector.Sound) {first last : ℕ} (hle : first ≤ last)
    (hlast : last ≤ vector.size) :
    ∃ next, vector.eraseRange first last = some next ∧ next.Sound := by
  unfold eraseRange
  by_cases hnone : first = vector.size ∨ first = last
  · exact ⟨vector, if_pos hnone, hsound⟩
  · rw [if_neg hnone]
    have hallocated := hsound.size_allocated
    have hcapacity := hsound.size_le
    have hlt := hsound.capacity_lt
    obtain ⟨moved, hmoved, hshape⟩ :=
      @moveDown_spec _ vector (vector.size - last) first last hle (by omega)
    have hwrap : (first + (vector.size - last)) % uint16 = first + (vector.size - last) :=
      mod_uint16 (by omega)
    refine ⟨{ moved with size := first + (vector.size - last) }, by simp [hmoved, hwrap],
      ?_, ?_, ?_⟩
    · exact (hshape.sound hsound).capacity_eq
    · show first + (vector.size - last) ≤ moved.capacity
      rw [hshape.capacity]
      omega
    · exact (hshape.sound hsound).capacity_lt

theorem resize_spec (hsound : vector.Sound)
    (hsafe : n = 0 ∨ n < uint16 ∧ grants n = true ∧
      (vector.buffer = none ∨ n ≤ vector.capacity)) :
    ∃ next, vector.resize grants n = some next ∧ next.Sound := by
  have hlt : n < uint16 := by
    rcases hsafe with rfl | ⟨hlt, -⟩
    · decide
    · exact hlt
  obtain ⟨next, hnext, hsound', -⟩ :=
    @changeCapacity_spec _ { vector with size := n % uint16 } grants n
      (by
        show vector.buffer = none ∨ n % uint16 ≤ vector.allocated
        rw [mod_uint16 hlt, ← hsound.capacity_eq]
        rcases hsafe with rfl | ⟨-, -, hcopied⟩
        · exact .inr (Nat.zero_le _)
        · exact hcopied)
      (Nat.mod_le _ _) hlt (hsafe.imp_right fun hsafe => hsafe.2.1)
  exact ⟨next, hnext, hsound'⟩

theorem clear_spec (grants : ℕ → Bool) (vector : VectorDynamic α) :
    ∃ next, vector.clear grants = some next ∧ next.Sound := by
  obtain ⟨next, hnext, hsound, -⟩ :=
    @changeCapacity_spec _ { vector with size := 0 } grants 0 (.inr (Nat.zero_le _))
      (le_refl _) (by decide) (.inl rfl)
  exact ⟨next, hnext, hsound⟩

/-- **A call under its condition** stays within the array and leaves the vector sound. -/
theorem perform_of_safe {op : Op α} (hsound : vector.Sound) (hvalid : vector.Valid op.call)
    (hsafe : vector.Safe op) : ∃ next, vector.perform op = some next ∧ next.Sound := by
  obtain ⟨call, grants⟩ := op
  cases call with
  | pushBack x => exact pushBack_spec hsound hsafe (some x)
  | popBack => exact popBack_spec hsound hsafe
  | insert position x => exact insert_spec hsound hvalid hsafe.1 hsafe.2 x
  | erase position => exact erase_spec hsound hvalid hsafe
  | eraseRange first last => exact eraseRange_spec hsound hvalid.1 hvalid.2
  | resize n => exact resize_spec hsound hsafe
  | grow =>
      obtain ⟨next, hnext, hsound', -⟩ := grow_spec hsound hsafe
      exact ⟨next, hnext, hsound'⟩
  | clear => exact clear_spec grants vector
  | attach buffer size =>
      have hlength : (buffer.getD []).length = vector.capacity := hsafe
      refine ⟨_, rfl, hlength.symm, ?_, hsound.capacity_lt⟩
      exact (Nat.mod_le _ _).trans (hvalid.trans_eq hlength)
  | detach =>
      have hzero : vector.capacity = 0 := hsafe
      exact ⟨_, rfl, hzero, Nat.zero_le _, hsound.capacity_lt⟩

/-! ## Elements -/

variable {i : ℕ} {a : ℕ → α}

theorem read_changeCapacity (hcopied : vector.size ≤ vector.allocated)
    (hchange : vector.changeCapacity grants n = some next) (hi : i < vector.size) :
    next.read i = vector.read i := by
  unfold changeCapacity at hchange
  generalize (if n ≠ 0 ∧ grants n = true then
    some (List.replicate n (none : Option α)) else none) = newBuffer at hchange
  cases hbuffer : vector.buffer with
  | none =>
      rw [allocated, hbuffer] at hcopied
      exact absurd (hi.trans_le hcopied) (Nat.not_lt_zero i)
  | some cells =>
      rw [hbuffer] at hchange
      simp only at hchange
      split at hchange
      · rename_i hroom
        obtain rfl := Option.some.inj hchange
        cases newBuffer with
        | none => exact absurd (hi.trans_le hroom.2) (Nat.not_lt_zero i)
        | some fresh =>
            have htake : i < (cells.take vector.size).length := by
              rw [List.length_take]
              omega
            simp only [read, hbuffer, Option.map_some, Option.getD_some]
            rw [List.getElem?_append_left htake, List.getElem?_take_of_lt hi]
      · exact absurd hchange (by simp)

theorem read_of_write {x : Option α} (hwrite : vector.write n x = some next) (i : ℕ) :
    next.read i = if i = n then some x else vector.read i := by
  unfold write at hwrite
  split at hwrite
  · rename_i hn
    obtain rfl := Option.some.inj hwrite
    cases hbuffer : vector.buffer with
    | none =>
        rw [allocated, hbuffer] at hn
        exact absurd hn (Nat.not_lt_zero n)
    | some cells =>
        rw [allocated, hbuffer, Option.getD_some] at hn
        simp only [read, hbuffer, Option.map_some, Option.getD_some]
        by_cases hin : i = n
        · rw [if_pos hin, hin, List.getElem?_set_self hn]
        · rw [if_neg hin, List.getElem?_set_ne (Ne.symm hin)]
  · exact absurd hwrite (by simp)

/-- A sound vector of `n` elements. -/
structure Elements (vector : VectorDynamic α) (n : ℕ) (a : ℕ → α) : Prop where
  sound : vector.Sound
  size_eq : vector.size = n
  read_eq : ∀ i < n, vector.read i = some (some (a i))

theorem elements_new (a : ℕ → α) : (new : VectorDynamic α).Elements 0 a :=
  ⟨sound_new, rfl, fun i hi => absurd hi (Nat.not_lt_zero i)⟩

theorem Elements.lt_allocated (helements : vector.Elements n a) (hi : i < n) :
    i < vector.allocated :=
  (helements.size_eq.symm ▸ hi).trans_le helements.sound.size_allocated

theorem Elements.write (helements : vector.Elements n a) (hi : i < n) (x : α) :
    ∃ next, vector.write i (some x) = some next ∧ next.Elements n (Function.update a i x) := by
  obtain ⟨next, hnext, hshape⟩ := write_spec (helements.lt_allocated hi) (some x)
  refine ⟨next, hnext, hshape.sound helements.sound, hshape.size.trans helements.size_eq, ?_⟩
  intro j hj
  rw [read_of_write hnext, Function.update_apply]
  split
  · rfl
  · exact helements.read_eq j hj

/-- **An element is appended**, as long as the capacity can be doubled. -/
theorem Elements.pushBack (helements : vector.Elements n a)
    (hgrants : ∀ request, 0 < request → request < uint16 → grants request = true)
    (hn : n < 2 ^ 15) (x : α) :
    ∃ next, vector.pushBack grants (some x) = some next ∧
      next.Elements (n + 1) (Function.update a n x) := by
  obtain ⟨hsound, hsize, hread⟩ := helements
  have hcapacity := hsound.size_le
  have hsafe : vector.size < vector.capacity ∨ vector.Grows grants := by
    refine (Nat.lt_or_ge vector.size vector.capacity).imp_right fun hfull => ?_
    have hgrown : 0 < vector.grown ∧ vector.grown < uint16 := by
      unfold grown uint16
      split <;> omega
    exact ⟨hgrown.2, hgrants _ hgrown.1 hgrown.2⟩
  obtain ⟨room, hroom, hsound', hsize', hlt⟩ := makeRoom_spec hsound hsafe
  obtain ⟨written, hwritten, hshape⟩ := write_spec (hsound'.capacity_eq ▸ hlt) (some x)
  have hkept : ∀ j < n, room.read j = vector.read j := by
    intro j hj
    unfold makeRoom at hroom
    split at hroom
    · exact read_changeCapacity hsound.size_allocated hroom (hsize.symm ▸ hj)
    · rw [Option.some.inj hroom]
  have hwrap : (room.size + 1) % uint16 = n + 1 := by
    rw [hsize', hsize]
    exact mod_uint16 (by unfold uint16; omega)
  refine ⟨{ written with size := (room.size + 1) % uint16 },
    by simp [VectorDynamic.pushBack, hroom, hwritten], ⟨?_, ?_, ?_⟩, hwrap, ?_⟩
  · exact (hshape.sound hsound').capacity_eq
  · show (room.size + 1) % uint16 ≤ written.capacity
    rw [hwrap, hshape.capacity]
    omega
  · exact (hshape.sound hsound').capacity_lt
  · intro j hj
    have hlast : written.read j = if j = room.size then some (some x) else room.read j :=
      read_of_write hwritten j
    rw [hsize', hsize] at hlast
    refine hlast.trans ?_
    rw [Function.update_apply]
    split
    · rfl
    · rename_i hne
      have hj' : j < n := by omega
      rw [hkept j hj', hread j hj']

/-- **The last element is taken off.** -/
theorem Elements.popBack (helements : vector.Elements (n + 1) a)
    (hgrants : ∀ request, 0 < request → request < uint16 → grants request = true) :
    ∃ next, vector.popBack grants = some next ∧ next.Elements n a := by
  obtain ⟨hsound, hsize, hread⟩ := helements
  have hle := hsound.size_le
  have hlt := hsound.capacity_lt
  have hallocated := hsound.size_allocated
  have hpopped : (if vector.size > 0 then { vector with size := vector.size - 1 } else vector) =
      { vector with size := n } := by
    rw [if_pos (by omega), hsize]
    rfl
  unfold VectorDynamic.popBack
  rw [hpopped]
  by_cases hshrink : n < vector.capacity / 4
  · simp only [if_pos hshrink]
    obtain ⟨next, hnext, hsound', hsize', -⟩ :=
      @changeCapacity_spec _ { vector with size := n } grants (vector.capacity / 2)
        (.inr (show n ≤ vector.allocated by omega))
        (show n ≤ vector.capacity / 2 by omega) (by omega)
        (.inr (hgrants _ (by omega) (by omega)))
    refine ⟨next, hnext, hsound', hsize', fun j hj => ?_⟩
    have hkept := @read_changeCapacity _ { vector with size := n } next grants _ j
      (show n ≤ vector.allocated by omega) hnext hj
    exact hkept.trans (hread j (by omega))
  · simp only [if_neg hshrink]
    exact ⟨_, rfl, ⟨hsound.capacity_eq, show n ≤ vector.capacity by omega, hlt⟩, rfl,
      fun j hj => hread j (by omega)⟩

/-! ## Runs -/

/-- The steps of the callers, each of which owes what `Valid` says. -/
def step : VectorDynamic α → Op α → VectorDynamic α → Prop :=
  Guarded (fun vector op => vector.Valid op.call) (stepOf perform)

/-- **In every run whose calls meet their conditions** the size is at most the capacity,
the capacity is what is allocated, and the next call that meets its condition stays
within the array. -/
theorem sound_of_safe_run {operations : List (Op α)} {vector : VectorDynamic α}
    (hrun : Run (Guarded Safe step) new operations vector) :
    vector.size ≤ vector.capacity ∧ vector.capacity = vector.allocated ∧
      ∀ op, vector.Valid op.call → vector.Safe op → (vector.perform op).isSome := by
  have hstep : ∀ state op next, Sound state → Guarded Safe step state op next →
      Sound (next : VectorDynamic α) := by
    rintro state op next hsound ⟨hsafe, hvalid, hperform⟩
    obtain ⟨reached, hreached, hsound'⟩ := perform_of_safe hsound hvalid hsafe
    obtain rfl : reached = next := Option.some.inj (hreached.symm.trans hperform)
    exact hsound'
  have hsound := hrun.invariant hstep sound_new
  refine ⟨hsound.size_le, hsound.capacity_eq, fun op hvalid hsafe => ?_⟩
  obtain ⟨next, hnext, -⟩ := perform_of_safe hsound hvalid hsafe
  rw [hnext]
  rfl

/-- An allocator that grants everything. -/
def always (call : Call ℕ) : Op ℕ := ⟨call, fun _ => true⟩

/-- An element is inserted in front of another and one is erased again. -/
theorem sound_of_safe_run_insert :
    ∃ vector : VectorDynamic ℕ,
      Run (Guarded Safe step) new
        [always (.pushBack 7), always (.insert 0 5), always (.erase 0)] vector ∧
      vector.size ≤ vector.capacity ∧ vector.capacity = vector.allocated ∧
        ∀ op, vector.Valid op.call → vector.Safe op → (vector.perform op).isSome := by
  have hrun : Run (Guarded Safe step) (new : VectorDynamic ℕ)
      [always (.pushBack 7), always (.insert 0 5), always (.erase 0)]
      ⟨2, 4, some [some 7, none, none, none], 1⟩ := by
    refine .cons ⟨.inr ⟨by decide, rfl⟩, trivial, rfl⟩ <|
      .cons ⟨⟨by decide, .inl (by decide)⟩, Nat.zero_le _, rfl⟩ <|
        .cons ⟨.inr ⟨by decide, fun _ => rfl⟩, Nat.zero_le _, rfl⟩ (.nil _)
  exact ⟨_, hrun, sound_of_safe_run hrun⟩

/-- A detached vector still has its capacity, and erasing the first element of a full
vector reads one element behind the array. -/
theorem unsound_runs :
    (∃ vector : VectorDynamic ℕ,
      Run step new [always (.pushBack 7), always .detach] vector ∧
        vector.capacity ≠ vector.allocated) ∧
    ∃ vector : VectorDynamic ℕ,
      Run step new (List.replicate 4 (always (.pushBack 7))) vector ∧
        vector.Valid (.erase 0) ∧ vector.perform (always (.erase 0)) = none := by
  refine ⟨⟨⟨0, 4, none, 2⟩, ?_, by decide⟩,
    ⟨4, 4, some [some 7, some 7, some 7, some 7], 1⟩, ?_, Nat.zero_le _, by decide⟩
  · exact .cons ⟨trivial, rfl⟩ <| .cons ⟨trivial, rfl⟩ (.nil _)
  · exact .cons ⟨trivial, rfl⟩ <| .cons ⟨trivial, rfl⟩ <| .cons ⟨trivial, rfl⟩ <|
      .cons ⟨trivial, rfl⟩ (.nil _)

end VectorDynamic

end Wiselib.Pstl
