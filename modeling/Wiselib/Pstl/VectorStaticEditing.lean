import Mathlib

/-!
# Editing vectors in static memory

The calls of `vector_static` that change a vector, on the slots of its array.  A
read or a write of a slot outside of the array has no result.

## Strategy

Both shifting loops move along the array, so that their specifications speak about
an array that is cut at the iterator: `shiftUp_spec` carries one element ahead of
the iterator, `shiftDown_spec` needs one slot behind the elements, and
`moveDown_spec` copies from a second iterator further on.  The slot that
`shiftDown` needs is missing if the vector is full (`shiftDown_eq_none`), which is
the one case in which a call leaves its array (`editing_right_iff`).
-/

namespace Wiselib.Pstl

/-- `vector_static`: the slots of `vec_` and the number of them before `finish_`. -/
structure VectorSlots (α : Type*) where
  vec_ : List α
  finish_ : ℕ
deriving DecidableEq

namespace VectorSlots

variable {α : Type*}

/-- An array of `vectorSize` slots, the first ones of which are in use. -/
structure Sound (vectorSize : ℕ) (vector : VectorSlots α) : Prop where
  length_vec : vector.vec_.length = vectorSize
  finish_le : vector.finish_ ≤ vectorSize

/-- The elements. -/
def toList (vector : VectorSlots α) : List α := vector.vec_.take vector.finish_

/-- Reads a slot. -/
def read (vec_ : List α) (it : ℕ) : Option α := vec_[it]?

/-- Writes a slot. -/
def write (vec_ : List α) (it : ℕ) (x : α) : Option (List α) :=
  if it < vec_.length then some (vec_.set it x) else none

/-- `push_back`. -/
def pushBack (vectorSize : ℕ) (vector : VectorSlots α) (x : α) : Option (VectorSlots α) :=
  if vector.finish_ ≠ vectorSize then do
    let vec_ ← write vector.vec_ vector.finish_ x
    return ⟨vec_, vector.finish_ + 1⟩
  else some vector

/-- `pop_back`. -/
def popBack (vector : VectorSlots α) : VectorSlots α :=
  if vector.finish_ ≠ 0 then { vector with finish_ := vector.finish_ - 1 } else vector

/-- The loop of `insert`, which has `count` elements left behind the iterator. -/
def shiftUp : ℕ → List α → ℕ → α → Option (List α × α)
  | 0, vec_, _, cur => some (vec_, cur)
  | count + 1, vec_, it, cur => do
      let temp ← read vec_ it
      let vec_ ← write vec_ it cur
      shiftUp count vec_ (it + 1) temp

/-- `insert` at a position.  The iterator that it returns is given by its place. -/
def insert (vectorSize : ℕ) (vector : VectorSlots α) (position : ℕ) (x : α) :
    Option (VectorSlots α × ℕ) :=
  if vector.finish_ = vectorSize then some (vector, vector.finish_)
  else do
    let (vec_, cur) ← shiftUp (vector.finish_ - position) vector.vec_ position x
    let longer ← pushBack vectorSize { vector with vec_ := vec_ } cur
    return (longer, position)

/-- The loop of `erase` at a position. -/
def shiftDown : ℕ → List α → ℕ → Option (List α)
  | 0, vec_, _ => some vec_
  | count + 1, vec_, cur => do
      let next ← read vec_ (cur + 1)
      let vec_ ← write vec_ cur next
      shiftDown count vec_ (cur + 1)

/-- `erase` at a position. -/
def erase (vector : VectorSlots α) (position : ℕ) : Option (VectorSlots α × ℕ) :=
  if position = vector.finish_ then some (vector, vector.finish_)
  else do
    let vec_ ← shiftDown (vector.finish_ - position) vector.vec_ position
    return (popBack { vector with vec_ := vec_ }, position)

/-- The loop of `erase` of a range, which has `count` elements left to copy. -/
def moveDown : ℕ → List α → ℕ → ℕ → Option (List α × ℕ)
  | 0, vec_, first, _ => some (vec_, first)
  | count + 1, vec_, first, last => do
      let next ← read vec_ last
      let vec_ ← write vec_ first next
      moveDown count vec_ (first + 1) (last + 1)

/-- `erase` of a range. -/
def eraseRange (vector : VectorSlots α) (first last : ℕ) : Option (VectorSlots α × ℕ) :=
  if first = vector.finish_ ∨ first = last then some (vector, first)
  else do
    let (vec_, finish_) ← moveDown (vector.finish_ - last) vector.vec_ first last
    return (⟨vec_, finish_⟩, first)

/-! ## The loops -/

section Loops

variable (front : List α) (x : α) (tail : List α)

theorem read_append : read (front ++ x :: tail) front.length = some x := by
  rw [read, List.getElem?_append_right (le_refl _), Nat.sub_self, List.getElem?_cons_zero]

theorem write_append (y : α) :
    write (front ++ x :: tail) front.length y = some (front ++ y :: tail) := by
  rw [write, if_pos (by simp), List.set_append_right _ _ (le_refl _), Nat.sub_self,
    List.set_cons_zero]

/-- **`insert`** moves every element one slot on, and is left with the last of them. -/
theorem shiftUp_spec (middle : List α) (cur : α) :
    shiftUp middle.length (front ++ (middle ++ tail)) front.length cur =
      some (front ++ ((cur :: middle).dropLast ++ tail),
        (cur :: middle).getLast (List.cons_ne_nil _ _)) := by
  induction middle generalizing front cur with
  | nil => rfl
  | cons y middle ih =>
      have hnext := ih (front ++ [cur]) y
      rw [List.length_append, List.length_singleton, List.append_assoc, List.append_assoc,
        List.singleton_append, List.singleton_append] at hnext
      rw [List.length_cons, List.cons_append, shiftUp, read_append, Option.bind_eq_bind,
        Option.bind_some, write_append, Option.bind_eq_bind, Option.bind_some, hnext]
      rfl

/-- **`erase`** moves every element behind the position one slot back, and reads one slot
behind them. -/
theorem shiftDown_spec (middle : List α) (y : α) :
    ∃ z, shiftDown (middle.length + 1) (front ++ x :: (middle ++ y :: tail)) front.length =
      some (front ++ (middle ++ z :: y :: tail)) := by
  induction middle generalizing front x with
  | nil =>
      have hread := read_append (front ++ [x]) y tail
      rw [List.append_assoc, List.singleton_append, List.length_append,
        List.length_singleton] at hread
      refine ⟨y, ?_⟩
      rw [List.length_nil, List.nil_append, List.nil_append, shiftDown, hread, Option.bind_eq_bind,
        Option.bind_some, write_append]
      rfl
  | cons m middle ih =>
      have hread := read_append (front ++ [x]) m (middle ++ y :: tail)
      rw [List.append_assoc, List.singleton_append, List.length_append,
        List.length_singleton] at hread
      obtain ⟨z, hz⟩ := ih (front ++ [m]) m
      rw [List.length_append, List.length_singleton, List.append_assoc, List.append_assoc,
        List.singleton_append, List.singleton_append] at hz
      refine ⟨z, ?_⟩
      rw [List.length_cons, List.cons_append, shiftDown, hread, Option.bind_eq_bind,
        Option.bind_some, write_append, Option.bind_eq_bind, Option.bind_some, hz]
      rfl

theorem shiftDown_eq_none (middle : List α) :
    shiftDown (middle.length + 1) (front ++ x :: middle) front.length = none := by
  induction middle generalizing front x with
  | nil =>
      have hread : read (front ++ [x]) (front.length + 1) = none := by
        rw [read, List.getElem?_eq_none]
        rw [List.length_append, List.length_singleton]
      rw [List.length_nil, shiftDown, hread]
      rfl
  | cons m middle ih =>
      have hread := read_append (front ++ [x]) m middle
      rw [List.append_assoc, List.singleton_append, List.length_append,
        List.length_singleton] at hread
      have hnext := ih (front ++ [m]) m
      rw [List.length_append, List.length_singleton, List.append_assoc,
        List.singleton_append] at hnext
      rw [List.length_cons, shiftDown, hread, Option.bind_eq_bind, Option.bind_some, write_append,
        Option.bind_eq_bind, Option.bind_some, hnext]

/-- **`erase` of a range** copies the elements behind it to its beginning. -/
theorem moveDown_spec (gap : List α) (hgap : gap ≠ []) (middle : List α) :
    ∃ rest, moveDown middle.length (front ++ (gap ++ (middle ++ tail))) front.length
        (front.length + gap.length) =
          some (front ++ (middle ++ rest), front.length + middle.length) ∧
      rest.length = gap.length + tail.length := by
  induction middle generalizing front gap with
  | nil => exact ⟨gap ++ tail, rfl, List.length_append⟩
  | cons m middle ih =>
      obtain ⟨g, gap, rfl⟩ := List.exists_cons_of_ne_nil hgap
      have hread := read_append (front ++ g :: gap) m (middle ++ tail)
      rw [List.append_assoc, List.length_append] at hread
      obtain ⟨rest, hrest, hlength⟩ := ih (front ++ [m]) (gap ++ [m]) (by simp)
      rw [List.length_append, List.length_append, List.length_singleton] at hrest
      simp only [List.append_assoc, List.singleton_append] at hrest
      refine ⟨rest, ?_, by rw [hlength, List.length_append]; rfl⟩
      have hplace : front.length + (g :: gap).length + 1 = front.length + 1 + (gap.length + 1) := by
        rw [List.length_cons]
        omega
      have hcount : front.length + 1 + middle.length = front.length + (middle.length + 1) := by omega
      simp only [List.length_cons, List.cons_append] at hread hplace ⊢
      rw [moveDown, hread, Option.bind_eq_bind, Option.bind_some, write_append,
        Option.bind_eq_bind, Option.bind_some, hplace, hrest, hcount]

end Loops

/-! ## The calls -/

section Calls

variable {vectorSize : ℕ} {vector : VectorSlots α}

theorem Sound.length_toList (hsound : vector.Sound vectorSize) :
    vector.toList.length = vector.finish_ := by
  rw [toList, List.length_take, hsound.length_vec, Nat.min_eq_left hsound.finish_le]

/-- A sound vector: the elements before a position, those from it on, and the slots that are
not in use. -/
theorem Sound.exists_split (hsound : vector.Sound vectorSize) {position : ℕ}
    (hposition : position ≤ vector.finish_) :
    ∃ front middle tail, vector = ⟨front ++ (middle ++ tail), front.length + middle.length⟩ ∧
      front.length = position ∧ front.length + middle.length + tail.length = vectorSize := by
  obtain ⟨vec_, finish_⟩ := vector
  have hlength : vec_.length = vectorSize := hsound.length_vec
  have hfinish : finish_ ≤ vectorSize := hsound.finish_le
  have hposition : position ≤ finish_ := hposition
  have hfront : (vec_.take position).length = position := by
    rw [List.length_take]
    omega
  have hmiddle : ((vec_.drop position).take (finish_ - position)).length = finish_ - position := by
    rw [List.length_take, List.length_drop]
    omega
  refine ⟨vec_.take position, (vec_.drop position).take (finish_ - position),
    (vec_.drop position).drop (finish_ - position), ?_, hfront, ?_⟩
  · rw [List.take_append_drop, List.take_append_drop, hfront, hmiddle,
      Nat.add_sub_cancel' hposition]
  · rw [hfront, hmiddle, List.length_drop, List.length_drop]
    omega

theorem toList_append (list tail : List α) : toList ⟨list ++ tail, list.length⟩ = list := by
  rw [toList, List.take_append_of_le_length (le_refl _), List.take_length]

theorem toList_append_append (front middle tail : List α) :
    toList ⟨front ++ (middle ++ tail), front.length + middle.length⟩ = front ++ middle := by
  rw [← List.append_assoc, ← List.length_append, toList_append]

/-- What a call should do: stay in the array and leave the elements `list`. -/
def Leaves (vectorSize : ℕ) (result : Option (VectorSlots α)) (list : List α) : Prop :=
  ∃ next, result = some next ∧ next.Sound vectorSize ∧ next.toList = list

theorem leaves_append {list tail : List α} (hlength : list.length + tail.length = vectorSize) :
    Leaves vectorSize (some ⟨list ++ tail, list.length⟩) list := by
  refine ⟨_, rfl, ⟨?_, ?_⟩, toList_append list tail⟩
  · rw [List.length_append, hlength]
  · exact hlength ▸ Nat.le_add_right _ _

/-- **`push_back`** on an array that is cut behind the elements. -/
theorem pushBack_append (list tail : List α) (y x : α)
    (hlength : list.length + (tail.length + 1) = vectorSize) :
    pushBack vectorSize ⟨list ++ y :: tail, list.length⟩ x =
      some ⟨(list ++ [x]) ++ tail, (list ++ [x]).length⟩ := by
  have hne : list.length ≠ vectorSize := by omega
  rw [pushBack, if_pos hne, write_append, List.append_assoc, List.length_append]
  rfl

theorem pushBack_right (hsound : vector.Sound vectorSize) (x : α) :
    Leaves vectorSize (pushBack vectorSize vector x)
      (if vector.finish_ < vectorSize then vector.toList ++ [x] else vector.toList) := by
  obtain ⟨list, middle, tail, rfl, hlist, hall⟩ := hsound.exists_split (le_refl _)
  dsimp only at hlist ⊢
  obtain rfl : middle = [] := List.length_eq_zero_iff.1 (by omega)
  rw [toList_append_append, List.append_nil, List.nil_append, List.length_nil, Nat.add_zero]
  cases tail with
  | nil =>
      have hfull : list.length = vectorSize := hall
      rw [if_neg (by omega), pushBack, if_neg (not_not.2 hfull)]
      exact leaves_append hall
  | cons y tail =>
      rw [List.length_cons, List.length_nil, Nat.add_zero] at hall
      rw [if_pos (by omega), pushBack_append list tail y x hall]
      refine leaves_append ?_
      rw [List.length_append, List.length_singleton]
      omega

theorem popBack_right (hsound : vector.Sound vectorSize) :
    Leaves vectorSize (some (popBack vector)) vector.toList.dropLast := by
  have hlength := hsound.length_vec
  have hfinish := hsound.finish_le
  have htoList : vector.toList.dropLast = vector.vec_.take (vector.finish_ - 1) := by
    have hcount : vector.toList.length = vector.finish_ := by
      rw [toList, List.length_take]
      omega
    rw [List.dropLast_eq_take, hcount, toList, List.take_take, Nat.min_eq_left (Nat.sub_le _ _)]
  refine ⟨_, rfl, ?_, ?_⟩
  · unfold popBack
    split
    · exact ⟨hlength, (Nat.sub_le _ _).trans hfinish⟩
    · exact hsound
  · rw [htoList]
    unfold popBack
    split
    · rfl
    · rename_i hzero
      rw [toList, not_not.1 hzero]

theorem insertIdx_length (front middle : List α) (x : α) :
    (front ++ middle).insertIdx front.length x = front ++ x :: middle := by
  induction front with
  | nil => rfl
  | cons y front ih => rw [List.cons_append, List.length_cons, List.insertIdx_succ_cons, ih]; rfl

/-- **`insert`** on a vector that is not full. -/
theorem insert_right (hsound : vector.Sound vectorSize) {position : ℕ}
    (hposition : position ≤ vector.finish_) (hroom : vector.finish_ < vectorSize) (x : α) :
    Leaves vectorSize ((insert vectorSize vector position x).map Prod.fst)
      (vector.toList.insertIdx position x) := by
  obtain ⟨front, middle, tail, rfl, rfl, hall⟩ := hsound.exists_split hposition
  dsimp only at hroom
  cases tail with
  | nil =>
      rw [List.length_nil] at hall
      omega
  | cons y tail =>
      rw [List.length_cons] at hall
      have hlist : front.length + middle.length = (front ++ (x :: middle).dropLast).length := by
        rw [List.length_append, List.length_dropLast, List.length_cons, Nat.add_sub_cancel]
      have hlast : (x :: middle).dropLast ++ [(x :: middle).getLast (List.cons_ne_nil _ _)] =
          x :: middle := List.dropLast_append_getLast _
      have hcall : (insert vectorSize ⟨front ++ (middle ++ y :: tail), front.length + middle.length⟩
          front.length x).map Prod.fst =
            some ⟨(front ++ x :: middle) ++ tail, (front ++ x :: middle).length⟩ := by
        rw [insert, if_neg hroom.ne, Nat.add_sub_cancel_left, shiftUp_spec]
        simp only [Option.bind_eq_bind, Option.bind_some]
        rw [hlist, ← List.append_assoc, pushBack_append _ _ _ _ (by omega), List.append_assoc front,
          hlast]
        rfl
      rw [hcall, toList_append_append, insertIdx_length]
      refine leaves_append ?_
      rw [List.length_append, List.length_cons]
      omega

theorem insert_full (hfull : vector.finish_ = vectorSize) (position : ℕ) (x : α) :
    insert vectorSize vector position x = some (vector, vector.finish_) :=
  if_pos hfull

/-- **`erase` of a range.** -/
theorem eraseRange_right (hsound : vector.Sound vectorSize) {first last : ℕ} (hle : first ≤ last)
    (hlast : last ≤ vector.finish_) :
    Leaves vectorSize ((eraseRange vector first last).map Prod.fst)
      (vector.toList.take first ++ vector.toList.drop last) := by
  by_cases hnone : first = vector.finish_ ∨ first = last
  · have hsame : first = last := hnone.elim (fun heq => by omega) id
    rw [eraseRange, if_pos hnone, hsame, List.take_append_drop]
    exact ⟨vector, rfl, hsound, rfl⟩
  · obtain ⟨front, behind, tail, rfl, rfl, hall⟩ := hsound.exists_split (hle.trans hlast)
    dsimp only at hlast hnone
    obtain ⟨gap, middle, rfl, hgap⟩ :
        ∃ gap middle, behind = gap ++ middle ∧ front.length + gap.length = last := by
      refine ⟨behind.take (last - front.length), behind.drop (last - front.length),
        (List.take_append_drop _ _).symm, ?_⟩
      rw [List.length_take]
      omega
    have hne : gap ≠ [] := by
      rintro rfl
      exact hnone (Or.inr hgap)
    obtain ⟨rest, hmoved, hrest⟩ := moveDown_spec front tail gap hne middle
    rw [List.length_append] at hall hnone
    have hcount : front.length + (gap.length + middle.length) - last = middle.length := by omega
    have hcall : (eraseRange ⟨front ++ (gap ++ middle ++ tail),
        front.length + (gap ++ middle).length⟩ front.length last).map Prod.fst =
          some ⟨(front ++ middle) ++ rest, (front ++ middle).length⟩ := by
      simp only [eraseRange, List.length_append, if_neg hnone, hcount]
      rw [List.append_assoc gap, ← hgap, hmoved, List.append_assoc]
      rfl
    have htoList : (front ++ (gap ++ middle)).take front.length ++
        (front ++ (gap ++ middle)).drop last = front ++ middle := by
      rw [List.take_left', ← hgap, ← List.append_assoc, ← List.length_append, List.drop_left]
      rfl
    rw [hcall, toList_append_append, htoList]
    refine leaves_append ?_
    rw [List.length_append]
    omega

/-- **`erase` at a position** of a vector that is not full. -/
theorem erase_right (hsound : vector.Sound vectorSize) {position : ℕ}
    (hposition : position ≤ vector.finish_)
    (hroom : position = vector.finish_ ∨ vector.finish_ < vectorSize) :
    Leaves vectorSize ((erase vector position).map Prod.fst) (vector.toList.eraseIdx position) := by
  by_cases hend : position = vector.finish_
  · have hcount : vector.toList.length ≤ position := by
      rw [toList, List.length_take]
      omega
    rw [erase, if_pos hend, List.eraseIdx_of_length_le hcount]
    exact ⟨vector, rfl, hsound, rfl⟩
  · obtain ⟨front, behind, tail, rfl, rfl, hall⟩ := hsound.exists_split hposition
    dsimp only at hend hroom
    cases behind with
    | nil => exact absurd rfl hend
    | cons x middle =>
        cases tail with
        | nil =>
            rw [List.length_nil] at hall
            omega
        | cons y tail =>
            simp only [List.length_cons] at hall hend
            obtain ⟨z, hshifted⟩ := shiftDown_spec front x tail middle y
            have hcall : (erase ⟨front ++ (x :: middle ++ y :: tail),
                front.length + (x :: middle).length⟩ front.length).map Prod.fst =
                  some ⟨(front ++ middle) ++ z :: y :: tail, (front ++ middle).length⟩ := by
              simp only [erase, List.length_cons, if_neg hend, Nat.add_sub_cancel_left,
                List.cons_append]
              rw [hshifted, List.append_assoc, List.length_append]
              rfl
            have hlist : (front ++ x :: middle).eraseIdx front.length = front ++ middle := by
              rw [List.eraseIdx_append_of_length_le (le_refl _), Nat.sub_self]
              rfl
            rw [hcall, toList_append_append, hlist]
            refine leaves_append ?_
            simp only [List.length_append, List.length_cons]
            omega

theorem erase_eq_none (hsound : vector.Sound vectorSize) {position : ℕ}
    (hposition : position < vector.finish_) (hfull : vector.finish_ = vectorSize) :
    erase vector position = none := by
  obtain ⟨front, behind, tail, rfl, rfl, hall⟩ := hsound.exists_split hposition.le
  dsimp only at hposition hfull
  obtain rfl : tail = [] := List.length_eq_zero_iff.1 (by omega)
  cases behind with
  | nil => exact absurd hposition (lt_irrefl _)
  | cons x middle =>
      rw [List.append_nil, erase, if_neg hposition.ne, Nat.add_sub_cancel_left, List.length_cons,
        shiftDown_eq_none]
      rfl

/-- **All calls are right** but `erase` at a position of a full vector: they leave the list with
the element inserted or the range removed, and stay in the array. -/
theorem editing_right_iff (hsound : vector.Sound vectorSize) :
    (∀ x, Leaves vectorSize (pushBack vectorSize vector x)
      (if vector.finish_ < vectorSize then vector.toList ++ [x] else vector.toList)) ∧
    Leaves vectorSize (some (popBack vector)) vector.toList.dropLast ∧
    (∀ position ≤ vector.finish_, ∀ x,
      Leaves vectorSize ((insert vectorSize vector position x).map Prod.fst)
        (if vector.finish_ < vectorSize then vector.toList.insertIdx position x
          else vector.toList)) ∧
    (∀ first last, first ≤ last → last ≤ vector.finish_ →
      Leaves vectorSize ((eraseRange vector first last).map Prod.fst)
        (vector.toList.take first ++ vector.toList.drop last)) ∧
    ∀ position ≤ vector.finish_,
      (Leaves vectorSize ((erase vector position).map Prod.fst)
        (vector.toList.eraseIdx position) ↔
          position = vector.finish_ ∨ vector.finish_ < vectorSize) := by
  refine ⟨pushBack_right hsound, popBack_right hsound, fun position hposition x => ?_,
    fun _ _ => eraseRange_right hsound, fun position hposition => ?_⟩
  · by_cases hroom : vector.finish_ < vectorSize
    · rw [if_pos hroom]
      exact insert_right hsound hposition hroom x
    · have hfull : vector.finish_ = vectorSize :=
        le_antisymm hsound.finish_le (not_lt.1 hroom)
      rw [if_neg hroom, insert_full hfull]
      exact ⟨vector, rfl, hsound, rfl⟩
  · constructor
    · rintro ⟨next, hnext, -⟩
      by_contra hfull
      rw [not_or, not_lt] at hfull
      rw [erase_eq_none hsound (lt_of_le_of_ne hposition hfull.1)
        (le_antisymm hsound.finish_le hfull.2)] at hnext
      cases hnext
    · exact erase_right hsound hposition

/-- A vector of two elements in an array of two slots. -/
theorem editing_right_iff_full :
    Leaves 2 ((erase ⟨[5, 7], 2⟩ 0).map Prod.fst) ((toList ⟨[5, 7], 2⟩).eraseIdx 0) ↔
      0 = 2 ∨ 2 < 2 :=
  (editing_right_iff (⟨rfl, le_refl 2⟩ : Sound 2 (⟨[5, 7], 2⟩ : VectorSlots ℕ))).2.2.2.2 0
    (Nat.zero_le 2)

/-- **Erasing the first element of a full vector** reads the slot behind the array. -/
theorem full_vector_erase :
    Sound 2 (⟨[5, 7], 2⟩ : VectorSlots ℕ) ∧
      ¬ Leaves 2 ((erase (⟨[5, 7], 2⟩ : VectorSlots ℕ) 0).map Prod.fst)
        ((toList (⟨[5, 7], 2⟩ : VectorSlots ℕ)).eraseIdx 0) := by
  have hsound : Sound 2 (⟨[5, 7], 2⟩ : VectorSlots ℕ) := ⟨rfl, le_refl 2⟩
  refine ⟨hsound, ?_⟩
  rw [erase_eq_none hsound Nat.two_pos rfl]
  rintro ⟨next, hnext, -⟩
  cases hnext

end Calls

end VectorSlots

end Wiselib.Pstl
