import Mathlib

/-!
# Vectors in static memory

`vector_static` keeps its elements in an array of fixed capacity.  An index is
not compared with the size on access, so the cells behind the last element
still hold what was there before, and a read behind the end finds it.
-/

namespace Wiselib.Pstl

/-- A vector: the cells of its memory, of which the first `size` are in use. -/
structure VectorStatic (α : Type*) where
  cells : ℕ → α
  size : ℕ

namespace VectorStatic

variable {α : Type*} {vector : VectorStatic α} {i j capacity : ℕ} {x : α}

/-- `push_back`, which does nothing on a full vector. -/
def pushBack (capacity : ℕ) (x : α) (vector : VectorStatic α) : VectorStatic α :=
  if vector.size ≠ capacity then
    ⟨Function.update vector.cells vector.size x, vector.size + 1⟩
  else vector

/-- `erase`: moves the cells behind the position down, the one behind the last included. -/
def erase (i : ℕ) (vector : VectorStatic α) : VectorStatic α :=
  if i = vector.size then vector
  else
    ⟨fun j => if i ≤ j ∧ j < vector.size then vector.cells (j + 1) else vector.cells j,
      vector.size - 1⟩

/-- Writes through `operator[]`. -/
def modify (i : ℕ) (f : α → α) (vector : VectorStatic α) : VectorStatic α :=
  { vector with cells := Function.update vector.cells i (f (vector.cells i)) }

/-- Writes to every element, as a loop over the iterators does. -/
def modifyAll (f : α → α) (vector : VectorStatic α) : VectorStatic α :=
  { vector with cells := fun i => if i < vector.size then f (vector.cells i) else vector.cells i }

/-- The first element that meets a condition. -/
def findIdx (p : α → Bool) (vector : VectorStatic α) : Option ℕ :=
  (List.range vector.size).find? fun i => p (vector.cells i)

theorem cells_pushBack_of_lt (hi : i < vector.size) :
    (vector.pushBack capacity x).cells i = vector.cells i := by
  unfold pushBack
  split
  · exact Function.update_of_ne (by omega) _ _
  · rfl

theorem size_le_pushBack : vector.size ≤ (vector.pushBack capacity x).size := by
  unfold pushBack
  split
  · exact Nat.le_succ _
  · exact le_rfl

theorem cells_pushBack (hi : i < (vector.pushBack capacity x).size) :
    i < vector.size ∨ i = vector.size ∧ (vector.pushBack capacity x).cells i = x := by
  unfold pushBack at hi ⊢
  split at hi
  · rename_i hroom
    rw [if_pos hroom]
    rcases Nat.lt_succ_iff_lt_or_eq.1 hi with hlt | heq
    · exact .inl hlt
    · subst heq
      exact .inr ⟨rfl, Function.update_self _ _ _⟩
  · exact .inl hi

theorem size_erase (hi : i < vector.size) : (vector.erase i).size = vector.size - 1 := by
  simp [erase, hi.ne]

theorem cells_erase_below (hj : j < i) : (vector.erase i).cells j = vector.cells j := by
  unfold erase
  split
  · rfl
  · simp [hj]

theorem cells_erase (hi : i < vector.size) (hj : j < (vector.erase i).size) :
    ∃ k < vector.size, k ≠ i ∧ (j < i → k = j) ∧ (i ≤ j → k = j + 1) ∧
      (vector.erase i).cells j = vector.cells k := by
  rw [size_erase hi] at hj
  rcases Nat.lt_or_ge j i with hlt | hge
  · exact ⟨j, by omega, by omega, fun _ => rfl, by omega, cells_erase_below hlt⟩
  · refine ⟨j + 1, by omega, by omega, by omega, fun _ => rfl, ?_⟩
    have hmoved : i ≤ j ∧ j < vector.size := ⟨hge, by omega⟩
    simp [erase, hi.ne, hmoved]

theorem cells_modify {β : Type*} {f : α → α} (g : α → β) (hsame : ∀ x, g (f x) = g x) :
    g ((vector.modify i f).cells j) = g (vector.cells j) := by
  unfold modify
  rcases eq_or_ne j i with rfl | hne
  · simp [hsame]
  · simp [Function.update_of_ne hne]

theorem cells_modifyAll {β : Type*} {f : α → α} (g : α → β) (hsame : ∀ x, g (f x) = g x) :
    g ((vector.modifyAll f).cells j) = g (vector.cells j) := by
  unfold modifyAll
  dsimp only
  split
  · exact hsame _
  · rfl

theorem findIdx_lt {p : α → Bool} (hfound : vector.findIdx p = some i) : i < vector.size :=
  List.mem_range.1 (List.mem_of_find?_eq_some hfound)

end VectorStatic

end Wiselib.Pstl
