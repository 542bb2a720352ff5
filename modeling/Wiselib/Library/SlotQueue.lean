import Mathlib

/-!
# Bounded queues that recycle their oldest slot

A queue of fixed capacity keeps its elements in slots.  A new element goes to
the front; when no slot is free, the element at the back gives up its slot
first.  References to elements are slots, so a reference outlives its element:
after as many further pushes as the queue has slots it denotes another one.

Numbering the pushes from 0, the element of push `n` lies in slot
`n % capacity` and is there as long as it is among the last `capacity` pushes.
`Rotates` is the invariant that says so; what the slots hold may be changed in
place at any time.
-/

namespace SlotQueue

variable {α : Type}

/-- A queue: the used slots from front to back, the free slots, and what the slots hold. -/
structure Queue (α : Type) where
  order : List ℕ
  free : List ℕ
  element : ℕ → α

namespace Queue

variable (queue : Queue α)

/-- The elements from front to back. -/
def toList : List α := queue.order.map queue.element

/-- An empty queue. -/
def init (capacity : ℕ) (element : ℕ → α) : Queue α where
  order := []
  free := List.range capacity
  element := element

/-- Free the slot at the back. -/
def popBack : Queue α :=
  match queue.order.getLast? with
  | none => queue
  | some slot => { queue with order := queue.order.dropLast, free := slot :: queue.free }

/-- Put an element into a free slot at the front; without one nothing changes. -/
def pushFront (x : α) : Queue α :=
  match queue.free with
  | [] => queue
  | slot :: free =>
      { order := slot :: queue.order
        free := free
        element := Function.update queue.element slot x }

/-- Put an element to the front, giving up the one at the back when the queue is full. -/
def push (capacity : ℕ) (x : α) : Queue α :=
  (if queue.order.length = capacity then queue.popBack else queue).pushFront x

/-- Change the element of a slot in place. -/
def modify (slot : ℕ) (change : α → α) : Queue α :=
  { queue with element := Function.update queue.element slot (change (queue.element slot)) }

theorem modify_element (slot other : ℕ) (change : α → α) :
    (queue.modify slot change).element other =
      if other = slot then change (queue.element slot) else queue.element other := by
  simp [modify, Function.update_apply]

/-- The first slot from the front whose element meets a condition. -/
def find (p : α → Bool) : Option ℕ := queue.order.find? fun slot => p (queue.element slot)

end Queue

/-! ## The rotation of the slots -/

/-- The numbers of the last `capacity` of `count` pushes, the latest first. -/
def recent (capacity count : ℕ) : List ℕ := (List.range count).reverse.take capacity

theorem mem_recent {capacity count n : ℕ} :
    n ∈ recent capacity count ↔ n < count ∧ count ≤ n + capacity := by
  unfold recent
  rw [List.mem_take_iff_getElem]
  constructor
  · rintro ⟨i, hi, rfl⟩
    have hi' : i < capacity ∧ i < count := by simpa using hi
    simp only [List.getElem_reverse, List.getElem_range, List.length_range]
    omega
  · rintro ⟨hlt, hle⟩
    refine ⟨count - 1 - n, by simp; omega, ?_⟩
    simp only [List.getElem_reverse, List.getElem_range, List.length_range]
    omega

theorem length_recent (capacity count : ℕ) :
    (recent capacity count).length = min capacity count := by
  simp [recent]

theorem recent_succ {capacity : ℕ} (hcapacity : 0 < capacity) (count : ℕ) :
    recent capacity (count + 1) = count :: recent (capacity - 1) count := by
  obtain ⟨rest, rfl⟩ : ∃ rest, capacity = rest + 1 := ⟨capacity - 1, by omega⟩
  simp [recent, List.range_succ]

/-- The queue has seen `count` pushes, and the slots went round. -/
structure Rotates (capacity count : ℕ) (queue : Queue α) : Prop where
  positive : 0 < capacity
  order : queue.order = (recent capacity count).map (· % capacity)
  free : queue.free = List.range' count (capacity - count)

theorem rotates_init {capacity : ℕ} (hcapacity : 0 < capacity) (element : ℕ → α) :
    Rotates capacity 0 (Queue.init capacity element) where
  positive := hcapacity
  order := by simp [Queue.init, recent]
  free := by simp [Queue.init, List.range_eq_range']

theorem Rotates.modify {capacity count : ℕ} {queue : Queue α}
    (hrotates : Rotates capacity count queue) (slot : ℕ) (change : α → α) :
    Rotates capacity count (queue.modify slot change) :=
  ⟨hrotates.positive, hrotates.order, hrotates.free⟩

theorem eq_of_mod_eq {capacity count n m : ℕ} (hn : n ∈ recent capacity count)
    (hm : m ∈ recent capacity count) (hmod : n % capacity = m % capacity) : n = m := by
  rw [mem_recent] at hn hm
  by_contra hne
  -- two numbers less than a capacity apart leave different remainders
  rcases Nat.lt_or_gt_of_ne hne with hlt | hlt
  · have hdvd : capacity ∣ m - n := (Nat.modEq_iff_dvd' hlt.le).1 hmod
    have := Nat.le_of_dvd (by omega) hdvd
    omega
  · have hdvd : capacity ∣ n - m := (Nat.modEq_iff_dvd' hlt.le).1 hmod.symm
    have := Nat.le_of_dvd (by omega) hdvd
    omega

theorem Rotates.push {capacity count : ℕ} {queue : Queue α}
    (hrotates : Rotates capacity count queue) (x : α) :
    Rotates capacity (count + 1) (queue.push capacity x) ∧
      (queue.push capacity x).element =
        Function.update queue.element (count % capacity) x := by
  obtain ⟨hpositive, horder, hfree⟩ := hrotates
  have hlength : queue.order.length = min capacity count := by
    rw [horder, List.length_map, length_recent]
  by_cases hfull : capacity ≤ count
  · -- the back is the push `capacity` before this one, whose slot is the one due
    have hback : (recent capacity count).getLast? = some (count - capacity) := by
      rw [List.getLast?_eq_getElem?, length_recent]
      unfold recent
      rw [List.getElem?_take_of_lt (by omega), List.getElem?_reverse (by simp; omega),
        List.getElem?_range (by simp; omega), List.length_range]
      congr 1
      omega
    have hslot : (count - capacity) % capacity = count % capacity :=
      (Nat.mod_eq_sub_mod hfull).symm
    have hdrop : (recent capacity count).dropLast = recent (capacity - 1) count := by
      rw [List.dropLast_eq_take, length_recent]
      unfold recent
      rw [List.take_take]
      congr 1
      omega
    have hpop : queue.popBack = { queue with
        order := (recent (capacity - 1) count).map (· % capacity)
        free := [count % capacity] } := by
      unfold Queue.popBack
      rw [horder, List.getLast?_map, hback, ← List.map_dropLast, hdrop]
      simp only [Option.map_some, hslot, hfree]
      rw [Nat.sub_eq_zero_of_le hfull, List.range'_zero]
    have hpush : queue.push capacity x =
        { order := count % capacity :: (recent (capacity - 1) count).map (· % capacity)
          free := []
          element := Function.update queue.element (count % capacity) x } := by
      unfold Queue.push
      rw [if_pos (by omega), hpop]
      rfl
    rw [hpush]
    refine ⟨⟨hpositive, ?_, ?_⟩, rfl⟩
    · rw [recent_succ hpositive]
      rfl
    · dsimp only
      rw [Nat.sub_eq_zero_of_le (by omega), List.range'_zero]
  · have hnext : queue.free = count :: List.range' (count + 1) (capacity - (count + 1)) := by
      rw [hfree]
      obtain ⟨rest, hrest⟩ : ∃ rest, capacity - count = rest + 1 := ⟨capacity - count - 1, by omega⟩
      rw [hrest, List.range'_succ, show capacity - (count + 1) = rest by omega]
    have hshort : recent capacity count = recent (capacity - 1) count := by
      unfold recent
      rw [List.take_of_length_le (by simp; omega), List.take_of_length_le (by simp; omega)]
    have hpush : queue.push capacity x =
        { order := count :: (recent (capacity - 1) count).map (· % capacity)
          free := List.range' (count + 1) (capacity - (count + 1))
          element := Function.update queue.element count x } := by
      unfold Queue.push
      rw [if_neg (by omega)]
      unfold Queue.pushFront
      rw [hnext, horder, hshort]
    have hslot : count % capacity = count := Nat.mod_eq_of_lt (by omega)
    rw [hpush, hslot]
    refine ⟨⟨hpositive, ?_, rfl⟩, rfl⟩
    rw [recent_succ hpositive, List.map_cons, hslot]

theorem Rotates.order_push {capacity count : ℕ} {queue : Queue α}
    (hrotates : Rotates capacity count queue) (x : α) :
    (queue.push capacity x).order =
      count % capacity :: (recent (capacity - 1) count).map (· % capacity) := by
  rw [(hrotates.push x).1.order, recent_succ hrotates.positive, List.map_cons]

theorem slot_fresh {capacity count n : ℕ} (hn : n ∈ recent (capacity - 1) count) :
    n % capacity ≠ count % capacity := by
  have hn' := mem_recent.1 hn
  intro hmod
  have hcount : count ∈ recent capacity (count + 1) := mem_recent.2 (by omega)
  have hold : n ∈ recent capacity (count + 1) := mem_recent.2 (by omega)
  have := eq_of_mod_eq hold hcount hmod
  omega

theorem Rotates.toList_push {capacity count : ℕ} {queue : Queue α}
    (hrotates : Rotates capacity count queue) (x : α) :
    (queue.push capacity x).toList = x :: queue.toList.take (capacity - 1) := by
  unfold Queue.toList
  rw [hrotates.order_push x, (hrotates.push x).2, List.map_cons, Function.update_self, ← List.map_take,
    hrotates.order, ← List.map_take]
  have htake : (recent capacity count).take (capacity - 1) = recent (capacity - 1) count := by
    unfold recent
    rw [List.take_take]
    congr 1
    omega
  rw [htake, List.map_map, List.map_map]
  congr 1
  apply List.map_congr_left
  intro n hn
  exact Function.update_of_ne (slot_fresh hn) _ _

end SlotQueue
