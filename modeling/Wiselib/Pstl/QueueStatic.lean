import Wiselib.Library.Refinement

/-!
# Queues in a ring of static memory

`queue_static` of `util/pstl/queue_static.h`.  An array of fixed size, the place of
the oldest element and the number of elements; the place behind the newest one is
found by a remainder.

## Strategy

`toList` reads the elements off the ring from the oldest on.  A push writes a
place that the list does not read (`toList_push`), a pop moves the place where the
list begins (`toList_pop`), so the ring simulates a bounded queue of lists
(`simulates_boundedQueue`), over any run.

The overloads of `front` and `back` for constant queues call themselves and are
left out: a queue that is pushed to and popped from is not constant.
-/

namespace Wiselib.Pstl

open Transition

/-- `QUEUE_SIZE` and the bits of `size_t`.  An array has at most half as many elements as
`size_t` has values, since differences of pointers are signed. -/
structure QueueShape where
  queueSize : ℕ
  sizeBits : ℕ
  queueSize_pos : 0 < queueSize
  queueSize_fits : 2 * queueSize ≤ 2 ^ sizeBits

/-- `queue_static`. -/
structure QueueStatic (α : Type*) (shape : QueueShape) where
  queue : Fin shape.queueSize → α
  front_ : ℕ
  size_ : ℕ
  front_lt : front_ < shape.queueSize
  size_le : size_ ≤ shape.queueSize

namespace QueueStatic

variable {α : Type*} {shape : QueueShape}

/-- The place in the array of a number that is reduced modulo `max_size()`. -/
def place (shape : QueueShape) (n : ℕ) : Fin shape.queueSize :=
  ⟨n % shape.queueSize, Nat.mod_lt n shape.queueSize_pos⟩

/-- The constructor, on an array that is not initialized. -/
def new (queue : Fin shape.queueSize → α) : QueueStatic α shape :=
  ⟨queue, 0, 0, shape.queueSize_pos, Nat.zero_le _⟩

variable (q : QueueStatic α shape)

/-- `size`. -/
def size : ℕ := q.size_

/-- `empty`. -/
def empty : Bool := q.size == 0

/-- `full`. -/
def full : Bool := q.size == shape.queueSize

/-- `front`. -/
def front : α := q.queue ⟨q.front_, q.front_lt⟩

/-- The place that `back` refers to.  Sums are those of `size_t`. -/
def backPlace (shape : QueueShape) (front size : ℕ) : Fin shape.queueSize :=
  place shape ((front + size + (2 ^ shape.sizeBits - 1)) % 2 ^ shape.sizeBits)

/-- `back`. -/
def back : α := q.queue (backPlace shape q.front_ q.size)

/-- `push`, which writes to `back` of the longer queue. -/
def push (x : α) : QueueStatic α shape :=
  if hfull : q.full = true then q
  else
    { q with
      size_ := q.size_ + 1
      size_le := Nat.lt_of_le_of_ne q.size_le fun heq => hfull (beq_iff_eq.2 heq)
      queue := Function.update q.queue (backPlace shape q.front_ (q.size_ + 1)) x }

/-- `pop`. -/
def pop : QueueStatic α shape :=
  if q.empty then q
  else
    { q with
      size_ := q.size_ - 1
      front_ := (q.front_ + 1) % shape.queueSize
      front_lt := Nat.mod_lt _ shape.queueSize_pos
      size_le := (Nat.sub_le _ _).trans q.size_le }

/-- `clear`. -/
def clear : QueueStatic α shape :=
  { q with size_ := 0, size_le := Nat.zero_le _ }

/-! ## The elements -/

/-- The elements from the oldest on. -/
def toList : List α :=
  (List.range q.size_).map fun i => q.queue (place shape (q.front_ + i))

@[simp] theorem length_toList : q.toList.length = q.size := by
  rw [toList, List.length_map, List.length_range, size]

theorem toList_eq_nil_iff : q.toList = [] ↔ q.empty = true := by
  rw [← List.length_eq_zero_iff, length_toList, empty, beq_iff_eq]

theorem backPlace_eq {front size : ℕ} (hfront : front < shape.queueSize)
    (hsize : size < shape.queueSize) :
    backPlace shape front (size + 1) = place shape (front + size) := by
  have hfits := shape.queueSize_fits
  have hbits := Nat.two_pow_pos shape.sizeBits
  have hsum : front + (size + 1) + (2 ^ shape.sizeBits - 1) =
      front + size + 2 ^ shape.sizeBits := by omega
  rw [backPlace, hsum, Nat.add_mod_right, Nat.mod_eq_of_lt (by omega)]

theorem place_ne {i : ℕ} (hi : i < q.size_) (hroom : q.size_ < shape.queueSize) :
    place shape (q.front_ + i) ≠ place shape (q.front_ + q.size_) := by
  intro heq
  have hmod : (q.front_ + i) % shape.queueSize = (q.front_ + q.size_) % shape.queueSize :=
    congrArg Fin.val heq
  have hsame : i % shape.queueSize = q.size_ % shape.queueSize :=
    Nat.ModEq.add_left_cancel' q.front_ hmod
  rw [Nat.mod_eq_of_lt hroom, Nat.mod_eq_of_lt (hi.trans hroom)] at hsame
  exact hi.ne hsame

theorem size_lt_of_not_full (hfull : q.full = false) : q.size_ < shape.queueSize := by
  refine Nat.lt_of_le_of_ne q.size_le fun heq => ?_
  rw [full, size, heq, beq_self_eq_true] at hfull
  exact Bool.noConfusion hfull

/-- **A push** on a queue that is not full. -/
theorem toList_push (hfull : q.full = false) (x : α) : (q.push x).toList = q.toList ++ [x] := by
  have hroom := q.size_lt_of_not_full hfull
  unfold push
  rw [dif_neg (by simp [hfull])]
  simp only [toList, List.range_succ, List.map_append, List.map_cons, List.map_nil,
    backPlace_eq q.front_lt hroom, Function.update_self]
  congr 1
  refine List.map_congr_left fun i hi => ?_
  exact Function.update_of_ne (q.place_ne (List.mem_range.1 hi) hroom) _ _

/-- **A pop** takes the oldest element. -/
theorem toList_pop : q.pop.toList = q.toList.tail := by
  unfold pop
  split
  · rename_i hempty
    rw [(q.toList_eq_nil_iff).2 hempty, List.tail_nil]
  · rename_i hempty
    obtain ⟨rest, hrest⟩ : ∃ rest, q.size_ = rest + 1 := by
      refine ⟨q.size_ - 1, ?_⟩
      have hne : q.size_ ≠ 0 := fun hzero => hempty (beq_iff_eq.2 hzero)
      omega
    have hplace : ∀ i, place shape ((q.front_ + 1) % shape.queueSize + i) =
        place shape (q.front_ + (i + 1)) := by
      intro i
      have hsum : q.front_ + (i + 1) = q.front_ + 1 + i := by omega
      refine Fin.ext ?_
      show ((q.front_ + 1) % shape.queueSize + i) % shape.queueSize =
        (q.front_ + (i + 1)) % shape.queueSize
      rw [Nat.mod_add_mod, hsum]
    simp only [toList, hrest, Nat.add_sub_cancel, List.range_succ_eq_map, List.map_cons,
      List.tail_cons, List.map_map]
    exact List.map_congr_left fun i _ => congrArg q.queue (hplace i)

theorem back_eq {x : α} {rest : List α} (hlist : q.toList = rest ++ [x]) : q.back = x := by
  have hsize : q.size_ = rest.length + 1 := by
    have hlength := q.length_toList
    rw [hlist, List.length_append, List.length_singleton] at hlength
    exact hlength.symm
  have hlast := q.size_le
  rw [toList, hsize, List.range_succ, List.map_append, List.map_singleton] at hlist
  rw [back, size, hsize, backPlace_eq q.front_lt (by omega)]
  exact List.singleton_inj.1 (List.append_inj_right' hlist rfl)

theorem front_eq {x : α} {rest : List α} (hlist : q.toList = x :: rest) : q.front = x := by
  have hsize : q.size_ = rest.length + 1 := by
    have hlength := q.length_toList
    rw [hlist, List.length_cons] at hlength
    exact hlength.symm
  rw [toList, hsize, List.range_succ_eq_map, List.map_cons] at hlist
  have hplace : place shape (q.front_ + 0) = ⟨q.front_, q.front_lt⟩ :=
    Fin.ext (Nat.mod_eq_of_lt q.front_lt)
  rw [hplace] at hlist
  exact (List.cons.inj hlist).1

/-! ## Runs -/

/-- The calls that change a queue. -/
inductive Op (α : Type*) where
  | push (x : α)
  | pop
  | clear

/-- What the queue tells about itself. -/
structure Report where
  size : ℕ
  empty : Bool
  full : Bool
deriving DecidableEq

/-- Performs a call. -/
def perform (q : QueueStatic α shape) (op : Op α) : QueueStatic α shape × Report :=
  let next := match op with
    | .push x => q.push x
    | .pop => q.pop
    | .clear => q.clear
  (next, ⟨next.size, next.empty, next.full⟩)

/-- A bounded queue: the list of its elements. -/
def boundedQueue (capacity : ℕ) (elements : List α) (op : Op α) : List α × Report :=
  let next := match op with
    | .push x => if elements.length < capacity then elements ++ [x] else elements
    | .pop => elements.tail
    | .clear => []
  (next, ⟨next.length, next.length == 0, next.length == capacity⟩)

/-- **The ring simulates** the bounded queue. -/
theorem simulates_boundedQueue :
    Simulates (fun (q : QueueStatic α shape) elements => q.toList = elements) perform
      (boundedQueue shape.queueSize) := by
  rintro q elements op rfl
  have hlist : (perform q op).1.toList = (boundedQueue shape.queueSize q.toList op).1 := by
    cases op with
    | push x =>
        show (q.push x).toList = if q.toList.length < shape.queueSize then q.toList ++ [x]
          else q.toList
        rw [length_toList, size]
        cases hfull : q.full with
        | true =>
            have heq : q.size_ = shape.queueSize := beq_iff_eq.1 hfull
            rw [push, dif_pos hfull, if_neg (by omega)]
        | false =>
            rw [if_pos (q.size_lt_of_not_full hfull)]
            exact q.toList_push hfull x
    | pop => exact q.toList_pop
    | clear => rfl
  refine ⟨hlist, ?_⟩
  have hsize : (perform q op).1.size = (boundedQueue shape.queueSize q.toList op).1.length := by
    rw [← hlist, length_toList]
  unfold perform boundedQueue at hsize ⊢
  simp only [empty, full] at hsize ⊢
  rw [hsize]

/-- **Over every run** of push, pop and clear the ring holds what the bounded queue holds: the
front is its oldest element, and size, empty and full agree after every call. -/
theorem queueStatic_fifo (queue : Fin shape.queueSize → α) (operations : List (Op α)) :
    let last := finalState perform (new queue : QueueStatic α shape) operations
    let elements := finalState (boundedQueue shape.queueSize) [] operations
    last.toList = elements ∧
      (∀ x rest, elements = x :: rest → last.front = x) ∧
      last.size = elements.length ∧
      (last.empty = true ↔ elements = []) ∧
      (last.full = true ↔ elements.length = shape.queueSize) ∧
      outputs perform (new queue : QueueStatic α shape) operations =
        outputs (boundedQueue shape.queueSize) [] operations := by
  intro last elements
  have hlist : last.toList = elements :=
    simulates_boundedQueue.finalState (show (new queue : QueueStatic α shape).toList = [] from rfl)
      operations
  refine ⟨hlist, fun x rest heq => last.front_eq (hlist.trans heq), ?_, ?_, ?_, ?_⟩
  · rw [← hlist, length_toList]
  · rw [← hlist, toList_eq_nil_iff]
  · rw [← hlist, length_toList, full, beq_iff_eq]
  · exact simulates_boundedQueue.outputs_eq rfl operations

end QueueStatic

end Wiselib.Pstl
