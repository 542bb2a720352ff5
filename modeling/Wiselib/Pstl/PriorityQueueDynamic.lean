import Wiselib.Pstl.VectorDynamic
import Wiselib.Pstl.PriorityQueue

/-!
# The priority queue in a dynamic vector

`PriorityQueueDynamic` of `util/pstl/priority_queue_dynamic.h`: a heap in a
`vector_dynamic`, the parent of element `p` being element `(p - 1) / 2`, in the order
of a comparison that is a parameter.

## Strategy

The elements of the vector are an array (`VectorDynamic.Elements`), which the calls
of the vector and the exchange of two elements keep (`Elements.swap`); the loops are
then those of any heap.  `heapify` puts the least of an element and its children in
front (`least_spec`), which is a step down of the element or the end of its way.

A queue is below its capacity while fewer than `2 ^ 15` elements are held, since a
larger capacity cannot be doubled in 16 bits, and the allocator is one that grants
the arrays asked for.
-/

namespace Wiselib.Pstl

open Heap Function

namespace PriorityQueueDynamic

variable {α : Type*}

/-- `compare_obvious`, the comparison of the template by default. -/
def compareObvious [LT α] [DecidableLT α] (a b : α) : ℤ :=
  if a < b then -1 else if b < a then 1 else 0

/-- `parent`. -/
def parent (p : ℕ) : ℕ := (p - 1) / 2

/-- `child_left`. -/
def childLeft (p : ℕ) : ℕ := 2 * p + 1

/-- `child_right`. -/
def childRight (p : ℕ) : ℕ := 2 * p + 2

/-- `vector_[i]`. -/
def element (vector : VectorDynamic α) (i : ℕ) : Option α := (vector.read i).join

/-- The assignments of `up_heap` and of `heapify` that exchange two elements. -/
def swap (vector : VectorDynamic α) (i position : ℕ) : Option (VectorDynamic α) := do
  let tmp ← element vector i
  let other ← element vector position
  let written ← vector.write i (some other)
  written.write position (some tmp)

section Code

variable (compare : α → α → ℤ) (grants : ℕ → Bool)

/-- `right_order`. -/
def rightOrder (a b : α) : Bool := decide (compare a b ≤ 0)

/-- `up_heap`. -/
def upHeap (vector : VectorDynamic α) (position : ℕ) : Option (VectorDynamic α) :=
  if position = 0 then some vector
  else
    (element vector (parent position)).bind fun above =>
      (element vector position).bind fun own =>
        if rightOrder compare above own then some vector
        else
          (swap vector (parent position) position).bind fun swapped =>
            upHeap swapped (parent position)
termination_by position
decreasing_by
  unfold parent
  omega

/-- The conditional of `heapify` that may choose a child. -/
def least (vector : VectorDynamic α) (min child : ℕ) : Option ℕ :=
  if child < vector.size then
    (element vector min).bind fun own =>
      (element vector child).bind fun below =>
        some (if rightOrder compare own below then min else child)
  else some min

/-- `heapify`.  A call goes down by one level, and there are not more levels than elements. -/
def heapify : ℕ → VectorDynamic α → ℕ → Option (VectorDynamic α)
  | 0, _, _ => none
  | rounds + 1, vector, position =>
      (least compare vector position (childLeft position)).bind fun min =>
        (least compare vector min (childRight position)).bind fun min =>
          if min ≠ position then
            (swap vector min position).bind fun swapped => heapify rounds swapped min
          else some vector

/-- `push`. -/
def push (vector : VectorDynamic α) (v : α) : Option (VectorDynamic α) := do
  let longer ← vector.pushBack grants (some v)
  upHeap compare longer (longer.size - 1)

/-- `pop` of a queue that is not empty. -/
def pop (vector : VectorDynamic α) : Option (VectorDynamic α × α) :=
  if vector.size > 0 then do
    let tmp ← element vector 0
    let last ← element vector (vector.size - 1)
    let written ← vector.write 0 (some last)
    let shorter ← written.popBack grants
    let next ← heapify compare (shorter.size + 1) shorter 0
    return (next, tmp)
  else none

/-- Performs an operation. -/
def perform (vector : VectorDynamic α) : Op α → Option (VectorDynamic α × Option α)
  | .push v => (push compare grants vector v).map fun next => (next, none)
  | .pop => (pop compare grants vector).map fun (next, tmp) => (next, some tmp)

end Code

/-! ## The tree -/

theorem parent_lt (p : ℕ) (hpos : 0 < p) : parent p < p := by
  unfold parent
  omega

theorem parent_childLeft (p : ℕ) : parent (childLeft p) = p := by
  unfold parent childLeft
  omega

theorem parent_childRight (p : ℕ) : parent (childRight p) = p := by
  unfold parent childRight
  omega

theorem eq_of_parent_eq {p j : ℕ} (hpos : 0 < j) (hj : parent j = p) :
    j = childLeft p ∨ j = childRight p := by
  unfold parent at hj
  unfold childLeft childRight
  omega

/-! ## The loops -/

section Spec

variable {vector : VectorDynamic α} {n i j : ℕ} {a : ℕ → α}

theorem element_of_lt (helements : vector.Elements n a) (hi : i < n) :
    element vector i = some (a i) := by
  rw [element, helements.read_eq i hi]
  rfl

/-- **The assignments** exchange two elements. -/
theorem swap_spec (helements : vector.Elements n a) (hi : i < n) (hj : j < n) :
    ∃ next, swap vector i j = some next ∧ next.Elements n (exchange a i j) := by
  obtain ⟨written, hwritten, helements'⟩ := helements.write hi (a j)
  obtain ⟨next, hnext, helements''⟩ := helements'.write hj (a i)
  rw [update_update_eq_exchange] at helements''
  exact ⟨next, by simp [swap, element_of_lt helements hi, element_of_lt helements hj, hwritten,
    hnext], helements''⟩

variable [Preorder α] {compare : α → α → ℤ}

theorem rightOrder_iff (hcompare : ∀ a b, compare a b ≤ 0 ↔ a ≤ b) (a b : α) :
    rightOrder compare a b = true ↔ a ≤ b := by
  rw [rightOrder, decide_eq_true_iff, hcompare]

/-- The elements of a queue, which are a heap. -/
def Holds (vector : VectorDynamic α) (held : Multiset α) : Prop :=
  ∃ n a, vector.Elements n a ∧ Ordered parent n a ∧ contents n a = held

theorem holds_new (a : ℕ → α) : Holds (VectorDynamic.new : VectorDynamic α) 0 :=
  ⟨0, a, VectorDynamic.elements_new a, fun _ _ hj => absurd hj (Nat.not_lt_zero _), rfl⟩

variable [Std.Total (α := α) (· ≤ ·)]

theorem compareObvious_le_zero_iff [DecidableLT α] (a b : α) : compareObvious a b ≤ 0 ↔ a ≤ b := by
  unfold compareObvious
  by_cases hless : a < b
  · simp [hless, hless.le]
  · rw [if_neg hless]
    by_cases hgreater : b < a
    · simp [hgreater, hgreater.not_ge]
    · simp [hgreater, le_of_not_less hgreater]

section Compare

variable (hcompare : ∀ a b, compare a b ≤ 0 ↔ a ≤ b)

include hcompare

/-- **`up_heap`** makes a heap of a vector that is one but for the element on its way up. -/
theorem upHeap_spec (helements : vector.Elements n a) (hi : i < n)
    (hrising : Rising parent n a i) :
    ∃ next b, upHeap compare vector i = some next ∧ next.Elements n b ∧ Ordered parent n b ∧
      contents n b = contents n a := by
  induction i using Nat.strong_induction_on generalizing vector a with
  | _ i ih =>
      rw [upHeap]
      by_cases hzero : i = 0
      · rw [if_pos hzero]
        exact ⟨vector, a, rfl, helements,
          hrising.ordered_of_le fun hpos => absurd hzero hpos.ne', rfl⟩
      · have hpos := Nat.pos_of_ne_zero hzero
        have hup := parent_lt i hpos
        rw [if_neg hzero, element_of_lt helements (hup.trans hi), Option.bind_some,
          element_of_lt helements hi, Option.bind_some]
        by_cases horder : a (parent i) ≤ a i
        · rw [if_pos ((rightOrder_iff hcompare _ _).2 horder)]
          exact ⟨vector, a, rfl, helements, hrising.ordered_of_le fun _ => horder, rfl⟩
        · have hle : a i ≤ a (parent i) :=
            (Std.Total.total (r := (· ≤ ·)) _ _).resolve_right horder
          obtain ⟨swapped, hswapped, helements'⟩ := swap_spec helements (hup.trans hi) hi
          rw [if_neg (mt (rightOrder_iff hcompare _ _).1 horder), hswapped, Option.bind_some]
          have hmoved := hrising.exchange parent_lt hpos hi hle
          rw [exchange_comm] at hmoved
          obtain ⟨next, b, hnext, helements'', hordered, hcontents⟩ :=
            ih (parent i) hup helements' (hup.trans hi) hmoved
          exact ⟨next, b, hnext, helements'', hordered,
            hcontents.trans (contents_exchange (hup.trans hi) hi)⟩

/-- **The conditional** yields the lesser of an element and a child of it. -/
theorem least_spec (helements : vector.Elements n a) {child : ℕ} (hlt : i < child) :
    ∃ min, least compare vector i child = some min ∧ (min = i ∨ min = child ∧ child < n) ∧
      a min ≤ a i ∧ (child < n → a min ≤ a child) := by
  rw [least, helements.size_eq]
  by_cases hchild : child < n
  · rw [if_pos hchild, element_of_lt helements (hlt.trans hchild), Option.bind_some,
      element_of_lt helements hchild, Option.bind_some]
    by_cases horder : a i ≤ a child
    · rw [if_pos ((rightOrder_iff hcompare _ _).2 horder)]
      exact ⟨i, rfl, .inl rfl, le_rfl, fun _ => horder⟩
    · rw [if_neg (mt (rightOrder_iff hcompare _ _).1 horder)]
      exact ⟨child, rfl, .inr ⟨rfl, hchild⟩,
        (Std.Total.total (r := (· ≤ ·)) _ _).resolve_left horder, fun _ => le_rfl⟩
  · rw [if_neg hchild]
    exact ⟨i, rfl, .inl rfl, le_rfl, fun h => absurd h hchild⟩

/-- **`heapify`** makes a heap of a vector that is one but for the element on its way down. -/
theorem heapify_spec {rounds : ℕ} (helements : vector.Elements n a) (hrounds : n < i + rounds)
    (hi : i < n ∨ i = 0) (hsinking : Sinking parent n a i) :
    ∃ next b, heapify compare rounds vector i = some next ∧ next.Elements n b ∧
      Ordered parent n b ∧ contents n b = contents n a := by
  induction rounds generalizing vector a i with
  | zero => omega
  | succ rounds ih =>
      have hleft : i < childLeft i := by
        unfold childLeft
        omega
      obtain ⟨m, hm, hmcases, hmi, hmleft⟩ := least_spec hcompare helements hleft
      have hright : m < childRight i := by
        unfold childLeft at hmcases
        unfold childRight
        omega
      obtain ⟨min, hmin, hmincases, hminm, hminright⟩ := least_spec hcompare helements hright
      -- the index chosen is that of a least of the three
      have hleast : ∀ j, 0 < j → j < n → parent j = i → a min ≤ a j := by
        intro j hpos hj hchild
        rcases eq_of_parent_eq hpos hchild with rfl | rfl
        · exact hminm.trans (hmleft hj)
        · exact hminright hj
      rw [heapify, hm, Option.bind_some, hmin, Option.bind_some]
      by_cases hstay : min = i
      · rw [if_neg (not_not.2 hstay)]
        rw [hstay] at hleast
        exact ⟨vector, a, rfl, helements, hsinking.ordered_of_le hleast, rfl⟩
      · have hchild : parent min = i ∧ min < n ∧ i < min := by
          rcases hmincases with rfl | ⟨rfl, hlt⟩
          · obtain ⟨rfl, hlt⟩ := hmcases.resolve_left hstay
            exact ⟨parent_childLeft i, hlt, hleft⟩
          · refine ⟨parent_childRight i, hlt, ?_⟩
            unfold childRight
            omega
        obtain ⟨hparent, hlt, hdown⟩ := hchild
        have hmoved := hsinking.exchange parent_lt (by omega) hlt hparent (hminm.trans hmi) hleast
        obtain ⟨swapped, hswapped, helements'⟩ := swap_spec helements hlt (hdown.trans hlt)
        rw [exchange_comm] at hmoved
        obtain ⟨next, b, hnext, helements'', hordered, hcontents⟩ :=
          ih helements' (by omega) (.inl hlt) hmoved
        rw [if_pos hstay, hswapped, Option.bind_some]
        exact ⟨next, b, hnext, helements'', hordered,
          hcontents.trans (contents_exchange hlt (hdown.trans hlt))⟩

end Compare

/-- **Every operation** keeps the elements and their order. -/
theorem serves (hcompare : ∀ a b, compare a b ≤ 0 ↔ a ≤ b) {grants : ℕ → Bool}
    (hgrants : ∀ request, 0 < request → request < VectorDynamic.uint16 → grants request = true) :
    Serves (perform compare grants) (2 ^ 15) (Holds (α := α)) where
  push := by
    rintro vector held x ⟨n, a, helements, hordered, rfl⟩ hroom
    rw [card_contents] at hroom
    obtain ⟨longer, hlonger, helements'⟩ := helements.pushBack hgrants hroom x
    obtain ⟨next, b, hnext, helements'', hordered', hcontents⟩ :=
      upHeap_spec hcompare helements' (Nat.lt_succ_self n) (hordered.rising parent_lt x)
    refine ⟨next, ?_, n + 1, b, helements'', hordered', ?_⟩
    · have hlast : longer.size - 1 = n := by rw [helements'.size_eq, Nat.add_sub_cancel]
      simp [perform, push, hlonger, hlast, hnext]
    · rw [hcontents, contents_update_last]
  pop := by
    rintro vector held ⟨n, a, helements, hordered, rfl⟩ hpos
    rw [card_contents] at hpos
    obtain ⟨m, rfl⟩ : ∃ m, n = m + 1 := ⟨n - 1, by omega⟩
    obtain ⟨written, hwritten, helements'⟩ := helements.write hpos (a m)
    obtain ⟨shorter, hshorter, helements''⟩ := helements'.popBack hgrants
    obtain ⟨next, b, hnext, hlast, hordered', hcontents⟩ :=
      heapify_spec hcompare helements'' (show m < 0 + (m + 1) by omega)
        ((Nat.eq_zero_or_pos m).symm.imp id fun _ => rfl)
        ((hordered.mono m.le_succ).sinking (a m))
    have hheld := contents_replace_first (n := m) (a := a)
    refine ⟨next, a 0, contents m (update a 0 (a m)), ?_, hheld, ?_, m, b, hlast, hordered',
      hcontents⟩
    · have hsize : vector.size = m + 1 := helements.size_eq
      have hsize' : shorter.size = m := helements''.size_eq
      simp [perform, pop, hsize, hsize', element_of_lt helements hpos,
        element_of_lt helements (Nat.lt_succ_self m), hwritten, hshorter, hnext]
    · intro x hx
      exact hordered.le_of_mem parent_lt (hheld ▸ Multiset.mem_cons_of_mem hx)

/-- **Both queues** return minima of what they hold, and popping until nothing is left yields
the elements in order; after the same operations they have returned equivalent elements. -/
theorem heaps_return_minima [DecidableLT α] (hcompare : ∀ a b, compare a b ≤ 0 ↔ a ≤ b)
    {grants : ℕ → Bool}
    (hgrants : ∀ request, 0 < request → request < VectorDynamic.uint16 → grants request = true)
    (queueSize : ℕ) (vec : ℕ → α) :
    Correct (PriorityQueue.perform queueSize) (PriorityQueue.new vec) queueSize ∧
      Correct (perform compare grants) VectorDynamic.new (2 ^ 15) ∧
      ∀ ops, Admissible queueSize 0 ops → Admissible (2 ^ 15) 0 ops →
        ∀ q returned vector returned',
          runOf (PriorityQueue.perform queueSize) (PriorityQueue.new vec) ops =
            some (q, returned) →
          runOf (perform compare grants) VectorDynamic.new ops = some (vector, returned') →
          List.Forall₂ (AntisymmRel (· ≤ ·)) returned returned' := by
  have hstatic := (@PriorityQueue.serves _ queueSize _ _ _).correct
    (PriorityQueue.holds_new vec)
  have hdynamic := (serves hcompare hgrants).correct (holds_new vec)
  refine ⟨hstatic, hdynamic, ?_⟩
  intro ops hops hops' q returned vector returned' hrun hrun'
  obtain ⟨_, _, _, hthere, hreturns, -⟩ := hstatic ops hops
  obtain ⟨_, _, _, hthere', hreturns', -⟩ := hdynamic ops hops'
  obtain ⟨-, rfl⟩ := Prod.mk.inj (Option.some.inj (hthere.symm.trans hrun))
  obtain ⟨-, rfl⟩ := Prod.mk.inj (Option.some.inj (hthere'.symm.trans hrun'))
  exact hreturns.equivalent hreturns' rfl

end Spec

/-- The two queues of numbers, with the comparison of the template. -/
theorem heaps_return_minima_nat :
    Correct (PriorityQueue.perform 3) (PriorityQueue.new fun _ => (0 : ℕ)) 3 ∧
      Correct (perform compareObvious fun _ => true) (VectorDynamic.new : VectorDynamic ℕ)
        (2 ^ 15) ∧
      ∀ ops, Admissible 3 0 ops → Admissible (2 ^ 15) 0 ops →
        ∀ q returned vector returned',
          runOf (PriorityQueue.perform 3) (PriorityQueue.new fun _ => (0 : ℕ)) ops =
            some (q, returned) →
          runOf (perform compareObvious fun _ => true) VectorDynamic.new ops =
            some (vector, returned') →
          List.Forall₂ (AntisymmRel (· ≤ ·)) returned returned' :=
  heaps_return_minima compareObvious_le_zero_iff (fun _ _ _ => rfl) 3 fun _ => 0

end PriorityQueueDynamic

end Wiselib.Pstl
