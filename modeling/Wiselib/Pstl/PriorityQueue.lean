import Wiselib.Library.Heap

/-!
# The priority queue in static memory

`priority_queue` of `util/pstl/priority_queue.h`.  The tree is odd at its root: the
parent of `vec_[i]` is `vec_[i / 2]`, so the first element has one child and the
second is where the binary tree begins.

## Strategy

Both loops move a hole to the place where an element is to be put.  The array with
the element in the hole is one that differs from a heap at one place only
(`siftUp_spec`, `siftDown_spec`), and a move of the hole exchanges two of its
elements.  The loop of `pop` goes on over the slot behind the last element, which
still holds the element to be put; it is never chosen.

`int` is taken wide enough for twice `QUEUE_SIZE`.
-/

namespace Wiselib.Pstl

open Heap Function

/-- `priority_queue`: its slots, of which the first `QUEUE_SIZE` exist, and its size. -/
structure PriorityQueue (α : Type*) where
  vec : ℕ → α
  size : ℕ

namespace PriorityQueue

variable {α : Type*} {queueSize : ℕ}

/-- The constructor, on an array that is not initialized. -/
def new (vec : ℕ → α) : PriorityQueue α := ⟨vec, 0⟩

/-- `vec_[i]`. -/
def read (queueSize : ℕ) (vec : ℕ → α) (i : ℕ) : Option α :=
  if i < queueSize then some (vec i) else none

/-- `vec_[i] = x`. -/
def write (queueSize : ℕ) (vec : ℕ → α) (i : ℕ) (x : α) : Option (ℕ → α) :=
  if i < queueSize then some (update vec i x) else none

section Code

variable [LT α] [DecidableLT α] (queueSize)

/-- The loop of `push`, and the assignment behind it. -/
def siftUp (x : α) (vec : ℕ → α) (i : ℕ) : Option (ℕ → α) :=
  if i = 0 then write queueSize vec i x
  else
    (read queueSize vec (i / 2)).bind fun above =>
      if x < above then
        (write queueSize vec i above).bind fun moved => siftUp x moved (i / 2)
      else write queueSize vec i x

/-- `push`. -/
def push (q : PriorityQueue α) (x : α) : Option (PriorityQueue α) := do
  let vec ← siftUp queueSize x q.vec q.size
  return ⟨vec, q.size + 1⟩

/-- The first child: `c` is `1` before the loop of `pop`, and `2 * i` from then on. -/
def firstChild (i : ℕ) : ℕ := if i = 0 then 1 else 2 * i

/-- The child that the loop of `pop` looks at. -/
def chosenChild (vec : ℕ → α) (n c : ℕ) : Option ℕ :=
  if c < n then
    (read queueSize vec (c + 1)).bind fun right =>
      (read queueSize vec c).bind fun left => some (if right < left then c + 1 else c)
  else some c

/-- The loop of `pop`, and the assignment behind it.  A round moves the hole down by one level,
and there are not more levels than elements. -/
def siftDown (n : ℕ) (x : α) : ℕ → (ℕ → α) → ℕ → Option (ℕ → α)
  | 0, _, _ => none
  | rounds + 1, vec, i =>
      if firstChild i ≤ n then
        (chosenChild queueSize vec n (firstChild i)).bind fun c =>
          (read queueSize vec c).bind fun below =>
            if below < x then
              (write queueSize vec i below).bind fun moved => siftDown n x rounds moved c
            else write queueSize vec i x
      else write queueSize vec i x

/-- `pop` of a queue that is not empty. -/
def pop (q : PriorityQueue α) : Option (PriorityQueue α × α) :=
  if q.size = 0 then none
  else do
    let n := q.size - 1
    let e ← read queueSize q.vec 0
    let x ← read queueSize q.vec n
    let vec ← siftDown queueSize n x (n + 1) q.vec 0
    return (⟨vec, n⟩, e)

/-- Performs an operation. -/
def perform (q : PriorityQueue α) : Op α → Option (PriorityQueue α × Option α)
  | .push x => (q.push queueSize x).map fun next => (next, none)
  | .pop => (q.pop queueSize).map fun (next, e) => (next, some e)

end Code

/-! ## The tree -/

/-- The parent of a slot. -/
def parent (i : ℕ) : ℕ := i / 2

theorem parent_lt (i : ℕ) (hpos : 0 < i) : parent i < i := Nat.div_lt_self hpos one_lt_two

theorem lt_firstChild (i : ℕ) : i < firstChild i := by
  unfold firstChild
  split <;> omega

theorem firstChild_pos (i : ℕ) : 0 < firstChild i := (Nat.zero_le i).trans_lt (lt_firstChild i)

theorem parent_firstChild (i : ℕ) : parent (firstChild i) = i := by
  unfold parent firstChild
  split <;> omega

theorem eq_of_parent_eq {i j : ℕ} (hpos : 0 < j) (hj : parent j = i) :
    j = firstChild i ∨ i ≠ 0 ∧ j = firstChild i + 1 := by
  unfold parent at hj
  unfold firstChild
  split <;> omega

/-! ## The loops -/

section Spec

theorem read_of_lt {i : ℕ} (vec : ℕ → α) (hi : i < queueSize) :
    read queueSize vec i = some (vec i) := if_pos hi

theorem write_of_lt {i : ℕ} (vec : ℕ → α) (hi : i < queueSize) (x : α) :
    write queueSize vec i x = some (update vec i x) := if_pos hi

variable [Preorder α]

/-- The elements of a queue, which are a heap. -/
structure Holds (queueSize : ℕ) (q : PriorityQueue α) (held : Multiset α) : Prop where
  size_le : q.size ≤ queueSize
  ordered : Ordered parent q.size q.vec
  contents_eq : contents q.size q.vec = held

theorem holds_new (vec : ℕ → α) : Holds queueSize (new vec) 0 where
  size_le := Nat.zero_le _
  ordered j _ hj := absurd hj (Nat.not_lt_zero j)
  contents_eq := rfl

variable [DecidableLT α] [Std.Total (α := α) (· ≤ ·)]

/-- **The loop of `push`**, from an array that is a heap but for the element on its way up. -/
theorem siftUp_spec {n : ℕ} (hn : n ≤ queueSize) (x : α) {vec : ℕ → α} {i : ℕ} (hi : i < n)
    (hrising : Rising parent n (update vec i x) i) :
    ∃ next, siftUp queueSize x vec i = some next ∧ Ordered parent n next ∧
      contents n next = contents n (update vec i x) := by
  induction i using Nat.strong_induction_on generalizing vec with
  | _ i ih =>
      have hwrite := write_of_lt vec (hi.trans_le hn) x
      rw [siftUp]
      by_cases hzero : i = 0
      · rw [if_pos hzero]
        exact ⟨_, hwrite, hrising.ordered_of_le fun hpos => absurd hzero hpos.ne', rfl⟩
      · have hpos := Nat.pos_of_ne_zero hzero
        have hup := parent_lt i hpos
        have habove : update vec i x (parent i) = vec (parent i) := update_of_ne hup.ne _ _
        rw [if_neg hzero]
        change ∃ next, ((read queueSize vec (parent i)).bind fun above =>
          if x < above then
            (write queueSize vec i above).bind fun moved => siftUp queueSize x moved (parent i)
          else write queueSize vec i x) = some next ∧ _
        rw [read_of_lt vec (hup.trans (hi.trans_le hn)), Option.bind_some]
        by_cases hless : x < vec (parent i)
        · have hmoved := hrising.exchange parent_lt hpos hi
            (by rw [update_self, habove]; exact hless.le)
          rw [if_pos hless, write_of_lt vec (hi.trans_le hn), Option.bind_some]
          rw [exchange_update _ _ hup.ne'] at hmoved
          obtain ⟨next, hnext, hordered, hcontents⟩ := ih (parent i) hup (hup.trans hi) hmoved
          refine ⟨next, hnext, hordered, hcontents.trans ?_⟩
          rw [← exchange_update _ _ hup.ne', contents_exchange hi (hup.trans hi)]
        · rw [if_neg hless]
          refine ⟨_, hwrite, hrising.ordered_of_le fun _ => ?_, rfl⟩
          rw [update_self, habove]
          exact le_of_not_less hless

/-- **The chosen child** is a least one.  At the root the slot beside the only child is looked
at too, which is a child of that one. -/
theorem chosenChild_spec {n i : ℕ} (hn : n < queueSize) (vec : ℕ → α)
    (hfirst : firstChild i ≤ n) (hroot : i = 0 → 2 ≤ n → vec 1 ≤ vec 2) :
    ∃ c, chosenChild queueSize vec n (firstChild i) = some c ∧ c ≤ n ∧ 0 < c ∧ parent c = i ∧
      ∀ j, 0 < j → j < n + 1 → parent j = i → vec c ≤ vec j := by
  have hpos := firstChild_pos i
  unfold chosenChild
  by_cases hlt : firstChild i < n
  · rw [if_pos hlt, read_of_lt vec (by omega), read_of_lt vec (by omega)]
    by_cases hless : vec (firstChild i + 1) < vec (firstChild i)
    · refine ⟨firstChild i + 1, by simp [hless], hlt, Nat.succ_pos _, ?_, ?_⟩
      · -- there is no second child of the root to be chosen
        have hne : i ≠ 0 := by
          rintro rfl
          exact (hroot rfl hlt).not_gt hless
        unfold parent firstChild
        rw [if_neg hne]
        omega
      · intro j hj _ hchild
        rcases eq_of_parent_eq hj hchild with rfl | ⟨-, rfl⟩
        · exact hless.le
        · exact le_rfl
    · refine ⟨firstChild i, by simp [hless], hfirst, hpos, parent_firstChild i, ?_⟩
      intro j hj _ hchild
      rcases eq_of_parent_eq hj hchild with rfl | ⟨-, rfl⟩
      · exact le_rfl
      · exact le_of_not_less hless
  · rw [if_neg hlt]
    refine ⟨firstChild i, rfl, hfirst, hpos, parent_firstChild i, ?_⟩
    intro j hj hjn hchild
    rcases eq_of_parent_eq hj hchild with rfl | ⟨-, rfl⟩
    · exact le_rfl
    · omega

/-- **The loop of `pop`**, from an array that is a heap but for the element on its way down.  A
copy of that element is in the slot `n`. -/
theorem siftDown_spec {n : ℕ} (hn : n < queueSize) {x : α} {rounds : ℕ} {vec : ℕ → α} {i : ℕ}
    (hrounds : n < i + rounds) (hi : i < n ∨ i = 0) (hcopy : i ≠ n → vec n = x)
    (hsinking : Sinking parent (n + 1) (update vec i x) i) :
    ∃ next, siftDown queueSize n x rounds vec i = some next ∧ Ordered parent n next ∧
      contents n next = contents n (update vec i x) := by
  induction rounds generalizing vec i with
  | zero => omega
  | succ rounds ih =>
      have hwrite := write_of_lt vec (show i < queueSize by omega) x
      have hstay : (∀ j, 0 < j → j < n + 1 → parent j = i → x ≤ vec j) →
          Ordered parent n (update vec i x) := by
        intro hleast
        refine (hsinking.ordered_of_le fun j hpos hj hchild => ?_).mono n.le_succ
        have hne : j ≠ i := fun heq => (parent_lt j hpos).ne (hchild.trans heq.symm)
        rw [update_self, update_of_ne hne]
        exact hleast j hpos hj hchild
      rw [siftDown]
      by_cases hfirst : firstChild i ≤ n
      · have hroot : i = 0 → 2 ≤ n → vec 1 ≤ vec 2 := by
          rintro rfl htwo
          exact hsinking.ordered 2 two_pos (by omega) (by decide)
        obtain ⟨c, hc, hcn, hpos, hchild, hleast⟩ := chosenChild_spec hn vec hfirst hroot
        have hdown : i < c := hchild ▸ parent_lt c hpos
        have hbelow : update vec i x c = vec c := update_of_ne hdown.ne' _ _
        rw [if_pos hfirst, hc, Option.bind_some, read_of_lt vec (by omega), Option.bind_some]
        by_cases hless : vec c < x
        · -- the slot with the copy is not chosen
          have hlt : c < n := by
            refine lt_of_le_of_ne hcn fun heq => ?_
            have hcopy' := hcopy (by omega)
            rw [heq, hcopy'] at hless
            exact lt_irrefl _ hless
          have hmoved := hsinking.exchange parent_lt hpos (by omega) hchild
            (by rw [update_self, hbelow]; exact hless.le)
            (by
              intro j hj hjn hj'
              have hne : j ≠ i := fun heq => (parent_lt j hj).ne (hj'.trans heq.symm)
              rw [hbelow, update_of_ne hne]
              exact hleast j hj hjn hj')
          rw [exchange_update _ _ hdown.ne] at hmoved
          rw [if_pos hless, write_of_lt vec (by omega), Option.bind_some]
          obtain ⟨next, hnext, hordered, hcontents⟩ := ih (by omega) (.inl hlt)
            (fun _ => by rw [update_of_ne (by omega)]; exact hcopy (by omega)) hmoved
          refine ⟨next, hnext, hordered, hcontents.trans ?_⟩
          rw [← exchange_update _ _ hdown.ne, contents_exchange (by omega) hlt]
        · rw [if_neg hless]
          refine ⟨_, hwrite, hstay fun j hj hjn hj' => ?_, rfl⟩
          exact (le_of_not_less hless).trans (hleast j hj hjn hj')
      · rw [if_neg hfirst]
        refine ⟨_, hwrite, hstay fun j hj hjn hj' => ?_, rfl⟩
        rcases eq_of_parent_eq hj hj' with rfl | ⟨-, rfl⟩ <;> omega

/-- **Every operation** keeps the elements and their order. -/
theorem serves : Serves (perform (α := α) queueSize) queueSize (Holds queueSize) where
  push := by
    intro q held x hq hroom
    rw [← hq.contents_eq, card_contents] at hroom
    obtain ⟨next, hnext, hordered, hcontents⟩ :=
      siftUp_spec (show q.size + 1 ≤ queueSize by omega) x (Nat.lt_succ_self q.size)
        (hq.ordered.rising parent_lt x)
    refine ⟨⟨next, q.size + 1⟩, by simp [perform, push, hnext], hroom, hordered, ?_⟩
    rw [hcontents, contents_update_last, hq.contents_eq]
  pop := by
    intro q held hq hpos
    obtain ⟨hsize, hordered, rfl⟩ := hq
    rw [card_contents] at hpos
    obtain ⟨n, hn⟩ : ∃ n, q.size = n + 1 := ⟨q.size - 1, by omega⟩
    rw [hn] at hordered hsize ⊢
    obtain ⟨next, hnext, hordered', hcontents⟩ :=
      siftDown_spec (show n < queueSize by omega) (show n < 0 + (n + 1) by omega) (.inr rfl)
        (fun _ => rfl) (hordered.sinking (q.vec n))
    have hheld := contents_replace_first (n := n) (a := q.vec)
    refine ⟨⟨next, n⟩, q.vec 0, contents n (update q.vec 0 (q.vec n)), ?_, hheld, ?_,
      show n ≤ queueSize by omega, hordered', hcontents⟩
    · simp [perform, pop, hn, read_of_lt q.vec (show 0 < queueSize by omega),
        read_of_lt q.vec (show n < queueSize by omega), hnext]
    · intro x hx
      exact hordered.le_of_mem parent_lt (hheld ▸ Multiset.mem_cons_of_mem hx)

end Spec

end PriorityQueue

end Wiselib.Pstl
