import Wiselib.Library.WeakOrder

/-!
# Heap sort

`__sift_down`, `make_heap`, `sort_heap` and `heap_sort` of `util/pstl/algorithm.h`, on a
random-access range that is the list of its values.  The functions take `base`, one place in
front of the range, so that the places count from one; a place that is not in the range has no
value, and a function that reads or writes one has no result.  The comparison is `operator<`
or the argument `comp`, the functions being the same for both.

## Strategy

`__sift_down` is about the first `end` places (`siftDown_append`).  There it moves a value
down that may be less than its children's (`siftDown_spec`), and every exchange is a permutation
of the places (`swap_perm`, `read_swap`).  `make_heap` lowers the first place of
which the heap is one; `sort_heap` goes over a heap in front of a sorted list none of
whose values is less than one of the heap's.
-/

namespace Wiselib.HeapSort

open WeakOrder

variable {α : Type*} {a b rest : List α} {i j k start last low : ℕ}

/-! ## The code -/

/-- `base[i]`. -/
def read (a : List α) (i : ℕ) : Option α :=
  if i = 0 then none else a[i - 1]?

/-- `swap(base[i], base[j])`. -/
def swap (a : List α) (i j : ℕ) : Option (List α) := do
  let x ← read a i
  let y ← read a j
  return (a.set (i - 1) y).set (j - 1) x

section Code

variable (lt : α → α → Prop) [DecidableRel lt]

/-- The child that `__sift_down` chooses: `child` or the one next to it. -/
def chosenChild (a : List α) (child last : ℕ) : Option ℕ :=
  if child < last then
    (read a child).bind fun left =>
      (read a (child ||| 1)).bind fun right =>
        some (if lt left right then child ||| 1 else child)
  else some child

/-- `__sift_down`.  A round moves the value down by one level. -/
def siftDown : ℕ → List α → ℕ → ℕ → Option (List α)
  | 0, _, _, _ => none
  | rounds + 1, a, start, last =>
      if start ≤ last >>> 1 then
        (chosenChild lt a (start <<< 1) last).bind fun child =>
          (read a start).bind fun x =>
            (read a child).bind fun y =>
              if ¬ lt x y then some a
              else (swap a start child).bind fun swapped => siftDown rounds swapped child last
      else some a

/-- `__pop_heap`. -/
def popHeap (rounds : ℕ) (a : List α) (n : ℕ) : Option (List α) := do
  let swapped ← swap a n 1
  siftDown lt rounds swapped 1 (n - 1)

/-- The loop of `make_heap`. -/
def makeHeapLoop (rounds n : ℕ) : ℕ → List α → Option (List α)
  | 0, a => some a
  | start + 1, a => do
      let sifted ← siftDown lt rounds a (start + 1) n
      makeHeapLoop rounds n start sifted

/-- `make_heap`. -/
def makeHeap (rounds : ℕ) (a : List α) : Option (List α) :=
  makeHeapLoop lt rounds a.length (a.length >>> 1) a

/-- The loop of `sort_heap`. -/
def sortHeapLoop (rounds : ℕ) : ℕ → List α → Option (List α)
  | 0, a => some a
  | n + 1, a =>
      if n + 1 > 1 then do
        let popped ← popHeap lt rounds a (n + 1)
        sortHeapLoop rounds n popped
      else some a

/-- `sort_heap`. -/
def sortHeap (rounds : ℕ) (a : List α) : Option (List α) :=
  sortHeapLoop lt rounds a.length a

/-- `heap_sort`. -/
def heapSort (rounds : ℕ) (a : List α) : Option (List α) := do
  let heap ← makeHeap lt rounds a
  sortHeap lt rounds heap

end Code

/-! ## Reading and exchanging -/

@[simp] theorem read_zero (a : List α) : read a 0 = none := rfl

@[simp] theorem read_succ (a : List α) (i : ℕ) : read a (i + 1) = a[i]? := rfl

theorem read_eq_some (hpos : 1 ≤ i) (hi : i ≤ a.length) :
    ∃ x ∈ a, read a i = some x := by
  obtain ⟨i, rfl⟩ := Nat.exists_eq_add_of_le' hpos
  exact ⟨a[i], List.getElem_mem _, List.getElem?_eq_getElem (by omega)⟩

theorem exists_read_of_mem {x : α} (hx : x ∈ a) :
    ∃ i, 1 ≤ i ∧ i ≤ a.length ∧ read a i = some x := by
  obtain ⟨i, hi, rfl⟩ := List.mem_iff_getElem.1 hx
  exact ⟨i + 1, by omega, by omega, List.getElem?_eq_getElem hi⟩

theorem read_append (hi : i ≤ a.length) : read (a ++ rest) i = read a i := by
  cases i with
  | zero => rfl
  | succ i => rw [read_succ, read_succ, List.getElem?_append_left (by omega)]

theorem swap_eq {x y : α} (hx : read a i = some x) (hy : read a j = some y) :
    swap a i j = some ((a.set (i - 1) y).set (j - 1) x) := by
  rw [swap, hx, hy]
  rfl

theorem swap_length (hswap : swap a i j = some b) : b.length = a.length := by
  obtain ⟨x, -, hswap⟩ := Option.bind_eq_some_iff.1 hswap
  obtain ⟨y, -, hswap⟩ := Option.bind_eq_some_iff.1 hswap
  rw [← Option.some.inj hswap, List.length_set, List.length_set]

theorem swap_append (hi : i ≤ a.length) (hj : j ≤ a.length) :
    swap (a ++ rest) i j = (swap a i j).map (· ++ rest) := by
  cases i with
  | zero => rfl
  | succ i => cases j with
    | zero =>
        rw [swap, swap]
        cases read a (i + 1) <;> cases read (a ++ rest) (i + 1) <;> rfl
    | succ j =>
        obtain ⟨x, -, hx⟩ := read_eq_some (by omega) hi
        obtain ⟨y, -, hy⟩ := read_eq_some (by omega) hj
        rw [swap_eq hx hy, swap_eq ((read_append hi).trans hx) ((read_append hj).trans hy),
          List.set_append_left _ _ (by omega), List.set_append_left _ _ (by simpa using hj)]
        rfl

/-- **An exchange** is one of the places. -/
theorem read_swap (hne : i ≠ j) (hswap : swap a i j = some b) :
    read b = read a ∘ Equiv.swap i j := by
  obtain ⟨x, hx, hswap⟩ := Option.bind_eq_some_iff.1 hswap
  obtain ⟨y, hy, hswap⟩ := Option.bind_eq_some_iff.1 hswap
  obtain rfl := Option.some.inj hswap
  have hi : i ≠ 0 := fun hi => by simp [hi] at hx
  have hj : j ≠ 0 := fun hj => by simp [hj] at hy
  rw [read, if_neg hi] at hx
  rw [read, if_neg hj] at hy
  have hi' := (List.getElem?_eq_some_iff.1 hx).1
  have hj' := (List.getElem?_eq_some_iff.1 hy).1
  funext k
  rcases eq_or_ne k i with rfl | hki
  · rw [Function.comp_apply, Equiv.swap_apply_left, read, read, if_neg hi, if_neg hj, hy,
      List.getElem?_set_ne (by omega), List.getElem?_set_self hi']
  · rcases eq_or_ne k j with rfl | hkj
    · rw [Function.comp_apply, Equiv.swap_apply_right, read, read, if_neg hi, if_neg hj, hx,
        List.getElem?_set_self (by simpa using hj')]
    · rw [Function.comp_apply, Equiv.swap_apply_of_ne_of_ne hki hkj, read, read]
      split
      · rfl
      · rw [List.getElem?_set_ne (by omega), List.getElem?_set_ne (by omega)]

theorem swap_perm (hswap : swap a i j = some b) : b.Perm a := by
  obtain ⟨x, hx, hswap⟩ := Option.bind_eq_some_iff.1 hswap
  obtain ⟨y, hy, hswap⟩ := Option.bind_eq_some_iff.1 hswap
  obtain rfl := Option.some.inj hswap
  have hi : i ≠ 0 := fun hi => by simp [hi] at hx
  have hj : j ≠ 0 := fun hj => by simp [hj] at hy
  rw [read, if_neg hi] at hx
  rw [read, if_neg hj] at hy
  obtain ⟨hi', rfl⟩ := List.getElem?_eq_some_iff.1 hx
  obtain ⟨hj', rfl⟩ := List.getElem?_eq_some_iff.1 hy
  have hperm : (a.toArray.swap (i - 1) (j - 1) hi' hj').Perm a.toArray :=
    Array.swap_perm hi' hj'
  simpa using hperm.toList

/-! ## Sifting down -/

variable {lt : α → α → Prop} [DecidableRel lt] {rounds child : ℕ}

theorem leftChild (start : ℕ) : start <<< 1 = 2 * start := by
  rw [Nat.shiftLeft_eq, pow_one, mul_comm]

theorem rightChild (start : ℕ) : 2 * start ||| 1 = 2 * start + 1 :=
  (Nat.two_pow_add_eq_or_of_lt (i := 1) (b := 1) (by omega) start).symm

theorem half (last : ℕ) : last >>> 1 = last / 2 := by
  rw [Nat.shiftRight_eq_div_pow, pow_one]

variable (lt) in
/-- **The child that is chosen** is not less than the other. -/
theorem chosenChild_spec [IsStrictWeakOrder α lt] (hpos : 0 < start) (hle : start ≤ a.length / 2) :
    ∃ child, chosenChild lt a (start <<< 1) a.length = some child ∧ child ≤ a.length ∧
      child / 2 = start ∧ ∀ j ≤ a.length, j / 2 = start → NotLess lt (read a) child j := by
  rw [leftChild, chosenChild]
  obtain ⟨x, -, hx⟩ := read_eq_some (a := a) (i := 2 * start) (by omega) (by omega)
  split
  · rename_i hlt
    obtain ⟨y, -, hy⟩ := read_eq_some (a := a) (i := 2 * start + 1) (by omega) (by omega)
    rw [rightChild, hx, hy, Option.bind_some, Option.bind_some]
    by_cases hxy : lt x y
    · refine ⟨_, rfl, ?_⟩
      rw [if_pos hxy]
      refine ⟨by omega, by omega, fun j hj hchild => ?_⟩
      obtain rfl | rfl : j = 2 * start ∨ j = 2 * start + 1 := by omega
      · rw [NotLess, hx, hy]
        rintro _ ⟨⟩ _ ⟨⟩
        exact not_lt_of_lt hxy
      · rw [NotLess, hy]
        rintro _ ⟨⟩ _ ⟨⟩
        exact irrefl_of lt y
    · refine ⟨_, rfl, ?_⟩
      rw [if_neg hxy]
      refine ⟨by omega, by omega, fun j hj hchild => ?_⟩
      obtain rfl | rfl : j = 2 * start ∨ j = 2 * start + 1 := by omega
      · rw [NotLess, hx]
        rintro _ ⟨⟩ _ ⟨⟩
        exact irrefl_of lt x
      · rw [NotLess, hx, hy]
        rintro _ ⟨⟩ _ ⟨⟩
        exact hxy
  · -- an only child
    refine ⟨_, rfl, by omega, by omega, fun j hj hchild => ?_⟩
    obtain rfl : j = 2 * start := by omega
    rw [NotLess, hx]
    rintro _ ⟨⟩ _ ⟨⟩
    exact irrefl_of lt x

theorem chosenChild_append (hle : start <<< 1 ≤ a.length) :
    chosenChild lt (a ++ rest) (start <<< 1) a.length =
      chosenChild lt a (start <<< 1) a.length := by
  rw [chosenChild, chosenChild]
  split
  · rename_i hlt
    rw [read_append hle, read_append]
    rw [leftChild, rightChild]
    rw [leftChild] at hlt
    omega
  · rfl

theorem chosenChild_le (hle : start <<< 1 ≤ a.length)
    (hchosen : chosenChild lt a (start <<< 1) a.length = some child) : child ≤ a.length := by
  rw [chosenChild] at hchosen
  split at hchosen
  · rename_i hlt
    obtain ⟨x, -, hchosen⟩ := Option.bind_eq_some_iff.1 hchosen
    obtain ⟨y, -, hchosen⟩ := Option.bind_eq_some_iff.1 hchosen
    rw [← Option.some.inj hchosen]
    split
    · rw [leftChild] at hlt ⊢
      rw [rightChild]
      omega
    · exact hle
  · exact Option.some.inj hchosen ▸ hle

variable (lt) in
/-- **What is behind the last place** stays. -/
theorem siftDown_append (rounds : ℕ) (a rest : List α) (start : ℕ) :
    siftDown lt rounds (a ++ rest) start a.length =
      (siftDown lt rounds a start a.length).map (· ++ rest) := by
  induction rounds generalizing a start with
  | zero => rfl
  | succ rounds ih =>
      rw [siftDown, siftDown]
      split
      · rename_i hle
        rw [half] at hle
        have hfirst : start <<< 1 ≤ a.length := by rw [leftChild]; omega
        rw [chosenChild_append hfirst, Option.map_bind]
        refine Option.bind_congr fun child hchosen => ?_
        have hchild := chosenChild_le hfirst hchosen
        rw [read_append (by omega), read_append hchild, Function.comp_apply, Option.map_bind]
        refine Option.bind_congr fun x _ => ?_
        rw [Function.comp_apply, Option.map_bind]
        refine Option.bind_congr fun y _ => ?_
        rw [Function.comp_apply]
        split
        · rfl
        · rw [swap_append (by omega) hchild, Option.map_bind, Option.bind_map]
          refine Option.bind_congr fun swapped hswap => ?_
          have := ih swapped child
          rwa [swap_length hswap] at this
      · rfl

/-- **A value that may be less than its children's** finds its place. -/
theorem siftDown_spec [IsStrictWeakOrder α lt] (hlow : 0 < low) (hstart : low ≤ start)
    (hlast : start ≤ a.length) (hsinking : SinkingFrom lt low a.length (read a) start) :
    ∃ b, (∀ rounds, a.length < start + rounds → siftDown lt rounds a start a.length = some b) ∧
      b.Perm a ∧ HeapFrom lt low a.length (read b) := by
  induction hheight : a.length - start using Nat.strong_induction_on generalizing a start with
  | _ height ih =>
      subst hheight
      by_cases hle : start ≤ a.length / 2
      · obtain ⟨child, hchosen, hchild, hparent, hgreatest⟩ :=
          chosenChild_spec lt (hlow.trans_le hstart) hle
        obtain ⟨x, -, hx⟩ := read_eq_some (a := a) (hlow.trans_le hstart) hlast
        obtain ⟨y, -, hy⟩ := read_eq_some (a := a) (i := child) (by omega) hchild
        have hround : ∀ rounds, siftDown lt (rounds + 1) a start a.length =
            if ¬ lt x y then some a
            else (swap a start child).bind fun swapped =>
              siftDown lt rounds swapped child a.length := by
          intro rounds
          rw [siftDown, half, if_pos hle, hchosen, Option.bind_some, hx, hy]
          rfl
        by_cases hlt : lt x y
        · have hswap := swap_eq hx hy
          have hlength := swap_length hswap
          have hsunk := hsinking.exchange (hlow.trans_le hstart) hstart hchild hparent hx hy hlt
            hgreatest
          rw [← read_swap (by omega) hswap, ← hlength] at hsunk
          obtain ⟨b, hrun, hperm, hheap⟩ := ih _ (by omega) (by omega) (by omega) hsunk rfl
          rw [hlength] at hrun hheap
          refine ⟨b, fun rounds hrounds => ?_, hperm.trans (swap_perm hswap), hheap⟩
          obtain ⟨rounds, rfl⟩ := Nat.exists_eq_add_of_le' (show 1 ≤ rounds by omega)
          rw [hround, if_neg (not_not.2 hlt), hswap]
          exact hrun rounds (by omega)
        · refine ⟨a, fun rounds hrounds => ?_, List.Perm.refl a, hsinking.heapFrom ?_⟩
          · obtain ⟨rounds, rfl⟩ := Nat.exists_eq_add_of_le' (show 1 ≤ rounds by omega)
            rw [hround, if_pos hlt]
          · intro j hj hj'
            have hother := hgreatest j hj hj'
            intro x' hx' z hz
            obtain rfl : x = x' := Option.some.inj (hx.symm.trans hx')
            exact not_lt_trans hlt (hother y hy z hz)
      · -- the value has no children
        refine ⟨a, fun rounds hrounds => ?_, List.Perm.refl a, hsinking.heapFrom ?_⟩
        · obtain ⟨rounds, rfl⟩ := Nat.exists_eq_add_of_le' (show 1 ≤ rounds by omega)
          rw [siftDown, half, if_neg hle]
        · intro j hj hj'
          omega

/-! ## Building a heap -/

/-- **The loop of `make_heap`** lowers the first place of which the heap is one. -/
theorem makeHeapLoop_spec [IsStrictWeakOrder α lt] (hstart : start ≤ a.length)
    (hheap : HeapFrom lt (start + 1) a.length (read a)) :
    ∃ b, (∀ rounds, a.length < rounds → makeHeapLoop lt rounds a.length start a = some b) ∧
      b.Perm a ∧ HeapFrom lt 1 b.length (read b) := by
  induction start generalizing a with
  | zero => exact ⟨a, fun _ _ => rfl, List.Perm.refl a, hheap⟩
  | succ start ih =>
      obtain ⟨b, hsift, hperm, hheap⟩ :=
        siftDown_spec start.succ_pos le_rfl hstart (hheap.sinking start.succ_pos)
      have hlength := hperm.length_eq
      rw [← hlength] at hheap hstart
      obtain ⟨c, hloop, hperm', hheap'⟩ := ih (by omega) hheap
      refine ⟨c, fun rounds hrounds => ?_, hperm'.trans hperm, hheap'⟩
      rw [makeHeapLoop, hsift rounds (by omega)]
      rw [hlength] at hloop
      exact hloop rounds hrounds

variable (lt) in
theorem makeHeap_spec [IsStrictWeakOrder α lt] (a : List α) :
    ∃ b, (∀ rounds, a.length < rounds → makeHeap lt rounds a = some b) ∧
      b.Perm a ∧ HeapFrom lt 1 b.length (read b) := by
  have hhalf := half a.length
  exact makeHeapLoop_spec (by omega) (heapFrom_half (by omega))

/-! ## Sorting a heap -/

theorem swap_last (first z : α) (middle rest : List α) :
    swap (first :: (middle ++ z :: rest)) (middle.length + 2) 1 =
      some ((z :: middle) ++ first :: rest) := by
  have hz : read (first :: (middle ++ z :: rest)) (middle.length + 2) = some z := by
    simp [read]
  rw [swap_eq hz rfl]
  simp

/-- **The greatest value** goes behind the heap. -/
theorem popHeap_spec [IsStrictWeakOrder α lt] {n : ℕ} (hlength : a.length = n + 2)
    (hheap : HeapFrom lt 1 (n + 2) (read a)) (rest : List α) :
    ∃ b first, (∀ rounds, n + 1 < rounds →
        popHeap lt rounds (a ++ rest) (n + 2) = some (b ++ first :: rest)) ∧
      (first :: b).Perm a ∧ HeapFrom lt 1 (n + 1) (read b) ∧ ∀ x ∈ a, ¬ lt first x := by
  obtain _ | ⟨first, tail⟩ := a
  · contradiction
  have hne : tail ≠ [] := fun hnil => by simp [hnil] at hlength
  obtain ⟨middle, z, rfl⟩ : ∃ middle z, tail = middle ++ [z] :=
    ⟨_, _, (List.dropLast_append_getLast hne).symm⟩
  have hmiddle : middle.length = n := by simpa using hlength
  have hsinking : SinkingFrom lt 1 (z :: middle).length (read (z :: middle)) 1 := by
    refine ⟨fun j hj hle hne => ?_, by omega⟩
    have hsame : ∀ i, 2 ≤ i → i ≤ n + 1 →
        read (z :: middle) i = read (first :: (middle ++ [z])) i := by
      intro i hi hi'
      obtain ⟨i, rfl⟩ := Nat.exists_eq_add_of_le' hi
      simp [read, List.getElem?_append_left (show i < middle.length by omega)]
    rw [List.length_cons, hmiddle] at hj
    rw [NotLess, hsame _ (by omega) (by omega), hsame j (by omega) hj]
    exact hheap j (by omega) hle
  obtain ⟨b, hsift, hperm, hb⟩ := siftDown_spec one_pos le_rfl (by simp) hsinking
  rw [List.length_cons, hmiddle] at hb
  refine ⟨b, first, fun rounds hrounds => ?_, ?_, hb, fun x hx => ?_⟩
  · have happend := siftDown_append lt rounds (z :: middle) (first :: rest) 1
    rw [hsift rounds (by simp; omega), List.length_cons, hmiddle] at happend
    have hswap := swap_last first z middle rest
    rw [hmiddle] at hswap
    rw [popHeap, List.cons_append, List.append_assoc, List.singleton_append, hswap]
    exact happend
  · exact (hperm.trans (List.perm_append_singleton z middle).symm).cons first
  · obtain ⟨j, hpos, hj, hx⟩ := exists_read_of_mem hx
    rw [hlength] at hj
    refine hheap.root (fun j hpos hj => ?_) hpos hj first rfl x hx
    obtain ⟨x, -, hx⟩ := read_eq_some hpos (hj.trans_eq hlength.symm)
    exact Option.isSome_of_mem hx

/-- **The loop of `sort_heap`** on a heap in front of greater values that are sorted. -/
theorem sortHeapLoop_spec [IsStrictWeakOrder α lt] {n : ℕ} (hlength : a.length = n)
    (hheap : HeapFrom lt 1 n (read a)) (hsorted : Sorted lt rest)
    (hgreater : ∀ x ∈ a, ∀ y ∈ rest, ¬ lt y x) :
    ∃ b, (∀ rounds, n < rounds → sortHeapLoop lt rounds n (a ++ rest) = some b) ∧
      b.Perm (a ++ rest) ∧ Sorted lt b := by
  induction n generalizing a rest with
  | zero =>
      obtain rfl := List.length_eq_zero_iff.1 hlength
      exact ⟨rest, fun _ _ => rfl, List.Perm.refl rest, hsorted⟩
  | succ n ih =>
      cases n with
      | zero =>
          obtain ⟨x, rfl⟩ := List.length_eq_one_iff.1 hlength
          refine ⟨[x] ++ rest, fun _ _ => rfl, List.Perm.refl _, ?_⟩
          exact List.pairwise_cons.2 ⟨hgreater x (List.mem_singleton.2 rfl), hsorted⟩
      | succ n =>
          obtain ⟨b, first, hpop, hperm, hb, hfirst⟩ := popHeap_spec hlength hheap rest
          have hmem : ∀ x, x ∈ first :: b ↔ x ∈ a := fun x => hperm.mem_iff
          have hsorted' : Sorted lt (first :: rest) :=
            List.pairwise_cons.2 ⟨hgreater first ((hmem first).1 List.mem_cons_self), hsorted⟩
          have hgreater' : ∀ x ∈ b, ∀ y ∈ first :: rest, ¬ lt y x := by
            intro x hx y hy
            have hxa := (hmem x).1 (List.mem_cons_of_mem first hx)
            rcases List.mem_cons.1 hy with rfl | hy
            · exact hfirst x hxa
            · exact hgreater x hxa y hy
          have hlength' : b.length = n + 1 := by
            have := hperm.length_eq
            rw [List.length_cons] at this
            omega
          obtain ⟨c, hloop, hperm', hc⟩ := ih hlength' hb hsorted' hgreater'
          refine ⟨c, fun rounds hrounds => ?_, hperm'.trans ?_, hc⟩
          · rw [sortHeapLoop, if_pos (by omega), hpop rounds (by omega)]
            exact hloop rounds (by omega)
          · exact List.perm_middle.trans (hperm.append_right rest)

/-- **Heap sort** ends, reads and writes places of the range only, and leaves its values sorted. -/
theorem heapSort_sorts [IsStrictWeakOrder α lt] (a : List α) :
    ∃ sorted, (∀ rounds, a.length < rounds → heapSort lt rounds a = some sorted) ∧
      sorted.Perm a ∧ Sorted lt sorted := by
  obtain ⟨heap, hmake, hperm, hheap⟩ := makeHeap_spec lt a
  obtain ⟨sorted, hsort, hperm', hsorted⟩ :=
    sortHeapLoop_spec rfl hheap (List.Pairwise.nil : Sorted lt []) fun _ _ _ hy =>
      absurd hy List.not_mem_nil
  rw [List.append_nil] at hsort hperm'
  refine ⟨sorted, fun rounds hrounds => ?_, hperm'.trans hperm, hsorted⟩
  rw [heapSort, hmake rounds hrounds]
  exact hsort rounds (hperm.length_eq ▸ hrounds)

theorem heapSort_sorts_numbers :
    ∃ sorted, (∀ rounds, 3 < rounds → heapSort (· < ·) rounds [2, 3, 1] = some sorted) ∧
      sorted.Perm [2, 3, 1] ∧ Sorted (· < ·) sorted :=
  have := isStrictWeakOrder_of_isOrderConnected (r := (· < · : ℕ → ℕ → Prop))
  heapSort_sorts [2, 3, 1]

end Wiselib.HeapSort
