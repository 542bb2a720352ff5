import Mathlib

/-!
# Sorted lists and heaps for a strict weak order

A strict weak order is what a comparison function of a sorting algorithm has to be:
values of which neither is less than the other need not be equal, but form classes.

A heap is an array `a : ℕ → Option α` whose places count from one, with the children of
`i` at `2 * i` and `2 * i + 1`, so that `j / 2` is the parent of `j`.  `HeapFrom low
last` says that no value up to `last` is greater than its parent's, as far as the parent is
at `low` or behind it; lowering `low` by one builds a heap from the end.
`SinkingFrom` leaves out one place and its children: an exchange with a greatest child
moves that place on.

Lists are compared as multisets of classes: `occurrences lt z list` counts the values
that are equivalent to `z`.
-/

namespace WeakOrder

variable {α : Type*} {lt : α → α → Prop}

section Order

variable [IsStrictWeakOrder α lt] {x y z : α}

theorem not_lt_of_lt (hlt : lt x y) : ¬ lt y x :=
  fun hgt => irrefl_of lt x (trans_of lt hlt hgt)

theorem not_lt_trans (hxy : ¬ lt x y) (hyz : ¬ lt y z) : ¬ lt x z := by
  intro hxz
  have hyx : ¬ lt y x := fun hyx => hyz (trans_of lt hyx hxz)
  have hzy : ¬ lt z y := fun hzy => hxy (trans_of lt hxz hzy)
  have hincomp := @IsStrictWeakOrder.incomp_trans α lt _ x y z ⟨hxy, hyx⟩ ⟨hyz, hzy⟩
  exact hincomp.1 hxz

theorem lt_of_lt_of_not_lt (hxy : lt x y) (hzy : ¬ lt z y) : lt x z :=
  not_not.1 fun hxz => not_lt_trans hxz hzy hxy

theorem lt_of_not_lt_of_lt (hyx : ¬ lt y x) (hyz : lt y z) : lt x z :=
  not_not.1 fun hxz => not_lt_trans hyx hxz hyz

end Order

/-- Neither value is less than the other. -/
def Equivalent (lt : α → α → Prop) (x y : α) : Prop :=
  ¬ lt x y ∧ ¬ lt y x

instance [DecidableRel lt] : DecidableRel (Equivalent lt) :=
  fun x y => inferInstanceAs (Decidable (¬ lt x y ∧ ¬ lt y x))

theorem Equivalent.symm {x y : α} (hequivalent : Equivalent lt x y) : Equivalent lt y x :=
  And.symm hequivalent

theorem Equivalent.refl [IsStrictWeakOrder α lt] (x : α) : Equivalent lt x x :=
  ⟨irrefl_of lt x, irrefl_of lt x⟩

theorem Equivalent.trans [IsStrictWeakOrder α lt] {x y z : α} (hxy : Equivalent lt x y)
    (hyz : Equivalent lt y z) : Equivalent lt x z :=
  ⟨not_lt_trans hxy.1 hyz.1, not_lt_trans hyz.2 hxy.2⟩

/-! ## Sorted lists -/

/-- No value is less than one in front of it. -/
def Sorted (lt : α → α → Prop) (list : List α) : Prop :=
  list.Pairwise fun x y => ¬ lt y x

section Lists

variable {x y z : α} {list list' : List α}

theorem Sorted.tail (hsorted : Sorted lt (x :: list)) : Sorted lt list :=
  List.Pairwise.of_cons hsorted

theorem Sorted.head (hsorted : Sorted lt (x :: list)) : ∀ y ∈ list, ¬ lt y x :=
  fun _ hy => List.rel_of_pairwise_cons hsorted hy

theorem Sorted.cons (hleast : ∀ y ∈ list, ¬ lt y x) (hsorted : Sorted lt list) :
    Sorted lt (x :: list) :=
  List.pairwise_cons.2 ⟨hleast, hsorted⟩

theorem Sorted.lt_all [IsStrictWeakOrder α lt] (hsorted : Sorted lt (y :: list))
    (hlt : lt x y) : ∀ z ∈ y :: list, lt x z := by
  intro z hz
  rcases List.mem_cons.1 hz with rfl | hz
  · exact hlt
  · exact lt_of_lt_of_not_lt hlt (hsorted.head z hz)

theorem Sorted.not_lt_all [IsStrictWeakOrder α lt] (hsorted : Sorted lt (y :: list))
    (hle : ¬ lt y x) : ∀ z ∈ y :: list, ¬ lt z x := by
  intro z hz
  rcases List.mem_cons.1 hz with rfl | hz
  · exact hle
  · exact not_lt_trans (hsorted.head z hz) hle

/-! ## Occurrences -/

variable [DecidableRel lt]

/-- The number of values in a list that are equivalent to one. -/
def occurrences (lt : α → α → Prop) [DecidableRel lt] (z : α) (list : List α) : ℕ :=
  list.countP fun x => Equivalent lt z x

theorem occurrences_cons (z x : α) (list : List α) :
    occurrences lt z (x :: list) =
      occurrences lt z list + if Equivalent lt z x then 1 else 0 := by
  simp [occurrences, List.countP_cons]

theorem occurrences_cons_of_equivalent (hzx : Equivalent lt z x) (list : List α) :
    occurrences lt z (x :: list) = occurrences lt z list + 1 := by
  rw [occurrences_cons, if_pos hzx]

theorem occurrences_cons_of_not (hzx : ¬ Equivalent lt z x) (list : List α) :
    occurrences lt z (x :: list) = occurrences lt z list := by
  rw [occurrences_cons, if_neg hzx, add_zero]

theorem occurrences_le_cons (z x : α) (list : List α) :
    occurrences lt z list ≤ occurrences lt z (x :: list) := by
  rw [occurrences_cons]
  exact Nat.le_add_right _ _

theorem occurrences_pos : 0 < occurrences lt z list ↔ ∃ x ∈ list, Equivalent lt z x := by
  simp [occurrences, List.countP_pos_iff]

theorem occurrences_eq_zero (hnone : ∀ x ∈ list, ¬ Equivalent lt z x) :
    occurrences lt z list = 0 := by
  refine Nat.eq_zero_of_not_pos fun hpos => ?_
  obtain ⟨x, hx, hzx⟩ := occurrences_pos.1 hpos
  exact hnone x hx hzx

theorem occurrences_eq_zero_of_lt (hless : ∀ x ∈ list, lt z x) : occurrences lt z list = 0 :=
  occurrences_eq_zero fun x hx hzx => hzx.1 (hless x hx)

theorem occurrences_self [IsStrictWeakOrder α lt] (x : α) (list : List α) :
    occurrences lt x (x :: list) = occurrences lt x list + 1 :=
  occurrences_cons_of_equivalent (Equivalent.refl x) list

theorem occurrences_congr [IsStrictWeakOrder α lt] (hxy : Equivalent lt x y) (list : List α) :
    occurrences lt x list = occurrences lt y list := by
  refine List.countP_congr fun z _ => ?_
  rw [decide_eq_true_iff, decide_eq_true_iff]
  exact ⟨hxy.symm.trans, hxy.trans⟩

theorem Equivalent.occurrences_eq_zero [IsStrictWeakOrder α lt] (hxy : Equivalent lt x y)
    (hless : ∀ z ∈ list, lt y z) : occurrences lt x list = 0 :=
  (occurrences_congr hxy list).trans (occurrences_eq_zero_of_lt hless)

/-- Every class has as many members in the first list as in the second, or more. -/
def Contains (lt : α → α → Prop) [DecidableRel lt] (list list' : List α) : Prop :=
  ∀ z, occurrences lt z list' ≤ occurrences lt z list

/-- **A list that is contained in another** is not longer. -/
theorem Contains.length_le [IsStrictWeakOrder α lt] (hcontains : Contains lt list list') :
    list'.length ≤ list.length := by
  induction hlength : list'.length using Nat.strong_induction_on generalizing list list' with
  | _ n ih =>
      subst hlength
      obtain _ | ⟨y, rest⟩ := list'
      · exact Nat.zero_le _
      · -- without the class of the first value both lists are shorter, the second one strictly
        have hcount := hcontains y
        have hpos : 0 < occurrences lt y (y :: rest) := by
          rw [occurrences_self]
          exact Nat.succ_pos _
        have hsplit : ∀ l : List α, l.length = occurrences lt y l +
            (l.filter fun x => ¬ Equivalent lt y x).length := by
          intro l
          rw [List.length_eq_countP_add_countP (fun x => decide (Equivalent lt y x)) (l := l),
            ← List.countP_eq_length_filter]
          simp [occurrences]
        have hfilter : ∀ (l : List α) z,
            occurrences lt z (l.filter fun x => ¬ Equivalent lt y x) =
              if Equivalent lt y z then 0 else occurrences lt z l := by
          intro l z
          split
          · rename_i hyz
            refine occurrences_eq_zero fun x hx hzx => ?_
            exact of_decide_eq_true (List.mem_filter.1 hx).2 (hyz.trans hzx)
          · rename_i hyz
            rw [occurrences, List.countP_filter]
            refine List.countP_congr fun x _ => ?_
            rw [Bool.and_eq_true, decide_eq_true_iff, decide_eq_true_iff]
            exact ⟨And.left, fun hzx => ⟨hzx, fun hyx => hyz (hyx.trans hzx.symm)⟩⟩
        have hrest : Contains lt (list.filter fun x => ¬ Equivalent lt y x)
            ((y :: rest).filter fun x => ¬ Equivalent lt y x) := by
          intro z
          rw [hfilter, hfilter]
          split
          · exact le_rfl
          · exact hcontains z
        have hlist := hsplit list
        have hlist' := hsplit (y :: rest)
        have hle := ih _ (by omega) hrest rfl
        omega

theorem Contains.of_cons [IsStrictWeakOrder α lt] (hcontains : Contains lt (x :: list) list')
    (hless : ∀ y ∈ list', lt x y) : Contains lt list list' := by
  intro z
  by_cases hzx : Equivalent lt z x
  · have hnone : occurrences lt z list' = 0 :=
      occurrences_eq_zero fun y hy hzy => (hzx.symm.trans hzy).1 (hless y hy)
    exact hnone ▸ Nat.zero_le _
  · exact occurrences_cons_of_not hzx list ▸ hcontains z

end Lists

/-! ## Heaps -/

/-- The value at `i` is not less than the one at `j`. -/
def NotLess (lt : α → α → Prop) (a : ℕ → Option α) (i j : ℕ) : Prop :=
  ∀ x ∈ a i, ∀ y ∈ a j, ¬ lt x y

/-- No value up to `last` is greater than its parent's, for the parents from `low` on. -/
def HeapFrom (lt : α → α → Prop) (low last : ℕ) (a : ℕ → Option α) : Prop :=
  ∀ j ≤ last, low ≤ j / 2 → NotLess lt a (j / 2) j

/-- The order may be broken between the value at `i` and those of its children. -/
structure SinkingFrom (lt : α → α → Prop) (low last : ℕ) (a : ℕ → Option α) (i : ℕ) : Prop where
  ordered : ∀ j ≤ last, low ≤ j / 2 → j / 2 ≠ i → NotLess lt a (j / 2) j
  above : low ≤ i / 2 → ∀ j ≤ last, j / 2 = i → NotLess lt a (i / 2) j

variable {low last i c : ℕ} {a : ℕ → Option α}

theorem HeapFrom.sinking (hlow : 0 < low) (hheap : HeapFrom lt (low + 1) last a) :
    SinkingFrom lt low last a low where
  ordered j hj hle hne := hheap j hj (by omega)
  above hle := by omega

theorem heapFrom_half (hlow : last / 2 < low) : HeapFrom lt low last a := by
  intro j hj hle
  have := Nat.div_le_div_right (c := 2) hj
  omega

theorem SinkingFrom.heapFrom (hsinking : SinkingFrom lt low last a i)
    (hdone : ∀ j ≤ last, j / 2 = i → NotLess lt a i j) : HeapFrom lt low last a := by
  intro j hj hle
  by_cases hchild : j / 2 = i
  · exact hchild ▸ hdone j hj hchild
  · exact hsinking.ordered j hj hle hchild

/-- **A value goes down** past a greatest child's. -/
theorem SinkingFrom.exchange [IsStrictWeakOrder α lt] (hsinking : SinkingFrom lt low last a i)
    (hpos : 0 < i) (hlow : low ≤ i) (hc : c ≤ last) (hchild : c / 2 = i) {x y : α}
    (hx : a i = some x) (hy : a c = some y) (hlt : lt x y)
    (hgreatest : ∀ j ≤ last, j / 2 = i → NotLess lt a c j) :
    SinkingFrom lt low last (a ∘ Equiv.swap i c) c := by
  have hdown : i < c := by omega
  have hat : ∀ {j}, j ≠ i → j ≠ c → (a ∘ Equiv.swap i c) j = a j := fun hi hc =>
    congrArg a (Equiv.swap_apply_of_ne_of_ne hi hc)
  have hleft : (a ∘ Equiv.swap i c) i = a c := congrArg a (Equiv.swap_apply_left i c)
  have hright : (a ∘ Equiv.swap i c) c = a i := congrArg a (Equiv.swap_apply_right i c)
  constructor
  · intro j hj hle hne
    by_cases hji : j = i
    · -- what was greatest among the children is not greater than the parent's value
      subst hji
      have habove := hsinking.above hle c hc hchild
      rw [NotLess, hleft, hat (by omega) (by omega)]
      exact habove
    · by_cases hjc : j = c
      · rw [hjc, hchild, NotLess, hleft, hright, hx, hy]
        rintro _ ⟨⟩ _ ⟨⟩
        exact not_lt_of_lt hlt
      · by_cases hsibling : j / 2 = i
        · rw [hsibling, NotLess, hleft, hat hji hjc]
          exact hgreatest j hj hsibling
        · rw [NotLess, hat hsibling hne, hat hji hjc]
          exact hsinking.ordered j hj hle hsibling
  · intro hle j hj hgrand
    have hordered := hsinking.ordered j hj (by omega) (by omega)
    rw [hchild, NotLess, hleft, hat (by omega) (by omega)]
    exact hgrand ▸ hordered

/-- **The first value** is not less than any other. -/
theorem HeapFrom.root [IsStrictWeakOrder α lt] (hheap : HeapFrom lt 1 last a)
    (hfull : ∀ j, 1 ≤ j → j ≤ last → (a j).isSome) {j : ℕ} (hpos : 1 ≤ j) (hj : j ≤ last) :
    NotLess lt a 1 j := by
  induction j using Nat.strong_induction_on with
  | _ j ih =>
      rcases Nat.lt_or_ge 1 j with hlt | hone
      · have hparent : 1 ≤ j / 2 := by omega
        obtain ⟨p, hp⟩ := Option.isSome_iff_exists.1 (hfull (j / 2) hparent (by omega))
        have hup := ih (j / 2) (by omega) hparent (by omega)
        have hdown := hheap j hj hparent
        intro x hx y hy
        exact not_lt_trans (hup x hx p hp) (hdown p hp y hy)
      · obtain rfl : j = 1 := by omega
        intro x hx y hy
        rw [hx] at hy
        exact Option.some.inj hy ▸ irrefl_of lt x

end WeakOrder
