import Wiselib.Library.WeakOrder

/-!
# The algorithms on sorted ranges

`merge`, `includes` and `set_union` of `util/pstl/algorithm.h`.  A range is the list of the
values between its iterators, and an algorithm that reads `*first` where nothing is left has
no result.  The comparison is `operator<` or the argument `comp`, the functions being the
same for both.

All three read a range behind its end.  `merge` and `includes` compare before they ask
whether a range is empty, `set_union` and `includes` compare what is behind an
iterator that they have advanced; and `merge` copies the rest of the range that is exhausted.

## Strategy

Every round takes a value off one of the ranges, and the conditions under which the results
are right are compared before and after the round (`unionRight_cons`, `caught_cons_of_lt` and
their like).  They are about numbers of values only.
-/

namespace Wiselib.SetAlgorithms

open WeakOrder

variable {α : Type*}

/-! ## The code -/

section Code

variable (lt : α → α → Prop) [DecidableRel lt]

/-- `merge`: what is written to `result`. -/
def merge : List α → List α → Option (List α)
  | x :: first1, y :: first2 =>
      if lt x y then
        -- `copy(first1, last1, result)` copies the range that has no values left
        if first1 = [] then some (x :: first1)
        else (merge first1 (y :: first2)).map (x :: ·)
      else
        if first2 = [] then some (y :: first2)
        else (merge (x :: first1) first2).map (y :: ·)
  | _, _ => none
termination_by first1 first2 => first1.length + first2.length

/-- `includes`. -/
def includes : List α → List α → Option Bool
  | [], _ => some false
  | _ :: _, [] => some true
  | x :: first1, y :: first2 =>
      if lt y x then some false
      else
        -- `*first1` behind `++first1`
        first1.head?.bind fun next =>
          if ¬ lt next y then includes first1 first2 else includes first1 (y :: first2)

/-- `set_union`: what is written to `result`. -/
def setUnion : List α → List α → Option (List α)
  | [], first2 => some first2
  | x :: first1, [] => some (x :: first1)
  | x :: first1, y :: first2 =>
      if lt x y then (setUnion first1 (y :: first2)).map (x :: ·)
      else
        -- `*first2` behind `*result++ = *first2++`
        first2.head?.bind fun next =>
          if ¬ lt next x then (setUnion first1 first2).map (y :: ·)
          else (setUnion (x :: first1) first2).map (y :: ·)
termination_by first1 first2 => first1.length + first2.length

end Code

/-! ## What the results should be -/

section Right

variable (lt : α → α → Prop) [DecidableRel lt] (first1 first2 : List α)

/-- `merge` is right: all values of both ranges, sorted. -/
def MergeRight : Prop :=
  ∃ result, merge lt first1 first2 = some result ∧
    result.Perm (first1 ++ first2) ∧ Sorted lt result

/-- `includes` is right. -/
def IncludesRight : Prop :=
  ∃ answer, includes lt first1 first2 = some answer ∧
    (answer = true ↔ Contains lt first1 first2)

/-- Every value the maximum of its two numbers of occurrences, sorted. -/
def IsUnion (result : List α) : Prop :=
  Sorted lt result ∧
    ∀ z, occurrences lt z result = max (occurrences lt z first1) (occurrences lt z first2)

/-- `set_union` is right. -/
def UnionRight : Prop :=
  ∃ result, setUnion lt first1 first2 = some result ∧ IsUnion lt first1 first2 result

/-- The number of values up to `z`. -/
def upTo (z : α) (range : List α) : ℕ := range.countP fun x => ¬ lt z x

/-- The number of values from `w` up to `z`. -/
def between (w z : α) (range : List α) : ℕ := range.countP fun x => ¬ lt x w ∧ ¬ lt z x

/-- The first range goes on behind a value up to which it has less values than the second, or
less by two at least from some value on. -/
def Caught : Prop :=
  ∃ z, (∃ x ∈ first1, lt z x) ∧ (upTo lt z first1 < upTo lt z first2 ∨
    ∃ w, between lt w z first1 + 2 ≤ between lt w z first2)

/-- The ranges that `includes` tells apart. -/
def IncludesFit : Prop :=
  (Contains lt first1 first2 ∧ first1.length ≠ first2.length) ∨
    (¬ Contains lt first1 first2 ∧ (first1 = [] ∨ Caught lt first1 first2))

/-- The ranges that `set_union` unites: some value occurs more often in the second one, and from
there on none occurs more often in the first one. -/
def UnionFit : Prop :=
  first2 = [] ∨ ((∃ d, occurrences lt d first1 < occurrences lt d first2) ∧
    ∀ d c, lt d c → occurrences lt d first1 < occurrences lt d first2 →
      occurrences lt c first1 ≤ occurrences lt c first2)

end Right

variable {lt : α → α → Prop} [DecidableRel lt] {x y : α} {first1 first2 result : List α}

/-! ## Merging -/

/-- **A merge** loses the rest of a range. -/
theorem merge_length (hmerge : merge lt first1 first2 = some result) :
    result.length < first1.length + first2.length := by
  induction first1, first2 using merge.induct lt generalizing result with
  | case1 x y first2 hlt =>
      rw [merge, if_pos hlt, if_pos rfl] at hmerge
      rw [← Option.some.inj hmerge]
      simp
  | case2 x first1 y first2 hlt hend ih =>
      rw [merge, if_pos hlt, if_neg hend] at hmerge
      obtain ⟨rest, hrest, rfl⟩ := Option.map_eq_some_iff.1 hmerge
      have hrest := ih hrest
      simp only [List.length_cons] at hrest ⊢
      omega
  | case3 x first1 y hlt =>
      rw [merge, if_neg hlt, if_pos rfl] at hmerge
      rw [← Option.some.inj hmerge]
      simp
  | case4 x first1 y first2 hlt hend ih =>
      rw [merge, if_neg hlt, if_neg hend] at hmerge
      obtain ⟨rest, hrest, rfl⟩ := Option.map_eq_some_iff.1 hmerge
      have hrest := ih hrest
      simp only [List.length_cons] at hrest ⊢
      omega
  | case5 first1 first2 hempty =>
      rw [merge] at hmerge
      · contradiction
      · exact hempty

theorem not_mergeRight (first1 first2 : List α) : ¬ MergeRight lt first1 first2 := by
  rintro ⟨result, hmerge, hperm, -⟩
  have hlength := merge_length hmerge
  rw [hperm.length_eq, List.length_append] at hlength
  exact lt_irrefl _ hlength

/-! ## Inclusion -/

section Includes

theorem includes_round (hle : ¬ lt y x) (next : α) (rest first2 : List α) :
    includes lt (x :: next :: rest) (y :: first2) =
      if ¬ lt next y then includes lt (next :: rest) first2
      else includes lt (next :: rest) (y :: first2) := by
  rw [includes, if_neg hle]
  rfl

theorem upTo_cons_of_not_lt {z : α} (hle : ¬ lt z x) (range : List α) :
    upTo lt z (x :: range) = upTo lt z range + 1 := by
  simp [upTo, hle]

theorem upTo_pos {z : α} {range : List α} : 0 < upTo lt z range ↔ ∃ x ∈ range, ¬ lt z x := by
  simp [upTo, List.countP_pos_iff]

theorem between_cons_of_mem {w z : α} (hw : ¬ lt x w) (hz : ¬ lt z x) (range : List α) :
    between lt w z (x :: range) = between lt w z range + 1 := by
  simp [between, hw, hz]

theorem between_cons_of_lt {w z : α} (hw : lt x w) (range : List α) :
    between lt w z (x :: range) = between lt w z range := by
  simp [between, hw]

variable (lt) in
theorem between_le_upTo (w z : α) (range : List α) : between lt w z range ≤ upTo lt z range := by
  refine List.countP_mono_left fun x _ hx => ?_
  simp only [decide_eq_true_eq] at hx ⊢
  exact hx.2

theorem between_eq_upTo {w z : α} {range : List α} (hw : ∀ x ∈ range, ¬ lt x w) :
    between lt w z range = upTo lt z range := by
  refine List.countP_congr fun x hx => ?_
  simp [hw x hx]

theorem between_lt_upTo {w z : α} {range : List α} (hmem : x ∈ range) (hw : lt x w)
    (hz : ¬ lt z x) : between lt w z range < upTo lt z range := by
  obtain ⟨front, rest, rfl⟩ := List.append_of_mem hmem
  have hfront := between_le_upTo lt w z front
  have hrest := between_le_upTo lt w z rest
  calc between lt w z (front ++ x :: rest)
      = between lt w z front + between lt w z rest := by
        rw [between, List.countP_append]
        exact congrArg _ (between_cons_of_lt hw rest)
    _ < upTo lt z front + (upTo lt z rest + 1) := by omega
    _ = upTo lt z (front ++ x :: rest) := by
        rw [← upTo_cons_of_not_lt hz, upTo, upTo, upTo, List.countP_append]

omit [DecidableRel lt] in
theorem exists_greater {z : α} (hle : ¬ lt z x) :
    (∃ w ∈ x :: first1, lt z w) ↔ ∃ w ∈ first1, lt z w := by
  simp [hle]

variable [IsStrictWeakOrder α lt]

theorem not_lt_of_contains (hsorted : Sorted lt (x :: first1))
    (hcontains : Contains lt (x :: first1) (y :: first2)) : ¬ lt y x := by
  have hpos : 0 < occurrences lt y (x :: first1) := by
    have hcount := hcontains y
    rw [occurrences_self] at hcount
    omega
  intro hlt
  obtain ⟨z, hz, hyz⟩ := occurrences_pos.1 hpos
  exact hyz.1 (hsorted.lt_all hlt z hz)

theorem contains_tails (hle : ¬ lt y x) (hsorted : Sorted lt (y :: first2))
    (hcontains : Contains lt (x :: first1) (y :: first2)) : Contains lt first1 first2 := by
  by_cases hlt : lt x y
  · have hshorter : Contains lt (x :: first1) first2 := fun z =>
      (occurrences_le_cons z y first2).trans (hcontains z)
    exact hshorter.of_cons fun z hz => hsorted.lt_all hlt z (List.mem_cons_of_mem y hz)
  · intro z
    have hcount := hcontains z
    by_cases hzx : Equivalent lt z x
    · rw [occurrences_cons_of_equivalent hzx,
        occurrences_cons_of_equivalent (hzx.trans ⟨hlt, hle⟩)] at hcount
      exact Nat.le_of_succ_le_succ hcount
    · rw [occurrences_cons_of_not hzx] at hcount
      exact (occurrences_le_cons z y first2).trans hcount

/-- **A range that contains a shorter one** is found to. -/
theorem includes_of_contains (hsorted1 : Sorted lt first1) (hsorted2 : Sorted lt first2)
    (hcontains : Contains lt first1 first2) (hlength : first2.length < first1.length) :
    includes lt first1 first2 = some true := by
  induction first1 generalizing first2 with
  | nil => exact absurd hlength (Nat.not_lt_zero _)
  | cons x first1 ih =>
      cases first2 with
      | nil => rfl
      | cons y first2 =>
          have hle := not_lt_of_contains hsorted1 hcontains
          obtain _ | ⟨next, rest⟩ := first1
          · simp at hlength
          · rw [includes_round hle]
            split
            · exact ih hsorted1.tail hsorted2.tail (contains_tails hle hsorted2 hcontains)
                (by simpa using hlength)
            · rename_i hnext
              rw [not_not] at hnext
              -- neither of the first two values is among those of the second range
              have hx := lt_of_not_lt_of_lt (hsorted1.head next List.mem_cons_self) hnext
              have hcontains' := hcontains.of_cons (hsorted2.lt_all hx)
              have hshort := (hcontains'.of_cons (hsorted2.lt_all hnext)).length_le
              exact ih hsorted1.tail hsorted2 hcontains' (Nat.lt_succ_of_le hshort)

/-- Of two ranges with the same values `includes` never answers that they have. -/
theorem includes_of_length_eq (hsorted1 : Sorted lt first1) (hsorted2 : Sorted lt first2)
    (hcontains : Contains lt first1 first2) (hlength : first1.length = first2.length) :
    includes lt first1 first2 ≠ some true := by
  induction first1 generalizing first2 with
  | nil => simp [includes]
  | cons x first1 ih =>
      cases first2 with
      | nil => simp at hlength
      | cons y first2 =>
          have hle := not_lt_of_contains hsorted1 hcontains
          obtain _ | ⟨next, rest⟩ := first1
          · simp [includes, hle]
          · have hge : ¬ lt x y := by
              intro hlt
              have hshort := (hcontains.of_cons (hsorted2.lt_all hlt)).length_le
              simp only [List.length_cons] at hlength hshort
              omega
            have hnext := not_lt_trans (hsorted1.head next List.mem_cons_self) hge
            rw [includes_round hle, if_pos hnext]
            exact ih hsorted1.tail hsorted2.tail (contains_tails hle hsorted2 hcontains)
              (by simpa using hlength)

/-! ### What `includes` catches -/

theorem between_mono {v w z : α} (hle : ¬ lt v w) (range : List α) :
    between lt v z range ≤ between lt w z range := by
  refine List.countP_mono_left fun x _ hx => ?_
  simp only [decide_eq_true_eq] at hx ⊢
  exact ⟨not_lt_trans hx.1 hle, hx.2⟩

/-- What is caught is not less than the values of the second range. -/
theorem not_lt_of_caught {z : α} (hleast : ∀ v ∈ first2, ¬ lt v y)
    (hless : upTo lt z first1 < upTo lt z first2 ∨
      ∃ w, between lt w z first1 + 2 ≤ between lt w z first2) : ¬ lt z y := by
  have hpos : 0 < upTo lt z first2 := by
    rcases hless with hless | ⟨w, hless⟩
    · omega
    · have := between_le_upTo lt w z first2
      omega
  obtain ⟨v, hv, hzv⟩ := upTo_pos.1 hpos
  exact fun hlt => hzv (lt_of_lt_of_not_lt hlt (hleast v hv))

/-- **A first value goes** that is followed by one less than the second range's. -/
theorem caught_cons_of_lt (hsorted2 : Sorted lt (y :: first2)) {next : α}
    (hnext : next ∈ first1) (hx : ¬ lt next x) (hlt : lt next y) :
    Caught lt (x :: first1) (y :: first2) ↔ Caught lt first1 (y :: first2) := by
  have hxy := lt_of_not_lt_of_lt hx hlt
  constructor
  · rintro ⟨z, hgreater, hless⟩
    have hyz := not_lt_of_caught (hsorted2.not_lt_all (irrefl_of lt y)) hless
    have hxz := not_lt_trans hyz (not_lt_of_lt hxy)
    refine ⟨z, (exists_greater hxz).1 hgreater, hless.imp (fun hless => ?_) ?_⟩
    · rw [upTo_cons_of_not_lt hxz] at hless
      omega
    · rintro ⟨w, hless⟩
      refine ⟨w, le_trans ?_ hless⟩
      exact Nat.add_le_add_right (List.Sublist.countP_le (List.sublist_cons_self x first1)) 2
  · rintro ⟨z, hgreater, hless⟩
    have hyz := not_lt_of_caught (hsorted2.not_lt_all (irrefl_of lt y)) hless
    have hxz := not_lt_trans hyz (not_lt_of_lt hxy)
    refine ⟨z, (exists_greater hxz).2 hgreater, Or.inr ?_⟩
    have hall : between lt y z (y :: first2) = upTo lt z (y :: first2) :=
      between_eq_upTo (hsorted2.not_lt_all (irrefl_of lt y))
    rcases hless with hless | ⟨w, hless⟩
    · -- up to `z` there is one more value than from `y` on
      have hfewer : between lt y z first1 < upTo lt z first1 :=
        between_lt_upTo hnext hlt fun hz => hyz (trans_of lt hz hlt)
      refine ⟨y, ?_⟩
      rw [between_cons_of_lt hxy, hall]
      omega
    · by_cases hw : lt x w
      · exact ⟨w, by rwa [between_cons_of_lt hw]⟩
      · refine ⟨y, ?_⟩
        have hfewer := between_mono (z := z) (not_lt_trans (not_lt_of_lt hxy) hw) first1
        have hmore := between_le_upTo lt w z (y :: first2)
        rw [between_cons_of_lt hxy, hall]
        omega

/-- **A value of each goes** when the first range goes on with greater ones. -/
theorem caught_cons_cons (hsorted2 : Sorted lt (y :: first2)) (hle : ¬ lt y x)
    (hleast : ∀ next ∈ first1, ¬ lt next y) :
    Caught lt (x :: first1) (y :: first2) ↔ Caught lt first1 first2 := by
  constructor
  · rintro ⟨z, hgreater, hless⟩
    have hyz := not_lt_of_caught (hsorted2.not_lt_all (irrefl_of lt y)) hless
    have hxz := not_lt_trans hyz hle
    refine ⟨z, (exists_greater hxz).1 hgreater, ?_⟩
    rcases hless with hless | ⟨w, hless⟩
    · rw [upTo_cons_of_not_lt hxz, upTo_cons_of_not_lt hyz] at hless
      exact Or.inl (Nat.lt_of_succ_lt_succ hless)
    · by_cases hw : lt y w
      · have hxw := lt_of_not_lt_of_lt hle hw
        rw [between_cons_of_lt hw, between_cons_of_lt hxw] at hless
        exact Or.inr ⟨w, hless⟩
      · -- all values of both ranges but `x` are from `w` on
        have hall : between lt w z first1 = upTo lt z first1 :=
          between_eq_upTo fun next hnext => not_lt_trans (hleast next hnext) hw
        have hmore := between_le_upTo lt w z (y :: first2)
        have hfewer : between lt w z first1 ≤ between lt w z (x :: first1) :=
          List.Sublist.countP_le (List.sublist_cons_self x first1)
        rw [upTo_cons_of_not_lt hyz] at hmore
        exact Or.inl (by omega)
  · rintro ⟨z, hgreater, hless⟩
    have hyz := not_lt_of_caught hsorted2.head hless
    have hxz := not_lt_trans hyz hle
    refine ⟨z, (exists_greater hxz).2 hgreater, ?_⟩
    rcases hless with hless | ⟨w, hless⟩
    · rw [upTo_cons_of_not_lt hxz, upTo_cons_of_not_lt hyz]
      exact Or.inl (Nat.succ_lt_succ hless)
    · refine Or.inr ⟨w, ?_⟩
      by_cases hxw : lt x w
      · rw [between_cons_of_lt hxw]
        exact hless.trans (List.Sublist.countP_le (List.sublist_cons_self y first2))
      · have hyw : ¬ lt y w := not_lt_trans hle hxw
        rw [between_cons_of_mem hxw hxz, between_cons_of_mem hyw hyz]
        omega

/-- **`includes` answers that the second range is not included** when it is caught. -/
theorem includes_eq_false_iff (hsorted1 : Sorted lt first1) (hsorted2 : Sorted lt first2) :
    includes lt first1 first2 = some false ↔ first1 = [] ∨ Caught lt first1 first2 := by
  induction first1 generalizing first2 with
  | nil => simp [includes]
  | cons x first1 ih =>
      rw [or_iff_right (List.cons_ne_nil x first1)]
      cases first2 with
      | nil =>
          refine iff_of_false (by simp [includes]) ?_
          rintro ⟨z, -, hless | ⟨w, hless⟩⟩
          · exact absurd hless (Nat.not_lt_zero _)
          · exact absurd hless (Nat.not_succ_le_zero _)
      | cons y first2 =>
          by_cases hbreak : lt y x
          · refine iff_of_true (by simp [includes, hbreak]) ⟨y, ⟨x, List.mem_cons_self, hbreak⟩, ?_⟩
            left
            have hnone : upTo lt y (x :: first1) = 0 := by
              refine Nat.eq_zero_of_not_pos fun hpos => ?_
              obtain ⟨w, hw, hyw⟩ := upTo_pos.1 hpos
              exact hyw (hsorted1.lt_all hbreak w hw)
            rw [hnone]
            exact upTo_pos.2 ⟨y, List.mem_cons_self, irrefl_of lt y⟩
          · obtain _ | ⟨next, rest⟩ := first1
            · -- the value behind the last one is read
              refine iff_of_false (by simp [includes, hbreak]) ?_
              rintro ⟨z, hgreater, hless⟩
              have hyz := not_lt_of_caught (hsorted2.not_lt_all (irrefl_of lt y)) hless
              rw [exists_greater (not_lt_trans hyz hbreak)] at hgreater
              simp at hgreater
            · rw [includes_round hbreak]
              have hnil : next :: rest ≠ [] := List.cons_ne_nil next rest
              split
              · rename_i hnext
                rw [ih hsorted1.tail hsorted2.tail, or_iff_right hnil,
                  caught_cons_cons hsorted2 hbreak (hsorted1.tail.not_lt_all hnext)]
              · rename_i hnext
                rw [ih hsorted1.tail hsorted2, or_iff_right hnil,
                  caught_cons_of_lt hsorted2 List.mem_cons_self
                    (hsorted1.head next List.mem_cons_self) (not_not.1 hnext)]

theorem includesRight_iff (hsorted1 : Sorted lt first1) (hsorted2 : Sorted lt first2) :
    IncludesRight lt first1 first2 ↔ IncludesFit lt first1 first2 := by
  by_cases hcontains : Contains lt first1 first2
  · have hle := hcontains.length_le
    constructor
    · rintro ⟨answer, hincludes, hright⟩
      obtain rfl := hright.2 hcontains
      refine Or.inl ⟨hcontains, fun hlength => ?_⟩
      exact includes_of_length_eq hsorted1 hsorted2 hcontains hlength hincludes
    · rintro (⟨-, hlength⟩ | ⟨hnot, -⟩)
      · have hlt := lt_of_le_of_ne hle (Ne.symm hlength)
        exact ⟨true, includes_of_contains hsorted1 hsorted2 hcontains hlt, iff_of_true rfl hcontains⟩
      · exact absurd hcontains hnot
  · rw [IncludesFit, or_iff_right fun hleft => hcontains hleft.1, and_iff_right hcontains,
      ← includes_eq_false_iff hsorted1 hsorted2]
    constructor
    · rintro ⟨answer, hincludes, hright⟩
      rwa [Bool.eq_false_iff.2 fun htrue => hcontains (hright.1 htrue)] at hincludes
    · intro hincludes
      exact ⟨false, hincludes, iff_of_false Bool.false_ne_true hcontains⟩

end Includes

/-! ## Union -/

section Union

theorem setUnion_nil (first2 : List α) : setUnion lt [] first2 = some first2 := by
  rw [setUnion]

theorem setUnion_of_lt (hlt : lt x y) : setUnion lt (x :: first1) (y :: first2) =
    (setUnion lt first1 (y :: first2)).map (x :: ·) := by
  rw [setUnion, if_pos hlt]

variable (first1) in
theorem setUnion_round (hle : ¬ lt x y) (next : α) (rest : List α) :
    setUnion lt (x :: first1) (y :: next :: rest) =
      if ¬ lt next x then (setUnion lt first1 (next :: rest)).map (y :: ·)
      else (setUnion lt (x :: first1) (next :: rest)).map (y :: ·) := by
  rw [setUnion, if_neg hle]
  rfl

theorem setUnion_end (hle : ¬ lt x y) : setUnion lt (x :: first1) [y] = none := by
  rw [setUnion, if_neg hle]
  rfl

theorem unionRight_map {list1 list2 : List α} {f : List α → List α}
    (hrun : setUnion lt list1 list2 = (setUnion lt first1 first2).map f) :
    UnionRight lt list1 list2 ↔
      ∃ result, setUnion lt first1 first2 = some result ∧ IsUnion lt list1 list2 (f result) := by
  rw [UnionRight, hrun]
  constructor
  · rintro ⟨_, hmap, hright⟩
    obtain ⟨result, hresult, rfl⟩ := Option.map_eq_some_iff.1 hmap
    exact ⟨result, hresult, hright⟩
  · rintro ⟨result, hresult, hright⟩
    exact ⟨f result, Option.map_eq_some_iff.2 ⟨result, hresult, rfl⟩, hright⟩

theorem IsUnion.symm (hunion : IsUnion lt first1 first2 result) :
    IsUnion lt first2 first1 result :=
  ⟨hunion.1, fun z => (hunion.2 z).trans (max_comm _ _)⟩

theorem unionFit_congr {list1 list2 : List α} (hnil : list2 ≠ []) (hnil' : first2 ≠ [])
    (hmore : ∀ d, occurrences lt d list1 < occurrences lt d list2 ↔
      occurrences lt d first1 < occurrences lt d first2)
    (hless : ∀ d c, lt d c → occurrences lt d first1 < occurrences lt d first2 →
      (occurrences lt c list1 ≤ occurrences lt c list2 ↔
        occurrences lt c first1 ≤ occurrences lt c first2)) :
    UnionFit lt list1 list2 ↔ UnionFit lt first1 first2 := by
  rw [UnionFit, UnionFit, or_iff_right hnil, or_iff_right hnil', exists_congr hmore]
  refine and_congr_right fun _ => forall_congr' fun d => forall_congr' fun c => ?_
  refine forall_congr' fun hlt => ?_
  rw [hmore d]
  exact forall_congr' fun hsurplus => hless d c hlt hsurplus

variable [IsStrictWeakOrder α lt]

theorem not_lt_of_occurrences {z : α} (hleast : ∀ v ∈ first2, ¬ lt v y)
    (hpos : 0 < occurrences lt z first2) : ¬ lt z y := by
  obtain ⟨v, hv, hzv⟩ := occurrences_pos.1 hpos
  exact not_lt_trans hzv.1 (hleast v hv)

theorem IsUnion.least (hunion : IsUnion lt first1 first2 result)
    (hleast1 : ∀ v ∈ first1, ¬ lt v x) (hleast2 : ∀ v ∈ first2, ¬ lt v x) :
    ∀ v ∈ result, ¬ lt v x := by
  intro v hv
  have hpos : 0 < occurrences lt v result := occurrences_pos.2 ⟨v, hv, Equivalent.refl v⟩
  rw [hunion.2, lt_max_iff] at hpos
  exact hpos.elim (not_lt_of_occurrences hleast1) (not_lt_of_occurrences hleast2)

theorem isUnion_cons_left (hsorted : Sorted lt (x :: first1)) (hless : ∀ v ∈ first2, lt x v) :
    IsUnion lt (x :: first1) first2 (x :: result) ↔ IsUnion lt first1 first2 result := by
  have hcount : ∀ z, occurrences lt z (x :: result) =
        max (occurrences lt z (x :: first1)) (occurrences lt z first2) ↔
      occurrences lt z result = max (occurrences lt z first1) (occurrences lt z first2) := by
    intro z
    by_cases hzx : Equivalent lt z x
    · have hnone := hzx.occurrences_eq_zero hless
      rw [occurrences_cons_of_equivalent hzx, occurrences_cons_of_equivalent hzx, hnone]
      omega
    · rw [occurrences_cons_of_not hzx, occurrences_cons_of_not hzx]
  constructor
  · rintro ⟨hresult, hright⟩
    exact ⟨hresult.tail, fun z => (hcount z).1 (hright z)⟩
  · intro hunion
    refine ⟨hunion.1.cons ?_, fun z => (hcount z).2 (hunion.2 z)⟩
    exact hunion.least hsorted.head fun v hv => not_lt_of_lt (hless v hv)

theorem isUnion_cons_right (hsorted : Sorted lt (y :: first2)) (hless : ∀ v ∈ first1, lt y v) :
    IsUnion lt first1 (y :: first2) (y :: result) ↔ IsUnion lt first1 first2 result :=
  calc IsUnion lt first1 (y :: first2) (y :: result)
      ↔ IsUnion lt (y :: first2) first1 (y :: result) := ⟨IsUnion.symm, IsUnion.symm⟩
    _ ↔ IsUnion lt first2 first1 result := isUnion_cons_left hsorted hless
    _ ↔ IsUnion lt first1 first2 result := ⟨IsUnion.symm, IsUnion.symm⟩

theorem isUnion_cons_cons (hsorted1 : Sorted lt (x :: first1)) (hsorted2 : Sorted lt (y :: first2))
    (hxy : Equivalent lt x y) :
    IsUnion lt (x :: first1) (y :: first2) (y :: result) ↔ IsUnion lt first1 first2 result := by
  have hcount : ∀ z, occurrences lt z (y :: result) =
        max (occurrences lt z (x :: first1)) (occurrences lt z (y :: first2)) ↔
      occurrences lt z result = max (occurrences lt z first1) (occurrences lt z first2) := by
    intro z
    by_cases hzx : Equivalent lt z x
    · have hzy := hzx.trans hxy
      rw [occurrences_cons_of_equivalent hzx, occurrences_cons_of_equivalent hzy,
        occurrences_cons_of_equivalent hzy]
      omega
    · have hzy : ¬ Equivalent lt z y := fun hzy => hzx (hzy.trans hxy.symm)
      rw [occurrences_cons_of_not hzx, occurrences_cons_of_not hzy, occurrences_cons_of_not hzy]
  constructor
  · rintro ⟨hresult, hright⟩
    exact ⟨hresult.tail, fun z => (hcount z).1 (hright z)⟩
  · intro hunion
    refine ⟨hunion.1.cons ?_, fun z => (hcount z).2 (hunion.2 z)⟩
    exact hunion.least (fun v hv => not_lt_trans (hsorted1.head v hv) hxy.1) hsorted2.head

/-- **No value is written too often**. -/
theorem setUnion_occurrences_le (hsorted1 : Sorted lt first1) (hsorted2 : Sorted lt first2)
    (hrun : setUnion lt first1 first2 = some result) (z : α) :
    occurrences lt z result ≤ max (occurrences lt z first1) (occurrences lt z first2) := by
  induction first1, first2 using setUnion.induct lt generalizing result with
  | case1 first2 =>
      rw [setUnion_nil] at hrun
      exact Option.some.inj hrun ▸ le_max_right _ _
  | case2 x first1 =>
      rw [setUnion] at hrun
      exact Option.some.inj hrun ▸ le_max_left _ _
  | case3 x first1 y first2 hlt ih =>
      rw [setUnion_of_lt hlt] at hrun
      obtain ⟨rest, hrest, rfl⟩ := Option.map_eq_some_iff.1 hrun
      have hle := ih hsorted1.tail hsorted2 hrest
      by_cases hzx : Equivalent lt z x
      · rw [occurrences_cons_of_equivalent hzx, occurrences_cons_of_equivalent hzx]
        have hnone := hzx.occurrences_eq_zero (hsorted2.lt_all hlt)
        omega
      · rwa [occurrences_cons_of_not hzx, occurrences_cons_of_not hzx]
  | case4 x first1 y first2 hlt ih1 ih2 =>
      obtain _ | ⟨next, first2⟩ := first2
      · rw [setUnion_end hlt] at hrun
        contradiction
      have hcons := @occurrences_le_cons _ lt _ z x first1
      have hcons2 := @occurrences_cons _ lt _ z y (next :: first2)
      rw [setUnion_round _ hlt] at hrun
      split at hrun
      · obtain ⟨rest, hrest, rfl⟩ := Option.map_eq_some_iff.1 hrun
        have hle := ih1 hsorted1.tail hsorted2.tail hrest
        by_cases hzy : Equivalent lt z y
        · rw [occurrences_cons_of_equivalent hzy, occurrences_cons_of_equivalent hzy]
          by_cases hyx : lt y x
          · -- nothing of the first range is equivalent to what is written
            have hnone : occurrences lt z first1 = 0 :=
              hzy.occurrences_eq_zero fun v hv => hsorted1.lt_all hyx v (.tail x hv)
            omega
          · rw [occurrences_cons_of_equivalent (hzy.trans ⟨hyx, hlt⟩)]
            omega
        · rw [occurrences_cons_of_not hzy, occurrences_cons_of_not hzy]
          omega
      · rename_i hnext
        obtain ⟨rest, hrest, rfl⟩ := Option.map_eq_some_iff.1 hrun
        have hle := ih2 hsorted1 hsorted2.tail hrest
        have hyx := lt_of_not_lt_of_lt (hsorted2.head next List.mem_cons_self) (not_not.1 hnext)
        by_cases hzy : Equivalent lt z y
        · rw [occurrences_cons_of_equivalent hzy, occurrences_cons_of_equivalent hzy]
          have hnone := hzy.occurrences_eq_zero (hsorted1.lt_all hyx)
          omega
        · rwa [occurrences_cons_of_not hzy, occurrences_cons_of_not hzy]

/-! ### The rounds -/

/-- **A value of the first range** is written. -/
theorem unionFit_of_lt (hsorted2 : Sorted lt (y :: first2)) (hlt : lt x y) :
    UnionFit lt (x :: first1) (y :: first2) ↔ UnionFit lt first1 (y :: first2) := by
  refine unionFit_congr (List.cons_ne_nil y first2) (List.cons_ne_nil y first2) (fun d => ?_) ?_
  · by_cases hdx : Equivalent lt d x
    · rw [hdx.occurrences_eq_zero (hsorted2.lt_all hlt)]
      exact iff_of_false (Nat.not_lt_zero _) (Nat.not_lt_zero _)
    · rw [occurrences_cons_of_not hdx]
  · intro d c hdc hsurplus
    have hdy := not_lt_of_occurrences (hsorted2.not_lt_all (irrefl_of lt y))
      (Nat.zero_lt_of_lt hsurplus)
    have hcx : ¬ Equivalent lt c x := fun hcx =>
      hcx.2 (trans_of lt (lt_of_lt_of_not_lt hlt hdy) hdc)
    rw [occurrences_cons_of_not hcx]

/-- **A value of each** is passed over. -/
theorem unionFit_cons_cons (hxy : Equivalent lt x y) (hnil : first2 ≠ []) :
    UnionFit lt (x :: first1) (y :: first2) ↔ UnionFit lt first1 first2 := by
  have hcount : ∀ d, ∃ n, occurrences lt d (x :: first1) = occurrences lt d first1 + n ∧
      occurrences lt d (y :: first2) = occurrences lt d first2 + n := by
    intro d
    by_cases hdx : Equivalent lt d x
    · exact ⟨1, occurrences_cons_of_equivalent hdx _,
        occurrences_cons_of_equivalent (hdx.trans hxy) _⟩
    · exact ⟨0, occurrences_cons_of_not hdx _,
        occurrences_cons_of_not (fun hdy => hdx (hdy.trans hxy.symm)) _⟩
  refine unionFit_congr (List.cons_ne_nil y first2) hnil (fun d => ?_) fun _ c _ _ => ?_
  · obtain ⟨n, h1, h2⟩ := hcount d
    rw [h1, h2, Nat.add_lt_add_iff_right]
  · obtain ⟨n, h1, h2⟩ := hcount c
    rw [h1, h2, Nat.add_le_add_iff_right]

/-- **A value of the second range** is written, and the next one is less than the first
range's. -/
theorem unionFit_cons_right (hsorted1 : Sorted lt (x :: first1)) (hsorted2 : Sorted lt (y :: first2))
    {next : α} (hmem : next ∈ first2) (hnext : lt next x) :
    UnionFit lt (x :: first1) (y :: first2) ↔ UnionFit lt (x :: first1) first2 := by
  have hnil := List.ne_nil_of_mem hmem
  have hyx := lt_of_not_lt_of_lt (hsorted2.head next hmem) hnext
  have hsurplus : occurrences lt next (x :: first1) < occurrences lt next first2 := by
    rw [occurrences_eq_zero_of_lt (hsorted1.lt_all hnext)]
    exact occurrences_pos.2 ⟨next, hmem, Equivalent.refl next⟩
  rw [UnionFit, UnionFit, or_iff_right (List.cons_ne_nil y first2), or_iff_right hnil]
  constructor
  · rintro ⟨-, hfit⟩
    refine ⟨⟨next, hsurplus⟩, fun d c hdc hless => ?_⟩
    have hcount := hfit d c hdc (hless.trans_le (occurrences_le_cons d y first2))
    by_cases hcy : Equivalent lt c y
    · rw [hcy.occurrences_eq_zero (hsorted1.lt_all hyx)]
      exact Nat.zero_le _
    · rwa [occurrences_cons_of_not hcy] at hcount
  · rintro ⟨⟨d, hless⟩, hfit⟩
    refine ⟨⟨d, hless.trans_le (occurrences_le_cons d y first2)⟩, fun d c hdc hless => ?_⟩
    rcases Nat.eq_zero_or_pos (occurrences lt c (x :: first1)) with hzero | hpos
    · exact hzero ▸ Nat.zero_le _
    · -- the next value is there for the one that goes
      have hxc := not_lt_of_occurrences (hsorted1.not_lt_all (irrefl_of lt x)) hpos
      have hnextc : lt next c := lt_of_lt_of_not_lt hnext hxc
      exact (hfit next c hnextc hsurplus).trans (occurrences_le_cons c y first2)

/-- **A greater value of the first range is dropped** along with one of the second range. -/
theorem unionFit_drop (hsorted1 : Sorted lt (x :: first1)) (hnil : first2 ≠ []) (hyx : lt y x) (hleast : ∀ v ∈ first2, ¬ lt v x) :
    UnionFit lt (x :: first1) (y :: first2) ↔
      occurrences lt x first1 < occurrences lt x first2 ∧ UnionFit lt first1 first2 := by
  have hxy : ¬ Equivalent lt x y := fun hxy => hxy.2 hyx
  have hcount : ∀ c, lt y c → occurrences lt c (y :: first2) = occurrences lt c first2 :=
    fun c hyc => occurrences_cons_of_not (fun hcy => hcy.2 hyc) _
  rw [UnionFit, UnionFit, or_iff_right (List.cons_ne_nil y first2), or_iff_right hnil]
  constructor
  · rintro ⟨-, hfit⟩
    have hsurplus : occurrences lt y (x :: first1) < occurrences lt y (y :: first2) := by
      rw [occurrences_eq_zero_of_lt (hsorted1.lt_all hyx), occurrences_self]
      exact Nat.succ_pos _
    have hall : ∀ c, lt y c → occurrences lt c (x :: first1) ≤ occurrences lt c first2 :=
      fun c hyc => hcount c hyc ▸ hfit y c hyc hsurplus
    have hx := hall x hyx
    rw [occurrences_self] at hx
    refine ⟨hx, ⟨x, hx⟩, fun d c hdc hless => ?_⟩
    have hxd := not_lt_of_occurrences hleast (Nat.zero_lt_of_lt hless)
    have hyc : lt y c := trans_of lt (lt_of_lt_of_not_lt hyx hxd) hdc
    exact (occurrences_le_cons c x first1).trans (hall c hyc)
  · rintro ⟨hx, -, hfit⟩
    refine ⟨⟨y, ?_⟩, fun d c hdc hless => ?_⟩
    · rw [occurrences_eq_zero_of_lt (hsorted1.lt_all hyx), occurrences_self]
      exact Nat.succ_pos _
    · rcases Nat.eq_zero_or_pos (occurrences lt c (x :: first1)) with hzero | hpos
      · exact hzero ▸ Nat.zero_le _
      · have hxc := not_lt_of_occurrences (hsorted1.not_lt_all (irrefl_of lt x)) hpos
        have hyc : lt y c := lt_of_lt_of_not_lt hyx hxc
        rw [hcount c hyc]
        by_cases hcx : Equivalent lt c x
        · rw [occurrences_cons_of_equivalent hcx, occurrences_congr hcx,
            occurrences_congr hcx first2]
          exact hx
        · rw [occurrences_cons_of_not hcx]
          exact hfit x c (not_not.1 fun hnot => hcx ⟨hxc, hnot⟩) hx

/-- What is written then is right only if the value is there again. -/
theorem unionRight_drop (hsorted1 : Sorted lt (x :: first1)) (hsorted2 : Sorted lt (y :: first2))
    (hyx : lt y x) (hrun : setUnion lt (x :: first1) (y :: first2) =
      (setUnion lt first1 first2).map (y :: ·)) :
    UnionRight lt (x :: first1) (y :: first2) ↔
      occurrences lt x first1 < occurrences lt x first2 ∧ UnionRight lt first1 first2 := by
  have hchange : ∀ result, occurrences lt x first1 < occurrences lt x first2 →
      (IsUnion lt (x :: first1) first2 result ↔ IsUnion lt first1 first2 result) := by
    intro result hx
    refine and_congr_right fun _ => forall_congr' fun z => ?_
    by_cases hzx : Equivalent lt z x
    · rw [occurrences_cons_of_equivalent hzx, occurrences_congr hzx first1,
        occurrences_congr hzx first2]
      omega
    · rw [occurrences_cons_of_not hzx]
  rw [unionRight_map hrun]
  constructor
  · rintro ⟨result, hresult, hunion⟩
    rw [isUnion_cons_right hsorted2 (hsorted1.lt_all hyx)] at hunion
    have hle := setUnion_occurrences_le hsorted1.tail hsorted2.tail hresult x
    have hright := hunion.2 x
    rw [occurrences_self] at hright
    have hx : occurrences lt x first1 < occurrences lt x first2 := by omega
    exact ⟨hx, result, hresult, (hchange result hx).1 hunion⟩
  · rintro ⟨hx, result, hresult, hunion⟩
    refine ⟨result, hresult, ?_⟩
    rw [isUnion_cons_right hsorted2 (hsorted1.lt_all hyx)]
    exact (hchange result hx).2 hunion

/-- A last value of the second range that is not greater leads behind it. -/
theorem not_unionFit_singleton (hle : ¬ lt x y) : ¬ UnionFit lt (x :: first1) [y] := by
  rintro (hnil | ⟨⟨d, hless⟩, hfit⟩)
  · contradiction
  · obtain ⟨v, hv, hdy⟩ := occurrences_pos.1 (Nat.zero_lt_of_lt hless)
    rw [List.mem_singleton.1 hv] at hdy
    have hcount : occurrences lt d [y] = 1 := occurrences_cons_of_equivalent hdy []
    by_cases hdx : Equivalent lt d x
    · rw [hcount, occurrences_cons_of_equivalent hdx] at hless
      omega
    · -- the value dropped does not occur in the second range
      have hxy : ¬ Equivalent lt x y := fun hxy => hdx (hdy.trans hxy.symm)
      have hyx : lt y x := not_not.1 fun hnot => hxy ⟨hle, hnot⟩
      have hcount' := hfit d x (lt_of_not_lt_of_lt hdy.2 hyx) hless
      rw [occurrences_self, occurrences_cons_of_not hxy] at hcount'
      exact absurd hcount' (Nat.not_succ_le_zero _)

theorem unionRight_iff (hsorted1 : Sorted lt first1) (hsorted2 : Sorted lt first2) :
    UnionRight lt first1 first2 ↔ UnionFit lt first1 first2 := by
  induction first1, first2 using setUnion.induct lt with
  | case1 first2 =>
      refine iff_of_true ⟨first2, setUnion_nil first2, hsorted2, fun z => ?_⟩ ?_
      · exact (Nat.zero_max _).symm
      · obtain _ | ⟨y, first2⟩ := first2
        · exact Or.inl rfl
        · refine Or.inr ⟨⟨y, ?_⟩, fun _ _ _ _ => Nat.zero_le _⟩
          exact occurrences_pos.2 ⟨y, List.mem_cons_self, Equivalent.refl y⟩
  | case2 x first1 =>
      refine iff_of_true ⟨x :: first1, by rw [setUnion], hsorted1, fun z => ?_⟩ (Or.inl rfl)
      exact (Nat.max_zero _).symm
  | case3 x first1 y first2 hlt ih =>
      rw [unionFit_of_lt hsorted2 hlt, ← ih hsorted1.tail hsorted2,
        unionRight_map (setUnion_of_lt hlt), UnionRight]
      exact exists_congr fun result =>
        and_congr_right fun _ => isUnion_cons_left hsorted1 (hsorted2.lt_all hlt)
  | case4 x first1 y first2 hlt ih1 ih2 =>
      obtain _ | ⟨next, first2⟩ := first2
      · refine iff_of_false ?_ (not_unionFit_singleton hlt)
        rintro ⟨result, hrun, -⟩
        rw [setUnion_end hlt] at hrun
        contradiction
      have hround := setUnion_round first1 hlt next first2
      have hnil : next :: first2 ≠ [] := List.cons_ne_nil next first2
      split at hround
      · rename_i hnext
        have hleast := hsorted2.tail.not_lt_all hnext
        by_cases hyx : lt y x
        · rw [unionFit_drop hsorted1 hnil hyx hleast,
            unionRight_drop hsorted1 hsorted2 hyx hround, ih1 hsorted1.tail hsorted2.tail]
        · have hxy : Equivalent lt x y := ⟨hlt, hyx⟩
          rw [unionFit_cons_cons hxy hnil, ← ih1 hsorted1.tail hsorted2.tail,
            unionRight_map hround, UnionRight]
          exact exists_congr fun result =>
            and_congr_right fun _ => isUnion_cons_cons hsorted1 hsorted2 hxy
      · rename_i hnext
        rw [not_not] at hnext
        have hyx := lt_of_not_lt_of_lt (hsorted2.head next List.mem_cons_self) hnext
        rw [unionFit_cons_right hsorted1 hsorted2 List.mem_cons_self hnext,
          ← ih2 hsorted1 hsorted2.tail, unionRight_map hround, UnionRight]
        exact exists_congr fun result =>
          and_congr_right fun _ => isUnion_cons_right hsorted2 (hsorted1.lt_all hyx)

end Union

/-! ## All three -/

/-- **`merge` is never right**, and the two others on ranges that fit only. -/
theorem algorithms_right_iff [IsStrictWeakOrder α lt] (hsorted1 : Sorted lt first1)
    (hsorted2 : Sorted lt first2) :
    ¬ MergeRight lt first1 first2 ∧
      (IncludesRight lt first1 first2 ↔ IncludesFit lt first1 first2) ∧
      (UnionRight lt first1 first2 ↔ UnionFit lt first1 first2) :=
  ⟨not_mergeRight first1 first2, includesRight_iff hsorted1 hsorted2,
    unionRight_iff hsorted1 hsorted2⟩

theorem algorithms_right_iff_numbers :
    ¬ MergeRight (· < ·) [1, 2] [1, 3] ∧
      (IncludesRight (· < ·) [1, 2] [1, 3] ↔ IncludesFit (· < ·) [1, 2] [1, 3]) ∧
      (UnionRight (· < ·) [1, 2] [1, 3] ↔ UnionFit (· < ·) [1, 2] [1, 3]) :=
  have := isStrictWeakOrder_of_isOrderConnected (r := (· < · : ℕ → ℕ → Prop))
  algorithms_right_iff (by simp [Sorted]) (by simp [Sorted])

/-- Two ranges with one value each, the same. -/
theorem algorithms_wrong_equal :
    ¬ MergeRight (· < ·) [1] [1] ∧ ¬ IncludesRight (· < ·) [1] [1] ∧
      ¬ UnionRight (· < ·) [1] [1] := by
  refine ⟨?_, ?_, ?_⟩
  · rintro ⟨result, hmerge, hperm, -⟩
    rw [merge, if_neg (lt_irrefl 1), if_pos rfl] at hmerge
    rw [← Option.some.inj hmerge] at hperm
    exact absurd hperm.length_eq (by simp)
  · rintro ⟨answer, hincludes, -⟩
    simp [includes] at hincludes
  · rintro ⟨result, hunion, -⟩
    simp [setUnion] at hunion

end Wiselib.SetAlgorithms
