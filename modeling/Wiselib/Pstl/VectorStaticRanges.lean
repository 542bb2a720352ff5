import Wiselib.Pstl.VectorStaticEditing

/-!
# Ranges in static vectors

The two calls of `vector_static` that read a range: the constructor, and `insert` with
two iterators.  The constructor works on the memory as it finds it, so its model has
the three pointers as members of their own; a write through a pointer that leaves the
array has no result, and neither has a read behind the range.

## Strategy

The constructor steps its iterator twice in a round.  `construct_finish_le` counts:
every push uses up two elements of the range, the last one perhaps a single one, so
that a range of two or more elements is never complete.  The insertion is at the same
place in every round, so `insertRange_leaves` finds the range reversed.
-/

namespace Wiselib.Pstl

namespace VectorSlots

variable {α : Type*}

/-! ## The code -/

/-- The members of a `vector_static`.  The pointers are places counted from the first slot. -/
structure Members (α : Type*) where
  vec_ : List α
  start_ : ℤ
  finish_ : ℤ
  endOfStorage_ : ℤ
deriving DecidableEq

/-- Writes through a pointer. -/
def Members.store (members : Members α) (pointer : ℤ) (x : α) : Option (List α) :=
  if 0 ≤ pointer then write members.vec_ pointer.toNat x else none

/-- `push_back` on the members. -/
def Members.pushBack (members : Members α) (x : α) : Option (Members α) :=
  if members.finish_ ≠ members.endOfStorage_ then do
    let vec_ ← members.store members.finish_ x
    return { members with vec_ := vec_, finish_ := members.finish_ + 1 }
  else some members

/-- The loop of the range constructor, which has some rounds left until `i` is `VECTOR_SIZE`. -/
def constructLoop (range : List α) : ℕ → Members α → ℕ → Option (Members α)
  | 0, members, _ => some members
  | rounds + 1, members, first =>
      if first = range.length then some members
      else do
        let x ← range[first]?
        let members ← members.pushBack x
        -- once by the argument `*first++`, once by the loop
        constructLoop range rounds members (first + 1 + 1)

/-- The range constructor.  It sets none of the pointers, so they are what the memory holds. -/
def construct (vectorSize : ℕ) (members : Members α) (range : List α) : Option (Members α) :=
  constructLoop range vectorSize members 0

/-- `insert` of a range at a position. -/
def insertRange (vectorSize : ℕ) (vector : VectorSlots α) (position : ℕ) (range : List α) :
    Option (VectorSlots α) :=
  range.foldlM (fun vector x => (insert vectorSize vector position x).map Prod.fst) vector

/-! ## The constructor -/

/-- The elements between `start_` and `finish_` are those of the list. -/
def Members.Contains (members : Members α) (list : List α) : Prop :=
  members.finish_ - members.start_ = list.length ∧
    ∀ i < list.length, 0 ≤ members.start_ + i ∧
      members.vec_[(members.start_ + i).toNat]? = list[i]?

/-- What the constructor should do: stay in its memory and contain the range. -/
def Constructs (vectorSize : ℕ) (members : Members α) (range : List α) : Prop :=
  ∃ vector, construct vectorSize members range = some vector ∧ vector.Contains range

section Constructor

variable {range : List α} {rounds first : ℕ} {members members' : Members α}

theorem pushBack_eq_some {x : α} (hpush : members.pushBack x = some members') :
    members'.start_ = members.start_ ∧ members'.endOfStorage_ = members.endOfStorage_ ∧
      (members.finish_ = members.endOfStorage_ → members' = members) ∧
      members'.finish_ ≤ members.finish_ + 1 := by
  unfold Members.pushBack at hpush
  split at hpush
  · rename_i hroom
    obtain ⟨vec_, -, hmembers⟩ := Option.bind_eq_some_iff.1 hpush
    obtain rfl := Option.some.inj hmembers
    exact ⟨rfl, rfl, fun hfull => absurd hfull hroom, le_refl _⟩
  · obtain rfl := Option.some.inj hpush
    exact ⟨rfl, rfl, fun _ => rfl, by omega⟩

theorem constructLoop_full (hfull : members.finish_ = members.endOfStorage_)
    (hloop : constructLoop range rounds members first = some members') : members' = members := by
  induction rounds generalizing first with
  | zero => exact (Option.some.inj hloop).symm
  | succ rounds ih =>
      rw [constructLoop] at hloop
      split at hloop
      · exact (Option.some.inj hloop).symm
      · obtain ⟨x, -, hread⟩ := Option.bind_eq_some_iff.1 hloop
        obtain ⟨next, hpush, hrest⟩ := Option.bind_eq_some_iff.1 hread
        rw [(pushBack_eq_some hpush).2.2.1 hfull] at hrest
        exact ih hrest

theorem constructLoop_behind (hbehind : range.length < first)
    (hloop : constructLoop range rounds members first = some members') :
    rounds = 0 ∧ members' = members := by
  cases rounds with
  | zero => exact ⟨rfl, (Option.some.inj hloop).symm⟩
  | succ rounds =>
      have hnone : range[first]? = none := List.getElem?_eq_none hbehind.le
      rw [constructLoop, if_neg hbehind.ne', hnone] at hloop
      cases hloop

/-- Every push uses up two elements of the range. -/
theorem constructLoop_finish_le (hfirst : first ≤ range.length)
    (hloop : constructLoop range rounds members first = some members') :
    members'.start_ = members.start_ ∧
      2 * (members'.finish_ - members.finish_) ≤ range.length - first + 1 := by
  induction rounds generalizing first members with
  | zero =>
      obtain rfl := Option.some.inj hloop
      exact ⟨rfl, by omega⟩
  | succ rounds ih =>
      rw [constructLoop] at hloop
      split at hloop
      · obtain rfl := Option.some.inj hloop
        exact ⟨rfl, by omega⟩
      · obtain ⟨x, -, hloop⟩ := Option.bind_eq_some_iff.1 hloop
        obtain ⟨next, hpush, hloop⟩ := Option.bind_eq_some_iff.1 hloop
        obtain ⟨hstart, -, -, hfinish⟩ := pushBack_eq_some hpush
        rcases Nat.lt_or_ge range.length (first + 1 + 1) with hbehind | hinside
        · obtain ⟨-, rfl⟩ := constructLoop_behind hbehind hloop
          exact ⟨hstart, by omega⟩
        · obtain ⟨hstart', hfinish'⟩ := ih hinside hloop
          exact ⟨hstart'.trans hstart, by omega⟩

/-- **The pointers of the constructor** may be such that it is wrong, on every range. -/
theorem exists_not_constructs (vectorSize : ℕ) (vec_ range : List α) :
    ∃ start_ finish_ endOfStorage_,
      ¬ Constructs vectorSize ⟨vec_, start_, finish_, endOfStorage_⟩ range := by
  refine ⟨0, range.length + 1, range.length + 1, ?_⟩
  rintro ⟨vector, hvector, hsize, -⟩
  obtain rfl := constructLoop_full rfl hvector
  dsimp only at hsize
  omega

/-- The constructor on pointers that are set as for an empty vector. -/
theorem constructs_empty_iff {vectorSize : ℕ} {vec_ : List α} (hvec : vec_.length = vectorSize)
    (hfits : range.length ≤ vectorSize) :
    Constructs vectorSize ⟨vec_, 0, 0, vectorSize⟩ range ↔
      range = [] ∨ range.length = 1 ∧ vectorSize = 1 := by
  constructor
  · rintro ⟨vector, hvector, hsize, -⟩
    obtain ⟨hstart, hfinish⟩ := constructLoop_finish_le (Nat.zero_le _) hvector
    have hshort : range.length ≤ 1 := by
      dsimp only at hstart hfinish
      omega
    match range, hshort with
    | [], _ => exact Or.inl rfl
    | [x], _ =>
        refine Or.inr ⟨rfl, ?_⟩
        -- a second round would read behind the single element
        obtain ⟨rounds, rfl⟩ : ∃ rounds, vectorSize = rounds + 1 :=
          Nat.exists_eq_succ_of_ne_zero (by rintro rfl; cases hfits)
        obtain ⟨next, -, hloop⟩ := Option.bind_eq_some_iff.1 hvector
        have hbehind : [x].length < 0 + 1 + 1 := Nat.lt_succ_self _
        rw [(constructLoop_behind hbehind hloop).1]
  · rintro (rfl | ⟨hlength, rfl⟩)
    · refine ⟨⟨vec_, 0, 0, vectorSize⟩, ?_, by simp [Members.Contains]⟩
      cases vectorSize <;> rfl
    · obtain ⟨x, rfl⟩ := List.length_eq_one_iff.1 hlength
      obtain ⟨y, rfl⟩ := List.length_eq_one_iff.1 hvec
      refine ⟨⟨[x], 0, 1, 1⟩, rfl, rfl, fun i hi => ?_⟩
      obtain rfl : i = 0 := Nat.lt_one_iff.1 hi
      exact ⟨le_refl _, rfl⟩

end Constructor

/-! ## The insertion -/

section Insertion

variable {vectorSize : ℕ} {vector : VectorSlots α}

/-- **`insert` of a range** puts the elements one after the other in front of each other. -/
theorem insertRange_leaves (hsound : vector.Sound vectorSize) {position : ℕ}
    (hposition : position ≤ vector.finish_) (range : List α)
    (hfits : vector.finish_ + range.length ≤ vectorSize) :
    Leaves vectorSize (insertRange vectorSize vector position range)
      (vector.toList.take position ++ (range.reverse ++ vector.toList.drop position)) := by
  induction range generalizing vector with
  | nil =>
      rw [List.reverse_nil, List.nil_append, List.take_append_drop]
      exact ⟨vector, rfl, hsound, rfl⟩
  | cons x range ih =>
      rw [List.length_cons] at hfits
      have hcount : position ≤ vector.toList.length := hsound.length_toList.symm ▸ hposition
      have hfront : (vector.toList.take position).length = position := by
        rw [List.length_take, Nat.min_eq_left hcount]
      have hinserted : vector.toList.insertIdx position x =
          vector.toList.take position ++ x :: vector.toList.drop position := by
        have hidx := insertIdx_length (vector.toList.take position)
          (vector.toList.drop position) x
        rwa [List.take_append_drop, hfront] at hidx
      obtain ⟨next, hnext, hsound', hlist⟩ := insert_right hsound hposition (by omega) x
      have hfinish : next.finish_ = vector.finish_ + 1 := by
        rw [← hsound'.length_toList, hlist, List.length_insertIdx_of_le_length hcount,
          hsound.length_toList]
      have hrest := ih hsound' (by omega) (by omega)
      rw [hlist, hinserted, List.take_left' hfront, List.drop_left' hfront] at hrest
      have hrun : insertRange vectorSize vector position (x :: range) =
          insertRange vectorSize next position range := by
        rw [insertRange, List.foldlM_cons, hnext]
        rfl
      rw [hrun, List.reverse_cons, List.append_assoc, List.singleton_append]
      exact hrest

end Insertion

/-! ## Both calls -/

/-- **A range in a static vector.**  The constructor is right on no range for all the values that
its pointers may have, and with pointers set as for an empty vector only on an empty range or a
single element in a vector for one; `insert` is right on palindromes. -/
theorem ranges_right_iff (vectorSize : ℕ) (range : List α) :
    (range.length ≤ vectorSize → ∀ vec_ : List α, vec_.length = vectorSize →
      (∃ start_ finish_ endOfStorage_,
        ¬ Constructs vectorSize ⟨vec_, start_, finish_, endOfStorage_⟩ range) ∧
      (Constructs vectorSize ⟨vec_, 0, 0, vectorSize⟩ range ↔
        range = [] ∨ range.length = 1 ∧ vectorSize = 1)) ∧
    ∀ (vector : VectorSlots α) (position : ℕ), vector.Sound vectorSize →
      position ≤ vector.finish_ → vector.finish_ + range.length ≤ vectorSize →
      (Leaves vectorSize (insertRange vectorSize vector position range)
        (vector.toList.take position ++ (range ++ vector.toList.drop position)) ↔
          range.reverse = range) := by
  refine ⟨fun hfits vec_ hvec => ⟨exists_not_constructs vectorSize vec_ range,
    constructs_empty_iff hvec hfits⟩, fun vector position hsound hposition hfits => ?_⟩
  have hleaves := insertRange_leaves hsound hposition range hfits
  constructor
  · rintro ⟨next, hnext, -, hlist⟩
    obtain ⟨next', hnext', -, hlist'⟩ := hleaves
    obtain rfl := Option.some.inj (hnext.symm.trans hnext')
    exact List.append_cancel_right (List.append_cancel_left (hlist'.symm.trans hlist))
  · intro hsame
    rwa [hsame] at hleaves

/-- The range of two elements 5 and 7 in an empty vector for two. -/
theorem ranges_right_iff_pair :
    (Constructs 2 ⟨[0, 0], 0, 0, 2⟩ [5, 7] ↔ [5, 7] = [] ∨ [5, 7].length = 1 ∧ 2 = 1) ∧
      (Leaves 2 (insertRange 2 ⟨[0, 0], 0⟩ 0 [5, 7]) ([] ++ ([5, 7] ++ [])) ↔
        [5, 7].reverse = [5, 7]) :=
  have hright := ranges_right_iff 2 [5, 7]
  ⟨(hright.1 (le_refl 2) [0, 0] rfl).2,
    hright.2 ⟨[0, 0], 0⟩ 0 ⟨rfl, Nat.zero_le 2⟩ (le_refl 0) (le_refl 2)⟩

/-- Two elements: the constructor keeps one of them, `insert` puts them in the wrong order. -/
theorem pair_of_elements :
    ¬ Constructs 2 ⟨[0, 0], 0, 0, 2⟩ [5, 7] ∧
      ¬ Leaves 2 (insertRange 2 ⟨[0, 0], 0⟩ 0 [5, 7]) [5, 7] := by
  have hcall : construct 2 ⟨[0, 0], 0, 0, 2⟩ [5, 7] = some ⟨[5, 0], 0, 1, 2⟩ := rfl
  have hinsert : insertRange 2 ⟨[0, 0], 0⟩ 0 [5, 7] = some ⟨[7, 5], 2⟩ := rfl
  constructor
  · rintro ⟨vector, hvector, hsize, -⟩
    rw [← Option.some.inj (hcall.symm.trans hvector)] at hsize
    exact absurd hsize (by decide)
  · rintro ⟨next, hnext, -, hlist⟩
    rw [← Option.some.inj (hinsert.symm.trans hnext)] at hlist
    exact absurd hlist (by decide)

end VectorSlots

end Wiselib.Pstl
