import Mathlib

/-!
# Lists of pairs in the order of their keys

A list of key-value pairs with strictly increasing keys falls into the pairs up to a key and
those behind it (`Sorted.exists_split`), and a pair with a new key goes in between
(`Sorted.insert`).
-/

namespace KeyedLists

variable {Key Value : Type*} [LinearOrder Key]

/-- The keys increase strictly. -/
def Sorted (pairs : List (Key × Value)) : Prop := pairs.Pairwise fun x y => x.1 < y.1

variable {pairs pairs' front back : List (Key × Value)}

theorem sorted_append : Sorted (front ++ back) ↔
    Sorted front ∧ Sorted back ∧ ∀ x ∈ front, ∀ y ∈ back, x.1 < y.1 :=
  List.pairwise_append

theorem Sorted.sublist (hsorted : Sorted pairs) (hsub : pairs'.Sublist pairs) : Sorted pairs' :=
  List.Pairwise.sublist hsub hsorted

theorem Sorted.exists_split (hsorted : Sorted pairs) (key : Key) :
    ∃ front back, pairs = front ++ back ∧ (∀ x ∈ front, x.1 ≤ key) ∧ ∀ y ∈ back, key < y.1 := by
  induction pairs with
  | nil => exact ⟨[], [], rfl, by simp, by simp⟩
  | cons pair rest ih =>
      obtain ⟨hpair, hrest⟩ := List.pairwise_cons.1 hsorted
      by_cases hle : pair.1 ≤ key
      · obtain ⟨front, back, rfl, hfront, hback⟩ := ih hrest
        exact ⟨pair :: front, back, rfl, List.forall_mem_cons.2 ⟨hle, hfront⟩, hback⟩
      · have hlt := not_le.1 hle
        refine ⟨[], pair :: rest, rfl, by simp, List.forall_mem_cons.2 ⟨hlt, fun y hy => ?_⟩⟩
        exact hlt.trans (hpair y hy)

theorem Sorted.insert (hsorted : Sorted (front ++ back)) {pair : Key × Value}
    (hfront : ∀ x ∈ front, x.1 < pair.1) (hback : ∀ y ∈ back, pair.1 < y.1) :
    Sorted (front ++ pair :: back) := by
  obtain ⟨hsfront, hsback, hcross⟩ := sorted_append.1 hsorted
  refine sorted_append.2 ⟨hsfront, List.pairwise_cons.2 ⟨hback, hsback⟩, fun x hx => ?_⟩
  exact List.forall_mem_cons.2 ⟨hfront x hx, hcross x hx⟩

end KeyedLists
