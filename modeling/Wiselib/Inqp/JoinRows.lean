import Wiselib.Inqp.QueryProcessor

/-!
# The rows of a query

`Plan.relation` is the relational join of the pattern results.  `Plan.rows` says
what comes out of a subtree when its selections are executed in the order of their
ids: a join whose right side is finished first has no rows.
-/

namespace Wiselib.Inqp

variable {Element : Type*}

/-! ## The relational join -/

/-- The rows of the pattern results that join. -/
def Plan.relation (readings : Readings Element) (store : List (Fin 3 → Element)) :
    Plan → Multiset Row
  | .select _ affected projection => (selectRows readings affected projection store : Multiset Row)
  | .join _ leftColumn rightColumn projection left right =>
      ((right.relation readings store ×ˢ left.relation readings store).filter fun pair =>
        SameValue readings.floatLess (left.projection.resultType leftColumn)
          (pair.2.getD leftColumn 0) (pair.1.getD rightColumn 0)).map fun pair =>
        joinRow projection left.projection right.projection pair.2 pair.1

/-- The selection that finishes the rows of a subtree. -/
def Plan.last : Plan → ℕ
  | .select id _ _ => id
  | .join _ _ _ _ _ right => right.last

@[simp]
theorem Plan.last_join {id leftColumn rightColumn : ℕ} {projection : ProjectionInfo}
    {left right : Plan} : (join id leftColumn rightColumn projection left right).last = right.last :=
  rfl

/-- For every join the rows of the left side come before the rows of the right side. -/
def Plan.InOrder : Plan → Prop
  | .select _ _ _ => True
  | .join _ _ _ _ left right => left.last < right.last ∧ left.InOrder ∧ right.InOrder

instance Plan.decidableInOrder : DecidablePred Plan.InOrder
  | .select _ _ _ => .isTrue trivial
  | .join _ _ _ _ left right =>
      have := left.decidableInOrder
      have := right.decidableInOrder
      inferInstanceAs (Decidable (left.last < right.last ∧ left.InOrder ∧ right.InOrder))

/-- The rows of a left side that come in order fit into the table. -/
def Plan.TablesFit (readings : Readings Element) (store : List (Fin 3 → Element)) : Plan → Prop
  | .select _ _ _ => True
  | .join _ _ _ _ left right =>
      (left.InOrder → (left.relation readings store).card ≤ tableLimit) ∧
        left.TablesFit readings store ∧ right.TablesFit readings store

/-- The rows that come out of a subtree: none out of a join whose right side comes
first. -/
def Plan.rows (readings : Readings Element) (store : List (Fin 3 → Element)) : Plan → List Row
  | .select _ affected projection => selectRows readings affected projection store
  | .join _ leftColumn rightColumn projection left right =>
      if left.last < right.last then
        (right.rows readings store).flatMap fun row =>
          joinResults readings.floatLess projection left.projection right.projection leftColumn
            rightColumn (left.rows readings store) row
      else []

section Rows

variable {readings : Readings Element} {store : List (Fin 3 → Element)}

theorem Plan.rows_join {id leftColumn rightColumn : ℕ} {projection : ProjectionInfo}
    {left right : Plan} :
    (join id leftColumn rightColumn projection left right).rows readings store =
      if left.last < right.last then
        (right.rows readings store).flatMap (joinResults readings.floatLess projection
          left.projection right.projection leftColumn rightColumn (left.rows readings store))
      else [] :=
  rfl

theorem Plan.rows_of_inOrder {plan : Plan} (horder : plan.InOrder) :
    (plan.rows readings store : Multiset Row) = plan.relation readings store := by
  induction plan with
  | select id affected projection => rfl
  | join id leftColumn rightColumn projection left right ihLeft ihRight =>
      obtain ⟨hlt, hleft, hright⟩ := horder
      unfold Plan.rows Plan.relation
      rw [if_pos hlt, ← ihLeft hleft, ← ihRight hright, Multiset.coe_product,
        Multiset.filter_coe, Multiset.map_coe]
      congr 1
      simp only [SProd.sprod, List.product, List.filter_flatMap, List.map_flatMap, List.filter_map,
        List.map_map]
      apply List.flatMap_congr
      intro row _
      unfold joinResults joins
      simp only [compareValues_eq_zero_iff]
      rfl

/-- A join that is out of order empties all above it. -/
theorem Plan.rows_of_not_inOrder {plan : Plan} (horder : ¬ plan.InOrder) :
    plan.rows readings store = [] := by
  induction plan with
  | select id affected projection => exact absurd trivial horder
  | join id leftColumn rightColumn projection left right ihLeft ihRight =>
      unfold Plan.rows
      split
      · rename_i hlt
        by_cases hright : right.InOrder
        · have hleft : ¬ left.InOrder := fun hleft => horder ⟨hlt, hleft, hright⟩
          rw [ihLeft hleft]
          simp [joinResults]
        · rw [ihRight hright]
          rfl
      · rfl

end Rows

end Wiselib.Inqp
