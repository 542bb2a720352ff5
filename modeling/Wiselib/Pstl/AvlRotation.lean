import Wiselib.Pstl.AvlBalance

/-!
# A rotation of a tree of any balance

`rotate` of `util/pstl/avl_tree.h` does not know the heights of the subtrees; it computes the
new balances and the height change from the two old balances.  The balances may be any height
differences, as they are when a subtree is turned before its parent.

## Strategy

With heights in place of the balances the nine cases of the height change are one formula
(`rotateHeightChange_eq`).  A rotation to the right has the signs of all balances changed
(`rotateHeightChange_neg`).
-/

namespace Wiselib.AvlTree

open TreePath

variable {Value : Type*}

/-- The balance at the root is the height difference of the subtrees. -/
def Accurate : Tree Value → Prop
  | .nil => True
  | .node node left right => node.balance = right.height - left.height

theorem accurate_node {node : Node Value} {left right : Tree Value} :
    Accurate (.node node left right) ↔ node.balance = right.height - left.height := Iff.rfl

/-! ## Heights in place of the balances -/

section Heights

variable (h1 h2 h3 : ℤ)

theorem rotated_balance :
    (max h2 h3 + 1 - h1) + (-1 - if h3 - h2 ≤ 0 then 0 else h3 - h2) = h2 - h1 := by
  split_ifs with hb
  · rw [max_eq_left (by omega)]
    omega
  · rw [max_eq_right (by omega)]
    omega

theorem rotated_balance_top :
    (h3 - h2) + (-1 + if h2 - h1 ≥ 0 then 0 else h2 - h1) = h3 - (max h1 h2 + 1) := by
  split_ifs with ha
  · rw [max_eq_right (by omega)]
    omega
  · rw [max_eq_left (by omega)]
    omega

/-- **The nine cases** are the difference of the heights before and after. -/
theorem rotateHeightChange_eq :
    rotateHeightChange 1 (max h2 h3 + 1 - h1) (h3 - h2) (h2 - h1) (h3 - (max h1 h2 + 1)) =
      max (max h1 h2 + 1) h3 - max h1 (max h2 h3 + 1) := by
  simp only [rotateHeightChange, one_mul]
  split_ifs <;> omega

/-! ### The other direction -/

theorem rotateHeightChange_neg (balA balB balA' balB' : ℤ) :
    rotateHeightChange (-1) (-balA) (-balB) (-balA') (-balB') =
      rotateHeightChange 1 balA balB balA' balB' := by
  simp only [rotateHeightChange, neg_mul, one_mul, neg_neg, mul_neg, ← neg_add]

theorem rotated_balance_neg (balA balB : ℤ) :
    -balA + (1 - if -balB ≥ 0 then 0 else -balB) =
      -(balA + (-1 - if balB ≤ 0 then 0 else balB)) := by
  split_ifs <;> omega

theorem rotated_balance_top_neg (balA balB : ℤ) :
    -balB + (1 + if -balA ≤ 0 then 0 else -balA) =
      -(balB + (-1 + if balA ≥ 0 then 0 else balA)) := by
  split_ifs <;> omega

end Heights

/-! ## The two directions -/

section Directions

variable {a b : Node Value} {t1 t2 t3 : Tree Value}

/-- The height change of a rotation: `a` with `t1` and `b` before, `b` with `a` and `t3` after. -/
def rotatedHeight (t1 t2 t3 : Tree Value) : ℤ :=
  max (max t1.height t2.height + 1) t3.height - max (t1.height : ℤ) (max t2.height t3.height + 1)

theorem rotate_left_eq (ha : Accurate (.node a t1 (.node b t2 t3)))
    (hb : Accurate (.node b t2 t3)) :
    rotate (.node a t1 (.node b t2 t3)) .left =
      some (.node ⟨b.data, t3.height - (max t1.height t2.height + 1)⟩
        (.node ⟨a.data, t2.height - t1.height⟩ t1 t2) t3, rotatedHeight t1 t2 t3) := by
  rw [accurate_node] at ha hb
  rw [height_node] at ha
  push_cast at ha
  simp only [rotate, Node.addBalance, ha, hb, rotated_balance, rotated_balance_top,
    rotateHeightChange_eq, rotatedHeight, Nat.cast_max, Nat.cast_add, Nat.cast_one]

theorem rotate_right_eq (ha : Accurate (.node a (.node b t3 t2) t1))
    (hb : Accurate (.node b t3 t2)) :
    rotate (.node a (.node b t3 t2) t1) .right =
      some (.node ⟨b.data, -(t3.height - (max t1.height t2.height + 1))⟩ t3
        (.node ⟨a.data, -(t2.height - t1.height)⟩ t2 t1), rotatedHeight t1 t2 t3) := by
  rw [accurate_node] at ha hb
  have ha' : a.balance = -(max t2.height t3.height + 1 - t1.height) := by
    rw [ha, height_node, max_comm]
    push_cast
    ring
  rw [Nat.cast_max] at ha'
  have hb' : b.balance = -(t3.height - t2.height) := by
    rw [hb]
    ring
  simp only [rotate, Node.addBalance, ha', hb', rotated_balance_neg, rotated_balance_top_neg,
    rotated_balance, rotated_balance_top, rotateHeightChange_neg, rotateHeightChange_eq,
    rotatedHeight, Nat.cast_max, Nat.cast_add, Nat.cast_one]

end Directions

end Wiselib.AvlTree
