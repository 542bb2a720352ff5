import Wiselib.Pstl.AvlTree

/-!
# Rebalancing AVL trees

What `rotate`, `rebalance` and `rebalance_up` do to trees whose balances are
accurate.  `rebalance` turns the heavy child first when that child leans the
other way, and `heavy_side` takes a balanced child for one that leans to the
right.  On the right this is harmless.  On the left it turns a balanced child,
which leaves a tree that is not an AVL tree when the right child of that child
leans to the right; `rebalance_left` needs the contrary.
-/

namespace Wiselib.AvlTree

open TreePath

variable {Value : Type*}

/-- The values of a tree in order. -/
def values (tree : Tree Value) : List Value := (inorder tree).map Node.data

@[simp] theorem values_nil : values (.nil : Tree Value) = [] := rfl

@[simp] theorem values_node (node : Node Value) (left right : Tree Value) :
    values (.node node left right) = values left ++ node.data :: values right := by
  simp [values]

/-- All balances are accurate and between -1 and 1. -/
def Avl : Tree Value → Prop
  | .nil => True
  | .node node left right =>
      node.balance = right.height - left.height ∧ -1 ≤ node.balance ∧ node.balance ≤ 1 ∧
        Avl left ∧ Avl right

theorem avl_node {node : Node Value} {left right : Tree Value} :
    Avl (.node node left right) ↔ node.balance = right.height - left.height ∧
      -1 ≤ node.balance ∧ node.balance ≤ 1 ∧ Avl left ∧ Avl right := Iff.rfl

@[simp] theorem isNil_iff {tree : Tree Value} : isNil tree = true ↔ tree = .nil := by
  cases tree <;> simp [isNil]

theorem height_node (node : Node Value) (left right : Tree Value) :
    (BinaryTree.node node left right).height = max left.height right.height + 1 := rfl

theorem imbalanced_iff {node : Node Value} :
    node.imbalanced = true ↔ 2 ≤ node.balance ∨ node.balance ≤ -2 := by
  simp [Node.imbalanced]

/-! ## A single rebalancing -/

section Evaluation

variable (x y z : Value) (t1 t2 t3 t21 t22 : Tree Value)

theorem rebalance_eq_right_single {bal : ℤ} (hbal : bal = 0 ∨ bal = 1) :
    rebalance (.node ⟨x, 2⟩ t1 (.node ⟨y, bal⟩ t2 t3)) =
      some (.node ⟨y, bal - 1⟩ (.node ⟨x, 1 - bal⟩ t1 t2) t3, -bal) := by
  rcases hbal with rfl | rfl <;>
    simp [rebalance, rotate, innerHeavy, Node.heavySide, child, Side.other, Node.addBalance,
      rotateHeightChange]

theorem rebalance_eq_right_double {bal : ℤ} (hbal : bal = -1 ∨ bal = 0 ∨ bal = 1) :
    rebalance (.node ⟨x, 2⟩ t1 (.node ⟨y, -1⟩ (.node ⟨z, bal⟩ t21 t22) t3)) =
      some (.node ⟨z, 0⟩ (.node ⟨x, -max bal 0⟩ t1 t21) (.node ⟨y, -min bal 0⟩ t22 t3), -1) := by
  rcases hbal with rfl | rfl | rfl <;>
    simp [rebalance, rotate, innerHeavy, Node.heavySide, child, isNil, Side.other,
      Node.addBalance, rotateHeightChange, sign, Frame.attach]

theorem rebalance_eq_left_single :
    rebalance (.node ⟨x, -2⟩ (.node ⟨y, -1⟩ t3 t2) t1) =
      some (.node ⟨y, 0⟩ t3 (.node ⟨x, 0⟩ t2 t1), -1) := by
  simp [rebalance, rotate, innerHeavy, Node.heavySide, child, Side.other, Node.addBalance,
    rotateHeightChange]

theorem rebalance_eq_left_double {bal : ℤ} (hbal : bal = -1 ∨ bal = 0 ∨ bal = 1) :
    rebalance (.node ⟨x, -2⟩ (.node ⟨y, 1⟩ t3 (.node ⟨z, bal⟩ t21 t22)) t1) =
      some (.node ⟨z, 0⟩ (.node ⟨y, -max bal 0⟩ t3 t21) (.node ⟨x, -min bal 0⟩ t22 t1), -1) := by
  rcases hbal with rfl | rfl | rfl <;>
    simp [rebalance, rotate, innerHeavy, Node.heavySide, child, isNil, Side.other,
      Node.addBalance, rotateHeightChange, sign, Frame.attach]

/-- The left child is balanced, which `heavy_side` takes for leaning to the right. -/
theorem rebalance_eq_left_balanced {bal : ℤ} (hbal : bal = -1 ∨ bal = 0) :
    rebalance (.node ⟨x, -2⟩ (.node ⟨y, 0⟩ t3 (.node ⟨z, bal⟩ t21 t22)) t1) =
      some (.node ⟨z, -1⟩ (.node ⟨y, -1⟩ t3 t21) (.node ⟨x, -bal⟩ t22 t1), 0) := by
  rcases hbal with rfl | rfl <;>
    simp [rebalance, rotate, innerHeavy, Node.heavySide, child, isNil, Side.other,
      Node.addBalance, rotateHeightChange, sign, Frame.attach]

/-- The left child is balanced, and its right child leans to the right. -/
theorem rebalance_eq_left_broken :
    rebalance (.node ⟨x, -2⟩ (.node ⟨y, 0⟩ t3 (.node ⟨z, 1⟩ t21 t22)) t1) =
      some (.node ⟨z, -1⟩ (.node ⟨y, -2⟩ t3 t21) (.node ⟨x, 0⟩ t22 t1), 0) := by
  simp [rebalance, rotate, innerHeavy, Node.heavySide, child, isNil, Side.other,
    Node.addBalance, rotateHeightChange, sign, Frame.attach]

end Evaluation

/-- What rebalancing gives: an AVL tree of the same values, lower by one unless the
heavy child was balanced. -/
def Rebalanced (tree heavyChild : Tree Value) (result : Option (Tree Value × ℤ)) : Prop :=
  ∃ tree' h, result = some (tree', h) ∧ Avl tree' ∧ values tree' = values tree ∧
    (tree'.height : ℤ) = tree.height + h ∧ h = if balance heavyChild = 0 then 0 else -1

theorem rebalance_right {node : Node Value} {left right : Tree Value} (hleft : Avl left)
    (hright : Avl right) (hheight : right.height = left.height + 2) (hbalance : node.balance = 2) :
    Rebalanced (.node node left right) right (rebalance (.node node left right)) := by
  obtain ⟨x, bal⟩ := node
  obtain rfl : bal = 2 := hbalance
  cases right with
  | nil => simp at hheight
  | node b t2 t3 =>
      obtain ⟨y, b⟩ := b
      obtain ⟨hb, hlow, hhigh, ht2, ht3⟩ := hright
      dsimp only at hb hlow hhigh
      rw [height_node] at hheight
      by_cases hdouble : b = -1
      · subst hdouble
        cases t2 with
        | nil =>
            rw [BinaryTree.height] at hb hheight
            omega
        | node c t21 t22 =>
            obtain ⟨z, c⟩ := c
            obtain ⟨hc, hclow, hchigh, ht21, ht22⟩ := ht2
            dsimp only at hc hclow hchigh
            refine ⟨_, _, rebalance_eq_right_double x y z left t3 t21 t22 (by omega), ?_, ?_, ?_, ?_⟩
            · simp only [avl_node, height_node] at hb hheight ⊢
              refine ⟨?_, ?_, ?_, ⟨?_, ?_, ?_, hleft, ht21⟩, ?_, ?_, ?_, ht22, ht3⟩ <;> omega
            · simp
            · simp only [height_node] at hb hheight ⊢
              omega
            · simp [balance]
      · refine ⟨_, _, rebalance_eq_right_single x y left t2 t3 (by omega), ?_, ?_, ?_, ?_⟩
        · simp only [avl_node, height_node]
          refine ⟨?_, ?_, ?_, ⟨?_, ?_, ?_, hleft, ht2⟩, ht3⟩ <;> omega
        · simp
        · simp only [height_node]
          omega
        · simp only [balance]
          split_ifs <;> omega

theorem rebalance_left {node : Node Value} {left right : Tree Value} (hleft : Avl left)
    (hright : Avl right) (hheight : left.height = right.height + 2) (hbalance : node.balance = -2)
    (hinner : balance left = 0 → balance (child left .right) ≠ 1) :
    Rebalanced (.node node left right) left (rebalance (.node node left right)) := by
  obtain ⟨x, bal⟩ := node
  obtain rfl : bal = -2 := hbalance
  cases left with
  | nil => simp at hheight
  | node b t3 t2 =>
      obtain ⟨y, b⟩ := b
      obtain ⟨hb, hlow, hhigh, ht3, ht2⟩ := hleft
      dsimp only at hb hlow hhigh
      rw [height_node] at hheight
      by_cases hsingle : b = -1
      · subst hsingle
        refine ⟨_, _, rebalance_eq_left_single x y right t2 t3, ?_, ?_, ?_, ?_⟩
        · simp only [avl_node, height_node]
          refine ⟨?_, ?_, ?_, ht3, ?_, ?_, ?_, ht2, hright⟩ <;> omega
        · simp
        · simp only [height_node]
          omega
        · simp [balance]
      · cases t2 with
        | nil =>
            rw [BinaryTree.height] at hb hheight
            omega
        | node c t21 t22 =>
            obtain ⟨z, c⟩ := c
            obtain ⟨hc, hclow, hchigh, ht21, ht22⟩ := ht2
            dsimp only at hc hclow hchigh
            by_cases hdouble : b = 1
            · subst hdouble
              refine ⟨_, _, rebalance_eq_left_double x y z right t3 t21 t22 (by omega), ?_, ?_, ?_, ?_⟩
              · simp only [avl_node, height_node] at hb hheight ⊢
                refine ⟨?_, ?_, ?_, ⟨?_, ?_, ?_, ht3, ht21⟩, ?_, ?_, ?_, ht22, hright⟩ <;> omega
              · simp
              · simp only [height_node] at hb hheight ⊢
                omega
              · simp [balance]
            · obtain rfl : b = 0 := by omega
              have hc' : c ≠ 1 := hinner rfl
              refine ⟨_, _, rebalance_eq_left_balanced x y z right t3 t21 t22 (by omega), ?_, ?_, ?_, ?_⟩
              · simp only [avl_node, height_node] at hb hheight ⊢
                refine ⟨?_, ?_, ?_, ⟨?_, ?_, ?_, ht3, ht21⟩, ?_, ?_, ?_, ht22, hright⟩ <;> omega
              · simp
              · simp only [height_node] at hb hheight ⊢
                omega
              · simp [balance]

/-! ## Rebalancing a path -/

/-- The frames of a path to an AVL tree of height `h` make an AVL tree around it. -/
def AvlPath : List (Frame (Node Value)) → ℕ → Prop
  | [], _ => True
  | frame :: rest, h =>
      frame.label.balance = sign frame.side * (h - frame.sibling.height) ∧
        -1 ≤ frame.label.balance ∧ frame.label.balance ≤ 1 ∧ Avl frame.sibling ∧
        AvlPath rest (max h frame.sibling.height + 1)

/-- The height of the whole tree around a subtree of height `h`. -/
def pathHeight : List (Frame (Node Value)) → ℕ → ℕ
  | [], h => h
  | frame :: rest, h => pathHeight rest (max h frame.sibling.height + 1)

theorem height_attach (frame : Frame (Node Value)) (tree : Tree Value) :
    (frame.attach tree).height = max tree.height frame.sibling.height + 1 := by
  obtain ⟨side, node, sibling⟩ := frame
  cases side
  · exact height_node _ _ _
  · exact (height_node _ _ _).trans (by rw [max_comm])

theorem height_reassemble (path : List (Frame (Node Value))) (tree : Tree Value) :
    (reassemble path tree).height = pathHeight path tree.height := by
  induction path generalizing tree with
  | nil => rfl
  | cons frame rest ih => rw [reassemble, ih, height_attach, pathHeight]

theorem avl_attach (frame : Frame (Node Value)) (tree : Tree Value) :
    Avl (frame.attach tree) ↔
      frame.label.balance = sign frame.side * (tree.height - frame.sibling.height) ∧
        -1 ≤ frame.label.balance ∧ frame.label.balance ≤ 1 ∧ Avl frame.sibling ∧ Avl tree := by
  obtain ⟨side, node, sibling⟩ := frame
  cases side <;> simp only [Frame.attach, avl_node, sign]
  · constructor
    · rintro ⟨hbal, hlow, hhigh, htree, hsibling⟩
      exact ⟨by omega, hlow, hhigh, hsibling, htree⟩
    · rintro ⟨hbal, hlow, hhigh, hsibling, htree⟩
      exact ⟨by omega, hlow, hhigh, htree, hsibling⟩
  · rw [one_mul]

theorem avl_reassemble {path : List (Frame (Node Value))} {tree : Tree Value} :
    Avl (reassemble path tree) ↔ Avl tree ∧ AvlPath path tree.height := by
  induction path generalizing tree with
  | nil => simp [reassemble, AvlPath]
  | cons frame rest ih =>
      rw [reassemble, ih, avl_attach, height_attach, AvlPath]
      tauto

/-- The values of the tree that `path` makes around a tree with the values `middle`. -/
def valuesAround (path : List (Frame (Node Value))) (middle : List Value) : List Value :=
  (before path).map Node.data ++ middle ++ (after path).map Node.data

theorem values_reassemble (path : List (Frame (Node Value))) (tree : Tree Value) :
    values (reassemble path tree) = valuesAround path (values tree) := by
  simp [values, valuesAround, inorder_reassemble]

theorem valuesAround_cons (frame : Frame (Node Value)) (node : Node Value)
    (hdata : node.data = frame.label.data) (rest : List (Frame (Node Value)))
    (tree : Tree Value) :
    valuesAround rest (values ((Frame.mk frame.side node frame.sibling).attach tree)) =
      valuesAround (frame :: rest) (values tree) := by
  obtain ⟨side, label, sibling⟩ := frame
  dsimp only at hdata
  cases side <;> simp [Frame.attach, valuesAround, before, after, values, hdata]

/-- Whether the subtree at a frame gets lower when the child below does. -/
def lowersAt (frame : Frame (Node Value)) : Bool :=
  frame.label.balance != 0 &&
    (frame.label.balance == sign frame.side || balance frame.sibling != 0)

/-- Whether the tree gets lower when the subtree below the path does. -/
def lowers (path : List (Frame (Node Value))) : Bool := path.all lowersAt

/-- The node at the frame does not lean to a balanced left child whose right child
leans to the right, while the path goes on to the right. -/
def IntactAt (frame : Frame (Node Value)) : Prop :=
  frame.side = .right → frame.label.balance = -1 → balance frame.sibling = 0 →
    balance (child frame.sibling .right) ≠ 1

instance (frame : Frame (Node Value)) : Decidable (IntactAt frame) :=
  inferInstanceAs (Decidable (_ → _ → _ → _))

/-- All nodes whose child on the path gets lower are `IntactAt`. -/
def Intact : List (Frame (Node Value)) → Prop
  | [] => True
  | frame :: rest => IntactAt frame ∧ (lowersAt frame = true → Intact rest)

instance decidableIntact : (path : List (Frame (Node Value))) → Decidable (Intact path)
  | [] => .isTrue trivial
  | _ :: rest =>
      have := decidableIntact rest
      inferInstanceAs (Decidable (_ ∧ (_ → _)))

theorem heightChangeAt_zero (s b : ℤ) : heightChangeAt s b 0 = 0 := by
  unfold heightChangeAt
  split_ifs <;> omega

theorem heightChangeAt_neg_one {s b : ℤ} (hs : s = 1 ∨ s = -1) (hlow : -1 ≤ b) (hhigh : b ≤ 1) :
    heightChangeAt s b (-1) = if b = s then -1 else 0 := by
  obtain rfl | rfl | rfl : b = -1 ∨ b = 0 ∨ b = 1 := by omega
  all_goals rcases hs with rfl | rfl <;> decide

theorem rebalanceUp_zero {path : List (Frame (Node Value))} {tree : Tree Value}
    (hpath : AvlPath path tree.height) :
    rebalanceUp path tree 0 = some (reassemble path tree, 0) := by
  induction path generalizing tree with
  | nil => rfl
  | cons frame rest ih =>
      obtain ⟨side, node, sibling⟩ := frame
      obtain ⟨-, hlow, hhigh, -, hrest⟩ := hpath
      dsimp only at hlow hhigh
      have hsame : node.addBalance (sign side * 0) = node := by
        simp [Node.addBalance]
      have hbalanced : ¬ node.imbalanced = true := by
        rw [imbalanced_iff]
        omega
      rw [rebalanceUp, heightChangeAt_zero, hsame]
      dsimp only
      rw [if_neg hbalanced, reassemble]
      refine ih ?_
      rw [height_attach]
      exact hrest

theorem values_attach_addBalance (side : Side) (node : Node Value) (i : ℤ)
    (sibling tree : Tree Value) :
    values ((Frame.mk side (node.addBalance i) sibling).attach tree) =
      values ((Frame.mk side node sibling).attach tree) := by
  cases side <;> simp [Frame.attach, Node.addBalance]

/-- A node whose new balance is in order keeps its place, and is lower by one if this
was its higher child. -/
private theorem rebalanceUp_cons_of_balanced {side : Side} {node : Node Value}
    {sibling tree : Tree Value} (htree : Avl tree) (hsibling : Avl sibling)
    (hbal : node.balance = sign side * ((tree.height : ℤ) + 1 - sibling.height))
    (hlow : -1 ≤ node.balance) (hhigh : node.balance ≤ 1) (hnot : node.balance ≠ -sign side)
    (rest : List (Frame (Node Value))) :
    ∃ n hc, rebalanceUp (⟨side, node, sibling⟩ :: rest) tree (-1) = rebalanceUp rest n hc ∧
      Avl n ∧ values n = values ((Frame.mk side node sibling).attach tree) ∧
      (n.height : ℤ) = (max (tree.height + 1) sibling.height + 1 : ℕ) + hc ∧
      hc = if lowersAt ⟨side, node, sibling⟩ then -1 else 0 := by
  have hsign : sign side = 1 ∨ sign side = -1 := by cases side <;> simp [sign]
  have hnew : (node.addBalance (sign side * -1)).balance = node.balance - sign side := by
    simp only [Node.addBalance]
    omega
  have hbalanced : ¬ (node.addBalance (sign side * -1)).imbalanced = true := by
    rw [imbalanced_iff, hnew]
    omega
  refine ⟨(Frame.mk side (node.addBalance (sign side * -1)) sibling).attach tree,
    if node.balance = sign side then -1 else 0, ?_, ?_, values_attach_addBalance _ _ _ _ _, ?_, ?_⟩
  · rw [rebalanceUp, heightChangeAt_neg_one hsign hlow hhigh]
    dsimp only
    rw [if_neg hbalanced]
  · rw [avl_attach]
    dsimp only
    refine ⟨?_, ?_, ?_, hsibling, htree⟩ <;> rw [hnew]
    · rcases hsign with hside | hside <;> rw [hside] at hbal ⊢ <;> omega
    · omega
    · omega
  · rw [height_attach]
    dsimp only
    split_ifs with hsame
    all_goals
      rcases hsign with hside | hside <;> rw [hside] at hbal hsame hnot <;> push_cast <;> omega
  · unfold lowersAt
    by_cases hzero : node.balance = 0
    · rw [if_neg (by omega)]
      simp [hzero]
    · have hsame : node.balance = sign side := by omega
      simp [hsame, show sign side ≠ 0 by omega]

private theorem rebalanceUp_cons_of_imbalanced {side : Side} {node : Node Value}
    {sibling tree : Tree Value} (htree : Avl tree) (hsibling : Avl sibling)
    (hbal : node.balance = sign side * ((tree.height : ℤ) + 1 - sibling.height))
    (hopposite : node.balance = -sign side) (hintact : IntactAt ⟨side, node, sibling⟩)
    (rest : List (Frame (Node Value))) :
    ∃ n hc, rebalanceUp (⟨side, node, sibling⟩ :: rest) tree (-1) = rebalanceUp rest n hc ∧
      Avl n ∧ values n = values ((Frame.mk side node sibling).attach tree) ∧
      (n.height : ℤ) = (max (tree.height + 1) sibling.height + 1 : ℕ) + hc ∧
      hc = if lowersAt ⟨side, node, sibling⟩ then -1 else 0 := by
  have hsign : sign side = 1 ∨ sign side = -1 := by cases side <;> simp [sign]
  have hnew : (node.addBalance (sign side * -1)).balance = -2 * sign side := by
    simp only [Node.addBalance]
    omega
  have himbalanced : (node.addBalance (sign side * -1)).imbalanced = true := by
    rw [imbalanced_iff, hnew]
    omega
  have hhigher : sibling.height = tree.height + 2 := by
    rcases hsign with hside | hside <;> rw [hside] at hbal hopposite <;> omega
  have hrebalanced : Rebalanced
      ((Frame.mk side (node.addBalance (sign side * -1)) sibling).attach tree) sibling
      (rebalance ((Frame.mk side (node.addBalance (sign side * -1)) sibling).attach tree)) := by
    cases side with
    | left => exact rebalance_right htree hsibling hhigher hnew
    | right => exact rebalance_left hsibling htree hhigher hnew (hintact rfl hopposite)
  obtain ⟨n, h, hn, havl, hvalues, hheight, hh⟩ := hrebalanced
  refine ⟨n, h, ?_, havl, hvalues.trans (values_attach_addBalance _ _ _ _ _), ?_, ?_⟩
  · have hchange : heightChangeAt (sign side) node.balance (-1) = 0 := by
      rw [heightChangeAt_neg_one hsign (by omega) (by omega), if_neg (by omega)]
    rw [rebalanceUp]
    dsimp only
    rw [if_pos himbalanced, hn, hchange]
    simp
  · rw [height_attach] at hheight
    dsimp only at hheight
    push_cast
    omega
  · rw [hh]
    unfold lowersAt
    have hzero : node.balance ≠ 0 := by omega
    have hother : node.balance ≠ sign side := by omega
    by_cases hbalanced : balance sibling = 0 <;> simp [hbalanced, hzero, hother]

theorem rebalanceUp_cons {frame : Frame (Node Value)} {rest : List (Frame (Node Value))}
    {tree : Tree Value} (htree : Avl tree) (hpath : AvlPath (frame :: rest) (tree.height + 1))
    (hintact : IntactAt frame) :
    ∃ n hc, rebalanceUp (frame :: rest) tree (-1) = rebalanceUp rest n hc ∧
      Avl n ∧ values n = values (frame.attach tree) ∧
      (n.height : ℤ) = (max (tree.height + 1) frame.sibling.height + 1 : ℕ) + hc ∧
      hc = if lowersAt frame then -1 else 0 := by
  obtain ⟨hbal, hlow, hhigh, hsibling, -⟩ := hpath
  push_cast at hbal
  by_cases hopposite : frame.label.balance = -sign frame.side
  · exact rebalanceUp_cons_of_imbalanced htree hsibling hbal hopposite hintact rest
  · exact rebalanceUp_cons_of_balanced htree hsibling hbal hlow hhigh hopposite rest

/-- When the subtree below an intact path gets lower by one, `rebalance_up` makes an
AVL tree of the same values, lower by one where `lowers` says so. -/
theorem rebalanceUp_spec {path : List (Frame (Node Value))} {tree : Tree Value} (htree : Avl tree)
    (hpath : AvlPath path (tree.height + 1)) (hintact : Intact path) :
    ∃ tree' hc, rebalanceUp path tree (-1) = some (tree', hc) ∧ Avl tree' ∧
      values tree' = valuesAround path (values tree) ∧
      (tree'.height : ℤ) = pathHeight path (tree.height + 1) + hc ∧
      hc = if lowers path then -1 else 0 := by
  induction path generalizing tree with
  | nil => exact ⟨tree, -1, rfl, htree, by simp [valuesAround, before, after], by simp [pathHeight],
      rfl⟩
  | cons frame rest ih =>
      obtain ⟨n, hc, heq, hn, hvalues, hheight, hhc⟩ := rebalanceUp_cons htree hpath hintact.1
      obtain ⟨-, -, -, -, hrest⟩ := hpath
      rw [heq, pathHeight, ← valuesAround_cons frame frame.label rfl]
      change ∃ tree' hc', _ ∧ _ ∧ values tree' = valuesAround rest (values (frame.attach tree)) ∧ _
      rw [← hvalues]
      cases hlowers : lowersAt frame with
      | false =>
          -- nothing changes any more above the frame
          obtain rfl : hc = 0 := by simpa [hlowers] using hhc
          have hsame : n.height = max (tree.height + 1) frame.sibling.height + 1 := by omega
          rw [← hsame] at hrest ⊢
          exact ⟨_, 0, rebalanceUp_zero hrest, avl_reassemble.2 ⟨hn, hrest⟩,
            values_reassemble rest n, by simp [height_reassemble], by simp [lowers, hlowers]⟩
      | true =>
          obtain rfl : hc = -1 := by simpa [hlowers] using hhc
          have hlower : n.height + 1 = max (tree.height + 1) frame.sibling.height + 1 := by omega
          rw [← hlower] at hrest ⊢
          simpa [lowers, hlowers] using ih hn hrest (hintact.2 hlowers)

/-- A frame that is not intact gets a subtree that is no AVL tree, and nothing
changes above it. -/
private theorem rebalanceUp_cons_broken {frame : Frame (Node Value)}
    {rest : List (Frame (Node Value))} {tree : Tree Value}
    (hpath : AvlPath (frame :: rest) (tree.height + 1)) (hbroken : ¬ IntactAt frame) :
    ∃ n, rebalanceUp (frame :: rest) tree (-1) = rebalanceUp rest n 0 ∧ ¬ Avl n ∧
      n.height = max (tree.height + 1) frame.sibling.height + 1 := by
  obtain ⟨side, ⟨x, bal⟩, sibling⟩ := frame
  obtain ⟨hbal, -, -, hsibling, -⟩ := hpath
  simp only [IntactAt, not_forall, not_not] at hbroken
  obtain ⟨rfl, rfl, hsame, hinner⟩ := hbroken
  dsimp only at hbal hsibling
  rw [sign, one_mul] at hbal
  cases sibling with
  | nil =>
      rw [BinaryTree.height] at hbal
      push_cast at hbal
      omega
  | node b t3 t2 =>
      obtain ⟨y, b⟩ := b
      obtain rfl : b = 0 := hsame
      cases t2 with
      | nil => simp [child, balance] at hinner
      | node c t21 t22 =>
          obtain ⟨z, c⟩ := c
          obtain rfl : c = 1 := hinner
          obtain ⟨hb, -, -, -, hc, -, -, -, -⟩ := hsibling
          dsimp only at hb hc
          refine ⟨.node ⟨z, -1⟩ (.node ⟨y, -2⟩ t3 t21) (.node ⟨x, 0⟩ t22 tree), ?_, ?_, ?_⟩
          · have hnew : (Node.mk x (-1)).addBalance (sign .right * -1) = ⟨x, -2⟩ := rfl
            rw [rebalanceUp]
            dsimp only
            rw [hnew, if_pos (by rfl), Frame.attach, rebalance_eq_left_broken]
            rfl
          · simp [avl_node]
          · simp only [height_node] at hb hc hbal ⊢
            push_cast at hb hc hbal
            omega

/-- If the path is not intact, `rebalance_up` makes a tree that is no AVL tree, as
high as before. -/
theorem rebalanceUp_broken {path : List (Frame (Node Value))} {tree : Tree Value}
    (htree : Avl tree) (hpath : AvlPath path (tree.height + 1)) (hbroken : ¬ Intact path) :
    ∃ tree', rebalanceUp path tree (-1) = some (tree', 0) ∧ ¬ Avl tree' ∧
      tree'.height = pathHeight path (tree.height + 1) := by
  induction path generalizing tree with
  | nil => exact absurd trivial hbroken
  | cons frame rest ih =>
      have hrest : AvlPath rest (max (tree.height + 1) frame.sibling.height + 1) := hpath.2.2.2.2
      by_cases hat : IntactAt frame
      · -- the frame passes on that the subtree got lower
        have hlowers : lowersAt frame = true := by
          by_contra hlowers
          exact hbroken ⟨hat, fun hlowers' => absurd hlowers' hlowers⟩
        have hbroken' : ¬ Intact rest := fun hintact => hbroken ⟨hat, fun _ => hintact⟩
        obtain ⟨n, hc, heq, hn, -, hheight, hhc⟩ := rebalanceUp_cons htree hpath hat
        obtain rfl : hc = -1 := by simpa [hlowers] using hhc
        have hlower : n.height + 1 = max (tree.height + 1) frame.sibling.height + 1 := by omega
        rw [heq, pathHeight]
        rw [← hlower] at hrest ⊢
        exact ih hn hrest hbroken'
      · obtain ⟨n, heq, hn, hheight⟩ := rebalanceUp_cons_broken hpath hat
        rw [heq, pathHeight]
        rw [← hheight] at hrest ⊢
        refine ⟨reassemble rest n, rebalanceUp_zero hrest, ?_, height_reassemble rest n⟩
        exact fun havl => hn (avl_reassemble.1 havl).1

end Wiselib.AvlTree
