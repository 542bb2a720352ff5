import Wiselib.Library.Run
import Wiselib.Library.TreePath

/-!
# The AVL tree

`AVLTree` of `util/pstl/avl_tree.h`.  Nodes carry a value and a balance, the
height of the right subtree minus that of the left one when it is accurate.  A
path of tree nodes is the subtree at its end with the frames above it
(`TreePath`), so that going back up a path rebuilds the tree on the way.

Where the source dereferences a null pointer, or an assertion fails, there is
no result.  `find` asserts that its argument is not null; the values here are
the others.
-/

namespace Wiselib.AvlTree

open TreePath

variable {Value : Type*}

/-- The members `data_` and `balance_`. -/
structure Node (Value : Type*) where
  data : Value
  balance : ℤ
  deriving DecidableEq

abbrev Tree (Value : Type*) := BinaryTree (Node Value)

def isNil : Tree Value → Bool
  | .nil => true
  | .node _ _ _ => false

def child : Tree Value → Side → Tree Value
  | .nil, _ => .nil
  | .node _ left _, .left => left
  | .node _ _ right, .right => right

/-- `+1` on the right. -/
def sign : Side → ℤ
  | .left => -1
  | .right => 1

def Node.heavySide (node : Node Value) : Side := if node.balance < 0 then .left else .right

def Node.addBalance (node : Node Value) (i : ℤ) : Node Value :=
  { node with balance := node.balance + i }

def Node.imbalanced (node : Node Value) : Bool := node.balance ≥ 2 || node.balance ≤ -2

/-- The balance of the node at the root. -/
def balance : Tree Value → ℤ
  | .nil => 0
  | .node node _ _ => node.balance

/-! ## Rotations -/

/-- The height change `rotate` computes from the balances of `a` and `b` before and
after, "the hard way". -/
def rotateHeightChange (s balA balB balA' balB' : ℤ) : ℤ :=
  let z := s * balB' < 0
  let x := s * balA' < 0
  let w := s * balA < 0
  let y := s * balB < 0
  if ¬ z ∧ ¬ w ∧ ¬ y then -1
  else if ¬ z ∧ ¬ w ∧ y then s * balB - 1
  else if ¬ z ∧ w then s * (balA' + balB)
  else if z ∧ ¬ x ∧ ¬ w ∧ ¬ y then -s * balB
  else if z ∧ ¬ x ∧ ¬ w ∧ y then 0
  else if z ∧ ¬ x ∧ w then 1 + s * balA'
  else if z ∧ x ∧ ¬ w ∧ ¬ y then -s * (balA' + balB)
  else if z ∧ x ∧ ¬ w ∧ y then -s * balA'
  else if z ∧ x ∧ w then 1
  else 0

/-- `rotate`: the new subtree and its height change. -/
def rotate : Tree Value → Side → Option (Tree Value × ℤ)
  | .node a t1 (.node b t2 t3), .left =>
      let a' := a.addBalance (-1 - if b.balance ≤ 0 then 0 else b.balance)
      let b' := b.addBalance (-1 + if a'.balance ≥ 0 then 0 else a'.balance)
      some (.node b' (.node a' t1 t2) t3,
        rotateHeightChange 1 a.balance b.balance a'.balance b'.balance)
  | .node a (.node b t3 t2) t1, .right =>
      let a' := a.addBalance (1 - if b.balance ≥ 0 then 0 else b.balance)
      let b' := b.addBalance (1 + if a'.balance ≤ 0 then 0 else a'.balance)
      some (.node b' t3 (.node a' t2 t1),
        rotateHeightChange (-1) a.balance b.balance a'.balance b'.balance)
  | _, _ => none

/-- Whether `rebalance` turns the heavy child first. -/
def innerHeavy (heavyChild : Tree Value) (s : Side) : Bool :=
  match heavyChild with
  | .nil => false
  | .node node left right =>
      !isNil (child (.node node left right) s.other) && node.heavySide = s.other

/-- `rebalance`. -/
def rebalance : Tree Value → Option (Tree Value × ℤ)
  | .nil => none
  | .node node left right => do
      let s := node.heavySide
      let heavyChild := child (.node node left right) s
      if innerHeavy heavyChild s then
        let (x, h) ← rotate heavyChild s
        let turned : Frame (Node Value) :=
          ⟨s, node.addBalance (sign s * h), child (.node node left right) s.other⟩
        let (r, height) ← rotate (turned.attach x) s.other
        return (r, h + height)
      else rotate (.node node left right) s.other

/-! ## Insertion -/

/-- What `insert` does at `base`, whose child on side `s` is `child`: `inserted` is
the result of the recursive call. -/
def insertBelow (data : Value) (base : Node Value) (s : Side) (child sibling : Tree Value)
    (inserted : Option (Tree Value × ℤ × Bool)) : Option (Tree Value × ℤ × Bool) :=
  if isNil child then
    -- `set_child` changes the balance for a child that was null
    let base' := base.addBalance (sign s)
    some ((Frame.mk s base' sibling).attach (.node ⟨data, 0⟩ .nil .nil),
      if base'.balance ≠ 0 then 1 else 0, true)
  else do
    let (child', heightChange, grown) ← inserted
    let base' := base.addBalance (sign s * heightChange)
    let tree := (Frame.mk s base' sibling).attach child'
    if base'.imbalanced then
      let (rebalanced, _) ← rebalance tree
      return (rebalanced, 0, grown)
    else return (tree, if heightChange = 1 ∧ base'.balance ≠ 0 then 1 else 0, grown)

/-- `insert`: the new subtree, its height change and whether a node was allocated. -/
def insert [Ord Value] (data : Value) : Tree Value → Option (Tree Value × ℤ × Bool)
  | .nil => none
  | .node base left right =>
      match compare base.data data with
      | .eq => some (.node base left right, 0, false)
      | .gt => insertBelow data base .left left right (insert data left)
      | .lt => insertBelow data base .right right left (insert data right)

/-! ## Iterators -/

/-- The node at the end of a path that is not empty. -/
structure Position (Value : Type*) where
  path : List (Frame (Node Value))
  node : Node Value
  left : Tree Value
  right : Tree Value

def Position.subtree (position : Position Value) : Tree Value :=
  .node position.node position.left position.right

/-- The end iterator has an empty path. -/
abbrev Iterator (Value : Type*) := Option (Position Value)

/-- Push nodes from `tree` on while there is a left child. -/
def leftmost (path : List (Frame (Node Value))) : Tree Value → Iterator Value
  | .nil => none
  | .node node left right =>
      if isNil left then some ⟨path, node, left, right⟩
      else leftmost (⟨.left, node, right⟩ :: path) left

/-- Pop nodes until the parent is entered from the left. -/
def climb : List (Frame (Node Value)) → Tree Value → Iterator Value
  | [], _ => none
  | frame :: rest, tree =>
      match frame.side with
      | .left => some ⟨rest, frame.label, tree, frame.sibling⟩
      | .right => climb rest (frame.attach tree)

/-- `operator++`. -/
def next : Iterator Value → Iterator Value
  | none => none
  | some position =>
      if isNil position.right then climb position.path position.subtree
      else leftmost (⟨.right, position.node, position.left⟩ :: position.path) position.right

/-- The node equal to `data`, or the parent for an insertion of it. -/
def findFrom [Ord Value] (data : Value) (path : List (Frame (Node Value))) :
    Tree Value → Iterator Value
  | .nil => none
  | .node node left right =>
      match compare node.data data with
      | .gt =>
          if isNil left then some ⟨path, node, left, right⟩
          else findFrom data (⟨.left, node, right⟩ :: path) left
      | .lt =>
          if isNil right then some ⟨path, node, left, right⟩
          else findFrom data (⟨.right, node, left⟩ :: path) right
      | .eq => some ⟨path, node, left, right⟩

/-! ## Removal -/

/-- The height change of a subtree of balance `balance` whose child on the side of
`sign` changes by `hc`. -/
def heightChangeAt (sign balance hc : ℤ) : ℤ :=
  if sign = balance.sign then
    if hc < -balance.natAbs then -balance.natAbs else hc
  else if hc ≥ balance.natAbs then hc - balance.natAbs
  else 0

/-- `rebalance_up`, with the subtree that changed by `hc` in place below `path`: the
new tree at the top of the path and its height change. -/
def rebalanceUp : List (Frame (Node Value)) → Tree Value → ℤ → Option (Tree Value × ℤ)
  | [], tree, hc => some (tree, hc)
  | frame :: rest, tree, hc => do
      let hc' := heightChangeAt (sign frame.side) frame.label.balance hc
      let node := frame.label.addBalance (sign frame.side * hc)
      let n := (Frame.mk frame.side node frame.sibling).attach tree
      if node.imbalanced then
        let (rebalanced, h) ← rebalance n
        rebalanceUp rest rebalanced (hc' + h)
      else rebalanceUp rest n hc'

/-- The branches of `unlink` for a node with at most one child: the new tree and its
height change, `heightChange` being the incoming value. -/
def unlinkHalf (position : Position Value) (heightChange : ℤ) : Option (Tree Value × ℤ) :=
  let leaf := isNil position.left && isNil position.right
  let only := if leaf then .nil else child position.subtree position.node.heavySide
  match position.path with
  | [] => some (only, if leaf then heightChange else -1)
  | path => rebalanceUp path only (-1)

/-- `unlink`. -/
def unlink (position : Position Value) (heightChange : ℤ) : Option (Tree Value) :=
  if isNil position.left || isNil position.right then
    (unlinkHalf position heightChange).map Prod.fst
  else do
    let substitute ← leftmost [] position.right
    -- the substitute has no left child, so that unlinking it takes a branch above
    let (right, heightChangeRight) ← unlinkHalf substitute (-1)
    let node : Node Value := ⟨substitute.node.data, position.node.balance⟩
    match position.path with
    | [] => some (.node (node.addBalance heightChangeRight) position.left right)
    | path =>
        (rebalanceUp (⟨.right, node, position.left⟩ :: path) right heightChangeRight).map Prod.fst

/-! ## The tree -/

/-- The members `root_` and `size_`. -/
structure State (Value : Type*) where
  root : Tree Value
  size : ℕ

def init : State Value := ⟨.nil, 0⟩

def beginInorder (tree : State Value) : Iterator Value := leftmost [] tree.root

def find [Ord Value] (tree : State Value) (data : Value) : Iterator Value :=
  (findFrom data [] tree.root).filter fun position => compare position.node.data data = .eq

/-- `insert_n`. -/
def insertN [Ord Value] (tree : State Value) (data : Value) : Option (State Value) :=
  if isNil tree.root then some ⟨.node ⟨data, 0⟩ .nil .nil, tree.size + 1⟩
  else do
    let (root, _, grown) ← insert data tree.root
    return ⟨root, if grown then tree.size + 1 else tree.size⟩

/-- `erase`. -/
def erase (tree : State Value) (iterator : Iterator Value) : Option (State Value) := do
  let position ← iterator
  let root ← unlink position 0
  return ⟨root, tree.size - 1⟩

inductive Op (Value : Type*) where
  | insert (data : Value)
  | erase (data : Value)

/-- `insert_n(x)` and `erase(find(x))`. -/
def perform [Ord Value] (tree : State Value) : Op Value → Option (State Value)
  | .insert data => insertN tree data
  | .erase data => erase tree (find tree data)

end Wiselib.AvlTree
