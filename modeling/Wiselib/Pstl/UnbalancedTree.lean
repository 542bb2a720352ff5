import Mathlib.Order.Basic
import Mathlib.Data.List.Basic
import Wiselib.Library.TreePath

/-!
# The unbalanced tree

`UnbalancedTree` of `util/pstl/unbalanced_tree.h`.  The path of an iterator is the
subtree at its end with the frames above it (`TreePath`).  Where the source
dereferences a null pointer there is no result.

## Strategy

The two loops of `operator++` say where the successor of a node is: the first node of
its right subtree (`findStartnode_spec`), or the nearest ancestor that is entered from
the left (`climb_spec`).  `erase` copies the value of the first kind of successor and
takes its node out together with the right subtree of it; a node without a right
child it takes out at its parent, which the root has not.  So one condition on the
node and its successor is left, `Removable` (`erase_right_iff`).
-/

namespace Wiselib.UnbalancedTree

open TreePath

variable {α : Type*}

/-! ## The code -/

/-- The node at the end of a path that is not empty. -/
structure Position (α : Type*) where
  path : List (Frame α)
  value : α
  left : BinaryTree α
  right : BinaryTree α

/-- The end iterator has an empty path. -/
abbrev Iterator (α : Type*) := Option (Position α)

def Position.subtree (position : Position α) : BinaryTree α :=
  .node position.value position.left position.right

/-- The whole tree. -/
def Position.tree (position : Position α) : BinaryTree α :=
  reassemble position.path position.subtree

/-- `find_startnode`: pushes nodes while there is a left child. -/
def findStartnode (path : List (Frame α)) : BinaryTree α → Iterator α
  | .nil => none
  | .node value .nil right => some ⟨path, value, .nil, right⟩
  | .node value (.node value' left' right') right =>
      findStartnode (⟨.left, value, right⟩ :: path) (.node value' left' right')

/-- The inner loop of `operator++`: pops nodes until one is entered from the left. -/
def climb : List (Frame α) → BinaryTree α → Iterator α
  | [], _ => none
  | frame :: rest, tree =>
      match frame.side with
      | .left => some ⟨rest, frame.label, tree, frame.sibling⟩
      | .right => climb rest (frame.attach tree)

/-- `operator++`. -/
def next : Iterator α → Iterator α
  | none => none
  | some position =>
      match position.right with
      | .nil => climb position.path position.subtree
      | right => findStartnode (⟨.right, position.value, position.left⟩ :: position.path) right

/-- `find_parent`, where it finds the value. -/
def findParent [LT α] [DecidableLT α] (value : α) (path : List (Frame α)) :
    BinaryTree α → Iterator α
  | .nil => none
  | .node value' left right =>
      if value < value' then findParent value (⟨.left, value', right⟩ :: path) left
      else if value' < value then findParent value (⟨.right, value', left⟩ :: path) right
      else some ⟨path, value', left, right⟩

/-- `find`. -/
def find [LT α] [DecidableLT α] (tree : BinaryTree α) (value : α) : Iterator α :=
  findParent value [] tree

/-- `replace` of the first node of a subtree by null at its parent. -/
def dropStart : BinaryTree α → BinaryTree α
  | .nil => .nil
  | .node _ .nil _ => .nil
  | .node value (.node value' left' right') right =>
      .node value (dropStart (.node value' left' right')) right

/-- `erase`: the tree and the iterator that it returns. -/
def erase (tree : BinaryTree α) : Iterator α → Option (BinaryTree α × Iterator α)
  | none => some (tree, none)
  | some position =>
      match position.right, position.path with
      | .node value left right, path => do
          let successor ← next (some position)
          -- the node takes the value of its successor, whose parent replaces it by null
          let iter : Position α :=
            ⟨path, successor.value, position.left, dropStart (.node value left right)⟩
          return (iter.tree, some iter)
      | .nil, [] => none
      | .nil, frame :: path =>
          some (reassemble (frame :: path) position.left, climb (frame :: path) position.left)

/-! ## Successors -/

/-- **The first node of a subtree** holds the first value; behind it come those of its right
subtree, and the rest of the subtree. -/
theorem findStartnode_spec (path : List (Frame α)) {tree : BinaryTree α} (htree : tree ≠ .nil) :
    ∃ start, findStartnode path tree = some start ∧
      inorder tree = start.value :: (inorder start.right ++ inorder (dropStart tree)) := by
  induction tree generalizing path with
  | nil => exact absurd rfl htree
  | node value left right ihLeft _ =>
      cases left with
      | nil => exact ⟨_, rfl, by simp [dropStart]⟩
      | node value' left' right' =>
          obtain ⟨start, hstart, hinorder⟩ :=
            ihLeft (⟨.left, value, right⟩ :: path) (fun heq => by cases heq)
          refine ⟨start, hstart, ?_⟩
          rw [inorder_node, hinorder, dropStart, inorder_node, List.cons_append, List.append_assoc]

/-- **The nearest ancestor that is entered from the left** holds the first value behind the
subtree. -/
theorem climb_spec (path : List (Frame α)) (tree : BinaryTree α) :
    match climb path tree with
    | none => after path = []
    | some position => position.tree = reassemble path tree ∧
        after path = position.value :: (inorder position.right ++ after position.path) := by
  induction path generalizing tree with
  | nil => rfl
  | cons frame path ih =>
      obtain ⟨side, value, sibling⟩ := frame
      cases side with
      | left => exact ⟨rfl, rfl⟩
      | right => exact ih _

/-! ## `find` -/

section Find

variable [Preorder α] [DecidableLT α] {tree : BinaryTree α} {value : α}

/-- **`find`** finds the values of a search tree. -/
theorem findParent_spec (hsorted : (inorder tree).Pairwise (· < ·)) (hmem : value ∈ inorder tree)
    (path : List (Frame α)) :
    ∃ position, findParent value path tree = some position ∧ position.value = value ∧
      position.tree = reassemble path tree := by
  induction tree generalizing path with
  | nil => cases hmem
  | node value' left right ihLeft ihRight =>
      rw [inorder_node, List.pairwise_append, List.pairwise_cons] at hsorted
      obtain ⟨hleft, ⟨hbelow, hright⟩, habove⟩ := hsorted
      rw [inorder_node, List.mem_append, List.mem_cons] at hmem
      rcases hmem with hmem | rfl | hmem
      · have hlt : value < value' := habove value hmem value' List.mem_cons_self
        rw [findParent, if_pos hlt]
        exact ihLeft hleft hmem _
      · rw [findParent, if_neg (lt_irrefl value), if_neg (lt_irrefl value)]
        exact ⟨_, rfl, rfl, rfl⟩
      · have hlt : value' < value := hbelow value hmem
        rw [findParent, if_neg (lt_asymm hlt), if_pos hlt]
        exact ihRight hright hmem _

end Find

/-! ## `erase` -/

/-- The iterator stands in the tree in front of the values `rest`. -/
def Iterator.Before (tree : BinaryTree α) (rest : List α) : Iterator α → Prop
  | none => rest = []
  | some position => position.tree = tree ∧
      position.value :: (inorder position.right ++ after position.path) = rest

/-- What `erase` of a value should do: leave the other values in order, and return an iterator to
the next larger one. -/
def Erases [LT α] [DecidableLT α] (tree : BinaryTree α) (value : α) : Prop :=
  ∃ tree' iter front back, erase tree (find tree value) = some (tree', iter) ∧
    inorder tree = front ++ value :: back ∧ inorder tree' = front ++ back ∧
    Iterator.Before tree' back iter

/-- The node has no right child and is not the root, or its successor has no right child. -/
def Position.Removable (position : Position α) : Prop :=
  match position.right with
  | .nil => position.path ≠ []
  | .node _ _ _ => ∀ successor ∈ next (some position), successor.right = .nil

theorem inorder_eq_nil_iff {tree : BinaryTree α} : inorder tree = [] ↔ tree = .nil := by
  cases tree <;> simp

/-- The node with the value of its successor, whose parent has lost it. -/
def Position.replaced (position successor : Position α) : Position α :=
  { position with value := successor.value, right := dropStart position.right }

section Right

variable {position successor : Position α}

theorem next_of_right (hright : position.right ≠ .nil) :
    next (some position) =
      findStartnode (⟨.right, position.value, position.left⟩ :: position.path) position.right := by
  rw [next]
  split
  · rename_i hnil
    exact absurd hnil hright
  · rfl

theorem erase_of_right (tree : BinaryTree α) (hright : position.right ≠ .nil)
    (hnext : next (some position) = some successor) :
    erase tree (some position) =
      some ((position.replaced successor).tree, some (position.replaced successor)) := by
  obtain ⟨path, value, left, right⟩ := position
  cases right with
  | nil => exact absurd rfl hright
  | node value' left' right' =>
      rw [erase, hnext]
      rfl

theorem removable_of_right (hright : position.right ≠ .nil)
    (hnext : next (some position) = some successor) :
    position.Removable ↔ successor.right = .nil := by
  rw [Position.Removable]
  split
  · rename_i hnil
    exact absurd hnil hright
  · rw [hnext]
    exact ⟨fun hall => hall successor rfl, fun hnil other hother => Option.some.inj hother ▸ hnil⟩

end Right

/-- **`erase` of the iterator that `find` returned** is right if and only if the node is
removable. -/
theorem erase_right_iff [Preorder α] [DecidableLT α] {tree : BinaryTree α} {value : α}
    (hsorted : (inorder tree).Pairwise (· < ·)) (hmem : value ∈ inorder tree) :
    ∃ position, find tree value = some position ∧ position.value = value ∧ position.tree = tree ∧
      (Erases tree value ↔ position.Removable) := by
  obtain ⟨position, hfind, hvalue, htree⟩ := findParent_spec hsorted hmem []
  refine ⟨position, hfind, hvalue, htree, ?_⟩
  obtain ⟨path, value', left, right⟩ := position
  obtain rfl : value' = value := hvalue
  obtain rfl : reassemble path (.node value' left right) = tree := htree
  have hinorder := inorder_reassemble path (.node value' left right)
  rw [inorder_node] at hinorder
  have hfind' : find (reassemble path (.node value' left right)) value' =
      some ⟨path, value', left, right⟩ := hfind
  rw [Erases, hfind']
  by_cases hright : right = .nil
  · subst hright
    cases path with
    | nil =>
        refine iff_of_false ?_ fun hne => hne rfl
        rintro ⟨tree', iter, front, back, herase, -⟩
        cases herase
    | cons frame path =>
        refine iff_of_true ?_ (List.cons_ne_nil _ _)
        refine ⟨_, _, before (frame :: path) ++ inorder left, after (frame :: path), rfl, ?_, ?_, ?_⟩
        · rw [hinorder]
          simp
        · rw [inorder_reassemble]
        · have hclimb := climb_spec (frame :: path) left
          cases hiter : climb (frame :: path) left with
          | none =>
              rw [hiter] at hclimb
              exact hclimb
          | some position =>
              rw [hiter] at hclimb
              exact ⟨hclimb.1, hclimb.2.symm⟩
  · obtain ⟨successor, hsuccessor, hstart⟩ :=
      findStartnode_spec (⟨.right, value', left⟩ :: path) hright
    have hnext : next (some ⟨path, value', left, right⟩) = some successor :=
      (next_of_right hright).trans hsuccessor
    have herase := erase_of_right (reassemble path (.node value' left right)) hright hnext
    have hafter : inorder (Position.replaced ⟨path, value', left, right⟩ successor).tree =
        before path ++ (inorder left ++ successor.value :: inorder (dropStart right)) ++
          after path := inorder_reassemble path _
    rw [removable_of_right hright hnext]
    rw [hstart] at hinorder
    constructor
    · rintro ⟨tree', iter', front, back, herase', hold, hnew, -⟩
      obtain ⟨rfl, -⟩ := Prod.mk.inj (Option.some.inj (herase.symm.trans herase'))
      -- the values of the right subtree of the successor are missing
      have hcount := congrArg List.length (hinorder.symm.trans hold)
      have hcount' := congrArg List.length (hafter.symm.trans hnew)
      simp only [List.length_append, List.length_cons] at hcount hcount'
      rw [← inorder_eq_nil_iff, ← List.length_eq_zero_iff]
      omega
    · intro hnil
      rw [hnil, inorder_nil, List.nil_append] at hinorder
      refine ⟨_, _, before path ++ inorder left,
        successor.value :: (inorder (dropStart right) ++ after path), herase, ?_, ?_, rfl, rfl⟩
      · rw [hinorder]
        simp
      · rw [hafter]
        simp

/-- A root with two children, the right one of which has a left child only. -/
theorem erase_right_iff_two :
    ∃ position, find (.node 5 (.node 2 .nil .nil) (.node 8 (.node 6 .nil .nil) .nil)) 5 =
        some position ∧ position.value = 5 ∧
      position.tree = .node 5 (.node 2 .nil .nil) (.node 8 (.node 6 .nil .nil) .nil) ∧
      (Erases (.node 5 (.node 2 .nil .nil) (.node 8 (.node 6 .nil .nil) .nil)) 5 ↔
        position.Removable) :=
  erase_right_iff (by decide) (by decide)

/-- **A root with a right child that has one too**: with 5 the value 9 goes as well. -/
theorem chain_of_three_erase :
    (inorder (.node 5 .nil (.node 8 .nil (.node 9 .nil .nil)))).Pairwise (· < ·) ∧
      ¬ Erases (.node 5 .nil (.node 8 .nil (.node 9 .nil .nil))) 5 := by
  refine ⟨by decide, ?_⟩
  rintro ⟨tree', iter, front, back, herase, hold, hnew, -⟩
  have hcall : erase (.node 5 .nil (.node 8 .nil (.node 9 .nil .nil)))
      (find (.node 5 .nil (.node 8 .nil (.node 9 .nil .nil))) 5) =
        some (.node 8 .nil .nil, some ⟨[], 8, .nil, .nil⟩) := rfl
  obtain ⟨rfl, -⟩ := Prod.mk.inj (Option.some.inj (hcall.symm.trans herase))
  have hcount := congrArg List.length hold
  have hcount' := congrArg List.length hnew
  simp only [inorder_node, inorder_nil, List.length_append, List.length_cons, List.length_nil]
    at hcount hcount'
  omega

end Wiselib.UnbalancedTree
