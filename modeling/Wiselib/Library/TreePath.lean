import Mathlib

/-!
# Paths in binary trees

A position in a binary tree is the subtree at the position and the list of
frames above it, the nearest first.  A frame is an ancestor without the child
the path goes on to.  `reassemble` puts the tree together again; the in-order
sequence of the whole is that of the subtree between what the frames contribute
before and after it (`inorder_reassemble`).
-/

namespace TreePath

variable {α : Type*}

inductive Side where
  | left
  | right
  deriving DecidableEq

def Side.other : Side → Side
  | .left => .right
  | .right => .left

/-- The labels of a tree in order. -/
def inorder : BinaryTree α → List α
  | .nil => []
  | .node label left right => inorder left ++ label :: inorder right

@[simp] theorem inorder_nil : inorder (.nil : BinaryTree α) = [] := rfl

@[simp] theorem inorder_node (label : α) (left right : BinaryTree α) :
    inorder (.node label left right) = inorder left ++ label :: inorder right := rfl

/-- An ancestor of a position: the side the position is on, the label and the other
child. -/
structure Frame (α : Type*) where
  side : Side
  label : α
  sibling : BinaryTree α

/-- The subtree of the ancestor, with `subtree` as the missing child. -/
def Frame.attach (frame : Frame α) (subtree : BinaryTree α) : BinaryTree α :=
  match frame.side with
  | .left => .node frame.label subtree frame.sibling
  | .right => .node frame.label frame.sibling subtree

/-- The whole tree around `subtree`. -/
def reassemble : List (Frame α) → BinaryTree α → BinaryTree α
  | [], subtree => subtree
  | frame :: rest, subtree => reassemble rest (frame.attach subtree)

/-- The labels in front of the position. -/
def before : List (Frame α) → List α
  | [] => []
  | frame :: rest =>
      match frame.side with
      | .left => before rest
      | .right => before rest ++ inorder frame.sibling ++ [frame.label]

/-- The labels behind the position. -/
def after : List (Frame α) → List α
  | [] => []
  | frame :: rest =>
      match frame.side with
      | .left => frame.label :: inorder frame.sibling ++ after rest
      | .right => after rest

theorem inorder_reassemble (path : List (Frame α)) (subtree : BinaryTree α) :
    inorder (reassemble path subtree) = before path ++ inorder subtree ++ after path := by
  induction path generalizing subtree with
  | nil => simp [reassemble, before, after]
  | cons frame rest ih =>
      obtain ⟨side, label, sibling⟩ := frame
      rw [reassemble, ih]
      cases side <;> simp [Frame.attach, before, after]

end TreePath
