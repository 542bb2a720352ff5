import Wiselib.Pstl.AvlRuns

/-!
# Single operations of the AVL tree

A tree is `Valid` when its values are in strict order, every balance is the
difference of the heights and at most one, and the size is the number of values.

* `insertNode_valid`: `insert_n` makes a valid tree of a valid tree, with one more
  value or the same tree if the value was there, and returns the node that holds it.
* `erase_valid_iff`: `erase` makes a valid tree of the other values exactly when the
  removal is `EraseIntact`.

## Strategy

For the second one, a removal that is not intact is followed up to the frame where
it goes wrong.  There the tree gets a subtree that is out of balance but as high as
before, so that nothing above it changes (`rebalanceUp_broken`).
-/

namespace Wiselib.AvlTree

open TreePath

variable {Value : Type*}

/-- A valid AVL tree. -/
structure Valid [LT Value] (tree : State Value) : Prop where
  avl : Avl tree.root
  sorted : (values tree.root).Pairwise (· < ·)
  size : tree.size = (values tree.root).length

/-! ## Insertion -/

section Insertion

variable [LinearOrder Value]

theorem mem_left_of_lt {base : Node Value} {left right : Tree Value} {data : Value}
    (hsorted : (values (.node base left right)).Pairwise (· < ·)) (hlt : data < base.data)
    (hdata : data ∈ values (.node base left right)) : data ∈ values left := by
  rw [values_node, List.pairwise_append, List.pairwise_cons] at hsorted
  rw [values_node, List.mem_append, List.mem_cons] at hdata
  rcases hdata with hdata | rfl | hdata
  · exact hdata
  · exact absurd hlt (lt_irrefl _)
  · exact absurd (hsorted.2.1.1 data hdata) hlt.asymm

theorem mem_right_of_gt {base : Node Value} {left right : Tree Value} {data : Value}
    (hsorted : (values (.node base left right)).Pairwise (· < ·)) (hlt : base.data < data)
    (hdata : data ∈ values (.node base left right)) : data ∈ values right := by
  rw [values_node, List.pairwise_append] at hsorted
  rw [values_node, List.mem_append, List.mem_cons] at hdata
  rcases hdata with hdata | rfl | hdata
  · exact absurd (hsorted.2.2 data hdata _ List.mem_cons_self) hlt.asymm
  · exact absurd hlt (lt_irrefl _)
  · exact hdata

theorem sorted_left {base : Node Value} {left right : Tree Value}
    (hsorted : (values (.node base left right)).Pairwise (· < ·)) :
    (values left).Pairwise (· < ·) := by
  rw [values_node, List.pairwise_append] at hsorted
  exact hsorted.1

theorem sorted_right {base : Node Value} {left right : Tree Value}
    (hsorted : (values (.node base left right)).Pairwise (· < ·)) :
    (values right).Pairwise (· < ·) := by
  rw [values_node, List.pairwise_append, List.pairwise_cons] at hsorted
  exact hsorted.2.1.2

/-- The node that `insert` returns: the one that is there, or the allocated one. -/
def inserted (data : Value) : Tree Value → Node Value
  | .nil => ⟨data, 0⟩
  | .node base left right =>
      match compare base.data data with
      | .eq => base
      | .gt => inserted data left
      | .lt => inserted data right

/-- `insert_n` with the node that it returns. -/
def insertNode (tree : State Value) (data : Value) : Option (State Value × Node Value) :=
  (insertN tree data).map fun next => (next, inserted data tree.root)

theorem inserted_spec (data : Value) {tree : Tree Value}
    (hsorted : (values tree).Pairwise (· < ·)) :
    (inserted data tree).data = data ∧ (data ∈ values tree → inserted data tree ∈ inorder tree) := by
  induction tree with
  | nil => exact ⟨rfl, fun hdata => absurd hdata List.not_mem_nil⟩
  | node base left right ihleft ihright =>
      rw [inserted, inorder_node, List.mem_append, List.mem_cons]
      cases hcompare : compare base.data data with
      | eq => exact ⟨compare_eq_iff_eq.1 hcompare, fun _ => .inr (.inl rfl)⟩
      | gt =>
          obtain ⟨hsame, hmem⟩ := ihleft (sorted_left hsorted)
          refine ⟨hsame, fun hdata => .inl (hmem ?_)⟩
          exact mem_left_of_lt hsorted (compare_gt_iff_gt.1 hcompare) hdata
      | lt =>
          obtain ⟨hsame, hmem⟩ := ihright (sorted_right hsorted)
          refine ⟨hsame, fun hdata => .inr (.inr (hmem ?_))⟩
          exact mem_right_of_gt hsorted (compare_lt_iff_lt.1 hcompare) hdata

omit [LinearOrder Value] in
theorem insertBelow_unchanged {data : Value} {base : Node Value} {s : Side}
    {child sibling : Tree Value} (havl : Avl ((Frame.mk s base sibling).attach child))
    (hne : child ≠ .nil) :
    insertBelow data base s child sibling (some (child, 0, false)) =
      some ((Frame.mk s base sibling).attach child, 0, false) := by
  obtain ⟨-, hlow, hhigh, -, -⟩ := (avl_attach _ _).1 havl
  dsimp only at hlow hhigh
  have hsame : base.addBalance 0 = base := by simp [Node.addBalance]
  have hbalanced : ¬ base.imbalanced = true := by
    rw [imbalanced_iff]
    omega
  unfold insertBelow
  rw [if_neg (by simpa using hne)]
  simp [hsame, hbalanced]

theorem insert_of_mem {data : Value} {tree : Tree Value} (havl : Avl tree)
    (hsorted : (values tree).Pairwise (· < ·)) (hdata : data ∈ values tree) :
    insert data tree = some (tree, 0, false) := by
  induction tree with
  | nil => exact absurd hdata List.not_mem_nil
  | node base left right ihleft ihright =>
      obtain ⟨-, -, -, hleft, hright⟩ := id havl
      rw [insert]
      cases hcompare : compare base.data data with
      | eq => rfl
      | gt =>
          have hmem := mem_left_of_lt hsorted (compare_gt_iff_gt.1 hcompare) hdata
          dsimp only
          rw [ihleft hleft (sorted_left hsorted) hmem]
          refine insertBelow_unchanged (s := .left) havl ?_
          rintro rfl
          exact absurd hmem List.not_mem_nil
      | lt =>
          have hmem := mem_right_of_gt hsorted (compare_lt_iff_lt.1 hcompare) hdata
          dsimp only
          rw [ihright hright (sorted_right hsorted) hmem]
          refine insertBelow_unchanged (s := .right) havl ?_
          rintro rfl
          exact absurd hmem List.not_mem_nil

theorem insertN_of_not_mem {tree : State Value} (hvalid : Valid tree) {data : Value}
    (hdata : data ∉ values tree.root) :
    ∃ next, insertN tree data = some next ∧ Valid next ∧ next.size = tree.size + 1 ∧
      ∃ pre post, values tree.root = pre ++ post ∧ values next.root = pre ++ data :: post := by
  by_cases hnil : tree.root = .nil
  · refine ⟨⟨.node ⟨data, 0⟩ .nil .nil, tree.size + 1⟩, by simp [insertN, hnil, isNil], ?_, rfl,
      [], [], by rw [hnil]; rfl, rfl⟩
    have hsize := hvalid.size
    rw [hnil, values_nil] at hsize
    exact ⟨by simp [Avl], by simp, by rw [hsize]; rfl⟩
  · obtain ⟨root, hc, grown, heq, havl, -, -, hinserts⟩ :=
      insert_spec data hvalid.avl hnil hvalid.sorted
    cases grown with
    | false => exact absurd hinserts.1 hdata
    | true =>
        refine ⟨⟨root, tree.size + 1⟩, ?_, ⟨havl, hinserts.sorted hvalid.sorted, ?_⟩, rfl, ?_⟩
        · unfold insertN
          rw [if_neg (by simpa using hnil), heq]
          rfl
        · rw [hinserts.length, hvalid.size, if_pos rfl]
        · obtain ⟨pre, post, hbefore, hafter, -, -⟩ := hinserts
          exact ⟨pre, post, hbefore, hafter⟩

/-- `insert_n` does not change a tree with the value, and puts the value to its place
otherwise. -/
theorem insertNode_valid {tree : State Value} (hvalid : Valid tree) (data : Value) :
    ∃ next node, insertNode tree data = some (next, node) ∧ Valid next ∧ node.data = data ∧
      data ∈ values next.root ∧
      (data ∈ values tree.root → next = tree ∧ node ∈ inorder tree.root) ∧
      (data ∉ values tree.root → next.size = tree.size + 1 ∧
        ∃ pre post, values tree.root = pre ++ post ∧ values next.root = pre ++ data :: post) := by
  obtain ⟨hnode, hmember⟩ := inserted_spec data hvalid.sorted
  unfold insertNode
  by_cases hdata : data ∈ values tree.root
  · have hne : tree.root ≠ .nil := by
      intro hnil
      rw [hnil] at hdata
      exact absurd hdata List.not_mem_nil
    have hsame : insertN tree data = some tree := by
      unfold insertN
      rw [if_neg (by simpa using hne), insert_of_mem hvalid.avl hvalid.sorted hdata]
      rfl
    exact ⟨tree, _, by rw [hsame]; rfl, hvalid, hnode, hdata, fun _ => ⟨rfl, hmember hdata⟩,
      fun hnot => absurd hdata hnot⟩
  · obtain ⟨next, hnext, hnextValid, hsize, pre, post, hbefore, hafter⟩ :=
      insertN_of_not_mem hvalid hdata
    refine ⟨next, _, by rw [hnext]; rfl, hnextValid, hnode, ?_, fun hmem => absurd hmem hdata,
      fun _ => ⟨hsize, pre, post, hbefore, hafter⟩⟩
    rw [hafter]
    simp

/-- A value between two others, and one that is there. -/
theorem insertNode_valid_sample :
    (∃ next node, insertNode (⟨.node ⟨2, 0⟩ (.node ⟨1, 0⟩ .nil .nil) (.node ⟨4, 0⟩ .nil .nil), 3⟩ :
        State ℕ) 3 = some (next, node) ∧ Valid next ∧ node.data = 3 ∧ 3 ∈ values next.root) ∧
      ∃ next node, insertNode (⟨.node ⟨2, 0⟩ .nil .nil, 1⟩ : State ℕ) 2 = some (next, node) ∧
        next = ⟨.node ⟨2, 0⟩ .nil .nil, 1⟩ ∧ node = ⟨2, 0⟩ := by
  constructor
  · have hvalid : Valid (⟨.node ⟨2, 0⟩ (.node ⟨1, 0⟩ .nil .nil) (.node ⟨4, 0⟩ .nil .nil), 3⟩ :
        State ℕ) := ⟨by simp [Avl], by simp, rfl⟩
    obtain ⟨next, node, hnext, hnextValid, hnode, hmem, -, -⟩ := insertNode_valid hvalid 3
    exact ⟨next, node, hnext, hnextValid, hnode, hmem⟩
  · have hvalid : Valid (⟨.node ⟨2, 0⟩ .nil .nil, 1⟩ : State ℕ) := ⟨by simp [Avl], by simp, rfl⟩
    obtain ⟨next, node, hnext, -, -, -, hthere, -⟩ := insertNode_valid hvalid 2
    obtain ⟨hsame, hnode⟩ := hthere (by simp)
    exact ⟨next, node, hnext, hsame, by simpa using hnode⟩

end Insertion

/-! ## Removal -/

/-- Taking a node with at most one child out below a path that is not intact gives a
tree that is no AVL tree, as high as before. -/
theorem unlinkHalf_broken {position : Position Value}
    (havl : Avl (reassemble position.path position.subtree))
    (hhalf : (isNil position.left || isNil position.right) = true)
    (hbroken : ¬ Intact position.path) :
    ∃ tree', unlinkHalf position (-1) = some (tree', 0) ∧ ¬ Avl tree' ∧
      tree'.height = (reassemble position.path position.subtree).height := by
  obtain ⟨hsubtree, hpath⟩ := avl_reassemble.1 havl
  obtain ⟨honly, -, hheight⟩ := only_spec hsubtree hhalf
  rw [height_reassemble]
  rw [hheight] at hpath ⊢
  unfold unlinkHalf
  dsimp only
  split
  · rename_i hnil
    exact absurd (hnil ▸ trivial) hbroken
  · exact rebalanceUp_broken honly hpath hbroken

theorem unlink_broken {position : Position Value}
    (havl : Avl (reassemble position.path position.subtree)) (hbroken : ¬ EraseIntact position)
    (heightChange : ℤ) :
    ∃ tree', unlink position heightChange = some tree' ∧ ¬ Avl tree' := by
  unfold EraseIntact at hbroken
  unfold unlink
  by_cases hhalf : (isNil position.left || isNil position.right) = true
  · rw [if_pos hhalf] at hbroken ⊢
    obtain ⟨tree', heq, htree', -⟩ := unlinkHalf_broken havl hhalf hbroken
    exact ⟨tree', by rw [unlinkHalf_fst, heq]; rfl, htree'⟩
  · rw [if_neg hhalf] at hbroken ⊢
    obtain ⟨path, node, left, right⟩ := position
    dsimp only [Position.subtree] at *
    obtain ⟨⟨hbal, hlow, hhigh, hleft, hright⟩, hpath⟩ := avl_reassemble.1 havl
    have hne : right ≠ .nil := by
      rintro rfl
      simp [isNil] at hhalf
    obtain ⟨substitute, heq, hnil, -, hreassemble, -⟩ := leftmost_spec hne []
    have hreassemble' : reassemble substitute.path substitute.subtree = right := hreassemble
    rw [heq] at hbroken ⊢
    dsimp only at hbroken
    have hsubstitute : (isNil substitute.left || isNil substitute.right) = true := by
      simp [hnil, isNil]
    have hpath' : path ≠ [] →
        AvlPath (⟨.right, ⟨substitute.node.data, node.balance⟩, left⟩ :: path) right.height := by
      intro _
      rw [height_node, max_comm] at hpath
      exact ⟨by rw [sign, one_mul]; exact hbal, hlow, hhigh, hleft, hpath⟩
    by_cases hinner : Intact substitute.path
    · -- the right subtree gets lower, and it goes wrong at the node or above
      have hlowers : lowers substitute.path = true := by
        by_contra hlowers
        exact hbroken ⟨hinner, fun hlowers' => absurd hlowers' hlowers⟩
      have houter := fun hintact => hbroken ⟨hinner, fun _ => hintact⟩
      obtain ⟨right', hc, hunlink, hright', -, hheight, hhc⟩ := unlinkHalf_spec
        (hreassemble' ▸ hright) hsubstitute hinner
      rw [hreassemble'] at hheight
      obtain rfl : hc = -1 := by simpa [hlowers] using hhc
      cases path with
      | nil =>
          have hbalance : node.balance = -1 := by simpa using houter
          refine ⟨.node (Node.addBalance ⟨substitute.node.data, node.balance⟩ (-1)) left right',
            by simp [hunlink], ?_⟩
          rintro ⟨-, hlow', -⟩
          simp only [Node.addBalance, hbalance] at hlow'
          omega
      | cons frame path =>
          have hlower : right.height = right'.height + 1 := by omega
          have hpath'' := hpath' (List.cons_ne_nil _ _)
          rw [hlower] at hpath''
          obtain ⟨tree', heq', htree', -⟩ := rebalanceUp_broken hright' hpath'' houter
          exact ⟨tree', by simp [hunlink, heq'], htree'⟩
    · -- the right subtree is no AVL tree any more, and stays so
      obtain ⟨right', hunlink, hright', hheight⟩ := unlinkHalf_broken
        (hreassemble' ▸ hright) hsubstitute hinner
      rw [hreassemble'] at hheight
      cases path with
      | nil =>
          refine ⟨.node (Node.addBalance ⟨substitute.node.data, node.balance⟩ 0) left right',
            by simp [hunlink], ?_⟩
          rintro ⟨-, -, -, -, havl'⟩
          exact hright' havl'
      | cons frame path =>
          have hpath'' := hpath' (List.cons_ne_nil _ _)
          rw [← hheight] at hpath''
          refine ⟨reassemble (⟨.right, ⟨substitute.node.data, node.balance⟩, left⟩ :: frame :: path)
            right', by simp [hunlink, rebalanceUp_zero hpath''], ?_⟩
          exact fun havl' => hright' (avl_reassemble.1 havl').1

/-- **`erase` makes a valid tree of the other values if and only if the removal is
intact.** -/
theorem erase_valid_iff [LinearOrder Value] {tree : State Value} (hvalid : Valid tree)
    {position : Position Value}
    (hposition : reassemble position.path position.subtree = tree.root) :
    (∃ next, erase tree (some position) = some next ∧ Valid next ∧
        values next.root = (values tree.root).erase position.node.data) ↔
      EraseIntact position := by
  have havl : Avl (reassemble position.path position.subtree) := hposition ▸ hvalid.avl
  constructor
  · rintro ⟨next, hnext, hnextValid, -⟩
    by_contra hbroken
    obtain ⟨root, hunlink, hroot⟩ := unlink_broken havl hbroken 0
    simp only [erase, Option.bind_eq_bind, Option.bind_some, hunlink, Option.pure_def,
      Option.some.injEq] at hnext
    subst hnext
    exact hroot hnextValid.avl
  · intro hintact
    obtain ⟨root, hunlink, hroot, hvalues⟩ := unlink_spec havl hintact 0
    -- the values before and after, around the value that is taken out
    have hbefore : values tree.root =
        ((before position.path).map Node.data ++ values position.left) ++
          position.node.data :: (values position.right ++ (after position.path).map Node.data) := by
      rw [← hposition, values_reassemble, Position.subtree, values_node, valuesAround]
      simp
    have hafter : values root =
        ((before position.path).map Node.data ++ values position.left) ++
          (values position.right ++ (after position.path).map Node.data) := by
      rw [hvalues, valuesAround]
      simp
    have herase : values root = (values tree.root).erase position.node.data := by
      have hsorted := hvalid.sorted
      rw [hbefore, List.pairwise_append] at hsorted
      have hnot : position.node.data ∉
          (before position.path).map Node.data ++ values position.left :=
        fun hmem => lt_irrefl _ (hsorted.2.2 _ hmem _ List.mem_cons_self)
      rw [hafter, hbefore, List.erase_append_right _ hnot, List.erase_cons_head]
    refine ⟨⟨root, tree.size - 1⟩, by simp [erase, hunlink], ⟨hroot, ?_, ?_⟩, herase⟩
    · rw [herase]
      exact hvalid.sorted.sublist (List.erase_sublist ..)
    · rw [hvalid.size, hbefore, hafter]
      simp only [List.length_append, List.length_cons]
      omega

/-- The root of three nodes is taken out. -/
theorem erase_valid_iff_sample :
    (∃ next, erase (⟨.node ⟨2, 0⟩ (.node ⟨1, 0⟩ .nil .nil) (.node ⟨3, 0⟩ .nil .nil), 3⟩ : State ℕ)
        (some ⟨[], ⟨2, 0⟩, .node ⟨1, 0⟩ .nil .nil, .node ⟨3, 0⟩ .nil .nil⟩) = some next ∧
        Valid next ∧ values next.root = [1, 2, 3].erase 2) ↔
      EraseIntact (⟨[], ⟨2, 0⟩, .node ⟨1, 0⟩ .nil .nil, .node ⟨3, 0⟩ .nil .nil⟩ : Position ℕ) :=
  erase_valid_iff ⟨by simp [Avl], by simp, rfl⟩ rfl

/-- A root of balance -1 whose right child is taken to its place. -/
def leaningTree : State ℕ :=
  ⟨.node ⟨3, -1⟩ (.node ⟨1, 1⟩ .nil (.node ⟨2, 0⟩ .nil .nil)) (.node ⟨4, 0⟩ .nil .nil), 4⟩

/-- Erasing the root of a valid tree leaves a root of balance -2. -/
theorem exists_erase_not_valid :
    Valid leaningTree ∧
      ¬ ∃ next, erase leaningTree (find leaningTree 3) = some next ∧ Valid next := by
  constructor
  · exact ⟨by simp [leaningTree, Avl], by simp [leaningTree], rfl⟩
  · rintro ⟨next, hnext, hvalid⟩
    have herase : erase leaningTree (find leaningTree 3) = some
        ⟨.node ⟨4, -2⟩ (.node ⟨1, 1⟩ .nil (.node ⟨2, 0⟩ .nil .nil)) .nil, 3⟩ := rfl
    obtain rfl := Option.some.inj (herase.symm.trans hnext)
    have hlow := hvalid.avl.2.1
    simp at hlow

end Wiselib.AvlTree
