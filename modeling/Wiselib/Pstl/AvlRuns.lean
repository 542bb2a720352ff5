import Wiselib.Pstl.AvlOperations

/-!
# Runs of the AVL tree

`correct_of_intact_run`: along every run in which no removal is one of those
that leave a tree out of balance, iteration, `find` and `size` show exactly the
values inserted and not erased since.  `exists_run_not_correct` is a run in
which a removal does, and later ones lose a value.

A removal is `EraseIntact` when neither of two things happens on the way up.
One is the defect of `rebalance` (`Intact`).  The other is in `unlink`: a root
with two children gets the height change of its right subtree added to its
balance, and nothing rebalances it.
-/

namespace Wiselib.AvlTree

open TreePath Transition

variable {Value : Type*}

/-! ## Removal -/

/-- The removal of the node does not leave the tree out of balance. -/
def EraseIntact (position : Position Value) : Prop :=
  if isNil position.left || isNil position.right then Intact position.path
  else
    match leftmost [] position.right with
    | none => True
    | some substitute =>
        Intact substitute.path ∧ (lowers substitute.path = true →
          match position.path with
          | [] => position.node.balance ≠ -1
          | path => Intact (⟨.right, position.node, position.left⟩ :: path))

instance (position : Position Value) : Decidable (EraseIntact position) := by
  unfold EraseIntact
  split
  · infer_instance
  · split
    · infer_instance
    · split <;> infer_instance

theorem only_spec {position : Position Value} (havl : Avl position.subtree)
    (hhalf : (isNil position.left || isNil position.right) = true) :
    let leaf := isNil position.left && isNil position.right
    let only := if leaf then .nil else child position.subtree position.node.heavySide
    Avl only ∧ values only = values position.left ++ values position.right ∧
      position.subtree.height = only.height + 1 := by
  obtain ⟨path, node, left, right⟩ := position
  obtain ⟨hbal, hlow, hhigh, hleft, hright⟩ := havl
  dsimp only [Position.subtree] at *
  cases left with
  | nil =>
      cases right with
      | nil => simp [isNil, Avl]
      | node b t2 t3 =>
          have hheavy : node.heavySide = .right := by
            rw [height_node, BinaryTree.height] at hbal
            exact if_neg (by omega)
          rw [hheavy]
          simp [isNil, child, hright]
  | node b t2 t3 =>
      obtain rfl : right = .nil := isNil_iff.1 hhalf
      have hheavy : node.heavySide = .left := by
        rw [height_node, BinaryTree.height] at hbal
        exact if_pos (by omega)
      rw [hheavy]
      simp [isNil, child, hleft]

theorem unlinkHalf_spec {position : Position Value}
    (havl : Avl (reassemble position.path position.subtree))
    (hhalf : (isNil position.left || isNil position.right) = true)
    (hintact : Intact position.path) :
    ∃ tree' hc, unlinkHalf position (-1) = some (tree', hc) ∧ Avl tree' ∧
      values tree' =
        valuesAround position.path (values position.left ++ values position.right) ∧
      (tree'.height : ℤ) = (reassemble position.path position.subtree).height + hc ∧
      hc = if lowers position.path then -1 else 0 := by
  obtain ⟨hsubtree, hpath⟩ := avl_reassemble.1 havl
  obtain ⟨honly, hvalues, hheight⟩ := only_spec hsubtree hhalf
  rw [height_reassemble]
  rw [hheight] at hpath ⊢
  rw [← hvalues]
  unfold unlinkHalf
  dsimp only
  split
  · rename_i hnil
    refine ⟨_, -1, by rw [ite_self], honly, by simp [hnil, valuesAround, before, after], ?_, ?_⟩
    · rw [hnil, pathHeight]
      push_cast
      omega
    · rw [hnil]
      rfl
  · exact rebalanceUp_spec honly hpath hintact

/-- The incoming height change does not matter for the tree. -/
theorem unlinkHalf_fst (position : Position Value) (heightChange : ℤ) :
    (unlinkHalf position heightChange).map Prod.fst =
      (unlinkHalf position (-1)).map Prod.fst := by
  unfold unlinkHalf
  dsimp only
  split <;> rfl

theorem unlink_spec {position : Position Value}
    (havl : Avl (reassemble position.path position.subtree)) (hintact : EraseIntact position)
    (heightChange : ℤ) :
    ∃ tree', unlink position heightChange = some tree' ∧ Avl tree' ∧
      values tree' =
        valuesAround position.path (values position.left ++ values position.right) := by
  unfold EraseIntact at hintact
  unfold unlink
  by_cases hhalf : (isNil position.left || isNil position.right) = true
  · rw [if_pos hhalf] at hintact ⊢
    obtain ⟨tree', hc, heq, htree', hvalues, -, -⟩ := unlinkHalf_spec havl hhalf hintact
    exact ⟨tree', by rw [unlinkHalf_fst, heq]; rfl, htree', hvalues⟩
  · rw [if_neg hhalf] at hintact ⊢
    obtain ⟨path, node, left, right⟩ := position
    dsimp only [Position.subtree] at *
    obtain ⟨⟨hbal, hlow, hhigh, hleft, hright⟩, hpath⟩ := avl_reassemble.1 havl
    have hne : right ≠ .nil := by
      rintro rfl
      simp [isNil] at hhalf
    obtain ⟨substitute, heq, hnil, hbefore, hreassemble, hrest⟩ := leftmost_spec hne []
    rw [heq] at hintact ⊢
    dsimp only at hintact
    obtain ⟨hinner, houter⟩ := hintact
    -- the right subtree loses its first value
    obtain ⟨right', hc, hunlink, hright', hvalues, hheight, hhc⟩ := unlinkHalf_spec
      (hreassemble ▸ hright) (by simp [hnil, isNil]) hinner
    rw [hreassemble] at hheight
    have hright_values : values right = substitute.node.data :: values right' := by
      rw [hvalues, hnil, valuesAround, hbefore]
      simpa [rest, before, after] using hrest.symm
    have hheight' : (right'.height : ℤ) = right.height + hc := hheight
    have hvalues' : ∀ node' : Node Value, node'.data = substitute.node.data →
        values ((Frame.mk .right node' left).attach right') = values left ++ values right := by
      intro node' hdata
      rw [hright_values]
      simp [Frame.attach, hdata]
    cases path with
    | nil =>
        refine ⟨.node (Node.addBalance ⟨substitute.node.data, node.balance⟩ hc) left right',
          by simp [hunlink], ?_, ?_⟩
        · have hbalance : (Node.addBalance (⟨substitute.node.data, node.balance⟩ : Node Value)
              hc).balance = node.balance + hc := rfl
          rw [avl_node, hbalance]
          refine ⟨by omega, ?_, ?_, hleft, hright'⟩
          · cases hlowers : lowers substitute.path with
            | false =>
                rw [hlowers] at hhc
                rw [hhc]
                simpa using hlow
            | true =>
                have := houter hlowers
                dsimp only at this
                rw [hlowers] at hhc
                simp only [if_true] at hhc
                omega
          · split_ifs at hhc <;> omega
        · have := hvalues' (Node.addBalance ⟨substitute.node.data, node.balance⟩ hc) rfl
          simpa [valuesAround, before, after, Frame.attach] using this
    | cons frame path =>
        have hpath' : AvlPath (⟨.right, ⟨substitute.node.data, node.balance⟩, left⟩ :: frame :: path)
            right.height := by
          rw [height_node, max_comm] at hpath
          exact ⟨by rw [sign, one_mul]; exact hbal, hlow, hhigh, hleft, hpath⟩
        have hresult : ∃ tree' hc', rebalanceUp
            (⟨.right, ⟨substitute.node.data, node.balance⟩, left⟩ :: frame :: path) right' hc =
              some (tree', hc') ∧ Avl tree' ∧
            values tree' = valuesAround
              (⟨.right, ⟨substitute.node.data, node.balance⟩, left⟩ :: frame :: path)
              (values right') := by
          cases hlowers : lowers substitute.path with
          | false =>
              obtain rfl : hc = 0 := by simpa [hlowers] using hhc
              have hsame : right.height = right'.height := by omega
              rw [hsame] at hpath'
              exact ⟨_, 0, rebalanceUp_zero hpath', avl_reassemble.2 ⟨hright', hpath'⟩,
                values_reassemble _ _⟩
          | true =>
              obtain rfl : hc = -1 := by simpa [hlowers] using hhc
              have hlower : right.height = right'.height + 1 := by omega
              rw [hlower] at hpath'
              obtain ⟨tree', hc', heq', htree', hvals, -, -⟩ :=
                rebalanceUp_spec hright' hpath' (houter hlowers)
              exact ⟨tree', hc', heq', htree', hvals⟩
        obtain ⟨tree', hc', heq', htree', hvals⟩ := hresult
        refine ⟨tree', by simp [hunlink, heq'], htree', ?_⟩
        rw [hvals, ← valuesAround_cons _ ⟨substitute.node.data, node.balance⟩ rfl]
        exact congrArg _ (hvalues' _ rfl)

/-! ## Runs -/

section Runs

variable [LinearOrder Value]

/-- The values inserted and not erased since. -/
def contents (operations : List (Op Value)) : Finset Value :=
  operations.foldl (fun live op =>
    match op with
    | .insert data => Insert.insert data live
    | .erase data => live.erase data) ∅

theorem contents_append (operations : List (Op Value)) (op : Op Value) :
    contents (operations ++ [op]) =
      match op with
      | .insert data => Insert.insert data (contents operations)
      | .erase data => (contents operations).erase data := by
  unfold contents
  rw [List.foldl_append]
  rfl

/-- What a client sees is `live`: by iteration, by `find` and by `size`. -/
structure Correct (tree : State Value) (live : Finset Value) : Prop where
  visits : ∃ visited, Visits (beginInorder tree) visited ∧ visited.Pairwise (· < ·) ∧
    ∀ data, data ∈ visited ↔ data ∈ live
  find : ∀ data, find tree data ≠ none ↔ data ∈ live
  size : tree.size = live.card

/-- The removals do not leave the tree out of balance. -/
def IntactOp (tree : State Value) : Op Value → Prop
  | .insert _ => True
  | .erase data => ∀ position, find tree data = some position → EraseIntact position

/-- The tree is an AVL tree of the values in `live`, in order. -/
structure Inv (tree : State Value) (live : Finset Value) : Prop where
  avl : Avl tree.root
  sorted : (values tree.root).Pairwise (· < ·)
  mem : ∀ data, data ∈ values tree.root ↔ data ∈ live
  size : tree.size = (values tree.root).length

theorem Inv.correct {tree : State Value} {live : Finset Value} (hinv : Inv tree live) :
    Correct tree live := by
  refine ⟨⟨_, visits_rest _, ?_, ?_⟩, fun data => ?_, ?_⟩
  · rw [rest_beginInorder]
    exact hinv.sorted
  · rw [rest_beginInorder]
    exact hinv.mem
  · obtain ⟨hnone, hsome⟩ := find_spec hinv.sorted data
    rw [← hinv.mem]
    refine ⟨fun hfind => by_contra fun hdata => hfind (hnone hdata), fun hdata => ?_⟩
    obtain ⟨position, hposition, -, -⟩ := hsome hdata
    rw [hposition]
    exact Option.some_ne_none _
  · have hlive : live = (values tree.root).toFinset := by
      ext data
      rw [List.mem_toFinset, hinv.mem]
    rw [hinv.size, hlive, List.toFinset_card_of_nodup]
    exact hinv.sorted.imp ne_of_lt

theorem inv_init : Inv (init : State Value) ∅ :=
  ⟨trivial, .nil, by simp [init], rfl⟩

theorem inv_insert {tree : State Value} {live : Finset Value} (hinv : Inv tree live)
    (data : Value) : ∃ next, insertN tree data = some next ∧ Inv next (Insert.insert data live) := by
  unfold insertN
  by_cases hnil : tree.root = .nil
  · refine ⟨_, by rw [hnil]; rfl, ?_⟩
    have hmem := hinv.mem
    have hsize := hinv.size
    rw [hnil] at hmem hsize
    simp only [values_nil, List.not_mem_nil, false_iff] at hmem
    exact ⟨by simp [Avl], by simp, fun x => by simp [hmem], by simp [hsize]⟩
  · obtain ⟨root, hc, grown, heq, havl, -, -, hvalues⟩ :=
      insert_spec data hinv.avl hnil hinv.sorted
    refine ⟨⟨root, if grown then tree.size + 1 else tree.size⟩, ?_, havl, ?_, ?_, ?_⟩
    · rw [if_neg (by simpa using hnil), heq]
      rfl
    · exact hvalues.sorted hinv.sorted
    · intro x
      rw [hvalues.mem_iff, hinv.mem, Finset.mem_insert]
    · rw [hvalues.length, hinv.size]

theorem inv_erase {tree : State Value} {live : Finset Value} (hinv : Inv tree live)
    {data : Value} (hdata : data ∈ live) (hintact : IntactOp tree (.erase data)) :
    ∃ next, erase tree (find tree data) = some next ∧ Inv next (live.erase data) := by
  obtain ⟨position, hfind, hsame, hreassemble⟩ :=
    (find_spec hinv.sorted data).2 ((hinv.mem data).2 hdata)
  obtain ⟨root, hunlink, havl, hvalues⟩ :=
    unlink_spec (hreassemble ▸ hinv.avl) (hintact position hfind) 0
  -- the values before and after, around the value that is taken out
  obtain ⟨pre, post, hbefore, hafter⟩ : ∃ pre post, values tree.root = pre ++ data :: post ∧
      values root = pre ++ post := by
    refine ⟨(before position.path).map Node.data ++ values position.left,
      values position.right ++ (after position.path).map Node.data, ?_, ?_⟩
    · rw [← hreassemble, values_reassemble, Position.subtree, values_node, hsame, valuesAround]
      simp
    · rw [hvalues, valuesAround]
      simp
  have hsorted := hinv.sorted
  have hmem := hinv.mem
  have hsize := hinv.size
  rw [hbefore] at hsorted hmem hsize
  have hnot : data ∉ pre ++ post := by
    have hnodup : (pre ++ data :: post).Nodup := hsorted.imp ne_of_lt
    rw [List.nodup_append, List.nodup_cons] at hnodup
    intro hdata
    rcases List.mem_append.1 hdata with hdata | hdata
    · exact hnodup.2.2 data hdata data List.mem_cons_self rfl
    · exact hnodup.2.1.1 hdata
  refine ⟨⟨root, tree.size - 1⟩, by rw [hfind]; simp [erase, hunlink], havl, ?_, ?_, ?_⟩
  · rw [hafter]
    exact hsorted.sublist ((List.sublist_cons_self data post).append_left pre)
  · intro x
    rw [hafter, Finset.mem_erase, ← hmem]
    simp only [List.mem_append, List.mem_cons] at hnot ⊢
    constructor
    · intro hx
      exact ⟨fun heq => hnot (heq ▸ hx), hx.imp_right .inr⟩
    · rintro ⟨hne, hx⟩
      exact hx.imp_right fun hx => hx.resolve_left hne
  · rw [hafter, hsize]
    simp only [List.length_append, List.length_cons]
    omega

/-- In every run whose removals are all intact, a client sees the values inserted and
not erased since, and no call fails. -/
theorem correct_of_intact_run {operations : List (Op Value)} {tree : State Value}
    (hrun : Run (Guarded IntactOp (stepOf perform)) init operations tree) :
    Correct tree (contents operations) ∧ (∀ data, (insertN tree data).isSome) ∧
      ∀ data ∈ contents operations, IntactOp tree (.erase data) →
        (erase tree (find tree data)).isSome := by
  have hstep : ∀ (past : List (Op Value)) state op next, Inv state (contents past) →
      Guarded IntactOp (stepOf perform) state op next → Inv next (contents (past ++ [op])) := by
    rintro past state op next hinv ⟨hintact, hstep⟩
    rw [contents_append]
    cases op with
    | insert data =>
        obtain ⟨next', hnext, hinv'⟩ := inv_insert hinv data
        obtain rfl : next' = next := Option.some.inj (hnext.symm.trans hstep)
        exact hinv'
    | erase data =>
        by_cases hdata : data ∈ contents past
        · obtain ⟨next', hnext, hinv'⟩ := inv_erase hinv hdata hintact
          obtain rfl : next' = next := Option.some.inj (hnext.symm.trans hstep)
          exact hinv'
        · -- the end iterator cannot be erased
          have hnone := (find_spec hinv.sorted data).1 fun hmem => hdata ((hinv.mem data).1 hmem)
          simp [stepOf, perform, hnone, erase] at hstep
  have hinv := hrun.history hstep [] inv_init
  refine ⟨hinv.correct, fun data => ?_, fun data hdata hintact => ?_⟩
  · obtain ⟨next, hnext, -⟩ := inv_insert hinv data
    rw [hnext]
    rfl
  · obtain ⟨next, hnext, -⟩ := inv_erase hinv hdata hintact
    rw [hnext]
    rfl

end Runs

/-- The root has two children and leans to neither side; its successor takes its place. -/
theorem correct_of_intact_run_root :
    ∃ tree, Run (Guarded IntactOp (stepOf perform)) init
        [.insert 2, .insert 1, .insert 3, .erase (2 : ℕ)] tree ∧
      Correct tree (contents [.insert 2, .insert 1, .insert 3, .erase 2]) ∧
      (∀ data, (insertN tree data).isSome) ∧
      ∀ data ∈ contents [.insert 2, .insert 1, .insert 3, .erase 2], IntactOp tree (.erase data) →
        (erase tree (find tree data)).isSome := by
  have hrun : Run (Guarded IntactOp (stepOf perform)) init
      [.insert 2, .insert 1, .insert 3, .erase (2 : ℕ)] _ :=
    .cons ⟨trivial, rfl⟩ <| .cons ⟨trivial, rfl⟩ <| .cons ⟨trivial, rfl⟩ <|
      .cons ⟨fun position hposition => by
        obtain rfl := Option.some.inj hposition
        decide, rfl⟩ <| .nil _
  exact ⟨_, hrun, correct_of_intact_run hrun⟩

/-- A run after which `find` does not find a value that was inserted and not erased. -/
def losingRun : List (Op ℕ) :=
  [.insert 8, .insert 3, .insert 2, .insert 12, .insert 5, .insert 13, .insert 4, .erase 8,
    .insert 6, .insert 1, .erase 5, .erase 6, .erase 12, .insert 10, .erase 4, .erase 10,
    .insert 12, .insert 17, .erase 2, .erase 1, .erase 12, .insert 15, .insert 16, .erase 17,
    .insert 2, .erase 3]

theorem exists_run_not_correct :
    ∃ tree, Run (stepOf perform) init losingRun tree ∧
      ¬ Correct tree (contents losingRun) := by
  have hlost : ((losingRun.foldlM perform init).any fun tree => (find tree 2).isNone) = true := by
    decide +kernel
  obtain ⟨tree, hfold, hnone⟩ := (Option.any_eq_true _ _).1 hlost
  refine ⟨tree, Run.of_foldlM hfold, fun hcorrect => ?_⟩
  have hlive : 2 ∈ contents losingRun := by decide
  exact (hcorrect.find 2).2 hlive (by simpa using hnone)

section Searches

variable [LinearOrder Value]

/-! ## How long a search takes -/

omit [LinearOrder Value] in
/-- A balanced tree of a height has at least as many values as the smaller of its
subtrees may leave it. -/
theorem fib_height_le {tree : Tree Value} (havl : Avl tree) :
    Nat.fib (tree.height + 2) ≤ (values tree).length + 1 := by
  induction tree with
  | nil => exact le_rfl
  | node node left right ihleft ihright =>
      obtain ⟨hbal, hlow, hhigh, hleft, hright⟩ := havl
      rw [height_node, values_node, List.length_append, List.length_cons]
      have hcount := Nat.add_le_add (ihleft hleft) (ihright hright)
      calc Nat.fib (max left.height right.height + 1 + 2)
          = Nat.fib (max left.height right.height + 1) +
            Nat.fib (max left.height right.height + 2) := Nat.fib_add_two
        _ ≤ Nat.fib (left.height + 2) + Nat.fib (right.height + 2) := by
            rcases le_total left.height right.height with hle | hle
            · rw [max_eq_right hle]
              exact Nat.add_le_add_right (Nat.fib_mono (by omega)) _
            · rw [max_eq_left hle, Nat.add_comm]
              exact Nat.add_le_add_left (Nat.fib_mono (by omega)) _
        _ ≤ _ := by omega

omit [LinearOrder Value] in
theorem length_add_le_pathHeight (path : List (Frame (Node Value))) (h : ℕ) :
    path.length + h ≤ pathHeight path h := by
  induction path generalizing h with
  | nil => simp [pathHeight]
  | cons frame rest ih =>
      have hrest := ih (max h frame.sibling.height + 1)
      have hmax := le_max_left h frame.sibling.height
      rw [pathHeight, List.length_cons]
      omega

/-- **A search is short.**  In every run whose removals are all intact, the position at
which a search ends, whether it finds the value or not, is so deep at most that the
Fibonacci number behind the depth is the size at most. -/
theorem fib_search_of_intact_run {operations : List (Op Value)} {tree : State Value}
    (hrun : Run (Guarded IntactOp (stepOf perform)) init operations tree) {data : Value}
    {position : Position Value} (hfind : findFrom data [] tree.root = some position) :
    Nat.fib (position.path.length + 3) ≤ tree.size + 1 := by
  have hstep : ∀ (state : State Value) op next, (∃ live, Inv state live) →
      Guarded IntactOp (stepOf perform) state op next → ∃ live, Inv next live := by
    rintro state op next ⟨live, hinv⟩ ⟨hintact, hstep⟩
    cases op with
    | insert data =>
        obtain ⟨next', hnext, hinv'⟩ := inv_insert hinv data
        exact ⟨_, Option.some.inj (hnext.symm.trans hstep) ▸ hinv'⟩
    | erase data =>
        by_cases hdata : data ∈ live
        · obtain ⟨next', hnext, hinv'⟩ := inv_erase hinv hdata hintact
          exact ⟨_, Option.some.inj (hnext.symm.trans hstep) ▸ hinv'⟩
        · have hnone := (find_spec hinv.sorted data).1 fun hmem => hdata ((hinv.mem data).1 hmem)
          simp [stepOf, perform, hnone, erase] at hstep
  obtain ⟨live, hinv⟩ := hrun.invariant hstep ⟨∅, inv_init⟩
  have hroot : tree.root ≠ .nil := by
    intro hnil
    rw [hnil] at hfind
    cases hfind
  obtain ⟨found, heq, hreassemble, -⟩ := findFrom_spec data hroot []
  obtain rfl := Option.some.inj (heq.symm.trans hfind)
  have hdeep : found.path.length + found.subtree.height ≤ tree.root.height := by
    calc found.path.length + found.subtree.height
        ≤ pathHeight found.path found.subtree.height := length_add_le_pathHeight _ _
      _ = tree.root.height := by rw [← height_reassemble, hreassemble, reassemble]
  have hone : 1 ≤ found.subtree.height := by
    rw [Position.subtree, height_node]
    omega
  calc Nat.fib (found.path.length + 3)
      ≤ Nat.fib (tree.root.height + 2) := Nat.fib_mono (by omega)
    _ ≤ (values tree.root).length + 1 := fib_height_le hinv.avl
    _ = tree.size + 1 := by rw [hinv.size]

end Searches

/-- The search for a missing value in a tree of three ends below the root. -/
theorem fib_search_of_intact_run_three : ∃ tree position,
    Run (Guarded IntactOp (stepOf perform)) init [.insert 2, .insert 1, .insert (3 : ℕ)] tree ∧
      findFrom 0 [] tree.root = some position ∧ position.path.length = 1 ∧
        Nat.fib (position.path.length + 3) ≤ tree.size + 1 := by
  have hrun : Run (Guarded IntactOp (stepOf perform)) init
      [.insert 2, .insert 1, .insert (3 : ℕ)] _ :=
    .cons ⟨trivial, rfl⟩ <| .cons ⟨trivial, rfl⟩ <| .cons ⟨trivial, rfl⟩ <| .nil _
  exact ⟨_, _, hrun, rfl, rfl, @fib_search_of_intact_run _ _ _ _ hrun 0 _ rfl⟩

end Wiselib.AvlTree
