import Wiselib.Pstl.AvlBalance

/-!
# The operations of the AVL tree

What `insert`, the iterators, `find` and `unlink` do to AVL trees whose values
are in order.  Insertion never meets the defect of `rebalance`: the child it
comes up from is not balanced when the node above is rebalanced.  `unlink` may,
and has a second defect of its own, so it needs `EraseIntact`.
-/

namespace Wiselib.AvlTree

open TreePath

variable {Value : Type*}

theorem balance_attach (frame : Frame (Node Value)) (tree : Tree Value) :
    balance (frame.attach tree) = frame.label.balance := by
  obtain ⟨side, node, sibling⟩ := frame
  cases side <;> rfl

/-! ## Insertion -/

section Insertion

variable [LinearOrder Value]

/-- `ys` is `xs` with `data` at its place if something grew, and `xs` with `data`
in it already otherwise. -/
def Inserts (data : Value) (xs ys : List Value) (grown : Bool) : Prop :=
  if grown then
    ∃ pre post, xs = pre ++ post ∧ ys = pre ++ data :: post ∧
      (∀ x ∈ pre, x < data) ∧ ∀ x ∈ post, data < x
  else data ∈ xs ∧ ys = xs

theorem Inserts.append_left {data : Value} {xs ys : List Value} {grown : Bool}
    (hinserts : Inserts data xs ys grown) {front : List Value} (hfront : ∀ x ∈ front, x < data) :
    Inserts data (front ++ xs) (front ++ ys) grown := by
  cases grown with
  | false => exact ⟨List.mem_append_right _ hinserts.1, by rw [hinserts.2]⟩
  | true =>
      obtain ⟨pre, post, rfl, rfl, hpre, hpost⟩ := hinserts
      refine ⟨front ++ pre, post, by simp, by simp, fun x hx => ?_, hpost⟩
      exact (List.mem_append.1 hx).elim (hfront x) (hpre x)

theorem Inserts.append_right {data : Value} {xs ys : List Value} {grown : Bool}
    (hinserts : Inserts data xs ys grown) {back : List Value} (hback : ∀ x ∈ back, data < x) :
    Inserts data (xs ++ back) (ys ++ back) grown := by
  cases grown with
  | false => exact ⟨List.mem_append_left _ hinserts.1, by rw [hinserts.2]⟩
  | true =>
      obtain ⟨pre, post, rfl, rfl, hpre, hpost⟩ := hinserts
      refine ⟨pre, post ++ back, by simp, by simp, hpre, fun x hx => ?_⟩
      exact (List.mem_append.1 hx).elim (hpost x) (hback x)

theorem Inserts.sorted {data : Value} {xs ys : List Value} {grown : Bool}
    (hinserts : Inserts data xs ys grown) (hxs : xs.Pairwise (· < ·)) : ys.Pairwise (· < ·) := by
  cases grown with
  | false => exact hinserts.2 ▸ hxs
  | true =>
      obtain ⟨pre, post, rfl, rfl, hpre, hpost⟩ := hinserts
      rw [List.pairwise_append] at hxs ⊢
      refine ⟨hxs.1, List.pairwise_cons.2 ⟨hpost, hxs.2.1⟩, fun x hx y hy => ?_⟩
      rcases List.mem_cons.1 hy with rfl | hy
      · exact hpre x hx
      · exact hxs.2.2 x hx y hy

theorem Inserts.mem_iff {data : Value} {xs ys : List Value} {grown : Bool}
    (hinserts : Inserts data xs ys grown) (x : Value) : x ∈ ys ↔ x = data ∨ x ∈ xs := by
  cases grown with
  | false =>
      rw [hinserts.2]
      refine ⟨.inr, fun hx => hx.elim (fun heq => ?_) id⟩
      rw [heq]
      exact hinserts.1
  | true =>
      obtain ⟨pre, post, rfl, rfl, -, -⟩ := hinserts
      simp only [List.mem_append, List.mem_cons]
      tauto

theorem Inserts.length {data : Value} {xs ys : List Value} {grown : Bool}
    (hinserts : Inserts data xs ys grown) :
    ys.length = if grown then xs.length + 1 else xs.length := by
  cases grown with
  | false => exact congrArg List.length hinserts.2
  | true =>
      obtain ⟨pre, post, rfl, rfl, -, -⟩ := hinserts
      simp only [List.length_append, List.length_cons, if_true]
      omega

/-- What `insert` gives: an AVL tree with `data`, whose root is not balanced if it
got higher. -/
def InsertResult (data : Value) (tree : Tree Value) (result : Option (Tree Value × ℤ × Bool)) :
    Prop :=
  ∃ tree' hc grown, result = some (tree', hc, grown) ∧ Avl tree' ∧
    (tree'.height : ℤ) = tree.height + hc ∧ (hc = 0 ∨ hc = 1 ∧ balance tree' ≠ 0) ∧
    Inserts data (values tree) (values tree') grown

variable {data : Value} {base : Node Value} (s : Side) {child sibling : Tree Value}
  {inserted : Option (Tree Value × ℤ × Bool)}

private theorem insertBelow_nil (havl : Avl ((Frame.mk s base sibling).attach .nil))
    (hcontext : ∀ child' grown, Inserts data [] (values child') grown →
      Inserts data (values ((Frame.mk s base sibling).attach .nil))
        (values ((Frame.mk s base sibling).attach child')) grown) :
    InsertResult data ((Frame.mk s base sibling).attach .nil)
      (insertBelow data base s .nil sibling inserted) := by
  have hsign : sign s = 1 ∨ sign s = -1 := by cases s <;> simp [sign]
  obtain ⟨hbal, hlow, hhigh, hsibling, -⟩ := (avl_attach _ _).1 havl
  dsimp only at hbal hlow hhigh hsibling
  have hnew : (base.addBalance (sign s)).balance = base.balance + sign s := rfl
  have hleaf : (BinaryTree.node (⟨data, 0⟩ : Node Value) .nil .nil).height = 1 := rfl
  refine ⟨_, _, true, rfl, ?_, ?_, ?_, ?_⟩
  · rw [avl_attach, hleaf]
    dsimp only
    refine ⟨?_, ?_, ?_, hsibling, by simp [Avl]⟩ <;> rw [hnew]
    all_goals rw [BinaryTree.height] at hbal
    all_goals rcases hsign with hside | hside <;> rw [hside] at hbal ⊢ <;> omega
  · rw [height_attach, height_attach, hleaf, hnew]
    dsimp only
    rw [BinaryTree.height] at hbal ⊢
    split_ifs with hunbalanced
    all_goals
      rcases hsign with hside | hside <;> rw [hside] at hbal hunbalanced <;> omega
  · rw [balance_attach]
    dsimp only
    split_ifs with hbalanced
    · exact .inr ⟨rfl, hbalanced⟩
    · exact .inl rfl
  · rw [values_attach_addBalance]
    exact hcontext _ true ⟨[], [], rfl, rfl, by simp, by simp⟩

private theorem insertBelow_node (havl : Avl ((Frame.mk s base sibling).attach child))
    (hchild : child ≠ .nil) (hinserted : InsertResult data child inserted)
    (hcontext : ∀ child' grown, Inserts data (values child) (values child') grown →
      Inserts data (values ((Frame.mk s base sibling).attach child))
        (values ((Frame.mk s base sibling).attach child')) grown) :
    InsertResult data ((Frame.mk s base sibling).attach child)
      (insertBelow data base s child sibling inserted) := by
  have hsign : sign s = 1 ∨ sign s = -1 := by cases s <;> simp [sign]
  obtain ⟨hbal, hlow, hhigh, hsibling, -⟩ := (avl_attach _ _).1 havl
  dsimp only at hbal hlow hhigh hsibling
  obtain ⟨child', hc, grown, rfl, havl', hheight, hhc, hvalues⟩ := hinserted
  have hnew : (base.addBalance (sign s * hc)).balance = base.balance + sign s * hc := rfl
  unfold insertBelow
  rw [if_neg (by simpa using hchild)]
  by_cases himbalanced : (base.addBalance (sign s * hc)).imbalanced = true
  · -- the child got higher and was the higher one already
    have hgrew : hc = 1 ∧ balance child' ≠ 0 := by
      refine hhc.resolve_left fun hzero => ?_
      rw [imbalanced_iff, hnew, hzero] at himbalanced
      omega
    obtain ⟨rfl, hunbalanced⟩ := hgrew
    have htwo : (base.addBalance (sign s * 1)).balance = 2 * sign s := by
      rw [imbalanced_iff, hnew] at himbalanced
      rw [hnew]
      omega
    have hhigher : child'.height = sibling.height + 2 := by
      rw [hnew] at htwo
      rcases hsign with hside | hside <;> rw [hside] at hbal htwo <;> omega
    have hrebalanced : Rebalanced
        ((Frame.mk s (base.addBalance (sign s * 1)) sibling).attach child') child'
        (rebalance ((Frame.mk s (base.addBalance (sign s * 1)) sibling).attach child')) := by
      cases s with
      | left => exact rebalance_left havl' hsibling hhigher htwo fun hzero => absurd hzero hunbalanced
      | right => exact rebalance_right hsibling havl' hhigher htwo
    obtain ⟨tree', h, hrebalance, havl'', hvalues', hheight', hh⟩ := hrebalanced
    rw [if_neg hunbalanced] at hh
    refine ⟨tree', 0, grown, ?_, havl'', ?_, .inl rfl, ?_⟩
    · change (if (base.addBalance (sign s * 1)).imbalanced = true then _ else _) = _
      rw [if_pos himbalanced, hrebalance]
      rfl
    · rw [height_attach] at hheight' ⊢
      dsimp only at hheight' ⊢
      omega
    · rw [hvalues', values_attach_addBalance]
      exact hcontext _ _ hvalues
  · refine ⟨(Frame.mk s (base.addBalance (sign s * hc)) sibling).attach child',
      if hc = 1 ∧ (base.addBalance (sign s * hc)).balance ≠ 0 then 1 else 0, grown,
      by simp [himbalanced], ?_, ?_, ?_, ?_⟩
    · rw [imbalanced_iff, hnew] at himbalanced
      rw [avl_attach]
      dsimp only
      refine ⟨?_, ?_, ?_, hsibling, havl'⟩ <;> rw [hnew]
      · rw [hheight, hbal]
        ring
      · omega
      · omega
    · rw [imbalanced_iff, hnew] at himbalanced
      rw [height_attach, height_attach, hnew]
      dsimp only
      rcases hhc with rfl | ⟨rfl, -⟩
      · rw [if_neg (by simp)]
        push_cast
        omega
      · split_ifs with hgrew
        all_goals
          rcases hsign with hside | hside <;>
            simp only [hside, true_and] at hbal himbalanced hgrew <;> push_cast <;> omega
    · rw [balance_attach]
      dsimp only
      split_ifs with hgrew
      · exact .inr ⟨rfl, hgrew.2⟩
      · exact .inl rfl
    · rw [values_attach_addBalance]
      exact hcontext _ _ hvalues

theorem insert_spec (data : Value) {tree : Tree Value} (havl : Avl tree) (hne : tree ≠ .nil)
    (hsorted : (values tree).Pairwise (· < ·)) :
    InsertResult data tree (insert data tree) := by
  induction tree with
  | nil => exact absurd rfl hne
  | node base left right ihleft ihright =>
      obtain ⟨-, -, -, hleft, hright⟩ := id havl
      rw [values_node, List.pairwise_append, List.pairwise_cons] at hsorted
      obtain ⟨hsleft, ⟨hbase, hsright⟩, hcross⟩ := hsorted
      rw [insert]
      cases hcompare : compare base.data data with
      | eq =>
          refine ⟨_, 0, false, rfl, havl, by simp, .inl rfl, ?_, rfl⟩
          rw [values_node, compare_eq_iff_eq.1 hcompare]
          simp
      | gt =>
          have hlt : data < base.data := compare_gt_iff_gt.1 hcompare
          have hcontext : ∀ child' grown, Inserts data (values left) (values child') grown →
              Inserts data (values ((Frame.mk .left base right).attach left))
                (values ((Frame.mk .left base right).attach child')) grown := by
            intro child' grown hinserts
            simp only [Frame.attach, values_node]
            refine hinserts.append_right fun x hx => ?_
            rcases List.mem_cons.1 hx with rfl | hx
            · exact hlt
            · exact hlt.trans (hbase x hx)
          by_cases hnil : left = .nil
          · subst hnil
            exact insertBelow_nil .left havl hcontext
          · exact insertBelow_node .left havl hnil (ihleft hleft hnil hsleft) hcontext
      | lt =>
          have hlt : base.data < data := compare_lt_iff_lt.1 hcompare
          have hcontext : ∀ child' grown, Inserts data (values right) (values child') grown →
              Inserts data (values ((Frame.mk .right base left).attach right))
                (values ((Frame.mk .right base left).attach child')) grown := by
            intro child' grown hinserts
            simp only [Frame.attach, values_node]
            have hbase' : ∀ x ∈ [base.data], x < data := by simpa using hlt
            have hbelow : Inserts data (base.data :: values right) (base.data :: values child')
                grown := hinserts.append_left hbase'
            exact hbelow.append_left fun x hx => (hcross x hx _ List.mem_cons_self).trans hlt
          by_cases hnil : right = .nil
          · subst hnil
            exact insertBelow_nil .right havl hcontext
          · exact insertBelow_node .right havl hnil (ihright hright hnil hsright) hcontext

end Insertion

/-! ## Iterators -/

/-- The values from the position on. -/
def rest : Iterator Value → List Value
  | none => []
  | some position =>
      position.node.data :: values position.right ++ (after position.path).map Node.data

theorem leftmost_spec {tree : Tree Value} (hne : tree ≠ .nil)
    (path : List (Frame (Node Value))) :
    ∃ position, leftmost path tree = some position ∧ position.left = .nil ∧
      before position.path = before path ∧
      reassemble position.path position.subtree = reassemble path tree ∧
      rest (some position) = values tree ++ (after path).map Node.data := by
  induction tree generalizing path with
  | nil => exact absurd rfl hne
  | node node left right ihleft _ =>
      unfold leftmost
      by_cases hleft : left = .nil
      · subst hleft
        exact ⟨⟨path, node, .nil, right⟩, rfl, rfl, rfl, rfl, by simp [rest]⟩
      · rw [if_neg (by simpa using hleft)]
        obtain ⟨position, heq, hnil, hbefore, hreassemble, hrest⟩ :=
          ihleft hleft (⟨.left, node, right⟩ :: path)
        refine ⟨position, heq, hnil, hbefore, hreassemble, ?_⟩
        rw [hrest]
        simp [after, values]

theorem rest_climb (path : List (Frame (Node Value))) (tree : Tree Value) :
    rest (climb path tree) = (after path).map Node.data := by
  induction path generalizing tree with
  | nil => rfl
  | cons frame path ih =>
      obtain ⟨side, node, sibling⟩ := frame
      cases side with
      | left => simp [climb, rest, after, values]
      | right => exact ih _

theorem rest_next (iterator : Iterator Value) : rest (next iterator) = (rest iterator).tail := by
  cases iterator with
  | none => rfl
  | some position =>
      unfold next
      dsimp only
      split_ifs with hright
      · rw [isNil_iff] at hright
        rw [rest_climb]
        simp [rest, hright]
      · obtain ⟨position', heq, -, -, -, hrest⟩ := leftmost_spec (by simpa using hright)
          (⟨.right, position.node, position.left⟩ :: position.path)
        rw [heq, hrest]
        rfl

/-- The values that an iteration with `operator++` visits before it meets the end. -/
inductive Visits : Iterator Value → List Value → Prop
  | stop : Visits none []
  | step {position : Position Value} {visited : List Value} :
      Visits (next (some position)) visited →
        Visits (some position) (position.node.data :: visited)

theorem visits_rest (iterator : Iterator Value) : Visits iterator (rest iterator) := by
  induction hlength : (rest iterator).length generalizing iterator with
  | zero =>
      cases iterator with
      | none => exact .stop
      | some position => simp [rest] at hlength
  | succ n ih =>
      cases iterator with
      | none => simp [rest] at hlength
      | some position =>
          have hnext : rest (next (some position)) =
              values position.right ++ (after position.path).map Node.data :=
            rest_next (some position)
          change Visits (some position) (position.node.data :: (values position.right ++
            (after position.path).map Node.data))
          rw [← hnext]
          refine .step (ih _ ?_)
          rw [hnext]
          simpa [rest] using hlength

theorem rest_beginInorder (tree : State Value) : rest (beginInorder tree) = values tree.root := by
  unfold beginInorder
  by_cases hnil : tree.root = .nil
  · rw [hnil]
    rfl
  · obtain ⟨position, heq, -, -, -, hrest⟩ := leftmost_spec hnil []
    rw [heq, hrest]
    simp [after]

/-! ## Searching -/

section Searching

variable [LinearOrder Value]

theorem findFrom_spec (data : Value) {tree : Tree Value} (hne : tree ≠ .nil)
    (path : List (Frame (Node Value))) :
    ∃ position, findFrom data path tree = some position ∧
      reassemble position.path position.subtree = reassemble path tree ∧
      ((values tree).Pairwise (· < ·) → data ∈ values tree → position.node.data = data) := by
  induction tree generalizing path with
  | nil => exact absurd rfl hne
  | node node left right ihleft ihright =>
      unfold findFrom
      cases hcompare : compare node.data data with
      | eq => exact ⟨_, rfl, rfl, fun _ _ => compare_eq_iff_eq.1 hcompare⟩
      | gt =>
          have hlt : data < node.data := compare_gt_iff_gt.1 hcompare
          have hmem : (values (.node node left right)).Pairwise (· < ·) →
              data ∈ values (.node node left right) → data ∈ values left := by
            intro hsorted hdata
            rw [values_node, List.pairwise_append, List.pairwise_cons] at hsorted
            rw [values_node, List.mem_append, List.mem_cons] at hdata
            rcases hdata with hdata | rfl | hdata
            · exact hdata
            · exact absurd hlt (lt_irrefl _)
            · exact absurd (hsorted.2.1.1 data hdata) hlt.asymm
          dsimp only
          split_ifs with hleft
          · rw [isNil_iff] at hleft
            refine ⟨_, rfl, rfl, fun hsorted hdata => ?_⟩
            simpa [hleft] using hmem hsorted hdata
          · obtain ⟨position, heq, hreassemble, hfound⟩ :=
              ihleft (by simpa using hleft) (⟨.left, node, right⟩ :: path)
            refine ⟨position, heq, hreassemble, fun hsorted hdata => ?_⟩
            exact hfound (List.pairwise_append.1 (values_node node left right ▸ hsorted)).1
              (hmem hsorted hdata)
      | lt =>
          have hlt : node.data < data := compare_lt_iff_lt.1 hcompare
          have hmem : (values (.node node left right)).Pairwise (· < ·) →
              data ∈ values (.node node left right) → data ∈ values right := by
            intro hsorted hdata
            rw [values_node, List.pairwise_append] at hsorted
            rw [values_node, List.mem_append, List.mem_cons] at hdata
            rcases hdata with hdata | rfl | hdata
            · exact absurd (hsorted.2.2 data hdata _ List.mem_cons_self) hlt.asymm
            · exact absurd hlt (lt_irrefl _)
            · exact hdata
          dsimp only
          split_ifs with hright
          · rw [isNil_iff] at hright
            refine ⟨_, rfl, rfl, fun hsorted hdata => ?_⟩
            simpa [hright] using hmem hsorted hdata
          · obtain ⟨position, heq, hreassemble, hfound⟩ :=
              ihright (by simpa using hright) (⟨.right, node, left⟩ :: path)
            refine ⟨position, heq, hreassemble, fun hsorted hdata => ?_⟩
            rw [values_node, List.pairwise_append, List.pairwise_cons] at hsorted
            exact hfound hsorted.2.1.2 (hmem (by
              rwa [values_node, List.pairwise_append, List.pairwise_cons]) hdata)

theorem find_spec {tree : State Value} (hsorted : (values tree.root).Pairwise (· < ·))
    (data : Value) :
    (data ∉ values tree.root → find tree data = none) ∧
      (data ∈ values tree.root → ∃ position, find tree data = some position ∧
        position.node.data = data ∧
        reassemble position.path position.subtree = tree.root) := by
  unfold find
  by_cases hnil : tree.root = .nil
  · rw [hnil]
    exact ⟨fun _ => rfl, fun hdata => absurd hdata List.not_mem_nil⟩
  · obtain ⟨position, heq, hreassemble, hfound⟩ := findFrom_spec data hnil []
    rw [heq, Option.filter_some]
    refine ⟨fun hdata => ?_, fun hdata => ⟨position, ?_, hfound hsorted hdata, hreassemble⟩⟩
    · refine if_neg fun hcompare => hdata ?_
      have hsame : position.node.data = data := by simpa using hcompare
      have hvalues := values_reassemble position.path position.subtree
      rw [hreassemble] at hvalues
      change values tree.root = _ at hvalues
      rw [hvalues, valuesAround, ← hsame]
      simp [Position.subtree]
    · simp [hfound hsorted hdata]

end Searching

end Wiselib.AvlTree
