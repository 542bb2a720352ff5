import Wiselib.TupleStore.PrescillaRuns

/-!
# The shape of the Prescilla trie

A run leaves finitely many nodes, and a node that does not count has both of its
children (`Compact`), except for the root.

## Strategy

Every operation is a sequence of writes to single nodes, and `Compact.update`
says what a write has to keep.  Between two writes one node may be exempt:

* the node that `insert` counts up, or splits and gives a second child;
* the node that `erase` counts down, and then the parent of a leaf it unlinks.

The node that is merged is the one that would stay exempt.
-/

namespace Wiselib.Prescilla

open Transition

/-! ## Nodes that do not count -/

/-- The nodes are finitely many, and those that are not exempt count or have both
children. -/
structure Compact (heap : Heap) (exempt : Set Ptr) : Prop where
  finite : {p | heap p ≠ none}.Finite
  full : ∀ p node, heap p = some node → p ∉ exempt → node.count = 0 →
    ∀ bit, node.children bit ≠ 0

namespace Compact

variable {heap heap' : Heap} {exempt exempt' : Set Ptr} {p : Ptr} {node : Node}

theorem update (hcompact : Compact heap exempt) (hexempt : exempt ⊆ exempt' ∪ {p})
    (hnode : p ∉ exempt' → node.count = 0 → ∀ bit, node.children bit ≠ 0) :
    Compact (Function.update heap p (some node)) exempt' := by
  constructor
  · refine (hcompact.finite.insert p).subset fun q hq => ?_
    by_cases hqp : q = p
    · exact .inl hqp
    · rw [Set.mem_ofPred_eq, Function.update_of_ne hqp] at hq
      exact .inr hq
  · intro q other hread hnot hcount
    by_cases hqp : q = p
    · subst hqp
      rw [Function.update_self] at hread
      obtain rfl := Option.some.inj hread
      exact hnode hnot hcount
    · rw [Function.update_of_ne hqp] at hread
      exact hcompact.full q other hread
        (fun hin => (hexempt hin).elim hnot hqp) hcount

theorem remove (hcompact : Compact heap exempt) (hexempt : exempt ⊆ exempt' ∪ {p}) :
    Compact (Function.update heap p none) exempt' := by
  constructor
  · refine hcompact.finite.subset fun q hq hnone => hq ?_
    by_cases hqp : q = p
    · rw [hqp, Function.update_self]
    · rw [Function.update_of_ne hqp, hnone]
  · intro q other hread hnot hcount
    by_cases hqp : q = p
    · rw [hqp, Function.update_self] at hread
      cases hread
    · rw [Function.update_of_ne hqp] at hread
      exact hcompact.full q other hread
        (fun hin => (hexempt hin).elim hnot hqp) hcount

theorem mono (hcompact : Compact heap exempt) (hexempt : exempt ⊆ exempt') :
    Compact heap exempt' :=
  ⟨hcompact.finite, fun p node hread hnot => hcompact.full p node hread fun hin =>
    hnot (hexempt hin)⟩

theorem of_count (hcompact : Compact heap (exempt ∪ {p})) (hcount : 0 < countAt heap p) :
    Compact heap exempt := by
  refine ⟨hcompact.finite, fun q other hread hnot hzero => ?_⟩
  refine hcompact.full q other hread (fun hin => ?_) hzero
  rcases hin with hin | rfl
  · exact hnot hin
  · rw [countAt, hread] at hcount
    exact absurd hzero hcount.ne'

end Compact

theorem write_eq_some {heap heap' : Heap} {p : Ptr} {change : Node → Node}
    (hwrite : write heap p change = some heap') :
    ∃ node, heap p = some node ∧ heap' = Function.update heap p (some (change node)) := by
  obtain ⟨node, hread, rfl⟩ := Option.map_eq_some_iff.1 hwrite
  exact ⟨node, hread, rfl⟩

theorem Compact.write {heap heap' : Heap} {exempt : Set Ptr} {p : Ptr} {change : Node → Node}
    (hcompact : Compact heap exempt) (hwrite : write heap p change = some heap')
    (hchange : ∀ node, (change node).count = node.count ∧
      ∀ bit, node.children bit ≠ 0 → (change node).children bit ≠ 0) : Compact heap' exempt := by
  obtain ⟨node, hread, rfl⟩ := write_eq_some hwrite
  obtain ⟨hcount, hchildren⟩ := hchange node
  refine hcompact.update Set.subset_union_left fun hnot hzero bit => hchildren bit ?_
  exact hcompact.full p node hread hnot (hcount ▸ hzero) bit

theorem setChild_children_ne_zero (node : Node) (first : Bool) {child : Ptr} (hchild : child ≠ 0)
    (bit : Bool) (hbit : node.children bit ≠ 0) : (node.setChild first child).children bit ≠ 0 := by
  rw [Node.setChild_children]
  split_ifs
  · exact hchild
  · exact hbit

/-! ## `insert` -/

section Insert

variable {dictionary dictionary' : Dictionary} {exempt : Set Ptr} {new key : Ptr}

theorem appendNode_compact (hcompact : Compact dictionary.heap exempt) (hnew : new ≠ 0)
    {parent : Ptr} {rest : List Bool}
    (happend : appendNode dictionary parent rest new = some (dictionary', key)) :
    Compact dictionary'.heap exempt := by
  obtain ⟨first, -, happend⟩ := Option.bind_eq_some_iff.1 happend
  obtain ⟨heap, hwrite, happend⟩ := Option.bind_eq_some_iff.1 happend
  obtain ⟨rfl, -⟩ := Prod.mk.inj (Option.some.inj happend)
  refine (hcompact.update Set.subset_union_left fun _ hzero => ?_).write hwrite
    fun node => ⟨rfl, setChild_children_ne_zero node first hnew⟩
  exact absurd hzero one_ne_zero

/-- A node that gets the child it lacked is not exempt any more. -/
theorem appendNode_compact_of_exempt {parent : Ptr}
    (hcompact : Compact dictionary.heap (exempt ∪ {parent})) (hnew : new ≠ 0)
    (hne : parent ≠ new) {node : Node} (hparent : dictionary.heap parent = some node)
    {rest : List Bool} (hrest : ∀ bit, rest.head? ≠ some bit → node.children bit ≠ 0)
    (happend : appendNode dictionary parent rest new = some (dictionary', key)) :
    Compact dictionary'.heap exempt := by
  obtain ⟨first, hfirst, happend⟩ := Option.bind_eq_some_iff.1 happend
  obtain ⟨heap, hwrite, happend⟩ := Option.bind_eq_some_iff.1 happend
  obtain ⟨rfl, -⟩ := Prod.mk.inj (Option.some.inj happend)
  obtain ⟨other, hread, rfl⟩ := write_eq_some hwrite
  rw [Function.update_of_ne hne, hparent] at hread
  obtain rfl := Option.some.inj hread
  have hallocated : Compact (Function.update dictionary.heap new
      (some ⟨fun _ => 0, parent, 1, uint16 rest.length, rest⟩)) (exempt ∪ {parent}) :=
    hcompact.update Set.subset_union_left fun _ hzero => absurd hzero one_ne_zero
  refine hallocated.update (Set.Subset.refl _) fun _ _ bit => ?_
  rw [Node.setChild_children]
  split_ifs with hbit
  · exact hnew
  · refine hrest bit fun heq => hbit ?_
    rw [hfirst] at heq
    exact (Option.some.inj heq).symm

theorem countUp_compact {current : Ptr} (hcompact : Compact dictionary.heap exempt)
    (hcount : countUp dictionary current = some (dictionary', key)) :
    key = current ∧ Compact dictionary'.heap (exempt ∪ {current}) := by
  obtain ⟨node, -, hcount⟩ := Option.bind_eq_some_iff.1 hcount
  obtain ⟨heap, hwrite, hcount⟩ := Option.bind_eq_some_iff.1 hcount
  obtain ⟨rfl, rfl⟩ := Prod.mk.inj (Option.some.inj hcount)
  obtain ⟨other, -, rfl⟩ := write_eq_some hwrite
  exact ⟨rfl, hcompact.update (Set.subset_union_left.trans Set.subset_union_left)
    fun hnot => absurd (.inr rfl) hnot⟩

/-- The node that a split makes has one child, and the other nodes are as before. -/
theorem splitNode_compact {split : Dictionary} {current : Ptr} {idx : ℕ} {node : Node}
    (hcompact : Compact dictionary.heap exempt) (hcurrent : dictionary.heap current = some node)
    (hzero : current ≠ 0) (hnew : new ≠ 0)
    (hsplit : splitNode dictionary current idx new = some split) :
    Compact split.heap (exempt ∪ {new}) ∧ ∃ snode backBit, split.heap new = some snode ∧
      node.data[idx]? = some backBit ∧ snode.children backBit ≠ 0 := by
  obtain ⟨node', hread, hsplit⟩ := Option.bind_eq_some_iff.1 hsplit
  obtain rfl := Option.some.inj (hcurrent.symm.trans hread)
  obtain ⟨frontBit, -, hsplit⟩ := Option.bind_eq_some_iff.1 hsplit
  obtain ⟨backBit, hback, hsplit⟩ := Option.bind_eq_some_iff.1 hsplit
  obtain ⟨heap1, hwrite1, hsplit⟩ := Option.bind_eq_some_iff.1 hsplit
  obtain ⟨heap2, hwrite2, hsplit⟩ := Option.bind_eq_some_iff.1 hsplit
  obtain ⟨heap3, hwrite3, hsplit⟩ := Option.bind_eq_some_iff.1 hsplit
  obtain rfl := Option.some.inj hsplit
  have hallocated : Compact (Function.update dictionary.heap new
      (some ⟨fun _ => 0, node.parent, 0, uint16 idx, node.data.take idx⟩)) (exempt ∪ {new}) :=
    hcompact.update (Set.subset_union_left.trans Set.subset_union_left)
      fun hnot => absurd (.inr rfl) hnot
  refine ⟨((hallocated.write hwrite1 fun node =>
      ⟨rfl, setChild_children_ne_zero node frontBit hnew⟩).write hwrite2 fun node =>
      ⟨rfl, fun _ hbit => hbit⟩).write hwrite3 fun node =>
      ⟨rfl, setChild_children_ne_zero node backBit hzero⟩, ?_⟩
  obtain ⟨snode, -, rfl⟩ := write_eq_some hwrite3
  refine ⟨_, backBit, Function.update_self _ _ _, ?_, ?_⟩
  · rw [List.head?_drop, List.getElem?_take] at hback
    split_ifs at hback
    exact hback
  · rw [Node.setChild_children, if_pos rfl]
    exact hzero

theorem appendNode_root {parent : Ptr} {rest : List Bool}
    (happend : appendNode dictionary parent rest new = some (dictionary', key)) :
    dictionary'.root = dictionary.root := by
  obtain ⟨first, -, happend⟩ := Option.bind_eq_some_iff.1 happend
  obtain ⟨heap, -, happend⟩ := Option.bind_eq_some_iff.1 happend
  obtain ⟨rfl, -⟩ := Prod.mk.inj (Option.some.inj happend)
  rfl

theorem countUp_root {current : Ptr}
    (hcount : countUp dictionary current = some (dictionary', key)) :
    dictionary'.root = dictionary.root := by
  obtain ⟨node, -, hcount⟩ := Option.bind_eq_some_iff.1 hcount
  obtain ⟨heap, -, hcount⟩ := Option.bind_eq_some_iff.1 hcount
  obtain ⟨rfl, -⟩ := Prod.mk.inj (Option.some.inj hcount)
  rfl

theorem splitNode_root {split : Dictionary} {current : Ptr} {idx : ℕ}
    (hsplit : splitNode dictionary current idx new = some split) :
    split.root = dictionary.root := by
  obtain ⟨node, -, hsplit⟩ := Option.bind_eq_some_iff.1 hsplit
  obtain ⟨frontBit, -, hsplit⟩ := Option.bind_eq_some_iff.1 hsplit
  obtain ⟨backBit, -, hsplit⟩ := Option.bind_eq_some_iff.1 hsplit
  obtain ⟨heap1, -, hsplit⟩ := Option.bind_eq_some_iff.1 hsplit
  obtain ⟨heap2, -, hsplit⟩ := Option.bind_eq_some_iff.1 hsplit
  obtain ⟨heap3, -, hsplit⟩ := Option.bind_eq_some_iff.1 hsplit
  obtain rfl := Option.some.inj hsplit
  rfl

theorem insert_root {value : List Byte} {new1 new2 : Ptr}
    (hinsert : insert dictionary value new1 new2 = some (dictionary', key)) :
    dictionary'.root = dictionary.root := by
  obtain ⟨first, -, hinsert⟩ := Option.bind_eq_some_iff.1 hinsert
  obtain ⟨root, -, hinsert⟩ := Option.bind_eq_some_iff.1 hinsert
  split_ifs at hinsert
  · exact appendNode_root hinsert
  · obtain ⟨ends, -, hinsert⟩ := Option.bind_eq_some_iff.1 hinsert
    cases ends with
    | tail current rest => exact appendNode_root hinsert
    | stop current idx rest =>
        obtain ⟨node, -, hinsert⟩ := Option.bind_eq_some_iff.1 hinsert
        split_ifs at hinsert
        · obtain ⟨split, hsplit, hinsert⟩ := Option.bind_eq_some_iff.1 hinsert
          exact (countUp_root hinsert).trans (splitNode_root hsplit)
        · obtain ⟨split, hsplit, hinsert⟩ := Option.bind_eq_some_iff.1 hinsert
          exact (appendNode_root hinsert).trans (splitNode_root hsplit)
        · exact countUp_root hinsert
        · exact appendNode_root hinsert

theorem walk_stop {heap : Heap} {q : Ptr} {i : ℕ} {bit : Bool} {rest : List Bool} :
    ∀ (v : List Bool) (p : Ptr) (idx : ℕ), walk heap v p idx = some (.stop q i (bit :: rest)) →
      ∃ node, heap q = some node ∧ node.data[i]? = some !bit := by
  intro v
  induction v with
  | nil =>
      intro p idx hwalk
      simp [walk] at hwalk
  | cons first tail ih =>
      intro p idx hwalk
      obtain ⟨node, hread, hwalk⟩ := Option.bind_eq_some_iff.1 hwalk
      obtain ⟨nodeBit, hbit, hwalk⟩ := Option.bind_eq_some_iff.1 hwalk
      by_cases hsame : nodeBit = first
      · simp only [if_pos hsame] at hwalk
        split_ifs at hwalk with hend
        · cases hhead : tail.head? with
          | none =>
              rw [hhead] at hwalk
              exact ih _ _ hwalk
          | some next =>
              simp only [hhead] at hwalk
              split_ifs at hwalk
              · exact ih _ _ hwalk
              · cases hwalk
        · exact ih _ _ hwalk
      · simp only [if_neg hsame, Option.some.injEq, Walk.stop.injEq, List.cons.injEq] at hwalk
        obtain ⟨rfl, rfl, rfl, rfl⟩ := hwalk
        refine ⟨node, hread, hbit.trans (congrArg some ?_)⟩
        cases nodeBit <;> cases first <;> first | rfl | exact absurd rfl hsame

/-- After `insert` only the node of the string may not have both children. -/
theorem insert_compact (hcompact : Compact dictionary.heap exempt) {value : List Byte}
    {new1 new2 : Ptr} (hnull : dictionary.heap 0 = none) (hzero1 : new1 ≠ 0) (hzero2 : new2 ≠ 0)
    (hne : new1 ≠ new2)
    (hinsert : insert dictionary value new1 new2 = some (dictionary', key)) :
    Compact dictionary'.heap (exempt ∪ {key}) := by
  obtain ⟨first, -, hinsert⟩ := Option.bind_eq_some_iff.1 hinsert
  obtain ⟨root, -, hinsert⟩ := Option.bind_eq_some_iff.1 hinsert
  by_cases hchild : root.children first = 0
  · rw [if_pos hchild] at hinsert
    exact (appendNode_compact hcompact hzero1 hinsert).mono Set.subset_union_left
  · rw [if_neg hchild] at hinsert
    obtain ⟨ends, hwalk, hinsert⟩ := Option.bind_eq_some_iff.1 hinsert
    cases ends with
    | tail current rest =>
        exact (appendNode_compact hcompact hzero1 hinsert).mono Set.subset_union_left
    | stop current idx rest =>
        obtain ⟨node, hcurrent, hinsert⟩ := Option.bind_eq_some_iff.1 hinsert
        have hzero : current ≠ 0 := by
          rintro rfl
          rw [hnull] at hcurrent
          cases hcurrent
        by_cases hidx : idx < node.dataSize
        · rw [if_pos hidx] at hinsert
          obtain ⟨split, hsplit, hinsert⟩ := Option.bind_eq_some_iff.1 hinsert
          obtain ⟨hsplitted, snode, backBit, hsnode, hback, hbackChild⟩ :=
            splitNode_compact hcompact hcurrent hzero hzero1 hsplit
          cases rest with
          | nil =>
              rw [if_pos rfl] at hinsert
              obtain ⟨rfl, hcounted⟩ := countUp_compact hsplitted hinsert
              exact hcounted.mono (Set.union_subset (Set.Subset.refl _) Set.subset_union_right)
          | cons bit rest =>
              rw [if_neg (List.cons_ne_nil _ _)] at hinsert
              obtain ⟨node', hread, hother⟩ := walk_stop _ _ _ hwalk
              obtain rfl := Option.some.inj (hcurrent.symm.trans hread)
              obtain rfl := Option.some.inj (hother.symm.trans hback)
              refine (appendNode_compact_of_exempt hsplitted hzero2 hne hsnode
                (fun other hnot => ?_) hinsert).mono Set.subset_union_left
              have hbit : other = !bit := by
                rw [List.head?_cons, ne_eq, Option.some.injEq] at hnot
                exact Bool.eq_not.2 (Ne.symm hnot)
              rw [hbit]
              exact hbackChild
        · rw [if_neg hidx] at hinsert
          by_cases hrest : rest = []
          · rw [if_pos hrest] at hinsert
            obtain ⟨rfl, hcounted⟩ := countUp_compact hcompact hinsert
            exact hcounted
          · rw [if_neg hrest] at hinsert
            exact (appendNode_compact hcompact hzero1 hinsert).mono Set.subset_union_left

end Insert

/-! ## `erase` -/

section Erase

variable {heap heap' : Heap} {root : Ptr} {label : Ptr → List Bool} {current : Ptr} {node : Node}

theorem mergeNode_compact (hrep : Represents heap root label)
    (hcompact : Compact heap ({root} ∪ {current})) (hcurrent : heap current = some node)
    (hchild : current ≠ root → node.count = 0 → ∃ bit, node.children bit ≠ 0)
    (hmerge : mergeNode heap current = some heap') : Compact heap' {root} := by
  unfold mergeNode at hmerge
  simp only [hcurrent, Option.bind_eq_bind, Option.bind_some] at hmerge
  split_ifs at hmerge with hcondition
  · obtain ⟨-, -, hzero⟩ := hcondition
    obtain ⟨child, -, hmerge⟩ := Option.bind_eq_some_iff.1 hmerge
    obtain ⟨first, -, hmerge⟩ := Option.bind_eq_some_iff.1 hmerge
    obtain ⟨heap1, hwrite1, hmerge⟩ := Option.bind_eq_some_iff.1 hmerge
    obtain ⟨heap2, hwrite2, hmerge⟩ := Option.bind_eq_some_iff.1 hmerge
    obtain rfl := Option.some.inj hmerge
    exact ((hcompact.write hwrite1 fun _ => ⟨rfl, fun _ hbit => hbit⟩).write hwrite2
      fun parent => ⟨rfl, setChild_children_ne_zero parent first hzero⟩).remove
        (Set.Subset.refl _)
  · obtain rfl := Option.some.inj hmerge
    refine ⟨hcompact.finite, fun p other hread hnot hcount => ?_⟩
    by_cases hp : p = current
    · subst hp
      obtain rfl := Option.some.inj (hcurrent.symm.trans hread)
      -- there is nothing to merge, so the node has both children
      have hroot : node.isRoot = false := by
        rw [← Bool.not_eq_true]
        exact fun h => hnot ((hrep.isRoot_iff hcurrent).1 h)
      have hnone : nodeToMerge node = 0 := by
        by_contra hne
        exact hcondition ⟨by rw [hroot]; rfl, hcount, hne⟩
      obtain ⟨bit, hbit⟩ := hchild hnot hcount
      unfold nodeToMerge at hnone
      intro other
      cases bit <;> cases other <;> grind
    · exact hcompact.full p other hread (fun hin => hin.elim hnot hp) hcount

/-- After the first part of `erase` the node to go on with is the only one that may lack a
child. -/
theorem unlinkLeaf_compact {entry : Ptr} (hcompact : Compact heap ({root} ∪ {entry}))
    (hentry : heap entry = some node) (hroot : node.isRoot = false)
    (hunlink : unlinkLeaf heap entry = some (heap', current)) {cnode : Node}
    (hcurrent : heap' current = some cnode) :
    Compact heap' ({root} ∪ {current}) ∧
      (current ≠ root → cnode.count = 0 → ∃ bit, cnode.children bit ≠ 0) := by
  unfold unlinkLeaf at hunlink
  simp only [hentry, Option.bind_eq_bind, Option.bind_some, hroot, Bool.not_false] at hunlink
  split_ifs at hunlink with hleaf
  · obtain ⟨first, -, hunlink⟩ := Option.bind_eq_some_iff.1 hunlink
    obtain ⟨heap1, hwrite, hunlink⟩ := Option.bind_eq_some_iff.1 hunlink
    obtain ⟨rfl, rfl⟩ := Prod.mk.inj (Option.some.inj hunlink)
    obtain ⟨parent, hparent, rfl⟩ := write_eq_some hwrite
    have hne : node.parent ≠ entry := by
      intro heq
      rw [heq, Function.update_self] at hcurrent
      cases hcurrent
    rw [Function.update_of_ne hne, Function.update_self] at hcurrent
    obtain rfl := Option.some.inj hcurrent
    refine ⟨?_, fun hnot hcount => ⟨!first, ?_⟩⟩
    · have hwritten : Compact (Function.update heap node.parent (some (parent.setChild first 0)))
          ({root} ∪ {entry} ∪ {node.parent}) :=
        hcompact.update (Set.subset_union_left.trans Set.subset_union_left)
          fun hnot => absurd (.inr rfl) hnot
      refine hwritten.remove fun p hp => ?_
      rcases hp with (hp | hp) | hp
      · exact .inl (.inl hp)
      · exact .inr hp
      · exact .inl (.inr hp)
    · rw [Node.setChild_children, if_neg (by cases first <;> decide)]
      exact hcompact.full _ parent hparent (fun hin => hin.elim hnot hne) hcount _
  · obtain ⟨rfl, rfl⟩ := Prod.mk.inj (Option.some.inj hunlink)
    obtain rfl := Option.some.inj (hentry.symm.trans hcurrent)
    refine ⟨hcompact, fun _ _ => ?_⟩
    by_contra hnone
    push Not at hnone
    exact hleaf ⟨trivial, hnone false, hnone true⟩

theorem erase_compact {dictionary dictionary' : Dictionary}
    (hrep : Represents dictionary.heap dictionary.root label)
    (hcompact : Compact dictionary.heap {dictionary.root}) {entry : Ptr}
    (hroot : entry ≠ dictionary.root) (hpos : 0 < countAt dictionary.heap entry)
    (hmax : countAt dictionary.heap entry < 65536) (hfits : EraseFits dictionary.heap entry)
    (herase : erase dictionary entry = some dictionary') :
    Compact dictionary'.heap {dictionary.root} := by
  obtain ⟨node, hentry, hcount⟩ := mem_of_countAt_pos hpos
  have hmod : uint16 (node.count + 65535) = node.count - 1 := by
    unfold uint16
    omega
  have hwrite : write dictionary.heap entry (fun n => { n with count := node.count - 1 }) =
      some (Function.update dictionary.heap entry
        (some { node with count := node.count - 1 })) := by
    rw [write, hentry, Option.map_some]
  unfold erase at herase
  simp only [hentry, Option.bind_eq_bind, Option.bind_some, hmod, hwrite] at herase
  by_cases hlive : node.count - 1 > 0
  · rw [if_pos hlive] at herase
    obtain rfl := Option.some.inj herase
    exact hcompact.update Set.subset_union_left fun _ hzero => absurd hzero hlive.ne'
  · rw [if_neg hlive] at herase
    have hcounted : Represents (Function.update dictionary.heap entry
        (some { node with count := node.count - 1 })) dictionary.root label := by
      refine hrep.congr fun p => ?_
      by_cases hp : p = entry
      · rw [hp, Function.update_self, hentry]
        rfl
      · rw [Function.update_of_ne hp]
    have hexempt : Compact (Function.update dictionary.heap entry
        (some { node with count := node.count - 1 })) ({dictionary.root} ∪ {entry}) :=
      hcompact.update (Set.subset_union_left.trans Set.subset_union_left)
        fun hnot => absurd (.inr rfl) hnot
    have hnotRoot : node.isRoot = false := by
      rw [← Bool.not_eq_true]
      exact fun h => hroot ((hrep.isRoot_iff hentry).1 h)
    have hone : countAt dictionary.heap entry = 1 := by omega
    obtain ⟨unlinked, current, cnode, hunlink, hcurrent, -, hunlinked, -⟩ :=
      unlinkLeaf_spec hcounted (Function.update_self _ _ _) (Nat.eq_zero_of_not_pos hlive)
        ((hfits hone).count hrep hentry hroot _)
    simp only [hunlink, Option.bind_some] at herase
    obtain ⟨merged, hmerge, hresult⟩ := Option.bind_eq_some_iff.1 herase
    obtain rfl := Option.some.inj hresult
    obtain ⟨hcompact', hchild⟩ :=
      unlinkLeaf_compact hexempt (Function.update_self _ _ _) hnotRoot hunlink hcurrent
    exact mergeNode_compact hunlinked hcompact' hcurrent hchild hmerge

end Erase

/-! ## Runs -/

/-- A session whose trie is compact. -/
structure SessionShape (session : Session) : Prop where
  inv : SessionInv session
  compact : Compact session.dictionary.heap {session.dictionary.root}

theorem sessionShape_start {root : Ptr} (hroot : root ≠ 0) : SessionShape (start root) := by
  refine ⟨sessionInv_start hroot, ⟨(Set.finite_singleton root).subset fun p hp => ?_,
    fun p node hread hnot => ?_⟩⟩
  · by_contra hne
    exact hp ((init_heap root p).trans (if_neg hne))
  · have hnone : (start root).dictionary.heap p = none := (init_heap root p).trans (if_neg hnot)
    rw [hnone] at hread
    cases hread

theorem sessionShape_perform {session next : Session} (hshape : SessionShape session) {op : Op}
    (hlegal : Legal session op) (hintact : Intact session op)
    (hperform : perform session op = some next) : SessionShape next := by
  obtain ⟨hsession, hcompact⟩ := hshape
  obtain ⟨next', hnext', hinv'⟩ := sessionInv_perform hsession hlegal hintact
  obtain rfl := Option.some.inj (hperform.symm.trans hnext')
  refine ⟨hinv', ?_⟩
  obtain ⟨label, hinv⟩ := hsession.inv
  cases op with
  | insert value new1 new2 =>
      obtain ⟨⟨dictionary', key⟩, hinsert, hresult⟩ := Option.bind_eq_some_iff.1 hperform
      obtain rfl := Option.some.inj hresult
      obtain ⟨-, -, -, hzero1, hzero2, hne, -, -⟩ := hlegal
      have hbalanced := hsession.balanced value
      obtain ⟨label', hinv'⟩ := hinv'.inv
      have hinserted := insert_compact hcompact hinv.represents.null hzero1 hzero2 hne hinsert
      dsimp only at hinv' ⊢
      rw [insert_root hinsert]
      -- the key that was returned is the node of the string, which counts
      refine hinserted.of_count ?_
      have hlive : 0 < Session.live { session with
          dictionary := dictionary'
          inserts := Function.update session.inserts value (session.inserts value + 1)
          returned := Function.update session.returned value
            (key :: session.returned value) } value := by
        simp only [Session.live, Function.update_self]
        omega
      obtain ⟨node, -, hcount, hreturned⟩ := hinv'.counted value hlive
      rw [hreturned key (by rw [Function.update_self]; exact List.mem_cons_self), hcount]
      exact hlive
  | erase value key =>
      obtain ⟨dictionary', herase, hresult⟩ := Option.bind_eq_some_iff.1 hperform
      obtain rfl := Option.some.inj hresult
      obtain ⟨hlive, hkey⟩ := hlegal
      obtain ⟨hvalue, -, hmax⟩ := hinv.legal value hlive
      obtain ⟨node, hlabel, hcount, hreturned⟩ := hinv.counted value hlive
      obtain rfl : key = node := by
        rcases hkey with hkey | hkey
        · exact hreturned key hkey
        · exact Option.some.inj (hkey.symm.trans (hinv.find_eq hlive hlabel hcount))
      have hroot : key ≠ session.dictionary.root := by
        rintro rfl
        exact bits_ne_nil hvalue (hlabel.symm.trans hinv.represents.label_root)
      obtain ⟨heap', hresult, -⟩ :=
        erase_spec hinv.represents hroot (by omega) (by omega) hintact
      have herased := erase_compact hinv.represents hcompact hroot (by omega) (by omega) hintact
        herase
      obtain rfl := Option.some.inj (herase.symm.trans hresult)
      exact herased

/-- The trie is compact after every run whose operations make no node of more than 65535
bits. -/
theorem sessionShape_of_run {root : Ptr} (hroot : root ≠ 0) {operations : List Op}
    {session : Session}
    (hrun : Run (Guarded (fun s op => Legal s op ∧ Intact s op) (stepOf perform)) (start root)
      operations session) : SessionShape session := by
  have hstep : ∀ state op next, SessionShape state →
      Guarded (fun s op => Legal s op ∧ Intact s op) (stepOf perform) state op next →
      SessionShape next := by
    rintro state op next hshape ⟨⟨hlegal, hintact⟩, hstep⟩
    exact sessionShape_perform hshape hlegal hintact hstep
  exact hrun.invariant hstep (sessionShape_start hroot)

end Wiselib.Prescilla
