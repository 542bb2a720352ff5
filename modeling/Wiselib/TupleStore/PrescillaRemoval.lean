import Wiselib.TupleStore.PrescillaSearch

/-!
# Removal from the Prescilla dictionary

`erase` counts down at the node of the key.  When the count gets zero, a leaf is
unlinked, and a node that is left with one child is merged into the child; the
labels of the nodes that stay do not change, provided that the merged bits fit
into a node.
-/

namespace Wiselib.Prescilla

/-- What the second part of `erase` merges at `current` fits into a node. -/
def MergeFits (heap : Heap) (current : Ptr) : Prop :=
  ∀ node child, heap current = some node → heap (nodeToMerge node) = some child →
    node.isRoot = false → node.count = 0 → node.dataSize + child.dataSize < 65536

theorem nodeToMerge_cases {node : Node} (hmerge : nodeToMerge node ≠ 0) :
    ∃ bit, node.children bit = nodeToMerge node ∧
      ∀ other, node.children other = nodeToMerge node ∨ node.children other = 0 := by
  unfold nodeToMerge at hmerge ⊢
  split_ifs at hmerge ⊢ with hleft hright
  · refine ⟨false, rfl, fun other => ?_⟩
    cases other
    · exact .inl rfl
    · exact .inr hleft.2
  · refine ⟨true, rfl, fun other => ?_⟩
    cases other
    · exact .inr hright
    · exact .inl rfl
  · exact absurd rfl hmerge

section Removal

variable {heap : Heap} {root : Ptr} {label : Ptr → List Bool}

theorem mergeNode_spec (hrep : Represents heap root label) {current : Ptr} {node : Node}
    (hcurrent : heap current = some node) (hfits : MergeFits heap current) :
    ∃ heap', mergeNode heap current = some heap' ∧ Represents heap' root label ∧
      ∀ p, countAt heap' p = countAt heap p := by
  unfold mergeNode
  simp only [hcurrent, Option.bind_eq_bind, Option.bind_some]
  by_cases hmerge : !node.isRoot ∧ node.count = 0 ∧ nodeToMerge node ≠ 0
  · rw [if_pos hmerge]
    obtain ⟨hnotRoot, hcount, hchild⟩ := hmerge
    have hroot : current ≠ root := fun heq => by
      rw [(hrep.isRoot_iff hcurrent).2 heq] at hnotRoot
      exact absurd hnotRoot (by decide)
    obtain ⟨bit, hbit, honly⟩ := nodeToMerge_cases hchild
    obtain ⟨child, hread, hcparent, -, -⟩ := hrep.child hcurrent (hbit ▸ hchild)
    rw [hbit] at hread
    obtain ⟨pnode, first, hparent, hfirst, -⟩ := hrep.parent hcurrent hroot
    have hsum := hfits node child hcurrent hread (by simpa using hnotRoot) hcount
    rw [hrep.dataSize hcurrent, hrep.dataSize hread] at hsum
    have hmerged := hrep.merge hcurrent hroot hread honly hcparent hparent hfirst hsum
    have hpc : node.parent ≠ nodeToMerge node := by
      intro heq
      have hlt := hrep.parent_lt hcurrent hroot
      have hclabel := hrep.child hcurrent (hbit ▸ hchild)
      obtain ⟨child', -, -, -, hlabel⟩ := hclabel
      rw [hbit, ← heq] at hlabel
      rw [hlabel, List.length_append] at hlt
      omega
    have hhead : (node.data ++ child.data).head? = some first := by
      rw [List.head?_append, hfirst]
      rfl
    have hmod : uint16 (node.data.length + child.data.length) =
        node.data.length + child.data.length := Nat.mod_eq_of_lt hsum
    refine ⟨_, ?_, hmerged, fun p => ?_⟩
    · simp only [hread, hrep.dataSize hcurrent, hrep.dataSize hread, List.take_length, hhead,
        hmod, write, Option.map_some, Option.bind_some, Function.update_of_ne hpc, hparent]
      rfl
    · simp only [countAt, Function.update_apply]
      split_ifs with hp1 hp2 hp3
      · rw [hp1, hcurrent]
        exact hcount.symm
      · rw [hp2, hparent]
        rfl
      · rw [hp3, hread]
        rfl
      · rfl
  · rw [if_neg hmerge]
    exact ⟨heap, rfl, hrep, fun _ => rfl⟩

/-- What `erase` merges after the count at `entry` got zero fits into a node: the node
with its only child, or the parent of a leaf, when it does not count, with the sibling
of the leaf. -/
structure LeaveFits (heap : Heap) (entry : Ptr) : Prop where
  only_child : ∀ node child bit, heap entry = some node → node.children (!bit) = 0 →
    heap (node.children bit) = some child → node.dataSize + child.dataSize < 65536
  sibling : ∀ node parent sibling bit, heap entry = some node →
    (∀ bit, node.children bit = 0) → heap node.parent = some parent → parent.isRoot = false →
    parent.count = 0 → parent.children (!bit) = entry → heap (parent.children bit) = some sibling →
    parent.dataSize + sibling.dataSize < 65536

theorem LeaveFits.count (hrep : Represents heap root label) {entry : Ptr} {node : Node}
    (hentry : heap entry = some node) (hroot : entry ≠ root) (hfits : LeaveFits heap entry)
    (count : ℕ) :
    LeaveFits (Function.update heap entry (some { node with count := count })) entry := by
  obtain ⟨pnode, first, hparent, hfirst, -⟩ := hrep.parent hentry hroot
  have hne : node.parent ≠ entry := by
    intro heq
    have hlt := hrep.parent_lt hentry hroot
    rw [heq] at hlt
    omega
  refine ⟨fun node' child bit hread hnone hchild => ?_, fun node' parent sibling bit hread hleaf
    hread' hnotRoot hcount hlink hsibling => ?_⟩
  · rw [Function.update_self] at hread
    obtain rfl := Option.some.inj hread
    have hbit : node.children bit ≠ entry := by
      refine hrep.child_ne_self hentry fun hzero => ?_
      dsimp only at hchild
      rw [hzero, Function.update_of_ne (hrep.ne_zero hentry).symm, hrep.null] at hchild
      cases hchild
    dsimp only at hchild hnone
    rw [Function.update_of_ne hbit] at hchild
    exact hfits.only_child node child bit hentry hnone hchild
  · rw [Function.update_self] at hread
    obtain rfl := Option.some.inj hread
    dsimp only at hread' hleaf
    rw [Function.update_of_ne hne] at hread'
    have hbit : parent.children bit ≠ entry := by
      intro heq
      have h1 := (hrep.eq_of_child hentry hfirst hread' heq).2
      have h2 := (hrep.eq_of_child hentry hfirst hread' hlink).2
      exact absurd (h2.trans h1.symm) (by cases bit <;> decide)
    rw [Function.update_of_ne hbit] at hsibling
    exact hfits.sibling node parent sibling bit hentry hleaf hread' hnotRoot hcount hlink hsibling

theorem unlinkLeaf_spec (hrep : Represents heap root label) {entry : Ptr} {node : Node}
    (hentry : heap entry = some node) (hcount : node.count = 0) (hfits : LeaveFits heap entry) :
    ∃ heap' current cnode, unlinkLeaf heap entry = some (heap', current) ∧
      heap' current = some cnode ∧ MergeFits heap' current ∧ Represents heap' root label ∧
      ∀ p, countAt heap' p = countAt heap p := by
  unfold unlinkLeaf
  simp only [hentry, Option.bind_eq_bind, Option.bind_some]
  by_cases hleaf : !node.isRoot ∧ node.children false = 0 ∧ node.children true = 0
  · rw [if_pos hleaf]
    obtain ⟨hnotRoot, hleft, hright⟩ := hleaf
    have hchildren : ∀ bit, node.children bit = 0 := by rintro (_ | _) <;> assumption
    have hroot : entry ≠ root := fun heq => by
      rw [(hrep.isRoot_iff hentry).2 heq] at hnotRoot
      exact absurd hnotRoot (by decide)
    obtain ⟨pnode, first, hparent, hfirst, hlink⟩ := hrep.parent hentry hroot
    have hremoved := hrep.removeLeaf hentry hroot hchildren hparent hfirst
    have hne : node.parent ≠ entry := by
      intro heq
      have hlt := hrep.parent_lt hentry hroot
      rw [heq] at hlt
      omega
    refine ⟨_, node.parent, pnode.setChild first 0, ?_, ?_, ?_, hremoved, fun p => ?_⟩
    · simp only [hfirst, Option.bind_some, write, hparent, Option.map_some]
      rfl
    · rw [Function.update_of_ne hne, Function.update_self]
    · -- the sibling is what is left to merge with
      intro node' sibling hread hsibling hnotRoot' hcount'
      rw [Function.update_of_ne hne, Function.update_self] at hread
      obtain rfl := Option.some.inj hread
      have hmerge : nodeToMerge (pnode.setChild first 0) ≠ 0 := by
        intro hzero
        rw [hzero, hremoved.null] at hsibling
        cases hsibling
      obtain ⟨bit, hbit, -⟩ := nodeToMerge_cases hmerge
      rw [← hbit, Node.setChild_children] at hsibling hmerge
      split_ifs at hsibling hmerge with hother
      · exact absurd rfl hmerge
      · have hself := hrep.child_ne_self hparent hmerge
        have hnot : pnode.children bit ≠ entry := fun heq =>
          hother (hrep.eq_of_child hentry hfirst hparent heq).2
        rw [Function.update_of_ne hnot, Function.update_of_ne hself] at hsibling
        refine hfits.sibling node pnode sibling bit hentry hchildren hparent hnotRoot' hcount' ?_
          hsibling
        rwa [Bool.eq_not.2 (Ne.symm hother)] at hlink
    · simp only [countAt, Function.update_apply]
      split_ifs with hp1 hp2
      · rw [hp1, hentry]
        exact hcount.symm
      · rw [hp2, hparent]
        rfl
      · rfl
  · rw [if_neg hleaf]
    refine ⟨heap, entry, node, rfl, hentry, fun node' child hread hchild hnotRoot _ => ?_, hrep,
      fun _ => rfl⟩
    obtain rfl := Option.some.inj (hentry.symm.trans hread)
    have hmerge : nodeToMerge node ≠ 0 := by
      intro hzero
      rw [hzero, hrep.null] at hchild
      cases hchild
    obtain ⟨bit, hbit, honly⟩ := nodeToMerge_cases hmerge
    rw [← hbit] at hchild honly hmerge
    refine hfits.only_child node child bit hentry ?_ hchild
    rcases honly (!bit) with hsame | hnone
    · -- two links to one child would have to be for the same bit
      obtain ⟨child', hc, -, hhead, -⟩ := hrep.child hentry hmerge
      have := (hrep.eq_of_child hc hhead hentry hsame).2
      exact absurd this (by cases bit <;> decide)
    · exact hnone

/-- What `erase` of the key `entry` merges fits into a node. -/
def EraseFits (heap : Heap) (entry : Ptr) : Prop :=
  countAt heap entry = 1 → LeaveFits heap entry

theorem erase_spec {dictionary : Dictionary}
    (hrep : Represents dictionary.heap dictionary.root label) {entry : Ptr}
    (hroot : entry ≠ dictionary.root) (hpos : 0 < countAt dictionary.heap entry)
    (hmax : countAt dictionary.heap entry < 65536)
    (hfits : EraseFits dictionary.heap entry) :
    ∃ heap', erase dictionary entry = some { dictionary with heap := heap' } ∧
      Represents heap' dictionary.root label ∧
      countAt heap' entry = countAt dictionary.heap entry - 1 ∧
      ∀ p, p ≠ entry → countAt heap' p = countAt dictionary.heap p := by
  obtain ⟨node, hentry, hcount⟩ := mem_of_countAt_pos hpos
  have hmod : uint16 (node.count + 65535) = node.count - 1 := by
    unfold uint16
    omega
  have hwrite : write dictionary.heap entry (fun n => { n with count := node.count - 1 }) =
      some (Function.update dictionary.heap entry
        (some { node with count := node.count - 1 })) := by
    rw [write, hentry, Option.map_some]
  have hcounted : Represents (Function.update dictionary.heap entry
      (some { node with count := node.count - 1 })) dictionary.root label := by
    refine hrep.congr fun p => ?_
    by_cases hp : p = entry
    · rw [hp, Function.update_self, hentry]
      rfl
    · rw [Function.update_of_ne hp]
  have hself : countAt (Function.update dictionary.heap entry
      (some { node with count := node.count - 1 })) entry =
        countAt dictionary.heap entry - 1 := by
    rw [← hcount, countAt, Function.update_self]
    rfl
  have hother : ∀ p, p ≠ entry → countAt (Function.update dictionary.heap entry
      (some { node with count := node.count - 1 })) p = countAt dictionary.heap p := by
    intro p hp
    rw [countAt, countAt, Function.update_of_ne hp]
  unfold erase
  simp only [hentry, Option.bind_eq_bind, Option.bind_some, hmod, hwrite]
  by_cases hlive : node.count - 1 > 0
  · rw [if_pos hlive]
    exact ⟨_, rfl, hcounted, hself, hother⟩
  · rw [if_neg hlive]
    have hone : countAt dictionary.heap entry = 1 := by omega
    obtain ⟨unlinked, current, cnode, hunlink, hcurrent, hmergeFits, hunlinked, hsame1⟩ :=
      unlinkLeaf_spec hcounted (Function.update_self _ _ _) (Nat.eq_zero_of_not_pos hlive)
        ((hfits hone).count hrep hentry hroot _)
    obtain ⟨merged, hmerge, hrep', hsame2⟩ := mergeNode_spec hunlinked hcurrent hmergeFits
    simp only [hunlink, Option.bind_some, hmerge]
    refine ⟨merged, rfl, hrep', ?_, fun p hp => ?_⟩
    · rw [hsame2, hsame1, hself]
    · rw [hsame2, hsame1, hother p hp]

end Removal

end Wiselib.Prescilla
