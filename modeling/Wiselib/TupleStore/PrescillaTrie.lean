import Wiselib.TupleStore.PrescillaDictionary

/-!
# The trie of the Prescilla dictionary

`Represents heap root label` says that the nodes in the heap form a trie: links
up and down agree, and `label` gives every node the bits on the way to it.  Labels
are what survives restructuring: a split makes a label for a new node, merging and
removing nodes leave the labels of the others alone, so that a key keeps its
string.

That a node whose label is a prefix of another node's label is above it
(`above_of_prefix`) makes labels unique and the search complete.
-/

namespace Wiselib.Prescilla

/-- The nodes form a trie in which the node `p` is reached by the bits `label p`. -/
structure Represents (heap : Heap) (root : Ptr) (label : Ptr → List Bool) : Prop where
  null : heap 0 = none
  isRoot : ∃ node, heap root = some node ∧ node.parent = 0 ∧ node.data = []
  label_root : label root = []
  child : ∀ {q node bit}, heap q = some node → node.children bit ≠ 0 →
    ∃ child, heap (node.children bit) = some child ∧ child.parent = q ∧
      child.data.head? = some bit ∧ label (node.children bit) = label q ++ child.data
  parent : ∀ {p node}, heap p = some node → p ≠ root →
    ∃ parent bit, heap node.parent = some parent ∧ node.data.head? = some bit ∧
      parent.children bit = p
  dataSize : ∀ {p node}, heap p = some node → node.dataSize = node.data.length
  short : ∀ {p node}, heap p = some node → node.data.length < 65536

section Labels

variable {heap : Heap} {root : Ptr} {label : Ptr → List Bool}

theorem Represents.ne_zero (hrep : Represents heap root label) {p : Ptr} {node : Node}
    (hp : heap p = some node) : p ≠ 0 := by
  rintro rfl
  rw [hrep.null] at hp
  cases hp

theorem Represents.label_eq (hrep : Represents heap root label) {p : Ptr} {node : Node}
    (hp : heap p = some node) (hroot : p ≠ root) : label p = label node.parent ++ node.data := by
  obtain ⟨parent, bit, hparent, -, hlink⟩ := hrep.parent hp hroot
  have hchild : parent.children bit ≠ 0 := by
    rw [hlink]
    exact hrep.ne_zero hp
  obtain ⟨child, hread, -, -, hlabel⟩ := hrep.child hparent hchild
  rw [hlink] at hread hlabel
  obtain rfl := Option.some.inj (hread.symm.trans hp)
  exact hlabel

theorem Represents.data_ne_nil (hrep : Represents heap root label) {p : Ptr} {node : Node}
    (hp : heap p = some node) (hroot : p ≠ root) : node.data ≠ [] := by
  obtain ⟨parent, bit, -, hhead, -⟩ := hrep.parent hp hroot
  rintro hnil
  rw [hnil] at hhead
  cases hhead

theorem Represents.isRoot_iff (hrep : Represents heap root label) {p : Ptr} {node : Node}
    (hp : heap p = some node) : node.isRoot = true ↔ p = root := by
  rw [Node.isRoot, decide_eq_true_iff]
  constructor
  · intro hzero
    by_contra hroot
    obtain ⟨parent, bit, hparent, -, -⟩ := hrep.parent hp hroot
    rw [hzero, hrep.null] at hparent
    cases hparent
  · rintro rfl
    obtain ⟨node', hread, hzero, -⟩ := hrep.isRoot
    obtain rfl := Option.some.inj (hp.symm.trans hread)
    exact hzero

theorem Represents.parent_lt (hrep : Represents heap root label) {p : Ptr} {node : Node}
    (hp : heap p = some node) (hroot : p ≠ root) :
    (label node.parent).length < (label p).length := by
  have := List.length_pos_iff.2 (hrep.data_ne_nil hp hroot)
  rw [hrep.label_eq hp hroot, List.length_append]
  omega

/-- `Above heap q p`: going up from `p` leads to `q`. -/
inductive Above (heap : Heap) (q : Ptr) : Ptr → Prop
  | refl : Above heap q q
  | step {p : Ptr} {node : Node} : heap p = some node → Above heap q node.parent → Above heap q p

theorem Represents.above_root (hrep : Represents heap root label) {p : Ptr} {node : Node}
    (hp : heap p = some node) : Above heap root p := by
  induction hlength : (label p).length using Nat.strong_induction_on generalizing p node with
  | _ n ih =>
      by_cases hroot : p = root
      · rw [hroot]
        exact .refl
      · obtain ⟨parent, bit, hparent, -, -⟩ := hrep.parent hp hroot
        exact .step hp (ih _ (hlength ▸ hrep.parent_lt hp hroot) hparent rfl)

/-- The last step but one on the way up to `q` is a child of `q`. -/
theorem Represents.above_child (hrep : Represents heap root label) {q p : Ptr} {node : Node}
    (hq : heap q = some node) (habove : Above heap q p) (hne : q ≠ p) :
    ∃ bit, node.children bit ≠ 0 ∧ Above heap (node.children bit) p := by
  induction habove with
  | refl => exact absurd rfl hne
  | @step p pnode hp habove ih =>
      by_cases hparent : q = pnode.parent
      · by_cases hroot : p = root
        · obtain ⟨rnode, hr, hzero, -⟩ := hrep.isRoot
          obtain rfl := Option.some.inj (hp.symm.trans (hroot ▸ hr))
          exact absurd (hparent.trans hzero) (hrep.ne_zero hq)
        · obtain ⟨parent, bit, hread, -, hlink⟩ := hrep.parent hp hroot
          rw [← hparent] at hread
          obtain rfl := Option.some.inj (hread.symm.trans hq)
          refine ⟨bit, ?_, ?_⟩
          · rw [hlink]
            exact hrep.ne_zero hp
          · rw [hlink]
            exact .refl
      · obtain ⟨bit, hchild, habove'⟩ := ih hparent
        exact ⟨bit, hchild, .step hp habove'⟩

theorem Represents.label_prefix (hrep : Represents heap root label) {q p : Ptr} {node : Node}
    (hq : heap q = some node) (habove : Above heap q p) : label q <+: label p := by
  induction habove with
  | refl => exact List.prefix_refl _
  | @step p pnode hp habove ih =>
      by_cases hroot : p = root
      · -- the root has no node above it
        obtain ⟨rnode, hr, hzero, -⟩ := hrep.isRoot
        obtain rfl := Option.some.inj (hp.symm.trans (hroot ▸ hr))
        rw [hzero] at habove
        cases habove with
        | refl => exact absurd rfl (hrep.ne_zero hq)
        | step hnull _ =>
            rw [hrep.null] at hnull
            cases hnull
      · rw [hrep.label_eq hp hroot]
        exact ih.trans (List.prefix_append _ _)

theorem Represents.child_of_above (hrep : Represents heap root label) {q p : Ptr} {node : Node}
    (hq : heap q = some node) (habove : Above heap q p) {bit : Bool} {tail : List Bool}
    (hlabel : label p = label q ++ bit :: tail) :
    node.children bit ≠ 0 ∧ Above heap (node.children bit) p := by
  have hne : q ≠ p := by
    rintro rfl
    simp at hlabel
  obtain ⟨bit', hchild, habove'⟩ := hrep.above_child hq habove hne
  obtain ⟨child, hread, -, hhead, hlabel'⟩ := hrep.child hq hchild
  obtain ⟨rest, hrest⟩ := hrep.label_prefix hread habove'
  obtain ⟨tail', hdata⟩ := List.head?_eq_some_iff.1 hhead
  rw [← hrest, hlabel', List.append_assoc, List.append_cancel_left_eq, hdata] at hlabel
  obtain rfl : bit' = bit := (List.cons.inj hlabel).1
  exact ⟨hchild, habove'⟩

theorem Represents.above_of_prefix (hrep : Represents heap root label) {p q : Ptr}
    {pnode qnode : Node} (hp : heap p = some pnode) (hq : heap q = some qnode)
    (hbegins : label p <+: label q) : Above heap p q := by
  induction hlength : (label p).length using Nat.strong_induction_on generalizing p pnode with
  | _ n ih =>
      by_cases hroot : p = root
      · rw [hroot]
        exact hrep.above_root hq
      · obtain ⟨parent, bit, hparent, hhead, hlink⟩ := hrep.parent hp hroot
        have hlabel := hrep.label_eq hp hroot
        have habove := ih _ (hlength ▸ hrep.parent_lt hp hroot) hparent
          ((hlabel ▸ List.prefix_append _ _).trans hbegins) rfl
        obtain ⟨rest, hrest⟩ := hbegins
        obtain ⟨tail, hdata⟩ := List.head?_eq_some_iff.1 hhead
        rw [hlabel, hdata, List.append_assoc] at hrest
        have hchild := (hrep.child_of_above hparent habove hrest.symm).2
        rwa [hlink] at hchild

/-- A node is above all nodes whose labels begin with its label up to one of its bits. -/
theorem Represents.above_of_part (hrep : Represents heap root label) {p q : Ptr}
    {pnode qnode : Node} {i : ℕ} {pre : List Bool} (hp : heap p = some pnode) (hroot : p ≠ root)
    (hpos : 0 < i) (hlabel : label p = pre ++ pnode.data.drop i)
    (hq : heap q = some qnode) (hbegins : pre <+: label q) : Above heap p q := by
  obtain ⟨parent, bit, hparent, hhead, hlink⟩ := hrep.parent hp hroot
  obtain ⟨data, hdata⟩ := List.head?_eq_some_iff.1 hhead
  have hpre : pre = label pnode.parent ++ pnode.data.take i := by
    have hlabel' := hrep.label_eq hp hroot
    rw [← List.take_append_drop i pnode.data, ← List.append_assoc] at hlabel'
    exact List.append_cancel_right (hlabel.symm.trans hlabel')
  obtain ⟨extra, hextra⟩ := hbegins
  have hnext : label q = label pnode.parent ++ bit :: (data.take (i - 1) ++ extra) := by
    rw [← hextra, hpre, hdata, List.take_cons hpos]
    simp
  have habove := hrep.above_of_prefix hparent hq ⟨_, hnext.symm⟩
  rw [← hlink]
  exact (hrep.child_of_above hparent habove hnext).2

theorem Represents.label_injective (hrep : Represents heap root label) {p q : Ptr}
    {pnode qnode : Node} (hp : heap p = some pnode) (hq : heap q = some qnode)
    (hlabel : label p = label q) : p = q := by
  by_contra hne
  have habove := hrep.above_of_prefix hp hq (hlabel ▸ List.prefix_refl _)
  obtain ⟨bit, hchild, habove'⟩ := hrep.above_child hp habove hne
  obtain ⟨child, hread, -, hhead, hlabel'⟩ := hrep.child hp hchild
  have hlength := (hrep.label_prefix hread habove').length_le
  obtain ⟨tail, hdata⟩ := List.head?_eq_some_iff.1 hhead
  rw [hlabel', ← hlabel, List.length_append, hdata, List.length_cons] at hlength
  omega

end Labels

/-! ## Changes to the trie -/

section SetChild

variable (node : Node) (bit other : Bool) (child : Ptr)

@[simp, grind =] theorem Node.setChild_parent : (node.setChild bit child).parent = node.parent :=
  rfl

@[simp, grind =] theorem Node.setChild_data : (node.setChild bit child).data = node.data := rfl

@[simp, grind =] theorem Node.setChild_dataSize :
    (node.setChild bit child).dataSize = node.dataSize := rfl

@[grind =] theorem Node.setChild_children :
    (node.setChild bit child).children other =
      if other = bit then child else node.children other :=
  Function.update_apply _ _ _ _

end SetChild

section Updates

variable {heap : Heap} {root : Ptr} {label : Ptr → List Bool}

theorem Represents.child_ne_self (hrep : Represents heap root label) {q : Ptr} {node : Node}
    {bit : Bool} (hq : heap q = some node) (hchild : node.children bit ≠ 0) :
    node.children bit ≠ q := by
  intro hself
  obtain ⟨child, -, -, hhead, hlabel⟩ := hrep.child hq hchild
  rw [hself] at hlabel
  have hnil : child.data = [] := by simpa using hlabel
  rw [hnil] at hhead
  cases hhead

theorem Represents.child_eq (hrep : Represents heap root label) {p : Ptr} {node pnode : Node}
    (hp : heap p = some node) (hroot : p ≠ root) (hparent : heap node.parent = some pnode)
    {first : Bool} (hfirst : node.data.head? = some first) : pnode.children first = p := by
  obtain ⟨up, bit, hup, hhead, hchild⟩ := hrep.parent hp hroot
  obtain rfl := Option.some.inj (hup.symm.trans hparent)
  obtain rfl : bit = first := Option.some.inj (hhead.symm.trans hfirst)
  exact hchild

theorem Represents.eq_of_child (hrep : Represents heap root label) {p q : Ptr} {node n : Node}
    {first bit : Bool} (hp : heap p = some node) (hfirst : node.data.head? = some first)
    (hq : heap q = some n) (heq : n.children bit = p) : q = node.parent ∧ bit = first := by
  have hbit : n.children bit ≠ 0 := by
    rw [heq]
    exact hrep.ne_zero hp
  obtain ⟨child, hread, hparent, hhead, -⟩ := hrep.child hq hbit
  rw [heq] at hread
  obtain rfl := Option.some.inj (hread.symm.trans hp)
  exact ⟨hparent.symm, Option.some.inj (hhead.symm.trans hfirst)⟩

/-- The fields of a node that make the trie; the count is not one of them. -/
def Node.links (node : Node) : (Bool → Ptr) × Ptr × ℕ × List Bool :=
  (node.children, node.parent, node.dataSize, node.data)

theorem Represents.congr (hrep : Represents heap root label) {heap' : Heap}
    (hlinks : ∀ p, (heap' p).map Node.links = (heap p).map Node.links) :
    Represents heap' root label := by
  have hforth : ∀ {p node}, heap p = some node →
      ∃ node', heap' p = some node' ∧ node'.links = node.links := by
    intro p node hp
    have := hlinks p
    rw [hp] at this
    exact Option.map_eq_some_iff.1 this
  have hback : ∀ {p node'}, heap' p = some node' →
      ∃ node, heap p = some node ∧ node'.links = node.links := by
    intro p node' hp
    have := hlinks p
    rw [hp] at this
    obtain ⟨node, hread, hsame⟩ := Option.map_eq_some_iff.1 this.symm
    exact ⟨node, hread, hsame.symm⟩
  simp only [Node.links, Prod.mk.injEq] at hforth hback
  obtain ⟨hnull, ⟨rnode, hr, hrzero, hrdata⟩, hlabel, hchild, hparent, hsize, hshort⟩ := hrep
  refine ⟨?_, ?_, hlabel, ?_, ?_, ?_, ?_⟩
  · have := hlinks 0
    rw [hnull] at this
    simpa using this
  · obtain ⟨rnode', hr', hlinks'⟩ := hforth hr
    exact ⟨rnode', hr', hlinks'.2.1.trans hrzero, hlinks'.2.2.2.trans hrdata⟩
  · intro q node' bit hq hbit
    obtain ⟨node, hread, hlinks'⟩ := hback hq
    rw [hlinks'.1] at hbit ⊢
    obtain ⟨child, hc, hcparent, hhead, hclabel⟩ := hchild hread hbit
    obtain ⟨child', hc', hlinks''⟩ := hforth hc
    refine ⟨child', hc', hlinks''.2.1.trans hcparent, ?_, ?_⟩ <;> rw [hlinks''.2.2.2]
    · exact hhead
    · exact hclabel
  · intro p node' hp hroot
    obtain ⟨node, hread, hlinks'⟩ := hback hp
    obtain ⟨parent, bit, hq, hhead, hlink⟩ := hparent hread hroot
    obtain ⟨parent', hq', hlinks''⟩ := hforth hq
    rw [hlinks'.2.1, hlinks'.2.2.2]
    exact ⟨parent', bit, hq', hhead, by rw [hlinks''.1, hlink]⟩
  · intro p node' hp
    obtain ⟨node, hread, hlinks'⟩ := hback hp
    rw [hlinks'.2.2.1, hlinks'.2.2.2]
    exact hsize hread
  · intro p node' hp
    obtain ⟨node, hread, hlinks'⟩ := hback hp
    rw [hlinks'.2.2.2]
    exact hshort hread

theorem Represents.append (hrep : Represents heap root label) {parent new : Ptr} {pnode : Node}
    (hparent : heap parent = some pnode) (hnew : heap new = none) (hzero : new ≠ 0) {first : Bool}
    {tail : List Bool} (hfree : pnode.children first = 0)
    (hshort : (first :: tail).length < 65536) :
    Represents (Function.update
        (Function.update heap new
          (some ⟨fun _ => 0, parent, 1, (first :: tail).length, first :: tail⟩))
        parent (some (pnode.setChild first new)))
      root (Function.update label new (label parent ++ first :: tail)) := by
  have hself := @hrep.child_ne_self
  obtain ⟨hnull, ⟨rnode, hr, hrzero, hrdata⟩, hlabel, hchild, hlink, hsize, hshort'⟩ := hrep
  refine ⟨?_, ?_, ?_, ?_, ?_, ?_, ?_⟩
  · grind [Function.update_apply]
  · grind [Function.update_apply]
  · grind [Function.update_apply]
  · intro q node bit hq hbit
    by_cases hqp : q = parent
    · subst hqp
      rw [Function.update_self] at hq
      obtain rfl := Option.some.inj hq
      by_cases hfirst : bit = first
      · subst hfirst
        rw [Node.setChild_children, if_pos rfl]
        refine ⟨⟨fun _ => 0, q, 1, (bit :: tail).length, bit :: tail⟩, ?_, rfl, rfl, ?_⟩ <;>
          grind [Function.update_apply]
      · rw [Node.setChild_children, if_neg hfirst] at hbit ⊢
        obtain ⟨child, hc, hcparent, hhead, hclabel⟩ := hchild hparent hbit
        have hne := hself hparent hbit
        refine ⟨child, ?_, hcparent, hhead, ?_⟩ <;> grind [Function.update_apply]
    · have hqn : q ≠ new := by
        rintro rfl
        grind [Function.update_apply]
      rw [Function.update_of_ne hqp, Function.update_of_ne hqn] at hq
      obtain ⟨child, hc, hcparent, hhead, hclabel⟩ := hchild hq hbit
      by_cases hcp : node.children bit = parent
      · refine ⟨pnode.setChild first new, ?_, ?_, ?_, ?_⟩ <;>
          grind [Function.update_apply]
      · refine ⟨child, ?_, hcparent, hhead, ?_⟩ <;> grind [Function.update_apply]
  · intro p node hp hroot
    by_cases hpn : p = new
    · refine ⟨pnode.setChild first new, first, ?_, ?_, ?_⟩ <;>
        grind [Function.update_apply]
    · have hold : ∃ old, heap p = some old ∧ node.parent = old.parent ∧ node.data = old.data := by
        grind [Function.update_apply]
      obtain ⟨old, hp', hsameParent, hsameData⟩ := hold
      rw [hsameParent, hsameData]
      obtain ⟨up, bit, hup, hhead, hchild'⟩ := hlink hp' hroot
      have hpzero : p ≠ 0 := by
        rintro rfl
        rw [hnull] at hp'
        cases hp'
      by_cases hparent' : old.parent = parent
      · refine ⟨pnode.setChild first new, bit, ?_, hhead, ?_⟩ <;>
          grind [Function.update_apply]
      · refine ⟨up, bit, ?_, hhead, hchild'⟩
        grind [Function.update_apply]
  · intro p node hp
    grind [Function.update_apply]
  · intro p node hp
    grind [Function.update_apply]

theorem Represents.split (hrep : Represents heap root label) {current new : Ptr}
    {node qnode : Node} (hcurrent : heap current = some node) (hroot : current ≠ root)
    (hparent : heap node.parent = some qnode) (hnew : heap new = none) (hzero : new ≠ 0)
    {front back : List Bool} {frontBit backBit : Bool} (hdata : node.data = front ++ back)
    (hfront : front.head? = some frontBit) (hback : back.head? = some backBit) :
    Represents (Function.update (Function.update (Function.update
        heap node.parent (some (qnode.setChild frontBit new)))
        current (some { node with data := back, dataSize := back.length, parent := new }))
        new (some ((Node.mk (fun _ => 0) node.parent 0 front.length front).setChild backBit current)))
      root (Function.update label new (label node.parent ++ front)) := by
  have hself := @hrep.child_ne_self
  have hsplit := hrep.label_eq hcurrent hroot
  have hlt := hrep.parent_lt hcurrent hroot
  have hfrontBit : node.data.head? = some frontBit := by
    rw [hdata, List.head?_append, hfront]
    rfl
  have hchildBit := hrep.child_eq hcurrent hroot hparent hfrontBit
  obtain ⟨hnull, ⟨rnode, hr, hrzero, hrdata⟩, hlabel, hchild, hlink, hsize, hshort'⟩ := hrep
  have hne : node.parent ≠ current := by
    intro heq
    rw [heq] at hlt
    omega
  have hcn : current ≠ new := by
    rintro rfl
    rw [hnew] at hcurrent
    cases hcurrent
  have hpn : node.parent ≠ new := by
    intro heq
    rw [heq, hnew] at hparent
    cases hparent
  have hzero' : current ≠ 0 := by
    rintro rfl
    rw [hnull] at hcurrent
    cases hcurrent
  rw [hdata, ← List.append_assoc] at hsplit
  refine ⟨?_, ?_, ?_, ?_, ?_, ?_, ?_⟩
  · grind [Function.update_apply]
  · grind [Function.update_apply]
  · grind [Function.update_apply]
  · intro q n bit hq hbit
    by_cases hqn : q = new
    · subst hqn
      rw [Function.update_self] at hq
      obtain rfl := Option.some.inj hq
      by_cases hbackBit : bit = backBit
      · subst hbackBit
        rw [Node.setChild_children, if_pos rfl]
        refine ⟨{ node with data := back, dataSize := back.length, parent := q }, ?_, rfl, hback, ?_⟩
        · rw [Function.update_of_ne hcn, Function.update_self]
        · rw [Function.update_of_ne hcn, Function.update_self]
          exact hsplit
      · rw [Node.setChild_children, if_neg hbackBit] at hbit
        exact absurd rfl hbit
    · rw [Function.update_of_ne hqn] at hq
      rw [Function.update_of_ne hqn]
      by_cases hqc : q = current
      · subst hqc
        rw [Function.update_self] at hq
        obtain rfl := Option.some.inj hq
        dsimp only at hbit ⊢
        obtain ⟨child, hc, hcparent, hhead, hclabel⟩ := hchild hcurrent hbit
        have hcself := hself hcurrent hbit
        have hcp : node.children bit ≠ node.parent := by
          intro heq
          have := congrArg List.length hclabel
          rw [heq, List.length_append] at this
          omega
        refine ⟨child, ?_, hcparent, hhead, ?_⟩ <;> grind [Function.update_apply]
      · rw [Function.update_of_ne hqc] at hq
        by_cases hqp : q = node.parent
        · subst hqp
          rw [Function.update_self] at hq
          obtain rfl := Option.some.inj hq
          by_cases hfirst : bit = frontBit
          · subst hfirst
            rw [Node.setChild_children, if_pos rfl, Function.update_self, Function.update_self]
            exact ⟨_, rfl, rfl, hfront, rfl⟩
          · rw [Node.setChild_children, if_neg hfirst] at hbit ⊢
            obtain ⟨child, hc, hcparent, hhead, hclabel⟩ := hchild hparent hbit
            have hcself := hself hparent hbit
            have hcc : qnode.children bit ≠ current := by
              intro heq
              rw [heq] at hc
              obtain rfl := Option.some.inj (hc.symm.trans hcurrent)
              exact hfirst (Option.some.inj (hhead.symm.trans hfrontBit))
            refine ⟨child, ?_, hcparent, hhead, ?_⟩ <;> grind [Function.update_apply]
        · rw [Function.update_of_ne hqp] at hq
          obtain ⟨child, hc, hcparent, hhead, hclabel⟩ := hchild hq hbit
          have hcc : n.children bit ≠ current := by
            intro heq
            rw [heq] at hc
            obtain rfl := Option.some.inj (hc.symm.trans hcurrent)
            exact hqp hcparent.symm
          by_cases hcp : n.children bit = node.parent
          · refine ⟨qnode.setChild frontBit new, ?_, ?_, ?_, ?_⟩ <;>
              grind [Function.update_apply]
          · refine ⟨child, ?_, hcparent, hhead, ?_⟩ <;> grind [Function.update_apply]
  · intro p n hp hproot
    by_cases hpnew : p = new
    · refine ⟨qnode.setChild frontBit new, frontBit, ?_, ?_, ?_⟩ <;>
        grind [Function.update_apply]
    · rw [Function.update_of_ne hpnew] at hp
      by_cases hpc : p = current
      · subst hpc
        rw [Function.update_self] at hp
        obtain rfl := Option.some.inj hp
        exact ⟨_, backBit, Function.update_self _ _ _, hback,
          by rw [Node.setChild_children, if_pos rfl]⟩
      · have hold : ∃ old, heap p = some old ∧ n.parent = old.parent ∧ n.data = old.data := by
          grind [Function.update_apply]
        obtain ⟨old, hp', hsameParent, hsameData⟩ := hold
        rw [hsameParent, hsameData]
        obtain ⟨up, bit, hup, hhead, hchild'⟩ := hlink hp' hproot
        have hupnew : old.parent ≠ new := by
          intro heq
          rw [heq, hnew] at hup
          cases hup
        rw [Function.update_of_ne hupnew]
        by_cases hupc : old.parent = current
        · rw [hupc, Function.update_self]
          rw [hupc] at hup
          obtain rfl := Option.some.inj (hup.symm.trans hcurrent)
          exact ⟨_, bit, rfl, hhead, hchild'⟩
        · rw [Function.update_of_ne hupc]
          by_cases hupp : old.parent = node.parent
          · rw [hupp, Function.update_self]
            rw [hupp] at hup
            obtain rfl := Option.some.inj (hup.symm.trans hparent)
            refine ⟨_, bit, rfl, hhead, ?_⟩
            have hbit : bit ≠ frontBit := by
              rintro rfl
              exact hpc (hchild'.symm.trans hchildBit)
            rw [Node.setChild_children, if_neg hbit, hchild']
          · exact ⟨up, bit, by rw [Function.update_of_ne hupp, hup], hhead, hchild'⟩
  · intro p n hp
    grind [Function.update_apply]
  · intro p n hp
    have := hshort' hcurrent
    rw [hdata, List.length_append] at this
    grind [Function.update_apply]

theorem Represents.removeLeaf (hrep : Represents heap root label) {entry : Ptr}
    {node pnode : Node} (hentry : heap entry = some node) (hroot : entry ≠ root)
    (hleaf : ∀ bit, node.children bit = 0) (hparent : heap node.parent = some pnode) {first : Bool}
    (hfirst : node.data.head? = some first) :
    Represents (Function.update
        (Function.update heap node.parent (some (pnode.setChild first 0))) entry none)
      root label := by
  have hlt := hrep.parent_lt hentry hroot
  have hzero := hrep.ne_zero hentry
  have hentryBit := hrep.child_eq hentry hroot hparent hfirst
  have hother : ∀ {q n bit}, heap q = some n → n.children bit = entry →
      q = node.parent ∧ bit = first := hrep.eq_of_child hentry hfirst
  obtain ⟨hnull, ⟨rnode, hr, hrzero, hrdata⟩, hlabel, hchild, hlink, hsize, hshort⟩ := hrep
  have hne : node.parent ≠ entry := by
    intro heq
    rw [heq] at hlt
    omega
  refine ⟨?_, ?_, hlabel, ?_, ?_, ?_, ?_⟩
  · grind [Function.update_apply]
  · grind [Function.update_apply]
  · intro q n bit hq hbit
    have hqe : q ≠ entry := by
      rintro rfl
      rw [Function.update_self] at hq
      cases hq
    rw [Function.update_of_ne hqe] at hq
    have hold : ∃ old, heap q = some old ∧ n.children bit = old.children bit ∧
        old.children bit ≠ entry := by
      by_cases hqp : q = node.parent
      · subst hqp
        rw [Function.update_self] at hq
        obtain rfl := Option.some.inj hq
        rw [Node.setChild_children] at hbit ⊢
        split_ifs at hbit ⊢ with hbf
        · exact absurd rfl hbit
        · exact ⟨pnode, hparent, rfl, fun heq => hbf (hother hparent heq).2⟩
      · rw [Function.update_of_ne hqp] at hq
        exact ⟨n, hq, rfl, fun heq => hqp (hother hq heq).1⟩
    obtain ⟨old, hq', hsame, hnot⟩ := hold
    rw [hsame] at hbit ⊢
    obtain ⟨child, hc, hcparent, hhead, hclabel⟩ := hchild hq' hbit
    rw [Function.update_of_ne hnot]
    by_cases hcp : old.children bit = node.parent
    · rw [hcp] at hc
      obtain rfl := Option.some.inj (hc.symm.trans hparent)
      rw [hcp, Function.update_self]
      rw [hcp] at hclabel
      exact ⟨_, rfl, hcparent, hhead, hclabel⟩
    · rw [Function.update_of_ne hcp]
      exact ⟨child, hc, hcparent, hhead, hclabel⟩
  · intro p n hp hproot
    have hpe : p ≠ entry := by
      rintro rfl
      rw [Function.update_self] at hp
      cases hp
    rw [Function.update_of_ne hpe] at hp
    have hold : ∃ old, heap p = some old ∧ n.parent = old.parent ∧ n.data = old.data := by
      grind [Function.update_apply]
    obtain ⟨old, hp', hsameParent, hsameData⟩ := hold
    rw [hsameParent, hsameData]
    obtain ⟨up, bit, hup, hhead, hchild'⟩ := hlink hp' hproot
    have hupe : old.parent ≠ entry := by
      intro heq
      rw [heq] at hup
      obtain rfl := Option.some.inj (hup.symm.trans hentry)
      rw [hleaf] at hchild'
      rw [← hchild', hnull] at hp'
      cases hp'
    rw [Function.update_of_ne hupe]
    by_cases hupp : old.parent = node.parent
    · rw [hupp] at hup ⊢
      obtain rfl := Option.some.inj (hup.symm.trans hparent)
      have hbf : bit ≠ first := by
        rintro rfl
        exact hpe (hchild'.symm.trans hentryBit)
      exact ⟨_, bit, Function.update_self _ _ _, hhead,
        by rw [Node.setChild_children, if_neg hbf, hchild']⟩
    · rw [Function.update_of_ne hupp]
      exact ⟨up, bit, hup, hhead, hchild'⟩
  · intro p n hp
    grind [Function.update_apply]
  · intro p n hp
    grind [Function.update_apply]

theorem Represents.merge (hrep : Represents heap root label) {current c : Ptr}
    {node cnode pnode : Node} (hcurrent : heap current = some node) (hroot : current ≠ root)
    (hc : heap c = some cnode) (honly : ∀ bit, node.children bit = c ∨ node.children bit = 0)
    (hcparent : cnode.parent = current) (hparent : heap node.parent = some pnode) {first : Bool}
    (hfirst : node.data.head? = some first)
    (hsum : node.data.length + cnode.data.length < 65536) :
    Represents (Function.update (Function.update (Function.update heap
          c (some { cnode with
            data := node.data ++ cnode.data
            dataSize := node.data.length + cnode.data.length
            parent := node.parent }))
        node.parent (some (pnode.setChild first c))) current none)
      root label := by
  have hlt := hrep.parent_lt hcurrent hroot
  have hzero := hrep.ne_zero hcurrent
  have hcurrentBit := hrep.child_eq hcurrent hroot hparent hfirst
  have hother : ∀ {q n bit}, heap q = some n → n.children bit = current →
      q = node.parent ∧ bit = first := hrep.eq_of_child hcurrent hfirst
  have hczero := hrep.ne_zero hc
  have hcroot : c ≠ root := by
    rintro rfl
    exact absurd ((hrep.isRoot_iff hc).2 rfl) (by simp [Node.isRoot, hcparent, hzero])
  have hclt := hrep.parent_lt hc hcroot
  have hclabel := hrep.label_eq hc hcroot
  rw [hcparent, hrep.label_eq hcurrent hroot, List.append_assoc] at hclabel
  rw [hcparent] at hclt
  obtain ⟨hnull, ⟨rnode, hr, hrzero, hrdata⟩, hlabel, hchild, hlink, hsize, hshort⟩ := hrep
  have hne : node.parent ≠ current := by
    intro heq
    rw [heq] at hlt
    omega
  have hcp : node.parent ≠ c := by
    intro heq
    rw [heq] at hlt
    omega
  have hcc : c ≠ current := by
    intro heq
    rw [heq] at hclt
    omega
  have hhead' : (node.data ++ cnode.data).head? = some first := by
    rw [List.head?_append, hfirst]
    rfl
  refine ⟨?_, ?_, hlabel, ?_, ?_, ?_, ?_⟩
  · grind [Function.update_apply]
  · grind [Function.update_apply]
  · intro q n bit hq hbit
    have hqe : q ≠ current := by
      rintro rfl
      rw [Function.update_self] at hq
      cases hq
    rw [Function.update_of_ne hqe] at hq
    by_cases hnew : q = node.parent ∧ bit = first
    · obtain ⟨rfl, rfl⟩ := hnew
      rw [Function.update_self] at hq
      obtain rfl := Option.some.inj hq
      rw [Node.setChild_children, if_pos rfl, Function.update_of_ne hcc,
        Function.update_of_ne hcp.symm, Function.update_self]
      exact ⟨_, rfl, rfl, hhead', hclabel⟩
    · have hold : ∃ old, heap q = some old ∧ n.children bit = old.children bit := by
        grind [Function.update_apply]
      obtain ⟨old, hq', hsame⟩ := hold
      rw [hsame] at hbit ⊢
      have hnot : old.children bit ≠ current := fun heq => hnew (hother hq' heq)
      obtain ⟨child, hread, hqparent, hhead, hchildLabel⟩ := hchild hq' hbit
      have hnotc : old.children bit ≠ c := by
        intro heq
        rw [heq] at hread
        obtain rfl := Option.some.inj (hread.symm.trans hc)
        exact hqe (hqparent.symm.trans hcparent)
      rw [Function.update_of_ne hnot]
      by_cases hcp' : old.children bit = node.parent
      · rw [hcp'] at hread
        obtain rfl := Option.some.inj (hread.symm.trans hparent)
        rw [hcp', Function.update_self]
        rw [hcp'] at hchildLabel
        exact ⟨_, rfl, hqparent, hhead, hchildLabel⟩
      · rw [Function.update_of_ne hcp', Function.update_of_ne hnotc]
        exact ⟨child, hread, hqparent, hhead, hchildLabel⟩
  · intro p n hp hproot
    have hpe : p ≠ current := by
      rintro rfl
      rw [Function.update_self] at hp
      cases hp
    rw [Function.update_of_ne hpe] at hp
    by_cases hpc : p = c
    · subst hpc
      rw [Function.update_of_ne hcp.symm, Function.update_self] at hp
      obtain rfl := Option.some.inj hp
      refine ⟨pnode.setChild first p, first, ?_, hhead', ?_⟩
      · rw [Function.update_of_ne hne, Function.update_self]
      · rw [Node.setChild_children, if_pos rfl]
    · have hold : ∃ old, heap p = some old ∧ n.parent = old.parent ∧ n.data = old.data := by
        grind [Function.update_apply]
      obtain ⟨old, hp', hsameParent, hsameData⟩ := hold
      rw [hsameParent, hsameData]
      obtain ⟨up, bit, hup, hhead, hchild'⟩ := hlink hp' hproot
      have hupe : old.parent ≠ current := by
        intro heq
        rw [heq] at hup
        obtain rfl := Option.some.inj (hup.symm.trans hcurrent)
        rcases honly bit with hbit | hbit <;> rw [hbit] at hchild'
        · exact hpc hchild'.symm
        · rw [← hchild', hnull] at hp'
          cases hp'
      rw [Function.update_of_ne hupe]
      by_cases hupp : old.parent = node.parent
      · rw [hupp] at hup ⊢
        obtain rfl := Option.some.inj (hup.symm.trans hparent)
        have hbf : bit ≠ first := by
          rintro rfl
          exact hpe (hchild'.symm.trans hcurrentBit)
        exact ⟨_, bit, Function.update_self _ _ _, hhead,
          by rw [Node.setChild_children, if_neg hbf, hchild']⟩
      · rw [Function.update_of_ne hupp]
        by_cases hupc : old.parent = c
        · rw [hupc] at hup ⊢
          obtain rfl := Option.some.inj (hup.symm.trans hc)
          exact ⟨_, bit, Function.update_self _ _ _, hhead, hchild'⟩
        · rw [Function.update_of_ne hupc]
          exact ⟨up, bit, hup, hhead, hchild'⟩
  · intro p n hp
    rw [Function.update_apply, Function.update_apply, Function.update_apply] at hp
    split_ifs at hp with hp1 hp2 hp3
    · obtain rfl := Option.some.inj hp
      rw [Node.setChild_dataSize, Node.setChild_data]
      exact hsize hparent
    · obtain rfl := Option.some.inj hp
      exact (List.length_append).symm
    · exact hsize hp
  · intro p n hp
    rw [Function.update_apply, Function.update_apply, Function.update_apply] at hp
    split_ifs at hp with hp1 hp2 hp3
    · obtain rfl := Option.some.inj hp
      rw [Node.setChild_data]
      exact hshort hparent
    · obtain rfl := Option.some.inj hp
      rw [List.length_append]
      exact hsum
    · exact hshort hp

end Updates

end Wiselib.Prescilla
