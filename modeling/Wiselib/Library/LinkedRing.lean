import Mathlib

/-!
# Rings of linked nodes

Nodes that know their successor and their predecessor.  `hook` puts a node in
before another, `unhook` takes a node out and links it to itself.  `Ring links
anchor nodes` says that going on from `anchor` visits `nodes` in order and comes
back, and going back visits them in reverse; several rings can share one set of
links as long as they have no node in common.

## Strategy

A ring is a chain that starts and ends with its anchor.  An edit changes the links
of two neighbours only, so on both sides of them the chain stays what it was
(`Linked.congr`), and the seam is checked by hand.  The same goes for all other
rings, of which neither neighbour is a node.
-/

/-- The links of all nodes. -/
@[ext] structure Links (Node : Type*) where
  next : Node → Node
  prev : Node → Node

namespace Links

variable {Node : Type*} [DecidableEq Node]

def setNext (links : Links Node) (node target : Node) : Links Node :=
  { links with next := Function.update links.next node target }

def setPrev (links : Links Node) (node target : Node) : Links Node :=
  { links with prev := Function.update links.prev node target }

/-- Puts a node in before `position`. -/
def hook (links : Links Node) (node position : Node) : Links Node :=
  let ahead := links.setNext node position
  let behind := ahead.setPrev node (ahead.prev position)
  let linked := behind.setPrev (behind.next node) node
  linked.setNext (linked.prev node) node

/-- Takes a node out of the ring it is in. -/
def unhook (links : Links Node) (node : Node) : Links Node :=
  let ahead := links.setNext (links.prev node) (links.next node)
  let behind := ahead.setPrev (ahead.next node) (ahead.prev node)
  (behind.setNext node node).setPrev node node

/-- Crosses two links: the one that led on to `anchor` leads to `head`, and the one from
`node` leads to `anchor`. -/
def cross (links : Links Node) (last head node anchor : Node) : Links Node :=
  (((links.setPrev head last).setNext last head).setNext node anchor).setPrev anchor node

variable {links links' : Links Node} {node position other : Node}

theorem next_hook_of_ne (hnode : other ≠ node) (hprev : other ≠ links.prev position)
    (hne : node ≠ position) : (links.hook node position).next other = links.next other := by
  simp [hook, setNext, setPrev, hnode, hprev, hne]

theorem prev_hook_of_ne (hnode : other ≠ node) (hposition : other ≠ position) :
    (links.hook node position).prev other = links.prev other := by
  simp [hook, setNext, setPrev, hnode, hposition, Function.update_apply]

theorem next_hook_self (hne : node ≠ position) (hprev : node ≠ links.prev position) :
    (links.hook node position).next node = position := by
  simp [hook, setNext, setPrev, hne, hprev]

theorem prev_hook_self (hne : node ≠ position) :
    (links.hook node position).prev node = links.prev position := by
  simp [hook, setNext, setPrev, hne]

theorem next_hook_prev (hne : node ≠ position) :
    (links.hook node position).next (links.prev position) = node := by
  simp [hook, setNext, setPrev, hne]

theorem prev_hook_position : (links.hook node position).prev position = node := by
  simp [hook, setNext, setPrev, Function.update_apply]

theorem next_unhook_of_ne (hnode : other ≠ node) (hprev : other ≠ links.prev node) :
    (links.unhook node).next other = links.next other := by
  simp [unhook, setNext, setPrev, hnode, hprev, Function.update_apply]

theorem prev_unhook_of_ne (hnode : other ≠ node) (hprev : node ≠ links.prev node)
    (hnext : other ≠ links.next node) :
    (links.unhook node).prev other = links.prev other := by
  simp [unhook, setNext, setPrev, hnode, hprev, hnext]

theorem next_unhook_self : (links.unhook node).next node = node := by
  simp [unhook, setNext, setPrev]

theorem prev_unhook_self : (links.unhook node).prev node = node := by
  simp [unhook, setNext, setPrev]

theorem next_unhook_prev (hprev : node ≠ links.prev node) :
    (links.unhook node).next (links.prev node) = links.next node := by
  simp [unhook, setNext, setPrev, hprev.symm, Function.update_apply]

theorem prev_unhook_next (hprev : node ≠ links.prev node) (hnext : node ≠ links.next node) :
    (links.unhook node).prev (links.next node) = links.prev node := by
  simp [unhook, setNext, setPrev, hprev, hnext.symm]

theorem unhook_of_self (hnext : links.next node = node) (hprev : links.prev node = node) :
    links.unhook node = links := by
  ext other
  all_goals
    by_cases hnode : other = node
    · subst hnode
      simp_all [unhook, setNext, setPrev]
    · simp_all [unhook, setNext, setPrev]

theorem hook_of_self (hnext : links.next node = node) (hprev : links.prev node = node) :
    links.hook node node = links := by
  ext other
  all_goals
    by_cases hnode : other = node
    · subst hnode
      simp_all [hook, setNext, setPrev]
    · simp_all [hook, setNext, setPrev]

/-! ## Turning nodes around -/

/-- Exchanges the two links of a node. -/
def flip (links : Links Node) (node : Node) : Links Node :=
  (links.setNext node (links.prev node)).setPrev node (links.next node)

theorem flip_of_same (hsame : links.next node = links.prev node) : links.flip node = links := by
  have hnext : Function.update links.next node (links.prev node) = links.next :=
    hsame ▸ Function.update_eq_self node links.next
  have hprev : Function.update links.prev node (links.next node) = links.prev :=
    hsame ▸ Function.update_eq_self node links.prev
  rw [flip, setNext, setPrev, hnext, hprev]

/-- The links with those of some nodes exchanged. -/
def turned (links : Links Node) (nodes : List Node) : Links Node where
  next node := if node ∈ nodes then links.prev node else links.next node
  prev node := if node ∈ nodes then links.next node else links.prev node

theorem next_flip_of_ne (hnode : other ≠ node) :
    (links.flip node).next other = links.next other :=
  Function.update_of_ne hnode _ _

theorem prev_flip_of_ne (hnode : other ≠ node) :
    (links.flip node).prev other = links.prev other :=
  Function.update_of_ne hnode _ _

theorem next_flip_self : (links.flip node).next node = links.prev node :=
  Function.update_self _ _ _

theorem prev_flip_self : (links.flip node).prev node = links.next node :=
  Function.update_self _ _ _

theorem turned_nil : links.turned [] = links := by
  simp [turned]

theorem turned_flip {nodes : List Node} (hnode : node ∉ nodes) :
    (links.flip node).turned nodes = links.turned (node :: nodes) := by
  have hcases : ∀ other, other = node ∨ other ≠ node := fun other => eq_or_ne other node
  ext other
  all_goals
    rcases hcases other with rfl | hne
    · simp [turned, hnode, next_flip_self, prev_flip_self]
    · simp [turned, hne, next_flip_of_ne, prev_flip_of_ne]

theorem flip_turned {nodes nodes' : List Node} (hnode : node ∈ nodes' ↔ node ∉ nodes)
    (hsame : ∀ other, other ≠ node → (other ∈ nodes' ↔ other ∈ nodes)) :
    (links.turned nodes).flip node = links.turned nodes' := by
  have hcases : ∀ other, other = node ∨ other ≠ node := fun other => eq_or_ne other node
  ext other
  all_goals
    rcases hcases other with rfl | hne
    · by_cases hmem : other ∈ nodes <;>
        simp [turned, hnode, hmem, next_flip_self, prev_flip_self]
    · simp [turned, hsame other hne, next_flip_of_ne hne, prev_flip_of_ne hne]

theorem turned_turned {nodes nodes' : List Node} (hsame : ∀ node, node ∈ nodes ↔ node ∈ nodes') :
    (links.turned nodes).turned nodes' = links := by
  ext other
  all_goals
    by_cases hmem : other ∈ nodes'
    · simp [turned, hsame, hmem]
    · simp [turned, hsame, hmem]

/-! ## Chains -/

/-- Consecutive nodes are linked both ways. -/
def Linked (links : Links Node) (nodes : List Node) : Prop :=
  nodes.IsChain fun first second => links.next first = second ∧ links.prev second = first

variable {nodes front back : List Node} {first second anchor : Node}

omit [DecidableEq Node] in
theorem Linked.congr (hlinked : Linked links nodes)
    (hnext : ∀ node ∈ nodes.dropLast, links'.next node = links.next node)
    (hprev : ∀ node ∈ nodes.tail, links'.prev node = links.prev node) :
    Linked links' nodes := by
  induction nodes with
  | nil => exact .nil
  | cons first rest ih =>
      cases rest with
      | nil => exact .singleton first
      | cons second rest =>
          obtain ⟨⟨hahead, hbehind⟩, hrest⟩ := List.isChain_cons_cons.1 hlinked
          refine List.isChain_cons_cons.2 ⟨⟨?_, ?_⟩, ih hrest ?_ ?_⟩
          · rw [hnext first (by simp), hahead]
          · rw [hprev second (by simp), hbehind]
          · intro node hnode
            exact hnext node (by simp [hnode])
          · intro node hnode
            exact hprev node (List.mem_cons_of_mem _ hnode)

omit [DecidableEq Node] in
theorem linked_seam :
    Linked links (front ++ first :: second :: back) ↔ Linked links (front ++ [first]) ∧
      (links.next first = second ∧ links.prev second = first) ∧ Linked links (second :: back) :=
  List.isChain_append_cons_cons

/-- Going through the chain, no other link leads on from `first` and no other link
leads back from `second`. -/
structure Seam (front : List Node) (first second : Node) (back : List Node) : Prop where
  first_front : first ∉ front
  first_back : first ∉ (second :: back).dropLast
  second_front : second ∉ (front ++ [first]).tail
  second_back : second ∉ back

omit [DecidableEq Node] in
/-- What stays of a chain when only `next` of the first and `prev` of the second node
at the seam, and the links of a node outside, are changed. -/
theorem Linked.around {links' : Links Node} (hfront : Linked links (front ++ [first]))
    (hback : Linked links (second :: back)) (hseam : Seam front first second back)
    (hnode : node ∉ front ++ first :: second :: back)
    (hnext : ∀ other, other ≠ node → other ≠ first → links'.next other = links.next other)
    (hprev : ∀ other, other ≠ node → other ≠ second → links'.prev other = links.prev other) :
    Linked links' (front ++ [first]) ∧ Linked links' (second :: back) := by
  have hapart : ∀ other ∈ front ++ first :: second :: back, other ≠ node := by
    rintro other hother rfl
    exact hnode hother
  constructor
  · refine hfront.congr (fun other hother => ?_) fun other hother => ?_
    · rw [List.dropLast_concat] at hother
      refine hnext other (hapart other (List.mem_append_left _ hother)) ?_
      rintro rfl
      exact hseam.first_front hother
    · have hmem := List.mem_of_mem_tail hother
      refine hprev other (hapart other ?_) ?_
      · simp only [List.mem_append, List.mem_cons] at hmem ⊢
        tauto
      · rintro rfl
        exact hseam.second_front hother
  · refine hback.congr (fun other hother => ?_) fun other hother => ?_
    · have hmem := List.mem_of_mem_dropLast hother
      refine hnext other (hapart other ?_) ?_
      · exact List.mem_append_right _ (List.mem_cons_of_mem _ hmem)
      · rintro rfl
        exact hseam.first_back hother
    · refine hprev other (hapart other ?_) ?_
      · exact List.mem_append_right _ (List.mem_cons_of_mem _ (List.mem_cons_of_mem _ hother))
      · rintro rfl
        exact hseam.second_back hother

theorem Linked.hook (hlinked : Linked links (front ++ first :: second :: back))
    (hseam : Seam front first second back) (hnode : node ∉ front ++ first :: second :: back) :
    Linked (links.hook node second) (front ++ first :: node :: second :: back) := by
  obtain ⟨hfront, ⟨-, rfl⟩, hback⟩ := linked_seam.1 hlinked
  have hout := hnode
  simp only [List.mem_append, List.mem_cons, not_or] at hout
  obtain ⟨-, hfirst, hsecond, -⟩ := hout
  obtain ⟨hleft, hright⟩ := hfront.around hback hseam hnode
    (fun other hother hprev => next_hook_of_ne hother hprev hsecond)
    (fun other hother hposition => prev_hook_of_ne hother hposition)
  refine linked_seam.2 ⟨hleft, ⟨next_hook_prev hsecond, prev_hook_self hsecond⟩, ?_⟩
  exact List.isChain_cons_cons.2 ⟨⟨next_hook_self hsecond hfirst, prev_hook_position⟩, hright⟩

theorem Linked.unhook (hlinked : Linked links (front ++ first :: node :: second :: back))
    (hseam : Seam front first second back) (hnode : node ∉ front ++ first :: second :: back) :
    Linked (links.unhook node) (front ++ first :: second :: back) := by
  obtain ⟨hfront, ⟨-, rfl⟩, hrest⟩ := linked_seam.1 hlinked
  obtain ⟨⟨rfl, -⟩, hback⟩ := List.isChain_cons_cons.1 hrest
  have hout := hnode
  simp only [List.mem_append, List.mem_cons, not_or] at hout
  obtain ⟨-, hfirst, hsecond, -⟩ := hout
  obtain ⟨hleft, hright⟩ := hfront.around hback hseam hnode
    (fun other hother hprev => next_unhook_of_ne hother hprev)
    (fun other hother hnext => prev_unhook_of_ne hother hfirst hnext)
  exact linked_seam.2
    ⟨hleft, ⟨next_unhook_prev hfirst, prev_unhook_next hfirst hsecond⟩, hright⟩

/-! ## Rings -/

/-- Going on from the anchor visits `nodes` and comes back. -/
structure Ring (links : Links Node) (anchor : Node) (nodes : List Node) : Prop where
  linked : Linked links (anchor :: nodes ++ [anchor])
  nodup : (anchor :: nodes).Nodup

omit [DecidableEq Node] in
theorem seam_of_nodup (hnodup : (anchor :: nodes).Nodup)
    (hsplit : anchor :: nodes ++ [anchor] = front ++ first :: second :: back) :
    Seam front first second back := by
  have hdrop : anchor :: nodes = front ++ first :: (second :: back).dropLast := by
    have heq := congrArg List.dropLast hsplit
    rwa [List.dropLast_concat, List.dropLast_append_of_ne_nil (by simp),
      List.dropLast_cons_of_ne_nil (by simp)] at heq
  have htail : nodes ++ [anchor] = (front ++ [first]).tail ++ second :: back := by
    have heq := congrArg List.tail hsplit
    have hassoc : front ++ first :: second :: back = (front ++ [first]) ++ second :: back := by
      simp
    rwa [hassoc, List.tail_append_of_ne_nil (by simp), List.tail_append_of_ne_nil (by simp), List.tail_cons] at heq
  have hrotated : (nodes ++ [anchor]).Nodup :=
    (List.perm_append_singleton anchor nodes).nodup_iff.2 hnodup
  rw [hdrop, List.nodup_append] at hnodup
  rw [htail, List.nodup_append] at hrotated
  refine ⟨fun hmem => ?_, (List.nodup_cons.1 hnodup.2.1).1, fun hmem => ?_,
    (List.nodup_cons.1 hrotated.2.1).1⟩
  · exact hnodup.2.2 first hmem first List.mem_cons_self rfl
  · exact hrotated.2.2 second hmem second List.mem_cons_self rfl

omit [DecidableEq Node] in
theorem exists_neighbours (anchor : Node) (front back : List Node) :
    ∃ front' back', ∀ middle : List Node,
      anchor :: (front ++ (middle ++ back)) ++ [anchor] =
        front' ++ front.getLastD anchor :: (middle ++ back.headD anchor :: back') := by
  refine ⟨(anchor :: front).dropLast, (back ++ [anchor]).tail, fun middle => ?_⟩
  have hfront : anchor :: front = (anchor :: front).dropLast ++ [front.getLastD anchor] := by
    rw [← List.getLast_eq_getLastD (List.cons_ne_nil _ _), List.dropLast_concat_getLast]
  have hback : back ++ [anchor] = back.headD anchor :: (back ++ [anchor]).tail := by
    cases back <;> rfl
  calc anchor :: (front ++ (middle ++ back)) ++ [anchor]
      = (anchor :: front) ++ (middle ++ (back ++ [anchor])) := by simp
    _ = (anchor :: front).dropLast ++ [front.getLastD anchor] ++
          (middle ++ back.headD anchor :: (back ++ [anchor]).tail) := by rw [← hfront, ← hback]
    _ = _ := by rw [List.append_assoc, List.singleton_append]

namespace Ring

variable {nodes' : List Node} {anchor' : Node}

omit [DecidableEq Node] in
theorem neighbours (hring : Ring links anchor (front ++ back)) :
    links.next (front.getLastD anchor) = back.headD anchor ∧
      links.prev (back.headD anchor) = front.getLastD anchor := by
  obtain ⟨front', back', hsplit⟩ := exists_neighbours anchor front back
  have hlinked : Linked links (anchor :: (front ++ ([] ++ back)) ++ [anchor]) := hring.linked
  rw [hsplit] at hlinked
  exact (linked_seam.1 hlinked).2.1

omit [DecidableEq Node] in
theorem next_anchor (hring : Ring links anchor nodes) :
    links.next anchor = nodes.headD anchor := by
  have hsplit : Ring links anchor ([] ++ nodes) := hring
  exact hsplit.neighbours.1

omit [DecidableEq Node] in
theorem prev_anchor (hring : Ring links anchor nodes) :
    links.prev anchor = nodes.getLastD anchor := by
  rw [← List.append_nil nodes] at hring
  exact hring.neighbours.2

omit [DecidableEq Node] in
theorem next_node (hring : Ring links anchor (front ++ node :: back)) :
    links.next node = back.headD anchor := by
  have hsplit : front ++ node :: back = (front ++ [node]) ++ back := by simp
  rw [hsplit] at hring
  simpa using hring.neighbours.1

omit [DecidableEq Node] in
theorem prev_node (hring : Ring links anchor (front ++ node :: back)) :
    links.prev node = front.getLastD anchor :=
  hring.neighbours.2

omit [DecidableEq Node] in
theorem headD_mem (anchor : Node) (front back : List Node) :
    back.headD anchor ∈ anchor :: (front ++ back) := by
  cases back <;> simp

omit [DecidableEq Node] in
theorem getLastD_mem (anchor : Node) (front back : List Node) :
    front.getLastD anchor ∈ anchor :: (front ++ back) :=
  List.mem_append_left back List.getLastD_mem_cons

omit [DecidableEq Node] in
theorem perm_middle (anchor : Node) (front back : List Node) :
    (anchor :: (front ++ node :: back)).Perm (node :: anchor :: (front ++ back)) :=
  (List.Perm.cons anchor List.perm_middle).trans (List.Perm.swap _ _ _)

/-- **Putting a node in** before `back`. -/
theorem hook (hring : Ring links anchor (front ++ back))
    (hnode : node ∉ anchor :: (front ++ back)) :
    Ring (links.hook node (back.headD anchor)) anchor (front ++ node :: back) := by
  obtain ⟨front', back', hsplit⟩ := exists_neighbours anchor front back
  have hbefore : anchor :: (front ++ back) ++ [anchor] =
      front' ++ front.getLastD anchor :: back.headD anchor :: back' := hsplit []
  have hafter : anchor :: (front ++ node :: back) ++ [anchor] =
      front' ++ front.getLastD anchor :: node :: back.headD anchor :: back' := hsplit [node]
  constructor
  · rw [hafter]
    refine Linked.hook (hbefore ▸ hring.linked) (seam_of_nodup hring.nodup hbefore) ?_
    rw [← hbefore]
    simp only [List.mem_append, List.mem_cons, List.not_mem_nil, or_false] at hnode ⊢
    tauto
  · exact (perm_middle anchor front back).nodup_iff.2 (List.nodup_cons.2 ⟨hnode, hring.nodup⟩)

/-- **Taking a node out.** -/
theorem unhook (hring : Ring links anchor (front ++ node :: back)) :
    Ring (links.unhook node) anchor (front ++ back) := by
  obtain ⟨front', back', hsplit⟩ := exists_neighbours anchor front back
  have hafter : anchor :: (front ++ back) ++ [anchor] =
      front' ++ front.getLastD anchor :: back.headD anchor :: back' := hsplit []
  have hbefore : anchor :: (front ++ node :: back) ++ [anchor] =
      front' ++ front.getLastD anchor :: node :: back.headD anchor :: back' := hsplit [node]
  obtain ⟨hnode, hnodup⟩ :=
    List.nodup_cons.1 ((perm_middle anchor front back).nodup_iff.1 hring.nodup)
  refine ⟨?_, hnodup⟩
  rw [hafter]
  refine Linked.unhook (hbefore ▸ hring.linked) (seam_of_nodup hnodup hafter) ?_
  rw [← hafter]
  simp only [List.mem_append, List.mem_cons, List.not_mem_nil, or_false] at hnode ⊢
  tauto

omit [DecidableEq Node] in
theorem congr (hring : Ring links anchor nodes)
    (hsame : ∀ node ∈ anchor :: nodes,
      links'.next node = links.next node ∧ links'.prev node = links.prev node) :
    Ring links' anchor nodes := by
  refine ⟨hring.linked.congr (fun node hnode => (hsame node ?_).1)
    (fun node hnode => (hsame node ?_).2), hring.nodup⟩
  · rwa [List.dropLast_concat] at hnode
  · rw [List.cons_append, List.tail_cons, List.mem_append, List.mem_singleton] at hnode
    rw [List.mem_cons]
    exact hnode.symm

theorem hook_other (hring : Ring links anchor (front ++ back))
    (hother : Ring links anchor' nodes')
    (hdisjoint : List.Disjoint (anchor :: (front ++ back)) (anchor' :: nodes'))
    (hnode : node ∉ anchor' :: nodes') (hne : node ≠ back.headD anchor) :
    Ring (links.hook node (back.headD anchor)) anchor' nodes' := by
  have hposition := headD_mem anchor front back
  have hprev : links.prev (back.headD anchor) ∈ anchor :: (front ++ back) :=
    hring.neighbours.2 ▸ getLastD_mem anchor front back
  refine hother.congr fun other hmem => ⟨next_hook_of_ne ?_ ?_ hne, prev_hook_of_ne ?_ ?_⟩
  · exact fun heq => hnode (heq ▸ hmem)
  · exact fun heq => hdisjoint hprev (heq ▸ hmem)
  · exact fun heq => hnode (heq ▸ hmem)
  · exact fun heq => hdisjoint hposition (heq ▸ hmem)

theorem unhook_other (hring : Ring links anchor (front ++ node :: back))
    (hother : Ring links anchor' nodes')
    (hdisjoint : List.Disjoint (anchor :: (front ++ node :: back)) (anchor' :: nodes')) :
    Ring (links.unhook node) anchor' nodes' := by
  have hnode : node ∈ anchor :: (front ++ node :: back) := by simp
  have hprev : links.prev node ∈ anchor :: (front ++ node :: back) :=
    hring.prev_node ▸ getLastD_mem anchor front (node :: back)
  have hnext : links.next node ∈ anchor :: (front ++ node :: back) := by
    have hmem := headD_mem anchor (front ++ [node]) back
    rw [List.append_assoc, List.singleton_append] at hmem
    exact hring.next_node ▸ hmem
  have hself : node ≠ links.prev node := by
    rw [hring.prev_node]
    intro heq
    have hmem : node ∈ anchor :: front := heq ▸ List.getLastD_mem_cons
    have hsplit : anchor :: (front ++ node :: back) = (anchor :: front) ++ node :: back := rfl
    have hnodup := hring.nodup
    rw [hsplit, List.nodup_append] at hnodup
    exact hnodup.2.2 node hmem node List.mem_cons_self rfl
  refine hother.congr fun other hmem => ⟨next_unhook_of_ne ?_ ?_, prev_unhook_of_ne ?_ hself ?_⟩
  · exact fun heq => hdisjoint hnode (heq ▸ hmem)
  · exact fun heq => hdisjoint hprev (heq ▸ hmem)
  · exact fun heq => hdisjoint hnode (heq ▸ hmem)
  · exact fun heq => hdisjoint hnext (heq ▸ hmem)

omit [DecidableEq Node] in
theorem of_self (hnext : links.next anchor = anchor) (hprev : links.prev anchor = anchor) :
    Ring links anchor [] :=
  ⟨List.isChain_cons_cons.2 ⟨⟨hnext, hprev⟩, .singleton _⟩, List.nodup_singleton _⟩

/-- **Joining two rings** by crossing the links back to the first anchor and on from the
second. -/
theorem cross (hring : Ring links anchor nodes) (hother : Ring links anchor' nodes')
    (hdisjoint : List.Disjoint (anchor :: nodes) (anchor' :: nodes')) :
    Ring (links.cross (nodes.getLastD anchor) (nodes'.headD anchor') anchor' anchor) anchor
      (nodes ++ (nodes' ++ [anchor'])) := by
  have hlast : nodes.getLastD anchor ∈ anchor :: nodes := List.getLastD_mem_cons
  have hhead : nodes'.headD anchor' ∈ anchor' :: nodes' := headD_mem anchor' [] nodes'
  have hapart : ∀ first ∈ anchor :: nodes, ∀ second ∈ anchor' :: nodes', first ≠ second := by
    rintro first hfirst second hsecond rfl
    exact hdisjoint hfirst hsecond
  have hnext : ∀ node, node ≠ nodes.getLastD anchor → node ≠ anchor' →
      (links.cross (nodes.getLastD anchor) (nodes'.headD anchor') anchor' anchor).next node =
        links.next node := by
    intro node hne hne'
    simp only [Links.cross, setNext, setPrev, Function.update_of_ne hne',
      Function.update_of_ne hne]
  have hprev : ∀ node, node ≠ nodes'.headD anchor' → node ≠ anchor →
      (links.cross (nodes.getLastD anchor) (nodes'.headD anchor') anchor' anchor).prev node =
        links.prev node := by
    intro node hne hne'
    simp only [Links.cross, setNext, setPrev, Function.update_of_ne hne',
      Function.update_of_ne hne]
  have hsplit : anchor :: (nodes ++ (nodes' ++ [anchor'])) ++ [anchor] =
      (anchor :: nodes) ++ ((nodes' ++ [anchor']) ++ [anchor]) := by simp
  have hwhole : (anchor :: nodes) =
      (anchor :: nodes).dropLast ++ [nodes.getLastD anchor] := by
    rw [← List.getLast_eq_getLastD (List.cons_ne_nil _ _), List.dropLast_concat_getLast]
  obtain ⟨hnode, hnodup⟩ := List.nodup_cons.1 hring.nodup
  obtain ⟨hnode', hnodup'⟩ := List.nodup_cons.1 hother.nodup
  constructor
  · rw [hsplit]
    refine List.isChain_append.2 ⟨?_, List.isChain_append.2 ⟨?_, .singleton _, ?_⟩, ?_⟩
    · refine Linked.congr (List.isChain_append.1 hring.linked).1 (fun node hmem => ?_)
        fun node hmem => ?_
      · refine hnext node ?_ (hapart node (List.mem_of_mem_dropLast hmem) _ List.mem_cons_self)
        rintro rfl
        have hdrop := hring.nodup
        rw [hwhole, List.nodup_append] at hdrop
        exact hdrop.2.2 _ hmem _ List.mem_cons_self rfl
      · rw [List.tail_cons] at hmem
        refine hprev node (hapart node (List.mem_cons_of_mem _ hmem) _ hhead) ?_
        rintro rfl
        exact hnode hmem
    · refine Linked.congr (List.isChain_cons.1 hother.linked).2 (fun node hmem => ?_)
        fun node hmem => ?_
      · rw [List.dropLast_concat] at hmem
        refine hnext node (hapart _ hlast node (List.mem_cons_of_mem _ hmem)).symm ?_
        rintro rfl
        exact hnode' hmem
      · have hmem' : node ∈ anchor' :: nodes' := by
          have := List.mem_of_mem_tail hmem
          simp only [List.mem_append, List.mem_cons, List.not_mem_nil, or_false] at this ⊢
          exact this.symm
        refine hprev node ?_ (hapart _ List.mem_cons_self node hmem').symm
        rintro rfl
        cases nodes' with
        | nil => simp at hmem
        | cons head nodes' =>
            rcases List.mem_append.1 hmem with hmem | hmem
            · exact (List.nodup_cons.1 hnodup').1 hmem
            · exact hnode' (List.mem_singleton.1 hmem ▸ List.mem_cons_self)
    · -- the second anchor leads on to the first
      intro x hx y hy
      obtain rfl : anchor' = x := by simpa using hx
      obtain rfl : anchor = y := by simpa using hy
      have hne := hapart anchor List.mem_cons_self anchor' List.mem_cons_self
      simp [Links.cross, setNext, setPrev]
    · -- the last node of the first ring leads on to the second
      intro x hx y hy
      rw [List.getLast?_cons, Option.mem_some_iff, ← List.getLastD_eq_getLast?] at hx
      obtain rfl : nodes'.headD anchor' = y := by
        cases nodes' <;> simpa using hy
      subst hx
      have hne := hapart _ hlast anchor' List.mem_cons_self
      have hne' := hapart anchor List.mem_cons_self _ hhead
      simp only [Links.cross, setNext, setPrev, Function.update_of_ne hne,
        Function.update_of_ne hne'.symm, Function.update_self, and_self]
  · have hperm : (nodes' ++ [anchor']).Perm (anchor' :: nodes') := List.perm_append_singleton _ _
    rw [← List.cons_append, List.nodup_append]
    refine ⟨hring.nodup, hperm.nodup_iff.2 hother.nodup, fun first hfirst second hsecond => ?_⟩
    exact hapart first hfirst second (hperm.mem_iff.1 hsecond)

omit [DecidableEq Node] in
theorem rotate (hring : Ring links anchor (front ++ node :: back)) :
    Ring links node (back ++ anchor :: front) := by
  have hbefore : anchor :: (front ++ node :: back) ++ [anchor] =
      (anchor :: front) ++ node :: (back ++ [anchor]) := by simp
  have hafter : node :: (back ++ anchor :: front) ++ [node] =
      (node :: back) ++ anchor :: (front ++ [node]) := by simp
  have hlinked := hring.linked
  rw [hbefore] at hlinked
  obtain ⟨hfront, hback⟩ := List.isChain_split.1 hlinked
  constructor
  · rw [hafter]
    exact List.isChain_split.2 ⟨hback, hfront⟩
  · have hperm : (node :: (back ++ anchor :: front)).Perm (anchor :: (front ++ node :: back)) :=
      @List.perm_append_comm _ (node :: back) (anchor :: front)
    exact hperm.nodup_iff.2 hring.nodup

end Ring

end Links
