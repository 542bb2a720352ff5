import Wiselib.Library.LinkedRing

/-!
# The static list

`list_static` of `util/pstl/list_static.h`.  All nodes of the list are members of
it: `LIST_SIZE` of them hold elements, `data_` is the end of the list and
`empty_nodes_` heads the nodes that are not in use.  Both are sentinels of rings.

## Strategy

`Represents` says that the used and the free nodes are two rings of the library, that
between them they are the `LIST_SIZE` nodes, and which elements the used ones hold.
Each operation moves one node from one ring to the other, except `clear`, which hangs
the whole used ring behind the free one, and `remove`, which erases while its iterator
goes on.  The specification of an operation says at which place of which ring; what a
list of operations does is then a fold over both sides (`represents_of_operations`).

`remove` leaves its inner loop when the last element goes, and the step of the outer
loop then takes the iterator from the end to the first element: it goes through what
is left once more (`removeLoop_clean`).
-/

namespace Wiselib

/-- The nodes: `nodes_[i]`, `data_` and `empty_nodes_`. -/
inductive ListStatic.Node where
  | data
  | emptyNodes
  | nodes (i : ℕ)
  deriving DecidableEq, Repr

/-- A list: the links of all nodes and the `element_` of each. -/
structure ListStatic (α : Type*) where
  links : Links ListStatic.Node
  element : ListStatic.Node → α

namespace ListStatic

variable {α : Type*}

/-- `LIST_SIZE`; there are no lists without a node. -/
def LIST_SIZE (ListSize : ℤ) : ℕ := if ListSize < 1 then 1 else ListSize.toNat

theorem LIST_SIZE_pos (ListSize : ℤ) : 0 < LIST_SIZE ListSize := by
  unfold LIST_SIZE
  split
  · decide
  · omega

/-! ## Operations -/

/-- The loop of `init`, which chains up the nodes. -/
def chain (links : Links Node) (count : ℕ) : Links Node :=
  (List.range count).foldl
    (fun links i => (links.setNext (.nodes i) (.nodes (i + 1))).setPrev (.nodes (i + 1)) (.nodes i))
    links

/-- The constructor, which calls `init`.  New nodes are linked to themselves. -/
def init [Inhabited α] (ListSize : ℤ) : ListStatic α :=
  let last := LIST_SIZE ListSize - 1
  let chained := chain ⟨id, id⟩ last
  let closed := (chained.setNext (.nodes last) (.nodes 0)).setPrev (.nodes 0) (.nodes last)
  { links := closed.hook .emptyNodes (.nodes 0)
    element := fun _ => default }

/-- `begin`. -/
def begin (list : ListStatic α) : Node := list.links.next .data

/-- `end`, the node behind the array of nodes. -/
def endNode : Node := .data

/-- `empty`. -/
def empty (list : ListStatic α) : Bool := list.begin = endNode

/-- `get_node`. -/
def getNode (list : ListStatic α) : ListStatic α × Option Node :=
  if .emptyNodes = list.links.next .emptyNodes then (list, none)
  else
    let tmp := list.links.next .emptyNodes
    ({ list with links := list.links.unhook tmp }, some tmp)

/-- `create_node`. -/
def createNode (list : ListStatic α) (x : α) : ListStatic α × Option Node :=
  match list.getNode with
  | (list, none) => (list, none)
  | (list, some tmp) => ({ list with element := Function.update list.element tmp x }, some tmp)

/-- `put_node`. -/
def putNode (list : ListStatic α) (node : Node) : ListStatic α :=
  { list with links := list.links.hook node (list.links.next .emptyNodes) }

/-- `insert`. -/
def insert (list : ListStatic α) (position : Node) (x : α) : ListStatic α × Bool :=
  match list.createNode x with
  | (list, none) => (list, false)
  | (list, some tmp) => ({ list with links := list.links.hook tmp position }, true)

/-- `push_back`. -/
def pushBack (list : ListStatic α) (x : α) : ListStatic α × Bool := list.insert endNode x

/-- `push_front`. -/
def pushFront (list : ListStatic α) (x : α) : ListStatic α × Bool := list.insert list.begin x

/-- `erase`. -/
def erase (list : ListStatic α) (position : Node) : ListStatic α :=
  if list.empty then list
  else { list with links := list.links.unhook position }.putNode position

/-- `pop_back`. -/
def popBack (list : ListStatic α) : ListStatic α := list.erase (list.links.prev endNode)

/-- `pop_front`. -/
def popFront (list : ListStatic α) : ListStatic α := list.erase list.begin

/-- `clear`. -/
def clear (list : ListStatic α) : ListStatic α :=
  if list.empty then list
  else
    let firstElement := list.links.next .data
    let s1 := list.links.setPrev (list.links.next firstElement) (list.links.prev .emptyNodes)
    let s2 := s1.setNext (s1.prev .emptyNodes) (s1.next firstElement)
    let s3 := s2.setNext firstElement .emptyNodes
    let s4 := s3.setPrev .emptyNodes firstElement
    { list with links := s4.unhook .data }

variable [DecidableEq α]

/-- The inner loop of `remove`: erases while the iterator is at the value, until it
reaches the end.  Every round erases an element, so `fuel` for all nodes is enough. -/
def removeHere (value : α) : ℕ → ListStatic α → Node → Option (ListStatic α × Node)
  | 0, _, _ => none
  | fuel + 1, list, it =>
      if list.element it = value then
        let next := list.links.next it
        let erased := list.erase it
        if next = endNode then some (erased, next) else removeHere value fuel erased next
      else some (list, it)

/-- The outer loop of `remove`. -/
def removeLoop (listSize : ℕ) (value : α) : ℕ → ListStatic α → Node → Option (ListStatic α)
  | 0, _, _ => none
  | fuel + 1, list, it =>
      if it = endNode then some list
      else do
        let (list, it) ← removeHere value (listSize + 1) list it
        removeLoop listSize value fuel list (list.links.next it)

/-- `remove`.  The iterator goes through the list at most twice. -/
def remove (listSize : ℕ) (list : ListStatic α) (value : α) : Option (ListStatic α) :=
  removeLoop listSize value (2 * listSize + 2) list list.begin

omit [DecidableEq α] in
/-- The elements from an iterator to the end. -/
def readFrom (list : ListStatic α) : ℕ → Node → Option (List α)
  | 0, it => if it = endNode then some [] else none
  | fuel + 1, it =>
      if it = endNode then some []
      else (list.readFrom fuel (list.links.next it)).map (list.element it :: ·)

/-- `begin()` moved on. -/
def iteratorAt (list : ListStatic α) (k : ℕ) : Node := list.links.next^[k] list.begin

/-! ## Representation -/

/-- The used and the free nodes are rings, which share out the nodes of the list. -/
structure Represents (listSize : ℕ) (list : ListStatic α) (used free : List Node)
    (contents : List α) : Prop where
  usedRing : list.links.Ring .data used
  freeRing : list.links.Ring .emptyNodes free
  nodes : (used ++ free).Perm ((List.range listSize).map Node.nodes)
  elements : used.map list.element = contents

namespace Represents

variable {listSize : ℕ} {list : ListStatic α} {used front back free : List Node}
  {contents : List α} {node : Node} {x value : α}

omit [DecidableEq α]

theorem length (hlist : Represents listSize list used free contents) :
    contents.length + free.length = listSize := by
  have hlength := hlist.nodes.length_eq
  rw [List.length_append, List.length_map, List.length_range] at hlength
  rw [← hlist.elements, List.length_map, hlength]

theorem length_used (hlist : Represents listSize list used free contents) :
    used.length = contents.length := by
  rw [← hlist.elements, List.length_map]

theorem exists_index (hlist : Represents listSize list used free contents)
    (hnode : node ∈ used ++ free) : ∃ i, node = .nodes i := by
  obtain ⟨i, -, rfl⟩ := List.mem_map.1 (hlist.nodes.mem_iff.1 hnode)
  exact ⟨i, rfl⟩

theorem nodup (hlist : Represents listSize list used free contents) : (used ++ free).Nodup :=
  hlist.nodes.nodup_iff.2 (List.nodup_range.map fun _ _ heq => Node.nodes.inj heq)

theorem disjoint (hlist : Represents listSize list used free contents) :
    List.Disjoint (.data :: used) (.emptyNodes :: free) := by
  have hsentinel : ∀ node ∈ used ++ free, node ≠ .data ∧ node ≠ .emptyNodes := by
    intro node hnode
    obtain ⟨i, rfl⟩ := hlist.exists_index hnode
    exact ⟨by simp, by simp⟩
  intro node hused hfree
  rcases List.mem_cons.1 hused with rfl | hused <;> rcases List.mem_cons.1 hfree with heq | hfree
  · exact absurd heq (by simp)
  · exact (hsentinel _ (List.mem_append_right _ hfree)).1 rfl
  · exact (hsentinel _ (List.mem_append_left _ hused)).2 heq
  · exact (List.nodup_append.1 hlist.nodup).2.2 node hused node hfree rfl

theorem begin_eq (hlist : Represents listSize list used free contents) :
    list.begin = used.headD .data :=
  hlist.usedRing.next_anchor

theorem headD_eq_data_iff (hlist : Represents listSize list (front ++ back) free contents) :
    back.headD .data = endNode ↔ back = [] := by
  cases back with
  | nil => simp [endNode]
  | cons node back =>
      have hmem : node ∈ (front ++ node :: back) ++ free := by simp
      obtain ⟨i, rfl⟩ := hlist.exists_index hmem
      simp [endNode]

theorem empty_iff (hlist : Represents listSize list used free contents) :
    list.empty = true ↔ used = [] := by
  have hsplit : Represents listSize list ([] ++ used) free contents := hlist
  rw [empty, decide_eq_true_iff, hlist.begin_eq]
  exact hsplit.headD_eq_data_iff

theorem iteratorAt_eq (hlist : Represents listSize list used free contents) {k : ℕ}
    (hk : k ≤ contents.length) : list.iteratorAt k = (used.drop k).headD .data := by
  rw [← hlist.length_used] at hk
  unfold iteratorAt
  induction k with
  | zero => simpa using hlist.begin_eq
  | succ k ih =>
      have hlt : k < used.length := hk
      have hsplit : used = used.take k ++ used[k] :: used.drop (k + 1) := by
        rw [List.getElem_cons_drop, List.take_append_drop]
      have hring := hlist.usedRing
      rw [hsplit] at hring
      have hhead : (used.drop k).headD .data = used[k] := by
        rw [List.drop_eq_getElem_cons hlt]
        rfl
      rw [Function.iterate_succ_apply', ih (by omega), hhead, hring.next_node]

/-! ## Insertion -/

theorem createNode_full (hlist : Represents listSize list used [] contents) :
    list.createNode x = (list, none) := by
  have hnext : list.links.next .emptyNodes = .emptyNodes := hlist.freeRing.next_anchor
  simp [createNode, getNode, hnext]

theorem map_update_insert {element : Node → α} (hout : node ∉ front ++ back) :
    (front ++ node :: back).map (Function.update element node x) =
      ((front ++ back).map element).take front.length ++
        x :: ((front ++ back).map element).drop front.length := by
  have hsame : ∀ other ∈ front ++ back,
      Function.update element node x other = element other := by
    intro other hother
    refine Function.update_of_ne ?_ _ _
    rintro rfl
    exact hout hother
  have hlength : front.length = (front.map element).length := by simp
  have hfront : front.map (Function.update element node x) = front.map element :=
    List.map_congr_left fun other hother => hsame other (List.mem_append_left _ hother)
  have hback : back.map (Function.update element node x) = back.map element :=
    List.map_congr_left fun other hother => hsame other (List.mem_append_right _ hother)
  rw [List.map_append, List.map_cons, Function.update_self, hfront, hback, List.map_append,
    hlength, List.take_left, List.drop_left]

/-- **An insertion** before `back`. -/
theorem insert (hlist : Represents listSize list (front ++ back) (node :: free) contents) :
    (list.insert (back.headD .data) x).2 = true ∧
      Represents listSize (list.insert (back.headD .data) x).1 (front ++ node :: back) free
        (contents.take front.length ++ x :: contents.drop front.length) := by
  have hmem : node ∈ (front ++ back) ++ node :: free := by simp
  obtain ⟨i, rfl⟩ := hlist.exists_index hmem
  have hnext : list.links.next .emptyNodes = .nodes i := hlist.freeRing.next_anchor
  have hinsert : list.insert (back.headD .data) x =
      (⟨(list.links.unhook (.nodes i)).hook (.nodes i) (back.headD .data),
        Function.update list.element (.nodes i) x⟩, true) := by
    simp [ListStatic.insert, createNode, getNode, hnext]
  have hfree : list.links.Ring .emptyNodes ([] ++ .nodes i :: free) := hlist.freeRing
  have hout : Node.nodes i ∉ front ++ back := by
    intro hmem
    exact hlist.disjoint (List.mem_cons_of_mem _ hmem)
      (List.mem_cons_of_mem _ List.mem_cons_self)
  have hunhooked := hfree.unhook
  have hkept := hfree.unhook_other hlist.usedRing hlist.disjoint.symm
  rw [hinsert]
  refine ⟨rfl, ?_, ?_, ?_, ?_⟩
  · exact hkept.hook (by simpa using hout)
  · refine hkept.hook_other hunhooked ?_ ?_ ?_
    · intro other hused hother
      refine hlist.disjoint hused ?_
      rcases List.mem_cons.1 hother with rfl | hother
      · exact List.mem_cons_self
      · exact List.mem_cons_of_mem _ (List.mem_cons_of_mem _ hother)
    · have hnodup := hfree.nodup
      simp only [List.nil_append, List.nodup_cons, List.mem_cons, not_or] at hnodup
      simp [hnodup.2.1]
    · intro heq
      have hmem := Links.Ring.headD_mem Node.data front back
      rw [← heq] at hmem
      exact hout (by simpa using hmem)
  · refine List.Perm.trans ?_ hlist.nodes
    rw [List.append_assoc, List.append_assoc, List.cons_append]
    exact List.Perm.append_left front List.perm_middle.symm
  · rw [← hlist.elements]
    exact map_update_insert hout

/-! ## Removal -/

/-- **An erasure** of the node behind `front`. -/
theorem erase (hlist : Represents listSize list (front ++ node :: back) free contents) :
    Represents listSize (list.erase node) (front ++ back) (node :: free)
      (contents.eraseIdx front.length) := by
  have hempty : list.empty ≠ true := by
    rw [Ne, hlist.empty_iff]
    simp
  have hunhooked := hlist.usedRing.unhook
  have hkept : (list.links.unhook node).Ring .emptyNodes ([] ++ free) :=
    hlist.usedRing.unhook_other hlist.freeRing hlist.disjoint
  have hput : list.erase node = { list with
      links := (list.links.unhook node).hook node (free.headD .emptyNodes) } := by
    rw [ListStatic.erase, if_neg hempty, putNode]
    congr 2
    exact hkept.next_anchor
  have hfree : node ∉ .emptyNodes :: free := fun hmem => hlist.disjoint (by simp) hmem
  have hsub : .data :: (front ++ back) ⊆ .data :: (front ++ node :: back) := by
    intro other hother
    simp only [List.mem_cons, List.mem_append] at hother ⊢
    tauto
  rw [hput]
  refine ⟨?_, ?_, ?_, ?_⟩
  · refine hkept.hook_other hunhooked ?_ ?_ ?_
    · exact fun other hother hused => hlist.disjoint (hsub hused) hother
    · have hnodup := (Links.Ring.perm_middle Node.data front back).nodup_iff.1
        hlist.usedRing.nodup
      exact (List.nodup_cons.1 hnodup).1
    · intro heq
      exact hfree (heq ▸ Links.Ring.headD_mem Node.emptyNodes [] free)
  · exact hkept.hook hfree
  · refine List.Perm.trans ?_ hlist.nodes
    rw [List.append_assoc, List.append_assoc, List.cons_append]
    exact List.Perm.append_left front List.perm_middle
  · rw [← hlist.elements, List.map_append, List.map_append, List.map_cons]
    have hlength : front.length = (front.map list.element).length := by simp
    rw [hlength, List.eraseIdx_append_of_length_le (le_refl _), Nat.sub_self,
      List.eraseIdx_cons_zero]

/-- **`clear`** joins the rings and takes the end out of the ring that makes. -/
theorem clear (hlist : Represents listSize list used free contents) :
    Represents listSize list.clear [] (free ++ used.tail ++ used.take 1) [] := by
  cases used with
  | nil =>
      have hempty : list.empty = true := hlist.empty_iff.2 rfl
      obtain rfl : [] = contents := by simpa using hlist.elements
      simpa [ListStatic.clear, hempty] using hlist
  | cons first rest =>
      have hempty : list.empty ≠ true := by
        rw [Ne, hlist.empty_iff]
        simp
      have hfirst : list.links.next .data = first := hlist.usedRing.next_anchor
      have hused : list.links.Ring .data ([] ++ first :: rest) := hlist.usedRing
      have hnext : list.links.next first = rest.headD .data := hused.next_node
      have hhead : (rest ++ [Node.data]).headD first = rest.headD .data := by cases rest <;> rfl
      have hfree : list.links.prev .emptyNodes = free.getLastD .emptyNodes :=
        hlist.freeRing.prev_anchor
      have hapart : .emptyNodes ≠ rest.headD .data := by
        intro heq
        have hmem := Links.Ring.headD_mem Node.data [first] rest
        rw [← heq] at hmem
        exact hlist.disjoint hmem List.mem_cons_self
      have hclear : list.clear = { list with
          links := (list.links.cross (free.getLastD .emptyNodes)
            ((rest ++ [Node.data]).headD first) first .emptyNodes).unhook .data } := by
        rw [ListStatic.clear, if_neg hempty]
        simp only [Links.cross, Links.setNext, Links.setPrev, hfirst, hnext, hfree, hhead,
          Function.update_of_ne hapart]
      have hrotated : list.links.Ring first (rest ++ [Node.data]) := hused.rotate
      have hperm : (first :: (rest ++ [Node.data])).Perm (.data :: first :: rest) :=
        List.perm_append_singleton Node.data (first :: rest)
      have hjoined := hlist.freeRing.cross hrotated
        fun other hother hmem => hlist.disjoint (hperm.mem_iff.1 hmem) hother
      have hsplit : free ++ (rest ++ [Node.data] ++ [first]) = (free ++ rest) ++ .data :: [first] := by
        simp
      rw [hsplit] at hjoined
      rw [hclear]
      refine ⟨?_, hjoined.unhook, ?_, rfl⟩
      · exact Links.Ring.of_self Links.next_unhook_self Links.prev_unhook_self
      · refine List.Perm.trans ?_ hlist.nodes
        have hback : (free ++ rest ++ [first]).Perm (first :: (free ++ rest)) :=
          List.perm_append_singleton _ _
        exact hback.trans (List.Perm.cons first List.perm_append_comm)

/-! ## `remove` -/

theorem element_erase : (list.erase node).element = list.element := by
  unfold ListStatic.erase
  split <;> rfl

theorem erase_map (hlist : Represents listSize list (front ++ node :: back) free contents) :
    Represents listSize (list.erase node) (front ++ back) (node :: free)
      ((front ++ back).map list.element) := by
  have herased := hlist.erase
  refine ⟨herased.usedRing, herased.freeRing, herased.nodes, ?_⟩
  rw [element_erase]

variable [DecidableEq α]

theorem removeHere (value : α) {fuel : ℕ} :
    ∀ {back free : List Node} {list : ListStatic α} {node : Node} {contents : List α},
      Represents listSize list (front ++ node :: back) free contents → back.length < fuel →
      ∃ list' gone rest free', node :: back = gone ++ rest ∧
        (∀ other ∈ gone, list.element other = value) ∧
        (∀ other ∈ rest.head?, list.element other ≠ value) ∧
        ListStatic.removeHere value fuel list node = some (list', rest.headD .data) ∧
        list'.element = list.element ∧
        Represents listSize list' (front ++ rest) free' ((front ++ rest).map list.element) := by
  induction fuel with
  | zero => exact fun _ hfuel => absurd hfuel (Nat.not_lt_zero _)
  | succ fuel ih =>
      intro back free list node contents hlist hfuel
      by_cases hvalue : list.element node = value
      · have hnext : list.links.next node = back.headD .data := hlist.usedRing.next_node
        have herased := hlist.erase_map
        cases back with
        | nil =>
            refine ⟨list.erase node, [node], [], node :: free, rfl, by simpa using hvalue,
              by simp, ?_, element_erase, herased⟩
            have hend : list.links.next node = endNode := hnext
            rw [ListStatic.removeHere, if_pos hvalue]
            simp [hend, endNode]
        | cons second back =>
            have hnot : list.links.next node ≠ endNode := by
              rw [hnext, Ne, herased.headD_eq_data_iff]
              simp
            obtain ⟨list', gone, rest, free', hsplit, hgone, hrest, hremoved, helement, hlist'⟩ :=
              ih herased (by simp only [List.length_cons] at hfuel; omega)
            rw [element_erase] at hgone hrest helement hlist'
            refine ⟨list', node :: gone, rest, free', by rw [hsplit]; rfl, ?_, hrest, ?_,
              helement, hlist'⟩
            · intro other hother
              rcases List.mem_cons.1 hother with rfl | hother
              · exact hvalue
              · exact hgone other hother
            · rw [ListStatic.removeHere, if_pos hvalue]
              simp only [if_neg hnot]
              rw [hnext]
              exact hremoved
      · refine ⟨list, [], node :: back, free, rfl, by simp, by simpa using hvalue, ?_, rfl, ?_⟩
        · rw [ListStatic.removeHere, if_neg hvalue]
          rfl
        · exact ⟨hlist.usedRing, hlist.freeRing, hlist.nodes, rfl⟩

/-- The outer loop goes through elements that are not the value and changes nothing. -/
theorem removeLoop_clean (value : α) :
    ∀ {back front : List Node} {fuel : ℕ},
      Represents listSize list (front ++ back) free contents → back.length < fuel →
      (∀ other ∈ back, list.element other ≠ value) →
      removeLoop listSize value fuel list (back.headD .data) = some list := by
  intro back
  induction back with
  | nil =>
      intro front fuel _ hfuel _
      obtain ⟨fuel, rfl⟩ := Nat.exists_eq_succ_of_ne_zero (Nat.ne_of_gt hfuel)
      simp [removeLoop, endNode]
  | cons node back ih =>
      intro front fuel hlist hfuel hclean
      obtain ⟨fuel, rfl⟩ := Nat.exists_eq_succ_of_ne_zero (Nat.ne_of_gt (Nat.zero_lt_of_lt hfuel))
      have hnot : node ≠ endNode := by
        have := hlist.headD_eq_data_iff.not.2 (List.cons_ne_nil node back)
        exact this
      have hhere : ListStatic.removeHere value (listSize + 1) list node = some (list, node) := by
        rw [ListStatic.removeHere, if_neg (hclean node List.mem_cons_self)]
      have hnext : list.links.next node = back.headD .data := hlist.usedRing.next_node
      have hsplit : front ++ node :: back = (front ++ [node]) ++ back := by simp
      rw [hsplit] at hlist
      rw [List.headD_cons, removeLoop, if_neg hnot, hhere]
      simp only [Option.bind_eq_bind, Option.bind_some]
      rw [hnext]
      refine ih hlist ?_ fun other hother => hclean other (List.mem_cons_of_mem _ hother)
      simp only [List.length_cons] at hfuel
      omega

theorem filter_erased {element : Node → α} {gone rest : List Node}
    (hgone : ∀ other ∈ gone, element other = value) :
    ((front ++ (gone ++ rest)).map element).filter (· ≠ value) =
      ((front ++ rest).map element).filter (· ≠ value) := by
  have hnone : (gone.map element).filter (· ≠ value) = [] := by
    rw [List.filter_eq_nil_iff]
    intro y hy
    obtain ⟨other, hother, rfl⟩ := List.mem_map.1 hy
    simp [hgone other hother]
  simp only [List.map_append, List.filter_append, hnone, List.nil_append]

/-- The outer loop removes the value from the iterator on.  The elements in front of it
are not the value, and are gone through once more where the last element goes. -/
theorem removeLoop (value : α) {fuel : ℕ} :
    ∀ {back front free : List Node} {list : ListStatic α} {contents : List α},
      Represents listSize list (front ++ back) free contents →
      (∀ other ∈ front, list.element other ≠ value) →
      2 * back.length + front.length + 2 ≤ fuel →
      ∃ list' used' free',
        ListStatic.removeLoop listSize value fuel list (back.headD .data) = some list' ∧
          Represents listSize list' used' free' (contents.filter (· ≠ value)) := by
  induction fuel with
  | zero => exact fun _ _ hfuel => absurd hfuel (by omega)
  | succ fuel ih =>
      intro back front free list contents hlist hclean hfuel
      have hkept : ∀ nodes : List Node, (∀ other ∈ nodes, list.element other ≠ value) →
          (nodes.map list.element).filter (· ≠ value) = nodes.map list.element := by
        intro nodes hnodes
        rw [List.filter_eq_self]
        intro y hy
        obtain ⟨other, hother, rfl⟩ := List.mem_map.1 hy
        simpa using hnodes other hother
      cases back with
      | nil =>
          refine ⟨list, front, free, by simp [ListStatic.removeLoop, endNode], ?_⟩
          rw [List.append_nil] at hlist
          rw [← hlist.elements, hkept front hclean, hlist.elements]
          exact hlist
      | cons node back =>
          have hnot : node ≠ endNode := by
            have := hlist.headD_eq_data_iff.not.2 (List.cons_ne_nil node back)
            exact this
          have hroom : back.length < listSize + 1 := by
            have hlength := hlist.length
            rw [← hlist.length_used, List.length_append, List.length_cons] at hlength
            omega
          obtain ⟨list', gone, rest, free', hsplit, hgone, hrest, hremoved, helement, hlist'⟩ :=
            hlist.removeHere value hroom
          have hlengths := congrArg List.length hsplit
          rw [List.length_cons, List.length_append] at hlengths
          have hround : ListStatic.removeLoop listSize value (fuel + 1) list node =
              ListStatic.removeLoop listSize value fuel list'
                (list'.links.next (rest.headD .data)) := by
            rw [ListStatic.removeLoop, if_neg hnot, hremoved]
            rfl
          have hcontents : contents.filter (· ≠ value) =
              ((front ++ rest).map list.element).filter (· ≠ value) := by
            rw [← hlist.elements, hsplit, filter_erased hgone]
          rw [List.headD_cons, hround, hcontents]
          cases rest with
          | nil =>
              -- the iterator goes on from the end to the first element
              have hbegin : list'.links.next .data = front.headD .data := by
                simpa using hlist'.usedRing.next_anchor
              rw [List.append_nil] at hlist' ⊢
              have hfresh : Represents listSize list' ([] ++ front) free' _ := hlist'
              have hloop := removeLoop_clean value hfresh
                (by simp only [List.length_cons] at hfuel; omega : front.length < fuel)
                (by rwa [helement])
              refine ⟨list', front, free', ?_, ?_⟩
              · rw [List.headD_nil, hbegin]
                exact hloop
              · rw [hkept front hclean]
                exact hlist'
          | cons other rest =>
              have hother : list.element other ≠ value := hrest other rfl
              have hnext : list'.links.next other = rest.headD .data :=
                hlist'.usedRing.next_node
              have hmoved : front ++ other :: rest = (front ++ [other]) ++ rest := by simp
              rw [hmoved] at hlist' ⊢
              rw [List.headD_cons, hnext]
              refine ih hlist' ?_ ?_
              · rw [helement]
                intro node hnode
                rcases List.mem_append.1 hnode with hnode | hnode
                · exact hclean node hnode
                · exact List.mem_singleton.1 hnode ▸ hother
              · simp only [List.length_cons, List.length_append, List.length_nil] at hlengths hfuel ⊢
                omega

/-- **`remove`** takes out every element that is the value. -/
theorem remove (hlist : Represents listSize list used free contents) (value : α) :
    ∃ list' used' free', ListStatic.remove listSize list value = some list' ∧
      Represents listSize list' used' free' (contents.filter (· ≠ value)) := by
  have hlength := hlist.length
  rw [← hlist.length_used] at hlength
  have hsplit : Represents listSize list ([] ++ used) free contents := hlist
  unfold ListStatic.remove
  rw [hlist.begin_eq]
  refine hsplit.removeLoop value (by simp) ?_
  simp only [List.length_nil]
  omega

omit [DecidableEq α] in
theorem readFrom (hlist : Represents listSize list (front ++ back) free contents) {fuel : ℕ}
    (hfuel : back.length ≤ fuel) :
    list.readFrom fuel (back.headD .data) = some (back.map list.element) := by
  induction back generalizing front fuel with
  | nil => cases fuel <;> simp [ListStatic.readFrom, endNode]
  | cons node back ih =>
      obtain ⟨fuel, rfl⟩ := Nat.exists_eq_succ_of_ne_zero (Nat.ne_of_gt (Nat.zero_lt_of_lt hfuel))
      have hnot : node ≠ endNode := by
        have := hlist.headD_eq_data_iff.not.2 (List.cons_ne_nil node back)
        exact this
      have hnext : list.links.next node = back.headD .data := hlist.usedRing.next_node
      have hsplit : front ++ node :: back = (front ++ [node]) ++ back := by simp
      rw [hsplit] at hlist
      rw [List.headD_cons, ListStatic.readFrom, if_neg hnot, hnext, ih hlist (by simpa using hfuel)]
      rfl

end Represents

/-! ## A new list -/

section NewList

omit [DecidableEq α]

theorem next_chain (count : ℕ) (node : Node) :
    (chain ⟨id, id⟩ count).next node =
      match node with
      | .nodes i => if i < count then .nodes (i + 1) else .nodes i
      | other => other := by
  induction count with
  | zero => cases node <;> simp [chain]
  | succ count ih =>
      have hstep : chain ⟨id, id⟩ (count + 1) =
          ((chain ⟨id, id⟩ count).setNext (.nodes count) (.nodes (count + 1))).setPrev
            (.nodes (count + 1)) (.nodes count) := by
        simp [chain, List.range_succ]
      rw [hstep]
      by_cases hnode : node = .nodes count
      · subst hnode
        simp [Links.setNext, Links.setPrev]
      · simp only [Links.setPrev, Links.setNext, Function.update_of_ne hnode, ih]
        cases node with
        | data => rfl
        | emptyNodes => rfl
        | nodes i =>
            have hne : i ≠ count := fun heq => hnode (heq ▸ rfl)
            have hiff : i < count ↔ i < count + 1 := by omega
            simp only [hiff]

theorem prev_chain (count : ℕ) (node : Node) :
    (chain ⟨id, id⟩ count).prev node =
      match node with
      | .nodes (i + 1) => if i < count then .nodes i else .nodes (i + 1)
      | other => other := by
  induction count with
  | zero => cases node with
    | nodes i => cases i <;> simp [chain]
    | _ => simp [chain]
  | succ count ih =>
      have hstep : chain ⟨id, id⟩ (count + 1) =
          ((chain ⟨id, id⟩ count).setNext (.nodes count) (.nodes (count + 1))).setPrev
            (.nodes (count + 1)) (.nodes count) := by
        simp [chain, List.range_succ]
      rw [hstep]
      by_cases hnode : node = .nodes (count + 1)
      · subst hnode
        simp [Links.setNext, Links.setPrev]
      · simp only [Links.setPrev, Links.setNext, Function.update_of_ne hnode, ih]
        cases node with
        | data => rfl
        | emptyNodes => rfl
        | nodes i =>
            cases i with
            | zero => rfl
            | succ i =>
                have hne : i ≠ count := fun heq => hnode (heq ▸ rfl)
                have hiff : i < count ↔ i < count + 1 := by omega
                simp only [hiff]

/-- The nodes that `init` closes to a ring. -/
private def closedChain (last : ℕ) : Links Node :=
  ((chain ⟨id, id⟩ last).setNext (.nodes last) (.nodes 0)).setPrev (.nodes 0) (.nodes last)

private theorem closedChain_ring (last : ℕ) :
    (closedChain last).Ring (.nodes 0) ((List.range last).map fun i => .nodes (i + 1)) := by
  have hall : Node.nodes 0 :: (List.range last).map (fun i => .nodes (i + 1)) =
      (List.range (last + 1)).map Node.nodes := by
    rw [List.range_succ_eq_map, List.map_cons, List.map_map]
    rfl
  have hstep : ∀ i < last, (closedChain last).next (.nodes i) = .nodes (i + 1) ∧
      (closedChain last).prev (.nodes (i + 1)) = .nodes i := by
    intro i hi
    have hne : Node.nodes i ≠ .nodes last := by
      simp only [ne_eq, Node.nodes.injEq]
      omega
    simp [closedChain, Links.setNext, Links.setPrev, Function.update_of_ne hne, next_chain,
      prev_chain, hi]
  have hchain : ∀ k ≤ last, (closedChain last).Linked ((List.range (k + 1)).map Node.nodes) := by
    intro k
    induction k with
    | zero => exact fun _ => .singleton _
    | succ k ih =>
        intro hk
        rw [List.range_succ, List.map_append, List.map_cons, List.map_nil]
        refine List.isChain_append.2 ⟨ih (by omega), .singleton _, fun x hx y hy => ?_⟩
        obtain rfl : Node.nodes k = x := by simpa [List.range_succ] using hx
        obtain rfl : Node.nodes (k + 1) = y := by simpa using hy
        exact hstep k hk
  constructor
  · rw [hall]
    refine List.isChain_append.2 ⟨hchain last (le_refl _), .singleton _, fun x hx y hy => ?_⟩
    obtain rfl : Node.nodes last = x := by simpa [List.range_succ] using hx
    obtain rfl : Node.nodes 0 = y := by simpa using hy
    simp [closedChain, Links.setNext, Links.setPrev]
  · rw [hall]
    exact List.nodup_range.map fun _ _ heq => Node.nodes.inj heq

/-- **A new list** is empty, and all its nodes are free. -/
theorem represents_init [Inhabited α] (ListSize : ℤ) :
    Represents (LIST_SIZE ListSize) (init ListSize : ListStatic α) []
      ((List.range (LIST_SIZE ListSize)).map Node.nodes) [] := by
  obtain ⟨last, hlast⟩ : ∃ last, LIST_SIZE ListSize = last + 1 :=
    Nat.exists_eq_succ_of_ne_zero (Nat.ne_of_gt (LIST_SIZE_pos ListSize))
  have hlinks : (init ListSize : ListStatic α).links =
      (closedChain last).hook .emptyNodes (.nodes 0) := by
    rw [init, hlast, Nat.add_sub_cancel]
    rfl
  have hring : (closedChain last).Ring (.nodes 0)
      ((List.range last).map (fun i => .nodes (i + 1)) ++ []) := by
    rw [List.append_nil]
    exact closedChain_ring last
  have hout : Node.emptyNodes ∉
      .nodes 0 :: ((List.range last).map (fun i => Node.nodes (i + 1)) ++ []) := by
    simp
  have hdata : (closedChain last).Ring .data [] := by
    refine Links.Ring.of_self ?_ ?_
    · simp [closedChain, Links.setNext, Links.setPrev, next_chain]
    · simp [closedChain, Links.setNext, Links.setPrev, prev_chain]
  have hall : Node.nodes 0 :: (List.range last).map (fun i => .nodes (i + 1)) =
      (List.range (last + 1)).map Node.nodes := by
    rw [List.range_succ_eq_map, List.map_cons, List.map_map]
    rfl
  refine ⟨?_, ?_, by simp, rfl⟩
  · rw [hlinks]
    exact hring.hook_other hdata (by simp [List.Disjoint]) (by simp) (by simp)
  · have hfree := (hring.hook hout).rotate
    rw [List.nil_append, hall] at hfree
    rw [hlinks, hlast]
    exact hfree

end NewList

/-! ## Runs -/

inductive Op (α : Type*) where
  | pushFront (x : α)
  | pushBack (x : α)
  | popFront
  | popBack
  | insert (position : ℕ) (x : α)
  | erase (position : ℕ)
  | remove (value : α)
  | clear

/-- Whether an operation is an insertion. -/
def Op.inserts : Op α → Bool
  | .pushFront _ | .pushBack _ | .insert _ _ => true
  | _ => false

/-- What an operation does to a list of at most `listSize` elements.  An iterator is
given by its place; what lies behind the end is no position to insert at, nor the end
one to erase from unless the list is empty. -/
def Op.apply (listSize : ℕ) (contents : List α) : Op α → Option (List α)
  | .pushFront x => some (if contents.length < listSize then x :: contents else contents)
  | .pushBack x => some (if contents.length < listSize then contents ++ [x] else contents)
  | .popFront => some contents.tail
  | .popBack => some contents.dropLast
  | .insert k x =>
      if k ≤ contents.length then
        some (if contents.length < listSize then contents.take k ++ x :: contents.drop k
          else contents)
      else none
  | .erase k => if k < contents.length ∨ contents = [] then some (contents.eraseIdx k) else none
  | .remove value => some (contents.filter (· ≠ value))
  | .clear => some []

/-- Performs an operation.  The flag is what an insertion returns. -/
def perform (listSize : ℕ) (list : ListStatic α) :
    Op α → Option (ListStatic α × Bool)
  | .pushFront x => some (list.pushFront x)
  | .pushBack x => some (list.pushBack x)
  | .popFront => some (list.popFront, true)
  | .popBack => some (list.popBack, true)
  | .insert k x => some (list.insert (list.iteratorAt k) x)
  | .erase k => some (list.erase (list.iteratorAt k), true)
  | .remove value => (list.remove listSize value).map fun list => (list, true)
  | .clear => some (list.clear, true)

variable {listSize : ℕ} {list : ListStatic α} {used front back free : List Node}
  {contents : List α} {x : α}

omit [DecidableEq α] in
theorem Represents.insert_place (hlist : Represents listSize list used free contents) {k : ℕ}
    (hk : k ≤ contents.length) (x : α) :
    ((list.insert ((used.drop k).headD .data) x).2 = false ↔ contents.length = listSize) ∧
      ∃ used' free', Represents listSize (list.insert ((used.drop k).headD .data) x).1 used' free'
        (if contents.length < listSize then contents.take k ++ x :: contents.drop k
          else contents) := by
  have hlength := hlist.length
  cases free with
  | nil =>
      rw [List.length_nil] at hlength
      have hfull : list.insert ((used.drop k).headD .data) x = (list, false) := by
        rw [ListStatic.insert, hlist.createNode_full]
      rw [hfull, if_neg (by omega)]
      exact ⟨⟨fun _ => by omega, fun _ => rfl⟩, used, [], hlist⟩
  | cons node free =>
      rw [List.length_cons] at hlength
      have hplace : (used.take k).length = k := by
        rw [List.length_take, hlist.length_used]
        omega
      have hsplit : Represents listSize list (used.take k ++ used.drop k) (node :: free)
          contents := by
        rwa [List.take_append_drop]
      obtain ⟨htrue, hinserted⟩ := hsplit.insert (x := x)
      rw [hplace] at hinserted
      rw [htrue, if_pos (by omega)]
      exact ⟨⟨fun heq => absurd heq (by simp), fun heq => absurd heq (by omega)⟩, _, _, hinserted⟩

omit [DecidableEq α] in
theorem Represents.erase_place (hlist : Represents listSize list used free contents) {k : ℕ}
    (hk : k < contents.length) :
    ∃ used' free', Represents listSize (list.erase ((used.drop k).headD .data)) used' free'
      (contents.eraseIdx k) := by
  have hlt : k < used.length := hlist.length_used ▸ hk
  have hplace : (used.take k).length = k := by
    rw [List.length_take]
    omega
  have hsplit : Represents listSize list (used.take k ++ used[k] :: used.drop (k + 1)) free
      contents := by
    rwa [List.getElem_cons_drop, List.take_append_drop]
  have herased := hsplit.erase
  rw [hplace] at herased
  rw [List.drop_eq_getElem_cons hlt, List.headD_cons]
  exact ⟨_, _, herased⟩

omit [DecidableEq α] in
theorem Represents.erase_empty (hlist : Represents listSize list used free []) (node : Node) :
    list.erase node = list := by
  have hnil : used = [] := List.map_eq_nil_iff.1 hlist.elements
  rw [ListStatic.erase, if_pos (hlist.empty_iff.2 hnil)]

/-- **One operation** does to the rings what it does to the list, and only an insertion
into a full list is refused. -/
theorem Represents.perform (hlist : Represents listSize list used free contents)
    {op : Op α} {contents' : List α} (hop : Op.apply listSize contents op = some contents') :
    ∃ list' flag, ListStatic.perform listSize list op = some (list', flag) ∧
      (flag = false ↔ op.inserts = true ∧ contents.length = listSize) ∧
        ∃ used' free', Represents listSize list' used' free' contents' := by
  have hbegin := hlist.begin_eq
  cases op with
  | pushFront x =>
      obtain rfl := Option.some.inj hop
      have hcall : list.pushFront x = list.insert ((used.drop 0).headD .data) x := by
        rw [List.drop_zero, ← hbegin]
        rfl
      obtain ⟨hflag, hlist'⟩ := hlist.insert_place (Nat.zero_le _) x
      rw [← hcall] at hflag hlist'
      exact ⟨(list.pushFront x).1, (list.pushFront x).2, rfl, by simpa [Op.inserts] using hflag,
        by simpa using hlist'⟩
  | pushBack x =>
      obtain rfl := Option.some.inj hop
      have hcall : list.pushBack x =
          list.insert ((used.drop contents.length).headD .data) x := by
        rw [← hlist.length_used, List.drop_length]
        rfl
      obtain ⟨hflag, hlist'⟩ := hlist.insert_place (le_refl _) x
      rw [← hcall] at hflag hlist'
      exact ⟨(list.pushBack x).1, (list.pushBack x).2, rfl, by simpa [Op.inserts] using hflag,
        by simpa using hlist'⟩
  | popFront =>
      obtain rfl := Option.some.inj hop
      have hcall : list.popFront = list.erase ((used.drop 0).headD .data) := by
        rw [popFront, hbegin, List.drop_zero]
      refine ⟨_, true, rfl, by simp [Op.inserts], ?_⟩
      rw [hcall]
      cases contents with
      | nil =>
          rw [hlist.erase_empty]
          exact ⟨used, free, hlist⟩
      | cons head tail =>
          have hplace : 0 < (head :: tail).length := Nat.succ_pos _
          exact hlist.erase_place hplace
  | popBack =>
      obtain rfl := Option.some.inj hop
      refine ⟨_, true, rfl, by simp [Op.inserts], ?_⟩
      rw [popBack]
      rcases List.eq_nil_or_concat' used with rfl | ⟨front, last, rfl⟩
      · obtain rfl : [] = contents := hlist.elements
        rw [hlist.erase_empty]
        exact ⟨[], free, hlist⟩
      · have hprev : list.links.prev endNode = last := by
          simpa [endNode] using hlist.usedRing.prev_anchor
        have herased := hlist.erase
        rw [List.append_nil] at herased
        have hdrop : contents.eraseIdx front.length = contents.dropLast := by
          have hlength := hlist.length_used
          rw [List.length_append, List.length_singleton] at hlength
          rw [List.eraseIdx_eq_take_drop_succ, hlength, List.drop_length, List.append_nil,
            List.dropLast_eq_take, ← hlength, Nat.add_sub_cancel]
        rw [hprev, ← hdrop]
        exact ⟨_, _, herased⟩
  | insert k x =>
      simp only [Op.apply] at hop
      split at hop
      · rename_i hk
        obtain rfl := Option.some.inj hop
        have hcall : list.insert (list.iteratorAt k) x =
            list.insert ((used.drop k).headD .data) x := by rw [hlist.iteratorAt_eq hk]
        obtain ⟨hflag, hlist'⟩ := hlist.insert_place hk x
        rw [← hcall] at hflag hlist'
        exact ⟨(list.insert (list.iteratorAt k) x).1, (list.insert (list.iteratorAt k) x).2, rfl,
          by simpa [Op.inserts] using hflag, hlist'⟩
      · simp at hop
  | erase k =>
      simp only [Op.apply] at hop
      split at hop
      · rename_i hk
        obtain rfl := Option.some.inj hop
        refine ⟨_, true, rfl, by simp [Op.inserts], ?_⟩
        rcases hk with hk | rfl
        · rw [hlist.iteratorAt_eq hk.le]
          exact hlist.erase_place hk
        · rw [hlist.erase_empty]
          exact ⟨used, free, by simpa using hlist⟩
      · simp at hop
  | remove value =>
      obtain rfl := Option.some.inj hop
      obtain ⟨list', used', free', hremoved, hlist'⟩ := hlist.remove value
      exact ⟨list', true, by simp [ListStatic.perform, hremoved], by simp [Op.inserts],
        used', free', hlist'⟩
  | clear =>
      obtain rfl := Option.some.inj hop
      exact ⟨_, _, rfl, by simp [Op.inserts], _, _, hlist.clear⟩

/-- Performs the operations in order. -/
def run (listSize : ℕ) (list : ListStatic α) (operations : List (Op α)) :
    Option (ListStatic α) :=
  operations.foldlM (fun list op => (list.perform listSize op).map Prod.fst) list

theorem Represents.run {operations : List (Op α)} {contents' : List α}
    (hlist : Represents listSize list used free contents)
    (hoperations : operations.foldlM (Op.apply listSize) contents = some contents') :
    ∃ list' used' free', list.run listSize operations = some list' ∧
      Represents listSize list' used' free' contents' := by
  induction operations generalizing list used free contents with
  | nil =>
      obtain rfl : contents = contents' := by simpa using hoperations
      exact ⟨list, used, free, rfl, hlist⟩
  | cons op rest ih =>
      rw [List.foldlM_cons] at hoperations
      obtain ⟨middle, hop, hrest⟩ := Option.bind_eq_some_iff.1 hoperations
      obtain ⟨next, flag, hperform, -, used', free', hnext⟩ := hlist.perform hop
      obtain ⟨last, used'', free'', hrun, hlast⟩ := ih hnext hrest
      refine ⟨last, used'', free'', ?_, hlast⟩
      rw [ListStatic.run, List.foldlM_cons, hperform]
      exact hrun

/-- **The list is what the operations make of it.**  After any operations the used and
the free nodes are two rings with all nodes between them, going from the begin to the
end reads the list that the same operations give, and the next insertion is refused
exactly if that list has `LIST_SIZE` elements. -/
theorem represents_of_operations [Inhabited α] (ListSize : ℤ)
    (operations : List (Op α)) (contents : List α)
    (hoperations : operations.foldlM (Op.apply (LIST_SIZE ListSize)) [] = some contents) :
    ∃ list, (init ListSize).run (LIST_SIZE ListSize) operations = some list ∧
      (∃ used free, Represents (LIST_SIZE ListSize) list used free contents) ∧
      list.readFrom (LIST_SIZE ListSize) list.begin = some contents ∧
      ∀ op contents', Op.apply (LIST_SIZE ListSize) contents op = some contents' →
        ∃ list' flag, list.perform (LIST_SIZE ListSize) op = some (list', flag) ∧
          (flag = false ↔ op.inserts = true ∧ contents.length = LIST_SIZE ListSize) := by
  obtain ⟨list, used, free, hrun, hlist⟩ := (represents_init ListSize).run hoperations
  refine ⟨list, hrun, ⟨used, free, hlist⟩, ?_, fun op contents' hop => ?_⟩
  · have hsplit : Represents (LIST_SIZE ListSize) list ([] ++ used) free contents := hlist
    have hlength := hlist.length
    rw [hlist.begin_eq, hsplit.readFrom (by rw [hlist.length_used]; omega), hlist.elements]
  · obtain ⟨list', flag, hperform, hflag, -⟩ := hlist.perform hop
    exact ⟨list', flag, hperform, hflag⟩

/-- A list of three that is filled, refuses an element, and loses its last two elements
to a `remove`. -/
theorem represents_of_operations_refused :
    ∃ list, (init 3 : ListStatic ℕ).run (LIST_SIZE 3)
        [.pushBack 7, .pushFront 5, .insert 2 7, .pushBack 8, .remove 7] = some list ∧
      (∃ used free, Represents (LIST_SIZE 3) list used free [5]) ∧
      list.readFrom (LIST_SIZE 3) list.begin = some [5] ∧
      ∀ op contents', Op.apply (LIST_SIZE 3) [5] op = some contents' →
        ∃ list' flag, list.perform (LIST_SIZE 3) op = some (list', flag) ∧
          (flag = false ↔ op.inserts = true ∧ [5].length = LIST_SIZE 3) :=
  represents_of_operations 3 [.pushBack 7, .pushFront 5, .insert 2 7, .pushBack 8, .remove 7]
    [5] (by decide)

end ListStatic

end Wiselib
