import Wiselib.Pstl.ListStatic

/-!
# Ranges of static lists

The calls of `list_static` that step an iterator while the nodes move: `reverse`,
`erase` of a range and `insert` of a range.  A loop has fuel; that a call returns is
that some fuel is enough.

## Strategy

* `reverse` turns every node around and goes on by the link that was `next` before.  It
  stops at the first node of the list, which is the last one by the time it comes back,
  so that it goes around a second time (`reverse_around`).
* `erase` of a range goes on from a node that it has already put among the free ones:
  to the first free node, which it moves to the front, and from that back to the erased
  one (`eraseRange_spec`).  Without a free node it does not get away from
  `empty_nodes_` (`eraseLoop_none`).
* `insert` of a range moves its position on after each element, over the one that it
  stood at (`insertRange_spec`).  What becomes of the places is `spread` of numbers, as
  spreading does not look at the elements (`spread_map`).
-/

namespace Wiselib

namespace ListStatic

variable {α : Type*}

/-! ## The code -/

/-- The loop of `reverse`, which goes on with the link that was `next` before. -/
def reverseLoop : ℕ → ListStatic α → Node → Option (ListStatic α)
  | 0, _, _ => none
  | fuel + 1, list, it =>
      let turned := { list with links := list.links.flip it }
      let it := turned.links.prev it
      if it = turned.begin then some turned else reverseLoop fuel turned it

/-- `reverse`. -/
def reverse (fuel : ℕ) (list : ListStatic α) : Option (ListStatic α) :=
  reverseLoop fuel list list.begin

/-- The loop of `erase` of a range. -/
def eraseLoop (first last : Node) : ℕ → ListStatic α → Node → Option (ListStatic α)
  | 0, _, _ => none
  | fuel + 1, list, it =>
      if it = last then some list
      else
        let erased := list.erase it
        let it := erased.links.next it
        if it = first then some erased else eraseLoop first last fuel erased it

/-- `erase` of the nodes from `first` up to `last`. -/
def eraseRange (fuel : ℕ) (list : ListStatic α) (first last : Node) : Option (ListStatic α) :=
  eraseLoop first last fuel list first

/-- `insert` of a range that does not come back to its first element. -/
def insertRange : ListStatic α → Node → List α → ListStatic α × Bool
  | list, _, [] => (list, true)
  | list, position, x :: range =>
      match list.insert position x with
      | (list, false) => (list, false)
      | (list, true) => insertRange list (list.links.next position) range

variable {listSize : ℕ} {list : ListStatic α} {used free : List Node} {contents : List α}

/-- What a call should do: return, and leave the list `contents`. -/
def Returns (listSize : ℕ) (run : ℕ → Option (ListStatic α)) (contents : List α) : Prop :=
  ∃ fuel list used free, run fuel = some list ∧ Represents listSize list used free contents

theorem Represents.contents_unique {used' free' : List Node} {contents' : List α}
    (hlist : Represents listSize list used free contents)
    (hlist' : Represents listSize list used' free' contents') : contents = contents' := by
  have hread : ∀ {nodes rest : List Node} {values : List α},
      Represents listSize list nodes rest values →
        list.readFrom listSize list.begin = some values := by
    intro nodes rest values hvalues
    have hsplit : Represents listSize list ([] ++ nodes) rest values := hvalues
    have hlength := hvalues.length
    rw [hvalues.begin_eq, hsplit.readFrom (by rw [hvalues.length_used]; omega), hvalues.elements]
  exact Option.some.inj ((hread hlist).symm.trans (hread hlist'))

/-! ## `reverse` -/

section Reverse

theorem reverseLoop_mono {fuel fuel' : ℕ} {result : ListStatic α} {it : Node}
    (hle : fuel ≤ fuel') (hrun : reverseLoop fuel list it = some result) :
    reverseLoop fuel' list it = some result := by
  induction fuel generalizing fuel' list it with
  | zero => cases hrun
  | succ fuel ih =>
      obtain ⟨fuel', rfl⟩ := Nat.exists_eq_succ_of_ne_zero (Nat.ne_of_gt (Nat.zero_lt_of_lt hle))
      rw [reverseLoop] at hrun ⊢
      dsimp only at hrun ⊢
      split at hrun
      · rename_i hend
        rw [if_pos hend, hrun]
      · rename_i hend
        rw [if_neg hend]
        exact ih (Nat.le_of_succ_le_succ hle) hrun

/-- The loop at its test. -/
def reverseFrom (fuel : ℕ) (list : ListStatic α) (it : Node) : Option (ListStatic α) :=
  if it = list.begin then some list else reverseLoop fuel list it

theorem reverseLoop_succ (fuel : ℕ) (list : ListStatic α) (it : Node) :
    reverseLoop (fuel + 1) list it =
      reverseFrom fuel { list with links := list.links.flip it } (list.links.next it) := by
  rw [reverseLoop]
  dsimp only
  rw [Links.prev_flip_self]
  rfl

theorem reverseFrom_path (path : List Node) (last : Node) (fuel : ℕ) (hnodup : path.Nodup)
    (hdata : .data ∉ path) (hbegin : list.begin ∉ path)
    (hpath : ∀ front node back, path = front ++ node :: back →
      list.links.next node = back.headD last) :
    reverseFrom (path.length + fuel) list (path.headD last) =
      reverseFrom fuel { list with links := list.links.turned path } last := by
  induction path generalizing list with
  | nil =>
      rw [Links.turned_nil, List.length_nil, Nat.zero_add]
      rfl
  | cons node path ih =>
      obtain ⟨hnode, hnodup⟩ := List.nodup_cons.1 hnodup
      rw [List.mem_cons, not_or] at hdata hbegin
      have hbegin' : begin { list with links := list.links.flip node } = list.begin :=
        Links.next_flip_of_ne hdata.1
      have hrest := @ih { list with links := list.links.flip node } hnodup hdata.2
        (hbegin'.symm ▸ hbegin.2) (fun front other back hsplit => by
          have hne : other ≠ node := by
            rintro rfl
            exact hnode (by simp [hsplit])
          rw [Links.next_flip_of_ne hne]
          exact hpath (node :: front) other back (by rw [hsplit]; rfl))
      rw [List.headD_cons, reverseFrom, if_neg (Ne.symm hbegin.1), List.length_cons,
        Nat.add_right_comm, reverseLoop_succ, hpath [] node path rfl, hrest,
        Links.turned_flip hnode]

/-- The walk over a list of two elements or more: to the end, where the first node still
follows, and from there back to it, every node being turned around a second time. -/
theorem reverse_around {links : Links Node} {element : Node → α} {first : Node}
    {rest : List Node} (hring : links.Ring .data (first :: rest)) (hne : rest ≠ []) :
    reverse (rest.length + (rest.reverse.length + 0 + 1 + 1 + 1) + 1) ⟨links, element⟩ =
      some ⟨links, element⟩ := by
  have hfront : links.Ring .data ([] ++ first :: rest) := hring
  have hdataNext : links.next .data = first := hring.next_anchor
  have hdataPrev : links.prev .data = rest.getLastD first :=
    hring.prev_anchor.trans List.getLastD_cons
  have hnext : links.next first = rest.headD .data := hfront.next_node
  have hprev : links.prev first = .data := hfront.prev_node
  have hnodup := hring.nodup
  simp only [List.nodup_cons, List.mem_cons, not_or] at hnodup
  obtain ⟨⟨hdata, hdataRest⟩, hfirst, hnodup⟩ := hnodup
  have hlast : rest.getLastD first ∈ rest := by
    rw [List.getLastD_eq_getLast?, List.getLast?_eq_some_getLast hne]
    exact List.getLast_mem hne
  have hlastData : rest.getLastD first ≠ .data := fun heq => hdataRest (heq ▸ hlast)
  have hlastFirst : rest.getLastD first ≠ first := fun heq => hfirst (heq ▸ hlast)
  -- what `begin` is while some of the nodes are turned around
  have hbegin : ∀ nodes, begin ⟨links.turned nodes, element⟩ =
      if Node.data ∈ nodes then rest.getLastD first else first := by
    intro nodes
    rw [← hdataPrev, ← hdataNext]
    rfl
  have hstart : ∀ fuel, reverse (fuel + 1) ⟨links, element⟩ =
      reverseFrom fuel ⟨links.flip first, element⟩ (rest.headD .data) := by
    intro fuel
    have hbegin' : begin ⟨links, element⟩ = first := hdataNext
    rw [reverse, hbegin', reverseLoop_succ, hnext]
  have hforward : ∀ fuel, reverseFrom (rest.length + (fuel + 1))
      ⟨links.flip first, element⟩ (rest.headD .data) =
        reverseFrom fuel ⟨links.turned (.data :: first :: rest), element⟩ first := by
    intro fuel
    have hbegin' : begin ⟨links.flip first, element⟩ = first :=
      (Links.next_flip_of_ne hdata).trans hdataNext
    rw [reverseFrom_path rest .data _ hnodup hdataRest (hbegin'.symm ▸ hfirst)]
    · have hnot : Node.data ∉ first :: rest := by simp [hdata, hdataRest]
      have hit : (links.turned (first :: rest)).next .data = first := by
        simp [Links.turned, hdata, hdataRest, hdataNext]
      rw [Links.turned_flip hfirst, reverseFrom, hbegin, if_neg hnot, if_neg hdata,
        reverseLoop_succ, hit, @Links.flip_turned _ _ links .data _ (.data :: first :: rest)
          (by simp [hdata, hdataRest]) (fun other hother => by simp [hother])]
    · intro front node back hsplit
      have hnode : node ≠ first := by
        rintro rfl
        exact hfirst (by simp [hsplit])
      rw [hsplit, ← List.cons_append] at hring
      exact (Links.next_flip_of_ne hnode).trans hring.next_node
  have hturn : ∀ fuel, reverseFrom (fuel + 1 + 1)
      ⟨links.turned (.data :: first :: rest), element⟩ first =
        reverseFrom fuel ⟨links.turned rest, element⟩ (rest.getLastD first) := by
    intro fuel
    have hback : (links.turned (.data :: first :: rest)).next first = .data := by
      simp [Links.turned, hprev]
    have hit : (links.turned (.data :: rest)).next .data = rest.getLastD first := by
      simp [Links.turned, hdataPrev]
    rw [reverseFrom, hbegin, if_pos List.mem_cons_self, if_neg hlastFirst.symm, reverseLoop_succ,
      hback, @Links.flip_turned _ _ links first _ (.data :: rest) (by simp [hfirst, Ne.symm hdata])
        (fun other hother => by simp [hother]),
      reverseFrom, hbegin, if_pos List.mem_cons_self, if_neg hlastData.symm, reverseLoop_succ, hit,
      @Links.flip_turned _ _ links .data _ rest (by simp [hdataRest])
        (fun other hother => by simp [hother])]
  have hbackward : reverseFrom (rest.reverse.length + 0) ⟨links.turned rest, element⟩
      (rest.getLastD first) = some ⟨links, element⟩ := by
    have hhead : rest.getLastD first = rest.reverse.headD first := by
      rw [List.headD_eq_head?_getD, List.head?_reverse, List.getLastD_eq_getLast?]
    have hbegin' := hbegin rest
    rw [if_neg hdataRest] at hbegin'
    rw [hhead, reverseFrom_path rest.reverse first _ (List.nodup_reverse.2 hnodup)
      (by rwa [List.mem_reverse]) (by rwa [hbegin', List.mem_reverse]),
      Links.turned_turned (fun node => List.mem_reverse.symm), reverseFrom]
    · exact if_pos hdataNext.symm
    · intro front node back hsplit
      have hnode : node ∈ rest := by
        rw [← List.mem_reverse, hsplit]
        simp
      have hrest : rest = back.reverse ++ node :: front.reverse := by
        rw [← List.reverse_reverse rest, hsplit]
        simp
      rw [hrest, ← List.cons_append] at hring
      have hprevious : links.prev node = (first :: back.reverse).getLastD .data := hring.prev_node
      rw [List.getLastD_cons, List.getLastD_eq_getLast?, List.getLast?_reverse,
        ← List.headD_eq_head?_getD] at hprevious
      simpa [Links.turned, hnode] using hprevious
  calc reverse (rest.length + (rest.reverse.length + 0 + 1 + 1 + 1) + 1) ⟨links, element⟩
      = reverseFrom (rest.length + (rest.reverse.length + 0 + 1 + 1 + 1))
          ⟨links.flip first, element⟩ (rest.headD .data) := hstart _
    _ = reverseFrom (rest.reverse.length + 0 + 1 + 1)
          ⟨links.turned (.data :: first :: rest), element⟩ first := hforward _
    _ = reverseFrom (rest.reverse.length + 0) ⟨links.turned rest, element⟩
          (rest.getLastD first) := hturn _
    _ = some ⟨links, element⟩ := hbackward

/-- **`reverse`** leaves the list as it was. -/
theorem reverse_unchanged (hlist : Represents listSize list used free contents) :
    ∃ fuel, reverse fuel list = some list := by
  have hring := hlist.usedRing
  have hbegin := hlist.begin_eq
  obtain ⟨links, element⟩ := list
  dsimp only at hring
  match used with
  | [] =>
      have hnext : links.next .data = .data := hring.next_anchor
      have hprev : links.prev .data = .data := hring.prev_anchor
      refine ⟨1, ?_⟩
      rw [reverse, hbegin, List.headD_nil, reverseLoop_succ,
        Links.flip_of_same (hnext.trans hprev.symm), hnext, reverseFrom, hbegin, List.headD_nil,
        if_pos rfl]
  | [first] =>
      have hfront : links.Ring .data ([] ++ first :: []) := hring
      have hdataNext : links.next .data = first := hring.next_anchor
      have hdataPrev : links.prev .data = first := hring.prev_anchor
      have hnext : links.next first = .data := hfront.next_node
      have hprev : links.prev first = .data := hfront.prev_node
      have hdata : Node.data ≠ first := by simpa using hring.nodup
      refine ⟨2, ?_⟩
      rw [reverse, hbegin, List.headD_cons, reverseLoop_succ,
        Links.flip_of_same (hnext.trans hprev.symm), hnext, reverseFrom, hbegin, List.headD_cons,
        if_neg hdata, reverseLoop_succ, Links.flip_of_same (hdataNext.trans hdataPrev.symm),
        hdataNext, reverseFrom, hbegin, List.headD_cons, if_pos rfl]
  | first :: second :: rest =>
      exact ⟨_, reverse_around hring (List.cons_ne_nil second rest)⟩

end Reverse

/-! ## `erase` of a range -/

section Erase

variable {front back rest : List Node} {node first last : Node}

theorem eraseLoop_mono {fuel fuel' : ℕ} {result : ListStatic α} {it : Node}
    (hle : fuel ≤ fuel') (hrun : eraseLoop first last fuel list it = some result) :
    eraseLoop first last fuel' list it = some result := by
  induction fuel generalizing fuel' list it with
  | zero => cases hrun
  | succ fuel ih =>
      obtain ⟨fuel', rfl⟩ := Nat.exists_eq_succ_of_ne_zero (Nat.ne_of_gt (Nat.zero_lt_of_lt hle))
      rw [eraseLoop] at hrun ⊢
      dsimp only at hrun ⊢
      split at hrun
      · rename_i hend
        rw [if_pos hend, hrun]
      · rename_i hend
        rw [if_neg hend]
        split at hrun
        · rename_i hback
          rw [if_pos hback, hrun]
        · rename_i hback
          rw [if_neg hback]
          exact ih (Nat.le_of_succ_le_succ hle) hrun

theorem eraseLoop_succ {fuel : ℕ} {it next : Node} (hlast : it ≠ last)
    (hnext : (list.erase it).links.next it = next) :
    eraseLoop first last (fuel + 1) list it =
      if next = first then some (list.erase it)
      else eraseLoop first last fuel (list.erase it) next := by
  rw [eraseLoop, if_neg hlast, ← hnext]

theorem Represents.erase_free (hlist : Represents listSize list used (front ++ node :: back) contents)
    (hne : used ≠ []) :
    Represents listSize (list.erase node) used (node :: (front ++ back)) contents := by
  have hempty : list.empty ≠ true := by
    rw [Ne, hlist.empty_iff]
    exact hne
  have hunhooked : (list.links.unhook node).Ring .emptyNodes ([] ++ (front ++ back)) :=
    hlist.freeRing.unhook
  have hkept := hlist.freeRing.unhook_other hlist.usedRing hlist.disjoint.symm
  have hput : list.erase node = { list with
      links := (list.links.unhook node).hook node ((front ++ back).headD .emptyNodes) } := by
    rw [ListStatic.erase, if_neg hempty, putNode]
    congr 2
    exact hunhooked.next_anchor
  have hout : node ∉ .emptyNodes :: (front ++ back) := by
    have hnodup := (Links.Ring.perm_middle Node.emptyNodes front back).nodup_iff.1
      hlist.freeRing.nodup
    exact (List.nodup_cons.1 hnodup).1
  have hsub : .emptyNodes :: (front ++ back) ⊆ .emptyNodes :: (front ++ node :: back) := by
    intro other hother
    simp only [List.mem_cons, List.mem_append] at hother ⊢
    tauto
  rw [hput]
  refine ⟨?_, hunhooked.hook hout, ?_, hlist.elements⟩
  · refine hunhooked.hook_other hkept ?_ ?_ ?_
    · exact fun other hother hused => hlist.disjoint hused (hsub hother)
    · exact fun hmem => hlist.disjoint hmem (by simp)
    · exact fun heq => hout (heq ▸ Links.Ring.headD_mem Node.emptyNodes [] (front ++ back))
  · exact (List.Perm.append_left used List.perm_middle.symm).trans hlist.nodes

theorem eraseLoop_empty (hlist : Represents listSize list [] (first :: (front ++ rest)) contents)
    (hlast : last ∉ .emptyNodes :: (first :: (front ++ rest))) :
    eraseLoop first last (rest.length + 1) list (rest.headD .emptyNodes) = some list := by
  have hnone : ∀ it, list.erase it = list := by
    intro it
    rw [ListStatic.erase, if_pos (hlist.empty_iff.2 rfl)]
  have hfirst : first ≠ .emptyNodes := fun heq => (List.nodup_cons.1 hlist.freeRing.nodup).1
    (heq ▸ List.mem_cons_self)
  induction rest generalizing front with
  | nil =>
      have hback : (list.erase .emptyNodes).links.next .emptyNodes = first := by
        rw [hnone]
        exact hlist.freeRing.next_anchor
      have hend : Node.emptyNodes ≠ last := fun heq => hlast (heq ▸ List.mem_cons_self)
      rw [List.headD_nil, List.length_nil, eraseLoop_succ hend hback, if_pos rfl, hnone]
  | cons node rest ih =>
      have hfree : list.links.Ring .emptyNodes ((first :: front) ++ node :: rest) := hlist.freeRing
      have hnext : (list.erase node).links.next node = rest.headD .emptyNodes := by
        rw [hnone]
        exact hfree.next_node
      have hgo : rest.headD .emptyNodes ≠ first := by
        cases rest with
        | nil => exact hfirst.symm
        | cons other rest =>
            rintro rfl
            have hnodup := (List.nodup_cons.1 hlist.freeRing.nodup).2
            exact (List.nodup_cons.1 hnodup).1 (by simp)
      have hend : node ≠ last := by
        rintro rfl
        exact hlast (by simp)
      have hmove : front ++ node :: rest = (front ++ [node]) ++ rest := by simp
      rw [hmove] at hlist hlast
      rw [List.headD_cons, List.length_cons, eraseLoop_succ hend hnext, if_neg hgo, hnone]
      exact ih hlist hlast

/-- Without a free node the loop stays at `empty_nodes_`, if that is linked to itself. -/
theorem eraseLoop_stuck (hempty : list.empty = false)
    (hnext : list.links.next .emptyNodes = .emptyNodes)
    (hprev : list.links.prev .emptyNodes = .emptyNodes) (hfirst : .emptyNodes ≠ first)
    (hlast : .emptyNodes ≠ last) (fuel : ℕ) :
    eraseLoop first last fuel list .emptyNodes = none := by
  have hsame : list.erase .emptyNodes = list := by
    rw [ListStatic.erase, hempty, if_neg Bool.false_ne_true, putNode,
      Links.unhook_of_self hnext hprev, hnext, Links.hook_of_self hnext hprev]
  induction fuel with
  | zero => rfl
  | succ fuel ih =>
      have hit : (list.erase .emptyNodes).links.next .emptyNodes = .emptyNodes := by
        rw [hsame, hnext]
      rw [eraseLoop_succ hlast hit, if_neg hfirst, hsame, ih]

/-- The same when the node that was erased first is the only free one: `empty_nodes_` is unlinked
from it. -/
theorem eraseLoop_none (hlist : Represents listSize list used [first] contents) (hne : used ≠ [])
    (hlast : .emptyNodes ≠ last) (fuel : ℕ) :
    eraseLoop first last fuel list .emptyNodes = none := by
  have hfirst : Node.emptyNodes ≠ first := by simpa using hlist.freeRing.nodup
  have hempty : list.empty ≠ true := by
    rw [Ne, hlist.empty_iff]
    exact hne
  have hring : list.links.Ring .emptyNodes ([] ++ first :: []) := hlist.freeRing
  have hunhooked : (list.links.unhook .emptyNodes).Ring first [] := hring.rotate.unhook
  have hdata : Node.data ≠ list.links.prev .emptyNodes := by
    rw [hring.prev_anchor]
    exact fun heq => hlist.disjoint List.mem_cons_self (by simp [heq])
  have hlinks : (list.erase .emptyNodes).links = list.links.unhook .emptyNodes := by
    rw [ListStatic.erase, if_neg hempty, putNode]
    dsimp only
    rw [Links.next_unhook_self, Links.hook_of_self Links.next_unhook_self Links.prev_unhook_self]
  cases fuel with
  | zero => rfl
  | succ fuel =>
      have hit : (list.erase .emptyNodes).links.next .emptyNodes = .emptyNodes := by
        rw [hlinks, Links.next_unhook_self]
      rw [eraseLoop_succ hlast hit, if_neg hfirst]
      refine eraseLoop_stuck ?_ hit ?_ hfirst hlast fuel
      · have hbegin : (list.erase .emptyNodes).begin = list.begin := by
          rw [begin, hlinks, Links.next_unhook_of_ne (by simp) hdata]
          rfl
        rw [empty, hbegin]
        exact Bool.eq_false_of_not_eq_true hempty
      · rw [hlinks, Links.prev_unhook_self]

/-- What `erase` of a range does: it takes the first element out, or does not return. -/
theorem eraseRange_spec (hlist : Represents listSize list (front ++ first :: back) free contents)
    (hlast : last ∈ Node.data :: (front ++ first :: back)) (hne : first ≠ last) :
    if free ≠ [] ∨ contents.length = 1 then
      Returns listSize (fun fuel => eraseRange fuel list first last)
        (contents.eraseIdx front.length)
    else ∀ fuel, eraseRange fuel list first last = none := by
  have herased := hlist.erase
  have hfree : ∀ node ∈ Node.emptyNodes :: free, node ≠ last := by
    rintro node hnode rfl
    exact hlist.disjoint hlast hnode
  have hfirst : ∀ node ∈ Node.emptyNodes :: free, node ≠ first := by
    rintro node hnode rfl
    exact hlist.disjoint (by simp) hnode
  have hring : (list.erase first).links.Ring .emptyNodes ([] ++ first :: free) := herased.freeRing
  have hnext : (list.erase first).links.next first = free.headD .emptyNodes := hring.next_node
  have hgo : ∀ fuel, eraseRange (fuel + 1) list first last =
      eraseLoop first last fuel (list.erase first) (free.headD .emptyNodes) := by
    intro fuel
    rw [eraseRange, eraseLoop_succ hne hnext, if_neg (hfirst _ (Links.Ring.headD_mem _ [] free))]
  have hlength := hlist.length_used
  rw [List.length_append, List.length_cons] at hlength
  by_cases hone : contents.length = 1
  · -- the list is empty now, and the loop goes around its free nodes
    obtain rfl : front = [] := List.length_eq_zero_iff.1 (by omega)
    obtain rfl : back = [] := List.length_eq_zero_iff.1 (by omega)
    rw [if_pos (Or.inr hone)]
    have hout : last ∉ Node.emptyNodes :: (first :: ([] ++ free)) := by
      intro hmem
      simp only [List.nil_append, List.mem_cons] at hmem
      rcases hmem with heq | heq | hmem
      · exact hfree _ List.mem_cons_self heq.symm
      · exact hne heq.symm
      · exact hfree _ (List.mem_cons_of_mem _ hmem) rfl
    exact ⟨free.length + 1 + 1, list.erase first, _, _,
      (hgo _).trans (eraseLoop_empty herased hout), herased⟩
  · have hothers : front ++ back ≠ [] := by
      rw [Ne, List.append_eq_nil_iff]
      rintro ⟨rfl, rfl⟩
      exact hone (by simpa using hlength.symm)
    cases free with
    | nil =>
        rw [if_neg (by simp [hone])]
        intro fuel
        cases fuel with
        | zero => rfl
        | succ fuel =>
            rw [hgo]
            exact eraseLoop_none herased hothers (hfree _ List.mem_cons_self) fuel
    | cons node free =>
        -- the second round moves a free node in front of the erased one
        rw [if_pos (Or.inl (List.cons_ne_nil _ _))]
        have hsecond : Represents listSize (list.erase first) (front ++ back)
            ([first] ++ node :: free) (contents.eraseIdx front.length) := herased
        have hmoved := hsecond.erase_free hothers
        have hring' : ((list.erase first).erase node).links.Ring .emptyNodes
            ([] ++ node :: ([first] ++ free)) := hmoved.freeRing
        refine ⟨2, (list.erase first).erase node, _, _, (hgo 1).trans ?_, hmoved⟩
        rw [List.headD_cons, eraseLoop_succ (hfree node (by simp)) hring'.next_node,
          List.singleton_append, List.headD_cons, if_pos rfl]

end Erase

/-! ## `insert` of a range -/

section Insert

/-- Inserts at a place, and goes on two places behind it: over the new element and the one that
stood there.  From the end that leads to the first place. -/
def spread (contents : List α) (place : ℕ) : List α → List α
  | [] => contents
  | x :: range =>
      spread (contents.take place ++ x :: contents.drop place)
        (if place < contents.length then place + 2 else 0) range

/-- **`insert` of a range** spreads it over the list. -/
theorem insertRange_spec {front back : List Node} (range : List α)
    (hlist : Represents listSize list (front ++ back) free contents)
    (hroom : range.length ≤ free.length) :
    (list.insertRange (back.headD .data) range).2 = true ∧
      ∃ used' free', Represents listSize (list.insertRange (back.headD .data) range).1 used' free'
        (spread contents front.length range) := by
  induction range generalizing list front back free contents with
  | nil => exact ⟨rfl, _, _, hlist⟩
  | cons x range ih =>
      obtain ⟨node, free, rfl⟩ := List.exists_cons_of_ne_nil (show free ≠ [] by
        rintro rfl
        cases hroom)
      obtain ⟨htrue, hnext⟩ := hlist.insert (x := x)
      have hcall : list.insert (back.headD .data) x =
          ((list.insert (back.headD .data) x).1, true) := by
        rw [← htrue]
      have hrest : range.length ≤ free.length := Nat.le_of_succ_le_succ hroom
      have hlength := hlist.length_used
      rw [List.length_append] at hlength
      rw [ListStatic.insertRange, hcall, spread]
      dsimp only
      cases back with
      | nil =>
          have hplace : ¬ front.length < contents.length := by
            rw [← hlength]
            exact lt_irrefl _
          have hit : (list.insert .data x).1.links.next .data =
              (front ++ [node]).headD .data := hnext.usedRing.next_anchor
          rw [if_neg hplace]
          rw [List.headD_nil] at hnext ⊢
          rw [hit]
          exact @ih _ free _ [] (front ++ [node]) hnext hrest
      | cons other back =>
          have hplace : front.length < contents.length := by
            rw [← hlength, List.length_cons]
            omega
          have hmove : front ++ node :: other :: back = (front ++ [node, other]) ++ back := by
            simp
          rw [List.headD_cons] at hnext ⊢
          have hring : (list.insert other x).1.links.Ring .data
              ((front ++ [node]) ++ other :: back) := by
            rw [List.append_assoc, List.singleton_append]
            exact hnext.usedRing
          have hit : (list.insert other x).1.links.next other = back.headD .data := hring.next_node
          rw [hmove] at hnext
          have hcount : (front ++ [node, other]).length = front.length + 2 := List.length_append
          rw [if_pos hplace, hit, ← hcount]
          exact ih hnext hrest

/-! ### When spreading a range inserts it -/

/-- The list with the range in place. -/
def inserted (contents : List α) (place : ℕ) (range : List α) : List α :=
  contents.take place ++ (range ++ contents.drop place)

/-- What stands at each place after `count` elements were spread over `length` at `place`: the
place where `inserted` would have the same element. -/
def places (length place count : ℕ) : List ℕ :=
  spread ((List.range length).map fun i => if i < place then i else i + count) place
    ((List.range count).map (place + ·))

theorem length_spread {place : ℕ} (range : List α) (hplace : place ≤ contents.length) :
    (spread contents place range).length = contents.length + range.length := by
  induction range generalizing contents place with
  | nil => rfl
  | cons x range ih =>
      have hlength : (contents.take place ++ x :: contents.drop place).length =
          contents.length + 1 := by
        rw [List.length_append, List.length_take, List.length_cons, List.length_drop]
        omega
      have hnext : (if place < contents.length then place + 2 else 0) ≤ contents.length + 1 := by
        split <;> omega
      rw [spread, ih (hlength.symm ▸ hnext), hlength, List.length_cons]
      omega

theorem spread_map {β : Type*} (f : α → β) (contents range : List α) (place : ℕ) :
    spread (contents.map f) place (range.map f) = (spread contents place range).map f := by
  induction range generalizing contents place with
  | nil => rfl
  | cons x range ih =>
      rw [List.map_cons, spread, spread, ← ih, List.length_map, List.map_append, List.map_cons,
        List.map_take, List.map_drop]

theorem length_inserted {place : ℕ} (range : List α) (hplace : place ≤ contents.length) :
    (inserted contents place range).length = contents.length + range.length := by
  rw [inserted, List.length_append, List.length_take, List.length_append, List.length_drop]
  omega

theorem map_some_inserted {place : ℕ} (range : List α) (hplace : place ≤ contents.length) :
    contents.map some = ((List.range contents.length).map fun i =>
        if i < place then i else i + range.length).map
          (fun i => (inserted contents place range)[i]?) ∧
      range.map some = ((List.range range.length).map (place + ·)).map
        fun i => (inserted contents place range)[i]? := by
  have hfront : (contents.take place).length = place := List.length_take_of_le hplace
  constructor
  · refine List.ext_getElem (by simp) fun i hi hi' => ?_
    rw [List.length_map] at hi
    simp only [List.getElem_map, List.getElem_range, inserted]
    by_cases hlt : i < place
    · rw [if_pos hlt, List.getElem?_append_left (by omega), List.getElem?_take_of_lt hlt,
        List.getElem?_eq_getElem hi]
    · rw [if_neg hlt, List.getElem?_append_right (by omega), hfront,
        List.getElem?_append_right (by omega), List.getElem?_drop, ← List.getElem?_eq_getElem hi]
      congr 1
      omega
  · refine List.ext_getElem (by simp) fun i hi hi' => ?_
    rw [List.length_map] at hi
    simp only [List.getElem_map, List.getElem_range, inserted]
    rw [List.getElem?_append_right (by omega), hfront, Nat.add_sub_cancel_left,
      List.getElem?_append_left hi, List.getElem?_eq_getElem hi]

/-- **Spreading is inserting** if every element equals the one that `places` puts in its
place. -/
theorem spread_eq_iff {place : ℕ} (range : List α) (hplace : place ≤ contents.length) :
    spread contents place range = inserted contents place range ↔
      ∀ i < contents.length + range.length,
        (inserted contents place range)[(places contents.length place range.length).getD i 0]? =
          (inserted contents place range)[i]? := by
  obtain ⟨hold, hnew⟩ := map_some_inserted range hplace
  have hlength := length_inserted range hplace
  have hplaces : (places contents.length place range.length).length =
      contents.length + range.length := by
    rw [places, length_spread _ (by simpa using hplace), List.length_map, List.length_map,
      List.length_range, List.length_range]
  have hspread : (spread contents place range).map some =
      (places contents.length place range.length).map
        fun i => (inserted contents place range)[i]? := by
    rw [← spread_map, hold, hnew, spread_map, places]
  rw [← (List.map_injective_iff.2 (Option.some_injective α)).eq_iff, hspread]
  constructor
  · intro heq i hi
    have hat := congrArg (fun l => l[i]?) heq
    have hi' : i < (places contents.length place range.length).length := hplaces.symm ▸ hi
    simp only [List.getElem?_map, List.getElem?_eq_getElem hi',
      List.getElem?_eq_getElem (hlength.symm ▸ hi : i < (inserted contents place range).length),
      Option.map_some] at hat
    rw [List.getD_eq_getElem _ _ hi', Option.some.inj hat,
      List.getElem?_eq_getElem (hlength.symm ▸ hi)]
  · intro hall
    refine List.ext_getElem (by rw [List.length_map, List.length_map, hplaces, hlength])
      fun i hi hi' => ?_
    rw [List.length_map] at hi hi'
    have hat := hall i (hplaces ▸ hi)
    rw [List.getD_eq_getElem _ _ hi, List.getElem?_eq_getElem hi'] at hat
    rw [List.getElem_map, List.getElem_map, hat]

theorem sublist_spread (contents : List α) (place : ℕ) (range : List α) :
    contents.Sublist (spread contents place range) := by
  induction range generalizing contents place with
  | nil => exact List.Sublist.refl _
  | cons x range ih =>
      have hput : contents.Sublist (contents.take place ++ x :: contents.drop place) := by
        conv_lhs => rw [← List.take_append_drop place contents]
        exact List.Sublist.append_left (List.sublist_cons_self _ _) _
      exact hput.trans (ih _ _)

theorem not_sublist_swap {list : List α} {x y : α} (hnodup : list.Nodup)
    (hfirst : [x, y].Sublist list) : ¬ [y, x].Sublist list := by
  induction list with
  | nil => cases hfirst
  | cons z list ih =>
      obtain ⟨hz, hnodup⟩ := List.nodup_cons.1 hnodup
      have hmem : ∀ {a b : α}, [a, b].Sublist list → a ∈ list ∧ b ∈ list := fun hpair =>
        ⟨hpair.subset List.mem_cons_self, hpair.subset (by simp)⟩
      intro hsecond
      rcases List.sublist_cons_iff.1 hfirst with hrest | ⟨l, heq, hrest⟩ <;>
        rcases List.sublist_cons_iff.1 hsecond with hrest' | ⟨l', heq', hrest'⟩
      · exact ih hnodup hrest hrest'
      · exact hz ((List.cons.inj heq').1 ▸ (hmem hrest).2)
      · exact hz ((List.cons.inj heq).1 ▸ (hmem hrest').2)
      · obtain ⟨hx, rfl⟩ := List.cons.inj heq
        obtain ⟨hy, -⟩ := List.cons.inj heq'
        exact hz (hy ▸ List.singleton_sublist.1 hrest)

/-- **Different elements** are spread right only if there is at most one. -/
theorem spread_eq_iff_of_nodup {place : ℕ} {range : List α} (hplace : place ≤ contents.length)
    (hnodup : (inserted contents place range).Nodup) :
    spread contents place range = inserted contents place range ↔ range.length ≤ 1 := by
  match range with
  | [] => simp [spread, inserted]
  | [x] => simp [spread, inserted]
  | x :: y :: range =>
      refine ⟨fun heq => ?_, fun hle => absurd hle (by simp)⟩
      exfalso
      obtain ⟨front, back, rfl, rfl⟩ : ∃ front back, contents = front ++ back ∧
          front.length = place :=
        ⟨contents.take place, contents.drop place, (List.take_append_drop _ _).symm,
          List.length_take_of_le hplace⟩
      have hkept := fun contents place => sublist_spread contents place range
      simp only [inserted, List.take_left, List.drop_left] at heq hnodup
      simp only [spread, List.take_left, List.drop_left] at heq
      cases back with
      | nil =>
          -- the second element comes to the front of all
          obtain ⟨w, rest, hw⟩ := List.exists_cons_of_ne_nil
            (List.append_ne_nil_of_right_ne_nil front (List.cons_ne_nil x []))
          have hall : front ++ (x :: y :: range ++ []) = w :: (rest ++ y :: range) := by
            rw [List.append_nil, ← List.cons_append, ← hw, List.append_assoc]
            rfl
          rw [List.append_nil, if_neg (lt_irrefl _), List.take_zero, List.drop_zero, hw, hall] at heq
          rw [hall] at hnodup
          refine not_sublist_swap (x := w) (y := y) hnodup ?_ ?_
          · refine List.Sublist.cons_cons w ?_
            exact List.singleton_sublist.2 (by simp)
          · rw [← heq]
            refine List.Sublist.trans ?_ (hkept _ _)
            refine List.Sublist.cons_cons y ?_
            exact List.singleton_sublist.2 List.mem_cons_self
      | cons b back =>
          -- the second element comes behind the one that stood at the place
          have hlt : front.length < (front ++ b :: back).length := by simp
          have hput : front ++ x :: b :: back = (front ++ [x, b]) ++ back := by simp
          have htake : (front ++ [x, b]).length = front.length + 2 := List.length_append
          rw [if_pos hlt, hput, List.take_left' htake, List.drop_left' htake] at heq
          refine not_sublist_swap (x := y) (y := b) hnodup ?_ ?_
          · refine List.Sublist.trans ?_ (List.sublist_append_right _ _)
            refine List.Sublist.cons _ (List.Sublist.cons_cons _ ?_)
            exact List.singleton_sublist.2 (by simp)
          · rw [← heq]
            refine List.Sublist.trans ?_ (hkept _ _)
            have hfront : [b].Sublist (front ++ [x, b]) := List.singleton_sublist.2 (by simp)
            exact hfront.append (List.singleton_sublist.2 List.mem_cons_self)

end Insert

/-! ## The calls -/

theorem Represents.returns_iff {run : ℕ → Option (ListStatic α)}
    (hmono : ∀ {fuel fuel' result}, fuel ≤ fuel' → run fuel = some result →
      run fuel' = some result)
    {contents' : List α} (hreturns : Returns listSize run contents) :
    Returns listSize run contents' ↔ contents' = contents := by
  constructor
  · obtain ⟨fuel, list, used, free, hrun, hlist⟩ := hreturns
    rintro ⟨fuel', list', used', free', hrun', hlist'⟩
    have hsame : list = list' := by
      rcases le_total fuel fuel' with hle | hle
      · exact Option.some.inj ((hmono hle hrun).symm.trans hrun')
      · exact Option.some.inj (hrun.symm.trans (hmono hle hrun'))
    subst hsame
    exact hlist'.contents_unique hlist
  · rintro rfl
    exact hreturns

/-- **The calls on ranges.**  `reverse` is right on palindromes.  `erase` of a range is right on
an empty one, and on a single element that is the only one or leaves a free node.  `insert` of a
range is right if the elements that it interchanges are equal: if they are all different, for at
most one element. -/
theorem rangeCalls_right_iff (hlist : Represents listSize list used free contents) :
    (Returns listSize (fun fuel => list.reverse fuel) contents.reverse ↔
      contents.reverse = contents) ∧
    (∀ i j, i ≤ j → j ≤ contents.length →
      (Returns listSize (fun fuel => list.eraseRange fuel (list.iteratorAt i) (list.iteratorAt j))
          (contents.take i ++ contents.drop j) ↔
        i = j ∨ j = i + 1 ∧ (contents.length < listSize ∨ contents.length = 1))) ∧
    ∀ place ≤ contents.length, ∀ range : List α, contents.length + range.length ≤ listSize →
      (Returns listSize (fun _ => some (list.insertRange (list.iteratorAt place) range).1)
          (inserted contents place range) ↔
        ∀ i < contents.length + range.length,
          (inserted contents place range)[(places contents.length place range.length).getD i 0]? =
            (inserted contents place range)[i]?) ∧
      ((inserted contents place range).Nodup →
        (Returns listSize (fun _ => some (list.insertRange (list.iteratorAt place) range).1)
          (inserted contents place range) ↔ range.length ≤ 1)) := by
  have hlength := hlist.length
  have hused := hlist.length_used
  refine ⟨?_, fun i j hij hj => ?_, fun place hplace range hroom => ?_⟩
  · obtain ⟨fuel, hrun⟩ := reverse_unchanged hlist
    exact Represents.returns_iff (fun hle => reverseLoop_mono hle) ⟨fuel, list, _, _, hrun, hlist⟩
  · rw [hlist.iteratorAt_eq (hij.trans hj), hlist.iteratorAt_eq hj]
    rcases hij.eq_or_lt with rfl | hlt
    · refine iff_of_true ⟨1, list, used, free, if_pos rfl, ?_⟩ (Or.inl rfl)
      rwa [List.take_append_drop]
    · have hi : i < used.length := by omega
      have hsplit : used = used.take i ++ used[i] :: used.drop (i + 1) := by
        rw [List.getElem_cons_drop, List.take_append_drop]
      have hfront : (used.take i).length = i := List.length_take_of_le hi.le
      have hfirst : (used.drop i).headD .data = used[i] := by
        rw [List.drop_eq_getElem_cons hi, List.headD_cons]
      have hlast : (used.drop j).headD .data ∈ Node.data :: used := by
        have hmem := Links.Ring.headD_mem Node.data (used.take j) (used.drop j)
        rwa [List.take_append_drop] at hmem
      have hne : used[i] ≠ (used.drop j).headD .data := by
        have hnodup := hlist.usedRing.nodup
        rcases Nat.lt_or_ge j used.length with hjlt | hjge
        · rw [List.drop_eq_getElem_cons hjlt, List.headD_cons]
          exact fun heq => hlt.ne ((List.nodup_cons.1 hnodup).2.getElem_inj_iff.1 heq)
        · rw [List.drop_of_length_le hjge, List.headD_nil]
          exact fun heq => (List.nodup_cons.1 hnodup).1 (heq ▸ List.getElem_mem hi)
      have herase : contents.take i ++ contents.drop j = contents.eraseIdx i ↔ j = i + 1 := by
        rw [List.eraseIdx_eq_take_drop_succ]
        refine ⟨fun heq => ?_, fun heq => by rw [heq]⟩
        have hcount := congrArg List.length (List.append_cancel_left heq)
        rw [List.length_drop, List.length_drop] at hcount
        omega
      have hfree : free ≠ [] ↔ contents.length < listSize := by
        rw [← List.length_pos_iff]
        omega
      have hspec := eraseRange_spec (hsplit ▸ hlist) (hsplit ▸ hlast) hne
      rw [hfront] at hspec
      rw [hfirst, ← hfree, or_iff_right hlt.ne]
      by_cases hgoes : free ≠ [] ∨ contents.length = 1
      · rw [if_pos hgoes] at hspec
        rw [and_iff_left hgoes, ← herase]
        exact Represents.returns_iff (fun hle => eraseLoop_mono hle) hspec
      · rw [if_neg hgoes] at hspec
        refine iff_of_false ?_ fun hright => hgoes hright.2
        rintro ⟨fuel, result, used', free', hrun, -⟩
        cases (hspec fuel).symm.trans hrun
  · have hsplit : Represents listSize list (used.take place ++ used.drop place) free contents := by
      rwa [List.take_append_drop]
    have hfront : (used.take place).length = place := List.length_take_of_le (hused ▸ hplace)
    obtain ⟨-, used', free', hspread⟩ := insertRange_spec range hsplit (by omega)
    rw [hfront] at hspread
    have hiff : Returns listSize
        (fun _ => some (list.insertRange (list.iteratorAt place) range).1)
          (inserted contents place range) ↔
            spread contents place range = inserted contents place range := by
      rw [hlist.iteratorAt_eq hplace, eq_comm]
      exact Represents.returns_iff (fun _ => id) ⟨0, _, used', free', rfl, hspread⟩
    exact ⟨hiff.trans (spread_eq_iff range hplace),
      fun hnodup => hiff.trans (spread_eq_iff_of_nodup hplace hnodup)⟩

/-- A list for three elements that holds 5 and 7. -/
theorem rangeCalls_right_iff_pair :
    ∃ (list : ListStatic ℕ) (used free : List Node),
      Represents (LIST_SIZE 3) list used free [5, 7] ∧
        (Returns (LIST_SIZE 3) (fun fuel => list.reverse fuel) [5, 7].reverse ↔
          [5, 7].reverse = [5, 7]) := by
  obtain ⟨list, used, free, -, hlist⟩ :=
    (represents_init 3 : Represents _ (init 3 : ListStatic ℕ) _ _ _).run
      (show [Op.pushBack 5, .pushBack 7].foldlM (Op.apply (LIST_SIZE 3)) [] = some [5, 7] from rfl)
  exact ⟨list, used, free, hlist, (rangeCalls_right_iff hlist).1⟩

/-- **Two elements of a list for four**: `reverse` leaves them in order, erasing both leaves one
of them, and two new elements come one before and one between them. -/
theorem list_of_two_ranges :
    ∃ (list : ListStatic ℕ) (used free : List Node),
      Represents (LIST_SIZE 4) list used free [5, 7] ∧
      ¬ Returns (LIST_SIZE 4) (fun fuel => list.reverse fuel) [7, 5] ∧
      ¬ Returns (LIST_SIZE 4)
        (fun fuel => list.eraseRange fuel (list.iteratorAt 0) (list.iteratorAt 2)) [] ∧
      ¬ Returns (LIST_SIZE 4) (fun _ => some (list.insertRange (list.iteratorAt 0) [1, 2]).1)
        [1, 2, 5, 7] := by
  obtain ⟨list, used, free, -, hlist⟩ :=
    (represents_init 4 : Represents _ (init 4 : ListStatic ℕ) _ _ _).run
      (show [Op.pushBack 5, .pushBack 7].foldlM (Op.apply (LIST_SIZE 4)) [] = some [5, 7] from rfl)
  have hfree : free.length = 2 := Nat.add_left_cancel hlist.length
  have hbegin := hlist.iteratorAt_eq (Nat.zero_le 2)
  have hend := hlist.iteratorAt_eq (le_refl 2)
  obtain ⟨first, second, rfl⟩ := List.length_eq_two.1 hlist.length_used
  rw [List.drop_zero, List.headD_cons] at hbegin
  have hlast : list.iteratorAt 2 = .data := hend
  refine ⟨list, _, free, hlist, ?_, ?_, ?_⟩
  · obtain ⟨fuel, hrun⟩ := reverse_unchanged hlist
    exact mt (Represents.returns_iff (fun hle => reverseLoop_mono hle)
      ⟨fuel, list, _, _, hrun, hlist⟩).1 (by decide)
  · have hspec := eraseRange_spec (show Represents _ list ([] ++ first :: [second]) free
      [5, 7] from hlist) List.mem_cons_self (fun heq =>
      (List.nodup_cons.1 hlist.usedRing.nodup).1 (by simp [heq]))
    rw [if_pos (Or.inl (List.length_pos_iff.1 (by omega)))] at hspec
    rw [hbegin, hlast]
    exact mt (Represents.returns_iff (fun hle => eraseLoop_mono hle) hspec).1 (by decide)
  · obtain ⟨-, used', free', hspread⟩ := insertRange_spec [1, 2]
      (show Represents _ list ([] ++ [first, second]) free [5, 7] from hlist) hfree.ge
    rw [hbegin]
    exact mt (Represents.returns_iff (fun _ => id) ⟨0, _, used', free', rfl, hspread⟩).1 (by decide)

end ListStatic

end Wiselib
