import Wiselib.TupleStore.PrescillaSearch

/-!
# The operations of the Prescilla dictionary

What `insert`, `find`, `erase` and `get_copy` do to a heap that represents a
trie.  A node holds at most 65535 bits, the range of `data_size_`; under that
condition on the nodes that are made, `insert` counts at the node whose label is
the string, `erase` counts down there, and all other nodes keep label and count.
-/

namespace Wiselib.Prescilla

section Operations

variable {dictionary : Dictionary} {label : Ptr → List Bool}

/-! ## Insertion -/

/-- Nodes stay where they are and keep their labels. -/
def Keeps (heap heap' : Heap) (label label' : Ptr → List Bool) : Prop :=
  ∀ p, heap p ≠ none → heap' p ≠ none ∧ label' p = label p

theorem Keeps.trans {heap1 heap2 heap3 : Heap} {label1 label2 label3 : Ptr → List Bool}
    (h12 : Keeps heap1 heap2 label1 label2) (h23 : Keeps heap2 heap3 label2 label3) :
    Keeps heap1 heap3 label1 label3 := by
  intro p hp
  obtain ⟨hp2, hlabel2⟩ := h12 p hp
  obtain ⟨hp3, hlabel3⟩ := h23 p hp2
  exact ⟨hp3, hlabel3.trans hlabel2⟩

/-- The string `v` is counted once more, at the node `key`. -/
structure Inserted (heap : Heap) (label : Ptr → List Bool) (v : List Bool) (root : Ptr)
    (result : Option (Dictionary × Ptr)) (label' : Ptr → List Bool) (heap' : Heap) (key : Ptr) :
    Prop where
  result : ∃ size, result = some (⟨root, heap', size⟩, key)
  represents : Represents heap' root label'
  keeps : Keeps heap heap' label label'
  mem_key : heap' key ≠ none
  label_key : label' key = v
  count_key : countAt heap' key = countAt heap key + 1
  count_other : ∀ p, p ≠ key → countAt heap' p = countAt heap p

theorem Inserted.of_keeps {heap1 heap2 heap3 : Heap} {label1 label2 label3 : Ptr → List Bool}
    {v : List Bool} {root key : Ptr} {result : Option (Dictionary × Ptr)}
    (hinserted : Inserted heap2 label2 v root result label3 heap3 key)
    (hkeeps : Keeps heap1 heap2 label1 label2)
    (hcount : ∀ p, countAt heap2 p = countAt heap1 p) :
    Inserted heap1 label1 v root result label3 heap3 key where
  result := hinserted.result
  represents := hinserted.represents
  keeps := hkeeps.trans hinserted.keeps
  mem_key := hinserted.mem_key
  label_key := hinserted.label_key
  count_key := by rw [hinserted.count_key, hcount]
  count_other p hp := by rw [hinserted.count_other p hp, hcount]

theorem appendNode_spec (hrep : Represents dictionary.heap dictionary.root label)
    {parent new : Ptr} {pnode : Node} (hparent : dictionary.heap parent = some pnode)
    (hnew : dictionary.heap new = none) (hzero : new ≠ 0) {first : Bool} {tail : List Bool}
    (hfree : pnode.children first = 0) (hshort : (first :: tail).length < 65536) :
    ∃ label' heap', Inserted dictionary.heap label (label parent ++ first :: tail) dictionary.root
      (appendNode dictionary parent (first :: tail) new) label' heap' new := by
  have hne : parent ≠ new := by
    rintro rfl
    rw [hnew] at hparent
    cases hparent
  have hold : ∀ {p}, dictionary.heap p ≠ none → p ≠ new := by
    rintro p hp rfl
    exact hp hnew
  refine ⟨_, _, ⟨dictionary.size + 1, ?_⟩, hrep.append hparent hnew hzero hfree hshort,
    fun p hp => ⟨?_, Function.update_of_ne (hold hp) _ _⟩, ?_, Function.update_self _ _ _, ?_, ?_⟩
  · have hmod : uint16 (first :: tail).length = (first :: tail).length := Nat.mod_eq_of_lt hshort
    unfold appendNode
    rw [hmod]
    simp [write, hne, hparent]
  · rw [Function.update_apply]
    split_ifs
    · exact Option.some_ne_none _
    · rw [Function.update_of_ne (hold hp)]
      exact hp
  · rw [Function.update_of_ne hne.symm, Function.update_self]
    exact Option.some_ne_none _
  · simp [countAt, hne.symm, hnew]
  · intro p hp
    by_cases hpp : p = parent
    · rw [countAt, countAt, hpp, Function.update_self, hparent]
      rfl
    · rw [countAt, countAt, Function.update_of_ne hpp, Function.update_of_ne hp]

theorem countUp_spec (hrep : Represents dictionary.heap dictionary.root label) {current : Ptr}
    {node : Node} (hcurrent : dictionary.heap current = some node) (hcount : node.count < 65535) :
    ∃ heap', Inserted dictionary.heap label (label current) dictionary.root
      (countUp dictionary current) label heap' current := by
  refine ⟨Function.update dictionary.heap current (some { node with count := node.count + 1 }),
    ⟨if node.count + 1 = 1 then dictionary.size + 1 else dictionary.size, ?_⟩,
    hrep.congr fun p => ?_, fun p hp => ⟨?_, rfl⟩, ?_, rfl, ?_, ?_⟩
  · have hmod : uint16 (node.count + 1) = node.count + 1 := Nat.mod_eq_of_lt (by omega)
    simp [countUp, write, hcurrent, hmod]
  · by_cases hp : p = current
    · rw [hp, Function.update_self, hcurrent]
      rfl
    · rw [Function.update_of_ne hp]
  · rw [Function.update_apply]
    split_ifs
    · exact Option.some_ne_none _
    · exact hp
  · rw [Function.update_self]
    exact Option.some_ne_none _
  · rw [countAt, countAt, Function.update_self, hcurrent]
    rfl
  · intro p hp
    rw [countAt, countAt, Function.update_of_ne hp]

theorem splitNode_spec (hrep : Represents dictionary.heap dictionary.root label) {current new : Ptr}
    {node : Node} (hcurrent : dictionary.heap current = some node) (hroot : current ≠ dictionary.root)
    (hnew : dictionary.heap new = none) (hzero : new ≠ 0) {idx : ℕ} (hpos : 0 < idx)
    (hlt : idx < node.data.length) :
    ∃ label' split snode, splitNode dictionary current idx new = some split ∧
      split.root = dictionary.root ∧ Represents split.heap split.root label' ∧
      Keeps dictionary.heap split.heap label label' ∧ split.heap new = some snode ∧
      (∀ bit, node.data[idx]? ≠ some bit → snode.children bit = 0) ∧ snode.count = 0 ∧
      label' new ++ node.data.drop idx = label current ∧
      (∀ p, countAt split.heap p = countAt dictionary.heap p) ∧
      ∀ p, p ≠ new → dictionary.heap p = none → split.heap p = none := by
  obtain ⟨qnode, frontBit, hparent, hhead, hchild⟩ := hrep.parent hcurrent hroot
  have hsize := hrep.dataSize hcurrent
  have hshort := hrep.short hcurrent
  have hfront : (node.data.take idx).head? = some frontBit := by
    rw [List.head?_take, if_neg (by omega), hhead]
  have hback : (node.data.drop idx).head? = some node.data[idx] := by
    rw [List.head?_drop, List.getElem?_eq_getElem hlt]
  have hcn : current ≠ new := by
    rintro rfl
    rw [hnew] at hcurrent
    cases hcurrent
  have hpn : node.parent ≠ new := by
    intro heq
    rw [heq, hnew] at hparent
    cases hparent
  have hpc : node.parent ≠ current := by
    intro heq
    have := hrep.parent_lt hcurrent hroot
    rw [heq] at this
    omega
  have hsplit := hrep.split hcurrent hroot hparent hnew hzero
    (List.take_append_drop idx node.data).symm hfront hback
  have hlength : (node.data.take idx).length = idx := by
    rw [List.length_take]
    omega
  rw [hlength, List.length_drop] at hsplit
  have hback' : (node.data.take node.dataSize).drop idx = node.data.drop idx := by
    rw [hsize, List.take_length]
  have hmodFront : uint16 idx = idx := Nat.mod_eq_of_lt (by omega)
  have hmodBack : uint16 (node.dataSize - idx) = node.data.length - idx := by
    rw [hsize]
    exact Nat.mod_eq_of_lt (by omega)
  have hread : splitNode dictionary current idx new = some ⟨dictionary.root,
      Function.update (Function.update (Function.update
        dictionary.heap node.parent (some (qnode.setChild frontBit new)))
        current (some { node with
          data := node.data.drop idx, dataSize := node.data.length - idx, parent := new }))
        new (some ((Node.mk (fun _ => 0) node.parent 0 idx (node.data.take idx)).setChild
          node.data[idx] current)), dictionary.size⟩ := by
    unfold splitNode
    simp only [hcurrent, hback', hfront, hback, hmodFront, hmodBack, Option.bind_eq_bind,
      Option.bind_some, write, Function.update_of_ne hpn, hparent, Option.map_some,
      Function.update_of_ne hpc.symm, Function.update_of_ne hcn, Function.update_of_ne hpn.symm,
      Function.update_of_ne hcn.symm, Function.update_self, Option.pure_def, Option.some.injEq,
      Dictionary.mk.injEq, true_and, and_true]
    funext p
    simp only [Function.update_apply]
    split_ifs <;> rfl
  have hold : ∀ {p}, dictionary.heap p ≠ none → p ≠ new := by
    rintro p hp rfl
    exact hp hnew
  refine ⟨_, _, _, hread, rfl, hsplit, fun p hp => ⟨?_, Function.update_of_ne (hold hp) _ _⟩,
    Function.update_self _ _ _, fun bit hbit => ?_, rfl, ?_, fun p => ?_, fun p hp hnone => ?_⟩
  · simp only [Function.update_apply]
    split_ifs
    all_goals first | exact Option.some_ne_none _ | exact hp
  · refine (Node.setChild_children _ _ _ _).trans (if_neg fun heq => hbit ?_)
    rw [List.getElem?_eq_getElem hlt, heq]
  · rw [Function.update_self, List.append_assoc, List.take_append_drop]
    exact (hrep.label_eq hcurrent hroot).symm
  · simp only [countAt, Function.update_apply]
    split_ifs with hp hp' hp''
    · rw [hp, hnew]
      rfl
    · rw [hp', hcurrent]
      rfl
    · rw [hp'', hparent]
      rfl
    · rfl
  · have hpc' : p ≠ current := by
      rintro rfl
      rw [hnone] at hcurrent
      cases hcurrent
    have hpp' : p ≠ node.parent := by
      rintro rfl
      rw [hnone] at hparent
      cases hparent
    dsimp only
    rw [Function.update_of_ne hp, Function.update_of_ne hpc', Function.update_of_ne hpp', hnone]

/-- Where the loop of `insert` ends for the string `v`. -/
def WalkEnds (heap : Heap) (root : Ptr) (label : Ptr → List Bool) (v : List Bool) : Walk → Prop
  | .tail q rest => ∃ node first tail, heap q = some node ∧ rest = first :: tail ∧
      node.children first = 0 ∧ v = label q ++ rest
  | .stop q idx rest => ∃ node pre, heap q = some node ∧ q ≠ root ∧ 0 < idx ∧
      idx ≤ node.data.length ∧ label q = pre ++ node.data.drop idx ∧ v = pre ++ rest ∧
      ∀ first tail, rest = first :: tail → idx < node.data.length ∧ node.data[idx]? ≠ some first

/-- The bits that are left when the loop ends. -/
def Walk.rest : Walk → List Bool
  | .tail _ rest => rest
  | .stop _ _ rest => rest

theorem walk_spec {heap : Heap} {root : Ptr} (hrep : Represents heap root label) :
    ∀ (remaining : List Bool) (current : Ptr) (idx : ℕ) (pre : List Bool) (node : Node),
      heap current = some node → current ≠ root → label current = pre ++ node.data.drop idx →
      idx ≤ node.data.length → (remaining ≠ [] → idx < node.data.length) →
      (idx = 0 → remaining.head? ≠ none ∧ remaining.head? = node.data.head?) →
      ∃ ends, walk heap remaining current idx = some ends ∧
        WalkEnds heap root label (pre ++ remaining) ends := by
  intro remaining
  induction remaining with
  | nil =>
      intro current idx pre node hcurrent hroot hlabel hle _ hfirst
      have hpos : 0 < idx := Nat.pos_of_ne_zero fun hzero => (hfirst hzero).1 rfl
      exact ⟨_, rfl, node, pre, hcurrent, hroot, hpos, hle, hlabel, by simp, by simp⟩
  | cons bit rest ih =>
      intro current idx pre node hcurrent hroot hlabel hle hlt hfirst
      have hidx := hlt (List.cons_ne_nil _ _)
      have hsize := hrep.dataSize hcurrent
      have hget : node.data[idx]? = some node.data[idx] := List.getElem?_eq_getElem hidx
      have hdrop : node.data.drop idx = node.data[idx] :: node.data.drop (idx + 1) :=
        List.drop_eq_getElem_cons hidx
      unfold walk
      simp only [hcurrent, hget, Option.bind_eq_bind, Option.bind_some]
      by_cases hbit : node.data[idx] = bit
      · rw [if_pos hbit]
        have hlabel' : label current = (pre ++ [bit]) ++ node.data.drop (idx + 1) := by
          rw [hlabel, hdrop, hbit, List.append_assoc]
          rfl
        have hremaining : pre ++ bit :: rest = (pre ++ [bit]) ++ rest := by simp
        rw [hremaining]
        by_cases hend : idx + 1 ≥ node.dataSize
        · rw [if_pos hend]
          have hnil : node.data.drop (idx + 1) = [] := List.drop_eq_nil_of_le (by omega)
          rw [hnil, List.append_nil] at hlabel'
          cases hrest : rest with
          | nil =>
              rw [hrest] at ih
              refine ih current (idx + 1) (pre ++ [bit]) node hcurrent hroot ?_ (by omega) ?_ ?_
              · rw [hnil, List.append_nil, hlabel']
              · exact fun hne => absurd rfl hne
              · omega
          | cons next tail =>
              rw [hrest] at ih
              simp only [List.head?_cons]
              split_ifs with hchild
              · -- descend to the child
                obtain ⟨child, hread, hparent, hhead, hchildLabel⟩ := hrep.child hcurrent hchild
                have hchildRoot : node.children next ≠ root := by
                  intro heq
                  rw [heq, hrep.label_root] at hchildLabel
                  have hnil' := (List.append_eq_nil_iff.1 hchildLabel.symm).2
                  rw [hnil'] at hhead
                  cases hhead
                have hne : child.data ≠ [] := by
                  rintro hnil'
                  rw [hnil'] at hhead
                  cases hhead
                refine ih (node.children next) 0 (pre ++ [bit]) child hread hchildRoot ?_
                  (Nat.zero_le _) (fun _ => List.length_pos_iff.2 hne) fun _ => ⟨?_, ?_⟩
                · rw [hchildLabel, hlabel', List.drop_zero]
                · simp
                · rw [hhead, List.head?_cons]
              · exact ⟨_, rfl, node, next, tail, hcurrent, rfl, not_ne_iff.1 hchild,
                  by rw [hlabel']⟩
        · rw [if_neg hend]
          refine ih current (idx + 1) (pre ++ [bit]) node hcurrent hroot hlabel' (by omega)
            (fun _ => by omega) (fun hzero => absurd hzero (by omega))
      · rw [if_neg hbit]
        have hpos : 0 < idx := by
          refine Nat.pos_of_ne_zero fun hzero => hbit ?_
          subst hzero
          have hhead := (hfirst rfl).2
          rw [List.head?_cons, List.head?_eq_getElem?, hget] at hhead
          exact (Option.some.inj hhead).symm
        refine ⟨_, rfl, node, pre, hcurrent, hroot, hpos, hle, hlabel, rfl, ?_⟩
        intro first tail heq
        obtain ⟨rfl, rfl⟩ := List.cons.inj heq
        exact ⟨hidx, by rw [hget]; exact fun h => hbit (Option.some.inj h)⟩

/-- Of a longer prefix, the first bit behind a shorter one. -/
private theorem exists_next_of_lt {pre rest front back : List Bool}
    (heq : pre ++ rest = front ++ back) (hlt : back.length < rest.length) :
    ∃ first tail more, rest = first :: tail ∧ front = pre ++ first :: more := by
  have hlength := congrArg List.length heq
  rw [List.length_append, List.length_append] at hlength
  rcases List.append_eq_append_iff.1 heq with ⟨more, hfront, hrest⟩ | ⟨more, hpre, hback⟩
  · cases more with
    | nil =>
        rw [List.nil_append] at hrest
        rw [hrest] at hlt
        exact absurd hlt (lt_irrefl _)
    | cons first more => exact ⟨first, more ++ back, more, hrest, hfront⟩
  · rw [hback, List.length_append] at hlt
    omega

theorem WalkEnds.rest_length_le {heap : Heap} {root : Ptr} (hrep : Represents heap root label)
    {v front back : List Bool} {ends : Walk} (hends : WalkEnds heap root label v ends)
    (hv : v = front ++ back) {p : Ptr} {pnode : Node} (hp : heap p = some pnode)
    (hbegins : front <+: label p) : ends.rest.length ≤ back.length := by
  by_contra hlt
  rw [not_le] at hlt
  obtain ⟨extra, hextra⟩ := hbegins
  cases ends with
  | tail q rest =>
      obtain ⟨node, first, tail, hq, hrest, hchild, hlabel⟩ := hends
      obtain ⟨first', tail', more, hrest', hfront⟩ := exists_next_of_lt (hlabel.symm.trans hv) hlt
      obtain rfl : first = first' := (List.cons.inj (hrest.symm.trans hrest')).1
      rw [hfront, List.append_assoc] at hextra
      have habove := hrep.above_of_prefix hq hp ⟨_, hextra⟩
      exact (hrep.child_of_above hq habove hextra.symm).1 hchild
  | stop q idx rest =>
      obtain ⟨node, pre, hq, hroot, hpos, hle, hlabel, hpre, hnext⟩ := hends
      obtain ⟨first, tail, more, hrest, hfront⟩ := exists_next_of_lt (hpre.symm.trans hv) hlt
      obtain ⟨hidx, hget⟩ := hnext first tail hrest
      have hbegins' : pre <+: label p := by
        rw [← hextra, hfront, List.append_assoc]
        exact List.prefix_append _ _
      have habove := hrep.above_of_part hq hroot hpos hlabel hp hbegins'
      obtain ⟨extra', hbelow⟩ := hrep.label_prefix hq habove
      rw [hlabel, ← hextra, hfront, List.drop_eq_getElem_cons hidx] at hbelow
      simp only [List.append_assoc, List.cons_append, List.append_cancel_left_eq,
        List.cons.injEq] at hbelow
      rw [List.getElem?_eq_getElem hidx, hbelow.1] at hget
      exact hget rfl

/-- `insert` after the loop stopped within a node. -/
private theorem insert_split (hrep : Represents dictionary.heap dictionary.root label)
    {q new1 new2 : Ptr} {node : Node} {idx : ℕ} {pre rest : List Bool}
    (hq : dictionary.heap q = some node) (hroot : q ≠ dictionary.root) (hpos : 0 < idx)
    (hidx : idx < node.data.length) (hlabel : label q = pre ++ node.data.drop idx)
    (hnext : ∀ first tail, rest = first :: tail → node.data[idx]? ≠ some first)
    (hnew1 : dictionary.heap new1 = none) (hnew2 : dictionary.heap new2 = none)
    (hzero1 : new1 ≠ 0) (hzero2 : new2 ≠ 0) (hne : new1 ≠ new2) (hrest : rest.length < 65536) :
    ∃ split, splitNode dictionary q idx new1 = some split ∧ ∃ label' heap' key,
      Inserted dictionary.heap label (pre ++ rest) dictionary.root
        (if rest = [] then countUp split new1 else appendNode split new1 rest new2)
        label' heap' key := by
  obtain ⟨label', split, snode, hsplit, hsroot, hsrep, hkeeps, hsnode, hschildren, hscount,
    hslabel, hcounts, hfree⟩ := splitNode_spec hrep hq hroot hnew1 hzero1 hpos hidx
  have hpre : label' new1 = pre := List.append_cancel_right (hslabel.trans hlabel)
  refine ⟨split, hsplit, ?_⟩
  cases rest with
  | nil =>
      obtain ⟨heap', hinserted⟩ := countUp_spec hsrep hsnode (by rw [hscount]; omega)
      rw [hpre, hsroot] at hinserted
      rw [if_pos rfl, List.append_nil]
      exact ⟨_, _, _, hinserted.of_keeps hkeeps hcounts⟩
  | cons first tail =>
      obtain ⟨label'', heap', hinserted⟩ := appendNode_spec hsrep hsnode
        (hfree new2 hne.symm hnew2) hzero2 (hschildren first (hnext first tail rfl)) hrest
      rw [hpre, hsroot] at hinserted
      rw [if_neg (List.cons_ne_nil _ _)]
      exact ⟨_, _, _, hinserted.of_keeps hkeeps hcounts⟩

/-- `insert` counts the string once more, provided that what it has behind the
longest common prefix with a label fits into a node. -/
theorem insert_spec (hrep : Represents dictionary.heap dictionary.root label)
    {value : List Byte} (hvalue : bits value ≠ []) {new1 new2 : Ptr}
    (hnew1 : dictionary.heap new1 = none) (hnew2 : dictionary.heap new2 = none)
    (hzero1 : new1 ≠ 0) (hzero2 : new2 ≠ 0) (hne : new1 ≠ new2)
    (hcount : ∀ p, dictionary.heap p ≠ none → label p = bits value →
      countAt dictionary.heap p < 65535)
    {front back : List Bool} (hsplit : bits value = front ++ back) (hback : back.length < 65536)
    (hfront : ∃ p, dictionary.heap p ≠ none ∧ front <+: label p) :
    ∃ label' heap' key, Inserted dictionary.heap label (bits value) dictionary.root
      (insert dictionary value new1 new2) label' heap' key := by
  obtain ⟨first, tail, hbits⟩ := List.exists_cons_of_ne_nil hvalue
  obtain ⟨rnode, hr, -, -⟩ := hrep.isRoot
  obtain ⟨p, hp, hbegins⟩ := hfront
  obtain ⟨pnode, hp⟩ := Option.ne_none_iff_exists'.1 hp
  unfold insert
  rw [hbits] at hcount hsplit ⊢
  simp only [List.head?_cons, Option.bind_eq_bind, Option.bind_some, hr]
  by_cases hchild : rnode.children first = 0
  · rw [if_pos hchild]
    -- no label shares a bit with the string
    have hnil : front = [] := by
      cases front with
      | nil => rfl
      | cons bit front' =>
          obtain rfl : first = bit := (List.cons.inj hsplit).1
          obtain ⟨extra, hextra⟩ := hbegins
          have hlabel : label p = label dictionary.root ++ first :: (front' ++ extra) := by
            rw [hrep.label_root, ← hextra]
            rfl
          exact absurd hchild (hrep.child_of_above hr (hrep.above_root hp) hlabel).1
    rw [hnil, List.nil_append] at hsplit
    obtain ⟨label', heap', hinserted⟩ :=
      appendNode_spec hrep hr hnew1 hzero1 hchild (hsplit ▸ hback)
    rw [hrep.label_root, List.nil_append] at hinserted
    exact ⟨_, _, _, hinserted⟩
  · rw [if_neg hchild]
    obtain ⟨cnode, hc, hcparent, hhead, hclabel⟩ := hrep.child hr hchild
    rw [hrep.label_root, List.nil_append] at hclabel
    have hcroot : rnode.children first ≠ dictionary.root := hrep.child_ne_self hr hchild
    obtain ⟨ends, hwalk, hends⟩ := walk_spec hrep (first :: tail) (rnode.children first) 0 []
      cnode hc hcroot (by rw [hclabel, List.drop_zero, List.nil_append]) (Nat.zero_le _)
      (fun _ => List.length_pos_iff.2 (hrep.data_ne_nil hc hcroot))
      (fun _ => ⟨by simp, by rw [hhead]; rfl⟩)
    rw [List.nil_append] at hends
    have hrest := (hends.rest_length_le hrep hsplit hp hbegins).trans_lt hback
    simp only [hwalk, Option.bind_some]
    cases ends with
    | tail q rest =>
        obtain ⟨node, bit, more, hq, rfl, hfree, hlabel⟩ := hends
        obtain ⟨label', heap', hinserted⟩ := appendNode_spec hrep hq hnew1 hzero1 hfree hrest
        rw [← hlabel] at hinserted
        exact ⟨_, _, _, hinserted⟩
    | stop q idx rest =>
        obtain ⟨node, pre, hq, hroot, hpos, hle, hlabel, hpre, hnext⟩ := hends
        have hsize := hrep.dataSize hq
        simp only [hq, Option.bind_some]
        by_cases hidx : idx < node.dataSize
        · rw [if_pos hidx]
          obtain ⟨split, hsplit', hinserted⟩ := insert_split hrep hq hroot hpos (by omega) hlabel
            (fun first tail heq => (hnext first tail heq).2) hnew1 hnew2 hzero1 hzero2 hne hrest
          simp only [hsplit', Option.bind_some, hpre]
          exact hinserted
        · rw [if_neg hidx]
          cases rest with
          | nil =>
              have hfull : label q = first :: tail := by
                rw [hlabel, hpre, List.drop_eq_nil_of_le (by omega)]
              have hless : node.count < 65535 := by
                have := hcount q (by rw [hq]; exact Option.some_ne_none _) hfull
                rwa [countAt, hq] at this
              obtain ⟨heap', hinserted⟩ := countUp_spec hrep hq hless
              rw [hfull] at hinserted
              rw [if_pos rfl]
              exact ⟨_, _, _, hinserted⟩
          | cons bit more =>
              have := (hnext bit more rfl).1
              omega

end Operations

end Wiselib.Prescilla
