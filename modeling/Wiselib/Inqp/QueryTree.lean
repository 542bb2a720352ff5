import Wiselib.Inqp.QueryProcessor

/-!
# The tree of a query

`build_tree` finds parents and children by their ids.  `QueryPlan.placed` shows that
for distinct ids this is the tree of the plan: every operator is found under its
id, `child` is the projection of the child, and the operators `above` an operator
are the path to the root.
-/

namespace Wiselib.Inqp

/-! ## What the descriptions say -/

theorem Plan.forall_mem_inner {p : ℕ → Prop} {id leftColumn rightColumn : ℕ}
    {projection : ProjectionInfo} {left right : Plan} :
    (∀ i ∈ (join id leftColumn rightColumn projection left right).inner, p i) ↔
      p id ∧ (∀ i ∈ left.inner, p i) ∧ ∀ i ∈ right.inner, p i := by
  simp [inner, or_imp, forall_and]

theorem Plan.perm_ids (plan : Plan) (parent : ℕ) (port : Port) :
    ((plan.operators parent port).map Operator.id).Perm (plan.inner ++ plan.leaves) := by
  induction plan generalizing parent port with
  | select id affected projection => exact .refl _
  | join id leftColumn rightColumn projection left right ihLeft ihRight =>
      simp only [operators, inner, leaves, List.map_cons, List.map_append, List.cons_append]
      refine ((ihLeft id .left).append (ihRight id .right)).cons id |>.trans (.cons id ?_)
      calc left.inner ++ left.leaves ++ (right.inner ++ right.leaves)
          = left.inner ++ (left.leaves ++ right.inner) ++ right.leaves := by simp
        List.Perm _ (left.inner ++ (right.inner ++ left.leaves) ++ right.leaves) :=
            ((List.perm_append_comm).append_left _).append_right _
        _ = left.inner ++ right.inner ++ (left.leaves ++ right.leaves) := by simp

theorem Plan.exists_top (plan : Plan) (parent : ℕ) (port : Port) :
    ∃ op ∈ plan.operators parent port, op.id = plan.id ∧ op.parentId = parent % 128 ∧
      op.parentPort = port ∧ op.projection = plan.projection := by
  cases plan with
  | select id affected projection => exact ⟨_, List.mem_singleton_self _, rfl, rfl, rfl, rfl⟩
  | join id leftColumn rightColumn projection left right =>
      exact ⟨_, List.mem_cons_self, rfl, rfl, rfl, rfl⟩

theorem Plan.mem_leaves_of_selection {plan : Plan} {parent : ℕ} {port : Port} {op : Operator}
    {affected : Fin 3 → Option Value} (hop : op ∈ plan.operators parent port)
    (hkind : op.kind = .graphPatternSelection affected) : op.id ∈ plan.leaves := by
  induction plan generalizing parent port with
  | select id affected projection =>
      rw [List.mem_singleton.1 hop]
      exact List.mem_singleton_self _
  | join id leftColumn rightColumn projection left right ihLeft ihRight =>
      rcases List.mem_cons.1 hop with rfl | hop
      · cases hkind
      · rcases List.mem_append.1 hop with hop | hop
        · exact List.mem_append_left _ (ihLeft hop)
        · exact List.mem_append_right _ (ihRight hop)

/-- The place of an operator: its parent and the port there. -/
def Operator.place (op : Operator) : ℕ × Port :=
  (op.parentId, op.parentPort)

theorem Plan.place_mem {plan : Plan} {parent : ℕ} {port : Port} {op : Operator}
    (hparents : ∀ id ∈ plan.inner, id < 128) (hparent : parent < 128)
    (hop : op ∈ plan.operators parent port) :
    op.place = (parent, port) ∨ op.parentId ∈ plan.inner := by
  induction plan generalizing parent port with
  | select id affected projection =>
      rw [List.mem_singleton.1 hop]
      exact .inl (by simp [Operator.place, Nat.mod_eq_of_lt hparent])
  | join id leftColumn rightColumn projection left right ihLeft ihRight =>
      obtain ⟨hid, hleft, hright⟩ := forall_mem_inner.1 hparents
      rcases List.mem_cons.1 hop with rfl | hop
      · exact .inl (by simp [Operator.place, Nat.mod_eq_of_lt hparent])
      · right
        rcases List.mem_append.1 hop with hop | hop
        · rcases ihLeft hleft hid hop with hplace | hmem
          · exact List.mem_cons.2 (.inl (congrArg Prod.fst hplace))
          · exact List.mem_cons_of_mem _ (List.mem_append_left _ hmem)
        · rcases ihRight hright hid hop with hplace | hmem
          · exact List.mem_cons.2 (.inl (congrArg Prod.fst hplace))
          · exact List.mem_cons_of_mem _ (List.mem_append_right _ hmem)

theorem Plan.nodup_places {plan : Plan} {parent : ℕ} {port : Port}
    (hparents : ∀ id ∈ plan.inner, id < 128) (hparent : parent < 128)
    (hnodup : (parent :: plan.inner).Nodup) :
    ((plan.operators parent port).map Operator.place).Nodup := by
  induction plan generalizing parent port with
  | select id affected projection => exact List.nodup_singleton _
  | join id leftColumn rightColumn projection left right ihLeft ihRight =>
      obtain ⟨hid, hleft, hright⟩ := forall_mem_inner.1 hparents
      simp only [inner, List.nodup_cons, List.mem_cons, List.mem_append, List.nodup_append',
        not_or] at hnodup
      obtain ⟨⟨hne, hparentLeft, hparentRight⟩, ⟨hidLeft, hidRight⟩, hnodupLeft, hnodupRight,
        hdisjoint⟩ := hnodup
      have hplaceLeft : ∀ op ∈ left.operators id .left,
          op.place = (id, .left) ∨ op.parentId ∈ left.inner := fun op => place_mem hleft hid
      have hplaceRight : ∀ op ∈ right.operators id .right,
          op.place = (id, .right) ∨ op.parentId ∈ right.inner := fun op => place_mem hright hid
      simp only [operators, List.map_cons, List.map_append, List.nodup_cons, List.mem_append,
        List.mem_map, List.nodup_append', not_or, not_exists, not_and]
      refine ⟨⟨fun op hop hplace => ?_, fun op hop hplace => ?_⟩, ?_, ?_, ?_⟩
      · have hfst : op.parentId = parent := by
          simpa [Operator.place, Nat.mod_eq_of_lt hparent] using congrArg Prod.fst hplace
        rcases hplaceLeft op hop with hother | hmem
        · exact hne (hfst ▸ congrArg Prod.fst hother)
        · exact hparentLeft (hfst ▸ hmem)
      · have hfst : op.parentId = parent := by
          simpa [Operator.place, Nat.mod_eq_of_lt hparent] using congrArg Prod.fst hplace
        rcases hplaceRight op hop with hother | hmem
        · exact hne (hfst ▸ congrArg Prod.fst hother)
        · exact hparentRight (hfst ▸ hmem)
      · exact ihLeft hleft hid (List.nodup_cons.2 ⟨hidLeft, hnodupLeft⟩)
      · exact ihRight hright hid (List.nodup_cons.2 ⟨hidRight, hnodupRight⟩)
      · intro place hplace hplace'
        obtain ⟨first, hfirst, rfl⟩ := List.mem_map.1 hplace
        obtain ⟨second, hsecond, hsame⟩ := List.mem_map.1 hplace'
        have hid' : second.parentId = first.parentId := congrArg Prod.fst hsame
        rcases hplaceLeft first hfirst with hthis | hmem
        · rcases hplaceRight second hsecond with hthat | hmem'
          · rw [hthis, hthat] at hsame
            exact absurd hsame (by simp)
          · have hfst : first.parentId = id := congrArg Prod.fst hthis
            exact hidRight (hfst ▸ hid' ▸ hmem')
        · rcases hplaceRight second hsecond with hthat | hmem'
          · have hsnd : second.parentId = id := congrArg Prod.fst hthat
            exact hidLeft (hsnd ▸ hid'.symm ▸ hmem)
          · exact hdisjoint hmem (hid' ▸ hmem')

/-! ## Looking up -/

theorem find?_of_unique {α : Type*} {p : α → Bool} {l : List α} {a : α} (ha : a ∈ l)
    (hp : p a = true) (hunique : ∀ b ∈ l, p b = true → b = a) : l.find? p = some a := by
  cases hfind : l.find? p with
  | none => exact absurd hp (List.find?_eq_none.1 hfind a ha)
  | some b => rw [hunique b (List.mem_of_find?_eq_some hfind) (List.find?_some hfind)]

theorem Operators.get_of_mem {operators : Operators} {op : Operator}
    (hnodup : (operators.map Operator.id).Nodup) (hop : op ∈ operators) :
    operators.get op.id = some op := by
  apply find?_of_unique hop (by simp)
  intro other hother hsame
  exact List.inj_on_of_nodup_map hnodup hother hop (by simpa using hsame)

theorem Operators.child_of_mem {operators : Operators} {op : Operator}
    (hnodup : (operators.map Operator.place).Nodup) (hop : op ∈ operators) :
    operators.child op.parentId op.parentPort = op.projection := by
  have hfind : (operators.find? fun other =>
      other.parentId = op.parentId ∧ other.parentPort = op.parentPort) = some op := by
    apply find?_of_unique hop (by simp)
    intro other hother hsame
    exact List.inj_on_of_nodup_map hnodup hother hop (by simpa [Operator.place] using hsame)
  unfold child
  rw [hfind]

/-! ## The tree -/

/-- The operators of a plan are found in the map, with their children and with the
path to the root. -/
def Plan.Placed (operators : Operators) (parent : ℕ) (port : Port) (path : List Operator) :
    Plan → Prop
  | .select id affected projection =>
      operators.get id = some ⟨id, .graphPatternSelection affected, parent, port, projection⟩ ∧
        operators.above operators.length parent = path
  | .join id leftColumn rightColumn projection left right =>
      let op : Operator := ⟨id, .simpleLocalJoin leftColumn rightColumn, parent, port, projection⟩
      operators.child id .left = left.projection ∧ operators.child id .right = right.projection ∧
        left.Placed operators id .left (op :: path) ∧
        right.Placed operators id .right (op :: path)

theorem Plan.placed_of_subset {operators : Operators} {plan : Plan} {parent : ℕ} {port : Port}
    {path : List Operator} (hids : (operators.map Operator.id).Nodup)
    (hplaces : (operators.map Operator.place).Nodup)
    (hparents : ∀ id ∈ plan.inner, 0 < id ∧ id < 128) (hparent : 0 < parent ∧ parent < 128)
    (hpath : ∀ fuel, path.length ≤ fuel → operators.above fuel parent = path)
    (hlength : path.length + (plan.operators parent port).length ≤ operators.length)
    (hsubset : plan.operators parent port ⊆ operators) :
    plan.Placed operators parent port path := by
  induction plan generalizing parent port path with
  | select id affected projection =>
      have hget := Operators.get_of_mem hids (hsubset (List.mem_singleton_self _))
      rw [Nat.mod_eq_of_lt hparent.2] at hget
      exact ⟨hget, hpath _ (by omega)⟩
  | join id leftColumn rightColumn projection left right ihLeft ihRight =>
      obtain ⟨hid, hleft, hright⟩ := forall_mem_inner.1 hparents
      have hget := Operators.get_of_mem hids (hsubset List.mem_cons_self)
      rw [Nat.mod_eq_of_lt hparent.2] at hget
      have hsubsetLeft : left.operators id .left ⊆ operators := fun op hop =>
        hsubset (List.mem_cons_of_mem _ (List.mem_append_left _ hop))
      have hsubsetRight : right.operators id .right ⊆ operators := fun op hop =>
        hsubset (List.mem_cons_of_mem _ (List.mem_append_right _ hop))
      -- the path below this join is one step longer
      have hstep : ∀ fuel, (path.length + 1) ≤ fuel → operators.above fuel id =
          ⟨id, .simpleLocalJoin leftColumn rightColumn, parent, port, projection⟩ :: path := by
        intro fuel hfuel
        obtain ⟨fuel, rfl⟩ : ∃ rest, fuel = rest + 1 := ⟨fuel - 1, by omega⟩
        unfold Operators.above
        rw [hget]
        simp only
        rw [if_neg (by omega), hpath fuel (by omega)]
      simp only [Plan.operators, List.length_cons, List.length_append] at hlength
      refine ⟨?_, ?_, ?_, ?_⟩
      · obtain ⟨op, hop, -, hparentId, hport, hprojection⟩ := left.exists_top id .left
        rw [← hprojection, ← Operators.child_of_mem hplaces (hsubsetLeft hop), hparentId, hport,
          Nat.mod_eq_of_lt hid.2]
      · obtain ⟨op, hop, -, hparentId, hport, hprojection⟩ := right.exists_top id .right
        rw [← hprojection, ← Operators.child_of_mem hplaces (hsubsetRight hop), hparentId, hport,
          Nat.mod_eq_of_lt hid.2]
      · exact ihLeft hleft hid
          (by simpa using hstep) (by simp only [List.length_cons]; omega) hsubsetLeft
      · exact ihRight hright hid
          (by simpa using hstep) (by simp only [List.length_cons]; omega) hsubsetRight

/-- The root. -/
def QueryPlan.rootOperator (query : QueryPlan) : Operator :=
  ⟨query.root, .collect, 0, .left, []⟩

namespace QueryPlan.Numbered

variable {query : QueryPlan}

theorem nodup_ids (hnumbered : query.Numbered) : (query.operators.map Operator.id).Nodup := by
  have hperm : (query.operators.map Operator.id).Perm
      (query.root :: (query.plan.inner ++ query.plan.leaves)) :=
    (query.plan.perm_ids query.root .left).cons query.root
  exact hperm.nodup_iff.2 hnumbered.distinct

theorem nodup_places (hnumbered : query.Numbered) :
    (query.operators.map Operator.place).Nodup := by
  have hinner : (query.root :: query.plan.inner).Nodup := by
    have hdistinct := hnumbered.distinct
    rw [← List.cons_append, List.nodup_append'] at hdistinct
    exact hdistinct.1
  have hroot : query.root < 128 := hnumbered.parents _ List.mem_cons_self
  have hparents : ∀ id ∈ query.plan.inner, id < 128 := fun id hid =>
    hnumbered.parents id (List.mem_cons_of_mem _ hid)
  refine List.nodup_cons.2 ⟨?_, Plan.nodup_places hparents hroot hinner⟩
  rw [List.mem_map]
  rintro ⟨op, hop, hplace⟩
  have hzero : op.parentId = 0 := congrArg Prod.fst hplace
  have hmem : op.parentId ∈ query.root :: (query.plan.inner ++ query.plan.leaves) := by
    rcases Plan.place_mem hparents hroot hop with hother | hmem
    · exact List.mem_cons.2 (.inl (congrArg Prod.fst hother))
    · exact List.mem_cons_of_mem _ (List.mem_append_left _ hmem)
  have hpositive := hnumbered.positive _ hmem
  omega

theorem placed (hnumbered : query.Numbered) :
    query.plan.Placed query.operators query.root .left [query.rootOperator] := by
  have hroot : query.rootOperator ∈ query.operators := List.mem_cons_self
  have hget : query.operators.get query.root = some query.rootOperator :=
    Operators.get_of_mem hnumbered.nodup_ids hroot
  apply Plan.placed_of_subset hnumbered.nodup_ids hnumbered.nodup_places
  · exact fun id hid => ⟨hnumbered.positive id (List.mem_cons_of_mem _
      (List.mem_append_left _ hid)), hnumbered.parents id (List.mem_cons_of_mem _ hid)⟩
  · exact ⟨hnumbered.positive _ List.mem_cons_self, hnumbered.parents _ List.mem_cons_self⟩
  · intro fuel hfuel
    obtain ⟨fuel, rfl⟩ : ∃ rest, fuel = rest + 1 := ⟨fuel - 1, by simp at hfuel; omega⟩
    unfold Operators.above
    rw [hget]
    rfl
  · simp [QueryPlan.operators, Nat.add_comm]
  · exact fun op hop => List.mem_cons_of_mem _ hop

end QueryPlan.Numbered

end Wiselib.Inqp
