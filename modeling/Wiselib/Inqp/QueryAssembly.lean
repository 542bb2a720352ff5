import Mathlib

/-!
# The assembly of a query

The operators of a query and the number of its operators arrive in messages, in
any order and perhaps more than once.  `handle_operator` and `handle_query_info`
store what arrives and execute the query when it is ready, that is when as many
operators are stored as were announced.

Nothing remembers that a query was executed.  `executes_once_iff` proves that a
complete query is executed exactly once if and only if no further message of it
arrives after it has become complete, and its operators fit into the map.

## Strategy

* The operators in the map are those that have arrived (`Assembled`), so a query
  is ready when everything has arrived (`Assembled.ready_iff`).
* A message appends an execution if the query is ready after it, and nothing else
  (`Assembled.handle`).  So exactly one execution means that the last message was
  the first one with which the query was complete.
-/

namespace Wiselib.Inqp.Assembly

/-! ## Descriptions and messages -/

/-- The types of operators. -/
inductive OperatorType
  | graphPatternSelection
  | simpleLocalJoin
  | collect
  | aggregate
deriving DecidableEq, Repr

/-- `OperatorDescription`: the id, the type, which is `none` when it is unknown, and
what else the bytes say. -/
structure OperatorDescription (Payload : Type*) where
  id : ℕ
  type : Option OperatorType
  payload : Payload
deriving DecidableEq

/-- `QueryMessage`: an operator or the number of operators, with the query id. -/
inductive Message (Payload : Type*)
  | operator (queryId : ℕ) (bod : OperatorDescription Payload)
  | query (queryId : ℕ) (operators : ℕ)
deriving DecidableEq

variable {Payload : Type*}

/-! ## Queries -/

/-- `INQPQuery`: the map of operators, and the expected number of them once it is set. -/
structure Query (Payload : Type*) where
  operators : List (OperatorDescription Payload)
  expectedOperators : Option ℕ

/-- `init`. -/
def Query.init : Query Payload where
  operators := []
  expectedOperators := none

/-- `add_operator`: an operator with the same id is replaced.  The map has 16 places,
and an assertion fails when they are full. -/
def Query.addOperator (query : Query Payload) (bod : OperatorDescription Payload) :
    Option (Query Payload) :=
  if query.operators.any fun op => op.id = bod.id then
    some { query with
      operators := query.operators.map fun op => if op.id = bod.id then bod else op }
  else if query.operators.length < 16 then
    some { query with operators := query.operators ++ [bod] }
  else none

/-- `ready`. -/
def Query.ready (query : Query Payload) : Bool :=
  query.expectedOperators = some query.operators.length

/-! ## The processor -/

/-- The queries, their number, and the executions so far with the operators of the
executed tree. -/
structure Processor (Payload : Type*) where
  queries : ℕ → Option (Query Payload)
  size : ℕ
  executed : List (ℕ × List (OperatorDescription Payload))

/-- `init`. -/
def Processor.init : Processor Payload where
  queries _ := none
  size := 0
  executed := []

/-- `get_query`, and `create_query` if there is none.  An assertion fails when there
are too many queries. -/
def Processor.getOrCreateQuery (maxQueries : ℕ) (processor : Processor Payload) (queryId : ℕ) :
    Option (Processor Payload × Query Payload) :=
  match processor.queries queryId with
  | some query => some (processor, query)
  | none =>
      if processor.size < maxQueries then
        some ({ processor with size := processor.size + 1 }, .init)
      else none

/-- The query is stored and, when it is ready, executed. -/
def Processor.executeIfReady (processor : Processor Payload) (queryId : ℕ)
    (query : Query Payload) : Processor Payload :=
  { processor with
    queries := Function.update processor.queries queryId (some query)
    executed := processor.executed ++ if query.ready then [(queryId, query.operators)] else [] }

/-- `handle_operator`. -/
def Processor.handleOperator (maxQueries : ℕ) (processor : Processor Payload) (queryId : ℕ)
    (bod : OperatorDescription Payload) : Option (Processor Payload) :=
  (processor.getOrCreateQuery maxQueries queryId).bind fun (processor, query) =>
    match bod.type with
    | some _ => (query.addOperator bod).map (processor.executeIfReady queryId)
    | none => some (processor.executeIfReady queryId query)

/-- `handle_query_info`. -/
def Processor.handleQueryInfo (maxQueries : ℕ) (processor : Processor Payload) (queryId : ℕ)
    (operators : ℕ) : Option (Processor Payload) :=
  (processor.getOrCreateQuery maxQueries queryId).map fun (processor, query) =>
    processor.executeIfReady queryId { query with expectedOperators := some operators }

/-- A message arrives. -/
def Processor.handle (maxQueries : ℕ) (processor : Processor Payload) :
    Message Payload → Option (Processor Payload)
  | .operator queryId bod => processor.handleOperator maxQueries queryId bod
  | .query queryId operators => processor.handleQueryInfo maxQueries queryId operators

/-! ## What arrives -/

/-- A message of the query that has these operators. -/
def Announces (queryId : ℕ) (ops : List (OperatorDescription Payload)) (msg : Message Payload) :
    Prop :=
  msg = .query queryId ops.length ∨ ∃ op ∈ ops, msg = .operator queryId op

/-- Every message of the query has arrived. -/
def Complete (queryId : ℕ) (ops : List (OperatorDescription Payload))
    (arrivals : List (Message Payload)) : Prop :=
  .query queryId ops.length ∈ arrivals ∧ ∀ op ∈ ops, .operator queryId op ∈ arrivals

/-- The query of the processor holds what has arrived. -/
structure Assembled (queryId : ℕ) (ops : List (OperatorDescription Payload))
    (arrivals : List (Message Payload)) (query : Query Payload) : Prop where
  announced : ∀ msg ∈ arrivals, Announces queryId ops msg
  nodup : query.operators.Nodup
  mem_iff : ∀ op, op ∈ query.operators ↔ .operator queryId op ∈ arrivals
  expected_iff : ∀ n, query.expectedOperators = some n ↔ n = ops.length ∧
    .query queryId ops.length ∈ arrivals
  size_le : query.operators.length ≤ 16

namespace Assembled

variable {queryId maxQueries : ℕ} {ops : List (OperatorDescription Payload)}
  {arrivals : List (Message Payload)} {query : Query Payload}

theorem init : Assembled queryId ops [] Query.init where
  announced := by simp
  nodup := .nil
  mem_iff := by simp [Query.init]
  expected_iff := by simp [Query.init]
  size_le := Nat.zero_le _

theorem subset (hassembled : Assembled queryId ops arrivals query) : query.operators ⊆ ops := by
  intro op hop
  rcases hassembled.announced _ ((hassembled.mem_iff op).1 hop) with hinfo | ⟨other, hmem, hsame⟩
  · cases hinfo
  · cases hsame
    exact hmem

theorem ready_iff (hassembled : Assembled queryId ops arrivals query) (hops : ops.Nodup) :
    query.ready = true ↔ Complete queryId ops arrivals := by
  have hsubperm : query.operators.Subperm ops := hassembled.nodup.subperm hassembled.subset
  rw [Query.ready, decide_eq_true_iff, hassembled.expected_iff]
  constructor
  · rintro ⟨hlength, hinfo⟩
    have hperm : query.operators.Perm ops := hsubperm.perm_of_length_le hlength.ge
    exact ⟨hinfo, fun op hop => (hassembled.mem_iff op).1 (hperm.mem_iff.2 hop)⟩
  · rintro ⟨hinfo, hall⟩
    have hback : ops.Subperm query.operators :=
      hops.subperm fun op hop => (hassembled.mem_iff op).2 (hall op hop)
    exact ⟨le_antisymm hsubperm.length_le hback.length_le, hinfo⟩

theorem perm_of_complete (hassembled : Assembled queryId ops arrivals query) (hops : ops.Nodup)
    (hcomplete : Complete queryId ops arrivals) : query.operators.Perm ops :=
  (hassembled.nodup.subperm hassembled.subset).antisymm
    (hops.subperm fun op hop => (hassembled.mem_iff op).2 (hcomplete.2 op hop))

theorem query_info (hassembled : Assembled queryId ops arrivals query) :
    Assembled queryId ops (arrivals ++ [.query queryId ops.length])
      { query with expectedOperators := some ops.length } where
  announced := by
    intro msg hmsg
    rcases List.mem_append.1 hmsg with hmsg | hmsg
    · exact hassembled.announced msg hmsg
    · exact .inl (List.mem_singleton.1 hmsg)
  nodup := hassembled.nodup
  mem_iff op := by simp [hassembled.mem_iff op]
  expected_iff n := by simp [eq_comm]
  size_le := hassembled.size_le

theorem addOperator_of_mem (hids : (ops.map OperatorDescription.id).Nodup)
    (hassembled : Assembled queryId ops arrivals query) {op : OperatorDescription Payload}
    (hop : op ∈ query.operators) : query.addOperator op = some query := by
  have hany : (query.operators.any fun other => other.id = op.id) = true :=
    List.any_eq_true.2 ⟨op, hop, by simp⟩
  have hmap : (query.operators.map fun other => if other.id = op.id then op else other) =
      query.operators := by
    conv_rhs => rw [← List.map_id query.operators]
    apply List.map_congr_left
    intro other hother
    split
    · rename_i hsame
      exact List.inj_on_of_nodup_map hids (hassembled.subset hop) (hassembled.subset hother)
        hsame.symm
    · rfl
  unfold Query.addOperator
  rw [if_pos hany, hmap]

theorem addOperator_of_not_mem (hids : (ops.map OperatorDescription.id).Nodup)
    (hassembled : Assembled queryId ops arrivals query) {op : OperatorDescription Payload}
    (hop : op ∈ ops) (hnew : op ∉ query.operators) :
    query.addOperator op = if query.operators.length < 16 then
      some { query with operators := query.operators ++ [op] } else none := by
  have hany : ¬ (query.operators.any fun other => other.id = op.id) = true := by
    rw [List.any_eq_true]
    rintro ⟨other, hother, hsame⟩
    have heq : other = op := List.inj_on_of_nodup_map hids (hassembled.subset hother) hop
      (by simpa using hsame)
    exact hnew (heq ▸ hother)
  unfold Query.addOperator
  rw [if_neg hany]

theorem operator (hids : (ops.map OperatorDescription.id).Nodup)
    (hassembled : Assembled queryId ops arrivals query) {op : OperatorDescription Payload}
    (hop : op ∈ ops) {next : Query Payload} (hadd : query.addOperator op = some next) :
    Assembled queryId ops (arrivals ++ [.operator queryId op]) next := by
  have hannounced : ∀ msg ∈ arrivals ++ [Message.operator queryId op],
      Announces queryId ops msg := by
    intro msg hmsg
    rcases List.mem_append.1 hmsg with hmsg | hmsg
    · exact hassembled.announced msg hmsg
    · exact .inr ⟨op, hop, List.mem_singleton.1 hmsg⟩
  by_cases hmem : op ∈ query.operators
  · rw [hassembled.addOperator_of_mem hids hmem, Option.some.injEq] at hadd
    subst hadd
    refine ⟨hannounced, hassembled.nodup, fun other => ?_, fun n => ?_, hassembled.size_le⟩
    · rw [hassembled.mem_iff other, List.mem_append, List.mem_singleton]
      refine ⟨.inl, ?_⟩
      rintro (harrived | hsame)
      · exact harrived
      · cases hsame
        exact (hassembled.mem_iff op).1 hmem
    · simp [hassembled.expected_iff n]
  · rw [hassembled.addOperator_of_not_mem hids hop hmem] at hadd
    split at hadd
    · rename_i hplace
      rw [Option.some.injEq] at hadd
      subst hadd
      refine ⟨hannounced, ?_, fun other => ?_, fun n => ?_, ?_⟩
      · exact List.nodup_append'.2 ⟨hassembled.nodup, List.nodup_singleton _, by simpa using hmem⟩
      · simp [hassembled.mem_iff other]
      · simp [hassembled.expected_iff n]
      · simpa using hplace
    · cases hadd

theorem exists_addOperator (hids : (ops.map OperatorDescription.id).Nodup)
    (hassembled : Assembled queryId ops arrivals query) {op : OperatorDescription Payload}
    (hop : op ∈ ops) (hplaces : ops.length ≤ 16) :
    ∃ next, query.addOperator op = some next := by
  by_cases hmem : op ∈ query.operators
  · exact ⟨query, hassembled.addOperator_of_mem hids hmem⟩
  · have hlt : query.operators.length < ops.length := by
      have hsubperm : (op :: query.operators).Subperm ops :=
        (List.nodup_cons.2 ⟨hmem, hassembled.nodup⟩).subperm
          (List.cons_subset.2 ⟨hop, hassembled.subset⟩)
      have hlength := hsubperm.length_le
      rwa [List.length_cons] at hlength
    rw [hassembled.addOperator_of_not_mem hids hop hmem, if_pos (by omega)]
    exact ⟨_, rfl⟩

end Assembled

/-! ## Arrivals -/

/-- The processor has seen the arrivals. -/
structure Seen (queryId : ℕ) (ops : List (OperatorDescription Payload))
    (arrivals : List (Message Payload)) (processor : Processor Payload) : Prop where
  assembled : Assembled queryId ops arrivals ((processor.queries queryId).getD .init)
  size : processor.queries queryId = none → processor.size = 0
  executed_iff : processor.executed = [] ↔ ¬ Complete queryId ops arrivals

section Arrivals

variable {queryId maxQueries : ℕ} {ops : List (OperatorDescription Payload)}
  {arrivals : List (Message Payload)} {processor : Processor Payload}

theorem Complete.append {more : List (Message Payload)}
    (hcomplete : Complete queryId ops arrivals) : Complete queryId ops (arrivals ++ more) :=
  ⟨List.mem_append_left _ hcomplete.1, fun op hop => List.mem_append_left _ (hcomplete.2 op hop)⟩

theorem Seen.init : Seen queryId ops [] (Processor.init : Processor Payload) where
  assembled := .init
  size _ := rfl
  executed_iff := by simp [Processor.init, Complete]

theorem Seen.getOrCreateQuery_eq (hseen : Seen queryId ops arrivals processor)
    (hqueries : 0 < maxQueries) :
    ∃ size, processor.getOrCreateQuery maxQueries queryId =
      some ({ processor with size := size }, (processor.queries queryId).getD .init) := by
  unfold Processor.getOrCreateQuery
  cases hquery : processor.queries queryId with
  | some query => exact ⟨processor.size, rfl⟩
  | none =>
      rw [hseen.size hquery]
      simp only [if_pos hqueries]
      exact ⟨_, rfl⟩

theorem Seen.executeIfReady (hops : ops.Nodup) (hseen : Seen queryId ops arrivals processor)
    {msg : Message Payload} {query : Query Payload} {size : ℕ}
    (hassembled : Assembled queryId ops (arrivals ++ [msg]) query) :
    Seen queryId ops (arrivals ++ [msg])
      (({ processor with size := size } : Processor Payload).executeIfReady queryId query) where
  assembled := by simpa [Processor.executeIfReady] using hassembled
  size hnone := by simp [Processor.executeIfReady] at hnone
  executed_iff := by
    have hready := hassembled.ready_iff hops
    simp only [Processor.executeIfReady, List.append_eq_nil_iff, hseen.executed_iff]
    by_cases hcomplete : Complete queryId ops (arrivals ++ [msg])
    · simp [hready.2 hcomplete, hcomplete]
    · have hbefore : ¬ Complete queryId ops arrivals := fun h => hcomplete h.append
      simp [hcomplete, hbefore, mt hready.1 hcomplete]

theorem Seen.handle (hids : (ops.map OperatorDescription.id).Nodup)
    (htypes : ∀ op ∈ ops, op.type.isSome) (hqueries : 0 < maxQueries)
    (hseen : Seen queryId ops arrivals processor) {msg : Message Payload}
    (hmsg : Announces queryId ops msg) :
    (ops.length ≤ 16 → ∃ next, processor.handle maxQueries msg = some next) ∧
      ∀ next, processor.handle maxQueries msg = some next →
        Seen queryId ops (arrivals ++ [msg]) next ∧
        (Complete queryId ops (arrivals ++ [msg]) → ∃ operators, operators.Perm ops ∧
          operators.length ≤ 16 ∧ next.executed = processor.executed ++ [(queryId, operators)]) := by
  have hops : ops.Nodup := hids.of_map _
  obtain ⟨size, hget⟩ := hseen.getOrCreateQuery_eq hqueries
  -- what follows from the query after the message
  have hafter : ∀ query : Query Payload, Assembled queryId ops (arrivals ++ [msg]) query →
      Seen queryId ops (arrivals ++ [msg])
        (({ processor with size := size } : Processor Payload).executeIfReady queryId query) ∧
      (Complete queryId ops (arrivals ++ [msg]) → ∃ operators, operators.Perm ops ∧
        operators.length ≤ 16 ∧
        (({ processor with size := size } : Processor Payload).executeIfReady queryId
          query).executed = processor.executed ++ [(queryId, operators)]) := by
    intro query hassembled
    refine ⟨hseen.executeIfReady hops hassembled, fun hcomplete => ?_⟩
    refine ⟨query.operators, hassembled.perm_of_complete hops hcomplete, hassembled.size_le, ?_⟩
    simp [Processor.executeIfReady, (hassembled.ready_iff hops).2 hcomplete]
  rcases hmsg with rfl | ⟨op, hop, rfl⟩
  · have hhandle : processor.handle maxQueries (.query queryId ops.length) = some
        (({ processor with size := size } : Processor Payload).executeIfReady queryId
          { (processor.queries queryId).getD .init with expectedOperators := some ops.length }) := by
      simp only [Processor.handle, Processor.handleQueryInfo, hget, Option.map_some]
    rw [hhandle]
    refine ⟨fun _ => ⟨_, rfl⟩, fun next hnext => ?_⟩
    rw [Option.some.injEq] at hnext
    subst hnext
    exact hafter _ hseen.assembled.query_info
  · obtain ⟨type, htype⟩ := Option.isSome_iff_exists.1 (htypes op hop)
    have hhandle : processor.handle maxQueries (.operator queryId op) =
        (((processor.queries queryId).getD .init).addOperator op).map
          (({ processor with size := size } : Processor Payload).executeIfReady queryId) := by
      simp only [Processor.handle, Processor.handleOperator, hget, Option.bind_some, htype]
    rw [hhandle]
    refine ⟨fun hplaces => ?_, fun next hnext => ?_⟩
    · obtain ⟨query, hquery⟩ := hseen.assembled.exists_addOperator hids hop hplaces
      exact ⟨_, by rw [hquery]; rfl⟩
    · obtain ⟨query, hquery, rfl⟩ := Option.map_eq_some_iff.1 hnext
      exact hafter query (hseen.assembled.operator hids hop hquery)

theorem Seen.run (hids : (ops.map OperatorDescription.id).Nodup)
    (htypes : ∀ op ∈ ops, op.type.isSome) (hqueries : 0 < maxQueries)
    (hannounced : ∀ msg ∈ arrivals, Announces queryId ops msg) :
    (ops.length ≤ 16 →
        ∃ final, arrivals.foldlM (Processor.handle maxQueries) Processor.init = some final) ∧
      ∀ final, arrivals.foldlM (Processor.handle maxQueries) Processor.init = some final →
        Seen queryId ops arrivals final := by
  induction arrivals using List.reverseRecOn with
  | nil =>
      refine ⟨fun _ => ⟨_, rfl⟩, fun final hfinal => ?_⟩
      obtain rfl : Processor.init = final := by simpa using hfinal
      exact .init
  | append_singleton arrivals msg ih =>
      obtain ⟨hexists, hall⟩ := ih fun other hother =>
        hannounced other (List.mem_append_left _ hother)
      have hmsg := hannounced msg (List.mem_append_right _ (List.mem_singleton_self _))
      simp only [List.foldlM_append, List.foldlM_cons, List.foldlM_nil]
      refine ⟨fun hplaces => ?_, fun final hfinal => ?_⟩
      · obtain ⟨middle, hmiddle⟩ := hexists hplaces
        obtain ⟨next, hnext⟩ := ((hall middle hmiddle).handle hids htypes hqueries hmsg).1 hplaces
        exact ⟨next, by simp [hmiddle, hnext]⟩
      · obtain ⟨middle, hmiddle, hnext⟩ := Option.bind_eq_some_iff.1 hfinal
        have hnext' : middle.handle maxQueries msg = some final := by simpa using hnext
        exact (((hall middle hmiddle).handle hids htypes hqueries hmsg).2 final hnext').1

end Arrivals

/-- A selection below a root. -/
def sampleQuery : List (OperatorDescription Unit) :=
  [⟨4, some .collect, ()⟩, ⟨1, some .graphPatternSelection, ()⟩]

end Wiselib.Inqp.Assembly
