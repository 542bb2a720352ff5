import Wiselib.Inqp.Row

/-!
# The query processor

A query is a map from ids to operators.  `build_tree` attaches every operator to
its parent, and `execute` runs the operators in the order of their ids.  A graph
pattern selection pushes the rows of the tuples that match its pattern to its
parent, and then an end of input.  A simple local join stores what it receives on
its left port and compares each row of its right port with what it has stored; on
an end of input on its right port it forgets the stored rows and passes the end
of input on.  The root collects.

All pushes happen within the execution of a selection, so a push is a function of
the operators above.  The parent id of a description has seven bits.
-/

namespace Wiselib.Inqp

/-! ## Operators -/

/-- `CHILD_LEFT` and `CHILD_RIGHT`. -/
inductive Port
  | left
  | right
deriving DecidableEq, Repr

/-- The types of operators with what each of them is told: the values that the
three elements of a tuple must have, and the columns that are compared. -/
inductive OperatorKind
  | graphPatternSelection (affected : Fin 3 → Option Value)
  | simpleLocalJoin (leftColumn rightColumn : ℕ)
  | collect

/-- `Operator`. -/
structure Operator where
  id : ℕ
  kind : OperatorKind
  parentId : ℕ
  parentPort : Port
  projection : ProjectionInfo

/-- `operators_`. -/
abbrev Operators := List Operator

/-- `find` of the map. -/
def Operators.get (operators : Operators) (id : ℕ) : Option Operator :=
  operators.find? fun op => op.id = id

/-- `child`: the projection of the operator that `build_tree` attached to the port. -/
def Operators.child (operators : Operators) (id : ℕ) (port : Port) : ProjectionInfo :=
  match operators.find? fun op => op.parentId = id ∧ op.parentPort = port with
  | some op => op.projection
  | none => []

/-- The operators from this one up to the root, which has no parent. -/
def Operators.above (operators : Operators) : ℕ → ℕ → List Operator
  | 0, _ => []
  | fuel + 1, id =>
      match operators.get id with
      | none => []
      | some op => op :: if op.parentId = 0 then [] else operators.above fuel op.parentId

/-! ## Joins -/

/-- The stored row and the row have the same value in the columns that are compared. -/
def joins (floatLess : Value → Value → Bool) (l : ProjectionInfo) (leftColumn rightColumn : ℕ)
    (stored row : Row) : Bool :=
  compareValues floatLess (l.resultType leftColumn) (stored.getD leftColumn 0)
    (row.getD rightColumn 0) = 0

/-- The result of a stored row and a row: the columns of both that are not ignored. -/
def joinRow (projection l r : ProjectionInfo) (stored row : Row) : Row :=
  (((List.range l.columns).filter fun i => projection.type i ≠ .ignore).map fun i =>
      stored.getD i 0) ++
    (((List.range r.columns).filter fun i => projection.type (l.columns + i) ≠ .ignore).map fun i =>
      row.getD i 0)

/-- The results of a row of the right port. -/
def joinResults (floatLess : Value → Value → Bool) (projection l r : ProjectionInfo)
    (leftColumn rightColumn : ℕ) (table : List Row) (row : Row) : List Row :=
  (table.filter fun stored => joins floatLess l leftColumn rightColumn stored row).map fun stored =>
    joinRow projection l r stored row

/-! ## Pushing -/

/-- The number of rows that a `Table` can take: behind them its capacity of 16
bits is zero again, and the next row is written behind a buffer of four rows. -/
def tableLimit : ℕ := 32769

/-- The tables of the joins, whether one of them was written behind its buffer,
and what the root received, with `none` for the end of input. -/
structure State where
  tables : ℕ → List Row
  overrun : Bool
  delivered : List (Option Row)

/-- `insert` of the table of a join. -/
def State.insert (id : ℕ) (row : Row) (state : State) : State :=
  { state with
    tables := Function.update state.tables id (state.tables id ++ [row])
    overrun := state.overrun || decide (tableLimit ≤ (state.tables id).length) }

/-- `clear` of the table of a join. -/
def State.clear (id : ℕ) (state : State) : State :=
  { state with tables := Function.update state.tables id [] }

/-- `push` of the first of the operators, which pushes to the next one.  An end of
input is the row `none`. -/
def push (floatLess : Value → Value → Bool) (operators : Operators) :
    List Operator → Port → Option Row → State → State
  | [], _, _, state => state
  | op :: above, port, row, state =>
      match op.kind with
      | .graphPatternSelection _ => state
      | .collect => { state with delivered := state.delivered ++ [row] }
      | .simpleLocalJoin leftColumn rightColumn =>
          match port, row with
          | .left, some row => state.insert op.id row
          | .left, none => state
          | .right, some row =>
              (joinResults floatLess op.projection (operators.child op.id .left)
                (operators.child op.id .right) leftColumn rightColumn (state.tables op.id)
                row).foldl
                  (fun state result => push floatLess operators above op.parentPort (some result)
                    state) state
          | .right, none =>
              push floatLess operators above op.parentPort none (state.clear op.id)

/-! ## Execution -/

/-- What the elements of tuples are as values: the hash that the translator gives,
and the numbers that `atol` and `atof` read.  The order of floats is here as well. -/
structure Readings (Element : Type*) where
  translate : Element → Value
  atol : Element → Value
  atof : Element → Value
  floatLess : Value → Value → Bool

variable {Element : Type*}

/-- One column of a row. -/
def Readings.column (readings : Readings Element) (element : Element) : TypeInfo → Row
  | .ignore => []
  | .integer => [readings.atol element]
  | .float => [readings.atof element]
  | .string => [readings.translate element]

/-- The loop over the columns of a tuple, which ends where a value does not match. -/
def selectColumns (readings : Readings Element) (affected : Fin 3 → Option Value)
    (projection : ProjectionInfo) (tuple : Fin 3 → Element) : List (Fin 3) → Option Row
  | [] => some []
  | i :: rest =>
      match affected i with
      | some value =>
          if value ≠ readings.translate (tuple i) then none
          else (selectColumns readings affected projection tuple rest).map fun row =>
            readings.column (tuple i) (projection.type i) ++ row
      | none => (selectColumns readings affected projection tuple rest).map fun row =>
          readings.column (tuple i) (projection.type i) ++ row

/-- The rows of the tuples that match. -/
def selectRows (readings : Readings Element) (affected : Fin 3 → Option Value)
    (projection : ProjectionInfo) (store : List (Fin 3 → Element)) : List Row :=
  store.filterMap fun tuple => selectColumns readings affected projection tuple [0, 1, 2]

/-- The round of `execute` for an id.  The `execute` of a join and of the root does
nothing. -/
def executeOperator (readings : Readings Element) (operators : Operators)
    (store : List (Fin 3 → Element)) (id : ℕ) (state : State) : State :=
  match operators.get id with
  | none => state
  | some op =>
      match op.kind with
      | .simpleLocalJoin _ _ => state
      | .collect => state
      | .graphPatternSelection affected =>
          let above := operators.above operators.length op.parentId
          let state := (selectRows readings affected op.projection store).foldl
            (fun state row => push readings.floatLess operators above op.parentPort (some row)
              state) state
          push readings.floatLess operators above op.parentPort none state

/-- Before the execution. -/
def State.initial : State where
  tables _ := []
  overrun := false
  delivered := []

/-- `execute`, with `MAX_OPERATOR_ID = 255`. -/
def execute (readings : Readings Element) (operators : Operators)
    (store : List (Fin 3 → Element)) : State :=
  (List.range 255).foldl (fun state id => executeOperator readings operators store id state)
    .initial

/-! ## Queries as trees -/

/-- The operators below the root as a tree, with their ids. -/
inductive Plan
  | select (id : ℕ) (affected : Fin 3 → Option Value) (projection : ProjectionInfo)
  | join (id : ℕ) (leftColumn rightColumn : ℕ) (projection : ProjectionInfo) (left right : Plan)

/-- The id of the topmost operator. -/
def Plan.id : Plan → ℕ
  | .select id _ _ => id
  | .join id _ _ _ _ _ => id

/-- The projection of the topmost operator. -/
def Plan.projection : Plan → ProjectionInfo
  | .select _ _ projection => projection
  | .join _ _ _ projection _ _ => projection

/-- The ids of the selections, from left to right. -/
def Plan.leaves : Plan → List ℕ
  | .select id _ _ => [id]
  | .join _ _ _ _ left right => left.leaves ++ right.leaves

/-- The ids of the joins. -/
def Plan.inner : Plan → List ℕ
  | .select _ _ _ => []
  | .join id _ _ _ left right => id :: (left.inner ++ right.inner)

/-- The operator descriptions of a plan below a parent. -/
def Plan.operators (parent : ℕ) (port : Port) : Plan → Operators
  | .select id affected projection =>
      [⟨id, .graphPatternSelection affected, parent % 128, port, projection⟩]
  | .join id leftColumn rightColumn projection left right =>
      ⟨id, .simpleLocalJoin leftColumn rightColumn, parent % 128, port, projection⟩ ::
        (left.operators id .left ++ right.operators id .right)

/-- A query: the plan below a root that collects. -/
structure QueryPlan where
  root : ℕ
  plan : Plan

/-- The operator descriptions of a query. -/
def QueryPlan.operators (query : QueryPlan) : Operators :=
  ⟨query.root, .collect, 0, .left, []⟩ :: query.plan.operators query.root .left

/-- The ids are an assignment that a query can hold: they are distinct, not zero
and below 255, the parent ids fit into seven bits, and the map has 16 places. -/
structure QueryPlan.Numbered (query : QueryPlan) : Prop where
  distinct : (query.root :: (query.plan.inner ++ query.plan.leaves)).Nodup
  positive : ∀ id ∈ query.root :: (query.plan.inner ++ query.plan.leaves), 0 < id
  below : ∀ id ∈ query.root :: (query.plan.inner ++ query.plan.leaves), id < 255
  parents : ∀ id ∈ query.root :: query.plan.inner, id < 128
  places : (query.root :: (query.plan.inner ++ query.plan.leaves)).length ≤ 16

end Wiselib.Inqp
