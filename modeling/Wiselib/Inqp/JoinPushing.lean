import Wiselib.Inqp.QueryProcessor

/-!
# Pushing rows into a join

A push of the rows of the left child fills the table of a join (`pushRows_left`).  A
push of the rows of the right child and of the end of input is a push of the rows
that join and of the end of input by the join itself (`emit_right`).  For this a push
must leave the tables alone that it does not pass.
-/

namespace Wiselib.Inqp

/-! ## Pushing rows -/

section Pushing

variable {floatLess : Value → Value → Bool} {operators : Operators}

/-- The pushes of rows. -/
def pushRows (floatLess : Value → Value → Bool) (operators : Operators) (path : List Operator)
    (port : Port) (rows : List Row) (state : State) : State :=
  rows.foldl (fun state row => push floatLess operators path port (some row) state) state

/-- The pushes of rows and of the end of input. -/
def emit (floatLess : Value → Value → Bool) (operators : Operators) (path : List Operator)
    (port : Port) (rows : List Row) (state : State) : State :=
  push floatLess operators path port none (pushRows floatLess operators path port rows state)

@[simp]
theorem pushRows_cons {path : List Operator} {port : Port} {row : Row} {rows : List Row}
    {state : State} : pushRows floatLess operators path port (row :: rows) state =
      pushRows floatLess operators path port rows
        (push floatLess operators path port (some row) state) :=
  rfl

theorem pushRows_append {path : List Operator} {port : Port} {first second : List Row}
    {state : State} : pushRows floatLess operators path port (first ++ second) state =
      pushRows floatLess operators path port second
        (pushRows floatLess operators path port first state) :=
  List.foldl_append

theorem push_tables {path : List Operator} {port : Port} {row : Option Row} {state : State}
    {id : ℕ} (hid : id ∉ path.map Operator.id) :
    (push floatLess operators path port row state).tables id = state.tables id := by
  induction path generalizing port row state with
  | nil => rfl
  | cons op above ih =>
      rw [List.map_cons, List.mem_cons, not_or] at hid
      obtain ⟨hne, habove⟩ := hid
      unfold push
      cases op.kind with
      | graphPatternSelection affected => rfl
      | collect => rfl
      | simpleLocalJoin leftColumn rightColumn =>
          cases port with
          | left =>
              cases row with
              | none => rfl
              | some row => exact Function.update_of_ne hne _ _
          | right =>
              cases row with
              | none =>
                  rw [ih habove]
                  exact Function.update_of_ne hne _ _
              | some row =>
                  simp only
                  generalize joinResults _ _ _ _ _ _ _ _ = results
                  induction results generalizing state with
                  | nil => rfl
                  | cons result results ihResults =>
                      rw [List.foldl_cons, ihResults, ih habove]

theorem pushRows_tables {path : List Operator} {port : Port} {rows : List Row} {state : State}
    {id : ℕ} (hid : id ∉ path.map Operator.id) :
    (pushRows floatLess operators path port rows state).tables id = state.tables id := by
  induction rows generalizing state with
  | nil => rfl
  | cons row rows ih => rw [pushRows_cons, ih, push_tables hid]

theorem State.insert_clear {state : State} {id other : ℕ} {row : Row} (hne : id ≠ other) :
    (state.clear id).insert other row = (state.insert other row).clear id := by
  unfold State.insert State.clear
  simp only [Function.update_of_ne hne.symm]
  rw [Function.update_comm hne]

theorem State.clear_clear {state : State} {id other : ℕ} (hne : id ≠ other) :
    (state.clear id).clear other = (state.clear other).clear id := by
  unfold State.clear
  simp only [Function.update_comm hne]

theorem push_clear {path : List Operator} {port : Port} {row : Option Row} {state : State}
    {id : ℕ} (hid : id ∉ path.map Operator.id) :
    push floatLess operators path port row (state.clear id) =
      (push floatLess operators path port row state).clear id := by
  induction path generalizing port row state with
  | nil => rfl
  | cons op above ih =>
      rw [List.map_cons, List.mem_cons, not_or] at hid
      obtain ⟨hne, habove⟩ := hid
      unfold push
      cases op.kind with
      | graphPatternSelection affected => rfl
      | collect => rfl
      | simpleLocalJoin leftColumn rightColumn =>
          cases port with
          | left =>
              cases row with
              | none => rfl
              | some row => exact State.insert_clear hne
          | right =>
              cases row with
              | none =>
                  simp only
                  rw [State.clear_clear hne, ih habove]
              | some row =>
                  have htable : (state.clear id).tables op.id = state.tables op.id :=
                    Function.update_of_ne (Ne.symm hne) _ _
                  simp only [htable]
                  generalize joinResults _ _ _ _ _ _ _ _ = results
                  induction results generalizing state with
                  | nil => rfl
                  | cons result results ihResults =>
                      rw [List.foldl_cons, List.foldl_cons, ih habove]
                      exact ihResults (Function.update_of_ne (Ne.symm hne) _ _)

theorem pushRows_clear {path : List Operator} {port : Port} {rows : List Row} {state : State}
    {id : ℕ} (hid : id ∉ path.map Operator.id) :
    pushRows floatLess operators path port rows (state.clear id) =
      (pushRows floatLess operators path port rows state).clear id := by
  induction rows generalizing state with
  | nil => rfl
  | cons row rows ih => rw [pushRows_cons, pushRows_cons, push_clear hid, ih]

/-! ## Pushing into a join -/

/-- The insertion of several rows into a table. -/
def State.insertRows (id : ℕ) (rows : List Row) (state : State) : State :=
  { state with
    tables := Function.update state.tables id (state.tables id ++ rows)
    overrun := state.overrun ||
      decide (rows ≠ [] ∧ tableLimit < (state.tables id ++ rows).length) }

theorem State.insertRows_insert {state : State} {id : ℕ} {row : Row} {rows : List Row} :
    (state.insert id row).insertRows id rows = state.insertRows id (row :: rows) := by
  have hoverrun : ((state.overrun || decide (tableLimit ≤ (state.tables id).length)) ||
      decide (rows ≠ [] ∧ tableLimit < (state.tables id ++ [row] ++ rows).length)) =
      (state.overrun || decide (row :: rows ≠ [] ∧
        tableLimit < (state.tables id ++ row :: rows).length)) := by
    rw [Bool.or_assoc, ← Bool.decide_or]
    congr 2
    simp only [List.length_append, List.length_cons, List.length_nil, ne_eq, reduceCtorEq,
      not_false_eq_true, true_and, eq_iff_iff]
    constructor
    · rintro (hfull | ⟨-, hrest⟩)
      · omega
      · omega
    · intro hlong
      cases rows with
      | nil => exact .inl (by simp at hlong; omega)
      | cons second rows => exact .inr ⟨by simp, by omega⟩
  have htables : Function.update (Function.update state.tables id (state.tables id ++ [row])) id
      (state.tables id ++ [row] ++ rows) =
      Function.update state.tables id (state.tables id ++ row :: rows) := by
    simp
  unfold insertRows insert
  simp only [Function.update_self]
  rw [hoverrun, htables]

variable {id leftColumn rightColumn parent : ℕ} {parentPort : Port} {projection : ProjectionInfo}
  {path : List Operator}

theorem pushRows_left {rows : List Row} {state : State} :
    pushRows floatLess operators
        (⟨id, .simpleLocalJoin leftColumn rightColumn, parent, parentPort, projection⟩ :: path)
        .left rows state = state.insertRows id rows := by
  induction rows generalizing state with
  | nil => simp [pushRows, State.insertRows]
  | cons row rows ih =>
      rw [pushRows_cons, ih]
      exact State.insertRows_insert

/-- Rows on the right port push their results, and the table is forgotten with the
end of input. -/
theorem emit_right {rows : List Row} {state : State} (hid : id ∉ path.map Operator.id) :
    emit floatLess operators
        (⟨id, .simpleLocalJoin leftColumn rightColumn, parent, parentPort, projection⟩ :: path)
        .right rows state =
      emit floatLess operators path parentPort
        (rows.flatMap (joinResults floatLess projection (operators.child id .left)
          (operators.child id .right) leftColumn rightColumn (state.tables id)))
        (state.clear id) := by
  have hrows : pushRows floatLess operators
      (⟨id, .simpleLocalJoin leftColumn rightColumn, parent, parentPort, projection⟩ :: path)
      .right rows state =
      pushRows floatLess operators path parentPort
        (rows.flatMap (joinResults floatLess projection (operators.child id .left)
          (operators.child id .right) leftColumn rightColumn (state.tables id))) state := by
    induction rows generalizing state with
    | nil => rfl
    | cons row rows ih =>
        rw [pushRows_cons, ih, List.flatMap_cons, pushRows_append]
        have hpush : push floatLess operators
            (⟨id, .simpleLocalJoin leftColumn rightColumn, parent, parentPort, projection⟩ :: path)
            .right (some row) state = pushRows floatLess operators path parentPort
              (joinResults floatLess projection (operators.child id .left)
                (operators.child id .right) leftColumn rightColumn (state.tables id) row) state :=
          rfl
        rw [hpush, pushRows_tables hid]
  unfold emit
  rw [hrows, pushRows_clear hid]
  rfl

end Pushing

end Wiselib.Inqp
