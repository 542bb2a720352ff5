import Mathlib

/-!
# Runs of a labelled transition relation

A component is a state type, a type of operations and a relation
`step state operation next`.  `Run step first operations last` says that
performing the operations in order from `first` can end in `last`.  Operations
that fail have no successor, so a run is a sequence of operations that all
went through.

Every invariant in this development is proved about one step and lifted to
whole runs by `Run.invariant`.  `Guarded` restricts a relation to the steps
whose operation meets a condition in the state it starts from, which is how
"every run whose steps all meet the condition" is stated.
-/

namespace Transition

variable {State Op : Type*}

/-- Performing `operations` in order from `first` can end in `last`. -/
inductive Run (step : State → Op → State → Prop) : State → List Op → State → Prop
  | nil (state : State) : Run step state [] state
  | cons {first middle last : State} {op : Op} {rest : List Op} :
      step first op middle → Run step middle rest last → Run step first (op :: rest) last

/-- The steps of `step` whose operation meets `guard` in the state before. -/
def Guarded (guard : State → Op → Prop) (step : State → Op → State → Prop) :
    State → Op → State → Prop :=
  fun state op next => guard state op ∧ step state op next

/-- The transition relation of a partial step function. -/
def stepOf (perform : State → Op → Option State) : State → Op → State → Prop :=
  fun state op next => perform state op = some next

variable {step : State → Op → State → Prop}

/-- What every step preserves, every run preserves. -/
theorem Run.invariant {Inv : State → Prop}
    (hstep : ∀ state op next, Inv state → step state op next → Inv next)
    {first last : State} {operations : List Op} (hrun : Run step first operations last)
    (hfirst : Inv first) : Inv last := by
  induction hrun with
  | nil => exact hfirst
  | cons hhead _ ih => exact ih (hstep _ _ _ hfirst hhead)

/-- An invariant that depends on the operations performed so far. -/
theorem Run.history {Inv : List Op → State → Prop}
    (hstep : ∀ past state op next, Inv past state → step state op next → Inv (past ++ [op]) next)
    {first last : State} {operations : List Op} (hrun : Run step first operations last)
    (past : List Op) (hfirst : Inv past first) : Inv (past ++ operations) last := by
  induction hrun generalizing past with
  | nil => simpa using hfirst
  | cons hhead _ ih => simpa using ih _ (hstep _ _ _ _ hfirst hhead)

/-- A run goes on with one more step. -/
theorem Run.append {first middle last : State} {operations : List Op} {op : Op}
    (hrun : Run step first operations middle) (hop : step middle op last) :
    Run step first (operations ++ [op]) last := by
  induction hrun with
  | nil => exact .cons hop (.nil _)
  | cons hhead _ ih => exact .cons hhead (ih hop)

/-- A partial step function that gets through all operations makes a run. -/
theorem Run.of_foldlM {perform : State → Op → Option State} :
    ∀ {operations : List Op} {first last : State},
      operations.foldlM perform first = some last → Run (stepOf perform) first operations last
  | [], first, last, hfold => by
      obtain rfl : first = last := by simpa using hfold
      exact .nil first
  | op :: rest, first, last, hfold => by
      rw [List.foldlM_cons] at hfold
      obtain ⟨middle, hstep, hrest⟩ := Option.bind_eq_some_iff.1 hfold
      exact .cons hstep (Run.of_foldlM hrest)

/-- A partial step function that gets through all operations, each of which
passes a test in the state before, makes a guarded run. -/
theorem Run.of_foldlM_guarded {guard : State → Op → Bool} {perform : State → Op → Option State} :
    ∀ {operations : List Op} {first last : State},
      operations.foldlM (fun state op => if guard state op then perform state op else none)
        first = some last →
      Run (Guarded (fun state op => guard state op = true) (stepOf perform)) first operations last
  | [], first, last, hfold => by
      obtain rfl : first = last := by simpa using hfold
      exact .nil first
  | op :: rest, first, last, hfold => by
      rw [List.foldlM_cons] at hfold
      obtain ⟨middle, hstep, hrest⟩ := Option.bind_eq_some_iff.1 hfold
      split at hstep
      · rename_i hguard
        exact .cons ⟨hguard, hstep⟩ (Run.of_foldlM_guarded hrest)
      · simp at hstep

end Transition
