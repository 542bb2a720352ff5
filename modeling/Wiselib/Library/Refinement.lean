import Mathlib

/-!
# Machines with outputs and their refinement

A component whose calls always return is a step function
`perform state op = (next, output)`.  `outputs` runs a list of operations and
collects what the calls return.  A concrete machine refines an abstract one when
some relation between their states holds initially, and every operation keeps
it and returns the same on both sides; `Simulates.outputs_eq` turns that into
equality of all outputs of all runs.
-/

namespace Transition

variable {State Abstract Op Out : Type*}

/-- The state after the operations. -/
def finalState (perform : State → Op → State × Out) (first : State) (operations : List Op) :
    State :=
  operations.foldl (fun state op => (perform state op).1) first

/-- What the operations return, in order. -/
def outputs (perform : State → Op → State × Out) : State → List Op → List Out
  | _, [] => []
  | state, op :: rest => (perform state op).2 :: outputs perform (perform state op).1 rest

/-- Every operation keeps `related` and returns the same on both sides. -/
def Simulates (related : State → Abstract → Prop) (perform : State → Op → State × Out)
    (abstract : Abstract → Op → Abstract × Out) : Prop :=
  ∀ state model op, related state model →
    related (perform state op).1 (abstract model op).1 ∧
      (perform state op).2 = (abstract model op).2

variable {related : State → Abstract → Prop} {perform : State → Op → State × Out}
  {abstract : Abstract → Op → Abstract × Out}

theorem Simulates.finalState (hsim : Simulates related perform abstract) {state : State}
    {model : Abstract} (hrelated : related state model) (operations : List Op) :
    related (finalState perform state operations) (finalState abstract model operations) := by
  induction operations generalizing state model with
  | nil => exact hrelated
  | cons op rest ih => exact ih (hsim state model op hrelated).1

theorem Simulates.outputs_eq (hsim : Simulates related perform abstract) {state : State}
    {model : Abstract} (hrelated : related state model) (operations : List Op) :
    outputs perform state operations = outputs abstract model operations := by
  induction operations generalizing state model with
  | nil => rfl
  | cons op rest ih =>
      obtain ⟨hnext, hout⟩ := hsim state model op hrelated
      rw [outputs, outputs, hout, ih hnext]

end Transition
