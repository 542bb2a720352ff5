import Mathlib

/-!
# Doubling and adding along the bits of a number

A ladder takes the bits of a factor from the highest on, doubles for each of
them and adds for a one.  Doubling and adding may fail, and need not be those of
a group: `ladder_cases` is the induction over a run, in which the prefixes of the
factor say what the state is and where a step fails, and `ladder_rel` compares
two ladders step by step.
-/

namespace DoubleAndAdd

variable {α β : Type*}

theorem shiftRight_eq_double (n i : ℕ) :
    n >>> i = 2 * (n >>> (i + 1)) + if n.testBit i then 1 else 0 := by
  have hbit : n.testBit i = decide ((n >>> i) % 2 = 1) := by
    rw [Nat.testBit_eq_decide_div_mod_eq, Nat.shiftRight_eq_div_pow]
  rw [hbit, Nat.shiftRight_succ]
  by_cases hodd : (n >>> i) % 2 = 1
  · simp only [hodd, decide_true, if_true]
    omega
  · simp only [hodd, decide_false, Bool.false_eq_true, if_false]
    omega

theorem shiftRight_size (n : ℕ) : n >>> n.size = 0 := by
  rw [Nat.shiftRight_eq_div_pow, Nat.div_eq_of_lt (Nat.lt_size_self n)]

/-- The step of a ladder for the `i`-th bit. -/
def step (double add : α → Option α) (n i : ℕ) (X : α) : Option α :=
  (double X).bind fun Y => if n.testBit i then add Y else some Y

/-- The ladder over the bits of `n` below the `i`-th, from the highest. -/
def ladder (double add : α → Option α) (n : ℕ) : ℕ → α → Option α
  | 0, X => some X
  | i + 1, X => (step double add n i X).bind (ladder double add n i)

variable {double add : α → Option α} {double' add' : β → Option β} {n : ℕ}

/-- **A run of a ladder** ends in the state that the prefixes of the factor lead
to, or fails at one of them. -/
theorem ladder_cases {P : ℕ → α → Prop} {fails : ℕ → Prop}
    (hstep : ∀ i X, P (n >>> (i + 1)) X →
      (fails (n >>> i) ∧ step double add n i X = none) ∨
        (¬ fails (n >>> i) ∧ ∃ Y, step double add n i X = some Y ∧ P (n >>> i) Y)) :
    ∀ i X, P (n >>> i) X →
      ((∃ j < i, fails (n >>> j)) ∧ ladder double add n i X = none) ∨
        ((∀ j < i, ¬ fails (n >>> j)) ∧ ∃ Y, ladder double add n i X = some Y ∧ P n Y) := by
  intro i
  induction i with
  | zero => exact fun X hX => .inr ⟨fun j hj => absurd hj (Nat.not_lt_zero j), X, rfl, hX⟩
  | succ i ih =>
      intro X hX
      rcases hstep i X hX with ⟨hfails, hnone⟩ | ⟨hgoes, Y, hsome, hY⟩
      · exact .inl ⟨⟨i, Nat.lt_succ_self i, hfails⟩, by rw [ladder, hnone]; rfl⟩
      · have hrun : ladder double add n (i + 1) X = ladder double add n i Y := by
          rw [ladder, hsome]
          rfl
        rw [hrun]
        rcases ih Y hY with ⟨⟨j, hj, hfails⟩, hnone⟩ | ⟨hnever, hdone⟩
        · exact .inl ⟨⟨j, hj.trans (Nat.lt_succ_self i), hfails⟩, hnone⟩
        · refine .inr ⟨fun j hj => ?_, hdone⟩
          rcases Nat.lt_succ_iff_lt_or_eq.1 hj with hlt | rfl
          · exact hnever j hlt
          · exact hgoes

theorem rel_bind {R : α → β → Prop} {o : Option α} {o' : Option β} {f : α → Option α}
    {f' : β → Option β} (hresult : Option.Rel R o o')
    (hf : ∀ X Y, R X Y → Option.Rel R (f X) (f' Y)) : Option.Rel R (o.bind f) (o'.bind f') := by
  cases hresult with
  | none => exact .none
  | some hXY => exact hf _ _ hXY

/-- **Two ladders** whose doublings and additions correspond end in states that
correspond, or fail together. -/
theorem ladder_rel {R : α → β → Prop}
    (hdouble : ∀ X Y, R X Y → Option.Rel R (double X) (double' Y))
    (hadd : ∀ X Y, R X Y → Option.Rel R (add X) (add' Y)) :
    ∀ i X Y, R X Y → Option.Rel R (ladder double add n i X) (ladder double' add' n i Y) := by
  intro i
  induction i with
  | zero => exact fun X Y hXY => .some hXY
  | succ i ih =>
      intro X Y hXY
      refine rel_bind (rel_bind (hdouble X Y hXY) fun X Y hdoubled => ?_) ih
      split
      · exact hadd X Y hdoubled
      · exact .some hdoubled

end DoubleAndAdd
