import Mathlib

/-!
# The quotients of Euclid's algorithm

For polynomials over a field, the quotients that Euclid's algorithm divides off
until the divisor is a constant.

An algorithm that takes single multiples of the divisor off, and swaps the two
polynomials once the rest is the smaller one, goes through the same quotients.
Taking a multiple off changes the first quotient only (`isQuotient_add_mul`), and
a swap adds a quotient zero (`isQuotient_swap`).  `Steady n P Q` says that every
quotient has a degree below `n`, and both steps keep it.
-/

namespace EuclideanQuotients

open Polynomial

variable {k : Type*} [Field k]

/-- The polynomials that Euclid's algorithm for `P` and `Q` has as quotients. -/
inductive IsQuotient : k[X] → k[X] → k[X] → Prop
  | head {P Q : k[X]} (hQ : 0 < Q.natDegree) : IsQuotient P Q (P / Q)
  | tail {P Q q : k[X]} (hQ : 0 < Q.natDegree) (hrest : IsQuotient Q (P % Q) q) :
      IsQuotient P Q q

/-- Every quotient of Euclid's algorithm has a degree below `n`. -/
def Steady (n : ℕ) (P Q : k[X]) : Prop :=
  ∀ q, IsQuotient P Q q → q.natDegree < n

section Quotients

variable {P Q R q : k[X]} {n : ℕ}

theorem isQuotient_iff (hQ : 0 < Q.natDegree) :
    IsQuotient P Q q ↔ q = P / Q ∨ IsQuotient Q (P % Q) q := by
  constructor
  · intro hquotient
    cases hquotient with
    | head => exact Or.inl rfl
    | tail _ hrest => exact Or.inr hrest
  · rintro (rfl | hrest)
    · exact .head hQ
    · exact .tail hQ hrest

theorem steady_of_natDegree_eq_zero (hQ : Q.natDegree = 0) : Steady n P Q := by
  intro q hquotient
  cases hquotient with
  | head hpos => exact absurd hQ hpos.ne'
  | tail hpos _ => exact absurd hQ hpos.ne'

theorem natDegree_div (hQ : Q ≠ 0) : (P / Q).natDegree = P.natDegree - Q.natDegree := by
  rcases lt_or_ge P.degree Q.degree with hlt | hge
  · rw [(Polynomial.div_eq_zero_iff hQ).2 hlt, natDegree_zero, Nat.sub_eq_zero_of_le]
    exact natDegree_le_natDegree hlt.le
  · have hP : P ≠ 0 := by
      rintro rfl
      rw [degree_zero, le_bot_iff] at hge
      exact hQ (degree_eq_bot.1 hge)
    have hdiv : P / Q ≠ 0 := fun hzero => not_lt.2 hge ((Polynomial.div_eq_zero_iff hQ).1 hzero)
    have hsum := degree_add_div hQ hge
    rw [degree_eq_natDegree hQ, degree_eq_natDegree hdiv, degree_eq_natDegree hP] at hsum
    have hsum' : Q.natDegree + (P / Q).natDegree = P.natDegree := by exact_mod_cast hsum
    rw [← hsum', Nat.add_sub_cancel_left]

/-- **A swap** brings a quotient zero. -/
theorem isQuotient_swap (hlt : P.degree < Q.degree) (hQ : 0 < Q.natDegree) :
    IsQuotient P Q q ↔ q = 0 ∨ IsQuotient Q P q := by
  have hne : Q ≠ 0 := ne_zero_of_natDegree_gt hQ
  rw [isQuotient_iff hQ, (Polynomial.div_eq_zero_iff hne).2 hlt, (mod_eq_self_iff hne).2 hlt]

/-- **A multiple of the divisor** leaves all quotients but the first one. -/
theorem isQuotient_add_mul (hQ : 0 < Q.natDegree) :
    IsQuotient (P + R * Q) Q q ↔ q = (P + R * Q) / Q ∨ IsQuotient Q (P % Q) q := by
  have hmod : (P + R * Q) % Q = P % Q := by
    refine mod_eq_of_dvd_sub ?_
    rw [add_sub_cancel_left]
    exact dvd_mul_left Q R
  rw [isQuotient_iff hQ, hmod]

/-! ## Steady quotients -/

theorem Steady.natDegree_sub_lt (hsteady : Steady n P Q) (hQ : 0 < Q.natDegree) :
    P.natDegree - Q.natDegree < n := by
  have hhead := hsteady _ (.head hQ)
  rwa [natDegree_div (ne_zero_of_natDegree_gt hQ)] at hhead

theorem steady_swap_iff (hlt : P.degree < Q.degree) (hQ : 0 < Q.natDegree) (hn : 0 < n) :
    Steady n P Q ↔ Steady n Q P := by
  constructor
  · intro hsteady q hquotient
    exact hsteady q ((isQuotient_swap hlt hQ).2 (Or.inr hquotient))
  · intro hsteady q hquotient
    rcases (isQuotient_swap hlt hQ).1 hquotient with rfl | hrest
    · rwa [natDegree_zero]
    · exact hsteady q hrest

theorem IsQuotient.add_mul (hquotient : IsQuotient P Q q) (hQ : 0 < Q.natDegree)
    (hdegree : q.natDegree ≠ P.natDegree - Q.natDegree) : IsQuotient (P + R * Q) Q q := by
  rw [isQuotient_iff hQ] at hquotient
  rw [isQuotient_add_mul hQ]
  refine Or.inr (hquotient.resolve_left ?_)
  rintro rfl
  exact hdegree (natDegree_div (ne_zero_of_natDegree_gt hQ))

theorem IsQuotient.of_add_mul (hquotient : IsQuotient (P + R * Q) Q q) (hQ : 0 < Q.natDegree)
    (hdegree : (P + R * Q).natDegree - Q.natDegree < q.natDegree) : IsQuotient P Q q := by
  rw [isQuotient_add_mul hQ] at hquotient
  rw [isQuotient_iff hQ]
  refine Or.inr (hquotient.resolve_left ?_)
  rintro rfl
  exact hdegree.ne' (natDegree_div (ne_zero_of_natDegree_gt hQ))

/-- **Taking a multiple off** keeps a pair steady. -/
theorem Steady.add_mul (hsteady : Steady n P Q) (hQ : 0 < Q.natDegree)
    (hle : (P + R * Q).natDegree ≤ P.natDegree) : Steady n (P + R * Q) Q := by
  intro q hquotient
  by_contra hlarge
  have hfirst := hsteady.natDegree_sub_lt hQ
  exact hlarge (hsteady q (hquotient.of_add_mul hQ (by omega)))

end Quotients

end EuclideanQuotients
