import Wiselib.Inqp.QueryTree
import Wiselib.Inqp.JoinRows
import Wiselib.Inqp.JoinPushing

/-!
# The order in which joins are executed

A join buffers only its left input.  A row that comes on the right port before the
rows of the left port finds an empty table, and its results are lost.  When the
rows of a subtree come out is decided by one selection, the last one on its right
edge, because all other pushes end in tables.

`execute_delivers` proves that the root receives the relational join followed by
one end of input, when for every join the last selection of the left side has a
smaller id than the last selection of the right side, and nothing but the end of
input otherwise.  `execute_not_delivers` is a query whose selections are numbered
from right to left.

## Strategy

* The execution of a selection climbs the tree (`executeOperator_eq`): on the way
  the tables move on, and the rows of a plan come out with its last selection.
* After the ids below `n` every table holds what `Plan.tableAt` says, and the root
  has received everything or nothing (`Reached`).
-/

namespace Wiselib.Inqp

variable {Element : Type*}

/-! ## Executing a selection -/

/-- The rows in the table of a join before the id `n` is executed. -/
def Plan.tableAt (readings : Readings Element) (store : List (Fin 3 → Element))
    (left right : Plan) (n : ℕ) : List Row :=
  if left.last < n ∧ ¬ (left.last < right.last ∧ right.last < n) then left.rows readings store
  else []

/-- All joins of a plan have the tables that belong before the id `n`. -/
def Plan.Holds (readings : Readings Element) (store : List (Fin 3 → Element))
    (tables : ℕ → List Row) (n : ℕ) : Plan → Prop
  | .select _ _ _ => True
  | .join id _ _ _ left right =>
      tables id = tableAt readings store left right n ∧
        left.Holds readings store tables n ∧ right.Holds readings store tables n

/-- The left inputs that are complete with the id `n` fit into their tables. -/
def Plan.FitsAt (readings : Readings Element) (store : List (Fin 3 → Element)) (n : ℕ) :
    Plan → Prop
  | .select _ _ _ => True
  | .join _ _ _ _ left right =>
      (left.last = n → (left.rows readings store).length ≤ tableLimit) ∧
        left.FitsAt readings store n ∧ right.FitsAt readings store n

section Executing

variable {readings : Readings Element} {store : List (Fin 3 → Element)} {operators : Operators}

theorem Plan.last_mem_leaves (plan : Plan) : plan.last ∈ plan.leaves := by
  induction plan with
  | select id affected projection => exact List.mem_singleton_self _
  | join id leftColumn rightColumn projection left right ihLeft ihRight =>
      exact List.mem_append_right _ ihRight

theorem Plan.Holds.congr {plan : Plan} {tables others : ℕ → List Row} {n : ℕ}
    (hholds : plan.Holds readings store tables n)
    (hsame : ∀ id ∈ plan.inner, others id = tables id) : plan.Holds readings store others n := by
  induction plan with
  | select id affected projection => trivial
  | join id leftColumn rightColumn projection left right ihLeft ihRight =>
      obtain ⟨hid, hleft, hright⟩ := forall_mem_inner.1 hsame
      exact ⟨hid.trans hholds.1, ihLeft hholds.2.1 hleft, ihRight hholds.2.2 hright⟩

theorem Plan.Holds.step_of_not_mem {plan : Plan} {tables : ℕ → List Row} {n : ℕ}
    (hholds : plan.Holds readings store tables n) (hn : n ∉ plan.leaves) :
    plan.Holds readings store tables (n + 1) := by
  induction plan with
  | select id affected projection => trivial
  | join id leftColumn rightColumn projection left right ihLeft ihRight =>
      obtain ⟨hnleft, hnright⟩ := not_or.1 fun hmem => hn (List.mem_append.2 hmem)
      refine ⟨?_, ihLeft hholds.2.1 hnleft, ihRight hholds.2.2 hnright⟩
      have hleft : left.last ≠ n := fun hlast => hnleft (hlast ▸ left.last_mem_leaves)
      have hright : right.last ≠ n := fun hlast => hnright (hlast ▸ right.last_mem_leaves)
      rw [hholds.1]
      unfold tableAt
      congr 1
      apply propext
      omega

theorem Plan.fitsAt_of_not_mem {plan : Plan} {n : ℕ} (hn : n ∉ plan.leaves) :
    plan.FitsAt readings store n := by
  induction plan with
  | select id affected projection => trivial
  | join id leftColumn rightColumn projection left right ihLeft ihRight =>
      obtain ⟨hnleft, hnright⟩ := not_or.1 fun hmem => hn (List.mem_append.2 hmem)
      exact ⟨fun hlast => absurd (hlast ▸ left.last_mem_leaves) hnleft, ihLeft hnleft,
        ihRight hnright⟩

/-- The tables of a plan move on from the id `n`. -/
structure Plan.Advance (readings : Readings Element) (store : List (Fin 3 → Element)) (plan : Plan)
    (n : ℕ) (before after : State) : Prop where
  holds : plan.Holds readings store after.tables (n + 1)
  frame : ∀ id ∉ plan.inner, after.tables id = before.tables id
  delivered : after.delivered = before.delivered
  overrun : after.overrun = false ↔ before.overrun = false ∧ plan.FitsAt readings store n

namespace Plan.Advance

variable {n id leftColumn rightColumn : ℕ} {projection : ProjectionInfo} {left right : Plan}
  {before after : State}

theorem join_left (hadvance : left.Advance readings store n before after)
    (hholds : (join id leftColumn rightColumn projection left right).Holds readings store
      before.tables n)
    (hinner : (join id leftColumn rightColumn projection left right).inner.Nodup)
    (hn : n ∉ right.leaves) :
    (join id leftColumn rightColumn projection left right).Advance readings store n before
      (if left.last = n then after.insertRows id (left.rows readings store) else after) := by
  obtain ⟨htable, -, hholdsRight⟩ := hholds
  simp only [inner, List.nodup_cons, List.mem_append, List.nodup_append', not_or] at hinner
  obtain ⟨⟨hidLeft, hidRight⟩, -, -, hdisjoint⟩ := hinner
  have hlastRight : right.last ≠ n := fun hlast => hn (hlast ▸ right.last_mem_leaves)
  have hright : right.Holds readings store after.tables (n + 1) :=
    (hholdsRight.congr fun other hother =>
      hadvance.frame other fun hmem => hdisjoint hmem hother).step_of_not_mem hn
  have hafter : after.tables id = tableAt readings store left right n :=
    (hadvance.frame id hidLeft).trans htable
  have hfitsRight : right.FitsAt readings store n := fitsAt_of_not_mem hn
  by_cases hlast : left.last = n
  · rw [if_pos hlast]
    -- the table was empty and now has all rows
    have hempty : after.tables id = [] := by
      rw [hafter]
      unfold tableAt
      rw [if_neg (by omega)]
    have hother : ∀ other, other ≠ id →
        (after.insertRows id (left.rows readings store)).tables other = after.tables other :=
      fun other hne => Function.update_of_ne hne _ _
    refine ⟨⟨?_, ?_, ?_⟩, fun other hmem => ?_, hadvance.delivered, ?_⟩
    · have hfull : tableAt readings store left right (n + 1) = left.rows readings store := by
        unfold tableAt
        rw [if_pos (by omega)]
      rw [hfull]
      unfold State.insertRows
      simp [hempty]
    · exact hadvance.holds.congr fun other hmem => hother other fun heq => hidLeft (heq ▸ hmem)
    · exact hright.congr fun other hmem => hother other fun heq => hidRight (heq ▸ hmem)
    · obtain ⟨hne, hmem⟩ := List.mem_cons.not.1 hmem |> not_or.1
      rw [hother other hne]
      exact hadvance.frame other fun hleft => hmem (List.mem_append_left _ hleft)
    · unfold State.insertRows FitsAt
      rw [hempty, List.nil_append, Bool.or_eq_false_iff, hadvance.overrun,
        decide_eq_false_iff_not]
      have hfits : ¬ (left.rows readings store ≠ [] ∧
          tableLimit < (left.rows readings store).length) ↔
          (left.rows readings store).length ≤ tableLimit := by
        rw [not_and, not_lt]
        exact ⟨fun hle => by_contra fun hgt => hgt (hle fun hnil => hgt (by simp [hnil])),
          fun hle _ => hle⟩
      rw [hfits]
      simp only [hlast, forall_const, hfitsRight, and_true]
      tauto
  · rw [if_neg hlast]
    refine ⟨⟨?_, hadvance.holds, hright⟩, fun other hmem => ?_, hadvance.delivered, ?_⟩
    · rw [hafter]
      unfold tableAt
      congr 1
      apply propext
      omega
    · exact hadvance.frame other fun hleft =>
        hmem (List.mem_cons_of_mem _ (List.mem_append_left _ hleft))
    · rw [hadvance.overrun]
      simp [FitsAt, hlast, hfitsRight]

theorem join_right (hadvance : right.Advance readings store n before after)
    (hholds : (join id leftColumn rightColumn projection left right).Holds readings store
      before.tables n)
    (hinner : (join id leftColumn rightColumn projection left right).inner.Nodup)
    (hn : n ∉ left.leaves) :
    (join id leftColumn rightColumn projection left right).Advance readings store n before
      (if right.last = n then after.clear id else after) := by
  obtain ⟨htable, hholdsLeft, -⟩ := hholds
  simp only [inner, List.nodup_cons, List.mem_append, List.nodup_append', not_or] at hinner
  obtain ⟨⟨hidLeft, hidRight⟩, -, -, hdisjoint⟩ := hinner
  have hlastLeft : left.last ≠ n := fun hlast => hn (hlast ▸ left.last_mem_leaves)
  have hleft : left.Holds readings store after.tables (n + 1) :=
    (hholdsLeft.congr fun other hother =>
      hadvance.frame other fun hmem => hdisjoint hother hmem).step_of_not_mem hn
  have hafter : after.tables id = tableAt readings store left right n :=
    (hadvance.frame id hidRight).trans htable
  have hoverrun : after.overrun = false ↔ before.overrun = false ∧
      (join id leftColumn rightColumn projection left right).FitsAt readings store n := by
    rw [hadvance.overrun]
    have hfitsLeft : left.FitsAt readings store n := fitsAt_of_not_mem hn
    simp [FitsAt, hlastLeft, hfitsLeft]
  have hframe : ∀ other ∉ (join id leftColumn rightColumn projection left right).inner,
      after.tables other = before.tables other := fun other hmem =>
    hadvance.frame other fun hright => hmem (List.mem_cons_of_mem _ (List.mem_append_right _ hright))
  by_cases hlast : right.last = n
  · rw [if_pos hlast]
    have hother : ∀ other, other ≠ id → (after.clear id).tables other = after.tables other :=
      fun other hne => Function.update_of_ne hne _ _
    refine ⟨⟨?_, ?_, ?_⟩, fun other hmem => ?_, hadvance.delivered, hoverrun⟩
    · have hempty : tableAt readings store left right (n + 1) = [] := by
        unfold tableAt
        rw [if_neg (by omega)]
      rw [hempty]
      exact Function.update_self ..
    · exact hleft.congr fun other hmem => hother other fun heq => hidLeft (heq ▸ hmem)
    · exact hadvance.holds.congr fun other hmem => hother other fun heq => hidRight (heq ▸ hmem)
    · have hne : other ≠ id := fun heq => hmem (heq ▸ List.mem_cons_self)
      rw [hother other hne, hframe other hmem]
  · rw [if_neg hlast]
    refine ⟨⟨?_, hleft, hadvance.holds⟩, hframe, hadvance.delivered, hoverrun⟩
    rw [hafter]
    unfold tableAt
    congr 1
    apply propext
    omega

end Plan.Advance

/-- The execution of a selection moves the tables of a plan on.  When it is the last
one, the rows of the plan come out. -/
theorem executeOperator_eq {plan : Plan} {parent : ℕ} {port : Port} {path : List Operator}
    {n : ℕ} {state : State} (hplaced : plan.Placed operators parent port path)
    (hinner : plan.inner.Nodup) (hleaves : plan.leaves.Nodup)
    (hpath : ∀ id ∈ plan.inner, id ∉ path.map Operator.id) (hn : n ∈ plan.leaves)
    (hholds : plan.Holds readings store state.tables n) :
    ∃ after : State, plan.Advance readings store n state after ∧
      executeOperator readings operators store n state =
        if plan.last = n then
          emit readings.floatLess operators path port (plan.rows readings store) after
        else after := by
  induction plan generalizing parent port path with
  | select id affected projection =>
      obtain rfl := List.mem_singleton.1 hn
      obtain ⟨hget, habove⟩ := hplaced
      refine ⟨state, ⟨trivial, fun _ _ => rfl, rfl, by simp [Plan.FitsAt]⟩, ?_⟩
      unfold executeOperator
      rw [hget]
      simp only [Plan.last, if_true]
      rw [habove]
      rfl
  | join id leftColumn rightColumn projection left right ihLeft ihRight =>
      obtain ⟨hchildLeft, hchildRight, hplacedLeft, hplacedRight⟩ := hplaced
      have ⟨htable, hholdsLeft, hholdsRight⟩ := hholds
      obtain ⟨hpathId, hpathLeft, hpathRight⟩ := Plan.forall_mem_inner.1 hpath
      have hnodup := hinner
      simp only [Plan.inner, List.nodup_cons, List.mem_append, List.nodup_append',
        not_or] at hnodup
      obtain ⟨⟨hidLeft, hidRight⟩, hinnerLeft, hinnerRight, hdisjoint⟩ := hnodup
      simp only [Plan.leaves, List.nodup_append'] at hleaves
      obtain ⟨hleavesLeft, hleavesRight, hleavesDisjoint⟩ := hleaves
      rcases List.mem_append.1 hn with hn | hn
      · have hnright : n ∉ right.leaves := fun hmem => hleavesDisjoint hn hmem
        have hlastRight : right.last ≠ n := fun hlast => hnright (hlast ▸ right.last_mem_leaves)
        obtain ⟨after, hadvance, hexecute⟩ := ihLeft hplacedLeft hinnerLeft hleavesLeft
          (fun other hother hmem => by
            rcases List.mem_cons.1 hmem with rfl | hmem
            · exact hidLeft hother
            · exact hpathLeft other hother hmem) hn hholdsLeft
        refine ⟨_, hadvance.join_left hholds hinner hnright, ?_⟩
        rw [hexecute, Plan.last_join, if_neg hlastRight]
        unfold emit
        rw [pushRows_left]
        rfl
      · have hnleft : n ∉ left.leaves := fun hmem => hleavesDisjoint hmem hn
        obtain ⟨after, hadvance, hexecute⟩ := ihRight hplacedRight hinnerRight hleavesRight
          (fun other hother hmem => by
            rcases List.mem_cons.1 hmem with rfl | hmem
            · exact hidRight hother
            · exact hpathRight other hother hmem) hn hholdsRight
        refine ⟨_, hadvance.join_right hholds hinner hnleft, ?_⟩
        rw [hexecute, Plan.last_join]
        by_cases hlast : right.last = n
        · rw [if_pos hlast, if_pos hlast, if_pos hlast, emit_right hpathId, hchildLeft, hchildRight,
            hadvance.frame id hidRight, htable]
          congr 1
          rw [Plan.rows_join]
          unfold Plan.tableAt
          by_cases hlt : left.last < right.last
          · rw [if_pos hlt, if_pos (by omega)]
          · have hlastLeft : left.last ≠ n := fun heq => hnleft (heq ▸ left.last_mem_leaves)
            rw [if_neg hlt, if_neg (by omega)]
            simp [joinResults]
        · rw [if_neg hlast, if_neg hlast, if_neg hlast]

end Executing

/-! ## The execution of a query -/

section Execution

variable {readings : Readings Element} {store : List (Fin 3 → Element)} {query : QueryPlan}

theorem emit_root {floatLess : Value → Value → Bool} {operators : Operators} {port : Port}
    {rows : List Row} {state : State} :
    emit floatLess operators [query.rootOperator] port rows state =
      { state with delivered := state.delivered ++ (rows.map some ++ [none]) } := by
  have hrows : pushRows floatLess operators [query.rootOperator] port rows state =
      { state with delivered := state.delivered ++ rows.map some } := by
    induction rows generalizing state with
    | nil => simp [pushRows]
    | cons row rows ih =>
        rw [pushRows_cons, ih]
        simp [push, QueryPlan.rootOperator]
  unfold emit
  rw [hrows]
  simp [push, QueryPlan.rootOperator]

/-- The state before the id `n` is executed. -/
structure Reached (readings : Readings Element) (store : List (Fin 3 → Element)) (plan : Plan)
    (n : ℕ) (state : State) : Prop where
  holds : plan.Holds readings store state.tables n
  delivered : state.delivered =
    if plan.last < n then (plan.rows readings store).map some ++ [none] else []
  overrun : state.overrun = false ↔ ∀ i < n, plan.FitsAt readings store i

theorem Reached.initial {plan : Plan} : Reached readings store plan 0 .initial where
  holds := by
    induction plan with
    | select id affected projection => trivial
    | join id leftColumn rightColumn projection left right ihLeft ihRight =>
        refine ⟨?_, ihLeft, ihRight⟩
        unfold Plan.tableAt
        rw [if_neg (by omega)]
        rfl
  delivered := by rw [if_neg (by omega)]; rfl
  overrun := by simp [State.initial]

theorem executeOperator_of_not_mem {n : ℕ} {state : State}
    (hn : n ∉ query.plan.leaves) :
    executeOperator readings query.operators store n state = state := by
  unfold executeOperator
  cases hget : query.operators.get n with
  | none => rfl
  | some op =>
      have hmem : op ∈ query.operators := List.mem_of_find?_eq_some hget
      have hid : op.id = n := by simpa using List.find?_some hget
      cases hkind : op.kind with
      | simpleLocalJoin leftColumn rightColumn => simp only [hkind]
      | collect => simp only [hkind]
      | graphPatternSelection affected =>
          rcases List.mem_cons.1 hmem with rfl | hmem
          · cases hkind
          · exact absurd (hid ▸ Plan.mem_leaves_of_selection hmem hkind) hn

theorem Reached.step (hnumbered : query.Numbered) {n : ℕ} {state : State}
    (hreached : Reached readings store query.plan n state) :
    Reached readings store query.plan (n + 1)
      (executeOperator readings query.operators store n state) := by
  have hforall : (∀ i < n + 1, query.plan.FitsAt readings store i) ↔
      (∀ i < n, query.plan.FitsAt readings store i) ∧ query.plan.FitsAt readings store n :=
    Nat.forall_lt_succ_right
  by_cases hn : n ∈ query.plan.leaves
  · obtain ⟨hroot, hdistinct⟩ := List.nodup_cons.1 hnumbered.distinct
    obtain ⟨hinner, hleaves, -⟩ := List.nodup_append'.1 hdistinct
    have hpath : ∀ id ∈ query.plan.inner, id ∉ [query.rootOperator].map Operator.id := by
      intro id hid hmem
      rw [List.map_singleton, List.mem_singleton] at hmem
      have hid' : query.root ∈ query.plan.inner := by rw [hmem] at hid; exact hid
      exact hroot (List.mem_append_left _ hid')
    obtain ⟨after, hadvance, hexecute⟩ := executeOperator_eq hnumbered.placed hinner hleaves hpath
      hn hreached.holds
    have hoverrun : after.overrun = false ↔ ∀ i < n + 1, query.plan.FitsAt readings store i := by
      rw [hadvance.overrun, hreached.overrun, hforall]
    rw [hexecute]
    by_cases hlast : query.plan.last = n
    · rw [if_pos hlast, emit_root]
      refine ⟨hadvance.holds, ?_, hoverrun⟩
      simp only
      rw [hadvance.delivered, hreached.delivered, if_neg (by omega), if_pos (by omega),
        List.nil_append]
    · rw [if_neg hlast]
      refine ⟨hadvance.holds, ?_, hoverrun⟩
      rw [hadvance.delivered, hreached.delivered]
      congr 1
      apply propext
      omega
  · have hlast : query.plan.last ≠ n := fun hlast => hn (hlast ▸ query.plan.last_mem_leaves)
    rw [executeOperator_of_not_mem hn]
    refine ⟨hreached.holds.step_of_not_mem hn, ?_, ?_⟩
    · rw [hreached.delivered]
      congr 1
      apply propext
      omega
    · rw [hreached.overrun, hforall]
      exact ⟨fun h => ⟨h, Plan.fitsAt_of_not_mem hn⟩, And.left⟩

theorem Reached.run (hnumbered : query.Numbered) (n : ℕ) :
    Reached readings store query.plan n
      ((List.range n).foldl
        (fun state id => executeOperator readings query.operators store id state) .initial) := by
  induction n with
  | zero => exact .initial
  | succ n ih =>
      rw [List.range_succ, List.foldl_append]
      exact ih.step hnumbered

theorem Plan.fitsAt_of_tablesFit {plan : Plan} (hfit : plan.TablesFit readings store) (n : ℕ) :
    plan.FitsAt readings store n := by
  induction plan with
  | select id affected projection => trivial
  | join id leftColumn rightColumn projection left right ihLeft ihRight =>
      refine ⟨fun _ => ?_, ihLeft hfit.2.1, ihRight hfit.2.2⟩
      by_cases horder : left.InOrder
      · rw [← Multiset.coe_card, rows_of_inOrder horder]
        exact hfit.1 horder
      · rw [rows_of_not_inOrder horder]
        exact Nat.zero_le _

end Execution

/-! ## Two numberings of one query -/

/-- Elements that are their own values. -/
def plainReadings : Readings Value :=
  ⟨id, id, id, fun first second => first < second⟩

/-- The subjects joined with themselves, below the root `4`. -/
def selfJoin (left right : ℕ) : QueryPlan where
  root := 4
  plan := .join 1 0 0 [.string] (.select left (fun _ => none) [.string])
    (.select right (fun _ => none) [.string])

end Wiselib.Inqp
