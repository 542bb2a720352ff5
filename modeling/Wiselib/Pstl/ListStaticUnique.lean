import Wiselib.Pstl.ListStatic
import Mathlib.Data.List.Destutter

/-!
# Repeated elements of static lists

`unique` of `list_static`, which erases the successors of an element that equal it.
Beside the list its model returns which nodes it erased.

## Strategy

The loop compares an element with the next one without a look whether there is one.
Behind the last element stands the sentinel, whose own element is the default value: it is
compared if the last run of the list is a single element (`SentinelRun`), as a longer
run leaves the inner loop at the end.  Apart from that an inner loop takes the rest of
a run out (`uniqueInner_spec`), which is what a step of `List.destutter` does, and the
outer loop goes on with the next run.
-/

namespace Wiselib

namespace ListStatic

variable {α : Type*} [DecidableEq α]

/-! ## The code -/

/-- The inner loop of `unique`, which collects the nodes that it erases. -/
def uniqueInner : ℕ → ListStatic α → Node → Node → List Node →
    Option (ListStatic α × Node × List Node)
  | 0, _, _, _, _ => none
  | fuel + 1, list, it, next, gone =>
      if list.element it = list.element next then
        -- the iterator is moved on before its node is erased
        let following := list.links.next next
        if following = endNode then some (list.erase next, following, next :: gone)
        else uniqueInner fuel (list.erase next) it following (next :: gone)
      else some (list, next, gone)

/-- The outer loop of `unique`. -/
def uniqueOuter (bound : ℕ) : ℕ → ListStatic α → Node → Node → List Node →
    Option (ListStatic α × List Node)
  | 0, _, _, _, _ => none
  | fuel + 1, list, it, next, gone =>
      if it = endNode then some (list, gone)
      else do
        let (list, next, gone) ← uniqueInner bound list it (list.links.next next) gone
        uniqueOuter bound fuel list next next gone

/-- `unique`, with fuel for each of its loops. -/
def unique (fuel : ℕ) (list : ListStatic α) : Option (ListStatic α × List Node) :=
  uniqueOuter fuel fuel list list.begin list.begin []

/-! ## What the loops keep -/

theorem uniqueInner_subset {fuel : ℕ} {list list' : ListStatic α} {it next next' : Node}
    {gone gone' : List Node}
    (hrun : uniqueInner fuel list it next gone = some (list', next', gone')) : gone ⊆ gone' := by
  induction fuel generalizing list next gone with
  | zero => cases hrun
  | succ fuel ih =>
      rw [uniqueInner] at hrun
      dsimp only at hrun
      split at hrun
      · split at hrun
        · cases hrun
          exact List.subset_cons_self _ _
        · exact List.Subset.trans (List.subset_cons_self _ _) (ih hrun)
      · cases hrun
        exact List.Subset.refl _

theorem uniqueOuter_subset {bound fuel : ℕ} {list list' : ListStatic α} {it next : Node}
    {gone gone' : List Node}
    (hrun : uniqueOuter bound fuel list it next gone = some (list', gone')) : gone ⊆ gone' := by
  induction fuel generalizing list it next gone with
  | zero => cases hrun
  | succ fuel ih =>
      rw [uniqueOuter] at hrun
      split at hrun
      · cases hrun
        exact List.Subset.refl _
      · obtain ⟨⟨list₁, next₁, gone₁⟩, hinner, hrest⟩ := Option.bind_eq_some_iff.1 hrun
        exact List.Subset.trans (uniqueInner_subset hinner) (ih hrest)

/-! ## Runs of equal elements -/

/-- The last element equals the sentinel's, and is a run of its own. -/
def SentinelRun (sentinel : α) (contents : List α) : Prop :=
  contents.getLast? = some sentinel ∧ contents.dropLast.getLast? ≠ some sentinel

section Runs

variable {sentinel x : α} {pre rest : List α}

omit [DecidableEq α] in
theorem sentinelRun_singleton : SentinelRun sentinel [x] ↔ x = sentinel := by
  simp [SentinelRun]

omit [DecidableEq α] in
theorem not_sentinelRun_replicate (hpre : ∀ y ∈ pre, y = x) (hne : pre ≠ []) :
    ¬ SentinelRun sentinel (x :: pre) := by
  obtain ⟨n, hn⟩ := Nat.exists_eq_succ_of_ne_zero (mt List.length_eq_zero_iff.1 hne)
  rw [List.eq_replicate_of_mem hpre, hn]
  rintro ⟨hlast, hbefore⟩
  simp only [← List.replicate_succ, List.dropLast_replicate, List.getLast?_replicate] at hbefore hlast
  simp_all

omit [DecidableEq α] in
theorem sentinelRun_append (hrest : rest ≠ []) (hpre : ∀ y ∈ pre, y = x)
    (hhead : ∀ y ∈ rest.head?, y ≠ x) :
    SentinelRun sentinel (x :: (pre ++ rest)) ↔ SentinelRun sentinel rest := by
  have hlast : (x :: pre).getLast? = some x := by
    rw [List.eq_replicate_of_mem hpre, ← List.replicate_succ, List.getLast?_replicate,
      if_neg (Nat.succ_ne_zero _)]
  obtain ⟨y, others, rfl⟩ := List.exists_cons_of_ne_nil hrest
  have hne : y ≠ x := hhead y rfl
  rw [SentinelRun, SentinelRun, ← List.cons_append, List.getLast?_append_of_ne_nil _ hrest,
    List.dropLast_append_of_ne_nil hrest]
  cases others with
  | nil =>
      rw [List.dropLast_singleton, List.append_nil, hlast, List.getLast?_singleton]
      refine and_congr_right fun hy => ?_
      rw [Option.some.inj hy] at hne
      simp [Ne.symm hne]
  | cons z others =>
      rw [List.getLast?_append_of_ne_nil _ (by simp)]

theorem destutter'_append (hpre : ∀ y ∈ pre, y = x) (rest : List α) :
    (pre ++ rest).destutter' (· ≠ ·) x = rest.destutter' (· ≠ ·) x := by
  induction pre with
  | nil => rfl
  | cons y pre ih =>
      obtain rfl : y = x := hpre y List.mem_cons_self
      rw [List.cons_append, List.destutter'_cons_neg _ (not_not.2 rfl),
        ih fun z hz => hpre z (List.mem_cons_of_mem _ hz)]

end Runs

/-! ## The loops -/

section Loops

variable {listSize : ℕ} {list : ListStatic α} {front back free : List Node} {it : Node}
  {contents : List α}

/-- **The inner loop** takes the rest of a run out.  It does so with any fuel that is enough. -/
theorem uniqueInner_spec
    (hlist : Represents listSize list (front ++ it :: back) free contents) (hback : back ≠ [])
    (gone : List Node) :
    ∃ pre rest list' free', back = pre ++ rest ∧
      (∀ node ∈ pre, list.element node = list.element it) ∧
      (∀ node ∈ rest.head?, list.element node ≠ list.element it) ∧
      list'.element = list.element ∧
      Represents listSize list' (front ++ it :: rest) free'
        ((front ++ it :: rest).map list.element) ∧
      (∀ bound ≥ back.length, uniqueInner bound list it (back.headD .data) gone =
        some (list', rest.headD .data, pre.reverse ++ gone)) ∧
      ∀ bound result, uniqueInner bound list it (back.headD .data) gone = some result →
        result = (list', rest.headD .data, pre.reverse ++ gone) := by
  induction back generalizing list free contents gone with
  | nil => exact absurd rfl hback
  | cons node back ih =>
      have hsame : (front ++ it :: node :: back).map list.element = contents := hlist.elements
      by_cases hequal : list.element it = list.element node
      · have hsplit : Represents listSize list ((front ++ [it]) ++ node :: back) free contents := by
          rwa [List.append_assoc, List.singleton_append]
        have hnext : list.links.next node = back.headD .data := hsplit.usedRing.next_node
        have hshort := hsplit.erase_map
        have herased := hshort
        rw [List.append_assoc, List.singleton_append] at herased
        by_cases hend : back = []
        · -- the last element is erased, and the loop left
          subst hend
          have hcall : ∀ bound, uniqueInner (bound + 1) list it node gone =
              some (list.erase node, .data, node :: gone) := by
            intro bound
            rw [uniqueInner, if_pos hequal, hnext]
            rfl
          refine ⟨[node], [], list.erase node, _, rfl, ?_, ?_, Represents.element_erase, herased,
            fun bound hbound => ?_, fun bound result hrun => ?_⟩
          · intro other hother
            rw [List.mem_singleton.1 hother, hequal]
          · intro other hother
            cases hother
          · obtain ⟨bound, rfl⟩ := Nat.exists_eq_succ_of_ne_zero (Nat.ne_of_gt hbound)
            exact hcall bound
          · cases bound with
            | zero => cases hrun
            | succ bound => exact (Option.some.inj ((hcall bound).symm.trans hrun)).symm
        · have hgoes : back.headD .data ≠ endNode := mt hshort.headD_eq_data_iff.1 hend
          have hcall : ∀ bound, uniqueInner (bound + 1) list it node gone =
              uniqueInner bound (list.erase node) it (back.headD .data) (node :: gone) := by
            intro bound
            rw [uniqueInner, if_pos hequal, hnext]
            exact if_neg hgoes
          obtain ⟨pre, rest, list', free', rfl, hpre, hhead, helement, hlist', hruns, honly⟩ :=
            ih herased hend (node :: gone)
          simp only [Represents.element_erase] at hpre hhead helement hlist'
          have hgone : pre.reverse ++ node :: gone = (node :: pre).reverse ++ gone := by simp
          rw [hgone] at hruns honly
          refine ⟨node :: pre, rest, list', free', rfl, ?_, hhead, helement, hlist',
            fun bound hbound => ?_, fun bound result hrun => ?_⟩
          · intro other hother
            rcases List.mem_cons.1 hother with rfl | hother
            · exact hequal.symm
            · exact hpre other hother
          · obtain ⟨bound, rfl⟩ := Nat.exists_eq_succ_of_ne_zero
              (Nat.ne_of_gt (Nat.zero_lt_of_lt hbound))
            exact (hcall bound).trans (hruns bound (Nat.le_of_succ_le_succ hbound))
          · cases bound with
            | zero => cases hrun
            | succ bound => exact honly bound result ((hcall bound).symm.trans hrun)
      · have hcall : ∀ bound, uniqueInner (bound + 1) list it node gone =
            some (list, node, gone) := by
          intro bound
          rw [uniqueInner, if_neg hequal]
        refine ⟨[], node :: back, list, free, rfl, by simp, ?_, rfl, ?_, fun bound hbound => ?_,
          fun bound result hrun => ?_⟩
        · intro other hother
          obtain rfl : node = other := Option.some.inj hother
          exact Ne.symm hequal
        · rwa [hsame]
        · obtain ⟨bound, rfl⟩ := Nat.exists_eq_succ_of_ne_zero
            (Nat.ne_of_gt (Nat.zero_lt_of_lt hbound))
          exact hcall bound
        · cases bound with
          | zero => cases hrun
          | succ bound => exact (Option.some.inj ((hcall bound).symm.trans hrun)).symm

omit [DecidableEq α] in
theorem used_ne_data (hlist : Represents listSize list (front ++ it :: back) free contents) :
    it ≠ endNode ∧ ∀ node ∈ back, node ≠ Node.data := by
  have hnodup := (List.nodup_cons.1 hlist.usedRing.nodup).1
  refine ⟨?_, fun node hnode => ?_⟩
  · rintro rfl
    exact hnodup (by simp [endNode])
  · rintro rfl
    exact hnodup (by simp [hnode])

theorem uniqueOuter_succ {bound fuel : ℕ} {next : Node} (hit : it ≠ endNode)
    (hnext : list.links.next it = next) (gone : List Node) :
    uniqueOuter bound (fuel + 1) list it it gone =
      (uniqueInner bound list it next gone).bind fun (list, next, gone) =>
        uniqueOuter bound fuel list next next gone := by
  rw [uniqueOuter, if_neg hit, hnext]
  rfl

theorem uniqueOuter_end {bound fuel : ℕ} (gone : List Node) :
    uniqueOuter bound (fuel + 1) list .data .data gone = some (list, gone) :=
  if_pos rfl

/-- What `unique` does from an iterator on: the part of the list in front of it stays, and from
it on the first element of every run, if the sentinel is not compared with its equal. -/
def UniqueFrom (listSize : ℕ) (list : ListStatic α) (front : List Node) (it : Node)
    (back gone : List Node) (count : ℕ) : Prop :=
  (SentinelRun (list.element .data) ((it :: back).map list.element) →
    ∀ bound fuel list' gone', uniqueOuter bound fuel list it it gone = some (list', gone') →
      Node.data ∈ gone') ∧
  (¬ SentinelRun (list.element .data) ((it :: back).map list.element) →
    ∃ list' used' free' gone',
      Represents listSize list' used' free' (front.map list.element ++
        (back.map list.element).destutter' (· ≠ ·) (list.element it)) ∧
      Node.data ∉ gone' ∧ ∀ bound > count, ∀ fuel > count + 1,
        uniqueOuter bound fuel list it it gone = some (list', gone'))

theorem uniqueFrom_last (hlist : Represents listSize list (front ++ [it]) free contents)
    {gone : List Node} (hgone : Node.data ∉ gone) (count : ℕ) :
    UniqueFrom listSize list front it [] gone count := by
  obtain ⟨hit, -⟩ := used_ne_data hlist
  have hnext : list.links.next it = .data := hlist.usedRing.next_node
  rw [UniqueFrom, List.map_singleton, sentinelRun_singleton]
  constructor
  · intro hequal bound fuel list' gone' hrun
    cases fuel with
    | zero => cases hrun
    | succ fuel =>
        rw [uniqueOuter_succ hit hnext] at hrun
        obtain ⟨⟨list₁, next₁, gone₁⟩, hinner, hrest⟩ := Option.bind_eq_some_iff.1 hrun
        refine uniqueOuter_subset hrest ?_
        cases bound with
        | zero => cases hinner
        | succ bound =>
            -- the sentinel is erased in the first round
            rw [uniqueInner, if_pos hequal] at hinner
            dsimp only at hinner
            split at hinner
            · cases hinner
              exact List.mem_cons_self
            · exact uniqueInner_subset hinner List.mem_cons_self
  · intro hdiffer
    refine ⟨list, front ++ [it], free, gone, ?_, hgone, fun bound hbound fuel hfuel => ?_⟩
    · rw [List.map_nil, List.destutter'_nil, ← List.map_singleton (f := list.element),
        ← List.map_append, hlist.elements]
      exact hlist
    · obtain ⟨bound, rfl⟩ := Nat.exists_eq_succ_of_ne_zero (Nat.ne_of_gt (Nat.zero_lt_of_lt hbound))
      obtain ⟨fuel, rfl⟩ : ∃ k, fuel = k + 1 + 1 := ⟨fuel - 2, by omega⟩
      rw [uniqueOuter_succ hit hnext, uniqueInner, if_neg hdiffer]
      exact uniqueOuter_end gone

/-- **The outer loop** from the first element of a run on. -/
theorem uniqueOuter_spec {count : ℕ} (hcount : back.length ≤ count)
    (hlist : Represents listSize list (front ++ it :: back) free contents)
    {gone : List Node} (hgone : Node.data ∉ gone) :
    UniqueFrom listSize list front it back gone count := by
  induction count generalizing list front it back free contents gone with
  | zero =>
      obtain rfl := List.length_eq_zero_iff.1 (Nat.le_zero.1 hcount)
      exact uniqueFrom_last hlist hgone 0
  | succ count ih =>
      by_cases hback : back = []
      · subst hback
        exact uniqueFrom_last hlist hgone _
      obtain ⟨hit, hnodes⟩ := used_ne_data hlist
      have hnext : list.links.next it = back.headD .data := hlist.usedRing.next_node
      obtain ⟨pre, rest, list₁, free₁, rfl, hpre, hhead, helement, hlist₁, hruns, honly⟩ :=
        uniqueInner_spec hlist hback gone
      have hpre' : ∀ y ∈ pre.map list.element, y = list.element it := by
        intro y hy
        obtain ⟨node, hnode, rfl⟩ := List.mem_map.1 hy
        exact hpre node hnode
      have hgone₁ : Node.data ∉ pre.reverse ++ gone := by
        rw [List.mem_append, List.mem_reverse, not_or]
        exact ⟨fun hmem => hnodes _ (List.mem_append_left _ hmem) rfl, hgone⟩
      rw [UniqueFrom, List.map_cons, List.map_append, destutter'_append hpre']
      cases rest with
      | nil =>
          -- the whole rest of the list was one run with `it`
          rw [List.append_nil] at hback
          rw [List.map_nil, List.append_nil, List.destutter'_nil]
          refine ⟨fun hsentinel => absurd hsentinel
            (not_sentinelRun_replicate hpre' (by simpa using hback)), fun _ => ?_⟩
          refine ⟨list₁, front ++ [it], free₁, pre.reverse ++ gone, ?_, hgone₁,
            fun bound hbound fuel hfuel => ?_⟩
          · rwa [List.map_append] at hlist₁
          · obtain ⟨fuel, rfl⟩ : ∃ k, fuel = k + 1 + 1 := ⟨fuel - 2, by omega⟩
            rw [uniqueOuter_succ hit hnext, hruns bound (by omega)]
            exact uniqueOuter_end _
      | cons node rest =>
          have hnode : list.element node ≠ list.element it := hhead node rfl
          have hstep : front ++ it :: node :: rest = (front ++ [it]) ++ node :: rest := by simp
          rw [hstep] at hlist₁
          have hshort : rest.length ≤ count := by
            rw [List.length_append, List.length_cons] at hcount
            omega
          obtain ⟨hbad, hgood⟩ := ih hshort hlist₁ hgone₁
          rw [helement] at hbad hgood
          rw [sentinelRun_append (by simp) hpre' (by simpa using hnode), List.map_cons,
            List.destutter'_cons_pos _ hnode.symm]
          constructor
          · intro hsentinel bound fuel list' gone' hrun
            cases fuel with
            | zero => cases hrun
            | succ fuel =>
                rw [uniqueOuter_succ hit hnext] at hrun
                obtain ⟨result, hinner, hrest⟩ := Option.bind_eq_some_iff.1 hrun
                obtain rfl := honly bound result hinner
                exact hbad hsentinel bound fuel list' gone' hrest
          · intro hsentinel
            obtain ⟨list', used', free', gone', hlist', hgone', hrun⟩ := hgood hsentinel
            refine ⟨list', used', free', gone', ?_, hgone', fun bound hbound fuel hfuel => ?_⟩
            · rwa [List.map_append, List.append_assoc] at hlist'
            · obtain ⟨fuel, rfl⟩ := Nat.exists_eq_succ_of_ne_zero
                (Nat.ne_of_gt (Nat.zero_lt_of_lt hfuel))
              rw [uniqueOuter_succ hit hnext, hruns bound (by omega)]
              exact hrun bound (by omega) fuel (by omega)

end Loops

/-! ## The call -/

/-- What `unique` should do: return, leave the first element of every run, and not erase the
sentinel. -/
def Unique (listSize : ℕ) (list : ListStatic α) (contents : List α) : Prop :=
  ∃ fuel list' used' free' gone', unique fuel list = some (list', gone') ∧
    Represents listSize list' used' free' (contents.destutter (· ≠ ·)) ∧ Node.data ∉ gone'

/-- **`unique` is right** unless the last run is a single element that equals the sentinel's. -/
theorem unique_right_iff {listSize : ℕ} {list : ListStatic α} {used free : List Node}
    {contents : List α} (hlist : Represents listSize list used free contents) :
    Unique listSize list contents ↔ ¬ SentinelRun (list.element .data) contents := by
  obtain rfl := hlist.elements
  cases used with
  | nil =>
      have hbegin : list.begin = .data := hlist.begin_eq
      refine iff_of_true ⟨1, list, [], free, [], ?_, hlist, List.not_mem_nil⟩ (by simp [SentinelRun])
      rw [unique, hbegin]
      exact uniqueOuter_end []
  | cons it back =>
      have hbegin : list.begin = it := hlist.begin_eq
      have hsplit : Represents listSize list ([] ++ it :: back) free _ := hlist
      obtain ⟨hbad, hgood⟩ := uniqueOuter_spec (le_refl back.length) hsplit List.not_mem_nil
      constructor
      · rintro ⟨fuel, list', used', free', gone', hrun, -, hgone'⟩ hsentinel
        rw [unique, hbegin] at hrun
        exact hgone' (hbad hsentinel fuel fuel list' gone' hrun)
      · intro hsentinel
        obtain ⟨list', used', free', gone', hlist', hgone', hrun⟩ := hgood hsentinel
        refine ⟨back.length + 2, list', used', free', gone', ?_, hlist', hgone'⟩
        rw [unique, hbegin]
        exact hrun _ (by omega) _ (by omega)

/-- The list 5, 5, 0, 0 of numbers, where the sentinel holds a 0 as well. -/
theorem unique_right_iff_runs :
    ∃ (list : ListStatic ℕ) (used free : List Node),
      Represents (LIST_SIZE 4) list used free [5, 5, 0, 0] ∧
        (Unique (LIST_SIZE 4) list [5, 5, 0, 0] ↔
          ¬ SentinelRun (list.element .data) [5, 5, 0, 0]) := by
  obtain ⟨list, used, free, -, hlist⟩ :=
    (represents_init 4 : Represents _ (init 4 : ListStatic ℕ) _ _ _).run
      (show [Op.pushBack 5, .pushBack 5, .pushBack 0, .pushBack 0].foldlM
        (Op.apply (LIST_SIZE 4)) [] = some [5, 5, 0, 0] from rfl)
  exact ⟨list, used, free, hlist, unique_right_iff hlist⟩

/-- **A list that ends with the default value**: from 5, 0 the sentinel is erased. -/
theorem list_ending_with_default :
    ∃ (list : ListStatic ℕ) (used free : List Node),
      Represents (LIST_SIZE 3) list used free [5, 0] ∧ ¬ Unique (LIST_SIZE 3) list [5, 0] := by
  obtain ⟨list, used, free, hrun, hlist⟩ :=
    (represents_init 3 : Represents _ (init 3 : ListStatic ℕ) _ _ _).run
      (show [Op.pushBack 5, .pushBack 0].foldlM (Op.apply (LIST_SIZE 3)) [] = some [5, 0] from rfl)
  have hsentinel : (run (LIST_SIZE 3) (init 3) [Op.pushBack 5, .pushBack 0]).map
      (fun list => list.element .data) = some 0 := rfl
  rw [hrun] at hsentinel
  have hdata : list.element .data = 0 := Option.some.inj hsentinel
  refine ⟨list, used, free, hlist, ?_⟩
  obtain ⟨first, second, rfl⟩ := List.length_eq_two.1 hlist.length_used
  have hbegin : list.begin = first := hlist.begin_eq
  have hsplit : Represents (LIST_SIZE 3) list ([] ++ first :: [second]) free [5, 0] := hlist
  have hlast : SentinelRun (list.element .data) ([first, second].map list.element) := by
    rw [hlist.elements, hdata]
    exact ⟨rfl, by decide⟩
  rintro ⟨fuel, list', used', free', gone', hunique, -, hgone'⟩
  rw [unique, hbegin] at hunique
  exact hgone' ((uniqueOuter_spec (le_refl 1) hsplit List.not_mem_nil).1 hlast fuel fuel list' gone'
    hunique)

end ListStatic

end Wiselib
