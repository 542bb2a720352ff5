import Wiselib.Routing.OlsrLinkSensing

/-!
# The multipoint relays of OLSR

`mpr_computation` chooses among the symmetric neighbours of a node those that
pass its messages on, such that each 2-hop neighbour hears one of them.  It works
on a list `N2` of the 2-hop tuples that are still to be covered: who is the only
way to somebody is chosen first, then the neighbour that reaches most, until the
list is empty.

`std::set`s of addresses are lists without repetition here; nothing depends on
their order.  The loops that erase from a vector and step the iterator back are
the recursions over the list that they amount to.

## Strategy

* `Narrowed` is the invariant: whatever has left `N2` is covered by a relay that
  was chosen, through a tuple of the initial list, and only neighbours that are
  symmetric and willing are chosen.  Each step removes tuples of a relay and
  tuples to nodes it reaches, which is all that `Narrowed.choose` asks for.
* `chooseOnly` starts over only after it removed something, so it is a recursion
  on the length of `N2` and then on what is ahead of the iterator.
* Each tuple in `N2` is one of a neighbour in `N` (`Reached`), so a round of the
  last loop finds a relay (`exists_select`), and it removes the tuples of this
  relay: the loop comes to an end (`chooseMost_spec`).
-/

namespace Wiselib.Routing.Olsr

variable {Node : Type*} [DecidableEq Node]

/-- `OLSR_nb2hop_tuple`. -/
structure Nb2hopTuple (Node : Type*) where
  nb_node_addr : Node
  nb2hop_addr : Node
deriving DecidableEq, Repr

/-- `OLSR_WILL_NEVER`. -/
def willNever : UInt8 := 0

/-- `OLSR_WILL_ALWAYS`. -/
def willAlways : UInt8 := 7

/-! ## The code -/

/-- `find_nb_tuple` with a willingness. -/
def findNbTupleWilling (nodeAddr : Node) (willingness : UInt8) (nbset : List (NbTuple Node)) :
    Option (NbTuple Node) :=
  nbset.find? fun tuple => tuple.nb_node_addr = nodeAddr ∧ tuple.willingness = willingness

/-- `find_sym_nb_tuple`. -/
def findSymNbTuple (nodeAddr : Node) (nbset : List (NbTuple Node)) : Option (NbTuple Node) :=
  nbset.find? fun tuple => tuple.nb_node_addr = nodeAddr ∧ tuple.status = .sym

/-- `insert` of a set of addresses. -/
def insertAddr (addr : Node) (addrs : List Node) : List Node :=
  if addr ∈ addrs then addrs else addr :: addrs

/-- `degree`. -/
def degree (nbset : List (NbTuple Node)) (nb2hopset : List (Nb2hopTuple Node))
    (tuple : NbTuple Node) : ℕ :=
  nb2hopset.countP fun nb2hop_tuple =>
    nb2hop_tuple.nb_node_addr = tuple.nb_node_addr ∧
      (OlsrRouting.findNbTuple nb2hop_tuple.nb_node_addr nbset).isNone

/-- The list `N`. -/
def symNeighbours (nbset : List (NbTuple Node)) : List (NbTuple Node) :=
  nbset.filter fun tuple => tuple.status = .sym

/-- The condition `ok` on a tuple for `N2`. -/
def admissible (nbset : List (NbTuple Node)) (tuple : Nb2hopTuple Node) : Bool :=
  match findSymNbTuple tuple.nb_node_addr nbset with
  | none => false
  | some _ =>
      match findNbTupleWilling tuple.nb_node_addr willNever nbset with
      | some _ => false
      | none => (findSymNbTuple tuple.nb2hop_addr nbset).isNone

/-- Erases the tuples of a neighbour and collects the addresses they lead to. -/
def eraseSameNb (nodeAddr : Node) : List (Nb2hopTuple Node) → List (Nb2hopTuple Node) × List Node
  | [] => ([], [])
  | tuple :: rest =>
      let (left, addrs) := eraseSameNb nodeAddr rest
      if nodeAddr = tuple.nb_node_addr then (left, insertAddr tuple.nb2hop_addr addrs)
      else (tuple :: left, addrs)

/-- Erases the tuples that lead to an address, and whether there were any. -/
def eraseHop (state : List (Nb2hopTuple Node) × Bool) (addr : Node) :
    List (Nb2hopTuple Node) × Bool :=
  (state.1.filter fun tuple => tuple.nb2hop_addr ≠ addr,
    state.2 || state.1.any fun tuple => tuple.nb2hop_addr = addr)

theorem length_eraseSameNb_le (nodeAddr : Node) (tuples : List (Nb2hopTuple Node)) :
    (eraseSameNb nodeAddr tuples).1.length ≤ tuples.length := by
  induction tuples with
  | nil => exact le_rfl
  | cons tuple rest ih =>
    simp only [eraseSameNb]
    split
    · exact ih.trans (Nat.le_succ _)
    · exact Nat.succ_le_succ ih

theorem length_eraseHops_le (addrs : List Node) (state : List (Nb2hopTuple Node) × Bool) :
    (addrs.foldl eraseHop state).1.length ≤ state.1.length := by
  induction addrs generalizing state with
  | nil => exact le_rfl
  | cons addr rest ih => exact (ih _).trans (List.length_filter_le _ _)

/-- Step 3, with the iterator at `i`: a neighbour that is the only way to a node is
chosen.  The iterator starts over when tuples to a node that is covered were
erased. -/
def chooseOnly (N : List (NbTuple Node)) (N2 : List (Nb2hopTuple Node)) (i : ℕ)
    (foundset mprset : List Node) : List (Nb2hopTuple Node) × List Node :=
  if hi : i < N2.length then
    let tuple := N2[i]
    if tuple.nb2hop_addr ∈ foundset then chooseOnly N N2 (i + 1) foundset mprset
    else if N.any (fun nb => nb.nb_node_addr = tuple.nb_node_addr) then
      if (N2.drop (i + 1)).any fun other => tuple.nb2hop_addr = other.nb2hop_addr then
        chooseOnly N N2 (i + 1) (insertAddr tuple.nb2hop_addr foundset) mprset
      else
        let erased := eraseSameNb tuple.nb_node_addr (N2.drop (i + 1))
        let swept := erased.2.foldl eraseHop (N2.take i ++ erased.1, false)
        chooseOnly N swept.1 (if swept.2 then 0 else i) foundset
          (insertAddr tuple.nb_node_addr mprset)
    else chooseOnly N N2 (i + 1) foundset mprset
  else (N2, mprset)
termination_by (N2.length, N2.length - i)
decreasing_by
  · exact Prod.Lex.right _ (by omega)
  · exact Prod.Lex.right _ (by omega)
  · apply Prod.Lex.left
    have hswept := length_eraseHops_le (eraseSameNb N2[i].nb_node_addr (N2.drop (i + 1))).2
      (N2.take i ++ (eraseSameNb N2[i].nb_node_addr (N2.drop (i + 1))).1, false)
    have herased := length_eraseSameNb_le N2[i].nb_node_addr (N2.drop (i + 1))
    simp only [List.length_append, List.length_take, List.length_drop] at hswept herased
    omega
  · exact Prod.Lex.right _ (by omega)

/-- The reachability of a neighbour. -/
def reachability (N2 : List (Nb2hopTuple Node)) (nb : NbTuple Node) : ℕ :=
  N2.countP fun tuple => nb.nb_node_addr = tuple.nb_node_addr

/-- `insert` of a set of numbers, which is walked through in ascending order. -/
def insertNumber (r : ℕ) : List ℕ → List ℕ
  | [] => [r]
  | other :: rest =>
      if r < other then r :: other :: rest
      else if r = other then other :: rest
      else other :: insertNumber r rest

/-- The comparison of a neighbour of reachability `r` with the best one so far. -/
def better (degree : NbTuple Node → ℕ) (r : ℕ) (max : Option (NbTuple Node × ℕ))
    (nb_tuple : NbTuple Node) : Option (NbTuple Node × ℕ) :=
  match max with
  | none => some (nb_tuple, r)
  | some (best, max_r) =>
      if nb_tuple.willingness > best.willingness then some (nb_tuple, r)
      else if nb_tuple.willingness = best.willingness then
        if r > max_r then some (nb_tuple, r)
        else if r = max_r then
          if degree nb_tuple > degree best then some (nb_tuple, r) else max
        else max
      else max

/-- Steps 4.1 and 4.2: the neighbour to choose, with its reachability. -/
def select (degree : NbTuple Node → ℕ) (N : List (NbTuple Node)) (N2 : List (Nb2hopTuple Node)) :
    Option (NbTuple Node × ℕ) :=
  let rs := N.foldl (fun rs nb => insertNumber (reachability N2 nb) rs) []
  rs.foldl
    (fun max r =>
      if r > 0 then (N.filter fun nb => reachability N2 nb = r).foldl (better degree r) max else max)
    none

/-- Step 4.  A round that erases nothing comes back to the same tuples forever,
which is no result. -/
def chooseMost (degree : NbTuple Node → ℕ) (N : List (NbTuple Node))
    (N2 : List (Nb2hopTuple Node)) (mprset : List Node) : Option (List Node) :=
  if N2 = [] then some mprset
  else
    match select degree N N2 with
    | none => none
    | some (max, _) =>
        let erased := eraseSameNb max.nb_node_addr N2
        let left := erased.1.filter fun tuple => tuple.nb2hop_addr ∉ erased.2
        if _hless : left.length < N2.length then
          chooseMost degree N left (insertAddr max.nb_node_addr mprset)
        else none
termination_by N2.length
decreasing_by exact _hless

/-- Step 1, for one neighbour. -/
def insertAlways (mprset : List Node) (nb : NbTuple Node) : List Node :=
  if nb.willingness = willAlways then insertAddr nb.nb_node_addr mprset else mprset

/-- `mpr_computation`: the addresses it leaves in `mprset_`. -/
def mprComputation (nbset : List (NbTuple Node)) (nb2hopset : List (Nb2hopTuple Node)) :
    Option (List Node) :=
  let N := symNeighbours nbset
  let N2 := nb2hopset.filter (admissible nbset)
  let (left, mprset) := chooseOnly N N2 0 [] (N.foldl insertAlways [])
  chooseMost (degree nbset nb2hopset) N left mprset

/-! ## Sets of addresses -/

theorem mem_insertAddr {addr other : Node} {addrs : List Node} :
    other ∈ insertAddr addr addrs ↔ other = addr ∨ other ∈ addrs := by
  unfold insertAddr
  split <;> simp_all

theorem mem_insertNumber {r x : ℕ} {rs : List ℕ} :
    x ∈ insertNumber r rs ↔ x = r ∨ x ∈ rs := by
  induction rs with
  | nil => simp [insertNumber]
  | cons other rest ih =>
    simp only [insertNumber]
    split
    · simp
    · split
      · simp_all
      · simp only [List.mem_cons, ih]
        tauto

/-! ## What is erased -/

theorem eraseSameNb_fst (nodeAddr : Node) (tuples : List (Nb2hopTuple Node)) :
    (eraseSameNb nodeAddr tuples).1 = tuples.filter fun tuple => nodeAddr ≠ tuple.nb_node_addr := by
  induction tuples with
  | nil => rfl
  | cons tuple rest ih =>
    simp only [eraseSameNb]
    split <;> simp_all

theorem mem_eraseSameNb_snd {nodeAddr addr : Node} {tuples : List (Nb2hopTuple Node)} :
    addr ∈ (eraseSameNb nodeAddr tuples).2 ↔
      ∃ tuple ∈ tuples, tuple.nb_node_addr = nodeAddr ∧ tuple.nb2hop_addr = addr := by
  induction tuples with
  | nil => simp [eraseSameNb]
  | cons tuple rest ih =>
    simp only [eraseSameNb, List.exists_mem_cons_iff]
    split
    · rename_i hsame
      subst hsame
      simp only [mem_insertAddr, ih, true_and, eq_comm (a := addr)]
    · rename_i hother
      simp only [ih, Ne.symm hother, false_and, false_or]

theorem mem_eraseHops {addrs : List Node} {state : List (Nb2hopTuple Node) × Bool}
    {tuple : Nb2hopTuple Node} :
    tuple ∈ (addrs.foldl eraseHop state).1 ↔ tuple ∈ state.1 ∧ tuple.nb2hop_addr ∉ addrs := by
  induction addrs generalizing state with
  | nil => simp
  | cons addr rest ih =>
    simp only [List.foldl_cons, ih, eraseHop, List.mem_filter, decide_eq_true_eq, List.mem_cons,
      not_or, ne_eq, and_assoc]

/-! ## What has left the list -/

/-- Whatever has left the list is covered by a relay, and each relay is eligible. -/
structure Narrowed (eligible : Node → Prop) (all N2 : List (Nb2hopTuple Node))
    (mprset : List Node) : Prop where
  subset : ∀ tuple ∈ N2, tuple ∈ all
  covered : ∀ tuple ∈ all, tuple ∉ N2 →
    ∃ other ∈ all, other.nb_node_addr ∈ mprset ∧ other.nb2hop_addr = tuple.nb2hop_addr
  chosen : ∀ addr ∈ mprset, eligible addr

variable {eligible : Node → Prop} {all N2 : List (Nb2hopTuple Node)} {mprset : List Node}

/-- Choosing a relay: what goes leads to where the relay leads. -/
theorem Narrowed.choose (hnarrow : Narrowed eligible all N2 mprset) {addr : Node}
    (heligible : eligible addr) {left : List (Nb2hopTuple Node)}
    (hleft : ∀ tuple ∈ left, tuple ∈ N2)
    (hgone : ∀ tuple ∈ N2, tuple ∉ left →
      ∃ other ∈ N2, other.nb_node_addr = addr ∧ other.nb2hop_addr = tuple.nb2hop_addr) :
    Narrowed eligible all left (insertAddr addr mprset) where
  subset tuple htuple := hnarrow.subset tuple (hleft tuple htuple)
  covered tuple hall htuple := by
    by_cases hin : tuple ∈ N2
    · -- It leaves now.
      obtain ⟨other, hother, hnb, hhop⟩ := hgone tuple hin htuple
      exact ⟨other, hnarrow.subset other hother, mem_insertAddr.mpr (.inl hnb), hhop⟩
    · -- It has left before, and no relay is taken back.
      obtain ⟨other, hother, hnb, hhop⟩ := hnarrow.covered tuple hall hin
      exact ⟨other, hother, mem_insertAddr.mpr (.inr hnb), hhop⟩
  chosen other hother := by
    rcases mem_insertAddr.mp hother with rfl | hbefore
    · exact heligible
    · exact hnarrow.chosen other hbefore

omit [DecidableEq Node] in
theorem mem_iff_around {i : ℕ} (hi : i < N2.length) {tuple : Nb2hopTuple Node} :
    tuple ∈ N2 ↔ tuple ∈ N2.take i ∨ tuple = N2[i] ∨ tuple ∈ N2.drop (i + 1) := by
  conv_lhs => rw [← List.take_append_drop i N2, List.drop_eq_getElem_cons hi]
  simp only [List.mem_append, List.mem_cons]

theorem mem_swept {i : ℕ} {addr : Node} {tuple : Nb2hopTuple Node} {erased}
    (herased : erased = eraseSameNb addr (N2.drop (i + 1))) :
    tuple ∈ (erased.2.foldl eraseHop (N2.take i ++ erased.1, false)).1 ↔
      (tuple ∈ N2.take i ∨ tuple ∈ N2.drop (i + 1) ∧ addr ≠ tuple.nb_node_addr) ∧
        tuple.nb2hop_addr ∉ erased.2 := by
  simp only [herased, mem_eraseHops, eraseSameNb_fst, List.mem_append, List.mem_filter,
    decide_eq_true_eq]

theorem chooseOnly_narrowed (N : List (NbTuple Node)) (i : ℕ) (foundset : List Node)
    (heligible : ∀ tuple ∈ all, eligible tuple.nb_node_addr)
    (hnarrow : Narrowed eligible all N2 mprset) :
    Narrowed eligible all (chooseOnly N N2 i foundset mprset).1
      (chooseOnly N N2 i foundset mprset).2 := by
  induction N2, i, foundset, mprset using chooseOnly.induct N with
  | case1 N2 i foundset mprset hi tuple hfound ih =>
    rw [chooseOnly, dif_pos hi, if_pos hfound]
    exact ih hnarrow
  | case2 N2 i foundset mprset hi tuple hfound hnb hagain ih =>
    rw [chooseOnly, dif_pos hi, if_neg hfound, if_pos hnb, if_pos hagain]
    exact ih hnarrow
  | case3 N2 i foundset mprset hi tuple hfound hnb honly erased swept ih =>
    rw [chooseOnly, dif_pos hi, if_neg hfound, if_pos hnb, if_neg honly]
    refine ih (hnarrow.choose (heligible tuple (hnarrow.subset tuple (List.getElem_mem hi))) ?_ ?_)
    · intro kept hkept
      obtain ⟨hbefore | ⟨hafter, -⟩, -⟩ := (mem_swept rfl).mp hkept
      · exact (mem_iff_around hi).mpr (.inl hbefore)
      · exact (mem_iff_around hi).mpr (.inr (.inr hafter))
    · intro gone hgone hleft
      by_cases hhop : gone.nb2hop_addr ∈ erased.2
      · -- It leads to where a tuple of the relay behind `i` leads.
        obtain ⟨other, hother, hnb, hsame⟩ := mem_eraseSameNb_snd.mp hhop
        exact ⟨other, (mem_iff_around hi).mpr (.inr (.inr hother)), hnb, hsame⟩
      · -- It is a tuple of the relay itself.
        refine ⟨gone, hgone, ?_, rfl⟩
        by_contra hnb
        refine hleft ((mem_swept rfl).mpr ⟨?_, hhop⟩)
        rcases (mem_iff_around hi).mp hgone with hbefore | hhere | hafter
        · exact .inl hbefore
        · exact absurd (congrArg Nb2hopTuple.nb_node_addr hhere) hnb
        · exact .inr ⟨hafter, Ne.symm hnb⟩
  | case4 N2 i foundset mprset hi tuple hfound hnb ih =>
    rw [chooseOnly, dif_pos hi, if_neg hfound, if_neg hnb]
    exact ih hnarrow
  | case5 N2 i foundset mprset hi =>
    rw [chooseOnly, dif_neg hi]
    exact hnarrow

/-! ## The neighbour that is chosen next -/

/-- A neighbour in the list that reaches somebody. -/
def Useful (N : List (NbTuple Node)) (N2 : List (Nb2hopTuple Node)) (nb : NbTuple Node) : Prop :=
  nb ∈ N ∧ 0 < reachability N2 nb

omit [DecidableEq Node] in
theorem better_eq (degree : NbTuple Node → ℕ) (r : ℕ) (max : Option (NbTuple Node × ℕ))
    (nb : NbTuple Node) :
    better degree r max nb = some (nb, r) ∨ max.isSome ∧ better degree r max nb = max := by
  unfold better
  split
  · exact .inl rfl
  · repeat' split
    all_goals simp

omit [DecidableEq Node] in
theorem mem_foldl_better {degree : NbTuple Node → ℕ} {r : ℕ} {nbs : List (NbTuple Node)}
    {max : Option (NbTuple Node × ℕ)} {best : NbTuple Node × ℕ}
    (hbest : best ∈ nbs.foldl (better degree r) max) : best.1 ∈ nbs ∨ best ∈ max := by
  induction nbs generalizing max with
  | nil => exact .inr hbest
  | cons nb rest ih =>
    rcases ih hbest with hrest | hmax
    · exact .inl (List.mem_cons_of_mem _ hrest)
    · rcases better_eq degree r max nb with heq | ⟨-, heq⟩
      · obtain rfl : (nb, r) = best := by simpa [heq] using hmax
        exact .inl List.mem_cons_self
      · exact .inr (heq ▸ hmax)

omit [DecidableEq Node] in
theorem isSome_foldl_better (degree : NbTuple Node → ℕ) (r : ℕ) {nbs : List (NbTuple Node)}
    {max : Option (NbTuple Node × ℕ)} (hsome : max.isSome ∨ nbs ≠ []) :
    (nbs.foldl (better degree r) max).isSome := by
  induction nbs generalizing max with
  | nil => simpa using hsome
  | cons nb rest ih =>
    refine ih (.inl ?_)
    rcases better_eq degree r max nb with heq | ⟨hmax, heq⟩
    · rw [heq]
      rfl
    · rwa [heq]

/-- The round for one number. -/
def selectAt (degree : NbTuple Node → ℕ) (N : List (NbTuple Node)) (N2 : List (Nb2hopTuple Node))
    (max : Option (NbTuple Node × ℕ)) (r : ℕ) : Option (NbTuple Node × ℕ) :=
  if r > 0 then (N.filter fun nb => reachability N2 nb = r).foldl (better degree r) max else max

theorem selectAt_useful {degree : NbTuple Node → ℕ} {N : List (NbTuple Node)}
    {max : Option (NbTuple Node × ℕ)} {r : ℕ} {best : NbTuple Node × ℕ}
    (hbest : best ∈ selectAt degree N N2 max r) : Useful N N2 best.1 ∨ best ∈ max := by
  unfold selectAt at hbest
  split at hbest
  · rename_i hr
    refine (mem_foldl_better hbest).imp_left fun hmem => ?_
    obtain ⟨hN, hreach⟩ := List.mem_filter.mp hmem
    exact ⟨hN, (of_decide_eq_true hreach).symm ▸ hr⟩
  · exact .inr hbest

theorem isSome_selectAt (degree : NbTuple Node → ℕ) {N : List (NbTuple Node)}
    {max : Option (NbTuple Node × ℕ)} {r : ℕ}
    (hsome : max.isSome ∨ ∃ nb, Useful N N2 nb ∧ reachability N2 nb = r) :
    (selectAt degree N N2 max r).isSome := by
  unfold selectAt
  split
  · refine isSome_foldl_better degree r (hsome.imp_right ?_)
    rintro ⟨nb, ⟨hN, -⟩, hreach⟩
    exact List.ne_nil_of_mem (List.mem_filter.mpr ⟨hN, decide_eq_true hreach⟩)
  · rename_i hr
    refine hsome.elim id ?_
    rintro ⟨nb, ⟨-, hpos⟩, hreach⟩
    exact absurd (hreach ▸ hpos) hr

theorem exists_select (degree : NbTuple Node → ℕ) {N : List (NbTuple Node)} {nb : NbTuple Node}
    (huseful : Useful N N2 nb) :
    ∃ best, select degree N N2 = some best ∧ Useful N N2 best.1 := by
  have hall : ∀ (rs : List ℕ) (max : Option (NbTuple Node × ℕ)),
      (∀ best ∈ max, Useful N N2 best.1) →
      ∀ best ∈ rs.foldl (selectAt degree N N2) max, Useful N N2 best.1 := by
    intro rs
    induction rs with
    | nil => exact fun max hmax => hmax
    | cons r rest ih =>
      exact fun max hmax => ih _ fun best hbest => (selectAt_useful hbest).elim id (hmax best)
  have hsome : ∀ (rs : List ℕ) (max : Option (NbTuple Node × ℕ)),
      (max.isSome ∨ reachability N2 nb ∈ rs) → (rs.foldl (selectAt degree N N2) max).isSome := by
    intro rs
    induction rs with
    | nil => exact fun max hmax => by simpa using hmax
    | cons r rest ih =>
      intro max hmax
      refine ih _ ?_
      rcases hmax with hmax | hr
      · exact .inl (isSome_selectAt degree (.inl hmax))
      · rcases List.mem_cons.mp hr with rfl | hrest
        · exact .inl (isSome_selectAt degree (.inr ⟨nb, huseful, rfl⟩))
        · exact .inr hrest
  have hrs : ∀ (nbs : List (NbTuple Node)) (rs : List ℕ), (nb ∈ nbs ∨ reachability N2 nb ∈ rs) →
      reachability N2 nb ∈ nbs.foldl (fun rs nb => insertNumber (reachability N2 nb) rs) rs := by
    intro nbs
    induction nbs with
    | nil => exact fun rs hmem => by simpa using hmem
    | cons other rest ih =>
      refine fun rs hmem => ih _ ?_
      rw [mem_insertNumber]
      rcases hmem with hmem | hmem
      · rcases List.mem_cons.mp hmem with rfl | hrest
        · exact .inr (.inl rfl)
        · exact .inl hrest
      · exact .inr (.inr hmem)
  obtain ⟨best, hbest⟩ := Option.isSome_iff_exists.mp
    (hsome _ none (.inr (hrs N [] (.inl huseful.1))))
  exact ⟨best, hbest, hall _ none (by simp) best hbest⟩

/-! ## The last step -/

/-- The neighbour of a tuple is in the list. -/
def Reached (N : List (NbTuple Node)) (N2 : List (Nb2hopTuple Node)) : Prop :=
  ∀ tuple ∈ N2, ∃ nb ∈ N, nb.nb_node_addr = tuple.nb_node_addr

theorem reachability_pos_iff {nb : NbTuple Node} :
    0 < reachability N2 nb ↔ ∃ tuple ∈ N2, nb.nb_node_addr = tuple.nb_node_addr := by
  simp [reachability, List.countP_pos_iff]

theorem Reached.exists_useful {N : List (NbTuple Node)} (hreached : Reached N N2)
    (hne : N2 ≠ []) : ∃ nb, Useful N N2 nb := by
  obtain ⟨tuple, htuple⟩ := List.exists_mem_of_ne_nil N2 hne
  obtain ⟨nb, hnb, haddr⟩ := hreached tuple htuple
  exact ⟨nb, hnb, reachability_pos_iff.mpr ⟨tuple, htuple, haddr⟩⟩

theorem mem_left {addr : Node} {tuple : Nb2hopTuple Node} {erased}
    (herased : erased = eraseSameNb addr N2) :
    tuple ∈ erased.1.filter (fun tuple => tuple.nb2hop_addr ∉ erased.2) ↔
      (tuple ∈ N2 ∧ addr ≠ tuple.nb_node_addr) ∧ tuple.nb2hop_addr ∉ erased.2 := by
  simp only [herased, eraseSameNb_fst, List.mem_filter, decide_eq_true_eq]

theorem Useful.length_lt {N : List (NbTuple Node)} {nb : NbTuple Node} (huseful : Useful N N2 nb)
    (keep : Nb2hopTuple Node → Bool) :
    ((eraseSameNb nb.nb_node_addr N2).1.filter keep).length < N2.length := by
  obtain ⟨tuple, htuple, haddr⟩ := reachability_pos_iff.mp huseful.2
  calc ((eraseSameNb nb.nb_node_addr N2).1.filter keep).length
      ≤ (eraseSameNb nb.nb_node_addr N2).1.length := List.length_filter_le _ _
    _ < N2.length := by
      rw [eraseSameNb_fst]
      exact List.length_filter_lt_length_iff_exists.mpr ⟨tuple, htuple, by simpa using haddr⟩

theorem chooseMost_spec (degree : NbTuple Node → ℕ) {N : List (NbTuple Node)}
    (heligible : ∀ tuple ∈ all, eligible tuple.nb_node_addr) (hreached : Reached N N2)
    (hnarrow : Narrowed eligible all N2 mprset) :
    ∃ mprs, chooseMost degree N N2 mprset = some mprs ∧ Narrowed eligible all [] mprs := by
  induction N2, mprset using chooseMost.induct degree N with
  | case1 mprset => exact ⟨mprset, by rw [chooseMost, if_pos rfl], hnarrow⟩
  | case2 N2 mprset hne hnone =>
    obtain ⟨nb, huseful⟩ := hreached.exists_useful hne
    obtain ⟨best, hbest, -⟩ := exists_select degree huseful
    exact absurd (hnone.symm.trans hbest) (by simp)
  | case3 N2 mprset hne max r hsome erased left hless ih =>
    obtain ⟨nb, huseful⟩ := hreached.exists_useful hne
    obtain ⟨best, hbest, hbestUseful⟩ := exists_select degree huseful
    obtain rfl : (max, r) = best := Option.some.inj (hsome.symm.trans hbest)
    obtain ⟨tuple, htuple, haddr⟩ := reachability_pos_iff.mp hbestUseful.2
    have hsub : ∀ kept ∈ left, kept ∈ N2 := fun kept hkept => ((mem_left rfl).mp hkept).1.1
    rw [chooseMost, if_neg hne, hsome]
    simp only
    rw [dif_pos hless]
    refine ih (fun kept hkept => hreached kept (hsub kept hkept)) (hnarrow.choose ?_ hsub ?_)
    · exact haddr ▸ heligible tuple (hnarrow.subset tuple htuple)
    · intro gone hgone hleft
      by_cases hhop : gone.nb2hop_addr ∈ erased.2
      · exact (mem_eraseSameNb_snd.mp hhop).imp fun other hother => hother
      · refine ⟨gone, hgone, ?_, rfl⟩
        by_contra hnb
        exact hleft ((mem_left rfl).mpr ⟨⟨hgone, Ne.symm hnb⟩, hhop⟩)
  | case4 N2 mprset hne max r hsome erased left hless =>
    obtain ⟨nb, huseful⟩ := hreached.exists_useful hne
    obtain ⟨best, hbest, hbestUseful⟩ := exists_select degree huseful
    obtain rfl : (max, r) = best := Option.some.inj (hsome.symm.trans hbest)
    exact absurd (hbestUseful.length_lt _) hless

/-! ## The relays -/

/-- The address is one of a symmetric neighbour that is willing to relay. -/
def Willing (nbset : List (NbTuple Node)) (addr : Node) : Prop :=
  ∃ nb ∈ nbset, nb.nb_node_addr = addr ∧ nb.status = .sym ∧ nb.willingness ≠ willNever

theorem findSymNbTuple_eq_some {addr : Node} {nbset : List (NbTuple Node)} {nb : NbTuple Node}
    (hfound : findSymNbTuple addr nbset = some nb) :
    nb ∈ nbset ∧ nb.nb_node_addr = addr ∧ nb.status = .sym :=
  ⟨List.mem_of_find?_eq_some hfound, by simpa using List.find?_some hfound⟩

theorem findSymNbTuple_eq_none_iff {addr : Node} {nbset : List (NbTuple Node)} :
    findSymNbTuple addr nbset = none ↔ ∀ nb ∈ nbset, nb.nb_node_addr = addr → nb.status ≠ .sym := by
  simp [findSymNbTuple, List.find?_eq_none]

omit [DecidableEq Node] in
theorem eq_of_addr_eq {nbset : List (NbTuple Node)}
    (hnodup : (nbset.map NbTuple.nb_node_addr).Nodup) {nb other : NbTuple Node} (hnb : nb ∈ nbset)
    (hother : other ∈ nbset) (haddr : nb.nb_node_addr = other.nb_node_addr) : nb = other :=
  List.inj_on_of_nodup_map hnodup hnb hother haddr

theorem admissible_iff {nbset : List (NbTuple Node)}
    (hnodup : (nbset.map NbTuple.nb_node_addr).Nodup) {tuple : Nb2hopTuple Node} :
    admissible nbset tuple = true ↔
      Willing nbset tuple.nb_node_addr ∧
        ∀ nb ∈ nbset, nb.nb_node_addr = tuple.nb2hop_addr → nb.status ≠ .sym := by
  rw [← findSymNbTuple_eq_none_iff]
  unfold admissible
  split
  · rename_i hnone
    have hnot : ¬ Willing nbset tuple.nb_node_addr := by
      rintro ⟨nb, hnb, haddr, hsym, -⟩
      exact findSymNbTuple_eq_none_iff.mp hnone nb hnb haddr hsym
    simp [hnot]
  · rename_i nb hnb
    obtain ⟨hmem, haddr, hsym⟩ := findSymNbTuple_eq_some hnb
    split
    · -- A second tuple of the address would have to be the first one.
      rename_i never hnever
      have hmem' := List.mem_of_find?_eq_some hnever
      obtain ⟨haddr', hwill⟩ :
          never.nb_node_addr = tuple.nb_node_addr ∧ never.willingness = willNever := by
        simpa using List.find?_some hnever
      have hnot : ¬ Willing nbset tuple.nb_node_addr := by
        rintro ⟨other, hother, haddrOther, -, hne⟩
        obtain rfl := eq_of_addr_eq hnodup hother hmem' (haddrOther.trans haddr'.symm)
        exact hne hwill
      simp [hnot]
    · rename_i hnone
      have hwilling : Willing nbset tuple.nb_node_addr :=
        ⟨nb, hmem, haddr, hsym, fun hwill => by
          have := List.find?_eq_none.mp hnone nb hmem
          exact this (decide_eq_true ⟨haddr, hwill⟩)⟩
      simp [hwilling]

theorem mem_always {nbset : List (NbTuple Node)} {addr : Node} {mprset : List Node}
    (haddr : addr ∈ nbset.foldl insertAlways mprset) :
    addr ∈ mprset ∨ ∃ nb ∈ nbset, nb.nb_node_addr = addr ∧ nb.willingness = willAlways := by
  induction nbset generalizing mprset with
  | nil => exact .inl haddr
  | cons nb rest ih =>
    rcases ih haddr with hbefore | ⟨other, hother, hrest⟩
    · unfold insertAlways at hbefore
      split at hbefore
      · rename_i halways
        rcases mem_insertAddr.mp hbefore with rfl | hbefore
        · exact .inr ⟨nb, List.mem_cons_self, rfl, halways⟩
        · exact .inl hbefore
      · exact .inl hbefore
    · exact .inr ⟨other, List.mem_cons_of_mem _ hother, hrest⟩

/-- What the relays are for: they are symmetric neighbours, none of them is one
that never relays, and each node behind a willing neighbour hears a relay unless
it is a symmetric neighbour. -/
structure MprRight (nbset : List (NbTuple Node)) (nb2hopset : List (Nb2hopTuple Node))
    (mprset : List Node) : Prop where
  symmetric : ∀ addr ∈ mprset, ∃ nb ∈ nbset, nb.nb_node_addr = addr ∧ nb.status = .sym
  never : ∀ nb ∈ nbset, nb.willingness = willNever → nb.nb_node_addr ∉ mprset
  covered : ∀ tuple ∈ nb2hopset, Willing nbset tuple.nb_node_addr →
    (∀ nb ∈ nbset, nb.nb_node_addr = tuple.nb2hop_addr → nb.status ≠ .sym) →
    ∃ other ∈ nb2hopset, other.nb_node_addr ∈ mprset ∧ other.nb2hop_addr = tuple.nb2hop_addr

/-- `mpr_computation` ends, and what it leaves covers the 2-hop neighbours. -/
theorem mprComputation_right (nbset : List (NbTuple Node)) (nb2hopset : List (Nb2hopTuple Node))
    (hnodup : (nbset.map NbTuple.nb_node_addr).Nodup) :
    ∃ mprset, mprComputation nbset nb2hopset = some mprset ∧ MprRight nbset nb2hopset mprset := by
  set N2 := nb2hopset.filter (admissible nbset) with hN2
  have hwilling : ∀ tuple ∈ N2, Willing nbset tuple.nb_node_addr := by
    intro tuple htuple
    exact ((admissible_iff hnodup).mp (List.mem_filter.mp htuple).2).1
  have hinitial : Narrowed (Willing nbset) N2 N2
      ((symNeighbours nbset).foldl insertAlways []) := by
    refine ⟨fun _ htuple => htuple, fun _ hin hout => absurd hin hout, fun addr haddr => ?_⟩
    rcases mem_always haddr with hnil | ⟨nb, hnb, haddrNb, halways⟩
    · exact absurd hnil List.not_mem_nil
    · obtain ⟨hmem, hsym⟩ := List.mem_filter.mp hnb
      exact ⟨nb, hmem, haddrNb, of_decide_eq_true hsym, by rw [halways]; decide⟩
  have hstep3 := chooseOnly_narrowed (symNeighbours nbset) 0 [] hwilling hinitial
  have hreached : Reached (symNeighbours nbset) (chooseOnly (symNeighbours nbset) N2 0 []
      ((symNeighbours nbset).foldl insertAlways [])).1 := by
    intro tuple htuple
    obtain ⟨nb, hnb, haddr, hsym, -⟩ := hwilling tuple (hstep3.subset tuple htuple)
    exact ⟨nb, List.mem_filter.mpr ⟨hnb, decide_eq_true hsym⟩, haddr⟩
  obtain ⟨mprset, hresult, hdone⟩ :=
    chooseMost_spec (degree nbset nb2hopset) hwilling hreached hstep3
  refine ⟨mprset, hresult, ?_, ?_, ?_⟩
  · intro addr haddr
    obtain ⟨nb, hnb, haddrNb, hsym, -⟩ := hdone.chosen addr haddr
    exact ⟨nb, hnb, haddrNb, hsym⟩
  · intro nb hnb hnever haddr
    obtain ⟨other, hother, haddrOther, -, hwill⟩ := hdone.chosen _ haddr
    exact hwill (eq_of_addr_eq hnodup hother hnb haddrOther ▸ hnever)
  · intro tuple htuple hnb hhop
    obtain ⟨other, hother, hcovers⟩ := hdone.covered tuple
      (List.mem_filter.mpr ⟨htuple, (admissible_iff hnodup).mpr ⟨hnb, hhop⟩⟩) List.not_mem_nil
    exact ⟨other, (List.mem_filter.mp hother).1, hcovers⟩

/-- Two neighbours lead to the same node, and one of them to another one. -/
theorem mprComputation_right_two :
    ∃ mprset,
      mprComputation [⟨1, .sym, 3⟩, ⟨2, .sym, 3⟩, ⟨3, .notSym, 7⟩, ⟨4, .sym, 0⟩]
        [⟨1, 10⟩, ⟨2, 10⟩, ⟨2, 11⟩, ⟨1, 2⟩, ⟨4, 12⟩] = some mprset ∧
      MprRight [⟨1, .sym, 3⟩, ⟨2, .sym, 3⟩, ⟨3, .notSym, 7⟩, ⟨4, .sym, 0⟩]
        [⟨1, 10⟩, ⟨2, 10⟩, ⟨2, 11⟩, ⟨1, 2⟩, ⟨4, 12⟩] mprset :=
  @mprComputation_right ℕ _ _ _ (by decide)

end Wiselib.Routing.Olsr
