import Wiselib.TupleStore.CodecTupleStore

/-!
# Masked queries of the tuple store

What an iteration from `begin` with `operator++` goes through, and what `erase`
makes of it, for the tuple store with dictionary columns and for its
specialisation without any, both of `util/tuple_store/tuplestore.h`.

## Strategy

`Follows` says what an iterator of a query is like between two calls: on the
tuples that are still before it, comparing cells is comparing terms with the
query (`agrees`), and it is at such a tuple or at the end.

* `begin` makes such an iterator (`follows_begin`), whether or not all terms of
  the query are in the dictionary.
* `operator++` and `erase` keep it one (`Follows.next`, `Follows.erase`).
* It visits what agrees of the tuples before it (`Follows.visits`).

The specialisation constructs its iterators with the null pointer as the query,
which its `set_query` copies.  So the statement about `erase` holds exactly for
the stores that have dictionary columns, or no columns at all.
-/

namespace Wiselib.TupleStore

open Transition

section Store

variable {Term Key : Type} [DecidableEq Term] [DecidableEq Key]
variable {parameters : Parameters Term Key}

/-! ## The specialisation without dictionary columns -/

/-- `begin` of the specialisation, which copies all columns of the query. -/
def beginPlain (store : Store parameters) (query : Row parameters.config Term) (mask : ℕ) :
    Iterator parameters :=
  forward store ⟨0, fun i => (query i).elim .null .data, mask⟩

/-- `deep_copy` from a pointer to a tuple.  Through a null pointer no column can be
read. -/
def deepCopy (source : Option (Tuple parameters.config Term Key)) :
    Option (Tuple parameters.config Term Key) :=
  match source with
  | some tuple => some tuple
  | none => if parameters.config.columns = 0 then some fun _ => .null else none

/-- The constructor of the iterator with `set_query`. -/
def iteratorPlain (store : Store parameters) (position : ℕ)
    (query : Option (Tuple parameters.config Term Key)) (mask : ℕ) :
    Option (Iterator parameters) := do
  let copy ← deepCopy query
  return forward store ⟨position, copy, mask⟩

/-- `erase` of the specialisation. -/
def erasePlain (store : Store parameters) (iterator : Iterator parameters) :
    Option (Store parameters × Iterator parameters) :=
  match store.tuples[iterator.position]? with
  | none => none
  | some _ =>
      let (container, nextc) := parameters.container.erase store.container iterator.position
      let erased : Store parameters := ⟨store.dictionary, container⟩
      match iteratorPlain erased nextc none 0 with
      | none => none
      | some r =>
          some (erased, forward erased { r with
            query := iterator.query
            mask := iterator.mask })

/-- `begin` of the class that `DICTIONARY_COLUMNS` selects. -/
def beginTuples (store : Store parameters) (query : Row parameters.config Term) (mask : ℕ) :
    Iterator parameters :=
  if parameters.config.dictionaryColumns = 0 then beginPlain store query mask
  else beginQuery store query mask

/-- `erase` of the class that `DICTIONARY_COLUMNS` selects. -/
def eraseTuple (store : Store parameters) (iterator : Iterator parameters) :
    Option (Store parameters × Iterator parameters) :=
  if parameters.config.dictionaryColumns = 0 then erasePlain store iterator
  else erase store iterator

/-! ## What a query asks for -/

/-- The stored tuple agrees with the query in all columns of the mask: in the term of a
dictionary column, and in what `Compare_P` says about another one. -/
def agrees (store : Store parameters) (query : Row parameters.config Term) (mask : ℕ)
    (tuple : Tuple parameters.config Term Key) : Bool :=
  (List.finRange parameters.config.columns).all fun i =>
    if mask.testBit i then
      if parameters.config.inDictionary i then termAt store.dictionary tuple i = query i
      else parameters.compare i (tuple i) ((query i).elim .null .data) = 0
    else true

/-- The stored tuples that the iterator is at, from one `operator++` to the next, until it
is at the end. -/
inductive Visits (store : Store parameters) :
    Iterator parameters → List (Tuple parameters.config Term Key) → Prop where
  | done {iterator : Iterator parameters} (hend : store.tuples[iterator.position]? = none) :
      Visits store iterator []
  | step {iterator : Iterator parameters} {tuple : Tuple parameters.config Term Key}
      {rest : List (Tuple parameters.config Term Key)}
      (htuple : store.tuples[iterator.position]? = some tuple)
      (hrest : Visits store (next store iterator) rest) : Visits store iterator (tuple :: rest)

/-- The contents of a store: with dictionary columns what insertions and erasures leave;
the specialisation may be given any container of deep copies. -/
def Content (store : Store parameters) : Prop :=
  if parameters.config.dictionaryColumns = 0 then
    store.dictionary = parameters.dictionary.empty ∧
      ∀ tuple ∈ store.tuples, ∀ i, ∃ term, tuple i = .data term
  else ∃ operations, Run (stepOf perform) (Store.init parameters) operations store

/-- A store and an iterator of the query, after any number of `operator++` and erasures
through the iterator. -/
inductive Iterating (query : Row parameters.config Term) (mask : ℕ) :
    Store parameters → Iterator parameters → Prop where
  | begin {store : Store parameters} (hcontent : Content store) :
      Iterating query mask store (beginTuples store query mask)
  | next {store : Store parameters} {iterator : Iterator parameters}
      {tuple : Tuple parameters.config Term Key} (hiterating : Iterating query mask store iterator)
      (htuple : store.tuples[iterator.position]? = some tuple) :
      Iterating query mask store (next store iterator)
  | erase {store erased : Store parameters} {iterator following : Iterator parameters}
      (hiterating : Iterating query mask store iterator)
      (herase : eraseTuple store iterator = some (erased, following)) :
      Iterating query mask erased following

/-! ## What a store holds -/

omit [DecidableEq Key] in
theorem inDictionary_eq_false (hplain : parameters.config.dictionaryColumns = 0)
    (i : Fin parameters.config.columns) : ¬ parameters.config.inDictionary i = true := by
  simp [Config.inDictionary, hplain]

omit [DecidableEq Key] in
/-- Without dictionary columns a container of deep copies is a table of its terms. -/
theorem holds_of_plain {store : Store parameters}
    (hplain : parameters.config.dictionaryColumns = 0)
    (hdictionary : store.dictionary = parameters.dictionary.empty)
    (hcells : ∀ tuple ∈ store.tuples, ∀ i, ∃ term, tuple i = .data term) :
    ∃ table, Holds store table := by
  have hcolumns : dictionaryColumns parameters.config = [] :=
    List.filter_eq_nil_iff.2 fun i _ => inDictionary_eq_false hplain i
  have htable : ∀ tuples : List (Tuple parameters.config Term Key),
      (∀ tuple ∈ tuples, ∀ i, ∃ term, tuple i = .data term) →
      ∃ table : List (Fin parameters.config.columns → Term),
        tuples = table.map (cellOf store.dictionary) := by
    intro tuples
    induction tuples with
    | nil => exact fun _ => ⟨[], rfl⟩
    | cons tuple rest ih =>
        intro hdata
        obtain ⟨table, rfl⟩ := ih fun other hother => hdata other (List.mem_cons_of_mem _ hother)
        choose t ht using hdata tuple List.mem_cons_self
        refine ⟨t :: table, ?_⟩
        rw [List.map_cons]
        congr 1
        funext i
        rw [ht i, cellOf_of_data (inDictionary_eq_false hplain i)]
  obtain ⟨table, heq⟩ := htable store.tuples hcells
  refine ⟨table, ⟨fun tuple _ i hdict => absurd hdict (inDictionary_eq_false hplain i),
    fun term => ?_⟩, List.Perm.of_eq heq,
    fun t _ i hdict => absurd hdict (inDictionary_eq_false hplain i)⟩
  rw [hdictionary, parameters.dictionary.counter_empty, references, hcolumns, List.product_nil]
  rfl

/-- An iterator at a tuple that is found, or at the end, has terms to read. -/
theorem Holds.exists_reads {store : Store parameters}
    {table : List (Fin parameters.config.columns → Term)} (hholds : Holds store table)
    {iterator : Iterator parameters}
    (hhead : ∀ tuple ∈ (store.tuples.drop iterator.position).head?,
      iterator.found tuple = true) :
    ∃ rest, Reads store iterator rest := by
  have hterms : ∀ tuples : List (Tuple parameters.config Term Key),
      (∀ tuple ∈ tuples, tuple ∈ store.tuples) →
      ∃ rest : List (Fin parameters.config.columns → Term),
        tuples = rest.map (cellOf store.dictionary) ∧ ∀ t ∈ rest, Live store.dictionary t := by
    intro tuples
    induction tuples with
    | nil => exact fun _ => ⟨[], rfl, fun t ht => absurd ht List.not_mem_nil⟩
    | cons tuple others ih =>
        intro hmem
        obtain ⟨rest, rfl, hlive⟩ := ih fun other hother => hmem other (List.mem_cons_of_mem _ hother)
        obtain ⟨t, -, ht, rfl⟩ := hholds.live_of_mem (hmem tuple List.mem_cons_self)
        refine ⟨t :: rest, rfl, fun u hu => ?_⟩
        rcases List.mem_cons.1 hu with rfl | hu
        · exact ht
        · exact hlive u hu
  obtain ⟨rest, heq, hlive⟩ := hterms
    ((store.tuples.drop iterator.position).filter iterator.found)
    fun tuple htuple => List.mem_of_mem_drop (List.mem_of_mem_filter htuple)
  exact ⟨rest, heq, hhead, hlive⟩

variable {accepts : ℕ → Bool} (hlawful : Lawful parameters accepts)

include hlawful

theorem Holds.erased {store erased : Store parameters}
    {table : List (Fin parameters.config.columns → Term)} (hholds : Holds store table)
    {iterator following : Iterator parameters}
    (herase : erase store iterator = some (erased, following)) :
    ∃ others, Holds erased others := by
  obtain ⟨tuple, htuple, hresult⟩ := Option.bind_eq_some_iff.1 herase
  have hfound : Iterator.found (⟨iterator.position, fun _ => .null, 0⟩ : Iterator parameters) =
      fun _ => true := by
    funext tuple
    simp [Iterator.found]
  obtain ⟨rest, hreads⟩ := @Holds.exists_reads _ _ _ _ _ _ _ hholds
    ⟨iterator.position, fun _ => .null, 0⟩ fun _ _ => by rw [hfound]
  cases rest with
  | nil =>
      have hnone := hreads.deref_nil
      simp [deref, htuple] at hnone
  | cons t rest =>
      obtain ⟨-, other, start, hother, hnext, -⟩ := erase_spec hlawful hholds hreads
      -- the query of the iterator makes no difference for the store
      have hsame : (erase store iterator).map Prod.fst =
          (erase store ⟨iterator.position, fun _ => .null, 0⟩).map Prod.fst := by
        simp [erase, htuple]
      rw [herase, hother] at hsame
      obtain rfl := Option.some.inj hsame
      exact ⟨_, hnext⟩

theorem holds_of_run {operations : List (Op parameters)} {store : Store parameters}
    (hrun : Run (stepOf perform) (Store.init parameters) operations store) :
    ∃ table, Holds store table := by
  have hstep : ∀ state op next, (∃ table, Holds state table) → stepOf perform state op next →
      ∃ table, Holds (next : Store parameters) table := by
    rintro state op next ⟨table, hholds⟩ hstep
    cases op with
    | insert t =>
        obtain rfl := Option.some.inj hstep
        by_cases hmem : t ∈ table
        · exact ⟨table, (hholds.insert_mem hlawful hmem).1⟩
        · cases haccepts : accepts table.length with
          | true => exact ⟨t :: table, (hholds.insert_new hlawful hmem haccepts).1⟩
          | false => exact ⟨table, (hholds.insert_full hlawful hmem haccepts).1⟩
    | erase iterator =>
        obtain ⟨⟨erased, following⟩, herase, rfl⟩ := Option.map_eq_some_iff.1 hstep
        exact hholds.erased hlawful herase
  exact hrun.invariant hstep ⟨[], holds_init parameters⟩

omit hlawful in
theorem content_of_run (hplain : parameters.config.dictionaryColumns ≠ 0)
    {operations : List (Op parameters)} {store : Store parameters}
    (hrun : Run (stepOf perform) (Store.init parameters) operations store) : Content store := by
  rw [Content, if_neg hplain]
  exact ⟨operations, hrun⟩

theorem Content.holds {store : Store parameters} (hcontent : Content store) :
    ∃ table, Holds store table := by
  unfold Content at hcontent
  split_ifs at hcontent with hplain
  · exact holds_of_plain hplain hcontent.1 hcontent.2
  · obtain ⟨operations, hrun⟩ := hcontent
    exact holds_of_run hlawful hrun

/-! ## Comparing cells is comparing terms -/

/-- An iterator that has the cells of the query finds what agrees with it. -/
theorem found_eq_agrees {store : Store parameters}
    {table : List (Fin parameters.config.columns → Term)} (hholds : Holds store table)
    {query : Row parameters.config Term} {iterator : Iterator parameters}
    (hcells : ∀ i : Fin parameters.config.columns, iterator.mask.testBit i = true →
      copyCell store.dictionary i (query i) = some (iterator.query i))
    {tuple : Tuple parameters.config Term Key} (htuple : tuple ∈ store.tuples) :
    iterator.found tuple = agrees store query iterator.mask tuple := by
  obtain ⟨t, -, hlive, rfl⟩ := hholds.live_of_mem htuple
  unfold Iterator.found agrees
  congr 1
  funext i
  by_cases hmask : iterator.mask.testBit i = true
  · have hcell := hcells i hmask
    rw [copyCell] at hcell
    rw [if_pos hmask, if_pos hmask]
    by_cases hdict : parameters.config.inDictionary i = true
    · rw [if_pos hdict] at hcell
      obtain ⟨key, hbind, heq⟩ := Option.map_eq_some_iff.1 hcell
      obtain ⟨term, hterm, hkey⟩ := Option.bind_eq_some_iff.1 hbind
      obtain ⟨other, hother⟩ := hlive i hdict
      rw [if_pos hdict, if_pos hdict, ← heq, cellOf_of_find hdict hother, hterm,
        decide_eq_decide, Cell.key.injEq, termAt_cellOf hlawful hlive hdict, Option.some.injEq]
      constructor
      · rintro rfl
        exact Option.some.inj (((hlawful.find_eq_some _ _ _).1 hother).symm.trans
          ((hlawful.find_eq_some _ _ _).1 hkey))
      · rintro rfl
        exact Option.some.inj (hother.symm.trans hkey)
    · rw [if_neg hdict, Option.some.injEq] at hcell
      rw [if_neg hdict, if_neg hdict, hcell]
  · rw [if_neg hmask, if_neg hmask]

omit [DecidableEq Key] in
/-- With a term that is not in the dictionary the query agrees with no stored tuple. -/
theorem not_agrees_of_copyCell {store : Store parameters}
    {table : List (Fin parameters.config.columns → Term)} (hholds : Holds store table)
    {query : Row parameters.config Term} {mask : ℕ} {i : Fin parameters.config.columns}
    (hmask : mask.testBit i = true) (hcell : copyCell store.dictionary i (query i) = none)
    {tuple : Tuple parameters.config Term Key} (htuple : tuple ∈ store.tuples) :
    agrees store query mask tuple = false := by
  obtain ⟨t, -, hlive, rfl⟩ := hholds.live_of_mem htuple
  rw [copyCell] at hcell
  by_cases hdict : parameters.config.inDictionary i = true
  · rw [if_pos hdict, Option.map_eq_none_iff] at hcell
    obtain ⟨key, hkey⟩ := hlive i hdict
    refine List.all_eq_false.2 ⟨i, List.mem_finRange i, ?_⟩
    rw [if_pos hmask, if_pos hdict, termAt_cellOf hlawful hlive hdict, decide_eq_true_eq]
    intro heq
    rw [← heq, Option.bind_some, hkey] at hcell
    cases hcell
  · rw [if_neg hdict] at hcell
    cases hcell

/-! ## The iterators of a query -/

omit hlawful in
/-- Before the iterator comparing cells is comparing terms, and it is at a tuple that
agrees or at the end. -/
structure Follows (query : Row parameters.config Term) (mask : ℕ) (store : Store parameters)
    (iterator : Iterator parameters) : Prop where
  found : ∀ tuple ∈ store.tuples.drop iterator.position,
    iterator.found tuple = agrees store query mask tuple
  head : ∀ tuple ∈ (store.tuples.drop iterator.position).head?, iterator.found tuple = true

namespace Follows

variable {query : Row parameters.config Term} {mask : ℕ} {store : Store parameters}
variable {iterator : Iterator parameters}

omit hlawful

theorem of_forward
    (hfound : ∀ tuple ∈ store.tuples.drop iterator.position,
      iterator.found tuple = agrees store query mask tuple) :
    Follows query mask store (forward store iterator) := by
  obtain ⟨-, hhead⟩ := drop_findIdx iterator.found (store.tuples.drop iterator.position)
  rw [List.drop_drop] at hhead
  refine ⟨fun tuple htuple => hfound tuple ?_, hhead⟩
  have hdrop : store.tuples.drop (forward store iterator).position =
      (store.tuples.drop iterator.position).drop
        ((store.tuples.drop iterator.position).findIdx iterator.found) :=
    List.drop_drop.symm
  rw [hdrop] at htuple
  exact List.mem_of_mem_drop htuple

theorem filter_forward
    (hfound : ∀ tuple ∈ store.tuples.drop iterator.position,
      iterator.found tuple = agrees store query mask tuple) :
    (store.tuples.drop (forward store iterator).position).filter (agrees store query mask) =
      (store.tuples.drop iterator.position).filter (agrees store query mask) := by
  obtain ⟨hfilter, -⟩ := drop_findIdx iterator.found (store.tuples.drop iterator.position)
  rw [List.drop_drop] at hfilter
  calc (store.tuples.drop (forward store iterator).position).filter (agrees store query mask)
      = (store.tuples.drop (forward store iterator).position).filter iterator.found :=
        (List.filter_congr (of_forward hfound).found).symm
    _ = (store.tuples.drop iterator.position).filter iterator.found := hfilter
    _ = (store.tuples.drop iterator.position).filter (agrees store query mask) :=
        List.filter_congr hfound

theorem found_next (hfollows : Follows query mask store iterator) :
    ∀ tuple ∈ store.tuples.drop (iterator.position + 1),
      iterator.found tuple = agrees store query mask tuple := by
  intro tuple htuple
  rw [← List.drop_drop] at htuple
  exact hfollows.found tuple (List.mem_of_mem_drop htuple)

theorem next (hfollows : Follows query mask store iterator) :
    Follows query mask store (TupleStore.next store iterator) :=
  of_forward hfollows.found_next

theorem filter_next (hfollows : Follows query mask store iterator) :
    (store.tuples.drop (TupleStore.next store iterator).position).filter
        (agrees store query mask) =
      (store.tuples.drop (iterator.position + 1)).filter (agrees store query mask) :=
  @filter_forward _ _ _ _ _ _ _ _ { iterator with position := iterator.position + 1 }
    hfollows.found_next

theorem agrees_of_getElem? (hfollows : Follows query mask store iterator)
    {tuple : Tuple parameters.config Term Key}
    (htuple : store.tuples[iterator.position]? = some tuple) :
    agrees store query mask tuple = true := by
  have hhead : tuple ∈ (store.tuples.drop iterator.position).head? := by
    rw [List.head?_drop]
    exact htuple
  rw [← hfollows.found tuple (List.mem_of_mem_head? hhead)]
  exact hfollows.head tuple hhead

/-- **The iterator visits** what agrees with the query of the tuples before it, in the order
of the container. -/
theorem visits (hfollows : Follows query mask store iterator) :
    Visits store iterator
      ((store.tuples.drop iterator.position).filter (agrees store query mask)) := by
  -- on the number of tuples before the iterator
  induction hlength : store.tuples.length - iterator.position using Nat.strong_induction_on
    generalizing iterator with
  | _ length ih =>
      cases htuple : store.tuples[iterator.position]? with
      | none =>
          rw [List.drop_eq_nil_of_le (List.getElem?_eq_none_iff.1 htuple)]
          exact .done htuple
      | some tuple =>
          obtain ⟨hlt, heq⟩ := List.getElem?_eq_some_iff.1 htuple
          have hrest := ih _ ?_ hfollows.next rfl
          · rw [List.drop_eq_getElem_cons hlt, heq,
              List.filter_cons_of_pos (hfollows.agrees_of_getElem? htuple),
              ← hfollows.filter_next]
            exact .step htuple hrest
          · have hposition : iterator.position < (TupleStore.next store iterator).position :=
              Nat.lt_of_lt_of_le (Nat.lt_succ_self _) (Nat.le_add_right _ _)
            omega

end Follows

/-- **`begin`** is an iterator of the query, before all tuples that agree with it. -/
theorem follows_begin {store : Store parameters} (hcontent : Content store)
    (query : Row parameters.config Term) (mask : ℕ) :
    Follows query mask store (beginTuples store query mask) ∧
      (store.tuples.drop (beginTuples store query mask).position).filter
          (agrees store query mask) = store.tuples.filter (agrees store query mask) := by
  obtain ⟨table, hholds⟩ := hcontent.holds hlawful
  unfold beginTuples
  by_cases hplain : parameters.config.dictionaryColumns = 0
  · rw [if_pos hplain]
    have hcells : ∀ i : Fin parameters.config.columns, mask.testBit i = true →
        copyCell store.dictionary i (query i) = some ((query i).elim .null .data) :=
      fun i _ => if_neg (inDictionary_eq_false hplain i)
    have hfound : ∀ tuple ∈ store.tuples.drop 0,
        Iterator.found ⟨0, fun i => (query i).elim .null .data, mask⟩ tuple =
          agrees store query mask tuple := fun tuple htuple =>
      found_eq_agrees hlawful hholds hcells (List.mem_of_mem_drop htuple)
    exact ⟨.of_forward hfound, Follows.filter_forward hfound⟩
  · rw [if_neg hplain, beginQuery]
    obtain ⟨-, hall, hmissing⟩ := keyCopy_cells store.dictionary query mask
      (List.finRange parameters.config.columns) (fun _ => .null) (List.nodup_finRange _)
    generalize keyCopy parameters store.dictionary query mask
      (List.finRange parameters.config.columns) (fun _ => .null) = copied at *
    obtain ⟨copy, found⟩ := copied
    cases found with
    | false =>
        -- a term of the query is not in the dictionary
        obtain ⟨i, -, hmask, -, hcell⟩ := hmissing rfl
        have hnil : store.tuples.drop (endIterator store).position = [] :=
          List.drop_eq_nil_of_le (Nat.le_refl _)
        have hnone : store.tuples.filter (agrees store query mask) = [] :=
          List.filter_eq_nil_iff.2 fun tuple htuple => by
            rw [not_agrees_of_copyCell hlawful hholds hmask hcell htuple]
            exact Bool.false_ne_true
        refine ⟨⟨?_, ?_⟩, ?_⟩
        · rw [hnil]
          exact fun tuple htuple => absurd htuple List.not_mem_nil
        · rw [hnil]
          exact fun tuple htuple => absurd htuple (by simp)
        · rw [hnil, hnone]
          rfl
    | true =>
        have hfound : ∀ tuple ∈ store.tuples.drop 0,
            Iterator.found ⟨0, copy, mask⟩ tuple = agrees store query mask tuple :=
          fun tuple htuple => found_eq_agrees hlawful hholds
            (fun i hmask => hall rfl i (List.mem_finRange i) hmask) (List.mem_of_mem_drop htuple)
        exact ⟨.of_forward hfound, Follows.filter_forward hfound⟩

/-! ## `erase` -/

omit hlawful [DecidableEq Key] in
theorem releaseColumns_plain (hplain : parameters.config.dictionaryColumns = 0)
    (tuple : Tuple parameters.config Term Key) (columns : List (Fin parameters.config.columns))
    (dictionary : parameters.dictionary.State) :
    releaseColumns parameters tuple columns dictionary = dictionary := by
  induction columns with
  | nil => rfl
  | cons i rest ih => rw [releaseColumns, if_neg (inDictionary_eq_false hplain i), ih]

omit hlawful in
/-- Both `erase` functions release the terms of the tuple, and go on from the position that
the container hands out with a query that finds the same. -/
theorem eraseTuple_eq_some {store erased : Store parameters}
    {iterator following : Iterator parameters}
    (herase : eraseTuple store iterator = some (erased, following)) :
    ∃ tuple restored, store.tuples[iterator.position]? = some tuple ∧
      erased = ⟨releaseColumns parameters tuple (List.finRange parameters.config.columns)
        store.dictionary, (parameters.container.erase store.container iterator.position).1⟩ ∧
      following = forward erased restored ∧
      restored.position = (parameters.container.erase store.container iterator.position).2 ∧
      restored.found = iterator.found := by
  unfold eraseTuple at herase
  split_ifs at herase with hplain
  · unfold erasePlain at herase
    cases htuple : store.tuples[iterator.position]? with
    | none => simp [htuple] at herase
    | some tuple =>
        rw [htuple] at herase
        dsimp only at herase
        cases hcopy : deepCopy (none : Option (Tuple parameters.config Term Key)) with
        | none => simp [iteratorPlain, hcopy] at herase
        | some copy =>
            simp only [iteratorPlain, hcopy, Option.bind_eq_bind, Option.bind_some,
              Option.pure_def, Holds.forward_of_mask_zero, Option.some.injEq,
              Prod.mk.injEq] at herase
            obtain ⟨rfl, rfl⟩ := herase
            refine ⟨tuple, _, rfl, ?_, rfl, rfl, rfl⟩
            rw [releaseColumns_plain hplain]
  · obtain ⟨tuple, htuple, hresult⟩ := Option.bind_eq_some_iff.1 herase
    obtain ⟨rfl, rfl⟩ := Prod.mk.inj (Option.some.inj hresult)
    exact ⟨tuple, _, htuple, rfl, rfl, rfl, found_restored iterator _⟩

omit hlawful in
theorem eraseTuple_isSome_iff {store : Store parameters} {iterator : Iterator parameters}
    {tuple : Tuple parameters.config Term Key}
    (htuple : store.tuples[iterator.position]? = some tuple) :
    (eraseTuple store iterator).isSome ↔
      parameters.config.dictionaryColumns ≠ 0 ∨ parameters.config.columns = 0 := by
  by_cases hplain : parameters.config.dictionaryColumns = 0
  · by_cases hcolumns : parameters.config.columns = 0
    · simp [eraseTuple, hplain, erasePlain, htuple, iteratorPlain, deepCopy, hcolumns]
    · simp [eraseTuple, hplain, erasePlain, htuple, iteratorPlain, deepCopy, hcolumns]
  · simp [eraseTuple, hplain, erase, htuple]

theorem Holds.erasedTuple {store erased : Store parameters}
    {table : List (Fin parameters.config.columns → Term)} (hholds : Holds store table)
    {iterator following : Iterator parameters}
    (herase : eraseTuple store iterator = some (erased, following)) :
    ∃ others, Holds erased others := by
  obtain ⟨tuple, restored, htuple, rfl, -⟩ := eraseTuple_eq_some herase
  have hsame : ∃ other, erase store iterator = some (⟨releaseColumns parameters tuple
      (List.finRange parameters.config.columns) store.dictionary,
      (parameters.container.erase store.container iterator.position).1⟩, other) := by
    rw [erase, htuple]
    exact ⟨_, rfl⟩
  exact hholds.erased hlawful hsame.choose_spec

/-- **`erase`** goes on with the same query behind the erased tuple. -/
theorem Follows.erase {query : Row parameters.config Term} {mask : ℕ}
    {store erased : Store parameters} {iterator following : Iterator parameters}
    {table : List (Fin parameters.config.columns → Term)} (hholds : Holds store table)
    (hfollows : Follows query mask store iterator)
    (herase : eraseTuple store iterator = some (erased, following)) :
    Follows query mask erased following ∧
      ((erased.tuples.drop following.position).filter (agrees erased query mask)).Perm
        ((store.tuples.drop (iterator.position + 1)).filter (agrees store query mask)) := by
  obtain ⟨tuple, restored, htuple, rfl, rfl, hposition, hrestored⟩ := eraseTuple_eq_some herase
  have hperm := parameters.container.erase_perm store.container iterator.position tuple htuple
  have hbehind := hlawful.erase_position store.container iterator.position tuple htuple
  obtain ⟨-, hsame⟩ := releaseColumns_erased hholds.inv hperm
  generalize releaseColumns parameters tuple (List.finRange parameters.config.columns)
    store.dictionary = released at *
  generalize parameters.container.erase store.container iterator.position = container at *
  -- the terms of the tuples that are left are the same
  have hagrees : ∀ other ∈ parameters.container.tuples container.1,
      agrees (⟨released, container.1⟩ : Store parameters) query mask other =
        agrees store query mask other := by
    intro other hother
    unfold agrees
    congr 1
    funext i
    by_cases hdict : parameters.config.inDictionary i = true
    · obtain ⟨value, hbefore, hafter⟩ := hsame other hother i hdict
      simp only [hbefore, hafter]
    · simp only [if_neg hdict]
  have hfound : ∀ other ∈ (parameters.container.tuples container.1).drop restored.position,
      restored.found other =
        agrees (⟨released, container.1⟩ : Store parameters) query mask other := by
    intro other hother
    rw [hposition] at hother
    rw [hagrees other (List.mem_of_mem_drop hother), hrestored]
    exact hfollows.found_next other (hbehind.mem_iff.1 hother)
  refine ⟨.of_forward hfound, ?_⟩
  have hbefore : ((parameters.container.tuples container.1).drop container.2).filter
      (agrees (⟨released, container.1⟩ : Store parameters) query mask) =
        ((parameters.container.tuples container.1).drop container.2).filter
          (agrees store query mask) :=
    List.filter_congr fun other hother => hagrees other (List.mem_of_mem_drop hother)
  rw [Follows.filter_forward hfound, hposition]
  exact (List.Perm.of_eq hbefore).trans (hbehind.filter _)

/-! ## Iterating -/

theorem Iterating.follows {query : Row parameters.config Term} {mask : ℕ}
    {store : Store parameters} {iterator : Iterator parameters}
    (hiterating : Iterating query mask store iterator) :
    (∃ table, Holds store table) ∧ Follows query mask store iterator := by
  induction hiterating with
  | begin hcontent => exact ⟨hcontent.holds hlawful, (follows_begin hlawful hcontent _ _).1⟩
  | next _ _ ih => exact ⟨ih.1, ih.2.next⟩
  | erase _ herase ih =>
      obtain ⟨⟨table, hholds⟩, hfollows⟩ := ih
      exact ⟨hholds.erasedTuple hlawful herase, (hfollows.erase hlawful hholds herase).1⟩

omit hlawful in
/-- Erasing the tuple the iterator is at works, and returns an iterator that visits what
the query has behind that tuple. -/
def ErasesOn (query : Row parameters.config Term) (mask : ℕ) (store : Store parameters)
    (iterator : Iterator parameters) : Prop :=
  ∃ erased following rest, eraseTuple store iterator = some (erased, following) ∧
    Visits erased following rest ∧
      rest.Perm ((store.tuples.drop (iterator.position + 1)).filter (agrees store query mask))

/-- **Masked queries**: `begin` visits what agrees with the query, each once and in the order
of the container, and so does every iterator of the query with the tuples before it; erasing
through an iterator goes on with the query exactly if the store has dictionary columns, or
its tuples have no columns. -/
theorem masked_query_iff (query : Row parameters.config Term) (mask : ℕ) :
    (∀ store : Store parameters, Content store →
      Visits store (beginTuples store query mask)
        (store.tuples.filter (agrees store query mask))) ∧
      ∀ (store : Store parameters) (iterator : Iterator parameters),
        Iterating query mask store iterator →
        Visits store iterator
            ((store.tuples.drop iterator.position).filter (agrees store query mask)) ∧
          ∀ tuple, store.tuples[iterator.position]? = some tuple →
            (ErasesOn query mask store iterator ↔
              parameters.config.dictionaryColumns ≠ 0 ∨ parameters.config.columns = 0) := by
  refine ⟨fun store hcontent => ?_, fun store iterator hiterating => ?_⟩
  · obtain ⟨hfollows, hall⟩ := follows_begin hlawful hcontent query mask
    rw [← hall]
    exact hfollows.visits
  · obtain ⟨⟨table, hholds⟩, hfollows⟩ := hiterating.follows hlawful
    refine ⟨hfollows.visits, fun tuple htuple => ?_⟩
    rw [← eraseTuple_isSome_iff htuple]
    constructor
    · rintro ⟨erased, following, rest, herase, -⟩
      rw [herase]
      rfl
    · intro hsome
      obtain ⟨⟨erased, following⟩, herase⟩ := Option.isSome_iff_exists.1 hsome
      obtain ⟨hnext, hperm⟩ := hfollows.erase hlawful hholds herase
      exact ⟨erased, following, _, herase, hnext.visits, hperm⟩

end Store

/-! ## Concrete stores -/

/-- Two columns, the first of them in the dictionary; two tuples with the term 7 and one
without are there. -/
theorem masked_query_iff_columns :
    ∃ store : Store encodedColumns.parent, Content store ∧ store.size = 3 ∧
      Visits store (beginTuples store ![some 7, none] 1)
        (store.tuples.filter (agrees store ![some 7, none] 1)) := by
  have hrun : Run (stepOf perform) (Store.init encodedColumns.parent)
      [.insert ![7, 8], .insert ![5, 8], .insert ![7, 9]] _ :=
    .cons rfl <| .cons rfl <| .cons rfl <| .nil _
  have hcontent := content_of_run (by decide) hrun
  exact ⟨_, hcontent, by decide, (masked_query_iff (lawful_listContainer _ _ _) _ _).1 _ hcontent⟩

/-- One column, which is not in a dictionary. -/
def plainColumn : Parameters ℕ ℕ :=
  ⟨⟨1, 0⟩, countingDictionary ℕ 0, listContainer _, fun _ cell other => if cell = other then 0 else 1⟩

/-- A container with the tuple of the term 7. -/
def plainStore : Store plainColumn :=
  ⟨fun _ => 0, ⟨[fun _ => .data 7], List.nodup_singleton _⟩⟩

/-- The tuple of `plainStore` cannot be erased through the iterator that is at it. -/
theorem not_erasesOn_plainStore :
    ¬ ∀ (store : Store plainColumn) (iterator : Iterator plainColumn),
      Iterating (fun _ => some 7) 1 store iterator →
      ∀ tuple, store.tuples[iterator.position]? = some tuple →
        ErasesOn (fun _ => some 7) 1 store iterator := by
  intro hall
  have hcontent : Content plainStore := by
    refine ⟨rfl, fun tuple htuple i => ⟨7, ?_⟩⟩
    rw [List.mem_singleton.1 htuple]
  obtain ⟨erased, following, rest, herase, -⟩ :=
    hall plainStore _ (.begin hcontent) (fun _ => .data 7) rfl
  cases herase

end Wiselib.TupleStore
