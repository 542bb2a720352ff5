import Wiselib.TupleStore.TupleStore
import Wiselib.Library.CursorTable

/-!
# Queries of the tuple store

`begin`, `set_query`, `operator++` and `operator*` of `TupleStore` and its
iterator, and what a store with its iterators is: a table of distinct tuples of
terms (`implements`), whose columns the store keeps as keys and data.

## Strategy

The cells of a stored tuple are a function of its terms and the dictionary
(`cellOf`), as long as the terms are counted.

* A call that changes the dictionary keeps the keys of all counted terms, so the
  cells of the other tuples stay the same (`Live.cellOf_eq`).
* Different tuples of counted terms have different cells (`cellOf_injective`), so
  the container knows a tuple exactly if the table has it.
* A query compares cells, which is comparing terms (`found_cellOf`).
-/

namespace Wiselib.TupleStore

section Store

variable {Term Key : Type} [DecidableEq Term] [DecidableEq Key]
variable {parameters : Parameters Term Key}

/-! ## Iterators -/

/-- A tuple of the users: a term or a null pointer for each column. -/
abbrev Row (config : Config) (Term : Type) : Type := Fin config.columns → Option Term

/-- The loop of `key_copy`: keys or deep copies for the columns of the mask, up to the
first term that is not in the dictionary; false stands for `ERR_UNSPEC`. -/
def keyCopy (parameters : Parameters Term Key) (dictionary : parameters.dictionary.State)
    (source : Row parameters.config Term) (mask : ℕ) :
    List (Fin parameters.config.columns) → Tuple parameters.config Term Key →
      Tuple parameters.config Term Key × Bool
  | [], copy => (copy, true)
  | i :: rest, copy =>
      if mask.testBit i then
        if parameters.config.inDictionary i then
          match (source i).bind (parameters.dictionary.find dictionary) with
          | none => (copy, false)
          | some key =>
              keyCopy parameters dictionary source mask rest (Function.update copy i (.key key))
        else
          keyCopy parameters dictionary source mask rest
            (Function.update copy i ((source i).elim .null .data))
      else keyCopy parameters dictionary source mask rest copy

/-- `end`. -/
def endIterator (store : Store parameters) : Iterator parameters :=
  ⟨store.size, fun _ => .null, 0⟩

/-- `begin`. -/
def beginQuery (store : Store parameters) (query : Row parameters.config Term) (mask : ℕ) :
    Iterator parameters :=
  match keyCopy parameters store.dictionary query mask
    (List.finRange parameters.config.columns) fun _ => .null with
  | (_, false) => endIterator store
  | (copy, true) => forward store ⟨0, copy, mask⟩

/-- `set_query` of the iterator, which does not look at what `key_copy` returns. -/
def setQuery (store : Store parameters) (iterator : Iterator parameters)
    (query : Row parameters.config Term) (mask : ℕ) : Iterator parameters :=
  forward store
    { iterator with
      query := (keyCopy parameters store.dictionary query mask
        (List.finRange parameters.config.columns) iterator.query).1
      mask := mask }

/-- `operator++` of the iterator. -/
def next (store : Store parameters) (iterator : Iterator parameters) : Iterator parameters :=
  forward store { iterator with position := iterator.position + 1 }

/-- `update_current`: the terms of a stored tuple. -/
def updateCurrent (store : Store parameters) (tuple : Tuple parameters.config Term Key) :
    Row parameters.config Term := fun i =>
  if parameters.config.inDictionary i then termAt store.dictionary tuple i
  else
    match tuple i with
    | .data term => some term
    | _ => none

/-- `operator*` of the iterator, none at the end. -/
def deref (store : Store parameters) (iterator : Iterator parameters) :
    Option (Row parameters.config Term) :=
  store.tuples[iterator.position]?.map (updateCurrent store)

/-! ## What is asked of dictionary, container and comparison -/

/-- A dictionary finds exactly the live keys, one for each term; a container takes new
tuples as long as `accepts` says so of its size, hands out the position of what was
inserted, and goes on after what was erased. -/
structure Lawful (parameters : Parameters Term Key) (accepts : ℕ → Bool) : Prop where
  find_eq_some : ∀ state term key, parameters.dictionary.find state term = some key ↔
    parameters.dictionary.getValue state key = some term
  insert_accepted : ∀ state tuple, tuple ∉ parameters.container.tuples state →
    accepts (parameters.container.tuples state).length = true →
    (parameters.container.tuples (parameters.container.insert state tuple).1).Perm
      (tuple :: parameters.container.tuples state)
  insert_refused : ∀ state tuple, tuple ∉ parameters.container.tuples state →
    accepts (parameters.container.tuples state).length = false →
    (parameters.container.tuples (parameters.container.insert state tuple).1).Perm
      (parameters.container.tuples state)
  insert_position : ∀ state tuple,
    tuple ∈ parameters.container.tuples (parameters.container.insert state tuple).1 →
    (parameters.container.tuples (parameters.container.insert state tuple).1)[
      (parameters.container.insert state tuple).2]? = some tuple
  insert_end : ∀ state tuple,
    tuple ∉ parameters.container.tuples (parameters.container.insert state tuple).1 →
    (parameters.container.insert state tuple).2 =
      (parameters.container.tuples (parameters.container.insert state tuple).1).length
  erase_position : ∀ state position tuple,
    (parameters.container.tuples state)[position]? = some tuple →
    ((parameters.container.tuples (parameters.container.erase state position).1).drop
        (parameters.container.erase state position).2).Perm
      ((parameters.container.tuples state).drop (position + 1))

/-! ## The cells of a tuple -/

/-- The cells a store keeps for a tuple of terms. -/
def cellOf (dictionary : parameters.dictionary.State)
    (t : Fin parameters.config.columns → Term) : Tuple parameters.config Term Key := fun i =>
  if parameters.config.inDictionary i then
    (parameters.dictionary.find dictionary (t i)).elim .null .key
  else .data (t i)

/-- All dictionary columns have a key. -/
def Live (dictionary : parameters.dictionary.State)
    (t : Fin parameters.config.columns → Term) : Prop :=
  ∀ i, parameters.config.inDictionary i = true →
    ∃ key, parameters.dictionary.find dictionary (t i) = some key

omit [DecidableEq Key] in
theorem cellOf_of_find {dictionary : parameters.dictionary.State}
    {t : Fin parameters.config.columns → Term} {i : Fin parameters.config.columns} {key : Key}
    (hdict : parameters.config.inDictionary i = true)
    (hfind : parameters.dictionary.find dictionary (t i) = some key) :
    cellOf dictionary t i = .key key := by
  simp [cellOf, hdict, hfind]

omit [DecidableEq Key] in
theorem cellOf_of_data {dictionary : parameters.dictionary.State}
    {t : Fin parameters.config.columns → Term} {i : Fin parameters.config.columns}
    (hdict : ¬ parameters.config.inDictionary i = true) : cellOf dictionary t i = .data (t i) := by
  simp [cellOf, hdict]

omit [DecidableEq Key] in
theorem Live.cellOf_eq {first last : parameters.dictionary.State}
    {t : Fin parameters.config.columns → Term} (hlive : Live first t)
    (hkeep : ∀ i key, parameters.config.inDictionary i = true →
      parameters.dictionary.find first (t i) = some key →
      parameters.dictionary.find last (t i) = some key) :
    cellOf last t = cellOf first t ∧ Live last t := by
  constructor
  · funext i
    by_cases hdict : parameters.config.inDictionary i = true
    · obtain ⟨key, hkey⟩ := hlive i hdict
      rw [cellOf_of_find hdict hkey, cellOf_of_find hdict (hkeep i key hdict hkey)]
    · rw [cellOf_of_data hdict, cellOf_of_data hdict]
  · intro i hdict
    obtain ⟨key, hkey⟩ := hlive i hdict
    exact ⟨key, hkeep i key hdict hkey⟩

variable {accepts : ℕ → Bool} (hlawful : Lawful parameters accepts)

include hlawful

omit [DecidableEq Key] in
theorem termAt_cellOf {dictionary : parameters.dictionary.State}
    {t : Fin parameters.config.columns → Term} (hlive : Live dictionary t)
    {i : Fin parameters.config.columns} (hdict : parameters.config.inDictionary i = true) :
    termAt dictionary (cellOf dictionary t) i = some (t i) := by
  obtain ⟨key, hkey⟩ := hlive i hdict
  rw [termAt, cellOf_of_find hdict hkey]
  exact (hlawful.find_eq_some _ _ _).1 hkey

omit [DecidableEq Key] in
theorem find_of_termAt {dictionary : parameters.dictionary.State}
    {t : Fin parameters.config.columns → Term} {first : parameters.dictionary.State}
    {i : Fin parameters.config.columns} {key : Key} {term : Term}
    (hdict : parameters.config.inDictionary i = true)
    (hfind : parameters.dictionary.find first (t i) = some key)
    (hterm : termAt dictionary (cellOf first t) i = some term) :
    parameters.dictionary.find dictionary term = some key := by
  rw [termAt, cellOf_of_find hdict hfind] at hterm
  exact (hlawful.find_eq_some _ _ _).2 hterm

omit [DecidableEq Key] in
theorem cellOf_injective {dictionary : parameters.dictionary.State}
    {t u : Fin parameters.config.columns → Term} (hlive : Live dictionary t)
    (hcells : cellOf dictionary t = cellOf dictionary u) : t = u := by
  funext i
  have hcell := congrFun hcells i
  by_cases hdict : parameters.config.inDictionary i = true
  · obtain ⟨key, hkey⟩ := hlive i hdict
    rw [cellOf_of_find hdict hkey] at hcell
    cases hother : parameters.dictionary.find dictionary (u i) with
    | none => simp [cellOf, hdict, hother] at hcell
    | some other =>
        rw [cellOf_of_find hdict hother, Cell.key.injEq] at hcell
        subst hcell
        exact Option.some.inj (((hlawful.find_eq_some _ _ _).1 hkey).symm.trans
          ((hlawful.find_eq_some _ _ _).1 hother))
  · rw [cellOf_of_data hdict, cellOf_of_data hdict, Cell.data.injEq] at hcell
    exact hcell

omit [DecidableEq Key] in
theorem updateCurrent_cellOf {store : Store parameters}
    {t : Fin parameters.config.columns → Term} (hlive : Live store.dictionary t) :
    updateCurrent store (cellOf store.dictionary t) = fun i => some (t i) := by
  funext i
  unfold updateCurrent
  split_ifs with hdict
  · exact termAt_cellOf hlawful hlive hdict
  · rw [cellOf_of_data hdict]

/-! ## Interning and releasing -/

omit [DecidableEq Key] hlawful in
theorem internColumns_cells (t : Fin parameters.config.columns → Term) :
    ∀ (columns : List (Fin parameters.config.columns))
      (dictionary : parameters.dictionary.State) (tmp : Tuple parameters.config Term Key),
      columns.Nodup → ∀ i ∈ columns,
      (parameters.config.inDictionary i = true →
        ∃ key, (internColumns parameters t columns dictionary tmp).2 i = .key key) ∧
      (¬ parameters.config.inDictionary i = true →
        (internColumns parameters t columns dictionary tmp).2 i = .data (t i)) := by
  intro columns
  induction columns with
  | nil => exact fun _ _ _ i hi => absurd hi List.not_mem_nil
  | cons j rest ih =>
      intro dictionary tmp hnodup i hi
      obtain ⟨hj, hrest⟩ := List.nodup_cons.1 hnodup
      unfold internColumns
      rcases List.mem_cons.1 hi with rfl | hi
      · -- the later columns leave this one alone
        split_ifs with hcolumn
        · refine ⟨fun _ => ⟨(parameters.dictionary.insert dictionary (t i)).2, ?_⟩,
            fun h => absurd hcolumn h⟩
          rw [(internColumns_spec t rest _ _ hrest).2.2.2 i hj, Function.update_self]
        · refine ⟨fun h => absurd h hcolumn, fun _ => ?_⟩
          rw [(internColumns_spec t rest _ _ hrest).2.2.2 i hj, Function.update_self]
      · split_ifs with hcolumn
        · exact ih _ _ hrest i hi
        · exact ih _ _ hrest i hi

omit [DecidableEq Key] in
theorem internColumns_cellOf (t : Fin parameters.config.columns → Term)
    (dictionary : parameters.dictionary.State) :
    let interned := internColumns parameters t (List.finRange parameters.config.columns)
      dictionary fun _ => .null
    interned.2 = cellOf interned.1 t ∧ Live interned.1 t ∧
      ∀ term key, parameters.dictionary.find dictionary term = some key →
        parameters.dictionary.find interned.1 term = some key := by
  intro interned
  have hcells := internColumns_cells t (List.finRange parameters.config.columns) dictionary
    (fun _ => .null) (List.nodup_finRange _)
  obtain ⟨-, hkeep, hterm, -⟩ := internColumns_spec t
    (List.finRange parameters.config.columns) dictionary (fun _ => .null)
    (List.nodup_finRange _)
  have hfind : ∀ i key, parameters.config.inDictionary i = true → interned.2 i = .key key →
      parameters.dictionary.find interned.1 (t i) = some key := by
    intro i key hdict hkey
    have hvalue := hterm i (List.mem_finRange i) hdict
    change parameters.dictionary.getValue interned.1 (toKey parameters (interned.2 i)) = _
      at hvalue
    rw [hkey] at hvalue
    exact (hlawful.find_eq_some _ _ _).2 hvalue
  refine ⟨?_, fun i hdict => ?_, fun term key hkey => ?_⟩
  · funext i
    obtain ⟨hkeyed, hdata⟩ := hcells i (List.mem_finRange i)
    by_cases hdict : parameters.config.inDictionary i = true
    · obtain ⟨key, hkey⟩ := hkeyed hdict
      exact hkey.trans (cellOf_of_find hdict (hfind i key hdict hkey)).symm
    · exact (hdata hdict).trans (cellOf_of_data hdict).symm
  · obtain ⟨key, hkey⟩ := (hcells i (List.mem_finRange i)).1 hdict
    exact ⟨key, hfind i key hdict hkey⟩
  · exact (hlawful.find_eq_some _ _ _).2
      (hkeep key term ((hlawful.find_eq_some _ _ _).1 hkey))

/-! ## What a store holds -/

omit hlawful [DecidableEq Key] in
/-- The store holds the tuples of the table, in an order of its own. -/
structure Holds (store : Store parameters)
    (table : List (Fin parameters.config.columns → Term)) : Prop where
  inv : Inv store
  perm : store.tuples.Perm (table.map (cellOf store.dictionary))
  live : ∀ t ∈ table, Live store.dictionary t

namespace Holds

variable {store : Store parameters} {table : List (Fin parameters.config.columns → Term)}

omit hlawful [DecidableEq Key] in
theorem nodup (hholds : Holds store table) : table.Nodup :=
  (hholds.perm.nodup_iff.1 (parameters.container.nodup store.container)).of_map _

omit hlawful [DecidableEq Key] in
theorem of_perm {other : List (Fin parameters.config.columns → Term)}
    (hholds : Holds store table) (hperm : table.Perm other) : Holds store other :=
  ⟨hholds.inv, hholds.perm.trans (hperm.map _), fun t ht => hholds.live t (hperm.mem_iff.2 ht)⟩

omit hlawful [DecidableEq Key] in
theorem size_eq (hholds : Holds store table) : store.size = table.length := by
  rw [Store.size, hholds.perm.length_eq, List.length_map]

omit hlawful [DecidableEq Key] in
theorem map_cellOf_eq (hholds : Holds store table) {last : parameters.dictionary.State}
    (hkeep : ∀ term key, parameters.dictionary.find store.dictionary term = some key →
      parameters.dictionary.find last term = some key) :
    table.map (cellOf last) = table.map (cellOf store.dictionary) ∧
      ∀ t ∈ table, Live last t := by
  have hcells : ∀ t ∈ table, cellOf last t = cellOf store.dictionary t ∧ Live last t :=
    fun t ht => (hholds.live t ht).cellOf_eq fun i key _ hkey => hkeep _ key hkey
  exact ⟨List.map_congr_left fun t ht => (hcells t ht).1, fun t ht => (hcells t ht).2⟩

omit [DecidableEq Key] in
theorem cellOf_mem_iff {dictionary : parameters.dictionary.State}
    {t : Fin parameters.config.columns → Term} (hlive : Live dictionary t) :
    cellOf dictionary t ∈ table.map (cellOf dictionary) ↔ t ∈ table := by
  constructor
  · intro hmem
    obtain ⟨u, hu, hcells⟩ := List.mem_map.1 hmem
    rwa [cellOf_injective hlawful hlive hcells.symm]
  · exact List.mem_map_of_mem

/-! ## `insert` -/

omit hlawful in
theorem forward_of_mask_zero (store : Store parameters) (position : ℕ)
    (query : Tuple parameters.config Term Key) :
    forward store ⟨position, query, 0⟩ = ⟨position, query, 0⟩ := by
  have hfound : Iterator.found (⟨position, query, 0⟩ : Iterator parameters) = fun _ => true := by
    funext tuple
    simp [Iterator.found]
  simp only [forward, hfound]
  cases store.tuples.drop position <;> simp [List.findIdx_cons]

section Insert

variable (hholds : Holds store table) {t : Fin parameters.config.columns → Term}

include hholds

/-- A tuple that is there, or does not fit, leaves the table and its cells as they
were. -/
theorem insert_kept (hperm : (parameters.container.tuples (parameters.container.insert
      store.container (internColumns parameters t (List.finRange parameters.config.columns)
        store.dictionary fun _ => .null).2).1).Perm store.tuples) :
    Holds (insert store t).1 table ∧
      table.map (cellOf (insert store t).1.dictionary) =
        table.map (cellOf store.dictionary) := by
  have hdictionary : (insert store t).1.dictionary =
      releaseColumns parameters (internColumns parameters t
        (List.finRange parameters.config.columns) store.dictionary fun _ => .null).2
        (List.finRange parameters.config.columns) (internColumns parameters t
          (List.finRange parameters.config.columns) store.dictionary fun _ => .null).1 :=
    if_pos hperm.length_eq
  obtain ⟨-, hkeep⟩ := releaseColumns_internColumns t store.dictionary (fun _ => .null)
  obtain ⟨hcells, hlive⟩ := @map_cellOf_eq _ _ _ _ _ _ hholds (insert store t).1.dictionary
    (fun term key hkey => by
      rw [hdictionary]
      exact (hlawful.find_eq_some _ _ _).2
        (hkeep _ _ ((hlawful.find_eq_some _ _ _).1 hkey)))
  refine ⟨⟨inv_insert hholds.inv t, ?_, hlive⟩, hcells⟩
  rw [hcells]
  exact hperm.trans hholds.perm

omit hlawful hholds in
theorem deref_insert (store : Store parameters) (t : Fin parameters.config.columns → Term) :
    let inserted := parameters.container.insert store.container
      (internColumns parameters t (List.finRange parameters.config.columns)
        store.dictionary fun _ => .null).2
    deref (insert store t).1 (insert store t).2 =
      (parameters.container.tuples inserted.1)[inserted.2]?.map
        (updateCurrent (insert store t).1) := by
  intro inserted
  have hiterator : (insert store t).2 = forward (insert store t).1
      ⟨inserted.2, fun _ => .null, 0⟩ := rfl
  rw [hiterator, forward_of_mask_zero]
  rfl

theorem insert_mem (hmem : t ∈ table) :
    Holds (insert store t).1 table ∧
      deref (insert store t).1 (insert store t).2 = some fun i => some (t i) := by
  obtain ⟨htmp, -, hkeep⟩ := internColumns_cellOf hlawful t store.dictionary
  have hstored : cellOf store.dictionary t ∈ store.tuples :=
    hholds.perm.mem_iff.2 (List.mem_map_of_mem hmem)
  have hsame := ((hholds.live t hmem).cellOf_eq fun i key _ hkey => hkeep _ key hkey).1
  rw [← hsame, ← htmp] at hstored
  have hperm := parameters.container.insert_mem _ _ hstored
  obtain ⟨hnext, hcells⟩ := insert_kept hlawful hholds hperm
  refine ⟨hnext, ?_⟩
  rw [deref_insert, hlawful.insert_position _ _ (hperm.mem_iff.2 hstored), htmp, hsame,
    ← List.map_inj_left.1 hcells t hmem, Option.map_some,
    updateCurrent_cellOf hlawful (hnext.live t hmem)]

theorem insert_new (hmem : t ∉ table) (haccepts : accepts table.length = true) :
    Holds (insert store t).1 (t :: table) ∧
      deref (insert store t).1 (insert store t).2 = some fun i => some (t i) := by
  obtain ⟨htmp, hlive, hkeep⟩ := internColumns_cellOf hlawful t store.dictionary
  obtain ⟨hcells, hlives⟩ := hholds.map_cellOf_eq hkeep
  have hstored : (internColumns parameters t (List.finRange parameters.config.columns)
      store.dictionary fun _ => .null).2 ∉ store.tuples := by
    rw [htmp, hholds.perm.mem_iff, ← hcells, cellOf_mem_iff hlawful hlive]
    exact hmem
  have hperm := hlawful.insert_accepted store.container _ hstored
    (by rw [← hholds.size_eq] at haccepts; exact haccepts)
  have hdictionary : (insert store t).1.dictionary = (internColumns parameters t
      (List.finRange parameters.config.columns) store.dictionary fun _ => .null).1 := by
    refine if_neg fun hlength => ?_
    have hlonger := hperm.length_eq
    rw [List.length_cons] at hlonger
    exact absurd (hlonger.symm.trans hlength) (Nat.succ_ne_self _)
  have hlives' : ∀ u ∈ t :: table, Live (insert store t).1.dictionary u := by
    rw [hdictionary]
    intro u hu
    rcases List.mem_cons.1 hu with rfl | hu
    · exact hlive
    · exact hlives u hu
  refine ⟨⟨inv_insert hholds.inv t, ?_, hlives'⟩, ?_⟩
  · rw [hdictionary, List.map_cons, hcells, ← htmp]
    exact hperm.trans (hholds.perm.cons _)
  · rw [deref_insert,
      hlawful.insert_position _ _ (hperm.mem_iff.2 List.mem_cons_self), htmp, ← hdictionary,
      Option.map_some, updateCurrent_cellOf hlawful (hlives' t List.mem_cons_self)]

theorem insert_full (hmem : t ∉ table) (haccepts : accepts table.length = false) :
    Holds (insert store t).1 table ∧ deref (insert store t).1 (insert store t).2 = none := by
  obtain ⟨htmp, hlive, hkeep⟩ := internColumns_cellOf hlawful t store.dictionary
  have hstored : (internColumns parameters t (List.finRange parameters.config.columns)
      store.dictionary fun _ => .null).2 ∉ store.tuples := by
    rw [htmp, hholds.perm.mem_iff, ← (hholds.map_cellOf_eq hkeep).1,
      cellOf_mem_iff hlawful hlive]
    exact hmem
  have hperm := hlawful.insert_refused store.container _ hstored
    (by rw [← hholds.size_eq] at haccepts; exact haccepts)
  refine ⟨(insert_kept hlawful hholds hperm).1, ?_⟩
  rw [deref_insert, hlawful.insert_end _ _ fun hin => hstored (hperm.mem_iff.1 hin)]
  simp

end Insert

end Holds

/-! ## Iterators and the tuples to come -/

omit hlawful [DecidableEq Key] [DecidableEq Term] in
theorem drop_findIdx {α : Type} (found : α → Bool) (list : List α) :
    (list.drop (list.findIdx found)).filter found = list.filter found ∧
      ∀ x ∈ (list.drop (list.findIdx found)).head?, found x = true := by
  induction list with
  | nil => simp
  | cons x rest ih =>
      cases hfound : found x with
      | true => simp [List.findIdx_cons, hfound]
      | false => simpa [List.findIdx_cons, hfound] using ih

omit hlawful in
/-- The iterator is at a tuple that is found, or at the end, and the tuples `rest` are
what it still has to find. -/
structure Reads (store : Store parameters) (iterator : Iterator parameters)
    (rest : List (Fin parameters.config.columns → Term)) : Prop where
  found : (store.tuples.drop iterator.position).filter iterator.found =
    rest.map (cellOf store.dictionary)
  head : ∀ tuple ∈ (store.tuples.drop iterator.position).head?, iterator.found tuple = true
  live : ∀ t ∈ rest, Live store.dictionary t

namespace Reads

variable {store : Store parameters} {iterator : Iterator parameters}
variable {t : Fin parameters.config.columns → Term}
variable {rest : List (Fin parameters.config.columns → Term)}

omit hlawful in
theorem of_forward
    (hfound : (store.tuples.drop iterator.position).filter iterator.found =
      rest.map (cellOf store.dictionary))
    (hlive : ∀ t ∈ rest, Live store.dictionary t) :
    Reads store (forward store iterator) rest := by
  obtain ⟨hfilter, hhead⟩ :=
    drop_findIdx iterator.found (store.tuples.drop iterator.position)
  rw [List.drop_drop] at hfilter hhead
  exact ⟨hfilter.trans hfound, hhead, hlive⟩

omit hlawful [DecidableEq Key] in
theorem getElem?_position (store : Store parameters) (iterator : Iterator parameters) :
    store.tuples[iterator.position]? = (store.tuples.drop iterator.position).head? :=
  List.head?_drop.symm

omit hlawful in
theorem deref_nil (hreads : Reads store iterator []) : deref store iterator = none := by
  have hnil : store.tuples.drop iterator.position = [] := by
    cases hdrop : store.tuples.drop iterator.position with
    | nil => rfl
    | cons tuple others =>
        have hfound := hreads.found
        have hhead := hreads.head tuple (by rw [hdrop]; rfl)
        rw [hdrop, List.filter_cons_of_pos hhead] at hfound
        exact absurd hfound (by simp)
  rw [deref, getElem?_position, hnil]
  rfl

omit hlawful in
theorem cons_iff (hreads : Reads store iterator (t :: rest)) :
    store.tuples[iterator.position]? = some (cellOf store.dictionary t) ∧
      (store.tuples.drop (iterator.position + 1)).filter iterator.found =
        rest.map (cellOf store.dictionary) := by
  have hfound := hreads.found
  cases hdrop : store.tuples.drop iterator.position with
  | nil =>
      rw [hdrop] at hfound
      exact absurd hfound (by simp)
  | cons tuple others =>
      have hhead := hreads.head tuple (by rw [hdrop]; rfl)
      rw [hdrop, List.filter_cons_of_pos hhead, List.map_cons, List.cons.injEq] at hfound
      refine ⟨?_, ?_⟩
      · rw [getElem?_position, hdrop, ← hfound.1]
        rfl
      · rw [← List.tail_drop, hdrop]
        exact hfound.2

theorem deref_cons (hreads : Reads store iterator (t :: rest)) :
    deref store iterator = some fun i => some (t i) := by
  rw [deref, hreads.cons_iff.1, Option.map_some,
    updateCurrent_cellOf hlawful (hreads.live t List.mem_cons_self)]

omit hlawful in
theorem next (hreads : Reads store iterator (t :: rest)) :
    Reads store (TupleStore.next store iterator) rest :=
  of_forward hreads.cons_iff.2 fun u hu => hreads.live u (List.mem_cons_of_mem _ hu)

end Reads

/-! ## Queries -/

omit hlawful in
/-- The columns of the mask agree in their terms. -/
def selects (parameters : Parameters Term Key)
    (query : (Fin parameters.config.columns → Term) × ℕ)
    (t : Fin parameters.config.columns → Term) : Bool :=
  (List.finRange parameters.config.columns).all fun i =>
    if query.2.testBit i then
      if parameters.config.inDictionary i then t i = query.1 i
      else parameters.compare i (.data (t i)) (.data (query.1 i)) = 0
    else true

omit hlawful [DecidableEq Key] in
/-- What `key_copy` writes into a column of the mask, none where the term is not in the
dictionary. -/
def copyCell (dictionary : parameters.dictionary.State) (i : Fin parameters.config.columns)
    (source : Option Term) : Option (Cell Term Key) :=
  if parameters.config.inDictionary i then
    (source.bind (parameters.dictionary.find dictionary)).map .key
  else some (source.elim .null .data)

omit hlawful [DecidableEq Key] in
theorem keyCopy_cons (dictionary : parameters.dictionary.State)
    (source : Row parameters.config Term) (mask : ℕ) (i : Fin parameters.config.columns)
    (rest : List (Fin parameters.config.columns)) (copy : Tuple parameters.config Term Key) :
    keyCopy parameters dictionary source mask (i :: rest) copy =
      if mask.testBit i then
        match copyCell dictionary i (source i) with
        | none => (copy, false)
        | some cell =>
            keyCopy parameters dictionary source mask rest (Function.update copy i cell)
      else keyCopy parameters dictionary source mask rest copy := by
  rw [keyCopy, copyCell]
  by_cases hdict : parameters.config.inDictionary i = true
  · rw [if_pos hdict, if_pos hdict]
    cases (source i).bind (parameters.dictionary.find dictionary) <;> rfl
  · rw [if_neg hdict, if_neg hdict]

omit hlawful [DecidableEq Key] in
/-- What `key_copy` leaves of a query: a cell for each column of the mask, or a column
that has none and was not written. -/
theorem keyCopy_cells (dictionary : parameters.dictionary.State)
    (source : Row parameters.config Term) (mask : ℕ) :
    ∀ (columns : List (Fin parameters.config.columns))
      (copy : Tuple parameters.config Term Key), columns.Nodup →
      let copied := keyCopy parameters dictionary source mask columns copy
      (∀ i, i ∉ columns → copied.1 i = copy i) ∧
        (copied.2 = true → ∀ i ∈ columns, mask.testBit i = true →
          copyCell dictionary i (source i) = some (copied.1 i)) ∧
        (copied.2 = false → ∃ i ∈ columns, mask.testBit i = true ∧ copied.1 i = copy i ∧
          copyCell dictionary i (source i) = none) := by
  intro columns
  induction columns with
  | nil => simp [keyCopy]
  | cons j rest ih =>
      intro copy hnodup
      obtain ⟨hj, hrest⟩ := List.nodup_cons.1 hnodup
      -- the rest of the loop, after column `j` was left as it is or became `cell`
      have hstep : ∀ cell : Cell Term Key,
          (mask.testBit j = true → copyCell dictionary j (source j) = some cell) →
          let copied := keyCopy parameters dictionary source mask rest
            (Function.update copy j cell)
          (∀ i, i ∉ j :: rest → copied.1 i = copy i) ∧
            (copied.2 = true → ∀ i ∈ j :: rest, mask.testBit i = true →
              copyCell dictionary i (source i) = some (copied.1 i)) ∧
            (copied.2 = false → ∃ i ∈ j :: rest, mask.testBit i = true ∧
              copied.1 i = copy i ∧ copyCell dictionary i (source i) = none) := by
        intro cell hcell copied
        obtain ⟨hother, hall, hmissing⟩ := ih (Function.update copy j cell) hrest
        refine ⟨fun i hi => ?_, fun hcopied i hi hmask => ?_, fun hcopied => ?_⟩
        · rw [List.mem_cons, not_or] at hi
          exact (hother i hi.2).trans (Function.update_of_ne hi.1 _ _)
        · rcases List.mem_cons.1 hi with rfl | hi
          · rw [hcell hmask]
            exact congrArg some ((hother i hj).trans (Function.update_self _ _ _)).symm
          · exact hall hcopied i hi hmask
        · obtain ⟨i, hi, hmask, hsame, hnone⟩ := hmissing hcopied
          have hne : i ≠ j := fun heq => hj (heq ▸ hi)
          exact ⟨i, List.mem_cons_of_mem _ hi, hmask,
            hsame.trans (Function.update_of_ne hne _ _), hnone⟩
      rw [keyCopy_cons]
      by_cases hmask : mask.testBit j = true
      · rw [if_pos hmask]
        cases hcell : copyCell dictionary j (source j) with
        | none =>
            exact ⟨fun _ _ => rfl, fun h => absurd h (by simp), fun _ =>
              ⟨j, List.mem_cons_self, hmask, rfl, hcell⟩⟩
        | some cell => exact hstep cell fun _ => hcell
      · rw [if_neg hmask]
        have hsame := hstep (copy j) fun h => absurd h hmask
        rwa [Function.update_eq_self] at hsame

omit hlawful [DecidableEq Key] in
/-- What `key_copy` leaves of a query with terms in the columns of the mask: their cells,
or a column of the dictionary that is not written. -/
theorem keyCopy_spec (dictionary : parameters.dictionary.State)
    {source : Row parameters.config Term} {terms : Fin parameters.config.columns → Term}
    {mask : ℕ}
    (hsource : ∀ i : Fin parameters.config.columns, mask.testBit i = true →
      source i = some (terms i))
    (columns : List (Fin parameters.config.columns))
    (copy : Tuple parameters.config Term Key) (hnodup : columns.Nodup) :
    let copied := keyCopy parameters dictionary source mask columns copy
    (∀ i, i ∉ columns → copied.1 i = copy i) ∧
      (copied.2 = true → ∀ i ∈ columns, mask.testBit i = true →
        copied.1 i = cellOf dictionary terms i ∧
          (parameters.config.inDictionary i = true →
            ∃ key, parameters.dictionary.find dictionary (terms i) = some key)) ∧
      (copied.2 = false → ∃ i ∈ columns, mask.testBit i = true ∧
        parameters.config.inDictionary i = true ∧ copied.1 i = copy i ∧
          parameters.dictionary.find dictionary (terms i) = none) := by
  obtain ⟨hother, hall, hmissing⟩ := keyCopy_cells dictionary source mask columns copy hnodup
  refine ⟨hother, fun hcopied i hi hmask => ?_, fun hcopied => ?_⟩
  · have hcell := hall hcopied i hi hmask
    rw [hsource i hmask, copyCell] at hcell
    by_cases hdict : parameters.config.inDictionary i = true
    · rw [if_pos hdict, Option.bind_some] at hcell
      obtain ⟨key, hkey, heq⟩ := Option.map_eq_some_iff.1 hcell
      exact ⟨heq.symm.trans (cellOf_of_find hdict hkey).symm, fun _ => ⟨key, hkey⟩⟩
    · rw [if_neg hdict, Option.some.injEq] at hcell
      exact ⟨hcell.symm.trans (cellOf_of_data hdict).symm, fun h => absurd h hdict⟩
  · obtain ⟨i, hi, hmask, hsame, hnone⟩ := hmissing hcopied
    rw [hsource i hmask, copyCell] at hnone
    by_cases hdict : parameters.config.inDictionary i = true
    · rw [if_pos hdict, Option.bind_some, Option.map_eq_none_iff] at hnone
      exact ⟨i, hi, hmask, hdict, hsame, hnone⟩
    · rw [if_neg hdict] at hnone
      cases hnone

theorem found_cellOf {dictionary : parameters.dictionary.State}
    {iterator : Iterator parameters} {terms t : Fin parameters.config.columns → Term}
    (hquery : ∀ i : Fin parameters.config.columns, iterator.mask.testBit i = true →
      iterator.query i = cellOf dictionary terms i ∧
        (parameters.config.inDictionary i = true →
          ∃ key, parameters.dictionary.find dictionary (terms i) = some key))
    (hlive : Live dictionary t) :
    iterator.found (cellOf dictionary t) = selects parameters (terms, iterator.mask) t := by
  unfold Iterator.found selects
  congr 1
  funext i
  by_cases hmask : iterator.mask.testBit i = true
  · obtain ⟨hcell, hfind⟩ := hquery i hmask
    rw [if_pos hmask, if_pos hmask]
    by_cases hdict : parameters.config.inDictionary i = true
    · obtain ⟨key, hkey⟩ := hfind hdict
      obtain ⟨other, hother⟩ := hlive i hdict
      rw [if_pos hdict, if_pos hdict, hcell, cellOf_of_find hdict hkey,
        cellOf_of_find hdict hother, decide_eq_decide, Cell.key.injEq]
      constructor
      · rintro rfl
        exact Option.some.inj (((hlawful.find_eq_some _ _ _).1 hother).symm.trans
          ((hlawful.find_eq_some _ _ _).1 hkey))
      · intro hterms
        rw [hterms] at hother
        exact Option.some.inj (hother.symm.trans hkey)
    · rw [if_neg hdict, if_neg hdict, hcell, cellOf_of_data hdict, cellOf_of_data hdict]
  · rw [if_neg hmask, if_neg hmask]

omit hlawful in
/-- A column of the mask that is empty in the query is found in no tuple. -/
theorem not_found_of_null {dictionary : parameters.dictionary.State}
    {iterator : Iterator parameters} {t : Fin parameters.config.columns → Term}
    {i : Fin parameters.config.columns} (hmask : iterator.mask.testBit i = true)
    (hdict : parameters.config.inDictionary i = true) (hnull : iterator.query i = .null)
    (hlive : Live dictionary t) : iterator.found (cellOf dictionary t) = false := by
  obtain ⟨key, hkey⟩ := hlive i hdict
  refine List.all_eq_false.2 ⟨i, List.mem_finRange i, ?_⟩
  simp [hmask, hdict, hnull, cellOf_of_find hdict hkey]

omit hlawful [DecidableEq Key] in
theorem not_selects_of_find {dictionary : parameters.dictionary.State}
    {terms t : Fin parameters.config.columns → Term} {mask : ℕ}
    {i : Fin parameters.config.columns} (hmask : mask.testBit i = true)
    (hdict : parameters.config.inDictionary i = true)
    (hfind : parameters.dictionary.find dictionary (terms i) = none)
    (hlive : Live dictionary t) : selects parameters (terms, mask) t = false := by
  obtain ⟨key, hkey⟩ := hlive i hdict
  refine List.all_eq_false.2 ⟨i, List.mem_finRange i, ?_⟩
  have hne : t i ≠ terms i := fun heq => by
    rw [heq, hfind] at hkey
    cases hkey
  simp [hmask, hdict, hne]

namespace Holds

variable {store : Store parameters} {table : List (Fin parameters.config.columns → Term)}

omit hlawful [DecidableEq Key] in
theorem live_of_mem (hholds : Holds store table) {tuple : Tuple parameters.config Term Key}
    (htuple : tuple ∈ store.tuples) :
    ∃ t ∈ table, Live store.dictionary t ∧ cellOf store.dictionary t = tuple := by
  obtain ⟨t, ht, heq⟩ := List.mem_map.1 (hholds.perm.mem_iff.1 htuple)
  exact ⟨t, ht, hholds.live t ht, heq⟩

omit hlawful in
theorem reads_of_found (hholds : Holds store table) {iterator : Iterator parameters}
    {selected : (Fin parameters.config.columns → Term) → Bool}
    (hposition : iterator.position = 0)
    (hfound : ∀ t ∈ table, iterator.found (cellOf store.dictionary t) = selected t) :
    ∃ rest, Reads store (forward store iterator) rest ∧ rest.Perm (table.filter selected) := by
  have hperm : (store.tuples.filter iterator.found).Perm
      ((table.filter selected).map (cellOf store.dictionary)) := by
    have hcells : (table.map (cellOf store.dictionary)).filter iterator.found =
        (table.filter selected).map (cellOf store.dictionary) := by
      rw [List.filter_map]
      exact congrArg _ (List.filter_congr fun t ht => hfound t ht)
    rw [← hcells]
    exact hholds.perm.filter _
  obtain ⟨rest, heq, hrest⟩ :=
    (congrFun (congrFun (List.eq_map_comp_perm (cellOf store.dictionary)) _) _).mpr hperm
  refine ⟨rest, .of_forward ?_ fun t ht => ?_, hrest⟩
  · rw [hposition, List.drop_zero, heq]
  · exact hholds.live t (List.mem_of_mem_filter (hrest.mem_iff.1 ht))

/-- **`begin`** is before all tuples that the query selects. -/
theorem beginQuery_spec (hholds : Holds store table)
    {source : Row parameters.config Term} {terms : Fin parameters.config.columns → Term}
    {mask : ℕ}
    (hsource : ∀ i : Fin parameters.config.columns, mask.testBit i = true →
      source i = some (terms i)) :
    ∃ rest, Reads store (beginQuery store source mask) rest ∧
      rest.Perm (table.filter (selects parameters (terms, mask))) := by
  obtain ⟨hother, hall, hmissing⟩ := keyCopy_spec store.dictionary hsource
    (List.finRange parameters.config.columns) (fun _ => .null) (List.nodup_finRange _)
  unfold beginQuery
  generalize keyCopy parameters store.dictionary source mask
    (List.finRange parameters.config.columns) (fun _ => .null) = copied at *
  obtain ⟨copy, found⟩ := copied
  cases found with
  | false =>
      -- a term of the query is not in the dictionary
      obtain ⟨i, -, hmask, hdict, -, hfind⟩ := hmissing rfl
      refine ⟨[], ⟨?_, ?_, fun t ht => absurd ht List.not_mem_nil⟩, List.Perm.of_eq ?_⟩
      · simp [endIterator, Store.size]
      · simp [endIterator, Store.size]
      · exact (List.filter_eq_nil_iff.2 fun t ht => by
          simp [not_selects_of_find hmask hdict hfind (hholds.live t ht)]).symm
  | true =>
      exact hholds.reads_of_found rfl fun t ht =>
        @found_cellOf _ _ _ _ _ _ hlawful _ _ terms t
          (fun i hmask => hall rfl i (List.mem_finRange i) hmask)
          (hholds.live t ht)

/-- **`set_query`** on an iterator without a query, at the first tuple. -/
theorem setQuery_spec (hholds : Holds store table) {iterator : Iterator parameters}
    (hposition : iterator.position = 0) (hnull : ∀ i, iterator.query i = .null)
    {source : Row parameters.config Term} {terms : Fin parameters.config.columns → Term}
    {mask : ℕ}
    (hsource : ∀ i : Fin parameters.config.columns, mask.testBit i = true →
      source i = some (terms i)) :
    ∃ rest, Reads store (setQuery store iterator source mask) rest ∧
      rest.Perm (table.filter (selects parameters (terms, mask))) := by
  obtain ⟨hother, hall, hmissing⟩ := keyCopy_spec store.dictionary hsource
    (List.finRange parameters.config.columns) iterator.query (List.nodup_finRange _)
  unfold setQuery
  generalize keyCopy parameters store.dictionary source mask
    (List.finRange parameters.config.columns) iterator.query = copied at *
  obtain ⟨copy, found⟩ := copied
  refine hholds.reads_of_found hposition fun t ht => ?_
  cases found with
  | false =>
      obtain ⟨i, -, hmask, hdict, hsame, hfind⟩ := hmissing rfl
      rw [not_selects_of_find hmask hdict hfind (hholds.live t ht)]
      exact not_found_of_null hmask hdict (hsame.trans (hnull i)) (hholds.live t ht)
  | true =>
      exact @found_cellOf _ _ _ _ _ _ hlawful _ _ terms t
        (fun i hmask => hall rfl i (List.mem_finRange i) hmask)
        (hholds.live t ht)

end Holds

/-! ## `erase` -/

omit hlawful in
/-- `erase` restores the query in the columns of the mask, and `found` reads no others. -/
theorem found_restored (iterator : Iterator parameters) (position : ℕ) :
    Iterator.found ⟨position, fun i => if iterator.mask.testBit i then iterator.query i else .null,
      iterator.mask⟩ = iterator.found := by
  funext tuple
  unfold Iterator.found
  congr 1
  funext i
  by_cases hmask : iterator.mask.testBit i = true
  · simp only [if_pos hmask]
  · simp only [if_neg hmask]

/-- **`erase`** takes the first tuple to come out of the table, and goes on with the
others. -/
theorem erase_spec {store : Store parameters}
    {table rest : List (Fin parameters.config.columns → Term)}
    {iterator : Iterator parameters} {t : Fin parameters.config.columns → Term}
    (hholds : Holds store table) (hreads : Reads store iterator (t :: rest)) :
    t ∈ table ∧ ∃ erased following, erase store iterator = some (erased, following) ∧
      Holds erased (table.erase t) ∧
        ∃ others, Reads erased following others ∧ others.Perm rest := by
  obtain ⟨hposition, hrest⟩ := hreads.cons_iff
  have hlive := hreads.live t List.mem_cons_self
  have hmem : t ∈ table := by
    rw [← Holds.cellOf_mem_iff hlawful hlive, ← hholds.perm.mem_iff]
    exact List.mem_of_getElem? hposition
  have hperm := parameters.container.erase_perm store.container iterator.position _ hposition
  have hfollowing := hlawful.erase_position store.container iterator.position _ hposition
  obtain ⟨-, hsame⟩ := releaseColumns_erased hholds.inv hperm
  generalize hcontainer : parameters.container.erase store.container iterator.position = container
    at hperm hfollowing hsame
  generalize hreleased : releaseColumns parameters (cellOf store.dictionary t)
    (List.finRange parameters.config.columns) store.dictionary = released at hsame
  have herase : erase store iterator = some (⟨released, container.1⟩,
      forward ⟨released, container.1⟩ ⟨container.2,
        fun i => if iterator.mask.testBit i then iterator.query i else .null,
        iterator.mask⟩) := by
    simp [erase, hposition, hcontainer, hreleased]
  have hothers : (parameters.container.tuples container.1).Perm
      ((table.erase t).map (cellOf store.dictionary)) := by
    have hall : (cellOf store.dictionary t :: parameters.container.tuples container.1).Perm
        ((t :: table.erase t).map (cellOf store.dictionary)) :=
      (hperm.trans hholds.perm).trans ((List.perm_cons_erase hmem).map _)
    exact hall.cons_inv
  have hkept : ∀ u ∈ table.erase t,
      cellOf released u = cellOf store.dictionary u ∧ Live released u := by
    intro u hu
    have hliveU := hholds.live u (List.mem_of_mem_erase hu)
    refine hliveU.cellOf_eq fun i key hdict hkey => ?_
    -- the key of a tuple that is left stands for the same term as before
    obtain ⟨value, hbefore, hafter⟩ :=
      hsame _ (hothers.mem_iff.2 (List.mem_map_of_mem hu)) i hdict
    rw [termAt_cellOf hlawful hliveU hdict, Option.some.injEq] at hbefore
    exact find_of_termAt hlawful hdict hkey (hbefore ▸ hafter)
  have hcells : (table.erase t).map (cellOf released) =
      (table.erase t).map (cellOf store.dictionary) :=
    List.map_congr_left fun u hu => (hkept u hu).1
  refine ⟨hmem, _, _, herase, ⟨inv_erase hholds.inv herase, ?_, fun u hu => (hkept u hu).2⟩, ?_⟩
  · rw [hcells]
    exact hothers
  · -- what is found behind the erased tuple is found from the new position on
    have hfound : (((parameters.container.tuples container.1).drop container.2).filter
        iterator.found).Perm (rest.map (cellOf store.dictionary)) := by
      rw [← hrest]
      exact hfollowing.filter _
    obtain ⟨others, heq, hperm'⟩ :=
      (congrFun (congrFun (List.eq_map_comp_perm (cellOf store.dictionary)) _) _).mpr hfound
    have hleft : ∀ u ∈ others, u ∈ table.erase t := by
      intro u hu
      have hliveU := hreads.live u (List.mem_cons_of_mem _ (hperm'.mem_iff.1 hu))
      rw [← Holds.cellOf_mem_iff hlawful hliveU, ← hothers.mem_iff]
      have hin : cellOf store.dictionary u ∈ others.map (cellOf store.dictionary) :=
        List.mem_map_of_mem hu
      rw [← heq] at hin
      exact List.mem_of_mem_drop (List.mem_of_mem_filter hin)
    refine ⟨others, .of_forward ?_ fun u hu => (hkept u (hleft u hu)).2, hperm'⟩
    rw [found_restored, List.map_congr_left fun u hu => (hkept u (hleft u hu)).1]
    exact heq

/-! ## The store as a table -/

omit hlawful in
/-- What the users of a tuple store call. -/
def access (parameters : Parameters Term Key) :
    CursorTable.Access (Store parameters) (Iterator parameters)
      ((Fin parameters.config.columns → Term) × ℕ) (Fin parameters.config.columns → Term)
      (Row parameters.config Term) where
  size := Store.size
  insert := insert
  erase := erase
  select store query := beginQuery store (fun i => some (query.1 i)) query.2
  read := deref
  next := next

omit hlawful in
/-- Tuples of terms, queried by some of their columns. -/
def meaning (parameters : Parameters Term Key) (accepts : ℕ → Bool) :
    CursorTable.Meaning ((Fin parameters.config.columns → Term) × ℕ)
      (Fin parameters.config.columns → Term) (Row parameters.config Term) where
  row t := fun i => some (t i)
  selects := selects parameters
  accepts := accepts

omit hlawful [DecidableEq Key] in
theorem row_injective (parameters : Parameters Term Key) :
    Function.Injective fun (t : Fin parameters.config.columns → Term) i => some (t i) :=
  fun _ _ heq => funext fun i => Option.some.inj (congrFun heq i)

/-- **A tuple store is a table** of the terms it was given. -/
theorem implements :
    CursorTable.Implements (access parameters) (meaning parameters accepts) Holds Reads where
  row_injective := row_injective parameters
  nodup := Holds.nodup
  perm := Holds.of_perm
  size := Holds.size_eq
  insert_mem hholds hmem := hholds.insert_mem hlawful hmem
  insert_new hholds hmem haccepts := hholds.insert_new hlawful hmem haccepts
  insert_full hholds hmem haccepts := hholds.insert_full hlawful hmem haccepts
  select _ _ _ hholds := hholds.beginQuery_spec hlawful fun _ _ => rfl
  read_nil := Reads.deref_nil
  read_cons := Reads.deref_cons hlawful
  next := Reads.next
  erase := erase_spec hlawful

omit hlawful [DecidableEq Key] in
theorem holds_init (parameters : Parameters Term Key) :
    Holds (Store.init parameters) [] := by
  refine ⟨inv_init parameters, ?_, fun t ht => absurd ht List.not_mem_nil⟩
  exact List.Perm.of_eq parameters.container.tuples_empty

end Store

end Wiselib.TupleStore
