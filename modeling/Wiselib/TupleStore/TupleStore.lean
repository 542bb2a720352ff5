import Wiselib.Library.Run

/-!
# The tuple store

`TupleStore` of `util/tuple_store/tuplestore.h`: tuples in a container, with the
columns of the mask `DICTIONARY_COLUMNS` replaced by keys of a dictionary that
counts how often each term was inserted.  Container and dictionary are template
parameters; `Container` and `Dictionary` say what the store relies on.

`counter_eq_references` is the reference count invariant.  `insert` interns the
dictionary columns before it learns whether the tuple is new, so the two loops
over the columns get a specification each (`internColumns_spec`,
`releaseColumns_spec`), in which a term may occur in several columns; that the
undo loop of a duplicate takes back exactly what interning added is then a
comparison of the two.
-/

namespace Wiselib.TupleStore

open Transition

/-! ## Parameters -/

/-- A dictionary: `insert` and `erase` count per term, and the key of a term stays
valid until its counter drops to zero.  `getValue` is undefined (`none`) where no
live key is looked up. -/
structure Dictionary (Term Key : Type) [DecidableEq Term] where
  State : Type
  nullKey : Key
  empty : State
  insert : State → Term → State × Key
  erase : State → Key → State
  find : State → Term → Option Key
  getValue : State → Key → Option Term
  counter : State → Term → ℕ
  counter_empty : ∀ term, counter empty term = 0
  counter_insert : ∀ state term,
    counter (insert state term).1 = Function.update (counter state) term (counter state term + 1)
  getValue_insert : ∀ state term, getValue (insert state term).1 (insert state term).2 = some term
  getValue_insert_of_some : ∀ state term key value,
    getValue state key = some value → getValue (insert state term).1 key = some value
  counter_pos : ∀ state key term, getValue state key = some term → 0 < counter state term
  counter_erase : ∀ state key term, getValue state key = some term →
    counter (erase state key) = Function.update (counter state) term (counter state term - 1)
  getValue_erase : ∀ state key term other value, getValue state key = some term →
    getValue state other = some value → 0 < counter (erase state key) value →
    getValue (erase state key) other = some value
  find_isSome : ∀ state term, (find state term).isSome ↔ 0 < counter state term

/-- A container without duplicates, iterated in the order of `tuples`.  An iterator
is its position in that order, the end is the size.  `insert` of a new tuple may
fail for lack of space. -/
structure Container (Tuple : Type) where
  State : Type
  empty : State
  tuples : State → List Tuple
  insert : State → Tuple → State × ℕ
  erase : State → ℕ → State × ℕ
  tuples_empty : tuples empty = []
  nodup : ∀ state, (tuples state).Nodup
  insert_mem : ∀ state tuple, tuple ∈ tuples state →
    (tuples (insert state tuple).1).Perm (tuples state)
  insert_new : ∀ state tuple, tuple ∉ tuples state →
    (tuples (insert state tuple).1).Perm (tuple :: tuples state) ∨
      (tuples (insert state tuple).1).Perm (tuples state)
  erase_perm : ∀ state position tuple, (tuples state)[position]? = some tuple →
    (tuple :: tuples (erase state position).1).Perm (tuples state)

/-- `COLUMNS` and the mask `DICTIONARY_COLUMNS`. -/
structure Config where
  columns : ℕ
  dictionaryColumns : ℕ

def Config.inDictionary (config : Config) (i : Fin config.columns) : Bool :=
  config.dictionaryColumns.testBit i

/-- A column of a tuple is a `block_data_t*`: a null pointer, a key, or data of its
own. -/
inductive Cell (Term Key : Type) where
  | null
  | key (key : Key)
  | data (term : Term)
  deriving DecidableEq

/-- The tuples the container stores. -/
abbrev Tuple (config : Config) (Term Key : Type) : Type :=
  Fin config.columns → Cell Term Key

section Store

variable {Term Key : Type} [DecidableEq Term]

/-- What a tuple store is instantiated with. -/
structure Parameters (Term Key : Type) [DecidableEq Term] where
  config : Config
  dictionary : Dictionary Term Key
  container : Container (Tuple config Term Key)
  /-- `Compare_P`, zero where the two cells are equal in the column. -/
  compare : Fin config.columns → Cell Term Key → Cell Term Key → ℤ

structure Store (parameters : Parameters Term Key) where
  dictionary : parameters.dictionary.State
  container : parameters.container.State

variable {parameters : Parameters Term Key}

def Store.init (parameters : Parameters Term Key) : Store parameters :=
  ⟨parameters.dictionary.empty, parameters.container.empty⟩

def Store.tuples (store : Store parameters) : List (Tuple parameters.config Term Key) :=
  parameters.container.tuples store.container

def Store.size (store : Store parameters) : ℕ := store.tuples.length

/-- `to_key` reinterprets the pointer. -/
def toKey (parameters : Parameters Term Key) : Cell Term Key → Key
  | .key key => key
  | _ => parameters.dictionary.nullKey

/-! ## The loops over the columns -/

/-- The first loop of `insert`: `tmp` gets keys in the dictionary columns and deep
copies in the others. -/
def internColumns (parameters : Parameters Term Key)
    (t : Fin parameters.config.columns → Term) :
    List (Fin parameters.config.columns) → parameters.dictionary.State →
      Tuple parameters.config Term Key →
      parameters.dictionary.State × Tuple parameters.config Term Key
  | [], dictionary, tmp => (dictionary, tmp)
  | i :: rest, dictionary, tmp =>
      if parameters.config.inDictionary i then
        let (inserted, key) := parameters.dictionary.insert dictionary (t i)
        internColumns parameters t rest inserted (Function.update tmp i (.key key))
      else internColumns parameters t rest dictionary (Function.update tmp i (.data (t i)))

/-- The loop over the dictionary columns that erases their keys, in `insert` for a
tuple that was there and in `erase`. -/
def releaseColumns (parameters : Parameters Term Key) (tuple : Tuple parameters.config Term Key) :
    List (Fin parameters.config.columns) → parameters.dictionary.State →
      parameters.dictionary.State
  | [], dictionary => dictionary
  | i :: rest, dictionary =>
      if parameters.config.inDictionary i then
        releaseColumns parameters tuple rest
          (parameters.dictionary.erase dictionary (toKey parameters (tuple i)))
      else releaseColumns parameters tuple rest dictionary

/-- The term a dictionary column of a stored tuple stands for. -/
def termAt (dictionary : parameters.dictionary.State)
    (tuple : Tuple parameters.config Term Key) (i : Fin parameters.config.columns) :
    Option Term :=
  parameters.dictionary.getValue dictionary (toKey parameters (tuple i))

/-- How many of the columns are dictionary columns with the value `term`. -/
def occurrences (config : Config) (values : Fin config.columns → Option Term)
    (columns : List (Fin config.columns)) (term : Term) : ℕ :=
  columns.countP fun i => config.inDictionary i && values i = some term

theorem occurrences_cons_of_mem {config : Config} {i : Fin config.columns}
    (hcolumn : config.inDictionary i = true) (values : Fin config.columns → Option Term)
    (rest : List (Fin config.columns)) (term : Term) :
    occurrences config values (i :: rest) term =
      occurrences config values rest term + if values i = some term then 1 else 0 := by
  unfold occurrences
  rw [List.countP_cons]
  simp [hcolumn]

theorem occurrences_cons_of_not_mem {config : Config} {i : Fin config.columns}
    (hcolumn : ¬ config.inDictionary i = true) (values : Fin config.columns → Option Term)
    (rest : List (Fin config.columns)) (term : Term) :
    occurrences config values (i :: rest) term = occurrences config values rest term := by
  unfold occurrences
  rw [List.countP_cons]
  simp [hcolumn]

/-- Interning counts every dictionary column, keeps the keys there are, and leaves
in `tmp` keys of the values. -/
theorem internColumns_spec (t : Fin parameters.config.columns → Term) :
    ∀ (columns : List (Fin parameters.config.columns))
      (dictionary : parameters.dictionary.State) (tmp : Tuple parameters.config Term Key),
      columns.Nodup →
      let interned := internColumns parameters t columns dictionary tmp
      (∀ term, parameters.dictionary.counter interned.1 term =
          parameters.dictionary.counter dictionary term +
            occurrences parameters.config (fun i => some (t i)) columns term) ∧
        (∀ key value, parameters.dictionary.getValue dictionary key = some value →
          parameters.dictionary.getValue interned.1 key = some value) ∧
        (∀ i ∈ columns, parameters.config.inDictionary i = true →
          termAt interned.1 interned.2 i = some (t i)) ∧
        ∀ i, i ∉ columns → interned.2 i = tmp i := by
  intro columns
  induction columns with
  | nil => simp [internColumns, occurrences]
  | cons i rest ih =>
      intro dictionary tmp hnodup
      obtain ⟨hi, hrest⟩ := List.nodup_cons.1 hnodup
      unfold internColumns
      split_ifs with hcolumn
      · obtain ⟨hcounter, hkeep, hterm, hsame⟩ := ih
          (parameters.dictionary.insert dictionary (t i)).1
          (Function.update tmp i (.key (parameters.dictionary.insert dictionary (t i)).2)) hrest
        refine ⟨fun term => ?_, fun key value hvalue => ?_, fun j hj hdict => ?_, fun j hj => ?_⟩
        · rw [hcounter, occurrences_cons_of_mem hcolumn, parameters.dictionary.counter_insert]
          by_cases hsame : term = t i
          · rw [hsame, if_pos rfl, Function.update_self]
            omega
          · rw [if_neg fun heq => hsame (Option.some.inj heq).symm, Function.update_of_ne hsame]
            omega
        · exact hkeep key value
            (parameters.dictionary.getValue_insert_of_some _ _ _ _ hvalue)
        · by_cases hji : j = i
          · -- the key of this column is not touched by the later ones
            subst hji
            unfold termAt
            rw [hsame j hi, Function.update_self]
            exact hkeep _ _ (parameters.dictionary.getValue_insert _ _)
          · exact hterm j (List.mem_of_ne_of_mem hji hj) hdict
        · rw [List.mem_cons, not_or] at hj
          rw [hsame j hj.2, Function.update_of_ne hj.1]
      · obtain ⟨hcounter, hkeep, hterm, hsame⟩ := ih dictionary
          (Function.update tmp i (.data (t i))) hrest
        refine ⟨fun term => ?_, hkeep, fun j hj hdict => ?_, fun j hj => ?_⟩
        · rw [hcounter, occurrences_cons_of_not_mem hcolumn]
        · have hji : j ≠ i := fun heq => hcolumn (heq ▸ hdict)
          exact hterm j (List.mem_of_ne_of_mem hji hj) hdict
        · rw [List.mem_cons, not_or] at hj
          rw [hsame j hj.2, Function.update_of_ne hj.1]

/-- Releasing takes back one count for every dictionary column and keeps the keys of
all terms that are still counted. -/
theorem releaseColumns_spec (tuple : Tuple parameters.config Term Key)
    (values : Fin parameters.config.columns → Option Term) :
    ∀ (columns : List (Fin parameters.config.columns))
      (dictionary : parameters.dictionary.State),
      (∀ i ∈ columns, parameters.config.inDictionary i = true →
        ∃ term, values i = some term ∧ termAt dictionary tuple i = some term) →
      (∀ term, occurrences parameters.config values columns term ≤
        parameters.dictionary.counter dictionary term) →
      let released := releaseColumns parameters tuple columns dictionary
      (∀ term, parameters.dictionary.counter released term +
          occurrences parameters.config values columns term =
            parameters.dictionary.counter dictionary term) ∧
        ∀ key value, parameters.dictionary.getValue dictionary key = some value →
          0 < parameters.dictionary.counter released value →
          parameters.dictionary.getValue released key = some value := by
  intro columns
  induction columns with
  | nil =>
      intro dictionary _ _
      exact ⟨fun term => rfl, fun key value hvalue _ => hvalue⟩
  | cons i rest ih =>
      intro dictionary hterm hcount
      unfold releaseColumns
      split_ifs with hcolumn
      · obtain ⟨erased, herased, hvalue⟩ := hterm i List.mem_cons_self hcolumn
        have herase := parameters.dictionary.counter_erase _ _ _ hvalue
        have hafter : ∀ term, parameters.dictionary.counter
            (parameters.dictionary.erase dictionary (toKey parameters (tuple i))) term +
              (if values i = some term then 1 else 0) =
                parameters.dictionary.counter dictionary term := by
          intro term
          rw [herase, herased]
          by_cases hsame : term = erased
          · have hpos := parameters.dictionary.counter_pos _ _ _ hvalue
            rw [hsame, if_pos rfl, Function.update_self]
            omega
          · rw [if_neg fun heq => hsame (Option.some.inj heq).symm, Function.update_of_ne hsame]
            omega
        have hsplit := occurrences_cons_of_mem hcolumn values rest
        have hrest : ∀ term, occurrences parameters.config values rest term ≤
            parameters.dictionary.counter
              (parameters.dictionary.erase dictionary (toKey parameters (tuple i))) term := by
          intro term
          have := hcount term
          have := hafter term
          have := hsplit term
          omega
        -- a term that occurs in a later column is still counted, so its key is live
        have hlive : ∀ j ∈ rest, parameters.config.inDictionary j = true →
            ∃ term, values j = some term ∧ termAt (parameters.dictionary.erase dictionary
              (toKey parameters (tuple i))) tuple j = some term := by
          intro j hj hdict
          obtain ⟨term, hj', hvalue'⟩ := hterm j (List.mem_cons_of_mem _ hj) hdict
          refine ⟨term, hj', parameters.dictionary.getValue_erase _ _ _ _ _ hvalue hvalue'
            ((hrest term).trans_lt' ?_)⟩
          exact List.countP_pos_iff.2 ⟨j, hj, by simp [hdict, hj']⟩
        obtain ⟨hcounter, hkeep⟩ := ih _ hlive hrest
        refine ⟨fun term => ?_, fun key value hkey hpos => ?_⟩
        · have := hcounter term
          have := hafter term
          have := hsplit term
          omega
        · refine hkeep key value (parameters.dictionary.getValue_erase _ _ _ _ _ hvalue hkey ?_) hpos
          have := hcounter value
          omega
      · simp only [occurrences_cons_of_not_mem hcolumn] at hcount ⊢
        exact ih dictionary (fun j hj => hterm j (List.mem_cons_of_mem _ hj)) hcount

/-- Releasing what was just interned gives the counters back, and all keys there were
are live again. -/
theorem releaseColumns_internColumns (t : Fin parameters.config.columns → Term)
    (dictionary : parameters.dictionary.State) (tmp : Tuple parameters.config Term Key) :
    let columns := List.finRange parameters.config.columns
    let interned := internColumns parameters t columns dictionary tmp
    let released := releaseColumns parameters interned.2 columns interned.1
    (∀ term, parameters.dictionary.counter released term =
        parameters.dictionary.counter dictionary term) ∧
      ∀ key value, parameters.dictionary.getValue dictionary key = some value →
        parameters.dictionary.getValue released key = some value := by
  intro columns interned released
  obtain ⟨hcounter, hkeep, hterm, -⟩ :=
    internColumns_spec t columns dictionary tmp (List.nodup_finRange _)
  obtain ⟨hreleased, hlive⟩ := releaseColumns_spec interned.2 (fun i => some (t i)) columns
    interned.1 (fun i hi hdict => ⟨t i, rfl, hterm i hi hdict⟩)
    (fun term => by rw [hcounter]; omega)
  have hback : ∀ term, parameters.dictionary.counter released term =
      parameters.dictionary.counter dictionary term := by
    intro term
    have htaken : parameters.dictionary.counter released term + _ =
      parameters.dictionary.counter interned.1 term := hreleased term
    have hadded : parameters.dictionary.counter interned.1 term = _ := hcounter term
    omega
  refine ⟨hback, fun key value hvalue => hlive key value (hkeep key value hvalue) ?_⟩
  rw [hback]
  exact parameters.dictionary.counter_pos _ _ _ hvalue

/-! ## References -/

/-- The dictionary columns. -/
def dictionaryColumns (config : Config) : List (Fin config.columns) :=
  (List.finRange config.columns).filter config.inDictionary

/-- The number of pairs of a stored tuple and a dictionary column whose value is
`term`. -/
def references (store : Store parameters) (term : Term) : ℕ :=
  (store.tuples ×ˢ dictionaryColumns parameters.config).countP fun pair =>
    termAt store.dictionary pair.1 pair.2 = some term

/-- The pairs of a tuple and a dictionary column of it with the value `term`, for
tuples whose columns have the values `values`. -/
private theorem countP_product_cons (dictionary : parameters.dictionary.State)
    (tuple : Tuple parameters.config Term Key)
    (tuples : List (Tuple parameters.config Term Key))
    (values : Fin parameters.config.columns → Option Term)
    (hvalues : ∀ i, parameters.config.inDictionary i = true →
      termAt dictionary tuple i = values i) (term : Term) :
    ((tuple :: tuples) ×ˢ dictionaryColumns parameters.config).countP
        (fun pair => termAt dictionary pair.1 pair.2 = some term) =
      (tuples ×ˢ dictionaryColumns parameters.config).countP
          (fun pair => termAt dictionary pair.1 pair.2 = some term) +
        occurrences parameters.config values (List.finRange parameters.config.columns) term := by
  have hcolumns : (dictionaryColumns parameters.config).countP
        (fun i => termAt dictionary tuple i = some term) =
      occurrences parameters.config values (List.finRange parameters.config.columns) term := by
    unfold dictionaryColumns occurrences
    rw [List.countP_filter]
    refine List.countP_congr fun i _ => ?_
    by_cases hdict : parameters.config.inDictionary i = true
    · simp [hdict, hvalues i hdict]
    · simp [hdict]
  rw [List.product_cons, List.countP_append, List.countP_map, ← hcolumns, Nat.add_comm]
  rfl

/-- References do not change when the stored tuples keep their values. -/
private theorem countP_product_congr {first last : parameters.dictionary.State}
    {tuples : List (Tuple parameters.config Term Key)}
    (hkeep : ∀ tuple ∈ tuples, ∀ i, parameters.config.inDictionary i = true →
      termAt last tuple i = termAt first tuple i) (term : Term) :
    (tuples ×ˢ dictionaryColumns parameters.config).countP
        (fun pair => termAt last pair.1 pair.2 = some term) =
      (tuples ×ˢ dictionaryColumns parameters.config).countP
        (fun pair => termAt first pair.1 pair.2 = some term) := by
  refine List.countP_congr fun pair hpair => ?_
  obtain ⟨htuple, hcolumn⟩ := List.mem_product.1 hpair
  rw [hkeep pair.1 htuple pair.2 (List.mem_filter.1 hcolumn).2]

/-- The keys of all stored tuples are live, and counters are references. -/
structure Inv (store : Store parameters) : Prop where
  live : ∀ tuple ∈ store.tuples, ∀ i, parameters.config.inDictionary i = true →
    ∃ value, termAt store.dictionary tuple i = some value
  counted : ∀ term, parameters.dictionary.counter store.dictionary term = references store term

theorem inv_init (parameters : Parameters Term Key) : Inv (Store.init parameters) := by
  have htuples : (Store.init parameters).tuples = [] := parameters.container.tuples_empty
  refine ⟨fun tuple hmem => ?_, fun term => ?_⟩
  · rw [htuples] at hmem
    exact absurd hmem List.not_mem_nil
  · unfold references
    rw [htuples]
    exact parameters.dictionary.counter_empty term

theorem inv_of_perm {dictionary : parameters.dictionary.State}
    {container : parameters.container.State}
    {tuples : List (Tuple parameters.config Term Key)}
    (hperm : (parameters.container.tuples container).Perm tuples)
    (hlive : ∀ tuple ∈ tuples, ∀ i, parameters.config.inDictionary i = true →
      ∃ value, termAt dictionary tuple i = some value)
    (hcounted : ∀ term, parameters.dictionary.counter dictionary term =
      (tuples ×ˢ dictionaryColumns parameters.config).countP
        fun pair => termAt dictionary pair.1 pair.2 = some term) :
    Inv (⟨dictionary, container⟩ : Store parameters) := by
  refine ⟨fun tuple hmem => hlive tuple (hperm.mem_iff.1 hmem), fun term => ?_⟩
  rw [hcounted]
  exact ((hperm.product_right _).countP_eq _).symm

variable [DecidableEq Key]

/-! ## Iterators -/

structure Iterator (parameters : Parameters Term Key) where
  position : ℕ
  query : Tuple parameters.config Term Key
  mask : ℕ

/-- The columns of the mask agree with the query. -/
def Iterator.found (iterator : Iterator parameters) (tuple : Tuple parameters.config Term Key) :
    Bool :=
  (List.finRange parameters.config.columns).all fun i =>
    if iterator.mask.testBit i then
      if parameters.config.inDictionary i then tuple i = iterator.query i
      else parameters.compare i (tuple i) (iterator.query i) = 0
    else true

/-- `forward` goes on to the first tuple that is found, or to the end. -/
def forward (store : Store parameters) (iterator : Iterator parameters) : Iterator parameters :=
  { iterator with
    position := iterator.position +
      (store.tuples.drop iterator.position).findIdx iterator.found }

/-! ## `insert` and `erase` -/

/-- `insert`. -/
def insert (store : Store parameters) (t : Fin parameters.config.columns → Term) :
    Store parameters × Iterator parameters :=
  let columns := List.finRange parameters.config.columns
  let (interned, tmp) := internColumns parameters t columns store.dictionary fun _ => .null
  let (container, ci) := parameters.container.insert store.container tmp
  let dictionary :=
    -- the tuple is already there: dereference what was just referenced
    if (parameters.container.tuples container).length = store.size then
      releaseColumns parameters tmp columns interned
    else interned
  (⟨dictionary, container⟩, forward ⟨dictionary, container⟩ ⟨ci, fun _ => .null, 0⟩)

/-- `erase`; an iterator at the end fails the assertion. -/
def erase (store : Store parameters) (iterator : Iterator parameters) :
    Option (Store parameters × Iterator parameters) := do
  let t ← store.tuples[iterator.position]?
  let dictionary :=
    releaseColumns parameters t (List.finRange parameters.config.columns) store.dictionary
  let (container, nextc) := parameters.container.erase store.container iterator.position
  -- only the columns of the mask are restored into the new query
  let query : Tuple parameters.config Term Key := fun i =>
    if iterator.mask.testBit i then iterator.query i else .null
  return (⟨dictionary, container⟩,
    forward ⟨dictionary, container⟩ ⟨nextc, query, iterator.mask⟩)

inductive Op (parameters : Parameters Term Key) where
  | insert (t : Fin parameters.config.columns → Term)
  | erase (iterator : Iterator parameters)

def perform (store : Store parameters) : Op parameters → Option (Store parameters)
  | .insert t => some (insert store t).1
  | .erase iterator => (erase store iterator).map Prod.fst

theorem inv_insert {store : Store parameters} (hinv : Inv store)
    (t : Fin parameters.config.columns → Term) : Inv (insert store t).1 := by
  obtain ⟨hcounter, hkeep, hterm, -⟩ := internColumns_spec t
    (List.finRange parameters.config.columns) store.dictionary (fun _ => .null)
    (List.nodup_finRange _)
  obtain ⟨hback, hlive⟩ := releaseColumns_internColumns t store.dictionary (fun _ => .null)
  unfold insert
  dsimp only
  generalize internColumns parameters t (List.finRange parameters.config.columns)
    store.dictionary (fun _ => .null) = interned at *
  obtain ⟨interned, tmp⟩ := interned
  dsimp only at *
  have htmp : ∀ i, parameters.config.inDictionary i = true → termAt interned tmp i = some (t i) :=
    fun i => hterm i (List.mem_finRange i)
  have hold : ∀ tuple ∈ store.tuples, ∀ i, parameters.config.inDictionary i = true →
      termAt interned tuple i = termAt store.dictionary tuple i := by
    intro tuple hmem i hdict
    obtain ⟨value, hvalue⟩ := hinv.live tuple hmem i hdict
    rw [hvalue]
    exact hkeep _ _ hvalue
  split_ifs with hsize
  · -- the tuple was there, or did not fit
    have hperm : (parameters.container.tuples
        (parameters.container.insert store.container tmp).1).Perm store.tuples := by
      by_cases hmem : tmp ∈ store.tuples
      · exact parameters.container.insert_mem _ _ hmem
      · refine (parameters.container.insert_new _ _ hmem).resolve_left fun hnew => ?_
        have := hnew.length_eq.symm.trans hsize
        simp [Store.size, Store.tuples] at this
    have hsame : ∀ tuple ∈ store.tuples, ∀ i, parameters.config.inDictionary i = true →
        termAt (releaseColumns parameters tmp (List.finRange parameters.config.columns) interned)
          tuple i = termAt store.dictionary tuple i := by
      intro tuple hmem i hdict
      obtain ⟨value, hvalue⟩ := hinv.live tuple hmem i hdict
      rw [hvalue]
      exact hlive _ _ hvalue
    refine inv_of_perm hperm (fun tuple hmem i hdict => ?_) fun term => ?_
    · rw [hsame tuple hmem i hdict]
      exact hinv.live tuple hmem i hdict
    · rw [hback, hinv.counted, countP_product_congr hsame]
      rfl
  · have hperm : (parameters.container.tuples
        (parameters.container.insert store.container tmp).1).Perm (tmp :: store.tuples) := by
      by_cases hmem : tmp ∈ store.tuples
      · exact absurd (parameters.container.insert_mem _ _ hmem).length_eq hsize
      · exact (parameters.container.insert_new _ _ hmem).resolve_right
          fun hfull => hsize hfull.length_eq
    refine inv_of_perm hperm (fun tuple hmem i hdict => ?_) fun term => ?_
    · rcases List.mem_cons.1 hmem with rfl | hmem
      · exact ⟨_, htmp i hdict⟩
      · rw [hold tuple hmem i hdict]
        exact hinv.live tuple hmem i hdict
    · rw [hcounter, hinv.counted, countP_product_cons interned tmp store.tuples _ htmp,
        countP_product_congr hold]
      rfl

omit [DecidableEq Key] in
/-- What `erase` leaves in the dictionary: every term is counted as often as the other
tuples use it, and their keys still stand for the same terms. -/
theorem releaseColumns_erased {store : Store parameters} (hinv : Inv store)
    {t : Tuple parameters.config Term Key} {others : List (Tuple parameters.config Term Key)}
    (hperm : (t :: others).Perm store.tuples) :
    let released :=
      releaseColumns parameters t (List.finRange parameters.config.columns) store.dictionary
    (∀ term, parameters.dictionary.counter released term =
        (others ×ˢ dictionaryColumns parameters.config).countP
          fun pair => termAt store.dictionary pair.1 pair.2 = some term) ∧
      ∀ tuple ∈ others, ∀ i, parameters.config.inDictionary i = true → ∃ value,
        termAt store.dictionary tuple i = some value ∧ termAt released tuple i = some value := by
  intro released
  have hmem : t ∈ store.tuples := hperm.mem_iff.1 List.mem_cons_self
  have hbefore : ∀ term, parameters.dictionary.counter store.dictionary term =
      (others ×ˢ dictionaryColumns parameters.config).countP
          (fun pair => termAt store.dictionary pair.1 pair.2 = some term) +
        occurrences parameters.config (termAt store.dictionary t)
          (List.finRange parameters.config.columns) term := by
    intro term
    rw [hinv.counted, ← countP_product_cons store.dictionary t _ _ fun i _ => rfl]
    exact ((hperm.product_right _).countP_eq _).symm
  obtain ⟨hreleased, hlive⟩ := releaseColumns_spec t (termAt store.dictionary t)
    (List.finRange parameters.config.columns) store.dictionary
    (fun i _ hdict => by
      obtain ⟨value, hvalue⟩ := hinv.live t hmem i hdict
      exact ⟨value, hvalue, hvalue⟩)
    (fun term => by rw [hbefore]; omega)
  have hafter : ∀ term, parameters.dictionary.counter released term =
      (others ×ˢ dictionaryColumns parameters.config).countP
        fun pair => termAt store.dictionary pair.1 pair.2 = some term := by
    intro term
    have htaken : parameters.dictionary.counter released term + _ = _ := hreleased term
    have hall := hbefore term
    omega
  refine ⟨hafter, fun tuple htuple i hdict => ?_⟩
  -- a term of a tuple that is left is still counted
  obtain ⟨value, hvalue⟩ :=
    hinv.live tuple (hperm.mem_iff.1 (List.mem_cons_of_mem _ htuple)) i hdict
  refine ⟨value, hvalue, hlive _ _ hvalue ?_⟩
  rw [hafter]
  exact List.countP_pos_iff.2 ⟨(tuple, i), List.mem_product.2 ⟨htuple,
    List.mem_filter.2 ⟨List.mem_finRange i, hdict⟩⟩, by simp [hvalue]⟩

theorem inv_erase {store next : Store parameters} {iterator result : Iterator parameters}
    (hinv : Inv store) (herase : erase store iterator = some (next, result)) : Inv next := by
  unfold erase at herase
  obtain ⟨t, ht, herase⟩ := Option.bind_eq_some_iff.1 herase
  have hperm := parameters.container.erase_perm store.container iterator.position t ht
  generalize parameters.container.erase store.container iterator.position = erased at hperm herase
  obtain ⟨container, nextc⟩ := erased
  obtain ⟨rfl, -⟩ := Prod.mk.inj (Option.some.inj herase)
  obtain ⟨hafter, hsame⟩ := releaseColumns_erased hinv hperm
  refine inv_of_perm (List.Perm.refl _) (fun tuple htuple i hdict => ?_) fun term => ?_
  · obtain ⟨value, -, hvalue⟩ := hsame tuple htuple i hdict
    exact ⟨value, hvalue⟩
  · rw [hafter]
    refine (countP_product_congr (fun tuple htuple i hdict => ?_) term).symm
    obtain ⟨value, hfirst, hlast⟩ := hsame tuple htuple i hdict
    rw [hfirst, hlast]

/-- After every run the counter of a term is the number of its references, and the
dictionary holds exactly the terms that some stored tuple uses. -/
theorem counter_eq_references {operations : List (Op parameters)} {store : Store parameters}
    (hrun : Run (stepOf perform) (Store.init parameters) operations store) :
    (∀ term, parameters.dictionary.counter store.dictionary term = references store term) ∧
      ∀ term, (parameters.dictionary.find store.dictionary term).isSome ↔
        ∃ tuple ∈ store.tuples, ∃ i, parameters.config.inDictionary i = true ∧
          termAt store.dictionary tuple i = some term := by
  have hstep : ∀ state op next, Inv state → stepOf perform state op next →
      Inv (next : Store parameters) := by
    intro state op next hinv hstep
    cases op with
    | insert t =>
        obtain rfl := Option.some.inj hstep
        exact inv_insert hinv t
    | erase iterator =>
        obtain ⟨⟨erased, result⟩, herase, rfl⟩ := Option.map_eq_some_iff.1 hstep
        exact inv_erase hinv herase
  have hinv := hrun.invariant hstep (inv_init parameters)
  refine ⟨hinv.counted, fun term => ?_⟩
  rw [parameters.dictionary.find_isSome, hinv.counted, references, List.countP_pos_iff]
  constructor
  · rintro ⟨⟨tuple, i⟩, hpair, hterm⟩
    obtain ⟨htuple, hcolumn⟩ := List.mem_product.1 hpair
    exact ⟨tuple, htuple, i, (List.mem_filter.1 hcolumn).2, by simpa using hterm⟩
  · rintro ⟨tuple, htuple, i, hdict, hterm⟩
    exact ⟨(tuple, i), List.mem_product.2 ⟨htuple,
      List.mem_filter.2 ⟨List.mem_finRange i, hdict⟩⟩, by simpa using hterm⟩

end Store

/-! ## Concrete parameters -/

/-- A dictionary whose keys are the terms, as a map of counters. -/
def countingDictionary (Term : Type) [DecidableEq Term] (nullKey : Term) :
    Dictionary Term Term where
  State := Term → ℕ
  nullKey := nullKey
  empty := fun _ => 0
  insert counters term := (Function.update counters term (counters term + 1), term)
  erase counters key := Function.update counters key (counters key - 1)
  find counters term := if 0 < counters term then some term else none
  getValue counters key := if 0 < counters key then some key else none
  counter counters := counters
  counter_empty _ := rfl
  counter_insert _ _ := rfl
  getValue_insert counters term := by simp
  getValue_insert_of_some counters term key value hvalue := by
    rw [Option.ite_none_right_eq_some] at hvalue ⊢
    obtain ⟨hpos, heq⟩ := hvalue
    refine ⟨?_, heq⟩
    dsimp only
    by_cases hkey : key = term
    · rw [hkey, Function.update_self]
      exact Nat.succ_pos _
    · rwa [Function.update_of_ne hkey]
  counter_pos counters key term hvalue := by
    rw [Option.ite_none_right_eq_some] at hvalue
    obtain ⟨hpos, heq⟩ := hvalue
    exact Option.some.inj heq ▸ hpos
  counter_erase counters key term hvalue := by
    rw [Option.ite_none_right_eq_some] at hvalue
    rw [Option.some.inj hvalue.2]
  getValue_erase counters key term other value _ hvalue hpos := by
    rw [Option.ite_none_right_eq_some] at hvalue ⊢
    obtain rfl := Option.some.inj hvalue.2
    exact ⟨hpos, rfl⟩
  find_isSome counters term := by split_ifs with hpos <;> simp [hpos]

/-- A container that appends to a list. -/
def listContainer (Tuple : Type) [DecidableEq Tuple] : Container Tuple where
  State := { tuples : List Tuple // tuples.Nodup }
  empty := ⟨[], List.nodup_nil⟩
  tuples state := state.1
  insert state tuple :=
    if hmem : tuple ∈ state.1 then (state, state.1.idxOf tuple)
    else (⟨state.1.concat tuple, state.2.concat hmem⟩, state.1.length)
  erase state position := (⟨state.1.eraseIdx position, state.2.eraseIdx position⟩, position)
  tuples_empty := rfl
  nodup state := state.2
  insert_mem state tuple hmem := by rw [dif_pos hmem]
  insert_new state tuple hmem := by
    rw [dif_neg hmem]
    left
    dsimp only
    rw [List.concat_eq_append]
    exact List.perm_append_singleton _ _
  erase_perm state position tuple htuple := by
    obtain ⟨hlt, rfl⟩ := List.getElem?_eq_some_iff.1 htuple
    exact List.getElem_cons_eraseIdx_perm hlt

/-- Both columns of two go to the dictionary. -/
def twoColumns : Parameters ℕ ℕ :=
  ⟨⟨2, 3⟩, countingDictionary ℕ 0, listContainer _, fun _ cell other => if cell = other then 0 else 1⟩

/-- The term 7 is in both columns of a tuple that is inserted twice, and in one column
of another; the first tuple is erased. -/
theorem counter_eq_references_duplicate :
    ∃ store : Store twoColumns, Run (stepOf perform) (Store.init twoColumns)
        [.insert ![7, 7], .insert ![7, 7], .insert ![8, 7], .erase ⟨0, fun _ => .null, 0⟩] store ∧
      (∀ term, twoColumns.dictionary.counter store.dictionary term = references store term) ∧
        ∀ term, (twoColumns.dictionary.find store.dictionary term).isSome ↔
          ∃ tuple ∈ store.tuples, ∃ i, twoColumns.config.inDictionary i = true ∧
            termAt store.dictionary tuple i = some term := by
  have hrun : Run (stepOf perform) (Store.init twoColumns)
      [.insert ![7, 7], .insert ![7, 7], .insert ![8, 7], .erase ⟨0, fun _ => .null, 0⟩] _ :=
    .cons rfl <| .cons rfl <| .cons rfl <| .cons rfl <| .nil _
  exact ⟨_, hrun, counter_eq_references hrun⟩

end Wiselib.TupleStore
