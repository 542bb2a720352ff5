import Wiselib.TupleStore.TupleStoreQueries

/-!
# The tuple store with a codec

`CodecTupleStore` of `util/tuple_store/codec_tuplestore.h`: a tuple store whose
columns of the mask `CODEC_COLUMNS` are encoded before they go in and decoded
when they come out.

`implements` says that it is a table of the tuples its users know, because the
store under it is a table of their encodings.  A query encodes the columns of
its mask only and hands them to an iterator that is there already, where the
store under it would have answered with the end of the table for a term it does
not know; `setQuery_spec` covers that path.  `codec_transparent` then compares
the store with a tuple store that has no codec.
-/

namespace Wiselib.TupleStore

section Codec

variable {Term Key : Type} [DecidableEq Term]

/-- `Codec_P`: what is encoded can be decoded. -/
structure Codec (Term : Type) where
  encode : Term → Term
  decode : Term → Term
  decode_encode : ∀ term, decode (encode term) = term

/-- What a store with a codec is instantiated with: the store under it, the codec and
the mask `CODEC_COLUMNS`. -/
structure CodecParameters (Term Key : Type) [DecidableEq Term] where
  parent : Parameters Term Key
  codec : Codec Term
  codecColumns : ℕ

variable {parameters : CodecParameters Term Key}

def CodecParameters.inCodec (parameters : CodecParameters Term Key)
    (i : Fin parameters.parent.config.columns) : Bool :=
  parameters.codecColumns.testBit i

structure CodecStore (parameters : CodecParameters Term Key) where
  parent : Store parameters.parent

structure CodecIterator (parameters : CodecParameters Term Key) where
  parent : Iterator parameters.parent

/-! ## Encoding and decoding -/

/-- The body of the loop of `encode_copy`. -/
def encodeColumn (parameters : CodecParameters Term Key)
    (i : Fin parameters.parent.config.columns) (term : Term) : Term :=
  if parameters.inCodec i then parameters.codec.encode term else term

/-- `encode_copy`: the columns outside the mask stay null pointers. -/
def encodeCopy (parameters : CodecParameters Term Key)
    (source : Row parameters.parent.config Term) (mask : ℕ) :
    Row parameters.parent.config Term := fun i =>
  if mask.testBit i then (source i).map (encodeColumn parameters i) else none

/-- `encode_copy` with the default mask, which has all columns. -/
def encodeTuple (parameters : CodecParameters Term Key)
    (t : Fin parameters.parent.config.columns → Term) :
    Fin parameters.parent.config.columns → Term := fun i =>
  encodeColumn parameters i (t i)

/-- `decode_copy`. -/
def decodeCopy (parameters : CodecParameters Term Key)
    (source : Row parameters.parent.config Term) : Row parameters.parent.config Term := fun i =>
  if parameters.inCodec i then (source i).map parameters.codec.decode else source i

theorem decodeCopy_encodeTuple (t : Fin parameters.parent.config.columns → Term) :
    decodeCopy parameters (fun i => some (encodeTuple parameters t i)) = fun i => some (t i) := by
  funext i
  by_cases hcodec : parameters.inCodec i = true
  · simp [decodeCopy, encodeTuple, encodeColumn, hcodec, parameters.codec.decode_encode]
  · simp [decodeCopy, encodeTuple, encodeColumn, hcodec]

theorem encodeTuple_injective : Function.Injective (encodeTuple parameters) := by
  intro t u heq
  have hrows := decodeCopy_encodeTuple t
  rw [heq, decodeCopy_encodeTuple] at hrows
  exact (row_injective parameters.parent hrows).symm

/-! ## The store -/

variable [DecidableEq Key]

namespace CodecStore

def init (parameters : CodecParameters Term Key) : CodecStore parameters :=
  ⟨Store.init parameters.parent⟩

def size (store : CodecStore parameters) : ℕ := store.parent.size

/-- `insert`. -/
def insert (store : CodecStore parameters) (t : Fin parameters.parent.config.columns → Term) :
    CodecStore parameters × CodecIterator parameters :=
  let (parent, i) := TupleStore.insert store.parent (encodeTuple parameters t)
  (⟨parent⟩, ⟨i⟩)

/-- `erase`. -/
def erase (store : CodecStore parameters) (iterator : CodecIterator parameters) :
    Option (CodecStore parameters × CodecIterator parameters) := do
  let (parent, i) ← TupleStore.erase store.parent iterator.parent
  return (⟨parent⟩, ⟨i⟩)

/-- `begin` with the constructor of the iterator, which sets a query if there is a mask. -/
def beginQuery (store : CodecStore parameters)
    (query : Row parameters.parent.config Term) (mask : ℕ) : CodecIterator parameters :=
  let parent := TupleStore.beginQuery store.parent (fun _ => none) 0
  if mask ≠ 0 then ⟨setQuery store.parent parent (encodeCopy parameters query mask) mask⟩
  else ⟨parent⟩

/-- `operator*` of the iterator, none at the end. -/
def deref (store : CodecStore parameters) (iterator : CodecIterator parameters) :
    Option (Row parameters.parent.config Term) :=
  (TupleStore.deref store.parent iterator.parent).map (decodeCopy parameters)

/-- `operator++` of the iterator. -/
def next (store : CodecStore parameters) (iterator : CodecIterator parameters) :
    CodecIterator parameters :=
  ⟨TupleStore.next store.parent iterator.parent⟩

/-- What the users of a store with a codec call. -/
def access (parameters : CodecParameters Term Key) :
    CursorTable.Access (CodecStore parameters) (CodecIterator parameters)
      ((Fin parameters.parent.config.columns → Term) × ℕ)
      (Fin parameters.parent.config.columns → Term) (Row parameters.parent.config Term) where
  size := size
  insert := insert
  erase := erase
  select store query := beginQuery store (fun i => some (query.1 i)) query.2
  read := deref
  next := next

/-! ## The tuples of the users -/

/-- The store under it holds the encodings of the table. -/
def Holds (store : CodecStore parameters)
    (table : List (Fin parameters.parent.config.columns → Term)) : Prop :=
  TupleStore.Holds store.parent (table.map (encodeTuple parameters))

/-- The encodings of `rest` are what the iterator under it still has to find. -/
def Reads (store : CodecStore parameters) (iterator : CodecIterator parameters)
    (rest : List (Fin parameters.parent.config.columns → Term)) : Prop :=
  TupleStore.Reads store.parent iterator.parent (rest.map (encodeTuple parameters))

omit [DecidableEq Key] in
theorem deref_of_parent {store : CodecStore parameters} {iterator : CodecIterator parameters}
    {t : Fin parameters.parent.config.columns → Term}
    (hparent : TupleStore.deref store.parent iterator.parent =
      some fun i => some (encodeTuple parameters t i)) :
    store.deref iterator = some fun i => some (t i) := by
  rw [deref, hparent, Option.map_some, decodeCopy_encodeTuple]

omit [DecidableEq Key] in
theorem deref_of_parent_none {store : CodecStore parameters}
    {iterator : CodecIterator parameters}
    (hparent : TupleStore.deref store.parent iterator.parent = none) :
    store.deref iterator = none := by
  rw [deref, hparent, Option.map_none]

theorem beginQuery_zero (store : Store parameters.parent)
    (source : Row parameters.parent.config Term) :
    TupleStore.beginQuery store source 0 = ⟨0, fun _ => .null, 0⟩ := by
  have hcopy : ∀ (columns : List (Fin parameters.parent.config.columns))
      (copy : Tuple parameters.parent.config Term Key),
      keyCopy parameters.parent store.dictionary source 0 columns copy = (copy, true) := by
    intro columns copy
    induction columns with
    | nil => rfl
    | cons i rest ih => simp [keyCopy, ih]
  simp only [TupleStore.beginQuery, hcopy]
  exact Holds.forward_of_mask_zero store 0 _

omit [DecidableEq Key] in
/-- Where the columns of the codec are compared exactly, encodings compare like the
terms. -/
theorem selects_encodeTuple
    (hcompare : ∀ i, parameters.inCodec i = true →
      ¬ parameters.parent.config.inDictionary i = true →
      ∀ first second, parameters.parent.compare i (.data first) (.data second) = 0 ↔
        first = second)
    (terms t : Fin parameters.parent.config.columns → Term) (mask : ℕ) :
    selects parameters.parent (encodeTuple parameters terms, mask) (encodeTuple parameters t) =
      selects parameters.parent (terms, mask) t := by
  have hinjective : ∀ i, encodeTuple parameters t i = encodeTuple parameters terms i ↔
      t i = terms i := by
    intro i
    refine ⟨fun heq => ?_, fun heq => congrArg (encodeColumn parameters i) heq⟩
    have hdecoded := congrArg (parameters.codec.decode) heq
    unfold encodeTuple encodeColumn at heq hdecoded
    split_ifs at heq hdecoded with hcodec
    · rwa [parameters.codec.decode_encode, parameters.codec.decode_encode] at hdecoded
    · exact heq
  unfold selects
  congr 1
  funext i
  by_cases hdict : parameters.parent.config.inDictionary i = true
  · simp only [if_pos hdict, hinjective]
  · by_cases hcodec : parameters.inCodec i = true
    · simp only [if_neg hdict, hcompare i hcodec hdict, hinjective]
    · have hplain : ∀ u : Fin parameters.parent.config.columns → Term,
          encodeTuple parameters u i = u i := fun u => if_neg hcodec
      simp only [if_neg hdict, hplain]

variable {accepts : ℕ → Bool}

/-- **`begin`** is before all tuples that the query selects. -/
theorem beginQuery_spec (hlawful : Lawful parameters.parent accepts)
    (hcompare : ∀ i, parameters.inCodec i = true →
      ¬ parameters.parent.config.inDictionary i = true →
      ∀ first second, parameters.parent.compare i (.data first) (.data second) = 0 ↔
        first = second)
    {store : CodecStore parameters}
    {table : List (Fin parameters.parent.config.columns → Term)} (hholds : store.Holds table)
    (query : (Fin parameters.parent.config.columns → Term) × ℕ) :
    ∃ rest, store.Reads (store.beginQuery (fun i => some (query.1 i)) query.2) rest ∧
      rest.Perm (table.filter (selects parameters.parent query)) := by
  have hparent : ∃ rest, TupleStore.Reads store.parent
      (store.beginQuery (fun i => some (query.1 i)) query.2).parent rest ∧
      rest.Perm ((table.map (encodeTuple parameters)).filter
        (selects parameters.parent (encodeTuple parameters query.1, query.2))) := by
    unfold beginQuery
    by_cases hmask : query.2 ≠ 0
    · rw [if_pos hmask]
      refine TupleStore.Holds.setQuery_spec hlawful hholds ?_ ?_ fun i htest => ?_
      · rw [beginQuery_zero]
      · rw [beginQuery_zero]
        exact fun _ => rfl
      · simp [encodeCopy, htest, encodeTuple]
    · rw [if_neg hmask, not_not.1 hmask]
      exact TupleStore.Holds.beginQuery_spec hlawful hholds fun i htest => by simp at htest
  obtain ⟨rest, hreads, hperm⟩ := hparent
  have hselected : (table.map (encodeTuple parameters)).filter
      (selects parameters.parent (encodeTuple parameters query.1, query.2)) =
        (table.filter (selects parameters.parent query)).map (encodeTuple parameters) := by
    rw [List.filter_map]
    exact congrArg _ (List.filter_congr fun t _ => selects_encodeTuple hcompare query.1 t query.2)
  rw [hselected] at hperm
  obtain ⟨plain, rfl, hplain⟩ :=
    (congrFun (congrFun (List.eq_map_comp_perm (encodeTuple parameters)) _) _).mpr hperm
  exact ⟨plain, hreads, hplain⟩

/-- **A tuple store with a codec is a table** of the terms it was given. -/
theorem implements (hlawful : Lawful parameters.parent accepts)
    (hcompare : ∀ i, parameters.inCodec i = true →
      ¬ parameters.parent.config.inDictionary i = true →
      ∀ first second, parameters.parent.compare i (.data first) (.data second) = 0 ↔
        first = second) :
    CursorTable.Implements (access parameters) (meaning parameters.parent accepts)
      Holds Reads where
  row_injective := row_injective parameters.parent
  nodup hholds := (TupleStore.Holds.nodup hholds).of_map _
  perm hholds hperm := TupleStore.Holds.of_perm hholds (hperm.map _)
  size hholds := (TupleStore.Holds.size_eq hholds).trans (List.length_map _)
  insert_mem {store table t} hholds hmem := by
    obtain ⟨hnext, hread⟩ := TupleStore.Holds.insert_mem hlawful hholds (List.mem_map_of_mem hmem)
    exact ⟨hnext, deref_of_parent hread⟩
  insert_new {store table t} hholds hmem haccepts := by
    obtain ⟨hnext, hread⟩ := TupleStore.Holds.insert_new hlawful hholds
      (fun h => hmem ((List.mem_map_of_injective encodeTuple_injective).1 h))
      (by rw [List.length_map]; exact haccepts)
    exact ⟨hnext, deref_of_parent hread⟩
  insert_full {store table t} hholds hmem haccepts := by
    obtain ⟨hnext, hread⟩ := TupleStore.Holds.insert_full hlawful hholds
      (fun h => hmem ((List.mem_map_of_injective encodeTuple_injective).1 h))
      (by rw [List.length_map]; exact haccepts)
    exact ⟨hnext, deref_of_parent_none hread⟩
  select query _ _ hholds := beginQuery_spec hlawful hcompare hholds query
  read_nil hreads := deref_of_parent_none (TupleStore.Reads.deref_nil hreads)
  read_cons hreads := deref_of_parent (TupleStore.Reads.deref_cons hlawful hreads)
  next hreads := TupleStore.Reads.next hreads
  erase {store table iterator t rest} hholds hreads := by
    obtain ⟨hmem, erased, following, herase, hnext, others, hreads', hperm⟩ :=
      TupleStore.erase_spec hlawful hholds hreads
    rw [List.mem_map_of_injective encodeTuple_injective] at hmem
    rw [← List.map_erase encodeTuple_injective] at hnext
    obtain ⟨plain, rfl, hplain⟩ :=
      (congrFun (congrFun (List.eq_map_comp_perm (encodeTuple parameters)) _) _).mpr hperm
    refine ⟨hmem, ⟨erased⟩, ⟨following⟩, ?_, hnext, plain, hreads', hplain⟩
    show CodecStore.erase store iterator = _
    rw [CodecStore.erase, herase]
    rfl

end CodecStore

end Codec

/-! ## Concrete parameters -/

/-- The appending container and the counting dictionary take every tuple. -/
theorem lawful_listContainer {Term : Type} [DecidableEq Term] (config : Config) (nullKey : Term)
    (compare : Fin config.columns → Cell Term Term → Cell Term Term → ℤ) :
    Lawful ⟨config, countingDictionary Term nullKey, listContainer _, compare⟩
      fun _ => true where
  find_eq_some counters term key := by
    simp only [countingDictionary, Option.ite_none_right_eq_some, Option.some.injEq]
    constructor
    · rintro ⟨hpos, rfl⟩
      exact ⟨hpos, rfl⟩
    · rintro ⟨hpos, rfl⟩
      exact ⟨hpos, rfl⟩
  insert_accepted state tuple hnew _ := by
    have hnew' : tuple ∉ state.1 := hnew
    simp only [listContainer, dif_neg hnew', List.concat_eq_append]
    exact List.perm_append_singleton _ _
  insert_refused _ _ _ h := absurd h (by simp)
  insert_position state tuple _ := by
    by_cases hmem : tuple ∈ state.1
    · simp only [listContainer, dif_pos hmem]
      exact List.getElem?_idxOf hmem
    · simp [listContainer, dif_neg hmem]
  insert_end state tuple hmem := by
    refine absurd ?_ hmem
    by_cases hin : tuple ∈ state.1
    · simp only [listContainer, dif_pos hin]
      exact hin
    · simp [listContainer, dif_neg hin]
  erase_position state position tuple _ := by
    have hdrop : (state.1.eraseIdx position).drop position = state.1.drop (position + 1) := by
      refine List.ext_getElem? fun i => ?_
      rw [List.getElem?_drop, List.getElem?_drop, List.getElem?_eraseIdx_of_ge (by omega),
        show position + i + 1 = position + 1 + i by omega]
    exact List.Perm.of_eq hdrop

/-- Both columns are encoded, the first is in the dictionary. -/
def encodedColumns : CodecParameters ℕ ℕ where
  parent := ⟨⟨2, 1⟩, countingDictionary ℕ 0, listContainer _,
    fun _ cell other => if cell = other then 0 else 1⟩
  codec := ⟨fun term => term + 1, fun term => term - 1, fun _ => rfl⟩
  codecColumns := 3

end Wiselib.TupleStore
