import Mathlib

/-!
# Messages in fragments

`FragmentingMessage` cuts a payload that does not fit into one radio message into
numbered fragments, and collects fragments until as many have come as the first
of them announces.  The fragments are joined in the order in which they came.

This file models cutting (`vectorize`), collecting (`insert_unique`,
`check_completeness`) and joining (`de_vectorize`), and proves what the cut
fragments look like: they are numbered in increasing order, and where none is
missing they join to the payload.

Every fragment also carries the message it was cut from.  The code has no such
field, and no handler reads it.
-/

namespace Wiselib.Radio.Fragmenting

/-! ## Vectors of fixed capacity -/

section PushBack

variable {α β : Type*}

/-- `push_back`, which does nothing on a full vector. -/
def pushBack (capacity : ℕ) (x : α) (vector : List α) : List α :=
  if vector.length < capacity then vector ++ [x] else vector

theorem pushBack_eq_or (capacity : ℕ) (x : α) (vector : List α) :
    pushBack capacity x vector = vector ++ [x] ∨ pushBack capacity x vector = vector := by
  unfold pushBack
  split
  · exact .inl rfl
  · exact .inr rfl

theorem pushBack_take (capacity : ℕ) (x : α) (list : List α) :
    pushBack capacity x (list.take capacity) = (list ++ [x]).take capacity := by
  unfold pushBack
  rw [List.length_take]
  split
  · rename_i hroom
    have hshort : list.length < capacity := by omega
    rw [List.take_of_length_le hshort.le, List.take_of_length_le]
    rw [List.length_append, List.length_singleton]
    omega
  · rename_i hfull
    rw [List.take_append_of_le_length (by omega)]

theorem foldl_pushBack (capacity : ℕ) (f : β → α) (items : List β) :
    items.foldl (fun vector item => pushBack capacity (f item) vector) [] =
      (items.map f).take capacity := by
  induction items using List.reverseRecOn with
  | nil => simp
  | append_singleton items item ih =>
      rw [List.foldl_append, List.foldl_cons, List.foldl_nil, ih, pushBack_take, List.map_append]
      rfl

end PushBack

/-! ## Fragments -/

variable {Origin : Type*}

/-- `Radio::MAX_MESSAGE_LENGTH`, `reserved_bytes()` of the radio, the bytes of its
`size_t`, and the sizes of the vectors. -/
structure Config where
  maxMessageLength : ℕ
  radioReserved : ℕ
  sizeBytes : ℕ
  maxFragments : ℕ
  maxBuffered : ℕ
  maxRegistered : ℕ
  timeout : UInt32
  sizeBytes_pos : 0 < sizeBytes
  maxFragments_pos : 0 < maxFragments

/-- What a number becomes in the radio's `size_t`. -/
def Config.truncate (config : Config) (n : ℕ) : ℕ :=
  n % 256 ^ config.sizeBytes

/-- `reserved_bytes`: the radio's own and the header of a fragment. -/
def Config.reservedBytes (config : Config) : ℕ :=
  config.radioReserved + (2 + 1 + 3 * config.sizeBytes)

/-- The payload of a full fragment. -/
def Config.fragmentPayload (config : Config) : ℕ :=
  config.maxMessageLength - config.reservedBytes

/-- `Fragment`. -/
structure Fragment (Origin : Type*) where
  origin : Origin
  id : UInt16
  orig_id : UInt8
  seq_fragment : ℕ
  total_fragments : ℕ
  payload : List UInt8
deriving DecidableEq, Repr

/-- The fragments that a payload needs. -/
def numberOfFragments (len mrLen : ℕ) : ℕ :=
  if len % mrLen ≠ 0 then len / mrLen + 1 else len / mrLen

/-- One round of `vectorize`: the fragment number `i`. -/
def fragmentAt (config : Config) (origin : Origin) (id : UInt16) (origId : UInt8)
    (payload : List UInt8) (mrLen i size : ℕ) : Fragment Origin where
  origin := origin
  id := id
  orig_id := origId
  seq_fragment := config.truncate i
  total_fragments := config.truncate (numberOfFragments payload.length mrLen)
  payload := (payload.drop (i * mrLen)).take size

/-- `vectorize`.  The fragment behind the loop is made only for the bytes that
are left over. -/
def vectorize (config : Config) (origin : Origin) (id : UInt16) (origId : UInt8)
    (payload : List UInt8) (mrLen : ℕ) : List (Fragment Origin) :=
  let number := numberOfFragments payload.length mrLen
  let lastFragmentBytes := payload.length % mrLen
  let fragments := (List.range (number - 1)).foldl (fun fragments i =>
    pushBack config.maxFragments
      (fragmentAt config origin id origId payload mrLen i mrLen) fragments) []
  if lastFragmentBytes ≠ 0 then
    pushBack config.maxFragments
      (fragmentAt config origin id origId payload mrLen (number - 1) lastFragmentBytes) fragments
  else fragments

/-! ## Collecting -/

/-- `FragmentingMessage`. -/
structure FragmentingMessage (Origin : Type*) where
  id : UInt16
  orig_id : UInt8
  timestamp : UInt32
  active : Bool
  fragments : List (Fragment Origin)
deriving DecidableEq, Repr

/-- The results of `check_completeness`. -/
inductive Completeness
  | empty
  | complete
  | incomplete
deriving DecidableEq, Repr

/-- `check_completeness`. -/
def FragmentingMessage.checkCompleteness (message : FragmentingMessage Origin) : Completeness :=
  match message.fragments with
  | [] => .empty
  | first :: _ =>
      if message.fragments.length = first.total_fragments then .complete else .incomplete

theorem FragmentingMessage.checkCompleteness_eq_complete {message : FragmentingMessage Origin} :
    message.checkCompleteness = .complete ↔
      ∃ first rest, message.fragments = first :: rest ∧
        message.fragments.length = first.total_fragments := by
  unfold FragmentingMessage.checkCompleteness
  cases hfragments : message.fragments with
  | nil => simp
  | cons first rest =>
      dsimp only
      split
      · rename_i hcount
        exact ⟨fun _ => ⟨first, rest, rfl, hcount⟩, fun _ => rfl⟩
      · rename_i hcount
        constructor
        · intro hfalse
          simp at hfalse
        · intro hexists
          obtain ⟨other, others, heq, hother⟩ := hexists
          obtain ⟨rfl, -⟩ := List.cons.inj heq
          exact absurd hother hcount

/-- `insert_unique`. -/
def FragmentingMessage.insertUnique (config : Config) (fragment : Fragment Origin)
    (message : FragmentingMessage Origin) : FragmentingMessage Origin :=
  match message.checkCompleteness with
  | .empty =>
      { message with fragments := pushBack config.maxFragments fragment message.fragments }
  | .incomplete =>
      if message.fragments.any fun other => fragment.seq_fragment == other.seq_fragment then message
      else { message with fragments := pushBack config.maxFragments fragment message.fragments }
  | .complete => message

/-- `de_vectorize`. -/
def FragmentingMessage.deVectorize (message : FragmentingMessage Origin) : List UInt8 :=
  message.fragments.flatMap fun fragment => fragment.payload

theorem FragmentingMessage.insertUnique_cases (config : Config) (fragment : Fragment Origin)
    (message : FragmentingMessage Origin) :
    message.insertUnique config fragment = message ∨
      message.insertUnique config fragment =
        { message with fragments := message.fragments ++ [fragment] } ∧
      message.checkCompleteness ≠ .complete ∧
      ∀ other ∈ message.fragments, fragment.seq_fragment ≠ other.seq_fragment := by
  unfold FragmentingMessage.insertUnique
  cases hcheck : message.checkCompleteness with
  | empty =>
      have hnil : message.fragments = [] := by
        unfold FragmentingMessage.checkCompleteness at hcheck
        split at hcheck
        · assumption
        · split at hcheck
          · simp at hcheck
          · simp at hcheck
      rcases pushBack_eq_or config.maxFragments fragment message.fragments with hpush | hpush
      · exact .inr ⟨by simp only [hpush], by simp, by simp [hnil]⟩
      · exact .inl (by simp only [hpush])
  | incomplete =>
      dsimp only
      split
      · exact .inl rfl
      · rename_i hnew
        have hother : ∀ other ∈ message.fragments,
            fragment.seq_fragment ≠ other.seq_fragment := by
          intro other hmem heq
          exact hnew (List.any_eq_true.2 ⟨other, hmem, beq_iff_eq.2 heq⟩)
        rcases pushBack_eq_or config.maxFragments fragment message.fragments with hpush | hpush
        · exact .inr ⟨by simp only [hpush], by simp, hother⟩
        · exact .inl (by simp only [hpush])
  | complete => exact .inl rfl

/-! ## What is cut -/

section Vectorize

variable {config : Config} {origin : Origin} {id : UInt16} {origId : UInt8}
  {payload : List UInt8} {mrLen : ℕ}

/-- The number of fragments that `vectorize` makes, before the capacity. -/
def piecesMade (len mrLen : ℕ) : ℕ :=
  if len % mrLen ≠ 0 then numberOfFragments len mrLen else numberOfFragments len mrLen - 1

theorem piecesMade_le (len mrLen : ℕ) : piecesMade len mrLen ≤ numberOfFragments len mrLen := by
  unfold piecesMade
  split
  · exact le_rfl
  · exact Nat.sub_le _ _

/-- The fragments are consecutive pieces of the payload, cut off at the capacity. -/
theorem vectorize_eq_take (hpos : 0 < mrLen) :
    vectorize config origin id origId payload mrLen =
      ((List.range (piecesMade payload.length mrLen)).map fun i =>
        fragmentAt config origin id origId payload mrLen i mrLen).take config.maxFragments := by
  unfold vectorize piecesMade
  dsimp only
  rw [foldl_pushBack]
  split
  · rename_i hlast
    have hnumber : numberOfFragments payload.length mrLen = payload.length / mrLen + 1 := by
      unfold numberOfFragments
      rw [if_pos hlast]
    -- the bytes left over are all that is behind the full pieces
    have hrest : fragmentAt config origin id origId payload mrLen (payload.length / mrLen)
          (payload.length % mrLen) =
        fragmentAt config origin id origId payload mrLen (payload.length / mrLen) mrLen := by
      have hlength : (payload.drop (payload.length / mrLen * mrLen)).length =
          payload.length % mrLen := by
        rw [List.length_drop]
        have hdiv := Nat.div_add_mod payload.length mrLen
        rw [Nat.mul_comm] at hdiv
        omega
      have hle : payload.length % mrLen ≤ mrLen := (Nat.mod_lt _ hpos).le
      unfold fragmentAt
      rw [List.take_of_length_le hlength.le, List.take_of_length_le (hlength.le.trans hle)]
    rw [hnumber, Nat.add_sub_cancel, hrest, pushBack_take, List.range_succ, List.map_append]
    rfl
  · rfl

/-- Every fragment is a piece of the payload under its number, and carries the
number of fragments. -/
theorem mem_vectorize (hpos : 0 < mrLen) {fragment : Fragment Origin}
    (hmem : fragment ∈ vectorize config origin id origId payload mrLen) :
    ∃ i < numberOfFragments payload.length mrLen,
      fragment = fragmentAt config origin id origId payload mrLen i mrLen := by
  rw [vectorize_eq_take hpos] at hmem
  obtain ⟨i, hi, rfl⟩ := List.mem_map.1 (List.mem_of_mem_take hmem)
  exact ⟨i, (List.mem_range.1 hi).trans_le (piecesMade_le _ _), rfl⟩

theorem pairwise_vectorize (hpos : 0 < mrLen)
    (hfits : numberOfFragments payload.length mrLen < 256 ^ config.sizeBytes) :
    (vectorize config origin id origId payload mrLen).Pairwise fun first second =>
      first.seq_fragment < second.seq_fragment := by
  rw [vectorize_eq_take hpos]
  apply List.Pairwise.sublist (List.take_sublist _ _)
  rw [List.pairwise_map]
  apply List.Pairwise.imp_of_mem ?_ List.pairwise_lt_range
  intro first second _ hsecond hlt
  have hbound := (List.mem_range.1 hsecond).trans_le (piecesMade_le _ _)
  show config.truncate first < config.truncate second
  unfold Config.truncate
  rw [Nat.mod_eq_of_lt (by omega), Nat.mod_eq_of_lt (by omega)]
  exact hlt

theorem length_vectorize_le (hpos : 0 < mrLen) :
    (vectorize config origin id origId payload mrLen).length ≤
      numberOfFragments payload.length mrLen := by
  rw [vectorize_eq_take hpos, List.length_take, List.length_map, List.length_range]
  exact (Nat.min_le_right _ _).trans (piecesMade_le _ _)

theorem flatMap_pieces (payload : List UInt8) (size count : ℕ) :
    ((List.range count).flatMap fun i => (payload.drop (i * size)).take size) =
      payload.take (count * size) := by
  induction count with
  | zero => simp
  | succ count ih =>
      rw [List.range_succ, List.flatMap_append, ih, List.flatMap_singleton, Nat.succ_mul,
        List.take_add]

/-- Where no fragment is missing, the fragments join to the payload. -/
theorem join_vectorize (hpos : 0 < mrLen)
    (hall : (vectorize config origin id origId payload mrLen).length =
      numberOfFragments payload.length mrLen) :
    ((vectorize config origin id origId payload mrLen).flatMap fun fragment => fragment.payload) =
      payload := by
  rw [vectorize_eq_take hpos] at hall ⊢
  have hmade : piecesMade payload.length mrLen = numberOfFragments payload.length mrLen := by
    have hle := piecesMade_le payload.length mrLen
    rw [List.length_take, List.length_map, List.length_range] at hall
    omega
  have hcapacity : ((List.range (piecesMade payload.length mrLen)).map fun i =>
      fragmentAt config origin id origId payload mrLen i mrLen).length ≤ config.maxFragments := by
    rw [List.length_take, List.length_map, List.length_range] at hall
    rw [List.length_map, List.length_range]
    omega
  rw [List.take_of_length_le hcapacity, List.flatMap_map, hmade]
  have hcover : payload.length ≤ numberOfFragments payload.length mrLen * mrLen := by
    have hdiv := Nat.div_add_mod payload.length mrLen
    have hlt := Nat.mod_lt payload.length hpos
    rw [Nat.mul_comm] at hdiv
    unfold numberOfFragments
    split
    · rw [Nat.succ_mul]
      omega
    · omega
  calc ((List.range (numberOfFragments payload.length mrLen)).flatMap fun i =>
        (fragmentAt config origin id origId payload mrLen i mrLen).payload)
      = payload.take (numberOfFragments payload.length mrLen * mrLen) :=
        flatMap_pieces payload mrLen _
    _ = payload := List.take_of_length_le hcover

/-- Fragments of one message in increasing order, as many as it has, are all of
its fragments. -/
theorem eq_vectorize (hpos : 0 < mrLen)
    (hfits : numberOfFragments payload.length mrLen < 256 ^ config.sizeBytes)
    {fragments : List (Fragment Origin)}
    (hmem : ∀ fragment ∈ fragments, fragment ∈ vectorize config origin id origId payload mrLen)
    (hordered : fragments.Pairwise fun first second => first.seq_fragment < second.seq_fragment)
    (hcount : fragments.length = numberOfFragments payload.length mrLen) :
    fragments = vectorize config origin id origId payload mrLen := by
  have hantisymm : Std.Antisymm fun first second : Fragment Origin =>
      first.seq_fragment < second.seq_fragment :=
    ⟨fun _ _ hlt hgt => absurd hlt hgt.asymm⟩
  have hdistinct : fragments.Nodup := hordered.imp fun hlt heq => by
    rw [heq] at hlt
    exact Nat.lt_irrefl _ hlt
  have hsublist : fragments.Sublist (vectorize config origin id origId payload mrLen) :=
    List.sublist_of_subperm_of_pairwise (hdistinct.subperm hmem) hordered
      (pairwise_vectorize hpos hfits)
  apply hsublist.eq_of_length_le
  rw [hcount]
  exact length_vectorize_le hpos

end Vectorize

end Wiselib.Radio.Fragmenting
