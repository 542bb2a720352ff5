import Wiselib.Radio.FragmentingMessage

/-!
# Cutting a payload and joining its fragments

What comes out of `vectorize`, `insert_unique` of every fragment, in any order and
any number of times, and `de_vectorize`.

## Strategy

A fragment that is inserted is taken the first time it comes, unless the message is
complete or full, so the fragments taken are pieces of the payload with different
numbers (`fragments_insertAll`).  Where all fragments were made they are the pieces in
the order of their first insertion (`fragments_insertAll_of_all`), and they are joined
in that order.  Where one was not made, too few bytes are joined.

A payload whose length is a multiple of the fragment size lacks its last fragment: the
loop of `vectorize` leaves it to the statements behind the loop, which make it only of
bytes that are left over.
-/

namespace Wiselib.Radio.Fragmenting

variable {Origin : Type*}

/-- The numbers of a list in the order in which they first occur. -/
def firstOf (order : List ℕ) : List ℕ :=
  order.foldl (fun firsts i => if i ∈ firsts then firsts else firsts ++ [i]) []

/-- One piece of a payload. -/
def piece (payload : List UInt8) (mrLen i : ℕ) : List UInt8 :=
  (payload.drop (i * mrLen)).take mrLen

/-- `insert_unique` of fragments, given by their places among those that `vectorize` made. -/
def insertAll (config : Config) (cut : List (Fragment Origin))
    (message : FragmentingMessage Origin) (order : List ℕ) : FragmentingMessage Origin :=
  (order.filterMap fun i => cut[i]?).foldl
    (fun message fragment => message.insertUnique config fragment) message

/-- The payload comes back, and the number of fragments announced is that of those made. -/
def JoinsBack (config : Config) (origin : Origin) (message : FragmentingMessage Origin)
    (payload : List UInt8) (mrLen : ℕ) (order : List ℕ) : Prop :=
  let cut := vectorize config origin message.id message.orig_id payload mrLen
  (insertAll config cut { message with fragments := [] } order).deVectorize = payload ∧
    ∀ fragment ∈ cut, fragment.total_fragments = cut.length

/-! ## Orders -/

section Orders

variable {order : List ℕ} {i : ℕ}

theorem firstOf_append (order : List ℕ) (i : ℕ) :
    firstOf (order ++ [i]) = if i ∈ firstOf order then firstOf order else firstOf order ++ [i] := by
  rw [firstOf, List.foldl_append]
  rfl

@[simp] theorem mem_firstOf : i ∈ firstOf order ↔ i ∈ order := by
  induction order using List.reverseRecOn with
  | nil => exact Iff.rfl
  | append_singleton order j ih =>
      rw [firstOf_append]
      split
      · rename_i hmem
        rw [ih, List.mem_append, List.mem_singleton]
        refine ⟨.inl, fun h => h.elim id ?_⟩
        rintro rfl
        exact ih.1 hmem
      · rw [List.mem_append, List.mem_append, ih]

theorem nodup_firstOf (order : List ℕ) : (firstOf order).Nodup := by
  induction order using List.reverseRecOn with
  | nil => exact List.nodup_nil
  | append_singleton order j ih =>
      rw [firstOf_append]
      split
      · exact ih
      · rename_i hnew
        exact List.concat_eq_append ▸ List.Nodup.concat hnew ih

theorem perm_range {n : ℕ} (hall : ∀ i, i ∈ order ↔ i < n) : (firstOf order).Perm (List.range n) :=
  (List.perm_ext_iff_of_nodup (nodup_firstOf order) List.nodup_range).2 fun i => by
    rw [mem_firstOf, hall, List.mem_range]

theorem length_firstOf_lt {n : ℕ} (hbound : ∀ i ∈ order, i < n) (hi : i < n) (hnew : i ∉ order) :
    (firstOf order).length < n := by
  have hsubset : i :: firstOf order ⊆ List.range n := by
    intro j hj
    rw [List.mem_range]
    rcases List.mem_cons.1 hj with rfl | hj
    · exact hi
    · exact hbound j (mem_firstOf.1 hj)
  have hnodup : (i :: firstOf order).Nodup :=
    List.nodup_cons.2 ⟨mt mem_firstOf.1 hnew, nodup_firstOf order⟩
  have hlength := (hnodup.subperm hsubset).length_le
  rwa [List.length_cons, List.length_range] at hlength

end Orders

/-! ## What is taken -/

section Taken

variable {config : Config} {origin : Origin} {message : FragmentingMessage Origin}
  {payload : List UInt8} {mrLen n : ℕ} {order : List ℕ}

/-- The number of fragments that `vectorize` makes. -/
def made (config : Config) (len mrLen : ℕ) : ℕ := min config.maxFragments (piecesMade len mrLen)

theorem vectorize_eq_map (hpos : 0 < mrLen) (id : UInt16) (origId : UInt8) :
    vectorize config origin id origId payload mrLen =
      (List.range (made config payload.length mrLen)).map fun i =>
        fragmentAt config origin id origId payload mrLen i mrLen := by
  rw [vectorize_eq_take hpos, ← List.map_take, List.take_range, made]

theorem insertAll_append {cut : List (Fragment Origin)} {fragment : Fragment Origin} {i : ℕ}
    (message : FragmentingMessage Origin) (order : List ℕ) (hget : cut[i]? = some fragment) :
    insertAll config cut message (order ++ [i]) =
      (insertAll config cut message order).insertUnique config fragment := by
  rw [insertAll, insertAll, List.filterMap_append, List.foldl_append,
    List.filterMap_cons_some hget]
  rfl

theorem insertUnique_of_mem {fragment : Fragment Origin} (hmem : fragment ∈ message.fragments) :
    (message.insertUnique config fragment).fragments = message.fragments := by
  rcases FragmentingMessage.insertUnique_cases config fragment message with hsame | ⟨-, -, hnew⟩
  · rw [hsame]
  · exact absurd rfl (hnew fragment hmem)

theorem insertUnique_of_new {fragment : Fragment Origin}
    (hroom : message.fragments.length < config.maxFragments)
    (hincomplete : ∀ other ∈ message.fragments, message.fragments.length ≠ other.total_fragments)
    (hnew : ∀ other ∈ message.fragments, fragment.seq_fragment ≠ other.seq_fragment) :
    (message.insertUnique config fragment).fragments = message.fragments ++ [fragment] := by
  have hpush : pushBack config.maxFragments fragment message.fragments =
      message.fragments ++ [fragment] := if_pos hroom
  unfold FragmentingMessage.insertUnique
  cases hcheck : message.checkCompleteness with
  | empty => exact hpush
  | complete =>
      obtain ⟨first, rest, hfragments, hcount⟩ :=
        FragmentingMessage.checkCompleteness_eq_complete.1 hcheck
      exact absurd hcount (hincomplete first (by simp [hfragments]))
  | incomplete =>
      have hany : message.fragments.any (fun other =>
          fragment.seq_fragment == other.seq_fragment) = false := by
        rw [List.any_eq_false]
        intro other hother hsame
        exact hnew other hother (beq_iff_eq.1 hsame)
      simp only [hany, Bool.false_eq_true, if_false]
      exact hpush

/-- **The fragments taken** have different numbers. -/
theorem fragments_insertAll (f : ℕ → Fragment Origin) (hempty : message.fragments = [])
    (horder : ∀ i ∈ order, i < n) :
    ∃ taken : List ℕ, (insertAll config ((List.range n).map f) message order).fragments =
        taken.map f ∧ taken.Nodup ∧ ∀ i ∈ taken, i < n := by
  induction order using List.reverseRecOn with
  | nil => exact ⟨[], hempty, List.nodup_nil, fun i hi => absurd hi (by simp)⟩
  | append_singleton order i ih =>
      obtain ⟨taken, hfragments, hnodup, hbound⟩ := ih fun j hj => horder j (by simp [hj])
      have hi : i < n := horder i (by simp)
      rw [insertAll_append message order (show ((List.range n).map f)[i]? = some (f i) by simp [hi])]
      rcases FragmentingMessage.insertUnique_cases config (f i)
        (insertAll config ((List.range n).map f) message order) with hsame | ⟨hadd, -, hnew⟩
      · rw [hsame]
        exact ⟨taken, hfragments, hnodup, hbound⟩
      · rw [hadd]
        refine ⟨taken ++ [i], by simp [hfragments], ?_, ?_⟩
        · refine List.concat_eq_append ▸ List.Nodup.concat (fun hmem => ?_) hnodup
          exact hnew (f i) (hfragments ▸ List.mem_map_of_mem hmem) rfl
        · intro j hj
          rcases List.mem_append.1 hj with hj | hj
          · exact hbound j hj
          · rwa [List.mem_singleton.1 hj]

/-- **Where all fragments were made** they are taken in the order of their first insertion. -/
theorem fragments_insertAll_of_all (f : ℕ → Fragment Origin) (hempty : message.fragments = [])
    (horder : ∀ i ∈ order, i < n) (hcapacity : n ≤ config.maxFragments)
    (htotal : ∀ i < n, (f i).total_fragments = n)
    (hseq : ∀ i < n, ∀ j < n, (f i).seq_fragment = (f j).seq_fragment → i = j) :
    (insertAll config ((List.range n).map f) message order).fragments =
      (firstOf order).map f := by
  induction order using List.reverseRecOn with
  | nil => exact hempty
  | append_singleton order i ih =>
      have hrest : ∀ j ∈ order, j < n := fun j hj => horder j (by simp [hj])
      have hfragments := ih hrest
      have hi : i < n := horder i (by simp)
      rw [insertAll_append message order (show ((List.range n).map f)[i]? = some (f i) by simp [hi]),
        firstOf_append]
      by_cases hmem : i ∈ firstOf order
      · rw [if_pos hmem, ← hfragments]
        exact insertUnique_of_mem (by rw [hfragments]; exact List.mem_map_of_mem hmem)
      · rw [if_neg hmem, List.map_append, ← hfragments]
        have hshort : (firstOf order).length < n := length_firstOf_lt hrest hi (by simpa using hmem)
        refine insertUnique_of_new ?_ ?_ ?_
        · rw [hfragments, List.length_map]
          omega
        · intro other hother
          rw [hfragments] at hother
          obtain ⟨j, hj, rfl⟩ := List.mem_map.1 hother
          rw [htotal j (hrest j (mem_firstOf.1 hj)), hfragments, List.length_map]
          exact hshort.ne
        · intro other hother hsame
          rw [hfragments] at hother
          obtain ⟨j, hj, rfl⟩ := List.mem_map.1 hother
          exact hmem (hseq i hi j (hrest j (mem_firstOf.1 hj)) hsame ▸ hj)

theorem length_deVectorize_le (hpos : 0 < mrLen) (id : UInt16) (origId : UInt8)
    (hempty : message.fragments = [])
    (horder : ∀ i ∈ order, i < made config payload.length mrLen) :
    (insertAll config (vectorize config origin id origId payload mrLen) message
      order).deVectorize.length ≤ made config payload.length mrLen * mrLen := by
  rw [vectorize_eq_map hpos]
  obtain ⟨taken, hfragments, hnodup, hbound⟩ := @fragments_insertAll _ config _ _ _
    (fun i => fragmentAt config origin id origId payload mrLen i mrLen) hempty horder
  have hcount : taken.length ≤ made config payload.length mrLen := by
    have hsubset : taken ⊆ List.range (made config payload.length mrLen) := fun i hi =>
      List.mem_range.2 (hbound i hi)
    calc taken.length ≤ (List.range (made config payload.length mrLen)).length :=
          (hnodup.subperm hsubset).length_le
      _ = made config payload.length mrLen := List.length_range
  rw [FragmentingMessage.deVectorize, hfragments, List.flatMap_map, List.length_flatMap]
  have hpieces : ∀ length ∈ taken.map fun i =>
      (fragmentAt config origin id origId payload mrLen i mrLen).payload.length,
      length ≤ mrLen := by
    intro length hlength
    obtain ⟨i, -, rfl⟩ := List.mem_map.1 hlength
    exact List.length_take_le _ _
  have hsum := List.sum_le_card_nsmul _ _ hpieces
  rw [List.length_map, smul_eq_mul] at hsum
  calc _ ≤ taken.length * mrLen := hsum
    _ ≤ made config payload.length mrLen * mrLen := Nat.mul_le_mul_right _ hcount

/-- The number of fragments made is that of the fragments needed, or too small. -/
theorem made_mul_lt (hpos : 0 < mrLen) {len : ℕ} (hlen : 0 < len)
    (hmissing : ¬ (len % mrLen ≠ 0 ∧ numberOfFragments len mrLen ≤ config.maxFragments)) :
    made config len mrLen * mrLen < len := by
  have hdiv : len / mrLen * mrLen + len % mrLen = len := Nat.div_add_mod' len mrLen
  unfold made piecesMade numberOfFragments
  unfold numberOfFragments at hmissing
  by_cases hrest : len % mrLen = 0
  · rw [if_neg (not_not.2 hrest), if_neg (not_not.2 hrest)]
    have hfull : 0 < len / mrLen := by
      refine Nat.pos_of_ne_zero fun hzero => ?_
      rw [hzero, hrest] at hdiv
      omega
    calc min config.maxFragments (len / mrLen - 1) * mrLen
        ≤ (len / mrLen - 1) * mrLen := Nat.mul_le_mul_right _ (min_le_right _ _)
      _ < len / mrLen * mrLen := Nat.mul_lt_mul_of_pos_right (by omega) hpos
      _ = len := by omega
  · rw [if_pos hrest] at hmissing ⊢
    have hcapacity : config.maxFragments ≤ len / mrLen := by
      by_contra hlarge
      exact hmissing ⟨hrest, by omega⟩
    rw [if_pos hrest]
    calc min config.maxFragments (len / mrLen + 1) * mrLen
        ≤ len / mrLen * mrLen :=
          Nat.mul_le_mul_right _ ((min_le_left _ _).trans hcapacity)
      _ < len := by omega

end Taken

/-! ## What is joined -/

section Joined

variable {config : Config} {origin : Origin} {message : FragmentingMessage Origin}
  {payload : List UInt8} {mrLen len : ℕ} {order : List ℕ}

theorem made_eq (hrest : len % mrLen ≠ 0)
    (hcapacity : numberOfFragments len mrLen ≤ config.maxFragments) :
    made config len mrLen = numberOfFragments len mrLen := by
  rw [made, piecesMade, if_pos hrest, min_eq_right hcapacity]

/-- **Where every number fits**, the pieces are joined in the order of their first insertion. -/
theorem deVectorize_of_all (hpos : 0 < mrLen)
    (hrest : payload.length % mrLen ≠ 0)
    (hcapacity : numberOfFragments payload.length mrLen ≤ config.maxFragments)
    (hfits : numberOfFragments payload.length mrLen < 256 ^ config.sizeBytes)
    (id : UInt16) (origId : UInt8) (hempty : message.fragments = [])
    (horder : ∀ i ∈ order, i < made config payload.length mrLen) :
    (insertAll config (vectorize config origin id origId payload mrLen) message
      order).deVectorize = (firstOf order).flatMap (piece payload mrLen) := by
  have hmade := made_eq hrest hcapacity
  rw [vectorize_eq_map hpos, FragmentingMessage.deVectorize, fragments_insertAll_of_all
    (fun i => fragmentAt config origin id origId payload mrLen i mrLen) hempty horder
    (min_le_left _ _), List.flatMap_map]
  · rfl
  · intro i _
    exact (Nat.mod_eq_of_lt hfits).trans hmade.symm
  · intro i hi j hj hsame
    have htruncate : ∀ k < made config payload.length mrLen, config.truncate k = k :=
      fun k hk => Nat.mod_eq_of_lt ((hk.trans_eq hmade).trans hfits)
    exact (htruncate i hi).symm.trans (hsame.trans (htruncate j hj))

/-- **When a payload comes back.** -/
theorem joinsBack_iff (hpos : 0 < mrLen)
    (horder : ∀ i, i ∈ order ↔ i < made config payload.length mrLen) :
    JoinsBack config origin message payload mrLen order ↔
      payload = [] ∨
        payload.length % mrLen ≠ 0 ∧
        numberOfFragments payload.length mrLen ≤ config.maxFragments ∧
        numberOfFragments payload.length mrLen < 256 ^ config.sizeBytes ∧
        (firstOf order).flatMap (piece payload mrLen) = payload := by
  have hlength : (vectorize config origin message.id message.orig_id payload mrLen).length =
      made config payload.length mrLen := by
    rw [vectorize_eq_map hpos, List.length_map, List.length_range]
  have hbound := fun i => (horder i).1
  unfold JoinsBack
  dsimp only
  rcases Nat.eq_zero_or_pos payload.length with hzero | hlen
  · obtain rfl := List.length_eq_zero_iff.1 hzero
    have hmade : made config ([] : List UInt8).length mrLen = 0 := by
      simp [made, piecesMade, numberOfFragments]
    have hnothing : order = [] :=
      List.eq_nil_iff_forall_not_mem.2 fun i hi => by
        have := hbound i hi
        omega
    have hcut : vectorize config origin message.id message.orig_id [] mrLen = [] :=
      List.length_eq_zero_iff.1 (hlength.trans hmade)
    simp [hcut, hnothing, insertAll, FragmentingMessage.deVectorize]
  · have hne : payload ≠ [] := List.ne_nil_of_length_pos hlen
    rw [or_iff_right hne]
    by_cases hall : payload.length % mrLen ≠ 0 ∧
        numberOfFragments payload.length mrLen ≤ config.maxFragments
    · obtain ⟨hrest, hcapacity⟩ := hall
      have hmade := made_eq hrest hcapacity
      by_cases hfits : numberOfFragments payload.length mrLen < 256 ^ config.sizeBytes
      · have hannounced : ∀ fragment ∈
            vectorize config origin message.id message.orig_id payload mrLen,
            fragment.total_fragments =
              (vectorize config origin message.id message.orig_id payload mrLen).length := by
          intro fragment hfragment
          obtain ⟨i, -, rfl⟩ := mem_vectorize hpos hfragment
          rw [hlength, hmade]
          exact Nat.mod_eq_of_lt hfits
        rw [@deVectorize_of_all _ _ _ { message with fragments := [] } _ _ _ hpos hrest hcapacity
          hfits _ _ rfl hbound]
        simp only [hrest, hcapacity, hfits, ne_eq, not_false_eq_true, true_and]
        exact ⟨And.left, fun hjoined => ⟨hjoined, hannounced⟩⟩
      · -- the first fragment announces fewer than there are
        refine iff_of_false (fun hjoins => ?_) fun hconditions => hfits hconditions.2.2.1
        have hfirst : fragmentAt config origin message.id message.orig_id payload mrLen 0 mrLen ∈
            vectorize config origin message.id message.orig_id payload mrLen := by
          rw [vectorize_eq_map hpos]
          refine List.mem_map.2 ⟨0, List.mem_range.2 ?_, rfl⟩
          rw [hmade, numberOfFragments, if_pos hrest]
          exact Nat.succ_pos _
        have hannounced := hjoins.2 _ hfirst
        rw [hlength, hmade] at hannounced
        have hlt : numberOfFragments payload.length mrLen % 256 ^ config.sizeBytes <
            256 ^ config.sizeBytes := Nat.mod_lt _ (Nat.pos_of_ne_zero (by positivity))
        exact absurd hannounced (hlt.trans_le (not_lt.1 hfits)).ne
    · refine iff_of_false (fun hjoins => ?_) fun hconditions => hall ⟨hconditions.1, hconditions.2.1⟩
      have hshort := @length_deVectorize_le _ _ origin { message with fragments := [] } _ _ _ hpos
        message.id message.orig_id rfl hbound
      rw [hjoins.1] at hshort
      exact absurd (made_mul_lt hpos hlen hall) (not_lt.2 hshort)

/-! ## Orders in which every payload comes back -/

theorem flatMap_piece_range (payload : List UInt8) (mrLen count : ℕ) :
    (List.range count).flatMap (piece payload mrLen) = payload.take (count * mrLen) :=
  flatMap_pieces payload mrLen count

/-- **An order in which every payload of a length comes back** is the increasing one: a payload
tells two of its pieces apart by their first bytes. -/
theorem take_eq_range (hpos : 0 < mrLen) {is : List ℕ} {count : ℕ}
    (hperm : is.Perm (List.range count)) (hlast : ∀ i < count, i * mrLen < len)
    (hall : ∀ payload : List UInt8, payload.length = len →
      is.flatMap (piece payload mrLen) = payload) {k : ℕ} (hk : k ≤ count) :
    is.take k = List.range k := by
  induction k with
  | zero => rw [List.take_zero, List.range_zero]
  | succ k ih =>
      have htaken := ih (by omega)
      have hkis : k < is.length := by
        rw [hperm.length_eq, List.length_range]
        omega
      have hbound : is[k] < count := List.mem_range.1 (hperm.mem_iff.1 (List.getElem_mem hkis))
      have hparts : is = List.range k ++ is[k] :: is.drop (k + 1) := by
        rw [← htaken, ← List.drop_eq_getElem_cons hkis, List.take_append_drop]
      -- the piece that is joined behind the first ones begins with the byte behind them
      have hbytes : ∀ payload : List UInt8, payload.length = len →
          payload[is[k] * mrLen]? = payload[k * mrLen]? := by
        intro payload hlen
        have hlt := hlast k (by omega)
        have hlt' := hlast _ hbound
        have hprefix : (payload.take (k * mrLen)).length = k * mrLen := by
          rw [List.length_take, hlen]
          omega
        have hpiece : (piece payload mrLen is[k])[0]? = payload[is[k] * mrLen]? := by
          rw [piece, List.getElem?_take_of_lt hpos, List.getElem?_drop, Nat.add_zero]
        have hjoined : payload.take (k * mrLen) ++ (piece payload mrLen is[k] ++
            (is.drop (k + 1)).flatMap (piece payload mrLen)) = payload := by
          rw [← flatMap_piece_range, ← List.flatMap_cons, ← List.flatMap_append, ← hparts]
          exact hall payload hlen
        have hsome : 0 < (piece payload mrLen is[k]).length := by
          rw [piece, List.length_take, List.length_drop, hlen]
          omega
        calc payload[is[k] * mrLen]? = (piece payload mrLen is[k])[0]? := hpiece.symm
          _ = (piece payload mrLen is[k] ++
                (is.drop (k + 1)).flatMap (piece payload mrLen))[0]? :=
              (List.getElem?_append_left hsome).symm
          _ = (payload.take (k * mrLen) ++ (piece payload mrLen is[k] ++
                (is.drop (k + 1)).flatMap (piece payload mrLen)))[k * mrLen]? := by
              rw [List.getElem?_append_right hprefix.le, hprefix, Nat.sub_self]
          _ = payload[k * mrLen]? := by rw [hjoined]
      have hmark := hbytes ((List.range len).map fun j => if j = k * mrLen then 1 else 0) (by simp)
      have hsame : is[k] * mrLen = k * mrLen := by
        have hlt := hlast k (by omega)
        have hlt' := hlast _ hbound
        by_contra hne
        simp [hlt, hlt', hne] at hmark
      have hk' : is[k] = k := Nat.eq_of_mul_eq_mul_right hpos hsame
      rw [List.take_add_one, htaken, List.getElem?_eq_getElem hkis, hk', List.range_succ]
      rfl

end Joined

/-- **When cutting and joining is right**: for one payload, and for all payloads of a length. -/
theorem split_join_right_iff (config : Config) (origin : Origin)
    (message : FragmentingMessage Origin) {mrLen : ℕ} (hpos : 0 < mrLen) (len : ℕ)
    (order : List ℕ) (horder : ∀ i, i ∈ order ↔ i < made config len mrLen) :
    (∀ payload : List UInt8, payload.length = len →
      (JoinsBack config origin message payload mrLen order ↔
        payload = [] ∨
          len % mrLen ≠ 0 ∧ numberOfFragments len mrLen ≤ config.maxFragments ∧
          numberOfFragments len mrLen < 256 ^ config.sizeBytes ∧
          (firstOf order).flatMap (piece payload mrLen) = payload)) ∧
    ((∀ payload : List UInt8, payload.length = len →
        JoinsBack config origin message payload mrLen order) ↔
      len = 0 ∨
        len % mrLen ≠ 0 ∧ numberOfFragments len mrLen ≤ config.maxFragments ∧
        numberOfFragments len mrLen < 256 ^ config.sizeBytes ∧
        (firstOf order).Pairwise (· < ·)) := by
  have hone : ∀ payload : List UInt8, payload.length = len →
      (JoinsBack config origin message payload mrLen order ↔
        payload = [] ∨
          len % mrLen ≠ 0 ∧ numberOfFragments len mrLen ≤ config.maxFragments ∧
          numberOfFragments len mrLen < 256 ^ config.sizeBytes ∧
          (firstOf order).flatMap (piece payload mrLen) = payload) := by
    rintro payload rfl
    exact joinsBack_iff hpos horder
  refine ⟨hone, ?_⟩
  rcases Nat.eq_zero_or_pos len with hzero | hlen
  · refine iff_of_true (fun payload hpayload => (hone payload hpayload).2 (.inl ?_)) (.inl hzero)
    exact List.length_eq_zero_iff.1 (hpayload.trans hzero)
  · rw [or_iff_right hlen.ne']
    have hne : ∀ payload : List UInt8, payload.length = len → payload ≠ [] := by
      rintro payload hpayload rfl
      exact hlen.ne hpayload
    have hdiv : len / mrLen * mrLen + len % mrLen = len := Nat.div_add_mod' len mrLen
    have hnumber : len % mrLen ≠ 0 → numberOfFragments len mrLen = len / mrLen + 1 := fun hrest =>
      if_pos hrest
    constructor
    · intro hall
      have hjoined := fun payload hpayload =>
        ((hone payload hpayload).1 (hall payload hpayload)).resolve_left (hne payload hpayload)
      obtain ⟨hrest, hcapacity, hfits, -⟩ :=
        hjoined (List.replicate len 0) List.length_replicate
      have hperm := perm_range horder
      rw [made_eq hrest hcapacity] at hperm
      have hlast : ∀ i < numberOfFragments len mrLen, i * mrLen < len := by
        intro i hi
        have hle : i * mrLen ≤ len / mrLen * mrLen :=
          Nat.mul_le_mul_right _ (by rw [hnumber hrest] at hi; omega)
        omega
      have hrange := take_eq_range hpos hperm hlast
        (fun payload hpayload => (hjoined payload hpayload).2.2.2) le_rfl
      rw [List.take_of_length_le (by rw [hperm.length_eq, List.length_range])] at hrange
      exact ⟨hrest, hcapacity, hfits, hrange ▸ List.pairwise_lt_range⟩
    · rintro ⟨hrest, hcapacity, hfits, hincreasing⟩ payload hpayload
      have hperm := perm_range horder
      rw [made_eq hrest hcapacity] at hperm
      have hrange : firstOf order = List.range (numberOfFragments len mrLen) :=
        hperm.eq_of_pairwise (fun _ _ _ _ hlt hgt => absurd hlt hgt.asymm) hincreasing
          List.pairwise_lt_range
      refine (hone payload hpayload).2 (.inr ⟨hrest, hcapacity, hfits, ?_⟩)
      rw [hrange, flatMap_piece_range, List.take_of_length_le]
      rw [hpayload, hnumber hrest, Nat.succ_mul]
      have hlt := Nat.mod_lt len hpos
      omega

/-- Fragments of two bytes, eight of them at most. -/
def tinyConfig : Config where
  maxMessageLength := 8
  radioReserved := 1
  sizeBytes := 1
  maxFragments := 8
  maxBuffered := 2
  maxRegistered := 2
  timeout := 10
  sizeBytes_pos := Nat.one_pos
  maxFragments_pos := by decide

/-- A message without fragments. -/
def noFragments : FragmentingMessage Unit := ⟨7, 1, 0, false, []⟩

/-- Three bytes in two fragments, the first of which comes twice. -/
theorem split_join_right_iff_three :
    JoinsBack tinyConfig () noFragments [1, 2, 3] 2 [0, 1, 0] := by
  have horder : ∀ i, i ∈ [0, 1, 0] ↔ i < made tinyConfig 3 2 := by
    intro i
    rw [show made tinyConfig 3 2 = 2 by decide]
    simp
    omega
  have hright := split_join_right_iff tinyConfig () noFragments two_pos 3 [0, 1, 0] horder
  exact hright.2.2 (.inr ⟨by decide, by decide, by decide, by decide⟩) [1, 2, 3] rfl

/-- Two bytes in one fragment are lost, and three bytes are joined in the order in which their
fragments came. -/
theorem split_join_wrong :
    vectorize tinyConfig () 7 1 [1, 2] 2 = [] ∧
      ¬ JoinsBack tinyConfig () noFragments [1, 2] 2 [] ∧
      ¬ JoinsBack tinyConfig () noFragments [1, 2, 3] 2 [1, 0] := by
  unfold JoinsBack
  decide

end Wiselib.Radio.Fragmenting
