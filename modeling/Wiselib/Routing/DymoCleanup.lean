import Wiselib.Routing.RoutingTable

/-!
# Ageing the tables of DYMO

The timer of `DYMORouting` calls `table_cleanup`, `neighbors_cleanup` and
`pend_dest_cleanup`.  Each walks over a map that is a vector, counts the
remaining time of an entry down and erases an entry whose time has run out.
`neighbors_` and `pend_dests_` are `MapStaticVector`s, whose `erase` takes a key:
the position the code hands it is taken for one.  The routing table is a
`StaticArrayRoutingTable`, whose `erase` takes an iterator.

A function has no result once it follows an iterator that points behind the
last entry.

## Strategy

* The loops of `table_cleanup` and `neighbors_cleanup` differ in what they erase
  only: `ageFrom` is either.  After the first entry that has run out they stop or
  move past the end, so `ageFrom_expired` leaves nothing to be right
  (`age_right_iff`).
* `pend_dest_cleanup` goes on.  `length_le_of_pendDestFrom` bounds what a run
  erases by the entries without time it comes upon, and `mem_behind` says that
  entries behind the iterator keep their time; every way of erasing the first
  entry without time contradicts one of the two (`pendDest_expired`).
-/

namespace Wiselib.Routing.Dymo

open RoutingTable

/-! ## The tables -/

/-- `retry_info`. -/
structure RetryInfo where
  retries : UInt8
  time : UInt8
deriving DecidableEq

/-- `DYMORoutingTableValue`. -/
structure RoutingTableValue (NodeId : Type*) where
  path : List NodeId
  destination : UInt8
  hopCnt : UInt8
  seqNr : UInt16
  nextHop : UInt8
  destSeq : UInt16
  lifetime : UInt16

/-- `MapStaticVector::erase`: every entry with the key goes. -/
def eraseKey {Key Value : Type*} [DecidableEq Key] (key : Key) (table : RoutingTable Key Value) :
    RoutingTable Key Value :=
  table.filter fun entry => entry.1 ≠ key

section Ageing

variable {α : Type*}

/-- The loop that `neighbors_cleanup` and `table_cleanup` share, with the iterator
at `i`: an entry that has run out is erased, and another one counted down. -/
def ageFrom (expired : α → Prop) [DecidablePred expired] (tick : α → α)
    (erase : ℕ → List α → List α) (i : ℕ) (table : List α) : Option (List α) :=
  if hi : i < table.length then
    if expired table[i] then
      let left := erase i table
      -- The loop is left unless the iterator is at the end, which it then passes.
      if i ≠ left.length then some left else none
    else ageFrom expired tick erase (i + 1) (table.set i (tick table[i]))
  else if i = table.length then some table
  else none
termination_by table.length - i
decreasing_by
  rw [List.length_set]
  omega

/-- What ageing is for: what has run out goes, and the others are counted down. -/
def aged (expired : α → Prop) [DecidablePred expired] (tick : α → α) (table : List α) : List α :=
  (table.filter fun entry => ¬ expired entry).map tick

end Ageing

/-- `n_it->second -= 1`. -/
def tickNeighbor (entry : UInt16 × UInt8) : UInt16 × UInt8 := (entry.1, entry.2 - 1)

/-- `neighbors_cleanup`. -/
def neighborsCleanup (neighbors : RoutingTable UInt16 UInt8) :
    Option (RoutingTable UInt16 UInt8) :=
  ageFrom (fun entry => entry.2 = 0) tickNeighbor (fun i => eraseKey (UInt16.ofNat i)) 0 neighbors

/-- `it->second.lifetime -= 1`. -/
def tickRoute {NodeId : Type*} (entry : NodeId × RoutingTableValue NodeId) :
    NodeId × RoutingTableValue NodeId :=
  (entry.1, { entry.2 with lifetime := entry.2.lifetime - 1 })

/-- `table_cleanup`. -/
def tableCleanup {NodeId : Type*} (table : RoutingTable NodeId (RoutingTableValue NodeId)) :
    Option (RoutingTable NodeId (RoutingTableValue NodeId)) :=
  ageFrom (fun entry => entry.2.lifetime = 0) tickRoute (fun i table => table.eraseIdx i) 0 table

/-- `p_it->second.time -= 1`. -/
def tickPending (entry : UInt16 × RetryInfo) : UInt16 × RetryInfo :=
  (entry.1, { entry.2 with time := entry.2.time - 1 })

theorem length_eraseKey_le {Key Value : Type*} [DecidableEq Key] (key : Key)
    (table : RoutingTable Key Value) : (eraseKey key table).length ≤ table.length :=
  List.length_filter_le _ _

/-- The loop of `pend_dest_cleanup` with the iterator at `i`, and the pending
messages, whose keys have eight bits.  The branch that would send a request
again is behind one that takes all entries without time. -/
def pendDestFrom {Message : Type*} (i : ℕ) (pendDests : RoutingTable UInt16 RetryInfo)
    (pendingMsgs : RoutingTable UInt8 Message) :
    Option (RoutingTable UInt16 RetryInfo × RoutingTable UInt8 Message) :=
  if hi : i < pendDests.length then
    if pendDests[i].2.time > 0 then
      pendDestFrom (i + 1) (pendDests.set i (tickPending pendDests[i])) pendingMsgs
    else
      let left := eraseKey (UInt16.ofNat i) pendDests
      match left[i]? with
      -- There is no entry at the iterator to take a key from.
      | none => none
      | some entry => pendDestFrom (i + 1) left (eraseKey entry.1.toUInt8 pendingMsgs)
  else if i = pendDests.length then some (pendDests, pendingMsgs)
  else none
termination_by pendDests.length - i
decreasing_by
  · rw [List.length_set]
    omega
  · have hle := length_eraseKey_le (UInt16.ofNat i) pendDests
    omega

/-- `pend_dest_cleanup`. -/
def pendDestCleanup {Message : Type*} (pendDests : RoutingTable UInt16 RetryInfo)
    (pendingMsgs : RoutingTable UInt8 Message) :
    Option (RoutingTable UInt16 RetryInfo × RoutingTable UInt8 Message) :=
  pendDestFrom 0 pendDests pendingMsgs

/-! ## The loop of the neighbor table and the routing table -/

section Ageing

variable {α κ : Type*} {expired : α → Prop} [DecidablePred expired] {tick : α → α}
  {erase : ℕ → List α → List α} {key : α → κ}

theorem ageFrom_alive (done first rest : List α) (halive : ∀ entry ∈ first, ¬ expired entry) :
    ageFrom expired tick erase done.length (done ++ (first ++ rest)) =
      ageFrom expired tick erase (done ++ first.map tick).length
        (done ++ first.map tick ++ rest) := by
  induction first generalizing done with
  | nil => simp
  | cons entry first ih =>
    have hnext := ih (done ++ [tick entry]) fun other hmem =>
      halive other (List.mem_cons_of_mem _ hmem)
    have hlt : done.length < (done ++ (entry :: first ++ rest)).length := by simp
    have hget : (done ++ (entry :: first ++ rest))[done.length] = entry := by simp
    have hset : (done ++ (entry :: first ++ rest)).set done.length (tick entry) =
        done ++ [tick entry] ++ (first ++ rest) := by simp
    rw [ageFrom, dif_pos hlt, hget, if_neg (halive entry List.mem_cons_self), hset]
    simpa using hnext

theorem aged_of_alive {table : List α} (halive : ∀ entry ∈ table, ¬ expired entry) :
    aged expired tick table = table.map tick := by
  rw [aged, List.filter_eq_self.2 (by simpa using halive)]

/-- A table in which something has run out, up to the first such entry and behind it. -/
theorem exists_first_expired {table : List α} (hsome : ¬ ∀ entry ∈ table, ¬ expired entry) :
    ∃ first entry rest, table = first ++ entry :: rest ∧ (∀ other ∈ first, ¬ expired other) ∧
      expired entry ∧
        aged expired tick table = first.map tick ++ aged expired tick rest := by
  obtain ⟨entry, hfound⟩ : ∃ entry, table.find? (fun entry => decide (expired entry)) =
      some entry := by
    rw [← Option.isSome_iff_exists, List.find?_isSome]
    simpa using hsome
  obtain ⟨hexpired, first, rest, rfl, hfirst⟩ := List.find?_eq_some_iff_append.1 hfound
  have halive : ∀ other ∈ first, ¬ expired other := by simpa using hfirst
  have hdead : expired entry := of_decide_eq_true hexpired
  refine ⟨first, entry, rest, rfl, halive, hdead, ?_⟩
  rw [aged, List.filter_append, List.map_append, List.filter_cons_of_neg (by simpa using hdead),
    ← aged, aged_of_alive halive, aged]

/-- At the first entry that has run out, the loop ends: what it leaves is what
`erase` leaves, or nothing. -/
theorem ageFrom_expired (done rest : List α) {entry : α} (hexpired : expired entry) :
    ageFrom expired tick erase done.length (done ++ entry :: rest) =
      if done.length ≠ (erase done.length (done ++ entry :: rest)).length then
        some (erase done.length (done ++ entry :: rest))
      else none := by
  have hlt : done.length < (done ++ entry :: rest).length := by simp
  have hget : (done ++ entry :: rest)[done.length] = entry := by simp
  rw [ageFrom, dif_pos hlt, hget, if_pos hexpired]

theorem age_right_iff (herase : ∀ i table, erase i table ⊆ table)
    (hkey : ∀ entry, key (tick entry) = key entry)
    (htick : ∀ entry, ¬ expired entry → tick entry ≠ entry) {table : List α}
    (hkeys : (table.map key).Nodup) :
    ageFrom expired tick erase 0 table = some (aged expired tick table) ↔
      ∀ entry ∈ table, ¬ expired entry := by
  constructor
  · intro hright
    by_contra hsome
    obtain ⟨first, entry, rest, rfl, halive, hdead, hgoal⟩ :=
      @exists_first_expired α expired _ tick table hsome
    have hreach := @ageFrom_alive α expired _ tick erase [] first (entry :: rest) halive
    simp only [List.nil_append, List.length_nil] at hreach
    rw [hreach, ageFrom_expired _ rest hdead, hgoal, aged] at hright
    split at hright
    · next hmoved =>
      have hleft := Option.some.inj hright
      rcases hrest : rest.filter fun other => ¬ expired other with _ | ⟨other, others⟩
      · -- Nothing but the entries in front is left, so the iterator is at the end.
        rw [hleft, hrest] at hmoved
        simp at hmoved
      · -- Another entry behind is left, but was not counted down.
        have hother : other ∈ rest.filter fun other => ¬ expired other := by
          rw [hrest]
          exact List.mem_cons_self
        obtain ⟨hmem, hlive⟩ := List.mem_filter.1 hother
        have hticked : tick other ∈ first.map tick ++ entry :: rest := by
          apply herase _ _
          rw [hleft]
          exact List.mem_append_right _ (List.mem_map_of_mem hother)
        have hstate : ((first.map tick ++ entry :: rest).map key).Nodup := by
          simpa [hkey, Function.comp_def] using hkeys
        have hsame := List.inj_on_of_nodup_map hstate hticked
          (List.mem_append_right _ (List.mem_cons_of_mem _ hmem)) (hkey other)
        exact htick other (by simpa using hlive) hsame
    · cases hright
  · intro halive
    have hreach := @ageFrom_alive α expired _ tick erase [] table [] halive
    simp only [List.nil_append, List.append_nil, List.length_nil] at hreach
    rw [hreach, ageFrom, dif_neg (by simp), if_pos rfl, aged_of_alive halive]

end Ageing

theorem eraseKey_subset {Key Value : Type*} [DecidableEq Key] (key : Key)
    (table : RoutingTable Key Value) : eraseKey key table ⊆ table :=
  List.filter_sublist.subset

theorem tickNeighbor_ne (entry : UInt16 × UInt8) : tickNeighbor entry ≠ entry := by
  intro heq
  have hsame : entry.2 - 1 = entry.2 := congrArg Prod.snd heq
  simp at hsame

theorem tickPending_ne (entry : UInt16 × RetryInfo) : tickPending entry ≠ entry := by
  intro heq
  have hsame : entry.2.time - 1 = entry.2.time := congrArg (fun pending => pending.2.time) heq
  simp at hsame

theorem tickRoute_ne {NodeId : Type*} (entry : NodeId × RoutingTableValue NodeId) :
    tickRoute entry ≠ entry := by
  intro heq
  have hsame : entry.2.lifetime - 1 = entry.2.lifetime :=
    congrArg (fun route => route.2.lifetime) heq
  simp at hsame

theorem neighborsCleanup_iff {neighbors : RoutingTable UInt16 UInt8}
    (hkeys : (neighbors.map Prod.fst).Nodup) :
    neighborsCleanup neighbors = some (aged (fun entry => entry.2 = 0) tickNeighbor neighbors) ↔
      ∀ entry ∈ neighbors, entry.2 ≠ 0 :=
  @age_right_iff (UInt16 × UInt8) UInt16 (fun entry => entry.2 = 0) _ tickNeighbor
    (fun i => eraseKey (UInt16.ofNat i)) Prod.fst (fun _ _ => eraseKey_subset _ _) (fun _ => rfl)
    (fun entry _ => tickNeighbor_ne entry) _ hkeys

theorem tableCleanup_iff {NodeId : Type*} {table : RoutingTable NodeId (RoutingTableValue NodeId)}
    (hkeys : (table.map Prod.fst).Nodup) :
    tableCleanup table = some (aged (fun entry => entry.2.lifetime = 0) tickRoute table) ↔
      ∀ entry ∈ table, entry.2.lifetime ≠ 0 :=
  @age_right_iff (NodeId × RoutingTableValue NodeId) NodeId (fun entry => entry.2.lifetime = 0) _
    tickRoute (fun i table => table.eraseIdx i) Prod.fst (fun _ _ => List.eraseIdx_subset) (fun _ => rfl) (fun entry _ => tickRoute_ne entry) _ hkeys

/-! ## The loop of the pending destinations -/

section Pending

variable {Message : Type*} {i : ℕ} {pendDests final : RoutingTable UInt16 RetryInfo}
  {pendingMsgs rest : RoutingTable UInt8 Message}

/-- The entry has no time left. -/
abbrev Expired (entry : UInt16 × RetryInfo) : Prop := entry.2.time = 0

theorem not_pos_iff (time : UInt8) : ¬ time > 0 ↔ time = 0 := by
  rw [← UInt8.toNat_inj, gt_iff_lt, UInt8.lt_iff_toNat_lt]
  simp

theorem pendDestFrom_alive (hi : i < pendDests.length) (halive : ¬ Expired pendDests[i]) :
    pendDestFrom i pendDests pendingMsgs =
      pendDestFrom (i + 1) (pendDests.set i (tickPending pendDests[i])) pendingMsgs := by
  rw [pendDestFrom, dif_pos hi, if_pos]
  by_contra hnot
  exact halive ((not_pos_iff _).1 hnot)

theorem pendDestFrom_expired (hi : i < pendDests.length) (hexpired : Expired pendDests[i]) :
    pendDestFrom i pendDests pendingMsgs =
      match (eraseKey (UInt16.ofNat i) pendDests)[i]? with
      | none => none
      | some entry =>
          pendDestFrom (i + 1) (eraseKey (UInt16.ofNat i) pendDests)
            (eraseKey entry.1.toUInt8 pendingMsgs) := by
  rw [pendDestFrom, dif_pos hi, if_neg]
  exact (not_pos_iff _).2 hexpired

/-- What holds of a table with the iterator behind its last entry, and is true of
a table if it is true of the one a step makes of it, is true of the start of
every run that ends. -/
theorem pendDestFrom_ind {motive : ℕ → RoutingTable UInt16 RetryInfo → Prop}
    (hend : motive final.length final)
    (halive : ∀ (i : ℕ) (table : RoutingTable UInt16 RetryInfo) (hi : i < table.length),
      ¬ Expired table[i] → motive (i + 1) (table.set i (tickPending table[i])) → motive i table)
    (hexpired : ∀ (i : ℕ) (table : RoutingTable UInt16 RetryInfo) (hi : i < table.length),
      Expired table[i] → i < (eraseKey (UInt16.ofNat i) table).length →
        motive (i + 1) (eraseKey (UInt16.ofNat i) table) → motive i table)
    (hrun : pendDestFrom i pendDests pendingMsgs = some (final, rest)) : motive i pendDests := by
  obtain ⟨room, hroom⟩ : ∃ room, room = pendDests.length - i := ⟨_, rfl⟩
  induction room using Nat.strong_induction_on generalizing i pendDests pendingMsgs with
  | h room ih =>
    by_cases hi : i < pendDests.length
    · by_cases hdead : Expired pendDests[i]
      · rw [pendDestFrom_expired hi hdead] at hrun
        cases hget : (eraseKey (UInt16.ofNat i) pendDests)[i]? with
        | none => simp [hget] at hrun
        | some entry =>
          simp only [hget] at hrun
          obtain ⟨hleft, -⟩ := List.getElem?_eq_some_iff.1 hget
          have hle := length_eraseKey_le (UInt16.ofNat i) pendDests
          exact hexpired i pendDests hi hdead hleft (ih _ (by omega) hrun rfl)
      · rw [pendDestFrom_alive hi hdead] at hrun
        have hlength : (pendDests.set i (tickPending pendDests[i])).length = pendDests.length :=
          List.length_set
        exact halive i pendDests hi hdead (ih _ (by omega) hrun rfl)
    · rw [pendDestFrom, dif_neg hi] at hrun
      split at hrun
      · next heq =>
        obtain ⟨rfl, -⟩ := Prod.mk.inj (Option.some.inj hrun)
        rw [heq]
        exact hend
      · cases hrun

theorem keys_set (hi : i < pendDests.length) :
    (pendDests.set i (tickPending pendDests[i])).map Prod.fst = pendDests.map Prod.fst := by
  have hlt : i < (pendDests.map Prod.fst).length := by simpa using hi
  have hsame : (tickPending pendDests[i]).1 = (pendDests.map Prod.fst)[i] := by
    simp [tickPending]
  rw [List.map_set, hsame, List.set_getElem_self]

theorem keys_eraseKey (key : UInt16) (table : RoutingTable UInt16 RetryInfo) :
    (eraseKey key table).map Prod.fst ⊆ table.map Prod.fst :=
  List.map_subset _ (eraseKey_subset key table)

theorem nodup_eraseKey {key : UInt16} {table : RoutingTable UInt16 RetryInfo}
    (hkeys : (table.map Prod.fst).Nodup) : ((eraseKey key table).map Prod.fst).Nodup :=
  hkeys.sublist (List.filter_sublist.map _)

theorem length_le_eraseKey {key : UInt16} {table : RoutingTable UInt16 RetryInfo}
    (hkeys : (table.map Prod.fst).Nodup) : table.length ≤ (eraseKey key table).length + 1 := by
  have hcount : table.countP (fun entry => ¬ entry.1 ≠ key) ≤ 1 :=
    calc table.countP (fun entry => ¬ entry.1 ≠ key)
        = (table.map Prod.fst).count key := by
          rw [List.count_eq_countP, List.countP_map]
          congr 1
          funext entry
          simp [beq_eq_decide]
      _ ≤ 1 := List.nodup_iff_count_le_one.1 hkeys key
  have hsplit := List.length_eq_countP_add_countP (fun entry : UInt16 × RetryInfo =>
    decide (entry.1 ≠ key)) (l := table)
  rw [eraseKey, ← List.countP_eq_length_filter]
  simp only [decide_eq_true_eq] at hsplit
  omega

/-- What a run keeps of the entries it has been at. -/
structure Kept (i : ℕ) (table final : RoutingTable UInt16 RetryInfo) : Prop where
  keys : final.map Prod.fst ⊆ table.map Prod.fst
  behind : (table.map Prod.fst).Nodup → ∀ entry ∈ table.take i, ∀ left ∈ final,
    left.1 = entry.1 → left = entry

theorem mem_behind (hrun : pendDestFrom i pendDests pendingMsgs = some (final, rest)) :
    Kept i pendDests final := by
  refine @pendDestFrom_ind Message i pendDests final pendingMsgs rest
    (fun i table => Kept i table final) ?_ ?_ ?_ hrun
  · constructor
    · exact List.Subset.refl _
    · intro hkeys entry hentry left hleft hsame
      exact List.inj_on_of_nodup_map hkeys hleft (List.mem_of_mem_take hentry) hsame
  · intro i table hi halive hnext
    constructor
    · rw [← keys_set hi]
      exact hnext.keys
    · intro hkeys entry hentry
      refine hnext.behind (by rwa [keys_set hi]) entry ?_
      obtain ⟨j, hj, hget⟩ := List.getElem_of_mem hentry
      rw [List.length_take] at hj
      rw [List.getElem_take] at hget
      rw [List.mem_iff_getElem]
      refine ⟨j, by simp only [List.length_take, List.length_set]; omega, ?_⟩
      rw [List.getElem_take, List.getElem_set_ne (by omega), hget]
  · intro i table hi hexpired hlen hnext
    constructor
    · exact List.Subset.trans hnext.keys (keys_eraseKey _ _)
    · intro hkeys entry hentry left hleft hsame
      have hmem := hnext.keys (List.mem_map_of_mem hleft)
      obtain ⟨other, hother, hkey⟩ := List.mem_map.1 hmem
      have hstays : other.1 ≠ UInt16.ofNat i := by simpa using (List.mem_filter.1 hother).2
      refine hnext.behind (nodup_eraseKey hkeys) entry ?_ left hleft hsame
      have hfiltered : entry ∈ eraseKey (UInt16.ofNat i) (table.take i) := by
        rw [eraseKey, List.mem_filter]
        exact ⟨hentry, by simpa [← hsame, ← hkey] using hstays⟩
      have hsplit : eraseKey (UInt16.ofNat i) table =
          eraseKey (UInt16.ofNat i) (table.take i) ++ eraseKey (UInt16.ofNat i) (table.drop i) := by
        rw [eraseKey, eraseKey, eraseKey, ← List.filter_append, List.take_append_drop]
      have hshort : (eraseKey (UInt16.ofNat i) (table.take i)).length ≤ i + 1 := by
        have hle := length_eraseKey_le (UInt16.ofNat i) (table.take i)
        rw [List.length_take] at hle
        omega
      rw [hsplit, List.take_append, List.take_of_length_le hshort]
      exact List.mem_append_left _ hfiltered

theorem length_le_of_pendDestFrom
    (hrun : pendDestFrom i pendDests pendingMsgs = some (final, rest)) :
    (pendDests.map Prod.fst).Nodup →
      pendDests.length ≤ final.length + (pendDests.drop i).countP fun entry => Expired entry := by
  refine @pendDestFrom_ind Message i pendDests final pendingMsgs rest
    (fun i table => (table.map Prod.fst).Nodup →
      table.length ≤ final.length + (table.drop i).countP fun entry => Expired entry) ?_ ?_ ?_ hrun
  · intro _
    exact Nat.le_add_right _ _
  · intro i table hi halive hnext hkeys
    have hbound := hnext (by rwa [keys_set hi])
    rw [List.length_set, List.drop_set_of_lt (Nat.lt_succ_self i)] at hbound
    rw [List.drop_eq_getElem_cons hi, List.countP_cons_of_neg (by simpa using halive)]
    exact hbound
  · intro i table hi hexpired hlen hnext hkeys
    have hbound := hnext (nodup_eraseKey hkeys)
    have hone := @length_le_eraseKey (UInt16.ofNat i) table hkeys
    have hless : ((eraseKey (UInt16.ofNat i) table).drop (i + 1)).countP
        (fun entry => Expired entry) ≤ (table.drop (i + 1)).countP fun entry => Expired entry :=
      (List.filter_sublist.drop (i + 1)).countP_le
    rw [List.drop_eq_getElem_cons hi, List.countP_cons_of_pos (by simpa using hexpired)]
    omega

/-- Entries with time left are counted down one after the other. -/
theorem pendDestFrom_reach (done first behind : RoutingTable UInt16 RetryInfo)
    (halive : ∀ entry ∈ first, ¬ Expired entry) :
    pendDestFrom done.length (done ++ (first ++ behind)) pendingMsgs =
      pendDestFrom (done ++ first.map tickPending).length
        (done ++ first.map tickPending ++ behind) pendingMsgs := by
  induction first generalizing done with
  | nil => simp
  | cons entry first ih =>
    have hnext := ih (done ++ [tickPending entry]) fun other hmem =>
      halive other (List.mem_cons_of_mem _ hmem)
    have hi : done.length < (done ++ (entry :: first ++ behind)).length := by simp
    have hget : (done ++ (entry :: first ++ behind))[done.length] = entry := by simp
    have hset : (done ++ (entry :: first ++ behind)).set done.length (tickPending entry) =
        done ++ [tickPending entry] ++ (first ++ behind) := by simp
    rw [pendDestFrom_alive hi (by rw [hget]; exact halive entry List.mem_cons_self), hget, hset]
    simpa using hnext

theorem countP_add_alive (table : RoutingTable UInt16 RetryInfo) :
    (table.countP fun entry => Expired entry) + (table.filter fun entry => ¬ Expired entry).length =
      table.length := by
  have hsplit := List.length_eq_countP_add_countP (fun entry : UInt16 × RetryInfo =>
    decide (Expired entry)) (l := table)
  rw [← List.countP_eq_length_filter]
  simp only [decide_eq_true_eq, decide_not] at hsplit ⊢
  simpa using hsplit.symm

section Erased

variable {done behind : RoutingTable UInt16 RetryInfo} {entry : UInt16 × RetryInfo} {key : UInt16}

theorem eraseKey_of_kept {table : RoutingTable UInt16 RetryInfo}
    (hkept : Kept i (eraseKey key table) (done ++ aged Expired tickPending behind)) :
    eraseKey key done = done ∧
      ((eraseKey key behind).filter fun other => ¬ Expired other).length =
        (behind.filter fun other => ¬ Expired other).length := by
  have hfree : ∀ left ∈ done ++ aged Expired tickPending behind, left.1 ≠ key := by
    intro left hleft
    obtain ⟨other, hother, hsame⟩ := List.mem_map.1 (hkept.keys (List.mem_map_of_mem hleft))
    have hstays : other.1 ≠ key := by simpa using (List.mem_filter.1 hother).2
    rwa [hsame] at hstays
  constructor
  · refine List.filter_eq_self.2 fun left hleft => ?_
    simpa using hfree left (List.mem_append_left _ hleft)
  · have hlive : eraseKey key (behind.filter fun other => ¬ Expired other) =
        behind.filter fun other => ¬ Expired other := by
      refine List.filter_eq_self.2 fun other hother => ?_
      have hticked : tickPending other ∈ aged Expired tickPending behind :=
        List.mem_map_of_mem hother
      simpa [tickPending] using hfree _ (List.mem_append_right _ hticked)
    rw [← hlive, eraseKey, eraseKey, List.filter_comm]

theorem length_append_aged :
    (done ++ aged Expired tickPending behind).length =
      done.length + (behind.filter fun other => ¬ Expired other).length := by
  rw [List.length_append, aged, List.length_map]

/-- An entry that moves to the place of an erased one is passed over. -/
theorem not_kept_of_moved {other : UInt16 × RetryInfo} {others : RoutingTable UInt16 RetryInfo}
    (hkeys : ((done ++ other :: others).map Prod.fst).Nodup) (hbehind : other ∈ behind)
    (halive : ((other :: others).filter fun other => ¬ Expired other).length =
      (behind.filter fun other => ¬ Expired other).length)
    (hbound : (done ++ other :: others).length ≤
      (done ++ aged Expired tickPending behind).length +
        ((done ++ other :: others).drop (done.length + 1)).countP fun entry => Expired entry) :
    ¬ Kept (done.length + 1) (done ++ other :: others)
      (done ++ aged Expired tickPending behind) := by
  intro hkept
  have hcounts := countP_add_alive (other :: others)
  have hdrop : (done ++ other :: others).drop (done.length + 1) = others := by
    rw [List.drop_append, List.drop_of_length_le (Nat.le_succ _)]
    simp
  rw [hdrop, length_append_aged, List.length_append, List.length_cons] at hbound
  have hother : ¬ Expired other := by
    intro hdead
    rw [List.countP_cons_of_pos (by simpa using hdead), List.length_cons] at hcounts
    omega
  have hticked : tickPending other ∈ done ++ aged Expired tickPending behind :=
    List.mem_append_right _ (List.mem_map_of_mem
      (List.mem_filter.2 ⟨hbehind, by simpa using hother⟩))
  have htake : other ∈ (done ++ other :: others).take (done.length + 1) := by
    rw [List.take_append, List.take_of_length_le (Nat.le_succ _)]
    simp
  exact tickPending_ne other (hkept.behind hkeys other htake _ hticked rfl)

/-- After the first entry without time, the run does not end with the aged table. -/
theorem pendDest_expired (hkeys : ((done ++ entry :: behind).map Prod.fst).Nodup)
    (hexpired : Expired entry) :
    pendDestFrom done.length (done ++ entry :: behind) pendingMsgs ≠
      some (done ++ aged Expired tickPending behind, rest) := by
  intro hright
  have hi : done.length < (done ++ entry :: behind).length := by simp
  have hget : (done ++ entry :: behind)[done.length] = entry := by simp
  rw [pendDestFrom_expired hi (by rwa [hget])] at hright
  obtain ⟨key, hkey⟩ : ∃ key, UInt16.ofNat done.length = key := ⟨_, rfl⟩
  rw [hkey] at hright
  cases hnext : (eraseKey key (done ++ entry :: behind))[done.length]? with
  | none => simp [hnext] at hright
  | some next =>
    simp only [hnext] at hright
    obtain ⟨hlength, -⟩ := List.getElem?_eq_some_iff.1 hnext
    have hafter := @nodup_eraseKey key _ hkeys
    have hkept := mem_behind hright
    have hbound := length_le_of_pendDestFrom hright hafter
    obtain ⟨hdone, halive⟩ := eraseKey_of_kept hkept
    by_cases hself : entry.1 = key
    · -- The entry itself goes, and the one behind it moves to its place.
      have hleft : eraseKey key (done ++ entry :: behind) = done ++ eraseKey key behind := by
        rw [eraseKey, List.filter_append, List.filter_cons_of_neg (by simpa using hself)]
        exact congrArg (· ++ eraseKey key behind) hdone
      rw [hleft] at hkept hbound hlength hafter
      rcases hrest : eraseKey key behind with _ | ⟨other, others⟩
      · rw [hrest] at hlength
        simp at hlength
      · have hbehind : other ∈ behind := by
          have hmem : other ∈ eraseKey key behind := hrest ▸ List.mem_cons_self
          exact eraseKey_subset key behind hmem
        rw [hrest] at hkept hbound halive hafter
        exact not_kept_of_moved hafter hbehind halive hbound hkept
    · -- The entry stays although it should go.
      have hleft : eraseKey key (done ++ entry :: behind) =
          done ++ entry :: eraseKey key behind := by
        rw [eraseKey, List.filter_append, List.filter_cons_of_pos (by simpa using hself)]
        exact congrArg (· ++ entry :: eraseKey key behind) hdone
      have hdrop : (done ++ entry :: eraseKey key behind).drop (done.length + 1) =
          eraseKey key behind := by
        rw [List.drop_append, List.drop_of_length_le (Nat.le_succ _)]
        simp
      have hcounts := countP_add_alive (eraseKey key behind)
      rw [hleft, hdrop, length_append_aged, List.length_append, List.length_cons] at hbound
      omega

end Erased

end Pending

/-! ## Ageing -/

/-- `pend_dest_cleanup` ages the pending destinations, whatever becomes of the
pending messages. -/
def PendDestRight {Message : Type*} (pendDests : RoutingTable UInt16 RetryInfo)
    (pendingMsgs : RoutingTable UInt8 Message) : Prop :=
  ∃ rest, pendDestCleanup pendDests pendingMsgs = some (aged Expired tickPending pendDests, rest)

theorem pendDestRight_iff {Message : Type*} {pendDests : RoutingTable UInt16 RetryInfo}
    {pendingMsgs : RoutingTable UInt8 Message} (hkeys : (pendDests.map Prod.fst).Nodup) :
    PendDestRight pendDests pendingMsgs ↔ ∀ entry ∈ pendDests, entry.2.time ≠ 0 := by
  constructor
  · rintro ⟨rest, hright⟩
    by_contra hsome
    obtain ⟨first, entry, behind, rfl, halive, hdead, hgoal⟩ :=
      @exists_first_expired _ Expired _ tickPending pendDests hsome
    have hreach := @pendDestFrom_reach Message pendingMsgs [] first (entry :: behind) halive
    simp only [List.nil_append, List.length_nil] at hreach
    rw [pendDestCleanup, hreach, hgoal] at hright
    refine pendDest_expired ?_ hdead hright
    have hsame : (first.map tickPending).map Prod.fst = first.map Prod.fst := by
      simp [tickPending, Function.comp_def]
    rw [List.map_append] at hkeys ⊢
    rwa [hsame]
  · intro halive
    have hreach := @pendDestFrom_reach Message pendingMsgs [] pendDests [] halive
    simp only [List.nil_append, List.append_nil, List.length_nil] at hreach
    refine ⟨pendingMsgs, ?_⟩
    rw [pendDestCleanup, hreach, pendDestFrom, dif_neg (by simp), if_pos rfl,
      @aged_of_alive _ Expired _ _ _ halive]

/-- Each of the three functions ages its map if and only if no entry of the map
has run out. -/
theorem cleanup_right_iff {NodeId Message : Type*}
    (table : RoutingTable NodeId (RoutingTableValue NodeId)) (neighbors : RoutingTable UInt16 UInt8)
    (pendDests : RoutingTable UInt16 RetryInfo) (pendingMsgs : RoutingTable UInt8 Message)
    (htable : (table.map Prod.fst).Nodup) (hneighbors : (neighbors.map Prod.fst).Nodup)
    (hpendDests : (pendDests.map Prod.fst).Nodup) :
    (tableCleanup table = some (aged (fun entry => entry.2.lifetime = 0) tickRoute table) ↔
        ∀ entry ∈ table, entry.2.lifetime ≠ 0) ∧
      (neighborsCleanup neighbors =
          some (aged (fun entry => entry.2 = 0) tickNeighbor neighbors) ↔
        ∀ entry ∈ neighbors, entry.2 ≠ 0) ∧
      (PendDestRight pendDests pendingMsgs ↔ ∀ entry ∈ pendDests, entry.2.time ≠ 0) :=
  ⟨tableCleanup_iff htable, neighborsCleanup_iff hneighbors, pendDestRight_iff hpendDests⟩

/-- A table of one route. -/
def oneRoute : RoutingTable ℕ (RoutingTableValue ℕ) := [(3, ⟨[1, 2], 3, 1, 0, 2, 5, 1⟩)]

theorem cleanup_right_iff_small :
    (tableCleanup oneRoute =
          some (aged (fun entry => entry.2.lifetime = 0) tickRoute oneRoute) ↔
        ∀ entry ∈ oneRoute, entry.2.lifetime ≠ 0) ∧
      (neighborsCleanup [(4, 1), (5, 2)] =
          some (aged (fun entry => entry.2 = 0) tickNeighbor [(4, 1), (5, 2)]) ↔
        ∀ entry ∈ [((4 : UInt16), (1 : UInt8)), (5, 2)], entry.2 ≠ 0) ∧
      (PendDestRight [(6, ⟨0, 1⟩)] ([] : RoutingTable UInt8 ℕ) ↔
        ∀ entry ∈ [((6 : UInt16), (⟨0, 1⟩ : RetryInfo))], entry.2.time ≠ 0) :=
  cleanup_right_iff oneRoute [(4, 1), (5, 2)] [(6, ⟨0, 1⟩)] [] (by decide) (by decide) (by decide)

/-- A neighbor whose time has run out stays a neighbor. -/
theorem cleanup_keeps_neighbor :
    ¬ ∀ (table : RoutingTable ℕ (RoutingTableValue ℕ)) (neighbors : RoutingTable UInt16 UInt8)
      (pendDests : RoutingTable UInt16 RetryInfo) (pendingMsgs : RoutingTable UInt8 ℕ),
      (table.map Prod.fst).Nodup → (neighbors.map Prod.fst).Nodup →
      (pendDests.map Prod.fst).Nodup →
        tableCleanup table = some (aged (fun entry => entry.2.lifetime = 0) tickRoute table) ∧
          neighborsCleanup neighbors =
            some (aged (fun entry => entry.2 = 0) tickNeighbor neighbors) ∧
          PendDestRight pendDests pendingMsgs := by
  intro hall
  have hright := (hall [] [(7, 0), (8, 5)] [] [] (by decide) (by decide) (by decide)).2.1
  rw [neighborsCleanup_iff (by decide)] at hright
  exact hright (7, 0) (by decide) rfl

end Wiselib.Routing.Dymo
