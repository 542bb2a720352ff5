import Wiselib.Library.HopDistance
import Wiselib.Routing.OlsrMprComputation

/-!
# The routing table of OLSR

`routing_table_computation` enters the symmetric neighbours, then the nodes behind
them, and then, for `h = 2, 3, …`, the destinations of the topology tuples that
start at distance `h`.  The test on the distance compares the wrong field: it takes
the entry of the node whose *address* is `h`.

Addresses and distances are numbers without bound here.  A round of the loop that
adds an entry takes one more destination of a topology tuple, so there are no more
rounds than tuples and `h` does not overflow.

## Strategy

* `Route` and `Distance` are those of the graph of the sets (`starts`, `hop`).
* `round_spec` says what a round does: it enters the destinations of the tuples of
  node `h` that have no entry yet, if node `h` has one.
* If the table is right, then each entry tells how it came into it (`Traced`), and
  so where node `h` is.  Conversely `Exact h` says that the table is right up to
  distance `h`; a round extends it by one where the sets are `Layered`.
-/

namespace Wiselib.Routing.Olsr

/-- An entry of the routing table. -/
structure RoutingTableEntry where
  dest_addr : ℕ
  next_addr : ℕ
  hops : ℕ
deriving DecidableEq, Repr

/-- The routing table, by destination. -/
abbrev RoutingTable : Type := ℕ → Option RoutingTableEntry

/-- `routing_table_[addr] = entry`. -/
def RoutingTable.insert (table : RoutingTable) (addr : ℕ) (entry : RoutingTableEntry) :
    RoutingTable :=
  Function.update table addr (some entry)

@[simp] theorem RoutingTable.insert_self (table : RoutingTable) (addr : ℕ)
    (entry : RoutingTableEntry) : table.insert addr entry addr = some entry :=
  Function.update_self _ _ _

theorem RoutingTable.insert_of_ne (table : RoutingTable) {addr other : ℕ}
    (entry : RoutingTableEntry) (hne : other ≠ addr) :
    table.insert addr entry other = table other :=
  Function.update_of_ne hne _ _

/-- `OLSR_topology_tuple`. -/
structure TopologyTuple where
  dest_addr : ℕ
  last_addr : ℕ
deriving DecidableEq, Repr

/-- The sets that the routing table is computed from. -/
structure RoutingSets where
  linkset_ : List (LinkTuple ℕ)
  nbset_ : List (NbTuple ℕ)
  nb2hopset_ : List (Nb2hopTuple ℕ)
  topologyset_ : List TopologyTuple
deriving DecidableEq, Repr

/-! ## The code -/

/-- The variables of the loop over the links of a neighbour. -/
structure LinkLoop where
  routing_table_ : RoutingTable
  lt : Option (LinkTuple ℕ)
  nb_node_addr : Bool

/-- A turn of the loop over the links of a neighbour. -/
def addLink (now : ℤ) (nb_tuple : NbTuple ℕ) (state : LinkLoop) (link_tuple : LinkTuple ℕ) :
    LinkLoop :=
  if link_tuple.nb_node_addr = nb_tuple.nb_node_addr ∧ link_tuple.time ≥ now then
    { routing_table_ := state.routing_table_.insert link_tuple.nb_node_addr
        ⟨link_tuple.nb_node_addr, link_tuple.nb_node_addr, 1⟩
      lt := some link_tuple
      nb_node_addr :=
        if link_tuple.nb_node_addr = nb_tuple.nb_node_addr then true else state.nb_node_addr }
  else state

/-- Step 2, for one neighbour. -/
def addNeighbour (now : ℤ) (linkset : List (LinkTuple ℕ)) (table : RoutingTable)
    (nb_tuple : NbTuple ℕ) : RoutingTable :=
  if nb_tuple.status = .sym then
    let state := linkset.foldl (addLink now nb_tuple) ⟨table, none, false⟩
    match state.nb_node_addr, state.lt with
    | false, some lt =>
        state.routing_table_.insert nb_tuple.nb_node_addr
          ⟨nb_tuple.nb_node_addr, lt.nb_node_addr, 1⟩
    | _, _ => state.routing_table_
  else table

/-- Step 3.  There is no result if the entry of a neighbour is missing. -/
def addTwoHops (nbset : List (NbTuple ℕ)) :
    List (Nb2hopTuple ℕ) → RoutingTable → Option RoutingTable
  | [], table => some table
  | nb2hop_tuple :: rest, table =>
      if admissible nbset nb2hop_tuple then
        match table nb2hop_tuple.nb_node_addr with
        | none => none
        | some entry =>
            addTwoHops nbset rest (table.insert nb2hop_tuple.nb2hop_addr
              ⟨nb2hop_tuple.nb2hop_addr, entry.next_addr, 2⟩)
      else addTwoHops nbset rest table

/-- Step 4, for one topology tuple: the table and `added`. -/
def addTopology (h : ℕ) (state : RoutingTable × Bool) (topology_tuple : TopologyTuple) :
    RoutingTable × Bool :=
  match state.1 topology_tuple.dest_addr, state.1 topology_tuple.last_addr with
  | none, some entry =>
      if entry.dest_addr = h then
        (state.1.insert topology_tuple.dest_addr
          ⟨topology_tuple.dest_addr, entry.next_addr, h + 1⟩, true)
      else state
  | _, _ => state

/-- A round of step 4. -/
def round (topologyset : List TopologyTuple) (h : ℕ) (table : RoutingTable) :
    RoutingTable × Bool :=
  topologyset.foldl (addTopology h) (table, false)

theorem addTopology_cases (h : ℕ) (state : RoutingTable × Bool) (tuple : TopologyTuple) :
    addTopology h state tuple = state ∨
      ∃ entry, state.1 tuple.dest_addr = none ∧ state.1 tuple.last_addr = some entry ∧
        entry.dest_addr = h ∧
        addTopology h state tuple =
          (state.1.insert tuple.dest_addr ⟨tuple.dest_addr, entry.next_addr, h + 1⟩, true) := by
  unfold addTopology
  split
  · rename_i entry hdest hlast
    split
    · rename_i hh
      exact .inr ⟨entry, hdest, hlast, hh, rfl⟩
    · exact .inl rfl
  · exact .inl rfl

theorem addTopology_some {h addr : ℕ} {entry : RoutingTableEntry} {state : RoutingTable × Bool}
    (hentry : state.1 addr = some entry) (tuple : TopologyTuple) :
    (addTopology h state tuple).1 addr = some entry := by
  rcases addTopology_cases h state tuple with hsame | ⟨_, hdest, -, -, hadd⟩
  · rw [hsame, hentry]
  · rw [hadd]
    refine (RoutingTable.insert_of_ne _ _ ?_).trans hentry
    rintro rfl
    exact absurd (hdest.symm.trans hentry) (by simp)

theorem foldl_addTopology_some {topologyset : List TopologyTuple} {h addr : ℕ}
    {entry : RoutingTableEntry} {state : RoutingTable × Bool} (hentry : state.1 addr = some entry) :
    (topologyset.foldl (addTopology h) state).1 addr = some entry := by
  induction topologyset generalizing state with
  | nil => exact hentry
  | cons tuple rest ih => exact ih (addTopology_some hentry tuple)

/-- If a round added something, then there is a topology tuple whose destination
had no entry before it and has one now. -/
theorem exists_of_added {topologyset : List TopologyTuple} {h : ℕ} {table : RoutingTable}
    (hadded : (round topologyset h table).2 = true) :
    ∃ tuple ∈ topologyset, table tuple.dest_addr = none ∧
      (round topologyset h table).1 tuple.dest_addr ≠ none := by
  unfold round at hadded ⊢
  induction topologyset with
  | nil => exact absurd hadded (by simp)
  | cons tuple rest ih =>
    rw [List.foldl_cons] at hadded ⊢
    rcases addTopology_cases h (table, false) tuple with hsame | ⟨entry, hdest, -, -, hadd⟩
    · rw [hsame] at hadded ⊢
      obtain ⟨other, hother, hentries⟩ := ih hadded
      exact ⟨other, List.mem_cons_of_mem _ hother, hentries⟩
    · refine ⟨tuple, List.mem_cons_self, hdest, ?_⟩
      rw [hadd, foldl_addTopology_some (RoutingTable.insert_self _ _ _)]
      simp

theorem length_round_lt {topologyset : List TopologyTuple} {h : ℕ} {table : RoutingTable}
    (hadded : (round topologyset h table).2 = true) :
    (topologyset.filter fun tuple => ((round topologyset h table).1 tuple.dest_addr).isNone).length <
      (topologyset.filter fun tuple => (table tuple.dest_addr).isNone).length := by
  obtain ⟨tuple, htuple, hbefore, hafter⟩ := exists_of_added hadded
  have hsub : (topologyset.filter fun tuple =>
        ((round topologyset h table).1 tuple.dest_addr).isNone) =
      (topologyset.filter fun tuple => (table tuple.dest_addr).isNone).filter
        fun tuple => ((round topologyset h table).1 tuple.dest_addr).isNone := by
    rw [List.filter_filter]
    refine List.filter_congr fun other _ => ?_
    cases hentry : table other.dest_addr with
    | none => simp
    | some entry => simp [round, @foldl_addTopology_some topologyset h _ _ (table, false) hentry]
  rw [hsub]
  exact List.length_filter_lt_length_iff_exists.mpr
    ⟨tuple, List.mem_filter.mpr ⟨htuple, by simp [hbefore]⟩, by simpa using hafter⟩

/-- Step 4. -/
def addLevels (topologyset : List TopologyTuple) (h : ℕ) (table : RoutingTable) : RoutingTable :=
  if _hadded : (round topologyset h table).2 = true then
    addLevels topologyset (h + 1) (round topologyset h table).1
  else (round topologyset h table).1
termination_by (topologyset.filter fun tuple => (table tuple.dest_addr).isNone).length
decreasing_by exact length_round_lt _hadded

/-- `routing_table_computation`. -/
def RoutingSets.routingTableComputation (self : RoutingSets) (now : ℤ) : Option RoutingTable :=
  let table := self.nbset_.foldl (addNeighbour now self.linkset_) fun _ => none
  (addTwoHops self.nbset_ self.nb2hopset_ table).map (addLevels self.topologyset_ 2)

/-! ## A round -/

/-- Each entry stands under its destination. -/
def Keyed (table : RoutingTable) : Prop :=
  ∀ addr entry, table addr = some entry → entry.dest_addr = addr

theorem Keyed.insert {table : RoutingTable} (hkeyed : Keyed table) {addr : ℕ}
    {entry : RoutingTableEntry} (haddr : entry.dest_addr = addr) :
    Keyed (table.insert addr entry) := by
  intro other found hfound
  by_cases hother : other = addr
  · subst hother
    rw [RoutingTable.insert_self] at hfound
    rw [← Option.some.inj hfound, haddr]
  · rw [RoutingTable.insert_of_ne _ _ hother] at hfound
    exact hkeyed other found hfound

theorem addTopology_keyed {h : ℕ} {state : RoutingTable × Bool} (hkeyed : Keyed state.1)
    (tuple : TopologyTuple) : Keyed (addTopology h state tuple).1 := by
  rcases addTopology_cases h state tuple with hsame | ⟨_, -, -, -, hadd⟩
  · rwa [hsame]
  · rw [hadd]
    exact hkeyed.insert rfl

/-- The entry that a tuple of node `h` makes for `addr`. -/
def New (topologyset : List TopologyTuple) (h addr : ℕ) (last entry : RoutingTableEntry) : Prop :=
  entry = ⟨addr, last.next_addr, h + 1⟩ ∧
    ∃ tuple ∈ topologyset, tuple.last_addr = h ∧ tuple.dest_addr = addr

theorem new_cons {tuple : TopologyTuple} {rest : List TopologyTuple} {h addr : ℕ}
    {last entry : RoutingTableEntry} :
    New (tuple :: rest) h addr last entry ↔
      New [tuple] h addr last entry ∨ New rest h addr last entry := by
  simp only [New, List.exists_mem_cons_iff, List.not_mem_nil, false_and, exists_false, or_false,
    and_or_left]

/-- What a topology tuple does when node `h` has an entry. -/
theorem addTopology_iff {h addr : ℕ} {state : RoutingTable × Bool} (hkeyed : Keyed state.1)
    {last entry : RoutingTableEntry} (hlast : state.1 h = some last) (tuple : TopologyTuple) :
    (addTopology h state tuple).1 addr = some entry ↔
      state.1 addr = some entry ∨ state.1 addr = none ∧ New [tuple] h addr last entry := by
  simp only [New, List.mem_singleton, exists_eq_left]
  unfold addTopology
  split
  · rename_i found hdest hfound
    by_cases hh : tuple.last_addr = h
    · subst hh
      obtain rfl : last = found := Option.some.inj (hlast.symm.trans hfound)
      rw [if_pos (hkeyed _ _ hfound)]
      by_cases haddr : addr = tuple.dest_addr
      · subst haddr
        simp [hdest, eq_comm]
      · simp [RoutingTable.insert_of_ne _ _ haddr, Ne.symm haddr]
    · rw [if_neg (by rwa [hkeyed _ _ hfound])]
      simp [hh]
  · -- The destination has an entry, or the last node has none.
    rename_i hno
    have hnew : ¬ (state.1 addr = none ∧ tuple.last_addr = h ∧ tuple.dest_addr = addr) := by
      rintro ⟨hnone, rfl, rfl⟩
      exact hno last hnone hlast
    tauto

theorem foldl_addTopology_iff {topologyset : List TopologyTuple} {h addr : ℕ}
    {state : RoutingTable × Bool} (hkeyed : Keyed state.1) {last entry : RoutingTableEntry}
    (hlast : state.1 h = some last) :
    (topologyset.foldl (addTopology h) state).1 addr = some entry ↔
      state.1 addr = some entry ∨
        state.1 addr = none ∧ New topologyset h addr last entry := by
  induction topologyset generalizing state with
  | nil => simp [New]
  | cons tuple rest ih =>
    rw [List.foldl_cons, ih (addTopology_keyed hkeyed tuple) (addTopology_some hlast tuple),
      addTopology_iff hkeyed hlast, @new_cons tuple rest]
    constructor
    · rintro ((hentry | ⟨hnone, hnew⟩) | ⟨hnone, hnew⟩)
      · exact .inl hentry
      · exact .inr ⟨hnone, .inl hnew⟩
      · refine .inr ⟨?_, .inr hnew⟩
        by_contra hsome
        obtain ⟨found, hfound⟩ := Option.ne_none_iff_exists'.mp hsome
        exact absurd (hnone.symm.trans (addTopology_some hfound tuple)) (by simp)
    · rintro (hentry | ⟨hnone, hnew | hnew⟩)
      · exact .inl (.inl hentry)
      · exact .inl (.inr ⟨hnone, hnew⟩)
      · cases hfound : (addTopology h state tuple).1 addr with
        | none => exact .inr ⟨rfl, hnew⟩
        | some found =>
          -- The tuple has entered the same.
          rcases (addTopology_iff hkeyed hlast tuple).mp hfound with hsome | ⟨-, hfoundNew⟩
          · exact absurd (hnone.symm.trans hsome) (by simp)
          · obtain rfl : found = entry := hfoundNew.1.trans hnew.1.symm
            exact .inl (.inr ⟨hnone, hfoundNew⟩)

theorem foldl_addTopology_none {topologyset : List TopologyTuple} {h : ℕ}
    {state : RoutingTable × Bool} (hkeyed : Keyed state.1) (hlast : state.1 h = none) :
    topologyset.foldl (addTopology h) state = state := by
  induction topologyset with
  | nil => rfl
  | cons tuple rest ih =>
    rcases addTopology_cases h state tuple with hsame | ⟨entry, -, hentry, hdest, -⟩
    · rw [List.foldl_cons, hsame, ih]
    · -- The entry of the last node would be the one of node `h`.
      rw [← hkeyed _ _ hentry, hdest, hlast] at hentry
      exact absurd hentry (by simp)

theorem round_iff {topologyset : List TopologyTuple} {h addr : ℕ} {table : RoutingTable}
    (hkeyed : Keyed table) {entry : RoutingTableEntry} :
    (round topologyset h table).1 addr = some entry ↔
      table addr = some entry ∨
        table addr = none ∧ ∃ last, table h = some last ∧ New topologyset h addr last entry := by
  unfold round
  cases hlast : table h with
  | none => simp [@foldl_addTopology_none topologyset h (table, false) hkeyed hlast]
  | some last => simp [@foldl_addTopology_iff topologyset h addr (table, false) hkeyed last entry hlast]

theorem round_keyed {topologyset : List TopologyTuple} {h : ℕ} {table : RoutingTable}
    (hkeyed : Keyed table) : Keyed (round topologyset h table).1 := by
  intro addr entry hentry
  rcases (round_iff hkeyed).mp hentry with hbefore | ⟨-, _, -, hnew⟩
  · exact hkeyed addr entry hbefore
  · rw [hnew.1]

theorem foldl_addTopology_eq_or (topologyset : List TopologyTuple) (h : ℕ)
    (state : RoutingTable × Bool) :
    topologyset.foldl (addTopology h) state = state ∨
      (topologyset.foldl (addTopology h) state).2 = true := by
  induction topologyset generalizing state with
  | nil => exact .inl rfl
  | cons tuple rest ih =>
    rcases addTopology_cases h state tuple with hsame | ⟨_, -, -, -, hadd⟩
    · rw [List.foldl_cons, hsame]
      exact ih state
    · rw [List.foldl_cons, hadd]
      refine .inr ((ih _).elim (fun hrest => ?_) id)
      rw [hrest]

/-! ## The rounds -/

/-- What each round keeps holds at the end, before the last round and after it. -/
theorem addLevels_run {topologyset : List TopologyTuple} {P : ℕ → RoutingTable → Prop}
    (hstep : ∀ h table, P h table → P (h + 1) (round topologyset h table).1) {h : ℕ}
    {table : RoutingTable} (hP : P h table) :
    ∃ last, P last (addLevels topologyset h table) ∧
      P (last + 1) (addLevels topologyset h table) := by
  induction h, table using addLevels.induct topologyset with
  | case1 h table hadded ih =>
    rw [addLevels, dif_pos hadded]
    exact ih (hstep h table hP)
  | case2 h table hadded =>
    rw [addLevels, dif_neg hadded]
    refine ⟨h, ?_, hstep h table hP⟩
    have hsame := (foldl_addTopology_eq_or topologyset h (table, false)).resolve_right hadded
    rwa [round, hsame]

/-! ## The graph -/

namespace RoutingSets

variable {sets : RoutingSets}

/-- The symmetric neighbours. -/
def starts (sets : RoutingSets) (node : ℕ) : Prop :=
  ∃ nb ∈ sets.nbset_, nb.nb_node_addr = node ∧ nb.status = .sym

/-- A hop along an admissible 2-hop tuple or along a topology tuple. -/
def hop (sets : RoutingSets) (node dest : ℕ) : Prop :=
  (∃ tuple ∈ sets.nb2hopset_, admissible sets.nbset_ tuple = true ∧
    tuple.nb_node_addr = node ∧ tuple.nb2hop_addr = dest) ∨
  ∃ tuple ∈ sets.topologyset_, tuple.last_addr = node ∧ tuple.dest_addr = dest

/-- The table has an entry for what can be reached, with the length of a shortest
route and the neighbour that one starts with. -/
structure TableRight (sets : RoutingSets) (table : RoutingTable) : Prop where
  exists_iff : ∀ dest, (∃ entry, table dest = some entry) ↔
    ∃ first hops, Route sets.starts sets.hop first dest hops
  shortest : ∀ dest entry, table dest = some entry →
    entry.dest_addr = dest ∧ Route sets.starts sets.hop entry.next_addr dest entry.hops ∧
      ∀ first hops, Route sets.starts sets.hop first dest hops → entry.hops ≤ hops

/-- What is at distance two stands in an admissible 2-hop tuple, and what is at
distance `h + 1` from there on stands in a topology tuple of the node with the
address `h`, which is at distance `h`. -/
structure Layered (sets : RoutingSets) : Prop where
  two : ∀ dest, Distance sets.starts sets.hop dest 2 →
    ∃ tuple ∈ sets.nb2hopset_, admissible sets.nbset_ tuple = true ∧ tuple.nb2hop_addr = dest
  further : ∀ h ≥ 2, ∀ dest, Distance sets.starts sets.hop dest (h + 1) →
    Distance sets.starts sets.hop h h ∧
      ∃ tuple ∈ sets.topologyset_, tuple.last_addr = h ∧ tuple.dest_addr = dest

theorem TableRight.distance {table : RoutingTable} (hright : sets.TableRight table) {dest : ℕ}
    {entry : RoutingTableEntry} (hentry : table dest = some entry) :
    Distance sets.starts sets.hop dest entry.hops :=
  ⟨⟨entry.next_addr, (hright.shortest dest entry hentry).2.1⟩,
    (hright.shortest dest entry hentry).2.2⟩

theorem TableRight.exists_entry {table : RoutingTable} (hright : sets.TableRight table)
    {dest hops : ℕ} (hdist : Distance sets.starts sets.hop dest hops) :
    ∃ entry, table dest = some entry ∧ entry.hops = hops := by
  obtain ⟨first, hroute⟩ := hdist.1
  obtain ⟨entry, hentry⟩ := (hright.exists_iff dest).mpr ⟨first, hops, hroute⟩
  exact ⟨entry, hentry, (hright.distance hentry).unique hdist⟩

/-! ## The nodes at distance one and two -/

theorem starts_of_admissible {tuple : Nb2hopTuple ℕ}
    (hadmissible : admissible sets.nbset_ tuple = true) :
    sets.starts tuple.nb_node_addr ∧ ¬ sets.starts tuple.nb2hop_addr := by
  unfold admissible at hadmissible
  split at hadmissible
  · exact absurd hadmissible (by simp)
  · rename_i nb hnb
    obtain ⟨hmem, haddr, hsym⟩ := findSymNbTuple_eq_some hnb
    refine ⟨⟨nb, hmem, haddr, hsym⟩, ?_⟩
    split at hadmissible
    · exact absurd hadmissible (by simp)
    · rintro ⟨other, hother, haddrOther, hsymOther⟩
      exact findSymNbTuple_eq_none_iff.mp (Option.isNone_iff_eq_none.mp hadmissible) other hother
        haddrOther hsymOther

/-- The entry of a neighbour. -/
def neighbourEntry (node : ℕ) : RoutingTableEntry :=
  ⟨node, node, 1⟩

/-- The table while it has entries for the nodes at distance one and two only. -/
structure Entered (sets : RoutingSets) (table : RoutingTable) : Prop where
  one : ∀ node, sets.starts node → table node = some (neighbourEntry node)
  source : ∀ dest entry, table dest = some entry →
    (sets.starts dest ∧ entry = neighbourEntry dest) ∨
      ∃ tuple ∈ sets.nb2hopset_, admissible sets.nbset_ tuple = true ∧
        tuple.nb2hop_addr = dest ∧ entry = ⟨dest, tuple.nb_node_addr, 2⟩

theorem Entered.keyed {table : RoutingTable} (hentered : sets.Entered table) : Keyed table := by
  intro addr entry hentry
  rcases hentered.source addr entry hentry with ⟨-, rfl⟩ | ⟨_, -, -, -, rfl⟩
  · rfl
  · rfl

/-- Each symmetric neighbour has a link that has not expired. -/
def Linked (sets : RoutingSets) (now : ℤ) : Prop :=
  ∀ nb ∈ sets.nbset_, nb.status = .sym →
    ∃ link ∈ sets.linkset_, link.nb_node_addr = nb.nb_node_addr ∧ link.time ≥ now

/-- The loop over the links: it enters the neighbour if there is a link, and it
remembers that it did if it remembers a link. -/
theorem foldl_addLink (now : ℤ) (nb : NbTuple ℕ) (linkset : List (LinkTuple ℕ)) (state : LinkLoop)
    (hstate : state.lt ≠ none → state.nb_node_addr = true) :
    ((linkset.foldl (addLink now nb) state).lt ≠ none →
      (linkset.foldl (addLink now nb) state).nb_node_addr = true) ∧
    ((∃ link ∈ linkset, link.nb_node_addr = nb.nb_node_addr ∧ link.time ≥ now) ∨
        state.routing_table_ =
          state.routing_table_.insert nb.nb_node_addr (neighbourEntry nb.nb_node_addr) →
      (linkset.foldl (addLink now nb) state).routing_table_ =
        state.routing_table_.insert nb.nb_node_addr (neighbourEntry nb.nb_node_addr)) := by
  induction linkset generalizing state with
  | nil =>
    refine ⟨hstate, ?_⟩
    rintro (⟨_, hmem, -⟩ | hsame)
    · exact absurd hmem List.not_mem_nil
    · exact hsame
  | cons link rest ih =>
    rw [List.foldl_cons]
    by_cases hlive : link.nb_node_addr = nb.nb_node_addr ∧ link.time ≥ now
    · have hlink : addLink now nb state link =
          ⟨state.routing_table_.insert nb.nb_node_addr (neighbourEntry nb.nb_node_addr),
            some link, true⟩ := by
        rw [addLink, if_pos hlive, if_pos hlive.1, hlive.1]
        rfl
      have hidem : ∀ entry, (state.routing_table_.insert nb.nb_node_addr entry).insert
          nb.nb_node_addr entry = state.routing_table_.insert nb.nb_node_addr entry :=
        fun entry => Function.update_idem _ _ _
      rw [hlink]
      obtain ⟨hremember, htable⟩ := ih ⟨_, some link, true⟩ fun _ => rfl
      exact ⟨hremember, fun _ => (htable (.inr (hidem _).symm)).trans (hidem _)⟩
    · have hlink : addLink now nb state link = state := by rw [addLink, if_neg hlive]
      rw [hlink]
      obtain ⟨hremember, htable⟩ := ih state hstate
      refine ⟨hremember, fun hor => htable (hor.imp_left ?_)⟩
      rintro ⟨other, hother, hotherLive⟩
      rcases List.mem_cons.mp hother with rfl | hrest
      · exact absurd hotherLive hlive
      · exact ⟨other, hrest, hotherLive⟩

theorem addNeighbour_eq {now : ℤ} {linkset : List (LinkTuple ℕ)} {nb : NbTuple ℕ}
    (hsym : nb.status = .sym)
    (hlinked : ∃ link ∈ linkset, link.nb_node_addr = nb.nb_node_addr ∧ link.time ≥ now)
    (table : RoutingTable) :
    addNeighbour now linkset table nb =
      table.insert nb.nb_node_addr (neighbourEntry nb.nb_node_addr) := by
  obtain ⟨hremember, htable⟩ := foldl_addLink now nb linkset ⟨table, none, false⟩ (by simp)
  unfold addNeighbour
  rw [if_pos hsym]
  simp only
  split
  · rename_i lt hnot hlt
    exact absurd (hremember (by simp [hlt])) (by simp [hnot])
  · exact htable (.inl hlinked)

theorem foldl_addNeighbour {now : ℤ} {linkset : List (LinkTuple ℕ)} {nbset : List (NbTuple ℕ)}
    (hlinked : ∀ nb ∈ nbset, nb.status = .sym →
      ∃ link ∈ linkset, link.nb_node_addr = nb.nb_node_addr ∧ link.time ≥ now)
    (table : RoutingTable) (node : ℕ) :
    ((∃ nb ∈ nbset, nb.nb_node_addr = node ∧ nb.status = .sym) →
      nbset.foldl (addNeighbour now linkset) table node = some (neighbourEntry node)) ∧
    ((¬ ∃ nb ∈ nbset, nb.nb_node_addr = node ∧ nb.status = .sym) →
      nbset.foldl (addNeighbour now linkset) table node = table node) := by
  induction nbset generalizing table with
  | nil => simp
  | cons nb rest ih =>
    rw [List.foldl_cons]
    obtain ⟨hin, hout⟩ := ih (fun other hother => hlinked other (List.mem_cons_of_mem _ hother))
      (addNeighbour now linkset table nb)
    rw [List.exists_mem_cons_iff]
    by_cases hrest : ∃ nb ∈ rest, nb.nb_node_addr = node ∧ nb.status = .sym
    · exact ⟨fun _ => hin hrest, fun hnot => absurd (.inr hrest) hnot⟩
    · rw [hout hrest]
      by_cases hsym : nb.status = .sym
      · rw [addNeighbour_eq hsym (hlinked nb List.mem_cons_self hsym)]
        by_cases haddr : node = nb.nb_node_addr
        · subst haddr
          exact ⟨fun _ => RoutingTable.insert_self _ _ _, fun hnot => absurd (.inl ⟨rfl, hsym⟩) hnot⟩
        · rw [RoutingTable.insert_of_ne _ _ haddr]
          refine ⟨fun hor => ?_, fun _ => rfl⟩
          rcases hor with ⟨hnode, -⟩ | hor
          · exact absurd hnode.symm haddr
          · exact absurd hor hrest
      · have hsame : addNeighbour now linkset table nb = table := by
          rw [addNeighbour, if_neg hsym]
        rw [hsame]
        refine ⟨fun hor => ?_, fun _ => rfl⟩
        rcases hor with ⟨-, hyes⟩ | hor
        · exact absurd hyes hsym
        · exact absurd hor hrest

theorem entered_neighbours {now : ℤ} (hlinked : sets.Linked now) :
    sets.Entered (sets.nbset_.foldl (addNeighbour now sets.linkset_) fun _ => none) := by
  refine ⟨fun node hstarts => (foldl_addNeighbour hlinked _ node).1 hstarts, ?_⟩
  intro dest entry hentry
  by_cases hstarts : sets.starts dest
  · rw [(foldl_addNeighbour hlinked _ dest).1 hstarts] at hentry
    exact .inl ⟨hstarts, (Option.some.inj hentry).symm⟩
  · rw [(foldl_addNeighbour hlinked _ dest).2 hstarts] at hentry
    exact absurd hentry (by simp)

theorem Entered.insert {table : RoutingTable} (hentered : sets.Entered table)
    {tuple : Nb2hopTuple ℕ} (htuple : tuple ∈ sets.nb2hopset_)
    (hadmissible : admissible sets.nbset_ tuple = true) :
    sets.Entered (table.insert tuple.nb2hop_addr ⟨tuple.nb2hop_addr, tuple.nb_node_addr, 2⟩) := by
  constructor
  · intro node hstarts
    rw [RoutingTable.insert_of_ne]
    · exact hentered.one node hstarts
    · rintro rfl
      exact (starts_of_admissible hadmissible).2 hstarts
  · intro dest entry hentry
    by_cases hdest : dest = tuple.nb2hop_addr
    · subst hdest
      rw [RoutingTable.insert_self] at hentry
      exact .inr ⟨tuple, htuple, hadmissible, rfl, (Option.some.inj hentry).symm⟩
    · rw [RoutingTable.insert_of_ne _ _ hdest] at hentry
      exact hentered.source dest entry hentry

theorem addTwoHops_entered {tuples : List (Nb2hopTuple ℕ)}
    (hsub : ∀ tuple ∈ tuples, tuple ∈ sets.nb2hopset_) {table : RoutingTable}
    (hentered : sets.Entered table) :
    ∃ result, addTwoHops sets.nbset_ tuples table = some result ∧ sets.Entered result ∧
      (∀ dest, table dest ≠ none → result dest ≠ none) ∧
      ∀ tuple ∈ tuples, admissible sets.nbset_ tuple = true → result tuple.nb2hop_addr ≠ none := by
  induction tuples generalizing table with
  | nil => exact ⟨table, rfl, hentered, fun _ hsome => hsome, by simp⟩
  | cons tuple rest ih =>
    have hrest : ∀ tuple ∈ rest, tuple ∈ sets.nb2hopset_ :=
      fun other hother => hsub other (List.mem_cons_of_mem _ hother)
    by_cases hadmissible : admissible sets.nbset_ tuple = true
    · have hone := hentered.one _ (starts_of_admissible hadmissible).1
      obtain ⟨result, hresult, hdone, hkeep, hmem⟩ :=
        ih hrest (hentered.insert (hsub tuple List.mem_cons_self) hadmissible)
      refine ⟨result, ?_, hdone, ?_, ?_⟩
      · rw [addTwoHops, if_pos hadmissible, hone]
        exact hresult
      · intro dest hsome
        apply hkeep
        by_cases hdest : dest = tuple.nb2hop_addr
        · simp [hdest]
        · rwa [RoutingTable.insert_of_ne _ _ hdest]
      · intro other hother hotherAdmissible
        rcases List.mem_cons.mp hother with rfl | hother
        · exact hkeep _ (by simp)
        · exact hmem other hother hotherAdmissible
    · obtain ⟨result, hresult, hdone, hkeep, hmem⟩ := ih hrest hentered
      refine ⟨result, ?_, hdone, hkeep, ?_⟩
      · rw [addTwoHops, if_neg hadmissible]
        exact hresult
      · intro other hother hotherAdmissible
        rcases List.mem_cons.mp hother with rfl | hother
        · exact absurd hotherAdmissible hadmissible
        · exact hmem other hother hotherAdmissible

/-! ## If the table is right -/

/-- Each entry tells how it came into the table before round `h`. -/
def Traced (sets : RoutingSets) (h : ℕ) (table : RoutingTable) : Prop :=
  2 ≤ h ∧ Keyed table ∧ ∀ dest entry, table dest = some entry →
    entry.hops = 1 ∨
    (entry.hops = 2 ∧ ∃ tuple ∈ sets.nb2hopset_,
      admissible sets.nbset_ tuple = true ∧ tuple.nb2hop_addr = dest) ∨
    ∃ round last, 2 ≤ round ∧ round < h ∧ entry.hops = round + 1 ∧
      (∃ tuple ∈ sets.topologyset_, tuple.last_addr = round ∧ tuple.dest_addr = dest) ∧
      table round = some last ∧ last.hops ≤ round

theorem Traced.hops_le {h : ℕ} {table : RoutingTable} (htraced : sets.Traced h table) {dest : ℕ}
    {entry : RoutingTableEntry} (hentry : table dest = some entry) : entry.hops ≤ h := by
  obtain ⟨hh, -, hsource⟩ := htraced
  rcases hsource dest entry hentry with hone | ⟨htwo, -⟩ | ⟨_, _, -, hround, hhops, -⟩ <;> omega

theorem Entered.traced {table : RoutingTable} (hentered : sets.Entered table) :
    sets.Traced 2 table := by
  refine ⟨le_rfl, hentered.keyed, fun dest entry hentry => ?_⟩
  rcases hentered.source dest entry hentry with ⟨-, rfl⟩ | ⟨tuple, hmem, hadm, haddr, rfl⟩
  · exact .inl rfl
  · exact .inr (.inl ⟨rfl, tuple, hmem, hadm, haddr⟩)

theorem Traced.round {h : ℕ} {table : RoutingTable} (htraced : sets.Traced h table) :
    sets.Traced (h + 1) (round sets.topologyset_ h table).1 := by
  obtain ⟨hh, hkeyed, hsource⟩ := htraced
  refine ⟨by omega, round_keyed hkeyed, fun dest entry hentry => ?_⟩
  rcases (round_iff hkeyed).mp hentry with hbefore | ⟨-, last, hlast, hnew⟩
  · rcases hsource dest entry hbefore with hone | htwo | ⟨k, last, hk, hlt, hhops, htuple, hlast⟩
    · exact .inl hone
    · exact .inr (.inl htwo)
    · exact .inr (.inr ⟨k, last, hk, by omega, hhops, htuple,
        (round_iff hkeyed).mpr (.inl hlast.1), hlast.2⟩)
  · refine .inr (.inr ⟨h, last, hh, by omega, ?_, hnew.2, (round_iff hkeyed).mpr (.inl hlast), ?_⟩)
    · rw [hnew.1]
    · exact Traced.hops_le ⟨hh, hkeyed, hsource⟩ hlast

/-- Where the entries come from tells where node `h` is. -/
theorem TableRight.layered {h : ℕ} {table : RoutingTable} (hright : sets.TableRight table)
    (htraced : sets.Traced h table) : sets.Layered := by
  obtain ⟨-, -, hsource⟩ := htraced
  constructor
  · intro dest hdist
    obtain ⟨entry, hentry, hhops⟩ := hright.exists_entry hdist
    rcases hsource dest entry hentry with hone | ⟨-, htuple⟩ | ⟨_, _, hk, -, hsucc, -⟩
    · omega
    · exact htuple
    · omega
  · intro h hh dest hdist
    obtain ⟨entry, hentry, hhops⟩ := hright.exists_entry hdist
    rcases hsource dest entry hentry with
      hone | ⟨htwo, -⟩ | ⟨k, last, hk, -, hsucc, ⟨tuple, htuple, haddr, hdest⟩, hlast, hle⟩
    · omega
    · omega
    · obtain rfl : k = h := by omega
      -- Node `h` is not nearer, since its tuple leads to `h + 1`.
      have hnear := hright.distance hlast
      have hfar := hdist.le_succ hnear (.inr ⟨tuple, htuple, haddr, hdest⟩)
      obtain hlastHops : last.hops = k := by omega
      rw [hlastHops] at hnear
      exact ⟨hnear, tuple, htuple, haddr, hdest⟩

/-! ## If the sets are layered -/

/-- The table is right up to distance `h`, and has nothing else. -/
structure Exact (sets : RoutingSets) (h : ℕ) (table : RoutingTable) : Prop where
  two_le : 2 ≤ h
  keyed : Keyed table
  shortest : ∀ dest entry, table dest = some entry →
    entry.hops ≤ h ∧ Route sets.starts sets.hop entry.next_addr dest entry.hops ∧
      Distance sets.starts sets.hop dest entry.hops
  complete : ∀ dest hops, hops ≤ h → Distance sets.starts sets.hop dest hops → table dest ≠ none

theorem Entered.exact {table : RoutingTable} (hentered : sets.Entered table)
    (htwo : ∀ dest, Distance sets.starts sets.hop dest 2 → table dest ≠ none) :
    sets.Exact 2 table := by
  refine ⟨le_rfl, hentered.keyed, ?_, ?_⟩
  · intro dest entry hentry
    rcases hentered.source dest entry hentry with ⟨hstarts, rfl⟩ | ⟨tuple, hmem, hadm, rfl, rfl⟩
    · exact ⟨one_le_two, .start hstarts, distance_one_iff.mpr hstarts⟩
    · obtain ⟨hstarts, hnot⟩ := starts_of_admissible hadm
      have hroute : Route sets.starts sets.hop tuple.nb_node_addr tuple.nb2hop_addr 2 :=
        (Route.start hstarts).step (.inl ⟨tuple, hmem, hadm, rfl, rfl⟩)
      refine ⟨le_rfl, hroute, ⟨_, hroute⟩, fun first other hother => ?_⟩
      have hone : other ≠ 1 := by
        rintro rfl
        exact hnot (distance_one_iff.mp ⟨⟨first, hother⟩, fun _ _ hroute => hroute.pos⟩)
      have := hother.pos
      show 2 ≤ other
      omega
  · intro dest hops hle hdist
    obtain ⟨first, hroute⟩ := hdist.1
    have := hroute.pos
    obtain rfl | rfl : hops = 1 ∨ hops = 2 := by omega
    · rw [hentered.one dest (distance_one_iff.mp hdist)]
      simp
    · exact htwo dest hdist

theorem Exact.round (hlayered : sets.Layered) {h : ℕ} {table : RoutingTable}
    (hexact : sets.Exact h table) :
    sets.Exact (h + 1) (round sets.topologyset_ h table).1 := by
  obtain ⟨hh, hkeyed, hshortest, hcomplete⟩ := hexact
  refine ⟨by omega, round_keyed hkeyed, ?_, ?_⟩
  · intro dest entry hentry
    rcases (round_iff hkeyed).mp hentry with hbefore | ⟨hnone, last, hlast, rfl, tuple, htuple⟩
    · obtain ⟨hle, hroute⟩ := hshortest dest entry hbefore
      exact ⟨by omega, hroute⟩
    · obtain ⟨hle, hroute, hnear⟩ := hshortest h last hlast
      have hhop : sets.hop h dest := .inr ⟨tuple, htuple⟩
      obtain ⟨least, hleast, hdist⟩ := (hroute.step hhop).exists_distance
      -- A node that is not in the table is further than `h`.
      have hfar : ¬ least ≤ h := fun hnot => hcomplete dest least hnot hdist hnone
      obtain rfl : least = h + 1 := by omega
      obtain hlastHops : last.hops = h := by omega
      rw [hlastHops] at hroute
      exact ⟨le_rfl, hroute.step hhop, hdist⟩
  · intro dest hops hle hdist
    by_cases hold : hops ≤ h
    · obtain ⟨entry, hentry⟩ := Option.ne_none_iff_exists'.mp (hcomplete dest hops hold hdist)
      rw [(round_iff hkeyed).mpr (.inl hentry)]
      simp
    · obtain rfl : hops = h + 1 := by omega
      obtain ⟨hnear, htuple⟩ := hlayered.further h hh dest hdist
      obtain ⟨last, hlast⟩ := Option.ne_none_iff_exists'.mp (hcomplete h h le_rfl hnear)
      cases hbefore : table dest with
      | some entry =>
        rw [(round_iff hkeyed).mpr (.inl hbefore)]
        simp
      | none =>
        rw [(round_iff hkeyed).mpr (.inr ⟨hbefore, last, hlast, rfl, htuple⟩)]
        simp

/-- Where no level is added, there are no nodes further out. -/
theorem Exact.tableRight {h : ℕ} {table : RoutingTable} (hexact : sets.Exact h table)
    (hnext : sets.Exact (h + 1) table) : sets.TableRight table where
  exists_iff dest := by
    constructor
    · rintro ⟨entry, hentry⟩
      exact ⟨entry.next_addr, entry.hops, (hexact.shortest dest entry hentry).2.1⟩
    · rintro ⟨first, hops, hroute⟩
      obtain ⟨least, -, hdist⟩ := hroute.exists_distance
      by_cases hle : least ≤ h
      · exact Option.ne_none_iff_exists'.mp (hexact.complete dest least hle hdist)
      · -- Otherwise a node at distance `h + 1` has an entry that is not its own.
        obtain ⟨node, hnode⟩ := hdist.exists_of_le (by omega) (show h + 1 ≤ least by omega)
        obtain ⟨entry, hentry⟩ :=
          Option.ne_none_iff_exists'.mp (hnext.complete node (h + 1) le_rfl hnode)
        obtain ⟨hhops, -, hother⟩ := hexact.shortest node entry hentry
        have := hother.unique hnode
        omega
  shortest dest entry hentry :=
    ⟨hexact.keyed dest entry hentry, (hexact.shortest dest entry hentry).2.1,
      (hexact.shortest dest entry hentry).2.2.2⟩

/-! ## Exactly when the table is right -/

theorem right_iff {now : ℤ} (hlinked : sets.Linked now) :
    ∃ table, sets.routingTableComputation now = some table ∧
      (sets.TableRight table ↔ sets.Layered) := by
  obtain ⟨table, htable, hentered, -, hmem⟩ :=
    addTwoHops_entered (fun _ hmem => hmem) (entered_neighbours hlinked)
  refine ⟨addLevels sets.topologyset_ 2 table, ?_, fun hright => ?_, fun hlayered => ?_⟩
  · rw [routingTableComputation, htable]
    rfl
  · obtain ⟨last, htraced, -⟩ := addLevels_run (fun h table => Traced.round) hentered.traced
    exact hright.layered htraced
  · have htwo : ∀ dest, Distance sets.starts sets.hop dest 2 → table dest ≠ none := by
      intro dest hdist
      obtain ⟨tuple, htuple, hadm, rfl⟩ := hlayered.two dest hdist
      exact hmem tuple htuple hadm
    obtain ⟨last, hexact, hnext⟩ :=
      addLevels_run (fun h table => Exact.round hlayered) (hentered.exact htwo)
    exact hexact.tableRight hnext

/-- `routing_table_computation` ends, and the table is right exactly when the
nodes that lead on have their distance as address. -/
theorem routingTableComputation_right_iff (sets : RoutingSets) (now : ℤ)
    (hlinked : sets.Linked now) :
    ∃ table, sets.routingTableComputation now = some table ∧
      (sets.TableRight table ↔ sets.Layered) :=
  right_iff hlinked

/-- A node with two neighbours in a row behind its own neighbour. -/
def threeHops (second third : ℕ) : RoutingSets where
  linkset_ := [⟨0, 1, 10, 10, 0, 10⟩]
  nbset_ := [⟨1, .sym, 3⟩]
  nb2hopset_ := [⟨1, second⟩]
  topologyset_ := [⟨third, second⟩]

theorem threeHops_linked (second third : ℕ) : (threeHops second third).Linked 0 := by
  intro nb hnb _
  obtain rfl := List.mem_singleton.mp hnb
  exact ⟨_, List.mem_singleton_self _, rfl, by decide⟩

/-- If the second node has the address 2, the table is as right as the sets are layered. -/
theorem routingTableComputation_right_iff_two :
    ∃ table, (threeHops 2 5).routingTableComputation 0 = some table ∧
      ((threeHops 2 5).TableRight table ↔ (threeHops 2 5).Layered) :=
  routingTableComputation_right_iff (threeHops 2 5) 0 (threeHops_linked 2 5)

/-- If it has another address, the table lacks the third node. -/
theorem not_tableRight_ten :
    (threeHops 10 11).Linked 0 ∧
      ¬ ∃ table, (threeHops 10 11).routingTableComputation 0 = some table ∧
        (threeHops 10 11).TableRight table := by
  refine ⟨threeHops_linked 10 11, ?_⟩
  rintro ⟨table, htable, hright⟩
  have hfirst : Route (threeHops 10 11).starts (threeHops 10 11).hop 1 1 1 :=
    .start ⟨_, List.mem_singleton_self _, rfl, rfl⟩
  have hsecond : (threeHops 10 11).hop 1 10 :=
    .inl ⟨_, List.mem_singleton_self _, by decide, rfl, rfl⟩
  have hthird : (threeHops 10 11).hop 10 11 := .inr ⟨_, List.mem_singleton_self _, rfl, rfl⟩
  obtain ⟨entry, hentry⟩ :=
    (hright.exists_iff 11).mpr ⟨1, 3, (hfirst.step hsecond).step hthird⟩
  unfold routingTableComputation at htable
  obtain ⟨second, hentered, rfl⟩ := Option.map_eq_some_iff.mp htable
  obtain rfl := Option.some.inj hentered
  rw [addLevels, dif_neg (by decide)] at hentry
  exact Option.some_ne_none entry (hentry.symm.trans (by decide))

end RoutingSets

end Wiselib.Routing.Olsr
