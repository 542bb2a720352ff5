import Wiselib.Routing.DsdvLoopFreedom

/-!
# Distances in DSDV

The hop count of an entry is the length of a path at any time.  Once no
broadcast changes a table any more it is that of a shortest path: a table holds
every neighbour within one hop, and each destination of a neighbour within one
hop more than the neighbour.
-/

namespace Wiselib.Routing.Dsdv

open Network

variable {Node : Type*} {config : Config Node} {hears : Node → Node → Prop}
  {node sender destination : Node}

/-- The lengths of the paths from a node to a destination. -/
def pathLengths (hears : Node → Node → Prop) (node destination : Node) : Set ℕ :=
  {hops | ∃ path : List Node, (node :: path).IsChain hears ∧
    path.getLast? = some destination ∧ path.length = hops}

/-! ## Entries travel -/

/-- Every entry is in one of the messages of a broadcast. -/
theorem exists_message {self : DsdvRouting Node} {entry : Entry Node}
    (hentries : config.maxEntries < 256) (hentry : entry ∈ self.routing_table_) :
    ∃ message, (none, Message.broadcast message) ∈ (self.timerElapsed config).sends ∧
      entry ∈ receivedEntries config.ids config.maxEntries message := by
  have hmem : entry ∈ (chunks config.maxEntries self.routing_table_.length
      self.routing_table_).flatten := by
    rw [flatten_chunks config.maxEntries_pos le_rfl]
    exact hentry
  obtain ⟨part, hpart, hentry'⟩ := List.mem_flatten.1 hmem
  have hlength := length_chunks_le hpart
  refine ⟨broadcastMessage config.ids config.maxEntries part, ?_, ?_⟩
  · have hne : self.routing_table_ ≠ [] := List.ne_nil_of_mem hentry
    simp only [DsdvRouting.timerElapsed, List.isEmpty_iff, if_neg hne]
    exact List.mem_map_of_mem hpart
  · rw [receivedEntries_broadcastMessage part hlength, Nat.mod_eq_of_lt (by omega),
      List.take_length]
    exact hentry'

theorem exists_send (self : DsdvRouting Node) :
    ∃ message, (none, Message.broadcast message) ∈ (self.timerElapsed config).sends := by
  have hsends : (self.timerElapsed config).sends ≠ [] := by
    unfold DsdvRouting.timerElapsed
    cases self.routing_table_ <;> simp [chunks]
  obtain ⟨send, hsend⟩ := List.exists_mem_of_ne_nil _ hsends
  obtain ⟨part, -, rfl⟩ := List.mem_map.1 hsend
  exact ⟨_, hsend⟩

variable [DecidableEq Node]

/-- No broadcast of a node changes the table of one that hears it. -/
def Settled (config : Config Node) (hears : Node → Node → Prop)
    (states : Node → DsdvRouting Node) : Prop :=
  ∀ node sender, hears node sender → ∀ send ∈ ((states sender).timerElapsed config).sends,
    ((states node).receive config node sender send.2).1.routing_table_ =
      (states node).routing_table_

variable [Fintype Node] {table : RoutingTable Node (RoutingTableValue Node)}
  {value : RoutingTableValue Node}

/-- With a slot for every node an assignment is never lost. -/
theorem find_assign {key : Node} (hsize : Fintype.card Node ≤ config.tableSize)
    (hnodup : (table.map Prod.fst).Nodup) :
    (table.assign config.tableSize key value).find key = some value := by
  by_cases hfound : (table.find key).isSome
  · exact RoutingTable.find_assign_present hfound
  · have habsent : table.find key = none := by simpa using hfound
    apply RoutingTable.find_assign_absent habsent
    have hkeys : (key :: table.map Prod.fst).Nodup :=
      List.nodup_cons.2 ⟨RoutingTable.find_eq_none_iff.1 habsent, hnodup⟩
    have hcard := hkeys.length_le_card
    rw [List.length_cons, List.length_map] at hcard
    omega

/-- After the loop the table holds every entry of the message, with at most one
hop more. -/
theorem held_updateRoutingTable {id : Node} {entries : List (Entry Node)} {entry : Entry Node}
    (hsize : Fintype.card Node ≤ config.tableSize) (hnodup : (table.map Prod.fst).Nodup)
    (hentry : entry ∈ entries) (hnull : entry.1 ≠ config.ids.nullNodeId) (hid : entry.1 ≠ id)
    (hhops : entry.2.hops.toNat < 255) :
    ∃ value, (updateRoutingTable config id sender entries table).find entry.1 = some value ∧
      value.hops.toNat ≤ entry.2.hops.toNat + 1 := by
  induction entries generalizing table with
  | nil => simp at hentry
  | cons first rest ih =>
      rcases List.mem_cons.1 hentry with rfl | hrest
      · have hheld : ∃ value,
            (updateEntry config id sender table entry).find entry.1 = some value ∧
              value.hops.toNat ≤ entry.2.hops.toNat + 1 := by
          have hassign := @find_assign _ config _ _ table ⟨sender, entry.2.hops + 1⟩ entry.1
            hsize hnodup
          have hnext := (toNat_add_one hhops).le
          rw [updateEntry, if_pos ⟨hnull, hid⟩]
          cases hfound : table.find entry.1 with
          | none => exact ⟨_, hassign, hnext⟩
          | some current =>
              dsimp only
              split
              · exact ⟨_, hassign, hnext⟩
              · exact ⟨current, hfound, by omega⟩
        obtain ⟨value, hvalue, hle⟩ := hheld
        obtain ⟨other, hother, hother_le⟩ := improves_updateRoutingTable rest _ _ value hvalue
        exact ⟨other, hother, hother_le.trans hle⟩
      · have hfirst : ((updateRoutingTable config id sender [first] table).map Prod.fst).Nodup :=
          nodup_updateRoutingTable hnodup
        exact ih hfirst hrest

/-! ## Settled tables -/

section Settled

variable {states : Node → DsdvRouting Node} (hsettled : Settled config hears states)
  (hsize : Fintype.card Node ≤ config.tableSize) (hsound : ∀ node, Sound node (states node))
  (henabled : ∀ node, (states node).enabled = true) (hhears : hears node sender)

omit [Fintype Node] in
include hsettled henabled hhears in
theorem Settled.receiveBroadcast (hne : sender ≠ node) {message : BroadcastMessage}
    (hsend : (none, Message.broadcast message) ∈ ((states sender).timerElapsed config).sends) :
    ((states node).receiveBroadcast config node sender message).routing_table_ =
      (states node).routing_table_ := by
  have hsame := hsettled node sender hhears _ hsend
  rwa [DsdvRouting.receive, if_neg (by simp [henabled node, hne])] at hsame

include hsettled hsize hsound henabled

include hhears in
theorem Settled.neighbour (hne : sender ≠ node) :
    ∃ value, (states node).routing_table_.find sender = some value ∧ value.hops.toNat ≤ 1 := by
  obtain ⟨message, hsend⟩ := @exists_send _ config (states sender)
  have hsame := hsettled.receiveBroadcast henabled hhears hne hsend
  rw [← hsame]
  exact improves_updateRoutingTable _ _ _ _ (find_assign hsize (hsound node).nodup)

include hhears in
theorem Settled.step {value : RoutingTableValue Node} (hentries : config.maxEntries < 256)
    (hne : sender ≠ node) (hdestination : destination ≠ node)
    (hnull : destination ≠ config.ids.nullNodeId)
    (hfound : (states sender).routing_table_.find destination = some value)
    (hhops : value.hops.toNat < 255) :
    ∃ other, (states node).routing_table_.find destination = some other ∧
      other.hops.toNat ≤ value.hops.toNat + 1 := by
  obtain ⟨message, hsend, hentry⟩ := exists_message hentries (RoutingTable.mem_of_find hfound)
  have hsame := hsettled.receiveBroadcast henabled hhears hne hsend
  rw [← hsame]
  exact held_updateRoutingTable hsize (RoutingTable.nodup_assign (hsound node).nodup) hentry
    hnull hdestination hhops

/-- Along a path from the node the hop counts rise by at most one towards the node. -/
theorem Settled.held_of_path {path : List Node} (hentries : config.maxEntries < 256)
    (hbound : ∀ node destination value,
      (states node).routing_table_.find destination = some value → value.hops.toNat < 255)
    (hnull : destination ≠ config.ids.nullNodeId) (hne : destination ≠ node)
    (hpath : (node :: path).IsChain hears) (hlast : path.getLast? = some destination) :
    ∃ value, (states node).routing_table_.find destination = some value ∧
      value.hops.toNat ≤ path.length := by
  induction path generalizing node with
  | nil => simp at hlast
  | cons first rest ih =>
      obtain ⟨hhears, hchain⟩ := List.isChain_cons_cons.1 hpath
      rw [List.length_cons]
      by_cases hfirst : first = destination
      · subst hfirst
        obtain ⟨value, hvalue, hle⟩ := hsettled.neighbour hsize hsound henabled hhears hne
        exact ⟨value, hvalue, hle.trans (Nat.le_add_left _ _)⟩
      · have hrest : rest.getLast? = some destination := by
          cases rest with
          | nil => exact absurd (Option.some.inj hlast) hfirst
          | cons second rest => rwa [List.getLast?_cons_cons] at hlast
        obtain ⟨value, hvalue, hle⟩ := ih (Ne.symm hfirst) hchain hrest
        by_cases hself : first = node
        · subst hself
          exact ⟨value, hvalue, hle.trans (Nat.le_succ _)⟩
        · obtain ⟨other, hother, hother_le⟩ := hsettled.step hsize hsound henabled hhears hentries
            hself hne hnull hvalue (hbound _ _ _ hvalue)
          exact ⟨other, hother, by omega⟩

end Settled

/-! ## Runs -/

omit [Fintype Node] in
theorem Backed.getLast {states : Node → DsdvRouting Node} {path : List Node}
    (hpath : Backed hears states destination path) : path.getLast? = some destination := by
  induction path with
  | nil => exact hpath.elim
  | cons place path ih =>
      cases path with
      | nil => exact congrArg some hpath
      | cons next rest => rw [List.getLast?_cons_cons, ih hpath.2.2]

omit [Fintype Node] in
theorem Vouches.mem_pathLengths {states : Node → DsdvRouting Node} {claim : Claim Node}
    (hvouches : Vouches hears states node claim) :
    claim.hops ∈ pathLengths hears node claim.destination := by
  obtain ⟨rest, -, hbacked, hhops⟩ := hvouches
  have hlast := hbacked.getLast
  rw [List.getLast?_cons_cons] at hlast
  exact ⟨claim.next_hop :: rest, hbacked.isChain, hlast, hhops.symm⟩

/-- In every run of a network whose paths are shorter than 255 hops, the hop
count of an entry is the length of a path to its destination.  Once no broadcast
changes a table any more, there is an entry for exactly the destinations that can
be reached, and its hop count is the length of a shortest path. -/
theorem hops_shortest (config : Config Node) (hears : Node → Node → Prop) [DecidableRel hears]
    (hentries : config.maxEntries < 256) (hsize : Fintype.card Node ≤ config.tableSize)
    (hpaths : ∀ path : List Node, path.IsChain hears → path.Nodup → path.length ≤ 255)
    (operations : List (Op Node (Input Node)))
    (world : World Node (DsdvRouting Node) (Message Node) (Delivery Node))
    (hrun : Transition.Run (Transition.stepOf (perform (dsdvProtocol config) hears))
      (.initial (dsdvProtocol config)) operations world) :
    (∀ node destination value,
      (world.states node).routing_table_.find destination = some value →
      value.hops.toNat ∈ pathLengths hears node destination) ∧
    ((∀ node, (world.states node).enabled = true) → Settled config hears world.states →
      ∀ node destination, destination ≠ node → destination ≠ config.ids.nullNodeId → ∀ hops,
        (∃ value, (world.states node).routing_table_.find destination = some value ∧
          value.hops.toNat = hops) ↔ IsLeast (pathLengths hears node destination) hops) := by
  have hworld := (hearsay_dsdv config hpaths).holds_run hrun
  have hvouches : ∀ node destination value,
      (world.states node).routing_table_.find destination = some value →
      Vouches hears world.states node ⟨destination, value.next_hop, value.hops.toNat⟩ :=
    fun node destination value hfound => hworld.own node _ ⟨value, hfound, rfl, rfl⟩
  have hlengths : ∀ node destination value,
      (world.states node).routing_table_.find destination = some value →
      value.hops.toNat ∈ pathLengths hears node destination :=
    fun node destination value hfound => (hvouches node destination value hfound).mem_pathLengths
  refine ⟨hlengths, ?_⟩
  intro henabled hsettled node destination hne hnull hops
  have hle : ∀ other ∈ pathLengths hears node destination,
      ∃ value, (world.states node).routing_table_.find destination = some value ∧
        value.hops.toNat ≤ other := by
    rintro _ ⟨path, hpath, hlast, rfl⟩
    exact hsettled.held_of_path hsize hworld.nodes henabled hentries
      (fun node destination value hfound =>
        hops_lt_of_vouches hpaths (hvouches node destination value hfound)) hnull hne hpath hlast
  constructor
  · rintro ⟨value, hfound, rfl⟩
    refine ⟨hlengths node destination value hfound, ?_⟩
    intro other hother
    obtain ⟨value', hfound', hle'⟩ := hle other hother
    rw [hfound] at hfound'
    rwa [Option.some.inj hfound']
  · rintro ⟨hmem, hleast⟩
    obtain ⟨value, hfound, hvalue_le⟩ := hle hops hmem
    exact ⟨value, hfound, hvalue_le.antisymm (hleast (hlengths node destination value hfound))⟩

/-- Tables travel to the middle of the line and back to its ends. -/
def settlingOperations : List (Op (Fin 4) (Input (Fin 4))) :=
  [.input 0 .init, .input 1 .init, .input 2 .init, .input 3 .init, .input 0 .timerElapsed,
    .deliver 1 0, .input 2 .timerElapsed, .deliver 1 1, .input 1 .timerElapsed, .deliver 0 2,
    .deliver 2 2]

/-- The world at the end of this run. -/
def settledWorld :
    World (Fin 4) (DsdvRouting (Fin 4)) (Message (Fin 4)) (Delivery (Fin 4)) :=
  (settlingOperations.foldlM (perform (dsdvProtocol fourConfig) OnLine)
    (.initial (dsdvProtocol fourConfig))).getD (.initial (dsdvProtocol fourConfig))

theorem hops_shortest_line :
    (∃ value, (settledWorld.states 0).routing_table_.find 2 = some value ∧
      value.hops.toNat = 2) ↔ IsLeast (pathLengths OnLine 0 2) 2 :=
  (hops_shortest fourConfig OnLine (by decide) (by decide)
    (fun _ _ hnodup => (List.Nodup.length_le_card hnodup).trans (by decide)) settlingOperations
    settledWorld (Transition.Run.of_foldlM rfl)).2 (by decide) (by unfold Settled; decide +kernel)
    0 2 (by decide) (by decide) 2

end Wiselib.Routing.Dsdv
