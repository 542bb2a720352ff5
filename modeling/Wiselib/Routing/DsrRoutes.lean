import Wiselib.Routing.DsrRouting

/-!
# Routes that DSR sends along

`send` transmits along whatever entry the routing table has for the
destination.  Route replies store complete paths, from the node to the
destination.  But `update_seq_nr` also makes entries, for the sources of route
requests, and those have no path; and where the path of a request is full, the
destination is missing in the path it answers with.

`routes_valid` proves that these are the only ways to a bad route: in every run
in which `send` meets no entry without hops and no destination answers a request
with a full path, every transmission is along a path from the node to the
destination, with an index inside the path.  `routes_not_valid` is a run in which
a node that has received a route request sends to the source of the request.

## Strategy

What a request, a reply and a table entry say of their path is a property of the
single frame or node (`Fine`, `Good`), so `Network.Local` lifts it to runs.
-/

namespace Wiselib.Routing.Dsr

open Network

variable {Node : Type*} [DecidableEq Node] {config : Config}

/-- The path is a list of at least two nodes that starts at the node and ends at
the destination. -/
def IsRoute (node destination : Node) (path : List Node) : Prop :=
  2 ≤ path.length ∧ path.head? = some node ∧ path.getLast? = some destination

/-- The node will answer the request: it is not dropped, and the node is its
destination. -/
def answers (node : Node) (state : DsrRouting Node) (message : RouteDiscoveryMessage Node) :
    Bool :=
  state.enabled && decide (state.getSeqNr message.source < message.sequence_nr) &&
    decide (message.destination = node)

/-- The condition on a step: `send` finds no entry without hops, as only
`update_seq_nr` makes them, and no destination answers a request whose path is
full. -/
def routesIntact (config : Config)
    (world : World Node (DsrRouting Node) (Message Node) (Report Node)) :
    Op Node (Input Node) → Bool
  | .input _ .init | .lose _ => true
  | .input node (.send destination _) =>
      (world.states node).send_in_progress_ ||
        match (world.states node).routing_table_.find destination with
        | none => true
        | some value => value.hops != 0
  | .deliver node position =>
      match world.sent[position]? with
      | some ⟨_, _, .routeRequest message⟩ =>
          !answers node (world.states node) message ||
            decide (message.entries.length < config.pathSize)
      | _ => true

/-! ## What frames and nodes know about paths -/

/-- A request carries a path from its source with one hop for each node, as long
as it is not full, and a reply a route from the source to the destination. -/
def Fine (config : Config) : Message Node → Prop
  | .routeRequest message =>
      (0 < config.pathSize → message.entries.head? = some message.source) ∧
      message.entries.length ≤ config.pathSize ∧
      (message.entries.length < config.pathSize →
        message.hops.toNat + 1 = message.entries.length)
  | .routeReply message =>
      IsRoute message.source message.destination message.entries ∧
      message.entries.length ≤ config.pathSize ∧ message.hops ≠ 0
  | .routing _ => True

/-- An entry of the routing table has neither hops nor a path, or it has a route
from the node to the key of the entry. -/
def Good (node : Node) (state : DsrRouting Node) : Prop :=
  ∀ destination value, state.routing_table_.find destination = some value →
    (value.hops = 0 ∧ value.path = []) ∨
      (value.hops ≠ 0 ∧ IsRoute node destination value.path)

/-- What was transmitted went along a route, with an index inside of it. -/
def SoundReport (node : Node) : Report Node → Prop
  | .transmitted destination path pathIdx =>
      IsRoute node destination path ∧ pathIdx.toNat < path.length
  | _ => True

omit [DecidableEq Node] in
theorem counted_eq {path : List Node} (hlength : path.length < 256) : counted path = path := by
  rw [counted, Nat.mod_eq_of_lt hlength, List.take_length]

omit [DecidableEq Node] in
theorem readPath_eq {path : List Node} (hlength : path.length ≤ config.pathSize) :
    readPath config path = path :=
  List.take_of_length_le hlength

omit [DecidableEq Node] in
theorem length_pushBack_le (node : Node) {path : List Node}
    (hlength : path.length ≤ config.pathSize) :
    (pushBack config node path).length ≤ config.pathSize := by
  unfold pushBack
  split
  · rw [List.length_append, List.length_singleton]
    omega
  · exact hlength

omit [DecidableEq Node] in
/-- Appending to the path of a request keeps its start, and a destination that
has room in the path completes a route. -/
theorem isRoute_pushBack {source destination : Node} {path : List Node}
    (hroom : path.length < config.pathSize) (hpath : path.head? = some source) :
    IsRoute source destination (pushBack config destination path) := by
  rw [pushBack, if_pos hroom]
  cases path with
  | nil => simp at hpath
  | cons first rest =>
      refine ⟨?_, by simpa using hpath, List.getLast?_concat⟩
      simp only [List.cons_append, List.length_cons, List.length_append, List.length_nil]
      omega

theorem isRoute_iff_hops {node destination : Node} {state : DsrRouting Node}
    {value : RoutingTableValue Node} (hgood : Good node state)
    (hfound : state.routing_table_.find destination = some value) :
    IsRoute node destination value.path ↔ value.hops ≠ 0 := by
  rcases hgood destination value hfound with ⟨hhops, hpath⟩ | ⟨hhops, hroute⟩
  · rw [hpath]
    simp [IsRoute, hhops]
  · exact iff_of_true hroute hhops

/-! ## Handlers -/

theorem good_updateSeqNr {node source : Node} {seqNr : UInt16} {state : DsrRouting Node}
    (hgood : Good node state) : Good node (state.updateSeqNr config source seqNr) := by
  intro destination value hfound
  rcases RoutingTable.find_assign_cases hfound with hold | ⟨rfl, rfl⟩
  · exact hgood destination value hold
  · cases hsource : state.routing_table_.find destination with
    | none => exact .inl ⟨rfl, rfl⟩
    | some old => exact hgood destination old hsource

theorem keeps_send {node destination : Node} {data : List UInt8} {state : DsrRouting Node}
    (hgood : Good node state)
    (hhops : state.send_in_progress_ = false → ∀ value,
      state.routing_table_.find destination = some value → value.hops ≠ 0) :
    Keeps Good (Fine config) SoundReport node (state.send config node destination data) := by
  unfold DsrRouting.send
  split
  · exact ⟨hgood, by simp, by simp [SoundReport]⟩
  · rename_i hidle
    cases hfound : state.routing_table_.find destination with
    | some value =>
        dsimp only
        have hroute : IsRoute node destination value.path :=
          (isRoute_iff_hops hgood hfound).2 (hhops (by simpa using hidle) value hfound)
        refine ⟨hgood, ?_, ?_⟩
        · intro receiver frame hsend
          obtain ⟨-, rfl⟩ := Prod.mk.inj (List.mem_singleton.1 hsend)
          trivial
        · intro event hevent
          rw [List.mem_singleton.1 hevent]
          exact ⟨hroute, hroute.1⟩
    | none =>
        dsimp only
        refine ⟨hgood, ?_, ?_⟩
        · intro receiver frame hsend
          obtain ⟨-, rfl⟩ := Prod.mk.inj (List.mem_singleton.1 hsend)
          have hbound := config.pathSize_lt
          by_cases hsize : 0 < config.pathSize
          · have hpath : pushBack config node [] = [node] := by simp [pushBack, hsize]
            simp only [Fine, hpath, counted_eq (show [node].length < 256 by simp)]
            refine ⟨fun _ => rfl, hsize, fun _ => rfl⟩
          · have hpath : pushBack config node [] = [] := by simp [pushBack, hsize]
            simp only [Fine, hpath, counted_eq (show ([] : List Node).length < 256 by simp)]
            refine ⟨fun hpos => absurd hpos hsize, Nat.zero_le _, fun hpos => absurd hpos hsize⟩
        · intro event hevent
          rw [List.mem_singleton.1 hevent]
          trivial

omit [DecidableEq Node] in
theorem fine_forwarded {node : Node} {message : RouteDiscoveryMessage Node}
    (hfine : Fine config (.routeRequest message)) :
    Fine config (.routeRequest ({ message with
      hops := message.hops + 1
      path_idx := message.path_idx + 1 }.setPath
        (pushBack config node (readPath config message.entries)))) := by
  obtain ⟨hsource, hlength, hhops⟩ := hfine
  have hbound := config.pathSize_lt
  rw [readPath_eq hlength]
  have hpush := length_pushBack_le node hlength
  simp only [Fine, RouteDiscoveryMessage.setPath, counted_eq (hpush.trans_lt hbound)]
  refine ⟨?_, hpush, ?_⟩
  · intro hpos
    have hhead := hsource hpos
    unfold pushBack
    split
    · rw [List.head?_append, hhead]
      rfl
    · exact hhead
  · intro hroom
    unfold pushBack at hroom ⊢
    split at hroom
    · rename_i hspace
      rw [if_pos hspace]
      rw [List.length_append, List.length_singleton] at hroom ⊢
      have hcount := hhops hspace
      rw [toNat_add_one (by omega)]
      omega
    · rename_i hfull
      exact absurd hroom hfull

theorem keeps_handleRouteRequest {node : Node} {message : RouteDiscoveryMessage Node}
    {state : DsrRouting Node} (hgood : Good node state)
    (hfine : Fine config (.routeRequest message))
    (hroom : state.getSeqNr message.source < message.sequence_nr → message.destination = node →
      message.entries.length < config.pathSize) :
    Keeps Good (Fine config) SoundReport node (state.handleRouteRequest config node message) := by
  unfold DsrRouting.handleRouteRequest
  split
  · exact ⟨hgood, by simp, by simp [SoundReport]⟩
  · rename_i hnew
    dsimp only
    split
    · rename_i hdestination
      refine ⟨good_updateSeqNr hgood, ?_, ?_⟩
      · intro receiver frame hsend
        obtain ⟨-, rfl⟩ := Prod.mk.inj (List.mem_singleton.1 hsend)
        obtain ⟨hsource, hlength, hhops⟩ := hfine
        have hspace := hroom (UInt16.not_le.1 hnew) hdestination
        have hbound := config.pathSize_lt
        have hcount := hhops hspace
        have hpush := length_pushBack_le node hlength
        have hroute : IsRoute message.source message.destination
            (pushBack config node message.entries) := by
          rw [← hdestination]
          exact isRoute_pushBack hspace (hsource (by omega))
        rw [readPath_eq hlength]
        simp only [Fine, RouteDiscoveryMessage.setPath, counted_eq (hpush.trans_lt hbound)]
        refine ⟨hroute, hpush, ?_⟩
        intro hzero
        have hnat : (message.hops + 1).toNat = 0 := by rw [hzero]; rfl
        rw [toNat_add_one (by omega)] at hnat
        omega
      · intro event hevent
        rw [List.mem_singleton.1 hevent]
        trivial
    · refine ⟨good_updateSeqNr hgood, ?_, ?_⟩
      · intro receiver frame hsend
        obtain ⟨-, rfl⟩ := Prod.mk.inj (List.mem_singleton.1 hsend)
        exact fine_forwarded hfine
      · intro event hevent
        rw [List.mem_singleton.1 hevent]
        trivial

theorem keeps_handleRouteReply {node : Node} {message : RouteDiscoveryMessage Node}
    {state : DsrRouting Node} (hgood : Good node state)
    (hfine : Fine config (.routeReply message)) :
    Keeps Good (Fine config) SoundReport node (state.handleRouteReply config node message) := by
  obtain ⟨hroute, hlength, hhops⟩ := hfine
  unfold DsrRouting.handleRouteReply
  dsimp only
  rw [readPath_eq hlength]
  split
  · rename_i hsource
    have hstored : Good node { state with
        routing_table_ := state.routing_table_.assign config.tableSize message.destination
          { path := message.entries, hops := message.hops, seq_nr := message.sequence_nr } } := by
      intro destination value hfound
      rcases RoutingTable.find_assign_cases hfound with hold | ⟨rfl, rfl⟩
      · exact hgood destination value hold
      · rw [hsource] at hroute
        exact .inr ⟨hhops, hroute⟩
    split
    · refine ⟨hstored, ?_, by simp⟩
      intro receiver frame hsend
      obtain ⟨-, rfl⟩ := Prod.mk.inj (List.mem_singleton.1 hsend)
      trivial
    · exact ⟨hstored, by simp, by simp⟩
  · refine ⟨hgood, ?_, by simp⟩
    intro receiver frame hsend
    obtain ⟨-, rfl⟩ := Prod.mk.inj (List.mem_singleton.1 hsend)
    exact ⟨hroute, hlength, hhops⟩

theorem keeps_handleRoutingMessage {node : Node} {message : RoutingFrame Node}
    {state : DsrRouting Node} (hgood : Good node state) :
    Keeps Good (Fine config) SoundReport node (state.handleRoutingMessage config node message) := by
  unfold DsrRouting.handleRoutingMessage
  split
  · exact ⟨hgood, by simp, by simp [SoundReport]⟩
  · refine ⟨hgood, ?_, by simp⟩
    intro receiver frame hsend
    obtain ⟨-, rfl⟩ := Prod.mk.inj (List.mem_singleton.1 hsend)
    trivial

/-! ## Runs -/

theorem keeps_input {world : World Node (DsrRouting Node) (Message Node) (Report Node)}
    {node : Node} {input : Input Node}
    {result : DsrRouting Node × Effects Node (Message Node) (Report Node)}
    (hguard : routesIntact config world (.input node input) = true)
    (hgood : Good node (world.states node))
    (hinput : (world.states node).input config node input = some result) :
    Keeps Good (Fine config) SoundReport node result := by
  cases input with
  | init =>
      simp only [DsrRouting.input] at hinput
      split at hinput
      · simp at hinput
      · rw [← Option.some.inj hinput]
        refine ⟨?_, by simp, by simp⟩
        intro destination value hfound
        simp at hfound
  | send destination data =>
      rw [← Option.some.inj hinput]
      apply keeps_send hgood
      intro hidle value hfound
      simpa [routesIntact, hidle, hfound] using hguard

theorem keeps_receive {world : World Node (DsrRouting Node) (Message Node) (Report Node)}
    {node : Node} {position : ℕ} {packet : Packet Node (Message Node)}
    (hguard : routesIntact config world (.deliver node position) = true)
    (hposition : world.sent[position]? = some packet) (hfine : Fine config packet.frame)
    (hgood : Good node (world.states node)) :
    Keeps Good (Fine config) SoundReport node
      ((world.states node).receive config node packet.frame) := by
  unfold DsrRouting.receive
  split
  · rename_i henabled
    obtain ⟨sender, receiver, message⟩ := packet
    cases message with
    | routeRequest message =>
        apply keeps_handleRouteRequest hgood hfine
        intro hnew hdestination
        simpa [routesIntact, hposition, answers, henabled, hnew, hdestination] using hguard
    | routeReply message => exact keeps_handleRouteReply hgood hfine
    | routing message => exact keeps_handleRoutingMessage hgood
  · exact ⟨hgood, by simp, by simp⟩

/-- In every run in which `send` meets no entry without hops and no destination
answers a request with a full path, every transmission of `send` along an entry
of the routing table is along a list of at least two nodes that starts at the
node and ends at the destination, and the index it sends with is inside. -/
theorem routes_valid (config : Config) (hears : Node → Node → Prop) [DecidableRel hears]
    (operations : List (Op Node (Input Node)))
    (world : World Node (DsrRouting Node) (Message Node) (Report Node))
    (hrun : Transition.Run
      (Transition.Guarded (fun before op => routesIntact config before op = true)
        (Transition.stepOf (perform (dsrProtocol config) hears)))
      (.initial (dsrProtocol config)) operations world)
    (node destination : Node) (path : List Node) (pathIdx : UInt8)
    (hsent : (node, Report.transmitted destination path pathIdx) ∈ world.log) :
    2 ≤ path.length ∧ path.head? = some node ∧ path.getLast? = some destination ∧
      pathIdx.toNat < path.length := by
  have hlocal : Local Good (Fine config) SoundReport world := by
    apply Local.holds_run _ _ _ hrun
    · intro node destination value hfound
      simp [dsrProtocol, construct] at hfound
    · intro before node input result hguard hgood hinput
      exact keeps_input hguard hgood hinput
    · intro before node position packet hguard hposition hfine hgood
      exact keeps_receive hguard hposition hfine hgood
  have hsound : IsRoute node destination path ∧ pathIdx.toNat < path.length :=
    hlocal.log _ hsent
  exact ⟨hsound.1.1, hsound.1.2.1, hsound.1.2.2, hsound.2⟩

/-! ### Runs of three nodes -/

/-- A node finds a route and sends along it. -/
def routeOperations : List (Op (Fin 3) (Input (Fin 3))) :=
  [.input 0 .init, .input 1 .init, .input 0 (.send 1 [7]), .deliver 1 0, .deliver 0 1,
    .input 0 (.send 1 [8])]

theorem routes_valid_three :
    2 ≤ ([0, 1] : List (Fin 3)).length ∧ ([0, 1] : List (Fin 3)).head? = some 0 ∧
      ([0, 1] : List (Fin 3)).getLast? = some 1 ∧
      (1 : UInt8).toNat < ([0, 1] : List (Fin 3)).length :=
  routes_valid threeConfig Apart routeOperations (threeWorld routeOperations)
    (Transition.Run.of_foldlM_guarded rfl) 0 1 [0, 1] 1 (by decide +kernel)

/-- The destination of a request sends to the source of the request. -/
def strayOperations : List (Op (Fin 3) (Input (Fin 3))) :=
  [.input 0 .init, .input 1 .init, .input 0 (.send 1 [7]), .deliver 1 0, .input 1 (.send 0 [8])]

theorem routes_not_valid :
    ¬ ∀ (operations : List (Op (Fin 3) (Input (Fin 3))))
        (world : World (Fin 3) (DsrRouting (Fin 3)) (Message (Fin 3)) (Report (Fin 3))),
      Transition.Run (Transition.stepOf (perform (dsrProtocol threeConfig) Apart))
        (.initial (dsrProtocol threeConfig)) operations world →
      ∀ (node destination : Fin 3) (path : List (Fin 3)) (pathIdx : UInt8),
        (node, Report.transmitted destination path pathIdx) ∈ world.log →
        2 ≤ path.length ∧ path.head? = some node ∧ path.getLast? = some destination ∧
          pathIdx.toNat < path.length := by
  intro hvalid
  have hempty := hvalid strayOperations (threeWorld strayOperations)
    (Transition.Run.of_foldlM rfl) 1 0 [] 1 (by decide +kernel)
  simp at hempty

end Wiselib.Routing.Dsr
