import Wiselib.Library.Network
import Wiselib.Routing.RoutingTable

/-!
# DSR routing

A node that has no route to a destination floods a route request.  Every node
that forwards the request appends itself to the path in it, the destination
sends the path back as a route reply, and the source stores it and sends its
message along the path.  Requests are told apart by a sequence number of their
source, and the last number seen of a source is kept in the routing table entry
for the source.

This file models the messages and the handlers of a node.  A path is a vector of
bounded size: what is appended to a full one is lost.  An index behind the path
reads whatever the memory holds, so a frame that is addressed that way may reach
any node (`pathEntry`).
-/

namespace Wiselib.Routing.Dsr

open Network

variable {Node : Type*}

/-- What the instantiation of the templates fixes: the size of a path, which a
message with its size of one byte has room for, and the size of the routing
table. -/
structure Config where
  pathSize : ℕ
  pathSize_lt : pathSize < 256
  tableSize : ℕ

/-- `DsrRoutingTableValue`: a path, the number of hops and the sequence number
of the last request. -/
structure RoutingTableValue (Node : Type*) where
  path : List Node
  hops : UInt8
  seq_nr : UInt16
deriving DecidableEq, Repr

/-- `DsrRouteDiscoveryMessage`, a route request or a route reply. -/
structure RouteDiscoveryMessage (Node : Type*) where
  hops : UInt8
  sequence_nr : UInt16
  source : Node
  destination : Node
  path_idx : UInt8
  entries : List Node
deriving DecidableEq, Repr

/-- `DsrRoutingMessage` in the memory of the node that sends it. -/
structure RoutingMessage (Node : Type*) where
  path_idx : UInt8
  source : Node
  destination : Node
  entries : List Node
  payload : List UInt8
deriving DecidableEq, Repr

/-- A routing message in the air.  `tail` are the bytes behind the path, the
payload size and the payload. -/
structure RoutingFrame (Node : Type*) where
  path_idx : UInt8
  source : Node
  destination : Node
  entries : List Node
  tail : List UInt8
deriving DecidableEq, Repr

/-- The messages between nodes. -/
inductive Message (Node : Type*)
  | routeRequest (message : RouteDiscoveryMessage Node)
  | routeReply (message : RouteDiscoveryMessage Node)
  | routing (message : RoutingFrame Node)
deriving DecidableEq, Repr

/-- What becomes of a route request. -/
inductive Outcome
  | dropped
  | answered
  | rebroadcast
deriving DecidableEq, Repr

/-- What can be observed of a node besides its messages: `send` refused a message,
found a path and sent along it from an index on, or started a route request; a
route request was received; or a message was handed to the application. -/
inductive Report (Node : Type*)
  | errBusy
  | transmitted (destination : Node) (path : List Node) (pathIdx : UInt8)
  | requested (destination : Node) (sequenceNr : UInt16)
  | request (source : Node) (sequenceNr : UInt16) (outcome : Outcome)
  | delivered (source : Node) (tail : List UInt8)
deriving DecidableEq, Repr

/-- What happens at a node by itself. -/
inductive Input (Node : Type*)
  | init
  | send (destination : Node) (data : List UInt8)
deriving DecidableEq, Repr

/-- What a node keeps.  `routing_message_` is `none` while it has no content, and
`enabled` says that `enable_radio` has registered the receive callback. -/
structure DsrRouting (Node : Type*) where
  seq_nr_ : UInt16
  send_in_progress_ : Bool
  routing_table_ : RoutingTable Node (RoutingTableValue Node)
  routing_message_ : Option (RoutingMessage Node)
  enabled : Bool
deriving DecidableEq, Repr

/-! ## Paths -/

/-- `push_back` on a path. -/
def pushBack (config : Config) (node : Node) (path : List Node) : List Node :=
  if path.length < config.pathSize then path ++ [node] else path

/-- `operator[]` on a path, as the address of a frame.  Behind the path it reads
memory that may name any node. -/
def pathEntry (path : List Node) (idx : UInt8) : Option Node :=
  path[idx.toNat]?

/-- The ids that a counter of one byte counts. -/
def counted (path : List Node) : List Node :=
  path.take (path.length % 256)

/-- `set_path` of a route discovery message. -/
def RouteDiscoveryMessage.setPath (path : List Node) (message : RouteDiscoveryMessage Node) :
    RouteDiscoveryMessage Node :=
  { message with entries := counted path }

/-- `path` of a message: as many of its ids as a path holds. -/
def readPath (config : Config) (entries : List Node) : List Node :=
  entries.take config.pathSize

/-- `set_path` of a routing message, which moves the payload behind the path. -/
def RoutingMessage.setPath (path : List Node) (message : RoutingMessage Node) :
    RoutingMessage Node :=
  { message with entries := counted path }

/-- The first `buffer_size()` bytes of a routing message.  The size leaves out
the byte that holds the payload size, so the frame ends one byte early. -/
def RoutingMessage.frame (message : RoutingMessage Node) : Message Node :=
  .routing
    { path_idx := message.path_idx
      source := message.source
      destination := message.destination
      entries := message.entries
      tail := (UInt8.ofNat message.payload.length :: message.payload).take message.payload.length }

/-! ## Handlers -/

variable [DecidableEq Node]

/-- `get_seq_nr`. -/
def DsrRouting.getSeqNr (self : DsrRouting Node) (node : Node) : UInt16 :=
  match self.routing_table_.find node with
  | some value => value.seq_nr
  | none => 0

/-- `update_seq_nr`: an entry that is missing is made without a path. -/
def DsrRouting.updateSeqNr (config : Config) (node : Node) (seqNr : UInt16)
    (self : DsrRouting Node) : DsrRouting Node :=
  let value : RoutingTableValue Node :=
    match self.routing_table_.find node with
    | some value => { value with seq_nr := seqNr }
    | none => { path := [], hops := 0, seq_nr := seqNr }
  { self with routing_table_ := self.routing_table_.assign config.tableSize node value }

/-- `send`. -/
def DsrRouting.send (config : Config) (id destination : Node) (data : List UInt8)
    (self : DsrRouting Node) :
    DsrRouting Node × Effects Node (Message Node) (Report Node) :=
  if self.send_in_progress_ then (self, .report .errBusy)
  else
    let message : RoutingMessage Node :=
      { path_idx := 1
        source := id
        destination := destination
        entries := []
        payload := data.take (data.length % 256) }
    match self.routing_table_.find destination with
    | some value =>
        let message := message.setPath value.path
        ({ self with routing_message_ := some message },
          { sends := [(pathEntry value.path 1, message.frame)]
            reports := [.transmitted destination value.path message.path_idx] })
    | none =>
        let request : RouteDiscoveryMessage Node :=
          { hops := 0
            sequence_nr := self.seq_nr_
            source := id
            destination := destination
            path_idx := 0
            entries := counted (pushBack config id []) }
        ({ self with
            routing_message_ := some message
            send_in_progress_ := true
            seq_nr_ := self.seq_nr_ + 1 },
          { sends := [(none, .routeRequest request)]
            reports := [.requested destination self.seq_nr_] })

/-- `handle_route_request`. -/
def DsrRouting.handleRouteRequest (config : Config) (id : Node)
    (message : RouteDiscoveryMessage Node) (self : DsrRouting Node) :
    DsrRouting Node × Effects Node (Message Node) (Report Node) :=
  if self.getSeqNr message.source ≥ message.sequence_nr then
    (self, .report (.request message.source message.sequence_nr .dropped))
  else
    let updated := self.updateSeqNr config message.source message.sequence_nr
    let path := pushBack config id (readPath config message.entries)
    if message.destination = id then
      let reply := { message with hops := message.hops + 1 }.setPath path
      (updated,
        { sends := [(pathEntry path reply.path_idx, .routeReply reply)]
          reports := [.request message.source message.sequence_nr .answered] })
    else
      let request := { message with
        hops := message.hops + 1
        path_idx := message.path_idx + 1 }.setPath path
      (updated,
        { sends := [(none, .routeRequest request)]
          reports := [.request message.source message.sequence_nr .rebroadcast] })

/-- `handle_route_reply`: the source stores the path and sends the message that
waits for it, every other node passes the reply on. -/
def DsrRouting.handleRouteReply (config : Config) (id : Node)
    (message : RouteDiscoveryMessage Node) (self : DsrRouting Node) :
    DsrRouting Node × Effects Node (Message Node) (Report Node) :=
  let path := readPath config message.entries
  if message.source = id then
    let value : RoutingTableValue Node :=
      { path := path, hops := message.hops, seq_nr := message.sequence_nr }
    let table := self.routing_table_.assign config.tableSize message.destination value
    match self.routing_message_ with
    | some waiting =>
        let waiting := { waiting with path_idx := 1 }.setPath path
        ({ self with
            routing_message_ := some waiting
            routing_table_ := table
            send_in_progress_ := false },
          .send (pathEntry path waiting.path_idx) waiting.frame)
    | none => ({ self with routing_table_ := table, send_in_progress_ := false }, .none)
  else
    let reply := { message with path_idx := message.path_idx - 1 }
    (self, .send (pathEntry path reply.path_idx) (.routeReply reply))

/-- `handle_routing_message`. -/
def DsrRouting.handleRoutingMessage (config : Config) (id : Node) (message : RoutingFrame Node)
    (self : DsrRouting Node) :
    DsrRouting Node × Effects Node (Message Node) (Report Node) :=
  if message.destination = id then (self, .report (.delivered message.source message.tail))
  else
    let forwarded := { message with path_idx := message.path_idx + 1 }
    (self, .send (pathEntry (readPath config message.entries) forwarded.path_idx)
      (.routing forwarded))

/-- `receive` at the node `id`. -/
def DsrRouting.receive (config : Config) (id : Node) (message : Message Node)
    (self : DsrRouting Node) :
    DsrRouting Node × Effects Node (Message Node) (Report Node) :=
  if self.enabled then
    match message with
    | .routeRequest message => self.handleRouteRequest config id message
    | .routeReply message => self.handleRouteReply config id message
    | .routing message => self.handleRoutingMessage config id message
  else (self, .none)

/-- The inputs.  A node is initialised once. -/
def DsrRouting.input (config : Config) (id : Node) (self : DsrRouting Node) :
    Input Node → Option (DsrRouting Node × Effects Node (Message Node) (Report Node))
  | .init =>
      if self.enabled then none
      else
        some
          ({ seq_nr_ := 1
             send_in_progress_ := false
             routing_table_ := []
             routing_message_ := none
             enabled := true }, .none)
  | .send destination data => some (self.send config id destination data)

/-- Constructor. -/
def construct : DsrRouting Node where
  seq_nr_ := 1
  send_in_progress_ := false
  routing_table_ := []
  routing_message_ := none
  enabled := false

/-- DSR routing. -/
def dsrProtocol (config : Config) :
    Protocol Node (DsrRouting Node) (Message Node) (Input Node) (Report Node) where
  start _ := construct
  input node state input := state.input config node input
  receive node state _ message := state.receive config node message

/-! ### Three nodes -/

/-- Any two of the nodes hear each other. -/
def Apart (first second : Fin 3) : Prop := first ≠ second

instance : DecidableRel Apart := fun first second =>
  inferInstanceAs (Decidable (first ≠ second))

/-- Paths of eight nodes and tables of ten entries. -/
def threeConfig : Config where
  pathSize := 8
  pathSize_lt := by decide
  tableSize := 10

/-- Where some operations lead, or the initial world if they cannot be performed. -/
def threeWorld (operations : List (Op (Fin 3) (Input (Fin 3)))) :
    World (Fin 3) (DsrRouting (Fin 3)) (Message (Fin 3)) (Report (Fin 3)) :=
  (operations.foldlM (perform (dsrProtocol threeConfig) Apart)
    (.initial (dsrProtocol threeConfig))).getD (.initial (dsrProtocol threeConfig))

end Wiselib.Routing.Dsr
