import Wiselib.Library.Network
import Wiselib.Routing.RoutingTable

/-!
# AODV and DYMO routing

A node that has no route to a destination floods a route request.  Every node
that handles a request stores a route back to its source, through the neighbour
it has the request from.  The destination, or a node that has a route to it,
answers with a route reply, which travels back along the stored routes, and
every node it passes stores a route to the source of the reply.

`AODVRouting` and `DYMORouting` have the same handlers.  They differ in where
they remember requests, a list without a bound or one of ten places, and in the
type of data messages, which DYMO does not recognise when it receives it.

## Strategy

* Ids have 16 bits in messages and 8 bits in the places that are declared
  narrower: the next hop of a table entry, the source of a remembered request
  and the key of a pending message.
* `entry`, `touch` and `store` are the three uses of `operator[]` of the routing
  table: it makes a missing entry, and gives out a dummy when the table is full.
  The other maps are functions, as a missing entry reads as zero.  A full
  `MapStaticVector` ends the program in an assertion; a node that has stopped
  is one that nothing is delivered to any more.
* Three things are observed and not computed with: the number of a message
  among all that its source has made and the way it has come (`Origin`), the
  destination of the request that a reply answers (`requested`), and what a node
  knows of the origin of the last route it took (`learned`).
* Beacons, the neighbours they announce and the retry times of pending messages
  have no part in routing.  Which pending messages a timer removes is left to
  the input.
-/

namespace Wiselib.Routing.Aodv

open Network

/-- Which of the two classes runs. -/
inductive Variant
  | aodv
  | dymo
deriving DecidableEq, Repr

/-- `RoutingTableValue`. -/
structure RoutingTableValue where
  destination : UInt8
  hop_cnt : UInt8
  next_hop : UInt8
  dest_seq : UInt16
  lifetime : UInt16
deriving DecidableEq, Repr

/-- The value of an entry that `operator[]` makes. -/
def RoutingTableValue.zero : RoutingTableValue where
  destination := 0
  hop_cnt := 0
  next_hop := 0
  dest_seq := 0
  lifetime := 0

/-- What the instantiation fixes: the class, the size of the routing table, and
what its dummy holds before anything is written to it. -/
structure Config where
  variant : Variant
  tableSize : ℕ
  dummy : RoutingTableValue

/-- `ROUTE_TIMEOUT`. -/
def routeTimeout : UInt16 := 20

/-- Where a request or a reply comes from: how many messages its source had made
before it, and how often it has been passed on. -/
structure Origin where
  serial : ℕ
  travelled : ℕ
deriving DecidableEq, Repr

/-- The origin of a message that is passed on. -/
def Origin.passedOn (origin : Origin) : Origin :=
  { origin with travelled := origin.travelled + 1 }

/-- `RouteDiscoveryMessage`.  The last two fields are observed only. -/
structure RouteDiscoveryMessage where
  bcast_id : UInt8
  hop_cnt : UInt8
  source_sequence_nr : UInt16
  destination_sequence_nr : UInt16
  source : UInt16
  destination : UInt16
  origin : Origin
  requested : UInt16
deriving DecidableEq, Repr

/-- The messages between nodes. -/
inductive Message
  | rreq (message : RouteDiscoveryMessage)
  | rrep (message : RouteDiscoveryMessage)
  | data (message : RouteDiscoveryMessage)
deriving DecidableEq, Repr

/-- What a node does with a request that it does not drop. -/
inductive Outcome
  | answered
  | forwarded
deriving DecidableEq, Repr

/-- A node started a route discovery, or it answered or forwarded a request. -/
inductive Report
  | discovery (destination : UInt16)
  | request (source : UInt16) (bcastId : UInt8) (outcome : Outcome)
deriving DecidableEq, Repr

/-- What happens at a node by itself.  `expired` are the destinations whose
pending messages are removed. -/
inductive Input
  | enableRadio
  | send (destination : UInt16)
  | timerElapsed (expired : List UInt8)
deriving DecidableEq, Repr

/-- `rreq_info`. -/
structure RreqInfo where
  source : UInt8
  bcast_id : UInt8
deriving DecidableEq, Repr

/-- What a node keeps.  `dummy_` belongs to the routing table, and `enabled` says
that `enable_radio` has registered the receive callback.  The last two fields are
observed only. -/
structure AodvRouting where
  my_seq_nr_ : UInt16
  my_bcast_id_ : UInt16
  seq_numbers_ : UInt16 → UInt16
  pending_msgs_ : UInt8 → Option RouteDiscoveryMessage
  received_rreq_ : List RreqInfo
  routing_table_ : RoutingTable UInt16 RoutingTableValue
  dummy_ : RoutingTableValue
  enabled : Bool
  made : ℕ
  learned : UInt16 → Option Origin

/-! ## The routing table -/

namespace AodvRouting

variable (config : Config)

/-- `route_exists`. -/
def routeExists (destination : UInt16) (self : AodvRouting) : Bool :=
  (self.routing_table_.find destination).isSome

/-- The table has the key or a place for it. -/
def hasPlace (key : UInt16) (self : AodvRouting) : Bool :=
  self.routeExists key || decide (self.routing_table_.length < config.tableSize)

/-- The value of `routing_table_[key]`. -/
def entry (key : UInt16) (self : AodvRouting) : RoutingTableValue :=
  match self.routing_table_.find key with
  | some value => value
  | none =>
      if self.routing_table_.length < config.tableSize then .zero else self.dummy_

/-- `routing_table_[key] = value`. -/
def store (key : UInt16) (value : RoutingTableValue) (self : AodvRouting) : AodvRouting :=
  if self.hasPlace config key then
    { self with routing_table_ := self.routing_table_.assign config.tableSize key value }
  else { self with dummy_ := value }

/-- Evaluating `routing_table_[key]`, which makes the entry if it is missing. -/
def touch (key : UInt16) (self : AodvRouting) : AodvRouting :=
  if self.routeExists key then self
  else
    { self with
      routing_table_ := self.routing_table_.assign config.tableSize key .zero }

/-- `routing_table_[key].lifetime = ROUTE_TIMEOUT`. -/
def refresh (key : UInt16) (self : AodvRouting) : AodvRouting :=
  self.store config key { self.entry config key with lifetime := routeTimeout }

section Table

variable {config} {key other : UInt16} {value : RoutingTableValue} {self : AodvRouting}

@[simp] theorem store_received_rreq_ :
    (self.store config key value).received_rreq_ = self.received_rreq_ := by
  unfold store
  split
  · rfl
  · rfl

@[simp] theorem store_learned : (self.store config key value).learned = self.learned := by
  unfold store
  split
  · rfl
  · rfl

@[simp] theorem touch_received_rreq_ :
    (self.touch config key).received_rreq_ = self.received_rreq_ := by
  unfold touch
  split
  · rfl
  · rfl

@[simp] theorem touch_learned : (self.touch config key).learned = self.learned := by
  unfold touch
  split
  · rfl
  · rfl

@[simp] theorem refresh_received_rreq_ :
    (self.refresh config key).received_rreq_ = self.received_rreq_ :=
  store_received_rreq_

@[simp] theorem refresh_learned : (self.refresh config key).learned = self.learned :=
  store_learned

theorem hasPlace_of_routeExists (hexists : self.routeExists key = true) :
    self.hasPlace config key = true := by
  simp [hasPlace, hexists]

theorem routeExists_assign (hplace : self.hasPlace config key = true) :
    ((self.routing_table_.assign config.tableSize key value).find other).isSome =
      (self.routeExists other || other == key) := by
  by_cases hother : other = key
  · subst hother
    by_cases hexists : (self.routing_table_.find other).isSome
    · simp [RoutingTable.find_assign_present hexists]
    · have hroom : self.routing_table_.length < config.tableSize := by
        simpa [hasPlace, routeExists, hexists] using hplace
      simp [RoutingTable.find_assign_absent (by simpa using hexists) hroom]
  · rw [RoutingTable.find_assign_other hother]
    simp [routeExists, hother]

/-- After a value was stored there is an entry for its key if there was a place
for it. -/
theorem routeExists_store :
    (self.store config key value).routeExists other =
      (self.routeExists other || (other == key && self.hasPlace config key)) := by
  unfold store
  split
  · rename_i hplace
    rw [hplace, Bool.and_true]
    exact routeExists_assign hplace
  · rename_i hplace
    have hnone : self.hasPlace config key = false := by simpa using hplace
    rw [hnone, Bool.and_false, Bool.or_false]
    rfl

theorem routeExists_touch :
    (self.touch config key).routeExists other =
      (self.routeExists other || (other == key && self.hasPlace config key)) := by
  unfold touch
  split
  · rename_i hexists
    by_cases hother : other = key
    · simp [hother, hexists]
    · simp [hother]
  · rename_i habsent
    by_cases hplace : self.hasPlace config key = true
    · rw [hplace, Bool.and_true]
      exact routeExists_assign hplace
    · -- the table is full and stays as it is
      have hboth : (self.routing_table_.find key).isSome = false ∧
          config.tableSize ≤ self.routing_table_.length := by
        simpa [hasPlace, routeExists] using hplace
      have hnone : self.hasPlace config key = false := by simpa using hplace
      rw [hnone, Bool.and_false, Bool.or_false]
      simp only [routeExists]
      rw [RoutingTable.assign_full (by simpa using hboth.1) hboth.2]

theorem hasPlace_store :
    (self.store config key value).hasPlace config key = self.hasPlace config key := by
  by_cases hplace : self.hasPlace config key = true
  · rw [hplace]
    apply hasPlace_of_routeExists
    rw [routeExists_store]
    simp [hplace]
  · rw [store, if_neg hplace]
    rfl

end Table

/-! ## Handlers -/

/-- A request is compared with a remembered one. -/
def matchesRreq (message : RouteDiscoveryMessage) (info : RreqInfo) : Bool :=
  info.source.toUInt16 == message.source && info.bcast_id == message.bcast_id

/-- The request is among the remembered ones. -/
def remembers (message : RouteDiscoveryMessage) (self : AodvRouting) : Bool :=
  self.received_rreq_.any (matchesRreq message)

/-- `received_rreq_.push_back` has room. -/
def canRemember (self : AodvRouting) : Bool :=
  match config.variant with
  | .aodv => true
  | .dymo => decide (self.received_rreq_.length < 10)

/-- `received_rreq_.push_back`. -/
def remember (source : UInt16) (bcastId : UInt8) (self : AodvRouting) : AodvRouting :=
  if self.canRemember config then
    { self with received_rreq_ := self.received_rreq_ ++ [⟨source.toUInt8, bcastId⟩] }
  else self

/-- Records the highest sequence number of the source. -/
def recordSeq (message : RouteDiscoveryMessage) (self : AodvRouting) : AodvRouting :=
  if self.seq_numbers_ message.source < message.source_sequence_nr then
    { self with
      seq_numbers_ :=
        Function.update self.seq_numbers_ message.source message.source_sequence_nr }
  else self

/-- The route to the source of the message through a neighbour. -/
def route (sender : UInt16) (message : RouteDiscoveryMessage) (destSeq : UInt16) :
    RoutingTableValue where
  destination := message.source.toUInt8
  next_hop := sender.toUInt8
  hop_cnt := message.hop_cnt + 1
  dest_seq := destSeq
  lifetime := routeTimeout

/-- Stores a route to the source of the message. -/
def takeRoute (sender : UInt16) (message : RouteDiscoveryMessage) (destSeq : UInt16)
    (self : AodvRouting) : AodvRouting :=
  let stored := self.store config message.source (route sender message destSeq)
  { stored with learned := Function.update stored.learned message.source (some message.origin) }

/-- `check_pending_messages`: a pending message is sent, and stays pending. -/
def checkPendingMessages (destination : UInt16) (self : AodvRouting) :
    AodvRouting × List (Option UInt16 × Message) :=
  match self.pending_msgs_ destination.toUInt8 with
  | some message =>
      (self.refresh config destination,
        [(some (self.entry config destination).next_hop.toUInt16, .data message)])
  | none => (self, [])

/-- `send`. -/
def send (id destination : UInt16) (self : AodvRouting) :
    AodvRouting × Effects UInt16 Message Report :=
  let message : RouteDiscoveryMessage :=
    { bcast_id := 0
      hop_cnt := 0
      source_sequence_nr := 0
      destination_sequence_nr := self.seq_numbers_ destination
      source := id
      destination := destination
      origin := ⟨0, 0⟩
      requested := destination }
  if self.routeExists destination then
    (self.refresh config destination,
      .send (some (self.entry config destination).next_hop.toUInt16) (.data message))
  else
    let request : RouteDiscoveryMessage :=
      { bcast_id := (self.my_bcast_id_ + 1).toUInt8
        hop_cnt := 0
        source_sequence_nr := self.my_seq_nr_ + 1
        destination_sequence_nr := self.seq_numbers_ destination
        source := id
        destination := destination
        origin := ⟨self.made, 0⟩
        requested := destination }
    let started : AodvRouting :=
      { self with
        pending_msgs_ := Function.update self.pending_msgs_ destination.toUInt8 (some message)
        my_bcast_id_ := self.my_bcast_id_ + 1
        my_seq_nr_ := self.my_seq_nr_ + 1
        made := self.made + 1 }
    (started.remember config id (self.my_bcast_id_ + 1).toUInt8,
      { sends := [(none, .rreq request)], reports := [.discovery destination] })

/-- `proc_data`. -/
def procData (id : UInt16) (message : RouteDiscoveryMessage) (self : AodvRouting) :
    AodvRouting × Effects UInt16 Message Report :=
  if message.destination = id then (self, .none)
  else if self.routeExists message.destination then
    (self.refresh config message.destination,
      .send (some (self.entry config message.destination).next_hop.toUInt16) (.data message))
  else (self, .none)

/-- The first half of `proc_rreq`: what is stored of a new request, with the
pending messages that are sent. -/
def acceptRreq (sender : UInt16) (message : RouteDiscoveryMessage) (self : AodvRouting) :
    AodvRouting × List (Option UInt16 × Message) :=
  let remembered := (self.recordSeq message).remember config message.source message.bcast_id
  (remembered.takeRoute config sender message message.destination_sequence_nr).checkPendingMessages
    config message.source

/-- The reply of a node that has a route to the destination. -/
def intermediateReply (id : UInt16) (message : RouteDiscoveryMessage) (hopCnt : UInt8)
    (self : AodvRouting) : RouteDiscoveryMessage where
  bcast_id := 0
  hop_cnt := hopCnt
  source_sequence_nr := self.seq_numbers_ message.source
  destination_sequence_nr := 0
  source := id
  destination := message.source
  origin := ⟨self.made, 0⟩
  requested := message.destination

/-- The reply of the destination. -/
def destinationReply (id : UInt16) (message : RouteDiscoveryMessage) (self : AodvRouting) :
    RouteDiscoveryMessage where
  bcast_id := 0
  hop_cnt := 0
  source_sequence_nr := self.my_seq_nr_ + 1
  destination_sequence_nr := self.seq_numbers_ message.source
  source := id
  destination := message.source
  origin := ⟨self.made, 0⟩
  requested := message.destination

/-- The request or reply that is passed on, with the hop count and the numbers
of this node. -/
def passOn (message : RouteDiscoveryMessage) (self : AodvRouting) : RouteDiscoveryMessage :=
  { message with
    hop_cnt := message.hop_cnt + 1
    source_sequence_nr := self.my_seq_nr_
    destination_sequence_nr := self.seq_numbers_ message.source
    origin := message.origin.passedOn }

/-- The second half of `proc_rreq`: a new request is answered or broadcast. -/
def respond (id sender : UInt16) (message : RouteDiscoveryMessage) (self : AodvRouting) :
    AodvRouting × List (Option UInt16 × Message) × Outcome :=
  match self.routing_table_.find message.destination with
  | some value =>
      ({ self with made := self.made + 1 },
        [(some sender, .rrep (self.intermediateReply id message value.hop_cnt))], .answered)
  | none =>
      if message.destination = id then
        ({ self with my_seq_nr_ := self.my_seq_nr_ + 1, made := self.made + 1 },
          [(some sender, .rrep (self.destinationReply id message))], .answered)
      else (self, [(none, .rreq (self.passOn message))], .forwarded)

/-- `proc_rreq`. -/
def procRreq (id sender : UInt16) (message : RouteDiscoveryMessage) (self : AodvRouting) :
    AodvRouting × Effects UInt16 Message Report :=
  if self.remembers message then (self, .none)
  else
    let accepted := self.acceptRreq config sender message
    let answer := accepted.1.respond id sender message
    (answer.1,
      { sends := accepted.2 ++ answer.2.1
        reports := [.request message.source message.bcast_id answer.2.2] })

/-- The condition under which `proc_rrep` stores a route.  It looks at the entry
for the node that asked, not at the one for the source of the reply. -/
def takesReply (message : RouteDiscoveryMessage) (self : AodvRouting) : Bool :=
  let asked := self.entry config message.destination
  !self.routeExists message.source ||
    decide (asked.dest_seq < message.destination_sequence_nr) ||
    (decide (message.hop_cnt < asked.hop_cnt) &&
      decide (asked.dest_seq < message.destination_sequence_nr))

/-- The first half of `proc_rrep`: the route is stored if the condition holds.
Evaluating the condition makes an entry for the node that asked, unless there is
no route to the source of the reply. -/
def acceptRrep (sender : UInt16) (message : RouteDiscoveryMessage) (self : AodvRouting) :
    AodvRouting × List (Option UInt16 × Message) :=
  let recorded := self.recordSeq message
  let looked :=
    if recorded.routeExists message.source then recorded.touch config message.destination
    else recorded
  if recorded.takesReply config message then
    (looked.takeRoute config sender message
      (looked.seq_numbers_ message.destination)).checkPendingMessages config message.source
  else (looked, [])

/-- `proc_rrep`. -/
def procRrep (id sender : UInt16) (message : RouteDiscoveryMessage) (self : AodvRouting) :
    AodvRouting × Effects UInt16 Message Report :=
  let accepted := self.acceptRrep config sender message
  if message.destination = id then (accepted.1, { sends := accepted.2, reports := [] })
  else
    let next := (accepted.1.entry config message.destination).next_hop.toUInt16
    (accepted.1.touch config message.destination,
      { sends := accepted.2 ++ [(some next, .rrep (accepted.1.passOn message))]
        reports := [] })

/-- `receive` handles the frame. -/
def handles (id sender : UInt16) (self : AodvRouting) : Bool :=
  self.enabled && sender != id

/-- `receive` at the node `id`. -/
def receive (id sender : UInt16) (message : Message) (self : AodvRouting) :
    AodvRouting × Effects UInt16 Message Report :=
  if self.handles id sender then
    match message with
    | .rreq message => self.procRreq config id sender message
    | .rrep message => self.procRrep config id sender message
    | .data message =>
        match config.variant with
        | .aodv => self.procData config id message
        | .dymo => (self, .none)
  else (self, .none)

/-- `table_cleanup`: lifetimes count down until an entry is found whose lifetime
is over.  That one is removed, and the rest waits for the next time. -/
def tableCleanup :
    RoutingTable UInt16 RoutingTableValue → RoutingTable UInt16 RoutingTableValue
  | [] => []
  | (key, value) :: rest =>
      -- where this was the last entry, the iterator is now behind the table and not stopped
      if value.lifetime = 0 then rest
      else (key, { value with lifetime := value.lifetime - 1 }) :: tableCleanup rest

/-- The inputs. -/
def input (id : UInt16) (self : AodvRouting) :
    Input → Option (AodvRouting × Effects UInt16 Message Report)
  | .enableRadio => some ({ self with my_seq_nr_ := 0, my_bcast_id_ := 0, enabled := true }, .none)
  | .send destination => some (self.send config id destination)
  | .timerElapsed expired =>
      if self.enabled then
        some
          ({ self with
              routing_table_ := tableCleanup self.routing_table_
              pending_msgs_ := fun key =>
                if key ∈ expired then none else self.pending_msgs_ key }, .none)
      else none

section Frame

variable {config} {id sender destination destSeq : UInt16} {message : RouteDiscoveryMessage}
  {self : AodvRouting}

@[simp] theorem recordSeq_received_rreq_ :
    (self.recordSeq message).received_rreq_ = self.received_rreq_ := by
  unfold recordSeq
  split
  · rfl
  · rfl

@[simp] theorem recordSeq_learned : (self.recordSeq message).learned = self.learned := by
  unfold recordSeq
  split
  · rfl
  · rfl

@[simp] theorem recordSeq_routing_table_ :
    (self.recordSeq message).routing_table_ = self.routing_table_ := by
  unfold recordSeq
  split
  · rfl
  · rfl

@[simp] theorem remember_learned {bcastId : UInt8} :
    (self.remember config destination bcastId).learned = self.learned := by
  unfold remember
  split
  · rfl
  · rfl

@[simp] theorem remember_routing_table_ {bcastId : UInt8} :
    (self.remember config destination bcastId).routing_table_ = self.routing_table_ := by
  unfold remember
  split
  · rfl
  · rfl

@[simp] theorem takeRoute_received_rreq_ :
    (self.takeRoute config sender message destSeq).received_rreq_ = self.received_rreq_ :=
  store_received_rreq_

@[simp] theorem takeRoute_learned :
    (self.takeRoute config sender message destSeq).learned =
      Function.update self.learned message.source (some message.origin) := by
  simp [takeRoute]

@[simp] theorem checkPendingMessages_received_rreq_ :
    (self.checkPendingMessages config destination).1.received_rreq_ = self.received_rreq_ := by
  unfold checkPendingMessages
  split
  · simp
  · rfl

@[simp] theorem checkPendingMessages_learned :
    (self.checkPendingMessages config destination).1.learned = self.learned := by
  unfold checkPendingMessages
  split
  · simp
  · rfl

theorem checkPendingMessages_sends {receiver : Option UInt16} {frame : Message}
    (hsend : (receiver, frame) ∈ (self.checkPendingMessages config destination).2) :
    ∃ waiting, frame = .data waiting := by
  unfold checkPendingMessages at hsend
  split at hsend
  · rename_i waiting _
    obtain ⟨-, rfl⟩ := Prod.mk.inj (List.mem_singleton.1 hsend)
    exact ⟨waiting, rfl⟩
  · simp at hsend

@[simp] theorem respond_received_rreq_ :
    (self.respond id sender message).1.received_rreq_ = self.received_rreq_ := by
  unfold respond
  split
  · rfl
  · split
    · rfl
    · rfl

@[simp] theorem respond_learned :
    (self.respond id sender message).1.learned = self.learned := by
  unfold respond
  split
  · rfl
  · split
    · rfl
    · rfl

@[simp] theorem respond_routing_table_ :
    (self.respond id sender message).1.routing_table_ = self.routing_table_ := by
  unfold respond
  split
  · rfl
  · split
    · rfl
    · rfl

end Frame

/-! ## Frames -/

/-- The frames that a handler of the node `id` sends: data, the request of a new
discovery, a request or a reply that was received and is passed on, and the
reply to a request that was received. -/
inductive Sent (id : UInt16) (state : AodvRouting) (received : Option Message)
    (reports : List Report) : Message → Prop
  | data (message : RouteDiscoveryMessage) : Sent id state received reports (.data message)
  | discovery (message : RouteDiscoveryMessage) (hsource : message.source = id)
      (hreported : .discovery message.destination ∈ reports) :
      Sent id state received reports (.rreq message)
  | forwarded (incoming message : RouteDiscoveryMessage)
      (hreceived : received = some (.rreq incoming)) (hnew : state.remembers incoming = false)
      (hsource : message.source = incoming.source)
      (hdestination : message.destination = incoming.destination)
      (horigin : message.origin = incoming.origin.passedOn) :
      Sent id state received reports (.rreq message)
  | reply (incoming message : RouteDiscoveryMessage)
      (hreceived : received = some (.rreq incoming)) (hsource : message.source = id)
      (hdestination : message.destination = incoming.source)
      (hrequested : message.requested = incoming.destination) :
      Sent id state received reports (.rrep message)
  | passedOn (incoming message : RouteDiscoveryMessage)
      (hreceived : received = some (.rrep incoming)) (hother : incoming.destination ≠ id)
      (hsource : message.source = incoming.source)
      (hdestination : message.destination = incoming.destination)
      (hrequested : message.requested = incoming.requested)
      (horigin : message.origin = incoming.origin.passedOn) :
      Sent id state received reports (.rrep message)

section Sends

variable {config} {id sender : UInt16} {message : RouteDiscoveryMessage} {self state : AodvRouting}
  {receiver : Option UInt16} {frame : Message} {reports : List Report}

theorem sent_send {destination : UInt16}
    (hsend : (receiver, frame) ∈ (self.send config id destination).2.sends) :
    Sent id self none (self.send config id destination).2.reports frame := by
  unfold send at hsend ⊢
  split at hsend
  · obtain ⟨-, rfl⟩ := Prod.mk.inj (List.mem_singleton.1 hsend)
    exact .data _
  · rename_i habsent
    obtain ⟨-, rfl⟩ := Prod.mk.inj (List.mem_singleton.1 hsend)
    rw [if_neg habsent]
    exact .discovery _ rfl (by simp)

theorem sent_respond (hnew : state.remembers message = false)
    (hsend : (receiver, frame) ∈ (self.respond id sender message).2.1) :
    Sent id state (some (.rreq message)) reports frame := by
  unfold respond at hsend
  split at hsend
  · obtain ⟨-, rfl⟩ := Prod.mk.inj (List.mem_singleton.1 hsend)
    exact .reply message _ rfl rfl rfl rfl
  · split at hsend
    · obtain ⟨-, rfl⟩ := Prod.mk.inj (List.mem_singleton.1 hsend)
      exact .reply message _ rfl rfl rfl rfl
    · obtain ⟨-, rfl⟩ := Prod.mk.inj (List.mem_singleton.1 hsend)
      exact .forwarded message _ rfl hnew rfl rfl rfl

theorem sent_procRreq (hsend : (receiver, frame) ∈ (self.procRreq config id sender message).2.sends) :
    Sent id self (some (.rreq message)) reports frame := by
  unfold procRreq at hsend
  split at hsend
  · simp at hsend
  · rename_i hnew
    rcases List.mem_append.1 hsend with hpending | hanswer
    · obtain ⟨waiting, rfl⟩ := checkPendingMessages_sends hpending
      exact .data waiting
    · exact sent_respond (by simpa using hnew) hanswer

theorem acceptRrep_sends (hsend : (receiver, frame) ∈ (self.acceptRrep config sender message).2) :
    ∃ waiting, frame = .data waiting := by
  unfold acceptRrep at hsend
  dsimp only at hsend
  split at hsend
  · exact checkPendingMessages_sends hsend
  · simp at hsend

theorem sent_procRrep (hsend : (receiver, frame) ∈ (self.procRrep config id sender message).2.sends) :
    Sent id self (some (.rrep message)) reports frame := by
  unfold procRrep at hsend
  dsimp only at hsend
  split at hsend
  · obtain ⟨waiting, rfl⟩ := acceptRrep_sends hsend
    exact .data waiting
  · rename_i hother
    rcases List.mem_append.1 hsend with hpending | hreply
    · obtain ⟨waiting, rfl⟩ := acceptRrep_sends hpending
      exact .data waiting
    · obtain ⟨-, rfl⟩ := Prod.mk.inj (List.mem_singleton.1 hreply)
      exact .passedOn message _ rfl hother rfl rfl rfl rfl

theorem sent_procData (hsend : (receiver, frame) ∈ (self.procData config id message).2.sends) :
    ∃ forwarded, frame = .data forwarded := by
  unfold procData at hsend
  split at hsend
  · simp at hsend
  · split at hsend
    · obtain ⟨-, rfl⟩ := Prod.mk.inj (List.mem_singleton.1 hsend)
      exact ⟨message, rfl⟩
    · simp at hsend

theorem sent_receive {received : Message}
    (hsend : (receiver, frame) ∈ (self.receive config id sender received).2.sends) :
    self.handles id sender = true ∧ Sent id self (some received) reports frame := by
  unfold receive at hsend
  split at hsend
  · rename_i hhandles
    refine ⟨hhandles, ?_⟩
    cases received with
    | rreq message => exact sent_procRreq hsend
    | rrep message => exact sent_procRrep hsend
    | data message =>
        dsimp only at hsend
        split at hsend
        · obtain ⟨forwarded, rfl⟩ := sent_procData hsend
          exact .data forwarded
        · simp at hsend
  · simp at hsend

theorem sent_input {input : Input} {result : AodvRouting × Effects UInt16 Message Report}
    (hinput : self.input config id input = some result)
    (hsend : (receiver, frame) ∈ result.2.sends) : Sent id self none result.2.reports frame := by
  cases input with
  | enableRadio =>
      rw [← Option.some.inj hinput] at hsend
      simp at hsend
  | send destination =>
      rw [← Option.some.inj hinput] at hsend ⊢
      exact sent_send hsend
  | timerElapsed expired =>
      simp only [AodvRouting.input] at hinput
      split at hinput
      · rw [← Option.some.inj hinput] at hsend
        simp at hsend
      · simp at hinput

end Sends

end AodvRouting

/-- Constructor. -/
def construct (config : Config) : AodvRouting where
  my_seq_nr_ := 0
  my_bcast_id_ := 0
  seq_numbers_ := fun _ => 0
  pending_msgs_ := fun _ => none
  received_rreq_ := []
  routing_table_ := []
  dummy_ := config.dummy
  enabled := false
  made := 0
  learned := fun _ => none

/-- AODV or DYMO routing. -/
def aodvProtocol (config : Config) : Protocol UInt16 AodvRouting Message Input Report where
  start _ := construct config
  input id state input := state.input config id input
  receive id state sender message := state.receive config id sender message

/-! ### A few nodes -/

/-- Any two nodes hear each other. -/
def Apart (first second : UInt16) : Prop := first ≠ second

instance : DecidableRel Apart := fun first second =>
  inferInstanceAs (Decidable (first ≠ second))

/-- A routing table of ten entries. -/
def sampleConfig (variant : Variant) : Config where
  variant := variant
  tableSize := 10
  dummy := .zero

/-- Where some operations lead, or the initial world if they cannot be performed. -/
def sampleWorld (variant : Variant) (operations : List (Op UInt16 Input)) :
    World UInt16 AodvRouting Message Report :=
  (operations.foldlM (perform (aodvProtocol (sampleConfig variant)) Apart)
    (.initial (aodvProtocol (sampleConfig variant)))).getD
      (.initial (aodvProtocol (sampleConfig variant)))

theorem sampleWorld_run {variant : Variant} {operations : List (Op UInt16 Input)}
    (hsome : (operations.foldlM (perform (aodvProtocol (sampleConfig variant)) Apart)
      (.initial (aodvProtocol (sampleConfig variant)))).isSome = true) :
    Transition.Run (Transition.stepOf (perform (aodvProtocol (sampleConfig variant)) Apart))
      (.initial (aodvProtocol (sampleConfig variant))) operations
      (sampleWorld variant operations) := by
  obtain ⟨world, hworld⟩ := Option.isSome_iff_exists.1 hsome
  rw [sampleWorld, hworld]
  exact Transition.Run.of_foldlM hworld

end Wiselib.Routing.Aodv
