import Wiselib.Library.Run

/-!
# Link sensing of OLSR

A node keeps a link tuple and a neighbour tuple for every node that it has
received a HELLO message from.  `link_sensing` looks up the link tuple of the
sender or makes both tuples, prolongs the times of the link by what the message
says about it, and sets the status of the neighbour.

The lookup returns in the first turn of its loop, so that it finds the first
tuple only.  A sender that has a tuple further back gets a second pair of tuples.

## Strategy

* Times are in parts of 1/256 second, which the time format of the messages has
  as its smallest unit.  A handler reads the clock once.
* `Paired` is the invariant: the two sets list the same addresses, each once.
  A message keeps it when the lookup finds what is there (`lookupRight`).
* The rest of `process_hello` and the other messages leave the two sets alone.
  What stands in the places of the address array that the handler does not fill
  is left to the input, as are the messages that are known already.
-/

namespace Wiselib.Routing.Olsr

open Transition

variable {Node : Type*}

/-- Link types. -/
inductive LinkType
  | unspec
  | asym
  | sym
  | lost
deriving DecidableEq, Repr

/-- The link type in a link code. -/
def LinkType.ofCode (code : UInt8) : LinkType :=
  match code.toNat % 4 with
  | 0 => .unspec
  | 1 => .asym
  | 2 => .sym
  | _ => .lost

/-- Neighbour types: not a neighbour, a symmetric one, a multipoint relay, or
none of these. -/
inductive NeighborType
  | notNeigh
  | symNeigh
  | mprNeigh
  | invalid
deriving DecidableEq, Repr

/-- The neighbour type in a link code. -/
def NeighborType.ofCode (code : UInt8) : NeighborType :=
  match code.toNat / 4 with
  | 0 => .notNeigh
  | 1 => .symNeigh
  | 2 => .mprNeigh
  | _ => .invalid

/-- The status of a neighbour. -/
inductive Status
  | notSym
  | sym
deriving DecidableEq, Repr

/-- `OLSR_link_tuple`. -/
structure LinkTuple (Node : Type*) where
  local_node_addr : Node
  nb_node_addr : Node
  sym_time : ℤ
  asym_time : ℤ
  lost_time : ℤ
  time : ℤ
deriving DecidableEq, Repr

/-- `OLSR_nb_tuple`. -/
structure NbTuple (Node : Type*) where
  nb_node_addr : Node
  status : Status
  willingness : UInt8
deriving DecidableEq, Repr

/-- `OLSR_hello_msg`: a link code and the addresses that `link_sensing` sees. -/
structure HelloMsg (Node : Type*) where
  link_code : UInt8
  nb_addrs : List Node
deriving DecidableEq, Repr

/-- A HELLO message. -/
structure Hello (Node : Type*) where
  originator_addr : Node
  vtime : UInt8
  willingness : UInt8
  hello_msgs : List (HelloMsg Node)
deriving DecidableEq, Repr

/-- The link set and the neighbour set.  `deleted` says that the object has
deleted itself. -/
structure OlsrRouting (Node : Type*) where
  linkset_ : List (LinkTuple Node)
  nbset_ : List (NbTuple Node)
  deleted : Bool
deriving DecidableEq, Repr

/-- A second. -/
def second : ℤ := 256

/-- `OLSR_NEIGHB_HOLD_TIME`. -/
def neighbHoldTime : ℤ := 6 * second

/-- `emf_to_seconds`. -/
def emfToSeconds (olsrFormat : UInt8) : ℤ :=
  (16 + (olsrFormat.toNat / 16 : ℕ)) * 2 ^ (olsrFormat.toNat % 16)

namespace OlsrRouting

variable [DecidableEq Node]

/-! ## The sets -/

/-- `find_link_tuple`, as the position of the tuple.  It decides by the first
tuple.  For an empty set it ends without a value, which is taken for the null
pointer here. -/
def findLinkTuple (nodeAddr : Node) : List (LinkTuple Node) → Option ℕ
  | [] => none
  | tuple :: _ => if tuple.nb_node_addr = nodeAddr then some 0 else none

/-- `find_nb_tuple`. -/
def findNbTuple (nodeAddr : Node) : List (NbTuple Node) → Option (NbTuple Node)
  | [] => none
  | tuple :: rest =>
      if tuple.nb_node_addr = nodeAddr then some tuple else findNbTuple nodeAddr rest

/-- Changing the neighbour tuple that `find_nb_tuple` finds. -/
def changeNbTuple (nodeAddr : Node) (change : NbTuple Node → NbTuple Node) :
    List (NbTuple Node) → List (NbTuple Node)
  | [] => []
  | tuple :: rest =>
      if tuple.nb_node_addr = nodeAddr then change tuple :: rest
      else tuple :: changeNbTuple nodeAddr change rest

/-- `erase_nb_tuple` of what `find_nb_tuple` finds. -/
def eraseNbTuple (nodeAddr : Node) : List (NbTuple Node) → List (NbTuple Node)
  | [] => []
  | tuple :: rest =>
      if tuple.nb_node_addr = nodeAddr then rest else tuple :: eraseNbTuple nodeAddr rest

/-- `add_link_tuple`. -/
def addLinkTuple (now : ℤ) (tuple : LinkTuple Node) (willingness : UInt8)
    (self : OlsrRouting Node) : OlsrRouting Node :=
  { self with
    linkset_ := self.linkset_ ++ [tuple]
    nbset_ := self.nbset_ ++
      [{ nb_node_addr := tuple.nb_node_addr
         status := if tuple.sym_time ≥ now then .sym else .notSym
         willingness := willingness }] }

/-- `rm_link_tuple`. -/
def rmLinkTuple (position : ℕ) (tuple : LinkTuple Node) (self : OlsrRouting Node) :
    OlsrRouting Node :=
  { self with
    linkset_ := self.linkset_.eraseIdx position
    nbset_ := eraseNbTuple tuple.nb_node_addr self.nbset_ }

/-- The status that `updated_link_tuple` computes. -/
def linkStatus (now : ℤ) (tuple : LinkTuple Node) : Status :=
  if tuple.lost_time ≥ now then .notSym
  else if tuple.sym_time ≥ now then .sym
  else .notSym

/-- `updated_link_tuple`. -/
def updatedLinkTuple (now : ℤ) (tuple : LinkTuple Node) (self : OlsrRouting Node) :
    OlsrRouting Node :=
  { self with
    nbset_ := changeNbTuple tuple.nb_node_addr
      (fun nb => { nb with status := linkStatus now tuple }) self.nbset_ }

/-! ## Messages -/

/-- What one part of a message says about the link.  The loop over the addresses
ends at the own one. -/
def senseMsg (id : Node) (now : ℤ) (vtime : UInt8) (sensed : LinkTuple Node × Bool)
    (msg : HelloMsg Node) : LinkTuple Node × Bool :=
  let lt := LinkType.ofCode msg.link_code
  let nt := NeighborType.ofCode msg.link_code
  if (lt = .sym ∧ nt = .notNeigh) ∨ nt = .invalid then sensed
  else if id ∈ msg.nb_addrs then
    if lt = .lost then ({ sensed.1 with sym_time := now - second }, true)
    else if lt = .sym ∨ lt = .asym then
      let symTime := now + emfToSeconds vtime
      ({ sensed.1 with
          sym_time := symTime
          time := symTime + neighbHoldTime
          lost_time := 0 }, true)
    else sensed
  else sensed

/-- A new link tuple. -/
def newLinkTuple (id sender : Node) (now : ℤ) (vtime : UInt8) : LinkTuple Node where
  local_node_addr := id
  nb_node_addr := sender
  sym_time := now - second
  asym_time := 0
  lost_time := 0
  time := now + emfToSeconds vtime

/-- The link tuple after the message, and whether it was updated. -/
def sense (id : Node) (now : ℤ) (hello : Hello Node) (tuple : LinkTuple Node) (updated : Bool) :
    LinkTuple Node × Bool :=
  let asymTime := now + emfToSeconds hello.vtime
  let sensed := hello.hello_msgs.foldl (senseMsg id now hello.vtime)
    ({ tuple with asym_time := asymTime }, updated)
  ({ sensed.1 with time := max sensed.1.time sensed.1.asym_time }, sensed.2)

/-- `timer_expire_link_tuple`. -/
def timerExpireLinkTuple (now : ℤ) (position : ℕ) (tuple : LinkTuple Node)
    (self : OlsrRouting Node) : OlsrRouting Node :=
  if tuple.time < now then { self.rmLinkTuple position tuple with deleted := true }
  else if tuple.sym_time < now then self.updatedLinkTuple now tuple
  else self

/-- The second half of `link_sensing`, for the tuple at a position. -/
def senseLink (id : Node) (now : ℤ) (hello : Hello Node) (position : ℕ)
    (tuple : LinkTuple Node) (updated : Bool) (self : OlsrRouting Node) : OlsrRouting Node :=
  let sensed := sense id now hello tuple updated
  let written := { self with linkset_ := self.linkset_.set position sensed.1 }
  let told := if sensed.2 then written.updatedLinkTuple now sensed.1 else written
  told.timerExpireLinkTuple now position sensed.1

/-- `link_sensing`. -/
def linkSensing (id : Node) (now : ℤ) (hello : Hello Node) (sender : Node)
    (self : OlsrRouting Node) : OlsrRouting Node :=
  match findLinkTuple sender self.linkset_ with
  | none =>
      let tuple := newLinkTuple id sender now hello.vtime
      (self.addLinkTuple now tuple hello.willingness).senseLink id now hello
        self.linkset_.length tuple false
  | some position =>
      match self.linkset_[position]? with
      | some tuple => self.senseLink id now hello position tuple true
      | none => self

/-- `populate_nbset`. -/
def populateNbset (hello : Hello Node) (self : OlsrRouting Node) : OlsrRouting Node :=
  { self with
    nbset_ := changeNbTuple hello.originator_addr
      (fun nb => { nb with willingness := hello.willingness }) self.nbset_ }

/-- `process_hello`, as far as it concerns the two sets. -/
def processHello (id : Node) (now : ℤ) (hello : Hello Node) (sender : Node)
    (self : OlsrRouting Node) : OlsrRouting Node :=
  (self.linkSensing id now hello sender).populateNbset hello

end OlsrRouting

/-- A HELLO message is received.  `duplicated` says that there is a duplicate
tuple for it. -/
structure Reception (Node : Type*) where
  now : ℤ
  sender : Node
  hello : Hello Node
  duplicated : Bool
deriving DecidableEq, Repr

/-- `receive` of a HELLO message.  There is no step after the object has deleted
itself. -/
def receive [DecidableEq Node] (id : Node) (state : OlsrRouting Node)
    (reception : Reception Node) : Option (OlsrRouting Node) :=
  if state.deleted then none
  else if reception.sender = id ∨ reception.duplicated = true then some state
  else some (state.processHello id reception.now reception.hello reception.sender)

/-- Before anything was received. -/
def initial : OlsrRouting Node where
  linkset_ := []
  nbset_ := []
  deleted := false

end Wiselib.Routing.Olsr
