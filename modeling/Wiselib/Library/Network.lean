import Wiselib.Library.Run

/-!
# Networks of communicating nodes

A protocol is a state for each node and two handlers: what a node does on an
input of its own (an application call or a timer) and what it does with a frame
it receives.  Both change the state of that one node, send frames and report
events to the application.

Frames that were sent stay in the air until they are lost: a delivery hands any
frame in the air to a node that hears the sender, so that a run may delay and
reorder a frame (it is delivered late), duplicate it (it is delivered again) and
lose it before or after it was delivered.

## Strategy

* `perform_cases` says once what a step can do.
* `Hearsay` is the argument shared by protocols in which a node adopts what
  another one said.  A frame makes claims, and what a claim means is a property
  of the present states of the nodes.  If the nodes only grow in ways that no
  claim suffers from, then in every reachable world all that is in the air and
  all that a node holds is true *now*, however old the frame was
  (`Hearsay.holds_run`).
* The last section turns a measure that falls along hops into paths that never
  revisit a node.
-/

namespace Network

variable {Node State Frame Input Report : Type*}

/-- What a handler does besides changing the state of its node: the frames it
sends, to one receiver or to everybody, and the events it reports. -/
structure Effects (Node Frame Report : Type*) where
  sends : List (Option Node × Frame)
  reports : List Report

/-- No effect. -/
def Effects.none : Effects Node Frame Report where
  sends := []
  reports := []

/-- Sending one frame. -/
def Effects.send (receiver : Option Node) (frame : Frame) : Effects Node Frame Report where
  sends := [(receiver, frame)]
  reports := []

/-- Reporting one event. -/
def Effects.report (event : Report) : Effects Node Frame Report where
  sends := []
  reports := [event]

@[simp] theorem Effects.none_sends :
    (Effects.none : Effects Node Frame Report).sends = [] := rfl

@[simp] theorem Effects.none_reports :
    (Effects.none : Effects Node Frame Report).reports = [] := rfl

@[simp] theorem Effects.send_sends (receiver : Option Node) (frame : Frame) :
    (Effects.send receiver frame : Effects Node Frame Report).sends = [(receiver, frame)] := rfl

@[simp] theorem Effects.send_reports (receiver : Option Node) (frame : Frame) :
    (Effects.send receiver frame : Effects Node Frame Report).reports = [] := rfl

@[simp] theorem Effects.report_sends (event : Report) :
    (Effects.report event : Effects Node Frame Report).sends = [] := rfl

@[simp] theorem Effects.report_reports (event : Report) :
    (Effects.report event : Effects Node Frame Report).reports = [event] := rfl

/-- The handlers of a protocol.  An input that cannot happen in a state has no
result. -/
structure Protocol (Node State Frame Input Report : Type*) where
  start : Node → State
  input : Node → State → Input → Option (State × Effects Node Frame Report)
  receive : Node → State → Node → Frame → State × Effects Node Frame Report

/-- A frame in the air. -/
structure Packet (Node Frame : Type*) where
  sender : Node
  receiver : Option Node
  frame : Frame
deriving DecidableEq, Repr

/-- All nodes, the frames in the air and every event reported, oldest first. -/
structure World (Node State Frame Report : Type*) where
  states : Node → State
  sent : List (Packet Node Frame)
  log : List (Node × Report)

/-- The steps of a network: a node takes an input, or the frame at some position
in the air is delivered to a node or lost. -/
inductive Op (Node Input : Type*)
  | input (node : Node) (input : Input)
  | deliver (node : Node) (position : ℕ)
  | lose (position : ℕ)
deriving DecidableEq, Repr

/-- Before anything has happened. -/
def World.initial (protocol : Protocol Node State Frame Input Report) :
    World Node State Frame Report where
  states := protocol.start
  sent := []
  log := []

variable [DecidableEq Node]

/-- The node takes over the result of a handler. -/
def World.act (world : World Node State Frame Report) (node : Node)
    (result : State × Effects Node Frame Report) : World Node State Frame Report where
  states := Function.update world.states node result.1
  sent := world.sent ++ result.2.sends.map fun send => ⟨node, send.1, send.2⟩
  log := world.log ++ result.2.reports.map fun event => (node, event)

omit [DecidableEq Node] in
/-- A frame is no longer in the air. -/
def World.lose (world : World Node State Frame Report) (position : ℕ) :
    World Node State Frame Report :=
  { world with sent := world.sent.eraseIdx position }

/-- The frame reaches the node: the node hears the sender, and the frame is for
this node or for everybody. -/
def Reaches (hears : Node → Node → Prop) (packet : Packet Node Frame) (node : Node) : Prop :=
  hears node packet.sender ∧ (packet.receiver = none ∨ packet.receiver = some node)

instance (hears : Node → Node → Prop) [DecidableRel hears] (packet : Packet Node Frame)
    (node : Node) : Decidable (Reaches hears packet node) :=
  inferInstanceAs (Decidable (_ ∧ _))

/-- One step of the network. -/
def perform (protocol : Protocol Node State Frame Input Report) (hears : Node → Node → Prop)
    [DecidableRel hears] (world : World Node State Frame Report) :
    Op Node Input → Option (World Node State Frame Report)
  | .input node input => (protocol.input node (world.states node) input).map (world.act node)
  | .deliver node position =>
      match world.sent[position]? with
      | none => none
      | some packet =>
          if Reaches hears packet node then
            some (world.act node
              (protocol.receive node (world.states node) packet.sender packet.frame))
          else none
  | .lose position =>
      if position < world.sent.length then some (world.lose position) else none

/-! ## What a step changes -/

@[simp] theorem World.act_states_self (world : World Node State Frame Report) (node : Node)
    (result : State × Effects Node Frame Report) : (world.act node result).states node = result.1 := by
  simp [World.act]

theorem World.act_states_other (world : World Node State Frame Report) {node other : Node}
    (result : State × Effects Node Frame Report) (hne : other ≠ node) :
    (world.act node result).states other = world.states other :=
  Function.update_of_ne hne _ _

theorem World.mem_act_sent {world : World Node State Frame Report} {node : Node}
    {result : State × Effects Node Frame Report} {packet : Packet Node Frame} :
    packet ∈ (world.act node result).sent ↔
      packet ∈ world.sent ∨
        packet.sender = node ∧ (packet.receiver, packet.frame) ∈ result.2.sends := by
  simp only [World.act, List.mem_append, List.mem_map]
  constructor
  · intro h
    rcases h with hold | ⟨send, hsend, heq⟩
    · exact .inl hold
    · subst heq
      exact .inr ⟨rfl, hsend⟩
  · intro h
    rcases h with hold | ⟨hnode, hsend⟩
    · exact .inl hold
    · subst hnode
      exact .inr ⟨(packet.receiver, packet.frame), hsend, rfl⟩

theorem World.mem_act_log {world : World Node State Frame Report} {node : Node}
    {result : State × Effects Node Frame Report} {entry : Node × Report} :
    entry ∈ (world.act node result).log ↔
      entry ∈ world.log ∨ entry.1 = node ∧ entry.2 ∈ result.2.reports := by
  simp only [World.act, List.mem_append, List.mem_map]
  constructor
  · intro h
    rcases h with hold | ⟨event, hevent, heq⟩
    · exact .inl hold
    · subst heq
      exact .inr ⟨rfl, hevent⟩
  · intro h
    rcases h with hold | ⟨hnode, hevent⟩
    · exact .inl hold
    · subst hnode
      exact .inr ⟨entry.2, hevent, rfl⟩

omit [DecidableEq Node] in
@[simp] theorem World.lose_states (world : World Node State Frame Report) (position : ℕ) :
    (world.lose position).states = world.states := rfl

omit [DecidableEq Node] in
@[simp] theorem World.lose_log (world : World Node State Frame Report) (position : ℕ) :
    (world.lose position).log = world.log := rfl

omit [DecidableEq Node] in
theorem World.mem_of_mem_lose {world : World Node State Frame Report} {position : ℕ}
    {packet : Packet Node Frame} (hpacket : packet ∈ (world.lose position).sent) :
    packet ∈ world.sent :=
  List.mem_of_mem_eraseIdx hpacket

variable {protocol : Protocol Node State Frame Input Report} {hears : Node → Node → Prop}
  [DecidableRel hears]

/-- A step is an input that the node can take, the delivery of a frame in the
air that reaches a node, or the loss of a frame. -/
theorem perform_cases {world next : World Node State Frame Report} {op : Op Node Input}
    (hstep : perform protocol hears world op = some next) :
    (∃ node input result, op = .input node input ∧
        protocol.input node (world.states node) input = some result ∧
        next = world.act node result) ∨
      (∃ node position packet, op = .deliver node position ∧
        world.sent[position]? = some packet ∧ packet ∈ world.sent ∧
        Reaches hears packet node ∧
        next = world.act node
          (protocol.receive node (world.states node) packet.sender packet.frame)) ∨
      ∃ position, op = .lose position ∧ next = world.lose position := by
  cases op with
  | input node input =>
      obtain ⟨result, hresult, hnext⟩ := Option.map_eq_some_iff.1 hstep
      exact .inl ⟨node, input, result, rfl, hresult, hnext.symm⟩
  | deliver node position =>
      simp only [perform] at hstep
      cases hpacket : world.sent[position]? with
      | none => simp [hpacket] at hstep
      | some packet =>
          simp only [hpacket] at hstep
          split at hstep
          · rename_i hreaches
            have hnext := Option.some.inj hstep
            exact .inr (.inl ⟨node, position, packet, rfl, hpacket, List.mem_of_getElem? hpacket,
              hreaches, hnext.symm⟩)
          · simp at hstep
  | lose position =>
      simp only [perform] at hstep
      split at hstep
      · exact .inr (.inr ⟨position, rfl, (Option.some.inj hstep).symm⟩)
      · simp at hstep

/-! ## Properties of single nodes, frames and reports -/

section Local

variable (good : Node → State → Prop) (fine : Frame → Prop) (sound : Node → Report → Prop)

/-- A handler leaves a good state, sends fine frames and makes sound reports. -/
structure Keeps (node : Node) (result : State × Effects Node Frame Report) : Prop where
  state : good node result.1
  frames : ∀ receiver frame, (receiver, frame) ∈ result.2.sends → fine frame
  reports : ∀ event ∈ result.2.reports, sound node event

/-- All nodes are good, all frames are fine and all reports are sound. -/
structure Local (world : World Node State Frame Report) : Prop where
  nodes : ∀ node, good node (world.states node)
  air : ∀ packet ∈ world.sent, fine packet.frame
  log : ∀ entry ∈ world.log, sound entry.1 entry.2

variable {good fine sound}

omit [DecidableRel hears] in
theorem Local.act {world : World Node State Frame Report} (hworld : Local good fine sound world)
    {node : Node} {result : State × Effects Node Frame Report}
    (hresult : Keeps good fine sound node result) :
    Local good fine sound (world.act node result) := by
  constructor
  · intro other
    by_cases hother : other = node
    · subst hother
      rw [World.act_states_self]
      exact hresult.state
    · rw [World.act_states_other _ _ hother]
      exact hworld.nodes other
  · intro packet hpacket
    rcases World.mem_act_sent.1 hpacket with hold | ⟨-, hsend⟩
    · exact hworld.air packet hold
    · exact hresult.frames _ _ hsend
  · intro entry hentry
    rcases World.mem_act_log.1 hentry with hold | ⟨hnode, hreport⟩
    · exact hworld.log entry hold
    · rw [hnode]
      exact hresult.reports _ hreport

omit [DecidableEq Node] [DecidableRel hears] in
theorem Local.lose {world : World Node State Frame Report} (hworld : Local good fine sound world)
    (position : ℕ) : Local good fine sound (world.lose position) where
  nodes := hworld.nodes
  air := fun packet hpacket => hworld.air packet (World.mem_of_mem_lose hpacket)
  log := hworld.log

/-- What every handler keeps under the guard of its step holds in every guarded
run. -/
theorem Local.holds_run {guard : World Node State Frame Report → Op Node Input → Prop}
    (hstart : ∀ node, good node (protocol.start node))
    (hinput : ∀ world node input result, guard world (.input node input) →
      good node (world.states node) →
      protocol.input node (world.states node) input = some result →
      Keeps good fine sound node result)
    (hreceive : ∀ world node position packet, guard world (.deliver node position) →
      world.sent[position]? = some packet → fine packet.frame → good node (world.states node) →
      Keeps good fine sound node
        (protocol.receive node (world.states node) packet.sender packet.frame))
    {operations : List (Op Node Input)} {world : World Node State Frame Report}
    (hrun : Transition.Run (Transition.Guarded guard (Transition.stepOf (perform protocol hears)))
      (.initial protocol) operations world) : Local good fine sound world := by
  have hstep : ∀ before op after, Local good fine sound before →
      Transition.Guarded guard (Transition.stepOf (perform protocol hears)) before op after →
      Local good fine sound after := by
    intro before op after hbefore hop
    obtain ⟨hguard, hperform⟩ := hop
    rcases perform_cases hperform with
      ⟨node, input, result, rfl, hresult, rfl⟩ |
        ⟨node, position, packet, rfl, hposition, hpacket, -, rfl⟩ | ⟨position, -, rfl⟩
    · exact hbefore.act (hinput before node input result hguard (hbefore.nodes node) hresult)
    · exact hbefore.act (hreceive before node position packet hguard hposition
        (hbefore.air packet hpacket) (hbefore.nodes node))
    · exact hbefore.lose position
  apply hrun.invariant hstep
  constructor
  · exact hstart
  · intro packet hpacket
    simp [World.initial] at hpacket
  · intro entry hentry
    simp [World.initial] at hentry

end Local

/-! ## Claims that are vouched for -/

section Hearsay

variable {Claim : Type*} (hears : Node → Node → Prop) (good : Node → State → Prop)
  (makes : Frame → Claim → Prop) (holds : Node → State → Claim → Prop)
  (vouches : (Node → State) → Node → Claim → Prop)

/-- The node hears the sender, and every claim of the frame is vouched for. -/
def Heard (states : Node → State) (node sender : Node) (frame : Frame) : Prop :=
  hears node sender ∧ ∀ claim, makes frame claim → vouches states sender claim

/-- The rules of a protocol whose nodes adopt claims of other nodes.
`makes frame claim` says that the frame makes the claim, `holds node state
claim` that the node would make it now, and `vouches states node claim` what
the claim of the node means in the present states of all nodes.  The states of
a node only grow, which no claim suffers from, and a node that hears a frame
holds on to what it has or to something that follows from the frame. -/
structure Hearsay (protocol : Protocol Node State Frame Input Report)
    (grows : State → State → Prop) : Prop where
  good_start : ∀ node, good node (protocol.start node)
  good_input : ∀ node state input result, good node state →
    protocol.input node state input = some result → good node result.1
  good_receive : ∀ states node sender frame, good node (states node) →
    Heard hears makes vouches states node sender frame →
    good node (protocol.receive node (states node) sender frame).1
  grows_refl : ∀ state, grows state state
  grows_input : ∀ node state input result, good node state →
    protocol.input node state input = some result → grows state result.1
  grows_receive : ∀ states node sender frame, good node (states node) →
    Heard hears makes vouches states node sender frame →
    grows (states node) (protocol.receive node (states node) sender frame).1
  vouches_grows : ∀ states later node claim, (∀ other, grows (states other) (later other)) →
    vouches states node claim → vouches later node claim
  sends_input : ∀ node state input result receiver frame claim, good node state →
    protocol.input node state input = some result →
    (receiver, frame) ∈ result.2.sends → makes frame claim → holds node result.1 claim
  sends_receive : ∀ node state sender received receiver frame claim,
    (receiver, frame) ∈ (protocol.receive node state sender received).2.sends →
    makes frame claim → holds node (protocol.receive node state sender received).1 claim
  holds_start : ∀ node claim, holds node (protocol.start node) claim →
    vouches protocol.start node claim
  holds_input : ∀ states node input result claim, good node (states node) →
    protocol.input node (states node) input = some result → holds node result.1 claim →
    holds node (states node) claim ∨ vouches (Function.update states node result.1) node claim
  holds_receive : ∀ states node sender frame claim, good node (states node) →
    Heard hears makes vouches states node sender frame →
    holds node (protocol.receive node (states node) sender frame).1 claim →
    holds node (states node) claim ∨
      vouches (Function.update states node
        (protocol.receive node (states node) sender frame).1) node claim

/-- Everything in the air and everything a node holds is vouched for now. -/
structure Vouched (world : World Node State Frame Report) : Prop where
  nodes : ∀ node, good node (world.states node)
  air : ∀ packet ∈ world.sent, ∀ claim, makes packet.frame claim →
    vouches world.states packet.sender claim
  own : ∀ node claim, holds node (world.states node) claim → vouches world.states node claim

variable {hears good makes holds vouches} {grows : State → State → Prop}

/-- A handler whose node grows, sends only what it holds and holds only what it
held before or what is vouched for keeps everything vouched for. -/
private theorem Vouched.act {world : World Node State Frame Report}
    (hworld : Vouched good makes holds vouches world)
    (hprotocol : Hearsay hears good makes holds vouches protocol grows) (node : Node)
    (result : State × Effects Node Frame Report) (hgood : good node result.1)
    (hgrows : grows (world.states node) result.1)
    (hsends : ∀ receiver frame claim, (receiver, frame) ∈ result.2.sends → makes frame claim →
      holds node result.1 claim)
    (hholds : ∀ claim, holds node result.1 claim → holds node (world.states node) claim ∨
      vouches (Function.update world.states node result.1) node claim) :
    Vouched good makes holds vouches (world.act node result) := by
  have hlater : ∀ other, grows (world.states other) ((world.act node result).states other) := by
    intro other
    by_cases hother : other = node
    · subst hother
      rw [World.act_states_self]
      exact hgrows
    · rw [World.act_states_other _ _ hother]
      exact hprotocol.grows_refl _
  -- no node takes back what it vouched for
  have hstill : ∀ other claim, vouches world.states other claim →
      vouches (world.act node result).states other claim :=
    fun other claim => hprotocol.vouches_grows _ _ other claim hlater
  have hown : ∀ claim, holds node result.1 claim →
      vouches (world.act node result).states node claim := by
    intro claim hclaim
    rcases hholds claim hclaim with hold | hnew
    · exact hstill node claim (hworld.own node claim hold)
    · exact hnew
  constructor
  · intro other
    by_cases hother : other = node
    · subst hother
      rw [World.act_states_self]
      exact hgood
    · rw [World.act_states_other _ _ hother]
      exact hworld.nodes other
  · intro packet hpacket claim hmakes
    rcases World.mem_act_sent.1 hpacket with hold | ⟨hsender, hsend⟩
    · exact hstill _ _ (hworld.air packet hold claim hmakes)
    · rw [hsender]
      exact hown claim (hsends _ _ claim hsend hmakes)
  · intro other claim hother
    by_cases hself : other = node
    · subst hself
      rw [World.act_states_self] at hother
      exact hown claim hother
    · rw [World.act_states_other _ _ hself] at hother
      exact hstill other claim (hworld.own other claim hother)

variable [DecidableRel hears]

theorem Hearsay.step (hprotocol : Hearsay hears good makes holds vouches protocol grows)
    {world next : World Node State Frame Report} {op : Op Node Input}
    (hworld : Vouched good makes holds vouches world)
    (hstep : perform protocol hears world op = some next) :
    Vouched good makes holds vouches next := by
  rcases perform_cases hstep with
    ⟨node, input, result, -, hresult, rfl⟩ |
      ⟨node, position, packet, -, -, hpacket, hreaches, rfl⟩ | ⟨position, -, rfl⟩
  · have hnode := hworld.nodes node
    apply hworld.act hprotocol
    · exact hprotocol.good_input node _ input result hnode hresult
    · exact hprotocol.grows_input node _ input result hnode hresult
    · intro receiver frame claim
      exact hprotocol.sends_input node _ input result receiver frame claim hnode hresult
    · intro claim
      exact hprotocol.holds_input _ node input result claim hnode hresult
  · have hnode := hworld.nodes node
    have hheard : Heard hears makes vouches world.states node packet.sender packet.frame :=
      ⟨hreaches.1, hworld.air packet hpacket⟩
    apply hworld.act hprotocol
    · exact hprotocol.good_receive _ node _ _ hnode hheard
    · exact hprotocol.grows_receive _ node _ _ hnode hheard
    · intro receiver frame claim
      exact hprotocol.sends_receive node _ _ _ receiver frame claim
    · intro claim
      exact hprotocol.holds_receive _ node _ _ claim hnode hheard
  · exact ⟨hworld.nodes, fun packet hpacket => hworld.air packet (World.mem_of_mem_lose hpacket),
      hworld.own⟩

/-- In every run everything in the air and everything a node holds is vouched
for by the states all nodes are in at that moment. -/
theorem Hearsay.holds_run (hprotocol : Hearsay hears good makes holds vouches protocol grows)
    {operations : List (Op Node Input)} {world : World Node State Frame Report}
    (hrun : Transition.Run (Transition.stepOf (perform protocol hears)) (.initial protocol)
      operations world) : Vouched good makes holds vouches world := by
  apply hrun.invariant (fun _ _ _ hworld hstep => hprotocol.step hworld hstep)
  constructor
  · exact hprotocol.good_start
  · intro packet hpacket
    simp [World.initial] at hpacket
  · exact hprotocol.holds_start

end Hearsay

/-! ## Following next hops -/

section Paths

variable {Place : Type*} {hop : Place → Place → Prop} {measure : Place → ℕ}

theorem nodup_of_falling (hfalls : ∀ first second, hop first second →
      measure second < measure first) {path : List Place} (hpath : path.IsChain hop) :
    path.Nodup := by
  have hfalling : path.IsChain fun first second => measure second < measure first :=
    hpath.imp hfalls
  have : Std.Irrefl fun first second : Place => measure second < measure first :=
    ⟨fun place => Nat.lt_irrefl _⟩
  have : IsTrans Place fun first second => measure second < measure first :=
    ⟨fun _ _ _ hfirst hsecond => hsecond.trans hfirst⟩
  apply (List.isChain_iff_pairwise.1 hfalling).imp
  intro first second hlt heq
  rw [heq] at hlt
  exact Nat.lt_irrefl _ hlt

/-- Where every place of a kind that is no end has a hop to a place of that
kind with a smaller measure, hops lead from any such place to an end. -/
theorem exists_path_to_end {kind ends : Place → Prop}
    (hnext : ∀ place, kind place → ends place ∨
      ∃ next, hop place next ∧ measure next < measure place ∧ kind next) :
    ∀ (bound : ℕ) (place : Place), measure place ≤ bound → kind place →
      ∃ last path, (place :: path).IsChain hop ∧ (place :: path).getLast? = some last ∧
        ends last := by
  intro bound
  induction bound with
  | zero =>
      intro place hbound hkind
      rcases hnext place hkind with hends | ⟨next, -, hlt, -⟩
      · exact ⟨place, [], List.isChain_singleton _, rfl, hends⟩
      · omega
  | succ bound ih =>
      intro place hbound hkind
      rcases hnext place hkind with hends | ⟨next, hhop, hlt, hnextKind⟩
      · exact ⟨place, [], List.isChain_singleton _, rfl, hends⟩
      · obtain ⟨last, path, hpath, hlast, hends⟩ := ih next (by omega) hnextKind
        refine ⟨last, next :: path, hpath.cons_cons hhop, ?_, hends⟩
        rw [List.getLast?_cons_cons]
        exact hlast

end Paths

/-! ## Networks of two, three and four nodes -/

scoped instance twoNodes : NeZero 2 := ⟨two_ne_zero⟩

scoped instance threeNodes : NeZero 3 := ⟨three_ne_zero⟩

scoped instance fourNodes : NeZero 4 := ⟨four_ne_zero⟩

end Network
