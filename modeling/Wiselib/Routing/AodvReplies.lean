import Wiselib.Routing.AodvRouting

/-!
# Route replies of AODV and DYMO

A reply stores a route to the node that made it.  That is the node that was
asked for, if it answers itself, but it is another one if a node on the way
answers.  Then the node that asked has no route after it has processed the
reply, unless it had one before.

## Strategy

* `routeExists_store` and `routeExists_touch` say which entries there are after
  an access to the table, and `routeExists_acceptRrep` collects them for a whole
  reply.
* `Asked` is the invariant that gives the observed field of a reply its meaning:
  every reply in the air answers a request that its receiver has made.
-/

namespace Wiselib.Routing.Aodv

open Network Transition AodvRouting

variable {config : Config} {id sender key other : UInt16}
  {message : RouteDiscoveryMessage} {state : AodvRouting}

/-! ## Which entries there are -/

theorem routeExists_checkPendingMessages {destSeq : UInt16} :
    ((state.takeRoute config sender message destSeq).checkPendingMessages config
        message.source).1.routeExists other =
      (state.routeExists other ||
        (other == message.source && state.hasPlace config message.source)) := by
  have htaken : (state.takeRoute config sender message destSeq).routeExists other =
      (state.routeExists other ||
        (other == message.source && state.hasPlace config message.source)) :=
    routeExists_store
  have hplace : (state.takeRoute config sender message destSeq).hasPlace config message.source =
      state.hasPlace config message.source := hasPlace_store
  unfold AodvRouting.checkPendingMessages
  split
  · rw [AodvRouting.refresh, routeExists_store, htaken, hplace, Bool.or_assoc, Bool.or_self]
  · exact htaken

theorem recordSeq_routeExists : (state.recordSeq message).routeExists other = state.routeExists other := by
  simp [AodvRouting.routeExists]

theorem recordSeq_hasPlace :
    (state.recordSeq message).hasPlace config key = state.hasPlace config key := by
  simp [AodvRouting.hasPlace, AodvRouting.routeExists]

/-- What the first half of `proc_rrep` adds to the table: an entry for the node
that asked if there is a route to the source of the reply, and an entry for this
source if there is none. -/
theorem routeExists_acceptRrep :
    (state.acceptRrep config sender message).1.routeExists other =
      (state.routeExists other ||
        if state.routeExists message.source then
          other == message.destination && state.hasPlace config message.destination
        else other == message.source && state.hasPlace config message.source) := by
  unfold AodvRouting.acceptRrep
  dsimp only
  rw [recordSeq_routeExists]
  by_cases hexists : state.routeExists message.source = true
  · rw [if_pos hexists, if_pos hexists]
    have htouched : ∀ place, ((state.recordSeq message).touch config
        message.destination).routeExists place =
          (state.routeExists place ||
            (place == message.destination && state.hasPlace config message.destination)) := by
      intro place
      rw [routeExists_touch, recordSeq_routeExists, recordSeq_hasPlace]
    split
    · rw [routeExists_checkPendingMessages, htouched]
      -- the entry for the source is already there
      by_cases hother : other = message.source
      · simp [hother, hexists]
      · simp [hother]
    · exact htouched other
  · rw [if_neg hexists, if_neg hexists]
    have htakes : (state.recordSeq message).takesReply config message = true := by
      simp [AodvRouting.takesReply, recordSeq_routeExists, hexists]
    rw [if_pos htakes, routeExists_checkPendingMessages, recordSeq_routeExists,
      recordSeq_hasPlace]

/-- The reply leaves its receiver with a route to the destination it asked for:
it had one, or the table has room and the reply comes from the destination
itself.  A node that asked for itself gets an entry of its own when it has a
route to the source of the reply. -/
def givesRoute (config : Config) (node : UInt16) (message : RouteDiscoveryMessage)
    (state : AodvRouting) : Bool :=
  state.routeExists message.requested ||
    (decide (state.routing_table_.length < config.tableSize) &&
      (message.source == message.requested ||
        (message.requested == node && state.routeExists message.source)))

theorem routeExists_procRrep (hdestination : message.destination = id) :
    (state.procRrep config id sender message).1.routeExists message.requested =
      givesRoute config id message state := by
  unfold AodvRouting.procRrep
  dsimp only
  rw [if_pos hdestination, routeExists_acceptRrep, givesRoute, hdestination]
  cases hknown : state.routeExists message.requested with
  | true => simp
  | false =>
      have hplace : state.hasPlace config message.requested =
          decide (state.routing_table_.length < config.tableSize) := by
        simp [AodvRouting.hasPlace, hknown]
      rw [Bool.false_or, Bool.false_or]
      split
      · rename_i hexists
        -- the source is not the destination that was asked for
        have hne : (message.source == message.requested) = false := by
          apply beq_false_of_ne
          intro heq
          rw [heq, hknown] at hexists
          simp at hexists
        by_cases hself : message.requested = id
        · rw [← hself, hplace]
          simp [hexists]
        · rw [hne, beq_false_of_ne hself]
          simp
      · rename_i habsent
        by_cases hsource : message.source = message.requested
        · rw [hsource, hplace]
          simp
        · rw [beq_false_of_ne hsource, beq_false_of_ne (Ne.symm hsource)]
          simp [habsent]

/-! ## What a reply answers -/

/-- Every request in the air was started by its source, and every reply answers
a request that its receiver has started. -/
structure Asked (world : World UInt16 AodvRouting Message Report) : Prop where
  requests : ∀ packet ∈ world.sent, ∀ message, packet.frame = .rreq message →
    (message.source, .discovery message.destination) ∈ world.log
  replies : ∀ packet ∈ world.sent, ∀ message, packet.frame = .rrep message →
    (message.destination, .discovery message.requested) ∈ world.log

variable {world next : World UInt16 AodvRouting Message Report}

theorem Asked.act (hasked : Asked world) {node : UInt16} {received : Option Message}
    {result : AodvRouting × Effects UInt16 Message Report}
    (hreceived : ∀ frame, received = some frame →
      ∃ packet ∈ world.sent, packet.frame = frame)
    (hsent : ∀ receiver frame, (receiver, frame) ∈ result.2.sends →
      AodvRouting.Sent node (world.states node) received result.2.reports frame) :
    Asked (world.act node result) := by
  have hlog : ∀ entry ∈ world.log, entry ∈ (world.act node result).log :=
    fun entry hentry => World.mem_act_log.2 (.inl hentry)
  constructor
  · intro packet hpacket message hframe
    rcases World.mem_act_sent.1 hpacket with hold | ⟨-, hsend⟩
    · exact hlog _ (hasked.requests packet hold message hframe)
    · have hshape := hsent _ _ hsend
      rw [hframe] at hshape
      cases hshape with
      | discovery _ hsource hreported =>
          exact World.mem_act_log.2 (.inr ⟨hsource, hreported⟩)
      | forwarded incoming _ hincoming _ hsource hdestination _ =>
          obtain ⟨earlier, hearlier, hfrom⟩ := hreceived _ hincoming
          rw [hsource, hdestination]
          exact hlog _ (hasked.requests earlier hearlier incoming hfrom)
  · intro packet hpacket message hframe
    rcases World.mem_act_sent.1 hpacket with hold | ⟨-, hsend⟩
    · exact hlog _ (hasked.replies packet hold message hframe)
    · have hshape := hsent _ _ hsend
      rw [hframe] at hshape
      cases hshape with
      | reply incoming _ hincoming _ hdestination hrequested =>
          obtain ⟨earlier, hearlier, hfrom⟩ := hreceived _ hincoming
          rw [hdestination, hrequested]
          exact hlog _ (hasked.requests earlier hearlier incoming hfrom)
      | passedOn incoming _ hincoming _ _ hdestination hrequested _ =>
          obtain ⟨earlier, hearlier, hfrom⟩ := hreceived _ hincoming
          rw [hdestination, hrequested]
          exact hlog _ (hasked.replies earlier hearlier incoming hfrom)

theorem Asked.step {hears : UInt16 → UInt16 → Prop} [DecidableRel hears] {op : Op UInt16 Input}
    (hasked : Asked world)
    (hstep : stepOf (perform (aodvProtocol config) hears) world op next) : Asked next := by
  rcases perform_cases hstep with
    ⟨node, input, result, -, hresult, rfl⟩ |
      ⟨node, position, packet, -, -, hpacket, -, rfl⟩ | ⟨position, -, rfl⟩
  · have hnone : ∀ frame, (none : Option Message) = some frame →
        ∃ packet ∈ world.sent, packet.frame = frame := by simp
    exact hasked.act hnone fun receiver frame hsend => AodvRouting.sent_input hresult hsend
  · have hsome : ∀ frame, some packet.frame = some frame →
        ∃ earlier ∈ world.sent, earlier.frame = frame := by
      intro frame hframe
      exact ⟨packet, hpacket, Option.some.inj hframe⟩
    exact hasked.act hsome fun receiver frame hsend => (AodvRouting.sent_receive hsend).2
  · exact ⟨fun packet hpacket => hasked.requests packet (World.mem_of_mem_lose hpacket),
      fun packet hpacket => hasked.replies packet (World.mem_of_mem_lose hpacket)⟩

theorem Asked.run {hears : UInt16 → UInt16 → Prop} [DecidableRel hears]
    {operations : List (Op UInt16 Input)}
    (hrun : Run (stepOf (perform (aodvProtocol config) hears)) (.initial (aodvProtocol config))
      operations world) : Asked world := by
  have hstep : ∀ state op after, Asked state →
      stepOf (perform (aodvProtocol config) hears) state op after → Asked after :=
    fun _ _ _ => Asked.step
  apply hrun.invariant hstep
  constructor
  · intro packet hpacket
    simp [World.initial] at hpacket
  · intro packet hpacket
    simp [World.initial] at hpacket

/-- When a node processes a reply in any run, the reply answers a request of
this node, and the node then has a route to the destination of that request just
if `givesRoute`. -/
theorem reply_gives_route {hears : UInt16 → UInt16 → Prop} [DecidableRel hears]
    {operations : List (Op UInt16 Input)}
    (hrun : Run (stepOf (perform (aodvProtocol config) hears)) (.initial (aodvProtocol config))
      operations world)
    {node : UInt16} {position : ℕ} {receiver : Option UInt16}
    (hposition : world.sent[position]? = some ⟨sender, receiver, .rrep message⟩)
    (hdestination : message.destination = node)
    (hhandles : (world.states node).handles node sender = true)
    (hstep : perform (aodvProtocol config) hears world (.deliver node position) = some next) :
    (node, .discovery message.requested) ∈ world.log ∧
      ((next.states node).routeExists message.requested = true ↔
        givesRoute config node message (world.states node) = true) := by
  constructor
  · have hasked := (Asked.run hrun).replies _ (List.mem_of_getElem? hposition) message rfl
    rw [hdestination] at hasked
    exact hasked
  · rcases perform_cases hstep with
      ⟨_, _, _, hop, -⟩ | ⟨_, _, packet, hop, hpacket, -, -, rfl⟩ | ⟨_, hop, -⟩
    · simp at hop
    · obtain ⟨rfl, rfl⟩ := Op.deliver.inj hop
      obtain rfl := Option.some.inj (hposition.symm.trans hpacket)
      rw [World.act_states_self]
      have hreceive : (aodvProtocol config).receive node (world.states node) sender
          (.rrep message) = (world.states node).procRrep config node sender message := by
        show (world.states node).receive config node sender (.rrep message) = _
        rw [AodvRouting.receive, if_pos hhandles]
      rw [hreceive, routeExists_procRrep hdestination]
    · simp at hop

/-! ### A node on the way answers -/

/-- Node 3 looks for the node 9, so that node 2 has a route to it, and then node 1
looks for node 3.  Node 2 answers the request, and node 1 processes the reply. -/
def intermediateOps : List (Op UInt16 Input) :=
  [.input 1 .enableRadio, .input 2 .enableRadio, .input 3 .enableRadio,
    .input 3 (.send 9), .deliver 2 0, .input 1 (.send 3), .deliver 2 2]

/-- The reply of node 2. -/
def intermediateSample : RouteDiscoveryMessage where
  bcast_id := 0
  hop_cnt := 1
  source_sequence_nr := 1
  destination_sequence_nr := 0
  source := 2
  destination := 1
  origin := ⟨0, 0⟩
  requested := 3

/-- Node 1 looks for node 3, which answers itself. -/
def destinationOps : List (Op UInt16 Input) :=
  [.input 1 .enableRadio, .input 3 .enableRadio, .input 1 (.send 3), .deliver 3 0]

/-- The reply of node 3. -/
def destinationSample : RouteDiscoveryMessage where
  bcast_id := 0
  hop_cnt := 0
  source_sequence_nr := 1
  destination_sequence_nr := 1
  source := 3
  destination := 1
  origin := ⟨0, 0⟩
  requested := 3

theorem reply_gives_route_sample :
    ∃ next, perform (aodvProtocol (sampleConfig .dymo)) Apart
        (sampleWorld .dymo destinationOps) (.deliver 1 1) = some next ∧
      (next.states 1).routeExists 3 = true := by
  have hrun : Run (stepOf (perform (aodvProtocol (sampleConfig .dymo)) Apart))
      (.initial (aodvProtocol (sampleConfig .dymo))) destinationOps
      (sampleWorld .dymo destinationOps) := sampleWorld_run (by decide +kernel)
  have hposition : (sampleWorld .dymo destinationOps).sent[1]? =
      some ⟨3, some 1, .rrep destinationSample⟩ := by decide +kernel
  have hhandles : ((sampleWorld .dymo destinationOps).states 1).handles 1 3 = true := by
    decide +kernel
  have hsome : (perform (aodvProtocol (sampleConfig .dymo)) Apart
      (sampleWorld .dymo destinationOps) (.deliver 1 1)).isSome = true := by decide +kernel
  obtain ⟨next, hnext⟩ := Option.isSome_iff_exists.1 hsome
  have hroute := (reply_gives_route hrun hposition rfl hhandles hnext).2
  exact ⟨next, hnext, hroute.2 (by decide +kernel)⟩

theorem not_reply_gives_route :
    ¬ ∃ variant, ∀ (operations : List (Op UInt16 Input))
      (world next : World UInt16 AodvRouting Message Report) (node sender : UInt16) (position : ℕ)
      (receiver : Option UInt16) (message : RouteDiscoveryMessage),
      Run (stepOf (perform (aodvProtocol (sampleConfig variant)) Apart))
        (.initial (aodvProtocol (sampleConfig variant))) operations world →
      world.sent[position]? = some ⟨sender, receiver, .rrep message⟩ →
      message.destination = node → (world.states node).handles node sender = true →
      perform (aodvProtocol (sampleConfig variant)) Apart world (.deliver node position) =
        some next →
      (next.states node).routeExists message.requested = true := by
  rintro ⟨variant, hclaim⟩
  have hsteps : (intermediateOps.foldlM (perform (aodvProtocol (sampleConfig variant)) Apart)
      (.initial (aodvProtocol (sampleConfig variant)))).isSome = true := by
    cases variant with
    | aodv => decide +kernel
    | dymo => decide +kernel
  have hposition : (sampleWorld variant intermediateOps).sent[3]? =
      some ⟨2, some 1, .rrep intermediateSample⟩ := by
    cases variant with
    | aodv => decide +kernel
    | dymo => decide +kernel
  have hhandles : ((sampleWorld variant intermediateOps).states 1).handles 1 2 = true := by
    cases variant with
    | aodv => decide +kernel
    | dymo => decide +kernel
  have hnone : (perform (aodvProtocol (sampleConfig variant)) Apart
      (sampleWorld variant intermediateOps) (.deliver 1 3)).map
        (fun next => (next.states 1).routeExists 3) = some false := by
    cases variant with
    | aodv => decide +kernel
    | dymo => decide +kernel
  obtain ⟨next, hnext, habsent⟩ := Option.map_eq_some_iff.1 hnone
  have hroute := hclaim _ _ next 1 2 3 (some 1) intermediateSample (sampleWorld_run hsteps)
    hposition rfl hhandles hnext
  rw [show intermediateSample.requested = 3 from rfl, habsent] at hroute
  simp at hroute

end Wiselib.Routing.Aodv
