import Wiselib.Routing.AodvRouting

/-!
# Route requests of AODV and DYMO are handled once

A node drops a request that it remembers.  What it remembers of a request is
eight bits of the source and the id, and DYMO stops remembering after ten
requests, so that copies of a request are handled again and again where the
source does not fit a byte or the list is full.

## Strategy

* `Noted` says what every handler does to the remembered requests: nothing is
  ever forgotten, and a request that is handled was not remembered and is
  afterwards.
* `FloodLog` is the invariant: all requests in the log are remembered by the
  node that handled them, so none is handled twice.
-/

namespace Wiselib.Routing.Aodv

open Network Transition

/-- The request is remembered as what it is: its source fits the byte in which
it is remembered, and the list has room. -/
def kept (config : Config) (message : RouteDiscoveryMessage) (state : AodvRouting) : Bool :=
  decide (message.source.toNat < 256) && state.canRemember config

/-- No node handles a request that it cannot remember. -/
def requestsKept (config : Config) (world : World UInt16 AodvRouting Message Report) :
    Op UInt16 Input → Bool
  | .deliver node position =>
      match world.sent[position]? with
      | some ⟨sender, _, .rreq message⟩ =>
          !(world.states node).handles node sender || (world.states node).remembers message ||
            kept config message (world.states node)
      | _ => true
  | _ => true

/-- An entry of the log in which the node answers or forwards the request. -/
def isRequest (node source : UInt16) (bcastId : UInt8) : UInt16 × Report → Bool
  | (other, .request otherSource otherId _) =>
      other == node && otherSource == source && otherId == bcastId
  | (_, .discovery _) => false

theorem isRequest_iff {node source : UInt16} {bcastId : UInt8} {entry : UInt16 × Report} :
    isRequest node source bcastId entry = true ↔
      ∃ outcome, entry = (node, .request source bcastId outcome) := by
  obtain ⟨other, event⟩ := entry
  cases event with
  | discovery destination => simp [isRequest]
  | request otherSource otherId outcome =>
      simp only [isRequest, Bool.and_eq_true, beq_iff_eq, Prod.mk.injEq, Report.request.injEq]
      constructor
      · rintro ⟨⟨rfl, rfl⟩, rfl⟩
        exact ⟨outcome, rfl, rfl, rfl, rfl⟩
      · rintro ⟨_, rfl, rfl, rfl, _⟩
        exact ⟨⟨rfl, rfl⟩, rfl⟩

/-! ## What handlers do to the remembered requests -/

variable {config : Config} {id sender : UInt16} {message : RouteDiscoveryMessage}
  {state : AodvRouting}

/-- A request whose source fits a byte is remembered if its byte and its id are
in the list. -/
theorem remembers_of_mem (hsource : message.source.toNat < 256)
    (hmem : ⟨message.source.toUInt8, message.bcast_id⟩ ∈ state.received_rreq_) :
    state.remembers message = true := by
  rw [AodvRouting.remembers, List.any_eq_true]
  refine ⟨_, hmem, ?_⟩
  have hwide : message.source.toUInt8.toUInt16 = message.source := by
    apply UInt16.toNat_inj.1
    rw [UInt8.toNat_toUInt16, UInt16.toNat_toUInt8]
    exact Nat.mod_eq_of_lt hsource
  simp [AodvRouting.matchesRreq, hwide]

/-- A handler forgets no request.  It handles none, or one that was not
remembered and is remembered afterwards. -/
inductive Noted (state : AodvRouting) (result : AodvRouting × Effects UInt16 Message Report) :
    Prop
  | quiet (hkept : state.received_rreq_ ⊆ result.1.received_rreq_)
      (hreports : ∀ event ∈ result.2.reports, ∃ destination, event = .discovery destination)
  | handled (message : RouteDiscoveryMessage) (outcome : Outcome)
      (hkept : state.received_rreq_ ⊆ result.1.received_rreq_)
      (hreports : result.2.reports = [.request message.source message.bcast_id outcome])
      (hsource : message.source.toNat < 256) (hnew : state.remembers message = false)
      (hmem : ⟨message.source.toUInt8, message.bcast_id⟩ ∈ result.1.received_rreq_)

theorem received_rreq_subset_remember {later : AodvRouting} {source : UInt16} {bcastId : UInt8}
    (hsame : later.received_rreq_ = state.received_rreq_) :
    state.received_rreq_ ⊆ (later.remember config source bcastId).received_rreq_ := by
  rw [← hsame]
  unfold AodvRouting.remember
  split
  · exact List.subset_append_left _ _
  · exact List.Subset.refl _

theorem mem_remember {source : UInt16} {bcastId : UInt8}
    (hroom : state.canRemember config = true) :
    ⟨source.toUInt8, bcastId⟩ ∈ (state.remember config source bcastId).received_rreq_ := by
  rw [AodvRouting.remember, if_pos hroom]
  simp

theorem noted_send {destination : UInt16} :
    Noted state (state.send config id destination) := by
  unfold AodvRouting.send
  split
  · exact .quiet (by simp) (by simp)
  · exact .quiet (received_rreq_subset_remember rfl) (by simp)

theorem noted_procData : Noted state (state.procData config id message) := by
  unfold AodvRouting.procData
  split
  · exact .quiet (List.Subset.refl _) (by simp)
  · split
    · exact .quiet (by simp) (by simp)
    · exact .quiet (List.Subset.refl _) (by simp)

theorem acceptRreq_received_rreq_ :
    (state.acceptRreq config sender message).1.received_rreq_ =
      ((state.recordSeq message).remember config message.source
        message.bcast_id).received_rreq_ := by
  simp [AodvRouting.acceptRreq]

theorem noted_procRreq
    (hkept : state.remembers message = false → kept config message state = true) :
    Noted state (state.procRreq config id sender message) := by
  unfold AodvRouting.procRreq
  split
  · exact .quiet (List.Subset.refl _) (by simp)
  · rename_i hnew
    have hnew : state.remembers message = false := by simpa using hnew
    have hroom := hkept hnew
    simp only [kept, Bool.and_eq_true, decide_eq_true_eq] at hroom
    have hrecorded : (state.recordSeq message).canRemember config = true := by
      rw [← hroom.2]
      unfold AodvRouting.canRemember
      simp
    refine .handled message _ ?_ rfl hroom.1 hnew ?_
    · dsimp only
      rw [AodvRouting.respond_received_rreq_, acceptRreq_received_rreq_]
      exact received_rreq_subset_remember AodvRouting.recordSeq_received_rreq_
    · dsimp only
      rw [AodvRouting.respond_received_rreq_, acceptRreq_received_rreq_]
      exact mem_remember hrecorded

theorem acceptRrep_received_rreq_ :
    (state.acceptRrep config sender message).1.received_rreq_ = state.received_rreq_ := by
  unfold AodvRouting.acceptRrep
  dsimp only
  split
  · split
    · simp
    · simp
  · split
    · simp
    · simp

theorem noted_procRrep : Noted state (state.procRrep config id sender message) := by
  unfold AodvRouting.procRrep
  split
  · refine .quiet ?_ (by simp)
    dsimp only
    rw [acceptRrep_received_rreq_]
    exact List.Subset.refl _
  · refine .quiet ?_ (by simp)
    dsimp only
    rw [AodvRouting.touch_received_rreq_, acceptRrep_received_rreq_]
    exact List.Subset.refl _

theorem noted_receive {frame : Message}
    (hkept : ∀ message, frame = .rreq message → state.handles id sender = true →
      state.remembers message = false → kept config message state = true) :
    Noted state (state.receive config id sender frame) := by
  unfold AodvRouting.receive
  split
  · rename_i hhandles
    cases frame with
    | rreq message => exact noted_procRreq (hkept message rfl hhandles)
    | rrep message => exact noted_procRrep
    | data message =>
        dsimp only
        split
        · exact noted_procData
        · exact .quiet (List.Subset.refl _) (by simp)
  · exact .quiet (List.Subset.refl _) (by simp)

theorem noted_input {input : Input} {result : AodvRouting × Effects UInt16 Message Report}
    (hinput : state.input config id input = some result) : Noted state result := by
  cases input with
  | enableRadio =>
      rw [← Option.some.inj hinput]
      exact .quiet (List.Subset.refl _) (by simp)
  | send destination =>
      rw [← Option.some.inj hinput]
      exact noted_send
  | timerElapsed expired =>
      simp only [AodvRouting.input] at hinput
      split at hinput
      · rw [← Option.some.inj hinput]
        exact .quiet (List.Subset.refl _) (by simp)
      · simp at hinput

/-! ## The log -/

/-- Every request in the log is remembered, and none is in it twice. -/
structure FloodLog (world : World UInt16 AodvRouting Message Report) : Prop where
  remembered : ∀ node source bcastId outcome,
    (node, .request source bcastId outcome) ∈ world.log →
    source.toNat < 256 ∧ ⟨source.toUInt8, bcastId⟩ ∈ (world.states node).received_rreq_
  once : ∀ node source bcastId, (world.log.filter (isRequest node source bcastId)).length ≤ 1

variable {world : World UInt16 AodvRouting Message Report}

private theorem received_rreq_subset_act {actor : UInt16}
    {result : AodvRouting × Effects UInt16 Message Report}
    (hkept : (world.states actor).received_rreq_ ⊆ result.1.received_rreq_) (node : UInt16) :
    (world.states node).received_rreq_ ⊆ ((world.act actor result).states node).received_rreq_ := by
  by_cases hnode : node = actor
  · subst hnode
    rw [World.act_states_self]
    exact hkept
  · rw [World.act_states_other _ _ hnode]
    exact List.Subset.refl _

theorem FloodLog.act (hlog : FloodLog world) {actor : UInt16}
    {result : AodvRouting × Effects UInt16 Message Report}
    (hnoted : Noted (world.states actor) result) : FloodLog (world.act actor result) := by
  cases hnoted with
  | quiet hkept hreports =>
      constructor
      · intro node source bcastId outcome hmem
        rcases World.mem_act_log.1 hmem with hold | ⟨-, hreport⟩
        · obtain ⟨hsource, hin⟩ := hlog.remembered node source bcastId outcome hold
          exact ⟨hsource, received_rreq_subset_act hkept node hin⟩
        · obtain ⟨destination, heq⟩ := hreports _ hreport
          simp at heq
      · intro node source bcastId
        have hnone : (result.2.reports.map fun event => (actor, event)).filter
            (isRequest node source bcastId) = [] := by
          rw [List.filter_eq_nil_iff]
          intro entry hentry
          obtain ⟨event, hevent, rfl⟩ := List.mem_map.1 hentry
          obtain ⟨destination, rfl⟩ := hreports event hevent
          simp [isRequest]
        have hgrown : (world.act actor result).log =
            world.log ++ result.2.reports.map fun event => (actor, event) := rfl
        rw [hgrown, List.filter_append, hnone, List.append_nil]
        exact hlog.once node source bcastId
  | handled message outcome hkept hreports hsource hnew hmem =>
      have hgrown : (world.act actor result).log =
          world.log ++ [(actor, .request message.source message.bcast_id outcome)] := by
        simp [World.act, hreports]
      constructor
      · intro node source bcastId other hother
        rw [hgrown, List.mem_append, List.mem_singleton] at hother
        rcases hother with hold | hlast
        · obtain ⟨hbyte, hin⟩ := hlog.remembered node source bcastId other hold
          exact ⟨hbyte, received_rreq_subset_act hkept node hin⟩
        · simp only [Prod.mk.injEq, Report.request.injEq] at hlast
          obtain ⟨rfl, rfl, rfl, -⟩ := hlast
          rw [World.act_states_self]
          exact ⟨hsource, hmem⟩
      · intro node source bcastId
        rw [hgrown, List.filter_append, List.length_append]
        by_cases hsame :
            isRequest node source bcastId
              (actor, .request message.source message.bcast_id outcome) = true
        · -- the request was not remembered, so it is not in the log
          obtain ⟨_, heq⟩ := isRequest_iff.1 hsame
          simp only [Prod.mk.injEq, Report.request.injEq] at heq
          obtain ⟨rfl, rfl, rfl, -⟩ := heq
          have hnone : world.log.filter (isRequest actor message.source message.bcast_id) = [] := by
            rw [List.filter_eq_nil_iff]
            intro entry hentry hrequest
            obtain ⟨other, rfl⟩ := isRequest_iff.1 hrequest
            have hin := (hlog.remembered _ _ _ _ hentry).2
            rw [remembers_of_mem hsource hin] at hnew
            simp at hnew
          rw [hnone]
          simp [hsame]
        · have hlast : [(actor, Report.request message.source message.bcast_id outcome)].filter
              (isRequest node source bcastId) = [] := by
            simp [hsame]
          rw [hlast]
          simpa using hlog.once node source bcastId

theorem FloodLog.step {hears : UInt16 → UInt16 → Prop} [DecidableRel hears]
    {next : World UInt16 AodvRouting Message Report} {op : Op UInt16 Input} (hlog : FloodLog world)
    (hstep : Guarded (fun world op => requestsKept config world op = true)
      (stepOf (perform (aodvProtocol config) hears)) world op next) : FloodLog next := by
  obtain ⟨hguard, hperform⟩ := hstep
  rcases perform_cases hperform with
    ⟨node, input, result, rfl, hresult, rfl⟩ |
      ⟨node, position, packet, rfl, hposition, -, -, rfl⟩ | ⟨position, -, rfl⟩
  · exact hlog.act (noted_input hresult)
  · apply hlog.act
    apply noted_receive
    intro message hframe hhandles hnew
    obtain ⟨sender, receiver, frame⟩ := packet
    obtain rfl : frame = .rreq message := hframe
    simpa [requestsKept, hposition, hhandles, hnew] using hguard
  · exact ⟨hlog.remembered, hlog.once⟩

/-- In every run in which all requests that are handled can be remembered, no
node answers or forwards a request twice. -/
theorem flood_suppressed {hears : UInt16 → UInt16 → Prop} [DecidableRel hears]
    {operations : List (Op UInt16 Input)}
    (hrun : Run (Guarded (fun world op => requestsKept config world op = true)
      (stepOf (perform (aodvProtocol config) hears))) (.initial (aodvProtocol config))
      operations world) (node source : UInt16) (bcastId : UInt8) :
    (world.log.filter (isRequest node source bcastId)).length ≤ 1 := by
  have hstep : ∀ state op next, FloodLog state →
      Guarded (fun world op => requestsKept config world op = true)
        (stepOf (perform (aodvProtocol config) hears)) state op next → FloodLog next :=
    fun _ _ _ => FloodLog.step
  have hinitial : FloodLog (.initial (aodvProtocol config)) := by
    constructor
    · intro node source bcastId outcome hmem
      simp [World.initial] at hmem
    · intro node source bcastId
      simp [World.initial]
  exact (hrun.invariant hstep hinitial).once node source bcastId

/-! ### Copies of requests -/

/-- The nodes are enabled, a node starts discoveries of the node 9, and another
one is handed the last request twice. -/
def floodOps (source : UInt16) (discoveries : ℕ) : List (Op UInt16 Input) :=
  [.input source .enableRadio, .input 2 .enableRadio] ++
    (List.range discoveries).flatMap (fun position =>
      [.input source (.send 9), .deliver 2 (2 * position)]) ++
    [.deliver 2 (2 * (discoveries - 1))]

/-- How often node 2 answered or forwarded a request in a run, if there is such a run. -/
def handledBy (config : Config) (operations : List (Op UInt16 Input)) (source : UInt16)
    (bcastId : UInt8) : Option ℕ :=
  (operations.foldlM (perform (aodvProtocol config) Apart)
    (.initial (aodvProtocol config))).map fun world =>
      (world.log.filter (isRequest 2 source bcastId)).length

theorem flood_suppressed_sample :
    ∃ world, Run (Guarded (fun world op => requestsKept (sampleConfig .dymo) world op = true)
        (stepOf (perform (aodvProtocol (sampleConfig .dymo)) Apart)))
        (.initial (aodvProtocol (sampleConfig .dymo))) (floodOps 1 3) world ∧
      world.log.length = 6 ∧ (world.log.filter (isRequest 2 1 3)).length ≤ 1 := by
  have hfold : ((floodOps 1 3).foldlM (fun world op =>
      if requestsKept (sampleConfig .dymo) world op then
        perform (aodvProtocol (sampleConfig .dymo)) Apart world op else none)
      (.initial (aodvProtocol (sampleConfig .dymo)))).map (fun world => world.log.length) =
        some 6 := by decide +kernel
  obtain ⟨world, hworld, hlength⟩ := Option.map_eq_some_iff.1 hfold
  have hrun := Run.of_foldlM_guarded hworld
  exact ⟨world, hrun, hlength, flood_suppressed hrun 2 1 3⟩

/-- A source that does not fit a byte is never recognised, and DYMO does not
remember an eleventh request. -/
theorem not_flood_suppressed :
    (¬ ∃ variant, ∀ (operations : List (Op UInt16 Input))
        (world : World UInt16 AodvRouting Message Report),
        Run (stepOf (perform (aodvProtocol (sampleConfig variant)) Apart))
          (.initial (aodvProtocol (sampleConfig variant))) operations world →
        (world.log.filter (isRequest 2 300 1)).length ≤ 1) ∧
      ¬ ∀ (operations : List (Op UInt16 Input)) (world : World UInt16 AodvRouting Message Report),
        Run (stepOf (perform (aodvProtocol (sampleConfig .dymo)) Apart))
          (.initial (aodvProtocol (sampleConfig .dymo))) operations world →
        (world.log.filter (isRequest 2 1 11)).length ≤ 1 := by
  constructor
  · rintro ⟨variant, hclaim⟩
    have hwide : handledBy (sampleConfig variant) (floodOps 300 1) 300 1 = some 2 := by
      cases variant with
      | aodv => decide +kernel
      | dymo => decide +kernel
    obtain ⟨world, hworld, hcount⟩ := Option.map_eq_some_iff.1 hwide
    have hle := hclaim _ world (Run.of_foldlM hworld)
    omega
  · intro hclaim
    have hfull : handledBy (sampleConfig .dymo) (floodOps 1 11) 1 11 = some 2 := by
      decide +kernel
    obtain ⟨world, hworld, hcount⟩ := Option.map_eq_some_iff.1 hfull
    have hle := hclaim _ world (Run.of_foldlM hworld)
    omega

end Wiselib.Routing.Aodv
