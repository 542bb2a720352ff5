import Wiselib.Routing.DsrRouting

/-!
# Route requests of DSR are handled once

A node drops a route request unless its sequence number is larger than the last
one seen of its source, which is kept in the table entry for the source.  Two
writers spoil that number.  A route reply that comes home stores its own
sequence number, a number of the node itself, in the entry for the destination,
as if it were the last one seen of the destination; and a routing table that is
full does not store the number at all.

`requests_once` proves that these are the only ways to lose flood control: in
every run in which no sequence number wraps, no reply changes the number seen of
its destination and no number is lost to a full table, a node rebroadcasts or
answers a request at most once and never drops a request that is newer than all
earlier ones of its source.  `requests_not_once` is a run in which a node drops
the first request it ever receives of a source.

## Strategy

The number a node keeps for a source is the largest one it has received
(`FloodLog.upper`, `FloodLog.attained`).  `Noted` says once what a handler does
to these numbers and to the log.
-/

namespace Wiselib.Routing.Dsr

open Network

variable {Node : Type*} [DecidableEq Node] {config : Config}

/-- The step does not wrap the sequence number of a source. -/
def numbersLast (world : World Node (DsrRouting Node) (Message Node) (Report Node)) :
    Op Node (Input Node) → Bool
  | .input node (.send destination _) =>
      (world.states node).send_in_progress_ ||
        ((world.states node).routing_table_.find destination).isSome ||
        (world.states node).seq_nr_ != 65535
  | _ => true

/-- The table has no entry for the node and no room for one. -/
def tableFull (config : Config) (state : DsrRouting Node) (node : Node) : Bool :=
  (state.routing_table_.find node).isNone && decide (config.tableSize ≤ state.routing_table_.length)

/-- The condition on a step: a request that is not dropped finds room for its
number, and a reply that is stored carries the number that was seen of its
destination anyway. -/
def numbersKept (config : Config)
    (world : World Node (DsrRouting Node) (Message Node) (Report Node)) :
    Op Node (Input Node) → Bool
  | .input _ _ | .lose _ => true
  | .deliver node position =>
      let state := world.states node
      match world.sent[position]? with
      | some ⟨_, _, .routeRequest message⟩ =>
          !state.enabled || decide (state.getSeqNr message.source ≥ message.sequence_nr) ||
            !tableFull config state message.source
      | some ⟨_, _, .routeReply message⟩ =>
          !state.enabled || decide (message.source ≠ node) ||
            state.getSeqNr message.destination == message.sequence_nr ||
            tableFull config state message.destination
      | _ => true

/-- The report says that the node rebroadcast or answered the request. -/
def handles (node source : Node) (sequenceNr : UInt16) : Node × Report Node → Bool
  | (other, .request requestSource requestNr outcome) =>
      decide (other = node) && decide (requestSource = source) && requestNr == sequenceNr &&
        outcome != .dropped
  | _ => false

/-! ## Sequence numbers in a table -/

theorem getSeqNr_congr {state other : DsrRouting Node} {node : Node}
    (hfind : other.routing_table_.find node = state.routing_table_.find node) :
    other.getSeqNr node = state.getSeqNr node := by
  simp only [DsrRouting.getSeqNr, hfind]

theorem getSeqNr_updateSeqNr_self {state : DsrRouting Node} {node : Node} (seqNr : UInt16)
    (hroom : tableFull config state node = false) :
    (state.updateSeqNr config node seqNr).getSeqNr node = seqNr := by
  simp only [tableFull, Bool.and_eq_false_iff, decide_eq_false_iff_not, not_le] at hroom
  unfold DsrRouting.getSeqNr DsrRouting.updateSeqNr
  dsimp only
  cases hfound : state.routing_table_.find node with
  | some value => rw [RoutingTable.find_assign_present (by simp [hfound])]
  | none =>
      have hlength : state.routing_table_.length < config.tableSize := by
        simpa [hfound] using hroom
      rw [RoutingTable.find_assign_absent hfound hlength]

theorem getSeqNr_updateSeqNr_other {state : DsrRouting Node} {node other : Node} {seqNr : UInt16}
    (hne : other ≠ node) :
    (state.updateSeqNr config node seqNr).getSeqNr other = state.getSeqNr other :=
  getSeqNr_congr (RoutingTable.find_assign_other hne)

/-! ## What handlers do to the numbers -/

/-- A handler leaves all numbers alone and reports no request, it drops a request
that is not newer than the number of its source, or it takes a newer request and
keeps its number. -/
inductive Noted (state : DsrRouting Node)
    (result : DsrRouting Node × Effects Node (Message Node) (Report Node)) : Prop
  | quiet (hnumbers : ∀ source, result.1.getSeqNr source = state.getSeqNr source)
      (hreports : ∀ source seqNr outcome, .request source seqNr outcome ∉ result.2.reports)
  | dropped (source : Node) (seqNr : UInt16) (hsame : result.1 = state)
      (hreports : result.2.reports = [.request source seqNr .dropped])
      (hle : seqNr.toNat ≤ (state.getSeqNr source).toNat) (hpos : 0 < seqNr.toNat)
  | taken (source : Node) (seqNr : UInt16) (outcome : Outcome) (houtcome : outcome ≠ .dropped)
      (hreports : result.2.reports = [.request source seqNr outcome])
      (hlt : (state.getSeqNr source).toNat < seqNr.toNat)
      (hself : result.1.getSeqNr source = seqNr)
      (hother : ∀ other, other ≠ source → result.1.getSeqNr other = state.getSeqNr other)

/-- The number of the next request is positive, and a node that was not enabled
has an empty table. -/
def Numbered (_node : Node) (state : DsrRouting Node) : Prop :=
  0 < state.seq_nr_.toNat ∧ (state.enabled = false → state.routing_table_ = [])

/-- Requests have positive numbers. -/
def Positive : Message Node → Prop
  | .routeRequest message => 0 < message.sequence_nr.toNat
  | _ => True

/-- Every report. -/
def AnyReport (_node : Node) (_event : Report Node) : Prop := True

theorem noted_send {node destination : Node} {data : List UInt8} {state : DsrRouting Node} :
    Noted state (state.send config node destination data) := by
  unfold DsrRouting.send
  split
  · exact .quiet (fun _ => rfl) (by simp)
  · split
    · exact .quiet (fun _ => rfl) (by simp)
    · exact .quiet (fun _ => rfl) (by simp)

theorem keeps_send_number {node destination : Node} {data : List UInt8} {state : DsrRouting Node}
    (hnumbered : Numbered node state)
    (hlast : state.send_in_progress_ = false →
      state.routing_table_.find destination = none → state.seq_nr_ ≠ 65535) :
    Keeps Numbered Positive AnyReport node (state.send config node destination data) := by
  unfold DsrRouting.send
  split
  · exact ⟨hnumbered, by simp, fun _ _ => trivial⟩
  · rename_i hidle
    cases hfound : state.routing_table_.find destination with
    | some value =>
        refine ⟨hnumbered, ?_, fun _ _ => trivial⟩
        intro receiver frame hsend
        obtain ⟨-, rfl⟩ := Prod.mk.inj (List.mem_singleton.1 hsend)
        trivial
    | none =>
        refine ⟨⟨?_, hnumbered.2⟩, ?_, fun _ _ => trivial⟩
        · show 0 < (state.seq_nr_ + 1).toNat
          have hne : state.seq_nr_.toNat ≠ 65535 := by
            intro heq
            exact hlast (by simpa using hidle) hfound (UInt16.toNat_inj.1 heq)
          have hbound : state.seq_nr_.toNat < 65536 := state.seq_nr_.toNat_lt
          rw [UInt16.toNat_add]
          have hone : (1 : UInt16).toNat = 1 := rfl
          omega
        · intro receiver frame hsend
          obtain ⟨-, rfl⟩ := Prod.mk.inj (List.mem_singleton.1 hsend)
          exact hnumbered.1

theorem noted_handleRouteRequest {node : Node} {message : RouteDiscoveryMessage Node}
    {state : DsrRouting Node} (hpos : 0 < message.sequence_nr.toNat)
    (hroom : state.getSeqNr message.source < message.sequence_nr →
      tableFull config state message.source = false) :
    Noted state (state.handleRouteRequest config node message) := by
  unfold DsrRouting.handleRouteRequest
  split
  · rename_i hknown
    exact .dropped message.source message.sequence_nr rfl rfl
      (UInt16.le_iff_toNat_le.1 hknown) hpos
  · rename_i hnew
    have hlt : state.getSeqNr message.source < message.sequence_nr := UInt16.not_le.1 hnew
    have hself := getSeqNr_updateSeqNr_self message.sequence_nr (hroom hlt)
    dsimp only
    split
    · exact .taken message.source message.sequence_nr .answered (by simp) rfl
        (UInt16.lt_iff_toNat_lt.1 hlt) hself fun _ hne => getSeqNr_updateSeqNr_other hne
    · exact .taken message.source message.sequence_nr .rebroadcast (by simp) rfl
        (UInt16.lt_iff_toNat_lt.1 hlt) hself fun _ hne => getSeqNr_updateSeqNr_other hne

theorem keeps_handleRouteRequest_number {node : Node} {message : RouteDiscoveryMessage Node}
    {state : DsrRouting Node} (hnumbered : Numbered node state) (henabled : state.enabled = true)
    (hpos : 0 < message.sequence_nr.toNat) :
    Keeps Numbered Positive AnyReport node (state.handleRouteRequest config node message) := by
  have hupdated : Numbered node
      (state.updateSeqNr config message.source message.sequence_nr) := by
    refine ⟨hnumbered.1, ?_⟩
    intro hdisabled
    have hstill : (state.updateSeqNr config message.source message.sequence_nr).enabled = true :=
      henabled
    rw [hstill] at hdisabled
    simp at hdisabled
  unfold DsrRouting.handleRouteRequest
  split
  · exact ⟨hnumbered, by simp, fun _ _ => trivial⟩
  · dsimp only
    split
    · refine ⟨hupdated, ?_, fun _ _ => trivial⟩
      intro receiver frame hsend
      obtain ⟨-, rfl⟩ := Prod.mk.inj (List.mem_singleton.1 hsend)
      trivial
    · refine ⟨hupdated, ?_, fun _ _ => trivial⟩
      intro receiver frame hsend
      obtain ⟨-, rfl⟩ := Prod.mk.inj (List.mem_singleton.1 hsend)
      exact hpos

/-- Storing a number that was seen anyway, or in a full table, changes no number. -/
theorem getSeqNr_assign {state other : DsrRouting Node} {key : Node}
    {value : RoutingTableValue Node}
    (htable : other.routing_table_ = state.routing_table_.assign config.tableSize key value)
    (hkept : state.getSeqNr key = value.seq_nr ∨ tableFull config state key = true)
    (source : Node) : other.getSeqNr source = state.getSeqNr source := by
  by_cases hsource : source = key
  · subst hsource
    by_cases hfull : tableFull config state source = true
    · simp only [tableFull, Bool.and_eq_true, Option.isNone_iff_eq_none, decide_eq_true_eq] at hfull
      apply getSeqNr_congr
      rw [htable, RoutingTable.assign_full hfull.1 hfull.2]
    · have hvalue : other.routing_table_.find source = some value := by
        simp only [tableFull, Bool.and_eq_true, Option.isNone_iff_eq_none, decide_eq_true_eq,
          not_and, not_le] at hfull
        rw [htable]
        cases hfound : state.routing_table_.find source with
        | some old => exact RoutingTable.find_assign_present (by simp [hfound])
        | none => exact RoutingTable.find_assign_absent hfound (hfull hfound)
      have hseen := hkept.resolve_right hfull
      rw [hseen]
      simp only [DsrRouting.getSeqNr, hvalue]
  · apply getSeqNr_congr
    rw [htable, RoutingTable.find_assign_other hsource]

theorem noted_handleRouteReply {node : Node} {message : RouteDiscoveryMessage Node}
    {state : DsrRouting Node}
    (hkept : message.source = node → state.getSeqNr message.destination = message.sequence_nr ∨
      tableFull config state message.destination = true) :
    Noted state (state.handleRouteReply config node message) := by
  unfold DsrRouting.handleRouteReply
  dsimp only
  split
  · rename_i hsource
    split
    · exact .quiet (getSeqNr_assign rfl (hkept hsource)) (by simp)
    · exact .quiet (getSeqNr_assign rfl (hkept hsource)) (by simp)
  · exact .quiet (fun _ => rfl) (by simp)

theorem keeps_handleRouteReply_number {node : Node} {message : RouteDiscoveryMessage Node}
    {state : DsrRouting Node} (hnumbered : Numbered node state) (henabled : state.enabled = true) :
    Keeps Numbered Positive AnyReport node (state.handleRouteReply config node message) := by
  have hpositive : 0 < state.seq_nr_.toNat := hnumbered.1
  unfold DsrRouting.handleRouteReply
  dsimp only
  split
  · split
    · refine ⟨⟨hpositive, by simp [henabled]⟩, ?_, fun _ _ => trivial⟩
      intro receiver frame hsend
      obtain ⟨-, rfl⟩ := Prod.mk.inj (List.mem_singleton.1 hsend)
      trivial
    · exact ⟨⟨hpositive, by simp [henabled]⟩, by simp, fun _ _ => trivial⟩
  · refine ⟨hnumbered, ?_, fun _ _ => trivial⟩
    intro receiver frame hsend
    obtain ⟨-, rfl⟩ := Prod.mk.inj (List.mem_singleton.1 hsend)
    trivial

theorem noted_handleRoutingMessage {node : Node} {message : RoutingFrame Node}
    {state : DsrRouting Node} : Noted state (state.handleRoutingMessage config node message) := by
  unfold DsrRouting.handleRoutingMessage
  split
  · exact .quiet (fun _ => rfl) (by simp)
  · exact .quiet (fun _ => rfl) (by simp)

theorem keeps_handleRoutingMessage_number {node : Node} {message : RoutingFrame Node}
    {state : DsrRouting Node} (hnumbered : Numbered node state) :
    Keeps Numbered Positive AnyReport node
      (state.handleRoutingMessage config node message) := by
  unfold DsrRouting.handleRoutingMessage
  split
  · exact ⟨hnumbered, by simp, fun _ _ => trivial⟩
  · refine ⟨hnumbered, ?_, fun _ _ => trivial⟩
    intro receiver frame hsend
    obtain ⟨-, rfl⟩ := Prod.mk.inj (List.mem_singleton.1 hsend)
    trivial

/-! ## Steps -/

/-- The guard of a run without wrapping in which numbers are kept. -/
def floodsIntact (config : Config)
    (world : World Node (DsrRouting Node) (Message Node) (Report Node))
    (op : Op Node (Input Node)) : Bool :=
  numbersLast world op && numbersKept config world op

section Steps

variable {world : World Node (DsrRouting Node) (Message Node) (Report Node)} {node : Node}

theorem noted_input {input : Input Node}
    {result : DsrRouting Node × Effects Node (Message Node) (Report Node)}
    (hnumbered : Numbered node (world.states node))
    (hinput : (world.states node).input config node input = some result) :
    Noted (world.states node) result := by
  cases input with
  | init =>
      simp only [DsrRouting.input] at hinput
      split at hinput
      · simp at hinput
      · rename_i henabled
        rw [← Option.some.inj hinput]
        refine .quiet ?_ (by simp)
        intro source
        apply getSeqNr_congr
        rw [hnumbered.2 (by simpa using henabled)]
  | send destination data =>
      rw [← Option.some.inj hinput]
      exact noted_send

theorem keeps_input_number {input : Input Node}
    {result : DsrRouting Node × Effects Node (Message Node) (Report Node)}
    (hguard : floodsIntact config world (.input node input) = true)
    (hnumbered : Numbered node (world.states node))
    (hinput : (world.states node).input config node input = some result) :
    Keeps Numbered Positive AnyReport node result := by
  cases input with
  | init =>
      simp only [DsrRouting.input] at hinput
      split at hinput
      · simp at hinput
      · rw [← Option.some.inj hinput]
        have hone : 0 < (1 : UInt16).toNat := by decide
        exact ⟨⟨hone, by simp⟩, by simp, fun _ _ => trivial⟩
  | send destination data =>
      rw [← Option.some.inj hinput]
      apply keeps_send_number hnumbered
      intro hidle hfound
      simpa [floodsIntact, numbersLast, numbersKept, hidle, hfound] using hguard

theorem noted_receive {position : ℕ} {packet : Packet Node (Message Node)}
    (hguard : floodsIntact config world (.deliver node position) = true)
    (hposition : world.sent[position]? = some packet) (hpositive : Positive packet.frame) :
    Noted (world.states node) ((world.states node).receive config node packet.frame) := by
  unfold DsrRouting.receive
  split
  · rename_i henabled
    obtain ⟨sender, receiver, message⟩ := packet
    simp only [floodsIntact, numbersLast, numbersKept, hposition, Bool.true_and] at hguard
    cases message with
    | routeRequest message =>
        apply noted_handleRouteRequest hpositive
        intro hnew
        have hnot : ¬ message.sequence_nr ≤ (world.states node).getSeqNr message.source :=
          UInt16.not_le.2 hnew
        simpa [henabled, hnot] using hguard
    | routeReply message =>
        apply noted_handleRouteReply
        intro hsource
        simpa [henabled, hsource] using hguard
    | routing message => exact noted_handleRoutingMessage
  · exact .quiet (fun _ => rfl) (by simp)

theorem keeps_receive_number {packet : Packet Node (Message Node)}
    (hnumbered : Numbered node (world.states node)) (hpositive : Positive packet.frame) :
    Keeps Numbered Positive AnyReport node
      ((world.states node).receive config node packet.frame) := by
  unfold DsrRouting.receive
  split
  · rename_i henabled
    obtain ⟨sender, receiver, message⟩ := packet
    cases message with
    | routeRequest message => exact keeps_handleRouteRequest_number hnumbered henabled hpositive
    | routeReply message => exact keeps_handleRouteReply_number hnumbered henabled
    | routing message => exact keeps_handleRoutingMessage_number hnumbered
  · exact ⟨hnumbered, by simp, fun _ _ => trivial⟩

end Steps

/-! ## The log -/

/-- The request at this position of the log is newer than all earlier ones of its
source at the same node. -/
def NewestAt (log : List (Node × Report Node)) (position : ℕ) (node source : Node)
    (sequenceNr : UInt16) : Prop :=
  ∀ earlier < position, ∀ (earlierNr : UInt16) (outcome : Outcome),
    log[earlier]? = some (node, .request source earlierNr outcome) → earlierNr < sequenceNr

/-- The numbers in the tables are the largest ones in the log, no request was
handled twice, and none that was newer than all earlier ones was dropped. -/
structure FloodLog (world : World Node (DsrRouting Node) (Message Node) (Report Node)) : Prop where
  upper : ∀ node source seqNr outcome, (node, .request source seqNr outcome) ∈ world.log →
    seqNr.toNat ≤ ((world.states node).getSeqNr source).toNat
  attained : ∀ node source, (world.states node).getSeqNr source = 0 ∨
    ∃ outcome, (node, .request source ((world.states node).getSeqNr source) outcome) ∈ world.log
  once : ∀ node source seqNr, (world.log.filter (handles node source seqNr)).length ≤ 1
  newest : ∀ (position : ℕ) (node source : Node) (seqNr : UInt16) (outcome : Outcome),
    world.log[position]? = some (node, .request source seqNr outcome) →
    NewestAt world.log position node source seqNr → outcome ≠ .dropped

theorem handles_eq_true {node source : Node} {seqNr : UInt16} {entry : Node × Report Node}
    (hhandles : handles node source seqNr entry = true) :
    ∃ outcome, entry = (node, .request source seqNr outcome) ∧ outcome ≠ .dropped := by
  obtain ⟨other, event⟩ := entry
  cases event with
  | request requestSource requestNr outcome =>
      simp only [handles, Bool.and_eq_true, decide_eq_true_eq, beq_iff_eq, bne_iff_ne] at hhandles
      obtain ⟨⟨⟨rfl, rfl⟩, rfl⟩, houtcome⟩ := hhandles
      exact ⟨outcome, rfl, houtcome⟩
  | errBusy => simp [handles] at hhandles
  | transmitted destination path pathIdx => simp [handles] at hhandles
  | requested destination sequenceNr => simp [handles] at hhandles
  | delivered source tail => simp [handles] at hhandles

section Act

variable {world : World Node (DsrRouting Node) (Message Node) (Report Node)} {actor : Node}
  {result : DsrRouting Node × Effects Node (Message Node) (Report Node)}

theorem getSeqNr_act_other {node : Node} (hne : node ≠ actor) (source : Node) :
    ((world.act actor result).states node).getSeqNr source =
      (world.states node).getSeqNr source := by
  rw [World.act_states_other _ _ hne]

theorem FloodLog.act_quiet (hlog : FloodLog world)
    (hnumbers : ∀ source, result.1.getSeqNr source = (world.states actor).getSeqNr source)
    (hreports : ∀ source seqNr outcome, .request source seqNr outcome ∉ result.2.reports) :
    FloodLog (world.act actor result) := by
  have hsame : ∀ node source, ((world.act actor result).states node).getSeqNr source =
      (world.states node).getSeqNr source := by
    intro node source
    by_cases hnode : node = actor
    · subst hnode
      rw [World.act_states_self]
      exact hnumbers source
    · exact getSeqNr_act_other hnode source
  have hold : ∀ node source seqNr outcome,
      (node, .request source seqNr outcome) ∈ (world.act actor result).log →
      (node, .request source seqNr outcome) ∈ world.log := by
    intro node source seqNr outcome hmem
    apply (World.mem_act_log.1 hmem).resolve_right
    intro hnew
    exact hreports source seqNr outcome hnew.2
  constructor
  · intro node source seqNr outcome hmem
    rw [hsame]
    exact hlog.upper node source seqNr outcome (hold _ _ _ _ hmem)
  · intro node source
    rw [hsame]
    apply (hlog.attained node source).imp_right
    intro hmem
    obtain ⟨outcome, hmem⟩ := hmem
    exact ⟨outcome, World.mem_act_log.2 (.inl hmem)⟩
  · intro node source seqNr
    have hnone : (result.2.reports.map fun event => (actor, event)).filter
        (handles node source seqNr) = [] := by
      rw [List.filter_eq_nil_iff]
      intro entry hentry hhandles
      obtain ⟨event, hevent, rfl⟩ := List.mem_map.1 hentry
      obtain ⟨outcome, heq, -⟩ := handles_eq_true hhandles
      rw [(Prod.mk.inj heq).2] at hevent
      exact hreports source seqNr outcome hevent
    show ((world.log ++ _).filter _).length ≤ 1
    rw [List.filter_append, hnone, List.append_nil]
    exact hlog.once node source seqNr
  · intro position node source seqNr outcome hat hnewest
    have hat : (world.log ++ result.2.reports.map fun event => (actor, event))[position]? =
        some (node, .request source seqNr outcome) := hat
    have hlt : position < world.log.length := by
      by_contra hge
      rw [List.getElem?_append_right (not_lt.1 hge)] at hat
      obtain ⟨event, hevent, heq⟩ := List.mem_map.1 (List.mem_of_getElem? hat)
      rw [(Prod.mk.inj heq).2] at hevent
      exact hreports source seqNr outcome hevent
    rw [List.getElem?_append_left hlt] at hat
    apply hlog.newest position node source seqNr outcome hat
    intro earlier hearlier earlierNr earlierOutcome hfound
    apply hnewest earlier hearlier earlierNr earlierOutcome
    show (world.log ++ _)[earlier]? = _
    rw [List.getElem?_append_left (hearlier.trans hlt)]
    exact hfound

theorem log_act_request {source : Node} {seqNr : UInt16} {outcome : Outcome}
    (hreports : result.2.reports = [.request source seqNr outcome]) :
    (world.act actor result).log = world.log ++ [(actor, .request source seqNr outcome)] := by
  show world.log ++ result.2.reports.map _ = _
  rw [hreports]
  rfl

theorem newest_append (hlog : FloodLog world) {entry : Node × Report Node}
    {position : ℕ} {node source : Node} {seqNr : UInt16} {outcome : Outcome}
    (hlt : position < world.log.length)
    (hat : (world.log ++ [entry])[position]? = some (node, .request source seqNr outcome))
    (hnewest : NewestAt (world.log ++ [entry]) position node source seqNr) :
    outcome ≠ .dropped := by
  rw [List.getElem?_append_left hlt] at hat
  apply hlog.newest position node source seqNr outcome hat
  intro earlier hearlier earlierNr earlierOutcome hfound
  apply hnewest earlier hearlier earlierNr earlierOutcome
  rw [List.getElem?_append_left (hearlier.trans hlt)]
  exact hfound

theorem FloodLog.act_dropped (hlog : FloodLog world) {source : Node} {seqNr : UInt16}
    (hsame : result.1 = world.states actor)
    (hreports : result.2.reports = [.request source seqNr .dropped])
    (hle : seqNr.toNat ≤ ((world.states actor).getSeqNr source).toNat) (hpos : 0 < seqNr.toNat) :
    FloodLog (world.act actor result) := by
  have hstates : ∀ node, (world.act actor result).states node = world.states node := by
    intro node
    by_cases hnode : node = actor
    · subst hnode
      rw [World.act_states_self]
      exact hsame
    · exact World.act_states_other _ _ hnode
  constructor
  · intro node other otherNr outcome hmem
    rw [hstates]
    rw [log_act_request hreports, List.mem_append, List.mem_singleton] at hmem
    rcases hmem with hold | hnew
    · exact hlog.upper node other otherNr outcome hold
    · simp only [Prod.mk.injEq, Report.request.injEq] at hnew
      obtain ⟨rfl, rfl, rfl, -⟩ := hnew
      exact hle
  · intro node other
    rw [hstates, log_act_request hreports]
    apply (hlog.attained node other).imp_right
    intro hmem
    obtain ⟨outcome, hmem⟩ := hmem
    exact ⟨outcome, List.mem_append_left _ hmem⟩
  · intro node other otherNr
    have hnone : handles node other otherNr
        ((actor, .request source seqNr .dropped) : Node × Report Node) = false := by
      simp [handles]
    rw [log_act_request hreports, List.filter_append, List.filter_singleton, hnone]
    simpa using hlog.once node other otherNr
  · intro position node other otherNr outcome hat hnewest
    rw [log_act_request hreports] at hat hnewest
    by_cases hlt : position < world.log.length
    · exact newest_append hlog hlt hat hnewest
    · -- the dropped request itself: its source was seen with this number or a larger one
      have hposition : position = world.log.length := by
        have hbound := (List.getElem?_eq_some_iff.1 hat).1
        rw [List.length_append, List.length_singleton] at hbound
        omega
      subst hposition
      rw [List.getElem?_concat_length] at hat
      simp only [Option.some.injEq, Prod.mk.injEq, Report.request.injEq] at hat
      obtain ⟨rfl, rfl, rfl, -⟩ := hat
      exfalso
      rcases hlog.attained actor source with hzero | ⟨earlier, hmem⟩
      · rw [hzero] at hle
        exact absurd (hpos.trans_le hle) (lt_irrefl 0)
      · obtain ⟨index, hindex, hat⟩ := List.getElem_of_mem hmem
        have hbefore := hnewest index hindex _ earlier (by
          rw [List.getElem?_append_left hindex, List.getElem?_eq_getElem hindex, hat])
        exact absurd (UInt16.lt_iff_toNat_lt.1 hbefore) (not_lt.2 hle)

theorem FloodLog.act_taken (hlog : FloodLog world) {source : Node} {seqNr : UInt16}
    {outcome : Outcome} (houtcome : outcome ≠ .dropped)
    (hreports : result.2.reports = [.request source seqNr outcome])
    (hlt : ((world.states actor).getSeqNr source).toNat < seqNr.toNat)
    (hself : result.1.getSeqNr source = seqNr)
    (hother : ∀ other, other ≠ source →
      result.1.getSeqNr other = (world.states actor).getSeqNr other) :
    FloodLog (world.act actor result) := by
  have hnumber : ∀ node other, ¬ (node = actor ∧ other = source) →
      ((world.act actor result).states node).getSeqNr other =
        (world.states node).getSeqNr other := by
    intro node other hne
    by_cases hnode : node = actor
    · subst hnode
      rw [World.act_states_self]
      exact hother other fun heq => hne ⟨rfl, heq⟩
    · exact getSeqNr_act_other hnode other
  have hnew : ((world.act actor result).states actor).getSeqNr source = seqNr := by
    rw [World.act_states_self]
    exact hself
  constructor
  · intro node other otherNr otherOutcome hmem
    rw [log_act_request hreports, List.mem_append, List.mem_singleton] at hmem
    by_cases hpair : node = actor ∧ other = source
    · obtain ⟨rfl, rfl⟩ := hpair
      rw [hnew]
      rcases hmem with hold | heq
      · exact (hlog.upper node other otherNr otherOutcome hold).trans hlt.le
      · simp only [Prod.mk.injEq, Report.request.injEq] at heq
        rw [heq.2.2.1]
    · rw [hnumber node other hpair]
      rcases hmem with hold | heq
      · exact hlog.upper node other otherNr otherOutcome hold
      · simp only [Prod.mk.injEq, Report.request.injEq] at heq
        exact absurd ⟨heq.1, heq.2.1⟩ hpair
  · intro node other
    rw [log_act_request hreports]
    by_cases hpair : node = actor ∧ other = source
    · obtain ⟨rfl, rfl⟩ := hpair
      rw [hnew]
      exact .inr ⟨outcome, by simp⟩
    · rw [hnumber node other hpair]
      apply (hlog.attained node other).imp_right
      intro hmem
      obtain ⟨otherOutcome, hmem⟩ := hmem
      exact ⟨otherOutcome, List.mem_append_left _ hmem⟩
  · intro node other otherNr
    rw [log_act_request hreports, List.filter_append, List.filter_singleton]
    by_cases hhandles : handles node other otherNr
        ((actor, .request source seqNr outcome) : Node × Report Node) = true
    · obtain ⟨taken, heq, -⟩ := handles_eq_true hhandles
      simp only [Prod.mk.injEq, Report.request.injEq] at heq
      obtain ⟨rfl, rfl, rfl, -⟩ := heq
      -- an earlier request with this number would have left it in the table
      have hnone : world.log.filter (handles actor source seqNr) = [] := by
        rw [List.filter_eq_nil_iff]
        intro entry hentry hearlier
        obtain ⟨earlier, rfl, -⟩ := handles_eq_true hearlier
        exact absurd (hlog.upper actor source seqNr earlier hentry) (not_le.2 hlt)
      rw [hnone, hhandles]
      simp
    · rw [Bool.eq_false_iff.2 hhandles]
      simpa using hlog.once node other otherNr
  · intro position node other otherNr otherOutcome hat hnewest
    rw [log_act_request hreports] at hat hnewest
    by_cases hposition : position < world.log.length
    · exact newest_append hlog hposition hat hnewest
    · have hend : position = world.log.length := by
        have hbound := (List.getElem?_eq_some_iff.1 hat).1
        rw [List.length_append, List.length_singleton] at hbound
        omega
      subst hend
      rw [List.getElem?_concat_length] at hat
      simp only [Option.some.injEq, Prod.mk.injEq, Report.request.injEq] at hat
      rw [← hat.2.2.2]
      exact houtcome

theorem FloodLog.act (hlog : FloodLog world) (hnoted : Noted (world.states actor) result) :
    FloodLog (world.act actor result) := by
  cases hnoted with
  | quiet hnumbers hreports => exact hlog.act_quiet hnumbers hreports
  | dropped source seqNr hsame hreports hle hpos =>
      exact hlog.act_dropped hsame hreports hle hpos
  | taken source seqNr outcome houtcome hreports hlt hself hother =>
      exact hlog.act_taken houtcome hreports hlt hself hother

end Act

/-! ## Runs -/

/-- In every run in which no sequence number wraps, no request is taken without
room for its number and no reply brings home another number than the one seen of
its destination, every node rebroadcasts or answers each request at most once,
and it does not drop a request that is newer than all earlier ones of its source. -/
theorem requests_once (config : Config) (hears : Node → Node → Prop) [DecidableRel hears]
    (operations : List (Op Node (Input Node)))
    (world : World Node (DsrRouting Node) (Message Node) (Report Node))
    (hrun : Transition.Run
      (Transition.Guarded (fun before op => floodsIntact config before op = true)
        (Transition.stepOf (perform (dsrProtocol config) hears)))
      (.initial (dsrProtocol config)) operations world) :
    (∀ (node source : Node) (sequenceNr : UInt16),
      (world.log.filter (handles node source sequenceNr)).length ≤ 1) ∧
    ∀ (position : ℕ) (node source : Node) (sequenceNr : UInt16) (outcome : Outcome),
      world.log[position]? = some (node, .request source sequenceNr outcome) →
      NewestAt world.log position node source sequenceNr → outcome ≠ .dropped := by
  have hinvariant : Local Numbered Positive AnyReport world ∧ FloodLog world := by
    apply hrun.invariant
    · intro before op after hbefore hop
      obtain ⟨hlocal, hlog⟩ := hbefore
      obtain ⟨hguard, hperform⟩ := hop
      rcases perform_cases hperform with
        ⟨node, input, result, rfl, hresult, rfl⟩ |
          ⟨node, position, packet, rfl, hposition, hpacket, -, rfl⟩ | ⟨position, -, rfl⟩
      · have hnumbered := hlocal.nodes node
        exact ⟨hlocal.act (keeps_input_number hguard hnumbered hresult),
          hlog.act (noted_input hnumbered hresult)⟩
      · have hpositive := hlocal.air packet hpacket
        exact ⟨hlocal.act (keeps_receive_number (hlocal.nodes node) hpositive),
          hlog.act (noted_receive hguard hposition hpositive)⟩
      · exact ⟨hlocal.lose position, ⟨hlog.upper, hlog.attained, hlog.once, hlog.newest⟩⟩
    · refine ⟨⟨?_, ?_, ?_⟩, ⟨?_, ?_, ?_, ?_⟩⟩ <;> intros
      all_goals simp_all [World.initial, dsrProtocol, construct, Numbered, DsrRouting.getSeqNr]
  exact ⟨hinvariant.2.once, hinvariant.2.newest⟩

/-- A request travels over the middle node to its destination, and its duplicate
is dropped. -/
def floodOperations : List (Op (Fin 3) (Input (Fin 3))) :=
  [.input 0 .init, .input 1 .init, .input 2 .init, .input 0 (.send 2 [7]), .deliver 1 0,
    .deliver 2 1, .deliver 1 0]

theorem requests_once_three :
    (∀ (node source : Fin 3) (sequenceNr : UInt16),
      ((threeWorld floodOperations).log.filter (handles node source sequenceNr)).length ≤ 1) ∧
    ∀ (position : ℕ) (node source : Fin 3) (sequenceNr : UInt16) (outcome : Outcome),
      (threeWorld floodOperations).log[position]? =
        some (node, .request source sequenceNr outcome) →
      NewestAt (threeWorld floodOperations).log position node source sequenceNr →
      outcome ≠ .dropped :=
  requests_once threeConfig Apart floodOperations (threeWorld floodOperations)
    (Transition.Run.of_foldlM_guarded rfl)

/-- A node gets a reply from another one and then, for the first time, a request
of that other node. -/
def replyOperations : List (Op (Fin 3) (Input (Fin 3))) :=
  [.input 0 .init, .input 1 .init, .input 0 (.send 1 [7]), .deliver 1 0, .deliver 0 1,
    .input 1 (.send 2 [8]), .deliver 0 3]

theorem requests_not_once :
    ¬ ∀ (operations : List (Op (Fin 3) (Input (Fin 3))))
        (world : World (Fin 3) (DsrRouting (Fin 3)) (Message (Fin 3)) (Report (Fin 3))),
      Transition.Run
        (Transition.Guarded (fun before op => numbersLast before op = true)
          (Transition.stepOf (perform (dsrProtocol threeConfig) Apart)))
        (.initial (dsrProtocol threeConfig)) operations world →
      (∀ (node source : Fin 3) (sequenceNr : UInt16),
        (world.log.filter (handles node source sequenceNr)).length ≤ 1) ∧
      ∀ (position : ℕ) (node source : Fin 3) (sequenceNr : UInt16) (outcome : Outcome),
        world.log[position]? = some (node, .request source sequenceNr outcome) →
        NewestAt world.log position node source sequenceNr → outcome ≠ .dropped := by
  intro honce
  have hlog : (threeWorld replyOperations).log =
      [(0, .requested 1 1), (1, .request 0 1 .answered), (1, .requested 2 1),
        (0, .request 1 1 .dropped)] := by
    decide +kernel
  have hnewest := (honce replyOperations (threeWorld replyOperations)
    (Transition.Run.of_foldlM_guarded rfl)).2 3 0 1 1 .dropped (by rw [hlog]; rfl)
  apply hnewest _ rfl
  -- nothing the node received before came from that source
  intro earlier hearlier earlierNr outcome hfound
  rw [hlog] at hfound
  match earlier, hearlier with
  | 0, _ => simp at hfound
  | 1, _ => simp at hfound
  | 2, _ => simp at hfound

end Wiselib.Routing.Dsr
