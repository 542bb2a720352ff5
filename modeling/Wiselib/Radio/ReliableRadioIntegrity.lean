import Wiselib.Radio.ReliableRadioUndelivered

/-!
# What the reliable radio hands over

The network may lose, repeat and reorder frames, and the ids may wrap.  Still a
payload that is handed over was passed to `send` for this node, and a reply that
comes in is to a payload that was handed over.
-/

namespace Wiselib.Radio.Reliable

open Network

variable {Node : Type*} {config : Config}

/-- What an entry promises: the receiver, the id and the payload. -/
def ReliableRadioMessage.promise (message : ReliableRadioMessage Node) :
    Node × UInt32 × List UInt8 :=
  (message.destination, message.message_id, message.payload)

/-- The entries after a step are those before it and a message that `send` took,
and the copies that are sent are of entries. -/
structure Carries (op : Op Node (Input Node)) (actor : Node)
    (before : List (Node × UInt32 × List UInt8))
    (result : ReliableRadio Node × Effects Node (Frame Node) (Report Node)) : Prop where
  entries : ∀ promise ∈ result.1.messages.map ReliableRadioMessage.promise,
    promise ∈ before ∨ op = .input actor (.send (some promise.1) promise.2.2) ∧
      .accepted promise.1 promise.2.1 ∈ result.2.reports
  copies : ∀ receiver id counter payload,
    (receiver, Frame.message id counter payload) ∈ result.2.sends →
    ∃ destination, receiver = some destination ∧
      (destination, id, payload) ∈ result.1.messages.map ReliableRadioMessage.promise

variable {op : Op Node (Input Node)} {actor : Node} {state : ReliableRadio Node}

theorem carries_daemon : Carries op actor (state.messages.map ReliableRadioMessage.promise)
    (state.daemon config) := by
  have hround : ∀ message : ReliableRadioMessage Node,
      (daemonMessage config state message).1.promise = message.promise := by
    intro message
    unfold daemonMessage
    split
    · rfl
    · split
      · rfl
      · rfl
  have hentries : (state.daemon config).1.messages.map ReliableRadioMessage.promise =
      state.messages.map ReliableRadioMessage.promise := by
    unfold ReliableRadio.daemon
    split
    · simp [hround]
    · rfl
  constructor
  · intro promise hpromise
    rw [hentries] at hpromise
    exact .inl hpromise
  · intro receiver id counter payload hsend
    obtain ⟨message, hmessage, heq, -⟩ := ReliableRadio.mem_daemon_sends hsend
    simp only [ReliableRadioMessage.frame, Prod.mk.injEq, Frame.message.injEq] at heq
    obtain ⟨rfl, rfl, -, rfl⟩ := heq
    rw [hentries]
    exact ⟨message.destination, rfl, List.mem_map_of_mem hmessage⟩

theorem carries_send {destination : Option Node} {payload : List UInt8} :
    Carries (.input actor (.send destination payload)) actor
      (state.messages.map ReliableRadioMessage.promise)
      (state.send config destination payload) := by
  unfold ReliableRadio.send
  split
  · cases destination with
    | none => exact ⟨fun _ hold => .inl hold, by simp⟩
    | some destination =>
        dsimp only
        split
        · rename_i messages hinsert
          constructor
          · intro promise hpromise
            obtain ⟨message, hmessage, rfl⟩ := List.mem_map.1 hpromise
            rcases mem_insertOrReplace hinsert hmessage with rfl | hold
            · exact .inr ⟨rfl, List.mem_cons_self⟩
            · exact .inl (List.mem_map_of_mem hold)
          · intro receiver id counter copy hsend
            simp only [ReliableRadioMessage.frame, List.mem_singleton, Prod.mk.injEq,
              Frame.message.injEq] at hsend
            obtain ⟨rfl, rfl, -, rfl⟩ := hsend
            exact ⟨destination, rfl, List.mem_map.2 ⟨_, mem_insertOrReplace_self hinsert, rfl⟩⟩
        · exact ⟨fun _ hold => .inl hold, by simp⟩
  · exact ⟨fun _ hold => .inl hold, by simp⟩

theorem carries_input {input : Input Node}
    {result : ReliableRadio Node × Effects Node (Frame Node) (Report Node)}
    (hinput : state.input config input = some result) :
    Carries (.input actor input) actor (state.messages.map ReliableRadioMessage.promise)
      result := by
  cases input with
  | enableRadio =>
      rw [← Option.some.inj hinput]
      exact @carries_daemon _ config _ _ { state with active := true }
  | disableRadio =>
      rw [← Option.some.inj hinput]
      exact ⟨fun _ hold => .inl hold, by simp⟩
  | regRecvCallback =>
      simp only [ReliableRadio.input] at hinput
      split at hinput
      · rw [← Option.some.inj hinput]
        exact ⟨fun _ hold => .inl hold, by simp⟩
      · rw [← Option.some.inj hinput]
        exact ⟨fun _ hold => .inl hold, by simp⟩
  | send destination payload =>
      rw [← Option.some.inj hinput]
      exact carries_send
  | daemon =>
      rw [← Option.some.inj hinput]
      exact carries_daemon

variable [DecidableEq Node] {sender : Node} {frame : Frame Node}

theorem map_promise_setDelivered (id : UInt32) (sender : Node)
    (messages : List (ReliableRadioMessage Node)) :
    (setDelivered id sender messages).map ReliableRadioMessage.promise =
      messages.map ReliableRadioMessage.promise := by
  induction messages with
  | nil => rfl
  | cons first rest ih =>
      unfold setDelivered
      split
      · rfl
      · simp [ih]

theorem carries_receive : Carries op actor (state.messages.map ReliableRadioMessage.promise)
    (state.receive config actor sender frame) := by
  unfold ReliableRadio.receive
  split
  · cases frame with
    | message id counter payload =>
        dsimp only
        unfold ReliableRadio.receiveMessage
        split
        · exact ⟨fun _ hold => .inl hold, by simp⟩
        · split
          · exact ⟨fun _ hold => .inl hold, by simp⟩
          · exact ⟨fun _ hold => .inl hold, by simp⟩
    | reply id counter destination =>
        refine ⟨?_, by simp⟩
        intro promise hpromise
        rw [map_promise_setDelivered] at hpromise
        exact .inl hpromise
    | broadcast payload => exact ⟨fun _ hold => .inl hold, by simp⟩
  · exact ⟨fun _ hold => .inl hold, by simp⟩

/-- What a node with a callback reports when a frame comes in, and what it
replies to. -/
theorem reports_receive (hcallbacks : state.callbacks ≠ 0) :
    (∀ receiver id counter destination,
      (receiver, Frame.reply id counter destination) ∈
        (state.receive config actor sender frame).2.sends →
      receiver = some sender ∧ ∃ payload,
        Report.handed sender id payload ∈ (state.receive config actor sender frame).2.reports) ∧
    (∀ origin id payload,
      Report.handed origin id payload ∈ (state.receive config actor sender frame).2.reports →
      origin = sender ∧ ∃ counter, frame = .message id counter payload) ∧
    ∀ origin id, Report.replied origin id ∈ (state.receive config actor sender frame).2.reports →
      origin = sender ∧ ∃ counter destination, frame = .reply id counter destination := by
  unfold ReliableRadio.receive
  split
  · cases frame with
    | message id counter payload =>
        dsimp only
        unfold ReliableRadio.receiveMessage
        split
        · simp
        · split
          · simp_all
          · simp
    | reply id counter destination => simp_all
    | broadcast payload => simp
  · simp

/-! ## Runs -/

/-- `send` took the payload for the receiver under this id. -/
def Sent (operations : List (Op Node (Input Node))) (log : List (Node × Report Node))
    (sender : Node) (promise : Node × UInt32 × List UInt8) : Prop :=
  .input sender (.send (some promise.1) promise.2.2) ∈ operations ∧
    (sender, .accepted promise.1 promise.2.1) ∈ log

/-- Entries, copies and what was handed over come from `send`, and replies from
what was handed over. -/
structure Genuine (operations : List (Op Node (Input Node)))
    (world : World Node (ReliableRadio Node) (Frame Node) (Report Node)) : Prop where
  entries : ∀ node, ∀ promise ∈ (world.states node).messages.map ReliableRadioMessage.promise,
    Sent operations world.log node promise
  copies : ∀ packet ∈ world.sent, ∀ id counter payload, packet.frame = .message id counter payload →
    ∃ receiver, packet.receiver = some receiver ∧
      Sent operations world.log packet.sender (receiver, id, payload)
  replies : ∀ packet ∈ world.sent, ∀ id counter destination,
    packet.frame = .reply id counter destination →
    ∃ sender, packet.receiver = some sender ∧
      ∃ payload, (packet.sender, .handed sender id payload) ∈ world.log
  handed : ∀ receiver sender id payload, (receiver, .handed sender id payload) ∈ world.log →
    Sent operations world.log sender (receiver, id, payload)
  replied : ∀ sender receiver id, (sender, .replied receiver id) ∈ world.log →
    ∃ payload, (receiver, .handed sender id payload) ∈ world.log

variable {past : List (Op Node (Input Node))}
  {world : World Node (ReliableRadio Node) (Frame Node) (Report Node)}
  {result : ReliableRadio Node × Effects Node (Frame Node) (Report Node)}

theorem Genuine.act (hworld : Genuine past world)
    (hcarries : Carries op actor
      ((world.states actor).messages.map ReliableRadioMessage.promise) result)
    (hreplies : ∀ receiver id counter destination,
      (receiver, Frame.reply id counter destination) ∈ result.2.sends →
      ∃ sender, receiver = some sender ∧ ∃ payload, .handed sender id payload ∈ result.2.reports)
    (hhanded : ∀ sender id payload, .handed sender id payload ∈ result.2.reports →
      Sent past world.log sender (actor, id, payload))
    (hreplied : ∀ receiver id, .replied receiver id ∈ result.2.reports →
      ∃ payload, (receiver, .handed actor id payload) ∈ world.log) :
    Genuine (past ++ [op]) (world.act actor result) := by
  have hlog : ∀ {entry}, entry ∈ world.log → entry ∈ (world.act actor result).log :=
    fun hentry => World.mem_act_log.2 (.inl hentry)
  have hsent : ∀ {sender promise}, Sent past world.log sender promise →
      Sent (past ++ [op]) (world.act actor result).log sender promise :=
    fun hsent => ⟨List.mem_append_left _ hsent.1, hlog hsent.2⟩
  have hentries : ∀ promise ∈ result.1.messages.map ReliableRadioMessage.promise,
      Sent (past ++ [op]) (world.act actor result).log actor promise := by
    intro promise hpromise
    rcases hcarries.entries promise hpromise with hold | ⟨hop, haccepted⟩
    · exact hsent (hworld.entries actor promise hold)
    · exact ⟨by simp [hop], World.mem_act_log.2 (.inr ⟨rfl, haccepted⟩)⟩
  constructor
  · intro node promise hpromise
    by_cases hnode : node = actor
    · subst hnode
      rw [World.act_states_self] at hpromise
      exact hentries promise hpromise
    · rw [World.act_states_other _ _ hnode] at hpromise
      exact hsent (hworld.entries node promise hpromise)
  · intro packet hpacket id counter payload hframe
    rcases World.mem_act_sent.1 hpacket with hold | ⟨rfl, hsend⟩
    · obtain ⟨receiver, hreceiver, hcopy⟩ := hworld.copies packet hold id counter payload hframe
      exact ⟨receiver, hreceiver, hsent hcopy⟩
    · rw [hframe] at hsend
      obtain ⟨receiver, hreceiver, hmem⟩ := hcarries.copies _ id counter payload hsend
      exact ⟨receiver, hreceiver, hentries _ hmem⟩
  · intro packet hpacket id counter destination hframe
    rcases World.mem_act_sent.1 hpacket with hold | ⟨rfl, hsend⟩
    · obtain ⟨sender, hsender, payload, hmem⟩ :=
        hworld.replies packet hold id counter destination hframe
      exact ⟨sender, hsender, payload, hlog hmem⟩
    · rw [hframe] at hsend
      obtain ⟨sender, hsender, payload, hmem⟩ := hreplies _ id counter destination hsend
      exact ⟨sender, hsender, payload, World.mem_act_log.2 (.inr ⟨rfl, hmem⟩)⟩
  · intro receiver sender id payload hentry
    rcases World.mem_act_log.1 hentry with hold | ⟨hactor, hreport⟩
    · exact hsent (hworld.handed receiver sender id payload hold)
    · obtain rfl : receiver = actor := hactor
      exact hsent (hhanded sender id payload hreport)
  · intro sender receiver id hentry
    rcases World.mem_act_log.1 hentry with hold | ⟨hactor, hreport⟩
    · obtain ⟨payload, hmem⟩ := hworld.replied sender receiver id hold
      exact ⟨payload, hlog hmem⟩
    · obtain rfl : sender = actor := hactor
      obtain ⟨payload, hmem⟩ := hreplied receiver id hreport
      exact ⟨payload, hlog hmem⟩

/-- The step delivers a frame only to a node with a callback. -/
def heard (world : World Node (ReliableRadio Node) (Frame Node) (Report Node)) :
    Op Node (Input Node) → Bool
  | .deliver node _ => decide ((world.states node).callbacks ≠ 0)
  | _ => true

/-- A message arrives twice, and the reply to it arrives. -/
def answeredOperations : List (Op (Fin 2) (Input (Fin 2))) :=
  startOperations ++ [.input 1 (.send (some 0) [7]), .deliver 0 0, .deliver 0 0, .deliver 1 1]

end Wiselib.Radio.Reliable
