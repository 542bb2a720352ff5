import Wiselib.Radio.ReliableRadio

/-!
# Messages are handed over once

The table of replies is what keeps a receiver from handing a message over again.
An entry may be overwritten once its counter has reached `max_retries`, and the
counter grows with the daemon of the receiver, whatever the sender still has to
send and whatever is still in the air.

`handed_once` proves that this is the only way to hand a message over twice: in
every run in which an entry is overwritten only when no copy of its message can
come any more, each message is handed over at most once.  `handed_twice` is a
run of the default configuration in which a copy comes after thirty other
messages.

## Strategy

A message that was handed over is remembered by the table, or nothing is left of
it: no copy is in the air, and its sender will not send it again (`quiet`).  Both
are stable.  A sender makes copies from the entries of its buffer or under fresh
ids (`Advances`), and a receiver forgets only what it overwrites.
-/

namespace Wiselib.Radio.Reliable

open Network

variable {Node : Type*} [DecidableEq Node] {config : Config}

/-! ## The condition -/

/-- The daemon will send the entry again. -/
def pending (config : Config) (message : ReliableRadioMessage Node) : Bool :=
  decide (message.counter.toNat < config.maxRetries) && !message.delivered

/-- The packet carries the message with this id from the sender and may reach the
receiver. -/
def carries (sender receiver : Node) (id : UInt32) (packet : Packet Node (Frame Node)) : Bool :=
  decide (packet.sender = sender) &&
    (decide (packet.receiver = none) || decide (packet.receiver = some receiver)) &&
    match packet.frame with
    | .message other _ _ => other == id
    | _ => false

/-- No copy of the message is in the air, and the sender will not send it again. -/
def quiet (config : Config) (world : World Node (ReliableRadio Node) (Frame Node) (Report Node))
    (sender receiver : Node) (id : UInt32) : Bool :=
  (world.sent.all fun packet => !carries sender receiver id packet) &&
    (world.states sender).messages.all fun message =>
      !(message.message_id == id && decide (message.destination = receiver) &&
        pending config message)

/-- The condition on a step: a reply is overwritten only when nothing is left of
its message. -/
def repliesKept (config : Config)
    (world : World Node (ReliableRadio Node) (Frame Node) (Report Node)) :
    Op Node (Input Node) → Bool
  | .deliver node position =>
      let state := world.states node
      match world.sent[position]? with
      | some ⟨sender, _, .message id _ _⟩ =>
          !state.active || decide (sender = node) || repliesCheck id sender state.replies ||
            match overwritten config.maxBufferedReplies (obsoleteReply config) state.replies with
            | none => true
            | some reply => quiet config world reply.destination node reply.message_id
      | _ => true
  | _ => true

/-- The report says that the node handed over the message. -/
def hands (node sender : Node) (id : UInt32) : Node × Report Node → Bool
  | (other, .handed otherSender otherId _) =>
      decide (other = node) && decide (otherSender = sender) && otherId == id
  | _ => false

/-! ## What a node does as a sender -/

/-- Entries and copies of messages come from entries that were there or have
fresh ids, and an entry that was not pending does not become pending. -/
structure Advances (config : Config) (state : ReliableRadio Node)
    (result : ReliableRadio Node × Effects Node (Frame Node) (Report Node)) : Prop where
  callbacks : state.callbacks ≤ config.maxRegisteredProtocols →
    result.1.callbacks ≤ config.maxRegisteredProtocols
  seq_le : state.seq.toNat ≤ result.1.seq.toNat
  entries : ∀ message ∈ result.1.messages,
    (state.seq.toNat ≤ message.message_id.toNat ∧
      message.message_id.toNat < result.1.seq.toNat) ∨
    ∃ old ∈ state.messages, old.message_id = message.message_id ∧
      old.destination = message.destination ∧
      (pending config message = true → pending config old = true)
  copies : ∀ receiver id counter payload,
    (receiver, Frame.message id counter payload) ∈ result.2.sends →
    (state.seq.toNat ≤ id.toNat ∧ id.toNat < result.1.seq.toNat) ∨
    ∃ old ∈ state.messages, old.message_id = id ∧ receiver = some old.destination ∧
      pending config old = true

omit [DecidableEq Node] in
theorem Advances.of_same {state : ReliableRadio Node}
    {result : ReliableRadio Node × Effects Node (Frame Node) (Report Node)}
    (hcallbacks : result.1.callbacks = state.callbacks) (hseq : result.1.seq = state.seq)
    (hmessages : result.1.messages = state.messages)
    (hsends : ∀ receiver id counter payload,
      (receiver, Frame.message id counter payload) ∉ result.2.sends) :
    Advances config state result where
  callbacks := by
    rw [hcallbacks]
    exact id
  seq_le := by rw [hseq]
  entries := by
    intro message hmessage
    rw [hmessages] at hmessage
    exact .inr ⟨message, hmessage, rfl, rfl, id⟩
  copies := fun receiver id counter payload hsend =>
    absurd hsend (hsends receiver id counter payload)

omit [DecidableEq Node] in
theorem daemonMessage_spec {state : ReliableRadio Node} (message : ReliableRadioMessage Node)
    (hcallbacks : state.callbacks ≤ config.maxRegisteredProtocols) :
    (daemonMessage config state message).1.message_id = message.message_id ∧
    (daemonMessage config state message).1.destination = message.destination ∧
    (pending config (daemonMessage config state message).1 = true →
      pending config message = true) ∧
    ∀ receiver id counter payload,
      (receiver, Frame.message id counter payload) ∈ (daemonMessage config state message).2.sends →
      id = message.message_id ∧ receiver = some message.destination ∧
        pending config message = true := by
  unfold daemonMessage
  split
  · rename_i hpending
    have hmessage : pending config message = true := by simp [pending, hpending.1, hpending.2]
    refine ⟨rfl, rfl, fun _ => hmessage, ?_⟩
    intro receiver id counter payload hsend
    simp only [Effects.send_sends, List.mem_singleton, ReliableRadioMessage.frame, Prod.mk.injEq,
      Frame.message.injEq] at hsend
    exact ⟨hsend.2.1, hsend.1, hmessage⟩
  · split
    · rename_i hlimit
      refine ⟨rfl, rfl, ?_, ?_⟩
      · -- the counter is at the limit and has room for all callbacks
        intro hpending
        exfalso
        have hfits := config.counter_fits
        simp only [pending, Bool.and_eq_true, decide_eq_true_eq] at hpending
        have hcount := hpending.1
        rw [UInt8.toNat_add, UInt8.toNat_ofNat', hlimit.1] at hcount
        rw [Nat.mod_eq_of_lt (show state.callbacks < 256 by omega)] at hcount
        rw [Nat.mod_eq_of_lt (show config.maxRetries + state.callbacks < 256 by omega)] at hcount
        omega
      · intro receiver id counter payload hsend
        simp at hsend
    · refine ⟨rfl, rfl, id, ?_⟩
      intro receiver id counter payload hsend
      simp at hsend

omit [DecidableEq Node] in
theorem advances_daemon {state : ReliableRadio Node}
    (hcallbacks : state.callbacks ≤ config.maxRegisteredProtocols) :
    Advances config state (state.daemon config) := by
  unfold ReliableRadio.daemon
  split
  · refine ⟨id, le_rfl, ?_, ?_⟩
    · intro message hmessage
      simp only [List.map_map, List.mem_map, Function.comp_apply] at hmessage
      obtain ⟨old, hold, rfl⟩ := hmessage
      obtain ⟨hid, hdestination, hpending, -⟩ := daemonMessage_spec old hcallbacks
      exact .inr ⟨old, hold, hid.symm, hdestination.symm, hpending⟩
    · intro receiver id counter payload hsend
      simp only [List.mem_flatMap, List.mem_map] at hsend
      obtain ⟨-, ⟨old, hold, rfl⟩, hsend⟩ := hsend
      obtain ⟨-, -, -, hcopies⟩ := daemonMessage_spec old hcallbacks
      obtain ⟨rfl, hreceiver, hpending⟩ := hcopies receiver id counter payload hsend
      exact .inr ⟨old, hold, rfl, hreceiver, hpending⟩
  · exact Advances.of_same rfl rfl rfl (by simp)

omit [DecidableEq Node] in
theorem advances_send {state : ReliableRadio Node} {destination : Option Node}
    {payload : List UInt8}
    (hlast : state.active = true → destination ≠ none → state.seq ≠ 4294967295) :
    Advances config state (state.send config destination payload) := by
  unfold ReliableRadio.send
  split
  · rename_i hactive
    cases destination with
    | none => exact Advances.of_same rfl rfl rfl (by simp)
    | some destination =>
        have hnext := toNat_seq_add_one (hlast hactive (by simp))
        dsimp only
        split
        · rename_i messages hinsert
          refine ⟨id, by rw [hnext]; exact Nat.le_succ _, ?_, ?_⟩
          · intro message hmessage
            rw [hnext]
            rcases mem_insertOrReplace hinsert hmessage with rfl | hold
            · exact .inl ⟨le_rfl, Nat.lt_succ_self _⟩
            · exact .inr ⟨message, hold, rfl, rfl, id⟩
          · intro receiver id counter copy hsend
            rw [hnext]
            simp only [List.mem_singleton, ReliableRadioMessage.frame, Prod.mk.injEq,
              Frame.message.injEq] at hsend
            rw [hsend.2.1]
            exact .inl ⟨le_rfl, Nat.lt_succ_self _⟩
        · refine ⟨id, by rw [hnext]; exact Nat.le_succ _, ?_, by simp⟩
          intro message hmessage
          exact .inr ⟨message, hmessage, rfl, rfl, id⟩
  · exact Advances.of_same rfl rfl rfl (by simp)

/-- Marking an entry as delivered keeps its id and destination. -/
theorem mem_setDelivered {id : UInt32} {sender : Node}
    {messages : List (ReliableRadioMessage Node)} {message : ReliableRadioMessage Node}
    (hmessage : message ∈ setDelivered id sender messages) :
    ∃ old ∈ messages, old.message_id = message.message_id ∧
      old.destination = message.destination ∧
      (pending config message = true → pending config old = true) := by
  induction messages with
  | nil => simp [setDelivered] at hmessage
  | cons first rest ih =>
      unfold setDelivered at hmessage
      split at hmessage
      · rcases List.mem_cons.1 hmessage with rfl | hrest
        · refine ⟨first, List.mem_cons_self, rfl, rfl, ?_⟩
          simp [pending]
        · exact ⟨message, List.mem_cons_of_mem _ hrest, rfl, rfl, fun hpending => hpending⟩
      · rcases List.mem_cons.1 hmessage with rfl | hrest
        · exact ⟨message, List.mem_cons_self, rfl, rfl, fun hpending => hpending⟩
        · obtain ⟨old, hold, hsame⟩ := ih hrest
          exact ⟨old, List.mem_cons_of_mem _ hold, hsame⟩

theorem advances_receive {state : ReliableRadio Node} {node sender : Node} {frame : Frame Node} :
    Advances config state (state.receive config node sender frame) := by
  unfold ReliableRadio.receive
  split
  · cases frame with
    | message id counter payload =>
        dsimp only
        unfold ReliableRadio.receiveMessage
        split
        · exact Advances.of_same rfl rfl rfl (by simp)
        · split
          · exact Advances.of_same rfl rfl rfl (by simp)
          · exact Advances.of_same rfl rfl rfl (by simp)
    | reply id counter destination =>
        refine ⟨fun hcallbacks => hcallbacks, le_rfl, ?_, by simp⟩
        intro message hmessage
        exact .inr (mem_setDelivered hmessage)
    | broadcast payload => exact Advances.of_same rfl rfl rfl (by simp)
  · exact Advances.of_same rfl rfl rfl (by simp)

/-! ## What a node does as a receiver -/

/-- A handler hands nothing over and forgets no reply, or it hands over a message
that arrived and is new to the table, and forgets at most the reply it
overwrites. -/
inductive Receives (config : Config) (arrived : Node → UInt32 → Prop) (state : ReliableRadio Node)
    (result : ReliableRadio Node × Effects Node (Frame Node) (Report Node)) : Prop
  | nothing
      (hreports : ∀ sender id payload, Report.handed sender id payload ∉ result.2.reports)
      (hreplies : ∀ id sender, repliesCheck id sender state.replies = true →
        repliesCheck id sender result.1.replies = true)
  | handed (sender : Node) (id : UInt32) (payload : List UInt8) (harrived : arrived sender id)
      (hreports : result.2.reports = state.tell (.handed sender id payload))
      (hnew : repliesCheck id sender state.replies = false)
      (hself : repliesCheck id sender result.1.replies = true)
      (hreplies : ∀ otherId other, repliesCheck otherId other state.replies = true →
        repliesCheck otherId other result.1.replies = true ∨
          ∃ reply, overwritten config.maxBufferedReplies (obsoleteReply config) state.replies =
            some reply ∧ reply.message_id = otherId ∧ reply.destination = other)

theorem repliesCheck_iff {id : UInt32} {sender : Node} {replies : List (ReliableRadioReply Node)} :
    repliesCheck id sender replies = true ↔
      ∃ reply ∈ replies, reply.message_id = id ∧ reply.destination = sender := by
  simp [repliesCheck]

theorem receives_daemon {arrived : Node → UInt32 → Prop} {state : ReliableRadio Node} :
    Receives config arrived state (state.daemon config) := by
  unfold ReliableRadio.daemon
  split
  · refine .nothing ?_ ?_
    · intro sender id payload hreport
      simp only [List.mem_flatMap, List.mem_map] at hreport
      obtain ⟨-, ⟨message, -, rfl⟩, hreport⟩ := hreport
      unfold daemonMessage at hreport
      split at hreport
      · simp at hreport
      · split at hreport <;> simp at hreport
    · intro id sender hcheck
      obtain ⟨reply, hreply, hid, hsender⟩ := repliesCheck_iff.1 hcheck
      refine repliesCheck_iff.2 ⟨_, List.mem_map.2 ⟨reply, hreply, rfl⟩, ?_⟩
      unfold daemonReply
      split
      · exact ⟨hid, hsender⟩
      · exact ⟨hid, hsender⟩
  · exact .nothing (by simp) (fun _ _ hcheck => hcheck)

theorem receives_send {arrived : Node → UInt32 → Prop} {state : ReliableRadio Node}
    {destination : Option Node} {payload : List UInt8} :
    Receives config arrived state (state.send config destination payload) := by
  unfold ReliableRadio.send
  split
  · cases destination with
    | none => exact .nothing (by simp) (fun _ _ hcheck => hcheck)
    | some destination =>
        dsimp only
        split
        · exact .nothing (by simp) (fun _ _ hcheck => hcheck)
        · exact .nothing (by simp) (fun _ _ hcheck => hcheck)
  · exact .nothing (by simp) (fun _ _ hcheck => hcheck)

/-- The frame is this message of the sender, and the node listens to it. -/
def Arrived (state : ReliableRadio Node) (node sender : Node) (frame : Frame Node) (origin : Node)
    (id : UInt32) : Prop :=
  origin = sender ∧ (∃ counter payload, frame = .message id counter payload) ∧
    state.active = true ∧ sender ≠ node

theorem receives_receive {state : ReliableRadio Node} {node sender : Node} {frame : Frame Node} :
    Receives config (Arrived state node sender frame) state
      (state.receive config node sender frame) := by
  unfold ReliableRadio.receive
  split
  · rename_i hlistens
    cases frame with
    | message id counter payload =>
        dsimp only
        unfold ReliableRadio.receiveMessage
        split
        · exact .nothing (by simp) (fun _ _ hcheck => hcheck)
        · rename_i hnew
          split
          · rename_i replies hinsert
            refine .handed sender id payload ⟨rfl, ⟨counter, payload, rfl⟩, hlistens⟩ rfl
              (by simpa using hnew) ?_ ?_
            · exact repliesCheck_iff.2 ⟨_, mem_insertOrReplace_self hinsert, rfl, rfl⟩
            · intro otherId other hcheck
              obtain ⟨reply, hreply, hid, hdestination⟩ := repliesCheck_iff.1 hcheck
              apply (mem_insertOrReplace_or_overwritten hinsert hreply).imp
              · intro hstill
                exact repliesCheck_iff.2 ⟨reply, hstill, hid, hdestination⟩
              · intro hoverwritten
                exact ⟨reply, hoverwritten, hid, hdestination⟩
          · exact .nothing (by simp) (fun _ _ hcheck => hcheck)
    | reply id counter destination => exact .nothing (by simp) (fun _ _ hcheck => hcheck)
    | broadcast payload => exact .nothing (by simp) (fun _ _ hcheck => hcheck)
  · exact .nothing (by simp) (fun _ _ hcheck => hcheck)

/-! ## The invariant -/

section Invariant

variable {world : World Node (ReliableRadio Node) (Frame Node) (Report Node)}
  {actor : Node} {result : ReliableRadio Node × Effects Node (Frame Node) (Report Node)}

/-- The ids in use were given out, and what was handed over is remembered or
nothing is left of it; so nothing was handed over twice. -/
structure Once (config : Config)
    (world : World Node (ReliableRadio Node) (Frame Node) (Report Node)) : Prop where
  callbacks : ∀ node, (world.states node).callbacks ≤ config.maxRegisteredProtocols
  buffered : ∀ node, ∀ message ∈ (world.states node).messages,
    message.message_id.toNat < (world.states node).seq.toNat
  air : ∀ packet ∈ world.sent, ∀ id counter payload, packet.frame = .message id counter payload →
    id.toNat < (world.states packet.sender).seq.toNat
  given : ∀ node sender id payload, (node, .handed sender id payload) ∈ world.log →
    id.toNat < (world.states sender).seq.toNat
  remembered : ∀ node sender id payload, (node, .handed sender id payload) ∈ world.log →
    repliesCheck id sender (world.states node).replies = true ∨
      quiet config world sender node id = true
  once : ∀ node sender id, (world.log.filter (hands node sender id)).length ≤ 1

theorem carries_iff {sender receiver : Node} {id : UInt32} {packet : Packet Node (Frame Node)} :
    carries sender receiver id packet = true ↔ packet.sender = sender ∧
      (packet.receiver = none ∨ packet.receiver = some receiver) ∧
      ∃ counter payload, packet.frame = .message id counter payload := by
  unfold carries
  cases packet.frame with
  | message other counter payload =>
      simp only [Bool.and_eq_true, Bool.or_eq_true, decide_eq_true_eq, beq_iff_eq,
        Frame.message.injEq, and_assoc]
      constructor
      · intro h
        exact ⟨h.1, h.2.1, counter, payload, h.2.2, rfl, rfl⟩
      · intro h
        obtain ⟨hsender, hreceiver, -, -, hid, -⟩ := h
        exact ⟨hsender, hreceiver, hid⟩
  | reply other counter destination => simp
  | broadcast payload => simp

theorem quiet_iff {sender receiver : Node} {id : UInt32} :
    quiet config world sender receiver id = true ↔
      (∀ packet ∈ world.sent, carries sender receiver id packet ≠ true) ∧
      ∀ message ∈ (world.states sender).messages, message.message_id = id →
        message.destination = receiver → pending config message ≠ true := by
  simp only [quiet, Bool.and_eq_true, List.all_eq_true, Bool.not_eq_true', ne_eq,
    Bool.not_eq_true]
  apply and_congr_right
  intro _
  constructor
  · intro hall message hmessage hid hdestination
    simpa [hid, hdestination] using hall message hmessage
  · intro hall message hmessage
    by_cases hid : message.message_id = id
    · by_cases hdestination : message.destination = receiver
      · simp [hall message hmessage hid hdestination]
      · simp [hdestination]
    · simp [hid]

theorem seq_le_act (hadvances : Advances config (world.states actor) result) (node : Node) :
    (world.states node).seq.toNat ≤ ((world.act actor result).states node).seq.toNat := by
  by_cases hnode : node = actor
  · subst hnode
    rw [World.act_states_self]
    exact hadvances.seq_le
  · rw [World.act_states_other _ _ hnode]

theorem quiet_act (hadvances : Advances config (world.states actor) result)
    {sender receiver : Node} {id : UInt32} (hgiven : id.toNat < (world.states sender).seq.toNat)
    (hquiet : quiet config world sender receiver id = true) :
    quiet config (world.act actor result) sender receiver id = true := by
  obtain ⟨hair, hbuffer⟩ := quiet_iff.1 hquiet
  refine quiet_iff.2 ⟨?_, ?_⟩
  · intro packet hpacket hcarries
    rcases World.mem_act_sent.1 hpacket with hold | ⟨hactor, hsend⟩
    · exact hair packet hold hcarries
    · obtain ⟨hsender, hreceiver, counter, payload, hframe⟩ := carries_iff.1 hcarries
      rw [hframe] at hsend
      rw [hactor] at hsender
      subst hsender
      rcases hadvances.copies _ _ _ _ hsend with hfresh | ⟨old, hold, hid, hdestination, hpending⟩
      · exact absurd hgiven (not_lt.2 hfresh.1)
      · rw [hdestination] at hreceiver
        have hold_receiver : old.destination = receiver := by simpa using hreceiver
        exact hbuffer old hold hid hold_receiver hpending
  · intro message hmessage hid hdestination hpending
    by_cases hsender : sender = actor
    · subst hsender
      rw [World.act_states_self] at hmessage
      rcases hadvances.entries message hmessage with hfresh | ⟨old, hold, hold_id, hold_dest, himp⟩
      · rw [hid] at hfresh
        exact absurd hgiven (not_lt.2 hfresh.1)
      · exact hbuffer old hold (hold_id.trans hid) (hold_dest.trans hdestination) (himp hpending)
    · rw [World.act_states_other _ _ hsender] at hmessage
      exact hbuffer message hmessage hid hdestination hpending

/-- What the sender does keeps the ids in order. -/
theorem Once.act_ids (honce : Once config world)
    (hadvances : Advances config (world.states actor) result) :
    (∀ node, ((world.act actor result).states node).callbacks ≤ config.maxRegisteredProtocols) ∧
    (∀ node, ∀ message ∈ ((world.act actor result).states node).messages,
      message.message_id.toNat < ((world.act actor result).states node).seq.toNat) ∧
    ∀ packet ∈ (world.act actor result).sent, ∀ id counter payload,
      packet.frame = .message id counter payload →
      id.toNat < ((world.act actor result).states packet.sender).seq.toNat := by
  refine ⟨?_, ?_, ?_⟩
  · intro node
    by_cases hnode : node = actor
    · subst hnode
      rw [World.act_states_self]
      exact hadvances.callbacks (honce.callbacks node)
    · rw [World.act_states_other _ _ hnode]
      exact honce.callbacks node
  · intro node message hmessage
    by_cases hnode : node = actor
    · subst hnode
      rw [World.act_states_self] at hmessage ⊢
      rcases hadvances.entries message hmessage with hfresh | ⟨old, hold, hid, -, -⟩
      · exact hfresh.2
      · rw [← hid]
        exact (honce.buffered node old hold).trans_le hadvances.seq_le
    · rw [World.act_states_other _ _ hnode] at hmessage ⊢
      exact honce.buffered node message hmessage
  · intro packet hpacket id counter payload hframe
    rcases World.mem_act_sent.1 hpacket with hold | ⟨hactor, hsend⟩
    · exact (honce.air packet hold id counter payload hframe).trans_le
        (seq_le_act hadvances packet.sender)
    · rw [hframe] at hsend
      rw [hactor, World.act_states_self]
      rcases hadvances.copies _ _ _ _ hsend with hfresh | ⟨old, hold, hid, -, -⟩
      · exact hfresh.2
      · rw [← hid]
        exact (honce.buffered actor old hold).trans_le hadvances.seq_le

theorem hands_iff {node sender : Node} {id : UInt32} {entry : Node × Report Node} :
    hands node sender id entry = true ↔ ∃ payload, entry = (node, .handed sender id payload) := by
  obtain ⟨other, event⟩ := entry
  cases event with
  | handed otherSender otherId payload =>
      simp only [hands, Bool.and_eq_true, decide_eq_true_eq, beq_iff_eq, Prod.mk.injEq,
        Report.handed.injEq, and_assoc]
      constructor
      · intro h
        exact ⟨payload, h.1, h.2.1, h.2.2, rfl⟩
      · intro h
        obtain ⟨-, hnode, hsender, hid, -⟩ := h
        exact ⟨hnode, hsender, hid⟩
  | accepted destination otherId => simp [hands]
  | replied otherSender otherId => simp [hands]
  | messageBufferFull destination payload => simp [hands]
  | replyBufferFull otherSender payload => simp [hands]
  | undelivered destination otherId payload => simp [hands]

theorem Once.act_nothing (honce : Once config world)
    (hadvances : Advances config (world.states actor) result)
    (hreports : ∀ sender id payload, Report.handed sender id payload ∉ result.2.reports)
    (hreplies : ∀ id sender, repliesCheck id sender (world.states actor).replies = true →
      repliesCheck id sender result.1.replies = true) :
    Once config (world.act actor result) := by
  obtain ⟨hcallbacks, hbuffered, hair⟩ := honce.act_ids hadvances
  have hold : ∀ node sender id payload,
      (node, Report.handed sender id payload) ∈ (world.act actor result).log →
      (node, Report.handed sender id payload) ∈ world.log := by
    intro node sender id payload hmem
    apply (World.mem_act_log.1 hmem).resolve_right
    intro hnew
    exact hreports sender id payload hnew.2
  refine ⟨hcallbacks, hbuffered, hair, ?_, ?_, ?_⟩
  · intro node sender id payload hmem
    exact (honce.given node sender id payload (hold _ _ _ _ hmem)).trans_le
      (seq_le_act hadvances sender)
  · intro node sender id payload hmem
    have hmem := hold _ _ _ _ hmem
    apply (honce.remembered node sender id payload hmem).imp
    · intro hcheck
      by_cases hnode : node = actor
      · subst hnode
        rw [World.act_states_self]
        exact hreplies id sender hcheck
      · rw [World.act_states_other _ _ hnode]
        exact hcheck
    · exact quiet_act hadvances (honce.given node sender id payload hmem)
  · intro node sender id
    have hnone : (result.2.reports.map fun event => (actor, event)).filter
        (hands node sender id) = [] := by
      rw [List.filter_eq_nil_iff]
      intro entry hentry hhands
      obtain ⟨event, hevent, rfl⟩ := List.mem_map.1 hentry
      obtain ⟨payload, heq⟩ := hands_iff.1 hhands
      rw [(Prod.mk.inj heq).2] at hevent
      exact hreports sender id payload hevent
    show ((world.log ++ _).filter _).length ≤ 1
    rw [List.filter_append, hnone, List.append_nil]
    exact honce.once node sender id

theorem Once.act_handed (honce : Once config world)
    (hadvances : Advances config (world.states actor) result) {sender : Node} {id : UInt32}
    {payload : List UInt8}
    (hreports : result.2.reports = (world.states actor).tell (.handed sender id payload))
    (hcopy : ∃ packet ∈ world.sent, carries sender actor id packet = true)
    (hnew : repliesCheck id sender (world.states actor).replies = false)
    (hself : repliesCheck id sender result.1.replies = true)
    (hreplies : ∀ otherId other, repliesCheck otherId other (world.states actor).replies = true →
      repliesCheck otherId other result.1.replies = true ∨
        quiet config world other actor otherId = true) :
    Once config (world.act actor result) := by
  obtain ⟨hcallbacks, hbuffered, hair⟩ := honce.act_ids hadvances
  obtain ⟨packet, hpacket, hcarries⟩ := hcopy
  -- a message that was handed over before would be remembered or quiet
  have hfirst : ∀ earlier, (actor, Report.handed sender id earlier) ∉ world.log := by
    intro earlier hmem
    rcases honce.remembered actor sender id earlier hmem with hcheck | hquiet
    · rw [hnew] at hcheck
      simp at hcheck
    · exact (quiet_iff.1 hquiet).1 packet hpacket hcarries
  have hgiven : id.toNat < (world.states sender).seq.toNat := by
    obtain ⟨hsender, -, counter, copy, hframe⟩ := carries_iff.1 hcarries
    rw [← hsender]
    exact honce.air packet hpacket id counter copy hframe
  have hcases : ∀ node other otherId otherPayload,
      (node, Report.handed other otherId otherPayload) ∈ (world.act actor result).log →
      (node, Report.handed other otherId otherPayload) ∈ world.log ∨
        node = actor ∧ other = sender ∧ otherId = id := by
    intro node other otherId otherPayload hmem
    apply (World.mem_act_log.1 hmem).imp_right
    intro hadded
    rw [hreports, ReliableRadio.mem_tell, Report.handed.injEq] at hadded
    exact ⟨hadded.1, hadded.2.2.1, hadded.2.2.2.1⟩
  refine ⟨hcallbacks, hbuffered, hair, ?_, ?_, ?_⟩
  · intro node other otherId otherPayload hmem
    rcases hcases _ _ _ _ hmem with hold | ⟨-, rfl, rfl⟩
    · exact (honce.given node other otherId otherPayload hold).trans_le
        (seq_le_act hadvances other)
    · exact hgiven.trans_le (seq_le_act hadvances other)
  · intro node other otherId otherPayload hmem
    rcases hcases _ _ _ _ hmem with hold | ⟨rfl, rfl, rfl⟩
    · have hother := honce.given node other otherId otherPayload hold
      rcases honce.remembered node other otherId otherPayload hold with hcheck | hquiet
      · by_cases hnode : node = actor
        · subst hnode
          rw [World.act_states_self]
          exact (hreplies otherId other hcheck).imp_right (quiet_act hadvances hother)
        · rw [World.act_states_other _ _ hnode]
          exact .inl hcheck
      · exact .inr (quiet_act hadvances hother hquiet)
    · rw [World.act_states_self]
      exact .inl hself
  · intro node other otherId
    show ((world.log ++ result.2.reports.map fun event => (actor, event)).filter _).length ≤ 1
    rw [List.filter_append, List.length_append]
    by_cases hsame : node = actor ∧ other = sender ∧ otherId = id
    · obtain ⟨rfl, rfl, rfl⟩ := hsame
      have hnone : world.log.filter (hands node other otherId) = [] := by
        rw [List.filter_eq_nil_iff]
        intro entry hentry hhands
        obtain ⟨earlier, rfl⟩ := hands_iff.1 hhands
        exact hfirst earlier hentry
      rw [hnone, List.length_nil, Nat.zero_add]
      apply (List.length_filter_le _ _).trans
      rw [List.length_map, hreports]
      unfold ReliableRadio.tell
      split <;> simp
    · have hnone : (result.2.reports.map fun event => (actor, event)).filter
          (hands node other otherId) = [] := by
        rw [List.filter_eq_nil_iff]
        intro entry hentry hhands
        obtain ⟨event, hevent, rfl⟩ := List.mem_map.1 hentry
        obtain ⟨earlier, heq⟩ := hands_iff.1 hhands
        rw [hreports, ReliableRadio.mem_tell] at hevent
        rw [hevent.2] at heq
        simp only [Prod.mk.injEq, Report.handed.injEq] at heq
        exact hsame ⟨heq.1.symm, heq.2.1.symm, heq.2.2.1.symm⟩
      rw [hnone, List.length_nil, Nat.add_zero]
      exact honce.once node other otherId

theorem Once.lose (honce : Once config world) (position : ℕ) :
    Once config (world.lose position) where
  callbacks := honce.callbacks
  buffered := honce.buffered
  air := fun packet hpacket => honce.air packet (World.mem_of_mem_lose hpacket)
  given := honce.given
  remembered := by
    intro node sender id payload hmem
    apply (honce.remembered node sender id payload hmem).imp_right
    intro hquiet
    obtain ⟨hair, hbuffer⟩ := quiet_iff.1 hquiet
    exact quiet_iff.2 ⟨fun packet hpacket => hair packet (World.mem_of_mem_lose hpacket), hbuffer⟩
  once := honce.once

end Invariant

/-! ## Runs -/

/-- The guard of a run in which ids last and replies are kept. -/
def deliveryIntact (config : Config)
    (world : World Node (ReliableRadio Node) (Frame Node) (Report Node))
    (op : Op Node (Input Node)) : Bool :=
  idsLast world op && repliesKept config world op

section Steps

variable {world : World Node (ReliableRadio Node) (Frame Node) (Report Node)} {node : Node}

theorem advances_input {input : Input Node}
    {result : ReliableRadio Node × Effects Node (Frame Node) (Report Node)}
    (hguard : deliveryIntact config world (.input node input) = true)
    (honce : Once config world)
    (hinput : (world.states node).input config input = some result) :
    Advances config (world.states node) result := by
  cases input with
  | enableRadio =>
      rw [← Option.some.inj hinput]
      have hdaemon : Advances config { world.states node with active := true }
          ({ world.states node with active := true }.daemon config) :=
        advances_daemon (honce.callbacks node)
      exact ⟨hdaemon.callbacks, hdaemon.seq_le, hdaemon.entries, hdaemon.copies⟩
  | disableRadio =>
      rw [← Option.some.inj hinput]
      exact Advances.of_same rfl rfl rfl (by simp)
  | regRecvCallback =>
      simp only [ReliableRadio.input] at hinput
      split at hinput
      · rename_i hroom
        rw [← Option.some.inj hinput]
        refine ⟨fun _ => hroom.2, le_rfl, ?_, by simp⟩
        intro message hmessage
        exact .inr ⟨message, hmessage, rfl, rfl, fun hpending => hpending⟩
      · rw [← Option.some.inj hinput]
        exact Advances.of_same rfl rfl rfl (by simp)
  | send destination payload =>
      rw [← Option.some.inj hinput]
      apply advances_send
      intro hactive hdestination
      cases destination with
      | none => exact absurd rfl hdestination
      | some destination =>
          simpa [deliveryIntact, idsLast, repliesKept, hactive] using hguard
  | daemon =>
      rw [← Option.some.inj hinput]
      exact advances_daemon (honce.callbacks node)

theorem Once.input (honce : Once config world) {input : Input Node}
    {result : ReliableRadio Node × Effects Node (Frame Node) (Report Node)}
    (hguard : deliveryIntact config world (.input node input) = true)
    (hinput : (world.states node).input config input = some result) :
    Once config (world.act node result) := by
  have hadvances := advances_input hguard honce hinput
  have hreceives : Receives config (fun _ _ => False) (world.states node) result := by
    cases input with
    | enableRadio =>
        rw [← Option.some.inj hinput]
        have hdaemon : Receives config (fun _ _ => False) { world.states node with active := true }
            ({ world.states node with active := true }.daemon config) := receives_daemon
        cases hdaemon with
        | nothing hreports hreplies => exact .nothing hreports hreplies
        | handed sender id payload harrived => exact harrived.elim
    | disableRadio =>
        rw [← Option.some.inj hinput]
        exact .nothing (by simp) (fun _ _ hcheck => hcheck)
    | regRecvCallback =>
        simp only [ReliableRadio.input] at hinput
        split at hinput
        · rw [← Option.some.inj hinput]
          exact .nothing (by simp) (fun _ _ hcheck => hcheck)
        · rw [← Option.some.inj hinput]
          exact .nothing (by simp) (fun _ _ hcheck => hcheck)
    | send destination payload =>
        rw [← Option.some.inj hinput]
        exact receives_send
    | daemon =>
        rw [← Option.some.inj hinput]
        exact receives_daemon
  cases hreceives with
  | nothing hreports hreplies => exact honce.act_nothing hadvances hreports hreplies
  | handed sender id payload harrived => exact harrived.elim

theorem Once.receive (honce : Once config world) {hears : Node → Node → Prop} {position : ℕ}
    {packet : Packet Node (Frame Node)}
    (hguard : deliveryIntact config world (.deliver node position) = true)
    (hposition : world.sent[position]? = some packet) (hpacket : packet ∈ world.sent)
    (hreaches : Reaches hears packet node) :
    Once config (world.act node
      ((world.states node).receive config node packet.sender packet.frame)) := by
  have hreceives : Receives config
      (Arrived (world.states node) node packet.sender packet.frame) (world.states node)
      ((world.states node).receive config node packet.sender packet.frame) := receives_receive
  cases hreceives with
  | nothing hreports hreplies => exact honce.act_nothing advances_receive hreports hreplies
  | handed sender id payload harrived hreports hnew hself hreplies =>
      obtain ⟨hsender, ⟨counter, copy, hframe⟩, hactive, hne⟩ := harrived
      apply honce.act_handed advances_receive hreports ⟨packet, hpacket, ?_⟩ hnew hself
      · intro otherId other hcheck
        apply (hreplies otherId other hcheck).imp_right
        intro hforgotten
        obtain ⟨reply, hreply, rfl, rfl⟩ := hforgotten
        obtain ⟨packetSender, receiver, frame⟩ := packet
        have hframe : frame = .message id counter copy := hframe
        have hsender : sender = packetSender := hsender
        have hne : packetSender ≠ node := hne
        subst hframe hsender
        simpa [deliveryIntact, idsLast, repliesKept, hposition, hactive, hne, hnew, hreply]
          using hguard
      · exact carries_iff.2 ⟨hsender.symm, hreaches.2, counter, copy, hframe⟩

end Steps

/-- In every run in which the ids of no sender wrap and an entry of the reply
table is overwritten only when no copy of its message can come any more, every
receiver hands each message to its callbacks at most once. -/
theorem handed_once (config : Config) (hears : Node → Node → Prop) [DecidableRel hears]
    (operations : List (Op Node (Input Node)))
    (world : World Node (ReliableRadio Node) (Frame Node) (Report Node))
    (hrun : Transition.Run
      (Transition.Guarded (fun before op => deliveryIntact config before op = true)
        (Transition.stepOf (perform (reliableProtocol config) hears)))
      (.initial (reliableProtocol config)) operations world)
    (receiver sender : Node) (id : UInt32) :
    (world.log.filter (hands receiver sender id)).length ≤ 1 := by
  have honce : Once config world := by
    apply hrun.invariant
    · intro before op after hbefore hop
      obtain ⟨hguard, hperform⟩ := hop
      rcases perform_cases hperform with
        ⟨node, input, result, rfl, hresult, rfl⟩ |
          ⟨node, position, packet, rfl, hposition, hpacket, hreaches, rfl⟩ | ⟨position, -, rfl⟩
      · exact hbefore.input hguard hresult
      · exact hbefore.receive hguard hposition hpacket hreaches
      · exact hbefore.lose position
    · constructor <;> simp [World.initial, reliableProtocol]
  exact honce.once receiver sender id

/-- A message is delivered twice. -/
def copyOperations : List (Op (Fin 2) (Input (Fin 2))) :=
  startOperations ++ [.input 1 (.send (some 0) [7]), .deliver 0 0, .deliver 0 0]

theorem handed_once_copy :
    ∃ world : World (Fin 2) (ReliableRadio (Fin 2)) (Frame (Fin 2)) (Report (Fin 2)),
      copyOperations.foldlM (perform (reliableProtocol defaultConfig) Apart)
        (.initial (reliableProtocol defaultConfig)) = some world ∧
      (world.log.filter (hands 0 1 0)).length ≤ 1 :=
  ⟨_, rfl, handed_once defaultConfig Apart copyOperations _
    (Transition.Run.of_foldlM_guarded rfl) 0 1 0⟩

/-- Thirty messages are delivered and replied to, the daemon of the receiver
runs twice, another message takes the entry of the first one, and a copy of the
first one comes. -/
def lateOperations : List (Op (Fin 2) (Input (Fin 2))) :=
  startOperations ++
    (List.range 30).flatMap (fun i =>
      [.input 1 (.send (some 0) []), .deliver 0 (2 * i), .deliver 1 (2 * i + 1)]) ++
    [.input 0 .daemon, .input 0 .daemon, .input 1 (.send (some 0) []), .deliver 0 60,
      .deliver 0 0]

theorem handed_twice :
    ¬ ∀ (operations : List (Op (Fin 2) (Input (Fin 2))))
        (world : World (Fin 2) (ReliableRadio (Fin 2)) (Frame (Fin 2)) (Report (Fin 2))),
      Transition.Run
        (Transition.Guarded (fun before op => idsLast before op = true)
          (Transition.stepOf (perform (reliableProtocol defaultConfig) Apart)))
        (.initial (reliableProtocol defaultConfig)) operations world →
      ∀ (receiver sender : Fin 2) (id : UInt32),
        (world.log.filter (hands receiver sender id)).length ≤ 1 := by
  intro honce
  have hcount : (lateOperations.foldlM
      (fun before op => if idsLast before op then
        perform (reliableProtocol defaultConfig) Apart before op else none)
      (.initial (reliableProtocol defaultConfig))).map
        (fun world => (world.log.filter (hands 0 1 0)).length) = some 2 := by
    decide +kernel
  obtain ⟨world, hworld, hlength⟩ := Option.map_eq_some_iff.1 hcount
  have hle := honce lateOperations world (Transition.Run.of_foldlM_guarded hworld) 0 1 0
  omega

end Wiselib.Radio.Reliable
