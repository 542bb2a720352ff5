import Wiselib.Radio.ReliableRadio

/-!
# What an undelivered message means

The daemon tells the callbacks of a sender that a message is undelivered when it
has sent the message again `max_retries` times and no reply came.  The receiver
replies once, when it hands the message over, so the reply may be lost although
the message was handed over: `undelivered_handed` is such a run.

`undelivered_unanswered` proves what the report does mean.  In every run, however
frames are lost, delayed, reordered and duplicated, the callbacks are told that a
message is undelivered only if no reply to it has reached the sender.

## Strategy

An entry of the buffer that is not marked as delivered has not been replied to.
A reply marks the first entry with its id and sender, which is the only one: the
entries of a buffer have distinct ids, below the next one, and a reply in the air
answers a message that was sent, so it cannot come before its message.
-/

namespace Wiselib.Radio.Reliable

open Network

variable {Node : Type*} [DecidableEq Node] {config : Config}

/-! ## What a node asks for -/

/-- The entries of the buffer have distinct ids below the next one. -/
structure Numbered (state : ReliableRadio Node) : Prop where
  below : ∀ message ∈ state.messages, message.message_id.toNat < state.seq.toNat
  distinct : (state.messages.map fun message => message.message_id).Nodup

/-- Waiting entries were waiting before or are new, what is told about are
waiting entries, and copies have ids that were used. -/
structure Asks (state : ReliableRadio Node)
    (result : ReliableRadio Node × Effects Node (Frame Node) (Report Node)) : Prop where
  seq_le : state.seq.toNat ≤ result.1.seq.toNat
  numbered : Numbered state → Numbered result.1
  waits : ∀ message ∈ result.1.messages, message.delivered = false →
    state.seq.toNat ≤ message.message_id.toNat ∨
    ∃ old ∈ state.messages, old.message_id = message.message_id ∧
      old.destination = message.destination ∧ old.delivered = false
  copies : Numbered state → ∀ receiver id counter payload,
    (receiver, Frame.message id counter payload) ∈ result.2.sends →
    id.toNat < result.1.seq.toNat
  told : ∀ destination id payload, Report.undelivered destination id payload ∈ result.2.reports →
    ∃ old ∈ state.messages, old.message_id = id ∧ old.destination = destination ∧
      old.delivered = false

omit [DecidableEq Node] in
theorem Asks.of_same {state : ReliableRadio Node}
    {result : ReliableRadio Node × Effects Node (Frame Node) (Report Node)}
    (hseq : result.1.seq = state.seq) (hmessages : result.1.messages = state.messages)
    (hsends : ∀ receiver id counter payload,
      (receiver, Frame.message id counter payload) ∉ result.2.sends)
    (hreports : ∀ destination id payload,
      Report.undelivered destination id payload ∉ result.2.reports) :
    Asks state result where
  seq_le := by rw [hseq]
  numbered := by
    intro hnumbered
    constructor
    · rw [hseq, hmessages]
      exact hnumbered.below
    · rw [hmessages]
      exact hnumbered.distinct
  waits := by
    intro message hmessage hwaits
    rw [hmessages] at hmessage
    exact .inr ⟨message, hmessage, rfl, rfl, hwaits⟩
  copies := fun _ receiver id counter payload hsend =>
    absurd hsend (hsends receiver id counter payload)
  told := fun destination id payload hreport =>
    absurd hreport (hreports destination id payload)

/-- What the daemon leaves alone in an entry. -/
def ReliableRadioMessage.standing (message : ReliableRadioMessage Node) : UInt32 × Node × Bool :=
  (message.message_id, message.destination, message.delivered)

omit [DecidableEq Node] in
/-- The daemon changes nothing but counters. -/
theorem map_daemon (config : Config) (state : ReliableRadio Node) :
    (state.daemon config).1.seq = state.seq ∧
    (state.daemon config).1.messages.map ReliableRadioMessage.standing =
      state.messages.map ReliableRadioMessage.standing := by
  have hround : ∀ message : ReliableRadioMessage Node,
      (daemonMessage config state message).1.standing = message.standing := by
    intro message
    unfold daemonMessage
    split
    · rfl
    · split
      · rfl
      · rfl
  unfold ReliableRadio.daemon
  split
  · simp [hround]
  · exact ⟨rfl, rfl⟩

omit [DecidableEq Node] in
theorem asks_daemon {state : ReliableRadio Node} : Asks state (state.daemon config) := by
  obtain ⟨hseq, hmessages⟩ := map_daemon config state
  have hids : (state.daemon config).1.messages.map (fun message => message.message_id) =
      state.messages.map fun message => message.message_id := by
    have hfirst := congrArg (List.map Prod.fst) hmessages
    rw [List.map_map, List.map_map] at hfirst
    exact hfirst
  have hold : ∀ message ∈ (state.daemon config).1.messages, ∃ old ∈ state.messages,
      old.message_id = message.message_id ∧ old.destination = message.destination ∧
        old.delivered = message.delivered := by
    intro message hmessage
    have hmem : message.standing ∈ (state.daemon config).1.messages.map
        ReliableRadioMessage.standing := List.mem_map.2 ⟨message, hmessage, rfl⟩
    rw [hmessages] at hmem
    obtain ⟨old, hold, heq⟩ := List.mem_map.1 hmem
    simp only [ReliableRadioMessage.standing, Prod.mk.injEq] at heq
    exact ⟨old, hold, heq⟩
  constructor
  · rw [hseq]
  · intro hnumbered
    constructor
    · intro message hmessage
      obtain ⟨old, hmem, hid, -⟩ := hold message hmessage
      rw [hseq, ← hid]
      exact hnumbered.below old hmem
    · rw [hids]
      exact hnumbered.distinct
  · intro message hmessage hwaits
    obtain ⟨old, hmem, hid, hdestination, hdelivered⟩ := hold message hmessage
    exact .inr ⟨old, hmem, hid, hdestination, hdelivered.trans hwaits⟩
  · intro hnumbered receiver id counter payload hsend
    obtain ⟨old, hmem, heq, -⟩ := ReliableRadio.mem_daemon_sends hsend
    simp only [ReliableRadioMessage.frame, Prod.mk.injEq, Frame.message.injEq] at heq
    rw [heq.2.1, hseq]
    exact hnumbered.below old hmem
  · intro destination id payload hreport
    obtain ⟨old, hmem, heq, -, hopen⟩ := ReliableRadio.mem_daemon_reports hreport
    rw [Report.undelivered.injEq] at heq
    exact ⟨old, hmem, heq.2.1.symm, heq.1.symm, hopen⟩

omit [DecidableEq Node] in
/-- Overwriting an entry by a fresh one keeps the ids distinct. -/
theorem nodup_insertReliableRadioMessage {message : ReliableRadioMessage Node}
    {messages after : List (ReliableRadioMessage Node)}
    (hinsert : insertReliableRadioMessage config message messages = some after)
    (hfresh : ∀ other ∈ messages, other.message_id ≠ message.message_id)
    (hdistinct : (messages.map fun other => other.message_id).Nodup) :
    (after.map fun other => other.message_id).Nodup := by
  have hreplace : ∀ table : List (ReliableRadioMessage Node),
      (∀ other ∈ table, other.message_id ≠ message.message_id) →
      (table.map fun other => other.message_id).Nodup →
      ((replaceFirst (obsoleteMessage config) message table).map
        fun other => other.message_id).Nodup := by
    intro table
    induction table with
    | nil => exact fun _ _ => List.nodup_nil
    | cons first rest ih =>
        intro hfresh hdistinct
        obtain ⟨hfirst, hrest⟩ := List.nodup_cons.1 hdistinct
        have hother : ∀ other ∈ rest, other.message_id ≠ message.message_id :=
          fun other hother => hfresh other (List.mem_cons_of_mem _ hother)
        unfold replaceFirst
        split
        · apply List.nodup_cons.2 ⟨?_, hrest⟩
          intro hmem
          obtain ⟨other, hmem, heq⟩ := List.mem_map.1 hmem
          exact hother other hmem heq
        · apply List.nodup_cons.2 ⟨?_, ih hother hrest⟩
          intro hmem
          obtain ⟨other, hmem, heq⟩ := List.mem_map.1 hmem
          rcases mem_replaceFirst hmem with rfl | hold
          · exact hfresh first List.mem_cons_self heq.symm
          · exact hfirst (List.mem_map.2 ⟨other, hold, heq⟩)
  unfold insertReliableRadioMessage insertOrReplace at hinsert
  split at hinsert
  · rw [← Option.some.inj hinsert, List.map_append, List.nodup_append]
    refine ⟨hdistinct, List.nodup_singleton _, ?_⟩
    intro first hfirst second hsecond heq
    obtain ⟨other, hother, rfl⟩ := List.mem_map.1 hfirst
    rw [List.map_singleton, List.mem_singleton] at hsecond
    exact hfresh other hother (heq.trans hsecond)
  · split at hinsert
    · rw [← Option.some.inj hinsert]
      exact hreplace messages hfresh hdistinct
    · simp at hinsert

omit [DecidableEq Node] in
theorem asks_send {state : ReliableRadio Node} {destination : Option Node} {payload : List UInt8}
    (hlast : state.active = true → destination ≠ none → state.seq ≠ 4294967295) :
    Asks state (state.send config destination payload) := by
  unfold ReliableRadio.send
  split
  · rename_i hactive
    cases destination with
    | none => exact Asks.of_same rfl rfl (by simp) (by simp)
    | some destination =>
        have hnext := toNat_seq_add_one (hlast hactive (by simp))
        have hle : state.seq.toNat ≤ (state.seq + 1).toNat := by omega
        dsimp only
        split
        · rename_i messages hinsert
          constructor
          · exact hle
          · intro hnumbered
            constructor
            · intro message hmessage
              rw [hnext]
              rcases mem_insertOrReplace hinsert hmessage with rfl | hold
              · exact Nat.lt_succ_self _
              · exact (hnumbered.below message hold).trans (Nat.lt_succ_self _)
            · apply nodup_insertReliableRadioMessage hinsert ?_ hnumbered.distinct
              intro other hother heq
              have hbelow := hnumbered.below other hother
              rw [heq] at hbelow
              exact Nat.lt_irrefl _ hbelow
          · intro message hmessage hwaits
            rcases mem_insertOrReplace hinsert hmessage with rfl | hold
            · exact .inl le_rfl
            · exact .inr ⟨message, hold, rfl, rfl, hwaits⟩
          · intro hnumbered receiver id counter copy hsend
            simp only [List.mem_singleton, ReliableRadioMessage.frame, Prod.mk.injEq,
              Frame.message.injEq] at hsend
            rw [hsend.2.1, hnext]
            exact Nat.lt_succ_self _
          · simp
        · constructor
          · exact hle
          · intro hnumbered
            constructor
            · intro message hmessage
              exact (hnumbered.below message hmessage).trans_le hle
            · exact hnumbered.distinct
          · intro message hmessage hwaits
            exact .inr ⟨message, hmessage, rfl, rfl, hwaits⟩
          · simp
          · simp
  · exact Asks.of_same rfl rfl (by simp) (by simp)

theorem map_message_id_setDelivered (id : UInt32) (sender : Node)
    (messages : List (ReliableRadioMessage Node)) :
    (setDelivered id sender messages).map (fun message => message.message_id) =
      messages.map fun message => message.message_id := by
  induction messages with
  | nil => rfl
  | cons first rest ih =>
      unfold setDelivered
      split
      · rfl
      · simp [ih]

/-- An entry that still waits after a reply was waiting before, and the reply is
to another message where the ids are distinct. -/
theorem waits_setDelivered {id : UInt32} {sender : Node}
    {messages : List (ReliableRadioMessage Node)} {message : ReliableRadioMessage Node}
    (hmessage : message ∈ setDelivered id sender messages) (hwaits : message.delivered = false) :
    message ∈ messages ∧
      ((messages.map fun message => message.message_id).Nodup →
        ¬ (message.message_id = id ∧ message.destination = sender)) := by
  induction messages with
  | nil => simp [setDelivered] at hmessage
  | cons first rest ih =>
      unfold setDelivered at hmessage
      split at hmessage
      · rename_i hfirst
        rcases List.mem_cons.1 hmessage with rfl | hrest
        · simp at hwaits
        · refine ⟨List.mem_cons_of_mem _ hrest, ?_⟩
          intro hdistinct hsame
          apply (List.nodup_cons.1 hdistinct).1
          exact List.mem_map.2 ⟨message, hrest, hsame.1.trans hfirst.1.symm⟩
      · rename_i hfirst
        rcases List.mem_cons.1 hmessage with rfl | hrest
        · refine ⟨List.mem_cons_self, ?_⟩
          intro _ hsame
          exact hfirst ⟨hsame.1, hwaits, hsame.2⟩
        · obtain ⟨hold, hother⟩ := ih hrest
          exact ⟨List.mem_cons_of_mem _ hold, fun hdistinct =>
            hother (List.nodup_cons.1 hdistinct).2⟩

theorem asks_receive {state : ReliableRadio Node} {node sender : Node} {frame : Frame Node} :
    Asks state (state.receive config node sender frame) := by
  unfold ReliableRadio.receive
  split
  · cases frame with
    | message id counter payload =>
        dsimp only
        unfold ReliableRadio.receiveMessage
        split
        · exact Asks.of_same rfl rfl (by simp) (by simp)
        · split
          · exact Asks.of_same rfl rfl (by simp) (by simp)
          · exact Asks.of_same rfl rfl (by simp) (by simp)
    | reply id counter destination =>
        constructor
        · exact le_rfl
        · intro hnumbered
          constructor
          · intro message hmessage
            have hid : message.message_id ∈ (setDelivered id sender state.messages).map
                (fun message => message.message_id) := List.mem_map.2 ⟨message, hmessage, rfl⟩
            rw [map_message_id_setDelivered] at hid
            obtain ⟨old, hold, heq⟩ := List.mem_map.1 hid
            rw [← heq]
            exact hnumbered.below old hold
          · rw [map_message_id_setDelivered]
            exact hnumbered.distinct
        · intro message hmessage hwaits
          exact .inr ⟨message, (waits_setDelivered hmessage hwaits).1, rfl, rfl, hwaits⟩
        · simp
        · simp
    | broadcast payload => exact Asks.of_same rfl rfl (by simp) (by simp)
  · exact Asks.of_same rfl rfl (by simp) (by simp)

/-! ## Replies -/

omit [DecidableEq Node] in
/-- Replies are sent, reported and lead to a handover on receipt only. -/
theorem reply_not_mem_input {state : ReliableRadio Node} {input : Input Node}
    {result : ReliableRadio Node × Effects Node (Frame Node) (Report Node)}
    (hinput : state.input config input = some result) :
    (∀ receiver id counter destination,
      (receiver, Frame.reply id counter destination) ∉ result.2.sends) ∧
    (∀ sender id, Report.replied sender id ∉ result.2.reports) ∧
    ∀ sender id payload, Report.handed sender id payload ∉ result.2.reports := by
  have hdaemon : ∀ state : ReliableRadio Node,
      (∀ receiver id counter destination,
        (receiver, Frame.reply id counter destination) ∉ (state.daemon config).2.sends) ∧
      (∀ sender id, Report.replied sender id ∉ (state.daemon config).2.reports) ∧
      ∀ sender id payload, Report.handed sender id payload ∉ (state.daemon config).2.reports := by
    intro state
    refine ⟨?_, ?_, ?_⟩
    · intro receiver id counter destination hsend
      obtain ⟨message, -, heq, -⟩ := ReliableRadio.mem_daemon_sends hsend
      simp [ReliableRadioMessage.frame] at heq
    · intro sender id hreport
      obtain ⟨message, -, heq, -⟩ := ReliableRadio.mem_daemon_reports hreport
      simp at heq
    · intro sender id payload hreport
      obtain ⟨message, -, heq, -⟩ := ReliableRadio.mem_daemon_reports hreport
      simp at heq
  cases input with
  | enableRadio =>
      rw [← Option.some.inj hinput]
      exact hdaemon _
  | disableRadio =>
      rw [← Option.some.inj hinput]
      simp
  | regRecvCallback =>
      simp only [ReliableRadio.input] at hinput
      split at hinput
      · rw [← Option.some.inj hinput]
        simp
      · rw [← Option.some.inj hinput]
        simp
  | send destination content =>
      rw [← Option.some.inj hinput]
      refine ⟨?_, ?_, ?_⟩
      · intro receiver id counter origin hsend
        rcases ReliableRadio.mem_send_sends hsend with heq | heq
        · simp at heq
        · simp at heq
      · intro sender id hreport
        obtain ⟨receiver, heq⟩ := ReliableRadio.mem_send_reports hreport
        simp at heq
      · intro sender id payload hreport
        obtain ⟨receiver, heq⟩ := ReliableRadio.mem_send_reports hreport
        simp at heq
  | daemon =>
      rw [← Option.some.inj hinput]
      exact hdaemon _

theorem reply_mem_receive {state : ReliableRadio Node} {node sender : Node}
    {receiver : Option Node} {frame : Frame Node} {id : UInt32} {counter : UInt8}
    {destination : Node}
    (hsend : (receiver, Frame.reply id counter destination) ∈
      (state.receive config node sender frame).2.sends) :
    receiver = some sender ∧ ∃ copy payload, frame = .message id copy payload := by
  unfold ReliableRadio.receive at hsend
  split at hsend
  · cases frame with
    | message other copy payload =>
        dsimp only at hsend
        unfold ReliableRadio.receiveMessage at hsend
        split at hsend
        · simp at hsend
        · split at hsend
          · simp only [List.mem_singleton, Prod.mk.injEq, Frame.reply.injEq] at hsend
            exact ⟨hsend.1, copy, payload, by rw [hsend.2.1]⟩
          · simp at hsend
    | reply other copy origin => simp at hsend
    | broadcast payload => simp at hsend
  · simp at hsend

theorem reply_of_handed {state : ReliableRadio Node} {node sender origin : Node}
    {frame : Frame Node} {id : UInt32} {payload : List UInt8}
    (hreport : Report.handed origin id payload ∈
      (state.receive config node sender frame).2.reports) :
    ∃ counter, (some origin, Frame.reply id counter origin) ∈
      (state.receive config node sender frame).2.sends := by
  unfold ReliableRadio.receive at hreport ⊢
  split at hreport
  · rename_i hactive
    rw [if_pos hactive]
    cases frame with
    | message other copy content =>
        dsimp only at hreport ⊢
        unfold ReliableRadio.receiveMessage at hreport ⊢
        split at hreport
        · simp at hreport
        · rename_i hnew
          rw [if_neg hnew]
          split at hreport
          · obtain ⟨-, heq⟩ := ReliableRadio.mem_tell.1 hreport
            rw [Report.handed.injEq] at heq
            rw [heq.1, heq.2.1]
            exact ⟨copy, List.mem_cons_self⟩
          · simp at hreport
    | reply other copy destination => simp at hreport
    | broadcast content => simp at hreport
  · simp at hreport

/-- A reply is reported by the delivery of its frame, and no entry waits for it
any more. -/
theorem replied_mem_receive {state : ReliableRadio Node} {node sender origin : Node}
    {frame : Frame Node} {id : UInt32} (hnumbered : Numbered state)
    (hreport : Report.replied origin id ∈ (state.receive config node sender frame).2.reports) :
    (∃ counter destination, frame = .reply id counter destination) ∧
      ∀ message ∈ (state.receive config node sender frame).1.messages,
        message.delivered = false →
        ¬ (message.message_id = id ∧ message.destination = origin) := by
  unfold ReliableRadio.receive at hreport ⊢
  split at hreport
  · rename_i hactive
    rw [if_pos hactive]
    cases frame with
    | message other copy content =>
        dsimp only at hreport
        unfold ReliableRadio.receiveMessage at hreport
        split at hreport
        · simp at hreport
        · split at hreport
          · simp at hreport
          · simp at hreport
    | reply other copy destination =>
        simp only [Effects.report_reports, List.mem_singleton, Report.replied.injEq] at hreport
        obtain ⟨rfl, rfl⟩ := hreport
        refine ⟨⟨copy, destination, rfl⟩, ?_⟩
        intro message hmessage hwaits
        exact (waits_setDelivered hmessage hwaits).2 hnumbered.distinct
    | broadcast content => simp at hreport
  · simp at hreport

/-! ## Worlds -/

/-- A report that a message is undelivered does not follow the reply to it. -/
def InOrder (earlier later : Node × Report Node) : Prop :=
  ∀ node destination id payload, later = (node, .undelivered destination id payload) →
    earlier ≠ (node, .replied destination id)

/-- What a node waits for was not replied to, and so is what the callbacks were
told of. -/
structure Unanswered (world : World Node (ReliableRadio Node) (Frame Node) (Report Node)) :
    Prop where
  numbered : ∀ node, Numbered (world.states node)
  copies : ∀ packet ∈ world.sent, ∀ id counter payload,
    packet.frame = .message id counter payload →
    id.toNat < (world.states packet.sender).seq.toNat
  answers : ∀ packet ∈ world.sent, ∀ id counter destination,
    packet.frame = .reply id counter destination →
    ∃ receiver, packet.receiver = some receiver ∧
      id.toNat < (world.states receiver).seq.toNat
  answered : ∀ node sender id, (node, Report.replied sender id) ∈ world.log →
    id.toNat < (world.states node).seq.toNat
  waits : ∀ node, ∀ message ∈ (world.states node).messages, message.delivered = false →
    (node, Report.replied message.destination message.message_id) ∉ world.log
  ordered : world.log.Pairwise InOrder

variable {world : World Node (ReliableRadio Node) (Frame Node) (Report Node)} {actor : Node}
  {result : ReliableRadio Node × Effects Node (Frame Node) (Report Node)}

/-- A handler that asks lawfully, replies to messages that were sent and reports
only replies that settle its entries. -/
theorem Unanswered.act (hworld : Unanswered world) (hasks : Asks (world.states actor) result)
    (hanswers : ∀ receiver id counter destination,
      (receiver, Frame.reply id counter destination) ∈ result.2.sends →
      ∃ sender, receiver = some sender ∧ id.toNat < (world.states sender).seq.toNat)
    (hreplied : ∀ sender id, Report.replied sender id ∈ result.2.reports →
      id.toNat < (world.states actor).seq.toNat ∧
      (∀ message ∈ result.1.messages, message.delivered = false →
        ¬ (message.message_id = id ∧ message.destination = sender)) ∧
      ∀ destination other payload,
        Report.undelivered destination other payload ∉ result.2.reports) :
    Unanswered (world.act actor result) := by
  have hseq : ∀ node,
      (world.states node).seq.toNat ≤ ((world.act actor result).states node).seq.toNat := by
    intro node
    by_cases hnode : node = actor
    · subst hnode
      rw [World.act_states_self]
      exact hasks.seq_le
    · rw [World.act_states_other _ _ hnode]
  constructor
  · intro node
    by_cases hnode : node = actor
    · subst hnode
      rw [World.act_states_self]
      exact hasks.numbered (hworld.numbered node)
    · rw [World.act_states_other _ _ hnode]
      exact hworld.numbered node
  · intro packet hpacket id counter payload hframe
    rcases World.mem_act_sent.1 hpacket with hold | ⟨hsender, hsend⟩
    · exact (hworld.copies packet hold id counter payload hframe).trans_le (hseq _)
    · rw [hframe] at hsend
      rw [hsender, World.act_states_self]
      exact hasks.copies (hworld.numbered actor) _ id counter payload hsend
  · intro packet hpacket id counter destination hframe
    rcases World.mem_act_sent.1 hpacket with hold | ⟨-, hsend⟩
    · obtain ⟨receiver, hreceiver, hlt⟩ := hworld.answers packet hold id counter destination hframe
      exact ⟨receiver, hreceiver, hlt.trans_le (hseq receiver)⟩
    · rw [hframe] at hsend
      obtain ⟨receiver, hreceiver, hlt⟩ := hanswers _ id counter destination hsend
      exact ⟨receiver, hreceiver, hlt.trans_le (hseq receiver)⟩
  · intro node sender id hentry
    rcases World.mem_act_log.1 hentry with hold | ⟨hnode, hreport⟩
    · exact (hworld.answered node sender id hold).trans_le (hseq node)
    · have hnode : node = actor := hnode
      rw [hnode]
      exact (hreplied sender id hreport).1.trans_le (hseq actor)
  · intro node message hmessage hwaits hentry
    by_cases hnode : node = actor
    · subst hnode
      rw [World.act_states_self] at hmessage
      rcases World.mem_act_log.1 hentry with hold | ⟨-, hreport⟩
      · rcases hasks.waits message hmessage hwaits with hfresh | ⟨old, hmem, hid, hto, hopen⟩
        · -- nobody replies to an id before it was used
          have hlt := hworld.answered node _ _ hold
          omega
        · apply hworld.waits node old hmem hopen
          rw [hid, hto]
          exact hold
      · exact (hreplied _ _ hreport).2.1 message hmessage hwaits ⟨rfl, rfl⟩
    · rw [World.act_states_other _ _ hnode] at hmessage
      rcases World.mem_act_log.1 hentry with hold | ⟨hactor, -⟩
      · exact hworld.waits node message hmessage hwaits hold
      · exact hnode hactor
  · show (world.log ++ result.2.reports.map fun event => (actor, event)).Pairwise InOrder
    apply List.pairwise_append.2 ⟨hworld.ordered, ?_, ?_⟩
    · apply List.pairwise_of_forall_mem_list
      intro earlier hearlier later hlater node destination id payload htold hreply
      obtain ⟨event, hevent, rfl⟩ := List.mem_map.1 hearlier
      obtain ⟨other, hother, rfl⟩ := List.mem_map.1 hlater
      obtain ⟨-, rfl⟩ := Prod.mk.inj htold
      obtain ⟨-, rfl⟩ := Prod.mk.inj hreply
      exact (hreplied destination id hevent).2.2 destination id payload hother
    · intro earlier hearlier later hlater node destination id payload htold hreply
      obtain ⟨event, hevent, rfl⟩ := List.mem_map.1 hlater
      obtain ⟨rfl, rfl⟩ := Prod.mk.inj htold
      obtain ⟨old, hmem, rfl, rfl, hopen⟩ := hasks.told destination id payload hevent
      apply hworld.waits _ old hmem hopen
      rw [← hreply]
      exact hearlier

/-! ## Runs -/

omit [DecidableEq Node] in
theorem asks_input {input : Input Node}
    (hguard : idsLast world (.input actor input) = true)
    (hinput : (world.states actor).input config input = some result) :
    Asks (world.states actor) result := by
  cases input with
  | enableRadio =>
      rw [← Option.some.inj hinput]
      have hdaemon : Asks { world.states actor with active := true }
          ({ world.states actor with active := true }.daemon config) := asks_daemon
      exact ⟨hdaemon.seq_le, fun hnumbered => hdaemon.numbered ⟨hnumbered.1, hnumbered.2⟩,
        hdaemon.waits, fun hnumbered => hdaemon.copies ⟨hnumbered.1, hnumbered.2⟩, hdaemon.told⟩
  | disableRadio =>
      rw [← Option.some.inj hinput]
      exact Asks.of_same rfl rfl (by simp) (by simp)
  | regRecvCallback =>
      simp only [ReliableRadio.input] at hinput
      split at hinput
      · rw [← Option.some.inj hinput]
        exact Asks.of_same rfl rfl (by simp) (by simp)
      · rw [← Option.some.inj hinput]
        exact Asks.of_same rfl rfl (by simp) (by simp)
  | send destination payload =>
      rw [← Option.some.inj hinput]
      apply asks_send
      intro hactive hdestination
      cases destination with
      | none => exact absurd rfl hdestination
      | some destination => simpa [idsLast, hactive] using hguard
  | daemon =>
      rw [← Option.some.inj hinput]
      exact asks_daemon

theorem Unanswered.input (hworld : Unanswered world) {input : Input Node}
    (hguard : idsLast world (.input actor input) = true)
    (hinput : (world.states actor).input config input = some result) :
    Unanswered (world.act actor result) := by
  obtain ⟨hreply, hreplied, -⟩ := reply_not_mem_input hinput
  apply hworld.act (asks_input hguard hinput)
  · exact fun receiver id counter destination hsend =>
      absurd hsend (hreply receiver id counter destination)
  · exact fun sender id hreport => absurd hreport (hreplied sender id)

theorem Unanswered.receive (hworld : Unanswered world) {hears : Node → Node → Prop}
    {packet : Packet Node (Frame Node)} (hpacket : packet ∈ world.sent)
    (hreaches : Reaches hears packet actor) :
    Unanswered (world.act actor
      ((world.states actor).receive config actor packet.sender packet.frame)) := by
  apply hworld.act asks_receive
  · intro receiver id counter destination hsend
    obtain ⟨rfl, copy, payload, hframe⟩ := reply_mem_receive hsend
    exact ⟨packet.sender, rfl, hworld.copies packet hpacket id copy payload hframe⟩
  · intro sender id hreport
    obtain ⟨⟨counter, destination, hframe⟩, hsettled⟩ :=
      replied_mem_receive (hworld.numbered actor) hreport
    refine ⟨?_, hsettled, ?_⟩
    · -- the reply is for this node, which has used the id
      obtain ⟨receiver, hreceiver, hlt⟩ :=
        hworld.answers packet hpacket id counter destination hframe
      rcases hreaches.2 with heverybody | hactor
      · rw [hreceiver] at heverybody
        simp at heverybody
      · rw [hreceiver] at hactor
        rw [← Option.some.inj hactor]
        exact hlt
    · intro other otherId payload htold
      rw [hframe] at htold
      unfold ReliableRadio.receive at htold
      split at htold
      · simp at htold
      · simp at htold

/-- What the network does as long as the ids of no sender wrap. -/
def LastingRun (config : Config) (hears : Node → Node → Prop) [DecidableRel hears]
    (operations : List (Op Node (Input Node)))
    (world : World Node (ReliableRadio Node) (Frame Node) (Report Node)) : Prop :=
  Transition.Run
    (Transition.Guarded (fun before op => idsLast before op = true)
      (Transition.stepOf (perform (reliableProtocol config) hears)))
    (.initial (reliableProtocol config)) operations world

/-- At some moment of the run the receiver had a reply to the message in the air. -/
def ReplySent (config : Config) (hears : Node → Node → Prop) [DecidableRel hears]
    (operations : List (Op Node (Input Node))) (receiver sender : Node) (id : UInt32) : Prop :=
  ∃ past rest moment, operations = past ++ rest ∧ LastingRun config hears past moment ∧
    ∃ counter, ⟨receiver, some sender, .reply id counter sender⟩ ∈ moment.sent

theorem LastingRun.unanswered {hears : Node → Node → Prop} [DecidableRel hears]
    {operations : List (Op Node (Input Node))} (hrun : LastingRun config hears operations world) :
    Unanswered world := by
  apply hrun.invariant
  · intro before op after hbefore hop
    obtain ⟨hguard, hperform⟩ := hop
    rcases perform_cases hperform with
      ⟨node, input, result, rfl, hresult, rfl⟩ |
        ⟨node, position, packet, rfl, -, hpacket, hreaches, rfl⟩ | ⟨position, -, rfl⟩
    · exact hbefore.input hguard hresult
    · exact hbefore.receive hpacket hreaches
    · exact ⟨hbefore.numbered,
        fun packet hpacket => hbefore.copies packet (World.mem_of_mem_lose hpacket),
        fun packet hpacket => hbefore.answers packet (World.mem_of_mem_lose hpacket),
        hbefore.answered, hbefore.waits, hbefore.ordered⟩
  · have hempty : ∀ node : Node, Numbered ((reliableProtocol config).start node) := by
      intro node
      exact ⟨by simp [reliableProtocol], by simp [reliableProtocol]⟩
    constructor
    · exact hempty
    all_goals simp [World.initial, reliableProtocol]

/-- Whatever was handed over so far was replied to. -/
structure Handovers (config : Config) (hears : Node → Node → Prop) [DecidableRel hears]
    (past : List (Op Node (Input Node)))
    (world : World Node (ReliableRadio Node) (Frame Node) (Report Node)) : Prop where
  run : LastingRun config hears past world
  replied : ∀ receiver sender id payload,
    (receiver, Report.handed sender id payload) ∈ world.log →
    ReplySent config hears past receiver sender id

theorem ReplySent.later {hears : Node → Node → Prop} [DecidableRel hears]
    {past : List (Op Node (Input Node))} {receiver sender : Node} {id : UInt32}
    (hsent : ReplySent config hears past receiver sender id) (op : Op Node (Input Node)) :
    ReplySent config hears (past ++ [op]) receiver sender id := by
  obtain ⟨early, rest, moment, rfl, hmoment⟩ := hsent
  exact ⟨early, rest ++ [op], moment, List.append_assoc _ _ _, hmoment⟩

theorem LastingRun.handovers {hears : Node → Node → Prop} [DecidableRel hears]
    {operations : List (Op Node (Input Node))} (hrun : LastingRun config hears operations world) :
    Handovers config hears operations world := by
  have hstep : ∀ past before op after, Handovers config hears past before →
      Transition.Guarded (fun before op => idsLast before op = true)
        (Transition.stepOf (perform (reliableProtocol config) hears)) before op after →
      Handovers config hears (past ++ [op]) after := by
    intro past before op after hbefore hop
    have hnext : LastingRun config hears (past ++ [op]) after := hbefore.run.append hop
    refine ⟨hnext, ?_⟩
    intro receiver sender id payload hlog
    obtain ⟨-, hperform⟩ := hop
    rcases perform_cases hperform with
      ⟨node, input, result, rfl, hresult, rfl⟩ |
        ⟨node, position, packet, rfl, -, hpacket, hreaches, rfl⟩ | ⟨position, -, rfl⟩
    · rcases World.mem_act_log.1 hlog with hold | ⟨-, hreport⟩
      · exact (hbefore.replied receiver sender id payload hold).later _
      · exact absurd hreport ((reply_not_mem_input hresult).2.2 sender id payload)
    · rcases World.mem_act_log.1 hlog with hold | ⟨hnode, hreport⟩
      · exact (hbefore.replied receiver sender id payload hold).later _
      · -- the reply is in the air right after the handover
        have hnode : receiver = node := hnode
        obtain ⟨counter, hsend⟩ := reply_of_handed hreport
        exact ⟨_, [], _, (List.append_nil _).symm, hnext, counter,
          World.mem_act_sent.2 (.inr ⟨hnode, hsend⟩)⟩
    · exact (hbefore.replied receiver sender id payload hlog).later _
  apply hrun.history hstep []
  refine ⟨.nil _, ?_⟩
  simp [World.initial]

/-- In every run in which the ids of no sender wrap, the callbacks of a node are
told that a message is undelivered only if no reply to it has reached the node.
So the message was not handed over, or the reply that was sent then is still on
its way or lost. -/
theorem undelivered_unanswered (config : Config) (hears : Node → Node → Prop)
    [DecidableRel hears] (operations : List (Op Node (Input Node)))
    (world : World Node (ReliableRadio Node) (Frame Node) (Report Node))
    (hrun : LastingRun config hears operations world)
    (earlier later : List (Node × Report Node)) (node destination : Node) (id : UInt32)
    (payload : List UInt8)
    (hlog : world.log = earlier ++ (node, .undelivered destination id payload) :: later) :
    (node, Report.replied destination id) ∉ earlier ∧
      ((∀ copy, (destination, Report.handed node id copy) ∉ earlier) ∨
        ReplySent config hears operations destination node id) := by
  constructor
  · intro hmem
    have hordered := hrun.unanswered.ordered
    rw [hlog] at hordered
    exact (List.pairwise_append.1 hordered).2.2 _ hmem _ List.mem_cons_self node destination id
      payload rfl rfl
  · by_cases hhanded : ∃ copy, (destination, Report.handed node id copy) ∈ earlier
    · obtain ⟨copy, hcopy⟩ := hhanded
      apply Or.inr
      apply hrun.handovers.replied _ _ _ copy
      rw [hlog]
      exact List.mem_append_left _ hcopy
    · exact .inl (not_exists.1 hhanded)

/-- All copies of a message are lost. -/
def lostOperations : List (Op (Fin 2) (Input (Fin 2))) :=
  startOperations ++ [.input 1 (.send (some 0) [7]), .lose 0, .input 1 .daemon,
    .input 1 .daemon, .input 1 .daemon]

theorem undelivered_unanswered_lost :
    ∃ world : World (Fin 2) (ReliableRadio (Fin 2)) (Frame (Fin 2)) (Report (Fin 2)),
      LastingRun defaultConfig Apart lostOperations world ∧
      world.log = [(1, .accepted 0 0)] ++ (1, .undelivered 0 0 [7]) :: [] ∧
      ((1 : Fin 2), Report.replied (0 : Fin 2) 0) ∉ [(1, .accepted 0 0)] := by
  have hrun : ∃ world : World (Fin 2) (ReliableRadio (Fin 2)) (Frame (Fin 2)) (Report (Fin 2)),
      LastingRun defaultConfig Apart lostOperations world ∧
      world.log = [(1, .accepted 0 0)] ++ (1, .undelivered 0 0 [7]) :: [] :=
    ⟨_, Transition.Run.of_foldlM_guarded rfl, rfl⟩
  obtain ⟨world, hworld, hlog⟩ := hrun
  exact ⟨world, hworld, hlog,
    (undelivered_unanswered defaultConfig Apart lostOperations world hworld _ [] 1 0 0 [7] hlog).1⟩

/-- A message is handed over, and its reply is lost. -/
def lostReplyOperations : List (Op (Fin 2) (Input (Fin 2))) :=
  startOperations ++ [.input 1 (.send (some 0) [7]), .deliver 0 0, .lose 1, .input 1 .daemon,
    .input 1 .daemon, .input 1 .daemon]

theorem undelivered_handed :
    ¬ ∀ (operations : List (Op (Fin 2) (Input (Fin 2))))
        (world : World (Fin 2) (ReliableRadio (Fin 2)) (Frame (Fin 2)) (Report (Fin 2))),
      LastingRun defaultConfig Apart operations world →
      ∀ (earlier later : List (Fin 2 × Report (Fin 2))) (node destination : Fin 2) (id : UInt32)
        (payload : List UInt8),
        world.log = earlier ++ (node, .undelivered destination id payload) :: later →
        ∀ copy, (destination, Report.handed node id copy) ∉ earlier := by
  intro hsound
  have hrun : ∃ world : World (Fin 2) (ReliableRadio (Fin 2)) (Frame (Fin 2)) (Report (Fin 2)),
      LastingRun defaultConfig Apart lostReplyOperations world ∧
      world.log = [(1, .accepted 0 0), (0, .handed 1 0 [7])] ++ (1, .undelivered 0 0 [7]) :: [] :=
    ⟨_, Transition.Run.of_foldlM_guarded rfl, rfl⟩
  obtain ⟨world, hworld, hlog⟩ := hrun
  exact hsound lostReplyOperations world hworld _ [] 1 0 0 [7] hlog [7] (by simp)

end Wiselib.Radio.Reliable
