import Wiselib.Broker.FragmentingRadio
import Wiselib.Library.Run

/-!
# Several senders of the fragmenting radio

The frames of several senders reach one receiver, those of each sender in order and
without losses, but interleaved in any way.  The receiver has a single buffer and
cannot tell the messages apart, because the accessor of the message id gives the
same number for all of them.  So frames of two messages mix: `not_handed_over` is a
run in which two senders start a message each before they finish them.

`handed_over` proves that every payload that is handed over was sent by the node
that it is reported for, as long as a frame with a further piece of a message only
arrives while the last start frame came from the same node.  It also repeats what
one sender can rely on (`delivers_iff`).

## Strategy

* The frames on their way from a node are those of whole messages, perhaps behind
  the rest of one message that was started.  While its start frame is the last one
  the buffer holds the bytes in front of the rest (`Upcoming`).
* Each frame keeps that for its own node (`Upcoming.receive`) and for all others
  (`Upcoming.congr`).
-/

namespace Wiselib.Broker.Fragmenting

open Transition

variable {Node : Type*}

/-! ## Senders and one receiver -/

/-- The receiver, the frames on their way from each node, the message ids of the nodes,
what they have sent, what was handed over, and the node of the last start frame. -/
structure Link (Node : Type*) where
  receiver : Receiver
  onTheWay : Node → List FragmentMessage
  messageIds : Node → UInt8
  sent : Node → List (List UInt8)
  delivered : List (Node × List UInt8)
  lastStart : Option Node

/-- Before the first message. -/
def Link.initial (receiver : Receiver) (messageIds : Node → UInt8) : Link Node where
  receiver := receiver
  onTheWay _ := []
  messageIds := messageIds
  sent _ := []
  delivered := []
  lastStart := none

/-- A node sends a message, or its next frame arrives. -/
inductive Op (Node : Type*)
  | send (node : Node) (data : List UInt8)
  | receive (node : Node) (fresh : ℕ → UInt8)

/-- What an operation does.  The length of a message has 16 bits. -/
def Link.perform [DecidableEq Node] (config : Config) (link : Link Node) : Op Node → Option (Link Node)
  | .send node data =>
      if data.length < 65536 then
        some { link with
          onTheWay := Function.update link.onTheWay node
            (link.onTheWay node ++ Fragmenting.send config (link.messageIds node) data)
          messageIds :=
            Function.update link.messageIds node (nextMessageId (link.messageIds node))
          sent := Function.update link.sent node (link.sent node ++ [data]) }
      else none
  | .receive node fresh =>
      match link.onTheWay node with
      | [] => none
      | msg :: rest =>
          some { link with
            receiver := (Fragmenting.receive fresh link.receiver msg).1
            onTheWay := Function.update link.onTheWay node rest
            delivered := link.delivered ++
              (Fragmenting.receive fresh link.receiver msg).2.map fun data => (node, data)
            lastStart := if msg.command = 0 then some node else link.lastStart }

/-- The frames of a message carry its bytes.  A frame with a further piece of a message,
or the end of one with bytes, arrives only while the last start frame came from the same
node. -/
def Undisturbed (config : Config) (link : Link Node) : Op Node → Prop
  | .send _ data => Intact config data
  | .receive node _ => ∀ msg ∈ (link.onTheWay node).head?,
      msg.command = 0 ∨ msg.totalSize = 0 ∨ link.lastStart = some node

/-! ## The frames on their way -/

/-- The frames of several messages, with the message ids before them. -/
def sends (config : Config) (messages : List (UInt8 × List UInt8)) : List FragmentMessage :=
  messages.flatMap fun message => send config message.1 message.2

/-- A message that was sent in frames that carry its bytes. -/
structure Sent (config : Config) (sent : List (List UInt8)) (data : List UInt8) : Prop where
  mem : data ∈ sent
  length : data.length < 65536
  intact : Intact config data

/-- The frames on their way from a node, with the buffer in front of the rest of a
message that was started. -/
inductive Upcoming (config : Config) (link : Link Node) (node : Node) : Prop
  | between (later : List (UInt8 × List UInt8))
      (hframes : link.onTheWay node = sends config later)
      (hlater : ∀ message ∈ later, Sent config (link.sent node) message.2)
  | within (data : List UInt8) (messageId seqNr : UInt8) (rounds pos : ℕ)
      (later : List (UInt8 × List UInt8))
      (hframes : link.onTheWay node = sendLoop config messageId data rounds
        (newMessage messageId seqNr 1 pos data.length) pos ++ sends config later)
      (hdata : Sent config (link.sent node) data) (hpos : 0 < pos) (hle : pos ≤ data.length)
      (hdvd : config.maxMessageLength ∣ pos ∨ pos = data.length)
      (hrounds : data.length - pos < rounds)
      (hbuffer : link.lastStart = some node → link.receiver.message pos = data.take pos)
      (hlater : ∀ message ∈ later, Sent config (link.sent node) message.2)

/-- The frames on their way, what was handed over, and the message id of the receiver. -/
structure Faithful (config : Config) (link : Link Node) : Prop where
  upcoming : ∀ node, Upcoming config link node
  delivered : ∀ handed ∈ link.delivered, handed.2 ∈ link.sent handed.1
  received : link.lastStart ≠ none → link.receiver.messageIdReceived = 114

section Steps

variable {config : Config} {link next : Link Node} {node : Node}

theorem Sent.mono {sent more : List (List UInt8)} {data : List UInt8}
    (hsent : Sent config sent data) (hsubset : sent ⊆ more) : Sent config more data :=
  ⟨hsubset hsent.mem, hsent.length, hsent.intact⟩

theorem Upcoming.congr (hupcoming : Upcoming config link node)
    (hframes : next.onTheWay node = link.onTheWay node)
    (hsent : link.sent node ⊆ next.sent node)
    (hbuffer : next.lastStart = some node →
      link.lastStart = some node ∧ next.receiver = link.receiver) :
    Upcoming config next node := by
  cases hupcoming with
  | between later hlink hlater =>
      exact .between later (hframes.trans hlink) fun message hmem => (hlater message hmem).mono hsent
  | within data messageId seqNr rounds pos later hlink hdata hpos hle hdvd hrounds hbefore hlater =>
      refine .within data messageId seqNr rounds pos later (hframes.trans hlink) (hdata.mono hsent)
        hpos hle hdvd hrounds (fun hstart => ?_) fun message hmem => (hlater message hmem).mono hsent
      obtain ⟨hstart, hreceiver⟩ := hbuffer hstart
      rw [hreceiver]
      exact hbefore hstart

theorem Upcoming.send (hupcoming : Upcoming config link node) {messageId : UInt8}
    {data : List UInt8} (hdata : Sent config (next.sent node) data)
    (hframes : next.onTheWay node = link.onTheWay node ++ Fragmenting.send config messageId data)
    (hsent : link.sent node ⊆ next.sent node) (hstart : next.lastStart = link.lastStart)
    (hreceiver : next.receiver = link.receiver) : Upcoming config next node := by
  have happend : ∀ later, sends config (later ++ [(messageId, data)]) =
      sends config later ++ Fragmenting.send config messageId data := fun later => by
    simp [sends]
  have hall : ∀ later : List (UInt8 × List UInt8),
      (∀ message ∈ later, Sent config (link.sent node) message.2) →
      ∀ message ∈ later ++ [(messageId, data)], Sent config (next.sent node) message.2 := by
    intro later hlater message hmem
    rcases List.mem_append.1 hmem with hmem | hmem
    · exact (hlater message hmem).mono hsent
    · rw [List.mem_singleton.1 hmem]
      exact hdata
  cases hupcoming with
  | between later hlink hlater =>
      refine .between (later ++ [(messageId, data)]) ?_ (hall later hlater)
      rw [hframes, hlink, happend]
  | within started startedId seqNr rounds pos later hlink hstarted hpos hle hdvd hrounds hbefore
      hlater =>
      refine .within started startedId seqNr rounds pos (later ++ [(messageId, data)]) ?_
        (hstarted.mono hsent) hpos hle hdvd hrounds (by rwa [hstart, hreceiver]) (hall later hlater)
      rw [hframes, hlink, happend, List.append_assoc]

/-- What the receipt of a frame does for the node that sent it. -/
structure Receipt (config : Config) (link : Link Node) (node : Node) (fresh : ℕ → UInt8)
    (msg : FragmentMessage) (rest : List FragmentMessage) : Prop where
  upcoming : ∀ next : Link Node, next.receiver = (receive fresh link.receiver msg).1 →
    next.onTheWay node = rest → next.sent node = link.sent node → Upcoming config next node
  handed : ∀ data ∈ (receive fresh link.receiver msg).2, data ∈ link.sent node
  started : msg.command = 0 → (receive fresh link.receiver msg).1.messageIdReceived = 114
  kept : msg.command ≠ 0 → (receive fresh link.receiver msg).1.messageIdReceived =
    link.receiver.messageIdReceived
  alone : msg.command ≠ 0 → link.lastStart ≠ some node →
    (receive fresh link.receiver msg).1 = link.receiver

theorem receipt_empty {fresh : ℕ → UInt8} {messageId : UInt8}
    {later : List (UInt8 × List UInt8)} (hempty : [] ∈ link.sent node)
    (hlater : ∀ message ∈ later, Sent config (link.sent node) message.2) :
    Receipt config link node fresh (newMessage messageId 1 2 0 0) (sends config later) := by
  have hreceive : receive fresh link.receiver (newMessage messageId 1 2 0 0) =
      (link.receiver, if link.receiver.messageIdReceived = 114 then [[]] else []) :=
    receive_end_empty
  refine ⟨fun next _ hframes hsent => .between later hframes (hsent ▸ hlater), ?_, ?_, ?_, ?_⟩
  · rw [hreceive]
    intro data hdata
    simp only at hdata
    split at hdata
    · rw [List.mem_singleton.1 hdata]
      exact hempty
    · cases hdata
  · intro hcommand
    cases hcommand
  · intro _
    rw [hreceive]
  · intro _ _
    rw [hreceive]

theorem receipt_start {fresh : ℕ → UInt8} {data : List UInt8} {messageId : UInt8}
    {later : List (UInt8 × List UInt8)} (hdata : Sent config (link.sent node) data)
    (hne : data ≠ []) (hlater : ∀ message ∈ later, Sent config (link.sent node) message.2) :
    Receipt config link node fresh
      (pieceFrame messageId 0 0 0 data.length (chunk config data 0))
      (sendLoop config (nextMessageId messageId) data data.length
        (newMessage (nextMessageId messageId) 1 1 (chunk config data 0).length data.length)
        (chunk config data 0).length ++ sends config later) := by
  have hpositive : 0 < data.length := List.length_pos_iff.2 hne
  obtain ⟨hpos, hbyte, hchunk⟩ := hdata.intact 0 hpositive (dvd_zero _)
  have hlength : (chunk config data 0).length = min data.length config.maxMessageLength := by
    rw [length_chunk, Nat.sub_zero]
  have hmod : (chunk config data 0).length % 256 = (chunk config data 0).length :=
    Nat.mod_eq_of_lt (by omega)
  have hreceive : receive fresh link.receiver
      (pieceFrame messageId 0 0 0 data.length (chunk config data 0)) =
      (⟨writeAt fresh 0 (chunk config data 0), 114⟩,
        if 0 < (chunk config data 0).length ∧ (chunk config data 0).length = data.length then
          [Receiver.message ⟨writeAt fresh 0 (chunk config data 0), 114⟩ data.length]
        else []) := by
    rw [receive_start hdata.length, hmod, List.take_length]
  have hbuffer : Receiver.message ⟨writeAt fresh 0 (chunk config data 0), 114⟩
      (chunk config data 0).length = chunk config data 0 := by
    have hrange := range_map_writeAt fresh 0 (chunk config data 0)
    simpa [Receiver.message] using hrange
  have htake : chunk config data 0 = data.take (chunk config data 0).length := by
    conv_lhs => rw [hchunk, List.drop_zero]
    rw [hlength, Nat.min_comm, ← List.take_eq_take_min]
  refine ⟨fun next hreceiver hframes hsent => ?_, ?_, ?_, ?_, ?_⟩
  · refine .within data (nextMessageId messageId) 1 data.length (chunk config data 0).length later
      hframes (hsent ▸ hdata) hpos (by omega) ?_ (by omega) (fun _ => ?_) (hsent ▸ hlater)
    · rcases Nat.le_total data.length config.maxMessageLength with hle | hle
      · exact .inr (by omega)
      · exact .inl (by rw [hlength, Nat.min_eq_right hle])
    · rw [hreceiver, hreceive, hbuffer]
      exact htake
  · rw [hreceive]
    intro handed hhanded
    simp only at hhanded
    split at hhanded
    · rename_i hwhole
      rw [List.mem_singleton.1 hhanded, ← hwhole.2, hbuffer, htake, hwhole.2, List.take_length]
      exact hdata.mem
    · cases hhanded
  · intro _
    rw [hreceive]
  · intro hcommand
    exact absurd rfl hcommand
  · intro hcommand
    exact absurd rfl hcommand

theorem receipt_piece {fresh : ℕ → UInt8} {data : List UInt8} {messageId seqNr : UInt8}
    {rounds pos : ℕ} {later : List (UInt8 × List UInt8)}
    (hdata : Sent config (link.sent node) data) (hlt : pos < data.length)
    (hdvd : config.maxMessageLength ∣ pos) (hrounds : data.length - pos < rounds + 1)
    (hbuffer : link.receiver.message pos = data.take pos)
    (hreceived : link.receiver.messageIdReceived = 114) (hstart : link.lastStart = some node)
    (hlater : ∀ message ∈ later, Sent config (link.sent node) message.2) :
    Receipt config link node fresh
      (pieceFrame messageId seqNr 1 pos data.length (chunk config data pos))
      (sendLoop config messageId data rounds
        (newMessage messageId (seqNr + 1) 1 (pos + (chunk config data pos).length) data.length)
        (pos + (chunk config data pos).length) ++ sends config later) := by
  obtain ⟨hpos, hbyte, hchunk⟩ := hdata.intact pos hlt hdvd
  have hdataLength := hdata.length
  have hlength : (chunk config data pos).length =
      min (data.length - pos) config.maxMessageLength := length_chunk
  have hmod : (chunk config data pos).length % 256 = (chunk config data pos).length :=
    Nat.mod_eq_of_lt (by omega)
  have hreceive : receive fresh link.receiver
      (pieceFrame messageId seqNr 1 pos data.length (chunk config data pos)) =
      (⟨writeAt link.receiver.currentMessage pos (chunk config data pos), 114⟩, []) := by
    rw [receive_middle (by omega) hreceived, hmod, List.take_length]
  have hcommand : (pieceFrame messageId seqNr 1 pos data.length (chunk config data pos)).command =
      1 := rfl
  refine ⟨fun next hreceiver hframes hsent => ?_, ?_, ?_, ?_, ?_⟩
  · refine .within data messageId (seqNr + 1) rounds (pos + (chunk config data pos).length) later
      hframes (hsent ▸ hdata) (by omega) (by omega) ?_ (by omega) (fun _ => ?_) (hsent ▸ hlater)
    · rcases Nat.le_total (data.length - pos) config.maxMessageLength with hle | hle
      · exact .inr (by omega)
      · rw [hlength, Nat.min_eq_right hle]
        exact .inl (Nat.dvd_add hdvd (dvd_refl _))
    · -- the buffer grows by the piece
      rw [hreceiver, hreceive]
      calc Receiver.message ⟨writeAt link.receiver.currentMessage pos (chunk config data pos), 114⟩
            (pos + (chunk config data pos).length)
          = link.receiver.message pos ++ chunk config data pos :=
            range_map_writeAt link.receiver.currentMessage pos (chunk config data pos)
        _ = data.take pos ++ (data.drop pos).take (chunk config data pos).length := by
            conv_lhs => rw [hbuffer, hchunk]
            rw [hlength, ← List.length_drop, Nat.min_comm, ← List.take_eq_take_min]
        _ = data.take (pos + (chunk config data pos).length) := List.take_add.symm
  · rw [hreceive]
    intro handed hhanded
    cases hhanded
  · intro hzero
    rw [hcommand] at hzero
    cases hzero
  · intro _
    rw [hreceive, hreceived]
  · exact fun _ hother => absurd hstart hother

theorem receipt_end {fresh : ℕ → UInt8} {data : List UInt8} {messageId seqNr : UInt8}
    {later : List (UInt8 × List UInt8)} (hdata : Sent config (link.sent node) data)
    (hbuffer : link.receiver.message data.length = data)
    (hreceived : link.receiver.messageIdReceived = 114)
    (hlater : ∀ message ∈ later, Sent config (link.sent node) message.2) :
    Receipt config link node fresh (newMessage messageId seqNr 2 0 data.length)
      (sends config later) := by
  have hreceive : receive fresh link.receiver (newMessage messageId seqNr 2 0 data.length) =
      (link.receiver, [link.receiver.message data.length]) := receive_end hdata.length hreceived
  refine ⟨fun next _ hframes hsent => .between later hframes (hsent ▸ hlater), ?_, ?_, ?_, ?_⟩
  · rw [hreceive]
    intro handed hhanded
    rw [List.mem_singleton.1 hhanded, hbuffer]
    exact hdata.mem
  · intro hcommand
    cases hcommand
  · intro _
    rw [hreceive]
  · intro _ _
    rw [hreceive]

theorem Upcoming.receipt (hupcoming : Upcoming config link node)
    (hreceived : link.lastStart ≠ none → link.receiver.messageIdReceived = 114)
    {msg : FragmentMessage} {rest : List FragmentMessage} (hframes : link.onTheWay node = msg :: rest)
    (hguard : msg.command = 0 ∨ msg.totalSize = 0 ∨ link.lastStart = some node)
    (fresh : ℕ → UInt8) : Receipt config link node fresh msg rest := by
  cases hupcoming with
  | between later hlink hlater =>
      rw [hframes] at hlink
      cases later with
      | nil => cases hlink
      | cons message later =>
          obtain ⟨messageId, data⟩ := message
          obtain ⟨hdata, hrest⟩ := List.forall_mem_cons.1 hlater
          have hsplit : sends config ((messageId, data) :: later) =
              Fragmenting.send config messageId data ++ sends config later := by
            simp [sends]
          rw [hsplit] at hlink
          by_cases hempty : data = []
          · subst hempty
            rw [send_nil] at hlink
            obtain ⟨rfl, rfl⟩ := List.cons.inj hlink
            exact receipt_empty hdata.mem hrest
          · rw [send_of_ne_nil hempty] at hlink
            obtain ⟨rfl, rfl⟩ := List.cons.inj hlink
            exact receipt_start hdata hempty hrest
  | within data messageId seqNr rounds pos later hlink hdata hpos hle hdvd hrounds hbuffer hlater =>
      rw [hframes] at hlink
      obtain ⟨rounds, rfl⟩ : ∃ more, rounds = more + 1 := ⟨rounds - 1, by omega⟩
      have hdataLength := hdata.length
      rcases Nat.lt_or_eq_of_le hle with hlt | heq
      · rw [sendLoop_of_lt hlt] at hlink
        obtain ⟨rfl, rfl⟩ := List.cons.inj hlink
        have hstart : link.lastStart = some node := by
          rcases hguard with hcommand | htotal | hstart
          · cases hcommand
          · have hsize : data.length % 65536 = 0 := htotal
            omega
          · exact hstart
        have hdvd : config.maxMessageLength ∣ pos := by
          rcases hdvd with hdvd | heq
          · exact hdvd
          · omega
        exact receipt_piece hdata hlt hdvd hrounds (hbuffer hstart) (hreceived (by simp [hstart]))
          hstart hlater
      · rw [sendLoop_of_le heq.ge] at hlink
        obtain ⟨rfl, rfl⟩ := List.cons.inj hlink
        have hstart : link.lastStart = some node := by
          rcases hguard with hcommand | htotal | hstart
          · cases hcommand
          · have hsize : data.length % 65536 = 0 := htotal
            omega
          · exact hstart
        have hwhole : link.receiver.message data.length = data := by
          rw [← heq, hbuffer hstart, heq, List.take_length]
        exact receipt_end hdata hwhole (hreceived (by simp [hstart])) hlater

theorem Faithful.initial {receiver : Receiver} {messageIds : Node → UInt8} :
    Faithful config (Link.initial receiver messageIds : Link Node) where
  upcoming node := .between [] rfl (by simp)
  delivered := by simp [Link.initial]
  received hne := absurd rfl hne

variable [DecidableEq Node]

theorem Faithful.step {op : Op Node} (hfaithful : Faithful config link)
    (hstep : Guarded (Undisturbed config) (stepOf (Link.perform config)) link op next) :
    Faithful config next := by
  obtain ⟨hguard, hstep⟩ := hstep
  unfold stepOf at hstep
  cases op with
  | send node data =>
      simp only [Link.perform] at hstep
      split at hstep
      · rename_i hlength
        obtain rfl := Option.some.inj hstep
        refine ⟨fun other => ?_, fun handed hhanded => ?_, hfaithful.received⟩
        · by_cases hother : other = node
          · subst hother
            refine (hfaithful.upcoming other).send ⟨?_, hlength, hguard⟩
              (Function.update_self ..) ?_ rfl rfl
            · simp
            · simp
          · refine (hfaithful.upcoming other).congr ?_ ?_ fun hstart => ⟨hstart, rfl⟩
            · simp [Function.update_of_ne hother]
            · simp [Function.update_of_ne hother]
        · have hmem := hfaithful.delivered handed hhanded
          by_cases hother : handed.1 = node
          · simp only [hother, Function.update_self]
            exact List.mem_append_left _ (hother ▸ hmem)
          · simpa only [Function.update_of_ne hother] using hmem
      · cases hstep
  | receive node fresh =>
      simp only [Link.perform] at hstep
      split at hstep
      · cases hstep
      · rename_i msg rest hframes
        obtain rfl := Option.some.inj hstep
        have hmay : msg.command = 0 ∨ msg.totalSize = 0 ∨ link.lastStart = some node :=
          hguard msg (by simp [hframes])
        obtain ⟨hupcoming, hhanded, hstarted, hkept, halone⟩ :=
          (hfaithful.upcoming node).receipt hfaithful.received hframes hmay fresh
        refine ⟨fun other => ?_, fun handed hmem => ?_, fun hne => ?_⟩
        · by_cases hother : other = node
          · subst hother
            exact hupcoming _ rfl (by simp) rfl
          · refine (hfaithful.upcoming other).congr ?_ (List.Subset.refl _) fun hstart => ?_
            · simp [Function.update_of_ne hother]
            · simp only at hstart
              split at hstart
              · exact absurd (Option.some.inj hstart).symm hother
              · rename_i hcommand
                refine ⟨hstart, halone hcommand fun hnode => hother ?_⟩
                exact Option.some.inj (hstart.symm.trans hnode)
        · rcases List.mem_append.1 hmem with hmem | hmem
          · exact hfaithful.delivered handed hmem
          · obtain ⟨data, hdata, rfl⟩ := List.mem_map.1 hmem
            exact hhanded data hdata
        · by_cases hcommand : msg.command = 0
          · exact hstarted hcommand
          · simp only [if_neg hcommand] at hne
            exact (hkept hcommand).trans (hfaithful.received hne)

/-- One sender: every message of a sequence is handed over exactly once if and only if every
message has several frames that carry its bytes, or is empty and comes after a start frame.
Several senders: in every run in which the frames carry the bytes of the messages and
further frames of a message only arrive while the last start frame came from the same node,
every payload that is handed over was sent by the node that it is reported for. -/
theorem handed_over {receiver : Receiver} {messageId : UInt8} {messages : List (List UInt8)}
    (hlength : ∀ data ∈ messages, data.length < 65536) :
    (Delivers config receiver messageId messages ↔
      Fits config (receiver.messageIdReceived = 114) messages) ∧
    ∀ (messageIds : Node → UInt8) (ops : List (Op Node)) (last : Link Node),
      Run (Guarded (Undisturbed config) (stepOf (Link.perform config)))
        (.initial receiver messageIds) ops last →
      ∀ handed ∈ last.delivered, handed.2 ∈ last.sent handed.1 := by
  refine ⟨delivers_iff hlength, fun messageIds ops last hrun => ?_⟩
  have hstep : ∀ (link : Link Node) (op : Op Node) (next : Link Node), Faithful config link →
      Guarded (Undisturbed config) (stepOf (Link.perform config)) link op next →
      Faithful config next := fun _ _ _ => Faithful.step
  exact (hrun.invariant hstep Faithful.initial).delivered

end Steps

/-! ## Short messages and mixed frames -/

/-- Frames with ten bytes of payload. -/
def tenBytes : Config :=
  ⟨42, 16⟩

/-- No frame was received. -/
def silent : Receiver :=
  ⟨fun _ => 0, 0⟩

theorem intact_tenBytes {data : List UInt8} (hlength : data.length < 256) :
    Intact tenBytes data := by
  intro pos hpos hdvd
  have hchunk : (chunk tenBytes data pos).length = min (data.length - pos) 10 := length_chunk
  refine ⟨by omega, by omega, ?_⟩
  have hmod : pos % 2 ^ tenBytes.sizeBits = pos :=
    Nat.mod_eq_of_lt (lt_trans (lt_trans hpos hlength) (by decide))
  unfold chunk
  rw [hmod, ← List.length_drop, Nat.min_comm, ← List.take_eq_take_min]

/-- A message of twelve bytes, and a run in which a byte is sent and its frame arrives. -/
theorem handed_over_tenBytes :
    (Delivers tenBytes silent 1 [List.replicate 12 7] ↔
      Fits tenBytes (silent.messageIdReceived = 114) [List.replicate 12 7]) ∧
    ∃ last : Link ℕ,
      Run (Guarded (Undisturbed tenBytes) (stepOf (Link.perform tenBytes)))
        (.initial silent fun _ => 1) [.send 3 [5], .receive 3 fun _ => 0] last ∧
      ∀ handed ∈ last.delivered, handed.2 ∈ last.sent handed.1 := by
  have hboth : (Delivers tenBytes silent 1 [List.replicate 12 7] ↔
      Fits tenBytes (silent.messageIdReceived = 114) [List.replicate 12 7]) ∧
    ∀ (messageIds : ℕ → UInt8) (ops : List (Op ℕ)) (last : Link ℕ),
      Run (Guarded (Undisturbed tenBytes) (stepOf (Link.perform tenBytes)))
        (.initial silent messageIds) ops last →
      ∀ handed ∈ last.delivered, handed.2 ∈ last.sent handed.1 := handed_over (by simp)
  refine ⟨hboth.1, ?_⟩
  have hintact : Undisturbed tenBytes (.initial silent fun _ => 1 : Link ℕ) (.send 3 [5]) :=
    intact_tenBytes (by decide)
  obtain ⟨last, hrun⟩ : ∃ last : Link ℕ,
      Run (Guarded (Undisturbed tenBytes) (stepOf (Link.perform tenBytes)))
        (.initial silent fun _ => 1) [.send 3 [5], .receive 3 fun _ => 0] last := by
    refine ⟨_, .cons ⟨hintact, rfl⟩ (.cons ⟨fun msg hmsg => .inl ?_, rfl⟩ (.nil _))⟩
    obtain rfl := Option.some.inj hmsg
    rfl
  exact ⟨last, hrun, hboth.2 _ _ _ hrun⟩

/-- Two nodes send twelve bytes each; two frames of the first one follow the start frame
of the second one. -/
def twoSenders : List (Op ℕ) :=
  [.send 3 (List.replicate 12 7), .send 4 (List.replicate 12 8), .receive 3 fun _ => 0,
    .receive 4 fun _ => 0, .receive 3 fun _ => 0, .receive 3 fun _ => 0]

/-- A message of one byte is handed over twice, and the frames of two senders mix: the first
ten bytes of node `4` are reported as a message of node `3`. -/
theorem not_handed_over :
    ¬ Delivers tenBytes silent 1 [[5]] ∧
      ∃ last : Link ℕ, Run (stepOf (Link.perform tenBytes)) (.initial silent fun _ => 1) twoSenders
          last ∧
        ∃ handed ∈ last.delivered, handed.2 ∉ last.sent handed.1 := by
  constructor
  · intro hdelivers
    have htwice : (receiveAll (fun _ => 0) silent (send tenBytes 1 [5])).2 = [[5], [5]] := by
      decide +kernel
    rw [(hdelivers fun _ => 0).1] at htwice
    cases htwice
  · have hrun : (twoSenders.foldlM (Link.perform tenBytes)
        (Link.initial silent fun _ => 1)).map (fun last => (last.delivered, last.sent 3)) =
        some ([(3, List.replicate 10 8 ++ [7, 7])], [List.replicate 12 7]) := by
      decide +kernel
    obtain ⟨last, hlast, hparts⟩ := Option.map_eq_some_iff.1 hrun
    obtain ⟨hdelivered, hsent⟩ := Prod.ext_iff.1 hparts
    refine ⟨last, Run.of_foldlM hlast, (3, List.replicate 10 8 ++ [7, 7]), ?_, ?_⟩
    · simp only at hdelivered
      rw [hdelivered]
      exact List.mem_singleton_self _
    · simp only at hsent ⊢
      rw [hsent]
      decide

end Wiselib.Broker.Fragmenting
