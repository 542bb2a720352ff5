import Wiselib.Library.Network

/-!
# The reliable radio

`ReliableRadio` sends a message with an id and keeps it in a buffer.  The
receiver answers a message that is new to it with a reply, remembers the reply in
a table, and hands the message to its callbacks; a message that the table
remembers is ignored.  A daemon sends messages again that were not replied to,
and tells the callbacks of the sender after `max_retries` that a message was not
delivered.  Both tables are bounded, and a full one overwrites its first obsolete
entry.

This file models the state and the handlers of a node.  The transmission power,
which the daemon raises for late retries, and the checksum, which only fails for
frames that were damaged, are left out.
-/

namespace Wiselib.Radio.Reliable

open Network

/-! ## Bounded tables -/

section Table

variable {α : Type*}

/-- Overwrites the first obsolete entry. -/
def replaceFirst (obsolete : α → Bool) (entry : α) : List α → List α
  | [] => []
  | first :: rest =>
      if obsolete first then entry :: rest else first :: replaceFirst obsolete entry rest

/-- Appends the entry where there is room, and overwrites the first obsolete one
otherwise. -/
def insertOrReplace (capacity : ℕ) (obsolete : α → Bool) (entry : α) (table : List α) :
    Option (List α) :=
  if table.length < capacity then some (table ++ [entry])
  else if table.any obsolete then some (replaceFirst obsolete entry table)
  else none

/-- The entry that is overwritten. -/
def overwritten (capacity : ℕ) (obsolete : α → Bool) (table : List α) : Option α :=
  if table.length < capacity then none else table.find? obsolete

variable {capacity : ℕ} {obsolete : α → Bool} {entry other : α} {table after : List α}

theorem mem_replaceFirst (hmem : other ∈ replaceFirst obsolete entry table) :
    other = entry ∨ other ∈ table := by
  induction table with
  | nil => exact .inr hmem
  | cons first rest ih =>
      unfold replaceFirst at hmem
      split at hmem
      · exact (List.mem_cons.1 hmem).imp_right (List.mem_cons_of_mem _)
      · rcases List.mem_cons.1 hmem with rfl | hrest
        · exact .inr List.mem_cons_self
        · exact (ih hrest).imp_right (List.mem_cons_of_mem _)

theorem mem_replaceFirst_self (hany : table.any obsolete = true) :
    entry ∈ replaceFirst obsolete entry table := by
  induction table with
  | nil => simp at hany
  | cons first rest ih =>
      unfold replaceFirst
      split
      · exact List.mem_cons_self
      · rename_i hkept
        rw [List.any_cons, Bool.or_eq_true] at hany
        exact List.mem_cons_of_mem _ (ih (hany.resolve_left hkept))

theorem mem_replaceFirst_or_find (hmem : other ∈ table) :
    other ∈ replaceFirst obsolete entry table ∨ table.find? obsolete = some other := by
  induction table with
  | nil => exact .inl hmem
  | cons first rest ih =>
      unfold replaceFirst
      split
      · rename_i hobsolete
        rcases List.mem_cons.1 hmem with rfl | hrest
        · exact .inr (by simp [hobsolete])
        · exact .inl (List.mem_cons_of_mem _ hrest)
      · rename_i hkept
        rcases List.mem_cons.1 hmem with rfl | hrest
        · exact .inl List.mem_cons_self
        · apply (ih hrest).imp (List.mem_cons_of_mem _)
          intro hfind
          simpa [hkept] using hfind

theorem mem_insertOrReplace (hinsert : insertOrReplace capacity obsolete entry table = some after)
    (hmem : other ∈ after) : other = entry ∨ other ∈ table := by
  unfold insertOrReplace at hinsert
  split at hinsert
  · rw [← Option.some.inj hinsert, List.mem_append, List.mem_singleton] at hmem
    exact hmem.symm
  · split at hinsert
    · rw [← Option.some.inj hinsert] at hmem
      exact mem_replaceFirst hmem
    · simp at hinsert

theorem mem_insertOrReplace_self
    (hinsert : insertOrReplace capacity obsolete entry table = some after) : entry ∈ after := by
  unfold insertOrReplace at hinsert
  split at hinsert
  · rw [← Option.some.inj hinsert]
    exact List.mem_append_right _ List.mem_cons_self
  · split at hinsert
    · rename_i hany
      rw [← Option.some.inj hinsert]
      exact mem_replaceFirst_self hany
    · simp at hinsert

theorem mem_insertOrReplace_or_overwritten
    (hinsert : insertOrReplace capacity obsolete entry table = some after)
    (hmem : other ∈ table) : other ∈ after ∨ overwritten capacity obsolete table = some other := by
  unfold insertOrReplace at hinsert
  split at hinsert
  · rw [← Option.some.inj hinsert]
    exact .inl (List.mem_append_left _ hmem)
  · rename_i hfull
    split at hinsert
    · rw [← Option.some.inj hinsert, overwritten, if_neg hfull]
      exact mem_replaceFirst_or_find hmem
    · simp at hinsert

end Table

/-! ## Nodes -/

variable {Node : Type*}

/-- The sizes of the tables, the number of retries and the number of callbacks
that can be registered.  A counter of one byte holds the last two. -/
structure Config where
  maxBufferedMessages : ℕ
  maxBufferedReplies : ℕ
  maxRetries : ℕ
  maxRegisteredProtocols : ℕ
  counter_fits : maxRetries + maxRegisteredProtocols < 256

/-- `ReliableRadioMessage`. -/
structure ReliableRadioMessage (Node : Type*) where
  message_id : UInt32
  counter : UInt8
  payload : List UInt8
  destination : Node
  delivered : Bool
deriving DecidableEq, Repr

/-- A `ReliableRadioMessage` as an entry of the table of replies.  Its payload is
its destination again, and it is never marked as delivered. -/
structure ReliableRadioReply (Node : Type*) where
  message_id : UInt32
  counter : UInt8
  destination : Node
deriving DecidableEq, Repr

/-- The frames: a message, the reply to a message with its destination, and what
the application broadcasts past the reliable radio. -/
inductive Frame (Node : Type*)
  | message (id : UInt32) (counter : UInt8) (payload : List UInt8)
  | reply (id : UInt32) (counter : UInt8) (destination : Node)
  | broadcast (payload : List UInt8)
deriving DecidableEq, Repr

/-- What can be observed: `send` took a message; a reply came in; and what all
registered callbacks are told, `RR_MESSAGE_BUFFER_FULL`, a received message,
`RR_REPLY_BUFFER_FULL` or `RR_UNDELIVERED`. -/
inductive Report (Node : Type*)
  | accepted (destination : Node) (id : UInt32)
  | replied (sender : Node) (id : UInt32)
  | messageBufferFull (destination : Node) (payload : List UInt8)
  | handed (sender : Node) (id : UInt32) (payload : List UInt8)
  | replyBufferFull (sender : Node) (payload : List UInt8)
  | undelivered (destination : Node) (id : UInt32) (payload : List UInt8)
deriving DecidableEq, Repr

/-- What happens at a node by itself.  The destination of a broadcast is `none`. -/
inductive Input (Node : Type*)
  | enableRadio
  | disableRadio
  | regRecvCallback
  | send (destination : Option Node) (payload : List UInt8)
  | daemon
deriving DecidableEq, Repr

/-- What a node keeps.  `active` is `status == RR_ACTIVE_STATUS`, and of the
callbacks their number. -/
structure ReliableRadio (Node : Type*) where
  active : Bool
  callbacks : ℕ
  seq : UInt32
  messages : List (ReliableRadioMessage Node)
  replies : List (ReliableRadioReply Node)
deriving DecidableEq, Repr

/-- A loop over the callbacks tells each of them the same, and nothing happens
where none is registered. -/
def ReliableRadio.tell (self : ReliableRadio Node) (event : Report Node) : List (Report Node) :=
  if self.callbacks = 0 then [] else [event]

@[simp] theorem ReliableRadio.mem_tell {state : ReliableRadio Node} {event told : Report Node} :
    told ∈ state.tell event ↔ state.callbacks ≠ 0 ∧ told = event := by
  unfold ReliableRadio.tell
  split
  · simp_all
  · simp_all

/-- An entry of the message buffer that `insert_reliable_radio_message` may
overwrite. -/
def obsoleteMessage (config : Config) (message : ReliableRadioMessage Node) : Bool :=
  decide (message.counter.toNat > config.maxRetries) || message.delivered

/-- An entry of the reply table that `insert_reliable_radio_reply` may overwrite. -/
def obsoleteReply (config : Config) (reply : ReliableRadioReply Node) : Bool :=
  decide (reply.counter.toNat ≥ config.maxRetries)

/-- `insert_reliable_radio_message`. -/
def insertReliableRadioMessage (config : Config) (message : ReliableRadioMessage Node)
    (messages : List (ReliableRadioMessage Node)) : Option (List (ReliableRadioMessage Node)) :=
  insertOrReplace config.maxBufferedMessages (obsoleteMessage config) message messages

/-- `insert_reliable_radio_reply`. -/
def insertReliableRadioReply (config : Config) (reply : ReliableRadioReply Node)
    (replies : List (ReliableRadioReply Node)) : Option (List (ReliableRadioReply Node)) :=
  insertOrReplace config.maxBufferedReplies (obsoleteReply config) reply replies

/-- The frame of a buffered message. -/
def ReliableRadioMessage.frame (message : ReliableRadioMessage Node) : Frame Node :=
  .message message.message_id message.counter message.payload

/-- `send`. -/
def ReliableRadio.send (config : Config) (destination : Option Node) (payload : List UInt8)
    (self : ReliableRadio Node) :
    ReliableRadio Node × Effects Node (Frame Node) (Report Node) :=
  if self.active then
    match destination with
    | none => (self, .send none (.broadcast payload))
    | some destination =>
        let message : ReliableRadioMessage Node :=
          { message_id := self.seq
            counter := 0
            payload := payload
            destination := destination
            delivered := false }
        let self := { self with seq := self.seq + 1 }
        match insertReliableRadioMessage config message self.messages with
        | some messages =>
            ({ self with messages := messages },
              { sends := [(some destination, message.frame)]
                reports := [.accepted destination message.message_id] })
        | none =>
            (self, { sends := [], reports := self.tell (.messageBufferFull destination payload) })
  else (self, .none)

/-- One round of the daemon's loop over the message buffer.  Every callback that
is told counts the entry up. -/
def daemonMessage (config : Config) (self : ReliableRadio Node)
    (message : ReliableRadioMessage Node) :
    ReliableRadioMessage Node × Effects Node (Frame Node) (Report Node) :=
  if message.counter.toNat < config.maxRetries ∧ message.delivered = false then
    ({ message with counter := message.counter + 1 }, .send (some message.destination) message.frame)
  else if message.counter.toNat = config.maxRetries ∧ message.delivered = false then
    ({ message with counter := message.counter + UInt8.ofNat self.callbacks },
      { sends := []
        reports := self.tell
          (.undelivered message.destination message.message_id message.payload) })
  else (message, .none)

/-- One round of the daemon's loop over the replies. -/
def daemonReply (config : Config) (reply : ReliableRadioReply Node) : ReliableRadioReply Node :=
  if reply.counter.toNat < config.maxRetries then { reply with counter := reply.counter + 1 }
  else reply

/-- `daemon`. -/
def ReliableRadio.daemon (config : Config) (self : ReliableRadio Node) :
    ReliableRadio Node × Effects Node (Frame Node) (Report Node) :=
  if self.active then
    let rounds := self.messages.map (daemonMessage config self)
    ({ self with
        messages := rounds.map Prod.fst
        replies := self.replies.map (daemonReply config) },
      { sends := rounds.flatMap fun round => round.2.sends
        reports := rounds.flatMap fun round => round.2.reports })
  else (self, .none)

/-- The daemon sends only entries that are left to be sent. -/
theorem ReliableRadio.mem_daemon_sends {config : Config} {state : ReliableRadio Node}
    {send : Option Node × Frame Node} (hsend : send ∈ (state.daemon config).2.sends) :
    ∃ message ∈ state.messages, send = (some message.destination, message.frame) ∧
      message.counter.toNat < config.maxRetries ∧ message.delivered = false := by
  unfold ReliableRadio.daemon at hsend
  split at hsend
  · simp only [List.mem_flatMap, List.mem_map] at hsend
    obtain ⟨-, ⟨message, hmessage, rfl⟩, hsend⟩ := hsend
    unfold daemonMessage at hsend
    split at hsend
    · rename_i hpending
      exact ⟨message, hmessage, List.mem_singleton.1 hsend, hpending⟩
    · split at hsend
      · simp at hsend
      · simp at hsend
  · simp at hsend

/-- The daemon tells only of entries that were sent often enough. -/
theorem ReliableRadio.mem_daemon_reports {config : Config} {state : ReliableRadio Node}
    {event : Report Node} (hevent : event ∈ (state.daemon config).2.reports) :
    ∃ message ∈ state.messages,
      event = .undelivered message.destination message.message_id message.payload ∧
      message.counter.toNat = config.maxRetries ∧ message.delivered = false := by
  unfold ReliableRadio.daemon at hevent
  split at hevent
  · simp only [List.mem_flatMap, List.mem_map] at hevent
    obtain ⟨-, ⟨message, hmessage, rfl⟩, hevent⟩ := hevent
    unfold daemonMessage at hevent
    split at hevent
    · simp at hevent
    · split at hevent
      · rename_i hlimit
        exact ⟨message, hmessage, (mem_tell.1 hevent).2, hlimit⟩
      · simp at hevent
  · simp at hevent

/-- `send` sends its message or a broadcast. -/
theorem ReliableRadio.mem_send_sends {config : Config} {state : ReliableRadio Node}
    {destination : Option Node} {payload : List UInt8} {send : Option Node × Frame Node}
    (hsend : send ∈ (state.send config destination payload).2.sends) :
    send.2 = .message state.seq 0 payload ∨ send.2 = .broadcast payload := by
  unfold ReliableRadio.send at hsend
  split at hsend
  · cases destination with
    | none =>
        rw [List.mem_singleton.1 hsend]
        exact .inr rfl
    | some destination =>
        dsimp only at hsend
        split at hsend
        · rw [List.mem_singleton.1 hsend]
          exact .inl rfl
        · simp at hsend
  · simp at hsend

/-- `send` reports that it took the message or that the buffer is full. -/
theorem ReliableRadio.mem_send_reports {config : Config} {state : ReliableRadio Node}
    {destination : Option Node} {payload : List UInt8} {event : Report Node}
    (hevent : event ∈ (state.send config destination payload).2.reports) :
    ∃ receiver, event = .accepted receiver state.seq ∨
      event = .messageBufferFull receiver payload := by
  unfold ReliableRadio.send at hevent
  split at hevent
  · cases destination with
    | none => simp at hevent
    | some destination =>
        dsimp only at hevent
        split at hevent
        · exact ⟨destination, .inl (List.mem_singleton.1 hevent)⟩
        · exact ⟨destination, .inr (mem_tell.1 hevent).2⟩
  · simp at hevent

variable [DecidableEq Node]

/-- `replies_check`. -/
def repliesCheck (id : UInt32) (sender : Node) (replies : List (ReliableRadioReply Node)) : Bool :=
  replies.any fun reply => reply.message_id == id && decide (reply.destination = sender)

/-- Marks the first entry that waits for this reply. -/
def setDelivered (id : UInt32) (sender : Node) :
    List (ReliableRadioMessage Node) → List (ReliableRadioMessage Node)
  | [] => []
  | message :: rest =>
      if message.message_id = id ∧ message.delivered = false ∧ message.destination = sender then
        { message with delivered := true } :: rest
      else message :: setDelivered id sender rest

/-- `receive` of a message. -/
def ReliableRadio.receiveMessage (config : Config) (sender : Node) (id : UInt32) (counter : UInt8)
    (payload : List UInt8) (self : ReliableRadio Node) :
    ReliableRadio Node × Effects Node (Frame Node) (Report Node) :=
  if repliesCheck id sender self.replies then (self, .none)
  else
    match insertReliableRadioReply config ⟨id, counter, sender⟩ self.replies with
    | some replies =>
        ({ self with replies := replies },
          { sends := [(some sender, .reply id counter sender)]
            reports := self.tell (.handed sender id payload) })
    | none => (self, { sends := [], reports := self.tell (.replyBufferFull sender payload) })

/-- `receive` at the node `node`. -/
def ReliableRadio.receive (config : Config) (node sender : Node) (frame : Frame Node)
    (self : ReliableRadio Node) :
    ReliableRadio Node × Effects Node (Frame Node) (Report Node) :=
  if self.active = true ∧ sender ≠ node then
    match frame with
    | .message id counter payload => self.receiveMessage config sender id counter payload
    | .reply id _ _ =>
        ({ self with messages := setDelivered id sender self.messages },
          .report (.replied sender id))
    | .broadcast _ => (self, .none)
  else (self, .none)

/-- The inputs. -/
def ReliableRadio.input (config : Config) (self : ReliableRadio Node) :
    Input Node → Option (ReliableRadio Node × Effects Node (Frame Node) (Report Node))
  | .enableRadio => some ({ self with active := true }.daemon config)
  | .disableRadio => some ({ self with active := false }, .none)
  | .regRecvCallback =>
      if self.active = true ∧ self.callbacks < config.maxRegisteredProtocols then
        some ({ self with callbacks := self.callbacks + 1 }, .none)
      else some (self, .none)
  | .send destination payload => some (self.send config destination payload)
  | .daemon => some (self.daemon config)

/-- The reliable radio on every node. -/
def reliableProtocol (config : Config) :
    Protocol Node (ReliableRadio Node) (Frame Node) (Input Node) (Report Node) where
  start _ :=
    { active := false
      callbacks := 0
      seq := 0
      messages := []
      replies := [] }
  input _ state input := state.input config input
  receive node state sender frame := state.receive config node sender frame

/-- The sizes of the default configuration. -/
def defaultConfig : Config where
  maxBufferedMessages := 10
  maxBufferedReplies := 30
  maxRetries := 2
  maxRegisteredProtocols := 2
  counter_fits := by decide

/-- The step does not wrap the ids of a sender. -/
def idsLast (world : World Node (ReliableRadio Node) (Frame Node) (Report Node)) :
    Op Node (Input Node) → Bool
  | .input node (.send (some _) _) =>
      !(world.states node).active || (world.states node).seq != 4294967295
  | _ => true

/-- The next id is the next number until the ids wrap. -/
theorem toNat_seq_add_one {seq : UInt32} (hlast : seq ≠ 4294967295) :
    (seq + 1).toNat = seq.toNat + 1 := by
  have hne : seq.toNat ≠ 4294967295 := by
    intro heq
    exact hlast (UInt32.toNat_inj.1 heq)
  have hbound : seq.toNat < 4294967296 := seq.toNat_lt
  rw [UInt32.toNat_add]
  have hone : (1 : UInt32).toNat = 1 := rfl
  omega

/-! ### Two nodes -/

/-- The two nodes hear each other. -/
def Apart (first second : Fin 2) : Prop := first ≠ second

instance : DecidableRel Apart := fun first second =>
  inferInstanceAs (Decidable (first ≠ second))

/-- Both nodes start their radio and register a callback. -/
def startOperations : List (Op (Fin 2) (Input (Fin 2))) :=
  [.input 0 .enableRadio, .input 1 .enableRadio, .input 0 .regRecvCallback,
    .input 1 .regRecvCallback]

end Wiselib.Radio.Reliable
