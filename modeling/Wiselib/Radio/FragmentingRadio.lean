import Wiselib.Library.Network
import Wiselib.Radio.FragmentingMessage

/-!
# The fragmenting radio

`FragmentingRadio` passes a message that fits into one radio message on as it is.
A longer one is cut into fragments under a random id.  The receiver keeps a
`FragmentingMessage` for every id it hears fragments of, and hands the joined
payload to its callbacks when one of them is complete.  A daemon gives up
messages that stay incomplete for too long.

This file models the state and the handlers of a node.  Every message that is
passed to `send` has a serial number, which its frames carry and no handler
reads.  Checksums, which only fail for frames that were damaged, are left out.
-/

namespace Wiselib.Radio.Fragmenting

open Network

variable {Node : Type*}

/-- `FragmentingRadio::MAX_MESSAGE_LENGTH`. -/
def maxLength : ℕ := 1024

/-- The bytes of a `Message` before its payload: id, checksum and size. -/
def headerBytes : ℕ := 1 + 2 + 2

/-- A message of the application, which fits into its buffer.  Id 14 is
`FR_MESSAGE`, the radio's own. -/
structure Message where
  message_id : UInt8
  payload : List UInt8
  fits : headerBytes + payload.length ≤ maxLength
  not_fr_message : message_id ≠ 14
deriving DecidableEq, Repr

/-- `serial_size`. -/
def Message.serialSize (message : Message) : ℕ :=
  headerBytes + message.payload.length

/-- The frames: a message as it is, with its serial number, and a fragment. -/
inductive Frame (Node : Type*)
  | whole (serial : ℕ) (message : Message)
  | fragment (fragment : Fragment (Node × ℕ))
deriving DecidableEq, Repr

/-- What can be observed: a message was passed to `send`, and what all registered
callbacks are handed, with the length they are told.  The serial number is the
one of the frame that led to it. -/
inductive Report (Node : Type*)
  | sent (serial : ℕ) (id : UInt8) (payload : List UInt8)
  | handed (sender : Node) (serial : ℕ) (length : ℕ) (id : UInt8) (payload : List UInt8)
deriving DecidableEq, Repr

/-- What happens at a node by itself.  `random` is what `rand` returns in `send`,
and the clock may be set to any time. -/
inductive Input (Node : Type*)
  | enableRadio
  | disableRadio
  | regRecvCallback
  | send (destination : Option Node) (message : Message) (random : ℕ)
  | clock (now : UInt32)
  | daemon
deriving DecidableEq, Repr

/-- What a node keeps.  `active` is `status == FR_ACTIVE_STATUS`, and of the
callbacks their number.  `serial` counts the calls of `send`. -/
structure FragmentingRadio (Node : Type*) where
  active : Bool
  callbacks : ℕ
  now : UInt32
  messages : List (FragmentingMessage (Node × ℕ))
  serial : ℕ
deriving DecidableEq, Repr

/-- A loop over the callbacks hands each of them the same, and nothing happens
where none is registered. -/
def FragmentingRadio.tell (state : FragmentingRadio Node) (event : Report Node) :
    List (Report Node) :=
  if state.callbacks = 0 then [] else [event]

/-- The frames of a message, with the id that `rand` gives to its fragments. -/
def framesOf (config : Config) (node : Node) (serial : ℕ) (message : Message) (random : ℕ) :
    List (Frame Node) :=
  if message.serialSize ≤ config.maxMessageLength then [.whole serial message]
  else if config.reservedBytes < config.maxMessageLength then
    (vectorize config (node, serial) (UInt16.ofNat (random % 0xffff)) message.message_id
      message.payload config.fragmentPayload).map .fragment
  else []

/-- `send` at the node `node`. -/
def FragmentingRadio.send (config : Config) (node : Node) (destination : Option Node)
    (message : Message) (random : ℕ) (state : FragmentingRadio Node) :
    FragmentingRadio Node × Effects Node (Frame Node) (Report Node) :=
  ({ state with serial := state.serial + 1 },
    { sends :=
        if state.active then
          (framesOf config node state.serial message random).map fun frame => (destination, frame)
        else []
      reports := [.sent state.serial message.message_id message.payload] })

/-- One round of the daemon. -/
def daemonMessage (config : Config) (now : UInt32) (message : FragmentingMessage (Node × ℕ)) :
    FragmentingMessage (Node × ℕ) :=
  let message := if now < message.timestamp then { message with timestamp := now } else message
  if now > message.timestamp + config.timeout ∧ message.active = true then
    { message with active := false }
  else message

/-- `daemon`. -/
def FragmentingRadio.daemon (config : Config) (state : FragmentingRadio Node) :
    FragmentingRadio Node :=
  if state.active then
    { state with messages := state.messages.map (daemonMessage config state.now) }
  else state

/-- How the loop over the buffered messages ends: one is complete, or it came to
the end, with or without a message under the id of the fragment. -/
inductive Search (Node : Type*)
  | complete (message : FragmentingMessage (Node × ℕ))
  | found
  | missing
deriving DecidableEq, Repr

/-- The loop of `receive` over the buffered messages. -/
def insertFragment (config : Config) (fragment : Fragment (Node × ℕ)) :
    List (FragmentingMessage (Node × ℕ)) → List (FragmentingMessage (Node × ℕ)) × Search Node
  | [] => ([], .missing)
  | message :: rest =>
      if message.id = fragment.id ∧ message.active = true then
        let message := message.insertUnique config fragment
        if message.checkCompleteness = .complete then
          ({ message with active := false } :: rest, .complete message)
        else
          let (messages, search) := insertFragment config fragment rest
          (message :: messages, match search with
            | .complete message => .complete message
            | _ => .found)
      else
        let (messages, search) := insertFragment config fragment rest
        (message :: messages, search)

/-- The message that `receive` makes for a fragment under a new id. -/
def newMessage (config : Config) (now : UInt32) (fragment : Fragment (Node × ℕ)) :
    FragmentingMessage (Node × ℕ) :=
  let message : FragmentingMessage (Node × ℕ) :=
    { id := fragment.id
      orig_id := fragment.orig_id
      timestamp := 0
      active := false
      fragments := [] }
  { message.insertUnique config fragment with active := true, timestamp := now }

/-- A new message takes every inactive place, or a new one. -/
def storeMessage (config : Config) (message : FragmentingMessage (Node × ℕ))
    (messages : List (FragmentingMessage (Node × ℕ))) : List (FragmentingMessage (Node × ℕ)) :=
  if messages.any fun other => !other.active then
    messages.map fun other => if other.active = false then message else other
  else pushBack config.maxBuffered message messages

/-- `receive` of a fragment. -/
def FragmentingRadio.receiveFragment (config : Config) (sender : Node)
    (fragment : Fragment (Node × ℕ)) (state : FragmentingRadio Node) :
    FragmentingRadio Node × Effects Node (Frame Node) (Report Node) :=
  match insertFragment config fragment state.messages with
  | (messages, .complete message) =>
      ({ state with messages := messages },
        { sends := []
          reports := state.tell (.handed sender fragment.origin.2 message.deVectorize.length
            message.orig_id message.deVectorize) })
  | (messages, .found) => ({ state with messages := messages }, .none)
  | (messages, .missing) =>
      ({ state with
          messages := storeMessage config (newMessage config state.now fragment) messages },
        .none)

variable [DecidableEq Node]

/-- `receive` at the node `node`. -/
def FragmentingRadio.receive (config : Config) (node sender : Node) (frame : Frame Node)
    (state : FragmentingRadio Node) :
    FragmentingRadio Node × Effects Node (Frame Node) (Report Node) :=
  if state.active = true ∧ sender ≠ node then
    match frame with
    | .fragment fragment => state.receiveFragment config sender fragment
    | .whole serial message =>
        (state,
          { sends := []
            reports := state.tell (.handed sender serial message.serialSize message.message_id
              message.payload) })
  else (state, .none)

omit [DecidableEq Node] in
/-- The inputs. -/
def FragmentingRadio.input (config : Config) (node : Node) (state : FragmentingRadio Node) :
    Input Node → Option (FragmentingRadio Node × Effects Node (Frame Node) (Report Node))
  | .enableRadio => some ({ state with active := true }.daemon config, .none)
  | .disableRadio => some ({ state with active := false }, .none)
  | .regRecvCallback =>
      if state.active = true ∧ state.callbacks < config.maxRegistered then
        some ({ state with callbacks := state.callbacks + 1 }, .none)
      else some (state, .none)
  | .send destination message random => some (state.send config node destination message random)
  | .clock now => some ({ state with now := now }, .none)
  | .daemon => some (state.daemon config, .none)

/-- The fragmenting radio on every node. -/
def fragmentingProtocol (config : Config) :
    Protocol Node (FragmentingRadio Node) (Frame Node) (Input Node) (Report Node) where
  start _ :=
    { active := false
      callbacks := 0
      now := 0
      messages := []
      serial := 0 }
  input node state input := state.input config node input
  receive node state sender frame := state.receive config node sender frame

/-! ## What the handlers do -/

section Spec

variable {config : Config} {fragment : Fragment (Node × ℕ)}

omit [DecidableEq Node] in
/-- After the loop there are messages that were there, messages with the fragment
inserted, and one that was complete and is no longer active. -/
theorem mem_insertFragment {messages : List (FragmentingMessage (Node × ℕ))}
    {message : FragmentingMessage (Node × ℕ)}
    (hmem : message ∈ (insertFragment config fragment messages).1) (hactive : message.active = true) :
    message ∈ messages ∨
      ∃ old ∈ messages, old.id = fragment.id ∧ old.active = true ∧
        message = old.insertUnique config fragment ∧ message.checkCompleteness ≠ .complete := by
  induction messages with
  | nil => simp [insertFragment] at hmem
  | cons first rest ih =>
      have hlater : message ∈ (insertFragment config fragment rest).1 →
          message ∈ first :: rest ∨
            ∃ old ∈ first :: rest, old.id = fragment.id ∧ old.active = true ∧
              message = old.insertUnique config fragment ∧
              message.checkCompleteness ≠ .complete := by
        intro hrest
        rcases ih hrest with hold | ⟨old, hold, hsame⟩
        · exact .inl (List.mem_cons_of_mem _ hold)
        · exact .inr ⟨old, List.mem_cons_of_mem _ hold, hsame⟩
      unfold insertFragment at hmem
      split at hmem
      · rename_i hfirst
        dsimp only at hmem
        split at hmem
        · rcases List.mem_cons.1 hmem with rfl | hrest
          · simp at hactive
          · exact .inl (List.mem_cons_of_mem _ hrest)
        · rename_i hopen
          rcases List.mem_cons.1 hmem with rfl | hrest
          · exact .inr ⟨first, List.mem_cons_self, hfirst.1, hfirst.2, rfl, hopen⟩
          · exact hlater hrest
      · rcases List.mem_cons.1 hmem with rfl | hrest
        · exact .inl List.mem_cons_self
        · exact hlater hrest

omit [DecidableEq Node] in
/-- A complete message is an active one under the id of the fragment, with the
fragment inserted. -/
theorem complete_insertFragment {messages : List (FragmentingMessage (Node × ℕ))}
    {message : FragmentingMessage (Node × ℕ)}
    (hcomplete : (insertFragment config fragment messages).2 = .complete message) :
    ∃ old ∈ messages, old.id = fragment.id ∧ old.active = true ∧
      message = old.insertUnique config fragment ∧ message.checkCompleteness = .complete := by
  induction messages with
  | nil => simp [insertFragment] at hcomplete
  | cons first rest ih =>
      have hlater : (insertFragment config fragment rest).2 = .complete message →
          ∃ old ∈ first :: rest, old.id = fragment.id ∧ old.active = true ∧
            message = old.insertUnique config fragment ∧ message.checkCompleteness = .complete := by
        intro hrest
        obtain ⟨old, hold, hsame⟩ := ih hrest
        exact ⟨old, List.mem_cons_of_mem _ hold, hsame⟩
      unfold insertFragment at hcomplete
      split at hcomplete
      · rename_i hfirst
        dsimp only at hcomplete
        split at hcomplete
        · rename_i hfull
          rw [Search.complete.injEq] at hcomplete
          subst hcomplete
          exact ⟨first, List.mem_cons_self, hfirst.1, hfirst.2, rfl, hfull⟩
        · apply hlater
          cases hsearch : (insertFragment config fragment rest).2 with
          | complete other =>
              rw [hsearch] at hcomplete
              exact hcomplete
          | found =>
              rw [hsearch] at hcomplete
              simp at hcomplete
          | missing =>
              rw [hsearch] at hcomplete
              simp at hcomplete
      · exact hlater hcomplete

omit [DecidableEq Node] in
theorem mem_storeMessage {messages : List (FragmentingMessage (Node × ℕ))}
    {message other : FragmentingMessage (Node × ℕ)}
    (hmem : other ∈ storeMessage config message messages) : other = message ∨ other ∈ messages := by
  unfold storeMessage at hmem
  split at hmem
  · obtain ⟨old, hold, heq⟩ := List.mem_map.1 hmem
    split at heq
    · exact .inl heq.symm
    · exact .inr (heq ▸ hold)
  · rcases pushBack_eq_or config.maxBuffered message messages with hpush | hpush
    · rw [hpush] at hmem
      exact (List.mem_append.1 hmem).symm.imp_left List.mem_singleton.1
    · rw [hpush] at hmem
      exact .inr hmem

omit [DecidableEq Node] in
theorem mem_daemon {state : FragmentingRadio Node} {message : FragmentingMessage (Node × ℕ)}
    (hmem : message ∈ (state.daemon config).messages) (hactive : message.active = true) :
    ∃ old ∈ state.messages, old.active = true ∧ old.id = message.id ∧
      old.orig_id = message.orig_id ∧ old.fragments = message.fragments := by
  have hround : ∀ old : FragmentingMessage (Node × ℕ),
      (daemonMessage config state.now old).active = true → old.active = true ∧
        old.id = (daemonMessage config state.now old).id ∧
        old.orig_id = (daemonMessage config state.now old).orig_id ∧
        old.fragments = (daemonMessage config state.now old).fragments := by
    intro old hstill
    unfold daemonMessage at hstill ⊢
    dsimp only at hstill ⊢
    by_cases hearly : state.now < old.timestamp
    · simp only [if_pos hearly] at hstill ⊢
      split at hstill
      · simp at hstill
      · rename_i hkept
        rw [if_neg hkept]
        exact ⟨hstill, rfl, rfl, rfl⟩
    · simp only [if_neg hearly] at hstill ⊢
      split at hstill
      · simp at hstill
      · rename_i hkept
        rw [if_neg hkept]
        exact ⟨hstill, rfl, rfl, rfl⟩
  unfold FragmentingRadio.daemon at hmem
  split at hmem
  · obtain ⟨old, hold, rfl⟩ := List.mem_map.1 hmem
    obtain ⟨hold', hsame⟩ := hround old hactive
    exact ⟨old, hold, hold', hsame⟩
  · exact ⟨message, hmem, hactive, rfl, rfl, rfl⟩

end Spec

/-! ### Three nodes -/

/-- The nodes hear each other. -/
def Apart (first second : Fin 3) : Prop := first ≠ second

instance : DecidableRel Apart := fun first second =>
  inferInstanceAs (Decidable (first ≠ second))

/-- Messages of 24 bytes, of which a full fragment carries 14. -/
def smallConfig : Config where
  maxMessageLength := 24
  radioReserved := 4
  sizeBytes := 1
  maxFragments := 7
  maxBuffered := 5
  maxRegistered := 2
  timeout := 1000
  sizeBytes_pos := by decide
  maxFragments_pos := Nat.succ_pos 6

end Wiselib.Radio.Fragmenting
