import Wiselib.Library.Run

/-!
# The packing radio

The packing radio collects messages for one receiver in a buffer and sends them
in one frame: when the next message does not fit, when it goes to another
receiver, on a timer and on demand.  Before each message stands its length, which
has one byte.  The number of bytes in the buffer has one byte as well where it is
read to send the frame.

`Packing.transparent` proves that every node hears of exactly the payloads that
were addressed to it, as long as no more than 255 bytes are in the buffer, and
that the loop that takes a received frame apart ends and stays within the frame,
exactly when the frame is not shorter than a message id that happens to be there.

## Strategy

* The buffer is `packed` of the payloads that wait (`Faithful`).
* A frame of packed payloads is taken apart into these payloads
  (`receiveLoop_packed`).
* Sending and flushing move payloads from the call to the buffer and from the
  buffer to the frames (`Faithful.flush`, `Faithful.send`).
-/

namespace Wiselib.Radio.Packing

open Transition

/-! ## The packer -/

/-- `MAX_MESSAGE_LENGTH` of the radio below, the bytes of `MESSAGE_ID`, and the number
of bits of a frame size. -/
structure Config where
  maxMessageLength : ℕ
  messageId : List UInt8
  sizeBits : ℕ

/-- The number of bytes of the buffer. -/
def Config.bufferSize (config : Config) : ℕ :=
  config.maxMessageLength - config.messageId.length

/-- `append`: the length and the payload, if they fit.  The size is passed on in one
byte. -/
def append (config : Config) (data buffer : List UInt8) : Option (List UInt8) :=
  let size := data.length % 256
  if buffer.length + size + 1 > config.bufferSize then none
  else some (buffer ++ UInt8.ofNat size :: data.take size)

/-- `next`: the length of the next message, its position and the position behind it. -/
def next (data : List UInt8) (size position : ℕ) : ℕ × ℕ × ℕ :=
  if position > size then (0, 0, position)
  else
    let length := (data.getD position 0).toNat
    (length, position + 1, position + 1 + length)

/-- The loop of `on_receive`, from a position: where the messages are and how long.
The first argument bounds the rounds. -/
def receiveLoop (data : List UInt8) (size : ℕ) : ℕ → ℕ → Option (List (ℕ × ℕ))
  | 0, _ => none
  | rounds + 1, position =>
      match next data size position with
      | (length, start, behind) =>
          if behind ≤ size then
            (receiveLoop data size rounds behind).map fun messages => (start, length) :: messages
          else some []

/-- What is left of a size behind the message id. -/
def Config.sizeBehindId (config : Config) (size : ℕ) : ℕ :=
  (size + 2 ^ config.sizeBits - config.messageId.length) % 2 ^ config.sizeBits

/-- `on_receive` of a frame of `size` bytes, which are the first bytes of `data`; what
follows is the memory behind them.  The result is where the messages are that the
receivers are notified of. -/
def onReceive (config : Config) (size : ℕ) (data : List UInt8) : Option (List (ℕ × ℕ)) :=
  if data.take config.messageId.length = config.messageId then
    (receiveLoop (data.drop config.messageId.length) (config.sizeBehindId size)
      (config.sizeBehindId size + 1) 0).map fun messages =>
        messages.map fun (start, length) => (start + config.messageId.length, length)
  else some []

/-- The payloads of a frame. -/
def payloads (config : Config) (frame behind : List UInt8) : List (List UInt8) :=
  ((onReceive config frame.length (frame ++ behind)).getD []).map fun (start, length) =>
    ((frame ++ behind).drop start).take length

/-! ## The radio -/

variable {Node : Type*} [DecidableEq Node]

/-- The packing radio of a node, the frames that it has sent and the payloads that it
was told to send. -/
structure State (Node : Type*) where
  currentReceiver : Node
  buffer : List UInt8
  frames : List (Node × List UInt8)
  sent : List (Node × List UInt8)
deriving DecidableEq

/-- Before the first message the receiver is arbitrary. -/
def State.init (currentReceiver : Node) : State Node where
  currentReceiver := currentReceiver
  buffer := []
  frames := []
  sent := []

/-- `flush`: the size of the packer has one byte. -/
def State.flush (config : Config) (state : State Node) : State Node :=
  if state.buffer.length = 0 then state
  else
    { state with
      frames := state.frames ++ [(state.currentReceiver,
        config.messageId ++ state.buffer.take (state.buffer.length % 256))]
      buffer := [] }

/-- `send`, without the assertion on the size of the payload. -/
def State.send (config : Config) (state : State Node) (receiver : Node) (data : List UInt8) :
    Option (State Node) :=
  let state := if receiver ≠ state.currentReceiver then state.flush config else state
  match append config data state.buffer with
  | some buffer => some { state with
      buffer := buffer, currentReceiver := receiver, sent := state.sent ++ [(receiver, data)] }
  | none =>
      let state := state.flush config
      (append config data state.buffer).map fun buffer => { state with
        buffer := buffer, currentReceiver := receiver, sent := state.sent ++ [(receiver, data)] }

/-- Calls of `send` and `flush`, and the timer. -/
inductive Op (Node : Type*)
  | send (receiver : Node) (data : List UInt8)
  | flush
  | onTime

/-- What an operation does.  `send` asserts that the payload is allowed. -/
def State.perform (config : Config) (state : State Node) : Op Node → Option (State Node)
  | .send receiver data =>
      if data.length + 1 + config.messageId.length ≤ config.maxMessageLength then
        state.send config receiver data
      else none
  | .flush => some (state.flush config)
  | .onTime => some (state.flush config)

/-- The messages in the buffer have at most 255 bytes, with their lengths. -/
def Small (config : Config) (state : State Node) : Op Node → Prop
  | .send receiver data =>
      data.length + 1 ≤ 255 ∧
        (receiver = state.currentReceiver →
          state.buffer.length + data.length + 1 ≤ config.bufferSize →
          state.buffer.length + data.length + 1 ≤ 255)
  | _ => True

/-- A message to `receiver` is for the node. -/
def ForNode (broadcast node receiver : Node) : Prop :=
  receiver = node ∨ receiver = broadcast

instance (broadcast node receiver : Node) : Decidable (ForNode broadcast node receiver) :=
  inferInstanceAs (Decidable (_ ∨ _))

/-- The payloads that the callbacks of a node get. -/
def State.heard (config : Config) (behind : List UInt8) (broadcast : Node) (state : State Node)
    (node : Node) : List (List UInt8) :=
  (state.frames.filter fun frame => ForNode broadcast node frame.1).flatMap fun frame =>
    payloads config frame.2 behind

/-- The payloads that were sent to a node. -/
def State.addressed (broadcast : Node) (state : State Node) (node : Node) : List (List UInt8) :=
  (state.sent.filter fun message => ForNode broadcast node message.1).map Prod.snd

/-! ## Taking a frame apart -/

/-- The bytes of payloads in a frame. -/
def packed (waiting : List (List UInt8)) : List UInt8 :=
  waiting.flatMap fun data => UInt8.ofNat data.length :: data

theorem packed_cons {data : List UInt8} {waiting : List (List UInt8)} :
    packed (data :: waiting) = UInt8.ofNat data.length :: (data ++ packed waiting) := by
  simp [packed]

theorem packed_append {first second : List (List UInt8)} :
    packed (first ++ second) = packed first ++ packed second :=
  List.flatMap_append

theorem receiveLoop_succ {data : List UInt8} {size position rounds : ℕ}
    (hposition : position ≤ size) :
    receiveLoop data size (rounds + 1) position =
      if position + 1 + (data.getD position 0).toNat ≤ size then
        (receiveLoop data size rounds (position + 1 + (data.getD position 0).toNat)).map
          fun messages => (position + 1, (data.getD position 0).toNat) :: messages
      else some [] := by
  simp only [receiveLoop, next, if_neg (Nat.not_lt.2 hposition)]

theorem exists_receiveLoop (data : List UInt8) {size position rounds : ℕ}
    (hposition : position ≤ size) (hrounds : size < position + rounds) :
    ∃ messages, receiveLoop data size rounds position = some messages ∧
      ∀ message ∈ messages, message.1 + message.2 ≤ size := by
  induction rounds generalizing position with
  | zero => omega
  | succ rounds ih =>
      rw [receiveLoop_succ hposition]
      split
      · rename_i hbehind
        obtain ⟨messages, hloop, hwithin⟩ := ih hbehind (by omega)
        refine ⟨_, by rw [hloop, Option.map_some], fun message hmessage => ?_⟩
        rcases List.mem_cons.1 hmessage with rfl | hmessage
        · exact hbehind
        · exact hwithin message hmessage
      · exact ⟨[], rfl, by simp⟩

theorem receiveLoop_packed {waiting : List (List UInt8)} (before behind : List UInt8)
    {rounds : ℕ} (hsmall : ∀ data ∈ waiting, data.length < 256)
    (hrounds : (packed waiting).length < rounds) :
    ∃ messages, receiveLoop (before ++ packed waiting ++ behind)
        (before ++ packed waiting).length rounds before.length = some messages ∧
      messages.map (fun (start, length) =>
        ((before ++ packed waiting ++ behind).drop start).take length) = waiting := by
  induction waiting generalizing before rounds with
  | nil =>
      obtain ⟨rounds, rfl⟩ : ∃ rest, rounds = rest + 1 := ⟨rounds - 1, by omega⟩
      refine ⟨[], ?_, rfl⟩
      rw [receiveLoop_succ (by simp), if_neg (by simp [packed]; omega)]
  | cons data waiting ih =>
      obtain ⟨rounds, rfl⟩ : ∃ rest, rounds = rest + 1 := ⟨rounds - 1, by omega⟩
      obtain ⟨hdata, hwaiting⟩ := List.forall_mem_cons.1 hsmall
      have hsplit : before ++ packed (data :: waiting) =
          before ++ UInt8.ofNat data.length :: data ++ packed waiting := by
        rw [packed_cons]
        simp
      rw [packed_cons, List.length_cons, List.length_append] at hrounds
      have hrest : (packed waiting).length < rounds := by omega
      obtain ⟨messages, hloop, hpayloads⟩ :=
        ih (before ++ UInt8.ofNat data.length :: data) hwaiting hrest
      rw [← hsplit] at hloop hpayloads
      have hlength : ((before ++ packed (data :: waiting) ++ behind).getD before.length 0).toNat =
          data.length := by
        rw [packed_cons]
        simp [Nat.mod_eq_of_lt hdata]
      have hbehind : before.length + 1 + data.length ≤
          (before ++ packed (data :: waiting)).length := by
        rw [packed_cons]
        simp
        omega
      refine ⟨(before.length + 1, data.length) :: messages, ?_, ?_⟩
      · rw [receiveLoop_succ (by simp), hlength, if_pos hbehind]
        have hposition : (before ++ UInt8.ofNat data.length :: data).length =
            before.length + 1 + data.length := by
          simp
          omega
        rw [← hposition, hloop, Option.map_some]
      · rw [List.map_cons, hpayloads]
        congr 1
        have hdrop : (before ++ packed (data :: waiting) ++ behind).drop (before.length + 1) =
            data ++ (packed waiting ++ behind) := by
          rw [packed_cons, List.append_assoc, ← List.drop_drop, List.drop_left]
          simp
        simp only
        rw [hdrop, List.take_left' rfl]

theorem payloads_packed {config : Config} (hbits : 8 ≤ config.sizeBits)
    {waiting : List (List UInt8)} (hsmall : ∀ data ∈ waiting, data.length < 256)
    (hlength : (packed waiting).length ≤ 255) (behind : List UInt8) :
    payloads config (config.messageId ++ packed waiting) behind = waiting := by
  have hpower : 256 ≤ 2 ^ config.sizeBits :=
    calc 256 = 2 ^ 8 := rfl
      _ ≤ 2 ^ config.sizeBits := Nat.pow_le_pow_right (by decide) hbits
  have hsize : config.sizeBehindId (config.messageId ++ packed waiting).length =
      (packed waiting).length := by
    unfold Config.sizeBehindId
    rw [List.length_append, show config.messageId.length + (packed waiting).length +
      2 ^ config.sizeBits - config.messageId.length =
        (packed waiting).length + 2 ^ config.sizeBits by omega, Nat.add_mod_right,
      Nat.mod_eq_of_lt (by omega)]
  obtain ⟨messages, hloop, hmessages⟩ := receiveLoop_packed [] behind hsmall
    (Nat.lt_succ_self _)
  simp only [List.nil_append, List.length_nil] at hloop hmessages
  unfold payloads onReceive
  rw [hsize, List.append_assoc, if_pos (List.take_left' rfl), List.drop_left' rfl, hloop]
  conv_rhs => rw [← hmessages]
  simp only [Option.map_some, Option.getD_some, List.map_map]
  apply List.map_congr_left
  rintro ⟨start, length⟩ -
  simp only [Function.comp_apply]
  rw [Nat.add_comm, ← List.drop_drop, List.drop_left' rfl]

/-! ## Runs -/

/-- The buffer holds the waiting payloads, and everything else has been heard. -/
structure Faithful (config : Config) (behind : List UInt8) (broadcast : Node)
    (state : State Node) (waiting : List (List UInt8)) : Prop where
  buffer : state.buffer = packed waiting
  small : ∀ data ∈ waiting, data.length < 256
  length : (packed waiting).length ≤ 255
  heard : ∀ node, state.addressed broadcast node = state.heard config behind broadcast node ++
    if ForNode broadcast node state.currentReceiver then waiting else []

section Runs

variable {config : Config} {behind : List UInt8} {broadcast : Node} {state : State Node}
  {waiting : List (List UInt8)}

theorem Faithful.flush (hbits : 8 ≤ config.sizeBits)
    (hfaithful : Faithful config behind broadcast state waiting) :
    Faithful config behind broadcast (state.flush config) [] := by
  unfold State.flush
  split
  · rename_i hempty
    have hnil : waiting = [] := by
      cases waiting with
      | nil => rfl
      | cons data waiting => simp [hfaithful.buffer, packed_cons] at hempty
    exact hnil ▸ hfaithful
  · refine ⟨rfl, by simp, by simp [packed], fun node => ?_⟩
    have hframe : state.buffer.take (state.buffer.length % 256) = packed waiting := by
      have hlength := hfaithful.length
      rw [hfaithful.buffer, Nat.mod_eq_of_lt (by omega), List.take_length]
    have haddressed := hfaithful.heard node
    simp only [State.addressed, State.heard, hframe, List.filter_append, List.flatMap_append,
      List.filter_singleton] at haddressed ⊢
    rw [haddressed]
    split
    · rename_i hnode
      simp [hnode, payloads_packed hbits hfaithful.small hfaithful.length]
    · rename_i hnode
      simp [hnode]

theorem Faithful.append {receiver : Node} {data buffer : List UInt8}
    (hfaithful : Faithful config behind broadcast state waiting)
    (hreceiver : waiting ≠ [] → receiver = state.currentReceiver)
    (hdata : data.length + 1 ≤ 255)
    (hlength : state.buffer.length + data.length + 1 ≤ config.bufferSize →
      state.buffer.length + data.length + 1 ≤ 255)
    (happend : Packing.append config data state.buffer = some buffer) :
    Faithful config behind broadcast
      { state with
        buffer := buffer, currentReceiver := receiver, sent := state.sent ++ [(receiver, data)] }
      (waiting ++ [data]) := by
  have hmod : data.length % 256 = data.length := Nat.mod_eq_of_lt (by omega)
  unfold Packing.append at happend
  simp only [hmod, List.take_length] at happend
  split at happend
  · cases happend
  · rename_i hfits
    obtain rfl := Option.some.inj happend
    have hpacked : packed (waiting ++ [data]) =
        state.buffer ++ UInt8.ofNat data.length :: data := by
      rw [packed_append, ← hfaithful.buffer]
      simp [packed]
    refine ⟨hpacked.symm, ?_, ?_, fun node => ?_⟩
    · intro other hother
      rcases List.mem_append.1 hother with hother | hother
      · exact hfaithful.small other hother
      · rw [List.mem_singleton.1 hother]
        omega
    · have hlt := hlength (by omega)
      rw [hpacked]
      simp
      omega
    · have haddressed := hfaithful.heard node
      simp only [State.addressed, State.heard, List.filter_append, List.map_append,
        List.filter_singleton] at haddressed ⊢
      rw [haddressed]
      by_cases hwaiting : waiting = []
      · subst hwaiting
        by_cases hnode : ForNode broadcast node receiver
        · simp [hnode]
        · simp [hnode]
      · rw [← hreceiver hwaiting]
        by_cases hnode : ForNode broadcast node receiver
        · simp [hnode]
        · simp [hnode]

theorem Faithful.send (hbits : 8 ≤ config.sizeBits) {receiver : Node} {data : List UInt8}
    {last : State Node} (hfaithful : Faithful config behind broadcast state waiting)
    (hguard : Small config state (.send receiver data))
    (hsend : state.send config receiver data = some last) :
    ∃ waiting, Faithful config behind broadcast last waiting := by
  obtain ⟨hdata, hlength⟩ := hguard
  unfold State.send at hsend
  -- what waits before the payload is appended goes to the same receiver
  obtain ⟨before, earlier, hbefore, hfaithful', hsame, hlength'⟩ :
      ∃ before earlier,
        (if receiver ≠ state.currentReceiver then state.flush config else state) = before ∧
        Faithful config behind broadcast before earlier ∧
        (earlier ≠ [] → receiver = before.currentReceiver) ∧
        (before.buffer.length + data.length + 1 ≤ config.bufferSize →
          before.buffer.length + data.length + 1 ≤ 255) := by
    by_cases hreceiver : receiver = state.currentReceiver
    · refine ⟨state, waiting, ?_, hfaithful, fun _ => hreceiver, hlength hreceiver⟩
      rw [if_neg (not_not.2 hreceiver)]
    · have hflushed := hfaithful.flush hbits
      refine ⟨_, [], if_pos hreceiver, hflushed, fun hne => absurd rfl hne, fun _ => ?_⟩
      rw [hflushed.buffer]
      simpa [packed] using hdata
  rw [hbefore] at hsend
  simp only at hsend
  cases happend : Packing.append config data before.buffer with
  | some buffer =>
      rw [happend] at hsend
      obtain rfl := Option.some.inj hsend
      exact ⟨_, hfaithful'.append hsame hdata hlength' happend⟩
  | none =>
      rw [happend] at hsend
      obtain ⟨buffer, happend', rfl⟩ := Option.map_eq_some_iff.1 hsend
      have hflushed := hfaithful'.flush hbits
      refine ⟨_, hflushed.append (fun hne => absurd rfl hne) hdata (fun _ => ?_) happend'⟩
      rw [hflushed.buffer]
      simpa [packed] using hdata

theorem Faithful.step (hbits : 8 ≤ config.sizeBits) {op : Op Node} {last : State Node}
    (hfaithful : ∃ waiting, Faithful config behind broadcast state waiting)
    (hstep : Guarded (Small config) (stepOf (State.perform config)) state op last) :
    ∃ waiting, Faithful config behind broadcast last waiting := by
  obtain ⟨waiting, hfaithful⟩ := hfaithful
  obtain ⟨hguard, hstep⟩ := hstep
  unfold stepOf at hstep
  cases op with
  | send receiver data =>
      simp only [State.perform] at hstep
      split at hstep
      · exact hfaithful.send hbits hguard hstep
      · cases hstep
  | flush =>
      obtain rfl := Option.some.inj hstep
      exact ⟨[], hfaithful.flush hbits⟩
  | onTime =>
      obtain rfl := Option.some.inj hstep
      exact ⟨[], hfaithful.flush hbits⟩

theorem Faithful.init {currentReceiver : Node} :
    Faithful config behind broadcast (.init currentReceiver) [] where
  buffer := rfl
  small := by simp
  length := by simp [packed]
  heard node := by
    rw [ite_self]
    rfl

/-- The loop over a received frame ends, and no message goes beyond the frame, if and
only if the frame has a message id, or there is none behind it, or no message fits
into the size that is left. -/
theorem onReceive_within_iff {size : ℕ} (hsize : size < 2 ^ config.sizeBits)
    (data : List UInt8) :
    (∃ messages, onReceive config size data = some messages ∧
      ∀ message ∈ messages, message.1 + message.2 ≤ size) ↔
      config.messageId.length ≤ size ∨
        data.take config.messageId.length ≠ config.messageId ∨
        config.sizeBehindId size < 1 + (data.getD config.messageId.length 0).toNat := by
  by_cases hid : data.take config.messageId.length = config.messageId
  · have hfirst : (data.drop config.messageId.length).getD 0 0 =
        data.getD config.messageId.length 0 := by
      simp
    unfold onReceive
    rw [if_pos hid]
    by_cases hframe : config.messageId.length ≤ size
    · have hbehind : config.sizeBehindId size = size - config.messageId.length := by
        unfold Config.sizeBehindId
        rw [show size + 2 ^ config.sizeBits - config.messageId.length =
          size - config.messageId.length + 2 ^ config.sizeBits by omega, Nat.add_mod_right,
          Nat.mod_eq_of_lt (by omega)]
      obtain ⟨messages, hloop, hwithin⟩ := exists_receiveLoop
        (data.drop config.messageId.length) (Nat.zero_le (config.sizeBehindId size))
        (Nat.lt_of_lt_of_eq (Nat.lt_succ_self _) (Nat.zero_add _).symm)
      refine iff_of_true ⟨_, by rw [hloop, Option.map_some], fun message hmessage => ?_⟩
        (.inl hframe)
      obtain ⟨⟨start, length⟩, hmem, rfl⟩ := List.mem_map.1 hmessage
      have hle := hwithin _ hmem
      simp only at hle ⊢
      omega
    · rw [receiveLoop_succ (Nat.zero_le _), hfirst, Nat.zero_add]
      by_cases hfits : 1 + (data.getD config.messageId.length 0).toNat ≤
          config.sizeBehindId size
      · -- the first message already lies behind the frame
        rw [if_pos hfits]
        refine iff_of_false ?_ (by rintro (hle | hne | hlt); exacts [hframe hle, hne hid, by omega])
        rintro ⟨messages, hmessages, hwithin⟩
        rw [Option.map_map] at hmessages
        obtain ⟨rest, -, rfl⟩ := Option.map_eq_some_iff.1 hmessages
        have hle := hwithin _ List.mem_cons_self
        simp only at hle
        omega
      · rw [if_neg hfits]
        exact iff_of_true ⟨[], rfl, by simp⟩ (.inr (.inr (by omega)))
  · unfold onReceive
    rw [if_neg hid]
    exact iff_of_true ⟨[], rfl, by simp⟩ (.inr (.inl hid))

/-- With at most 255 bytes in the buffer, every node hears in order of the payloads that
were addressed to it and, once the buffer is flushed, of all of them.  The loop over a
received frame ends and stays within the frame exactly when the frame has a message id,
or there is none behind it, or no message fits into the size that is left. -/
theorem transparent (hbits : 8 ≤ config.sizeBits) {currentReceiver : Node} {ops : List (Op Node)}
    {last : State Node}
    (hrun : Run (Guarded (Small config) (stepOf (State.perform config))) (.init currentReceiver)
      ops last) :
    (∀ (behind : List UInt8) (broadcast node : Node),
      last.heard config behind broadcast node <+: last.addressed broadcast node ∧
        (last.flush config).heard config behind broadcast node =
          last.addressed broadcast node) ∧
      ∀ (size : ℕ) (data : List UInt8), size < 2 ^ config.sizeBits →
        ((∃ messages, onReceive config size data = some messages ∧
          ∀ message ∈ messages, message.1 + message.2 ≤ size) ↔
          config.messageId.length ≤ size ∨
            data.take config.messageId.length ≠ config.messageId ∨
            config.sizeBehindId size < 1 + (data.getD config.messageId.length 0).toNat) := by
  refine ⟨fun behind broadcast node => ?_, fun size data hsize => onReceive_within_iff hsize data⟩
  have hlast : ∃ waiting, Faithful config behind broadcast last waiting :=
    hrun.invariant (fun _ _ _ => Faithful.step hbits) ⟨[], .init⟩
  obtain ⟨waiting, hfaithful⟩ := hlast
  refine ⟨⟨_, (hfaithful.heard node).symm⟩, ?_⟩
  have hsent : (last.flush config).addressed broadcast node = last.addressed broadcast node := by
    unfold State.flush
    split
    · rfl
    · rfl
  rw [← hsent, (hfaithful.flush hbits).heard node, ite_self, List.append_nil]

end Runs

/-! ## Frames of more than 255 bytes -/

/-- Frames of 117 bytes. -/
def smallFrames : Config :=
  ⟨117, [200], 16⟩

/-- Frames of 512 bytes. -/
def largeFrames : Config :=
  ⟨512, [200], 32⟩

/-- A message to one node and an empty one to all. -/
theorem transparent_smallFrames :
    (∀ (behind : List UInt8) (broadcast node : ℕ),
      (⟨9, [0], [(1, [200, 2, 5, 6])], [(1, [5, 6]), (9, [])]⟩ : State ℕ).heard smallFrames behind
          broadcast node <+:
        (⟨9, [0], [(1, [200, 2, 5, 6])], [(1, [5, 6]), (9, [])]⟩ : State ℕ).addressed
          broadcast node ∧
      ((⟨9, [0], [(1, [200, 2, 5, 6])], [(1, [5, 6]), (9, [])]⟩ : State ℕ).flush
          smallFrames).heard smallFrames behind broadcast node =
        (⟨9, [0], [(1, [200, 2, 5, 6])], [(1, [5, 6]), (9, [])]⟩ : State ℕ).addressed
          broadcast node) ∧
      ∀ (size : ℕ) (data : List UInt8), size < 2 ^ 16 →
        ((∃ messages, onReceive smallFrames size data = some messages ∧
          ∀ message ∈ messages, message.1 + message.2 ≤ size) ↔
          1 ≤ size ∨ data.take 1 ≠ [200] ∨
            smallFrames.sizeBehindId size < 1 + (data.getD 1 0).toNat) := by
  have hfirst : Guarded (Small smallFrames) (stepOf (State.perform smallFrames)) (.init 0)
      (.send 1 [5, 6]) (⟨1, [2, 5, 6], [], [(1, [5, 6])]⟩ : State ℕ) :=
    ⟨⟨by decide, fun h => absurd h (by decide)⟩, rfl⟩
  have hsecond : Guarded (Small smallFrames) (stepOf (State.perform smallFrames))
      (⟨1, [2, 5, 6], [], [(1, [5, 6])]⟩ : State ℕ) (.send 9 [])
      ⟨9, [0], [(1, [200, 2, 5, 6])], [(1, [5, 6]), (9, [])]⟩ :=
    ⟨⟨by decide, fun h => absurd h (by decide)⟩, rfl⟩
  exact transparent (by decide) (.cons hfirst (.cons hsecond (.nil _)))

/-- A payload of 256 bytes is sent as an empty one. -/
theorem not_transparent :
    ∃ (ops : List (Op ℕ)) (last : State ℕ),
      Run (stepOf (State.perform largeFrames)) (.init 0) ops last ∧
        (last.flush largeFrames).heard largeFrames [] 9 1 ≠ last.addressed 9 1 := by
  refine ⟨[.send 1 (List.replicate 256 7)],
    ⟨1, [0], [], [(1, List.replicate 256 7)]⟩, Run.of_foldlM (by decide +kernel), ?_⟩
  decide +kernel

end Wiselib.Radio.Packing
