import Mathlib

/-!
# The fragmenting radio of the broker

A message is broadcast as a start frame with its first bytes, frames with the
following bytes, and an end frame.  The receiver has one buffer, which a start
frame replaces; the other frames write into it, and the end frame hands it over.
A start frame that carries the whole message hands it over as well.  The accessor
of the message id reads the byte of the command type, so the ids of all messages
are equal.

`delivers_iff` proves that over a lossless link that keeps the order a sequence of
messages is handed over exactly once each if and only if every message needs more
than one frame and its frames can be written down, or is empty and not the first.

## Strategy

* What the buffer holds in front of the next position is a list, to which a frame
  appends its piece (`range_map_writeAt`), so the end frame hands over what was
  gathered (`receiveAll_sendLoop`).
* A piece of 256 or more bytes loses its end, and the byte behind it is never
  written (`getD_receiveAll_sendLoop`).
-/

namespace Wiselib.Broker.Fragmenting

/-! ## Frames -/

/-- `MAX_MESSAGE_LENGTH` of the radio below, and the number of bits of its sizes. -/
structure Config where
  radioMessageLength : ℕ
  sizeBits : ℕ

/-- `MAX_MESSAGE_LENGTH`, with `PAYLOAD_POS = 12`. -/
def Config.maxMessageLength (config : Config) : ℕ :=
  config.radioMessageLength - 12 - 20

/-- `FragmentMessage`: its fields, and the bytes that were appended. -/
structure FragmentMessage where
  commandType : UInt8
  totalSize : ℕ
  messageIdByte : UInt8
  index : ℕ
  sequenceNumber : UInt8
  command : UInt8
  payloadLength : UInt8
  payload : List UInt8

/-- `message_id`, which reads the first byte of the buffer. -/
def FragmentMessage.messageId (msg : FragmentMessage) : UInt8 :=
  msg.commandType

/-- `newMessage`. -/
def newMessage (messageId seqNr command : UInt8) (index totalSize : ℕ) : FragmentMessage where
  commandType := 114
  totalSize := totalSize % 65536
  messageIdByte := messageId
  index := index % 65536
  sequenceNumber := seqNr
  command := command
  payloadLength := 0
  payload := []

/-- `append` of `len` bytes from a position, which is passed on as a size of the radio. -/
def FragmentMessage.append (config : Config) (msg : FragmentMessage) (data : List UInt8)
    (pos len : ℕ) : Option FragmentMessage :=
  if msg.payloadLength.toNat + len ≤ config.radioMessageLength - 12 then
    some { msg with
      payload := msg.payload.take msg.payloadLength.toNat ++
        (data.drop (pos % 2 ^ config.sizeBits)).take len
      payloadLength := UInt8.ofNat (msg.payloadLength.toNat + len) }
  else none

/-! ## Sending -/

/-- The message id after this one. -/
def nextMessageId (messageId : UInt8) : UInt8 :=
  if messageId = 255 then 1 else messageId + 1

/-- The loop of `send` from a position, and the end frame.  The first argument bounds
the rounds. -/
def sendLoop (config : Config) (messageId : UInt8) (data : List UInt8) :
    ℕ → FragmentMessage → ℕ → List FragmentMessage
  | 0, _, _ => []
  | rounds + 1, buffer, pos =>
      if pos < data.length then
        let writable := min (data.length - pos)
          (config.maxMessageLength - buffer.payloadLength.toNat)
        match buffer.append config data pos writable with
        | none => []
        | some msg =>
            msg :: sendLoop config messageId data rounds
              (newMessage messageId (msg.sequenceNumber + 1) 1 (pos + writable) data.length)
              (pos + writable)
      else [newMessage messageId (buffer.sequenceNumber + 1) 2 0 data.length]

/-- The frames that `send` broadcasts.  The first one still has the id of the message
before. -/
def send (config : Config) (messageId : UInt8) (data : List UInt8) : List FragmentMessage :=
  sendLoop config (nextMessageId messageId) data (data.length + 1)
    (newMessage messageId 0 0 0 data.length) 0

/-! ## Receiving -/

/-- `current_Message_` and `message_id_reveived_`. -/
structure Receiver where
  currentMessage : ℕ → UInt8
  messageIdReceived : UInt8

/-- `memcpy` to an index. -/
def writeAt (memory : ℕ → UInt8) (index : ℕ) (bytes : List UInt8) : ℕ → UInt8 :=
  fun i => if index ≤ i ∧ i < index + bytes.length then bytes.getD (i - index) 0 else memory i

/-- The payload of a frame is copied into the buffer. -/
def Receiver.copy (receiver : Receiver) (msg : FragmentMessage) : Receiver :=
  { receiver with
    currentMessage :=
      writeAt receiver.currentMessage msg.index (msg.payload.take msg.payloadLength.toNat) }

/-- What the receivers are notified of. -/
def Receiver.message (receiver : Receiver) (totalSize : ℕ) : List UInt8 :=
  (List.range totalSize).map receiver.currentMessage

/-- `receive_radio_message`, where `fresh` is what the memory of a new buffer holds.  The
second result is what the receivers are notified of. -/
def receive (fresh : ℕ → UInt8) (receiver : Receiver) (msg : FragmentMessage) :
    Receiver × List (List UInt8) :=
  if msg.commandType ≠ 114 then (receiver, [])
  else if msg.command = 0 then
    let receiver := Receiver.copy ⟨fresh, msg.messageId⟩ msg
    (receiver, if 0 < msg.payloadLength.toNat ∧ msg.payloadLength.toNat = msg.totalSize then
      [receiver.message msg.totalSize] else [])
  else if msg.command = 1 then
    if receiver.messageIdReceived = 0 ∨ receiver.messageIdReceived ≠ msg.messageId then
      (receiver, [])
    else (receiver.copy msg, [])
  else if msg.command = 2 then
    if receiver.messageIdReceived = 0 ∨ receiver.messageIdReceived ≠ msg.messageId then
      (receiver, [])
    else
      let receiver := receiver.copy msg
      (receiver, [receiver.message msg.totalSize])
  else (receiver, [])

/-- The receipt of several frames. -/
def receiveAll (fresh : ℕ → UInt8) : Receiver → List FragmentMessage →
    Receiver × List (List UInt8)
  | receiver, [] => (receiver, [])
  | receiver, msg :: rest =>
      let (receiver, first) := receive fresh receiver msg
      let (receiver, others) := receiveAll fresh receiver rest
      (receiver, first ++ others)

/-! ## The condition -/

/-- The bytes that `send` appends at a position. -/
def chunk (config : Config) (data : List UInt8) (pos : ℕ) : List UInt8 :=
  (data.drop (pos % 2 ^ config.sizeBits)).take (min (data.length - pos) config.maxMessageLength)

/-- The frames carry the bytes of the message: the length of a piece has one byte, and
the positions fit into the sizes of the radio as far as the bytes there differ. -/
def Intact (config : Config) (data : List UInt8) : Prop :=
  ∀ pos < data.length, config.maxMessageLength ∣ pos →
    0 < (chunk config data pos).length ∧ (chunk config data pos).length ≤ 255 ∧
      chunk config data pos = (data.drop pos).take config.maxMessageLength

/-- Every message is handed over exactly once, whatever is in the memory of new buffers. -/
def Delivers (config : Config) : Receiver → UInt8 → List (List UInt8) → Prop
  | _, _, [] => True
  | receiver, messageId, data :: rest =>
      ∀ fresh, (receiveAll fresh receiver (send config messageId data)).2 = [data] ∧
        Delivers config (receiveAll fresh receiver (send config messageId data)).1
          (nextMessageId messageId) rest

/-- Every message has several frames that carry its bytes, or is empty and comes after
a start frame. -/
def Fits (config : Config) : Prop → List (List UInt8) → Prop
  | _, [] => True
  | started, data :: rest =>
      (data = [] ∧ started ∨ config.maxMessageLength < data.length ∧ Intact config data) ∧
        Fits config (started ∨ data ≠ []) rest

/-! ## The buffer -/

theorem range_map_writeAt (memory : ℕ → UInt8) (index : ℕ) (bytes : List UInt8) :
    (List.range (index + bytes.length)).map (writeAt memory index bytes) =
      (List.range index).map memory ++ bytes := by
  rw [List.range_add, List.map_append, List.map_map]
  congr 1
  · apply List.map_congr_left
    intro i hi
    unfold writeAt
    rw [if_neg (by have := List.mem_range.1 hi; omega)]
  · apply List.ext_getElem
    · simp
    · intro i hi hi'
      have hlt : i < bytes.length := hi'
      simp [writeAt, hlt]

theorem writeAt_of_lt {memory : ℕ → UInt8} {index i : ℕ} {bytes : List UInt8} (hlt : i < index) :
    writeAt memory index bytes i = memory i := by
  unfold writeAt
  rw [if_neg (by omega)]

theorem getD_message (receiver : Receiver) {totalSize i : ℕ} (hlt : i < totalSize) :
    (receiver.message totalSize).getD i 0 = receiver.currentMessage i := by
  simp [Receiver.message, hlt]

/-! ## One message -/

section OneMessage

variable {config : Config} {messageId seqNr command : UInt8} {data : List UInt8}
  {fresh : ℕ → UInt8} {receiver : Receiver}

theorem length_chunk {pos : ℕ} :
    (chunk config data pos).length = min (data.length - pos) config.maxMessageLength := by
  have hle : pos % 2 ^ config.sizeBits ≤ pos := Nat.mod_le _ _
  unfold chunk
  rw [List.length_take, List.length_drop]
  omega

/-- A frame with a piece of the message. -/
def pieceFrame (messageId seqNr command : UInt8) (index totalSize : ℕ) (piece : List UInt8) :
    FragmentMessage :=
  { newMessage messageId seqNr command index totalSize with
    payload := piece
    payloadLength := UInt8.ofNat piece.length }

theorem sendLoop_of_lt {firstId : UInt8} {rounds pos index : ℕ} (hpos : pos < data.length) :
    sendLoop config messageId data (rounds + 1)
        (newMessage firstId seqNr command index data.length) pos =
      pieceFrame firstId seqNr command index data.length (chunk config data pos) ::
      sendLoop config messageId data rounds
        (newMessage messageId (seqNr + 1) 1 (pos + (chunk config data pos).length) data.length)
        (pos + (chunk config data pos).length) := by
  have hfits : (newMessage firstId seqNr command index data.length).payloadLength.toNat +
      min (data.length - pos) (config.maxMessageLength -
        (newMessage firstId seqNr command index data.length).payloadLength.toNat) ≤
      config.radioMessageLength - 12 := by
    simp only [newMessage, UInt8.toNat_zero, Config.maxMessageLength]
    omega
  rw [sendLoop, if_pos hpos]
  simp only [FragmentMessage.append, if_pos hfits]
  unfold pieceFrame
  simp only [length_chunk]
  simp [newMessage, chunk]

theorem sendLoop_of_le {rounds pos : ℕ} {buffer : FragmentMessage} (hpos : data.length ≤ pos) :
    sendLoop config messageId data (rounds + 1) buffer pos =
      [newMessage messageId (buffer.sequenceNumber + 1) 2 0 data.length] := by
  rw [sendLoop, if_neg (by omega)]

theorem receive_start {totalSize : ℕ} {piece : List UInt8} (htotal : totalSize < 65536) :
    receive fresh receiver (pieceFrame messageId seqNr 0 0 totalSize piece) =
      (⟨writeAt fresh 0 (piece.take (piece.length % 256)), 114⟩,
        if 0 < piece.length % 256 ∧ piece.length % 256 = totalSize then
          [Receiver.message ⟨writeAt fresh 0 (piece.take (piece.length % 256)), 114⟩ totalSize]
        else []) := by
  simp [receive, pieceFrame, newMessage, Receiver.copy, FragmentMessage.messageId,
    Nat.mod_eq_of_lt htotal]

theorem receive_middle {totalSize index : ℕ} {piece : List UInt8} (hindex : index < 65536)
    (hreceived : receiver.messageIdReceived = 114) :
    receive fresh receiver (pieceFrame messageId seqNr 1 index totalSize piece) =
      (⟨writeAt receiver.currentMessage index (piece.take (piece.length % 256)), 114⟩, []) := by
  simp [receive, pieceFrame, newMessage, Receiver.copy, FragmentMessage.messageId, hreceived,
    Nat.mod_eq_of_lt hindex]

theorem receive_end {totalSize : ℕ} (htotal : totalSize < 65536)
    (hreceived : receiver.messageIdReceived = 114) :
    receive fresh receiver (newMessage messageId seqNr 2 0 totalSize) =
      (receiver, [receiver.message totalSize]) := by
  have hwrite : writeAt receiver.currentMessage 0 [] = receiver.currentMessage := by
    funext i
    simp [writeAt]
  have hcopy : receiver.copy (newMessage messageId seqNr 2 0 totalSize) = receiver := by
    simp [Receiver.copy, newMessage, hwrite]
  have hcommand : (newMessage messageId seqNr 2 0 totalSize).command = 2 := rfl
  have htype : (newMessage messageId seqNr 2 0 totalSize).commandType = 114 := rfl
  have hsize : (newMessage messageId seqNr 2 0 totalSize).totalSize = totalSize :=
    Nat.mod_eq_of_lt htotal
  unfold receive
  simp [hcopy, hcommand, htype, hsize, FragmentMessage.messageId, hreceived]

/-- The pieces from a position on. -/
def gathered (config : Config) (data : List UInt8) : ℕ → ℕ → List UInt8
  | 0, _ => []
  | rounds + 1, pos =>
      if pos < data.length then
        chunk config data pos ++ gathered config data rounds (pos + (chunk config data pos).length)
      else []

theorem receiveAll_sendLoop (hmax : 0 < config.maxMessageLength)
    (hbyte : config.maxMessageLength ≤ 255) (hlength : data.length < 65536) {rounds pos : ℕ}
    (hpos : pos ≤ data.length) (hrounds : data.length - pos < rounds)
    (hreceived : receiver.messageIdReceived = 114) :
    (receiveAll fresh receiver (sendLoop config messageId data rounds
      (newMessage messageId seqNr 1 pos data.length) pos)).2 =
        [(List.range pos).map receiver.currentMessage ++ gathered config data rounds pos] := by
  induction rounds generalizing pos receiver seqNr with
  | zero => omega
  | succ rounds ih =>
      rcases Nat.lt_or_eq_of_le hpos with hlt | heq
      · have hchunk : (chunk config data pos).length = min (data.length - pos)
            config.maxMessageLength := length_chunk
        have hmod : (chunk config data pos).length % 256 = (chunk config data pos).length :=
          Nat.mod_eq_of_lt (by omega)
        rw [sendLoop_of_lt hlt]
        simp only [receiveAll, gathered, if_pos hlt]
        rw [receive_middle (by omega) hreceived, hmod, List.take_length]
        simp only [List.nil_append]
        refine (ih (by omega) (by omega) rfl).trans ?_
        rw [range_map_writeAt, List.append_assoc]
      · rw [sendLoop_of_le heq.ge]
        simp only [receiveAll, gathered, heq, lt_irrefl, if_false, List.append_nil]
        rw [receive_end hlength hreceived]
        rfl

theorem getD_receiveAll_sendLoop (hlength : data.length < 65536) {rounds pos i : ℕ} (hi : i < pos) (hlt : i < data.length)
    (hreceived : receiver.messageIdReceived = 114) :
    ∀ payload ∈ (receiveAll fresh receiver (sendLoop config messageId data rounds
      (newMessage messageId seqNr 1 pos data.length) pos)).2,
        payload.getD i 0 = receiver.currentMessage i := by
  induction rounds generalizing pos receiver seqNr with
  | zero => simp [sendLoop, receiveAll]
  | succ rounds ih =>
      rcases Nat.lt_or_ge pos data.length with hpos | hpos
      · rw [sendLoop_of_lt hpos]
        simp only [receiveAll]
        rw [receive_middle (by omega) hreceived]
        simp only [List.nil_append]
        intro payload hpayload
        rw [ih (by omega) rfl payload hpayload]
        exact writeAt_of_lt hi
      · rw [sendLoop_of_le hpos]
        simp only [receiveAll]
        rw [receive_end hlength hreceived]
        intro payload hpayload
        have hmessage : payload = receiver.message data.length := by simpa using hpayload
        rw [hmessage]
        exact getD_message receiver hlt

theorem receiveAll_sendLoop_of_zero (hmax : config.maxMessageLength = 0)
    (hlength : data.length < 65536) {firstId : UInt8} {rounds : ℕ} (hdata : 0 < data.length)
    (hcommand : command = 0 ∨ command = 1 ∧ receiver.messageIdReceived = 114) :
    (receiveAll fresh receiver (sendLoop config messageId data rounds
      (newMessage firstId seqNr command 0 data.length) 0)).2 = [] := by
  have hchunk : chunk config data 0 = [] := by
    unfold chunk
    simp [hmax]
  induction rounds generalizing receiver seqNr command firstId with
  | zero => rfl
  | succ rounds ih =>
      rw [sendLoop_of_lt hdata, hchunk]
      simp only [receiveAll, List.length_nil, Nat.add_zero]
      rcases hcommand with rfl | ⟨rfl, hreceived⟩
      · rw [receive_start hlength]
        simp only [List.length_nil, Nat.zero_mod, lt_irrefl, false_and, if_false, List.nil_append]
        exact ih (.inr ⟨rfl, rfl⟩)
      · rw [receive_middle (by omega) hreceived]
        simp only [List.nil_append]
        exact ih (.inr ⟨rfl, rfl⟩)

theorem received_receiveAll_sendLoop (hlength : data.length < 65536) {rounds pos : ℕ}
    (hreceived : receiver.messageIdReceived = 114) :
    (receiveAll fresh receiver (sendLoop config messageId data rounds
      (newMessage messageId seqNr 1 pos data.length) pos)).1.messageIdReceived = 114 := by
  induction rounds generalizing pos receiver seqNr with
  | zero => exact hreceived
  | succ rounds ih =>
      rcases Nat.lt_or_ge pos data.length with hpos | hpos
      · rw [sendLoop_of_lt hpos]
        simp only [receiveAll]
        rw [receive_middle (by omega) hreceived]
        exact ih rfl
      · rw [sendLoop_of_le hpos]
        simp only [receiveAll]
        rw [receive_end hlength hreceived]
        exact hreceived

/-- The pieces are the message from there on if every piece is. -/
theorem gathered_eq_drop_iff (hmax : 0 < config.maxMessageLength) {rounds pos : ℕ}
    (hpos : pos ≤ data.length) (hdvd : config.maxMessageLength ∣ pos ∨ pos = data.length)
    (hrounds : data.length - pos < rounds) :
    gathered config data rounds pos = data.drop pos ↔
      ∀ p, pos ≤ p → p < data.length → config.maxMessageLength ∣ p →
        chunk config data p = (data.drop p).take config.maxMessageLength := by
  induction rounds generalizing pos with
  | zero => omega
  | succ rounds ih =>
      rcases Nat.lt_or_eq_of_le hpos with hlt | heq
      · have hdvd : config.maxMessageLength ∣ pos := by
          rcases hdvd with hdvd | heq
          · exact hdvd
          · omega
        have hlength : (chunk config data pos).length = min (data.length - pos)
            config.maxMessageLength := length_chunk
        have htake : ((data.drop pos).take config.maxMessageLength).length =
            (chunk config data pos).length := by
          rw [hlength, List.length_take, List.length_drop, Nat.min_comm]
        have hsplit : data.drop pos = (data.drop pos).take config.maxMessageLength ++
            data.drop (pos + (chunk config data pos).length) := by
          rw [← List.drop_drop, ← htake]
          conv_lhs => rw [← List.take_append_drop config.maxMessageLength (data.drop pos)]
          congr 1
          rw [List.length_take]
          rcases Nat.le_total config.maxMessageLength (data.drop pos).length with hle | hle
          · rw [Nat.min_eq_left hle]
          · rw [Nat.min_eq_right hle, List.drop_of_length_le hle,
              List.drop_of_length_le (le_refl _)]
        have hnext : config.maxMessageLength ∣ pos + (chunk config data pos).length ∨
            pos + (chunk config data pos).length = data.length := by
          rcases Nat.le_total config.maxMessageLength (data.length - pos) with hle | hle
          · exact .inl (by rw [hlength, Nat.min_eq_right hle]; exact Nat.dvd_add hdvd (dvd_refl _))
          · exact .inr (by omega)
        simp only [gathered, if_pos hlt]
        rw [hsplit]
        have hle : pos + (chunk config data pos).length ≤ data.length := by omega
        have hih := ih hle hnext (by omega)
        constructor
        · intro happend p hge hp hdvd'
          obtain ⟨hfirst, hrest⟩ := List.append_inj happend htake.symm
          rcases Nat.eq_or_lt_of_le hge with rfl | hgt
          · exact hfirst
          · have hstep : config.maxMessageLength ≤ p - pos :=
              Nat.le_of_dvd (by omega) (Nat.dvd_sub hdvd' hdvd)
            exact hih.1 hrest p (by omega) hp hdvd'
        · intro hall
          rw [hall pos (le_refl _) hlt hdvd, List.append_cancel_left_eq]
          have hrest := hih.2 fun p hge hp hdvd' => hall p (by omega) hp hdvd'
          rwa [hall pos (le_refl _) hlt hdvd] at hrest
      · simp only [gathered, heq, lt_irrefl, if_false, List.drop_length]
        exact ⟨fun _ p hle hp => absurd hp (by omega), fun _ => trivial⟩

end OneMessage

/-! ## Sequences of messages -/

section Sequences

variable {config : Config} {messageId : UInt8} {data : List UInt8} {fresh : ℕ → UInt8}
  {receiver : Receiver}

theorem send_of_ne_nil (hdata : data ≠ []) :
    send config messageId data =
      pieceFrame messageId 0 0 0 data.length (chunk config data 0) ::
        sendLoop config (nextMessageId messageId) data data.length
          (newMessage (nextMessageId messageId) 1 1 (chunk config data 0).length data.length)
          (chunk config data 0).length := by
  unfold send
  rw [sendLoop_of_lt (List.length_pos_iff.2 hdata), Nat.zero_add]
  rfl

theorem send_nil : send config messageId [] = [newMessage (nextMessageId messageId) 1 2 0 0] :=
  rfl

theorem receive_end_empty {seqNr : UInt8} :
    receive fresh receiver (newMessage messageId seqNr 2 0 0) =
      (receiver, if receiver.messageIdReceived = 114 then [[]] else []) := by
  by_cases hreceived : receiver.messageIdReceived = 114
  · rw [receive_end (by decide) hreceived, if_pos hreceived]
    rfl
  · rw [if_neg hreceived]
    unfold receive
    simp [newMessage, FragmentMessage.messageId, hreceived]

theorem receiveAll_send_nil :
    receiveAll fresh receiver (send config messageId []) =
      (receiver, if receiver.messageIdReceived = 114 then [[]] else []) := by
  rw [send_nil]
  simp only [receiveAll, List.append_nil]
  rw [receive_end_empty]

theorem received_receiveAll_send (hdata : data ≠ []) (hlength : data.length < 65536) :
    (receiveAll fresh receiver (send config messageId data)).1.messageIdReceived = 114 := by
  rw [send_of_ne_nil hdata]
  simp only [receiveAll]
  rw [receive_start hlength]
  exact received_receiveAll_sendLoop hlength rfl

theorem receiveAll_send_of_short (hdata : data ≠ []) (hmax : data.length ≤ config.maxMessageLength)
    (hbyte : data.length ≤ 255) :
    ∃ first second, (receiveAll fresh receiver (send config messageId data)).2 =
      [first, second] := by
  have hpositive : 0 < data.length := List.length_pos_iff.2 hdata
  have hchunk : (chunk config data 0).length = data.length := by
    rw [length_chunk, Nat.sub_zero, Nat.min_eq_left hmax]
  have hmod : data.length % 256 = data.length := Nat.mod_eq_of_lt (by omega)
  have hend : ∀ (rounds : ℕ) (buffer : FragmentMessage), 0 < rounds →
      sendLoop config (nextMessageId messageId) data rounds buffer data.length =
        [newMessage (nextMessageId messageId) (buffer.sequenceNumber + 1) 2 0 data.length] := by
    intro rounds buffer hrounds
    obtain ⟨rounds, rfl⟩ : ∃ rest, rounds = rest + 1 := ⟨rounds - 1, by omega⟩
    exact sendLoop_of_le (le_refl _)
  rw [send_of_ne_nil hdata, hchunk, hend _ _ hpositive]
  simp only [receiveAll]
  rw [receive_start (by omega), hchunk, hmod, if_pos ⟨hpositive, rfl⟩]
  rw [receive_end (by omega) rfl]
  exact ⟨_, _, rfl⟩

theorem exists_receiveAll_send_ne (hlength : data.length < 65536)
    (hpiece : 256 ≤ min data.length config.maxMessageLength) :
    ∃ fresh, (receiveAll fresh receiver (send config messageId data)).2 ≠ [data] := by
  have hdata : data ≠ [] := by
    rintro rfl
    simp at hpiece
  have hchunk : (chunk config data 0).length = min data.length config.maxMessageLength := by
    rw [length_chunk, Nat.sub_zero]
  -- the byte behind what the length says is not written
  set lost := (chunk config data 0).length % 256 with hlost
  have hlt : lost < 256 := Nat.mod_lt _ (by decide)
  refine ⟨fun _ => data.getD lost 0 + 1, fun hdelivered => ?_⟩
  rw [send_of_ne_nil hdata] at hdelivered
  simp only [receiveAll] at hdelivered
  rw [receive_start hlength, ← hlost, if_neg (by omega), List.nil_append] at hdelivered
  have hbyte := getD_receiveAll_sendLoop hlength (show lost < (chunk config data 0).length by omega)
    (show lost < data.length by omega) rfl data (by rw [hdelivered]; exact List.mem_singleton_self _)
  have hunwritten : writeAt (fun _ => data.getD lost 0 + 1) 0 ((chunk config data 0).take lost)
      lost = data.getD lost 0 + 1 := by
    unfold writeAt
    rw [if_neg]
    rw [List.length_take]
    omega
  have hsame : data.getD lost 0 = data.getD lost 0 + 1 := hbyte.trans hunwritten
  simp at hsame

theorem receiveAll_send_of_long (hmax : 0 < config.maxMessageLength)
    (hbyte : config.maxMessageLength ≤ 255) (hlong : config.maxMessageLength < data.length)
    (hlength : data.length < 65536) :
    (receiveAll fresh receiver (send config messageId data)).2 =
      [gathered config data (data.length + 1) 0] := by
  have hdata : data ≠ [] := List.ne_nil_of_length_pos (by omega)
  have hchunk : (chunk config data 0).length = config.maxMessageLength := by
    rw [length_chunk, Nat.sub_zero, Nat.min_eq_right hlong.le]
  have hmod : (chunk config data 0).length % 256 = (chunk config data 0).length :=
    Nat.mod_eq_of_lt (by omega)
  rw [send_of_ne_nil hdata]
  simp only [receiveAll]
  rw [receive_start hlength, hmod, if_neg (by omega), List.nil_append, List.take_length]
  refine (receiveAll_sendLoop hmax hbyte hlength (by omega) (by omega) rfl).trans ?_
  have hstart : (List.range (chunk config data 0).length).map
      (writeAt fresh 0 (chunk config data 0)) = chunk config data 0 := by
    have hrange := range_map_writeAt fresh 0 (chunk config data 0)
    simpa using hrange
  simp only [gathered, hstart, if_pos (show 0 < data.length by omega), Nat.zero_add]

/-- A message is handed over exactly once if it has several frames that carry its bytes. -/
theorem receiveAll_send_eq_iff (hdata : data ≠ []) (hlength : data.length < 65536) :
    (∀ fresh, (receiveAll fresh receiver (send config messageId data)).2 = [data]) ↔
      config.maxMessageLength < data.length ∧ Intact config data := by
  have hpositive : 0 < data.length := List.length_pos_iff.2 hdata
  have hfirst : Intact config data → 0 < config.maxMessageLength ∧
      min data.length config.maxMessageLength ≤ 255 := by
    intro hintact
    obtain ⟨hpos, hbyte, -⟩ := hintact 0 hpositive (dvd_zero _)
    rw [length_chunk, Nat.sub_zero] at hpos hbyte
    exact ⟨by omega, hbyte⟩
  rcases Nat.eq_zero_or_pos config.maxMessageLength with hzero | hmax
  · refine iff_of_false (fun hall => ?_) fun hgood => by have := (hfirst hgood.2).1; omega
    have hnone : (receiveAll (fun _ => 0) receiver (send config messageId data)).2 = [] :=
      receiveAll_sendLoop_of_zero hzero hlength hpositive (.inl rfl)
    rw [hall] at hnone
    cases hnone
  · by_cases hpiece : 256 ≤ min data.length config.maxMessageLength
    · obtain ⟨fresh, hne⟩ := exists_receiveAll_send_ne hlength hpiece
      refine iff_of_false (fun hall => hne (hall fresh)) fun hgood => ?_
      have hbyte := (hfirst hgood.2).2
      omega
    · by_cases hlong : config.maxMessageLength < data.length
      · have hbyte : config.maxMessageLength ≤ 255 := by omega
        have hgathered : gathered config data (data.length + 1) 0 = data.drop 0 ↔
            ∀ p, 0 ≤ p → p < data.length → config.maxMessageLength ∣ p →
              chunk config data p = (data.drop p).take config.maxMessageLength :=
          gathered_eq_drop_iff hmax (Nat.zero_le _) (.inl (dvd_zero _)) (by omega)
        rw [List.drop_zero] at hgathered
        constructor
        · intro hall
          have hdelivered := hall fun _ => 0
          rw [receiveAll_send_of_long hmax hbyte hlong hlength, List.cons.injEq] at hdelivered
          refine ⟨hlong, fun pos hpos hdvd => ?_⟩
          have hpiece : (chunk config data pos).length = min (data.length - pos)
              config.maxMessageLength := length_chunk
          exact ⟨by omega, by omega, hgathered.1 hdelivered.1 pos (Nat.zero_le _) hpos hdvd⟩
        · rintro ⟨-, hintact⟩ fresh
          rw [receiveAll_send_of_long hmax hbyte hlong hlength,
            hgathered.2 fun pos _ hpos hdvd => (hintact pos hpos hdvd).2.2]
      · refine iff_of_false (fun hall => ?_) fun hgood => hlong hgood.1
        obtain ⟨first, second, htwice⟩ : ∃ first second, (receiveAll (fun _ => 0) receiver
            (send config messageId data)).2 = [first, second] :=
          receiveAll_send_of_short hdata (Nat.not_lt.1 hlong) (by omega)
        rw [hall] at htwice
        cases htwice

/-- Over a lossless link that keeps the order, every message of a sequence is handed over
exactly once if and only if every message has several frames that carry its bytes, or is
empty and comes after a start frame. -/
theorem delivers_iff {messages : List (List UInt8)}
    (hlength : ∀ data ∈ messages, data.length < 65536) :
    Delivers config receiver messageId messages ↔
      Fits config (receiver.messageIdReceived = 114) messages := by
  induction messages generalizing receiver messageId with
  | nil => exact Iff.rfl
  | cons data rest ih =>
      obtain ⟨hdata, hrest⟩ := List.forall_mem_cons.1 hlength
      simp only [Delivers, Fits, forall_and]
      by_cases hempty : data = []
      · subst hempty
        simp only [receiveAll_send_nil, ih hrest]
        by_cases hreceived : receiver.messageIdReceived = 114
        · simp [hreceived]
        · simp [hreceived]
      · rw [receiveAll_send_eq_iff hempty hdata]
        have hnext : ∀ fresh, (receiveAll fresh receiver
            (send config messageId data)).1.messageIdReceived = 114 := fun fresh =>
          received_receiveAll_send hempty hdata
        simp only [ih hrest, hnext]
        simp [hempty]

end Sequences

end Wiselib.Broker.Fragmenting
