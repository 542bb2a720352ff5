import Wiselib.Coap.CoapPacketStatic
import Wiselib.Library.Run
import Wiselib.Library.SlotQueue

/-!
# The static CoAP service

A service keeps the messages it sent and the messages it received in two
bounded lists, `sent_` and `received_`, whose oldest slot is given to the next
message when the list is full.  Timers and received messages refer to messages
by their slot.

One operation of the model is one call from outside: the application sends or
replies, a frame arrives, a timer runs out.  What resources do when a request
is handed to them, and the replies `receive` itself makes to messages it cannot
use, are `reply` operations on the slot of the message.  Time is left out: a
timer that is set can run out at any later moment.

Next to the members of the class the state keeps a record of what happened:
every message that went into `sent_`, numbered in that order, the numbers of
those an acknowledgement has arrived for, the requests handed to
`handle_request` and the frames that were sent again.  A reference carries the
number of the message it was made for; the code follows its slot.
-/

namespace Wiselib.CoapService

open Transition SlotQueue

/-! ## Messages -/

/-- Message types. -/
inductive CoapType
  | con
  | non
  | ack
  | rst
deriving DecidableEq

/-- The parts of a packet the service looks at; `content` is all the rest. -/
structure Packet where
  type : CoapType
  code : ℕ
  msgId : ℕ
  token : List UInt8
  content : List UInt8
deriving DecidableEq

def Packet.isRequest (packet : Packet) : Bool := 1 ≤ packet.code ∧ packet.code ≤ 31

def Packet.isResponse (packet : Packet) : Bool := 64 ≤ packet.code ∧ packet.code ≤ 191

/-- A frame as `parse_message` leaves it: its return value and the packet. -/
structure Frame where
  status : StaticCoap.Status
  packet : Packet
deriving DecidableEq

/-- A well-formed confirmable or non-confirmable request. -/
def Frame.isRequestMessage (frame : Frame) : Bool :=
  frame.status = .success ∧ (frame.packet.type = .con ∨ frame.packet.type = .non) ∧
    frame.packet.isRequest

/-- A reference to a sent message: its slot, and the number it had when the reference was
made. -/
structure Reference where
  slot : ℕ
  serial : ℕ
deriving DecidableEq

/-- An entry of `received_`. -/
structure ReceivedMessage where
  frame : Frame
  correspondent : ℕ
  ackSent : Option Reference
  responseSent : Option Reference

/-- An entry of `sent_`; of `response_` only whether it is NULL is ever asked. -/
structure SentMessage where
  message : Packet
  correspondent : ℕ
  retransmitCount : ℕ
  ackReceived : Bool
  responseReceived : Bool
  hasCallback : Bool

/-- The two timer functions. -/
inductive TimerKind
  | retransmitTimeout
  | ackTimeout
deriving DecidableEq

/-- A timer that is set: its function, and the slot passed to it with the number of the
message in it at that moment. -/
structure Timer where
  kind : TimerKind
  slot : ℕ
  serial : ℕ
deriving DecidableEq

/-- The sender and the frame of an entry. -/
def ReceivedMessage.message (entry : ReceivedMessage) : ℕ × Frame :=
  (entry.correspondent, entry.frame)

/-- A message that went into `sent_`, and the received message it answers. -/
structure SentRecord where
  receiver : ℕ
  packet : Packet
  inReplyTo : Option (ℕ × Frame)

/-- A frame sent again: for the timer of message `serial`, with whether an acknowledgement of
that message had arrived; or for a reference to message `serial`, because of a received
message. -/
inductive Transmission
  | retransmission (serial receiver : ℕ) (packet : Packet) (acknowledged : Bool)
  | repetition (serial receiver : ℕ) (packet : Packet) (trigger : ℕ × Frame)

/-- A service. -/
structure Service where
  received : Queue ReceivedMessage
  sent : Queue SentMessage
  timers : List Timer
  msgId : ℕ
  receivedCount : ℕ
  history : List SentRecord
  acknowledged : List ℕ
  handled : List (ℕ × Frame)
  transmissions : List Transmission

/-- `LIST_SIZE`: lists have at least one place. -/
def listSize (size : ℕ) : ℕ := if size < 1 then 1 else size

theorem listSize_pos (size : ℕ) : 0 < listSize size := by
  unfold listSize
  split <;> omega

/-- The node id of a service and the sizes of its lists. -/
structure Config where
  self : ℕ
  sentListSize : ℕ
  receivedListSize : ℕ

/-- A packet as its constructor makes it. -/
def emptyPacket : Packet :=
  { type := .non, code := 0, msgId := 0, token := [], content := [] }

/-- A service after `init`; `msgId` is random. -/
def Service.init (config : Config) (msgId : ℕ) : Service where
  received := .init (listSize config.receivedListSize) fun _ =>
    { frame := { status := .success, packet := emptyPacket }
      correspondent := 0
      ackSent := none
      responseSent := none }
  sent := .init (listSize config.sentListSize) fun _ =>
    { message := emptyPacket
      correspondent := 0
      retransmitCount := 0
      ackReceived := false
      responseReceived := false
      hasCallback := false }
  timers := []
  msgId := msgId
  receivedCount := 0
  history := []
  acknowledged := []
  handled := []
  transmissions := []

/-! ## Sending -/

namespace Service

variable (config : Config) (service : Service)

/-- The front of a queue, where `queue_message` has put the message. -/
def front {α : Type} (queue : Queue α) : ℕ := queue.order.headD 0

/-- `send_coap_as_is`; `delivered` is whether the radio reports success. -/
def sendCoapAsIs (receiver : ℕ) (message : Packet) (hasCallback : Bool)
    (inReplyTo : Option (ℕ × Frame)) (delivered : Bool) : Option Reference × Service :=
  if delivered then
    let sent := service.sent.push (listSize config.sentListSize)
      { message := message
        correspondent := receiver
        retransmitCount := 0
        ackReceived := false
        responseReceived := false
        hasCallback := hasCallback }
    let serial := service.history.length
    (some { slot := front sent, serial := serial },
      { service with
        sent := sent
        history := service.history ++
          [{ receiver := receiver, packet := message, inReplyTo := inReplyTo }]
        timers :=
          if message.type = .con then
            { kind := .retransmitTimeout, slot := front sent, serial := serial } :: service.timers
          else service.timers })
  else (none, service)

/-- `send_coap_gen_msg_id`; `msg_id_` is a `uint16_t`. -/
def sendCoapGenMsgId (receiver : ℕ) (message : Packet) (hasCallback : Bool)
    (inReplyTo : Option (ℕ × Frame)) (delivered : Bool) : Option Reference × Service :=
  ({ service with msgId := (service.msgId + 1) % 65536 }).sendCoapAsIs config receiver
    { message with msgId := service.msgId } hasCallback inReplyTo delivered

/-- `rst`, as a reply to the entry at `slot`. -/
def rst (slot : ℕ) (delivered : Bool) : Option Reference × Service :=
  let message := service.received.element slot
  service.sendCoapAsIs config message.correspondent
    { emptyPacket with type := .rst, msgId := message.frame.packet.msgId } true
    (some message.message) delivered

/-- `ack`; `trigger` is the frame that makes it send, for the record. -/
def ack (slot : ℕ) (trigger : Frame) (delivered : Bool) : Service :=
  let message := service.received.element slot
  match message.ackSent with
  | some reference =>
      { service with transmissions := service.transmissions ++
          [.repetition reference.serial message.correspondent
            (service.sent.element reference.slot).message (message.correspondent, trigger)] }
  | none =>
      match service.sendCoapAsIs config message.correspondent
        { emptyPacket with type := .ack, msgId := message.frame.packet.msgId } true
        (some message.message) delivered with
      | (sent, service) =>
          { service with
            received := service.received.modify slot fun entry => { entry with ackSent := sent } }

/-- `reply` to the entry at `slot`, with the code and content of `reply`. -/
def reply (slot : ℕ) (reply : Packet) (delivered : Bool) : Service :=
  let message := service.received.element slot
  let request := message.frame.packet
  if request.type = .con ∨ request.type = .non then
    if request.type = .con ∧ message.ackSent = none then
      -- no ACK has been sent yet, so the response takes its place
      match service.sendCoapAsIs config message.correspondent
        { reply with token := request.token, type := .ack, msgId := request.msgId } true
        (some message.message) delivered with
      | (some reference, service) =>
          { service with
            received := service.received.modify slot fun entry =>
              { entry with ackSent := some reference, responseSent := some reference } }
      | (none, service) => service
    else
      match service.sendCoapGenMsgId config message.correspondent
        { reply with token := request.token, type := request.type } true
        (some message.message) delivered with
      | (some reference, service) =>
          { service with
            received := service.received.modify slot fun entry =>
              { entry with responseSent := some reference } }
      | (none, service) => service
  else service

/-! ## Receiving -/

/-- `find_message_by_id` in `received_`. -/
def findReceivedById (correspondent msgId : ℕ) : Option ℕ :=
  service.received.find fun entry =>
    entry.frame.packet.msgId = msgId ∧ entry.correspondent = correspondent

/-- `find_message_by_id` in `sent_`. -/
def findSentById (correspondent msgId : ℕ) : Option ℕ :=
  service.sent.find fun entry =>
    entry.message.msgId = msgId ∧ entry.correspondent = correspondent

/-- `find_message_by_token` in `sent_`. -/
def findSentByToken (correspondent : ℕ) (token : List UInt8) : Option ℕ :=
  service.sent.find fun entry =>
    entry.correspondent = correspondent ∧ entry.message.token = token

/-- The request a response belongs to: the candidate when its token matches, otherwise the
one found by token. -/
def matchingRequest (slot : ℕ) (candidate : Option ℕ) : Option ℕ :=
  let message := service.received.element slot
  let byToken := service.findSentByToken message.correspondent message.frame.packet.token
  match candidate with
  | some request =>
      if (service.sent.element request).message.token = message.frame.packet.token then some request
      else byToken
  | none => byToken

/-- `handle_response`. -/
def handleResponse (slot : ℕ) (candidate : Option ℕ) (delivered : Bool) : Service :=
  let message := service.received.element slot
  let isCon := message.frame.packet.type = .con
  match service.matchingRequest slot candidate with
  | none =>
      if isCon then
        match service.rst config slot delivered with
        | (sent, service) =>
            { service with
              received := service.received.modify slot fun entry =>
                { entry with responseSent := sent } }
      else service
  | some request =>
      let service := if isCon then service.ack config slot message.frame delivered else service
      if (service.sent.element request).hasCallback then
        { service with
          sent := service.sent.modify request fun entry => { entry with responseReceived := true } }
      else service

/-- `handle_request`, up to the call of the resources. -/
def handleRequest (slot : ℕ) (serial : ℕ) : Service :=
  let message := service.received.element slot
  { service with
    handled := service.handled ++ [(message.correspondent, message.frame)]
    timers :=
      if message.frame.packet.type = .con then
        { kind := .ackTimeout, slot := slot, serial := serial } :: service.timers
      else service.timers }

/-- Queue a received message. -/
def queueReceived (correspondent : ℕ) (frame : Frame) : Service :=
  { service with
    received := service.received.push (listSize config.receivedListSize)
      { frame := frame, correspondent := correspondent, ackSent := none, responseSent := none }
    receivedCount := service.receivedCount + 1 }

/-- The first branch of `receive`: the message is none that is in the list. -/
def receiveNew (correspondent : ℕ) (frame : Frame) (delivered : Bool) : Service :=
  let queued := service.queueReceived config correspondent frame
  let slot := front queued.received
  match frame.packet.type with
  | .rst => queued
  | .ack =>
      match queued.findSentById correspondent frame.packet.msgId with
      | some request =>
          let noted := { queued with
            sent := queued.sent.modify request fun entry => { entry with ackReceived := true } }
          if frame.packet.isResponse then noted.handleResponse config slot (some request) delivered
          else noted
      | none => queued
  | .con | .non =>
      if frame.packet.isRequest then queued.handleRequest slot service.receivedCount
      else if frame.packet.isResponse then queued.handleResponse config slot none delivered
      else queued

/-- The second branch of `receive`: the entry at `slot` has the same sender and message id. -/
def receiveDuplicate (slot : ℕ) (frame : Frame) (delivered : Bool) : Service :=
  let service :=
    if frame.packet.type = .con then service.ack config slot frame delivered else service
  let message := service.received.element slot
  match message.responseSent with
  | some reference =>
      let response := (service.sent.element reference.slot).message
      if response.type ≠ .ack then
        { service with transmissions := service.transmissions ++
            [.repetition reference.serial message.correspondent response
              (message.correspondent, frame)] }
      else service
  | none => service

/-- The numbers of the confirmable messages an acknowledgement is for. -/
def acknowledgedBy (history : List SentRecord) (correspondent msgId : ℕ) : List ℕ :=
  (List.range history.length).filter fun serial =>
    (history[serial]?).any fun message =>
      message.receiver = correspondent ∧ message.packet.msgId = msgId ∧ message.packet.type = .con

/-- Record that an acknowledgement has arrived. -/
def noteAcknowledgement (correspondent : ℕ) (frame : Frame) : Service :=
  if frame.status = .success ∧ frame.packet.type = .ack then
    { service with acknowledged := service.acknowledged ++
        acknowledgedBy service.history correspondent frame.packet.msgId }
  else service

/-- `receive`. -/
def receive (correspondent : ℕ) (frame : Frame) (delivered : Bool) : Service :=
  if config.self = correspondent then service
  else
    match frame.status with
    | .success =>
        let service := service.noteAcknowledgement correspondent frame
        match service.findReceivedById correspondent frame.packet.msgId with
        | none => service.receiveNew config correspondent frame delivered
        | some slot => service.receiveDuplicate config slot frame delivered
    | .errNotCoap | .errWrongCoapVersion => service
    | _ => service.queueReceived config correspondent frame

/-! ## Timers -/

def coapMaxRetransmit : ℕ := 4

/-- `ack_timeout`. -/
def ackTimeout (timer : Timer) (delivered : Bool) : Service :=
  let service := { service with timers := service.timers.erase timer }
  if (service.received.element timer.slot).ackSent = none then
    service.ack config timer.slot (service.received.element timer.slot).frame delivered
  else service

/-- `retransmit_timeout`. -/
def retransmitTimeout (timer : Timer) (delivered : Bool) : Service :=
  let service := { service with timers := service.timers.erase timer }
  let message := service.sent.element timer.slot
  if message.ackReceived = false ∧ message.responseReceived = false then
    let service := { service with transmissions := service.transmissions ++
      [Transmission.retransmission timer.serial message.correspondent message.message
        (timer.serial ∈ service.acknowledged)] }
    if delivered then
      let service := { service with
        sent := service.sent.modify timer.slot fun entry =>
          { entry with retransmitCount := entry.retransmitCount + 1 } }
      if (service.sent.element timer.slot).retransmitCount < coapMaxRetransmit then
        { service with timers := timer :: service.timers }
      else service
    else { service with timers := timer :: service.timers }
  else service

end Service

/-- What can happen to a service. -/
inductive Operation
  | sendAsIs (receiver : ℕ) (message : Packet) (hasCallback delivered : Bool)
  | sendGenMsgId (receiver : ℕ) (message : Packet) (hasCallback delivered : Bool)
  | reply (slot : ℕ) (reply : Packet) (delivered : Bool)
  | receive (correspondent : ℕ) (frame : Frame) (delivered : Bool)
  | timeout (timer : Timer) (delivered : Bool)

/-- The service after an operation; a timer can only run out when it is set. -/
def perform (config : Config) (service : Service) : Operation → Option Service
  | .sendAsIs receiver message hasCallback delivered =>
      some (service.sendCoapAsIs config receiver message hasCallback none delivered).2
  | .sendGenMsgId receiver message hasCallback delivered =>
      some (service.sendCoapGenMsgId config receiver message hasCallback none delivered).2
  | .reply slot reply delivered => some (service.reply config slot reply delivered)
  | .receive correspondent frame delivered =>
      some (service.receive config correspondent frame delivered)
  | .timeout timer delivered =>
      if timer ∈ service.timers then
        match timer.kind with
        | .retransmitTimeout => some (service.retransmitTimeout timer delivered)
        | .ackTimeout => some (service.ackTimeout config timer delivered)
      else none

end Wiselib.CoapService
