import Wiselib.Coap.CoapPacket
import Wiselib.Pstl.VectorStatic

/-!
# The CoAP engine

`CoapEngine` keeps the resources of a node, the clients that observe them and the
confirmable messages that wait for an acknowledgement.  `receiver` takes a
message in and answers it, `coapNotify` and `retransmitLoop` are called by the
timer.

A message goes out as a packet here, in place of the bytes that
`packet_to_buffer` makes of it.  What the code leaves open is part of each
operation: the clock, what is in the memory of a new packet, and what the
callbacks of the application answer.

The engine also keeps a record that the code does not have: a serial number for
every resource that is put into the vector, and a log of what the engine did.
-/

namespace Wiselib.Coap

open ByteBuffer Pstl

/-! ## Numbers -/

def confMaxResources : ℕ := 5

def confMaxObservers : ℕ := 5

def confMaxMsgLen : ℕ := 112

def confMaxPayloadLen : UInt16 := 64

def confMaxRetransmitSlots : ℕ := 5

def confCoapResponseTimeout : UInt8 := 2

def confCoapMaxRetransmitTries : UInt8 := 4

/-- `coap_message_type_t`. -/
def con : UInt8 := 0
def non : UInt8 := 1
def ack : UInt8 := 2
def rst : UInt8 := 3

/-- `coap_method_t`. -/
def coapGet : UInt8 := 1
def coapPut : UInt8 := 3
def coapDelete : UInt8 := 4

/-- Of `coap_content_type_t`. -/
def textPlain : UInt8 := 0
def applicationLinkFormat : UInt8 := 40

/-- The methods of a resource that a `PUT` creates, `GET | DELETE` of `app_method_t`. -/
def getOrDelete : UInt8 := 1 ||| 8

/-- The number of a status. -/
def CoapStatus.code : CoapStatus → UInt8
  | .noError => 0
  | .created => 65
  | .deleted => 66
  | .valid => 67
  | .changed => 68
  | .content => 69
  | .badRequest => 128
  | .unathorized => 129
  | .badOption => 130
  | .forbidden => 131
  | .notFound => 132
  | .methodNotAllowed => 133
  | .preconditionFailed => 140
  | .requestEntityTooLarge => 141
  | .unsupportedMediaType => 143
  | .internalServerError => 160
  | .notImplemented => 161
  | .badGateway => 162
  | .serviceUnavailable => 163
  | .gatewayTimeout => 164
  | .proxyingNotSupported => 165

/-! ## Texts -/

/-- Whether `strncmp` finds no difference between two texts. -/
def strncmpEq : ℕ → List UInt8 → List UInt8 → Bool
  | 0, _, _ => true
  | n + 1, s, t => s.headD 0 == t.headD 0 && (s.headD 0 == 0 || strncmpEq n s.tail t.tail)

/-- What `%s` prints of a text: all of it up to a null character. -/
def cString (text : List UInt8) : List UInt8 := text.takeWhile (· ≠ 0)

/-- `.well-known/core`. -/
def wellKnownCore : List UInt8 :=
  [0x2e, 0x77, 0x65, 0x6c, 0x6c, 0x2d, 0x6b, 0x6e, 0x6f, 0x77, 0x6e, 0x2f, 0x63, 0x6f, 0x72, 0x65]

/-! ## Resources -/

/-- `callback_arg`, without where the answer goes. -/
structure CallbackArg where
  method : UInt8
  inputData : List UInt8

/-- What a callback does: its status, and what it leaves in `output_data` if it does. -/
structure Answer where
  status : CoapStatus
  output : Option (List UInt8)

/-- The callbacks of the application, by number. -/
abbrev Application := ℕ → CallbackArg → Answer

/-- `ResourceController`, with the serial number of the resource. -/
structure Resource where
  del : Option ℕ
  name : List UInt8
  representation : List UInt8
  methods : UInt8
  notifyTime : UInt16
  fastResource : Bool
  contentType : UInt8
  interruptFlag : Bool
  serial : ℕ

/-- The number that the application knows a method by. -/
def appMethod (method : UInt8) : UInt8 :=
  if method = coapPut then 4 else if method = coapDelete then 8 else method

namespace Resource

/-- `execute`. -/
def execute (resource : Resource) (application : Application) (args : CallbackArg) : Answer :=
  match resource.del with
  | some callback => application callback { args with method := appMethod args.method }
  | none =>
      if resource.representation.length > 0 then ⟨.content, some (cString resource.representation)⟩
      else ⟨.internalServerError, none⟩

/-- `method_allowed`. -/
def methodAllowed (resource : Resource) (method : UInt8) : Bool :=
  resource.methods &&& appMethod method ≠ 0

/-- The comparison in `find_resource` and `delete_resource`. -/
def hasName (resource : Resource) (name : List UInt8) (length : ℕ) : Bool :=
  resource.name.length == length && strncmpEq resource.name.length name resource.name

end Resource

/-! ## The state -/

/-- `uri_path_len_w`, which has 8 bits. -/
def CoapPacket.uriPathLenW (packet : CoapPacket) : ℕ := packet.uriPathLen % 256

/-- The token that a packet carries. -/
def CoapPacket.tokenBytes (packet : CoapPacket) : List UInt8 :=
  packet.token.take packet.tokenLen.toNat

/-- `observer`, with the resource it stands for and whether it was notified yet. -/
structure Observer where
  hostId : UInt16
  lastMid : UInt16
  resourceId : ℕ
  token : List UInt8
  tokenLen : UInt8
  timestamp : UInt32
  target : ℕ
  notified : Bool
deriving DecidableEq

/-- The token that an observer is notified with. -/
def Observer.tokenBytes (observer : Observer) : List UInt8 :=
  observer.token.take observer.tokenLen.toNat

/-- `retransmit_slot`. -/
structure RetransmitSlot where
  hostId : UInt16
  mid : UInt16
  timeoutTries : UInt8
  timestamp : UInt32
  packet : CoapPacket

/-- A notification: for which observer it is, which of how many resources was
executed for it with what result, and the message. -/
structure Notification where
  hostId : UInt16
  target : ℕ
  resourceId : ℕ
  resources : ℕ
  source : ℕ
  representation : Option (List UInt8)
  packet : CoapPacket
deriving DecidableEq

/-- What the log tells: a client asked to observe a resource, a resource was
deleted, an observer was notified, a reset came and made an observer go, a
message was sent for the first time or again. -/
inductive Event
  | registered (host target : ℕ) (token : List UInt8)
  | deleted (target : ℕ)
  | notified (notification : Notification)
  | reset (host : ℕ) (mid : UInt16) (removed : Option Observer)
  | sent (dest : ℕ) (packet : CoapPacket)
  | retransmitted (hostId : UInt16) (packet : CoapPacket)
deriving DecidableEq

/-- The state of the engine.  `log` has the latest event first. -/
structure CoapEngine where
  id : ℕ
  mid : UInt16
  resources : VectorStatic Resource
  observers : List Observer
  retransmits : List RetransmitSlot
  outputData : ℕ → UInt8
  observeCounter : UInt16
  nextSerial : ℕ
  log : List Event

/-- What an operation finds: the clock, the memory of the packets it declares
and the callbacks of the application. -/
structure Surroundings where
  time : UInt32
  msg : CoapPacket
  response : CoapPacket
  application : Application

namespace CoapEngine

/-- `init`, on the memory of the resources and of `output_data`. -/
def init (id : ℕ) (rand : UInt16) (resources : ℕ → Resource) (outputData : ℕ → UInt8) : CoapEngine :=
  { id := id
    mid := rand
    resources := ⟨resources, 0⟩
    observers := []
    retransmits := []
    outputData := outputData
    observeCounter := 1
    nextSerial := 0
    log := [] }

/-! ## Sending -/

/-- `coap_new_mid`. -/
def coapNewMid (coap : CoapEngine) : UInt16 × CoapEngine :=
  (coap.mid, { coap with mid := coap.mid + 1 })

/-- `coap_register_con_msg`. -/
def coapRegisterConMsg (time : UInt32) (id : UInt16) (mid : UInt16) (packet : CoapPacket)
    (tries : UInt8) (coap : CoapEngine) : CoapEngine :=
  if coap.retransmits.length = confMaxRetransmitSlots then coap
  else
    let timeoutTries := confCoapResponseTimeout <<< 4 ||| tries
    { coap with
      retransmits := coap.retransmits ++ [{
        hostId := id
        mid := mid
        timeoutTries := timeoutTries
        timestamp := time + (timeoutTries >>> 4).toUInt32
        packet := packet }] }

/-- `coap_unregister_con_msg`. -/
def coapUnregisterConMsg (mid : UInt16) (coap : CoapEngine) : UInt8 × CoapEngine :=
  match coap.retransmits.find? (·.mid == mid) with
  | some slot =>
      ((0x0f : UInt8) &&& slot.timeoutTries,
        { coap with retransmits := coap.retransmits.eraseP (·.mid == mid) })
  | none => (0, coap)

/-- `radio_send`, which writes a message for the node itself to the UART. -/
def radioSend (dest : ℕ) (packet : CoapPacket) (coap : CoapEngine) : CoapEngine :=
  { coap with log := .sent dest packet :: coap.log }

/-- `coap_send`. -/
def coapSend (time : UInt32) (msg : CoapPacket) (dest : ℕ) (coap : CoapEngine) : CoapEngine :=
  let coap :=
    if msg.type = con then coapRegisterConMsg time (UInt16.ofNat dest) msg.mid msg 0 coap else coap
  radioSend dest msg coap

/-! ## Resources and observers -/

/-- Puts a resource into the vector under a new serial number. -/
def pushResource (resource : Resource) (coap : CoapEngine) : CoapEngine :=
  { coap with
    resources := coap.resources.pushBack confMaxResources
      { resource with serial := coap.nextSerial }
    nextSerial := coap.nextSerial + 1 }

/-- `add_resource`. -/
def addResource (resource : Resource) (coap : CoapEngine) : CoapEngine :=
  if coap.resources.size = confMaxResources then coap else pushResource resource coap

/-- `find_resource`. -/
def findResource (uriPath : List UInt8) (uriPathLen : ℕ) (coap : CoapEngine) : Option ℕ :=
  coap.resources.findIdx fun resource => resource.hasName uriPath uriPathLen

/-- `delete_resource`. -/
def deleteResource (name : List UInt8) (nameLen : ℕ) (coap : CoapEngine) : CoapEngine :=
  match coap.findResource name nameLen with
  | some i =>
      { coap with
        resources := coap.resources.erase i
        log := .deleted (coap.resources.cells i).serial :: coap.log }
  | none => coap

/-- `coap_notify_from_interrupt`. -/
def coapNotifyFromInterrupt (name : List UInt8) (coap : CoapEngine) : CoapEngine :=
  { coap with
    resources := coap.resources.modifyAll fun resource =>
      if strncmpEq resource.name.length name resource.name then
        { resource with interruptFlag := true }
      else resource }

/-- The observer that `add_observer` looks for. -/
def observes (hostId : ℕ) (resourceId : ℕ) (observer : Observer) : Bool :=
  observer.hostId.toNat == hostId && observer.resourceId == resourceId

/-- `add_observer`. -/
def addObserver (time : UInt32) (msg : CoapPacket) (hostId : ℕ) (resourceId : ℕ) (coap : CoapEngine) :
    Bool × CoapEngine :=
  let resource := coap.resources.cells resourceId
  let coap := { coap with log := .registered hostId resource.serial msg.tokenBytes :: coap.log }
  if coap.observers.length = confMaxObservers then (false, coap)
  else
    match coap.observers.findIdx? (observes hostId resourceId) with
    | some i =>
        (true,
          { coap with
            observers := coap.observers.modify i fun observer =>
              { observer with
                tokenLen := msg.tokenLen, token := msg.tokenBytes, target := resource.serial } })
    | none =>
        (true,
          { coap with
            observers := coap.observers ++ [{
              hostId := UInt16.ofNat hostId
              lastMid := msg.mid
              resourceId := resourceId
              token := msg.tokenBytes
              tokenLen := msg.tokenLen
              timestamp := time + resource.notifyTime.toUInt32
              target := resource.serial
              notified := false }] })

/-- `coap_remove_observer`. -/
def coapRemoveObserver (mid : UInt16) (coap : CoapEngine) : CoapEngine :=
  { coap with observers := coap.observers.eraseP (·.lastMid == mid) }

/-- `coap_remove_observer` for a reset that came from a host. -/
def resetObserver (host : ℕ) (mid : UInt16) (coap : CoapEngine) : CoapEngine :=
  let removed := coap.observers.find? (·.lastMid == mid)
  let coap := coapRemoveObserver mid coap
  { coap with log := .reset host mid removed :: coap.log }

/-! ## Answering requests -/

/-- Keeps what was written to `output_data`. -/
def writeOutput (output : Option (List UInt8)) (coap : CoapEngine) : CoapEngine :=
  match output with
  | some text => { coap with outputData := write coap.outputData 0 text }
  | none => coap

/-- What becomes of the variable that `output_data_len` points to. -/
def outputLen (output : Option (List UInt8)) (outputDataLen : UInt16) : UInt16 :=
  match output with
  | some text => UInt16.ofNat text.length
  | none => outputDataLen

/-- `blockwise_response`: the response, the length of the payload and where it starts. -/
def blockwiseResponse (req resp : CoapPacket) (dataLen : UInt16) : CoapPacket × UInt16 × UInt32 :=
  if req.isOption .block2 then
    let resp :=
      if req.block2Size > confMaxPayloadLen then
        { resp with
          block2Size := confMaxPayloadLen
          block2Num := req.block2Num * req.block2Size.toUInt32 / confMaxPayloadLen.toUInt32 }
      else { resp with block2Size := req.block2Size, block2Num := req.block2Num }
    let (more, dataLen) : UInt8 × UInt16 :=
      if dataLen < resp.block2Size then (0, dataLen)
      else if dataLen.toUInt32 - req.block2Offset > resp.block2Size.toUInt32 then
        (1, resp.block2Size)
      else (0, (dataLen.toUInt32 - req.block2Offset).toUInt16)
    ({ resp with block2More := more }.setOption .block2, dataLen, req.block2Offset)
  else if dataLen > confMaxPayloadLen then
    ({ resp with
        block2Num := 0
        block2More := 1
        block2Size := confMaxPayloadLen }.setOption .block2, confMaxPayloadLen, 0)
  else (resp, dataLen, 0)

/-- Sets the payload and its length, an 8 bit number. -/
def setPayload (packet : CoapPacket) (outputData : ℕ → UInt8) (offset : UInt32)
    (outputDataLen : UInt16) : CoapPacket :=
  { packet with
    payloadLen := outputDataLen.toUInt8
    payload := read outputData offset.toNat outputDataLen.toUInt8.toNat }

/-- What `resource_discovery` prints. -/
def discoveryText (coap : CoapEngine) : List UInt8 :=
  [0x3c] ++ wellKnownCore ++ [0x3e, 0x2c] ++
    (List.range coap.resources.size).flatMap fun i =>
      [0x3c] ++ cString (coap.resources.cells i).name ++ [0x3e, 0x2c]

/-- The answer to a request for `.well-known/core`, with `resource_discovery`. -/
def discover (msg response : CoapPacket) (coap : CoapEngine) : CoapPacket × CoapEngine :=
  if msg.code = coapGet then
    -- the last character becomes the null character, and counts
    let text := coap.discoveryText.dropLast ++ [0]
    let coap := writeOutput (some text) coap
    let response :=
      { response.setOption .contentType with
        code := CoapStatus.content.code, contentType := applicationLinkFormat }
    let (response, outputDataLen, offset) :=
      blockwiseResponse msg response (UInt16.ofNat text.length)
    (setPayload response coap.outputData offset outputDataLen, coap)
  else ({ response with code := CoapStatus.methodNotAllowed.code }, coap)

/-- Sends the acknowledgement of a slow resource at once and starts a response of its own. -/
def separate (env : Surroundings) (resource : Resource) (source : ℕ) (response : CoapPacket)
    (coap : CoapEngine) : CoapPacket × CoapEngine :=
  if resource.fastResource = false ∧ response.type = ack then
    let coap := coapSend env.time response source coap
    let (mid, coap) := coap.coapNewMid
    ({ CoapPacket.init response with type := con, mid := mid }, coap)
  else (response, coap)

/-- Executes a resource for a request. -/
def executeRequest (env : Surroundings) (msg : CoapPacket) (i : ℕ) (response : CoapPacket)
    (coap : CoapEngine) : CoapPacket × CoapEngine :=
  let resource := coap.resources.cells i
  let answer := resource.execute env.application
    ⟨msg.code, msg.payload.take msg.payloadLen.toNat⟩
  let coap := writeOutput answer.output coap
  let response :=
    { (response.setOption .contentType).setOption .maxAge with
      code := answer.status.code
      contentType := resource.contentType
      maxAge := resource.notifyTime.toUInt32 }
  let (response, outputDataLen, offset) :=
    blockwiseResponse msg response (outputLen answer.output 0)
  (setPayload response coap.outputData offset outputDataLen, coap)

/-- The condition on a request to register an observer. -/
def wantsObserve (msg : CoapPacket) (resource : Resource) : Bool :=
  msg.code = coapGet ∧ msg.isOption .observe ∧ resource.notifyTime > 0 ∧ msg.isOption .token

/-- Registers an observer if the request asks for it. -/
def observeRequest (env : Surroundings) (msg : CoapPacket) (source i : ℕ) (response : CoapPacket)
    (coap : CoapEngine) : CoapPacket × CoapEngine :=
  if wantsObserve msg (coap.resources.cells i) then
    match addObserver env.time msg source i coap with
    | (true, coap) =>
        ({ response.setOption .observe with observe := coap.observeCounter },
          { coap with observeCounter := coap.observeCounter + 1 })
    | (false, coap) => (response, coap)
  else (response, coap)

/-- The answer to a request for the resource at an index. -/
def serve (env : Surroundings) (msg : CoapPacket) (source i : ℕ) (response : CoapPacket)
    (coap : CoapEngine) : CoapPacket × CoapEngine :=
  if (coap.resources.cells i).methodAllowed msg.code then
    if msg.code = coapDelete then
      ({ response with code := CoapStatus.deleted.code },
        coap.deleteResource msg.uriPath msg.uriPathLenW)
    else
      let (response, coap) := separate env (coap.resources.cells i) source response coap
      let (response, coap) := executeRequest env msg i response coap
      observeRequest env msg source i response coap
  else ({ response with code := CoapStatus.methodNotAllowed.code }, coap)

/-- The answer to a request for a path without a resource, which a `PUT` creates.  Its
name and its text are taken to fit into a `StaticString`. -/
def create (msg response : CoapPacket) (coap : CoapEngine) : CoapPacket × CoapEngine :=
  if msg.code ≠ coapPut then ({ response with code := CoapStatus.notFound.code }, coap)
  else
    ({ response with code := CoapStatus.created.code },
      pushResource
        { del := none
          name := msg.uriPath.take msg.uriPathLenW
          representation := msg.payload.take msg.payloadLen.toNat
          methods := getOrDelete
          notifyTime := 0
          fastResource := true
          contentType := if msg.isOption .contentType then msg.contentType else textPlain
          interruptFlag := false
          serial := 0 } coap)

/-- A path that `receiver` takes for `.well-known/core`: a beginning of it. -/
def isWellKnown (msg : CoapPacket) : Bool := strncmpEq msg.uriPathLenW msg.uriPath wellKnownCore

/-- The response to a request, before the token is added. -/
def dispatch (env : Surroundings) (msg : CoapPacket) (source : ℕ) (response : CoapPacket)
    (coap : CoapEngine) : CoapPacket × CoapEngine :=
  if isWellKnown msg then discover msg response coap
  else
    match coap.findResource msg.uriPath msg.uriPathLenW with
    | some i => serve env msg source i response coap
    | none => create msg response coap

/-- The branch of `receiver` for requests. -/
def request (env : Surroundings) (msg : CoapPacket) (source : ℕ) (coap : CoapEngine) : CoapEngine :=
  if msg.type = con ∨ msg.type = non then
    let response :=
      { CoapPacket.init env.response with
        type := if msg.type = con then ack else non, mid := msg.mid }
    let (response, coap) := dispatch env msg source response coap
    let response :=
      if msg.isOption .token then
        { response.setOption .token with tokenLen := msg.tokenLen, token := msg.token }
      else response
    coapSend env.time response source coap
  else coap

/-- The branch of `receiver` for responses. -/
def response (env : Surroundings) (msg : CoapPacket) (source : ℕ) (coap : CoapEngine) : CoapEngine :=
  if msg.type = con then
    coapSend env.time { CoapPacket.init env.response with type := ack, mid := msg.mid } source coap
  else if msg.type = ack then (coap.coapUnregisterConMsg msg.mid).2
  else if msg.type = rst then ((coap.resetObserver source msg.mid).coapUnregisterConMsg msg.mid).2
  else coap

/-- What `receiver` does with a message without an error. -/
def accept (env : Surroundings) (msg : CoapPacket) (source : ℕ) (coap : CoapEngine) : CoapEngine :=
  if msg.code = 0 then
    let coap := (coap.coapUnregisterConMsg msg.mid).2
    if msg.type = rst then coap.resetObserver source msg.mid else coap
  else if msg.code ≤ 4 then request env msg source coap
  else if 64 ≤ msg.code ∧ msg.code ≤ 191 then coap.response env msg source
  else coap

/-- The answer of `receiver` to a message with an error. -/
def refuse (env : Surroundings) (status : CoapStatus) (msg : CoapPacket) (source : ℕ)
    (coap : CoapEngine) : CoapEngine :=
  coapSend env.time
    { CoapPacket.init env.response with
      code := status.code
      mid := msg.mid
      type := if msg.type = con then ack else non } source coap

/-- How `receiver` reads a message. -/
def parse (env : Surroundings) (len : UInt8) (buf : ℕ → UInt8) : CoapStatus × CoapPacket :=
  let (status, msg) := CoapPacket.bufferToPacket (CoapPacket.init env.msg) len buf
  (if msg.version ≠ coapVersion then .badRequest else status, msg)

/-- A message is for another node. -/
def isForeign (msg : CoapPacket) (coap : CoapEngine) : Bool :=
  msg.isOption .uriHost ∧ msg.uriHost.toNat ≠ coap.id

/-- `receiver`. -/
def receiver (env : Surroundings) (len : UInt8) (buf : ℕ → UInt8) (source : ℕ) (coap : CoapEngine) :
    CoapEngine :=
  match parse env len buf with
  | (.noError, msg) => if coap.isForeign msg then coap else accept env msg source coap
  | (status, msg) => refuse env status msg source coap

/-! ## Notifications -/

/-- The message that `coap_notify` makes for an observer. -/
def notification (env : Surroundings) (observer : Observer) (resource : Resource)
    (status : CoapStatus) (mid observeCounter : UInt16) : CoapPacket :=
  { ((((CoapPacket.init env.response).setOption .contentType).setOption .maxAge).setOption
      .token).setOption .observe with
    type := con
    mid := mid
    code := status.code
    contentType := resource.contentType
    maxAge := resource.notifyTime.toUInt32
    tokenLen := observer.tokenLen
    token := observer.token
    observe := observeCounter }

/-- Whether the loop of `coap_notify` stops at an observer. -/
def isDue (time : UInt32) (observer : Observer) (coap : CoapEngine) : Bool :=
  observer.timestamp ≤ time ∨ (coap.resources.cells observer.resourceId).interruptFlag

/-- The end of a round of `coap_notify`: the notification is registered and sent,
and the observer waits for the next one. -/
def sendNotification (time : UInt32) (i : ℕ) (observer : Observer) (packet : CoapPacket)
    (tries : UInt8) (representation : Option (List UInt8)) (coap : CoapEngine) : CoapEngine :=
  let resource := coap.resources.cells observer.resourceId
  let coap := coapRegisterConMsg time observer.hostId packet.mid packet tries coap
  let coap :=
    { coap with
      observers := coap.observers.modify i fun observer =>
        { observer with
          lastMid := packet.mid
          timestamp := time + resource.notifyTime.toUInt32
          notified := true } }
  let coap := radioSend observer.hostId.toNat packet coap
  let notice : Notification :=
    { hostId := observer.hostId
      target := observer.target
      resourceId := observer.resourceId
      resources := coap.resources.size
      source := resource.serial
      representation := representation
      packet := packet }
  { coap with log := .notified notice :: coap.log }

/-- Clears the interrupt flag of a resource. -/
def clearInterruptFlag (i : ℕ) (coap : CoapEngine) : CoapEngine :=
  { coap with
    resources := coap.resources.modify i fun resource => { resource with interruptFlag := false } }

/-- What `coap_notify` does for one observer that is due. -/
def notifyObserver (env : Surroundings) (i : ℕ) (observer : Observer) (coap : CoapEngine)
    (outputDataLen : UInt16) : CoapEngine × UInt16 :=
  let (mid, coap) := (coap.clearInterruptFlag observer.resourceId).coapNewMid
  let resource := coap.resources.cells observer.resourceId
  let answer := resource.execute env.application ⟨coapGet, []⟩
  let coap := writeOutput answer.output coap
  let outputDataLen := outputLen answer.output outputDataLen
  let packet := setPayload
    (notification env observer resource answer.status mid coap.observeCounter)
    coap.outputData 0 outputDataLen
  let coap := { coap with observeCounter := coap.observeCounter + 1 }
  let (tries, coap) := coap.coapUnregisterConMsg observer.lastMid
  (sendNotification env.time i observer packet tries answer.output coap, outputDataLen)

/-- One round of the loop of `coap_notify`. -/
def notifyRound (env : Surroundings) (i : ℕ) (state : CoapEngine × UInt16) : CoapEngine × UInt16 :=
  match state.1.observers[i]? with
  | some observer =>
      if state.1.isDue env.time observer then notifyObserver env i observer state.1 state.2
      else state
  | none => state

/-- The first rounds of the loop of `coap_notify`.  Each has callbacks of its own,
and `output_data_len` goes from one to the next. -/
def notifyRounds (env : Surroundings) (applications : ℕ → Application) :
    ℕ → CoapEngine × UInt16 → CoapEngine × UInt16
  | 0, state => state
  | i + 1, state =>
      notifyRound { env with application := applications i } i
        (notifyRounds env applications i state)

/-- `coap_notify`, on the memory of `output_data_len`. -/
def coapNotify (env : Surroundings) (applications : ℕ → Application) (outputDataLen : UInt16)
    (coap : CoapEngine) : CoapEngine :=
  (notifyRounds env applications coap.observers.length (coap, outputDataLen)).1

/-! ## Retransmissions -/

/-- The loop of `retransmit_loop` from an index on.  The iterator moves on after
a slot is erased, too. -/
def retransmitFrom (time : UInt32) : ℕ → UInt8 → ℕ → CoapEngine → CoapEngine
  | 0, _, _, coap => coap
  | rounds + 1, timeoutFactor, i, coap =>
      match coap.retransmits[i]? with
      | none => coap
      | some slot =>
          if slot.timestamp ≤ time then
            let timeoutTries := slot.timeoutTries + 1
            let tries := (0x0f : UInt8) &&& timeoutTries
            let timeoutFactor := UInt8.ofNat (timeoutFactor.toNat <<< tries.toNat)
            let coap :=
              { coap with
                retransmits := coap.retransmits.set i { slot with timeoutTries := timeoutTries }
                log := .retransmitted slot.hostId slot.packet :: coap.log }
            if tries = confCoapMaxRetransmitTries then
              let coap := coap.coapRemoveObserver slot.mid
              let coap := (coap.coapUnregisterConMsg slot.mid).2
              retransmitFrom time rounds timeoutFactor (i + 1) coap
            else
              let timestamp :=
                time + UInt32.ofNat (timeoutFactor.toNat * (timeoutTries >>> 4).toNat)
              retransmitFrom time rounds timeoutFactor (i + 1)
                { coap with
                  retransmits := coap.retransmits.set i
                    { slot with timeoutTries := timeoutTries, timestamp := timestamp } }
          else retransmitFrom time rounds timeoutFactor (i + 1) coap

/-- `retransmit_loop`. -/
def retransmitLoop (time : UInt32) (coap : CoapEngine) : CoapEngine :=
  retransmitFrom time coap.retransmits.length 1 0 coap

/-! ## Operations -/

/-- What can happen to an engine: the application adds a resource or reports an
interrupt, a message arrives, one of the timers fires. -/
inductive Operation
  | addResource (resource : Resource)
  | notifyFromInterrupt (name : List UInt8)
  | receive (env : Surroundings) (len : UInt8) (buf : ℕ → UInt8) (source : ℕ)
  | notify (env : Surroundings) (applications : ℕ → Application) (outputDataLen : UInt16)
  | retransmit (time : UInt32)

/-- Performs an operation. -/
def perform (coap : CoapEngine) : Operation → CoapEngine
  | .addResource resource => coap.addResource resource
  | .notifyFromInterrupt name => coap.coapNotifyFromInterrupt name
  | .receive env len buf source => coap.receiver env len buf source
  | .notify env applications outputDataLen => coap.coapNotify env applications outputDataLen
  | .retransmit time => coap.retransmitLoop time

end CoapEngine

end Wiselib.Coap
