import Wiselib.Coap.CoapServiceStatic
import Wiselib.Library.DuplicateFilter

/-!
# Requests are processed once

The list of received messages is a duplicate filter: `receive` drops what it
finds there by sender and message id.  It holds messages of every kind, though,
and acknowledgements and resets carry message ids the service itself chose, so
a request can meet one with its own id.  When that does not happen, every
request is handed to `handle_request` exactly once.
-/

namespace Wiselib.CoapService

open Transition SlotQueue DuplicateFilter

variable {config : Config} {service : Service}

/-! ## The list of received messages as a filter -/

/-- The filter a service implements. -/
def filterOf (service : Service) : State (ℕ × Frame) where
  window := service.received.toList.map ReceivedMessage.message
  delivered := service.handled

/-- How `receive` treats messages: it looks up those that parsed by sender and message id, and
hands requests on. -/
def rules (config : Config) : Rules (ℕ × Frame) (ℕ × ℕ) where
  size := listSize config.receivedListSize
  key := fun message => (message.1, message.2.packet.msgId)
  checked := fun message => message.2.status = .success
  wanted := fun message => message.2.isRequestMessage

/-- The message an operation brings to the list: every frame of another node that is taken for
a CoAP message. -/
def arrival (config : Config) : Operation → Option (ℕ × Frame)
  | .receive correspondent frame _ =>
      if config.self = correspondent ∨ frame.status = .errNotCoap ∨
          frame.status = .errWrongCoapVersion then none
      else some (correspondent, frame)
  | _ => none

/-- The messages that arrive in a run. -/
def arrivals (config : Config) (operations : List Operation) : List (ℕ × Frame) :=
  operations.filterMap (arrival config)

/-- A request does not find a message of another kind with its sender and message id in the
list, unless a request with them is there as well. -/
def NotMistaken (config : Config) (service : Service) (op : Operation) : Prop :=
  ∀ correspondent frame, arrival config op = some (correspondent, frame) →
    frame.isRequestMessage = true →
    ∀ entry ∈ service.received.toList, entry.correspondent = correspondent →
      entry.frame.packet.msgId = frame.packet.msgId →
      ∃ other ∈ service.received.toList, other.frame.isRequestMessage = true ∧
        other.correspondent = correspondent ∧ other.frame.packet.msgId = frame.packet.msgId

/-! ## Operations that leave the list alone -/

/-- The received messages are the same, up to what they refer to. -/
structure SameReceived (service next : Service) : Prop where
  order : next.received.order = service.received.order
  free : next.received.free = service.received.free
  message : ∀ slot, (next.received.element slot).message = (service.received.element slot).message
  handled : next.handled = service.handled
  receivedCount : next.receivedCount = service.receivedCount

theorem SameReceived.refl (service : Service) : SameReceived service service :=
  ⟨Eq.refl _, Eq.refl _, fun _ => Eq.refl _, Eq.refl _, Eq.refl _⟩

theorem SameReceived.trans {first middle last : Service} (hfirst : SameReceived first middle)
    (hlast : SameReceived middle last) : SameReceived first last where
  order := hlast.order.trans hfirst.order
  free := hlast.free.trans hfirst.free
  message := fun slot => (hlast.message slot).trans (hfirst.message slot)
  handled := hlast.handled.trans hfirst.handled
  receivedCount := hlast.receivedCount.trans hfirst.receivedCount

theorem sameReceived_modify (slot : ℕ) {change : ReceivedMessage → ReceivedMessage}
    (hchange : ∀ entry, (change entry).message = entry.message) :
    SameReceived service { service with received := service.received.modify slot change } where
  order := rfl
  free := rfl
  message := by
    intro other
    dsimp only
    rw [Queue.modify_element]
    split
    next heq => rw [hchange, heq]
    next => rfl
  handled := rfl
  receivedCount := rfl

theorem sameReceived_sendCoapAsIs (config : Config) (service : Service) (receiver : ℕ)
    (message : Packet) (hasCallback : Bool) (inReplyTo : Option (ℕ × Frame)) (delivered : Bool) :
    SameReceived service
      (service.sendCoapAsIs config receiver message hasCallback inReplyTo delivered).2 := by
  unfold Service.sendCoapAsIs
  split <;> exact ⟨rfl, rfl, fun _ => rfl, rfl, rfl⟩

theorem sameReceived_sendCoapGenMsgId (config : Config) (service : Service) (receiver : ℕ)
    (message : Packet) (hasCallback : Bool) (inReplyTo : Option (ℕ × Frame)) (delivered : Bool) :
    SameReceived service
      (service.sendCoapGenMsgId config receiver message hasCallback inReplyTo delivered).2 := by
  unfold Service.sendCoapGenMsgId Service.sendCoapAsIs
  split <;> exact ⟨rfl, rfl, fun _ => rfl, rfl, rfl⟩

theorem sameReceived_ack (slot : ℕ) (trigger : Frame) (delivered : Bool) :
    SameReceived service (service.ack config slot trigger delivered) := by
  unfold Service.ack
  dsimp only
  split
  · exact ⟨rfl, rfl, fun _ => rfl, rfl, rfl⟩
  · exact (sameReceived_sendCoapAsIs _ _ _ _ _ _ _).trans (sameReceived_modify slot fun _ => rfl)

theorem sameReceived_reply (slot : ℕ) (reply : Packet) (delivered : Bool) :
    SameReceived service (service.reply config slot reply delivered) := by
  unfold Service.reply
  dsimp only
  split
  · split
    · have hsent := sameReceived_sendCoapAsIs config service
        (service.received.element slot).correspondent
        { reply with
          token := (service.received.element slot).frame.packet.token
          type := .ack
          msgId := (service.received.element slot).frame.packet.msgId } true
        (some (service.received.element slot).message) delivered
      split
      next heq =>
        rw [heq] at hsent
        exact hsent.trans (sameReceived_modify slot fun _ => rfl)
      next heq =>
        rw [heq] at hsent
        exact hsent
    · have hsent := sameReceived_sendCoapGenMsgId config service
        (service.received.element slot).correspondent
        { reply with
          token := (service.received.element slot).frame.packet.token
          type := (service.received.element slot).frame.packet.type } true
        (some (service.received.element slot).message) delivered
      split
      next heq =>
        rw [heq] at hsent
        exact hsent.trans (sameReceived_modify slot fun _ => rfl)
      next heq =>
        rw [heq] at hsent
        exact hsent
  · exact .refl service

theorem sameReceived_handleResponse (slot : ℕ) (candidate : Option ℕ) (delivered : Bool) :
    SameReceived service (service.handleResponse config slot candidate delivered) := by
  unfold Service.handleResponse
  dsimp only
  split
  · split
    · exact (sameReceived_sendCoapAsIs _ _ _ _ _ _ _).trans (sameReceived_modify slot fun _ => rfl)
    · exact .refl service
  next request _ =>
    have hack : SameReceived service
        (if (service.received.element slot).frame.packet.type = .con then
          service.ack config slot (service.received.element slot).frame delivered
          else service) := by
      split
      · exact sameReceived_ack slot _ delivered
      · exact .refl service
    generalize (if (service.received.element slot).frame.packet.type = .con then
      service.ack config slot (service.received.element slot).frame delivered
      else service) = acked at hack ⊢
    split
    · exact hack.trans ⟨rfl, rfl, fun _ => rfl, rfl, rfl⟩
    · exact hack

theorem sameReceived_receiveDuplicate (config : Config) (service : Service) (slot : ℕ)
    (frame : Frame) (delivered : Bool) :
    SameReceived service (service.receiveDuplicate config slot frame delivered) := by
  have hack : SameReceived service
      (if frame.packet.type = .con then service.ack config slot frame delivered else service) := by
    split
    · exact sameReceived_ack slot _ delivered
    · exact .refl service
  unfold Service.receiveDuplicate
  dsimp only
  generalize (if frame.packet.type = .con then service.ack config slot frame delivered
    else service) = acked at hack ⊢
  split
  · split
    · exact hack.trans ⟨rfl, rfl, fun _ => rfl, rfl, rfl⟩
    · exact hack
  · exact hack

theorem sameReceived_timeout {timer : Timer} {delivered : Bool} {next : Service}
    (hstep : perform config service (.timeout timer delivered) = some next) :
    SameReceived service next := by
  have herase : SameReceived service { service with timers := service.timers.erase timer } :=
    ⟨rfl, rfl, fun _ => rfl, rfl, rfl⟩
  simp only [perform] at hstep
  split at hstep
  · split at hstep
    · cases hstep
      unfold Service.retransmitTimeout
      dsimp only
      split
      · split
        · split <;> exact ⟨rfl, rfl, fun _ => rfl, rfl, rfl⟩
        · exact ⟨rfl, rfl, fun _ => rfl, rfl, rfl⟩
      · exact herase
    · cases hstep
      unfold Service.ackTimeout
      dsimp only
      split
      · exact herase.trans (sameReceived_ack timer.slot _ delivered)
      · exact herase
  · cases hstep

/-! ## The service implements the filter -/

/-- The slots of `received_` have gone round. -/
def ReceivedRotates (config : Config) (service : Service) : Prop :=
  Rotates (listSize config.receivedListSize) service.receivedCount service.received

theorem SameReceived.rotates {next : Service} (hsame : SameReceived service next)
    (hrotates : ReceivedRotates config service) : ReceivedRotates config next where
  positive := hrotates.positive
  order := by rw [hsame.order, hsame.receivedCount]; exact hrotates.order
  free := by rw [hsame.free, hsame.receivedCount]; exact hrotates.free

theorem SameReceived.filterOf_eq {next : Service} (hsame : SameReceived service next) :
    filterOf next = filterOf service := by
  unfold filterOf Queue.toList
  rw [hsame.order, hsame.handled, List.map_map, List.map_map]
  congr 1
  apply List.map_congr_left
  intro slot _
  exact hsame.message slot

theorem front_queueReceived (hrotates : ReceivedRotates config service) (correspondent : ℕ)
    (frame : Frame) :
    (service.queueReceived config correspondent frame).received.element
        (Service.front (service.queueReceived config correspondent frame).received) =
      { frame := frame, correspondent := correspondent, ackSent := none, responseSent := none } := by
  unfold Service.queueReceived Service.front
  dsimp only
  rw [hrotates.order_push, (hrotates.push _).2]
  simp

theorem rotates_queueReceived (hrotates : ReceivedRotates config service) (correspondent : ℕ)
    (frame : Frame) :
    ReceivedRotates config (service.queueReceived config correspondent frame) :=
  (hrotates.push _).1

theorem filterOf_queueReceived (hrotates : ReceivedRotates config service) (correspondent : ℕ)
    (frame : Frame) :
    filterOf (service.queueReceived config correspondent frame) =
      { window := (correspondent, frame) ::
          (filterOf service).window.take ((rules config).size - 1)
        delivered := service.handled } := by
  unfold filterOf Service.queueReceived
  dsimp only
  rw [hrotates.toList_push, List.map_cons, List.map_take]
  rfl

theorem findReceivedById_none (config : Config) {correspondent : ℕ} {frame : Frame} :
    service.findReceivedById correspondent frame.packet.msgId = none ↔
      ¬ Remembers (rules config) (filterOf service)
        ((rules config).key (correspondent, frame)) := by
  unfold Service.findReceivedById Queue.find Remembers filterOf rules Queue.toList
  simp only [List.find?_eq_none, decide_eq_true_eq, List.mem_map, not_exists, not_and]
  constructor
  · rintro hnone other ⟨entry, ⟨slot, hslot, rfl⟩, rfl⟩ hkey
    obtain ⟨hcorrespondent, hid⟩ := Prod.mk.inj hkey
    exact hnone slot hslot hid hcorrespondent
  · intro hnone slot hslot hid hcorrespondent
    exact hnone _ ⟨_, ⟨slot, hslot, rfl⟩, rfl⟩ (Prod.ext hcorrespondent hid)

theorem receiveNew_spec (hrotates : ReceivedRotates config service) {correspondent : ℕ}
    {frame : Frame} {delivered : Bool} (hstatus : frame.status = .success) :
    ReceivedRotates config (service.receiveNew config correspondent frame delivered) ∧
      filterOf (service.receiveNew config correspondent frame delivered) =
        enter (rules config) (filterOf service) (correspondent, frame) := by
  have hqueued := rotates_queueReceived hrotates correspondent frame
  have hfront := front_queueReceived hrotates correspondent frame
  have hwindow := filterOf_queueReceived hrotates correspondent frame
  have hnotRequest : ∀ {next : Service},
      SameReceived (service.queueReceived config correspondent frame) next →
      frame.isRequestMessage = false → ReceivedRotates config next ∧
        filterOf next = enter (rules config) (filterOf service) (correspondent, frame) := by
    intro next hsame hno
    refine ⟨hsame.rotates hqueued, ?_⟩
    rw [hsame.filterOf_eq, hwindow]
    unfold enter
    rw [if_neg (by simp [rules, hno])]
    rfl
  have hrequest : frame.isRequestMessage = true →
      ReceivedRotates config ((service.queueReceived config correspondent frame).handleRequest
          (Service.front (service.queueReceived config correspondent frame).received)
          service.receivedCount) ∧
        filterOf ((service.queueReceived config correspondent frame).handleRequest
          (Service.front (service.queueReceived config correspondent frame).received)
          service.receivedCount) =
        enter (rules config) (filterOf service) (correspondent, frame) := by
    intro hyes
    refine ⟨hqueued, ?_⟩
    unfold enter
    rw [if_pos (by simpa [rules] using hyes)]
    unfold filterOf at hwindow ⊢
    unfold Service.handleRequest
    dsimp only at hwindow ⊢
    rw [hfront, (State.mk.inj hwindow).1]
    rfl
  unfold Service.receiveNew
  dsimp only
  split
  next htype =>
    exact hnotRequest (.refl _) (by simp [Frame.isRequestMessage, htype])
  next htype =>
    have hno : frame.isRequestMessage = false := by simp [Frame.isRequestMessage, htype]
    split
    · split
      · refine hnotRequest (SameReceived.trans ?_ (sameReceived_handleResponse _ _ _)) hno
        exact ⟨rfl, rfl, fun _ => rfl, rfl, rfl⟩
      · exact hnotRequest ⟨rfl, rfl, fun _ => rfl, rfl, rfl⟩ hno
    · exact hnotRequest (.refl _) hno
  all_goals
    next htype =>
      split
      next hyes => exact hrequest (by simp [Frame.isRequestMessage, hstatus, htype, hyes])
      next hno =>
        have hno' : frame.isRequestMessage = false := by simp [Frame.isRequestMessage, hno]
        split
        · exact hnotRequest (sameReceived_handleResponse _ _ _) hno'
        · exact hnotRequest (.refl _) hno'

theorem sameReceived_noteAcknowledgement (service : Service) (correspondent : ℕ) (frame : Frame) :
    SameReceived service (service.noteAcknowledgement correspondent frame) := by
  unfold Service.noteAcknowledgement
  split <;> exact ⟨rfl, rfl, fun _ => rfl, rfl, rfl⟩

/-- What a filter does with the message an operation brings, if it brings one. -/
def Follows (config : Config) (message : Option (ℕ × Frame)) (first last : State (ℕ × Frame)) :
    Prop :=
  match message with
  | none => last = first
  | some message => Arrives (rules config) first message last

theorem receive_follows (hrotates : ReceivedRotates config service) (correspondent : ℕ)
    (frame : Frame) (delivered : Bool) :
    ReceivedRotates config (service.receive config correspondent frame delivered) ∧
      Follows config (arrival config (.receive correspondent frame delivered)) (filterOf service)
        (filterOf (service.receive config correspondent frame delivered)) := by
  have herror : ∀ {status}, frame.status = status → status ≠ .success → status ≠ .errNotCoap →
      status ≠ .errWrongCoapVersion → config.self ≠ correspondent →
      ReceivedRotates config (service.queueReceived config correspondent frame) ∧
        Follows config (arrival config (.receive correspondent frame delivered)) (filterOf service)
          (filterOf (service.queueReceived config correspondent frame)) := by
    rintro status rfl hsuccess hcoap hversion hself
    refine ⟨rotates_queueReceived hrotates correspondent frame, ?_⟩
    have hwanted : (rules config).wanted (correspondent, frame) = false := by
      simp [rules, Frame.isRequestMessage, hsuccess]
    have henter : filterOf (service.queueReceived config correspondent frame) =
        enter (rules config) (filterOf service) (correspondent, frame) := by
      rw [filterOf_queueReceived hrotates]
      unfold enter
      rw [hwanted]
      rfl
    simp only [arrival, hself, hcoap, hversion, or_self, if_false, Follows]
    rw [henter]
    exact .entered fun hchecked => absurd (of_decide_eq_true hchecked) hsuccess
  unfold Service.receive
  split
  next hself =>
    refine ⟨hrotates, ?_⟩
    simp [arrival, hself, Follows]
  next hself =>
    split
    next hstatus =>
      have hnoted := sameReceived_noteAcknowledgement service correspondent frame
      have hnotedRotates := hnoted.rotates hrotates
      have harrival : arrival config (.receive correspondent frame delivered) =
          some (correspondent, frame) := by
        simp [arrival, hself, hstatus]
      have hchecked : (rules config).checked (correspondent, frame) = true := by
        simp [rules, hstatus]
      dsimp only
      rw [harrival]
      unfold Follows
      rw [← hnoted.filterOf_eq]
      split
      next hnone =>
        obtain ⟨hnew, henter⟩ := receiveNew_spec hnotedRotates hstatus
        refine ⟨hnew, ?_⟩
        rw [henter]
        exact .entered fun _ => (findReceivedById_none config).1 hnone
      next slot hsome =>
        have hsame := sameReceived_receiveDuplicate config
          (service.noteAcknowledgement correspondent frame) slot frame delivered
        refine ⟨hsame.rotates hnotedRotates, ?_⟩
        rw [hsame.filterOf_eq]
        apply Arrives.dropped hchecked
        by_contra hno
        rw [(findReceivedById_none config).2 hno] at hsome
        cases hsome
    next hstatus =>
      refine ⟨hrotates, ?_⟩
      simp [arrival, hstatus, Follows]
    next hstatus =>
      refine ⟨hrotates, ?_⟩
      simp [arrival, hstatus, Follows]
    next hsuccess hcoap hversion =>
      exact herror rfl (by simpa using hsuccess) (by simpa using hcoap) (by simpa using hversion)
        hself

theorem perform_follows (hrotates : ReceivedRotates config service) {op : Operation}
    {next : Service} (hstep : perform config service op = some next) :
    ReceivedRotates config next ∧
      Follows config (arrival config op) (filterOf service) (filterOf next) := by
  have hquiet : SameReceived service next → arrival config op = none →
      ReceivedRotates config next ∧
        Follows config (arrival config op) (filterOf service) (filterOf next) := by
    intro hsame hnone
    rw [hnone]
    exact ⟨hsame.rotates hrotates, hsame.filterOf_eq⟩
  cases op with
  | sendAsIs receiver message hasCallback delivered =>
      cases hstep
      exact hquiet (sameReceived_sendCoapAsIs _ _ _ _ _ _ _) rfl
  | sendGenMsgId receiver message hasCallback delivered =>
      cases hstep
      exact hquiet (sameReceived_sendCoapGenMsgId _ _ _ _ _ _ _) rfl
  | reply slot reply delivered =>
      cases hstep
      exact hquiet (sameReceived_reply slot reply delivered) rfl
  | receive correspondent frame delivered =>
      cases hstep
      exact receive_follows hrotates correspondent frame delivered
  | timeout timer delivered => exact hquiet (sameReceived_timeout hstep) rfl

/-! ## Runs -/

/-- Fewer than `received_list_size` messages arrive between two copies of a request. -/
def RequestCopiesClose (config : Config) (operations : List Operation) : Prop :=
  ∀ before between after message, message.2.isRequestMessage = true →
    arrivals config operations = before ++ message :: (between ++ message :: after) →
    between.length < config.receivedListSize

/-- No peer uses a message id for two of its requests. -/
def RequestIdsDistinct (config : Config) (operations : List Operation) : Prop :=
  ∀ message ∈ arrivals config operations, ∀ other ∈ arrivals config operations,
    message.2.isRequestMessage = true → other.2.isRequestMessage = true →
    message.1 = other.1 → message.2.packet.msgId = other.2.packet.msgId → message = other

theorem RequestCopiesClose.filter {operations : List Operation}
    (hclose : RequestCopiesClose config operations) :
    CopiesClose (rules config) (arrivals config operations) := by
  intro before between after message hwanted hsplit
  have hfew := hclose before between after message hwanted hsplit
  have hsize : config.receivedListSize ≤ listSize config.receivedListSize := by
    unfold listSize
    split <;> omega
  exact hfew.trans_le hsize

theorem RequestIdsDistinct.filter {operations : List Operation}
    (hids : RequestIdsDistinct config operations) :
    KeysDistinct (rules config) (arrivals config operations) := by
  intro message hmessage other hother hwanted hotherWanted hkey
  obtain ⟨hcorrespondent, hid⟩ := Prod.mk.inj hkey
  exact hids message hmessage other hother hwanted hotherWanted hcorrespondent hid

/-- A request that is not mistaken in the service is not mistaken in the filter. -/
theorem NotMistaken.filter {op : Operation} (hkeeps : NotMistaken config service op)
    {message : ℕ × Frame} (harrival : arrival config op = some message) :
    Unmistaken (rules config) (filterOf service) message := by
  rintro hwanted ⟨other, hother, hkey⟩
  obtain ⟨entry, hentry, rfl⟩ := List.mem_map.1 hother
  obtain ⟨hcorrespondent, hid⟩ := Prod.mk.inj hkey
  obtain ⟨request, hmem, hrequest, hsender, hsameId⟩ :=
    hkeeps message.1 message.2 harrival hwanted entry hentry hcorrespondent hid
  exact ⟨request.message, List.mem_map.2 ⟨request, hmem, rfl⟩, hrequest,
    Prod.ext hsender hsameId⟩

theorem filter_run {operations : List Operation} {last : Service}
    (hrun : Run (Guarded (NotMistaken config) (stepOf (perform config))) service operations last)
    (hrotates : ReceivedRotates config service) :
    Run (UnmistakenArrival (rules config)) (filterOf service) (arrivals config operations)
      (filterOf last) := by
  induction hrun with
  | nil => exact .nil _
  | cons hhead _ ih =>
      rename_i first middle last op rest _
      obtain ⟨hkeeps, hstep⟩ := hhead
      obtain ⟨hmiddle, hfollows⟩ := perform_follows hrotates hstep
      unfold arrivals
      cases harrival : arrival config op with
      | none =>
          rw [List.filterMap_cons_none harrival]
          rw [harrival] at hfollows
          have hsame : filterOf middle = filterOf first := hfollows
          rw [← hsame]
          exact ih hmiddle
      | some message =>
          rw [List.filterMap_cons_some harrival]
          rw [harrival] at hfollows
          exact .cons ⟨hkeeps.filter harrival, hfollows⟩ (ih hmiddle)

theorem init_rotates (config : Config) (msgId : ℕ) :
    ReceivedRotates config (.init config msgId) :=
  rotates_init (listSize_pos _) _

/-- Every request of another node of which a copy arrives is handed to `handle_request` exactly
once, in every run in which no request is mistaken for a message of another kind. -/
theorem request_handled_once (config : Config) (msgId : ℕ) (operations : List Operation)
    (last : Service)
    (hrun : Run (Guarded (NotMistaken config) (stepOf (perform config))) (.init config msgId)
      operations last)
    (hclose : RequestCopiesClose config operations) (hids : RequestIdsDistinct config operations)
    (correspondent : ℕ) (frame : Frame) (delivered : Bool)
    (harrives : .receive correspondent frame delivered ∈ operations)
    (hother : config.self ≠ correspondent) (hrequest : frame.isRequestMessage = true) :
    last.handled.count (correspondent, frame) = 1 := by
  have hstatus : frame.status = .success := by
    unfold Frame.isRequestMessage at hrequest
    exact (of_decide_eq_true hrequest).1
  have hmem : (correspondent, frame) ∈ arrivals config operations := by
    refine List.mem_filterMap.2 ⟨_, harrives, ?_⟩
    simp [arrival, hother, hstatus]
  have hchecked : ∀ message, (rules config).wanted message = true →
      (rules config).checked message = true := by
    intro message hwanted
    have hmessage : message.2.isRequestMessage = true := hwanted
    unfold Frame.isRequestMessage at hmessage
    exact decide_eq_true (of_decide_eq_true hmessage).1
  exact delivered_once hchecked (filter_run hrun (init_rotates config msgId)) hclose.filter
    hids.filter hmem hrequest

/-- Node 1 asks for something under message id 7. -/
def exampleRequest : Frame where
  status := .success
  packet := { type := .con, code := 1, msgId := 7, token := [], content := [] }

/-- Node 1 acknowledges message 7 of node 0. -/
def exampleAcknowledgement : Frame where
  status := .success
  packet := { type := .ack, code := 0, msgId := 7, token := [], content := [] }

/-- Node 0 with lists of the default size. -/
def exampleConfig : Config := { self := 0, sentListSize := 10, receivedListSize := 10 }

theorem request_handled_once_copy :
    ∃ last, perform exampleConfig (.init exampleConfig 7) (.receive 1 exampleRequest true) =
        some last ∧
      ((last.receive exampleConfig 1 exampleRequest true).handled).count (1, exampleRequest) = 1 := by
  refine ⟨_, rfl, ?_⟩
  apply request_handled_once exampleConfig 7
    [.receive 1 exampleRequest true, .receive 1 exampleRequest true] _ _ ?_ ?_ 1 exampleRequest
    true (by simp) (by decide) (by decide)
  · refine .cons ⟨?_, rfl⟩ (.cons ⟨?_, rfl⟩ (.nil _))
    · intro correspondent frame _ _ entry hentry
      cases hentry
    · intro correspondent frame harrival hrequest entry hentry hcorrespondent hid
      cases harrival
      exact ⟨entry, hentry, by
        obtain rfl : entry = _ := List.mem_singleton.1 hentry
        decide, hcorrespondent, hid⟩
  · intro before between after message _ hsplit
    have hlength := congrArg List.length hsplit
    simp only [List.length_append, List.length_cons] at hlength
    have hall : (arrivals exampleConfig
        [.receive 1 exampleRequest true, .receive 1 exampleRequest true]).length = 2 := by decide
    show between.length < 10
    omega
  · have hall : arrivals exampleConfig
        [.receive 1 exampleRequest true, .receive 1 exampleRequest true] =
        [(1, exampleRequest), (1, exampleRequest)] := by decide
    intro message hmessage other hother _ _ _ _
    rw [hall] at hmessage hother
    simp only [List.mem_cons, List.not_mem_nil, or_false, or_self] at hmessage hother
    rw [hmessage, hother]

/-- Node 0 sends message 7, node 1 acknowledges it and then sends its own request 7: the
request is taken for a copy of the acknowledgement. -/
theorem exists_request_not_handled :
    ¬ ∀ config msgId operations last,
      Run (stepOf (perform config)) (.init config msgId) operations last →
      RequestCopiesClose config operations → RequestIdsDistinct config operations →
      ∀ correspondent frame delivered, .receive correspondent frame delivered ∈ operations →
        config.self ≠ correspondent → frame.isRequestMessage = true →
        last.handled.count (correspondent, frame) = 1 := by
  intro hclaim
  have hall : arrivals exampleConfig [.sendGenMsgId 1 exampleRequest.packet true true,
      .receive 1 exampleAcknowledgement true, .receive 1 exampleRequest true] =
      [(1, exampleAcknowledgement), (1, exampleRequest)] := by decide
  have hcount := hclaim exampleConfig 7 [.sendGenMsgId 1 exampleRequest.packet true true,
    .receive 1 exampleAcknowledgement true, .receive 1 exampleRequest true] _
    (.cons rfl (.cons rfl (.cons rfl (.nil _)))) ?_ ?_ 1 exampleRequest true (by simp) (by decide)
    (by decide)
  · revert hcount
    decide
  · intro before between after message _ hsplit
    have hlength := congrArg List.length hsplit
    rw [hall] at hlength
    simp only [List.length_append, List.length_cons, List.length_nil] at hlength
    show between.length < 10
    omega
  · intro message hmessage other hother hrequest hotherRequest _ _
    rw [hall] at hmessage hother
    have honly : ∀ m ∈ [(1, exampleAcknowledgement), (1, exampleRequest)],
        m.2.isRequestMessage = true → m = (1, exampleRequest) := by decide
    rw [honly message hmessage hrequest, honly other hother hotherRequest]

end Wiselib.CoapService
