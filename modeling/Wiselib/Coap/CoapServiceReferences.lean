import Wiselib.Coap.CoapServiceRequests

/-!
# References stay with their message

Timers and received messages refer to sent messages by their slot.  A slot goes
to another message once as many messages were sent as the list has places, and
nothing takes the references back.  As long as a reference is only followed
before that, what is sent again is the message the reference was made for.

Acknowledgements are matched to sent messages by message id, so a message stays
unacknowledged when its acknowledgement is taken for a copy of another message
or for the acknowledgement of another one.
-/

namespace Wiselib.CoapService

open Transition SlotQueue

variable {config : Config} {service : Service}

/-! ## The law of repeated frames -/

/-- A frame sent again for a timer is the message of the timer, confirmable and not yet
acknowledged; one sent again because of a received message was sent in reply to it before. -/
def Lawful (history : List SentRecord) : Transmission → Prop
  | .retransmission serial receiver packet acknowledged =>
      acknowledged = false ∧ packet.type = .con ∧
        ∃ record, history[serial]? = some record ∧ record.receiver = receiver ∧
          record.packet = packet
  | .repetition serial receiver packet trigger =>
      ∃ record, history[serial]? = some record ∧ record.receiver = receiver ∧
        record.packet = packet ∧ record.inReplyTo = some trigger

/-- Message `serial` is among the last `sent_list_size` messages, so it still has its slot. -/
def Live (config : Config) (service : Service) (serial : ℕ) : Prop :=
  service.history.length ≤ serial + listSize config.sentListSize

/-- The timer of a message that is sent again still refers to it. -/
def TimerLive (config : Config) (service : Service) (timer : Timer) : Prop :=
  timer.kind = .retransmitTimeout →
    (service.sent.element timer.slot).ackReceived = false →
    (service.sent.element timer.slot).responseReceived = false → Live config service timer.serial

/-- An acknowledgement for a message whose timer is set reaches this message: it is not taken
for a copy of something received before, nor for the acknowledgement of another message. -/
def AcknowledgementReaches (config : Config) (service : Service) (correspondent : ℕ)
    (frame : Frame) : Prop :=
  frame.packet.type = .ack → ∀ timer ∈ service.timers, timer.kind = .retransmitTimeout →
    timer.serial ∈ Service.acknowledgedBy service.history correspondent frame.packet.msgId →
    Live config service timer.serial →
    (service.sent.element timer.slot).ackReceived = false →
    service.findReceivedById correspondent frame.packet.msgId = none ∧
      service.findSentById correspondent frame.packet.msgId = some timer.slot

/-- The entry at `slot`, found for a frame, refers to messages that still have their slots, and
is one of the same frame, as far as something is sent again for it. -/
def DuplicateLive (config : Config) (service : Service) (slot : ℕ) (frame : Frame)
    (delivered : Bool) : Prop :=
  (frame.packet.type = .con → ∀ reference,
    (service.received.element slot).ackSent = some reference →
    Live config service reference.serial ∧ (service.received.element slot).frame = frame) ∧
  ∀ acked : Service,
    acked = (if frame.packet.type = .con then service.ack config slot frame delivered
      else service) →
    ∀ reference, (acked.received.element slot).responseSent = some reference →
      (acked.sent.element reference.slot).message.type ≠ .ack →
      Live config acked reference.serial ∧ (acked.received.element slot).frame = frame

/-- The references an operation follows are live. -/
def LiveReferences (config : Config) (service : Service) : Operation → Prop
  | .timeout timer _ => TimerLive config service timer
  | .receive correspondent frame delivered =>
      config.self ≠ correspondent → frame.status = .success →
        AcknowledgementReaches config service correspondent frame ∧
          ∀ slot, service.findReceivedById correspondent frame.packet.msgId = some slot →
            DuplicateLive config service slot frame delivered
  | _ => True

/-! ## The invariant -/

/-- A reference of a received message: it was made for a reply to this message. -/
structure RefersTo (config : Config) (history : List SentRecord) (message : ℕ × Frame)
    (reference : Reference) : Prop where
  slot : reference.slot = reference.serial % listSize config.sentListSize
  record : ∃ record, history[reference.serial]? = some record ∧ record.receiver = message.1 ∧
    record.inReplyTo = some message

/-- Slots, timers and references are right, as far as they are live. -/
structure ReferencesRight (config : Config) (service : Service) : Prop where
  sentRotates : Rotates (listSize config.sentListSize) service.history.length service.sent
  /-- A live message lies in its slot. -/
  sentRight : ∀ serial record, service.history[serial]? = some record →
    Live config service serial →
    (service.sent.element (serial % listSize config.sentListSize)).message = record.packet ∧
      (service.sent.element (serial % listSize config.sentListSize)).correspondent =
        record.receiver
  timersRight : ∀ timer ∈ service.timers, timer.kind = .retransmitTimeout →
    timer.slot = timer.serial % listSize config.sentListSize ∧
      ∃ record, service.history[timer.serial]? = some record ∧ record.packet.type = .con
  acknowledgedRight : ∀ serial ∈ service.acknowledged, serial < service.history.length
  /-- A message whose timer is set knows of its acknowledgement. -/
  ackReceivedRight : ∀ timer ∈ service.timers, timer.kind = .retransmitTimeout →
    Live config service timer.serial → timer.serial ∈ service.acknowledged →
    (service.sent.element timer.slot).ackReceived = true
  referencesRight : ∀ slot reference, (service.received.element slot).ackSent = some reference ∨
    (service.received.element slot).responseSent = some reference →
    RefersTo config service.history (service.received.element slot).message reference
  lawful : ∀ transmission ∈ service.transmissions, Lawful service.history transmission

theorem init_referencesRight (config : Config) (msgId : ℕ) :
    ReferencesRight config (.init config msgId) where
  sentRotates := rotates_init (listSize_pos _) _
  sentRight := by
    intro serial record hrecord
    simp [Service.init] at hrecord
  timersRight := by simp [Service.init]
  acknowledgedRight := by simp [Service.init]
  ackReceivedRight := by simp [Service.init]
  referencesRight := by
    intro slot reference hreference
    simp [Service.init, Queue.init] at hreference
  lawful := by simp [Service.init]

/-! ## Changes in place -/

theorem getElem?_history_append {history : List SentRecord} {serial : ℕ} {record : SentRecord}
    (hrecord : history[serial]? = some record) (last : SentRecord) :
    (history ++ [last])[serial]? = some record := by
  have hlt : serial < history.length := (List.getElem?_eq_some_iff.1 hrecord).1
  rw [List.getElem?_append_left hlt]
  exact hrecord

theorem Lawful.append {history : List SentRecord} {transmission : Transmission}
    (hlawful : Lawful history transmission) (last : SentRecord) :
    Lawful (history ++ [last]) transmission := by
  cases transmission with
  | retransmission serial receiver packet acknowledged =>
      obtain ⟨hack, hcon, record, hrecord, hrest⟩ := hlawful
      exact ⟨hack, hcon, record, getElem?_history_append hrecord last, hrest⟩
  | repetition serial receiver packet trigger =>
      obtain ⟨record, hrecord, hrest⟩ := hlawful
      exact ⟨record, getElem?_history_append hrecord last, hrest⟩

theorem RefersTo.append {history : List SentRecord} {message : ℕ × Frame} {reference : Reference}
    (hrefers : RefersTo config history message reference) (last : SentRecord) :
    RefersTo config (history ++ [last]) message reference := by
  obtain ⟨hslot, record, hrecord, hrest⟩ := hrefers
  exact ⟨hslot, record, getElem?_history_append hrecord last, hrest⟩

theorem ReferencesRight.transmit (hright : ReferencesRight config service)
    {transmission : Transmission} (hlawful : Lawful service.history transmission) :
    ReferencesRight config
      { service with transmissions := service.transmissions ++ [transmission] } :=
  { hright with
    lawful := by
      intro other hother
      rcases List.mem_append.1 hother with hold | hlast
      · exact hright.lawful other hold
      · rw [List.mem_singleton.1 hlast]
        exact hlawful }

/-- An entry of `sent_` changes, but not its message, and it does not forget its
acknowledgement. -/
theorem ReferencesRight.modifySent (hright : ReferencesRight config service) (slot : ℕ)
    (change : SentMessage → SentMessage) (hmessage : ∀ entry, (change entry).message = entry.message)
    (hcorrespondent : ∀ entry, (change entry).correspondent = entry.correspondent)
    (hack : ∀ entry, entry.ackReceived = true → (change entry).ackReceived = true) :
    ReferencesRight config { service with sent := service.sent.modify slot change } :=
  { hright with
    sentRotates := hright.sentRotates.modify slot change
    sentRight := by
      intro serial record hrecord hlive
      have hold := hright.sentRight serial record hrecord hlive
      dsimp only
      rw [Queue.modify_element]
      split
      next heq =>
        rw [heq] at hold
        rw [hmessage, hcorrespondent]
        exact hold
      next => exact hold
    ackReceivedRight := by
      intro timer htimer hkind hlive hmem
      have hold := hright.ackReceivedRight timer htimer hkind hlive hmem
      dsimp only
      rw [Queue.modify_element]
      split
      next heq => exact hack _ (heq ▸ hold)
      next => exact hold }

theorem ReferencesRight.modifyReceived (hright : ReferencesRight config service) (slot : ℕ)
    {change : ReceivedMessage → ReceivedMessage}
    (hmessage : ∀ entry, (change entry).message = entry.message)
    (hrefers : ∀ reference,
      (change (service.received.element slot)).ackSent = some reference ∨
        (change (service.received.element slot)).responseSent = some reference →
      RefersTo config service.history (service.received.element slot).message reference) :
    ReferencesRight config { service with received := service.received.modify slot change } :=
  { hright with
    referencesRight := by
      intro other reference hreference
      dsimp only at hreference ⊢
      rw [Queue.modify_element] at hreference ⊢
      split at hreference
      next heq =>
        rw [if_pos heq, hmessage]
        exact hrefers reference hreference
      next hne =>
        rw [if_neg hne]
        exact hright.referencesRight other reference hreference }

theorem ReferencesRight.erase (hright : ReferencesRight config service) (timer : Timer) :
    ReferencesRight config { service with timers := service.timers.erase timer } :=
  { hright with
    timersRight := fun other hother => hright.timersRight other (List.mem_of_mem_erase hother)
    ackReceivedRight := fun other hother =>
      hright.ackReceivedRight other (List.mem_of_mem_erase hother) }

/-! ## Sending -/

theorem live_slot_ne {serial : ℕ}
    (hserial : serial < service.history.length)
    (hlive : service.history.length + 1 ≤ serial + listSize config.sentListSize) :
    serial % listSize config.sentListSize ≠
      service.history.length % listSize config.sentListSize :=
  slot_fresh (mem_recent.2 (by omega))

theorem ReferencesRight.sendCoapAsIs (hright : ReferencesRight config service) (receiver : ℕ)
    (message : Packet) (hasCallback : Bool) (inReplyTo : Option (ℕ × Frame)) (delivered : Bool) :
    ReferencesRight config
        (service.sendCoapAsIs config receiver message hasCallback inReplyTo delivered).2 ∧
      ∀ reference,
        (service.sendCoapAsIs config receiver message hasCallback inReplyTo delivered).1 =
          some reference →
        reference.slot = reference.serial % listSize config.sentListSize ∧
          (service.sendCoapAsIs config receiver message hasCallback inReplyTo
            delivered).2.history[reference.serial]? =
            some { receiver := receiver, packet := message, inReplyTo := inReplyTo } := by
  unfold Service.sendCoapAsIs
  split
  next =>
    obtain ⟨hrotates, helement⟩ := hright.sentRotates.push
      { message := message
        correspondent := receiver
        retransmitCount := 0
        ackReceived := false
        responseReceived := false
        hasCallback := hasCallback }
    have horder := hright.sentRotates.order_push
      { message := message
        correspondent := receiver
        retransmitCount := 0
        ackReceived := false
        responseReceived := false
        hasCallback := hasCallback }
    dsimp only
    generalize service.sent.push (listSize config.sentListSize) _ = sent
      at hrotates helement horder ⊢
    have hfront : Service.front sent =
        service.history.length % listSize config.sentListSize := by
      unfold Service.front
      rw [horder]
      rfl
    constructor
    · constructor
      · -- sentRotates
        dsimp only
        rw [List.length_append]
        exact hrotates
      · intro serial record hrecord hlive
        unfold Live at hlive
        simp only [List.length_append, List.length_singleton] at hlive hrecord ⊢
        rw [helement]
        rcases Nat.lt_or_ge serial service.history.length with hlt | hge
        · rw [List.getElem?_append_left hlt] at hrecord
          rw [Function.update_of_ne (live_slot_ne hlt hlive)]
          exact hright.sentRight serial record hrecord (by unfold Live; omega)
        · have hlength := (List.getElem?_eq_some_iff.1 hrecord).1
          simp only [List.length_append, List.length_singleton] at hlength
          obtain rfl : serial = service.history.length := by omega
          rw [List.getElem?_concat_length, Option.some.injEq] at hrecord
          rw [Function.update_self, ← hrecord]
          exact ⟨rfl, rfl⟩
      · intro timer htimer hkind
        dsimp only at htimer ⊢
        have hold : timer ∈ service.timers →
            timer.slot = timer.serial % listSize config.sentListSize ∧
              ∃ record, (service.history ++ [⟨receiver, message, inReplyTo⟩])[timer.serial]? =
                some record ∧ record.packet.type = .con := by
          intro hmem
          obtain ⟨hslot, record, hrecord, hcon⟩ := hright.timersRight timer hmem hkind
          exact ⟨hslot, record, getElem?_history_append hrecord _, hcon⟩
        split at htimer
        next hcon =>
          rcases List.mem_cons.1 htimer with rfl | hmem
          · exact ⟨hfront, _, List.getElem?_concat_length, hcon⟩
          · exact hold hmem
        next => exact hold htimer
      · intro serial hserial
        have hlt := hright.acknowledgedRight serial hserial
        simp only [List.length_append, List.length_singleton]
        omega
      · intro timer htimer hkind hlive hmem
        unfold Live at hlive
        simp only [List.length_append, List.length_singleton] at hlive
        have hlt := hright.acknowledgedRight timer.serial hmem
        dsimp only at htimer hmem ⊢
        have hold : timer ∈ service.timers → (sent.element timer.slot).ackReceived = true := by
          intro htimers
          obtain ⟨hslot, -⟩ := hright.timersRight timer htimers hkind
          rw [helement, hslot, Function.update_of_ne (live_slot_ne hlt hlive), ← hslot]
          exact hright.ackReceivedRight timer htimers hkind (by unfold Live; omega) hmem
        split at htimer
        next =>
          rcases List.mem_cons.1 htimer with rfl | htimers
          · exact absurd hlt (Nat.lt_irrefl _)
          · exact hold htimers
        next => exact hold htimer
      · intro slot reference hreference
        exact (hright.referencesRight slot reference hreference).append _
      · intro transmission htransmission
        exact (hright.lawful transmission htransmission).append _
    · intro reference hreference
      obtain rfl := Option.some.inj hreference
      exact ⟨hfront, List.getElem?_concat_length⟩
  next => exact ⟨hright, fun reference hreference => by cases hreference⟩

theorem sendCoapAsIs_received (config : Config) (service : Service) (receiver : ℕ)
    (message : Packet) (hasCallback : Bool) (inReplyTo : Option (ℕ × Frame)) (delivered : Bool) :
    (service.sendCoapAsIs config receiver message hasCallback inReplyTo delivered).2.received =
      service.received := by
  unfold Service.sendCoapAsIs
  split <;> rfl

/-- The result of sending a reply to the entry at `slot`: the references of the entry stay
right, and the one to the reply is right. -/
structure Replied (config : Config) (slot : ℕ) (sent : Option Reference) (next : Service) :
    Prop where
  right : ReferencesRight config next
  refers : ∀ reference, sent = some reference →
    RefersTo config next.history (next.received.element slot).message reference

theorem ReferencesRight.replied (hright : ReferencesRight config service) (slot : ℕ)
    (packet : Packet) (delivered : Bool) :
    Replied config slot
      (service.sendCoapAsIs config (service.received.element slot).correspondent packet true
        (some (service.received.element slot).message) delivered).1
      (service.sendCoapAsIs config (service.received.element slot).correspondent packet true
        (some (service.received.element slot).message) delivered).2 := by
  obtain ⟨hnext, hreference⟩ := hright.sendCoapAsIs
    (service.received.element slot).correspondent packet true
    (some (service.received.element slot).message) delivered
  refine ⟨hnext, fun reference hsent => ?_⟩
  obtain ⟨hslot, hrecord⟩ := hreference reference hsent
  rw [sendCoapAsIs_received]
  exact ⟨hslot, _, hrecord, rfl, rfl⟩

theorem ReferencesRight.setMsgId (hright : ReferencesRight config service) (msgId : ℕ) :
    ReferencesRight config { service with msgId := msgId } :=
  { hright with }

theorem ReferencesRight.repliedGenMsgId (hright : ReferencesRight config service) (slot : ℕ)
    (packet : Packet) (delivered : Bool) :
    Replied config slot
      (service.sendCoapGenMsgId config (service.received.element slot).correspondent packet true
        (some (service.received.element slot).message) delivered).1
      (service.sendCoapGenMsgId config (service.received.element slot).correspondent packet true
        (some (service.received.element slot).message) delivered).2 :=
  (hright.setMsgId ((service.msgId + 1) % 65536)).replied slot
    { packet with msgId := service.msgId } delivered

theorem Replied.setAckSent {slot : ℕ} {sent : Option Reference} {next : Service}
    (hreplied : Replied config slot sent next) :
    ReferencesRight config { next with
      received := next.received.modify slot fun entry => { entry with ackSent := sent } } := by
  refine hreplied.right.modifyReceived slot (fun _ => ?_) ?_
  · rfl
  rintro reference (hack | hresponse)
  · exact hreplied.refers reference hack
  · exact hreplied.right.referencesRight slot reference (.inr hresponse)

theorem Replied.setResponseSent {slot : ℕ} {sent : Option Reference} {next : Service}
    (hreplied : Replied config slot sent next) :
    ReferencesRight config { next with
      received := next.received.modify slot fun entry => { entry with responseSent := sent } } := by
  refine hreplied.right.modifyReceived slot (fun _ => ?_) ?_
  · rfl
  rintro reference (hack | hresponse)
  · exact hreplied.right.referencesRight slot reference (.inl hack)
  · exact hreplied.refers reference hresponse

theorem Replied.setBoth {slot : ℕ} {sent : Option Reference} {next : Service}
    (hreplied : Replied config slot sent next) :
    ReferencesRight config { next with
      received := next.received.modify slot fun entry =>
        { entry with ackSent := sent, responseSent := sent } } := by
  refine hreplied.right.modifyReceived slot (fun _ => ?_) ?_
  · rfl
  rintro reference (hack | hresponse)
  · exact hreplied.refers reference hack
  · exact hreplied.refers reference hresponse

theorem ReferencesRight.lawful_repetition (hright : ReferencesRight config service) {slot : ℕ}
    {reference : Reference} {trigger : Frame}
    (hreference : (service.received.element slot).ackSent = some reference ∨
      (service.received.element slot).responseSent = some reference)
    (hlive : Live config service reference.serial)
    (htrigger : (service.received.element slot).frame = trigger) :
    Lawful service.history (.repetition reference.serial
      (service.received.element slot).correspondent (service.sent.element reference.slot).message
      ((service.received.element slot).correspondent, trigger)) := by
  obtain ⟨hslot, record, hrecord, hreceiver, hreply⟩ :=
    hright.referencesRight slot reference hreference
  obtain ⟨hmessage, -⟩ := hright.sentRight reference.serial record hrecord hlive
  refine ⟨record, hrecord, hreceiver, ?_, ?_⟩
  · rw [hslot, hmessage]
  · rw [hreply, ← htrigger]
    rfl

theorem ReferencesRight.ack (hright : ReferencesRight config service) {slot : ℕ}
    {trigger : Frame} (delivered : Bool)
    (hrepeat : ∀ reference, (service.received.element slot).ackSent = some reference →
      Live config service reference.serial ∧ (service.received.element slot).frame = trigger) :
    ReferencesRight config (service.ack config slot trigger delivered) := by
  unfold Service.ack
  dsimp only
  split
  next reference hreference =>
    obtain ⟨hlive, htrigger⟩ := hrepeat reference hreference
    exact hright.transmit (hright.lawful_repetition (.inl hreference) hlive htrigger)
  next => exact (hright.replied slot _ delivered).setAckSent

theorem ReferencesRight.reply (hright : ReferencesRight config service) (slot : ℕ)
    (packet : Packet) (delivered : Bool) :
    ReferencesRight config (service.reply config slot packet delivered) := by
  unfold Service.reply
  dsimp only
  split
  · split
    · have hreplied := hright.replied slot { packet with
        token := (service.received.element slot).frame.packet.token
        type := .ack
        msgId := (service.received.element slot).frame.packet.msgId } delivered
      split
      next heq =>
        rw [heq] at hreplied
        exact hreplied.setBoth
      next heq =>
        rw [heq] at hreplied
        exact hreplied.right
    · have hreplied := hright.repliedGenMsgId slot { packet with
        token := (service.received.element slot).frame.packet.token
        type := (service.received.element slot).frame.packet.type } delivered
      split
      next heq =>
        rw [heq] at hreplied
        exact hreplied.setResponseSent
      next heq =>
        rw [heq] at hreplied
        exact hreplied.right
  · exact hright

/-! ## Receiving -/

theorem ReferencesRight.queueReceived (hright : ReferencesRight config service)
    (hrotates : ReceivedRotates config service) (correspondent : ℕ) (frame : Frame) :
    ReferencesRight config (service.queueReceived config correspondent frame) :=
  { hright with
    referencesRight := by
      intro slot reference hreference
      unfold Service.queueReceived at hreference ⊢
      dsimp only at hreference ⊢
      rw [(hrotates.push _).2] at hreference ⊢
      by_cases heq : slot = service.receivedCount % listSize config.receivedListSize
      · subst heq
        rw [Function.update_self] at hreference
        rcases hreference with hack | hresponse
        · cases hack
        · cases hresponse
      · rw [Function.update_of_ne heq] at hreference ⊢
        exact hright.referencesRight slot reference hreference }

theorem ReferencesRight.handleRequest (hright : ReferencesRight config service) (slot serial : ℕ) :
    ReferencesRight config (service.handleRequest slot serial) := by
  -- the new timer is none for a retransmission
  have htimers : ∀ timer, timer.kind = .retransmitTimeout →
      timer ∈ (service.handleRequest slot serial).timers → timer ∈ service.timers := by
    intro timer hkind hmem
    unfold Service.handleRequest at hmem
    dsimp only at hmem
    split at hmem
    · rcases List.mem_cons.1 hmem with rfl | hold
      · cases hkind
      · exact hold
    · exact hmem
  exact
    { hright with
      timersRight := fun timer hmem hkind => hright.timersRight timer (htimers timer hkind hmem) hkind
      ackReceivedRight := fun timer hmem hkind =>
        hright.ackReceivedRight timer (htimers timer hkind hmem) hkind }

theorem ReferencesRight.handleResponse (hright : ReferencesRight config service) (slot : ℕ)
    (candidate : Option ℕ) (delivered : Bool)
    (hfresh : (service.received.element slot).ackSent = none) :
    ReferencesRight config (service.handleResponse config slot candidate delivered) := by
  unfold Service.handleResponse
  dsimp only
  split
  · split
    · exact (hright.replied slot _ delivered).setResponseSent
    · exact hright
  next request _ =>
    have hacked : ReferencesRight config
        (if (service.received.element slot).frame.packet.type = .con then
          service.ack config slot (service.received.element slot).frame delivered
          else service) := by
      split
      · apply hright.ack delivered
        intro reference hreference
        rw [hfresh] at hreference
        cases hreference
      · exact hright
    generalize (if (service.received.element slot).frame.packet.type = .con then
      service.ack config slot (service.received.element slot).frame delivered
      else service) = acked at hacked ⊢
    split
    · exact hacked.modifySent request _ (fun _ => rfl) (fun _ => rfl) fun _ hack => hack
    · exact hacked

theorem ReferencesRight.receiveDuplicate (hright : ReferencesRight config service) {slot : ℕ}
    {frame : Frame} {delivered : Bool} (hlive : DuplicateLive config service slot frame delivered) :
    ReferencesRight config (service.receiveDuplicate config slot frame delivered) := by
  have hacked : ReferencesRight config
      (if frame.packet.type = .con then service.ack config slot frame delivered else service) := by
    split
    next hcon => exact hright.ack delivered (hlive.1 hcon)
    next => exact hright
  have hresponse := hlive.2 _ rfl
  unfold Service.receiveDuplicate
  dsimp only
  generalize (if frame.packet.type = .con then service.ack config slot frame delivered
    else service) = acked at hacked hresponse ⊢
  split
  next reference hreference =>
    split
    next htype =>
      obtain ⟨hrefLive, hframe⟩ := hresponse reference hreference htype
      exact hacked.transmit (hacked.lawful_repetition (.inr hreference) hrefLive hframe)
    next => exact hacked
  next => exact hacked

theorem ReferencesRight.acknowledge (hright : ReferencesRight config service)
    (correspondent : ℕ) (frame : Frame)
    (hknown : ∀ timer ∈ service.timers, timer.kind = .retransmitTimeout →
      timer.serial ∈ Service.acknowledgedBy service.history correspondent frame.packet.msgId →
      Live config service timer.serial →
      (service.sent.element timer.slot).ackReceived = true) :
    ReferencesRight config { service with
      acknowledged := service.acknowledged ++
        Service.acknowledgedBy service.history correspondent frame.packet.msgId } :=
  { hright with
    acknowledgedRight := by
      intro serial hserial
      rcases List.mem_append.1 hserial with hold | hnew
      · exact hright.acknowledgedRight serial hold
      · exact List.mem_range.1 (List.mem_of_mem_filter hnew)
    ackReceivedRight := by
      intro timer htimer hkind hlive hmem
      rcases List.mem_append.1 hmem with hold | hnew
      · exact hright.ackReceivedRight timer htimer hkind hlive hold
      · exact hknown timer htimer hkind hnew hlive }

theorem noteAcknowledgement_of_ne {correspondent : ℕ} {frame : Frame}
    (htype : frame.packet.type ≠ .ack) :
    service.noteAcknowledgement correspondent frame = service := by
  unfold Service.noteAcknowledgement
  rw [if_neg fun hboth => htype hboth.2]

theorem ReferencesRight.receiveNew (hright : ReferencesRight config service)
    (hrotates : ReceivedRotates config service) (correspondent : ℕ) {frame : Frame}
    (delivered : Bool) (htype : frame.packet.type ≠ .ack) :
    ReferencesRight config (service.receiveNew config correspondent frame delivered) := by
  have hqueued := hright.queueReceived hrotates correspondent frame
  have hfresh := congrArg ReceivedMessage.ackSent (front_queueReceived hrotates correspondent frame)
  unfold Service.receiveNew
  dsimp only
  split
  · exact hqueued
  next hack => exact absurd hack htype
  all_goals
    split
    · exact hqueued.handleRequest _ _
    · split
      · exact hqueued.handleResponse _ _ _ hfresh
      · exact hqueued

theorem ReferencesRight.receiveAcknowledgement (hright : ReferencesRight config service)
    (hrotates : ReceivedRotates config service) {correspondent : ℕ} {frame : Frame}
    (delivered : Bool) (hstatus : frame.status = .success) (htype : frame.packet.type = .ack)
    (hreaches : AcknowledgementReaches config service correspondent frame) :
    ReferencesRight config
      ((service.noteAcknowledgement correspondent frame).receiveNew config correspondent frame
        delivered) := by
  unfold Service.noteAcknowledgement
  rw [if_pos ⟨hstatus, htype⟩]
  unfold Service.receiveNew
  simp only [htype]
  split
  next request hrequest =>
    have hfound : service.findSentById correspondent frame.packet.msgId = some request := hrequest
    -- the message found is the one the acknowledgement is for, or that one knew before
    have hmodified := hright.modifySent request
      (fun entry => { entry with ackReceived := true }) (fun _ => rfl) (fun _ => rfl) fun _ _ => rfl
    have hnoted := hmodified.acknowledge correspondent frame (by
      intro timer htimer hkind hmem hlive
      dsimp only
      rw [Queue.modify_element]
      split
      next => rfl
      next hne =>
        by_contra hnot
        obtain ⟨-, hslot⟩ := hreaches htype timer htimer hkind hmem hlive (by simpa using hnot)
        rw [hfound] at hslot
        exact hne (Option.some.inj hslot).symm)
    have hqueued := hnoted.queueReceived hrotates correspondent frame
    split
    · apply hqueued.handleResponse
      exact congrArg ReceivedMessage.ackSent (front_queueReceived hrotates correspondent frame)
    · exact hqueued
  next hnone =>
    have hfound : service.findSentById correspondent frame.packet.msgId = none := hnone
    have hnoted := hright.acknowledge correspondent frame (by
      intro timer htimer hkind hmem hlive
      by_contra hnot
      obtain ⟨-, hslot⟩ := hreaches htype timer htimer hkind hmem hlive (by simpa using hnot)
      rw [hfound] at hslot
      cases hslot)
    exact hnoted.queueReceived hrotates correspondent frame

theorem ReferencesRight.receive (hright : ReferencesRight config service)
    (hrotates : ReceivedRotates config service) {correspondent : ℕ} {frame : Frame}
    {delivered : Bool}
    (hlive : LiveReferences config service (.receive correspondent frame delivered)) :
    ReferencesRight config (service.receive config correspondent frame delivered) := by
  unfold Service.receive
  split
  · exact hright
  next hself =>
    split
    next hstatus =>
      obtain ⟨hreaches, hduplicate⟩ := hlive hself hstatus
      dsimp only
      by_cases htype : frame.packet.type = .ack
      · split
        next => exact hright.receiveAcknowledgement hrotates delivered hstatus htype hreaches
        next slot hsome =>
          have hfound : service.findReceivedById correspondent frame.packet.msgId = some slot := by
            unfold Service.noteAcknowledgement at hsome
            rw [if_pos ⟨hstatus, htype⟩] at hsome
            exact hsome
          have hnoted := hright.acknowledge correspondent frame (by
            intro timer htimer hkind hmem hlive'
            by_contra hnot
            obtain ⟨hnone, -⟩ := hreaches htype timer htimer hkind hmem hlive' (by simpa using hnot)
            rw [hfound] at hnone
            cases hnone)
          unfold Service.noteAcknowledgement
          rw [if_pos ⟨hstatus, htype⟩]
          apply hnoted.receiveDuplicate
          obtain ⟨-, hresponse⟩ := hduplicate slot hfound
          have hnotCon : frame.packet.type ≠ .con := by simp [htype]
          rw [if_neg hnotCon] at hresponse
          refine ⟨fun hcon => absurd hcon hnotCon, ?_⟩
          rw [if_neg hnotCon]
          rintro acked rfl
          exact hresponse service rfl
      · rw [noteAcknowledgement_of_ne htype]
        split
        next => exact hright.receiveNew hrotates correspondent delivered htype
        next slot hsome => exact hright.receiveDuplicate (hduplicate slot hsome)
    · exact hright
    · exact hright
    · exact hright.queueReceived hrotates correspondent frame

/-! ## Timers -/

theorem ReferencesRight.setTimer (hright : ReferencesRight config service) {timer : Timer}
    (hslot : timer.slot = timer.serial % listSize config.sentListSize)
    (hrecord : ∃ record, service.history[timer.serial]? = some record ∧ record.packet.type = .con)
    (hunknown : timer.serial ∉ service.acknowledged) :
    ReferencesRight config { service with timers := timer :: service.timers } :=
  { hright with
    timersRight := by
      intro other hother hkind
      rcases List.mem_cons.1 hother with rfl | hold
      · exact ⟨hslot, hrecord⟩
      · exact hright.timersRight other hold hkind
    ackReceivedRight := by
      intro other hother hkind hlive hmem
      rcases List.mem_cons.1 hother with rfl | hold
      · exact absurd hmem hunknown
      · exact hright.ackReceivedRight other hold hkind hlive hmem }

theorem ReferencesRight.retransmitTimeout (hright : ReferencesRight config service)
    {timer : Timer} {delivered : Bool} (htimer : timer ∈ service.timers)
    (hkind : timer.kind = .retransmitTimeout) (hlive : TimerLive config service timer) :
    ReferencesRight config (service.retransmitTimeout timer delivered) := by
  obtain ⟨hslot, record, hrecord, hcon⟩ := hright.timersRight timer htimer hkind
  unfold Service.retransmitTimeout
  dsimp only
  split
  next hsends =>
    obtain ⟨hack, hresponse⟩ := hsends
    have hserial := hlive hkind hack hresponse
    obtain ⟨hmessage, hreceiver⟩ := hright.sentRight timer.serial record hrecord hserial
    rw [← hslot] at hmessage hreceiver
    have hunknown : timer.serial ∉ service.acknowledged := by
      intro hmem
      rw [hright.ackReceivedRight timer htimer hkind hserial hmem] at hack
      cases hack
    have hlawful : Lawful service.history (.retransmission timer.serial
        (service.sent.element timer.slot).correspondent (service.sent.element timer.slot).message
        (decide (timer.serial ∈ service.acknowledged))) := by
      refine ⟨by simpa using hunknown, ?_, record, hrecord, hreceiver.symm, hmessage.symm⟩
      rw [hmessage]
      exact hcon
    have hsent := (hright.erase timer).transmit hlawful
    split
    · have hcounted := hsent.modifySent timer.slot
        (fun entry => { entry with retransmitCount := entry.retransmitCount + 1 }) (fun _ => rfl) (fun _ => rfl)
        fun _ hold => hold
      split
      · exact hcounted.setTimer hslot ⟨record, hrecord, hcon⟩ hunknown
      · exact hcounted
    · exact hsent.setTimer hslot ⟨record, hrecord, hcon⟩ hunknown
  next => exact hright.erase timer

theorem ReferencesRight.ackTimeout (hright : ReferencesRight config service) (timer : Timer)
    (delivered : Bool) : ReferencesRight config (service.ackTimeout config timer delivered) := by
  unfold Service.ackTimeout
  dsimp only
  split
  next hnone =>
    apply (hright.erase timer).ack delivered
    intro reference hreference
    rw [hnone] at hreference
    cases hreference
  next => exact hright.erase timer

/-! ## Runs -/

theorem perform_referencesRight (hright : ReferencesRight config service)
    (hrotates : ReceivedRotates config service) {op : Operation} {next : Service}
    (hlive : LiveReferences config service op) (hstep : perform config service op = some next) :
    ReferencesRight config next := by
  cases op with
  | sendAsIs receiver message hasCallback delivered =>
      cases hstep
      exact (hright.sendCoapAsIs _ _ _ _ _).1
  | sendGenMsgId receiver message hasCallback delivered =>
      cases hstep
      exact ((hright.setMsgId _).sendCoapAsIs _ _ _ _ _).1
  | reply slot packet delivered =>
      cases hstep
      exact hright.reply slot packet delivered
  | receive correspondent frame delivered =>
      cases hstep
      exact hright.receive hrotates hlive
  | timeout timer delivered =>
      simp only [perform] at hstep
      split at hstep
      next hset =>
        split at hstep
        next hkind =>
          cases hstep
          exact hright.retransmitTimeout hset hkind hlive
        next =>
          cases hstep
          exact hright.ackTimeout timer delivered
      next => cases hstep

/-- In every run in which references are followed only while they are live, every frame that is
sent again is sent lawfully. -/
theorem transmissions_lawful (config : Config) (msgId : ℕ) (operations : List Operation)
    (last : Service)
    (hrun : Run (Guarded (LiveReferences config) (stepOf (perform config))) (.init config msgId)
      operations last) : ∀ transmission ∈ last.transmissions, Lawful last.history transmission := by
  have hstep : ∀ state op next,
      (ReferencesRight config state ∧ ReceivedRotates config state) →
      Guarded (LiveReferences config) (stepOf (perform config)) state op next →
      (ReferencesRight config next ∧ ReceivedRotates config next) := by
    rintro state op next ⟨hright, hrotates⟩ ⟨hlive, hperform⟩
    exact ⟨perform_referencesRight hright hrotates hlive hperform,
      (perform_follows hrotates hperform).1⟩
  have hlast := hrun.invariant hstep ⟨init_referencesRight config msgId, init_rotates config msgId⟩
  exact hlast.1.lawful

/-- The timer of the first message sent. -/
def firstTimer : Timer := { kind := .retransmitTimeout, slot := 0, serial := 0 }

/-- A message that needs no acknowledgement. -/
def exampleNotice : Packet :=
  { type := .non, code := 1, msgId := 0, token := [], content := [] }

/-- A request is sent and sent again. -/
theorem transmissions_lawful_request :
    ∃ last, Run (stepOf (perform exampleConfig)) (.init exampleConfig 7)
        [.sendGenMsgId 1 exampleRequest.packet true true, .timeout firstTimer true] last ∧
      last.transmissions.length = 1 ∧
      ∀ transmission ∈ last.transmissions, Lawful last.history transmission := by
  refine ⟨_, .cons rfl (.cons rfl (.nil _)), by decide, ?_⟩
  apply transmissions_lawful exampleConfig 7
    [.sendGenMsgId 1 exampleRequest.packet true true, .timeout firstTimer true]
  refine .cons ⟨trivial, rfl⟩ (.cons ⟨fun _ _ _ => ?_, rfl⟩ (.nil _))
  show (_ : ℕ) ≤ _
  decide

/-- After a request to node 1, ten messages that need no acknowledgement go to node 2, the
list having ten places; then the timer of the request runs out. -/
def overtakenRequest : List Operation :=
  .sendGenMsgId 1 exampleRequest.packet true true ::
    (List.replicate 10 (.sendGenMsgId 2 exampleNotice true true) ++ [.timeout firstTimer true])

/-- The timer of the request sends a message to node 2 again. -/
theorem exists_transmission_not_lawful :
    ¬ ∀ config msgId operations last,
      Run (stepOf (perform config)) (.init config msgId) operations last →
      ∀ transmission ∈ last.transmissions, Lawful last.history transmission := by
  intro hclaim
  have hrun : ∃ last, Run (stepOf (perform exampleConfig)) (.init exampleConfig 7)
      overtakenRequest last ∧
      last.transmissions = [.retransmission 0 2 { exampleNotice with msgId := 17 } false] :=
    ⟨_, Run.of_foldlM rfl, by rfl⟩
  obtain ⟨last, hrun, hsent⟩ := hrun
  have hlawful := hclaim exampleConfig 7 overtakenRequest last hrun
    (.retransmission 0 2 { exampleNotice with msgId := 17 } false) (by rw [hsent]; simp)
  obtain ⟨-, hcon, -⟩ := hlawful
  cases hcon

end Wiselib.CoapService
