import Wiselib.Coap.CoapEngine
import Wiselib.Coap.CoapPacketEncoding
import Wiselib.Library.Run

/-!
# Observers and their notifications

The log of an engine tells what clients registered for and what was sent.
`Event.Allowed` says when an event is right after what happened before:

* a notification is about the resource that the observer registered for, which
  exists, it has what that resource answered for its payload and the token of the
  latest registration;
* a reset makes only the observer go whose notification it answers;
* a message that is sent again was sent before.

`Consistent` is the invariant behind it: every observer has an index in the
vector and finds its resource there.  An index is only good as long as nothing
before it is deleted, so this holds under a condition on the operations, which
is the matter of the next module.
-/

namespace Wiselib.Coap

open ByteBuffer Pstl

/-! ## What the log says -/

/-- The token of the latest registration of a host for a resource. -/
def lastToken (host target : ℕ) : List Event → Option (List UInt8)
  | [] => none
  | .registered host' target' token :: past =>
      if host' = host ∧ target' = target then some token else lastToken host target past
  | _ :: past => lastToken host target past

/-- The message id of the latest notification of a host about a resource. -/
def lastNotified (hostId : UInt16) (target : ℕ) : List Event → Option UInt16
  | [] => none
  | .notified n :: past =>
      if n.hostId = hostId ∧ n.target = target then some n.packet.mid
      else lastNotified hostId target past
  | _ :: past => lastNotified hostId target past

/-- A notification is right after what happened before. -/
structure Notification.Right (n : Notification) (past : List Event) : Prop where
  inRange : n.resourceId < n.resources
  source : n.source = n.target
  live : Event.deleted n.source ∉ past
  representation : n.representation = some n.packet.payload
  token : lastToken n.hostId.toNat n.target past = some n.packet.tokenBytes
  built : CoapPacket.Built n.packet
  fits : n.packet.encodedLength ≤ confMaxMsgLen

/-- An event is as it should be after what happened before. -/
def Event.Allowed (past : List Event) : Event → Prop
  | .notified n => n.Right past
  | .reset host mid removed =>
      ∀ observer, removed = some observer →
        observer.hostId.toNat = host ∧ lastNotified observer.hostId observer.target past = some mid
  | .retransmitted hostId packet => ∃ dest, Event.sent dest packet ∈ past ∧ UInt16.ofNat dest = hostId
  | _ => True

/-- Every event of a log was allowed when it happened. -/
def Lawful : List Event → Prop
  | [] => True
  | event :: past => event.Allowed past ∧ Lawful past

/-- An event that is neither about registrations nor about resources. -/
def Event.isQuiet : Event → Bool
  | .reset _ _ _ => true
  | .sent _ _ => true
  | .retransmitted _ _ => true
  | _ => false

variable {past : List Event} {event : Event} {host target : ℕ} {hostId : UInt16}

theorem lastToken_quiet (hquiet : event.isQuiet) :
    lastToken host target (event :: past) = lastToken host target past := by
  cases event with
  | registered _ _ _ => exact absurd hquiet (by simp [Event.isQuiet])
  | deleted _ => rfl
  | notified _ => rfl
  | reset _ _ _ => rfl
  | sent _ _ => rfl
  | retransmitted _ _ => rfl

theorem lastNotified_quiet (hquiet : event.isQuiet) :
    lastNotified hostId target (event :: past) = lastNotified hostId target past := by
  cases event with
  | registered _ _ _ => rfl
  | deleted _ => rfl
  | notified _ => exact absurd hquiet (by simp [Event.isQuiet])
  | reset _ _ _ => rfl
  | sent _ _ => rfl
  | retransmitted _ _ => rfl

/-! ## The invariant -/

/-- What is known of one observer. -/
structure Tracked (resources : VectorStatic Resource) (log : List Event) (observer : Observer) :
    Prop where
  inRange : observer.resourceId < resources.size
  serial : (resources.cells observer.resourceId).serial = observer.target
  token : lastToken observer.hostId.toNat observer.target log = some observer.token
  tokenLen : observer.tokenLen ≤ 8 ∧ observer.token.length = observer.tokenLen.toNat
  notified : observer.notified →
    lastNotified observer.hostId observer.target log = some observer.lastMid

/-- The resources of the vector are different ones, and none of them was deleted. -/
structure Numbered (resources : VectorStatic Resource) (nextSerial : ℕ) (log : List Event) :
    Prop where
  serial_lt : ∀ i < resources.size, (resources.cells i).serial < nextSerial
  serial_inj : ∀ i < resources.size, ∀ j < resources.size,
    (resources.cells i).serial = (resources.cells j).serial → i = j
  live : ∀ i < resources.size, Event.deleted (resources.cells i).serial ∉ log
  deleted_lt : ∀ target, Event.deleted target ∈ log → target < nextSerial

/-- What `add_observer` knows an observer by. -/
def Observer.key (observer : Observer) : UInt16 × ℕ := (observer.hostId, observer.resourceId)

/-- The invariant of the engine. -/
structure Consistent (coap : CoapEngine) : Prop where
  numbered : Numbered coap.resources coap.nextSerial coap.log
  tracked : ∀ observer ∈ coap.observers, Tracked coap.resources coap.log observer
  distinct : (coap.observers.map Observer.key).Nodup
  slots : ∀ slot ∈ coap.retransmits,
    ∃ dest, Event.sent dest slot.packet ∈ coap.log ∧ UInt16.ofNat dest = slot.hostId
  lawful : Lawful coap.log

variable {coap next : CoapEngine}

theorem consistent_init (id : ℕ) (rand : UInt16) (resources : ℕ → Resource)
    (outputData : ℕ → UInt8) : Consistent (CoapEngine.init id rand resources outputData) where
  numbered :=
    { serial_lt := by simp [CoapEngine.init]
      serial_inj := by simp [CoapEngine.init]
      live := by simp [CoapEngine.init]
      deleted_lt := by simp [CoapEngine.init] }
  tracked := by simp [CoapEngine.init]
  distinct := by simp [CoapEngine.init]
  slots := by simp [CoapEngine.init]
  lawful := trivial

theorem Consistent.congr (h : Consistent coap)
    (hsize : next.resources.size = coap.resources.size)
    (hserial : ∀ i, (next.resources.cells i).serial = (coap.resources.cells i).serial)
    (hnext : next.nextSerial = coap.nextSerial) (hobservers : next.observers = coap.observers)
    (hslots : ∀ slot ∈ next.retransmits, slot ∈ coap.retransmits) (hlog : next.log = coap.log) :
    Consistent next where
  numbered := by
    rw [hnext, hlog]
    refine ⟨?_, ?_, ?_, h.numbered.deleted_lt⟩
    · simpa only [hsize, hserial] using h.numbered.serial_lt
    · simpa only [hsize, hserial] using h.numbered.serial_inj
    · simpa only [hsize, hserial] using h.numbered.live
  tracked := by
    rw [hobservers, hlog]
    intro observer hmem
    obtain ⟨hrange, hsame, htoken, hlen, hnotified⟩ := h.tracked observer hmem
    exact ⟨hsize ▸ hrange, (hserial _).trans hsame, htoken, hlen, hnotified⟩
  distinct := hobservers ▸ h.distinct
  slots := by
    rw [hlog]
    exact fun slot hmem => h.slots slot (hslots slot hmem)
  lawful := hlog ▸ h.lawful

theorem Numbered.log {resources : VectorStatic Resource} {nextSerial : ℕ}
    (h : Numbered resources nextSerial past) (hkept : ∀ target, event ≠ .deleted target) :
    Numbered resources nextSerial (event :: past) := by
  have hold : ∀ target, Event.deleted target ∈ event :: past → Event.deleted target ∈ past := by
    intro target hmem
    exact (List.mem_cons.1 hmem).resolve_left fun heq => hkept target heq.symm
  exact ⟨h.serial_lt, h.serial_inj, fun i hi hmem => h.live i hi (hold _ hmem),
    fun target hmem => h.deleted_lt target (hold target hmem)⟩

theorem Consistent.quiet (h : Consistent coap) (hquiet : event.isQuiet)
    (hallowed : event.Allowed coap.log) : Consistent { coap with log := event :: coap.log } where
  numbered := h.numbered.log fun target heq => by simp [heq, Event.isQuiet] at hquiet
  tracked := by
    intro observer hmem
    obtain ⟨hrange, hserial, htoken, hlen, hnotified⟩ := h.tracked observer hmem
    refine ⟨hrange, hserial, ?_, hlen, ?_⟩
    · exact (lastToken_quiet hquiet).trans htoken
    · exact fun hset => (lastNotified_quiet hquiet).trans (hnotified hset)
  distinct := h.distinct
  slots := by
    intro slot hmem
    obtain ⟨dest, hsent, hdest⟩ := h.slots slot hmem
    exact ⟨dest, List.mem_cons_of_mem _ hsent, hdest⟩
  lawful := ⟨hallowed, h.lawful⟩

theorem Consistent.remove (h : Consistent coap) {observers : List Observer}
    (hsub : observers.Sublist coap.observers) :
    Consistent { coap with observers := observers } where
  numbered := h.numbered
  tracked := fun observer hmem => h.tracked observer (hsub.mem hmem)
  distinct := h.distinct.sublist (hsub.map _)
  slots := h.slots
  lawful := h.lawful

theorem Consistent.reslot (h : Consistent coap) {retransmits : List RetransmitSlot}
    (hslots : ∀ slot ∈ retransmits,
      ∃ dest, Event.sent dest slot.packet ∈ coap.log ∧ UInt16.ofNat dest = slot.hostId) :
    Consistent { coap with retransmits := retransmits } where
  numbered := h.numbered
  tracked := h.tracked
  distinct := h.distinct
  slots := hslots
  lawful := h.lawful

/-! ## Sending -/

namespace CoapEngine

variable {time : UInt32} {msg packet : CoapPacket} {mid : UInt16} {tries : UInt8} {dest : ℕ}
  {output : Option (List UInt8)}

/-- Nothing happens to the resources and the observers. -/
structure Frame (before after : CoapEngine) : Prop where
  resources : after.resources = before.resources
  observers : after.observers = before.observers

theorem Frame.refl : Frame coap coap := ⟨rfl, rfl⟩

theorem Frame.trans {last : CoapEngine} (hfirst : Frame coap next) (hsecond : Frame next last) :
    Frame coap last :=
  ⟨hsecond.resources.trans hfirst.resources, hsecond.observers.trans hfirst.observers⟩

theorem frame_register {id : UInt16} :
    Frame coap (coapRegisterConMsg time id mid packet tries coap) := by
  unfold coapRegisterConMsg
  split
  · exact Frame.refl
  · exact ⟨rfl, rfl⟩

theorem frame_coapSend : Frame coap (coapSend time msg dest coap) := by
  unfold coapSend
  dsimp only
  split
  · exact ⟨frame_register.resources, frame_register.observers⟩
  · exact ⟨rfl, rfl⟩

theorem frame_writeOutput : Frame coap (writeOutput output coap) := by
  unfold writeOutput
  split
  · exact ⟨rfl, rfl⟩
  · exact Frame.refl

theorem consistent_register {id : UInt16} (h : Consistent coap)
    (hsent : ∃ dest, Event.sent dest packet ∈ coap.log ∧ UInt16.ofNat dest = id) :
    Consistent (coapRegisterConMsg time id mid packet tries coap) := by
  unfold coapRegisterConMsg
  split
  · exact h
  · apply h.reslot
    intro slot hmem
    rcases List.mem_append.1 hmem with hold | hnew
    · exact h.slots slot hold
    · rw [List.mem_singleton.1 hnew]
      exact hsent

theorem consistent_unregister (h : Consistent coap) :
    Consistent (coapUnregisterConMsg mid coap).2 := by
  unfold coapUnregisterConMsg
  split
  · exact h.reslot fun slot hmem => h.slots slot (List.mem_of_mem_eraseP hmem)
  · exact h

theorem consistent_radioSend (h : Consistent coap) : Consistent (radioSend dest packet coap) :=
  h.quiet rfl trivial

/-- The slot of a message may as well be taken after the message is sent. -/
theorem coapSend_eq : coapSend time msg dest coap =
    if msg.type = con then
      coapRegisterConMsg time (UInt16.ofNat dest) msg.mid msg 0 (radioSend dest msg coap)
    else radioSend dest msg coap := by
  unfold coapSend coapRegisterConMsg radioSend
  dsimp only
  split
  · split <;> rfl
  · rfl

theorem consistent_coapSend (h : Consistent coap) : Consistent (coapSend time msg dest coap) := by
  rw [coapSend_eq]
  split
  · apply consistent_register (consistent_radioSend h)
    exact ⟨dest, List.mem_cons_self, rfl⟩
  · exact consistent_radioSend h

theorem consistent_writeOutput (h : Consistent coap) : Consistent (writeOutput output coap) := by
  unfold writeOutput
  split
  · exact h.congr rfl (fun _ => rfl) rfl rfl (fun _ hmem => hmem) rfl
  · exact h

/-! ## Resources -/

theorem serial_pushBack_of_lt {resource : Resource} {i : ℕ} (hi : i < coap.resources.size) :
    ((coap.resources.pushBack confMaxResources resource).cells i).serial =
      (coap.resources.cells i).serial :=
  congrArg Resource.serial (VectorStatic.cells_pushBack_of_lt hi)

theorem numbered_pushResource {resource : Resource} (h : Numbered coap.resources coap.nextSerial coap.log) :
    Numbered (pushResource resource coap).resources (pushResource resource coap).nextSerial
      coap.log := by
  have hold : ∀ i < coap.resources.size,
      ((pushResource resource coap).resources.cells i).serial =
        (coap.resources.cells i).serial := fun i hi => serial_pushBack_of_lt hi
  have hcells : ∀ i < (pushResource resource coap).resources.size, i < coap.resources.size ∨
      i = coap.resources.size ∧
        ((pushResource resource coap).resources.cells i).serial = coap.nextSerial := by
    intro i hi
    rcases VectorStatic.cells_pushBack hi with hlt | ⟨heq, hcell⟩
    · exact .inl hlt
    · exact .inr ⟨heq, congrArg Resource.serial hcell⟩
  constructor
  · intro i hi
    change _ < coap.nextSerial + 1
    rcases hcells i hi with hlt | ⟨-, hnew⟩
    · rw [hold i hlt]
      exact Nat.lt_succ_of_lt (h.serial_lt i hlt)
    · rw [hnew]
      exact Nat.lt_succ_self _
  · intro i hi j hj heq
    rcases hcells i hi with hilt | ⟨hisize, hinew⟩ <;> rcases hcells j hj with hjlt | ⟨hjsize, hjnew⟩
    · rw [hold i hilt, hold j hjlt] at heq
      exact h.serial_inj i hilt j hjlt heq
    · rw [hold i hilt, hjnew] at heq
      exact absurd heq (h.serial_lt i hilt).ne
    · rw [hinew, hold j hjlt] at heq
      exact absurd heq (h.serial_lt j hjlt).ne'
    · exact hisize.trans hjsize.symm
  · intro i hi hmem
    rcases hcells i hi with hlt | ⟨-, hnew⟩
    · rw [hold i hlt] at hmem
      exact h.live i hlt hmem
    · rw [hnew] at hmem
      exact absurd (h.deleted_lt _ hmem) (lt_irrefl _)
  · intro target hmem
    exact Nat.lt_succ_of_lt (h.deleted_lt target hmem)

theorem consistent_pushResource {resource : Resource} (h : Consistent coap) :
    Consistent (pushResource resource coap) where
  numbered := numbered_pushResource h.numbered
  tracked := by
    intro observer hmem
    obtain ⟨hrange, hserial, htoken, hlen, hnotified⟩ := h.tracked observer hmem
    refine ⟨hrange.trans_le VectorStatic.size_le_pushBack, ?_, htoken, hlen, hnotified⟩
    exact (serial_pushBack_of_lt hrange).trans hserial
  distinct := h.distinct
  slots := h.slots
  lawful := h.lawful

theorem consistent_addResource {resource : Resource} (h : Consistent coap) :
    Consistent (addResource resource coap) := by
  unfold addResource
  split
  · exact h
  · exact consistent_pushResource h

theorem consistent_notifyFromInterrupt {name : List UInt8} (h : Consistent coap) :
    Consistent (coapNotifyFromInterrupt name coap) := by
  have hserial : ∀ i, ((coapNotifyFromInterrupt name coap).resources.cells i).serial =
      (coap.resources.cells i).serial := by
    intro i
    unfold coapNotifyFromInterrupt
    rw [VectorStatic.cells_modifyAll Resource.serial]
    intro resource
    split <;> rfl
  exact h.congr rfl hserial rfl rfl (fun _ hmem => hmem) rfl

theorem numbered_erase {i : ℕ} (h : Numbered coap.resources coap.nextSerial coap.log)
    (hi : i < coap.resources.size) :
    Numbered (coap.resources.erase i) coap.nextSerial
      (.deleted (coap.resources.cells i).serial :: coap.log) := by
  constructor
  · intro j hj
    obtain ⟨k, hk, -, -, -, hcell⟩ := VectorStatic.cells_erase hi hj
    rw [hcell]
    exact h.serial_lt k hk
  · intro j hj j' hj' heq
    obtain ⟨k, hk, -, hbelow, habove, hcell⟩ := VectorStatic.cells_erase hi hj
    obtain ⟨k', hk', -, hbelow', habove', hcell'⟩ := VectorStatic.cells_erase hi hj'
    rw [hcell, hcell'] at heq
    have hsame : k = k' := h.serial_inj k hk k' hk' heq
    omega
  · intro j hj hmem
    obtain ⟨k, hk, hne, -, -, hcell⟩ := VectorStatic.cells_erase hi hj
    rw [hcell] at hmem
    rcases List.mem_cons.1 hmem with heq | hpast
    · exact hne (h.serial_inj k hk i hi (Event.deleted.inj heq))
    · exact h.live k hk hpast
  · intro target hmem
    rcases List.mem_cons.1 hmem with heq | hpast
    · rw [Event.deleted.inj heq]
      exact h.serial_lt i hi
    · exact h.deleted_lt target hpast

/-- A deletion behind every observed resource leaves the indices of the observers right. -/
theorem consistent_deleteResource {name : List UInt8} {nameLen : ℕ} (h : Consistent coap)
    (hbehind : ∀ i, coap.findResource name nameLen = some i →
      ∀ observer ∈ coap.observers, observer.resourceId < i) :
    Consistent (deleteResource name nameLen coap) := by
  unfold deleteResource
  split
  · rename_i i hfound
    have hi : i < coap.resources.size := VectorStatic.findIdx_lt hfound
    refine ⟨numbered_erase h.numbered hi, ?_, h.distinct, ?_, trivial, h.lawful⟩
    · intro observer hmem
      obtain ⟨-, hserial, htoken, hlen, hnotified⟩ := h.tracked observer hmem
      have hlt : observer.resourceId < i := hbehind i hfound observer hmem
      refine ⟨?_, ?_, htoken, hlen, hnotified⟩
      · change _ < (coap.resources.erase i).size
        rw [VectorStatic.size_erase hi]
        omega
      · change ((coap.resources.erase i).cells _).serial = _
        rw [VectorStatic.cells_erase_below hlt, hserial]
    · intro slot hmem
      obtain ⟨dest, hsent, hdest⟩ := h.slots slot hmem
      exact ⟨dest, List.mem_cons_of_mem _ hsent, hdest⟩
  · exact h

/-! ## Observers -/

theorem consistent_removeObserver (h : Consistent coap) : Consistent (coapRemoveObserver mid coap) :=
  h.remove List.eraseP_sublist

theorem consistent_resetObserver (h : Consistent coap)
    (hanswers : ∀ observer, coap.observers.find? (·.lastMid == mid) = some observer →
      observer.hostId.toNat = host ∧ observer.notified) :
    Consistent (resetObserver host mid coap) := by
  apply (consistent_removeObserver h).quiet rfl
  intro observer hremoved
  obtain ⟨hhost, hset⟩ := hanswers observer hremoved
  have hmid : observer.lastMid = mid := by simpa using List.find?_some hremoved
  refine ⟨hhost, ?_⟩
  rw [← hmid]
  exact (h.tracked observer (List.mem_of_find?_eq_some hremoved)).notified hset

/-- A registration that the engine follows: the host has an id of 16 bits, the token
fits, and it is not a new token for an observer while there is no room for observers. -/
structure Registrable (msg : CoapPacket) (host i : ℕ) (observers : List Observer) : Prop where
  host_lt : host < 2 ^ 16
  token : msg.tokenLen ≤ 8 ∧ msg.token.length = msg.tokenLen.toNat
  room : ∀ observer ∈ observers, observes host i observer →
    observers.length ≠ confMaxObservers ∨ observer.token = msg.token

theorem Registrable.tokenBytes {i : ℕ} {observers : List Observer}
    (h : Registrable msg host i observers) : msg.tokenBytes = msg.token := by
  unfold CoapPacket.tokenBytes
  rw [← h.token.2, List.take_length]

theorem observes_iff {i : ℕ} {observer : Observer} :
    observes host i observer ↔ observer.hostId.toNat = host ∧ observer.resourceId = i := by
  simp [observes]

theorem observes_key {i : ℕ} {first second : Observer} (hfirst : observes host i first)
    (hsecond : observes host i second) : first.key = second.key := by
  obtain ⟨hhost, hid⟩ := observes_iff.1 hfirst
  obtain ⟨hhost', hid'⟩ := observes_iff.1 hsecond
  have hsame : first.hostId = second.hostId := UInt16.toNat_inj.1 (hhost.trans hhost'.symm)
  rw [Observer.key, Observer.key, hsame, hid, hid']

theorem observes_of_tracked {i : ℕ} {observer : Observer}
    (h : Numbered coap.resources coap.nextSerial coap.log)
    (htracked : Tracked coap.resources coap.log observer) (hi : i < coap.resources.size)
    (hhost : observer.hostId.toNat = host)
    (htarget : observer.target = (coap.resources.cells i).serial) : observes host i observer := by
  apply observes_iff.2
  refine ⟨hhost, h.serial_inj _ htracked.inRange i hi ?_⟩
  rw [htracked.serial, htarget]

/-- A registration in the log leaves the other observers as they are. -/
theorem tracked_registered {i : ℕ} {observer : Observer} {token : List UInt8}
    (h : Numbered coap.resources coap.nextSerial coap.log)
    (htracked : Tracked coap.resources coap.log observer) (hi : i < coap.resources.size)
    (hsame : observes host i observer → observer.token = token) :
    Tracked coap.resources
      (.registered host (coap.resources.cells i).serial token :: coap.log) observer where
  inRange := htracked.inRange
  serial := htracked.serial
  token := by
    unfold lastToken
    split
    · rename_i hboth
      rw [hsame (observes_of_tracked h htracked hi hboth.1.symm hboth.2.symm)]
    · exact htracked.token
  tokenLen := htracked.tokenLen
  notified := htracked.notified

theorem consistent_log_registered (h : Consistent coap) {i : ℕ} {observers : List Observer}
    (htracked : ∀ observer ∈ observers, Tracked coap.resources
      (.registered host (coap.resources.cells i).serial msg.tokenBytes :: coap.log) observer)
    (hdistinct : (observers.map Observer.key).Nodup) :
    Consistent { coap with
      observers := observers
      log := .registered host (coap.resources.cells i).serial msg.tokenBytes :: coap.log } where
  numbered := h.numbered.log fun _ heq => Event.noConfusion heq
  tracked := htracked
  distinct := hdistinct
  slots := by
    intro slot hmem
    obtain ⟨dest, hsent, hdest⟩ := h.slots slot hmem
    exact ⟨dest, List.mem_cons_of_mem _ hsent, hdest⟩
  lawful := ⟨trivial, h.lawful⟩

theorem map_key_modify {i : ℕ} {observers : List Observer} {f : Observer → Observer}
    (hkey : ∀ observer, (f observer).key = observer.key) :
    (observers.modify i f).map Observer.key = observers.map Observer.key := by
  apply List.ext_getElem?
  intro j
  rw [List.getElem?_map, List.getElem?_map, List.getElem?_modify]
  cases observers[j]? with
  | none => rfl
  | some observer =>
      by_cases hij : i = j
      · simp [hij, hkey]
      · simp [hij]

theorem mem_modify {i : ℕ} {observers : List Observer} {f : Observer → Observer}
    {observer : Observer} (hmem : observer ∈ observers.modify i f) :
    ∃ j old, observers[j]? = some old ∧ observer = if i = j then f old else old := by
  obtain ⟨j, hj⟩ := List.mem_iff_getElem?.1 hmem
  rw [List.getElem?_modify] at hj
  obtain ⟨old, hold, heq⟩ := Option.map_eq_some_iff.1 hj
  exact ⟨j, old, hold, heq.symm⟩

theorem index_eq_of_key {observers : List Observer} {i j : ℕ} {first second : Observer}
    (hdistinct : (observers.map Observer.key).Nodup) (hi : observers[i]? = some first)
    (hj : observers[j]? = some second) (hkey : first.key = second.key) : i = j := by
  have hlt : i < (observers.map Observer.key).length := by
    rw [List.length_map]
    exact (List.getElem?_eq_some_iff.1 hi).1
  apply (List.getElem?_inj hlt hdistinct).1
  rw [List.getElem?_map, List.getElem?_map, hi, hj]
  exact congrArg some hkey

theorem consistent_addObserver (h : Consistent coap) {i : ℕ} (hi : i < coap.resources.size)
    (hreg : Registrable msg host i coap.observers) :
    Consistent (addObserver time msg host i coap).2 := by
  unfold addObserver
  dsimp only
  split
  · rename_i hfull
    apply consistent_log_registered h _ h.distinct
    intro observer hmem
    apply tracked_registered h.numbered (h.tracked observer hmem) hi
    intro hobserves
    rw [hreg.tokenBytes]
    exact (hreg.room observer hmem hobserves).resolve_left fun hroom => hroom hfull
  · split
    · rename_i k hfound
      obtain ⟨hk, hobserves, -⟩ := List.findIdx?_eq_some_iff_getElem.1 hfound
      apply consistent_log_registered h
      · intro observer hmem
        obtain ⟨j, old, hold, heq⟩ := mem_modify hmem
        have htracked := h.tracked old (List.mem_of_getElem? hold)
        by_cases hkj : k = j
        · subst hkj
          rw [if_pos rfl] at heq
          have hkold : coap.observers[k] = old := by simpa [List.getElem?_eq_getElem hk] using hold
          rw [hkold] at hobserves
          obtain ⟨hhost, hid⟩ := observes_iff.1 hobserves
          have htarget : old.target = (coap.resources.cells i).serial := by
            rw [← htracked.serial, hid]
          rw [heq]
          refine ⟨htracked.inRange, congrArg (fun r => (coap.resources.cells r).serial) hid, ?_, ?_, ?_⟩
          · simp [lastToken, hhost]
          · exact hreg.tokenBytes ▸ hreg.token
          · intro hset
            change lastNotified old.hostId (coap.resources.cells i).serial coap.log = some old.lastMid
            rw [← htarget]
            exact htracked.notified hset
        · rw [if_neg hkj] at heq
          rw [heq]
          apply tracked_registered h.numbered htracked hi
          -- only one observer has this host and this index
          intro hother
          have hk' : coap.observers[k]? = some coap.observers[k] := List.getElem?_eq_getElem hk
          exact absurd (index_eq_of_key h.distinct hk' hold (observes_key hobserves hother)) hkj
      · rw [map_key_modify]
        · exact h.distinct
        · exact fun _ => rfl
    · rename_i hnone
      have hnew : ∀ observer ∈ coap.observers, observes host i observer = false := by
        simpa using hnone
      have hhost : (UInt16.ofNat host).toNat = host := UInt16.toNat_ofNat_of_lt' hreg.host_lt
      apply consistent_log_registered h
      · intro observer hmem
        rcases List.mem_append.1 hmem with hold | hadded
        · apply tracked_registered h.numbered (h.tracked observer hold) hi
          intro hobserves
          exact absurd hobserves (by simp [hnew observer hold])
        · rw [List.mem_singleton.1 hadded]
          refine ⟨hi, rfl, ?_, hreg.tokenBytes ▸ hreg.token, ?_⟩
          · simp [lastToken, hhost]
          · intro hset
            exact absurd hset (by simp)
      · rw [List.map_append]
        apply List.Nodup.append h.distinct (List.nodup_singleton _)
        intro key hmem hadded
        obtain ⟨observer, hold, rfl⟩ := List.mem_map.1 hmem
        have hkey : observer.key = (UInt16.ofNat host, i) := by simpa [Observer.key] using hadded
        have hobserves : observes host i observer := by
          apply observes_iff.2
          rw [← hhost]
          exact ⟨congrArg (fun k => k.1.toNat) hkey, congrArg Prod.snd hkey⟩
        exact absurd hobserves (by simp [hnew observer hold])

end CoapEngine

end Wiselib.Coap
