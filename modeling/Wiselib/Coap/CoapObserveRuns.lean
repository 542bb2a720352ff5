import Wiselib.Coap.CoapObserve

/-!
# Runs of the engine

The engine is shown to stay consistent, operation by operation, and so over
whole runs.  `Intact` is the condition on the operations:

* a resource is deleted only behind every resource that is observed;
* a registration is one that the observer can be kept for;
* a reset answers the latest notification of the observer that is found by its
  message id, and comes from that observer;
* an observed resource has an answer when it is due, which fits into a message.
-/

namespace Wiselib.Coap

open ByteBuffer Pstl Transition

namespace CoapEngine

variable {coap : CoapEngine} {env : Surroundings} {msg resp : CoapPacket} {source i : ℕ}

/-! ## Messages -/

/-- A request that `receiver` answers with the resource at an index. -/
structure Serves (msg : CoapPacket) (i : ℕ) (coap : CoapEngine) : Prop where
  code : msg.code ≠ 0 ∧ msg.code ≤ 4
  type : msg.type = con ∨ msg.type = non
  path : isWellKnown msg = false
  found : coap.findResource msg.uriPath msg.uriPathLenW = some i
  allowed : (coap.resources.cells i).methodAllowed msg.code

/-- A message that makes `receiver` look for an observer to remove. -/
def IsReset (msg : CoapPacket) : Prop :=
  msg.type = rst ∧ (msg.code = 0 ∨ 64 ≤ msg.code ∧ msg.code ≤ 191)

/-- The condition on a message. -/
structure MessageIntact (msg : CoapPacket) (source : ℕ) (coap : CoapEngine) : Prop where
  delete : ∀ i, Serves msg i coap → msg.code = coapDelete →
    ∀ observer ∈ coap.observers, observer.resourceId < i
  observe : ∀ i, Serves msg i coap → wantsObserve msg (coap.resources.cells i) →
    Registrable msg source i coap.observers
  reset : IsReset msg → ∀ observer, coap.observers.find? (·.lastMid == msg.mid) = some observer →
    observer.hostId.toNat = source ∧ observer.notified

theorem consistent_discover (h : Consistent coap) : Consistent (discover msg resp coap).2 := by
  unfold discover
  split
  · dsimp only
    exact consistent_writeOutput h
  · exact h

theorem consistent_separate {resource : Resource} (h : Consistent coap) :
    Consistent (separate env resource source resp coap).2 := by
  unfold separate
  split
  · have hsent : Consistent (coapSend env.time resp source coap) := consistent_coapSend h
    exact hsent.congr rfl (fun _ => rfl) rfl rfl (fun _ hmem => hmem) rfl
  · exact h

theorem frame_separate {resource : Resource} :
    Frame coap (separate env resource source resp coap).2 := by
  unfold separate
  split
  · exact ⟨frame_coapSend.resources, frame_coapSend.observers⟩
  · exact Frame.refl

theorem consistent_executeRequest (h : Consistent coap) :
    Consistent (executeRequest env msg i resp coap).2 :=
  consistent_writeOutput h

theorem frame_executeRequest : Frame coap (executeRequest env msg i resp coap).2 :=
  frame_writeOutput

theorem consistent_observeRequest (h : Consistent coap) (hi : i < coap.resources.size)
    (hobserve : wantsObserve msg (coap.resources.cells i) → Registrable msg source i coap.observers) :
    Consistent (observeRequest env msg source i resp coap).2 := by
  unfold observeRequest
  split
  · rename_i hwants
    have hadded : Consistent (addObserver env.time msg source i coap).2 :=
      consistent_addObserver h hi (hobserve hwants)
    split
    · rename_i next heq
      rw [heq] at hadded
      exact hadded.congr rfl (fun _ => rfl) rfl rfl (fun _ hmem => hmem) rfl
    · rename_i next heq
      rw [heq] at hadded
      exact hadded
  · exact h

theorem consistent_serve (h : Consistent coap) (hi : i < coap.resources.size)
    (hserves : (coap.resources.cells i).methodAllowed msg.code → Serves msg i coap)
    (hintact : MessageIntact msg source coap) :
    Consistent (serve env msg source i resp coap).2 := by
  unfold serve
  split
  · rename_i hallowed
    split
    · rename_i hdelete
      apply consistent_deleteResource h
      intro k hk
      have hki : i = k := Option.some.inj ((hserves hallowed).found.symm.trans hk)
      rw [← hki]
      exact hintact.delete i (hserves hallowed) hdelete
    · -- neither the acknowledgement nor the execution touches what the registration reads
      have hframe : Frame coap (executeRequest env msg i
          (separate env (coap.resources.cells i) source resp coap).1
          (separate env (coap.resources.cells i) source resp coap).2).2 :=
        frame_separate.trans frame_executeRequest
      apply consistent_observeRequest (consistent_executeRequest (consistent_separate h))
      · rw [hframe.resources]
        exact hi
      · rw [hframe.resources, hframe.observers]
        exact hintact.observe i (hserves hallowed)
  · exact h

theorem consistent_create (h : Consistent coap) : Consistent (create msg resp coap).2 := by
  unfold create
  split
  · exact h
  · exact consistent_pushResource h

theorem consistent_dispatch (h : Consistent coap) (hcode : msg.code ≠ 0 ∧ msg.code ≤ 4)
    (htype : msg.type = con ∨ msg.type = non) (hintact : MessageIntact msg source coap) :
    Consistent (dispatch env msg source resp coap).2 := by
  unfold dispatch
  split
  · exact consistent_discover h
  · rename_i hpath
    split
    · rename_i i hfound
      apply consistent_serve h (VectorStatic.findIdx_lt hfound) _ hintact
      exact fun hallowed => ⟨hcode, htype, by simpa using hpath, hfound, hallowed⟩
    · exact consistent_create h

theorem consistent_request (h : Consistent coap) (hcode : msg.code ≠ 0 ∧ msg.code ≤ 4)
    (hintact : MessageIntact msg source coap) : Consistent (request env msg source coap) := by
  unfold request
  split
  · rename_i htype
    exact consistent_coapSend (consistent_dispatch h hcode htype hintact)
  · exact h

theorem consistent_response (h : Consistent coap) (hcode : 64 ≤ msg.code ∧ msg.code ≤ 191)
    (hintact : MessageIntact msg source coap) : Consistent (response env msg source coap) := by
  unfold response
  split
  · exact consistent_coapSend h
  · split
    · exact consistent_unregister h
    · split
      · rename_i hrst
        apply consistent_unregister
        exact consistent_resetObserver h (hintact.reset ⟨hrst, .inr hcode⟩)
      · exact h

theorem observers_unregister {mid : UInt16} :
    (coapUnregisterConMsg mid coap).2.observers = coap.observers := by
  unfold coapUnregisterConMsg
  split <;> rfl

theorem consistent_accept (h : Consistent coap) (hintact : MessageIntact msg source coap) :
    Consistent (accept env msg source coap) := by
  unfold accept
  split
  · rename_i hempty
    dsimp only
    split
    · rename_i hrst
      apply consistent_resetObserver (consistent_unregister h)
      rw [observers_unregister]
      exact hintact.reset ⟨hrst, .inl hempty⟩
    · exact consistent_unregister h
  · rename_i hnonempty
    split
    · rename_i hle
      exact consistent_request h ⟨hnonempty, hle⟩ hintact
    · split
      · rename_i hcode
        exact consistent_response h hcode hintact
      · exact h

/-- The condition on the bytes of a message. -/
def ReceiveIntact (env : Surroundings) (len : UInt8) (buf : ℕ → UInt8) (source : ℕ)
    (coap : CoapEngine) : Prop :=
  ∀ msg, parse env len buf = (.noError, msg) → coap.isForeign msg = false →
    MessageIntact msg source coap

theorem consistent_receiver {len : UInt8} {buf : ℕ → UInt8} (h : Consistent coap)
    (hintact : ReceiveIntact env len buf source coap) :
    Consistent (receiver env len buf source coap) := by
  unfold receiver
  split
  · rename_i msg hparse
    split
    · exact h
    · rename_i hours
      exact consistent_accept h (hintact msg hparse (by simpa using hours))
  · exact consistent_coapSend h

/-! ## Notifications -/

/-- How many bytes a notification takes without its payload. -/
def noticeLength (observer : Observer) (resource : Resource) (observeCounter : UInt16) : ℕ :=
  coapHeaderLen + 1 + (1 + (CoapPacket.intBytes resource.contentType.toUInt32).length) +
    (1 + (CoapPacket.intBytes resource.notifyTime.toUInt32).length) +
    (1 + (CoapPacket.intBytes observeCounter.toUInt32).length) + (1 + observer.token.length)

variable {observer : Observer} {resource : Resource} {status : CoapStatus}
  {mid observeCounter : UInt16} {text : List UInt8} {outputData : ℕ → UInt8}

theorem isOption_notification {offset : UInt32} {outputDataLen : UInt16} (option : CoapOption) :
    (setPayload (notification env observer resource status mid observeCounter) outputData offset
      outputDataLen).isOption option =
      decide (option ∈ [CoapOption.contentType, .maxAge, .observe, .token]) := by
  have hoptions : (setPayload (notification env observer resource status mid observeCounter)
      outputData offset outputDataLen).options = 3078 := by
    simp [setPayload, notification, CoapPacket.setOption, CoapPacket.init, CoapOption.number]
  unfold CoapPacket.isOption
  rw [hoptions]
  cases option <;> decide

theorem plainOptions_notification {offset : UInt32} {outputDataLen : UInt16} :
    (setPayload (notification env observer resource status mid observeCounter) outputData offset
      outputDataLen).plainOptions =
      [(1, CoapPacket.intBytes resource.contentType.toUInt32),
        (2, CoapPacket.intBytes resource.notifyTime.toUInt32),
        (10, CoapPacket.intBytes observeCounter.toUInt32), (11, observer.token)] := by
  unfold CoapPacket.plainOptions CoapPacket.optionIf
  simp only [isOption_notification]
  rfl

theorem length_intBytes_le (value : UInt32) : (CoapPacket.intBytes value).length ≤ 4 := by
  unfold CoapPacket.intBytes
  simp only [List.length_append]
  split_ifs <;> simp

theorem length_headerOf_short {number delta length : ℕ} (hpath : number ≠ 9) (hshort : length < 15) :
    (CoapPacket.headerOf number delta length).length = 1 := by
  have hnumber : number ≠ CoapOption.uriPath.number := hpath
  unfold CoapPacket.headerOf
  rw [if_neg hnumber]
  simp [CoapPacket.setOptHeader, hshort]

theorem encodedLength_notification {offset : UInt32} {outputDataLen : UInt16}
    (hlen : observer.token.length ≤ 8) :
    (setPayload (notification env observer resource status mid observeCounter) outputData offset
      outputDataLen).encodedLength =
      noticeLength observer resource observeCounter + outputDataLen.toUInt8.toNat := by
  unfold CoapPacket.encodedLength CoapPacket.wireOptions noticeLength
  rw [plainOptions_notification, CoapPacket.fenced_of_le (by simp)]
  have hcontent := length_intBytes_le resource.contentType.toUInt32
  have hage := length_intBytes_le resource.notifyTime.toUInt32
  have hobserve := length_intBytes_le observeCounter.toUInt32
  simp only [CoapPacket.wire, List.length_append, List.length_nil]
  rw [length_headerOf_short (by decide) (by omega), length_headerOf_short (by decide) (by omega),
    length_headerOf_short (by decide) (by omega), length_headerOf_short (by decide) (by omega)]
  have hpayload : (setPayload (notification env observer resource status mid observeCounter)
      outputData offset outputDataLen).payload.length = outputDataLen.toUInt8.toNat := length_read
  rw [hpayload]
  omega

theorem built_notification {offset : UInt32} {outputDataLen : UInt16}
    (htoken : observer.tokenLen ≤ 8 ∧ observer.token.length = observer.tokenLen.toNat) :
    CoapPacket.Built (setPayload (notification env observer resource status mid observeCounter)
      outputData offset outputDataLen) where
  optCount := rfl
  options := by
    intro option hset
    rw [isOption_notification, decide_eq_true_eq] at hset
    revert hset
    cases option <;> decide
  path := fun hset => absurd hset (by rw [isOption_notification]; decide)
  token := fun _ => htoken
  block2 := fun hset => absurd hset (by rw [isOption_notification]; decide)
  payload := length_read

theorem consistent_notified (h : Consistent coap) (notice : Notification) (timestamp : UInt32)
    (hget : coap.observers[i]? = some observer) (hright : notice.Right coap.log)
    (hhost : notice.hostId = observer.hostId) (htarget : notice.target = observer.target) :
    Consistent { coap with
      observers := coap.observers.modify i fun observer =>
        { observer with lastMid := notice.packet.mid, timestamp := timestamp, notified := true }
      log := .notified notice :: coap.log } where
  numbered := h.numbered.log fun _ heq => Event.noConfusion heq
  tracked := by
    intro other hmem
    obtain ⟨j, old, hold, heq⟩ := mem_modify hmem
    obtain ⟨hrange, hserial, htoken, hlen, hnotified⟩ := h.tracked old (List.mem_of_getElem? hold)
    by_cases hij : i = j
    · subst hij
      have hsame : old = observer := Option.some.inj (hold.symm.trans hget)
      rw [if_pos rfl, hsame] at heq
      rw [heq]
      subst hsame
      refine ⟨hrange, hserial, htoken, hlen, ?_⟩
      intro _
      simp [lastNotified, hhost, htarget]
    · rw [if_neg hij] at heq
      rw [heq]
      refine ⟨hrange, hserial, htoken, hlen, ?_⟩
      intro hset
      unfold lastNotified
      split
      · rename_i hboth
        -- the other observer would be the same one
        have htracked := h.tracked observer (List.mem_of_getElem? hget)
        have hhosts : observer.hostId = old.hostId := hhost.symm.trans hboth.1
        have hids : observer.resourceId = old.resourceId := by
          apply h.numbered.serial_inj _ htracked.inRange _ hrange
          rw [htracked.serial, hserial, ← htarget]
          exact hboth.2
        have hkey : observer.key = old.key := by rw [Observer.key, Observer.key, hhosts, hids]
        exact absurd (index_eq_of_key h.distinct hget hold hkey) hij
      · exact hnotified hset
  distinct := by
    rw [map_key_modify]
    · exact h.distinct
    · exact fun _ => rfl
  slots := by
    intro slot hmem
    obtain ⟨dest, hsent, hdest⟩ := h.slots slot hmem
    exact ⟨dest, List.mem_cons_of_mem _ hsent, hdest⟩
  lawful := ⟨hright, h.lawful⟩

/-- What `coap_notify` notes of a notification. -/
def notice (observer : Observer) (packet : CoapPacket) (text : List UInt8) (coap : CoapEngine) :
    Notification :=
  { hostId := observer.hostId
    target := observer.target
    resourceId := observer.resourceId
    resources := coap.resources.size
    source := (coap.resources.cells observer.resourceId).serial
    representation := some text
    packet := packet }

/-- A notification may as well be sent before its slot is taken. -/
theorem sendNotification_eq {time : UInt32} {packet : CoapPacket} {tries : UInt8} :
    sendNotification time i observer packet tries (some text) coap =
      { coapRegisterConMsg time observer.hostId packet.mid packet tries
          (radioSend observer.hostId.toNat packet coap) with
        observers := coap.observers.modify i fun old =>
          { old with
            lastMid := packet.mid
            timestamp := time + (coap.resources.cells observer.resourceId).notifyTime.toUInt32
            notified := true }
        log := .notified (notice observer packet text coap) ::
          .sent observer.hostId.toNat packet :: coap.log } := by
  unfold sendNotification coapRegisterConMsg radioSend
  dsimp only
  split
  · rfl
  · rfl

/-- What makes a notification right when it is sent. -/
theorem consistent_sendNotification (h : Consistent coap) {time : UInt32} {packet : CoapPacket}
    {tries : UInt8} (hget : coap.observers[i]? = some observer)
    (hpayload : packet.payload = text) (htoken : packet.tokenBytes = observer.token)
    (hbuilt : CoapPacket.Built packet) (hfits : packet.encodedLength ≤ confMaxMsgLen) :
    Consistent (sendNotification time i observer packet tries (some text) coap) := by
  obtain ⟨hrange, hserial, hlast, -, -⟩ := h.tracked observer (List.mem_of_getElem? hget)
  have hsent : Consistent (radioSend observer.hostId.toNat packet coap) := consistent_radioSend h
  have hslot : Consistent (coapRegisterConMsg time observer.hostId packet.mid packet tries
      (radioSend observer.hostId.toNat packet coap)) := by
    apply consistent_register hsent
    exact ⟨observer.hostId.toNat, List.mem_cons_self, UInt16.ofNat_toNat⟩
  have hright : (notice observer packet text coap).Right
      (.sent observer.hostId.toNat packet :: coap.log) :=
    { inRange := hrange
      source := hserial
      live := fun hmem => h.numbered.live _ hrange (by simpa [notice] using hmem)
      representation := congrArg some hpayload.symm
      token := hlast.trans (congrArg some htoken.symm)
      built := hbuilt
      fits := hfits }
  have hlog : (coapRegisterConMsg time observer.hostId packet.mid packet tries
      (radioSend observer.hostId.toNat packet coap)).log =
      .sent observer.hostId.toNat packet :: coap.log := by
    unfold coapRegisterConMsg
    split <;> rfl
  have hobservers : (coapRegisterConMsg time observer.hostId packet.mid packet tries
      (radioSend observer.hostId.toNat packet coap)).observers = coap.observers :=
    frame_register.observers
  have hnotified := consistent_notified hslot (notice observer packet text coap)
    (time + (coap.resources.cells observer.resourceId).notifyTime.toUInt32)
    (by rw [hobservers, hget]) (by rw [hlog]; exact hright) rfl rfl
  rw [hobservers, hlog] at hnotified
  rw [sendNotification_eq]
  exact hnotified

/-- The condition on a round of `coap_notify`: an observer that is due gets an answer
that fits into a message. -/
def RoundIntact (env : Surroundings) (i : ℕ) (coap : CoapEngine) : Prop :=
  ∀ observer, coap.observers[i]? = some observer → coap.isDue env.time observer →
    ∃ text, ((coap.resources.cells observer.resourceId).execute env.application
        ⟨coapGet, []⟩).output = some text ∧
      noticeLength observer (coap.resources.cells observer.resourceId) coap.observeCounter +
        text.length ≤ confMaxMsgLen

theorem read_payload (hshort : text.length < 2 ^ 8) :
    read (write outputData 0 text) 0 (UInt16.ofNat text.length).toUInt8.toNat = text := by
  have hlength : (UInt16.ofNat text.length).toUInt8.toNat = text.length := by
    simp only [UInt16.toNat_toUInt8, UInt16.toNat_ofNat']
    omega
  rw [hlength]
  exact read_write_self

theorem consistent_clearInterruptFlag (h : Consistent coap) :
    Consistent (coap.clearInterruptFlag i) := by
  have hserial : ∀ j, ((coap.clearInterruptFlag i).resources.cells j).serial =
      (coap.resources.cells j).serial := by
    intro j
    unfold clearInterruptFlag
    rw [VectorStatic.cells_modify Resource.serial]
    exact fun _ => rfl
  exact h.congr rfl hserial rfl rfl (fun _ hmem => hmem) rfl

theorem consistent_notifyObserver (h : Consistent coap) {outputDataLen : UInt16}
    (hget : coap.observers[i]? = some observer)
    (hanswer : ∃ text, ((coap.resources.cells observer.resourceId).execute env.application
        ⟨coapGet, []⟩).output = some text ∧
      noticeLength observer (coap.resources.cells observer.resourceId) coap.observeCounter +
        text.length ≤ confMaxMsgLen) :
    Consistent (notifyObserver env i observer coap outputDataLen).1 := by
  obtain ⟨text, houtput, hlength⟩ := hanswer
  obtain ⟨-, -, -, htoken, -⟩ := h.tracked observer (List.mem_of_getElem? hget)
  have hresource : (coap.clearInterruptFlag observer.resourceId).resources.cells
      observer.resourceId =
      { coap.resources.cells observer.resourceId with interruptFlag := false } :=
    Function.update_self _ _ _
  have hshort : text.length < 2 ^ 8 := by
    unfold confMaxMsgLen at hlength
    omega
  unfold notifyObserver
  dsimp only [coapNewMid]
  rw [hresource]
  -- executing a resource does not look at its interrupt flag
  generalize hexecuted : Resource.execute _ _ _ = answer
  have houtput' : answer.output = some text := by
    rw [← hexecuted]
    exact houtput
  rw [houtput']
  have hmiddle : Consistent (coapUnregisterConMsg observer.lastMid
      { coap.clearInterruptFlag observer.resourceId with
        mid := coap.mid + 1
        outputData := write coap.outputData 0 text
        observeCounter := coap.observeCounter + 1 }).2 := by
    apply consistent_unregister
    exact (consistent_clearInterruptFlag h).congr rfl (fun _ => rfl) rfl rfl (fun _ hmem => hmem) rfl
  apply consistent_sendNotification hmiddle
  · rw [observers_unregister]
    exact hget
  · exact read_payload hshort
  · exact List.take_of_length_le htoken.2.le
  · exact built_notification htoken
  · rw [encodedLength_notification (by rw [htoken.2]; exact htoken.1)]
    have hcount : (outputLen (some text) outputDataLen).toUInt8.toNat = text.length := by
      simp only [outputLen, UInt16.toNat_toUInt8, UInt16.toNat_ofNat']
      omega
    rw [hcount]
    exact hlength

theorem consistent_notifyRound {outputDataLen : UInt16} (h : Consistent coap)
    (hintact : RoundIntact env i coap) :
    Consistent (notifyRound env i (coap, outputDataLen)).1 := by
  unfold notifyRound
  split
  · rename_i observer hget
    split
    · rename_i hdue
      exact consistent_notifyObserver h hget (hintact observer hget hdue)
    · exact h
  · exact h

/-- The condition on a call of `coap_notify`. -/
def NotifyIntact (env : Surroundings) (applications : ℕ → Application) (outputDataLen : UInt16)
    (coap : CoapEngine) : Prop :=
  ∀ i < coap.observers.length,
    RoundIntact { env with application := applications i } i
      (notifyRounds env applications i (coap, outputDataLen)).1

theorem consistent_notifyRounds {applications : ℕ → Application} {outputDataLen : UInt16}
    (h : Consistent coap) :
    ∀ n : ℕ, (∀ i < n, RoundIntact { env with application := applications i } i
        (notifyRounds env applications i (coap, outputDataLen)).1) →
      Consistent (notifyRounds env applications n (coap, outputDataLen)).1 := by
  intro n
  induction n with
  | zero =>
      intro _
      exact h
  | succ n ih =>
      intro hintact
      apply consistent_notifyRound (ih fun i hi => hintact i (Nat.lt_succ_of_lt hi))
      exact hintact n (Nat.lt_succ_self n)

theorem consistent_coapNotify {applications : ℕ → Application} {outputDataLen : UInt16}
    (h : Consistent coap) (hintact : NotifyIntact env applications outputDataLen coap) :
    Consistent (coapNotify env applications outputDataLen coap) :=
  consistent_notifyRounds h _ hintact

/-! ## Retransmissions -/

theorem consistent_setSlot {slot next : RetransmitSlot} (h : Consistent coap)
    (hget : coap.retransmits[i]? = some slot) (hhost : next.hostId = slot.hostId)
    (hpacket : next.packet = slot.packet) :
    Consistent { coap with retransmits := coap.retransmits.set i next } := by
  apply h.reslot
  intro other hmem
  rcases List.mem_or_eq_of_mem_set hmem with hold | rfl
  · exact h.slots other hold
  · rw [hhost, hpacket]
    exact h.slots slot (List.mem_of_getElem? hget)

theorem consistent_retransmitFrom {time : UInt32} :
    ∀ (rounds : ℕ) (timeoutFactor : UInt8) (i : ℕ) (coap : CoapEngine), Consistent coap →
      Consistent (retransmitFrom time rounds timeoutFactor i coap) := by
  intro rounds
  induction rounds with
  | zero =>
      intro _ _ coap h
      exact h
  | succ rounds ih =>
      intro timeoutFactor i coap h
      unfold retransmitFrom
      split
      · exact h
      · rename_i slot hget
        have hslot : ∃ dest, Event.sent dest slot.packet ∈ coap.log ∧
            UInt16.ofNat dest = slot.hostId := h.slots slot (List.mem_of_getElem? hget)
        have hsent : Consistent
            { coap with log := .retransmitted slot.hostId slot.packet :: coap.log } :=
          h.quiet rfl hslot
        split
        · dsimp only
          split
          · apply ih
            apply consistent_unregister
            apply consistent_removeObserver
            exact consistent_setSlot hsent hget rfl rfl
          · apply ih
            rw [List.set_set]
            exact consistent_setSlot hsent hget rfl rfl
        · exact ih _ _ _ h

theorem consistent_retransmitLoop {time : UInt32} (h : Consistent coap) :
    Consistent (retransmitLoop time coap) :=
  consistent_retransmitFrom _ _ _ _ h

/-! ## Runs -/

/-- The condition on an operation. -/
def Intact (coap : CoapEngine) : Operation → Prop
  | .receive env len buf source => ReceiveIntact env len buf source coap
  | .notify env applications outputDataLen => NotifyIntact env applications outputDataLen coap
  | _ => True

/-- One operation of an engine. -/
def step : CoapEngine → Operation → CoapEngine → Prop :=
  stepOf fun coap operation => some (perform coap operation)

theorem consistent_step {next : CoapEngine} {operation : Operation} (h : Consistent coap)
    (hstep : Guarded Intact step coap operation next) : Consistent next := by
  obtain ⟨hintact, hnext⟩ := hstep
  rw [← Option.some.inj hnext]
  cases operation with
  | addResource resource => exact consistent_addResource h
  | notifyFromInterrupt name => exact consistent_notifyFromInterrupt h
  | receive env len buf source => exact consistent_receiver h hintact
  | notify env applications outputDataLen => exact consistent_coapNotify h hintact
  | retransmit time => exact consistent_retransmitLoop h

theorem consistent_run {first last : CoapEngine} {operations : List Operation}
    (hrun : Run (Guarded Intact step) first operations last) (hfirst : Consistent first) :
    Consistent last :=
  hrun.invariant (fun _ _ _ h hstep => consistent_step h hstep) hfirst

/-- In a run of intact operations every notification is about the resource that was
registered for, with its answer and the latest token, every reset removes the
observer it answers, and the observers stay inside the vector of resources. -/
theorem observe_consistent {id : ℕ} {rand : UInt16} {resources : ℕ → Resource}
    {outputData : ℕ → UInt8} {operations : List Operation} {last : CoapEngine}
    (hrun : Run (Guarded Intact step) (init id rand resources outputData) operations last) :
    Lawful last.log ∧
      ∀ observer ∈ last.observers, observer.resourceId < last.resources.size := by
  have h : Consistent last := consistent_run hrun (consistent_init id rand resources outputData)
  exact ⟨h.lawful, fun observer hmem => (h.tracked observer hmem).inRange⟩

/-! ### Two runs -/

/-- A packet in memory that is zero. -/
def zeroPacket : CoapPacket :=
  ⟨0, 0, 0, 0, 0, 0, 0, 0, 0, 0, 0, [], 0, 0, [], 0, 0, 0, 0, 0, 0, []⟩

/-- A resource with a name and a saved text, to be observed every second. -/
def textResource (name text : List UInt8) : Resource :=
  { del := none
    name := name
    representation := text
    methods := getOrDelete
    notifyTime := 1
    fastResource := true
    contentType := textPlain
    interruptFlag := false
    serial := 0 }

/-- A node without resources. -/
def emptyNode : CoapEngine := init 1 0 (fun _ => textResource [] []) fun _ => 0

/-- The clock, with callbacks that are not used. -/
def atTime (time : UInt32) : Surroundings :=
  { time := time
    msg := zeroPacket
    response := zeroPacket
    application := fun _ _ => ⟨.internalServerError, none⟩ }

/-- A message in memory. -/
def received (bytes : List UInt8) (source : ℕ) : Operation :=
  .receive (atTime 0) (UInt8.ofNat bytes.length) (fun i => bytes.getD i 0) source

/-- `GET b` with an observe option and the token 7. -/
def observeB : List UInt8 := [102, 0x43, 1, 1, 44, 0x91, 0x62, 0x10, 0x11, 7]

/-- `DELETE a`. -/
def deleteA : List UInt8 := [102, 0x41, 4, 1, 45, 0x91, 0x61]

/-- A client observes the only resource, and is notified. -/
def observing : List Operation :=
  [.addResource (textResource [0x62] [0x42]), received observeB 7,
    .notify (atTime 5) (fun _ => (atTime 5).application) 0]

/-- A client observes the second of three resources before the first is deleted. -/
def deleting : List Operation :=
  [.addResource (textResource [0x61] [0x41]), .addResource (textResource [0x62] [0x42]),
    .addResource (textResource [0x63] [0x43]), received observeB 7, received deleteA 8,
    .notify (atTime 5) (fun _ => (atTime 5).application) 0]

theorem run_foldl {operations : List Operation} {first : CoapEngine} :
    Run step first operations (operations.foldl perform first) := by
  induction operations generalizing first with
  | nil => exact .nil first
  | cons operation rest ih => exact .cons rfl ih

theorem receiveIntact_observeB :
    Intact (emptyNode.addResource (textResource [0x62] [0x42])) (received observeB 7) := by
  have hobservers : (emptyNode.addResource (textResource [0x62] [0x42])).observers = [] := rfl
  intro msg hparse _
  have hmsg : msg = (parse (atTime 0) (UInt8.ofNat observeB.length)
      fun i => observeB.getD i 0).2 := congrArg Prod.snd hparse.symm
  subst hmsg
  exact
    { delete := fun _ _ hdelete => absurd hdelete (by decide +kernel)
      observe := fun i _ _ =>
        { host_lt := by decide
          token := by decide +kernel
          room := fun observer hmem => absurd hmem (by simp [hobservers]) }
      reset := fun hreset => absurd hreset.1 (by decide +kernel) }

/-- A notification that is not about the resource the observer registered for. -/
def Event.isMisdirected : Event → Bool
  | .notified n => n.source ≠ n.target
  | _ => false

theorem not_misdirected {log : List Event} (hlawful : Lawful log) :
    ∀ event ∈ log, Event.isMisdirected event = false := by
  induction log with
  | nil => simp
  | cons first past ih =>
      intro event hmem
      rcases List.mem_cons.1 hmem with rfl | hpast
      · cases event with
        | notified n => simpa [Event.isMisdirected] using hlawful.1.source
        | registered _ _ _ => rfl
        | deleted _ => rfl
        | reset _ _ _ => rfl
        | sent _ _ => rfl
        | retransmitted _ _ => rfl
      · exact ih hlawful.2 event hpast

/-- The node with its observer. -/
def observedNode : CoapEngine :=
  perform (emptyNode.addResource (textResource [0x62] [0x42])) (received observeB 7)

theorem notifyIntact_observing :
    NotifyIntact (atTime 5) (fun _ => (atTime 5).application) 0 observedNode := by
  have hlength : observedNode.observers.length = 1 := by decide +kernel
  intro i hi
  obtain rfl : i = 0 := by omega
  have hfits : ∀ observer ∈ observedNode.observers[0]?,
      ((observedNode.resources.cells observer.resourceId).execute (atTime 5).application
        ⟨coapGet, []⟩).output = some [0x42] ∧
      noticeLength observer (observedNode.resources.cells observer.resourceId)
        observedNode.observeCounter + 1 ≤ confMaxMsgLen := by decide +kernel
  intro observer hget _
  exact ⟨[0x42], hfits observer hget⟩

/-- The client that observes is notified, and as it should be. -/
theorem observe_consistent_observing :
    (observing.foldl perform emptyNode).log.any (fun event => event matches .notified _) ∧
      Lawful (observing.foldl perform emptyNode).log ∧
      ∀ observer ∈ (observing.foldl perform emptyNode).observers,
        observer.resourceId < (observing.foldl perform emptyNode).resources.size := by
  have hrun : Run (Guarded Intact step) emptyNode observing (observing.foldl perform emptyNode) :=
    .cons ⟨trivial, rfl⟩ (.cons ⟨receiveIntact_observeB, rfl⟩
      (.cons ⟨notifyIntact_observing, rfl⟩ (.nil _)))
  exact ⟨by decide +kernel, observe_consistent hrun⟩

/-- The client of the other run is notified about the wrong resource. -/
theorem not_lawful_deleting :
    ¬ ∀ operations last, Run step emptyNode operations last → Lawful last.log := by
  intro h
  have hwrong : ∃ event ∈ (deleting.foldl perform emptyNode).log,
      Event.isMisdirected event = true := by decide +kernel
  obtain ⟨event, hmem, hmis⟩ := hwrong
  rw [not_misdirected (h deleting _ run_foldl) event hmem] at hmis
  exact absurd hmis Bool.false_ne_true

end CoapEngine

end Wiselib.Coap
