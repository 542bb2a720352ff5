import Wiselib.Radio.FragmentingRadio

/-!
# What the fragmenting radio hands over

A receiver knows the message of a fragment by its random id alone, joins the
fragments in the order in which they came, and forgets a message when it is
complete.  So fragments of two messages under one id mix, fragments that overtake
each other are joined in the wrong order, and frames that come again can make a
message complete again: `handed_not_sent` is a run in which two fragments arrive
in the reverse order.

`handed_sent_once` proves that nothing else can go wrong.  In every run in which
a fragment is put only to earlier fragments of its own message, and nothing of a
message is put together again after it was handed over, every payload is handed
over at most as often as its sender passed it to `send`.

## Strategy

* An active message of a receiver consists of fragments of one message in
  increasing order, and is not complete (`Assembles`).  The condition on a step
  keeps that.
* When the last fragment comes there are as many as the message has, in
  increasing order, so they are all of them (`eq_vectorize`) and join to the
  payload.
* A message that is handed over was not handed over before, so the serial numbers
  of what was handed over are distinct and were all sent (`Intact`).
-/

namespace Wiselib.Radio.Fragmenting

open Network

variable {Node : Type*} [DecidableEq Node] {config : Config}

/-! ## The condition -/

/-- The report says that the node was handed this message. -/
def handsOrigin (node : Node) (origin : Node × ℕ) : Node × Report Node → Bool
  | (other, .handed sender serial _ _ _) =>
      decide (other = node) && decide ((sender, serial) = origin)
  | _ => false

/-- The message was handed over to the node. -/
def handedOver (world : World Node (FragmentingRadio Node) (Frame Node) (Report Node))
    (node : Node) (origin : Node × ℕ) : Bool :=
  world.log.any (handsOrigin node origin)

/-- The fragment is not put to this buffered message, or the message has it, or it
is put to earlier fragments of its own message, which was not handed over yet. -/
def putInOrder (world : World Node (FragmentingRadio Node) (Frame Node) (Report Node))
    (node : Node) (fragment : Fragment (Node × ℕ)) (message : FragmentingMessage (Node × ℕ)) :
    Bool :=
  message.id != fragment.id || !message.active ||
    (message.fragments.any fun other => fragment.seq_fragment == other.seq_fragment) ||
    (message.fragments.all fun other =>
      decide (other.origin = fragment.origin) &&
        decide (other.seq_fragment < fragment.seq_fragment)) &&
      !handedOver world node fragment.origin

/-- The condition on a step: the fragments of a message can be numbered in the
radio's `size_t`, fragments are put in order, and a whole message does not come
again. -/
def assemblyIntact (config : Config)
    (world : World Node (FragmentingRadio Node) (Frame Node) (Report Node)) :
    Op Node (Input Node) → Bool
  | .input _ (.send _ message _) =>
      decide (message.serialSize ≤ config.maxMessageLength) ||
        decide (numberOfFragments message.payload.length config.fragmentPayload <
          256 ^ config.sizeBytes)
  | .deliver node position =>
      let state := world.states node
      match world.sent[position]? with
      | some ⟨sender, _, .fragment fragment⟩ =>
          !state.active || decide (sender = node) ||
            state.messages.all (putInOrder world node fragment)
      | some ⟨sender, _, .whole serial _⟩ =>
          !state.active || decide (sender = node) || !handedOver world node (sender, serial)
      | none => true
  | _ => true

/-! ## Messages that are put together -/

/-- A message that was sent in fragments. -/
structure LongMessage (config : Config) (log : List (Node × Report Node)) (origin : Node × ℕ)
    (id : UInt8) (payload : List UInt8) : Prop where
  sent : (origin.1, Report.sent origin.2 id payload) ∈ log
  payload_pos : 0 < config.fragmentPayload
  fits : numberOfFragments payload.length config.fragmentPayload < 256 ^ config.sizeBytes
  several : 2 ≤ numberOfFragments payload.length config.fragmentPayload

/-- The buffered message consists of fragments of this message in increasing
order. -/
structure Gathers (config : Config) (origin : Node × ℕ) (id : UInt8) (payload : List UInt8)
    (message : FragmentingMessage (Node × ℕ)) : Prop where
  nonempty : message.fragments ≠ []
  origId : message.orig_id = id
  mem : ∀ fragment ∈ message.fragments,
    fragment ∈ vectorize config origin message.id id payload config.fragmentPayload
  ordered : message.fragments.Pairwise fun first second =>
    first.seq_fragment < second.seq_fragment

/-- The buffered message consists of fragments of a message that was sent, and
some are missing. -/
def Assembles (config : Config) (log : List (Node × Report Node))
    (message : FragmentingMessage (Node × ℕ)) : Prop :=
  ∃ origin id payload, LongMessage config log origin id payload ∧
    Gathers config origin id payload message ∧
    message.fragments.length < numberOfFragments payload.length config.fragmentPayload

omit [DecidableEq Node] in
theorem LongMessage.mono {log later : List (Node × Report Node)} {origin : Node × ℕ} {id : UInt8}
    {payload : List UInt8} (hlong : LongMessage config log origin id payload)
    (hlater : log ⊆ later) : LongMessage config later origin id payload :=
  ⟨hlater hlong.sent, hlong.payload_pos, hlong.fits, hlong.several⟩

omit [DecidableEq Node] in
theorem Assembles.mono {log later : List (Node × Report Node)}
    {message : FragmentingMessage (Node × ℕ)} (hmessage : Assembles config log message)
    (hlater : log ⊆ later) : Assembles config later message := by
  obtain ⟨origin, id, payload, hlong, hgathers, hopen⟩ := hmessage
  exact ⟨origin, id, payload, hlong.mono hlater, hgathers, hopen⟩

omit [DecidableEq Node] in
/-- A message is complete when all fragments of the message it was cut from are
there. -/
theorem Gathers.complete_iff_count {log : List (Node × Report Node)} {origin : Node × ℕ} {id : UInt8}
    {payload : List UInt8} {message : FragmentingMessage (Node × ℕ)}
    (hgathers : Gathers config origin id payload message)
    (hlong : LongMessage config log origin id payload) :
    message.checkCompleteness = .complete ↔
      message.fragments.length = numberOfFragments payload.length config.fragmentPayload := by
  rw [FragmentingMessage.checkCompleteness_eq_complete]
  have htotal : ∀ fragment ∈ message.fragments, fragment.total_fragments =
      numberOfFragments payload.length config.fragmentPayload := by
    intro fragment hfragment
    obtain ⟨i, -, rfl⟩ := mem_vectorize hlong.payload_pos (hgathers.mem fragment hfragment)
    exact Nat.mod_eq_of_lt hlong.fits
  cases hfragments : message.fragments with
  | nil => exact absurd hfragments hgathers.nonempty
  | cons first rest =>
      have hfirst := htotal first (by rw [hfragments]; exact List.mem_cons_self)
      constructor
      · intro hexists
        obtain ⟨other, others, heq, hcount⟩ := hexists
        obtain ⟨rfl, -⟩ := List.cons.inj heq
        rw [hcount, hfirst]
      · intro hcount
        exact ⟨first, rest, rfl, hcount.trans hfirst.symm⟩

omit [DecidableEq Node] in
theorem Gathers.deVectorize_eq {log : List (Node × Report Node)} {origin : Node × ℕ} {id : UInt8}
    {payload : List UInt8} {message : FragmentingMessage (Node × ℕ)}
    (hgathers : Gathers config origin id payload message)
    (hlong : LongMessage config log origin id payload)
    (hcomplete : message.checkCompleteness = .complete) : message.deVectorize = payload := by
  have hcount := (hgathers.complete_iff_count hlong).1 hcomplete
  have hall := eq_vectorize hlong.payload_pos hlong.fits hgathers.mem hgathers.ordered hcount
  unfold FragmentingMessage.deVectorize
  rw [hall]
  apply join_vectorize hlong.payload_pos
  rw [← hall]
  exact hcount

omit [DecidableEq Node] in
theorem Gathers.append {origin : Node × ℕ} {id otherId : UInt8} {payload other : List UInt8}
    {message : FragmentingMessage (Node × ℕ)} {fragment : Fragment (Node × ℕ)}
    (hgathers : Gathers config origin id payload message) (hpos : 0 < config.fragmentPayload)
    (hcut : fragment ∈ vectorize config fragment.origin fragment.id otherId other
      config.fragmentPayload)
    (hid : message.id = fragment.id)
    (horder : ∀ earlier ∈ message.fragments,
      earlier.origin = fragment.origin ∧ earlier.seq_fragment < fragment.seq_fragment)
    (hsame : fragment.origin = origin → id = otherId ∧ payload = other) :
    fragment.origin = origin ∧
      Gathers config origin id payload
        { message with fragments := message.fragments ++ [fragment] } := by
  obtain ⟨first, hfirst⟩ := List.exists_mem_of_ne_nil _ hgathers.nonempty
  obtain ⟨i, -, heq⟩ := mem_vectorize hpos (hgathers.mem first hfirst)
  have horigin : fragment.origin = origin := by
    rw [← (horder first hfirst).1, heq]
    rfl
  obtain ⟨rfl, rfl⟩ := hsame horigin
  refine ⟨horigin, by simp, hgathers.origId, ?_, ?_⟩
  · intro other hother
    rcases List.mem_append.1 hother with hold | hnew
    · exact hgathers.mem other hold
    · rw [List.mem_singleton.1 hnew]
      rw [horigin, ← hid] at hcut
      exact hcut
  · apply List.pairwise_append.2 ⟨hgathers.ordered, List.pairwise_singleton _ _, ?_⟩
    intro earlier hearlier later hlater
    rw [List.mem_singleton.1 hlater]
    exact (horder earlier hearlier).2

/-! ## Worlds -/

/-- Serial numbers belong to one message each, all frames come from messages that
were sent, all receivers put messages together rightly, and what was handed over
was sent and not handed over before. -/
structure Intact (config : Config)
    (world : World Node (FragmentingRadio Node) (Frame Node) (Report Node)) : Prop where
  serials : ∀ node serial id payload, (node, Report.sent serial id payload) ∈ world.log →
    serial < (world.states node).serial
  distinct : ∀ node serial id other payload content,
    (node, Report.sent serial id payload) ∈ world.log →
    (node, Report.sent serial other content) ∈ world.log → id = other ∧ payload = content
  whole : ∀ packet ∈ world.sent, ∀ serial message, packet.frame = .whole serial message →
    (packet.sender, Report.sent serial message.message_id message.payload) ∈ world.log
  cut : ∀ packet ∈ world.sent, ∀ fragment, packet.frame = .fragment fragment →
    fragment.origin.1 = packet.sender ∧
    ∃ id payload, LongMessage config world.log fragment.origin id payload ∧
      fragment ∈ vectorize config fragment.origin fragment.id id payload config.fragmentPayload
  messages : ∀ node, ∀ message ∈ (world.states node).messages, message.active = true →
    Assembles config world.log message
  handed : ∀ node sender serial length id payload,
    (node, Report.handed sender serial length id payload) ∈ world.log →
    (sender, Report.sent serial id payload) ∈ world.log
  once : world.log.Pairwise fun earlier later =>
    ∀ node origin, handsOrigin node origin later = true → handsOrigin node origin earlier = false

/-- What a handler other than `send` does: it puts messages together rightly, and
hands over at most one message, which was sent and not handed over before. -/
structure Collects (config : Config)
    (world : World Node (FragmentingRadio Node) (Frame Node) (Report Node)) (node : Node)
    (result : FragmentingRadio Node × Effects Node (Frame Node) (Report Node)) : Prop where
  serial : result.1.serial = (world.states node).serial
  sends : result.2.sends = []
  messages : ∀ message ∈ result.1.messages, message.active = true →
    Assembles config world.log message
  reports : result.2.reports = [] ∨
    ∃ sender serial length id payload,
      result.2.reports = [.handed sender serial length id payload] ∧
      (sender, Report.sent serial id payload) ∈ world.log ∧
      handedOver world node (sender, serial) = false

section Steps

variable {world : World Node (FragmentingRadio Node) (Frame Node) (Report Node)} {node : Node}
  {result : FragmentingRadio Node × Effects Node (Frame Node) (Report Node)}

theorem handsOrigin_iff {origin : Node × ℕ} {entry : Node × Report Node} :
    handsOrigin node origin entry = true ↔
      ∃ length id payload, entry = (node, .handed origin.1 origin.2 length id payload) := by
  obtain ⟨other, event⟩ := entry
  cases event with
  | sent serial id payload => simp [handsOrigin]
  | handed sender serial length id payload =>
      simp only [handsOrigin, Bool.and_eq_true, decide_eq_true_eq]
      constructor
      · intro hsame
        obtain ⟨rfl, rfl⟩ := hsame
        exact ⟨length, id, payload, rfl⟩
      · intro hsame
        obtain ⟨toldLength, toldId, told, htold⟩ := hsame
        obtain ⟨rfl, heq⟩ := Prod.mk.inj htold
        rw [Report.handed.injEq] at heq
        exact ⟨rfl, by rw [heq.1, heq.2.1]⟩

theorem handedOver_eq_false {origin : Node × ℕ} (hnever : handedOver world node origin = false)
    {entry : Node × Report Node} (hentry : entry ∈ world.log) :
    handsOrigin node origin entry = false :=
  Bool.eq_false_iff.2 (List.any_eq_false.1 hnever entry hentry)

theorem Intact.act_collects (hworld : Intact config world)
    (hcollects : Collects config world node result) : Intact config (world.act node result) := by
  have hlog : world.log ⊆ (world.act node result).log :=
    fun entry hentry => World.mem_act_log.2 (.inl hentry)
  have hserial : ∀ other,
      ((world.act node result).states other).serial = (world.states other).serial := by
    intro other
    by_cases hother : other = node
    · subst hother
      rw [World.act_states_self]
      exact hcollects.serial
    · rw [World.act_states_other _ _ hother]
  -- nothing is added to what was sent
  have hsent : ∀ other serial id payload,
      (other, Report.sent serial id payload) ∈ (world.act node result).log →
      (other, Report.sent serial id payload) ∈ world.log := by
    intro other serial id payload hentry
    rcases World.mem_act_log.1 hentry with hold | ⟨-, hreport⟩
    · exact hold
    · rcases hcollects.reports with hnone | ⟨sender, serial', length, id', payload', heq, -⟩
      · rw [hnone] at hreport
        simp at hreport
      · rw [heq] at hreport
        simp at hreport
  have hair : ∀ packet ∈ (world.act node result).sent, packet ∈ world.sent := by
    intro packet hpacket
    rcases World.mem_act_sent.1 hpacket with hold | ⟨-, hsend⟩
    · exact hold
    · rw [hcollects.sends] at hsend
      simp at hsend
  constructor
  · intro other serial id payload hentry
    rw [hserial]
    exact hworld.serials other serial id payload (hsent _ _ _ _ hentry)
  · intro other serial id otherId payload content hfirst hsecond
    exact hworld.distinct other serial id otherId payload content (hsent _ _ _ _ hfirst)
      (hsent _ _ _ _ hsecond)
  · intro packet hpacket serial message hframe
    exact hlog (hworld.whole packet (hair packet hpacket) serial message hframe)
  · intro packet hpacket fragment hframe
    obtain ⟨hsender, id, payload, hlong, hcut⟩ :=
      hworld.cut packet (hair packet hpacket) fragment hframe
    exact ⟨hsender, id, payload, hlong.mono hlog, hcut⟩
  · intro other message hmessage hactive
    by_cases hother : other = node
    · subst hother
      rw [World.act_states_self] at hmessage
      exact (hcollects.messages message hmessage hactive).mono hlog
    · rw [World.act_states_other _ _ hother] at hmessage
      exact (hworld.messages other message hmessage hactive).mono hlog
  · intro other sender serial length id payload hentry
    rcases World.mem_act_log.1 hentry with hold | ⟨-, hreport⟩
    · exact hlog (hworld.handed other sender serial length id payload hold)
    · rcases hcollects.reports with hnone | ⟨sender', serial', length', id', payload', heq, hwas, -⟩
      · rw [hnone] at hreport
        simp at hreport
      · rw [heq, List.mem_singleton, Report.handed.injEq] at hreport
        obtain ⟨rfl, rfl, -, rfl, rfl⟩ := hreport
        exact hlog hwas
  · show (world.log ++ result.2.reports.map fun event => (node, event)).Pairwise _
    rcases hcollects.reports with hnone | ⟨sender, serial, length, id, payload, heq, -, hnever⟩
    · rw [hnone, List.map_nil, List.append_nil]
      exact hworld.once
    · rw [heq, List.map_singleton]
      apply List.pairwise_append.2 ⟨hworld.once, List.pairwise_singleton _ _, ?_⟩
      intro earlier hearlier later hlater other origin hhands
      rw [List.mem_singleton.1 hlater] at hhands
      obtain ⟨length', id', payload', hsame⟩ := handsOrigin_iff.1 hhands
      obtain ⟨rfl, hevent⟩ := Prod.mk.inj hsame
      rw [Report.handed.injEq] at hevent
      have horigin : origin = (sender, serial) := by rw [hevent.1, hevent.2.1]
      rw [horigin]
      exact handedOver_eq_false hnever hearlier

theorem Intact.act_quiet (hworld : Intact config world)
    (hserial : result.1.serial = (world.states node).serial) (heffects : result.2 = .none)
    (hmessages : ∀ message ∈ result.1.messages, message.active = true →
      ∃ old ∈ (world.states node).messages, old.active = true ∧ old.id = message.id ∧
        old.orig_id = message.orig_id ∧ old.fragments = message.fragments) :
    Intact config (world.act node result) := by
  apply hworld.act_collects
  refine ⟨hserial, by rw [heffects]; rfl, ?_, .inl (by rw [heffects]; rfl)⟩
  intro message hmessage hactive
  obtain ⟨old, hold, holdActive, hid, horig, hfragments⟩ := hmessages message hmessage hactive
  obtain ⟨origin, id, payload, hlong, hgathers, hopen⟩ :=
    hworld.messages node old hold holdActive
  refine ⟨origin, id, payload, hlong, ⟨?_, ?_, ?_, ?_⟩, ?_⟩
  · rw [← hfragments]
    exact hgathers.nonempty
  · rw [← horig]
    exact hgathers.origId
  · rw [← hfragments, ← hid]
    exact hgathers.mem
  · rw [← hfragments]
    exact hgathers.ordered
  · rw [← hfragments]
    exact hopen

/-- A long message needs at least two fragments: the header of a fragment is longer
than the header of a message. -/
theorem two_le_numberOfFragments {message : Message}
    (hlong : ¬ message.serialSize ≤ config.maxMessageLength)
    (hroom : config.reservedBytes < config.maxMessageLength) :
    2 ≤ numberOfFragments message.payload.length config.fragmentPayload := by
  have hbytes := config.sizeBytes_pos
  have hpos : 0 < config.fragmentPayload := Nat.sub_pos_of_lt hroom
  have hlt : config.fragmentPayload < message.payload.length := by
    unfold Message.serialSize headerBytes at hlong
    unfold Config.fragmentPayload
    unfold Config.reservedBytes at hroom ⊢
    omega
  have hdiv := Nat.div_add_mod message.payload.length config.fragmentPayload
  unfold numberOfFragments
  split
  · have hone : 1 ≤ message.payload.length / config.fragmentPayload :=
      (Nat.one_le_div_iff hpos).2 hlt.le
    omega
  · rename_i hrest
    rw [not_not] at hrest
    rw [hrest, Nat.add_zero] at hdiv
    by_contra hfew
    have hquotient : message.payload.length / config.fragmentPayload ≤ 1 := by omega
    have hle : config.fragmentPayload * (message.payload.length / config.fragmentPayload) ≤
        config.fragmentPayload * 1 := Nat.mul_le_mul_left _ hquotient
    omega

theorem Intact.act_send (hworld : Intact config world) {destination : Option Node}
    {message : Message} {random : ℕ}
    (hguard : assemblyIntact config world (.input node (.send destination message random)) = true) :
    Intact config (world.act node
      ((world.states node).send config node destination message random)) := by
  have hlog : (world.act node
        ((world.states node).send config node destination message random)).log =
      world.log ++
        [(node, .sent (world.states node).serial message.message_id message.payload)] := rfl
  have hsub : world.log ⊆ (world.act node
      ((world.states node).send config node destination message random)).log := by
    rw [hlog]
    exact List.subset_append_left _ _
  have hframes : ∀ frame receiver,
      (receiver, frame) ∈ ((world.states node).send config node destination message random).2.sends →
      frame ∈ framesOf config node (world.states node).serial message random := by
    intro frame receiver hsend
    unfold FragmentingRadio.send at hsend
    dsimp only at hsend
    split at hsend
    · obtain ⟨other, hother, heq⟩ := List.mem_map.1 hsend
      rw [Prod.mk.injEq] at heq
      rw [← heq.2]
      exact hother
    · simp at hsend
  constructor
  · intro other serial id payload hentry
    rw [hlog] at hentry
    by_cases hother : other = node
    · subst hother
      rw [World.act_states_self]
      show serial < (world.states other).serial + 1
      rcases List.mem_append.1 hentry with hold | hnew
      · exact (hworld.serials other serial id payload hold).trans (Nat.lt_succ_self _)
      · rw [List.mem_singleton, Prod.mk.injEq, Report.sent.injEq] at hnew
        rw [hnew.2.1]
        exact Nat.lt_succ_self _
    · rw [World.act_states_other _ _ hother]
      rcases List.mem_append.1 hentry with hold | hnew
      · exact hworld.serials other serial id payload hold
      · rw [List.mem_singleton, Prod.mk.injEq] at hnew
        exact absurd hnew.1 hother
  · intro other serial id otherId payload content hfirst hsecond
    rw [hlog] at hfirst hsecond
    rcases List.mem_append.1 hfirst with hold | hnew
    · rcases List.mem_append.1 hsecond with hold' | hnew'
      · exact hworld.distinct other serial id otherId payload content hold hold'
      · rw [List.mem_singleton, Prod.mk.injEq, Report.sent.injEq] at hnew'
        obtain ⟨rfl, rfl, -⟩ := hnew'
        exact absurd (hworld.serials _ _ _ _ hold) (Nat.lt_irrefl _)
    · rw [List.mem_singleton, Prod.mk.injEq, Report.sent.injEq] at hnew
      obtain ⟨rfl, rfl, rfl, rfl⟩ := hnew
      rcases List.mem_append.1 hsecond with hold' | hnew'
      · exact absurd (hworld.serials _ _ _ _ hold') (Nat.lt_irrefl _)
      · rw [List.mem_singleton, Prod.mk.injEq, Report.sent.injEq] at hnew'
        exact ⟨hnew'.2.2.1.symm, hnew'.2.2.2.symm⟩
  · intro packet hpacket serial other hframe
    rcases World.mem_act_sent.1 hpacket with hold | ⟨hsender, hsend⟩
    · exact hsub (hworld.whole packet hold serial other hframe)
    · have hmem := hframes _ _ hsend
      rw [hframe] at hmem
      unfold framesOf at hmem
      split at hmem
      · rw [List.mem_singleton, Frame.whole.injEq] at hmem
        obtain ⟨rfl, rfl⟩ := hmem
        rw [hsender, hlog]
        exact List.mem_append_right _ List.mem_cons_self
      · split at hmem
        · simp at hmem
        · simp at hmem
  · intro packet hpacket fragment hframe
    rcases World.mem_act_sent.1 hpacket with hold | ⟨hsender, hsend⟩
    · obtain ⟨horigin, id, payload, hlong, hcut⟩ := hworld.cut packet hold fragment hframe
      exact ⟨horigin, id, payload, hlong.mono hsub, hcut⟩
    · have hmem := hframes _ _ hsend
      rw [hframe] at hmem
      unfold framesOf at hmem
      split at hmem
      · simp at hmem
      · rename_i hlong
        split at hmem
        · rename_i hroom
          obtain ⟨other, hcut, heq⟩ := List.mem_map.1 hmem
          rw [Frame.fragment.injEq] at heq
          subst heq
          have hpos : 0 < config.fragmentPayload := Nat.sub_pos_of_lt hroom
          obtain ⟨i, -, heq⟩ := mem_vectorize hpos hcut
          have horigin : other.origin = (node, (world.states node).serial) := by
            rw [heq]
            rfl
          have hid : other.id = UInt16.ofNat (random % 0xffff) := by
            rw [heq]
            rfl
          rw [horigin, hid]
          refine ⟨hsender.symm, message.message_id, message.payload, ⟨?_, hpos, ?_, ?_⟩, hcut⟩
          · rw [hlog]
            exact List.mem_append_right _ List.mem_cons_self
          · simpa [assemblyIntact, hlong] using hguard
          · exact two_le_numberOfFragments hlong hroom
        · simp at hmem
  · intro other buffered hbuffered hactive
    by_cases hother : other = node
    · subst hother
      rw [World.act_states_self] at hbuffered
      exact (hworld.messages other buffered hbuffered hactive).mono hsub
    · rw [World.act_states_other _ _ hother] at hbuffered
      exact (hworld.messages other buffered hbuffered hactive).mono hsub
  · intro other sender serial length id payload hentry
    rw [hlog] at hentry
    rcases List.mem_append.1 hentry with hold | hnew
    · exact hsub (hworld.handed other sender serial length id payload hold)
    · simp at hnew
  · rw [hlog]
    apply List.pairwise_append.2 ⟨hworld.once, List.pairwise_singleton _ _, ?_⟩
    intro earlier hearlier later hlater other origin hhands
    rw [List.mem_singleton.1 hlater] at hhands
    simp [handsOrigin] at hhands

/-- What is put in order is still put together rightly, and what becomes complete
was sent and was not handed over. -/
theorem Intact.insert (hworld : Intact config world) {fragment : Fragment (Node × ℕ)}
    {message : FragmentingMessage (Node × ℕ)} {id : UInt8} {payload : List UInt8}
    (hmessage : message ∈ (world.states node).messages) (hactive : message.active = true)
    (hid : message.id = fragment.id)
    (hlong : LongMessage config world.log fragment.origin id payload)
    (hcut : fragment ∈ vectorize config fragment.origin fragment.id id payload
      config.fragmentPayload)
    (hguard : putInOrder world node fragment message = true) :
    ((message.insertUnique config fragment).checkCompleteness ≠ .complete →
      Assembles config world.log (message.insertUnique config fragment)) ∧
    ((message.insertUnique config fragment).checkCompleteness = .complete →
      handedOver world node fragment.origin = false ∧
      (message.insertUnique config fragment).orig_id = id ∧
      (message.insertUnique config fragment).deVectorize = payload) := by
  obtain ⟨origin, otherId, other, hsent, hgathers, hopen⟩ :=
    hworld.messages node message hmessage hactive
  rcases message.insertUnique_cases config fragment with heq | ⟨heq, -, hnew⟩
  · rw [heq]
    constructor
    · exact fun _ => ⟨origin, otherId, other, hsent, hgathers, hopen⟩
    · intro hcomplete
      have hcount := (hgathers.complete_iff_count hsent).1 hcomplete
      omega
  · have hunseen : (message.fragments.any fun earlier =>
        fragment.seq_fragment == earlier.seq_fragment) = false := by
      rw [List.any_eq_false]
      intro earlier hearlier hsame
      exact hnew earlier hearlier (beq_iff_eq.1 hsame)
    unfold putInOrder at hguard
    rw [hunseen, hid, hactive] at hguard
    simp only [bne_self_eq_false, Bool.not_true, Bool.false_or, Bool.and_eq_true, List.all_eq_true,
      decide_eq_true_eq, Bool.not_eq_true'] at hguard
    obtain ⟨horder, hnever⟩ := hguard
    have hsame : fragment.origin = origin → otherId = id ∧ other = payload := by
      intro horigin
      have hlong' := hlong.sent
      rw [horigin] at hlong'
      exact hworld.distinct _ _ _ _ _ _ hsent.sent hlong'
    obtain ⟨horigin, hgathers'⟩ :=
      hgathers.append hsent.payload_pos hcut hid horder hsame
    obtain ⟨rfl, rfl⟩ := hsame horigin
    rw [heq]
    constructor
    · intro hincomplete
      refine ⟨origin, otherId, other, hsent, hgathers', ?_⟩
      have hne : (message.fragments ++ [fragment]).length ≠
          numberOfFragments other.length config.fragmentPayload :=
        fun hcount => hincomplete ((hgathers'.complete_iff_count hsent).2 hcount)
      show (message.fragments ++ [fragment]).length < _
      rw [List.length_append, List.length_singleton] at hne ⊢
      omega
    · intro hcomplete
      exact ⟨hnever, hgathers'.origId, hgathers'.deVectorize_eq hsent hcomplete⟩

omit [DecidableEq Node] in
theorem assembles_newMessage {log : List (Node × Report Node)} {now : UInt32}
    {fragment : Fragment (Node × ℕ)} {id : UInt8} {payload : List UInt8}
    (hlong : LongMessage config log fragment.origin id payload)
    (hcut : fragment ∈ vectorize config fragment.origin fragment.id id payload
      config.fragmentPayload) : Assembles config log (newMessage config now fragment) := by
  have hfragments : (newMessage config now fragment).fragments = [fragment] := by
    show pushBack config.maxFragments fragment [] = [fragment]
    exact if_pos config.maxFragments_pos
  obtain ⟨i, -, heq⟩ := mem_vectorize hlong.payload_pos hcut
  refine ⟨fragment.origin, id, payload, hlong, ⟨?_, ?_, ?_, ?_⟩, ?_⟩
  · rw [hfragments]
    exact List.cons_ne_nil _ _
  · show fragment.orig_id = id
    rw [heq]
    rfl
  · intro other hother
    rw [hfragments] at hother
    rw [List.mem_singleton.1 hother]
    exact hcut
  · rw [hfragments]
    exact List.pairwise_singleton _ _
  · rw [hfragments]
    exact hlong.several

theorem Intact.act_receive (hworld : Intact config world) {hears : Node → Node → Prop}
    {position : ℕ} {packet : Packet Node (Frame Node)}
    (hguard : assemblyIntact config world (.deliver node position) = true)
    (hposition : world.sent[position]? = some packet) (hpacket : packet ∈ world.sent)
    (hreaches : Reaches hears packet node) :
    Intact config (world.act node
      ((world.states node).receive config node packet.sender packet.frame)) := by
  have hquiet : Intact config (world.act node (world.states node, .none)) :=
    hworld.act_quiet rfl rfl fun message hmessage hactive =>
      ⟨message, hmessage, hactive, rfl, rfl, rfl⟩
  unfold FragmentingRadio.receive
  split
  · rename_i hawake
    obtain ⟨hactive, hne⟩ := hawake
    obtain ⟨sender, receiver, frame⟩ := packet
    dsimp only at hne ⊢
    cases frame with
    | whole serial message =>
        dsimp only
        have hnever : handedOver world node (sender, serial) = false := by
          simpa [assemblyIntact, hposition, hactive, hne] using hguard
        have hsent := hworld.whole _ hpacket serial message rfl
        by_cases hcallbacks : (world.states node).callbacks = 0
        · simp only [FragmentingRadio.tell, if_pos hcallbacks]
          exact hquiet
        · apply hworld.act_collects
          refine ⟨rfl, rfl, fun message => hworld.messages node message, .inr ?_⟩
          exact ⟨sender, serial, _, _, _, if_neg hcallbacks, hsent, hnever⟩
    | fragment fragment =>
        obtain ⟨horigin, id, payload, hlong, hcut⟩ := hworld.cut _ hpacket fragment rfl
        have hput : ∀ message ∈ (world.states node).messages,
            putInOrder world node fragment message = true := by
          have hall : (world.states node).messages.all (putInOrder world node fragment) = true := by
            simpa [assemblyIntact, hposition, hactive, hne] using hguard
          exact List.all_eq_true.1 hall
        have hmessages : ∀ message ∈
            (insertFragment config fragment (world.states node).messages).1,
            message.active = true → Assembles config world.log message := by
          intro message hmessage hstill
          rcases mem_insertFragment hmessage hstill with hold | ⟨old, hold, hid, hwas, rfl, hopen⟩
          · exact hworld.messages node message hold hstill
          · exact (hworld.insert hold hwas hid hlong hcut (hput old hold)).1 hopen
        dsimp only
        unfold FragmentingRadio.receiveFragment
        apply hworld.act_collects
        cases hinsert : insertFragment config fragment (world.states node).messages with
        | mk messages search =>
            rw [hinsert] at hmessages
            cases search with
            | complete message =>
                obtain ⟨old, hold, hid, hwas, rfl, hcomplete⟩ :=
                  complete_insertFragment (congrArg Prod.snd hinsert)
                obtain ⟨hnever, horig, hjoined⟩ :=
                  (hworld.insert hold hwas hid hlong hcut (hput old hold)).2 hcomplete
                refine ⟨rfl, rfl, hmessages, ?_⟩
                by_cases hcallbacks : (world.states node).callbacks = 0
                · exact .inl (if_pos hcallbacks)
                · refine .inr ⟨sender, fragment.origin.2, _, _, _, if_neg hcallbacks, ?_, ?_⟩
                  · rw [horig, hjoined]
                    have hsender : fragment.origin.1 = sender := horigin
                    rw [← hsender]
                    exact hlong.sent
                  · have hsender : fragment.origin.1 = sender := horigin
                    rw [← hsender]
                    exact hnever
            | found => exact ⟨rfl, rfl, hmessages, .inl rfl⟩
            | missing =>
                refine ⟨rfl, rfl, ?_, .inl rfl⟩
                intro message hmessage hstill
                rcases mem_storeMessage hmessage with rfl | hold
                · exact assembles_newMessage hlong hcut
                · exact hmessages message hold hstill
  · exact hquiet

theorem Intact.act_input (hworld : Intact config world) {input : Input Node}
    (hguard : assemblyIntact config world (.input node input) = true)
    (hinput : (world.states node).input config node input = some result) :
    Intact config (world.act node result) := by
  have hdaemon : ∀ state : FragmentingRadio Node, state.messages = (world.states node).messages →
      state.serial = (world.states node).serial →
      Intact config (world.act node (state.daemon config, .none)) := by
    intro state hmessages hserial
    apply hworld.act_quiet
    · rw [← hserial]
      show (state.daemon config).serial = state.serial
      unfold FragmentingRadio.daemon
      split
      · rfl
      · rfl
    · rfl
    · intro message hmessage hactive
      rw [← hmessages]
      exact mem_daemon hmessage hactive
  have hsame : ∀ state : FragmentingRadio Node, state.messages = (world.states node).messages →
      state.serial = (world.states node).serial →
      Intact config (world.act node (state, .none)) := by
    intro state hmessages hserial
    apply hworld.act_quiet hserial rfl
    intro message hmessage hactive
    rw [hmessages] at hmessage
    exact ⟨message, hmessage, hactive, rfl, rfl, rfl⟩
  cases input with
  | enableRadio =>
      rw [← Option.some.inj hinput]
      exact hdaemon _ rfl rfl
  | disableRadio =>
      rw [← Option.some.inj hinput]
      exact hsame _ rfl rfl
  | regRecvCallback =>
      simp only [FragmentingRadio.input] at hinput
      split at hinput
      · rw [← Option.some.inj hinput]
        exact hsame _ rfl rfl
      · rw [← Option.some.inj hinput]
        exact hsame _ rfl rfl
  | send destination message random =>
      rw [← Option.some.inj hinput]
      exact hworld.act_send hguard
  | clock now =>
      rw [← Option.some.inj hinput]
      exact hsame _ rfl rfl
  | daemon =>
      rw [← Option.some.inj hinput]
      exact hdaemon _ rfl rfl

theorem Intact.lose (hworld : Intact config world) (position : ℕ) :
    Intact config (world.lose position) :=
  ⟨hworld.serials, hworld.distinct,
    fun packet hpacket => hworld.whole packet (World.mem_of_mem_lose hpacket),
    fun packet hpacket => hworld.cut packet (World.mem_of_mem_lose hpacket),
    hworld.messages, hworld.handed, hworld.once⟩

end Steps

/-! ## Runs -/

/-- The callbacks of the node are handed this payload of the sender. -/
def hands (node sender : Node) (id : UInt8) (payload : List UInt8) : Node × Report Node → Bool
  | (other, .handed otherSender _ _ otherId content) =>
      decide (other = node) && decide (otherSender = sender) && otherId == id &&
        decide (content = payload)
  | _ => false

/-- The sender passes this payload to `send`. -/
def passes (sender : Node) (id : UInt8) (payload : List UInt8) : Node × Report Node → Bool
  | (other, .sent _ otherId content) =>
      decide (other = sender) && otherId == id && decide (content = payload)
  | _ => false

/-- The serial number in a report. -/
def Report.serial : Report Node → ℕ
  | .sent serial _ _ => serial
  | .handed _ serial _ _ _ => serial

section Counts

variable {world : World Node (FragmentingRadio Node) (Frame Node) (Report Node)}

theorem hands_iff {node sender : Node} {id : UInt8} {payload : List UInt8}
    {entry : Node × Report Node} :
    hands node sender id payload entry = true ↔
      ∃ length, entry = (node, .handed sender entry.2.serial length id payload) := by
  obtain ⟨other, event⟩ := entry
  cases event with
  | sent serial otherId content => simp [hands]
  | handed otherSender serial length otherId content =>
      simp only [hands, Bool.and_eq_true, decide_eq_true_eq, beq_iff_eq, Report.serial,
        Prod.mk.injEq, Report.handed.injEq, true_and]
      constructor
      · intro hsame
        obtain ⟨⟨⟨rfl, rfl⟩, rfl⟩, rfl⟩ := hsame
        exact ⟨length, rfl, rfl, rfl, rfl, rfl⟩
      · intro hsame
        obtain ⟨told, rfl, rfl, -, rfl, rfl⟩ := hsame
        exact ⟨⟨⟨rfl, rfl⟩, rfl⟩, rfl⟩

/-- What is handed over was passed to `send`, and every message once. -/
theorem Intact.count_le (hworld : Intact config world) (node sender : Node) (id : UInt8)
    (payload : List UInt8) :
    (world.log.filter (hands node sender id payload)).length ≤
      (world.log.filter (passes sender id payload)).length := by
  have hdistinct :
      ((world.log.filter (hands node sender id payload)).map fun entry => entry.2.serial).Nodup := by
    rw [List.Nodup, List.pairwise_map]
    apply List.Pairwise.imp_of_mem ?_ (hworld.once.sublist List.filter_sublist)
    intro earlier later hearlier hlater honce heq
    obtain ⟨length, hfirst⟩ := hands_iff.1 (List.mem_filter.1 hearlier).2
    obtain ⟨length', hsecond⟩ := hands_iff.1 (List.mem_filter.1 hlater).2
    have hnever := honce node (sender, later.2.serial) (handsOrigin_iff.2 ⟨length', id, payload, hsecond⟩)
    rw [← heq] at hnever
    rw [handsOrigin_iff.2 ⟨length, id, payload, hfirst⟩] at hnever
    exact absurd hnever (by simp)
  have hsubset :
      ((world.log.filter (hands node sender id payload)).map fun entry => entry.2.serial) ⊆
        (world.log.filter (passes sender id payload)).map fun entry => entry.2.serial := by
    intro serial hserial
    obtain ⟨entry, hentry, rfl⟩ := List.mem_map.1 hserial
    obtain ⟨hlog, hhands⟩ := List.mem_filter.1 hentry
    obtain ⟨length, heq⟩ := hands_iff.1 hhands
    rw [heq] at hlog
    have hsent := hworld.handed _ _ _ _ _ _ hlog
    exact List.mem_map.2 ⟨_, List.mem_filter.2 ⟨hsent, by simp [passes]⟩, rfl⟩
  calc (world.log.filter (hands node sender id payload)).length
      = ((world.log.filter (hands node sender id payload)).map
          fun entry => entry.2.serial).length := by rw [List.length_map]
    _ ≤ ((world.log.filter (passes sender id payload)).map fun entry => entry.2.serial).length :=
        (hdistinct.subperm hsubset).length_le
    _ = (world.log.filter (passes sender id payload)).length := by rw [List.length_map]

end Counts

/-- In every run in which fragments are put in order and nothing of a message is
put together again after it was handed over, every payload that is handed to the
callbacks of a node with some sender is one that the sender passed to `send`, and
it is handed over at most as often as it was passed. -/
theorem handed_sent_once (config : Config) (hears : Node → Node → Prop) [DecidableRel hears]
    (operations : List (Op Node (Input Node)))
    (world : World Node (FragmentingRadio Node) (Frame Node) (Report Node))
    (hrun : Transition.Run
      (Transition.Guarded (fun before op => assemblyIntact config before op = true)
        (Transition.stepOf (perform (fragmentingProtocol config) hears)))
      (.initial (fragmentingProtocol config)) operations world)
    (node sender : Node) (id : UInt8) (payload : List UInt8) :
    (world.log.filter (hands node sender id payload)).length ≤
      (world.log.filter (passes sender id payload)).length := by
  have hintact : Intact config world := by
    apply hrun.invariant
    · intro before op after hbefore hop
      obtain ⟨hguard, hperform⟩ := hop
      rcases perform_cases hperform with
        ⟨actor, input, result, rfl, hresult, rfl⟩ |
          ⟨actor, position, packet, rfl, hposition, hpacket, hreaches, rfl⟩ | ⟨position, -, rfl⟩
      · exact hbefore.act_input hguard hresult
      · exact hbefore.act_receive hguard hposition hpacket hreaches
      · exact hbefore.lose position
    · constructor <;> simp [World.initial, fragmentingProtocol]
  exact hintact.count_le node sender id payload

/-- A message that needs two fragments. -/
def longMessage : Message where
  message_id := 1
  payload := [0, 1, 2, 3, 4, 5, 6, 7, 8, 9, 10, 11, 12, 13, 14, 15, 16, 17, 18, 19]
  fits := by decide
  not_fr_message := by decide

/-- The radios are enabled, node 0 registers a callback and node 1 sends it the
long message. -/
def sendOperations : List (Op (Fin 3) (Input (Fin 3))) :=
  [.input 0 .enableRadio, .input 1 .enableRadio, .input 0 .regRecvCallback,
    .input 1 (.send (some 0) longMessage 7)]

/-- The fragments arrive in order, the first one twice. -/
def inOrderOperations : List (Op (Fin 3) (Input (Fin 3))) :=
  sendOperations ++ [.deliver 0 0, .deliver 0 0, .deliver 0 1]

theorem handed_sent_once_in_order :
    ∃ world : World (Fin 3) (FragmentingRadio (Fin 3)) (Frame (Fin 3)) (Report (Fin 3)),
      inOrderOperations.foldlM (perform (fragmentingProtocol smallConfig) Apart)
        (.initial (fragmentingProtocol smallConfig)) = some world ∧
      (world.log.filter (hands 0 1 1 longMessage.payload)).length ≤
        (world.log.filter (passes 1 1 longMessage.payload)).length :=
  ⟨_, rfl, handed_sent_once smallConfig Apart inOrderOperations _
    (Transition.Run.of_foldlM_guarded rfl) 0 1 1 longMessage.payload⟩

/-- The second fragment arrives before the first one. -/
def overtakenOperations : List (Op (Fin 3) (Input (Fin 3))) :=
  sendOperations ++ [.deliver 0 1, .deliver 0 0]

theorem handed_not_sent :
    ¬ ∀ (operations : List (Op (Fin 3) (Input (Fin 3))))
        (world : World (Fin 3) (FragmentingRadio (Fin 3)) (Frame (Fin 3)) (Report (Fin 3))),
      Transition.Run (Transition.stepOf (perform (fragmentingProtocol smallConfig) Apart))
        (.initial (fragmentingProtocol smallConfig)) operations world →
      ∀ (node sender : Fin 3) (id : UInt8) (payload : List UInt8),
        (world.log.filter (hands node sender id payload)).length ≤
          (world.log.filter (passes sender id payload)).length := by
  intro hsound
  have hcounts : (overtakenOperations.foldlM (perform (fragmentingProtocol smallConfig) Apart)
      (.initial (fragmentingProtocol smallConfig))).map (fun world =>
        ((world.log.filter (hands 0 1 1
            (longMessage.payload.drop 14 ++ longMessage.payload.take 14))).length,
          (world.log.filter (passes 1 1
            (longMessage.payload.drop 14 ++ longMessage.payload.take 14))).length)) =
      some (1, 0) := by
    decide +kernel
  obtain ⟨world, hworld, hcount⟩ := Option.map_eq_some_iff.1 hcounts
  obtain ⟨hone, hzero⟩ := Prod.mk.inj hcount
  have hle := hsound overtakenOperations world (Transition.Run.of_foldlM hworld) 0 1 1
    (longMessage.payload.drop 14 ++ longMessage.payload.take 14)
  omega

end Wiselib.Radio.Fragmenting
