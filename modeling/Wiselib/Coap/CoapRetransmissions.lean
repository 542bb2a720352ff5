import Wiselib.Coap.CoapEngine

/-!
# The retransmission schedule

`retransmit_loop` walks once over the messages that wait for an acknowledgement.
A slot that is due is sent again and counted; at the fourth try it is taken out
with `coap_unregister_con_msg`, otherwise it becomes due again later, and the
time doubles with every try.

## Strategy

* `pass` is the loop as a machine with the slots it has behind it and those in
  front of it (`retransmitFrom_eq`).  It shows the three slips of the code: a
  slot is taken out by its message id, which a slot further ahead may share; the
  iterator moves on after a slot was taken out, past the next one; and the factor
  of two is one variable for all slots.
* In a `Calm` table the first two do no harm (`pass_of_calm`).  In any other
  table a slot that is due is skipped, or a slot that was to leave is left over
  (`disturbed_of_not_calm`); neither can be repaired later on.
* What a calm pass stores is right if the factor is `InStep` with the slots
  (`forall₂_stored_iff`).
-/

namespace Wiselib.Coap

namespace RetransmitSlot

/-- The try count, the lower half of `timeout_tries`. -/
def tries (slot : RetransmitSlot) : ℕ := ((0x0f : UInt8) &&& slot.timeoutTries).toNat

/-- The response timeout, the upper half of `timeout_tries`. -/
def timeout (slot : RetransmitSlot) : ℕ := (slot.timeoutTries >>> 4).toNat

/-- The slot is due. -/
def Due (time : UInt32) (slot : RetransmitSlot) : Prop := slot.timestamp ≤ time

instance (time : UInt32) : DecidablePred (Due time) := fun slot =>
  inferInstanceAs (Decidable (slot.timestamp ≤ time))

/-- The slot is due and its next try is the last. -/
def Leaving (time : UInt32) (slot : RetransmitSlot) : Prop :=
  slot.Due time ∧ slot.tries + 1 = confCoapMaxRetransmitTries.toNat

instance (time : UInt32) : DecidablePred (Leaving time) := fun slot =>
  inferInstanceAs (Decidable (slot.Due time ∧ slot.tries + 1 = confCoapMaxRetransmitTries.toNat))

/-- The slot is sent again. -/
def event (slot : RetransmitSlot) : Event := .retransmitted slot.hostId slot.packet

/-- `timeout_tries += 1`. -/
def counted (slot : RetransmitSlot) : RetransmitSlot :=
  { slot with timeoutTries := slot.timeoutTries + 1 }

/-- What the code makes of `timeout_factor` at a slot that is due. -/
def nextFactor (factor : UInt8) (slot : RetransmitSlot) : UInt8 :=
  UInt8.ofNat (factor.toNat <<< slot.counted.tries)

/-- The slot counted and due again after `factor` times the timeout. -/
def again (time : UInt32) (factor : UInt8) (slot : RetransmitSlot) : RetransmitSlot :=
  { slot.counted with
    timestamp := time + UInt32.ofNat (factor.toNat * slot.counted.timeout) }

end RetransmitSlot

open RetransmitSlot

/-! ## What a pass is for -/

/-- What a pass leaves of a slot that stays: the slot itself if it is not due, and
otherwise the same message, counted, and due after `2 ^ tries` times the timeout. -/
structure Rescheduled (time : UInt32) (before after : RetransmitSlot) : Prop where
  waiting : ¬ before.Due time → after = before
  message : after.hostId = before.hostId ∧ after.mid = before.mid ∧ after.packet = before.packet
  tries : before.Due time → after.tries = before.tries + 1
  timeout : after.timeout = before.timeout
  timestamp : before.Due time →
    after.timestamp = time + UInt32.ofNat (2 ^ (before.tries + 1) * before.timeout)

/-- A pass sends every slot that is due once and no other, and the table afterwards
holds the slots that stay, rescheduled. -/
structure RetransmitsRight (time : UInt32) (before after : CoapEngine) : Prop where
  sent : after.log =
    ((before.retransmits.filter fun slot => slot.Due time).map event).reverse ++ before.log
  slots : List.Forall₂ (Rescheduled time)
    (before.retransmits.filter fun slot => ¬ slot.Leaving time) after.retransmits

/-! ## When it is right -/

/-- Every slot that leaves is not followed by a slot that is due, and its message
id is not that of a slot further ahead that stays; `mids` are the message ids of
those that stay. -/
def Calm (time : UInt32) : List UInt16 → List RetransmitSlot → Prop
  | _, [] => True
  | mids, slot :: rest =>
      if slot.Leaving time then
        slot.mid ∉ mids ∧ (∀ next ∈ rest.head?, ¬ next.Due time) ∧ Calm time mids rest
      else Calm time (mids ++ [slot.mid]) rest

/-- No slot that is due has counted fifteen tries, and one that stays, unless its
timeout is zero, is the `first` of those that are due and has counted six tries
at most. -/
def InStep (time : UInt32) : Bool → List RetransmitSlot → Prop
  | _, [] => True
  | first, slot :: rest =>
      if slot.Due time then
        slot.tries ≠ 15 ∧
          (slot.Leaving time ∨ slot.timeout = 0 ∨ first = true ∧ slot.tries + 1 ≤ 7) ∧
          InStep time false rest
      else InStep time first rest

/-! ## The pass as a machine -/

/-- The rounds of `retransmit_loop` with the slots `kept` behind the iterator and
the others in front of it, and what they send. -/
def pass (time : UInt32) : UInt8 → (kept rest : List RetransmitSlot) →
    List RetransmitSlot × List Event
  | _, kept, [] => (kept, [])
  | factor, kept, slot :: rest =>
      if slot.Due time then
        if slot.counted.tries = confCoapMaxRetransmitTries.toNat then
          -- The slot is taken out, or one behind the iterator that shares its id.
          let kept :=
            if kept.any (·.mid == slot.mid) then
              kept.eraseP (·.mid == slot.mid) ++ [slot.counted]
            else kept
          match rest with
          | [] => (kept, [slot.event])
          | next :: rest =>
              let result := pass time (nextFactor factor slot) (kept ++ [next]) rest
              (result.1, slot.event :: result.2)
        else
          let factor := nextFactor factor slot
          let result := pass time factor (kept ++ [slot.again time factor]) rest
          (result.1, slot.event :: result.2)
      else pass time factor (kept ++ [slot]) rest

namespace CoapEngine

theorem retransmits_unregister (mid : UInt16) (coap : CoapEngine) :
    (coap.coapUnregisterConMsg mid).2.retransmits =
      coap.retransmits.eraseP (·.mid == mid) := by
  unfold coapUnregisterConMsg
  split
  · rfl
  · next hnone =>
    rw [List.eraseP_of_forall_not]
    intro slot hmem
    simpa using List.find?_eq_none.1 hnone slot hmem

theorem log_unregister (mid : UInt16) (coap : CoapEngine) :
    (coap.coapUnregisterConMsg mid).2.log = coap.log := by
  unfold coapUnregisterConMsg
  split <;> rfl

theorem eraseP_middle {kept rest : List RetransmitSlot} {slot : RetransmitSlot}
    {p : RetransmitSlot → Bool} (hslot : p slot = true) :
    (kept ++ slot :: rest).eraseP p =
      (if kept.any p then kept.eraseP p ++ [slot] else kept) ++ rest := by
  by_cases hany : kept.any p = true
  · obtain ⟨other, hmem, hother⟩ := List.any_eq_true.1 hany
    rw [if_pos hany, List.eraseP_append_left hother _ hmem, List.append_assoc]
    rfl
  · have hnone : ∀ other ∈ kept, ¬ p other = true := fun other hmem hother =>
      hany (List.any_eq_true.2 ⟨other, hmem, hother⟩)
    rw [if_neg hany, List.eraseP_append_right _ hnone, List.eraseP_cons_of_pos hslot]

theorem length_taken {kept : List RetransmitSlot} {slot : RetransmitSlot}
    {p : RetransmitSlot → Bool} :
    (if kept.any p then kept.eraseP p ++ [slot] else kept).length = kept.length := by
  by_cases hany : kept.any p = true
  · obtain ⟨other, hmem, hother⟩ := List.any_eq_true.1 hany
    have hpos := List.length_pos_of_mem hmem
    rw [if_pos hany, List.length_append, List.length_eraseP_of_mem hmem hother,
      List.length_singleton]
    omega
  · rw [if_neg hany]

theorem tries_counted_eq (slot : RetransmitSlot) :
    (0x0f : UInt8) &&& (slot.timeoutTries + 1) = confCoapMaxRetransmitTries ↔
      slot.counted.tries = confCoapMaxRetransmitTries.toNat := by
  rw [← UInt8.toNat_inj]
  rfl

/-- The engine after the last try of the slot at `i`. -/
def leave (i : ℕ) (slot : RetransmitSlot) (coap : CoapEngine) : CoapEngine :=
  let coap :=
    { coap with
      retransmits := coap.retransmits.set i slot.counted
      log := slot.event :: coap.log }
  ((coap.coapRemoveObserver slot.mid).coapUnregisterConMsg slot.mid).2

theorem retransmits_leave {kept rest : List RetransmitSlot} {slot : RetransmitSlot}
    {coap : CoapEngine} (hslots : coap.retransmits = kept ++ slot :: rest) :
    (leave kept.length slot coap).retransmits =
      (if kept.any (·.mid == slot.mid) then
        kept.eraseP (·.mid == slot.mid) ++ [slot.counted]
      else kept) ++ rest := by
  have hset : coap.retransmits.set kept.length slot.counted = kept ++ slot.counted :: rest := by
    simp [hslots]
  rw [leave, retransmits_unregister, ← eraseP_middle (beq_self_eq_true slot.mid)]
  exact congrArg _ hset

theorem log_leave (i : ℕ) (slot : RetransmitSlot) (coap : CoapEngine) :
    (leave i slot coap).log = slot.event :: coap.log := by
  rw [leave, log_unregister]
  rfl

section Rounds

variable {time : UInt32} {rounds i : ℕ} {factor : UInt8} {slot : RetransmitSlot}
  {coap : CoapEngine}

theorem retransmitFrom_of_none (hnone : coap.retransmits[i]? = none) :
    retransmitFrom time rounds factor i coap = coap := by
  cases rounds with
  | zero => rfl
  | succ rounds => rw [retransmitFrom, hnone]

theorem retransmitFrom_leaving (hget : coap.retransmits[i]? = some slot) (hdue : slot.Due time)
    (hlast : slot.counted.tries = confCoapMaxRetransmitTries.toNat) :
    retransmitFrom time (rounds + 1) factor i coap =
      retransmitFrom time rounds (nextFactor factor slot) (i + 1) (leave i slot coap) := by
  have hle : slot.timestamp ≤ time := hdue
  rw [retransmitFrom, hget]
  dsimp only
  rw [if_pos hle, if_pos ((tries_counted_eq slot).2 hlast)]
  rfl

theorem retransmitFrom_again (hget : coap.retransmits[i]? = some slot) (hdue : slot.Due time)
    (hlast : ¬ slot.counted.tries = confCoapMaxRetransmitTries.toNat) :
    retransmitFrom time (rounds + 1) factor i coap =
      retransmitFrom time rounds (nextFactor factor slot) (i + 1)
        { coap with
          retransmits := (coap.retransmits.set i slot.counted).set i
            (slot.again time (nextFactor factor slot))
          log := slot.event :: coap.log } := by
  have hle : slot.timestamp ≤ time := hdue
  rw [retransmitFrom, hget]
  dsimp only
  rw [if_pos hle, if_neg fun heq => hlast ((tries_counted_eq slot).1 heq)]
  rfl

theorem retransmitFrom_waiting (hget : coap.retransmits[i]? = some slot)
    (hdue : ¬ slot.Due time) :
    retransmitFrom time (rounds + 1) factor i coap =
      retransmitFrom time rounds factor (i + 1) coap := by
  have hle : ¬ slot.timestamp ≤ time := hdue
  rw [retransmitFrom, hget]
  dsimp only
  rw [if_neg hle]

end Rounds

/-- The loop is the machine, whatever the rest of the engine is. -/
theorem retransmitFrom_eq (time : UInt32) (rounds : ℕ) (factor : UInt8)
    (kept rest : List RetransmitSlot) (coap : CoapEngine)
    (hslots : coap.retransmits = kept ++ rest) (hrounds : rest.length ≤ rounds) :
    (retransmitFrom time rounds factor kept.length coap).retransmits =
        (pass time factor kept rest).1 ∧
      (retransmitFrom time rounds factor kept.length coap).log =
        (pass time factor kept rest).2.reverse ++ coap.log := by
  induction rounds generalizing factor kept rest coap with
  | zero =>
    rw [List.length_eq_zero_iff.1 (Nat.le_zero.1 hrounds)] at hslots ⊢
    simpa [retransmitFrom, pass] using hslots
  | succ rounds ih =>
    cases rest with
    | nil =>
      have hnone : coap.retransmits[kept.length]? = none := by simp [hslots]
      rw [retransmitFrom_of_none hnone]
      simpa [pass] using hslots
    | cons slot rest =>
      have hget : coap.retransmits[kept.length]? = some slot := by simp [hslots]
      simp only [List.length_cons, Nat.add_le_add_iff_right] at hrounds
      rw [pass]
      by_cases hdue : slot.Due time
      · rw [if_pos hdue]
        by_cases hlast : slot.counted.tries = confCoapMaxRetransmitTries.toNat
        · rw [if_pos hlast, retransmitFrom_leaving hget hdue hlast]
          obtain ⟨taken, htaken⟩ : ∃ taken, taken =
              if kept.any (·.mid == slot.mid) then
                kept.eraseP (·.mid == slot.mid) ++ [slot.counted]
              else kept := ⟨_, rfl⟩
          have hlength : taken.length = kept.length := by rw [htaken, length_taken]
          have hleft := retransmits_leave hslots
          have hlog := log_leave kept.length slot coap
          rw [← htaken] at hleft ⊢
          cases rest with
          | nil =>
            have hnone : (leave kept.length slot coap).retransmits[kept.length + 1]? = none := by
              simp [hleft, hlength]
            rw [retransmitFrom_of_none hnone, hleft, hlog]
            simp
          | cons next rest =>
            have hnext := ih (nextFactor factor slot) (taken ++ [next]) rest
              (leave kept.length slot coap) (by simp [hleft])
              (by simp only [List.length_cons] at hrounds; omega)
            rw [List.length_append, hlength, List.length_singleton] at hnext
            rw [hnext.1, hnext.2, hlog]
            simp
        · rw [if_neg hlast, retransmitFrom_again hget hdue hlast]
          have hnext := ih (nextFactor factor slot)
            (kept ++ [slot.again time (nextFactor factor slot)]) rest
            { coap with
              retransmits := (coap.retransmits.set kept.length slot.counted).set kept.length
                (slot.again time (nextFactor factor slot))
              log := slot.event :: coap.log }
            (by simp [hslots]) hrounds
          rw [List.length_append, List.length_singleton] at hnext
          refine ⟨hnext.1, ?_⟩
          rw [List.reverse_cons, List.append_assoc]
          exact hnext.2
      · rw [if_neg hdue, retransmitFrom_waiting hget hdue]
        have hnext := ih factor (kept ++ [slot]) rest coap (by simp [hslots]) hrounds
        rwa [List.length_append, List.length_singleton] at hnext

end CoapEngine

/-! ## Counting -/

namespace RetransmitSlot

variable {time : UInt32} {slot : RetransmitSlot}

theorem tries_eq (slot : RetransmitSlot) : slot.tries = slot.timeoutTries.toNat % 16 := by
  rw [tries, UInt8.toNat_and, Nat.and_comm]
  exact Nat.and_two_pow_sub_one_eq_mod slot.timeoutTries.toNat 4

theorem timeout_eq (slot : RetransmitSlot) : slot.timeout = slot.timeoutTries.toNat / 16 := by
  rw [timeout, UInt8.toNat_shiftRight, Nat.shiftRight_eq_div_pow]
  rfl

theorem tries_lt (slot : RetransmitSlot) : slot.tries < 16 := by
  rw [tries_eq]
  exact Nat.mod_lt _ (by decide)

theorem tries_counted (slot : RetransmitSlot) : slot.counted.tries = (slot.tries + 1) % 16 := by
  have hlt := slot.timeoutTries.toNat_lt
  have hadd : slot.counted.timeoutTries.toNat = (slot.timeoutTries.toNat + 1) % 256 := by
    rw [counted, UInt8.toNat_add]
    rfl
  rw [tries_eq, tries_eq, hadd]
  omega

theorem timeout_counted (hsmall : slot.tries ≠ 15) : slot.counted.timeout = slot.timeout := by
  have hlt := slot.timeoutTries.toNat_lt
  have hadd : slot.counted.timeoutTries.toNat = (slot.timeoutTries.toNat + 1) % 256 := by
    rw [counted, UInt8.toNat_add]
    rfl
  rw [tries_eq] at hsmall
  rw [timeout_eq, timeout_eq, hadd]
  omega

theorem timeout_lt (slot : RetransmitSlot) : slot.timeout < 16 := by
  have hlt := slot.timeoutTries.toNat_lt
  rw [timeout_eq]
  omega

theorem counted_last_iff (slot : RetransmitSlot) :
    slot.counted.tries = confCoapMaxRetransmitTries.toNat ↔
      slot.tries + 1 = confCoapMaxRetransmitTries.toNat := by
  have hlt := slot.tries_lt
  have hlast : confCoapMaxRetransmitTries.toNat = 4 := rfl
  rw [tries_counted, hlast]
  omega

theorem leaving_iff (hdue : slot.Due time) :
    slot.Leaving time ↔ slot.counted.tries = confCoapMaxRetransmitTries.toNat := by
  rw [counted_last_iff]
  exact ⟨fun hleaving => hleaving.2, fun hlast => ⟨hdue, hlast⟩⟩

theorem Leaving.due (hleaving : slot.Leaving time) : slot.Due time := hleaving.1

end RetransmitSlot

/-! ## A calm pass -/

/-- What a pass stores of the slots that stay, when it meets all of them. -/
def stored (time : UInt32) : UInt8 → List RetransmitSlot → List RetransmitSlot
  | _, [] => []
  | factor, slot :: rest =>
      if slot.Due time then
        if slot.Leaving time then stored time (nextFactor factor slot) rest
        else
          slot.again time (nextFactor factor slot) :: stored time (nextFactor factor slot) rest
      else slot :: stored time factor rest

variable {time : UInt32}

/-- Induction over the rounds: in a calm table every round takes out the slot it
is at and passes no slot that is due. -/
theorem pass_of_calm (factor : UInt8) (kept rest : List RetransmitSlot)
    (hcalm : Calm time (kept.map RetransmitSlot.mid) rest) :
    pass time factor kept rest =
      (kept ++ stored time factor rest, (rest.filter fun slot => slot.Due time).map event) := by
  induction factor, kept, rest using pass.induct time with
  | case1 factor kept => simp [pass, stored]
  | case2 factor kept slot hdue hlast =>
    have hleaving := (leaving_iff hdue).2 hlast
    rw [Calm, if_pos hleaving] at hcalm
    have hfresh : kept.any (·.mid == slot.mid) = false := by
      rw [List.any_eq_false]
      intro other hmem heq
      exact hcalm.1 (List.mem_map.2 ⟨other, hmem, beq_iff_eq.1 heq⟩)
    rw [pass, if_pos hdue, if_pos hlast]
    simp [hfresh, stored, hdue, hleaving]
  | case3 factor kept slot hdue hlast taken next rest ih =>
    have hleaving := (leaving_iff hdue).2 hlast
    rw [Calm, if_pos hleaving] at hcalm
    obtain ⟨hmid, hnext, hrest⟩ := hcalm
    have hwaiting : ¬ next.Due time := hnext next rfl
    have hstays : ¬ next.Leaving time := fun hleave => hwaiting hleave.due
    rw [Calm, if_neg hstays] at hrest
    have hfresh : kept.any (·.mid == slot.mid) = false := by
      rw [List.any_eq_false]
      intro other hmem heq
      exact hmid (List.mem_map.2 ⟨other, hmem, beq_iff_eq.1 heq⟩)
    have htaken : taken = kept := by simp [taken, hfresh]
    rw [htaken] at ih
    rw [pass, if_pos hdue, if_pos hlast]
    dsimp only
    rw [hfresh, if_neg (by decide), ih (by simpa using hrest)]
    simp [stored, hdue, hleaving, hwaiting]
  | case4 factor kept slot rest hdue hlast factor' ih =>
    have hstays : ¬ slot.Leaving time := fun hleave => hlast ((leaving_iff hdue).1 hleave)
    rw [Calm, if_neg hstays] at hcalm
    rw [pass, if_pos hdue, if_neg hlast]
    dsimp only
    rw [ih (by simpa [again, counted] using hcalm)]
    simp [stored, hdue, hstays, factor']
  | case5 factor kept slot rest hdue ih =>
    have hstays : ¬ slot.Leaving time := fun hleave => hdue hleave.due
    rw [Calm, if_neg hstays] at hcalm
    rw [pass, if_neg hdue, ih (by simpa using hcalm)]
    simp [stored, hdue]

/-! ## Any other pass -/

/-- A slot that should have left: its last try is counted and it is still due. -/
def LeftOver (time : UInt32) (slot : RetransmitSlot) : Prop :=
  slot.Due time ∧ slot.tries = confCoapMaxRetransmitTries.toNat

/-- A pass sends nothing but slots in front of it that are due. -/
theorem length_sent_le (factor : UInt8) (kept rest : List RetransmitSlot) :
    (pass time factor kept rest).2.length ≤ (rest.filter fun slot => slot.Due time).length := by
  induction factor, kept, rest using pass.induct time with
  | case1 factor kept => simp [pass]
  | case2 factor kept slot hdue hlast => simp [pass, hdue, hlast]
  | case3 factor kept slot hdue hlast taken next rest ih =>
    rw [pass, if_pos hdue, if_pos hlast]
    have hcons : (rest.filter fun slot => slot.Due time).length ≤
        ((next :: rest).filter fun slot => slot.Due time).length := by
      rw [List.filter_cons]
      split <;> simp
    rw [List.filter_cons_of_pos (by simpa using hdue)]
    simp only [List.length_cons] at hcons ⊢
    exact Nat.succ_le_succ (ih.trans hcons)
  | case4 factor kept slot rest hdue hlast factor' ih =>
    rw [pass, if_pos hdue, if_neg hlast, List.filter_cons_of_pos (by simpa using hdue)]
    exact Nat.succ_le_succ ih
  | case5 factor kept slot rest hdue ih =>
    rw [pass, if_neg hdue, List.filter_cons_of_neg (by simpa using hdue)]
    exact ih

theorem leftOver_taken {kept : List RetransmitSlot} {slot : RetransmitSlot}
    (hdue : slot.Due time) (hlast : slot.counted.tries = confCoapMaxRetransmitTries.toNat)
    (hleft : ∃ other ∈ kept, LeftOver time other) :
    ∃ other ∈ (if kept.any (·.mid == slot.mid) then
        kept.eraseP (·.mid == slot.mid) ++ [slot.counted]
      else kept), LeftOver time other := by
  split
  · exact ⟨slot.counted, by simp, hdue, hlast⟩
  · exact hleft

theorem leftOver_stays (factor : UInt8) (kept rest : List RetransmitSlot)
    (hleft : ∃ other ∈ kept, LeftOver time other) :
    ∃ other ∈ (pass time factor kept rest).1, LeftOver time other := by
  have happend : ∀ {kept : List RetransmitSlot} (more : List RetransmitSlot),
      (∃ other ∈ kept, LeftOver time other) → ∃ other ∈ kept ++ more, LeftOver time other := by
    rintro kept more ⟨other, hmem, hother⟩
    exact ⟨other, List.mem_append_left _ hmem, hother⟩
  induction factor, kept, rest using pass.induct time with
  | case1 factor kept => exact hleft
  | case2 factor kept slot hdue hlast =>
    rw [pass, if_pos hdue, if_pos hlast]
    exact leftOver_taken hdue hlast hleft
  | case3 factor kept slot hdue hlast taken next rest ih =>
    rw [pass, if_pos hdue, if_pos hlast]
    exact ih (happend _ (leftOver_taken hdue hlast hleft))
  | case4 factor kept slot rest hdue hlast factor' ih =>
    rw [pass, if_pos hdue, if_neg hlast]
    exact ih (happend _ hleft)
  | case5 factor kept slot rest hdue ih =>
    rw [pass, if_neg hdue]
    exact ih (happend _ hleft)

/-- In a table that is not calm, a slot that is due is passed over or a slot is
left over. -/
theorem disturbed_of_not_calm (factor : UInt8) (kept rest : List RetransmitSlot)
    (hcalm : ¬ Calm time (kept.map RetransmitSlot.mid) rest) :
    (pass time factor kept rest).2.length < (rest.filter fun slot => slot.Due time).length ∨
      ∃ other ∈ (pass time factor kept rest).1, LeftOver time other := by
  induction factor, kept, rest using pass.induct time with
  | case1 factor kept => exact absurd trivial hcalm
  | case2 factor kept slot hdue hlast =>
    rw [Calm, if_pos ((leaving_iff hdue).2 hlast)] at hcalm
    have hmid : slot.mid ∈ kept.map RetransmitSlot.mid := by
      by_contra hmid
      exact hcalm ⟨hmid, by simp, trivial⟩
    obtain ⟨other, hmem, heq⟩ := List.mem_map.1 hmid
    have hany : kept.any (·.mid == slot.mid) = true :=
      List.any_eq_true.2 ⟨other, hmem, beq_iff_eq.2 heq⟩
    right
    rw [pass, if_pos hdue, if_pos hlast]
    refine ⟨slot.counted, ?_, hdue, hlast⟩
    simp [hany]
  | case3 factor kept slot hdue hlast taken next rest ih =>
    rw [Calm, if_pos ((leaving_iff hdue).2 hlast)] at hcalm
    rw [pass, if_pos hdue, if_pos hlast]
    dsimp only
    by_cases hany : kept.any (·.mid == slot.mid) = true
    · -- Another slot with this id was taken out in place of this one.
      right
      apply leftOver_stays
      exact ⟨slot.counted, by simp [hany], hdue, hlast⟩
    · have htaken : taken = kept := if_neg hany
      have hmid : slot.mid ∉ kept.map RetransmitSlot.mid := by
        intro hmid
        obtain ⟨other, hmem, heq⟩ := List.mem_map.1 hmid
        exact hany (List.any_eq_true.2 ⟨other, hmem, beq_iff_eq.2 heq⟩)
      rw [if_neg hany]
      rw [htaken] at ih
      by_cases hnext : next.Due time
      · -- The slot behind it is due and passed over.
        left
        have hle := @length_sent_le time (nextFactor factor slot) (kept ++ [next]) rest
        rw [List.filter_cons_of_pos (by simpa using hdue),
          List.filter_cons_of_pos (by simpa using hnext)]
        simp only [List.length_cons]
        omega
      · have hstays : ¬ next.Leaving time := fun hleave => hnext hleave.due
        have hrest : ¬ Calm time ((kept ++ [next]).map RetransmitSlot.mid) rest := by
          intro hrest
          refine hcalm ⟨hmid, ?_, ?_⟩
          · rintro other ⟨⟩
            exact hnext
          · rw [Calm, if_neg hstays]
            simpa using hrest
        rcases ih hrest with hfewer | hleft
        · left
          rw [List.filter_cons_of_pos (by simpa using hdue),
            List.filter_cons_of_neg (by simpa using hnext)]
          exact Nat.succ_lt_succ hfewer
        · exact Or.inr hleft
  | case4 factor kept slot rest hdue hlast factor' ih =>
    have hstays : ¬ slot.Leaving time := fun hleave => hlast ((leaving_iff hdue).1 hleave)
    rw [Calm, if_neg hstays] at hcalm
    rw [pass, if_pos hdue, if_neg hlast]
    rcases ih (by simpa [again, counted] using hcalm) with hfewer | hleft
    · left
      rw [List.filter_cons_of_pos (by simpa using hdue)]
      exact Nat.succ_lt_succ hfewer
    · exact Or.inr hleft
  | case5 factor kept slot rest hdue ih =>
    have hstays : ¬ slot.Leaving time := fun hleave => hdue hleave.due
    rw [Calm, if_neg hstays] at hcalm
    rw [pass, if_neg hdue, List.filter_cons_of_neg (by simpa using hdue)]
    exact ih (by simpa using hcalm)

theorem Rescheduled.not_leftOver {before after : RetransmitSlot}
    (hsched : Rescheduled time before after) (hstays : ¬ before.Leaving time) :
    ¬ LeftOver time after := by
  rintro ⟨hdue, hlast⟩
  by_cases hbefore : before.Due time
  · exact hstays ⟨hbefore, (hsched.tries hbefore).symm.trans hlast⟩
  · rw [hsched.waiting hbefore] at hdue
    exact hbefore hdue

/-! ## The factor -/

theorem toNat_nextFactor (factor : UInt8) (slot : RetransmitSlot) :
    (nextFactor factor slot).toNat = factor.toNat * 2 ^ ((slot.tries + 1) % 16) % 256 := by
  rw [nextFactor, tries_counted, UInt8.toNat_ofNat', Nat.shiftLeft_eq]

/-- After the first slot that is due, the factor is even. -/
theorem even_nextFactor {factor : UInt8} {slot : RetransmitSlot} (hsmall : slot.tries ≠ 15) :
    (nextFactor factor slot).toNat % 2 = 0 := by
  have hlt := slot.tries_lt
  have hdouble : factor.toNat * 2 ^ (slot.tries + 1) = 2 * (factor.toNat * 2 ^ slot.tries) := by
    ring
  rw [toNat_nextFactor, Nat.mod_eq_of_lt (show slot.tries + 1 < 16 by omega), hdouble]
  omega

theorem nextFactor_ne_of_even {factor : UInt8} {slot : RetransmitSlot} (hsmall : slot.tries ≠ 15)
    (heven : factor.toNat % 2 = 0) : (nextFactor factor slot).toNat ≠ 2 ^ (slot.tries + 1) := by
  have hlt := slot.tries_lt
  rw [toNat_nextFactor, Nat.mod_eq_of_lt (show slot.tries + 1 < 16 by omega)]
  intro heq
  obtain ⟨half, hhalf⟩ : ∃ half, factor.toNat = 2 * half := ⟨factor.toNat / 2, by omega⟩
  rw [hhalf] at heq
  have hexp : slot.tries + 1 ≤ 7 := by
    by_contra hlarge
    have hpow : 2 ^ 8 ≤ 2 ^ (slot.tries + 1) := Nat.pow_le_pow_right (by decide) (by omega)
    omega
  interval_cases slot.tries <;> omega

/-- The first factor is the power of two of the count as far as it has eight bits. -/
theorem nextFactor_one_iff {slot : RetransmitSlot} (hsmall : slot.tries ≠ 15) :
    (nextFactor 1 slot).toNat = 2 ^ (slot.tries + 1) ↔ slot.tries + 1 ≤ 7 := by
  have hlt := slot.tries_lt
  have hone : (1 : UInt8).toNat = 1 := rfl
  rw [toNat_nextFactor, Nat.mod_eq_of_lt (show slot.tries + 1 < 16 by omega), hone, one_mul]
  constructor
  · intro heq
    by_contra hlarge
    have hpow : 2 ^ 8 ≤ 2 ^ (slot.tries + 1) := Nat.pow_le_pow_right (by decide) (by omega)
    omega
  · intro hle
    have hpow : 2 ^ (slot.tries + 1) ≤ 2 ^ 7 := Nat.pow_le_pow_right (by decide) hle
    exact Nat.mod_eq_of_lt (by omega)

/-- A slot that is due is rescheduled if its count does not overflow and the factor
is the power of two, unless it multiplies zero. -/
theorem rescheduled_again_iff {factor : UInt8} {slot : RetransmitSlot} (hdue : slot.Due time) :
    Rescheduled time slot (slot.again time factor) ↔
      slot.tries ≠ 15 ∧ (slot.timeout = 0 ∨ factor.toNat = 2 ^ (slot.tries + 1)) := by
  have hlt := slot.tries_lt
  have htimeout := slot.timeout_lt
  have hfactor := factor.toNat_lt
  have htries : (slot.again time factor).tries = (slot.tries + 1) % 16 := tries_counted slot
  constructor
  · intro hsched
    have hsmall : slot.tries ≠ 15 := by
      intro heq
      have hcount := hsched.tries hdue
      rw [htries, heq] at hcount
      exact absurd hcount (by decide)
    refine ⟨hsmall, ?_⟩
    have hstamp := hsched.timestamp hdue
    change time + UInt32.ofNat (factor.toNat * slot.counted.timeout) = _ at hstamp
    rw [timeout_counted hsmall] at hstamp
    have hproducts := congrArg UInt32.toNat (add_left_cancel hstamp)
    rw [UInt32.toNat_ofNat', UInt32.toNat_ofNat'] at hproducts
    have hpow : 2 ^ (slot.tries + 1) ≤ 2 ^ 15 := Nat.pow_le_pow_right (by decide) (by omega)
    have hright : 2 ^ (slot.tries + 1) * slot.timeout ≤ 2 ^ 15 * 16 :=
      Nat.mul_le_mul hpow htimeout.le
    have hleft : factor.toNat * slot.timeout ≤ 256 * 16 := Nat.mul_le_mul hfactor.le htimeout.le
    rw [Nat.mod_eq_of_lt (by omega), Nat.mod_eq_of_lt (by omega)] at hproducts
    rcases Nat.eq_zero_or_pos slot.timeout with hzero | hpos
    · exact Or.inl hzero
    · exact Or.inr (Nat.eq_of_mul_eq_mul_right hpos hproducts)
  · rintro ⟨hsmall, hproduct⟩
    have hsame : factor.toNat * slot.timeout = 2 ^ (slot.tries + 1) * slot.timeout := by
      rcases hproduct with hzero | heq
      · rw [hzero, Nat.mul_zero, Nat.mul_zero]
      · rw [heq]
    exact
      { waiting := fun hwaiting => absurd hdue hwaiting
        message := ⟨rfl, rfl, rfl⟩
        tries := fun _ => by rw [htries, Nat.mod_eq_of_lt (by omega)]
        timeout := timeout_counted hsmall
        timestamp := fun _ => by
          change time + UInt32.ofNat (factor.toNat * slot.counted.timeout) = _
          rw [timeout_counted hsmall, hsame] }

theorem rescheduled_waiting {slot : RetransmitSlot} (hdue : ¬ slot.Due time) :
    Rescheduled time slot slot where
  waiting _ := rfl
  message := ⟨rfl, rfl, rfl⟩
  tries hbefore := absurd hbefore hdue
  timeout := rfl
  timestamp hbefore := absurd hbefore hdue

/-! ## The table afterwards -/

/-- Induction over the slots: the factor is one up to the first slot that is due
and even behind it. -/
theorem forall₂_stored_iff (first : Bool) (factor : UInt8) (slots : List RetransmitSlot)
    (hfirst : first = true → factor = 1) (hlater : first = false → factor.toNat % 2 = 0) :
    List.Forall₂ (Rescheduled time) (slots.filter fun slot => ¬ slot.Leaving time)
        (stored time factor slots) ∧ (∀ slot ∈ slots, slot.Due time → slot.tries ≠ 15) ↔
      InStep time first slots := by
  induction slots generalizing first factor with
  | nil => simp [stored, InStep]
  | cons slot rest ih =>
    by_cases hdue : slot.Due time
    · by_cases hsmall : slot.tries = 15
      · -- Its count overflows, which neither side allows.
        rw [InStep, if_pos hdue]
        constructor
        · rintro ⟨-, hcounts⟩
          exact absurd hsmall (hcounts slot List.mem_cons_self hdue)
        · rintro ⟨hcount, -⟩
          exact absurd hsmall hcount
      · have hrest := ih false (nextFactor factor slot) (fun heq => absurd heq (by decide))
          fun _ => even_nextFactor hsmall
        rw [InStep, if_pos hdue, ← hrest, stored, if_pos hdue, List.forall_mem_cons]
        by_cases hleaving : slot.Leaving time
        · rw [List.filter_cons_of_neg (by simpa using hleaving), if_pos hleaving]
          tauto
        · have hfactor : (nextFactor factor slot).toNat = 2 ^ (slot.tries + 1) ↔
              first = true ∧ slot.tries + 1 ≤ 7 := by
            cases first with
            | true =>
              rw [hfirst rfl, nextFactor_one_iff hsmall]
              simp
            | false =>
              have hne := nextFactor_ne_of_even hsmall (hlater rfl)
              simp [hne]
          rw [List.filter_cons_of_pos (by simpa using hleaving), if_neg hleaving,
            List.forall₂_cons, rescheduled_again_iff hdue, hfactor]
          tauto
    · have hstays : ¬ slot.Leaving time := fun hleave => hdue hleave.due
      have hrest := ih first factor hfirst hlater
      rw [InStep, if_neg hdue, ← hrest, stored, if_neg hdue,
        List.filter_cons_of_pos (by simpa using hstays), List.forall₂_cons, List.forall_mem_cons]
      have hwaiting := rescheduled_waiting hdue
      tauto

/-- Where the table afterwards is right, no count has overflowed. -/
theorem small_of_forall₂ {factor : UInt8} {slots : List RetransmitSlot}
    (hright : List.Forall₂ (Rescheduled time) (slots.filter fun slot => ¬ slot.Leaving time)
      (stored time factor slots)) :
    ∀ slot ∈ slots, slot.Due time → slot.tries ≠ 15 := by
  induction slots generalizing factor with
  | nil => simp
  | cons slot rest ih =>
    by_cases hdue : slot.Due time
    · rw [stored, if_pos hdue] at hright
      by_cases hleaving : slot.Leaving time
      · rw [List.filter_cons_of_neg (by simpa using hleaving), if_pos hleaving] at hright
        refine List.forall_mem_cons.2 ⟨fun _ heq => ?_, ih hright⟩
        have hlast := hleaving.2
        rw [heq] at hlast
        exact absurd hlast (by decide)
      · rw [List.filter_cons_of_pos (by simpa using hleaving), if_neg hleaving,
          List.forall₂_cons] at hright
        exact List.forall_mem_cons.2
          ⟨fun _ => ((rescheduled_again_iff hdue).1 hright.1).1, ih hright.2⟩
    · have hstays : ¬ slot.Leaving time := fun hleave => hdue hleave.due
      rw [stored, if_neg hdue, List.filter_cons_of_pos (by simpa using hstays),
        List.forall₂_cons] at hright
      exact List.forall_mem_cons.2 ⟨fun hbefore => absurd hbefore hdue, ih hright.2⟩

theorem right_iff (time : UInt32) (coap : CoapEngine) :
    RetransmitsRight time coap (coap.retransmitLoop time) ↔
      Calm time [] coap.retransmits ∧ InStep time true coap.retransmits := by
  obtain ⟨hslots, hlog⟩ := CoapEngine.retransmitFrom_eq time coap.retransmits.length 1 []
    coap.retransmits coap rfl le_rfl
  change (coap.retransmitLoop time).retransmits = _ at hslots
  change (coap.retransmitLoop time).log = _ at hlog
  have hstored := @forall₂_stored_iff time true 1 coap.retransmits (fun _ => rfl)
    fun heq => absurd heq (by decide)
  by_cases hcalm : Calm time [] coap.retransmits
  · rw [and_iff_right hcalm, ← hstored]
    rw [pass_of_calm 1 [] coap.retransmits hcalm] at hslots hlog
    simp only [List.nil_append] at hslots
    constructor
    · intro hright
      have hkept := hright.slots
      rw [hslots] at hkept
      exact ⟨hkept, small_of_forall₂ hkept⟩
    · rintro ⟨hkept, -⟩
      exact { sent := hlog, slots := by rwa [hslots] }
  · constructor
    · intro hright
      exfalso
      rcases disturbed_of_not_calm 1 [] coap.retransmits hcalm with hfewer | ⟨other, hmem, hleft⟩
      · have hsent := congrArg List.length (hlog.symm.trans hright.sent)
        simp only [List.length_append, List.length_reverse, List.length_map] at hsent
        omega
      · rw [← hslots] at hmem
        obtain ⟨i, hi, hget⟩ := List.getElem_of_mem hmem
        have hlength := hright.slots.length_eq
        have hsched := (List.forall₂_iff_get.1 hright.slots).2 i (by omega) hi
        have hbefore := List.getElem_mem (show i < (coap.retransmits.filter
          fun slot => ¬ slot.Leaving time).length by omega)
        rw [List.mem_filter] at hbefore
        simp only [List.get_eq_getElem, hget] at hsched
        exact hsched.not_leftOver (by simpa using hbefore.2) hleft
    · rintro ⟨hcalm', -⟩
      exact absurd hcalm' hcalm

/-- One pass of `retransmit_loop` does what the schedule says if and only if the
table is calm and the factor in step with its slots. -/
theorem retransmitLoop_right_iff (time : UInt32) (coap : CoapEngine) :
    RetransmitsRight time coap (coap.retransmitLoop time) ↔
      Calm time [] coap.retransmits ∧ InStep time true coap.retransmits :=
  right_iff time coap

/-- An engine with two messages that were sent once at time zero. -/
def twoWaiting : CoapEngine :=
  let packet : CoapPacket := ⟨1, 0, 0, 1, 1, 0, 0, 0, 0, 0, 0, [], 0, 0, [], 0, 0, 0, 0, 0, 0, []⟩
  { CoapEngine.init 1 0 (fun _ => ⟨none, [], [], 0, 0, false, 0, false, 0⟩) (fun _ => 0) with
    retransmits := [⟨7, 1, 0x20, 2, packet⟩, ⟨8, 2, 0x20, 2, packet⟩] }

/-- The second of two messages waits eight seconds in place of four. -/
theorem retransmitLoop_shares_factor :
    ¬ ∀ (time : UInt32) (coap : CoapEngine),
      RetransmitsRight time coap (coap.retransmitLoop time) := by
  intro hall
  obtain ⟨-, hstep⟩ := (right_iff 2 twoWaiting).1 (hall 2 twoWaiting)
  simp only [twoWaiting] at hstep
  rw [InStep, if_pos (by decide)] at hstep
  obtain ⟨-, -, hsecond⟩ := hstep
  rw [InStep, if_pos (by decide)] at hsecond
  obtain ⟨-, hfactor, -⟩ := hsecond
  exact absurd hfactor (by decide)

end Wiselib.Coap
