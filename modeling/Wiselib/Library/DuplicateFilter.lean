import Wiselib.Library.Run

/-!
# Duplicate filters with a bounded window

A filter remembers the last few messages it let in.  A message whose key is
remembered is dropped as a duplicate, any other one enters the window and is
delivered if it is wanted.  Some messages enter without being looked up.

`delivered_once` is what such a filter is for: every wanted message is
delivered exactly once, when copies arrive close together, wanted messages
have keys of their own, and no message meets a foreign one with its key in the
window.
-/

namespace DuplicateFilter

open Transition

variable {Message Key : Type} [BEq Message]

/-- The messages remembered, the latest first, and those delivered so far. -/
structure State (Message : Type) where
  window : List Message
  delivered : List Message

/-- How a filter treats messages: the size of its window, their keys, whether a message is
looked up, and whether it is to be delivered. -/
structure Rules (Message Key : Type) where
  size : ℕ
  key : Message → Key
  checked : Message → Bool
  wanted : Message → Bool

variable (rules : Rules Message Key)

/-- A message enters the window. -/
def enter (filter : State Message) (message : Message) : State Message where
  window := message :: filter.window.take (rules.size - 1)
  delivered :=
    if rules.wanted message then filter.delivered ++ [message] else filter.delivered

/-- The window holds a message with this key. -/
def Remembers (filter : State Message) (key : Key) : Prop :=
  ∃ other ∈ filter.window, rules.key other = key

/-- A message arrives. -/
inductive Arrives : State Message → Message → State Message → Prop
  | dropped {filter : State Message} {message : Message}
      (hchecked : rules.checked message = true)
      (hduplicate : Remembers rules filter (rules.key message)) : Arrives filter message filter
  | entered {filter : State Message} {message : Message}
      (hnew : rules.checked message = true → ¬ Remembers rules filter (rules.key message)) :
      Arrives filter message (enter rules filter message)

/-- The message is not mistaken for another one: if its key is remembered at all, then from a
wanted message. -/
def Unmistaken (filter : State Message) (message : Message) : Prop :=
  rules.wanted message = true → Remembers rules filter (rules.key message) →
    ∃ other ∈ filter.window, rules.wanted other = true ∧ rules.key other = rules.key message

/-- Fewer than `size` messages arrive between two copies of a wanted message. -/
def CopiesClose (messages : List Message) : Prop :=
  ∀ before between after message, rules.wanted message = true →
    messages = before ++ message :: (between ++ message :: after) → between.length < rules.size

/-- Wanted messages have keys of their own. -/
def KeysDistinct (messages : List Message) : Prop :=
  ∀ message ∈ messages, ∀ other ∈ messages, rules.wanted message = true →
    rules.wanted other = true → rules.key message = rules.key other → message = other

/-- What holds after the messages `past` have arrived. -/
structure Inv (past : List Message) (filter : State Message) : Prop where
  window_past : ∀ message ∈ filter.window, message ∈ past
  delivered_past : ∀ message ∈ filter.delivered, message ∈ past
  once : ∀ message ∈ past, rules.wanted message = true → filter.delivered.count message = 1
  /-- A wanted message stays in the window while fewer than `size` others arrive. -/
  remembered : ∀ before after message, rules.wanted message = true →
    past = before ++ message :: after → message ∉ before → after.length < rules.size →
    ∃ k, k ≤ after.length ∧ filter.window[k]? = some message

variable {rules}

theorem inv_empty : Inv rules [] { window := [], delivered := [] } := by
  constructor
  · simp
  · simp
  · simp
  · intro before after message _ hpast
    simp at hpast

omit [BEq Message] in
theorem window_enter {filter : State Message} {k : ℕ} {message other : Message}
    (hsize : k + 1 < rules.size) (hk : filter.window[k]? = some other) :
    (enter rules filter message).window[k + 1]? = some other := by
  unfold enter
  rw [List.getElem?_cons_succ, List.getElem?_take_of_lt (by omega)]
  exact hk

theorem remembered_step {past : List Message} {filter next : State Message} {message : Message}
    (hinv : Inv rules past filter) (hstep : Arrives rules filter message next)
    {before after : List Message} {earlier : Message} (hwanted : rules.wanted earlier = true)
    (hpast : past = before ++ earlier :: after) (hfirst : earlier ∉ before)
    (hclose : after.length + 1 < rules.size) :
    ∃ k, k ≤ after.length + 1 ∧ next.window[k]? = some earlier := by
  obtain ⟨k, hk, hget⟩ := hinv.remembered before after earlier hwanted hpast hfirst (by omega)
  cases hstep with
  | dropped => exact ⟨k, by omega, hget⟩
  | entered => exact ⟨k + 1, by omega, window_enter (by omega) hget⟩

theorem dropped_of_mem {past rest : List Message} {filter next : State Message}
    {message : Message} (hclose : CopiesClose rules (past ++ message :: rest))
    (hinv : Inv rules past filter) (hwanted : rules.wanted message = true)
    (hchecked : rules.checked message = true) (hmem : message ∈ past)
    (hstep : Arrives rules filter message next) : next = filter := by
  cases hstep with
  | dropped => rfl
  | entered hnew =>
      obtain ⟨before, after, hpast, hfirst⟩ := List.eq_append_cons_of_mem hmem
      have hfew : after.length < rules.size :=
        hclose before after rest message hwanted (by simp [hpast])
      obtain ⟨k, -, hget⟩ := hinv.remembered before after message hwanted hpast hfirst hfew
      exact absurd ⟨message, List.mem_of_getElem? hget, rfl⟩ (hnew hchecked)

theorem entered_of_not_mem {past rest : List Message} {filter next : State Message}
    {message : Message} (hkeys : KeysDistinct rules (past ++ message :: rest))
    (hinv : Inv rules past filter) (hwanted : rules.wanted message = true)
    (hunmistaken : Unmistaken rules filter message) (hnew : message ∉ past)
    (hstep : Arrives rules filter message next) : next = enter rules filter message := by
  cases hstep with
  | dropped _ hduplicate =>
      obtain ⟨other, hother, hotherWanted, hkey⟩ := hunmistaken hwanted hduplicate
      have hpast := hinv.window_past other hother
      have heq : other = message :=
        hkeys other (by simp [hpast]) message (by simp) hotherWanted hwanted hkey
      exact absurd (heq ▸ hpast) hnew
  | entered => rfl

omit [BEq Message] in
theorem window_subset {filter next : State Message} {message : Message}
    (hstep : Arrives rules filter message next) {other : Message} (hother : other ∈ next.window) :
    other ∈ filter.window ∨ other = message := by
  cases hstep with
  | dropped => exact .inl hother
  | entered =>
      unfold enter at hother
      rcases List.mem_cons.1 hother with heq | htake
      · exact .inr heq
      · exact .inl (List.mem_of_mem_take htake)

omit [BEq Message] in
theorem delivered_subset {filter next : State Message} {message : Message}
    (hstep : Arrives rules filter message next) {other : Message}
    (hother : other ∈ next.delivered) : other ∈ filter.delivered ∨ other = message := by
  cases hstep with
  | dropped => exact .inl hother
  | entered =>
      unfold enter at hother
      dsimp only at hother
      split at hother
      · simpa using hother
      · exact .inl hother

theorem count_delivered_of_ne [LawfulBEq Message] {filter next : State Message} {message other : Message}
    (hstep : Arrives rules filter message next) (hne : other ≠ message) :
    next.delivered.count other = filter.delivered.count other := by
  cases hstep with
  | dropped => rfl
  | entered =>
      unfold enter
      dsimp only
      split
      · simp [List.count_append, Ne.symm hne]
      · rfl

theorem inv_arrives [LawfulBEq Message] {past rest : List Message} {filter next : State Message}
    {message : Message} (hchecked : ∀ m, rules.wanted m = true → rules.checked m = true)
    (hclose : CopiesClose rules (past ++ message :: rest))
    (hkeys : KeysDistinct rules (past ++ message :: rest)) (hinv : Inv rules past filter)
    (hunmistaken : Unmistaken rules filter message)
    (hstep : Arrives rules filter message next) : Inv rules (past ++ [message]) next where
  window_past := by
    intro other hother
    rcases window_subset hstep hother with hold | rfl
    · exact List.mem_append_left _ (hinv.window_past other hold)
    · simp
  delivered_past := by
    intro other hother
    rcases delivered_subset hstep hother with hold | rfl
    · exact List.mem_append_left _ (hinv.delivered_past other hold)
    · simp
  once := by
    intro other hother hwanted
    by_cases heq : other = message
    · subst heq
      by_cases hmem : other ∈ past
      · rw [dropped_of_mem hclose hinv hwanted (hchecked other hwanted) hmem hstep]
        exact hinv.once other hmem hwanted
      · have hzero : filter.delivered.count other = 0 :=
          List.count_eq_zero.2 fun hdelivered => hmem (hinv.delivered_past other hdelivered)
        rw [entered_of_not_mem hkeys hinv hwanted hunmistaken hmem hstep]
        simp [enter, hwanted, List.count_append, hzero]
    · have hmem : other ∈ past := by
        rcases List.mem_append.1 hother with hold | hlast
        · exact hold
        · exact absurd (List.mem_singleton.1 hlast) heq
      rw [count_delivered_of_ne hstep heq]
      exact hinv.once other hmem hwanted
  remembered := by
    intro before after other hwanted hpast hfirst hfew
    rcases List.eq_nil_or_concat after with rfl | ⟨earlier, last, rfl⟩
    · -- the message itself, for the first time
      obtain ⟨rfl, heq⟩ := List.append_inj' hpast rfl
      obtain rfl : message = other := by simpa using heq
      rw [entered_of_not_mem hkeys hinv hwanted hunmistaken hfirst hstep]
      exact ⟨0, Nat.le_refl 0, rfl⟩
    · have hsplit : past = before ++ other :: earlier := by
        have hshape : past ++ [message] = (before ++ other :: earlier) ++ [last] := by
          simpa using hpast
        exact (List.append_inj' hshape rfl).1
      have hlength : (earlier.concat last).length = earlier.length + 1 := by simp
      rw [hlength] at hfew ⊢
      exact remembered_step hinv hstep hwanted hsplit hfirst hfew

/-- The steps of a filter in which no wanted message is mistaken. -/
def UnmistakenArrival (rules : Rules Message Key) :
    State Message → Message → State Message → Prop :=
  Guarded (Unmistaken rules) (Arrives rules)

theorem inv_run [LawfulBEq Message]
    (hchecked : ∀ m, rules.wanted m = true → rules.checked m = true)
    {messages : List Message} {first last : State Message}
    (hrun : Run (UnmistakenArrival rules) first messages last) :
    ∀ past, CopiesClose rules (past ++ messages) → KeysDistinct rules (past ++ messages) →
      Inv rules past first → Inv rules (past ++ messages) last := by
  induction hrun with
  | nil =>
      intro past _ _ hinv
      simpa using hinv
  | cons hhead _ ih =>
      rename_i first middle last message rest _
      intro past hclose hkeys hinv
      have hmiddle := inv_arrives hchecked hclose hkeys hinv hhead.1 hhead.2
      have hshift : past ++ message :: rest = past ++ [message] ++ rest := by simp
      rw [hshift] at hclose hkeys ⊢
      exact ih (past ++ [message]) hclose hkeys hmiddle

theorem delivered_once [LawfulBEq Message]
    (hchecked : ∀ m, rules.wanted m = true → rules.checked m = true)
    {messages : List Message} {last : State Message}
    (hrun : Run (UnmistakenArrival rules) { window := [], delivered := [] } messages last)
    (hclose : CopiesClose rules messages) (hkeys : KeysDistinct rules messages)
    {message : Message} (hmem : message ∈ messages) (hwanted : rules.wanted message = true) :
    last.delivered.count message = 1 :=
  (inv_run hchecked hrun [] hclose hkeys inv_empty).once message hmem hwanted

end DuplicateFilter
