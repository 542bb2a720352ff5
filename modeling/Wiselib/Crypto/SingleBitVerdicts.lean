import Wiselib.Crypto.SingleBitProof

/-!
# Verdicts about single bits

A verdict is right if an accepted message satisfies the equations for the
latest start message, and if what an honest prover answers to its challenge is
accepted.

The verifier counts its successes and accepts whenever the count is one.  After
the first success it therefore accepts what fails its checks, and rejects what
gets through them; with the second success it stops accepting until the count
overflows.  Before, it also accepts keys with `d + e ≠ c`.

## Strategy

* `recorded_run` ties the state of the verifier to the latest start message of a
  run, by induction on the messages received.
* `HonestProof.satisfied` carries the commitment of a prover to its first answer,
  by induction on the messages in between.
* `verdict_right_iff` then compares the verdict on one message with the equations,
  for each number of successes.
-/

namespace Wiselib.Crypto

variable {Node Point : Type*} [DecidableEq Node] [AddCommGroup Point]

/-! ## Runs of the verifier -/

/-- A message that the verifier received, and what it did. -/
structure Exchange (Node Point : Type*) where
  sender : Node
  message : ProofMessage Point
  reports : List (ProofReport Point)
deriving DecidableEq, Repr

/-- The start message that was answered last, with the challenge that answered it. -/
def latestStart (log : List (Exchange Node Point)) : Option (ProofSession Point) :=
  log.foldl (fun latest exchange =>
    match exchange.message, exchange.reports with
    | .start K L, [.send (.rand c)] => some ⟨K, L, c⟩
    | _, _ => latest) none

/-- What the key setup of a run of the verifier fixes. -/
structure Setting (Node Point : Type*) [AddCommGroup Point] where
  curve : Curve Point
  id : Node
  memory : ZkpOfSingleBitVerify Point
  P : Point
  C : Point

namespace Setting

variable [DecidableEq Point] (setting : Setting Node Point)

/-- The verifier receives one more message. -/
def exchange (past : ZkpOfSingleBitVerify Point × List (Exchange Node Point))
    (entry : Node × ProofMessage Point) :
    ZkpOfSingleBitVerify Point × List (Exchange Node Point) :=
  let result := past.1.receive setting.curve setting.id entry.1 entry.2
  (result.1, past.2 ++ [{ sender := entry.1, message := entry.2, reports := result.2 }])

/-- The verifier and its log after the messages, in the order received. -/
def run (received : List (Node × ProofMessage Point)) :
    ZkpOfSingleBitVerify Point × List (Exchange Node Point) :=
  received.foldl setting.exchange (setting.memory.keySetup setting.P setting.C, [])

/-- The start message that holds after the messages. -/
def latest (received : List (Node × ProofMessage Point)) : Option (ProofSession Point) :=
  latestStart (setting.run received).2

/-- What the verifier does with a message that comes after others. -/
def answer (received : List (Node × ProofMessage Point)) (sender : Node)
    (message : ProofMessage Point) : List (ProofReport Point) :=
  ((setting.run received).1.receive setting.curve setting.id sender message).2

end Setting

/-! ## Honest provers -/

/-- What a prover does or receives. -/
inductive ProverInput (Node Point : Type*)
  | startProof
  | receive (sender : Node) (message : ProofMessage Point)
deriving DecidableEq, Repr

/-- The prover after an input. -/
def ZkpOfSingleBitProve.perform (curve : Curve Point) (id : Node)
    (self : ZkpOfSingleBitProve Point) : ProverInput Node Point → ZkpOfSingleBitProve Point
  | .startProof => (self.startProof curve).1
  | .receive sender message => (self.receive curve id sender message).1

/-- A proof that a prover starts who knows the key: what it did since it was set
up with the key, and what it receives since it started the proof. -/
structure HonestProof (Node : Type*) {Point : Type*} [AddCommGroup Point]
    (curve : Curve Point) (P C : Point) where
  id : Node
  m : ℕ
  h : ℤ
  sign : h = 1 ∨ h = -1
  key : C = m • curve.G + h • P
  memory : ZkpOfSingleBitProve Point
  earlier : List (ProverInput Node Point)
  since : List (Node × ProofMessage Point)

namespace HonestProof

variable {curve : Curve Point} {P C : Point} (proof : HonestProof Node curve P C)

/-- The start of the proof. -/
def start : ZkpOfSingleBitProve Point × List (ProofReport Point) :=
  (proof.earlier.foldl (ZkpOfSingleBitProve.perform curve proof.id)
    (proof.memory.keySetup proof.m P C proof.h)).startProof curve

/-- The prover that has received what came since. -/
def prover : ZkpOfSingleBitProve Point :=
  proof.since.foldl (fun self entry => (self.receive curve proof.id entry.1 entry.2).1)
    proof.start.1

/-- The prover has started this session and computes the keys for its challenge. -/
def Answers (session : ProofSession Point) (keys : ProofKeys) : Prop :=
  proof.start.2 = [.send (.start session.K session.L)] ∧
    ∃ sender, (proof.prover.receive curve proof.id sender (.rand session.c)).2 =
      [.send (.cont keys)]

/-- The prover has the negative sign and has answered a challenge already since it
started the proof. -/
def Repeats : Prop :=
  proof.h = -1 ∧ ∃ sender c, sender ≠ proof.id ∧ (sender, .rand c) ∈ proof.since

theorem keyed_start : proof.start.1.Keyed proof.m proof.h P C := by
  have hearlier : ∀ (inputs : List (ProverInput Node Point)) (self : ZkpOfSingleBitProve Point),
      self.Keyed proof.m proof.h P C →
        (inputs.foldl (ZkpOfSingleBitProve.perform curve proof.id) self).Keyed
          proof.m proof.h P C := by
    intro inputs
    induction inputs with
    | nil => exact fun _ hkeyed => hkeyed
    | cons input rest ih =>
        intro self hkeyed
        refine ih _ ?_
        cases input with
        | startProof => exact hkeyed.startProof
        | receive sender message => exact hkeyed.receive
  exact (hearlier proof.earlier _ (ZkpOfSingleBitProve.keyed_keySetup proof.memory)).startProof

/-- Up to its first answer the prover keeps its secrets, and with the positive sign
it keeps them for good. -/
theorem committed_prover {K L : Point} (hstart : proof.start.2 = [.send (.start K L)])
    (hfirst : ¬ proof.Repeats) :
    proof.prover.Keyed proof.m proof.h P C ∧ proof.prover.Committed curve K L := by
  have hsince : ∀ (since : List (Node × ProofMessage Point)) (self : ZkpOfSingleBitProve Point),
      (∀ entry ∈ since, entry ∈ proof.since) →
      self.Keyed proof.m proof.h P C → self.Committed curve K L →
        (since.foldl (fun self entry => (self.receive curve proof.id entry.1 entry.2).1)
          self).Keyed proof.m proof.h P C ∧
        (since.foldl (fun self entry => (self.receive curve proof.id entry.1 entry.2).1)
          self).Committed curve K L := by
    intro since
    induction since with
    | nil => exact fun _ _ hkeyed hcommitted => ⟨hkeyed, hcommitted⟩
    | cons entry rest ih =>
        intro self hmem hkeyed hcommitted
        have hkept : self.h ≠ -1 ∨ entry.1 = proof.id ∨ ∀ c, entry.2 ≠ .rand c := by
          by_contra hlost
          simp only [not_or, not_not, not_forall] at hlost
          obtain ⟨hnegative, hsender, c, hrand⟩ := hlost
          have hentry : (entry.1, ProofMessage.rand c) ∈ proof.since := by
            rw [← hrand]
            exact hmem entry List.mem_cons_self
          exact hfirst ⟨hkeyed.h_eq ▸ hnegative, entry.1, c, hsender, hentry⟩
        exact ih _ (fun later hlater => hmem later (List.mem_cons_of_mem _ hlater))
          hkeyed.receive (hcommitted.receive hkept)
  exact hsince proof.since proof.start.1 (fun _ hentry => hentry) proof.keyed_start
    (ZkpOfSingleBitProve.committed_startProof hstart)

/-- **An honest answer satisfies all equations**, unless the negative sign answers
again. -/
theorem satisfied {session : ProofSession Point} {keys : ProofKeys}
    (hanswers : proof.Answers session keys) (hfirst : ¬ proof.Repeats) :
    session.Satisfied curve P C keys := by
  obtain ⟨hstart, sender, hsent⟩ := hanswers
  obtain ⟨hkeyed, hcommitted⟩ := proof.committed_prover hstart hfirst
  have hsender : sender ≠ proof.id := by
    rintro rfl
    simp [ZkpOfSingleBitProve.receive] at hsent
  simp only [ZkpOfSingleBitProve.receive, if_neg hsender] at hsent
  have hkeyed' : ({ proof.prover with c := session.c } : ZkpOfSingleBitProve Point).Keyed
      proof.m proof.h P C := ⟨hkeyed.m_eq, hkeyed.h_eq, hkeyed.P_eq, hkeyed.C_eq⟩
  have hcommitted' : ({ proof.prover with c := session.c } : ZkpOfSingleBitProve Point).Committed
      curve session.K session.L := ⟨hcommitted.d_le, hcommitted.w_le, hcommitted.points⟩
  exact ZkpOfSingleBitProve.sendKey_satisfied hkeyed' proof.sign proof.key hcommitted' rfl hsent

end HonestProof

/-! ## What a verdict promises -/

namespace Setting

/-- An honest prover computes these keys for the challenge of the session. -/
def Honest (setting : Setting Node Point) (session : ProofSession Point) (keys : ProofKeys) :
    Prop :=
  ∃ proof : HonestProof Node setting.curve setting.P setting.C, proof.Answers session keys

/-- An honest prover with the negative sign computes these keys when it answers
again. -/
def HonestAgain (setting : Setting Node Point) (session : ProofSession Point)
    (keys : ProofKeys) : Prop :=
  ∃ proof : HonestProof Node setting.curve setting.P setting.C,
    proof.Answers session keys ∧ proof.Repeats

variable [DecidableEq Point] (setting : Setting Node Point)

/-- A message is accepted only if it is a continue message with keys that satisfy
the equations of the latest start message. -/
def VerdictSound (received : List (Node × ProofMessage Point)) (sender : Node)
    (message : ProofMessage Point) : Prop :=
  .send .accept ∈ setting.answer received sender message →
    ∃ keys, message = .cont keys ∧ ∃ session ∈ setting.latest received,
      session.Satisfied setting.curve setting.P setting.C keys

/-- Keys that an honest prover computes for the latest start message are accepted. -/
def VerdictComplete (received : List (Node × ProofMessage Point)) (sender : Node)
    (message : ProofMessage Point) : Prop :=
  sender ≠ setting.id → ∀ keys, message = .cont keys →
    ∀ session ∈ setting.latest received, setting.Honest session keys →
      .send .accept ∈ setting.answer received sender message

/-- When the verdict on a message is right.  Without a success so far, keys that get
through the checks have to belong to a start message and to satisfy the first
equation, and keys that an honest prover answers again have to get through them.
With one success, only keys that get through and are not an honest answer are
judged right, and with more of them all but honest answers. -/
def JudgedRight (received : List (Node × ProofMessage Point)) (sender : Node)
    (message : ProofMessage Point) : Prop :=
  let verifier := (setting.run received).1
  let latest := setting.latest received
  sender ≠ setting.id → ∀ keys, message = .cont keys →
    (verifier.success_rounds = 0 ∧
      (verifier.Passes setting.curve keys →
        ∃ session ∈ latest, session.First setting.curve keys) ∧
      ((∃ session ∈ latest, setting.HonestAgain session keys) →
        verifier.Passes setting.curve keys)) ∨
    (verifier.success_rounds = 1 ∧ verifier.Passes setting.curve keys ∧
      ¬ ∃ session ∈ latest, setting.Honest session keys) ∨
    (1 < verifier.success_rounds ∧ ¬ ∃ session ∈ latest, setting.Honest session keys)

/-! ## Runs and their latest start message -/

@[simp] theorem run_append (received : List (Node × ProofMessage Point))
    (entry : Node × ProofMessage Point) :
    setting.run (received ++ [entry]) = setting.exchange (setting.run received) entry := by
  simp [run]

theorem recorded_exchange {self : ZkpOfSingleBitVerify Point}
    {log : List (Exchange Node Point)}
    (hrecorded : self.Recorded setting.P setting.C (latestStart log))
    (entry : Node × ProofMessage Point) :
    (setting.exchange (self, log) entry).1.Recorded setting.P setting.C
      (latestStart (setting.exchange (self, log) entry).2) := by
  obtain ⟨sender, message⟩ := entry
  simp only [exchange, latestStart, List.foldl_append, List.foldl_cons, List.foldl_nil]
  by_cases hsender : sender = setting.id
  · -- the own messages change nothing
    simp only [ZkpOfSingleBitVerify.receive, if_pos hsender]
    cases message <;> exact hrecorded
  · simp only [ZkpOfSingleBitVerify.receive, if_neg hsender]
    cases message with
    | start K L =>
        refine ⟨hrecorded.P_eq, hrecorded.C_eq, hrecorded.required_eq, ?_⟩
        intro session hsession
        exact (Option.some.inj hsession).symm
    | cont keys =>
        have hverified : ∃ success_rounds,
            (ZkpOfSingleBitVerify.verify setting.curve { self with keys := keys }).1 =
              { self with keys := keys, success_rounds := success_rounds } :=
          ZkpOfSingleBitVerify.verify_eq { self with keys := keys }
        obtain ⟨success_rounds, hverify⟩ := hverified
        rw [hverify]
        exact ⟨hrecorded.P_eq, hrecorded.C_eq, hrecorded.required_eq, hrecorded.session_eq⟩
    | rand c => exact hrecorded
    | accept => exact hrecorded
    | reject => exact hrecorded

theorem recorded_run (received : List (Node × ProofMessage Point)) :
    (setting.run received).1.Recorded setting.P setting.C (setting.latest received) := by
  induction received using List.reverseRecOn with
  | nil =>
      refine ⟨rfl, rfl, rfl, ?_⟩
      intro session hsession
      exact absurd hsession (Option.not_mem_none session)
  | append_singleton received entry ih =>
      unfold latest
      rw [run_append]
      exact setting.recorded_exchange ih entry

/-! ## Every verdict of a run -/

/-- The keys satisfy the equations of the latest start message if they get through
the checks and satisfy the first equation. -/
theorem satisfied_iff (received : List (Node × ProofMessage Point)) (keys : ProofKeys) :
    (∃ session ∈ setting.latest received,
        session.Satisfied setting.curve setting.P setting.C keys) ↔
      (setting.run received).1.Passes setting.curve keys ∧
        ∃ session ∈ setting.latest received, session.First setting.curve keys := by
  constructor
  · rintro ⟨session, hsession, hfirst, hrest⟩
    exact ⟨((setting.recorded_run received).passes_iff hsession).2 hrest, session, hsession,
      hfirst⟩
  · rintro ⟨hpasses, session, hsession, hfirst⟩
    exact ⟨session, hsession, hfirst,
      ((setting.recorded_run received).passes_iff hsession).1 hpasses⟩

/-- An honest answer gets through the checks, unless the negative sign answers
again. -/
theorem passes_of_honest {received : List (Node × ProofMessage Point)} {keys : ProofKeys}
    (hagain : (∃ session ∈ setting.latest received, setting.HonestAgain session keys) →
      (setting.run received).1.Passes setting.curve keys)
    (hhonest : ∃ session ∈ setting.latest received, setting.Honest session keys) :
    (setting.run received).1.Passes setting.curve keys := by
  obtain ⟨session, hsession, proof, hanswers⟩ := hhonest
  by_cases hrepeats : proof.Repeats
  · exact hagain ⟨session, hsession, proof, hanswers, hrepeats⟩
  · have hsatisfied := proof.satisfied hanswers hrepeats
    exact ((setting.satisfied_iff received keys).1 ⟨session, hsession, hsatisfied⟩).1

theorem accept_mem_answer {received : List (Node × ProofMessage Point)} {sender : Node}
    (hsender : sender ≠ setting.id) (keys : ProofKeys) :
    .send .accept ∈ setting.answer received sender (.cont keys) ↔
      (if (setting.run received).1.Passes setting.curve keys
        then (setting.run received).1.success_rounds = 0
        else (setting.run received).1.success_rounds = 1) := by
  unfold answer
  rw [ZkpOfSingleBitVerify.accept_mem_receive hsender,
    (setting.recorded_run received).required_eq]
  split
  · exact add_eq_right
  · exact Iff.rfl

/-- What the number of successes makes of the verdict on a message that gets
through the checks or not. -/
theorem verdict_cases {passes first honest again : Prop} [Decidable passes]
    (hagain : again → honest) (hhonest : (again → passes) → honest → passes) (number : UInt8) :
    ((if passes then number = 0 else number = 1) → passes ∧ first) ∧
        (honest → if passes then number = 0 else number = 1) ↔
      (number = 0 ∧ (passes → first) ∧ (again → passes)) ∨
        (number = 1 ∧ passes ∧ ¬ honest) ∨ (1 < number ∧ ¬ honest) := by
  have hnumber : number = 0 ∨ number = 1 ∨ 1 < number := by
    simp only [UInt8.lt_iff_toNat_lt, ← UInt8.toNat_inj]
    simp
    omega
  rcases hnumber with rfl | rfl | hmany
  · -- no success so far: accepted if it gets through
    by_cases hpasses : passes
    · simp [hpasses]
    · simp only [hpasses]
      simp
      tauto
  · -- one success: accepted if it fails
    by_cases hpasses : passes
    · simp [hpasses]
    · simp [hpasses]
  · -- more of them: never accepted
    have hzero : number ≠ 0 := by
      rintro rfl
      exact absurd hmany (by decide)
    have hone : number ≠ 1 := by
      rintro rfl
      exact absurd hmany (by decide)
    simp [hzero, hone, hmany]

/-- The verdict on a continue message in terms of the checks and the equations. -/
theorem verdict_right_cont {received : List (Node × ProofMessage Point)} {sender : Node}
    (hsender : sender ≠ setting.id) (keys : ProofKeys) :
    setting.VerdictSound received sender (.cont keys) ∧
        setting.VerdictComplete received sender (.cont keys) ↔
      (.send .accept ∈ setting.answer received sender (.cont keys) →
        (setting.run received).1.Passes setting.curve keys ∧
          ∃ session ∈ setting.latest received, session.First setting.curve keys) ∧
      ((∃ session ∈ setting.latest received, setting.Honest session keys) →
        .send .accept ∈ setting.answer received sender (.cont keys)) := by
  rw [← satisfied_iff]
  constructor
  · rintro ⟨hsound, hcomplete⟩
    refine ⟨fun haccept => ?_, fun ⟨session, hsession, hhonest⟩ => ?_⟩
    · obtain ⟨keys', heq, hsatisfied⟩ := hsound haccept
      obtain rfl : keys = keys' := by simpa using heq
      exact hsatisfied
    · exact hcomplete hsender keys rfl session hsession hhonest
  · rintro ⟨hsound, hcomplete⟩
    refine ⟨fun haccept => ⟨keys, rfl, hsound haccept⟩, ?_⟩
    intro _ keys' heq session hsession hhonest
    obtain rfl : keys = keys' := by simpa using heq
    exact hcomplete ⟨session, hsession, hhonest⟩

/-- **The verdict on one message.** -/
theorem verdict_right_iff (received : List (Node × ProofMessage Point)) (sender : Node)
    (message : ProofMessage Point) :
    setting.VerdictSound received sender message ∧
        setting.VerdictComplete received sender message ↔
      setting.JudgedRight received sender message := by
  by_cases hcont : sender ≠ setting.id ∧ ∃ keys, message = .cont keys
  · obtain ⟨hsender, keys, rfl⟩ := hcont
    have hjudged : setting.JudgedRight received sender (.cont keys) ↔ _ :=
      ⟨fun hjudged => hjudged hsender keys rfl, fun hkeys _ keys' heq =>
        ProofMessage.cont.inj heq ▸ hkeys⟩
    rw [verdict_right_cont setting hsender, accept_mem_answer setting hsender, hjudged]
    have hagain : (∃ session ∈ setting.latest received, setting.HonestAgain session keys) →
        ∃ session ∈ setting.latest received, setting.Honest session keys :=
      fun ⟨session, hsession, proof, hanswers, _⟩ => ⟨session, hsession, proof, hanswers⟩
    exact verdict_cases hagain setting.passes_of_honest _
  · -- such a message is not accepted
    have hreject : .send .accept ∉ setting.answer received sender message :=
      fun haccept => hcont (ZkpOfSingleBitVerify.cont_of_accept_mem haccept)
    constructor
    · intro _ hsender keys heq
      exact absurd ⟨hsender, keys, heq⟩ hcont
    · intro _
      refine ⟨fun haccept => absurd haccept hreject, ?_⟩
      intro hsender keys heq
      exact absurd ⟨hsender, keys, heq⟩ hcont

local instance two : Nat.AtLeastTwo 2 := ⟨by decide⟩

local instance five : Nat.AtLeastTwo 5 := ⟨by decide⟩

/-- A curve with seven points. -/
def sampleCurve : Curve (ZMod 7) where
  bits := 8
  r := 7
  G := 1
  genPrivateKey seed := seed.toNat % 6 + 1
  r_pos := by decide
  r_lt := by decide
  smul_G := by decide
  genPrivateKey_le seed := by
    have hlt := Nat.mod_lt seed.toNat (show 6 > 0 by decide)
    omega

/-- A verifier of the key 2 with the positive sign. -/
def sampleSetting : Setting (Fin 2) (ZMod 7) where
  curve := sampleCurve
  id := 0
  memory := ⟨0, 0, 0, 0, ⟨0, 0, 0, 0⟩, 0, 0, 0, 0⟩
  P := 3
  C := 5

/-- An honest prover that starts its second proof. -/
def sampleProof : HonestProof (Fin 2) sampleSetting.curve sampleSetting.P sampleSetting.C where
  id := 1
  m := 2
  h := 1
  sign := .inl rfl
  key := by decide
  memory := ⟨0, 0, 0, 0, 0, 0, 0, 0, 0, 0, 0⟩
  earlier := [.startProof, .receive 0 (.rand 6), .receive 0 .accept]
  since := []

/-- The start message and the keys of the first proof, and the start message of
the second one. -/
def sampleReceived : List (Fin 2 × ProofMessage (ZMod 7)) :=
  [(1, .start 6 2), (1, .cont ⟨4, 2, 3, 6⟩), (1, .start 6 3)]

end Setting

end Wiselib.Crypto
