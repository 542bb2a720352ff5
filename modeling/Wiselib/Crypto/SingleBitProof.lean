import Wiselib.Crypto.EccFp

/-!
# Zero-knowledge proof of a single bit

The prover knows a number `m` and a sign `h` such that `C = m G + h P`.  It
commits itself to two points, gets a challenge, and answers with four keys, of
which the verifier checks three equations.

The verifier goes through its three checks one after the other, but only the
second and the third decide about the proof, and the result of the first is
printed only.  What it sends in the end depends on the number of its successes
since the keys were set up.  The prover with the negative sign exchanges its
keys in place, so that it answers a second challenge for the same points with
keys that it has exchanged already.

## Strategy

* `Passes` says which keys get through the second and the third check, and
  `accept_mem_receive` when the verifier accepts.
* `Committed` says what the prover keeps between its commitment and its first
  answer, and `sendKey_satisfied` that this answer satisfies all equations.
-/

namespace Wiselib.Crypto

/-- The private keys of a proof. -/
structure ProofKeys where
  d : ℕ
  e : ℕ
  s : ℕ
  t : ℕ
deriving DecidableEq, Repr

/-- The messages, with decoded points and numbers. -/
inductive ProofMessage (Point : Type*)
  | start (K L : Point)
  | rand (c : ℕ)
  | cont (keys : ProofKeys)
  | accept
  | reject
deriving DecidableEq, Repr

/-- What a party sends, and the checks whose results the verifier prints. -/
inductive ProofReport (Point : Type*)
  | send (message : ProofMessage Point)
  | check (number : ℕ) (success : Bool)
deriving DecidableEq, Repr

variable {Node Point : Type*} [DecidableEq Node] [AddCommGroup Point]

/-! ## The verifier -/

/-- `REQ_ROUNDS`. -/
def reqRounds : UInt8 := 1

/-- `ZKPOFSINGLEBITVerify`. -/
structure ZkpOfSingleBitVerify (Point : Type*) where
  rounds : UInt8
  success_rounds : UInt8
  required_rounds : UInt8
  c : ℕ
  keys : ProofKeys
  P : Point
  C : Point
  K : Point
  L : Point
deriving DecidableEq, Repr

namespace ZkpOfSingleBitVerify

variable [DecidableEq Point] (curve : Curve Point)

/-- `key_setup`. -/
def keySetup (pubkey1 pubkey2 : Point) (self : ZkpOfSingleBitVerify Point) :
    ZkpOfSingleBitVerify Point :=
  { self with
    rounds := 89
    success_rounds := 0
    required_rounds := reqRounds
    P := pubkey1
    C := pubkey2 }

/-- `generate_random`. -/
def generateRandom (self : ZkpOfSingleBitVerify Point) :
    ZkpOfSingleBitVerify Point × List (ProofReport Point) :=
  let c := curve.genPrivateKey self.rounds
  ({ self with c := c }, [.send (.rand c)])

/-- `final_decision`. -/
def finalDecision (self : ZkpOfSingleBitVerify Point) : List (ProofReport Point) :=
  if self.success_rounds = self.required_rounds then [.send .accept] else [.send .reject]

/-- `verify_msg`. -/
def verifyMsg (self : ZkpOfSingleBitVerify Point) :
    ZkpOfSingleBitVerify Point × List (ProofReport Point) :=
  let result2 := cMul (self.C + -self.P) self.keys.e
  let result3 := self.L + result2
  let check2 := curve.genPublicKey self.keys.t
  if check2 = result3 then
    let self := { self with success_rounds := self.success_rounds + 1 }
    (self, .check 3 true :: self.finalDecision)
  else (self, .check 3 false :: self.finalDecision)

/-- `verify`.  The first check has no consequence. -/
def verify (self : ZkpOfSingleBitVerify Point) :
    ZkpOfSingleBitVerify Point × List (ProofReport Point) :=
  let mid := modAdd curve.bits self.keys.d self.keys.e curve.r
  let first : ProofReport Point := .check 1 (mid == self.c)
  let result := curve.genPublicKey self.keys.s
  let result2 := cMul (self.C + self.P) self.keys.d
  let check := self.K + result2
  if result = check then
    let verdict := self.verifyMsg curve
    (verdict.1, first :: .check 2 true :: verdict.2)
  else (self, first :: .check 2 false :: self.finalDecision)

/-- `receive` at the node `id`. -/
def receive (id sender : Node) (message : ProofMessage Point)
    (self : ZkpOfSingleBitVerify Point) :
    ZkpOfSingleBitVerify Point × List (ProofReport Point) :=
  if sender = id then (self, [])
  else
    match message with
    | .start K L => generateRandom curve { self with K := K, L := L }
    | .cont keys => verify curve { self with keys := keys }
    | _ => (self, [])

end ZkpOfSingleBitVerify

/-! ## The prover -/

/-- `ZKPOFSINGLEBITProve`. -/
structure ZkpOfSingleBitProve (Point : Type*) where
  rounds : UInt8
  h : ℤ
  m : ℕ
  s : ℕ
  d : ℕ
  w : ℕ
  P : Point
  C : Point
  Verify : Point
  Verify2 : Point
  c : ℕ
deriving DecidableEq, Repr

namespace ZkpOfSingleBitProve

variable (curve : Curve Point)

/-- `key_setup`. -/
def keySetup (privkey : ℕ) (pubkey1 pubkey2 : Point) (sign : ℤ)
    (self : ZkpOfSingleBitProve Point) : ZkpOfSingleBitProve Point :=
  { self with
    rounds := 1
    h := sign
    m := privkey
    P := pubkey1
    C := pubkey2 }

/-- `start_proof`. -/
def startProof (self : ZkpOfSingleBitProve Point) :
    ZkpOfSingleBitProve Point × List (ProofReport Point) :=
  let rounds := self.rounds + 1
  let s := curve.genPrivateKey rounds
  let d := curve.genPrivateKey (rounds + 1)
  let w := curve.genPrivateKey (rounds + 11)
  let result := curve.genPublicKey s
  let points : Point × Point :=
    if self.h = 1 then
      (result + -cMul (self.C + self.P) d, curve.genPublicKey w)
    else
      -- the points are swapped
      (curve.genPublicKey w, result + -cMul (self.C + -self.P) d)
  ({ self with
      rounds := rounds
      s := s
      d := d
      w := w
      Verify := points.1
      Verify2 := points.2 },
    [.send (.start points.1 points.2)])

/-- `send_key`. -/
def sendKey (self : ZkpOfSingleBitProve Point) :
    ZkpOfSingleBitProve Point × List (ProofReport Point) :=
  let e := modSub curve.bits self.c self.d curve.r
  let t := modAdd curve.bits self.w (modMult self.m e curve.r) curve.r
  if self.h = -1 then
    -- the keys are swapped, `d` and `s` in the state of the prover
    ({ self with d := e, s := t },
      [.send (.cont { d := e, e := self.d, s := t, t := self.s })])
  else (self, [.send (.cont { d := self.d, e := e, s := self.s, t := t })])

/-- `receive` at the node `id`. -/
def receive (id sender : Node) (message : ProofMessage Point)
    (self : ZkpOfSingleBitProve Point) :
    ZkpOfSingleBitProve Point × List (ProofReport Point) :=
  if sender = id then (self, [])
  else
    match message with
    | .rand c => sendKey curve { self with c := c }
    | _ => (self, [])

end ZkpOfSingleBitProve

/-! ## The equations of a proof -/

/-- What a start message fixes: the points, and the challenge that answers it. -/
structure ProofSession (Point : Type*) where
  K : Point
  L : Point
  c : ℕ
deriving DecidableEq, Repr

namespace ProofSession

variable (curve : Curve Point) (P C : Point) (session : ProofSession Point) (keys : ProofKeys)

/-- `d + e = c`. -/
def First : Prop :=
  keys.d + keys.e ≡ session.c [MOD curve.r]

/-- `s G = K + d (C + P)`. -/
def Second : Prop :=
  keys.s • curve.G = session.K + keys.d • (C + P)

/-- `t G = L + e (C - P)`. -/
def Third : Prop :=
  keys.t • curve.G = session.L + keys.e • (C - P)

/-- The keys satisfy all three equations. -/
def Satisfied : Prop :=
  session.First curve keys ∧ session.Second curve P C keys ∧ session.Third curve P C keys

variable [DecidableEq Point]

instance : Decidable (session.First curve keys) :=
  inferInstanceAs (Decidable (_ ≡ _ [MOD _]))

instance : Decidable (session.Second curve P C keys) :=
  inferInstanceAs (Decidable (_ = _))

instance : Decidable (session.Third curve P C keys) :=
  inferInstanceAs (Decidable (_ = _))

instance : Decidable (session.Satisfied curve P C keys) :=
  inferInstanceAs (Decidable (_ ∧ _ ∧ _))

end ProofSession

/-! ## When the verifier accepts -/

namespace ZkpOfSingleBitVerify

variable {curve : Curve Point} {self : ZkpOfSingleBitVerify Point} {keys : ProofKeys}

/-- The keys get through the second and the third check of the verifier. -/
def Passes (curve : Curve Point) (self : ZkpOfSingleBitVerify Point) (keys : ProofKeys) : Prop :=
  curve.genPublicKey keys.s = self.K + cMul (self.C + self.P) keys.d ∧
    curve.genPublicKey keys.t = self.L + cMul (self.C + -self.P) keys.e

/-- The verifier knows the public keys and what the latest start message fixed. -/
structure Recorded (P C : Point) (latest : Option (ProofSession Point))
    (verifier : ZkpOfSingleBitVerify Point) : Prop where
  P_eq : verifier.P = P
  C_eq : verifier.C = C
  required_eq : verifier.required_rounds = reqRounds
  session_eq : ∀ session ∈ latest, session = ⟨verifier.K, verifier.L, verifier.c⟩

theorem Recorded.passes_iff {P C : Point} {latest : Option (ProofSession Point)}
    (hrecorded : self.Recorded P C latest) {session : ProofSession Point}
    (hlatest : session ∈ latest) :
    self.Passes curve keys ↔ session.Second curve P C keys ∧ session.Third curve P C keys := by
  rw [hrecorded.session_eq session hlatest]
  simp only [Passes, ProofSession.Second, ProofSession.Third, Curve.genPublicKey_eq, cMul_eq,
    hrecorded.P_eq, hrecorded.C_eq, sub_eq_add_neg]

variable [DecidableEq Point]

instance : Decidable (Passes curve self keys) :=
  inferInstanceAs (Decidable (_ ∧ _))

omit [AddCommGroup Point] [DecidableEq Point] in
theorem accept_mem_finalDecision :
    .send .accept ∈ self.finalDecision ↔ self.success_rounds = self.required_rounds := by
  unfold finalDecision
  split
  · rename_i hequal
    simp [hequal]
  · rename_i hequal
    simp [hequal]

/-- The verifier accepts if the number of its successes is the required one, where
keys that get through count already. -/
theorem accept_mem_receive {id sender : Node} (hsender : sender ≠ id) :
    .send .accept ∈ (self.receive curve id sender (.cont keys)).2 ↔
      (if Passes curve self keys then self.success_rounds + 1 else self.success_rounds) =
        self.required_rounds := by
  by_cases hsecond : curve.genPublicKey keys.s = self.K + cMul (self.C + self.P) keys.d
  · by_cases hthird : curve.genPublicKey keys.t = self.L + cMul (self.C + -self.P) keys.e
    · have hpasses : Passes curve self keys := ⟨hsecond, hthird⟩
      rw [if_pos hpasses]
      simp only [receive, if_neg hsender, verify, verifyMsg, if_pos hsecond, if_pos hthird]
      simp [accept_mem_finalDecision]
    · have hfails : ¬ Passes curve self keys := fun hpasses => hthird hpasses.2
      rw [if_neg hfails]
      simp only [receive, if_neg hsender, verify, verifyMsg, if_pos hsecond, if_neg hthird]
      simp [accept_mem_finalDecision]
  · have hfails : ¬ Passes curve self keys := fun hpasses => hsecond hpasses.1
    rw [if_neg hfails]
    simp only [receive, if_neg hsender, verify, if_neg hsecond]
    simp [accept_mem_finalDecision]

theorem cont_of_accept_mem {id sender : Node} {message : ProofMessage Point}
    (haccept : .send .accept ∈ (self.receive curve id sender message).2) :
    sender ≠ id ∧ ∃ keys, message = .cont keys := by
  by_cases hsender : sender = id
  · simp [receive, hsender] at haccept
  · refine ⟨hsender, ?_⟩
    cases message with
    | cont keys => exact ⟨keys, rfl⟩
    | start K L => simp [receive, hsender, generateRandom] at haccept
    | rand c => simp [receive, hsender] at haccept
    | accept => simp [receive, hsender] at haccept
    | reject => simp [receive, hsender] at haccept

theorem verify_eq (self : ZkpOfSingleBitVerify Point) :
    ∃ success_rounds, (self.verify curve).1 = { self with success_rounds := success_rounds } := by
  simp only [verify, verifyMsg]
  split
  · split
    · exact ⟨_, rfl⟩
    · exact ⟨self.success_rounds, rfl⟩
  · exact ⟨self.success_rounds, rfl⟩

end ZkpOfSingleBitVerify

/-! ## What the prover keeps -/

namespace ZkpOfSingleBitProve

variable {curve : Curve Point} {self : ZkpOfSingleBitProve Point} {m : ℕ} {h : ℤ} {P C : Point}

/-- The prover has the key and the sign it was set up with. -/
structure Keyed (m : ℕ) (h : ℤ) (P C : Point) (prover : ZkpOfSingleBitProve Point) : Prop where
  m_eq : prover.m = m
  h_eq : prover.h = h
  P_eq : prover.P = P
  C_eq : prover.C = C

omit [AddCommGroup Point] in
theorem keyed_keySetup (memory : ZkpOfSingleBitProve Point) :
    Keyed m h P C (memory.keySetup m P C h) :=
  ⟨rfl, rfl, rfl, rfl⟩

theorem Keyed.startProof (hkeyed : self.Keyed m h P C) :
    (self.startProof curve).1.Keyed m h P C :=
  ⟨hkeyed.m_eq, hkeyed.h_eq, hkeyed.P_eq, hkeyed.C_eq⟩

theorem Keyed.receive (hkeyed : self.Keyed m h P C) {id sender : Node}
    {message : ProofMessage Point} : (self.receive curve id sender message).1.Keyed m h P C := by
  obtain ⟨rfl, rfl, rfl, rfl⟩ := hkeyed
  unfold ZkpOfSingleBitProve.receive
  split
  · exact ⟨rfl, rfl, rfl, rfl⟩
  · split
    · unfold sendKey
      split
      · exact ⟨rfl, rfl, rfl, rfl⟩
      · exact ⟨rfl, rfl, rfl, rfl⟩
    · exact ⟨rfl, rfl, rfl, rfl⟩

/-- The secrets of the prover belong to the points that it has sent. -/
structure Committed (curve : Curve Point) (K L : Point) (prover : ZkpOfSingleBitProve Point) :
    Prop where
  d_le : prover.d ≤ curve.r
  w_le : prover.w ≤ curve.r
  points : (K, L) =
    if prover.h = 1 then
      (prover.s • curve.G - prover.d • (prover.C + prover.P), prover.w • curve.G)
    else (prover.w • curve.G, prover.s • curve.G - prover.d • (prover.C - prover.P))

theorem committed_startProof {K L : Point}
    (hsent : (self.startProof curve).2 = [.send (.start K L)]) :
    (self.startProof curve).1.Committed curve K L := by
  simp only [startProof, List.cons.injEq, ProofReport.send.injEq, ProofMessage.start.injEq,
    and_true] at hsent
  obtain ⟨rfl, rfl⟩ := hsent
  refine ⟨curve.genPrivateKey_le _, curve.genPrivateKey_le _, ?_⟩
  simp only [startProof, Curve.genPublicKey_eq, cMul_eq, sub_eq_add_neg, Prod.mk.eta]

/-- A message that is no challenge, and a challenge to the positive sign, leave the
secrets as they are. -/
theorem Committed.receive {K L : Point} (hcommitted : self.Committed curve K L)
    {id sender : Node} {message : ProofMessage Point}
    (hkept : self.h ≠ -1 ∨ sender = id ∨ ∀ c, message ≠ .rand c) :
    (self.receive curve id sender message).1.Committed curve K L := by
  unfold ZkpOfSingleBitProve.receive
  split
  · exact hcommitted
  · rename_i hsender
    split
    · rename_i c
      have hpositive : self.h ≠ -1 := by
        rcases hkept with hpositive | hequal | hother
        · exact hpositive
        · exact absurd hequal hsender
        · exact absurd rfl (hother c)
      unfold sendKey
      rw [if_neg hpositive]
      exact ⟨hcommitted.d_le, hcommitted.w_le, hcommitted.points⟩
    · exact hcommitted

/-- **An answer that belongs to the points satisfies all equations.** -/
theorem sendKey_satisfied {session : ProofSession Point} {keys : ProofKeys}
    (hkeyed : self.Keyed m h P C) (hsign : h = 1 ∨ h = -1)
    (hkey : C = m • curve.G + h • P)
    (hcommitted : self.Committed curve session.K session.L) (hchallenge : self.c = session.c)
    (hsent : (self.sendKey curve).2 = [.send (.cont keys)]) :
    session.Satisfied curve P C keys := by
  have hmE : ∀ e, modMult self.m e curve.r < curve.r := fun e => Nat.mod_lt _ curve.r_pos
  have hresponse : ∀ e, modAdd curve.bits self.w (modMult self.m e curve.r) curve.r • curve.G =
      self.w • curve.G + e • self.m • curve.G := by
    intro e
    calc modAdd curve.bits self.w (modMult self.m e curve.r) curve.r • curve.G
        = (self.w + modMult self.m e curve.r) • curve.G :=
          curve.smul_congr (modAdd_modEq hcommitted.w_le (hmE e) curve.r_lt)
      _ = (self.w + self.m * e) • curve.G :=
          curve.smul_congr ((Nat.mod_modEq _ _).add_left _)
      _ = self.w • curve.G + e • self.m • curve.G := by
          rw [add_nsmul, mul_comm, mul_nsmul']
  have hfirst : self.d + modSub curve.bits self.c self.d curve.r ≡ session.c [MOD curve.r] := by
    rw [← hchallenge]
    exact add_modSub_modEq hcommitted.d_le curve.r_lt
  have hpoints := hcommitted.points
  rw [hkeyed.h_eq, hkeyed.P_eq, hkeyed.C_eq] at hpoints
  have hm := hkeyed.m_eq
  unfold sendKey at hsent
  rw [hkeyed.h_eq] at hsent
  rcases hsign with rfl | rfl
  · -- the points and the keys are sent as they are
    have hdifference : C - P = self.m • curve.G := by
      rw [hkey, hm, one_zsmul, add_sub_cancel_right]
    rw [if_neg (by decide)] at hsent
    rw [if_pos rfl, Prod.mk.injEq] at hpoints
    simp only [List.cons.injEq, ProofReport.send.injEq, ProofMessage.cont.injEq,
      and_true] at hsent
    subst hsent
    refine ⟨hfirst, ?_, ?_⟩
    · unfold ProofSession.Second
      rw [hpoints.1, sub_add_cancel]
    · unfold ProofSession.Third
      rw [hpoints.2, hdifference, hresponse]
  · -- the points and the keys are swapped
    have hsum : C + P = self.m • curve.G := by
      rw [hkey, hm, neg_one_zsmul, neg_add_cancel_right]
    rw [if_pos rfl] at hsent
    rw [if_neg (by decide), Prod.mk.injEq] at hpoints
    simp only [List.cons.injEq, ProofReport.send.injEq, ProofMessage.cont.injEq,
      and_true] at hsent
    subst hsent
    refine ⟨?_, ?_, ?_⟩
    · unfold ProofSession.First
      rw [Nat.add_comm]
      exact hfirst
    · unfold ProofSession.Second
      rw [hpoints.1, hsum, hresponse]
    · unfold ProofSession.Third
      rw [hpoints.2, sub_add_cancel]

end ZkpOfSingleBitProve

end Wiselib.Crypto
