import Wiselib.Routing.OlsrLinkSensing

/-!
# The link set and the neighbour set of OLSR

As long as every message comes from the sender of the first link tuple or from
one without a link tuple, the link set and the neighbour set list the same
addresses, each of them once, and a message leaves the status of its sender as
the symmetric time of the link says.

## Strategy

* `sense` does not change the address of a link, leaves a time that has not
  expired, and a link that it does not update is not symmetric
  (`sense_updated`), so that the status is always computed anew.
* `Paired` is the invariant.  It is stated about the lists of addresses, which
  change only where a pair of tuples is added.
* The clock is past zero, since a link that was never lost has zero as the time
  until which it is lost.
-/

namespace Wiselib.Routing.Olsr

open Transition OlsrRouting

variable {Node : Type*} [DecidableEq Node]

/-! ## The properties -/

/-- Every address is in both sets or in none, and once at most. -/
structure SetsAgree (state : OlsrRouting Node) : Prop where
  link_unique : (state.linkset_.map LinkTuple.nb_node_addr).Nodup
  nb_unique : (state.nbset_.map NbTuple.nb_node_addr).Nodup
  link_has_nb : ∀ link ∈ state.linkset_,
    ∃! nb, nb ∈ state.nbset_ ∧ nb.nb_node_addr = link.nb_node_addr
  nb_has_link : ∀ nb ∈ state.nbset_,
    ∃! link, link ∈ state.linkset_ ∧ link.nb_node_addr = nb.nb_node_addr

/-- The sender has a link tuple and a neighbour tuple, and its status is
symmetric just if the symmetric time of the link has not expired. -/
def StatusRight (now : ℤ) (sender : Node) (state : OlsrRouting Node) : Prop :=
  ∃ link ∈ state.linkset_, ∃ nb ∈ state.nbset_, link.nb_node_addr = sender ∧
    nb.nb_node_addr = sender ∧ (nb.status = .sym ↔ now ≤ link.sym_time)

/-- The lookup finds the link tuple of the sender if there is one, and the clock
is past zero. -/
def lookupRight (id : Node) (state : OlsrRouting Node) (reception : Reception Node) : Bool :=
  decide (reception.sender = id) || reception.duplicated ||
    (decide (0 < reception.now) &&
      (decide (reception.sender ∉ state.linkset_.map LinkTuple.nb_node_addr) ||
        decide ((state.linkset_.map LinkTuple.nb_node_addr).head? = some reception.sender)))

/-! ## Sensing a link -/

section Sense

variable {id sender : Node} {now : ℤ} {vtime : UInt8} {hello : Hello Node}
  {tuple : LinkTuple Node} {updated : Bool}

theorem emfToSeconds_pos (olsrFormat : UInt8) : 0 < emfToSeconds olsrFormat := by
  unfold emfToSeconds
  positivity

/-- What no part of a message changes: the address of the link and the times
that the parts leave alone.  A link that is not updated keeps its symmetric time,
and the time of loss stays zero. -/
structure Sensed (tuple : LinkTuple Node) (updated : Bool) (sensed : LinkTuple Node × Bool) :
    Prop where
  nb_node_addr : sensed.1.nb_node_addr = tuple.nb_node_addr
  asym_time : sensed.1.asym_time = tuple.asym_time
  lost_time : tuple.lost_time = 0 → sensed.1.lost_time = 0
  kept : sensed.2 = false → updated = false ∧ sensed.1.sym_time = tuple.sym_time

theorem sensed_senseMsg {sensed : LinkTuple Node × Bool} (hsensed : Sensed tuple updated sensed)
    (msg : HelloMsg Node) : Sensed tuple updated (senseMsg id now vtime sensed msg) := by
  unfold senseMsg
  dsimp only
  split
  · exact hsensed
  · split
    · split
      · exact ⟨hsensed.nb_node_addr, hsensed.asym_time, hsensed.lost_time, by simp⟩
      · split
        · exact ⟨hsensed.nb_node_addr, hsensed.asym_time, fun _ => rfl, by simp⟩
        · exact hsensed
    · exact hsensed

theorem sensed_foldl (msgs : List (HelloMsg Node)) :
    ∀ sensed, Sensed tuple updated sensed →
      Sensed tuple updated (msgs.foldl (senseMsg id now vtime) sensed) := by
  induction msgs with
  | nil => exact fun _ hsensed => hsensed
  | cons msg rest ih =>
      intro sensed hsensed
      exact ih _ (sensed_senseMsg hsensed msg)

private theorem sensed_start : Sensed { tuple with asym_time := now + emfToSeconds hello.vtime }
    updated (hello.hello_msgs.foldl (senseMsg id now hello.vtime)
      ({ tuple with asym_time := now + emfToSeconds hello.vtime }, updated)) :=
  sensed_foldl _ _ ⟨rfl, rfl, fun hlost => hlost, fun hkept => ⟨hkept, rfl⟩⟩

theorem sense_nb_node_addr :
    (sense id now hello tuple updated).1.nb_node_addr = tuple.nb_node_addr :=
  sensed_start.nb_node_addr

theorem sense_lost_time (hlost : tuple.lost_time = 0) :
    (sense id now hello tuple updated).1.lost_time = 0 :=
  sensed_start.lost_time hlost

theorem lt_sense_time : now < (sense id now hello tuple updated).1.time := by
  have hasym := (@sensed_start _ _ id now hello tuple updated).asym_time
  calc now < now + emfToSeconds hello.vtime := Int.lt_add_of_pos_right now (emfToSeconds_pos _)
    _ = _ := hasym.symm
    _ ≤ (sense id now hello tuple updated).1.time := le_max_right _ _

/-- A link that was updated, or was not symmetric, is updated by the message or
still not symmetric. -/
theorem sense_updated (hbefore : updated = true ∨ tuple.sym_time < now) :
    (sense id now hello tuple updated).2 = true ∨
      (sense id now hello tuple updated).1.sym_time < now := by
  by_cases hupdated : (sense id now hello tuple updated).2 = true
  · exact .inl hupdated
  · right
    have hflag : (sense id now hello tuple updated).2 = false := by simpa using hupdated
    obtain ⟨hnot, hsame⟩ := (@sensed_start _ _ id now hello tuple updated).kept hflag
    have hold : tuple.sym_time < now := hbefore.resolve_left (by simp [hnot])
    calc (sense id now hello tuple updated).1.sym_time = tuple.sym_time := hsame
      _ < now := hold

omit [DecidableEq Node] in
theorem linkStatus_eq_sym (hlost : tuple.lost_time = 0) (hnow : 0 < now) :
    linkStatus now tuple = .sym ↔ now ≤ tuple.sym_time := by
  unfold linkStatus
  rw [if_neg (by omega)]
  split
  · rename_i hsym
    simpa using hsym
  · rename_i hexpired
    simpa using hexpired

end Sense

/-! ## The sets -/

section Sets

variable {id sender address other : Node} {now : ℤ} {hello : Hello Node} {tuple : LinkTuple Node}
  {links : List (LinkTuple Node)} {nbs : List (NbTuple Node)} {change : NbTuple Node → NbTuple Node}
  {state : OlsrRouting Node} {position : ℕ} {updated : Bool}

theorem findLinkTuple_of_not_mem (habsent : address ∉ links.map LinkTuple.nb_node_addr) :
    findLinkTuple address links = none := by
  cases links with
  | nil => rfl
  | cons first rest =>
      rw [List.map_cons, List.mem_cons, not_or] at habsent
      rw [findLinkTuple, if_neg (Ne.symm habsent.1)]

theorem findLinkTuple_of_head
    (hhead : (links.map LinkTuple.nb_node_addr).head? = some address) :
    ∃ first rest, links = first :: rest ∧ first.nb_node_addr = address ∧
      findLinkTuple address links = some 0 := by
  cases links with
  | nil => simp at hhead
  | cons first rest =>
      have hfirst : first.nb_node_addr = address := by simpa using hhead
      exact ⟨first, rest, rfl, hfirst, if_pos hfirst⟩

theorem map_changeNbTuple (hkey : ∀ nb, (change nb).nb_node_addr = nb.nb_node_addr) :
    (changeNbTuple address change nbs).map NbTuple.nb_node_addr =
      nbs.map NbTuple.nb_node_addr := by
  induction nbs with
  | nil => rfl
  | cons nb rest ih =>
      unfold changeNbTuple
      split
      · simp [hkey]
      · simp [ih]

theorem findNbTuple_changeNbTuple (hkey : ∀ nb, (change nb).nb_node_addr = nb.nb_node_addr) :
    findNbTuple other (changeNbTuple address change nbs) =
      if other = address then (findNbTuple other nbs).map change else findNbTuple other nbs := by
  induction nbs with
  | nil => simp [changeNbTuple, findNbTuple]
  | cons nb rest ih =>
      by_cases hnb : nb.nb_node_addr = address
      · rw [changeNbTuple, if_pos hnb, findNbTuple, findNbTuple, hkey]
        by_cases hother : nb.nb_node_addr = other
        · simp [hother, ← hnb]
        · have hne : other ≠ address := fun heq => hother (hnb.trans heq.symm)
          simp [hother, hne]
      · rw [changeNbTuple, if_neg hnb, findNbTuple, findNbTuple, ih]
        by_cases hother : nb.nb_node_addr = other
        · have hne : other ≠ address := fun heq => hnb (hother.trans heq)
          simp [hother, hne]
        · simp [hother]

theorem findNbTuple_isSome :
    (findNbTuple address nbs).isSome = true ↔ address ∈ nbs.map NbTuple.nb_node_addr := by
  induction nbs with
  | nil => simp [findNbTuple]
  | cons nb rest ih =>
      rw [findNbTuple, List.map_cons, List.mem_cons, ← ih]
      by_cases hnb : nb.nb_node_addr = address
      · simp [hnb]
      · simp [hnb, Ne.symm hnb]

theorem mem_of_findNbTuple {nb : NbTuple Node} (hfound : findNbTuple address nbs = some nb) :
    nb ∈ nbs ∧ nb.nb_node_addr = address := by
  induction nbs with
  | nil => simp [findNbTuple] at hfound
  | cons first rest ih =>
      rw [findNbTuple] at hfound
      split at hfound
      · rename_i hfirst
        obtain rfl := Option.some.inj hfound
        exact ⟨List.mem_cons_self, hfirst⟩
      · exact ⟨List.mem_cons_of_mem _ (ih hfound).1, (ih hfound).2⟩

/-! ## Sensing in the sets -/

theorem map_updatedLinkTuple :
    (state.updatedLinkTuple now tuple).nbset_.map NbTuple.nb_node_addr =
      state.nbset_.map NbTuple.nb_node_addr :=
  map_changeNbTuple fun _ => rfl

theorem status_updatedLinkTuple (hthere : (findNbTuple tuple.nb_node_addr state.nbset_).isSome) :
    (findNbTuple tuple.nb_node_addr (state.updatedLinkTuple now tuple).nbset_).map
      NbTuple.status = some (linkStatus now tuple) := by
  obtain ⟨nb, hnb⟩ := Option.isSome_iff_exists.1 hthere
  have hchange : ∀ nb : NbTuple Node,
      ({ nb with status := linkStatus now tuple } : NbTuple Node).nb_node_addr =
        nb.nb_node_addr := fun _ => rfl
  rw [updatedLinkTuple, findNbTuple_changeNbTuple hchange, if_pos rfl, hnb]
  rfl

theorem timerExpireLinkTuple_of_le (htime : now ≤ tuple.time) :
    state.timerExpireLinkTuple now position tuple =
      if tuple.sym_time < now then state.updatedLinkTuple now tuple else state := by
  rw [timerExpireLinkTuple, if_neg (by omega)]

/-- Sensing a link writes its tuple back, keeps the addresses of the neighbours
and computes the status of this one. -/
theorem senseLink_spec (hthere : tuple.nb_node_addr ∈ state.nbset_.map NbTuple.nb_node_addr)
    (hbefore : updated = true ∨ tuple.sym_time < now) :
    (state.senseLink id now hello position tuple updated).linkset_ =
        state.linkset_.set position (sense id now hello tuple updated).1 ∧
      (state.senseLink id now hello position tuple updated).nbset_.map NbTuple.nb_node_addr =
        state.nbset_.map NbTuple.nb_node_addr ∧
      (state.senseLink id now hello position tuple updated).deleted = state.deleted ∧
      (findNbTuple tuple.nb_node_addr
        (state.senseLink id now hello position tuple updated).nbset_).map NbTuple.status =
          some (linkStatus now (sense id now hello tuple updated).1) := by
  have hupdated := @sense_updated _ _ id now hello tuple updated hbefore
  have haddress := @sense_nb_node_addr _ _ id now hello tuple updated
  unfold senseLink
  dsimp only
  rw [timerExpireLinkTuple_of_le lt_sense_time.le]
  generalize sense id now hello tuple updated = sensed at hupdated haddress ⊢
  have hfound : ∀ later : OlsrRouting Node,
      later.nbset_.map NbTuple.nb_node_addr = state.nbset_.map NbTuple.nb_node_addr →
      (findNbTuple sensed.1.nb_node_addr later.nbset_).isSome := by
    intro later hsame
    rw [findNbTuple_isSome, hsame, haddress]
    exact hthere
  rw [← haddress]
  -- the status is computed by the update, by the timer, or by both
  by_cases hflag : sensed.2 = true
  · rw [if_pos hflag]
    split
    · exact ⟨rfl, map_updatedLinkTuple.trans map_updatedLinkTuple, rfl,
        status_updatedLinkTuple (hfound _ map_updatedLinkTuple)⟩
    · exact ⟨rfl, map_updatedLinkTuple, rfl, status_updatedLinkTuple (hfound _ rfl)⟩
  · rw [if_neg hflag, if_pos (hupdated.resolve_left hflag)]
    exact ⟨rfl, map_updatedLinkTuple, rfl, status_updatedLinkTuple (hfound _ rfl)⟩

/-! ## The invariant -/

/-- The two sets list the same addresses in the same order, each once, no link
was ever lost, and the object lives. -/
structure Paired (state : OlsrRouting Node) : Prop where
  same : state.nbset_.map NbTuple.nb_node_addr = state.linkset_.map LinkTuple.nb_node_addr
  unique : (state.linkset_.map LinkTuple.nb_node_addr).Nodup
  lost : ∀ link ∈ state.linkset_, link.lost_time = 0
  lives : state.deleted = false

omit [DecidableEq Node] in
private theorem existsUnique_of_mem_map {Entry : Type*} {key : Entry → Node}
    {entries : List Entry} (hunique : (entries.map key).Nodup) (hmem : address ∈ entries.map key) :
    ∃! entry, entry ∈ entries ∧ key entry = address := by
  obtain ⟨entry, hentry, hkey⟩ := List.mem_map.1 hmem
  refine ⟨entry, ⟨hentry, hkey⟩, ?_⟩
  rintro another ⟨hanother, hsame⟩
  exact List.inj_on_of_nodup_map hunique hanother hentry (hsame.trans hkey.symm)

omit [DecidableEq Node] in
theorem Paired.setsAgree (hpaired : Paired state) : SetsAgree state := by
  have hnbs : (state.nbset_.map NbTuple.nb_node_addr).Nodup := by
    rw [hpaired.same]
    exact hpaired.unique
  constructor
  · exact hpaired.unique
  · exact hnbs
  · intro link hlink
    apply existsUnique_of_mem_map hnbs
    rw [hpaired.same]
    exact List.mem_map_of_mem hlink
  · intro nb hnb
    apply existsUnique_of_mem_map hpaired.unique
    rw [← hpaired.same]
    exact List.mem_map_of_mem hnb

/-- The link tuple of the sender stands at a position, with its time not lost,
and the neighbour tuple has the status of the link. -/
def Settled (now : ℤ) (sender : Node) (state : OlsrRouting Node) : Prop :=
  ∃ link ∈ state.linkset_, link.nb_node_addr = sender ∧ link.lost_time = 0 ∧
    (findNbTuple sender state.nbset_).map NbTuple.status = some (linkStatus now link)

theorem Settled.statusRight (hnow : 0 < now) (hsettled : Settled now sender state) :
    StatusRight now sender state := by
  obtain ⟨link, hlink, haddress, hlost, hstatus⟩ := hsettled
  obtain ⟨nb, hnb, hlinkStatus⟩ := Option.map_eq_some_iff.1 hstatus
  obtain ⟨hmem, hnbAddress⟩ := mem_of_findNbTuple hnb
  refine ⟨link, hlink, nb, hmem, haddress, hnbAddress, ?_⟩
  rw [hlinkStatus]
  exact linkStatus_eq_sym hlost hnow

theorem Paired.linkSensing_new (hpaired : Paired state)
    (habsent : sender ∉ state.linkset_.map LinkTuple.nb_node_addr) :
    Paired (state.linkSensing id now hello sender) ∧
      Settled now sender (state.linkSensing id now hello sender) := by
  unfold linkSensing
  rw [findLinkTuple_of_not_mem habsent]
  dsimp only
  have hthere : sender ∈ (state.addLinkTuple now (newLinkTuple id sender now hello.vtime)
      hello.willingness).nbset_.map NbTuple.nb_node_addr := by
    simp [addLinkTuple, newLinkTuple]
  have hexpired : (newLinkTuple id sender now hello.vtime).sym_time < now := by
    show now - second < now
    unfold second
    omega
  obtain ⟨hlinks, hnbs, hlives, hstatus⟩ := @senseLink_spec _ _ id now hello
    (newLinkTuple id sender now hello.vtime)
    (state.addLinkTuple now (newLinkTuple id sender now hello.vtime) hello.willingness)
    state.linkset_.length false hthere (.inr hexpired)
  -- the new tuple is the last one
  have hlast : (state.addLinkTuple now (newLinkTuple id sender now hello.vtime)
      hello.willingness).linkset_.set state.linkset_.length
        (sense id now hello (newLinkTuple id sender now hello.vtime) false).1 =
      state.linkset_ ++ [(sense id now hello (newLinkTuple id sender now hello.vtime) false).1] := by
    simp [addLinkTuple]
  rw [hlast] at hlinks
  have haddress : (sense id now hello (newLinkTuple id sender now hello.vtime)
      false).1.nb_node_addr = sender := sense_nb_node_addr
  have hlost : (sense id now hello (newLinkTuple id sender now hello.vtime)
      false).1.lost_time = 0 := sense_lost_time rfl
  constructor
  · constructor
    · rw [hnbs, hlinks, List.map_append, List.map_cons, haddress, List.map_nil, ← hpaired.same]
      simp [addLinkTuple, newLinkTuple]
    · rw [hlinks, List.map_append]
      apply hpaired.unique.append (List.nodup_singleton _)
      simpa [haddress] using habsent
    · intro link hlink
      rw [hlinks, List.mem_append, List.mem_singleton] at hlink
      rcases hlink with hold | rfl
      · exact hpaired.lost link hold
      · exact hlost
    · rw [hlives]
      exact hpaired.lives
  · refine ⟨_, ?_, haddress, hlost, hstatus⟩
    rw [hlinks]
    simp

theorem Paired.linkSensing_first (hpaired : Paired state)
    (hhead : (state.linkset_.map LinkTuple.nb_node_addr).head? = some sender) :
    Paired (state.linkSensing id now hello sender) ∧
      Settled now sender (state.linkSensing id now hello sender) := by
  obtain ⟨first, rest, hlist, rfl, hfound⟩ := findLinkTuple_of_head hhead
  have hsensing : state.linkSensing id now hello first.nb_node_addr =
      state.senseLink id now hello 0 first true := by
    unfold linkSensing
    rw [hfound, hlist]
    rfl
  have hthere : first.nb_node_addr ∈ state.nbset_.map NbTuple.nb_node_addr := by
    rw [hpaired.same, hlist]
    simp
  obtain ⟨hlinks, hnbs, hlives, hstatus⟩ :=
    @senseLink_spec _ _ id now hello first state 0 true hthere (.inl rfl)
  rw [hlist, List.set_cons_zero] at hlinks
  have hsame : (sense id now hello first true).1.nb_node_addr = first.nb_node_addr :=
    sense_nb_node_addr
  have hlost : (sense id now hello first true).1.lost_time = 0 :=
    sense_lost_time (hpaired.lost first (by simp [hlist]))
  have haddresses : ((sense id now hello first true).1 :: rest).map LinkTuple.nb_node_addr =
      state.linkset_.map LinkTuple.nb_node_addr := by
    rw [hlist, List.map_cons, List.map_cons, hsame]
  rw [hsensing]
  constructor
  · constructor
    · rw [hnbs, hlinks, haddresses]
      exact hpaired.same
    · rw [hlinks, haddresses]
      exact hpaired.unique
    · intro link hlink
      rw [hlinks, List.mem_cons] at hlink
      rcases hlink with rfl | hrest
      · exact hlost
      · exact hpaired.lost link (by simp [hlist, hrest])
    · rw [hlives]
      exact hpaired.lives
  · refine ⟨_, ?_, hsame, hlost, hstatus⟩
    rw [hlinks]
    simp

/-- The willingness of a neighbour has no part in the agreement. -/
theorem Paired.populateNbset (hpaired : Paired state) :
    Paired (state.populateNbset hello) := by
  have hkeys : (state.populateNbset hello).nbset_.map NbTuple.nb_node_addr =
      state.nbset_.map NbTuple.nb_node_addr := map_changeNbTuple fun _ => rfl
  exact ⟨hkeys.trans hpaired.same, hpaired.unique, hpaired.lost, hpaired.lives⟩

theorem Settled.populateNbset (hsettled : Settled now sender state) :
    Settled now sender (state.populateNbset hello) := by
  obtain ⟨link, hlink, haddress, hlost, hstatus⟩ := hsettled
  refine ⟨link, hlink, haddress, hlost, ?_⟩
  have hchange : ∀ nb : NbTuple Node,
      ({ nb with willingness := hello.willingness } : NbTuple Node).nb_node_addr =
        nb.nb_node_addr := fun _ => rfl
  rw [← hstatus, OlsrRouting.populateNbset, findNbTuple_changeNbTuple hchange]
  split
  · rw [Option.map_map]
    rfl
  · rfl

/-- A message for which the lookup is right keeps the sets paired and settles
the status of its sender. -/
theorem Paired.processHello (hpaired : Paired state)
    (hright : sender ∉ state.linkset_.map LinkTuple.nb_node_addr ∨
      (state.linkset_.map LinkTuple.nb_node_addr).head? = some sender) :
    Paired (state.processHello id now hello sender) ∧
      Settled now sender (state.processHello id now hello sender) := by
  have hsensed : Paired (state.linkSensing id now hello sender) ∧
      Settled now sender (state.linkSensing id now hello sender) := by
    rcases hright with habsent | hhead
    · exact hpaired.linkSensing_new habsent
    · exact hpaired.linkSensing_first hhead
  exact ⟨hsensed.1.populateNbset, hsensed.2.populateNbset⟩

theorem Paired.step {next : OlsrRouting Node} {reception : Reception Node}
    (hpaired : Paired state)
    (hstep : Guarded (fun state reception => lookupRight id state reception = true)
      (stepOf (receive id)) state reception next) :
    Paired next ∧ (reception.sender ≠ id → reception.duplicated = false →
      StatusRight reception.now reception.sender next) := by
  obtain ⟨hguard, hreceive⟩ := hstep
  rw [stepOf, receive, if_neg (by simp [hpaired.lives])] at hreceive
  split at hreceive
  · rename_i hignored
    obtain rfl := Option.some.inj hreceive
    refine ⟨hpaired, ?_⟩
    intro hsender hnew
    simp [hsender, hnew] at hignored
  · rename_i hhandled
    obtain rfl := Option.some.inj hreceive
    rw [not_or] at hhandled
    have hright : 0 < reception.now ∧
        (reception.sender ∉ state.linkset_.map LinkTuple.nb_node_addr ∨
          (state.linkset_.map LinkTuple.nb_node_addr).head? = some reception.sender) := by
      simpa only [lookupRight, hhandled.1, hhandled.2, decide_false, Bool.false_or,
        Bool.and_eq_true, Bool.or_eq_true, decide_eq_true_eq] using hguard
    obtain ⟨hkept, hsettled⟩ := hpaired.processHello hright.2
    exact ⟨hkept, fun _ _ => hsettled.statusRight hright.1⟩

end Sets

/-- In every run in which the lookup finds what is there and the clock is past
zero, the two sets agree, and after a message the status of its sender is right. -/
theorem sets_agree {id : Node} {receptions : List (Reception Node)} {state : OlsrRouting Node}
    (hrun : Run (Guarded (fun state reception => lookupRight id state reception = true)
      (stepOf (receive id))) initial receptions state) :
    SetsAgree state ∧ ∀ reception next,
      Guarded (fun state reception => lookupRight id state reception = true)
        (stepOf (receive id)) state reception next →
      reception.sender ≠ id → reception.duplicated = false →
        StatusRight reception.now reception.sender next := by
  have hstep : ∀ before reception after, Paired before →
      Guarded (fun state reception => lookupRight id state reception = true)
        (stepOf (receive id)) before reception after → Paired after :=
    fun _ _ _ hbefore hop => (hbefore.step hop).1
  have hinitial : Paired (initial : OlsrRouting Node) :=
    ⟨rfl, List.nodup_nil, by simp [initial], rfl⟩
  have hpaired := hrun.invariant hstep hinitial
  exact ⟨hpaired.setsAgree, fun reception next hop => (hpaired.step hop).2⟩

/-! ### Two neighbours -/

local instance threeNodes : NeZero 3 := ⟨three_ne_zero⟩

/-- A message of a node that lists node 0 with an asymmetric link to a symmetric
neighbour. -/
def sampleHello (sender : Fin 3) : Hello (Fin 3) where
  originator_addr := sender
  vtime := 0x86
  willingness := 3
  hello_msgs := [⟨5, [0]⟩]

/-- Node 0 receives the message of a node. -/
def sampleReception (now : ℤ) (sender : Fin 3) : Reception (Fin 3) where
  now := now
  sender := sender
  hello := sampleHello sender
  duplicated := false

theorem sets_agree_sample :
    ∃ state next, Run (Guarded (fun state reception => lookupRight 0 state reception = true)
        (stepOf (receive (0 : Fin 3)))) initial [sampleReception 256 1, sampleReception 512 2] state ∧
      state.linkset_.length = 2 ∧ SetsAgree state ∧
      receive 0 state (sampleReception 768 1) = some next ∧ StatusRight 768 1 next := by
  have hfold : ([sampleReception 256 1, sampleReception 512 2].foldlM (fun state reception =>
      if lookupRight 0 state reception then receive (0 : Fin 3) state reception else none)
      initial).map (fun state => (state.linkset_.length,
        lookupRight 0 state (sampleReception 768 1),
        (receive 0 state (sampleReception 768 1)).isSome)) = some (2, true, true) := by
    decide +kernel
  obtain ⟨state, hstate, hfacts⟩ := Option.map_eq_some_iff.1 hfold
  simp only [Prod.mk.injEq] at hfacts
  obtain ⟨hlength, hguard, hsome⟩ := hfacts
  obtain ⟨next, hnext⟩ := Option.isSome_iff_exists.1 hsome
  have hrun := Run.of_foldlM_guarded hstate
  obtain ⟨hagree, hstatus⟩ := sets_agree hrun
  exact ⟨state, next, hrun, hlength, hagree, hnext,
    hstatus _ next ⟨hguard, hnext⟩ (by decide) rfl⟩

/-- With two neighbours the second one gets another pair of tuples with its next
message, and when the clock is at zero a link that is symmetric makes no
symmetric neighbour. -/
theorem not_sets_agree :
    (¬ ∀ (receptions : List (Reception (Fin 3))) (state : OlsrRouting (Fin 3)),
        Run (stepOf (receive (0 : Fin 3))) initial receptions state → SetsAgree state) ∧
      ¬ ∀ (reception : Reception (Fin 3)) (next : OlsrRouting (Fin 3)),
        receive 0 initial reception = some next → reception.sender ≠ 0 →
          reception.duplicated = false → StatusRight reception.now reception.sender next := by
  constructor
  · intro hclaim
    have hfold : ([sampleReception 256 1, sampleReception 512 2, sampleReception 768 2].foldlM
        (receive (0 : Fin 3)) initial).map
          (fun state => state.linkset_.map LinkTuple.nb_node_addr) = some [1, 2, 2] := by
      decide +kernel
    obtain ⟨state, hstate, haddresses⟩ := Option.map_eq_some_iff.1 hfold
    have hunique := (hclaim _ state (Run.of_foldlM hstate)).link_unique
    rw [haddresses] at hunique
    exact absurd hunique (by decide)
  · intro hclaim
    have hfold : (receive (0 : Fin 3) initial (sampleReception 0 1)).map
        (fun state => (state.linkset_.map LinkTuple.sym_time, state.nbset_.map NbTuple.status)) =
          some ([emfToSeconds 0x86], [.notSym]) := by
      decide +kernel
    obtain ⟨next, hnext, hfacts⟩ := Option.map_eq_some_iff.1 hfold
    obtain ⟨htimes, hstatuses⟩ := Prod.mk.inj hfacts
    obtain ⟨link, hlink, nb, hnb, -, -, hiff⟩ := hclaim _ next hnext (by decide) rfl
    have htime : link.sym_time = emfToSeconds 0x86 := by
      have hmem : link.sym_time ∈ next.linkset_.map LinkTuple.sym_time :=
        List.mem_map_of_mem hlink
      rw [htimes] at hmem
      simpa using hmem
    have hstatus : nb.status = .notSym := by
      have hmem : nb.status ∈ next.nbset_.map NbTuple.status := List.mem_map_of_mem hnb
      rw [hstatuses] at hmem
      simpa using hmem
    have hsym := hiff.2 (by rw [htime]; exact (emfToSeconds_pos _).le)
    rw [hstatus] at hsym
    simp at hsym

end Wiselib.Routing.Olsr
