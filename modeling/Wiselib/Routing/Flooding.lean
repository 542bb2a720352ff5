import Wiselib.Library.Network
import Wiselib.Routing.RoutingTable

/-!
# Flooding

A source numbers its messages, and every node broadcasts each message that is
new to it and hands it to its receivers.  A message is new if its number is
larger than the last one that was accepted from its source.  The number that a
source starts with is also accepted again, after a number of at least two, so
that a source may begin anew.

A copy of the first message of a source that comes late therefore looks like a
source that began anew, and with it old copies of later messages are new once
more.

## Strategy

* The numbers that a node accepts of a source are a list in which each one
  follows the one before as `Follows` says.  The map holds the last one.
* In such a list every number stands at most once more often than the first
  number comes again (`count_le_restarts`).
* `FloodLog` ties the log of a run to the maps of the nodes, as long as a map has
  room for the source of what is accepted.
-/

namespace Wiselib.Routing.Flooding

open Network Transition

variable {Node : Type*}

/-- What the instantiation fixes: the size of the map and `BROADCAST_ADDRESS`. -/
structure Config (Node : Type*) where
  mapSize : ℕ
  broadcast : Node

/-- `FloodingMessage`. -/
structure FloodingMessage (Node : Type*) where
  node_id : Node
  dest_id : Node
  seq_nr : UInt16
  payload : List UInt8
deriving DecidableEq, Repr

/-- `FLOODING_INIT_SEQ_NR`. -/
def floodingInitSeqNr : UInt16 := 0

/-- What a node does with a message that it accepts. -/
inductive Report (Node : Type*)
  | forwarded (source : Node) (seqNr : UInt16)
  | notified (source : Node) (seqNr : UInt16) (payload : List UInt8)
deriving DecidableEq, Repr

/-- What happens at a node by itself. -/
inductive Input (Node : Type*)
  | init
  | enableRadio
  | disableRadio
  | send (destination : Node) (data : List UInt8)
deriving DecidableEq, Repr

/-- What a node keeps.  `enabled` says that the receive callback is registered. -/
structure FloodingAlgorithm (Node : Type*) where
  seq_nr_ : UInt16
  seq_map_ : RoutingTable Node UInt16
  enabled : Bool
deriving DecidableEq, Repr

namespace FloodingAlgorithm

variable [DecidableEq Node] (config : Config Node)

/-- `send`. -/
def send (id destination : Node) (data : List UInt8) (self : FloodingAlgorithm Node) :
    FloodingAlgorithm Node × Effects Node (FloodingMessage Node) (Report Node) :=
  let message : FloodingMessage Node :=
    { node_id := id
      dest_id := destination
      seq_nr := self.seq_nr_
      payload := data }
  ({ self with seq_nr_ := self.seq_nr_ + 1 }, .send none message)

/-- The message is not known to have been received already. -/
def accepts (message : FloodingMessage Node) (self : FloodingAlgorithm Node) : Bool :=
  match self.seq_map_.find message.node_id with
  | none => true
  | some known =>
      decide (message.seq_nr > known) ||
        (message.seq_nr == floodingInitSeqNr && decide (known ≥ 2))

/-- `receive` at the node `id`. -/
def receive (id sender : Node) (message : FloodingMessage Node)
    (self : FloodingAlgorithm Node) :
    FloodingAlgorithm Node × Effects Node (FloodingMessage Node) (Report Node) :=
  if !self.enabled || sender == id || message.node_id == id then (self, .none)
  else if self.accepts message then
    ({ self with
        seq_map_ := self.seq_map_.assign config.mapSize message.node_id message.seq_nr },
      { sends := [(none, message)]
        reports := .forwarded message.node_id message.seq_nr ::
          if message.dest_id = config.broadcast ∨ message.dest_id = id then
            [.notified message.node_id message.seq_nr message.payload]
          else [] })
  else (self, .none)

/-- The inputs.  The map survives all of them. -/
def input (id : Node) (self : FloodingAlgorithm Node) : Input Node →
    FloodingAlgorithm Node × Effects Node (FloodingMessage Node) (Report Node)
  | .init => ({ self with seq_nr_ := floodingInitSeqNr, enabled := true }, .none)
  | .enableRadio => ({ self with enabled := true }, .none)
  | .disableRadio => ({ self with enabled := false }, .none)
  | .send destination data => self.send id destination data

end FloodingAlgorithm

/-- Constructor. -/
def construct : FloodingAlgorithm Node where
  seq_nr_ := floodingInitSeqNr
  seq_map_ := []
  enabled := false

/-- Flooding. -/
def floodingProtocol [DecidableEq Node] (config : Config Node) :
    Protocol Node (FloodingAlgorithm Node) (FloodingMessage Node) (Input Node) (Report Node) where
  start _ := construct
  input id state input := some (state.input id input)
  receive id state sender message := state.receive config id sender message

/-! ## Numbers that start again -/

/-- A number is larger than the one before it, or the first number after a
number of at least two. -/
def Follows (known number : ℕ) : Prop :=
  known < number ∨ number = 0 ∧ 2 ≤ known

/-- Behind its head, a list of such numbers holds every number once at most and
once more for every zero, and a number below the head only as often as zeros. -/
theorem count_le_zeros (rest : List ℕ) :
    ∀ head, (head :: rest).IsChain Follows →
      (∀ number, (head :: rest).count number ≤ 1 + rest.count 0) ∧
        ∀ number < head, (head :: rest).count number ≤ rest.count 0 := by
  induction rest with
  | nil =>
      intro head _
      constructor
      · intro number
        exact List.count_le_length
      · intro number hlt
        simp [Nat.ne_of_gt hlt]
  | cons next rest ih =>
      intro head hchain
      obtain ⟨hfollows, hrest⟩ := List.isChain_cons_cons.1 hchain
      obtain ⟨hevery, hbelow⟩ := ih next hrest
      rcases hfollows with hlt | ⟨rfl, -⟩
      · -- the list goes on above the head
        have hzeros : rest.count 0 = (next :: rest).count 0 := by
          rw [List.count_cons_of_ne (by omega)]
        have hsmall : ∀ number ≤ head, (next :: rest).count number ≤ (next :: rest).count 0 := by
          intro number hle
          rw [← hzeros]
          exact hbelow number (by omega)
        constructor
        · intro number
          by_cases hnumber : number = head
          · subst hnumber
            rw [List.count_cons_self]
            have hle := hsmall number (Nat.le_refl _)
            omega
          · rw [List.count_cons_of_ne (Ne.symm hnumber), ← hzeros]
            exact hevery number
        · intro number hnumber
          rw [List.count_cons_of_ne (by omega)]
          exact hsmall number (by omega)
      · -- the numbers start again
        have hstep : ∀ number, (0 :: rest).count number ≤ (0 :: rest).count 0 := by
          intro number
          calc (0 :: rest).count number ≤ 1 + rest.count 0 := hevery number
            _ = (0 :: rest).count 0 := by rw [List.count_cons_self, Nat.add_comm]
        constructor
        · intro number
          calc (head :: 0 :: rest).count number ≤ (0 :: rest).count number + 1 := by
                rw [List.count_cons]
                split
                · exact Nat.le_refl _
                · exact Nat.le_succ _
            _ ≤ (0 :: rest).count 0 + 1 := Nat.add_le_add_right (hstep number) 1
            _ = 1 + (0 :: rest).count 0 := Nat.add_comm _ _
        · intro number hnumber
          rw [List.count_cons_of_ne (by omega)]
          exact hstep number

theorem count_le_restarts {numbers : List ℕ} (hchain : numbers.IsChain Follows) (number : ℕ) :
    numbers.count number ≤ 1 + numbers.tail.count 0 := by
  cases numbers with
  | nil => simp
  | cons head rest => exact (count_le_zeros rest head hchain).1 number

/-! ## The log -/

variable [DecidableEq Node]

/-- The number, if the node broadcast a message of the source. -/
def forwardedNumber (node source : Node) : Node × Report Node → Option ℕ
  | (other, .forwarded otherSource seqNr) =>
      if other = node ∧ otherSource = source then some seqNr.toNat else none
  | (_, .notified _ _ _) => none

/-- The number, if the node handed a message of the source to its receivers. -/
def notifiedNumber (node source : Node) : Node × Report Node → Option ℕ
  | (other, .notified otherSource seqNr _) =>
      if other = node ∧ otherSource = source then some seqNr.toNat else none
  | (_, .forwarded _ _) => none

/-- The numbers of the messages of the source that the node broadcast, oldest
first. -/
def forwards (node source : Node) (log : List (Node × Report Node)) : List ℕ :=
  log.filterMap (forwardedNumber node source)

/-- The numbers of the messages of the source that the node handed to its
receivers, oldest first. -/
def notifications (node source : Node) (log : List (Node × Report Node)) : List ℕ :=
  log.filterMap (notifiedNumber node source)

/-- A node that accepts a message has its source in the map, or a place for it. -/
def mapRoom (config : Config Node)
    (world : World Node (FloodingAlgorithm Node) (FloodingMessage Node) (Report Node)) :
    Op Node (Input Node) → Bool
  | .deliver node position =>
      match world.sent[position]? with
      | some ⟨_, _, message⟩ =>
          ((world.states node).seq_map_.find message.node_id).isSome ||
            decide ((world.states node).seq_map_.length < config.mapSize)
      | none => true
  | _ => true

/-- What a node broadcast of a source follows one after the other, and the last
of it is in the map.  What it handed to its receivers it also broadcast. -/
structure FloodLog
    (world : World Node (FloodingAlgorithm Node) (FloodingMessage Node) (Report Node)) : Prop where
  chain : ∀ node source, (forwards node source world.log).IsChain Follows
  last : ∀ node source, (forwards node source world.log).getLast? =
    ((world.states node).seq_map_.find source).map UInt16.toNat
  handed : ∀ node source,
    (notifications node source world.log).Sublist (forwards node source world.log)

variable {config : Config Node}
  {world next : World Node (FloodingAlgorithm Node) (FloodingMessage Node) (Report Node)}

theorem FloodLog.act_quiet (hlog : FloodLog world) {actor : Node}
    {result : FloodingAlgorithm Node × Effects Node (FloodingMessage Node) (Report Node)}
    (hmap : result.1.seq_map_ = (world.states actor).seq_map_) (hreports : result.2.reports = []) :
    FloodLog (world.act actor result) := by
  have hsame : (world.act actor result).log = world.log := by simp [World.act, hreports]
  have hmaps : ∀ node, ((world.act actor result).states node).seq_map_ =
      (world.states node).seq_map_ := by
    intro node
    by_cases hnode : node = actor
    · subst hnode
      rw [World.act_states_self, hmap]
    · rw [World.act_states_other _ _ hnode]
  constructor
  · intro node source
    rw [hsame]
    exact hlog.chain node source
  · intro node source
    rw [hsame, hmaps]
    exact hlog.last node source
  · intro node source
    rw [hsame]
    exact hlog.handed node source

theorem follows_of_accepts {state : FloodingAlgorithm Node} {message : FloodingMessage Node}
    (haccepts : state.accepts message = true) {known : UInt16}
    (hknown : state.seq_map_.find message.node_id = some known) :
    Follows known.toNat message.seq_nr.toNat := by
  simp only [FloodingAlgorithm.accepts, hknown, Bool.or_eq_true, Bool.and_eq_true,
    decide_eq_true_eq, beq_iff_eq] at haccepts
  rcases haccepts with hgreater | ⟨hfirst, htwo⟩
  · exact .inl (UInt16.lt_iff_toNat_lt.1 hgreater)
  · refine .inr ⟨?_, UInt16.le_iff_toNat_le.1 htwo⟩
    rw [hfirst]
    rfl

theorem FloodLog.act_accepted (hlog : FloodLog world) {actor : Node}
    {message : FloodingMessage Node}
    {result : FloodingAlgorithm Node × Effects Node (FloodingMessage Node) (Report Node)}
    (haccepts : (world.states actor).accepts message = true)
    (hroom : ((world.states actor).seq_map_.find message.node_id).isSome = true ∨
      (world.states actor).seq_map_.length < config.mapSize)
    (hmap : result.1.seq_map_ =
      (world.states actor).seq_map_.assign config.mapSize message.node_id message.seq_nr)
    (hreports : ∃ handed, result.2.reports =
        .forwarded message.node_id message.seq_nr :: handed ∧
      (handed = [] ∨ handed = [.notified message.node_id message.seq_nr message.payload])) :
    FloodLog (world.act actor result) := by
  obtain ⟨handed, hreports, hhanded⟩ := hreports
  have hlogNext : (world.act actor result).log = world.log ++
      ((actor, .forwarded message.node_id message.seq_nr) ::
        handed.map fun event => (actor, event)) := by
    simp [World.act, hreports]
  -- the two lists of numbers grow for the actor and the source of the message only
  have hgrown : forwards actor message.node_id (world.act actor result).log =
        forwards actor message.node_id world.log ++ [message.seq_nr.toNat] ∧
      (notifications actor message.node_id (world.act actor result).log).Sublist
        (notifications actor message.node_id world.log ++ [message.seq_nr.toNat]) := by
    rw [hlogNext]
    rcases hhanded with rfl | rfl
    · simp [forwards, notifications, forwardedNumber, notifiedNumber]
    · simp [forwards, notifications, forwardedNumber, notifiedNumber, List.filterMap_cons]
  have hother : ∀ node source, ¬ (actor = node ∧ message.node_id = source) →
      forwards node source (world.act actor result).log = forwards node source world.log ∧
        notifications node source (world.act actor result).log =
          notifications node source world.log := by
    intro node source hne
    rw [hlogNext]
    rcases hhanded with rfl | rfl
    · simp [forwards, notifications, forwardedNumber, notifiedNumber, hne]
    · simp [forwards, notifications, forwardedNumber, notifiedNumber, hne]
  have hmapSelf : result.1.seq_map_.find message.node_id = some message.seq_nr := by
    rw [hmap]
    by_cases hknown : ((world.states actor).seq_map_.find message.node_id).isSome
    · exact RoutingTable.find_assign_present hknown
    · exact RoutingTable.find_assign_absent (by simpa using hknown) (hroom.resolve_left hknown)
  constructor
  · intro node source
    by_cases hsame : actor = node ∧ message.node_id = source
    · obtain ⟨rfl, rfl⟩ := hsame
      rw [hgrown.1, List.isChain_append]
      refine ⟨hlog.chain _ _, List.isChain_singleton _, ?_⟩
      intro known hknown number hnumber
      rw [hlog.last, Option.mem_map] at hknown
      obtain ⟨value, hvalue, rfl⟩ := hknown
      obtain rfl : message.seq_nr.toNat = number := by simpa using hnumber
      exact follows_of_accepts haccepts hvalue
    · rw [(hother node source hsame).1]
      exact hlog.chain node source
  · intro node source
    by_cases hsame : actor = node ∧ message.node_id = source
    · obtain ⟨rfl, rfl⟩ := hsame
      rw [hgrown.1, World.act_states_self, hmapSelf]
      simp
    · rw [(hother node source hsame).1, hlog.last]
      by_cases hnode : actor = node
      · subst hnode
        have hsource : source ≠ message.node_id := fun heq => hsame ⟨rfl, heq.symm⟩
        rw [World.act_states_self, hmap, RoutingTable.find_assign_other hsource]
      · rw [World.act_states_other _ _ (Ne.symm hnode)]
  · intro node source
    by_cases hsame : actor = node ∧ message.node_id = source
    · obtain ⟨rfl, rfl⟩ := hsame
      rw [hgrown.1]
      exact hgrown.2.trans ((hlog.handed _ _).append (List.Sublist.refl _))
    · rw [(hother node source hsame).1, (hother node source hsame).2]
      exact hlog.handed node source

theorem FloodLog.step {hears : Node → Node → Prop} [DecidableRel hears] {op : Op Node (Input Node)}
    (hlog : FloodLog world)
    (hstep : Guarded (fun world op => mapRoom config world op = true)
      (stepOf (perform (floodingProtocol config) hears)) world op next) : FloodLog next := by
  obtain ⟨hguard, hperform⟩ := hstep
  rcases perform_cases hperform with
    ⟨node, input, result, rfl, hresult, rfl⟩ |
      ⟨node, position, packet, rfl, hposition, -, -, rfl⟩ | ⟨position, -, rfl⟩
  · obtain rfl : (world.states node).input node input = result := Option.some.inj hresult
    cases input with
    | init => exact hlog.act_quiet rfl rfl
    | enableRadio => exact hlog.act_quiet rfl rfl
    | disableRadio => exact hlog.act_quiet rfl rfl
    | send destination data => exact hlog.act_quiet rfl rfl
  · obtain ⟨sender, receiver, message⟩ := packet
    show FloodLog (world.act node ((world.states node).receive config node sender message))
    unfold FloodingAlgorithm.receive
    split
    · exact hlog.act_quiet rfl rfl
    · split
      · rename_i haccepts
        have hroom : ((world.states node).seq_map_.find message.node_id).isSome = true ∨
            (world.states node).seq_map_.length < config.mapSize := by
          simpa [mapRoom, hposition] using hguard
        refine hlog.act_accepted haccepts hroom rfl ⟨_, rfl, ?_⟩
        split
        · exact .inr rfl
        · exact .inl rfl
      · exact hlog.act_quiet rfl rfl
  · exact ⟨hlog.chain, hlog.last, hlog.handed⟩

/-- In every run in which the maps have room, the messages of a source that a
node broadcasts follow each other, so that it broadcasts each one, and hands it
to its receivers, at most once and once more each time the numbers start again. -/
theorem flooded_once {hears : Node → Node → Prop} [DecidableRel hears]
    {operations : List (Op Node (Input Node))}
    (hrun : Run (Guarded (fun world op => mapRoom config world op = true)
      (stepOf (perform (floodingProtocol config) hears))) (.initial (floodingProtocol config))
      operations world) (node source : Node) :
    (forwards node source world.log).IsChain Follows ∧
      ∀ number,
        (forwards node source world.log).count number ≤
            1 + (forwards node source world.log).tail.count 0 ∧
          (notifications node source world.log).count number ≤
            1 + (forwards node source world.log).tail.count 0 := by
  have hstep : ∀ state op after, FloodLog state →
      Guarded (fun world op => mapRoom config world op = true)
        (stepOf (perform (floodingProtocol config) hears)) state op after → FloodLog after :=
    fun _ _ _ => FloodLog.step
  have hinitial : FloodLog (.initial (floodingProtocol config)) :=
    ⟨fun _ _ => List.isChain_nil, fun _ _ => rfl, fun _ _ => List.Sublist.refl _⟩
  have hlog := hrun.invariant hstep hinitial
  refine ⟨hlog.chain node source, ?_⟩
  intro number
  have hforwards := count_le_restarts (hlog.chain node source) number
  refine ⟨hforwards, ?_⟩
  calc (notifications node source world.log).count number
      ≤ (forwards node source world.log).count number := (hlog.handed node source).count_le _
    _ ≤ 1 + (forwards node source world.log).tail.count 0 := hforwards

/-! ### Late copies -/

/-- Any two of the nodes hear each other. -/
def Apart (first second : Fin 4) : Prop := first ≠ second

instance : DecidableRel Apart := fun first second =>
  inferInstanceAs (Decidable (first ≠ second))

/-- Maps of a given size; node 3 stands for the broadcast address. -/
def sampleConfig (mapSize : ℕ) : Config (Fin 4) where
  mapSize := mapSize
  broadcast := 3

/-- Node 0 floods three messages, and node 1 receives each of them. -/
def threeMessages : List (Op (Fin 4) (Input (Fin 4))) :=
  [.input 0 .init, .input 1 .init, .input 0 (.send 3 []), .input 0 (.send 3 []),
    .input 0 (.send 3 []), .deliver 1 0, .deliver 1 1, .deliver 1 2]

/-- Nodes 0 and 2 flood a message, node 1 receives them, and that of node 2 once
more. -/
def twoSources : List (Op (Fin 4) (Input (Fin 4))) :=
  [.input 0 .init, .input 1 .init, .input 2 .init, .input 0 (.send 3 []), .input 2 (.send 3 []),
    .deliver 1 0, .deliver 1 1, .deliver 1 1]

/-- How often node 1 broadcast the first message of a source in a run, if there
is such a run. -/
def firstForwarded (config : Config (Fin 4)) (source : Fin 4)
    (operations : List (Op (Fin 4) (Input (Fin 4)))) : Option ℕ :=
  (operations.foldlM (perform (floodingProtocol config) Apart)
    (.initial (floodingProtocol config))).map fun world => (forwards 1 source world.log).count 0

theorem flooded_once_sample :
    ∃ world, Run (Guarded (fun world op => mapRoom (sampleConfig 2) world op = true)
        (stepOf (perform (floodingProtocol (sampleConfig 2)) Apart)))
        (.initial (floodingProtocol (sampleConfig 2))) threeMessages world ∧
      forwards 1 0 world.log = [0, 1, 2] ∧ (forwards 1 0 world.log).count 0 ≤ 1 := by
  have hfold : (threeMessages.foldlM (fun world op =>
      if mapRoom (sampleConfig 2) world op then
        perform (floodingProtocol (sampleConfig 2)) Apart world op else none)
      (.initial (floodingProtocol (sampleConfig 2)))).map (fun world => forwards 1 0 world.log) =
        some [0, 1, 2] := by decide +kernel
  obtain ⟨world, hworld, hnumbers⟩ := Option.map_eq_some_iff.1 hfold
  have hrun := Run.of_foldlM_guarded hworld
  have honce := ((flooded_once hrun 1 0).2 0).1
  rw [hnumbers] at honce
  exact ⟨world, hrun, hnumbers, by rw [hnumbers]; exact honce⟩

/-- A late copy of the first message is accepted again, and so is every copy
from a source that the map has no room for. -/
theorem not_flooded_once :
    (¬ ∀ (operations : List (Op (Fin 4) (Input (Fin 4))))
        (world : World (Fin 4) (FloodingAlgorithm (Fin 4)) (FloodingMessage (Fin 4))
          (Report (Fin 4))),
        Run (stepOf (perform (floodingProtocol (sampleConfig 2)) Apart))
          (.initial (floodingProtocol (sampleConfig 2))) operations world →
        (forwards 1 0 world.log).count 0 ≤ 1) ∧
      ¬ ∀ (operations : List (Op (Fin 4) (Input (Fin 4))))
        (world : World (Fin 4) (FloodingAlgorithm (Fin 4)) (FloodingMessage (Fin 4))
          (Report (Fin 4))),
        Run (stepOf (perform (floodingProtocol (sampleConfig 1)) Apart))
          (.initial (floodingProtocol (sampleConfig 1))) operations world →
        (forwards 1 2 world.log).count 0 ≤ 1 := by
  constructor
  · intro hclaim
    have htwice : firstForwarded (sampleConfig 2) 0 (threeMessages ++ [.deliver 1 0]) = some 2 := by
      decide +kernel
    obtain ⟨world, hworld, hcount⟩ := Option.map_eq_some_iff.1 htwice
    have hle := hclaim _ world (Run.of_foldlM hworld)
    omega
  · intro hclaim
    have htwice : firstForwarded (sampleConfig 1) 2 twoSources = some 2 := by decide +kernel
    obtain ⟨world, hworld, hcount⟩ := Option.map_eq_some_iff.1 htwice
    have hle := hclaim _ world (Run.of_foldlM hworld)
    omega

end Wiselib.Routing.Flooding
