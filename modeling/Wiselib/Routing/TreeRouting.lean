import Wiselib.Library.Network
import Wiselib.Routing.RoutingTable

/-!
# Tree routing

Nodes of a network build a tree towards their gateways.  Every node that is a
gateway or has a parent broadcasts its hop count from time to time, and a node
that hears of a shorter way to a gateway adopts the sender as its parent.
Messages to a gateway follow the parents.

This file models the routing state of a node and its handlers, and proves that
in every run over a fixed set of gateways a connected node has a parent that is
closer to a gateway *now* (`parent_chain`), however old the broadcast was from
which it adopted the parent.

## Strategy

A broadcast with hop count `h` claims that its sender is attached to the tree
within `h` hops.  Hop counts only fall, so the sender never takes the claim
back, and the rules of `Network.Hearsay` do the rest: a connected node with hop
count `h + 1` holds that its parent is attached within `h` hops.
-/

namespace Wiselib.Routing.Tree

open Network

variable {Node : Type*}

/-- The state of a node in the tree. -/
inductive TreeRoutingState
  | TrGateway
  | TrConnected
  | TrUnconnected
deriving DecidableEq, Repr

/-- What a node keeps.  `parent_` is `none` for `NULL_NODE_ID`, and `enabled`
says that `enable_radio` has registered the receive callback and the timer. -/
structure TreeRouting (Node : Type*) where
  state_ : TreeRoutingState
  parent_ : Option Node
  hops_ : UInt8
  enabled : Bool
deriving DecidableEq, Repr

/-- The messages: a broadcast carries the hop count and the parent of its
sender, a routing message the node it comes from and its payload. -/
inductive Message (Node : Type*)
  | broadcast (hops : UInt8) (gateId : Option Node)
  | routing (source : Node) (payload : List UInt8)
deriving DecidableEq, Repr

/-- What happens at a node by itself: the application starts routing or sends a
message, and the periodic timer fires. -/
inductive Input
  | enableRadio
  | send (data : List UInt8)
  | timerElapsed
deriving DecidableEq, Repr

/-- A routing message handed to the application of a gateway. -/
structure Delivery (Node : Type*) where
  source : Node
  payload : List UInt8
deriving DecidableEq, Repr

/-- Constructor, with `set_sink` called for the gateways. -/
def construct (gateway : Bool) : TreeRouting Node where
  state_ := if gateway then .TrGateway else .TrUnconnected
  parent_ := none
  hops_ := 0
  enabled := false

/-- `enable_radio` on the node `id`. -/
def TreeRouting.enableRadio (self : TreeRouting Node) (id : Node) : TreeRouting Node :=
  match self.state_ with
  | .TrGateway => { self with parent_ := some id, hops_ := 0, enabled := true }
  | .TrConnected | .TrUnconnected =>
      { self with parent_ := none, hops_ := 0xff, enabled := true }

/-- `send`: towards the parent, as a message of this node. -/
def TreeRouting.send (self : TreeRouting Node) (id : Node) (data : List UInt8) :
    Effects Node (Message Node) (Delivery Node) :=
  match self.parent_ with
  | some parent => .send (some parent) (.routing id data)
  | none => .none

/-- `timer_elapsed`: nodes of the tree broadcast their hop count. -/
def TreeRouting.timerElapsed (self : TreeRouting Node) :
    Effects Node (Message Node) (Delivery Node) :=
  match self.state_ with
  | .TrGateway | .TrConnected => .send none (.broadcast self.hops_ self.parent_)
  | .TrUnconnected => .none

/-- `receive` of a broadcast.  The hop count is compared as an `int`, so that
`hops + 1` does not wrap. -/
def TreeRouting.receiveBroadcast (self : TreeRouting Node) (sender : Node) (hops : UInt8) :
    TreeRouting Node :=
  if hops.toNat + 1 < self.hops_.toNat then
    { self with hops_ := hops + 1, parent_ := some sender, state_ := .TrConnected }
  else self

/-- `receive` of a routing message: a gateway hands it up, every other node
passes it on to its parent. -/
def TreeRouting.receiveRouting (self : TreeRouting Node) (source : Node) (payload : List UInt8) :
    Effects Node (Message Node) (Delivery Node) :=
  match self.state_ with
  | .TrGateway => .report ⟨source, payload⟩
  | .TrConnected | .TrUnconnected =>
      match self.parent_ with
      | some parent => .send (some parent) (.routing source payload)
      | none => .none

variable [DecidableEq Node]

/-- `receive` at the node `id`. -/
def TreeRouting.receive (self : TreeRouting Node) (id sender : Node) (message : Message Node) :
    TreeRouting Node × Effects Node (Message Node) (Delivery Node) :=
  if self.enabled = false ∨ sender = id then (self, .none)
  else
    match message with
    | .broadcast hops _ => (self.receiveBroadcast sender hops, .none)
    | .routing source payload => (self, self.receiveRouting source payload)

/-- The inputs.  No node is initialised twice, and the timer fires only where
it was set. -/
def TreeRouting.input (self : TreeRouting Node) (id : Node) :
    Input → Option (TreeRouting Node × Effects Node (Message Node) (Delivery Node))
  | .enableRadio => if self.enabled then none else some (self.enableRadio id, .none)
  | .send data => some (self, self.send id data)
  | .timerElapsed => if self.enabled then some (self, self.timerElapsed) else none

/-- Tree routing over a fixed set of gateways. -/
def treeProtocol (gateways : Node → Bool) :
    Protocol Node (TreeRouting Node) (Message Node) Input (Delivery Node) where
  start node := construct (gateways node)
  input node state input := state.input node input
  receive node state sender message := state.receive node sender message

/-! ## What a handler does to the routing state -/

/-- The node belongs to the tree. -/
def TreeRouting.Attached (self : TreeRouting Node) : Prop :=
  self.state_ = .TrGateway ∨ self.state_ = .TrConnected

omit [DecidableEq Node] in
theorem toNat_succ_of_lt {hops bound : UInt8} (hlt : hops.toNat + 1 < bound.toNat) :
    (hops + 1).toNat = hops.toNat + 1 := by
  have hbound : bound.toNat < 256 := bound.toNat_lt
  exact toNat_add_one (by omega)

/-- A received message leaves the state alone or is a broadcast of a shorter
way that the node adopts. -/
theorem receive_cases (self : TreeRouting Node) (id sender : Node) (message : Message Node) :
    (self.receive id sender message).1 = self ∨
      ∃ hops gateId, message = .broadcast hops gateId ∧ hops.toNat + 1 < self.hops_.toNat ∧
        (self.receive id sender message).1 =
          { self with hops_ := hops + 1, parent_ := some sender, state_ := .TrConnected } := by
  unfold TreeRouting.receive
  split
  · exact .inl rfl
  · cases message with
    | broadcast hops gateId =>
        simp only [TreeRouting.receiveBroadcast]
        split
        · rename_i hshorter
          exact .inr ⟨hops, gateId, rfl, hshorter, rfl⟩
        · exact .inl rfl
    | routing source payload => exact .inl rfl

theorem receive_sends {self : TreeRouting Node} {id sender : Node} {message : Message Node}
    {receiver : Option Node} {hops : UInt8} {gateId : Option Node} :
    (receiver, Message.broadcast hops gateId) ∉ (self.receive id sender message).2.sends := by
  unfold TreeRouting.receive
  split
  · simp
  · cases message with
    | broadcast hops gateId => simp
    | routing source payload =>
        simp only [TreeRouting.receiveRouting]
        split <;> try split
        all_goals simp

omit [DecidableEq Node] in
/-- An input enables the node, or it leaves the state alone and broadcasts only
for a node of the tree. -/
theorem input_cases {self : TreeRouting Node} {id : Node} {input : Input}
    {result : TreeRouting Node × Effects Node (Message Node) (Delivery Node)}
    (hinput : self.input id input = some result) :
    (self.enabled = false ∧ result = (self.enableRadio id, .none)) ∨
      (result.1 = self ∧ ∀ receiver hops gateId,
        (receiver, Message.broadcast hops gateId) ∈ result.2.sends →
          self.enabled ∧ self.Attached ∧ hops = self.hops_ ∧ gateId = self.parent_) := by
  cases input with
  | enableRadio =>
      simp only [TreeRouting.input] at hinput
      split at hinput
      · simp at hinput
      · rename_i henabled
        exact .inl ⟨by simpa using henabled, (Option.some.inj hinput).symm⟩
  | send data =>
      have hresult : result = (self, self.send id data) := (Option.some.inj hinput).symm
      refine .inr ⟨by rw [hresult], ?_⟩
      intro receiver hops gateId hsend
      rw [hresult] at hsend
      simp only [TreeRouting.send] at hsend
      split at hsend <;> simp at hsend
  | timerElapsed =>
      simp only [TreeRouting.input] at hinput
      split at hinput
      · rename_i henabled
        have hresult : result = (self, self.timerElapsed) := (Option.some.inj hinput).symm
        refine .inr ⟨by rw [hresult], ?_⟩
        intro receiver hops gateId hsend
        rw [hresult] at hsend
        simp only [TreeRouting.timerElapsed] at hsend
        split at hsend
        · rename_i hstate
          simp only [Effects.send_sends, List.mem_singleton, Prod.mk.injEq,
            Message.broadcast.injEq] at hsend
          exact ⟨henabled, .inl hstate, hsend.2⟩
        · rename_i hstate
          simp only [Effects.send_sends, List.mem_singleton, Prod.mk.injEq,
            Message.broadcast.injEq] at hsend
          exact ⟨henabled, .inr hstate, hsend.2⟩
        · simp at hsend
      · simp at hinput

/-! ## The claims of a broadcast -/

/-- What is true of every node: the gateways are the ones given, their hop
count is zero, and a node is connected only after it was enabled and with a
parent. -/
structure Sound (gateways : Node → Bool) (node : Node) (state : TreeRouting Node) : Prop where
  gateway_iff : state.state_ = .TrGateway ↔ gateways node = true
  gateway_hops : state.state_ = .TrGateway → state.hops_ = 0
  connected_enabled : state.state_ = .TrConnected → state.enabled = true
  connected_parent : state.state_ = .TrConnected → ∃ parent, state.parent_ = some parent
  connected_hops : state.state_ = .TrConnected → 0 < state.hops_.toNat

/-- What a broadcast tells of its sender: a hop count and a parent. -/
structure Claim (Node : Type*) where
  hops : ℕ
  parent : Option Node

/-- The claim of a message. -/
def Makes : Message Node → Claim Node → Prop
  | .broadcast hops gateId, claim => claim = ⟨hops.toNat, gateId⟩
  | .routing _ _, _ => False

/-- The claim a node would broadcast. -/
def Holds (_node : Node) (state : TreeRouting Node) (claim : Claim Node) : Prop :=
  state.enabled = true ∧ state.Attached ∧ claim = ⟨state.hops_.toNat, state.parent_⟩

/-- The node is enabled and attached to the tree within `count` hops. -/
def Within (state : TreeRouting Node) (count : ℕ) : Prop :=
  state.enabled = true ∧ state.Attached ∧ state.hops_.toNat ≤ count

/-- The node is within the hop count it told, and if that is not zero the
parent it told is a neighbour within one hop less. -/
def Vouches (hears : Node → Node → Prop) (states : Node → TreeRouting Node) (node : Node)
    (claim : Claim Node) : Prop :=
  Within (states node) claim.hops ∧ (0 < claim.hops → ∃ parent, claim.parent = some parent ∧
    hears node parent ∧ Within (states parent) (claim.hops - 1))

/-- Attached nodes stay attached and get closer to a gateway. -/
def Grows (state later : TreeRouting Node) : Prop :=
  ∀ count, Within state count → Within later count

theorem sound_receive {gateways : Node → Bool} {node sender : Node} {state : TreeRouting Node}
    {message : Message Node} (hsound : Sound gateways node state) :
    Sound gateways node (state.receive node sender message).1 := by
  by_cases henabled : state.enabled = true
  · rcases receive_cases state node sender message with hsame | ⟨hops, gateId, -, hshorter, hnew⟩
    · rw [hsame]
      exact hsound
    · -- a gateway has no shorter way to adopt
      have hgateway : state.state_ ≠ .TrGateway := by
        intro hstate
        rw [hsound.gateway_hops hstate] at hshorter
        simp at hshorter
      rw [hnew]
      constructor
      · simp [← hsound.gateway_iff, hgateway]
      · simp
      · exact fun _ => henabled
      · exact fun _ => ⟨sender, rfl⟩
      · intro _
        show 0 < (hops + 1).toNat
        rw [toNat_succ_of_lt hshorter]
        exact Nat.succ_pos _
  · have hsame : (state.receive node sender message).1 = state := by
      simp [TreeRouting.receive, henabled]
    rw [hsame]
    exact hsound

omit [DecidableEq Node] in
theorem sound_enableRadio {gateways : Node → Bool} {node : Node} {state : TreeRouting Node}
    (hsound : Sound gateways node state) (hdisabled : state.enabled = false) :
    Sound gateways node (state.enableRadio node) := by
  cases hstate : state.state_ with
  | TrGateway => constructor <;> simp [TreeRouting.enableRadio, hstate, ← hsound.gateway_iff]
  | TrConnected => simp [hsound.connected_enabled hstate] at hdisabled
  | TrUnconnected => constructor <;> simp [TreeRouting.enableRadio, hstate, ← hsound.gateway_iff]

theorem grows_receive (state : TreeRouting Node) (node sender : Node) (message : Message Node) :
    Grows state (state.receive node sender message).1 := by
  intro count hwithin
  rcases receive_cases state node sender message with hsame | ⟨hops, gateId, -, hshorter, hnew⟩
  · rw [hsame]
    exact hwithin
  · rw [hnew]
    refine ⟨hwithin.1, .inr rfl, ?_⟩
    show (hops + 1).toNat ≤ count
    rw [toNat_succ_of_lt hshorter]
    exact hshorter.le.trans hwithin.2.2

/-- A node that adopts a parent is one hop farther than what the parent told. -/
theorem vouches_adopted {hears : Node → Node → Prop} {states : Node → TreeRouting Node}
    {node sender : Node} {hops : UInt8} {gateId : Option Node}
    (henabled : (states node).enabled = true)
    (hheard : Heard hears Makes (Vouches hears) states node sender (.broadcast hops gateId))
    (hshorter : hops.toNat + 1 < (states node).hops_.toNat)
    (hnew : ((states node).receive node sender (.broadcast hops gateId)).1 =
      { states node with hops_ := hops + 1, parent_ := some sender, state_ := .TrConnected }) :
    Vouches hears (Function.update states node
      ((states node).receive node sender (.broadcast hops gateId)).1) node
      ⟨(hops + 1).toNat, some sender⟩ := by
  have hsender : Within (states sender) hops.toNat := (hheard.2 _ rfl).1
  constructor
  · rw [Function.update_self, hnew]
    exact ⟨henabled, .inr rfl, le_rfl⟩
  · intro _
    refine ⟨sender, rfl, hheard.1, ?_⟩
    show Within _ ((hops + 1).toNat - 1)
    rw [toNat_succ_of_lt hshorter, Nat.add_sub_cancel]
    by_cases hself : sender = node
    · subst hself
      rw [Function.update_self]
      exact grows_receive _ _ _ _ _ hsender
    · rw [Function.update_of_ne hself]
      exact hsender

theorem hearsay_tree (gateways : Node → Bool) (hears : Node → Node → Prop) :
    Hearsay hears (Sound gateways) Makes Holds (Vouches hears) (treeProtocol gateways) Grows where
  good_start := by
    intro node
    cases hgateway : gateways node <;> constructor <;> simp [treeProtocol, construct, hgateway]
  good_input := by
    intro node state input result hsound hinput
    rcases input_cases hinput with ⟨hdisabled, rfl⟩ | ⟨hsame, -⟩
    · exact sound_enableRadio hsound hdisabled
    · rw [hsame]
      exact hsound
  good_receive := fun _ _ _ _ hsound _ => sound_receive hsound
  grows_refl := fun _ _ hwithin => hwithin
  grows_input := by
    intro node state input result _ hinput count hwithin
    rcases input_cases hinput with ⟨hdisabled, -⟩ | ⟨hsame, -⟩
    · simp [hwithin.1] at hdisabled
    · rw [hsame]
      exact hwithin
  grows_receive := fun _ _ _ _ _ _ => grows_receive _ _ _ _
  vouches_grows := by
    intro states later node claim hgrows hvouches
    refine ⟨hgrows _ _ hvouches.1, ?_⟩
    intro hpositive
    obtain ⟨parent, hparent, hhears, hwithin⟩ := hvouches.2 hpositive
    exact ⟨parent, hparent, hhears, hgrows _ _ hwithin⟩
  sends_input := by
    intro node state input result receiver message claim _ hinput hsend hmakes
    cases message with
    | routing source payload => exact hmakes.elim
    | broadcast hops gateId =>
        rcases input_cases hinput with ⟨-, rfl⟩ | ⟨hsame, hbroadcast⟩
        · simp at hsend
        · obtain ⟨henabled, hattached, rfl, rfl⟩ := hbroadcast receiver hops gateId hsend
          rw [hsame]
          exact ⟨henabled, hattached, hmakes⟩
  sends_receive := by
    intro node state sender received receiver message claim hsend hmakes
    cases message with
    | routing source payload => exact hmakes.elim
    | broadcast hops gateId => exact absurd hsend receive_sends
  holds_start := by
    intro node claim hholds
    simp [Holds, treeProtocol, construct] at hholds
  holds_input := by
    intro states node input result claim hsound hinput hholds
    rcases input_cases hinput with ⟨hdisabled, rfl⟩ | ⟨hsame, -⟩
    · -- only a gateway is attached when it is enabled, without any hop
      right
      obtain ⟨henabled, hattached, rfl⟩ := hholds
      have hhops := (sound_enableRadio hsound hdisabled).gateway_hops
      have hstate : ((states node).enableRadio node).state_ = .TrGateway := by
        apply hattached.resolve_right
        simp only [TreeRouting.enableRadio]
        split
        · rename_i hgateway
          simp [hgateway]
        · intro hconnected
          simp [hsound.connected_enabled hconnected] at hdisabled
        · rename_i hunconnected
          simp [hunconnected]
      constructor
      · rw [Function.update_self]
        exact ⟨henabled, hattached, le_rfl⟩
      · simp [hhops hstate]
    · rw [hsame] at hholds
      exact .inl hholds
  holds_receive := by
    intro states node sender message claim _ hheard hholds
    have hholds : Holds node ((states node).receive node sender message).1 claim := hholds
    rcases receive_cases (states node) node sender message with
      hsame | ⟨hops, gateId, rfl, hshorter, hnew⟩
    · rw [hsame] at hholds
      exact .inl hholds
    · right
      rw [hnew] at hholds
      obtain ⟨henabled, -, rfl⟩ := hholds
      exact vouches_adopted henabled hheard hshorter hnew

/-! ## Parents in every run -/

/-- In a world, `child` is connected and `parent` is its parent. -/
def ParentOf (world : World Node (TreeRouting Node) (Message Node) (Delivery Node))
    (child parent : Node) : Prop :=
  (world.states child).state_ = .TrConnected ∧ (world.states child).parent_ = some parent

variable {hears : Node → Node → Prop} [DecidableRel hears]

omit [DecidableEq Node] [DecidableRel hears] in
/-- The parent of a connected node is a neighbour that belongs to the tree and
is closer to a gateway. -/
theorem parent_closer {gateways : Node → Bool}
    {world : World Node (TreeRouting Node) (Message Node) (Delivery Node)}
    (hworld : Vouched (Sound gateways) Makes Holds (Vouches hears) world) {child parent : Node}
    (hparent : ParentOf world child parent) :
    hears child parent ∧ (world.states parent).Attached ∧
      (world.states parent).hops_.toNat < (world.states child).hops_.toNat := by
  have hchild := hworld.nodes child
  have hpositive := hchild.connected_hops hparent.1
  have hholds : Holds child (world.states child)
      ⟨(world.states child).hops_.toNat, some parent⟩ :=
    ⟨hchild.connected_enabled hparent.1, .inr hparent.1, by rw [hparent.2]⟩
  obtain ⟨other, hother, hhears, hwithin⟩ := (hworld.own child _ hholds).2 hpositive
  obtain rfl : parent = other := Option.some.inj hother
  refine ⟨hhears, hwithin.2.1, ?_⟩
  have hle : (world.states parent).hops_.toNat ≤ (world.states child).hops_.toNat - 1 := hwithin.2.2
  omega

/-- In every run a connected node has a parent: a neighbour that is a gateway or
connected and has a smaller hop count at that moment.  Following parents never
visits a node twice and leads from the node to a gateway. -/
theorem parent_chain (gateways : Node → Bool) (operations : List (Op Node Input))
    (world : World Node (TreeRouting Node) (Message Node) (Delivery Node))
    (hrun : Transition.Run (Transition.stepOf (perform (treeProtocol gateways) hears))
      (.initial (treeProtocol gateways)) operations world)
    (node : Node) (hconnected : (world.states node).state_ = .TrConnected) :
    (∃ parent, (world.states node).parent_ = some parent ∧ hears node parent ∧
      (gateways parent = true ∨ (world.states parent).state_ = .TrConnected) ∧
      (world.states parent).hops_ < (world.states node).hops_) ∧
    (∀ path : List Node, (node :: path).IsChain (ParentOf world) → (node :: path).Nodup) ∧
    ∃ gateway path, (node :: path).IsChain (ParentOf world) ∧
      (node :: path).getLast? = some gateway ∧ gateways gateway = true := by
  have hworld := (hearsay_tree gateways hears).holds_run hrun
  have hgateway : ∀ other, (world.states other).Attached →
      gateways other = true ∨ (world.states other).state_ = .TrConnected := by
    intro other hattached
    apply hattached.imp_left
    exact (hworld.nodes other).gateway_iff.1
  refine ⟨?_, ?_, ?_⟩
  · obtain ⟨parent, hparent⟩ := (hworld.nodes node).connected_parent hconnected
    obtain ⟨hhears, hattached, hcloser⟩ := parent_closer hworld ⟨hconnected, hparent⟩
    exact ⟨parent, hparent, hhears, hgateway parent hattached, hcloser⟩
  · intro path hpath
    have hfalls : ∀ child parent, ParentOf world child parent →
        (world.states parent).hops_.toNat < (world.states child).hops_.toNat :=
      fun _ _ hparent => (parent_closer hworld hparent).2.2
    exact nodup_of_falling hfalls hpath
  · -- every attached node is a gateway or has a parent that is attached and closer
    have hnext : ∀ place, (world.states place).Attached → gateways place = true ∨
        ∃ next, ParentOf world place next ∧
          (world.states next).hops_.toNat < (world.states place).hops_.toNat ∧
          (world.states next).Attached := by
      intro place hattached
      rcases hgateway place hattached with hend | hplace
      · exact .inl hend
      · obtain ⟨parent, hparent⟩ := (hworld.nodes place).connected_parent hplace
        have hcloser := parent_closer hworld ⟨hplace, hparent⟩
        exact .inr ⟨parent, ⟨hplace, hparent⟩, hcloser.2.2, hcloser.2.1⟩
    obtain ⟨last, path, hpath, hlast, hends⟩ :=
      exists_path_to_end hnext _ node le_rfl (.inr hconnected)
    exact ⟨last, path, hpath, hlast, hends⟩

/-! ### A line of three nodes -/

/-- Neighbours on a line hear each other. -/
def OnLine (first second : Fin 3) : Prop :=
  first.val + 1 = second.val ∨ second.val + 1 = first.val

instance : DecidableRel OnLine := fun first second =>
  inferInstanceAs (Decidable (first.val + 1 = second.val ∨ second.val + 1 = first.val))

/-- The first node is the gateway. -/
def firstOnly (node : Fin 3) : Bool :=
  decide (node = 0)

/-- The tree grows from the gateway to the far end. -/
def lineOperations : List (Op (Fin 3) Input) :=
  [.input 0 .enableRadio, .input 1 .enableRadio, .input 2 .enableRadio,
    .input 0 .timerElapsed, .deliver 1 0, .input 1 .timerElapsed, .deliver 2 1]

/-- The world at the end of this run. -/
def lineWorld : World (Fin 3) (TreeRouting (Fin 3)) (Message (Fin 3)) (Delivery (Fin 3)) :=
  (lineOperations.foldlM (perform (treeProtocol firstOnly) OnLine)
    (.initial (treeProtocol firstOnly))).getD (.initial (treeProtocol firstOnly))

theorem parent_chain_line :
    (∃ parent, (lineWorld.states 2).parent_ = some parent ∧ OnLine 2 parent ∧
      (firstOnly parent = true ∨ (lineWorld.states parent).state_ = .TrConnected) ∧
      (lineWorld.states parent).hops_ < (lineWorld.states 2).hops_) ∧
    (∀ path : List (Fin 3), (2 :: path).IsChain (ParentOf lineWorld) → (2 :: path).Nodup) ∧
    ∃ gateway path, (2 :: path).IsChain (ParentOf lineWorld) ∧
      (2 :: path).getLast? = some gateway ∧ firstOnly gateway = true :=
  parent_chain firstOnly lineOperations lineWorld (Transition.Run.of_foldlM rfl) 2
    (by decide +kernel)

end Wiselib.Routing.Tree
