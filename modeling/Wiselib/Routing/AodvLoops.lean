import Wiselib.Routing.AodvReplies

/-!
# Routes of AODV and DYMO

A route that a node stores replaces the one it had, however old the request is
that it comes from, and a reply is passed on along with a route that the node
did not take itself.  So two nodes may send messages for the same destination to
each other.  This file shows that there is no loop as long as every node takes
just the routes that are fresh.

## Strategy

* Origins are ordered: a later message of the same source is better, and so is
  the same one after fewer hops (`Origin.Better`).
* A node that takes no worse route than the last one has learned of better and
  better origins.  `Fresh` is the invariant: a node that a route leads to has
  learned of a better origin than the node that has the route, and so has the
  sender of a request or a reply in the air.
* `routed_receive` says what a handler does to the next hops and to what the
  node has learned; `Fresh.act` is the step for all handlers.
* An order has no cycles (`Fresh.loopFree`).
-/

namespace Wiselib.Routing.Aodv

open Network Transition

/-! ## Origins -/

/-- A later message, or the same one after at most as many hops. -/
def Origin.AtLeast (origin known : Origin) : Prop :=
  known.serial < origin.serial ∨
    known.serial = origin.serial ∧ origin.travelled ≤ known.travelled

/-- A later message, or the same one after fewer hops. -/
def Origin.Better (origin known : Origin) : Prop :=
  known.serial < origin.serial ∨
    known.serial = origin.serial ∧ origin.travelled < known.travelled

instance (origin known : Origin) : Decidable (origin.AtLeast known) :=
  inferInstanceAs (Decidable (_ ∨ _))

theorem Origin.Better.irrefl (origin : Origin) : ¬ origin.Better origin := by
  unfold Origin.Better
  omega

theorem Origin.Better.trans {first second third : Origin} (hfirst : first.Better second)
    (hsecond : second.Better third) : first.Better third := by
  unfold Origin.Better at *
  omega

theorem Origin.AtLeast.trans_better {first second third : Origin} (hfirst : first.AtLeast second)
    (hsecond : second.Better third) : first.Better third := by
  unfold Origin.AtLeast Origin.Better at *
  omega

theorem Origin.AtLeast.refl (origin : Origin) : origin.AtLeast origin :=
  .inr ⟨rfl, Nat.le_refl _⟩

theorem Origin.AtLeast.better_passedOn {origin known : Origin} (hatLeast : known.AtLeast origin) :
    known.Better origin.passedOn := by
  unfold Origin.AtLeast at hatLeast
  unfold Origin.Better Origin.passedOn
  dsimp only
  omega

/-- What is known is better than the origin. -/
def Ahead (learned : Option Origin) (origin : Origin) : Prop :=
  ∃ known, learned = some known ∧ known.Better origin

/-- What is known does not get worse. -/
def Rises (before after : Option Origin) : Prop :=
  ∀ known, before = some known → ∃ newer, after = some newer ∧ newer.AtLeast known

theorem Rises.refl (learned : Option Origin) : Rises learned learned :=
  fun known hknown => ⟨known, hknown, .refl known⟩

theorem Ahead.rises {before after : Option Origin} {origin : Origin} (hahead : Ahead before origin)
    (hrises : Rises before after) : Ahead after origin := by
  obtain ⟨known, hknown, hbetter⟩ := hahead
  obtain ⟨newer, hnewer, hatLeast⟩ := hrises known hknown
  exact ⟨newer, hnewer, hatLeast.trans_better hbetter⟩

/-! ## Fresh routes -/

/-- The message is no worse than the last route that was taken to its source. -/
def current (message : RouteDiscoveryMessage) (state : AodvRouting) : Bool :=
  match state.learned message.source with
  | none => true
  | some known => decide (message.origin.AtLeast known)

/-- The last route that was taken is no worse than the message. -/
def upToDate (message : RouteDiscoveryMessage) (state : AodvRouting) : Bool :=
  match state.learned message.source with
  | none => false
  | some known => decide (known.AtLeast message.origin)

/-- A route is taken that is fresh and whose next hop fits the byte in which it
is stored.  Routes of a node to itself do not matter. -/
def takenFresh (node sender : UInt16) (message : RouteDiscoveryMessage) (state : AodvRouting) :
    Bool :=
  message.source == node || (decide (sender.toNat < 256) && current message state)

/-- A reply is passed on whose route is not taken, as there is one that is no
worse. -/
def leftFresh (node : UInt16) (message : RouteDiscoveryMessage) (state : AodvRouting) : Bool :=
  message.source == node || message.destination == node || upToDate message state

/-- All routes that nodes take are fresh, and so are those they do not take but
pass on.  No node handles a reply for a node that it has no route to. -/
def routesFresh (config : Config) (world : World UInt16 AodvRouting Message Report) :
    Op UInt16 Input → Bool
  | .deliver node position =>
      match world.sent[position]? with
      | some ⟨sender, _, .rreq message⟩ =>
          !(world.states node).handles node sender || (world.states node).remembers message ||
            takenFresh node sender message (world.states node)
      | some ⟨sender, _, .rrep message⟩ =>
          !(world.states node).handles node sender ||
            ((message.destination == node ||
                (world.states node).routeExists message.destination) &&
              if (world.states node).takesReply config message then
                takenFresh node sender message (world.states node)
              else leftFresh node message (world.states node))
      | _ => true
  | _ => true

/-- The routing table of the node sends messages for the destination to the next
node, and neither of them is the destination. -/
def HopsTo (world : World UInt16 AodvRouting Message Report)
    (destination node next : UInt16) : Prop :=
  node ≠ destination ∧ next ≠ destination ∧
    ∃ value, (world.states node).routing_table_.find destination = some value ∧
      value.next_hop.toUInt16 = next

/-- No node is on a cycle of next hops to some destination. -/
def LoopFree (world : World UInt16 AodvRouting Message Report) : Prop :=
  ∀ destination node, ¬ Relation.TransGen (HopsTo world destination) node node

/-! ## What handlers do to next hops -/

section Table

variable {config : Config} {id sender key other : UInt16} {value found : RoutingTableValue}
  {message : RouteDiscoveryMessage} {state later last : AodvRouting}

/-- The keys of the table are different. -/
def KeysUnique (state : AodvRouting) : Prop :=
  (state.routing_table_.map Prod.fst).Nodup

/-- The next hops to other nodes, except for some destinations, are what they
were. -/
def HopsKept (id : UInt16) (except : UInt16 → Prop) (state later : AodvRouting) : Prop :=
  KeysUnique state → KeysUnique later ∧ ∀ destination value, destination ≠ id →
    ¬ except destination → later.routing_table_.find destination = some value →
      ∃ old, state.routing_table_.find destination = some old ∧ old.next_hop = value.next_hop

variable {except : UInt16 → Prop}

theorem HopsKept.of_table (htable : later.routing_table_ = state.routing_table_) :
    HopsKept id except state later := by
  intro hunique
  refine ⟨by rwa [KeysUnique, htable], ?_⟩
  intro destination value _ _ hvalue
  rw [htable] at hvalue
  exact ⟨value, hvalue, rfl⟩

theorem HopsKept.trans (hfirst : HopsKept id except state later)
    (hsecond : HopsKept id except later last) : HopsKept id except state last := by
  intro hunique
  obtain ⟨hlater, hfirst⟩ := hfirst hunique
  obtain ⟨hlast, hsecond⟩ := hsecond hlater
  refine ⟨hlast, ?_⟩
  intro destination value hid hexcept hvalue
  obtain ⟨middle, hmiddle, hsame⟩ := hsecond destination value hid hexcept hvalue
  obtain ⟨old, hold, hold_same⟩ := hfirst destination middle hid hexcept hmiddle
  exact ⟨old, hold, hold_same.trans hsame⟩

theorem HopsKept.weaken {wider : UInt16 → Prop} (hkept : HopsKept id except state later)
    (hwider : ∀ destination, except destination → wider destination) :
    HopsKept id wider state later := by
  intro hunique
  refine ⟨(hkept hunique).1, ?_⟩
  intro destination value hid hexcept
  exact (hkept hunique).2 destination value hid fun h => hexcept (hwider destination h)

/-- Storing a value changes the next hop of its key at most. -/
theorem hopsKept_store : HopsKept id (· = key) state (state.store config key value) := by
  unfold AodvRouting.store
  split
  · intro hunique
    refine ⟨RoutingTable.nodup_assign hunique, ?_⟩
    intro destination found _ hne hfound
    dsimp only at hfound
    rw [RoutingTable.find_assign_other hne] at hfound
    exact ⟨found, hfound, rfl⟩
  · exact HopsKept.of_table rfl

theorem find_store_self
    (hfound : (state.store config key value).routing_table_.find key = some found) :
    found = value := by
  unfold AodvRouting.store at hfound
  split at hfound
  · rename_i hplace
    dsimp only at hfound
    by_cases hexists : (state.routing_table_.find key).isSome
    · rw [RoutingTable.find_assign_present hexists] at hfound
      exact (Option.some.inj hfound).symm
    · have hroom : state.routing_table_.length < config.tableSize := by
        simpa [AodvRouting.hasPlace, AodvRouting.routeExists, hexists] using hplace
      rw [RoutingTable.find_assign_absent (by simpa using hexists) hroom] at hfound
      exact (Option.some.inj hfound).symm
  · -- without a place the key is not in the table
    rename_i hplace
    simp [AodvRouting.hasPlace, AodvRouting.routeExists] at hplace
    dsimp only at hfound
    rw [hplace.1] at hfound
    simp at hfound

theorem hopsKept_refresh (hthere : state.routeExists key = true ∨
    state.hasPlace config key = false) : HopsKept id except state (state.refresh config key) := by
  rcases hthere with hexists | hplace
  · intro hunique
    obtain ⟨hlater, hothers⟩ := @hopsKept_store config id key
      { state.entry config key with lifetime := routeTimeout } state hunique
    refine ⟨hlater, ?_⟩
    intro destination value hid _ hvalue
    by_cases hkey : destination = key
    · subst hkey
      obtain ⟨old, hold⟩ := Option.isSome_iff_exists.1 hexists
      refine ⟨old, hold, ?_⟩
      rw [find_store_self hvalue]
      simp [AodvRouting.entry, hold]
    · exact hothers destination value hid hkey hvalue
  · apply HopsKept.of_table
    simp [AodvRouting.refresh, AodvRouting.store, hplace]

theorem hopsKept_touch (hthere : key = id ∨ state.routeExists key = true) :
    HopsKept id except state (state.touch config key) := by
  unfold AodvRouting.touch
  split
  · exact HopsKept.of_table rfl
  · rename_i habsent
    have hself := hthere.resolve_right habsent
    intro hunique
    refine ⟨RoutingTable.nodup_assign hunique, ?_⟩
    intro destination value hid _ hvalue
    dsimp only at hvalue
    rw [RoutingTable.find_assign_other (by rwa [hself])] at hvalue
    exact ⟨value, hvalue, rfl⟩

theorem hopsKept_tableCleanup {table : RoutingTable UInt16 RoutingTableValue}
    (hunique : (table.map Prod.fst).Nodup) :
    ((AodvRouting.tableCleanup table).map Prod.fst).Nodup ∧
      ∀ destination value, (AodvRouting.tableCleanup table).find destination = some value →
        ∃ old, table.find destination = some old ∧ old.next_hop = value.next_hop := by
  induction table with
  | nil =>
      refine ⟨hunique, ?_⟩
      intro destination value hvalue
      simp [AodvRouting.tableCleanup] at hvalue
  | cons entry rest ih =>
      obtain ⟨key, value⟩ := entry
      rw [List.map_cons, List.nodup_cons] at hunique
      have hfirst : RoutingTable.find rest key = none := RoutingTable.find_eq_none_iff.2 hunique.1
      obtain ⟨hrest, hhops⟩ := ih hunique.2
      unfold AodvRouting.tableCleanup
      split
      · refine ⟨hunique.2, ?_⟩
        intro destination found hfound
        have hne : key ≠ destination := by
          intro heq
          rw [heq, hfound] at hfirst
          simp at hfirst
        exact ⟨found, by rw [RoutingTable.find, if_neg hne]; exact hfound, rfl⟩
      · constructor
        · rw [List.map_cons, List.nodup_cons]
          refine ⟨?_, hrest⟩
          intro hmem
          have hsome : ((AodvRouting.tableCleanup rest).find key).isSome := by
            rw [Option.isSome_iff_ne_none]
            exact fun hnone => RoutingTable.find_eq_none_iff.1 hnone hmem
          obtain ⟨found, hfound⟩ := Option.isSome_iff_exists.1 hsome
          obtain ⟨old, hold, -⟩ := hhops key found hfound
          rw [hfirst] at hold
          simp at hold
        · intro destination found hfound
          by_cases hkey : key = destination
          · rw [RoutingTable.find, if_pos hkey] at hfound
            obtain rfl := Option.some.inj hfound
            exact ⟨value, by rw [RoutingTable.find, if_pos hkey], rfl⟩
          · rw [RoutingTable.find, if_neg hkey] at hfound
            obtain ⟨old, hold, hsame⟩ := hhops destination found hfound
            exact ⟨old, by rw [RoutingTable.find, if_neg hkey]; exact hold, hsame⟩

/-! ## What handlers do to routes -/

/-- A handler leaves the next hops and what was learned alone, or it takes a
route to the source of the message through the sender. -/
inductive Routed (id sender : UInt16) (message : RouteDiscoveryMessage) (took : Bool)
    (state later : AodvRouting) : Prop
  | left (htook : took = false) (hlearned : later.learned = state.learned)
      (hkept : HopsKept id (fun _ => False) state later)
  | taken (htook : took = true)
      (hlearned : later.learned =
        Function.update state.learned message.source (some message.origin))
      (hkept : HopsKept id (· = message.source) state later)
      (hhop : KeysUnique state → message.source ≠ id →
        ∀ value, later.routing_table_.find message.source = some value →
          value.next_hop = sender.toUInt8)

theorem routed_takeRoute {destSeq : UInt16} :
    Routed id sender message true state
      ((state.takeRoute config sender message destSeq).checkPendingMessages config
        message.source).1 := by
  have hstored : HopsKept id (· = message.source) state
      (state.takeRoute config sender message destSeq) := hopsKept_store
  have hhop : ∀ found,
      (state.takeRoute config sender message destSeq).routing_table_.find message.source =
        some found → found.next_hop = sender.toUInt8 := by
    intro found hfound
    have hvalue := find_store_self hfound
    rw [hvalue]
    rfl
  -- the entry is there, or the table has no place for it
  have hthere : (state.takeRoute config sender message destSeq).routeExists message.source = true ∨
      (state.takeRoute config sender message destSeq).hasPlace config message.source = false := by
    by_cases hplace : state.hasPlace config message.source = true
    · left
      show (state.store config message.source _).routeExists message.source = true
      rw [AodvRouting.routeExists_store]
      simp [hplace]
    · right
      have hsame : (state.takeRoute config sender message destSeq).hasPlace config message.source =
          state.hasPlace config message.source := AodvRouting.hasPlace_store
      rw [hsame]
      simpa using hplace
  have hchecked : HopsKept id (fun _ => False) (state.takeRoute config sender message destSeq)
      ((state.takeRoute config sender message destSeq).checkPendingMessages config
        message.source).1 := by
    unfold AodvRouting.checkPendingMessages
    split
    · exact hopsKept_refresh hthere
    · exact HopsKept.of_table rfl
  refine .taken rfl (by simp) (hstored.trans (hchecked.weaken fun _ h => h.elim)) ?_
  intro hunique hsource value hvalue
  obtain ⟨old, hold, hsame⟩ :=
    (hchecked (hstored hunique).1).2 message.source value hsource not_false hvalue
  rw [← hsame]
  exact hhop old hold

theorem Routed.before {took : Bool} (hkept : HopsKept id (fun _ => False) state later)
    (hlearned : later.learned = state.learned)
    (hrouted : Routed id sender message took later last) :
    Routed id sender message took state last := by
  cases hrouted with
  | left htook hsame hlast => exact .left htook (hsame.trans hlearned) (hkept.trans hlast)
  | taken htook htaken hlast hhop =>
      refine .taken htook (by rw [htaken, hlearned]) ?_ ?_
      · exact (hkept.weaken fun _ h => h.elim).trans hlast
      · intro hunique
        exact hhop (hkept hunique).1

theorem Routed.andThen {took : Bool} (hrouted : Routed id sender message took state later)
    (hkept : HopsKept id (fun _ => False) later last) (hlearned : last.learned = later.learned) :
    Routed id sender message took state last := by
  cases hrouted with
  | left htook hsame hlater => exact .left htook (hlearned.trans hsame) (hlater.trans hkept)
  | taken htook htaken hlater hhop =>
      refine .taken htook (hlearned.trans htaken) ?_ ?_
      · exact hlater.trans (hkept.weaken fun _ h => h.elim)
      · intro hunique hsource value hvalue
        obtain ⟨old, hold, hsame⟩ :=
          (hkept (hlater hunique).1).2 message.source value hsource not_false hvalue
        rw [← hsame]
        exact hhop hunique hsource old hold

theorem routed_procRreq :
    Routed id sender message (!state.remembers message) state
      (state.procRreq config id sender message).1 := by
  unfold AodvRouting.procRreq
  split
  · rename_i hknown
    exact .left (by simp [hknown]) rfl (HopsKept.of_table rfl)
  · rename_i hnew
    have hnew : (!state.remembers message) = true := by simpa using hnew
    rw [hnew]
    have haccepted : Routed id sender message true state
        (state.acceptRreq config sender message).1 :=
      Routed.before (HopsKept.of_table (by simp)) (by simp) routed_takeRoute
    exact haccepted.andThen (HopsKept.of_table (by simp)) (by simp)

theorem takesReply_recordSeq :
    (state.recordSeq message).takesReply config message = state.takesReply config message := by
  unfold AodvRouting.recordSeq
  split
  · rfl
  · rfl

/-- A reply is left, or a route to its source is taken, if there is a route to
the node that asked. -/
theorem routed_procRrep
    (hasked : message.destination = id ∨ state.routeExists message.destination = true) :
    Routed id sender message (state.takesReply config message) state
      (state.procRrep config id sender message).1 := by
  have hexists : (state.recordSeq message).routeExists message.destination =
      state.routeExists message.destination := by simp [AodvRouting.routeExists]
  have hrecorded : HopsKept id (fun _ => False) state (state.recordSeq message) :=
    HopsKept.of_table (by simp)
  have hlooked : ∀ looked, (looked = (state.recordSeq message).touch config message.destination ∨
      looked = state.recordSeq message) →
      HopsKept id (fun _ => False) state looked ∧ looked.learned = state.learned := by
    rintro looked (rfl | rfl)
    · exact ⟨hrecorded.trans (hopsKept_touch (by rwa [hexists])), by simp⟩
    · exact ⟨hrecorded, by simp⟩
  have haccepted : Routed id sender message (state.takesReply config message) state
      (state.acceptRrep config sender message).1 := by
    unfold AodvRouting.acceptRrep
    dsimp only
    rw [takesReply_recordSeq]
    obtain ⟨hkept, hlearned⟩ := hlooked
      (if (state.recordSeq message).routeExists message.source then
        (state.recordSeq message).touch config message.destination
      else state.recordSeq message) (by split <;> simp)
    by_cases htakes : state.takesReply config message = true
    · rw [if_pos htakes, htakes]
      exact Routed.before hkept hlearned routed_takeRoute
    · rw [if_neg htakes]
      exact .left (by simpa using htakes) hlearned hkept
  unfold AodvRouting.procRrep
  dsimp only
  split
  · exact haccepted
  · rename_i hother
    have hthere : (state.acceptRrep config sender message).1.routeExists message.destination =
        true := by
      rw [routeExists_acceptRrep, hasked.resolve_left hother]
      simp
    exact haccepted.andThen (hopsKept_touch (.inr hthere)) (by simp)

theorem hopsKept_send {destination : UInt16} :
    HopsKept id (fun _ => False) state (state.send config id destination).1 ∧
      (state.send config id destination).1.learned = state.learned := by
  unfold AodvRouting.send
  split
  · rename_i hexists
    exact ⟨hopsKept_refresh (.inl hexists), by simp⟩
  · exact ⟨HopsKept.of_table (by simp), by simp⟩

theorem hopsKept_procData :
    HopsKept id (fun _ => False) state (state.procData config id message).1 ∧
      (state.procData config id message).1.learned = state.learned := by
  unfold AodvRouting.procData
  split
  · exact ⟨HopsKept.of_table rfl, rfl⟩
  · split
    · rename_i hexists
      exact ⟨hopsKept_refresh (.inl hexists), by simp⟩
    · exact ⟨HopsKept.of_table rfl, rfl⟩

theorem hopsKept_input {input : Input} {result : AodvRouting × Effects UInt16 Message Report}
    (hinput : state.input config id input = some result) :
    HopsKept id (fun _ => False) state result.1 ∧ result.1.learned = state.learned := by
  cases input with
  | enableRadio =>
      rw [← Option.some.inj hinput]
      exact ⟨HopsKept.of_table rfl, rfl⟩
  | send destination =>
      rw [← Option.some.inj hinput]
      exact hopsKept_send
  | timerElapsed expired =>
      simp only [AodvRouting.input] at hinput
      split at hinput
      · rw [← Option.some.inj hinput]
        refine ⟨?_, rfl⟩
        intro hunique
        obtain ⟨hlater, hhops⟩ := hopsKept_tableCleanup hunique
        exact ⟨hlater, fun destination value _ _ => hhops destination value⟩
      · simp at hinput

end Table

/-! ## The invariant -/

/-- The request or the reply in a frame. -/
def Message.discovery : Message → Option RouteDiscoveryMessage
  | .rreq message => some message
  | .rrep message => some message
  | .data _ => none

/-- The tables have different keys, every request or reply in the air has a
sender that is its source or has learned of a better origin, and so has the next
hop of every route, compared with the node that has the route. -/
structure Fresh (world : World UInt16 AodvRouting Message Report) : Prop where
  keys : ∀ node, KeysUnique (world.states node)
  air : ∀ packet ∈ world.sent, ∀ message, packet.frame.discovery = some message →
    packet.sender = message.source ∨
      Ahead ((world.states packet.sender).learned message.source) message.origin
  hops : ∀ node destination value, destination ≠ node →
    (world.states node).routing_table_.find destination = some value →
      value.next_hop.toUInt16 = destination ∨
        ∃ known, (world.states node).learned destination = some known ∧
          Ahead ((world.states value.next_hop.toUInt16).learned destination) known

variable {config : Config} {world next : World UInt16 AodvRouting Message Report}

theorem rises_act {node : UInt16} {result : AodvRouting × Effects UInt16 Message Report}
    {destination : UInt16}
    (hrises : Rises ((world.states node).learned destination) (result.1.learned destination))
    (other : UInt16) :
    Rises ((world.states other).learned destination)
      (((world.act node result).states other).learned destination) := by
  by_cases hother : other = node
  · subst hother
    rw [World.act_states_self]
    exact hrises
  · rw [World.act_states_other _ _ hother]
    exact .refl _

/-- While a node acts, the next hop of a route of which nothing new was learned
stays ahead. -/
theorem Fresh.hop_act (hfresh : Fresh world) {node : UInt16}
    {result : AodvRouting × Effects UInt16 Message Report}
    (hrises : ∀ destination, destination ≠ node →
      Rises ((world.states node).learned destination) (result.1.learned destination))
    {other destination : UInt16} {value : RoutingTableValue} (hne : destination ≠ other)
    (hvalue : (world.states other).routing_table_.find destination = some value)
    (hsame : ((world.act node result).states other).learned destination =
      (world.states other).learned destination) :
    value.next_hop.toUInt16 = destination ∨
      ∃ known, ((world.act node result).states other).learned destination = some known ∧
        Ahead (((world.act node result).states value.next_hop.toUInt16).learned destination)
          known := by
  rcases hfresh.hops other destination value hne hvalue with hend | ⟨known, hknown, hahead⟩
  · exact .inl hend
  · by_cases hdestination : destination = node
    · -- what the destination itself has learned does not matter
      by_cases hend : value.next_hop.toUInt16 = destination
      · exact .inl hend
      · refine .inr ⟨known, hsame.trans hknown, ?_⟩
        rw [World.act_states_other _ _ (by rwa [← hdestination])]
        exact hahead
    · exact .inr ⟨known, hsame.trans hknown,
        hahead.rises (rises_act (hrises destination hdestination) _)⟩

/-- What a handler may do: the node learns of no worse origins of other nodes, a
next hop is kept together with what was learned or leads to a node that is ahead,
and the node is ahead of what it passes on. -/
theorem Fresh.act (hfresh : Fresh world) {node : UInt16}
    {result : AodvRouting × Effects UInt16 Message Report}
    (hkeys : KeysUnique result.1)
    (hrises : ∀ destination, destination ≠ node →
      Rises ((world.states node).learned destination) (result.1.learned destination))
    (hhops : ∀ destination value, destination ≠ node →
      result.1.routing_table_.find destination = some value →
        (∃ old, (world.states node).routing_table_.find destination = some old ∧
            old.next_hop = value.next_hop ∧
            result.1.learned destination = (world.states node).learned destination) ∨
          value.next_hop.toUInt16 = destination ∨
          ∃ known, result.1.learned destination = some known ∧
            Ahead ((world.states value.next_hop.toUInt16).learned destination) known)
    (hsends : ∀ receiver frame, (receiver, frame) ∈ result.2.sends → ∀ message,
      frame.discovery = some message →
        node = message.source ∨ Ahead (result.1.learned message.source) message.origin) :
    Fresh (world.act node result) := by
  constructor
  · intro other
    by_cases hother : other = node
    · subst hother
      rw [World.act_states_self]
      exact hkeys
    · rw [World.act_states_other _ _ hother]
      exact hfresh.keys other
  · intro packet hpacket message hframe
    rcases World.mem_act_sent.1 hpacket with hold | ⟨hsender, hsend⟩
    · rcases hfresh.air packet hold message hframe with hsource | hahead
      · exact .inl hsource
      · by_cases hsource : message.source = node
        · by_cases hsame : packet.sender = message.source
          · exact .inl hsame
          · rw [World.act_states_other _ _ (by rwa [← hsource])]
            exact .inr hahead
        · exact .inr (hahead.rises (rises_act (hrises _ hsource) _))
    · rw [hsender, World.act_states_self]
      exact hsends _ _ hsend message hframe
  · intro other destination value hne hvalue
    by_cases hother : other = node
    · subst hother
      have hself : (world.act other result).states other = result.1 :=
        World.act_states_self _ _ _
      rw [hself] at hvalue
      rcases hhops destination value hne hvalue with
        ⟨old, hold, hsame, hlearned⟩ | hend | ⟨known, hknown, hahead⟩
      · rw [← hsame]
        exact hfresh.hop_act hrises hne hold (by rw [hself]; exact hlearned)
      · exact .inl hend
      · exact .inr ⟨known, by rw [hself]; exact hknown,
          hahead.rises (rises_act (hrises _ hne) _)⟩
    · have hsame : (world.act node result).states other = world.states other :=
        World.act_states_other _ _ hother
      rw [hsame] at hvalue
      exact hfresh.hop_act hrises hne hvalue (by rw [hsame])

theorem Fresh.act_left (hfresh : Fresh world) {node : UInt16}
    {result : AodvRouting × Effects UInt16 Message Report}
    (hkept : HopsKept node (fun _ => False) (world.states node) result.1)
    (hlearned : result.1.learned = (world.states node).learned)
    (hsends : ∀ receiver frame, (receiver, frame) ∈ result.2.sends → ∀ message,
      frame.discovery = some message →
        node = message.source ∨
          Ahead ((world.states node).learned message.source) message.origin) :
    Fresh (world.act node result) := by
  obtain ⟨hkeys, hhops⟩ := hkept (hfresh.keys node)
  apply hfresh.act hkeys
  · intro destination _
    rw [hlearned]
    exact .refl _
  · intro destination value hne hvalue
    obtain ⟨old, hold, hsame⟩ := hhops destination value hne not_false hvalue
    exact .inl ⟨old, hold, hsame, by rw [hlearned]⟩
  · rw [hlearned]
    exact hsends

theorem Fresh.act_taken (hfresh : Fresh world) {node sender : UInt16}
    {message : RouteDiscoveryMessage} {result : AodvRouting × Effects UInt16 Message Report}
    (hair : sender = message.source ∨
      Ahead ((world.states sender).learned message.source) message.origin)
    (htakenFresh : takenFresh node sender message (world.states node) = true)
    (hlearned : result.1.learned = Function.update (world.states node).learned message.source
      (some message.origin))
    (hkept : HopsKept node (· = message.source) (world.states node) result.1)
    (hhop : KeysUnique (world.states node) → message.source ≠ node →
      ∀ value, result.1.routing_table_.find message.source = some value →
        value.next_hop = sender.toUInt8)
    (hsends : ∀ receiver frame, (receiver, frame) ∈ result.2.sends → ∀ out,
      frame.discovery = some out → node = out.source ∨
        out.source = message.source ∧ out.origin = message.origin.passedOn) :
    Fresh (world.act node result) := by
  obtain ⟨hkeys, hhops⟩ := hkept (hfresh.keys node)
  have hguard : message.source ≠ node →
      sender.toNat < 256 ∧ current message (world.states node) = true := by
    intro hne
    simpa [takenFresh, hne] using htakenFresh
  apply hfresh.act hkeys
  · intro destination hne
    rw [hlearned]
    by_cases hdestination : destination = message.source
    · subst hdestination
      rw [Function.update_self]
      intro known hknown
      have hcurrent := (hguard hne).2
      simp only [current, hknown, decide_eq_true_eq] at hcurrent
      exact ⟨_, rfl, hcurrent⟩
    · rw [Function.update_of_ne hdestination]
      exact .refl _
  · intro destination value hne hvalue
    by_cases hdestination : destination = message.source
    · right
      subst hdestination
      have hnext : value.next_hop.toUInt16 = sender := by
        rw [hhop (hfresh.keys node) hne value hvalue]
        apply UInt16.toNat_inj.1
        rw [UInt8.toNat_toUInt16, UInt16.toNat_toUInt8]
        exact Nat.mod_eq_of_lt (hguard hne).1
      rw [hnext]
      rcases hair with hsource | hahead
      · exact .inl hsource
      · exact .inr ⟨message.origin, by rw [hlearned, Function.update_self], hahead⟩
    · obtain ⟨old, hold, hsame⟩ := hhops destination value hne hdestination hvalue
      refine .inl ⟨old, hold, hsame, ?_⟩
      rw [hlearned, Function.update_of_ne hdestination]
  · intro receiver frame hsend out hframe
    rcases hsends receiver frame hsend out hframe with hown | ⟨hsource, horigin⟩
    · exact .inl hown
    · refine .inr ⟨message.origin, ?_, ?_⟩
      · rw [hlearned, hsource, Function.update_self]
      · rw [horigin]
        exact (Origin.AtLeast.refl message.origin).better_passedOn

/-- What a node sends is its own, or it passes on what it received: a new request,
or a reply for another node. -/
theorem sent_cases {node : UInt16} {state : AodvRouting} {out : RouteDiscoveryMessage}
    {received : Option Message} {frame : Message} {reports : List Report}
    (hsent : AodvRouting.Sent node state received reports frame)
    (hframe : frame.discovery = some out) :
    node = out.source ∨ ∃ incoming,
      (out.source = incoming.source ∧ out.origin = incoming.origin.passedOn) ∧
        ((received = some (.rreq incoming) ∧ state.remembers incoming = false) ∨
          (received = some (.rrep incoming) ∧ incoming.destination ≠ node)) := by
  cases hsent with
  | data => simp [Message.discovery] at hframe
  | discovery message hsource =>
      obtain rfl : message = out := Option.some.inj hframe
      exact .inl hsource.symm
  | forwarded earlier message hearlier hnew hsource _ horigin =>
      obtain rfl : message = out := Option.some.inj hframe
      exact .inr ⟨earlier, ⟨hsource, horigin⟩, .inl ⟨hearlier, hnew⟩⟩
  | reply earlier message hearlier hsource =>
      obtain rfl : message = out := Option.some.inj hframe
      exact .inl hsource.symm
  | passedOn earlier message hearlier hother hsource _ _ horigin =>
      obtain rfl : message = out := Option.some.inj hframe
      exact .inr ⟨earlier, ⟨hsource, horigin⟩, .inr ⟨hearlier, hother⟩⟩

section Receive

variable {node sender : UInt16} {message : RouteDiscoveryMessage} {receiver : Option UInt16}

/-- A handler that takes a route if `took`, and otherwise passes on only what it is ahead of. -/
theorem Fresh.act_routed (hfresh : Fresh world) {took : Bool} {received : Message}
    {result : AodvRouting × Effects UInt16 Message Report}
    (hpacket : ⟨sender, receiver, received⟩ ∈ world.sent)
    (hmessage : received.discovery = some message)
    (hrouted : Routed node sender message took (world.states node) result.1)
    (htakenFresh : took = true → takenFresh node sender message (world.states node) = true)
    (hsends : ∀ receiver frame, (receiver, frame) ∈ result.2.sends →
      ∀ out, frame.discovery = some out → node = out.source ∨
        (out.source = message.source ∧ out.origin = message.origin.passedOn) ∧
          (took = false → node = message.source ∨
            Ahead ((world.states node).learned message.source) message.origin.passedOn)) :
    Fresh (world.act node result) := by
  cases hrouted with
  | left htook hlearned hkept =>
      apply hfresh.act_left hkept hlearned
      intro receiver frame hsend out hframe
      rcases hsends receiver frame hsend out hframe with hown | ⟨⟨hsource, horigin⟩, hahead⟩
      · exact .inl hown
      · rw [hsource, horigin]
        exact hahead htook
  | taken htook hlearned hkept hhop =>
      apply hfresh.act_taken (hfresh.air _ hpacket message hmessage) (htakenFresh htook) hlearned
        hkept hhop
      intro receiver frame hsend out hframe
      exact (hsends receiver frame hsend out hframe).imp_right And.left

theorem Fresh.receiveRreq (hfresh : Fresh world)
    (hpacket : ⟨sender, receiver, .rreq message⟩ ∈ world.sent)
    (hhandles : (world.states node).handles node sender = true)
    (htakenFresh : (world.states node).remembers message = false →
      takenFresh node sender message (world.states node) = true) :
    Fresh (world.act node ((world.states node).receive config node sender (.rreq message))) := by
  have hrouted : Routed node sender message (!(world.states node).remembers message)
      (world.states node)
      ((world.states node).receive config node sender (.rreq message)).1 := by
    rw [AodvRouting.receive, if_pos hhandles]
    exact routed_procRreq
  apply hfresh.act_routed hpacket rfl hrouted (fun htook => htakenFresh (by simpa using htook))
  intro receiver frame hsend out hframe
  have hsent : AodvRouting.Sent node (world.states node) (some (.rreq message)) [] frame :=
    (AodvRouting.sent_receive hsend).2
  rcases sent_cases hsent hframe with
    hown | ⟨incoming, hpassed, ⟨hreceived, hnew⟩ | ⟨hreceived, -⟩⟩
  · exact .inl hown
  · obtain rfl : message = incoming := by simpa using hreceived
    exact .inr ⟨hpassed, fun htook => by simp [hnew] at htook⟩
  · simp at hreceived

theorem Fresh.receiveRrep (hfresh : Fresh world)
    (hpacket : ⟨sender, receiver, .rrep message⟩ ∈ world.sent)
    (hhandles : (world.states node).handles node sender = true)
    (hasked : message.destination = node ∨
      (world.states node).routeExists message.destination = true)
    (htakenFresh : (world.states node).takesReply config message = true →
      takenFresh node sender message (world.states node) = true)
    (hleftFresh : (world.states node).takesReply config message = false →
      leftFresh node message (world.states node) = true) :
    Fresh (world.act node ((world.states node).receive config node sender (.rrep message))) := by
  have hrouted : Routed node sender message ((world.states node).takesReply config message)
      (world.states node)
      ((world.states node).receive config node sender (.rrep message)).1 := by
    rw [AodvRouting.receive, if_pos hhandles]
    exact routed_procRrep hasked
  apply hfresh.act_routed hpacket rfl hrouted htakenFresh
  intro receiver frame hsend out hframe
  have hsent : AodvRouting.Sent node (world.states node) (some (.rrep message)) [] frame :=
    (AodvRouting.sent_receive hsend).2
  rcases sent_cases hsent hframe with
    hown | ⟨incoming, hpassed, ⟨hreceived, -⟩ | ⟨hreceived, hother⟩⟩
  · exact .inl hown
  · simp at hreceived
  · obtain rfl : message = incoming := by simpa using hreceived
    refine .inr ⟨hpassed, fun htook => ?_⟩
    -- the reply is passed on along a route that is not its own
    have hguard := hleftFresh htook
    simp only [leftFresh, Bool.or_eq_true, beq_iff_eq] at hguard
    rcases hguard with (hself | hdestination) | hupToDate
    · exact .inl hself.symm
    · exact absurd hdestination hother
    · right
      unfold upToDate at hupToDate
      split at hupToDate
      · simp at hupToDate
      · rename_i known hknown
        exact ⟨known, hknown, (of_decide_eq_true hupToDate).better_passedOn⟩

end Receive

theorem Fresh.step {hears : UInt16 → UInt16 → Prop} [DecidableRel hears] {op : Op UInt16 Input}
    (hfresh : Fresh world)
    (hstep : Guarded (fun world op => routesFresh config world op = true)
      (stepOf (perform (aodvProtocol config) hears)) world op next) : Fresh next := by
  obtain ⟨hguard, hperform⟩ := hstep
  rcases perform_cases hperform with
    ⟨node, input, result, rfl, hresult, rfl⟩ |
      ⟨node, position, packet, rfl, hposition, hpacket, -, rfl⟩ | ⟨position, -, rfl⟩
  · obtain ⟨hkept, hlearned⟩ := hopsKept_input hresult
    apply hfresh.act_left hkept hlearned
    intro receiver frame hsend out hframe
    -- what is sent without a frame received has the node as its source
    refine (sent_cases (AodvRouting.sent_input hresult hsend) hframe).imp_right ?_
    rintro ⟨incoming, -, ⟨hreceived, -⟩ | ⟨hreceived, -⟩⟩ <;> simp at hreceived
  · obtain ⟨sender, receiver, frame⟩ := packet
    show Fresh (world.act node ((world.states node).receive config node sender frame))
    by_cases hhandles : (world.states node).handles node sender = true
    · cases frame with
      | rreq message =>
          apply hfresh.receiveRreq hpacket hhandles
          intro hnew
          simpa [routesFresh, hposition, hhandles, hnew] using hguard
      | rrep message =>
          simp only [routesFresh, hposition, hhandles, Bool.not_true, Bool.false_or,
            Bool.and_eq_true, Bool.or_eq_true, beq_iff_eq] at hguard
          obtain ⟨hasked, hroute⟩ := hguard
          apply hfresh.receiveRrep hpacket hhandles hasked
          · intro htakes
            rwa [if_pos htakes] at hroute
          · intro hleaves
            rwa [if_neg (by simp [hleaves])] at hroute
      | data message =>
          obtain ⟨hkept, hlearned⟩ :
              HopsKept node (fun _ => False) (world.states node)
                  ((world.states node).receive config node sender (.data message)).1 ∧
                ((world.states node).receive config node sender (.data message)).1.learned =
                  (world.states node).learned := by
            rw [AodvRouting.receive, if_pos hhandles]
            split
            · exact hopsKept_procData
            · exact ⟨HopsKept.of_table rfl, rfl⟩
          apply hfresh.act_left hkept hlearned
          intro receiver frame hsend out hframe
          have hsent : AodvRouting.Sent node (world.states node) (some (.data message)) [] frame :=
            (AodvRouting.sent_receive hsend).2
          refine (sent_cases hsent hframe).imp_right ?_
          rintro ⟨incoming, -, ⟨hreceived, -⟩ | ⟨hreceived, -⟩⟩ <;> simp at hreceived
    · have hnothing : (world.states node).receive config node sender frame =
          (world.states node, .none) := by
        unfold AodvRouting.receive
        rw [if_neg hhandles]
      rw [hnothing]
      apply hfresh.act_left (HopsKept.of_table rfl) rfl
      intro receiver frame hsend
      simp at hsend
  · exact ⟨hfresh.keys, fun packet hpacket => hfresh.air packet (World.mem_of_mem_lose hpacket),
      hfresh.hops⟩

theorem Fresh.loopFree (hfresh : Fresh world) : LoopFree world := by
  intro destination node hcycle
  have hbetter : ∀ first last, Relation.TransGen (HopsTo world destination) first last →
      ∃ known, (world.states first).learned destination = some known ∧
        Ahead ((world.states last).learned destination) known := by
    intro first last hhops
    have hhop : ∀ first last, HopsTo world destination first last →
        ∃ known, (world.states first).learned destination = some known ∧
          Ahead ((world.states last).learned destination) known := by
      rintro first last ⟨hfirst, hlast, value, hvalue, rfl⟩
      exact (hfresh.hops first destination value (Ne.symm hfirst) hvalue).resolve_left hlast
    induction hhops with
    | single hsingle => exact hhop _ _ hsingle
    | tail _ hlast ih =>
        obtain ⟨known, hknown, newer, hnewer, hfirst⟩ := ih
        obtain ⟨middle, hmiddle, last, hlastKnown, hsecond⟩ := hhop _ _ hlast
        obtain rfl := Option.some.inj (hnewer.symm.trans hmiddle)
        exact ⟨known, hknown, last, hlastKnown, hsecond.trans hfirst⟩
  obtain ⟨known, hknown, newer, hnewer, hcircle⟩ := hbetter node node hcycle
  obtain rfl := Option.some.inj (hknown.symm.trans hnewer)
  exact Origin.Better.irrefl known hcircle

/-- In every run in which nodes take and pass on fresh routes only, there is no
loop. -/
theorem routes_loop_free {hears : UInt16 → UInt16 → Prop} [DecidableRel hears]
    {operations : List (Op UInt16 Input)}
    (hrun : Run (Guarded (fun world op => routesFresh config world op = true)
      (stepOf (perform (aodvProtocol config) hears))) (.initial (aodvProtocol config))
      operations world) : LoopFree world := by
  have hstep : ∀ state op after, Fresh state →
      Guarded (fun world op => routesFresh config world op = true)
        (stepOf (perform (aodvProtocol config) hears)) state op after → Fresh after :=
    fun _ _ _ => Fresh.step
  apply (hrun.invariant hstep ?_).loopFree
  constructor
  · intro node
    exact List.nodup_nil
  · intro packet hpacket
    simp [World.initial] at hpacket
  · intro node destination value _ hvalue
    simp [World.initial, aodvProtocol, construct] at hvalue

/-! ### An old request -/

/-- Node 1 starts two discoveries.  Node 2 has the first request from node 1 and
the second one from node 3, which has it from node 1. -/
def oldRequestOps : List (Op UInt16 Input) :=
  [.input 1 .enableRadio, .input 2 .enableRadio, .input 3 .enableRadio,
    .input 1 (.send 9), .deliver 2 0, .input 1 (.send 9), .deliver 3 2, .deliver 2 3]

/-- Then node 3 receives the first request from node 2. -/
def loopOps : List (Op UInt16 Input) :=
  oldRequestOps ++ [.deliver 3 1]

theorem routes_loop_free_sample :
    ∃ world, Run (Guarded (fun world op => routesFresh (sampleConfig .aodv) world op = true)
        (stepOf (perform (aodvProtocol (sampleConfig .aodv)) Apart)))
        (.initial (aodvProtocol (sampleConfig .aodv))) oldRequestOps world ∧
      world.sent.length = 5 ∧ LoopFree world := by
  have hfold : (oldRequestOps.foldlM (fun world op =>
      if routesFresh (sampleConfig .aodv) world op then
        perform (aodvProtocol (sampleConfig .aodv)) Apart world op else none)
      (.initial (aodvProtocol (sampleConfig .aodv)))).map (fun world => world.sent.length) =
        some 5 := by decide +kernel
  obtain ⟨world, hworld, hlength⟩ := Option.map_eq_some_iff.1 hfold
  have hrun := Run.of_foldlM_guarded hworld
  exact ⟨world, hrun, hlength, routes_loop_free hrun⟩

theorem not_routes_loop_free :
    ¬ ∃ variant, ∀ (operations : List (Op UInt16 Input))
      (world : World UInt16 AodvRouting Message Report),
      Run (stepOf (perform (aodvProtocol (sampleConfig variant)) Apart))
        (.initial (aodvProtocol (sampleConfig variant))) operations world → LoopFree world := by
  rintro ⟨variant, hclaim⟩
  have hsteps : (loopOps.foldlM (perform (aodvProtocol (sampleConfig variant)) Apart)
      (.initial (aodvProtocol (sampleConfig variant)))).isSome = true := by
    cases variant with
    | aodv => decide +kernel
    | dymo => decide +kernel
  have hroute : ∀ node, node = 2 ∨ node = 3 →
      (((sampleWorld variant loopOps).states node).routing_table_.find 1).map
        RoutingTableValue.next_hop = some (if node = 2 then 3 else 2) := by
    rintro node (rfl | rfl)
    · cases variant with
      | aodv => decide +kernel
      | dymo => decide +kernel
    · cases variant with
      | aodv => decide +kernel
      | dymo => decide +kernel
  obtain ⟨first, hfirst, hfirstHop⟩ := Option.map_eq_some_iff.1 (hroute 2 (.inl rfl))
  obtain ⟨second, hsecond, hsecondHop⟩ := Option.map_eq_some_iff.1 (hroute 3 (.inr rfl))
  have hloop := hclaim _ _ (sampleWorld_run hsteps) 1 2
  apply hloop
  apply Relation.TransGen.tail
  · exact .single ⟨by decide, (by decide : (3 : UInt16) ≠ 1), first, hfirst, by rw [hfirstHop]; decide⟩
  · exact ⟨by decide, by decide, second, hsecond, by rw [hsecondHop]; decide⟩

end Wiselib.Routing.Aodv
