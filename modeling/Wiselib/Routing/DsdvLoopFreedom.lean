import Wiselib.Routing.DsdvRouting

/-!
# Routes of DSDV are free of loops

The invariant of DSDV routing and its consequence for whole runs.  `Backed`
says that a path leads to a destination and that every node on it holds the
destination within the hops that remain.  The entries in tables and in
broadcasts claim such a path (`Vouches`), and the rules of `Network.Hearsay`
carry the claim through every run.
-/

namespace Wiselib.Routing.Dsdv

open Network

variable {Node : Type*} [DecidableEq Node]

/-! ## Paths that tables agree on -/

/-- Every node of the path but the last hears the next one and holds the
destination within the hops that remain, and the last is the destination. -/
def Backed (hears : Node → Node → Prop) (states : Node → DsdvRouting Node) (destination : Node) :
    List Node → Prop
  | [] => False
  | [last] => last = destination
  | place :: next :: rest =>
      hears place next ∧
      (∃ value, (states place).routing_table_.find destination = some value ∧
        value.hops.toNat ≤ rest.length + 1) ∧
      Backed hears states destination (next :: rest)

variable {hears : Node → Node → Prop} {states later : Node → DsdvRouting Node}
  {destination : Node}

theorem Backed.isChain {path : List Node} (hpath : Backed hears states destination path) :
    path.IsChain hears := by
  induction path with
  | nil => exact List.isChain_nil
  | cons place path ih =>
      cases path with
      | nil => exact List.isChain_singleton _
      | cons next rest => exact List.isChain_cons_cons.2 ⟨hpath.1, ih hpath.2.2⟩

theorem Backed.improves {path : List Node} (hpath : Backed hears states destination path)
    (hlater : ∀ node, Improves (states node).routing_table_ (later node).routing_table_) :
    Backed hears later destination path := by
  induction path with
  | nil => exact hpath
  | cons place path ih =>
      cases path with
      | nil => exact hpath
      | cons next rest =>
          obtain ⟨hhears, ⟨value, hfound, hle⟩, hrest⟩ := hpath
          obtain ⟨other, hother, hother_le⟩ := hlater place destination value hfound
          exact ⟨hhears, ⟨other, hother, hother_le.trans hle⟩, ih hrest⟩

/-- A node on a path is its end, or it holds the destination with fewer hops
than the path has nodes. -/
theorem Backed.holds {path : List Node} {node : Node}
    (hpath : Backed hears states destination path) (hnode : node ∈ path) :
    node = destination ∨
      ∃ value, (states node).routing_table_.find destination = some value ∧
        value.hops.toNat < path.length := by
  induction path with
  | nil => exact hpath.elim
  | cons place path ih =>
      cases path with
      | nil => exact .inl ((List.mem_singleton.1 hnode).trans hpath)
      | cons next rest =>
          obtain ⟨-, ⟨value, hfound, hle⟩, hrest⟩ := hpath
          rcases List.mem_cons.1 hnode with rfl | hlater
          · refine .inr ⟨value, hfound, ?_⟩
            simp only [List.length_cons]
            omega
          · rcases ih hrest hlater with hend | ⟨other, hother, hlt⟩
            · exact .inl hend
            · exact .inr ⟨other, hother, hlt.trans (Nat.lt_succ_self _)⟩

/-! ## The claims of entries -/

/-- What an entry says of the node whose table it is in. -/
structure Claim (Node : Type*) where
  destination : Node
  next_hop : Node
  hops : ℕ

/-- The claims of a message: one for each entry of a broadcast. -/
def Makes (config : Config Node) : Message Node → Claim Node → Prop
  | .broadcast message, claim => ∃ entry ∈ receivedEntries config.ids config.maxEntries message,
      claim = ⟨entry.1, entry.2.next_hop, entry.2.hops.toNat⟩
  | .routing _ _ _, _ => False

/-- The claims of a table. -/
def Holds (_node : Node) (state : DsdvRouting Node) (claim : Claim Node) : Prop :=
  ∃ value, state.routing_table_.find claim.destination = some value ∧
    claim.next_hop = value.next_hop ∧ claim.hops = value.hops.toNat

/-- There is a path of the claimed length over the next hop, without repetition,
that the tables agree on. -/
def Vouches (hears : Node → Node → Prop) (states : Node → DsdvRouting Node) (node : Node)
    (claim : Claim Node) : Prop :=
  ∃ rest, (node :: claim.next_hop :: rest).Nodup ∧
    Backed hears states claim.destination (node :: claim.next_hop :: rest) ∧
    claim.hops = rest.length + 1

/-- What is true of every table: it has no key twice and no entry for the node
itself, hop counts are positive, and it is empty before the node is enabled. -/
structure Sound (node : Node) (state : DsdvRouting Node) : Prop where
  nodup : (state.routing_table_.map Prod.fst).Nodup
  no_self : state.routing_table_.find node = none
  positive : ∀ destination value, state.routing_table_.find destination = some value →
    0 < value.hops.toNat
  disabled : state.enabled = false → state.routing_table_ = []

/-- The table of a node improves. -/
def Grows (state later : DsdvRouting Node) : Prop :=
  Improves state.routing_table_ later.routing_table_

theorem hops_lt_of_vouches {node : Node} {claim : Claim Node}
    (hpaths : ∀ path : List Node, path.IsChain hears → path.Nodup → path.length ≤ 255)
    (hvouches : Vouches hears states node claim) : claim.hops < 255 := by
  obtain ⟨rest, hnodup, hbacked, hhops⟩ := hvouches
  have hlength := hpaths _ hbacked.isChain hnodup
  simp only [List.length_cons] at hlength
  omega

/-! ## What a broadcast does to a table -/

section Receive

variable {config : Config Node} {node sender : Node} {message : BroadcastMessage}

theorem grows_receiveBroadcast {state : DsdvRouting Node} (hsound : Sound node state) :
    Grows state (state.receiveBroadcast config node sender message) := by
  have hneighbour : Improves state.routing_table_
      (state.routing_table_.assign config.tableSize sender ⟨sender, 1⟩) := by
    apply improves_assign
    intro current hcurrent
    exact hsound.positive sender current hcurrent
  exact hneighbour.trans (improves_updateRoutingTable _ _)

/-- What a table holds after a broadcast: what it held before, the sender as a
neighbour, or an entry of the broadcast that is closer through the sender. -/
theorem find_receiveBroadcast {state : DsdvRouting Node} (hsound : Sound node state)
    {value : RoutingTableValue Node}
    (hfound : (state.receiveBroadcast config node sender message).routing_table_.find destination =
      some value) :
    state.routing_table_.find destination = some value ∨
      (destination = sender ∧ value = ⟨sender, 1⟩) ∨
      ∃ entry ∈ receivedEntries config.ids config.maxEntries message,
        destination = entry.1 ∧ destination ≠ node ∧ value = ⟨sender, entry.2.hops + 1⟩ ∧
        ∀ current, state.routing_table_.find destination = some current →
          entry.2.hops.toNat + 1 < current.hops.toNat := by
  rcases find_updateRoutingTable hfound with hfirst | ⟨entry, hentry, hdestination, hid, hvalue, hmore⟩
  · rcases RoutingTable.find_assign_cases hfirst with hold | hneighbour
    · exact .inl hold
    · exact .inr (.inl hneighbour)
  · refine .inr (.inr ⟨entry, hentry, hdestination, hid, hvalue, ?_⟩)
    intro current hcurrent
    have hneighbour : Improves state.routing_table_
        (state.routing_table_.assign config.tableSize sender ⟨sender, 1⟩) := by
      apply improves_assign
      intro current hcurrent
      exact hsound.positive sender current hcurrent
    obtain ⟨other, hother, hle⟩ := hneighbour destination current hcurrent
    exact (hmore other hother).trans_le hle

/-- A node that takes over an entry is not on the path of the entry, so the path
through the sender has no repetition either. -/
theorem vouches_adopted
    (hpaths : ∀ path : List Node, path.IsChain hears → path.Nodup → path.length ≤ 255)
    {next : DsdvRouting Node} {entry : Entry Node} (hhears : hears node sender)
    (hentry : Vouches hears states sender ⟨entry.1, entry.2.next_hop, entry.2.hops.toNat⟩)
    (hgrows : Grows (states node) next) (hid : entry.1 ≠ node)
    (hfound : next.routing_table_.find entry.1 = some ⟨sender, entry.2.hops + 1⟩)
    (hmore : ∀ current, (states node).routing_table_.find entry.1 = some current →
      entry.2.hops.toNat + 1 < current.hops.toNat) :
    Vouches hears (Function.update states node next) node
      ⟨entry.1, sender, (entry.2.hops + 1).toNat⟩ := by
  have hhops := hops_lt_of_vouches hpaths hentry
  obtain ⟨rest, hnodup, hbacked, hlength⟩ := hentry
  have hlater : ∀ other, Improves (states other).routing_table_
      (Function.update states node next other).routing_table_ := by
    intro other
    by_cases hother : other = node
    · subst hother
      rw [Function.update_self]
      exact hgrows
    · rw [Function.update_of_ne hother]
      exact Improves.refl _
  have hnotMem : node ∉ sender :: entry.2.next_hop :: rest := by
    intro hmem
    rcases hbacked.holds hmem with hend | ⟨current, hcurrent, hlt⟩
    · exact hid hend.symm
    · have hlt_current := hmore current hcurrent
      simp only [List.length_cons] at hlt hlength
      omega
  refine ⟨entry.2.next_hop :: rest, List.nodup_cons.2 ⟨hnotMem, hnodup⟩, ?_, ?_⟩
  · refine ⟨hhears, ⟨⟨sender, entry.2.hops + 1⟩, ?_, ?_⟩, hbacked.improves hlater⟩
    · rw [Function.update_self]
      exact hfound
    · show (entry.2.hops + 1).toNat ≤ (entry.2.next_hop :: rest).length + 1
      rw [toNat_add_one hhops, List.length_cons, ← hlength]
  · show (entry.2.hops + 1).toNat = (entry.2.next_hop :: rest).length + 1
    rw [toNat_add_one hhops, List.length_cons, ← hlength]

theorem vouches_neighbour {next : DsdvRouting Node} (hhears : hears node sender)
    (hne : node ≠ sender) (hfound : next.routing_table_.find sender = some ⟨sender, 1⟩) :
    Vouches hears (Function.update states node next) node ⟨sender, sender, 1⟩ := by
  refine ⟨[], by simpa using hne, ⟨hhears, ⟨⟨sender, 1⟩, ?_, le_rfl⟩, rfl⟩, rfl⟩
  rw [Function.update_self]
  exact hfound

end Receive

/-- What `receive` does to the state of a node: nothing, or it takes in a
broadcast of another node. -/
theorem receive_cases (config : Config Node) (state : DsdvRouting Node) (node sender : Node)
    (message : Message Node) :
    (state.receive config node sender message).1 = state ∨
      ∃ bytes, message = .broadcast bytes ∧ sender ≠ node ∧ state.enabled = true ∧
        (state.receive config node sender message).1 =
          state.receiveBroadcast config node sender bytes := by
  unfold DsdvRouting.receive
  split
  · exact .inl rfl
  · rename_i hready
    rw [not_or] at hready
    cases message with
    | broadcast bytes => exact .inr ⟨bytes, rfl, hready.2, by simpa using hready.1, rfl⟩
    | routing source destination payload =>
        dsimp only
        split
        · exact .inl rfl
        · exact .inl rfl

theorem forward_sends {config : Config Node} {state : DsdvRouting Node}
    {source target : Node} {payload : List UInt8} {receiver : Option Node}
    {bytes : BroadcastMessage} :
    (receiver, Message.broadcast bytes) ∉ (state.forward config source target payload).sends := by
  unfold DsdvRouting.forward
  split
  · simp
  · split <;> simp

/-- What an input does to the state of a node: nothing, or it empties the table
of a node that was not enabled. -/
theorem input_cases {config : Config Node} {state : DsdvRouting Node} {node : Node}
    {input : Input Node} {result : DsdvRouting Node × Effects Node (Message Node) (Delivery Node)}
    (hinput : state.input config node input = some result) :
    (result.1 = state ∧ ∀ receiver bytes entry,
        (receiver, Message.broadcast bytes) ∈ result.2.sends →
        entry ∈ receivedEntries config.ids config.maxEntries bytes →
        entry ∈ state.routing_table_) ∨
      (state.enabled = false ∧ result = (⟨[], true⟩, .none)) := by
  cases input with
  | init =>
      simp only [DsdvRouting.input] at hinput
      split at hinput
      · simp at hinput
      · rename_i henabled
        exact .inr ⟨by simpa using henabled, (Option.some.inj hinput).symm⟩
  | send target data =>
      have hresult : (state, state.forward config node target data) = result :=
        Option.some.inj hinput
      subst hresult
      refine .inl ⟨rfl, ?_⟩
      intro receiver bytes entry hsend
      exact absurd hsend forward_sends
  | timerElapsed =>
      simp only [DsdvRouting.input] at hinput
      split at hinput
      · have hresult : (state, state.timerElapsed config) = result := Option.some.inj hinput
        subst hresult
        refine .inl ⟨rfl, ?_⟩
        intro receiver bytes entry hsend hentry
        exact timerElapsed_entries hsend hentry
      · simp at hinput

/-! ## The invariant -/

theorem sound_receiveBroadcast {config : Config Node} {state : DsdvRouting Node}
    {node sender : Node} {bytes : BroadcastMessage}
    (hpaths : ∀ path : List Node, path.IsChain hears → path.Nodup → path.length ≤ 255)
    (hsound : Sound node state) (hne : sender ≠ node) (henabled : state.enabled = true)
    (hheard : Heard hears (Makes config) (Vouches hears) states node sender (.broadcast bytes)) :
    Sound node (state.receiveBroadcast config node sender bytes) where
  nodup := nodup_updateRoutingTable (RoutingTable.nodup_assign hsound.nodup)
  no_self := by
    rw [Option.eq_none_iff_forall_ne_some]
    intro value hfound
    rcases find_receiveBroadcast hsound hfound with hold | ⟨hself, -⟩ | ⟨entry, -, -, hid, -⟩
    · rw [hsound.no_self] at hold
      simp at hold
    · exact hne hself.symm
    · exact hid rfl
  positive := by
    intro destination value hfound
    rcases find_receiveBroadcast hsound hfound with
      hold | ⟨-, rfl⟩ | ⟨entry, hentry, rfl, -, rfl, -⟩
    · exact hsound.positive destination value hold
    · exact Nat.one_pos
    · have hlt := hops_lt_of_vouches hpaths (hheard.2 _ ⟨entry, hentry, rfl⟩)
      show 0 < (entry.2.hops + 1).toNat
      rw [toNat_add_one hlt]
      exact Nat.succ_pos _
  disabled := by
    intro hdisabled
    have henabled' : (state.receiveBroadcast config node sender bytes).enabled = true := henabled
    rw [henabled'] at hdisabled
    simp at hdisabled

theorem vouches_receiveBroadcast {config : Config Node} {node sender : Node}
    {bytes : BroadcastMessage} {value : RoutingTableValue Node}
    (hpaths : ∀ path : List Node, path.IsChain hears → path.Nodup → path.length ≤ 255)
    (hsound : Sound node (states node))
    (hheard : Heard hears (Makes config) (Vouches hears) states node sender (.broadcast bytes))
    (hne : sender ≠ node)
    (hfound : ((states node).receiveBroadcast config node sender bytes).routing_table_.find
      destination = some value) :
    (states node).routing_table_.find destination = some value ∨
      Vouches hears (Function.update states node
        ((states node).receiveBroadcast config node sender bytes)) node
        ⟨destination, value.next_hop, value.hops.toNat⟩ := by
  rcases find_receiveBroadcast hsound hfound with
    hold | ⟨rfl, rfl⟩ | ⟨entry, hentry, rfl, hid, rfl, hmore⟩
  · exact .inl hold
  · exact .inr (vouches_neighbour hheard.1 hne.symm hfound)
  · right
    exact vouches_adopted hpaths hheard.1 (hheard.2 _ ⟨entry, hentry, rfl⟩)
      (grows_receiveBroadcast hsound) hid hfound hmore

theorem hearsay_dsdv (config : Config Node)
    (hpaths : ∀ path : List Node, path.IsChain hears → path.Nodup → path.length ≤ 255) :
    Hearsay hears Sound (Makes config) Holds (Vouches hears) (dsdvProtocol config) Grows where
  good_start := by
    intro node
    constructor <;> simp [dsdvProtocol]
  good_input := by
    intro node state input result hsound hinput
    rcases input_cases hinput with ⟨hsame, -⟩ | ⟨-, rfl⟩
    · rw [hsame]
      exact hsound
    · constructor <;> simp
  good_receive := by
    intro states node sender message hsound hheard
    show Sound node ((states node).receive config node sender message).1
    rcases receive_cases config (states node) node sender message with
      hsame | ⟨bytes, rfl, hne, henabled, hnew⟩
    · rw [hsame]
      exact hsound
    · rw [hnew]
      exact sound_receiveBroadcast hpaths hsound hne henabled hheard
  grows_refl := fun state => Improves.refl state.routing_table_
  grows_input := by
    intro node state input result hsound hinput
    rcases input_cases hinput with ⟨hsame, -⟩ | ⟨hdisabled, rfl⟩
    · rw [hsame]
      exact Improves.refl _
    · -- the table was empty before
      intro destination value hfound
      rw [hsound.disabled hdisabled] at hfound
      simp at hfound
  grows_receive := by
    intro states node sender message hsound _
    show Grows (states node) ((states node).receive config node sender message).1
    rcases receive_cases config (states node) node sender message with
      hsame | ⟨bytes, -, -, -, hnew⟩
    · rw [hsame]
      exact Improves.refl _
    · rw [hnew]
      exact grows_receiveBroadcast hsound
  vouches_grows := by
    intro states later node claim hlater hvouches
    obtain ⟨rest, hnodup, hbacked, hhops⟩ := hvouches
    exact ⟨rest, hnodup, hbacked.improves hlater, hhops⟩
  sends_input := by
    intro node state input result receiver message claim hsound hinput hsend hmakes
    cases message with
    | routing source target payload => exact hmakes.elim
    | broadcast bytes =>
        obtain ⟨entry, hentry, rfl⟩ := hmakes
        rcases input_cases hinput with ⟨hsame, hentries⟩ | ⟨-, rfl⟩
        · rw [hsame]
          have hmem := hentries receiver bytes entry hsend hentry
          exact ⟨entry.2, RoutingTable.find_of_mem hsound.nodup hmem, rfl, rfl⟩
        · simp at hsend
  sends_receive := by
    intro node state sender received receiver message claim hsend hmakes
    cases message with
    | routing source target payload => exact hmakes.elim
    | broadcast bytes =>
        have hsend : (receiver, Message.broadcast bytes) ∈
            (state.receive config node sender received).2.sends := hsend
        unfold DsdvRouting.receive at hsend
        split at hsend
        · simp at hsend
        · cases received with
          | broadcast other => simp at hsend
          | routing source target payload =>
              dsimp only at hsend
              split at hsend
              · simp at hsend
              · exact absurd hsend forward_sends
  holds_start := by
    intro node claim hholds
    obtain ⟨value, hfound, -⟩ := hholds
    simp [dsdvProtocol] at hfound
  holds_input := by
    intro states node input result claim _ hinput hholds
    rcases input_cases hinput with ⟨hsame, -⟩ | ⟨-, rfl⟩
    · rw [hsame] at hholds
      exact .inl hholds
    · obtain ⟨value, hfound, -⟩ := hholds
      simp at hfound
  holds_receive := by
    intro states node sender message claim hsound hheard hholds
    have hholds : Holds node ((states node).receive config node sender message).1 claim := hholds
    show _ ∨ Vouches hears (Function.update states node
      ((states node).receive config node sender message).1) node claim
    rcases receive_cases config (states node) node sender message with
      hsame | ⟨bytes, rfl, hne, -, hnew⟩
    · rw [hsame] at hholds
      exact .inl hholds
    · rw [hnew] at hholds ⊢
      obtain ⟨destination, next_hop, hops⟩ := claim
      obtain ⟨value, hfound, hnext, hhops⟩ := hholds
      dsimp only at hfound hnext hhops
      rw [hnext, hhops]
      apply (vouches_receiveBroadcast hpaths hsound hheard hne hfound).imp_left
      intro hold
      exact ⟨value, hold, rfl, rfl⟩

/-! ## Routes in every run -/

/-- In a world, `next` is the next hop of `place` towards the destination. -/
def NextHop (world : World Node (DsdvRouting Node) (Message Node) (Delivery Node))
    (destination place next : Node) : Prop :=
  ∃ value, (world.states place).routing_table_.find destination = some value ∧
    value.next_hop = next

/-- The hops a node holds for a destination, none if it has no entry. -/
def hopsTo (world : World Node (DsdvRouting Node) (Message Node) (Delivery Node))
    (destination place : Node) : ℕ :=
  match (world.states place).routing_table_.find destination with
  | none => 0
  | some value => value.hops.toNat

/-- An entry leads to the destination or to a node that holds it with fewer hops. -/
theorem entry_descends {config : Config Node}
    {world : World Node (DsdvRouting Node) (Message Node) (Delivery Node)}
    (hworld : Vouched Sound (Makes config) Holds (Vouches hears) world) {node : Node}
    {value : RoutingTableValue Node}
    (hfound : (world.states node).routing_table_.find destination = some value) :
    (value.next_hop = destination ∧ value.hops.toNat = 1) ∨
      ∃ other, (world.states value.next_hop).routing_table_.find destination = some other ∧
        other.hops.toNat + 1 ≤ value.hops.toNat := by
  obtain ⟨rest, -, hbacked, hhops⟩ :=
    hworld.own node ⟨destination, value.next_hop, value.hops.toNat⟩ ⟨value, hfound, rfl, rfl⟩
  have hhops : value.hops.toNat = rest.length + 1 := hhops
  cases rest with
  | nil => exact .inl ⟨hbacked.2.2, hhops⟩
  | cons after rest =>
      obtain ⟨-, -, -, ⟨other, hother, hle⟩, -⟩ := hbacked
      refine .inr ⟨other, hother, ?_⟩
      rw [hhops, List.length_cons]
      omega

/-- In every run of a network whose paths are shorter than 255 hops, the next
hop of every entry is its destination, one hop away, or holds the destination
with a hop count that is smaller at that moment; and following next hops towards
any destination never visits a node twice. -/
theorem loop_free (config : Config Node) (hears : Node → Node → Prop) [DecidableRel hears]
    (hpaths : ∀ path : List Node, path.IsChain hears → path.Nodup → path.length ≤ 255)
    (operations : List (Op Node (Input Node)))
    (world : World Node (DsdvRouting Node) (Message Node) (Delivery Node))
    (hrun : Transition.Run (Transition.stepOf (perform (dsdvProtocol config) hears))
      (.initial (dsdvProtocol config)) operations world) :
    (∀ node destination value,
      (world.states node).routing_table_.find destination = some value →
      (value.next_hop = destination ∧ value.hops = 1) ∨
        ∃ other, (world.states value.next_hop).routing_table_.find destination = some other ∧
          other.hops.toNat + 1 ≤ value.hops.toNat) ∧
    ∀ (destination : Node) (path : List Node), path.IsChain (NextHop world destination) →
      path.Nodup := by
  have hworld := (hearsay_dsdv config hpaths).holds_run hrun
  constructor
  · intro node destination value hfound
    apply (entry_descends hworld hfound).imp_left
    rintro ⟨hnext, hhops⟩
    exact ⟨hnext, UInt8.toNat_inj.1 hhops⟩
  · intro destination path hpath
    have hfalls : ∀ place next, NextHop world destination place next →
        hopsTo world destination next < hopsTo world destination place := by
      intro place next hnext
      obtain ⟨value, hfound, rfl⟩ := hnext
      rcases entry_descends hworld hfound with ⟨hend, hhops⟩ | ⟨other, hother, hle⟩
      · -- the destination holds no entry for itself
        have hself := (hworld.nodes destination).no_self
        simp [hopsTo, hfound, hend, hself, hhops]
      · simp only [hopsTo, hfound, hother]
        omega
    exact nodup_of_falling hfalls hpath

/-! ### A line of three nodes -/

/-- Ids of one byte, the last of which is no node. -/
def fourIds : NodeIdFormat (Fin 4) where
  size := 1
  bytes node := [UInt8.ofNat node.val]
  value bytes := Fin.ofNat 4 (bytes.headD 0).toNat
  nullNodeId := 3
  length_bytes _ := rfl
  value_bytes := by decide

/-- Room for two entries in a message and ten in a table. -/
def fourConfig : Config (Fin 4) where
  ids := fourIds
  maxEntries := 2
  maxEntries_pos := by decide
  tableSize := 10

/-- Neighbours on the line of the first three nodes hear each other. -/
def OnLine (first second : Fin 4) : Prop :=
  first.val + second.val = 1 ∨ first.val + second.val = 3 ∧ first ≠ 3 ∧ second ≠ 3

instance : DecidableRel OnLine := fun first second =>
  inferInstanceAs (Decidable (first.val + second.val = 1 ∨
    first.val + second.val = 3 ∧ first ≠ 3 ∧ second ≠ 3))

/-- Tables travel along the line. -/
def lineOperations : List (Op (Fin 4) (Input (Fin 4))) :=
  [.input 0 .init, .input 1 .init, .input 2 .init, .input 0 .timerElapsed, .deliver 1 0,
    .input 1 .timerElapsed, .deliver 2 1, .deliver 0 1]

/-- The world at the end of this run. -/
def lineWorld :
    World (Fin 4) (DsdvRouting (Fin 4)) (Message (Fin 4)) (Delivery (Fin 4)) :=
  (lineOperations.foldlM (perform (dsdvProtocol fourConfig) OnLine)
    (.initial (dsdvProtocol fourConfig))).getD (.initial (dsdvProtocol fourConfig))

theorem loop_free_line :
    (∀ node destination value,
      (lineWorld.states node).routing_table_.find destination = some value →
      (value.next_hop = destination ∧ value.hops = 1) ∨
        ∃ other, (lineWorld.states value.next_hop).routing_table_.find destination = some other ∧
          other.hops.toNat + 1 ≤ value.hops.toNat) ∧
    ∀ (destination : Fin 4) (path : List (Fin 4)),
      path.IsChain (NextHop lineWorld destination) → path.Nodup :=
  loop_free fourConfig OnLine
    (fun _ _ hnodup => (List.Nodup.length_le_card hnodup).trans (by decide)) lineOperations
    lineWorld (Transition.Run.of_foldlM rfl)

end Wiselib.Routing.Dsdv
