import Wiselib.Library.Network
import Wiselib.Routing.DsdvBroadcastMessage

/-!
# DSDV routing

Every node keeps a table with a next hop and a hop count for each destination
it knows, and broadcasts the table from time to time.  A node that receives a
broadcast enters its sender as a neighbour and takes over destinations that it
does not know or that are closer through the sender.

This file models a node and proves that routes are free of loops in every run
(`loop_free`): the next hop of an entry is the destination itself, or it holds
the destination with a smaller hop count *now*, however old the broadcast was
from which the entry was taken.

## Strategy

An entry with hop count `h` claims that there is a path of `h` hops to its
destination, without repetition, on which every node holds the destination
within the number of hops that remain (`Backed`).  Tables only improve, so such
a path is never lost.  A node that takes over an entry is not on the path of the
entry: otherwise it would hold the destination with fewer hops already.  So hop
counts are lengths of paths in the network, and they stay below the bound of
the byte that holds them where paths are shorter than 255 hops.
-/

namespace Wiselib.Routing.Dsdv

open Network

variable {Node : Type*}

/-- What the instantiation of the templates fixes: the representation of node
ids, the number of entries a broadcast message has room for and the size of the
routing table. -/
structure Config (Node : Type*) where
  ids : NodeIdFormat Node
  maxEntries : ℕ
  maxEntries_pos : 0 < maxEntries
  tableSize : ℕ

/-- What a node keeps.  `enabled` says that `enable_radio` has registered the
receive callback and the timer. -/
structure DsdvRouting (Node : Type*) where
  routing_table_ : RoutingTable Node (RoutingTableValue Node)
  enabled : Bool

/-- The messages: a broadcast with its bytes, and a routing message with the
node it comes from, its destination and its payload. -/
inductive Message (Node : Type*)
  | broadcast (message : BroadcastMessage)
  | routing (source destination : Node) (payload : List UInt8)

/-- What happens at a node by itself. -/
inductive Input (Node : Type*)
  | init
  | send (destination : Node) (data : List UInt8)
  | timerElapsed

/-- A routing message handed to the application. -/
structure Delivery (Node : Type*) where
  source : Node
  payload : List UInt8

/-- The parts of the table that go into the messages of one broadcast. -/
def chunks (maxEntries : ℕ) : ℕ → List (Entry Node) → List (List (Entry Node))
  | 0, _ => []
  | _ + 1, [] => []
  | fuel + 1, entry :: rest =>
      (entry :: rest).take maxEntries :: chunks maxEntries fuel ((entry :: rest).drop maxEntries)

/-- `timer_elapsed`: broadcasts the table, or a message without entries. -/
def DsdvRouting.timerElapsed (config : Config Node) (self : DsdvRouting Node) :
    Effects Node (Message Node) (Delivery Node) where
  sends :=
    let parts :=
      if self.routing_table_.isEmpty then [[]]
      else chunks config.maxEntries self.routing_table_.length self.routing_table_
    parts.map fun part => (none, .broadcast (broadcastMessage config.ids config.maxEntries part))
  reports := []

variable [DecidableEq Node]

/-- `send` of a message towards its destination, where the table has a next hop. -/
def DsdvRouting.forward (config : Config Node) (self : DsdvRouting Node)
    (source destination : Node) (payload : List UInt8) :
    Effects Node (Message Node) (Delivery Node) :=
  match self.routing_table_.find destination with
  | none => .none
  | some value =>
      if value.next_hop ≠ config.ids.nullNodeId then
        .send (some value.next_hop) (.routing source destination payload)
      else .none

/-- One round of the loop in `update_routing_table`.  The hop count is compared
as an `int` and stored in a byte. -/
def updateEntry (config : Config Node) (id sender : Node)
    (table : RoutingTable Node (RoutingTableValue Node)) (entry : Entry Node) :
    RoutingTable Node (RoutingTableValue Node) :=
  if entry.1 ≠ config.ids.nullNodeId ∧ entry.1 ≠ id then
    match table.find entry.1 with
    | none => table.assign config.tableSize entry.1 ⟨sender, entry.2.hops + 1⟩
    | some current =>
        if current.hops.toNat > entry.2.hops.toNat + 1 then
          table.assign config.tableSize entry.1 ⟨sender, entry.2.hops + 1⟩
        else table
  else table

/-- `update_routing_table`. -/
def updateRoutingTable (config : Config Node) (id sender : Node) (entries : List (Entry Node))
    (table : RoutingTable Node (RoutingTableValue Node)) :
    RoutingTable Node (RoutingTableValue Node) :=
  entries.foldl (updateEntry config id sender) table

/-- `receive` of a broadcast: the sender is a neighbour, and its table follows. -/
def DsdvRouting.receiveBroadcast (config : Config Node) (self : DsdvRouting Node)
    (id sender : Node) (message : BroadcastMessage) : DsdvRouting Node :=
  { self with
    routing_table_ :=
      updateRoutingTable config id sender (receivedEntries config.ids config.maxEntries message)
        (self.routing_table_.assign config.tableSize sender ⟨sender, 1⟩) }

/-- `receive` at the node `id`. -/
def DsdvRouting.receive (config : Config Node) (self : DsdvRouting Node) (id sender : Node)
    (message : Message Node) : DsdvRouting Node × Effects Node (Message Node) (Delivery Node) :=
  if self.enabled = false ∨ sender = id then (self, .none)
  else
    match message with
    | .broadcast message => (self.receiveBroadcast config id sender message, .none)
    | .routing source destination payload =>
        if destination = id then (self, .report ⟨source, payload⟩)
        else (self, self.forward config source destination payload)

/-- The inputs.  A node is initialised once, and the timer fires only where it
was set. -/
def DsdvRouting.input (config : Config Node) (self : DsdvRouting Node) (id : Node) :
    Input Node → Option (DsdvRouting Node × Effects Node (Message Node) (Delivery Node))
  | .init => if self.enabled then none else some (⟨[], true⟩, .none)
  | .send destination data => some (self, self.forward config id destination data)
  | .timerElapsed => if self.enabled then some (self, self.timerElapsed config) else none

/-- DSDV routing. -/
def dsdvProtocol (config : Config Node) :
    Protocol Node (DsdvRouting Node) (Message Node) (Input Node) (Delivery Node) where
  start _ := ⟨[], false⟩
  input node state input := state.input config node input
  receive node state sender message := state.receive config node sender message

/-! ## The parts of a broadcast -/

omit [DecidableEq Node] in
theorem length_chunks_le {maxEntries fuel : ℕ} {table part : List (Entry Node)}
    (hpart : part ∈ chunks maxEntries fuel table) : part.length ≤ maxEntries := by
  induction fuel generalizing table with
  | zero => simp [chunks] at hpart
  | succ fuel ih =>
      cases table with
      | nil => simp [chunks] at hpart
      | cons entry rest =>
          rcases List.mem_cons.1 hpart with rfl | hrest
          · exact List.length_take_le _ _
          · exact ih hrest

omit [DecidableEq Node] in
/-- The messages of a broadcast carry the whole table, in its order. -/
theorem flatten_chunks {maxEntries fuel : ℕ} {table : List (Entry Node)}
    (hpos : 0 < maxEntries) (hfuel : table.length ≤ fuel) :
    (chunks maxEntries fuel table).flatten = table := by
  induction fuel generalizing table with
  | zero => simpa [chunks] using (List.length_eq_zero_iff.1 (Nat.le_zero.1 hfuel)).symm
  | succ fuel ih =>
      cases table with
      | nil => simp [chunks]
      | cons entry rest =>
          have hrest : ((entry :: rest).drop maxEntries).length ≤ fuel := by
            rw [List.length_drop]
            omega
          rw [chunks, List.flatten_cons, ih hrest, List.take_append_drop]

omit [DecidableEq Node] in
theorem timerElapsed_entries {config : Config Node} {self : DsdvRouting Node}
    {receiver : Option Node} {message : BroadcastMessage} {entry : Entry Node}
    (hsend : (receiver, Message.broadcast message) ∈ (self.timerElapsed config).sends)
    (hentry : entry ∈ receivedEntries config.ids config.maxEntries message) :
    entry ∈ self.routing_table_ := by
  simp only [DsdvRouting.timerElapsed, List.mem_map, Prod.mk.injEq, Message.broadcast.injEq]
    at hsend
  obtain ⟨part, hpart, -, rfl⟩ := hsend
  split at hpart
  · obtain rfl : part = [] := by simpa using hpart
    rw [receivedEntries_broadcastMessage [] (Nat.zero_le _)] at hentry
    simp at hentry
  · rw [receivedEntries_broadcastMessage part (length_chunks_le hpart)] at hentry
    have hmem : entry ∈ (chunks config.maxEntries self.routing_table_.length
        self.routing_table_).flatten :=
      List.mem_flatten.2 ⟨part, hpart, List.mem_of_mem_take hentry⟩
    rwa [flatten_chunks config.maxEntries_pos le_rfl] at hmem

/-! ## Tables improve -/

/-- Every destination that was held is still held, within as many hops. -/
def Improves (table later : RoutingTable Node (RoutingTableValue Node)) : Prop :=
  ∀ destination value, table.find destination = some value →
    ∃ other, later.find destination = some other ∧ other.hops.toNat ≤ value.hops.toNat

theorem Improves.refl (table : RoutingTable Node (RoutingTableValue Node)) :
    Improves table table :=
  fun _ value hfound => ⟨value, hfound, le_rfl⟩

theorem Improves.trans {first second third : RoutingTable Node (RoutingTableValue Node)}
    (hfirst : Improves first second) (hsecond : Improves second third) :
    Improves first third := by
  intro destination value hfound
  obtain ⟨middle, hmiddle, hle⟩ := hfirst destination value hfound
  obtain ⟨last, hlast, hlast_le⟩ := hsecond destination middle hmiddle
  exact ⟨last, hlast, hlast_le.trans hle⟩

theorem improves_assign {table : RoutingTable Node (RoutingTableValue Node)} {capacity : ℕ}
    {key : Node} {value : RoutingTableValue Node}
    (hle : ∀ current, table.find key = some current → value.hops.toNat ≤ current.hops.toNat) :
    Improves table (table.assign capacity key value) := by
  intro destination current hfound
  by_cases hkey : destination = key
  · subst hkey
    refine ⟨value, ?_, hle current hfound⟩
    exact RoutingTable.find_assign_present (by simp [hfound])
  · refine ⟨current, ?_, le_rfl⟩
    rw [RoutingTable.find_assign_other hkey]
    exact hfound

variable {config : Config Node} {id sender : Node}

/-- What one round of the loop does: it leaves the table alone, or it assigns
an entry that the table lacks or holds with more hops. -/
theorem updateEntry_cases (table : RoutingTable Node (RoutingTableValue Node))
    (entry : Entry Node) :
    updateEntry config id sender table entry = table ∨
      entry.1 ≠ id ∧
      (∀ current, table.find entry.1 = some current →
        entry.2.hops.toNat + 1 < current.hops.toNat) ∧
      updateEntry config id sender table entry =
        table.assign config.tableSize entry.1 ⟨sender, entry.2.hops + 1⟩ := by
  unfold updateEntry
  split
  · rename_i hentry
    cases hfound : table.find entry.1 with
    | none =>
        refine .inr ⟨hentry.2, ?_, rfl⟩
        intro current hcurrent
        simp at hcurrent
    | some current =>
        dsimp only
        split
        · rename_i hmore
          refine .inr ⟨hentry.2, ?_, rfl⟩
          intro other hother
          rw [← Option.some.inj hother]
          exact hmore
        · exact .inl rfl
  · exact .inl rfl

theorem improves_updateEntry (table : RoutingTable Node (RoutingTableValue Node))
    (entry : Entry Node) : Improves table (updateEntry config id sender table entry) := by
  rcases updateEntry_cases table entry with hsame | ⟨-, hmore, hassign⟩
  · rw [hsame]
    exact Improves.refl table
  · rw [hassign]
    apply improves_assign
    intro current hcurrent
    have hlt := hmore current hcurrent
    have hbound : current.hops.toNat < 256 := current.hops.toNat_lt
    show (entry.2.hops + 1).toNat ≤ _
    rw [toNat_add_one (by omega)]
    exact hlt.le

theorem improves_updateRoutingTable (entries : List (Entry Node))
    (table : RoutingTable Node (RoutingTableValue Node)) :
    Improves table (updateRoutingTable config id sender entries table) := by
  induction entries generalizing table with
  | nil => exact Improves.refl table
  | cons entry rest ih => exact (improves_updateEntry table entry).trans (ih _)

/-- What is found after the loop was found before, or it comes from an entry of
the message that was closer than what the table held. -/
theorem find_updateRoutingTable {entries : List (Entry Node)}
    {table : RoutingTable Node (RoutingTableValue Node)} {destination : Node}
    {value : RoutingTableValue Node}
    (hfound : (updateRoutingTable config id sender entries table).find destination = some value) :
    table.find destination = some value ∨
      ∃ entry ∈ entries, destination = entry.1 ∧ destination ≠ id ∧
        value = ⟨sender, entry.2.hops + 1⟩ ∧
        ∀ current, table.find destination = some current →
          entry.2.hops.toNat + 1 < current.hops.toNat := by
  induction entries generalizing table with
  | nil => exact .inl hfound
  | cons entry rest ih =>
      rcases ih hfound with hfirst | ⟨later, hlater, rfl, hid, rfl, hmore⟩
      · rcases updateEntry_cases table entry with hsame | ⟨hid, hmore, hassign⟩
        · rw [hsame] at hfirst
          exact .inl hfirst
        · rw [hassign] at hfirst
          rcases RoutingTable.find_assign_cases hfirst with hold | ⟨rfl, rfl⟩
          · exact .inl hold
          · exact .inr ⟨entry, List.mem_cons_self, rfl, hid, rfl, hmore⟩
      · refine .inr ⟨later, List.mem_cons_of_mem _ hlater, rfl, hid, rfl, ?_⟩
        intro current hcurrent
        obtain ⟨other, hother, hle⟩ := improves_updateEntry table entry _ current hcurrent
        exact (hmore other hother).trans_le hle

theorem nodup_updateRoutingTable {entries : List (Entry Node)}
    {table : RoutingTable Node (RoutingTableValue Node)}
    (hnodup : (table.map Prod.fst).Nodup) :
    ((updateRoutingTable config id sender entries table).map Prod.fst).Nodup := by
  induction entries generalizing table with
  | nil => exact hnodup
  | cons entry rest ih =>
      apply ih
      rcases updateEntry_cases table entry with hsame | ⟨-, -, hassign⟩
      · rw [hsame]
        exact hnodup
      · rw [hassign]
        exact RoutingTable.nodup_assign hnodup

end Wiselib.Routing.Dsdv
