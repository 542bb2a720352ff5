import Wiselib.Library.ByteBuffer
import Wiselib.Routing.RoutingTable

/-!
# Broadcast messages of DSDV

A broadcast message carries a part of a routing table as bytes: a message id, a
number of entries and for each entry the destination, the next hop and the hop
count.  The main result is that the entries read from a message are the ones
written to it (`receivedEntries_broadcastMessage`), as far as the number of entries fits
the byte that counts them.
-/

namespace Wiselib.Routing.Dsdv

open ByteBuffer

variable {Node : Type*}

/-- How `read` and `write` represent a `node_id_t`, and the id of no node. -/
structure NodeIdFormat (Node : Type*) where
  size : ℕ
  bytes : Node → List UInt8
  value : List UInt8 → Node
  nullNodeId : Node
  length_bytes : ∀ node, (bytes node).length = size
  value_bytes : ∀ node, value (bytes node) = node

/-- `DsdvRoutingTableValue`. -/
structure RoutingTableValue (Node : Type*) where
  next_hop : Node
  hops : UInt8
deriving DecidableEq, Repr

/-- The bytes of a broadcast message. -/
abbrev BroadcastMessage := ℕ → UInt8

/-- An entry of a message: a destination and its value. -/
abbrev Entry (Node : Type*) := Node × RoutingTableValue Node

def dsdvBroadcastMsgId : UInt8 := 110
def msgIdPos : ℕ := 0
def entryCntPos : ℕ := 1
def dataPos : ℕ := 2

/-- `ENTRY_SIZE`. -/
def NodeIdFormat.entrySize (ids : NodeIdFormat Node) : ℕ := 2 * ids.size + 1

/-- `set_msg_id`, with a message id of one byte. -/
def setMsgId (id : UInt8) (message : BroadcastMessage) : BroadcastMessage :=
  write message msgIdPos [id]

/-- `entry_cnt`. -/
def entryCnt (message : BroadcastMessage) : UInt8 :=
  message entryCntPos

/-- `set_entry_cnt`. -/
def setEntryCnt (cnt : UInt8) (message : BroadcastMessage) : BroadcastMessage :=
  write message entryCntPos [cnt]

/-- `set_entry`, for messages with room for `maxEntries`. -/
def setEntry (ids : NodeIdFormat Node) (maxEntries idx : ℕ) (entry : Entry Node)
    (message : BroadcastMessage) : BroadcastMessage :=
  if maxEntries ≤ idx then message
  else
    let offset := dataPos + idx * ids.entrySize
    let message := write message offset (ids.bytes entry.1)
    let message := write message (offset + ids.size) (ids.bytes entry.2.next_hop)
    write message (offset + ids.size + ids.size) [entry.2.hops]

/-- `entry`. -/
def entryAt (ids : NodeIdFormat Node) (maxEntries : ℕ) (message : BroadcastMessage) (idx : ℕ) :
    Option (Entry Node) :=
  if maxEntries ≤ idx then none
  else
    let offset := dataPos + idx * ids.entrySize
    some (ids.value (read message offset ids.size),
      { next_hop := ids.value (read message (offset + ids.size) ids.size)
        hops := message (offset + ids.size + ids.size) })

/-- The loop of the sender over the entries of one message. -/
def setEntries (ids : NodeIdFormat Node) (maxEntries : ℕ) :
    ℕ → List (Entry Node) → BroadcastMessage → BroadcastMessage
  | _, [], message => message
  | idx, entry :: rest, message =>
      setEntries ids maxEntries (idx + 1) rest (setEntry ids maxEntries idx entry message)

/-- The message of the sender: constructor, message id, entries and their number. -/
def broadcastMessage (ids : NodeIdFormat Node) (maxEntries : ℕ) (entries : List (Entry Node)) :
    BroadcastMessage :=
  setEntryCnt (UInt8.ofNat entries.length)
    (setEntries ids maxEntries 0 entries (setMsgId dsdvBroadcastMsgId fun _ => 0))

/-- The entries that the loop of the receiver sees. -/
def receivedEntries (ids : NodeIdFormat Node) (maxEntries : ℕ) (message : BroadcastMessage) :
    List (Entry Node) :=
  (List.range (entryCnt message).toNat).filterMap (entryAt ids maxEntries message)

/-! ## Entries are read as they were written -/

variable {ids : NodeIdFormat Node} {maxEntries idx : ℕ} {message : BroadcastMessage}

/-- The bytes of an entry. -/
def NodeIdFormat.entryBytes (ids : NodeIdFormat Node) (entry : Entry Node) : List UInt8 :=
  ids.bytes entry.1 ++ ids.bytes entry.2.next_hop ++ [entry.2.hops]

theorem length_entryBytes (entry : Entry Node) :
    (ids.entryBytes entry).length = ids.entrySize := by
  simp [NodeIdFormat.entryBytes, NodeIdFormat.entrySize, ids.length_bytes]
  omega

theorem holds_setEntry (entry : Entry Node) (hidx : idx < maxEntries) :
    Holds (setEntry ids maxEntries idx entry message) (dataPos + idx * ids.entrySize)
      (ids.entryBytes entry) := by
  rw [setEntry, if_neg (by omega), NodeIdFormat.entryBytes]
  dsimp only
  rw [holds_append, holds_append]
  refine ⟨⟨?_, ?_⟩, ?_⟩
  · apply Holds.write_of_le (Holds.write_of_le holds_write ?_) ?_ <;> simp [ids.length_bytes]
  · rw [ids.length_bytes]
    apply Holds.write_of_le holds_write
    simp [ids.length_bytes]
  · rw [List.length_append, ids.length_bytes, ids.length_bytes, ← Nat.add_assoc]
    exact holds_write

theorem setEntry_below {i : ℕ} (entry : Entry Node) (hi : i < dataPos + idx * ids.entrySize) :
    setEntry ids maxEntries idx entry message i = message i := by
  unfold setEntry
  split
  · rfl
  · dsimp only
    rw [write_below (by omega), write_below (by omega), write_below hi]

theorem setEntries_below {i : ℕ} (entries : List (Entry Node))
    (hi : i < dataPos + idx * ids.entrySize) :
    setEntries ids maxEntries idx entries message i = message i := by
  induction entries generalizing idx message with
  | nil => rfl
  | cons entry rest ih =>
      have hnext : i < dataPos + (idx + 1) * ids.entrySize := by
        rw [Nat.add_mul]
        omega
      rw [setEntries, ih hnext, setEntry_below entry hi]

theorem holds_setEntries (ids : NodeIdFormat Node) (entries : List (Entry Node)) :
    ∀ (idx : ℕ) (message : BroadcastMessage), idx + entries.length ≤ maxEntries →
      ∀ (i : ℕ) (hi : i < entries.length),
        Holds (setEntries ids maxEntries idx entries message)
          (dataPos + (idx + i) * ids.entrySize) (ids.entryBytes entries[i]) := by
  induction entries with
  | nil =>
      intro idx message _ i hi
      simp at hi
  | cons entry rest ih =>
      intro idx message hroom i hi
      rw [List.length_cons] at hroom
      cases i with
      | zero =>
          rw [setEntries]
          have hidx : idx < maxEntries := by omega
          apply Holds.congr (holds_setEntry entry hidx)
          intro j _ hj
          apply setEntries_below
          rw [length_entryBytes] at hj
          rw [Nat.add_mul]
          omega
      | succ i =>
          have hrest := ih (idx + 1) (setEntry ids maxEntries idx entry message) (by omega) i
            (by simpa using hi)
          rw [show idx + (i + 1) = idx + 1 + i by omega]
          exact hrest

theorem entryAt_of_holds {entry : Entry Node} (hidx : idx < maxEntries)
    (hholds : Holds message (dataPos + idx * ids.entrySize) (ids.entryBytes entry)) :
    entryAt ids maxEntries message idx = some entry := by
  rw [NodeIdFormat.entryBytes, holds_append, holds_append, List.length_append,
    ids.length_bytes, ids.length_bytes, ← Nat.add_assoc, holds_cons] at hholds
  obtain ⟨⟨hnode, hnext⟩, hhops, -⟩ := hholds
  rw [entryAt, if_neg (by omega)]
  dsimp only
  rw [hnode.read_eq (ids.length_bytes _).symm, hnext.read_eq (ids.length_bytes _).symm, hhops,
    ids.value_bytes, ids.value_bytes]

theorem filterMap_getElem?_range {α : Type*} (xs : List α) (count : ℕ) :
    ((List.range count).filterMap fun i => xs[i]?) = xs.take count := by
  induction count with
  | zero => simp
  | succ count ih =>
      rw [List.range_succ, List.filterMap_append, ih, List.take_add_one]
      cases hx : xs[count]? with
      | none => simp [hx]
      | some x => simp [hx]

theorem receivedEntries_broadcastMessage (entries : List (Entry Node))
    (hroom : entries.length ≤ maxEntries) :
    receivedEntries ids maxEntries (broadcastMessage ids maxEntries entries) =
      entries.take (entries.length % 256) := by
  have hcnt : entryCnt (broadcastMessage ids maxEntries entries) = UInt8.ofNat entries.length := by
    simp [entryCnt, broadcastMessage, setEntryCnt, write]
  have hread : ∀ i (hi : i < entries.length),
      entryAt ids maxEntries (broadcastMessage ids maxEntries entries) i = some entries[i] := by
    intro i hi
    apply entryAt_of_holds (hi.trans_le hroom)
    have hholds := holds_setEntries ids entries 0 (setMsgId dsdvBroadcastMsgId fun _ => 0)
      ((Nat.zero_add _).trans_le hroom) i hi
    rw [Nat.zero_add] at hholds
    apply hholds.congr
    -- the counter is written in front of the entries
    intro j hj _
    exact write_above (show entryCntPos + 1 ≤ j from (Nat.le_add_right dataPos _).trans hj)
  unfold receivedEntries
  rw [hcnt, UInt8.toNat_ofNat']
  calc (List.range (entries.length % 256)).filterMap
        (entryAt ids maxEntries (broadcastMessage ids maxEntries entries))
      = (List.range (entries.length % 256)).filterMap fun i => entries[i]? := by
        apply List.filterMap_congr
        intro i hi
        have hlt : i < entries.length := (List.mem_range.1 hi).trans_le (Nat.mod_le _ _)
        rw [hread i hlt, List.getElem?_eq_getElem hlt]
    _ = entries.take (entries.length % 256) := filterMap_getElem?_range _ _

end Wiselib.Routing.Dsdv
