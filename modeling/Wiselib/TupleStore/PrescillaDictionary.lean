import Wiselib.Library.Run

/-!
# The Prescilla dictionary

`PrescillaDictionary` of `util/tuple_store/prescilla_dictionary.h`: strings in a
trie over bits whose nodes hold bit strings.  A node with a positive count is a
string that was inserted; its address is the key of the string.

The heap maps addresses to nodes, address 0 is the null pointer.  A call gets the
addresses that its allocations return, in order.  There is no result where the
source would dereference a pointer to no node or read behind the bits of a node.
-/

namespace Wiselib.Prescilla

open Transition

abbrev Byte := Fin 256

/-- The bits of a string, the least significant bit of a byte first. -/
def bits (value : List Byte) : List Bool :=
  value.flatMap fun byte => (List.range 8).map byte.val.testBit

/-- The byte with the given bits. -/
def packByte (bits : List Bool) : ℕ := bits.foldr (fun bit rest => bit.toNat + 2 * rest) 0

/-- The bytes of a bit array. -/
def pack : List Bool → List ℕ
  | b0 :: b1 :: b2 :: b3 :: b4 :: b5 :: b6 :: b7 :: rest =>
      packByte [b0, b1, b2, b3, b4, b5, b6, b7] :: pack rest
  | _ => []

/-- `BitArray::terminate` behind the bits. -/
def terminate (bits : List Bool) : List Bool :=
  bits ++ List.replicate (8 + if bits.length % 8 ≠ 0 then 8 - bits.length % 8 else 0) false

abbrev Ptr := ℕ

/-- `count_` and `data_size_` are 16 bit wide. -/
structure Node where
  children : Bool → Ptr
  parent : Ptr
  count : ℕ
  dataSize : ℕ
  data : List Bool

abbrev Heap := Ptr → Option Node

def uint16 (n : ℕ) : ℕ := n % 65536

/-- Change the node at `p`. -/
def write (heap : Heap) (p : Ptr) (change : Node → Node) : Option Heap :=
  (heap p).map fun node => Function.update heap p (some (change node))

def Node.setChild (node : Node) (bit : Bool) (child : Ptr) : Node :=
  { node with children := Function.update node.children bit child }

def Node.isRoot (node : Node) : Bool := node.parent = 0

structure Dictionary where
  root : Ptr
  heap : Heap
  size : ℕ

def rootNode : Node := ⟨fun _ => 0, 0, 0, 0, []⟩

/-- `init`, with the address of the root. -/
def init (root : Ptr) : Dictionary :=
  ⟨root, Function.update (fun _ => none) root (some rootNode), 0⟩

/-! ## Insertion -/

/-- Where the loop of `insert` ends, with the bits of the string that are left: at
the end of a node without a child for the next bit, or within a node. -/
inductive Walk where
  | tail (current : Ptr) (rest : List Bool)
  | stop (current : Ptr) (idx : ℕ) (rest : List Bool)

/-- The loop of `insert`, at position `idx` of the node `current`. -/
def walk (heap : Heap) : List Bool → Ptr → ℕ → Option Walk
  | [], current, idx => some (.stop current idx [])
  | bit :: rest, current, idx => do
      let node ← heap current
      let nodeBit ← node.data[idx]?
      if nodeBit = bit then
        if idx + 1 ≥ node.dataSize then
          match rest.head? with
          | none => walk heap rest current (idx + 1)
          | some next =>
              if node.children next ≠ 0 then walk heap rest (node.children next) 0
              else some (.tail current rest)
        else walk heap rest current (idx + 1)
      else some (.stop current idx (bit :: rest))

/-- A new node for `rest` below `parent`, with count 1. -/
def appendNode (dictionary : Dictionary) (parent : Ptr) (rest : List Bool) (new : Ptr) :
    Option (Dictionary × Ptr) := do
  let first ← rest.head?
  let node : Node := ⟨fun _ => 0, parent, 1, uint16 rest.length, rest⟩
  let heap ← write (Function.update dictionary.heap new (some node)) parent
    fun node => node.setChild first new
  return (⟨dictionary.root, heap, dictionary.size + 1⟩, new)

/-- Put a node for the first `idx` bits of `current` above it. -/
def splitNode (dictionary : Dictionary) (current : Ptr) (idx : ℕ) (new : Ptr) :
    Option Dictionary := do
  let node ← dictionary.heap current
  let front := node.data.take idx
  let back := (node.data.take node.dataSize).drop idx
  let frontBit ← front.head?
  let backBit ← back.head?
  let allocated := Function.update dictionary.heap new
    (some ⟨fun _ => 0, node.parent, 0, uint16 idx, front⟩)
  let heap ← write allocated node.parent fun node => node.setChild frontBit new
  let heap ← write heap current fun node =>
    { node with data := back, dataSize := uint16 (node.dataSize - idx), parent := new }
  let heap ← write heap new fun node => node.setChild backBit current
  return { dictionary with heap := heap }

def countUp (dictionary : Dictionary) (current : Ptr) : Option (Dictionary × Ptr) := do
  let node ← dictionary.heap current
  let count := uint16 (node.count + 1)
  let heap ← write dictionary.heap current fun node => { node with count := count }
  return (⟨dictionary.root, heap, if count = 1 then dictionary.size + 1 else dictionary.size⟩,
    current)

/-- `insert`; `new1` and `new2` are the addresses of the first and second new node. -/
def insert (dictionary : Dictionary) (value : List Byte) (new1 new2 : Ptr) :
    Option (Dictionary × Ptr) := do
  let v := bits value
  let first ← v.head?
  let root ← dictionary.heap dictionary.root
  if root.children first = 0 then appendNode dictionary dictionary.root v new1
  else
    match ← walk dictionary.heap v (root.children first) 0 with
    | .tail current rest => appendNode dictionary current rest new1
    | .stop current idx rest => do
        let node ← dictionary.heap current
        if idx < node.dataSize then
          let split ← splitNode dictionary current idx new1
          if rest = [] then countUp split new1 else appendNode split new1 rest new2
        else if rest = [] then countUp dictionary current
        else appendNode dictionary current rest new1

/-! ## Searching -/

/-- The loop of `find`: the node and the position in it where the string ends, null
when the string is not a path. -/
def findFrom (heap : Heap) : List Bool → Ptr → ℕ → Option (Ptr × ℕ)
  | [], current, idx => some (current, idx)
  | bit :: rest, current, idx => do
      let node ← heap current
      if idx ≥ node.dataSize then
        if node.children bit = 0 then some (0, 0)
        else
          let child ← heap (node.children bit)
          let childBit ← child.data[0]?
          if childBit = bit then findFrom heap rest (node.children bit) 1 else some (0, 0)
      else
        let nodeBit ← node.data[idx]?
        if nodeBit = bit then findFrom heap rest current (idx + 1) else some (0, 0)

/-- `find`, 0 for `NULL_KEY`. -/
def find (dictionary : Dictionary) (value : List Byte) : Option Ptr := do
  let (current, idx) ← findFrom dictionary.heap (bits value) dictionary.root 0
  if current = 0 then some 0
  else
    let node ← dictionary.heap current
    return if idx ≥ node.dataSize ∧ node.count > 0 then current else 0

/-! ## Removal -/

/-- `node_to_merge` of `erase`. -/
def nodeToMerge (node : Node) : Ptr :=
  if node.children false ≠ 0 ∧ node.children true = 0 then node.children false
  else if node.children false = 0 then node.children true
  else 0

/-- The second part of `erase`: merge the node with its only child. -/
def mergeNode (heap : Heap) (current : Ptr) : Option Heap := do
  let node ← heap current
  if !node.isRoot ∧ node.count = 0 ∧ nodeToMerge node ≠ 0 then
    let child ← heap (nodeToMerge node)
    let data := node.data.take node.dataSize ++ child.data.take child.dataSize
    let first ← data.head?
    let heap ← write heap (nodeToMerge node) fun child =>
      { child with
        data := data
        dataSize := uint16 (node.dataSize + child.dataSize)
        parent := node.parent }
    let heap ← write heap node.parent fun parent => parent.setChild first (nodeToMerge node)
    return Function.update heap current none
  else some heap

/-- The first part of `erase`: unlink and free the node when it has no children.  Gives
the node to go on with. -/
def unlinkLeaf (heap : Heap) (entry : Ptr) : Option (Heap × Ptr) := do
  let node ← heap entry
  if !node.isRoot ∧ node.children false = 0 ∧ node.children true = 0 then
    let first ← node.data.head?
    let heap ← write heap node.parent fun parent => parent.setChild first 0
    return (Function.update heap entry none, node.parent)
  else some (heap, entry)

/-- `erase`. -/
def erase (dictionary : Dictionary) (entry : Ptr) : Option Dictionary := do
  let node ← dictionary.heap entry
  let count := uint16 (node.count + 65535)
  let heap ← write dictionary.heap entry fun node => { node with count := count }
  if count > 0 then return { dictionary with heap := heap }
  else
    let (heap, current) ← unlinkLeaf heap entry
    let heap ← mergeNode heap current
    return { dictionary with heap := heap }

/-! ## Reading a key back -/

/-- Going up from `p`: the first bits of the nodes on the way, and the root. -/
def pathUp (heap : Heap) : (fuel : ℕ) → Ptr → Option (List Bool × Ptr)
  | 0, _ => none
  | fuel + 1, p => do
      let node ← heap p
      if node.isRoot then some ([], p)
      else
        let first ← node.data.head?
        let (path, root) ← pathUp heap fuel node.parent
        return (first :: path, root)

/-- Going down along the bits of a path, the data of the nodes is put together. -/
def readDown (heap : Heap) : List Bool → Ptr → Option (List Bool)
  | [], _ => some []
  | bit :: path, p => do
      let node ← heap p
      let child ← heap (node.children bit)
      let rest ← readDown heap path (node.children bit)
      return child.data.take child.dataSize ++ rest

/-- `get_copy`, as the bytes in front of the terminating zero.  `fuel` bounds the
number of nodes on the way to the root.  The last iteration of the loop is made
for an empty path too: the source reads behind the path of the root. -/
def getCopy (fuel : ℕ) (dictionary : Dictionary) (key : Ptr) : Option (List ℕ) := do
  let (path, root) ← pathUp dictionary.heap fuel key
  if path = [] then none
  else
    let out ← readDown dictionary.heap path.reverse root
    return (pack (terminate out)).takeWhile (· ≠ 0)

end Wiselib.Prescilla
