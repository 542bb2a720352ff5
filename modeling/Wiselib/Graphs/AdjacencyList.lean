import Wiselib.Library.IndexList
import Wiselib.Library.Run

/-!
# The adjacency list

`AdjacencyList<N, M>` of `algorithms/graph/adjacency_list.h`: tables of `N`
vertices and `M` edges.  Each vertex is on the list of used or of unused
vertices, each edge on the list of used or of unused edges and, while it is used,
on the list of the edges out of its source and on the one of those into its
target.  An index equal to the size of the table ends a list.

`Faithful` compares the lists with the graph its users have built, which
`Graph.after` keeps beside it.
-/

namespace Wiselib.Graphs

/-! ## Tables -/

structure VertexEntry where
  outEdges : ℕ
  inEdges : ℕ
  outDegree : ℕ
  inDegree : ℕ
  next : ℕ
  prev : ℕ

structure EdgeEntry where
  source : ℕ
  target : ℕ
  next : ℕ
  prev : ℕ
  nextOut : ℕ
  prevOut : ℕ
  nextIn : ℕ
  prevIn : ℕ

structure AdjacencyList where
  vertexSet : ℕ → VertexEntry
  edgeSet : ℕ → EdgeEntry
  firstVertex : ℕ
  firstUnusedVertex : ℕ
  firstEdge : ℕ
  firstUnusedEdge : ℕ
  nvertices : ℕ
  nedges : ℕ

namespace AdjacencyList

section Operations

variable (N M : ℕ)

/-- The constructor, on tables with anything in the fields it does not write. -/
def new (vertexSet : ℕ → VertexEntry) (edgeSet : ℕ → EdgeEntry) : AdjacencyList where
  vertexSet v := { vertexSet v with outDegree := M, next := v + 1 }
  edgeSet e := { edgeSet e with source := N, next := e + 1 }
  firstVertex := N
  firstUnusedVertex := 0
  firstEdge := M
  firstUnusedEdge := 0
  nvertices := 0
  nedges := 0

/-- Reads `vertex_set[v]`, within the table. -/
def readVertex (g : AdjacencyList) (v : ℕ) : Option VertexEntry :=
  if v < N then some (g.vertexSet v) else none

/-- Reads `edge_set[e]`, within the table. -/
def readEdge (g : AdjacencyList) (e : ℕ) : Option EdgeEntry :=
  if e < M then some (g.edgeSet e) else none

/-- Writes `vertex_set[v]`, within the table. -/
def changeVertex (g : AdjacencyList) (v : ℕ) (change : VertexEntry → VertexEntry) :
    Option AdjacencyList :=
  if v < N then
    some { g with vertexSet := Function.update g.vertexSet v (change (g.vertexSet v)) }
  else none

/-- Writes `edge_set[e]`, within the table. -/
def changeEdge (g : AdjacencyList) (e : ℕ) (change : EdgeEntry → EdgeEntry) :
    Option AdjacencyList :=
  if e < M then some { g with edgeSet := Function.update g.edgeSet e (change (g.edgeSet e)) }
  else none

/-! ## Operations -/

/-- `add_vertex`; the descriptor of `null_vertex` is `N`. -/
def addVertex (g : AdjacencyList) : Option (AdjacencyList × ℕ) :=
  if g.nvertices = N then some (g, N)
  else do
    let v := g.firstUnusedVertex
    let entry ← readVertex N g v
    let g := { g with nvertices := g.nvertices + 1, firstUnusedVertex := entry.next }
    let g ← changeVertex N g v fun entry => { entry with prev := N, next := g.firstVertex }
    let g ←
      if g.firstVertex ≠ N then
        changeVertex N g g.firstVertex fun entry => { entry with prev := v }
      else some g
    let g := { g with firstVertex := v }
    let g ← changeVertex N g v fun entry =>
      { entry with outEdges := M, inEdges := M, inDegree := 0, outDegree := 0 }
    return (g, v)

/-- The block of `add_edge` that puts the edge in front of the edges out of its source. -/
def hookOut (g : AdjacencyList) (e source : ℕ) : Option AdjacencyList := do
  let entry ← readVertex N g source
  let first := entry.outEdges
  let g ← changeEdge M g e fun entry => { entry with nextOut := first }
  let g ←
    if first ≠ M then changeEdge M g first fun entry => { entry with prevOut := e }
    else some g
  changeVertex N g source fun entry => { entry with outEdges := e }

/-- The block of `add_edge` that puts the edge in front of the edges into its target. -/
def hookIn (g : AdjacencyList) (e target : ℕ) : Option AdjacencyList := do
  let entry ← readVertex N g target
  let first := entry.inEdges
  let g ← changeEdge M g e fun entry => { entry with nextIn := first }
  let g ←
    if first ≠ M then changeEdge M g first fun entry => { entry with prevIn := e }
    else some g
  changeVertex N g target fun entry => { entry with inEdges := e }

/-- `add_edge`; the descriptor of `null_edge` is `M`. -/
def addEdge (g : AdjacencyList) (source target : ℕ) : Option (AdjacencyList × ℕ) :=
  if g.nedges = M ∨ source = N ∨ target = N then some (g, M)
  else do
    let e := g.firstUnusedEdge
    let entry ← readEdge M g e
    let g := { g with firstUnusedEdge := entry.next }
    -- it is `next_out` and `prev_out` that are written here, not `next` and `prev`
    let g ← changeEdge M g e fun entry =>
      { entry with source := source, target := target, prev := M, nextOut := g.firstEdge }
    let g ←
      if g.firstEdge ≠ M then
        changeEdge M g g.firstEdge fun entry => { entry with prevOut := e }
      else some g
    let g := { g with firstEdge := e, nedges := g.nedges + 1 }
    let g ← changeEdge M g e fun entry => { entry with prevOut := M }
    let g ← hookOut N M g e source
    let g ← changeVertex N g source fun entry => { entry with outDegree := entry.outDegree + 1 }
    let g ← changeEdge M g e fun entry => { entry with prevIn := M }
    let g ← hookIn N M g e target
    let g ← changeVertex N g target fun entry => { entry with inDegree := entry.inDegree + 1 }
    return (g, e)

/-- The block of `remove_edge` that takes the edge off the edges out of its source. -/
def unhookOut (g : AdjacencyList) (e : ℕ) : Option AdjacencyList := do
  let entry ← readEdge M g e
  let g ←
    if entry.prevOut = M then
      changeVertex N g entry.source fun vertex => { vertex with outEdges := entry.nextOut }
    else changeEdge M g entry.prevOut fun prev => { prev with nextOut := entry.nextOut }
  if entry.nextOut ≠ M then
    changeEdge M g entry.nextOut fun next => { next with prevOut := entry.prevOut }
  else some g

/-- The block of `remove_edge` that takes the edge off the edges into its target; the
vertex it writes is the source. -/
def unhookIn (g : AdjacencyList) (e : ℕ) : Option AdjacencyList := do
  let entry ← readEdge M g e
  let g ←
    if entry.prevIn = M then
      changeVertex N g entry.source fun vertex => { vertex with inEdges := entry.nextIn }
    else changeEdge M g entry.prevIn fun prev => { prev with nextIn := entry.nextIn }
  if entry.nextIn ≠ M then
    changeEdge M g entry.nextIn fun next => { next with prevIn := entry.prevIn }
  else some g

/-- The block of `remove_edge` that takes the edge off the used edges. -/
def unhookEdge (g : AdjacencyList) (e : ℕ) : Option AdjacencyList := do
  let entry ← readEdge M g e
  let g ←
    if entry.prev = M then some { g with firstEdge := entry.next }
    else changeEdge M g entry.prev fun prev => { prev with next := entry.next }
  if entry.next ≠ M then changeEdge M g entry.next fun next => { next with prev := entry.prev }
  else some g

/-- `remove_edge`. -/
def removeEdge (g : AdjacencyList) (e : ℕ) : Option AdjacencyList :=
  if e = M then some g
  else do
    let entry ← readEdge M g e
    if entry.source = N then some g
    else
      let g ← changeEdge M g e fun entry =>
        { entry with source := N, next := g.firstUnusedEdge }
      let g := { g with firstUnusedEdge := e }
      let g ← unhookOut N M g e
      let entry ← readEdge M g e
      let g ← changeVertex N g entry.source fun vertex =>
        { vertex with outDegree := vertex.outDegree - 1 }
      let g ← unhookIn N M g e
      let entry ← readEdge M g e
      let g ← changeVertex N g entry.target fun vertex =>
        { vertex with inDegree := vertex.inDegree - 1 }
      let g ← unhookEdge M g e
      return { g with nedges := g.nedges - 1 }

/-- The block of `remove_vertex` that takes the vertex off the used vertices. -/
def unhookVertex (g : AdjacencyList) (v : ℕ) : Option AdjacencyList := do
  let entry ← readVertex N g v
  let g ←
    if entry.prev = N then some { g with firstVertex := entry.next }
    else changeVertex N g entry.prev fun prev => { prev with next := entry.next }
  if entry.next ≠ N then
    changeVertex N g entry.next fun next => { next with prev := entry.prev }
  else some g

/-- The first loop of `remove_vertex`. -/
def removeOutEdges (v : ℕ) : ℕ → AdjacencyList → Option AdjacencyList
  | 0, _ => none
  | fuel + 1, g => do
      let entry ← readVertex N g v
      if entry.outEdges ≠ M then
        let g ← removeEdge N M g entry.outEdges
        removeOutEdges v fuel g
      else some g

/-- The second loop of `remove_vertex`. -/
def removeInEdges (v : ℕ) : ℕ → AdjacencyList → Option AdjacencyList
  | 0, _ => none
  | fuel + 1, g => do
      let entry ← readVertex N g v
      if entry.inEdges ≠ M then
        let g ← removeEdge N M g entry.inEdges
        removeInEdges v fuel g
      else some g

/-- `remove_vertex` with the removal of its edges.  A round of a loop takes an edge off the
list, so more rounds than there are edges are never needed. -/
def removeVertex (g : AdjacencyList) (v : ℕ) : Option AdjacencyList :=
  if v = N then some g
  else do
    let entry ← readVertex N g v
    if entry.outDegree = M then some g
    else
      let g ← changeVertex N g v fun entry =>
        { entry with outDegree := M, next := g.firstUnusedVertex }
      let g := { g with firstUnusedVertex := v }
      let g ← unhookVertex N g v
      let g := { g with nvertices := g.nvertices - 1 }
      let g ← removeOutEdges N M v (M + 1) g
      removeInEdges N M v (M + 1) g

/-! ## Iterators -/

end Operations

/-- The indices an iterator passes from `first` up to `nil`, for so many steps at most. -/
def iterate (next : ℕ → ℕ) (nil : ℕ) : ℕ → ℕ → List ℕ
  | 0, _ => []
  | fuel + 1, first => if first = nil then [] else first :: iterate next nil fuel (next first)

section Iterators

variable (N M : ℕ) (g : AdjacencyList)

/-- `vertices()`.  One step more than there are slots shows whether it ends. -/
def vertices : List ℕ :=
  iterate (fun v => (g.vertexSet v).next) N (N + 1) g.firstVertex

def unusedVertices : List ℕ :=
  iterate (fun v => (g.vertexSet v).next) N (N + 1) g.firstUnusedVertex

/-- `edges()`. -/
def edges : List ℕ :=
  iterate (fun e => (g.edgeSet e).next) M (M + 1) g.firstEdge

def unusedEdges : List ℕ :=
  iterate (fun e => (g.edgeSet e).next) M (M + 1) g.firstUnusedEdge

/-- `out_edges()` of a vertex. -/
def outEdges (v : ℕ) : List ℕ :=
  iterate (fun e => (g.edgeSet e).nextOut) M (M + 1) (g.vertexSet v).outEdges

/-- `in_edges()` of a vertex. -/
def inEdges (v : ℕ) : List ℕ :=
  iterate (fun e => (g.edgeSet e).nextIn) M (M + 1) (g.vertexSet v).inEdges

end Iterators

end AdjacencyList

/-! ## The graph of the users -/

/-- An edge with the slot its descriptor names. -/
structure Edge where
  slot : ℕ
  source : ℕ
  target : ℕ
  deriving DecidableEq

/-- The live vertices and edges. -/
structure Graph where
  vertices : List ℕ
  edges : List Edge

inductive Op where
  | addVertex
  | addEdge (source target : ℕ)
  | removeEdge (e : ℕ)
  | removeVertex (v : ℕ)

namespace Graph

def empty : Graph := ⟨[], []⟩

/-- What an operation does to the graph, when it hands out the descriptor `result`. -/
def after (N M : ℕ) (graph : Graph) (result : ℕ) : Op → Graph
  | .addVertex =>
      if graph.vertices.length < N then { graph with vertices := result :: graph.vertices }
      else graph
  | .addEdge source target =>
      if graph.edges.length < M then
        { graph with edges := ⟨result, source, target⟩ :: graph.edges }
      else graph
  | .removeEdge e => { graph with edges := graph.edges.filter fun edge => edge.slot ≠ e }
  | .removeVertex v =>
      { vertices := graph.vertices.filter fun u => u ≠ v
        edges := graph.edges.filter fun edge => edge.source ≠ v ∧ edge.target ≠ v }

def outEdges (graph : Graph) (v : ℕ) : List ℕ :=
  (graph.edges.filter fun edge => edge.source = v).map Edge.slot

def inEdges (graph : Graph) (v : ℕ) : List ℕ :=
  (graph.edges.filter fun edge => edge.target = v).map Edge.slot

end Graph

/-- An adjacency list with the graph its users have built. -/
structure Tracked where
  list : AdjacencyList
  graph : Graph

namespace Tracked

variable (N M : ℕ)

/-- An operation on both; none for an access outside the tables or a loop without end. -/
def perform (state : Tracked) (op : Op) : Option Tracked :=
  match op with
  | .addVertex =>
      (state.list.addVertex N M).map fun (list, v) => ⟨list, state.graph.after N M v op⟩
  | .addEdge source target =>
      (state.list.addEdge N M source target).map fun (list, e) =>
        ⟨list, state.graph.after N M e op⟩
  | .removeEdge e =>
      (state.list.removeEdge N M e).map fun list => ⟨list, state.graph.after N M e op⟩
  | .removeVertex v =>
      (state.list.removeVertex N M v).map fun list => ⟨list, state.graph.after N M v op⟩

/-- **The lists are those of the graph.** -/
structure Faithful (state : Tracked) : Prop where
  vertex_slots : (state.list.vertices N ++ state.list.unusedVertices N).Perm (List.range N)
  edge_slots : (state.list.edges M ++ state.list.unusedEdges M).Perm (List.range M)
  vertices : (state.list.vertices N).Perm state.graph.vertices
  edges : (state.list.edges M).Perm (state.graph.edges.map Edge.slot)
  source : ∀ edge ∈ state.graph.edges, (state.list.edgeSet edge.slot).source = edge.source
  target : ∀ edge ∈ state.graph.edges, (state.list.edgeSet edge.slot).target = edge.target
  out_edges : ∀ v ∈ state.graph.vertices,
    (state.list.outEdges M v).Perm (state.graph.outEdges v)
  in_edges : ∀ v ∈ state.graph.vertices, (state.list.inEdges M v).Perm (state.graph.inEdges v)
  num_vertices : state.list.nvertices = state.graph.vertices.length
  num_edges : state.list.nedges = state.graph.edges.length
  out_degree : ∀ v ∈ state.graph.vertices,
    (state.list.vertexSet v).outDegree = (state.graph.outEdges v).length
  in_degree : ∀ v ∈ state.graph.vertices,
    (state.list.vertexSet v).inDegree = (state.graph.inEdges v).length

/-- What the callers hand in: live vertices for a new edge, and descriptors otherwise. -/
def Valid (state : Tracked) : Op → Prop
  | .addVertex => True
  | .addEdge source target =>
      source ∈ state.graph.vertices ∧ target ∈ state.graph.vertices
  | .removeEdge e => e ≤ M
  | .removeVertex v => v ≤ N

/-- When an operation leaves the lists those of the graph: an edge is only added where it
is the only edge there can be, live edges are not removed, and a live vertex is removed
only when all slots are used, it is the last of the list and has no edges. -/
def Safe (state : Tracked) : Op → Prop
  | .addVertex => True
  | .addEdge _ _ => state.list.nedges = M ∨ M = 1
  | .removeEdge e => e ∉ state.graph.edges.map Edge.slot
  | .removeVertex v => v ∉ state.graph.vertices ∨
      0 < M ∧ state.list.nvertices = N ∧ (state.list.vertexSet v).next = N ∧
        state.graph.outEdges v = [] ∧ state.graph.inEdges v = []

end Tracked

end Wiselib.Graphs
