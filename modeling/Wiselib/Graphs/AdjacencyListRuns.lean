import Wiselib.Graphs.AdjacencyList

/-!
# Runs of the adjacency list

When the lists of an `AdjacencyList` stay those of the graph its users build.

## Strategy

`Shape` names the four lists of slots and what the operations rely on beyond
`Faithful`: the backward links of the used vertices and the marks of unused
slots.

* `addVertex_spec` and `removeVertex_eq` say which links the operations on
  vertices write.  `remove_vertex` overwrites the link it unlinks with, so the
  used vertices behind the removed one are replaced by the unused ones.
* `addEdge_links`: an added edge keeps the link to the next unused edge, so all
  unused edges are iterated behind it.
* `removeEdge_eq_none`: `remove_edge` forgets the source before it unlinks, and
  writes behind the table of vertices.

For each operation one lemma keeps `Shape` under `Safe`, and one shows what is
wrong otherwise; `perform_of_safe` and `safe_of_perform` put them together.
-/

namespace Wiselib.Graphs

open Transition IndexList

/-! ## Iterators -/

theorem iterate_eq {next : ℕ → ℕ} {nil : ℕ} {ids : List ℕ} :
    ∀ {fuel first : ℕ}, Segment next nil first ids nil → ids.length < fuel →
      AdjacencyList.iterate next nil fuel first = ids := by
  induction ids with
  | nil =>
      intro fuel first hseg hfuel
      obtain ⟨fuel, rfl⟩ := Nat.exists_eq_succ_of_ne_zero hfuel.ne_bot
      exact if_pos hseg
  | cons id rest ih =>
      intro fuel first hseg hfuel
      obtain ⟨rfl, hid, hrest⟩ := hseg
      obtain ⟨fuel, rfl⟩ := Nat.exists_eq_succ_of_ne_zero hfuel.ne_bot
      rw [List.length_cons] at hfuel
      rw [AdjacencyList.iterate, if_neg hid, ih hrest (by omega)]

section Runs

variable {N M : ℕ}

/-! ## The invariant -/

/-- The lists of vertices: `used` and `unused` ones. -/
structure VertexShape (N M : ℕ) (state : Tracked) (used unused : List ℕ) : Prop where
  used_vertices :
    Segment (fun v => (state.list.vertexSet v).next) N state.list.firstVertex used N
  prevs : (N :: used).IsChain fun first second => (state.list.vertexSet second).prev = first
  unused_vertices :
    Segment (fun v => (state.list.vertexSet v).next) N state.list.firstUnusedVertex unused N
  vertex_slots : (used ++ unused).Perm (List.range N)
  vertices : used.Perm state.graph.vertices
  removed : ∀ v ∈ unused, (state.list.vertexSet v).outDegree = M
  num_vertices : state.list.nvertices = state.graph.vertices.length

/-- The lists of edges: `live` and `free` ones, and those of each vertex. -/
structure EdgeShape (N M : ℕ) (state : Tracked) (live free : List ℕ) : Prop where
  live_edges : Segment (fun e => (state.list.edgeSet e).next) M state.list.firstEdge live M
  free_edges :
    Segment (fun e => (state.list.edgeSet e).next) M state.list.firstUnusedEdge free M
  edge_slots : (live ++ free).Perm (List.range M)
  edges : live.Perm (state.graph.edges.map Edge.slot)
  freed : ∀ e ∈ free, (state.list.edgeSet e).source = N
  source : ∀ edge ∈ state.graph.edges, (state.list.edgeSet edge.slot).source = edge.source
  target : ∀ edge ∈ state.graph.edges, (state.list.edgeSet edge.slot).target = edge.target
  ends : ∀ edge ∈ state.graph.edges,
    edge.source ∈ state.graph.vertices ∧ edge.target ∈ state.graph.vertices
  out_edges : ∀ v ∈ state.graph.vertices, ∃ ids,
    Segment (fun e => (state.list.edgeSet e).nextOut) M (state.list.vertexSet v).outEdges ids M ∧
      ids.Perm (state.graph.outEdges v)
  in_edges : ∀ v ∈ state.graph.vertices, ∃ ids,
    Segment (fun e => (state.list.edgeSet e).nextIn) M (state.list.vertexSet v).inEdges ids M ∧
      ids.Perm (state.graph.inEdges v)
  num_edges : state.list.nedges = state.graph.edges.length
  out_degree : ∀ v ∈ state.graph.vertices,
    (state.list.vertexSet v).outDegree = (state.graph.outEdges v).length
  in_degree : ∀ v ∈ state.graph.vertices,
    (state.list.vertexSet v).inDegree = (state.graph.inEdges v).length

/-- The lists of slots. -/
structure Shape (N M : ℕ) (state : Tracked) (used unused live free : List ℕ) : Prop extends
  VertexShape N M state used unused, EdgeShape N M state live free

namespace Shape

variable {state : Tracked} {used unused live free : List ℕ}
variable (hshape : Shape N M state used unused live free)

include hshape

theorem vertices_length : used.length + unused.length = N := by
  rw [← List.length_append, hshape.vertex_slots.length_eq, List.length_range]

theorem edges_length : live.length + free.length = M := by
  rw [← List.length_append, hshape.edge_slots.length_eq, List.length_range]

theorem used_length : used.length = state.list.nvertices := by
  rw [hshape.vertices.length_eq, hshape.num_vertices]

theorem live_length : live.length = state.list.nedges := by
  rw [hshape.edges.length_eq, List.length_map, hshape.num_edges]

theorem vertices_nodup : (used ++ unused).Nodup :=
  hshape.vertex_slots.nodup_iff.2 List.nodup_range

theorem vertex_lt {v : ℕ} (hv : v ∈ used ++ unused) : v < N :=
  List.mem_range.1 (hshape.vertex_slots.mem_iff.1 hv)

theorem edge_lt {e : ℕ} (he : e ∈ live ++ free) : e < M :=
  List.mem_range.1 (hshape.edge_slots.mem_iff.1 he)

theorem live_lt {v : ℕ} (hv : v ∈ state.graph.vertices) : v < N :=
  hshape.vertex_lt (List.mem_append_left _ (hshape.vertices.mem_iff.2 hv))

theorem outEdges_length_le (v : ℕ) : (state.graph.outEdges v).length ≤ M := by
  calc (state.graph.outEdges v).length
      ≤ state.graph.edges.length := by
        rw [Graph.outEdges, List.length_map]
        exact List.length_filter_le _ _
    _ = live.length := by rw [hshape.live_length, hshape.num_edges]
    _ ≤ M := by
        have := hshape.edges_length
        omega

theorem inEdges_length_le (v : ℕ) : (state.graph.inEdges v).length ≤ M := by
  calc (state.graph.inEdges v).length
      ≤ state.graph.edges.length := by
        rw [Graph.inEdges, List.length_map]
        exact List.length_filter_le _ _
    _ = live.length := by rw [hshape.live_length, hshape.num_edges]
    _ ≤ M := by
        have := hshape.edges_length
        omega

/-- **The invariant** makes the lists those of the graph. -/
theorem faithful : state.Faithful N M := by
  have hN := hshape.vertices_length
  have hM := hshape.edges_length
  have hused : state.list.vertices N = used := iterate_eq hshape.used_vertices (by omega)
  have hunused : state.list.unusedVertices N = unused :=
    iterate_eq hshape.unused_vertices (by omega)
  have hlive : state.list.edges M = live := iterate_eq hshape.live_edges (by omega)
  have hfree : state.list.unusedEdges M = free := iterate_eq hshape.free_edges (by omega)
  refine ⟨?_, ?_, ?_, ?_, hshape.source, hshape.target, fun v hv => ?_, fun v hv => ?_,
    hshape.num_vertices, hshape.num_edges, hshape.out_degree, hshape.in_degree⟩
  · rw [hused, hunused]
    exact hshape.vertex_slots
  · rw [hlive, hfree]
    exact hshape.edge_slots
  · rw [hused]
    exact hshape.vertices
  · rw [hlive]
    exact hshape.edges
  · obtain ⟨ids, hseg, hperm⟩ := hshape.out_edges v hv
    have hlength : ids.length < M + 1 := by
      rw [hperm.length_eq]
      exact Nat.lt_succ_of_le (hshape.outEdges_length_le v)
    rw [show state.list.outEdges M v = ids from iterate_eq hseg hlength]
    exact hperm
  · obtain ⟨ids, hseg, hperm⟩ := hshape.in_edges v hv
    have hlength : ids.length < M + 1 := by
      rw [hperm.length_eq]
      exact Nat.lt_succ_of_le (hshape.inEdges_length_le v)
    rw [show state.list.inEdges M v = ids from iterate_eq hseg hlength]
    exact hperm

theorem firstVertex_cases :
    (used = [] ∧ state.list.firstVertex = N) ∨
      ∃ rest, used = state.list.firstVertex :: rest ∧ state.list.firstVertex < N := by
  cases hcase : used with
  | nil =>
      have hseg := hshape.used_vertices
      rw [hcase] at hseg
      exact .inl ⟨rfl, hseg⟩
  | cons u rest =>
      have hseg := hshape.used_vertices
      rw [hcase] at hseg
      obtain ⟨rfl, -⟩ := hseg
      exact .inr ⟨rest, rfl, hshape.vertex_lt (by simp [hcase])⟩

theorem firstUnusedVertex_cases :
    (unused = [] ∧ state.list.firstUnusedVertex = N) ∨
      ∃ rest, unused = state.list.firstUnusedVertex :: rest ∧
        state.list.firstUnusedVertex < N := by
  cases hcase : unused with
  | nil =>
      have hseg := hshape.unused_vertices
      rw [hcase] at hseg
      exact .inl ⟨rfl, hseg⟩
  | cons u rest =>
      have hseg := hshape.unused_vertices
      rw [hcase] at hseg
      obtain ⟨rfl, -⟩ := hseg
      exact .inr ⟨rest, rfl, hshape.vertex_lt (by simp [hcase])⟩

end Shape

/-! ## Adding vertices -/

theorem addVertex_full {g : AdjacencyList} (hfull : g.nvertices = N) :
    g.addVertex N M = some (g, N) :=
  if_pos hfull

theorem addVertex_spec {g : AdjacencyList} (hroom : g.nvertices ≠ N)
    (hunused : g.firstUnusedVertex < N) (hfirst : g.firstVertex ≤ N)
    (hne : g.firstVertex ≠ g.firstUnusedVertex) :
    ∃ vertexSet : ℕ → VertexEntry,
      g.addVertex N M = some
        ({ g with
            vertexSet := vertexSet
            firstVertex := g.firstUnusedVertex
            firstUnusedVertex := (g.vertexSet g.firstUnusedVertex).next
            nvertices := g.nvertices + 1 }, g.firstUnusedVertex) ∧
      vertexSet g.firstUnusedVertex = ⟨M, M, 0, 0, g.firstVertex, N⟩ ∧
      ∀ u, u < N → u ≠ g.firstUnusedVertex → vertexSet u =
        if u = g.firstVertex then { g.vertexSet u with prev := g.firstUnusedVertex }
        else g.vertexSet u := by
  let written : VertexEntry := ⟨M, M, 0, 0, g.firstVertex, N⟩
  rcases hfirst.eq_or_lt with hnil | hlt
  · refine ⟨Function.update g.vertexSet g.firstUnusedVertex written, ?_,
      Function.update_self .., fun u hu hunew => ?_⟩
    · simp [AdjacencyList.addVertex, AdjacencyList.readVertex, AdjacencyList.changeVertex, hroom,
        hunused, hnil, written]
    · rw [if_neg (by omega), Function.update_of_ne hunew]
  · refine ⟨Function.update (Function.update g.vertexSet g.firstVertex
      { g.vertexSet g.firstVertex with prev := g.firstUnusedVertex }) g.firstUnusedVertex written,
      ?_, Function.update_self .., fun u hu hunew => ?_⟩
    · simp only [AdjacencyList.addVertex, if_neg hroom, AdjacencyList.readVertex, if_pos hunused,
        AdjacencyList.changeVertex, if_pos hlt, if_pos hlt.ne, ne_eq, Option.bind_eq_bind,
        Option.bind_some, Option.pure_def, Function.update_self, Function.update_of_ne hne,
        Function.update_of_ne hne.symm, written]
      rw [Function.update_comm hne.symm, Function.update_idem]
    · rw [Function.update_of_ne hunew]
      split
      · rename_i heq
        rw [heq, Function.update_self]
      · rename_i hneq
        rw [Function.update_of_ne hneq]

namespace EdgeShape

variable {state : Tracked} {live free : List ℕ} (hshape : EdgeShape N M state live free)

include hshape

theorem outEdges_eq_nil {v : ℕ} (hv : v ∉ state.graph.vertices) : state.graph.outEdges v = [] := by
  have hnone : ∀ edge ∈ state.graph.edges, edge.source ≠ v := by
    rintro edge hedge rfl
    exact hv (hshape.ends edge hedge).1
  simpa [Graph.outEdges, List.filter_eq_nil_iff] using hnone

theorem inEdges_eq_nil {v : ℕ} (hv : v ∉ state.graph.vertices) : state.graph.inEdges v = [] := by
  have hnone : ∀ edge ∈ state.graph.edges, edge.target ≠ v := by
    rintro edge hedge rfl
    exact hv (hshape.ends edge hedge).2
  simpa [Graph.inEdges, List.filter_eq_nil_iff] using hnone

/-- Operations on vertices leave the lists of edges alone, and a new vertex starts
without edges. -/
theorem of_vertices {vertexSet : ℕ → VertexEntry} {vertices : List ℕ} {first unused count : ℕ}
    (hends : ∀ edge ∈ state.graph.edges, edge.source ∈ vertices ∧ edge.target ∈ vertices)
    (hlive : ∀ v ∈ vertices,
      (v ∈ state.graph.vertices ∧
        ∃ next prev, vertexSet v = { state.list.vertexSet v with next := next, prev := prev }) ∨
      v ∉ state.graph.vertices ∧ ∃ next prev, vertexSet v = ⟨M, M, 0, 0, next, prev⟩) :
    EdgeShape N M
      ⟨{ state.list with
          vertexSet := vertexSet
          firstVertex := first
          firstUnusedVertex := unused
          nvertices := count }, ⟨vertices, state.graph.edges⟩⟩ live free where
  live_edges := hshape.live_edges
  free_edges := hshape.free_edges
  edge_slots := hshape.edge_slots
  edges := hshape.edges
  freed := hshape.freed
  source := hshape.source
  target := hshape.target
  ends := hends
  num_edges := hshape.num_edges
  out_edges v hv := by
    obtain ⟨hkept, next, prev, hentry⟩ | ⟨hnew, next, prev, hentry⟩ := hlive v hv
    · simp only [hentry]
      exact hshape.out_edges v hkept
    · simp only [hentry]
      exact ⟨[], rfl, (hshape.outEdges_eq_nil hnew).symm ▸ .refl _⟩
  in_edges v hv := by
    obtain ⟨hkept, next, prev, hentry⟩ | ⟨hnew, next, prev, hentry⟩ := hlive v hv
    · simp only [hentry]
      exact hshape.in_edges v hkept
    · simp only [hentry]
      exact ⟨[], rfl, (hshape.inEdges_eq_nil hnew).symm ▸ .refl _⟩
  out_degree v hv := by
    obtain ⟨hkept, next, prev, hentry⟩ | ⟨hnew, next, prev, hentry⟩ := hlive v hv
    · simp only [hentry]
      exact hshape.out_degree v hkept
    · simp only [hentry]
      exact (congrArg List.length (hshape.outEdges_eq_nil hnew)).symm
  in_degree v hv := by
    obtain ⟨hkept, next, prev, hentry⟩ | ⟨hnew, next, prev, hentry⟩ := hlive v hv
    · simp only [hentry]
      exact hshape.in_degree v hkept
    · simp only [hentry]
      exact (congrArg List.length (hshape.inEdges_eq_nil hnew)).symm

end EdgeShape

/-- **`add_vertex`** keeps the invariant. -/
theorem Shape.addVertex {state : Tracked} {used unused live free : List ℕ}
    (hshape : Shape N M state used unused live free) :
    ∃ next used' unused', state.perform N M .addVertex = some next ∧
      Shape N M next used' unused' live free := by
  by_cases hfull : state.list.nvertices = N
  · refine ⟨state, used, unused, ?_, hshape⟩
    have hlength : ¬ state.graph.vertices.length < N := by
      rw [← hshape.num_vertices]
      omega
    simp [Tracked.perform, addVertex_full hfull, Graph.after, hlength]
  · -- a slot is left, since not all are used
    have hlength := hshape.vertices_length
    have husedLength := hshape.used_length
    obtain ⟨hnil, -⟩ | ⟨rest, hunused, hlt⟩ := hshape.firstUnusedVertex_cases
    · rw [hnil, List.length_nil] at hlength
      omega
    have hnodup := hshape.vertices_nodup
    have hsegment := hshape.unused_vertices
    have hmarked := hshape.removed
    have hvertexLt := fun u => hshape.vertex_lt (v := u)
    have hslots := hshape.vertex_slots
    rw [hunused] at hnodup hsegment hmarked hvertexLt hslots
    generalize hv : state.list.firstUnusedVertex = v at *
    obtain ⟨hvrest, hvused⟩ : v ∉ rest ∧ v ∉ used := by
      rw [List.nodup_middle, List.nodup_cons, List.mem_append] at hnodup
      tauto
    have hvlive : v ∉ state.graph.vertices := fun hmem =>
      hvused (hshape.vertices.mem_iff.2 hmem)
    have hfirst : state.list.firstVertex ≤ N ∧ state.list.firstVertex ≠ v := by
      obtain ⟨-, hnil⟩ | ⟨tail, hcons, hfirst⟩ := hshape.firstVertex_cases
      · exact ⟨hnil.le, by omega⟩
      · refine ⟨hfirst.le, fun heq => hvused ?_⟩
        rw [hcons, heq]
        exact List.mem_cons_self
    obtain ⟨vertexSet, hperform, hwritten, hother⟩ :=
      addVertex_spec (M := M) hfull (hv ▸ hlt) hfirst.1 (hv ▸ hfirst.2)
    rw [hv] at hperform hwritten hother
    have hrest : ∀ u ∈ used ++ rest, u < N ∧ u ≠ v := by
      intro u hu
      refine ⟨hvertexLt u (by simp at hu ⊢; tauto), ?_⟩
      rintro rfl
      rcases List.mem_append.1 hu with hu | hu
      · exact hvused hu
      · exact hvrest hu
    have hsame : ∀ u ∈ used ++ rest, ∃ p, vertexSet u = { state.list.vertexSet u with prev := p } := by
      intro u hu
      rw [hother u (hrest u hu).1 (hrest u hu).2]
      split
      · exact ⟨_, rfl⟩
      · exact ⟨_, rfl⟩
    have hroom : state.graph.vertices.length < N := by
      rw [← hshape.num_vertices]
      omega
    refine ⟨⟨{ state.list with
        vertexSet := vertexSet
        firstVertex := v
        firstUnusedVertex := (state.list.vertexSet v).next
        nvertices := state.list.nvertices + 1 }, ⟨v :: state.graph.vertices, state.graph.edges⟩⟩,
      v :: used, rest, ?_, ?vertices, hshape.of_vertices ?ends ?entries⟩
    · simp [Tracked.perform, hperform, Graph.after, hroom]
    case ends =>
      exact fun edge hedge => ⟨List.mem_cons_of_mem _ (hshape.ends edge hedge).1,
        List.mem_cons_of_mem _ (hshape.ends edge hedge).2⟩
    case entries =>
      intro u hu
      rcases List.mem_cons.1 hu with rfl | hu
      · exact .inr ⟨hvlive, _, _, hwritten⟩
      · obtain ⟨p, hp⟩ := hsame u (List.mem_append_left _ (hshape.vertices.mem_iff.2 hu))
        exact .inl ⟨hu, _, p, hp⟩
    case vertices =>
      have hwalk : ∀ u ∈ used ++ rest, (vertexSet u).next = (state.list.vertexSet u).next := by
        intro u hu
        obtain ⟨p, hp⟩ := hsame u hu
        rw [hp]
      constructor
      case used_vertices =>
        refine ⟨rfl, hlt.ne, ?_⟩
        simp only [hwritten]
        exact hshape.used_vertices.congr fun u hu => hwalk u (List.mem_append_left _ hu)
      case prevs =>
        rw [List.isChain_cons_cons]
        refine ⟨congrArg VertexEntry.prev hwritten, ?_⟩
        obtain ⟨hnil, -⟩ | ⟨tail, hcons, hfirst⟩ := hshape.firstVertex_cases
        · rw [hnil]
          exact .singleton v
        · have hprevs := hshape.prevs
          have hused : (used ++ v :: rest).Nodup := hnodup
          rw [hcons] at hprevs hrest hused ⊢
          rw [List.isChain_cons_cons] at hprevs ⊢
          refine ⟨?_, hprevs.2.imp_of_mem_tail_imp fun a b _ hb hab => ?_⟩
          · simp only [hother _ hfirst (hrest _ (by simp)).2, if_pos]
          · have hne : b ≠ state.list.firstVertex := by
              rintro rfl
              exact (List.nodup_cons.1 hused.of_append_left).1 hb
            obtain ⟨hlt, hbv⟩ := hrest b (by simp at hb ⊢; tauto)
            simp only [hother b hlt hbv, if_neg hne, hab]
      case unused_vertices =>
        exact hsegment.2.2.congr fun u hu => hwalk u (List.mem_append_right _ hu)
      case vertex_slots => exact List.perm_middle.symm.trans hslots
      case vertices => exact hshape.vertices.cons v
      case removed =>
        intro u hu
        obtain ⟨p, hp⟩ := hsame u (List.mem_append_right _ hu)
        simp only [hp]
        exact hmarked u (List.mem_cons_of_mem v hu)
      case num_vertices => exact congrArg (· + 1) hshape.num_vertices

/-! ## Removing edges -/

theorem changeEdge_eq_some {g g' : AdjacencyList} {e : ℕ} {change : EdgeEntry → EdgeEntry}
    (hchange : g.changeEdge M e change = some g') :
    e < M ∧ g' = { g with edgeSet := Function.update g.edgeSet e (change (g.edgeSet e)) } := by
  rw [AdjacencyList.changeEdge] at hchange
  split at hchange
  · rename_i hlt
    exact ⟨hlt, (Option.some.inj hchange).symm⟩
  · simp at hchange

theorem changeEdge_frame {Value : Type} (field : EdgeEntry → Value) {g g' : AdjacencyList} {e : ℕ}
    {change : EdgeEntry → EdgeEntry} (hchange : g.changeEdge M e change = some g')
    (hfield : ∀ entry, field (change entry) = field entry) (other : ℕ) :
    field (g'.edgeSet other) = field (g.edgeSet other) := by
  obtain ⟨-, rfl⟩ := changeEdge_eq_some hchange
  by_cases heq : other = e
  · simp only [heq, Function.update_self, hfield]
  · simp only [Function.update_of_ne heq]

theorem changeVertex_eq_some {g g' : AdjacencyList} {v : ℕ} {change : VertexEntry → VertexEntry}
    (hchange : g.changeVertex N v change = some g') :
    v < N ∧ g' = { g with vertexSet := Function.update g.vertexSet v (change (g.vertexSet v)) } := by
  rw [AdjacencyList.changeVertex] at hchange
  split at hchange
  · rename_i hlt
    exact ⟨hlt, (Option.some.inj hchange).symm⟩
  · simp at hchange

theorem unhookOut_source {g g' : AdjacencyList} {e : ℕ} (hunhook : g.unhookOut N M e = some g')
    (other : ℕ) : (g'.edgeSet other).source = (g.edgeSet other).source := by
  obtain ⟨entry, -, hunhook⟩ := Option.bind_eq_some_iff.1 hunhook
  have hback : ∀ {middle : AdjacencyList},
      (if entry.nextOut ≠ M then
        middle.changeEdge M entry.nextOut fun next => { next with prevOut := entry.prevOut }
      else some middle) = some g' →
      (g'.edgeSet other).source = (middle.edgeSet other).source := by
    intro middle hunhook
    split at hunhook
    · exact changeEdge_frame EdgeEntry.source hunhook (fun _ => rfl) other
    · rw [Option.some.inj hunhook]
  dsimp only at hunhook
  split at hunhook
  · obtain ⟨middle, hmiddle, hunhook⟩ := Option.bind_eq_some_iff.1 hunhook
    rw [hback hunhook, (changeVertex_eq_some hmiddle).2]
  · obtain ⟨middle, hmiddle, hunhook⟩ := Option.bind_eq_some_iff.1 hunhook
    rw [hback hunhook, changeEdge_frame EdgeEntry.source hmiddle (fun _ => rfl)]

theorem removeEdge_dead {g : AdjacencyList} {e : ℕ}
    (hdead : e = M ∨ e < M ∧ (g.edgeSet e).source = N) : g.removeEdge N M e = some g := by
  rcases hdead with rfl | ⟨hlt, hsource⟩
  · exact if_pos rfl
  · simp [AdjacencyList.removeEdge, AdjacencyList.readEdge, hlt, hlt.ne, hsource]

/-- **`remove_edge` writes behind the vertices**: the source is gone when it is asked for. -/
theorem removeEdge_eq_none {g : AdjacencyList} {e : ℕ} (hlt : e < M)
    (hsource : (g.edgeSet e).source ≠ N) : g.removeEdge N M e = none := by
  rw [Option.eq_none_iff_forall_ne_some]
  intro last hremove
  rw [AdjacencyList.removeEdge, if_neg hlt.ne, AdjacencyList.readEdge, if_pos hlt] at hremove
  simp only [Option.bind_eq_bind, Option.bind_some, if_neg hsource] at hremove
  obtain ⟨marked, hmarked, hremove⟩ := Option.bind_eq_some_iff.1 hremove
  obtain ⟨unhooked, hunhooked, hremove⟩ := Option.bind_eq_some_iff.1 hremove
  obtain ⟨entry, hentry, hremove⟩ := Option.bind_eq_some_iff.1 hremove
  obtain ⟨counted, hcounted, -⟩ := Option.bind_eq_some_iff.1 hremove
  have hgone : (unhooked.edgeSet e).source = N := by
    rw [unhookOut_source hunhooked]
    simp only [(changeEdge_eq_some hmarked).2, Function.update_self]
  rw [AdjacencyList.readEdge, if_pos hlt] at hentry
  obtain rfl := Option.some.inj hentry
  rw [hgone] at hcounted
  exact absurd (changeVertex_eq_some hcounted).1 (lt_irrefl N)

/-! ## Adding edges -/

/-- The links of used and unused edges are the same. -/
def SameLinks (g g' : AdjacencyList) : Prop :=
  g'.firstEdge = g.firstEdge ∧ g'.firstUnusedEdge = g.firstUnusedEdge ∧
    ∀ e, (g'.edgeSet e).next = (g.edgeSet e).next

theorem SameLinks.trans {g g' g'' : AdjacencyList} (hfront : SameLinks g g')
    (hback : SameLinks g' g'') : SameLinks g g'' :=
  ⟨hback.1.trans hfront.1, hback.2.1.trans hfront.2.1,
    fun e => (hback.2.2 e).trans (hfront.2.2 e)⟩

theorem sameLinks_changeEdge {g g' : AdjacencyList} {e : ℕ} {change : EdgeEntry → EdgeEntry}
    (hchange : g.changeEdge M e change = some g')
    (hnext : ∀ entry, (change entry).next = entry.next) : SameLinks g g' := by
  refine ⟨?_, ?_, changeEdge_frame EdgeEntry.next hchange hnext⟩
  · rw [(changeEdge_eq_some hchange).2]
  · rw [(changeEdge_eq_some hchange).2]

theorem sameLinks_changeVertex {g g' : AdjacencyList} {v : ℕ}
    {change : VertexEntry → VertexEntry} (hchange : g.changeVertex N v change = some g') :
    SameLinks g g' := by
  obtain ⟨-, rfl⟩ := changeVertex_eq_some hchange
  exact ⟨rfl, rfl, fun _ => rfl⟩

theorem sameLinks_hookOut {g g' : AdjacencyList} {e source : ℕ}
    (hhook : g.hookOut N M e source = some g') : SameLinks g g' := by
  obtain ⟨entry, -, hhook⟩ := Option.bind_eq_some_iff.1 hhook
  obtain ⟨linked, hlinked, hhook⟩ := Option.bind_eq_some_iff.1 hhook
  refine (sameLinks_changeEdge hlinked fun _ => rfl).trans ?_
  extract_lets finish at hhook
  split at hhook
  · obtain ⟨back, hback, hhook⟩ := Option.bind_eq_some_iff.1 hhook
    exact (sameLinks_changeEdge hback fun _ => rfl).trans (sameLinks_changeVertex hhook)
  · obtain ⟨back, hback, hhook⟩ := Option.bind_eq_some_iff.1 hhook
    obtain rfl := Option.some.inj hback
    exact sameLinks_changeVertex hhook

theorem sameLinks_hookIn {g g' : AdjacencyList} {e target : ℕ}
    (hhook : g.hookIn N M e target = some g') : SameLinks g g' := by
  obtain ⟨entry, -, hhook⟩ := Option.bind_eq_some_iff.1 hhook
  obtain ⟨linked, hlinked, hhook⟩ := Option.bind_eq_some_iff.1 hhook
  refine (sameLinks_changeEdge hlinked fun _ => rfl).trans ?_
  extract_lets finish at hhook
  split at hhook
  · obtain ⟨back, hback, hhook⟩ := Option.bind_eq_some_iff.1 hhook
    exact (sameLinks_changeEdge hback fun _ => rfl).trans (sameLinks_changeVertex hhook)
  · obtain ⟨back, hback, hhook⟩ := Option.bind_eq_some_iff.1 hhook
    obtain rfl := Option.some.inj hback
    exact sameLinks_changeVertex hhook

/-- **An added edge keeps its link** to the next unused edge. -/
theorem addEdge_links {g last : AdjacencyList} {source target e : ℕ} (hroom : g.nedges ≠ M)
    (hsource : source ≠ N) (htarget : target ≠ N)
    (hadd : g.addEdge N M source target = some (last, e)) :
    e = g.firstUnusedEdge ∧ last.firstEdge = e ∧ last.firstUnusedEdge = (g.edgeSet e).next ∧
      ∀ other, (last.edgeSet other).next = (g.edgeSet other).next := by
  rw [AdjacencyList.addEdge, if_neg (by simp [hroom, hsource, htarget])] at hadd
  obtain ⟨entry, hentry, hadd⟩ := Option.bind_eq_some_iff.1 hadd
  obtain rfl : g.edgeSet g.firstUnusedEdge = entry := by
    rw [AdjacencyList.readEdge] at hentry
    split at hentry
    · exact Option.some.inj hentry
    · simp at hentry
  obtain ⟨written, hwritten, hadd⟩ := Option.bind_eq_some_iff.1 hadd
  have hfront := sameLinks_changeEdge hwritten fun _ => rfl
  extract_lets finish at hadd
  -- what is left hangs the edge in the lists of its vertices
  have hfinish : ∀ {middle : AdjacencyList}, finish middle = some (last, e) →
      e = g.firstUnusedEdge ∧
        SameLinks { middle with firstEdge := g.firstUnusedEdge } last := by
    intro middle hfinish
    obtain ⟨first, hfirst, hfinish⟩ := Option.bind_eq_some_iff.1 hfinish
    obtain ⟨out, hout, hfinish⟩ := Option.bind_eq_some_iff.1 hfinish
    obtain ⟨outCounted, houtCounted, hfinish⟩ := Option.bind_eq_some_iff.1 hfinish
    obtain ⟨second, hsecond, hfinish⟩ := Option.bind_eq_some_iff.1 hfinish
    obtain ⟨into, hinto, hfinish⟩ := Option.bind_eq_some_iff.1 hfinish
    obtain ⟨inCounted, hinCounted, hfinish⟩ := Option.bind_eq_some_iff.1 hfinish
    obtain ⟨rfl, rfl⟩ := Prod.mk.inj (Option.some.inj hfinish)
    refine ⟨rfl, ?_⟩
    have hhooks := (sameLinks_hookOut hout).trans <| (sameLinks_changeVertex houtCounted).trans <|
      (sameLinks_changeEdge hsecond fun _ => rfl).trans <| (sameLinks_hookIn hinto).trans <|
        sameLinks_changeVertex hinCounted
    exact (sameLinks_changeEdge hfirst fun _ => rfl).trans hhooks
  have hlinks : ∀ {middle : AdjacencyList}, SameLinks written middle →
      finish middle = some (last, e) →
      e = g.firstUnusedEdge ∧ last.firstEdge = e ∧ last.firstUnusedEdge = (g.edgeSet e).next ∧
        ∀ other, (last.edgeSet other).next = (g.edgeSet other).next := by
    intro middle hmiddle hlast
    obtain ⟨rfl, hfirst, hunused, hnext⟩ := hfinish hlast
    refine ⟨rfl, hfirst, ?_, fun other => ?_⟩
    · calc last.firstUnusedEdge = middle.firstUnusedEdge := hunused
        _ = written.firstUnusedEdge := hmiddle.2.1
        _ = (g.edgeSet g.firstUnusedEdge).next := hfront.2.1
    · calc (last.edgeSet other).next = (middle.edgeSet other).next := hnext other
        _ = (written.edgeSet other).next := hmiddle.2.2 other
        _ = (g.edgeSet other).next := hfront.2.2 other
  split at hadd
  · obtain ⟨back, hback, hadd⟩ := Option.bind_eq_some_iff.1 hadd
    exact hlinks (sameLinks_changeEdge hback fun _ => rfl) hadd
  · exact hlinks ⟨rfl, rfl, fun _ => rfl⟩ hadd

/-- The list with the only edge there can be. -/
def withEdge (g : AdjacencyList) (source target : ℕ) : AdjacencyList :=
  { g with
    vertexSet := fun v =>
      { g.vertexSet v with
        outEdges := if v = source then 0 else (g.vertexSet v).outEdges
        inEdges := if v = target then 0 else (g.vertexSet v).inEdges
        outDegree := (g.vertexSet v).outDegree + if v = source then 1 else 0
        inDegree := (g.vertexSet v).inDegree + if v = target then 1 else 0 }
    edgeSet := Function.update g.edgeSet 0 ⟨source, target, (g.edgeSet 0).next, 1, 1, 1, 1, 1⟩
    firstEdge := 0
    firstUnusedEdge := (g.edgeSet 0).next
    nedges := g.nedges + 1 }

theorem addEdge_single {g : AdjacencyList} {source target : ℕ} (hroom : g.nedges ≠ 1)
    (hsource : source < N) (htarget : target < N) (hfirst : g.firstEdge = 1)
    (hunused : g.firstUnusedEdge = 0) (hout : (g.vertexSet source).outEdges = 1)
    (hin : (g.vertexSet target).inEdges = 1) :
    g.addEdge N 1 source target = some (withEdge g source target, 0) := by
  by_cases hloop : target = source
  · subst hloop
    simp [AdjacencyList.addEdge, AdjacencyList.readEdge, AdjacencyList.changeEdge,
      AdjacencyList.hookOut, AdjacencyList.hookIn, AdjacencyList.readVertex,
      AdjacencyList.changeVertex, hroom, hsource, hsource.ne, hfirst, hunused, hout, hin,
      withEdge]
    funext v
    by_cases hv : v = target <;> simp [hv]
  · simp [AdjacencyList.addEdge, AdjacencyList.readEdge, AdjacencyList.changeEdge,
      AdjacencyList.hookOut, AdjacencyList.hookIn, AdjacencyList.readVertex,
      AdjacencyList.changeVertex, hroom, hsource, htarget, hsource.ne, htarget.ne, hfirst, hunused,
      hout, hin, Function.update_of_ne hloop, withEdge]
    funext v
    by_cases hvsource : v = source
    · subst hvsource
      simp [Ne.symm hloop]
    · by_cases hvtarget : v = target <;> simp [hvtarget, hvsource, hloop]

namespace Shape

variable {state : Tracked} {used unused live free : List ℕ}
variable (hshape : Shape N M state used unused live free)

include hshape

theorem addEdge_full {source target : ℕ} (hfull : state.list.nedges = M) :
    state.perform N M (.addEdge source target) = some state := by
  have hlength : ¬ state.graph.edges.length < M := by
    rw [← hshape.num_edges]
    omega
  simp [Tracked.perform, AdjacencyList.addEdge, hfull, Graph.after, hlength]

/-- Unless it is the only edge there can be, an added edge spoils the lists. -/
theorem eq_one_of_addEdge {source target : ℕ} {next : Tracked}
    (hsource : source ∈ state.graph.vertices) (htarget : target ∈ state.graph.vertices)
    (hroom : state.list.nedges ≠ M)
    (hperform : state.perform N M (.addEdge source target) = some next)
    (hfaithful : next.Faithful N M) : M = 1 := by
  obtain ⟨⟨list, e⟩, hadd, rfl⟩ := Option.map_eq_some_iff.1 hperform
  obtain ⟨rfl, hfirst, hunused, hnext⟩ :=
    addEdge_links hroom (hshape.live_lt hsource).ne (hshape.live_lt htarget).ne hadd
  have hlength := hshape.edges_length
  have hlive := hshape.live_length
  cases hfree : free with
  | nil =>
      rw [hfree, List.length_nil] at hlength
      omega
  | cons head rest =>
      have hsegment := hshape.free_edges
      rw [hfree] at hsegment
      obtain ⟨rfl, hhead, hrest⟩ := hsegment
      rw [hfree, List.length_cons] at hlength
      -- the new edge is followed by the edges that are still unused
      have hedges : list.edges M = state.list.firstUnusedEdge :: rest := by
        refine iterate_eq ⟨hfirst, hhead, ?_⟩ (by simp; omega)
        simp only [hnext]
        exact hrest
      have hunusedEdges : list.unusedEdges M = rest := by
        refine iterate_eq ?_ (by omega)
        rw [hunused]
        exact hrest.congr fun other _ => hnext other
      have hslots := hfaithful.edge_slots
      rw [hedges, hunusedEdges] at hslots
      have hnodup := hslots.nodup_iff.2 List.nodup_range
      have hrestNil : rest = [] := by
        rw [List.eq_nil_iff_forall_not_mem]
        exact fun other hother =>
          List.disjoint_of_nodup_append hnodup (List.mem_cons_of_mem _ hother) hother
      have hcount := hslots.length_eq
      rw [hrestNil] at hcount
      simpa using hcount.symm

end Shape

/-- **`add_edge`** keeps the invariant where there is only one edge. -/
theorem Shape.addEdge_single {state : Tracked} {used unused live free : List ℕ}
    (hshape : Shape N 1 state used unused live free) {source target : ℕ}
    (hsource : source ∈ state.graph.vertices) (htarget : target ∈ state.graph.vertices)
    (hroom : state.list.nedges ≠ 1) :
    ∃ next, state.perform N 1 (.addEdge source target) = some next ∧
      Shape N 1 next used unused [0] [] := by
  have hlength := hshape.edges_length
  have hliveLength := hshape.live_length
  obtain rfl : live = [] := List.length_eq_zero_iff.1 (by omega)
  obtain ⟨e, rfl⟩ : ∃ e, free = [e] := List.length_eq_one_iff.1 (by simpa using hlength)
  obtain ⟨hunused, -, hnext⟩ := hshape.free_edges
  obtain rfl : e = 0 := by
    have := hshape.edge_lt (e := e) (by simp)
    omega
  have hempty : state.graph.edges = [] := by
    rw [← List.length_eq_zero_iff, ← hshape.num_edges, ← hliveLength, List.length_nil]
  have hout : ∀ v ∈ state.graph.vertices, (state.list.vertexSet v).outEdges = 1 := by
    intro v hv
    obtain ⟨ids, hseg, hperm⟩ := hshape.out_edges v hv
    rw [Graph.outEdges, hempty] at hperm
    obtain rfl := hperm.eq_nil
    exact hseg
  have hin : ∀ v ∈ state.graph.vertices, (state.list.vertexSet v).inEdges = 1 := by
    intro v hv
    obtain ⟨ids, hseg, hperm⟩ := hshape.in_edges v hv
    rw [Graph.inEdges, hempty] at hperm
    obtain rfl := hperm.eq_nil
    exact hseg
  have hadd := Graphs.addEdge_single hroom (hshape.live_lt hsource) (hshape.live_lt htarget)
    hshape.live_edges hunused (hout source hsource) (hin target htarget)
  refine ⟨⟨withEdge state.list source target, ⟨state.graph.vertices, [⟨0, source, target⟩]⟩⟩, ?_,
    ?vertices, ?edges⟩
  · simp [Tracked.perform, hadd, Graph.after, hempty]
  case vertices =>
    refine ⟨hshape.used_vertices, hshape.prevs, hshape.unused_vertices, hshape.vertex_slots,
      hshape.vertices, fun v hv => ?_, hshape.num_vertices⟩
    have hne : v ≠ source := by
      rintro rfl
      exact List.disjoint_of_nodup_append hshape.vertices_nodup
        (hshape.vertices.mem_iff.2 hsource) hv
    simpa [withEdge, hne] using hshape.removed v hv
  case edges =>
    constructor
    case live_edges => exact ⟨rfl, by decide, hnext⟩
    case free_edges => exact hnext
    case edge_slots => exact .refl _
    case edges => exact .refl _
    case freed => simp
    case source => simp [withEdge]
    case target => simp [withEdge]
    case ends => simp [hsource, htarget]
    case num_edges => simpa [withEdge] using hliveLength.symm
    case out_edges =>
      intro v hv
      by_cases heq : v = source
      · exact ⟨[0], by simp [withEdge, heq], by simp [Graph.outEdges, heq]⟩
      · exact ⟨[], by simp [withEdge, heq, hout v hv], by simp [Graph.outEdges, Ne.symm heq]⟩
    case in_edges =>
      intro v hv
      by_cases heq : v = target
      · exact ⟨[0], by simp [withEdge, heq], by simp [Graph.inEdges, heq]⟩
      · exact ⟨[], by simp [withEdge, heq, hin v hv], by simp [Graph.inEdges, Ne.symm heq]⟩
    case out_degree =>
      intro v hv
      have hdegree := hshape.out_degree v hv
      simp only [Graph.outEdges, hempty, List.filter_nil, List.map_nil, List.length_nil]
        at hdegree
      by_cases heq : v = source
      · simp [withEdge, heq, Graph.outEdges, heq ▸ hdegree]
      · simp [withEdge, heq, Graph.outEdges, Ne.symm heq, hdegree]
    case in_degree =>
      intro v hv
      have hdegree := hshape.in_degree v hv
      simp only [Graph.inEdges, hempty, List.filter_nil, List.map_nil, List.length_nil]
        at hdegree
      by_cases heq : v = target
      · simp [withEdge, heq, Graph.inEdges, heq ▸ hdegree]
      · simp [withEdge, heq, Graph.inEdges, Ne.symm heq, hdegree]

/-! ## Removing vertices -/

theorem removeOutEdges_nil {g : AdjacencyList} {v fuel : ℕ} (hlt : v < N)
    (hnil : (g.vertexSet v).outEdges = M) : g.removeOutEdges N M v (fuel + 1) = some g := by
  simp [AdjacencyList.removeOutEdges, AdjacencyList.readVertex, hlt, hnil]

theorem removeInEdges_nil {g : AdjacencyList} {v fuel : ℕ} (hlt : v < N)
    (hnil : (g.vertexSet v).inEdges = M) : g.removeInEdges N M v (fuel + 1) = some g := by
  simp [AdjacencyList.removeInEdges, AdjacencyList.readVertex, hlt, hnil]

theorem removeOutEdges_eq_none {g : AdjacencyList} {v fuel : ℕ}
    (hlt : (g.vertexSet v).outEdges < M)
    (hsource : (g.edgeSet (g.vertexSet v).outEdges).source ≠ N) :
    g.removeOutEdges N M v fuel = none := by
  cases fuel with
  | zero => rfl
  | succ fuel =>
      by_cases hv : v < N
      · simp [AdjacencyList.removeOutEdges, AdjacencyList.readVertex, hv, hlt.ne,
          removeEdge_eq_none hlt hsource]
      · simp [AdjacencyList.removeOutEdges, AdjacencyList.readVertex, hv]

theorem removeInEdges_eq_none {g : AdjacencyList} {v fuel : ℕ}
    (hlt : (g.vertexSet v).inEdges < M)
    (hsource : (g.edgeSet (g.vertexSet v).inEdges).source ≠ N) :
    g.removeInEdges N M v fuel = none := by
  cases fuel with
  | zero => rfl
  | succ fuel =>
      by_cases hv : v < N
      · simp [AdjacencyList.removeInEdges, AdjacencyList.readVertex, hv, hlt.ne,
          removeEdge_eq_none hlt hsource]
      · simp [AdjacencyList.removeInEdges, AdjacencyList.readVertex, hv]

theorem removeVertex_dead {g : AdjacencyList} {v : ℕ}
    (hdead : v = N ∨ v < N ∧ (g.vertexSet v).outDegree = M) : g.removeVertex N M v = some g := by
  rcases hdead with rfl | ⟨hlt, hdegree⟩
  · exact if_pos rfl
  · simp [AdjacencyList.removeVertex, AdjacencyList.readVertex, hlt, hlt.ne, hdegree]

/-- The lists before the edges of the removed vertex go: the vertices in front of it are
linked to the first unused one, by the link that has just been written. -/
def withoutVertex (N M : ℕ) (g : AdjacencyList) (v : ℕ) : AdjacencyList :=
  { g with
    vertexSet := fun u =>
      { g.vertexSet u with
        outDegree := if u = v then M else (g.vertexSet u).outDegree
        next := if u = v ∨ (u = (g.vertexSet v).prev ∧ u ≠ N) then g.firstUnusedVertex
          else (g.vertexSet u).next
        prev := if u = g.firstUnusedVertex ∧ u ≠ N then (g.vertexSet v).prev
          else (g.vertexSet u).prev }
    firstVertex := if (g.vertexSet v).prev = N then g.firstUnusedVertex else g.firstVertex
    firstUnusedVertex := v
    nvertices := g.nvertices - 1 }

theorem removeVertex_eq {g : AdjacencyList} {v : ℕ} (hlt : v < N)
    (hdegree : (g.vertexSet v).outDegree ≠ M) (hprev : (g.vertexSet v).prev ≤ N)
    (hprevNe : (g.vertexSet v).prev ≠ v) (hunused : g.firstUnusedVertex ≤ N)
    (hunusedNe : g.firstUnusedVertex ≠ v) (hne : g.firstUnusedVertex ≠ N →
      g.firstUnusedVertex ≠ (g.vertexSet v).prev) :
    g.removeVertex N M v =
      ((withoutVertex N M g v).removeOutEdges N M v (M + 1)).bind fun g =>
        g.removeInEdges N M v (M + 1) := by
  have hunhook : AdjacencyList.unhookVertex N
      { g with
        vertexSet := Function.update g.vertexSet v
          { g.vertexSet v with outDegree := M, next := g.firstUnusedVertex }
        firstUnusedVertex := v } v =
      some { withoutVertex N M g v with nvertices := g.nvertices } := by
    rcases hprev.eq_or_lt with hfirst | hprevLt
    · rcases hunused.eq_or_lt with hnil | hunusedLt
      · simp [AdjacencyList.unhookVertex, AdjacencyList.readVertex, hlt, hfirst, hnil,
          withoutVertex]
        funext u
        by_cases hu : u = v <;> simp [hu, hfirst]
      · simp [AdjacencyList.unhookVertex, AdjacencyList.readVertex, AdjacencyList.changeVertex,
          hlt, hfirst, hunusedLt, hunusedLt.ne, hunusedNe, withoutVertex]
        funext u
        by_cases hu : u = g.firstUnusedVertex
        · simp [hu, hunusedLt.ne, hunusedNe]
        · by_cases huv : u = v <;> simp [hu, huv, hunusedNe.symm, hfirst]
    · rcases hunused.eq_or_lt with hnil | hunusedLt
      · simp [AdjacencyList.unhookVertex, AdjacencyList.readVertex, AdjacencyList.changeVertex,
          hlt, hprevLt, hprevLt.ne, hprevNe, hnil, withoutVertex]
        funext u
        by_cases hu : u = (g.vertexSet v).prev
        · simp [hu, hprevLt.ne, hprevNe]
        · by_cases huv : u = v <;> simp [hu, huv, hprevNe.symm]
      · have hne := hne hunusedLt.ne
        simp [AdjacencyList.unhookVertex, AdjacencyList.readVertex, AdjacencyList.changeVertex,
          hlt, hprevLt, hprevLt.ne, hprevNe, hunusedLt, hunusedLt.ne, withoutVertex]
        funext u
        by_cases hu : u = g.firstUnusedVertex
        · simp [hu, hunusedLt.ne, hunusedNe, hne]
        · by_cases hup : u = (g.vertexSet v).prev
          · simp [hup, hne.symm, hprevLt.ne, hprevNe]
          · by_cases huv : u = v <;> simp [hu, hup, huv, hunusedNe.symm, hprevNe.symm]
  simp [AdjacencyList.removeVertex, AdjacencyList.readVertex, AdjacencyList.changeVertex, hlt,
    hlt.ne, hdegree, hunhook]
  rfl

namespace Shape

variable {state : Tracked} {used unused live free front back : List ℕ} {v : ℕ}
variable (hshape : Shape N M state used unused live free)

include hshape

theorem prev_eq (hused : used = front ++ v :: back) :
    (front = [] ∧ (state.list.vertexSet v).prev = N) ∨
      ∃ init, front = init ++ [(state.list.vertexSet v).prev] ∧
        (state.list.vertexSet v).prev < N := by
  have hprevs := hshape.prevs
  rw [hused] at hprevs
  rcases List.eq_nil_or_concat front with rfl | ⟨init, p, rfl⟩
  · exact .inl ⟨rfl, (List.isChain_cons_cons.1 hprevs).1⟩
  · have hp : p < N := hshape.vertex_lt (by simp [hused])
    have hchain : (p :: v :: back).IsChain fun first second =>
        (state.list.vertexSet second).prev = first := by
      refine List.IsChain.suffix hprevs ⟨N :: init, ?_⟩
      simp
    obtain rfl := (List.isChain_cons_cons.1 hchain).1
    exact .inr ⟨init, by simp, hp⟩

/-- **`remove_vertex` mixes up its lists**: the unused vertices come behind those in front
of the removed one, in the place of those behind it. -/
theorem withoutVertex_lists (hused : used = front ++ v :: back) :
    Segment (fun u => ((withoutVertex N M state.list v).vertexSet u).next) N
        (withoutVertex N M state.list v).firstVertex (front ++ unused) N ∧
      Segment (fun u => ((withoutVertex N M state.list v).vertexSet u).next) N v
        (v :: unused) N := by
  have hnodup := hshape.vertices_nodup
  have hv : v < N := hshape.vertex_lt (by simp [hused])
  rw [hused] at hnodup
  have hseg := hshape.used_vertices
  rw [hused] at hseg
  -- the unused vertices are linked as before
  have hunused : Segment (fun u => ((withoutVertex N M state.list v).vertexSet u).next) N
      state.list.firstUnusedVertex unused N := by
    refine hshape.unused_vertices.congr fun u hu => ?_
    have huv : u ≠ v := by
      rintro rfl
      exact List.disjoint_of_nodup_append hnodup (by simp) hu
    have hprev : ¬ (u = (state.list.vertexSet v).prev ∧ u ≠ N) := by
      rintro ⟨rfl, hne⟩
      obtain ⟨-, hnil⟩ | ⟨init, hfront, -⟩ := hshape.prev_eq hused
      · exact hne hnil
      · refine List.disjoint_of_nodup_append hnodup ?_ hu
        rw [hfront]
        simp
    exact if_neg (not_or.2 ⟨huv, hprev⟩)
  refine ⟨?_, rfl, hv.ne, ?_⟩
  · obtain ⟨rfl, hprev⟩ | ⟨init, hfront, hprev⟩ := hshape.prev_eq hused
    · simpa [withoutVertex, hprev] using hunused
    · -- the vertex in front gets the link
      set p := (state.list.vertexSet v).prev with hp
      rw [hfront] at hseg hnodup
      simp only [List.append_assoc, List.singleton_append] at hseg hnodup
      obtain ⟨middle, hinit, rfl, -⟩ := segment_append.1 hseg
      rw [hfront, List.append_assoc, List.singleton_append, segment_append]
      refine ⟨p, ?_, rfl, hprev.ne, ?_⟩
      · simp only [withoutVertex, if_neg (hp ▸ hprev.ne)]
        refine hinit.congr fun u hu => if_neg ?_
        rintro (rfl | ⟨rfl, -⟩)
        · exact List.disjoint_of_nodup_append hnodup hu (by simp)
        · exact List.disjoint_of_nodup_append hnodup hu (by simp [hp])
      · simpa [withoutVertex, ← hp, hprev.ne] using hunused
  · simpa [withoutVertex] using hunused

end Shape

namespace Shape

variable {state : Tracked} {used unused live free : List ℕ} {v : ℕ}
variable (hshape : Shape N M state used unused live free)

include hshape

theorem removeVertex_dead (hv : v ∉ state.graph.vertices) (hle : v ≤ N) :
    state.perform N M (.removeVertex v) = some state := by
  have hdead : v = N ∨ v < N ∧ (state.list.vertexSet v).outDegree = M := by
    refine hle.eq_or_lt.imp id fun hlt => ⟨hlt, hshape.removed v ?_⟩
    have hmem : v ∈ used ++ unused := hshape.vertex_slots.mem_iff.2 (List.mem_range.2 hlt)
    exact (List.mem_append.1 hmem).resolve_left fun hused => hv (hshape.vertices.mem_iff.1 hused)
  have hvertices : (state.graph.vertices.filter fun u => u ≠ v) = state.graph.vertices := by
    refine List.filter_eq_self.2 fun u hu => decide_eq_true ?_
    rintro rfl
    exact hv hu
  have hedges : (state.graph.edges.filter fun edge => edge.source ≠ v ∧ edge.target ≠ v) =
      state.graph.edges := by
    refine List.filter_eq_self.2 fun edge hedge => decide_eq_true ⟨?_, ?_⟩
    · rintro rfl
      exact hv (hshape.ends edge hedge).1
    · rintro rfl
      exact hv (hshape.ends edge hedge).2
  rw [Tracked.perform, Graphs.removeVertex_dead hdead, Option.map_some, Graph.after, hvertices,
    hedges]

theorem head_source {ids : List ℕ} {edges : List Edge} (hids : ids ≠ [])
    (hedges : edges.Sublist state.graph.edges) (hperm : ids.Perm (edges.map Edge.slot))
    {next : ℕ → ℕ} {first : ℕ} (hseg : Segment next M first ids M) :
    first < M ∧ (state.list.edgeSet first).source ≠ N := by
  cases ids with
  | nil => exact absurd rfl hids
  | cons e rest =>
      obtain ⟨rfl, -⟩ := hseg
      obtain ⟨edge, hedge, rfl⟩ := List.mem_map.1 (hperm.mem_iff.1 List.mem_cons_self)
      have hmem := hedges.mem hedge
      refine ⟨hshape.edge_lt (List.mem_append_left _ ?_), ?_⟩
      · exact hshape.edges.mem_iff.2 (List.mem_map_of_mem hmem)
      · rw [hshape.source edge hmem]
        exact (hshape.live_lt (hshape.ends edge hmem).1).ne

/-- The vertices a live vertex is linked to when it is unhooked. -/
theorem unhook_bounds (hv : v ∈ state.graph.vertices) :
    (state.list.vertexSet v).prev ≤ N ∧ (state.list.vertexSet v).prev ≠ v ∧
      state.list.firstUnusedVertex ≤ N ∧ state.list.firstUnusedVertex ≠ v ∧
      (state.list.firstUnusedVertex ≠ N →
        state.list.firstUnusedVertex ≠ (state.list.vertexSet v).prev) := by
  have hlt := hshape.live_lt hv
  obtain ⟨front, back, hused⟩ := List.append_of_mem (hshape.vertices.mem_iff.2 hv)
  have hnodup := hshape.vertices_nodup
  rw [hused] at hnodup
  have hunused : state.list.firstUnusedVertex = N ∨
      state.list.firstUnusedVertex ∈ unused ∧ state.list.firstUnusedVertex < N := by
    obtain ⟨-, hnil⟩ | ⟨rest, hcons, hfirst⟩ := hshape.firstUnusedVertex_cases
    · exact .inl hnil
    · exact .inr ⟨hcons ▸ List.mem_cons_self, hfirst⟩
  have hunusedLe : state.list.firstUnusedVertex ≤ N := by
    rcases hunused with hnil | ⟨-, hfirst⟩ <;> omega
  have hunusedNe : state.list.firstUnusedVertex ≠ v := by
    rcases hunused with hnil | ⟨hmem, -⟩
    · omega
    · rintro rfl
      exact List.disjoint_of_nodup_append hnodup (by simp) hmem
  obtain ⟨-, hprev⟩ | ⟨init, hfront, hprev⟩ := hshape.prev_eq hused
  · exact ⟨hprev.le, by omega, hunusedLe, hunusedNe, fun hne => by omega⟩
  · refine ⟨hprev.le, ?_, hunusedLe, hunusedNe, fun hne heq => ?_⟩
    · intro heq
      rw [hfront, heq, List.append_assoc, List.append_assoc] at hnodup
      exact (List.nodup_cons.1 hnodup.of_append_right).1 (by simp)
    · obtain ⟨hmem, -⟩ := hunused.resolve_left hne
      rw [heq] at hmem
      refine List.disjoint_of_nodup_append hnodup ?_ hmem
      rw [hfront]
      simp

theorem removeVertex_live (hv : v ∈ state.graph.vertices)
    (hdegree : (state.list.vertexSet v).outDegree ≠ M) :
    state.list.removeVertex N M v =
      if state.graph.outEdges v = [] ∧ state.graph.inEdges v = [] then
        some (withoutVertex N M state.list v)
      else none := by
  have hlt := hshape.live_lt hv
  obtain ⟨hprev, hprevNe, hunused, hunusedNe, hne⟩ := hshape.unhook_bounds hv
  rw [removeVertex_eq hlt hdegree hprev hprevNe hunused hunusedNe hne]
  obtain ⟨outIds, houtSeg, houtPerm⟩ := hshape.out_edges v hv
  obtain ⟨inIds, hinSeg, hinPerm⟩ := hshape.in_edges v hv
  by_cases hout : state.graph.outEdges v = []
  · rw [hout] at houtPerm
    obtain rfl := houtPerm.eq_nil
    rw [removeOutEdges_nil (g := withoutVertex N M state.list v) hlt houtSeg, Option.bind_some]
    by_cases hin : state.graph.inEdges v = []
    · rw [hin] at hinPerm
      obtain rfl := hinPerm.eq_nil
      rw [removeInEdges_nil (g := withoutVertex N M state.list v) hlt hinSeg, if_pos ⟨hout, hin⟩]
    · have hids : inIds ≠ [] := fun hnil => hin (hnil ▸ hinPerm).symm.eq_nil
      obtain ⟨hfirst, hsource⟩ := hshape.head_source hids List.filter_sublist hinPerm hinSeg
      rw [removeInEdges_eq_none (g := withoutVertex N M state.list v) hfirst hsource,
        if_neg fun hnil => hin hnil.2]
  · have hids : outIds ≠ [] := fun hnil => hout (hnil ▸ houtPerm).symm.eq_nil
    obtain ⟨hfirst, hsource⟩ := hshape.head_source hids List.filter_sublist houtPerm houtSeg
    rw [removeOutEdges_eq_none (g := withoutVertex N M state.list v) hfirst hsource,
      if_neg fun hnil => hout hnil.1, Option.bind_none]

end Shape

/-! ## Runs -/

namespace Shape

variable {state : Tracked} {used unused live free : List ℕ} {v e : ℕ}
variable (hshape : Shape N M state used unused live free)

include hshape

theorem removeEdge (hle : e ≤ M) :
    state.perform N M (.removeEdge e) =
      if e ∈ state.graph.edges.map Edge.slot then none else some state := by
  by_cases hmem : e ∈ state.graph.edges.map Edge.slot
  · obtain ⟨edge, hedge, rfl⟩ := List.mem_map.1 hmem
    have hlt : edge.slot < M :=
      hshape.edge_lt (List.mem_append_left _ (hshape.edges.mem_iff.2 hmem))
    have hsource : (state.list.edgeSet edge.slot).source ≠ N := by
      rw [hshape.source edge hedge]
      exact (hshape.live_lt (hshape.ends edge hedge).1).ne
    rw [Tracked.perform, removeEdge_eq_none hlt hsource, if_pos hmem, Option.map_none]
  · have hdead : e = M ∨ e < M ∧ (state.list.edgeSet e).source = N := by
      refine hle.eq_or_lt.imp id fun hlt => ⟨hlt, hshape.freed e ?_⟩
      have hslot : e ∈ live ++ free := hshape.edge_slots.mem_iff.2 (List.mem_range.2 hlt)
      exact (List.mem_append.1 hslot).resolve_left fun hlive => hmem (hshape.edges.mem_iff.1 hlive)
    have hedges : (state.graph.edges.filter fun edge => edge.slot ≠ e) = state.graph.edges := by
      refine List.filter_eq_self.2 fun edge hedge => decide_eq_true ?_
      rintro rfl
      exact hmem (List.mem_map_of_mem hedge)
    rw [Tracked.perform, removeEdge_dead hdead, if_neg hmem, Option.map_some, Graph.after, hedges]

/-- Removing a live vertex gives the right lists only when all slots are used, it is the
last vertex and it has no edges. -/
theorem safe_of_removeVertex {next : Tracked} (hv : v ∈ state.graph.vertices)
    (hperform : state.perform N M (.removeVertex v) = some next)
    (hfaithful : next.Faithful N M) : state.Safe N M (.removeVertex v) := by
  obtain ⟨list, hremove, rfl⟩ := Option.map_eq_some_iff.1 hperform
  have hlt := hshape.live_lt hv
  have hmem := hshape.vertices.mem_iff.2 hv
  have hlength := hshape.vertices_length
  have husedLength := hshape.used_length
  by_cases hdegree : (state.list.vertexSet v).outDegree = M
  · -- it is taken for removed, and stays
    rw [Graphs.removeVertex_dead (.inr ⟨hlt, hdegree⟩)] at hremove
    obtain rfl := Option.some.inj hremove
    have hvertices := hfaithful.vertices
    rw [show state.list.vertices N = used from iterate_eq hshape.used_vertices (by omega)]
      at hvertices
    have hgone := hvertices.mem_iff.1 hmem
    simp [Graph.after] at hgone
  · rw [hshape.removeVertex_live hv hdegree] at hremove
    split at hremove
    · rename_i hnil
      obtain rfl := Option.some.inj hremove
      obtain ⟨front, back, hused⟩ := List.append_of_mem hmem
      obtain ⟨hfront, hback⟩ := hshape.withoutVertex_lists hused
      have hcount := congrArg List.length hused
      rw [List.length_append, List.length_cons] at hcount
      have hslots := hfaithful.vertex_slots
      rw [show (withoutVertex N M state.list v).vertices N = front ++ unused from
          iterate_eq hfront (by rw [List.length_append]; omega),
        show (withoutVertex N M state.list v).unusedVertices N = v :: unused from
          iterate_eq hback (by rw [List.length_cons]; omega)] at hslots
      have hunused : unused = [] := by
        rw [List.eq_nil_iff_forall_not_mem]
        exact fun u hu => List.disjoint_of_nodup_append
          (hslots.nodup_iff.2 List.nodup_range) (List.mem_append_right _ hu)
          (List.mem_cons_of_mem _ hu)
      have htotal := hslots.length_eq
      rw [hunused, List.append_nil, List.length_append, List.length_range] at htotal
      rw [hunused, List.length_nil] at hlength
      obtain rfl : back = [] := List.length_eq_zero_iff.1 (by simp at htotal; omega)
      have hzero : (state.list.vertexSet v).outDegree = 0 := by
        rw [hshape.out_degree v hv, hnil.1, List.length_nil]
      have hlast : (state.list.vertexSet v).next = N := by
        have hseg := hshape.used_vertices
        rw [hused] at hseg
        obtain ⟨middle, -, -, -, hnext⟩ := segment_append.1 hseg
        exact hnext
      exact .inr ⟨by omega, by omega, hlast, hnil⟩
    · simp at hremove

/-- **Removing the last vertex** keeps the invariant. -/
theorem removeVertex_last (hv : v ∈ state.graph.vertices) (hpos : 0 < M)
    (hfull : state.list.nvertices = N) (hlast : (state.list.vertexSet v).next = N)
    (hout : state.graph.outEdges v = []) (hin : state.graph.inEdges v = []) :
    ∃ next used' unused', state.perform N M (.removeVertex v) = some next ∧
      Shape N M next used' unused' live free := by
  have hmem := hshape.vertices.mem_iff.2 hv
  have hlength := hshape.vertices_length
  have husedLength := hshape.used_length
  obtain rfl : unused = [] := List.length_eq_zero_iff.1 (by omega)
  obtain ⟨front, back, hused⟩ := List.append_of_mem hmem
  have hnodup := hshape.vertices_nodup
  -- nothing is behind the vertex
  obtain rfl : back = [] := by
    have hseg := hshape.used_vertices
    rw [hused] at hseg
    obtain ⟨middle, -, -, -, hnext⟩ := segment_append.1 hseg
    cases back with
    | nil => rfl
    | cons u rest => exact absurd (hnext.1.symm.trans hlast) hnext.2.1
  rw [hused, List.append_nil, List.nodup_append_comm, List.singleton_append, List.nodup_cons]
    at hnodup
  have hdegree : (state.list.vertexSet v).outDegree ≠ M := by
    rw [hshape.out_degree v hv, hout, List.length_nil]
    omega
  have hremove := hshape.removeVertex_live hv hdegree
  rw [if_pos ⟨hout, hin⟩] at hremove
  have hedges : (state.graph.edges.filter fun edge => edge.source ≠ v ∧ edge.target ≠ v) =
      state.graph.edges := by
    simp only [Graph.outEdges, Graph.inEdges, List.map_eq_nil_iff, List.filter_eq_nil_iff,
      decide_eq_true_eq] at hout hin
    exact List.filter_eq_self.2 fun edge hedge =>
      decide_eq_true ⟨hout edge hedge, hin edge hedge⟩
  have hvertices : front.Perm (state.graph.vertices.filter fun u => u ≠ v) := by
    have hfilter := hshape.vertices.filter fun u => u ≠ v
    have hfront : (front.filter fun u => u ≠ v) = front := by
      refine List.filter_eq_self.2 fun u hu => decide_eq_true ?_
      rintro rfl
      exact hnodup.1 hu
    rwa [hused, List.filter_append, hfront, List.filter_cons_of_neg (by simp), List.filter_nil,
      List.append_nil] at hfilter
  obtain ⟨hfrontSegment, hbackSegment⟩ := hshape.withoutVertex_lists hused
  rw [List.append_nil] at hfrontSegment
  refine ⟨⟨withoutVertex N M state.list v,
      ⟨state.graph.vertices.filter fun u => u ≠ v, state.graph.edges⟩⟩, front, [v], ?_, ?vertices,
    hshape.of_vertices ?ends ?entries⟩
  · rw [Tracked.perform, hremove, Option.map_some, Graph.after, hedges]
  case ends =>
    intro edge hedge
    rw [← hedges, List.mem_filter, decide_eq_true_eq] at hedge
    obtain ⟨hsource, htarget⟩ := hshape.ends edge hedge.1
    exact ⟨List.mem_filter.2 ⟨hsource, decide_eq_true hedge.2.1⟩,
      List.mem_filter.2 ⟨htarget, decide_eq_true hedge.2.2⟩⟩
  case entries =>
    intro u hu
    obtain ⟨hu, hne⟩ := List.mem_filter.1 hu
    refine .inl ⟨hu, ((withoutVertex N M state.list v).vertexSet u).next,
      ((withoutVertex N M state.list v).vertexSet u).prev, ?_⟩
    simp only [withoutVertex, if_neg (of_decide_eq_true hne)]
  case vertices =>
    constructor
    case used_vertices => exact hfrontSegment
    case prevs =>
      have hprevs := hshape.prevs
      rw [hused, ← List.cons_append] at hprevs
      have hnil : state.list.firstUnusedVertex = N := hshape.unused_vertices
      refine hprevs.left_of_append.imp fun first second hprev => ?_
      simpa [withoutVertex, hnil] using hprev
    case unused_vertices => exact hbackSegment
    case vertex_slots => simpa [hused] using hshape.vertex_slots
    case vertices => exact hvertices
    case removed => simp [withoutVertex]
    case num_vertices =>
      have hcount := congrArg List.length hused
      rw [List.length_append, List.length_singleton] at hcount
      simp only [withoutVertex, ← hvertices.length_eq]
      omega

end Shape

/-- One operation: from lists that are those of the graph, it gets to such lists exactly
when it is safe. -/
theorem perform_of_safe {state : Tracked} {used unused live free : List ℕ} {op : Op}
    (hshape : Shape N M state used unused live free) (hvalid : state.Valid N M op)
    (hsafe : state.Safe N M op) :
    ∃ next used' unused' live' free', state.perform N M op = some next ∧
      Shape N M next used' unused' live' free' := by
  cases op with
  | addVertex =>
      obtain ⟨next, used', unused', hnext, hshape'⟩ := hshape.addVertex
      exact ⟨next, used', unused', live, free, hnext, hshape'⟩
  | addEdge source target =>
      by_cases hfull : state.list.nedges = M
      · exact ⟨state, used, unused, live, free, hshape.addEdge_full hfull, hshape⟩
      · obtain rfl : M = 1 := hsafe.resolve_left hfull
        obtain ⟨next, hnext, hshape'⟩ := hshape.addEdge_single hvalid.1 hvalid.2 hfull
        exact ⟨next, used, unused, [0], [], hnext, hshape'⟩
  | removeEdge e =>
      refine ⟨state, used, unused, live, free, ?_, hshape⟩
      rw [hshape.removeEdge hvalid, if_neg hsafe]
  | removeVertex v =>
      by_cases hv : v ∈ state.graph.vertices
      · obtain ⟨hpos, hfull, hlast, hout, hin⟩ := hsafe.resolve_left (not_not.2 hv)
        obtain ⟨next, used', unused', hnext, hshape'⟩ :=
          hshape.removeVertex_last hv hpos hfull hlast hout hin
        exact ⟨next, used', unused', live, free, hnext, hshape'⟩
      · exact ⟨state, used, unused, live, free, hshape.removeVertex_dead hv hvalid, hshape⟩

theorem safe_of_perform {state next : Tracked} {used unused live free : List ℕ} {op : Op}
    (hshape : Shape N M state used unused live free) (hvalid : state.Valid N M op)
    (hperform : state.perform N M op = some next) (hfaithful : next.Faithful N M) :
    state.Safe N M op := by
  cases op with
  | addVertex => trivial
  | addEdge source target =>
      by_cases hfull : state.list.nedges = M
      · exact .inl hfull
      · exact .inr (hshape.eq_one_of_addEdge hvalid.1 hvalid.2 hfull hperform hfaithful)
  | removeEdge e =>
      rw [hshape.removeEdge hvalid] at hperform
      split at hperform
      · simp at hperform
      · assumption
  | removeVertex v =>
      by_cases hv : v ∈ state.graph.vertices
      · exact hshape.safe_of_removeVertex hv hperform hfaithful
      · exact .inl hv

theorem segment_succ {next : ℕ → ℕ} {size : ℕ} (hnext : ∀ i, next i = i + 1) :
    ∀ {count first : ℕ}, first + count = size →
      Segment next size first (List.range' first count) size
  | 0, first, hsize => by simpa using hsize
  | count + 1, first, hsize => by
      refine ⟨rfl, by omega, ?_⟩
      rw [hnext]
      exact segment_succ hnext (by omega)

theorem shape_new (vertexSet : ℕ → VertexEntry) (edgeSet : ℕ → EdgeEntry) :
    Shape N M ⟨AdjacencyList.new N M vertexSet edgeSet, Graph.empty⟩ [] (List.range N) []
      (List.range M) := by
  constructor
  case toVertexShape =>
    constructor
    case used_vertices => rfl
    case prevs => exact .singleton N
    case unused_vertices =>
      rw [List.range_eq_range']
      exact segment_succ (fun _ => rfl) (Nat.zero_add _)
    case vertex_slots => exact .refl _
    case vertices => exact .refl _
    case removed => exact fun _ _ => rfl
    case num_vertices => rfl
  case toEdgeShape =>
    constructor
    case live_edges => rfl
    case free_edges =>
      rw [List.range_eq_range']
      exact segment_succ (fun _ => rfl) (Nat.zero_add _)
    case edge_slots => exact .refl _
    case edges => exact .refl _
    case freed => exact fun _ _ => rfl
    case num_edges => rfl
    all_goals simp [Graph.empty]

variable (vertexSet : ℕ → VertexEntry) (edgeSet : ℕ → EdgeEntry)

/-- **In every run whose operations are safe** the lists are those of the graph, and they
stay so under the next operation exactly when that is safe too. -/
theorem faithful_of_safe_run {operations : List Op} {state : Tracked}
    (hrun : Run (Guarded (Tracked.Safe N M) (Guarded (Tracked.Valid N M)
      (stepOf (Tracked.perform N M))))
      ⟨AdjacencyList.new N M vertexSet edgeSet, Graph.empty⟩ operations state) :
    state.Faithful N M ∧ ∀ op, state.Valid N M op →
      ((∃ next, state.perform N M op = some next ∧ next.Faithful N M) ↔ state.Safe N M op) := by
  have hstep : ∀ state op next, (∃ used unused live free, Shape N M state used unused live free) →
      Guarded (Tracked.Safe N M) (Guarded (Tracked.Valid N M)
        (stepOf (Tracked.perform N M))) state op next →
      ∃ used unused live free, Shape N M next used unused live free := by
    rintro state op next ⟨used, unused, live, free, hshape⟩ ⟨hsafe, hvalid, hperform⟩
    obtain ⟨reached, used', unused', live', free', hreached, hshape'⟩ :=
      perform_of_safe hshape hvalid hsafe
    obtain rfl : reached = next := Option.some.inj (hreached.symm.trans hperform)
    exact ⟨used', unused', live', free', hshape'⟩
  obtain ⟨used, unused, live, free, hshape⟩ :=
    hrun.invariant hstep ⟨_, _, _, _, shape_new vertexSet edgeSet⟩
  refine ⟨hshape.faithful, fun op hvalid => ⟨?_, fun hsafe => ?_⟩⟩
  · rintro ⟨next, hperform, hfaithful⟩
    exact safe_of_perform hshape hvalid hperform hfaithful
  · obtain ⟨next, _, _, _, _, hperform, hshape'⟩ := perform_of_safe hshape hvalid hsafe
    exact ⟨next, hperform, hshape'.faithful⟩

/-- A table with nothing in it. -/
def blankVertex (_ : ℕ) : VertexEntry := ⟨0, 0, 0, 0, 0, 0⟩

def blankEdge (_ : ℕ) : EdgeEntry := ⟨0, 0, 0, 0, 0, 0, 0, 0⟩

/-- Two vertices and the edge there is room for. -/
theorem faithful_of_safe_run_edge :
    ∃ state : Tracked,
      Run (Guarded (Tracked.Safe 2 1) (Guarded (Tracked.Valid 2 1)
        (stepOf (Tracked.perform 2 1))))
        ⟨AdjacencyList.new 2 1 blankVertex blankEdge, Graph.empty⟩
        [.addVertex, .addVertex, .addEdge 0 1] state ∧
      state.Faithful 2 1 ∧ ∀ op, state.Valid 2 1 op →
        ((∃ next, state.perform 2 1 op = some next ∧ next.Faithful 2 1) ↔ state.Safe 2 1 op) := by
  have hrun : ∃ state : Tracked,
      Run (Guarded (Tracked.Safe 2 1) (Guarded (Tracked.Valid 2 1)
        (stepOf (Tracked.perform 2 1))))
        ⟨AdjacencyList.new 2 1 blankVertex blankEdge, Graph.empty⟩
        [.addVertex, .addVertex, .addEdge 0 1] state :=
    ⟨_, .cons ⟨trivial, trivial, rfl⟩ <| .cons ⟨trivial, trivial, rfl⟩ <|
      .cons ⟨.inr rfl, ⟨by decide, by decide⟩, rfl⟩ (.nil _)⟩
  obtain ⟨state, hrun⟩ := hrun
  exact ⟨state, hrun, faithful_of_safe_run blankVertex blankEdge hrun⟩

/-- With room for a second edge, the iteration over the edges goes on to the unused one. -/
theorem not_faithful_addEdge :
    ¬ ∀ (N M : ℕ) (operations : List Op) (state : Tracked),
      Run (Guarded (Tracked.Valid N M) (stepOf (Tracked.perform N M)))
        ⟨AdjacencyList.new N M blankVertex blankEdge, Graph.empty⟩ operations state →
      state.Faithful N M := by
  intro hall
  have hrun : ∃ state : Tracked,
      Run (Guarded (Tracked.Valid 2 2) (stepOf (Tracked.perform 2 2)))
        ⟨AdjacencyList.new 2 2 blankVertex blankEdge, Graph.empty⟩
        [.addVertex, .addVertex, .addEdge 0 1] state ∧
      state.list.edges 2 = [0, 1] ∧ state.graph.edges = [⟨0, 0, 1⟩] :=
    ⟨_, .cons ⟨trivial, rfl⟩ <| .cons ⟨trivial, rfl⟩ <|
      .cons ⟨⟨by decide, by decide⟩, rfl⟩ (.nil _), by decide, rfl⟩
  obtain ⟨state, hrun, hedges, hgraph⟩ := hrun
  have hperm := (hall 2 2 _ state hrun).edges.length_eq
  rw [hedges, hgraph] at hperm
  exact absurd hperm (by decide)

end Runs

end Wiselib.Graphs
