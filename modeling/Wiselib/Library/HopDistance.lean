import Mathlib

/-!
# Distances in hops

From a node outside of the graph one hop leads to the nodes of `start`, and each
further hop follows an edge.  A route is known by the node that it starts with,
its end and its length; `Distance` is the length of a shortest one.
-/

namespace Wiselib

variable {Node : Type*} {start : Node → Prop} {edge : Node → Node → Prop}

/-- A route that starts with a node and has a number of hops to its end. -/
inductive Route (start : Node → Prop) (edge : Node → Node → Prop) (first : Node) :
    Node → ℕ → Prop
  | start : start first → Route start edge first first 1
  | step {node dest : Node} {hops : ℕ} :
      Route start edge first node hops → edge node dest → Route start edge first dest (hops + 1)

/-- The length of a shortest route. -/
def Distance (start : Node → Prop) (edge : Node → Node → Prop) (dest : Node) (hops : ℕ) : Prop :=
  (∃ first, Route start edge first dest hops) ∧
    ∀ first other, Route start edge first dest other → hops ≤ other

theorem Route.pos {first dest : Node} {hops : ℕ} (hroute : Route start edge first dest hops) :
    1 ≤ hops := by
  cases hroute <;> omega

theorem Distance.unique {dest : Node} {hops other : ℕ} (hhops : Distance start edge dest hops)
    (hother : Distance start edge dest other) : hops = other := by
  obtain ⟨⟨first, hroute⟩, hmin⟩ := hhops
  obtain ⟨⟨first', hroute'⟩, hmin'⟩ := hother
  exact le_antisymm (hmin first' other hroute') (hmin' first hops hroute)

theorem Route.exists_distance {first dest : Node} {hops : ℕ}
    (hroute : Route start edge first dest hops) :
    ∃ least ≤ hops, Distance start edge dest least := by
  classical
  have hex : ∃ n, ∃ first, Route start edge first dest n := ⟨hops, first, hroute⟩
  exact ⟨Nat.find hex, Nat.find_min' hex ⟨first, hroute⟩, Nat.find_spec hex,
    fun first' other hother => Nat.find_min' hex ⟨first', hother⟩⟩

theorem distance_one_iff {dest : Node} : Distance start edge dest 1 ↔ start dest := by
  constructor
  · rintro ⟨⟨first, hroute⟩, -⟩
    cases hroute with
    | start hstart => exact hstart
    | step hbefore _ => exact absurd hbefore.pos (by omega)
  · exact fun hstart => ⟨⟨dest, .start hstart⟩, fun _ _ hroute => hroute.pos⟩

theorem Distance.le_succ {node dest : Node} {near far : ℕ} (hfar : Distance start edge dest far)
    (hnear : Distance start edge node near) (hedge : edge node dest) : far ≤ near + 1 := by
  obtain ⟨first, hroute⟩ := hnear.1
  exact hfar.2 first _ (hroute.step hedge)

theorem Distance.before {dest : Node} {hops : ℕ} (hdist : Distance start edge dest (hops + 1))
    (hpos : 1 ≤ hops) : ∃ node, Distance start edge node hops ∧ edge node dest := by
  obtain ⟨⟨first, hroute⟩, hmin⟩ := hdist
  cases hroute with
  | start _ => omega
  | step hbefore hedge =>
    refine ⟨_, ⟨⟨first, hbefore⟩, fun first' other hother => ?_⟩, hedge⟩
    have := hmin first' _ (hother.step hedge)
    omega

theorem Distance.exists_of_le {dest : Node} {near far : ℕ} (hfar : Distance start edge dest far)
    (hpos : 1 ≤ near) (hle : near ≤ far) : ∃ node, Distance start edge node near := by
  induction far, hle using Nat.le_induction generalizing dest with
  | base => exact ⟨dest, hfar⟩
  | succ far hle ih =>
    obtain ⟨node, hnode, -⟩ := hfar.before (hpos.trans hle)
    exact ih hnode

end Wiselib
