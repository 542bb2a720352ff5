import Mathlib

/-!
# Heaps in arrays, and what a queue owes that is built on one

An array `a` is a heap of `n` elements for a function `parent` that gives a smaller
index for every index but zero: no element is less than its parent's.  Nothing else
is assumed about `parent`, so trees of any shape are covered.

The two ways an element finds its place are described by where the order may be
broken: `Rising` at one element and its parent, `Sinking` at one element and its
children.  An exchange with the parent, or with a least child, moves that place on.

The second half says what a queue of minima is: `Returns` relates the operations to
the elements returned and to the multiset that is left.  A queue that keeps a
relation to such a multiset through every operation is `Correct`, and any two
correct queues return equivalent elements.
-/

namespace Heap

open Function

variable {α : Type*} {parent : ℕ → ℕ} {n i j c : ℕ} {a : ℕ → α}

/-! ## Arrays -/

/-- The array with two elements exchanged. -/
def exchange (a : ℕ → α) (i j : ℕ) : ℕ → α := a ∘ Equiv.swap i j

/-- The first `n` elements. -/
def contents (n : ℕ) (a : ℕ → α) : Multiset α := (Multiset.range n).map a

@[simp] theorem exchange_left (a : ℕ → α) (i j : ℕ) : exchange a i j i = a j :=
  congrArg a (Equiv.swap_apply_left i j)

@[simp] theorem exchange_right (a : ℕ → α) (i j : ℕ) : exchange a i j j = a i :=
  congrArg a (Equiv.swap_apply_right i j)

theorem exchange_of_ne {k : ℕ} (a : ℕ → α) (hi : k ≠ i) (hj : k ≠ j) : exchange a i j k = a k :=
  congrArg a (Equiv.swap_apply_of_ne_of_ne hi hj)

theorem exchange_comm (a : ℕ → α) (i j : ℕ) : exchange a i j = exchange a j i := by
  rw [exchange, exchange, Equiv.swap_comm]

theorem update_update_eq_exchange (a : ℕ → α) (i j : ℕ) :
    update (update a i (a j)) j (a i) = exchange a i j := by
  funext k
  by_cases hj : k = j
  · rw [hj, update_self, exchange_right]
  · rw [update_of_ne hj]
    by_cases hi : k = i
    · rw [hi, update_self, exchange_left]
    · rw [update_of_ne hi, exchange_of_ne a hi hj]

theorem exchange_update (a : ℕ → α) (x : α) (hne : i ≠ j) :
    exchange (update a i x) i j = update (update a i (a j)) j x := by
  funext k
  by_cases hi : k = i
  · rw [hi, exchange_left, update_of_ne hne.symm, update_of_ne hne, update_self]
  · by_cases hj : k = j
    · rw [hj, exchange_right, update_self, update_self]
    · rw [exchange_of_ne _ hi hj, update_of_ne hi, update_of_ne hj, update_of_ne hi]

@[simp] theorem contents_zero (a : ℕ → α) : contents 0 a = 0 := rfl

@[simp] theorem card_contents (n : ℕ) (a : ℕ → α) : (contents n a).card = n := by
  rw [contents, Multiset.card_map, Multiset.card_range]

theorem contents_succ (n : ℕ) (a : ℕ → α) : contents (n + 1) a = a n ::ₘ contents n a := by
  rw [contents, Multiset.range_succ, Multiset.map_cons]
  rfl

theorem mem_contents {x : α} : x ∈ contents n a ↔ ∃ i < n, a i = x := by
  simp [contents]

theorem contents_congr {b : ℕ → α} (h : ∀ k < n, a k = b k) : contents n a = contents n b :=
  Multiset.map_congr rfl fun k hk => h k (Multiset.mem_range.1 hk)

/-- **An exchange keeps the elements.** -/
theorem contents_exchange (hi : i < n) (hj : j < n) :
    contents n (exchange a i j) = contents n a := by
  have hrange : (Multiset.range n).map (Equiv.swap i j) = Multiset.range n := by
    refine (Multiset.nodup_range n).map (Equiv.swap i j).injective |>.ext
      (Multiset.nodup_range n) |>.2 fun k => ?_
    have hlt : ∀ k, k < n → Equiv.swap i j k < n := by
      intro k hk
      by_cases hki : k = i
      · rw [hki, Equiv.swap_apply_left]
        exact hj
      · by_cases hkj : k = j
        · rw [hkj, Equiv.swap_apply_right]
          exact hi
        · rwa [Equiv.swap_apply_of_ne_of_ne hki hkj]
    simp only [Multiset.mem_map, Multiset.mem_range]
    constructor
    · rintro ⟨l, hl, rfl⟩
      exact hlt l hl
    · intro hk
      exact ⟨Equiv.swap i j k, hlt k hk, Equiv.swap_apply_self i j k⟩
  rw [contents, exchange, ← Multiset.map_map, hrange, contents]

theorem contents_update_last (x : α) : contents (n + 1) (update a n x) = x ::ₘ contents n a := by
  rw [contents_succ, update_self, contents_congr fun k hk => update_of_ne hk.ne _ _]

/-- **The last element takes the place of the first**, which is taken off. -/
theorem contents_replace_first :
    contents (n + 1) a = a 0 ::ₘ contents n (update a 0 (a n)) := by
  rcases Nat.eq_zero_or_pos n with hzero | hpos
  · rw [hzero, contents_succ, contents_zero, contents_zero]
  · have hswap : ∀ k < n, exchange a 0 n k = update a 0 (a n) k := by
      intro k hk
      by_cases hk0 : k = 0
      · rw [hk0, exchange_left, update_self]
      · rw [exchange_of_ne a hk0 hk.ne, update_of_ne hk0]
    calc contents (n + 1) a
        = contents (n + 1) (exchange a 0 n) :=
          (contents_exchange (Nat.succ_pos n) (Nat.lt_succ_self n)).symm
      _ = a 0 ::ₘ contents n (exchange a 0 n) := by rw [contents_succ, exchange_right]
      _ = a 0 ::ₘ contents n (update a 0 (a n)) := by rw [contents_congr hswap]

/-! ## Heap order -/

section Order

variable [Preorder α]

theorem le_of_not_less [Std.Total (α := α) (· ≤ ·)] {x y : α} (h : ¬ x < y) : y ≤ x := by
  rcases Std.Total.total (r := (· ≤ ·)) x y with hxy | hyx
  · exact not_not.1 fun hyx => h (lt_of_le_not_ge hxy hyx)
  · exact hyx

/-- No element is less than its parent's. -/
def Ordered (parent : ℕ → ℕ) (n : ℕ) (a : ℕ → α) : Prop :=
  ∀ j, 0 < j → j < n → a (parent j) ≤ a j

/-- The order may be broken between the element at `i` and its parent's. -/
structure Rising (parent : ℕ → ℕ) (n : ℕ) (a : ℕ → α) (i : ℕ) : Prop where
  ordered : ∀ j, 0 < j → j < n → j ≠ i → a (parent j) ≤ a j
  above : 0 < i → ∀ j, 0 < j → j < n → parent j = i → a (parent i) ≤ a j

/-- The order may be broken between the element at `i` and those of its children. -/
structure Sinking (parent : ℕ → ℕ) (n : ℕ) (a : ℕ → α) (i : ℕ) : Prop where
  ordered : ∀ j, 0 < j → j < n → parent j ≠ i → a (parent j) ≤ a j
  above : 0 < i → ∀ j, 0 < j → j < n → parent j = i → a (parent i) ≤ a j

/-- **The first element** is a minimum. -/
theorem Ordered.first_le (hordered : Ordered parent n a) (hparent : ∀ j, 0 < j → parent j < j)
    (hj : j < n) : a 0 ≤ a j := by
  induction j using Nat.strong_induction_on with
  | _ j ih =>
      rcases Nat.eq_zero_or_pos j with hzero | hpos
      · rw [hzero]
      · have hlt := hparent j hpos
        exact (ih (parent j) hlt (hlt.trans hj)).trans (hordered j hpos hj)

theorem Ordered.le_of_mem {x : α} (hordered : Ordered parent n a)
    (hparent : ∀ j, 0 < j → parent j < j) (hx : x ∈ contents n a) : a 0 ≤ x := by
  obtain ⟨j, hj, rfl⟩ := mem_contents.1 hx
  exact hordered.first_le hparent hj

theorem Ordered.mono {m : ℕ} (hordered : Ordered parent n a) (hm : m ≤ n) : Ordered parent m a :=
  fun j hpos hj => hordered j hpos (hj.trans_le hm)

theorem Ordered.rising (hordered : Ordered parent n a) (hparent : ∀ j, 0 < j → parent j < j)
    (x : α) : Rising parent (n + 1) (update a n x) n where
  ordered j hpos hj hne := by
    have hj' : j < n := by omega
    rw [update_of_ne hj'.ne, update_of_ne ((hparent j hpos).trans hj').ne]
    exact hordered j hpos hj'
  above _ j hpos hj hchild := by
    have hlt := hparent j hpos
    omega

theorem Ordered.sinking (hordered : Ordered parent n a) (x : α) :
    Sinking parent n (update a 0 x) 0 where
  ordered j hpos hj hne := by
    rw [update_of_ne hpos.ne', update_of_ne hne]
    exact hordered j hpos hj
  above hpos := absurd hpos (lt_irrefl 0)

theorem Rising.ordered_of_le (hrising : Rising parent n a i)
    (hle : 0 < i → a (parent i) ≤ a i) : Ordered parent n a := by
  intro j hpos hj
  by_cases hji : j = i
  · exact hji ▸ hle (hji ▸ hpos)
  · exact hrising.ordered j hpos hj hji

/-- **An element goes up** past its parent's. -/
theorem Rising.exchange (hrising : Rising parent n a i)
    (hparent : ∀ j, 0 < j → parent j < j) (hpos : 0 < i) (hi : i < n)
    (hle : a i ≤ a (parent i)) : Rising parent n (exchange a i (parent i)) (parent i) := by
  have hup := hparent i hpos
  -- the parent's parent is neither of the two
  have hgrand : 0 < parent i → parent (parent i) ≠ i ∧ parent (parent i) ≠ parent i := by
    intro hpos'
    have := hparent _ hpos'
    omega
  constructor
  · intro j hj hlt hne
    by_cases hji : j = i
    · rw [hji, exchange_right, exchange_left]
      exact hle
    · rw [exchange_of_ne a hji hne]
      by_cases hchild : parent j = i
      · rw [hchild, exchange_left]
        exact hrising.above hpos j hj hlt hchild
      · by_cases hsibling : parent j = parent i
        · rw [hsibling, exchange_right]
          exact hle.trans (hsibling ▸ hrising.ordered j hj hlt hji)
        · rw [exchange_of_ne a hchild hsibling]
          exact hrising.ordered j hj hlt hji
  · intro hpos' j hj hlt hchild
    obtain ⟨hne, hne'⟩ := hgrand hpos'
    have hbelow : a (parent (parent i)) ≤ a (parent i) :=
      hrising.ordered _ hpos' (hup.trans hi) hup.ne
    rw [exchange_of_ne a hne hne']
    by_cases hji : j = i
    · rw [hji, exchange_left]
      exact hbelow
    · have hjp : j ≠ parent i := by
        have := hparent j hj
        omega
      rw [exchange_of_ne a hji hjp]
      exact hbelow.trans (hchild ▸ hrising.ordered j hj hlt hji)

theorem Sinking.ordered_of_le (hsinking : Sinking parent n a i)
    (hle : ∀ j, 0 < j → j < n → parent j = i → a i ≤ a j) : Ordered parent n a := by
  intro j hpos hj
  by_cases hchild : parent j = i
  · exact hchild ▸ hle j hpos hj hchild
  · exact hsinking.ordered j hpos hj hchild

/-- **An element goes down** past a least child's. -/
theorem Sinking.exchange (hsinking : Sinking parent n a i)
    (hparent : ∀ j, 0 < j → parent j < j) (hpos : 0 < c) (hc : c < n) (hchild : parent c = i)
    (hle : a c ≤ a i) (hleast : ∀ j, 0 < j → j < n → parent j = i → a c ≤ a j) :
    Sinking parent n (exchange a i c) c := by
  have hdown : i < c := hchild ▸ hparent c hpos
  constructor
  · intro j hj hlt hne
    by_cases hji : j = i
    · -- what was least among the children is not less than the parent's
      have hup := hparent i (hji ▸ hj)
      rw [hji, exchange_left, exchange_of_ne a hup.ne (hup.trans hdown).ne]
      exact hsinking.above (hji ▸ hj) c hpos hc hchild
    · by_cases hjc : j = c
      · rw [hjc, exchange_right, hchild, exchange_left]
        exact hle
      · rw [exchange_of_ne a hji hjc]
        by_cases hsibling : parent j = i
        · rw [hsibling, exchange_left]
          exact hleast j hj hlt hsibling
        · rw [exchange_of_ne a hsibling hne]
          exact hsinking.ordered j hj hlt hsibling
  · intro _ j hj hlt hgrand
    have hup := hparent j hj
    rw [hchild, exchange_left, exchange_of_ne a (by omega) (by omega)]
    exact hgrand ▸ hsinking.ordered j hj hlt (by omega)

end Order

/-! ## Queues of minima -/

/-- The operations of a queue. -/
inductive Op (α : Type*)
  | push (x : α)
  | pop

section Queue

variable {State : Type*}

/-- What the operations return, from the elements that are held to those that are held then:
each `pop` a least element of those held. -/
inductive Returns [LE α] : Multiset α → List (Op α) → List α → Multiset α → Prop
  | nil (held : Multiset α) : Returns held [] [] held
  | push {held last : Multiset α} {x : α} {ops : List (Op α)} {returned : List α} :
      Returns (x ::ₘ held) ops returned last → Returns held (.push x :: ops) returned last
  | pop {held last : Multiset α} {e : α} {ops : List (Op α)} {returned : List α} :
      (∀ x ∈ held, e ≤ x) → Returns held ops returned last →
      Returns (e ::ₘ held) (.pop :: ops) (e :: returned) last

/-- Every `push` meets a queue of fewer than `capacity` elements, and every `pop` one that is
not empty. -/
def Admissible (capacity : ℕ) : ℕ → List (Op α) → Prop
  | _, [] => True
  | size, .push _ :: ops => size < capacity ∧ Admissible capacity (size + 1) ops
  | size, .pop :: ops => 0 < size ∧ Admissible capacity (size - 1) ops

/-- Performs operations and collects what is returned. -/
def runOf (perform : State → Op α → Option (State × Option α)) :
    State → List (Op α) → Option (State × List α)
  | state, [] => some (state, [])
  | state, op :: ops => do
      let (next, returned) ← perform state op
      let (last, rest) ← runOf perform next ops
      return (last, returned.toList ++ rest)

/-- **A correct queue**: admissible operations go through and return minima, and popping until
nothing is left yields what is held, in order. -/
def Correct [LE α] (perform : State → Op α → Option (State × Option α)) (start : State)
    (capacity : ℕ) : Prop :=
  ∀ ops, Admissible capacity 0 ops →
    ∃ state returned held, runOf perform start ops = some (state, returned) ∧
      Returns 0 ops returned held ∧
      ∃ last rest, runOf perform state (List.replicate held.card .pop) = some (last, rest) ∧
        rest.Pairwise (· ≤ ·) ∧ (rest : Multiset α) = held

/-- A relation to the elements held that every operation keeps. -/
structure Serves [LE α] (perform : State → Op α → Option (State × Option α)) (capacity : ℕ)
    (Holds : State → Multiset α → Prop) : Prop where
  push : ∀ {state held} (x : α), Holds state held → held.card < capacity →
    ∃ next, perform state (.push x) = some (next, none) ∧ Holds next (x ::ₘ held)
  pop : ∀ {state held}, Holds state held → 0 < held.card →
    ∃ next e rest, perform state .pop = some (next, some e) ∧ held = e ::ₘ rest ∧
      (∀ x ∈ rest, e ≤ x) ∧ Holds next rest

variable {perform : State → Op α → Option (State × Option α)} {start state : State}
  {capacity : ℕ} {Holds : State → Multiset α → Prop} {held : Multiset α}

theorem Serves.run [LE α] (hserves : Serves perform capacity Holds) {ops : List (Op α)}
    (hholds : Holds state held) (hops : Admissible capacity held.card ops) :
    ∃ last returned rest, runOf perform state ops = some (last, returned) ∧
      Returns held ops returned rest ∧ Holds last rest := by
  induction ops generalizing state held with
  | nil => exact ⟨state, [], held, rfl, .nil held, hholds⟩
  | cons op ops ih =>
      cases op with
      | push x =>
          obtain ⟨hroom, hrest⟩ := hops
          obtain ⟨next, hnext, hholds'⟩ := hserves.push x hholds hroom
          obtain ⟨last, returned, rest, hrun, hreturns, hlast⟩ :=
            ih hholds' (by rwa [Multiset.card_cons])
          exact ⟨last, returned, rest, by simp [runOf, hnext, hrun], .push hreturns, hlast⟩
      | pop =>
          obtain ⟨hpos, hrest⟩ := hops
          obtain ⟨next, e, left, hnext, rfl, hleast, hholds'⟩ := hserves.pop hholds hpos
          rw [Multiset.card_cons, Nat.add_sub_cancel] at hrest
          obtain ⟨last, returned, rest, hrun, hreturns, hlast⟩ := ih hholds' hrest
          exact ⟨last, e :: returned, rest, by simp [runOf, hnext, hrun], .pop hleast hreturns,
            hlast⟩

theorem admissible_pops (capacity n : ℕ) :
    Admissible capacity n (List.replicate n (.pop : Op α)) := by
  induction n with
  | zero => trivial
  | succ n ih => exact ⟨Nat.succ_pos n, ih⟩

/-- **Popping until nothing is left** yields the elements in order. -/
theorem Returns.sorted [LE α] {n : ℕ} {returned : List α} {last : Multiset α}
    (hreturns : Returns held (List.replicate n .pop) returned last) :
    (returned : Multiset α) + last = held ∧ returned.Pairwise (· ≤ ·) := by
  induction n generalizing held returned with
  | zero =>
      cases hreturns
      exact ⟨zero_add _, .nil⟩
  | succ n ih =>
      cases hreturns with
      | @pop rest _ e _ returned hleast hrest =>
          obtain ⟨hheld, hsorted⟩ := ih hrest
          refine ⟨?_, .cons (fun x hx => hleast x ?_) hsorted⟩
          · rw [← Multiset.cons_coe, Multiset.cons_add, hheld]
          · exact hheld ▸ Multiset.mem_add.2 (.inl (Multiset.mem_coe.2 hx))

theorem Returns.card [LE α] {n : ℕ} {returned : List α} {last : Multiset α}
    (hreturns : Returns held (List.replicate n .pop) returned last) :
    held.card = n + last.card := by
  induction n generalizing held returned with
  | zero =>
      cases hreturns
      exact (Nat.zero_add _).symm
  | succ n ih =>
      cases hreturns with
      | pop _ hrest =>
          rw [Multiset.card_cons, ih hrest]
          omega

theorem Serves.correct [LE α] (hserves : Serves perform capacity Holds)
    (hstart : Holds start 0) : Correct perform start capacity := by
  intro ops hops
  obtain ⟨state, returned, held, hrun, hreturns, hholds⟩ := hserves.run hstart hops
  obtain ⟨last, rest, left, hpops, hsorted, -⟩ :=
    hserves.run hholds (admissible_pops capacity held.card)
  have hleft : left = 0 := by
    have hcard := hsorted.card
    exact Multiset.card_eq_zero.1 (by omega)
  obtain ⟨hheld, hpairwise⟩ := hsorted.sorted
  rw [hleft, add_zero] at hheld
  exact ⟨state, returned, held, hrun, hreturns, last, rest, hpops, hpairwise, hheld⟩

/-- Two least elements of multisets that are equal up to equivalent elements are equivalent. -/
theorem antisymmRel_of_least [Preorder α] {e e' : α} {rest rest' : Multiset α}
    (hleast : ∀ x ∈ rest, e ≤ x) (hleast' : ∀ x ∈ rest', e' ≤ x)
    (hequal : (e ::ₘ rest).map (toAntisymmetrization (· ≤ ·)) =
      (e' ::ₘ rest').map (toAntisymmetrization (· ≤ ·))) : AntisymmRel (· ≤ ·) e e' := by
  have hside : ∀ {e e' : α} {rest rest' : Multiset α}, (∀ x ∈ rest, e ≤ x) →
      (e ::ₘ rest).map (toAntisymmetrization (· ≤ ·)) =
        (e' ::ₘ rest').map (toAntisymmetrization (· ≤ ·)) → e ≤ e' := by
    intro e e' rest rest' hleast hequal
    have hmem : toAntisymmetrization (· ≤ ·) e' ∈
        (e ::ₘ rest).map (toAntisymmetrization (· ≤ ·)) :=
      hequal ▸ Multiset.mem_map_of_mem _ (Multiset.mem_cons_self e' rest')
    obtain ⟨x, hx, hclass⟩ := Multiset.mem_map.1 hmem
    have hle : x ≤ e' := (Quotient.exact hclass).1
    rcases Multiset.mem_cons.1 hx with rfl | hx
    · exact hle
    · exact (hleast x hx).trans hle
  exact ⟨hside hleast hequal, hside hleast' hequal.symm⟩

/-- **What is returned** is determined by the operations, up to equivalent elements. -/
theorem Returns.equivalent [Preorder α] {held held' last last' : Multiset α} {ops : List (Op α)}
    {returned returned' : List α} (hreturns : Returns held ops returned last)
    (hreturns' : Returns held' ops returned' last')
    (hequal : held.map (toAntisymmetrization (· ≤ ·)) =
      held'.map (toAntisymmetrization (· ≤ ·))) :
    List.Forall₂ (AntisymmRel (· ≤ ·)) returned returned' := by
  induction hreturns generalizing held' returned' with
  | nil =>
      cases hreturns'
      exact .nil
  | push hrest ih =>
      cases hreturns' with
      | push hrest' =>
          exact ih hrest' (by rw [Multiset.map_cons, Multiset.map_cons, hequal])
  | pop hleast hrest ih =>
      cases hreturns' with
      | pop hleast' hrest' =>
          have hequiv := antisymmRel_of_least hleast hleast' hequal
          have hclass : toAntisymmetrization (· ≤ ·) _ = toAntisymmetrization (· ≤ ·) _ :=
            Quotient.sound (s := AntisymmRel.setoid α (· ≤ ·)) hequiv
          refine .cons hequiv (ih hrest' ?_)
          rw [Multiset.map_cons, Multiset.map_cons] at hequal
          exact (Multiset.cons_inj_right _).1 (hequal.trans
            (congrArg (· ::ₘ _) hclass.symm))

end Queue

end Heap
