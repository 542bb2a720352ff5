import Mathlib

/-!
# Tables that are read through cursors

An access to a table: insert, select with a query, erase at a cursor, and the
loops its users write with them (read all, erase one, erase all that is found).

`Implements` says that an access behaves like a list of items whose order is
its own business.  Its laws are about one call each; a cursor is described by
the items it still has to read.

* `visit_eq` and `eraseEach_spec` carry the laws over the two loops, by
  induction on the items to come.
* `Implements.perform_spec` carries them over one operation, and
  `Implements.observations_perm` over all: two accesses that implement the same
  table show the same, up to the order of rows.
-/

namespace Wiselib.CursorTable

/-- What the users of a table call. -/
structure Access (State Cursor Query Item Row : Type) where
  size : State → ℕ
  insert : State → Item → State × Cursor
  erase : State → Cursor → Option (State × Cursor)
  select : State → Query → Cursor
  /-- The row at the cursor, none at the end. -/
  read : State → Cursor → Option Row
  next : State → Cursor → Cursor

/-- The operations of the users. -/
inductive Op (Query Item : Type) where
  | insert (item : Item)
  | select (query : Query)
  | erase (query : Query) (item : Item)
  | eraseAll (query : Query)

section Loops

variable {State Cursor Query Item Row : Type}
variable (access : Access State Cursor Query Item Row)

/-- The rows from a cursor to the end. -/
def visit (state : State) : ℕ → Cursor → List Row
  | 0, _ => []
  | fuel + 1, cursor =>
      match access.read state cursor with
      | none => []
      | some row => row :: visit state fuel (access.next state cursor)

/-- The first cursor that reads the row. -/
def locate [DecidableEq Row] (state : State) (row : Row) : ℕ → Cursor → Option Cursor
  | 0, _ => none
  | fuel + 1, cursor =>
      match access.read state cursor with
      | none => none
      | some found =>
          if found = row then some cursor
          else locate state row fuel (access.next state cursor)

/-- Erases at the cursor, and goes on where `erase` points to. -/
def eraseEach : ℕ → State → Cursor → State × List Row
  | 0, state, _ => (state, [])
  | fuel + 1, state, cursor =>
      match access.read state cursor with
      | none => (state, [])
      | some row =>
          match access.erase state cursor with
          | none => (state, [row])
          | some (erased, following) =>
              let (last, rows) := eraseEach fuel erased following
              (last, row :: rows)

/-- An operation, with the rows its user gets to see. -/
def perform [DecidableEq Row] (row : Item → Row) (state : State) : Op Query Item → State × List Row
  | .insert item =>
      let (inserted, cursor) := access.insert state item
      (inserted, (access.read inserted cursor).toList)
  | .select query =>
      (state, visit access state (access.size state) (access.select state query))
  | .erase query item =>
      match locate access state (row item) (access.size state) (access.select state query) with
      | none => (state, [])
      | some cursor =>
          match access.erase state cursor with
          | none => (state, [])
          | some (erased, _) => (erased, [row item])
  | .eraseAll query =>
      eraseEach access (access.size state) state (access.select state query)

/-- What the operations show, one after the other. -/
def observations [DecidableEq Row] (row : Item → Row) :
    State → List (Op Query Item) → List (List Row)
  | _, [] => []
  | state, op :: rest =>
      let (next, rows) := perform access row state op
      rows :: observations row next rest

end Loops

/-! ## The table itself -/

section Table

variable {State Cursor Query Item Row : Type} [DecidableEq Item]

/-- What a table of distinct items is about: which items a query is for, and whether
another item fits. -/
structure Meaning (Query Item Row : Type) where
  row : Item → Row
  selects : Query → Item → Bool
  accepts : ℕ → Bool

/-- An operation on the items themselves. -/
def Meaning.perform (meaning : Meaning Query Item Row) (items : List Item) :
    Op Query Item → List Item × List Row
  | .insert item =>
      if item ∈ items then (items, [meaning.row item])
      else if meaning.accepts items.length then (item :: items, [meaning.row item])
      else (items, [])
  | .select query => (items, (items.filter (meaning.selects query)).map meaning.row)
  | .erase query item =>
      if item ∈ items ∧ meaning.selects query item = true then
        (items.erase item, [meaning.row item])
      else (items, [])
  | .eraseAll query =>
      (items.filter fun item => !meaning.selects query item,
        (items.filter (meaning.selects query)).map meaning.row)

variable {access : Access State Cursor Query Item Row} {meaning : Meaning Query Item Row}

/-- **An access implements a table** when its states hold items in some order
(`Holds`) and its cursors have items to come (`Reads`), and each call does to them
what its name says. -/
structure Implements (access : Access State Cursor Query Item Row)
    (meaning : Meaning Query Item Row) (Holds : State → List Item → Prop)
    (Reads : State → Cursor → List Item → Prop) : Prop where
  row_injective : Function.Injective meaning.row
  nodup : ∀ {state items}, Holds state items → items.Nodup
  perm : ∀ {state items other}, Holds state items → items.Perm other → Holds state other
  size : ∀ {state items}, Holds state items → access.size state = items.length
  insert_mem : ∀ {state items item}, Holds state items → item ∈ items →
    Holds (access.insert state item).1 items ∧
      access.read (access.insert state item).1 (access.insert state item).2 =
        some (meaning.row item)
  insert_new : ∀ {state items item}, Holds state items → item ∉ items →
    meaning.accepts items.length = true →
    Holds (access.insert state item).1 (item :: items) ∧
      access.read (access.insert state item).1 (access.insert state item).2 =
        some (meaning.row item)
  insert_full : ∀ {state items item}, Holds state items → item ∉ items →
    meaning.accepts items.length = false →
    Holds (access.insert state item).1 items ∧
      access.read (access.insert state item).1 (access.insert state item).2 = none
  select : ∀ query {state items}, Holds state items →
    ∃ rest, Reads state (access.select state query) rest ∧
      rest.Perm (items.filter (meaning.selects query))
  read_nil : ∀ {state cursor}, Reads state cursor [] → access.read state cursor = none
  read_cons : ∀ {state cursor item rest}, Reads state cursor (item :: rest) →
    access.read state cursor = some (meaning.row item)
  next : ∀ {state cursor item rest}, Reads state cursor (item :: rest) →
    Reads state (access.next state cursor) rest
  erase : ∀ {state items cursor item rest}, Holds state items →
    Reads state cursor (item :: rest) → item ∈ items ∧
      ∃ erased following, access.erase state cursor = some (erased, following) ∧
        Holds erased (items.erase item) ∧
          ∃ others, Reads erased following others ∧ others.Perm rest

namespace Implements

variable {Holds : State → List Item → Prop} {Reads : State → Cursor → List Item → Prop}
variable (himplements : Implements access meaning Holds Reads)

include himplements

/-! ## The loops -/

theorem visit_eq {state : State} {rest : List Item} :
    ∀ {fuel : ℕ} {cursor : Cursor}, Reads state cursor rest → rest.length ≤ fuel →
      visit access state fuel cursor = rest.map meaning.row := by
  induction rest with
  | nil =>
      intro fuel cursor hreads _
      cases fuel with
      | zero => rfl
      | succ fuel => simp [visit, himplements.read_nil hreads]
  | cons item rest ih =>
      intro fuel cursor hreads hfuel
      cases fuel with
      | zero => exact absurd hfuel (by simp)
      | succ fuel =>
          rw [List.length_cons] at hfuel
          simp only [visit, himplements.read_cons hreads, List.map_cons]
          rw [ih (himplements.next hreads) (by omega)]

theorem exists_locate [DecidableEq Row] {state : State} {wanted : Item} {rest : List Item}
    (hwanted : wanted ∈ rest) :
    ∀ {fuel : ℕ} {cursor : Cursor}, Reads state cursor rest → rest.length ≤ fuel →
      ∃ found others, locate access state (meaning.row wanted) fuel cursor = some found ∧
        Reads state found (wanted :: others) := by
  induction rest with
  | nil => exact absurd hwanted List.not_mem_nil
  | cons item rest ih =>
      intro fuel cursor hreads hfuel
      cases fuel with
      | zero => exact absurd hfuel (by simp)
      | succ fuel =>
          rw [List.length_cons] at hfuel
          simp only [locate, himplements.read_cons hreads]
          by_cases hsame : meaning.row item = meaning.row wanted
          · obtain rfl := himplements.row_injective hsame
            exact ⟨cursor, rest, if_pos rfl, hreads⟩
          · have hlater : wanted ∈ rest :=
              (List.mem_cons.1 hwanted).resolve_left fun heq => hsame (heq ▸ rfl)
            rw [if_neg hsame]
            exact ih hlater (himplements.next hreads) (by omega)

theorem locate_eq_none [DecidableEq Row] {state : State} {wanted : Item} {rest : List Item}
    (hwanted : wanted ∉ rest) :
    ∀ (fuel : ℕ) {cursor : Cursor}, Reads state cursor rest →
      locate access state (meaning.row wanted) fuel cursor = none := by
  induction rest with
  | nil =>
      intro fuel cursor hreads
      cases fuel with
      | zero => rfl
      | succ fuel => simp [locate, himplements.read_nil hreads]
  | cons item rest ih =>
      intro fuel cursor hreads
      rw [List.mem_cons, not_or] at hwanted
      cases fuel with
      | zero => rfl
      | succ fuel =>
          have hother : meaning.row item ≠ meaning.row wanted := fun hsame =>
            hwanted.1 (himplements.row_injective hsame).symm
          simp only [locate, himplements.read_cons hreads, if_neg hother]
          exact ih hwanted.2 fuel (himplements.next hreads)

theorem eraseEach_spec :
    ∀ {fuel : ℕ} {state : State} {cursor : Cursor} {items rest : List Item},
      Holds state items → Reads state cursor rest → rest.length ≤ fuel →
      Holds (eraseEach access fuel state cursor).1 (items.diff rest) ∧
        (eraseEach access fuel state cursor).2.Perm (rest.map meaning.row) := by
  intro fuel
  induction fuel with
  | zero =>
      intro state cursor items rest hholds hreads hfuel
      obtain rfl := List.length_eq_zero_iff.1 (Nat.le_zero.1 hfuel)
      exact ⟨hholds, List.Perm.refl _⟩
  | succ fuel ih =>
      intro state cursor items rest hholds hreads hfuel
      cases rest with
      | nil =>
          simp only [eraseEach, himplements.read_nil hreads]
          exact ⟨hholds, List.Perm.refl _⟩
      | cons item rest =>
          rw [List.length_cons] at hfuel
          obtain ⟨hmem, erased, following, herase, hholds', others, hreads', hperm⟩ :=
            himplements.erase hholds hreads
          obtain ⟨hholds'', hperm'⟩ := ih hholds' hreads' (by rw [hperm.length_eq]; omega)
          simp only [eraseEach, himplements.read_cons hreads, herase]
          constructor
          · rw [List.diff_cons]
            exact himplements.perm hholds'' (List.Perm.of_eq (hperm.diff_left _))
          · rw [List.map_cons]
            exact (hperm'.trans (hperm.map _)).cons _

/-! ## Operations -/

theorem exists_reads {state : State} {items : List Item} (hholds : Holds state items)
    (query : Query) :
    ∃ rest, Reads state (access.select state query) rest ∧
      rest.Perm (items.filter (meaning.selects query)) ∧ rest.length ≤ access.size state := by
  obtain ⟨rest, hreads, hperm⟩ := himplements.select query hholds
  refine ⟨rest, hreads, hperm, ?_⟩
  calc rest.length
      = (items.filter (meaning.selects query)).length := hperm.length_eq
    _ ≤ items.length := List.length_filter_le _ _
    _ = access.size state := (himplements.size hholds).symm

/-- **One operation** on the access does what it does on the items. -/
theorem perform_spec [DecidableEq Row] {state : State} {items : List Item} (hholds : Holds state items)
    (op : Op Query Item) :
    Holds (perform access meaning.row state op).1 (meaning.perform items op).1 ∧
      (perform access meaning.row state op).2.Perm (meaning.perform items op).2 := by
  cases op with
  | insert item =>
      by_cases hmem : item ∈ items
      · obtain ⟨hnext, hread⟩ := himplements.insert_mem hholds hmem
        simp only [perform, Meaning.perform, if_pos hmem, hread]
        exact ⟨hnext, List.Perm.refl _⟩
      · cases haccepts : meaning.accepts items.length with
        | true =>
            obtain ⟨hnext, hread⟩ := himplements.insert_new hholds hmem haccepts
            simp only [perform, Meaning.perform, if_neg hmem, haccepts, if_true, hread]
            exact ⟨hnext, List.Perm.refl _⟩
        | false =>
            obtain ⟨hnext, hread⟩ := himplements.insert_full hholds hmem haccepts
            simp only [perform, Meaning.perform, if_neg hmem, haccepts, hread]
            exact ⟨hnext, List.Perm.refl _⟩
  | select query =>
      obtain ⟨rest, hreads, hperm, hlength⟩ := himplements.exists_reads hholds query
      refine ⟨hholds, ?_⟩
      simp only [perform, Meaning.perform, himplements.visit_eq hreads hlength]
      exact hperm.map _
  | erase query item =>
      obtain ⟨rest, hreads, hperm, hlength⟩ := himplements.exists_reads hholds query
      have hmem : item ∈ rest ↔ item ∈ items ∧ meaning.selects query item = true := by
        rw [hperm.mem_iff, List.mem_filter]
      by_cases hselected : item ∈ items ∧ meaning.selects query item = true
      · obtain ⟨cursor, others, hlocate, hreads'⟩ :=
          himplements.exists_locate (hmem.2 hselected) hreads hlength
        obtain ⟨-, erased, following, herase, hnext, -⟩ := himplements.erase hholds hreads'
        simp only [perform, Meaning.perform, if_pos hselected, hlocate, herase]
        exact ⟨hnext, List.Perm.refl _⟩
      · have hlocate := himplements.locate_eq_none (fun h => hselected (hmem.1 h))
          (access.size state) hreads
        simp only [perform, Meaning.perform, if_neg hselected, hlocate]
        exact ⟨hholds, List.Perm.refl _⟩
  | eraseAll query =>
      obtain ⟨rest, hreads, hperm, hlength⟩ := himplements.exists_reads hholds query
      obtain ⟨hnext, hperm'⟩ := himplements.eraseEach_spec hholds hreads hlength
      have hleft : (items.diff rest).Perm
          (items.filter fun item => !meaning.selects query item) := by
        have hnodup := himplements.nodup hholds
        rw [hnodup.sdiff_eq_filter]
        refine List.Perm.of_eq (List.filter_congr fun item hitem => ?_)
        simp [hperm.mem_iff, hitem]
      simp only [perform, Meaning.perform]
      exact ⟨himplements.perm hnext hleft, hperm'.trans (hperm.map _)⟩

end Implements

/-- **Two accesses that implement the same table** show the same rows in every run, each
in an order of its own. -/
theorem Implements.observations_perm [DecidableEq Row] {State' Cursor' : Type}
    {other : Access State' Cursor' Query Item Row}
    {Holds : State → List Item → Prop} {Reads : State → Cursor → List Item → Prop}
    {Holds' : State' → List Item → Prop} {Reads' : State' → Cursor' → List Item → Prop}
    (hfirst : Implements access meaning Holds Reads)
    (hsecond : Implements other meaning Holds' Reads') (operations : List (Op Query Item)) :
    ∀ {state : State} {state' : State'} {items : List Item},
      Holds state items → Holds' state' items →
      List.Forall₂ List.Perm (observations access meaning.row state operations)
        (observations other meaning.row state' operations) := by
  induction operations with
  | nil => exact fun _ _ => .nil
  | cons op rest ih =>
      intro state state' items hholds hholds'
      obtain ⟨hnext, hrows⟩ := hfirst.perform_spec hholds op
      obtain ⟨hnext', hrows'⟩ := hsecond.perform_spec hholds' op
      exact .cons (hrows.trans hrows'.symm) (ih hnext hnext')

end Table

end Wiselib.CursorTable
