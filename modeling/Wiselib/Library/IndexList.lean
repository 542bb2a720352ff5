import Mathlib

/-!
# Lists linked by indices

A table whose entries name their successor holds a singly linked list.
`Segment next nil first ids last` says that following `next` from `first`
passes exactly through `ids`, none of which is the end marker `nil`, and
arrives at `last`; a whole list is a segment that arrives at `nil`.

The edits of such a list are stated by what the edited successor function does
at each entry, so that they apply to any way of writing the table.
-/

namespace IndexList

variable {Id : Type*} {next next' : Id → Id} {nil : Id}

/-- Following `next` from `first` passes through `ids` and arrives at `last`. -/
def Segment (next : Id → Id) (nil : Id) : Id → List Id → Id → Prop
  | first, [], last => first = last
  | first, id :: rest, last => first = id ∧ id ≠ nil ∧ Segment next nil (next id) rest last

@[simp] theorem segment_nil {first last : Id} : Segment next nil first [] last ↔ first = last :=
  Iff.rfl

@[simp] theorem segment_cons {first id last : Id} {rest : List Id} :
    Segment next nil first (id :: rest) last ↔
      first = id ∧ id ≠ nil ∧ Segment next nil (next id) rest last :=
  Iff.rfl

theorem segment_append {first last : Id} {front back : List Id} :
    Segment next nil first (front ++ back) last ↔
      ∃ middle, Segment next nil first front middle ∧ Segment next nil middle back last := by
  induction front generalizing first with
  | nil => simp
  | cons id rest ih =>
      simp only [List.cons_append, segment_cons, ih]
      constructor
      · rintro ⟨hfirst, hid, middle, hrest, hback⟩
        exact ⟨middle, ⟨hfirst, hid, hrest⟩, hback⟩
      · rintro ⟨middle, ⟨hfirst, hid, hrest⟩, hback⟩
        exact ⟨hfirst, hid, middle, hrest, hback⟩

theorem Segment.congr {first last : Id} {ids : List Id} (hseg : Segment next nil first ids last)
    (hagree : ∀ id ∈ ids, next' id = next id) : Segment next' nil first ids last := by
  induction ids generalizing first with
  | nil => exact hseg
  | cons id rest ih =>
      obtain ⟨hfirst, hid, hrest⟩ := hseg
      refine ⟨hfirst, hid, ?_⟩
      rw [hagree id List.mem_cons_self]
      exact ih hrest fun other hother => hagree other (List.mem_cons_of_mem _ hother)

theorem Segment.ne_nil {first last id : Id} {ids : List Id}
    (hseg : Segment next nil first ids last) (hmem : id ∈ ids) : id ≠ nil := by
  induction ids generalizing first with
  | nil => simp at hmem
  | cons head rest ih =>
      obtain ⟨-, hhead, hrest⟩ := hseg
      rcases List.mem_cons.1 hmem with rfl | hmem
      · exact hhead
      · exact ih hrest hmem

theorem Segment.insert_after {first prev new : Id} {front back : List Id}
    (hseg : Segment next nil first (front ++ prev :: back) nil) (hnew : new ≠ nil)
    (hprev : next' prev = new) (hlink : next' new = next prev)
    (hrest : ∀ id ∈ front ++ back, next' id = next id) :
    Segment next' nil first (front ++ prev :: new :: back) nil := by
  obtain ⟨middle, hfront, hback⟩ := segment_append.1 hseg
  obtain ⟨rfl, hmiddle, hback⟩ := hback
  refine segment_append.2 ⟨middle, hfront.congr fun id hid => hrest id (by simp [hid]), ?_⟩
  refine ⟨rfl, hmiddle, hprev, hnew, ?_⟩
  rw [hlink]
  exact hback.congr fun id hid => hrest id (by simp [hid])

theorem Segment.remove_after {first prev id : Id} {front back : List Id}
    (hseg : Segment next nil first (front ++ prev :: id :: back) nil)
    (hprev : next' prev = next id) (hrest : ∀ other ∈ front ++ back, next' other = next other) :
    Segment next' nil first (front ++ prev :: back) nil := by
  obtain ⟨middle, hfront, hback⟩ := segment_append.1 hseg
  obtain ⟨rfl, hmiddle, hback⟩ := hback
  obtain ⟨-, -, hback⟩ := hback
  refine segment_append.2 ⟨middle, hfront.congr fun other hother => hrest other (by simp [hother]),
    rfl, hmiddle, ?_⟩
  rw [hprev]
  exact hback.congr fun other hother => hrest other (by simp [hother])

end IndexList
