import Wiselib.Pstl.VectorDynamic
import Wiselib.Pstl.VectorStaticEditing

/-!
# What an insertion into a dynamic vector leaves

`insert` of `vector_dynamic` counts the new element before it shifts, and then hands
the last carried element to `push_back`, which counts once more.

## Strategy

The size alone settles that an insertion is never what it should be: `insert_size`
says that it grew by two, whatever the elements are.  `insert_elements` says what the
vector holds then: with the end one place further on, the shifting loop takes the cell
behind the elements along, so that the elements are the right ones with what was in
that cell behind them.
-/

namespace Wiselib.Pstl

namespace VectorDynamic

variable {α : Type*} {vector next : VectorDynamic α} {grants : ℕ → Bool} {position : ℕ}

/-- The elements.  A cell that was never written holds none. -/
def elements (vector : VectorDynamic α) : List (Option α) :=
  (vector.buffer.getD []).take vector.size

/-- What an insertion should do: one more element, `x` at the position, and the others in
order around it. -/
def Inserts (grants : ℕ → Bool) (vector : VectorDynamic α) (position : ℕ) (x : α) : Prop :=
  ∃ next, vector.insert grants position x = some next ∧ next.size = vector.size + 1 ∧
    next.elements = vector.elements.insertIdx position (some x)

/-! ## The size -/

theorem write_size {n : ℕ} {x : Option α} (hwrite : vector.write n x = some next) :
    next.size = vector.size := by
  unfold write at hwrite
  split at hwrite
  · rw [← Option.some.inj hwrite]
  · cases hwrite

theorem shiftUp_size {count : ℕ} {cur last : Option α}
    (hshift : shiftUp count vector position cur = some (next, last)) :
    next.size = vector.size := by
  induction count generalizing vector position cur with
  | zero => rw [(Prod.mk.inj (Option.some.inj hshift)).1]
  | succ count ih =>
      obtain ⟨temp, -, hread⟩ := Option.bind_eq_some_iff.1 hshift
      obtain ⟨written, hwritten, hrest⟩ := Option.bind_eq_some_iff.1 hread
      exact (ih hrest).trans (write_size hwritten)

theorem changeCapacity_size {n : ℕ} (hchange : vector.changeCapacity grants n = some next) :
    next.size = vector.size := by
  unfold changeCapacity at hchange
  generalize (if n ≠ 0 ∧ grants n = true then
    some (List.replicate n (none : Option α)) else none) = newBuffer at hchange
  cases hbuffer : vector.buffer with
  | none =>
      rw [hbuffer] at hchange
      rw [← Option.some.inj hchange]
  | some cells =>
      simp only [hbuffer] at hchange
      split at hchange
      · rw [← Option.some.inj hchange]
      · cases hchange

theorem makeRoom_size (hroom : vector.makeRoom grants = some next) :
    next.size = vector.size := by
  unfold makeRoom at hroom
  split at hroom
  · exact changeCapacity_size hroom
  · rw [Option.some.inj hroom]

theorem pushBack_size {x : Option α} (hpush : vector.pushBack grants x = some next) :
    next.size = (vector.size + 1) % uint16 := by
  obtain ⟨room, hroom, hrest⟩ := Option.bind_eq_some_iff.1 hpush
  obtain ⟨written, -, hnext⟩ := Option.bind_eq_some_iff.1 hrest
  rw [← Option.some.inj hnext, makeRoom_size hroom]

/-- **An insertion counts twice.** -/
theorem insert_size {x : α} (hinsert : vector.insert grants position x = some next) :
    next.size = ((vector.size + 1) % uint16 + 1) % uint16 := by
  obtain ⟨room, hroom, hrest⟩ := Option.bind_eq_some_iff.1 hinsert
  dsimp only at hrest
  split at hrest
  · obtain ⟨⟨shifted, cur⟩, hshift, hpush⟩ := Option.bind_eq_some_iff.1 hrest
    rw [pushBack_size hpush, shiftUp_size hshift, makeRoom_size hroom]
  · cases hrest

/-- **No insertion is right**, into whatever vector, at whatever position, and whether or not
the vector grows. -/
theorem not_inserts (grants : ℕ → Bool) (vector : VectorDynamic α) (position : ℕ) (x : α) :
    ¬ Inserts grants vector position x := by
  rintro ⟨next, hinsert, hsize, -⟩
  have htwice := insert_size hinsert
  rw [hsize] at htwice
  simp only [uint16] at htwice
  omega

/-- The first insertion into a vector with room for four. -/
theorem vector_of_two_insert :
    ¬ Inserts (fun _ => true) ⟨2, 4, some [some 5, some 7, none, none], 1⟩ 1 6 := by
  have hinsert : insert (fun _ => true) ⟨2, 4, some [some 5, some 7, none, none], 1⟩ 1 6 =
      some ⟨4, 4, some [some 5, some 6, some 7, none], 1⟩ := rfl
  rintro ⟨next, hnext, hsize, -⟩
  rw [← Option.some.inj (hinsert.symm.trans hnext)] at hsize
  cases hsize

/-! ## The elements -/

section Elements

variable {cells : List (Option α)}

theorem write_cells {n size capacity allocation : ℕ} {x : Option α} (hn : n < cells.length) :
    write ⟨size, capacity, some cells, allocation⟩ n x =
      some ⟨size, capacity, some (cells.set n x), allocation⟩ :=
  if_pos hn

theorem shiftUp_cells (count : ℕ) (size capacity allocation : ℕ) (cur : Option α) :
    shiftUp count ⟨size, capacity, some cells, allocation⟩ position cur =
      (VectorSlots.shiftUp count cells position cur).map fun (cells, cur) =>
        (⟨size, capacity, some cells, allocation⟩, cur) := by
  induction count generalizing cells position cur with
  | zero => rfl
  | succ count ih =>
      rw [shiftUp, VectorSlots.shiftUp, read, VectorSlots.read, Option.getD_some]
      cases cells[position]? with
      | none => rfl
      | some temp =>
          simp only [Option.bind_eq_bind, Option.bind_some, VectorSlots.write]
          by_cases hplace : position < cells.length
          · rw [if_pos hplace, write_cells hplace, Option.bind_some, Option.bind_some]
            exact ih temp
          · rw [if_neg hplace, write, if_neg (by exact hplace)]
            rfl

theorem pushBack_elements {size allocation : ℕ} (hsize : size ≤ cells.length)
    (hcells : cells.length < uint16)
    (hsafe : size < cells.length ∨
      Grows ⟨size, cells.length, some cells, allocation⟩ grants) (x : Option α) :
    ∃ next, pushBack grants ⟨size, cells.length, some cells, allocation⟩ x = some next ∧
      next.elements = cells.take size ++ [x] := by
  -- the array that is written to has the elements, and a cell behind them
  obtain ⟨room, rest, capacity, allocation', hroom⟩ : ∃ y rest capacity allocation',
      makeRoom grants ⟨size, cells.length, some cells, allocation⟩ =
        some ⟨size, capacity, some (cells.take size ++ y :: rest), allocation'⟩ := by
    rcases Nat.lt_or_ge size cells.length with hlt | hfull
    · refine ⟨cells[size], cells.drop (size + 1), cells.length, allocation, ?_⟩
      rw [← List.drop_eq_getElem_cons hlt, List.take_append_drop]
      exact if_neg (not_le.2 hlt)
    · obtain ⟨hgrown, hgrants⟩ := hsafe.resolve_left (not_lt.2 hfull)
      have hlarger := capacity_le_grown (⟨size, cells.length, some cells, allocation⟩ :
        VectorDynamic α)
      generalize hn : grown (⟨size, cells.length, some cells, allocation⟩ :
        VectorDynamic α) = n at hgrown hgrants hlarger
      dsimp only at hlarger
      have hne : n ≠ 0 := by omega
      have hdrop : (List.replicate n (none : Option α)).drop size =
          none :: List.replicate (n - size - 1) none := by
        rw [List.drop_replicate, ← List.replicate_succ]
        congr 1
        omega
      have hfits : size ≤ cells.length ∧ size ≤ (List.replicate n (none : Option α)).length :=
        ⟨hsize, by rw [List.length_replicate]; omega⟩
      refine ⟨none, List.replicate (n - size - 1) none, n % uint16, allocation + 1, ?_⟩
      rw [makeRoom, if_pos hfull, grow, hn, changeCapacity, if_pos ⟨hne, hgrants⟩]
      dsimp only [Option.getD_some, Option.map_some]
      rw [if_pos hfits, hdrop]
  have hfront : (cells.take size).length = size := List.length_take_of_le hsize
  have hwrap : (size + 1) % uint16 = size + 1 := by
    refine mod_uint16 ?_
    rcases hsafe with hlt | ⟨hgrown, -⟩
    · omega
    · have hlarger := capacity_le_grown (⟨size, cells.length, some cells, allocation⟩ :
        VectorDynamic α)
      dsimp only at hlarger
      omega
  have hset : (cells.take size ++ room :: rest).set size x = cells.take size ++ x :: rest := by
    rw [List.set_append_right _ _ hfront.le, hfront, Nat.sub_self, List.set_cons_zero]
  have hplace : size < (cells.take size ++ room :: rest).length := by
    rw [List.length_append, hfront, List.length_cons]
    omega
  refine ⟨⟨size + 1, capacity, some (cells.take size ++ x :: rest), allocation'⟩, ?_, ?_⟩
  · rw [pushBack, hroom, Option.bind_eq_bind, Option.bind_some, write_cells hplace, hset,
      Option.bind_some, hwrap]
    rfl
  · have hlist : cells.take size ++ x :: rest = (cells.take size ++ [x]) ++ rest := by
      rw [List.append_assoc, List.singleton_append]
    rw [elements, Option.getD_some, hlist, List.take_left']
    rw [List.length_append, hfront, List.length_singleton]

/-- **An insertion that stays in the array** leaves the elements as they should be, and what the
cell behind them held as one element more. -/
theorem insert_elements (hsound : vector.Sound) (hposition : position ≤ vector.size)
    (hlt : vector.size < vector.capacity)
    (hsafe : vector.size + 1 < vector.capacity ∨ vector.Grows grants) (x : α) :
    ∃ next extra, vector.insert grants position x = some next ∧
      next.elements = vector.elements.insertIdx position (some x) ++ [extra] := by
  obtain ⟨size, capacity, buffer, allocation⟩ := vector
  have hcapacity := hsound.capacity_eq
  have hwrap : (size + 1) % uint16 = size + 1 :=
    mod_uint16 (Nat.lt_of_le_of_lt hlt hsound.capacity_lt)
  dsimp only at hcapacity hposition hlt hsafe
  cases buffer with
  | none =>
      rw [hcapacity] at hlt
      cases hlt
  | some cells =>
      obtain rfl : capacity = cells.length := hcapacity
      obtain ⟨front, middle, tail, hsplit, rfl, hall⟩ :=
        (⟨rfl, hsound.size_le⟩ : VectorSlots.Sound cells.length ⟨cells, size⟩).exists_split
          hposition
      obtain ⟨rfl, rfl⟩ := VectorSlots.mk.inj hsplit
      obtain ⟨extra, tail, rfl⟩ := List.exists_cons_of_ne_nil (show tail ≠ [] by
        rintro rfl
        rw [List.length_nil] at hall
        omega)
      -- the shifted elements are followed by the cell behind them
      have hshift := VectorSlots.shiftUp_spec front tail (middle ++ [extra]) (some x)
      have hcarried : some x :: (middle ++ [extra]) = (some x :: middle) ++ [extra] := rfl
      have hcount : front.length + middle.length + 1 - front.length = (middle ++ [extra]).length := by
        rw [List.length_append, List.length_singleton]
        omega
      simp only [hcarried, List.dropLast_concat, List.getLast_append_singleton] at hshift
      rw [List.append_assoc, List.singleton_append] at hshift
      have hlength : (front ++ (some x :: middle ++ tail)).length =
          (front ++ (middle ++ extra :: tail)).length := by
        simp only [List.length_append, List.length_cons]
        omega
      obtain ⟨next, hpush, helements⟩ := @pushBack_elements _ grants
        (front ++ (some x :: middle ++ tail)) (front.length + middle.length + 1) allocation
        (by rw [hlength]; exact hlt) (by rw [hlength]; exact hsound.capacity_lt)
        (by rw [hlength]; exact hsafe) extra
      refine ⟨next, extra, ?_, ?_⟩
      · have hroom : makeRoom grants ⟨front.length + middle.length,
            (front ++ (middle ++ extra :: tail)).length,
            some (front ++ (middle ++ extra :: tail)), allocation⟩ = some _ :=
          if_neg (not_le.2 hlt)
        rw [insert, hroom, Option.bind_eq_bind, Option.bind_some]
        simp only [hwrap, if_true, hcount, shiftUp_cells, hshift, Option.map_some,
          Option.bind_eq_bind, Option.bind_some]
        rwa [hlength] at hpush
      · have hold : elements ⟨front.length + middle.length,
            (front ++ (middle ++ extra :: tail)).length,
            some (front ++ (middle ++ extra :: tail)), allocation⟩ = front ++ middle := by
          rw [elements, Option.getD_some, ← List.append_assoc, List.take_left']
          exact List.length_append
        have hnew : (front ++ (some x :: middle ++ tail)).take (front.length + middle.length + 1) =
            front ++ some x :: middle := by
          rw [← List.append_assoc, List.take_left']
          rw [List.length_append, List.length_cons, Nat.add_assoc]
        rw [helements, hold, hnew, VectorSlots.insertIdx_length]

/-- Between two elements, with room for four. -/
theorem insert_elements_two :
    ∃ next extra, insert (fun _ => true) ⟨2, 4, some [some 5, some 7, none, none], 1⟩ 1 6 =
        some next ∧
      next.elements = [some 5, some 6, some 7] ++ [extra] :=
  insert_elements ⟨rfl, by decide, by decide⟩ (by decide) (by decide) (.inl (by decide)) 6

end Elements

end VectorDynamic

end Wiselib.Pstl
