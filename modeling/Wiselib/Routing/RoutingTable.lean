import Mathlib

/-!
# Routing tables in static memory

`StaticArrayRoutingTable` is a vector of pairs that is searched from the front.
Assigning through `operator[]` overwrites the value of a key that is there and
appends a key that is not, unless the vector is full: then the value goes to a
dummy that nobody reads.
-/

namespace Wiselib.Routing

variable {Key Value : Type*} [DecidableEq Key]

/-- The pairs in the order in which they were inserted. -/
abbrev RoutingTable (Key Value : Type*) := List (Key × Value)

namespace RoutingTable

variable {table : RoutingTable Key Value} {key other : Key} {value found : Value} {capacity : ℕ}

/-- `find`. -/
def find : RoutingTable Key Value → Key → Option Value
  | [], _ => none
  | entry :: rest, key => if entry.1 = key then some entry.2 else find rest key

/-- Writes the value of the first pair with this key. -/
def overwrite (key : Key) (value : Value) : RoutingTable Key Value → RoutingTable Key Value
  | [] => []
  | entry :: rest =>
      if entry.1 = key then (key, value) :: rest else entry :: overwrite key value rest

/-- `table[key] = value`. -/
def assign (capacity : ℕ) (key : Key) (value : Value) (table : RoutingTable Key Value) :
    RoutingTable Key Value :=
  if (table.find key).isSome then table.overwrite key value
  else if table.length < capacity then table ++ [(key, value)]
  else table

@[simp] theorem find_nil : find ([] : RoutingTable Key Value) key = none := rfl

theorem find_overwrite_self (hfound : (table.find key).isSome) :
    (table.overwrite key value).find key = some value := by
  induction table with
  | nil => simp at hfound
  | cons entry rest ih =>
      by_cases hentry : entry.1 = key
      · simp [overwrite, find, hentry]
      · simp only [find, if_neg hentry] at hfound
        simp only [overwrite, if_neg hentry, find]
        exact ih hfound

theorem find_overwrite_other (hne : other ≠ key) :
    (table.overwrite key value).find other = table.find other := by
  induction table with
  | nil => rfl
  | cons entry rest ih =>
      by_cases hentry : entry.1 = key
      · simp [overwrite, find, hentry, hne.symm]
      · simp only [overwrite, if_neg hentry, find, ih]

theorem find_append_self (habsent : table.find key = none) :
    find (table ++ [(key, value)]) key = some value := by
  induction table with
  | nil => simp [find]
  | cons entry rest ih =>
      by_cases hentry : entry.1 = key
      · simp [find, hentry] at habsent
      · simp only [find, if_neg hentry] at habsent
        simp only [List.cons_append, find, if_neg hentry]
        exact ih habsent

theorem find_append_other (hne : other ≠ key) :
    find (table ++ [(key, value)]) other = table.find other := by
  induction table with
  | nil => simp [find, hne.symm]
  | cons entry rest ih => simp only [List.cons_append, find, ih]

theorem find_assign_other (hne : other ≠ key) :
    (table.assign capacity key value).find other = table.find other := by
  unfold assign
  split
  · exact find_overwrite_other hne
  · split
    · exact find_append_other hne
    · rfl

theorem find_assign_present (hfound : (table.find key).isSome) :
    (table.assign capacity key value).find key = some value := by
  rw [assign, if_pos hfound]
  exact find_overwrite_self hfound

theorem find_assign_absent (habsent : table.find key = none) (hroom : table.length < capacity) :
    (table.assign capacity key value).find key = some value := by
  rw [assign, if_neg (by simp [habsent]), if_pos hroom]
  exact find_append_self habsent

theorem assign_full (habsent : table.find key = none) (hfull : capacity ≤ table.length) :
    table.assign capacity key value = table := by
  rw [assign, if_neg (by simp [habsent]), if_neg (by omega)]

theorem find_assign_cases (hfound : (table.assign capacity key value).find other = some found) :
    table.find other = some found ∨ other = key ∧ found = value := by
  by_cases hother : other = key
  · subst hother
    by_cases hpresent : (table.find other).isSome
    · rw [find_assign_present hpresent] at hfound
      exact .inr ⟨rfl, (Option.some.inj hfound).symm⟩
    · have habsent : table.find other = none := by simpa using hpresent
      by_cases hroom : table.length < capacity
      · rw [find_assign_absent habsent hroom] at hfound
        exact .inr ⟨rfl, (Option.some.inj hfound).symm⟩
      · rw [assign, if_neg hpresent, if_neg hroom] at hfound
        exact .inl hfound
  · rw [find_assign_other hother] at hfound
    exact .inl hfound

/-! ## Keys -/

theorem find_eq_none_iff : table.find key = none ↔ key ∉ table.map Prod.fst := by
  induction table with
  | nil => simp
  | cons entry rest ih =>
      by_cases hentry : entry.1 = key
      · simp [find, hentry]
      · simp only [find, if_neg hentry, List.map_cons, List.mem_cons, not_or, ih]
        exact ⟨fun habsent => ⟨Ne.symm hentry, habsent⟩, fun h => h.2⟩

theorem keys_overwrite : (table.overwrite key value).map Prod.fst = table.map Prod.fst := by
  induction table with
  | nil => rfl
  | cons entry rest ih =>
      by_cases hentry : entry.1 = key
      · simp [overwrite, hentry]
      · simp only [overwrite, if_neg hentry, List.map_cons, ih]

theorem nodup_assign (hnodup : (table.map Prod.fst).Nodup) :
    ((table.assign capacity key value).map Prod.fst).Nodup := by
  unfold assign
  split
  · rw [keys_overwrite]
    exact hnodup
  · rename_i habsent
    split
    · rw [List.map_append]
      apply hnodup.append (List.nodup_singleton _)
      have hkey : key ∉ table.map Prod.fst :=
        find_eq_none_iff.1 (by simpa using habsent)
      simpa using hkey
    · exact hnodup

theorem find_of_mem (hnodup : (table.map Prod.fst).Nodup) (hmem : (key, value) ∈ table) :
    table.find key = some value := by
  induction table with
  | nil => simp at hmem
  | cons entry rest ih =>
      rw [List.map_cons, List.nodup_cons] at hnodup
      rcases List.mem_cons.1 hmem with rfl | hrest
      · simp [find]
      · have hne : entry.1 ≠ key := by
          intro heq
          rw [heq] at hnodup
          exact hnodup.1 (List.mem_map.2 ⟨_, hrest, rfl⟩)
        rw [find, if_neg hne]
        exact ih hnodup.2 hrest

theorem mem_of_find (hfound : table.find key = some value) : (key, value) ∈ table := by
  induction table with
  | nil => simp at hfound
  | cons entry rest ih =>
      unfold find at hfound
      split at hfound
      · rename_i hentry
        rw [← hentry, ← Option.some.inj hfound]
        exact List.mem_cons_self
      · exact List.mem_cons_of_mem _ (ih hfound)

end RoutingTable

theorem toNat_add_one {hops : UInt8} (hlt : hops.toNat < 255) :
    (hops + 1).toNat = hops.toNat + 1 := by
  rw [UInt8.toNat_add]
  exact Nat.mod_eq_of_lt (show hops.toNat + 1 < 256 by omega)

end Wiselib.Routing
