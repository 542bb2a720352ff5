import Wiselib.Pstl.VectorStaticEditing
import Wiselib.Library.Run

/-!
# Sets in static memory

`set_static` of `util/pstl/set_static.h`.  It keeps its values in the slots of an
array as `vector_static` does, and shares `push_back`, `pop_back` and `erase` at a
position and of a range with it.  `insert` shifts the values behind the position one
slot on, as there, and looks for the new value meanwhile.

## Strategy

The loop of `insert` compares each slot with the value that it carries, which is the
new one at the position only and the value of the slot before from there on.  In a set
without doubles it therefore stops at the position or not at all: elsewhere it is the
loop of `vector_static` (`carry_eq_shiftUp`), so that a value that is present further on
is stored twice.  `Right` collects what keeps a run free of doubles, and in the states
of such a run both conditions are exact (`set_right_iff`).
-/

namespace Wiselib.Pstl

namespace SetStatic

open VectorSlots Transition

variable {α : Type*} [DecidableEq α]

/-! ## The code -/

/-- The loop of `insert`, which has `count` values left behind the iterator.  It carries nothing
on where it finds its value. -/
def carry : ℕ → List α → ℕ → α → Option (List α × Option α)
  | 0, set_, _, cur => some (set_, some cur)
  | count + 1, set_, it, cur => do
      let temp ← read set_ it
      if cur = temp then return (set_, none)
      else
        let set_ ← write set_ it cur
        carry count set_ (it + 1) temp

/-- `insert` at a position. -/
def insert (setSize : ℕ) (values : VectorSlots α) (position : ℕ) (x : α) :
    Option (VectorSlots α × ℕ) :=
  if values.finish_ = setSize then some (values, values.finish_)
  else do
    let (set_, cur) ← carry (values.finish_ - position) values.vec_ position x
    match cur with
    | none => return ({ values with vec_ := set_ }, values.finish_)
    | some cur => do
        let longer ← pushBack setSize { values with vec_ := set_ } cur
        return (longer, position)

/-- `find`: the place of the value, or the end. -/
def find (values : VectorSlots α) (x : α) : ℕ := values.toList.idxOf x

/-- The loop of `erase` of a value, which counts. -/
def eraseLoop (x : α) : ℕ → VectorSlots α → ℕ → Option (VectorSlots α × ℕ)
  | 0, _, _ => none
  | fuel + 1, values, count =>
      if find values x ≠ values.finish_ then do
        let (values, _) ← erase values (find values x)
        eraseLoop x fuel values (count + 1)
      else some (values, count)

/-- `erase` of a value.  Every round takes one value away. -/
def eraseValue (values : VectorSlots α) (x : α) : Option (VectorSlots α × ℕ) :=
  eraseLoop x (values.finish_ + 1) values 0

/-- The calls that change a set.  `insert` without a position is the one at `begin()`. -/
inductive Op (α : Type*) where
  | insert (position : ℕ) (x : α)
  | eraseValue (x : α)
  | erase (position : ℕ)
  | eraseRange (first last : ℕ)
  | clear

/-- Performs a call. -/
def perform (setSize : ℕ) (values : VectorSlots α) : Op α → Option (VectorSlots α)
  | .insert position x => (insert setSize values position x).map Prod.fst
  | .eraseValue x => (eraseValue values x).map Prod.fst
  | .erase position => (erase values position).map Prod.fst
  | .eraseRange first last => (eraseRange values first last).map Prod.fst
  | .clear => some { values with finish_ := 0 }

/-! ## `insert` -/

section Insert

variable {setSize : ℕ} {values : VectorSlots α}

theorem carry_eq_shiftUp (front middle tail : List α) (cur : α)
    (hchain : (cur :: middle).IsChain (· ≠ ·)) :
    carry middle.length (front ++ (middle ++ tail)) front.length cur =
      (shiftUp middle.length (front ++ (middle ++ tail)) front.length cur).map
        fun (set_, cur) => (set_, some cur) := by
  induction middle generalizing front cur with
  | nil => rfl
  | cons y middle ih =>
      obtain ⟨hne, hchain⟩ := List.isChain_cons_cons.1 hchain
      have hnext := ih (front ++ [cur]) y hchain
      rw [List.length_append, List.length_singleton, List.append_assoc,
        List.singleton_append] at hnext
      rw [List.length_cons, List.cons_append, carry, shiftUp, read_append, Option.bind_eq_bind,
        Option.bind_some, if_neg hne, write_append, Option.bind_eq_bind, Option.bind_some, hnext]
      rfl

/-- What an insertion should do: leave the values and the new one, none of them twice, or refuse
a new value in a full set. -/
def Inserts (setSize : ℕ) (values : VectorSlots α) (position : ℕ) (x : α) : Prop :=
  ∃ next, (insert setSize values position x).map Prod.fst = some next ∧ next.Sound setSize ∧
    (next.toList.Nodup ∧ (∀ y, y ∈ next.toList ↔ y ∈ values.toList ∨ y = x) ∨
      values.finish_ = setSize ∧ x ∉ values.toList ∧ next = values)

/-- The set is full, or the value is new or stands at the position. -/
def Insertable (setSize : ℕ) (values : VectorSlots α) (position : ℕ) (x : α) : Prop :=
  values.finish_ = setSize ∨ x ∉ values.toList ∨ values.toList[position]? = some x

theorem insert_present {position : ℕ} {x : α} (hroom : values.finish_ ≠ setSize) (hx : values.toList[position]? = some x) :
    insert setSize values position x = some (values, values.finish_) := by
  have hlt : position < values.finish_ := by
    by_contra hge
    rw [toList, List.getElem?_take_eq_none (not_lt.1 hge)] at hx
    cases hx
  have hread : read values.vec_ position = some x := by
    rwa [toList, List.getElem?_take_of_lt hlt] at hx
  obtain ⟨count, hcount⟩ : ∃ count, values.finish_ - position = count + 1 :=
    ⟨values.finish_ - position - 1, by omega⟩
  have hcarry : carry (count + 1) values.vec_ position x = some (values.vec_, none) := by
    rw [carry, hread, Option.bind_eq_bind, Option.bind_some, if_pos rfl]
    rfl
  rw [insert, if_neg hroom, hcount, hcarry]
  rfl

theorem insert_leaves (hsound : values.Sound setSize) (hnodup : values.toList.Nodup)
    {position : ℕ} {x : α} (hposition : position ≤ values.finish_)
    (hroom : values.finish_ < setSize) (hx : values.toList[position]? ≠ some x) :
    Leaves setSize ((insert setSize values position x).map Prod.fst)
      (values.toList.insertIdx position x) := by
  have hright := insert_right hsound hposition hroom x
  obtain ⟨front, middle, tail, rfl, rfl, hall⟩ := hsound.exists_split hposition
  rw [toList_append_append] at hnodup hx
  have hchain : (x :: middle).IsChain (· ≠ ·) := by
    have hmiddle : middle.IsChain (· ≠ ·) := (List.nodup_append.1 hnodup).2.1.isChain
    rw [List.getElem?_append_right (le_refl _), Nat.sub_self] at hx
    cases middle with
    | nil => exact List.isChain_singleton x
    | cons y middle =>
        rw [List.getElem?_cons_zero, Ne, Option.some.injEq] at hx
        exact List.isChain_cons_cons.2 ⟨Ne.symm hx, hmiddle⟩
  have hcarry := carry_eq_shiftUp front middle tail x hchain
  rw [shiftUp_spec] at hcarry
  rw [VectorSlots.insert, if_neg hroom.ne, Nat.add_sub_cancel_left, shiftUp_spec] at hright
  rw [insert, if_neg hroom.ne, Nat.add_sub_cancel_left, hcarry]
  exact hright

/-- **An insertion into a set without doubles** is right if and only if the set is full, or the
value is new or stands at the position. -/
theorem inserts_iff (hsound : values.Sound setSize) (hnodup : values.toList.Nodup)
    {position : ℕ} (hposition : position ≤ values.finish_) (x : α) :
    Inserts setSize values position x ↔ Insertable setSize values position x := by
  by_cases hfull : values.finish_ = setSize
  · refine iff_of_true ⟨values, ?_, hsound, ?_⟩ (Or.inl hfull)
    · rw [insert, if_pos hfull]
      rfl
    · by_cases hmem : x ∈ values.toList
      · exact Or.inl ⟨hnodup, fun y => ⟨Or.inl, fun hy => hy.elim id fun heq => heq ▸ hmem⟩⟩
      · exact Or.inr ⟨hfull, hmem, rfl⟩
  by_cases hpresent : values.toList[position]? = some x
  · refine iff_of_true ⟨values, ?_, hsound, Or.inl ⟨hnodup, fun y => ?_⟩⟩ (Or.inr (Or.inr hpresent))
    · rw [insert_present hfull hpresent]
      rfl
    · exact ⟨Or.inl, fun hy => hy.elim id fun heq => heq ▸ List.mem_of_getElem? hpresent⟩
  have hroom : values.finish_ < setSize := lt_of_le_of_ne hsound.finish_le hfull
  obtain ⟨next, hnext, hsound', hlist⟩ :=
    insert_leaves hsound hnodup hposition hroom hpresent
  have hcount : position ≤ values.toList.length := hsound.length_toList.symm ▸ hposition
  have hperm := List.perm_insertIdx x values.toList hcount
  have hiff : Inserts setSize values position x ↔ next.toList.Nodup := by
    constructor
    · rintro ⟨next', hnext', -, ⟨hnodup', -⟩ | ⟨hfull', -⟩⟩
      · rwa [Option.some.inj (hnext.symm.trans hnext')]
      · exact absurd hfull' hfull
    · refine fun hnodup' => ⟨next, hnext, hsound', Or.inl ⟨hnodup', fun y => ?_⟩⟩
      rw [hlist, hperm.mem_iff, List.mem_cons, or_comm]
  rw [hiff, hlist, hperm.nodup_iff, List.nodup_cons, and_iff_left hnodup]
  exact ⟨fun hnew => Or.inr (Or.inl hnew),
    fun hright => (hright.resolve_left hfull).resolve_right hpresent⟩

end Insert

/-! ## `erase` of a value -/

section Erase

variable {setSize : ℕ} {values : VectorSlots α} {x : α}

theorem find_eq_finish_iff (hsound : values.Sound setSize) :
    find values x = values.finish_ ↔ x ∉ values.toList := by
  rw [find, ← hsound.length_toList, List.idxOf_eq_length_iff]

/-- What the erasure of a value should do. -/
def Erases (setSize : ℕ) (values : VectorSlots α) (x : α) : Prop :=
  Leaves setSize ((eraseValue values x).map Prod.fst) (values.toList.filter (· ≠ x))

theorem eraseLoop_leaves (hsound : values.Sound setSize) (hroom : values.finish_ < setSize)
    {fuel : ℕ} (hfuel : values.finish_ < fuel) (count : ℕ) :
    Leaves setSize ((eraseLoop x fuel values count).map Prod.fst)
      (values.toList.filter (· ≠ x)) := by
  induction fuel generalizing values count with
  | zero => cases hfuel
  | succ fuel ih =>
      rw [eraseLoop]
      by_cases hfound : find values x = values.finish_
      · rw [if_neg (not_not.2 hfound)]
        have hnone : x ∉ values.toList := (find_eq_finish_iff hsound).1 hfound
        refine ⟨values, rfl, hsound, (List.filter_eq_self.2 fun y hy => ?_).symm⟩
        exact decide_eq_true fun heq : y = x => hnone (heq ▸ hy)
      · have hmem : x ∈ values.toList := not_not.1 (mt (find_eq_finish_iff hsound).2 hfound)
        have hplace : find values x ≤ values.finish_ := by
          rw [find, ← hsound.length_toList]
          exact List.idxOf_le_length
        obtain ⟨next, hnext, hsound', hlist⟩ := erase_right hsound hplace (Or.inr hroom)
        obtain ⟨⟨next, it⟩, herase, rfl⟩ := Option.map_eq_some_iff.1 hnext
        dsimp only at hsound' hlist
        have hfilter : next.toList.filter (· ≠ x) = values.toList.filter (· ≠ x) := by
          obtain ⟨front, back, hsplit, hfront⟩ := List.eq_append_cons_of_mem hmem
          have hfind : find values x = front.length := by
            rw [find, hsplit, List.idxOf_append_of_notMem hfront, List.idxOf_cons_self, Nat.add_zero]
          have herased : next.toList = front ++ back := by
            rw [hlist, hfind, hsplit, List.eraseIdx_append_of_length_le (le_refl _), Nat.sub_self]
            rfl
          rw [herased, hsplit, List.filter_append, List.filter_append, List.filter_cons_of_neg]
          simp
        have hshort : next.finish_ < values.finish_ := by
          have hlt : find values x < values.toList.length := List.idxOf_lt_length_of_mem hmem
          have hlength := congrArg List.length hlist
          rw [List.length_eraseIdx_of_lt hlt, hsound'.length_toList, hsound.length_toList] at hlength
          rw [hsound.length_toList] at hlt
          omega
        rw [if_pos hfound, herase, ← hfilter]
        exact ih hsound' (hshort.trans hroom) (by omega) (count + 1)

/-- **The erasure of a value** is right if and only if the value is not in the set or the set is
not full. -/
theorem erases_iff (hsound : values.Sound setSize) (x : α) :
    Erases setSize values x ↔ x ∉ values.toList ∨ values.finish_ < setSize := by
  by_cases hroom : values.finish_ < setSize
  · exact iff_of_true (eraseLoop_leaves hsound hroom (Nat.lt_succ_self _) 0) (Or.inr hroom)
  rw [or_iff_left hroom]
  have hfull : values.finish_ = setSize := le_antisymm hsound.finish_le (not_lt.1 hroom)
  have hfind := find_eq_finish_iff hsound (x := x)
  rw [Erases, eraseValue, eraseLoop]
  by_cases hfound : find values x = values.finish_
  · have hnone := hfind.1 hfound
    rw [if_neg (not_not.2 hfound)]
    refine iff_of_true ⟨values, rfl, hsound, (List.filter_eq_self.2 fun y hy => ?_).symm⟩ hnone
    exact decide_eq_true fun heq : y = x => hnone (heq ▸ hy)
  · -- the value moved into its place is read from behind the array
    have hlt : find values x < values.finish_ := by
      refine lt_of_le_of_ne ?_ hfound
      rw [find, ← hsound.length_toList]
      exact List.idxOf_le_length
    rw [if_pos hfound, erase_eq_none hsound hlt hfull]
    refine iff_of_false ?_ (mt hfind.2 hfound)
    rintro ⟨next, hnext, -⟩
    cases hnext

end Erase

/-! ## Runs -/

section Runs

variable {setSize : ℕ} {values next : VectorSlots α} {operations : List (Op α)}

/-- What a caller owes: iterators of the set. -/
def Valid (values : VectorSlots α) : Op α → Prop
  | .insert position _ => position ≤ values.finish_
  | .erase position => position ≤ values.finish_
  | .eraseRange first last => first ≤ last ∧ last ≤ values.finish_
  | _ => True

/-- What keeps a call within the array and the set free of doubles. -/
def Right (setSize : ℕ) (values : VectorSlots α) : Op α → Prop
  | .insert position x => Insertable setSize values position x
  | .eraseValue x => x ∉ values.toList ∨ values.finish_ < setSize
  | .erase position => position = values.finish_ ∨ values.finish_ < setSize
  | _ => True

/-- Calls with iterators of the set, under their condition. -/
def Guard (setSize : ℕ) (values : VectorSlots α) (op : Op α) : Prop :=
  Valid values op ∧ Right setSize values op

/-- A set in its array, without doubles. -/
structure IsSet (setSize : ℕ) (values : VectorSlots α) : Prop where
  sound : values.Sound setSize
  nodup : values.toList.Nodup

/-- **A call under its condition** leaves a set. -/
theorem isSet_perform (hset : IsSet setSize values) {op : Op α} (hguard : Guard setSize values op)
    (hperform : perform setSize values op = some next) : IsSet setSize next := by
  obtain ⟨hvalid, hright⟩ := hguard
  obtain ⟨hsound, hnodup⟩ := hset
  have hleaves : ∀ {list : List α}, list.Sublist values.toList →
      Leaves setSize (some next) list → IsSet setSize next := by
    rintro list hsub ⟨next', hnext', hsound', rfl⟩
    obtain rfl := Option.some.inj hnext'
    exact ⟨hsound', hsub.nodup hnodup⟩
  cases op with
  | insert position x =>
      obtain ⟨next', hnext', hsound', hresult⟩ := (inserts_iff hsound hnodup hvalid x).2 hright
      obtain rfl := Option.some.inj (hperform.symm.trans hnext')
      rcases hresult with ⟨hnodup', -⟩ | ⟨-, -, rfl⟩
      · exact ⟨hsound', hnodup'⟩
      · exact ⟨hsound, hnodup⟩
  | eraseValue x =>
      have herases := (erases_iff hsound x).2 hright
      rw [Erases, show (eraseValue values x).map Prod.fst = some next from hperform] at herases
      exact hleaves List.filter_sublist herases
  | erase position =>
      have herase := erase_right hsound hvalid hright
      rw [show (erase values position).map Prod.fst = some next from hperform] at herase
      exact hleaves (List.eraseIdx_sublist _ _) herase
  | eraseRange first last =>
      have herase := eraseRange_right hsound hvalid.1 hvalid.2
      rw [show (eraseRange values first last).map Prod.fst = some next from hperform] at herase
      refine hleaves ?_ herase
      have hdrop : (values.toList.drop last).Sublist (values.toList.drop first) :=
        (List.drop_sublist_drop_left _ hvalid.1)
      conv_rhs => rw [← List.take_append_drop first values.toList]
      exact hdrop.append_left _
  | clear =>
      obtain rfl := Option.some.inj hperform
      exact ⟨⟨hsound.length_vec, Nat.zero_le _⟩, by simp [toList]⟩

/-- **A set after any calls under their conditions** is right about the next insertion if and
only if it is full or the value is new or stands at the position, and about the next erasure of a
value if and only if the value is not in the set or the set is not full. -/
theorem set_right_iff {set_ : List α} (hset : set_.length = setSize)
    (hrun : Run (Guarded (Guard setSize) (stepOf (perform setSize))) ⟨set_, 0⟩ operations values) :
    IsSet setSize values ∧
      (∀ position ≤ values.finish_, ∀ x,
        Inserts setSize values position x ↔ Insertable setSize values position x) ∧
      ∀ x, Erases setSize values x ↔ x ∉ values.toList ∨ values.finish_ < setSize := by
  have hnew : IsSet setSize (⟨set_, 0⟩ : VectorSlots α) :=
    ⟨⟨hset, Nat.zero_le _⟩, by simp [toList]⟩
  have hstep : ∀ (values : VectorSlots α) (op : Op α) (next : VectorSlots α), IsSet setSize values →
      Guarded (Guard setSize) (stepOf (perform setSize)) values op next →
        IsSet setSize next :=
    fun _ _ _ hset hstep => isSet_perform hset hstep.1 hstep.2
  have hvalues := hrun.invariant hstep hnew
  exact ⟨hvalues, fun position hposition x => inserts_iff hvalues.sound hvalues.nodup hposition x,
    fun x => erases_iff hvalues.sound x⟩

/-- A set for three values into which 5 and 7 were inserted. -/
theorem set_right_iff_pair :
    Inserts 3 (⟨[7, 5, 0], 2⟩ : VectorSlots ℕ) 0 5 ↔
      Insertable 3 (⟨[7, 5, 0], 2⟩ : VectorSlots ℕ) 0 5 := by
  have hfirst : Guarded (Guard 3) (stepOf (perform 3)) (⟨[0, 0, 0], 0⟩ : VectorSlots ℕ)
      (Op.insert 0 5) ⟨[5, 0, 0], 1⟩ :=
    ⟨⟨Nat.zero_le _, Or.inr (Or.inl (by decide))⟩, rfl⟩
  have hsecond : Guarded (Guard 3) (stepOf (perform 3)) (⟨[5, 0, 0], 1⟩ : VectorSlots ℕ)
      (Op.insert 0 7) ⟨[7, 5, 0], 2⟩ :=
    ⟨⟨Nat.zero_le _, Or.inr (Or.inl (by decide))⟩, rfl⟩
  have hlength : [0, 0, 0].length = 3 := rfl
  exact (set_right_iff hlength (.cons hfirst (.cons hsecond (.nil _)))).2.1 0 (Nat.zero_le _) 5

/-- **A value that is present**: 5 is stored a second time. -/
theorem set_of_two_insert :
    IsSet 3 (⟨[7, 5, 0], 2⟩ : VectorSlots ℕ) ∧ ¬ Inserts 3 (⟨[7, 5, 0], 2⟩ : VectorSlots ℕ) 0 5 := by
  have hset : IsSet 3 (⟨[7, 5, 0], 2⟩ : VectorSlots ℕ) := ⟨⟨rfl, by decide⟩, by decide⟩
  refine ⟨hset, ?_⟩
  rintro ⟨next, hnext, -, hresult⟩
  have hinsert : (insert 3 (⟨[7, 5, 0], 2⟩ : VectorSlots ℕ) 0 5).map Prod.fst =
      some ⟨[5, 7, 5], 3⟩ := rfl
  obtain rfl := Option.some.inj (hinsert.symm.trans hnext)
  rcases hresult with ⟨hnodup, -⟩ | ⟨hfull, -⟩
  · exact absurd hnodup (by decide)
  · cases hfull

end Runs

end SetStatic

end Wiselib.Pstl
