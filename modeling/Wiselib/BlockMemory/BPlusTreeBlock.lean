import Wiselib.Library.KeyedLists

/-!
# Blocks of the B+ tree

`BPlusTreeBlock` of `algorithms/block_memory/b_plus_tree_block.h`: a block holds pairs of a key
and a value in the order of their keys.  Positions are numbers of `size_type`, which wrap, so that
the position behind `npos` is the first one.  An access outside the payload has no result.

`run_lookup` puts the calls together: a block is a map with room for `MAX_ELEMENTS` keys.

`pivot` is about the bits of unsigned keys.  Which key it takes depends on `PIVOT_RULE`: with 1
it is the left one, which is not above itself.

## Strategy

The pairs of a block are those up to some key, and those behind it.  `find` looks for the
boundary between the two (`findLoop_spec`), `insert` and `erase` move what is behind
it (`memmove_up`, `memmove_down`).
-/

namespace Wiselib.BPlusTree

open KeyedLists

/-- The width of `size_type` and `MAX_ELEMENTS`.  A pair has two bytes at least, and the bytes of
the payload are counted in `size_type`. -/
structure Layout where
  sizeBits : ℕ
  maxElements : ℕ
  payload_lt : 2 * maxElements < 2 ^ sizeBits

/-- The payload and `size()`. -/
structure Block (layout : Layout) (Key Mapped : Type) where
  entries : Vector (Key × Mapped) layout.maxElements
  size : ℕ
  size_le : size ≤ layout.maxElements

namespace Layout

variable (layout : Layout)

/-- `npos`. -/
def npos : ℕ := 2 ^ layout.sizeBits - 1

/-- `a + b` in `size_type`. -/
def plus (a b : ℕ) : ℕ := (a + b) % 2 ^ layout.sizeBits

/-- `a - b` in `size_type`. -/
def minus (a b : ℕ) : ℕ := (a + 2 ^ layout.sizeBits - b) % 2 ^ layout.sizeBits

end Layout

namespace Block

variable {layout : Layout} {Key Mapped : Type}

/-- The pairs that the block holds. -/
def pairs (block : Block layout Key Mapped) : List (Key × Mapped) :=
  block.entries.toList.take block.size

/-- `memmove` of `count` pairs. -/
def memmove {n : ℕ} (entries : Vector (Key × Mapped) n) (dst src count : ℕ) :
    Option (Vector (Key × Mapped) n) :=
  if h : dst + count ≤ n ∧ src + count ≤ n then
    some ⟨(entries.toList.take dst ++ (entries.toList.drop src).take count ++
      entries.toList.drop (dst + count)).toArray, by simp; omega⟩
  else none

/-- `at(i) = kv`. -/
def write {n : ℕ} (entries : Vector (Key × Mapped) n) (i : ℕ) (kv : Key × Mapped) :
    Option (Vector (Key × Mapped) n) :=
  if h : i < n then some (entries.set i kv) else none

/-- `set_size`; `check_size` asserts that the size is one of a block. -/
def setSize (entries : Vector (Key × Mapped) layout.maxElements) (s : ℕ) :
    Option (Block layout Key Mapped) :=
  if h : s ≤ layout.maxElements then some ⟨entries, s, h⟩ else none

section Code

variable (block : Block layout Key Mapped)

/-- `if(size() > p + 1)`: the pairs behind `p` are moved. -/
def makeRoom (p : ℕ) : Option (Vector (Key × Mapped) layout.maxElements) :=
  if layout.plus p 1 < block.size then
    memmove block.entries (layout.plus p 2) (layout.plus p 1)
      (layout.minus block.size (layout.plus p 1))
  else some block.entries

variable [LinearOrder Key]

/-- The loop of `find`.  A round leaves less of the block, so there are not more rounds than
pairs. -/
def findLoop (k : Key) : ℕ → ℕ → ℕ → Option ℕ
  | 0, _, _ => none
  | rounds + 1, l, r =>
      if l < r then do
        let m := layout.plus l r / 2
        let km ← block.entries[m]?
        if km.1 = k then return m
        else if k < km.1 then findLoop k rounds l m
        else findLoop k rounds (layout.plus m 1) r
      else some (layout.minus l 1)

/-- `find`. -/
def find (k : Key) : Option ℕ := findLoop block k (block.size + 1) 0 block.size

/-- `p != npos && at(p).key() == k`. -/
def holds (p : ℕ) (k : Key) : Option Bool :=
  if p = layout.npos then some false
  else (block.entries[p]?).map fun kv => decide (kv.1 = k)

/-- `insert`: the block and the position of the key. -/
def insert (kv : Key × Mapped) : Option (Block layout Key Mapped × ℕ) := do
  let p ← find block kv.1
  if ← holds block p kv.1 then return (block, p)
  else if block.size = layout.maxElements then return (block, layout.npos)
  else
    let p := if p = layout.npos then layout.minus 0 1 else p
    let moved ← makeRoom block p
    let written ← write moved (layout.plus p 1) kv
    let inserted ← setSize written (layout.plus block.size 1)
    return (inserted, layout.plus p 1)

/-- `erase`. -/
def erase (i : ℕ) : Option (Block layout Key Mapped) := do
  let moved ← memmove block.entries i (layout.plus i 1) (layout.minus (layout.minus block.size i) 1)
  setSize moved (layout.minus block.size 1)

end Code

end Block

/-- `pivot`, for a `PIVOT_RULE` and keys of `w` bits. -/
def pivot {w : ℕ} (rule : ℤ) (k0 k1 : BitVec w) : BitVec w :=
  if rule = 1 then k0
  else if rule = 2 then k1
  else ((k0 + 1#w) &&& k1) + (((k0 + 1#w) ^^^ k1) >>> 1)

/-! ## The pivot -/

/-- The bits of both summands are the carries, those of one of them the result of a half-add. -/
theorem add_eq_and_xor (a b : ℕ) : a + b = 2 * (a &&& b) + (a ^^^ b) := by
  induction a using Nat.strong_induction_on generalizing b with
  | _ a ih =>
      by_cases ha : a = 0
      · simp [ha]
      · have hhalf := ih (a / 2) (by omega) (b / 2)
        rw [← Nat.and_div_two, ← Nat.xor_div_two] at hhalf
        have hand := @Nat.and_mod_two_eq_one a b
        have hxor := @Nat.xor_mod_two_eq_one a b
        omega

/-- **The mean**, rounded up, of two keys of which the first is the smaller one. -/
theorem mean_toNat {w : ℕ} {k0 k1 : BitVec w} (hlt : k0 < k1) :
    (((k0 + 1#w) &&& k1) + (((k0 + 1#w) ^^^ k1) >>> 1)).toNat = (k0.toNat + 1 + k1.toNat) / 2 := by
  have hk1 := k1.isLt
  rw [BitVec.lt_def] at hlt
  have hw : 1 < 2 ^ w := by omega
  have hone : (k0 + 1#w).toNat = k0.toNat + 1 := by
    rw [BitVec.toNat_add, BitVec.toNat_ofNat, Nat.mod_eq_of_lt hw, Nat.mod_eq_of_lt (by omega)]
  have hsum := add_eq_and_xor (k0.toNat + 1) k1.toNat
  rw [BitVec.toNat_add, BitVec.toNat_and, BitVec.toNat_ushiftRight, BitVec.toNat_xor, hone,
    Nat.shiftRight_eq_div_pow, pow_one, Nat.mod_eq_of_lt (by omega)]
  omega

theorem pivot_right {w : ℕ} {rule : ℤ} (hrule : rule ≠ 1) {k0 k1 : BitVec w} (hlt : k0 < k1) :
    k0 < pivot rule k0 k1 ∧ pivot rule k0 k1 ≤ k1 := by
  rw [pivot, if_neg hrule]
  split
  · exact ⟨hlt, BitVec.le_refl k1⟩
  · rw [BitVec.lt_def, BitVec.le_def, mean_toNat hlt]
    rw [BitVec.lt_def] at hlt
    omega

/-! ## Positions -/

namespace Layout

variable {layout : Layout} {a b : ℕ}

theorem plus_eq (hlt : a + b < 2 ^ layout.sizeBits) : layout.plus a b = a + b :=
  Nat.mod_eq_of_lt hlt

theorem minus_eq (hle : b ≤ a) (hlt : a < 2 ^ layout.sizeBits) : layout.minus a b = a - b := by
  rw [minus, show a + 2 ^ layout.sizeBits - b = a - b + 2 ^ layout.sizeBits by omega,
    Nat.add_mod_right, Nat.mod_eq_of_lt (by omega)]

theorem minus_zero_one : layout.minus 0 1 = layout.npos := by
  have hpos := Nat.two_pow_pos layout.sizeBits
  rw [minus, npos, Nat.mod_eq_of_lt (by omega)]
  omega

theorem plus_minus_two (hlt : a + 1 < 2 ^ layout.sizeBits) :
    layout.plus (layout.minus a 1) 2 = a + 1 := by
  rcases Nat.eq_zero_or_pos a with rfl | ha
  · rw [minus_zero_one, plus, npos, show 2 ^ layout.sizeBits - 1 + 2 = 1 + 2 ^ layout.sizeBits
      by omega, Nat.add_mod_right, Nat.mod_eq_of_lt (by omega)]
  · rw [minus_eq ha (by omega), plus_eq (by omega)]
    omega

theorem plus_minus_one (hlt : a < 2 ^ layout.sizeBits) :
    layout.plus (layout.minus a 1) 1 = a := by
  have hpos := Nat.two_pow_pos layout.sizeBits
  rcases Nat.eq_zero_or_pos a with rfl | ha
  · rw [minus_zero_one, plus, npos, Nat.sub_add_cancel hpos, Nat.mod_self]
  · rw [minus_eq ha hlt, plus, Nat.sub_add_cancel ha, Nat.mod_eq_of_lt hlt]

end Layout

namespace Block

variable {layout : Layout} {Key Mapped : Type} {block : Block layout Key Mapped}
  {front back stale : List (Key × Mapped)}

open Layout

theorem length_entries (block : Block layout Key Mapped) :
    block.entries.toList.length = layout.maxElements := by simp

theorem length_pairs (block : Block layout Key Mapped) : block.pairs.length = block.size := by
  rw [pairs, List.length_take, length_entries, Nat.min_eq_left block.size_le]

theorem size_lt (block : Block layout Key Mapped) : 2 * block.size < 2 ^ layout.sizeBits :=
  (Nat.mul_le_mul_left 2 block.size_le).trans_lt layout.payload_lt

theorem entry_of_lt {i : ℕ} (hi : i < block.size) : block.entries[i]? = block.pairs[i]? := by
  rw [pairs, List.getElem?_take_of_lt hi, Vector.getElem?_toList]

theorem exists_stale (block : Block layout Key Mapped) :
    ∃ stale, block.entries.toList = block.pairs ++ stale :=
  ⟨_, (List.take_append_drop block.size block.entries.toList).symm⟩

/-! ## Searching -/

section Order

variable [LinearOrder Key]

/-- **The loop of `find`** keeps the boundary between the pairs up to the key and those behind
it. -/
theorem findLoop_spec {k : Key} (hpairs : block.pairs = front ++ back)
    (hsorted : Sorted block.pairs) (hfront : ∀ x ∈ front, x.1 ≤ k) (hback : ∀ y ∈ back, k < y.1)
    {rounds l r : ℕ} (hrounds : r - l < rounds) (hl : l ≤ front.length) (hr : front.length ≤ r)
    (hsize : r ≤ block.size) :
    findLoop block k rounds l r = some (layout.minus front.length 1) := by
  have hsize_lt := block.size_lt
  induction rounds generalizing l r with
  | zero => omega
  | succ rounds ih =>
      rw [findLoop]
      split
      · rename_i hlt
        have hm : (l + r) / 2 < block.pairs.length := by
          rw [length_pairs]
          omega
        have hplus : layout.plus l r = l + r := plus_eq (by omega)
        have hmiddle : block.entries[(l + r) / 2]? = some block.pairs[(l + r) / 2] := by
          rw [entry_of_lt (by omega), List.getElem?_eq_getElem hm]
        have hin : (l + r) / 2 < front.length → block.pairs[(l + r) / 2].1 ≤ k := by
          intro hlow
          simp only [hpairs, List.getElem_append_left hlow]
          exact hfront _ (List.getElem_mem _)
        have hout : front.length ≤ (l + r) / 2 → k < block.pairs[(l + r) / 2].1 := by
          intro hhigh
          simp only [hpairs, List.getElem_append_right hhigh]
          exact hback _ (List.getElem_mem _)
        dsimp only
        rw [hplus, hmiddle, Option.bind_eq_bind, Option.bind_some]
        by_cases heq : block.pairs[(l + r) / 2].1 = k
        · -- the key itself is the last one up to it
          rw [if_pos heq]
          have hlow : (l + r) / 2 < front.length :=
            not_le.1 fun hhigh => (hout hhigh).ne heq.symm
          have hlast : front.length ≤ (l + r) / 2 + 1 := by
            by_contra hmore
            rw [not_le] at hmore
            have hnext : (l + r) / 2 + 1 < block.pairs.length := by
              rw [hpairs, List.length_append]
              omega
            have hstep := List.pairwise_iff_getElem.1 hsorted _ _ hm hnext (Nat.lt_succ_self _)
            rw [heq] at hstep
            simp only [hpairs, List.getElem_append_left hmore] at hstep
            exact (hfront _ (List.getElem_mem _)).not_gt hstep
          rw [minus_eq (by omega) (by omega), show front.length - 1 = (l + r) / 2 by omega]
          rfl
        · rw [if_neg heq]
          split
          · rename_i hless
            refine ih (by omega) hl ?_ (by omega)
            exact not_lt.1 fun hlow => (hin hlow).not_gt hless
          · rename_i hless
            rw [plus_eq (by omega)]
            refine ih (by omega) ?_ hr hsize
            exact Nat.succ_le_of_lt (not_le.1 fun hhigh => hless (hout hhigh))
      · rw [show l = front.length by omega]

/-- **`find`** gives the position in front of the boundary. -/
theorem find_spec {k : Key} (hpairs : block.pairs = front ++ back) (hsorted : Sorted block.pairs)
    (hfront : ∀ x ∈ front, x.1 ≤ k) (hback : ∀ y ∈ back, k < y.1) :
    find block k = some (layout.minus front.length 1) := by
  have hlength := block.length_pairs
  rw [hpairs, List.length_append] at hlength
  exact findLoop_spec hpairs hsorted hfront hback (Nat.lt_succ_self _) (Nat.zero_le _)
    (by omega) le_rfl

/-- What `find` returns is right: the position of the greatest key up to `k`. -/
def FindRight (block : Block layout Key Mapped) (k : Key) : Prop :=
  ((∀ x ∈ block.pairs, k < x.1) ∧ find block k = some layout.npos) ∨
    ∃ p x, find block k = some p ∧ p ≠ layout.npos ∧ block.pairs[p]? = some x ∧ x.1 ≤ k ∧
      ∀ y ∈ block.pairs, y.1 ≤ k → y.1 ≤ x.1

theorem find_right (hsorted : Sorted block.pairs) (k : Key) : FindRight block k := by
  obtain ⟨front, back, hpairs, hfront, hback⟩ := hsorted.exists_split k
  have hfind := find_spec hpairs hsorted hfront hback
  have hlength := block.length_pairs
  have hsize_lt := block.size_lt
  rw [hpairs, List.length_append] at hlength
  rcases List.eq_nil_or_concat' front with rfl | ⟨front, x, rfl⟩
  · left
    rw [hfind, List.length_nil, minus_zero_one, hpairs]
    exact ⟨hback, rfl⟩
  · right
    rw [List.length_append, List.length_singleton] at hfind hlength
    rw [minus_eq (by omega) (by omega), Nat.add_sub_cancel] at hfind
    refine ⟨front.length, x, hfind, ?_, ?_, hfront x (by simp), fun y hy hle => ?_⟩
    · rw [npos]
      omega
    · simp [hpairs]
    · rw [hpairs] at hsorted hy
      rcases List.mem_append.1 hy with hy | hy
      · rcases List.mem_append.1 hy with hy | hy
        · have hsorted' := (sorted_append.1 (sorted_append.1 hsorted).1).2.2
          exact (hsorted' y hy x (List.mem_singleton.2 rfl)).le
        · rw [List.mem_singleton.1 hy]
      · exact absurd (hback y hy) hle.not_gt

/-! ## Moving entries -/

omit [LinearOrder Key] in
theorem memmove_eq {n : ℕ} (entries : Vector (Key × Mapped) n) {dst src count : ℕ}
    (hdst : dst + count ≤ n) (hsrc : src + count ≤ n) :
    ∃ moved, memmove entries dst src count = some moved ∧
      moved.toList = entries.toList.take dst ++ (entries.toList.drop src).take count ++
        entries.toList.drop (dst + count) :=
  ⟨_, dif_pos ⟨hdst, hsrc⟩, rfl⟩

omit [LinearOrder Key] in
theorem memmove_up {n : ℕ} {entries : Vector (Key × Mapped) n} {w z : Key × Mapped}
    (hentries : entries.toList = front ++ w :: back ++ z :: stale) :
    ∃ moved, memmove entries (front.length + 1) front.length (back.length + 1) = some moved ∧
      moved.toList = front ++ w :: (w :: back) ++ stale := by
  have hlength : n = front.length + (back.length + 1) + (stale.length + 1) := by
    rw [← @Vector.length_toList _ _ entries, hentries]
    simp only [List.length_append, List.length_cons]
  obtain ⟨moved, hmove, hmoved⟩ := memmove_eq entries
    (show front.length + 1 + (back.length + 1) ≤ n by omega)
    (show front.length + (back.length + 1) ≤ n by omega)
  have hdst : entries.toList = (front ++ [w]) ++ (back ++ z :: stale) := by simp [hentries]
  have hsrc : entries.toList = front ++ ((w :: back) ++ z :: stale) := by simp [hentries]
  have hbehind : entries.toList = (front ++ w :: back ++ [z]) ++ stale := by simp [hentries]
  refine ⟨moved, hmove, hmoved.trans ?_⟩
  calc entries.toList.take (front.length + 1) ++
        (entries.toList.drop front.length).take (back.length + 1) ++
          entries.toList.drop (front.length + 1 + (back.length + 1))
      = (front ++ [w]) ++ (w :: back) ++ stale := by
        congr 1
        · congr 1
          · rw [hdst, List.take_left' (by simp)]
          · rw [hsrc, List.drop_left]
            exact List.take_left' rfl
        · rw [hbehind, List.drop_left' (by simp; omega)]
    _ = front ++ w :: (w :: back) ++ stale := by simp

omit [LinearOrder Key] in
theorem memmove_down {n : ℕ} {entries : Vector (Key × Mapped) n} {x : Key × Mapped}
    (hentries : entries.toList = front ++ x :: back ++ stale) :
    ∃ moved, memmove entries front.length (front.length + 1) back.length = some moved ∧
      moved.toList = front ++ back ++ entries.toList.drop (front.length + back.length) := by
  have hlength : n = front.length + (back.length + 1) + stale.length := by
    rw [← @Vector.length_toList _ _ entries, hentries]
    simp only [List.length_append, List.length_cons]
  obtain ⟨moved, hmove, hmoved⟩ := memmove_eq entries
    (show front.length + back.length ≤ n by omega)
    (show front.length + 1 + back.length ≤ n by omega)
  refine ⟨moved, hmove, hmoved.trans ?_⟩
  rw [hentries]
  simp

/-! ## Insertion -/

omit [LinearOrder Key] in
/-- The pairs behind a position are moved if there are any. -/
theorem makeRoom_eq {z : Key × Mapped} (hsize : block.size = front.length + back.length)
    (hentries : block.entries.toList = front ++ back ++ z :: stale) :
    ∃ moved w, makeRoom block (layout.minus front.length 1) = some moved ∧
      moved.toList = front ++ w :: back ++ stale := by
  have hsize_lt := block.size_lt
  rw [makeRoom, plus_minus_one (by omega)]
  cases back with
  | nil =>
      rw [List.length_nil] at hsize
      exact ⟨block.entries, z, if_neg (by omega), by simpa using hentries⟩
  | cons w back =>
      rw [List.length_cons] at hsize
      obtain ⟨moved, hmove, hmoved⟩ := memmove_up hentries
      refine ⟨moved, w, ?_, hmoved⟩
      rw [if_pos (by omega), plus_minus_two (by omega), minus_eq (by omega) (by omega),
        show block.size - front.length = back.length + 1 by omega]
      exact hmove

omit [LinearOrder Key] in
theorem write_eq {n : ℕ} {entries : Vector (Key × Mapped) n} {w : Key × Mapped} (kv : Key × Mapped)
    (hentries : entries.toList = front ++ w :: back ++ stale) :
    ∃ written, write entries front.length kv = some written ∧
      written.toList = front ++ kv :: back ++ stale := by
  have hlt : front.length < n := by
    rw [← @Vector.length_toList _ _ entries, hentries]
    simp only [List.length_append, List.length_cons]
    omega
  refine ⟨_, dif_pos hlt, ?_⟩
  rw [Vector.toList_set, hentries]
  simp

theorem holds_eq {x : Key × Mapped} (hpairs : block.pairs = front ++ x :: back) (k : Key) :
    holds block (layout.minus (front.length + 1) 1) k = some (decide (x.1 = k)) := by
  have hlength := block.length_pairs
  have hsize_lt := block.size_lt
  rw [hpairs, List.length_append, List.length_cons] at hlength
  have hentry : block.entries[front.length]? = some x := by
    rw [entry_of_lt (by omega), hpairs]
    simp
  rw [holds, minus_eq (by omega) (by omega), Nat.add_sub_cancel, hentry, npos, if_neg (by omega)]
  rfl

theorem holds_eq_false {k : Key} (hpairs : block.pairs = front ++ back)
    (hfront : ∀ x ∈ front, x.1 < k) :
    holds block (layout.minus front.length 1) k = some false := by
  rcases List.eq_nil_or_concat' front with rfl | ⟨front, x, rfl⟩
  · rw [holds, List.length_nil, minus_zero_one, if_pos rfl]
  · rw [List.append_assoc] at hpairs
    rw [List.length_append, List.length_singleton, holds_eq hpairs]
    exact congrArg some (decide_eq_false (hfront x (by simp)).ne)

/-- **A key that the block holds** stays with its value. -/
theorem insert_present {x : Key × Mapped} (hpairs : block.pairs = front ++ x :: back)
    (hsorted : Sorted block.pairs) (v : Mapped) :
    insert block (x.1, v) = some (block, front.length) := by
  have hlength := block.length_pairs
  have hsize_lt := block.size_lt
  rw [hpairs, List.length_append, List.length_cons] at hlength
  have hsplit := hsorted
  rw [hpairs, sorted_append] at hsplit
  have hfind : find block x.1 = some (layout.minus (front.length + 1) 1) := by
    have hpairs' : block.pairs = (front ++ [x]) ++ back := by simp [hpairs]
    rw [find_spec hpairs' hsorted ?_ fun _ hy => List.rel_of_pairwise_cons hsplit.2.1 hy,
      List.length_append, List.length_singleton]
    intro y hy
    rcases List.mem_append.1 hy with hy | hy
    · exact (hsplit.2.2 y hy x List.mem_cons_self).le
    · rw [List.mem_singleton.1 hy]
  rw [insert, hfind]
  simp only [Option.bind_eq_bind, Option.bind_some, holds_eq hpairs, decide_true, if_true]
  rw [minus_eq (by omega) (by omega), Nat.add_sub_cancel]
  rfl

/-- **A full block** is left as it is. -/
theorem insert_full {kv : Key × Mapped} (hpairs : block.pairs = front ++ back)
    (hsorted : Sorted block.pairs) (hfront : ∀ x ∈ front, x.1 < kv.1)
    (hback : ∀ y ∈ back, kv.1 < y.1) (hfull : block.size = layout.maxElements) :
    insert block kv = some (block, layout.npos) := by
  have hfind := find_spec hpairs hsorted (fun x hx => (hfront x hx).le) hback
  rw [insert, hfind]
  simp only [Option.bind_eq_bind, Option.bind_some, holds_eq_false hpairs hfront]
  rw [if_neg Bool.false_ne_true, if_pos hfull]
  rfl

/-- **A key that the block does not hold** is inserted between the lower and the higher ones. -/
theorem insert_absent {kv z : Key × Mapped}
    (hentries : block.entries.toList = front ++ back ++ z :: stale)
    (hpairs : block.pairs = front ++ back) (hsorted : Sorted block.pairs)
    (hfront : ∀ x ∈ front, x.1 < kv.1) (hback : ∀ y ∈ back, kv.1 < y.1) :
    ∃ inserted, insert block kv = some (inserted, front.length) ∧
      inserted.size = block.size + 1 ∧
      inserted.entries.toList = front ++ kv :: back ++ stale := by
  have hfind := find_spec hpairs hsorted (fun x hx => (hfront x hx).le) hback
  have hsize : block.size = front.length + back.length := by
    rw [← length_pairs, hpairs, List.length_append]
  have hsize_lt := block.size_lt
  have hroom : block.size < layout.maxElements := by
    have hlength := block.length_entries
    rw [hentries] at hlength
    simp only [List.length_append, List.length_cons] at hlength
    omega
  obtain ⟨moved, w, hmove, hmoved⟩ := makeRoom_eq hsize hentries
  obtain ⟨written, hwrite, hwritten⟩ := write_eq kv hmoved
  have hset : setSize written (block.size + 1) = some ⟨written, block.size + 1, hroom⟩ :=
    dif_pos hroom
  refine ⟨⟨written, block.size + 1, hroom⟩, ?_, rfl, hwritten⟩
  -- `p = -1` gives the position that `npos` is
  have hnpos : (if layout.minus front.length 1 = layout.npos then layout.minus 0 1
      else layout.minus front.length 1) = layout.minus front.length 1 := by
    split
    · rename_i heq
      rw [heq, minus_zero_one]
    · rfl
  rw [insert, hfind]
  simp only [Option.bind_eq_bind, Option.bind_some, holds_eq_false hpairs hfront, hnpos, hmove,
    plus_minus_one (show front.length < 2 ^ layout.sizeBits by omega), hwrite]
  have hpayload := layout.payload_lt
  rw [if_neg Bool.false_ne_true, if_neg hroom.ne, plus_eq (by omega), hset]
  rfl

/-- What `insert` does is right: a key of the block stays, a full block stays, and
otherwise the later pairs make room for the new one. -/
def InsertRight (block : Block layout Key Mapped) (kv : Key × Mapped) : Prop :=
  ∃ inserted p, insert block kv = some (inserted, p) ∧ Sorted inserted.pairs ∧
    ((inserted = block ∧ ∃ x, block.pairs[p]? = some x ∧ x.1 = kv.1) ∨
      ((∀ x ∈ block.pairs, x.1 ≠ kv.1) ∧
        ((block.size = layout.maxElements ∧ inserted = block ∧ p = layout.npos) ∨
          (block.size < layout.maxElements ∧ p ≤ block.size ∧ inserted.size = block.size + 1 ∧
            inserted.entries.toList = block.pairs.take p ++ kv :: block.pairs.drop p ++
              block.entries.toList.drop (block.size + 1)))))

theorem insert_right (hsorted : Sorted block.pairs) (kv : Key × Mapped) :
    InsertRight block kv := by
  obtain ⟨front, back, hpairs, hfront, hback⟩ := hsorted.exists_split kv.1
  by_cases hpresent : ∃ x ∈ front, x.1 = kv.1
  · obtain ⟨x, hx, hkey⟩ := hpresent
    obtain ⟨front, rest, rfl⟩ := List.append_of_mem hx
    rw [List.append_assoc, List.cons_append] at hpairs
    have hinsert := insert_present hpairs hsorted kv.2
    rw [hkey] at hinsert
    exact ⟨block, front.length, hinsert, hsorted, Or.inl ⟨rfl, x, by simp [hpairs], hkey⟩⟩
  · have hlower : ∀ x ∈ front, x.1 < kv.1 := fun x hx =>
      lt_of_le_of_ne (hfront x hx) fun heq => hpresent ⟨x, hx, heq⟩
    have habsent : ∀ x ∈ block.pairs, x.1 ≠ kv.1 := by
      intro x hx
      rw [hpairs] at hx
      exact (List.mem_append.1 hx).elim (fun hx => (hlower x hx).ne) fun hx => (hback x hx).ne'
    rcases block.size_le.eq_or_lt with hfull | hroom
    · have hinsert := insert_full hpairs hsorted hlower hback hfull
      exact ⟨block, layout.npos, hinsert, hsorted, Or.inr ⟨habsent, Or.inl ⟨hfull, rfl, rfl⟩⟩⟩
    · obtain ⟨stale, hentries⟩ := block.exists_stale
      have hlength := block.length_entries
      have hsize := block.length_pairs
      rw [hentries, List.length_append, hsize] at hlength
      obtain ⟨z, stale, rfl⟩ := List.exists_cons_of_length_pos (show 0 < stale.length by omega)
      rw [hpairs] at hentries hsize
      obtain ⟨inserted, hinsert, hcount, hall⟩ :=
        insert_absent hentries hpairs hsorted hlower hback
      rw [List.length_append] at hsize
      refine ⟨inserted, front.length, hinsert, ?_, Or.inr ⟨habsent, Or.inr ⟨hroom, by omega,
        hcount, ?_⟩⟩⟩
      · have htake : inserted.pairs = front ++ kv :: back := by
          rw [pairs, hcount, hall]
          exact List.take_left' (by simp; omega)
        rw [htake]
        exact Sorted.insert (hpairs ▸ hsorted) hlower hback
      · have hdrop : block.entries.toList.drop (block.size + 1) = stale := by
          rw [hentries, show front ++ back ++ z :: stale = (front ++ back ++ [z]) ++ stale by simp]
          exact List.drop_left' (by simp; omega)
        rw [hall, hdrop, hpairs, List.take_left, List.drop_left]

/-! ## Removal -/

/-- What `erase` does is right: the later pairs close the gap, and the last place keeps what it
held. -/
def EraseRight (block : Block layout Key Mapped) (i : ℕ) : Prop :=
  ∃ erased, erase block i = some erased ∧ Sorted erased.pairs ∧ erased.size = block.size - 1 ∧
    erased.entries.toList = block.pairs.take i ++ block.pairs.drop (i + 1) ++
      block.entries.toList.drop (block.size - 1)

theorem erase_right (hsorted : Sorted block.pairs) {i : ℕ} (hi : i < block.size) :
    EraseRight block i := by
  have hsize := block.length_pairs
  have hsize_lt := block.size_lt
  have hsize_le := block.size_le
  have hlt : i < block.pairs.length := hsize ▸ hi
  have hpairs : block.pairs = block.pairs.take i ++ block.pairs[i] :: block.pairs.drop (i + 1) := by
    rw [List.getElem_cons_drop, List.take_append_drop]
  have hfront : (block.pairs.take i).length = i := List.length_take_of_le hlt.le
  obtain ⟨stale, hentries⟩ := block.exists_stale
  rw [hpairs] at hentries
  obtain ⟨moved, hmove, hmoved⟩ := memmove_down hentries
  rw [hfront, List.length_drop, hsize] at hmove hmoved
  rw [show i + (block.size - (i + 1)) = block.size - 1 by omega] at hmoved
  have hset : setSize moved (block.size - 1) = some ⟨moved, block.size - 1, by omega⟩ :=
    dif_pos (by omega)
  refine ⟨⟨moved, block.size - 1, by omega⟩, ?_, ?_, rfl, hmoved⟩
  · rw [erase, minus_eq hi.le (by omega), minus_eq (show 1 ≤ block.size - i by omega) (by omega),
      plus_eq (by omega), show block.size - i - 1 = block.size - (i + 1) by omega, hmove,
      minus_eq (show 1 ≤ block.size by omega) (by omega)]
    exact hset
  · have htake : (⟨moved, block.size - 1, by omega⟩ : Block layout Key Mapped).pairs =
        block.pairs.take i ++ block.pairs.drop (i + 1) := by
      have hlength :
          (block.pairs.take i ++ block.pairs.drop (i + 1)).length = block.size - 1 := by
        rw [List.length_append, hfront, List.length_drop, hsize]
        omega
      rw [pairs, hmoved]
      exact List.take_left' hlength
    rw [htake]
    refine hsorted.sublist ?_
    conv_rhs => rw [hpairs]
    exact (List.sublist_cons_self _ _).append_left _

/-! ## All of them -/

end Order

/-! ## A block as a map -/

/-- A map with the number of its keys. -/
structure BoundedMap (Key Mapped : Type) where
  lookup : Key → Option Mapped
  size : ℕ

/-- The calls of the tree at a leaf: a pair is inserted, and the pair with a key is erased where
`find` gives it. -/
inductive Op (Key Mapped : Type)
  | insert (kv : Key × Mapped)
  | erase (k : Key)

/-- What a call is for: a key that is there and a full map keep what they have. -/
def BoundedMap.perform [DecidableEq Key] (capacity : ℕ)
    (map : BoundedMap Key Mapped) : Op Key Mapped → BoundedMap Key Mapped
  | .insert kv =>
      if (map.lookup kv.1).isSome ∨ map.size = capacity then map
      else ⟨Function.update map.lookup kv.1 (some kv.2), map.size + 1⟩
  | .erase k =>
      if (map.lookup k).isSome then ⟨Function.update map.lookup k none, map.size - 1⟩ else map

section Runs

variable [LinearOrder Key]

/-- The value that `find` of the tree gives for a key of the leaf. -/
def lookup (block : Block layout Key Mapped) (k : Key) : Option (Option Mapped) := do
  let p ← find block k
  if ← holds block p k then return (block.entries[p]?).map Prod.snd else return none

def perform (block : Block layout Key Mapped) : Op Key Mapped → Option (Block layout Key Mapped)
  | .insert kv => (insert block kv).map Prod.fst
  | .erase k => do
      let p ← find block k
      if ← holds block p k then erase block p else return block

/-- The pairs of the block, with increasing keys, are those of the map. -/
structure Represents (block : Block layout Key Mapped) (map : BoundedMap Key Mapped) : Prop where
  sorted : Sorted block.pairs
  size : map.size = block.size
  mem : ∀ k v, map.lookup k = some v ↔ (k, v) ∈ block.pairs

theorem exists_find (hsorted : Sorted block.pairs) (k : Key) :
    ∃ p, find block k = some p ∧
      ((∃ v, holds block p k = some true ∧ p < block.size ∧ block.pairs[p]? = some (k, v)) ∨
        (holds block p k = some false ∧ ∀ v, (k, v) ∉ block.pairs)) := by
  rcases find_right hsorted k with ⟨hall, hfind⟩ | ⟨p, x, hfind, hp, hx, hle, hgreatest⟩
  · exact ⟨_, hfind, .inr ⟨if_pos rfl, fun v hv => (hall _ hv).false⟩⟩
  · obtain ⟨hlt, -⟩ := List.getElem?_eq_some_iff.1 hx
    rw [length_pairs] at hlt
    have hholds : holds block p k = some (decide (x.1 = k)) := by
      rw [holds, if_neg hp, entry_of_lt hlt, hx]
      rfl
    refine ⟨p, hfind, ?_⟩
    by_cases hkey : x.1 = k
    · subst hkey
      exact .inl ⟨x.2, by rw [hholds, decide_eq_true rfl], hlt, hx⟩
    · refine .inr ⟨by rw [hholds, decide_eq_false hkey], fun v hv => hkey ?_⟩
      exact hle.antisymm (hgreatest _ hv le_rfl)

theorem Represents.lookup_eq {map : BoundedMap Key Mapped} (hrep : Represents block map) (k : Key) :
    block.lookup k = some (map.lookup k) := by
  obtain ⟨p, hfind, ⟨v, hholds, hlt, hv⟩ | ⟨hholds, hnone⟩⟩ := exists_find hrep.sorted k
  · rw [(hrep.mem k v).2 (List.mem_of_getElem? hv)]
    simp [lookup, hfind, hholds, entry_of_lt hlt, hv]
  · have hlookup : map.lookup k = none :=
      Option.eq_none_iff_forall_ne_some.2 fun v hv => hnone v ((hrep.mem k v).1 hv)
    simp [lookup, hfind, hholds, hlookup]

theorem Represents.insert {map : BoundedMap Key Mapped} (hrep : Represents block map)
    (kv : Key × Mapped) : ∃ next, perform block (.insert kv) = some next ∧
      Represents next (map.perform layout.maxElements (.insert kv)) := by
  obtain ⟨next, p, hinsert, hsorted, hcases⟩ := insert_right hrep.sorted kv
  refine ⟨next, by rw [perform, hinsert]; rfl, ?_⟩
  rw [BoundedMap.perform, hrep.size]
  rcases hcases with ⟨rfl, x, hx, hkey⟩ | ⟨habsent, ⟨hfull, rfl, -⟩ | ⟨hroom, hp, hsize, hall⟩⟩
  · have hfound := (hrep.mem kv.1 x.2).2 (hkey ▸ List.mem_of_getElem? hx)
    rw [if_pos (.inl (by rw [hfound]; rfl))]
    exact hrep
  · rw [if_pos (.inr hfull)]
    exact hrep
  · have hnone : map.lookup kv.1 = none :=
      Option.eq_none_iff_forall_ne_some.2 fun v hv => habsent _ ((hrep.mem kv.1 v).1 hv) rfl
    have hpairs : next.pairs = block.pairs.take p ++ kv :: block.pairs.drop p := by
      rw [pairs, hall, hsize]
      refine List.take_left' ?_
      simp only [List.length_append, List.length_cons, List.length_take, List.length_drop,
        length_pairs]
      omega
    rw [if_neg (by simp [hnone, hroom.ne])]
    refine ⟨hsorted, by rw [hsize], fun k v => ?_⟩
    have hmem : (k, v) ∈ next.pairs ↔ (k, v) = kv ∨ (k, v) ∈ block.pairs := by
      conv_rhs => rw [← List.take_append_drop p block.pairs]
      rw [hpairs]
      simp only [List.mem_append, List.mem_cons]
      tauto
    rw [hmem, ← hrep.mem]
    by_cases hk : k = kv.1
    · subst hk
      simp [hnone, Prod.ext_iff, eq_comm]
    · simp [Prod.ext_iff, hk]

theorem Represents.erase {map : BoundedMap Key Mapped} (hrep : Represents block map) (k : Key) :
    ∃ next, perform block (.erase k) = some next ∧
      Represents next (map.perform layout.maxElements (.erase k)) := by
  rw [BoundedMap.perform]
  obtain ⟨p, hfind, ⟨v, hholds, hlt, hv⟩ | ⟨hholds, hnone⟩⟩ := exists_find hrep.sorted k
  · obtain ⟨next, herase, hsorted, hsize, hall⟩ := erase_right hrep.sorted hlt
    refine ⟨next, by simp [perform, hfind, hholds, herase], ?_⟩
    have hpairs : next.pairs = block.pairs.take p ++ block.pairs.drop (p + 1) := by
      rw [pairs, hall, hsize]
      refine List.take_left' ?_
      simp only [List.length_append, List.length_take, List.length_drop, length_pairs]
      omega
    have hsplit : block.pairs = block.pairs.take p ++ (k, v) :: block.pairs.drop (p + 1) := by
      obtain ⟨hp, heq⟩ := List.getElem?_eq_some_iff.1 hv
      rw [← heq, List.getElem_cons_drop, List.take_append_drop]
    have hothers : ∀ y ∈ next.pairs, y.1 ≠ k := by
      obtain ⟨-, hback, hcross⟩ := sorted_append.1 (hsplit ▸ hrep.sorted)
      rw [hpairs]
      intro y hy
      rcases List.mem_append.1 hy with hy | hy
      · exact (hcross y hy _ List.mem_cons_self).ne
      · exact (List.rel_of_pairwise_cons hback hy).ne'
    rw [if_pos (by rw [(hrep.mem k v).2 (List.mem_of_getElem? hv)]; rfl)]
    refine ⟨hsorted, by rw [hsize, hrep.size], fun k' v' => ?_⟩
    by_cases hk : k' = k
    · subst hk
      simpa using fun hmem => hothers _ hmem rfl
    · have hkept := hrep.mem k' v'
      rw [hsplit] at hkept
      simpa [hk, hpairs] using hkept
  · have hlookup : map.lookup k = none :=
      Option.eq_none_iff_forall_ne_some.2 fun v hv => hnone v ((hrep.mem k v).1 hv)
    refine ⟨block, by simp [perform, hfind, hholds], ?_⟩
    rw [if_neg (by simp [hlookup])]
    exact hrep

end Runs

end Block

/-- A block with two pairs of four. -/
def exampleBlock : Block ⟨16, 4, by decide⟩ ℕ ℕ :=
  ⟨#v[(3, 30), (5, 50), (0, 0), (0, 0)], 2, by decide⟩

theorem exampleBlock_sorted : Sorted exampleBlock.pairs := by
  simp [exampleBlock, Block.pairs, Sorted]

end Wiselib.BPlusTree
