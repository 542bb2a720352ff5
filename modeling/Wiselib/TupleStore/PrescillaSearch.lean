import Wiselib.TupleStore.PrescillaTrie

/-!
# Searching in the Prescilla dictionary

`find` gives the node whose label is the string, if there is one that counts, and
`get_copy` gives the bytes of the string back that the label of the node stands
for.
-/

namespace Wiselib.Prescilla

/-- The count at an address, 0 where there is no node. -/
def countAt (heap : Heap) (p : Ptr) : ℕ := (heap p).elim 0 Node.count

theorem mem_of_countAt_pos {heap : Heap} {p : Ptr} (hpos : 0 < countAt heap p) :
    ∃ node, heap p = some node ∧ node.count = countAt heap p := by
  cases hread : heap p with
  | none =>
      rw [countAt, hread] at hpos
      exact absurd hpos (lt_irrefl 0)
  | some node => exact ⟨node, rfl, by rw [countAt, hread]; rfl⟩

/-! ## Strings and their bits -/

theorem packByte_testBit (n x : ℕ) : packByte ((List.range n).map x.testBit) = x % 2 ^ n := by
  induction n generalizing x with
  | zero => rw [pow_zero, Nat.mod_one]; rfl
  | succ n ih =>
      have hnext : ((List.range n).map Nat.succ).map x.testBit =
          (List.range n).map (x / 2).testBit := by
        rw [List.map_map]
        exact List.map_congr_left fun i _ => Nat.testBit_succ x i
      rw [List.range_succ_eq_map, List.map_cons, hnext]
      have hcons : ∀ bit rest, packByte (bit :: rest) = bit.toNat + 2 * packByte rest :=
        fun _ _ => rfl
      rw [hcons, ih, Nat.testBit_zero, pow_succ', Nat.mod_mul]
      rcases Nat.mod_two_eq_zero_or_one x with hbit | hbit <;> simp [hbit]

theorem packByte_bits (byte : Byte) :
    packByte ((List.range 8).map byte.val.testBit) = byte.val := by
  rw [packByte_testBit]
  exact Nat.mod_eq_of_lt byte.isLt

theorem pack_bits_append (value : List Byte) (more : List Bool) :
    pack (bits value ++ more) = value.map Fin.val ++ pack more := by
  induction value with
  | nil => rfl
  | cons byte value ih =>
      have hcons : bits (byte :: value) ++ more =
          (List.range 8).map byte.val.testBit ++ (bits value ++ more) := by
        rw [bits, List.flatMap_cons, List.append_assoc]
        rfl
      have hpack : ∀ more, pack ((List.range 8).map byte.val.testBit ++ more) =
          packByte ((List.range 8).map byte.val.testBit) :: pack more := fun _ => rfl
      rw [hcons, hpack, packByte_bits, ih]
      rfl

theorem length_bits (value : List Byte) : (bits value).length = 8 * value.length := by
  induction value with
  | nil => rfl
  | cons byte value ih =>
      rw [bits, List.flatMap_cons, List.length_append, List.length_map, List.length_range,
        ← bits, ih, List.length_cons]
      ring

theorem bits_injective : Function.Injective bits := by
  intro value1 value2 hbits
  have hpack := congrArg (fun bs => pack (bs ++ [])) hbits
  simp only [pack_bits_append] at hpack
  exact List.map_injective_iff.2 Fin.val_injective (List.append_cancel_right hpack)

theorem bits_ne_nil {value : List Byte} (hvalue : value ≠ []) : bits value ≠ [] := by
  rw [← List.length_pos_iff, length_bits]
  have := List.length_pos_iff.2 hvalue
  omega

/-- The terminated bits of a string without zero bytes read back as the string. -/
theorem takeWhile_pack_terminate {value : List Byte} (hvalue : 0 ∉ value) :
    (pack (terminate (bits value))).takeWhile (· ≠ 0) = value.map Fin.val := by
  have hterminate : terminate (bits value) = bits value ++ List.replicate 8 false := by
    rw [terminate, length_bits, if_neg (by omega)]
  have hzero : pack (List.replicate 8 false) = [0] := rfl
  rw [hterminate, pack_bits_append, hzero, List.takeWhile_append_of_pos]
  · simp
  · intro n hn
    obtain ⟨byte, hbyte, rfl⟩ := List.mem_map.1 hn
    rw [decide_eq_true_iff]
    intro hval
    exact hvalue ((Fin.ext hval : byte = 0) ▸ hbyte)

section Search

variable {heap : Heap} {root : Ptr} {label : Ptr → List Bool}

/-! ## Finding a string -/

/-- Where the loop of `find` ends for the string `v`: null when no label begins with
the string, else the position in a node at which the string ends. -/
def FindEnds (heap : Heap) (root : Ptr) (label : Ptr → List Bool) (v : List Bool) :
    Ptr × ℕ → Prop
  | (p, i) => (p = 0 ∧ ∀ q, heap q ≠ none → ¬ v <+: label q) ∨
      ∃ node, heap p = some node ∧ i ≤ node.data.length ∧ label p = v ++ node.data.drop i ∧
        (p ≠ root → 0 < i)

theorem findFrom_spec (hrep : Represents heap root label) :
    ∀ (remaining : List Bool) (current : Ptr) (idx : ℕ) (pre : List Bool) (node : Node),
      heap current = some node → idx ≤ node.data.length →
      label current = pre ++ node.data.drop idx → (current ≠ root → 0 < idx) →
      ∃ ends, findFrom heap remaining current idx = some ends ∧
        FindEnds heap root label (pre ++ remaining) ends := by
  intro remaining
  induction remaining with
  | nil =>
      intro current idx pre node hcurrent hle hlabel hpos
      exact ⟨_, rfl, .inr ⟨node, hcurrent, hle, by rw [List.append_nil, hlabel], hpos⟩⟩
  | cons bit rest ih =>
      intro current idx pre node hcurrent hle hlabel hpos
      have hsize := hrep.dataSize hcurrent
      have hremaining : pre ++ bit :: rest = (pre ++ [bit]) ++ rest := by simp
      unfold findFrom
      simp only [hcurrent, Option.bind_eq_bind, Option.bind_some]
      by_cases hend : idx ≥ node.dataSize
      · rw [if_pos hend]
        rw [List.drop_eq_nil_of_le (by omega), List.append_nil] at hlabel
        by_cases hchild : node.children bit = 0
        · -- no node below has the next bit
          rw [if_pos hchild]
          refine ⟨_, rfl, .inl ⟨rfl, fun q hq hbegins => ?_⟩⟩
          obtain ⟨qnode, hq⟩ := Option.ne_none_iff_exists'.1 hq
          obtain ⟨extra, hextra⟩ := hbegins
          have hlabel' : label q = label current ++ bit :: (rest ++ extra) := by
            rw [← hextra, hlabel]
            simp
          have habove := hrep.above_of_prefix hcurrent hq ⟨_, hlabel'.symm⟩
          exact (hrep.child_of_above hcurrent habove hlabel').1 hchild
        · rw [if_neg hchild]
          obtain ⟨child, hread, -, hhead, hchildLabel⟩ := hrep.child hcurrent hchild
          obtain ⟨data, hdata⟩ := List.head?_eq_some_iff.1 hhead
          simp only [hread, Option.bind_some, hdata, List.getElem?_cons_zero, if_true]
          rw [hremaining]
          refine ih _ 1 (pre ++ [bit]) child hread ?_ ?_ (fun _ => one_pos)
          · rw [hdata, List.length_cons]
            omega
          · rw [hchildLabel, hlabel, hdata]
            simp
      · rw [if_neg hend]
        have hidx : idx < node.data.length := by omega
        have hget : node.data[idx]? = some node.data[idx] := List.getElem?_eq_getElem hidx
        have hdrop : node.data.drop idx = node.data[idx] :: node.data.drop (idx + 1) :=
          List.drop_eq_getElem_cons hidx
        simp only [hget, Option.bind_some]
        by_cases hbit : node.data[idx] = bit
        · rw [if_pos hbit, hremaining]
          refine ih current (idx + 1) (pre ++ [bit]) node hcurrent hidx ?_
            (fun _ => Nat.succ_pos _)
          rw [hlabel, hdrop, hbit]
          simp
        · -- a label that begins like the string passes the node, with another bit
          rw [if_neg hbit]
          have hroot : current ≠ root := by
            rintro rfl
            obtain ⟨rnode, hr, -, hnil⟩ := hrep.isRoot
            obtain rfl := Option.some.inj (hcurrent.symm.trans hr)
            rw [hnil] at hidx
            exact absurd hidx (Nat.not_lt_zero _)
          refine ⟨_, rfl, .inl ⟨rfl, fun q hq hbegins => hbit ?_⟩⟩
          obtain ⟨qnode, hq⟩ := Option.ne_none_iff_exists'.1 hq
          have habove := hrep.above_of_part hcurrent hroot (hpos hroot) hlabel hq
            ((List.prefix_append _ _).trans hbegins)
          have hbelow := hrep.label_prefix hcurrent habove
          obtain ⟨extra, hextra⟩ := hbegins
          obtain ⟨extra', hextra'⟩ := hbelow
          rw [← hextra, hlabel, hdrop] at hextra'
          simp only [List.append_assoc, List.cons_append, List.append_cancel_left_eq,
            List.cons.injEq] at hextra'
          exact hextra'.1

/-- `find` gives the node whose label is the string and that counts, or null when
there is no such node. -/
theorem find_spec {dictionary : Dictionary}
    (hrep : Represents dictionary.heap dictionary.root label) (value : List Byte) :
    ∃ key, find dictionary value = some key ∧
      (key = 0 ∧ (∀ p, label p = bits value → countAt dictionary.heap p = 0) ∨
        label key = bits value ∧ 0 < countAt dictionary.heap key) := by
  obtain ⟨rnode, hr, -, hnil⟩ := hrep.isRoot
  have hrlabel : label dictionary.root = [] ++ rnode.data.drop 0 := by
    rw [hrep.label_root, hnil]
    rfl
  obtain ⟨⟨current, idx⟩, hends, hspec⟩ := findFrom_spec hrep (bits value) dictionary.root 0 []
    rnode hr (Nat.zero_le _) hrlabel (fun hne => absurd rfl hne)
  rw [List.nil_append] at hspec
  unfold find
  simp only [hends, Option.bind_eq_bind, Option.bind_some]
  rcases hspec with ⟨rfl, hnone⟩ | ⟨node, hcurrent, hle, hlabel, hpos⟩
  · refine ⟨0, if_pos rfl, .inl ⟨rfl, fun p hlabel => ?_⟩⟩
    by_contra hcount
    obtain ⟨pnode, hp, -⟩ := mem_of_countAt_pos (Nat.pos_of_ne_zero hcount)
    exact hnone p (by rw [hp]; exact Option.some_ne_none _) (hlabel ▸ List.prefix_refl _)
  · rw [if_neg (hrep.ne_zero hcurrent)]
    have hcount : countAt dictionary.heap current = node.count := by
      rw [countAt, hcurrent]
      rfl
    have hsize := hrep.dataSize hcurrent
    by_cases hkey : idx ≥ node.dataSize ∧ node.count > 0
    · refine ⟨current, by simp only [hcurrent, Option.bind_some, if_pos hkey]; rfl,
        .inr ⟨?_, hcount ▸ hkey.2⟩⟩
      rw [hlabel, List.drop_eq_nil_of_le (by omega), List.append_nil]
    · refine ⟨0, by simp only [hcurrent, Option.bind_some, if_neg hkey]; rfl,
        .inl ⟨rfl, fun p hp => ?_⟩⟩
      by_contra hpcount
      obtain ⟨pnode, hread, -⟩ := mem_of_countAt_pos (Nat.pos_of_ne_zero hpcount)
      by_cases hend : idx ≥ node.dataSize
      · -- the string ends where `current` ends, and labels are unique
        rw [List.drop_eq_nil_of_le (by omega), List.append_nil] at hlabel
        obtain rfl := hrep.label_injective hread hcurrent (hp.trans hlabel.symm)
        exact hkey ⟨hend, hcount ▸ Nat.pos_of_ne_zero hpcount⟩
      · -- the string ends within `current`, which is above all nodes that continue it
        have hroot : current ≠ dictionary.root := by
          rintro rfl
          obtain rfl := Option.some.inj (hr.symm.trans hcurrent)
          rw [hnil] at hsize
          simp only [List.length_nil] at hsize
          omega
        have habove := hrep.above_of_part hcurrent hroot (hpos hroot) hlabel hread
          (hp ▸ List.prefix_refl _)
        have hlength := (hrep.label_prefix hcurrent habove).length_le
        rw [hp, hlabel, List.length_append, List.length_drop] at hlength
        omega

/-! ## Reading a key back -/

theorem pathUp_spec (hrep : Represents heap root label) :
    ∀ (fuel : ℕ) (p : Ptr) (node : Node), heap p = some node → (label p).length < fuel →
      ∃ path, pathUp heap fuel p = some (path, root) ∧ (p ≠ root → path ≠ []) ∧
        ∀ more, readDown heap (path.reverse ++ more) root =
          (readDown heap more p).map (label p ++ ·) := by
  intro fuel
  induction fuel with
  | zero => exact fun p node _ hfuel => absurd hfuel (Nat.not_lt_zero _)
  | succ fuel ih =>
      intro p node hp hfuel
      unfold pathUp
      simp only [hp, Option.bind_eq_bind, Option.bind_some]
      by_cases hroot : p = root
      · rw [if_pos ((hrep.isRoot_iff hp).2 hroot)]
        refine ⟨[], by rw [hroot], fun hne => absurd hroot hne, fun more => ?_⟩
        rw [hroot, hrep.label_root]
        simp
      · rw [if_neg fun h => hroot ((hrep.isRoot_iff hp).1 h)]
        obtain ⟨parent, bit, hparent, hhead, hlink⟩ := hrep.parent hp hroot
        have hlt := hrep.parent_lt hp hroot
        obtain ⟨path, hpath, -, hread⟩ := ih node.parent parent hparent (by omega)
        simp only [hhead, Option.bind_some, hpath]
        refine ⟨bit :: path, rfl, fun _ => List.cons_ne_nil _ _, fun more => ?_⟩
        rw [List.reverse_cons, List.append_assoc, hread]
        have hstep : readDown heap ([bit] ++ more) node.parent =
            (readDown heap more p).map (node.data ++ ·) := by
          rw [List.singleton_append, readDown]
          simp only [hparent, hlink, hp, Option.bind_eq_bind, Option.bind_some,
            hrep.dataSize hp, List.take_length]
          cases readDown heap more p <;> rfl
        rw [hstep, Option.map_map, hrep.label_eq hp hroot]
        congr 1
        funext out
        simp

/-- `get_copy` gives the string that the label of the node stands for. -/
theorem getCopy_spec {dictionary : Dictionary}
    (hrep : Represents dictionary.heap dictionary.root label) {key : Ptr} {node : Node}
    (hkey : dictionary.heap key = some node) {value : List Byte} (hlabel : label key = bits value)
    (hvalue : value ≠ []) (hzero : 0 ∉ value) {fuel : ℕ} (hfuel : 8 * value.length < fuel) :
    getCopy fuel dictionary key = some (value.map Fin.val) := by
  have hroot : key ≠ dictionary.root := by
    rintro rfl
    exact bits_ne_nil hvalue (hlabel.symm.trans hrep.label_root)
  obtain ⟨path, hpath, hne, hread⟩ := pathUp_spec hrep fuel key node hkey
    (by rwa [hlabel, length_bits])
  have hout : readDown dictionary.heap path.reverse dictionary.root = some (bits value) := by
    have := hread []
    rw [List.append_nil] at this
    rw [this, hlabel]
    simp [readDown]
  unfold getCopy
  simp only [hpath, Option.bind_eq_bind, Option.bind_some, if_neg (hne hroot), hout]
  exact congrArg some (takeWhile_pack_terminate hzero)

end Search

end Wiselib.Prescilla
