import Wiselib.TupleStore.PrescillaKeys

/-!
# What the iteration over the Prescilla keys visits

The iteration goes through the keys in the order `behind` of their strings, and
ends at the first node that has a left child only.  So it visits the keys of all
live strings exactly if a live string that has another one behind it does not go
on with 0 bits only (`Complete`).
-/

namespace Wiselib.Prescilla

open Transition

/-! ## The order of the keys -/

/-- The second string is behind the first: they go on with the bits 0 and 1 behind what they
have in common, or one of them goes on with a bit that tells on which side it is. -/
def behind : List Bool → List Bool → Bool
  | [], [] => false
  | [], bit :: _ => bit
  | bit :: _, [] => !bit
  | bit :: first, other :: second => if bit = other then behind first second else other

theorem behind_append (pre first second : List Bool) :
    behind (pre ++ first) (pre ++ second) = behind first second := by
  induction pre with
  | nil => rfl
  | cons bit pre ih => simpa [behind] using ih

theorem behind_asymm {first second : List Bool} (hbehind : behind first second = true) :
    behind second first = false := by
  induction first generalizing second with
  | nil => cases second <;> simp_all [behind]
  | cons bit first ih =>
      cases second with
      | nil => simpa [behind] using hbehind
      | cons other second =>
          by_cases hsame : bit = other
          · rw [behind, if_pos hsame] at hbehind
            rw [behind, if_pos hsame.symm]
            exact ih hbehind
          · rw [behind, if_neg hsame] at hbehind
            rw [behind, if_neg (Ne.symm hsame)]
            cases bit <;> simp_all

section Order

variable {heap : Heap} {root : Ptr} {label : Ptr → List Bool}
variable (hrep : Represents heap root label)

include hrep

theorem Subtree.mem {p : Ptr} {list : List Ptr} (hsubtree : Subtree heap p list) :
    ∀ q ∈ list, 0 < countAt heap q ∧ label p <+: label q := by
  induction hsubtree with
  | null => exact fun q hq => absurd hq List.not_mem_nil
  | @node p node left right hread hleft hright ihleft ihright =>
      have hbelow : ∀ {bit list}, Subtree heap (node.children bit) list →
          (∀ q ∈ list, 0 < countAt heap q ∧ label (node.children bit) <+: label q) →
          ∀ q ∈ list, 0 < countAt heap q ∧ label p <+: label q := by
        intro bit list hsubtree ih q hq
        by_cases hzero : node.children bit = 0
        · rw [hzero] at hsubtree
          rw [subtree_zero hrep hsubtree] at hq
          exact absurd hq List.not_mem_nil
        · obtain ⟨child, -, -, -, hlabel⟩ := hrep.child hread hzero
          obtain ⟨hcount, hprefix⟩ := ih q hq
          rw [hlabel] at hprefix
          exact ⟨hcount, (List.prefix_append _ _).trans hprefix⟩
      intro q hq
      rcases List.mem_append.1 hq with hq | hq
      · exact hbelow hleft ihleft q hq
      · rcases List.mem_append.1 hq with hq | hq
        · rw [keyAt] at hq
          split_ifs at hq with hcount
          · rw [List.mem_singleton.1 hq]
            exact ⟨hcount, List.prefix_refl _⟩
          · exact absurd hq List.not_mem_nil
        · exact hbelow hright ihright q hq

theorem Subtree.label_eq {p : Ptr} {node : Node} {bit : Bool} {list : List Ptr}
    (hread : heap p = some node) (hsubtree : Subtree heap (node.children bit) list) :
    ∀ q ∈ list, ∃ tail, label q = label p ++ bit :: tail := by
  intro q hq
  by_cases hzero : node.children bit = 0
  · rw [hzero] at hsubtree
    rw [subtree_zero hrep hsubtree] at hq
    exact absurd hq List.not_mem_nil
  · obtain ⟨child, -, -, hhead, hlabel⟩ := hrep.child hread hzero
    obtain ⟨data, hdata⟩ := List.head?_eq_some_iff.1 hhead
    obtain ⟨rest, hrest⟩ := (hsubtree.mem hrep q hq).2
    refine ⟨data ++ rest, ?_⟩
    rw [← hrest, hlabel, hdata, List.append_assoc]
    rfl

theorem Subtree.sorted {p : Ptr} {list : List Ptr} (hsubtree : Subtree heap p list) :
    list.Pairwise fun first second => behind (label first) (label second) = true := by
  induction hsubtree with
  | null => exact .nil
  | @node p node left right hread hleft hright ihleft ihright =>
      have hkey : ∀ q ∈ keyAt heap p, q = p := by
        intro q hq
        rw [keyAt] at hq
        split_ifs at hq
        · exact List.mem_singleton.1 hq
        · exact absurd hq List.not_mem_nil
      have hsingle : (keyAt heap p).Pairwise fun first second =>
          behind (label first) (label second) = true := by
        rw [keyAt]
        split_ifs
        · exact List.pairwise_singleton _ _
        · exact .nil
      have hbehind : ∀ q ∈ right, behind (label p) (label q) = true := by
        intro q hq
        obtain ⟨tail, hlabel⟩ := Subtree.label_eq hrep hread hright q hq
        calc behind (label p) (label q)
            = behind (label p ++ []) (label p ++ true :: tail) := by
              rw [List.append_nil, hlabel]
          _ = true := behind_append _ _ _
      refine List.pairwise_append.2 ⟨ihleft, List.pairwise_append.2
        ⟨hsingle, ihright, fun first hfirst second hsecond => ?_⟩, fun first hfirst second hsecond => ?_⟩
      · rw [hkey first hfirst]
        exact hbehind second hsecond
      · obtain ⟨tail, hlabel⟩ := Subtree.label_eq hrep hread hleft first hfirst
        rcases List.mem_append.1 hsecond with hsecond | hsecond
        · rw [hkey second hsecond]
          calc behind (label first) (label p)
              = behind (label p ++ false :: tail) (label p ++ []) := by
                rw [List.append_nil, hlabel]
            _ = true := behind_append _ _ _
        · obtain ⟨other, hother⟩ := Subtree.label_eq hrep hread hright second hsecond
          rw [hlabel, hother, behind_append]
          rfl

theorem Subtree.complete {p : Ptr} {list : List Ptr} (hsubtree : Subtree heap p list) :
    p ≠ 0 → ∀ q, 0 < countAt heap q → Above heap p q → q ∈ list := by
  induction hsubtree with
  | null => exact fun hzero => absurd rfl hzero
  | @node p node left right hread _ _ ihleft ihright =>
      intro _ q hcount habove
      by_cases hpq : p = q
      · subst hpq
        refine List.mem_append_right _ (List.mem_append_left _ ?_)
        rw [keyAt, if_pos hcount]
        exact List.mem_singleton_self p
      · obtain ⟨bit, hchild, hbelow⟩ := hrep.above_child hread habove hpq
        cases bit with
        | false => exact List.mem_append_left _ (ihleft hchild q hcount hbelow)
        | true =>
            exact List.mem_append_right _ (List.mem_append_right _ (ihright hchild q hcount hbelow))

theorem Subtree.ne_nil (hcompact : Compact heap {root}) {p : Ptr} {list : List Ptr}
    (hsubtree : Subtree heap p list) : p ≠ 0 → p ≠ root → list ≠ [] := by
  induction hsubtree with
  | null => exact fun hzero => absurd rfl hzero
  | @node p node left right hread _ _ ihleft _ =>
      intro _ hroot hnil
      rw [List.append_eq_nil_iff, List.append_eq_nil_iff] at hnil
      obtain ⟨hleft, hkey, -⟩ := hnil
      by_cases hcount : node.count = 0
      · have hchild := hcompact.full p node hread hroot hcount false
        obtain ⟨-, -, -, -, hne⟩ := parent_eq hrep hread hchild
        exact ihleft hchild hne hleft
      · have hpos : 0 < countAt heap p := by
          rw [countAt, hread]
          exact Nat.pos_of_ne_zero hcount
        rw [keyAt, if_pos hpos] at hkey
        cases hkey

end Order

section Stuck

variable {heap : Heap}

theorem untilStuck_prefix (list : List Ptr) : untilStuck heap list <+: list := by
  induction list with
  | nil => exact List.prefix_refl _
  | cons p rest ih =>
      rw [untilStuck]
      split_ifs
      · exact ⟨rest, rfl⟩
      · exact (List.prefix_cons_inj p).2 ih

/-- Nothing is left out exactly if no node but the last has a left child only. -/
theorem untilStuck_eq_iff (list : List Ptr) :
    untilStuck heap list = list ↔ list.Pairwise fun p _ => stuck heap p = false := by
  induction list with
  | nil => exact iff_of_true rfl .nil
  | cons p rest ih =>
      rw [untilStuck, List.pairwise_cons]
      split_ifs with hstuck
      · rw [List.cons.injEq, eq_comm (a := [])]
        constructor
        · rintro ⟨-, rfl⟩
          exact ⟨fun q hq => absurd hq List.not_mem_nil, .nil⟩
        · rintro ⟨hall, -⟩
          refine ⟨rfl, List.eq_nil_iff_forall_not_mem.2 fun q hq => ?_⟩
          exact absurd (hstuck.symm.trans (hall q hq)) (by decide)
      · rw [List.cons.injEq, ih]
        exact ⟨fun h => ⟨fun _ _ => Bool.eq_false_of_not_eq_true hstuck, h.2⟩,
          fun h => ⟨rfl, h.2⟩⟩

theorem stuck_eq_false_iff {p : Ptr} {node : Node} (hread : heap p = some node) :
    stuck heap p = false ↔ node.children true ≠ 0 ∨ node.children false = 0 := by
  rw [stuck, hread, Option.any_some, decide_eq_false_iff_not, not_and_or, not_not, or_comm]

end Stuck

/-- In a list that is in order, what holds of the elements that come later holds of the ones
that are behind. -/
theorem pairwise_iff_of_sorted {α : Type} {before other : α → α → Prop} {list : List α}
    (hsorted : list.Pairwise before) (hasymm : ∀ a b, before a b → ¬ before b a) :
    list.Pairwise other ↔ ∀ a ∈ list, ∀ b ∈ list, before a b → other a b := by
  constructor
  · intro hother a ha b hb hbefore
    have hsymm : list.Pairwise fun a b =>
        (before a b ∧ other a b) ∨ (before b a ∧ other b a) :=
      (hsorted.and hother).imp fun h => .inl h
    have hflip : Std.Symm fun a b => (before a b ∧ other a b) ∨ (before b a ∧ other b a) :=
      ⟨fun _ _ h => h.symm⟩
    have hne : a ≠ b := fun heq => hasymm a b hbefore (heq ▸ heq ▸ hbefore)
    rcases hsymm.forall ha hb hne with ⟨-, h⟩ | ⟨h, -⟩
    · exact h
    · exact absurd h (hasymm a b hbefore)
  · intro hall
    exact hsorted.imp_of_mem fun {a b} ha hb hbefore => hall a ha b hb hbefore

/-! ## Runs -/

/-- The list has the key of every live string once, and no other node. -/
structure VisitsLive (session : Session) (list : List Ptr) : Prop where
  nodup : list.Nodup
  mem_iff : ∀ key, key ∈ list ↔ ∃ value, session.erases value < session.inserts value ∧
    find session.dictionary value = some key

/-- Of the live strings that have another one behind them, all that some live strings go on
from have one that goes on with the bit 1. -/
def Complete (session : Session) : Prop :=
  ∀ first second, session.erases first < session.inserts first →
    session.erases second < session.inserts second →
    behind (bits first) (bits second) = true →
    (∃ other, session.erases other < session.inserts other ∧
        bits first ++ [true] <+: bits other) ∨
      ∀ other, session.erases other < session.inserts other →
        ¬ bits first ++ [false] <+: bits other

section Sessions

variable {dictionary : Dictionary} {live : List Byte → ℕ} {returned : List Byte → List Ptr}
  {label : Ptr → List Bool}

theorem Inv.countAt_root (hinv : Inv dictionary live returned label) :
    countAt dictionary.heap dictionary.root = 0 := by
  refine Nat.eq_zero_of_not_pos fun hpos => ?_
  obtain ⟨value, hlive, hlabel⟩ := hinv.named _ hpos
  rw [hinv.represents.label_root] at hlabel
  exact bits_ne_nil (hinv.legal value hlive).1 hlabel.symm

theorem Inv.countAt_pos_iff (hinv : Inv dictionary live returned label) (key : Ptr) :
    0 < countAt dictionary.heap key ↔
      ∃ value, 0 < live value ∧ find dictionary value = some key := by
  constructor
  · intro hpos
    obtain ⟨value, hlive, hlabel⟩ := hinv.named key hpos
    exact ⟨value, hlive, hinv.find_eq hlive hlabel (hinv.countAt_eq hlabel hpos)⟩
  · rintro ⟨value, hlive, hfind⟩
    obtain ⟨p, hlabel, hcount, -⟩ := hinv.counted value hlive
    obtain rfl := Option.some.inj (hfind.symm.trans (hinv.find_eq hlive hlabel hcount))
    rw [hcount]
    exact hlive

/-- A node of a string has a child exactly if a live string goes on with its bit. -/
theorem Inv.child_iff (hinv : Inv dictionary live returned label)
    (hcompact : Compact dictionary.heap {dictionary.root}) {p : Ptr} {node : Node}
    (hread : dictionary.heap p = some node) {value : List Byte} (hlabel : label p = bits value)
    (bit : Bool) :
    node.children bit ≠ 0 ↔ ∃ other, 0 < live other ∧ bits value ++ [bit] <+: bits other := by
  constructor
  · intro hchild
    obtain ⟨child, hreadChild, -, -, hne⟩ := parent_eq hinv.represents hread hchild
    obtain ⟨list, hsubtree⟩ := exists_subtree hinv.represents hcompact hreadChild
    obtain ⟨q, hq⟩ := List.exists_mem_of_ne_nil list
      (hsubtree.ne_nil hinv.represents hcompact hchild hne)
    obtain ⟨tail, htail⟩ := hsubtree.label_eq hinv.represents hread q hq
    obtain ⟨other, hlive, hother⟩ := hinv.named q (hsubtree.mem hinv.represents q hq).1
    refine ⟨other, hlive, tail, ?_⟩
    rw [← hother, htail, hlabel, List.append_assoc]
    rfl
  · rintro ⟨other, hlive, tail, htail⟩
    obtain ⟨q, hq, hother⟩ := hinv.mem_of_live hlive
    obtain ⟨qnode, hreadq⟩ := Option.ne_none_iff_exists'.1 hq
    have hgoes : label q = label p ++ bit :: tail := by
      rw [hother, ← htail, hlabel, List.append_assoc]
      rfl
    have habove := hinv.represents.above_of_prefix hread hreadq ⟨bit :: tail, hgoes.symm⟩
    exact (hinv.represents.child_of_above hread habove hgoes).1

end Sessions

/-- What the iteration visits in a session with a compact trie. -/
theorem SessionShape.keys {session : Session} (hshape : SessionShape session) :
    ∃ list, Settles (keys session.dictionary) list ∧
      (VisitsLive session list ↔ Complete session) := by
  obtain ⟨⟨⟨label, hinv⟩, -⟩, hcompact⟩ := hshape
  have hrep := hinv.represents
  have hlive : ∀ value, session.erases value < session.inserts value ↔
      0 < session.live value := fun value => by
    unfold Session.live
    omega
  obtain ⟨rnode, hroot, -⟩ := hrep.isRoot
  obtain ⟨list, hsubtree⟩ := exists_subtree hrep hcompact hroot
  have hmem : ∀ key, key ∈ list ↔ 0 < countAt session.dictionary.heap key := by
    refine fun key => ⟨fun hkey => (hsubtree.mem hrep key hkey).1, fun hpos => ?_⟩
    obtain ⟨node, hread, -⟩ := mem_of_countAt_pos hpos
    exact hsubtree.complete hrep (hrep.ne_zero hroot) key hpos (hrep.above_root hread)
  have hsorted := hsubtree.sorted hrep
  have hasymm : ∀ p q, behind (label p) (label q) = true → ¬ behind (label q) (label p) = true :=
    fun p q h => by rw [behind_asymm h]; decide
  have hnodup : list.Nodup := by
    refine hsorted.imp fun {p q} hbehind => ?_
    rintro rfl
    exact hasymm p p hbehind hbehind
  have hvisits : VisitsLive session (untilStuck session.dictionary.heap list) ↔
      untilStuck session.dictionary.heap list = list := by
    have hkeys : ∀ key, key ∈ list ↔ ∃ value, session.erases value < session.inserts value ∧
        find session.dictionary value = some key := fun key => by
      simp only [hlive, hmem, hinv.countAt_pos_iff]
    constructor
    · intro hvisits
      obtain ⟨rest, hrest⟩ : untilStuck session.dictionary.heap list <+: list :=
        untilStuck_prefix list
      have hnil : rest = [] := by
        refine List.eq_nil_iff_forall_not_mem.2 fun key hkey => ?_
        have hin : key ∈ untilStuck session.dictionary.heap list :=
          (hvisits.mem_iff key).2 ((hkeys key).1 (hrest ▸ List.mem_append_right _ hkey))
        rw [← hrest, List.nodup_append] at hnodup
        exact hnodup.2.2 key hin key hkey rfl
      rw [hnil, List.append_nil] at hrest
      exact hrest
    · intro heq
      rw [heq]
      exact ⟨hnodup, hkeys⟩
  refine ⟨_, keys_settles hrep hcompact hinv.countAt_root rfl rfl hsubtree, ?_⟩
  rw [hvisits, untilStuck_eq_iff, pairwise_iff_of_sorted hsorted hasymm]
  constructor
  · intro hall first second hfirst hsecond hbehind
    rw [hlive] at hfirst hsecond
    obtain ⟨p, hp, hpcount, -⟩ := hinv.counted first hfirst
    obtain ⟨q, hq, hqcount, -⟩ := hinv.counted second hsecond
    obtain ⟨node, hread, -⟩ := mem_of_countAt_pos (hpcount ▸ hfirst)
    have hstuck := hall p ((hmem p).2 (hpcount ▸ hfirst)) q ((hmem q).2 (hqcount ▸ hsecond))
      (by rw [hp, hq]; exact hbehind)
    rcases (stuck_eq_false_iff hread).1 hstuck with hchild | hchild
    · obtain ⟨other, hother, hprefix⟩ := (hinv.child_iff hcompact hread hp true).1 hchild
      exact .inl ⟨other, (hlive other).2 hother, hprefix⟩
    · refine .inr fun other hother hprefix => ?_
      exact (hinv.child_iff hcompact hread hp false).2
        ⟨other, (hlive other).1 hother, hprefix⟩ hchild
  · intro hcomplete p hp q hq hbehind
    obtain ⟨node, hread, -⟩ := mem_of_countAt_pos ((hmem p).1 hp)
    obtain ⟨first, hfirst, hlabel⟩ := hinv.named p ((hmem p).1 hp)
    obtain ⟨second, hsecond, hlabel'⟩ := hinv.named q ((hmem q).1 hq)
    rw [hlabel, hlabel'] at hbehind
    rw [stuck_eq_false_iff hread]
    rcases hcomplete first second ((hlive _).2 hfirst) ((hlive _).2 hsecond) hbehind with
      ⟨other, hother, hprefix⟩ | hnone
    · exact .inl ((hinv.child_iff hcompact hread hlabel true).2
        ⟨other, (hlive other).1 hother, hprefix⟩)
    · refine .inr (by_contra fun hchild => ?_)
      obtain ⟨other, hother, hprefix⟩ := (hinv.child_iff hcompact hread hlabel false).1 hchild
      exact hnone other ((hlive other).2 hother) hprefix

/-- **The iteration over the keys** comes to its end, and has visited the key of every live
string once and no other node exactly if no live string that goes on with 0 bits only has
another one behind it. -/
theorem visitsLive_iff_complete {root : Ptr} (hroot : root ≠ 0) {operations : List Op}
    {session : Session}
    (hrun : Run (Guarded (fun s op => Legal s op ∧ Intact s op) (stepOf perform)) (start root)
      operations session) :
    ∃ list, Settles (keys session.dictionary) list ∧
      (VisitsLive session list ↔ Complete session) :=
  (sessionShape_of_run hroot hrun).keys

/-- The string 1 goes on with the bit 1 in the string 1 1, and the string 3 is behind both. -/
theorem visitsLive_iff_complete_three :
    ∃ session, Run (Guarded (fun s op => Legal s op ∧ Intact s op) (stepOf perform)) (start 1)
        [.insert [1] 2 3, .insert [1, 1] 3 4, .insert [3] 4 5] session ∧
      ∃ list, Settles (keys session.dictionary) list ∧
        (VisitsLive session list ↔ Complete session) := by
  have hrun : Run (Guarded (fun s op => Legal s op ∧ Intact s op) (stepOf perform)) (start 1)
      [.insert [1] 2 3, .insert [1, 1] 3 4, .insert [3] 4 5] _ :=
    .cons ⟨⟨⟨by decide, by decide, by decide, by decide, by decide, by decide, rfl, rfl⟩,
        [], _, rfl, by decide, .inl rfl⟩, rfl⟩ <|
      .cons ⟨⟨⟨by decide, by decide, by decide, by decide, by decide, by decide, rfl, rfl⟩,
        [], _, rfl, by decide, .inl rfl⟩, rfl⟩ <|
      .cons ⟨⟨⟨by decide, by decide, by decide, by decide, by decide, by decide, rfl, rfl⟩,
        [], _, rfl, by decide, .inl rfl⟩, rfl⟩ <| .nil _
  exact ⟨_, hrun, visitsLive_iff_complete one_ne_zero hrun⟩

/-- Behind the string 1, which goes on with the bit 0 in the string 1 2, the iteration does not
come to the string 3. -/
theorem exists_run_not_visitsLive :
    ∃ session, Run (Guarded (fun s op => Legal s op ∧ Intact s op) (stepOf perform)) (start 1)
        [.insert [1] 2 3, .insert [1, 2] 3 4, .insert [3] 4 5] session ∧
      ¬ ∃ list, Settles (keys session.dictionary) list ∧ VisitsLive session list := by
  have hrun : Run (Guarded (fun s op => Legal s op ∧ Intact s op) (stepOf perform)) (start 1)
      [.insert [1] 2 3, .insert [1, 2] 3 4, .insert [3] 4 5] _ :=
    .cons ⟨⟨⟨by decide, by decide, by decide, by decide, by decide, by decide, rfl, rfl⟩,
        [], _, rfl, by decide, .inl rfl⟩, rfl⟩ <|
      .cons ⟨⟨⟨by decide, by decide, by decide, by decide, by decide, by decide, rfl, rfl⟩,
        [], _, rfl, by decide, .inl rfl⟩, rfl⟩ <|
      .cons ⟨⟨⟨by decide, by decide, by decide, by decide, by decide, by decide, rfl, rfl⟩,
        [], _, rfl, by decide, .inl rfl⟩, rfl⟩ <| .nil _
  refine ⟨_, hrun, ?_⟩
  rintro ⟨list, hsettles, hvisits⟩
  obtain ⟨list', hsettles', hiff⟩ := (sessionShape_of_run one_ne_zero hrun).keys
  obtain rfl := hsettles.unique hsettles'
  have hcomplete := hiff.1 hvisits
  rcases hcomplete [1] [3] (by decide) (by decide) (by decide) with
    ⟨other, hother, hprefix⟩ | hnone
  · -- none of the live strings goes on with the bit 1
    have hlive : other = [3] ∨ other = [1, 2] ∨ other = [1] := by
      change 0 < Function.update (Function.update (Function.update (fun _ => 0) [1] 1) [1, 2] 1)
        [3] 1 other at hother
      simp only [Function.update_apply] at hother
      split_ifs at hother with h3 h2 h1
      · exact .inl h3
      · exact .inr (.inl h2)
      · exact .inr (.inr h1)
      · exact absurd hother (lt_irrefl 0)
    rcases hlive with rfl | rfl | rfl
    · exact absurd hprefix (by decide)
    · exact absurd hprefix (by decide)
    · exact absurd hprefix (by decide)
  · exact hnone [1, 2] (by decide) (by decide)

end Wiselib.Prescilla
