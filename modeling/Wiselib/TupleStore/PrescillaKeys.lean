import Wiselib.TupleStore.PrescillaShape

/-!
# The keys of the Prescilla dictionary

`begin_keys` and the iterator of `util/tuple_store/prescilla_dictionary.h`, which
goes through the nodes of the trie in order: what is below the left child, the
node itself, what is below the right child.

## Strategy

`Subtree` lists the nodes that count below a node, `Following` those that are
behind everything below it.  Together they say what an iterator at a node still
has to visit (`At`).

* `find_first` ends at a node that counts, as a node without a left child either
  counts or is the root (`findFirst_settles`).
* `operator++` goes on to the next node, unless the node it is at has only a left
  child: then `go_down` follows the null pointer and the iteration is over
  (`nextKey_settles`).

So `keys_settles` gives the keys up to the first such node.
-/

namespace Wiselib.Prescilla

open Transition

/-! ## The iterator -/

/-- `find_first`.  The fuel bounds the nodes on the way down. -/
def findFirst (heap : Heap) : (fuel : ℕ) → Ptr → Option Ptr
  | 0, _ => none
  | fuel + 1, p =>
      if p = 0 then some 0
      else do
        let node ← heap p
        if node.children false = 0 then some p else findFirst heap fuel (node.children false)

/-- `go_down`. -/
def goDown (heap : Heap) (fuel : ℕ) (p : Ptr) : Option Ptr := do
  let node ← heap p
  findFirst heap fuel (node.children true)

/-- `go_up`.  The fuel bounds the nodes on the way up. -/
def goUp (heap : Heap) : (fuel : ℕ) → Ptr → Option Ptr
  | 0, _ => none
  | fuel + 1, child => do
      let node ← heap child
      if node.parent = 0 then some 0
      else
        let parent ← heap node.parent
        if parent.children true = child then goUp heap fuel node.parent else some node.parent

/-- `node_ && node_->is_root()`. -/
def isRootAt (heap : Heap) (p : Ptr) : Option Bool :=
  if p = 0 then some false else (heap p).map Node.isRoot

/-- The first test for the root in the constructor of the iterator. -/
def leaveRoot (heap : Heap) (fuel : ℕ) (p : Ptr) : Option Ptr :=
  (isRootAt heap p).bind fun isRoot => if isRoot then goDown heap fuel p else some p

/-- The second test for the root in the constructor of the iterator. -/
def dropRoot (heap : Heap) (p : Ptr) : Option Ptr :=
  (isRootAt heap p).map fun isRoot => if isRoot then 0 else p

/-- `begin_keys`: the constructor of the iterator, 0 for the end. -/
def beginKeys (dictionary : Dictionary) (fuel : ℕ) : Option Ptr :=
  (findFirst dictionary.heap fuel dictionary.root).bind fun first =>
    (leaveRoot dictionary.heap fuel first).bind fun second => dropRoot dictionary.heap second

/-- What `operator++` does at the node that `go_up` led to. -/
def comeUp (heap : Heap) (fuel : ℕ) (up : Ptr) : Option Ptr :=
  if up = 0 then some 0
  else (heap up).bind fun node =>
    if node.isRoot then goDown heap fuel up
    else if node.count = 0 then goDown heap fuel up
    else some up

/-- `operator++`. -/
def nextKey (heap : Heap) (fuel : ℕ) (p : Ptr) : Option Ptr :=
  (heap p).bind fun node =>
    if node.children false = 0 ∧ node.children true = 0 then
      (goUp heap fuel p).bind fun up => comeUp heap fuel up
    else goDown heap fuel p

/-- The keys from `p` to `end_keys`. -/
def keysFrom (heap : Heap) : (fuel : ℕ) → Ptr → Option (List Ptr)
  | 0, _ => none
  | fuel + 1, p =>
      if p = 0 then some []
      else (nextKey heap fuel p).bind fun next => (keysFrom heap fuel next).map fun keys => p :: keys

/-- The keys from `begin_keys` to `end_keys`. -/
def keys (dictionary : Dictionary) (fuel : ℕ) : Option (List Ptr) :=
  (beginKeys dictionary fuel).bind fun first => keysFrom dictionary.heap fuel first

/-! ## Enough fuel -/

/-- With enough fuel the result is `a`. -/
def Settles {α : Type} (f : ℕ → Option α) (a : α) : Prop :=
  ∃ enough, ∀ fuel, enough ≤ fuel → f fuel = some a

namespace Settles

variable {α β : Type} {f : ℕ → Option α} {a : α}

theorem const (a : α) : Settles (fun _ => some a) a := ⟨0, fun _ _ => rfl⟩

theorem unique {b : α} (ha : Settles f a) (hb : Settles f b) : a = b := by
  obtain ⟨enough, ha⟩ := ha
  obtain ⟨enough', hb⟩ := hb
  exact Option.some.inj ((ha (max enough enough') (le_max_left _ _)).symm.trans
    (hb (max enough enough') (le_max_right _ _)))

theorem bind {g : α → ℕ → Option β} {b : β} (hf : Settles f a) (hg : Settles (g a) b) :
    Settles (fun fuel => (f fuel).bind fun x => g x fuel) b := by
  obtain ⟨enough, hf⟩ := hf
  obtain ⟨enough', hg⟩ := hg
  refine ⟨max enough enough', fun fuel hfuel => ?_⟩
  have hfirst := hf fuel (le_trans (le_max_left _ _) hfuel)
  exact (congrArg (fun x => x.bind fun y => g y fuel) hfirst).trans
    (hg fuel (le_trans (le_max_right _ _) hfuel))

theorem map (hf : Settles f a) (g : α → β) : Settles (fun fuel => (f fuel).map g) (g a) := by
  obtain ⟨enough, hf⟩ := hf
  exact ⟨enough, fun fuel hfuel => congrArg (Option.map g) (hf fuel hfuel)⟩

theorem succ {g : ℕ → Option α} (hg : Settles g a) (hsucc : ∀ fuel, f (fuel + 1) = g fuel) :
    Settles f a := by
  obtain ⟨enough, hg⟩ := hg
  refine ⟨enough + 1, fun fuel hfuel => ?_⟩
  obtain ⟨fuel, rfl⟩ : ∃ n, fuel = n + 1 := ⟨fuel - 1, by omega⟩
  rw [hsucc]
  exact hg fuel (by omega)

theorem congr {g : ℕ → Option α} (hg : Settles g a) (hsame : ∀ fuel, f fuel = g fuel) :
    Settles f a := by
  obtain ⟨enough, hg⟩ := hg
  exact ⟨enough, fun fuel hfuel => (hsame fuel).trans (hg fuel hfuel)⟩

end Settles

/-! ## What is below a node and behind it -/

/-- The node as a key, if it counts. -/
def keyAt (heap : Heap) (p : Ptr) : List Ptr := if 0 < countAt heap p then [p] else []

/-- The keys in the subtree of a node. -/
inductive Subtree (heap : Heap) : Ptr → List Ptr → Prop where
  | null : Subtree heap 0 []
  | node {p : Ptr} {node : Node} {left right : List Ptr} (hread : heap p = some node)
      (hleft : Subtree heap (node.children false) left)
      (hright : Subtree heap (node.children true) right) :
      Subtree heap p (left ++ (keyAt heap p ++ right))

/-- The keys behind the subtree of a node. -/
inductive Following (heap : Heap) (root : Ptr) : Ptr → List Ptr → Prop where
  | root : Following heap root root []
  | left {q : Ptr} {node : Node} {right rest : List Ptr} (hread : heap q = some node)
      (hchild : node.children false ≠ 0) (hright : Subtree heap (node.children true) right)
      (hrest : Following heap root q rest) :
      Following heap root (node.children false) (keyAt heap q ++ (right ++ rest))
  | right {q : Ptr} {node : Node} {rest : List Ptr} (hread : heap q = some node)
      (hchild : node.children true ≠ 0) (hrest : Following heap root q rest) :
      Following heap root (node.children true) rest

/-- The iterator is at the key `p`, and has `rest` to visit behind it. -/
structure At (heap : Heap) (root p : Ptr) (rest : List Ptr) : Prop where
  key : 0 < countAt heap p
  rest : ∃ node right following, heap p = some node ∧ Subtree heap (node.children true) right ∧
    Following heap root p following ∧ rest = right ++ following

/-- The node has a left child only. -/
def stuck (heap : Heap) (p : Ptr) : Bool :=
  (heap p).any fun node => node.children false ≠ 0 ∧ node.children true = 0

/-- The keys up to the first node that has a left child only. -/
def untilStuck (heap : Heap) : List Ptr → List Ptr
  | [] => []
  | p :: rest => if stuck heap p then [p] else p :: untilStuck heap rest

section Iterating

variable {heap : Heap} {root : Ptr} {label : Ptr → List Bool}
variable (hrep : Represents heap root label) (hcompact : Compact heap {root})

include hrep hcompact

theorem exists_subtree {p : Ptr} {node : Node} (hp : heap p = some node) :
    ∃ list, Subtree heap p list := by
  -- labels get longer on the way down, and there are finitely many
  obtain ⟨bound, hbound⟩ := (hcompact.finite.image fun q => (label q).length).bddAbove
  have hle : ∀ {q other}, heap q = some other → (label q).length ≤ bound := fun {q other} hq =>
    hbound ⟨q, by rw [Set.mem_ofPred_eq, hq]; exact Option.some_ne_none _, rfl⟩
  induction hlength : bound - (label p).length using Nat.strong_induction_on
    generalizing p node with
  | _ n ih =>
      have hchild : ∀ bit, ∃ list, Subtree heap (node.children bit) list := by
        intro bit
        by_cases hzero : node.children bit = 0
        · rw [hzero]
          exact ⟨[], .null⟩
        · obtain ⟨child, hread, -, hhead, hlabel⟩ := hrep.child hp hzero
          have hpos : 0 < child.data.length :=
            List.length_pos_iff.2 fun hnil => by simp [hnil] at hhead
          have hlonger := hle hread
          have hlengths := congrArg List.length hlabel
          rw [List.length_append] at hlengths
          exact ih _ (by omega) hread rfl
      obtain ⟨left, hleft⟩ := hchild false
      obtain ⟨right, hright⟩ := hchild true
      exact ⟨_, .node hp hleft hright⟩

omit hcompact in
theorem parent_eq {q : Ptr} {node : Node} {bit : Bool} (hq : heap q = some node)
    (hchild : node.children bit ≠ 0) :
    ∃ child, heap (node.children bit) = some child ∧ child.parent = q ∧ q ≠ 0 ∧
      node.children bit ≠ root := by
  obtain ⟨child, hread, hparent, -⟩ := hrep.child hq hchild
  refine ⟨child, hread, hparent, hrep.ne_zero hq, fun hroot => ?_⟩
  obtain ⟨rnode, hr, hzero, -⟩ := hrep.isRoot
  rw [hroot, hr] at hread
  obtain rfl := Option.some.inj hread
  exact hrep.ne_zero hq (hparent.symm.trans hzero)

omit hcompact in
theorem subtree_zero {list : List Ptr} (hsubtree : Subtree heap 0 list) : list = [] := by
  cases hsubtree with
  | null => rfl
  | node hread _ _ =>
      rw [hrep.null] at hread
      cases hread

omit hcompact in
theorem subtree_of_read {p : Ptr} {node : Node} {list : List Ptr}
    (hsubtree : Subtree heap p list) (hread : heap p = some node) :
    ∃ left right, Subtree heap (node.children false) left ∧
      Subtree heap (node.children true) right ∧ list = left ++ (keyAt heap p ++ right) := by
  cases hsubtree with
  | null =>
      rw [hrep.null] at hread
      cases hread
  | @node _ other left right hread' hleft hright =>
      obtain rfl := Option.some.inj (hread.symm.trans hread')
      exact ⟨left, right, hleft, hright, rfl⟩

theorem findFirst_settles {p : Ptr} {list : List Ptr} (hsubtree : Subtree heap p list) :
    ∀ following, p ≠ 0 → p ≠ root → Following heap root p following →
      ∃ q rest, Settles (fun fuel => findFirst heap fuel p) q ∧ At heap root q rest ∧
        list ++ following = q :: rest := by
  induction hsubtree with
  | null => exact fun _ hzero => absurd rfl hzero
  | @node p node left right hread hleft hright ihleft _ =>
      intro following hzero hroot hfollowing
      by_cases hchild : node.children false = 0
      · -- a node without a left child counts
        have hpos : 0 < countAt heap p := by
          rw [countAt, hread]
          refine Nat.pos_of_ne_zero fun hcount => ?_
          exact hcompact.full p node hread hroot hcount false hchild
        rw [hchild] at hleft
        refine ⟨p, right ++ following, (Settles.const p).succ fun fuel => ?_,
          ⟨hpos, node, right, following, hread, hright, hfollowing, rfl⟩, ?_⟩
        · simp [findFirst, hzero, hread, hchild]
        · rw [subtree_zero hrep hleft, keyAt, if_pos hpos]
          rfl
      · obtain ⟨-, -, -, -, hne⟩ := parent_eq hrep hread hchild
        obtain ⟨q, rest, hsettles, hat, hlist⟩ :=
          ihleft _ hchild hne (.left hread hchild hright hfollowing)
        refine ⟨q, rest, hsettles.succ fun fuel => ?_, hat, ?_⟩
        · simp [findFirst, hzero, hread, hchild]
        · rw [← hlist]
          simp only [List.append_assoc]

theorem goDown_settles {p : Ptr} {node : Node} {right following : List Ptr}
    (hread : heap p = some node) (hright : Subtree heap (node.children true) right)
    (hfollowing : Following heap root p following) (hchild : node.children true ≠ 0) :
    ∃ q rest, Settles (fun fuel => goDown heap fuel p) q ∧ At heap root q rest ∧
      right ++ following = q :: rest := by
  obtain ⟨-, -, -, -, hne⟩ := parent_eq hrep hread hchild
  obtain ⟨q, rest, hsettles, hat, hlist⟩ :=
    findFirst_settles hrep hcompact hright _ hchild hne (.right hread hchild hfollowing)
  refine ⟨q, rest, hsettles.congr fun fuel => ?_, hat, hlist⟩
  rw [goDown, hread]
  rfl

omit hrep hcompact in
theorem goDown_settles_zero {p : Ptr} {node : Node} (hread : heap p = some node)
    (hchild : node.children true = 0) : Settles (fun fuel => goDown heap fuel p) 0 := by
  refine (Settles.const 0).succ fun fuel => ?_
  rw [goDown, hread]
  simp [findFirst, hchild]

omit hcompact in
/-- `go_up` to the node whose left subtree was visited last. -/
theorem goUp_settles {p : Ptr} {following : List Ptr}
    (hfollowing : Following heap root p following) :
    ∃ up, Settles (fun fuel => goUp heap fuel p) up ∧ (up = 0 ∧ following = [] ∨
      ∃ node right rest, heap up = some node ∧ node.children false ≠ 0 ∧
        Subtree heap (node.children true) right ∧ Following heap root up rest ∧
        following = keyAt heap up ++ (right ++ rest)) := by
  induction hfollowing with
  | root =>
      obtain ⟨rnode, hr, hzero, -⟩ := hrep.isRoot
      refine ⟨0, (Settles.const 0).succ fun fuel => ?_, .inl ⟨rfl, rfl⟩⟩
      simp [goUp, hr, hzero]
  | @left q node right rest hread hchild hright hrest _ =>
      obtain ⟨child, hreadChild, rfl, hzero, -⟩ := parent_eq hrep hread hchild
      obtain ⟨child', hreadChild', -, hhead, -⟩ := hrep.child hread hchild
      obtain rfl := Option.some.inj (hreadChild.symm.trans hreadChild')
      have hother : node.children true ≠ node.children false := fun heq =>
        absurd (hrep.eq_of_child hreadChild hhead hread heq).2 (by decide)
      refine ⟨child.parent, (Settles.const child.parent).succ fun fuel => ?_,
        .inr ⟨node, right, rest, hread, hchild, hright, hrest, rfl⟩⟩
      simp [goUp, hreadChild, hzero, hread, hother]
  | @right q node rest hread hchild hrest ih =>
      obtain ⟨child, hreadChild, rfl, hzero, -⟩ := parent_eq hrep hread hchild
      obtain ⟨up, hsettles, hup⟩ := ih
      refine ⟨up, hsettles.succ fun fuel => ?_, hup⟩
      simp [goUp, hreadChild, hzero, hread]

variable (hroot : countAt heap root = 0)

include hroot

omit hrep hcompact in
theorem At.ne_root {p : Ptr} {rest : List Ptr} (hat : At heap root p rest) : p ≠ root := by
  rintro rfl
  exact absurd hat.key (by rw [hroot]; exact lt_irrefl 0)

omit hcompact hroot in
theorem following_root {p : Ptr} {rest : List Ptr} (hfollowing : Following heap root p rest)
    (hp : p = root) : rest = [] := by
  cases hfollowing with
  | root => rfl
  | left hread hchild _ _ =>
      obtain ⟨-, -, -, -, hne⟩ := parent_eq hrep hread hchild
      exact absurd hp hne
  | right hread hchild _ =>
      obtain ⟨-, -, -, -, hne⟩ := parent_eq hrep hread hchild
      exact absurd hp hne

/-- Behind the left subtree of a node comes the node, if it counts, or its right subtree. -/
theorem comeUp_settles {up : Ptr} {node : Node} {right rest : List Ptr}
    (hread : heap up = some node) (hright : Subtree heap (node.children true) right)
    (hrest : Following heap root up rest) :
    ∃ next, Settles (fun fuel => comeUp heap fuel up) next ∧
      (next = 0 ∧ keyAt heap up ++ (right ++ rest) = [] ∨
        ∃ rest', keyAt heap up ++ (right ++ rest) = next :: rest' ∧ At heap root next rest') := by
  have hcome : ∀ fuel, comeUp heap fuel up =
      if node.isRoot then goDown heap fuel up
      else if node.count = 0 then goDown heap fuel up
      else some up := by
    intro fuel
    rw [comeUp, if_neg (hrep.ne_zero hread), hread]
    rfl
  have hcount : countAt heap up = node.count := by
    rw [countAt, hread]
    rfl
  by_cases hup : up = root
  · have hkey : keyAt heap up = [] := if_neg (by rw [hup, hroot]; exact lt_irrefl 0)
    have hgo : ∀ fuel, comeUp heap fuel up = goDown heap fuel up := fun fuel => by
      rw [hcome, if_pos ((hrep.isRoot_iff hread).2 hup)]
    rw [hkey, List.nil_append]
    by_cases hchild : node.children true = 0
    · rw [hchild] at hright
      refine ⟨0, (goDown_settles_zero hread hchild).congr hgo, .inl ⟨rfl, ?_⟩⟩
      rw [subtree_zero hrep hright, following_root hrep hrest hup]
      rfl
    · obtain ⟨q, rest', hsettles, hat, hlist⟩ :=
        goDown_settles hrep hcompact hread hright hrest hchild
      exact ⟨q, hsettles.congr hgo, .inr ⟨rest', hlist, hat⟩⟩
  · have hnot : ¬ node.isRoot = true := fun h => hup ((hrep.isRoot_iff hread).1 h)
    by_cases hzero : node.count = 0
    · -- the node does not count, so it has a right child
      have hkey : keyAt heap up = [] := if_neg (by rw [hcount, hzero]; exact lt_irrefl 0)
      obtain ⟨q, rest', hsettles, hat, hlist⟩ := goDown_settles hrep hcompact hread hright hrest
        (hcompact.full up node hread hup hzero true)
      refine ⟨q, hsettles.congr fun fuel => ?_, .inr ⟨rest', ?_, hat⟩⟩
      · rw [hcome, if_neg hnot, if_pos hzero]
      · rw [hkey, List.nil_append, hlist]
    · have hpos : 0 < countAt heap up := hcount ▸ Nat.pos_of_ne_zero hzero
      refine ⟨up, (Settles.const up).congr fun fuel => ?_, .inr ⟨right ++ rest, ?_, hpos, node,
        right, rest, hread, hright, hrest, rfl⟩⟩
      · rw [hcome, if_neg hnot, if_neg hzero]
      · rw [keyAt, if_pos hpos]
        rfl

/-- **`operator++`** goes on to the next key, or to the end behind the last one, unless the
node has a left child only. -/
theorem nextKey_settles {p : Ptr} {rest : List Ptr} (hat : At heap root p rest)
    (hstuck : stuck heap p = false) :
    ∃ next, Settles (fun fuel => nextKey heap fuel p) next ∧ (next = 0 ∧ rest = [] ∨
      ∃ rest', rest = next :: rest' ∧ At heap root next rest') := by
  obtain ⟨hkey, node, right, following, hread, hright, hfollowing, rfl⟩ := hat
  have hnext : ∀ fuel, nextKey heap fuel p =
      if node.children false = 0 ∧ node.children true = 0 then
        (goUp heap fuel p).bind fun up => comeUp heap fuel up
      else goDown heap fuel p := by
    intro fuel
    rw [nextKey, hread]
    rfl
  by_cases hleaf : node.children false = 0 ∧ node.children true = 0
  · have hgo : ∀ fuel, nextKey heap fuel p =
        (goUp heap fuel p).bind fun up => comeUp heap fuel up := fun fuel => by
      rw [hnext, if_pos hleaf]
    rw [hleaf.2] at hright
    rw [subtree_zero hrep hright, List.nil_append]
    obtain ⟨up, hup, ⟨rfl, hnil⟩ |
      ⟨upNode, upRight, upRest, hreadUp, -, hrightUp, hrestUp, hlist⟩⟩ :=
        goUp_settles hrep hfollowing
    · have hend : Settles (fun fuel => comeUp heap fuel 0) 0 := Settles.const 0
      exact ⟨0, Settles.congr (hup.bind hend) hgo, .inl ⟨rfl, hnil⟩⟩
    · obtain ⟨next, hcome, hnextAt⟩ :=
        comeUp_settles hrep hcompact hroot hreadUp hrightUp hrestUp
      rw [hlist]
      exact ⟨next, Settles.congr (hup.bind hcome) hgo, hnextAt⟩
  · -- an inner node that is not stuck has a right child
    have hchild : node.children true ≠ 0 := by
      intro hzero
      have hleft : node.children false = 0 := by
        by_contra hne
        simp [stuck, hread, hne, hzero] at hstuck
      exact hleaf ⟨hleft, hzero⟩
    obtain ⟨q, rest, hsettles, hat, hlist⟩ :=
      goDown_settles hrep hcompact hread hright hfollowing hchild
    refine ⟨q, hsettles.congr fun fuel => ?_, .inr ⟨rest, hlist, hat⟩⟩
    rw [hnext, if_neg hleaf]

omit hrep hcompact hroot in
/-- A node with a left child only ends the iteration. -/
theorem nextKey_settles_stuck {p : Ptr} (hstuck : stuck heap p = true) :
    Settles (fun fuel => nextKey heap fuel p) 0 := by
  obtain ⟨node, hread, hchildren⟩ : ∃ node, heap p = some node ∧
      node.children false ≠ 0 ∧ node.children true = 0 := by
    obtain ⟨node, hread, hchildren⟩ := (Option.any_eq_true _ _).1 hstuck
    exact ⟨node, hread, by simpa using hchildren⟩
  refine (goDown_settles_zero hread hchildren.2).congr fun fuel => ?_
  rw [nextKey, hread]
  exact if_neg fun h => hchildren.1 h.1

/-- From a key on the iterator visits what is behind it, up to the first node that has a left
child only. -/
theorem keysFrom_settles {rest : List Ptr} :
    ∀ {p : Ptr}, At heap root p rest →
      Settles (fun fuel => keysFrom heap fuel p) (untilStuck heap (p :: rest)) := by
  have hend : Settles (fun fuel => keysFrom heap fuel 0) [] :=
    (Settles.const []).succ fun fuel => rfl
  have hcons : ∀ {p next : Ptr} {list : List Ptr}, p ≠ 0 →
      Settles (fun fuel => nextKey heap fuel p) next →
      Settles (fun fuel => keysFrom heap fuel next) list →
      Settles (fun fuel => keysFrom heap fuel p) (p :: list) := by
    intro p next list hzero hnext hlist
    refine (hnext.bind (g := fun next fuel => (keysFrom heap fuel next).map fun keys => p :: keys)
      (hlist.map fun keys => p :: keys)).succ fun fuel => ?_
    rw [keysFrom, if_neg hzero]
  induction rest with
  | nil =>
      intro p hat
      have hzero : p ≠ 0 := by
        obtain ⟨node, -, -, hread, -⟩ := hat.rest
        exact hrep.ne_zero hread
      have huntil : untilStuck heap [p] = [p] := by
        rw [untilStuck]
        split_ifs <;> rfl
      rw [huntil]
      cases hstuck : stuck heap p with
      | true => exact hcons hzero (nextKey_settles_stuck hstuck) hend
      | false =>
          obtain ⟨next, hnext, ⟨rfl, -⟩ | ⟨rest', hrest, -⟩⟩ :=
            nextKey_settles hrep hcompact hroot hat hstuck
          · exact hcons hzero hnext hend
          · cases hrest
  | cons q rest ih =>
      intro p hat
      have hzero : p ≠ 0 := by
        obtain ⟨node, -, -, hread, -⟩ := hat.rest
        exact hrep.ne_zero hread
      cases hstuck : stuck heap p with
      | true =>
          rw [untilStuck, if_pos hstuck]
          exact hcons hzero (nextKey_settles_stuck hstuck) hend
      | false =>
          rw [untilStuck, if_neg (by rw [hstuck]; decide)]
          obtain ⟨next, hnext, ⟨-, hnil⟩ | ⟨rest', hrest, hat'⟩⟩ :=
            nextKey_settles hrep hcompact hroot hat hstuck
          · cases hnil
          · obtain ⟨rfl, rfl⟩ := List.cons.inj hrest
            exact hcons hzero hnext (ih hat')

omit hcompact hroot in
theorem isRootAt_eq {p : Ptr} {node : Node} (hread : heap p = some node) :
    isRootAt heap p = some (decide (p = root)) := by
  rw [isRootAt, if_neg (hrep.ne_zero hread), hread, Option.map_some, Option.some.injEq,
    Bool.eq_iff_iff, hrep.isRoot_iff hread, decide_eq_true_iff]

omit hcompact in
theorem dropRoot_of_at {p : Ptr} {rest : List Ptr} (hat : At heap root p rest) :
    dropRoot heap p = some p := by
  obtain ⟨node, -, -, hread, -⟩ := hat.rest
  rw [dropRoot, isRootAt_eq hrep hread, decide_eq_false (hat.ne_root hroot)]
  rfl

/-- **`begin_keys`** is the first key, or the end if there is none. -/
theorem beginKeys_settles {dictionary : Dictionary} (hheap : dictionary.heap = heap)
    (hdictionary : dictionary.root = root) {list : List Ptr} (hsubtree : Subtree heap root list) :
    ∃ first, Settles (beginKeys dictionary) first ∧ (first = 0 ∧ list = [] ∨
      ∃ rest, list = first :: rest ∧ At heap root first rest) := by
  subst hheap hdictionary
  have hbegin : ∀ {first second : Ptr},
      Settles (fun fuel => findFirst dictionary.heap fuel dictionary.root) first →
      Settles (fun fuel => leaveRoot dictionary.heap fuel first) second →
      dropRoot dictionary.heap second = some second → Settles (beginKeys dictionary) second := by
    intro first second hfirst hsecond hlast
    refine hfirst.bind (hsecond.bind (g := fun second _ => dropRoot dictionary.heap second) ?_)
    exact (Settles.const second).congr fun _ => hlast
  have hkey : keyAt dictionary.heap dictionary.root = [] :=
    if_neg (by rw [hroot]; exact lt_irrefl 0)
  obtain ⟨node, hread, -⟩ := hrep.isRoot
  have hzero := hrep.ne_zero hread
  obtain ⟨left, right, hleft, hright, rfl⟩ := subtree_of_read hrep hsubtree hread
  rw [hkey, List.nil_append]
  by_cases hchild : node.children false = 0
  · rw [hchild] at hleft
    rw [subtree_zero hrep hleft, List.nil_append]
    have hfirst : Settles (fun fuel => findFirst dictionary.heap fuel dictionary.root)
        dictionary.root := by
      refine (Settles.const dictionary.root).succ fun fuel => ?_
      simp [findFirst, hzero, hread, hchild]
    have hleave : ∀ fuel, leaveRoot dictionary.heap fuel dictionary.root =
        goDown dictionary.heap fuel dictionary.root := fun fuel => by
      rw [leaveRoot, isRootAt_eq hrep hread, decide_eq_true rfl]
      rfl
    by_cases hother : node.children true = 0
    · rw [hother] at hright
      refine ⟨0, hbegin hfirst ((goDown_settles_zero hread hother).congr hleave) ?_,
        .inl ⟨rfl, subtree_zero hrep hright⟩⟩
      rfl
    · obtain ⟨q, rest, hsettles, hat, hlist⟩ :=
        goDown_settles hrep hcompact hread hright .root hother
      rw [List.append_nil] at hlist
      exact ⟨q, hbegin hfirst (hsettles.congr hleave) (dropRoot_of_at hrep hroot hat),
        .inr ⟨rest, hlist, hat⟩⟩
  · obtain ⟨-, -, -, -, hne⟩ := parent_eq hrep hread hchild
    obtain ⟨q, rest, hsettles, hat, hlist⟩ := findFirst_settles hrep hcompact hleft _ hchild hne
      (.left hread hchild hright .root)
    rw [hkey, List.nil_append, List.append_nil] at hlist
    have hfirst : Settles (fun fuel => findFirst dictionary.heap fuel dictionary.root) q := by
      refine hsettles.succ fun fuel => ?_
      simp [findFirst, hzero, hread, hchild]
    have hleave : ∀ fuel, leaveRoot dictionary.heap fuel q = some q := fun fuel => by
      obtain ⟨qnode, -, -, hreadq, -⟩ := hat.rest
      rw [leaveRoot, isRootAt_eq hrep hreadq, decide_eq_false (hat.ne_root hroot)]
      rfl
    exact ⟨q, hbegin hfirst ((Settles.const q).congr hleave) (dropRoot_of_at hrep hroot hat),
      .inr ⟨rest, hlist, hat⟩⟩

/-- **The iteration** visits the keys of the trie in order, up to the first node that has a
left child only. -/
theorem keys_settles {dictionary : Dictionary} (hheap : dictionary.heap = heap)
    (hdictionary : dictionary.root = root) {list : List Ptr} (hsubtree : Subtree heap root list) :
    Settles (keys dictionary) (untilStuck heap list) := by
  obtain ⟨first, hfirst, hlist⟩ :=
    beginKeys_settles hrep hcompact hroot hheap hdictionary hsubtree
  refine hfirst.bind ?_
  rw [hheap]
  rcases hlist with ⟨rfl, rfl⟩ | ⟨rest, rfl, hat⟩
  · exact (Settles.const []).succ fun fuel => rfl
  · exact keysFrom_settles hrep hcompact hroot hat

end Iterating

end Wiselib.Prescilla
