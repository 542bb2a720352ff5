import Wiselib.TupleStore.PrescillaOperations
import Wiselib.TupleStore.PrescillaRemoval

/-!
# Runs of the Prescilla dictionary

A session is a dictionary with the history a client knows: how often each string
was inserted and erased, and the keys that the inserts of a live string returned.
`law_of_intact_run`: in every run in which no operation makes a node of more
than 65535 bits, `find` tells the live strings, gives the key that every insert
returned, and `get_copy` gives the string back.

`data_size_` has 16 bits, and nothing checks that the bits of a node fit.
`exists_run_not_correct` inserts a string of 8192 bytes, which `find` then does
not find.
-/

namespace Wiselib.Prescilla

open Transition

/-! ## Sessions -/

/-- Inserting gets the addresses that its allocations return. -/
inductive Op where
  | insert (value : List Byte) (new1 new2 : Ptr)
  | erase (value : List Byte) (key : Ptr)

/-- `returned` has the keys that inserts of a string returned since it is live. -/
structure Session where
  dictionary : Dictionary
  inserts : List Byte → ℕ
  erases : List Byte → ℕ
  returned : List Byte → List Ptr

def Session.live (session : Session) (value : List Byte) : ℕ :=
  session.inserts value - session.erases value

def start (root : Ptr) : Session := ⟨init root, fun _ => 0, fun _ => 0, fun _ => []⟩

def perform (session : Session) : Op → Option Session
  | .insert value new1 new2 => do
      let (dictionary, key) ← insert session.dictionary value new1 new2
      return { session with
        dictionary := dictionary
        inserts := Function.update session.inserts value (session.inserts value + 1)
        returned := Function.update session.returned value (key :: session.returned value) }
  | .erase value key => do
      let dictionary ← erase session.dictionary key
      return { session with
        dictionary := dictionary
        erases := Function.update session.erases value (session.erases value + 1)
        returned := Function.update session.returned value
          (if session.live value = 1 then [] else session.returned value) }

/-- The strings are not empty and have no zero byte, at most 65535 inserts of a string
are live, allocations return unused addresses, and `erase` gets a key that belongs to a
live string. -/
def Legal (session : Session) : Op → Prop
  | .insert value new1 new2 => value ≠ [] ∧ 0 ∉ value ∧ session.live value < 65535 ∧
      new1 ≠ 0 ∧ new2 ≠ 0 ∧ new1 ≠ new2 ∧
      session.dictionary.heap new1 = none ∧ session.dictionary.heap new2 = none
  | .erase value key => 0 < session.live value ∧
      (key ∈ session.returned value ∨ find session.dictionary value = some key)

/-- The nodes that the operation makes fit: what an inserted string has behind the bits
in common with a live string, and what `erase` merges. -/
def Intact (session : Session) : Op → Prop
  | .insert value _ _ => ∃ front back, bits value = front ++ back ∧ back.length < 65536 ∧
      (front = [] ∨ ∃ other, 0 < session.live other ∧ front <+: bits other)
  | .erase _ key => EraseFits session.dictionary.heap key

/-- The dictionary law. -/
structure Correct (session : Session) : Prop where
  find_live : ∀ value, ∃ key, find session.dictionary value = some key ∧
    (key ≠ 0 ↔ session.erases value < session.inserts value)
  find_returned : ∀ value, ∀ key ∈ session.returned value,
    find session.dictionary value = some key
  getCopy_key : ∀ value key, session.erases value < session.inserts value →
    find session.dictionary value = some key → ∀ fuel, 8 * value.length < fuel →
    getCopy fuel session.dictionary key = some (value.map Fin.val)

/-! ## The invariant -/

/-- The nodes that count are the live strings. -/
structure Inv (dictionary : Dictionary) (live : List Byte → ℕ) (returned : List Byte → List Ptr)
    (label : Ptr → List Bool) : Prop where
  represents : Represents dictionary.heap dictionary.root label
  named : ∀ p, 0 < countAt dictionary.heap p → ∃ value, 0 < live value ∧ label p = bits value
  legal : ∀ value, 0 < live value → value ≠ [] ∧ 0 ∉ value ∧ live value < 65536
  counted : ∀ value, 0 < live value → ∃ key, label key = bits value ∧
    countAt dictionary.heap key = live value ∧ ∀ k ∈ returned value, k = key
  dead : ∀ value, live value = 0 → returned value = []

section Invariant

variable {dictionary : Dictionary} {live : List Byte → ℕ} {returned : List Byte → List Ptr}
  {label : Ptr → List Bool}

theorem Inv.eq_of_label (hinv : Inv dictionary live returned label) {p q : Ptr}
    (hp : 0 < countAt dictionary.heap p) (hq : 0 < countAt dictionary.heap q)
    (hlabel : label p = label q) : p = q := by
  obtain ⟨pnode, hread, -⟩ := mem_of_countAt_pos hp
  obtain ⟨qnode, hread', -⟩ := mem_of_countAt_pos hq
  exact hinv.represents.label_injective hread hread' hlabel

theorem Inv.find_eq (hinv : Inv dictionary live returned label) {value : List Byte} {key : Ptr}
    (hlive : 0 < live value) (hlabel : label key = bits value)
    (hcount : countAt dictionary.heap key = live value) : find dictionary value = some key := by
  have hpos : 0 < countAt dictionary.heap key := by rw [hcount]; exact hlive
  obtain ⟨found, hfind, ⟨-, hnone⟩ | ⟨hfound, hfoundCount⟩⟩ := find_spec hinv.represents value
  · rw [hnone key hlabel] at hpos
    exact absurd hpos (lt_irrefl 0)
  · rw [hfind, hinv.eq_of_label hfoundCount hpos (hfound.trans hlabel.symm)]

theorem Inv.mem_of_live (hinv : Inv dictionary live returned label) {value : List Byte}
    (hlive : 0 < live value) : ∃ p, dictionary.heap p ≠ none ∧ label p = bits value := by
  obtain ⟨key, hlabel, hcount, -⟩ := hinv.counted value hlive
  obtain ⟨node, hread, -⟩ := mem_of_countAt_pos (hcount ▸ hlive)
  exact ⟨key, by rw [hread]; exact Option.some_ne_none _, hlabel⟩

theorem Inv.countAt_eq (hinv : Inv dictionary live returned label) {p : Ptr} {value : List Byte}
    (hlabel : label p = bits value) (hp : 0 < countAt dictionary.heap p) :
    countAt dictionary.heap p = live value := by
  obtain ⟨value', hlive, hlabel'⟩ := hinv.named p hp
  obtain rfl := bits_injective (hlabel.symm.trans hlabel')
  obtain ⟨key, hkey, hcount, -⟩ := hinv.counted value hlive
  rw [hinv.eq_of_label hp (by rw [hcount]; exact hlive) (hlabel.trans hkey.symm), hcount]

theorem Inv.insert (hinv : Inv dictionary live returned label) {value : List Byte}
    (hvalue : value ≠ []) (hzero : 0 ∉ value) (hmax : live value < 65535) {new1 new2 : Ptr}
    (hzero1 : new1 ≠ 0) (hzero2 : new2 ≠ 0) (hne : new1 ≠ new2)
    (hnew1 : dictionary.heap new1 = none) (hnew2 : dictionary.heap new2 = none)
    {front back : List Bool} (hbits : bits value = front ++ back) (hback : back.length < 65536)
    (hfront : front = [] ∨ ∃ other, 0 < live other ∧ front <+: bits other) :
    ∃ dictionary' key label', Prescilla.insert dictionary value new1 new2 =
        some (dictionary', key) ∧
      Inv dictionary' (Function.update live value (live value + 1))
        (Function.update returned value (key :: returned value)) label' := by
  have hrep := hinv.represents
  have hnode : ∃ p, dictionary.heap p ≠ none ∧ front <+: label p := by
    rcases hfront with hnil | ⟨other, hlive, hbegins⟩
    · obtain ⟨rnode, hr, -, -⟩ := hrep.isRoot
      exact ⟨dictionary.root, by rw [hr]; exact Option.some_ne_none _, hnil ▸ List.nil_prefix⟩
    · obtain ⟨p, hp, hlabel⟩ := hinv.mem_of_live hlive
      exact ⟨p, hp, hlabel ▸ hbegins⟩
  have hroom : ∀ p, dictionary.heap p ≠ none → label p = bits value →
      countAt dictionary.heap p < 65535 := by
    intro p _ hlabel
    by_cases hp : 0 < countAt dictionary.heap p
    · rw [hinv.countAt_eq hlabel hp]
      exact hmax
    · omega
  obtain ⟨label', heap', key, ⟨size, hresult⟩, hrep', hkeeps, hmem, hkey, hcount, hother⟩ :=
    insert_spec hrep (bits_ne_nil hvalue) hnew1 hnew2 hzero1 hzero2 hne hroom hbits hback hnode
  have hold : ∀ {p}, 0 < countAt dictionary.heap p → label' p = label p := by
    intro p hp
    obtain ⟨node, hread, -⟩ := mem_of_countAt_pos hp
    exact (hkeeps p (by rw [hread]; exact Option.some_ne_none _)).2
  -- the node of the string counted the live inserts before
  have hbefore : countAt dictionary.heap key = live value := by
    by_cases hpos : 0 < countAt dictionary.heap key
    · exact hinv.countAt_eq ((hold hpos).symm.trans hkey) hpos
    · by_contra hlive
      obtain ⟨p, hlabel, hpcount, -⟩ := hinv.counted value (by omega)
      have hp : 0 < countAt dictionary.heap p := by omega
      obtain ⟨pnode, hread, -⟩ := mem_of_countAt_pos hp
      obtain ⟨pnode', hread'⟩ := Option.ne_none_iff_exists'.1
        (hkeeps p (by rw [hread]; exact Option.some_ne_none _)).1
      obtain ⟨knode, hknode⟩ := Option.ne_none_iff_exists'.1 hmem
      have hsame := hrep'.label_injective hread' hknode (by rw [hold hp, hlabel, hkey])
      exact hpos (hsame ▸ hp)
  have hdiff : ∀ {p other}, 0 < countAt dictionary.heap p → label p = bits other →
      other ≠ value → p ≠ key := by
    rintro p other hp hlabel hov rfl
    exact hov (bits_injective (hlabel.symm.trans ((hold hp).symm.trans hkey)))
  refine ⟨_, key, label', hresult, hrep', fun p hp => ?_, fun other hlive => ?_,
    fun other hlive => ?_, fun other hlive => ?_⟩
  · by_cases hpk : p = key
    · exact ⟨value, by rw [Function.update_self]; exact Nat.succ_pos _, by rw [hpk, hkey]⟩
    · dsimp only at hp
      rw [hother p hpk] at hp
      obtain ⟨other, hlive, hlabel⟩ := hinv.named p hp
      refine ⟨other, ?_, by rw [hold hp, hlabel]⟩
      rw [Function.update_apply]
      split_ifs <;> omega
  · by_cases hov : other = value
    · rw [hov, Function.update_self]
      exact ⟨hvalue, hzero, by omega⟩
    · rw [Function.update_of_ne hov] at hlive ⊢
      exact hinv.legal other hlive
  · by_cases hov : other = value
    · subst hov
      refine ⟨key, hkey, by rw [Function.update_self, hcount, hbefore], fun k hk => ?_⟩
      rw [Function.update_self] at hk
      rcases List.mem_cons.1 hk with rfl | hk
      · rfl
      · by_cases hpos : 0 < live other
        · obtain ⟨key', hlabel, hkcount, hreturned⟩ := hinv.counted other hpos
          rw [hreturned k hk]
          have hkey' : 0 < countAt dictionary.heap key' := by omega
          exact hinv.eq_of_label hkey' (by omega)
            (by rw [hlabel, ← hold (by omega : 0 < countAt dictionary.heap key), hkey])
        · rw [hinv.dead other (by omega)] at hk
          cases hk
    · rw [Function.update_of_ne hov] at hlive ⊢
      rw [Function.update_of_ne hov]
      obtain ⟨key', hlabel, hkcount, hreturned⟩ := hinv.counted other hlive
      have hkey' : 0 < countAt dictionary.heap key' := by omega
      exact ⟨key', by rw [hold hkey', hlabel],
        by rw [hother key' (hdiff hkey' hlabel hov), hkcount], hreturned⟩
  · by_cases hov : other = value
    · rw [hov, Function.update_self] at hlive
      cases hlive
    · rw [Function.update_of_ne hov] at hlive ⊢
      exact hinv.dead other hlive

theorem Inv.erase (hinv : Inv dictionary live returned label) {value : List Byte} {key : Ptr}
    (hlive : 0 < live value) (hkey : key ∈ returned value ∨ find dictionary value = some key)
    (hfits : EraseFits dictionary.heap key) :
    ∃ dictionary', Prescilla.erase dictionary key = some dictionary' ∧
      Inv dictionary' (Function.update live value (live value - 1))
        (Function.update returned value (if live value = 1 then [] else returned value))
        label := by
  obtain ⟨hvalue, hzero, hmax⟩ := hinv.legal value hlive
  obtain ⟨key', hlabel, hcount, hreturned⟩ := hinv.counted value hlive
  obtain rfl : key = key' := by
    rcases hkey with hkey | hkey
    · exact hreturned key hkey
    · exact Option.some.inj (hkey.symm.trans (hinv.find_eq hlive hlabel hcount))
  have hroot : key ≠ dictionary.root := by
    rintro rfl
    exact bits_ne_nil hvalue (hlabel.symm.trans hinv.represents.label_root)
  obtain ⟨heap', hresult, hrep', hself, hother⟩ :=
    erase_spec hinv.represents hroot (by omega) (by omega) hfits
  refine ⟨_, hresult, hrep', fun p hp => ?_, fun other hpos => ?_, fun other hpos => ?_,
    fun other hdead => ?_⟩
  · by_cases hpk : p = key
    · dsimp only at hp
      rw [hpk, hself] at hp
      refine ⟨value, ?_, by rw [hpk, hlabel]⟩
      rw [Function.update_self]
      omega
    · dsimp only at hp
      rw [hother p hpk] at hp
      obtain ⟨other, hpos, hplabel⟩ := hinv.named p hp
      refine ⟨other, ?_, hplabel⟩
      rw [Function.update_of_ne]
      · exact hpos
      · rintro rfl
        exact hpk (hinv.eq_of_label hp (by omega) (hplabel.trans hlabel.symm))
  · by_cases hov : other = value
    · rw [hov, Function.update_self]
      exact ⟨hvalue, hzero, by omega⟩
    · rw [Function.update_of_ne hov] at hpos ⊢
      exact hinv.legal other hpos
  · by_cases hov : other = value
    · rw [hov, Function.update_self] at hpos
      rw [hov, Function.update_self, Function.update_self, if_neg (by omega)]
      exact ⟨key, hlabel, by rw [hself, hcount], hreturned⟩
    · rw [Function.update_of_ne hov] at hpos ⊢
      rw [Function.update_of_ne hov]
      obtain ⟨k, hk, hkcount, hkreturned⟩ := hinv.counted other hpos
      refine ⟨k, hk, ?_, hkreturned⟩
      rw [hother k, hkcount]
      rintro rfl
      exact hov (bits_injective (hk.symm.trans hlabel))
  · by_cases hov : other = value
    · rw [hov, Function.update_self] at hdead
      rw [hov, Function.update_self, if_pos (by omega)]
    · rw [Function.update_of_ne hov] at hdead ⊢
      exact hinv.dead other hdead

end Invariant

theorem init_heap (root p : Ptr) :
    (init root).heap p = if p = root then some rootNode else none := by
  simp only [init, Function.update_apply]

theorem represents_init {root : Ptr} (hroot : root ≠ 0) :
    Represents (init root).heap (init root).root (fun _ => []) := by
  have hread : ∀ {p node}, (init root).heap p = some node → p = root ∧ node = rootNode := by
    intro p node hp
    rw [init_heap] at hp
    split_ifs at hp with hpr
    exact ⟨hpr, (Option.some.inj hp).symm⟩
  refine ⟨(init_heap root 0).trans (if_neg hroot.symm), ⟨rootNode, (init_heap root root).trans (if_pos rfl), rfl, rfl⟩,
    rfl, fun hq hchild => ?_, fun hp hne => ?_, fun hp => ?_, fun hp => ?_⟩
  · rw [(hread hq).2] at hchild
    exact absurd rfl hchild
  · exact absurd (hread hp).1 hne
  · rw [(hread hp).2]
    rfl
  · rw [(hread hp).2]
    exact Nat.zero_lt_succ _

/-! ## Runs -/

/-- The invariant of a session. -/
structure SessionInv (session : Session) : Prop where
  inv : ∃ label, Inv session.dictionary session.live session.returned label
  balanced : ∀ value, session.erases value ≤ session.inserts value

theorem sessionInv_start {root : Ptr} (hroot : root ≠ 0) : SessionInv (start root) := by
  refine ⟨⟨fun _ => [], represents_init hroot, fun p hp => ?_, fun value hlive => ?_,
    fun value hlive => ?_, fun _ _ => rfl⟩, fun _ => le_rfl⟩
  · obtain ⟨node, hread, hcount⟩ := mem_of_countAt_pos hp
    rw [start, init_heap] at hread
    split_ifs at hread
    rw [← hcount, ← Option.some.inj hread] at hp
    exact absurd hp (lt_irrefl 0)
  · exact absurd hlive (lt_irrefl 0)
  · exact absurd hlive (lt_irrefl 0)

/-- A legal operation whose nodes fit goes through and keeps the invariant. -/
theorem sessionInv_perform {session : Session} (hinv : SessionInv session) {op : Op}
    (hlegal : Legal session op) (hintact : Intact session op) :
    ∃ next, perform session op = some next ∧ SessionInv next := by
  obtain ⟨⟨label, hinv⟩, hbalanced⟩ := hinv
  cases op with
  | insert value new1 new2 =>
      obtain ⟨hvalue, hzero, hmax, hzero1, hzero2, hne, hnew1, hnew2⟩ := hlegal
      obtain ⟨front, back, hbits, hback, hfront⟩ := hintact
      obtain ⟨dictionary', key, label', hinsert, hinv'⟩ := hinv.insert hvalue hzero hmax hzero1
        hzero2 hne hnew1 hnew2 hbits hback hfront
      refine ⟨_, by rw [perform, hinsert]; rfl, ⟨label', ?_⟩, fun other => ?_⟩
      · convert hinv' using 1
        funext other
        simp only [Session.live, Function.update_apply]
        have := hbalanced value
        split_ifs with hov
        · rw [hov]
          omega
        · rfl
      · have := hbalanced other
        simp only [Function.update_apply]
        split_ifs with hov
        · rw [← hov]
          omega
        · exact this
  | erase value key =>
      obtain ⟨hlive, hkey⟩ := hlegal
      obtain ⟨dictionary', herase, hinv'⟩ := hinv.erase hlive hkey hintact
      refine ⟨_, by rw [perform, herase]; rfl, ⟨label, ?_⟩, fun other => ?_⟩
      · convert hinv' using 1
        funext other
        simp only [Session.live, Function.update_apply]
        split_ifs with hov
        · rw [hov]
          omega
        · rfl
      · have := hbalanced other
        unfold Session.live at hlive
        simp only [Function.update_apply]
        split_ifs with hov
        · rw [hov]
          omega
        · exact this

theorem SessionInv.correct {session : Session} (hinv : SessionInv session) : Correct session := by
  obtain ⟨⟨label, hinv⟩, hbalanced⟩ := hinv
  have hlive : ∀ {value}, session.erases value < session.inserts value ↔
      0 < session.live value := by
    intro value
    unfold Session.live
    omega
  refine ⟨fun value => ?_, fun value key hkey => ?_, fun value key hpos hfind fuel hfuel => ?_⟩
  · obtain ⟨key, hfind, hspec⟩ := find_spec hinv.represents value
    refine ⟨key, hfind, ?_⟩
    rw [hlive]
    rcases hspec with ⟨rfl, hnone⟩ | ⟨hlabel, hcount⟩
    · refine iff_of_false (fun h => h rfl) fun hpos => ?_
      obtain ⟨key, hlabel, hcount, -⟩ := hinv.counted value hpos
      rw [hnone key hlabel] at hcount
      omega
    · obtain ⟨node, hread, -⟩ := mem_of_countAt_pos hcount
      refine iff_of_true (hinv.represents.ne_zero hread) ?_
      rwa [← hinv.countAt_eq hlabel hcount]
  · by_cases hpos : 0 < session.live value
    · obtain ⟨key', hlabel, hcount, hreturned⟩ := hinv.counted value hpos
      rw [hreturned key hkey]
      exact hinv.find_eq hpos hlabel hcount
    · rw [hinv.dead value (by omega)] at hkey
      cases hkey
  · rw [hlive] at hpos
    obtain ⟨hvalue, hzero, -⟩ := hinv.legal value hpos
    obtain ⟨key', hlabel, hcount, -⟩ := hinv.counted value hpos
    obtain rfl := Option.some.inj (hfind.symm.trans (hinv.find_eq hpos hlabel hcount))
    obtain ⟨node, hread, -⟩ := mem_of_countAt_pos (hcount ▸ hpos)
    exact getCopy_spec hinv.represents hread hlabel hvalue hzero hfuel

/-- In every run whose operations make no node of more than 65535 bits, the dictionary
law holds, and no such operation fails. -/
theorem law_of_intact_run {root : Ptr} (hroot : root ≠ 0) {operations : List Op}
    {session : Session}
    (hrun : Run (Guarded (fun s op => Legal s op ∧ Intact s op) (stepOf perform)) (start root)
      operations session) :
    Correct session ∧
      ∀ op, Legal session op → Intact session op → (perform session op).isSome := by
  have hstep : ∀ state op next, SessionInv state →
      Guarded (fun s op => Legal s op ∧ Intact s op) (stepOf perform) state op next →
      SessionInv next := by
    rintro state op next hinv ⟨⟨hlegal, hintact⟩, hstep⟩
    obtain ⟨next', hnext, hinv'⟩ := sessionInv_perform hinv hlegal hintact
    obtain rfl : next' = next := Option.some.inj (hnext.symm.trans hstep)
    exact hinv'
  have hinv := hrun.invariant hstep (sessionInv_start hroot)
  refine ⟨hinv.correct, fun op hlegal hintact => ?_⟩
  obtain ⟨next, hnext, -⟩ := sessionInv_perform hinv hlegal hintact
  rw [hnext]
  rfl

/-- The key of a string stays valid when the node of a prefix is merged into its node. -/
theorem law_of_intact_run_prefix :
    ∃ session, Run (Guarded (fun s op => Legal s op ∧ Intact s op) (stepOf perform)) (start 1)
        [.insert [1] 2 3, .insert [1, 2] 3 4, .erase [1] 2] session ∧ Correct session ∧
      ∀ op, Legal session op → Intact session op → (perform session op).isSome := by
  have hrun : Run (Guarded (fun s op => Legal s op ∧ Intact s op) (stepOf perform)) (start 1)
      [.insert [1] 2 3, .insert [1, 2] 3 4, .erase [1] 2] _ :=
    .cons ⟨⟨⟨by decide, by decide, by decide, by decide, by decide, by decide, rfl, rfl⟩,
        [], _, rfl, by decide, .inl rfl⟩, rfl⟩ <|
      .cons ⟨⟨⟨by decide, by decide, by decide, by decide, by decide, by decide, rfl, rfl⟩,
        [], _, rfl, by decide, .inl rfl⟩, rfl⟩ <|
      .cons ⟨⟨⟨by decide, .inl (.head _)⟩, fun _ => .mk
        (fun node child bit hread hnone hchild => by
          obtain rfl := Option.some.inj hread
          cases bit with
          | false =>
              obtain rfl := Option.some.inj hchild
              decide
          | true => cases hchild)
        (fun node parent sibling bit hread hleaf => by
          obtain rfl := Option.some.inj hread
          exact absurd (hleaf false) (by decide))⟩, rfl⟩ <| .nil _
  exact ⟨_, hrun, law_of_intact_run one_ne_zero hrun⟩

/-- A first string of 65536 bits gets a node of size 0, whose bits `find` does not look at. -/
theorem find_of_wrapped_size {value : List Byte} {bit next : Bool} {rest : List Bool}
    (hbits : bits value = bit :: next :: rest) (hlength : (bits value).length = 65536) :
    ∃ dictionary, insert (init 1) value 2 3 = some (dictionary, 2) ∧
      find dictionary value = some 0 := by
  have hwrap : uint16 (bit :: next :: rest).length = 0 := by
    rw [← hbits, hlength]
    rfl
  refine ⟨⟨1, Function.update (Function.update (init 1).heap 2
    (some ⟨fun _ => 0, 1, 1, 0, bit :: next :: rest⟩)) 1 (some (rootNode.setChild bit 2)), 1⟩,
    ?_, ?_⟩
  · unfold insert appendNode
    rw [hbits]
    simp only [List.head?_cons, hwrap]
    rfl
  · simp [find, hbits, findFrom, rootNode, Node.setChild]

/-- Such a string is live after its insertion, and the law fails. -/
theorem not_correct_of_wrapped_size {value : List Byte} {bit next : Bool} {rest : List Bool}
    (hbits : bits value = bit :: next :: rest) (hlength : (bits value).length = 65536)
    (hzero : 0 ∉ value) :
    ∃ session, Run (Guarded Legal (stepOf perform)) (start 1) [.insert value 2 3] session ∧
      ¬ Correct session := by
  obtain ⟨dictionary, hinsert, hfind⟩ := find_of_wrapped_size hbits hlength
  have hvalue : value ≠ [] := by
    rintro rfl
    cases hbits
  have hlegal : Legal (start 1) (.insert value 2 3) :=
    ⟨hvalue, hzero, Nat.zero_lt_succ _, by decide, by decide, by decide, rfl, rfl⟩
  have hperform : perform (start 1) (.insert value 2 3) = some ⟨dictionary,
      Function.update (fun _ => 0) value 1, fun _ => 0,
      Function.update (fun _ => []) value [2]⟩ := by
    unfold perform
    dsimp only [start]
    rw [hinsert]
    rfl
  refine ⟨_, .cons ⟨hlegal, hperform⟩ (.nil _), fun hcorrect => ?_⟩
  obtain ⟨key, hkey, hlive⟩ := hcorrect.find_live value
  obtain rfl := Option.some.inj (hfind.symm.trans hkey)
  refine hlive.2 ?_ rfl
  dsimp only
  rw [Function.update_self]
  exact one_pos

/-- `find` does not find a string of 8192 bytes. -/
theorem exists_run_not_lawful :
    ∃ session, Run (Guarded Legal (stepOf perform)) (start 1)
        [.insert (List.replicate 8192 1) 2 3] session ∧ ¬ Correct session := by
  have hbits : bits (List.replicate (8191 + 1) 1) =
      true :: false :: (List.replicate 6 false ++ bits (List.replicate 8191 1)) := by
    rw [List.replicate_succ]
    rfl
  refine not_correct_of_wrapped_size hbits ?_ ?_
  · rw [length_bits, List.length_replicate]
  · intro hmem
    exact absurd (List.eq_of_mem_replicate hmem) (by decide)

end Wiselib.Prescilla
