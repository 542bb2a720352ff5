import Wiselib.Library.Run

/-!
# The translators between dictionary keys and hashes

`DictionaryTranslator` maps the key of a string to the hash of the string, and
`HashTranslator` maps a hash to a key.  Both remember earlier answers in a table in
which every key or hash has one slot, and neither hears of changes of the
dictionary.

`translators_correct` proves that both answer correctly after every run in which a
key gets a new string only if its slot does not hold the key with another hash, and
a key is erased only if no slot of the `HashTranslator` holds it.
`not_correct_of_not_undisturbed` shows that each step that breaks this makes an
answer wrong.

## Strategy

* `Coherent` says that a remembered hash of a key that is in use is the hash of its
  string, and that a remembered key is in use and belongs to the remembered hash.
* Every operation keeps it (`Coherent.step`); the two conditions are what the
  changes of the dictionary need.
-/

namespace Wiselib.Inqp

open Transition

/-! ## The translators -/

/-- The number of slots, the null key and the hash function. -/
structure TranslatorConfig (Text : Type*) where
  maxSize : ℕ
  nullKey : ℕ
  hash : Text → ℕ

/-- The strings of the dictionary with their keys in the order of its iterator, and
the two lookup tables: a key and a hash for each slot. -/
structure Translators (Text : Type*) where
  entries : List (ℕ × Text)
  keyHash : ℕ → ℕ × ℕ
  hashKey : ℕ → ℕ × ℕ

variable {Text : Type*} (config : TranslatorConfig Text)

/-- `dict_key_to_index`. -/
def TranslatorConfig.keyIndex (key : ℕ) : ℕ :=
  (key ^^^ (key >>> 4)) % config.maxSize

/-- `hash_to_index`. -/
def TranslatorConfig.hashIndex (hash : ℕ) : ℕ :=
  hash % config.maxSize

namespace Translators

/-- An empty dictionary, and empty tables. -/
def initial : Translators Text where
  entries := []
  keyHash _ := (config.nullKey, 0)
  hashKey _ := (config.nullKey, 0)

/-- `get_value`. -/
def getValue (state : Translators Text) (key : ℕ) : Option Text :=
  (state.entries.find? fun entry => entry.1 = key).map Prod.snd

/-- The slot of a key takes the key and a hash. -/
def remember (state : Translators Text) (key hash : ℕ) : Translators Text :=
  { state with
    keyHash := Function.update state.keyHash (config.keyIndex key) (key, hash) }

/-- `DictionaryTranslator::translate`: the hash, and the tables after it. -/
def translateKey (state : Translators Text) (key : ℕ) : ℕ × Translators Text :=
  let slot := config.keyIndex key
  if (state.keyHash slot).1 ≠ key then
    match state.getValue key with
    | some text => (config.hash text, state.remember config key (config.hash text))
    | none => ((state.keyHash slot).2, state)
  else ((state.keyHash slot).2, state)

/-- `HashTranslator::translate`. -/
def translateHash (state : Translators Text) (hash : ℕ) : ℕ :=
  let pair := state.hashKey (config.hashIndex hash)
  if pair.1 ≠ config.nullKey ∧ pair.2 = hash then pair.1
  else
    match state.entries.find? fun entry => config.hash entry.2 = hash with
    | some entry => entry.1
    | none => config.nullKey

/-- `offer`: only an empty slot takes the pair. -/
def offer (state : Translators Text) (key hash : ℕ) : Translators Text :=
  if (state.hashKey (config.hashIndex hash)).1 = config.nullKey then
    { state with
      hashKey := Function.update state.hashKey (config.hashIndex hash) (key, hash) }
  else state

/-- `fill`. -/
def fill (state : Translators Text) : Translators Text :=
  state.entries.foldl (fun state entry => state.offer config entry.1 (config.hash entry.2)) state

/-! ## Runs -/

/-- The changes of the dictionary and the calls of the translators.  A key is offered
together with its translation. -/
inductive Op (Text : Type*)
  | insert (key : ℕ) (text : Text)
  | erase (key : ℕ)
  | translateKey (key : ℕ)
  | offer (key : ℕ)
  | fill
  | translateHash (hash : ℕ)

/-- What an operation does.  The dictionary chooses the key of a new string among
those that are not in use, and may rearrange its entries. -/
inductive Step : Translators Text → Op Text → Translators Text → Prop
  | insert {state : Translators Text} {key : ℕ} {text : Text} {entries : List (ℕ × Text)}
      (hfresh : key ∉ state.entries.map Prod.fst) (hnull : key ≠ config.nullKey)
      (hentries : entries.Perm ((key, text) :: state.entries)) :
      Step state (.insert key text) { state with entries := entries }
  | erase {state : Translators Text} {key : ℕ} {text : Text} {entries : List (ℕ × Text)}
      (hentries : state.entries.Perm ((key, text) :: entries)) :
      Step state (.erase key) { state with entries := entries }
  | translateKey {state : Translators Text} {key : ℕ}
      (hkey : key ∈ state.entries.map Prod.fst) :
      Step state (.translateKey key) (state.translateKey config key).2
  | offer {state : Translators Text} {key : ℕ} (hkey : key ∈ state.entries.map Prod.fst) :
      Step state (.offer key)
        ((state.translateKey config key).2.offer config key (state.translateKey config key).1)
  | fill {state : Translators Text} : Step state .fill (state.fill config)
  | translateHash {state : Translators Text} {hash : ℕ} : Step state (.translateHash hash) state

/-- Both translators answer for the current dictionary. -/
structure Correct (state : Translators Text) : Prop where
  keys : ∀ entry ∈ state.entries, (state.translateKey config entry.1).1 = config.hash entry.2
  hashes : ∀ hash,
    (∃ entry ∈ state.entries, config.hash entry.2 = hash ∧
      state.translateHash config hash = entry.1) ∨
    (∀ entry ∈ state.entries, config.hash entry.2 ≠ hash) ∧
      state.translateHash config hash = config.nullKey

/-- A change of the dictionary leaves no remembered answer wrong. -/
def Undisturbed (state : Translators Text) : Op Text → Prop
  | .insert key text =>
      (state.keyHash (config.keyIndex key)).1 = key →
        (state.keyHash (config.keyIndex key)).2 = config.hash text
  | .erase key => ∀ hash, (state.hashKey (config.hashIndex hash)).1 ≠ key
  | _ => True

/-! ## Coherence -/

/-- The tables agree with the dictionary. -/
structure Coherent (state : Translators Text) : Prop where
  nodup : (state.entries.map Prod.fst).Nodup
  notNull : ∀ entry ∈ state.entries, entry.1 ≠ config.nullKey
  keyHash : ∀ entry ∈ state.entries, (state.keyHash (config.keyIndex entry.1)).1 = entry.1 →
    (state.keyHash (config.keyIndex entry.1)).2 = config.hash entry.2
  hashKey : ∀ slot, (state.hashKey slot).1 ≠ config.nullKey →
    slot = config.hashIndex (state.hashKey slot).2 ∧
      ∃ entry ∈ state.entries, entry.1 = (state.hashKey slot).1 ∧
        config.hash entry.2 = (state.hashKey slot).2

variable {config} {state : Translators Text}

theorem getValue_of_mem (hnodup : (state.entries.map Prod.fst).Nodup) {entry : ℕ × Text}
    (hentry : entry ∈ state.entries) : state.getValue entry.1 = some entry.2 := by
  unfold getValue
  cases hfind : state.entries.find? fun other => other.1 = entry.1 with
  | none =>
      have hnone := List.find?_eq_none.1 hfind entry hentry
      simp at hnone
  | some other =>
      have hsame : other.1 = entry.1 := by simpa using List.find?_some hfind
      have heq : other = entry :=
        List.inj_on_of_nodup_map hnodup (List.mem_of_find?_eq_some hfind) hentry hsame
      rw [Option.map_some, heq]

/-- A translation answers the hash of the string and remembers it. -/
theorem Coherent.translateKey_eq (hcoherent : state.Coherent config) {entry : ℕ × Text}
    (hentry : entry ∈ state.entries) :
    state.translateKey config entry.1 =
      (config.hash entry.2, state.remember config entry.1 (config.hash entry.2)) := by
  unfold translateKey
  simp only [getValue_of_mem hcoherent.nodup hentry]
  split
  · rfl
  · rename_i hcached
    have hkey := not_not.1 hcached
    have hhash := hcoherent.keyHash entry hentry hkey
    have hpair : state.keyHash (config.keyIndex entry.1) = (entry.1, config.hash entry.2) :=
      Prod.ext hkey hhash
    unfold Translators.remember
    rw [← hpair, Function.update_eq_self, hpair]

theorem Coherent.correct (hcoherent : state.Coherent config) : state.Correct config where
  keys entry hentry := by rw [hcoherent.translateKey_eq hentry]
  hashes hash := by
    unfold translateHash
    by_cases hcached : (state.hashKey (config.hashIndex hash)).1 ≠ config.nullKey ∧
        (state.hashKey (config.hashIndex hash)).2 = hash
    · obtain ⟨-, entry, hentry, hkey, hhash⟩ := hcoherent.hashKey _ hcached.1
      exact .inl ⟨entry, hentry, hhash.trans hcached.2, by simp only [if_pos hcached, hkey]⟩
    · simp only [if_neg hcached]
      cases hfind : state.entries.find? fun entry => config.hash entry.2 = hash with
      | some entry =>
          exact .inl ⟨entry, List.mem_of_find?_eq_some hfind,
            by simpa using List.find?_some hfind, rfl⟩
      | none => exact .inr ⟨fun entry hentry => by
          simpa using List.find?_eq_none.1 hfind entry hentry, rfl⟩

theorem Coherent.remember (hcoherent : state.Coherent config) {entry : ℕ × Text}
    (hentry : entry ∈ state.entries) :
    (state.remember config entry.1 (config.hash entry.2)).Coherent config where
  nodup := hcoherent.nodup
  notNull := hcoherent.notNull
  keyHash other hother hkey := by
    simp only [Translators.remember, Function.update_apply] at hkey ⊢
    split at hkey
    · rename_i hslot
      have hsame : entry = other :=
        List.inj_on_of_nodup_map hcoherent.nodup hentry hother hkey
      rw [if_pos hslot, hsame]
    · rename_i hslot
      rw [if_neg hslot]
      exact hcoherent.keyHash other hother hkey
  hashKey := hcoherent.hashKey

theorem Coherent.offer (hcoherent : state.Coherent config) {entry : ℕ × Text}
    (hentry : entry ∈ state.entries) :
    (state.offer config entry.1 (config.hash entry.2)).Coherent config := by
  unfold Translators.offer
  split
  · refine ⟨hcoherent.nodup, hcoherent.notNull, hcoherent.keyHash, fun slot hused => ?_⟩
    simp only [Function.update_apply] at hused ⊢
    split at hused
    · rename_i hslot
      rw [if_pos hslot]
      exact ⟨hslot, entry, hentry, rfl, rfl⟩
    · rename_i hslot
      rw [if_neg hslot]
      exact hcoherent.hashKey slot hused
  · exact hcoherent

theorem offer_entries (state : Translators Text) (key hash : ℕ) :
    (state.offer config key hash).entries = state.entries := by
  unfold Translators.offer
  split
  · rfl
  · rfl

theorem Coherent.fill (hcoherent : state.Coherent config) : (state.fill config).Coherent config := by
  have hall : ∀ (entries : List (ℕ × Text)) (state : Translators Text), state.Coherent config →
      entries ⊆ state.entries → (entries.foldl (fun state entry =>
        state.offer config entry.1 (config.hash entry.2)) state).Coherent config := by
    intro entries
    induction entries with
    | nil => exact fun state hcoherent _ => hcoherent
    | cons entry entries ih =>
        intro state hcoherent hsubset
        obtain ⟨hentry, hrest⟩ := List.cons_subset.1 hsubset
        exact ih _ (hcoherent.offer hentry) (by rwa [offer_entries])
  exact hall state.entries state hcoherent (List.Subset.refl _)

theorem Coherent.step {op : Op Text} {next : Translators Text}
    (hcoherent : state.Coherent config)
    (hstep : Guarded (Undisturbed config) (Step config) state op next) :
    next.Coherent config := by
  obtain ⟨hguard, hstep⟩ := hstep
  cases hstep with
  | insert hfresh hnull hentries =>
      rename_i key text entries
      have hmem : ∀ entry, entry ∈ entries ↔ entry = (key, text) ∨ entry ∈ state.entries :=
        fun entry => hentries.mem_iff.trans List.mem_cons
      refine ⟨?_, fun entry hentry => ?_, fun entry hentry hkey => ?_, fun slot hused => ?_⟩
      · exact (hentries.map Prod.fst).nodup_iff.2 (List.nodup_cons.2 ⟨hfresh, hcoherent.nodup⟩)
      · rcases (hmem entry).1 hentry with rfl | hentry
        · exact hnull
        · exact hcoherent.notNull entry hentry
      · rcases (hmem entry).1 hentry with rfl | hentry
        · exact hguard hkey
        · exact hcoherent.keyHash entry hentry hkey
      · obtain ⟨hslot, entry, hentry, hpair⟩ := hcoherent.hashKey slot hused
        exact ⟨hslot, entry, (hmem entry).2 (.inr hentry), hpair⟩
  | erase hentries =>
      rename_i key text entries
      have hmem : ∀ entry ∈ entries, entry ∈ state.entries := fun entry hentry =>
        hentries.mem_iff.2 (List.mem_cons_of_mem _ hentry)
      refine ⟨?_, fun entry hentry => hcoherent.notNull entry (hmem entry hentry),
        fun entry hentry => hcoherent.keyHash entry (hmem entry hentry), fun slot hused => ?_⟩
      · have hnodup := (hentries.map Prod.fst).nodup_iff.1 hcoherent.nodup
        exact (List.nodup_cons.1 hnodup).2
      · obtain ⟨hslot, entry, hentry, hkey, hhash⟩ := hcoherent.hashKey slot hused
        refine ⟨hslot, entry, ?_, hkey, hhash⟩
        rcases List.mem_cons.1 (hentries.mem_iff.1 hentry) with rfl | hentry
        · exact absurd (hslot ▸ hkey.symm) (hguard (state.hashKey slot).2)
        · exact hentry
  | translateKey hkey =>
      obtain ⟨entry, hentry, rfl⟩ := List.mem_map.1 hkey
      rw [hcoherent.translateKey_eq hentry]
      exact hcoherent.remember hentry
  | offer hkey =>
      obtain ⟨entry, hentry, rfl⟩ := List.mem_map.1 hkey
      rw [hcoherent.translateKey_eq hentry]
      exact (hcoherent.remember hentry).offer hentry
  | fill => exact hcoherent.fill
  | translateHash => exact hcoherent

theorem Coherent.initial : (Translators.initial config).Coherent config where
  nodup := .nil
  notNull := by simp [Translators.initial]
  keyHash := by simp [Translators.initial]
  hashKey := by simp [Translators.initial]

/-- After every run whose changes of the dictionary leave no remembered answer wrong,
both translators answer correctly. -/
theorem translators_correct {ops : List (Op Text)} {last : Translators Text}
    (hrun : Run (Guarded (Undisturbed config) (Step config)) (.initial config) ops last) :
    last.Correct config :=
  (hrun.invariant (fun _ _ _ => Coherent.step) Coherent.initial).correct

/-- Four slots, and numbers that are their own hashes. -/
def sampleConfig : TranslatorConfig ℕ :=
  ⟨4, 0, id⟩

/-- One string. -/
def sampleEntry : Translators ℕ :=
  { Translators.initial sampleConfig with entries := [(1, 5)] }

/-- A string is inserted and its translation offered. -/
theorem translators_correct_sample :
    ((sampleEntry.translateKey sampleConfig 1).2.offer sampleConfig 1
      (sampleEntry.translateKey sampleConfig 1).1).Correct sampleConfig := by
  have hinsert : Guarded (Undisturbed sampleConfig) (Step sampleConfig) (.initial sampleConfig)
      (.insert 1 5) sampleEntry :=
    ⟨fun hkey => absurd hkey (by decide), .insert (by decide) (by decide) (.refl _)⟩
  have hoffer : Guarded (Undisturbed sampleConfig) (Step sampleConfig) sampleEntry (.offer 1)
      ((sampleEntry.translateKey sampleConfig 1).2.offer sampleConfig 1
        (sampleEntry.translateKey sampleConfig 1).1) :=
    ⟨trivial, .offer (by decide)⟩
  exact translators_correct (.cons hinsert (.cons hoffer (.nil _)))

/-- The key of an erased string is used again after it was translated: the translation
is still that of the erased string. -/
theorem translators_not_correct :
    ∃ (ops : List (Op ℕ)) (last : Translators ℕ),
      Run (Step sampleConfig) (.initial sampleConfig) ops last ∧
        ¬ last.Correct sampleConfig := by
  have hinsert : Step sampleConfig (.initial sampleConfig) (.insert 1 5) sampleEntry :=
    .insert (by decide) (by decide) (.refl _)
  have htranslate : Step sampleConfig sampleEntry (.translateKey 1)
      (sampleEntry.translateKey sampleConfig 1).2 := .translateKey (by decide)
  have herase : Step sampleConfig (sampleEntry.translateKey sampleConfig 1).2 (.erase 1)
      { (sampleEntry.translateKey sampleConfig 1).2 with entries := [] } := .erase (.refl _)
  have hagain : Step sampleConfig
      { (sampleEntry.translateKey sampleConfig 1).2 with entries := [] } (.insert 1 6)
      { (sampleEntry.translateKey sampleConfig 1).2 with entries := [(1, 6)] } :=
    .insert (by decide) (by decide) (.refl _)
  refine ⟨_, _, .cons hinsert (.cons htranslate (.cons herase (.cons hagain (.nil _)))), ?_⟩
  intro hcorrect
  exact absurd (hcorrect.keys (1, 6) (by decide)) (by decide)

/-- A step that leaves a remembered answer wrong makes a translation wrong. -/
theorem not_correct_of_not_undisturbed {op : Op Text} {next : Translators Text}
    (hcoherent : state.Coherent config) (hstep : Step config state op next)
    (hdisturbed : ¬ state.Undisturbed config op) : ¬ next.Correct config := by
  intro hcorrect
  cases hstep with
  | insert hfresh hnull hentries =>
      rename_i key text entries
      obtain ⟨hkey, hhash⟩ := Classical.not_imp.1 hdisturbed
      have hanswer := hcorrect.keys (key, text) (hentries.mem_iff.2 List.mem_cons_self)
      unfold translateKey at hanswer
      rw [if_neg (not_not.2 hkey)] at hanswer
      exact hhash hanswer
  | erase hentries =>
      rename_i key text entries
      obtain ⟨hash, hcached⟩ := not_forall.1 hdisturbed
      have hkey := not_not.1 hcached
      have hnull : key ≠ config.nullKey :=
        hcoherent.notNull (key, text) (hentries.mem_iff.2 List.mem_cons_self)
      have hgone : key ∉ entries.map Prod.fst := by
        have hnodup := (hentries.map Prod.fst).nodup_iff.1 hcoherent.nodup
        exact (List.nodup_cons.1 hnodup).1
      obtain ⟨hslot, -⟩ := hcoherent.hashKey (config.hashIndex hash) (by rwa [hkey])
      -- the erased key is still the answer for its hash
      have hanswer : ({ state with entries := entries } : Translators Text).translateHash config
          (state.hashKey (config.hashIndex hash)).2 = key := by
        unfold translateHash
        rw [← hslot]
        exact (if_pos ⟨by rwa [hkey], rfl⟩).trans hkey
      rcases hcorrect.hashes (state.hashKey (config.hashIndex hash)).2 with
        ⟨entry, hentry, -, hentryKey⟩ | ⟨-, hnone⟩
      · rw [hanswer] at hentryKey
        exact hgone (hentryKey ▸ List.mem_map_of_mem hentry)
      · exact hnull (hanswer.symm.trans hnone)
  | translateKey hkey => exact hdisturbed trivial
  | offer hkey => exact hdisturbed trivial
  | fill => exact hdisturbed trivial
  | translateHash => exact hdisturbed trivial

/-- After a run that leaves no remembered answer wrong, the translations are right behind one more
step exactly if that step leaves none wrong. -/
theorem correct_iff_undisturbed {ops : List (Op Text)} {op : Op Text} {next : Translators Text}
    (hrun : Run (Guarded (Undisturbed config) (Step config)) (.initial config) ops state)
    (hstep : Step config state op next) :
    next.Correct config ↔ state.Undisturbed config op := by
  have hcoherent := hrun.invariant (fun _ _ _ => Coherent.step) Coherent.initial
  constructor
  · intro hcorrect
    by_contra hdisturbed
    exact not_correct_of_not_undisturbed hcoherent hstep hdisturbed hcorrect
  · intro hundisturbed
    exact (hcoherent.step ⟨hundisturbed, hstep⟩).correct

/-- The only string is erased before anything is translated. -/
theorem correct_iff_undisturbed_sample :
    ({ sampleEntry with entries := [] } : Translators ℕ).Correct sampleConfig ↔
      sampleEntry.Undisturbed sampleConfig (.erase 1) := by
  have hinsert : Guarded (Undisturbed sampleConfig) (Step sampleConfig) (.initial sampleConfig)
      (.insert 1 5) sampleEntry :=
    ⟨fun hkey => absurd hkey (by decide), .insert (by decide) (by decide) (.refl _)⟩
  exact correct_iff_undisturbed (.cons hinsert (.nil _)) (.erase (.refl _))

end Translators

end Wiselib.Inqp
