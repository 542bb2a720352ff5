import Wiselib.Library.Refinement

/-!
# The cached block memory

`CachedBlockMemory` of `algorithms/block_memory/cached_block_memory.h`: a block
memory in front of another one, with `CACHE_SIZE` slots of which the first
`SPECIAL_AREA_SIZE` are reserved for the addresses in the special range.  Slots
carry an access date; date `0` marks a slot unused, and the date counter skips
it when it wraps.

`refines_plainMemory` compares the cache with a block memory that has none.
Two facts carry the proof: a cached address lies in the slots its own search
looks at (`Refines.home`), and no two slots hold the same address
(`Refines.unique`); together they make `find` return the slot of a cached
address whenever there is one.  Dates only decide which slot is given up, so
that the wrap of the counter does not matter.
-/

namespace Wiselib.CachedBlockMemory

open Transition

/-- The template parameters and the width of `size_type`. -/
structure Config where
  cacheSize : ℕ
  specialAreaSize : ℕ
  writeThrough : Bool
  sizeBits : ℕ
  cacheSize_pos : 0 < cacheSize
  special_le : specialAreaSize ≤ cacheSize
  cacheSize_lt : cacheSize < 2 ^ sizeBits

/-- `(size_type)(-1)`. -/
def Config.npos (config : Config) : ℕ := 2 ^ config.sizeBits - 1

structure CacheEntry (Block : Type*) where
  data : Block
  address : ℕ
  date : ℕ

variable {Block : Type*}

def CacheEntry.used (entry : CacheEntry Block) : Bool := entry.date != 0

/-- The members, the static date counter and the backing block memory. -/
structure Memory (Block : Type*) where
  cache : ℕ → CacheEntry Block
  start : ℕ
  stop : ℕ
  currentDate : ℕ
  backing : ℕ → Block

/-- `init` clears the slots and not the date counter, which is static.  `blank`
is a block of zeros. -/
def init (config : Config) (blank : Block) (currentDate : ℕ) (backing : ℕ → Block) :
    Memory Block :=
  ⟨fun _ => ⟨blank, 0, 0⟩, 0, config.npos, currentDate, backing⟩

def setSpecialRange (memory : Memory Block) (start stop : ℕ) : Memory Block :=
  { memory with start := start, stop := stop }

def inSpecialArea (memory : Memory Block) (a : ℕ) : Bool :=
  memory.start ≤ a && a < memory.stop

/-- The slots `find` looks at for address `a`, from the first one to before the
second one. -/
def slotRange (config : Config) (memory : Memory Block) (a : ℕ) : ℕ × ℕ :=
  if inSpecialArea memory a then (0, config.specialAreaSize)
  else (config.specialAreaSize, config.cacheSize)

/-- The loop of `find`, with `remaining` slots left to look at. -/
def findFrom (config : Config) (cache : ℕ → CacheEntry Block) (a : ℕ) :
    (remaining i lowestIdx lowestDate unusedIdx : ℕ) → ℕ
  | 0, _, lowestIdx, _, unusedIdx =>
      if unusedIdx ≠ config.npos then unusedIdx else lowestIdx
  | remaining + 1, i, lowestIdx, lowestDate, unusedIdx =>
      if (cache i).used then
        if (cache i).address = a then i
        else if (cache i).date ≤ lowestDate then
          findFrom config cache a remaining (i + 1) i (cache i).date unusedIdx
        else findFrom config cache a remaining (i + 1) lowestIdx lowestDate unusedIdx
      else if unusedIdx = config.npos then
        findFrom config cache a remaining (i + 1) lowestIdx lowestDate i
      else findFrom config cache a remaining (i + 1) lowestIdx lowestDate unusedIdx

/-- `find`. -/
def find (config : Config) (memory : Memory Block) (a : ℕ) : ℕ :=
  let (start, stop) := slotRange config memory a
  findFrom config memory.cache a (stop - start) start 0 config.npos config.npos

/-- `physical_write`. -/
def physicalWrite (memory : Memory Block) (data : Block) (a : ℕ) : Memory Block :=
  { memory with backing := Function.update memory.backing a data }

/-- Put `data` for address `a` into slot `i` with `mark_used`. -/
def store (config : Config) (memory : Memory Block) (i : ℕ) (data : Block) (a : ℕ) :
    Memory Block :=
  -- date 0 is skipped, it means "unused"
  let date :=
    if memory.currentDate = 0 then (memory.currentDate + 1) % 2 ^ config.sizeBits
    else memory.currentDate
  { memory with
    cache := Function.update memory.cache i ⟨data, a, date⟩
    currentDate := (date + 1) % 2 ^ config.sizeBits }

/-- `get`. -/
def get (config : Config) (memory : Memory Block) (a : ℕ) : Memory Block × Block :=
  let i := find config memory a
  let entry := memory.cache i
  if entry.used ∧ entry.address = a then (memory, entry.data)
  else
    let evicted :=
      if !config.writeThrough ∧ entry.used then physicalWrite memory entry.data entry.address
      else memory
    let filled := store config evicted i (evicted.backing a) a
    (filled, (filled.cache i).data)

/-- `update`. -/
def update (config : Config) (memory : Memory Block) (data : Block) (a : ℕ) : Memory Block :=
  let i := find config memory a
  let entry := memory.cache i
  if entry.used ∧ entry.address ≠ a then
    if config.writeThrough then memory
    else store config (physicalWrite memory entry.data entry.address) i data a
  else store config memory i data a

/-- `write`. -/
def write (config : Config) (memory : Memory Block) (data : Block) (a : ℕ) : Memory Block :=
  let updated := update config memory data a
  if config.writeThrough then physicalWrite updated data a else updated

/-! ## The cache and a memory without one -/

/-- `read` copies out what `get` returns. -/
inductive Op (Block : Type*) where
  | read (a : ℕ)
  | write (data : Block) (a : ℕ)
  | get (a : ℕ)

/-- One call, and the block it returns. -/
def perform (config : Config) (memory : Memory Block) : Op Block → Memory Block × Option Block
  | .read a => ((get config memory a).1, some (get config memory a).2)
  | .write data a => (write config memory data a, none)
  | .get a => ((get config memory a).1, some (get config memory a).2)

/-- A block memory without a cache: every address holds what was written last. -/
def plain (memory : ℕ → Block) : Op Block → (ℕ → Block) × Option Block
  | .read a => (memory, some (memory a))
  | .write data a => (Function.update memory a data, none)
  | .get a => (memory, some (memory a))

/-- No address occupies two slots of the cache. -/
def AtMostOneSlot (config : Config) (memory : Memory Block) : Prop :=
  ∀ i < config.cacheSize, ∀ j < config.cacheSize, (memory.cache i).used → (memory.cache j).used →
    (memory.cache i).address = (memory.cache j).address → i = j

/-! ## What `find` returns -/

theorem Config.lt_npos (config : Config) {i : ℕ} (hi : i < config.cacheSize) :
    i < config.npos := by
  have := config.cacheSize_lt
  rw [Config.npos]
  omega

/-- The slot that is found lies in the range that is searched, unless that is
empty, and it holds the address if any slot still to be searched does. -/
private theorem findFrom_spec (config : Config) {cache : ℕ → CacheEntry Block} (a : ℕ) {low : ℕ}
    (hdate : ∀ i, (cache i).date ≤ config.npos) :
    ∀ remaining i lowestIdx lowestDate unusedIdx : ℕ, low ≤ i →
      i + remaining ≤ config.cacheSize →
      (unusedIdx ≠ config.npos → low ≤ unusedIdx ∧ unusedIdx < i + remaining) →
      (lowestDate ≠ config.npos → low ≤ lowestIdx ∧ lowestIdx < i + remaining) →
      (i = low ∨ unusedIdx ≠ config.npos ∨ low ≤ lowestIdx ∧ lowestIdx < i + remaining) →
      let found := findFrom config cache a remaining i lowestIdx lowestDate unusedIdx
      (low < i + remaining → low ≤ found ∧ found < i + remaining) ∧
        ∀ j, i ≤ j → j < i + remaining → (cache j).used = true → (cache j).address = a →
          (cache found).used = true ∧ (cache found).address = a := by
  intro remaining
  induction remaining with
  | zero =>
      intro i lowestIdx lowestDate unusedIdx hlow _ hunused _ hany
      refine ⟨fun hne => ?_, fun j hj hj' => by omega⟩
      rw [findFrom]
      split_ifs with hfree
      · exact hunused hfree
      · rcases hany with rfl | hfree' | hlowest
        · omega
        · exact absurd hfree' hfree
        · exact hlowest
  | succ remaining ih =>
      intro i lowestIdx lowestDate unusedIdx hlow hsize hunused hlowest _
      have hstop : i + (remaining + 1) = i + 1 + remaining := by omega
      rw [hstop] at hsize hunused hlowest ⊢
      -- whatever the loop goes on with, slot `i` itself does not hold the address
      have hskip : ∀ {found : ℕ}, ¬ ((cache i).used = true ∧ (cache i).address = a) →
          ((low < i + 1 + remaining → low ≤ found ∧ found < i + 1 + remaining) ∧
            ∀ j, i + 1 ≤ j → j < i + 1 + remaining → (cache j).used = true →
              (cache j).address = a → (cache found).used = true ∧ (cache found).address = a) →
          (low < i + 1 + remaining → low ≤ found ∧ found < i + 1 + remaining) ∧
            ∀ j, i ≤ j → j < i + 1 + remaining → (cache j).used = true →
              (cache j).address = a → (cache found).used = true ∧ (cache found).address = a := by
        rintro found hnot ⟨hrange, hholder⟩
        refine ⟨hrange, fun j hj hj' hused haddr => ?_⟩
        rcases eq_or_ne j i with rfl | hne
        · exact absurd ⟨hused, haddr⟩ hnot
        · exact hholder j (by omega) hj' hused haddr
      rw [findFrom]
      split_ifs with hused haddr hearlier hfree
      · exact ⟨fun _ => ⟨hlow, by omega⟩, fun _ _ _ _ _ => ⟨hused, haddr⟩⟩
      · exact hskip (by simp [haddr]) <| ih _ _ _ _ (by omega) hsize hunused (fun _ => ⟨hlow, by omega⟩)
          (.inr (.inr ⟨hlow, by omega⟩))
      · have hseen : lowestDate ≠ config.npos := by
          have := hdate i
          omega
        exact hskip (by simp [haddr]) <| ih _ _ _ _ (by omega) hsize hunused hlowest
          (.inr (.inr (hlowest hseen)))
      · exact hskip (by simp [hused]) <| ih _ _ _ _ (by omega) hsize (fun _ => ⟨hlow, by omega⟩) hlowest
          (.inr (.inl (config.lt_npos (by omega)).ne))
      · exact hskip (by simp [hused]) <| ih _ _ _ _ (by omega) hsize hunused hlowest (.inr (.inl hfree))

/-- Slot `i` is one that `find` may return for address `a`: slot 0 when the range
to search is empty. -/
def Home (config : Config) (memory : Memory Block) (a i : ℕ) : Prop :=
  let (start, stop) := slotRange config memory a
  if start < stop then start ≤ i ∧ i < stop else i = 0

theorem find_spec (config : Config) {memory : Memory Block}
    (hdate : ∀ i, (memory.cache i).date ≤ config.npos) (a : ℕ) :
    Home config memory a (find config memory a) ∧
      ∀ j, Home config memory a j → (memory.cache j).used = true → (memory.cache j).address = a →
        (memory.cache (find config memory a)).used = true ∧
          (memory.cache (find config memory a)).address = a := by
  have hstop : (slotRange config memory a).2 ≤ config.cacheSize := by
    have := config.special_le
    unfold slotRange
    split_ifs
    · exact this
    · exact le_rfl
  unfold find Home
  generalize slotRange config memory a = range at hstop ⊢
  obtain ⟨start, stop⟩ := range
  dsimp only at hstop ⊢
  by_cases hrange : start < stop
  · have hspec := findFrom_spec config a hdate (stop - start) start 0 config.npos config.npos
      le_rfl (by omega) (by simp) (by simp) (.inl rfl)
    rw [Nat.add_sub_cancel' hrange.le] at hspec
    simp only [if_pos hrange]
    exact ⟨hspec.1 hrange, fun j hj => hspec.2 j hj.1 hj.2⟩
  · have hempty : stop - start = 0 := by omega
    simp only [if_neg hrange, hempty, findFrom, ne_eq, not_true, if_false, true_and]
    rintro j rfl hused haddr
    exact ⟨hused, haddr⟩

/-! ## The cache refines the plain memory -/

/-- The cache holds the contents `model`: a cached address is at home, in one slot
and with its contents, and the backing memory has the contents of every address
that is not cached, or of every address when writes go through. -/
structure Refines (config : Config) (memory : Memory Block) (model : ℕ → Block) : Prop where
  home : ∀ i, (memory.cache i).used → Home config memory (memory.cache i).address i
  unique : ∀ i j, (memory.cache i).used → (memory.cache j).used →
    (memory.cache i).address = (memory.cache j).address → i = j
  cached : ∀ i, (memory.cache i).used → (memory.cache i).data = model (memory.cache i).address
  backed : ∀ a, (config.writeThrough ∨ ∀ i, (memory.cache i).used → (memory.cache i).address ≠ a) →
    memory.backing a = model a
  dated : ∀ i, (memory.cache i).date ≤ config.npos
  counted : memory.currentDate ≤ config.npos

theorem Refines.atMostOneSlot {config : Config} {memory : Memory Block} {model : ℕ → Block}
    (hrefines : Refines config memory model) : AtMostOneSlot config memory :=
  fun i _ j _ hi hj haddr => hrefines.unique i j hi hj haddr

theorem refines_init (config : Config) (blank : Block) {currentDate : ℕ}
    (hdate : currentDate ≤ config.npos) (backing : ℕ → Block) (start stop : ℕ) :
    Refines config (setSpecialRange (init config blank currentDate backing) start stop) backing := by
  refine ⟨?_, ?_, ?_, fun a _ => rfl, fun i => Nat.zero_le _, hdate⟩ <;>
    simp [setSpecialRange, init, CacheEntry.used]

section Store

variable {config : Config} {memory : Memory Block} {model : ℕ → Block}

theorem store_entry (config : Config) (memory : Memory Block)
    (hcount : memory.currentDate ≤ config.npos) (i : ℕ) (data : Block) (a : ℕ) :
    ∃ date, date ≠ 0 ∧ date ≤ config.npos ∧
      (store config memory i data a).cache = Function.update memory.cache i ⟨data, a, date⟩ ∧
      (store config memory i data a).currentDate ≤ config.npos := by
  have hpos : 1 < 2 ^ config.sizeBits := by
    have := config.cacheSize_pos
    have := config.cacheSize_lt
    omega
  have hmod : (store config memory i data a).currentDate < 2 ^ config.sizeBits :=
    Nat.mod_lt _ (by omega)
  have hle : (store config memory i data a).currentDate ≤ config.npos := by
    rw [Config.npos]
    omega
  by_cases hzero : memory.currentDate = 0
  · refine ⟨1, one_ne_zero, by rw [Config.npos]; omega, ?_, hle⟩
    simp [store, hzero, Nat.mod_eq_of_lt hpos]
  · exact ⟨memory.currentDate, hzero, hcount, by simp [store, hzero], hle⟩

theorem store_data (config : Config) (memory : Memory Block) (i : ℕ) (data : Block) (a : ℕ) :
    ((CachedBlockMemory.store config memory i data a).cache i).data = data := by
  unfold CachedBlockMemory.store
  dsimp only
  rw [Function.update_self]

/-- Storing `model a` for `a` in the slot `find` returns keeps the refinement, when
the backing memory has what is not cached any more. -/
theorem Refines.store (hrefines : Refines config memory model) (backing : ℕ → Block)
    {model' : ℕ → Block} {a : ℕ}
    (hmodel : ∀ b, b ≠ a → model' b = model b)
    (hbacking : ∀ b, (config.writeThrough ∨ b ≠ a ∧ ∀ i, i ≠ find config memory a →
      (memory.cache i).used → (memory.cache i).address ≠ b) → backing b = model' b) :
    Refines config
      (store config { memory with backing := backing } (find config memory a) (model' a) a)
      model' := by
  obtain ⟨hhome, hholder⟩ := find_spec config hrefines.dated a
  generalize find config memory a = found at *
  obtain ⟨date, hdate, hle, hcache, hcount⟩ := store_entry config
    { memory with backing := backing } hrefines.counted found (model' a) a
  -- a slot other than the found one holds another address
  have hother : ∀ i, i ≠ found → (memory.cache i).used → (memory.cache i).address ≠ a := by
    intro i hne hused haddr
    obtain ⟨hfound, hfoundAddr⟩ := hholder i (haddr ▸ hrefines.home i hused) hused haddr
    exact hne (hrefines.unique i _ hused hfound (haddr.trans hfoundAddr.symm))
  have hnew : ∀ i, i ≠ found → Function.update memory.cache found ⟨model' a, a, date⟩ i =
      memory.cache i := fun i hne => Function.update_of_ne hne _ _
  refine ⟨?_, ?_, ?_, ?_, ?_, hcount⟩ <;> rw [hcache]
  · intro i hused
    by_cases hfound : i = found
    · rw [hfound, Function.update_self]
      exact hhome
    · rw [hnew i hfound] at hused ⊢
      exact hrefines.home i hused
  · intro i j hi hj haddr
    by_cases hi' : i = found <;> by_cases hj' : j = found
    · rw [hi', hj']
    · rw [hi', hnew j hj', Function.update_self] at haddr
      rw [hnew j hj'] at hj
      exact absurd haddr.symm (hother j hj' hj)
    · rw [hj', hnew i hi', Function.update_self] at haddr
      rw [hnew i hi'] at hi
      exact absurd haddr (hother i hi' hi)
    · rw [hnew i hi'] at hi haddr
      rw [hnew j hj'] at hj haddr
      exact hrefines.unique i j hi hj haddr
  · intro i hused
    rcases eq_or_ne i found with rfl | hne
    · simp
    · rw [hnew i hne] at hused ⊢
      rw [hmodel _ (hother i hne hused)]
      exact hrefines.cached i hused
  · rintro b (hthrough | huncached)
    · exact hbacking b (.inl hthrough)
    · refine hbacking b (.inr ⟨?_, fun i hne hused => ?_⟩)
      · have hfound := huncached found
        rw [Function.update_self] at hfound
        exact fun heq => hfound (by simpa [CacheEntry.used] using hdate) heq.symm
      · have hi := huncached i
        rw [hnew i hne] at hi
        exact hi hused
  · intro i
    rcases eq_or_ne i found with rfl | hne
    · simpa using hle
    · rw [hnew i hne]
      exact hrefines.dated i

theorem Refines.not_cached (hrefines : Refines config memory model) (a : ℕ)
    (hmiss : ¬ ((memory.cache (find config memory a)).used = true ∧
      (memory.cache (find config memory a)).address = a)) (i : ℕ)
    (hused : (memory.cache i).used = true) : (memory.cache i).address ≠ a := fun haddr =>
  hmiss ((find_spec config hrefines.dated a).2 i (haddr ▸ hrefines.home i hused) hused haddr)

/-- Once slot `i` is written back, the backing memory has every address that no
other slot holds. -/
theorem Refines.backed_of_evict (hrefines : Refines config memory model) (i : ℕ) {b : ℕ}
    (hother : ∀ j, j ≠ i → (memory.cache j).used → (memory.cache j).address ≠ b) :
    Function.update memory.backing (memory.cache i).address (memory.cache i).data b = model b ∨
      (memory.cache i).used = false := by
  cases hused : (memory.cache i).used with
  | false => exact .inr rfl
  | true =>
      left
      by_cases haddr : b = (memory.cache i).address
      · rw [haddr, Function.update_self]
        exact hrefines.cached i hused
      · rw [Function.update_of_ne haddr]
        refine hrefines.backed b (.inr fun j hj => ?_)
        by_cases hji : j = i
        · rw [hji]
          exact fun heq => haddr heq.symm
        · exact hother j hji hj

/-- An address that no slot but an unused one holds is backed. -/
theorem Refines.backed_of_unused (hrefines : Refines config memory model) {i b : ℕ}
    (hunused : (memory.cache i).used → (memory.cache i).address ≠ b)
    (hother : ∀ j, j ≠ i → (memory.cache j).used → (memory.cache j).address ≠ b) :
    memory.backing b = model b := by
  refine hrefines.backed b (.inr fun j hj => ?_)
  by_cases hji : j = i
  · rw [hji] at hj ⊢
    exact hunused hj
  · exact hother j hji hj

theorem Refines.get (hrefines : Refines config memory model) (a : ℕ) :
    Refines config (get config memory a).1 model ∧ (get config memory a).2 = model a := by
  unfold CachedBlockMemory.get
  dsimp only
  split_ifs with hhit hdirty
  · exact ⟨hrefines, by rw [hrefines.cached _ hhit.1, hhit.2]⟩
  all_goals have hmiss := hrefines.not_cached a hhit
  · -- the slot is written back before it is given up
    have hwrites : config.writeThrough = false := by simpa using hdirty.1
    have hbacking : ∀ b, (∀ j, j ≠ find config memory a → (memory.cache j).used →
        (memory.cache j).address ≠ b) → (physicalWrite memory
          (memory.cache (find config memory a)).data
          (memory.cache (find config memory a)).address).backing b = model b := fun b hother =>
      (hrefines.backed_of_evict _ hother).resolve_right (by simp [hdirty.2])
    rw [hbacking a fun j _ => hmiss j]
    refine ⟨hrefines.store _ (fun _ _ => rfl) ?_, store_data config _ _ _ _⟩
    rintro b (hthrough | ⟨-, hother⟩)
    · simp [hwrites] at hthrough
    · exact hbacking b hother
  · rw [hrefines.backed a (.inr hmiss)]
    refine ⟨hrefines.store _ (fun _ _ => rfl) ?_, store_data config _ _ _ _⟩
    rintro b (hthrough | ⟨-, hother⟩)
    · exact hrefines.backed b (.inl hthrough)
    · cases hmode : config.writeThrough with
      | true => exact hrefines.backed b (.inl hmode)
      | false =>
          refine hrefines.backed_of_unused (fun hused => ?_) hother
          exact absurd ⟨by simp [hmode], hused⟩ hdirty

theorem Refines.write (hrefines : Refines config memory model) (data : Block) (a : ℕ) :
    Refines config (write config memory data a) (Function.update model a data) := by
  have hmodel : ∀ b, b ≠ a → Function.update model a data b = model b :=
    fun b hne => Function.update_of_ne hne _ _
  have hself : Function.update model a data a = data := Function.update_self _ _ _
  unfold CachedBlockMemory.write update
  dsimp only
  cases hmode : config.writeThrough with
  | true =>
      have hbacking : ∀ b, Function.update memory.backing a data b =
          Function.update model a data b := by
        intro b
        by_cases hba : b = a
        · rw [hba, Function.update_self, Function.update_self]
        · rw [Function.update_of_ne hba, hmodel b hba, hrefines.backed b (.inl hmode)]
      rw [if_pos rfl, if_pos rfl]
      split_ifs with hforeign
      · -- the slot belongs to another address and is left alone
        have hmiss := hrefines.not_cached a fun hhit => hforeign.2 hhit.2
        refine ⟨hrefines.home, hrefines.unique, fun i hused => ?_, fun b _ => hbacking b,
          hrefines.dated, hrefines.counted⟩
        exact (hrefines.cached i hused).trans (hmodel _ (hmiss i hused)).symm
      · have hstore := hrefines.store (Function.update memory.backing a data) hmodel
          fun b _ => hbacking b
        rw [hself] at hstore
        exact hstore
  | false =>
      simp only [Bool.false_eq_true, if_false]
      split_ifs with hforeign
      · have hstore := hrefines.store ((physicalWrite memory
            (memory.cache (find config memory a)).data
            (memory.cache (find config memory a)).address).backing) hmodel ?_
        · rw [hself] at hstore
          exact hstore
        · rintro b (hthrough | ⟨hne, hother⟩)
          · simp [hmode] at hthrough
          · rw [hmodel b hne]
            exact (hrefines.backed_of_evict _ hother).resolve_right (by simp [hforeign.1])
      · have hstore := hrefines.store memory.backing hmodel ?_
        · rw [hself] at hstore
          exact hstore
        · rintro b (hthrough | ⟨hne, hother⟩)
          · simp [hmode] at hthrough
          · rw [hmodel b hne]
            refine hrefines.backed_of_unused (fun hused heq => ?_) hother
            exact hforeign ⟨hused, fun haddr => hne (heq.symm.trans haddr)⟩

end Store

theorem simulates_plain (config : Config) :
    Simulates (Refines config) (perform config) (plain : (ℕ → Block) → _ → _) := by
  intro memory model op hrefines
  cases op with
  | read a => exact ⟨(hrefines.get a).1, congrArg some (hrefines.get a).2⟩
  | write data a => exact ⟨hrefines.write data a, rfl⟩
  | get a => exact ⟨(hrefines.get a).1, congrArg some (hrefines.get a).2⟩

/-- Whatever the size and mode of the cache, the special range and the value the
date counter starts from, calls return what a memory without a cache returns,
and no address is cached twice. -/
theorem refines_plainMemory (config : Config) (blank : Block) (currentDate : ℕ)
    (hdate : currentDate ≤ config.npos) (backing : ℕ → Block) (start stop : ℕ)
    (operations : List (Op Block)) :
    let first := setSpecialRange (init config blank currentDate backing) start stop
    outputs (perform config) first operations = outputs plain backing operations ∧
      AtMostOneSlot config (finalState (perform config) first operations) := by
  have hfirst := refines_init config blank hdate backing start stop
  exact ⟨(simulates_plain config).outputs_eq hfirst operations,
    ((simulates_plain config).finalState hfirst operations).atMostOneSlot⟩

/-- Two slots, one of them special, and a date counter of two bits that is about
to wrap: address 6 takes the slot of address 5, which comes back with its contents. -/
theorem refines_plainMemory_two_slots :
    let config : Config := ⟨2, 1, false, 2, by decide, by decide, by decide⟩
    let first := setSpecialRange (init config 0 3 fun a => a) 0 4
    3 ≤ config.npos ∧
      outputs (perform config) first [.write 7 5, .get 6, .read 5] = [none, some 6, some 7] ∧
      AtMostOneSlot config (finalState (perform config) first [.write 7 5, .get 6, .read 5]) := by
  intro config first
  have hplain : outputs plain (fun a => a) [.write 7 5, .get 6, .read 5] =
      [none, some 6, some 7] := by decide
  have hrefines := refines_plainMemory config 0 3 (by decide) (fun a => a) 0 4
    [.write 7 5, .get 6, .read 5]
  exact ⟨by decide, hrefines.1.trans hplain, hrefines.2⟩

end Wiselib.CachedBlockMemory
