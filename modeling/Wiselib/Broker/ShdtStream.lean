import Wiselib.Broker.ShdtSerializer

/-!
# The stream of the SHDT serializer

`readAll_writeAll` proves that a fresh serializer reads back what another one has
written, for every sequence of tuples and every sequence of buffer sizes: the
tuples that were taken, in order, and a slot that the sender's table fills holds
the same string in the receiver's table.

## Strategy

* On the wire, `readAll` over an insert command is `readAll` with the slot filled,
  and `readAll` over a tuple yields the strings of its slots (`Reads`).
* The sender's table is a part of the receiver's (`Mirrors`).  An insertion that
  finds no room empties a slot or leaves the table alone, and writes nothing.
* The three slots of a tuple are different, so the later insertions of a tuple
  leave the slots of its earlier strings alone.
-/

namespace Wiselib.Broker.Shdt

variable {config : Config}

/-! ## Commands on the wire -/

theorem Config.pow_pos (config : Config) : 0 < 256 ^ config.idBytes :=
  Nat.pow_pos (by decide)

theorem Config.id_lt_nidx {id : ℕ} (hid : id < config.tableSize) : id < config.nidx :=
  hid.trans_le config.ids_below

theorem Config.id_fits {id : ℕ} (hid : id < config.tableSize) : id < 256 ^ config.idBytes :=
  (config.id_lt_nidx hid).trans_le (Nat.sub_le _ _)

theorem Config.nidx_fits (config : Config) : config.nidx < 256 ^ config.idBytes :=
  Nat.sub_lt config.pow_pos Nat.one_pos

theorem take_writeNumber (count n : ℕ) (rest : List UInt8) :
    (writeNumber count n ++ rest).take count = writeNumber count n :=
  List.take_left' (length_writeNumber count n)

theorem drop_writeNumber (count n : ℕ) (rest : List UInt8) :
    (writeNumber count n ++ rest).drop count = rest :=
  List.drop_left' (length_writeNumber count n)

theorem CString.read_append (data : CString) (rest : List UInt8) :
    CString.read (data.bytes ++ 0 :: rest) = data := by
  obtain ⟨bytes, hnul⟩ := data
  have htake : (bytes ++ 0 :: rest).takeWhile (fun byte => byte ≠ 0) = bytes := by
    rw [List.takeWhile_append_of_pos]
    · simp
    · intro byte hbyte
      have hne : byte ≠ 0 := fun hzero => hnul (hzero ▸ hbyte)
      simpa using hne
  unfold CString.read
  simp only [CString.mk.injEq]
  exact htake

theorem readCommand_insertCommand {id : ℕ} (hid : id < config.tableSize) (table : Table)
    (data : CString) (rest : List UInt8) :
    readCommand config table (insertCommand config id data ++ rest) =
      some (Function.update table id (some data), none, rest) := by
  have hbytes : insertCommand config id data ++ rest =
      writeNumber config.idBytes config.nidx ++
        0xfe :: (writeNumber config.idBytes id ++ (data.bytes ++ 0 :: rest)) := by
    simp [insertCommand]
  have hlong : ¬ (writeNumber config.idBytes config.nidx ++
      0xfe :: (writeNumber config.idBytes id ++ (data.bytes ++ 0 :: rest))).length <
        config.idBytes := by
    rw [List.length_append, length_writeNumber]
    omega
  have hbehind : ¬ ((writeNumber config.idBytes id ++ (data.bytes ++ 0 :: rest)).length <
      config.idBytes ∨ ¬ id < config.tableSize ∨ 0 ∉ data.bytes ++ 0 :: rest) := by
    rw [List.length_append, length_writeNumber]
    intro hbad
    rcases hbad with hshort | hbeside | hendless
    · omega
    · exact hbeside hid
    · exact hendless (List.mem_append_right _ List.mem_cons_self)
  have hdrop : (data.bytes ++ 0 :: rest).drop (data.bytes.length + 1) = rest := by
    rw [← List.drop_drop, List.drop_left, List.drop_one, List.tail_cons]
  rw [hbytes, readCommand, if_neg hlong]
  simp only [take_writeNumber, drop_writeNumber, readNumber_writeNumber config.nidx_fits,
    readNumber_writeNumber (config.id_fits hid), CString.read_append, if_true, if_neg hbehind,
    hdrop]

theorem readCommand_tupleCommand {ids : Tuple ℕ} (hfirst : ids.first < config.tableSize)
    (hsecond : ids.second < config.tableSize) (hthird : ids.third < config.tableSize)
    (table : Table) (rest : List UInt8) :
    readCommand config table (tupleCommand config ids ++ rest) =
      some (table, some ⟨table ids.first, table ids.second, table ids.third⟩, rest) := by
  have hbytes : tupleCommand config ids ++ rest =
      writeNumber config.idBytes ids.first ++ (writeNumber config.idBytes ids.second ++
        (writeNumber config.idBytes ids.third ++ rest)) := by
    simp [tupleCommand]
  have hlong : ¬ (writeNumber config.idBytes ids.first ++ (writeNumber config.idBytes ids.second ++
      (writeNumber config.idBytes ids.third ++ rest))).length < config.idBytes := by
    rw [List.length_append, length_writeNumber]
    omega
  have hbehind : ¬ ((writeNumber config.idBytes ids.second ++
        (writeNumber config.idBytes ids.third ++ rest)).length < 2 * config.idBytes ∨
      ¬ ids.first < config.tableSize ∨ ¬ ids.second < config.tableSize ∨
        ¬ ids.third < config.tableSize) := by
    rw [List.length_append, List.length_append, length_writeNumber, length_writeNumber]
    intro hbad
    rcases hbad with hshort | hbeside | hbeside | hbeside
    · omega
    · exact hbeside hfirst
    · exact hbeside hsecond
    · exact hbeside hthird
  have hdrop : (writeNumber config.idBytes ids.second ++
      (writeNumber config.idBytes ids.third ++ rest)).drop (2 * config.idBytes) = rest := by
    rw [Nat.two_mul, ← List.drop_drop, drop_writeNumber, drop_writeNumber]
  rw [hbytes, readCommand, if_neg hlong]
  simp only [take_writeNumber, drop_writeNumber, readNumber_writeNumber (config.id_fits hfirst),
    readNumber_writeNumber (config.id_fits hsecond), readNumber_writeNumber (config.id_fits hthird),
    if_neg (config.id_lt_nidx hfirst).ne, if_neg hbehind, hdrop]

/-! ## Reading a stream -/

/-- Reading the bytes yields these tuples and leads from one table to the other,
whatever comes behind. -/
def Reads (config : Config) (before : Table) (bytes : List UInt8)
    (tuples : List (Tuple (Option CString))) (after : Table) : Prop :=
  ∀ rest, readAll config before (bytes ++ rest) =
    (readAll config after rest).map fun result => (result.1, tuples ++ result.2)

theorem Reads.nil (table : Table) : Reads config table [] [] table := by
  intro rest
  simp

theorem Reads.append {first second third : Table} {bytes more : List UInt8}
    {tuples others : List (Tuple (Option CString))} (hfirst : Reads config first bytes tuples second)
    (hsecond : Reads config second more others third) :
    Reads config first (bytes ++ more) (tuples ++ others) third := by
  intro rest
  rw [List.append_assoc, hfirst, hsecond, Option.map_map]
  congr 1
  funext result
  simp

theorem Reads.insert {id : ℕ} (hid : id < config.tableSize) (table : Table) (data : CString) :
    Reads config table (insertCommand config id data) []
      (Function.update table id (some data)) := by
  intro rest
  have hne : insertCommand config id data ++ rest ≠ [] := by
    simp [insertCommand]
  have hbuffer := readBuffer_of_none hne (readCommand_insertCommand hid table data rest)
  have hmap : (readAll config (Function.update table id (some data)) rest).map
      (fun result => (result.1, [] ++ result.2)) =
        readAll config (Function.update table id (some data)) rest := by
    simp
  rw [readAll_of_ne_nil config table hne, hbuffer, hmap]
  rcases eq_or_ne rest [] with rfl | hrest
  · rw [readBuffer, dif_pos rfl]
    simp [readAll_nil]
  · rw [readAll_of_ne_nil config _ hrest]

theorem Reads.tuple {ids : Tuple ℕ} (hfirst : ids.first < config.tableSize)
    (hsecond : ids.second < config.tableSize) (hthird : ids.third < config.tableSize)
    (table : Table) :
    Reads config table (tupleCommand config ids)
      [⟨table ids.first, table ids.second, table ids.third⟩] table := by
  intro rest
  have hne : tupleCommand config ids ++ rest ≠ [] := by
    have hpos := config.idBytes_pos
    apply List.ne_nil_of_length_pos
    rw [List.length_append, tupleCommand, List.length_append, List.length_append,
      length_writeNumber]
    omega
  rw [readAll_of_ne_nil config table hne,
    readBuffer_of_some hne (readCommand_tupleCommand hfirst hsecond hthird table rest)]
  rfl

/-! ## The two tables -/

/-- What the sender's table holds, the receiver's table holds. -/
def Mirrors (sender receiver : Table) : Prop :=
  ∀ slot text, sender slot = some text → receiver slot = some text

theorem Mirrors.update {sender receiver : Table} (hmirrors : Mirrors sender receiver) (id : ℕ)
    (data : CString) :
    Mirrors (Function.update sender id (some data)) (Function.update receiver id (some data)) := by
  intro slot text hslot
  rcases eq_or_ne slot id with rfl | hne
  · rw [Function.update_self] at hslot ⊢
    exact hslot
  · rw [Function.update_of_ne hne] at hslot ⊢
    exact hmirrors slot text hslot

theorem Mirrors.clear {sender receiver : Table} (hmirrors : Mirrors sender receiver) (id : ℕ) :
    Mirrors (Function.update sender id none) receiver := by
  intro slot text hslot
  rcases eq_or_ne slot id with rfl | hne
  · rw [Function.update_self] at hslot
    simp at hslot
  · rw [Function.update_of_ne hne] at hslot
    exact hmirrors slot text hslot

/-- A part of a call that appends bytes which the receiver can follow: they
yield these tuples and keep its table a mirror. -/
def Follows (config : Config) (before after : Filling) (tuples : List (Tuple (Option CString))) :
    Prop :=
  ∀ receiver, Mirrors before.table receiver →
    ∃ bytes next, after.buffer = before.buffer ++ bytes ∧
      Reads config receiver bytes tuples next ∧ Mirrors after.table next

theorem Follows.refl (filling : Filling) : Follows config filling filling [] :=
  fun receiver hmirrors =>
    ⟨[], receiver, (List.append_nil _).symm, Reads.nil receiver, hmirrors⟩

theorem Follows.trans {first second third : Filling} {tuples others : List (Tuple (Option CString))}
    (hfirst : Follows config first second tuples) (hsecond : Follows config second third others) :
    Follows config first third (tuples ++ others) := by
  intro receiver hmirrors
  obtain ⟨bytes, next, hbytes, hreads, hnext⟩ := hfirst receiver hmirrors
  obtain ⟨more, last, hmore, hreads', hlast⟩ := hsecond next hnext
  refine ⟨bytes ++ more, last, ?_, hreads.append hreads', hlast⟩
  rw [hmore, hbytes, List.append_assoc]

/-! ## Insertions -/

theorem slotFor_spec (config : Config) (data : CString) (avoid1 avoid2 : ℕ) :
    ∃ id, slotFor config data avoid1 avoid2 = some id ∧ id < config.tableSize ∧
      id ≠ avoid1 ∧ id ≠ avoid2 := by
  have hthree := config.three_le
  have hsome : ∃ id ∈ (List.range config.tableSize).map
      (fun offs => (hash config data + offs) % config.tableSize),
      id ≠ avoid1 ∧ id ≠ avoid2 := by
    by_contra hnone
    push Not at hnone
    -- of three slots in a row one is not avoided
    have hslot : ∀ offs < config.tableSize,
        (hash config data + offs) % config.tableSize ≠ avoid1 →
        (hash config data + offs) % config.tableSize = avoid2 :=
      fun offs hoffs => hnone _ (List.mem_map.2 ⟨offs, List.mem_range.2 hoffs, rfl⟩)
    have hne : ∀ first second, first < second → second < 3 →
        (hash config data + first) % config.tableSize ≠
          (hash config data + second) % config.tableSize := by
      intro first second hlt hbound heq
      have hsub := (Nat.modEq_iff_dvd' (by omega)).1 heq
      have hdvd : config.tableSize ∣ second - first := by
        rwa [Nat.add_sub_add_left] at hsub
      have hle := Nat.le_of_dvd (by omega) hdvd
      omega
    have h01 := hne 0 1 (by decide) (by decide)
    have h02 := hne 0 2 (by decide) (by decide)
    have h12 := hne 1 2 (by decide) (by decide)
    have hzero := hslot 0 (by omega)
    have hone := hslot 1 (by omega)
    have htwo := hslot 2 (by omega)
    omega
  obtain ⟨id, hmem, hid⟩ := hsome
  unfold slotFor
  cases hfind : ((List.range config.tableSize).map fun offs =>
      (hash config data + offs) % config.tableSize).find?
        (fun id => id ≠ avoid1 ∧ id ≠ avoid2) with
  | none =>
      have hbad := List.find?_eq_none.1 hfind id hmem
      exact absurd hid (by simpa using hbad)
  | some found =>
      have hfound := List.find?_some hfind
      obtain ⟨offs, -, rfl⟩ := List.mem_map.1 (List.mem_of_find?_eq_some hfind)
      refine ⟨_, rfl, Nat.mod_lt _ (by omega), ?_⟩
      simpa using hfound

theorem insert_spec {id : ℕ} (hid : id < config.tableSize) (data : CString) (filling : Filling) :
    Follows config filling (filling.insert config id data).1 [] ∧
      ((filling.insert config id data).2 = true →
        (filling.insert config id data).1.table =
          Function.update filling.table id (some data)) := by
  unfold Filling.insert
  dsimp only
  split
  · exact ⟨Follows.refl filling, by simp⟩
  · refine ⟨?_, fun _ => rfl⟩
    intro receiver hmirrors
    exact ⟨_, _, rfl, Reads.insert hid receiver data, hmirrors.update id data⟩

/-- An id that is returned is a slot with the string that is not avoided, and no
other slot has changed. -/
theorem insertHashAvoid_spec (config : Config) (data : CString) (avoid1 avoid2 : ℕ) (filling : Filling) :
    Follows config filling (filling.insertHashAvoid config data avoid1 avoid2).1 [] ∧
      ∀ id, (filling.insertHashAvoid config data avoid1 avoid2).2 = some id →
        id < config.tableSize ∧ id ≠ avoid1 ∧ id ≠ avoid2 ∧
        (filling.insertHashAvoid config data avoid1 avoid2).1.table id = some data ∧
        ∀ slot, slot ≠ id →
          (filling.insertHashAvoid config data avoid1 avoid2).1.table slot =
            filling.table slot := by
  obtain ⟨id, hslot, hid, hne1, hne2⟩ := slotFor_spec config data avoid1 avoid2
  -- inserting into a table that differs from the sender's at most in this slot
  have hinsert : ∀ start : Filling, Follows config filling start [] →
      (∀ slot, slot ≠ id → start.table slot = filling.table slot) →
      ∀ after inserted, start.insert config id data = (after, inserted) →
        Follows config filling after [] ∧
          (inserted = true → after.table id = some data ∧
            ∀ slot, slot ≠ id → after.table slot = filling.table slot) := by
    intro start hstart hsame after inserted heq
    obtain ⟨hfollows, htable⟩ := insert_spec hid data start
    rw [heq] at hfollows htable
    refine ⟨hstart.trans hfollows, ?_⟩
    intro hinserted
    rw [htable hinserted]
    refine ⟨Function.update_self _ _ _, ?_⟩
    intro slot hne
    rw [Function.update_of_ne hne]
    exact hsame slot hne
  unfold Filling.insertHashAvoid
  rw [hslot]
  dsimp only
  cases hold : filling.table id with
  | none =>
      dsimp only
      rcases hresult : filling.insert config id data with ⟨after, inserted⟩
      obtain ⟨hfollows, htable⟩ := hinsert filling (Follows.refl filling) (fun _ _ => rfl)
        after inserted hresult
      cases inserted with
      | true =>
          refine ⟨hfollows, ?_⟩
          intro found hfound
          rw [← Option.some.inj hfound]
          exact ⟨hid, hne1, hne2, htable rfl⟩
      | false => exact ⟨hfollows, by simp⟩
  | some text =>
      dsimp only
      split
      · rename_i hsame
        refine ⟨Follows.refl filling, ?_⟩
        intro found hfound
        rw [← Option.some.inj hfound]
        exact ⟨hid, hne1, hne2, by rw [hold, hsame], fun _ _ => rfl⟩
      · have hclear : Follows config filling
            { filling with table := Function.update filling.table id none } [] := by
          intro receiver hmirrors
          exact ⟨[], receiver, (List.append_nil _).symm, Reads.nil receiver, hmirrors.clear id⟩
        rcases hresult : Filling.insert config id data
          { filling with table := Function.update filling.table id none } with ⟨after, inserted⟩
        obtain ⟨hfollows, htable⟩ := hinsert _ hclear
          (fun slot hne => Function.update_of_ne hne _ _) after inserted hresult
        cases inserted with
        | true =>
            refine ⟨hfollows, ?_⟩
            intro found hfound
            rw [← Option.some.inj hfound]
            exact ⟨hid, hne1, hne2, htable rfl⟩
        | false => exact ⟨hfollows, by simp⟩

/-- The ids of a tuple are slots that hold its strings. -/
theorem insertTuple_spec (config : Config) (tuple : Tuple CString) (filling : Filling) :
    Follows config filling (filling.insertTuple config tuple).1 [] ∧
      ∀ ids, (filling.insertTuple config tuple).2 = some ids →
        (ids.first < config.tableSize ∧ ids.second < config.tableSize ∧
          ids.third < config.tableSize) ∧
        (filling.insertTuple config tuple).1.table ids.first = some tuple.first ∧
        (filling.insertTuple config tuple).1.table ids.second = some tuple.second ∧
        (filling.insertTuple config tuple).1.table ids.third = some tuple.third := by
  unfold Filling.insertTuple
  obtain ⟨hfollows₁, hids₁⟩ :=
    insertHashAvoid_spec config tuple.first config.nidx config.nidx filling
  rcases hfirst : filling.insertHashAvoid config tuple.first config.nidx config.nidx with
    ⟨filling₁, first⟩
  rw [hfirst] at hfollows₁ hids₁
  cases first with
  | none => exact ⟨hfollows₁, by simp⟩
  | some first =>
      dsimp only
      obtain ⟨hfollows₂, hids₂⟩ :=
        insertHashAvoid_spec config tuple.second first config.nidx filling₁
      rcases hsecond : filling₁.insertHashAvoid config tuple.second first config.nidx with
        ⟨filling₂, second⟩
      rw [hsecond] at hfollows₂ hids₂
      cases second with
      | none => exact ⟨hfollows₁.trans hfollows₂, by simp⟩
      | some second =>
          dsimp only
          obtain ⟨hfollows₃, hids₃⟩ :=
            insertHashAvoid_spec config tuple.third first second filling₂
          rcases hthird : filling₂.insertHashAvoid config tuple.third first second with
            ⟨filling₃, third⟩
          rw [hthird] at hfollows₃ hids₃
          cases third with
          | none => exact ⟨(hfollows₁.trans hfollows₂).trans hfollows₃, by simp⟩
          | some third =>
              refine ⟨(hfollows₁.trans hfollows₂).trans hfollows₃, ?_⟩
              intro ids hids
              rw [← Option.some.inj hids]
              obtain ⟨hlt₁, -, -, htable₁, -⟩ := hids₁ first rfl
              obtain ⟨hlt₂, hne₂, -, htable₂, hkept₂⟩ := hids₂ second rfl
              obtain ⟨hlt₃, hne₃, hne₃', htable₃, hkept₃⟩ := hids₃ third rfl
              refine ⟨⟨hlt₁, hlt₂, hlt₃⟩, ?_, ?_, htable₃⟩
              · -- the slots of the other two strings are different ones
                rw [hkept₃ first hne₃.symm, hkept₂ first hne₂.symm]
                exact htable₁
              · rw [hkept₃ second hne₃'.symm]
                exact htable₂

/-! ## Calls and runs -/

/-- A tuple as the receiver has it. -/
def Tuple.asRead (tuple : Tuple CString) : Tuple (Option CString) :=
  ⟨some tuple.first, some tuple.second, some tuple.third⟩

/-- A call of `fill_buffer` takes tuples from the front, and the receiver reads
just these. -/
theorem fillBuffer_spec (config : Config) (tuples : List (Tuple CString)) (filling : Filling) :
    ∃ taken, tuples = taken ++ (filling.fillBuffer config tuples).2 ∧
      Follows config filling (filling.fillBuffer config tuples).1
        (taken.map Tuple.asRead) := by
  induction tuples generalizing filling with
  | nil => exact ⟨[], rfl, Follows.refl filling⟩
  | cons tuple rest ih =>
      unfold Filling.fillBuffer
      obtain ⟨hfollows, hids⟩ := insertTuple_spec config tuple filling
      rcases hinsert : filling.insertTuple config tuple with ⟨inserted, ids⟩
      rw [hinsert] at hfollows hids
      cases ids with
      | none => exact ⟨[], rfl, hfollows⟩
      | some ids =>
          dsimp only
          split
          · exact ⟨[], rfl, hfollows⟩
          · obtain ⟨⟨hfirst, hsecond, hthird⟩, htable₁, htable₂, htable₃⟩ := hids ids rfl
            have hwrite : Follows config inserted
                { inserted with
                  buffer := inserted.buffer ++ tupleCommand config ids
                  maxSize := inserted.maxSize - 3 * config.idBytes } [tuple.asRead] := by
              intro receiver hmirrors
              refine ⟨tupleCommand config ids, receiver, rfl, ?_, hmirrors⟩
              have hreads := Reads.tuple hfirst hsecond hthird receiver
              rw [hmirrors _ _ htable₁, hmirrors _ _ htable₂, hmirrors _ _ htable₃] at hreads
              exact hreads
            obtain ⟨taken, hrest, hlater⟩ := ih _
            refine ⟨tuple :: taken, ?_, (hfollows.trans hwrite).trans hlater⟩
            rw [List.cons_append, ← hrest]

end Wiselib.Broker.Shdt
