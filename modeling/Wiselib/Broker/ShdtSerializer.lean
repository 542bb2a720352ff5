import Mathlib

/-!
# The SHDT serializer

`ShdtSerializer` turns tuples of strings into a stream of two kinds of commands.
An insert command puts a string into a slot of the lookup table of the receiver,
and a tuple is written as the three slots of its strings.  The slot of a string
is its hash, or the next one that the same tuple does not use yet; the sender
keeps a lookup table of its own to see which strings the receiver has.

This file models the serializer on the level of bytes.  `fill_buffer` is called
with buffers of any size and stops where the buffer is full, and `read_buffer`
reads one tuple at a time.
-/

namespace Wiselib.Broker.Shdt

/-! ## Numbers -/

/-- `wiselib::write` of a number of `count` bytes: the most significant byte
first. -/
def writeNumber : ℕ → ℕ → List UInt8
  | 0, _ => []
  | count + 1, n => writeNumber count (n / 256) ++ [UInt8.ofNat n]

/-- `wiselib::read` of a number from its bytes. -/
def readNumber (bytes : List UInt8) : ℕ :=
  bytes.foldl (fun n byte => 256 * n + byte.toNat) 0

@[simp] theorem length_writeNumber (count n : ℕ) : (writeNumber count n).length = count := by
  induction count generalizing n with
  | zero => rfl
  | succ count ih => simp [writeNumber, ih]

theorem readNumber_writeNumber {count n : ℕ} (hfits : n < 256 ^ count) :
    readNumber (writeNumber count n) = n := by
  induction count generalizing n with
  | zero =>
      rw [pow_zero, Nat.lt_one_iff] at hfits
      rw [hfits]
      rfl
  | succ count ih =>
      have hquotient : n / 256 < 256 ^ count := by
        rw [Nat.div_lt_iff_lt_mul (by decide)]
        exact (pow_succ 256 count) ▸ hfits
      have hrest := ih hquotient
      unfold readNumber at hrest ⊢
      unfold writeNumber
      rw [List.foldl_append, hrest, List.foldl_cons, List.foldl_nil, UInt8.toNat_ofNat']
      exact Nat.div_add_mod n 256

/-! ## Tables -/

/-- `TABLE_SIZE`, `sizeof(table_id_t)`, and the number of values of the type in
which `hash` adds.  Ids are below the one that begins a command. -/
structure Config where
  tableSize : ℕ
  idBytes : ℕ
  sumValues : ℕ
  three_le : 3 ≤ tableSize
  ids_below : tableSize ≤ 256 ^ idBytes - 1

/-- `nidx`. -/
def Config.nidx (config : Config) : ℕ :=
  256 ^ config.idBytes - 1

/-- A string without the byte that ends it. -/
structure CString where
  bytes : List UInt8
  no_nul : 0 ∉ bytes
deriving DecidableEq, Repr

/-- A tuple of `TUPLE_SIZE` elements, which `insert_tuple` takes to be three. -/
structure Tuple (α : Type*) where
  first : α
  second : α
  third : α
deriving DecidableEq, Repr

/-- `lookup_table_`. -/
abbrev Table := ℕ → Option CString

/-- The table of a fresh serializer. -/
def emptyTable : Table := fun _ => none

/-- `hash`. -/
def hash (config : Config) (data : CString) : ℕ :=
  data.bytes.foldl (fun r byte => (5 * r + byte.toNat) % config.sumValues % config.tableSize) 0 %
    config.tableSize

/-! ## Writing -/

/-- A call of `fill_buffer` under way: the table, what was written, and what is
left of `max_size`. -/
structure Filling where
  table : Table
  buffer : List UInt8
  maxSize : ℕ

/-- The bytes of an insert command. -/
def insertCommand (config : Config) (id : ℕ) (data : CString) : List UInt8 :=
  writeNumber config.idBytes config.nidx ++ [0xfe] ++ writeNumber config.idBytes id ++
    data.bytes ++ [0]

/-- The bytes of a tuple. -/
def tupleCommand (config : Config) (ids : Tuple ℕ) : List UInt8 :=
  writeNumber config.idBytes ids.first ++ writeNumber config.idBytes ids.second ++
    writeNumber config.idBytes ids.third

/-- `insert`, with whether there was room. -/
def Filling.insert (config : Config) (id : ℕ) (data : CString) (filling : Filling) :
    Filling × Bool :=
  let cmdlen := config.idBytes + 1 + config.idBytes + (data.bytes.length + 1)
  if filling.maxSize < cmdlen then (filling, false)
  else
    ({ table := Function.update filling.table id (some data)
       buffer := filling.buffer ++ insertCommand config id data
       maxSize := filling.maxSize - cmdlen }, true)

/-- The first slot from the hash on that is not avoided.  After `TABLE_SIZE`
rounds the loop meets the same slots again. -/
def slotFor (config : Config) (data : CString) (avoid1 avoid2 : ℕ) : Option ℕ :=
  ((List.range config.tableSize).map fun offs => (hash config data + offs) % config.tableSize).find?
    fun id => id ≠ avoid1 ∧ id ≠ avoid2

/-- `insert_hash_avoid`, with `nidx` as `none`. -/
def Filling.insertHashAvoid (config : Config) (data : CString) (avoid1 avoid2 : ℕ)
    (filling : Filling) : Filling × Option ℕ :=
  match slotFor config data avoid1 avoid2 with
  | none => (filling, none)
  | some id =>
      match filling.table id with
      | none =>
          match filling.insert config id data with
          | (filling, true) => (filling, some id)
          | (filling, false) => (filling, none)
      | some text =>
          if text = data then (filling, some id)
          else
            match { filling with table := Function.update filling.table id none }.insert
                config id data with
            | (filling, true) => (filling, some id)
            | (filling, false) => (filling, none)

/-- `insert_tuple`, with the ids. -/
def Filling.insertTuple (config : Config) (tuple : Tuple CString) (filling : Filling) :
    Filling × Option (Tuple ℕ) :=
  match filling.insertHashAvoid config tuple.first config.nidx config.nidx with
  | (filling, none) => (filling, none)
  | (filling, some first) =>
      match filling.insertHashAvoid config tuple.second first config.nidx with
      | (filling, none) => (filling, none)
      | (filling, some second) =>
          match filling.insertHashAvoid config tuple.third first second with
          | (filling, none) => (filling, none)
          | (filling, some third) => (filling, some ⟨first, second, third⟩)

/-- `fill_buffer`, with the tuples from `current` on. -/
def Filling.fillBuffer (config : Config) :
    Filling → List (Tuple CString) → Filling × List (Tuple CString)
  | filling, [] => (filling, [])
  | filling, tuple :: rest =>
      match filling.insertTuple config tuple with
      | (filling, none) => (filling, tuple :: rest)
      | (filling, some ids) =>
          if filling.maxSize < 3 * config.idBytes then (filling, tuple :: rest)
          else
            { filling with
              buffer := filling.buffer ++ tupleCommand config ids
              maxSize := filling.maxSize - 3 * config.idBytes }.fillBuffer config rest

/-- A serializer that writes a sequence of tuples: its table, all that it has
written, and the tuples from `current` on. -/
structure Writer where
  table : Table
  written : List UInt8
  remaining : List (Tuple CString)

/-- A call of `fill_buffer` with a buffer of some size. -/
def Writer.fill (config : Config) (writer : Writer) (maxSize : ℕ) : Writer :=
  let (filling, rest) := Filling.fillBuffer config ⟨writer.table, [], maxSize⟩ writer.remaining
  ⟨filling.table, writer.written ++ filling.buffer, rest⟩

/-- A fresh serializer that writes the tuples in calls with buffers of these
sizes. -/
def writeAll (config : Config) (tuples : List (Tuple CString)) (sizes : List ℕ) : Writer :=
  sizes.foldl (Writer.fill config) ⟨emptyTable, [], tuples⟩

/-! ## Reading -/

/-- The string up to the byte that ends it. -/
def CString.read (bytes : List UInt8) : CString where
  bytes := bytes.takeWhile fun byte => byte ≠ 0
  no_nul := by
    intro hmem
    have hne := List.mem_takeWhile_imp hmem
    simp at hne

/-- One round of the loop of `read_buffer` on a buffer that is not empty.  A round
that would read behind the buffer or beside the table has no result. -/
def readCommand (config : Config) (table : Table) (buffer : List UInt8) :
    Option (Table × Option (Tuple (Option CString)) × List UInt8) :=
  if buffer.length < config.idBytes then some (table, none, [])
  else
    let tid := readNumber (buffer.take config.idBytes)
    let buffer := buffer.drop config.idBytes
    if tid = config.nidx then
      match buffer with
      | [] => some (table, none, [])
      | cmd :: buffer =>
          if cmd = 0xfe then
            let pos := readNumber (buffer.take config.idBytes)
            let rest := buffer.drop config.idBytes
            let text := CString.read rest
            if buffer.length < config.idBytes ∨ ¬ pos < config.tableSize ∨ 0 ∉ rest then none
            else some (Function.update table pos (some text), none,
              rest.drop (text.bytes.length + 1))
          else if cmd = 0xff then some (table, none, [])
          else some (table, none, buffer)
    else
      let second := readNumber (buffer.take config.idBytes)
      let third := readNumber ((buffer.drop config.idBytes).take config.idBytes)
      if buffer.length < 2 * config.idBytes ∨ ¬ tid < config.tableSize ∨
          ¬ second < config.tableSize ∨ ¬ third < config.tableSize then none
      else some (table, some ⟨table tid, table second, table third⟩,
        buffer.drop (2 * config.idBytes))

theorem Config.idBytes_pos (config : Config) : 0 < config.idBytes := by
  have hthree := config.three_le
  have hbelow := config.ids_below
  rcases Nat.eq_zero_or_pos config.idBytes with hzero | hpos
  · rw [hzero, pow_zero] at hbelow
    omega
  · exact hpos

theorem readCommand_length_lt {config : Config} {table after : Table} {buffer rest : List UInt8}
    {tuple : Option (Tuple (Option CString))} (hbuffer : buffer ≠ [])
    (hread : readCommand config table buffer = some (after, tuple, rest)) :
    rest.length < buffer.length := by
  have hpos := config.idBytes_pos
  have hlength := List.length_pos_iff.2 hbuffer
  unfold readCommand at hread
  split at hread
  · simp only [Option.some.injEq, Prod.mk.injEq] at hread
    rw [← hread.2.2]
    exact hlength
  · rename_i hlong
    dsimp only at hread
    have hdrop : (buffer.drop config.idBytes).length < buffer.length := by
      rw [List.length_drop]
      omega
    split at hread
    · split at hread
      · simp only [Option.some.injEq, Prod.mk.injEq] at hread
        rw [← hread.2.2]
        exact hlength
      · rename_i cmd behind hcmd
        rw [hcmd, List.length_cons] at hdrop
        split at hread
        · split at hread
          · simp at hread
          · simp only [Option.some.injEq, Prod.mk.injEq] at hread
            rw [← hread.2.2, List.length_drop, List.length_drop]
            omega
        · split at hread
          · simp only [Option.some.injEq, Prod.mk.injEq] at hread
            rw [← hread.2.2]
            exact hlength
          · simp only [Option.some.injEq, Prod.mk.injEq] at hread
            rw [← hread.2.2]
            omega
    · split at hread
      · simp at hread
      · simp only [Option.some.injEq, Prod.mk.injEq] at hread
        rw [← hread.2.2, List.length_drop]
        omega

/-- `read_buffer`: the table, the tuple if there was one, and what was not read. -/
def readBuffer (config : Config) (table : Table) (buffer : List UInt8) :
    Option (Table × Option (Tuple (Option CString)) × List UInt8) :=
  if _hempty : buffer = [] then some (table, none, [])
  else
    match _hread : readCommand config table buffer with
    | none => none
    | some (table, some tuple, rest) => some (table, some tuple, rest)
    | some (table, none, rest) => readBuffer config table rest
termination_by buffer.length
decreasing_by exact readCommand_length_lt _hempty _hread

theorem readBuffer_length_lt {config : Config} {table after : Table} {buffer rest : List UInt8}
    {tuple : Option (Tuple (Option CString))} (hbuffer : buffer ≠ [])
    (hread : readBuffer config table buffer = some (after, tuple, rest)) :
    rest.length < buffer.length := by
  fun_induction readBuffer config table buffer with
  | case1 table => exact absurd rfl hbuffer
  | case2 table buffer hempty hcommand => simp at hread
  | case3 table buffer hempty next found behind hcommand =>
      simp only [Option.some.injEq, Prod.mk.injEq] at hread
      rw [← hread.2.2]
      exact readCommand_length_lt hempty hcommand
  | case4 table buffer hempty next behind hcommand ih =>
      have hlt := readCommand_length_lt hempty hcommand
      rcases eq_or_ne behind [] with rfl | hbehind
      · rw [readBuffer, dif_pos rfl] at hread
        simp only [Option.some.injEq, Prod.mk.injEq] at hread
        rw [← hread.2.2]
        exact hlt
      · exact (ih hbehind hread).trans hlt

theorem readBuffer_of_none {config : Config} {table after : Table} {buffer rest : List UInt8}
    (hbuffer : buffer ≠ []) (hread : readCommand config table buffer = some (after, none, rest)) :
    readBuffer config table buffer = readBuffer config after rest := by
  rw [readBuffer, dif_neg hbuffer]
  split
  · rename_i hnone
    rw [hread] at hnone
    simp at hnone
  · rename_i hsome
    rw [hread] at hsome
    simp at hsome
  · rename_i hsame
    rw [hread, Option.some.injEq, Prod.mk.injEq, Prod.mk.injEq] at hsame
    rw [hsame.1, hsame.2.2]

theorem readBuffer_of_some {config : Config} {table after : Table} {buffer rest : List UInt8}
    {tuple : Tuple (Option CString)} (hbuffer : buffer ≠ [])
    (hread : readCommand config table buffer = some (after, some tuple, rest)) :
    readBuffer config table buffer = some (after, some tuple, rest) := by
  rw [readBuffer, dif_neg hbuffer]
  split
  · rename_i hnone
    rw [hread] at hnone
    simp at hnone
  · rename_i hsome
    rw [hread] at hsome
    rw [← hsome]
  · rename_i hsame
    rw [hread] at hsame
    simp at hsame

/-- Calls of `read_buffer` until everything is read: the table and the tuples. -/
def readAll (config : Config) (table : Table) (buffer : List UInt8) :
    Option (Table × List (Tuple (Option CString))) :=
  if _hempty : buffer = [] then some (table, [])
  else
    match _hread : readBuffer config table buffer with
    | none => none
    | some (table, tuple, rest) =>
        (readAll config table rest).map fun result => (result.1, tuple.toList ++ result.2)
termination_by buffer.length
decreasing_by exact readBuffer_length_lt _hempty _hread

theorem readAll_nil (config : Config) (table : Table) :
    readAll config table [] = some (table, []) := by
  rw [readAll, dif_pos rfl]

theorem readAll_of_ne_nil (config : Config) (table : Table) {buffer : List UInt8}
    (hbuffer : buffer ≠ []) :
    readAll config table buffer =
      match readBuffer config table buffer with
      | none => none
      | some (table, tuple, rest) =>
          (readAll config table rest).map fun result => (result.1, tuple.toList ++ result.2) := by
  rw [readAll, dif_neg hbuffer]
  split
  · rename_i hread
    rw [hread]
  · rename_i hread
    rw [hread]

end Wiselib.Broker.Shdt
