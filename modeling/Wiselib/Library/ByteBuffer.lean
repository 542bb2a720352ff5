import Mathlib

/-!
# Buffers by address

A buffer is a map from addresses to cells without a length: code that is handed
a pointer reads and writes wherever the pointer leads.  `write` is a `memcpy`
into the buffer, `read` takes cells out of it, and `Holds buffer start cells`
says what is found from an address on.

`Holds` splits along the cells (`holds_append`), so a format written piece by
piece is read back piece by piece, and what it says survives every write behind
its cells.
-/

namespace ByteBuffer

variable {α : Type*} {buffer other : ℕ → α} {start count i : ℕ} {cells more : List α}

/-- Copies `cells` to the addresses from `start` on. -/
def write (buffer : ℕ → α) (start : ℕ) (cells : List α) : ℕ → α :=
  fun i => if start ≤ i then (cells[i - start]?).getD (buffer i) else buffer i

/-- The `count` cells from `start` on. -/
def read (buffer : ℕ → α) (start count : ℕ) : List α :=
  (List.range count).map fun i => buffer (start + i)

/-- The cells from `start` on are `cells`. -/
def Holds (buffer : ℕ → α) (start : ℕ) (cells : List α) : Prop :=
  read buffer start cells.length = cells

/-! ## Reading -/

@[simp] theorem read_zero : read buffer start 0 = [] := rfl

@[simp] theorem length_read : (read buffer start count).length = count := by
  simp [read]

@[simp] theorem getElem?_read (hi : i < count) :
    (read buffer start count)[i]? = some (buffer (start + i)) := by
  simp [read, hi]

theorem read_succ :
    read buffer start (count + 1) = buffer start :: read buffer (start + 1) count := by
  simp [read, List.range_succ_eq_map, Function.comp_def, Nat.add_assoc, Nat.add_comm 1]

theorem read_add (m n : ℕ) :
    read buffer start (m + n) = read buffer start m ++ read buffer (start + m) n := by
  simp [read, List.range_add, Function.comp_def, Nat.add_assoc]

theorem read_congr (hsame : ∀ i, start ≤ i → i < start + count → buffer i = other i) :
    read buffer start count = read other start count := by
  apply List.map_congr_left
  intro i hi
  have hlt : i < count := List.mem_range.1 hi
  exact hsame (start + i) (by omega) (by omega)

theorem read_inj :
    read buffer start count = read other start count ↔
      ∀ i < count, buffer (start + i) = other (start + i) := by
  simp [read, List.map_inj_left]

/-! ## Writing -/

theorem write_below (hi : i < start) : write buffer start cells i = buffer i := by
  simp [write, show ¬ start ≤ i by omega]

theorem write_above (hi : start + cells.length ≤ i) : write buffer start cells i = buffer i := by
  have hnone : cells[i - start]? = none := List.getElem?_eq_none (by omega)
  simp [write, hnone]

theorem write_inside (hi : i < cells.length) :
    write buffer start cells (start + i) = cells[i] := by
  simp [write, hi]

@[simp] theorem write_nil (buffer : ℕ → α) (start : ℕ) : write buffer start [] = buffer := by
  funext i
  simp [write]

@[simp] theorem write_cons_self (buffer : ℕ → α) (start : ℕ) (cell : α) (cells : List α) :
    write buffer start (cell :: cells) start = cell := by
  simp [write]

theorem write_cons (buffer : ℕ → α) (start : ℕ) (cell : α) (cells : List α) :
    write buffer start (cell :: cells) = write (write buffer start [cell]) (start + 1) cells := by
  funext i
  rcases lt_trichotomy i start with hlt | rfl | hgt
  · simp [write, show ¬ start ≤ i by omega, show ¬ start + 1 ≤ i by omega]
  · simp [write]
  · obtain ⟨k, rfl⟩ : ∃ k, i = start + 1 + k := ⟨i - (start + 1), by omega⟩
    simp [write, show start + 1 + k - start = k + 1 by omega, show start ≤ start + 1 + k by omega]

theorem write_append (buffer : ℕ → α) (start : ℕ) (cells more : List α) :
    write buffer start (cells ++ more) =
      write (write buffer start cells) (start + cells.length) more := by
  induction cells generalizing buffer start with
  | nil => simp
  | cons cell cells ih =>
      rw [List.cons_append, write_cons, ih, write_cons buffer start cell cells, List.length_cons,
        Nat.add_assoc, Nat.add_comm 1]

theorem read_write_of_le (hle : start + count ≤ i) :
    read (write buffer i cells) start count = read buffer start count :=
  read_congr fun _ _ hlt => write_below (by omega)

theorem read_write_self : read (write buffer start cells) start cells.length = cells := by
  apply List.ext_getElem (by simp)
  intro i hread hi
  simp [read, write_inside hi]

/-! ## What a buffer holds -/

@[simp] theorem holds_nil : Holds buffer start [] := rfl

theorem holds_append :
    Holds buffer start (cells ++ more) ↔
      Holds buffer start cells ∧ Holds buffer (start + cells.length) more := by
  unfold Holds
  rw [List.length_append, read_add]
  constructor
  · intro hboth
    exact List.append_inj hboth (by simp)
  · rintro ⟨hcells, hmore⟩
    rw [hcells, hmore]

theorem holds_cons {cell : α} :
    Holds buffer start (cell :: cells) ↔
      buffer start = cell ∧ Holds buffer (start + 1) cells := by
  unfold Holds
  rw [List.length_cons, read_succ, List.cons_eq_cons]

theorem holds_write : Holds (write buffer start cells) start cells := read_write_self

theorem Holds.read_eq (hholds : Holds buffer start cells) (hcount : count = cells.length) :
    read buffer start count = cells := by
  rw [hcount]
  exact hholds

theorem Holds.congr (hholds : Holds buffer start cells)
    (hsame : ∀ i, start ≤ i → i < start + cells.length → other i = buffer i) :
    Holds other start cells :=
  (read_congr hsame).trans hholds

theorem Holds.write_of_le (hholds : Holds buffer start cells)
    (hle : start + cells.length ≤ i) : Holds (write buffer i more) start cells :=
  hholds.congr fun _ _ hlt => write_below (by omega)

/-! ## Numbers as bytes -/

/-- The lowest `count` bytes of a number, the most significant one first. -/
def bytesOf : ℕ → ℕ → List UInt8
  | 0, _ => []
  | count + 1, n => UInt8.ofNat (n / 256 ^ count) :: bytesOf count n

/-- The number of bytes, the most significant one first. -/
def numberOf : List UInt8 → ℕ
  | [] => 0
  | byte :: bytes => byte.toNat * 256 ^ bytes.length + numberOf bytes

@[simp] theorem length_bytesOf (count n : ℕ) : (bytesOf count n).length = count := by
  induction count with
  | zero => rfl
  | succ count ih => rw [bytesOf, List.length_cons, ih]

/-- **A number is read back** from its bytes, as far as they go. -/
theorem numberOf_bytesOf (count n : ℕ) : numberOf (bytesOf count n) = n % 256 ^ count := by
  induction count with
  | zero => rw [bytesOf, numberOf, pow_zero, Nat.mod_one]
  | succ count ih =>
      have hbyte : (UInt8.ofNat (n / 256 ^ count)).toNat = n / 256 ^ count % 256 :=
        UInt8.toNat_ofNat'
      rw [bytesOf, numberOf, ih, length_bytesOf, hbyte, pow_succ, Nat.mod_mul, Nat.add_comm,
        Nat.mul_comm]

/-! ## Writes that do not look at the buffer -/

/-- Some cells are replaced, and which ones and by what does not depend on the buffer. -/
def Patching (step : (ℕ → α) → ℕ → α) : Prop :=
  ∃ patch : ℕ → Option α, ∀ buffer i, step buffer i = (patch i).getD (buffer i)

theorem patching_id : Patching fun buffer : ℕ → α => buffer :=
  ⟨fun _ => none, fun _ _ => rfl⟩

theorem Patching.write {step : (ℕ → α) → ℕ → α} (hstep : Patching step) (start : ℕ)
    (cells : List α) : Patching fun buffer => write (step buffer) start cells := by
  obtain ⟨patch, hpatch⟩ := hstep
  refine ⟨fun i => if start ≤ i then (cells[i - start]?).or (patch i) else patch i, ?_⟩
  intro buffer i
  simp only [ByteBuffer.write, hpatch]
  split
  · cases cells[i - start]? <;> rfl
  · rfl

theorem Patching.comp {first second : (ℕ → α) → ℕ → α} (hsecond : Patching second)
    (hfirst : Patching first) : Patching fun buffer => second (first buffer) := by
  obtain ⟨early, hearly⟩ := hfirst
  obtain ⟨late, hlate⟩ := hsecond
  refine ⟨fun i => (late i).or (early i), ?_⟩
  intro buffer i
  simp only [hlate, hearly]
  cases late i <;> rfl

theorem Patching.again {step : (ℕ → α) → ℕ → α} (hstep : Patching step) (buffer : ℕ → α) :
    step (step buffer) = step buffer := by
  obtain ⟨patch, hpatch⟩ := hstep
  funext i
  rw [hpatch (step buffer), hpatch buffer]
  cases patch i <;> rfl

end ByteBuffer
