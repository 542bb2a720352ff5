import Wiselib.Library.IndexList
import Wiselib.Library.Run

/-!
# The first-fit allocator

`FirstFitAllocator` of `util/allocators/first_fit_allocator.h`.  The live
chunks are kept in the table `reserved_` and linked in the order of their
addresses by `next_`, starting at `first_chunk_id_`; a slot of the table is
free when its size is zero.  `allocate_chunk` walks the list to the first gap
that is large enough, `insert_chunk` links a free slot in there, and
`free_chunk` takes a slot out again.

Addresses are offsets from `memory_`.  The widths of the members are those the
source computes from the template parameters: a chunk's size is stored in
`small_uint<BUFFER_SIZE>` and an index in `small_uint<MAX_CHUNKS>`, whose
largest value is `Chunk::NONE`.
-/

namespace Wiselib.FirstFitAllocator

open Transition IndexList

/-- The bits of `small_uint<N>::t`; the 64-bit instance exists only on a PC. -/
def smallUintBits (pc : Bool) (n : ℕ) : ℕ :=
  if pc ∧ 0x100000001 ≤ n then 64
  else if 0x10001 ≤ n then 32
  else if 0x101 ≤ n then 16
  else 8

/-- The template parameters, the width of `size_t` and whether `PC` is defined. -/
structure Geometry where
  bufferSize : ℕ
  maxChunks : ℕ
  sizeBits : ℕ
  pc : Bool
  bufferSize_lt : bufferSize < 2 ^ sizeBits

namespace Geometry

variable (geometry : Geometry)

/-- `memory_size_t`. -/
def memoryBits : ℕ := smallUintBits geometry.pc geometry.bufferSize

/-- `chunk_index_t`. -/
def indexBits : ℕ := smallUintBits geometry.pc geometry.maxChunks

/-- `Chunk::NONE`. -/
def none : ℕ := 2 ^ geometry.indexBits - 1

/-- A pointer difference cast to `size_t`. -/
def toSize (difference : ℤ) : ℕ := (difference % 2 ^ geometry.sizeBits).toNat

end Geometry

structure Chunk where
  start : ℕ
  size : ℕ
  next : ℕ

def Chunk.stop (chunk : Chunk) : ℕ := chunk.start + chunk.size

def Chunk.occupied (chunk : Chunk) : Bool := chunk.size != 0

structure Allocator where
  reserved : ℕ → Chunk
  chunksUsed : ℕ
  firstChunkId : ℕ

/-- The constructor; the start of an unused chunk is never read. -/
def Allocator.init (geometry : Geometry) : Allocator :=
  ⟨fun _ => ⟨0, 0, geometry.none⟩, 0, geometry.none⟩

/-- Replace the chunk in slot `index`. -/
def Allocator.setChunk (allocator : Allocator) (index : ℕ) (chunk : Chunk) : Allocator :=
  { allocator with reserved := Function.update allocator.reserved index chunk }

/-- `reserved_[index].set_next(next)`. -/
def Allocator.setNext (geometry : Geometry) (allocator : Allocator) (index next : ℕ) : Allocator :=
  allocator.setChunk index
    { allocator.reserved index with next := next % 2 ^ geometry.indexBits }

/-- The first unoccupied slot from `slot` on, or the slot behind the `remaining`
ones that are left to look at. -/
def freeSlotFrom (reserved : ℕ → Chunk) : (remaining slot : ℕ) → ℕ
  | 0, slot => slot
  | remaining + 1, slot =>
      if (reserved slot).occupied then freeSlotFrom reserved remaining (slot + 1) else slot

/-- `insert_chunk`: take a free slot and link it in behind chunk `index`, or in
front of the list when `index` is `NONE`. -/
def insertChunk (geometry : Geometry) (allocator : Allocator) (index start size : ℕ) :
    Allocator × ℕ :=
  let slot := freeSlotFrom allocator.reserved geometry.maxChunks 0
  if slot = geometry.maxChunks then (allocator, geometry.none)
  else
    let (linked, oldNext) :=
      if index ≠ geometry.none then
        (allocator.setNext geometry index slot, (allocator.reserved index).next)
      else
        ({ allocator with firstChunkId := slot % 2 ^ geometry.indexBits }, allocator.firstChunkId)
    let stored := linked.setChunk slot
      ⟨start, size % 2 ^ geometry.memoryBits, oldNext % 2 ^ geometry.indexBits⟩
    ({ stored with chunksUsed := (allocator.chunksUsed + 1) % 2 ^ geometry.indexBits }, slot)

/-- The loop of `allocate_chunk` at chunk `index`: the result is `prev` and `end`
where it stops.  A list with more than `MAX_CHUNKS` chunks repeats one, so the
loop does not end when the `fuel` runs out. -/
def scanFrom (geometry : Geometry) (reserved : ℕ → Chunk) (toAllocate : ℕ) :
    (fuel index stop prev : ℕ) → Option (ℕ × ℕ)
  | fuel, index, stop, prev =>
      if index = geometry.none then some (prev, stop)
      else
        match fuel with
        | 0 => none
        | fuel + 1 =>
            if toAllocate ≤ geometry.toSize ((reserved index).start - stop) then some (prev, stop)
            else scanFrom geometry reserved toAllocate fuel (reserved index).next
              (reserved index).stop index

/-- `allocate_chunk<T>(n)` with `sizeof(T) = size`.  The result is the chunk
that `&reserved_[r]` points to, or `none` for the null pointer. -/
def allocateChunk (geometry : Geometry) (allocator : Allocator) (size n : ℕ) :
    Option (Allocator × Option ℕ) :=
  if geometry.maxChunks ≤ allocator.chunksUsed then some (allocator, none)
  else
    let toAllocate := size * n % 2 ^ geometry.sizeBits
    match scanFrom geometry allocator.reserved toAllocate geometry.maxChunks
      allocator.firstChunkId 0 geometry.none with
    | none => none
    | some (prev, stop) =>
        -- the space behind the last chunk is checked only when there is a last chunk
        if prev ≠ geometry.none ∧ (allocator.reserved prev).next = geometry.none ∧
            geometry.toSize (geometry.bufferSize - (allocator.reserved prev).stop) < toAllocate then
          some (allocator, none)
        else
          let (allocator', slot) := insertChunk geometry allocator prev stop toAllocate
          some (allocator', if slot = geometry.none then none else some slot)

/-- The loop of `free_chunk` that looks for the predecessor of `index`; the
result is `NONE` when there is none. -/
def predecessorFrom (geometry : Geometry) (reserved : ℕ → Chunk) (index : ℕ) :
    (fuel prev : ℕ) → Option ℕ
  | fuel, prev =>
      if prev = geometry.none ∨ (reserved prev).next = index then some prev
      else
        match fuel with
        | 0 => none
        | fuel + 1 => predecessorFrom geometry reserved index fuel (reserved prev).next

/-- The part of `free_chunk` that unlinks chunk `index`. -/
def unlinkChunk (geometry : Geometry) (allocator : Allocator) (index : ℕ) : Option Allocator :=
  if index = allocator.firstChunkId then
    some { allocator with firstChunkId := (allocator.reserved index).next }
  else
    (predecessorFrom geometry allocator.reserved index geometry.maxChunks
      allocator.firstChunkId).map fun prev =>
        if prev ≠ geometry.none then
          allocator.setNext geometry prev (allocator.reserved index).next
        else allocator

/-- `free_chunk`. -/
def freeChunk (geometry : Geometry) (allocator : Allocator) (index : ℕ) : Option Allocator :=
  if allocator.firstChunkId = geometry.none then some allocator
  else
    (unlinkChunk geometry allocator index).map fun unlinked =>
      let cleared := unlinked.setChunk index { unlinked.reserved index with size := 0 }
      { cleared with
        chunksUsed := (allocator.chunksUsed + 2 ^ geometry.indexBits - 1) % 2 ^ geometry.indexBits }

/-! ## The allocator and its client -/

/-- A pointer that was handed out, and the bytes that were asked for. -/
structure Handed where
  chunk : ℕ
  size : ℕ

structure Session where
  allocator : Allocator
  live : List Handed

def Session.init (geometry : Geometry) : Session :=
  ⟨Allocator.init geometry, []⟩

/-- A client allocates `n` objects of `size` bytes, or frees a pointer. -/
inductive Op where
  | allocate (size n : ℕ)
  | free (chunk : ℕ)

/-- One call.  Only a pointer that is still live is freed. -/
def perform (geometry : Geometry) (session : Session) : Op → Option Session
  | .allocate size n =>
      (allocateChunk geometry session.allocator size n).map fun (allocator, chunk) =>
        match chunk with
        | none => ⟨allocator, session.live⟩
        | some chunk => ⟨allocator, ⟨chunk, size * n⟩ :: session.live⟩
  | .free chunk =>
      if chunk ∈ session.live.map Handed.chunk then
        (freeChunk geometry session.allocator chunk).map fun allocator =>
          ⟨allocator, session.live.filter fun handed => handed.chunk ≠ chunk⟩
      else none

/-- The chunk list of the allocator is `ids`. -/
def ChunkList (geometry : Geometry) (allocator : Allocator) (ids : List ℕ) : Prop :=
  Segment (fun id => (allocator.reserved id).next) geometry.none allocator.firstChunkId ids
    geometry.none

/-- The chunks of the list are sorted by their start, pairwise disjoint, not
empty and inside the buffer, and they are those of the live pointers, each at
least as large as what was asked for. -/
structure Sound (geometry : Geometry) (session : Session) (ids : List ℕ) : Prop where
  chunkList : ChunkList geometry session.allocator ids
  sorted : ids.Pairwise fun first second =>
    (session.allocator.reserved first).start < (session.allocator.reserved second).start ∧
      (session.allocator.reserved first).stop ≤ (session.allocator.reserved second).start
  inside : ∀ id ∈ ids, (session.allocator.reserved id).stop ≤ geometry.bufferSize
  nodup : ids.Nodup
  live : ids.Perm (session.live.map Handed.chunk)
  enough : ∀ handed ∈ session.live, handed.size ≤ (session.allocator.reserved handed.chunk).size

/-- Freeing the live pointer `chunk` takes exactly this chunk out of the list and
leaves the others where they are. -/
def FreesExactly (geometry : Geometry) (session : Session) (ids : List ℕ) (chunk : ℕ) : Prop :=
  ∃ next, perform geometry session (.free chunk) = some next ∧
    ChunkList geometry next.allocator (ids.erase chunk) ∧
    ∀ id ∈ ids.erase chunk,
      (next.allocator.reserved id).start = (session.allocator.reserved id).start ∧
        (next.allocator.reserved id).size = (session.allocator.reserved id).size

/-- On an empty list nothing compares the request with the size of the buffer: a
buffer of four bytes hands out five. -/
theorem exists_run_chunks_not_sound :
    ∃ geometry operations session,
      Run (stepOf (perform geometry)) (Session.init geometry) operations session ∧
        ¬ ∃ ids, Sound geometry session ids := by
  refine ⟨⟨4, 2, 32, true, by decide⟩, [.allocate 5 1], _, Run.of_foldlM rfl, ?_⟩
  rintro ⟨ids, hsound⟩
  have hmem : 0 ∈ ids := hsound.live.symm.subset (by decide)
  exact absurd (hsound.inside 0 hmem) (by decide)

/-! ## Chunks packed into the buffer -/

/-- The chunks `ids` are not empty, follow each other from address `low` on and
end before `limit`. -/
def Packed (reserved : ℕ → Chunk) (limit : ℕ) : ℕ → List ℕ → Prop
  | low, [] => low ≤ limit
  | low, id :: rest =>
      low ≤ (reserved id).start ∧ 0 < (reserved id).size ∧
        Packed reserved limit (reserved id).stop rest

/-- The end of the last chunk of `ids`, or `low` when there is none. -/
def endOf (reserved : ℕ → Chunk) (low : ℕ) (ids : List ℕ) : ℕ :=
  ids.foldl (fun _ id => (reserved id).stop) low

@[simp] theorem endOf_nil (reserved : ℕ → Chunk) (low : ℕ) : endOf reserved low [] = low := rfl

@[simp] theorem endOf_cons (reserved : ℕ → Chunk) (low id : ℕ) (rest : List ℕ) :
    endOf reserved low (id :: rest) = endOf reserved (reserved id).stop rest := rfl

theorem endOf_concat (reserved : ℕ → Chunk) (low id : ℕ) (front : List ℕ) :
    endOf reserved low (front ++ [id]) = (reserved id).stop := by
  simp [endOf]

section Packed

variable {reserved reserved' : ℕ → Chunk} {limit : ℕ}

theorem Packed.mono {low low' : ℕ} {ids : List ℕ} (hpacked : Packed reserved limit low ids)
    (hle : low' ≤ low) : Packed reserved limit low' ids := by
  cases ids with
  | nil => exact hle.trans hpacked
  | cons id rest => exact ⟨hle.trans hpacked.1, hpacked.2⟩

theorem Packed.congr {low : ℕ} {ids : List ℕ} (hpacked : Packed reserved limit low ids)
    (hagree : ∀ id ∈ ids, (reserved' id).start = (reserved id).start ∧
      (reserved' id).size = (reserved id).size) :
    Packed reserved' limit low ids := by
  induction ids generalizing low with
  | nil => exact hpacked
  | cons id rest ih =>
      obtain ⟨hlow, hsize, hrest⟩ := hpacked
      obtain ⟨hstart, hlength⟩ := hagree id List.mem_cons_self
      refine ⟨hstart ▸ hlow, hlength ▸ hsize, ?_⟩
      rw [Chunk.stop, hstart, hlength]
      exact ih hrest fun other hother => hagree other (List.mem_cons_of_mem _ hother)

theorem endOf_congr {low : ℕ} {ids : List ℕ}
    (hagree : ∀ id ∈ ids, (reserved' id).start = (reserved id).start ∧
      (reserved' id).size = (reserved id).size) :
    endOf reserved' low ids = endOf reserved low ids := by
  induction ids generalizing low with
  | nil => rfl
  | cons id rest ih =>
      obtain ⟨hstart, hsize⟩ := hagree id List.mem_cons_self
      rw [endOf_cons, endOf_cons, Chunk.stop, Chunk.stop, hstart, hsize]
      exact ih fun other hother => hagree other (List.mem_cons_of_mem _ hother)

theorem Packed.low_le {low : ℕ} {ids : List ℕ} (hpacked : Packed reserved limit low ids) :
    low ≤ limit := by
  induction ids generalizing low with
  | nil => exact hpacked
  | cons id rest ih =>
      have hstop := ih hpacked.2.2
      have hlow := hpacked.1
      rw [Chunk.stop] at hstop
      omega

theorem Packed.stop_le {low id : ℕ} {ids : List ℕ} (hpacked : Packed reserved limit low ids)
    (hmem : id ∈ ids) : (reserved id).stop ≤ limit := by
  induction ids generalizing low with
  | nil => simp at hmem
  | cons head rest ih =>
      rcases List.mem_cons.1 hmem with rfl | hmem
      · exact hpacked.2.2.low_le
      · exact ih hpacked.2.2 hmem

theorem Packed.low_le_start {low id : ℕ} {ids : List ℕ}
    (hpacked : Packed reserved limit low ids) (hmem : id ∈ ids) :
    low ≤ (reserved id).start ∧ 0 < (reserved id).size := by
  induction ids generalizing low with
  | nil => simp at hmem
  | cons head rest ih =>
      rcases List.mem_cons.1 hmem with rfl | hmem
      · exact ⟨hpacked.1, hpacked.2.1⟩
      · have hrest := ih hpacked.2.2 hmem
        have hlow := hpacked.1
        rw [Chunk.stop] at hrest
        exact ⟨by omega, hrest.2⟩

theorem Packed.sorted {low : ℕ} {ids : List ℕ} (hpacked : Packed reserved limit low ids) :
    ids.Pairwise fun first second =>
      (reserved first).start < (reserved second).start ∧
        (reserved first).stop ≤ (reserved second).start := by
  induction ids generalizing low with
  | nil => exact List.Pairwise.nil
  | cons id rest ih =>
      refine List.pairwise_cons.2 ⟨fun other hother => ?_, ih hpacked.2.2⟩
      have hstart := (hpacked.2.2.low_le_start hother).1
      have hsize := hpacked.2.1
      exact ⟨by rw [Chunk.stop] at hstart; omega, hstart⟩

theorem packed_append {low : ℕ} {front back : List ℕ} :
    Packed reserved limit low (front ++ back) ↔
      Packed reserved (endOf reserved low front) low front ∧
        Packed reserved limit (endOf reserved low front) back := by
  induction front generalizing low with
  | nil => simp [Packed]
  | cons id rest ih =>
      simp only [List.cons_append, Packed, endOf_cons, ih]
      tauto

theorem Packed.remove {low id : ℕ} {front back : List ℕ}
    (hpacked : Packed reserved limit low (front ++ id :: back)) :
    Packed reserved limit low (front ++ back) := by
  obtain ⟨hfront, hstart, hsize, hback⟩ := packed_append.1 hpacked
  exact packed_append.2 ⟨hfront, hback.mono (by rw [Chunk.stop]; omega)⟩

/-- A new chunk fits between `front` and `back` when it starts at the end of
`front` and ends before the next chunk, or before the limit. -/
theorem Packed.insert {low id : ℕ} {front back : List ℕ}
    (hpacked : Packed reserved limit low (front ++ back))
    (hstart : (reserved id).start = endOf reserved low front) (hsize : 0 < (reserved id).size)
    (hlast : back = [] → (reserved id).stop ≤ limit)
    (hnext : ∀ next ∈ back.head?, (reserved id).stop ≤ (reserved next).start) :
    Packed reserved limit low (front ++ id :: back) := by
  obtain ⟨hfront, hback⟩ := packed_append.1 hpacked
  refine packed_append.2 ⟨hfront, hstart.ge, hsize, ?_⟩
  cases back with
  | nil => exact hlast rfl
  | cons next rest => exact ⟨hnext next rfl, hback.2⟩

end Packed

/-! ## What the loops do -/

theorem toSize_sub_of_le (geometry : Geometry) {low high : ℕ} (hle : low ≤ high)
    (hlt : high < 2 ^ geometry.sizeBits) : geometry.toSize ((high : ℤ) - low) = high - low := by
  have hpow : ((2 ^ geometry.sizeBits : ℕ) : ℤ) = 2 ^ geometry.sizeBits := by push_cast; rfl
  rw [Geometry.toSize, Int.emod_eq_of_lt (by omega) (by omega)]
  omega

theorem freeSlotFrom_spec (reserved : ℕ → Chunk) :
    ∀ remaining slot : ℕ,
      let found := freeSlotFrom reserved remaining slot
      slot ≤ found ∧ found ≤ slot + remaining ∧
        (∀ lower, slot ≤ lower → lower < found → (reserved lower).occupied = true) ∧
        (found < slot + remaining → (reserved found).occupied = false) := by
  intro remaining
  induction remaining with
  | zero =>
      intro slot
      exact ⟨le_rfl, le_rfl, fun lower hge hlt => absurd hlt (not_lt.2 hge), fun h => absurd h (lt_irrefl _)⟩
  | succ remaining ih =>
      intro slot
      rw [freeSlotFrom]
      split_ifs with hoccupied
      · obtain ⟨hge, hle, hbelow, hfree⟩ := ih (slot + 1)
        refine ⟨by omega, by omega, fun lower hlower hlt => ?_, fun hlt => hfree (by omega)⟩
        rcases eq_or_ne lower slot with rfl | hne
        · exact hoccupied
        · exact hbelow lower (by omega) hlt
      · refine ⟨le_rfl, by omega, fun lower hge hlt => absurd hlt (not_lt.2 hge), fun _ => ?_⟩
        simpa using hoccupied

/-- The walk of `allocate_chunk` stops behind some first part of the list, at the
end of its last chunk, in front of a gap that is large enough. -/
theorem scanFrom_spec (geometry : Geometry) {reserved : ℕ → Chunk} (toAllocate : ℕ) :
    ∀ {fuel index stop : ℕ} (prev : ℕ) {ids : List ℕ},
      Segment (fun id => (reserved id).next) geometry.none index ids geometry.none →
      Packed reserved geometry.bufferSize stop ids → ids.length ≤ fuel →
      ∃ front back, ids = front ++ back ∧
        scanFrom geometry reserved toAllocate fuel index stop prev =
          some (front.getLast?.getD prev, endOf reserved stop front) ∧
        ∀ next ∈ back.head?, endOf reserved stop front + toAllocate ≤ (reserved next).start := by
  intro fuel index stop prev ids hlist hpacked hfuel
  induction ids generalizing fuel index stop prev with
  | nil =>
      obtain rfl : index = geometry.none := hlist
      exact ⟨[], [], rfl, by unfold scanFrom; simp, by simp⟩
  | cons id rest ih =>
      obtain ⟨rfl, hne, hrest⟩ := hlist
      cases fuel with
      | zero => simp at hfuel
      | succ fuel =>
          obtain ⟨hlow, hsize, htail⟩ := hpacked
          have hbound : (reserved index).start < 2 ^ geometry.sizeBits := by
            have := htail.low_le
            have := geometry.bufferSize_lt
            rw [Chunk.stop] at *
            omega
          have hgap := toSize_sub_of_le geometry hlow hbound
          unfold scanFrom
          simp only [if_neg hne, hgap]
          split_ifs with hfits
          · refine ⟨[], index :: rest, rfl, rfl, ?_⟩
            rintro next ⟨⟩
            rw [endOf_nil]
            omega
          · obtain ⟨front, back, rfl, hscan, hnext⟩ :=
              ih index hrest htail (Nat.le_of_succ_le_succ hfuel)
            refine ⟨index :: front, back, rfl, ?_, hnext⟩
            rw [hscan, endOf_cons, List.getLast?_cons]
            rfl

theorem predecessorFrom_spec (geometry : Geometry) {reserved : ℕ → Chunk} {prev index : ℕ}
    {back : List ℕ} :
    ∀ {fuel first : ℕ} {front : List ℕ},
      Segment (fun id => (reserved id).next) geometry.none first (front ++ prev :: index :: back)
        geometry.none →
      (front ++ prev :: index :: back).Nodup → front.length ≤ fuel →
      predecessorFrom geometry reserved index fuel first = some prev := by
  intro fuel first front hlist hnodup hfuel
  induction front generalizing fuel first with
  | nil =>
      obtain ⟨rfl, -, hindex, -⟩ := hlist
      unfold predecessorFrom
      rw [if_pos (Or.inr hindex)]
  | cons id rest ih =>
      obtain ⟨rfl, hne, hrest⟩ := hlist
      cases fuel with
      | zero => simp at hfuel
      | succ fuel =>
          have hnext : (reserved first).next ≠ index := by
            intro heq
            rw [List.cons_append, List.nodup_cons] at hnodup
            cases rest with
            | nil =>
                obtain ⟨hprev, -⟩ := hrest
                simp_all
            | cons second rest =>
                obtain ⟨hsecond, -⟩ := hrest
                simp_all
          unfold predecessorFrom
          rw [if_neg (by simp [hne, hnext])]
          exact ih hrest (List.nodup_cons.1 hnodup).2 (by simpa using hfuel)

/-! ## The invariant -/

/-- `Sound`, with what ties the table to the list: the occupied slots are those
of the list, all below `MAX_CHUNKS` and below `NONE`, and they are counted. -/
structure Inv (geometry : Geometry) (session : Session) (ids : List ℕ) : Prop where
  chunkList : ChunkList geometry session.allocator ids
  packed : Packed session.allocator.reserved geometry.bufferSize 0 ids
  nodup : ids.Nodup
  bound : ∀ id ∈ ids, id < geometry.maxChunks ∧ id < geometry.none
  occupied : ∀ id, (session.allocator.reserved id).occupied = true ↔ id ∈ ids
  used : session.allocator.chunksUsed = ids.length
  live : ids.Perm (session.live.map Handed.chunk)
  enough : ∀ handed ∈ session.live, handed.size ≤ (session.allocator.reserved handed.chunk).size

theorem Inv.sound {geometry : Geometry} {session : Session} {ids : List ℕ}
    (hinv : Inv geometry session ids) : Sound geometry session ids :=
  ⟨hinv.chunkList, hinv.packed.sorted, fun _ hid => hinv.packed.stop_le hid, hinv.nodup,
    hinv.live, hinv.enough⟩

theorem Inv.length_le {geometry : Geometry} {session : Session} {ids : List ℕ}
    (hinv : Inv geometry session ids) : ids.length ≤ geometry.maxChunks := by
  have hsub : ids ⊆ List.range geometry.maxChunks :=
    fun id hid => List.mem_range.2 (hinv.bound id hid).1
  simpa using (hinv.nodup.subperm hsub).length_le

theorem inv_init (geometry : Geometry) : Inv geometry (Session.init geometry) [] := by
  refine ⟨rfl, Nat.zero_le _, List.nodup_nil, by simp, fun id => ?_, rfl, List.Perm.refl _,
    by simp [Session.init]⟩
  simp [Session.init, Allocator.init, Chunk.occupied]

section Widths

variable (geometry : Geometry)

theorem none_lt : geometry.none < 2 ^ geometry.indexBits := by
  have : 0 < 2 ^ geometry.indexBits := Nat.two_pow_pos _
  rw [Geometry.none]
  omega

theorem segment_first_le {geometry : Geometry} {next : ℕ → ℕ} {first : ℕ} {ids : List ℕ}
    (hlist : Segment next geometry.none first ids geometry.none)
    (hbound : ∀ id ∈ ids, id < geometry.none) : first < 2 ^ geometry.indexBits := by
  have := none_lt geometry
  cases ids with
  | nil =>
      obtain rfl : first = geometry.none := hlist
      exact this
  | cons id rest =>
      obtain ⟨rfl, -⟩ := hlist
      exact (hbound first List.mem_cons_self).trans this

end Widths

/-! ## Inserting a chunk -/

theorem insertChunk_none {geometry : Geometry} {allocator : Allocator} {start size slot : ℕ}
    (hslot : freeSlotFrom allocator.reserved geometry.maxChunks 0 = slot)
    (hmax : slot ≠ geometry.maxChunks) :
    insertChunk geometry allocator geometry.none start size =
      (⟨Function.update allocator.reserved slot ⟨start, size % 2 ^ geometry.memoryBits,
          allocator.firstChunkId % 2 ^ geometry.indexBits⟩,
        (allocator.chunksUsed + 1) % 2 ^ geometry.indexBits,
        slot % 2 ^ geometry.indexBits⟩, slot) := by
  simp [insertChunk, hslot, hmax, Allocator.setChunk]

theorem insertChunk_behind {geometry : Geometry} {allocator : Allocator}
    {prev start size slot : ℕ}
    (hslot : freeSlotFrom allocator.reserved geometry.maxChunks 0 = slot)
    (hmax : slot ≠ geometry.maxChunks) (hprev : prev ≠ geometry.none) :
    insertChunk geometry allocator prev start size =
      (⟨Function.update
          (Function.update allocator.reserved prev
            { allocator.reserved prev with next := slot % 2 ^ geometry.indexBits })
          slot ⟨start, size % 2 ^ geometry.memoryBits,
            (allocator.reserved prev).next % 2 ^ geometry.indexBits⟩,
        (allocator.chunksUsed + 1) % 2 ^ geometry.indexBits,
        allocator.firstChunkId⟩, slot) := by
  simp [insertChunk, hslot, hmax, hprev, Allocator.setNext, Allocator.setChunk]

/-- `insert_chunk` takes the lowest unoccupied slot, links it in behind `front`
and leaves the place and the size of every other chunk alone. -/
theorem insertChunk_spec {geometry : Geometry} {allocator : Allocator} {front back : List ℕ}
    {size slot : ℕ} (start : ℕ) (hlist : ChunkList geometry allocator (front ++ back))
    (hnodup : (front ++ back).Nodup) (hbound : ∀ id ∈ front ++ back, id < geometry.none)
    (hslot : freeSlotFrom allocator.reserved geometry.maxChunks 0 = slot)
    (hmax : slot ≠ geometry.maxChunks) (hnone : slot < geometry.none)
    (hnew : slot ∉ front ++ back) (hsize : size < 2 ^ geometry.memoryBits) :
    ∃ allocator', insertChunk geometry allocator (front.getLast?.getD geometry.none) start size =
        (allocator', slot) ∧
      ChunkList geometry allocator' (front ++ slot :: back) ∧
      (allocator'.reserved slot).start = start ∧ (allocator'.reserved slot).size = size ∧
      (∀ id ≠ slot, (allocator'.reserved id).start = (allocator.reserved id).start ∧
        (allocator'.reserved id).size = (allocator.reserved id).size) ∧
      allocator'.chunksUsed = (allocator.chunksUsed + 1) % 2 ^ geometry.indexBits := by
  have hindex : slot % 2 ^ geometry.indexBits = slot :=
    Nat.mod_eq_of_lt (hnone.trans (none_lt geometry))
  rcases front.eq_nil_or_concat with rfl | ⟨front, prev, rfl⟩
  · -- in front of the whole list
    have hold : allocator.firstChunkId % 2 ^ geometry.indexBits = allocator.firstChunkId :=
      Nat.mod_eq_of_lt (segment_first_le hlist hbound)
    refine ⟨_, insertChunk_none hslot hmax, ⟨hindex, hnone.ne, ?_⟩, by simp,
      by simpa using Nat.mod_eq_of_lt hsize, fun id hne => by simp [hne], rfl⟩
    simp only [Function.update_self, hold]
    refine Segment.congr hlist fun id hid => ?_
    have hne : id ≠ slot := fun heq => hnew (heq ▸ hid)
    simp [hne]
  · -- behind its last chunk `prev`
    rw [List.concat_eq_append, List.append_assoc, List.singleton_append] at *
    have hprev : prev ≠ geometry.none := hlist.ne_nil (by simp)
    have hdistinct : prev ≠ slot := fun heq => hnew (by simp [heq])
    have hnext : (allocator.reserved prev).next % 2 ^ geometry.indexBits =
        (allocator.reserved prev).next := by
      obtain ⟨_, -, -, -, hback⟩ := segment_append.1 hlist
      exact Nat.mod_eq_of_lt (segment_first_le hback fun id hid => hbound id (by simp [hid]))
    rw [show (front ++ [prev]).getLast?.getD geometry.none = prev by simp]
    refine ⟨_, insertChunk_behind hslot hmax hprev, ?_, by simp,
      by simpa using Nat.mod_eq_of_lt hsize, fun id hne => ?_, rfl⟩
    · refine Segment.insert_after hlist hnone.ne ?_ ?_ fun id hid => ?_
      · simp [hdistinct, hindex]
      · simp [hnext]
      · have hne : id ≠ slot := by
          rintro rfl
          exact hnew (by simp only [List.mem_append, List.mem_cons] at hid ⊢; tauto)
        have hne' : id ≠ prev := by
          rintro rfl
          exact (List.nodup_middle.1 hnodup).notMem hid
        simp [hne, hne']
    · rcases eq_or_ne id prev with rfl | hne'
      · simp [hne]
      · simp [hne, hne']

/-! ## Calls that keep the allocator sound -/

/-- The bytes asked for are positive and representable, they fit the buffer when
the list is empty, and the lowest unoccupied slot, if any, is not the one whose
index is `NONE`. -/
structure AllocateIntact (geometry : Geometry) (session : Session) (size n : ℕ) : Prop where
  positive : 0 < size * n
  size_lt : size * n < 2 ^ geometry.sizeBits
  memory_lt : size * n < 2 ^ geometry.memoryBits
  fits : session.allocator.firstChunkId = geometry.none → size * n ≤ geometry.bufferSize
  slot_lt : ∀ slot < geometry.maxChunks, (session.allocator.reserved slot).occupied = false →
    (∀ lower < slot, (session.allocator.reserved lower).occupied = true) → slot < geometry.none

/-- The condition under which a call keeps the chunk list right. -/
def Intact (geometry : Geometry) (session : Session) : Op → Prop
  | .allocate size n => AllocateIntact geometry session size n
  | .free _ => True

theorem exists_slot {geometry : Geometry} {session : Session} {ids : List ℕ} {size n : ℕ}
    (hinv : Inv geometry session ids) (hintact : AllocateIntact geometry session size n)
    (hspare : session.allocator.chunksUsed < geometry.maxChunks) :
    ∃ slot, freeSlotFrom session.allocator.reserved geometry.maxChunks 0 = slot ∧
      slot < geometry.maxChunks ∧ slot < geometry.none ∧ slot ∉ ids := by
  obtain ⟨-, hle, hbelow, hfree⟩ := freeSlotFrom_spec session.allocator.reserved geometry.maxChunks 0
  generalize freeSlotFrom session.allocator.reserved geometry.maxChunks 0 = slot at hle hbelow hfree
  have hslot : slot < geometry.maxChunks := by
    by_contra hge
    have hsub : List.range geometry.maxChunks ⊆ ids := fun id hid =>
      (hinv.occupied id).1 (hbelow id (Nat.zero_le _) (by have := List.mem_range.1 hid; omega))
    have hcount := (List.nodup_range.subperm hsub).length_le
    rw [List.length_range, ← hinv.used] at hcount
    omega
  have hunused := hfree (by omega)
  refine ⟨slot, rfl, hslot, hintact.slot_lt slot hslot hunused fun lower hlower =>
    hbelow lower (Nat.zero_le _) hlower, fun hmem => ?_⟩
  simp [(hinv.occupied slot).2 hmem] at hunused

theorem stop_le_of_last {geometry : Geometry} {session : Session} {front : List ℕ} {size n : ℕ}
    (hinv : Inv geometry session front) (hintact : AllocateIntact geometry session size n)
    (hend : ¬ (front.getLast?.getD geometry.none ≠ geometry.none ∧
      (session.allocator.reserved (front.getLast?.getD geometry.none)).next = geometry.none ∧
        geometry.toSize (geometry.bufferSize -
          (session.allocator.reserved (front.getLast?.getD geometry.none)).stop) < size * n)) :
    endOf session.allocator.reserved 0 front + size * n ≤ geometry.bufferSize := by
  have hlist := hinv.chunkList
  rcases front.eq_nil_or_concat with rfl | ⟨front, prev, rfl⟩
  · have hfirst : session.allocator.firstChunkId = geometry.none := hlist
    simpa using hintact.fits hfirst
  · rw [List.concat_eq_append] at *
    obtain ⟨_, -, -, -, hnext⟩ := segment_append.1 hlist
    have hstop := hinv.packed.stop_le (show prev ∈ front ++ [prev] by simp)
    have hspace := toSize_sub_of_le geometry hstop geometry.bufferSize_lt
    rw [show (front ++ [prev]).getLast?.getD geometry.none = prev by simp, hspace] at hend
    rw [endOf_concat]
    have hfits := not_lt.1 fun hlt => hend ⟨hlist.ne_nil (by simp), hnext, hlt⟩
    omega

/-- An allocation links its chunk into the list, or changes nothing. -/
theorem inv_allocate {geometry : Geometry} {session next : Session} {ids : List ℕ} {size n : ℕ}
    (hinv : Inv geometry session ids) (hintact : AllocateIntact geometry session size n)
    (hstep : perform geometry session (.allocate size n) = some next) :
    ∃ ids', Inv geometry next ids' := by
  obtain ⟨front, back, rfl, hscan, hgap⟩ := scanFrom_spec geometry (size * n)
    geometry.none hinv.chunkList hinv.packed hinv.length_le
  have hmod : size * n % 2 ^ geometry.sizeBits = size * n := Nat.mod_eq_of_lt hintact.size_lt
  rw [perform, allocateChunk] at hstep
  by_cases hfull : geometry.maxChunks ≤ session.allocator.chunksUsed
  · rw [if_pos hfull, Option.map_some] at hstep
    obtain rfl : session = next := Option.some.inj hstep
    exact ⟨_, hinv⟩
  obtain ⟨slot, hslot, hmax, hnone, hnew⟩ := exists_slot hinv hintact (not_le.1 hfull)
  obtain ⟨allocator', hinsert, hlist, hstart, hlength, hsame, hused⟩ :=
    insertChunk_spec (endOf session.allocator.reserved 0 front) hinv.chunkList hinv.nodup
      (fun id hid => (hinv.bound id hid).2) hslot hmax.ne hnone hnew hintact.memory_lt
  simp only [if_neg hfull, hmod, hscan, hinsert, if_neg hnone.ne] at hstep
  split_ifs at hstep with hend
  · obtain rfl : session = next := Option.some.inj hstep
    exact ⟨_, hinv⟩
  obtain rfl := Option.some.inj hstep
  have hagree : ∀ id ∈ front ++ back,
      (allocator'.reserved id).start = (session.allocator.reserved id).start ∧
        (allocator'.reserved id).size = (session.allocator.reserved id).size :=
    fun id hid => hsame id fun heq => hnew (heq ▸ hid)
  refine ⟨front ++ slot :: back, hlist, ?_, ?_, ?_, ?_, ?_, ?_, ?_⟩
  · refine (hinv.packed.congr hagree).insert ?_ (hlength ▸ hintact.positive) ?_ fun next hnext => ?_
    · rw [hstart, endOf_congr fun id hid => hagree id (by simp [hid])]
    · rintro rfl
      rw [List.append_nil] at hinv
      rw [Chunk.stop, hstart, hlength]
      exact stop_le_of_last hinv hintact hend
    · have hback : next ∈ back := List.mem_of_mem_head? hnext
      rw [Chunk.stop, hstart, hlength, (hagree next (by simp [hback])).1]
      exact hgap next hnext
  · exact List.nodup_middle.2 (List.nodup_cons.2 ⟨hnew, hinv.nodup⟩)
  · intro id hid
    rcases List.mem_cons.1 (List.perm_middle.subset hid) with rfl | hold
    · exact ⟨hmax, hnone⟩
    · exact hinv.bound id hold
  · intro id
    rw [List.perm_middle.mem_iff, List.mem_cons]
    rcases eq_or_ne id slot with rfl | hne
    · simpa [Chunk.occupied, hlength] using hintact.positive.ne'
    · simp only [hne, false_or, ← hinv.occupied id, Chunk.occupied, (hsame id hne).2]
  · have hcount : (front ++ back).length + 1 ≤ geometry.none := by
      have hsub : slot :: (front ++ back) ⊆ List.range geometry.none := by
        intro id hid
        rcases List.mem_cons.1 hid with rfl | hold
        · exact List.mem_range.2 hnone
        · exact List.mem_range.2 (hinv.bound id hold).2
      simpa using ((List.nodup_cons.2 ⟨hnew, hinv.nodup⟩).subperm hsub).length_le
    have := none_lt geometry
    rw [hused, hinv.used, Nat.mod_eq_of_lt (by omega), List.perm_middle.length_eq]
    rfl
  · exact List.perm_middle.trans (hinv.live.cons slot)
  · intro handed hmem
    rcases List.mem_cons.1 hmem with rfl | hold
    · exact hlength.ge
    · have hid : handed.chunk ∈ front ++ back :=
        hinv.live.symm.subset (List.mem_map_of_mem hold)
      rw [(hagree _ hid).2]
      exact hinv.enough handed hold

/-! ## Freeing a chunk -/

/-- `free_chunk` of a chunk of the list unlinks it and empties its slot. -/
theorem freeChunk_spec {geometry : Geometry} {allocator : Allocator} {front back : List ℕ}
    {chunk : ℕ} (hlist : ChunkList geometry allocator (front ++ chunk :: back))
    (hnodup : (front ++ chunk :: back).Nodup)
    (hbound : ∀ id ∈ front ++ chunk :: back, id < geometry.none)
    (hfuel : front.length ≤ geometry.maxChunks) :
    ∃ allocator', freeChunk geometry allocator chunk = some allocator' ∧
      ChunkList geometry allocator' (front ++ back) ∧ (allocator'.reserved chunk).size = 0 ∧
      (∀ id ≠ chunk, (allocator'.reserved id).start = (allocator.reserved id).start ∧
        (allocator'.reserved id).size = (allocator.reserved id).size) ∧
      allocator'.chunksUsed =
        (allocator.chunksUsed + 2 ^ geometry.indexBits - 1) % 2 ^ geometry.indexBits := by
  have hchunk := (List.nodup_cons.1 (List.nodup_middle.1 hnodup)).1
  rw [List.mem_append, not_or] at hchunk
  rcases front.eq_nil_or_concat with rfl | ⟨front, prev, rfl⟩
  · -- the first chunk
    obtain ⟨hfirst, hne, hback⟩ := hlist
    refine ⟨_, by rw [freeChunk, if_neg (hfirst ▸ hne), unlinkChunk, if_pos hfirst.symm]; rfl,
      ?_, by simp [Allocator.setChunk], fun id hid => by simp [Allocator.setChunk, hid], rfl⟩
    refine Segment.congr hback fun id hid => ?_
    have hne' : id ≠ chunk := fun heq => hchunk.2 (heq ▸ hid)
    simp [Allocator.setChunk, hne']
  · -- the chunk behind `prev`
    rw [List.concat_eq_append, List.append_assoc, List.singleton_append] at *
    have hprev : prev ≠ geometry.none := hlist.ne_nil (by simp)
    have hdistinct : prev ≠ chunk := fun heq => hchunk.1 (by simp [heq])
    have hnotFirst : chunk ≠ allocator.firstChunkId := by
      rintro rfl
      cases front with
      | nil => exact hdistinct hlist.1.symm
      | cons first rest => exact hchunk.1 (by simp [hlist.1])
    have hsome : allocator.firstChunkId ≠ geometry.none := by
      cases front with
      | nil => exact hlist.1 ▸ hprev
      | cons first rest => exact hlist.1 ▸ hlist.2.1
    have hnext : (allocator.reserved chunk).next % 2 ^ geometry.indexBits =
        (allocator.reserved chunk).next := by
      obtain ⟨_, -, -, -, -, -, hback⟩ := segment_append.1 hlist
      exact Nat.mod_eq_of_lt (segment_first_le hback fun id hid => hbound id (by simp [hid]))
    have hpredecessor := predecessorFrom_spec geometry hlist hnodup
      (show front.length ≤ geometry.maxChunks by simp at hfuel; omega)
    refine ⟨_, by
      rw [freeChunk, if_neg hsome, unlinkChunk, if_neg hnotFirst, hpredecessor, Option.map_some,
        if_pos hprev]; rfl, ?_, by simp [Allocator.setChunk], fun id hid => ?_, rfl⟩
    · refine Segment.remove_after hlist ?_ fun id hid => ?_
      · simp [Allocator.setChunk, Allocator.setNext, hdistinct, hnext]
      · have hne : id ≠ prev := by
          rintro rfl
          have := (List.nodup_cons.1 (List.nodup_middle.1 hnodup)).1
          simp only [List.mem_append, List.mem_cons] at hid this
          tauto
        have hne' : id ≠ chunk := by
          rintro rfl
          simp only [List.mem_append] at hid hchunk
          tauto
        simp [Allocator.setChunk, Allocator.setNext, hne, hne']
    · rcases eq_or_ne id prev with rfl | hne
      · simp [Allocator.setChunk, Allocator.setNext, hid]
      · simp [Allocator.setChunk, Allocator.setNext, hid, hne]

/-- Freeing a live pointer cannot fail, keeps the invariant and takes out exactly
its chunk. -/
theorem inv_free {geometry : Geometry} {session : Session} {ids : List ℕ} {chunk : ℕ}
    (hinv : Inv geometry session ids) (hlive : chunk ∈ session.live.map Handed.chunk) :
    ∃ next, perform geometry session (.free chunk) = some next ∧
      Inv geometry next (ids.erase chunk) ∧
      ∀ id ∈ ids.erase chunk,
        (next.allocator.reserved id).start = (session.allocator.reserved id).start ∧
          (next.allocator.reserved id).size = (session.allocator.reserved id).size := by
  obtain ⟨front, back, rfl⟩ := List.append_of_mem (hinv.live.symm.subset hlive)
  have hmiddle := List.nodup_cons.1 (List.nodup_middle.1 hinv.nodup)
  have hlength := hinv.length_le
  have hrest : (front ++ chunk :: back).erase chunk = front ++ back := by
    rw [List.erase_append_right _ fun hmem => hmiddle.1 (by simp [hmem]), List.erase_cons_head]
  obtain ⟨allocator', hfree, hlist, hempty, hsame, hused⟩ := freeChunk_spec hinv.chunkList
    hinv.nodup (fun id hid => (hinv.bound id hid).2) (by simp at hlength; omega)
  have hagree : ∀ id ∈ front ++ back,
      (allocator'.reserved id).start = (session.allocator.reserved id).start ∧
        (allocator'.reserved id).size = (session.allocator.reserved id).size :=
    fun id hid => hsame id fun heq => hmiddle.1 (heq ▸ hid)
  rw [perform, if_pos hlive, hfree, hrest]
  refine ⟨_, rfl, ⟨hlist, hinv.packed.remove.congr hagree, hmiddle.2, fun id hid => ?_,
    fun id => ?_, ?_, ?_, fun handed hmem => ?_⟩, hagree⟩
  · exact hinv.bound id (List.perm_middle.symm.subset (List.mem_cons_of_mem _ hid))
  · rcases eq_or_ne id chunk with rfl | hne
    · simpa [Chunk.occupied, hempty] using hmiddle.1
    · have hold := hinv.occupied id
      rw [List.perm_middle.mem_iff, List.mem_cons] at hold
      simp only [hne, false_or, Chunk.occupied] at hold
      simpa only [Chunk.occupied, (hsame id hne).2] using hold
  · have hcount : (front ++ chunk :: back).length ≤ geometry.none := by
      have hsub : front ++ chunk :: back ⊆ List.range geometry.none :=
        fun id hid => List.mem_range.2 (hinv.bound id hid).2
      simpa using (hinv.nodup.subperm hsub).length_le
    have := none_lt geometry
    rw [List.perm_middle.length_eq, List.length_cons] at hcount
    rw [hused, hinv.used, List.perm_middle.length_eq, List.length_cons,
      show (front ++ back).length + 1 + 2 ^ geometry.indexBits - 1 =
        (front ++ back).length + 2 ^ geometry.indexBits by omega,
      Nat.add_mod_right, Nat.mod_eq_of_lt (by omega)]
  · -- the live pointers are distinct, so the filter takes out one
    have hperm : (chunk :: (front ++ back)).Perm (session.live.map Handed.chunk) :=
      List.perm_middle.symm.trans hinv.live
    have hfilter := hperm.filter fun id => decide (id ≠ chunk)
    rw [List.filter_cons_of_neg (by simp), List.filter_eq_self.2 ?_] at hfilter
    · rwa [List.filter_map] at hfilter
    · intro id hid
      simpa using fun heq : id = chunk => hmiddle.1 (heq ▸ hid)
  · have hlive' := (List.mem_filter.1 hmem).1
    have hne : handed.chunk ≠ chunk := by simpa using (List.mem_filter.1 hmem).2
    rw [(hsame _ hne).2]
    exact hinv.enough handed hlive'

/-! ## Whole runs -/

theorem inv_step {geometry : Geometry} {session next : Session} {ids : List ℕ} {op : Op}
    (hinv : Inv geometry session ids) (hintact : Intact geometry session op)
    (hstep : perform geometry session op = some next) : ∃ ids', Inv geometry next ids' := by
  cases op with
  | allocate size n => exact inv_allocate hinv hintact hstep
  | free chunk =>
      by_cases hlive : chunk ∈ session.live.map Handed.chunk
      · obtain ⟨next', hfree, hinv', -⟩ := inv_free hinv hlive
        rw [hfree] at hstep
        exact ⟨_, Option.some.inj hstep ▸ hinv'⟩
      · rw [perform, if_neg hlive] at hstep
        cases hstep

/-- In every run whose calls are all `Intact`, the chunk list is sound, and
freeing any live pointer takes out exactly its chunk. -/
theorem chunks_sound_of_intact_run {geometry : Geometry} {operations : List Op} {session : Session}
    (hrun : Run (Guarded (Intact geometry) (stepOf (perform geometry)))
      (Session.init geometry) operations session) :
    ∃ ids, Sound geometry session ids ∧
      ∀ handed ∈ session.live, FreesExactly geometry session ids handed.chunk := by
  have hstep : ∀ state op next, (∃ ids, Inv geometry state ids) →
      Guarded (Intact geometry) (stepOf (perform geometry)) state op next →
      ∃ ids, Inv geometry next ids := by
    rintro state op next ⟨ids, hids⟩ ⟨hintact, hstep⟩
    exact inv_step hids hintact hstep
  obtain ⟨ids, hids⟩ := hrun.invariant hstep ⟨[], inv_init geometry⟩
  refine ⟨ids, hids.sound, fun handed hmem => ?_⟩
  obtain ⟨next, hfree, hnext, hagree⟩ := inv_free hids (List.mem_map_of_mem hmem)
  exact ⟨next, hfree, hnext.chunkList, hagree⟩

/-- Two chunks are handed out and the first one is freed. -/
theorem chunks_sound_of_intact_run_two_chunks :
    ∃ session, Run (Guarded (Intact ⟨4, 2, 32, true, by decide⟩)
        (stepOf (perform ⟨4, 2, 32, true, by decide⟩)))
      (Session.init ⟨4, 2, 32, true, by decide⟩) [.allocate 2 1, .allocate 1 1, .free 0] session ∧
      ∃ ids, Sound ⟨4, 2, 32, true, by decide⟩ session ids ∧
        ∀ handed ∈ session.live,
          FreesExactly ⟨4, 2, 32, true, by decide⟩ session ids handed.chunk := by
  have hrun : Run (Guarded (Intact ⟨4, 2, 32, true, by decide⟩)
        (stepOf (perform ⟨4, 2, 32, true, by decide⟩)))
      (Session.init ⟨4, 2, 32, true, by decide⟩) [.allocate 2 1, .allocate 1 1, .free 0] _ :=
    .cons ⟨⟨by decide, by decide, by decide, by decide, by decide⟩, rfl⟩ <|
      .cons ⟨⟨by decide, by decide, by decide, by decide, by decide⟩, rfl⟩ <|
        .cons ⟨trivial, rfl⟩ <| .nil _
  exact ⟨_, hrun, chunks_sound_of_intact_run hrun⟩

/-! ## First fit -/

/-- The places in the buffer for `bytes` bytes that no live chunk overlaps. -/
def vacant (geometry : Geometry) (session : Session) (bytes : ℕ) : Set ℕ :=
  {start | start + bytes ≤ geometry.bufferSize ∧ ∀ handed ∈ session.live,
    start + bytes ≤ (session.allocator.reserved handed.chunk).start ∨
      (session.allocator.reserved handed.chunk).stop ≤ start}

/-- The walk of `allocate_chunk` passes no place that is large enough. -/
theorem scanFrom_le {geometry : Geometry} {reserved : ℕ → Chunk} {toAllocate start : ℕ} :
    ∀ {fuel index stop prev last place : ℕ} {ids : List ℕ},
      Segment (fun id => (reserved id).next) geometry.none index ids geometry.none →
      Packed reserved geometry.bufferSize stop ids → stop ≤ start →
      (∀ id ∈ ids, start + toAllocate ≤ (reserved id).start ∨ (reserved id).stop ≤ start) →
      scanFrom geometry reserved toAllocate fuel index stop prev = some (last, place) →
      place ≤ start := by
  intro fuel index stop prev last place ids hlist hpacked hle hapart hscan
  induction ids generalizing fuel index stop prev with
  | nil =>
      obtain rfl : index = geometry.none := hlist
      unfold scanFrom at hscan
      rw [if_pos rfl, Option.some.injEq, Prod.mk.injEq] at hscan
      exact hscan.2 ▸ hle
  | cons id rest ih =>
      obtain ⟨rfl, hne, hrest⟩ := hlist
      obtain ⟨hlow, -, htail⟩ := hpacked
      have hend := htail.low_le
      have hfits := geometry.bufferSize_lt
      rw [Chunk.stop] at hend
      cases fuel with
      | zero => simp [scanFrom, hne] at hscan
      | succ fuel =>
          unfold scanFrom at hscan
          simp only [if_neg hne, toSize_sub_of_le geometry hlow (by omega)] at hscan
          split_ifs at hscan with hgap
          · rw [Option.some.injEq, Prod.mk.injEq] at hscan
            exact hscan.2 ▸ hle
          · -- the gap in front of the chunk is too small for the place
            have hpassed := (hapart index List.mem_cons_self).resolve_left (by omega)
            exact ih hrest htail hpassed (fun id hid => hapart id (List.mem_cons_of_mem _ hid)) hscan

/-- An allocation hands out a chunk exactly when a slot of the table is unused and the buffer has
room for it between the live chunks, and the chunk starts at the lowest address with room. -/
def FirstFit (geometry : Geometry) (session : Session) (size n : ℕ) : Prop :=
  ∃ allocator chunk, allocateChunk geometry session.allocator size n = some (allocator, chunk) ∧
    ((chunk = none ∧
        (geometry.maxChunks ≤ session.live.length ∨ vacant geometry session (size * n) = ∅)) ∨
      ∃ id, chunk = some id ∧ session.live.length < geometry.maxChunks ∧
        IsLeast (vacant geometry session (size * n)) (allocator.reserved id).start)

/-- In every run whose calls are all `Intact`, the allocator is first fit. -/
theorem first_fit_of_intact_run {geometry : Geometry} {operations : List Op} {session : Session}
    (hrun : Run (Guarded (Intact geometry) (stepOf (perform geometry)))
      (Session.init geometry) operations session) {size n : ℕ}
    (hintact : AllocateIntact geometry session size n) : FirstFit geometry session size n := by
  have hstep : ∀ state op next, (∃ ids, Inv geometry state ids) →
      Guarded (Intact geometry) (stepOf (perform geometry)) state op next →
      ∃ ids, Inv geometry next ids := by
    rintro state op next ⟨ids, hids⟩ ⟨hintact, hstep⟩
    exact inv_step hids hintact hstep
  obtain ⟨ids, hinv⟩ := hrun.invariant hstep ⟨[], inv_init geometry⟩
  have hcount : session.live.length = session.allocator.chunksUsed := by
    rw [hinv.used, hinv.live.length_eq, List.length_map]
  have hmod : size * n % 2 ^ geometry.sizeBits = size * n := Nat.mod_eq_of_lt hintact.size_lt
  have hids : ∀ start ∈ vacant geometry session (size * n), ∀ id ∈ ids,
      start + size * n ≤ (session.allocator.reserved id).start ∨
        (session.allocator.reserved id).stop ≤ start := by
    intro start hstart id hid
    obtain ⟨handed, hhanded, rfl⟩ := List.mem_map.1 (hinv.live.subset hid)
    exact hstart.2 handed hhanded
  rw [FirstFit, allocateChunk, hcount]
  by_cases hfull : geometry.maxChunks ≤ session.allocator.chunksUsed
  · exact ⟨_, _, if_pos hfull, .inl ⟨rfl, .inl hfull⟩⟩
  obtain ⟨slot, hslot, hmax, hnone, hnew⟩ := exists_slot hinv hintact (not_le.1 hfull)
  obtain ⟨front, back, rfl, hscan, hgap⟩ := scanFrom_spec geometry (size * n)
    geometry.none hinv.chunkList hinv.packed hinv.length_le
  have hlowest : ∀ start ∈ vacant geometry session (size * n),
      endOf session.allocator.reserved 0 front ≤ start := fun start hstart =>
    scanFrom_le hinv.chunkList hinv.packed (Nat.zero_le _) (hids start hstart) hscan
  obtain ⟨allocator', hinsert, -, hstart, -⟩ :=
    insertChunk_spec (endOf session.allocator.reserved 0 front) hinv.chunkList hinv.nodup
      (fun id hid => (hinv.bound id hid).2) hslot hmax.ne hnone hnew hintact.memory_lt
  simp only [if_neg hfull, hmod, hscan, hinsert, if_neg hnone.ne]
  obtain ⟨hfront, hback⟩ := packed_append.1 hinv.packed
  split_ifs with hend
  · refine ⟨_, _, rfl, .inl ⟨rfl, .inr (Set.eq_empty_of_forall_notMem fun start hvacant => ?_)⟩⟩
    have hle := hlowest start hvacant
    have hroom := hvacant.1
    rcases front.eq_nil_or_concat with rfl | ⟨front, prev, rfl⟩
    · exact hend.1 rfl
    · rw [List.concat_eq_append] at *
      have hstop := hinv.packed.stop_le (show prev ∈ (front ++ [prev]) ++ back by simp)
      rw [show (front ++ [prev]).getLast?.getD geometry.none = prev by simp,
        toSize_sub_of_le geometry hstop geometry.bufferSize_lt] at hend
      rw [endOf_concat] at hle
      omega
  · -- the chunks behind the new one start at its end or later
    have hbehind : Packed session.allocator.reserved geometry.bufferSize
        (endOf session.allocator.reserved 0 front + size * n) back := by
      cases back with
      | nil =>
          rw [List.append_nil] at hinv
          exact stop_le_of_last hinv hintact hend
      | cons next rest => exact ⟨hgap next rfl, hback.2⟩
    refine ⟨_, _, rfl, .inr ⟨slot, rfl, not_le.1 hfull, ?_, ?_⟩⟩
    · rw [hstart]
      refine ⟨hbehind.low_le, fun handed hhanded => ?_⟩
      have hid := hinv.live.symm.subset (List.mem_map_of_mem hhanded)
      rcases List.mem_append.1 hid with hid | hid
      · exact .inr (hfront.stop_le hid)
      · exact .inl (hbehind.low_le_start hid).1
    · rw [hstart]
      exact hlowest

/-- Four bytes and two chunks. -/
def fourBytes : Geometry := ⟨4, 2, 32, true, by decide⟩

/-- The gap that the first chunk has left takes the next one. -/
theorem first_fit_of_intact_run_gap :
    ∃ session, Run (Guarded (Intact fourBytes) (stepOf (perform fourBytes)))
        (Session.init fourBytes) [.allocate 2 1, .allocate 1 1, .free 0] session ∧
      FirstFit fourBytes session 2 1 := by
  have hrun : Run (Guarded (Intact fourBytes) (stepOf (perform fourBytes)))
      (Session.init fourBytes) [.allocate 2 1, .allocate 1 1, .free 0] _ :=
    .cons ⟨⟨by decide, by decide, by decide, by decide, by decide⟩, rfl⟩ <|
      .cons ⟨⟨by decide, by decide, by decide, by decide, by decide⟩, rfl⟩ <|
        .cons ⟨trivial, rfl⟩ <| .nil _
  exact ⟨_, hrun, first_fit_of_intact_run hrun
    ⟨by decide, by decide, by decide, by decide, by decide⟩⟩

end Wiselib.FirstFitAllocator
