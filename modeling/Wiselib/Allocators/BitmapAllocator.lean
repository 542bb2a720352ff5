import Wiselib.Library.Bitmap
import Wiselib.Library.Run

/-!
# The bitmap allocator

`BitmapAllocator` of `util/allocators/bitmap_allocator.h`.  The buffer is cut
into blocks of `BLOCK_SIZE` bytes.  One bitmap, `used`, says which blocks are
taken.  How long an allocation is gets stored nowhere: the second bitmap,
`start`, carries a mark at the first block of an allocation and another one at
the block behind its last, and `free_chunk` clears `used` until it meets a mark.

Both bitmaps have `BITMAP_SIZE` bytes, and `first_fit` scans the first
`BITMAP_SIZE` *bits* of them.
-/

namespace Wiselib.BitmapAllocator

open Transition Bitmap

/-- The template parameters, and the width of `size_type` in bits. -/
structure Geometry where
  bufferSize : ℕ
  blockSize : ℕ
  sizeBits : ℕ
  blockSize_pos : 0 < blockSize

/-- `BITMAP_SIZE`: the bytes of each bitmap. -/
def Geometry.bitmapSize (geometry : Geometry) : ℕ :=
  (geometry.bufferSize + 1 + 7) / 8

/-- The two bitmaps of the allocator. -/
structure Allocator where
  used : ℕ → Bool
  start : ℕ → Bool

/-- The constructor clears every byte of both bitmaps. -/
def Allocator.init : Allocator :=
  ⟨fun _ => false, fun _ => false⟩

/-- `(n * sizeof(T) + BLOCK_SIZE - 1) / BLOCK_SIZE`, in `size_type`. -/
def requiredBlocks (geometry : Geometry) (size n : ℕ) : ℕ :=
  (n * size + geometry.blockSize - 1) % 2 ^ geometry.sizeBits / geometry.blockSize

/-- `allocate_chunk`: mark the blocks used and put a mark at both ends.  The
result is the offset of the block in `buffer_`. -/
def allocateChunk (geometry : Geometry) (allocator : Allocator) (pos requiredBlocks : ℕ) :
    Allocator × ℕ :=
  let start := Function.update allocator.start pos true
  let used := setRange allocator.used pos true requiredBlocks
  (⟨used, Function.update start (pos + requiredBlocks) true⟩, geometry.blockSize * pos)

/-- The loop of `first_fit`, with `remaining` positions left to look at. -/
def firstFitFrom (used : ℕ → Bool) (requiredBlocks : ℕ) :
    (remaining i startPos length : ℕ) → Option ℕ
  | 0, _, _, _ => none
  | remaining + 1, i, startPos, length =>
      if used i then firstFitFrom used requiredBlocks remaining (i + 1) (i + 1) 0
      else if requiredBlocks ≤ length + 1 then some startPos
      else firstFitFrom used requiredBlocks remaining (i + 1) startPos (length + 1)

/-- `first_fit`; `none` is the null pointer. -/
def firstFit (geometry : Geometry) (allocator : Allocator) (requiredBlocks : ℕ) :
    Option (Allocator × ℕ) :=
  (firstFitFrom allocator.used requiredBlocks geometry.bitmapSize 0 0 0).map fun startPos =>
    allocateChunk geometry allocator startPos requiredBlocks

/-- The loop of `free_chunk`, with `remaining` bits left in the bitmaps.  It is
`none` when the loop runs past their end. -/
def freeFrom (allocator : Allocator) : (remaining pos : ℕ) → Option Allocator
  | 0, _ => none
  | remaining + 1, pos =>
      let cleared := { allocator with used := Function.update allocator.used pos false }
      if cleared.start pos then some cleared else freeFrom cleared remaining (pos + 1)

/-- `free_chunk`. -/
def freeChunk (geometry : Geometry) (allocator : Allocator) (ptr : ℕ) : Option Allocator :=
  let pos := ptr / geometry.blockSize
  freeFrom { allocator with start := Function.update allocator.start pos false }
    (8 * geometry.bitmapSize - pos) pos

/-! ## The allocator and its client -/

/-- What a client holds: the pointer it got and the number of blocks behind it. -/
structure Allocation where
  ptr : ℕ
  blocks : ℕ
  deriving DecidableEq

/-- Block `i` is one of those the allocation was given. -/
def Allocation.Owns (geometry : Geometry) (allocation : Allocation) (i : ℕ) : Prop :=
  allocation.ptr / geometry.blockSize ≤ i ∧
    i < allocation.ptr / geometry.blockSize + allocation.blocks

/-- The allocator with the allocations that are live. -/
structure Session where
  allocator : Allocator
  live : List Allocation

def Session.init : Session :=
  ⟨Allocator.init, []⟩

/-- A client allocates `n` objects of `size` bytes, or frees an allocation. -/
inductive Op where
  | allocate (size n : ℕ)
  | free (allocation : Allocation)

/-- One call.  A client frees only what is live; a failed allocation hands out
nothing. -/
def perform (geometry : Geometry) (session : Session) : Op → Option Session
  | .allocate size n =>
      let required := requiredBlocks geometry size n
      match firstFit geometry session.allocator required with
      | none => some session
      | some (allocator, ptr) => some ⟨allocator, ⟨ptr, required⟩ :: session.live⟩
  | .free allocation =>
      if allocation ∈ session.live then
        (freeChunk geometry session.allocator allocation.ptr).map fun allocator =>
          ⟨allocator, session.live.erase allocation⟩
      else none

/-- Different live allocations have no block in common and end inside the
buffer, and the blocks marked used are exactly theirs. -/
structure Sound (geometry : Geometry) (session : Session) : Prop where
  disjoint : session.live.Pairwise fun first second =>
    ∀ i, ¬ (first.Owns geometry i ∧ second.Owns geometry i)
  inside : ∀ allocation ∈ session.live,
    allocation.ptr + allocation.blocks * geometry.blockSize ≤ geometry.bufferSize
  marked : ∀ i, session.allocator.used i = true ↔
    ∃ allocation ∈ session.live, allocation.Owns geometry i

/-! ## What the loops do -/

/-- What `first_fit` knows at position `i`: the bits from `startPos` on are
clear but too few, and no run starts below `startPos`. -/
private structure Scanned (used : ℕ → Bool) (limit requiredBlocks i startPos length : ℕ) :
    Prop where
  length_eq : startPos + length = i
  short : length < max requiredBlocks 1
  clear : ∀ j, startPos ≤ j → j < i → used j = false
  none_below : ∀ lower < startPos, ¬ FreeRun used limit requiredBlocks lower

private theorem firstFitFrom_spec (used : ℕ → Bool) (requiredBlocks : ℕ) :
    ∀ (remaining i startPos length : ℕ),
      Scanned used (i + remaining) requiredBlocks i startPos length →
      match firstFitFrom used requiredBlocks remaining i startPos length with
      | some pos => LowestFreeRun used (i + remaining) requiredBlocks pos
      | none => ∀ pos, ¬ FreeRun used (i + remaining) requiredBlocks pos := by
  intro remaining
  induction remaining with
  | zero =>
      intro i startPos length hscanned pos hrun
      rcases lt_or_ge pos startPos with hlt | hge
      · exact hscanned.none_below pos hlt hrun
      · have := hrun.1
        have := hscanned.short
        have := hscanned.length_eq
        omega
  | succ remaining ih =>
      intro i startPos length hscanned
      have hlimit : i + (remaining + 1) = i + 1 + remaining := by omega
      have hlength := hscanned.length_eq
      have hshort := hscanned.short
      rw [firstFitFrom]
      split_ifs with hused hlong
      · rw [hlimit]
        refine ih _ _ _ ⟨rfl, by omega, fun j hj hj' => by omega, fun lower hlower => ?_⟩
        rcases lt_or_ge lower startPos with hlt | hge
        · exact hlimit ▸ hscanned.none_below lower hlt
        · intro hrun
          rcases lt_or_ge i (lower + max requiredBlocks 1) with hin | hout
          · exact not_freeRun_of_used (by omega) hin hused hrun
          · omega
      · refine ⟨⟨by omega, fun j hj hj' => ?_⟩, hscanned.none_below⟩
        rcases eq_or_ne j i with rfl | hne
        · simpa using hused
        · exact hscanned.clear j hj (by omega)
      · rw [hlimit]
        refine ih _ _ _ ⟨by omega, by omega, fun j hj hj' => ?_, hlimit ▸ hscanned.none_below⟩
        rcases eq_or_ne j i with rfl | hne
        · simpa using hused
        · exact hscanned.clear j hj (by omega)

theorem firstFitFrom_zero_spec (used : ℕ → Bool) (limit requiredBlocks : ℕ) :
    match firstFitFrom used requiredBlocks limit 0 0 0 with
    | some pos => LowestFreeRun used limit requiredBlocks pos
    | none => ∀ pos, ¬ FreeRun used limit requiredBlocks pos := by
  have := firstFitFrom_spec used requiredBlocks limit 0 0 0
    ⟨rfl, by omega, fun j _ hj => by omega, fun lower hlower => by omega⟩
  simpa using this

theorem firstFit_some {geometry : Geometry} {allocator allocator' : Allocator}
    {required ptr : ℕ} (hfit : firstFit geometry allocator required = some (allocator', ptr)) :
    ∃ pos, LowestFreeRun allocator.used geometry.bitmapSize required pos ∧
      allocateChunk geometry allocator pos required = (allocator', ptr) := by
  have hspec := firstFitFrom_zero_spec allocator.used geometry.bitmapSize required
  rw [firstFit, Option.map_eq_some_iff] at hfit
  obtain ⟨pos, hpos, hchunk⟩ := hfit
  rw [hpos] at hspec
  exact ⟨pos, hspec, hchunk⟩

/-- `stop` carries the first start mark at or behind `pos`. -/
def FirstMark (start : ℕ → Bool) (pos stop : ℕ) : Prop :=
  pos ≤ stop ∧ start stop = true ∧ ∀ i, pos ≤ i → i < stop → start i = false

theorem FirstMark.unique {start : ℕ → Bool} {pos first second : ℕ}
    (hfirst : FirstMark start pos first) (hsecond : FirstMark start pos second) :
    first = second := by
  obtain ⟨hle, hmark, hbefore⟩ := hfirst
  obtain ⟨hle', hmark', hbefore'⟩ := hsecond
  rcases lt_trichotomy first second with hlt | heq | hgt
  · simp [hbefore' first hle hlt] at hmark
  · exact heq
  · simp [hbefore second hle' hgt] at hmark'

private theorem freeFrom_some {allocator' : Allocator} :
    ∀ {remaining pos : ℕ} {allocator : Allocator},
      freeFrom allocator remaining pos = some allocator' →
      ∃ stop, FirstMark allocator.start pos stop ∧ allocator'.start = allocator.start ∧
        ∀ i, allocator'.used i = if pos ≤ i ∧ i ≤ stop then false else allocator.used i := by
  intro remaining
  induction remaining with
  | zero => intro pos allocator hfree; simp [freeFrom] at hfree
  | succ remaining ih =>
      intro pos allocator hfree
      rw [freeFrom] at hfree
      split_ifs at hfree with hmark
      · obtain rfl := Option.some.inj hfree
        refine ⟨pos, ⟨le_rfl, hmark, fun i _ _ => by omega⟩, rfl, fun i => ?_⟩
        rcases eq_or_ne i pos with rfl | hne
        · simp
        · simp only [Function.update_of_ne hne]
          rw [if_neg (by omega)]
      · obtain ⟨stop, ⟨hle, hstop, hbefore⟩, hstart, hused⟩ := ih hfree
        refine ⟨stop, ⟨by omega, hstop, fun i hi hi' => ?_⟩, hstart, fun i => ?_⟩
        · rcases eq_or_ne i pos with rfl | hne
          · simpa using hmark
          · exact hbefore i (by omega) hi'
        · rw [hused]
          rcases eq_or_ne i pos with rfl | hne
          · simp [show i ≤ stop by omega]
          · simp only [Function.update_of_ne hne]
            exact if_congr (by omega) rfl rfl

/-- `free_chunk` clears the blocks from the first one of the allocation up to
and including the next one that carries a mark. -/
theorem freeChunk_some {geometry : Geometry} {allocator allocator' : Allocator} {ptr : ℕ}
    (hfree : freeChunk geometry allocator ptr = some allocator') :
    ∃ stop, FirstMark allocator.start (ptr / geometry.blockSize + 1) stop ∧
      ∀ i, allocator'.used i =
        if ptr / geometry.blockSize ≤ i ∧ i ≤ stop then false else allocator.used i := by
  obtain ⟨stop, ⟨hle, hstop, hbefore⟩, -, hused⟩ := freeFrom_some hfree
  have hne : stop ≠ ptr / geometry.blockSize := by
    rintro rfl
    simp at hstop
  refine ⟨stop, ⟨by omega, ?_, fun i hi hi' => ?_⟩, hused⟩
  · simpa [Function.update_of_ne hne] using hstop
  · simpa [Function.update_of_ne (show i ≠ ptr / geometry.blockSize by omega)] using
      hbefore i (by omega) hi'

/-- `free_chunk` also clears the block behind the allocation.  When that is the
neighbour's only block, the next allocation gets it a second time. -/
theorem exists_run_blocks_not_sound :
    ∃ geometry operations session,
      Run (stepOf (perform geometry)) Session.init operations session ∧
        ¬ Sound geometry session := by
  refine ⟨⟨16, 4, 64, by decide⟩,
    [.allocate 4 1, .allocate 4 1, .free ⟨0, 1⟩, .allocate 8 1], _, Run.of_foldlM rfl,
    fun hsound => ?_⟩
  have hdisjoint := (List.pairwise_cons.1 hsound.disjoint).1 ⟨4, 1⟩ (by decide) 1
  exact hdisjoint ⟨⟨by decide, by decide⟩, ⟨by decide, by decide⟩⟩

/-! ## When the allocator is right -/

/-- The lowest free run of `required` blocks, if there is one among the scanned
bits, ends inside the buffer. -/
def FitsBuffer (geometry : Geometry) (allocator : Allocator) (required : ℕ) : Prop :=
  ∀ pos, LowestFreeRun allocator.used geometry.bitmapSize required pos →
    (pos + required) * geometry.blockSize ≤ geometry.bufferSize

/-- The first start mark behind the first block of the allocation is not before
its last block, and every other block up to that mark is free. -/
def FreesOwn (geometry : Geometry) (allocator : Allocator) (allocation : Allocation) : Prop :=
  ∃ stop, FirstMark allocator.start (allocation.ptr / geometry.blockSize + 1) stop ∧
    allocation.ptr / geometry.blockSize + allocation.blocks ≤ stop + 1 ∧
    ∀ i, allocation.ptr / geometry.blockSize ≤ i → i ≤ stop →
      ¬ allocation.Owns geometry i → allocator.used i = false

/-- The condition under which a call keeps the allocations apart. -/
def Intact (geometry : Geometry) (session : Session) : Op → Prop
  | .allocate size n =>
      FitsBuffer geometry session.allocator (requiredBlocks geometry size n)
  | .free allocation => FreesOwn geometry session.allocator allocation

theorem fitsBuffer_of_bitmapSize_mul_le {geometry : Geometry}
    (hsize : geometry.bitmapSize * geometry.blockSize ≤ geometry.bufferSize)
    (allocator : Allocator) (required : ℕ) : FitsBuffer geometry allocator required := by
  intro pos hrun
  have hend : pos + required ≤ geometry.bitmapSize := by
    have := hrun.1.1
    omega
  exact (Nat.mul_le_mul_right _ hend).trans hsize

/-- `free_chunk` of an allocation whose blocks are marked used clears exactly
these blocks if and only if the marks and the blocks behind it allow it. -/
theorem freeChunk_exact_iff {geometry : Geometry} {allocator allocator' : Allocator}
    {allocation : Allocation} (hfree : freeChunk geometry allocator allocation.ptr = some allocator')
    (hown : ∀ i, allocation.Owns geometry i → allocator.used i = true) :
    (∀ i, allocator'.used i = true ↔
        allocator.used i = true ∧ ¬ allocation.Owns geometry i) ↔
      FreesOwn geometry allocator allocation := by
  obtain ⟨stop, hmark, hused⟩ := freeChunk_some hfree
  constructor
  · intro hexact
    refine ⟨stop, hmark, ?_, fun i hi hi' hnot => ?_⟩
    · by_contra hlong
      have hlast : allocation.Owns geometry (stop + 1) := by
        have := hmark.1
        exact ⟨by omega, by omega⟩
      have hkept : allocator'.used (stop + 1) = true := by
        rw [hused, if_neg (by omega)]
        exact hown _ hlast
      exact ((hexact _).1 hkept).2 hlast
    · have hcleared := (hexact i).not.1 (by rw [hused, if_pos ⟨hi, hi'⟩]; simp)
      simpa using fun hset => hcleared ⟨hset, hnot⟩
  · rintro ⟨stop', hmark', hlong, hothers⟩ i
    obtain rfl := hmark.unique hmark'
    rw [hused]
    split_ifs with hrange
    · simp only [false_iff, not_and, not_not]
      intro hset
      by_contra hnot
      simp [hothers i hrange.1 hrange.2 hnot] at hset
    · have hnot : ¬ allocation.Owns geometry i := by
        rintro ⟨hlow, hhigh⟩
        omega
      simp [hnot]

theorem sound_init (geometry : Geometry) : Sound geometry Session.init :=
  ⟨List.Pairwise.nil, by simp [Session.init], by simp [Session.init, Allocator.init]⟩

theorem sound_allocate {geometry : Geometry} {session next : Session} {size n : ℕ}
    (hsound : Sound geometry session) (hfits : Intact geometry session (.allocate size n))
    (hstep : perform geometry session (.allocate size n) = some next) : Sound geometry next := by
  rw [perform] at hstep
  cases hfit : firstFit geometry session.allocator (requiredBlocks geometry size n) with
  | none =>
      simp only [hfit, Option.some.injEq] at hstep
      exact hstep ▸ hsound
  | some result =>
      obtain ⟨allocator', ptr⟩ := result
      simp only [hfit, Option.some.injEq] at hstep
      obtain ⟨pos, hlowest, hchunk⟩ := firstFit_some hfit
      simp only [allocateChunk, Prod.mk.injEq] at hchunk
      obtain ⟨rfl, rfl⟩ := hchunk
      subst hstep
      have hpos : geometry.blockSize * pos / geometry.blockSize = pos :=
        Nat.mul_div_cancel_left pos geometry.blockSize_pos
      have hfree : ∀ i, pos ≤ i → i < pos + requiredBlocks geometry size n →
          session.allocator.used i = false :=
        fun i hi hi' => hlowest.1.2 i hi (by omega)
      refine ⟨List.pairwise_cons.2 ⟨?_, hsound.disjoint⟩, ?_, fun i => ?_⟩
      · rintro other hother i ⟨hnew, hold⟩
        have hset := (hsound.marked i).2 ⟨other, hother, hold⟩
        simp only [Allocation.Owns, hpos] at hnew
        simp [hfree i hnew.1 hnew.2] at hset
      · intro allocation hmem
        rcases List.mem_cons.1 hmem with rfl | hold
        · have := hfits pos hlowest
          simpa only [Nat.mul_comm geometry.blockSize, ← Nat.add_mul] using this
        · exact hsound.inside allocation hold
      · simp only [setRange_apply, List.mem_cons, exists_eq_or_imp]
        rw [← hsound.marked i]
        simp only [Allocation.Owns, hpos]
        split_ifs with hrange <;> simp [hrange]

theorem sound_free {geometry : Geometry} {session next : Session} {allocation : Allocation}
    (hsound : Sound geometry session) (hown : Intact geometry session (.free allocation))
    (hstep : perform geometry session (.free allocation) = some next) : Sound geometry next := by
  rw [perform] at hstep
  split_ifs at hstep with hlive
  obtain ⟨allocator', hfree, rfl⟩ := Option.map_eq_some_iff.1 hstep
  have hexact := (freeChunk_exact_iff hfree fun i hi =>
    (hsound.marked i).2 ⟨allocation, hlive, hi⟩).2 hown
  have hsplit : (allocation :: session.live.erase allocation).Pairwise fun first second =>
      ∀ i, ¬ (first.Owns geometry i ∧ second.Owns geometry i) :=
    hsound.disjoint.perm (List.perm_cons_erase hlive) fun hsymm i h => hsymm i h.symm
  obtain ⟨hothers, hrest⟩ := List.pairwise_cons.1 hsplit
  refine ⟨hrest, fun other hother => hsound.inside other (List.mem_of_mem_erase hother),
    fun i => ?_⟩
  rw [hexact i, hsound.marked i]
  constructor
  · rintro ⟨⟨owner, howner, hi⟩, hnot⟩
    have hne : owner ≠ allocation := by rintro rfl; exact hnot hi
    exact ⟨owner, (List.mem_erase_of_ne hne).2 howner, hi⟩
  · rintro ⟨owner, howner, hi⟩
    exact ⟨⟨owner, List.mem_of_mem_erase howner, hi⟩, fun hmine => hothers owner howner i ⟨hmine, hi⟩⟩

/-- In every run whose calls are all `Intact`, the live allocations are
disjoint, lie inside the buffer, and own exactly the blocks marked used. -/
theorem blocks_sound_of_intact_run {geometry : Geometry} {operations : List Op} {session : Session}
    (hrun : Run (Guarded (Intact geometry) (stepOf (perform geometry)))
      Session.init operations session) :
    Sound geometry session := by
  refine hrun.invariant (fun session op next hsound hstep => ?_) (sound_init geometry)
  obtain ⟨hintact, hstep⟩ := hstep
  cases op with
  | allocate size n => exact sound_allocate hsound hintact hstep
  | free allocation => exact sound_free hsound hintact hstep

/-- Two neighbours, of which the second one is freed. -/
theorem blocks_sound_of_intact_run_neighbours :
    ∃ session, Run (Guarded (Intact ⟨16, 4, 64, by decide⟩) (stepOf (perform ⟨16, 4, 64, by decide⟩)))
        Session.init [.allocate 4 1, .allocate 4 1, .free ⟨4, 1⟩] session ∧
      Sound ⟨16, 4, 64, by decide⟩ session := by
  have hfits : ∀ allocator required, FitsBuffer ⟨16, 4, 64, by decide⟩ allocator required :=
    fitsBuffer_of_bitmapSize_mul_le (by decide)
  have hrun : Run (Guarded (Intact ⟨16, 4, 64, by decide⟩)
      (stepOf (perform ⟨16, 4, 64, by decide⟩)))
      Session.init [.allocate 4 1, .allocate 4 1, .free ⟨4, 1⟩] _ :=
    .cons ⟨hfits _ _, rfl⟩ <| .cons ⟨hfits _ _, rfl⟩ <| .cons ⟨?_, rfl⟩ <| .nil _
  · exact ⟨_, hrun, blocks_sound_of_intact_run hrun⟩
  · refine ⟨2, ⟨by decide, by decide, fun i (hi : 2 ≤ i) hi' => by omega⟩, by decide,
      fun i (hi : 1 ≤ i) (hi' : i ≤ 2) hnot => ?_⟩
    rcases (show i = 1 ∨ i = 2 by omega) with rfl | rfl
    · exact absurd ⟨by decide, by decide⟩ hnot
    · rfl

end Wiselib.BitmapAllocator
