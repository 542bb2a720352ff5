import Mathlib

/-!
# Bitmaps as functions

A bitmap is a function `ℕ → Bool`; how far a program may index it is the
program's business.  `setRange` is the loop that stores one value in a range of
consecutive bits, and `LowestFreeRun` says what a first-fit scan for a run of
clear bits has to find.
-/

namespace Bitmap

/-- Store `value` in the bits `start, …, start + count - 1`, lowest first. -/
def setRange (bits : ℕ → Bool) (start : ℕ) (value : Bool) : ℕ → ℕ → Bool
  | 0 => bits
  | count + 1 => Function.update (setRange bits start value count) (start + count) value

theorem setRange_apply (bits : ℕ → Bool) (start : ℕ) (value : Bool) (count i : ℕ) :
    setRange bits start value count i =
      if start ≤ i ∧ i < start + count then value else bits i := by
  induction count with
  | zero => rw [setRange, if_neg (by omega)]
  | succ count ih =>
      rcases eq_or_ne i (start + count) with rfl | hne
      · simp [setRange]
      · rw [setRange, Function.update_of_ne hne, ih]
        exact if_congr (by omega) rfl rfl

/-- `count` clear bits, and at least one, start at `pos` and end before `limit`. -/
def FreeRun (bits : ℕ → Bool) (limit count pos : ℕ) : Prop :=
  pos + max count 1 ≤ limit ∧ ∀ i, pos ≤ i → i < pos + max count 1 → bits i = false

/-- `pos` is the lowest position at which `FreeRun` holds. -/
def LowestFreeRun (bits : ℕ → Bool) (limit count pos : ℕ) : Prop :=
  FreeRun bits limit count pos ∧ ∀ lower < pos, ¬ FreeRun bits limit count lower

theorem not_freeRun_of_used {bits : ℕ → Bool} {limit count pos i : ℕ} (hpos : pos ≤ i)
    (hi : i < pos + max count 1) (hused : bits i = true) : ¬ FreeRun bits limit count pos := by
  intro hrun
  simp [hrun.2 i hpos hi] at hused

end Bitmap
