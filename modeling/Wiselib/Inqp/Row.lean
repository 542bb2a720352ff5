import Mathlib

/-!
# Rows of the query processor

A row is an array of 32-bit values.  What a value means, and whether a column is
there at all, is said by the `ProjectionInfo` of the operator that made the row.

A `long` has 32 bits, like a value.  The order of floating-point values is a
parameter.
-/

namespace Wiselib.Inqp

/-- `Value`. -/
abbrev Value := UInt32

/-- `Row`. -/
abbrev Row := List Value

/-- `ProjectionInfoBase::TypeInfo`. -/
inductive TypeInfo
  | ignore
  | integer
  | float
  | string
deriving DecidableEq, Repr

/-- `ProjectionInfo`: the types of the columns, of which the missing ones are
ignored. -/
abbrev ProjectionInfo := List TypeInfo

/-- `type`. -/
def ProjectionInfo.type (projection : ProjectionInfo) (col : ℕ) : TypeInfo :=
  projection.getD col .ignore

/-- `columns`: the number of columns that are not ignored. -/
def ProjectionInfo.columns (projection : ProjectionInfo) : ℕ :=
  (projection.filter fun type => type ≠ .ignore).length

/-- `result_type`: the type of a column as seen by the parent operator. -/
def ProjectionInfo.resultType (projection : ProjectionInfo) (col : ℕ) : TypeInfo :=
  (projection.filter fun type => type ≠ .ignore).getD col .ignore

/-- A value as a `long`. -/
def asLong (value : Value) : ℤ :=
  value.toBitVec.toInt

/-- `compare_values`. -/
def compareValues (floatLess : Value → Value → Bool) : TypeInfo → Value → Value → ℤ
  | .integer, first, second =>
      if asLong first < asLong second then -1 else if asLong second < asLong first then 1 else 0
  | .float, first, second =>
      if floatLess first second then -1 else if floatLess second first then 1 else 0
  | .string, first, second => if first < second then -1 else if second < first then 1 else 0
  | .ignore, _, _ => 0

theorem asLong_inj {first second : Value} : asLong first = asLong second ↔ first = second := by
  unfold asLong
  rw [BitVec.toInt_inj, UInt32.toBitVec_inj]

/-- Values are taken for equal: they are, or neither of two floats is less. -/
def SameValue (floatLess : Value → Value → Bool) : TypeInfo → Value → Value → Prop
  | .integer, first, second => first = second
  | .float, first, second => floatLess first second = false ∧ floatLess second first = false
  | .string, first, second => first = second
  | .ignore, _, _ => True

theorem compareValues_eq_zero_iff {floatLess : Value → Value → Bool} {type : TypeInfo}
    {first second : Value} :
    compareValues floatLess type first second = 0 ↔ SameValue floatLess type first second := by
  cases type with
  | ignore => simp [compareValues, SameValue]
  | integer =>
      simp only [compareValues, SameValue]
      rw [← asLong_inj]
      split
      · simp
        omega
      · split
        · simp
          omega
        · simp
          omega
  | float =>
      simp only [compareValues, SameValue]
      split
      · simp_all
      · split
        · simp_all
        · simp_all
  | string =>
      simp only [compareValues, SameValue]
      rw [← UInt32.toNat_inj]
      split
      · rename_i hlt
        rw [UInt32.lt_iff_toNat_lt] at hlt
        simp
        omega
      · split
        · rename_i hlt
          rw [UInt32.lt_iff_toNat_lt] at hlt
          simp
          omega
        · rename_i hge hle
          rw [UInt32.lt_iff_toNat_lt] at hge hle
          simp
          omega

instance (floatLess : Value → Value → Bool) (type : TypeInfo) (first second : Value) :
    Decidable (SameValue floatLess type first second) :=
  decidable_of_iff _ compareValues_eq_zero_iff

end Wiselib.Inqp
