/-
What a query builder knows about its table, and what it takes from outside.

`DDLInfo` and `TableTask` are the records of `utils.h`. The masks are 16 bits
wide; a column is tested against them with `1 << i`, as `maskBit` does.
-/

import ChangeSql.Bytes
import Mathlib.Data.Nat.Bitwise

namespace ChangeSql

/-- The values of one line of a CSV file, or of one row of a table. -/
abbrev Record := List Bytes

structure DDLInfo where
  fieldNames : List Bytes
  uniqueMask : UInt16
  floatMask : UInt16
  doubleMask : UInt16
  deriving DecidableEq, Repr

structure TableTask where
  db : Bytes
  table : Bytes
  tableDdl : Bytes
  ddlInfo : DDLInfo
  csvs : List Bytes
  deriving DecidableEq, Repr

/-- The members that the constructor of `QueryBuilder` copies out of its task. -/
structure Schema where
  table : Bytes
  fieldNames : List Bytes
  uniqueMask : UInt16
  floatMask : UInt16
  deriving DecidableEq, Repr

def TableTask.schema (task : TableTask) : Schema :=
  { table := task.table
    fieldNames := task.ddlInfo.fieldNames
    uniqueMask := task.ddlInfo.uniqueMask
    floatMask := task.ddlInfo.floatMask }

/-- `((1 << i) & mask) != 0`. The shift is one of `int`, so `i` has to be below
32, as it is for the columns that `parse_ddl` accepts. -/
def maskBit (mask : UInt16) (i : Nat) : Bool :=
  (1 <<< i) &&& mask.toNat ≠ 0

theorem maskBit_eq_testBit (mask : UInt16) (i : Nat) :
    maskBit mask i = mask.toNat.testBit i := by
  unfold maskBit
  rw [Nat.one_shiftLeft, Nat.two_pow_and]
  cases mask.toNat.testBit i <;> simp

/-- `mask |= b << i`, cut to 16 bits. -/
def setMaskBit (mask : UInt16) (b : Bool) (i : Nat) : UInt16 :=
  mask ||| UInt16.ofNat (b.toNat <<< i)

theorem maskBit_setMaskBit (mask : UInt16) (b : Bool) (i k : Nat) :
    maskBit (setMaskBit mask b i) k = (maskBit mask k || (b && decide (k = i ∧ k < 16))) := by
  rw [maskBit_eq_testBit, maskBit_eq_testBit]
  unfold setMaskBit
  rw [UInt16.toNat_or, Nat.testBit_or, UInt16.toNat_ofNat', Nat.testBit_mod_two_pow]
  cases b with
  | false => simp
  | true =>
      rw [Bool.toNat_true, Nat.one_shiftLeft, Nat.testBit_two_pow]
      by_cases same : k = i
      · simp [same]
      · simp [same, Ne.symm same]

theorem maskBit_zero (k : Nat) : maskBit 0 k = false := by
  rw [maskBit_eq_testBit]
  exact Nat.zero_testBit k

theorem maskBit_lt {mask : UInt16} {k : Nat} (bit : maskBit mask k = true) : k < 16 := by
  rw [maskBit_eq_testBit] at bit
  by_contra large
  rw [Nat.testBit_lt_two_pow] at bit
  · cases bit
  · exact Nat.lt_of_lt_of_le mask.toNat_lt (Nat.pow_le_pow_right (by decide) (by omega))

theorem mask_eq_zero {mask : UInt16} (none : ∀ k, maskBit mask k = false) : mask = 0 := by
  apply UInt16.toNat_inj.mp
  apply Nat.eq_of_testBit_eq
  intro k
  rw [← maskBit_eq_testBit, none k]
  exact (Nat.zero_testBit k).symm

/-- What lies outside the sources: the float parser of the standard library,
the formatter for `{:.18f}` and the hash that is fed the key fields one by
one. `stof` has no value where it throws. -/
structure Runtime where
  Float32 : Type
  stof : Bytes → Option Float32
  formatFixed18 : Float32 → Bytes
  xxh3 : List Bytes → UInt64

/-- The loop that ends `normalize_float`. Its first argument is by how much
the text is longer than ten bytes. -/
def trimNumeral : Nat → Bytes → Bytes
  | 0, text => text
  | excess + 1, text =>
      if text.getLast? = some dot then text else trimNumeral excess text.dropLast

def normalizeFloat (runtime : Runtime) (text : Bytes) : Except Fault Bytes :=
  match runtime.stof text with
  | none => .error .uncaughtException
  | some value =>
      let formatted := runtime.formatFixed18 value
      .ok (trimNumeral (formatted.length - 10) formatted)

end ChangeSql
