/-
Well-formed CSV files.

A `Line` is one line of a file as the reader wants it, together with the
record that `next_record` makes of it. A file is a list of such lines. Its
record boundaries are the offsets behind its first `k` lines.
-/

import ChangeSql.QueryBuilder
import Mathlib.Data.UInt

namespace ChangeSql

def Plain (value : Bytes) : Prop :=
  ∀ byte ∈ value, ¬ (byte = comma ∨ byte = newline)

instance (value : Bytes) : Decidable (Plain value) :=
  inferInstanceAs (Decidable (∀ byte ∈ value, ¬ (byte = comma ∨ byte = newline)))

def encodeRow : Record → Bytes
  | [] => []
  | [value] => value ++ [newline]
  | value :: next :: row => value ++ comma :: encodeRow (next :: row)

def normalizeRow (runtime : Runtime) (floatMask : UInt16) (i : Nat) :
    Record → Except Fault Record
  | [] => .ok []
  | raw :: row => do
      let value ← QueryBuilder.normalizeField runtime floatMask i raw
      let values ← normalizeRow runtime floatMask (i + 1) row
      return value :: values

structure Line (runtime : Runtime) (schema : Schema) where
  raw : Record
  record : Record
  filled : raw ≠ []
  width : raw.length = schema.fieldNames.length
  plain : ∀ value ∈ raw, Plain value
  first : (encodeRow raw).head? ≠ some eof
  numerals : normalizeRow runtime schema.floatMask 0 raw = .ok record

namespace Line

variable {runtime : Runtime} {schema : Schema}

def bytes (line : Line runtime schema) : Bytes :=
  encodeRow line.raw

theorem bytes_ne_nil (line : Line runtime schema) : line.bytes ≠ [] := by
  unfold bytes
  rcases rawIs : line.raw with _ | ⟨value, row⟩
  · exact absurd rawIs line.filled
  · cases row with
    | nil => simp [encodeRow]
    | cons next row => simp [encodeRow]

end Line

private theorem normalizeRow_length {runtime : Runtime} {floatMask : UInt16} {i : Nat}
    {raw record : Record} (normalized : normalizeRow runtime floatMask i raw = .ok record) :
    record.length = raw.length := by
  induction raw generalizing i record with
  | nil =>
      cases normalized
      rfl
  | cons field row ih =>
      simp only [normalizeRow, bind, Except.bind] at normalized
      split at normalized
      · contradiction
      · split at normalized
        · contradiction
        · rename_i values rest
          cases normalized
          rw [List.length_cons, List.length_cons, ih rest]

namespace Line

variable {runtime : Runtime} {schema : Schema}

theorem record_length (line : Line runtime schema) :
    line.record.length = schema.fieldNames.length := by
  rw [normalizeRow_length line.numerals, line.width]

theorem record_ne_nil (line : Line runtime schema) : line.record ≠ [] := by
  intro none
  have lengths := normalizeRow_length line.numerals
  rw [none, List.length_nil] at lengths
  exact line.filled (List.length_eq_zero_iff.mp lengths.symm)

end Line

/-! ### A small table for examples -/

def sampleRuntime : Runtime :=
  { Float32 := Unit
    stof := fun _ => none
    formatFixed18 := fun _ => []
    xxh3 := fun chunks => (chunks.flatten.map UInt8.toUInt64).sum }

def sampleSchema : Schema :=
  { table := ascii "t"
    fieldNames := [ascii "`k`", ascii "`v`", ascii "`updated_at`"]
    uniqueMask := 1
    floatMask := 0 }

def sampleLine (key value time : Byte)
    (plain : ∀ field ∈ [[key], [value], [time]], Plain field) (first : key ≠ eof) :
    Line sampleRuntime sampleSchema :=
  { raw := [[key], [value], [time]]
    record := [[key], [value], [time]]
    filled := by simp
    width := rfl
    plain := plain
    first := by simpa [encodeRow] using first
    numerals := rfl }

/-- Two versions of the record with key `a`, and between them, at the start of
a second file, a record with key `b`. -/
def sampleFiles : List (List (Line sampleRuntime sampleSchema)) :=
  [[sampleLine 97 49 48 (by decide) (by decide)],
    [sampleLine 98 49 48 (by decide) (by decide), sampleLine 97 50 49 (by decide) (by decide)]]

/-- Two versions of a record each with the keys `a` and `b`. -/
def sampleVersions : List (Line sampleRuntime sampleSchema) :=
  [sampleLine 97 49 48 (by decide) (by decide), sampleLine 97 50 49 (by decide) (by decide),
    sampleLine 98 49 48 (by decide) (by decide), sampleLine 98 50 49 (by decide) (by decide)]

theorem sampleMemory_sized (i : Nat) :
    0 < ((fun _ => List.replicate 4 0 : Nat → Bytes) i).length :=
  Nat.succ_pos 3

abbrev Csv (runtime : Runtime) (schema : Schema) := List (Line runtime schema)

namespace Csv

variable {runtime : Runtime} {schema : Schema}

def bytes (file : Csv runtime schema) : Bytes :=
  file.flatMap Line.bytes

def boundary (file : Csv runtime schema) (k : Nat) : Nat :=
  (bytes (file.take k)).length

private theorem bytes_drop_boundary (file : Csv runtime schema) (k : Nat) :
    file.bytes.drop (boundary file k) = bytes (file.drop k) := by
  have split : file.bytes = bytes (file.take k) ++ bytes (file.drop k) := by
    unfold bytes
    rw [← List.flatMap_append, List.take_append_drop]
  unfold boundary
  rw [split, List.drop_left]

theorem boundary_length (file : Csv runtime schema) :
    boundary file file.length = file.bytes.length := by
  unfold boundary
  rw [List.take_length]

theorem boundary_zero (file : Csv runtime schema) : boundary file 0 = 0 := rfl

theorem boundary_succ (file : Csv runtime schema) {k : Nat} {line : Line runtime schema}
    (atLine : file[k]? = some line) :
    boundary file (k + 1) = boundary file k + line.bytes.length := by
  unfold boundary bytes
  rw [List.take_add_one, atLine, Option.toList_some, List.flatMap_append, List.length_append,
    List.flatMap_singleton]

theorem bytes_at_boundary (file : Csv runtime schema) {k : Nat} {line : Line runtime schema}
    (atLine : file[k]? = some line) :
    file.bytes.drop (boundary file k) = line.bytes ++ bytes (file.drop (k + 1)) := by
  rw [bytes_drop_boundary, List.drop_eq_getElem?_toList_append, atLine]
  rfl

end Csv

def allRecords {runtime : Runtime} {schema : Schema} (files : List (Csv runtime schema)) :
    List Record :=
  files.flatten.map Line.record

theorem allRecords_length {runtime : Runtime} {schema : Schema}
    (files : List (Csv runtime schema)) :
    (allRecords files).length = files.flatten.length :=
  List.length_map _

end ChangeSql
