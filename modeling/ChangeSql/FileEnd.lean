/-
When `next_record` leaves a file.

The end of a file is reported as a byte that a line may begin with too. Here
the lines may hold any bytes, and the table has no floats. A line that begins
with that byte ends its file early, unless it is the first line of a file that
is moved on to: that one is read without being looked at.
-/

import ChangeSql.RecordStream

namespace ChangeSql

open BufferedReader (Represents)

def rowsBytes (rows : List Record) : Bytes :=
  rows.flatMap encodeRow

def rowStart (rows : List Record) (k : Nat) : Nat :=
  (rowsBytes (rows.take k)).length

/-- Files of lines of the right width, for a table without float columns. -/
structure PlainTable (schema : Schema) (files : List (List Record)) : Prop where
  noFloat : schema.floatMask = 0
  few : files.length ≤ 255
  nonempty : ∀ rows ∈ files, rows ≠ []
  filled : ∀ rows ∈ files, ∀ row ∈ rows, row ≠ []
  width : ∀ rows ∈ files, ∀ row ∈ rows, row.length = schema.fieldNames.length
  plain : ∀ rows ∈ files, ∀ row ∈ rows, ∀ value ∈ row, Plain value

namespace QueryBuilder

variable {σ : Type}

/-- The builders that the calls of `next_record` lead to, from the start of
the first file or from the cursor of one of them. -/
inductive Reached (builders : Builders σ) (runtime : Runtime) (schema : Schema)
    (contents : List Bytes) : QueryBuilder σ → Prop where
  | fresh {builder : QueryBuilder σ} {memory : Nat → Bytes} (sized : ∀ i, 0 < (memory i).length)
      (created : create builders schema Segment.fresh memory contents = .ok builder) :
      Reached builders runtime schema contents builder
  | next {builder next : QueryBuilder σ} {rec : Record}
      (reached : Reached builders runtime schema contents builder)
      (ran : nextRecord runtime builder = .ok (rec, next)) :
      Reached builders runtime schema contents next
  | resume {builder again : QueryBuilder σ} {reader : BufferedReader} {segment : Segment}
      {memory : Nat → Bytes} (reached : Reached builders runtime schema contents builder)
      (handled : builder.handle = .ok reader)
      (handleIdx : segment.committedHandleIdx = builder.handleIdx)
      (offset : segment.committedOffset = reader.offset) (sized : ∀ i, 0 < (memory i).length)
      (created : create builders schema segment memory contents = .ok again) :
      Reached builders runtime schema contents again

/-- Wherever the reading has come to, the current file is left, or said to be
the end of all, just if it has been consumed. -/
def LeavesExhausted (builders : Builders σ) (runtime : Runtime) (schema : Schema)
    (contents : List Bytes) : Prop :=
  ∀ builder, Reached builders runtime schema contents builder →
    ∃ rec next reader, nextRecord runtime builder = .ok (rec, next) ∧
      builder.handle = .ok reader ∧
      ((rec = [] ∨ next.handleIdx ≠ builder.handleIdx) ↔ reader.offset = reader.file.length)

/-! ### Lines -/

section Rows

variable {rows : List Record} {row : Record} {k : Nat}

private theorem rowsBytes_drop (rows : List Record) (k : Nat) :
    (rowsBytes rows).drop (rowStart rows k) = rowsBytes (rows.drop k) := by
  have split : rowsBytes rows = rowsBytes (rows.take k) ++ rowsBytes (rows.drop k) := by
    unfold rowsBytes
    rw [← List.flatMap_append, List.take_append_drop]
  unfold rowStart
  rw [split, List.drop_left]

private theorem rowStart_succ (atRow : rows[k]? = some row) :
    rowStart rows (k + 1) = rowStart rows k + (encodeRow row).length := by
  unfold rowStart rowsBytes
  rw [List.take_add_one, atRow, Option.toList_some, List.flatMap_append, List.length_append,
    List.flatMap_singleton]

private theorem rowsBytes_at (atRow : rows[k]? = some row) :
    (rowsBytes rows).drop (rowStart rows k) = encodeRow row ++ rowsBytes (rows.drop (k + 1)) := by
  rw [rowsBytes_drop, List.drop_eq_getElem?_toList_append, atRow]
  rfl

private theorem encodeRow_ne_nil (filled : row ≠ []) : encodeRow row ≠ [] := by
  rcases List.exists_cons_of_ne_nil filled with ⟨value, others, rfl⟩
  rcases encodeRow_cons value others with ⟨separator, _, encoded⟩
  rw [encoded]
  exact List.append_ne_nil_of_right_ne_nil _ (List.cons_ne_nil _ _)

def EndsFile (rows : List Record) (k : Nat) : Prop :=
  ((rowsBytes rows)[rowStart rows k]?).getD eof = eof

private theorem ends_row (filled : row ≠ []) (atRow : rows[k]? = some row) :
    EndsFile rows k ↔ (encodeRow row).head? = some eof := by
  rcases List.exists_cons_of_ne_nil (encodeRow_ne_nil filled) with ⟨first, others, encoded⟩
  unfold EndsFile
  rw [← List.head?_drop, rowsBytes_at atRow, encoded]
  exact Option.some_inj.symm

private theorem endsFile_length (rows : List Record) : EndsFile rows rows.length := by
  unfold EndsFile
  rw [← List.head?_drop, rowsBytes_drop, List.drop_length]
  rfl

private theorem rowStart_eq_length_iff (filled : ∀ row ∈ rows, row ≠ []) (line : k ≤ rows.length) :
    rowStart rows k = (rowsBytes rows).length ↔ k = rows.length := by
  constructor
  · intro atEnd
    rcases Nat.lt_or_eq_of_le line with inside | same
    · exfalso
      have atRow := List.getElem?_eq_getElem inside
      have rest := congrArg List.length (rowsBytes_at atRow)
      have some := encodeRow_ne_nil (filled _ (List.getElem_mem inside))
      have long := List.length_pos_of_ne_nil some
      rw [atEnd, List.drop_length, List.length_nil, List.length_append] at rest
      omega
    · exact same
  · intro same
    unfold rowStart
    rw [same, List.take_length]

private theorem normalizeRow_noFloat (runtime : Runtime) (i : Nat) (row : Record) :
    normalizeRow runtime 0 i row = .ok row := by
  induction row generalizing i with
  | nil => rfl
  | cons value row ih =>
      have same : normalizeField runtime 0 i value = .ok value := by
        unfold normalizeField
        rw [maskBit_zero]
        rfl
      unfold normalizeRow
      rw [same, ih]
      rfl

end Rows

/-! ### Where a builder stands -/

variable {runtime : Runtime} {schema : Schema} {files : List (List Record)}
  {builder : QueryBuilder σ} {h k : Nat} {rows : List Record} {row : Record}

/-- `builder` is in front of line `k` of file number `h`, and has not read
from the files behind it. -/
structure Stands (schema : Schema) (files : List (List Record)) (builder : QueryBuilder σ)
    (h : Nat) (rows : List Record) (k : Nat) : Prop where
  schema : builder.schema = schema
  count : builder.csvHandles.length = files.length
  index : builder.handleIdx.toNat = h
  current : files[h]? = some rows
  line : k ≤ rows.length
  reader : ∃ reader, builder.csvHandles[h]? = some reader ∧
    Represents (rowsBytes rows) reader (rowStart rows k)
  ahead : ∀ j, h < j → ∀ later, files[j]? = some later →
    ∃ reader, builder.csvHandles[j]? = some reader ∧ Represents (rowsBytes later) reader 0

theorem Stands.handle (stands : Stands schema files builder h rows k) :
    ∃ reader, builder.handle = .ok reader ∧
      Represents (rowsBytes rows) reader (rowStart rows k) := by
  rcases stands.reader with ⟨reader, atIndex, represents⟩
  refine ⟨reader, ?_, represents⟩
  unfold QueryBuilder.handle
  rw [stands.index, atIndex]

theorem Stands.setHandle (stands : Stands schema files builder h rows k) {next : Nat}
    (line : next ≤ rows.length) {reader : BufferedReader}
    (represents : Represents (rowsBytes rows) reader (rowStart rows next)) :
    Stands schema files (builder.setHandle reader) h rows next := by
  rcases stands.reader with ⟨old, atIndex, _⟩
  have index := stands.index
  constructor
  · exact stands.schema
  · exact (QueryBuilder.length_setHandle builder reader).trans stands.count
  · exact stands.index
  · exact stands.current
  · exact line
  · refine ⟨reader, ?_, represents⟩
    simp only [QueryBuilder.setHandle, index]
    exact List.getElem?_set_self (List.getElem?_eq_some_iff.mp atIndex).1
  · intro j behind later atLater
    rcases stands.ahead j behind later atLater with ⟨unused, atUnused, fresh⟩
    refine ⟨unused, ?_, fresh⟩
    simp only [QueryBuilder.setHandle, index]
    rw [List.getElem?_set_ne (Nat.ne_of_lt behind)]
    exact atUnused

theorem Stands.advance (stands : Stands schema files builder h rows k) (few : files.length ≤ 255)
    {later : List Record} (atLater : files[h + 1]? = some later) :
    Stands schema files { builder with handleIdx := builder.handleIdx + 1 } (h + 1) later 0 := by
  have inside : h + 1 < files.length := (List.getElem?_eq_some_iff.mp atLater).1
  constructor
  · exact stands.schema
  · exact stands.count
  · change (builder.handleIdx + 1).toNat = h + 1
    rw [UInt8.toNat_add, stands.index]
    change (h + 1) % 256 = h + 1
    omega
  · exact atLater
  · exact Nat.zero_le _
  · exact stands.ahead (h + 1) (Nat.lt_succ_self h) later atLater
  · intro j behind
    exact stands.ahead j (Nat.lt_of_succ_lt behind)

theorem Stands.readRecord (runtime : Runtime) (table : PlainTable schema files)
    (stands : Stands schema files builder h rows k) (atRow : rows[k]? = some row) :
    ∃ next, QueryBuilder.readRecord runtime builder = .ok (row, next) ∧
      Stands schema files next h rows (k + 1) ∧ next.handleIdx = builder.handleIdx := by
  have inFiles := List.mem_of_getElem? stands.current
  have inRows := List.mem_of_getElem? atRow
  have inside : k < rows.length := (List.getElem?_eq_some_iff.mp atRow).1
  rcases stands.handle with ⟨reader, handled, represents⟩
  rcases readFields_row row schema.fieldNames (table.width rows inFiles row inRows)
    (table.plain rows inFiles row inRows) (normalizeRow_noFloat runtime 0 row) represents
    (rowsBytes_at atRow) with ⟨after, fieldsRead, afterRepresents⟩
  rw [← rowStart_succ atRow] at afterRepresents
  refine ⟨builder.setHandle after, ?_, stands.setHandle inside afterRepresents, rfl⟩
  simp only [QueryBuilder.readRecord, handled, stands.schema, table.noFloat, bind, Except.bind,
    fieldsRead]
  rfl

theorem Stands.nextRecord (runtime : Runtime) (table : PlainTable schema files)
    (stands : Stands schema files builder h rows k) :
    ∃ rec next, nextRecord runtime builder = .ok (rec, next) ∧
      ((¬ EndsFile rows k ∧ rec ≠ [] ∧ next.handleIdx = builder.handleIdx ∧
          Stands schema files next h rows (k + 1)) ∨
        (EndsFile rows k ∧ next.handleIdx ≠ builder.handleIdx ∧
          ∃ later, Stands schema files next (h + 1) later 1) ∨
        (EndsFile rows k ∧ rec = [] ∧ h + 1 = files.length ∧
          Stands schema files next h rows k)) := by
  have inFiles := List.mem_of_getElem? stands.current
  have inFile := (List.getElem?_eq_some_iff.mp stands.current).1
  rcases stands.handle with ⟨reader, handled, represents⟩
  rcases represents.peek with ⟨peekedReader, peeked, peekedRepresents, _⟩
  have peekedStands := stands.setHandle stands.line peekedRepresents
  have count := stands.count
  have nextIndex : (builder.handleIdx + 1).toNat = h + 1 := by
    have few := table.few
    rw [UInt8.toNat_add, stands.index]
    change (h + 1) % 256 = h + 1
    omega
  by_cases ends : EndsFile rows k
  · rcases Nat.lt_or_eq_of_le (Nat.succ_le_of_lt inFile) with more | last
    · have atLater : files[h + 1]? = some files[h + 1] := List.getElem?_eq_getElem more
      rcases List.exists_cons_of_ne_nil (table.nonempty _ (List.mem_of_getElem? atLater)) with
        ⟨first, others, laterIs⟩
      rw [laterIs] at atLater
      have advanced := peekedStands.advance table.few atLater
      have notLast : ¬ (builder.handleIdx + 1).toNat = builder.csvHandles.length := by
        omega
      have atFirst : (first :: others)[0]? = some first := rfl
      rcases advanced.readRecord runtime table atFirst with
        ⟨next, recordRead, nextStands, sameIndex⟩
      have moved : next.handleIdx ≠ builder.handleIdx := by
        intro same
        have index := nextStands.index
        rw [same, stands.index] at index
        omega
      have called : QueryBuilder.nextRecord runtime builder = .ok (first, next) := by
        rw [QueryBuilder.nextRecord_eq handled peeked]
        exact (if_pos ends).trans ((if_neg notLast).trans recordRead)
      exact ⟨first, next, called, Or.inr (Or.inl ⟨ends, moved, _, nextStands⟩)⟩
    · have isLast : (builder.handleIdx + 1).toNat = builder.csvHandles.length := by
        omega
      have called : QueryBuilder.nextRecord runtime builder =
          .ok ([], builder.setHandle peekedReader) := by
        rw [QueryBuilder.nextRecord_eq handled peeked]
        exact (if_pos ends).trans (if_pos isLast)
      exact ⟨[], _, called, Or.inr (Or.inr ⟨ends, rfl, last, peekedStands⟩)⟩
  · have inside : k < rows.length := by
      apply Nat.lt_of_le_of_ne stands.line
      intro same
      rw [same] at ends
      exact ends (endsFile_length rows)
    have atRow : rows[k]? = some rows[k] := List.getElem?_eq_getElem inside
    rcases peekedStands.readRecord runtime table atRow with
      ⟨next, recordRead, nextStands, sameIndex⟩
    have filled := table.filled rows inFiles _ (List.getElem_mem inside)
    have called : QueryBuilder.nextRecord runtime builder = .ok (rows[k], next) := by
      rw [QueryBuilder.nextRecord_eq handled peeked]
      exact (if_neg ends).trans recordRead
    exact ⟨rows[k], next, called, Or.inl ⟨ends, filled, sameIndex, nextStands⟩⟩

private theorem create_stands (builders : Builders σ) (segment : Segment) {memory : Nat → Bytes}
    (sized : ∀ i, 0 < (memory i).length)
    (current : files[segment.committedHandleIdx.toNat]? = some rows) (line : k ≤ rows.length)
    (offsetIs : segment.committedOffset = rowStart rows k) :
    ∃ builder, create builders schema segment memory (files.map rowsBytes) = .ok builder ∧
      Stands schema files builder segment.committedHandleIdx.toNat rows k := by
  have opened (j : Nat) (later : List Record) (atLater : files[j]? = some later) :
      ((files.map rowsBytes).mapIdx fun i file => BufferedReader.create (memory i) file)[j]? =
        some (BufferedReader.create (memory j) (rowsBytes later)) := by
    rw [List.getElem?_mapIdx, List.getElem?_map, atLater]
    rfl
  let attached := attach builders schema segment memory (files.map rowsBytes)
  let reader := BufferedReader.create (memory segment.committedHandleIdx.toNat) (rowsBytes rows)
  have fresh : Represents (rowsBytes rows) reader 0 :=
    BufferedReader.create_represents _ (sized _)
  have unread : Stands schema files attached segment.committedHandleIdx.toNat rows 0 := by
    constructor
    · rfl
    · simp [attached, attach]
    · rfl
    · exact current
    · exact Nat.zero_le _
    · exact ⟨reader, opened _ _ current, fresh⟩
    · intro j _ later atLater
      exact ⟨_, opened j later atLater, BufferedReader.create_represents _ (sized j)⟩
  have handled : attached.handle = .ok reader := by
    simp only [QueryBuilder.handle, attached, attach, opened _ _ current]
    rfl
  refine ⟨attached.setHandle (reader.seek segment.committedOffset), ?_, ?_⟩
  · change (attached.handle >>= _) = _
    rw [handled]
    rfl
  · apply unread.setHandle line
    rw [← offsetIs]
    exact fresh.seek _

/-! ### Which files are left in time -/

/-- A line is looked at before it is read unless it is the first of a file
that is moved on to. -/
theorem Reached.stands {builders : Builders σ} (table : PlainTable schema files)
    (reached : Reached builders runtime schema (files.map rowsBytes) builder) :
    ∃ h rows k, Stands schema files builder h rows k ∧ (h = 0 ∨ k ≠ 0) := by
  induction reached with
  | @fresh builder memory sized created =>
      cases filesAre : files with
      | nil =>
          rw [filesAre] at created
          cases created
      | cons first others =>
          have current : files[Segment.fresh.committedHandleIdx.toNat]? = some first := by
            rw [filesAre]
            rfl
          rcases create_stands builders Segment.fresh sized current (Nat.zero_le _) rfl with
            ⟨same, sameCreated, stands⟩
          rw [created] at sameCreated
          cases sameCreated
          rw [filesAre] at stands
          exact ⟨_, _, _, stands, Or.inl rfl⟩
  | next reached ran ih =>
      rcases ih with ⟨h, rows, k, stands, looked⟩
      rcases stands.nextRecord runtime table with ⟨rec, same, sameRan, outcome⟩
      rw [ran] at sameRan
      cases sameRan
      rcases outcome with ⟨_, _, _, on⟩ | ⟨_, _, later, on⟩ | ⟨_, _, _, on⟩
      · exact ⟨h, rows, k + 1, on, Or.inr (Nat.succ_ne_zero k)⟩
      · exact ⟨h + 1, later, 1, on, Or.inr Nat.one_ne_zero⟩
      · exact ⟨h, rows, k, on, looked⟩
  | @resume builder again reader segment memory reached handled handleIdx offset sized created ih =>
      rcases ih with ⟨h, rows, k, stands, looked⟩
      rcases stands.handle with ⟨same, sameHandled, represents⟩
      rw [handled] at sameHandled
      cases sameHandled
      have current : files[segment.committedHandleIdx.toNat]? = some rows := by
        rw [handleIdx, stands.index]
        exact stands.current
      rcases create_stands builders segment sized current stands.line
        (offset.trans represents.offset) with ⟨other, otherCreated, on⟩
      rw [created] at otherCreated
      cases otherCreated
      rw [handleIdx, stands.index] at on
      exact ⟨h, rows, k, on, looked⟩

/-- What the property comes to for one builder. -/
theorem Stands.leaves_iff (table : PlainTable schema files)
    (stands : Stands schema files builder h rows k) :
    (∃ rec next reader, QueryBuilder.nextRecord runtime builder = .ok (rec, next) ∧
      builder.handle = .ok reader ∧
      ((rec = [] ∨ next.handleIdx ≠ builder.handleIdx) ↔ reader.offset = reader.file.length)) ↔
      (EndsFile rows k ↔ k = rows.length) := by
  have inFiles := List.mem_of_getElem? stands.current
  rcases stands.handle with ⟨reader, handled, represents⟩
  rcases stands.nextRecord runtime table with ⟨rec, next, ran, outcome⟩
  have consumed : reader.offset = reader.file.length ↔ k = rows.length := by
    have offset : reader.offset = rowStart rows k := represents.offset
    rw [offset, represents.file]
    exact rowStart_eq_length_iff (table.filled rows inFiles) stands.line
  have finished : (rec = [] ∨ next.handleIdx ≠ builder.handleIdx) ↔ EndsFile rows k := by
    rcases outcome with ⟨ends, some, same, _⟩ | ⟨ends, different, _⟩ | ⟨ends, none, _⟩
    · apply iff_of_false ?_ ends
      intro done
      rcases done with none | different
      · exact some none
      · exact different same
    · exact iff_of_true (Or.inr different) ends
    · exact iff_of_true (Or.inl none) ends
  constructor
  · intro ⟨other, otherNext, otherReader, otherRan, otherHandled, same⟩
    rw [ran] at otherRan
    cases otherRan
    rw [handled] at otherHandled
    cases otherHandled
    rw [← finished, ← consumed]
    exact same
  · intro same
    refine ⟨rec, next, reader, ran, handled, ?_⟩
    rw [finished, consumed]
    exact same

variable {builders : Builders σ}

theorem Reached.line (table : PlainTable schema files)
    (leaves : LeavesExhausted builders runtime schema (files.map rowsBytes))
    (reached : Reached builders runtime schema (files.map rowsBytes) builder)
    (stands : Stands schema files builder h rows k) {distance : Nat}
    (line : k + distance ≤ rows.length) :
    ∃ next, Reached builders runtime schema (files.map rowsBytes) next ∧
      Stands schema files next h rows (k + distance) := by
  induction distance with
  | zero => exact ⟨builder, reached, stands⟩
  | succ distance ih =>
      rcases ih (Nat.le_of_succ_le line) with ⟨between, betweenReached, betweenStands⟩
      have ends := (betweenStands.leaves_iff table).mp (leaves between betweenReached)
      rcases betweenStands.nextRecord runtime table with ⟨rec, next, ran, outcome⟩
      rcases outcome with ⟨_, _, _, on⟩ | ⟨atEnd, _⟩ | ⟨atEnd, _⟩
      · exact ⟨next, betweenReached.next ran, on⟩
      · have last := ends.mp atEnd
        omega
      · have last := ends.mp atEnd
        omega

theorem LeavesExhausted.file (table : PlainTable schema files)
    (leaves : LeavesExhausted builders runtime schema (files.map rowsBytes))
    (current : files[h]? = some rows) :
    ∃ builder, Reached builders runtime schema (files.map rowsBytes) builder ∧
      Stands schema files builder h rows (min h 1) := by
  induction h generalizing rows with
  | zero =>
      have sized : ∀ i : Nat, 0 < ((fun _ => [0]) i : Bytes).length := fun _ => Nat.one_pos
      rcases create_stands builders Segment.fresh sized current (Nat.zero_le _) rfl with
        ⟨builder, created, stands⟩
      exact ⟨builder, .fresh sized created, stands⟩
  | succ h ih =>
      have inside := (List.getElem?_eq_some_iff.mp current).1
      have before : files[h]? = some files[h] := List.getElem?_eq_getElem (by omega)
      rcases ih before with ⟨builder, reached, stands⟩
      have line : min h 1 + (files[h].length - min h 1) ≤ files[h].length := by
        have start := stands.line
        omega
      rcases reached.line table leaves stands line with ⟨between, betweenReached, betweenStands⟩
      have atEnd : min h 1 + (files[h].length - min h 1) = files[h].length := by
        have start := stands.line
        omega
      rw [atEnd] at betweenStands
      rcases betweenStands.nextRecord runtime table with ⟨rec, next, ran, outcome⟩
      rcases outcome with ⟨notEnd, _⟩ | ⟨_, _, later, on⟩ | ⟨_, _, last, _⟩
      · exact absurd (endsFile_length _) notEnd
      · have same := on.current
        rw [current] at same
        cases same
        refine ⟨next, betweenReached.next ran, ?_⟩
        rw [show min (h + 1) 1 = 1 by omega]
        exact on
      · omega

/-- A file is left just when it is exhausted if and only if none of its lines
that `peek` looks at begins with the byte that means its end. -/
theorem leavesExhausted_iff (builders : Builders σ) (runtime : Runtime)
    (table : PlainTable schema files) :
    LeavesExhausted builders runtime schema (files.map rowsBytes) ↔
      ∀ h rows k row, files[h]? = some rows → rows[k]? = some row → (h = 0 ∨ k ≠ 0) →
        (encodeRow row).head? ≠ some eof := by
  constructor
  · intro leaves h rows k row current atRow looked first
    have filled := table.filled rows (List.mem_of_getElem? current) row (List.mem_of_getElem? atRow)
    have inside : k < rows.length := (List.getElem?_eq_some_iff.mp atRow).1
    rcases leaves.file table current with ⟨builder, reached, stands⟩
    have line : min h 1 + (k - min h 1) ≤ rows.length := by omega
    rcases reached.line table leaves stands line with ⟨next, nextReached, nextStands⟩
    have here : min h 1 + (k - min h 1) = k := by omega
    rw [here] at nextStands
    have ends := (nextStands.leaves_iff table).mp (leaves next nextReached)
    have last := ends.mp ((ends_row filled atRow).mpr first)
    omega
  · intro none builder reached
    rcases reached.stands table with ⟨h, rows, k, stands, looked⟩
    apply (stands.leaves_iff table).mpr
    constructor
    · intro ends
      apply (Nat.lt_or_eq_of_le stands.line).resolve_left
      intro inside
      have atRow : rows[k]? = some rows[k] := List.getElem?_eq_getElem inside
      have filled := table.filled rows (List.mem_of_getElem? stands.current) _
        (List.getElem_mem inside)
      exact none h rows k _ stands.current atRow looked ((ends_row filled atRow).mp ends)
    · intro last
      rw [last]
      exact endsFile_length rows

def unseenFiles : List (List Record) :=
  [[[[97], [48], [49]]], [[[255], [48], [49]]]]

private theorem unseenFiles_plain : PlainTable sampleSchema unseenFiles := by
  constructor <;> decide

theorem leavesExhausted_iff_unseenFiles :
    LeavesExhausted (Builders.texts sampleSchema) sampleRuntime sampleSchema
        (unseenFiles.map rowsBytes) ↔
      ∀ h rows k row, unseenFiles[h]? = some rows → rows[k]? = some row → (h = 0 ∨ k ≠ 0) →
        (encodeRow row).head? ≠ some eof :=
  leavesExhausted_iff (Builders.texts sampleSchema) sampleRuntime unseenFiles_plain

def seenFiles : List (List Record) :=
  [[[[255], [48], [49]]]]

/-- The file is left with all of its bytes still to be read. -/
theorem not_leavesExhausted_seenFiles :
    ¬ LeavesExhausted (Builders.texts sampleSchema) sampleRuntime sampleSchema
      (seenFiles.map rowsBytes) := by
  intro leaves
  have table : PlainTable sampleSchema seenFiles := by constructor <;> decide
  have current : seenFiles[0]? = some [[[255], [48], [49]]] := rfl
  rcases leaves.file table current with ⟨builder, reached, stands⟩
  have ends := (stands.leaves_iff table).mp (leaves builder reached)
  have first : EndsFile [[[255], [48], [49]]] 0 := by
    apply (ends_row (List.cons_ne_nil _ _) rfl).mpr
    rfl
  have last := ends.mp first
  cases last

end QueryBuilder

end ChangeSql
