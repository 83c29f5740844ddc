/-
The stream of records that successive `next_record` calls deliver.

A builder is positioned behind a number of records of the file list when the
reader of its current file stands at a record boundary and the readers of the
later files have not been used. One call then delivers the next record of the
list, over any file boundary, or nothing behind the last one.
-/

import ChangeSql.CsvFile
import Mathlib.Data.List.Basic

namespace ChangeSql

open BufferedReader (Represents)

/-! ### Fields and records -/

private theorem normalizeField_of_cons {runtime : Runtime} {floatMask : UInt16} {i : Nat}
    {field : Bytes} {row record : Record}
    (normalized : normalizeRow runtime floatMask i (field :: row) = .ok record) :
    ∃ value values, record = value :: values ∧
      QueryBuilder.normalizeField runtime floatMask i field = .ok value ∧
      normalizeRow runtime floatMask (i + 1) row = .ok values := by
  simp only [normalizeRow, bind, Except.bind] at normalized
  split at normalized
  · contradiction
  · rename_i value valueIs
    split at normalized
    · contradiction
    · rename_i values valuesIs
      cases normalized
      exact ⟨value, values, rfl, valueIs, valuesIs⟩

theorem encodeRow_cons (value : Bytes) (row : Record) :
    ∃ separator, (separator = comma ∨ separator = newline) ∧
      encodeRow (value :: row) = value ++ separator :: encodeRow row := by
  cases row with
  | nil => exact ⟨newline, Or.inr rfl, rfl⟩
  | cons next row => exact ⟨comma, Or.inl rfl, rfl⟩

theorem readFields_row {runtime : Runtime} {floatMask : UInt16} {content rest : Bytes}
    (row : Record) (names : List Bytes) (width : row.length = names.length)
    (plain : ∀ value ∈ row, Plain value) {record : Record} {i position : Nat}
    (normalized : normalizeRow runtime floatMask i row = .ok record)
    {reader : BufferedReader} (represents : Represents content reader position)
    (upcoming : content.drop position = encodeRow row ++ rest) :
    ∃ next, QueryBuilder.readFields runtime floatMask i names reader = .ok (record, next) ∧
      Represents content next (position + (encodeRow row).length) := by
  induction row generalizing names record i position reader with
  | nil =>
      have noNames : names = [] := List.length_eq_zero_iff.mp width.symm
      subst noNames
      cases normalized
      exact ⟨reader, rfl, represents⟩
  | cons field row ih =>
      cases names with
      | nil => cases width
      | cons name names =>
          obtain ⟨value, values, rfl, valueIs, valuesAre⟩ := normalizeField_of_cons normalized
          obtain ⟨separator, isSeparator, encoded⟩ := encodeRow_cons field row
          have upcomingField :
              content.drop position = field ++ separator :: (encodeRow row ++ rest) := by
            rw [upcoming, encoded, List.append_assoc, List.cons_append]
          obtain ⟨between, got, betweenRepresents⟩ :=
            represents.getValue isSeparator (plain field List.mem_cons_self) upcomingField
          have upcomingRow :
              content.drop (position + field.length + 1) = encodeRow row ++ rest := by
            rw [Nat.add_assoc, ← List.drop_drop, upcomingField, ← List.drop_drop, List.drop_left]
            rfl
          obtain ⟨next, readRest, nextRepresents⟩ :=
            ih names (Nat.succ.inj width)
              (fun other member => plain other (List.mem_cons_of_mem _ member)) valuesAre
              betweenRepresents upcomingRow
          refine ⟨next, ?_, ?_⟩
          · simp only [QueryBuilder.readFields, got, bind, Except.bind, valueIs, readRest]
            rfl
          · rw [encoded, List.length_append, List.length_cons,
              show position + (field.length + ((encodeRow row).length + 1)) =
                position + field.length + 1 + (encodeRow row).length by omega]
            exact nextRepresents

/-! ### The position of a builder -/

namespace QueryBuilder

variable {σ : Type} {runtime : Runtime} {schema : Schema}

structure SameState (before after : QueryBuilder σ) : Prop where
  schema : after.schema = before.schema
  segment : after.segment = before.segment
  tmpRecord : after.tmpRecord = before.tmpRecord
  tmpHandleIdx : after.tmpHandleIdx = before.tmpHandleIdx
  tmpOffset : after.tmpOffset = before.tmpOffset
  insertIfNotExistsStmt : after.insertIfNotExistsStmt = before.insertIfNotExistsStmt

private theorem SameState.of_handles {before after : QueryBuilder σ} {handleIdx : UInt8}
    {csvHandles : List BufferedReader}
    (same : SameState { before with handleIdx := handleIdx, csvHandles := csvHandles } after) :
    SameState before after :=
  ⟨same.schema, same.segment, same.tmpRecord, same.tmpHandleIdx, same.tmpOffset,
    same.insertIfNotExistsStmt⟩

/-- `builder` is in file number `h`, somewhere, and the files behind it have
not been read from. -/
structure InFile (files : List (Csv runtime schema)) (builder : QueryBuilder σ) (h : Nat) :
    Prop where
  schema : builder.schema = schema
  count : builder.csvHandles.length = files.length
  index : builder.handleIdx.toNat = h
  inside : h < files.length
  ahead : ∀ j, h < j → ∀ later, files[j]? = some later →
    ∃ reader, builder.csvHandles[j]? = some reader ∧ Represents later.bytes reader 0

/-- `builder` is about to read line `k` of `file`, the file number `h`. -/
structure Positioned (files : List (Csv runtime schema)) (builder : QueryBuilder σ)
    (h : Nat) (file : Csv runtime schema) (k : Nat) : Prop extends InFile files builder h where
  current : files[h]? = some file
  line : k ≤ file.length
  reader : ∃ reader, builder.csvHandles[h]? = some reader ∧
    Represents file.bytes reader (file.boundary k)

variable {files : List (Csv runtime schema)} {builder : QueryBuilder σ} {h k : Nat}
  {file : Csv runtime schema}

theorem InFile.setHandle (inFile : InFile files builder h) (reader : BufferedReader) :
    InFile files (builder.setHandle reader) h := by
  have index := inFile.index
  refine
    { schema := inFile.schema
      count := ?_
      index := inFile.index
      inside := inFile.inside
      ahead := ?_ }
  · exact (length_setHandle builder reader).trans inFile.count
  · intro j later other atLater
    obtain ⟨unused, atUnused, fresh⟩ := inFile.ahead j later other atLater
    refine ⟨unused, ?_, fresh⟩
    simp only [QueryBuilder.setHandle, index]
    rw [List.getElem?_set_ne (Nat.ne_of_lt later)]
    exact atUnused

theorem InFile.advance (inFile : InFile files builder h) (few : files.length ≤ 255)
    {later : Csv runtime schema} (atLater : files[h + 1]? = some later) :
    Positioned files { builder with handleIdx := builder.handleIdx + 1 } (h + 1) later 0 := by
  have index := inFile.index
  have inside : h + 1 < files.length := (List.getElem?_eq_some_iff.mp atLater).1
  refine
    { schema := inFile.schema
      count := inFile.count
      index := ?_
      inside := inside
      ahead := fun j further => inFile.ahead j (Nat.lt_of_succ_lt further)
      current := atLater
      line := Nat.zero_le _
      reader := inFile.ahead (h + 1) (Nat.lt_succ_self h) later atLater }
  change (builder.handleIdx + 1).toNat = h + 1
  rw [UInt8.toNat_add, index]
  change (h + 1) % 256 = h + 1
  omega

theorem Positioned.handle (positioned : Positioned files builder h file k) :
    ∃ reader, builder.handle = .ok reader ∧ builder.csvHandles[h]? = some reader ∧
      Represents file.bytes reader (file.boundary k) := by
  obtain ⟨reader, atIndex, represents⟩ := positioned.reader
  refine ⟨reader, ?_, atIndex, represents⟩
  unfold QueryBuilder.handle
  rw [positioned.index, atIndex]

theorem Positioned.setHandle (positioned : Positioned files builder h file k)
    {reader : BufferedReader} {next : Nat} (line : next ≤ file.length)
    (represents : Represents file.bytes reader (file.boundary next)) :
    Positioned files (builder.setHandle reader) h file next := by
  obtain ⟨old, atIndex, _⟩ := positioned.reader
  refine
    { toInFile := positioned.toInFile.setHandle reader
      current := positioned.current
      line := line
      reader := ⟨reader, ?_, represents⟩ }
  simp only [QueryBuilder.setHandle, positioned.index]
  exact List.getElem?_set_self (List.getElem?_eq_some_iff.mp atIndex).1

private theorem setHandle_sameState (builder : QueryBuilder σ) (reader : BufferedReader) :
    SameState builder (builder.setHandle reader) := by
  constructor <;> rfl

theorem Positioned.readRecord (positioned : Positioned files builder h file k)
    {line : Line runtime schema} (atLine : file[k]? = some line) :
    ∃ next, QueryBuilder.readRecord runtime builder = .ok (line.record, next) ∧
      Positioned files next h file (k + 1) ∧ SameState builder next := by
  obtain ⟨reader, handled, _, represents⟩ := positioned.handle
  have inside : k < file.length := (List.getElem?_eq_some_iff.mp atLine).1
  obtain ⟨after, fieldsRead, afterRepresents⟩ :=
    readFields_row line.raw schema.fieldNames line.width line.plain line.numerals represents
      (file.bytes_at_boundary atLine)
  have boundaryNext := file.boundary_succ atLine
  unfold Line.bytes at boundaryNext
  rw [← boundaryNext] at afterRepresents
  refine ⟨builder.setHandle after, ?_, positioned.setHandle inside afterRepresents,
    setHandle_sameState builder after⟩
  simp only [QueryBuilder.readRecord, handled, positioned.schema, bind, Except.bind, fieldsRead]
  rfl

/-- The test for the end of the file is right about every line, since none of
them starts with the byte that `peek` answers behind the last one. -/
theorem Positioned.peek (positioned : Positioned files builder h file k) :
    ∃ reader byte next, builder.handle = .ok reader ∧ reader.peek = .ok (byte, next) ∧
      Positioned files (builder.setHandle next) h file k ∧
      (byte = eof ↔ k = file.length) := by
  obtain ⟨reader, handled, _, represents⟩ := positioned.handle
  obtain ⟨next, peeked, nextRepresents, _⟩ := represents.peek
  refine ⟨reader, _, next, handled, peeked, positioned.setHandle positioned.line nextRepresents, ?_⟩
  rcases Nat.lt_or_eq_of_le positioned.line with inside | atEnd
  · obtain ⟨line, atLine⟩ : ∃ line, file[k]? = some line :=
      ⟨file[k], List.getElem?_eq_getElem inside⟩
    have upcoming := congrArg List.head? (file.bytes_at_boundary atLine)
    rw [List.head?_drop, List.head?_append] at upcoming
    rcases bytesAre : line.bytes with _ | ⟨start, bytes⟩
    · exact absurd bytesAre line.bytes_ne_nil
    · have start_ne : start ≠ eof := by
        intro same
        apply line.first
        change line.bytes.head? = some eof
        rw [bytesAre, same, List.head?_cons]
      rw [bytesAre] at upcoming
      rw [upcoming]
      simp only [List.head?_cons, Option.or, Option.getD_some]
      constructor
      · intro same
        exact absurd same start_ne
      · intro same
        omega
  · rw [atEnd, Csv.boundary_length, List.getElem?_eq_none (Nat.le_refl _), Option.getD_none]
    simp

theorem Positioned.nextRecord_line (positioned : Positioned files builder h file k)
    {line : Line runtime schema} (atLine : file[k]? = some line) :
    ∃ next, nextRecord runtime builder = .ok (line.record, next) ∧
      Positioned files next h file (k + 1) ∧ SameState builder next := by
  obtain ⟨reader, byte, peekedReader, handled, peeked, peekedPositioned, isEnd⟩ := positioned.peek
  have inside : k < file.length := (List.getElem?_eq_some_iff.mp atLine).1
  have more : byte ≠ eof := fun same => by
    have atEnd := isEnd.mp same
    omega
  obtain ⟨next, recordRead, nextPositioned, same⟩ := peekedPositioned.readRecord atLine
  refine ⟨next, ?_, nextPositioned, same.of_handles⟩
  rw [nextRecord_eq handled peeked, if_neg more]
  exact recordRead

private theorem Positioned.nextRecord_advance (positioned : Positioned files builder h file k)
    (few : files.length ≤ 255) (atEnd : k = file.length) {later : Csv runtime schema}
    (atLater : files[h + 1]? = some later) {line : Line runtime schema}
    (atLine : later[0]? = some line) :
    ∃ next, nextRecord runtime builder = .ok (line.record, next) ∧
      Positioned files next (h + 1) later 1 ∧ SameState builder next := by
  obtain ⟨reader, byte, peekedReader, handled, peeked, peekedPositioned, isEnd⟩ := positioned.peek
  have advanced := peekedPositioned.toInFile.advance few atLater
  have inside : h + 1 < files.length := (List.getElem?_eq_some_iff.mp atLater).1
  obtain ⟨next, recordRead, nextPositioned, same⟩ := advanced.readRecord atLine
  refine ⟨next, ?_, nextPositioned, same.of_handles.of_handles⟩
  have notLast : ¬ (builder.handleIdx + 1).toNat = builder.csvHandles.length := by
    rw [positioned.count]
    have index := advanced.index
    change (builder.handleIdx + 1).toNat = h + 1 at index
    omega
  rw [nextRecord_eq handled peeked, if_pos (isEnd.mpr atEnd), if_neg notLast]
  exact recordRead

theorem Positioned.nextRecord_end (positioned : Positioned files builder h file k)
    (few : files.length ≤ 255) (atEnd : k = file.length) (last : h + 1 = files.length) :
    ∃ next, nextRecord runtime builder = .ok ([], next) ∧
      Positioned files next h file k ∧ SameState builder next := by
  obtain ⟨reader, byte, peekedReader, handled, peeked, peekedPositioned, isEnd⟩ := positioned.peek
  have isLast : (builder.handleIdx + 1).toNat = builder.csvHandles.length := by
    rw [positioned.count, UInt8.toNat_add, positioned.index]
    change (h + 1) % 256 = files.length
    omega
  refine ⟨builder.setHandle peekedReader, ?_, peekedPositioned,
    setHandle_sameState builder peekedReader⟩
  rw [nextRecord_eq handled peeked, if_pos (isEnd.mpr atEnd), if_pos isLast]

/-! ### The position in the list of all records -/

/-- `(h, offset)` is the cursor behind the first `g` lines of all files. The
end of a file and the start of the next one are two cursors for one `g`. -/
def IsBoundary (files : List (Csv runtime schema)) (h offset g : Nat) : Prop :=
  ∃ file k, files[h]? = some file ∧ k ≤ file.length ∧ offset = file.boundary k ∧
    g = (files.take h).flatten.length + k

/-- `builder` has the first `g` lines of all files behind it. -/
def ReadsFrom (files : List (Csv runtime schema)) (builder : QueryBuilder σ) (g : Nat) : Prop :=
  ∃ h file k, Positioned files builder h file k ∧ g = (files.take h).flatten.length + k

private theorem flatten_drop_position (current : files[h]? = some file) (line : k ≤ file.length) :
    files.flatten.drop ((files.take h).flatten.length + k) =
      file.drop k ++ (files.drop (h + 1)).flatten := by
  have inside := (List.getElem?_eq_some_iff.mp current).1
  have fileIs := (List.getElem?_eq_some_iff.mp current).2
  have split : files.flatten = (files.take h).flatten ++ (file ++ (files.drop (h + 1)).flatten) := by
    rw [← fileIs, ← List.flatten_cons, ← List.drop_eq_getElem_cons inside, ← List.flatten_append,
      List.take_append_drop]
  rw [split, List.drop_append, List.drop_eq_nil_of_le (Nat.le_add_right _ _), List.nil_append,
    Nat.add_sub_cancel_left, List.drop_append_of_le_length line]

private theorem flatten_getElem?_position (current : files[h]? = some file)
    (line : k ≤ file.length) :
    files.flatten[(files.take h).flatten.length + k]? =
      (file.drop k ++ (files.drop (h + 1)).flatten).head? := by
  rw [← flatten_drop_position current line, List.head?_drop]

private theorem flatten_length_position (current : files[h]? = some file) (line : k ≤ file.length) :
    (files.take h).flatten.length + k ≤ files.flatten.length := by
  have lengths := congrArg List.length (flatten_drop_position current line)
  rw [List.length_drop, List.length_append, List.length_drop] at lengths
  have split := congrArg (fun rest => rest.flatten.length) (List.take_append_drop (h + 1) files)
  simp only [List.take_add_one, current, Option.toList_some, List.flatten_append,
    List.length_append, List.flatten_singleton] at split
  omega

theorem ReadsFrom.le_length {g : Nat} (reads : ReadsFrom files builder g) :
    g ≤ files.flatten.length := by
  obtain ⟨h, file, k, positioned, rfl⟩ := reads
  exact flatten_length_position positioned.current positioned.line

theorem ReadsFrom.schema_eq {g : Nat} (reads : ReadsFrom files builder g) :
    builder.schema = schema := by
  obtain ⟨h, file, k, positioned, _⟩ := reads
  exact positioned.schema

theorem ReadsFrom.congr {other : QueryBuilder σ} {g : Nat} (reads : ReadsFrom files builder g)
    (schemaSame : other.schema = builder.schema) (indexSame : other.handleIdx = builder.handleIdx)
    (handlesSame : other.csvHandles = builder.csvHandles) : ReadsFrom files other g := by
  obtain ⟨h, file, k, positioned, gIs⟩ := reads
  refine ⟨h, file, k, ?_, gIs⟩
  constructor
  · constructor
    · rw [schemaSame]
      exact positioned.schema
    · rw [handlesSame]
      exact positioned.count
    · rw [indexSame]
      exact positioned.index
    · exact positioned.inside
    · rw [handlesSame]
      exact positioned.ahead
  · exact positioned.current
  · exact positioned.line
  · rw [handlesSame]
    exact positioned.reader

theorem ReadsFrom.cursor {g : Nat} (reads : ReadsFrom files builder g) :
    ∃ reader, builder.handle = .ok reader ∧
      IsBoundary files builder.handleIdx.toNat reader.offset g := by
  obtain ⟨h, file, k, positioned, rfl⟩ := reads
  obtain ⟨reader, handled, _, represents⟩ := positioned.handle
  refine ⟨reader, handled, file, k, ?_, positioned.line, represents.offset, ?_⟩
  · rw [positioned.index]
    exact positioned.current
  · rw [positioned.index]

theorem ReadsFrom.nextRecord {g : Nat} (reads : ReadsFrom files builder g)
    (few : files.length ≤ 255) (nonempty : ∀ later ∈ files.tail, later ≠ [])
    {line : Line runtime schema} (atLine : files.flatten[g]? = some line) :
    ∃ next, QueryBuilder.nextRecord runtime builder = .ok (line.record, next) ∧
      ReadsFrom files next (g + 1) ∧ SameState builder next := by
  obtain ⟨h, file, k, positioned, rfl⟩ := reads
  rw [flatten_getElem?_position positioned.current positioned.line] at atLine
  rcases Nat.lt_or_eq_of_le positioned.line with inside | atEnd
  · have atCurrent : file[k]? = some line := by
      rw [List.head?_append, List.head?_drop, List.getElem?_eq_getElem inside, Option.some_or] at atLine
      rw [List.getElem?_eq_getElem inside, atLine]
    obtain ⟨next, recordRead, nextPositioned, same⟩ := positioned.nextRecord_line atCurrent
    exact ⟨next, recordRead, ⟨h, file, k + 1, nextPositioned, by omega⟩, same⟩
  · rw [atEnd, List.drop_length, List.nil_append] at atLine
    cases afterIs : files.drop (h + 1) with
    | nil =>
        rw [afterIs] at atLine
        cases atLine
    | cons later others =>
        have atLater : files[h + 1]? = some later := by
          rw [← List.head?_drop, afterIs, List.head?_cons]
        have laterMember : later ∈ files.tail := by
          rw [← List.drop_one]
          have suffix : files.drop (h + 1) <:+ files.drop 1 := by
            rw [Nat.add_comm, ← List.drop_drop]
            exact List.drop_suffix h _
          apply suffix.subset
          rw [afterIs]
          exact List.mem_cons_self
        have atFirst : later[0]? = some line := by
          rcases laterIs : later with _ | ⟨start, lines⟩
          · exact absurd laterIs (nonempty later laterMember)
          · rw [afterIs, laterIs, List.flatten_cons, List.cons_append, List.head?_cons] at atLine
            rw [List.getElem?_cons_zero, atLine]
        obtain ⟨next, recordRead, nextPositioned, same⟩ :=
          positioned.nextRecord_advance few atEnd atLater atFirst
        refine ⟨next, recordRead, ⟨h + 1, later, 1, nextPositioned, ?_⟩, same⟩
        rw [List.take_add_one, positioned.current, Option.toList_some, List.flatten_append,
          List.length_append, List.flatten_singleton, atEnd]

theorem ReadsFrom.nextRecord_end {g : Nat} (reads : ReadsFrom files builder g)
    (few : files.length ≤ 255) (nonempty : ∀ later ∈ files.tail, later ≠ [])
    (atEnd : files.flatten.length ≤ g) :
    ∃ next, QueryBuilder.nextRecord runtime builder = .ok ([], next) ∧
      ReadsFrom files next g ∧ SameState builder next ∧
      next.handleIdx.toNat + 1 = files.length := by
  obtain ⟨h, file, k, positioned, rfl⟩ := reads
  have lengths := congrArg List.length (flatten_drop_position positioned.current positioned.line)
  rw [List.length_drop, List.length_append, List.length_drop] at lengths
  have line := positioned.line
  have lineEnd : k = file.length := by omega
  have inside := (List.getElem?_eq_some_iff.mp positioned.current).1
  have last : h + 1 = files.length := by
    rcases Nat.lt_or_eq_of_le (show h + 1 ≤ files.length from inside) with more | last
    · exfalso
      have laterMember : files[h + 1] ∈ files.tail := by
        rw [List.mem_iff_getElem]
        exact ⟨h, by rw [List.length_tail]; omega, List.getElem_tail _⟩
      have laterLength : 0 < files[h + 1].length :=
        List.length_pos_of_ne_nil (nonempty _ laterMember)
      rw [List.drop_eq_getElem_cons more, List.flatten_cons, List.length_append] at lengths
      omega
    · exact last
  obtain ⟨next, recordRead, nextPositioned, same⟩ := positioned.nextRecord_end few lineEnd last
  exact ⟨next, recordRead, ⟨h, file, k, nextPositioned, rfl⟩, same, by rw [nextPositioned.index]; exact last⟩

/-- A new builder goes on where the cursor of its segment says, whatever its
buffers hold. -/
theorem create_positioned (builders : Builders σ) (segment : Segment) {memory : Nat → Bytes}
    (sized : ∀ i, 0 < (memory i).length)
    (current : files[segment.committedHandleIdx.toNat]? = some file) (line : k ≤ file.length)
    (offsetIs : segment.committedOffset = file.boundary k) :
    ∃ builder, create builders schema segment memory (files.map Csv.bytes) = .ok builder ∧
      Positioned files builder segment.committedHandleIdx.toNat file k ∧
      builder.segment = segment ∧ builder.tmpRecord = [] ∧
      builder.insertIfNotExistsStmt = builders.empty := by
  have opened (j : Nat) (later : Csv runtime schema) (atLater : files[j]? = some later) :
      ((files.map Csv.bytes).mapIdx fun i file => BufferedReader.create (memory i) file)[j]? =
        some (BufferedReader.create (memory j) later.bytes) := by
    rw [List.getElem?_mapIdx, List.getElem?_map, atLater]
    rfl
  let attached := attach builders schema segment memory (files.map Csv.bytes)
  let reader := BufferedReader.create (memory segment.committedHandleIdx.toNat) file.bytes
  have handled :
      (attach builders schema segment memory (files.map Csv.bytes)).handle = .ok reader := by
    simp only [handle, attach, opened _ _ current]
    rfl
  have inFile : InFile files attached segment.committedHandleIdx.toNat := by
    refine
      { schema := rfl
        count := ?_
        index := rfl
        inside := (List.getElem?_eq_some_iff.mp current).1
        ahead := ?_ }
    · simp [attached, attach]
    · intro j _further later atLater
      exact ⟨_, opened j later atLater, BufferedReader.create_represents (memory j) (sized j)⟩
  refine ⟨attached.setHandle (reader.seek segment.committedOffset), ?_, ?_, rfl, rfl, rfl⟩
  · simp only [create, bind, Except.bind, handled]
    rfl
  · refine
      { toInFile := inFile.setHandle _
        current := current
        line := line
        reader := ⟨reader.seek segment.committedOffset, ?_, ?_⟩ }
    · exact List.getElem?_set_self (List.getElem?_eq_some_iff.mp (opened _ _ current)).1
    · rw [← offsetIs]
      exact (BufferedReader.create_represents _ (sized _)).seek _

theorem create_readsFrom (builders : Builders σ) (segment : Segment) {memory : Nat → Bytes}
    (sized : ∀ i, 0 < (memory i).length) {g : Nat}
    (boundary : IsBoundary files segment.committedHandleIdx.toNat segment.committedOffset g) :
    ∃ builder, create builders schema segment memory (files.map Csv.bytes) = .ok builder ∧
      ReadsFrom files builder g ∧ builder.segment = segment ∧ builder.tmpRecord = [] ∧
      builder.insertIfNotExistsStmt = builders.empty := by
  obtain ⟨file, k, current, line, offsetIs, gIs⟩ := boundary
  obtain ⟨builder, created, positioned, rest⟩ :=
    create_positioned builders segment sized current line offsetIs
  exact ⟨builder, created, ⟨_, file, k, positioned, gIs⟩, rest⟩

theorem isBoundary_start {first : Csv runtime schema} (atFirst : files[0]? = some first) :
    IsBoundary files 0 0 0 :=
  ⟨first, 0, atFirst, Nat.zero_le _, rfl, rfl⟩

end QueryBuilder

end ChangeSql
