/-
The query builder of one table, as in `query_builder.cpp`.

`Segment` is the shared memory that outlives the process; everything else is
lost when the process ends. The members `tmp_handle_idx` and `tmp_offset` are
not initialised by the constructor. Nothing reads them before `next_query` has
set them, and the model starts them at zero.
-/

import ChangeSql.BufferedReader
import ChangeSql.Statements
import Mathlib.Data.Finset.Insert

namespace ChangeSql

def INSERT_NUM_TUPLES : Nat := 500

structure Segment where
  inserted : Finset UInt64
  committedHandleIdx : UInt8
  committedOffset : Nat
  deriving DecidableEq

def Segment.fresh : Segment :=
  { inserted := ∅
    committedHandleIdx := 0
    committedOffset := 0 }

def Segment.cursor (segment : Segment) : UInt8 × Nat :=
  (segment.committedHandleIdx, segment.committedOffset)

/-- `σ` is what the builder keeps a statement as, see `Builders`. -/
structure QueryBuilder (σ : Type) where
  schema : Schema
  handleIdx : UInt8
  csvHandles : List BufferedReader
  segment : Segment
  tmpRecord : Record
  tmpHandleIdx : UInt8
  tmpOffset : Nat
  insertIfNotExistsStmt : σ

/-- The two stores of `commit`, each of one word of the segment. -/
inductive Store where
  | committedHandleIdx (value : UInt8)
  | committedOffset (value : Nat)
  deriving DecidableEq, Repr

def Segment.store (segment : Segment) : Store → Segment
  | .committedHandleIdx value => { segment with committedHandleIdx := value }
  | .committedOffset value => { segment with committedOffset := value }

namespace QueryBuilder

variable {σ : Type}

/-- `csv_handles[handle_idx]` -/
def handle (builder : QueryBuilder σ) : Except Fault BufferedReader :=
  match builder.csvHandles[builder.handleIdx.toNat]? with
  | some reader => .ok reader
  | none => .error .outOfBounds

def setHandle (builder : QueryBuilder σ) (reader : BufferedReader) : QueryBuilder σ :=
  { builder with csvHandles := builder.csvHandles.set builder.handleIdx.toNat reader }

/-- The constructor up to the `seek`, over the opened files and the segment
that it finds. `memory i` is what the buffer allocated for file `i` holds. -/
def attach (builders : Builders σ) (schema : Schema) (segment : Segment)
    (memory : Nat → Bytes) (files : List Bytes) : QueryBuilder σ :=
  { schema := schema
    handleIdx := segment.committedHandleIdx
    csvHandles := files.mapIdx fun i file => BufferedReader.create (memory i) file
    segment := segment
    tmpRecord := []
    tmpHandleIdx := 0
    tmpOffset := 0
    insertIfNotExistsStmt := builders.empty }

def create (builders : Builders σ) (schema : Schema) (segment : Segment)
    (memory : Nat → Bytes) (files : List Bytes) : Except Fault (QueryBuilder σ) := do
  let builder := attach builders schema segment memory files
  let reader ← builder.handle
  return builder.setHandle (reader.seek segment.committedOffset)

def normalizeField (runtime : Runtime) (floatMask : UInt16) (i : Nat) (raw : Bytes) :
    Except Fault Bytes :=
  if maskBit floatMask i then normalizeFloat runtime raw else .ok raw

/-- The loop of `next_record` over the columns from `i` on. -/
def readFields (runtime : Runtime) (floatMask : UInt16) (i : Nat) :
    List Bytes → BufferedReader → Except Fault (Record × BufferedReader)
  | [], reader => .ok ([], reader)
  | _ :: names, reader => do
      let (raw, reader) ← reader.getValue
      let value ← normalizeField runtime floatMask i raw
      let (values, reader) ← readFields runtime floatMask (i + 1) names reader
      return (value :: values, reader)

def readRecord (runtime : Runtime) (builder : QueryBuilder σ) :
    Except Fault (Record × QueryBuilder σ) := do
  let reader ← builder.handle
  let (values, reader) ←
    readFields runtime builder.schema.floatMask 0 builder.schema.fieldNames reader
  return (values, builder.setHandle reader)

/-- `handle_idx` is an `unsigned char`: both the increment and the comparison
with the number of files see it modulo 256. -/
def nextRecord (runtime : Runtime) (builder : QueryBuilder σ) :
    Except Fault (Record × QueryBuilder σ) := do
  let reader ← builder.handle
  let (byte, reader) ← reader.peek
  let peeked := builder.setHandle reader
  if byte = eof then
    let advanced := { peeked with handleIdx := peeked.handleIdx + 1 }
    if advanced.handleIdx.toNat = advanced.csvHandles.length then
      return ([], { advanced with handleIdx := advanced.handleIdx - 1 })
    else readRecord runtime advanced
  else readRecord runtime peeked

theorem length_setHandle (builder : QueryBuilder σ) (reader : BufferedReader) :
    (builder.setHandle reader).csvHandles.length = builder.csvHandles.length :=
  List.length_set

theorem nextRecord_eq {runtime : Runtime} {builder : QueryBuilder σ} {reader after : BufferedReader}
    {byte : Byte} (handled : builder.handle = .ok reader)
    (peeked : reader.peek = .ok (byte, after)) :
    nextRecord runtime builder =
      if byte = eof then
        if (builder.handleIdx + 1).toNat = builder.csvHandles.length then
          .ok ([], builder.setHandle after)
        else
          readRecord runtime
            { builder.setHandle after with handleIdx := builder.handleIdx + 1 }
      else readRecord runtime (builder.setHandle after) := by
  have index : (builder.setHandle after).handleIdx = builder.handleIdx := rfl
  simp only [nextRecord, handled, peeked, bind, Except.bind, index, length_setHandle,
    UInt8.add_sub_cancel]
  rfl

/-- The chunks that `hash_record` feeds to the hash, from column `i` on. -/
def keyFields (uniqueMask : UInt16) (i : Nat) : Record → List Bytes
  | [] => []
  | value :: rec =>
      if maskBit uniqueMask i then value :: keyFields uniqueMask (i + 1) rec
      else keyFields uniqueMask (i + 1) rec

def hashRecord (runtime : Runtime) (schema : Schema) (rec : Record) : UInt64 :=
  runtime.xxh3 (keyFields schema.uniqueMask 0 rec)

/-- The loop of `next_query`. Its first argument is how many more records
`records.size() <= INSERT_NUM_TUPLES` lets in. There is no result where the
source returns the empty string out of the loop. -/
def collect (runtime : Runtime) :
    Nat → List Record → QueryBuilder σ → Except Fault (Option (List Record) × QueryBuilder σ)
  | 0, records, builder => .ok (some records, builder)
  | room + 1, records, builder => do
      let recHandleIdx := builder.handleIdx
      let reader ← builder.handle
      let recOffset := reader.offset
      let (rec, builder) ← nextRecord runtime builder
      let hash := hashRecord runtime builder.schema rec
      if rec.isEmpty then return (none, builder)
      else if hash ∈ builder.segment.inserted then
        return (some records,
          { builder with
            tmpRecord := rec
            tmpHandleIdx := recHandleIdx
            tmpOffset := recOffset })
      else
        let segment := { builder.segment with inserted := insert hash builder.segment.inserted }
        collect runtime room (records ++ [rec]) { builder with segment := segment }

def addHash (runtime : Runtime) (builder : QueryBuilder σ) (rec : Record) : QueryBuilder σ :=
  { builder with
    segment :=
      { builder.segment with
        inserted := insert (hashRecord runtime builder.schema rec) builder.segment.inserted } }

def keepRecord (builder : QueryBuilder σ) (rec : Record) (handleIdx : UInt8) (offset : Nat) :
    QueryBuilder σ :=
  { builder with
    tmpRecord := rec
    tmpHandleIdx := handleIdx
    tmpOffset := offset }

section

variable {runtime : Runtime} {builder after next : QueryBuilder σ} {reader : BufferedReader}
  {rec : Record} {room : Nat} {earlier : List Record} {outcome : Option (List Record)}

theorem collect_succ (handled : builder.handle = .ok reader)
    (recordRead : nextRecord runtime builder = .ok (rec, after)) :
    collect runtime (room + 1) earlier builder =
      if rec.isEmpty then .ok (none, after)
      else if hashRecord runtime after.schema rec ∈ after.segment.inserted then
        .ok (some earlier, after.keepRecord rec builder.handleIdx reader.offset)
      else collect runtime room (earlier ++ [rec]) (after.addHash runtime rec) := by
  rw [collect, handled, recordRead]
  rfl

theorem collect_cases
    (collected : collect runtime (room + 1) earlier builder = .ok (outcome, next)) :
    ∃ reader rec after, builder.handle = .ok reader ∧
      nextRecord runtime builder = .ok (rec, after) ∧
      ((rec = [] ∧ outcome = none ∧ next = after) ∨
        (outcome = some earlier ∧ next = after.keepRecord rec builder.handleIdx reader.offset) ∨
        collect runtime room (earlier ++ [rec]) (after.addHash runtime rec) =
          .ok (outcome, next)) := by
  cases handled : builder.handle with
  | error fault =>
      rw [collect, handled] at collected
      cases collected
  | ok reader =>
      cases recordRead : nextRecord runtime builder with
      | error fault =>
          rw [collect, handled, recordRead] at collected
          cases collected
      | ok answer =>
          rcases answer with ⟨rec, after⟩
          refine ⟨reader, rec, after, rfl, rfl, ?_⟩
          rw [collect_succ handled recordRead] at collected
          split at collected
          · rename_i none
            cases collected
            exact Or.inl ⟨List.isEmpty_iff.mp none, rfl, rfl⟩
          · split at collected
            · cases collected
              exact Or.inr (Or.inl ⟨rfl, rfl⟩)
            · exact Or.inr (Or.inr collected)

end

/-- The branch labelled `elze`. -/
def updateTmp (builders : Builders σ) (builder : QueryBuilder σ) : σ × QueryBuilder σ :=
  (builders.makeUpdateStatement builder.tmpRecord,
    { builder with
      insertIfNotExistsStmt := builders.makeInsertWhereNotExistsStatement builder.tmpRecord
      tmpRecord := [] })

def nextQuery (builders : Builders σ) (runtime : Runtime) (builder : QueryBuilder σ) :
    Except Fault (σ × QueryBuilder σ) :=
  if !builders.isEmpty builder.insertIfNotExistsStmt then
    .ok (builder.insertIfNotExistsStmt, { builder with insertIfNotExistsStmt := builders.empty })
  else if builder.tmpRecord.isEmpty then do
    let (collected, builder) ← collect runtime (INSERT_NUM_TUPLES + 1) [] builder
    match collected with
    | none => return (builders.empty, builder)
    | some records =>
        if records.isEmpty then return updateTmp builders builder
        else return (builders.makeInsertStatement records, builder)
  else .ok (updateTmp builders builder)

def commitStores (builders : Builders σ) (builder : QueryBuilder σ) : Except Fault (List Store) :=
  if !builders.isEmpty builder.insertIfNotExistsStmt then .ok []
  else if builder.tmpRecord.isEmpty then do
    let reader ← builder.handle
    return [.committedHandleIdx builder.handleIdx, .committedOffset reader.offset]
  else .ok [.committedHandleIdx builder.tmpHandleIdx, .committedOffset builder.tmpOffset]

def commit (builders : Builders σ) (builder : QueryBuilder σ) : Except Fault (QueryBuilder σ) := do
  let stores ← builder.commitStores builders
  return { builder with segment := stores.foldl Segment.store builder.segment }

end QueryBuilder

end ChangeSql
