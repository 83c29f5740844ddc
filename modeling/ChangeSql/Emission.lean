/-
The query builder refines the emitter.

Whatever a builder keeps its statements as, each `nextQuery` over well-formed
files does the emitter's next step and returns that step's statement. Over
texts this is the code; over symbolic statements it is what the results below
are about.
-/

import ChangeSql.Emitter
import ChangeSql.RecordStream

namespace ChangeSql

open FreshRuns
open QueryBuilder (ReadsFrom IsBoundary SameState)

def recordKey (runtime : Runtime) (schema : Schema) (rec : Record) : UInt64 :=
  QueryBuilder.hashRecord runtime schema rec

/-- What the well-formedness of the inputs amounts to for the whole list. -/
structure Readable {runtime : Runtime} {schema : Schema} (files : List (Csv runtime schema)) :
    Prop where
  few : files.length ≤ 255
  nonempty : ∀ later ∈ files, later ≠ []

theorem Readable.tail {runtime : Runtime} {schema : Schema} {files : List (Csv runtime schema)}
    (readable : Readable files) : ∀ later ∈ files.tail, later ≠ [] :=
  fun later member => readable.nonempty later (List.mem_of_mem_tail member)

theorem Readable.columns {runtime : Runtime} {schema : Schema} {files : List (Csv runtime schema)}
    (readable : Readable files) {h : Nat} {file : Csv runtime schema}
    (current : files[h]? = some file) : schema.fieldNames ≠ [] := by
  rcases List.exists_cons_of_ne_nil (readable.nonempty file (List.mem_of_getElem? current)) with
    ⟨line, lines, fileIs⟩
  intro none
  have width := line.width
  rw [none, List.length_nil] at width
  exact line.filled (List.length_eq_zero_iff.mp width)

theorem sampleFiles_readable : Readable sampleFiles := by
  refine ⟨by decide, ?_⟩
  intro later member
  rcases List.mem_cons.mp member with rfl | member
  · exact List.cons_ne_nil _ _
  · cases List.mem_singleton.mp member
    exact List.cons_ne_nil _ _

section

variable {σ : Type} {runtime : Runtime} {schema : Schema} (files : List (Csv runtime schema))

/-- What the loop of `next_query` does from position `pos` on, with room for
so many more records behind those of `earlier`. -/
structure Collects (room : Nat) (earlier : List Record) (builder : QueryBuilder σ) (pos : Nat)
    (batch : List Record) (outcome : Option (List Record)) (next : QueryBuilder σ) : Prop where
  segment : next.segment =
    { builder.segment with
      inserted := builder.segment.inserted ∪ keysOf (recordKey runtime schema) batch }
  stmt : next.insertIfNotExistsStmt = builder.insertIfNotExistsStmt
  full : batch.length = room →
    outcome = some (earlier ++ batch) ∧ ReadsFrom files next (pos + batch.length) ∧
      next.tmpRecord = builder.tmpRecord
  exhausted : batch.length ≠ room → (allRecords files)[pos + batch.length]? = none →
    outcome = none ∧ ReadsFrom files next (pos + batch.length) ∧
      next.tmpRecord = builder.tmpRecord
  stopped : batch.length ≠ room → ∀ rec, (allRecords files)[pos + batch.length]? = some rec →
    outcome = some (earlier ++ batch) ∧ ReadsFrom files next (pos + batch.length + 1) ∧
      next.tmpRecord = rec ∧
      IsBoundary files next.tmpHandleIdx.toNat next.tmpOffset (pos + batch.length)

variable {files}

theorem Collects.cons {room : Nat} {earlier : List Record} {builder after : QueryBuilder σ}
    {pos : Nat} {rec : Record} {batch : List Record} {outcome : Option (List Record)}
    {next : QueryBuilder σ} (same : SameState builder after) (afterSchema : after.schema = schema)
    (collects : Collects files room (earlier ++ [rec]) (after.addHash runtime rec) (pos + 1) batch
      outcome next) :
    Collects files (room + 1) earlier builder pos (rec :: batch) outcome next := by
  have position : pos + (rec :: batch).length = pos + 1 + batch.length := by
    rw [List.length_cons]
    omega
  have gathered : earlier ++ rec :: batch = earlier ++ [rec] ++ batch := by
    rw [List.append_assoc, List.singleton_append]
  have sizes : (rec :: batch).length = room + 1 ↔ batch.length = room := by
    rw [List.length_cons, Nat.add_right_cancel_iff]
  constructor
  · rw [collects.segment, QueryBuilder.addHash, keysOf_cons, afterSchema, same.segment,
      Finset.insert_union, Finset.union_insert]
    rfl
  · rw [collects.stmt]
    exact same.insertIfNotExistsStmt
  · intro size
    rw [position, gathered, ← same.tmpRecord]
    exact collects.full (sizes.mp size)
  · intro size
    rw [position, ← same.tmpRecord]
    exact collects.exhausted (fun short => size (sizes.mpr short))
  · intro size
    rw [position, gathered]
    exact collects.stopped (fun short => size (sizes.mpr short))

private theorem collects_end (readable : Readable files) {room : Nat} {earlier : List Record}
    {builder : QueryBuilder σ} {pos : Nat} (reads : ReadsFrom files builder pos)
    (atPos : files.flatten[pos]? = none) :
    ∃ next, QueryBuilder.collect runtime (room + 1) earlier builder = .ok (none, next) ∧
      Collects files (room + 1) earlier builder pos [] none next := by
  obtain ⟨reader, handled, _⟩ := reads.cursor
  obtain ⟨next, recordRead, nextReads, same, _⟩ :=
    reads.nextRecord_end readable.few readable.tail (List.getElem?_eq_none_iff.mp atPos)
  have collected : QueryBuilder.collect runtime (room + 1) earlier builder = .ok (none, next) := by
    rw [QueryBuilder.collect_succ handled recordRead]
    rfl
  refine ⟨next, collected, ?_⟩
  refine
    { segment := by rw [keysOf_nil, Finset.union_empty, same.segment]
      stmt := same.insertIfNotExistsStmt
      full := fun zero => absurd zero (Nat.succ_ne_zero room).symm
      exhausted := fun _ _ => ⟨rfl, nextReads, same.tmpRecord⟩
      stopped := ?_ }
  intro _ rec atRec
  change (allRecords files)[pos]? = some rec at atRec
  rw [allRecords, List.getElem?_map, atPos] at atRec
  cases atRec

theorem Collects.known {room : Nat} {earlier : List Record} {builder after : QueryBuilder σ}
    {reader : BufferedReader} {pos : Nat} {rec : Record} (same : SameState builder after)
    (boundary : IsBoundary files builder.handleIdx.toNat reader.offset pos)
    (afterReads : ReadsFrom files after (pos + 1)) (atRecord : (allRecords files)[pos]? = some rec) :
    Collects files (room + 1) earlier builder pos [] (some earlier)
      (after.keepRecord rec builder.handleIdx reader.offset) := by
  refine
    { segment := by
        rw [keysOf_nil, Finset.union_empty]
        exact same.segment
      stmt := same.insertIfNotExistsStmt
      full := fun zero => absurd zero (Nat.succ_ne_zero room).symm
      exhausted := ?_
      stopped := ?_ }
  · intro _ exhausted
    change (allRecords files)[pos]? = none at exhausted
    rw [atRecord] at exhausted
    cases exhausted
  · intro _ other atOther
    change (allRecords files)[pos]? = some other at atOther
    rw [atRecord] at atOther
    cases atOther
    exact ⟨by rw [List.append_nil], afterReads.congr rfl rfl rfl, rfl, boundary⟩

theorem collect_collects (readable : Readable files) (room : Nat) (earlier : List Record)
    {builder : QueryBuilder σ} {pos : Nat} (reads : ReadsFrom files builder pos) :
    ∃ outcome next,
      QueryBuilder.collect runtime room earlier builder = .ok (outcome, next) ∧
      Collects files room earlier builder pos
        (takeFresh (recordKey runtime schema) room builder.segment.inserted
          ((allRecords files).drop pos)) outcome next := by
  induction room generalizing earlier builder pos with
  | zero =>
      refine ⟨some earlier, builder, rfl, ?_⟩
      unfold takeFresh
      refine
        { segment := by rw [keysOf_nil, Finset.union_empty]
          stmt := rfl
          full := fun _ => ⟨by rw [List.append_nil], reads, rfl⟩
          exhausted := fun ne => absurd rfl ne
          stopped := fun ne => absurd rfl ne }
  | succ room ih =>
      cases atPos : files.flatten[pos]? with
      | none =>
          have noneLeft : (allRecords files).drop pos = [] := by
            rw [List.drop_eq_nil_iff, allRecords_length]
            exact List.getElem?_eq_none_iff.mp atPos
          obtain ⟨next, collected, collects⟩ := collects_end readable reads atPos
          rw [noneLeft]
          exact ⟨none, next, collected, collects⟩
      | some line =>
          obtain ⟨reader, handled, boundary⟩ := reads.cursor
          obtain ⟨after, recordRead, afterReads, same⟩ :=
            reads.nextRecord readable.few readable.tail atPos
          have atRecord : (allRecords files)[pos]? = some line.record := by
            rw [allRecords, List.getElem?_map, atPos]
            rfl
          have upcoming : (allRecords files).drop pos =
              line.record :: (allRecords files).drop (pos + 1) := by
            rw [List.drop_eq_getElem?_toList_append, atRecord]
            rfl
          have filled : ¬ line.record.isEmpty = true := fun none =>
            line.record_ne_nil (List.isEmpty_iff.mp none)
          have afterSchema : after.schema = schema := by rw [same.schema, reads.schema_eq]
          have keyIs : QueryBuilder.hashRecord runtime schema line.record =
              recordKey runtime schema line.record := rfl
          rw [QueryBuilder.collect_succ handled recordRead, if_neg filled, afterSchema,
            same.segment, keyIs, upcoming, takeFresh]
          by_cases known : recordKey runtime schema line.record ∈ builder.segment.inserted
          · rw [if_pos known, if_pos known]
            exact ⟨some earlier, _, rfl, .known same boundary afterReads atRecord⟩
          · have grownReads : ReadsFrom files (after.addHash runtime line.record) (pos + 1) :=
              afterReads.congr rfl rfl rfl
            obtain ⟨outcome, next, collected, collects⟩ := ih (earlier ++ [line.record]) grownReads
            have insertedIs : (after.addHash runtime line.record).segment.inserted =
                insert (recordKey runtime schema line.record) builder.segment.inserted := by
              rw [QueryBuilder.addHash, afterSchema, same.segment]
              rfl
            rw [insertedIs] at collects
            rw [if_neg known, if_neg known]
            exact ⟨outcome, next, collected, collects.cons same afterSchema⟩

/-! ### The builder and the emitter in step -/

def Emitter.awaited (emitter : Emitter) : Statement :=
  match emitter.pending with
  | some rec => .insertWhereNotExists rec
  | none => .empty

/-- `builder` stands where `emitter` does. -/
structure Simulates (files : List (Csv runtime schema)) (builders : Builders σ)
    (builder : QueryBuilder σ) (emitter : Emitter) : Prop where
  reads : ReadsFrom files builder emitter.pos
  inserted : builder.segment.inserted = emitter.seen
  deferred : builder.tmpRecord = emitter.tmp.getD []
  saved : ∀ rec, emitter.tmp = some rec →
    IsBoundary files builder.tmpHandleIdx.toNat builder.tmpOffset emitter.handed
  awaited : builder.insertIfNotExistsStmt = emitter.awaited.build builders
  valid : emitter.Valid (allRecords files)

def Emitter.emit (files : List (Csv runtime schema)) (emitter : Emitter) : Statement × Emitter :=
  emitter.next (recordKey runtime schema) (allRecords files) (INSERT_NUM_TUPLES + 1)

abbrev Emitter.EmitsOver (files : List (Csv runtime schema)) :
    Emitter → Statement → Emitter → Prop :=
  Emitter.Emits (recordKey runtime schema) (allRecords files) (INSERT_NUM_TUPLES + 1)

theorem Emitter.emit_emits (files : List (Csv runtime schema)) (emitter : Emitter) :
    EmitsOver files emitter (emitter.emit files).1 (emitter.emit files).2 :=
  emitter.next_emits

private theorem record_filled {files : List (Csv runtime schema)} {k : Nat} {rec : Record}
    (atRecord : (allRecords files)[k]? = some rec) : rec ≠ [] := by
  rw [allRecords, List.getElem?_map, Option.map_eq_some_iff] at atRecord
  rcases atRecord with ⟨line, _, rfl⟩
  exact line.record_ne_nil

variable {builders : Builders σ} {builder : QueryBuilder σ} {emitter : Emitter}

theorem Simulates.awaits (simulates : Simulates files builders builder emitter)
    (lawful : builders.Lawful) :
    builders.isEmpty builder.insertIfNotExistsStmt = true ↔ emitter.pending = none := by
  rw [simulates.awaited, lawful]
  unfold Emitter.awaited
  cases emitter.pending <;> simp

theorem Simulates.defers (simulates : Simulates files builders builder emitter) :
    builder.tmpRecord.isEmpty = true ↔ emitter.tmp = none := by
  rw [simulates.deferred]
  cases tmp : emitter.tmp with
  | none => simp
  | some rec =>
      rcases simulates.valid.deferred rec tmp with ⟨k, _, atRecord⟩
      have filled := record_filled atRecord
      simpa using filled

theorem Simulates.congr (simulates : Simulates files builders builder emitter) {segment : Segment}
    (inserted : segment.inserted = builder.segment.inserted) :
    Simulates files builders { builder with segment := segment } emitter :=
  { reads := simulates.reads.congr rfl rfl rfl
    inserted := inserted.trans simulates.inserted
    deferred := simulates.deferred
    saved := simulates.saved
    awaited := simulates.awaited
    valid := simulates.valid }

def StepsWith (files : List (Csv runtime schema)) (builders : Builders σ)
    (builder : QueryBuilder σ) (emitted : Statement × Emitter) : Prop :=
  ∃ next, QueryBuilder.nextQuery builders runtime builder =
      .ok (emitted.1.build builders, next) ∧
    Simulates files builders next emitted.2 ∧
    next.segment = { builder.segment with inserted := emitted.2.seen }

theorem nextQuery_awaited (simulates : Simulates files builders builder emitter)
    (lawful : builders.Lawful) {rec : Record} (pending : emitter.pending = some rec) :
    StepsWith files builders builder
      (.insertWhereNotExists rec, { emitter with pending := none }) := by
  have awaiting : builders.isEmpty builder.insertIfNotExistsStmt = false := by
    rw [Bool.eq_false_iff, ne_eq, simulates.awaits lawful, pending]
    exact Option.some_ne_none rec
  have statementIs : builder.insertIfNotExistsStmt =
      builders.makeInsertWhereNotExistsStatement rec := by
    rw [simulates.awaited, Emitter.awaited, pending]
    rfl
  have emits : Emitter.EmitsOver files emitter _ _ := .complete emitter rec pending
  refine ⟨{ builder with insertIfNotExistsStmt := builders.empty }, ?_, ?_, ?_⟩
  · unfold QueryBuilder.nextQuery
    rw [awaiting, statementIs]
    rfl
  · exact
      { reads := simulates.reads.congr rfl rfl rfl
        inserted := simulates.inserted
        deferred := simulates.deferred
        saved := simulates.saved
        awaited := rfl
        valid := emits.valid simulates.valid }
  · rw [← simulates.inserted]

private theorem nextQuery_deferred (simulates : Simulates files builders builder emitter)
    (lawful : builders.Lawful) (pending : emitter.pending = none) {rec : Record}
    (tmp : emitter.tmp = some rec) :
    StepsWith files builders builder
      (.update rec, { emitter with tmp := none, pending := some rec }) := by
  have quiet : builders.isEmpty builder.insertIfNotExistsStmt = true :=
    (simulates.awaits lawful).mpr pending
  have recordIs : builder.tmpRecord = rec := by
    rw [simulates.deferred, tmp]
    rfl
  have present : builder.tmpRecord.isEmpty = false := by
    rw [Bool.eq_false_iff, ne_eq, simulates.defers, tmp]
    exact Option.some_ne_none rec
  have emits : Emitter.EmitsOver files emitter _ _ := .deferred emitter rec pending tmp
  refine ⟨(QueryBuilder.updateTmp builders builder).2, ?_, ?_, ?_⟩
  · unfold QueryBuilder.nextQuery
    rw [quiet, present, ← recordIs]
    rfl
  · exact
      { reads := simulates.reads.congr rfl rfl rfl
        inserted := simulates.inserted
        deferred := rfl
        saved := fun other impossible => nomatch impossible
        awaited := by rw [← recordIs]; rfl
        valid := emits.valid simulates.valid }
  · rw [← simulates.inserted]
    rfl

def afterLoop (builders : Builders σ) (next : QueryBuilder σ) :
    Option (List Record) → σ × QueryBuilder σ
  | none => (builders.empty, next)
  | some [] => QueryBuilder.updateTmp builders next
  | some (rec :: records) => (builders.makeInsertStatement (rec :: records), next)

theorem nextQuery_collect (quiet : builders.isEmpty builder.insertIfNotExistsStmt = true)
    (nothing : builder.tmpRecord.isEmpty = true) {outcome : Option (List Record)}
    {next : QueryBuilder σ}
    (collected : QueryBuilder.collect runtime (INSERT_NUM_TUPLES + 1) [] builder =
      .ok (outcome, next)) :
    QueryBuilder.nextQuery builders runtime builder =
      .ok (afterLoop builders next outcome) := by
  unfold QueryBuilder.nextQuery
  rw [quiet, nothing, collected]
  cases outcome with
  | none => rfl
  | some records => cases records <;> rfl

theorem nextQuery_cases {statement : σ} {next : QueryBuilder σ}
    (called : QueryBuilder.nextQuery builders runtime builder = .ok (statement, next)) :
    (builders.isEmpty builder.insertIfNotExistsStmt = false ∧
      statement = builder.insertIfNotExistsStmt ∧
      next = { builder with insertIfNotExistsStmt := builders.empty }) ∨
    (builders.isEmpty builder.insertIfNotExistsStmt = true ∧ builder.tmpRecord.isEmpty = false ∧
      (statement, next) = QueryBuilder.updateTmp builders builder) ∨
    (builders.isEmpty builder.insertIfNotExistsStmt = true ∧ builder.tmpRecord.isEmpty = true ∧
      ∃ outcome after,
        QueryBuilder.collect runtime (INSERT_NUM_TUPLES + 1) [] builder = .ok (outcome, after) ∧
        (statement, next) = afterLoop builders after outcome) := by
  cases awaiting : builders.isEmpty builder.insertIfNotExistsStmt with
  | false =>
      unfold QueryBuilder.nextQuery at called
      rw [awaiting] at called
      cases called
      exact Or.inl ⟨rfl, rfl, rfl⟩
  | true =>
      cases noRecord : builder.tmpRecord.isEmpty with
      | false =>
          unfold QueryBuilder.nextQuery at called
          rw [awaiting, noRecord] at called
          cases called
          exact Or.inr (Or.inl ⟨rfl, rfl, rfl⟩)
      | true =>
          cases collected : QueryBuilder.collect runtime (INSERT_NUM_TUPLES + 1) [] builder with
          | error fault =>
              unfold QueryBuilder.nextQuery at called
              rw [awaiting, noRecord, collected] at called
              cases called
          | ok answer =>
              rcases answer with ⟨outcome, after⟩
              rw [nextQuery_collect awaiting noRecord collected] at called
              exact Or.inr (Or.inr ⟨rfl, rfl, outcome, after, rfl, (Except.ok.inj called).symm⟩)

private theorem Simulates.resting (simulates : Simulates files builders builder emitter)
    (tmp : emitter.tmp = none) {next : QueryBuilder σ} {pos : Nat} {seen : Finset UInt64}
    (reads : ReadsFrom files next pos)
    (inserted : next.segment.inserted = seen) (tmpRecord : next.tmpRecord = builder.tmpRecord)
    (stmt : next.insertIfNotExistsStmt = builder.insertIfNotExistsStmt)
    (valid : Emitter.Valid (allRecords files) { emitter with pos := pos, seen := seen }) :
    Simulates files builders next { emitter with pos := pos, seen := seen } := by
  have noRecord : ∀ rec, emitter.tmp ≠ some rec := by
    rw [tmp]
    exact nofun
  exact
    { reads := reads
      inserted := inserted
      deferred := tmpRecord.trans simulates.deferred
      saved := fun rec deferred => absurd deferred (noRecord rec)
      awaited := stmt.trans simulates.awaited
      valid := valid }

private theorem Simulates.keeping (simulates : Simulates files builders builder emitter)
    {next : QueryBuilder σ} {pos : Nat} {seen : Finset UInt64} {rec : Record}
    (reads : ReadsFrom files next (pos + 1)) (inserted : next.segment.inserted = seen)
    (tmpRecord : next.tmpRecord = rec)
    (boundary : IsBoundary files next.tmpHandleIdx.toNat next.tmpOffset pos)
    (stmt : next.insertIfNotExistsStmt = builder.insertIfNotExistsStmt)
    (valid : Emitter.Valid (allRecords files)
      { emitter with pos := pos + 1, seen := seen, tmp := some rec }) :
    Simulates files builders next
      { emitter with pos := pos + 1, seen := seen, tmp := some rec } :=
  { reads := reads
    inserted := inserted
    deferred := tmpRecord
    saved := fun _ _ => boundary
    awaited := stmt.trans simulates.awaited
    valid := valid }

theorem Simulates.updating (tmp : emitter.tmp = none) {next : QueryBuilder σ} {pos : Nat}
    {seen : Finset UInt64} {rec : Record} (reads : ReadsFrom files next (pos + 1))
    (inserted : next.segment.inserted = seen) (tmpRecord : next.tmpRecord = rec)
    (valid : Emitter.Valid (allRecords files)
      { emitter with pos := pos + 1, seen := seen, pending := some rec }) :
    Simulates files builders (QueryBuilder.updateTmp builders next).2
      { emitter with pos := pos + 1, seen := seen, pending := some rec } := by
  have noRecord : ∀ other, emitter.tmp ≠ some other := by
    rw [tmp]
    exact nofun
  have awaited : (QueryBuilder.updateTmp builders next).2.insertIfNotExistsStmt =
      builders.makeInsertWhereNotExistsStatement rec := by
    rw [← tmpRecord]
    rfl
  exact
    { reads := reads.congr rfl rfl rfl
      inserted := inserted
      deferred := by
        rw [tmp]
        rfl
      saved := fun other deferred => absurd deferred (noRecord other)
      awaited := awaited
      valid := valid }

private theorem nextQuery_batch (simulates : Simulates files builders builder emitter)
    (readable : Readable files) (lawful : builders.Lawful) (pending : emitter.pending = none)
    (tmp : emitter.tmp = none) : StepsWith files builders builder (emitter.emit files) := by
  have quiet : builders.isEmpty builder.insertIfNotExistsStmt = true :=
    (simulates.awaits lawful).mpr pending
  have nothing : builder.tmpRecord.isEmpty = true := simulates.defers.mpr tmp
  have valid := (emitter.emit_emits files).valid simulates.valid
  rcases collect_collects readable (INSERT_NUM_TUPLES + 1) [] simulates.reads with
    ⟨outcome, next, collected, collects⟩
  rw [simulates.inserted] at collects
  have emitted : emitter.emit files =
      emitter.emitBatch (recordKey runtime schema) (allRecords files) (INSERT_NUM_TUPLES + 1)
        (takeFresh (recordKey runtime schema) (INSERT_NUM_TUPLES + 1) emitter.seen
          ((allRecords files).drop emitter.pos)) := by
    unfold Emitter.emit Emitter.next
    rw [pending, tmp]
  have called := nextQuery_collect quiet nothing collected
  rw [emitted] at valid ⊢
  generalize takeFresh (recordKey runtime schema) (INSERT_NUM_TUPLES + 1) emitter.seen
    ((allRecords files).drop emitter.pos) = batch at collects valid ⊢
  have segmentIs : next.segment = { builder.segment with
      inserted := emitter.seen ∪ keysOf (recordKey runtime schema) batch } := by
    rw [collects.segment, simulates.inserted]
  have inserted := congrArg Segment.inserted segmentIs
  unfold Emitter.emitBatch at valid ⊢
  by_cases size : batch.length = INSERT_NUM_TUPLES + 1
  · rcases collects.full size with ⟨rfl, reads, tmpRecord⟩
    simp only [if_pos size] at valid ⊢
    refine ⟨next, ?_, simulates.resting tmp reads inserted tmpRecord collects.stmt valid,
      segmentIs⟩
    rw [called]
    cases batch with
    | nil => cases size
    | cons rec records => rfl
  · simp only [if_neg size] at valid ⊢
    cases stop : (allRecords files)[emitter.pos + batch.length]? with
    | none =>
        rcases collects.exhausted size stop with ⟨rfl, reads, tmpRecord⟩
        simp only [stop] at valid ⊢
        exact ⟨next, called,
          simulates.resting tmp reads inserted tmpRecord collects.stmt valid, segmentIs⟩
    | some rec =>
        rcases collects.stopped size rec stop with ⟨rfl, reads, tmpRecord, boundary⟩
        simp only [stop] at valid ⊢
        by_cases empty : batch = []
        · simp only [if_pos empty] at valid ⊢
          refine ⟨(QueryBuilder.updateTmp builders next).2, ?_,
            .updating tmp reads inserted tmpRecord valid, segmentIs⟩
          rw [called, empty, ← tmpRecord]
          rfl
        · simp only [if_neg empty] at valid ⊢
          refine ⟨next, ?_,
            simulates.keeping reads inserted tmpRecord boundary collects.stmt valid, segmentIs⟩
          rw [called]
          cases batch with
          | nil => exact absurd rfl empty
          | cons first records => rfl

theorem nextQuery_simulates (readable : Readable files) (lawful : builders.Lawful)
    (simulates : Simulates files builders builder emitter) :
    StepsWith files builders builder (emitter.emit files) := by
  cases pending : emitter.pending with
  | some rec =>
      have emitted : emitter.emit files =
          (.insertWhereNotExists rec, { emitter with pending := none }) := by
        unfold Emitter.emit Emitter.next
        rw [pending]
      rw [emitted]
      exact nextQuery_awaited simulates lawful pending
  | none =>
      cases tmp : emitter.tmp with
      | some rec =>
          have emitted : emitter.emit files =
              (.update rec, { emitter with tmp := none, pending := some rec }) := by
            unfold Emitter.emit Emitter.next
            rw [pending, tmp]
          rw [emitted]
          exact nextQuery_deferred simulates lawful pending tmp
      | none => exact nextQuery_batch simulates readable lawful pending tmp

/-! ### Commits and restarts -/

theorem commitStores_awaited (simulates : Simulates files builders builder emitter)
    (lawful : builders.Lawful) {rec : Record} (pending : emitter.pending = some rec) :
    builder.commitStores builders = .ok [] := by
  have awaiting : builders.isEmpty builder.insertIfNotExistsStmt = false := by
    rw [Bool.eq_false_iff, ne_eq, simulates.awaits lawful, pending]
    exact Option.some_ne_none rec
  unfold QueryBuilder.commitStores
  rw [awaiting]
  rfl

/-- A commit that is not put off stores the cursor behind everything that has
been handed out. -/
theorem commitStores_handed (simulates : Simulates files builders builder emitter)
    (lawful : builders.Lawful) (pending : emitter.pending = none) :
    ∃ handleIdx offset,
      builder.commitStores builders =
        .ok [.committedHandleIdx handleIdx, .committedOffset offset] ∧
      IsBoundary files handleIdx.toNat offset emitter.handed := by
  have quiet : builders.isEmpty builder.insertIfNotExistsStmt = true :=
    (simulates.awaits lawful).mpr pending
  unfold QueryBuilder.commitStores
  rw [quiet]
  cases tmp : emitter.tmp with
  | none =>
      rcases simulates.reads.cursor with ⟨reader, handled, boundary⟩
      rw [simulates.defers.mpr tmp, Emitter.handed_of_tmp_none tmp, handled]
      exact ⟨builder.handleIdx, reader.offset, rfl, boundary⟩
  | some rec =>
      have present : builder.tmpRecord.isEmpty = false := by
        rw [Bool.eq_false_iff, ne_eq, simulates.defers, tmp]
        exact Option.some_ne_none rec
      rw [present]
      exact ⟨builder.tmpHandleIdx, builder.tmpOffset, rfl, simulates.saved rec tmp⟩

theorem commit_awaited (simulates : Simulates files builders builder emitter)
    (lawful : builders.Lawful) {rec : Record} (pending : emitter.pending = some rec) :
    builder.commit builders = .ok builder := by
  unfold QueryBuilder.commit
  rw [commitStores_awaited simulates lawful pending]
  rfl

theorem commit_handed (simulates : Simulates files builders builder emitter)
    (lawful : builders.Lawful) (pending : emitter.pending = none) :
    ∃ segment : Segment, builder.commit builders = .ok { builder with segment := segment } ∧
      segment.inserted = builder.segment.inserted ∧
      IsBoundary files segment.committedHandleIdx.toNat segment.committedOffset
        emitter.handed := by
  rcases commitStores_handed simulates lawful pending with ⟨handleIdx, offset, stores, boundary⟩
  refine ⟨⟨builder.segment.inserted, handleIdx, offset⟩, ?_, rfl, boundary⟩
  unfold QueryBuilder.commit
  rw [stores]
  rfl

def Emitter.start (pos : Nat) (seen : Finset UInt64) : Emitter :=
  { pos := pos
    tmp := none
    pending := none
    seen := seen }

theorem create_simulates (builders : Builders σ) (segment : Segment) {memory : Nat → Bytes}
    (sized : ∀ i, 0 < (memory i).length) {g : Nat}
    (boundary : IsBoundary files segment.committedHandleIdx.toNat segment.committedOffset g) :
    ∃ builder, QueryBuilder.create builders schema segment memory (files.map Csv.bytes) =
        .ok builder ∧
      Simulates files builders builder (Emitter.start g segment.inserted) ∧
      builder.segment = segment := by
  rcases QueryBuilder.create_readsFrom builders segment sized boundary with
    ⟨builder, created, reads, segmentIs, tmpRecord, stmt⟩
  refine ⟨builder, created, ?_, segmentIs⟩
  exact
    { reads := reads
      inserted := by rw [segmentIs]; rfl
      deferred := tmpRecord
      saved := fun rec impossible => nomatch impossible
      awaited := stmt
      valid := Emitter.Idle.valid ⟨rfl, rfl⟩ (by
        rw [allRecords_length]
        exact reads.le_length) }

end

end ChangeSql
