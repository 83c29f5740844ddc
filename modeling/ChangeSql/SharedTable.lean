/-
The query builder over the hash table that is in shared memory.

The functions here are those of the query builder with the flat hash table in
place of the finite set: the table is an argument and a result of its own, and
the set in the segment of the builder is neither read nor written. A call goes
the way of the call with the set, unless the table is refused the memory to
take in the records that the call reads.
-/

import ChangeSql.Calls
import ChangeSql.FlatHashRefinement

namespace ChangeSql

open FlatHashTable (Failure HoldsSet OrThrows Refused)
open FreshRuns
open QueryBuilder (ReadsFrom IsBoundary)

def SHARED_MGR_SIZE : Nat := 288 * 1024 * 1024

def INSERTED_TABLE_RESERVED_SIZE : Nat := 6700000

def Segment.forget (segment : Segment) : Segment :=
  { segment with inserted := ∅ }

def QueryBuilder.forget {σ : Type} (builder : QueryBuilder σ) : QueryBuilder σ :=
  { builder with segment := builder.segment.forget }

theorem Segment.store_forget (segment : Segment) (stores : List Store) :
    stores.foldl Segment.store segment.forget = (stores.foldl Segment.store segment).forget := by
  induction stores generalizing segment with
  | nil => rfl
  | cons store stores ih =>
      have commutes : segment.forget.store store = (segment.store store).forget := by
        cases store <;> rfl
      rw [List.foldl_cons, List.foldl_cons, commutes]
      exact ih (segment.store store)

namespace SharedTable

variable {σ : Type} (hash : UInt64 → UInt64) (allocator : FlatHash.Allocator)

/-- The constructor, which reserves before it opens the cursor. -/
def create (builders : Builders σ) (schema : Schema) (segment : Segment)
    (memory : Nat → Bytes) (files : List Bytes) (inserted : FlatHashTable UInt64) :
    Except (Failure UInt64) (QueryBuilder σ × FlatHashTable UInt64) := do
  let inserted ← inserted.reserve hash id allocator INSERTED_TABLE_RESERVED_SIZE
  let builder ← (QueryBuilder.create builders schema segment memory files).mapError Failure.fault
  return (builder, inserted)

def collect (runtime : Runtime) :
    Nat → List Record → QueryBuilder σ → FlatHashTable UInt64 →
      Except (Failure UInt64) (Option (List Record) × QueryBuilder σ × FlatHashTable UInt64)
  | 0, records, builder, inserted => .ok (some records, builder, inserted)
  | room + 1, records, builder, inserted => do
      let recHandleIdx := builder.handleIdx
      let reader ← builder.handle.mapError Failure.fault
      let recOffset := reader.offset
      let (rec, builder) ← (QueryBuilder.nextRecord runtime builder).mapError Failure.fault
      let recHash := QueryBuilder.hashRecord runtime builder.schema rec
      if rec.isEmpty then return (none, builder, inserted)
      else
        let found ← (inserted.find hash id recHash).mapError Failure.fault
        if found.isSome then
          return (some records, builder.keepRecord rec recHandleIdx recOffset, inserted)
        else
          let (inserted, _, _) ← inserted.emplace hash id allocator recHash
          collect runtime room (records ++ [rec]) builder inserted

def nextQuery (builders : Builders σ) (runtime : Runtime) (builder : QueryBuilder σ)
    (inserted : FlatHashTable UInt64) :
    Except (Failure UInt64) (σ × QueryBuilder σ × FlatHashTable UInt64) :=
  if !builders.isEmpty builder.insertIfNotExistsStmt then
    .ok (builder.insertIfNotExistsStmt, { builder with insertIfNotExistsStmt := builders.empty },
      inserted)
  else if builder.tmpRecord.isEmpty then do
    let (collected, builder, inserted) ←
      collect hash allocator runtime (INSERT_NUM_TUPLES + 1) [] builder inserted
    match collected with
    | none => return (builders.empty, builder, inserted)
    | some records =>
        if records.isEmpty then
          let (statement, builder) := QueryBuilder.updateTmp builders builder
          return (statement, builder, inserted)
        else return (builders.makeInsertStatement records, builder, inserted)
  else
    let (statement, builder) := QueryBuilder.updateTmp builders builder
    .ok (statement, builder, inserted)

def run (builders : Builders σ) (runtime : Runtime) :
    List Call → QueryBuilder σ → FlatHashTable UInt64 →
      Except (Failure UInt64) (List σ × QueryBuilder σ × FlatHashTable UInt64)
  | [], builder, inserted => .ok ([], builder, inserted)
  | .nextQuery :: calls, builder, inserted => do
      let (statement, builder, inserted) ←
        nextQuery hash allocator builders runtime builder inserted
      let (returned, builder, inserted) ← run builders runtime calls builder inserted
      return (statement :: returned, builder, inserted)
  | .commit :: calls, builder, inserted => do
      let builder ← (builder.commit builders).mapError Failure.fault
      run builders runtime calls builder inserted

def takeIn (runtime : Runtime) (schema : Schema) (records : List Record) :
    FlatHashTable UInt64 → Except (Failure UInt64) (FlatHashTable UInt64) :=
  FlatHashTable.emplaceAll (FlatHashTable.emplace hash id allocator)
    (records.map (recordKey runtime schema))

end SharedTable

/-! ### What does not look at the hashes -/

namespace QueryBuilder

variable {σ : Type} (runtime : Runtime)

def reseat (segment : Segment) (builder : QueryBuilder σ) : QueryBuilder σ :=
  { builder with segment := segment }

private theorem readRecord_reseat (segment : Segment) (builder : QueryBuilder σ) :
    readRecord runtime (builder.reseat segment) =
      (readRecord runtime builder).map (Prod.map id (reseat segment)) := by
  unfold readRecord
  change (builder.handle >>= _) = _
  cases builder.handle with
  | error fault => rfl
  | ok reader =>
      change (readFields runtime builder.schema.floatMask 0 builder.schema.fieldNames reader >>= _) =
        Except.map _ (readFields runtime builder.schema.floatMask 0 builder.schema.fieldNames
          reader >>= _)
      cases readFields runtime builder.schema.floatMask 0 builder.schema.fieldNames reader <;> rfl

private theorem nextRecord_reseat (segment : Segment) (builder : QueryBuilder σ) :
    nextRecord runtime (builder.reseat segment) =
      (nextRecord runtime builder).map (Prod.map id (reseat segment)) := by
  cases handled : builder.handle with
  | error fault =>
      unfold nextRecord
      change (builder.handle >>= _) = _
      rw [handled]
      rfl
  | ok reader =>
      cases peeked : reader.peek with
      | error fault =>
          unfold nextRecord
          change (builder.handle >>= _) = _
          rw [handled]
          change (reader.peek >>= _) = Except.map _ (reader.peek >>= _)
          rw [peeked]
          rfl
      | ok answer =>
          rcases answer with ⟨byte, after⟩
          have reseated : (builder.reseat segment).handle = .ok reader := handled
          rw [nextRecord_eq handled peeked, nextRecord_eq reseated peeked,
            apply_ite (Except.map (Prod.map id (reseat segment))),
            apply_ite (Except.map (Prod.map id (reseat segment)))]
          refine ite_congr rfl (fun _ => ?_) fun _ => ?_
          · refine ite_congr rfl (fun _ => rfl) fun _ => ?_
            exact readRecord_reseat runtime segment
              { builder.setHandle after with handleIdx := builder.handleIdx + 1 }
          · exact readRecord_reseat runtime segment (builder.setHandle after)

private theorem nextRecord_segment {builder next : QueryBuilder σ} {rec : Record}
    (recordRead : nextRecord runtime builder = .ok (rec, next)) : next.segment = builder.segment := by
  have again := nextRecord_reseat runtime builder.segment builder
  change nextRecord runtime builder = _ at again
  rw [recordRead] at again
  have nextIs : next = next.reseat builder.segment := congrArg Prod.snd (Except.ok.inj again)
  rw [nextIs]
  rfl

theorem create_forget (builders : Builders σ) (schema : Schema) (segment : Segment)
    (memory : Nat → Bytes) (files : List Bytes) :
    create builders schema segment.forget memory files =
      (create builders schema segment memory files).map forget := by
  unfold create
  change (handle (attach builders schema segment memory files) >>= _) =
    Except.map _ (handle (attach builders schema segment memory files) >>= _)
  cases handle (attach builders schema segment memory files) <;> rfl

theorem create_segment {builders : Builders σ} {schema : Schema} {segment : Segment}
    {memory : Nat → Bytes} {files : List Bytes} {builder : QueryBuilder σ}
    (created : create builders schema segment memory files = .ok builder) :
    builder.segment = segment := by
  unfold create at created
  dsimp only at created
  cases handled : (attach builders schema segment memory files).handle with
  | error fault =>
      rw [handled] at created
      cases created
  | ok reader =>
      rw [handled] at created
      cases created
      rfl

end QueryBuilder

/-! ### The calls agree -/

namespace SharedTable

variable {σ : Type} {hash : UInt64 → UInt64} {allocator : FlatHash.Allocator} {buckets : Nat}
  {builder : QueryBuilder σ} {inserted : FlatHashTable UInt64} {seen : Finset UInt64}
  {runtime : Runtime} {schema : Schema} {files : List (Csv runtime schema)}

/-- The table holds these hashes and has at least so many buckets. -/
structure Keeps (hash : UInt64 → UInt64) (allocator : FlatHash.Allocator) (buckets : Nat)
    (hashes : Finset UInt64) (inserted : FlatHashTable UInt64) : Prop where
  holds : HoldsSet allocator hash hashes inserted
  roomy : buckets ≤ inserted.bucketCount

theorem Keeps.takeIn (keeps : Keeps hash allocator buckets seen inserted) (records : List Record) :
    OrThrows allocator ((seen ∪ keysOf (recordKey runtime schema) records).card + 2)
      (takeIn hash allocator runtime schema records inserted)
      (Keeps hash allocator buckets (seen ∪ keysOf (recordKey runtime schema) records)) := by
  rcases keeps.holds.takesIn (records.map (recordKey runtime schema)) with
    thrown | ⟨after, afterIs, holds, grown⟩
  · exact Or.inl thrown
  · exact Or.inr ⟨after, afterIs, holds, Nat.le_trans keeps.roomy grown⟩

private theorem Keeps.takeIn_known (keeps : Keeps hash allocator buckets seen inserted)
    {records : List Record} (known : ∀ rec ∈ records, recordKey runtime schema rec ∈ seen) :
    SharedTable.takeIn hash allocator runtime schema records inserted = .ok inserted := by
  apply keeps.holds.takesIn_present
  intro k member
  rcases List.mem_map.mp member with ⟨rec, had, rfl⟩
  exact known rec had

private theorem takeIn_append (first second : List Record) :
    takeIn hash allocator runtime schema (first ++ second) inserted =
      takeIn hash allocator runtime schema first inserted >>=
        takeIn hash allocator runtime schema second := by
  unfold takeIn
  rw [List.map_append, FlatHashTable.emplaceAll_append]

theorem collect_succ {after : QueryBuilder σ} {reader : BufferedReader} {rec : Record} {room : Nat}
    {earlier : List Record} (handled : builder.handle = .ok reader)
    (recordRead : QueryBuilder.nextRecord runtime builder = .ok (rec, after)) :
    collect hash allocator runtime (room + 1) earlier builder inserted =
      (if rec.isEmpty = true then Except.ok (none, after, inserted)
      else do
        let found ← (inserted.find hash id
          (QueryBuilder.hashRecord runtime after.schema rec)).mapError Failure.fault
        if found.isSome then
          return (some earlier, after.keepRecord rec builder.handleIdx reader.offset, inserted)
        else
          let (inserted, _, _) ← inserted.emplace hash id allocator
            (QueryBuilder.hashRecord runtime after.schema rec)
          collect hash allocator runtime room (earlier ++ [rec]) after inserted) := by
  rw [collect, handled, recordRead]
  rfl

private theorem nextRecord_forget {after : QueryBuilder σ} {rec : Record}
    (recordRead : QueryBuilder.nextRecord runtime builder = .ok (rec, after)) :
    QueryBuilder.nextRecord runtime builder.forget = .ok (rec, after.forget) := by
  have same := QueryBuilder.nextRecord_segment runtime recordRead
  change QueryBuilder.nextRecord runtime (builder.reseat builder.segment.forget) = _
  rw [QueryBuilder.nextRecord_reseat, recordRead, ← same]
  rfl

/-- The loop inserts the hashes of the records that it gathers and goes the way
of the loop over the set. -/
theorem collect_forget (readable : Readable files) {room : Nat} {earlier : List Record} {pos : Nat}
    (reads : ReadsFrom files builder pos)
    (holds : HoldsSet allocator hash builder.segment.inserted inserted)
    {outcome : Option (List Record)} {next : QueryBuilder σ}
    (collected : QueryBuilder.collect runtime room earlier builder = .ok (outcome, next)) :
    collect hash allocator runtime room earlier builder.forget inserted =
      takeIn hash allocator runtime schema
        (takeFresh (recordKey runtime schema) room builder.segment.inserted
          ((allRecords files).drop pos)) inserted >>=
        fun table => .ok (outcome, next.forget, table) := by
  induction room generalizing earlier builder inserted pos with
  | zero =>
      cases collected
      rfl
  | succ room ih =>
      rcases reads.cursor with ⟨reader, handled, _⟩
      have forgotten : builder.forget.handle = .ok reader := handled
      cases atPos : files.flatten[pos]? with
      | none =>
          have behind := List.getElem?_eq_none_iff.mp atPos
          have noneLeft : (allRecords files).drop pos = [] := by
            rw [List.drop_eq_nil_iff, allRecords_length]
            exact behind
          rcases reads.nextRecord_end readable.few readable.tail behind with
            ⟨after, recordRead, _, _, _⟩
          rw [QueryBuilder.collect_succ handled recordRead] at collected
          cases collected
          rw [collect_succ forgotten (nextRecord_forget recordRead), noneLeft]
          rfl
      | some line =>
          rcases reads.nextRecord readable.few readable.tail atPos with
            ⟨after, recordRead, afterReads, same⟩
          have atRecord : (allRecords files)[pos]? = some line.record := by
            rw [allRecords, List.getElem?_map, atPos]
            rfl
          have upcoming : (allRecords files).drop pos =
              line.record :: (allRecords files).drop (pos + 1) := by
            rw [List.drop_eq_getElem?_toList_append, atRecord]
            rfl
          have filled : ¬ line.record.isEmpty = true := fun none =>
            line.record_ne_nil (List.isEmpty_iff.mp none)
          have afterSchema : after.schema = schema := by rw [same.schema, reads.schema_eq]
          have forgetSchema : after.forget.schema = schema := afterSchema
          have keyIs : QueryBuilder.hashRecord runtime schema line.record =
              recordKey runtime schema line.record := rfl
          rw [QueryBuilder.collect_succ handled recordRead, if_neg filled, afterSchema,
            same.segment, keyIs] at collected
          rw [collect_succ forgotten (nextRecord_forget recordRead), if_neg filled, forgetSchema,
            keyIs, upcoming, takeFresh]
          rcases holds.find (recordKey runtime schema line.record) with ⟨found, foundIs, isThere⟩
          rw [foundIs]
          change (if found.isSome = true then _ else _) = _
          rw [isThere]
          by_cases known : recordKey runtime schema line.record ∈ builder.segment.inserted
          · rw [if_pos known] at collected ⊢
            rw [if_pos (decide_eq_true known)]
            cases collected
            rfl
          · rw [if_neg known] at collected ⊢
            rw [if_neg (by simpa using known)]
            change _ = FlatHashTable.emplaceAll _ (recordKey runtime schema line.record :: _) _ >>= _
            rw [FlatHashTable.emplaceAll]
            rcases holds.insert (recordKey runtime schema line.record) with
              ⟨failure, thrown, _⟩ | ⟨result, resultIs, grownHolds, _, _⟩
            · rw [thrown]
              rfl
            · have grown : ReadsFrom files (after.addHash runtime line.record) (pos + 1) :=
                afterReads.congr rfl rfl rfl
              have insertedIs : (after.addHash runtime line.record).segment.inserted =
                  insert (recordKey runtime schema line.record) builder.segment.inserted := by
                rw [QueryBuilder.addHash, afterSchema, same.segment]
                rfl
              have holdsAll : HoldsSet allocator hash
                  (after.addHash runtime line.record).segment.inserted result.1 := by
                rw [insertedIs]
                exact grownHolds
              have later := ih grown holdsAll collected
              rw [insertedIs] at later
              rw [resultIs]
              exact later

/-! ### What a call takes in -/

/-- In front of the records that are left behind a batch there is at most one
that is known by then. -/
theorem emitBatch_splits (key : Record → UInt64) (records : List Record) (room : Nat)
    (emitter : Emitter) :
    ∃ known,
      (∀ rec ∈ known, key rec ∈ emitter.seen ∪
        keysOf key (takeFresh key room emitter.seen (records.drop emitter.pos))) ∧
      records.drop emitter.pos =
        takeFresh key room emitter.seen (records.drop emitter.pos) ++ (known ++
          records.drop (emitter.emitBatch key records room
            (takeFresh key room emitter.seen (records.drop emitter.pos))).2.pos) := by
  have upcoming := takeFresh_prefix key room emitter.seen (records.drop emitter.pos)
  have stop (short : (takeFresh key room emitter.seen (records.drop emitter.pos)).length < room)
      (rec : Record) (next : (records.drop emitter.pos)[(takeFresh key room emitter.seen
        (records.drop emitter.pos)).length]? = some rec) :
      key rec ∈ emitter.seen ∪
        keysOf key (takeFresh key room emitter.seen (records.drop emitter.pos)) :=
    takeFresh_stop short next
  have bounded := takeFresh_length_le key room emitter.seen (records.drop emitter.pos)
  generalize takeFresh key room emitter.seen (records.drop emitter.pos) = batch
    at upcoming stop bounded ⊢
  have split : records.drop emitter.pos = batch ++ records.drop (emitter.pos + batch.length) := by
    rw [← List.drop_drop]
    exact List.prefix_iff_eq_append.mp upcoming |>.symm
  unfold Emitter.emitBatch
  by_cases size : batch.length = room
  · rw [if_pos size]
    exact ⟨[], nofun, split⟩
  · rw [if_neg size]
    rw [List.getElem?_drop] at stop
    cases next : records[emitter.pos + batch.length]? with
    | none => exact ⟨[], nofun, split⟩
    | some rec =>
        have known := stop (Nat.lt_of_le_of_ne bounded size) rec next
        refine ⟨[rec], ?_, ?_⟩
        · intro other member
          rw [List.mem_singleton.mp member]
          exact known
        · have later : records.drop (emitter.pos + batch.length) =
              [rec] ++ records.drop (emitter.pos + batch.length + 1) := by
            rw [List.drop_eq_getElem?_toList_append, next]
            rfl
          dsimp only
          by_cases empty : batch = []
          · rw [if_pos empty, ← later]
            exact split
          · rw [if_neg empty, ← later]
            exact split

variable {builders : Builders σ} {emitter : Emitter}

/-- What becomes of a call of `nextQuery` that would answer with a statement
and leave a builder. Either the table takes in the hashes that the builder then
knows, or it has been refused the memory. In both cases it has gone as far as it
would with all the records that are left. -/
inductive Answers (hash : UInt64 → UInt64) (allocator : FlatHash.Allocator) (buckets : Nat)
    (files : List (Csv runtime schema)) (pos later : Nat) (inserted : FlatHashTable UInt64)
    (statement : σ) (next : QueryBuilder σ) :
    Except (Failure UInt64) (σ × QueryBuilder σ × FlatHashTable UInt64) → Prop where
  | ok {table : FlatHashTable UInt64}
      (keeps : Keeps hash allocator buckets next.segment.inserted table)
      (left : takeIn hash allocator runtime schema ((allRecords files).drop pos) inserted =
        takeIn hash allocator runtime schema ((allRecords files).drop later) table) :
      Answers hash allocator buckets files pos later inserted statement next
        (.ok (statement, next.forget, table))
  | thrown {failure : Failure UInt64}
      (refused : Refused allocator (next.segment.inserted.card + 2) failure)
      (fails : takeIn hash allocator runtime schema ((allRecords files).drop pos) inserted =
        .error failure) :
      Answers hash allocator buckets files pos later inserted statement next (.error failure)

private theorem nextQuery_handed {statement : σ} {next : QueryBuilder σ}
    (busy : builders.isEmpty builder.insertIfNotExistsStmt = false ∨
      builder.tmpRecord.isEmpty = false)
    (called : QueryBuilder.nextQuery builders runtime builder = .ok (statement, next)) :
    nextQuery hash allocator builders runtime builder.forget inserted =
        .ok (statement, next.forget, inserted) ∧
      next.segment = builder.segment := by
  unfold QueryBuilder.nextQuery at called
  unfold nextQuery
  change (if (!builders.isEmpty builder.insertIfNotExistsStmt) = true then _
    else if builder.tmpRecord.isEmpty = true then _ else _) = _ ∧ _
  cases awaiting : builders.isEmpty builder.insertIfNotExistsStmt with
  | false =>
      rw [awaiting] at called
      cases called
      exact ⟨rfl, rfl⟩
  | true =>
      rcases busy with impossible | present
      · rw [awaiting] at impossible
        cases impossible
      · rw [awaiting, present] at called
        rw [present]
        cases called
        exact ⟨rfl, rfl⟩

private theorem nextQuery_collected (quiet : builders.isEmpty builder.insertIfNotExistsStmt = true)
    (nothing : builder.tmpRecord.isEmpty = true) {outcome : Option (List Record)}
    {next : QueryBuilder σ} {result : Except (Failure UInt64) (FlatHashTable UInt64)}
    (collected : collect hash allocator runtime (INSERT_NUM_TUPLES + 1) [] builder.forget inserted =
      result >>= fun table => .ok (outcome, next.forget, table)) :
    nextQuery hash allocator builders runtime builder.forget inserted =
      result >>= fun table => .ok ((afterLoop builders next outcome).1,
        (afterLoop builders next outcome).2.forget, table) := by
  unfold nextQuery
  change (if (!builders.isEmpty builder.insertIfNotExistsStmt) = true then _
    else if builder.tmpRecord.isEmpty = true then _ else _) = _
  rw [quiet, nothing, collected]
  cases result with
  | error failure => rfl
  | ok table =>
      cases outcome with
      | none => rfl
      | some records => cases records <;> rfl

theorem Answers.handed {statement : σ} {next : QueryBuilder σ} {pos : Nat}
    (keeps : Keeps hash allocator buckets builder.segment.inserted inserted)
    (busy : builders.isEmpty builder.insertIfNotExistsStmt = false ∨
      builder.tmpRecord.isEmpty = false)
    (called : QueryBuilder.nextQuery builders runtime builder = .ok (statement, next)) :
    Answers hash allocator buckets files pos pos inserted statement next
      (nextQuery hash allocator builders runtime builder.forget inserted) := by
  rcases nextQuery_handed busy called with ⟨handed, same⟩
  rw [handed]
  rw [← same] at keeps
  exact .ok keeps rfl

theorem Answers.collected {statement : σ} {next : QueryBuilder σ} (readable : Readable files)
    (simulates : Simulates files builders builder emitter)
    (keeps : Keeps hash allocator buckets builder.segment.inserted inserted)
    (quiet : builders.isEmpty builder.insertIfNotExistsStmt = true)
    (nothing : builder.tmpRecord.isEmpty = true)
    (called : QueryBuilder.nextQuery builders runtime builder = .ok (statement, next)) :
    Answers hash allocator buckets files emitter.pos
      (emitter.emitBatch (recordKey runtime schema) (allRecords files) (INSERT_NUM_TUPLES + 1)
        (takeFresh (recordKey runtime schema) (INSERT_NUM_TUPLES + 1) emitter.seen
          ((allRecords files).drop emitter.pos))).2.pos
      inserted statement next
      (nextQuery hash allocator builders runtime builder.forget inserted) := by
  rcases collect_collects readable (INSERT_NUM_TUPLES + 1) [] simulates.reads with
    ⟨outcome, after, collected, collects⟩
  have answer : (statement, next) = afterLoop builders after outcome := by
    rw [nextQuery_collect quiet nothing collected] at called
    exact (Except.ok.inj called).symm
  have went := nextQuery_collected quiet nothing
    (collect_forget readable simulates.reads keeps.holds collected)
  rw [← answer] at went
  have segmentIs : next.segment = after.segment := by
    have nextIs : next = (afterLoop builders after outcome).2 := congrArg Prod.snd answer
    rw [nextIs]
    cases outcome with
    | none => rfl
    | some records => cases records <;> rfl
  have insertedIs := congrArg Segment.inserted (segmentIs.trans collects.segment)
  rcases emitBatch_splits (recordKey runtime schema) (allRecords files) (INSERT_NUM_TUPLES + 1)
    emitter with ⟨known, seen, split⟩
  generalize (emitter.emitBatch (recordKey runtime schema) (allRecords files) _ _).2.pos = later
    at split ⊢
  rw [← simulates.inserted] at seen split
  generalize takeFresh (recordKey runtime schema) (INSERT_NUM_TUPLES + 1) builder.segment.inserted
    ((allRecords files).drop emitter.pos) = batch at went insertedIs seen split
  change _ = builder.segment.inserted ∪ keysOf (recordKey runtime schema) batch at insertedIs
  rw [went]
  rcases keeps.takeIn batch with ⟨failure, thrown, refused⟩ | ⟨table, tableIs, tableKeeps⟩
  · rw [thrown]
    rw [← insertedIs] at refused
    refine .thrown refused ?_
    rw [split, takeIn_append, thrown]
    rfl
  · rw [tableIs]
    rw [← insertedIs] at seen tableKeeps
    refine .ok tableKeeps ?_
    rw [split, takeIn_append, tableIs]
    change takeIn hash allocator runtime schema (known ++ _) table = _
    rw [takeIn_append, tableKeeps.takeIn_known seen]
    rfl

theorem nextQuery_answers (readable : Readable files) (lawful : builders.Lawful)
    (simulates : Simulates files builders builder emitter)
    (keeps : Keeps hash allocator buckets builder.segment.inserted inserted) :
    ∃ next, QueryBuilder.nextQuery builders runtime builder =
        .ok ((emitter.emit files).1.build builders, next) ∧
      Simulates files builders next (emitter.emit files).2 ∧
      Answers hash allocator buckets files emitter.pos (emitter.emit files).2.pos inserted
        ((emitter.emit files).1.build builders) next
        (nextQuery hash allocator builders runtime builder.forget inserted) := by
  rcases nextQuery_simulates readable lawful simulates with ⟨next, called, nextSimulates, _⟩
  refine ⟨next, called, nextSimulates, ?_⟩
  cases pending : emitter.pending with
  | some rec =>
      have stays : (emitter.emit files).2.pos = emitter.pos := by
        unfold Emitter.emit Emitter.next
        rw [pending]
      rw [stays]
      apply Answers.handed keeps (Or.inl ?_) called
      rw [Bool.eq_false_iff, ne_eq, simulates.awaits lawful, pending]
      exact Option.some_ne_none rec
  | none =>
      cases tmp : emitter.tmp with
      | some rec =>
          have stays : (emitter.emit files).2.pos = emitter.pos := by
            unfold Emitter.emit Emitter.next
            rw [pending, tmp]
          rw [stays]
          apply Answers.handed keeps (Or.inr ?_) called
          rw [Bool.eq_false_iff, ne_eq, simulates.defers, tmp]
          exact Option.some_ne_none rec
      | none =>
          have emitted : emitter.emit files =
              emitter.emitBatch (recordKey runtime schema) (allRecords files)
                (INSERT_NUM_TUPLES + 1)
                (takeFresh (recordKey runtime schema) (INSERT_NUM_TUPLES + 1) emitter.seen
                  ((allRecords files).drop emitter.pos)) := by
            unfold Emitter.emit Emitter.next
            rw [pending, tmp]
          have answers := Answers.collected readable simulates keeps
            ((simulates.awaits lawful).mpr pending) (simulates.defers.mpr tmp) called
          rw [← emitted] at answers
          exact answers

theorem create_forget {segment : Segment} {memory : Nat → Bytes} {files : List Bytes}
    (created : QueryBuilder.create builders schema segment memory files = .ok builder) :
    create hash allocator builders schema segment.forget memory files inserted =
      inserted.reserve hash id allocator INSERTED_TABLE_RESERVED_SIZE >>=
        fun table => .ok (builder.forget, table) := by
  unfold create
  rw [QueryBuilder.create_forget, created]
  rfl

theorem reserve_keeps (holds : HoldsSet allocator hash seen inserted) :
    OrThrows allocator (max 24 (seen.card + 2))
      (inserted.reserve hash id allocator INSERTED_TABLE_RESERVED_SIZE)
      (Keeps hash allocator (2 * INSERTED_TABLE_RESERVED_SIZE) seen) := by
  have sizeIs : Nat.clog 2 (2 * INSERTED_TABLE_RESERVED_SIZE) = 24 := by decide
  rcases holds.reserve (show INSERTED_TABLE_RESERVED_SIZE ≤ 2 ^ 62 by decide) with
    ⟨failure, thrown, refused⟩ | ⟨table, tableIs, tableHolds, large⟩
  · rw [sizeIs] at refused
    exact Or.inl ⟨failure, thrown, refused⟩
  · exact Or.inr ⟨table, tableIs, tableHolds, large⟩

theorem commit_forget (builder : QueryBuilder σ) :
    builder.forget.commit builders = (builder.commit builders).map QueryBuilder.forget := by
  unfold QueryBuilder.commit
  change (builder.commitStores builders >>= _) = Except.map _ (builder.commitStores builders >>= _)
  cases builder.commitStores builders with
  | error fault => rfl
  | ok stores =>
      change Except.ok { builder with segment := stores.foldl Segment.store builder.segment.forget } =
        _
      rw [Segment.store_forget]
      rfl

/-! ### The room in the segment -/

/-- A slot takes up sixteen bytes of the segment. -/
def FitsSegment (allocator : FlatHash.Allocator) : Prop :=
  ∀ slots, allocator.grants slots = true → 16 * slots ≤ SHARED_MGR_SIZE

/-- Only one size of the table is both as large as reserved and in the segment. -/
theorem Keeps.capacity (fits : FitsSegment allocator)
    (keeps : Keeps hash allocator (2 * INSERTED_TABLE_RESERVED_SIZE) seen inserted) :
    inserted.bucketCount = 2 ^ 24 ∧ seen.card ≤ 2 ^ 23 := by
  have reserved : 2 ^ 23 < 2 * INSERTED_TABLE_RESERVED_SIZE := by decide
  have shared : SHARED_MGR_SIZE < 16 * 2 ^ 25 := by decide
  have roomy := keeps.roomy
  have load := keeps.holds.load
  rcases keeps.holds.wellFormed with rfl | ⟨bits, proper⟩
  · have none : (FlatHashTable.empty : FlatHashTable UInt64).bucketCount = 0 := rfl
    omega
  · have granted := fits _ proper.granted
    unfold FlatHashTable.slotsOf at granted
    rw [proper.bucketCount_eq] at roomy load ⊢
    have more : 2 ^ 23 < 2 ^ bits := by omega
    have fewer : 2 ^ bits < 2 ^ 25 := by omega
    rw [Nat.pow_lt_pow_iff_right Nat.one_lt_two] at more fewer
    have bitsIs : bits = 24 := by omega
    subst bitsIs
    exact ⟨rfl, by omega⟩

/-- No allocation is refused when the table is made ready and takes in the
hashes of these records. -/
def TakesIn (hash : UInt64 → UInt64) (allocator : FlatHash.Allocator) (runtime : Runtime)
    (schema : Schema) (records : List Record) (inserted : FlatHashTable UInt64) : Prop :=
  ∃ reserved filled,
    inserted.reserve hash id allocator INSERTED_TABLE_RESERVED_SIZE = .ok reserved ∧
    takeIn hash allocator runtime schema records reserved = .ok filled

theorem TakesIn.of_granted {records : List Record} (holds : HoldsSet allocator hash seen inserted)
    (granted : ∀ bits ≤ max 24 ((seen ∪ keysOf (recordKey runtime schema) records).card + 2),
      allocator.grants (FlatHashTable.slotsOf bits) = true) :
    TakesIn hash allocator runtime schema records inserted := by
  have few : seen.card ≤ (seen ∪ keysOf (recordKey runtime schema) records).card :=
    Finset.card_le_card Finset.subset_union_left
  rcases reserve_keeps holds with ⟨failure, _, refused⟩ | ⟨reserved, reservedIs, keeps⟩
  · refine absurd refused (FlatHashTable.not_refused fun bits le => granted bits ?_)
    omega
  · rcases keeps.takeIn records with ⟨failure, _, refused⟩ | ⟨filled, filledIs, _⟩
    · refine absurd refused (FlatHashTable.not_refused fun bits le => granted bits ?_)
      exact Nat.le_trans le (le_max_right _ _)
    · exact ⟨reserved, filled, reservedIs, filledIs⟩

/-- In the segment there is room for no more than 2^23 hashes. -/
theorem TakesIn.card_le {records : List Record} (fits : FitsSegment allocator)
    (holds : HoldsSet allocator hash seen inserted)
    (takesIn : TakesIn hash allocator runtime schema records inserted) :
    (seen ∪ keysOf (recordKey runtime schema) records).card ≤ 2 ^ 23 := by
  rcases takesIn with ⟨reserved, filled, reservedIs, filledIs⟩
  rcases reserve_keeps holds with ⟨failure, thrown, _⟩ | ⟨other, otherIs, keeps⟩
  · rw [thrown] at reservedIs
    cases reservedIs
  · rw [reservedIs] at otherIs
    cases otherIs
    have taken : OrThrows allocator _ (takeIn hash allocator runtime schema records reserved) _ :=
      keeps.takeIn records
    rcases taken with ⟨failure, thrown, _⟩ | ⟨other, _, filledKeeps⟩
    · rw [thrown] at filledIs
      cases filledIs
    · exact (filledKeeps.capacity fits).2

end SharedTable

end ChangeSql
