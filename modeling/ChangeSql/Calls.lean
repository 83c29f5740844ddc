/-
Runs of `next_query` and `commit` without a crash.

In whatever order the two are called, the statements returned carry the
records from the first cursor on, in order and without a gap, and an update is
always followed by the insert that completes it.
-/

import ChangeSql.Emission
import ChangeSql.Rendering

namespace ChangeSql

open QueryBuilder (ReadsFrom IsBoundary)

inductive Call where
  | nextQuery
  | commit
  deriving DecidableEq, Repr

namespace QueryBuilder

variable {σ : Type}

def run (builders : Builders σ) (runtime : Runtime) :
    List Call → QueryBuilder σ → Except Fault (List σ × QueryBuilder σ)
  | [], builder => .ok ([], builder)
  | .nextQuery :: calls, builder => do
      let (statement, builder) ← nextQuery builders runtime builder
      let (returned, builder) ← run builders runtime calls builder
      return (statement :: returned, builder)
  | .commit :: calls, builder => do
      let builder ← builder.commit builders
      run builders runtime calls builder

def deferred (builder : QueryBuilder σ) : List Record :=
  if builder.tmpRecord.isEmpty then [] else [builder.tmpRecord]

/-- What the code returns is the text of what the symbolic run returns. -/
theorem run_rendered (schema : Schema) (runtime : Runtime) (calls : List Call)
    (builder : QueryBuilder Statement) :
    run (Builders.texts schema) runtime calls (builder.rendered schema) =
      (run Builders.symbolic runtime calls builder).map
        (Prod.map (List.map (Statement.text schema)) (rendered schema)) := by
  induction calls generalizing builder with
  | nil => rfl
  | cons call calls ih =>
      cases call with
      | nextQuery =>
          unfold run
          rw [nextQuery_rendered]
          cases nextQuery Builders.symbolic runtime builder with
          | error fault => rfl
          | ok answer =>
              rcases answer with ⟨statement, next⟩
              change (run (Builders.texts schema) runtime calls (next.rendered schema) >>= _) =
                Except.map _ (run Builders.symbolic runtime calls next >>= _)
              rw [ih]
              cases run Builders.symbolic runtime calls next <;> rfl
      | commit =>
          unfold run
          rw [commit_rendered]
          cases builder.commit Builders.symbolic with
          | error fault => rfl
          | ok next => exact ih next

end QueryBuilder

def Emitter.answers {runtime : Runtime} {schema : Schema} (files : List (Csv runtime schema)) :
    List Call → Emitter → List Statement × Emitter
  | [], emitter => ([], emitter)
  | .nextQuery :: calls, emitter =>
      let answer := emitter.emit files
      ((answer.1 :: (answers files calls answer.2).1), (answers files calls answer.2).2)
  | .commit :: calls, emitter => answers files calls emitter

section

variable {runtime : Runtime} {schema : Schema} {files : List (Csv runtime schema)}
  {emitter after : Emitter} {statement : Statement}

/-! ### What the emitter answers -/

private theorem Emitter.Emits.awaits_update {key : Record → UInt64} {records : List Record}
    {room : Nat} {rec : Record} (emits : Emits key records room emitter (.update rec) after) :
    after.pending = some rec := by
  cases emits with
  | deferred rec pending tmp => rfl
  | known rec pending tmp upcoming old => rfl

private theorem Emitter.emit_awaited {rec : Record} (pending : emitter.pending = some rec) :
    emitter.emit files = (.insertWhereNotExists rec, { emitter with pending := none }) := by
  unfold emit next
  rw [pending]

theorem Emitter.answers_nextQuery (files : List (Csv runtime schema)) (calls : List Call)
    (emitter : Emitter) :
    emitter.answers files (.nextQuery :: calls) =
      ((emitter.emit files).1 :: ((emitter.emit files).2.answers files calls).1,
        ((emitter.emit files).2.answers files calls).2) :=
  rfl

theorem Emitter.answers_length (files : List (Csv runtime schema)) (calls : List Call)
    (emitter : Emitter) :
    (emitter.answers files calls).1.length = calls.count .nextQuery := by
  induction calls generalizing emitter with
  | nil => rfl
  | cons call calls ih =>
      cases call with
      | commit => exact ih emitter
      | nextQuery =>
          unfold answers
          rw [List.length_cons, ih, List.count_cons_self]

theorem Emitter.answers_carried (calls : List Call) (valid : emitter.Valid (allRecords files))
    (some : .empty ∉ (emitter.answers files calls).1) :
    (allRecords files).take (emitter.answers files calls).2.handed =
      (allRecords files).take emitter.handed ++
        (emitter.answers files calls).1.flatMap Statement.carried := by
  induction calls generalizing emitter with
  | nil => exact (List.append_nil _).symm
  | cons call calls ih =>
      cases call with
      | commit => exact ih valid some
      | nextQuery =>
          have emits := emitter.emit_emits files
          unfold answers at some ⊢
          rw [List.mem_cons, not_or] at some
          rw [ih (emits.valid valid) some.2, emits.carries valid (Ne.symm some.1),
            List.append_assoc, List.flatMap_cons]

private theorem Emitter.answers_head {rec : Record} {next : Statement} (calls : List Call)
    (pending : emitter.pending = some rec)
    (first : (emitter.answers files calls).1.head? = some next) :
    next = .insertWhereNotExists rec := by
  induction calls with
  | nil => cases first
  | cons call calls ih =>
      cases call with
      | commit => exact ih first
      | nextQuery =>
          unfold answers at first
          rw [emit_awaited pending] at first
          cases first
          rfl

/-- No insert that completes an update is missing or out of place. -/
def Paired (returned : List Statement) : Prop :=
  ∀ i rec next, returned[i]? = some (.update rec) → returned[i + 1]? = some next →
    next = .insertWhereNotExists rec

theorem Emitter.answers_paired (files : List (Csv runtime schema)) (calls : List Call)
    (emitter : Emitter) :
    Paired (emitter.answers files calls).1 := by
  induction calls generalizing emitter with
  | nil =>
      intro i rec next atUpdate
      cases atUpdate
  | cons call calls ih =>
      cases call with
      | commit => exact ih emitter
      | nextQuery =>
          have emits := emitter.emit_emits files
          intro i rec next atUpdate atNext
          unfold answers at atUpdate atNext
          rw [List.getElem?_cons_succ] at atNext
          cases i with
          | zero =>
              rw [List.getElem?_cons_zero, Option.some_inj] at atUpdate
              rw [atUpdate] at emits
              rw [← List.head?_eq_getElem?] at atNext
              exact answers_head calls emits.awaits_update atNext
          | succ i =>
              rw [List.getElem?_cons_succ] at atUpdate
              exact ih (emitter.emit files).2 i rec next atUpdate atNext

private theorem Emitter.answers_none (calls : List Call) (emitter : Emitter)
    (none : (emitter.answers files calls).1 = []) : (emitter.answers files calls).2 = emitter := by
  induction calls with
  | nil => rfl
  | cons call calls ih =>
      cases call with
      | nextQuery => cases none
      | commit => exact ih none

theorem Emitter.answers_last {rec : Record} (calls : List Call) (emitter : Emitter)
    (last : (emitter.answers files calls).1.getLast? = some (.update rec)) :
    (emitter.answers files calls).2.pending = some rec := by
  induction calls generalizing emitter with
  | nil => cases last
  | cons call calls ih =>
      cases call with
      | commit => exact ih emitter last
      | nextQuery =>
          have emits := emitter.emit_emits files
          unfold answers at last ⊢
          rw [List.getLast?_cons] at last
          cases laterLast : (answers files calls (emitter.emit files).2).1.getLast? with
          | some later =>
              rw [laterLast] at last
              cases last
              exact ih (emitter.emit files).2 laterLast
          | none =>
              rw [laterLast] at last
              rw [Option.getD_none, Option.some_inj] at last
              rw [last] at emits
              have pending := emits.awaits_update
              rw [answers_none calls _ (List.getLast?_eq_none_iff.mp laterLast)]
              exact pending

/-! ### Runs of the builder -/

private theorem run_simulates {σ : Type} {builders : Builders σ} {builder : QueryBuilder σ}
    (readable : Readable files) (lawful : builders.Lawful) (calls : List Call)
    (simulates : Simulates files builders builder emitter) :
    ∃ after,
      builder.run builders runtime calls =
        .ok ((emitter.answers files calls).1.map (Statement.build builders), after) ∧
      Simulates files builders after (emitter.answers files calls).2 := by
  induction calls generalizing builder emitter with
  | nil => exact ⟨builder, rfl, simulates⟩
  | cons call calls ih =>
      cases call with
      | nextQuery =>
          rcases nextQuery_simulates readable lawful simulates with
            ⟨next, called, nextSimulates, _⟩
          rcases ih nextSimulates with ⟨after, ran, afterSimulates⟩
          refine ⟨after, ?_, afterSimulates⟩
          unfold QueryBuilder.run
          rw [called]
          change (next.run builders runtime calls >>= _) = _
          rw [ran]
          rfl
      | commit =>
          unfold QueryBuilder.run Emitter.answers
          cases pending : emitter.pending with
          | some rec =>
              rw [commit_awaited simulates lawful pending]
              exact ih simulates
          | none =>
              rcases commit_handed simulates lawful pending with ⟨segment, committed, inserted, _⟩
              rw [committed]
              exact ih (simulates.congr inserted)

variable {builder : QueryBuilder Statement}

theorem run_answers (readable : Readable files) (calls : List Call)
    (simulates : Simulates files Builders.symbolic builder emitter) :
    ∃ after,
      builder.run Builders.symbolic runtime calls =
        .ok ((emitter.answers files calls).1, after) ∧
      Simulates files Builders.symbolic after (emitter.answers files calls).2 := by
  rcases run_simulates readable Builders.symbolic_lawful calls simulates with
    ⟨after, ran, afterSimulates⟩
  have same : (emitter.answers files calls).1.map (Statement.build Builders.symbolic) =
      (emitter.answers files calls).1 := by
    conv_rhs => rw [← List.map_id (emitter.answers files calls).1]
    exact List.map_congr_left fun statement _ => statement.build_symbolic
  rw [same] at ran
  exact ⟨after, ran, afterSimulates⟩

theorem Simulates.deferred_eq {σ : Type} {builders : Builders σ} {builder : QueryBuilder σ}
    (simulates : Simulates files builders builder emitter) :
    builder.deferred = emitter.tmp.toList := by
  have defers := simulates.defers
  unfold QueryBuilder.deferred
  cases tmp : emitter.tmp with
  | none =>
      rw [if_pos (defers.mpr tmp)]
      rfl
  | some rec =>
      have present : ¬ builder.tmpRecord.isEmpty = true := by
        rw [defers, tmp]
        exact Option.some_ne_none rec
      rw [if_neg present, simulates.deferred, tmp]
      rfl

private theorem Emitter.Valid.take_pos {records : List Record} (valid : emitter.Valid records) :
    records.take emitter.pos = records.take emitter.handed ++ emitter.tmp.toList := by
  cases tmp : emitter.tmp with
  | none =>
      rw [handed_of_tmp_none tmp]
      exact (List.append_nil _).symm
  | some rec =>
      rcases valid.handed_of_tmp tmp with ⟨posIs, atHanded⟩
      rw [posIs]
      exact take_succ_of_getElem? atHanded

/-- What the statements returned since the cursor was at `start` amount to. -/
structure ExactlyOnce (files : List (Csv runtime schema)) (start : Nat)
    (returned : List Statement) (after : QueryBuilder Statement) : Prop where
  carried : .empty ∉ returned → ∃ pos, start ≤ pos ∧ ReadsFrom files after pos ∧
    returned.flatMap Statement.carried ++ after.deferred = ((allRecords files).take pos).drop start
  paired : Paired returned
  awaited : ∀ rec, returned.getLast? = some (.update rec) →
    after.commit Builders.symbolic = .ok after ∧
    ∃ next, after.nextQuery Builders.symbolic runtime = .ok (.insertWhereNotExists rec, next)

/-- Whatever the calls are, the statements they return carry the records from
the first cursor up to the one of the readers, the deferred record excepted. -/
theorem nextQuery_commit_exactlyOnce (readable : Readable files) (segment : Segment)
    {memory : Nat → Bytes} (sized : ∀ i, 0 < (memory i).length) {start : Nat}
    (boundary : IsBoundary files segment.committedHandleIdx.toNat segment.committedOffset start)
    (calls : List Call) :
    ∃ (opened after : QueryBuilder Statement) (returned : List Statement),
      QueryBuilder.create (Builders.texts schema) schema segment memory (files.map Csv.bytes) =
        .ok (opened.rendered schema) ∧
      (opened.rendered schema).run (Builders.texts schema) runtime calls =
        .ok (returned.map (Statement.text schema), after.rendered schema) ∧
      opened.run Builders.symbolic runtime calls = .ok (returned, after) ∧
      ExactlyOnce files start returned after := by
  rcases create_simulates Builders.symbolic segment sized boundary with
    ⟨opened, created, simulates, _⟩
  rcases run_answers readable calls simulates with ⟨after, ran, afterSimulates⟩
  refine ⟨opened, after, _, ?_, ?_, ran, ?_, Emitter.answers_paired files calls _, ?_⟩
  · rw [QueryBuilder.create_rendered, created]
    rfl
  · rw [QueryBuilder.run_rendered, ran]
    rfl
  · intro some
    have carried := Emitter.answers_carried calls simulates.valid some
    have taken := afterSimulates.valid.take_pos
    rw [carried, List.append_assoc] at taken
    change _ = (allRecords files).take start ++ _ at taken
    have startLe : start ≤ (allRecords files).length := simulates.valid.inside
    have lengths := congrArg List.length taken
    rw [List.length_append, List.length_take_of_le startLe,
      List.length_take_of_le afterSimulates.valid.inside] at lengths
    refine ⟨_, by omega, afterSimulates.reads, ?_⟩
    rw [afterSimulates.deferred_eq, taken, List.drop_left' (List.length_take_of_le startLe)]
  · intro rec last
    have pending := Emitter.answers_last calls _ last
    refine ⟨commit_awaited afterSimulates Builders.symbolic_lawful pending, ?_⟩
    rcases nextQuery_awaited afterSimulates Builders.symbolic_lawful pending with ⟨next, called, _⟩
    exact ⟨next, called⟩

private theorem sampleFiles_returned :
    ∃ opened after,
      QueryBuilder.create Builders.symbolic sampleSchema Segment.fresh
        (fun _ => List.replicate 4 0) (sampleFiles.map Csv.bytes) = .ok opened ∧
      opened.run Builders.symbolic sampleRuntime
          [.nextQuery, .commit, .nextQuery, .commit, .nextQuery] =
        .ok ([.insert [[[97], [49], [48]], [[98], [49], [48]]], .update [[97], [50], [49]],
          .insertWhereNotExists [[97], [50], [49]]], after) :=
  ⟨_, _, rfl, rfl⟩

/-- A batch and an update, with commits between, and the insert behind it. -/
theorem nextQuery_commit_exactlyOnce_sampleFiles :
    ∃ (opened after : QueryBuilder Statement) (returned : List Statement),
      QueryBuilder.create (Builders.texts sampleSchema) sampleSchema Segment.fresh
        (fun _ => List.replicate 4 0) (sampleFiles.map Csv.bytes) =
          .ok (opened.rendered sampleSchema) ∧
      (opened.rendered sampleSchema).run (Builders.texts sampleSchema) sampleRuntime
          [.nextQuery, .commit, .nextQuery, .commit, .nextQuery] =
        .ok (returned.map (Statement.text sampleSchema), after.rendered sampleSchema) ∧
      opened.run Builders.symbolic sampleRuntime
          [.nextQuery, .commit, .nextQuery, .commit, .nextQuery] = .ok (returned, after) ∧
      returned.map (Statement.text sampleSchema) =
        [Statement.insert [[[97], [49], [48]], [[98], [49], [48]]], .update [[97], [50], [49]],
          .insertWhereNotExists [[97], [50], [49]]].map (Statement.text sampleSchema) ∧
      ExactlyOnce sampleFiles 0 returned after := by
  have boundary : IsBoundary sampleFiles Segment.fresh.committedHandleIdx.toNat
      Segment.fresh.committedOffset 0 := QueryBuilder.isBoundary_start rfl
  rcases nextQuery_commit_exactlyOnce sampleFiles_readable Segment.fresh sampleMemory_sized boundary
      [.nextQuery, .commit, .nextQuery, .commit, .nextQuery] with
    ⟨opened, after, returned, created, textRun, ran, once⟩
  refine ⟨opened, after, returned, created, textRun, ran, ?_, once⟩
  rcases sampleFiles_returned with ⟨first, last, firstCreated, firstRan⟩
  rw [QueryBuilder.create_rendered, firstCreated] at created
  have same : first.rendered sampleSchema = opened.rendered sampleSchema :=
    Except.ok.inj created
  rw [← same, QueryBuilder.run_rendered, firstRan] at textRun
  exact (Prod.mk.inj (Except.ok.inj textRun)).1.symm

end

end ChangeSql
