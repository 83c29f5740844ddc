/-
The import loop comes to an end.

Every answer carries a record or completes one that is awaited, so there are
at most two answers for each record. The first empty answer finds the readers
behind the last record. From then on `next_query` moves `handle_idx` forward
and back again, and nothing that the next call looks at has changed.
-/

import ChangeSql.Calls
import ChangeSql.MultiFile

namespace ChangeSql

open QueryBuilder (ReadsFrom IsBoundary)

/-! ### The measure over a sequence of calls -/

namespace Emitter

variable {key : Record → UInt64} {records : List Record} {room : Nat} {emitter after : Emitter}
  {statement : Statement}

structure Ended (records : List Record) (emitter : Emitter) : Prop where
  idle : Idle emitter
  pos : emitter.pos = records.length

theorem Emits.ended (emits : Emits key records room emitter .empty after)
    (valid : Valid records emitter) : Ended records after := by
  cases emits with
  | exhausted batch pending tmp upcoming allNew size =>
      have inside := valid.inside
      refine ⟨⟨tmp, pending⟩, ?_⟩
      change emitter.pos + batch.length = records.length
      rw [upcoming, List.length_drop]
      omega

theorem Ended.remaining (ended : Ended records emitter) : remaining records emitter = 0 := by
  unfold Emitter.remaining
  rw [handed_of_tmp_none ended.idle.1, ended.idle.2, ended.pos, Nat.sub_self]
  rfl

/-- The state behind the last record is a fixed point. -/
theorem Ended.next (ended : Ended records emitter) (roomy : 0 < room) :
    emitter.next key records room = (.empty, emitter) := by
  have noneLeft : records.drop emitter.pos = [] := by
    rw [ended.pos, List.drop_length]
  have notFull : ¬ ([] : List Record).length = room := Nat.ne_of_lt roomy
  unfold Emitter.next
  rw [ended.idle.2, ended.idle.1, noneLeft]
  have stop : FreshRuns.takeFresh key room emitter.seen [] = [] := by
    cases room <;> rfl
  rw [stop]
  unfold emitBatch
  rw [if_neg notFull, List.length_nil, Nat.add_zero, ended.pos, List.getElem?_eq_none (Nat.le_refl _)]
  rw [FreshRuns.keysOf_nil, Finset.union_empty, ← ended.pos]

end Emitter

section

variable {runtime : Runtime} {schema : Schema} {files : List (Csv runtime schema)}
  {emitter : Emitter}

theorem Emitter.Ended.emit (ended : emitter.Ended (allRecords files)) :
    emitter.emit files = (.empty, emitter) :=
  Ended.next ended (Nat.succ_pos _)

theorem Emitter.Ended.answers (ended : emitter.Ended (allRecords files)) (calls : List Call) :
    emitter.answers files calls = (List.replicate (calls.count .nextQuery) .empty, emitter) := by
  induction calls with
  | nil => rfl
  | cons call calls ih =>
      cases call with
      | commit => exact ih
      | nextQuery =>
          rw [Emitter.answers_nextQuery, ended.emit, ih, List.count_cons_self]
          rfl

/-- Each answer that says something uses up some of what remains, and an empty
one leaves nothing. -/
theorem Emitter.answers_remaining (calls : List Call) (valid : emitter.Valid (allRecords files)) :
    ((emitter.answers files calls).1.filter (· ≠ .empty)).length +
        remaining (allRecords files) (emitter.answers files calls).2 ≤
      remaining (allRecords files) emitter := by
  induction calls generalizing emitter with
  | nil => exact Nat.le_of_eq (Nat.zero_add _)
  | cons call calls ih =>
      cases call with
      | commit => exact ih valid
      | nextQuery =>
          have emits := emitter.emit_emits files
          have later := ih (emits.valid valid)
          rw [Emitter.answers_nextQuery]
          dsimp only
          by_cases last : (emitter.emit files).1 = .empty
          · rw [List.filter_cons_of_neg (by simpa using last)]
            rw [last] at emits
            have nothing := (emits.ended valid).remaining
            omega
          · rw [List.filter_cons_of_pos (by simpa using last), List.length_cons]
            have fewer := emits.remaining_lt (Nat.succ_pos _) valid last
            omega

private theorem Emitter.answers_ended (calls : List Call) (valid : emitter.Valid (allRecords files))
    (last : .empty ∈ (emitter.answers files calls).1) :
    (emitter.answers files calls).2.Ended (allRecords files) := by
  induction calls generalizing emitter with
  | nil => cases last
  | cons call calls ih =>
      cases call with
      | commit => exact ih valid last
      | nextQuery =>
          have emits := emitter.emit_emits files
          rw [Emitter.answers_nextQuery] at last ⊢
          rcases List.mem_cons.mp last with now | later
          · rw [← now] at emits
            have ended := emits.ended valid
            rw [ended.answers]
            exact ended
          · exact ih (emits.valid valid) later

/-! ### What the end leaves as it is -/

namespace QueryBuilder

variable {σ : Type}

def offsets (builder : QueryBuilder σ) : List Nat :=
  builder.csvHandles.map BufferedReader.offset

/-- Another `next_query` would start from the same place in the same files and
know the same hashes. -/
structure SamePlace (before after : QueryBuilder σ) : Prop where
  handleIdx : after.handleIdx = before.handleIdx
  offsets : after.offsets = before.offsets
  inserted : after.segment.inserted = before.segment.inserted

theorem SamePlace.refl (builder : QueryBuilder σ) : SamePlace builder builder :=
  ⟨rfl, rfl, rfl⟩

theorem SamePlace.trans {before between after : QueryBuilder σ} (first : SamePlace before between)
    (second : SamePlace between after) : SamePlace before after :=
  ⟨second.handleIdx.trans first.handleIdx, second.offsets.trans first.offsets,
    second.inserted.trans first.inserted⟩

private theorem setHandle_offsets {builder : QueryBuilder σ} {reader other : BufferedReader}
    (handled : builder.handle = .ok reader) (same : other.offset = reader.offset) :
    (builder.setHandle other).offsets = builder.offsets := by
  have atIndex := handle_ok handled
  unfold offsets setHandle
  rw [List.map_set, same]
  apply List.ext_getElem?
  intro i
  by_cases here : builder.handleIdx.toNat = i
  · rw [← here, List.getElem?_map, atIndex]
    rw [List.getElem?_set_self]
    · rfl
    · rw [List.length_map]
      exact (List.getElem?_eq_some_iff.mp atIndex).1
  · rw [List.getElem?_set_ne here]

private theorem nextRecord_empty_samePlace {builder next : QueryBuilder σ}
    (columns : builder.schema.fieldNames ≠ [])
    (ran : nextRecord runtime builder = .ok ([], next)) : SamePlace builder next := by
  rcases nextRecord_empty columns ran with ⟨reader, peeked, handled, peekedIs, _, rfl⟩
  exact ⟨rfl, setHandle_offsets handled (BufferedReader.peek_offset peekedIs), rfl⟩

end QueryBuilder

open QueryBuilder (SamePlace)

variable {σ : Type} {builders : Builders σ} {builder : QueryBuilder σ}

private theorem collect_ended (readable : Readable files) {pos : Nat}
    (reads : ReadsFrom files builder pos)
    (ended : pos = (allRecords files).length) (room : Nat) (earlier : List Record) :
    ∃ next, QueryBuilder.collect runtime (room + 1) earlier builder = .ok (none, next) ∧
      SamePlace builder next := by
  rcases reads.cursor with ⟨reader, handled, _⟩
  have behind : files.flatten.length ≤ pos := by
    rw [ended, allRecords_length]
  rcases reads.nextRecord_end readable.few readable.tail behind with ⟨next, recordRead, _, _, _⟩
  refine ⟨next, ?_, ?_⟩
  · rw [QueryBuilder.collect_succ handled recordRead]
    rfl
  · rcases reads with ⟨h, file, k, positioned, _⟩
    apply QueryBuilder.nextRecord_empty_samePlace ?_ recordRead
    rw [positioned.schema]
    exact readable.columns positioned.current

theorem nextQuery_ended (readable : Readable files) (lawful : builders.Lawful)
    (simulates : Simulates files builders builder emitter)
    (ended : emitter.Ended (allRecords files)) :
    ∃ next, builder.nextQuery builders runtime = .ok (builders.empty, next) ∧
      Simulates files builders next emitter ∧ SamePlace builder next := by
  rcases nextQuery_simulates readable lawful simulates with ⟨next, called, nextSimulates, _⟩
  rw [ended.emit] at called nextSimulates
  rcases collect_ended readable simulates.reads ended.pos INSERT_NUM_TUPLES [] with
    ⟨other, collected, same⟩
  have quiet : builders.isEmpty builder.insertIfNotExistsStmt = true :=
    (simulates.awaits lawful).mpr ended.idle.2
  have again := nextQuery_collect quiet (simulates.defers.mpr ended.idle.1) collected
  rw [called] at again
  cases Except.ok.inj again
  exact ⟨next, called, nextSimulates, same⟩

theorem commit_ended (lawful : builders.Lawful)
    (simulates : Simulates files builders builder emitter)
    (ended : emitter.Ended (allRecords files)) :
    ∃ next, builder.commit builders = .ok next ∧ Simulates files builders next emitter ∧
      SamePlace builder next := by
  rcases commit_handed simulates lawful ended.idle.2 with ⟨segment, committed, inserted, _⟩
  exact ⟨{ builder with segment := segment }, committed, simulates.congr inserted,
    ⟨rfl, rfl, inserted⟩⟩

/-! ### The texts that are returned -/

private theorem filter_texts_length (schema : Schema) (statements : List Statement) :
    ((statements.map (Statement.build (Builders.texts schema))).filter (· ≠ [])).length =
      (statements.filter (· ≠ .empty)).length := by
  rw [List.filter_map, List.length_map]
  apply congrArg List.length
  apply List.filter_congr
  intro statement _
  have same := Statement.text_eq_nil schema statement
  unfold Statement.text at same
  simp only [Function.comp_apply, ne_eq, decide_not, same]

theorem Emitter.remaining_start (records : List Record) (c : Nat) (seen : Finset UInt64) :
    (Emitter.start c seen).remaining records ≤ 2 * records.length := by
  change 2 * (records.length - _) + 0 ≤ _
  omega

theorem Emitter.texts_few (calls : List Call) {start : Nat} {seen : Finset UInt64}
    (valid : (Emitter.start start seen).Valid (allRecords files)) :
    ((((Emitter.start start seen).answers files calls).1.map
      (Statement.build (Builders.texts schema))).filter (· ≠ [])).length ≤
        2 * (allRecords files).length := by
  have measured := Emitter.answers_remaining calls valid
  have opening := Emitter.remaining_start (allRecords files) start seen
  rw [filter_texts_length]
  omega

theorem Emitter.texts_done (calls : List Call) {start : Nat} {seen : Finset UInt64}
    (valid : (Emitter.start start seen).Valid (allRecords files))
    (many : 2 * (allRecords files).length < calls.count .nextQuery) :
    [] ∈ ((Emitter.start start seen).answers files calls).1.map
      (Statement.build (Builders.texts schema)) := by
  by_contra none
  have few := Emitter.texts_few calls valid
  rw [List.filter_eq_self.mpr, List.length_map, Emitter.answers_length] at few
  · omega
  · intro text member
    apply decide_eq_true
    intro same
    exact none (same ▸ member)

theorem Emitter.texts_ended (calls : List Call) (valid : emitter.Valid (allRecords files))
    (last : [] ∈ (emitter.answers files calls).1.map (Statement.build (Builders.texts schema))) :
    (emitter.answers files calls).2.Ended (allRecords files) := by
  rcases List.mem_map.mp last with ⟨statement, member, empty⟩
  have isEmpty : statement = .empty := (Statement.text_eq_nil schema statement).mp empty
  rw [isEmpty] at member
  exact Emitter.answers_ended calls valid member

end

end ChangeSql
