/-
Which records `next_record` reads during calls of `next_query` and `commit`.

The readers move over the records in order and skip none, whatever hashes have
been seen and whether statements are built, deferred or thrown away. An empty
answer comes only behind the last record, and only if the index of the files
can count them.
-/

import ChangeSql.Calls
import ChangeSql.MultiFile

namespace ChangeSql

open QueryBuilder (ReadsFrom IsBoundary)

namespace QueryBuilder

variable {σ : Type}

def collectReads (runtime : Runtime) : Nat → QueryBuilder σ → List Record
  | 0, _ => []
  | room + 1, builder =>
      match nextRecord runtime builder with
      | .error _ => []
      | .ok (rec, builder) =>
          let hash := hashRecord runtime builder.schema rec
          if rec.isEmpty then []
          else if hash ∈ builder.segment.inserted then [rec]
          else
            let segment := { builder.segment with inserted := insert hash builder.segment.inserted }
            rec :: collectReads runtime room { builder with segment := segment }

def nextQueryReads (builders : Builders σ) (runtime : Runtime) (builder : QueryBuilder σ) :
    List Record :=
  if !builders.isEmpty builder.insertIfNotExistsStmt then []
  else if builder.tmpRecord.isEmpty then collectReads runtime (INSERT_NUM_TUPLES + 1) builder
  else []

def reads (builders : Builders σ) (runtime : Runtime) : List Call → QueryBuilder σ → List Record
  | [], _ => []
  | .nextQuery :: calls, builder =>
      builder.nextQueryReads builders runtime ++
        match builder.nextQuery builders runtime with
        | .error _ => []
        | .ok (_, next) => reads builders runtime calls next
  | .commit :: calls, builder =>
      match builder.commit builders with
      | .error _ => []
      | .ok next => reads builders runtime calls next

def Ends (builders : Builders σ) (runtime : Runtime) (builder : QueryBuilder σ)
    (calls : List Call) : Prop :=
  ∃ returned after, builder.run builders runtime calls = .ok (returned, after) ∧
    ∃ last ∈ returned, builders.isEmpty last = true

end QueryBuilder

section

variable {σ : Type} {runtime : Runtime} {schema : Schema} {files : List (Csv runtime schema)}
  {builders : Builders σ} {builder next : QueryBuilder σ} {pos : Nat}

/-! ### The records between two positions -/

/-- From position `pos` to position `later` the readers go over these records. -/
def Passes (files : List (Csv runtime schema)) (pos later : Nat) (records : List Record) : Prop :=
  pos ≤ later ∧ (allRecords files).drop pos = records ++ (allRecords files).drop later

theorem Passes.refl (files : List (Csv runtime schema)) (pos : Nat) : Passes files pos pos [] :=
  ⟨Nat.le_refl pos, rfl⟩

theorem Passes.trans {between later : Nat} {front back : List Record}
    (first : Passes files pos between front) (second : Passes files between later back) :
    Passes files pos later (front ++ back) := by
  refine ⟨Nat.le_trans first.1 second.1, ?_⟩
  rw [first.2, second.2, List.append_assoc]

theorem Passes.one {line : Line runtime schema} (atLine : files.flatten[pos]? = some line) :
    Passes files pos (pos + 1) [line.record] := by
  refine ⟨Nat.le_succ pos, ?_⟩
  rw [List.drop_eq_getElem?_toList_append, allRecords, List.getElem?_map, atLine]
  rfl

private theorem collectReads_succ {rec : Record} {after : QueryBuilder σ} (room : Nat)
    (recordRead : QueryBuilder.nextRecord runtime builder = .ok (rec, after)) :
    QueryBuilder.collectReads runtime (room + 1) builder =
      if rec.isEmpty then []
      else if QueryBuilder.hashRecord runtime after.schema rec ∈ after.segment.inserted then [rec]
      else rec :: QueryBuilder.collectReads runtime room (after.addHash runtime rec) := by
  rw [QueryBuilder.collectReads, recordRead]
  rfl

private theorem collect_reads (readable : Readable files) (room : Nat) (earlier : List Record)
    (reads : ReadsFrom files builder pos) :
    ∃ outcome next later,
      QueryBuilder.collect runtime room earlier builder = .ok (outcome, next) ∧
      ReadsFrom files next later ∧
      Passes files pos later (QueryBuilder.collectReads runtime room builder) ∧
      (outcome = none → later = (allRecords files).length) := by
  induction room generalizing earlier builder pos with
  | zero => exact ⟨some earlier, builder, pos, rfl, reads, .refl files pos, nofun⟩
  | succ room ih =>
      rcases reads.cursor with ⟨reader, handled, _⟩
      cases atPos : files.flatten[pos]? with
      | none =>
          have ended : files.flatten.length ≤ pos := List.getElem?_eq_none_iff.mp atPos
          have last : pos = (allRecords files).length := by
            rw [allRecords_length]
            exact Nat.le_antisymm reads.le_length ended
          rcases reads.nextRecord_end readable.few readable.tail ended with
            ⟨next, recordRead, nextReads, _, _⟩
          rw [QueryBuilder.collect_succ handled recordRead, collectReads_succ room recordRead]
          exact ⟨none, next, pos, rfl, nextReads, .refl files pos, fun _ => last⟩
      | some line =>
          rcases reads.nextRecord readable.few readable.tail atPos with
            ⟨after, recordRead, afterReads, _⟩
          have filled : ¬ line.record.isEmpty = true := fun none =>
            line.record_ne_nil (List.isEmpty_iff.mp none)
          rw [QueryBuilder.collect_succ handled recordRead, collectReads_succ room recordRead,
            if_neg filled, if_neg filled]
          by_cases known : QueryBuilder.hashRecord runtime after.schema line.record ∈
              after.segment.inserted
          · rw [if_pos known, if_pos known]
            exact ⟨some earlier, _, pos + 1, rfl, afterReads.congr rfl rfl rfl, .one atPos, nofun⟩
          · have grown : ReadsFrom files (after.addHash runtime line.record) (pos + 1) :=
              afterReads.congr rfl rfl rfl
            rcases ih (earlier ++ [line.record]) grown with
              ⟨outcome, next, later, collected, nextReads, passes, ended⟩
            rw [if_neg known, if_neg known]
            exact ⟨outcome, next, later, collected, nextReads, (Passes.one atPos).trans passes, ended⟩

private theorem nextQuery_reads (readable : Readable files) (lawful : builders.Lawful)
    (reads : ReadsFrom files builder pos) :
    ∃ statement next later,
      builder.nextQuery builders runtime = .ok (statement, next) ∧
      ReadsFrom files next later ∧
      Passes files pos later (builder.nextQueryReads builders runtime) ∧
      (builders.isEmpty statement = true → later = (allRecords files).length) := by
  have update : builders.isEmpty (builders.makeUpdateStatement builder.tmpRecord) = false := by
    rw [Bool.eq_false_iff]
    intro none
    cases (lawful (.update builder.tmpRecord)).mp none
  unfold QueryBuilder.nextQuery QueryBuilder.nextQueryReads
  cases awaiting : builders.isEmpty builder.insertIfNotExistsStmt with
  | false =>
      refine ⟨builder.insertIfNotExistsStmt,
        { builder with insertIfNotExistsStmt := builders.empty }, pos, rfl,
        reads.congr rfl rfl rfl, .refl files pos, ?_⟩
      rw [awaiting]
      exact nofun
  | true =>
      cases noRecord : builder.tmpRecord.isEmpty with
      | false =>
          refine ⟨_, (QueryBuilder.updateTmp builders builder).2, pos, rfl,
            reads.congr rfl rfl rfl, .refl files pos, ?_⟩
          intro none
          change builders.isEmpty (builders.makeUpdateStatement builder.tmpRecord) = true at none
          rw [update] at none
          cases none
      | true =>
          rcases collect_reads readable (INSERT_NUM_TUPLES + 1) [] reads with
            ⟨outcome, next, later, collected, nextReads, passes, ended⟩
          have called := nextQuery_collect awaiting noRecord collected
          unfold QueryBuilder.nextQuery at called
          rw [awaiting, noRecord] at called
          cases outcome with
          | none => exact ⟨_, _, later, called, nextReads, passes, fun _ => ended rfl⟩
          | some records =>
              have said (statement : Statement) (some : statement ≠ .empty)
                  (none : builders.isEmpty (statement.build builders) = true) :
                  later = (allRecords files).length :=
                absurd ((lawful statement).mp none) some
              cases records with
              | nil =>
                  exact ⟨_, _, later, called, nextReads.congr rfl rfl rfl, passes,
                    said (.update next.tmpRecord) nofun⟩
              | cons rec records =>
                  exact ⟨_, _, later, called, nextReads, passes,
                    said (.insert (rec :: records)) nofun⟩

private theorem commit_reads (reads : ReadsFrom files builder pos) :
    ∃ next, builder.commit builders = .ok next ∧ ReadsFrom files next pos := by
  rcases reads.cursor with ⟨reader, handled, _⟩
  unfold QueryBuilder.commit QueryBuilder.commitStores
  cases builders.isEmpty builder.insertIfNotExistsStmt with
  | false => exact ⟨_, rfl, reads.congr rfl rfl rfl⟩
  | true =>
      cases builder.tmpRecord.isEmpty with
      | false => exact ⟨_, rfl, reads.congr rfl rfl rfl⟩
      | true =>
          rw [handled]
          exact ⟨_, rfl, reads.congr rfl rfl rfl⟩

/-- No call skips a record or reads one twice. -/
theorem run_reads (readable : Readable files) (lawful : builders.Lawful) (calls : List Call)
    (reads : ReadsFrom files builder pos) :
    ∃ returned after later,
      builder.run builders runtime calls = .ok (returned, after) ∧
      ReadsFrom files after later ∧
      Passes files pos later (builder.reads builders runtime calls) ∧
      ((∃ last ∈ returned, builders.isEmpty last = true) →
        later = (allRecords files).length) := by
  induction calls generalizing builder pos with
  | nil => exact ⟨[], builder, pos, rfl, reads, .refl files pos, nofun⟩
  | cons call calls ih =>
      cases call with
      | commit =>
          have ⟨next, committed, nextReads⟩ :
              ∃ next, builder.commit builders = .ok next ∧ ReadsFrom files next pos :=
            commit_reads reads
          rcases ih nextReads with ⟨returned, after, later, ran, afterReads, passes, ended⟩
          refine ⟨returned, after, later, ?_, afterReads, ?_, ended⟩
          · unfold QueryBuilder.run
            rw [committed]
            exact ran
          · unfold QueryBuilder.reads
            rw [committed]
            exact passes
      | nextQuery =>
          rcases nextQuery_reads readable lawful reads with
            ⟨statement, next, between, called, nextReads, first, endedFirst⟩
          rcases ih nextReads with ⟨returned, after, later, ran, afterReads, passes, ended⟩
          refine ⟨statement :: returned, after, later, ?_, afterReads, ?_, ?_⟩
          · unfold QueryBuilder.run
            rw [called]
            change (next.run builders runtime calls >>= _) = _
            rw [ran]
            rfl
          · unfold QueryBuilder.reads
            rw [called]
            exact first.trans passes
          · rintro ⟨last, member, isLast⟩
            rcases List.mem_cons.mp member with rfl | further
            · have inside := afterReads.le_length
              have beyond := passes.1
              rw [endedFirst isLast] at beyond
              rw [allRecords_length] at beyond ⊢
              omega
            · exact ended ⟨last, further, isLast⟩

/-- Up to the first empty answer, all records from the first cursor on are read. -/
theorem reads_of_ends (readable : Readable files) (lawful : builders.Lawful) {calls : List Call}
    (reads : ReadsFrom files builder pos) (ends : builder.Ends builders runtime calls) :
    builder.reads builders runtime calls = (allRecords files).drop pos := by
  rcases run_reads readable lawful calls reads with
    ⟨returned, after, later, ran, _, passes, ended⟩
  rcases ends with ⟨otherReturned, otherAfter, otherRan, last⟩
  rw [ran] at otherRan
  cases otherRan
  rw [passes.2, ended last, List.drop_length, List.append_nil]

/-! ### Too many files -/

def SameSize (before after : QueryBuilder σ) : Prop :=
  after.schema = before.schema ∧ after.csvHandles.length = before.csvHandles.length

theorem SameSize.few {before after : QueryBuilder σ} (same : SameSize before after)
    (few : after.schema.fieldNames ≠ [] → after.csvHandles.length ≤ 255)
    (columns : before.schema.fieldNames ≠ []) : before.csvHandles.length ≤ 255 := by
  rw [← same.2]
  apply few
  rw [same.1]
  exact columns

private theorem collect_few {room : Nat} {earlier : List Record} {outcome : Option (List Record)}
    (collected : QueryBuilder.collect runtime room earlier builder = .ok (outcome, next)) :
    SameSize builder next ∧
      (outcome = none → builder.schema.fieldNames ≠ [] → builder.csvHandles.length ≤ 255) := by
  induction room generalizing earlier builder with
  | zero =>
      cases collected
      exact ⟨⟨rfl, rfl⟩, nofun⟩
  | succ room ih =>
      rcases QueryBuilder.collect_cases collected with
        ⟨reader, rec, after, _, recordRead, ⟨rfl, _, rfl⟩ | ⟨rfl, rfl⟩ | others⟩
      · exact ⟨QueryBuilder.nextRecord_frame recordRead, fun _ columns =>
          QueryBuilder.nextRecord_empty_few columns recordRead⟩
      · have same : SameSize builder after := QueryBuilder.nextRecord_frame recordRead
        exact ⟨⟨same.1, same.2⟩, nofun⟩
      · have same : SameSize builder after := QueryBuilder.nextRecord_frame recordRead
        rcases ih others with ⟨later, few⟩
        exact ⟨⟨later.1.trans same.1, later.2.trans same.2⟩, fun none => same.few (few none)⟩

private theorem nextQuery_few (lawful : builders.Lawful) {statement : σ}
    (called : builder.nextQuery builders runtime = .ok (statement, next)) :
    SameSize builder next ∧
      (builders.isEmpty statement = true → builder.schema.fieldNames ≠ [] →
        builder.csvHandles.length ≤ 255) := by
  have said (statement : Statement) (some : statement ≠ .empty)
      (none : builders.isEmpty (statement.build builders) = true) : False :=
    some ((lawful statement).mp none)
  rcases nextQuery_cases called with
    ⟨awaiting, rfl, rfl⟩ | ⟨_, _, updated⟩ | ⟨_, _, outcome, after, collected, loopLeft⟩
  · refine ⟨⟨rfl, rfl⟩, fun none => ?_⟩
    rw [awaiting] at none
    cases none
  · cases updated
    exact ⟨⟨rfl, rfl⟩, fun none => absurd none (said (.update builder.tmpRecord) nofun)⟩
  · rcases collect_few collected with ⟨same, few⟩
    cases outcome with
    | none =>
        cases loopLeft
        exact ⟨same, fun _ => few rfl⟩
    | some records =>
        cases records with
        | nil =>
            cases loopLeft
            exact ⟨same, fun none => absurd none (said (.update after.tmpRecord) nofun)⟩
        | cons rec records =>
            cases loopLeft
            exact ⟨same, fun none => absurd none (said (.insert (rec :: records)) nofun)⟩

private theorem commit_sameSize (committed : builder.commit builders = .ok next) :
    SameSize builder next := by
  unfold QueryBuilder.commit at committed
  cases stores : builder.commitStores builders with
  | error fault =>
      rw [stores] at committed
      cases committed
  | ok made =>
      rw [stores] at committed
      cases committed
      exact ⟨rfl, rfl⟩

theorem ends_few (lawful : builders.Lawful) {calls : List Call}
    (columns : builder.schema.fieldNames ≠ []) (ends : builder.Ends builders runtime calls) :
    builder.csvHandles.length ≤ 255 := by
  rcases ends with ⟨returned, after, ran, last, member, isLast⟩
  induction calls generalizing builder returned with
  | nil =>
      cases ran
      cases member
  | cons call calls ih =>
      cases call with
      | commit =>
          simp only [QueryBuilder.run, bind, Except.bind] at ran
          split at ran
          · contradiction
          · rename_i next committed
            have same := commit_sameSize committed
            exact same.few (fun columns => ih columns returned ran member) columns
      | nextQuery =>
          simp only [QueryBuilder.run, bind, Except.bind] at ran
          split at ran
          · contradiction
          · rename_i answer called
            split at ran
            · contradiction
            · rename_i others othersRan
              cases ran
              rcases nextQuery_few lawful called with ⟨same, few⟩
              rcases List.mem_cons.mp member with rfl | further
              · exact few isLast columns
              · exact same.few (fun columns => ih columns others.1 othersRan further) columns

end

end ChangeSql
