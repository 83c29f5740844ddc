/-
The import loop ends as long as the table of hashes has room.

A call can fail for one reason only: the table in the segment is refused the
memory to take in a hash. So the loop comes to its end with all sequences of
calls exactly when the table takes in the hashes of all records from the first
cursor on. In a segment of the configured size it never takes in more than 2^23.
-/

import ChangeSql.BatchSizes
import ChangeSql.ImportLoop
import ChangeSql.SharedTable

namespace ChangeSql

open FlatHashTable (Failure HoldsSet)
open FreshRuns DecimalDigits
open QueryBuilder (IsBoundary SamePlace)

namespace SharedTable

section

variable {σ : Type} {hash : UInt64 → UInt64} {allocator : FlatHash.Allocator} {buckets : Nat}
  {runtime : Runtime} {schema : Schema} {files : List (Csv runtime schema)}
  {builders : Builders σ} {builder : QueryBuilder σ} {emitter : Emitter}
  {inserted : FlatHashTable UInt64} {seen : Finset UInt64}

/-! ### Sequences of calls -/

/-- Either the run gives the answers of the emitter, or the table does not take
in the records that are left. -/
theorem run_forget (readable : Readable files) (lawful : builders.Lawful) (calls : List Call)
    (simulates : Simulates files builders builder emitter)
    (keeps : Keeps hash allocator buckets builder.segment.inserted inserted) :
    (∃ failure, run hash allocator builders runtime calls builder.forget inserted =
        .error failure ∧
      takeIn hash allocator runtime schema ((allRecords files).drop emitter.pos) inserted =
        .error failure) ∨
      ∃ after table, run hash allocator builders runtime calls builder.forget inserted =
          .ok ((emitter.answers files calls).1.map (Statement.build builders), after.forget,
            table) ∧
        Simulates files builders after (emitter.answers files calls).2 ∧
        Keeps hash allocator buckets after.segment.inserted table ∧
        takeIn hash allocator runtime schema ((allRecords files).drop emitter.pos) inserted =
          takeIn hash allocator runtime schema
            ((allRecords files).drop (emitter.answers files calls).2.pos) table := by
  induction calls generalizing builder emitter inserted with
  | nil => exact Or.inr ⟨builder, inserted, rfl, simulates, keeps, rfl⟩
  | cons call calls ih =>
      cases call with
      | nextQuery =>
          rcases nextQuery_answers readable lawful simulates keeps with
            ⟨next, _, nextSimulates, answers⟩
          unfold run
          generalize nextQuery hash allocator builders runtime builder.forget inserted = result
            at answers ⊢
          cases answers with
          | thrown refused fails => exact Or.inl ⟨_, rfl, fails⟩
          | ok nextKeeps left =>
              rw [left]
              rcases ih nextSimulates nextKeeps with
                ⟨failure, thrown, fails⟩ | ⟨after, table, ran, afterSimulates, afterKeeps, later⟩
              · refine Or.inl ⟨failure, ?_, fails⟩
                change (run hash allocator builders runtime calls next.forget _ >>= _) = _
                rw [thrown]
                rfl
              · refine Or.inr ⟨after, table, ?_, afterSimulates, afterKeeps, later⟩
                change (run hash allocator builders runtime calls next.forget _ >>= _) = _
                rw [ran]
                rfl
      | commit =>
          unfold run
          rw [commit_forget]
          cases pending : emitter.pending with
          | some rec =>
              rw [commit_awaited simulates lawful pending]
              exact ih simulates keeps
          | none =>
              rcases commit_handed simulates lawful pending with ⟨segment, committed, same, _⟩
              rw [committed]
              have kept : Keeps hash allocator buckets segment.inserted inserted := same ▸ keeps
              exact ih (simulates.congr same) kept

private theorem samePlace_forget {before after : QueryBuilder σ} (same : SamePlace before after) :
    SamePlace before.forget after.forget :=
  ⟨same.handleIdx, same.offsets, rfl⟩

/-- Behind the last record each call leaves the builder where it is and the
table as it is. -/
theorem run_ended (readable : Readable files) (lawful : builders.Lawful) (calls : List Call)
    (simulates : Simulates files builders builder emitter)
    (keeps : Keeps hash allocator buckets builder.segment.inserted inserted)
    (ended : emitter.Ended (allRecords files)) :
    ∃ final, run hash allocator builders runtime calls builder.forget inserted =
        .ok (List.replicate (calls.count .nextQuery) builders.empty, final, inserted) ∧
      SamePlace builder.forget final := by
  induction calls generalizing builder with
  | nil => exact ⟨builder.forget, rfl, .refl builder.forget⟩
  | cons call calls ih =>
      cases call with
      | nextQuery =>
          rcases nextQuery_ended readable lawful simulates ended with
            ⟨next, called, nextSimulates, first⟩
          rcases nextQuery_answers readable lawful simulates keeps with
            ⟨other, otherCalled, _, answers⟩
          rw [called, Except.ok.injEq, Prod.mk.injEq] at otherCalled
          rcases otherCalled with ⟨statementIs, rfl⟩
          rw [← statementIs, ended.emit, ended.pos] at answers
          unfold run
          generalize nextQuery hash allocator builders runtime builder.forget inserted = result
            at answers ⊢
          cases answers with
          | thrown refused fails =>
              rw [List.drop_length] at fails
              cases fails
          | @ok table nextKeeps left =>
              rw [List.drop_length] at left
              have same : inserted = table := Except.ok.inj left
              subst same
              rcases ih nextSimulates nextKeeps with ⟨final, ran, second⟩
              refine ⟨final, ?_, (samePlace_forget first).trans second⟩
              change (run hash allocator builders runtime calls next.forget inserted >>= _) = _
              rw [ran, List.count_cons_self]
              rfl
      | commit =>
          rcases commit_ended lawful simulates ended with ⟨next, committed, nextSimulates, first⟩
          have kept : Keeps hash allocator buckets next.segment.inserted inserted :=
            first.inserted ▸ keeps
          rcases ih nextSimulates kept with ⟨final, ran, second⟩
          refine ⟨final, ?_, (samePlace_forget first).trans second⟩
          unfold run
          rw [commit_forget, committed]
          exact ran

/-! ### The loop -/

variable (hash allocator files)

structure LoopEnds (records : Nat) (runtime : Runtime) (schema : Schema) (calls : List Call)
    (returned : List Bytes) (after : QueryBuilder Bytes) (inserted : FlatHashTable UInt64) :
    Prop where
  few : (returned.filter (· ≠ [])).length ≤ 2 * records
  done : 2 * records < calls.count .nextQuery → [] ∈ returned
  still : [] ∈ returned → ∀ later, ∃ final,
    run hash allocator (Builders.texts schema) runtime later after inserted =
      .ok (List.replicate (later.count .nextQuery) [], final, inserted) ∧
    SamePlace after final

/-- The import loop ends, whatever is called. -/
def ImportEnds (segment : Segment) (memory : Nat → Bytes) (inserted : FlatHashTable UInt64) :
    Prop :=
  ∃ opened reserved,
    create hash allocator (Builders.texts schema) schema segment memory (files.map Csv.bytes)
      inserted = .ok (opened, reserved) ∧
    ∀ calls, ∃ returned after table,
      run hash allocator (Builders.texts schema) runtime calls opened reserved =
        .ok (returned, after, table) ∧
      LoopEnds hash allocator (allRecords files).length runtime schema calls returned after table

def sampleAllocator : FlatHash.Allocator :=
  { grants := fun slots => decide (slots ≤ 2 ^ 24 + 24)
    addressable := fun _ granted => Nat.lt_of_le_of_lt (of_decide_eq_true granted) (by decide) }

theorem sampleAllocator_fits : FitsSegment sampleAllocator := by
  intro slots granted
  have few : slots ≤ 2 ^ 24 + 24 := of_decide_eq_true granted
  have shared : 16 * (2 ^ 24 + 24) ≤ SHARED_MGR_SIZE := by decide
  omega

theorem sampleAllocator_grants {bits : Nat} (few : bits ≤ 24) :
    sampleAllocator.grants (FlatHashTable.slotsOf bits) = true := by
  apply decide_eq_true
  have powers := Nat.pow_le_pow_right Nat.two_pos few
  have lookups : max FlatHash.minLookups bits ≤ 24 := max_le (by decide) few
  exact Nat.add_le_add powers lookups

variable {hash allocator files}

theorem ImportEnds.takesIn (readable : Readable files) {segment : Segment} {memory : Nat → Bytes}
    (sized : ∀ i, 0 < (memory i).length) {start : Nat}
    (boundary : IsBoundary files segment.committedHandleIdx.toNat segment.committedOffset start)
    (holds : HoldsSet allocator hash segment.inserted inserted)
    (ends : ImportEnds hash allocator files segment.forget memory inserted) :
    TakesIn hash allocator runtime schema ((allRecords files).drop start) inserted := by
  rcases create_simulates (Builders.texts schema) segment sized boundary with
    ⟨builder, created, simulates, segmentIs⟩
  rcases ends with ⟨opened, reserved, openedIs, ends⟩
  rw [create_forget created] at openedIs
  rcases reserve_keeps holds with ⟨failure, thrown, _⟩ | ⟨table, tableIs, keeps⟩
  · rw [thrown] at openedIs
    cases openedIs
  · rw [tableIs] at openedIs
    cases openedIs
    rw [← segmentIs] at keeps
    let calls := List.replicate (2 * (allRecords files).length + 1) Call.nextQuery
    rcases ends calls with ⟨returned, after, table, ran, _⟩
    rcases run_forget readable (Builders.texts_lawful schema) calls simulates keeps with
      ⟨failure, thrown, _⟩ | ⟨other, filled, otherRan, _, _, left⟩
    · rw [thrown] at ran
      cases ran
    · have many : 2 * (allRecords files).length < calls.count .nextQuery := by
        rw [List.count_replicate_self]
        exact Nat.lt_succ_self _
      have last := Emitter.texts_done calls simulates.valid many
      have ended := Emitter.texts_ended calls simulates.valid last
      rw [ended.pos, List.drop_length] at left
      exact ⟨reserved, filled, tableIs, left⟩

private theorem TakesIn.importEnds (readable : Readable files) {segment : Segment}
    {memory : Nat → Bytes} (sized : ∀ i, 0 < (memory i).length) {start : Nat}
    (boundary : IsBoundary files segment.committedHandleIdx.toNat segment.committedOffset start)
    (holds : HoldsSet allocator hash segment.inserted inserted)
    (takesIn : TakesIn hash allocator runtime schema ((allRecords files).drop start) inserted) :
    ImportEnds hash allocator files segment.forget memory inserted := by
  have lawful := Builders.texts_lawful schema
  rcases create_simulates (Builders.texts schema) segment sized boundary with
    ⟨builder, created, simulates, segmentIs⟩
  rcases takesIn with ⟨reserved, filled, reservedIs, filledIs⟩
  rcases reserve_keeps holds with ⟨failure, thrown, _⟩ | ⟨table, tableIs, keeps⟩
  · rw [thrown] at reservedIs
    cases reservedIs
  · rw [reservedIs] at tableIs
    cases tableIs
    rw [← segmentIs] at keeps
    refine ⟨builder.forget, reserved, ?_, ?_⟩
    · rw [create_forget created, reservedIs]
      rfl
    intro calls
    rcases run_forget readable lawful calls simulates keeps with
      ⟨failure, _, fails⟩ | ⟨after, table, ran, afterSimulates, afterKeeps, _⟩
    · change takeIn hash allocator runtime schema ((allRecords files).drop start) reserved = _
        at fails
      rw [filledIs] at fails
      cases fails
    · refine ⟨_, after.forget, table, ran, ?_⟩
      constructor
      · exact Emitter.texts_few calls simulates.valid
      · exact Emitter.texts_done calls simulates.valid
      · intro last later
        have ended := Emitter.texts_ended calls simulates.valid last
        exact run_ended readable lawful later afterSimulates afterKeeps ended

/-- Wherever the first cursor is and whatever the table holds, the loop ends
exactly if the table is granted what it needs for the hashes of the records
from that cursor on. In the segment these are at most 2^23 with the old ones,
and where the larger tables are granted any number will do. -/
theorem importEnds_iff (readable : Readable files) (segment : Segment) {memory : Nat → Bytes}
    (sized : ∀ i, 0 < (memory i).length) {start : Nat}
    (boundary : IsBoundary files segment.committedHandleIdx.toNat segment.committedOffset start)
    (holds : HoldsSet allocator hash segment.inserted inserted) :
    (ImportEnds hash allocator files segment.forget memory inserted ↔
      TakesIn hash allocator runtime schema ((allRecords files).drop start) inserted) ∧
    (FitsSegment allocator →
      TakesIn hash allocator runtime schema ((allRecords files).drop start) inserted →
      (segment.inserted ∪
        keysOf (recordKey runtime schema) ((allRecords files).drop start)).card ≤ 2 ^ 23) ∧
    ((∀ bits ≤ max 24 ((segment.inserted ∪
        keysOf (recordKey runtime schema) ((allRecords files).drop start)).card + 2),
      allocator.grants (FlatHashTable.slotsOf bits) = true) →
      TakesIn hash allocator runtime schema ((allRecords files).drop start) inserted) :=
  ⟨⟨ImportEnds.takesIn readable sized boundary holds,
      TakesIn.importEnds readable sized boundary holds⟩,
    fun fits takesIn => takesIn.card_le fits holds, TakesIn.of_granted holds⟩

/-- Three records, in the segment of the configured size. -/
theorem importEnds_iff_sampleFiles :
    ImportEnds id sampleAllocator sampleFiles Segment.fresh (fun _ => List.replicate 4 0)
      FlatHashTable.empty := by
  have sized : ∀ _ : Nat, 0 < (List.replicate 4 (0 : Byte)).length := fun _ => Nat.succ_pos 3
  rcases importEnds_iff sampleFiles_readable Segment.fresh sized (QueryBuilder.isBoundary_start rfl)
    HoldsSet.empty with ⟨ends, _, takesIn⟩
  refine ends.mpr (takesIn ?_)
  intro bits few
  apply sampleAllocator_grants
  have keys : (Segment.fresh.inserted ∪ keysOf (recordKey sampleRuntime sampleSchema)
      ((allRecords sampleFiles).drop 0)).card ≤ 3 := by
    change (∅ ∪ _ : Finset UInt64).card ≤ 3
    rw [Finset.empty_union]
    exact List.toFinset_card_le _
  omega

/-! ### A file with too many keys -/

def crowdedRecord (n : Nat) : Record := [padded 8 n, ascii "0", ascii "0"]

def crowdedLine (n : Nat) : Line countingRuntime sampleSchema :=
  { raw := crowdedRecord n
    record := crowdedRecord n
    filled := List.cons_ne_nil _ _
    width := rfl
    plain := by
      intro field member
      rcases List.mem_cons.mp member with rfl | later
      · exact plain_padded 8 n
      · have others : ∀ field ∈ [ascii "0", ascii "0"], Plain field := by decide
        exact others field later
    first := by
      have isDigit : isDigit (digit (n / 10 / 10 / 10 / 10 / 10 / 10 / 10)) = true :=
        isDigit_digit _
      intro ended
      cases Option.some.inj ended ▸ isDigit
    numerals := rfl }

/-- The keys `00000000` to `08388608`, one more than half of 2^24 buckets. -/
def crowdedFile : Csv countingRuntime sampleSchema :=
  (List.range (2 ^ 23 + 1)).map crowdedLine

private theorem allRecords_crowdedFile :
    allRecords [crowdedFile] = (List.range (2 ^ 23 + 1)).map crowdedRecord := by
  unfold allRecords crowdedFile
  rw [List.flatten_singleton, List.map_map]
  rfl

private theorem recordKey_crowdedRecord (n : Nat) :
    recordKey countingRuntime sampleSchema (crowdedRecord n) = UInt64.ofNat (n % 10 ^ 8) := by
  change UInt64.ofNat (value (padded 8 n ++ [])) = _
  rw [List.append_nil, value_padded]

theorem crowdedFile_readable : Readable [crowdedFile] := by
  refine ⟨by decide, ?_⟩
  intro later member
  rw [List.mem_singleton.mp member]
  unfold crowdedFile
  rw [ne_eq, List.map_eq_nil_iff, List.range_eq_nil]
  exact Nat.succ_ne_zero _

theorem crowdedFile_keys :
    (keysOf (recordKey countingRuntime sampleSchema) (allRecords [crowdedFile])).card =
      2 ^ 23 + 1 := by
  unfold keysOf
  rw [allRecords_crowdedFile, List.map_map, List.toFinset_card_of_nodup, List.length_map,
    List.length_range]
  refine List.Nodup.map_on ?_ List.nodup_range
  intro n inside m otherInside same
  rw [List.mem_range] at inside otherInside
  have keys : (n % 10 ^ 8) % 2 ^ 64 = (m % 10 ^ 8) % 2 ^ 64 := by
    rw [← UInt64.toNat_ofNat', ← UInt64.toNat_ofNat', ← recordKey_crowdedRecord,
      ← recordKey_crowdedRecord]
    exact congrArg UInt64.toNat same
  omega

/-- One more hash than the segment has room for. -/
theorem not_importEnds_crowdedFile :
    Readable [crowdedFile] ∧ FitsSegment sampleAllocator ∧
      ¬ ImportEnds id sampleAllocator [crowdedFile] Segment.fresh (fun _ => List.replicate 4 0)
        FlatHashTable.empty := by
  refine ⟨crowdedFile_readable, sampleAllocator_fits, ?_⟩
  intro ends
  have atFirst : [crowdedFile][0]? = some crowdedFile := rfl
  have sized : 0 < (List.replicate 4 (0 : Byte)).length := by decide
  have holds : HoldsSet sampleAllocator id Segment.fresh.inserted FlatHashTable.empty :=
    HoldsSet.empty
  have boundary : IsBoundary [crowdedFile] Segment.fresh.committedHandleIdx.toNat
      Segment.fresh.committedOffset 0 :=
    QueryBuilder.isBoundary_start atFirst
  have takesIn := ImportEnds.takesIn crowdedFile_readable (fun _ => sized) boundary holds ends
  have few := takesIn.card_le sampleAllocator_fits HoldsSet.empty
  rw [List.drop_zero, Finset.empty_union, crowdedFile_keys] at few
  omega

end

end SharedTable

end ChangeSql
