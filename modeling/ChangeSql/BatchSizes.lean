/-
How many records the batches of `next_query` carry.

The loop of `next_query` goes on while `records.size() <= INSERT_NUM_TUPLES`,
so it stops only behind one record more than the constant says. A batch is
that long just when so many records in a row have new hashes.
-/

import ChangeSql.Calls
import ChangeSql.Library.DecimalDigits

namespace ChangeSql

open FreshRuns DecimalDigits
open QueryBuilder (IsBoundary)

def BatchesFit (returned : List Statement) : Prop :=
  ∀ records, .insert records ∈ returned →
    1 ≤ records.length ∧ records.length ≤ INSERT_NUM_TUPLES

namespace Emitter

variable {key : Record → UInt64} {records : List Record} {room : Nat} {emitter after : Emitter}
  {statement : Statement} {batch : List Record} {start : Nat} {seen : Finset UInt64}

/-- The emitter has read `count` records since it was at `start` with the keys
of `seen`. -/
structure HasRead (key : Record → UInt64) (records : List Record) (start : Nat)
    (seen : Finset UInt64) (emitter : Emitter) (count : Nat) : Prop where
  pos : emitter.pos = start + count
  seen : emitter.seen = seen ∪ keysOf key ((records.drop start).take count)

private theorem hasRead_start (key : Record → UInt64) (records : List Record) (pos : Nat)
    (seen : Finset UInt64) : HasRead key records pos seen (Emitter.start pos seen) 0 :=
  ⟨rfl, (Finset.union_empty seen).symm⟩

theorem HasRead.upcoming {count : Nat} (hasRead : HasRead key records start seen emitter count) :
    records.drop emitter.pos = (records.drop start).drop count := by
  rw [hasRead.pos, List.drop_drop]

theorem HasRead.append {count : Nat} (hasRead : HasRead key records start seen emitter count)
    {batch : List Record} (upcoming : batch <+: records.drop emitter.pos)
    (pos : after.pos = emitter.pos + batch.length)
    (seenIs : after.seen = emitter.seen ∪ keysOf key batch) :
    HasRead key records start seen after (count + batch.length) := by
  rw [hasRead.upcoming] at upcoming
  constructor
  · rw [pos, hasRead.pos, Nat.add_assoc]
  · rw [seenIs, hasRead.seen, take_add_of_prefix upcoming, keysOf_append, Finset.union_assoc]

private theorem Emits.hasRead (emits : Emits key records room emitter statement after) {count : Nat}
    (hasRead : HasRead key records start seen emitter count) :
    HasRead key records start seen after (count + (after.pos - emitter.pos)) := by
  cases emits with
  | complete rec pending =>
      rw [Nat.sub_self]
      exact ⟨hasRead.pos, hasRead.seen⟩
  | deferred rec pending tmp =>
      rw [Nat.sub_self]
      exact ⟨hasRead.pos, hasRead.seen⟩
  | full batch pending tmp upcoming allNew size =>
      rw [Nat.add_sub_cancel_left]
      exact hasRead.append upcoming rfl rfl
  | exhausted batch pending tmp upcoming allNew size =>
      rw [Nat.add_sub_cancel_left]
      exact hasRead.append (upcoming ▸ List.prefix_rfl) rfl rfl
  | known rec pending tmp upcoming old =>
      rw [Nat.add_sub_cancel_left]
      rw [← Nat.add_zero emitter.pos, ← List.getElem?_drop] at upcoming
      have first : [rec] <+: records.drop emitter.pos := prefix_snoc List.nil_prefix upcoming
      exact hasRead.append first rfl (union_keysOf_seen old).symm
  | batched batch rec pending tmp some upcoming allNew size old =>
      have length : (batch ++ [rec]).length = batch.length + 1 := by
        rw [List.length_append, List.length_singleton]
      rw [Nat.add_assoc, Nat.add_sub_cancel_left, ← length]
      refine hasRead.append upcoming rfl ?_
      rw [keysOf_append, ← Finset.union_assoc]
      exact (union_keysOf_seen old).symm

private theorem Emits.batch_length (emits : Emits key records room emitter (.insert batch) after)
    (roomy : 0 < room) {count : Nat} (hasRead : HasRead key records start seen emitter count)
    {bound : Nat} (short : StretchesAtMost key bound seen (records.drop start)) :
    1 ≤ batch.length ∧ batch.length ≤ bound := by
  have stretch (upcoming : batch <+: records.drop emitter.pos)
      (allNew : AllNew key emitter.seen batch) : batch.length ≤ bound := by
    obtain ⟨later, rest⟩ := hasRead.upcoming ▸ upcoming
    rw [hasRead.seen] at allNew
    apply short ((records.drop start).take count) batch later _ allNew
    rw [List.append_assoc, rest, List.take_append_drop]
  cases emits with
  | full _ pending tmp upcoming allNew size =>
      exact ⟨by omega, stretch upcoming allNew⟩
  | batched _ rec pending tmp some upcoming allNew size old =>
      have first := (List.prefix_append batch [rec]).trans upcoming
      exact ⟨List.length_pos_of_ne_nil some, stretch first allNew⟩

section

variable {earlier run later : List Record}

/-- A known record that stops a batch is in front of a stretch of new records
that the batch could not have passed. -/
theorem HasRead.stop_in_front {count : Nat}
    (hasRead : HasRead key records start seen emitter count)
    (split : records.drop start = earlier ++ run ++ later)
    (allNew : AllNew key (seen ∪ keysOf key earlier) run) (behind : count ≤ earlier.length)
    {rec : Record} (upcoming : batch ++ [rec] <+: records.drop emitter.pos)
    (short : batch.length < run.length) (old : key rec ∈ emitter.seen ∪ keysOf key batch) :
    count + batch.length + 1 ≤ earlier.length := by
  have first := (List.prefix_append batch [rec]).trans upcoming
  have atStop := getElem?_of_prefix_snoc upcoming
  rw [hasRead.upcoming] at first atStop
  rw [hasRead.seen, Finset.union_assoc, ← keysOf_append, ← take_add_of_prefix first, split] at old
  rw [List.getElem?_drop, split] at atStop
  by_contra far
  exact allNew.not_mem_of_getElem? (by omega) (by omega) atStop old

private theorem Emits.towards (emits : Emits key records room emitter statement after) {count : Nat}
    (hasRead : HasRead key records start seen emitter count)
    (split : records.drop start = earlier ++ run ++ later)
    (allNew : AllNew key (seen ∪ keysOf key earlier) run) (roomy : 0 < room)
    (long : room ≤ run.length) (behind : count ≤ earlier.length) :
    (∃ batch, statement = .insert batch ∧ batch.length = room) ∨
      (statement ≠ .empty ∧ count + (after.pos - emitter.pos) ≤ earlier.length) := by
  cases emits with
  | complete rec pending =>
      refine Or.inr ⟨nofun, ?_⟩
      rw [Nat.sub_self]
      exact behind
  | deferred rec pending tmp =>
      refine Or.inr ⟨nofun, ?_⟩
      rw [Nat.sub_self]
      exact behind
  | full batch pending tmp upcoming batchNew size => exact Or.inl ⟨batch, rfl, size⟩
  | exhausted batch pending tmp upcoming batchNew size =>
      exfalso
      have length := congrArg List.length upcoming
      rw [hasRead.upcoming, split, List.length_drop, List.length_append, List.length_append]
        at length
      omega
  | known rec pending tmp upcoming old =>
      refine Or.inr ⟨nofun, ?_⟩
      rw [← Nat.add_zero emitter.pos, ← List.getElem?_drop] at upcoming
      have first : [] ++ [rec] <+: records.drop emitter.pos := prefix_snoc List.nil_prefix upcoming
      rw [Nat.add_sub_cancel_left]
      refine hasRead.stop_in_front split allNew behind first (Nat.lt_of_lt_of_le roomy long) ?_
      rw [keysOf_nil, Finset.union_empty]
      exact old
  | batched batch rec pending tmp some upcoming batchNew size old =>
      refine Or.inr ⟨nofun, ?_⟩
      rw [Nat.add_assoc, Nat.add_sub_cancel_left]
      exact hasRead.stop_in_front split allNew behind upcoming (by omega) old

end

end Emitter

/-! ### Runs -/

section

variable {runtime : Runtime} {schema : Schema} {files : List (Csv runtime schema)}
  {emitter : Emitter} {start : Nat} {seen : Finset UInt64}

private theorem Emitter.answers_fit
    (short : StretchesAtMost (recordKey runtime schema) INSERT_NUM_TUPLES seen
      ((allRecords files).drop start)) (calls : List Call) {count : Nat}
    (hasRead : HasRead (recordKey runtime schema) (allRecords files) start seen emitter count) :
    BatchesFit (emitter.answers files calls).1 := by
  induction calls generalizing emitter count with
  | nil =>
      intro records member
      cases member
  | cons call calls ih =>
      cases call with
      | commit => exact ih hasRead
      | nextQuery =>
          have emits := emitter.emit_emits files
          intro records member
          unfold answers at member
          rcases List.mem_cons.mp member with now | later
          · rw [← now] at emits
            exact emits.batch_length (Nat.succ_pos _) hasRead short
          · exact ih (emits.hasRead hasRead) records later

/-- A stretch of new records that is longer than the constant is not gone
through without a batch that is longer, too. -/
theorem Emitter.answers_long (valid : emitter.Valid (allRecords files)) {count : Nat}
    (hasRead : HasRead (recordKey runtime schema) (allRecords files) start seen emitter count)
    {earlier run later : List Record}
    (split : (allRecords files).drop start = earlier ++ run ++ later)
    (allNew : AllNew (recordKey runtime schema) (seen ∪ keysOf (recordKey runtime schema) earlier)
      run)
    (long : INSERT_NUM_TUPLES < run.length) (behind : count ≤ earlier.length) :
    ∃ calls batch, .insert batch ∈ (emitter.answers files (List.replicate calls .nextQuery)).1 ∧
      batch.length = INSERT_NUM_TUPLES + 1 := by
  induction measure : remaining (allRecords files) emitter using Nat.strongRecOn
    generalizing emitter count with
  | ind left ih =>
      have emits := emitter.emit_emits files
      rcases emits.towards hasRead split allNew (Nat.succ_pos _) long behind with
        ⟨batch, statementIs, size⟩ | ⟨more, further⟩
      · refine ⟨1, batch, ?_, size⟩
        exact List.mem_cons.mpr (Or.inl statementIs.symm)
      · have fewer := emits.remaining_lt (Nat.succ_pos _) valid more
        rcases ih _ (measure ▸ fewer) (emits.valid valid) (emits.hasRead hasRead) further rfl with
          ⟨calls, batch, member, size⟩
        exact ⟨calls + 1, batch, List.mem_cons_of_mem _ member, size⟩

private theorem run_not_fit {opened : QueryBuilder Statement} (readable : Readable files)
    (simulates : Simulates files Builders.symbolic opened (Emitter.start start seen))
    (long : ¬ StretchesAtMost (recordKey runtime schema) INSERT_NUM_TUPLES seen
      ((allRecords files).drop start)) :
    ∃ calls returned after,
      opened.run Builders.symbolic runtime calls = .ok (returned, after) ∧
      ¬ BatchesFit returned := by
  unfold StretchesAtMost at long
  push Not at long
  rcases long with ⟨earlier, run, later, split, allNew, long⟩
  rcases Emitter.answers_long simulates.valid (Emitter.hasRead_start _ _ _ _) split allNew long
      (Nat.zero_le _) with ⟨calls, batch, member, size⟩
  rcases run_answers readable (List.replicate calls .nextQuery) simulates with ⟨after, ran, _⟩
  refine ⟨_, _, after, ran, ?_⟩
  intro fits
  have bounded := (fits batch member).2
  omega

/-- In every run, whatever the hashes, the files and the set of hashes at the
start are, the batches have at most `INSERT_NUM_TUPLES` records exactly when no
more records in a row have new hashes. -/
theorem nextQuery_batchesFit_iff (readable : Readable files) (segment : Segment)
    {memory : Nat → Bytes} (sized : ∀ i, 0 < (memory i).length) {start : Nat}
    (boundary : IsBoundary files segment.committedHandleIdx.toNat segment.committedOffset start) :
    ∃ opened : QueryBuilder Statement,
      QueryBuilder.create (Builders.texts schema) schema segment memory (files.map Csv.bytes) =
        .ok (opened.rendered schema) ∧
      (∀ calls, ∃ returned after,
        opened.run Builders.symbolic runtime calls = .ok (returned, after) ∧
        (opened.rendered schema).run (Builders.texts schema) runtime calls =
          .ok (returned.map (Statement.text schema), after.rendered schema)) ∧
      ((∀ calls returned after,
          opened.run Builders.symbolic runtime calls = .ok (returned, after) →
            BatchesFit returned) ↔
        StretchesAtMost (recordKey runtime schema) INSERT_NUM_TUPLES segment.inserted
          ((allRecords files).drop start)) := by
  rcases create_simulates Builders.symbolic segment sized boundary with
    ⟨opened, created, simulates, _⟩
  refine ⟨opened, ?_, ?_, ?_⟩
  · rw [QueryBuilder.create_rendered, created]
    rfl
  · intro calls
    rcases run_answers readable calls simulates with ⟨after, ran, _⟩
    refine ⟨_, after, ran, ?_⟩
    rw [QueryBuilder.run_rendered, ran]
    rfl
  · constructor
    · intro fits
      by_contra long
      rcases run_not_fit readable simulates long with ⟨calls, returned, after, ran, unfit⟩
      exact unfit (fits calls returned after ran)
    · intro short calls returned after ran
      rcases run_answers readable calls simulates with ⟨other, otherRan, _⟩
      rw [otherRan] at ran
      cases ran
      exact Emitter.answers_fit short calls (Emitter.hasRead_start _ _ _ _)

theorem nextQuery_batchesFit_iff_sampleFiles :
    ∃ opened : QueryBuilder Statement,
      QueryBuilder.create (Builders.texts sampleSchema) sampleSchema Segment.fresh
        (fun _ => List.replicate 4 0) (sampleFiles.map Csv.bytes) =
          .ok (opened.rendered sampleSchema) ∧
      (∀ calls, ∃ returned after,
        opened.run Builders.symbolic sampleRuntime calls = .ok (returned, after) ∧
        (opened.rendered sampleSchema).run (Builders.texts sampleSchema) sampleRuntime calls =
          .ok (returned.map (Statement.text sampleSchema), after.rendered sampleSchema)) ∧
      ((∀ calls returned after,
          opened.run Builders.symbolic sampleRuntime calls = .ok (returned, after) →
            BatchesFit returned) ↔
        StretchesAtMost (recordKey sampleRuntime sampleSchema) INSERT_NUM_TUPLES ∅
          (allRecords sampleFiles)) :=
  nextQuery_batchesFit_iff sampleFiles_readable Segment.fresh (fun _ => by decide)
    (QueryBuilder.isBoundary_start rfl)

/-! ### A file with many keys -/

def countingRuntime : Runtime :=
  { sampleRuntime with xxh3 := fun chunks => UInt64.ofNat (value chunks.flatten) }

def countedRecord (n : Nat) : Record := [padded 3 n, ascii "0", ascii "0"]

theorem plain_padded (width n : Nat) : Plain (padded width n) := by
  intro byte member
  have isDigit := isDigit_padded width n byte member
  rintro (rfl | rfl) <;> cases isDigit

def countedLine (n : Nat) : Line countingRuntime sampleSchema :=
  { raw := countedRecord n
    record := countedRecord n
    filled := List.cons_ne_nil _ _
    width := rfl
    plain := by
      intro field member
      rcases List.mem_cons.mp member with rfl | later
      · exact plain_padded 3 n
      · have others : ∀ field ∈ [ascii "0", ascii "0"], Plain field := by decide
        exact others field later
    first := by
      have isDigit : isDigit (digit (n / 10 / 10)) = true := isDigit_digit _
      intro ended
      cases Option.some.inj ended ▸ isDigit
    numerals := rfl }

def countedFile : Csv countingRuntime sampleSchema :=
  (List.range (INSERT_NUM_TUPLES + 1)).map countedLine

private theorem allRecords_countedFile :
    allRecords [countedFile] = (List.range (INSERT_NUM_TUPLES + 1)).map countedRecord := by
  unfold allRecords countedFile
  rw [List.flatten_singleton, List.map_map]
  rfl

private theorem recordKey_countedRecord (n : Nat) :
    recordKey countingRuntime sampleSchema (countedRecord n) = UInt64.ofNat (n % 1000) := by
  change UInt64.ofNat (value (padded 3 n ++ [])) = _
  rw [List.append_nil, value_padded]
  rfl

private theorem countedFile_readable : Readable [countedFile] := by
  refine ⟨by decide, ?_⟩
  intro later member
  rw [List.mem_singleton.mp member]
  unfold countedFile
  rw [ne_eq, List.map_eq_nil_iff, List.range_eq_nil]
  exact Nat.succ_ne_zero _

private theorem countedFile_allNew :
    AllNew (recordKey countingRuntime sampleSchema) ∅ (allRecords [countedFile]) := by
  rw [allRecords_countedFile]
  refine ⟨fun _ _ => Finset.notMem_empty _, ?_⟩
  rw [List.map_map]
  refine List.Nodup.map_on ?_ List.nodup_range
  intro n inside m otherInside same
  rw [List.mem_range] at inside otherInside
  unfold INSERT_NUM_TUPLES at inside otherInside
  have keys : (n % 1000) % 2 ^ 64 = (m % 1000) % 2 ^ 64 := by
    rw [← UInt64.toNat_ofNat', ← UInt64.toNat_ofNat', ← recordKey_countedRecord,
      ← recordKey_countedRecord]
    exact congrArg UInt64.toNat same
  omega

/-- All 501 records of the file are in one batch. -/
theorem not_batchesFit_countedFile :
    ∃ opened : QueryBuilder Statement,
      QueryBuilder.create (Builders.texts sampleSchema) sampleSchema Segment.fresh
        (fun _ => List.replicate 4 0) [countedFile.bytes] = .ok (opened.rendered sampleSchema) ∧
      ∃ calls returned after,
        opened.run Builders.symbolic countingRuntime calls = .ok (returned, after) ∧
        ¬ BatchesFit returned := by
  have atFirst : [countedFile][0]? = some countedFile := rfl
  have sized : 0 < (List.replicate 4 (0 : Byte)).length := by decide
  rcases create_simulates Builders.symbolic Segment.fresh (fun _ => sized)
    (QueryBuilder.isBoundary_start atFirst) with ⟨opened, created, simulates, _⟩
  refine ⟨opened, ?_, run_not_fit countedFile_readable simulates ?_⟩
  · rw [List.map_singleton] at created
    rw [QueryBuilder.create_rendered, created]
    rfl
  · intro short
    have split : (allRecords [countedFile]).drop 0 = [] ++ allRecords [countedFile] ++ [] := by
      rw [List.drop_zero, List.append_nil, List.nil_append]
    have bounded := short _ _ _ split countedFile_allNew
    rw [allRecords_countedFile, List.length_map, List.length_range] at bounded
    omega

end

end ChangeSql
