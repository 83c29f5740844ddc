/-
When the record stream runs over all files.

`next_record` tests for the end of a file once and moves on by one file at
most. The calls deliver exactly the lines of all files when no file behind the
first is empty and the index of the files, an `unsigned char`, can count them.
Otherwise they do not: an empty file yields a record that no line has, and
from 256 files on the end of the input is never seen.
-/

import ChangeSql.RecordStream
import Mathlib.Algebra.BigOperators.Group.List.Basic

namespace ChangeSql.QueryBuilder

open BufferedReader (Represents)

variable {σ : Type} {runtime : Runtime} {schema : Schema}

def nextRecords (runtime : Runtime) :
    Nat → QueryBuilder σ → Except Fault (List Record × QueryBuilder σ)
  | 0, builder => .ok ([], builder)
  | calls + 1, builder => do
      let (records, builder) ← nextRecords runtime calls builder
      let (rec, builder) ← nextRecord runtime builder
      return (records ++ [rec], builder)

/-- Starting from cursor (0, 0), the calls return the lines of all files in
order and then the empty record for ever, in the last file. -/
def StreamsAllLines (memory : Nat → Bytes) (files : List (Csv runtime schema)) : Prop :=
  ∃ start, create Builders.symbolic schema Segment.fresh memory (files.map Csv.bytes) = .ok start ∧
    ∀ calls, ∃ next,
      nextRecords runtime calls start =
        .ok ((allRecords files ++ List.replicate calls []).take calls, next) ∧
      (files.flatten.length < calls → next.handleIdx.toNat + 1 = files.length)

def Streamable (files : List (Csv runtime schema)) : Prop :=
  files.length ≤ 255 ∧ ∀ later ∈ files.tail, later ≠ []

private theorem nextRecords_succ {calls : Nat} {builder next : QueryBuilder σ}
    {records : List Record} (ran : nextRecords runtime (calls + 1) builder = .ok (records, next)) :
    ∃ earlier between rec, nextRecords runtime calls builder = .ok (earlier, between) ∧
      nextRecord runtime between = .ok (rec, next) ∧ records = earlier ++ [rec] := by
  simp only [nextRecords, bind, Except.bind] at ran
  split at ran
  · contradiction
  · rename_i pair earlierRan
    split at ran
    · contradiction
    · rename_i last lastRan
      cases ran
      exact ⟨pair.1, pair.2, last.1, earlierRan, lastRan, rfl⟩

/-! ### Files that stream -/

variable {files : List (Csv runtime schema)} {builder next : QueryBuilder σ} {h : Nat}

theorem take_padded (records : List Record) (calls more : Nat) :
    (records ++ List.replicate (calls + more) []).take calls =
      (records ++ List.replicate calls []).take calls := by
  rw [List.replicate_add, ← List.append_assoc, List.take_append_of_le_length]
  rw [List.length_append, List.length_replicate]
  exact Nat.le_add_left _ _

private theorem take_padded_succ (records : List Record) (calls : Nat) :
    (records ++ List.replicate (calls + 1) []).take (calls + 1) =
      (records ++ List.replicate calls []).take calls ++ [records[calls]?.getD []] := by
  rw [List.take_add_one, take_padded]
  rcases Nat.lt_or_ge calls records.length with inside | beyond
  · rw [List.getElem?_append_left inside, List.getElem?_eq_getElem inside]
    rfl
  · rw [List.getElem?_append_right beyond, List.getElem?_eq_none beyond,
      List.getElem?_replicate_of_lt (by omega)]
    rfl

theorem ReadsFrom.nextRecords {g : Nat} (reads : ReadsFrom files builder g)
    (streamable : Streamable files) (calls : Nat) :
    ∃ next,
      QueryBuilder.nextRecords runtime calls builder =
        .ok (((allRecords files).drop g ++ List.replicate calls []).take calls, next) ∧
      ReadsFrom files next (min (g + calls) files.flatten.length) ∧
      (files.flatten.length < g + calls → 0 < calls → next.handleIdx.toNat + 1 = files.length) := by
  induction calls with
  | zero =>
      refine ⟨builder, rfl, ?_, fun _ some => absurd some (Nat.not_lt_zero _)⟩
      rw [Nat.add_zero, Nat.min_eq_left reads.le_length]
      exact reads
  | succ calls ih =>
      obtain ⟨between, earlierRan, betweenReads, _⟩ := ih
      obtain ⟨few, nonempty⟩ := streamable
      rcases Nat.lt_or_ge (g + calls) files.flatten.length with inside | beyond
      · obtain ⟨line, atLine⟩ : ∃ line, files.flatten[g + calls]? = some line :=
          ⟨_, List.getElem?_eq_getElem inside⟩
        rw [Nat.min_eq_left (Nat.le_of_lt inside)] at betweenReads
        obtain ⟨next, recordRead, nextReads, _⟩ := betweenReads.nextRecord few nonempty atLine
        refine ⟨next, ?_, ?_, fun beyond => absurd beyond (by omega)⟩
        · simp only [QueryBuilder.nextRecords, earlierRan, recordRead, bind, Except.bind]
          rw [take_padded_succ, List.getElem?_drop, allRecords, List.getElem?_map, atLine]
          rfl
        · rw [← Nat.add_assoc, Nat.min_eq_left inside]
          exact nextReads
      · rw [Nat.min_eq_right beyond] at betweenReads
        obtain ⟨next, recordRead, nextReads, _, last⟩ :=
          betweenReads.nextRecord_end few nonempty (Nat.le_refl _)
        refine ⟨next, ?_, ?_, fun _ _ => last⟩
        · simp only [QueryBuilder.nextRecords, earlierRan, recordRead, bind, Except.bind]
          rw [take_padded_succ, List.getElem?_drop, allRecords, List.getElem?_map,
            List.getElem?_eq_none beyond]
          rfl
        · rw [← Nat.add_assoc, Nat.min_eq_right (Nat.le_succ_of_le beyond)]
          exact nextReads

private theorem Streamable.streamsAllLines {memory : Nat → Bytes}
    (sized : ∀ i, 0 < (memory i).length)
    (some : files ≠ []) (streamable : Streamable files) : StreamsAllLines memory files := by
  have atFirst : files[0]? = Option.some (files.head some) := by
    rw [← List.head?_eq_getElem?, List.head?_eq_some_head some]
  obtain ⟨start, created, reads, _⟩ :=
    create_readsFrom Builders.symbolic Segment.fresh sized (isBoundary_start atFirst)
  refine ⟨start, created, fun calls => ?_⟩
  obtain ⟨next, ran, _, last⟩ := reads.nextRecords streamable calls
  rw [Nat.zero_add] at last
  exact ⟨next, ran, fun beyond => last beyond (Nat.zero_lt_of_lt beyond)⟩

/-! ### Files that do not -/

theorem handle_ok {reader : BufferedReader} (handled : builder.handle = .ok reader) :
    builder.csvHandles[builder.handleIdx.toNat]? = some reader := by
  unfold handle at handled
  split at handled
  · cases handled
    assumption
  · contradiction

private theorem readFields_length {floatMask : UInt16} {i : Nat} {names : List Bytes}
    {reader after : BufferedReader} {rec : Record}
    (fieldsRead : readFields runtime floatMask i names reader = .ok (rec, after)) :
    rec.length = names.length := by
  induction names generalizing i reader rec with
  | nil =>
      cases fieldsRead
      rfl
  | cons name names ih =>
      simp only [readFields, bind, Except.bind] at fieldsRead
      split at fieldsRead
      · contradiction
      · split at fieldsRead
        · contradiction
        · split at fieldsRead
          · contradiction
          · rename_i others othersRead
            cases fieldsRead
            rw [List.length_cons, List.length_cons, ih othersRead]

theorem readRecord_cases {rec : Record}
    (recordRead : readRecord runtime builder = .ok (rec, next)) :
    ∃ reader after, builder.handle = .ok reader ∧
      readFields runtime builder.schema.floatMask 0 builder.schema.fieldNames reader =
        .ok (rec, after) ∧
      next = builder.setHandle after := by
  simp only [readRecord, bind, Except.bind] at recordRead
  split at recordRead
  · contradiction
  · rename_i reader handled
    split at recordRead
    · contradiction
    · rename_i fields fieldsRead
      cases recordRead
      exact ⟨reader, fields.2, handled, fieldsRead, rfl⟩

/-- All that a call of `next_record` can do. The reader it leaves in the
current file is one that `peek` has been asked for. -/
theorem nextRecord_cases {rec : Record} (ran : nextRecord runtime builder = .ok (rec, next)) :
    ∃ reader byte peeked, builder.handle = .ok reader ∧ reader.peek = .ok (byte, peeked) ∧
      ((byte ≠ eof ∧ readRecord runtime (builder.setHandle peeked) = .ok (rec, next)) ∨
        (byte = eof ∧ (builder.handleIdx + 1).toNat = builder.csvHandles.length ∧
          rec = [] ∧ next = builder.setHandle peeked) ∨
        (byte = eof ∧ (builder.handleIdx + 1).toNat ≠ builder.csvHandles.length ∧
          readRecord runtime
            { builder.setHandle peeked with handleIdx := builder.handleIdx + 1 } =
              .ok (rec, next))) := by
  cases handled : builder.handle with
  | error fault =>
      rw [nextRecord, handled] at ran
      cases ran
  | ok reader =>
      cases peeked : reader.peek with
      | error fault =>
          simp only [nextRecord, handled, peeked, bind, Except.bind] at ran
          cases ran
      | ok answer =>
          rcases answer with ⟨byte, after⟩
          refine ⟨reader, byte, after, rfl, peeked, ?_⟩
          rw [nextRecord_eq handled peeked] at ran
          split at ran
          · rename_i isEof
            split at ran
            · rename_i isLast
              cases ran
              exact Or.inr (Or.inl ⟨isEof, isLast, rfl, rfl⟩)
            · rename_i notLast
              exact Or.inr (Or.inr ⟨isEof, notLast, ran⟩)
          · rename_i notEof
            exact Or.inl ⟨notEof, ran⟩

theorem nextRecord_empty (columns : builder.schema.fieldNames ≠ [])
    (ran : nextRecord runtime builder = .ok ([], next)) :
    ∃ reader peeked, builder.handle = .ok reader ∧ reader.peek = .ok (eof, peeked) ∧
      (builder.handleIdx + 1).toNat = builder.csvHandles.length ∧
      next = builder.setHandle peeked := by
  obtain ⟨reader, byte, peeked, handled, peekedIs, outcome⟩ := nextRecord_cases ran
  have noRecord {between : QueryBuilder σ} (same : between.schema = builder.schema)
      (recordRead : readRecord runtime between = .ok ([], next)) : False := by
    obtain ⟨_, _, _, fieldsRead, _⟩ := readRecord_cases recordRead
    have width := readFields_length fieldsRead
    rw [same] at width
    exact columns (List.length_eq_zero_iff.mp width.symm)
  rcases outcome with ⟨_, recordRead⟩ | ⟨rfl, isLast, _, nextIs⟩ | ⟨_, _, recordRead⟩
  · exact absurd recordRead (noRecord rfl)
  · exact ⟨reader, peeked, handled, peekedIs, isLast, nextIs⟩
  · exact absurd recordRead (noRecord rfl)

theorem nextRecord_empty_few (columns : builder.schema.fieldNames ≠ [])
    (ran : nextRecord runtime builder = .ok ([], next)) : builder.csvHandles.length ≤ 255 := by
  obtain ⟨_, _, _, _, isLast, _⟩ := nextRecord_empty columns ran
  have small := (builder.handleIdx + 1).toNat_lt
  omega

/-- The fewest records that can come out before the end of these files is
seen: their lines, and one for each empty file that is moved on to. -/
def fewest : List (Csv runtime schema) → Nat
  | [] => 0
  | first :: others => first.length + (others.map fun later => max 1 later.length).sum

private theorem fewest_snoc (earlier : List (Csv runtime schema)) (some : earlier ≠ [])
    (later : Csv runtime schema) :
    fewest (earlier ++ [later]) = fewest earlier + max 1 later.length := by
  cases earlier with
  | nil => exact absurd rfl some
  | cons first others =>
      simp only [List.cons_append, fewest, List.map_append, List.sum_append, List.map_cons,
        List.map_nil, List.sum_cons, List.sum_nil]
      omega

private theorem fewest_take (current : files[h + 1]? = some file) :
    fewest (files.take (h + 1 + 1)) = fewest (files.take (h + 1)) + max 1 file.length := by
  rw [List.take_add_one, current, Option.toList_some]
  apply fewest_snoc
  intro none
  have inside := (List.getElem?_eq_some_iff.mp current).1
  have lengths := congrArg List.length none
  rw [List.length_take, List.length_nil] at lengths
  omega

private theorem flatten_length_lt_fewest (hasEmpty : ∃ later ∈ files.tail, later = []) :
    files.flatten.length < fewest files := by
  have atLeast (others : List (Csv runtime schema)) :
      others.flatten.length ≤ (others.map fun later => max 1 later.length).sum ∧
        ((∃ later ∈ others, later = []) →
          others.flatten.length < (others.map fun later => max 1 later.length).sum) := by
    induction others with
    | nil => simp
    | cons later others ih =>
        obtain ⟨le, lt⟩ := ih
        simp only [List.flatten_cons, List.length_append, List.map_cons, List.sum_cons]
        refine ⟨by omega, ?_⟩
        rintro ⟨empty, member, isEmpty⟩
        rcases List.mem_cons.mp member with same | further
        · rw [← same, isEmpty]
          simp only [List.length_nil]
          omega
        · have strict := lt ⟨empty, further, isEmpty⟩
          omega
  cases files with
  | nil => simp at hasEmpty
  | cons first others =>
      have strict := (atLeast others).2 hasEmpty
      simp only [List.flatten_cons, List.length_append, fewest]
      omega

/-- So many records have come out that the current file, if the builder still
reads its lines, can make up for the rest of what is due behind it. Once the
builder has read over the end of a file its position there says nothing. -/
def Due (files : List (Csv runtime schema)) (builder : QueryBuilder σ) (came : Nat) : Prop :=
  ∃ h, (∃ file k, Positioned files builder h file k ∧
      fewest (files.take (h + 1)) ≤ came + (file.length - k)) ∨
    (InFile files builder h ∧ fewest (files.take (h + 1)) ≤ came)

private theorem Positioned.due_readRecord {later : Csv runtime schema} {came : Nat} {rec : Record}
    (positioned : Positioned files builder (h + 1) later 0)
    (due : fewest (files.take (h + 1)) ≤ came)
    (ran : QueryBuilder.readRecord runtime builder = .ok (rec, next)) :
    Due files next (came + 1) := by
  have weight := fewest_take positioned.current
  cases laterIs : later with
  | nil =>
      obtain ⟨_, after, _, _, rfl⟩ := readRecord_cases ran
      refine ⟨h + 1, Or.inr ⟨positioned.toInFile.setHandle after, ?_⟩⟩
      rw [laterIs, List.length_nil] at weight
      omega
  | cons line lines =>
      rw [laterIs] at positioned
      obtain ⟨after, recordRead, afterPositioned, _⟩ :=
        positioned.readRecord (show (line :: lines)[0]? = some line from rfl)
      rw [ran] at recordRead
      cases recordRead
      refine ⟨h + 1, Or.inl ⟨line :: lines, 1, afterPositioned, ?_⟩⟩
      rw [laterIs, List.length_cons] at weight
      rw [List.length_cons]
      omega

private theorem InFile.due_advance {came : Nat} {rec : Record} (inFile : InFile files builder h)
    (few : files.length ≤ 255) (due : fewest (files.take (h + 1)) ≤ came)
    (notLast : (builder.handleIdx + 1).toNat ≠ builder.csvHandles.length)
    (ran : QueryBuilder.readRecord runtime
      { builder with handleIdx := builder.handleIdx + 1 } = .ok (rec, next)) :
    Due files next (came + 1) := by
  have inside := inFile.inside
  rw [UInt8.toNat_add, inFile.index, inFile.count] at notLast
  change (h + 1) % 256 ≠ files.length at notLast
  have more : h + 1 < files.length := by omega
  exact (inFile.advance few (List.getElem?_eq_getElem more)).due_readRecord due ran

theorem Due.step {came : Nat} {rec : Record} (few : files.length ≤ 255)
    (due : Due files builder came) (filled : rec ≠ [])
    (ran : nextRecord runtime builder = .ok (rec, next)) : Due files next (came + 1) := by
  obtain ⟨h, ⟨file, k, positioned, due⟩ | ⟨inFile, due⟩⟩ := due
  · rcases Nat.lt_or_eq_of_le positioned.line with inside | atEnd
    · obtain ⟨after, recordRead, afterPositioned, _⟩ :=
        positioned.nextRecord_line (List.getElem?_eq_getElem inside)
      rw [ran] at recordRead
      cases recordRead
      exact ⟨h, Or.inl ⟨file, k + 1, afterPositioned, by omega⟩⟩
    · obtain ⟨reader, byte, peeked, handled, peekedIs, peekedPositioned, isEnd⟩ := positioned.peek
      obtain ⟨_, _, _, handled', peekedIs', outcome⟩ := nextRecord_cases ran
      rw [handled] at handled'
      cases handled'
      rw [peekedIs] at peekedIs'
      cases peekedIs'
      rcases outcome with ⟨notEof, _⟩ | ⟨_, _, none, _⟩ | ⟨_, notLast, recordRead⟩
      · exact absurd (isEnd.mpr atEnd) notEof
      · exact absurd none filled
      · apply peekedPositioned.toInFile.due_advance few (by omega) ?_ recordRead
        rw [QueryBuilder.length_setHandle]
        exact notLast
  · obtain ⟨_, _, peeked, _, _, outcome⟩ := nextRecord_cases ran
    have peekedIn := inFile.setHandle peeked
    rcases outcome with ⟨_, recordRead⟩ | ⟨_, _, none, _⟩ | ⟨_, notLast, recordRead⟩
    · obtain ⟨_, after, _, _, rfl⟩ := readRecord_cases recordRead
      exact ⟨h, Or.inr ⟨peekedIn.setHandle after, by omega⟩⟩
    · exact absurd none filled
    · apply peekedIn.due_advance few due ?_ recordRead
      rw [QueryBuilder.length_setHandle]
      exact notLast

theorem Due.finish {came : Nat} (few : files.length ≤ 255) (columns : schema.fieldNames ≠ [])
    (due : Due files builder came) (ran : nextRecord runtime builder = .ok ([], next)) :
    fewest files ≤ came := by
  have atLast {h : Nat} (inFile : InFile files builder h) :
      (∃ reader peeked, builder.handle = .ok reader ∧ reader.peek = .ok (eof, peeked)) ∧
        files.take (h + 1) = files := by
    obtain ⟨reader, peeked, handled, peekedIs, isLast, _⟩ :=
      nextRecord_empty (inFile.schema ▸ columns) ran
    have inside := inFile.inside
    rw [UInt8.toNat_add, inFile.index, inFile.count] at isLast
    change (h + 1) % 256 = files.length at isLast
    exact ⟨⟨reader, peeked, handled, peekedIs⟩, List.take_of_length_le (by omega)⟩
  obtain ⟨h, ⟨file, k, positioned, due⟩ | ⟨inFile, due⟩⟩ := due
  · obtain ⟨⟨reader, peeked, handled, peekedIs⟩, all⟩ := atLast positioned.toInFile
    obtain ⟨_, _, _, handled', peekedIs', _, isEnd⟩ := positioned.peek
    rw [handled] at handled'
    cases handled'
    rw [peekedIs] at peekedIs'
    cases peekedIs'
    have atEnd := isEnd.mp rfl
    rw [all] at due
    omega
  · rw [(atLast inFile).2] at due
    exact due

theorem Due.nextRecords {start : QueryBuilder σ} (few : files.length ≤ 255)
    (due : Due files start 0) (calls : Nat) {records : List Record}
    (filled : ∀ rec ∈ records, rec ≠ [])
    (ran : QueryBuilder.nextRecords runtime calls start = .ok (records, next)) :
    Due files next calls := by
  induction calls generalizing records next with
  | zero =>
      cases ran
      exact due
  | succ calls ih =>
      obtain ⟨earlier, between, rec, earlierRan, recordRead, rfl⟩ := nextRecords_succ ran
      have betweenDue := ih
        (fun other member => filled other (List.mem_append_left _ member)) earlierRan
      exact betweenDue.step few
        (filled rec (List.mem_append_right _ List.mem_cons_self)) recordRead

theorem nextRecord_frame {rec : Record} (ran : nextRecord runtime builder = .ok (rec, next)) :
    next.schema = builder.schema ∧ next.csvHandles.length = builder.csvHandles.length := by
  obtain ⟨_, _, peeked, _, _, outcome⟩ := nextRecord_cases ran
  rcases outcome with ⟨_, fieldsRead⟩ | ⟨_, _, _, rfl⟩ | ⟨_, _, fieldsRead⟩
  · obtain ⟨_, after, _, _, rfl⟩ := readRecord_cases fieldsRead
    exact ⟨rfl, (length_setHandle _ _).trans (length_setHandle _ _)⟩
  · exact ⟨rfl, length_setHandle _ _⟩
  · obtain ⟨_, after, _, _, rfl⟩ := readRecord_cases fieldsRead
    exact ⟨rfl, (length_setHandle _ _).trans (length_setHandle _ _)⟩

private theorem nextRecords_frame {calls : Nat} {start : QueryBuilder σ} {records : List Record}
    (ran : nextRecords runtime calls start = .ok (records, next)) :
    next.schema = start.schema ∧ next.csvHandles.length = start.csvHandles.length := by
  induction calls generalizing records next with
  | zero =>
      cases ran
      exact ⟨rfl, rfl⟩
  | succ calls ih =>
      obtain ⟨earlier, between, rec, earlierRan, recordRead, rfl⟩ := nextRecords_succ ran
      obtain ⟨schemaSame, countSame⟩ := ih earlierRan
      rw [← schemaSame, ← countSame]
      exact nextRecord_frame recordRead

theorem StreamsAllLines.streamable {memory : Nat → Bytes} (sized : ∀ i, 0 < (memory i).length)
    (columns : schema.fieldNames ≠ []) (some : files ≠ [])
    (streams : StreamsAllLines memory files) : Streamable files := by
  obtain ⟨start, created, ran⟩ := streams
  obtain ⟨first, others, filesAre⟩ := List.exists_cons_of_ne_nil some
  have atFirst : files[0]? = Option.some first := by
    rw [filesAre]
    rfl
  obtain ⟨_, created', positioned, _⟩ :=
    create_positioned Builders.symbolic Segment.fresh sized atFirst
      (Nat.zero_le _) (Csv.boundary_zero first).symm
  rw [created] at created'
  cases created'
  obtain ⟨last, lastRan, _⟩ := ran ((allRecords files).length + 1)
  obtain ⟨earlier, between, rec, earlierRan, recordRead, recordsAre⟩ := nextRecords_succ lastRan
  rw [List.take_append, List.take_of_length_le (Nat.le_succ _), Nat.add_sub_cancel_left,
    List.take_replicate] at recordsAre
  obtain ⟨rfl, recIs⟩ := List.append_inj' recordsAre rfl
  cases recIs
  obtain ⟨schemaSame, countSame⟩ := nextRecords_frame earlierRan
  have few : files.length ≤ 255 := by
    rw [← positioned.count, ← countSame]
    apply nextRecord_empty_few ?_ recordRead
    rw [schemaSame, positioned.schema]
    exact columns
  refine ⟨few, fun later member isEmpty => ?_⟩
  have due : Due files start 0 := by
    refine ⟨0, Or.inl ⟨first, 0, positioned, ?_⟩⟩
    rw [filesAre]
    simp [fewest]
  have filled : ∀ rec ∈ allRecords files, rec ≠ [] := by
    intro rec member
    obtain ⟨line, _, rfl⟩ := List.mem_map.mp member
    exact line.record_ne_nil
  have came := (due.nextRecords few _ filled earlierRan).finish few columns recordRead
  have strict := flatten_length_lt_fewest ⟨later, member, isEmpty⟩
  rw [allRecords_length] at came
  omega

/-! ### The law -/

/-- The calls run over all files, whatever the buffers hold, exactly when the
files are at most 255 and none but the first is empty. -/
theorem nextRecord_streamsAllLines_iff (columns : schema.fieldNames ≠ [])
    (files : List (Csv runtime schema)) (some : files ≠ []) (memory : Nat → Bytes)
    (sized : ∀ i, 0 < (memory i).length) :
    StreamsAllLines memory files ↔ Streamable files :=
  ⟨fun streams => streams.streamable sized columns some,
    fun streamable => streamable.streamsAllLines sized some⟩

/-- Two files, the first of them empty. -/
theorem nextRecord_streamsAllLines_emptyFirst :
    StreamsAllLines (fun _ => List.replicate 4 0) [[], [sampleLine 97 49 48 (by decide) (by decide)]] ↔
      Streamable [[], [sampleLine 97 49 48 (by decide) (by decide)]] :=
  nextRecord_streamsAllLines_iff (by decide) _ (by simp) _ (by simp)

/-- An empty file between two others breaks the stream. -/
theorem nextRecord_not_streamsAllLines_emptyBetween :
    ¬ StreamsAllLines (fun _ => List.replicate 4 0)
      [[sampleLine 97 49 48 (by decide) (by decide)], [],
        [sampleLine 98 49 48 (by decide) (by decide)]] := by
  intro streams
  have streamable := streams.streamable (by simp) (by decide) (by simp)
  exact streamable.2 [] (by simp) rfl

end ChangeSql.QueryBuilder
