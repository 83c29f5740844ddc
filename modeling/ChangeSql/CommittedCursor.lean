/-
The cursor that survives.

One position in the list of records has two cursors where a file ends: its end
and the start of the next file. The builder only ever has the first of them,
since it moves on to a file by reading a line of it. So the order of the
committed cursors is the order of the positions they stand for, over all kills
and restarts.
-/

import ChangeSql.Calls
import ChangeSql.MultiFile
import Mathlib.Data.Prod.Lex

namespace ChangeSql

open QueryBuilder (ReadsFrom IsBoundary)

/-! ### The order of cursors -/

def lexicographic (cursor : UInt8 × Nat) : ℕ ×ₗ ℕ :=
  toLex (cursor.1.toNat, cursor.2)

section

variable {runtime : Runtime} {schema : Schema} {files : List (Csv runtime schema)}

private theorem Csv.boundary_mono (file : Csv runtime schema) {k later : Nat} (le : k ≤ later) :
    boundary file k ≤ boundary file later := by
  obtain ⟨more, rfl⟩ := Nat.exists_eq_add_of_le le
  unfold boundary bytes
  rw [List.take_add, List.flatMap_append, List.length_append]
  exact Nat.le_add_right _ _

private theorem flatten_take_length_mono {h later : Nat} (le : h ≤ later) :
    (files.take h).flatten.length ≤ (files.take later).flatten.length := by
  obtain ⟨more, rfl⟩ := Nat.exists_eq_add_of_le le
  rw [List.take_add, List.flatten_append, List.length_append]
  exact Nat.le_add_right _ _

/-- Cursors stand in the order of their positions, unless the first is the
start of a file that the second has in front of it. -/
theorem QueryBuilder.IsBoundary.toLex_le {h later offset further g g' : Nat}
    (first : IsBoundary files h offset g) (second : IsBoundary files later further g')
    (canonical : h = 0 ∨ offset ≠ 0) (le : g ≤ g') :
    toLex (h, offset) ≤ toLex (later, further) := by
  rcases first with ⟨file, k, current, line, rfl, rfl⟩
  rcases second with ⟨file', k', current', line', rfl, rfl⟩
  rw [Prod.Lex.toLex_le_toLex]
  rcases Nat.lt_trichotomy h later with before | rfl | behind
  · exact Or.inl before
  · rw [current] at current'
    cases current'
    exact Or.inr ⟨rfl, file.boundary_mono (by omega)⟩
  · exfalso
    have passed : (files.take (later + 1)).flatten.length ≤ (files.take h).flatten.length :=
      flatten_take_length_mono behind
    rw [List.take_add_one, current', Option.toList_some, List.flatten_append, List.length_append,
      List.flatten_singleton] at passed
    have start : k = 0 := by omega
    rw [start] at canonical
    rcases canonical with isFirst | moved
    · omega
    · exact moved (Csv.boundary_zero file)

end

/-! ### Where a builder never stands -/

namespace QueryBuilder

variable {σ : Type} {runtime : Runtime} {builder next : QueryBuilder σ}

/-- None of the cursors of the builder is the start of a file behind the first. -/
structure Canonical (builder : QueryBuilder σ) : Prop where
  reading : builder.handleIdx = 0 ∨ ∀ reader, builder.handle = .ok reader → reader.offset ≠ 0
  deferred : builder.tmpHandleIdx = 0 ∨ builder.tmpOffset ≠ 0
  committed : builder.segment.committedHandleIdx = 0 ∨ builder.segment.committedOffset ≠ 0

private theorem setHandle_handle {reader other : BufferedReader}
    (handled : builder.handle = .ok reader) : (builder.setHandle other).handle = .ok other := by
  have inside := (List.getElem?_eq_some_iff.mp (handle_ok handled)).1
  unfold handle setHandle
  rw [List.getElem?_set_self inside]

private theorem readFields_offset {floatMask : UInt16} {i : Nat} {names : List Bytes}
    {reader after : BufferedReader} {rec : Record}
    (fieldsRead : readFields runtime floatMask i names reader = .ok (rec, after)) :
    reader.offset ≤ after.offset ∧ (names ≠ [] → reader.offset < after.offset) := by
  induction names generalizing i reader rec with
  | nil =>
      cases fieldsRead
      exact ⟨Nat.le_refl _, fun some => absurd rfl some⟩
  | cons name names ih =>
      simp only [readFields, bind, Except.bind] at fieldsRead
      split at fieldsRead
      · contradiction
      · rename_i field got
        split at fieldsRead
        · contradiction
        · split at fieldsRead
          · contradiction
          · rename_i others othersRead
            cases fieldsRead
            have first := BufferedReader.getValue_offset got
            have rest := (ih othersRead).1
            exact ⟨by omega, fun _ => by omega⟩

private theorem readRecord_canonical {rec : Record}
    (recordRead : readRecord runtime builder = .ok (rec, next))
    (columns : builder.schema.fieldNames ≠ [])
    (deferred : builder.tmpHandleIdx = 0 ∨ builder.tmpOffset ≠ 0)
    (committed : builder.segment.committedHandleIdx = 0 ∨ builder.segment.committedOffset ≠ 0) :
    Canonical next := by
  rcases readRecord_cases recordRead with ⟨reader, after, handled, fieldsRead, rfl⟩
  have moved := (readFields_offset fieldsRead).2 columns
  constructor
  · apply Or.inr
    intro other otherHandled
    rw [setHandle_handle handled] at otherHandled
    cases otherHandled
    omega
  · exact deferred
  · exact committed

private theorem nextRecord_canonical (columns : builder.schema.fieldNames ≠ []) {rec : Record}
    (canonical : Canonical builder) (ran : nextRecord runtime builder = .ok (rec, next)) :
    Canonical next := by
  rcases nextRecord_cases ran with ⟨reader, byte, peeked, handled, peekedIs, outcome⟩
  rcases outcome with ⟨_, recordRead⟩ | ⟨_, _, _, rfl⟩ | ⟨_, _, recordRead⟩
  · exact readRecord_canonical recordRead columns canonical.deferred canonical.committed
  · refine ⟨canonical.reading.imp_right ?_, canonical.deferred, canonical.committed⟩
    intro moved other otherHandled
    rw [setHandle_handle handled] at otherHandled
    cases otherHandled
    rw [BufferedReader.peek_offset peekedIs]
    exact moved reader handled
  · exact readRecord_canonical recordRead columns canonical.deferred canonical.committed

private theorem collect_canonical {room : Nat} {earlier : List Record}
    {outcome : Option (List Record)}
    (columns : builder.schema.fieldNames ≠ []) (canonical : Canonical builder)
    (collected : collect runtime room earlier builder = .ok (outcome, next)) : Canonical next := by
  induction room generalizing earlier builder with
  | zero =>
      cases collected
      exact canonical
  | succ room ih =>
      rcases collect_cases collected with
        ⟨reader, rec, after, handled, recordRead, ⟨_, _, rfl⟩ | ⟨_, rfl⟩ | others⟩
      · exact nextRecord_canonical columns canonical recordRead
      · -- the saved cursor is the one from before the record was read
        have afterCanonical := nextRecord_canonical columns canonical recordRead
        have saved : builder.handleIdx = 0 ∨ reader.offset ≠ 0 :=
          canonical.reading.imp_right fun moved => moved reader handled
        exact ⟨afterCanonical.reading, saved, afterCanonical.committed⟩
      · have afterCanonical := nextRecord_canonical columns canonical recordRead
        apply ih ?_ ?_ others
        · change after.schema.fieldNames ≠ []
          rw [(nextRecord_frame recordRead).1]
          exact columns
        · exact ⟨afterCanonical.reading, afterCanonical.deferred, afterCanonical.committed⟩

theorem Canonical.updateTmp (builders : Builders σ) (canonical : Canonical builder) :
    Canonical (updateTmp builders builder).2 :=
  ⟨canonical.reading, canonical.deferred, canonical.committed⟩

private theorem nextQuery_canonical {builders : Builders σ} {statement : σ}
    (columns : builder.schema.fieldNames ≠ []) (canonical : Canonical builder)
    (called : nextQuery builders runtime builder = .ok (statement, next)) : Canonical next := by
  rcases nextQuery_cases called with
    ⟨_, _, rfl⟩ | ⟨_, _, updated⟩ | ⟨_, _, outcome, after, collected, loopLeft⟩
  · exact ⟨canonical.reading, canonical.deferred, canonical.committed⟩
  · cases updated
    exact canonical.updateTmp builders
  · have afterCanonical := collect_canonical columns canonical collected
    cases outcome with
    | none =>
        cases loopLeft
        exact afterCanonical
    | some records =>
        cases records with
        | nil =>
            cases loopLeft
            exact afterCanonical.updateTmp builders
        | cons rec records =>
            cases loopLeft
            exact afterCanonical

private theorem commit_canonical {builders : Builders σ} (canonical : Canonical builder)
    (committed : builder.commit builders = .ok next) : Canonical next := by
  unfold commit commitStores at committed
  cases awaiting : builders.isEmpty builder.insertIfNotExistsStmt with
  | false =>
      rw [awaiting] at committed
      cases committed
      exact ⟨canonical.reading, canonical.deferred, canonical.committed⟩
  | true =>
      rw [awaiting] at committed
      cases noRecord : builder.tmpRecord.isEmpty with
      | false =>
          rw [noRecord] at committed
          cases committed
          exact ⟨canonical.reading, canonical.deferred, canonical.deferred⟩
      | true =>
          rw [noRecord] at committed
          cases handled : builder.handle with
          | error fault =>
              rw [handled] at committed
              cases committed
          | ok reader =>
              rw [handled] at committed
              cases committed
              refine ⟨canonical.reading, canonical.deferred, canonical.reading.imp_right ?_⟩
              intro moved
              exact moved reader handled

private theorem create_canonical {builders : Builders σ} {schema : Schema} {segment : Segment}
    {memory : Nat → Bytes} {contents : List Bytes}
    (committed : segment.committedHandleIdx = 0 ∨ segment.committedOffset ≠ 0)
    (created : create builders schema segment memory contents = .ok builder) :
    Canonical builder := by
  simp only [create, bind, Except.bind] at created
  split at created
  · contradiction
  · rename_i reader handled
    cases created
    refine ⟨committed.imp_right ?_, Or.inl rfl, committed⟩
    intro moved other otherHandled
    rw [setHandle_handle handled] at otherHandled
    cases otherHandled
    exact moved

end QueryBuilder

/-! ### Runs over kills and restarts -/

/-- The builder that is alive after some calls, kills and restarts, and the
cursors that the commits have left, the newest first. A process that is killed
between two calls leaves its segment to the next one. -/
inductive History {runtime : Runtime} {schema : Schema} (files : List (Csv runtime schema)) :
    QueryBuilder Bytes → List (UInt8 × Nat) → Prop where
  | start {memory : Nat → Bytes} {opened : QueryBuilder Bytes}
      (sized : ∀ i, 0 < (memory i).length)
      (created : QueryBuilder.create (Builders.texts schema) schema Segment.fresh memory
        (files.map Csv.bytes) = .ok opened) :
      History files opened []
  | nextQuery {builder next : QueryBuilder Bytes} {committed : List (UInt8 × Nat)} {text : Bytes}
      (earlier : History files builder committed)
      (called : builder.nextQuery (Builders.texts schema) runtime = .ok (text, next)) :
      History files next committed
  | commit {builder next : QueryBuilder Bytes} {committed : List (UInt8 × Nat)}
      (earlier : History files builder committed)
      (called : builder.commit (Builders.texts schema) = .ok next) :
      History files next (next.segment.cursor :: committed)
  | restart {builder opened : QueryBuilder Bytes} {committed : List (UInt8 × Nat)}
      {memory : Nat → Bytes} (earlier : History files builder committed)
      (sized : ∀ i, 0 < (memory i).length)
      (created : QueryBuilder.create (Builders.texts schema) schema builder.segment memory
        (files.map Csv.bytes) = .ok opened) :
      History files opened committed

section

variable {runtime : Runtime} {schema : Schema} {files : List (Csv runtime schema)}
  {builder next : QueryBuilder Bytes} {emitter after : Emitter} {committed : List (UInt8 × Nat)}
  {c : Nat}

theorem Emitter.Emits.handed_le {statement : Statement}
    (emits : Emitter.EmitsOver files emitter statement after)
    (valid : emitter.Valid (allRecords files)) : emitter.handed ≤ after.handed := by
  by_cases last : statement = .empty
  · subst last
    cases emits with
    | exhausted batch pending tmp upcoming allNew size =>
        rw [handed_of_tmp_none tmp]
        change emitter.pos ≤ emitter.pos + batch.length - emitter.tmp.toList.length
        rw [tmp]
        exact Nat.le_add_right _ _
  · have carries := congrArg List.length (emits.carries valid last)
    rw [List.length_append, List.length_take_of_le (emits.valid valid).handed_le,
      List.length_take_of_le valid.handed_le] at carries
    omega

structure Standing (files : List (Csv runtime schema)) (builder : QueryBuilder Bytes)
    (emitter : Emitter) (committed : List (UInt8 × Nat)) (c : Nat) : Prop where
  simulates : Simulates files (Builders.texts schema) builder emitter
  canonical : builder.Canonical
  cursor : IsBoundary files builder.segment.committedHandleIdx.toNat
    builder.segment.committedOffset c
  reached : c ≤ emitter.handed
  grown : ∀ earlier ∈ committed, lexicographic earlier ≤ lexicographic builder.segment.cursor

theorem Standing.columns (standing : Standing files builder emitter committed c)
    (readable : Readable files) : builder.schema.fieldNames ≠ [] := by
  rcases standing.simulates.reads with ⟨h, file, k, positioned, _⟩
  rw [positioned.schema]
  exact readable.columns positioned.current

theorem Standing.nextQuery (standing : Standing files builder emitter committed c)
    (readable : Readable files) :
    ∃ text next,
      builder.nextQuery (Builders.texts schema) runtime = .ok (text, next) ∧
      Standing files next (emitter.emit files).2 committed c := by
  have lawful := Builders.texts_lawful schema
  rcases nextQuery_simulates readable lawful standing.simulates with
    ⟨next, called, simulates, segmentIs⟩
  have forward := (emitter.emit_emits files).handed_le standing.simulates.valid
  refine ⟨_, next, called, ?_⟩
  constructor
  · exact simulates
  · exact QueryBuilder.nextQuery_canonical (standing.columns readable) standing.canonical called
  · rw [segmentIs]
    exact standing.cursor
  · exact Nat.le_trans standing.reached forward
  · rw [segmentIs]
    exact standing.grown

theorem Standing.commit (standing : Standing files builder emitter committed c) :
    ∃ next c', builder.commit (Builders.texts schema) = .ok next ∧
      Standing files next emitter (next.segment.cursor :: committed) c' ∧
      (emitter.pending = none → c' = emitter.handed ∧ ∃ segment, next = { builder with segment }) := by
  have lawful := Builders.texts_lawful schema
  cases pending : emitter.pending with
  | some rec =>
      have called := commit_awaited standing.simulates lawful pending
      refine ⟨builder, c, called, ?_, nofun⟩
      constructor
      · exact standing.simulates
      · exact standing.canonical
      · exact standing.cursor
      · exact standing.reached
      · intro earlier member
        rcases List.mem_cons.mp member with rfl | older
        · exact le_refl _
        · exact standing.grown earlier older
  | none =>
      rcases commit_handed standing.simulates lawful pending with
        ⟨segment, called, inserted, boundary⟩
      have forward : lexicographic builder.segment.cursor ≤ lexicographic segment.cursor := by
        apply standing.cursor.toLex_le boundary ?_ standing.reached
        apply standing.canonical.committed.imp_left
        intro isFirst
        rw [isFirst]
        rfl
      refine ⟨_, emitter.handed, called, ?_, fun _ => ⟨rfl, segment, rfl⟩⟩
      constructor
      · exact standing.simulates.congr inserted
      · exact QueryBuilder.commit_canonical standing.canonical called
      · exact boundary
      · exact Nat.le_refl _
      · intro earlier member
        rcases List.mem_cons.mp member with rfl | older
        · exact le_refl _
        · exact le_trans (standing.grown earlier older) forward

private theorem Standing.restart (standing : Standing files builder emitter committed c)
    {memory : Nat → Bytes} (sized : ∀ i, 0 < (memory i).length) :
    ∃ opened,
      QueryBuilder.create (Builders.texts schema) schema builder.segment memory
        (files.map Csv.bytes) = .ok opened ∧
      Standing files opened (Emitter.start c builder.segment.inserted) committed c := by
  rcases create_simulates (Builders.texts schema) builder.segment sized standing.cursor with
    ⟨opened, created, simulates, segmentIs⟩
  refine ⟨opened, created, ?_⟩
  constructor
  · exact simulates
  · exact QueryBuilder.create_canonical standing.canonical.committed created
  · rw [segmentIs]
    exact standing.cursor
  · exact Nat.le_refl c
  · rw [segmentIs]
    exact standing.grown

private theorem History.standing (readable : Readable files)
    (history : History files builder committed) :
    ∃ emitter c, Standing files builder emitter committed c := by
  induction history with
  | start sized created =>
      rename_i memory opened
      cases filesAre : files with
      | nil =>
          subst filesAre
          cases created
      | cons first others =>
          have atFirst : files[0]? = some first := by
            rw [filesAre]
            rfl
          rw [← filesAre]
          have boundary := QueryBuilder.isBoundary_start atFirst
          rcases create_simulates (Builders.texts schema) Segment.fresh sized boundary with
            ⟨other, otherCreated, simulates, segmentIs⟩
          rw [created] at otherCreated
          cases otherCreated
          refine ⟨_, 0, simulates, ?_, ?_, Nat.zero_le _, nofun⟩
          · exact QueryBuilder.create_canonical (Or.inl rfl) created
          · rw [segmentIs]
            exact boundary
  | nextQuery earlier called ih =>
      rcases ih with ⟨emitter, c, standing⟩
      rcases standing.nextQuery readable with ⟨text, other, otherCalled, otherStanding⟩
      rw [called] at otherCalled
      cases otherCalled
      exact ⟨_, c, otherStanding⟩
  | commit earlier called ih =>
      rcases ih with ⟨emitter, c, standing⟩
      rcases standing.commit with ⟨other, c', otherCalled, otherStanding, _⟩
      rw [called] at otherCalled
      cases otherCalled
      exact ⟨emitter, c', otherStanding⟩
  | restart earlier sized created ih =>
      rcases ih with ⟨emitter, c, standing⟩
      rcases standing.restart sized with ⟨other, otherCreated, otherStanding⟩
      rw [created] at otherCreated
      cases otherCreated
      exact ⟨_, c, otherStanding⟩

/-! ### What a new builder goes on with -/

private theorem Emitter.Valid.drop_handed {records : List Record} (valid : emitter.Valid records) :
    records.drop emitter.handed = emitter.tmp.toList ++ records.drop emitter.pos := by
  cases tmp : emitter.tmp with
  | none =>
      rw [handed_of_tmp_none tmp]
      rfl
  | some rec =>
      rcases valid.handed_of_tmp tmp with ⟨posIs, atHanded⟩
      rw [List.drop_eq_getElem?_toList_append, atHanded, posIs]

/-- The two builders deliver the same records, the deferred one apart. -/
theorem QueryBuilder.ReadsFrom.nextRecords_deferred {σ : Type} {front behind : QueryBuilder σ} {g pos : Nat}
    {first : List Record} (readable : Readable files) (frontReads : ReadsFrom files front g)
    (behindReads : ReadsFrom files behind pos)
    (upcoming : (allRecords files).drop g = first ++ (allRecords files).drop pos) (calls : Nat) :
    ∃ records next last,
      QueryBuilder.nextRecords runtime calls behind = .ok (records, next) ∧
      QueryBuilder.nextRecords runtime (first.length + calls) front =
        .ok (first ++ records, last) := by
  have streamable : QueryBuilder.Streamable files := ⟨readable.few, readable.tail⟩
  rcases behindReads.nextRecords streamable calls with ⟨next, ran, _, _⟩
  rcases frontReads.nextRecords streamable (first.length + calls) with ⟨last, lastRan, _, _⟩
  refine ⟨_, next, last, ran, ?_⟩
  rw [lastRan, upcoming, List.append_assoc, List.take_length_add_append, Nat.add_comm first.length,
    QueryBuilder.take_padded]

/-- What a commit leaves in the segment is right: `builder` has made the
commit, `after` is the builder then, and these are the cursors left before. -/
structure Faithful (files : List (Csv runtime schema)) (committed : List (UInt8 × Nat))
    (builder after : QueryBuilder Bytes) : Prop where
  boundary : ∃ g, IsBoundary files after.segment.committedHandleIdx.toNat
    after.segment.committedOffset g
  grown : ∀ earlier ∈ committed, lexicographic earlier ≤ lexicographic after.segment.cursor
  resumes : builder.insertIfNotExistsStmt = [] → ∀ segment : Segment,
    segment.cursor = after.segment.cursor → ∀ memory, (∀ i, 0 < (memory i).length) →
      ∃ resumed : QueryBuilder Bytes,
        QueryBuilder.create (Builders.texts schema) schema segment memory
          (files.map Csv.bytes) = .ok resumed ∧
        ∀ calls, ∃ records next last,
          QueryBuilder.nextRecords runtime calls after = .ok (records, next) ∧
          QueryBuilder.nextRecords runtime (after.deferred.length + calls) resumed =
            .ok (after.deferred ++ records, last)

private theorem Standing.faithful (standing : Standing files builder emitter committed c)
    (readable : Readable files) :
    ∃ after, builder.commit (Builders.texts schema) = .ok after ∧
      Faithful files committed builder after := by
  rcases standing.commit with ⟨after, c', called, afterStanding, handed⟩
  refine ⟨after, called, ⟨c', afterStanding.cursor⟩, ?_, ?_⟩
  · intro earlier member
    exact afterStanding.grown earlier (List.mem_cons_of_mem _ member)
  · intro quiet segment same memory sized
    have pending : emitter.pending = none := by
      rw [← standing.simulates.awaits (Builders.texts_lawful schema), quiet]
      rfl
    rcases handed pending with ⟨rfl, _⟩
    have boundary : IsBoundary files segment.committedHandleIdx.toNat segment.committedOffset
        emitter.handed := by
      have handleIdx : segment.committedHandleIdx = after.segment.committedHandleIdx :=
        congrArg Prod.fst same
      have offset : segment.committedOffset = after.segment.committedOffset :=
        congrArg Prod.snd same
      rw [handleIdx, offset]
      exact afterStanding.cursor
    rcases QueryBuilder.create_readsFrom (Builders.texts schema) segment sized boundary with
      ⟨resumed, created, reads, _⟩
    refine ⟨resumed, created, ?_⟩
    rw [afterStanding.simulates.deferred_eq]
    exact reads.nextRecords_deferred readable afterStanding.simulates.reads
      standing.simulates.valid.drop_handed

/-- After any calls, kills and restarts every call succeeds, and a commit
leaves a record boundary that is not in front of any cursor left before and
from which a new builder goes on with what the committing one has not handed
out. -/
theorem commit_faithful (readable : Readable files) (history : History files builder committed) :
    (∃ text next, builder.nextQuery (Builders.texts schema) runtime = .ok (text, next)) ∧
    (∀ memory, (∀ i, 0 < (memory i).length) → ∃ opened,
      QueryBuilder.create (Builders.texts schema) schema builder.segment memory
        (files.map Csv.bytes) = .ok opened) ∧
    ∃ after, builder.commit (Builders.texts schema) = .ok after ∧
      Faithful files committed builder after := by
  rcases history.standing readable with ⟨emitter, c, standing⟩
  refine ⟨?_, ?_, standing.faithful readable⟩
  · rcases standing.nextQuery readable with ⟨text, next, called, _⟩
    exact ⟨text, next, called⟩
  · intro memory sized
    rcases standing.restart sized with ⟨opened, created, _⟩
    exact ⟨opened, created⟩

private theorem sampleFiles_history : ∃ builder, History sampleFiles builder [(1, 6)] := by
  have opened : History sampleFiles _ [] := .start sampleMemory_sized rfl
  have asked : History sampleFiles _ [] := opened.nextQuery rfl
  have told : History sampleFiles _ _ := asked.commit rfl
  exact ⟨_, told.restart sampleMemory_sized rfl⟩

theorem commit_faithful_sampleFiles : ∃ builder,
    History sampleFiles builder [(1, 6)] ∧
    ((∃ text next, builder.nextQuery (Builders.texts sampleSchema) sampleRuntime =
        .ok (text, next)) ∧
      (∀ memory, (∀ i, 0 < (memory i).length) → ∃ opened,
        QueryBuilder.create (Builders.texts sampleSchema) sampleSchema builder.segment memory
          (sampleFiles.map Csv.bytes) = .ok opened) ∧
      ∃ after, builder.commit (Builders.texts sampleSchema) = .ok after ∧
        Faithful sampleFiles [(1, 6)] builder after) := by
  rcases sampleFiles_history with ⟨builder, history⟩
  exact ⟨builder, history, commit_faithful sampleFiles_readable history⟩

end

end ChangeSql
