/-
The import that does not fit into the segment.

Once the table has been reserved the segment has no room for a larger one, so
a call that needs it throws, and the next process goes on with what the throw
has left. All that is known of the table then is that it holds the hashes of
the records in front of the cursor. This is enough: with too many keys there
is never a process that comes to the end.
-/

import ChangeSql.RoughTable
import ChangeSql.SharedCrashes

namespace ChangeSql

open FreshRuns
open FlatHashTable (Failure Rough slotsOf)
open QueryBuilder (ReadsFrom IsBoundary)
open SharedTable (FitsSegment Keeps)

section

variable {hash : UInt64 → UInt64} {allocator : FlatHash.Allocator} {runtime : Runtime}
  {schema : Schema} {files : List (Csv runtime schema)} {inserted table : FlatHashTable UInt64}
  {pos : Nat}

/-! ### What the table still holds -/

def Covers (files : List (Csv runtime schema)) (inserted : FlatHashTable UInt64) (pos : Nat) :
    Prop :=
  ∀ rec ∈ (allRecords files).take pos, recordKey runtime schema rec ∈ inserted.content

theorem Covers.mono (covers : Covers files inserted pos)
    (kept : inserted.content ⊆ table.content) : Covers files table pos :=
  fun rec member => kept (covers rec member)

theorem Covers.succ (covers : Covers files inserted pos) {rec : Record}
    (atPos : (allRecords files)[pos]? = some rec)
    (known : recordKey runtime schema rec ∈ inserted.content) :
    Covers files inserted (pos + 1) := by
  intro other member
  rw [List.take_add_one, atPos, List.mem_append] at member
  rcases member with before | here
  · exact covers other before
  · rw [List.mem_singleton.mp here]
    exact known

theorem Covers.le (covers : Covers files inserted pos) {earlier : Nat} (le : earlier ≤ pos) :
    Covers files inserted earlier := by
  intro rec member
  apply covers rec
  exact (List.take_subset_take_left (allRecords files) le) member

theorem Covers.card_le {bits : Nat} (rough : Rough bits inserted)
    (covers : Covers files inserted (allRecords files).length) :
    (keysOf (recordKey runtime schema) (allRecords files)).card ≤ inserted.numElements := by
  have within : keysOf (recordKey runtime schema) (allRecords files) ⊆
      inserted.content.toFinset := by
    intro k member
    rcases mem_keysOf.mp member with ⟨rec, had, rfl⟩
    rw [List.mem_toFinset]
    apply covers rec
    rw [List.take_length]
    exact had
  rw [rough.count]
  exact Nat.le_trans (Finset.card_le_card within) (List.toFinset_card_le _)

variable {σ : Type} {builder : QueryBuilder σ}

/-- What becomes of the loop of `next_query` over such a table. -/
inductive Collected (files : List (Csv runtime schema)) (builder : QueryBuilder σ)
    (inserted : FlatHashTable UInt64) :
    Except (Failure UInt64) (Option (List Record) × QueryBuilder σ × FlatHashTable UInt64) →
      Prop where
  | ok {outcome : Option (List Record)} {next : QueryBuilder σ} {table : FlatHashTable UInt64}
      {pos : Nat} (rough : Rough 24 table) (kept : inserted.content ⊆ table.content)
      (reads : ReadsFrom files next pos) (covers : Covers files table pos)
      (all : outcome = none → pos = (allRecords files).length)
      (segment : next.segment = builder.segment)
      (saved : next.tmpRecord = builder.tmpRecord ∨
        ∃ earlier ≤ pos, IsBoundary files next.tmpHandleIdx.toNat next.tmpOffset earlier) :
      Collected files builder inserted (.ok (outcome, next, table))
  | thrown {left : FlatHashTable UInt64} (rough : Rough 24 left)
      (kept : inserted.content ⊆ left.content) :
      Collected files builder inserted (.error (.badAlloc (slotsOf 25) left))

private theorem collect_collected (readable : Readable files)
    (full : allocator.grants (slotsOf 25) = false) (rough : Rough 24 inserted)
    (reads : ReadsFrom files builder pos) (covers : Covers files inserted pos) (room : Nat)
    (earlier : List Record) :
    Collected files builder inserted
      (SharedTable.collect hash allocator runtime room earlier builder inserted) := by
  induction room generalizing earlier builder inserted pos with
  | zero =>
      exact .ok rough (fun _ member => member) reads covers nofun rfl (Or.inl rfl)
  | succ room ih =>
      rcases reads.cursor with ⟨reader, handled, boundary⟩
      cases atPos : files.flatten[pos]? with
      | none =>
          have behind := List.getElem?_eq_none_iff.mp atPos
          rcases reads.nextRecord_end readable.few readable.tail behind with
            ⟨after, recordRead, afterReads, same, _⟩
          rw [SharedTable.collect_succ handled recordRead]
          refine .ok rough (fun _ member => member) afterReads covers ?_ same.segment
            (Or.inl same.tmpRecord)
          intro _
          rw [allRecords_length]
          exact Nat.le_antisymm reads.le_length behind
      | some line =>
          rcases reads.nextRecord readable.few readable.tail atPos with
            ⟨after, recordRead, afterReads, same⟩
          have atRecord : (allRecords files)[pos]? = some line.record := by
            rw [allRecords, List.getElem?_map, atPos]
            rfl
          have filled : ¬ line.record.isEmpty = true := fun none =>
            line.record_ne_nil (List.isEmpty_iff.mp none)
          have afterSchema : after.schema = schema := by rw [same.schema, reads.schema_eq]
          have keyIs : QueryBuilder.hashRecord runtime schema line.record =
              recordKey runtime schema line.record := rfl
          rw [SharedTable.collect_succ handled recordRead, if_neg filled, afterSchema, keyIs]
          rcases rough.find hash id (recordKey runtime schema line.record) with
            ⟨position, found, member, present, sameKey⟩ | missed
          · have known : recordKey runtime schema line.record ∈ inserted.content :=
              sameKey ▸ present
            rw [found]
            exact .ok rough (fun _ member => member) (afterReads.congr rfl rfl rfl)
              (covers.succ atRecord known) nofun same.segment
              (Or.inr ⟨pos, Nat.le_succ pos, boundary⟩)
          · rw [missed]
            have emplaced := rough.emplace full hash id (recordKey runtime schema line.record)
            change Collected files builder inserted (inserted.emplace hash id allocator
              (recordKey runtime schema line.record) >>= _)
            generalize inserted.emplace hash id allocator (recordKey runtime schema line.record) =
              result at emplaced ⊢
            cases emplaced with
            | thrown roughLeft kept => exact .thrown roughLeft kept
            | @ok grown position isNew roughGrown kept here =>
                rcases here with ⟨member, present, sameKey⟩
                change member = _ at sameKey
                subst sameKey
                have later := ih roughGrown afterReads ((covers.mono kept).succ atRecord present)
                  (earlier ++ [line.record])
                change Collected files builder inserted (SharedTable.collect hash allocator runtime
                  room (earlier ++ [line.record]) after grown)
                generalize SharedTable.collect hash allocator runtime room
                  (earlier ++ [line.record]) after grown = result at later ⊢
                cases later with
                | thrown roughLeft further =>
                    exact .thrown roughLeft (List.Subset.trans kept further)
                | ok roughAfter further nextReads nextCovers all segment saved =>
                    rw [same.segment] at segment
                    rw [same.tmpRecord] at saved
                    exact .ok roughAfter (List.Subset.trans kept further) nextReads nextCovers all
                      segment saved

/-! ### What a process still holds -/

/-- The committed cursor is not behind a record whose hash is missing. -/
def Saved (files : List (Csv runtime schema)) (segment : Segment)
    (inserted : FlatHashTable UInt64) : Prop :=
  ∃ pos, IsBoundary files segment.committedHandleIdx.toNat segment.committedOffset pos ∧
    Covers files inserted pos

theorem Saved.mono {segment : Segment} (saved : Saved files segment inserted)
    (kept : inserted.content ⊆ table.content) : Saved files segment table := by
  rcases saved with ⟨pos, boundary, covers⟩
  exact ⟨pos, boundary, covers.mono kept⟩

/-- Neither is one of the positions that the builder can commit. -/
structure ReadsCovered (files : List (Csv runtime schema)) (builder : QueryBuilder Statement)
    (inserted : FlatHashTable UInt64) : Prop where
  read : ∃ pos, ReadsFrom files builder pos ∧ Covers files inserted pos
  deferred : builder.tmpRecord ≠ [] →
    ∃ pos, IsBoundary files builder.tmpHandleIdx.toNat builder.tmpOffset pos ∧
      Covers files inserted pos
  saved : Saved files builder.segment inserted

theorem Saved.create {segment : Segment} (saved : Saved files segment inserted)
    {memory : Nat → Bytes} (sized : ∀ i, 0 < (memory i).length) :
    ∃ opened, QueryBuilder.create Builders.symbolic schema segment memory (files.map Csv.bytes) =
        .ok opened ∧
      ReadsCovered files opened inserted := by
  rcases saved with ⟨pos, boundary, covers⟩
  rcases QueryBuilder.create_readsFrom Builders.symbolic segment sized boundary with
    ⟨opened, created, reads, segmentIs, none, _⟩
  refine ⟨opened, created, ⟨pos, reads, covers⟩, fun some => absurd none some, ?_⟩
  rw [segmentIs]
  exact ⟨pos, boundary, covers⟩

inductive Called (files : List (Csv runtime schema)) (inserted : FlatHashTable UInt64) :
    Except (Failure UInt64) (Statement × QueryBuilder Statement × FlatHashTable UInt64) →
      Prop where
  | ok {query : Statement} {next : QueryBuilder Statement} {table : FlatHashTable UInt64}
      (rough : Rough 24 table) (reads : ReadsCovered files next table)
      (all : query = .empty → Covers files table (allRecords files).length) :
      Called files inserted (.ok (query, next, table))
  | thrown {left : FlatHashTable UInt64} (rough : Rough 24 left)
      (kept : inserted.content ⊆ left.content) :
      Called files inserted (.error (.badAlloc (slotsOf 25) left))

variable {reader : QueryBuilder Statement}

theorem ReadsCovered.nextQuery (readable : Readable files)
    (full : allocator.grants (slotsOf 25) = false) (rough : Rough 24 inserted)
    (reads : ReadsCovered files reader inserted) :
    Called files inserted
      (SharedTable.nextQuery hash allocator Builders.symbolic runtime reader inserted) := by
  rcases reads.read with ⟨pos, atPos, covers⟩
  unfold SharedTable.nextQuery
  cases awaiting : Builders.symbolic.isEmpty reader.insertIfNotExistsStmt with
  | false =>
      refine .ok rough ⟨⟨pos, atPos.congr rfl rfl rfl, covers⟩, reads.deferred, reads.saved⟩ ?_
      intro empty
      rw [empty] at awaiting
      cases awaiting
  | true =>
      cases nothing : reader.tmpRecord.isEmpty with
      | false =>
          refine .ok rough ⟨⟨pos, atPos.congr rfl rfl rfl, covers⟩, ?_, reads.saved⟩ nofun
          exact fun some => absurd rfl some
      | true =>
          have noRecord := List.isEmpty_iff.mp nothing
          have collected : Collected files reader inserted (SharedTable.collect hash allocator
              runtime (INSERT_NUM_TUPLES + 1) [] reader inserted) :=
            collect_collected readable full rough atPos covers _ []
          generalize SharedTable.collect hash allocator runtime (INSERT_NUM_TUPLES + 1) [] reader
            inserted = result at collected ⊢
          cases collected with
          | thrown roughLeft kept => exact .thrown roughLeft kept
          | @ok outcome next table later roughAfter kept nextReads nextCovers all segment saved =>
              have nextSaved : Saved files next.segment table := by
                rw [segment]
                exact reads.saved.mono kept
              have deferred : next.tmpRecord ≠ [] → ∃ earlier,
                  IsBoundary files next.tmpHandleIdx.toNat next.tmpOffset earlier ∧
                    Covers files table earlier := by
                intro some
                rcases saved with same | ⟨earlier, le, boundary⟩
                · exact absurd (same.trans noRecord) some
                · exact ⟨earlier, boundary, nextCovers.le le⟩
              have whole : ReadsCovered files next table :=
                ⟨⟨later, nextReads, nextCovers⟩, deferred, nextSaved⟩
              cases outcome with
              | none =>
                  refine .ok roughAfter whole fun _ => ?_
                  rw [← all rfl]
                  exact nextCovers
              | some records =>
                  cases records with
                  | nil =>
                      refine .ok roughAfter
                        ⟨⟨later, nextReads.congr rfl rfl rfl, nextCovers⟩, ?_, nextSaved⟩ nofun
                      exact fun some => absurd rfl some
                  | cons rec records => exact .ok roughAfter whole nofun

theorem ReadsCovered.stored (reads : ReadsCovered files reader inserted) {stores : List Store}
    (called : reader.commitStores Builders.symbolic = .ok stores) :
    Saved files (stores.foldl Segment.store reader.segment) inserted := by
  rcases QueryBuilder.commitStores_cases called with rfl | ⟨offset, offsetIs, rfl⟩
  · exact reads.saved
  · unfold QueryBuilder.cursorOffset at offsetIs
    unfold QueryBuilder.cursorHandleIdx
    cases nothing : reader.tmpRecord.isEmpty with
    | true =>
        rcases reads.read with ⟨pos, atPos, covers⟩
        rcases atPos.cursor with ⟨handled, handledIs, boundary⟩
        rw [nothing, if_pos rfl] at offsetIs
        unfold QueryBuilder.handle at handledIs
        split at handledIs
        · rename_i reader atIndex
          cases handledIs
          rw [atIndex] at offsetIs
          cases offsetIs
          exact ⟨pos, boundary, covers⟩
        · cases handledIs
    | false =>
        rw [nothing] at offsetIs
        cases offsetIs
        exact reads.deferred (fun none => by rw [none] at nothing; cases nothing)

def Holding (files : List (Csv runtime schema)) (inserted : FlatHashTable UInt64) :
    Process → Prop
  | .down segment => Saved files segment inserted
  | .ready builder => ReadsCovered files builder inserted
  | .holding builder _ => ReadsCovered files builder inserted
  | .executed builder => ReadsCovered files builder inserted
  | .committing builder made left =>
      ReadsCovered files builder inserted ∧
        builder.commitStores Builders.symbolic = .ok (made ++ left)
  | .stopped builder =>
      ReadsCovered files builder inserted ∧ Covers files inserted (allRecords files).length

theorem Holding.killed {process : Process} (holding : Holding files inserted process)
    (untorn : Untorn process) : Saved files process.segment inserted := by
  cases process with
  | down segment => exact holding
  | ready builder => exact holding.saved
  | holding builder query => exact holding.saved
  | executed builder => exact holding.saved
  | stopped builder => exact holding.1.saved
  | committing builder made left =>
      rcases holding with ⟨reads, stores⟩
      change Saved files (made.foldl Segment.store builder.segment) inserted
      rcases made_untorn stores untorn with before | after
      · rw [before]
        exact reads.saved
      · rw [after]
        exact reads.stored stores

/-! ### The worlds -/

theorem FitsSegment.full (fits : FitsSegment allocator) :
    allocator.grants (slotsOf 25) = false := by
  cases granted : allocator.grants (slotsOf 25) with
  | false => rfl
  | true =>
      have small := fits _ granted
      have large : SHARED_MGR_SIZE < 16 * slotsOf 25 := by decide
      omega

private theorem reserve_empty (hash : UInt64 → UInt64) (allocator : FlatHash.Allocator) :
    FlatHashTable.empty.reserve hash id allocator INSERTED_TABLE_RESERVED_SIZE =
      if allocator.grants (slotsOf 24) then .ok (FlatHashTable.allocated (2 ^ 24))
      else .error (.badAlloc (slotsOf 24) FlatHashTable.empty) := by
  have sizeIs : FlatHash.nextSizeOver (max
      (FlatHash.numBucketsForReserve INSERTED_TABLE_RESERVED_SIZE)
      (2 * (FlatHashTable.empty : FlatHashTable UInt64).numElements)) = 2 ^ 24 := by
    decide
  have slots : 2 ^ 24 + FlatHash.computeMaxLookups (2 ^ 24) = slotsOf 24 := by decide
  unfold FlatHashTable.reserve
  dsimp only
  rw [if_pos (by decide)]
  unfold FlatHashTable.rehash
  dsimp only
  rw [if_neg (by decide), sizeIs, if_neg (by decide), slots]
  rfl

private theorem reserve_rough (rough : Rough 24 inserted) :
    inserted.reserve hash id allocator INSERTED_TABLE_RESERVED_SIZE = .ok inserted := by
  have large : ¬ 2 ^ 24 < FlatHash.numBucketsForReserve INSERTED_TABLE_RESERVED_SIZE := by decide
  unfold FlatHashTable.reserve
  dsimp only
  rw [rough.bucketCount_eq, if_neg large]

/-- The table is untouched before the first start. From then on it has 2^24
buckets, and each process is in front of what it lacks. -/
inductive Filling (files : List (Csv runtime schema)) : SharedWorld → Prop where
  | untouched {segment : Segment} {log : List Statement}
      (saved : Saved files segment FlatHashTable.empty) :
      Filling files ⟨.down segment, log, FlatHashTable.empty⟩
  | rough {process : Process} {log : List Statement} {inserted : FlatHashTable UInt64}
      (rough : Rough 24 inserted) (holding : Holding files inserted process) :
      Filling files ⟨process, log, inserted⟩

variable {shared after : SharedWorld}

theorem Filling.fresh (nonempty : files ≠ []) : Filling files SharedWorld.fresh := by
  rcases List.exists_cons_of_ne_nil nonempty with ⟨first, others, rfl⟩
  have atFirst : (first :: others)[0]? = some first := rfl
  refine .untouched ⟨0, QueryBuilder.isBoundary_start atFirst, ?_⟩
  intro rec impossible
  cases impossible

theorem Rough.allocated (granted : allocator.grants (slotsOf 24) = true) :
    Rough 24 (FlatHashTable.allocated (2 ^ 24) : FlatHashTable UInt64) := by
  have proper : FlatHashTable.Proper allocator id id (FlatHashTable.allocated (2 ^ 24)) 24 ∧ _ :=
    FlatHashTable.allocated_proper (by decide) granted
  exact proper.1.rough

/-- A start opens the cursor over a table of 2^24 buckets, or it throws and
leaves the table as it is. -/
theorem Filling.create {segment : Segment} {log : List Statement}
    (filling : Filling files ⟨.down segment, log, inserted⟩) {memory : Nat → Bytes}
    (sized : ∀ i, 0 < (memory i).length) :
    (∃ opened table, SharedTable.create hash allocator Builders.symbolic schema segment memory
        (files.map Csv.bytes) inserted = .ok (opened, table) ∧
      Rough 24 table ∧ ReadsCovered files opened table) ∨
    (SharedTable.create hash allocator Builders.symbolic schema segment memory
        (files.map Csv.bytes) inserted = .error (.badAlloc (slotsOf 24) inserted) ∧
      allocator.grants (slotsOf 24) = false) := by
  unfold SharedTable.create
  cases filling with
  | untouched saved =>
      rw [reserve_empty]
      cases granted : allocator.grants (slotsOf 24) with
      | false => exact Or.inr ⟨rfl, rfl⟩
      | true =>
          have bare : Saved files segment (FlatHashTable.allocated (2 ^ 24)) :=
            saved.mono fun _ impossible => nomatch impossible
          rcases bare.create sized with ⟨opened, created, reads⟩
          rw [if_pos rfl, created]
          exact Or.inl ⟨opened, _, rfl, Rough.allocated granted, reads⟩
  | rough rough holding =>
      have saved : Saved files segment inserted := holding
      rcases saved.create sized with ⟨opened, created, reads⟩
      rw [reserve_rough rough, created]
      exact Or.inl ⟨opened, inserted, rfl, rough, reads⟩

private theorem Filling.sharedStep (readable : Readable files) (fits : FitsSegment allocator)
    (filling : Filling files shared) (step : SharedStep hash allocator Untorn files shared after) :
    Filling files after := by
  have full := FitsSegment.full fits
  cases step with
  | start memory sized created =>
      rcases filling.create sized with ⟨opened, table, createdIs, rough, reads⟩ | ⟨thrown, _⟩
      · rw [created, Except.ok.injEq, Prod.mk.injEq] at createdIs
        rcases createdIs with ⟨rfl, rfl⟩
        exact .rough rough reads
      · rw [created] at thrown
        cases thrown
  | query called more =>
      cases filling with
      | rough rough holding =>
          have result : Called files _ (SharedTable.nextQuery hash allocator _ _ _ _) :=
            ReadsCovered.nextQuery readable full rough holding
          rw [called] at result
          cases result with
          | ok roughAfter reads all => exact .rough roughAfter reads
  | stop called =>
      cases filling with
      | rough rough holding =>
          have result : Called files _ (SharedTable.nextQuery hash allocator _ _ _ _) :=
            ReadsCovered.nextQuery readable full rough holding
          rw [called] at result
          cases result with
          | ok roughAfter reads all => exact .rough roughAfter ⟨reads, all rfl⟩
  | execute =>
      cases filling with
      | rough rough holding => exact .rough rough holding
  | commit called =>
      cases filling with
      | rough rough holding => exact .rough rough ⟨holding, called⟩
  | @store builder made left store log inserted =>
      cases filling with
      | rough rough holding =>
          refine .rough rough ⟨holding.1, ?_⟩
          rw [List.append_assoc]
          exact holding.2
  | committed =>
      cases filling with
      | rough rough holding =>
          rcases holding with ⟨reads, stores⟩
          rw [List.append_nil] at stores
          have saved := reads.stored stores
          rcases reads with ⟨⟨pos, atPos, covers⟩, deferred, _⟩
          exact .rough rough ⟨⟨pos, atPos.congr rfl rfl rfl, covers⟩, deferred, saved⟩
  | kill killed =>
      cases filling with
      | untouched saved => exact .untouched saved
      | rough rough holding => exact .rough rough (holding.killed killed)

theorem Filling.inside {builder : QueryBuilder Statement} {log : List Statement}
    (readable : Readable files) (fits : FitsSegment allocator)
    (filling : Filling files ⟨.ready builder, log, inserted⟩)
    (passes : SharedTable.PassesThrough hash allocator Builders.symbolic runtime builder inserted
      table) :
    Filling files ⟨.down builder.segment, log, table⟩ := by
  cases filling with
  | rough rough holding =>
      rcases holding with ⟨⟨pos, atPos, covers⟩, deferred, saved⟩
      rcases passes with ⟨_, _, turns, _, outcome, midway, passed⟩
      have collected : Collected files builder _ (SharedTable.collect hash allocator _ _ _ _ _) :=
        collect_collected readable (FitsSegment.full fits) rough atPos covers turns []
      rw [passed] at collected
      cases collected with
      | ok roughAfter kept reads nextCovers all segment deferred =>
          exact .rough roughAfter (saved.mono kept)

theorem Filling.step (readable : Readable files) (fits : FitsSegment allocator)
    (filling : Filling files shared)
    (step : SharedCrashStep hash allocator True files shared after) : Filling files after := by
  cases step with
  | step taken => exact filling.sharedStep readable fits taken
  | inside passes => exact filling.inside readable fits passes
  | threwStart allowed memory sized thrown =>
      rcases filling.create sized with ⟨opened, table, created, _⟩ | ⟨otherThrown, _⟩
      · rw [thrown] at created
        cases created
      · rw [thrown] at otherThrown
        cases otherThrown
        exact filling
  | threwQuery allowed thrown =>
      cases filling with
      | rough rough holding =>
          have reads : ReadsCovered files _ _ := holding
          have result : Called files _ (SharedTable.nextQuery hash allocator _ _ _ _) :=
            reads.nextQuery readable (FitsSegment.full fits) rough
          rw [thrown] at result
          cases result with
          | thrown roughLeft kept => exact .rough roughLeft (reads.saved.mono kept)

private theorem SharedCrashReachable.filling (readable : Readable files) (nonempty : files ≠ [])
    (fits : FitsSegment allocator)
    (reachable : SharedCrashReachable hash allocator True files shared) : Filling files shared := by
  induction reachable with
  | refl => exact .fresh nonempty
  | tail _ step ih => exact ih.step readable fits step

/-- Nothing fails but for a refused allocation. -/
theorem Filling.progress (readable : Readable files) (fits : FitsSegment allocator)
    (filling : Filling files shared) :
    (∃ builder, shared.process = .stopped builder) ∨ SharedThrows hash allocator files shared ∨
      ∃ after, SharedStep hash allocator (fun _ => False) files shared after := by
  have full := FitsSegment.full fits
  rcases shared with ⟨process, log, inserted⟩
  cases process with
  | stopped builder => exact Or.inl ⟨builder, rfl⟩
  | down segment =>
      have sized : ∀ i : Nat, 0 < ((fun _ => [0] : Nat → Bytes) i).length := fun _ => Nat.one_pos
      rcases filling.create sized with ⟨opened, table, created, _⟩ | ⟨thrown, refused⟩
      · exact Or.inr (Or.inr ⟨_, .start _ sized created⟩)
      · exact Or.inr (Or.inl (.start _ sized thrown refused))
  | ready builder =>
      cases filling with
      | rough rough holding =>
          have result : Called files _ (SharedTable.nextQuery hash allocator _ _ _ _) :=
            ReadsCovered.nextQuery readable full rough holding
          generalize called : SharedTable.nextQuery hash allocator Builders.symbolic runtime builder
            inserted = answer at result
          cases result with
          | thrown roughLeft kept => exact Or.inr (Or.inl (.query called full))
          | @ok query next table roughAfter reads all =>
              by_cases more : query = .empty
              · subst more
                exact Or.inr (Or.inr ⟨_, .stop called⟩)
              · exact Or.inr (Or.inr ⟨_, .query called more⟩)
  | holding builder query => exact Or.inr (Or.inr ⟨_, .execute⟩)
  | executed builder =>
      cases filling with
      | rough rough holding =>
          have reads : ReadsCovered files builder inserted := holding
          rcases reads.read with ⟨pos, atPos, _⟩
          rcases atPos.cursor with ⟨reader, handled, _⟩
          have stores : ∃ stores, builder.commitStores Builders.symbolic = .ok stores := by
            unfold QueryBuilder.commitStores
            rw [handled]
            cases Builders.symbolic.isEmpty builder.insertIfNotExistsStmt <;>
              cases builder.tmpRecord.isEmpty <;> exact ⟨_, rfl⟩
          rcases stores with ⟨stores, called⟩
          exact Or.inr (Or.inr ⟨_, .commit called⟩)
  | committing builder made left =>
      cases left with
      | nil => exact Or.inr (Or.inr ⟨_, .committed⟩)
      | cons store left => exact Or.inr (Or.inr ⟨_, .store⟩)

/-- Left alone, the loop comes to where it stops or throws. -/
theorem Represents.comesToEnd (readable : Readable files) {world : World} {rank : Nat}
    (sound : Sound files world) (represents : Represents hash allocator world shared)
    (left : StepsLeft files world rank) :
    ∃ last, Relation.ReflTransGen (SharedStep hash allocator (fun _ => False) files) shared last ∧
      ((∃ builder, last.process = .stopped builder) ∨ SharedThrows hash allocator files last) := by
  induction rank using Nat.strong_induction_on generalizing world shared with
  | _ rank ih =>
      rcases represents.progress readable sound with stopped | throws | ⟨next, taken⟩
      · exact ⟨shared, .refl, Or.inl stopped⟩
      · exact ⟨shared, .refl, Or.inr throws⟩
      · rcases represents.step (fun _ => Iff.rfl) readable sound taken with
          ⟨nextWorld, stepped, nextRepresents⟩
        rcases left.step readable stepped with ⟨fewer, less, nextLeft⟩
        have nextSound := sound.step readable (fun _ killed => killed.elim) stepped
        rcases ih fewer less nextSound nextRepresents nextLeft with ⟨last, run, ends⟩
        exact ⟨last, .head taken run, ends⟩

/-- Where the first table is granted, a call throws at the next larger one. -/
theorem Filling.throws (readable : Readable files) (fits : FitsSegment allocator)
    (filling : Filling files shared) (granted : allocator.grants (slotsOf 24) = true)
    (throws : SharedThrows hash allocator files shared) :
    ∃ builder log inserted left, shared = ⟨.ready builder, log, inserted⟩ ∧
      SharedTable.nextQuery hash allocator Builders.symbolic runtime builder inserted =
        .error (.badAlloc (slotsOf 25) left) ∧
      Rough 24 left := by
  cases throws with
  | start memory sized thrown refused =>
      rcases filling.create sized with ⟨opened, table, created, _⟩ | ⟨_, refused⟩
      · rw [thrown] at created
        cases created
      · rw [granted] at refused
        cases refused
  | @query builder log inserted left slots thrown refused =>
      cases filling with
      | rough rough holding =>
          have result : Called files _ (SharedTable.nextQuery hash allocator _ _ _ _) :=
            ReadsCovered.nextQuery readable (FitsSegment.full fits) rough holding
          rw [thrown] at result
          cases result with
          | thrown roughLeft kept => exact ⟨builder, log, inserted, left, rfl, thrown, roughLeft⟩

/-! ### Results -/

/-- Over all kills, restarts and throws the table is untouched or has 2^24
buckets, and nothing but a refused allocation can fail. An import of more keys
than half of the buckets never comes to its end. -/
theorem fullSegment_never_stops (readable : Readable files) (nonempty : files ≠ [])
    (fits : FitsSegment allocator)
    (reachable : SharedCrashReachable hash allocator True files shared) :
    (shared.inserted = FlatHashTable.empty ∨
      shared.inserted.bucketCount = 2 ^ 24 ∧ shared.inserted.numElements ≤ 2 ^ 23) ∧
    ((∃ builder, shared.process = .stopped builder) ∨ SharedThrows hash allocator files shared ∨
      ∃ after, SharedStep hash allocator (fun _ => False) files shared after) ∧
    (2 ^ 23 < (keysOf (recordKey runtime schema) (allRecords files)).card →
      ∀ builder, shared.process ≠ .stopped builder) := by
  have filling := reachable.filling readable nonempty fits
  refine ⟨?_, filling.progress readable fits, ?_⟩
  · cases filling with
    | untouched saved => exact Or.inl rfl
    | rough rough holding =>
        have load := rough.load
        exact Or.inr ⟨rough.bucketCount_eq, by dsimp only; omega⟩
  · rintro crowded builder stopped
    cases filling with
    | untouched saved => cases stopped
    | rough rough holding =>
        cases stopped
        have covered := Covers.card_le rough holding.2
        have load := rough.load
        omega

end

/-- The import of the crowded file throws in a call, and no process after that
comes to its end. -/
theorem fullSegment_never_stops_crowdedFile :
    ∃ builder log inserted left,
      SharedCrashReachable id SharedTable.sampleAllocator True [SharedTable.crowdedFile]
        ⟨.ready builder, log, inserted⟩ ∧
      SharedTable.nextQuery id SharedTable.sampleAllocator Builders.symbolic countingRuntime builder
        inserted = .error (.badAlloc (slotsOf 25) left) ∧
      left.bucketCount = 2 ^ 24 ∧ left.numElements ≤ 2 ^ 23 ∧
      ∀ later, SharedCrashReachable id SharedTable.sampleAllocator True [SharedTable.crowdedFile]
          later → ∀ builder, later.process ≠ .stopped builder := by
  have readable := SharedTable.crowdedFile_readable
  have fits := SharedTable.sampleAllocator_fits
  have nonempty : [SharedTable.crowdedFile] ≠ [] := List.cons_ne_nil _ _
  have many : 2 ^ 23 < (keysOf (recordKey countingRuntime sampleSchema)
      (allRecords [SharedTable.crowdedFile])).card := by
    rw [SharedTable.crowdedFile_keys]
    exact Nat.lt_succ_self _
  have still : ∀ later, SharedCrashReachable id SharedTable.sampleAllocator True
      [SharedTable.crowdedFile] later → ∀ builder, later.process ≠ .stopped builder := by
    intro later reachable
    exact (fullSegment_never_stops readable nonempty fits reachable).2.2 many
  have sound : Sound [SharedTable.crowdedFile] World.fresh := .fresh nonempty
  rcases sound.stepsLeft with ⟨rank, _, left⟩
  have represents : Represents id SharedTable.sampleAllocator World.fresh SharedWorld.fresh :=
    .fresh
  rcases represents.comesToEnd readable sound left with ⟨last, run, ends⟩
  have reachable : SharedCrashReachable id SharedTable.sampleAllocator True
      [SharedTable.crowdedFile] last :=
    Relation.ReflTransGen.mono
      (fun _ _ step => SharedCrashStep.step (step.mono fun _ killed => killed.elim)) _ _ run
  have filling := reachable.filling readable nonempty fits
  rcases ends with ⟨builder, stopped⟩ | throws
  · exact absurd stopped (still last reachable builder)
  · have granted : SharedTable.sampleAllocator.grants (slotsOf 24) = true :=
      SharedTable.sampleAllocator_grants (Nat.le_refl 24)
    rcases filling.throws readable fits granted throws with
      ⟨builder, log, inserted, left, rfl, thrown, rough⟩
    have load := rough.load
    exact ⟨builder, log, inserted, left, reachable, thrown, rough.bucketCount_eq, by omega, still⟩

end ChangeSql
