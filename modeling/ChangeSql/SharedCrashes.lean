/-
Kills and throws in the middle of a call, over the table in shared memory.

A call can be killed between two insertions of a hash, and it dies where the
segment refuses an allocation. Both leave the hashes that are in the table by
then. Kills alone leave nothing behind that a later run fails on or turns round
in, as long as the segment grants what the table asks for.
-/

import ChangeSql.Crashes
import ChangeSql.SharedWorlds

namespace ChangeSql

open FreshRuns
open FlatHashTable (HoldsSet slotsOf)
open SharedTable (Keeps)
open Transitions (Steps)

def SharedTable.PassesThrough {σ : Type} (hash : UInt64 → UInt64) (allocator : FlatHash.Allocator)
    (builders : Builders σ) (runtime : Runtime) (builder : QueryBuilder σ)
    (inserted table : FlatHashTable UInt64) : Prop :=
  builders.isEmpty builder.insertIfNotExistsStmt = true ∧ builder.tmpRecord = [] ∧
    ∃ turns ≤ INSERT_NUM_TUPLES + 1, ∃ outcome midway,
      collect hash allocator runtime turns [] builder inserted = .ok (outcome, midway, table)

section

variable (hash : UInt64 → UInt64) (allocator : FlatHash.Allocator) (throws : Prop)
  {runtime : Runtime} {schema : Schema} (files : List (Csv runtime schema))

/-- The steps of the loop with kills also between two insertions of a hash, and
inside a commit as long as the cursor is not torn. Where `throws` holds a call
can also die of a refused allocation. -/
inductive SharedCrashStep : SharedWorld → SharedWorld → Prop where
  | step {before after : SharedWorld} (taken : SharedStep hash allocator Untorn files before after) :
      SharedCrashStep before after
  | inside {builder : QueryBuilder Statement} {log : List Statement}
      {inserted table : FlatHashTable UInt64}
      (passes : SharedTable.PassesThrough hash allocator Builders.symbolic runtime builder inserted
        table) :
      SharedCrashStep ⟨.ready builder, log, inserted⟩ ⟨.down builder.segment, log, table⟩
  | threwStart {segment : Segment} {log : List Statement} {inserted left : FlatHashTable UInt64}
      {slots : Nat} (allowed : throws) (memory : Nat → Bytes)
      (sized : ∀ i, 0 < (memory i).length)
      (thrown : SharedTable.create hash allocator Builders.symbolic schema segment memory
        (files.map Csv.bytes) inserted = .error (.badAlloc slots left)) :
      SharedCrashStep ⟨.down segment, log, inserted⟩ ⟨.down segment, log, left⟩
  | threwQuery {builder : QueryBuilder Statement} {log : List Statement}
      {inserted left : FlatHashTable UInt64} {slots : Nat} (allowed : throws)
      (thrown : SharedTable.nextQuery hash allocator Builders.symbolic runtime builder inserted =
        .error (.badAlloc slots left)) :
      SharedCrashStep ⟨.ready builder, log, inserted⟩ ⟨.down builder.segment, log, left⟩

def SharedCrashReachable (shared : SharedWorld) : Prop :=
  Relation.ReflTransGen (SharedCrashStep hash allocator throws files) SharedWorld.fresh shared

end

section

variable {hash : UInt64 → UInt64} {allocator : FlatHash.Allocator} {runtime : Runtime}
  {schema : Schema} {files : List (Csv runtime schema)} {world : World}
  {shared before after : SharedWorld}

/-- What a kill between two insertions leaves is what it leaves of the set. -/
theorem Represents.inside {builder : QueryBuilder Statement} {log : List Statement}
    {inserted table : FlatHashTable UInt64} (readable : Readable files)
    (sound : Sound files ⟨.ready builder, log⟩)
    (represents : Represents hash allocator ⟨.ready builder, log⟩
      ⟨.ready builder.forget, log, inserted⟩)
    (passes : SharedTable.PassesThrough hash allocator Builders.symbolic runtime builder.forget
      inserted table) :
    ∃ next, CrashStep files ⟨.ready builder, log⟩ next ∧
      Represents hash allocator next ⟨.down builder.forget.segment, log, table⟩ := by
  rcases passes with ⟨quiet, nothing, turns, few, outcome, midway, passed⟩
  have keeps := represents.running nofun
  cases sound with
  | ready alive =>
      rcases collect_collects readable turns [] alive.simulates.reads with
        ⟨other, abstract, collected, collects⟩
      rw [SharedTable.collect_forget readable alive.simulates.reads keeps.holds collected] at passed
      have segmentIs := collects.segment
      generalize takeFresh (recordKey runtime schema) turns builder.segment.inserted
        ((allRecords files).drop _) = batch at passed segmentIs
      rcases keeps.takeIn batch with ⟨failure, thrown, _⟩ | ⟨grown, grownIs, grownKeeps⟩
      · rw [thrown] at passed
        cases passed
      · rw [grownIs] at passed
        cases passed
        have inside : CrashStep files ⟨.ready builder, log⟩ ⟨.down abstract.segment, log⟩ :=
          .inside ⟨quiet, nothing, turns, few, _, abstract, collected, rfl⟩
        refine ⟨_, inside, ?_, rfl, ?_, Or.inr grownKeeps.roomy⟩
        · change Process.down builder.segment.forget = .down abstract.segment.forget
          rw [segmentIs]
          rfl
        · change HoldsSet allocator hash abstract.segment.inserted table
          rw [segmentIs]
          exact grownKeeps.holds

theorem Represents.crashStep (readable : Readable files) (sound : Sound files world)
    (represents : Represents hash allocator world shared)
    (step : SharedCrashStep hash allocator False files shared after) :
    ∃ next, CrashStep files world next ∧ Represents hash allocator next after := by
  cases step with
  | step taken =>
      rcases represents.step Untorn.blind readable sound taken with ⟨next, stepped, nextRepresents⟩
      exact ⟨next, .step stepped, nextRepresents⟩
  | inside passes =>
      rcases world with ⟨process, log⟩
      have same := represents.process
      have sameLog := represents.log
      cases process with
      | ready builder =>
          cases same
          cases sameLog
          exact represents.inside readable sound passes
      | _ => cases same
  | threwStart allowed => exact absurd allowed id
  | threwQuery allowed => exact absurd allowed id

theorem SharedCrashReachable.represented (readable : Readable files) (nonempty : files ≠ [])
    (reachable : SharedCrashReachable hash allocator False files shared) :
    ∃ world, CrashReachable files world ∧ Represents hash allocator world shared := by
  induction reachable with
  | refl => exact ⟨_, .refl, .fresh⟩
  | tail _ step ih =>
      rcases ih with ⟨world, reachable, represents⟩
      have sound : Sound files world := CrashReachable.sound readable nonempty reachable
      rcases represents.crashStep readable sound step with ⟨next, stepped, nextRepresents⟩
      exact ⟨next, reachable.tail stepped, nextRepresents⟩

private theorem Represents.crashFollow {next : World} (readable : Readable files)
    (sound : Sound files world) (represents : Represents hash allocator world shared)
    (granted : ∀ bits ≤ max 24 ((allRecords files).length + 2),
      allocator.grants (slotsOf bits) = true)
    (step : CrashStep files world next) :
    ∃ after, SharedCrashStep hash allocator False files shared after ∧
      Represents hash allocator next after := by
  cases step with
  | step taken =>
      rcases represents.follow Untorn.blind readable sound taken with
        throws | ⟨after, stepped, afterRepresents⟩
      · exact absurd throws (represents.not_throws readable sound granted)
      · exact ⟨after, .step stepped, afterRepresents⟩
  | @inside builder segment log passes =>
      rcases shared with ⟨process, sharedLog, inserted⟩
      have same : process = _ := represents.process
      have sameLog : sharedLog = _ := represents.log
      subst same sameLog
      have keeps : Keeps hash allocator (2 * INSERTED_TABLE_RESERVED_SIZE) builder.segment.inserted
          inserted := represents.running nofun
      cases sound with
      | @ready _ _ emitter _ _ _ alive =>
          rcases alive.passesThrough readable passes with ⟨_, later, durable⟩
          have few := Finset.card_le_card durable.inserted_subset
          have counted := keysOf_allRecords_card files
          rcases passes with ⟨quiet, nothing, turns, fewTurns, outcome, midway, collected, rfl⟩
          rcases collect_collects readable turns [] alive.simulates.reads with
            ⟨_, _, again, collects⟩
          rw [collected, Except.ok.injEq, Prod.mk.injEq] at again
          rcases again with ⟨_, rfl⟩
          have went := SharedTable.collect_forget readable alive.simulates.reads keeps.holds
            collected
          have segmentIs := collects.segment
          generalize takeFresh (recordKey runtime schema) turns builder.segment.inserted
            ((allRecords files).drop emitter.pos) = batch at went segmentIs
          have insertedIs := congrArg Segment.inserted segmentIs
          change _ = builder.segment.inserted ∪ keysOf (recordKey runtime schema) batch
            at insertedIs
          have taken : FlatHashTable.OrThrows allocator _
              (SharedTable.takeIn hash allocator runtime schema batch inserted) _ :=
            keeps.takeIn batch
          rcases taken with ⟨failure, _, refused⟩ | ⟨table, tableIs, tableKeeps⟩
          · rw [← insertedIs] at refused
            refine absurd refused (FlatHashTable.not_refused fun bits le => granted bits ?_)
            omega
          · rw [← insertedIs] at tableKeeps
            rw [tableIs] at went
            refine ⟨⟨.down builder.forget.segment, sharedLog, table⟩, .inside ?_, ?_, rfl,
              tableKeeps.holds, Or.inr tableKeeps.roomy⟩
            · exact ⟨quiet, nothing, turns, fewTurns, _, _, went⟩
            · change Process.down builder.segment.forget = .down midway.segment.forget
              rw [segmentIs]
              rfl

theorem SharedCrashReachable.follows (readable : Readable files) (nonempty : files ≠ [])
    (granted : ∀ bits ≤ max 24 ((allRecords files).length + 2),
      allocator.grants (slotsOf bits) = true)
    (reachable : CrashReachable files world) :
    ∃ shared, SharedCrashReachable hash allocator False files shared ∧
      Represents hash allocator world shared := by
  induction reachable with
  | refl => exact ⟨_, .refl, .fresh⟩
  | tail earlier step ih =>
      rcases ih with ⟨shared, reachable, represents⟩
      have sound := CrashReachable.sound readable nonempty earlier
      rcases represents.crashFollow readable sound granted step with
        ⟨after, stepped, afterRepresents⟩
      exact ⟨after, reachable.tail stepped, afterRepresents⟩

/-! ### Results -/

/-- Kills leave nothing behind that the loop fails on or turns round in. Left
alone it ends after so many steps, and only because it has stopped, unless an
allocation is refused. -/
theorem sharedCrash_loop_ends (readable : Readable files) (nonempty : files ≠ [])
    (reachable : SharedCrashReachable hash allocator False files before) {steps : Nat}
    (run : Steps (SharedStep hash allocator (fun _ => False) files) steps before after) :
    steps ≤ 12 * (allRecords files).length + 5 ∧
      ((∀ next, ¬ SharedStep hash allocator (fun _ => False) files after next) →
        (∃ builder, after.process = .stopped builder) ∨ SharedThrows hash allocator files after) ∧
      ((∀ bits ≤ max 24 ((allRecords files).length + 2), allocator.grants (slotsOf bits) = true) →
        ¬ SharedThrows hash allocator files after) := by
  rcases reachable.represented readable nonempty with ⟨world, worldReachable, represents⟩
  have sound := worldReachable.sound readable nonempty
  rcases sound.stepsLeft with ⟨bound, bounded, left⟩
  have ranked : ∃ lower, lower + steps ≤ bound ∧ ∃ world, Sound files world ∧
      Represents hash allocator world after ∧ StepsLeft files world lower := by
    apply run.ranked ⟨world, sound, represents, left⟩
    rintro before after rank ⟨world, sound, represents, left⟩ step
    rcases represents.step (fun _ => Iff.rfl) readable sound step with
      ⟨next, stepped, nextRepresents⟩
    rcases left.step readable stepped with ⟨fewer, less, nextLeft⟩
    exact ⟨fewer, less, next, sound.step readable (fun _ killed => killed.elim) stepped,
      nextRepresents, nextLeft⟩
  rcases ranked with ⟨lower, few, last, lastSound, lastRepresents, _⟩
  refine ⟨by omega, ?_, lastRepresents.not_throws readable lastSound⟩
  intro stuck
  rcases lastRepresents.progress readable lastSound with stopped | throws | ⟨next, step⟩
  · exact Or.inl stopped
  · exact Or.inr throws
  · exact absurd step (stuck next)

/-- Killed behind the first hash, the loop is started again. -/
theorem sharedCrash_loop_ends_sampleFiles :
    ∃ before after : SharedWorld,
      SharedCrashReachable id SharedTable.sampleAllocator False sampleFiles before ∧
      before.process = .down Segment.fresh ∧ before.log = [] ∧
      HoldsSet SharedTable.sampleAllocator id {97} before.inserted ∧
      Steps (SharedStep id SharedTable.sampleAllocator (fun _ => False) sampleFiles) 1 before
        after ∧
      1 ≤ 12 * (allRecords sampleFiles).length + 5 ∧
      ((∀ next, ¬ SharedStep id SharedTable.sampleAllocator (fun _ => False) sampleFiles after
        next) → ∃ builder, after.process = .stopped builder) := by
  have granted : ∀ bits ≤ max 24 ((allRecords sampleFiles).length + 2),
      SharedTable.sampleAllocator.grants (slotsOf bits) = true :=
    fun bits few => SharedTable.sampleAllocator_grants few
  have nonempty : sampleFiles ≠ [] := List.cons_ne_nil _ _
  have killed : ∃ before, SharedCrashReachable id SharedTable.sampleAllocator False sampleFiles
      before ∧ Represents id SharedTable.sampleAllocator
        ⟨.down { Segment.fresh with inserted := {97} }, []⟩ before :=
    SharedCrashReachable.follows sampleFiles_readable nonempty granted sampleFiles_crashed
  rcases killed with ⟨before, reachable, represents⟩
  have restarted : ∃ next, Step (fun _ => False) sampleFiles
      ⟨.down { Segment.fresh with inserted := {97} }, []⟩ next :=
    ⟨_, .start (fun _ => List.replicate 4 0) (fun _ => Nat.succ_pos 3) rfl⟩
  rcases restarted with ⟨next, step⟩
  have sound := CrashReachable.sound sampleFiles_readable nonempty sampleFiles_crashed
  rcases represents.follow (fun _ => Iff.rfl) sampleFiles_readable sound step with
    throws | ⟨after, stepped, _⟩
  · exact absurd throws (represents.not_throws sampleFiles_readable sound granted)
  · have once := Steps.tail (.refl before) stepped
    rcases sharedCrash_loop_ends sampleFiles_readable nonempty reachable once with
      ⟨few, stuck, quiet⟩
    refine ⟨before, after, reachable, represents.process, represents.log, represents.inserted,
      once, few, fun still => ?_⟩
    exact (stuck still).resolve_right (quiet granted)

end

end ChangeSql
