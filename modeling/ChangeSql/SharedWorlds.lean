/-
The import loop over shared memory with a real hash table in it.

A shared world is a process without its hashes, the statements executed and
the hash table. Each of its steps is a step of the world with the set, and it
can go on until there are no more queries or the segment refuses the table an
allocation.
-/

import ChangeSql.Resume
import ChangeSql.TableRoom

namespace ChangeSql

open FreshRuns
open FlatHashTable (HoldsSet slotsOf)
open SharedTable (Keeps)

def Process.forget : Process → Process
  | down segment => down segment.forget
  | ready builder => ready builder.forget
  | holding builder query => holding builder.forget query
  | executed builder => executed builder.forget
  | committing builder made left => committing builder.forget made left
  | stopped builder => stopped builder.forget

structure SharedWorld where
  process : Process
  log : List Statement
  inserted : FlatHashTable UInt64

def SharedWorld.fresh : SharedWorld :=
  { process := .down Segment.fresh
    log := []
    inserted := FlatHashTable.empty }

section

variable (hash : UInt64 → UInt64) (allocator : FlatHash.Allocator) (kills : Process → Prop)
  {runtime : Runtime} {schema : Schema} (files : List (Csv runtime schema))

/-- The steps of the loop, with kills in these states. The table stays where it
is when a process is killed. -/
inductive SharedStep : SharedWorld → SharedWorld → Prop where
  | start {segment : Segment} {log : List Statement} {inserted after : FlatHashTable UInt64}
      (memory : Nat → Bytes) (sized : ∀ i, 0 < (memory i).length)
      {builder : QueryBuilder Statement}
      (created : SharedTable.create hash allocator Builders.symbolic schema segment memory
        (files.map Csv.bytes) inserted = .ok (builder, after)) :
      SharedStep ⟨.down segment, log, inserted⟩ ⟨.ready builder, log, after⟩
  | query {builder next : QueryBuilder Statement} {query : Statement} {log : List Statement}
      {inserted after : FlatHashTable UInt64}
      (called : SharedTable.nextQuery hash allocator Builders.symbolic runtime builder inserted =
        .ok (query, next, after))
      (more : query ≠ .empty) :
      SharedStep ⟨.ready builder, log, inserted⟩ ⟨.holding next query, log, after⟩
  | stop {builder next : QueryBuilder Statement} {log : List Statement}
      {inserted after : FlatHashTable UInt64}
      (called : SharedTable.nextQuery hash allocator Builders.symbolic runtime builder inserted =
        .ok (.empty, next, after)) :
      SharedStep ⟨.ready builder, log, inserted⟩ ⟨.stopped next, log, after⟩
  | execute {builder : QueryBuilder Statement} {query : Statement} {log : List Statement}
      {inserted : FlatHashTable UInt64} :
      SharedStep ⟨.holding builder query, log, inserted⟩
        ⟨.executed builder, log ++ [query], inserted⟩
  | commit {builder : QueryBuilder Statement} {stores : List Store} {log : List Statement}
      {inserted : FlatHashTable UInt64}
      (called : builder.commitStores Builders.symbolic = .ok stores) :
      SharedStep ⟨.executed builder, log, inserted⟩ ⟨.committing builder [] stores, log, inserted⟩
  | store {builder : QueryBuilder Statement} {made left : List Store} {store : Store}
      {log : List Statement} {inserted : FlatHashTable UInt64} :
      SharedStep ⟨.committing builder made (store :: left), log, inserted⟩
        ⟨.committing builder (made ++ [store]) left, log, inserted⟩
  | committed {builder : QueryBuilder Statement} {made : List Store} {log : List Statement}
      {inserted : FlatHashTable UInt64} :
      SharedStep ⟨.committing builder made [], log, inserted⟩
        ⟨.ready { builder with segment := made.foldl Segment.store builder.segment }, log,
          inserted⟩
  | kill {process : Process} {log : List Statement} {inserted : FlatHashTable UInt64}
      (killed : kills process) :
      SharedStep ⟨process, log, inserted⟩ ⟨.down process.segment, log, inserted⟩

def SharedReachable (shared : SharedWorld) : Prop :=
  Relation.ReflTransGen (SharedStep hash allocator kills files) SharedWorld.fresh shared

/-- The next call throws, since so many slots are refused. -/
inductive SharedThrows : SharedWorld → Prop where
  | start {segment : Segment} {log : List Statement} {inserted left : FlatHashTable UInt64}
      {slots : Nat} (memory : Nat → Bytes) (sized : ∀ i, 0 < (memory i).length)
      (thrown : SharedTable.create hash allocator Builders.symbolic schema segment memory
        (files.map Csv.bytes) inserted = .error (.badAlloc slots left))
      (refused : allocator.grants slots = false) :
      SharedThrows ⟨.down segment, log, inserted⟩
  | query {builder : QueryBuilder Statement} {log : List Statement}
      {inserted left : FlatHashTable UInt64} {slots : Nat}
      (thrown : SharedTable.nextQuery hash allocator Builders.symbolic runtime builder inserted =
        .error (.badAlloc slots left))
      (refused : allocator.grants slots = false) :
      SharedThrows ⟨.ready builder, log, inserted⟩

end

section

variable {hash : UInt64 → UInt64} {allocator : FlatHash.Allocator} {runtime : Runtime}
  {schema : Schema} {files : List (Csv runtime schema)} {kills : Process → Prop}
  {world : World} {shared after : SharedWorld}

theorem SharedStep.mono {more : Process → Prop}
    (step : SharedStep hash allocator kills files shared after)
    (fewer : ∀ process, kills process → more process) :
    SharedStep hash allocator more files shared after := by
  cases step with
  | start memory sized created => exact .start memory sized created
  | query called more => exact .query called more
  | stop called => exact .stop called
  | execute => exact .execute
  | commit called => exact .commit called
  | store => exact .store
  | committed => exact .committed
  | kill killed => exact .kill (fewer _ killed)

/-- How a world with a set and one with a table belong together. Only before
the first start can the table be smaller than what is reserved. -/
structure Represents (hash : UInt64 → UInt64) (allocator : FlatHash.Allocator) (world : World)
    (shared : SharedWorld) : Prop where
  process : shared.process = world.process.forget
  log : shared.log = world.log
  inserted : HoldsSet allocator hash world.process.segment.inserted shared.inserted
  roomy : (shared.inserted = FlatHashTable.empty ∧ ∃ segment, world.process = .down segment) ∨
    2 * INSERTED_TABLE_RESERVED_SIZE ≤ shared.inserted.bucketCount

theorem Represents.fresh : Represents hash allocator World.fresh SharedWorld.fresh :=
  ⟨rfl, rfl, HoldsSet.empty, Or.inl ⟨rfl, _, rfl⟩⟩

private theorem Process.segment_forget (process : Process) :
    process.forget.segment = process.segment.forget := by
  cases process with
  | committing builder made left => exact Segment.store_forget _ made
  | _ => rfl

def Blind (kills : Process → Prop) : Prop :=
  ∀ process, kills process.forget ↔ kills process

theorem BetweenCalls.blind : Blind BetweenCalls := by
  intro process
  cases process <;> rfl

theorem Untorn.blind : Blind Untorn := by
  intro process
  cases process <;> rfl

theorem Represents.running (represents : Represents hash allocator world shared)
    (running : ∀ segment, world.process ≠ .down segment) :
    Keeps hash allocator (2 * INSERTED_TABLE_RESERVED_SIZE) world.process.segment.inserted
      shared.inserted := by
  rcases represents.roomy with ⟨_, segment, isDown⟩ | roomy
  · exact absurd isDown (running segment)
  · exact ⟨represents.inserted, roomy⟩

private theorem Represents.of_keeps {process : Process} {log : List Statement}
    {inserted : FlatHashTable UInt64}
    (keeps : Keeps hash allocator (2 * INSERTED_TABLE_RESERVED_SIZE) process.segment.inserted
      inserted) :
    Represents hash allocator ⟨process, log⟩ ⟨process.forget, log, inserted⟩ :=
  ⟨rfl, rfl, keeps.holds, Or.inr keeps.roomy⟩

theorem SharedTable.Keeps.stored {builder : QueryBuilder Statement} {made left : List Store} {store : Store}
    {inserted : FlatHashTable UInt64}
    (keeps : Keeps hash allocator (2 * INSERTED_TABLE_RESERVED_SIZE)
      (Process.committing builder made (store :: left)).segment.inserted inserted) :
    Keeps hash allocator (2 * INSERTED_TABLE_RESERVED_SIZE)
      (Process.committing builder (made ++ [store]) left).segment.inserted inserted := by
  unfold Process.segment at keeps ⊢
  dsimp only at keeps ⊢
  rw [Segment.store_inserted] at keeps ⊢
  exact keeps

theorem Represents.settled {builder : QueryBuilder Statement} {made : List Store}
    {log : List Statement} {inserted : FlatHashTable UInt64}
    (represents : Represents hash allocator ⟨.committing builder made [], log⟩
      ⟨.committing builder.forget made [], log, inserted⟩) :
    Represents hash allocator
      ⟨.ready { builder with segment := made.foldl Segment.store builder.segment }, log⟩
      ⟨.ready { builder.forget with
        segment := made.foldl Segment.store builder.forget.segment }, log, inserted⟩ := by
  refine ⟨?_, rfl, represents.inserted, Or.inr (represents.running nofun).roomy⟩
  unfold Process.forget QueryBuilder.forget
  dsimp only
  rw [Segment.store_forget]

theorem Represents.killed {process : Process} {log : List Statement}
    {inserted : FlatHashTable UInt64}
    (represents : Represents hash allocator ⟨process, log⟩ ⟨process.forget, log, inserted⟩) :
    Represents hash allocator ⟨.down process.segment, log⟩
      ⟨.down process.forget.segment, log, inserted⟩ := by
  refine ⟨?_, rfl, represents.inserted, ?_⟩
  · exact congrArg Process.down (Process.segment_forget process)
  · rcases represents.roomy with ⟨isEmpty, _⟩ | roomy
    · exact Or.inl ⟨isEmpty, _, rfl⟩
    · exact Or.inr roomy

theorem Represents.step (blind : Blind kills) (readable : Readable files)
    (sound : Sound files world)
    (represents : Represents hash allocator world shared)
    (step : SharedStep hash allocator kills files shared after) :
    ∃ next, Step kills files world next ∧ Represents hash allocator next after := by
  rcases world with ⟨process, log⟩
  have same := represents.process
  have sameLog := represents.log
  cases step with
  | @start _ _ inserted _ memory sized _ created =>
      cases process with
      | down segment =>
          cases same
          cases sameLog
          have holds : HoldsSet allocator hash segment.inserted inserted := represents.inserted
          cases sound with
          | down durable =>
              rcases durable.start sized with ⟨builder, createdIs, alive⟩
              rw [SharedTable.create_forget createdIs] at created
              rcases SharedTable.reserve_keeps holds with
                ⟨failure, thrown, _⟩ | ⟨table, tableIs, keeps⟩
              · rw [thrown] at created
                cases created
              · rw [tableIs] at created
                cases created
                refine ⟨_, .start memory sized createdIs, .of_keeps ?_⟩
                rw [← QueryBuilder.create_segment createdIs] at keeps
                exact keeps
      | _ => cases same
  | query called more =>
      cases process with
      | ready builder =>
          cases same
          cases sameLog
          cases sound with
          | ready alive =>
              rcases SharedTable.nextQuery_answers readable Builders.symbolic_lawful
                alive.simulates (represents.running nofun) with ⟨next, calledIs, _, answers⟩
              rw [called] at answers
              cases answers with
              | ok keeps _ => exact ⟨_, .query calledIs more, .of_keeps keeps⟩
      | _ => cases same
  | stop called =>
      cases process with
      | ready builder =>
          cases same
          cases sameLog
          cases sound with
          | ready alive =>
              rcases SharedTable.nextQuery_answers readable Builders.symbolic_lawful
                alive.simulates (represents.running nofun) with ⟨next, calledIs, _, answers⟩
              rw [called] at answers
              generalize (Emitter.emit files _).1.build Builders.symbolic = statement
                at calledIs answers
              cases answers with
              | ok keeps _ => exact ⟨_, .stop calledIs, .of_keeps keeps⟩
      | _ => cases same
  | execute =>
      cases process with
      | holding builder query =>
          cases same
          cases sameLog
          exact ⟨_, .execute, .of_keeps (represents.running nofun)⟩
      | _ => cases same
  | commit called =>
      cases process with
      | executed builder =>
          cases same
          cases sameLog
          exact ⟨_, .commit called, .of_keeps (represents.running nofun)⟩
      | _ => cases same
  | store =>
      cases process with
      | committing builder made left =>
          cases same
          cases sameLog
          exact ⟨_, .store, .of_keeps (represents.running nofun).stored⟩
      | _ => cases same
  | committed =>
      cases process with
      | committing builder made left =>
          cases same
          cases sameLog
          exact ⟨_, .committed, represents.settled⟩
      | _ => cases same
  | kill killed =>
      cases same
      cases sameLog
      exact ⟨_, .kill ((blind _).mp killed), represents.killed⟩

theorem SharedReachable.represented (readable : Readable files) (nonempty : files ≠ [])
    (reachable : SharedReachable hash allocator BetweenCalls files shared) :
    ∃ world, Reachable BetweenCalls files world ∧ Represents hash allocator world shared := by
  induction reachable with
  | refl => exact ⟨_, .refl, .fresh⟩
  | tail _ step ih =>
      rcases ih with ⟨world, reachable, represents⟩
      have sound : Sound files world :=
        Reachable.sound readable nonempty BetweenCalls.untorn reachable
      rcases represents.step BetweenCalls.blind readable sound step with ⟨next, stepped, nextRepresents⟩
      exact ⟨next, reachable.tail stepped, nextRepresents⟩

/-- The loop with the table follows the one with the set, or its memory is not
enough. -/
theorem Represents.follow {next : World} (blind : Blind kills) (readable : Readable files)
    (sound : Sound files world) (represents : Represents hash allocator world shared)
    (step : Step kills files world next) :
    SharedThrows hash allocator files shared ∨
      ∃ after, SharedStep hash allocator kills files shared after ∧
        Represents hash allocator next after := by
  rcases shared with ⟨process, log, inserted⟩
  have same : process = _ := represents.process
  subst same
  have sameLog : log = _ := represents.log
  subst sameLog
  cases step with
  | @start segment _ memory sized builder created =>
      have holds : HoldsSet allocator hash segment.inserted inserted := represents.inserted
      have begun : SharedTable.create hash allocator Builders.symbolic schema segment.forget memory
          (files.map Csv.bytes) inserted = _ := SharedTable.create_forget created
      rcases SharedTable.reserve_keeps holds with
        ⟨failure, thrown, refused⟩ | ⟨table, tableIs, keeps⟩
      · rw [thrown] at begun
        cases refused with
        | badAlloc few refused => exact Or.inl (.start memory sized begun refused)
      · rw [tableIs] at begun
        rw [← QueryBuilder.create_segment created] at keeps
        exact Or.inr ⟨_, .start memory sized begun, .of_keeps keeps⟩
  | @query builder _ _ _ called more =>
      cases sound with
      | ready alive =>
          rcases SharedTable.nextQuery_answers readable Builders.symbolic_lawful alive.simulates
            (represents.running nofun) with ⟨other, otherCalled, _, answers⟩
          rw [called, Except.ok.injEq, Prod.mk.injEq] at otherCalled
          rw [← otherCalled.1, ← otherCalled.2] at answers
          generalize going : SharedTable.nextQuery hash allocator Builders.symbolic runtime
            builder.forget inserted = result at answers
          cases answers with
          | ok keeps _ => exact Or.inr ⟨_, .query going more, .of_keeps keeps⟩
          | thrown refused _ =>
              cases refused with
              | badAlloc few refused => exact Or.inl (.query going refused)
  | @stop builder _ _ called =>
      cases sound with
      | ready alive =>
          rcases SharedTable.nextQuery_answers readable Builders.symbolic_lawful alive.simulates
            (represents.running nofun) with ⟨other, otherCalled, _, answers⟩
          rw [called, Except.ok.injEq, Prod.mk.injEq] at otherCalled
          rw [← otherCalled.1, ← otherCalled.2] at answers
          generalize going : SharedTable.nextQuery hash allocator Builders.symbolic runtime
            builder.forget inserted = result at answers
          cases answers with
          | ok keeps _ => exact Or.inr ⟨_, .stop going, .of_keeps keeps⟩
          | thrown refused _ =>
              cases refused with
              | badAlloc few refused => exact Or.inl (.query going refused)
  | execute => exact Or.inr ⟨_, .execute, .of_keeps (represents.running nofun)⟩
  | commit called => exact Or.inr ⟨_, .commit called, .of_keeps (represents.running nofun)⟩
  | store => exact Or.inr ⟨_, .store, .of_keeps (represents.running nofun).stored⟩
  | committed => exact Or.inr ⟨_, .committed, represents.settled⟩
  | kill killed =>
      exact Or.inr ⟨_, .kill ((blind _).mpr killed), represents.killed⟩

theorem Represents.progress (represents : Represents hash allocator world shared)
    (readable : Readable files) (sound : Sound files world) :
    (∃ builder, shared.process = .stopped builder) ∨ SharedThrows hash allocator files shared ∨
      ∃ after, SharedStep hash allocator (fun _ => False) files shared after := by
  have goesOn : (∃ builder, world.process = .stopped builder) ∨
      ∃ next, Step (fun _ => False) files world next := sound.progress readable
  rcases goesOn with ⟨builder, stopped⟩ | ⟨next, step⟩
  · have same := represents.process
    rw [stopped] at same
    exact Or.inl ⟨_, same⟩
  · rcases represents.follow (fun _ => Iff.rfl) readable sound step with
      throws | ⟨after, stepped, _⟩
    · exact Or.inr (Or.inl throws)
    · exact Or.inr (Or.inr ⟨after, stepped⟩)

/-- A table that is granted for every number of hashes that there can be does
not throw. -/
theorem Represents.not_throws (readable : Readable files) (sound : Sound files world)
    (represents : Represents hash allocator world shared)
    (granted : ∀ bits ≤ max 24 ((allRecords files).length + 2),
      allocator.grants (slotsOf bits) = true) :
    ¬ SharedThrows hash allocator files shared := by
  have few := Finset.card_le_card sound.inserted_subset
  have records := keysOf_allRecords_card files
  rcases world with ⟨process, log⟩
  have same := represents.process
  intro throws
  cases throws with
  | @start _ _ inserted _ _ memory sized thrown _ =>
      cases process with
      | down segment =>
          cases same
          have holds : HoldsSet allocator hash segment.inserted inserted := represents.inserted
          change segment.inserted.card ≤ _ at few
          cases sound with
          | down durable =>
              rcases durable.start sized with ⟨builder, created, _⟩
              rw [SharedTable.create_forget created] at thrown
              rcases SharedTable.reserve_keeps holds with ⟨failure, _, refused⟩ | ⟨table, tableIs, _⟩
              · refine FlatHashTable.not_refused ?_ refused
                exact fun bits le => granted bits (by omega)
              · rw [tableIs] at thrown
                cases thrown
      | _ => cases same
  | @query _ _ inserted _ _ thrown _ =>
      cases process with
      | ready builder =>
          cases same
          have keeps := represents.running nofun
          cases sound with
          | ready alive =>
              rcases alive.nextQuery readable with ⟨next, later, called, durable, _⟩
              rcases SharedTable.nextQuery_answers readable Builders.symbolic_lawful
                alive.simulates keeps with ⟨other, otherCalled, _, answers⟩
              rw [called, Except.ok.injEq, Prod.mk.injEq] at otherCalled
              rw [thrown, ← otherCalled.2] at answers
              have nextFew := Finset.card_le_card durable.inserted_subset
              cases answers with
              | thrown refused _ =>
                  refine FlatHashTable.not_refused ?_ refused
                  exact fun bits le => granted bits (by omega)
      | _ => cases same

/-! ### Results -/

/-- Every world with a hash table in shared memory, whatever `std::hash` is,
does what a world with a set does, and it can go on as long as the segment
grants what the table asks for. If it grants every size that the hashes of the
files can lead to, no call throws, and the table can go wherever the set can. -/
theorem sharedWorld_refines (hash : UInt64 → UInt64) (allocator : FlatHash.Allocator)
    (readable : Readable files) (nonempty : files ≠ []) :
    (∀ shared, SharedReachable hash allocator BetweenCalls files shared →
      (∃ world, Reachable BetweenCalls files world ∧ Represents hash allocator world shared) ∧
      ((∃ builder, shared.process = .stopped builder) ∨
        SharedThrows hash allocator files shared ∨
        ∃ after, SharedStep hash allocator (fun _ => False) files shared after)) ∧
    ((∀ bits ≤ max 24 ((allRecords files).length + 2), allocator.grants (slotsOf bits) = true) →
      (∀ shared, SharedReachable hash allocator BetweenCalls files shared →
        ¬ SharedThrows hash allocator files shared) ∧
      ∀ world, Reachable BetweenCalls files world →
        ∃ shared, SharedReachable hash allocator BetweenCalls files shared ∧
          Represents hash allocator world shared) := by
  have soundOf {world : World} (reachable : Reachable BetweenCalls files world) :
      Sound files world :=
    reachable.sound readable nonempty BetweenCalls.untorn
  constructor
  · intro shared reachable
    rcases reachable.represented readable nonempty with ⟨world, worldReachable, represents⟩
    exact ⟨⟨world, worldReachable, represents⟩,
      represents.progress readable (soundOf worldReachable)⟩
  · intro granted
    constructor
    · intro shared reachable
      rcases reachable.represented readable nonempty with ⟨world, worldReachable, represents⟩
      exact represents.not_throws readable (soundOf worldReachable) granted
    · intro world reachable
      induction reachable with
      | refl => exact ⟨_, .refl, .fresh⟩
      | tail earlier step ih =>
          rcases ih with ⟨shared, sharedReachable, represents⟩
          rcases represents.follow BetweenCalls.blind readable (soundOf earlier) step with
            throws | ⟨after, stepped, afterRepresents⟩
          · exact absurd throws (represents.not_throws readable (soundOf earlier) granted)
          · exact ⟨after, sharedReachable.tail stepped, afterRepresents⟩

/-- Killed behind the execution of the first batch, with two hashes in the
table, the loop can start again. -/
theorem sharedWorld_refines_sampleFiles :
    ∃ shared : SharedWorld, SharedReachable id SharedTable.sampleAllocator BetweenCalls sampleFiles shared ∧
      shared.process = .down Segment.fresh ∧
      shared.log = [.insert [[[97], [49], [48]], [[98], [49], [48]]]] ∧
      HoldsSet SharedTable.sampleAllocator id {98, 97} shared.inserted ∧
      ∃ after, SharedStep id SharedTable.sampleAllocator (fun _ => False) sampleFiles shared
        after := by
  have killed : Reachable BetweenCalls sampleFiles
      ⟨.down { Segment.fresh with inserted := {98, 97} },
        [.insert [[[97], [49], [48]], [[98], [49], [48]]]]⟩ := by
    have started : Reachable BetweenCalls sampleFiles ⟨.ready _, []⟩ :=
      .tail .refl (.start (fun _ => List.replicate 4 0) (fun _ => Nat.succ_pos 3) rfl)
    have held := started.tail (.query
      (show _ = Except.ok (Statement.insert [[[97], [49], [48]], [[98], [49], [48]]], _) from rfl)
      nofun)
    have killed := Relation.ReflTransGen.tail (held.tail .execute) (.kill trivial)
    exact killed
  have granted : ∀ bits ≤ max 24 ((allRecords sampleFiles).length + 2),
      SharedTable.sampleAllocator.grants (slotsOf bits) = true :=
    fun bits few => SharedTable.sampleAllocator_grants few
  have law := sharedWorld_refines id SharedTable.sampleAllocator sampleFiles_readable
    (List.cons_ne_nil _ _)
  rcases law.2 granted with ⟨quiet, follows⟩
  rcases follows _ killed with ⟨shared, reachable, represents⟩
  have process : shared.process = .down Segment.fresh := represents.process
  refine ⟨shared, reachable, process, represents.log, represents.inserted, ?_⟩
  rcases (law.1 shared reachable).2 with ⟨builder, stopped⟩ | throws | goesOn
  · rw [process] at stopped
    cases stopped
  · exact absurd throws (quiet shared reachable)
  · exact goesOn

end

end ChangeSql
