/-
Kills between two insertions of a hash.

Of all that `next_query` does, only the hashes outlive the process, and its
loop inserts one in a turn. A kill between two turns leaves the hashes of
records that nobody executes. The next process says those records as updates,
so that such a kill does as little harm as one between calls. An insertion is
taken as a whole here: it moves other hashes about, and one that is killed
halfway can lose one of them.
-/

import ChangeSql.ImportLoop
import ChangeSql.Library.Transitions
import ChangeSql.Resume

namespace ChangeSql

open FreshRuns NewestWins
open Transitions (Steps)

namespace QueryBuilder

/-- The segments that `next_query` goes through. After so many turns of its
loop it has stored as many hashes, unless the loop has come to its end before. -/
def PassesThrough {σ : Type} (builders : Builders σ) (runtime : Runtime)
    (builder : QueryBuilder σ) (segment : Segment) : Prop :=
  builders.isEmpty builder.insertIfNotExistsStmt = true ∧ builder.tmpRecord = [] ∧
    ∃ turns ≤ INSERT_NUM_TUPLES + 1, ∃ outcome midway,
      collect runtime turns [] builder = .ok (outcome, midway) ∧ midway.segment = segment

private theorem commitStores_length {builder : QueryBuilder Statement} {stores : List Store}
    (called : builder.commitStores Builders.symbolic = .ok stores) : stores.length ≤ 2 := by
  rcases commitStores_cases called with rfl | ⟨offset, _, rfl⟩
  · exact Nat.zero_le 2
  · exact Nat.le_refl 2

end QueryBuilder

section

variable {runtime : Runtime} {schema : Schema}

/-- The steps of the loop with kills also between two insertions of a hash, and
inside a commit as long as the cursor is not torn. -/
inductive CrashStep (files : List (Csv runtime schema)) : World → World → Prop where
  | step {before after : World} (taken : Step Untorn files before after) :
      CrashStep files before after
  | inside {builder : QueryBuilder Statement} {segment : Segment} {log : List Statement}
      (passes : builder.PassesThrough Builders.symbolic runtime segment) :
      CrashStep files ⟨.ready builder, log⟩ ⟨.down segment, log⟩

def CrashReachable (files : List (Csv runtime schema)) (world : World) : Prop :=
  Relation.ReflTransGen (CrashStep files) World.fresh world

variable {files : List (Csv runtime schema)} {log : List Statement} {segment : Segment}
  {builder : QueryBuilder Statement} {emitter : Emitter} {before after world : World}
  {c p mark : Nat}

/-! ### What is left of an interrupted call -/

/-- The hashes stored so far are those of records that follow each other, and
they leave no gap behind the mark. -/
theorem Alive.passesThrough (alive : Alive files log builder emitter c p mark)
    (readable : Readable files)
    (passes : builder.PassesThrough Builders.symbolic runtime segment) :
    builder.segment.inserted ⊆ segment.inserted ∧
      ∃ later, Durable files log segment c p later := by
  rcases passes with ⟨_, _, turns, _, outcome, midway, collected, rfl⟩
  rcases collect_collects readable turns [] alive.simulates.reads with
    ⟨_, _, collectedIs, collects⟩
  rw [collected, Except.ok.injEq, Prod.mk.injEq] at collectedIs
  rcases collectedIs with ⟨_, rfl⟩
  have upcoming := takeFresh_prefix (recordKey runtime schema) turns builder.segment.inserted
    ((allRecords files).drop emitter.pos)
  have allNew := takeFresh_allNew (recordKey runtime schema) turns builder.segment.inserted
    ((allRecords files).drop emitter.pos)
  have segmentIs := collects.segment
  generalize takeFresh (recordKey runtime schema) turns builder.segment.inserted
    ((allRecords files).drop emitter.pos) = batch at upcoming allNew segmentIs
  rw [segmentIs]
  refine ⟨Finset.subset_union_left, ?_⟩
  have durable := alive.durable
  by_cases none : batch = []
  · rw [none, keysOf_nil, Finset.union_empty]
    exact ⟨mark, durable⟩
  · rw [alive.simulates.inserted] at allNew
    have marked : Emitter.Marked (recordKey runtime schema) (allRecords files)
        { emitter with
          pos := emitter.pos + batch.length
          seen := emitter.seen ∪ keysOf (recordKey runtime schema) batch }
        (mark + batch.length) :=
      alive.marked.read_new none upcoming allNew rfl rfl
    rw [alive.simulates.inserted]
    exact ⟨mark + batch.length,
      { cursor := durable.cursor
        executed := durable.executed
        inserted := marked.seen
        table := durable.table
        committed := durable.committed
        hashed := Nat.le_trans durable.hashed (Nat.le_add_right _ _)
        inside := marked.inside }⟩

theorem Sound.crashStep (readable : Readable files) (sound : Sound files before)
    (step : CrashStep files before after) : Sound files after := by
  cases step with
  | step taken => exact sound.step readable (fun _ untorn => untorn) taken
  | inside passes =>
      cases sound with
      | ready alive =>
          rcases alive.passesThrough readable passes with ⟨_, later, durable⟩
          exact .down durable

theorem Sound.run (readable : Readable files) (sound : Sound files before)
    (run : Relation.ReflTransGen (CrashStep files) before after) : Sound files after := by
  induction run with
  | refl => exact sound
  | tail _ step ih => exact ih.crashStep readable step

theorem CrashReachable.sound (readable : Readable files) (nonempty : files ≠ [])
    (reachable : CrashReachable files world) : Sound files world :=
  Sound.run readable (.fresh nonempty) reachable

/-! ### How long the loop goes on -/

/-- No more steps than that are left until the loop stops. A turn of it has at
most six, of which the commit and its stores are four. -/
inductive StepsLeft (files : List (Csv runtime schema)) : World → Nat → Prop where
  | down {log : List Statement} {segment : Segment} {c p mark : Nat}
      (durable : Durable files log segment c p mark) :
      StepsLeft files ⟨.down segment, log⟩ (12 * (allRecords files).length + 2)
  | ready {log : List Statement} {builder : QueryBuilder Statement} {emitter : Emitter}
      {c p mark : Nat} (alive : Alive files log builder emitter c p mark) :
      StepsLeft files ⟨.ready builder, log⟩ (6 * emitter.remaining (allRecords files) + 1)
  | holding {log : List Statement} {builder : QueryBuilder Statement} {query : Statement}
      {before after : Emitter} {c p mark : Nat}
      (holds : Holds files log builder query before after c p mark) :
      StepsLeft files ⟨.holding builder query, log⟩ (6 * after.remaining (allRecords files) + 6)
  | executed {log : List Statement} {builder : QueryBuilder Statement} {emitter : Emitter}
      {c p mark : Nat} (alive : Alive files log builder emitter c p mark) :
      StepsLeft files ⟨.executed builder, log⟩ (6 * emitter.remaining (allRecords files) + 5)
  | committing {log : List Statement} {builder : QueryBuilder Statement} {made left : List Store}
      {emitter : Emitter} {c p mark : Nat} (alive : Alive files log builder emitter c p mark)
      (stores : builder.commitStores Builders.symbolic = .ok (made ++ left)) :
      StepsLeft files ⟨.committing builder made left, log⟩
        (6 * emitter.remaining (allRecords files) + 2 + left.length)
  | stopped {log : List Statement} {builder : QueryBuilder Statement} :
      StepsLeft files ⟨.stopped builder, log⟩ 0

private theorem Emitter.remaining_le {records : List Record} (valid : emitter.Valid records) :
    emitter.remaining records ≤ 2 * records.length := by
  unfold remaining
  cases pending : emitter.pending with
  | none =>
      change 2 * _ + 0 ≤ _
      omega
  | some rec =>
      have settled := valid.settled_of_pending pending
      have handed := handed_of_tmp_none settled.1
      have inside := valid.inside
      have pos := settled.2.1
      change 2 * _ + 1 ≤ _
      omega

theorem Sound.stepsLeft (sound : Sound files world) :
    ∃ steps ≤ 12 * (allRecords files).length + 5, StepsLeft files world steps := by
  cases sound with
  | down durable => exact ⟨_, by omega, .down durable⟩
  | ready alive =>
      have few := Emitter.remaining_le alive.simulates.valid
      exact ⟨_, by omega, .ready alive⟩
  | holding holds =>
      have few := Emitter.remaining_le holds.valid
      have fewer := holds.emits.remaining_lt (Nat.succ_pos _) holds.valid holds.more
      exact ⟨_, by omega, .holding holds⟩
  | executed alive =>
      have few := Emitter.remaining_le alive.simulates.valid
      exact ⟨_, by omega, .executed alive⟩
  | committing alive stores =>
      have few := Emitter.remaining_le alive.simulates.valid
      have two := QueryBuilder.commitStores_length stores
      rw [List.length_append] at two
      exact ⟨_, by omega, .committing alive stores⟩
  | stopped durable ended => exact ⟨_, Nat.zero_le _, .stopped⟩

theorem StepsLeft.step (readable : Readable files) {steps : Nat}
    (left : StepsLeft files before steps) (step : Step (fun _ => False) files before after) :
    ∃ fewer < steps, StepsLeft files after fewer := by
  cases step with
  | @start segment _ memory sized _ created =>
      cases left with
      | @down _ _ c _ _ durable =>
          rcases durable.start sized with ⟨builder, createdIs, alive⟩
          rw [created] at createdIs
          cases createdIs
          have few := Emitter.remaining_start (allRecords files) c segment.inserted
          exact ⟨_, by omega, .ready alive⟩
  | query called more =>
      cases left with
      | @ready _ _ emitter _ _ _ alive =>
          rcases alive.nextQuery readable with ⟨next, later, calledIs, _, _, holds⟩
          rw [called] at calledIs
          cases calledIs
          have emits := emitter.emit_emits files
          have fewer := emits.remaining_lt (Nat.succ_pos _) alive.simulates.valid more
          exact ⟨_, by omega, .holding (holds more)⟩
  | stop called =>
      cases left with
      | ready alive => exact ⟨0, Nat.succ_pos _, .stopped⟩
  | execute =>
      cases left with
      | holding holds =>
          rcases holds.execute with ⟨later, _, alive⟩
          exact ⟨_, by omega, .executed alive⟩
  | commit called =>
      cases left with
      | executed alive =>
          have two := QueryBuilder.commitStores_length called
          exact ⟨_, by omega, .committing alive called⟩
  | @store _ made left store _ =>
      cases left with
      | committing alive stores =>
          rw [List.append_cons] at stores
          exact ⟨_, by simp, .committing alive stores⟩
  | committed =>
      cases left with
      | committing alive stores =>
          rw [List.append_nil] at stores
          rcases alive.commit stores with ⟨later, _, committed⟩
          exact ⟨_, by simp, .ready committed⟩
  | kill killed => exact absurd killed id

/-! ### Results -/

theorem sampleFiles_crashed : CrashReachable sampleFiles
    ⟨.down { inserted := {97}, committedHandleIdx := 0, committedOffset := 0 }, []⟩ := by
  refine .tail (.tail .refl (.step (.start (fun _ => List.replicate 4 0) ?_ rfl))) (.inside ?_)
  · exact fun _ => Nat.succ_pos 3
  · exact ⟨rfl, rfl, 1, by decide, _, _, rfl, rfl⟩

/-- A kill between two insertions, or in a commit short of a torn cursor, does
not show: the table is still that of a prefix of the records. -/
theorem crash_newestOfPrefix (readable : Readable files) (nonempty : files ≠ [])
    (reachable : CrashReachable files world) : ∃ p, NewestOfPrefix files world p :=
  (reachable.sound readable nonempty).newestOfPrefix

/-- Killed behind the first turn of the first call. -/
theorem crash_newestOfPrefix_sampleFiles :
    ∃ p, NewestOfPrefix sampleFiles
      ⟨.down { inserted := {97}, committedHandleIdx := 0, committedOffset := 0 }, []⟩ p :=
  crash_newestOfPrefix sampleFiles_readable (List.cons_ne_nil _ _) sampleFiles_crashed

end

end ChangeSql
