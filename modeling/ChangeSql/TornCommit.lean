/-
Kills in the middle of a commit.

The cursor is two words and a commit stores one after the other. Between the
two stores the segment has a cursor of neither state if both words are new.
Such a cursor can lie behind records that nothing has carried.
-/

import ChangeSql.Resume
import Mathlib.Tactic.IntervalCases

namespace ChangeSql

open QueryBuilder (IsBoundary)

section

variable {runtime : Runtime} {schema : Schema} {files : List (Csv runtime schema)}

/-- What a kill in this state leaves is the cursor from before the commit or
the one that it stores, and everything in front of it has been executed. -/
structure WholeCursor (files : List (Csv runtime schema)) (world : World) : Prop where
  either : ∀ builder made left, world.process = .committing builder made left →
    world.process.segment.cursor = builder.segment.cursor ∨
      world.process.segment.cursor =
        ((made ++ left).foldl Segment.store builder.segment).cursor
  executed : ∃ c,
    IsBoundary files world.process.segment.committedHandleIdx.toNat
      world.process.segment.committedOffset c ∧
    Executed files world.log c

/-- In the middle of a commit that moves both words, the cursor is neither. -/
theorem commit_torn {builder : QueryBuilder Statement} {made left : List Store}
    (called : builder.commitStores Builders.symbolic = .ok (made ++ left))
    (torn : ¬ Untorn (.committing builder made left)) :
    (made.foldl Segment.store builder.segment).cursor ≠ builder.segment.cursor ∧
      (made.foldl Segment.store builder.segment).cursor ≠
        ((made ++ left).foldl Segment.store builder.segment).cursor := by
  unfold Untorn at torn
  rw [not_or, not_or, not_not] at torn
  rcases torn with ⟨someMade, someLeft, moves⟩
  rcases QueryBuilder.commitStores_cases called with none | ⟨offset, offsetIs, storesAre⟩
  · exact absurd (List.append_eq_nil_iff.mp none).1 someMade
  · rcases List.exists_cons_of_ne_nil someMade with ⟨first, made, rfl⟩
    rcases List.exists_cons_of_ne_nil someLeft with ⟨last, left, rfl⟩
    have sizes := congrArg List.length storesAre
    simp only [List.length_append, List.length_cons, List.length_nil] at sizes
    have noMore : made = [] ∧ left = [] := by
      rw [← List.length_eq_zero_iff, ← List.length_eq_zero_iff]
      omega
    rcases noMore with ⟨rfl, rfl⟩
    cases storesAre
    rcases moves with ⟨newFile, newOffset⟩
    rw [offsetIs, ne_eq, Option.some_inj] at newOffset
    constructor
    · intro same
      exact newFile (congrArg Prod.fst same)
    · intro same
      exact newOffset (congrArg Prod.snd same).symm

/-- As long as no kill falls between the two stores of a commit that moves
both words, a kill leaves a whole cursor exactly when it does not either. -/
theorem commit_wholeCursor_iff (readable : Readable files) (nonempty : files ≠ [])
    {world : World} (reachable : Reachable Untorn files world) :
    WholeCursor files world ↔ Untorn world.process := by
  have sound := reachable.sound readable nonempty fun _ untorn => untorn
  rcases world with ⟨process, log⟩
  constructor
  · intro whole
    by_contra torn
    cases sound with
    | committing alive stores =>
        rcases commit_torn stores torn with ⟨notBefore, notAfter⟩
        rcases whole.either _ _ _ rfl with before | after
        · exact notBefore before
        · exact notAfter after
    | _ => exact torn trivial
  · intro untorn
    rcases sound.durable untorn with ⟨c, p, mark, durable⟩
    refine ⟨?_, c, durable.cursor, durable.executed⟩
    rintro builder made left rfl
    cases sound with
    | committing alive stores =>
        exact (made_untorn stores untorn).imp (congrArg Segment.cursor) (congrArg Segment.cursor)

end

/-! ### A torn commit that skips a record -/

/-- The second file starts with two newer versions of the first record. -/
def tornFiles : List (Csv sampleRuntime sampleSchema) :=
  [[sampleLine 99 49 48 (by decide) (by decide), sampleLine 100 49 48 (by decide) (by decide)],
    [sampleLine 99 50 49 (by decide) (by decide), sampleLine 99 51 50 (by decide) (by decide)]]

def tornLog : List Statement :=
  [.insert [[[99], [49], [48]], [[100], [49], [48]]], .update [[99], [50], [49]],
    .insertWhereNotExists [[99], [50], [49]]]

private theorem tornFiles_readable : Readable tornFiles := by
  refine ⟨by decide, ?_⟩
  intro later member
  rcases List.mem_cons.mp member with rfl | member
  · exact List.cons_ne_nil _ _
  · cases List.mem_singleton.mp member
    exact List.cons_ne_nil _ _

private theorem tornFiles_reachable (kills : Process → Prop) :
    ∃ builder, Reachable kills tornFiles
        ⟨.committing builder [.committedHandleIdx 1] [.committedOffset 6], tornLog⟩ ∧
      builder.segment.cursor = (0, 12) := by
  have started : Reachable kills tornFiles ⟨.ready _, []⟩ :=
    .tail .refl (.start (fun _ => List.replicate 4 0) sampleMemory_sized rfl)
  have inserted := Reachable.turn started
    (show _ = Except.ok (Statement.insert [[[99], [49], [48]], [[100], [49], [48]]], _) from rfl)
    nofun rfl
  have updated := Reachable.turn inserted
    (show _ = Except.ok (Statement.update [[99], [50], [49]], _) from rfl) nofun rfl
  have held := Relation.ReflTransGen.tail updated (.query
    (show _ = Except.ok (Statement.insertWhereNotExists [[99], [50], [49]], _) from rfl) nofun)
  exact ⟨_, ((held.tail .execute).tail (.commit rfl)).tail .store, rfl⟩

theorem commit_wholeCursor_iff_tornFiles : ∃ builder,
    WholeCursor tornFiles
        ⟨.committing builder [.committedHandleIdx 1] [.committedOffset 6], tornLog⟩ ↔
      Untorn (.committing builder [.committedHandleIdx 1] [.committedOffset 6]) := by
  rcases tornFiles_reachable Untorn with ⟨builder, reachable, _⟩
  exact ⟨builder, commit_wholeCursor_iff tornFiles_readable (List.cons_ne_nil _ _) reachable⟩

/-- A kill between the two stores leaves offset 12 of the second file, which
is behind a record that nothing has carried. -/
theorem commit_not_wholeCursor_tornFiles :
    ∃ segment, Reachable (fun _ => True) tornFiles ⟨.down segment, tornLog⟩ ∧
      segment.cursor = (1, 12) ∧ ¬ WholeCursor tornFiles ⟨.down segment, tornLog⟩ := by
  rcases tornFiles_reachable fun _ => True with ⟨builder, reachable, cursor⟩
  have offset : builder.segment.committedOffset = 12 := congrArg Prod.snd cursor
  refine ⟨_, reachable.tail (.kill trivial), ?_, ?_⟩
  · change (1, builder.segment.committedOffset) = _
    rw [offset]
  · rintro ⟨_, c, ⟨file, k, atFile, line, boundary, rfl⟩, executed⟩
    change tornFiles[1]? = some file at atFile
    change builder.segment.committedOffset = _ at boundary
    cases atFile
    have behind : k = 2 := by
      rw [offset] at boundary
      change k ≤ 2 at line
      interval_cases k
      · cases boundary
      · cases boundary
      · rfl
    subst behind
    have inFront : [[99], [51], [50]] ∈ (allRecords tornFiles).take 4 := by decide
    have carries := executed.complete [[99], [51], [50]] inFront
    have missing : [[99], [51], [50]] ∉ tornLog.flatMap Statement.carried := by decide
    exact missing carries.mem_carried

end ChangeSql
