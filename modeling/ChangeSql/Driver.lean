/-
The loop around a query builder, with kills and restarts.

The loop asks for a statement, executes it and commits, until there are no
more statements. A kill leaves the segment and what has been executed. The two
stores of a commit are steps of their own; which processes can be killed is a
parameter, so that a commit can be taken as one step or as two.
-/

import ChangeSql.Replay
import Mathlib.Logic.Relation

namespace ChangeSql

open FreshRuns NewestWins
open QueryBuilder (IsBoundary)

/-- A process between two of its steps. During a commit it has the builder
from before the commit, the stores made and the stores left to make. -/
inductive Process where
  | down (segment : Segment)
  | ready (builder : QueryBuilder Statement)
  | holding (builder : QueryBuilder Statement) (query : Statement)
  | executed (builder : QueryBuilder Statement)
  | committing (builder : QueryBuilder Statement) (made left : List Store)
  | stopped (builder : QueryBuilder Statement)

def Process.segment : Process → Segment
  | down segment => segment
  | ready builder => builder.segment
  | holding builder _ => builder.segment
  | executed builder => builder.segment
  | committing builder made _ => made.foldl Segment.store builder.segment
  | stopped builder => builder.segment

structure World where
  process : Process
  log : List Statement

def World.fresh : World :=
  { process := .down Segment.fresh
    log := [] }

def World.table (schema : Schema) (world : World) : Table :=
  executeAll schema world.log

inductive Step {runtime : Runtime} {schema : Schema} (kills : Process → Prop)
    (files : List (Csv runtime schema)) : World → World → Prop where
  | start {segment : Segment} {log : List Statement} (memory : Nat → Bytes)
      (sized : ∀ i, 0 < (memory i).length) {builder : QueryBuilder Statement}
      (created : QueryBuilder.create Builders.symbolic schema segment memory
        (files.map Csv.bytes) = .ok builder) :
      Step kills files ⟨.down segment, log⟩ ⟨.ready builder, log⟩
  | query {builder next : QueryBuilder Statement} {query : Statement} {log : List Statement}
      (called : builder.nextQuery Builders.symbolic runtime = .ok (query, next))
      (more : query ≠ .empty) :
      Step kills files ⟨.ready builder, log⟩ ⟨.holding next query, log⟩
  | stop {builder next : QueryBuilder Statement} {log : List Statement}
      (called : builder.nextQuery Builders.symbolic runtime = .ok (.empty, next)) :
      Step kills files ⟨.ready builder, log⟩ ⟨.stopped next, log⟩
  | execute {builder : QueryBuilder Statement} {query : Statement} {log : List Statement} :
      Step kills files ⟨.holding builder query, log⟩ ⟨.executed builder, log ++ [query]⟩
  | commit {builder : QueryBuilder Statement} {stores : List Store} {log : List Statement}
      (called : builder.commitStores Builders.symbolic = .ok stores) :
      Step kills files ⟨.executed builder, log⟩ ⟨.committing builder [] stores, log⟩
  | store {builder : QueryBuilder Statement} {made left : List Store} {store : Store}
      {log : List Statement} :
      Step kills files ⟨.committing builder made (store :: left), log⟩
        ⟨.committing builder (made ++ [store]) left, log⟩
  | committed {builder : QueryBuilder Statement} {made : List Store} {log : List Statement} :
      Step kills files ⟨.committing builder made [], log⟩
        ⟨.ready { builder with segment := made.foldl Segment.store builder.segment }, log⟩
  | kill {process : Process} {log : List Statement} (killed : kills process) :
      Step kills files ⟨process, log⟩ ⟨.down process.segment, log⟩

def Reachable {runtime : Runtime} {schema : Schema} (kills : Process → Prop)
    (files : List (Csv runtime schema)) (world : World) : Prop :=
  Relation.ReflTransGen (Step kills files) World.fresh world

/-- Kills fall between calls, and a commit is a call. -/
def BetweenCalls : Process → Prop
  | .committing _ _ _ => False
  | _ => True

namespace QueryBuilder

def cursorHandleIdx (builder : QueryBuilder Statement) : UInt8 :=
  if builder.tmpRecord.isEmpty then builder.handleIdx else builder.tmpHandleIdx

def cursorOffset (builder : QueryBuilder Statement) : Option Nat :=
  if builder.tmpRecord.isEmpty then
    builder.csvHandles[builder.handleIdx.toNat]?.map BufferedReader.offset
  else some builder.tmpOffset

def MovesBoth (builder : QueryBuilder Statement) : Prop :=
  builder.cursorHandleIdx ≠ builder.segment.committedHandleIdx ∧
    builder.cursorOffset ≠ some builder.segment.committedOffset

theorem commitStores_cases {builder : QueryBuilder Statement} {stores : List Store}
    (called : builder.commitStores Builders.symbolic = .ok stores) :
    stores = [] ∨ ∃ offset, builder.cursorOffset = some offset ∧
      stores = [.committedHandleIdx builder.cursorHandleIdx, .committedOffset offset] := by
  unfold commitStores at called
  unfold cursorHandleIdx cursorOffset
  split at called
  · cases called
    exact Or.inl rfl
  · split at called
    · rename_i noRecord
      rw [if_pos noRecord, if_pos noRecord]
      unfold handle at called
      split at called
      · rename_i reader atIndex
        cases called
        refine Or.inr ⟨reader.offset, ?_, rfl⟩
        rw [atIndex]
        rfl
      · cases called
    · rename_i record
      rw [if_neg record, if_neg record]
      cases called
      exact Or.inr ⟨builder.tmpOffset, rfl, rfl⟩

end QueryBuilder

/-- The segment holds the cursor from before the commit or the one that the
commit stores, wherever in the commit the process is. -/
def Untorn : Process → Prop
  | .committing builder made left => made = [] ∨ left = [] ∨ ¬ builder.MovesBoth
  | _ => True

section

variable {runtime : Runtime} {schema : Schema} {files : List (Csv runtime schema)}
  {kills : Process → Prop} {builder next : QueryBuilder Statement} {log : List Statement}

theorem Step.mono {more : Process → Prop} {world after : World}
    (step : Step kills files world after)
    (fewer : ∀ process, kills process → more process) : Step more files world after := by
  cases step with
  | start memory sized created => exact .start memory sized created
  | query called more => exact .query called more
  | stop called => exact .stop called
  | execute => exact .execute
  | commit called => exact .commit called
  | store => exact .store
  | committed => exact .committed
  | kill killed => exact .kill (fewer _ killed)

theorem Reachable.stores {made left : List Store}
    (reachable : Reachable kills files ⟨.committing builder made left, log⟩) :
    Reachable kills files
      ⟨.ready { builder with segment := (made ++ left).foldl Segment.store builder.segment }, log⟩ := by
  induction left generalizing made with
  | nil =>
      rw [List.append_nil]
      exact reachable.tail .committed
  | cons store left ih =>
      have further := ih (reachable.tail .store)
      rw [List.append_assoc, List.singleton_append] at further
      exact further

theorem Reachable.turn (reachable : Reachable kills files ⟨.ready builder, log⟩)
    {query : Statement} (called : builder.nextQuery Builders.symbolic runtime = .ok (query, next))
    (more : query ≠ .empty) {committed : QueryBuilder Statement}
    (commits : next.commit Builders.symbolic = .ok committed) :
    Reachable kills files ⟨.ready committed, log ++ [query]⟩ := by
  unfold QueryBuilder.commit at commits
  cases storesAre : next.commitStores Builders.symbolic with
  | error fault =>
      rw [storesAre] at commits
      cases commits
  | ok stores =>
      rw [storesAre] at commits
      cases commits
      have executed := (reachable.tail (.query called more)).tail .execute
      exact Reachable.stores (executed.tail (.commit storesAre))

end

end ChangeSql
