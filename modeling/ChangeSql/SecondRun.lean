/-
What another run over the same shared memory makes up for.

When the loop has stopped once, the records of a last unfinished batch may be
in no statement, but their hashes are in the segment. So no process that is
started later gathers a batch: it says each record behind the cursor as an
update and its insert, up to the last one. When it stops, nothing is missing.
-/

import ChangeSql.Crashes
import ChangeSql.SharedTable

namespace ChangeSql

open FreshRuns NewestWins

section

variable {runtime : Runtime} {schema : Schema} {files : List (Csv runtime schema)}
  {before after : World}

private theorem Emitter.Emits.seen_subset {key : Record → UInt64} {records : List Record}
    {room : Nat} {emitter next : Emitter} {statement : Statement}
    (emits : Emits key records room emitter statement next) : emitter.seen ⊆ next.seen := by
  cases emits with
  | complete rec pending => exact Finset.Subset.refl _
  | deferred rec pending tmp => exact Finset.Subset.refl _
  | full batch pending tmp upcoming allNew size => exact Finset.subset_union_left
  | exhausted batch pending tmp upcoming allNew size => exact Finset.subset_union_left
  | known rec pending tmp upcoming old => exact Finset.Subset.refl _
  | batched batch rec pending tmp some upcoming allNew size old => exact Finset.subset_union_left

def AllHashed (files : List (Csv runtime schema)) (process : Process) : Prop :=
  process.segment.inserted = keysOf (recordKey runtime schema) (allRecords files)

/-- A process that stops has hashed all records, whichever process did it. -/
theorem Sound.stop_inserted (readable : Readable files) {builder next : QueryBuilder Statement}
    {log : List Statement} (sound : Sound files ⟨.ready builder, log⟩)
    (called : builder.nextQuery Builders.symbolic runtime = .ok (.empty, next)) :
    next.segment.inserted = keysOf (recordKey runtime schema) (allRecords files) := by
  cases sound with
  | @ready _ _ emitter _ _ _ alive =>
      rcases nextQuery_simulates readable Builders.symbolic_lawful alive.simulates with
        ⟨next, calledIs, simulates, _⟩
      rw [called, Except.ok.injEq, Prod.mk.injEq, Statement.build_symbolic] at calledIs
      rcases calledIs with ⟨last, rfl⟩
      have emits := emitter.emit_emits files
      rcases emits.marked (Nat.succ_pos _) alive.marked with ⟨mark, _, marked, _⟩
      rw [← last] at emits
      have atEnd := (emits.ended alive.simulates.valid).pos
      have all : mark = (allRecords files).length :=
        Nat.le_antisymm marked.inside (atEnd ▸ marked.read)
      rw [simulates.inserted, marked.seen, all, List.take_length]

theorem AllHashed.nextQuery {log : List Statement} {builder next : QueryBuilder Statement}
    {query : Statement} (readable : Readable files)
    (sound : Sound files ⟨.ready builder, log⟩) (hashed : AllHashed files (.ready builder))
    (called : builder.nextQuery Builders.symbolic runtime = .ok (query, next)) :
    AllHashed files (.ready next) := by
  cases sound with
  | @ready _ _ emitter c p mark alive =>
      rcases nextQuery_simulates readable Builders.symbolic_lawful alive.simulates with
        ⟨_, calledIs, simulates, _⟩
      rw [called, Except.ok.injEq, Prod.mk.injEq] at calledIs
      rcases calledIs with ⟨_, rfl⟩
      have emits := emitter.emit_emits files
      rcases emits.marked (Nat.succ_pos _) alive.marked with ⟨later, _, marked, _⟩
      have grows := emits.seen_subset
      rw [← alive.simulates.inserted, ← simulates.inserted] at grows
      change builder.segment.inserted = _ at hashed
      change next.segment.inserted = _
      apply Finset.Subset.antisymm
      · rw [simulates.inserted, marked.seen]
        exact keysOf_take_subset files later
      · rw [← hashed]
        exact grows

theorem AllHashed.step {kills : Process → Prop} (readable : Readable files)
    (sound : Sound files before) (hashed : AllHashed files before.process)
    (step : Step kills files before after) : AllHashed files after.process := by
  cases step with
  | start memory sized created =>
      unfold AllHashed at hashed ⊢
      change _ = _ at hashed
      rw [← hashed]
      exact congrArg Segment.inserted (QueryBuilder.create_segment created)
  | query called more => exact hashed.nextQuery readable sound called
  | stop called => exact hashed.nextQuery readable sound called
  | execute => exact hashed
  | commit called => exact hashed
  | store =>
      unfold AllHashed Process.segment at hashed ⊢
      dsimp only at hashed ⊢
      rw [Segment.store_inserted] at hashed ⊢
      exact hashed
  | committed => exact hashed
  | kill killed => exact hashed

theorem AllHashed.crashStep (readable : Readable files) (sound : Sound files before)
    (hashed : AllHashed files before.process) (step : CrashStep files before after) :
    AllHashed files after.process := by
  cases step with
  | step taken => exact hashed.step readable sound taken
  | @inside builder segment _ passes =>
      cases sound with
      | ready alive =>
          rcases alive.passesThrough readable passes with ⟨grows, later, durable⟩
          change builder.segment.inserted = _ at hashed
          change segment.inserted = _
          apply Finset.Subset.antisymm
          · rw [durable.inserted]
            exact keysOf_take_subset files later
          · rw [← hashed]
            exact grows

theorem AllHashed.run (readable : Readable files) (sound : Sound files before)
    (hashed : AllHashed files before.process)
    (run : Relation.ReflTransGen (CrashStep files) before after) :
    Sound files after ∧ AllHashed files after.process := by
  induction run with
  | refl => exact ⟨sound, hashed⟩
  | tail _ step ih =>
      rcases ih with ⟨middleSound, middleHashed⟩
      exact ⟨middleSound.crashStep readable step,
        middleHashed.crashStep readable middleSound step⟩

/-- A process that finds all hashes in the segment stops behind the last record
only, with nothing owed. -/
theorem AllHashed.ended {log : List Statement} {builder next : QueryBuilder Statement}
    (readable : Readable files) (sound : Sound files ⟨.ready builder, log⟩)
    (hashed : AllHashed files (.ready builder))
    (called : builder.nextQuery Builders.symbolic runtime = .ok (.empty, next)) :
    ∃ emitter p, Tracks schema (allRecords files) log emitter p ∧ emitter.Idle ∧
      emitter.pos = (allRecords files).length ∧ p ≤ (allRecords files).length := by
  cases sound with
  | @ready _ _ emitter c p mark alive =>
      rcases alive.nextQuery readable with ⟨_, _, calledIs, _⟩
      rw [called, Except.ok.injEq, Prod.mk.injEq] at calledIs
      have emits := emitter.emit_emits files
      rw [← calledIs.1] at emits
      refine ⟨emitter, p, alive.tracks, ?_⟩
      generalize (emitter.emit files).2 = later at emits
      cases emits with
      | exhausted batch pending tmp upcoming allNew size =>
          have none : batch = [] := by
            rw [List.eq_nil_iff_forall_not_mem]
            intro rec member
            apply allNew.new rec member
            rw [← alive.simulates.inserted]
            change builder.segment.inserted = _ at hashed
            rw [hashed, mem_keysOf]
            rw [upcoming] at member
            exact ⟨rec, List.mem_of_mem_drop member, rfl⟩
          rw [none] at upcoming
          have reached := List.drop_eq_nil_iff.mp upcoming.symm
          have inside := alive.simulates.valid.inside
          exact ⟨⟨tmp, pending⟩, Nat.le_antisymm inside reached,
            Nat.le_trans alive.durable.hashed alive.durable.inside⟩

/-- When the loop has stopped and is run again until it stops, with or without
kills, every record has been executed and the table is the one that they make. -/
theorem second_run_completes (readable : Readable files) (nonempty : files ≠ [])
    {builder later : QueryBuilder Statement} {log laterLog : List Statement}
    (reachable : CrashReachable files ⟨.stopped builder, log⟩)
    (again : Relation.TransGen (CrashStep files) ⟨.stopped builder, log⟩
      ⟨.stopped later, laterLog⟩) :
    executeAll schema laterLog = schema.newest (allRecords files) ∧
      (allRecords files).Sublist (laterLog.flatMap Statement.carried) ∧
      ∀ rec ∈ allRecords files, Carries laterLog rec := by
  have sound := reachable.sound readable nonempty
  have hashed : AllHashed files (.stopped builder) := by
    cases reachable with
    | tail before last =>
        have beforeSound := CrashReachable.sound readable nonempty before
        cases last with
        | step taken =>
            cases taken with
            | stop called => exact beforeSound.stop_inserted readable called
  rcases Relation.TransGen.tail'_iff.mp again with ⟨before, run, last⟩
  rcases AllHashed.run readable sound hashed run with ⟨beforeSound, beforeHashed⟩
  cases last with
  | step taken =>
      cases taken with
      | stop called =>
          rcases beforeHashed.ended readable beforeSound called with
            ⟨emitter, p, tracks, idle, atEnd, inside⟩
          have settled := idle.settled
          have handed := Emitter.handed_of_tmp_none idle.1
          have reached := tracks.settled
          have complete := tracks.complete
          have carried := tracks.carried
          rw [settled, atEnd, List.take_length] at complete
          rw [handed, atEnd, List.take_length] at carried
          refine ⟨?_, carried, complete⟩
          rw [tracks.table, List.take_of_length_le (by omega)]

end

/-- The only record, which the first run loses. -/
theorem second_run_completes_single : ∃ laterLog : List Statement,
    executeAll sampleSchema laterLog = sampleSchema.newest (allRecords (sampleFiles.take 1)) ∧
      (allRecords (sampleFiles.take 1)).Sublist (laterLog.flatMap Statement.carried) ∧
      ∀ rec ∈ allRecords (sampleFiles.take 1), Carries laterLog rec := by
  have readable : Readable (sampleFiles.take 1) :=
    ⟨by decide, fun later member =>
      sampleFiles_readable.nonempty later (List.mem_of_mem_take member)⟩
  exact ⟨_, second_run_completes readable (List.cons_ne_nil _ _)
    (.tail (.tail .refl (.step (.start _ sampleMemory_sized rfl))) (.step (.stop rfl)))
    (.tail (.tail (.tail (.tail (.tail (.tail (.tail (.tail (.tail (.tail (.tail (.tail
      (.single (.step (.kill trivial))) (.step (.start _ sampleMemory_sized rfl))) (.step (.query rfl nofun)))
      (.step .execute)) (.step (.commit rfl))) (.step .committed)) (.step (.query rfl nofun)))
      (.step .execute)) (.step (.commit rfl))) (.step .store)) (.step .store))
      (.step .committed)) (.step (.stop rfl)))⟩

end ChangeSql
