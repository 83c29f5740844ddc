/-
What is said until `next_query` has no more queries.

The loop of `next_query` forgets the records it has gathered when the input
ends under it. They are those behind the last full batch or known record, so
nothing is lost just when the run of new keys at the end of the input fills
its last batch.
-/

import ChangeSql.Calls

namespace ChangeSql

open FreshRuns

def QueryBuilder.Drains {σ : Type} (builders : Builders σ) (runtime : Runtime)
    (builder : QueryBuilder σ) (returned : List σ) : Prop :=
  ∃ between after last,
    builder.run builders runtime (List.replicate returned.length .nextQuery) =
      .ok (returned, between) ∧
    (∀ statement ∈ returned, builders.isEmpty statement = false) ∧
    between.nextQuery builders runtime = .ok (last, after) ∧
    builders.isEmpty last = true

def Carries (returned : List Statement) (rec : Record) : Prop :=
  (∃ records, .insert records ∈ returned ∧ rec ∈ records) ∨
    (.update rec ∈ returned ∧ .insertWhereNotExists rec ∈ returned)

theorem Carries.mem_carried {returned : List Statement} {rec : Record}
    (carries : Carries returned rec) : rec ∈ returned.flatMap Statement.carried := by
  rw [List.mem_flatMap]
  rcases carries with ⟨records, returned, inBatch⟩ | ⟨returned, _⟩
  · exact ⟨.insert records, returned, inBatch⟩
  · exact ⟨.update rec, returned, List.mem_singleton_self rec⟩

/-! ### The run of new keys in front of the emitter -/

namespace Emitter

variable {key : Record → UInt64} {records : List Record} {room : Nat} {emitter after : Emitter}
  {statement : Statement}

/-- The keys seen are those of the records read, and the batches handed out
behind the last known record are full ones. -/
structure Fresh (key : Record → UInt64) (records : List Record) (room : Nat)
    (emitter : Emitter) : Prop where
  seen : emitter.seen = keysOf key (records.take emitter.pos)
  full : room ∣ freshTail key (records.take emitter.pos)

theorem Fresh.start : Fresh key records room (start 0 ∅) := by
  refine ⟨rfl, ?_⟩
  exact Nat.dvd_zero room

theorem Emits.fresh (emits : Emits key records room emitter statement after)
    (fresh : Fresh key records room emitter) (more : statement ≠ .empty) :
    Fresh key records room after := by
  cases emits with
  | complete rec pending => exact ⟨fresh.seen, fresh.full⟩
  | deferred rec pending tmp => exact ⟨fresh.seen, fresh.full⟩
  | full batch pending tmp upcoming allNew size =>
      have taken := take_add_of_prefix upcoming
      rw [fresh.seen] at allNew
      constructor
      · change emitter.seen ∪ _ = _
        rw [taken, keysOf_append, fresh.seen]
      · rw [taken, freshTail_append_new allNew, size]
        exact Nat.dvd_add fresh.full (Nat.dvd_refl room)
  | exhausted batch pending tmp upcoming allNew size => exact absurd rfl more
  | known rec pending tmp upcoming old =>
      have taken := take_succ_of_getElem? upcoming
      rw [fresh.seen] at old
      constructor
      · change emitter.seen = _
        rw [taken, keysOf_append, fresh.seen]
        exact (union_keysOf_seen old).symm
      · rw [taken, freshTail_snoc_seen old]
        exact Nat.dvd_zero room
  | batched batch rec pending tmp some upcoming allNew size old =>
      have taken := take_add_of_prefix upcoming
      rw [List.length_append, List.length_singleton, ← Nat.add_assoc, ← List.append_assoc] at taken
      rw [fresh.seen, ← keysOf_append] at old
      constructor
      · change emitter.seen ∪ _ = _
        rw [taken, keysOf_append, fresh.seen, ← keysOf_append]
        exact (union_keysOf_seen old).symm
      · rw [taken, freshTail_snoc_seen old]
        exact Nat.dvd_zero room

theorem Emits.idle (emits : Emits key records room emitter .empty after) :
    Idle emitter ∧ AllNew key emitter.seen (records.drop emitter.pos) ∧
      records.length < emitter.pos + room := by
  cases emits with
  | exhausted batch pending tmp upcoming allNew size =>
      refine ⟨⟨tmp, pending⟩, upcoming ▸ allNew, ?_⟩
      rw [upcoming, List.length_drop] at size
      omega

/-- Where the input ends, the records that are lost are those that the runs
of new keys leave over. -/
theorem Emits.lost_iff (emits : Emits key records room emitter .empty after)
    (fresh : Fresh key records room emitter) :
    records.drop emitter.pos = [] ↔ room ∣ freshTail key records := by
  cases emits with
  | exhausted batch pending tmp upcoming allNew size =>
      have tail : freshTail key records =
          freshTail key (records.take emitter.pos) + batch.length := by
        rw [fresh.seen] at allNew
        rw [← freshTail_append_new allNew, upcoming, List.take_append_drop]
      rw [← upcoming, tail, Nat.dvd_add_right fresh.full]
      constructor
      · intro none
        rw [none]
        exact Nat.dvd_zero room
      · intro divides
        exact List.length_eq_zero_iff.mp (Nat.eq_zero_of_dvd_of_lt divides size)

end Emitter

/-! ### Runs until the input ends -/

section

variable {runtime : Runtime} {schema : Schema} {files : List (Csv runtime schema)}
  {emitter : Emitter}

private theorem Emitter.answers_fresh (calls : List Call)
    (fresh : Fresh (recordKey runtime schema) (allRecords files) (INSERT_NUM_TUPLES + 1) emitter)
    (some : .empty ∉ (emitter.answers files calls).1) :
    Fresh (recordKey runtime schema) (allRecords files) (INSERT_NUM_TUPLES + 1)
      (emitter.answers files calls).2 := by
  induction calls generalizing emitter with
  | nil => exact fresh
  | cons call calls ih =>
      cases call with
      | commit => exact ih fresh some
      | nextQuery =>
          unfold answers at some
          rw [List.mem_cons, not_or] at some
          exact ih ((emitter.emit_emits files).fresh fresh (Ne.symm some.1)) some.2

theorem Emitter.answers_end (valid : emitter.Valid (allRecords files)) :
    ∃ calls,
      .empty ∉ (emitter.answers files (List.replicate calls .nextQuery)).1 ∧
      ((emitter.answers files (List.replicate calls .nextQuery)).2.emit files).1 = .empty := by
  induction measure : remaining (allRecords files) emitter using Nat.strongRecOn
    generalizing emitter with
  | ind left ih =>
      by_cases last : (emitter.emit files).1 = .empty
      · exact ⟨0, List.not_mem_nil, last⟩
      · have emits := emitter.emit_emits files
        have fewer := emits.remaining_lt (Nat.succ_pos _) valid last
        rcases ih _ (measure ▸ fewer) (emits.valid valid) rfl with ⟨calls, some, ended⟩
        refine ⟨calls + 1, ?_, ?_⟩
        · rw [List.replicate_succ]
          unfold answers
          rw [List.mem_cons, not_or]
          exact ⟨Ne.symm last, some⟩
        · rw [List.replicate_succ]
          exact ended

theorem Paired.completed {returned : List Statement} (paired : Paired returned) {rec : Record}
    (updated : .update rec ∈ returned) (last : returned.getLast? ≠ some (.update rec)) :
    .insertWhereNotExists rec ∈ returned := by
  rcases List.getElem?_of_mem updated with ⟨i, atUpdate⟩
  cases atNext : returned[i + 1]? with
  | some next =>
      rw [← paired i rec next atUpdate atNext]
      exact List.mem_of_getElem? atNext
  | none =>
      exfalso
      apply last
      have inside := (List.getElem?_eq_some_iff.mp atUpdate).1
      rw [List.getElem?_eq_none_iff] at atNext
      rw [List.getLast?_eq_getElem?, show returned.length - 1 = i by omega]
      exact atUpdate

theorem Paired.carries {returned : List Statement} (paired : Paired returned)
    (complete : ∀ rec, returned.getLast? ≠ some (.update rec)) {rec : Record}
    (member : rec ∈ returned.flatMap Statement.carried) : Carries returned rec := by
  rcases List.mem_flatMap.mp member with ⟨statement, present, inside⟩
  cases statement with
  | empty => cases inside
  | insertWhereNotExists other => cases inside
  | insert records => exact Or.inl ⟨records, present, inside⟩
  | update other =>
      cases List.mem_singleton.mp inside
      exact Or.inr ⟨present, paired.completed present (complete rec)⟩

/-- The statements that an emitter makes until the end carry the records in
front of those that it loses. -/
theorem Emitter.answers_carry_iff {calls : Nat} {returned : List Statement} {final : Emitter}
    (ran : (start 0 ∅).answers files (List.replicate calls .nextQuery) = (returned, final))
    (some : .empty ∉ returned) (ended : (final.emit files).1 = .empty) :
    (∀ rec ∈ allRecords files, Carries returned rec) ↔
      INSERT_NUM_TUPLES + 1 ∣ freshTail (recordKey runtime schema) (allRecords files) := by
  have returnedIs := congrArg Prod.fst ran
  have finalIs := congrArg Prod.snd ran
  dsimp only at returnedIs finalIs
  have valid : (start 0 ∅).Valid (allRecords files) := Idle.valid ⟨rfl, rfl⟩ (Nat.zero_le _)
  have fresh : Fresh (recordKey runtime schema) (allRecords files) (INSERT_NUM_TUPLES + 1) final :=
    finalIs ▸ answers_fresh _ Fresh.start (returnedIs ▸ some)
  have carried := answers_carried _ valid (returnedIs ▸ some)
  have paired := answers_paired files (List.replicate calls .nextQuery) (start 0 ∅)
  have emits := final.emit_emits files
  rw [ended] at emits
  rcases emits.idle with ⟨⟨tmp, pending⟩, allNew, _⟩
  have complete (rec : Record) : returned.getLast? ≠ Option.some (.update rec) := by
    intro last
    rw [← returnedIs] at last
    have awaiting := answers_last _ _ last
    rw [finalIs, pending] at awaiting
    cases awaiting
  rw [returnedIs, finalIs, handed_of_tmp_none tmp] at carried
  change _ = returned.flatMap Statement.carried at carried
  rw [returnedIs] at paired
  rw [← emits.lost_iff fresh]
  constructor
  · intro all
    cases lost : (allRecords files).drop final.pos with
    | nil => rfl
    | cons rec rest =>
        exfalso
        have member : rec ∈ (allRecords files).drop final.pos := lost ▸ List.mem_cons_self
        apply allNew.new rec member
        rw [fresh.seen, mem_keysOf]
        refine ⟨rec, ?_, rfl⟩
        rw [carried]
        exact (all rec (List.mem_of_mem_drop member)).mem_carried
  · intro none rec member
    apply paired.carries complete
    rw [← carried]
    rw [← List.take_append_drop final.pos (allRecords files), none, List.append_nil] at member
    exact member

variable {builder : QueryBuilder Statement}

private theorem drains_iff (readable : Readable files)
    (simulates : Simulates files Builders.symbolic builder emitter) (returned : List Statement) :
    builder.Drains Builders.symbolic runtime returned ↔
      ∃ final, emitter.answers files (List.replicate returned.length .nextQuery) =
          (returned, final) ∧
        .empty ∉ returned ∧ (final.emit files).1 = .empty := by
  have isEmpty (statement : Statement) :
      Builders.symbolic.isEmpty statement = true ↔ statement = .empty := decide_eq_true_iff
  rcases run_answers readable (List.replicate returned.length .nextQuery) simulates with
    ⟨between, ran, betweenSimulates⟩
  rcases nextQuery_simulates readable Builders.symbolic_lawful betweenSimulates with
    ⟨after, called, _, _⟩
  rw [Statement.build_symbolic] at called
  constructor
  · rintro ⟨otherBetween, otherAfter, last, otherRan, some, otherCalled, ended⟩
    rw [ran, Except.ok.injEq, Prod.mk.injEq] at otherRan
    rcases otherRan with ⟨returnedIs, rfl⟩
    rw [called, Except.ok.injEq, Prod.mk.injEq] at otherCalled
    rcases otherCalled with ⟨rfl, rfl⟩
    refine ⟨_, Prod.ext returnedIs rfl, ?_, (isEmpty _).mp ended⟩
    intro member
    have present := some _ member
    rw [(isEmpty .empty).mpr rfl] at present
    cases present
  · rintro ⟨final, answersAre, some, ended⟩
    rw [answersAre] at ran called
    refine ⟨between, after, _, ran, ?_, called, (isEmpty _).mpr ended⟩
    intro statement member
    rw [Bool.eq_false_iff, ne_eq, isEmpty]
    rintro rfl
    exact some member

private theorem drains_rendered {returned : List Statement}
    (drains : builder.Drains Builders.symbolic runtime returned) :
    (builder.rendered schema).Drains (Builders.texts schema) runtime
      (returned.map (Statement.text schema)) := by
  rcases drains with ⟨between, after, last, ran, some, called, ended⟩
  refine ⟨between.rendered schema, after.rendered schema, last.text schema, ?_, ?_, ?_, ?_⟩
  · rw [List.length_map, QueryBuilder.run_rendered, ran]
    rfl
  · intro text member
    rcases List.mem_map.mp member with ⟨statement, present, rfl⟩
    rw [QueryBuilder.isEmpty_text]
    exact some statement present
  · rw [QueryBuilder.nextQuery_rendered, called]
    rfl
  · rw [QueryBuilder.isEmpty_text]
    exact ended

/-- Starting from a fresh segment, the statements up to the first empty one
carry every record of every file exactly when the records behind the last one
whose hash occurs before it come in full batches. -/
theorem nextQuery_carries_iff (readable : Readable files) (nonempty : files ≠ [])
    {memory : Nat → Bytes} (sized : ∀ i, 0 < (memory i).length) :
    ∃ opened : QueryBuilder Statement,
      QueryBuilder.create (Builders.texts schema) schema Segment.fresh memory
        (files.map Csv.bytes) = .ok (opened.rendered schema) ∧
      (∃ returned, opened.Drains Builders.symbolic runtime returned) ∧
      ∀ returned, opened.Drains Builders.symbolic runtime returned →
        (opened.rendered schema).Drains (Builders.texts schema) runtime
          (returned.map (Statement.text schema)) ∧
        ((∀ rec ∈ allRecords files, Carries returned rec) ↔
          INSERT_NUM_TUPLES + 1 ∣ freshTail (recordKey runtime schema) (allRecords files)) := by
  rcases List.exists_cons_of_ne_nil nonempty with ⟨first, others, filesAre⟩
  have atFirst : files[0]? = some first := by
    rw [filesAre]
    rfl
  rcases create_simulates Builders.symbolic Segment.fresh sized
      (QueryBuilder.isBoundary_start atFirst) with ⟨opened, created, simulates, _⟩
  refine ⟨opened, ?_, ?_, ?_⟩
  · rw [QueryBuilder.create_rendered, created]
    rfl
  · rcases Emitter.answers_end simulates.valid with ⟨calls, some, ended⟩
    have size := Emitter.answers_length files (List.replicate calls .nextQuery)
      (Emitter.start 0 Segment.fresh.inserted)
    rw [List.count_replicate_self] at size
    refine ⟨_, (drains_iff readable simulates _).mpr ⟨_, ?_, some, ended⟩⟩
    rw [size]
  · intro returned drains
    rcases (drains_iff readable simulates returned).mp drains with ⟨final, ran, some, ended⟩
    exact ⟨drains_rendered drains, Emitter.answers_carry_iff ran some ended⟩

theorem nextQuery_carries_iff_sampleFiles :
    ∃ opened : QueryBuilder Statement,
      QueryBuilder.create (Builders.texts sampleSchema) sampleSchema Segment.fresh
        (fun _ => List.replicate 4 0) (sampleFiles.map Csv.bytes) =
          .ok (opened.rendered sampleSchema) ∧
      (∃ returned, opened.Drains Builders.symbolic sampleRuntime returned) ∧
      ∀ returned, opened.Drains Builders.symbolic sampleRuntime returned →
        (opened.rendered sampleSchema).Drains (Builders.texts sampleSchema) sampleRuntime
          (returned.map (Statement.text sampleSchema)) ∧
        ((∀ rec ∈ allRecords sampleFiles, Carries returned rec) ↔
          INSERT_NUM_TUPLES + 1 ∣
            freshTail (recordKey sampleRuntime sampleSchema) (allRecords sampleFiles)) :=
  nextQuery_carries_iff sampleFiles_readable (List.cons_ne_nil _ _) (fun _ => by decide)

/-- A single record is never said: the first answer is that there are no more
queries. -/
theorem nextQuery_loses_singleRecord :
    ∃ opened : QueryBuilder Statement,
      QueryBuilder.create Builders.symbolic sampleSchema Segment.fresh
        (fun _ => List.replicate 4 0) ((sampleFiles.take 1).map Csv.bytes) = .ok opened ∧
      opened.Drains Builders.symbolic sampleRuntime [] ∧
      ∃ rec ∈ allRecords (sampleFiles.take 1), ¬ Carries [] rec := by
  refine ⟨_, rfl, ⟨_, _, _, rfl, by simp, rfl, rfl⟩, [[97], [49], [48]], by decide, ?_⟩
  simp [Carries]

end

end ChangeSql
