/-
What holds in every state of the loop, over all kills and restarts.

Three positions in the list of records grow along a run: the committed one,
the one up to which the table has the records, and the mark of the hashes.
They never change their order.
-/

import ChangeSql.Driver

namespace ChangeSql

open FreshRuns NewestWins
open QueryBuilder (IsBoundary)

section

variable {runtime : Runtime} {schema : Schema} {files : List (Csv runtime schema)}
  {log : List Statement} {segment : Segment} {builder : QueryBuilder Statement}
  {emitter : Emitter} {process : Process} {kills : Process → Prop} {c p mark : Nat}

structure Executed (files : List (Csv runtime schema)) (log : List Statement) (c : Nat) :
    Prop where
  carried : ((allRecords files).take c).Sublist (log.flatMap Statement.carried)
  complete : ∀ rec ∈ (allRecords files).take c, Carries log rec

/-- What a kill leaves: a segment and a table that belong together. -/
structure Durable (files : List (Csv runtime schema)) (log : List Statement) (segment : Segment)
    (c p mark : Nat) : Prop where
  cursor : IsBoundary files segment.committedHandleIdx.toNat segment.committedOffset c
  executed : Executed files log c
  inserted : segment.inserted =
    keysOf (recordKey runtime schema) ((allRecords files).take mark)
  table : executeAll schema log = schema.newest ((allRecords files).take p)
  committed : c ≤ p
  hashed : p ≤ mark
  inside : mark ≤ (allRecords files).length

/-- A builder whose statements have all been executed. -/
structure Alive (files : List (Csv runtime schema)) (log : List Statement)
    (builder : QueryBuilder Statement) (emitter : Emitter) (c p mark : Nat) : Prop where
  durable : Durable files log builder.segment c p mark
  simulates : Simulates files Builders.symbolic builder emitter
  tracks : Tracks schema (allRecords files) log emitter p
  read : emitter.pos ≤ mark
  reached : c ≤ emitter.settled

/-- A builder whose last statement has not been executed. -/
structure Holds (files : List (Csv runtime schema)) (log : List Statement)
    (builder : QueryBuilder Statement) (query : Statement) (before after : Emitter)
    (c p mark : Nat) : Prop where
  durable : Durable files log builder.segment c p mark
  simulates : Simulates files Builders.symbolic builder after
  read : after.pos ≤ mark
  tracks : Tracks schema (allRecords files) log before p
  reached : c ≤ before.settled
  valid : before.Valid (allRecords files)
  emits : Emitter.EmitsOver files before query after
  more : query ≠ .empty
  covered : keysOf (recordKey runtime schema) ((allRecords files).take p) ⊆ before.seen
  atBatch : ∀ batch, query = .insert batch → before.pos = p

/-- The states of the loop that its steps lead to. -/
inductive Sound (files : List (Csv runtime schema)) : World → Prop where
  | down {log : List Statement} {segment : Segment} {c p mark : Nat}
      (durable : Durable files log segment c p mark) : Sound files ⟨.down segment, log⟩
  | ready {log : List Statement} {builder : QueryBuilder Statement} {emitter : Emitter}
      {c p mark : Nat} (alive : Alive files log builder emitter c p mark) :
      Sound files ⟨.ready builder, log⟩
  | holding {log : List Statement} {builder : QueryBuilder Statement} {query : Statement}
      {before after : Emitter} {c p mark : Nat}
      (holds : Holds files log builder query before after c p mark) :
      Sound files ⟨.holding builder query, log⟩
  | executed {log : List Statement} {builder : QueryBuilder Statement} {emitter : Emitter}
      {c p mark : Nat} (alive : Alive files log builder emitter c p mark) :
      Sound files ⟨.executed builder, log⟩
  | committing {log : List Statement} {builder : QueryBuilder Statement} {made left : List Store}
      {emitter : Emitter} {c p mark : Nat} (alive : Alive files log builder emitter c p mark)
      (stores : builder.commitStores Builders.symbolic = .ok (made ++ left)) :
      Sound files ⟨.committing builder made left, log⟩
  | stopped {log : List Statement} {builder : QueryBuilder Statement} {c p mark : Nat}
      (durable : Durable files log builder.segment c p mark)
      (ended : (allRecords files).length ≤ p + INSERT_NUM_TUPLES) :
      Sound files ⟨.stopped builder, log⟩

/-! ### One lemma for each step -/

private theorem allRecords_width (files : List (Csv runtime schema)) :
    ∀ rec ∈ allRecords files, rec.length = schema.fieldNames.length := by
  intro rec member
  rcases List.mem_map.mp member with ⟨line, _, rfl⟩
  exact line.record_length

theorem Executed.snoc (executed : Executed files log c) (statement : Statement) :
    Executed files (log ++ [statement]) c := by
  constructor
  · rw [List.flatMap_append]
    exact executed.carried.trans (List.sublist_append_left _ _)
  · intro rec member
    exact (executed.complete rec member).snoc statement

theorem Durable.start (durable : Durable files log segment c p mark) {memory : Nat → Bytes}
    (sized : ∀ i, 0 < (memory i).length) :
    ∃ builder,
      QueryBuilder.create Builders.symbolic schema segment memory (files.map Csv.bytes) =
        .ok builder ∧
      Alive files log builder (Emitter.start c segment.inserted) c p mark := by
  rcases create_simulates Builders.symbolic segment sized durable.cursor with
    ⟨builder, created, simulates, segmentIs⟩
  refine ⟨builder, created, ?_, simulates, ?_, ?_, Nat.le_refl c⟩
  · rw [segmentIs]
    exact durable
  · exact Tracks.start durable.committed durable.table durable.executed.carried
      durable.executed.complete segment.inserted
  · exact Nat.le_trans durable.committed durable.hashed

theorem Alive.marked (alive : Alive files log builder emitter c p mark) :
    Emitter.Marked (recordKey runtime schema) (allRecords files) emitter mark :=
  ⟨alive.simulates.inserted.symm.trans alive.durable.inserted, alive.read, alive.durable.inside⟩

theorem Alive.nextQuery (alive : Alive files log builder emitter c p mark)
    (readable : Readable files) :
    ∃ next later,
      builder.nextQuery Builders.symbolic runtime = .ok ((emitter.emit files).1, next) ∧
      Durable files log next.segment c p later ∧
      ((emitter.emit files).1 = .empty →
        (allRecords files).length ≤ p + INSERT_NUM_TUPLES) ∧
      ((emitter.emit files).1 ≠ .empty →
        Holds files log next (emitter.emit files).1 emitter (emitter.emit files).2 c p later) := by
  rcases nextQuery_simulates readable Builders.symbolic_lawful alive.simulates with
    ⟨next, called, simulates, segmentIs⟩
  rw [Statement.build_symbolic] at called
  have emits := emitter.emit_emits files
  rcases emits.marked (Nat.succ_pos _) alive.marked with ⟨later, further, marked, atBatch⟩
  have durable : Durable files log next.segment c p later := by
    rw [segmentIs]
    exact
      { cursor := alive.durable.cursor
        executed := alive.durable.executed
        inserted := marked.seen
        table := alive.durable.table
        committed := alive.durable.committed
        hashed := Nat.le_trans alive.durable.hashed further
        inside := marked.inside }
  have covered : keysOf (recordKey runtime schema) ((allRecords files).take p) ⊆ emitter.seen := by
    rw [alive.marked.seen]
    intro k member
    rcases mem_keysOf.mp member with ⟨rec, had, same⟩
    rw [mem_keysOf]
    exact ⟨rec, (List.take_sublist_take_left alive.durable.hashed).subset had, same⟩
  have settled := alive.tracks.settled
  refine ⟨next, later, called, durable, ?_, ?_⟩
  · intro last
    rw [last] at emits
    rcases emits.idle with ⟨idle, _, short⟩
    rw [idle.settled] at settled
    omega
  · intro more
    refine
      { durable := durable
        simulates := simulates
        read := marked.read
        tracks := alive.tracks
        reached := alive.reached
        valid := alive.simulates.valid
        emits := emits
        more := more
        covered := covered
        atBatch := ?_ }
    intro batch isBatch
    have atMark := atBatch batch isBatch
    rw [isBatch] at emits
    rw [emits.insert_cases.1.settled] at settled
    have hashed := alive.durable.hashed
    omega

theorem Holds.execute {query : Statement} {before after : Emitter}
    (holds : Holds files log builder query before after c p mark) :
    ∃ later, p ≤ later ∧ Alive files (log ++ [query]) builder after c later mark := by
  rcases holds.tracks.execute (allRecords_width files) holds.emits holds.valid holds.more
      holds.covered holds.atBatch with ⟨later, further, bounded, tracks⟩
  have read := holds.read
  have hashed := holds.durable.hashed
  have committed := holds.durable.committed
  have reached := Nat.le_trans holds.reached (holds.emits.settled_le holds.valid)
  refine ⟨later, further, ?_, holds.simulates, tracks, read, reached⟩
  exact
    { cursor := holds.durable.cursor
      executed := holds.durable.executed.snoc query
      inserted := holds.durable.inserted
      table := tracks.table
      committed := by omega
      hashed := by omega
      inside := holds.durable.inside }

/-- The stores of a commit together move the cursor to what has been said in
full, or they leave it alone. -/
theorem Alive.commit (alive : Alive files log builder emitter c p mark) {stores : List Store}
    (called : builder.commitStores Builders.symbolic = .ok stores) :
    ∃ later, c ≤ later ∧
      Alive files log { builder with segment := stores.foldl Segment.store builder.segment }
        emitter later p mark := by
  cases pending : emitter.pending with
  | some rec =>
      rw [commitStores_awaited alive.simulates Builders.symbolic_lawful pending] at called
      cases called
      exact ⟨c, Nat.le_refl c, alive⟩
  | none =>
      rcases commitStores_handed alive.simulates Builders.symbolic_lawful pending with
        ⟨handleIdx, offset, storesAre, boundary⟩
      rw [storesAre] at called
      cases called
      have settled := Emitter.settled_of_pending_none pending
      rw [← settled] at boundary
      have carried := alive.tracks.carried
      rw [← settled] at carried
      refine ⟨emitter.settled, alive.reached, ?_, ?_, alive.tracks, alive.read, Nat.le_refl _⟩
      · exact
          { cursor := boundary
            executed := ⟨carried, alive.tracks.complete⟩
            inserted := alive.durable.inserted
            table := alive.durable.table
            committed := alive.tracks.settled
            hashed := alive.durable.hashed
            inside := alive.durable.inside }
      · exact alive.simulates.congr rfl

/-- A commit that leaves one of the two words as it is has no state between
the cursor from before it and the one that it stores. -/
theorem made_untorn {made left : List Store}
    (called : builder.commitStores Builders.symbolic = .ok (made ++ left))
    (untorn : Untorn (.committing builder made left)) :
    made.foldl Segment.store builder.segment = builder.segment ∨
      made.foldl Segment.store builder.segment =
        (made ++ left).foldl Segment.store builder.segment := by
  rcases untorn with none | all | still
  · rw [none]
    exact Or.inl rfl
  · rw [all, List.append_nil]
    exact Or.inr rfl
  · rcases QueryBuilder.commitStores_cases called with none | ⟨offset, offsetIs, storesAre⟩
    · rw [(List.append_eq_nil_iff.mp none).1]
      exact Or.inl rfl
    · cases made with
      | nil => exact Or.inl rfl
      | cons first made =>
          rw [List.cons_append, List.cons.injEq] at storesAre
          rcases storesAre with ⟨rfl, restIs⟩
          cases made with
          | cons second made =>
              rw [List.cons_append, List.cons.injEq, List.append_eq_nil_iff] at restIs
              rcases restIs with ⟨rfl, rfl, rfl⟩
              exact Or.inr rfl
          | nil =>
              rw [List.nil_append] at restIs
              subst restIs
              by_cases sameFile : builder.cursorHandleIdx = builder.segment.committedHandleIdx
              · left
                rw [sameFile]
                rfl
              · right
                have sameOffset := Decidable.not_not.mp fun moves => still ⟨sameFile, moves⟩
                rw [offsetIs, Option.some_inj] at sameOffset
                rw [sameOffset]
                rfl

/-! ### Runs -/

theorem Sound.fresh (nonempty : files ≠ []) : Sound files World.fresh := by
  rcases List.exists_cons_of_ne_nil nonempty with ⟨first, others, filesAre⟩
  have durable : Durable files [] Segment.fresh 0 0 0 :=
    { cursor := QueryBuilder.isBoundary_start (by rw [filesAre]; rfl)
      executed := ⟨List.Sublist.refl _, fun rec impossible => nomatch impossible⟩
      inserted := rfl
      table := rfl
      committed := Nat.le_refl 0
      hashed := Nat.le_refl 0
      inside := Nat.zero_le _ }
  exact .down durable

theorem Sound.killed (sound : Sound files ⟨process, log⟩) (untorn : Untorn process) :
    Sound files ⟨.down process.segment, log⟩ := by
  cases sound with
  | down durable => exact .down durable
  | ready alive => exact .down alive.durable
  | holding holds => exact .down holds.durable
  | executed alive => exact .down alive.durable
  | stopped durable ended => exact .down durable
  | committing alive stores =>
      rcases alive.commit stores with ⟨later, _, committed⟩
      rcases made_untorn stores untorn with before | after
      · apply Sound.down
        change Durable files log (List.foldl _ _ _) _ _ _
        rw [before]
        exact alive.durable
      · apply Sound.down
        change Durable files log (List.foldl _ _ _) _ _ _
        rw [after]
        exact committed.durable

theorem Sound.step {before after : World} (readable : Readable files)
    (whole : ∀ process, kills process → Untorn process) (sound : Sound files before)
    (step : Step kills files before after) : Sound files after := by
  cases step with
  | start memory sized created =>
      cases sound with
      | down durable =>
          rcases durable.start sized with ⟨builder, createdIs, alive⟩
          rw [created] at createdIs
          cases createdIs
          exact .ready alive
  | query called more =>
      cases sound with
      | ready alive =>
          rcases alive.nextQuery readable with ⟨next, later, calledIs, _, _, holds⟩
          rw [called] at calledIs
          cases calledIs
          exact .holding (holds more)
  | stop called =>
      cases sound with
      | ready alive =>
          rcases alive.nextQuery readable with ⟨next, later, calledIs, durable, ended, _⟩
          rw [called, Except.ok.injEq, Prod.mk.injEq] at calledIs
          rcases calledIs with ⟨last, rfl⟩
          exact .stopped durable (ended last.symm)
  | execute =>
      cases sound with
      | holding holds =>
          rcases holds.execute with ⟨later, _, alive⟩
          exact .executed alive
  | commit called =>
      cases sound with
      | executed alive => exact .committing alive called
  | store =>
      cases sound with
      | committing alive stores =>
          apply Sound.committing alive
          rw [stores, List.append_assoc, List.singleton_append]
  | committed =>
      cases sound with
      | committing alive stores =>
          rw [List.append_nil] at stores
          rcases alive.commit stores with ⟨later, _, committed⟩
          exact .ready committed
  | kill killed => exact sound.killed (whole _ killed)

theorem Reachable.sound {world : World} (readable : Readable files) (nonempty : files ≠ [])
    (whole : ∀ process, kills process → Untorn process)
    (reachable : Reachable kills files world) : Sound files world := by
  induction reachable with
  | refl => exact .fresh nonempty
  | tail _ step ih => exact ih.step readable whole step

theorem BetweenCalls.untorn (process : Process) (between : BetweenCalls process) :
    Untorn process := by
  cases process with
  | committing builder made left => exact absurd between id
  | _ => exact trivial

theorem Sound.durable (sound : Sound files ⟨process, log⟩) (untorn : Untorn process) :
    ∃ c p mark, Durable files log process.segment c p mark := by
  cases sound.killed untorn with
  | down durable => exact ⟨_, _, _, durable⟩

/-- No call of the loop fails: until there are no more queries it can go on. -/
theorem Sound.progress (sound : Sound files ⟨process, log⟩) (readable : Readable files) :
    (∃ builder, process = .stopped builder) ∨ ∃ after, Step kills files ⟨process, log⟩ after := by
  cases sound with
  | stopped durable ended => exact Or.inl ⟨_, rfl⟩
  | down durable =>
      have sized : ∀ i : Nat, 0 < ((fun _ => [0] : Nat → Bytes) i).length := fun _ => Nat.one_pos
      rcases durable.start sized with ⟨builder, created, _⟩
      exact Or.inr ⟨_, .start _ sized created⟩
  | @ready _ _ emitter _ _ _ alive =>
      rcases alive.nextQuery readable with ⟨next, later, called, _⟩
      by_cases last : (emitter.emit files).1 = .empty
      · rw [last] at called
        exact Or.inr ⟨_, .stop called⟩
      · exact Or.inr ⟨_, .query called last⟩
  | holding holds => exact Or.inr ⟨_, .execute⟩
  | @executed _ _ emitter _ _ _ alive =>
      cases pending : emitter.pending with
      | some rec =>
          exact Or.inr ⟨_, .commit
            (commitStores_awaited alive.simulates Builders.symbolic_lawful pending)⟩
      | none =>
          rcases commitStores_handed alive.simulates Builders.symbolic_lawful pending with
            ⟨handleIdx, offset, called, _⟩
          exact Or.inr ⟨_, .commit called⟩
  | @committing _ _ _ left _ _ _ _ alive stores =>
      cases left with
      | nil => exact Or.inr ⟨_, .committed⟩
      | cons store left => exact Or.inr ⟨_, .store⟩

/-! ### The hashes in the segment -/

theorem keysOf_take_subset (files : List (Csv runtime schema)) (mark : Nat) :
    keysOf (recordKey runtime schema) ((allRecords files).take mark) ⊆
      keysOf (recordKey runtime schema) (allRecords files) := by
  intro k member
  rcases mem_keysOf.mp member with ⟨rec, had, same⟩
  exact mem_keysOf.mpr ⟨rec, List.mem_of_mem_take had, same⟩

theorem keysOf_allRecords_card (files : List (Csv runtime schema)) :
    (keysOf (recordKey runtime schema) (allRecords files)).card ≤ (allRecords files).length := by
  rw [← List.length_map (recordKey runtime schema)]
  exact List.toFinset_card_le _

theorem Segment.store_inserted (segment : Segment) (stores : List Store) :
    (stores.foldl Segment.store segment).inserted = segment.inserted := by
  induction stores generalizing segment with
  | nil => rfl
  | cons store stores ih =>
      rw [List.foldl_cons, ih]
      cases store <;> rfl

theorem Durable.inserted_subset (durable : Durable files log segment c p mark) :
    segment.inserted ⊆ keysOf (recordKey runtime schema) (allRecords files) := by
  rw [durable.inserted]
  exact keysOf_take_subset files mark

theorem Sound.inserted_subset {world : World} (sound : Sound files world) :
    world.process.segment.inserted ⊆ keysOf (recordKey runtime schema) (allRecords files) := by
  cases sound with
  | down durable => exact durable.inserted_subset
  | ready alive => exact alive.durable.inserted_subset
  | holding holds => exact holds.durable.inserted_subset
  | executed alive => exact alive.durable.inserted_subset
  | committing alive stores =>
      unfold Process.segment
      rw [Segment.store_inserted]
      exact alive.durable.inserted_subset
  | stopped durable ended => exact durable.inserted_subset

/-! ### Results -/

private theorem sampleFiles_reachable : ∃ builder, Reachable BetweenCalls sampleFiles
    ⟨.holding builder (.insert [[[97], [49], [48]], [[98], [49], [48]]]), []⟩ := by
  refine ⟨_, .tail (.tail .refl (.start (fun _ => List.replicate 4 0) ?_ rfl)) (.query rfl ?_)⟩
  · intro i
    decide
  · exact nofun

/-- The table is the one that the first `p` records make when the newest one
of each key wins. The committed cursor is not ahead of them, and when the loop
ends they are all records but for an unfinished batch. -/
structure NewestOfPrefix (files : List (Csv runtime schema)) (world : World) (p : Nat) :
    Prop where
  inside : p ≤ (allRecords files).length
  table : world.table schema = schema.newest ((allRecords files).take p)
  committed : BetweenCalls world.process → ∃ c, c ≤ p ∧
    IsBoundary files world.process.segment.committedHandleIdx.toNat
      world.process.segment.committedOffset c
  ended : ∀ builder, world.process = .stopped builder →
    (allRecords files).length ≤ p + INSERT_NUM_TUPLES

theorem Durable.newestOfPrefix (durable : Durable files log process.segment c p mark)
    (ended : ∀ builder, process = .stopped builder →
      (allRecords files).length ≤ p + INSERT_NUM_TUPLES) :
    NewestOfPrefix files ⟨process, log⟩ p :=
  { inside := Nat.le_trans durable.hashed durable.inside
    table := durable.table
    committed := fun _ => ⟨c, durable.committed, durable.cursor⟩
    ended := ended }

theorem Sound.newestOfPrefix {world : World} (sound : Sound files world) :
    ∃ p, NewestOfPrefix files world p := by
  cases sound with
  | @down log segment _ p _ durable =>
      have newest : NewestOfPrefix files ⟨.down segment, log⟩ p :=
        Durable.newestOfPrefix durable nofun
      exact ⟨p, newest⟩
  | ready alive => exact ⟨_, alive.durable.newestOfPrefix nofun⟩
  | holding holds => exact ⟨_, holds.durable.newestOfPrefix nofun⟩
  | executed alive => exact ⟨_, alive.durable.newestOfPrefix nofun⟩
  | stopped durable ended => exact ⟨_, durable.newestOfPrefix fun _ _ => ended⟩
  | committing alive stores =>
      exact ⟨_,
        { inside := Nat.le_trans alive.durable.hashed alive.durable.inside
          table := alive.durable.table
          committed := fun impossible => absurd impossible id
          ended := nofun }⟩

/-- Kills and restarts do not show: the table is always that of a prefix of
the records. -/
theorem table_newestOfPrefix (readable : Readable files) (nonempty : files ≠ []) {world : World}
    (reachable : Reachable BetweenCalls files world) :
    ∃ p, NewestOfPrefix files world p :=
  (reachable.sound readable nonempty BetweenCalls.untorn).newestOfPrefix

/-- Killed behind the first batch. -/
theorem table_newestOfPrefix_sampleFiles :
    ∃ segment p, NewestOfPrefix sampleFiles
      ⟨.down segment, [.insert [[[97], [49], [48]], [[98], [49], [48]]]]⟩ p := by
  rcases sampleFiles_reachable with ⟨builder, reachable⟩
  refine ⟨_, table_newestOfPrefix sampleFiles_readable (List.cons_ne_nil _ _)
    (.tail (.tail reachable .execute) (.kill ?_))⟩
  exact trivial

/-- The tuples of a batch that is to be executed have keys of their own, and
the table has none of them. -/
theorem insert_meets_no_key (readable : Readable files) (nonempty : files ≠ [])
    {batch : List Record}
    (reachable : Reachable BetweenCalls files ⟨.holding builder (.insert batch), log⟩) :
    (batch.map schema.keyOf).Nodup ∧
      ∀ rec ∈ batch, schema.keyOf rec ∉ (executeAll schema log).map schema.keyOf := by
  cases reachable.sound readable nonempty BetweenCalls.untorn with
  | holding holds =>
      rcases keyOf_absent holds.emits.insert_cases.2 holds.covered with ⟨distinct, absent⟩
      refine ⟨distinct, ?_⟩
      intro rec member inTable
      rw [holds.tracks.table] at inTable
      exact absent rec member (mem_upserts_keys.mp inTable)

private theorem sampleVersions_readable : Readable [sampleVersions] := by
  refine ⟨by decide, ?_⟩
  intro later member
  cases List.mem_singleton.mp member
  exact List.cons_ne_nil _ _

private theorem sampleVersions_resumed : ∃ builder, Reachable BetweenCalls [sampleVersions]
    ⟨.holding builder (.insert [[[98], [49], [48]]]),
      [.insert [[[97], [49], [48]]], .update [[97], [50], [49]],
        .insertWhereNotExists [[97], [50], [49]]]⟩ := by
  have started : Reachable BetweenCalls [sampleVersions] ⟨.ready _, []⟩ :=
    .tail .refl (.start (fun _ => List.replicate 4 0) sampleMemory_sized rfl)
  have inserted := Reachable.turn started
    (show _ = Except.ok (Statement.insert [[[97], [49], [48]]], _) from rfl) nofun rfl
  have restarted := (Relation.ReflTransGen.tail inserted (.kill trivial)).tail
    (.start (fun _ => List.replicate 4 0) sampleMemory_sized rfl)
  have updated := Reachable.turn restarted
    (show _ = Except.ok (Statement.update [[97], [50], [49]], _) from rfl) nofun rfl
  have upserted := Reachable.turn updated
    (show _ = Except.ok (Statement.insertWhereNotExists [[97], [50], [49]], _) from rfl) nofun rfl
  exact ⟨_, upserted.tail (.query
    (show _ = Except.ok (Statement.insert [[[98], [49], [48]]], _) from rfl) nofun)⟩

theorem insert_meets_no_key_sampleVersions :
    ∃ builder, Reachable BetweenCalls [sampleVersions]
        ⟨.holding builder (.insert [[[98], [49], [48]]]),
          [.insert [[[97], [49], [48]]], .update [[97], [50], [49]],
            .insertWhereNotExists [[97], [50], [49]]]⟩ ∧
      ([[[98], [49], [48]]].map sampleSchema.keyOf).Nodup ∧
      ∀ rec ∈ [[[98], [49], [48]]], sampleSchema.keyOf rec ∉
        (executeAll sampleSchema
          [.insert [[[97], [49], [48]]], .update [[97], [50], [49]],
            .insertWhereNotExists [[97], [50], [49]]]).map sampleSchema.keyOf := by
  rcases sampleVersions_resumed with ⟨builder, reachable⟩
  exact ⟨builder, reachable,
    insert_meets_no_key sampleVersions_readable (List.cons_ne_nil _ _) reachable⟩

end

end ChangeSql
