/-
The loop as the code runs it, against a server that reads texts.

A process has the texts of the statements only, and the server does with each
of them what is documented of it. Every step is one of the loop on symbolic
statements, so that the table on the server is always the one that a prefix of
the records makes, and the other tables are as they were.
-/

import ChangeSql.Crashes
import ChangeSql.Rendering
import ChangeSql.TextExecution

namespace ChangeSql

open FreshRuns NewestWins
open Sql (Server StoredTable TableType)

inductive TextProcess where
  | down (segment : Segment)
  | ready (builder : QueryBuilder Bytes)
  | holding (builder : QueryBuilder Bytes) (query : Bytes)
  | executed (builder : QueryBuilder Bytes)
  | stopped (builder : QueryBuilder Bytes)

def TextProcess.segment : TextProcess → Segment
  | down segment => segment
  | ready builder => builder.segment
  | holding builder _ => builder.segment
  | executed builder => builder.segment
  | stopped builder => builder.segment

structure TextWorld (server : Server) where
  process : TextProcess
  state : server.State

section

variable {runtime : Runtime} {schema : Schema} {server : Server}

/-- The steps of the loop over a connection to one database. A kill falls
between two calls, or inside of `next_query` between two insertions of a hash. -/
inductive TextStep (db : Bytes) (files : List (Csv runtime schema)) :
    TextWorld server → TextWorld server → Prop where
  | start {segment : Segment} {state : server.State} (memory : Nat → Bytes)
      (sized : ∀ i, 0 < (memory i).length) {builder : QueryBuilder Bytes}
      (created : QueryBuilder.create (Builders.texts schema) schema segment memory
        (files.map Csv.bytes) = .ok builder) :
      TextStep db files ⟨.down segment, state⟩ ⟨.ready builder, state⟩
  | query {builder next : QueryBuilder Bytes} {query : Bytes} {state : server.State}
      (called : builder.nextQuery (Builders.texts schema) runtime = .ok (query, next))
      (more : query ≠ []) :
      TextStep db files ⟨.ready builder, state⟩ ⟨.holding next query, state⟩
  | stop {builder next : QueryBuilder Bytes} {state : server.State}
      (called : builder.nextQuery (Builders.texts schema) runtime = .ok ([], next)) :
      TextStep db files ⟨.ready builder, state⟩ ⟨.stopped next, state⟩
  | execute {builder : QueryBuilder Bytes} {query : Bytes} {state later : server.State}
      (accepted : server.execute db state query = some later) :
      TextStep db files ⟨.holding builder query, state⟩ ⟨.executed builder, later⟩
  | commit {builder next : QueryBuilder Bytes} {state : server.State}
      (called : builder.commit (Builders.texts schema) = .ok next) :
      TextStep db files ⟨.executed builder, state⟩ ⟨.ready next, state⟩
  | kill {process : TextProcess} {state : server.State} :
      TextStep db files ⟨process, state⟩ ⟨.down process.segment, state⟩
  | inside {builder : QueryBuilder Bytes} {segment : Segment} {state : server.State}
      (passes : builder.PassesThrough (Builders.texts schema) runtime segment) :
      TextStep db files ⟨.ready builder, state⟩ ⟨.down segment, state⟩

def TextReachable (db : Bytes) (files : List (Csv runtime schema)) (initial : server.State)
    (world : TextWorld server) : Prop :=
  Relation.ReflTransGen (TextStep db files) ⟨.down Segment.fresh, initial⟩ world

/-- What the table is to be like for the records. Whatever rows have different
keys, the keys of the table allow them. -/
structure Hosts (schema : Schema) (type : TableType) (records : List Record) : Prop where
  describes : schema.Describes type.columns
  plain : ∀ rec ∈ records, Schema.PlainRow type.columns rec
  suits : Suits type (fun i => maskBit schema.uniqueMask i = true) {rec | rec ∈ records}
  allows : ∀ rows : Table, (∀ row ∈ rows, row ∈ records) → (rows.map schema.keyOf).Nodup →
    type.allows (rows.map type.keep) = true

inductive Renders (schema : Schema) : Process → TextProcess → Prop where
  | down (segment : Segment) : Renders schema (.down segment) (.down segment)
  | ready (builder : QueryBuilder Statement) :
      Renders schema (.ready builder) (.ready (builder.rendered schema))
  | holding (builder : QueryBuilder Statement) (query : Statement) :
      Renders schema (.holding builder query)
        (.holding (builder.rendered schema) (query.text schema))
  | executed (builder : QueryBuilder Statement) :
      Renders schema (.executed builder) (.executed (builder.rendered schema))
  | stopped (builder : QueryBuilder Statement) :
      Renders schema (.stopped builder) (.stopped (builder.rendered schema))

/-- The table of the schema is what the log makes of an empty one, and the
other tables are those of the initial state. -/
structure Serves (db : Bytes) (files : List (Csv runtime schema)) (type : TableType)
    (initial : server.State) (world : World) (text : TextWorld server) : Prop where
  reachable : CrashReachable files world
  process : Renders schema world.process text.process
  leaves : server.Leaves db schema.table ⟨type, (world.table schema).map type.keep⟩ initial
    text.state

variable {db : Bytes} {files : List (Csv runtime schema)} {type : TableType}
  {initial : server.State} {world : World} {before after : TextWorld server}

theorem Serves.fresh (empty : server.table initial db schema.table = some ⟨type, 0⟩) :
    Serves db files type initial World.fresh ⟨.down Segment.fresh, initial⟩ :=
  ⟨.refl, .down _, empty, fun _ _ _ => rfl⟩

/-! ### Calls -/

theorem QueryBuilder.PassesThrough.symbolic {builder : QueryBuilder Statement} {segment : Segment}
    (passes : (builder.rendered schema).PassesThrough (Builders.texts schema) runtime segment) :
    builder.PassesThrough Builders.symbolic runtime segment := by
  rcases passes with ⟨noStmt, noRecord, turns, few, outcome, midway, collected, segmentIs⟩
  refine ⟨?_, noRecord, turns, few, outcome, ?_⟩
  · rw [← QueryBuilder.isEmpty_text schema]
    exact noStmt
  · have same := QueryBuilder.collect_await runtime (builder.insertIfNotExistsStmt.text schema)
      turns [] builder
    change QueryBuilder.collect runtime turns [] (builder.rendered schema) = _ at same
    rw [collected] at same
    cases symbolic : QueryBuilder.collect runtime turns [] builder with
    | error fault =>
        rw [symbolic] at same
        cases same
    | ok answer =>
        rw [symbolic] at same
        cases same
        exact ⟨answer.2, rfl, segmentIs⟩

private theorem committing_run {kills : Process → Prop} (builder : QueryBuilder Statement)
    (made left : List Store) (log : List Statement) :
    Relation.ReflTransGen (Step kills files) ⟨.committing builder made left, log⟩
      ⟨.ready { builder with segment := (made ++ left).foldl Segment.store builder.segment },
        log⟩ := by
  induction left generalizing made with
  | nil =>
      rw [List.append_nil]
      exact .single .committed
  | cons store left ih =>
      have rest := ih (made ++ [store])
      rw [List.append_assoc, List.singleton_append] at rest
      exact .head .store rest

private theorem commit_run {kills : Process → Prop} {builder next : QueryBuilder Statement}
    {log : List Statement} (called : builder.commit Builders.symbolic = .ok next) :
    Relation.ReflTransGen (Step kills files) ⟨.executed builder, log⟩ ⟨.ready next, log⟩ := by
  unfold QueryBuilder.commit at called
  cases storesAre : builder.commitStores Builders.symbolic with
  | error fault =>
      rw [storesAre] at called
      cases called
  | ok stores =>
      rw [storesAre] at called
      cases called
      exact .head (.commit storesAre) (committing_run builder [] stores log)

/-! ### Statements -/

private theorem Emitter.Emits.records_mem {key : Record → UInt64} {records : List Record}
    {room : Nat} {emitter next : Emitter} {statement : Statement}
    (emits : Emits key records room emitter statement next) (valid : emitter.Valid records) :
    ∀ rec ∈ statement.records, rec ∈ records := by
  cases emits with
  | complete rec pending =>
      rcases valid.awaited rec pending with ⟨_, k, _, atRecord⟩
      exact List.forall_mem_singleton.mpr (List.mem_of_getElem? atRecord)
  | deferred rec pending tmp =>
      rcases valid.deferred rec tmp with ⟨k, _, atRecord⟩
      exact List.forall_mem_singleton.mpr (List.mem_of_getElem? atRecord)
  | full batch pending tmp upcoming allNew size =>
      exact fun rec member => List.mem_of_mem_drop (upcoming.subset member)
  | exhausted batch pending tmp upcoming allNew size => exact nofun
  | known rec pending tmp upcoming old =>
      exact List.forall_mem_singleton.mpr (List.mem_of_getElem? upcoming)
  | batched batch rec pending tmp some upcoming allNew size old =>
      exact fun rec member =>
        List.mem_of_mem_drop (upcoming.subset (List.mem_append_left _ member))

private theorem Emitter.Emits.records_some {key : Record → UInt64} {records : List Record}
    {room : Nat} {emitter next : Emitter} {statement : Statement}
    (emits : Emits key records room emitter statement next) (roomy : 0 < room)
    (more : statement ≠ .empty) : statement.records ≠ [] := by
  cases emits with
  | complete rec pending => exact List.cons_ne_nil _ _
  | deferred rec pending tmp => exact List.cons_ne_nil _ _
  | full batch pending tmp upcoming allNew size =>
      exact List.ne_nil_of_length_pos (size ▸ roomy)
  | exhausted batch pending tmp upcoming allNew size => exact absurd rfl more
  | known rec pending tmp upcoming old => exact List.cons_ne_nil _ _
  | batched batch rec pending tmp some upcoming allNew size old => exact some

private theorem Holds.execute_text (documented : server.Documented db schema.table)
    (hosts : Hosts schema type (allRecords files)) {log : List Statement}
    {builder : QueryBuilder Statement} {query : Statement} {emitter next : Emitter}
    {c p mark : Nat} (holds : Holds files log builder query emitter next c p mark)
    {state : server.State} (stored : server.table state db schema.table =
      some ⟨type, (executeAll schema log).map type.keep⟩) :
    ∃ later, server.execute db state (query.text schema) = some later ∧
      server.Leaves db schema.table ⟨type, (executeAll schema (log ++ [query])).map type.keep⟩
        state later := by
  have inRecords := holds.emits.records_mem holds.valid
  have within : ∀ row ∈ executeAll schema log, row ∈ {rec | rec ∈ allRecords files} := by
    intro row member
    rw [holds.durable.table] at member
    exact List.mem_of_mem_take (upserts_keepsNewest.fromItems row member)
  rw [executeAll_snoc]
  apply makes_text documented hosts.describes
    (holds.emits.records_some (Nat.succ_pos _) holds.more)
    (fun rec member => hosts.plain rec (inRecords rec member)) hosts.suits inRecords within stored
  rcases holds.execute with ⟨later, _, alive⟩
  have table := alive.durable.table
  rw [executeAll_snoc] at table
  rw [table]
  have keeps : KeepsNewest schema.keyOf updatedAt ((allRecords files).take later)
      (schema.newest ((allRecords files).take later)) := upserts_keepsNewest
  exact hosts.allows _ (fun row member => List.mem_of_mem_take (keeps.fromItems row member))
    keeps.once

/-! ### The simulation -/

/-- Steps of the symbolic loop, with kills or without, keep the invariant. -/
theorem CrashReachable.steps {kills : Process → Prop} {world later : World}
    (reachable : CrashReachable files world)
    (whole : ∀ process, kills process → Untorn process)
    (steps : Relation.ReflTransGen (Step kills files) world later) : CrashReachable files later :=
  reachable.trans (steps.lift id fun _ _ step => .step (step.mono whole))

/-- Each step of the code is one of the symbolic loop, a commit all of its. -/
theorem Serves.step (readable : Readable files) (nonempty : files ≠ [])
    (documented : server.Documented db schema.table)
    (hosts : Hosts schema type (allRecords files))
    (serves : Serves db files type initial world before) (step : TextStep db files before after) :
    ∃ later, Serves db files type initial later after := by
  rcases serves with ⟨reachable, process, leaves⟩
  rcases world with ⟨symbolic, log⟩
  cases step with
  | @start segment _ memory sized builder created =>
      cases process
      rw [QueryBuilder.create_rendered] at created
      cases opened : QueryBuilder.create Builders.symbolic schema segment memory
          (files.map Csv.bytes) with
      | error fault =>
          rw [opened] at created
          cases created
      | ok symbolic =>
          rw [opened] at created
          cases created
          exact ⟨⟨.ready symbolic, log⟩, reachable.tail (.step (.start memory sized opened)),
            .ready symbolic, leaves⟩
  | query called more =>
      cases process with
      | ready symbolic =>
          rw [QueryBuilder.nextQuery_rendered] at called
          cases answered : symbolic.nextQuery Builders.symbolic runtime with
          | error fault =>
              rw [answered] at called
              cases called
          | ok answer =>
              rcases answer with ⟨statement, next⟩
              rw [answered] at called
              cases called
              have some : statement ≠ .empty :=
                fun none => more ((Statement.text_eq_nil schema statement).mpr none)
              exact ⟨⟨.holding next statement, log⟩, reachable.tail (.step (.query answered some)),
                .holding next statement, leaves⟩
  | stop called =>
      cases process with
      | ready symbolic =>
          rw [QueryBuilder.nextQuery_rendered] at called
          cases answered : symbolic.nextQuery Builders.symbolic runtime with
          | error fault =>
              rw [answered] at called
              cases called
          | ok answer =>
              rcases answer with ⟨statement, next⟩
              rw [answered, Except.map, Except.ok.injEq, QueryBuilder.renderedAnswer, Prod.map,
                Prod.mk.injEq, Statement.text_eq_nil] at called
              rcases called with ⟨rfl, rfl⟩
              exact ⟨⟨.stopped next, log⟩, reachable.tail (.step (.stop answered)),
                .stopped next, leaves⟩
  | execute accepted =>
      cases process with
      | holding symbolic statement =>
          cases CrashReachable.sound readable nonempty reachable with
          | holding holds =>
              rcases holds.execute_text documented hosts leaves.here with
                ⟨later, executed, further⟩
              rw [accepted, Option.some_inj] at executed
              subst executed
              exact ⟨⟨.executed symbolic, log ++ [statement]⟩, reachable.tail (.step .execute),
                .executed symbolic, leaves.trans further⟩
  | commit called =>
      cases process with
      | executed symbolic =>
          rw [QueryBuilder.commit_rendered] at called
          cases committed : symbolic.commit Builders.symbolic with
          | error fault =>
              rw [committed] at called
              cases called
          | ok next =>
              rw [committed] at called
              cases called
              exact ⟨⟨.ready next, log⟩,
                reachable.steps (fun _ killed => killed) (commit_run committed),
                .ready next, leaves⟩
  | kill =>
      refine ⟨⟨.down symbolic.segment, log⟩, reachable.tail (.step (.kill ?_)), ?_, leaves⟩
      · cases process <;> exact trivial
      · cases process <;> exact .down _
  | inside passes =>
      cases process with
      | ready symbolic =>
          exact ⟨⟨.down _, log⟩, reachable.tail (.inside passes.symbolic), .down _, leaves⟩

theorem TextReachable.serves (readable : Readable files) (nonempty : files ≠ [])
    (documented : server.Documented db schema.table)
    (hosts : Hosts schema type (allRecords files))
    (empty : server.table initial db schema.table = some ⟨type, 0⟩)
    (reachable : TextReachable db files initial after) :
    ∃ world, Serves db files type initial world after := by
  induction reachable with
  | refl => exact ⟨_, .fresh empty⟩
  | tail _ step ih =>
      rcases ih with ⟨world, serves⟩
      exact serves.step readable nonempty documented hosts step

theorem Serves.newestOfPrefix (readable : Readable files) (nonempty : files ≠ [])
    (serves : Serves db files type initial world after) :
    ∃ p ≤ (allRecords files).length,
      server.Leaves db schema.table
        ⟨type, (schema.newest ((allRecords files).take p)).map type.keep⟩ initial after.state ∧
      ∀ builder, after.process = .stopped builder →
        (allRecords files).length ≤ p + INSERT_NUM_TUPLES := by
  rcases world with ⟨symbolic, log⟩
  rcases (serves.reachable.sound readable nonempty).newestOfPrefix with ⟨p, newest⟩
  refine ⟨p, newest.inside, ?_, ?_⟩
  · rw [← newest.table]
    exact serves.leaves
  · intro builder stopped
    have process := serves.process
    rw [stopped] at process
    cases process with
    | stopped symbolic => exact newest.ended symbolic rfl

theorem Serves.accepts (readable : Readable files) (nonempty : files ≠ [])
    (documented : server.Documented db schema.table)
    (hosts : Hosts schema type (allRecords files))
    (serves : Serves db files type initial world after) {builder : QueryBuilder Bytes}
    {query : Bytes} (holding : after.process = .holding builder query) :
    ∃ later, server.execute db after.state query = some later := by
  rcases world with ⟨symbolic, log⟩
  have sound := serves.reachable.sound readable nonempty
  have process := serves.process
  rw [holding] at process
  cases process with
  | holding symbolic statement =>
      cases sound with
      | holding holds =>
          rcases holds.execute_text documented hosts serves.leaves.here with ⟨later, executed, _⟩
          exact ⟨later, executed⟩

/-- In every state of the loop the server has the table that a prefix of the
records makes, all of them but for an unfinished batch once the loop has
stopped. It accepts every text, and nothing else in the database has changed. -/
theorem texts_newestOfPrefix (readable : Readable files) (nonempty : files ≠ [])
    (documented : server.Documented db schema.table)
    (hosts : Hosts schema type (allRecords files))
    (empty : server.table initial db schema.table = some ⟨type, 0⟩)
    (reachable : TextReachable db files initial after) :
    (∃ p ≤ (allRecords files).length,
      server.Leaves db schema.table
        ⟨type, (schema.newest ((allRecords files).take p)).map type.keep⟩ initial after.state ∧
      ∀ builder, after.process = .stopped builder →
        (allRecords files).length ≤ p + INSERT_NUM_TUPLES) ∧
    ∀ builder query, after.process = .holding builder query →
      ∃ later, server.execute db after.state query = some later := by
  rcases reachable.serves readable nonempty documented hosts empty with ⟨world, serves⟩
  constructor
  · exact serves.newestOfPrefix readable nonempty
  · intro builder query holding
    exact serves.accepts readable nonempty documented hosts holding

end

private theorem sampleSchema_describes : sampleSchema.Describes Schema.sampleColumns :=
  { quotes := Schema.quotes_sampleColumns
    clean := by decide
    distinct := by decide
    last := rfl
    someKey := ⟨0, by decide, by decide⟩
    someOther := ⟨1, by decide, by decide⟩ }

theorem sampleFiles_plain :
    ∀ rec ∈ allRecords sampleFiles, Schema.PlainRow Schema.sampleColumns rec := by
  intro rec member
  have values : rec.length = 3 ∧ ∀ value ∈ rec, quote ∉ value ∧ backslash ∉ value := by
    revert rec
    decide
  exact ⟨values.1, values.2⟩

theorem sampleType_hosts {records : List Record}
    (plain : ∀ rec ∈ records, Schema.PlainRow Schema.sampleColumns rec) :
    Hosts sampleSchema sampleType records :=
  { describes := sampleSchema_describes
    plain := plain
    suits := suits_binary (fun _ => rfl) _ fun rec member => (plain rec member).width
    allows := fun _ within => sampleType_allows fun row member => (plain row (within row member)).width }

def sampleTables : Sql.plainServer.State :=
  fun _ table => if table = ascii "t" then some ⟨sampleType, 0⟩ else none

section

variable {server : Server} (db : Bytes) (state : server.State)

def hashedSegment : Segment :=
  { inserted := {97}
    committedHandleIdx := 0
    committedOffset := 0 }

theorem sampleFiles_hashedText : Relation.ReflTransGen (TextStep db sampleFiles)
    ⟨.down Segment.fresh, state⟩ ⟨.down hashedSegment, state⟩ :=
  .tail (.single (.start _ sampleMemory_sized rfl)) (.inside ⟨rfl, rfl, 1, by decide, _, _, rfl, rfl⟩)

theorem sampleFiles_updateText : ∃ builder, builder.segment.inserted = {97} ∧
    Relation.ReflTransGen (TextStep db sampleFiles) ⟨.down hashedSegment, state⟩
      ⟨.holding builder (sampleSchema.makeUpdateStatement [[97], [49], [48]]), state⟩ :=
  ⟨_, rfl, .tail (.single (.start _ sampleMemory_sized rfl)) (.query rfl (List.cons_ne_nil _ _))⟩

theorem sampleFiles_insertText : ∃ builder, builder.segment.inserted = {98, 97} ∧
    Relation.ReflTransGen (TextStep db sampleFiles) ⟨.down Segment.fresh, state⟩
      ⟨.holding builder (sampleSchema.makeInsertStatement [[[97], [49], [48]], [[98], [49], [48]]]),
        state⟩ :=
  ⟨_, rfl, .tail (.single (.start _ sampleMemory_sized rfl)) (.query rfl (List.cons_ne_nil _ _))⟩

end

/-- The first call is killed behind its first hash. The update behind it is
accepted, and the table then is that of the first records. -/
theorem texts_newestOfPrefix_sampleFiles :
    ∃ p ≤ 3, ∃ later,
      Sql.plainServer.execute (ascii "db") sampleTables
        (sampleSchema.makeUpdateStatement [[97], [49], [48]]) = some later ∧
      Sql.plainServer.Leaves (ascii "db") (ascii "t")
        ⟨sampleType,
          (sampleSchema.newest ((allRecords sampleFiles).take p)).map sampleType.keep⟩
        sampleTables later := by
  have documented : Sql.plainServer.Documented (ascii "db") sampleSchema.table :=
    Sql.plainServer_documented _ _
  have hosts := sampleType_hosts sampleFiles_plain
  have nonempty : sampleFiles ≠ [] := List.cons_ne_nil _ _
  rcases sampleFiles_updateText (ascii "db") sampleTables with ⟨builder, _, restarted⟩
  have reachable : TextReachable (ascii "db") sampleFiles sampleTables _ :=
    (sampleFiles_hashedText (ascii "db") sampleTables).trans restarted
  rcases (texts_newestOfPrefix sampleFiles_readable nonempty documented hosts rfl reachable).2
    _ _ rfl with ⟨later, accepted⟩
  rcases (texts_newestOfPrefix sampleFiles_readable nonempty documented hosts rfl
    (reachable.tail (.execute accepted))).1 with ⟨p, inside, leaves, _⟩
  exact ⟨p, inside, later, accepted, leaves⟩

end ChangeSql
