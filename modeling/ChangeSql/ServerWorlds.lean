/-
The imports of all tables on one server.

The importers work on one server and on the segments of one machine. Each owns
the segment and the table of its task. It leaves all others alone, since the
texts that it sends name no other table, and so nobody is in anybody's way.
-/

import ChangeSql.TableWorlds
import ChangeSql.TextWorlds

namespace ChangeSql

open FreshRuns NewestWins
open Sql (Server TableType)
open Transitions (Common Acting Guaranteed)

structure Surroundings (server : Server) where
  segments : Bytes → Segment
  state : server.State

def TextProcess.attach (process : TextProcess) (segment : Segment) : TextProcess :=
  match process with
  | down _ => down segment
  | other => other

private theorem TextProcess.attach_segment (process : TextProcess) :
    process.attach process.segment = process := by
  cases process with
  | down segment => rfl
  | ready builder => rfl
  | holding builder query => rfl
  | executed builder => rfl
  | stopped builder => rfl

section

variable {runtime : Runtime} {server : Server}

/-- A step of one importer, over its segment and in the database of its task. -/
inductive ImporterStep (task : TableTask) (files : List (Csv runtime task.schema)) :
    TextProcess → Surroundings server → TextProcess → Surroundings server → Prop where
  | act {process after : TextProcess} {around : Surroundings server} {state : server.State}
      (taken : TextStep task.db files
        ⟨process.attach (around.segments task.memId), around.state⟩ ⟨after, state⟩) :
      ImporterStep task files process around after
        { segments := Function.update around.segments task.memId after.segment
          state := state }

/-- The segment is the one that the process has, and the table is the one that
the statements so far have made of it. -/
structure Owned (task : TableTask) (files : List (Csv runtime task.schema)) (type : TableType)
    (process : TextProcess) (around : Surroundings server) : Prop where
  segment : around.segments task.memId = process.segment
  serves : ∃ world, Serves task.db files type around.state world ⟨process, around.state⟩

structure OnlyOf (task : TableTask) (around later : Surroundings server) : Prop where
  segments : ∀ name ≠ task.memId, later.segments name = around.segments name
  tables : ∀ db table, (db, table) ≠ (task.db, task.table) →
    server.table later.state db table = server.table around.state db table

private theorem Serves.rebase {schema : Schema} {db : Bytes} {files : List (Csv runtime schema)}
    {type : TableType} {initial state : server.State} {world : World} {text : TextWorld server}
    (serves : Serves db files type initial world text)
    (stored : server.table state db schema.table =
      some ⟨type, (world.table schema).map type.keep⟩) :
    Serves db files type state world ⟨text.process, state⟩ :=
  { reachable := serves.reachable
    process := serves.process
    leaves := ⟨stored, fun _ _ _ => rfl⟩ }

variable {task : TableTask} {files : List (Csv runtime task.schema)} {type : TableType}
  {process after : TextProcess} {around later : Surroundings server}

theorem Owned.step (readable : Readable files) (nonempty : files ≠ [])
    (documented : server.Documented task.db task.table)
    (hosts : Hosts task.schema type (allRecords files))
    (owned : Owned task files type process around)
    (step : ImporterStep task files process around after later) :
    Owned task files type after later ∧ OnlyOf task around later := by
  rcases owned.serves with ⟨world, serves⟩
  cases step with
  | act taken =>
      rw [owned.segment, process.attach_segment] at taken
      rcases serves.step readable nonempty documented hosts taken with ⟨next, nextServes⟩
      constructor
      · exact ⟨Function.update_self _ _ _, next, nextServes.rebase nextServes.leaves.here⟩
      · constructor
        · intro name other
          exact Function.update_of_ne other _ _
        · exact nextServes.leaves.others

/-- An importer can do what it does without the others. -/
theorem ImporterStep.run {last : TextWorld server}
    (own : around.segments task.memId = process.segment)
    (run : Relation.ReflTransGen (TextStep task.db files) ⟨process, around.state⟩ last) :
    Relation.ReflTransGen (fun before after : TextProcess × Surroundings server =>
        ImporterStep task files before.1 before.2 after.1 after.2)
      (process, around)
      (last.process,
        { segments := Function.update around.segments task.memId last.process.segment
          state := last.state }) := by
  induction run with
  | refl =>
      rw [← own, Function.update_eq_self]
  | @tail middle last _ taken ih =>
      have acted : ImporterStep task files middle.process
          { segments := Function.update around.segments task.memId middle.process.segment
            state := middle.state } last.process
          { segments := Function.update (Function.update around.segments task.memId
              middle.process.segment) task.memId last.process.segment
            state := last.state } := by
        apply ImporterStep.act
        dsimp only
        rw [Function.update_self, TextProcess.attach_segment]
        exact taken
      rw [Function.update_idem] at acted
      exact ih.tail acted

/-- What another importer guarantees is enough to keep what this one owns. -/
theorem Owned.stable {other : TableTask} (cells : task.memId ≠ other.memId)
    (tables : (task.db, task.table) ≠ (other.db, other.table))
    (given : OnlyOf other around later) (owned : Owned task files type process around) :
    Owned task files type process later := by
  rcases owned.serves with ⟨world, serves⟩
  refine ⟨(given.segments _ cells).trans owned.segment, world, serves.rebase ?_⟩
  change server.table later.state task.db task.table = _
  rw [given.tables _ _ tables]
  exact serves.leaves.here

end

section

variable {runtime : Runtime} {tasks : List TableTask} {server : Server}

abbrev Site (server : Server) (tasks : List TableTask) : Type :=
  Common (Fin tasks.length) TextProcess (Surroundings server)

def Site.start (tasks : List TableTask) (state : server.State) : Site server tasks :=
  { parts := fun _ => .down Segment.fresh
    memory := { segments := fun _ => Segment.fresh, state := state } }

def SiteReachable (files : TaskFiles runtime tasks) (state : server.State)
    (site : Site server tasks) : Prop :=
  Relation.ReflTransGen (Acting fun i => ImporterStep (tasks.get i) (files i))
    (Site.start tasks state) site

/-- What the files and the server are to be like: for each task an empty table
that the records of its files are for. -/
structure Importable (files : TaskFiles runtime tasks) (types : Fin tasks.length → TableType)
    (state : server.State) : Prop where
  readable : ∀ i, Readable (files i)
  nonempty : ∀ i, files i ≠ []
  documented : ∀ i, server.Documented (tasks.get i).db (tasks.get i).table
  hosts : ∀ i, Hosts (tasks.get i).schema (types i) (allRecords (files i))
  empty : ∀ i, server.table state (tasks.get i).db (tasks.get i).table = some ⟨types i, 0⟩

variable {files : TaskFiles runtime tasks} {types : Fin tasks.length → TableType}
  {state : server.State} {site : Site server tasks}

private theorem Importable.guaranteed (importable : Importable files types state)
    (once : (tasks.map fun task => (task.db, task.table)).Nodup)
    (noDots : ∀ task ∈ tasks, dot ∉ task.db) :
    Guaranteed
      (fun i part (around : Surroundings server) => ImporterStep (tasks.get i) (files i) part around)
      (fun i => Owned (tasks.get i) (files i) (types i)) fun i => OnlyOf (tasks.get i) where
  keeps := by
    intro i process around after later owned step
    exact owned.step (importable.readable i) (importable.nonempty i) (importable.documented i)
      (importable.hosts i) step
  stable := by
    intro i j process around later different given owned
    apply owned.stable _ _ given
    · exact fun same => different (memId_injective once noDots same).symm
    · intro same
      rw [Prod.mk.injEq] at same
      have sameCell : (tasks.get i).memId = (tasks.get j).memId := by
        unfold TableTask.memId
        rw [same.1, same.2]
      exact different (memId_injective once noDots sameCell)

theorem Importable.start (importable : Importable files types state) (i : Fin tasks.length) :
    Owned (tasks.get i) (files i) (types i) ((Site.start tasks state).parts i)
      (Site.start tasks state).memory :=
  { segment := rfl
    serves := ⟨World.fresh, .fresh (importable.empty i)⟩ }

theorem SiteReachable.others
    (changed : Relation.ReflTransGen (fun around later => ∃ i, OnlyOf (tasks.get i) around later)
      (Site.start tasks state).memory site.memory) {db table : Bytes}
    (noTask : (db, table) ∉ tasks.map fun task => (task.db, task.table)) :
    server.table site.memory.state db table = server.table state db table := by
  generalize site.memory = around at changed
  induction changed with
  | refl => rfl
  | tail _ last ih =>
      rcases last with ⟨i, only⟩
      rw [only.tables, ih]
      intro same
      exact noTask (List.mem_map.mpr ⟨tasks.get i, List.get_mem tasks i, same.symm⟩)

/-- Each table of the tree is the one that a prefix of its own records makes,
all of them but for an unfinished batch once its loop has stopped. The server
accepts every text, and the tables outside of the tree are as they were. -/
structure EveryTableNewest {cores : List (List TableTask)} (tree : DataTree)
    (files : TaskFiles runtime cores.flatten) (types : Fin cores.flatten.length → TableType)
    (state : server.State) (site : Site server cores.flatten) : Prop where
  tables : ∀ i, ∃ p ≤ (allRecords (files i)).length,
    server.table site.memory.state (cores.flatten.get i).db (cores.flatten.get i).table =
      some ⟨types i, ((cores.flatten.get i).schema.newest
        ((allRecords (files i)).take p)).map (types i).keep⟩ ∧
    ∀ builder, site.parts i = .stopped builder →
      (allRecords (files i)).length ≤ p + INSERT_NUM_TUPLES
  accepted : ∀ i builder query, site.parts i = .holding builder query →
    ∃ later, server.execute (cores.flatten.get i).db site.memory.state query = some later
  others : ∀ db table, (db, table) ∉ tree.pairs →
    server.table site.memory.state db table = server.table state db table

/-- So it is in whatever order the importers of all cores go on, are killed and
start again. -/
theorem site_everyTableNewest {tree : DataTree} {cores : List (List TableTask)}
    (shares : EveryTableOnce tree cores) (noDots : ∀ db ∈ tree.databases, dot ∉ db)
    {files : TaskFiles runtime cores.flatten} {types : Fin cores.flatten.length → TableType}
    (importable : Importable files types state) {site : Site server cores.flatten}
    (reachable : SiteReachable files state site) :
    EveryTableNewest tree files types state site := by
  have once := shares.tables.nodup_iff.mpr tree.pairs_nodup
  rcases (importable.guaranteed once (shares.noDots noDots)).run importable.start reachable with
    ⟨owned, changed⟩
  constructor
  · intro i
    rcases (owned i).serves with ⟨world, serves⟩
    rcases serves.newestOfPrefix (importable.readable i) (importable.nonempty i) with
      ⟨p, inside, leaves, ended⟩
    exact ⟨p, inside, leaves.here, ended⟩
  · intro i builder query holding
    rcases (owned i).serves with ⟨world, serves⟩
    exact serves.accepts (importable.readable i) (importable.nonempty i)
      (importable.documented i) (importable.hosts i) holding
  · intro db table noTable
    apply SiteReachable.others changed
    exact fun isTask => noTable (shares.tables.mem_iff.mp isTask)

end

/-! ### Two databases on one server -/

private theorem twoFiles_importable :
    Importable twoFiles (fun _ => sampleType) sampleTables := by
  have each (i : Fin twoCores.flatten.length) :
      Hosts (twoCores.flatten.get i).schema sampleType (allRecords (twoFiles i)) ∧
        sampleTables (twoCores.flatten.get i).db (twoCores.flatten.get i).table =
          some ⟨sampleType, 0⟩ := by
    change Fin 2 at i
    match i with
    | 0 => exact ⟨sampleType_hosts sampleFiles_plain, rfl⟩
    | 1 => exact ⟨sampleType_hosts sampleFiles_plain, rfl⟩
  exact
    { readable := fun i => (twoFiles_readable i).1
      nonempty := fun i => (twoFiles_readable i).2
      documented := fun _ => Sql.plainServer_documented _ _
      hosts := fun i => (each i).1
      empty := fun i => (each i).2 }

section

variable (site : Site Sql.plainServer twoCores.flatten) (i : Fin twoCores.flatten.length)
  {j : Fin twoCores.flatten.length} (last : TextWorld Sql.plainServer)

def Site.goOn : Site Sql.plainServer twoCores.flatten :=
  { parts := Function.update site.parts i last.process
    memory :=
      { segments := Function.update site.memory.segments (twoCores.flatten.get i).memId
          last.process.segment
        state := last.state } }

theorem Site.goOn_self : (site.goOn i last).parts i = last.process := by
  unfold goOn
  dsimp only
  rw [Function.update_self]

theorem Site.goOn_of_ne (different : j ≠ i) : (site.goOn i last).parts j = site.parts j := by
  unfold goOn
  dsimp only
  rw [Function.update_of_ne different]

variable {site}

theorem SiteReachable.goesOn (reachable : SiteReachable twoFiles sampleTables site)
    {process : TextProcess} (there : site.parts i = process)
    (run : Relation.ReflTransGen (TextStep (twoCores.flatten.get i).db (twoFiles i))
      ⟨process, site.memory.state⟩ last) :
    SiteReachable twoFiles sampleTables (site.goOn i last) := by
  have once := twoCores_shares.tables.nodup_iff.mpr twoDatabases.pairs_nodup
  have noDots := twoCores_shares.noDots twoDatabases_noDots
  rcases (twoFiles_importable.guaranteed once noDots).run twoFiles_importable.start reachable with
    ⟨owned, _⟩
  subst there
  have solo : Relation.ReflTransGen
      (fun before after : TextProcess × Surroundings Sql.plainServer =>
        ImporterStep (twoCores.flatten.get i) (twoFiles i) before.1 before.2 after.1 after.2)
      (site.parts i, site.memory) _ := ImporterStep.run (owned i).segment run
  have whole : Relation.ReflTransGen
      (Acting fun i => ImporterStep (twoCores.flatten.get i) (twoFiles i)) site _ :=
    Acting.alone solo
  exact reachable.trans whole

end

/-- The importer in database `a` is killed behind its first hash and started
again when the importer in database `b` has executed its first batch. -/
theorem site_everyTableNewest_twoFiles : ∃ site : Site Sql.plainServer twoCores.flatten,
    SiteReachable twoFiles sampleTables site ∧
      (∃ builder, builder.segment.inserted = {97} ∧ site.parts ⟨0, by decide⟩ =
        .holding builder (sampleSchema.makeUpdateStatement [[97], [49], [48]])) ∧
      (∃ builder, builder.segment.inserted = {98, 97} ∧
        site.parts ⟨1, by decide⟩ = .executed builder) ∧
      EveryTableNewest twoDatabases twoFiles (fun _ => sampleType) sampleTables site := by
  let first : Fin twoCores.flatten.length := ⟨0, by decide⟩
  let second : Fin twoCores.flatten.length := ⟨1, by decide⟩
  have different : first ≠ second := by decide
  rcases sampleFiles_insertText (ascii "b") sampleTables with ⟨builder, builderHashes, batch⟩
  let hashed : TextWorld Sql.plainServer := ⟨.down hashedSegment, sampleTables⟩
  let batched : TextWorld Sql.plainServer := ⟨.holding builder (sampleSchema.makeInsertStatement
    [[[97], [49], [48]], [[98], [49], [48]]]), sampleTables⟩
  have killed : SiteReachable twoFiles sampleTables ((Site.start _ sampleTables).goOn first hashed) :=
    SiteReachable.goesOn first hashed .refl rfl (sampleFiles_hashedText (ascii "a") sampleTables)
  have held : SiteReachable twoFiles sampleTables
      (((Site.start _ sampleTables).goOn first hashed).goOn second batched) :=
    killed.goesOn second batched (Site.goOn_of_ne _ _ _ different.symm) batch
  rcases (site_everyTableNewest twoCores_shares twoDatabases_noDots twoFiles_importable held).accepted
    second _ _ (Site.goOn_self _ _ _) with ⟨later, accepted⟩
  let executed : TextWorld Sql.plainServer := ⟨.executed builder, later⟩
  have went : SiteReachable twoFiles sampleTables
      ((((Site.start _ sampleTables).goOn first hashed).goOn second batched).goOn second executed) :=
    held.goesOn second executed (Site.goOn_self _ _ _) (.single (.execute accepted))
  rcases sampleFiles_updateText (ascii "a") later with ⟨again, againHashes, restarts⟩
  have both := went.goesOn first _
    ((Site.goOn_of_ne _ _ _ different).trans
      ((Site.goOn_of_ne _ _ _ different).trans (Site.goOn_self _ _ _))) restarts
  refine ⟨_, both, ⟨again, againHashes, Site.goOn_self _ _ _⟩, ⟨builder, builderHashes, ?_⟩, ?_⟩
  · rw [Site.goOn_of_ne _ _ _ different.symm]
    exact Site.goOn_self _ _ _
  · exact site_everyTableNewest twoCores_shares twoDatabases_noDots twoFiles_importable both

end ChangeSql
