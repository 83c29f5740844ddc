/-
The imports of all tables at the same time.

Every task has a builder of its own and a segment that is found by the name
of its database and its table with a dot between them. Databases without a dot
in their names make that name the task's own. Then the builders do not notice
each other, in whatever order the cores let them go on.
-/

import ChangeSql.Crashes
import ChangeSql.Distribution

namespace ChangeSql

open Transitions (Shared Interleaved Consistent)

/-- The name of the shared memory of a task. -/
def TableTask.memId (task : TableTask) : Bytes :=
  task.db ++ [dot] ++ task.table

example : ascii "a.b" ++ [dot] ++ ascii "c" = ascii "a" ++ [dot] ++ ascii "b.c" := rfl

private theorem append_dot_inj {first second front back : Bytes} (noDot : dot ∉ first)
    (otherNoDot : dot ∉ second) (same : first ++ [dot] ++ front = second ++ [dot] ++ back) :
    first = second ∧ front = back := by
  induction first generalizing second with
  | nil =>
      cases second with
      | nil => exact ⟨rfl, List.tail_eq_of_cons_eq same⟩
      | cons byte second =>
          have head : dot = byte := List.head_eq_of_cons_eq same
          exact absurd (head ▸ List.mem_cons_self) otherNoDot
  | cons byte first ih =>
      cases second with
      | nil =>
          have head : byte = dot := List.head_eq_of_cons_eq same
          exact absurd (head ▸ List.mem_cons_self) noDot
      | cons other second =>
          rw [List.mem_cons, not_or] at noDot otherNoDot
          rcases List.cons.inj same with ⟨headIs, tailIs⟩
          rcases ih noDot.2 otherNoDot.2 tailIs with ⟨namesAre, tablesAre⟩
          exact ⟨by rw [headIs, namesAre], tablesAre⟩

section

variable {runtime : Runtime} {tasks : List TableTask}

def segmentOf (world : World) : Segment :=
  world.process.segment

def attachTo (segment : Segment) : World → World
  | ⟨.down _, log⟩ => ⟨.down segment, log⟩
  | world => world

private theorem attachTo_segmentOf (world : World) : attachTo (segmentOf world) world = world := by
  rcases world with ⟨process, log⟩
  cases process <;> rfl

/-- The importers of all tasks and the segments by name. A task is known by its
number. -/
abbrev Importers (tasks : List TableTask) : Type :=
  Shared (Fin tasks.length) World Bytes Segment

def Importers.start (tasks : List TableTask) : Importers tasks :=
  { parts := fun _ => World.fresh
    store := fun _ => Segment.fresh }

abbrev TaskFiles (runtime : Runtime) (tasks : List TableTask) : Type :=
  ∀ i : Fin tasks.length, List (Csv runtime (tasks.get i).schema)

def ImportersStep (files : TaskFiles runtime tasks) : Importers tasks → Importers tasks → Prop :=
  Interleaved (fun i => (tasks.get i).memId) segmentOf attachTo fun i => CrashStep (files i)

def ImportersReachable (files : TaskFiles runtime tasks) (importers : Importers tasks) : Prop :=
  Relation.ReflTransGen (ImportersStep files) (Importers.start tasks) importers

theorem memId_injective (once : (tasks.map fun task => (task.db, task.table)).Nodup)
    (noDots : ∀ task ∈ tasks, dot ∉ task.db) :
    Function.Injective fun i : Fin tasks.length => (tasks.get i).memId := by
  intro first second same
  rcases append_dot_inj (noDots _ (List.get_mem tasks first)) (noDots _ (List.get_mem tasks second))
    same with ⟨sameDb, sameTable⟩
  have samePair : (tasks.map fun task => (task.db, task.table))[first.val]? =
      (tasks.map fun task => (task.db, task.table))[second.val]? := by
    rw [List.getElem?_map, List.getElem?_map, List.getElem?_eq_getElem first.isLt,
      List.getElem?_eq_getElem second.isLt]
    exact congrArg some (Prod.ext sameDb sameTable)
  have inside : first.val < (tasks.map fun task => (task.db, task.table)).length := by
    rw [List.length_map]
    exact first.isLt
  exact Fin.ext ((List.getElem?_inj inside once).mp samePair)

/-- Each importer does what it does alone. -/
theorem ImportersReachable.alone {files : TaskFiles runtime tasks} {importers : Importers tasks}
    (once : (tasks.map fun task => (task.db, task.table)).Nodup)
    (noDots : ∀ task ∈ tasks, dot ∉ task.db) (reachable : ImportersReachable files importers) :
    Consistent (fun i => (tasks.get i).memId) segmentOf importers ∧
      ∀ i, CrashReachable (files i) (importers.parts i) :=
  Transitions.project reachable (memId_injective once noDots) attachTo_segmentOf fun _ => rfl

theorem EveryTableOnce.noDots {tree : DataTree} {cores : List (List TableTask)}
    (shares : EveryTableOnce tree cores) (noDots : ∀ db ∈ tree.databases, dot ∉ db) :
    ∀ task ∈ cores.flatten, dot ∉ task.db := by
  intro task member
  have inTree := shares.tables.mem_iff.mp
    (List.mem_map_of_mem (f := fun task => (task.db, task.table)) member)
  rcases List.mem_flatMap.mp inTree with ⟨db, isDatabase, inTables⟩
  rcases List.mem_map.mp inTables with ⟨table, _, same⟩
  rw [← (Prod.mk.inj same).1]
  exact noDots db isDatabase

/-- Whatever order the tables of all cores are imported in, each with kills and
restarts, every table is the one that a prefix of its own records makes, and
all of it but an unfinished batch once its loop has stopped. -/
theorem importers_newestOfPrefix {tree : DataTree} {cores : List (List TableTask)}
    (shares : EveryTableOnce tree cores) (noDots : ∀ db ∈ tree.databases, dot ∉ db)
    {files : TaskFiles runtime cores.flatten} (readable : ∀ i, Readable (files i))
    (nonempty : ∀ i, files i ≠ []) {importers : Importers cores.flatten}
    (reachable : ImportersReachable files importers) (i : Fin cores.flatten.length) :
    importers.store (cores.flatten.get i).memId = (importers.parts i).process.segment ∧
      ∃ p, NewestOfPrefix (files i) (importers.parts i) p := by
  have once := shares.tables.nodup_iff.mpr tree.pairs_nodup
  rcases reachable.alone once (shares.noDots noDots) with ⟨consistent, alone⟩
  exact ⟨consistent i, ((alone i).sound (readable i) (nonempty i)).newestOfPrefix⟩

end

/-! ### Two tables of one name -/

private theorem twoDatabases_once : [ascii "a", ascii "b"].Nodup := by
  decide

private theorem twoDatabases_tables (_db : Bytes) : [ascii "t"].Nodup :=
  List.nodup_singleton _

def twoDatabases : DataTree :=
  { sources := [ascii "x"]
    databases := [ascii "a", ascii "b"]
    tables := fun _ => [ascii "t"]
    someSource := List.cons_ne_nil _ _
    sourcesOnce := List.nodup_singleton _
    databasesOnce := twoDatabases_once
    tablesOnce := twoDatabases_tables }

def taskOfDatabase (db : Bytes) : TableTask :=
  { db := db
    table := ascii "t"
    tableDdl := []
    ddlInfo :=
      { fieldNames := [ascii "`k`", ascii "`v`", ascii "`updated_at`"]
        uniqueMask := 1
        floatMask := 0
        doubleMask := 0 }
    csvs := [] }

def twoCores : List (List TableTask) :=
  [[taskOfDatabase (ascii "a")], [taskOfDatabase (ascii "b")], [], []]

theorem twoCores_shares : EveryTableOnce twoDatabases twoCores :=
  show EveryTableOnce twoDatabases
      (RoundRobin.deal NUM_CPU_CORES [taskOfDatabase (ascii "a"), taskOfDatabase (ascii "b")]) from
    deal_everyTableOnce .rfl

def twoFiles : TaskFiles sampleRuntime twoCores.flatten :=
  Fin.cases sampleFiles (Fin.cases sampleFiles fun i => i.elim0)

theorem twoDatabases_noDots : ∀ db ∈ twoDatabases.databases, dot ∉ db := by
  decide

def Importers.goOn {tasks : List TableTask} (importers : Importers tasks) (i : Fin tasks.length)
    (last : World) : Importers tasks :=
  { parts := Function.update importers.parts i last
    store := Function.update importers.store (tasks.get i).memId (segmentOf last) }

section

variable {tasks : List TableTask} (importers : Importers tasks) (i : Fin tasks.length)
  {j : Fin tasks.length} (last : World)

theorem Importers.goOn_self : (importers.goOn i last).parts i = last := by
  unfold goOn
  dsimp only
  rw [Function.update_self]

theorem Importers.goOn_of_ne (different : j ≠ i) :
    (importers.goOn i last).parts j = importers.parts j := by
  unfold goOn
  dsimp only
  rw [Function.update_of_ne different]

private theorem Importers.goOn_store :
    (importers.goOn i last).store (tasks.get i).memId = segmentOf last := by
  unfold goOn
  dsimp only
  rw [Function.update_self]

private theorem Importers.goOn_store_of_ne {name : Bytes} (other : name ≠ (tasks.get i).memId) :
    (importers.goOn i last).store name = importers.store name := by
  unfold goOn
  dsimp only
  rw [Function.update_of_ne other]

end

theorem ImportersReachable.goesOn {importers : Importers twoCores.flatten} {last : World}
    (reachable : ImportersReachable twoFiles importers) (i : Fin twoCores.flatten.length)
    (run : Relation.ReflTransGen (CrashStep (twoFiles i)) (importers.parts i) last) :
    ImportersReachable twoFiles (importers.goOn i last) := by
  have once := twoCores_shares.tables.nodup_iff.mpr twoDatabases.pairs_nodup
  have noDots := twoCores_shares.noDots twoDatabases_noDots
  have own := (reachable.alone once noDots).1 i
  exact reachable.trans (Interleaved.alone attachTo_segmentOf own run)

theorem twoFiles_readable (i : Fin twoCores.flatten.length) :
    Readable (twoFiles i) ∧ twoFiles i ≠ [] := by
  change Fin 2 at i
  match i with
  | 0 => exact ⟨sampleFiles_readable, List.cons_ne_nil _ _⟩
  | 1 => exact ⟨sampleFiles_readable, List.cons_ne_nil _ _⟩

private theorem sampleFiles_restarts : ∃ builder,
    Relation.ReflTransGen (CrashStep sampleFiles)
      ⟨.down { inserted := {97}, committedHandleIdx := 0, committedOffset := 0 }, []⟩
      ⟨.holding builder (.update [[97], [49], [48]]), []⟩ ∧
    builder.segment.inserted = {97} := by
  exact ⟨_, .tail (.single (.step (.start _ sampleMemory_sized rfl))) (.step (.query rfl nofun)), rfl⟩

private theorem sampleFiles_batch : ∃ builder,
    Relation.ReflTransGen (CrashStep sampleFiles) World.fresh
      ⟨.executed builder, [.insert [[[97], [49], [48]], [[98], [49], [48]]]]⟩ ∧
    builder.segment.inserted = {98, 97} := by
  exact ⟨_, .tail (.tail (.single (.step (.start _ sampleMemory_sized rfl))) (.step (.query rfl nofun)))
    (.step .execute), rfl⟩

/-- The importer of `a.t` is killed behind its first hash and started again when
the importer of `b.t` has executed its first batch. -/
theorem importers_newestOfPrefix_twoFiles : ∃ importers : Importers twoCores.flatten,
    ImportersReachable twoFiles importers ∧
      (∃ builder, importers.parts ⟨0, by decide⟩ =
        ⟨.holding builder (.update [[97], [49], [48]]), []⟩) ∧
      (importers.store (ascii "a.t")).inserted = {97} ∧
      (importers.store (ascii "b.t")).inserted = {98, 97} ∧
      ∀ i : Fin twoCores.flatten.length,
        importers.store (twoCores.flatten.get i).memId = (importers.parts i).process.segment ∧
          ∃ p, NewestOfPrefix (twoFiles i) (importers.parts i) p := by
  let first : Fin twoCores.flatten.length := ⟨0, by decide⟩
  let second : Fin twoCores.flatten.length := ⟨1, by decide⟩
  have different : first ≠ second := by decide
  have apart : (twoCores.flatten.get first).memId ≠ (twoCores.flatten.get second).memId := by decide
  rcases sampleFiles_restarts with ⟨again, restarts, firstHashes⟩
  rcases sampleFiles_batch with ⟨builder, batch, secondHashes⟩
  let hashed : World :=
    ⟨.down { inserted := {97}, committedHandleIdx := 0, committedOffset := 0 }, []⟩
  let inserted : World := ⟨.executed builder, [.insert [[[97], [49], [48]], [[98], [49], [48]]]]⟩
  let updating : World := ⟨.holding again (.update [[97], [49], [48]]), []⟩
  have killed : ImportersReachable twoFiles ((Importers.start _).goOn first hashed) :=
    ImportersReachable.goesOn .refl first sampleFiles_crashed
  have batched : ImportersReachable twoFiles
      (((Importers.start _).goOn first hashed).goOn second inserted) := by
    apply killed.goesOn second
    rw [Importers.goOn_of_ne _ _ _ different.symm]
    exact batch
  have both : ImportersReachable twoFiles
      ((((Importers.start _).goOn first hashed).goOn second inserted).goOn first updating) := by
    apply batched.goesOn first
    rw [Importers.goOn_of_ne _ _ _ different, Importers.goOn_self]
    exact restarts
  refine ⟨_, both, ⟨again, Importers.goOn_self _ _ _⟩, ?_, ?_, ?_⟩
  · have store := Importers.goOn_store
      (((Importers.start twoCores.flatten).goOn first hashed).goOn second inserted) first updating
    exact (congrArg Segment.inserted store).trans firstHashes
  · have still := Importers.goOn_store_of_ne
      (((Importers.start twoCores.flatten).goOn first hashed).goOn second inserted) first
      updating apart.symm
    have store := Importers.goOn_store ((Importers.start twoCores.flatten).goOn first hashed) second
      inserted
    exact (congrArg Segment.inserted (still.trans store)).trans secondHashes
  · exact importers_newestOfPrefix twoCores_shares twoDatabases_noDots
      (fun i => (twoFiles_readable i).1) (fun i => (twoFiles_readable i).2) both

end ChangeSql
