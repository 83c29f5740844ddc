/-
One task for each table of a data directory.

`extract_table_tasks` takes the databases and the tables from the source that
is listed first and pairs them with all sources. It looks for the suffix of
every name in a database directory, and a name without room for one ends the
program.
-/

import ChangeSql.Directory
import Mathlib.Data.List.Nodup
import Mathlib.Data.List.Perm.Basic

namespace ChangeSql

/-! ### What a data directory holds -/

/-- The sources have the same databases, and a database has the same tables in
each of them. A name occurs once in its directory. -/
structure DataTree where
  sources : List Bytes
  databases : List Bytes
  tables : Bytes → List Bytes
  someSource : sources ≠ []
  sourcesOnce : sources.Nodup
  databasesOnce : databases.Nodup
  tablesOnce : ∀ db, (tables db).Nodup

namespace DataTree

def pairs (tree : DataTree) : List (Bytes × Bytes) :=
  tree.databases.flatMap fun db => (tree.tables db).map fun table => (db, table)

theorem pairs_nodup (tree : DataTree) : tree.pairs.Nodup := by
  unfold pairs
  rw [List.nodup_flatMap]
  constructor
  · intro db _
    exact (tree.tablesOnce db).map fun _ _ same => (Prod.mk.inj same).2
  · apply tree.databasesOnce.imp
    intro db other different pair inFirst inSecond
    obtain ⟨table, _, rfl⟩ := List.mem_map.mp inFirst
    obtain ⟨otherTable, _, same⟩ := List.mem_map.mp inSecond
    exact different (Prod.mk.inj same).1.symm

end DataTree

def sqlFile (table : Bytes) : Bytes :=
  table ++ ascii ".sql"

def databasePath (sourcePath db : Bytes) : Bytes :=
  sourcePath ++ db ++ ascii "/"

/-- The directories are those of the tree, listed in any order and with any
other files between them, the `.csv` files among these. A file has no entries
of its own, and every name that ends in `.sql` is that of a table. -/
structure DataTree.Stored (tree : DataTree) (fs : FileSystem) (dataPath : Bytes) : Prop where
  sources : ∃ others, (listDir fs dataPath).Perm (tree.sources ++ others) ∧
    ∀ name ∈ others, listDir fs (srcPath dataPath name) = []
  databases : ∀ src ∈ tree.sources,
    ∃ others, (listDir fs (srcPath dataPath src)).Perm (tree.databases ++ others) ∧
      ∀ name ∈ others, listDir fs (databasePath (srcPath dataPath src) name) = []
  tables : ∀ src ∈ tree.sources, ∀ db ∈ tree.databases,
    ∃ others, (listDir fs (databasePath (srcPath dataPath src) db)).Perm
        ((tree.tables db).map sqlFile ++ others) ∧
      ∀ name ∈ others, ¬ ascii ".sql" <:+ name
  ddls : ∀ src ∈ tree.sources, ∀ db ∈ tree.databases, ∀ table ∈ tree.tables db,
    ∃ info, parseDdl (readFile fs (databasePath (srcPath dataPath src) db ++ sqlFile table)) =
      .ok info
  sizes : ∀ path, ∀ name ∈ fs.readdir path, name.length < 2 ^ 64

structure OneTaskEach (tree : DataTree) (dataPath : Bytes) (tasks : List TableTask) : Prop where
  once : (tasks.map fun task => (task.db, task.table)).Nodup
  pairs : ∀ pair, pair ∈ tasks.map (fun task => (task.db, task.table)) ↔ pair ∈ tree.pairs
  csvs : ∃ order : List Bytes, order.Perm tree.sources ∧
    ∀ task ∈ tasks, task.csvs = order.map fun src =>
      csvPath (srcPath dataPath src) task.db task.table

/-! ### The suffix test -/

private theorem suffixStart_of_four_le {item : Bytes} (long : 4 ≤ item.length)
    (size : item.length < 2 ^ 64) : suffixStart item = item.length - 4 := by
  unfold suffixStart
  rw [UInt64.toNat_sub, UInt64.toNat_ofNat']
  change (2 ^ 64 - 4 + item.length % 2 ^ 64) % 2 ^ 64 = _
  omega

private theorem lt_suffixStart {item : Bytes} (short : item.length < 4) :
    item.length < suffixStart item := by
  unfold suffixStart
  rw [UInt64.toNat_sub, UInt64.toNat_ofNat']
  change _ < (2 ^ 64 - 4 + item.length % 2 ^ 64) % 2 ^ 64
  omega

def sqlTable (item : Bytes) : Option Bytes :=
  if item.drop (item.length - 4) = ascii ".sql" then some (item.take (item.length - 4)) else none

private theorem sqlTable_sqlFile (table : Bytes) : sqlTable (sqlFile table) = some table := by
  have start : (sqlFile table).length - 4 = table.length := by
    unfold sqlFile
    rw [List.length_append, show (ascii ".sql").length = 4 from rfl, Nat.add_sub_cancel]
  unfold sqlTable
  rw [start]
  unfold sqlFile
  rw [List.drop_left, List.take_left, if_pos rfl]

private theorem sqlTable_eq_none {item : Bytes} (noSuffix : ¬ ascii ".sql" <:+ item) :
    sqlTable item = none := by
  unfold sqlTable
  rw [if_neg]
  intro suffix
  exact noSuffix (suffix ▸ List.drop_suffix _ _)

theorem tableDdls_eq {fs : FileSystem} {dbPath : Bytes} {items : List Bytes}
    (long : ∀ item ∈ items, 4 ≤ item.length) (sizes : ∀ item ∈ items, item.length < 2 ^ 64) :
    ∃ tables, tableDdls fs dbPath items = .ok tables ∧
      tables.map Prod.fst = items.filterMap sqlTable ∧
      ∀ table ∈ tables, table.2 = readFile fs (dbPath ++ sqlFile table.1) := by
  induction items with
  | nil => exact ⟨[], rfl, rfl, nofun⟩
  | cons item items ih =>
      obtain ⟨tables, found, names, texts⟩ := ih
        (fun other member => long other (List.mem_cons_of_mem _ member))
        (fun other member => sizes other (List.mem_cons_of_mem _ member))
      have itemLong := long item List.mem_cons_self
      have start := suffixStart_of_four_le itemLong (sizes item List.mem_cons_self)
      have inside : ¬ item.length < item.length - 4 := by omega
      unfold tableDdls
      rw [found, substr, start, if_neg inside]
      by_cases suffix : item.drop (item.length - 4) = ascii ".sql"
      · have whole : sqlFile (item.take (item.length - 4)) = item := by
          unfold sqlFile
          rw [← suffix, List.take_append_drop]
        refine ⟨(item.take (item.length - 4), readFile fs (dbPath ++ item)) :: tables, ?_, ?_, ?_⟩
        · simp only [bind, Except.bind, if_pos suffix]
          rfl
        · have isTable : sqlTable item = some (item.take (item.length - 4)) := if_pos suffix
          rw [List.filterMap_cons_some isTable, List.map_cons, names]
        · intro table member
          rcases List.mem_cons.mp member with rfl | later
          · rw [whole]
          · exact texts table later
      · refine ⟨tables, ?_, ?_, texts⟩
        · simp only [bind, Except.bind, if_neg suffix]
          rfl
        · have noTable : sqlTable item = none := if_neg suffix
          rw [List.filterMap_cons_none noTable, names]

private theorem four_le_of_tableDdls {fs : FileSystem} {dbPath : Bytes} {items : List Bytes}
    {tables : List (Bytes × Bytes)} (found : tableDdls fs dbPath items = .ok tables) :
    ∀ item ∈ items, 4 ≤ item.length := by
  induction items generalizing tables with
  | nil => exact nofun
  | cons item items ih =>
      simp only [tableDdls, substr, bind, Except.bind] at found
      split at found
      · cases found
      · rename_i suffix split
        split at found
        · cases found
        · rename_i others othersFound
          intro other member
          rcases List.mem_cons.mp member with rfl | later
          · by_contra short
            rw [if_pos (lt_suffixStart (Nat.lt_of_not_le short))] at split
            cases split
          · exact ih othersFound other later

/-! ### The tasks of a source -/

private theorem mapM_total {α β : Type} {f : α → Except Fault β} {items : List α}
    (each : ∀ item ∈ items, ∃ result, f item = .ok result) :
    ∃ results, items.mapM f = .ok results := by
  induction items with
  | nil => exact ⟨[], rfl⟩
  | cons item items ih =>
      obtain ⟨first, firstIs⟩ := each item List.mem_cons_self
      obtain ⟨others, othersAre⟩ := ih fun other member => each other (List.mem_cons_of_mem _ member)
      refine ⟨first :: others, ?_⟩
      rw [List.mapM_cons, firstIs, othersAre]
      rfl

private theorem map_of_mapM {α β γ : Type} {f : α → Except Fault β} {after : β → γ} {before : α → γ}
    (keeps : ∀ item result, f item = .ok result → after result = before item) {items : List α}
    {results : List β} (mapped : items.mapM f = .ok results) :
    results.map after = items.map before := by
  induction items generalizing results with
  | nil =>
      cases mapped
      rfl
  | cons item items ih =>
      rw [List.mapM_cons] at mapped
      simp only [bind, Except.bind] at mapped
      split at mapped
      · cases mapped
      · rename_i first firstIs
        split at mapped
        · cases mapped
        · rename_i others othersAre
          cases mapped
          rw [List.map_cons, List.map_cons, ih othersAre, keeps item first firstIs]

private theorem tableTask_total {srcsPath : List Bytes} {db : Bytes} {table : Bytes × Bytes}
    (accepted : ∃ info, parseDdl table.2 = .ok info) :
    ∃ task, tableTask srcsPath db table = .ok task := by
  obtain ⟨info, parsed⟩ := accepted
  unfold tableTask
  rw [parsed]
  exact ⟨_, rfl⟩

theorem tableTask_pair {srcsPath : List Bytes} {db : Bytes} (table : Bytes × Bytes)
    (task : TableTask) (made : tableTask srcsPath db table = .ok task) :
    (task.db, task.table) = (db, table.1) := by
  simp only [tableTask, bind, Except.bind] at made
  split at made
  · cases made
  · cases made
    rfl

section

variable {fs : FileSystem} {srcsPath : List Bytes} {first : Bytes} {dbs : List Bytes}

def sqlTables (fs : FileSystem) (dbPath : Bytes) : List Bytes :=
  (listDir fs dbPath).filterMap sqlTable

private theorem databaseTasks_total
    (long : ∀ db ∈ dbs, ∀ item ∈ listDir fs (databasePath first db), 4 ≤ item.length)
    (sizes : ∀ path, ∀ name ∈ fs.readdir path, name.length < 2 ^ 64)
    (ddls : ∀ db ∈ dbs, ∀ table ∈ sqlTables fs (databasePath first db),
      ∃ info, parseDdl (readFile fs (databasePath first db ++ sqlFile table)) = .ok info) :
    ∃ tasks, databaseTasks fs srcsPath first dbs = .ok tasks ∧
      tasks.map (fun task => (task.db, task.table)) =
        dbs.flatMap fun db => (sqlTables fs (databasePath first db)).map fun table => (db, table) := by
  induction dbs with
  | nil => exact ⟨[], rfl, rfl⟩
  | cons db dbs ih =>
      obtain ⟨others, othersAre, otherPairs⟩ := ih
        (fun other member => long other (List.mem_cons_of_mem _ member))
        (fun other member => ddls other (List.mem_cons_of_mem _ member))
      obtain ⟨tables, found, names, texts⟩ := tableDdls_eq (long db List.mem_cons_self)
        (fun name member => sizes _ name (List.mem_of_mem_filter member))
      obtain ⟨mine, mineAre⟩ : ∃ mine, tables.mapM (tableTask srcsPath db) = .ok mine := by
        apply mapM_total
        intro table member
        apply tableTask_total
        rw [texts table member]
        apply ddls db List.mem_cons_self
        unfold sqlTables
        rw [← names]
        exact List.mem_map_of_mem member
      have minePairs := map_of_mapM tableTask_pair mineAre
      refine ⟨mine ++ others, ?_, ?_⟩
      · unfold databaseTasks
        change (tableDdls fs (databasePath first db) (listDir fs (databasePath first db)) >>= _) = _
        rw [found]
        change (tables.mapM (tableTask srcsPath db) >>= _) = _
        rw [mineAre]
        change (databaseTasks fs srcsPath first dbs >>= _) = _
        rw [othersAre]
        rfl
      · rw [List.map_append, otherPairs, List.flatMap_cons, minePairs, sqlTables, ← names,
          List.map_map]
        rfl

private theorem four_le_of_databaseTasks {tasks : List TableTask}
    (extracted : databaseTasks fs srcsPath first dbs = .ok tasks) :
    ∀ db ∈ dbs, ∀ item ∈ listDir fs (databasePath first db), 4 ≤ item.length := by
  induction dbs generalizing tasks with
  | nil => exact nofun
  | cons db dbs ih =>
      simp only [databaseTasks, bind, Except.bind] at extracted
      split at extracted
      · cases extracted
      · rename_i tables found
        split at extracted
        · cases extracted
        · split at extracted
          · cases extracted
          · rename_i others othersAre
            intro other member
            rcases List.mem_cons.mp member with rfl | later
            · exact four_le_of_tableDdls found
            · exact ih othersAre other later

end

/-! ### The tasks of a tree -/

section

variable {tree : DataTree} {fs : FileSystem} {dataPath : Bytes}

private theorem sqlTables_of_empty {dbPath : Bytes} (empty : listDir fs dbPath = []) :
    sqlTables fs dbPath = [] := by
  unfold sqlTables
  rw [empty]
  rfl

private theorem DataTree.Stored.sqlTables_perm (stored : tree.Stored fs dataPath) {src db : Bytes}
    (isSource : src ∈ tree.sources) (isDatabase : db ∈ tree.databases) :
    (sqlTables fs (databasePath (srcPath dataPath src) db)).Perm (tree.tables db) := by
  obtain ⟨others, listed, noTables⟩ := stored.tables src isSource db isDatabase
  have found : ((tree.tables db).map sqlFile ++ others).filterMap sqlTable = tree.tables db := by
    have none : others.filterMap sqlTable = [] :=
      List.filterMap_eq_nil_iff.mpr fun name member => sqlTable_eq_none (noTables name member)
    rw [List.filterMap_append, none, List.append_nil, List.filterMap_map]
    refine (List.filterMap_congr fun table _ => sqlTable_sqlFile table).trans ?_
    exact List.filterMap_some
  exact found ▸ listed.filterMap sqlTable

/-- What `readdir` says about a source is enough for the tasks of the tree. -/
theorem DataTree.Stored.source_total (stored : tree.Stored fs dataPath) (srcsPath : List Bytes)
    {src : Bytes} (isSource : src ∈ tree.sources)
    (long : ∀ db ∈ listDir fs (srcPath dataPath src),
      ∀ item ∈ listDir fs (databasePath (srcPath dataPath src) db), 4 ≤ item.length) :
    ∃ tasks,
      databaseTasks fs srcsPath (srcPath dataPath src) (listDir fs (srcPath dataPath src)) =
        .ok tasks ∧
      (tasks.map fun task => (task.db, task.table)).Perm tree.pairs := by
  obtain ⟨others, listed, noEntries⟩ := stored.databases src isSource
  have accepted : ∀ db ∈ listDir fs (srcPath dataPath src),
      ∀ table ∈ sqlTables fs (databasePath (srcPath dataPath src) db), ∃ info,
        parseDdl (readFile fs (databasePath (srcPath dataPath src) db ++ sqlFile table)) =
          .ok info := by
    intro db member table present
    rcases List.mem_append.mp (listed.mem_iff.mp member) with isDatabase | isOther
    · have isTable := (stored.sqlTables_perm isSource isDatabase).mem_iff.mp present
      exact stored.ddls src isSource db isDatabase table isTable
    · rw [sqlTables_of_empty (noEntries db isOther)] at present
      cases present
  obtain ⟨tasks, extracted, pairs⟩ := databaseTasks_total long stored.sizes accepted
  refine ⟨tasks, extracted, ?_⟩
  have noTables : (others.flatMap fun db =>
      (sqlTables fs (databasePath (srcPath dataPath src) db)).map fun table => (db, table)) = [] := by
    rw [List.flatMap_eq_nil_iff]
    intro db isOther
    rw [sqlTables_of_empty (noEntries db isOther), List.map_nil]
  rw [pairs]
  refine (listed.flatMap_right _).trans ?_
  rw [List.flatMap_append, noTables, List.append_nil]
  apply List.Perm.flatMap_left
  intro db isDatabase
  exact (stored.sqlTables_perm isSource isDatabase).map _

theorem DataTree.Stored.listed_ne_nil (stored : tree.Stored fs dataPath) :
    listDir fs dataPath ≠ [] := by
  obtain ⟨others, listed, _⟩ := stored.sources
  intro none
  rw [none, List.nil_perm, List.append_eq_nil_iff] at listed
  exact tree.someSource listed.1

def TasksRight (tree : DataTree) (fs : FileSystem) (dataPath : Bytes) : Prop :=
  ∃ tasks, extractTableTasks fs dataPath = .ok tasks ∧ OneTaskEach tree dataPath tasks

/-- Every name in a database of the source that is listed first has four bytes
or more. -/
def NamesLong (fs : FileSystem) (dataPath : Bytes) : Prop :=
  ∀ src, (listDir fs dataPath).head? = some src →
    ∀ db ∈ listDir fs (srcPath dataPath src),
      ∀ item ∈ listDir fs (databasePath (srcPath dataPath src) db), 4 ≤ item.length

theorem extractTableTasks_eq {src : Bytes} {others : List Bytes}
    (listed : listDir fs dataPath = src :: others) :
    extractTableTasks fs dataPath =
      databaseTasks fs ((src :: others).map (srcPath dataPath)) (srcPath dataPath src)
        (listDir fs (srcPath dataPath src)) := by
  unfold extractTableTasks
  rw [listed]
  rfl

private theorem namesLong_of_ok {tasks : List TableTask}
    (extracted : extractTableTasks fs dataPath = .ok tasks) : NamesLong fs dataPath := by
  intro src first
  obtain ⟨others, listed⟩ := List.head?_eq_some_iff.mp first
  rw [extractTableTasks_eq listed] at extracted
  exact four_le_of_databaseTasks extracted

/-- The tasks are right exactly when no name in a database of the first source
is too short for the suffix, and nothing but sources is listed beside them or
there are no tables at all. -/
theorem tasksRight_iff (tree : DataTree) (stored : tree.Stored fs dataPath) :
    TasksRight tree fs dataPath ↔
      NamesLong fs dataPath ∧ ((listDir fs dataPath).Perm tree.sources ∨ tree.pairs = []) := by
  obtain ⟨strays, sourcesListed, noEntries⟩ := stored.sources
  constructor
  · rintro ⟨tasks, extracted, _, pairs, order, ordered, csvs⟩
    refine ⟨namesLong_of_ok extracted, ?_⟩
    cases tasks with
    | nil =>
        right
        rw [List.eq_nil_iff_forall_not_mem]
        intro pair member
        cases (pairs pair).mpr member
    | cons task tasks =>
        left
        have files := csvs task List.mem_cons_self
        rw [(extractTableTasks_csvs extracted List.mem_cons_self).2] at files
        have sizes := congrArg List.length files
        rw [List.length_map, List.length_map, sourcesListed.length_eq, ordered.length_eq,
          List.length_append] at sizes
        have none : strays = [] := List.length_eq_zero_iff.mp (by omega)
        rw [none, List.append_nil] at sourcesListed
        exact sourcesListed
  · rintro ⟨long, others⟩
    obtain ⟨src, rest, listed⟩ := List.exists_cons_of_ne_nil stored.listed_ne_nil
    obtain ⟨tasks, extracted, pairs⟩ : ∃ tasks, extractTableTasks fs dataPath = .ok tasks ∧
        (tasks.map fun task => (task.db, task.table)).Perm tree.pairs := by
      rw [extractTableTasks_eq listed]
      have member : src ∈ listDir fs dataPath := listed ▸ List.mem_cons_self
      rcases List.mem_append.mp (sourcesListed.mem_iff.mp member) with isSource | isStray
      · exact stored.source_total _ isSource (long src (by rw [listed]; rfl))
      · rw [noEntries src isStray]
        refine ⟨[], rfl, ?_⟩
        rcases others with onlySources | noPairs
        · exfalso
          have sizes := onlySources.length_eq
          rw [sourcesListed.length_eq, List.length_append] at sizes
          have none : strays = [] := List.length_eq_zero_iff.mp (by omega)
          rw [none] at isStray
          cases isStray
        · rw [noPairs]
          exact List.Perm.nil
    have once := pairs.nodup_iff.mpr tree.pairs_nodup
    refine ⟨tasks, extracted, once, fun _ => pairs.mem_iff, ?_⟩
    rcases others with onlySources | noPairs
    · exact ⟨_, onlySources, fun task member => (extractTableTasks_csvs extracted member).2⟩
    · rw [noPairs, List.perm_nil, List.map_eq_nil_iff] at pairs
      rw [pairs]
      exact ⟨tree.sources, .rfl, nofun⟩

end

/-! ### A small tree for examples -/

def shopTree : DataTree :=
  { sources := [ascii "a", ascii "b"]
    databases := [ascii "shop"]
    tables := fun _ => [ascii "t"]
    someSource := List.cons_ne_nil _ _
    sourcesOnce := by decide
    databasesOnce := by decide
    tablesOnce := fun _ => by decide }

def shopFiles (other : Bytes) : FileSystem :=
  { readdir := fun path =>
      if path = ascii "data" then [ascii ".", ascii "..", ascii "b", ascii "a"]
      else if path = ascii "data/a/" ∨ path = ascii "data/b/" then [ascii "shop"]
      else if path = ascii "data/a/shop/" ∨ path = ascii "data/b/shop/" then
        [ascii "t.csv", other, ascii "t.sql"]
      else []
    bytes := fun path =>
      if path = ascii "data/a/shop/t.sql" ∨ path = ascii "data/b/shop/t.sql" then
        ascii "create table `t`( `k` int , `updated_at` datetime )"
      else [] }

theorem mem_shopTree_sources {src : Bytes} (member : src ∈ shopTree.sources) :
    src = ascii "a" ∨ src = ascii "b" := by
  rcases List.mem_cons.mp member with first | later
  · exact Or.inl first
  · exact Or.inr (List.mem_singleton.mp later)

private theorem listDir_shop {other src db : Bytes} (dots : other ≠ ascii "." ∧ other ≠ ascii "..")
    (isSource : src ∈ shopTree.sources) (isDatabase : db ∈ shopTree.databases) :
    listDir (shopFiles other) (databasePath (srcPath (ascii "data") src) db) =
      [ascii "t.csv", other, ascii "t.sql"] := by
  have kept : [ascii "t.csv", other, ascii "t.sql"].filter
      (fun name => ¬ (name = ascii "." ∨ name = ascii "..")) =
        [ascii "t.csv", other, ascii "t.sql"] := by
    rw [List.filter_eq_self]
    intro name member
    simp only [List.mem_cons, List.not_mem_nil, or_false] at member
    rcases member with rfl | rfl | rfl
    · rfl
    · simp [dots]
    · rfl
  rw [List.mem_singleton.mp isDatabase]
  rcases mem_shopTree_sources isSource with rfl | rfl
  · exact kept
  · exact kept

theorem shopFiles_stored {other : Bytes} (dots : other ≠ ascii "." ∧ other ≠ ascii "..")
    (noTable : ¬ ascii ".sql" <:+ other) (size : other.length < 2 ^ 64) :
    shopTree.Stored (shopFiles other) (ascii "data") := by
  refine ⟨⟨[], List.Perm.swap _ _ _, nofun⟩, ?_, ?_, ?_, ?_⟩
  · intro src isSource
    refine ⟨[], ?_, nofun⟩
    rcases mem_shopTree_sources isSource with rfl | rfl
    · exact .rfl
    · exact .rfl
  · intro src isSource db isDatabase
    refine ⟨[ascii "t.csv", other], ?_, ?_⟩
    · rw [listDir_shop dots isSource isDatabase]
      exact List.perm_append_singleton (ascii "t.sql") [ascii "t.csv", other]
    · intro name member
      rcases List.mem_cons.mp member with rfl | later
      · decide
      · rw [List.mem_singleton.mp later]
        exact noTable
  · intro src isSource db isDatabase table isTable
    rw [List.mem_singleton.mp isDatabase, List.mem_singleton.mp isTable]
    rcases mem_shopTree_sources isSource with rfl | rfl
    · exact ⟨_, rfl⟩
    · exact ⟨_, rfl⟩
  · intro path name member
    unfold shopFiles at member
    dsimp only at member
    split at member
    · have small : ∀ name ∈ [ascii ".", ascii "..", ascii "b", ascii "a"], name.length < 2 ^ 64 := by
        decide
      exact small name member
    · split at member
      · rw [List.mem_singleton.mp member]
        decide
      · split at member
        · simp only [List.mem_cons, List.not_mem_nil, or_false] at member
          rcases member with rfl | rfl | rfl
          · decide
          · exact size
          · decide
        · cases member

theorem tasksRight_iff_shopTree :
    TasksRight shopTree (shopFiles (ascii "notes")) (ascii "data") ↔
      NamesLong (shopFiles (ascii "notes")) (ascii "data") ∧
        ((listDir (shopFiles (ascii "notes")) (ascii "data")).Perm shopTree.sources ∨
          shopTree.pairs = []) :=
  tasksRight_iff shopTree (shopFiles_stored (by decide) (by decide) (by decide))

/-- A file with a name of three bytes is the end of the program. -/
theorem not_tasksRight_shortName :
    shopTree.Stored (shopFiles (ascii "tmp")) (ascii "data") ∧
      extractTableTasks (shopFiles (ascii "tmp")) (ascii "data") = .error .uncaughtException ∧
      ¬ TasksRight shopTree (shopFiles (ascii "tmp")) (ascii "data") := by
  have ended : extractTableTasks (shopFiles (ascii "tmp")) (ascii "data") =
      .error .uncaughtException := rfl
  refine ⟨shopFiles_stored (by decide) (by decide) (by decide), ended, ?_⟩
  rintro ⟨tasks, extracted, _⟩
  rw [ended] at extracted
  cases extracted

end ChangeSql
