/-
The tasks that a directory tree gives, `extract_table_tasks` of `utils.cpp`.

A tree is what the calls on it return: the names that `readdir` gives for a
directory, in whatever order, and the bytes of a file. A directory that cannot
be opened has no names, a file that cannot be opened no bytes.
-/

import ChangeSql.Ddl

namespace ChangeSql

structure FileSystem where
  readdir : Bytes → List Bytes
  bytes : Bytes → Bytes

def listDir (fs : FileSystem) (p : Bytes) : List Bytes :=
  (fs.readdir p).filter fun name => ¬ (name = ascii "." ∨ name = ascii "..")

/-- The lines that `std::getline` gives. What is behind the last line end is a
line only if there is something. -/
def lines (file : Bytes) : List Bytes :=
  let pieces := file.splitOn newline
  if pieces.getLast? = some [] then pieces.dropLast else pieces

def readFile (fs : FileSystem) (path : Bytes) : Bytes :=
  (lines (fs.bytes path)).flatMap fun str => str ++ [space]

/-- `item.substr(pos)` -/
def substr (item : Bytes) (pos : Nat) : Except Fault Bytes :=
  if item.length < pos then .error .uncaughtException else .ok (item.drop pos)

/-- `item.size() - 4`, a subtraction of 64-bit words. -/
def suffixStart (item : Bytes) : Nat :=
  (UInt64.ofNat item.length - 4).toNat

/-- The loop that gathers the tables of a database and their texts. -/
def tableDdls (fs : FileSystem) (dbPath : Bytes) : List Bytes → Except Fault (List (Bytes × Bytes))
  | [] => .ok []
  | item :: items => do
      let suffix ← substr item (suffixStart item)
      let tables ← tableDdls fs dbPath items
      if suffix = ascii ".sql" then
        return (item.take (suffixStart item), readFile fs (dbPath ++ item)) :: tables
      else return tables

def csvPath (srcPath db table : Bytes) : Bytes :=
  srcPath ++ db ++ ascii "/" ++ table ++ ascii ".csv"

def tableTask (srcsPath : List Bytes) (db : Bytes) (table : Bytes × Bytes) :
    Except Fault TableTask := do
  let ddlInfo ← parseDdl table.2
  return {
    db := db
    table := table.1
    tableDdl := table.2
    ddlInfo := ddlInfo
    csvs := srcsPath.map fun srcPath => csvPath srcPath db table.1 }

/-- The loop over the databases, which are those of the first source. -/
def databaseTasks (fs : FileSystem) (srcsPath : List Bytes) (first : Bytes) :
    List Bytes → Except Fault (List TableTask)
  | [] => .ok []
  | db :: dbs => do
      let dbPath := first ++ db ++ ascii "/"
      let tables ← tableDdls fs dbPath (listDir fs dbPath)
      let tasks ← tables.mapM (tableTask srcsPath db)
      let others ← databaseTasks fs srcsPath first dbs
      return tasks ++ others

def srcPath (dataPath src : Bytes) : Bytes :=
  dataPath ++ ascii "/" ++ src ++ ascii "/"

def extractTableTasks (fs : FileSystem) (dataPath : Bytes) : Except Fault (List TableTask) :=
  let srcsPath := (listDir fs dataPath).map (srcPath dataPath)
  match srcsPath with
  | [] => .error .outOfBounds
  | first :: _ => databaseTasks fs srcsPath first (listDir fs first)

/-! ### The files of a task -/

private theorem tableTask_csvs {srcsPath : List Bytes} {db : Bytes} {table : Bytes × Bytes}
    {task : TableTask} (made : tableTask srcsPath db table = .ok task) :
    task.csvs = srcsPath.map fun srcPath => csvPath srcPath task.db task.table := by
  simp only [tableTask, bind, Except.bind] at made
  split at made
  · contradiction
  · cases made
    rfl

theorem mapM_member {α β : Type} {f : α → Except Fault β} {items : List α} {results : List β}
    (mapped : items.mapM f = .ok results) {result : β} (member : result ∈ results) :
    ∃ item ∈ items, f item = .ok result := by
  induction items generalizing results with
  | nil =>
      cases mapped
      cases member
  | cons item items ih =>
      rw [List.mapM_cons] at mapped
      simp only [bind, Except.bind] at mapped
      split at mapped
      · contradiction
      · rename_i first firstIs
        split at mapped
        · contradiction
        · rename_i others othersAre
          cases mapped
          rcases List.mem_cons.mp member with rfl | further
          · exact ⟨item, List.mem_cons_self, firstIs⟩
          · rcases ih othersAre further with ⟨other, present, resultIs⟩
            exact ⟨other, List.mem_cons_of_mem _ present, resultIs⟩

private theorem databaseTasks_csvs {fs : FileSystem} {srcsPath : List Bytes} {first : Bytes}
    {dbs : List Bytes} {tasks : List TableTask}
    (extracted : databaseTasks fs srcsPath first dbs = .ok tasks) {task : TableTask}
    (member : task ∈ tasks) :
    task.csvs = srcsPath.map fun srcPath => csvPath srcPath task.db task.table := by
  induction dbs generalizing tasks with
  | nil =>
      cases extracted
      cases member
  | cons db dbs ih =>
      simp only [databaseTasks, bind, Except.bind] at extracted
      split at extracted
      · contradiction
      · split at extracted
        · contradiction
        · rename_i mine mineAre
          split at extracted
          · contradiction
          · rename_i others othersAre
            cases extracted
            rcases List.mem_append.mp member with present | further
            · rcases mapM_member mineAre present with ⟨table, _, made⟩
              exact tableTask_csvs made
            · exact ih othersAre further

/-- Every task names one file in each source, in the order of the listing. -/
theorem extractTableTasks_csvs {fs : FileSystem} {dataPath : Bytes} {tasks : List TableTask}
    (extracted : extractTableTasks fs dataPath = .ok tasks) {task : TableTask}
    (member : task ∈ tasks) :
    listDir fs dataPath ≠ [] ∧
      task.csvs = (listDir fs dataPath).map fun src =>
        csvPath (srcPath dataPath src) task.db task.table := by
  unfold extractTableTasks at extracted
  cases srcs : listDir fs dataPath with
  | nil =>
      rw [srcs] at extracted
      cases extracted
  | cons src others =>
      rw [srcs] at extracted
      rw [databaseTasks_csvs extracted member, List.map_map]
      exact ⟨List.cons_ne_nil _ _, rfl⟩

end ChangeSql
