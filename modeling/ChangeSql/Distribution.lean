/-
From the command line to the tasks of each core: `parse_argv`,
`distribute_tasks` and `main2`.

The arguments are taken by their places and the names in front of them are not
looked at. The tables that the data directory has are dealt out in turn, so
that every table is imported by one core and the loads differ by one at most.
-/

import ChangeSql.Library.DecimalDigits
import ChangeSql.Library.RoundRobin
import ChangeSql.TableTasks
import Mathlib.Data.List.TakeWhile

namespace ChangeSql

open DecimalDigits (decimal isDigit)
open RoundRobin

def NUM_CPU_CORES : Nat := 4

/-! ### The command line -/

/-- A `const char *` is a text or null. -/
structure Config where
  dataPath : Option Bytes
  dstIp : Option Bytes
  dstUser : Option Bytes
  dstPassword : Option Bytes
  dstPort : Int
  deriving DecidableEq, Repr

/-- `argv[i]`. The last entry of `argv` is null. -/
def argument (argv : List (Option Bytes)) (i : Nat) : Except Fault (Option Bytes) :=
  match argv[i]? with
  | some pointer => .ok pointer
  | none => .error .outOfBounds

def deref : Option Bytes → Except Fault Bytes
  | some text => .ok text
  | none => .error .outOfBounds

/-- `isspace` in the locale of the program. -/
def isBlank (byte : Byte) : Bool :=
  byte = space ∨ 9 ≤ byte ∧ byte ≤ 13

/-- The digits in front, as `strtol` adds them up. -/
def leadingValue (text : Bytes) : Nat :=
  DecimalDigits.value (text.takeWhile isDigit)

/-- `strtol` stays within a `long`, and `atoi` cuts its result to an `int`. -/
def atoi (text : Bytes) : Int :=
  let number :=
    match text.dropWhile isBlank with
    | 45 :: digits => - (leadingValue digits : Int)
    | 43 :: digits => leadingValue digits
    | digits => leadingValue digits
  (max (-2 ^ 63) (min number (2 ^ 63 - 1))).bmod (2 ^ 32)

def parseArgv (argv : List (Option Bytes)) : Except Fault Config := do
  let dataPath ← argument argv 2
  let dstIp ← argument argv 4
  let dstUser ← argument argv 8
  let dstPassword ← argument argv 10
  let port ← argument argv 6
  let text ← deref port
  return {
    dataPath := dataPath
    dstIp := dstIp
    dstUser := dstUser
    dstPassword := dstPassword
    dstPort := atoi text }

/-! ### The cores -/

/-- There is no result where the vector cannot be made or where a remainder by
zero is taken. -/
def distributeTasks (tasks : List TableTask) (numCores : Int) : Option (List (List TableTask)) :=
  if numCores < 0 then none
  else if numCores = 0 ∧ tasks ≠ [] then none
  else some (dealFrom numCores.toNat 0 (List.replicate numCores.toNat []) tasks)

/-- `main2` up to the threads, which are commented out in the source. -/
def main2 (fs : FileSystem) (argv : List (Option Bytes)) :
    Except Fault (Option (List (List TableTask))) := do
  let cfg ← parseArgv argv
  let dataPath ← deref cfg.dataPath
  let tasks ← extractTableTasks fs dataPath
  return distributeTasks tasks NUM_CPU_CORES

/-! ### What the cores get -/

private theorem distributeTasks_eq_deal (tasks : List TableTask) {numCores : Nat}
    (some : 0 < numCores) :
    distributeTasks tasks numCores = Option.some (deal numCores tasks) := by
  unfold distributeTasks
  rw [if_neg (by omega), if_neg (by omega)]
  rfl

/-- Every table of the tree is a task of one core, and of one only. The loads
differ by one at most. -/
structure EveryTableOnce (tree : DataTree) (cores : List (List TableTask)) : Prop where
  count : cores.length = NUM_CPU_CORES
  tables : (cores.flatten.map fun task => (task.db, task.table)).Perm tree.pairs
  once : ∀ pair ∈ tree.pairs, ∃ k < NUM_CPU_CORES, ∀ j core, cores[j]? = some core →
    (pair ∈ core.map (fun task => (task.db, task.table)) ↔ j = k)
  loads : ∀ core ∈ cores, ∀ other ∈ cores, core.length ≤ other.length + 1

theorem deal_everyTableOnce {tree : DataTree} {tasks : List TableTask}
    (pairs : (tasks.map fun task => (task.db, task.table)).Perm tree.pairs) :
    EveryTableOnce tree (deal NUM_CPU_CORES tasks) := by
  have dealt := flatten_deal_perm (show 0 < NUM_CPU_CORES by decide) tasks
  have tables := (dealt.map fun task => (task.db, task.table)).trans pairs
  refine ⟨length_deal _ tasks, tables, ?_, ?_⟩
  · intro pair member
    have once := tables.nodup_iff.mpr tree.pairs_nodup
    have inTables := tables.mem_iff.mpr member
    rw [List.map_flatten] at once inTables
    rcases exists_hand once inTables with ⟨k, inside, others⟩
    rw [List.length_map, length_deal] at inside
    refine ⟨k, inside, ?_⟩
    intro j core atCore
    apply others
    rw [List.getElem?_map, atCore]
    rfl
  · intro core member other otherMember
    exact loads_close tasks member otherMember

/-- `main2` deals out the tasks of the source that is listed first. -/
theorem main2_eq_deal {tree : DataTree} {fs : FileSystem} {dataPath port : Bytes}
    (stored : tree.Stored fs dataPath) (long : NamesLong fs dataPath)
    (onlySources : (listDir fs dataPath).Perm tree.sources) {argv : List (Option Bytes)}
    (complete : 10 < argv.length) (atPath : argv[2]? = some (some dataPath))
    (atPort : argv[6]? = some (some port)) :
    ∃ src ∈ tree.sources, (listDir fs dataPath).head? = some src ∧ ∃ tasks,
      databaseTasks fs ((listDir fs dataPath).map (srcPath dataPath)) (srcPath dataPath src)
          (listDir fs (srcPath dataPath src)) = .ok tasks ∧
        (tasks.map fun task => (task.db, task.table)).Perm tree.pairs ∧
        main2 fs argv = .ok (some (deal NUM_CPU_CORES tasks)) := by
  have parsed : ∃ cfg, parseArgv argv = .ok cfg ∧ cfg.dataPath = some dataPath := by
    unfold parseArgv argument
    rw [atPath, atPort, List.getElem?_eq_getElem complete,
      List.getElem?_eq_getElem (show 4 < argv.length by omega),
      List.getElem?_eq_getElem (show 8 < argv.length by omega)]
    exact ⟨_, rfl, rfl⟩
  rcases parsed with ⟨cfg, parsed, path⟩
  rcases List.exists_cons_of_ne_nil stored.listed_ne_nil with ⟨src, others, listed⟩
  have isSource : src ∈ tree.sources :=
    onlySources.mem_iff.mp (listed ▸ List.mem_cons_self)
  rcases stored.source_total ((src :: others).map (srcPath dataPath)) isSource
      (long src (by rw [listed]; rfl)) with ⟨tasks, extracted, pairs⟩
  refine ⟨src, isSource, by rw [listed]; rfl, tasks, by rw [listed]; exact extracted, pairs, ?_⟩
  unfold main2
  rw [parsed]
  change (deref cfg.dataPath >>= _) = _
  rw [path]
  change (extractTableTasks fs dataPath >>= _) = _
  rw [extractTableTasks_eq listed, extracted]
  change Except.ok (distributeTasks tasks NUM_CPU_CORES) = _
  rw [distributeTasks_eq_deal tasks (by decide)]

/-- On a directory with nothing but its sources in it, and no file with a name
too short for the suffix, `main2` gives every table to one core. -/
theorem main2_everyTableOnce {tree : DataTree} {fs : FileSystem} {dataPath port : Bytes}
    (stored : tree.Stored fs dataPath) (long : NamesLong fs dataPath)
    (onlySources : (listDir fs dataPath).Perm tree.sources) {argv : List (Option Bytes)}
    (complete : 10 < argv.length) (atPath : argv[2]? = some (some dataPath))
    (atPort : argv[6]? = some (some port)) :
    ∃ cores, main2 fs argv = .ok (some cores) ∧ EveryTableOnce tree cores := by
  rcases main2_eq_deal stored long onlySources complete atPath atPort with
    ⟨_, _, _, tasks, _, pairs, dealt⟩
  exact ⟨_, dealt, deal_everyTableOnce pairs⟩

/-- The documented command line on the small tree. -/
theorem main2_everyTableOnce_shop :
    ∃ cores, main2 (shopFiles (ascii "notes.txt"))
      [some (ascii "change_sql"), some (ascii "--data_path"), some (ascii "data"),
        some (ascii "--dst_ip"), some (ascii "127.0.0.1"), some (ascii "--dst_port"),
        some (ascii "3306"), some (ascii "--dst_user"), some (ascii "root"),
        some (ascii "--dst_password"), some (ascii "123456789"), none] = .ok (some cores) ∧
      EveryTableOnce shopTree cores := by
  have stored : shopTree.Stored (shopFiles (ascii "notes.txt")) (ascii "data") :=
    shopFiles_stored ⟨by decide, by decide⟩ (by decide) (by decide)
  apply main2_everyTableOnce stored
  · intro src first
    cases first
    decide
  · exact List.Perm.swap _ _ _
  · decide
  · rfl
  · rfl

end ChangeSql
