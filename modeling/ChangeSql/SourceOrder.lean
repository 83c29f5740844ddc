/-
Resuming after the sources have been listed in another order.

The files of a table come in the order in which `readdir` lists the sources,
and the cursor of a segment names a file by its place in that order. After a
restart with another order the cursor can be behind records of a source that
nothing has carried, and the run never reads them.
-/

import ChangeSql.Directory
import ChangeSql.Reading
import ChangeSql.Resume

namespace ChangeSql

open QueryBuilder (ReadsFrom IsBoundary)

section

variable {runtime : Runtime} {schema : Schema} {files : List (Csv runtime schema)}
  {segment : Segment} {memory : Nat → Bytes}

/-- A run over this segment and these files comes to an end, and until then it
reads every one of the records that has not been carried. -/
def ResumesOver (runtime : Runtime) (schema : Schema) (segment : Segment) (memory : Nat → Bytes)
    (contents : List Bytes) (records carried : List Record) : Prop :=
  ∃ opened,
    QueryBuilder.create (Builders.texts schema) schema segment memory contents = .ok opened ∧
    (∃ calls, opened.Ends (Builders.texts schema) runtime calls) ∧
    ∀ calls, opened.Ends (Builders.texts schema) runtime calls →
      ∀ rec ∈ records, rec ∉ carried → rec ∈ opened.reads (Builders.texts schema) runtime calls

def Covered (files : List (Csv runtime schema)) (carried : List Record) (g : Nat) : Prop :=
  ∀ rec ∈ (allRecords files).take g, rec ∈ carried ∨ rec ∈ (allRecords files).drop g

/-! ### One order -/

private theorem Emitter.answers_snoc (files : List (Csv runtime schema)) (calls : List Call)
    (emitter : Emitter) :
    (emitter.answers files (calls ++ [.nextQuery])).1 =
      (emitter.answers files calls).1 ++ [((emitter.answers files calls).2.emit files).1] := by
  induction calls generalizing emitter with
  | nil => rfl
  | cons call calls ih =>
      cases call with
      | commit => exact ih emitter
      | nextQuery =>
          change _ :: (answers files (calls ++ [.nextQuery]) (emitter.emit files).2).1 = _
          rw [ih]
          rfl

theorem Simulates.ends {builder : QueryBuilder Statement} {emitter : Emitter}
    (simulates : Simulates files Builders.symbolic builder emitter) (readable : Readable files) :
    ∃ calls, (builder.rendered schema).Ends (Builders.texts schema) runtime calls := by
  rcases Emitter.answers_end simulates.valid with ⟨calls, _, ended⟩
  rcases run_answers readable (List.replicate calls .nextQuery ++ [.nextQuery]) simulates with
    ⟨after, ran, _⟩
  have renderedRan := QueryBuilder.run_rendered schema runtime
    (List.replicate calls .nextQuery ++ [.nextQuery]) builder
  rw [Emitter.answers_snoc, ended] at ran
  rw [ran] at renderedRan
  refine ⟨_, _, _, renderedRan, [], ?_, rfl⟩
  rw [List.map_append]
  exact List.mem_append_right _ (List.mem_singleton_self [])

/-- Over a segment whose cursor is at a line, the run reads what has not been
carried exactly when that is not in front of the cursor. -/
theorem resumesOver_iff (some : files ≠ []) (nonempty : ∀ file ∈ files, file ≠ [])
    (sized : ∀ i, 0 < (memory i).length) {g : Nat}
    (boundary : IsBoundary files segment.committedHandleIdx.toNat segment.committedOffset g)
    {records : List Record} (same : ∀ rec, rec ∈ records ↔ rec ∈ allRecords files)
    (carried : List Record) :
    ResumesOver runtime schema segment memory (files.map Csv.bytes) records carried ↔
      files.length ≤ 255 ∧ Covered files carried g := by
  rcases QueryBuilder.create_readsFrom (Builders.texts schema) segment sized boundary with
    ⟨opened, created, reads, _⟩
  have lawful := Builders.texts_lawful schema
  constructor
  · rintro ⟨other, otherCreated, ⟨calls, ends⟩, all⟩
    rw [created] at otherCreated
    cases otherCreated
    have few : files.length ≤ 255 := by
      rcases List.exists_mem_of_ne_nil files some with ⟨file, member⟩
      rcases List.exists_mem_of_ne_nil file (nonempty file member) with ⟨line, _⟩
      have columns : opened.schema.fieldNames ≠ [] := by
        rw [reads.schema_eq]
        intro none
        have width := line.width
        rw [none] at width
        exact line.filled (List.length_eq_zero_iff.mp width)
      have counted := ends_few lawful columns ends
      rcases reads with ⟨_, _, _, positioned, _⟩
      rw [positioned.count] at counted
      exact counted
    refine ⟨few, fun rec inFront => ?_⟩
    rw [or_iff_not_imp_left]
    intro missing
    rw [← reads_of_ends ⟨few, nonempty⟩ lawful reads ends]
    exact all calls ends rec ((same rec).mpr (List.mem_of_mem_take inFront)) missing
  · rintro ⟨few, covered⟩
    have readable : Readable files := ⟨few, nonempty⟩
    refine ⟨opened, created, ?_, ?_⟩
    · rcases create_simulates Builders.symbolic segment sized boundary with
        ⟨symbolic, symbolicCreated, simulates, _⟩
      rw [QueryBuilder.create_rendered, symbolicCreated] at created
      cases created
      exact simulates.ends readable
    · intro calls ends rec member missing
      rw [reads_of_ends readable lawful reads ends]
      rw [same, ← List.take_append_drop g (allRecords files)] at member
      rcases List.mem_append.mp member with inFront | behind
      · exact (covered rec inFront).resolve_left missing
      · exact behind

/-! ### Two orders -/

variable {later : List (Csv runtime schema)} {log : List Statement}

/-- The source that the cursor is in has kept its place, and none has come in
front of it that was not there before. -/
def SameFront (files later : List (Csv runtime schema)) (h : Nat) : Prop :=
  later[h]? = files[h]? ∧ ∀ file ∈ later.take h, file ∈ files.take h

private theorem allRecords_take_position {h k : Nat} {file : Csv runtime schema}
    (current : files[h]? = some file) (line : k ≤ file.length) :
    (allRecords files).take ((files.take h).flatten.length + k) =
      allRecords (files.take h) ++ (file.take k).map Line.record := by
  have whole : files.flatten =
      (files.take h).flatten ++ (file ++ (files.drop (h + 1)).flatten) := by
    rcases List.getElem?_eq_some_iff.mp current with ⟨inside, fileIs⟩
    rw [← List.flatten_cons, ← fileIs, ← List.drop_eq_getElem_cons inside, ← List.flatten_append,
      List.take_append_drop]
  rw [allRecords, ← List.map_take, whole, List.take_length_add_append,
    List.take_append_of_le_length line, List.map_append]
  rfl

/-- Behind such a restart nothing is skipped. -/
theorem Durable.covered {c p mark : Nat} (durable : Durable files log segment c p mark)
    (same : SameFront files later segment.committedHandleIdx.toNat) :
    ∃ g, IsBoundary later segment.committedHandleIdx.toNat segment.committedOffset g ∧
      Covered later (log.flatMap Statement.carried) g := by
  rcases durable.cursor with ⟨file, k, current, line, offsetIs, position⟩
  have laterCurrent := same.1.trans current
  refine ⟨_, ⟨file, k, laterCurrent, line, offsetIs, rfl⟩, fun rec inFront => Or.inl ?_⟩
  apply durable.executed.carried.subset
  rw [position, allRecords_take_position current line]
  rw [allRecords_take_position laterCurrent line] at inFront
  rw [List.mem_append] at inFront ⊢
  apply inFront.imp_left
  intro inEarlier
  rcases List.mem_map.mp inEarlier with ⟨row, present, recIs⟩
  rcases List.mem_flatten.mp present with ⟨other, front, inside⟩
  exact List.mem_map.mpr ⟨row, List.mem_flatten.mpr ⟨other, same.2 other front, inside⟩, recIs⟩

/-! ### Two listings -/

/-- The task of a table whose file in each source is the one that `csvOf` gives. -/
structure Listing (fs : FileSystem) (dataPath : Bytes) (task : TableTask)
    (csvOf : Bytes → Csv runtime schema) : Prop where
  extracted : ∃ tasks, extractTableTasks fs dataPath = .ok tasks ∧ task ∈ tasks
  schema_eq : task.schema = schema
  bytes : ∀ src ∈ listDir fs dataPath,
    fs.bytes (csvPath (srcPath dataPath src) task.db task.table) = (csvOf src).bytes
  nonempty : ∀ src ∈ listDir fs dataPath, csvOf src ≠ []

variable {fs fs₁ fs₂ : FileSystem} {dataPath : Bytes} {task task₁ task₂ : TableTask}
  {csvOf : Bytes → Csv runtime schema}

theorem Listing.opens (listing : Listing fs dataPath task csvOf) :
    task.csvs.map fs.bytes = ((listDir fs dataPath).map csvOf).map Csv.bytes := by
  rcases listing.extracted with ⟨tasks, extracted, member⟩
  rw [(extractTableTasks_csvs extracted member).2, List.map_map, List.map_map]
  apply List.map_congr_left
  intro src present
  exact listing.bytes src present

theorem Listing.some (listing : Listing fs dataPath task csvOf) :
    (listDir fs dataPath).map csvOf ≠ [] := by
  rcases listing.extracted with ⟨tasks, extracted, member⟩
  intro none
  exact (extractTableTasks_csvs extracted member).1 (List.map_eq_nil_iff.mp none)

theorem Listing.filled (listing : Listing fs dataPath task csvOf) :
    ∀ file ∈ (listDir fs dataPath).map csvOf, file ≠ [] := by
  intro file member
  rcases List.mem_map.mp member with ⟨src, present, rfl⟩
  exact listing.nonempty src present

private theorem mem_allRecords_reordered {srcs₁ srcs₂ : List Bytes} (reordered : srcs₁.Perm srcs₂)
    (csvOf : Bytes → Csv runtime schema) (rec : Record) :
    rec ∈ allRecords (srcs₁.map csvOf) ↔ rec ∈ allRecords (srcs₂.map csvOf) :=
  (((reordered.map csvOf).flatten).map Line.record).mem_iff

/-- Killed over one listing and started again over another: where the cursor
is at a line of the new order, the run reads what no statement has carried
exactly when none of that is in front of the cursor and the files can be
counted. So it does when no other source has come in front of the cursor. -/
theorem resume_readsUncarried_iff (before : Listing fs₁ dataPath task₁ csvOf)
    (after : Listing fs₂ dataPath task₂ csvOf)
    (reordered : (listDir fs₁ dataPath).Perm (listDir fs₂ dataPath))
    (reachable : Reachable BetweenCalls ((listDir fs₁ dataPath).map csvOf) ⟨.down segment, log⟩)
    (sized : ∀ i, 0 < (memory i).length) :
    (∀ g, IsBoundary ((listDir fs₂ dataPath).map csvOf) segment.committedHandleIdx.toNat
        segment.committedOffset g →
      (ResumesOver runtime task₂.schema segment memory (task₂.csvs.map fs₂.bytes)
          (allRecords ((listDir fs₁ dataPath).map csvOf)) (log.flatMap Statement.carried) ↔
        (listDir fs₁ dataPath).length ≤ 255 ∧
          Covered ((listDir fs₂ dataPath).map csvOf) (log.flatMap Statement.carried) g)) ∧
    ((listDir fs₁ dataPath).length ≤ 255 →
      SameFront ((listDir fs₁ dataPath).map csvOf) ((listDir fs₂ dataPath).map csvOf)
        segment.committedHandleIdx.toNat →
      ResumesOver runtime task₂.schema segment memory (task₂.csvs.map fs₂.bytes)
        (allRecords ((listDir fs₁ dataPath).map csvOf)) (log.flatMap Statement.carried)) := by
  have records := mem_allRecords_reordered reordered csvOf
  have count : (listDir fs₁ dataPath).length = ((listDir fs₂ dataPath).map csvOf).length := by
    rw [List.length_map, reordered.length_eq]
  rw [after.schema_eq, after.opens, count]
  constructor
  · intro g boundary
    exact resumesOver_iff after.some after.filled sized boundary records _
  · intro few sameFront
    have readable : Readable ((listDir fs₁ dataPath).map csvOf) := by
      refine ⟨?_, before.filled⟩
      rw [List.length_map, reordered.length_eq, ← List.length_map csvOf]
      exact few
    cases reachable.sound readable before.some BetweenCalls.untorn with
    | down durable =>
        rcases durable.covered sameFront with ⟨g, boundary, covered⟩
        exact (resumesOver_iff after.some after.filled sized boundary records _).mpr ⟨few, covered⟩

/-! ### Two sources that change places -/

def sampleDir : Bytes := ascii "d"

def sampleTree (srcs : List Bytes) : FileSystem :=
  { readdir := fun p =>
      if p = ascii "d" then srcs
      else if p = ascii "d/x/" ∨ p = ascii "d/y/" then [ascii ".", ascii "db"]
      else if p = ascii "d/x/db/" ∨ p = ascii "d/y/db/" then [ascii "t.sql", ascii "t.csv"]
      else []
    bytes := fun p =>
      if p = ascii "d/x/db/t.csv" then Csv.bytes (sampleFiles.getD 0 [])
      else if p = ascii "d/y/db/t.csv" then Csv.bytes (sampleFiles.getD 1 [])
      else ascii "create table t(`k` int a,`v` int a,`updated_at` int a,key k (`k`))" }

def sampleTask (srcs : List Bytes) : TableTask :=
  { db := ascii "db"
    table := ascii "t"
    tableDdl := readFile (sampleTree srcs) []
    ddlInfo :=
      { fieldNames := sampleSchema.fieldNames
        uniqueMask := 1
        floatMask := 0
        doubleMask := 0 }
    csvs := srcs.map fun src => csvPath (srcPath sampleDir src) (ascii "db") (ascii "t") }

def sampleCsv (src : Bytes) : Csv sampleRuntime sampleSchema :=
  sampleFiles.getD (if src = ascii "x" then 0 else 1) []

private theorem sampleTree_listing {srcs : List Bytes}
    (order : srcs = [ascii "x", ascii "y"] ∨ srcs = [ascii "y", ascii "x"]) :
    Listing (sampleTree srcs) sampleDir (sampleTask srcs) sampleCsv ∧
      listDir (sampleTree srcs) sampleDir = srcs := by
  have filled : ∀ src ∈ [ascii "x", ascii "y"], sampleCsv src ≠ [] := by
    intro src member
    rcases List.mem_cons.mp member with rfl | member
    · exact List.cons_ne_nil _ _
    · cases List.mem_singleton.mp member
      exact List.cons_ne_nil _ _
  rcases order with rfl | rfl
  · exact ⟨⟨⟨_, rfl, List.mem_singleton_self _⟩, rfl, by decide, filled⟩, rfl⟩
  · refine ⟨⟨⟨_, rfl, List.mem_singleton_self _⟩, rfl, by decide, ?_⟩, rfl⟩
    intro src member
    exact filled src ((List.Perm.swap _ _ []).mem_iff.mp member)

private theorem sampleTree_reordered :
    (listDir (sampleTree [ascii "x", ascii "y"]) sampleDir).Perm
      (listDir (sampleTree [ascii "y", ascii "x"]) sampleDir) := by
  rw [(sampleTree_listing (Or.inl rfl)).2, (sampleTree_listing (Or.inr rfl)).2]
  exact List.Perm.swap _ _ []

private theorem sampleTree_files :
    (listDir (sampleTree [ascii "x", ascii "y"]) sampleDir).map sampleCsv = sampleFiles ∧
      (listDir (sampleTree [ascii "y", ascii "x"]) sampleDir).map sampleCsv =
        sampleFiles.reverse := by
  rw [(sampleTree_listing (Or.inl rfl)).2, (sampleTree_listing (Or.inr rfl)).2]
  exact ⟨rfl, rfl⟩

private theorem sampleFiles_killed_uncommitted :
    ∃ segment : Segment, segment.committedHandleIdx = 0 ∧ segment.committedOffset = 0 ∧
      Reachable BetweenCalls sampleFiles
        ⟨.down segment, [.insert [[[97], [49], [48]], [[98], [49], [48]]]]⟩ := by
  have started : Reachable BetweenCalls sampleFiles ⟨.ready _, []⟩ :=
    .tail .refl (.start (fun _ => List.replicate 4 0) sampleMemory_sized rfl)
  have held := started.tail (.query
    (show _ = Except.ok (Statement.insert [[[97], [49], [48]], [[98], [49], [48]]], _) from rfl)
    nofun)
  exact ⟨_, rfl, rfl, (held.tail .execute).tail (.kill trivial)⟩

private theorem sampleFiles_killed :
    ∃ segment : Segment, segment.committedHandleIdx = 1 ∧ segment.committedOffset = 6 ∧
      Reachable BetweenCalls sampleFiles
        ⟨.down segment, [.insert [[[97], [49], [48]], [[98], [49], [48]]]]⟩ := by
  have started : Reachable BetweenCalls sampleFiles ⟨.ready _, []⟩ :=
    .tail .refl (.start (fun _ => List.replicate 4 0) sampleMemory_sized rfl)
  have inserted := Reachable.turn started
    (show _ = Except.ok (Statement.insert [[[97], [49], [48]], [[98], [49], [48]]], _) from rfl)
    nofun rfl
  exact ⟨_, rfl, rfl, Relation.ReflTransGen.tail inserted (.kill trivial)⟩

/-- A run that is killed before its first commit reads everything in any order,
and behind a commit it reads what is left in the same one. -/
theorem resume_readsUncarried_iff_sampleTree :
    (∃ segment : Segment, segment.committedHandleIdx = 0 ∧ segment.committedOffset = 0 ∧
      Reachable BetweenCalls
        ((listDir (sampleTree [ascii "x", ascii "y"]) sampleDir).map sampleCsv)
        ⟨.down segment, [.insert [[[97], [49], [48]], [[98], [49], [48]]]]⟩ ∧
      ResumesOver sampleRuntime (sampleTask [ascii "y", ascii "x"]).schema segment
        (fun _ => List.replicate 4 0)
        ((sampleTask [ascii "y", ascii "x"]).csvs.map (sampleTree [ascii "y", ascii "x"]).bytes)
        (allRecords ((listDir (sampleTree [ascii "x", ascii "y"]) sampleDir).map sampleCsv))
        [[[97], [49], [48]], [[98], [49], [48]]]) ∧
    ∃ segment : Segment, segment.committedHandleIdx = 1 ∧ segment.committedOffset = 6 ∧
      Reachable BetweenCalls
        ((listDir (sampleTree [ascii "x", ascii "y"]) sampleDir).map sampleCsv)
        ⟨.down segment, [.insert [[[97], [49], [48]], [[98], [49], [48]]]]⟩ ∧
      ResumesOver sampleRuntime (sampleTask [ascii "x", ascii "y"]).schema segment
        (fun _ => List.replicate 4 0)
        ((sampleTask [ascii "x", ascii "y"]).csvs.map (sampleTree [ascii "x", ascii "y"]).bytes)
        (allRecords ((listDir (sampleTree [ascii "x", ascii "y"]) sampleDir).map sampleCsv))
        [[[97], [49], [48]], [[98], [49], [48]]] := by
  have few : (listDir (sampleTree [ascii "x", ascii "y"]) sampleDir).length ≤ 255 := by decide
  constructor
  · rcases sampleFiles_killed_uncommitted with ⟨segment, handleIdx, offset, reachable⟩
    rw [← sampleTree_files.1] at reachable
    have law := resume_readsUncarried_iff (sampleTree_listing (Or.inl rfl)).1
      (sampleTree_listing (Or.inr rfl)).1 sampleTree_reordered reachable sampleMemory_sized
    have boundary : IsBoundary sampleFiles.reverse segment.committedHandleIdx.toNat
        segment.committedOffset 0 := by
      rw [handleIdx, offset]
      exact QueryBuilder.isBoundary_start rfl
    rw [← sampleTree_files.2] at boundary
    exact ⟨segment, handleIdx, offset, reachable, (law.1 0 boundary).mpr ⟨few, nofun⟩⟩
  · rcases sampleFiles_killed with ⟨segment, handleIdx, offset, reachable⟩
    rw [← sampleTree_files.1] at reachable
    have law := resume_readsUncarried_iff (sampleTree_listing (Or.inl rfl)).1
      (sampleTree_listing (Or.inl rfl)).1 (List.Perm.refl _) reachable sampleMemory_sized
    refine ⟨segment, handleIdx, offset, reachable, law.2 few ⟨rfl, ?_⟩⟩
    exact fun file member => member

/-- Killed behind the first batch, which ends in the second source, the run
starts again at the end of the first one and reads nothing more. -/
theorem resume_not_readsUncarried_sampleTree :
    ∃ (segment : Segment) (log : List Statement),
      Reachable BetweenCalls
        ((listDir (sampleTree [ascii "x", ascii "y"]) sampleDir).map sampleCsv)
        ⟨.down segment, log⟩ ∧
      ¬ ResumesOver sampleRuntime (sampleTask [ascii "y", ascii "x"]).schema segment
        (fun _ => List.replicate 4 0)
        ((sampleTask [ascii "y", ascii "x"]).csvs.map (sampleTree [ascii "y", ascii "x"]).bytes)
        (allRecords ((listDir (sampleTree [ascii "x", ascii "y"]) sampleDir).map sampleCsv))
        (log.flatMap Statement.carried) := by
  have after : Listing (sampleTree [ascii "y", ascii "x"]) sampleDir _ sampleCsv :=
    (sampleTree_listing (Or.inr rfl)).1
  have records := mem_allRecords_reordered sampleTree_reordered sampleCsv
  rcases sampleFiles_killed with ⟨segment, handleIdx, offset, reachable⟩
  rw [← sampleTree_files.1] at reachable
  refine ⟨segment, _, reachable, ?_⟩
  rw [after.opens]
  have boundary : IsBoundary sampleFiles.reverse segment.committedHandleIdx.toNat
      segment.committedOffset 3 := by
    rw [handleIdx, offset]
    exact ⟨_, 1, rfl, by decide, by decide, by decide⟩
  rw [← sampleTree_files.2] at boundary
  change ¬ ResumesOver sampleRuntime sampleSchema _ _ _ _ _
  rw [resumesOver_iff after.some after.filled sampleMemory_sized boundary records]
  rintro ⟨_, covered⟩
  unfold Covered at covered
  rw [sampleTree_files.2] at covered
  rcases covered [[97], [50], [49]] (by decide) with carried | behind
  · revert carried
    decide
  · revert behind
    decide

end

end ChangeSql
