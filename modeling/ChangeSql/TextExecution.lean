/-
The statement texts on a server that reads them.

Among columns with different names, the condition of a statement holds for the
rows with the key of its record, and the assignments of an update overwrite
the other columns. So a server that does what is documented of it does with
each text what the statement does to the table, if the types of the columns
tell the keys apart and order the rows as the records do.
-/

import ChangeSql.Library.SqlTable
import ChangeSql.ReadBack
import ChangeSql.Table

namespace ChangeSql

open Sql

/-- The columns of the schema's table, of which some are in the key and some
are not. The last one is `updated_at`. -/
structure Schema.Describes (schema : Schema) (columns : List Bytes) : Prop where
  quotes : schema.Quotes columns
  clean : backquote ∉ schema.table
  distinct : columns.Nodup
  last : columns.getLast? = some (ascii "updated_at")
  someKey : ∃ i < columns.length, maskBit schema.uniqueMask i = true
  someOther : ∃ i < columns.length, maskBit schema.uniqueMask i = false

namespace Schema

variable {schema : Schema} {columns : List Bytes} {row rec : Record}

/-! ### Conditions and assignments -/

private theorem columnsWhere_column (key : Bool) (i : Nat) (columns : List Bytes) (rec : Record) :
    ∀ pair ∈ schema.columnsWhere key i columns rec, pair.1 ∈ columns := by
  intro pair member
  rcases List.mem_map.mp member with ⟨entry, inside, rfl⟩
  have zipped := List.fst_mem_of_mem_zipIdx (List.mem_filter.mp inside).1
  exact (List.of_mem_zip zipped).1

private theorem columnsWhere_ne (schema : Schema) {column : Bytes} (absent : column ∉ columns)
    (key : Bool) (i : Nat) (rec : Record) :
    ∀ pair ∈ schema.columnsWhere key i columns rec, pair.1 ≠ column := by
  rintro pair member rfl
  exact absent (columnsWhere_column key i columns rec pair member)

def keyEqualities (schema : Schema) (i : Nat) (columns : List Bytes) (rec : Record) :
    List Comparison :=
  (schema.columnsWhere true i columns rec).map fun pair => (pair.1, .equal, pair.2)

/-- A column of the key finds the rows that have the value of the record, from
column `i` of the table on. -/
def Finds (typeOf : Bytes → ColumnType) (columns : List Bytes) (key : Nat → Prop) (i : Nat)
    (row rec : Record) : Prop :=
  ∀ k, key (i + k) → ∀ column ∈ columns[k]?, ∀ value ∈ row[k]?, ∀ literal ∈ rec[k]?,
    ((typeOf column).compares .equal ((typeOf column).keeps value) literal = true ↔
      value = literal)

theorem Finds.tail {typeOf : Bytes → ColumnType} {key : Nat → Prop} {i : Nat}
    {column value literal : Bytes}
    (finds : Finds typeOf (column :: columns) key i (value :: row) (literal :: rec)) :
    Finds typeOf columns key (i + 1) row rec := by
  intro k isKey
  have shift : i + 1 + k = i + (k + 1) := by omega
  exact finds (k + 1) (shift ▸ isKey)

private theorem meets_keyEqualities (schema : Schema) {typeOf : Bytes → ColumnType}
    (distinct : columns.Nodup) (i : Nat) (width : row.length = columns.length)
    (recWidth : rec.length = columns.length)
    (finds : Finds typeOf columns (fun k => maskBit schema.uniqueMask k = true) i row rec) :
    Meets typeOf columns (keepRow typeOf columns row) (schema.keyEqualities i columns rec) ↔
      QueryBuilder.keyFields schema.uniqueMask i row =
        QueryBuilder.keyFields schema.uniqueMask i rec := by
  induction columns generalizing i row rec with
  | nil =>
      rw [List.length_eq_zero_iff.mp width, List.length_eq_zero_iff.mp recWidth]
      exact ⟨fun _ => rfl, fun _ => meets_nil⟩
  | cons column columns ih =>
      rcases List.exists_cons_of_length_eq_add_one width with ⟨old, row, rfl⟩
      rcases List.exists_cons_of_length_eq_add_one recWidth with ⟨value, rec, rfl⟩
      rcases List.nodup_cons.mp distinct with ⟨absent, restDistinct⟩
      have later := ih restDistinct (i + 1) (Nat.succ.inj width) (Nat.succ.inj recWidth) finds.tail
      have tail : Meets typeOf (column :: columns)
          (keepRow typeOf (column :: columns) (old :: row))
          (schema.keyEqualities (i + 1) columns rec) ↔
            Meets typeOf columns (keepRow typeOf columns row)
              (schema.keyEqualities (i + 1) columns rec) := by
        apply meets_tail
        intro comparison member
        rcases List.mem_map.mp member with ⟨pair, inside, rfl⟩
        exact columnsWhere_ne schema absent true (i + 1) rec pair inside
      have here : maskBit schema.uniqueMask i = true →
          ((typeOf column).compares .equal ((typeOf column).keeps old) value = true ↔
            old = value) :=
        fun isKey => finds 0 isKey column rfl old rfl value rfl
      unfold keyEqualities at tail later ⊢
      unfold QueryBuilder.keyFields
      rw [columnsWhere_cons, List.map_append, meets_append, tail, later]
      by_cases isKey : maskBit schema.uniqueMask i = true
      · have first : valueOf (column :: columns) (keepRow typeOf (column :: columns) (old :: row))
            column = some ((typeOf column).keeps old) := valueOf_cons_self
        simp [isKey, meets_cons, meets_nil, first, here isKey]
      · simp [isKey, meets_nil]

private theorem assignAll_columnsWhere {typeOf : Bytes → ColumnType} (distinct : columns.Nodup)
    (i : Nat) (width : row.length = columns.length) (recWidth : rec.length = columns.length) :
    assignAll typeOf columns (keepRow typeOf columns row)
        (schema.columnsWhere false i columns rec) =
      keepRow typeOf columns (overwrite schema.uniqueMask i row rec) := by
  induction columns generalizing i row rec with
  | nil =>
      rw [List.length_eq_zero_iff.mp width, List.length_eq_zero_iff.mp recWidth]
      rfl
  | cons column columns ih =>
      rcases List.exists_cons_of_length_eq_add_one width with ⟨old, row, rfl⟩
      rcases List.exists_cons_of_length_eq_add_one recWidth with ⟨value, rec, rfl⟩
      rcases List.nodup_cons.mp distinct with ⟨absent, restDistinct⟩
      have later := ih restDistinct (i + 1) (Nat.succ.inj width) (Nat.succ.inj recWidth)
      have others := columnsWhere_ne schema absent false (i + 1) rec
      change assignAll typeOf _ (_ :: keepRow typeOf columns row) _ = _
      rw [columnsWhere_cons]
      unfold overwrite
      by_cases isKey : maskBit schema.uniqueMask i = true
      · rw [if_pos isKey, isKey, if_neg Bool.true_eq_false_eq_False, List.nil_append,
          assignAll_cons others, later]
        rfl
      · have isOther := Bool.eq_false_iff.mpr isKey
        rw [if_neg isKey, if_pos isOther, List.singleton_append]
        change assignAll _ _ (assign _ _ _ _) _ = _
        rw [assign_head absent _ (length_keepRow (Nat.succ.inj width)), assignAll_cons others,
          later]
        rfl

private theorem valueOf_last {name : Bytes} (distinct : columns.Nodup)
    (last : columns.getLast? = some name) (width : row.length = columns.length) :
    valueOf columns row name = row.getLast? := by
  induction columns generalizing row with
  | nil => cases last
  | cons column columns ih =>
      rcases List.exists_cons_of_length_eq_add_one width with ⟨value, row, rfl⟩
      rcases List.nodup_cons.mp distinct with ⟨absent, restDistinct⟩
      cases columns with
      | nil =>
          rw [List.getLast?_singleton, Option.some_inj] at last
          rw [← last, valueOf_cons_self, List.length_eq_zero_iff.mp (Nat.succ.inj width)]
          rfl
      | cons next columns =>
          rcases List.exists_cons_of_length_eq_add_one (Nat.succ.inj width) with
            ⟨nextValue, row, rfl⟩
          rw [List.getLast?_cons_cons] at last ⊢
          have other : name ≠ column := by
            rintro rfl
            exact absent (List.mem_of_getLast? last)
          rw [valueOf_cons_of_ne other]
          exact ih restDistinct last (Nat.succ.inj width)

/-! ### What is read from the texts -/

variable (describes : schema.Describes columns)

include describes

theorem Describes.filled (plain : PlainRow columns rec) : rec ≠ [] := by
  rcases describes.someKey with ⟨i, inside, _⟩
  apply List.ne_nil_of_length_pos
  rw [plain.width]
  exact Nat.zero_lt_of_lt inside

theorem Describes.keyed (plain : PlainRow columns rec) :
    schema.columnsWhere true 0 columns rec ≠ [] := by
  rcases describes.someKey with ⟨i, inside, isKey⟩
  exact columnsWhere_some inside isKey plain.width

theorem Describes.others (plain : PlainRow columns rec) :
    schema.columnsWhere false 0 columns rec ≠ [] := by
  rcases describes.someOther with ⟨i, inside, isOther⟩
  exact columnsWhere_some inside isOther plain.width

private theorem read_makeUpdateStatement (plain : PlainRow columns rec) :
    Sql.read (schema.makeUpdateStatement rec) =
      some (.update schema.table (schema.columnsWhere false 0 columns rec)
        (schema.keyCondition columns rec ++
          [(ascii "updated_at", .less, rec.getLast?.getD [])])) := by
  have lexed := (lexes_updatePieces describes.quotes describes.clean rec).lexed
    fun value member =>
      plain.clean value (values_updatePieces_mem (describes.filled plain) value member)
  rw [updateTokens_eq (describes.keyed plain), ← makeUpdateStatement_eq describes.quotes] at lexed
  exact read_eq_some_iff.mpr ⟨lexed, describes.others plain, by simp⟩

private theorem read_makeInsertWhereNotExistsStatement (plain : PlainRow columns rec) :
    Sql.read (schema.makeInsertWhereNotExistsStatement rec) =
      some (.insertNotExists schema.table rec schema.table (schema.keyCondition columns rec)) := by
  have filled := describes.filled plain
  have keyed := describes.keyed plain
  have lexed := (lexes_notExistsPieces describes.quotes describes.clean filled).lexed
    fun value member => plain.clean value (values_notExistsPieces_mem value member)
  rw [notExistsTokens_eq keyed, ← makeInsertWhereNotExistsStatement_eq describes.quotes] at lexed
  exact read_eq_some_iff.mpr ⟨lexed, filled, fun none => keyed (List.map_eq_nil_iff.mp none)⟩

private theorem read_makeInsertStatement {records : List Record} (some : records ≠ [])
    (plain : ∀ rec ∈ records, PlainRow columns rec) :
    Sql.read (schema.makeInsertStatement records) =
      Option.some (.insert schema.table records) := by
  apply (read_makeInsertStatement_iff describes.clean some fun rec member =>
    describes.filled (plain rec member)).mpr
  intro rec member
  exact (plain rec member).clean

/-! ### What the server does -/

end Schema

/-- The table takes these records, finds each by the values of its key and
orders them by `updated_at`. -/
structure Suits (type : TableType) (key : Nat → Prop) (records : Set Record) : Prop where
  takes : ∀ rec ∈ records, type.Takes rec
  finds : ∀ row ∈ records, ∀ rec ∈ records, Schema.Finds type.typeOf type.columns key 0 row rec
  orders : ∀ row ∈ records, ∀ rec ∈ records,
    ((type.typeOf (ascii "updated_at")).compares .less
      ((type.typeOf (ascii "updated_at")).keeps (updatedAt row)) (updatedAt rec) = true ↔
        updatedAt row < updatedAt rec)

theorem Suits.mono {type : TableType} {key other : Nat → Prop} {records fewer : Set Record}
    (suits : Suits type key records) (same : ∀ i, other i → key i) (subset : fewer ⊆ records) :
    Suits type other fewer :=
  { takes := fun rec member => suits.takes rec (subset member)
    finds := fun row rowMember rec member k isKey =>
      suits.finds row (subset rowMember) rec (subset member) k (same _ isKey)
    orders := fun row rowMember rec member =>
      suits.orders row (subset rowMember) rec (subset member) }

private theorem Schema.Describes.meets_updateCondition {schema : Schema} {type : TableType}
    {records : Set Record} {row rec : Record} (describes : schema.Describes type.columns)
    (suits : Suits type (fun i => maskBit schema.uniqueMask i = true) records)
    (rowMember : row ∈ records) (member : rec ∈ records) :
    Meets type.typeOf type.columns (type.keep row)
        (schema.keyCondition type.columns rec ++
          [(ascii "updated_at", .less, rec.getLast?.getD [])]) ↔
      schema.keyOf row = schema.keyOf rec ∧ updatedAt row < updatedAt rec := by
  have width := (suits.takes row rowMember).1
  have recWidth := (suits.takes rec member).1
  have filled : row ≠ [] := by
    rcases describes.someKey with ⟨i, inside, _⟩
    apply List.ne_nil_of_length_pos
    omega
  have keys := Schema.meets_keyEqualities schema describes.distinct 0 width recWidth
    (suits.finds row rowMember rec member)
  have order := suits.orders row rowMember rec member
  unfold updatedAt at order ⊢
  unfold TableType.keep
  rw [meets_append]
  apply and_congr keys
  rw [meets_cons, valueOf_keepRow, Schema.valueOf_last describes.distinct describes.last width]
  rw [List.getLast?_eq_some_getLast filled] at order ⊢
  rw [← order]
  simp [meets_nil]

def Statement.records : Statement → List Record
  | empty => []
  | insert records => records
  | update rec => [rec]
  | insertWhereNotExists rec => [rec]

section

variable {server : Server} {db : Bytes} {schema : Schema} {type : TableType} {rec : Record}
  {state : server.State} {rows : Table} {records : Set Record}

theorem makes_makeInsertStatement (documented : server.Documented db schema.table)
    (describes : schema.Describes type.columns) {batch : List Record} (some : batch ≠ [])
    (plain : ∀ rec ∈ batch, Schema.PlainRow type.columns rec)
    (takes : ∀ rec ∈ batch, type.Takes rec)
    (stored : server.table state db schema.table = Option.some ⟨type, rows.map type.keep⟩) :
    server.Makes db schema.table ⟨type, rows.map type.keep⟩
      (((Statement.insert batch).execute schema rows).map type.keep) state
      (schema.makeInsertStatement batch) := by
  have makes := documented.insert stored (Schema.read_makeInsertStatement describes some plain) takes
  have added : ((Statement.insert batch).execute schema rows).map type.keep =
      StoredTable.insert ⟨type, rows.map type.keep⟩ batch := Multiset.map_add _ _ _
  rw [added]
  exact makes

theorem makes_makeUpdateStatement (documented : server.Documented db schema.table)
    (describes : schema.Describes type.columns) (plain : Schema.PlainRow type.columns rec)
    (suits : Suits type (fun i => maskBit schema.uniqueMask i = true) records)
    (member : rec ∈ records) (within : ∀ row ∈ rows, row ∈ records)
    (stored : server.table state db schema.table = some ⟨type, rows.map type.keep⟩) :
    server.Makes db schema.table ⟨type, rows.map type.keep⟩
      (((Statement.update rec).execute schema rows).map type.keep) state
      (schema.makeUpdateStatement rec) := by
  have known : ∀ comparison ∈ schema.keyCondition type.columns rec ++
      [(ascii "updated_at", Operator.less, rec.getLast?.getD [])],
      comparison.1 ∈ type.columns := by
    intro comparison inCondition
    rcases List.mem_append.mp inCondition with key | last
    · rcases List.mem_map.mp key with ⟨pair, chosen, rfl⟩
      exact Schema.columnsWhere_column true 0 type.columns rec pair chosen
    · rw [List.mem_singleton.mp last]
      exact List.mem_of_getLast? describes.last
  have accepted : ∀ assignment ∈ schema.columnsWhere false 0 type.columns rec,
      assignment.1 ∈ type.columns ∧
        (type.typeOf assignment.1).accepts assignment.2 = true := by
    intro assignment chosen
    refine ⟨Schema.columnsWhere_column false 0 type.columns rec assignment chosen, ?_⟩
    rcases List.mem_map.mp chosen with ⟨entry, inside, rfl⟩
    have zipped := List.fst_mem_of_mem_zipIdx (List.mem_filter.mp inside).1
    exact (suits.takes rec member).2 _ zipped
  have makes := documented.update stored (Schema.read_makeUpdateStatement describes plain) accepted
    known
  have updated : ((Statement.update rec).execute schema rows).map type.keep =
      StoredTable.update ⟨type, rows.map type.keep⟩ (schema.columnsWhere false 0 type.columns rec)
        (schema.keyCondition type.columns rec ++
          [(ascii "updated_at", .less, rec.getLast?.getD [])]) := by
    unfold StoredTable.update Statement.execute
    rw [Multiset.map_map, Multiset.map_map]
    apply Multiset.map_congr rfl
    intro row inTable
    have rowMember := within row inTable
    have width := (suits.takes row rowMember).1
    rw [Function.comp_apply, Function.comp_apply,
      if_congr (describes.meets_updateCondition suits rowMember member) rfl rfl,
      apply_ite type.keep]
    congr 1
    exact (Schema.assignAll_columnsWhere describes.distinct 0 width plain.width).symm
  rw [updated]
  exact makes

theorem makes_makeInsertWhereNotExistsStatement (documented : server.Documented db schema.table)
    (describes : schema.Describes type.columns) (plain : Schema.PlainRow type.columns rec)
    (suits : Suits type (fun i => maskBit schema.uniqueMask i = true) records)
    (member : rec ∈ records) (within : ∀ row ∈ rows, row ∈ records)
    (stored : server.table state db schema.table = some ⟨type, rows.map type.keep⟩) :
    server.Makes db schema.table ⟨type, rows.map type.keep⟩
      (((Statement.insertWhereNotExists rec).execute schema rows).map type.keep) state
      (schema.makeInsertWhereNotExistsStatement rec) := by
  have known : ∀ comparison ∈ schema.keyCondition type.columns rec,
      comparison.1 ∈ type.columns := by
    intro comparison inCondition
    rcases List.mem_map.mp inCondition with ⟨pair, chosen, rfl⟩
    exact Schema.columnsWhere_column true 0 type.columns rec pair chosen
  have meets {row : Record} (inTable : row ∈ rows) :
      Meets type.typeOf type.columns (type.keep row) (schema.keyCondition type.columns rec) ↔
        schema.keyOf row = schema.keyOf rec :=
    Schema.meets_keyEqualities schema describes.distinct 0
      (suits.takes row (within row inTable)).1 plain.width
      (suits.finds row (within row inTable) rec member)
  have absent : (rows.map type.keep).filter
      (Meets type.typeOf type.columns · (schema.keyCondition type.columns rec)) = 0 ↔
        schema.keyOf rec ∉ rows.map schema.keyOf := by
    rw [Multiset.filter_eq_nil, Multiset.mem_map]
    constructor
    · intro none ⟨row, inTable, sameKey⟩
      exact none _ (Multiset.mem_map_of_mem type.keep inTable) ((meets inTable).mpr sameKey)
    · intro none kept inTable isMet
      rcases Multiset.mem_map.mp inTable with ⟨row, isRow, rfl⟩
      exact none ⟨row, isRow, (meets isRow).mp isMet⟩
  have makes := documented.insertNotExists stored
    (Schema.read_makeInsertWhereNotExistsStatement describes plain) (suits.takes rec member) known
  have added : ((Statement.insertWhereNotExists rec).execute schema rows).map type.keep =
      StoredTable.insertAbsent ⟨type, rows.map type.keep⟩ rec
        (schema.keyCondition type.columns rec) := by
    unfold StoredTable.insertAbsent Statement.execute
    dsimp only
    by_cases inTable : schema.keyOf rec ∈ rows.map schema.keyOf
    · rw [if_pos inTable, if_neg fun none => absent.mp none inTable]
    · rw [if_neg inTable, if_pos (absent.mpr inTable), Multiset.map_cons]
  rw [added]
  exact makes

/-- The server does with the text of a statement what the statement does. -/
theorem makes_text (documented : server.Documented db schema.table)
    (describes : schema.Describes type.columns) {statement : Statement}
    (some : statement.records ≠ [])
    (plain : ∀ rec ∈ statement.records, Schema.PlainRow type.columns rec)
    (suits : Suits type (fun i => maskBit schema.uniqueMask i = true) records)
    (member : ∀ rec ∈ statement.records, rec ∈ records) (within : ∀ row ∈ rows, row ∈ records)
    (stored : server.table state db schema.table = Option.some ⟨type, rows.map type.keep⟩) :
    server.Makes db schema.table ⟨type, rows.map type.keep⟩
      ((statement.execute schema rows).map type.keep) state (statement.text schema) := by
  cases statement with
  | empty => exact absurd rfl some
  | insert batch =>
      exact makes_makeInsertStatement documented describes some plain
        (fun rec inBatch => suits.takes rec (member rec inBatch)) stored
  | update rec =>
      have single := List.mem_singleton_self rec
      exact makes_makeUpdateStatement documented describes (plain rec single) suits
        (member rec single) within stored
  | insertWhereNotExists rec =>
      have single := List.mem_singleton_self rec
      exact makes_makeInsertWhereNotExistsStatement documented describes (plain rec single) suits
        (member rec single) within stored

end

/-! ### A table of byte strings -/

theorem suits_binary {type : TableType} (binary : ∀ column, type.typeOf column = .binary)
    (key : Nat → Prop) {records : Set Record}
    (widths : ∀ rec ∈ records, rec.length = type.columns.length) : Suits type key records where
  takes := fun rec member => ⟨widths rec member, fun pair _ => by rw [binary]; rfl⟩
  finds := by
    intro row _ rec _ k _ column _ value _ literal _
    rw [binary]
    exact decide_eq_true_iff
  orders := by
    intro row _ rec _
    rw [binary]
    exact decide_eq_true_iff

def sampleType : TableType :=
  { columns := Schema.sampleColumns
    typeOf := fun _ => .binary
    allows := fun rows => decide (rows.map (List.take 1)).Nodup }

theorem sampleType_allows {rows : Table} (widths : ∀ row ∈ rows, row.length = 3)
    (once : (rows.map sampleSchema.keyOf).Nodup) :
    sampleType.allows (rows.map sampleType.keep) = true := by
  apply decide_eq_true
  rw [Multiset.map_map]
  have same : rows.map (List.take 1 ∘ sampleType.keep) = rows.map sampleSchema.keyOf := by
    apply Multiset.map_congr rfl
    intro row member
    rcases List.length_eq_three.mp (widths row member) with ⟨key, value, time, rfl⟩
    rfl
  rw [same]
  exact once

end ChangeSql
