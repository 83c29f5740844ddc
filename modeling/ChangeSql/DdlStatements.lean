/-
From the text of a table to what its statements do there.

The statements are made from the names and the mask that `parse_ddl` takes out
of the text. On a server with a table of these columns they compare exactly
the columns that the text declares as keys, and the record takes the place of
the older rows that have its keys. The types of the columns are up to the
server, and so are the keys that it enforces.
-/

import ChangeSql.ColumnMasks
import ChangeSql.TextExecution

namespace ChangeSql

open NewestWins
open Sql (Server TableType quotedName)

namespace Ddl

variable (ddl : Ddl)

def columnNames : List Bytes :=
  ddl.columns.map ColumnItem.inner

def SameKey (row rec : Record) : Prop :=
  ∀ i, ddl.IsKey i → row[i]? = rec[i]?

/-- What the builders rely on, of the text and of the name of the table. -/
structure Usable (table : Bytes) : Prop where
  few : ddl.columns.length ≤ 16
  several : 2 ≤ ddl.columns.length
  unnamed : ∃ column ∈ ddl.columns, ¬ ddl.Names column
  cleanColumns : ∀ column ∈ ddl.columns, backquote ∉ column.inner
  cleanTable : backquote ∉ table

variable {ddl} {info : DDLInfo} {table : Bytes}

private theorem length_columnNames : ddl.columnNames.length = ddl.columns.length :=
  List.length_map _

private theorem map_name_eq (columns : List ColumnItem) :
    columns.map ColumnItem.name = (columns.map ColumnItem.inner).map quotedName := by
  rw [List.map_map]
  rfl

private theorem last_columnNames : ddl.columnNames.getLast? = some (ascii "updated_at") := by
  have last := ddl.last
  unfold columnNames
  rw [List.getLast?_map, Option.map_eq_some_iff] at last ⊢
  rcases last with ⟨column, isLast, name⟩
  refine ⟨column, isLast, ?_⟩
  have ends : column.inner ++ [backquote] = ascii "updated_at" ++ [backquote] :=
    List.tail_eq_of_cons_eq name
  exact List.append_cancel_right ends

theorem Usable.bits (usable : ddl.Usable table) (recovers : Recovers ddl info) :
    (∃ i < ddl.columns.length, maskBit info.uniqueMask i = true) ∧
      ∃ i < ddl.columns.length, maskBit info.uniqueMask i = false := by
  have several := usable.several
  have isKey (i : Nat) : maskBit info.uniqueMask i = true ↔ ddl.IsKey i := recovers.unique i
  simp only [← Bool.not_eq_true, isKey]
  by_cases named : ∃ column ∈ ddl.columns, ddl.Names column
  · constructor
    · rcases named with ⟨column, member, names⟩
      rcases List.getElem_of_mem member with ⟨i, inside, rfl⟩
      exact ⟨i, inside, Or.inl ⟨_, List.getElem?_eq_getElem inside, names⟩⟩
    · rcases usable.unnamed with ⟨column, member, unnamed⟩
      rcases List.getElem_of_mem member with ⟨i, inside, rfl⟩
      refine ⟨i, inside, ?_⟩
      rintro (⟨other, atOther, names⟩ | ⟨none, _⟩)
      · rw [List.getElem?_eq_getElem inside, Option.some_inj] at atOther
        exact unnamed (atOther ▸ names)
      · rcases named with ⟨key, keyMember, names⟩
        exact none key keyMember names
  · have none : ∀ column ∈ ddl.columns, ¬ ddl.Names column :=
      fun column member names => named ⟨column, member, names⟩
    constructor
    · exact ⟨0, by omega, Or.inr ⟨none, by omega⟩⟩
    · refine ⟨ddl.columns.length - 1, by omega, ?_⟩
      rintro (⟨other, atOther, names⟩ | ⟨_, early⟩)
      · exact none other (List.mem_of_getElem? atOther) names
      · omega

theorem Usable.describes (usable : ddl.Usable table) (recovers : Recovers ddl info) :
    (info.schema table).Describes ddl.columnNames :=
  { quotes :=
      { fieldNames := recovers.fieldNames.trans (map_name_eq ddl.columns)
        clean := by
          intro name member
          rcases List.mem_map.mp member with ⟨column, inside, rfl⟩
          exact usable.cleanColumns column inside }
    clean := usable.cleanTable
    distinct := by
      have distinct := ddl.distinct
      rw [map_name_eq] at distinct
      exact distinct.of_map
    last := last_columnNames
    someKey := length_columnNames ▸ (usable.bits recovers).1
    someOther := length_columnNames ▸ (usable.bits recovers).2 }

end Ddl

/-! ### Keys -/

private theorem keyFields_eq_iff (mask : UInt16) (i : Nat) {row rec : Record}
    (width : row.length = rec.length) :
    QueryBuilder.keyFields mask i row = QueryBuilder.keyFields mask i rec ↔
      ∀ k, maskBit mask (i + k) = true → row[k]? = rec[k]? := by
  induction row generalizing i rec with
  | nil =>
      rw [List.length_eq_zero_iff.mp width.symm]
      exact ⟨fun _ _ _ => rfl, fun _ => rfl⟩
  | cons old row ih =>
      rcases List.exists_cons_of_length_eq_add_one width.symm with ⟨value, rec, rfl⟩
      have later := ih (i + 1) (Nat.succ.inj width)
      have shift (k : Nat) : i + 1 + k = i + (k + 1) := by omega
      unfold QueryBuilder.keyFields
      by_cases isKey : maskBit mask i = true
      · rw [if_pos isKey, if_pos isKey, List.cons.injEq, later]
        constructor
        · rintro ⟨same, rest⟩ k bit
          cases k with
          | zero => exact congrArg some same
          | succ k => exact rest k (shift k ▸ bit)
        · intro all
          exact ⟨Option.some.inj (all 0 isKey), fun k bit => all (k + 1) (shift k ▸ bit)⟩
      · rw [if_neg isKey, if_neg isKey, later]
        constructor
        · intro rest k bit
          cases k with
          | zero => exact absurd bit isKey
          | succ k => exact rest k (shift k ▸ bit)
        · exact fun all k bit => all (k + 1) (shift k ▸ bit)

private theorem Recovers.sameKey_iff {ddl : Ddl} {info : DDLInfo} (recovers : Recovers ddl info)
    (table : Bytes) {row rec : Record} (width : row.length = rec.length) :
    (info.schema table).keyOf row = (info.schema table).keyOf rec ↔ ddl.SameKey row rec := by
  unfold Schema.keyOf Ddl.SameKey
  rw [keyFields_eq_iff _ 0 width]
  apply forall_congr'
  intro i
  rw [Nat.zero_add]
  exact imp_congr_left (recovers.unique i)

/-! ### Statements -/

def among (rec : Record) (rows : Table) : Set Record :=
  {other | other = rec ∨ other ∈ rows}

open Classical in
/-- On a table of the declared columns a batch is added, an update puts its
record in the place of the older rows with its key, and the insert behind it
adds the record if there is no row with its key. The rows are those of the
table before their columns have kept them. -/
structure ActsAsDeclared (server : Server) (db : Bytes) (ddl : Ddl) (schema : Schema) : Prop where
  insert : ∀ {state : server.State} {type : TableType} {rows : Table} {batch : List Record},
    type.columns = ddl.columnNames →
    server.table state db schema.table = some ⟨type, rows.map type.keep⟩ → batch ≠ [] →
    (∀ rec ∈ batch, Schema.PlainRow ddl.columnNames rec ∧ type.Takes rec) →
    server.Makes db schema.table ⟨type, rows.map type.keep⟩ ((rows + batch).map type.keep) state
      (schema.makeInsertStatement batch)
  update : ∀ {state : server.State} {type : TableType} {rows : Table} {rec : Record},
    type.columns = ddl.columnNames →
    server.table state db schema.table = some ⟨type, rows.map type.keep⟩ →
    Schema.PlainRow ddl.columnNames rec → Suits type ddl.IsKey (among rec rows) →
    server.Makes db schema.table ⟨type, rows.map type.keep⟩
      ((rows.map fun row =>
        if ddl.SameKey row rec ∧ updatedAt row < updatedAt rec then rec else row).map type.keep)
      state (schema.makeUpdateStatement rec)
  insertWhereNotExists : ∀ {state : server.State} {type : TableType} {rows : Table} {rec : Record},
    type.columns = ddl.columnNames →
    server.table state db schema.table = some ⟨type, rows.map type.keep⟩ →
    Schema.PlainRow ddl.columnNames rec → Suits type ddl.IsKey (among rec rows) →
    server.Makes db schema.table ⟨type, rows.map type.keep⟩
      ((if ∃ row ∈ rows, ddl.SameKey row rec then rows else rec ::ₘ rows).map type.keep) state
      (schema.makeInsertWhereNotExistsStatement rec)

open Classical in
theorem Ddl.Usable.actsAsDeclared {ddl : Ddl} {info : DDLInfo} {server : Server}
    {db table : Bytes} (documented : server.Documented db table) (usable : ddl.Usable table)
    (recovers : Recovers ddl info) : ActsAsDeclared server db ddl (info.schema table) := by
  have describes := usable.describes recovers
  have isKey : ∀ i, maskBit (info.schema table).uniqueMask i = true → ddl.IsKey i :=
    fun i => (recovers.unique i).mp
  refine ⟨?_, ?_, ?_⟩
  · intro state type rows batch columns stored some each
    rw [← columns] at describes each
    exact makes_makeInsertStatement documented describes some (fun rec member => (each rec member).1)
      (fun rec member => (each rec member).2) stored
  · intro state type rows rec columns stored plain suits
    have sameWidth : ∀ row ∈ rows, row.length = rec.length := fun row member =>
      (suits.takes row (Or.inr member)).1.trans (suits.takes rec (Or.inl rfl)).1.symm
    rw [← columns] at describes plain
    have makes := makes_makeUpdateStatement documented describes plain
      (suits.mono isKey (Set.Subset.refl _)) (Or.inl rfl) (fun row => Or.inr) stored
    rw [execute_update sameWidth] at makes
    unfold amend at makes
    have same : (rows.map fun row =>
        if ddl.SameKey row rec ∧ updatedAt row < updatedAt rec then rec else row) =
          rows.map fun row => if (info.schema table).keyOf row = (info.schema table).keyOf rec ∧
            updatedAt row < updatedAt rec then rec else row := by
      apply Multiset.map_congr rfl
      intro row member
      have sameKey := recovers.sameKey_iff table (sameWidth row member)
      by_cases replaced : ddl.SameKey row rec ∧ updatedAt row < updatedAt rec
      · rw [if_pos replaced, if_pos ⟨sameKey.mpr replaced.1, replaced.2⟩]
      · rw [if_neg replaced, if_neg fun both => replaced ⟨sameKey.mp both.1, both.2⟩]
    rw [same]
    exact makes
  · intro state type rows rec columns stored plain suits
    have sameWidth : ∀ row ∈ rows, row.length = rec.length := fun row member =>
      (suits.takes row (Or.inr member)).1.trans (suits.takes rec (Or.inl rfl)).1.symm
    rw [← columns] at describes plain
    have makes := makes_makeInsertWhereNotExistsStatement documented describes plain
      (suits.mono isKey (Set.Subset.refl _)) (Or.inl rfl) (fun row => Or.inr) stored
    have inTable : (info.schema table).keyOf rec ∈ rows.map (info.schema table).keyOf ↔
        ∃ row ∈ rows, ddl.SameKey row rec := by
      rw [Multiset.mem_map]
      apply exists_congr
      intro row
      apply and_congr_right
      intro member
      exact recovers.sameKey_iff table (sameWidth row member)
    have same : (if ∃ row ∈ rows, ddl.SameKey row rec then rows else rec ::ₘ rows) =
        (Statement.insertWhereNotExists rec).execute (info.schema table) rows := by
      by_cases known : ∃ row ∈ rows, ddl.SameKey row rec
      · exact (if_pos known).trans (if_pos (inTable.mpr known)).symm
      · exact (if_neg known).trans (if_neg (known ∘ inTable.mp)).symm
    rw [same]
    exact makes

/-- What `parse_ddl` makes of a text is enough to do with the table what the
text declares, on a server that does what is documented. -/
theorem parseDdl_actsAsDeclared {ddl : Ddl} {server : Server} {db table : Bytes}
    (documented : server.Documented db table) (usable : ddl.Usable table) :
    ∃ info, parseDdl ddl.text = .ok info ∧
      ActsAsDeclared server db ddl (info.schema table) := by
  rcases Ddl.parseDdl_masks usable.few with ⟨info, parsed, masks⟩
  exact ⟨info, parsed, usable.actsAsDeclared documented (masks.recovers usable.few)⟩

/-! ### A text and a row -/

private theorem sampleDdl_unnamed {column : ColumnItem} (other : ascii "`k`" ≠ column.name) :
    ¬ sampleDdl.Names column := by
  rintro ⟨key, member, name, inList, same⟩
  rw [List.mem_singleton.mp member] at inList
  rw [List.mem_singleton.mp inList] at same
  exact other same

private theorem sampleDdl_usable : sampleDdl.Usable (ascii "t") :=
  { few := by decide
    several := by decide
    unnamed :=
      ⟨valueColumn, List.mem_cons_of_mem _ List.mem_cons_self, sampleDdl_unnamed (by decide)⟩
    cleanColumns := by decide
    cleanTable := by decide }

private theorem sampleDdl_isKey {i : Nat} (isKey : sampleDdl.IsKey i) : i = 0 := by
  have named : sampleDdl.Names keyColumn :=
    ⟨_, List.mem_singleton_self _, _, List.mem_singleton_self _, rfl⟩
  rcases isKey with ⟨column, atIndex, names⟩ | ⟨none, _⟩
  · match i with
    | 0 => rfl
    | 1 =>
        cases atIndex
        exact absurd names (sampleDdl_unnamed (by decide))
    | 2 =>
        cases atIndex
        exact absurd names (sampleDdl_unnamed (by decide))
    | _ + 3 => cases atIndex
  · exact absurd named (none keyColumn List.mem_cons_self)

def sampleRow : Sql.plainServer.State :=
  fun _ table => if table = ascii "t" then some ⟨sampleType, {[[97], [49], [48]]}⟩ else none

/-- The update takes the place of the older row with its key. -/
theorem parseDdl_actsAsDeclared_sampleDdl :
    ∃ info later, parseDdl sampleDdl.text = .ok info ∧
      ActsAsDeclared Sql.plainServer (ascii "db") sampleDdl (info.schema (ascii "t")) ∧
      Sql.plainServer.execute (ascii "db") sampleRow
        ((info.schema (ascii "t")).makeUpdateStatement [[97], [50], [49]]) = some later ∧
      Sql.plainServer.table later (ascii "db") (ascii "t") =
        some ⟨sampleType, {[[97], [50], [49]]}⟩ := by
  have documented := Sql.plainServer_documented (ascii "db") (ascii "t")
  rcases parseDdl_actsAsDeclared documented sampleDdl_usable with ⟨info, parsed, acts⟩
  have sameKey : sampleDdl.SameKey [[97], [49], [48]] [[97], [50], [49]] := by
    intro i isKey
    rw [sampleDdl_isKey isKey]
    rfl
  have older : updatedAt [[97], [49], [48]] < updatedAt [[97], [50], [49]] := by decide
  have plain : Schema.PlainRow sampleDdl.columnNames [[97], [50], [49]] := ⟨rfl, by decide⟩
  have suits : Suits sampleType sampleDdl.IsKey (among [[97], [50], [49]] {[[97], [49], [48]]}) := by
    apply suits_binary fun _ => rfl
    rintro rec (rfl | member)
    · rfl
    · rw [Multiset.mem_singleton.mp member]
      rfl
  have stored : Sql.plainServer.table sampleRow (ascii "db") (info.schema (ascii "t")).table =
      some ⟨sampleType, ({[[97], [49], [48]]} : Table).map sampleType.keep⟩ := rfl
  have makes := acts.update rfl stored plain suits
  rw [Multiset.map_singleton, Multiset.map_singleton, if_pos ⟨sameKey, older⟩] at makes
  rcases makes rfl with ⟨later, accepted, leaves⟩
  exact ⟨info, later, parsed, acts, accepted, leaves.here⟩

end ChangeSql
