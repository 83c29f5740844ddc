/-
What the statements do to a table.

A table is a multiset of rows and a row has one value for each column. Keys
are compared byte for byte and `updated_at`, the last column, in the order of
the bytes. On rows as wide as the schema an update amends the table and an
insert-if-not-exists completes it, so that the two together are an upsert.
-/

import ChangeSql.Library.NewestWins
import ChangeSql.CsvFile

namespace ChangeSql

open NewestWins

/-- The values that the condition of `make_where_clause` compares. -/
def Schema.keyOf (schema : Schema) (rec : Record) : List Bytes :=
  QueryBuilder.keyFields schema.uniqueMask 0 rec

def updatedAt (rec : Record) : Bytes :=
  rec.getLast?.getD []

/-- The `set` of an update from column `i` on: the columns outside the key get
the values of `rec`. -/
def overwrite (uniqueMask : UInt16) (i : Nat) : Record → Record → Record
  | old :: row, value :: rec =>
      (if maskBit uniqueMask i then old else value) :: overwrite uniqueMask (i + 1) row rec
  | row, _ => row

abbrev Table := Multiset Record

def Statement.execute (schema : Schema) (statement : Statement) (table : Table) : Table :=
  match statement with
  | .empty => table
  | .insert records => table + records
  | .update rec => table.map fun row =>
      if schema.keyOf row = schema.keyOf rec ∧ updatedAt row < updatedAt rec then
        overwrite schema.uniqueMask 0 row rec
      else row
  | .insertWhereNotExists rec =>
      if schema.keyOf rec ∈ table.map schema.keyOf then table else rec ::ₘ table

def executeAll (schema : Schema) (log : List Statement) : Table :=
  log.foldl (fun table statement => statement.execute schema table) 0

theorem executeAll_snoc (schema : Schema) (log : List Statement) (statement : Statement) :
    executeAll schema (log ++ [statement]) = statement.execute schema (executeAll schema log) := by
  unfold executeAll
  rw [List.foldl_append]
  rfl

private theorem overwrite_eq {uniqueMask : UInt16} {i : Nat} {row rec : Record}
    (width : row.length = rec.length)
    (sameKey : QueryBuilder.keyFields uniqueMask i row = QueryBuilder.keyFields uniqueMask i rec) :
    overwrite uniqueMask i row rec = rec := by
  induction row generalizing i rec with
  | nil =>
      cases rec with
      | nil => rfl
      | cons value rec => cases width
  | cons old row ih =>
      cases rec with
      | nil => cases width
      | cons value rec =>
          unfold overwrite
          unfold QueryBuilder.keyFields at sameKey
          by_cases isKey : maskBit uniqueMask i
          · rw [if_pos isKey, if_pos isKey, List.cons.injEq] at sameKey
            rw [if_pos isKey, ih (Nat.succ.inj width) sameKey.2, sameKey.1]
          · rw [if_neg isKey, if_neg isKey] at sameKey
            rw [if_neg isKey, ih (Nat.succ.inj width) sameKey]

instance : IsStrictOrder Bytes (· < ·) :=
  { irrefl := fun value => List.lt_irrefl value
    trans := fun _ _ _ => List.lt_trans }

abbrev Schema.newest (schema : Schema) (records : List Record) : Table :=
  upserts schema.keyOf updatedAt records

theorem execute_update {schema : Schema} {rec : Record} {table : Table}
    (width : ∀ row ∈ table, row.length = rec.length) :
    (Statement.update rec).execute schema table = amend schema.keyOf updatedAt rec table := by
  unfold Statement.execute amend
  apply Multiset.map_congr rfl
  intro row member
  by_cases replaced : schema.keyOf row = schema.keyOf rec ∧ updatedAt row < updatedAt rec
  · rw [if_pos replaced, if_pos replaced]
    exact overwrite_eq (width row member) replaced.1
  · rw [if_neg replaced, if_neg replaced]

theorem execute_insertWhereNotExists (schema : Schema) (rec : Record) (table : Table) :
    (Statement.insertWhereNotExists rec).execute schema table =
      complete schema.keyOf rec table := rfl

end ChangeSql
