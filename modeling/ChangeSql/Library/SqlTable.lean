/-
Tables of a database server and what is known of the server.

The type of a table says how each column keeps a literal and compares what it
keeps with one, and which rows its unique keys allow together. A server is
anything that has tables in its states and makes another state of a text. What
its documentation says of the statements is an assumption with a name.
-/

import ChangeSql.Library.SqlQuery
import Mathlib.Data.Multiset.Filter
import Mathlib.Data.List.Nodup

namespace ChangeSql.Sql

structure ColumnType where
  accepts : Bytes → Bool
  keeps : Bytes → Bytes
  compares : Operator → Bytes → Bytes → Bool

def ColumnType.binary : ColumnType :=
  { accepts := fun _ => true
    keeps := id
    compares := fun op first second =>
      match op with
      | .equal => decide (first = second)
      | .less => decide (first < second) }

structure TableType where
  columns : List Bytes
  typeOf : Bytes → ColumnType
  allows : Multiset (List Bytes) → Bool

structure StoredTable where
  type : TableType
  rows : Multiset (List Bytes)

def valueOf (columns row : List Bytes) (name : Bytes) : Option Bytes :=
  (columns.zip row).lookup name

section

variable (typeOf : Bytes → ColumnType) (columns row : List Bytes)

def keepRow : List Bytes :=
  List.zipWith (fun column literal => (typeOf column).keeps literal) columns row

def Meets (condition : List Comparison) : Prop :=
  ∀ comparison ∈ condition, ∃ value ∈ valueOf columns row comparison.1,
    (typeOf comparison.1).compares comparison.2.1 value comparison.2.2 = true

instance (condition : List Comparison) : Decidable (Meets typeOf columns row condition) :=
  inferInstanceAs (Decidable (∀ comparison ∈ condition,
    ∃ value ∈ valueOf columns row comparison.1,
      (typeOf comparison.1).compares comparison.2.1 value comparison.2.2 = true))

def assign (row : List Bytes) (assignment : Bytes × Bytes) : List Bytes :=
  List.zipWith
    (fun column old => if column = assignment.1 then (typeOf column).keeps assignment.2 else old)
    columns row

/-- The assignments of an update are made one after the other. -/
def assignAll (assignments : List (Bytes × Bytes)) : List Bytes :=
  assignments.foldl (assign typeOf columns) row

end

namespace TableType

variable (type : TableType)

def keep (row : List Bytes) : List Bytes :=
  keepRow type.typeOf type.columns row

def Takes (row : List Bytes) : Prop :=
  row.length = type.columns.length ∧
    ∀ pair ∈ type.columns.zip row, (type.typeOf pair.1).accepts pair.2 = true

instance (row : List Bytes) : Decidable (type.Takes row) :=
  inferInstanceAs (Decidable (row.length = type.columns.length ∧
    ∀ pair ∈ type.columns.zip row, (type.typeOf pair.1).accepts pair.2 = true))

end TableType

namespace StoredTable

variable (stored : StoredTable)

def insert (new : List (List Bytes)) : Multiset (List Bytes) :=
  stored.rows + new.map stored.type.keep

def update (assignments : List (Bytes × Bytes)) (condition : List Comparison) :
    Multiset (List Bytes) :=
  stored.rows.map fun row =>
    if Meets stored.type.typeOf stored.type.columns row condition then
      assignAll stored.type.typeOf stored.type.columns row assignments
    else row

def insertAbsent (row : List Bytes) (condition : List Comparison) : Multiset (List Bytes) :=
  if stored.rows.filter (Meets stored.type.typeOf stored.type.columns · condition) = 0 then
    stored.type.keep row ::ₘ stored.rows
  else stored.rows

end StoredTable

/-! ### Servers -/

/-- The tables in a state are found by the names of their database and their
own, and a text is executed in the database of the connection. -/
structure Server where
  State : Type
  table : State → Bytes → Bytes → Option StoredTable
  execute : Bytes → State → Bytes → Option State

namespace Server

variable (server : Server) (db name : Bytes)

/-- The states in which this table has these rows and all others are as they
were. -/
structure Leaves (stored : StoredTable) (before after : server.State) : Prop where
  here : server.table after db name = some stored
  others : ∀ other table, (other, table) ≠ (db, name) →
    server.table after other table = server.table before other table

variable {server db name} in
theorem Leaves.trans {middle last : StoredTable} {state later final : server.State}
    (first : server.Leaves db name middle state later)
    (second : server.Leaves db name last later final) : server.Leaves db name last state final :=
  { here := second.here
    others := fun other table different =>
      (second.others other table different).trans (first.others other table different) }

/-- The text is accepted, and the table has these rows if its keys allow them. -/
def Makes (stored : StoredTable) (rows : Multiset (List Bytes)) (state : server.State)
    (text : Bytes) : Prop :=
  stored.type.allows rows = true → ∃ later, server.execute db state text = some later ∧
    server.Leaves db name { stored with rows := rows } state later

/-- What is documented of the three kinds of statements, for a table that no
trigger watches. A literal is kept and compared as the type of its column says,
and only a row that a column or a key does not allow is refused. -/
structure Documented : Prop where
  insert : ∀ {state text stored new}, server.table state db name = some stored →
    read text = some (.insert name new) → (∀ row ∈ new, stored.type.Takes row) →
    server.Makes db name stored (stored.insert new) state text
  update : ∀ {state text stored assignments condition},
    server.table state db name = some stored →
    read text = some (.update name assignments condition) →
    (∀ assignment ∈ assignments, assignment.1 ∈ stored.type.columns ∧
      (stored.type.typeOf assignment.1).accepts assignment.2 = true) →
    (∀ comparison ∈ condition, comparison.1 ∈ stored.type.columns) →
    server.Makes db name stored (stored.update assignments condition) state text
  insertNotExists : ∀ {state text stored row condition},
    server.table state db name = some stored →
    read text = some (.insertNotExists name row name condition) → stored.type.Takes row →
    (∀ comparison ∈ condition, comparison.1 ∈ stored.type.columns) →
    server.Makes db name stored (stored.insertAbsent row condition) state text

end Server

/-! ### A server -/

abbrev Tables : Type :=
  Bytes → Bytes → Option StoredTable

def Tables.store (tables : Tables) (db name : Bytes) (stored : StoredTable)
    (rows : Multiset (List Bytes)) : Option Tables :=
  if stored.type.allows rows = true then
    some (Function.update tables db
      (Function.update (tables db) name (some { stored with rows := rows })))
  else none

def Query.run (db : Bytes) (tables : Tables) : Query → Option Tables
  | insert name new => do
      let stored ← tables db name
      if ∀ row ∈ new, stored.type.Takes row then tables.store db name stored (stored.insert new)
      else none
  | update name assignments condition => do
      let stored ← tables db name
      if (∀ assignment ∈ assignments, assignment.1 ∈ stored.type.columns ∧
            (stored.type.typeOf assignment.1).accepts assignment.2 = true) ∧
          ∀ comparison ∈ condition, comparison.1 ∈ stored.type.columns then
        tables.store db name stored (stored.update assignments condition)
      else none
  | insertNotExists name row source condition => do
      let stored ← tables db name
      if name = source ∧ stored.type.Takes row ∧
          ∀ comparison ∈ condition, comparison.1 ∈ stored.type.columns then
        tables.store db name stored (stored.insertAbsent row condition)
      else none

/-- A server that reads these three kinds of statements and no other. -/
def plainServer : Server :=
  { State := Tables
    table := fun tables => tables
    execute := fun db tables text => (read text).bind (Query.run db tables) }

theorem Tables.makes {tables : Tables} {db name text : Bytes} {stored : StoredTable}
    {rows : Multiset (List Bytes)}
    (runs : plainServer.execute db tables text = tables.store db name stored rows) :
    plainServer.Makes db name stored rows tables text := by
  intro allowed
  refine ⟨_, runs.trans (if_pos allowed), ?_, ?_⟩
  · change Function.update tables db _ db name = _
    rw [Function.update_self, Function.update_self]
  · intro other table different
    change Function.update tables db _ other table = tables other table
    by_cases sameDb : other = db
    · subst sameDb
      have otherTable : table ≠ name := fun same => different (same ▸ rfl)
      rw [Function.update_self, Function.update_of_ne otherTable]
    · rw [Function.update_of_ne sameDb]

theorem plainServer_documented (db name : Bytes) : plainServer.Documented db name where
  insert := by
    intro tables text stored new here isRead takes
    change tables db name = some stored at here
    apply Tables.makes
    change (read text).bind (Query.run db tables) = _
    rw [isRead, Option.bind_some]
    unfold Query.run
    simp only [here, bind, Option.bind_some]
    exact if_pos takes
  update := by
    intro tables text stored assignments condition here isRead accepted known
    change tables db name = some stored at here
    apply Tables.makes
    change (read text).bind (Query.run db tables) = _
    rw [isRead, Option.bind_some]
    unfold Query.run
    simp only [here, bind, Option.bind_some]
    exact if_pos ⟨accepted, known⟩
  insertNotExists := by
    intro tables text stored row condition here isRead takes known
    change tables db name = some stored at here
    apply Tables.makes
    change (read text).bind (Query.run db tables) = _
    rw [isRead, Option.bind_some]
    unfold Query.run
    simp only [here, bind, Option.bind_some]
    exact if_pos ⟨trivial, takes, known⟩

/-! ### Columns with different names -/

variable {typeOf : Bytes → ColumnType} {columns row : List Bytes} {column name value : Bytes}

theorem valueOf_cons_of_ne (other : name ≠ column) :
    valueOf (column :: columns) (value :: row) name = valueOf columns row name := by
  unfold valueOf
  rw [List.zip_cons_cons, List.lookup_cons, beq_false_of_ne other]

theorem valueOf_cons_self : valueOf (column :: columns) (value :: row) column = some value := by
  unfold valueOf
  rw [List.zip_cons_cons, List.lookup_cons, beq_self_eq_true]

theorem valueOf_keepRow (typeOf : Bytes → ColumnType) (columns row : List Bytes) (name : Bytes) :
    valueOf columns (keepRow typeOf columns row) name =
      (valueOf columns row name).map (typeOf name).keeps := by
  induction columns generalizing row with
  | nil => rfl
  | cons column columns ih =>
      cases row with
      | nil => rfl
      | cons value row =>
          change valueOf _ (_ :: keepRow typeOf columns row) name = _
          by_cases same : name = column
          · subst same
            rw [valueOf_cons_self, valueOf_cons_self]
            rfl
          · rw [valueOf_cons_of_ne same, valueOf_cons_of_ne same]
            exact ih row

theorem meets_nil : Meets typeOf columns row [] :=
  nofun

theorem meets_cons {comparison : Comparison} {condition : List Comparison} :
    Meets typeOf columns row (comparison :: condition) ↔
      (∃ other ∈ valueOf columns row comparison.1,
        (typeOf comparison.1).compares comparison.2.1 other comparison.2.2 = true) ∧
      Meets typeOf columns row condition :=
  List.forall_mem_cons

theorem meets_append {first second : List Comparison} :
    Meets typeOf columns row (first ++ second) ↔
      Meets typeOf columns row first ∧ Meets typeOf columns row second :=
  List.forall_mem_append

theorem meets_tail {condition : List Comparison}
    (others : ∀ comparison ∈ condition, comparison.1 ≠ column) :
    Meets typeOf (column :: columns) (value :: row) condition ↔
      Meets typeOf columns row condition := by
  apply forall₂_congr
  intro comparison member
  rw [valueOf_cons_of_ne (others comparison member)]

theorem assign_cons {assignment : Bytes × Bytes} (other : assignment.1 ≠ column) :
    assign typeOf (column :: columns) (value :: row) assignment =
      value :: assign typeOf columns row assignment := by
  unfold assign
  rw [List.zipWith_cons_cons, if_neg fun same => other same.symm]

theorem assign_of_not_mem {assignment : Bytes × Bytes} (absent : assignment.1 ∉ columns)
    (width : row.length = columns.length) : assign typeOf columns row assignment = row := by
  induction columns generalizing row with
  | nil =>
      rw [List.length_eq_zero_iff.mp width]
      rfl
  | cons column columns ih =>
      cases row with
      | nil => cases width
      | cons value row =>
          rw [List.mem_cons, not_or] at absent
          rw [assign_cons absent.1, ih absent.2 (Nat.succ.inj width)]

theorem assign_head (absent : column ∉ columns) (old : Bytes)
    (width : row.length = columns.length) :
    assign typeOf (column :: columns) (old :: row) (column, value) =
      (typeOf column).keeps value :: row := by
  have rest : assign typeOf columns row (column, value) = row := assign_of_not_mem absent width
  unfold assign at rest ⊢
  rw [List.zipWith_cons_cons, if_pos rfl, rest]

theorem assignAll_cons {assignments : List (Bytes × Bytes)}
    (others : ∀ assignment ∈ assignments, assignment.1 ≠ column) :
    assignAll typeOf (column :: columns) (value :: row) assignments =
      value :: assignAll typeOf columns row assignments := by
  induction assignments generalizing row with
  | nil => rfl
  | cons assignment assignments ih =>
      have first := others assignment List.mem_cons_self
      have rest : ∀ other ∈ assignments, other.1 ≠ column := fun other member =>
        others other (List.mem_cons_of_mem _ member)
      change assignAll _ _ (assign _ _ _ _) _ = _ :: assignAll _ _ (assign _ _ _ _) _
      rw [assign_cons first, ih rest]

theorem length_keepRow (width : row.length = columns.length) :
    (keepRow typeOf columns row).length = columns.length := by
  unfold keepRow
  rw [List.length_zipWith, width, Nat.min_self]

end ChangeSql.Sql
