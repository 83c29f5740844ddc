/-
The statement texts that `query_builder.cpp` builds, and the statements they
stand for.

Every builder appends a separator behind each element and then chops the last
one off again, as the source does; `dropLast` is `pop_back`.
-/

import ChangeSql.Schema

namespace ChangeSql

namespace Schema

variable (schema : Schema)

/-- The loop of `make_where_clause` from column `i` on. -/
def whereLoop (i : Nat) : List Bytes → Record → Bytes
  | name :: names, value :: rec =>
      (if maskBit schema.uniqueMask i then
        name ++ ascii "='" ++ value ++ [quote] ++ ascii " and"
      else []) ++ whereLoop (i + 1) names rec
  | _, _ => []

def makeWhereClause (rec : Record) : Bytes :=
  (ascii "where " ++ schema.whereLoop 0 schema.fieldNames rec)
    |>.dropLast |>.dropLast |>.dropLast |>.dropLast

/-- The loop of `make_update_statement` from column `i` on. -/
def setLoop (i : Nat) : List Bytes → Record → Bytes
  | name :: names, value :: rec =>
      (if maskBit schema.uniqueMask i then []
      else name ++ ascii "='" ++ value ++ ascii "',") ++ setLoop (i + 1) names rec
  | _, _ => []

def makeUpdateStatement (rec : Record) : Bytes :=
  let ret := (ascii "update `" ++ schema.table ++ ascii "` set "
    ++ schema.setLoop 0 schema.fieldNames rec).dropLast
  let clause := schema.makeWhereClause rec ++ ascii " and `updated_at`<'"
    ++ rec.getLast?.getD [] ++ ascii "'"
  ret ++ [space] ++ clause

/-- The values of one record in quotes, with commas between them. Both insert
statements have this loop. -/
def valueLoop : Record → Bytes
  | [] => []
  | [value] => [quote] ++ value ++ [quote]
  | value :: next :: rec => [quote] ++ value ++ [quote] ++ [comma] ++ valueLoop (next :: rec)

def tupleLoop : List Record → Bytes
  | [] => []
  | rec :: records => [openParen] ++ valueLoop rec ++ ascii ")," ++ tupleLoop records

def makeInsertStatement (records : List Record) : Bytes :=
  (ascii "insert into `" ++ schema.table ++ ascii "` values" ++ tupleLoop records).dropLast

def makeInsertWhereNotExistsStatement (rec : Record) : Bytes :=
  ascii "insert into `" ++ schema.table ++ ascii "` select " ++ valueLoop rec
    ++ ascii " where not exists(select 1 from `" ++ schema.table ++ ascii "` "
    ++ schema.makeWhereClause rec ++ [closeParen]

end Schema

/-- A returned statement together with the records it was built from; `empty`
is the empty string, which says that there is none. -/
inductive Statement where
  | empty
  | insert (records : List Record)
  | update (rec : Record)
  | insertWhereNotExists (rec : Record)
  deriving DecidableEq, Repr

namespace Statement

/-- The records that the statement carries. An insert-if-not-exists only
completes the update in front of it and carries none of its own. -/
def carried : Statement → List Record
  | empty => []
  | insert records => records
  | update rec => [rec]
  | insertWhereNotExists _ => []

end Statement

/-- The operations on statements that `next_query` uses. The code runs with
the texts; `symbolic` keeps the records instead, so that it can be said what a
returned text carries. -/
structure Builders (σ : Type) where
  empty : σ
  isEmpty : σ → Bool
  makeUpdateStatement : Record → σ
  makeInsertStatement : List Record → σ
  makeInsertWhereNotExistsStatement : Record → σ

namespace Builders

def texts (schema : Schema) : Builders Bytes :=
  { empty := []
    isEmpty := List.isEmpty
    makeUpdateStatement := schema.makeUpdateStatement
    makeInsertStatement := schema.makeInsertStatement
    makeInsertWhereNotExistsStatement := schema.makeInsertWhereNotExistsStatement }

def symbolic : Builders Statement :=
  { empty := .empty
    isEmpty := fun statement => statement = .empty
    makeUpdateStatement := .update
    makeInsertStatement := .insert
    makeInsertWhereNotExistsStatement := .insertWhereNotExists }

end Builders

def Statement.build {σ : Type} (builders : Builders σ) : Statement → σ
  | empty => builders.empty
  | insert records => builders.makeInsertStatement records
  | update rec => builders.makeUpdateStatement rec
  | insertWhereNotExists rec => builders.makeInsertWhereNotExistsStatement rec

def Statement.text (schema : Schema) (statement : Statement) : Bytes :=
  statement.build (Builders.texts schema)

def Builders.Lawful {σ : Type} (builders : Builders σ) : Prop :=
  ∀ statement : Statement, builders.isEmpty (statement.build builders) = true ↔ statement = .empty

theorem Statement.build_symbolic (statement : Statement) :
    statement.build Builders.symbolic = statement := by
  cases statement <;> rfl

theorem Builders.symbolic_lawful : Builders.symbolic.Lawful := by
  intro statement
  rw [Statement.build_symbolic]
  exact decide_eq_true_iff

theorem Statement.text_eq_nil (schema : Schema) (statement : Statement) :
    statement.text schema = [] ↔ statement = .empty := by
  cases statement with
  | empty => simp [text, build, Builders.texts]
  | insert records =>
      have long : 2 ≤ (ascii "insert into `" ++ schema.table ++ ascii "` values"
          ++ Schema.tupleLoop records).length := by
        simp only [List.length_append, show (ascii "insert into `").length = 13 by rfl]
        omega
      simp only [text, build, Builders.texts, Schema.makeInsertStatement, reduceCtorEq, iff_false]
      intro none
      have kept := congrArg List.length none
      rw [List.length_dropLast, List.length_nil] at kept
      omega
  | update rec => simp [text, build, Builders.texts, Schema.makeUpdateStatement]
  | insertWhereNotExists rec =>
      simp [text, build, Builders.texts, Schema.makeInsertWhereNotExistsStatement]

theorem Builders.texts_lawful (schema : Schema) : (Builders.texts schema).Lawful := by
  intro statement
  rw [← Statement.text_eq_nil schema]
  exact List.isEmpty_iff

end ChangeSql
