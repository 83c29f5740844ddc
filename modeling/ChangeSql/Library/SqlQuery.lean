/-
The statements of a small part of SQL, and the parser that reads them.

The parser accepts the printed form of a statement and nothing else, up to
spaces and the case of keywords, which the lexer does not keep.
-/

import ChangeSql.Library.SqlLexer
import ChangeSql.Library.TokenParser

namespace ChangeSql.Sql

open TokenParser

inductive Operator where
  | equal
  | less
  deriving DecidableEq, Repr

abbrev Comparison := Bytes × Operator × Bytes

/-- The condition of a statement is the conjunction of its comparisons. -/
inductive Query where
  | insert (table : Bytes) (rows : List (List Bytes))
  | update (table : Bytes) (assignments : List (Bytes × Bytes)) (condition : List Comparison)
  | insertNotExists (table : Bytes) (row : List Bytes) (source : Bytes)
      (condition : List Comparison)
  deriving DecidableEq, Repr

/-! ### What is written -/

abbrev keyword (text : String) : Token := .word (ascii text)

def Operator.token : Operator → Token
  | equal => .symbol equals
  | less => .symbol Sql.less

def printValues (row : List Bytes) : List Token :=
  printSep (fun value => [.literal value]) (.symbol comma) row

def printRow (row : List Bytes) : List Token :=
  [.symbol openParen] ++ printValues row ++ [.symbol closeParen]

def printAssignment (assignment : Bytes × Bytes) : List Token :=
  [.ident assignment.1] ++ [.symbol equals] ++ [.literal assignment.2]

def printComparison (comparison : Comparison) : List Token :=
  [.ident comparison.1] ++ ([comparison.2.1.token] ++ [.literal comparison.2.2])

def printCondition (condition : List Comparison) : List Token :=
  printSep printComparison (keyword "and") condition

def notExists : List Token :=
  [keyword "where", keyword "not", keyword "exists", .symbol openParen, keyword "select",
    keyword "1", keyword "from"]

def Query.tokens : Query → List Token
  | insert table rows =>
      [keyword "insert", keyword "into"] ++
        ([.ident table] ++ ([keyword "values"] ++ printSep printRow (.symbol comma) rows))
  | update table assignments condition =>
      [keyword "update"] ++ ([.ident table] ++ ([keyword "set"] ++
        (printSep printAssignment (.symbol comma) assignments ++
          ([keyword "where"] ++ printCondition condition))))
  | insertNotExists table row source condition =>
      [keyword "insert", keyword "into"] ++ ([.ident table] ++ ([keyword "select"] ++
        (printValues row ++ (notExists ++ ([.ident source] ++
          ([keyword "where"] ++ (printCondition condition ++ [.symbol closeParen])))))))

def Query.Valid : Query → Prop
  | insert _ rows => rows ≠ [] ∧ ∀ row ∈ rows, row ≠ []
  | update _ assignments condition => assignments ≠ [] ∧ condition ≠ []
  | insertNotExists _ row _ condition => row ≠ [] ∧ condition ≠ []

/-! ### What is read -/

def quoted (quoting : Quoting) : Parser Token Bytes
  | .quoted other value :: rest => if other = quoting then some (value, rest) else none
  | _ => none

def operator : Parser Token Operator
  | .symbol byte :: rest =>
      if byte = equals then some (.equal, rest)
      else if byte = less then some (.less, rest)
      else none
  | _ => none

def rowValues : Parser Token (List Bytes) :=
  sepBy (quoted .literal) (.symbol comma)

def row : Parser Token (List Bytes) :=
  before (behind [.symbol openParen] rowValues) [.symbol closeParen]

def assignment : Parser Token (Bytes × Bytes) :=
  andThen (before (quoted .ident) [.symbol equals]) (quoted .literal)

def comparison : Parser Token Comparison :=
  andThen (quoted .ident) (andThen operator (quoted .literal))

def condition : Parser Token (List Comparison) :=
  sepBy comparison (keyword "and")

def insert : Parser Token (Bytes × List (List Bytes)) :=
  behind [keyword "insert", keyword "into"]
    (andThen (quoted .ident) (behind [keyword "values"] (sepBy row (.symbol comma))))

def update : Parser Token (Bytes × List (Bytes × Bytes) × List Comparison) :=
  behind [keyword "update"]
    (andThen (quoted .ident) (behind [keyword "set"]
      (andThen (sepBy assignment (.symbol comma)) (behind [keyword "where"] condition))))

def insertNotExists : Parser Token (Bytes × List Bytes × Bytes × List Comparison) :=
  behind [keyword "insert", keyword "into"]
    (andThen (quoted .ident) (behind [keyword "select"]
      (andThen rowValues (behind notExists
        (andThen (quoted .ident) (behind [keyword "where"]
          (before condition [.symbol closeParen])))))))

def parse (tokens : List Token) : Option Query :=
  ((complete insert tokens).map fun (table, rows) => .insert table rows).or <|
  ((complete update tokens).map fun (table, assignments, condition) =>
    .update table assignments condition).or <|
  ((complete insertNotExists tokens).map fun (table, row, source, condition) =>
    .insertNotExists table row source condition)

def read (text : Bytes) : Option Query :=
  (lex text).bind parse

/-! ### The parser inverts the printer -/

theorem quoted_inverts (quoting : Quoting) :
    Inverts (quoted quoting) (fun value => [.quoted quoting value]) Any Any := by
  intro tokens value rest
  constructor
  · intro readToken
    unfold quoted at readToken
    split at readToken
    · split at readToken
      · rename_i same
        cases readToken
        rw [same]
        exact ⟨rfl, trivial, trivial⟩
      · cases readToken
    · cases readToken
  · rintro ⟨rfl, _, _⟩
    exact if_pos rfl

theorem operator_inverts : Inverts operator (fun op => [op.token]) Any Any := by
  intro tokens value rest
  constructor
  · intro readToken
    unfold operator at readToken
    split at readToken
    · split at readToken
      · rename_i same
        cases readToken
        rw [same]
        exact ⟨rfl, trivial, trivial⟩
      · split at readToken
        · rename_i same
          cases readToken
          rw [same]
          exact ⟨rfl, trivial, trivial⟩
        · cases readToken
    · cases readToken
  · rintro ⟨rfl, _, _⟩
    cases value <;> rfl

theorem rowValues_inverts :
    Inverts rowValues printValues (fun row => row ≠ [] ∧ ∀ value ∈ row, Any value)
      (fun rest => rest.head? ≠ some (.symbol comma)) :=
  (quoted_inverts .literal).sepBy _

theorem row_inverts :
    Inverts row printRow (fun row => row ≠ [] ∧ ∀ value ∈ row, Any value) Any :=
  (rowValues_inverts.behind _).before _ fun _ =>
    show some (Token.symbol closeParen) ≠ some (.symbol comma) by decide

theorem assignment_inverts :
    Inverts assignment printAssignment (fun pair => Any pair.1 ∧ Any pair.2) Any :=
  ((quoted_inverts .ident).before _ fun _ => trivial).andThen (quoted_inverts .literal)
    fun _ _ _ _ => trivial

theorem comparison_inverts :
    Inverts comparison printComparison (fun triple => Any triple.1 ∧ Any triple.2.1 ∧ Any triple.2.2)
      Any :=
  (quoted_inverts .ident).andThen
    (operator_inverts.andThen (quoted_inverts .literal) fun _ _ _ _ => trivial)
    fun _ _ _ _ => trivial

theorem condition_inverts :
    Inverts condition printCondition
      (fun condition => condition ≠ [] ∧ ∀ triple ∈ condition,
        Any triple.1 ∧ Any triple.2.1 ∧ Any triple.2.2)
      (fun rest => rest.head? ≠ some (keyword "and")) :=
  comparison_inverts.sepBy _

theorem complete_insert_iff {tokens : List Token} {table : Bytes} {rows : List (List Bytes)} :
    complete insert tokens = some (table, rows) ↔
      tokens = (Query.insert table rows).tokens ∧ (Query.insert table rows).Valid := by
  have law := ((quoted_inverts .ident).andThen
    ((row_inverts.sepBy (.symbol comma)).behind [keyword "values"])
    fun _ _ _ _ => trivial).behind [keyword "insert", keyword "into"]
  apply (law.complete (by decide)).trans
  simp [Query.tokens, Query.Valid, Any]

theorem complete_update_iff {tokens : List Token} {table : Bytes}
    {assignments : List (Bytes × Bytes)} {condition : List Comparison} :
    complete update tokens = some (table, assignments, condition) ↔
      tokens = (Query.update table assignments condition).tokens ∧
        (Query.update table assignments condition).Valid := by
  have law := ((quoted_inverts .ident).andThen
    (((assignment_inverts.sepBy (.symbol comma)).andThen
      (condition_inverts.behind [keyword "where"]) fun _ _ _ _ => by simp).behind [keyword "set"])
    fun _ _ _ _ => trivial).behind [keyword "update"]
  apply (law.complete (by decide)).trans
  simp [Query.tokens, Query.Valid, Any]

theorem complete_insertNotExists_iff {tokens : List Token} {table : Bytes} {row : List Bytes}
    {source : Bytes} {condition : List Comparison} :
    complete insertNotExists tokens = some (table, row, source, condition) ↔
      tokens = (Query.insertNotExists table row source condition).tokens ∧
        (Query.insertNotExists table row source condition).Valid := by
  have tail := (condition_inverts.before [.symbol closeParen] fun _ => by simp).behind
    [keyword "where"]
  have source := ((quoted_inverts .ident).andThen tail fun _ _ _ _ => trivial).behind notExists
  have law := ((quoted_inverts .ident).andThen
    ((rowValues_inverts.andThen source fun _ _ _ _ => by simp [notExists]).behind
      [keyword "select"])
    fun _ _ _ _ => trivial).behind [keyword "insert", keyword "into"]
  apply (law.complete trivial).trans
  simp [Query.tokens, Query.Valid, Any]

/-- A text has one reading at most, and what is written is read. -/
theorem parse_eq_some_iff {tokens : List Token} {query : Query} :
    parse tokens = some query ↔ tokens = query.tokens ∧ query.Valid := by
  unfold parse
  constructor
  · intro parsed
    rw [Option.or_eq_some_iff, Option.or_eq_some_iff] at parsed
    rcases parsed with parsed | ⟨_, parsed | ⟨_, parsed⟩⟩
    · rcases Option.map_eq_some_iff.mp parsed with ⟨⟨table, rows⟩, readAll, rfl⟩
      exact complete_insert_iff.mp readAll
    · rcases Option.map_eq_some_iff.mp parsed with ⟨⟨table, assignments, condition⟩, readAll, rfl⟩
      exact complete_update_iff.mp readAll
    · rcases Option.map_eq_some_iff.mp parsed with
        ⟨⟨table, row, source, condition⟩, readAll, rfl⟩
      exact complete_insertNotExists_iff.mp readAll
  · rintro ⟨rfl, valid⟩
    -- The first word tells an update from an insert, the fourth token the two inserts.
    have noInsert (different : ∀ table rows, query.tokens ≠ (Query.insert table rows).tokens) :
        complete insert query.tokens = none := by
      apply Option.eq_none_iff_forall_ne_some.mpr
      rintro ⟨table, rows⟩ readAll
      exact different table rows (complete_insert_iff.mp readAll).1
    cases query with
    | insert table rows =>
        rw [complete_insert_iff.mpr ⟨rfl, valid⟩]
        rfl
    | update table assignments condition =>
        rw [complete_update_iff.mpr ⟨rfl, valid⟩, noInsert]
        · rfl
        · intro other rows same
          have first : some (keyword "update") = some (keyword "insert") :=
            congrArg List.head? same
          exact absurd first (by decide)
    | insertNotExists table row source condition =>
        have noUpdate : complete update (Query.insertNotExists table row source condition).tokens =
            none := by
          apply Option.eq_none_iff_forall_ne_some.mpr
          rintro ⟨other, assignments, others⟩ readAll
          have first : some (keyword "insert") = some (keyword "update") :=
            congrArg List.head? (complete_update_iff.mp readAll).1
          exact absurd first (by decide)
        rw [complete_insertNotExists_iff.mpr ⟨rfl, valid⟩, noUpdate, noInsert]
        · rfl
        · intro other rows same
          have fourth : some (keyword "select") = some (keyword "values") :=
            congrArg (fun tokens => tokens[3]?) same
          exact absurd fourth (by decide)

theorem read_eq_some_iff {text : Bytes} {query : Query} :
    read text = some query ↔ lex text = some query.tokens ∧ query.Valid := by
  unfold read
  rw [Option.bind_eq_some_iff]
  constructor
  · rintro ⟨tokens, lexed, parsed⟩
    rcases parse_eq_some_iff.mp parsed with ⟨rfl, valid⟩
    exact ⟨lexed, valid⟩
  · rintro ⟨lexed, valid⟩
    exact ⟨_, lexed, parse_eq_some_iff.mpr ⟨rfl, valid⟩⟩

end ChangeSql.Sql
