/-
The statement texts as fixed pieces of SQL with values among them.

The builders append separators and chop the last one off. What is left is a
list of pieces, in which key columns and the others come as two lists of
equalities, and the tokens that those pieces are meant as.
-/

import ChangeSql.Library.SqlTemplate
import ChangeSql.Statements

namespace ChangeSql

open Sql
open TokenParser (printSep printSep_append printSep_map)

namespace Schema

variable (schema : Schema)

structure Quotes (columns : List Bytes) : Prop where
  fieldNames : schema.fieldNames = columns.map quotedName
  clean : ∀ column ∈ columns, backquote ∉ column

/-- From column `i` on, the key columns, or the others, with their values. -/
def columnsWhere (key : Bool) (i : Nat) (columns : List Bytes) (rec : Record) :
    List (Bytes × Bytes) :=
  (((columns.zip rec).zipIdx i).filter fun entry => maskBit schema.uniqueMask entry.2 = key).map
    Prod.fst

variable {schema} {columns : List Bytes} {rec : Record}

theorem columnsWhere_cons (key : Bool) (i : Nat) (column value : Bytes) (columns : List Bytes)
    (rec : Record) :
    schema.columnsWhere key i (column :: columns) (value :: rec) =
      (if maskBit schema.uniqueMask i = key then [(column, value)] else []) ++
        schema.columnsWhere key (i + 1) columns rec := by
  unfold columnsWhere
  rw [List.zip_cons_cons, List.zipIdx_cons, List.filter_cons]
  by_cases isKey : maskBit schema.uniqueMask i = key <;> simp [isKey]

private theorem columnsWhere_name (key : Bool) (quotes : schema.Quotes columns) (rec : Record) :
    ∀ pair ∈ schema.columnsWhere key 0 columns rec, backquote ∉ pair.1 := by
  intro pair member
  rcases List.mem_map.mp member with ⟨entry, inside, rfl⟩
  have zipped := List.fst_mem_of_mem_zipIdx (List.mem_filter.mp inside).1
  exact quotes.clean _ (List.of_mem_zip zipped).1

theorem columnsWhere_value (key : Bool) (columns : List Bytes) (rec : Record) :
    ∀ value ∈ (schema.columnsWhere key 0 columns rec).map Prod.snd, value ∈ rec := by
  intro value member
  rcases List.mem_map.mp member with ⟨pair, inside, rfl⟩
  rcases List.mem_map.mp inside with ⟨entry, present, rfl⟩
  have zipped := List.fst_mem_of_mem_zipIdx (List.mem_filter.mp present).1
  exact (List.of_mem_zip zipped).2

theorem columnsWhere_some {key : Bool} {i : Nat} (inside : i < columns.length)
    (isKey : maskBit schema.uniqueMask i = key) (width : rec.length = columns.length) :
    schema.columnsWhere key 0 columns rec ≠ [] := by
  have zipped : i < (columns.zip rec).length := by
    rw [List.length_zip, width, Nat.min_self]
    exact inside
  have entry : ((columns.zip rec)[i], i) ∈ (columns.zip rec).zipIdx :=
    List.mem_zipIdx_iff_getElem?.mpr (List.getElem?_eq_getElem zipped)
  have chosen : (columns.zip rec)[i] ∈ schema.columnsWhere key 0 columns rec :=
    List.mem_map.mpr ⟨_, List.mem_filter.mpr ⟨entry, decide_eq_true isKey⟩, rfl⟩
  exact List.ne_nil_of_mem chosen

/-! ### The loops -/

private theorem whereLoop_eq (i : Nat) (columns : List Bytes) (rec : Record) :
    schema.whereLoop i (columns.map quotedName) rec =
      (schema.columnsWhere true i columns rec).flatMap fun pair =>
        quotedName pair.1 ++ [equals, quote] ++ pair.2 ++ [quote] ++ ascii " and" := by
  induction columns generalizing i rec with
  | nil => rfl
  | cons column columns ih =>
      cases rec with
      | nil => rfl
      | cons value rec =>
          rw [columnsWhere_cons, List.flatMap_append, ← ih]
          change (if maskBit schema.uniqueMask i = true then _ else _) ++ _ = _
          congr 1
          cases maskBit schema.uniqueMask i with
          | false => rfl
          | true => exact (List.append_nil _).symm

private theorem setLoop_eq (i : Nat) (columns : List Bytes) (rec : Record) :
    schema.setLoop i (columns.map quotedName) rec =
      (schema.columnsWhere false i columns rec).flatMap fun pair =>
        quotedName pair.1 ++ [equals, quote] ++ pair.2 ++ [quote] ++ [comma] := by
  induction columns generalizing i rec with
  | nil => rfl
  | cons column columns ih =>
      cases rec with
      | nil => rfl
      | cons value rec =>
          rw [columnsWhere_cons, List.flatMap_append, ← ih]
          change (if maskBit schema.uniqueMask i = true then _ else _) ++ _ = _
          congr 1
          cases maskBit schema.uniqueMask i with
          | true => rfl
          | false =>
              change quotedName column ++ [equals, quote] ++ value ++ [quote, comma] =
                quotedName column ++ [equals, quote] ++ value ++ [quote] ++ [comma] ++ []
              simp

private theorem valueLoop_eq (rec : Record) : valueLoop rec = render (valuePieces rec) := by
  induction rec with
  | nil => rfl
  | cons value rec ih =>
      cases rec with
      | nil => simp [valueLoop, valuePieces, render, Piece.text]
      | cons next rec =>
          unfold valueLoop
          rw [ih]
          simp [valuePieces, render, Piece.text]

private theorem tupleLoop_eq {records : List Record} (some : records ≠ []) :
    tupleLoop records = render (rowPieces records) ++ [comma] := by
  induction records with
  | nil => exact absurd rfl some
  | cons rec records ih =>
      have closes : ascii ")," = [closeParen, comma] := rfl
      unfold tupleLoop
      rw [valueLoop_eq, closes]
      cases records with
      | nil => simp [tupleLoop, rowPieces, render, Piece.text]
      | cons next records =>
          rw [ih (List.cons_ne_nil _ _)]
          simp [rowPieces, render, Piece.text]

/-! ### The texts -/

/-- The word in front of the key columns; without any the chopping leaves
only its first two letters. -/
def whereWord (keys : List (Bytes × Bytes)) : Bytes :=
  if keys = [] then ascii "wh" else ascii "where"

def insertPieces (schema : Schema) (records : List Record) : List Piece :=
  .fixed (ascii "insert into `" ++ (schema.table ++ ascii "` values")) :: rowPieces records

def wherePieces (keys : List (Bytes × Bytes)) : List Piece :=
  .fixed (whereWord keys) :: equalityPieces [space] (ascii " and") keys

def updatePieces (schema : Schema) (columns : List Bytes) (rec : Record) : List Piece :=
  .fixed (ascii "update `" ++ (schema.table ++ ascii "` set")) ::
    (equalityPieces [space] [comma] (schema.columnsWhere false 0 columns rec) ++
      (.fixed [space] :: (wherePieces (schema.columnsWhere true 0 columns rec) ++
        [.fixed (ascii " and `updated_at`<"), .value (rec.getLast?.getD [])])))

def notExistsPieces (schema : Schema) (columns : List Bytes) (rec : Record) : List Piece :=
  .fixed (ascii "insert into `" ++ (schema.table ++ ascii "` select ")) ::
    (valuePieces rec ++
      (.fixed (ascii " where not exists(select 1 from `" ++ (schema.table ++ ascii "` ")) ::
        (wherePieces (schema.columnsWhere true 0 columns rec) ++ [.fixed [closeParen]])))

theorem makeInsertStatement_eq {records : List Record} (some : records ≠ []) :
    schema.makeInsertStatement records = render (schema.insertPieces records) := by
  unfold makeInsertStatement
  rw [tupleLoop_eq some, ← List.append_assoc, List.dropLast_concat]
  change _ = ascii "insert into `" ++ (schema.table ++ ascii "` values") ++ render (rowPieces records)
  simp only [List.append_assoc]

theorem dropLast_append_and (text : Bytes) :
    (text ++ ascii " and").dropLast.dropLast.dropLast.dropLast = text := by
  change (text ++ [32, 97, 110, 100]).dropLast.dropLast.dropLast.dropLast = text
  rw [List.dropLast_append_of_ne_nil (by simp), List.dropLast_append_of_ne_nil (by simp),
    List.dropLast_append_of_ne_nil (by simp), List.dropLast_append_of_ne_nil (by simp)]
  exact List.append_nil text

private theorem makeWhereClause_eq (quotes : schema.Quotes columns) (rec : Record) :
    schema.makeWhereClause rec = render (wherePieces (schema.columnsWhere true 0 columns rec)) := by
  unfold makeWhereClause wherePieces whereWord
  rw [quotes.fieldNames, whereLoop_eq]
  by_cases none : schema.columnsWhere true 0 columns rec = []
  · rw [none]
    rfl
  · have split : ascii "where " = ascii "where" ++ [space] := rfl
    rw [if_neg none, split, List.append_assoc, ← render_equalityPieces [space] _ none,
      ← List.append_assoc, dropLast_append_and]
    rfl

theorem makeUpdateStatement_eq (quotes : schema.Quotes columns) (rec : Record) :
    schema.makeUpdateStatement rec = render (schema.updatePieces columns rec) := by
  have chopped : (ascii "update `" ++ schema.table ++ ascii "` set " ++
      schema.setLoop 0 schema.fieldNames rec).dropLast =
        ascii "update `" ++ (schema.table ++ ascii "` set") ++
          render (equalityPieces [space] [comma] (schema.columnsWhere false 0 columns rec)) := by
    have split : ascii "` set " = ascii "` set" ++ [space] := rfl
    rw [quotes.fieldNames, setLoop_eq, split]
    by_cases none : schema.columnsWhere false 0 columns rec = []
    · rw [none, List.flatMap_nil, List.append_nil, ← List.append_assoc, List.dropLast_concat]
      simp [equalityPieces, render]
    · rw [← List.append_assoc, List.append_assoc _ [space], ← render_equalityPieces [space] _ none,
        ← List.append_assoc, List.dropLast_concat]
      simp only [List.append_assoc]
  have opens : ascii " and `updated_at`<'" = ascii " and `updated_at`<" ++ [quote] := rfl
  have closes : ascii "'" = [quote] := rfl
  unfold makeUpdateStatement
  rw [chopped, makeWhereClause_eq quotes, opens, closes]
  simp only [updatePieces, render_cons, render_append, render_nil, Piece.text, List.append_assoc,
    List.cons_append, List.nil_append, List.append_nil]

theorem makeInsertWhereNotExistsStatement_eq (quotes : schema.Quotes columns) (rec : Record) :
    schema.makeInsertWhereNotExistsStatement rec = render (schema.notExistsPieces columns rec) := by
  unfold makeInsertWhereNotExistsStatement
  rw [makeWhereClause_eq quotes, valueLoop_eq]
  simp only [notExistsPieces, render_cons, render_append, render_nil, Piece.text,
    List.append_assoc, List.append_nil]

theorem values_insertPieces (schema : Schema) (records : List Record) :
    values (schema.insertPieces records) = records.flatten :=
  values_rowPieces records

theorem values_updatePieces (schema : Schema) (columns : List Bytes) (rec : Record) :
    values (schema.updatePieces columns rec) =
      (schema.columnsWhere false 0 columns rec).map Prod.snd ++
        ((schema.columnsWhere true 0 columns rec).map Prod.snd ++ [rec.getLast?.getD []]) := by
  change values (_ ++ .fixed [space] :: .fixed _ :: (_ ++ _)) = _
  rw [values_append, values_equalityPieces]
  change _ ++ values (_ ++ _) = _
  rw [values_append, values_equalityPieces]
  rfl

theorem values_notExistsPieces (schema : Schema) (columns : List Bytes) (rec : Record) :
    values (schema.notExistsPieces columns rec) =
      rec ++ (schema.columnsWhere true 0 columns rec).map Prod.snd := by
  change values (_ ++ .fixed _ :: .fixed _ :: (_ ++ _)) = _
  rw [values_append, values_valuePieces]
  change _ ++ values (_ ++ _) = _
  rw [values_append, values_equalityPieces]
  exact congrArg _ (List.append_nil _)

/-! ### The tokens -/

private theorem comma_separates : Sql.Separates [comma] (.symbol comma) :=
  ⟨rfl, ⟨_, _, rfl, by decide⟩, rfl⟩

private theorem and_separates : Sql.Separates (ascii " and") (keyword "and") :=
  ⟨rfl, ⟨_, _, rfl, by decide⟩, rfl⟩

private theorem run_table {state next : LexState} {front text back : Bytes}
    {tokens more : List Token}
    (clean : backquote ∉ schema.table) (textIs : text = backquote :: back)
    (opens : run state front = some (tokens, .quoted .ident []))
    (closes : run (.quotedEnd .ident schema.table) back = some (more, next)) :
    run state (front ++ (schema.table ++ text)) = some (tokens ++ more, next) := by
  have ran := run_append opens (run_append (run_ident clean) closes)
  rw [textIs]
  simpa using ran

theorem lexes_insertPieces (clean : backquote ∉ schema.table) {records : List Record}
    (some : records ≠ []) (filled : ∀ rec ∈ records, rec ≠ []) :
    Lexes .between (schema.insertPieces records) (Query.insert schema.table records).tokens := by
  have opens : run .between (ascii "insert into `") =
      Option.some ([keyword "insert", keyword "into"], .quoted .ident []) := rfl
  have behind : ascii "` values" = backquote :: ascii " values" := rfl
  have closes : run (.quotedEnd .ident schema.table) (ascii " values") =
      Option.some ([.ident schema.table], .word (ascii "values")) := rfl
  have ended : Lexes .between [] [] := .done rfl rfl
  have rests : (LexState.word (ascii "values")).Resting := trivial
  have rows := Lexes.rows_append rests some filled ended
  rw [List.append_nil, List.append_nil] at rows
  have lexed := Lexes.fixed (run_table clean behind opens closes) rfl rows
  exact lexed

def whereTokens (keys : List (Bytes × Bytes)) : List Token :=
  [.word (whereWord keys)] ++ printSep printAssignment (keyword "and") keys

private theorem lexes_wherePieces {keys : List (Bytes × Bytes)}
    (clean : ∀ pair ∈ keys, backquote ∉ pair.1)
    {tail : List Piece} {more : List Token} (apart : Apart tail)
    (lexes : ∀ state : LexState, state.Resting → Lexes state tail (state.closed ++ more)) :
    Lexes .between (wherePieces keys ++ tail) (whereTokens keys ++ more) := by
  have ran : run .between (whereWord keys) = some ([], .word (whereWord keys)) := by
    unfold whereWord
    split <;> rfl
  have rests : (LexState.word (whereWord keys)).Resting := trivial
  have equalities := Lexes.equalities_resting rests and_separates clean apart lexes
  have lexed := Lexes.fixed ran rfl equalities
  rw [List.nil_append, ← List.append_assoc] at lexed
  exact lexed

def updateTokens (schema : Schema) (columns : List Bytes) (rec : Record) : List Token :=
  [keyword "update", .ident schema.table, keyword "set"] ++
    (printSep printAssignment (.symbol comma) (schema.columnsWhere false 0 columns rec) ++
      (whereTokens (schema.columnsWhere true 0 columns rec) ++
        [keyword "and", .ident (ascii "updated_at"), .symbol less,
          .literal (rec.getLast?.getD [])]))

theorem lexes_updatePieces (quotes : schema.Quotes columns) (clean : backquote ∉ schema.table)
    (rec : Record) :
    Lexes .between (schema.updatePieces columns rec) (schema.updateTokens columns rec) := by
  have opens : run .between (ascii "update `") =
      Option.some ([keyword "update"], .quoted .ident []) := rfl
  have behind : ascii "` set" = backquote :: ascii " set" := rfl
  have closes : run (.quotedEnd .ident schema.table) (ascii " set") =
      Option.some ([.ident schema.table], .word (ascii "set")) := rfl
  have ended : Lexes .between [] [] := .done rfl rfl
  have last (state : LexState) (rests : state.Resting) :
      Lexes state [.fixed (ascii " and `updated_at`<"), .value (rec.getLast?.getD [])]
        (state.closed ++ [keyword "and", .ident (ascii "updated_at"), .symbol less,
          .literal (rec.getLast?.getD [])]) := by
    have ran : run .between (ascii " and `updated_at`<") =
        some ([keyword "and", .ident (ascii "updated_at"), .symbol less], .between) := rfl
    exact Lexes.fixed_resting rests rfl ran rfl (.value Apart.nil ended)
  have keys (state : LexState) (rests : state.Resting) :
      Lexes state _ (state.closed ++ ([] ++ _)) :=
    Lexes.fixed_resting rests (show isWord space = false by decide)
      (show run .between [space] = some ([], .between) from rfl) rfl
      (lexes_wherePieces (columnsWhere_name true quotes rec) (Apart.fixed (by decide) _ _) last)
  have rests : (LexState.word (ascii "set")).Resting := trivial
  have sets := Lexes.equalities_resting rests comma_separates (columnsWhere_name false quotes rec)
    (Apart.fixed (by decide) _ _) keys
  have lexed := Lexes.fixed (run_table clean behind opens closes) rfl sets
  exact lexed

def notExistsTokens (schema : Schema) (columns : List Bytes) (rec : Record) : List Token :=
  [keyword "insert", keyword "into", .ident schema.table, keyword "select"] ++
    (printValues rec ++ (notExists ++ ([.ident schema.table] ++
      (whereTokens (schema.columnsWhere true 0 columns rec) ++ [.symbol closeParen]))))

theorem lexes_notExistsPieces (quotes : schema.Quotes columns) (clean : backquote ∉ schema.table)
    (filled : rec ≠ []) :
    Lexes .between (schema.notExistsPieces columns rec) (schema.notExistsTokens columns rec) := by
  have opens : run .between (ascii "insert into `") =
      some ([keyword "insert", keyword "into"], .quoted .ident []) := rfl
  have behind : ascii "` select " = backquote :: ascii " select " := rfl
  have closes : run (.quotedEnd .ident schema.table) (ascii " select ") =
      some ([.ident schema.table, keyword "select"], .between) := rfl
  have opensSource : run .between (ascii " where not exists(select 1 from `") =
      some (notExists, .quoted .ident []) := rfl
  have behindSource : ascii "` " = backquote :: [space] := rfl
  have closesSource : run (.quotedEnd .ident schema.table) [space] =
      some ([.ident schema.table], .between) := rfl
  have ended : Lexes .between [] [] := .done rfl rfl
  have last (state : LexState) (rests : state.Resting) :
      Lexes state [.fixed [closeParen]] (state.closed ++ [.symbol closeParen]) := by
    have ran : run .between [closeParen] = some ([.symbol closeParen], .between) := rfl
    exact Lexes.fixed_resting rests rfl ran rfl ended
  have keys := lexes_wherePieces (columnsWhere_name true quotes rec)
    (Apart.fixed (by decide) _ _) last
  have source := Lexes.fixed (run_table clean behindSource opensSource closesSource) rfl keys
  have apart : Apart (.fixed (ascii " where not exists(select 1 from `" ++
      (schema.table ++ ascii "` ")) :: (wherePieces (schema.columnsWhere true 0 columns rec) ++
        [.fixed [closeParen]])) :=
    Apart.fixed (show ¬ Special .literal space by decide) _ _
  have row := Lexes.values_append filled apart source
  have lexed := Lexes.fixed (run_table clean behind opens closes) rfl row
  exact lexed

end Schema

end ChangeSql
