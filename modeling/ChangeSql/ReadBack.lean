/-
What a reader of the statement texts gets back.

The builders escape nothing. A value comes back as it was as long as it has no
quote in it and no escape sequence that stands for something else, a table
name as long as it has no backquote in it; the column names bring their
backquotes with them.
-/

import ChangeSql.StatementTexts
import ChangeSql.CsvFile

namespace ChangeSql

open Sql
open TokenParser (printSep printSep_append printSep_map)

namespace Schema

variable {schema : Schema} {columns : List Bytes}

/-! ### Values -/

/-- The records are read back from the statement that inserts them, and the
values of each from the two statements that are built from it alone. -/
structure ValuesSurvive (schema : Schema) (columns : List Bytes) (records : List Record) :
    Prop where
  insert : Sql.read (schema.makeInsertStatement records) = some (.insert schema.table records)
  update : ∀ rec ∈ records, rec.length ≤ columns.length →
    (lex (schema.makeUpdateStatement rec)).map literalsOf =
      some ((schema.columnsWhere false 0 columns rec).map Prod.snd ++
        ((schema.columnsWhere true 0 columns rec).map Prod.snd ++ [rec.getLast?.getD []]))
  insertNotExists : ∀ rec ∈ records, rec.length ≤ columns.length →
    (lex (schema.makeInsertWhereNotExistsStatement rec)).map literalsOf =
      some (rec ++ (schema.columnsWhere true 0 columns rec).map Prod.snd)

theorem read_makeInsertStatement_iff (clean : backquote ∉ schema.table) {records : List Record}
    (some : records ≠ []) (filled : ∀ rec ∈ records, rec ≠ []) :
    Sql.read (schema.makeInsertStatement records) = Option.some (.insert schema.table records) ↔
      ∀ rec ∈ records, ∀ value ∈ rec, Clean .literal value := by
  have lexes := lexes_insertPieces clean some filled
  rw [read_eq_some_iff, makeInsertStatement_eq some]
  constructor
  · intro ⟨lexed, _⟩ rec member value inside
    have all := lexes.tokens_iff.mp lexed
    rw [values_insertPieces] at all
    exact all value (List.mem_flatten.mpr ⟨rec, member, inside⟩)
  · intro all
    have lexed : lex (render (schema.insertPieces records)) =
        Option.some (Query.insert schema.table records).tokens := by
      apply lexes.tokens_iff.mpr
      intro value member
      rw [values_insertPieces] at member
      rcases List.mem_flatten.mp member with ⟨rec, recMember, inside⟩
      exact all rec recMember value inside
    exact ⟨lexed, some, filled⟩

private theorem getLast_mem {rec : Record} (filled : rec ≠ []) : rec.getLast?.getD [] ∈ rec := by
  rw [List.getLast?_eq_some_getLast filled, Option.getD_some]
  exact List.getLast_mem filled

theorem values_updatePieces_mem {rec : Record} (filled : rec ≠ []) :
    ∀ value ∈ values (schema.updatePieces columns rec), value ∈ rec := by
  intro value member
  rw [values_updatePieces] at member
  rcases List.mem_append.mp member with inSet | member
  · exact columnsWhere_value false columns rec value inSet
  · rcases List.mem_append.mp member with inKey | isLast
    · exact columnsWhere_value true columns rec value inKey
    · rw [List.mem_singleton.mp isLast]
      exact getLast_mem filled

theorem values_notExistsPieces_mem {rec : Record} :
    ∀ value ∈ values (schema.notExistsPieces columns rec), value ∈ rec := by
  intro value member
  rw [values_notExistsPieces] at member
  rcases List.mem_append.mp member with inRow | inKey
  · exact inRow
  · exact columnsWhere_value true columns rec value inKey

/-- What is written between quotes comes back exactly if it needs no escape. -/
theorem valuesSurvive_iff (quotes : schema.Quotes columns) (clean : backquote ∉ schema.table)
    {records : List Record} (some : records ≠ []) (filled : ∀ rec ∈ records, rec ≠ []) :
    schema.ValuesSurvive columns records ↔
      ∀ rec ∈ records, ∀ value ∈ rec, Clean .literal value := by
  have inserted := read_makeInsertStatement_iff clean some filled
  constructor
  · intro survive
    exact inserted.mp survive.insert
  · intro all
    apply ValuesSurvive.mk (inserted.mpr all)
    · intro rec member _
      have lexes := lexes_updatePieces quotes clean rec
      rw [makeUpdateStatement_eq quotes, ← values_updatePieces]
      apply lexes.literals_iff.mpr
      intro value inside
      exact all rec member value (values_updatePieces_mem (filled rec member) value inside)
    · intro rec member _
      have lexes := lexes_notExistsPieces quotes clean (filled rec member)
      rw [makeInsertWhereNotExistsStatement_eq quotes, ← values_notExistsPieces]
      apply lexes.literals_iff.mpr
      intro value inside
      exact all rec member value (values_notExistsPieces_mem value inside)

def sampleColumns : List Bytes :=
  [ascii "k", ascii "v", ascii "updated_at"]

theorem quotes_sampleColumns : sampleSchema.Quotes sampleColumns :=
  ⟨rfl, by decide⟩

theorem valuesSurvive_iff_sampleSchema :
    sampleSchema.ValuesSurvive sampleColumns [[ascii "a", ascii "0\\%", ascii "1"]] ↔
      ∀ rec ∈ [[ascii "a", ascii "0\\%", ascii "1"]], ∀ value ∈ rec, Clean .literal value :=
  valuesSurvive_iff quotes_sampleColumns (by decide) (List.cons_ne_nil _ _) (by decide)

/-- The quote in the first value ends its literal. -/
theorem not_valuesSurvive_quote :
    ¬ sampleSchema.ValuesSurvive sampleColumns [[ascii "a'", ascii "0", ascii "1"]] := by
  intro survive
  have readBack : Sql.read (sampleSchema.makeInsertStatement
      [[ascii "a'", ascii "0", ascii "1"]]) = none := by decide
  have inserted := survive.insert
  rw [readBack] at inserted
  cases inserted

/-! ### Statements -/

structure PlainRow (columns : List Bytes) (rec : Record) : Prop where
  width : rec.length = columns.length
  plain : ∀ value ∈ rec, quote ∉ value ∧ backslash ∉ value

theorem PlainRow.clean {rec : Record} (row : PlainRow columns rec) :
    ∀ value ∈ rec, Clean .literal value := by
  intro value member
  apply clean_of_no_special
  intro byte inside special
  rcases special with rfl | ⟨rfl, _⟩
  · exact (row.plain value member).1 inside
  · exact (row.plain value member).2 inside

def keyCondition (schema : Schema) (columns : List Bytes) (rec : Record) : List Comparison :=
  (schema.columnsWhere true 0 columns rec).map fun pair => (pair.1, .equal, pair.2)

structure StatementsMean (schema : Schema) (columns : List Bytes) : Prop where
  update : ∀ rec, PlainRow columns rec →
    Sql.read (schema.makeUpdateStatement rec) =
      some (.update schema.table (schema.columnsWhere false 0 columns rec)
        (schema.keyCondition columns rec ++
          [(ascii "updated_at", .less, rec.getLast?.getD [])]))
  insertNotExists : ∀ rec, PlainRow columns rec →
    Sql.read (schema.makeInsertWhereNotExistsStatement rec) =
      some (.insertNotExists schema.table rec schema.table (schema.keyCondition columns rec))
  insert : ∀ records ≠ [], (∀ rec ∈ records, PlainRow columns rec) →
    Sql.read (schema.makeInsertStatement records) = some (.insert schema.table records)

private theorem printCondition_keyCondition (rec : Record) :
    printCondition (schema.keyCondition columns rec) =
      printSep printAssignment (keyword "and") (schema.columnsWhere true 0 columns rec) :=
  printSep_map printComparison _ _ _

private theorem whereTokens_eq {keys : List (Bytes × Bytes)} (some : keys ≠ []) :
    whereTokens keys = [keyword "where"] ++ printSep printAssignment (keyword "and") keys := by
  unfold whereTokens whereWord
  rw [if_neg some]

theorem updateTokens_eq {rec : Record} (keyed : schema.columnsWhere true 0 columns rec ≠ []) :
    schema.updateTokens columns rec =
      (Query.update schema.table (schema.columnsWhere false 0 columns rec)
        (schema.keyCondition columns rec ++
          [(ascii "updated_at", .less, rec.getLast?.getD [])])).tokens := by
  have someKeys : schema.keyCondition columns rec ≠ [] :=
    fun none => keyed (List.map_eq_nil_iff.mp none)
  have condition : printCondition (schema.keyCondition columns rec ++
      [(ascii "updated_at", .less, rec.getLast?.getD [])]) =
        printSep printAssignment (keyword "and") (schema.columnsWhere true 0 columns rec) ++
          [keyword "and", .ident (ascii "updated_at"), .symbol less,
            .literal (rec.getLast?.getD [])] := by
    rw [← printCondition_keyCondition]
    exact printSep_append printComparison (keyword "and") someKeys (List.cons_ne_nil _ [])
  unfold updateTokens
  change _ = [keyword "update"] ++ ([.ident schema.table] ++ ([keyword "set"] ++
    (printSep printAssignment (.symbol comma) _ ++ ([keyword "where"] ++ printCondition _))))
  rw [condition, whereTokens_eq keyed]
  simp

theorem notExistsTokens_eq {rec : Record} (keyed : schema.columnsWhere true 0 columns rec ≠ []) :
    schema.notExistsTokens columns rec =
      (Query.insertNotExists schema.table rec schema.table
        (schema.keyCondition columns rec)).tokens := by
  unfold notExistsTokens
  change _ = [keyword "insert", keyword "into"] ++ ([.ident schema.table] ++
    ([keyword "select"] ++ (printValues rec ++ (notExists ++ ([.ident schema.table] ++
      ([keyword "where"] ++ (printCondition _ ++ [.symbol closeParen])))))))
  rw [printCondition_keyCondition, whereTokens_eq keyed]
  simp

private theorem clean_of_read_insert {records : List Record}
    (readBack : Sql.read (schema.makeInsertStatement records) =
      some (.insert schema.table records))
    (some : records ≠ []) : backquote ∉ schema.table := by
  have lexed := (read_eq_some_iff.mp readBack).1
  have opens : run .between (ascii "insert into `") =
      Option.some ([keyword "insert", keyword "into"], .quoted .ident []) := rfl
  have behind : ascii "` values" = Quoting.ident.mark :: ascii " values" := rfl
  rw [makeInsertStatement_eq some] at lexed
  unfold insertPieces lex at lexed
  rw [render_cons, Piece.text, List.append_assoc, List.append_assoc, behind, List.cons_append,
    lexFrom_append opens, Option.map_eq_some_iff] at lexed
  rcases lexed with ⟨others, lexed, tokensAre⟩
  have othersAre : others = .quoted .ident schema.table :: _ :=
    (List.cons.inj (List.cons.inj tokensAre).2).2
  rw [othersAre] at lexed
  have ends : ∀ byte, (ascii " values" ++ render (rowPieces records)).head? = Option.some byte →
      ¬ Special .ident byte := by
    intro byte first
    cases first
    decide
  exact clean_ident_iff.mp ((lexFrom_quoted_iff ends [] _ _).mp lexed).1

/-- With some columns in the key and some not, the texts are the statements
that they are meant as, exactly if the table name has no backquote in it. -/
theorem statementsMean_iff (quotes : schema.Quotes columns)
    (someKey : ∃ i < columns.length, maskBit schema.uniqueMask i = true)
    (someOther : ∃ i < columns.length, maskBit schema.uniqueMask i = false) :
    schema.StatementsMean columns ↔ backquote ∉ schema.table := by
  rcases someKey with ⟨i, inside, isKey⟩
  rcases someOther with ⟨k, otherInside, isOther⟩
  have filled {rec : Record} (row : PlainRow columns rec) : rec ≠ [] := by
    apply List.ne_nil_of_length_pos
    rw [row.width]
    exact Nat.zero_lt_of_lt inside
  constructor
  · intro mean
    have blank : PlainRow columns (List.replicate columns.length []) := by
      apply PlainRow.mk List.length_replicate
      intro value member
      rw [List.eq_of_mem_replicate member]
      exact ⟨List.not_mem_nil, List.not_mem_nil⟩
    have readBack := mean.insert [_] (List.cons_ne_nil _ _) (List.forall_mem_singleton.mpr blank)
    exact clean_of_read_insert readBack (List.cons_ne_nil _ _)
  · intro clean
    apply StatementsMean.mk
    · intro rec row
      have keyed := columnsWhere_some inside isKey row.width
      have others := columnsWhere_some otherInside isOther row.width
      have lexed := (lexes_updatePieces quotes clean rec).lexed fun value member =>
        row.clean value (values_updatePieces_mem (filled row) value member)
      rw [updateTokens_eq keyed, ← makeUpdateStatement_eq quotes] at lexed
      exact read_eq_some_iff.mpr ⟨lexed, others, by simp⟩
    · intro rec row
      have keyed := columnsWhere_some inside isKey row.width
      have lexed := (lexes_notExistsPieces quotes clean (filled row)).lexed fun value member =>
        row.clean value (values_notExistsPieces_mem value member)
      rw [notExistsTokens_eq keyed, ← makeInsertWhereNotExistsStatement_eq quotes] at lexed
      have valid : schema.keyCondition columns rec ≠ [] :=
        fun none => keyed (List.map_eq_nil_iff.mp none)
      exact read_eq_some_iff.mpr ⟨lexed, filled row, valid⟩
    · intro records some rows
      apply (read_makeInsertStatement_iff clean some fun rec member => filled (rows rec member)).mpr
      intro rec member
      exact (rows rec member).clean

theorem statementsMean_iff_sampleSchema :
    sampleSchema.StatementsMean sampleColumns ↔ backquote ∉ sampleSchema.table :=
  statementsMean_iff quotes_sampleColumns ⟨0, by decide, by decide⟩ ⟨1, by decide, by decide⟩

def backquotedSchema : Schema :=
  { sampleSchema with table := ascii "a`b" }

theorem not_statementsMean_backquotedSchema : ¬ backquotedSchema.StatementsMean sampleColumns := by
  intro mean
  have row : PlainRow sampleColumns [ascii "a", ascii "0", ascii "1"] := ⟨rfl, by decide⟩
  have readBack : Sql.read (backquotedSchema.makeInsertStatement
      [[ascii "a", ascii "0", ascii "1"]]) = none := by decide
  have inserted := mean.insert [_] (List.cons_ne_nil _ _) (List.forall_mem_singleton.mpr row)
  rw [readBack] at inserted
  cases inserted

end Schema

end ChangeSql
