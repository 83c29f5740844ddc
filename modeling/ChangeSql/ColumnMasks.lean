/-
How the masks of `parse_ddl` fit the loops that test them.

Five loops go over the columns of a record and test one bit for each. What a
loop makes of a column is put in front of what it makes of the others, so a
loop depends on a value exactly if the piece for its column does.
-/

import ChangeSql.DdlGrammar
import ChangeSql.StatementTexts
import ChangeSql.CsvFile

namespace ChangeSql

def DDLInfo.schema (info : DDLInfo) (table : Bytes) : Schema :=
  { table := table
    fieldNames := info.fieldNames
    uniqueMask := info.uniqueMask
    floatMask := info.floatMask }

/-! ### Loops over the columns -/

/-- A loop over the columns from `i` on, with a piece for each of them. -/
def perColumn {α : Type} (piece : Nat → Bytes → Bytes → List α) (i : Nat) :
    List Bytes → Record → List α
  | name :: names, value :: rec => piece i name value ++ perColumn piece (i + 1) names rec
  | _, _ => []

/-- Only the piece of the column itself tells the old value from the new. -/
theorem perColumn_set {α : Type} (piece : Nat → Bytes → Bytes → List α) {i k : Nat}
    {names : List Bytes} {rec : Record} (width : rec.length = names.length)
    (inside : i < names.length) :
    ∃ front old back, rec[i]? = some old ∧ ∀ value,
      perColumn piece k names (rec.set i value) = front ++ (piece (k + i) names[i] value ++ back) := by
  induction names generalizing i k rec with
  | nil => cases inside
  | cons name names ih =>
      cases rec with
      | nil => cases width
      | cons first rec =>
          cases i with
          | zero => exact ⟨[], first, perColumn piece (k + 1) names rec, rfl, fun _ => rfl⟩
          | succ i =>
              rcases ih (k := k + 1) (Nat.succ.inj width) (Nat.lt_of_succ_lt_succ inside) with
                ⟨front, old, back, atOld, changed⟩
              refine ⟨piece k name first ++ front, old, back, atOld, ?_⟩
              intro value
              have index : k + (i + 1) = k + 1 + i := by omega
              rw [List.append_assoc, index]
              exact congrArg (piece k name first ++ ·) (changed value)

private theorem set_of_getElem? {rec : Record} {i : Nat} {value : Bytes}
    (there : rec[i]? = some value) :
    rec.set i value = rec := by
  rcases List.getElem?_eq_some_iff.mp there with ⟨within, rfl⟩
  exact List.set_getElem_self within

/-- The answer depends on the value of column `i`. -/
def ReadsColumn {α : Type} (n : Nat) (answer : Record → α) (i : Nat) : Prop :=
  ∃ rec value, rec.length = n ∧ answer (rec.set i value) ≠ answer rec

private theorem readsColumn_perColumn {α : Type} {piece : Nat → Bytes → Bytes → List α}
    {names : List Bytes} {i : Nat} (inside : i < names.length) :
    ReadsColumn names.length (perColumn piece 0 names) i ↔
      ∃ old value, piece i names[i] value ≠ piece i names[i] old := by
  constructor
  · intro ⟨rec, value, width, different⟩
    rcases perColumn_set piece (k := 0) width inside with ⟨front, old, back, atOld, changed⟩
    refine ⟨old, value, fun same => different ?_⟩
    rw [← set_of_getElem? atOld, List.set_set, changed, changed, Nat.zero_add, same]
  · intro ⟨old, value, different⟩
    have width : (List.replicate names.length old).length = names.length := List.length_replicate
    rcases perColumn_set piece (k := 0) width inside with ⟨front, found, back, atOld, changed⟩
    rw [List.getElem?_replicate, if_pos inside] at atOld
    cases atOld
    have unchanged : (List.replicate names.length old).set i old = List.replicate names.length old :=
      List.set_replicate_self
    refine ⟨List.replicate names.length old, value, width, fun same => different ?_⟩
    rw [← unchanged, List.set_set, changed, changed, Nat.zero_add, List.append_cancel_left_eq,
      List.append_cancel_right_eq] at same
    exact same

private theorem keyFields_eq (mask : UInt16) (i : Nat) {names : List Bytes} {rec : Record}
    (width : rec.length = names.length) :
    QueryBuilder.keyFields mask i rec =
      perColumn (fun i _ value => if maskBit mask i then [value] else []) i names rec := by
  induction names generalizing i rec with
  | nil =>
      rw [List.length_eq_zero_iff.mp width]
      rfl
  | cons name names ih =>
      cases rec with
      | nil => cases width
      | cons value rec =>
          have others := ih (i + 1) (Nat.succ.inj width)
          unfold QueryBuilder.keyFields perColumn
          rw [others]
          cases maskBit mask i <;> rfl

private theorem Schema.whereLoop_eq_perColumn (schema : Schema) (i : Nat) (names : List Bytes)
    (rec : Record) :
    schema.whereLoop i names rec =
      perColumn (fun i name value =>
        if maskBit schema.uniqueMask i then
          name ++ ascii "='" ++ value ++ [quote] ++ ascii " and"
        else []) i names rec := by
  induction names generalizing i rec with
  | nil => rfl
  | cons name names ih =>
      cases rec with
      | nil => rfl
      | cons value rec => exact congrArg _ (ih (i + 1) rec)

private theorem Schema.setLoop_eq_perColumn (schema : Schema) (i : Nat) (names : List Bytes)
    (rec : Record) :
    schema.setLoop i names rec =
      perColumn (fun i name value =>
        if maskBit schema.uniqueMask i then []
        else name ++ ascii "='" ++ value ++ ascii "',") i names rec := by
  induction names generalizing i rec with
  | nil => rfl
  | cons name names ih =>
      cases rec with
      | nil => rfl
      | cons value rec => exact congrArg _ (ih (i + 1) rec)

private theorem perColumn_ends {α : Type} {piece : Nat → Bytes → Bytes → List α} {tail : List α}
    (ends : ∀ i name value,
      piece i name value = [] ∨ ∃ front, piece i name value = front ++ tail)
    (k : Nat) (names : List Bytes) (rec : Record) :
    perColumn piece k names rec = [] ∨ ∃ front, perColumn piece k names rec = front ++ tail := by
  induction names generalizing k rec with
  | nil => exact Or.inl rfl
  | cons name names ih =>
      cases rec with
      | nil => exact Or.inl rfl
      | cons value rec =>
          unfold perColumn
          rcases ih (k + 1) rec with none | ⟨front, others⟩
          · rw [none, List.append_nil]
            exact ends k name value
          · right
            refine ⟨piece k name value ++ front, ?_⟩
            rw [others, List.append_assoc]

private theorem perColumn_ne_nil {α : Type} {piece : Nat → Bytes → Bytes → List α}
    {names : List Bytes}
    {rec : Record} {i : Nat} (width : rec.length = names.length) (inside : i < names.length)
    (some : ∀ value, piece i names[i] value ≠ []) : perColumn piece 0 names rec ≠ [] := by
  rcases perColumn_set piece (k := 0) width inside with ⟨front, old, back, atOld, changed⟩
  rw [← set_of_getElem? atOld, changed, Nat.zero_add]
  intro none
  have noPiece := (List.append_eq_nil_iff.mp (List.append_eq_nil_iff.mp none).2).1
  exact some old noPiece

/-! ### The loops of the builders -/

section Loops

variable {schema : Schema} {names : List Bytes} {i : Nat}

private theorem readsColumn_keyFields {mask : UInt16} {n : Nat} (inside : i < n) :
    ReadsColumn n (QueryBuilder.keyFields mask 0) i ↔ maskBit mask i = true := by
  have width : (List.replicate n ([] : Bytes)).length = n := List.length_replicate
  have loop : ReadsColumn (List.replicate n ([] : Bytes)).length
      (perColumn (fun i _ value => if maskBit mask i then [value] else []) 0
        (List.replicate n [])) i ↔ _ :=
    readsColumn_perColumn (by rw [width]; exact inside)
  rw [width] at loop
  have same : ReadsColumn n (QueryBuilder.keyFields mask 0) i ↔
      ReadsColumn n (perColumn (fun i _ value => if maskBit mask i then [value] else []) 0
        (List.replicate n [])) i := by
    have loops (rec : Record) (fits : rec.length = n) :
        QueryBuilder.keyFields mask 0 rec = _ :=
      keyFields_eq mask 0 (fits.trans width.symm)
    constructor
    · intro ⟨rec, value, fits, different⟩
      rw [loops rec fits, loops _ ((List.length_set).trans fits)] at different
      exact ⟨rec, value, fits, different⟩
    · intro ⟨rec, value, fits, different⟩
      rw [← loops rec fits, ← loops _ ((List.length_set).trans fits)] at different
      exact ⟨rec, value, fits, different⟩
  rw [same, loop]
  cases bit : maskBit mask i with
  | false => simp
  | true => exact iff_of_true ⟨[], [0], by simp⟩ rfl

private theorem readsColumn_whereLoop (inside : i < names.length) :
    ReadsColumn names.length (schema.whereLoop 0 names) i ↔
      maskBit schema.uniqueMask i = true := by
  have loop : schema.whereLoop 0 names = perColumn _ 0 names :=
    funext (schema.whereLoop_eq_perColumn 0 names)
  rw [loop, readsColumn_perColumn inside]
  cases bit : maskBit schema.uniqueMask i with
  | false => simp
  | true => exact iff_of_true ⟨[], [0], by simp⟩ rfl

private theorem readsColumn_setLoop (inside : i < names.length) :
    ReadsColumn names.length (schema.setLoop 0 names) i ↔
      maskBit schema.uniqueMask i = false := by
  have loop : schema.setLoop 0 names = perColumn _ 0 names :=
    funext (schema.setLoop_eq_perColumn 0 names)
  rw [loop, readsColumn_perColumn inside]
  cases bit : maskBit schema.uniqueMask i with
  | true => simp
  | false => exact iff_of_true ⟨[], [0], by simp⟩ rfl

private theorem whereLoop_ends {rec : Record} (width : rec.length = names.length)
    (inside : i < names.length) (isKey : maskBit schema.uniqueMask i = true) :
    ∃ front, schema.whereLoop 0 names rec = front ++ ascii " and" := by
  rw [schema.whereLoop_eq_perColumn]
  apply (perColumn_ends ?_ 0 names rec).resolve_left
  · apply perColumn_ne_nil width inside
    intro value
    rw [if_pos isKey]
    exact List.append_ne_nil_of_right_ne_nil _ (by decide)
  · intro k name value
    cases maskBit schema.uniqueMask k with
    | false => exact Or.inl rfl
    | true => exact Or.inr ⟨_, rfl⟩

private theorem setLoop_ends {rec : Record} (width : rec.length = names.length)
    (inside : i < names.length) (isOther : maskBit schema.uniqueMask i = false) :
    ∃ front, schema.setLoop 0 names rec = front ++ [comma] := by
  have closes : ascii "'," = [quote] ++ [comma] := rfl
  rw [schema.setLoop_eq_perColumn]
  apply (perColumn_ends ?_ 0 names rec).resolve_left
  · apply perColumn_ne_nil width inside
    intro value
    rw [if_neg (by rw [isOther]; exact Bool.false_ne_true)]
    exact List.append_ne_nil_of_right_ne_nil _ (by decide)
  · intro k name value
    cases maskBit schema.uniqueMask k with
    | true => exact Or.inl rfl
    | false =>
        right
        refine ⟨name ++ ascii "='" ++ value ++ [quote], ?_⟩
        rw [closes, ← List.append_assoc]
        rfl

private theorem makeWhereClause_chops {rec : Record} {front : Bytes}
    (ends : schema.whereLoop 0 schema.fieldNames rec = front ++ ascii " and") :
    schema.makeWhereClause rec = ascii "where " ++ front := by
  unfold Schema.makeWhereClause
  rw [ends, ← List.append_assoc]
  exact Schema.dropLast_append_and _

private theorem readsColumn_makeWhereClause (inside : i < schema.fieldNames.length) :
    ReadsColumn schema.fieldNames.length schema.makeWhereClause i ↔
      maskBit schema.uniqueMask i = true := by
  rw [← readsColumn_whereLoop inside]
  constructor
  · intro ⟨rec, value, width, different⟩
    refine ⟨rec, value, width, fun same => different ?_⟩
    unfold Schema.makeWhereClause
    rw [same]
  · intro reads
    have isKey := (readsColumn_whereLoop inside).mp reads
    rcases reads with ⟨rec, value, width, different⟩
    refine ⟨rec, value, width, fun same => different ?_⟩
    rcases whereLoop_ends width inside isKey with ⟨front, ends⟩
    rcases whereLoop_ends ((List.length_set).trans width) inside isKey with ⟨other, otherEnds⟩
    rw [makeWhereClause_chops ends, makeWhereClause_chops otherEnds, List.append_cancel_left_eq]
      at same
    rw [ends, otherEnds, same]

end Loops

/-! ### Wide tables -/

def Ddl.IsKey (ddl : Ddl) (i : Nat) : Prop :=
  (∃ column, ddl.columns[i]? = some column ∧ ddl.Names column) ∨
    ((∀ column ∈ ddl.columns, ¬ ddl.Names column) ∧ i + 1 < ddl.columns.length)

/-- Every loop treats every column as the text declares it. -/
structure ColumnsTold (ddl : Ddl) (schema : Schema) : Prop where
  hashed : ∀ i < ddl.columns.length,
    ReadsColumn ddl.columns.length (QueryBuilder.keyFields schema.uniqueMask 0) i ↔ ddl.IsKey i
  compared : ∀ i < ddl.columns.length,
    ReadsColumn ddl.columns.length schema.makeWhereClause i ↔ ddl.IsKey i
  kept : ∀ i < ddl.columns.length,
    ReadsColumn ddl.columns.length (schema.setLoop 0 schema.fieldNames) i ↔ ¬ ddl.IsKey i
  normalised : ∀ i column, ddl.columns[i]? = some column → ∀ runtime raw,
    QueryBuilder.normalizeField runtime schema.floatMask i raw =
      if toLower column.type = ascii "float" then normalizeFloat runtime raw else .ok raw

private theorem normalizeField_iff {mask : UInt16} {i : Nat} {isFloat : Prop} [Decidable isFloat] :
    (∀ runtime raw, QueryBuilder.normalizeField runtime mask i raw =
      if isFloat then normalizeFloat runtime raw else .ok raw) ↔
      (maskBit mask i = true ↔ isFloat) := by
  constructor
  · intro same
    have fails : normalizeFloat sampleRuntime [] ≠ .ok [] := nofun
    have here := same sampleRuntime []
    unfold QueryBuilder.normalizeField at here
    by_cases declared : isFloat
    · rw [if_pos declared] at here
      apply iff_of_true ?_ declared
      by_contra unset
      rw [if_neg unset] at here
      exact fails here.symm
    · rw [if_neg declared] at here
      apply iff_of_false ?_ declared
      intro isSet
      rw [if_pos isSet] at here
      exact fails here
  · intro same runtime raw
    unfold QueryBuilder.normalizeField
    simp only [same]

private theorem columnsTold_iff {ddl : Ddl} {schema : Schema}
    (width : schema.fieldNames.length = ddl.columns.length) :
    ColumnsTold ddl schema ↔
      (∀ i < ddl.columns.length, maskBit schema.uniqueMask i = true ↔ ddl.IsKey i) ∧
      ∀ i column, ddl.columns[i]? = some column →
        (maskBit schema.floatMask i = true ↔ toLower column.type = ascii "float") := by
  constructor
  · intro told
    constructor
    · intro i inside
      exact (readsColumn_keyFields inside).symm.trans (told.hashed i inside)
    · intro i column atColumn
      exact normalizeField_iff.mp (told.normalised i column atColumn)
  · intro ⟨unique, float⟩
    have compared : ∀ i < ddl.columns.length,
        ReadsColumn ddl.columns.length schema.makeWhereClause i ↔ ddl.IsKey i := by
      intro i inside
      rw [← unique i inside, ← width]
      exact readsColumn_makeWhereClause (width ▸ inside)
    have kept : ∀ i < ddl.columns.length,
        ReadsColumn ddl.columns.length (schema.setLoop 0 schema.fieldNames) i ↔ ¬ ddl.IsKey i := by
      intro i inside
      rw [← unique i inside, ← width, Bool.not_eq_true]
      exact readsColumn_setLoop (width ▸ inside)
    exact
      { hashed := fun i inside => (readsColumn_keyFields inside).trans (unique i inside)
        compared := compared
        kept := kept
        normalised := fun i column atColumn => normalizeField_iff.mpr (float i column atColumn) }

private theorem columnsTold_iff_of_masks {ddl : Ddl} {info : DDLInfo} (masks : Masks ddl info)
    (table : Bytes) :
    ColumnsTold ddl (info.schema table) ↔
      (∀ i column, 16 ≤ i → ddl.columns[i]? = some column →
        ¬ ddl.Names column ∧ toLower column.type ≠ ascii "float") ∧
      ((∀ column ∈ ddl.columns, ¬ ddl.Names column) → ddl.columns.length ≤ 17) := by
  have width : (info.schema table).fieldNames.length = ddl.columns.length := by
    change info.fieldNames.length = _
    rw [masks.fieldNames, List.length_map]
  rw [columnsTold_iff width]
  constructor
  · intro ⟨unique, float⟩
    have unset {i : Nat} {column : ColumnItem} (large : 16 ≤ i)
        (atColumn : ddl.columns[i]? = some column) : ¬ ddl.IsKey i := by
      rw [← unique i (List.getElem?_eq_some_iff.mp atColumn).1]
      intro isSet
      have small := maskBit_lt isSet
      omega
    constructor
    · intro i column large atColumn
      constructor
      · intro names
        exact unset large atColumn (Or.inl ⟨column, atColumn, names⟩)
      · intro declared
        have small := maskBit_lt ((float i column atColumn).mpr declared)
        omega
    · intro none
      by_contra wide
      have inside : 16 < ddl.columns.length := by omega
      apply unset (Nat.le_refl 16) (List.getElem?_eq_getElem inside)
      exact Or.inr ⟨none, by omega⟩
  · intro ⟨late, noKey⟩
    have lateNames (i : Nat) (column : ColumnItem) (large : 16 ≤ i)
        (atColumn : ddl.columns[i]? = some column) : ¬ ddl.Names column :=
      (late i column large atColumn).1
    have lateFloats (i : Nat) (column : ColumnItem) (large : 16 ≤ i)
        (atColumn : ddl.columns[i]? = some column) : ¬ toLower column.type = ascii "float" :=
      (late i column large atColumn).2
    constructor
    · intro i _
      exact masks.unique_iff lateNames noKey i
    · intro i column atColumn
      apply ((masks.float i).trans (Ddl.early_iff lateFloats i)).trans
      rw [atColumn]
      constructor
      · intro ⟨other, same, declared⟩
        cases same
        exact declared
      · intro declared
        exact ⟨column, rfl, declared⟩

/-- The masks reach every column that they have to reach exactly if the key
columns and the floats are among the first 16. Without a key list the last
column may be the seventeenth, since it is not in the key. -/
theorem parseDdl_columnsTold_iff (ddl : Ddl) (table : Bytes) :
    (∃ info, parseDdl ddl.text = .ok info ∧ ColumnsTold ddl (info.schema table)) ↔
      ddl.columns.length ≤ 32 ∧
        (∀ i column, 16 ≤ i → ddl.columns[i]? = some column →
          ¬ ddl.Names column ∧ toLower column.type ≠ ascii "float") ∧
        ((∀ column ∈ ddl.columns, ¬ ddl.Names column) → ddl.columns.length ≤ 17) := by
  have columnsTold {info : DDLInfo} (parsed : parseDdl ddl.text = .ok info) :=
    columnsTold_iff_of_masks (Ddl.masks_of_parsed parsed) table
  constructor
  · intro ⟨info, parsed, told⟩
    have few := parseDdl_width parsed
    rw [(Ddl.masks_of_parsed parsed).fieldNames, List.length_map] at few
    exact ⟨few, (columnsTold parsed).mp told⟩
  · intro ⟨few, late, noKey⟩
    have shiftable : ddl.Shiftable := by
      refine ⟨few, ?_⟩
      intro none
      have unnamed := (Ddl.early_none_iff fun i column large atColumn =>
        (late i column large atColumn).1).mp none
      exact Nat.le_trans (noKey unnamed) (by decide)
    rcases Ddl.parseDdl_accepts shiftable with ⟨info, parsed⟩
    exact ⟨info, parsed, (columnsTold parsed).mpr ⟨late, noKey⟩⟩

def wideColumn (i : Nat) : ColumnItem :=
  sampleColumn (List.replicate (i + 1) 97) (ascii "datetime") updatedAtColumn.typed
    (by
      intro byte member
      rw [List.eq_of_mem_replicate member]
      decide)
    updatedAtColumn.plainType

def wideDdl : Ddl :=
  { head := ascii "create table `t` "
    columns := (List.range 17).map wideColumn ++ [updatedAtColumn]
    keys := []
    tail := ascii ";"
    plainHead := sampleDdl.plainHead
    declared := nofun
    distinct := by decide
    last := by decide }

/-- The bit of the seventeenth column is cut off the mask. -/
theorem not_columnsTold_wideDdl :
    ¬ ∃ info, parseDdl wideDdl.text = .ok info ∧ ColumnsTold wideDdl (info.schema (ascii "t")) := by
  intro ⟨info, _, told⟩
  have inside : 16 < wideDdl.columns.length := by decide
  have isKey : wideDdl.IsKey 16 := by
    apply Or.inr
    apply And.intro ?_ (by decide)
    intro column _ ⟨key, member, _⟩
    cases member
  have reads := (told.hashed 16 inside).mpr isKey
  have small := maskBit_lt ((readsColumn_keyFields inside).mp reads)
  omega

/-! ### The columns that the builders need -/

/-- Some columns are in the key and some are not, so that what the builders
chop off is always a separator that they have appended. -/
structure KeySplits (schema : Schema) : Prop where
  someKey : ∃ i < schema.fieldNames.length, maskBit schema.uniqueMask i = true
  someOther : ∃ i < schema.fieldNames.length, maskBit schema.uniqueMask i = false
  whereClause : ∀ rec, rec.length = schema.fieldNames.length →
    ∃ front, schema.whereLoop 0 schema.fieldNames rec = front ++ ascii " and" ∧
      schema.makeWhereClause rec = ascii "where " ++ front
  setList : ∀ rec, rec.length = schema.fieldNames.length →
    ∃ front, schema.setLoop 0 schema.fieldNames rec = front ++ [comma] ∧
      schema.makeUpdateStatement rec =
        ascii "update `" ++ schema.table ++ ascii "` set " ++ front ++ [space] ++
          (schema.makeWhereClause rec ++ ascii " and `updated_at`<'" ++
            rec.getLast?.getD [] ++ ascii "'")

private theorem makeUpdateStatement_chops {schema : Schema} {rec : Record} {front : Bytes}
    (ends : schema.setLoop 0 schema.fieldNames rec = front ++ [comma]) :
    schema.makeUpdateStatement rec =
      ascii "update `" ++ schema.table ++ ascii "` set " ++ front ++ [space] ++
        (schema.makeWhereClause rec ++ ascii " and `updated_at`<'" ++
          rec.getLast?.getD [] ++ ascii "'") := by
  unfold Schema.makeUpdateStatement
  rw [ends, ← List.append_assoc _ front [comma], List.dropLast_concat]

private theorem KeySplits.of_bits {schema : Schema}
    (someKey : ∃ i < schema.fieldNames.length, maskBit schema.uniqueMask i = true)
    (someOther : ∃ i < schema.fieldNames.length, maskBit schema.uniqueMask i = false) :
    KeySplits schema := by
  apply KeySplits.mk someKey someOther
  · rcases someKey with ⟨i, inside, isKey⟩
    intro rec width
    rcases whereLoop_ends width inside isKey with ⟨front, ends⟩
    exact ⟨front, ends, makeWhereClause_chops ends⟩
  · rcases someOther with ⟨i, inside, isOther⟩
    intro rec width
    rcases setLoop_ends width inside isOther with ⟨front, ends⟩
    exact ⟨front, ends, makeUpdateStatement_chops ends⟩

/-- The mask splits the columns unless the keys take all of them, or there is
only the one column that the mask never takes by itself. -/
theorem parseDdl_keySplits_iff (ddl : Ddl) (few : ddl.columns.length ≤ 16) (table : Bytes) :
    (∃ info, parseDdl ddl.text = .ok info ∧ KeySplits (info.schema table)) ↔
      2 ≤ ddl.columns.length ∧ ∃ column ∈ ddl.columns, ¬ ddl.Names column := by
  rcases Ddl.parseDdl_masks few with ⟨info, parsed, masks⟩
  have recovers := masks.recovers few
  have width : (info.schema table).fieldNames.length = ddl.columns.length := by
    change info.fieldNames.length = _
    rw [recovers.fieldNames, List.length_map]
  rw [parsed_iff parsed]
  constructor
  · intro splits
    rcases splits.someKey with ⟨i, inside, isKey⟩
    rcases splits.someOther with ⟨k, otherInside, isOther⟩
    rw [width] at inside otherInside
    constructor
    · by_contra single
      have sameIndex : i = k := by omega
      rw [sameIndex, isOther] at isKey
      cases isKey
    · refine ⟨ddl.columns[k], List.getElem_mem otherInside, fun names => ?_⟩
      have isSet := (recovers.unique k).mpr
        (Or.inl ⟨_, List.getElem?_eq_getElem otherInside, names⟩)
      change maskBit info.uniqueMask k = false at isOther
      rw [isSet] at isOther
      cases isOther
  · intro ⟨several, column, member, unnamed⟩
    apply KeySplits.of_bits
    · rw [width]
      by_cases named : ∃ column ∈ ddl.columns, ddl.Names column
      · rcases named with ⟨key, keyMember, names⟩
        rcases List.getElem_of_mem keyMember with ⟨i, inside, rfl⟩
        exact ⟨i, inside, (recovers.unique i).mpr
          (Or.inl ⟨_, List.getElem?_eq_getElem inside, names⟩)⟩
      · refine ⟨0, by omega, (recovers.unique 0).mpr (Or.inr ⟨?_, by omega⟩)⟩
        intro other otherMember names
        exact named ⟨other, otherMember, names⟩
    · rw [width]
      have notKey {i : Nat} (unset : ¬ maskBit info.uniqueMask i = true) :
          maskBit (info.schema table).uniqueMask i = false := Bool.eq_false_iff.mpr unset
      by_cases named : ∃ column ∈ ddl.columns, ddl.Names column
      · rcases List.getElem_of_mem member with ⟨i, inside, rfl⟩
        refine ⟨i, inside, notKey ?_⟩
        rw [recovers.unique i]
        rintro (⟨other, atOther, names⟩ | ⟨none, _⟩)
        · rw [List.getElem?_eq_getElem inside] at atOther
          cases atOther
          exact unnamed names
        · rcases named with ⟨key, keyMember, names⟩
          exact none key keyMember names
      · refine ⟨ddl.columns.length - 1, by omega, notKey ?_⟩
        rw [recovers.unique]
        rintro (⟨other, atOther, names⟩ | ⟨_, early⟩)
        · exact named ⟨other, List.mem_of_getElem? atOther, names⟩
        · omega

theorem parseDdl_keySplits_iff_sampleDdl :
    (∃ info, parseDdl sampleDdl.text = .ok info ∧ KeySplits (info.schema (ascii "t"))) ↔
      2 ≤ sampleDdl.columns.length ∧ ∃ column ∈ sampleDdl.columns, ¬ sampleDdl.Names column :=
  parseDdl_keySplits_iff sampleDdl (by decide) (ascii "t")

def singleDdl : Ddl :=
  { head := ascii "create table `t` "
    columns := [updatedAtColumn]
    keys := []
    tail := ascii ";"
    plainHead := sampleDdl.plainHead
    declared := nofun
    distinct := by decide
    last := by decide }

theorem not_keySplits_singleDdl :
    ¬ ∃ info, parseDdl singleDdl.text = .ok info ∧ KeySplits (info.schema (ascii "t")) := by
  intro ⟨info, parsed, splits⟩
  have parsedIs : parseDdl singleDdl.text =
      .ok { fieldNames := [ascii "`updated_at`"], uniqueMask := 0, floatMask := 0, doubleMask := 0 } :=
    rfl
  rw [parsedIs] at parsed
  cases parsed
  rcases splits.someKey with ⟨i, inside, isKey⟩
  change maskBit 0 i = true at isKey
  rw [maskBit_zero] at isKey
  cases isKey

end ChangeSql
