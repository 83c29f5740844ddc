/-
The code on texts runs as the model on symbolic statements does.

None of the operations looks at a statement other than to see whether there
is one. So a call on texts gives the text of the statement that the symbolic
call gives, and fails where that one fails, whatever the inputs are.
-/

import ChangeSql.QueryBuilder

namespace ChangeSql.QueryBuilder

variable {σ τ : Type} (runtime : Runtime)

/-- `builder` with another statement to return next, in another form. -/
def await (stmt : τ) (builder : QueryBuilder σ) : QueryBuilder τ :=
  { schema := builder.schema
    handleIdx := builder.handleIdx
    csvHandles := builder.csvHandles
    segment := builder.segment
    tmpRecord := builder.tmpRecord
    tmpHandleIdx := builder.tmpHandleIdx
    tmpOffset := builder.tmpOffset
    insertIfNotExistsStmt := stmt }

private theorem readRecord_await (stmt : τ) (builder : QueryBuilder σ) :
    readRecord runtime (builder.await stmt) =
      (readRecord runtime builder).map (Prod.map id (await stmt)) := by
  unfold readRecord
  change (builder.handle >>= _) = _
  cases builder.handle with
  | error fault => rfl
  | ok reader =>
      change (readFields runtime builder.schema.floatMask 0 builder.schema.fieldNames reader >>= _) =
        Except.map _ (readFields runtime builder.schema.floatMask 0 builder.schema.fieldNames
          reader >>= _)
      cases readFields runtime builder.schema.floatMask 0 builder.schema.fieldNames reader <;> rfl

private theorem nextRecord_await (stmt : τ) (builder : QueryBuilder σ) :
    nextRecord runtime (builder.await stmt) =
      (nextRecord runtime builder).map (Prod.map id (await stmt)) := by
  unfold nextRecord
  change (builder.handle >>= _) = _
  cases builder.handle with
  | error fault => rfl
  | ok reader =>
      change (reader.peek >>= _) = Except.map _ (reader.peek >>= _)
      cases reader.peek with
      | error fault => rfl
      | ok answer =>
          simp only [bind, Except.bind]
          by_cases isEnd : answer.1 = eof
          · simp only [if_pos isEnd]
            rw [apply_ite (Except.map (Prod.map id (await stmt)))]
            refine ite_congr rfl (fun _ => rfl) fun _ => ?_
            exact readRecord_await runtime stmt
              { builder.setHandle answer.2 with handleIdx := builder.handleIdx + 1 }
          · simp only [if_neg isEnd]
            exact readRecord_await runtime stmt (builder.setHandle answer.2)

theorem collect_await (stmt : τ) (room : Nat) (earlier : List Record) (builder : QueryBuilder σ) :
    collect runtime room earlier (builder.await stmt) =
      (collect runtime room earlier builder).map (Prod.map id (await stmt)) := by
  induction room generalizing earlier builder with
  | zero => rfl
  | succ room ih =>
      unfold collect
      rw [nextRecord_await]
      change (builder.handle >>= _) = _
      cases builder.handle with
      | error fault => rfl
      | ok reader =>
          cases nextRecord runtime builder with
          | error fault => rfl
          | ok answer =>
              rcases answer with ⟨rec, next⟩
              change (if rec.isEmpty = true then _ else _) = Except.map _ (if rec.isEmpty = true then _ else _)
              cases rec.isEmpty with
              | true => rfl
              | false =>
                  rw [if_neg Bool.false_ne_true, if_neg Bool.false_ne_true,
                    apply_ite (Except.map (Prod.map id (await stmt)))]
                  refine ite_congr rfl (fun _ => rfl) fun _ => ?_
                  exact ih (earlier ++ [rec])
                    { next with
                      segment :=
                        { next.segment with
                          inserted := insert (hashRecord runtime next.schema rec)
                            next.segment.inserted } }

private theorem collect_keeps {room : Nat} {earlier : List Record} {builder next : QueryBuilder σ}
    {outcome : Option (List Record)}
    (collected : collect runtime room earlier builder = .ok (outcome, next)) :
    next.insertIfNotExistsStmt = builder.insertIfNotExistsStmt := by
  have again := collect_await runtime builder.insertIfNotExistsStmt room earlier builder
  change collect runtime room earlier builder = _ at again
  rw [collected] at again
  have nextIs : next = next.await builder.insertIfNotExistsStmt :=
    congrArg Prod.snd (Except.ok.inj again)
  rw [nextIs]
  rfl

variable (schema : Schema)

def rendered (builder : QueryBuilder Statement) : QueryBuilder Bytes :=
  builder.await (builder.insertIfNotExistsStmt.text schema)

def renderedAnswer : Statement × QueryBuilder Statement → Bytes × QueryBuilder Bytes :=
  Prod.map (Statement.text schema) (rendered schema)

theorem isEmpty_text (statement : Statement) :
    (Builders.texts schema).isEmpty (statement.text schema) =
      Builders.symbolic.isEmpty statement := by
  rw [Bool.eq_iff_iff]
  apply ((Builders.texts_lawful schema) statement).trans
  rw [← Builders.symbolic_lawful, Statement.build_symbolic]

theorem nextQuery_rendered (builder : QueryBuilder Statement) :
    nextQuery (Builders.texts schema) runtime (builder.rendered schema) =
      (nextQuery Builders.symbolic runtime builder).map (renderedAnswer schema) := by
  have sameTest : (Builders.texts schema).isEmpty (builder.rendered schema).insertIfNotExistsStmt =
      Builders.symbolic.isEmpty builder.insertIfNotExistsStmt :=
    isEmpty_text schema builder.insertIfNotExistsStmt
  unfold nextQuery
  rw [sameTest]
  cases Builders.symbolic.isEmpty builder.insertIfNotExistsStmt with
  | false => rfl
  | true =>
      change (if builder.tmpRecord.isEmpty = true then _ else _) =
        Except.map _ (if builder.tmpRecord.isEmpty = true then _ else _)
      cases builder.tmpRecord.isEmpty with
      | false => rfl
      | true =>
          rw [if_pos rfl, if_pos rfl]
          have loops := collect_await runtime (builder.insertIfNotExistsStmt.text schema)
            (INSERT_NUM_TUPLES + 1) [] builder
          change collect runtime (INSERT_NUM_TUPLES + 1) [] (builder.rendered schema) = _ at loops
          rw [loops]
          cases collected : collect runtime (INSERT_NUM_TUPLES + 1) [] builder with
          | error fault => rfl
          | ok answer =>
              rcases answer with ⟨outcome, next⟩
              have same := collect_keeps runtime collected
              rw [← same]
              cases outcome with
              | none => rfl
              | some records => cases records <;> rfl

private theorem commitStores_rendered (builder : QueryBuilder Statement) :
    (builder.rendered schema).commitStores (Builders.texts schema) =
      builder.commitStores Builders.symbolic := by
  have sameTest : (Builders.texts schema).isEmpty (builder.rendered schema).insertIfNotExistsStmt =
      Builders.symbolic.isEmpty builder.insertIfNotExistsStmt :=
    isEmpty_text schema builder.insertIfNotExistsStmt
  unfold commitStores
  rw [sameTest]
  rfl

theorem commit_rendered (builder : QueryBuilder Statement) :
    (builder.rendered schema).commit (Builders.texts schema) =
      (builder.commit Builders.symbolic).map (rendered schema) := by
  unfold commit
  rw [commitStores_rendered]
  cases builder.commitStores Builders.symbolic <;> rfl

theorem create_rendered (segment : Segment) (memory : Nat → Bytes) (files : List Bytes) :
    create (Builders.texts schema) schema segment memory files =
      (create Builders.symbolic schema segment memory files).map (rendered schema) := by
  unfold create
  change (handle (attach Builders.symbolic schema segment memory files) >>= _) =
    Except.map _ (handle (attach Builders.symbolic schema segment memory files) >>= _)
  cases handle (attach Builders.symbolic schema segment memory files) <;> rfl

end ChangeSql.QueryBuilder
