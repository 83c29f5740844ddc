/-
What `next_query` does, seen from the list of all records.

An emitter has a position in the list instead of readers, and the deferred
record and the awaited insert are options instead of emptiness flags. Its
steps say which records a statement carries and what is left to say later.
-/

import ChangeSql.Library.FreshRuns
import ChangeSql.Statements

namespace ChangeSql

open FreshRuns

structure Emitter where
  pos : Nat
  tmp : Option Record
  pending : Option Record
  seen : Finset UInt64

namespace Emitter

variable (key : Record → UInt64) (records : List Record) (room : Nat)

/-- What becomes of a run of records with new hashes, depending on what has
stopped the run. -/
def emitBatch (emitter : Emitter) (batch : List Record) : Statement × Emitter :=
  let pos := emitter.pos + batch.length
  let seen := emitter.seen ∪ keysOf key batch
  if batch.length = room then (.insert batch, { emitter with pos := pos, seen := seen })
  else
    match records[pos]? with
    | none => (.empty, { emitter with pos := pos, seen := seen })
    | some rec =>
        if batch = [] then
          (.update rec, { emitter with pos := pos + 1, seen := seen, pending := some rec })
        else (.insert batch, { emitter with pos := pos + 1, seen := seen, tmp := some rec })

def next (emitter : Emitter) : Statement × Emitter :=
  match emitter.pending with
  | some rec => (.insertWhereNotExists rec, { emitter with pending := none })
  | none =>
      match emitter.tmp with
      | some rec => (.update rec, { emitter with tmp := none, pending := some rec })
      | none =>
          emitter.emitBatch key records room
            (takeFresh key room emitter.seen (records.drop emitter.pos))

/-- The records that statements carry, a deferred one not included. -/
def handed (emitter : Emitter) : Nat :=
  emitter.pos - emitter.tmp.toList.length

/-- The position behind which nothing has been said in full. -/
def settled (emitter : Emitter) : Nat :=
  emitter.handed - emitter.pending.toList.length

/-- The deferred or awaited record, if there is one, is the last one read. -/
structure Valid (emitter : Emitter) : Prop where
  inside : emitter.pos ≤ records.length
  deferred : ∀ rec, emitter.tmp = some rec →
    ∃ k, emitter.pos = k + 1 ∧ records[k]? = some rec
  awaited : ∀ rec, emitter.pending = some rec →
    emitter.tmp = none ∧ ∃ k, emitter.pos = k + 1 ∧ records[k]? = some rec

/-- The kinds of steps, each with all that it says about the records. -/
inductive Emits : Emitter → Statement → Emitter → Prop where
  | complete (emitter : Emitter) (rec : Record) (pending : emitter.pending = some rec) :
      Emits emitter (.insertWhereNotExists rec) { emitter with pending := none }
  | deferred (emitter : Emitter) (rec : Record) (pending : emitter.pending = none)
      (tmp : emitter.tmp = some rec) :
      Emits emitter (.update rec) { emitter with tmp := none, pending := some rec }
  | full (emitter : Emitter) (batch : List Record) (pending : emitter.pending = none)
      (tmp : emitter.tmp = none) (upcoming : batch <+: records.drop emitter.pos)
      (allNew : AllNew key emitter.seen batch) (size : batch.length = room) :
      Emits emitter (.insert batch)
        { emitter with
          pos := emitter.pos + batch.length
          seen := emitter.seen ∪ keysOf key batch }
  | exhausted (emitter : Emitter) (batch : List Record) (pending : emitter.pending = none)
      (tmp : emitter.tmp = none) (upcoming : batch = records.drop emitter.pos)
      (allNew : AllNew key emitter.seen batch) (size : batch.length < room) :
      Emits emitter .empty
        { emitter with
          pos := emitter.pos + batch.length
          seen := emitter.seen ∪ keysOf key batch }
  | known (emitter : Emitter) (rec : Record) (pending : emitter.pending = none)
      (tmp : emitter.tmp = none) (upcoming : records[emitter.pos]? = some rec)
      (old : key rec ∈ emitter.seen) :
      Emits emitter (.update rec)
        { emitter with pos := emitter.pos + 1, pending := some rec }
  | batched (emitter : Emitter) (batch : List Record) (rec : Record)
      (pending : emitter.pending = none) (tmp : emitter.tmp = none) (some : batch ≠ [])
      (upcoming : batch ++ [rec] <+: records.drop emitter.pos)
      (allNew : AllNew key emitter.seen batch) (size : batch.length < room)
      (old : key rec ∈ emitter.seen ∪ keysOf key batch) :
      Emits emitter (.insert batch)
        { emitter with
          pos := emitter.pos + batch.length + 1
          seen := emitter.seen ∪ keysOf key batch
          tmp := Option.some rec }

variable {key records room}

theorem prefix_snoc {batch items : List Record} {rec : Record} (upcoming : batch <+: items)
    (next : items[batch.length]? = some rec) : batch ++ [rec] <+: items := by
  obtain ⟨rest, rfl⟩ := upcoming
  rw [List.getElem?_append_right (Nat.le_refl _), Nat.sub_self] at next
  cases rest with
  | nil => cases next
  | cons head rest =>
      cases next
      exact ⟨rest, by simp⟩

theorem getElem?_of_prefix_snoc {batch items : List Record} {rec : Record}
    (upcoming : batch ++ [rec] <+: items) : items[batch.length]? = some rec := by
  rcases upcoming with ⟨rest, rfl⟩
  rw [List.append_assoc, List.getElem?_append_right (Nat.le_refl _), Nat.sub_self]
  rfl

private theorem emitBatch_emits (emitter : Emitter) (pending : emitter.pending = none)
    (tmp : emitter.tmp = none) {batch : List Record}
    (batchIs : batch = takeFresh key room emitter.seen (records.drop emitter.pos)) :
    Emits key records room emitter (emitter.emitBatch key records room batch).1
      (emitter.emitBatch key records room batch).2 := by
  have upcoming : batch <+: records.drop emitter.pos :=
    batchIs ▸ takeFresh_prefix key room emitter.seen _
  have allNew : AllNew key emitter.seen batch := batchIs ▸ takeFresh_allNew key room emitter.seen _
  have bounded : batch.length ≤ room := batchIs ▸ takeFresh_length_le key room emitter.seen _
  unfold emitBatch
  by_cases size : batch.length = room
  · simp only [if_pos size]
    exact .full emitter batch pending tmp upcoming allNew size
  · have short : batch.length < room := Nat.lt_of_le_of_ne bounded size
    simp only [if_neg size]
    cases nextIs : records[emitter.pos + batch.length]? with
    | none =>
        have all : batch = records.drop emitter.pos := by
          apply upcoming.eq_of_length_le
          rw [← List.getElem?_eq_none_iff, List.getElem?_drop]
          exact nextIs
        exact .exhausted emitter batch pending tmp all allNew short
    | some rec =>
        rw [← List.getElem?_drop] at nextIs
        have old : key rec ∈ emitter.seen ∪ keysOf key batch := by
          rw [batchIs] at short nextIs ⊢
          exact takeFresh_stop short nextIs
        by_cases empty : batch = []
        · simp only [if_pos empty]
          subst empty
          rw [keysOf_nil, Finset.union_empty] at old
          rw [List.length_nil, List.getElem?_drop] at nextIs
          simp only [keysOf_nil, Finset.union_empty, List.length_nil, Nat.add_zero]
          exact .known emitter rec pending tmp nextIs old
        · simp only [if_neg empty]
          exact .batched emitter batch rec pending tmp empty (prefix_snoc upcoming nextIs) allNew
            short old

theorem next_emits (emitter : Emitter) :
    Emits key records room emitter (emitter.next key records room).1
      (emitter.next key records room).2 := by
  unfold next
  cases pending : emitter.pending with
  | some rec => exact .complete emitter rec pending
  | none =>
      cases tmp : emitter.tmp with
      | some rec => exact .deferred emitter rec pending tmp
      | none => exact emitBatch_emits emitter pending tmp rfl

/-! ### What a step carries -/

theorem take_succ_of_getElem? {k : Nat} {rec : Record} (at_k : records[k]? = some rec) :
    records.take (k + 1) = records.take k ++ [rec] := by
  rw [List.take_add_one, at_k, Option.toList_some]

theorem take_add_of_prefix {pos : Nat} {batch : List Record}
    (upcoming : batch <+: records.drop pos) :
    records.take (pos + batch.length) = records.take pos ++ batch := by
  rw [List.take_add, ← List.prefix_iff_eq_take.mp upcoming]

theorem prefix_inside {pos : Nat} {batch : List Record} (inside : pos ≤ records.length)
    (upcoming : batch <+: records.drop pos) : pos + batch.length ≤ records.length := by
  have shorter := upcoming.length_le
  rw [List.length_drop] at shorter
  omega

variable {emitter after : Emitter} {statement : Statement}

def Idle (emitter : Emitter) : Prop :=
  emitter.tmp = none ∧ emitter.pending = none

theorem Idle.valid (idle : Idle emitter) (inside : emitter.pos ≤ records.length) :
    Valid records emitter := by
  refine ⟨inside, ?_, ?_⟩
  · intro rec deferred
    rw [idle.1] at deferred
    cases deferred
  · intro rec awaited
    rw [idle.2] at awaited
    cases awaited

theorem Emits.valid (emits : Emits key records room emitter statement after)
    (valid : Valid records emitter) : Valid records after := by
  cases emits with
  | complete rec pending =>
      refine ⟨valid.inside, valid.deferred, ?_⟩
      intro other impossible
      cases impossible
  | deferred rec pending tmp =>
      refine ⟨valid.inside, ?_, ?_⟩
      · intro other impossible
        cases impossible
      · intro other awaited
        cases awaited
        exact ⟨rfl, valid.deferred rec tmp⟩
  | full batch pending tmp upcoming allNew size =>
      exact Idle.valid ⟨tmp, pending⟩ (prefix_inside valid.inside upcoming)
  | exhausted batch pending tmp upcoming allNew size =>
      exact Idle.valid ⟨tmp, pending⟩ (prefix_inside valid.inside (upcoming ▸ List.prefix_rfl))
  | known rec pending tmp upcoming old =>
      refine ⟨(List.getElem?_eq_some_iff.mp upcoming).1, ?_, ?_⟩
      · intro other deferred
        change emitter.tmp = some other at deferred
        rw [tmp] at deferred
        cases deferred
      · intro other awaited
        cases awaited
        exact ⟨tmp, emitter.pos, rfl, upcoming⟩
  | batched batch rec pending tmp some upcoming allNew size old =>
      have inside := prefix_inside valid.inside upcoming
      rw [List.length_append, List.length_singleton] at inside
      refine ⟨inside, ?_, ?_⟩
      · intro other deferred
        cases deferred
        refine ⟨emitter.pos + batch.length, rfl, ?_⟩
        rw [← List.getElem?_drop]
        exact getElem?_of_prefix_snoc upcoming
      · intro other awaited
        change emitter.pending = Option.some other at awaited
        rw [pending] at awaited
        cases awaited

theorem handed_of_tmp_none (tmp : emitter.tmp = none) : emitter.handed = emitter.pos := by
  unfold handed
  rw [tmp]
  rfl

theorem Valid.handed_of_tmp {rec : Record} (valid : Valid records emitter)
    (tmp : emitter.tmp = some rec) :
    emitter.pos = emitter.handed + 1 ∧ records[emitter.handed]? = some rec := by
  obtain ⟨k, posIs, at_k⟩ := valid.deferred rec tmp
  have handedIs : emitter.handed = k := by
    unfold handed
    rw [tmp, posIs]
    rfl
  rw [handedIs]
  exact ⟨posIs, at_k⟩

theorem Valid.handed_le (valid : Valid records emitter) : emitter.handed ≤ records.length :=
  Nat.le_trans (Nat.sub_le _ _) valid.inside

/-- Every statement carries the records that follow those carried before. -/
theorem Emits.carries (emits : Emits key records room emitter statement after)
    (valid : Valid records emitter) (more : statement ≠ .empty) :
    records.take after.handed = records.take emitter.handed ++ statement.carried := by
  cases emits with
  | complete rec pending =>
      exact (List.append_nil _).symm
  | deferred rec pending tmp =>
      obtain ⟨posIs, at_handed⟩ := valid.handed_of_tmp tmp
      rw [handed_of_tmp_none rfl, posIs]
      exact take_succ_of_getElem? at_handed
  | full batch pending tmp upcoming allNew size =>
      simp only [handed, tmp, Option.toList_none, List.length_nil, Nat.sub_zero]
      exact take_add_of_prefix upcoming
  | exhausted batch pending tmp upcoming allNew size =>
      exact absurd rfl more
  | known rec pending tmp upcoming old =>
      simp only [handed, tmp, Option.toList_none, List.length_nil, Nat.sub_zero]
      exact take_succ_of_getElem? upcoming
  | batched batch rec pending tmp some upcoming allNew size old =>
      rw [handed_of_tmp_none tmp]
      exact take_add_of_prefix ((List.prefix_append batch [rec]).trans upcoming)

/-- A statement carries a record or completes one that is awaited, so there
are at most two of them for each record. -/
def remaining (records : List Record) (emitter : Emitter) : Nat :=
  2 * (records.length - emitter.handed) + emitter.pending.toList.length

theorem Emits.remaining_lt (roomy : 0 < room)
    (emits : Emits key records room emitter statement after) (valid : Valid records emitter)
    (more : statement ≠ .empty) : remaining records after < remaining records emitter := by
  have afterLe := (emits.valid valid).handed_le
  have carries := congrArg List.length (emits.carries valid more)
  rw [List.length_append, List.length_take_of_le afterLe,
    List.length_take_of_le valid.handed_le] at carries
  unfold remaining
  cases emits with
  | complete rec pending =>
      rw [pending]
      change 2 * (records.length - emitter.handed) < _
      simp
  | deferred rec pending tmp =>
      rw [pending]
      change _ = _ + 1 at carries
      change _ + 1 < _ + 0
      omega
  | full batch pending tmp upcoming allNew size =>
      change _ = _ + batch.length at carries
      change _ + emitter.pending.toList.length < _
      omega
  | exhausted batch pending tmp upcoming allNew size =>
      exact absurd rfl more
  | known rec pending tmp upcoming old =>
      rw [pending]
      change _ = _ + 1 at carries
      change _ + 1 < _ + 0
      omega
  | batched batch rec pending tmp some upcoming allNew size old =>
      have nonempty := List.length_pos_of_ne_nil some
      change _ = _ + batch.length at carries
      change _ + emitter.pending.toList.length < _
      omega

end Emitter

end ChangeSql
