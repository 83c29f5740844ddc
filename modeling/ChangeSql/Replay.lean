/-
What a restarted emitter says again, and what that does to the table.

The set of hashes runs ahead of the cursor: it covers the records up to a
mark, and an emitter restarted behind the mark says those between as updates.
Their upserts change nothing for the records that the table has had. Batches
come only from the mark on, where the keys are new to the table as well.
-/

import ChangeSql.Completeness
import ChangeSql.Table

namespace ChangeSql

open FreshRuns NewestWins

namespace Emitter

variable {key : Record → UInt64} {records : List Record} {room : Nat}
  {emitter before after : Emitter} {statement : Statement} {mark : Nat}

/-! ### The mark -/

/-- The hashes seen are those of the records up to the mark. -/
structure Marked (key : Record → UInt64) (records : List Record) (emitter : Emitter)
    (mark : Nat) : Prop where
  seen : emitter.seen = keysOf key (records.take mark)
  read : emitter.pos ≤ mark
  inside : mark ≤ records.length

private theorem Marked.at_mark (marked : Marked key records emitter mark) {batch : List Record}
    (some : batch ≠ []) (upcoming : batch <+: records.drop emitter.pos)
    (allNew : AllNew key emitter.seen batch) : emitter.pos = mark := by
  rcases Nat.lt_or_eq_of_le marked.read with short | atMark
  · exfalso
    rcases List.exists_cons_of_ne_nil some with ⟨rec, rest, rfl⟩
    apply allNew.new rec List.mem_cons_self
    rw [marked.seen, mem_keysOf]
    refine ⟨rec, ?_, rfl⟩
    rcases upcoming with ⟨others, split⟩
    have atPos : records[emitter.pos]? = Option.some rec := by
      rw [← List.head?_drop, ← split]
      rfl
    rw [← List.getElem?_take_of_lt short] at atPos
    exact List.mem_of_getElem? atPos
  · exact atMark

theorem Marked.read_new (marked : Marked key records before mark) {batch : List Record}
    (some : batch ≠ []) (upcoming : batch <+: records.drop before.pos)
    (allNew : AllNew key before.seen batch) (pos : after.pos = before.pos + batch.length)
    (seen : after.seen = before.seen ∪ keysOf key batch) :
    Marked key records after (mark + batch.length) := by
  have atMark := marked.at_mark some upcoming allNew
  rw [atMark] at upcoming pos
  refine ⟨?_, ?_, prefix_inside marked.inside upcoming⟩
  · rw [seen, marked.seen, take_add_of_prefix upcoming, keysOf_append]
  · rw [pos]

private theorem Marked.read_known (marked : Marked key records before mark) {rec : Record}
    (upcoming : records[before.pos]? = some rec) (old : key rec ∈ before.seen)
    (pos : after.pos = before.pos + 1) (seen : after.seen = before.seen) :
    ∃ later, mark ≤ later ∧ Marked key records after later := by
  rcases Nat.lt_or_eq_of_le marked.read with short | atMark
  · refine ⟨mark, Nat.le_refl mark, ?_, ?_, marked.inside⟩
    · rw [seen, marked.seen]
    · rw [pos]
      exact short
  · rw [atMark] at upcoming pos
    rw [marked.seen] at old
    refine ⟨mark + 1, Nat.le_succ mark, ?_, ?_, (List.getElem?_eq_some_iff.mp upcoming).1⟩
    · rw [seen, marked.seen, take_succ_of_getElem? upcoming, keysOf_append]
      exact (union_keysOf_seen old).symm
    · rw [pos]

/-- The mark only moves on, and a batch starts at the mark. -/
theorem Emits.marked (roomy : 0 < room) (emits : Emits key records room before statement after)
    (marked : Marked key records before mark) :
    ∃ later, mark ≤ later ∧ Marked key records after later ∧
      ∀ batch, statement = .insert batch → before.pos = mark := by
  cases emits with
  | complete rec pending =>
      refine ⟨mark, Nat.le_refl mark, ⟨marked.seen, marked.read, marked.inside⟩, ?_⟩
      intro batch impossible
      cases impossible
  | deferred rec pending tmp =>
      refine ⟨mark, Nat.le_refl mark, ⟨marked.seen, marked.read, marked.inside⟩, ?_⟩
      intro batch impossible
      cases impossible
  | full batch pending tmp upcoming allNew size =>
      have some : batch ≠ [] := by
        rintro rfl
        exact absurd size (Nat.ne_of_lt roomy)
      refine ⟨mark + batch.length, Nat.le_add_right _ _,
        marked.read_new some upcoming allNew rfl rfl, ?_⟩
      intro _ _
      exact marked.at_mark some upcoming allNew
  | exhausted batch pending tmp upcoming allNew size =>
      by_cases empty : batch = []
      · subst empty
        refine ⟨mark, Nat.le_refl mark, ⟨?_, marked.read, marked.inside⟩, ?_⟩
        · change before.seen ∪ keysOf key [] = _
          rw [keysOf_nil, Finset.union_empty]
          exact marked.seen
        · intro _ impossible
          cases impossible
      · refine ⟨mark + batch.length, Nat.le_add_right _ _,
          marked.read_new empty (upcoming ▸ List.prefix_rfl) allNew rfl rfl, ?_⟩
        intro _ impossible
        cases impossible
  | known rec pending tmp upcoming old =>
      have moved : ∃ later, mark ≤ later ∧
          Marked key records { before with pos := before.pos + 1, pending := some rec } later :=
        marked.read_known upcoming old rfl rfl
      rcases moved with ⟨later, further, laterMarked⟩
      refine ⟨later, further, laterMarked, ?_⟩
      intro _ impossible
      cases impossible
  | batched batch rec pending tmp some upcoming allNew size old =>
      have batchUpcoming : batch <+: records.drop before.pos :=
        (List.prefix_append batch [rec]).trans upcoming
      let gathered : Emitter :=
        { before with
          pos := before.pos + batch.length
          seen := before.seen ∪ keysOf key batch }
      have gatheredMarked : Marked key records gathered (mark + batch.length) :=
        marked.read_new some batchUpcoming allNew rfl rfl
      have atNext : records[gathered.pos]? = Option.some rec := by
        change records[before.pos + batch.length]? = _
        rw [← List.getElem?_drop]
        exact getElem?_of_prefix_snoc upcoming
      have moved : ∃ later, mark + batch.length ≤ later ∧
          Marked key records
            { gathered with pos := gathered.pos + 1, tmp := Option.some rec } later :=
        gatheredMarked.read_known atNext old rfl rfl
      rcases moved with ⟨later, further, laterMarked⟩
      refine ⟨later, Nat.le_trans (Nat.le_add_right _ _) further, laterMarked, ?_⟩
      intro _ _
      exact marked.at_mark some batchUpcoming allNew

theorem settled_of_pending_none (pending : emitter.pending = none) :
    emitter.settled = emitter.handed := by
  unfold settled
  rw [pending]
  rfl

theorem Idle.settled (idle : Idle emitter) : emitter.settled = emitter.pos := by
  rw [settled_of_pending_none idle.2, handed_of_tmp_none idle.1]

theorem Emits.insert_cases {batch : List Record}
    (emits : Emits key records room before (.insert batch) after) :
    Idle before ∧ AllNew key before.seen batch := by
  cases emits with
  | full batch pending tmp upcoming allNew size => exact ⟨⟨tmp, pending⟩, allNew⟩
  | batched batch rec pending tmp some upcoming allNew size old => exact ⟨⟨tmp, pending⟩, allNew⟩

theorem Valid.settled_of_pending {rec : Record} (valid : Valid records emitter)
    (pending : emitter.pending = some rec) :
    emitter.tmp = none ∧ emitter.pos = emitter.settled + 1 ∧
      records[emitter.settled]? = some rec := by
  rcases valid.awaited rec pending with ⟨tmp, k, posIs, atK⟩
  have settledIs : emitter.settled = k := by
    unfold settled
    rw [handed_of_tmp_none tmp, pending, posIs]
    rfl
  rw [settledIs]
  exact ⟨tmp, posIs, atK⟩

private theorem settled_le_handed (emitter : Emitter) : emitter.settled ≤ emitter.handed :=
  Nat.sub_le _ _

theorem Emits.settled_le (emits : Emits key records room before statement after)
    (valid : before.Valid records) : before.settled ≤ after.settled := by
  have lower := settled_le_handed before
  cases emits with
  | complete rec pending =>
      have settled : settled { before with pending := none } = before.handed :=
        settled_of_pending_none rfl
      rw [settled]
      exact lower
  | deferred rec pending tmp =>
      rcases valid.handed_of_tmp tmp with ⟨posIs, _⟩
      change before.settled ≤ before.pos - 0 - 1
      omega
  | full batch pending tmp upcoming allNew size =>
      simp only [settled, handed, tmp, pending, Option.toList_none, List.length_nil, Nat.sub_zero]
      exact Nat.le_add_right _ _
  | exhausted batch pending tmp upcoming allNew size =>
      simp only [settled, handed, tmp, pending, Option.toList_none, List.length_nil, Nat.sub_zero]
      exact Nat.le_add_right _ _
  | known rec pending tmp upcoming old =>
      have handed : handed { before with pos := before.pos + 1, pending := some rec } =
          before.pos + 1 := handed_of_tmp_none tmp
      rw [handed_of_tmp_none tmp] at lower
      change before.settled ≤ Emitter.handed _ - 1
      rw [handed, Nat.add_sub_cancel]
      exact lower
  | batched batch rec pending tmp some upcoming allNew size old =>
      simp only [settled, handed, tmp, pending, Option.toList_none, Option.toList_some,
        List.length_nil, List.length_singleton, Nat.sub_zero]
      omega

end Emitter

/-! ### Statements on the table of a prefix -/

section

variable {schema : Schema} {records : List Record} {rec : Record} {k p : Nat}

private theorem newest_width {width : Nat} (wide : ∀ rec ∈ records, rec.length = width) :
    ∀ row ∈ schema.newest (records.take p), row.length = width :=
  fun row member => wide row (List.mem_of_mem_take (mem_upserts member))

private theorem mem_take {k : Nat} (atRecord : records[k]? = some rec) (before : k < p) :
    rec ∈ records.take p := by
  rw [← List.getElem?_take_of_lt before] at atRecord
  exact List.mem_of_getElem? atRecord

private theorem newest_succ (atRecord : records[k]? = some rec) :
    schema.newest (records.take (k + 1)) =
      upsert schema.keyOf updatedAt rec (schema.newest (records.take k)) := by
  rw [Emitter.take_succ_of_getElem? atRecord]
  exact upserts_snoc

/-- An update for a record that the table has had does nothing. For the next
record it does the upsert, or else it finds no row of the key. -/
theorem execute_update_prefix {width : Nat} (wide : ∀ rec ∈ records, rec.length = width)
    (atRecord : records[k]? = some rec) (had : k ≤ p) :
    ∃ later, p ≤ later ∧ later ≤ max p (k + 1) ∧
      (Statement.update rec).execute schema (schema.newest (records.take p)) =
        schema.newest (records.take later) ∧
      (later = k → schema.keyOf rec ∉ (records.take later).map schema.keyOf) := by
  have amends : (Statement.update rec).execute schema (schema.newest (records.take p)) =
      amend schema.keyOf updatedAt rec (schema.newest (records.take p)) := by
    apply execute_update
    intro row member
    rw [newest_width wide row member, wide rec (List.mem_of_getElem? atRecord)]
  rw [amends]
  rcases Nat.lt_or_eq_of_le had with again | next
  · have settles : Settles schema.keyOf updatedAt rec (schema.newest (records.take p)) :=
      upserts_settles (mem_take atRecord again)
    refine ⟨p, Nat.le_refl p, Nat.le_max_left _ _, ?_, ?_⟩
    · rw [← upsert_of_present settles.present, settles.upsert_eq]
    · intro atK
      exact absurd atK.symm (Nat.ne_of_lt again)
  · subst next
    by_cases present : schema.keyOf rec ∈ (records.take k).map schema.keyOf
    · refine ⟨k + 1, Nat.le_succ k, Nat.le_max_right _ _, ?_, ?_⟩
      · rw [newest_succ atRecord, upsert_of_present (mem_upserts_keys.mpr present)]
      · intro atK
        exact absurd atK (Nat.succ_ne_self k)
    · refine ⟨k, Nat.le_refl k, Nat.le_max_left _ _, ?_, fun _ => present⟩
      exact amend_of_absent fun inTable => present (mem_upserts_keys.mp inTable)

private theorem execute_insertWhereNotExists_prefix (atRecord : records[k]? = some rec)
    (had : k ≤ p) (absent : p = k → schema.keyOf rec ∉ (records.take p).map schema.keyOf) :
    ∃ later, p ≤ later ∧ k + 1 ≤ later ∧ later ≤ max p (k + 1) ∧
      (Statement.insertWhereNotExists rec).execute schema (schema.newest (records.take p)) =
        schema.newest (records.take later) := by
  rw [execute_insertWhereNotExists]
  rcases Nat.lt_or_eq_of_le had with again | next
  · refine ⟨p, Nat.le_refl p, again, Nat.le_max_left _ _, ?_⟩
    apply complete_of_present
    rw [mem_upserts_keys]
    exact List.mem_map_of_mem (mem_take atRecord again)
  · subst next
    refine ⟨k + 1, Nat.le_succ k, Nat.le_refl _, Nat.le_max_right _ _, ?_⟩
    have new : schema.keyOf rec ∉ (schema.newest (records.take k)).map schema.keyOf :=
      fun inTable => absent rfl (mem_upserts_keys.mp inTable)
    rw [newest_succ atRecord, upsert_of_absent new, complete_of_absent new]

private theorem execute_insert_prefix {batch : List Record} (upcoming : batch <+: records.drop p)
    (distinct : (batch.map schema.keyOf).Nodup)
    (absent : ∀ rec ∈ batch, schema.keyOf rec ∉ (records.take p).map schema.keyOf) :
    (Statement.insert batch).execute schema (schema.newest (records.take p)) =
      schema.newest (records.take (p + batch.length)) := by
  rw [Emitter.take_add_of_prefix upcoming]
  exact (upserts_append_new distinct absent).symm

private theorem recordKey_of_keyOf {runtime : Runtime} {first second : Record}
    (same : schema.keyOf first = schema.keyOf second) :
    recordKey runtime schema first = recordKey runtime schema second :=
  congrArg runtime.xxh3 same

theorem keyOf_absent {runtime : Runtime} {seen : Finset UInt64} {batch : List Record}
    (allNew : AllNew (recordKey runtime schema) seen batch)
    (covered : keysOf (recordKey runtime schema) (records.take p) ⊆ seen) :
    (batch.map schema.keyOf).Nodup ∧
      ∀ rec ∈ batch, schema.keyOf rec ∉ (records.take p).map schema.keyOf := by
  constructor
  · apply List.Nodup.of_map runtime.xxh3
    rw [List.map_map]
    exact allNew.distinct
  · intro rec member old
    rcases List.mem_map.mp old with ⟨earlier, had, same⟩
    apply allNew.new rec member
    apply covered
    rw [mem_keysOf]
    exact ⟨earlier, had, recordKey_of_keyOf same⟩

/-! ### The log behind the emitter -/

variable {runtime : Runtime} {room : Nat} {log : List Statement} {statement : Statement}
  {emitter before after : Emitter} {mark : Nat}

theorem Carries.snoc (carries : Carries log rec) (statement : Statement) :
    Carries (log ++ [statement]) rec := by
  rcases carries with ⟨batch, returned, member⟩ | ⟨updated, completed⟩
  · exact Or.inl ⟨batch, List.mem_append_left _ returned, member⟩
  · exact Or.inr ⟨List.mem_append_left _ updated, List.mem_append_left _ completed⟩

/-- The emitter's statements have been executed, on a table that is the one of
the first `p` records. Behind an update that found no row, `p` still leaves
out the record that waits for its insert. -/
structure Tracks (schema : Schema) (records : List Record) (log : List Statement)
    (emitter : Emitter) (p : Nat) : Prop where
  settled : emitter.settled ≤ p
  table : executeAll schema log = schema.newest (records.take p)
  updated : ∀ rec, emitter.pending = some rec → .update rec ∈ log
  absent : ∀ rec, emitter.pending = some rec → p = emitter.settled →
    schema.keyOf rec ∉ (records.take p).map schema.keyOf
  carried : (records.take emitter.handed).Sublist (log.flatMap Statement.carried)
  complete : ∀ rec ∈ records.take emitter.settled, Carries log rec

theorem Tracks.carries (tracks : Tracks schema records log before p)
    (emits : Emitter.Emits (recordKey runtime schema) records room before statement after)
    (valid : before.Valid records) (more : statement ≠ .empty) :
    (records.take after.handed).Sublist ((log ++ [statement]).flatMap Statement.carried) := by
  rw [emits.carries valid more, List.flatMap_append, List.flatMap_singleton]
  exact tracks.carried.append (List.Sublist.refl _)

theorem Tracks.execute_update (tracks : Tracks schema records log before p) {width : Nat}
    (wide : ∀ rec ∈ records, rec.length = width)
    (atRecord : records[before.settled]? = some rec) (pending : after.pending = some rec)
    (settled : after.settled = before.settled) (read : before.settled + 1 ≤ after.pos)
    (carried : (records.take after.handed).Sublist
      ((log ++ [Statement.update rec]).flatMap Statement.carried)) :
    ∃ later, p ≤ later ∧ later ≤ max p after.pos ∧
      Tracks schema records (log ++ [.update rec]) after later := by
  rcases execute_update_prefix wide atRecord tracks.settled with
    ⟨later, further, bounded, executed, absent⟩
  refine ⟨later, further, by omega, ?_⟩
  constructor
  · rw [settled]
    exact Nat.le_trans tracks.settled further
  · rw [executeAll_snoc, tracks.table, executed]
  · intro other awaited
    rw [pending] at awaited
    cases awaited
    exact List.mem_append_right _ (List.mem_singleton_self _)
  · intro other awaited atSettled
    rw [pending] at awaited
    cases awaited
    exact absent (atSettled.trans settled)
  · exact carried
  · intro other member
    rw [settled] at member
    exact (tracks.complete other member).snoc _

private theorem Tracks.execute_batch (tracks : Tracks schema records log before p)
    (idle : Emitter.Idle before) {batch : List Record}
    (atMark : before.pos = p) (upcoming : batch <+: records.drop before.pos)
    (allNew : AllNew (recordKey runtime schema) before.seen batch)
    (covered : keysOf (recordKey runtime schema) (records.take p) ⊆ before.seen)
    (pending : after.pending = none) (handed : after.handed = before.pos + batch.length)
    (carried : (records.take after.handed).Sublist
      ((log ++ [Statement.insert batch]).flatMap Statement.carried)) :
    Tracks schema records (log ++ [.insert batch]) after (p + batch.length) := by
  have settled := Emitter.settled_of_pending_none pending
  have beforeSettled := idle.settled
  rcases keyOf_absent allNew covered with ⟨distinct, absent⟩
  have taken := Emitter.take_add_of_prefix upcoming
  rw [atMark] at upcoming handed taken
  constructor
  · rw [settled, handed]
  · rw [executeAll_snoc, tracks.table]
    exact execute_insert_prefix upcoming distinct absent
  · intro other awaited
    rw [pending] at awaited
    cases awaited
  · intro other awaited
    rw [pending] at awaited
    cases awaited
  · exact carried
  · intro other member
    rw [settled, handed, taken] at member
    rcases List.mem_append.mp member with earlier | inBatch
    · rw [← atMark, ← beforeSettled] at earlier
      exact (tracks.complete other earlier).snoc _
    · exact Or.inl ⟨batch, List.mem_append_right _ (List.mem_singleton_self _), inBatch⟩

/-- Executing the emitter's next statement keeps the log behind it. -/
theorem Tracks.execute (tracks : Tracks schema records log before p) {width : Nat}
    (wide : ∀ rec ∈ records, rec.length = width)
    (emits : Emitter.Emits (recordKey runtime schema) records room before statement after)
    (valid : before.Valid records) (more : statement ≠ .empty)
    (covered : keysOf (recordKey runtime schema) (records.take p) ⊆ before.seen)
    (atBatch : ∀ batch, statement = .insert batch → before.pos = p) :
    ∃ later, p ≤ later ∧ later ≤ max p after.pos ∧
      Tracks schema records (log ++ [statement]) after later := by
  have carried := tracks.carries emits valid more
  cases emits with
  | complete rec pending =>
      rcases valid.settled_of_pending pending with ⟨tmp, posIs, atRecord⟩
      rcases execute_insertWhereNotExists_prefix atRecord tracks.settled
          (tracks.absent rec pending) with ⟨later, further, reached, bounded, executed⟩
      have settled : Emitter.settled { before with pending := none } = before.settled + 1 := by
        rw [Emitter.settled_of_pending_none rfl]
        exact (Emitter.handed_of_tmp_none tmp).trans posIs
      refine ⟨later, further, ?_, ?_⟩
      · change later ≤ max p before.pos
        omega
      · constructor
        · rw [settled]
          exact reached
        · rw [executeAll_snoc, tracks.table, executed]
        · intro other impossible
          cases impossible
        · intro other impossible
          cases impossible
        · exact carried
        · intro other member
          rw [settled, Emitter.take_succ_of_getElem? atRecord] at member
          rcases List.mem_append.mp member with earlier | isLast
          · exact (tracks.complete other earlier).snoc _
          · rw [List.mem_singleton.mp isLast]
            refine Or.inr ⟨?_, ?_⟩
            · exact List.mem_append_left _ (tracks.updated rec pending)
            · exact List.mem_append_right _ (List.mem_singleton_self _)
  | deferred rec pending tmp =>
      rcases valid.handed_of_tmp tmp with ⟨posIs, atRecord⟩
      rw [← Emitter.settled_of_pending_none pending] at posIs atRecord
      have settled :
          Emitter.settled { before with tmp := none, pending := some rec } = before.settled := by
        change before.pos - 0 - 1 = before.settled
        omega
      exact tracks.execute_update wide atRecord rfl settled (Nat.le_of_eq posIs.symm) carried
  | full batch pending tmp upcoming allNew size =>
      have atMark := atBatch batch rfl
      refine ⟨p + batch.length, Nat.le_add_right _ _, ?_, ?_⟩
      · change _ ≤ max p (before.pos + batch.length)
        omega
      · exact tracks.execute_batch ⟨tmp, pending⟩ atMark upcoming allNew covered pending
          (Emitter.handed_of_tmp_none tmp) carried
  | exhausted batch pending tmp upcoming allNew size => exact absurd rfl more
  | known rec pending tmp upcoming old =>
      have beforeSettled := Emitter.Idle.settled ⟨tmp, pending⟩
      rw [← beforeSettled] at upcoming
      have settled :
          Emitter.settled { before with pos := before.pos + 1, pending := some rec } =
            before.settled := by
        have handed :
            Emitter.handed { before with pos := before.pos + 1, pending := some rec } =
              before.pos + 1 := Emitter.handed_of_tmp_none tmp
        change Emitter.handed _ - 1 = before.settled
        rw [handed, beforeSettled, Nat.add_sub_cancel]
      refine tracks.execute_update wide upcoming rfl settled ?_ carried
      change before.settled + 1 ≤ before.pos + 1
      omega
  | batched batch rec pending tmp some upcoming allNew size old =>
      have atMark := atBatch batch rfl
      refine ⟨p + batch.length, Nat.le_add_right _ _, ?_, ?_⟩
      · change _ ≤ max p (before.pos + batch.length + 1)
        omega
      · exact tracks.execute_batch ⟨tmp, pending⟩ atMark
          ((List.prefix_append batch [rec]).trans upcoming) allNew covered pending rfl carried

theorem Tracks.start {c : Nat} (reached : c ≤ p)
    (table : executeAll schema log = schema.newest (records.take p))
    (carried : (records.take c).Sublist (log.flatMap Statement.carried))
    (complete : ∀ rec ∈ records.take c, Carries log rec) (seen : Finset UInt64) :
    Tracks schema records log (Emitter.start c seen) p := by
  constructor
  · exact reached
  · exact table
  · intro rec impossible
    cases impossible
  · intro rec impossible
    cases impossible
  · exact carried
  · exact complete

end

end ChangeSql
