/-
Flat hash tables that a refused allocation has left behind.

A table can throw in the middle of an insertion, and then an element may sit in
the slot of another one. Whoever opens the segment next goes on with the table
as it is. It can miss elements that it holds, but it stays within its slots,
loses nothing and is never more than half full.
-/

import ChangeSql.FlatHashRefinement
import ChangeSql.Library.LooseSlots

namespace ChangeSql

open RobinHood FlatHash

namespace FlatHashTable

variable {α κ : Type} {allocator : Allocator} {key : α → κ} {hash : κ → UInt64}
  {table after : FlatHashTable α} {bits : Nat} {item : α}

/-- A table of 2^bits buckets whose elements may be in each other's slots. -/
structure Rough (bits : Nat) (table : FlatHashTable α) : Prop where
  some : 1 ≤ bits
  small : bits < 60
  buckets : table.numSlotsMinusOne + 1 = 2 ^ bits
  shift : table.shift = 64 - bits
  lookups : 0 < table.maxLookups
  loose : Loose (2 ^ bits) table.maxLookups 0 table.entries
  count : table.numElements = table.content.length
  load : 2 * table.numElements ≤ 2 ^ bits

private theorem arranged_loose {home : α → Nat} {homes limit reach pos : Nat}
    {slots : List (Slot α)} (arranged : Arranged home limit reach pos slots)
    (inside : ∀ item, home item < homes) (ends : homes + limit ≤ pos + slots.length) :
    Loose homes limit pos slots := by
  induction arranged with
  | stop => exact .stop ends
  | free rest ih =>
      rw [List.length_cons] at ends
      exact .free (ih (by omega))
  | @taken reach pos distance item slots placed within short rest ih =>
      rw [List.length_cons] at ends
      have low := inside item
      exact .taken short (by omega) (ih (by omega))

theorem Proper.rough (proper : Proper allocator key hash table bits) : Rough bits table :=
  { some := proper.some
    small := proper.bits_lt
    buckets := proper.buckets
    shift := proper.shift
    lookups := by
      rw [proper.lookups]
      exact Nat.lt_of_lt_of_le (by decide) (le_max_left _ _)
    loose := by
      apply arranged_loose proper.arranged fun item => proper.bucket_lt (key item)
      rw [proper.length, Nat.zero_add]
    count := proper.count
    load := proper.load }

theorem Rough.bucketCount_eq (rough : Rough bits table) : table.bucketCount = 2 ^ bits := by
  have several := Nat.pow_le_pow_right Nat.two_pos rough.some
  have buckets := rough.buckets
  unfold bucketCount
  rw [if_neg (by omega), buckets]

theorem Rough.bucket_lt (rough : Rough bits table) (k : κ) : table.bucket hash k < 2 ^ bits := by
  have small := rough.small
  unfold bucket
  rw [rough.shift]
  exact indexForHash_lt (by omega) _

inductive RoughLookup (key : α → κ) (bits index : Nat) (table : FlatHashTable α) (k : κ) :
    Search → Prop where
  | found {passed : Nat} (here : ∃ item ∈ table.content, key item = k) :
      RoughLookup key bits index table k (.found passed)
  | missed {passed : Nat} (behind : List (Slot α))
      (behindIs : table.entries.drop (index + passed) = behind)
      (bounded : passed ≤ table.maxLookups)
      (closer : ∀ other item later, behind = .taken other item :: later → other < passed)
      (loose : Loose (2 ^ bits) table.maxLookups (index + passed) behind)
      (exchange : ∀ others, Loose (2 ^ bits) table.maxLookups (index + passed) others →
        Loose (2 ^ bits) table.maxLookups 0 (table.entries.take (index + passed) ++ others)) :
      RoughLookup key bits index table k (.missed passed)

section

variable [DecidableEq κ]

theorem Rough.search (rough : Rough bits table) (key : α → κ) (k : κ) {index : Nat}
    (low : index < 2 ^ bits) :
    RoughLookup key bits index table k (search key k 0 (table.entries.drop index)) := by
  have whole := List.take_append_drop index table.entries
  have loose := rough.loose
  have length := loose.length
  rw [← whole] at loose
  have taken : (table.entries.take index).length = index := List.length_take_of_le (by omega)
  have some : table.entries.drop index ≠ [] := by
    apply List.ne_nil_of_length_pos
    rw [List.length_drop]
    omega
  rcases loose.split some with ⟨behind, exchange⟩
  rw [taken, Nat.zero_add] at behind exchange
  have searched : LooseSearched key (2 ^ bits) table.maxLookups index k _ 0 _ :=
    behind.search rough.lookups (Nat.zero_le _) low
  generalize RobinHood.search key k 0 (table.entries.drop index) = result at searched
  cases searched with
  | found here =>
      rcases here with ⟨item, member, same⟩
      refine .found ⟨item, ?_, same⟩
      unfold content
      rw [← whole, items_append]
      exact List.mem_append_right _ member
  | @missed front later split bounded closer looseLater exchangeLater =>
      have frontIs : table.entries.take (index + front.length) =
          table.entries.take index ++ front := by
        rw [List.take_add, split, List.take_left]
      rw [Nat.zero_add] at bounded closer
      refine .missed later ?_ bounded closer looseLater ?_
      · rw [← List.drop_drop, split, List.drop_left]
      · intro others looseOthers
        rw [frontIs, List.append_assoc]
        exact exchange _ (exchangeLater others looseOthers)

theorem Rough.find (rough : Rough bits table) (hash : κ → UInt64) (key : α → κ) (k : κ) :
    (∃ position, FlatHashTable.find hash key k table = .ok (Option.some position) ∧
        ∃ item ∈ table.content, key item = k) ∨
      FlatHashTable.find hash key k table = .ok none := by
  have low : table.bucket hash k < 2 ^ bits := rough.bucket_lt k
  have lookup := rough.search key k low
  unfold FlatHashTable.find
  dsimp only
  generalize RobinHood.search key k 0 (table.entries.drop (table.bucket hash k)) = result at lookup ⊢
  cases lookup with
  | found here => exact Or.inl ⟨_, rfl, here⟩
  | missed behind behindIs bounded closer loose exchange => exact Or.inr rfl

end

/-! ### Emplacing -/

theorem Rough.replaced (rough : Rough bits table) {entries : List (Slot α)}
    (loose : Loose (2 ^ bits) table.maxLookups 0 entries)
    (content : (items entries).Perm table.content) :
    Rough bits { table with entries := entries } :=
  { rough with
    loose := loose
    count := by
      rw [rough.count]
      exact content.length_eq.symm }

theorem Rough.added (rough : Rough bits table) {entries : List (Slot α)}
    (loose : Loose (2 ^ bits) table.maxLookups 0 entries)
    (content : (items entries).Perm (item :: table.content))
    (light : 2 * (table.numElements + 1) ≤ table.numSlotsMinusOne + 1) :
    Rough bits
      { table with
        entries := entries
        numElements := table.numElements + 1 } :=
  { rough with
    loose := loose
    count := by
      rw [rough.count]
      exact content.length_eq.symm
    load := by
      rw [← rough.buckets]
      exact light }

private theorem Rough.grow_refused
    {emplace : FlatHashTable α → α → Except (Failure α) (Emplacement α)}
    (rough : Rough bits table) (full : allocator.grants (slotsOf (bits + 1)) = false) :
    grow allocator emplace table = .error (.badAlloc (slotsOf (bits + 1)) table) := by
  have several := Nat.pow_le_pow_right Nat.two_pos rough.some
  have small := rough.small
  have load := rough.load
  have double : 2 ^ (bits + 1) = 2 * 2 ^ bits := Nat.pow_succ'
  have sizeIs : nextSizeOver (2 ^ (bits + 1)) = 2 ^ (bits + 1) := by
    unfold nextSizeOver
    rw [nextPowerOfTwo_eq (Nat.two_pow_pos _).ne' (Nat.pow_le_pow_right Nat.two_pos (by omega)),
      Nat.clog_pow _ _ Nat.one_lt_two]
    exact max_eq_right (by omega)
  unfold grow
  rw [rough.bucketCount_eq, ← double, max_eq_right (by omega)]
  unfold rehash
  dsimp only
  rw [max_eq_left (by omega), if_neg (by omega), sizeIs, rough.bucketCount_eq, if_neg (by omega),
    computeMaxLookups_two_pow (by omega)]
  exact if_neg (Bool.eq_false_iff.mp full)

/-- What an emplacement does to a table that cannot grow. -/
inductive RoughEmplaced (key : α → κ) (bits : Nat) (table : FlatHashTable α) (item : α) :
    Except (Failure α) (Emplacement α) → Prop where
  | ok {after : FlatHashTable α} {position : Nat} {isNew : Bool} (rough : Rough bits after)
      (kept : table.content ⊆ after.content) (here : ∃ other ∈ after.content, key other = key item) :
      RoughEmplaced key bits table item (.ok (after, position, isNew))
  | thrown {left : FlatHashTable α} (rough : Rough bits left)
      (kept : table.content ⊆ left.content) :
      RoughEmplaced key bits table item (.error (.badAlloc (slotsOf (bits + 1)) left))

theorem RoughEmplaced.added {entries : List (Slot α)} {position : Nat} (rough : Rough bits table)
    (loose : Loose (2 ^ bits) table.maxLookups 0 entries)
    (content : (items entries).Perm (item :: table.content))
    (light : 2 * (table.numElements + 1) ≤ table.numSlotsMinusOne + 1) :
    RoughEmplaced key bits table item
      (.ok ({ table with
        entries := entries
        numElements := table.numElements + 1 }, position, true)) := by
  refine .ok (rough.added loose content light) ?_ ⟨item, ?_, rfl⟩
  · intro other member
    exact content.symm.subset (List.mem_cons_of_mem item member)
  · exact content.symm.subset List.mem_cons_self

theorem Rough.emplaceNewKey {emplace : FlatHashTable α → α → Except (Failure α) (Emplacement α)}
    (rough : Rough bits table) (full : allocator.grants (slotsOf (bits + 1)) = false)
    {passed index : Nat} (low : index < 2 ^ bits)
    (lookup : RoughLookup key bits index table (key item) (.missed passed)) :
    RoughEmplaced key bits table item
      (emplaceNewKey allocator emplace passed (index + passed) item table) := by
  cases lookup with
  | missed behind behindIs bounded closer loose exchange =>
  unfold FlatHashTable.emplaceNewKey
  split
  · rw [rough.grow_refused full]
    exact .thrown rough fun _ member => member
  · rename_i notFull
    rw [not_or, not_or, Nat.not_lt] at notFull
    rcases notFull with ⟨_, notFar, light⟩
    have short : passed < table.maxLookups := by omega
    have whole := List.take_append_drop (index + passed) table.entries
    rw [behindIs] at whole ⊢
    generalize table.entries.take (index + passed) = front at whole exchange ⊢
    have pushed : LoosePushed (2 ^ bits) _ _ behind item (push table.maxLookups passed item behind) :=
      loose.push short (Nat.add_lt_add_right low passed)
    have contentIs : table.content = items front ++ items behind := by
      unfold content
      rw [← whole, items_append]
    have contentOf {slots : List (Slot α)} {rest : List α} (perm : (items slots).Perm rest) :
        (items (front ++ slots)).Perm (items front ++ rest) := by
      rw [items_append]
      exact perm.append_left _
    have more {slots : List (Slot α)} (perm : (items slots).Perm (item :: items behind)) :
        (items (front ++ slots)).Perm (item :: table.content) := by
      rw [contentIs]
      exact (contentOf perm).trans List.perm_middle
    cases behind with
    | nil => cases loose
    | cons slot slots =>
        cases slot with
        | stop => cases pushed
        | free =>
            cases pushed with
            | settled looseOthers perm =>
                exact .added rough (exchange _ looseOthers) (more perm) light
        | taken other moved =>
            rw [push, if_pos (closer other moved slots rfl)] at pushed
            dsimp only
            generalize push table.maxLookups (other + 1) moved slots = result at pushed ⊢
            cases result with
            | astray => cases pushed
            | settled slots =>
                cases pushed with
                | settled looseOthers perm =>
                    exact .added rough (exchange _ looseOthers) (more perm) light
            | crowded slots left =>
                cases pushed with
                | crowded looseOthers perm =>
                    cases looseOthers with
                    | taken short near looseRest =>
                        have rest := ((List.Perm.swap left item _).trans perm).cons_inv
                        have same : (items (front ++ .taken passed left :: slots)).Perm
                            table.content := by
                          rw [contentIs]
                          exact contentOf rest
                        have replaced := rough.replaced (exchange _ (.taken short near looseRest)) same
                        dsimp only
                        rw [replaced.grow_refused full]
                        exact .thrown replaced same.symm.subset

theorem Rough.emplace [DecidableEq κ] (rough : Rough bits table)
    (full : allocator.grants (slotsOf (bits + 1)) = false) (hash : κ → UInt64) (key : α → κ)
    (item : α) : RoughEmplaced key bits table item (emplace hash key allocator table item) := by
  have low : table.bucket hash (key item) < 2 ^ bits := rough.bucket_lt (key item)
  have lookup := rough.search key (key item) low
  unfold FlatHashTable.emplace
  rw [emplaceWithin]
  generalize RobinHood.search key (key item) 0
    (table.entries.drop (table.bucket hash (key item))) = result at lookup ⊢
  cases result with
  | astray => cases lookup
  | missed passed => exact rough.emplaceNewKey full low lookup
  | found passed =>
      cases lookup with
      | found here => exact .ok rough (fun _ member => member) here

end FlatHashTable

end ChangeSql
