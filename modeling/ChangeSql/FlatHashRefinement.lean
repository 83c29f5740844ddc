/-
Flat hash sets and maps seen from outside.

A set is a table whose elements are their own keys, a map is a table of pairs.
In any sequence of calls a set answers like a finite set and a map like the
list of entries that `parse_ddl` is modelled with. A call can fail only where it
adds an element or reserves, and only because a table is refused that it needs
for as many elements as there are.
-/

import ChangeSql.Ddl
import ChangeSql.FlatHashContent
import ChangeSql.Library.Refinement
import Mathlib.Data.Finset.Card
import Mathlib.Data.Finset.Dedup

namespace ChangeSql

open RobinHood Refinement

namespace FlatHashTable

variable {κ : Type} [DecidableEq κ] (hash : κ → UInt64) (allocator : FlatHash.Allocator)

/-! ### Sets -/

inductive SetCall (κ : Type) where
  | reserve (numElements : Nat)
  | insert (k : κ)
  | find (k : κ)
  | size
  deriving DecidableEq, Repr

inductive SetAnswer where
  | done
  | truth (value : Bool)
  | count (value : Nat)
  deriving DecidableEq, Repr

/-- `insert` answers whether the element is new, `find` whether it is there. -/
def setStep (table : FlatHashTable κ) :
    SetCall κ → Except (Failure κ) (SetAnswer × FlatHashTable κ)
  | .reserve numElements => do
      let table ← reserve hash id allocator numElements table
      return (.done, table)
  | .insert k => do
      let (table, _, isNew) ← emplace hash id allocator table k
      return (.truth isNew, table)
  | .find k => do
      let found ← (find hash id k table).mapError Failure.fault
      return (.truth found.isSome, table)
  | .size => .ok (.count table.numElements, table)

def setSpec (set : Finset κ) : SetCall κ → SetAnswer × Finset κ
  | .reserve _ => (.done, set)
  | .insert k => (.truth (k ∉ set), insert k set)
  | .find k => (.truth (k ∈ set), set)
  | .size => (.count set.card, set)

/-- The buckets to reserve are computed without an overflow. -/
def SetCall.small : SetCall κ → Prop
  | .reserve numElements => numElements ≤ 2 ^ 62
  | _ => True

def SetCall.grows (set : Finset κ) : SetCall κ → Prop
  | .reserve numElements => set.card < numElements
  | .insert k => k ∉ set
  | _ => False

def SetCall.most (set : Finset κ) : SetCall κ → Nat
  | .reserve numElements => max (Nat.clog 2 (2 * numElements)) (set.card + 2)
  | _ => set.card + 2

/-- A table is refused that the call may ask for. -/
def SetCall.Fails (allocator : FlatHash.Allocator) (set : Finset κ) (call : SetCall κ)
    (failure : Failure κ) : Prop :=
  call.grows set ∧ Refused allocator (call.most set) failure

def SetCall.Granted (allocator : FlatHash.Allocator) (set : Finset κ) (call : SetCall κ) : Prop :=
  ∀ bits ≤ call.most set, allocator.grants (slotsOf bits) = true

structure HoldsSet (allocator : FlatHash.Allocator) (hash : κ → UInt64) (set : Finset κ)
    (table : FlatHashTable κ) : Prop where
  wellFormed : WellFormed allocator id hash table
  set : set = table.content.toFinset

variable {hash allocator} {set : Finset κ} {table : FlatHashTable κ}

theorem not_refused {α : Type} {most : Nat} {failure : Failure α}
    (granted : ∀ bits ≤ most, allocator.grants (slotsOf bits) = true) :
    ¬ Refused allocator most failure := by
  rintro ⟨few, refused⟩
  rw [granted _ few] at refused
  cases refused

theorem HoldsSet.empty : HoldsSet allocator hash ∅ FlatHashTable.empty :=
  ⟨Or.inl rfl, rfl⟩

theorem HoldsSet.card (holds : HoldsSet allocator hash set table) :
    table.numElements = set.card := by
  have distinct := holds.wellFormed.distinct
  rw [List.map_id] at distinct
  rw [holds.wellFormed.count, holds.set, List.toFinset_card_of_nodup distinct]

theorem HoldsSet.load (holds : HoldsSet allocator hash set table) :
    2 * set.card ≤ table.bucketCount := by
  rw [← holds.card]
  rcases holds.wellFormed with rfl | ⟨bits, proper⟩
  · exact Nat.le_refl 0
  · rw [proper.bucketCount_eq]
    exact proper.load

theorem HoldsSet.find (holds : HoldsSet allocator hash set table) (k : κ) :
    ∃ found, FlatHashTable.find hash id k table = .ok found ∧ found.isSome = decide (k ∈ set) := by
  rcases holds.wellFormed.find k with ⟨position, distance, item, found, here, same⟩ |
    ⟨missed, absent⟩
  · have member := mem_items_of_getElem? here
    refine ⟨some position, found, ?_⟩
    rw [holds.set]
    exact (decide_eq_true (List.mem_toFinset.mpr (same ▸ member))).symm
  · refine ⟨none, missed, ?_⟩
    rw [holds.set]
    refine (decide_eq_false ?_).symm
    intro member
    exact absent k (List.mem_toFinset.mp member) rfl

private theorem bucketCount_mono {α : Type} {table after : FlatHashTable α}
    (grown : table.numSlotsMinusOne ≤ after.numSlotsMinusOne) :
    table.bucketCount ≤ after.bucketCount := by
  unfold bucketCount
  split <;> split <;> omega

theorem HoldsSet.insert (holds : HoldsSet allocator hash set table) (k : κ) :
    OrThrows allocator (set.card + 2) (emplace hash id allocator table k) fun result =>
      HoldsSet allocator hash (insert k set) result.1 ∧ result.2.2 = decide (k ∉ set) ∧
        table.bucketCount ≤ result.1.bucketCount := by
  rw [← holds.card]
  rcases emplace_emplaced holds.wellFormed k with thrown | ⟨result, resultIs, emplaced⟩
  · exact Or.inl thrown
  · refine Or.inr ⟨result, resultIs, ?_⟩
    cases emplaced with
    | @present _ _ other here same =>
        change other = k at same
        subst same
        have old : other ∈ set := by
          rw [holds.set]
          exact List.mem_toFinset.mpr (mem_items_of_getElem? here)
        refine ⟨?_, (decide_eq_false (not_not_intro old)).symm, Nat.le_refl _⟩
        rw [Finset.insert_eq_of_mem old]
        exact holds
    | @added after bits _ _ proper absent here content grown =>
        have new : k ∉ set := by
          rw [holds.set]
          intro member
          exact absent k (List.mem_toFinset.mp member) rfl
        refine ⟨⟨Or.inr ⟨bits, proper⟩, ?_⟩, (decide_eq_true new).symm, bucketCount_mono grown⟩
        rw [List.toFinset_eq_of_perm _ _ content, List.toFinset_cons, holds.set]

/-- An element that is there already asks for nothing. -/
theorem HoldsSet.insert_present (holds : HoldsSet allocator hash set table) {k : κ}
    (member : k ∈ set) : ∃ position, emplace hash id allocator table k =
      .ok (table, position, false) := by
  rw [holds.set, List.mem_toFinset] at member
  exact holds.wellFormed.emplace_present member rfl

theorem HoldsSet.reserve (holds : HoldsSet allocator hash set table) {numElements : Nat}
    (small : numElements ≤ 2 ^ 62) :
    OrThrows allocator (max (Nat.clog 2 (2 * numElements)) (set.card + 2))
      (reserve hash id allocator numElements table) fun after =>
        HoldsSet allocator hash set after ∧ 2 * numElements ≤ after.bucketCount := by
  have roomy : 2 * numElements ≤ 2 ^ max (Nat.clog 2 (2 * numElements)) (set.card + 2) :=
    (Nat.le_pow_clog Nat.one_lt_two _).trans (Nat.pow_le_pow_right Nat.two_pos (le_max_left _ _))
  rw [← holds.card] at roomy ⊢
  rcases reserve_moved holds.wellFormed small roomy (le_max_right _ _) with
    thrown | ⟨after, afterIs, wellFormed, content, large⟩
  · exact Or.inl thrown
  · refine Or.inr ⟨after, afterIs, ⟨wellFormed, ?_⟩, large⟩
    rw [List.toFinset_eq_of_perm _ _ content]
    exact holds.set

private theorem HoldsSet.reserve_small (holds : HoldsSet allocator hash set table)
    {numElements : Nat} (small : numElements ≤ set.card) :
    FlatHashTable.reserve hash id allocator numElements table = .ok table := by
  have load := holds.load
  unfold FlatHashTable.reserve FlatHash.numBucketsForReserve
  exact if_neg (by omega)

theorem emplaceAll_append {α : Type}
    {emplace : FlatHashTable α → α → Except (Failure α) (Emplacement α)} (first second : List α)
    (table : FlatHashTable α) :
    emplaceAll emplace (first ++ second) table =
      emplaceAll emplace first table >>= emplaceAll emplace second := by
  induction first generalizing table with
  | nil => rfl
  | cons item first ih =>
      rw [List.cons_append, emplaceAll, emplaceAll, bind_assoc]
      congr 1
      funext result
      exact ih result.1

theorem HoldsSet.takesIn_present (holds : HoldsSet allocator hash set table) {items : List κ}
    (members : ∀ k ∈ items, k ∈ set) :
    emplaceAll (emplace hash id allocator) items table = .ok table := by
  induction items with
  | nil => rfl
  | cons k items ih =>
      rcases holds.insert_present (members k List.mem_cons_self) with ⟨position, present⟩
      rw [emplaceAll, present]
      exact ih fun other member => members other (List.mem_cons_of_mem k member)

theorem HoldsSet.takesIn (holds : HoldsSet allocator hash set table) (items : List κ) :
    OrThrows allocator ((set ∪ items.toFinset).card + 2)
      (emplaceAll (emplace hash id allocator) items table) fun after =>
        HoldsSet allocator hash (set ∪ items.toFinset) after ∧
          table.bucketCount ≤ after.bucketCount := by
  induction items generalizing set table with
  | nil =>
      refine Or.inr ⟨table, rfl, ?_, Nat.le_refl _⟩
      rw [List.toFinset_nil, Finset.union_empty]
      exact holds
  | cons k items ih =>
      have all : set ∪ (k :: items).toFinset = Insert.insert k set ∪ items.toFinset := by
        rw [List.toFinset_cons, Finset.union_insert, Finset.insert_union]
      have few : set.card ≤ (set ∪ (k :: items).toFinset).card :=
        Finset.card_le_card Finset.subset_union_left
      refine ((holds.insert k).mono (Nat.add_le_add_right few 2)).bind ?_
      intro result inserted
      rw [all]
      rcases ih inserted.1 with thrown | ⟨after, afterIs, afterHolds, grown⟩
      · exact Or.inl thrown
      · exact Or.inr ⟨after, afterIs, afterHolds, Nat.le_trans inserted.2.2 grown⟩

private theorem setStep_refines :
    RefinesUnless (SetCall.Fails allocator) (setStep hash allocator) (setSpec (κ := κ))
      (fun _ call => call.small) (HoldsSet allocator hash) := by
  intro set table call holds allowed
  cases call with
  | reserve numElements =>
      rcases holds.reserve allowed with ⟨failure, thrown, refused⟩ | ⟨after, afterIs, afterHolds, _⟩
      · refine Or.inl ⟨failure, ?_, ?_, refused⟩
        · rw [setStep, thrown]
          rfl
        · by_contra small
          rw [holds.reserve_small (Nat.not_lt.mp small)] at thrown
          cases thrown
      · refine Or.inr ⟨after, ?_, afterHolds⟩
        rw [setStep, afterIs]
        rfl
  | insert k =>
      rcases holds.insert k with
        ⟨failure, thrown, refused⟩ | ⟨result, resultIs, afterHolds, isNew, _⟩
      · refine Or.inl ⟨failure, ?_, ?_, refused⟩
        · rw [setStep, thrown]
          rfl
        · intro member
          rcases holds.insert_present member with ⟨position, present⟩
          rw [present] at thrown
          cases thrown
      · refine Or.inr ⟨result.1, ?_, afterHolds⟩
        rw [setStep, resultIs]
        change Except.ok (SetAnswer.truth result.2.2, result.1) = _
        rw [isNew]
        rfl
  | find k =>
      rcases holds.find k with ⟨found, foundIs, isThere⟩
      refine Or.inr ⟨table, ?_, holds⟩
      rw [setStep, foundIs]
      change Except.ok (SetAnswer.truth found.isSome, table) = _
      rw [isThere]
      rfl
  | size =>
      refine Or.inr ⟨table, ?_, holds⟩
      rw [setStep, holds.card]
      rfl

/-- The calls have been answered, and the table is at most half full. -/
def SetAnswered (hash : κ → UInt64) (allocator : FlatHash.Allocator) (calls : List (SetCall κ)) :
    Prop :=
  ∃ final, run (setStep hash allocator) empty calls = .ok ((specRun setSpec ∅ calls).1, final) ∧
    HoldsSet allocator hash (specRun setSpec ∅ calls).2 final ∧
    2 * (specRun setSpec ∅ calls).2.card ≤ final.bucketCount

/-- A flat hash set answers every sequence of calls as a finite set does, for
any hash function, up to a call that needs a table which is refused. If none of
these is refused, it answers all calls. -/
theorem flatHashSet_refines {calls : List (SetCall κ)}
    (allowed : Allowed setSpec (fun _ call => call.small) ∅ calls) :
    (FailsAt (SetCall.Fails allocator) (setStep hash allocator) setSpec (HoldsSet allocator hash) ∅
        empty calls ∨ SetAnswered hash allocator calls) ∧
      (Allowed setSpec (fun set call => call.small ∧ call.Granted allocator set) ∅ calls →
        SetAnswered hash allocator calls) := by
  constructor
  · rcases setStep_refines.run HoldsSet.empty allowed with atCall | ⟨final, ran, holds⟩
    · exact Or.inl atCall
    · exact Or.inr ⟨final, ran, holds, holds.load⟩
  · intro granted
    have total : Refines (setStep hash allocator) setSpec
        (fun set call => call.small ∧ call.Granted allocator set) (HoldsSet allocator hash) :=
      setStep_refines.total fun _ _ _ granted fails => not_refused granted fails.2
    rcases total.run HoldsSet.empty granted with ⟨final, ran, holds⟩
    exact ⟨final, ran, holds, holds.load⟩

/-- Every element has the same home, and tables of sixteen buckets are granted,
which are more than the calls can need. -/
theorem flatHashSet_refines_collisions :
    SetAnswered (fun _ => 0)
      { grants := fun slots => decide (slots ≤ 20)
        addressable := fun _ granted => Nat.lt_of_le_of_lt (of_decide_eq_true granted) (by decide) }
      [.insert 3, .find 3, .reserve 5, .insert 4, .insert 3, .size] := by
  have granted : ∀ bits ≤ 4, decide (slotsOf bits ≤ 20) = true := by decide
  have small {set : Finset Nat} {call : SetCall Nat} (few : call.most set ≤ 4) (bits : Nat)
      (le : bits ≤ call.most set) : decide (slotsOf bits ≤ 20) = true :=
    granted bits (Nat.le_trans le few)
  refine (flatHashSet_refines ?_).2 ?_
  · exact ⟨trivial, trivial, (by decide : 5 ≤ 2 ^ 62), trivial, trivial, trivial, trivial⟩
  · exact ⟨⟨trivial, small (by decide)⟩, ⟨trivial, small (by decide)⟩,
      ⟨(by decide : 5 ≤ 2 ^ 62), small (by decide)⟩, ⟨trivial, small (by decide)⟩,
      ⟨trivial, small (by decide)⟩, ⟨trivial, small (by decide)⟩, trivial⟩

end FlatHashTable

private theorem IndexMap.set_get (map : IndexMap) (name : Bytes) (value : Nat) :
    (map.get name).2.set name value = map.set name value := by
  unfold IndexMap.get
  split
  · rfl
  · unfold IndexMap.set
    rw [List.filter_cons_of_neg (by simp), List.filter_filter]
    simp only [Bool.and_self]

namespace FlatHashTable

/-! ### Maps -/

variable {hash : Bytes → UInt64} (allocator : FlatHash.Allocator)

inductive MapCall where
  | get (name : Bytes)
  | set (name : Bytes) (index : Nat)
  | size
  deriving DecidableEq, Repr

/-- `map[name]`, which emplaces a zero for a new name. -/
def getEntry (hash : Bytes → UInt64) (table : FlatHashTable (Bytes × Nat)) (name : Bytes) :
    Except (Failure (Bytes × Nat)) (Nat × Nat × Bytes × Nat × FlatHashTable (Bytes × Nat)) := do
  let (table, position, _) ← emplace hash Prod.fst allocator table (name, 0)
  match table.entries[position]? with
  | some (.taken distance entry) => return (position, distance, entry.1, entry.2, table)
  | _ => .error (.fault .outOfBounds)

def mapStep (hash : Bytes → UInt64) (table : FlatHashTable (Bytes × Nat)) :
    MapCall → Except (Failure (Bytes × Nat)) (Option Nat × FlatHashTable (Bytes × Nat))
  | .get name => do
      let (_, _, _, index, table) ← getEntry allocator hash table name
      return (some index, table)
  | .set name index => do
      let (position, distance, first, _, table) ← getEntry allocator hash table name
      return (none,
        { table with entries := table.entries.set position (.taken distance (first, index)) })
  | .size => .ok (some table.numElements, table)

def mapSpec (map : IndexMap) : MapCall → Option Nat × IndexMap
  | .get name => (some (map.get name).1, (map.get name).2)
  | .set name index => (none, map.set name index)
  | .size => (some map.length, map)

def MapCall.grows (map : IndexMap) : MapCall → Prop
  | .get name | .set name _ => map.lookup name = none
  | .size => False

def MapCall.Fails (allocator : FlatHash.Allocator) (map : IndexMap) (call : MapCall)
    (failure : Failure (Bytes × Nat)) : Prop :=
  call.grows map ∧ Refused allocator (map.length + 2) failure

def MapCall.Granted (allocator : FlatHash.Allocator) (map : IndexMap) : Prop :=
  ∀ bits ≤ map.length + 2, allocator.grants (slotsOf bits) = true

structure HoldsMap (allocator : FlatHash.Allocator) (hash : Bytes → UInt64) (map : IndexMap)
    (table : FlatHashTable (Bytes × Nat)) : Prop where
  wellFormed : WellFormed allocator Prod.fst hash table
  content : table.content.Perm map

variable {allocator} {map : IndexMap} {table : FlatHashTable (Bytes × Nat)} {name : Bytes}

theorem HoldsMap.empty : HoldsMap allocator hash [] FlatHashTable.empty :=
  ⟨Or.inl rfl, List.Perm.nil⟩

theorem HoldsMap.distinct (holds : HoldsMap allocator hash map table) :
    (map.map Prod.fst).Nodup := by
  rw [← (holds.content.map Prod.fst).nodup_iff]
  exact holds.wellFormed.distinct

/-- `map[name]` refers to the slot of an entry, which the map has by then. -/
theorem HoldsMap.reference (holds : HoldsMap allocator hash map table) (name : Bytes) :
    OrThrows allocator (map.length + 2) (emplace hash Prod.fst allocator table (name, 0))
      fun result => HoldsMap allocator hash (map.get name).2 result.1 ∧
        ∃ distance,
          result.1.entries[result.2.1]? = some (.taken distance (name, (map.get name).1)) := by
  rw [← holds.content.length_eq, ← holds.wellFormed.count]
  rcases emplace_emplaced holds.wellFormed (name, 0) with
    thrown | ⟨result, resultIs, emplaced⟩
  · exact Or.inl thrown
  · refine Or.inr ⟨result, resultIs, ?_⟩
    cases emplaced with
    | @present _ distance other here same =>
        rcases other with ⟨first, index⟩
        change first = name at same
        subst same
        have member := holds.content.subset (mem_items_of_getElem? here)
        have found : map.lookup first = some index := by
          rcases List.append_of_mem member with ⟨before, after, split⟩
          rw [List.lookup_eq_some_iff]
          refine ⟨before, after, split, ?_⟩
          intro entry inFront
          have distinct := holds.distinct
          rw [split, List.map_append, List.nodup_append] at distinct
          rw [bne_iff_ne]
          exact (distinct.2.2 entry.1 (List.mem_map_of_mem inFront) first List.mem_cons_self).symm
        unfold IndexMap.get
        rw [found]
        exact ⟨holds, distance, here⟩
    | @added after bits _ distance proper absent here content grown =>
        have missing : map.lookup name = none := by
          rw [List.lookup_eq_none_iff]
          intro entry member
          rw [bne_iff_ne]
          exact (absent entry (holds.content.symm.subset member)).symm
        have kept : map.filter (fun entry => entry.1 ≠ name) = map := by
          rw [List.filter_eq_self]
          intro entry member
          exact decide_eq_true (absent entry (holds.content.symm.subset member))
        unfold IndexMap.get
        rw [missing]
        refine ⟨⟨Or.inr ⟨bits, proper⟩, ?_⟩, distance, here⟩
        change after.content.Perm ((name, 0) :: map.filter _)
        rw [kept]
        exact content.trans (holds.content.cons _)

theorem HoldsMap.assign (holds : HoldsMap allocator hash map table) {position distance index : Nat}
    (here : table.entries[position]? = some (.taken distance (name, index))) (value : Nat) :
    HoldsMap allocator hash (map.set name value)
      { table with entries := table.entries.set position (.taken distance (name, value)) } := by
  rcases holds.wellFormed with rfl | ⟨bits, proper⟩
  · cases mem_items_of_getElem? here
  · rcases List.getElem?_eq_some_iff.mp here with ⟨inside, slotIs⟩
    have split : table.entries = table.entries.take position ++
        .taken distance (name, index) :: table.entries.drop (position + 1) := by
      rw [← slotIs, ← List.drop_eq_getElem_cons inside, List.take_append_drop]
    rw [List.set_eq_take_append_cons_drop, if_pos inside]
    generalize table.entries.take position = front at split ⊢
    generalize table.entries.drop (position + 1) = behind at split ⊢
    refine ⟨Or.inr ⟨bits, proper.replace split rfl⟩, ?_⟩
    have content := holds.content
    have distinct := proper.distinct
    unfold FlatHashTable.content at content distinct ⊢
    rw [split, items_append, items_taken] at content distinct
    rw [items_append, items_taken]
    have entries : ((name, index) :: (items front ++ items behind)).Perm map :=
      List.perm_middle.symm.trans content
    have apart : ∀ entry ∈ items front ++ items behind, entry.1 ≠ name := by
      have names := (List.perm_middle.map Prod.fst).nodup_iff.mp distinct
      rw [List.map_cons, List.nodup_cons] at names
      intro entry member same
      exact names.1 (List.mem_map.mpr ⟨entry, member, same⟩)
    have kept := entries.filter fun entry => entry.1 ≠ name
    rw [List.filter_cons_of_neg (by simp), List.filter_eq_self.mpr] at kept
    · exact List.perm_middle.trans (kept.cons (name, value))
    · intro entry member
      exact decide_eq_true (apart entry member)

theorem HoldsMap.known (holds : HoldsMap allocator hash map table) {failure : Failure (Bytes × Nat)}
    (thrown : emplace hash Prod.fst allocator table (name, 0) = .error failure) :
    map.lookup name = none := by
  cases lookup : map.lookup name with
  | none => rfl
  | some index =>
      have member : (name, index) ∈ map := by
        rcases List.lookup_eq_some_iff.mp lookup with ⟨before, after, rfl, _⟩
        exact List.mem_append_right _ List.mem_cons_self
      rcases holds.wellFormed.emplace_present (holds.content.symm.subset member)
        (show (name, index).1 = (name, 0).1 from rfl) with ⟨position, present⟩
      rw [thrown] at present
      cases present

private theorem mapStep_refines (allocator : FlatHash.Allocator) (hash : Bytes → UInt64) :
    RefinesUnless (MapCall.Fails allocator) (mapStep allocator hash) mapSpec (fun _ _ => True)
      (HoldsMap allocator hash) := by
  intro map table call holds _
  cases call with
  | get name =>
      rcases holds.reference name with
        ⟨failure, thrown, refused⟩ |
        ⟨⟨after, position, isNew⟩, resultIs, afterHolds, distance, here⟩
      · refine Or.inl ⟨failure, ?_, holds.known thrown, refused⟩
        rw [mapStep, getEntry, thrown]
        rfl
      · refine Or.inr ⟨after, ?_, afterHolds⟩
        rw [mapStep, getEntry, resultIs]
        simp only [bind, Except.bind, here]
        rfl
  | set name value =>
      rcases holds.reference name with
        ⟨failure, thrown, refused⟩ |
        ⟨⟨after, position, isNew⟩, resultIs, afterHolds, distance, here⟩
      · refine Or.inl ⟨failure, ?_, holds.known thrown, refused⟩
        rw [mapStep, getEntry, thrown]
        rfl
      · have assigned := afterHolds.assign here value
        rw [IndexMap.set_get] at assigned
        refine Or.inr ⟨_, ?_, assigned⟩
        rw [mapStep, getEntry, resultIs]
        simp only [bind, Except.bind, here]
        rfl
  | size =>
      refine Or.inr ⟨table, ?_, holds⟩
      rw [mapStep, holds.wellFormed.count, holds.content.length_eq]
      rfl

def MapAnswered (allocator : FlatHash.Allocator) (hash : Bytes → UInt64) (calls : List MapCall) :
    Prop :=
  ∃ final, run (mapStep allocator hash) empty calls = .ok ((specRun mapSpec [] calls).1, final) ∧
    HoldsMap allocator hash (specRun mapSpec [] calls).2 final

/-- The maps of `parse_ddl` answer every sequence of calls as the lists of
entries that it is modelled with, up to a call for a new name that needs a
table which is refused. If none of these is refused, they answer all calls. -/
theorem flatHashMap_refines (allocator : FlatHash.Allocator) (hash : Bytes → UInt64)
    (calls : List MapCall) :
    (FailsAt (MapCall.Fails allocator) (mapStep allocator hash) mapSpec (HoldsMap allocator hash) []
        empty calls ∨ MapAnswered allocator hash calls) ∧
      (Allowed mapSpec (fun map _ => MapCall.Granted allocator map) [] calls →
        MapAnswered allocator hash calls) := by
  constructor
  · apply (mapStep_refines allocator hash).run HoldsMap.empty
    exact Allowed.of_forall (fun _ _ => trivial) [] calls
  · have total : Refines (mapStep allocator hash) mapSpec
        (fun map _ => True ∧ MapCall.Granted allocator map) (HoldsMap allocator hash) :=
      (mapStep_refines allocator hash).total
        fun _ _ _ granted fails => not_refused granted fails.2
    intro granted
    apply total.run HoldsMap.empty
    exact granted.mono fun _ _ roomy => ⟨trivial, roomy⟩

/-- The second name makes the table grow, and the index is written to its entry
afterwards. -/
theorem flatHashMap_refines_collisions :
    MapAnswered
      { grants := fun slots => decide (slots ≤ 37)
        addressable := fun _ granted => Nat.lt_of_le_of_lt (of_decide_eq_true granted) (by decide) }
      (fun _ => 0) [.set [97] 1, .set [98] 2, .get [99], .get [98], .size] := by
  have granted : ∀ bits ≤ 5, decide (slotsOf bits ≤ 37) = true := by decide
  have small {map : IndexMap} (few : map.length ≤ 3) (bits : Nat) (le : bits ≤ map.length + 2) :
      decide (slotsOf bits ≤ 37) = true :=
    granted bits (Nat.le_trans le (Nat.add_le_add_right few 2))
  refine (flatHashMap_refines _ _ _).2 ?_
  exact ⟨small (by decide), small (by decide), small (by decide), small (by decide),
    small (by decide), trivial⟩

end FlatHashTable

end ChangeSql
