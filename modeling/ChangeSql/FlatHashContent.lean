/-
What a flat hash table holds, whatever it was asked to do.

A table is either the small one that it starts as, or its slots are arranged
and at most half of them are taken. An emplacement finds an element with the
key of the new one, or it adds the new one to the content, whether or not the
table has to grow for it. Only an allocation can fail, and no table is asked for that
the number of elements does not account for.
-/

import ChangeSql.FlatHashTable

namespace ChangeSql

open RobinHood FlatHash

/-! ### The bit formulas -/

namespace FlatHash

private theorem log2_eq {value : Nat} (some : value ≠ 0) (small : value < 2 ^ 64) :
    log2 value = Nat.log 2 value := by
  have entry : ∀ k : Fin 64,
      log2Table.getD ((2 ^ k.val * 0x07EDD5E59A4E28C2 % 2 ^ 64) >>> 58) 0 = k.val := by decide
  have short : Nat.log 2 value < 64 := Nat.log_lt_of_lt_pow some small
  unfold log2
  dsimp only
  rw [BitSmear.smear_sub_half some small]
  exact entry ⟨Nat.log 2 value, short⟩

theorem log2_two_pow {b : Nat} (small : b < 64) : log2 (2 ^ b) = b := by
  rw [log2_eq (Nat.two_pow_pos b).ne' (Nat.pow_lt_pow_right Nat.one_lt_two small),
    Nat.log_pow Nat.one_lt_two]

theorem nextPowerOfTwo_eq {i : Nat} (some : i ≠ 0) (small : i ≤ 2 ^ 63) :
    nextPowerOfTwo i = 2 ^ Nat.clog 2 i := by
  have power : 2 ^ Nat.clog 2 i ≤ 2 ^ 63 :=
    Nat.pow_le_pow_right Nat.two_pos (Nat.clog_le_of_le_pow small)
  have before : (i + (2 ^ 64 - 1)) % 2 ^ 64 = i - 1 := by omega
  unfold nextPowerOfTwo
  rw [before, BitSmear.smear_pred_add_one some (by omega)]
  exact Nat.mod_eq_of_lt (by omega)

/-- The next size is the power of two that is no smaller than what was asked
for. -/
theorem nextSizeOver_eq {size : Nat} (some : size ≠ 0) (small : size ≤ 2 ^ 63) :
    ∃ b, 1 ≤ b ∧ b < 64 ∧ nextSizeOver size = 2 ^ b ∧ size ≤ 2 ^ b ∧
      ∀ most, 1 ≤ most → size ≤ 2 ^ most → b ≤ most := by
  have enough : size ≤ 2 ^ Nat.clog 2 size := Nat.le_pow_clog Nat.one_lt_two size
  have bounded : Nat.clog 2 size ≤ 63 := Nat.clog_le_of_le_pow small
  unfold nextSizeOver
  rw [nextPowerOfTwo_eq some small]
  by_cases one : Nat.clog 2 size = 0
  · rw [one] at enough ⊢
    exact ⟨1, Nat.le_refl 1, by decide, rfl, by omega, fun _ positive _ => positive⟩
  · refine ⟨Nat.clog 2 size, Nat.one_le_iff_ne_zero.mpr one, by omega, ?_, enough, ?_⟩
    · apply max_eq_right
      exact Nat.pow_le_pow_right Nat.two_pos (Nat.one_le_iff_ne_zero.mpr one)
    · exact fun _ _ roomy => Nat.clog_le_of_le_pow roomy

theorem indexForHash_lt {b : Nat} (small : b ≤ 64) (hash : UInt64) :
    indexForHash (64 - b) hash < 2 ^ b := by
  unfold indexForHash
  rw [Nat.shiftRight_eq_div_pow, Nat.div_lt_iff_lt_mul (Nat.two_pow_pos _), ← Nat.pow_add,
    Nat.add_sub_cancel' small]
  exact Nat.mod_lt _ (Nat.two_pow_pos 64)

end FlatHash

namespace FlatHashTable

variable {α κ : Type} {allocator : Allocator} {key : α → κ} {hash : κ → UInt64}

def content (table : FlatHashTable α) : List α :=
  items table.entries

def slotsOf (bits : Nat) : Nat :=
  2 ^ bits + max minLookups bits

structure Proper (allocator : Allocator) (key : α → κ) (hash : κ → UInt64)
    (table : FlatHashTable α) (bits : Nat) : Prop where
  some : 1 ≤ bits
  buckets : table.numSlotsMinusOne + 1 = 2 ^ bits
  shift : table.shift = 64 - bits
  lookups : table.maxLookups = max minLookups bits
  granted : allocator.grants (slotsOf bits) = true
  length : table.entries.length = 2 ^ bits + table.maxLookups
  arranged : Arranged (fun item => table.bucket hash (key item)) table.maxLookups 0 0 table.entries
  distinct : (table.content.map key).Nodup
  count : table.numElements = table.content.length
  load : 2 * table.numElements ≤ 2 ^ bits

def WellFormed (allocator : Allocator) (key : α → κ) (hash : κ → UInt64)
    (table : FlatHashTable α) : Prop :=
  table = empty ∨ ∃ bits, Proper allocator key hash table bits

section

variable {table after : FlatHashTable α} {bits : Nat} {item : α}

theorem WellFormed.distinct (wellFormed : WellFormed allocator key hash table) :
    (table.content.map key).Nodup := by
  rcases wellFormed with rfl | ⟨bits, proper⟩
  · exact List.nodup_nil
  · exact proper.distinct

theorem WellFormed.count (wellFormed : WellFormed allocator key hash table) :
    table.numElements = table.content.length := by
  rcases wellFormed with rfl | ⟨bits, proper⟩
  · rfl
  · exact proper.count

private theorem bits_lt_of_granted (granted : allocator.grants (slotsOf bits) = true) :
    bits < 60 := by
  have addressable := allocator.addressable _ granted
  apply (Nat.pow_lt_pow_iff_right Nat.one_lt_two).mp
  unfold slotsOf at addressable
  omega

theorem Proper.bits_lt (proper : Proper allocator key hash table bits) : bits < 60 :=
  bits_lt_of_granted proper.granted

theorem Proper.bucket_lt (proper : Proper allocator key hash table bits) (k : κ) :
    table.bucket hash k < 2 ^ bits := by
  have small := proper.bits_lt
  unfold bucket
  rw [proper.shift]
  exact indexForHash_lt (by omega) _

theorem Proper.bucketCount_eq (proper : Proper allocator key hash table bits) :
    table.bucketCount = 2 ^ bits := by
  have several := Nat.pow_le_pow_right Nat.two_pos proper.some
  have buckets := proper.buckets
  unfold bucketCount
  rw [if_neg (by omega), buckets]

private theorem Proper.items_take (proper : Proper allocator key hash table bits)
    {entries : List (Slot α)}
    (length : entries.length = table.entries.length) (last : entries.getLast? = Option.some .stop) :
    items (entries.take (table.numSlotsMinusOne + table.maxLookups)) = items entries := by
  have buckets := proper.buckets
  have lengths := proper.length
  have taken : entries.take (table.numSlotsMinusOne + table.maxLookups) = entries.dropLast := by
    rw [List.dropLast_eq_take]
    congr 1
    omega
  rw [taken]
  conv => rhs; rw [← List.dropLast_append_getLast? _ last, items_append]
  exact (List.append_nil _).symm

private theorem WellFormed.items_take (wellFormed : WellFormed allocator key hash table) :
    items (table.entries.take (table.numSlotsMinusOne + table.maxLookups)) = table.content := by
  rcases wellFormed with rfl | ⟨bits, proper⟩
  · rfl
  · exact proper.items_take rfl proper.arranged.getLast

theorem WellFormed.arranged (wellFormed : WellFormed allocator key hash table) :
    Arranged (fun item => table.bucket hash (key item)) table.maxLookups 0 0 table.entries := by
  rcases wellFormed with rfl | ⟨bits, proper⟩
  · exact .free (.free (.free .stop))
  · exact proper.arranged

theorem WellFormed.bucket_lt (wellFormed : WellFormed allocator key hash table) (k : κ) :
    table.bucket hash k + 1 < table.entries.length := by
  rcases wellFormed with rfl | ⟨bits, proper⟩
  · have low := indexForHash_lt (show 1 ≤ 64 by decide) (hash k)
    exact Nat.lt_of_lt_of_le (Nat.succ_lt_succ low) (Nat.le_succ 3)
  · have inside := proper.bucket_lt k
    have length := proper.length
    have lookups := proper.lookups
    have several := le_max_left minLookups bits
    have few : minLookups = 4 := rfl
    omega

/-! ### Searching -/

inductive Lookup (key : α → κ) (hash : κ → UInt64) (table : FlatHashTable α) (k : κ) :
    Search → Prop where
  | found {passed : Nat} (distance : Nat) (item : α)
      (here : table.entries[table.bucket hash k + passed]? = some (.taken distance item))
      (same : key item = k) : Lookup key hash table k (.found passed)
  | missed {passed within : Nat} (behind : List (Slot α))
      (behindIs : table.entries.drop (table.bucket hash k + passed) = behind)
      (absent : ∀ item ∈ table.content, key item ≠ k)
      (closer : ∀ other item later, behind = .taken other item :: later → other < passed)
      (reached : passed ≤ within) (bounded : passed ≤ table.maxLookups)
      (crowd : within ≤ (items (table.entries.take (table.bucket hash k + passed))).length)
      (arranged : Arranged (fun item => table.bucket hash (key item)) table.maxLookups within
        (table.bucket hash k + passed) behind)
      (exchange : ∀ others,
        Arranged (fun item => table.bucket hash (key item)) table.maxLookups within
          (table.bucket hash k + passed) others →
        Arranged (fun item => table.bucket hash (key item)) table.maxLookups 0 0
          (table.entries.take (table.bucket hash k + passed) ++ others)) :
      Lookup key hash table k (.missed passed)

theorem WellFormed.search [DecidableEq κ] (wellFormed : WellFormed allocator key hash table)
    (k : κ) :
    Lookup key hash table k (search key k 0 (table.entries.drop (table.bucket hash k))) := by
  have inside := wellFormed.bucket_lt k
  have whole := List.take_append_drop (table.bucket hash k) table.entries
  have arranged := wellFormed.arranged
  rw [← whole] at arranged
  have taken : (table.entries.take (table.bucket hash k)).length = table.bucket hash k := by
    rw [List.length_take]
    omega
  have some : table.entries.drop (table.bucket hash k) ≠ [] := by
    apply List.ne_nil_of_length_pos
    rw [List.length_drop]
    omega
  rcases arranged.split some with ⟨within, dense, behind, exchange⟩
  rw [taken, Nat.zero_add] at behind exchange
  have room : table.bucket hash k + 1 <
      table.bucket hash k + (table.entries.drop (table.bucket hash k)).length := by
    rw [List.length_drop]
    omega
  have searched := behind.search (Nat.add_zero (table.bucket hash k)) (Nat.zero_le within)
    (Nat.zero_le _) room
  generalize RobinHood.search key k 0 (table.entries.drop (table.bucket hash k)) = result
    at searched
  cases searched with
  | @found front later distance item split same =>
      refine .found distance item ?_ same
      rw [← List.getElem?_drop, split, List.getElem?_append_right (Nat.le_refl _), Nat.sub_self]
      rfl
  | @missed front later reach split absent closer reached bounded crowd arrangedLater
      exchangeLater =>
      have frontIs : table.entries.take (table.bucket hash k + front.length) =
          table.entries.take (table.bucket hash k) ++ front := by
        rw [List.take_add, split, List.take_left]
      refine .missed later ?_ ?_ ?_ ?_ ?_ ?_ arrangedLater ?_
      · rw [← List.drop_drop, split, List.drop_left]
      · intro item member same
        unfold content at member
        rw [← whole, items_append] at member
        rcases List.mem_append.mp member with before | here
        · have early := arranged.home_lt before
          rw [taken, same] at early
          omega
        · exact absent item here same
      · intro other item rest laterIs
        have before := closer other item rest laterIs
        omega
      · omega
      · omega
      · rw [frontIs, items_append, List.length_append]
        omega
      · intro others arrangedOthers
        rw [frontIs, List.append_assoc]
        exact exchange _ (exchangeLater others arrangedOthers)

/-! ### Emplacing -/

/-- A table of at most 2^most buckets has been asked for and not been granted. -/
inductive Refused (allocator : Allocator) (most : Nat) : Failure α → Prop where
  | badAlloc {bits : Nat} {left : FlatHashTable α} (few : bits ≤ most)
      (refused : allocator.grants (slotsOf bits) = false) :
      Refused allocator most (.badAlloc (slotsOf bits) left)

theorem Refused.mono {most more : Nat} {failure : Failure α}
    (refused : Refused allocator most failure) (le : most ≤ more) :
    Refused allocator more failure := by
  cases refused with
  | badAlloc few refused => exact .badAlloc (Nat.le_trans few le) refused

/-- A result that is as it should be, unless such a table was refused. -/
def OrThrows {β : Type} (allocator : Allocator) (most : Nat) (result : Except (Failure α) β)
    (holds : β → Prop) : Prop :=
  (∃ failure, result = .error failure ∧ Refused allocator most failure) ∨
    ∃ value, result = .ok value ∧ holds value

theorem OrThrows.bind {β γ : Type} {most : Nat} {result : Except (Failure α) β}
    {holds : β → Prop} (here : OrThrows allocator most result holds)
    {next : β → Except (Failure α) γ} {then_holds : γ → Prop}
    (later : ∀ value, holds value → OrThrows allocator most (next value) then_holds) :
    OrThrows allocator most (result >>= next) then_holds := by
  rcases here with ⟨failure, thrown, refused⟩ | ⟨value, valueIs, held⟩
  · rw [thrown]
    exact Or.inl ⟨failure, rfl, refused⟩
  · rw [valueIs]
    exact later value held

theorem OrThrows.mono {β : Type} {most more : Nat} {result : Except (Failure α) β}
    {holds : β → Prop} (here : OrThrows allocator most result holds) (le : most ≤ more) :
    OrThrows allocator more result holds := by
  rcases here with ⟨failure, thrown, refused⟩ | held
  · exact Or.inl ⟨failure, thrown, refused.mono le⟩
  · exact Or.inr held

/-- What an emplacement does: the element is there already, or it is added. -/
inductive Emplaced (allocator : Allocator) (key : α → κ) (hash : κ → UInt64)
    (table : FlatHashTable α) (item : α) : Emplacement α → Prop where
  | present {position distance : Nat} {other : α}
      (here : table.entries[position]? = some (.taken distance other))
      (same : key other = key item) :
      Emplaced allocator key hash table item (table, position, false)
  | added {after : FlatHashTable α} {bits position distance : Nat}
      (proper : Proper allocator key hash after bits)
      (absent : ∀ other ∈ table.content, key other ≠ key item)
      (here : after.entries[position]? = some (.taken distance item))
      (content : after.content.Perm (item :: table.content))
      (grown : table.numSlotsMinusOne ≤ after.numSlotsMinusOne) :
      Emplaced allocator key hash table item (after, position, true)

private theorem Emplaced.of_grown {result : Emplacement α}
    (emplaced : Emplaced allocator key hash after item result)
    (content : after.content.Perm table.content)
    (absent : ∀ other ∈ table.content, key other ≠ key item)
    (grown : table.numSlotsMinusOne ≤ after.numSlotsMinusOne) :
    Emplaced allocator key hash table item result := by
  cases emplaced with
  | present here same =>
      have member := content.subset (mem_items_of_getElem? here)
      exact absurd same (absent _ member)
  | added proper _ here added further =>
      exact .added proper absent here (added.trans (content.cons item))
        (Nat.le_trans grown further)

theorem computeMaxLookups_two_pow {b : Nat} (small : b < 64) :
    computeMaxLookups (2 ^ b) = max minLookups b := by
  unfold computeMaxLookups
  rw [log2_two_pow small]

theorem allocated_proper {bits : Nat} (some : 1 ≤ bits)
    (granted : allocator.grants (slotsOf bits) = true) :
    Proper allocator key hash (allocated (2 ^ bits)) bits ∧
      (allocated (2 ^ bits) : FlatHashTable α).content = [] := by
  have short := bits_lt_of_granted granted
  have positive := Nat.two_pow_pos bits
  have lookups := computeMaxLookups_two_pow (show bits < 64 by omega)
  have noItems (n : Nat) : items (List.replicate n (Slot.free : Slot α) ++ [.stop]) = [] := by
    rw [items_append]
    unfold items
    simp [List.filterMap_replicate, Slot.item?]
  have arranged (home : α → Nat) (limit reach n : Nat) : ∀ pos,
      Arranged home limit reach pos (List.replicate n .free ++ [.stop]) := by
    induction n generalizing reach with
    | zero => exact fun pos => .stop
    | succ n ih => exact fun pos => .free (ih 0 (pos + 1))
  have none : (allocated (2 ^ bits) : FlatHashTable α).content = [] := noItems _
  refine ⟨?_, none⟩
  exact
    { some := some
      buckets := Nat.sub_add_cancel positive
      shift := by
        change 64 - log2 (2 ^ bits) = _
        rw [log2_two_pow (by omega)]
      lookups := lookups
      granted := granted
      length := by
        change (List.replicate (2 ^ bits + computeMaxLookups (2 ^ bits) - 1) Slot.free ++
          [Slot.stop]).length = 2 ^ bits + computeMaxLookups (2 ^ bits)
        rw [List.length_append, List.length_replicate, List.length_singleton]
        omega
      arranged := arranged _ _ _ _ _
      distinct := by
        rw [none]
        exact List.nodup_nil
      count := by
        rw [none]
        rfl
      load := Nat.zero_le _ }

def EmplacesFrom (allocator : Allocator) (key : α → κ) (hash : κ → UInt64)
    (emplace : FlatHashTable α → α → Except (Failure α) (Emplacement α)) (slots : Nat) : Prop :=
  ∀ table item, WellFormed allocator key hash table → slots ≤ table.numSlotsMinusOne + 1 →
    OrThrows allocator (table.numElements + 2) (emplace table item)
      (Emplaced allocator key hash table item)

def Moved (allocator : Allocator) (key : α → κ) (hash : κ → UInt64) (content : List α) (slots : Nat)
    (after : FlatHashTable α) : Prop :=
  ∃ bits, Proper allocator key hash after bits ∧ after.content.Perm content ∧
    slots ≤ after.numSlotsMinusOne + 1

private theorem emplaceAll_moved
    {emplace : FlatHashTable α → α → Except (Failure α) (Emplacement α)}
    {slots : Nat} (emplaces : EmplacesFrom allocator key hash emplace slots) {others : List α}
    (proper : Proper allocator key hash table bits) (large : slots ≤ table.numSlotsMinusOne + 1)
    (distinct : ((others ++ table.content).map key).Nodup) :
    OrThrows allocator (others.length + table.numElements + 2) (emplaceAll emplace others table)
      (Moved allocator key hash (others ++ table.content) slots) := by
  induction others generalizing table bits with
  | nil => exact Or.inr ⟨table, rfl, bits, proper, List.Perm.refl _, large⟩
  | cons item others ih =>
      rw [List.cons_append, List.map_cons, List.nodup_cons] at distinct
      refine ((emplaces table item (Or.inr ⟨bits, proper⟩) large).mono (by omega)).bind ?_
      intro result emplaced
      cases emplaced with
      | @present _ _ other here same =>
          exfalso
          apply distinct.1
          rw [← same]
          exact List.mem_map_of_mem (List.mem_append_right _ (mem_items_of_getElem? here))
      | @added next _ _ _ nextProper absent here content grown =>
          have perm : (others ++ next.content).Perm (item :: others ++ table.content) :=
            (content.append_left others).trans List.perm_middle
          have nextDistinct : ((others ++ next.content).map key).Nodup := by
            rw [(perm.map key).nodup_iff, List.cons_append, List.map_cons, List.nodup_cons]
            exact distinct
          have counted : next.numElements = table.numElements + 1 := by
            rw [nextProper.count, content.length_eq, List.length_cons, proper.count]
          have total : others.length + next.numElements + 2 =
              (item :: others).length + table.numElements + 2 := by
            rw [List.length_cons, counted]
            omega
          rw [← total]
          rcases ih nextProper (by omega) nextDistinct with thrown | ⟨after, afterIs, moved⟩
          · exact Or.inl thrown
          · rcases moved with ⟨bits, afterProper, afterContent, afterLarge⟩
            exact Or.inr ⟨after, afterIs, bits, afterProper, afterContent.trans perm, afterLarge⟩

/-- A rehash to more buckets than there are keeps the content, also that of a
table whose slots are not in order. -/
theorem rehash_moved
    {emplace : FlatHashTable α → α → Except (Failure α) (Emplacement α)} {numBuckets most : Nat}
    (seen : items (table.entries.take (table.numSlotsMinusOne + table.maxLookups)) = table.content)
    (distinct : (table.content.map key).Nodup) (enough : 2 * table.numElements ≤ numBuckets)
    (count : table.numElements = table.content.length)
    (more : table.bucketCount < numBuckets) (small : numBuckets ≤ 2 ^ 63)
    (roomy : numBuckets ≤ 2 ^ most) (few : table.numElements + 2 ≤ most)
    (emplaces : EmplacesFrom allocator key hash emplace numBuckets) :
    OrThrows allocator most (rehash allocator emplace numBuckets table)
      (Moved allocator key hash table.content numBuckets) := by
  have some : numBuckets ≠ 0 := by omega
  rcases nextSizeOver_eq some small with ⟨bits, several, short, sizeIs, larger, least⟩
  unfold rehash
  dsimp only
  rw [max_eq_left enough, if_neg some, sizeIs, if_neg (by omega), computeMaxLookups_two_pow short]
  split
  · rename_i granted
    have isNew : Proper allocator key hash (allocated (2 ^ bits)) bits ∧
        (allocated (2 ^ bits) : FlatHashTable α).content = [] :=
      allocated_proper several granted
    rcases isNew with ⟨proper, none⟩
    have buckets := proper.buckets
    have large : numBuckets ≤ (allocated (2 ^ bits) : FlatHashTable α).numSlotsMinusOne + 1 := by
      omega
    have moved := emplaceAll_moved emplaces proper large
      (show ((table.content ++ (allocated (2 ^ bits)).content).map key).Nodup by
        rw [none, List.append_nil]
        exact distinct)
    rw [none, List.append_nil, ← count] at moved
    rw [seen]
    exact moved.mono few
  · rename_i refused
    exact Or.inl ⟨_, rfl, .badAlloc (least most (by omega) roomy) (Bool.eq_false_iff.mpr refused)⟩

private theorem grow_moved
    {emplace : FlatHashTable α → α → Except (Failure α) (Emplacement α)} {crowded : FlatHashTable α}
    (wellFormed : WellFormed allocator key hash table)
    (seen : items (crowded.entries.take (crowded.numSlotsMinusOne + crowded.maxLookups)) =
      crowded.content)
    (content : crowded.content.Perm table.content)
    (slots : crowded.numSlotsMinusOne = table.numSlotsMinusOne)
    (count : crowded.numElements = table.numElements)
    (needed : ∀ {bits}, Proper allocator key hash table bits → bits ≤ table.numElements + 1)
    (emplaces : EmplacesFrom allocator key hash emplace (2 * (table.numSlotsMinusOne + 1))) :
    OrThrows allocator (table.numElements + 2) (grow allocator emplace crowded)
      (Moved allocator key hash table.content (2 * (table.numSlotsMinusOne + 1))) := by
  have buckets : crowded.bucketCount = table.bucketCount := by
    unfold bucketCount
    rw [slots]
  have distinct : (crowded.content.map key).Nodup := by
    rw [(content.map key).nodup_iff]
    exact wellFormed.distinct
  have sizes : 2 * table.numElements ≤ table.bucketCount ∧ table.bucketCount < 2 ^ 60 ∧
      2 * (table.numSlotsMinusOne + 1) ≤ max 4 (2 * table.bucketCount) ∧
        2 * table.bucketCount ≤ 2 ^ (table.numElements + 2) := by
    rcases wellFormed with rfl | ⟨bits, proper⟩
    · exact ⟨Nat.le_refl 0, Nat.two_pow_pos 60, Nat.le_max_left 4 0 |>.trans' (Nat.le_add_left 2 2),
        Nat.zero_le _⟩
    · have short := Nat.pow_lt_pow_right Nat.one_lt_two proper.bits_lt
      have doubled := Nat.pow_le_pow_right Nat.two_pos (needed proper)
      rw [proper.bucketCount_eq, proper.buckets]
      refine ⟨proper.load, short, le_max_right _ _, ?_⟩
      rw [Nat.pow_succ]
      omega
  have four : 2 ^ 2 ≤ 2 ^ (table.numElements + 2) :=
    Nat.pow_le_pow_right Nat.two_pos (Nat.le_add_left 2 _)
  have moved : OrThrows allocator (table.numElements + 2) (grow allocator emplace crowded)
      (Moved allocator key hash crowded.content (max 4 (2 * crowded.bucketCount))) := by
    apply rehash_moved seen distinct
    · rw [count, buckets]
      omega
    · rw [count, wellFormed.count, content.length_eq]
    · omega
    · omega
    · omega
    · omega
    · intro other item otherWellFormed large
      exact emplaces other item otherWellFormed (by omega)
  rcases moved with thrown | ⟨after, afterIs, bits, proper, afterContent, large⟩
  · exact Or.inl thrown
  · exact Or.inr ⟨after, afterIs, bits, proper, afterContent.trans content, by omega⟩

private theorem grow_emplaced
    {emplace : FlatHashTable α → α → Except (Failure α) (Emplacement α)} {crowded : FlatHashTable α}
    (absent : ∀ other ∈ table.content, key other ≠ key item)
    (wellFormed : WellFormed allocator key hash table)
    (emplaces : EmplacesFrom allocator key hash emplace (2 * (table.numSlotsMinusOne + 1)))
    (moved : OrThrows allocator (table.numElements + 2) (grow allocator emplace crowded)
      (Moved allocator key hash table.content (2 * (table.numSlotsMinusOne + 1)))) :
    OrThrows allocator (table.numElements + 2)
      (do
        let after ← grow allocator emplace crowded
        emplace after item)
      (Emplaced allocator key hash table item) := by
  apply moved.bind
  rintro after ⟨bits, proper, content, large⟩
  have counted : after.numElements = table.numElements := by
    rw [proper.count, content.length_eq, wellFormed.count]
  rw [← counted]
  rcases emplaces after item (Or.inr ⟨bits, proper⟩) large with thrown | ⟨result, resultIs, emplaced⟩
  · exact Or.inl thrown
  · exact Or.inr ⟨result, resultIs, emplaced.of_grown content absent (by omega)⟩

theorem Proper.emplaced (proper : Proper allocator key hash table bits)
    {front behind slots : List (Slot α)}
    {distance : Nat} (split : table.entries = front ++ behind)
    (arranged : Arranged (fun item => table.bucket hash (key item)) table.maxLookups 0 0
      (front ++ .taken distance item :: slots))
    (length : slots.length + 1 = behind.length)
    (content : (items slots).Perm (items behind))
    (absent : ∀ other ∈ table.content, key other ≠ key item)
    (light : 2 * (table.numElements + 1) ≤ table.numSlotsMinusOne + 1) :
    Emplaced allocator key hash table item
      ({ table with
        entries := front ++ .taken distance item :: slots
        numElements := table.numElements + 1 }, front.length, true) := by
  have contentIs : (items (front ++ .taken distance item :: slots)).Perm
      (item :: table.content) := by
    unfold FlatHashTable.content
    rw [split, items_append, items_append, items_taken]
    exact (List.Perm.append_left _ (content.cons item)).trans List.perm_middle
  have settled : Proper allocator key hash
      { table with
        entries := front ++ .taken distance item :: slots
        numElements := table.numElements + 1 } bits :=
    { some := proper.some
      buckets := proper.buckets
      shift := proper.shift
      lookups := proper.lookups
      granted := proper.granted
      length := by
        rw [← proper.length, split, List.length_append, List.length_append, List.length_cons,
          length]
      arranged := arranged
      distinct := by
        change ((items (front ++ .taken distance item :: slots)).map key).Nodup
        rw [(contentIs.map key).nodup_iff, List.map_cons, List.nodup_cons]
        refine ⟨?_, proper.distinct⟩
        intro again
        rcases List.mem_map.mp again with ⟨other, member, same⟩
        exact absent other member same
      count := by
        change table.numElements + 1 = (items (front ++ .taken distance item :: slots)).length
        rw [contentIs.length_eq, List.length_cons, proper.count]
      load := by
        rw [← proper.buckets]
        exact light }
  have here : (front ++ .taken distance item :: slots)[front.length]? =
      Option.some (.taken distance item) := by
    rw [List.getElem?_append_right (Nat.le_refl _), Nat.sub_self]
    rfl
  exact .added settled absent here contentIs (Nat.le_refl _)

/-- A crowd leaves the slots in no order, and an element without a slot of its
own. Growing finds all of them. -/
private theorem crowded_emplaced
    {emplace : FlatHashTable α → α → Except (Failure α) (Emplacement α)}
    (proper : Proper allocator key hash table bits)
    (absent : ∀ other ∈ table.content, key other ≠ key item)
    (emplaces : EmplacesFrom allocator key hash emplace (2 * (table.numSlotsMinusOne + 1)))
    {front behind slots : List (Slot α)} {passed : Nat} {left : α}
    (whole : front ++ behind = table.entries) (length : slots.length + 1 = behind.length)
    (last : slots.getLast? = some .stop) (perm : (left :: items slots).Perm (items behind))
    (needed : ∀ {bits}, Proper allocator key hash table bits → bits ≤ table.numElements + 1) :
    OrThrows allocator (table.numElements + 2)
      (do
        let after ← grow allocator emplace
          { table with entries := front ++ .taken passed left :: slots }
        emplace after item)
      (Emplaced allocator key hash table item) := by
  have swapped : (items (front ++ .taken passed left :: slots)).Perm table.content := by
    unfold content
    rw [← whole, items_append, items_append, items_taken]
    exact perm.append_left _
  apply grow_emplaced absent (Or.inr ⟨bits, proper⟩) emplaces
  refine grow_moved (Or.inr ⟨bits, proper⟩) ?_ swapped rfl rfl needed emplaces
  apply proper.items_take
  · rw [← whole, List.length_append, List.length_append, ← length]
    rfl
  · rw [List.getLast?_append, List.getLast?_cons, last]
    rfl

/-- An element for which a search has found no other goes to where the search
has ended, or the table grows first. -/
theorem emplaceNewKey_emplaced
    {emplace : FlatHashTable α → α → Except (Failure α) (Emplacement α)}
    (wellFormed : WellFormed allocator key hash table)
    (emplaces : EmplacesFrom allocator key hash emplace (2 * (table.numSlotsMinusOne + 1)))
    {passed : Nat}
    (lookup : Lookup key hash table (key item) (.missed passed)) :
    OrThrows allocator (table.numElements + 2)
      (emplaceNewKey allocator emplace passed (table.bucket hash (key item) + passed) item table)
      (Emplaced allocator key hash table item) := by
  cases lookup with
  | missed behind behindIs absent closer reached bounded crowd arranged exchange =>
  have total : (items (table.entries.take (table.bucket hash (key item) + passed))).length +
      (items behind).length = table.numElements := by
    rw [← List.length_append, ← items_append, ← behindIs, List.take_append_drop,
      wellFormed.count]
    rfl
  unfold emplaceNewKey
  split
  · rename_i full
    apply grow_emplaced absent wellFormed emplaces
    refine grow_moved wellFormed wellFormed.items_take (List.Perm.refl _) rfl rfl ?_ emplaces
    intro bits proper
    have buckets := proper.buckets
    have lookups := proper.lookups
    have several := Nat.pow_le_pow_right Nat.two_pos proper.some
    have linear : bits - 1 < 2 ^ (bits - 1) := Nat.lt_two_pow_self
    have double : 2 ^ bits = 2 * 2 ^ (bits - 1) := by
      rw [← Nat.pow_succ', Nat.succ_eq_add_one, Nat.sub_add_cancel proper.some]
    omega
  · rename_i notFull
    rw [not_or, not_or, Nat.not_lt] at notFull
    rcases notFull with ⟨allocated, notFar, light⟩
    rcases wellFormed with rfl | ⟨bits, proper⟩
    · exact absurd rfl allocated
    have whole := List.take_append_drop (table.bucket hash (key item) + passed) table.entries
    have inside := List.length_pos_of_ne_nil (behindIs ▸ arranged.ne_nil)
    rw [List.length_drop] at inside
    have before := List.length_take_of_le (by omega :
      table.bucket hash (key item) + passed ≤ table.entries.length)
    rw [behindIs] at whole ⊢
    generalize table.entries.take (table.bucket hash (key item) + passed) = front
      at whole before exchange ⊢
    have short : passed < table.maxLookups := by omega
    have room : ∀ other, table.bucket hash (key other) + table.maxLookups <
        table.bucket hash (key item) + passed + behind.length := by
      intro other
      have low := proper.bucket_lt (key other)
      have length := proper.length
      have lengths := congrArg List.length whole
      rw [List.length_append] at lengths
      omega
    have pushed : Pushed _ _ _ _ behind item (push table.maxLookups passed item behind) :=
      arranged.push rfl reached short room
    rw [← before]
    cases behind with
    | nil => exact absurd rfl arranged.ne_nil
    | cons slot slots =>
        cases slot with
        | stop => cases pushed
        | free =>
            cases pushed with
            | settled settledArranged length perm =>
                exact Or.inr ⟨_, rfl, proper.emplaced whole.symm (exchange _ settledArranged) length
                  perm.cons_inv absent light⟩
        | taken other moved =>
            rw [push, if_pos (closer other moved slots rfl)] at pushed
            dsimp only
            generalize push table.maxLookups (other + 1) moved slots = result at pushed ⊢
            cases result with
            | astray => cases pushed
            | settled slots =>
                cases pushed with
                | settled settledArranged length perm =>
                    exact Or.inr ⟨_, rfl, proper.emplaced whole.symm (exchange _ settledArranged)
                      length perm.cons_inv absent light⟩
            | crowded slots left =>
                cases pushed with
                | crowded length last perm dense =>
                    rw [items_taken] at perm
                    have rest := ((List.Perm.swap left item _).trans perm).cons_inv
                    have ends : slots.getLast? = some .stop := by
                      cases slots with
                      | nil => cases last
                      | cons slot slots => exact List.getLast?_cons_cons.symm.trans last
                    refine crowded_emplaced proper absent emplaces whole length ends rest ?_
                    intro otherBits other
                    have lookups := other.lookups
                    omega

private theorem WellFormed.numSlots_lt (wellFormed : WellFormed allocator key hash table) :
    table.numSlotsMinusOne + 1 < 2 ^ 60 := by
  rcases wellFormed with rfl | ⟨bits, proper⟩
  · exact Nat.one_lt_two_pow (by decide)
  · rw [proper.buckets]
    exact Nat.pow_lt_pow_right Nat.one_lt_two proper.bits_lt

theorem Proper.replace (proper : Proper allocator key hash table bits) {front behind : List (Slot α)}
    {distance : Nat} {old new : α} (split : table.entries = front ++ .taken distance old :: behind)
    (same : key new = key old) :
    Proper allocator key hash { table with entries := front ++ .taken distance new :: behind } bits :=
  { some := proper.some
    buckets := proper.buckets
    shift := proper.shift
    lookups := proper.lookups
    granted := proper.granted
    length := by
      rw [← proper.length, split, List.length_append, List.length_append]
      rfl
    arranged := by
      have arranged := proper.arranged
      rw [split] at arranged
      exact arranged.replace (congrArg (table.bucket hash) same)
    distinct := by
      have distinct := proper.distinct
      unfold content at distinct ⊢
      rw [split] at distinct
      rw [items_append, items_taken, List.map_append, List.map_cons] at distinct ⊢
      rw [same]
      exact distinct
    count := by
      have count := proper.count
      unfold content at count ⊢
      rw [split] at count
      rw [items_append, items_taken, List.length_append, List.length_cons] at count ⊢
      exact count
    load := proper.load }

variable [DecidableEq κ]

/-- The induction is on the growths that are left. They are enough because
each of them doubles the slots. -/
theorem emplaceWithin_emplaced {growths : Nat}
    (wellFormed : WellFormed allocator key hash table)
    (enough : 2 ^ 60 ≤ (table.numSlotsMinusOne + 1) * 2 ^ growths) :
    OrThrows allocator (table.numElements + 2)
      (emplaceWithin hash key allocator growths table item)
      (Emplaced allocator key hash table item) := by
  induction growths generalizing table item with
  | zero =>
      have few := wellFormed.numSlots_lt
      rw [Nat.pow_zero, Nat.mul_one] at enough
      omega
  | succ growths ih =>
      have emplaces : EmplacesFrom allocator key hash (emplaceWithin hash key allocator growths)
          (2 * (table.numSlotsMinusOne + 1)) := by
        intro other element otherWellFormed large
        apply ih otherWellFormed
        calc 2 ^ 60 ≤ (table.numSlotsMinusOne + 1) * 2 ^ (growths + 1) := enough
          _ = 2 * (table.numSlotsMinusOne + 1) * 2 ^ growths := by
            rw [Nat.pow_succ, Nat.mul_comm 2 (_ + 1), Nat.mul_assoc, Nat.mul_comm 2]
          _ ≤ (other.numSlotsMinusOne + 1) * 2 ^ growths := Nat.mul_le_mul_right _ large
      have lookup := wellFormed.search (key item)
      rw [emplaceWithin]
      generalize search key (key item) 0 (table.entries.drop (table.bucket hash (key item))) = result
        at lookup ⊢
      cases result with
      | astray => cases lookup
      | missed passed => exact emplaceNewKey_emplaced wellFormed emplaces lookup
      | found passed =>
          cases lookup with
          | found distance other here same => exact Or.inr ⟨_, rfl, .present here same⟩

theorem emplace_emplaced (wellFormed : WellFormed allocator key hash table)
    (item : α) :
    OrThrows allocator (table.numElements + 2) (emplace hash key allocator table item)
      (Emplaced allocator key hash table item) :=
  emplaceWithin_emplaced wellFormed
    (Nat.le_trans (Nat.pow_le_pow_right Nat.two_pos (by decide : 60 ≤ 64))
      (Nat.le_mul_of_pos_left _ (Nat.succ_pos _)))

theorem WellFormed.emplace_present (wellFormed : WellFormed allocator key hash table) {other : α}
    (member : other ∈ table.content) (same : key other = key item) :
    ∃ position, emplace hash key allocator table item = .ok (table, position, false) := by
  have lookup := wellFormed.search (key item)
  unfold emplace
  rw [emplaceWithin]
  generalize RobinHood.search key (key item) 0
    (table.entries.drop (table.bucket hash (key item))) = result at lookup ⊢
  cases lookup with
  | found distance item here sameKey => exact ⟨_, rfl⟩
  | missed behind behindIs absent closer reached bounded crowd arranged exchange =>
      exact absurd same (absent other member)

theorem reserve_moved (wellFormed : WellFormed allocator key hash table)
    {numElements most : Nat} (small : numElements ≤ 2 ^ 62) (roomy : 2 * numElements ≤ 2 ^ most)
    (few : table.numElements + 2 ≤ most) :
    OrThrows allocator most (reserve hash key allocator numElements table) fun after =>
      WellFormed allocator key hash after ∧ after.content.Perm table.content ∧
        2 * numElements ≤ after.bucketCount := by
  unfold reserve
  dsimp only
  split
  · rename_i more
    have enough : 2 * table.numElements ≤ numBucketsForReserve numElements := by
      rcases wellFormed with rfl | ⟨bits, proper⟩
      · exact Nat.zero_le _
      · have load := proper.load
        have buckets := proper.bucketCount_eq
        omega
    have required : numBucketsForReserve numElements = 2 * numElements := rfl
    rcases rehash_moved wellFormed.items_take wellFormed.distinct enough wellFormed.count more
        (by omega) roomy few fun other element otherWellFormed _ =>
          emplace_emplaced otherWellFormed element
      with thrown | ⟨after, afterIs, bits, proper, content, large⟩
    · exact Or.inl thrown
    · refine Or.inr ⟨after, afterIs, Or.inr ⟨bits, proper⟩, content, ?_⟩
      have buckets := proper.buckets
      rw [proper.bucketCount_eq]
      omega
  · rename_i enough
    exact Or.inr ⟨table, rfl, wellFormed, List.Perm.refl _, Nat.le_of_not_lt enough⟩

theorem WellFormed.find (wellFormed : WellFormed allocator key hash table) (k : κ) :
    (∃ position distance item, FlatHashTable.find hash key k table = .ok (Option.some position) ∧
        table.entries[position]? = Option.some (.taken distance item) ∧ key item = k) ∨
      (FlatHashTable.find hash key k table = .ok none ∧ ∀ item ∈ table.content, key item ≠ k) := by
  have lookup := wellFormed.search k
  unfold FlatHashTable.find
  dsimp only
  generalize RobinHood.search key k 0 (table.entries.drop (table.bucket hash k)) = result at lookup ⊢
  cases lookup with
  | found distance item here same => exact Or.inl ⟨_, distance, item, rfl, here, same⟩
  | missed behind behindIs absent closer reached bounded crowd arranged exchange =>
      exact Or.inr ⟨rfl, absent⟩

end

end FlatHashTable

end ChangeSql
