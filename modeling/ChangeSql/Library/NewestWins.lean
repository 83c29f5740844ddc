/-
Tables of rows in which the newest row of each key wins.

Rows have a key and a time. `upsert` replaces the row of the item's key if
that row is older and adds the item if there is no such row. It does nothing
for an item that the table has had before, which makes a log of items safe to
apply again from any earlier position.
-/

import Mathlib.Data.Multiset.MapFold
import Mathlib.Data.List.Induction
import Mathlib.Data.List.Nodup
import Mathlib.Order.Defs.Unbundled

namespace ChangeSql.NewestWins

variable {α κ τ : Type} [DecidableEq κ] [LT τ] [DecidableLT τ] (key : α → κ) (time : α → τ)

def amend (item : α) (table : Multiset α) : Multiset α :=
  table.map fun row => if key row = key item ∧ time row < time item then item else row

def complete (item : α) (table : Multiset α) : Multiset α :=
  if key item ∈ table.map key then table else item ::ₘ table

def upsert (item : α) (table : Multiset α) : Multiset α :=
  complete key item (amend key time item table)

/-- The table that the items make, one after the other. -/
def upserts (items : List α) : Multiset α :=
  items.foldl (fun table item => upsert key time item table) 0

variable {key time} {item : α} {items : List α} {table : Multiset α}

/-! ### Keys -/

theorem amend_keys : (amend key time item table).map key = table.map key := by
  unfold amend
  rw [Multiset.map_map]
  apply Multiset.map_congr rfl
  intro row _
  rw [Function.comp_apply]
  split
  · rename_i replaced
    exact replaced.1.symm
  · rfl

theorem amend_of_absent (absent : key item ∉ table.map key) : amend key time item table = table := by
  unfold amend
  conv_rhs => rw [← Multiset.map_id table]
  apply Multiset.map_congr rfl
  intro row member
  rw [if_neg]
  · rfl
  · intro replaced
    exact absent (Multiset.mem_map.mpr ⟨row, member, replaced.1⟩)

theorem complete_of_present (present : key item ∈ table.map key) :
    complete key item table = table :=
  if_pos present

theorem complete_of_absent (absent : key item ∉ table.map key) :
    complete key item table = item ::ₘ table :=
  if_neg absent

theorem upsert_of_present (present : key item ∈ table.map key) :
    upsert key time item table = amend key time item table := by
  apply complete_of_present
  rw [amend_keys]
  exact present

theorem upsert_of_absent (absent : key item ∉ table.map key) :
    upsert key time item table = item ::ₘ table := by
  unfold upsert
  rw [amend_of_absent absent, complete_of_absent absent]

theorem mem_upsert_keys {k : κ} :
    k ∈ (upsert key time item table).map key ↔ k = key item ∨ k ∈ table.map key := by
  by_cases present : key item ∈ table.map key
  · rw [upsert_of_present present, amend_keys]
    constructor
    · exact Or.inr
    · rintro (rfl | member)
      · exact present
      · exact member
  · rw [upsert_of_absent present, Multiset.map_cons, Multiset.mem_cons]

theorem upserts_nil : upserts key time [] = 0 := rfl

theorem upserts_snoc : upserts key time (items ++ [item]) =
    upsert key time item (upserts key time items) := by
  unfold upserts
  rw [List.foldl_append]
  rfl

theorem mem_upserts_keys {k : κ} :
    k ∈ (upserts key time items).map key ↔ k ∈ items.map key := by
  induction items using List.reverseRecOn with
  | nil => simp [upserts_nil]
  | append_singleton items item ih =>
      rw [upserts_snoc, mem_upsert_keys, ih, List.map_append, List.mem_append, List.map_singleton,
        List.mem_singleton, or_comm]

theorem upserts_nodup : ((upserts key time items).map key).Nodup := by
  induction items using List.reverseRecOn with
  | nil => exact Multiset.nodup_zero
  | append_singleton items item ih =>
      rw [upserts_snoc]
      by_cases present : key item ∈ (upserts key time items).map key
      · rw [upsert_of_present present, amend_keys]
        exact ih
      · rw [upsert_of_absent present, Multiset.map_cons, Multiset.nodup_cons]
        exact ⟨present, ih⟩

theorem upserts_append_new {batch : List α} (distinct : (batch.map key).Nodup)
    (absent : ∀ item ∈ batch, key item ∉ items.map key) :
    upserts key time (items ++ batch) = upserts key time items + batch := by
  induction batch using List.reverseRecOn with
  | nil => simp
  | append_singleton batch item ih =>
      rw [List.map_append, List.map_singleton, List.nodup_append] at distinct
      have ihBatch := ih distinct.1 fun other member =>
        absent other (List.mem_append_left _ member)
      have new : key item ∉ (upserts key time (items ++ batch)).map key := by
        rw [mem_upserts_keys, List.map_append, List.mem_append]
        rintro (old | again)
        · exact absent item (by simp) old
        · exact distinct.2.2 _ again _ (List.mem_singleton_self _) rfl
      rw [← List.append_assoc, upserts_snoc, upsert_of_absent new, ihBatch, ← Multiset.coe_add,
        ← Multiset.add_assoc, Multiset.coe_singleton, Multiset.add_comm _ {item},
        Multiset.singleton_add]

/-! ### Rows -/

theorem mem_amend {row : α} (member : row ∈ amend key time item table) :
    row ∈ table ∨ row = item := by
  rcases Multiset.mem_map.mp member with ⟨old, oldMember, rowIs⟩
  split at rowIs
  · exact Or.inr rowIs.symm
  · exact Or.inl (rowIs ▸ oldMember)

theorem mem_upsert {row : α} (member : row ∈ upsert key time item table) :
    row ∈ table ∨ row = item := by
  unfold upsert complete at member
  split at member
  · exact mem_amend member
  · rcases Multiset.mem_cons.mp member with isItem | amended
    · exact Or.inr isItem
    · exact mem_amend amended

theorem mem_upserts {row : α} (member : row ∈ upserts key time items) : row ∈ items := by
  induction items using List.reverseRecOn with
  | nil => cases member
  | append_singleton items item ih =>
      rw [upserts_snoc] at member
      rw [List.mem_append, List.mem_singleton]
      exact (mem_upsert member).imp_left ih

/-! ### Items that the table has had before -/

variable (key time) in
structure Settles (item : α) (table : Multiset α) : Prop where
  present : key item ∈ table.map key
  newer : ∀ row ∈ table, key row = key item → ¬ time row < time item

theorem Settles.upsert_eq (settles : Settles key time item table) :
    upsert key time item table = table := by
  rw [upsert_of_present settles.present]
  unfold amend
  conv_rhs => rw [← Multiset.map_id table]
  apply Multiset.map_congr rfl
  intro row member
  rw [if_neg]
  · rfl
  · intro replaced
    exact settles.newer row member replaced.1 replaced.2

variable (key time) in
/-- One row for each key of the items, of which none is newer. -/
structure KeepsNewest (items : List α) (table : Multiset α) : Prop where
  once : (table.map key).Nodup
  covers : ∀ item ∈ items, key item ∈ table.map key
  fromItems : ∀ row ∈ table, row ∈ items
  newest : ∀ row ∈ table, ∀ item ∈ items, key row = key item → ¬ time row < time item

variable [IsStrictOrder τ (· < ·)]

theorem Settles.upsert (settles : Settles key time item table) (other : α) :
    Settles key time item (upsert key time other table) := by
  refine ⟨mem_upsert_keys.mpr (Or.inr settles.present), ?_⟩
  intro row member sameKey older
  by_cases present : key other ∈ table.map key
  · rw [upsert_of_present present] at member
    rcases Multiset.mem_map.mp member with ⟨old, oldMember, rowIs⟩
    split at rowIs
    · rename_i replaced
      subst rowIs
      exact settles.newer old oldMember (replaced.1.trans sameKey)
        (IsTrans.trans _ _ _ replaced.2 older)
    · subst rowIs
      exact settles.newer old oldMember sameKey older
  · rw [upsert_of_absent present, Multiset.mem_cons] at member
    rcases member with rfl | member
    · rw [sameKey] at present
      exact present settles.present
    · exact settles.newer row member sameKey older

theorem upsert_settles : Settles key time item (NewestWins.upsert key time item table) := by
  refine ⟨mem_upsert_keys.mpr (Or.inl rfl), ?_⟩
  intro row member sameKey older
  by_cases present : key item ∈ table.map key
  · rw [upsert_of_present present] at member
    rcases Multiset.mem_map.mp member with ⟨old, _, rowIs⟩
    split at rowIs
    · subst rowIs
      exact irrefl _ older
    · rename_i kept
      subst rowIs
      exact kept ⟨sameKey, older⟩
  · rw [upsert_of_absent present, Multiset.mem_cons] at member
    rcases member with rfl | member
    · exact irrefl _ older
    · exact present (Multiset.mem_map.mpr ⟨row, member, sameKey⟩)

theorem upserts_settles (had : item ∈ items) : Settles key time item (upserts key time items) := by
  induction items using List.reverseRecOn with
  | nil => cases had
  | append_singleton items last ih =>
      rw [upserts_snoc]
      rcases List.mem_append.mp had with earlier | isLast
      · exact (ih earlier).upsert last
      · rw [List.mem_singleton.mp isLast]
        exact upsert_settles

theorem upserts_keepsNewest : KeepsNewest key time items (upserts key time items) :=
  { once := upserts_nodup
    covers := fun _ member => (upserts_settles member).present
    fromItems := fun _ member => mem_upserts member
    newest := fun row rowMember _ member => (upserts_settles member).newer row rowMember }

end ChangeSql.NewestWins
