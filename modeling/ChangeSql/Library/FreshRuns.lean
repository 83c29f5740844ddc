/-
Runs of items whose keys have not been seen.

A consumer that remembers the keys of everything it has read splits a list
into runs of items with new keys. `takeFresh` is the next such run, up to a
bound; `freshTail` is the length of the run that a list ends with.
-/

import Mathlib.Data.Finset.Insert
import Mathlib.Data.Finset.Dedup
import Mathlib.Data.Finset.Lattice.Lemmas
import Mathlib.Data.List.Nodup

namespace ChangeSql.FreshRuns

variable {α κ : Type} [DecidableEq κ] (key : α → κ)

/-- The longest run of items at the head of the list, at most `room` of them,
whose keys are new with respect to `seen` and to the items in front. -/
def takeFresh : Nat → Finset κ → List α → List α
  | 0, _, _ => []
  | _ + 1, _, [] => []
  | room + 1, seen, item :: items =>
      if key item ∈ seen then [] else item :: takeFresh room (insert (key item) seen) items

def keysOf (items : List α) : Finset κ :=
  (items.map key).toFinset

variable {key} in
theorem mem_keysOf {items : List α} {k : κ} :
    k ∈ keysOf key items ↔ ∃ item ∈ items, key item = k := by
  simp [keysOf]

variable {key} in
theorem keysOf_append (first second : List α) :
    keysOf key (first ++ second) = keysOf key first ∪ keysOf key second := by
  simp [keysOf]

variable {key} in
theorem keysOf_cons (item : α) (items : List α) :
    keysOf key (item :: items) = insert (key item) (keysOf key items) := by
  simp [keysOf]

theorem keysOf_nil : keysOf key [] = ∅ := rfl

variable {key} in
theorem union_keysOf_seen {seen : Finset κ} {item : α} (old : key item ∈ seen) :
    seen ∪ keysOf key [item] = seen := by
  apply Finset.union_eq_left.mpr
  intro k member
  obtain ⟨other, only, same⟩ := mem_keysOf.mp member
  rw [← same, List.mem_singleton.mp only]
  exact old

theorem takeFresh_prefix (room : Nat) (seen : Finset κ) (items : List α) :
    takeFresh key room seen items <+: items := by
  induction room generalizing seen items with
  | zero => exact List.nil_prefix
  | succ room ih =>
      cases items with
      | nil => exact List.nil_prefix
      | cons item items =>
          unfold takeFresh
          split
          · exact List.nil_prefix
          · exact List.prefix_cons_inj item |>.mpr (ih _ items)

theorem takeFresh_length_le (room : Nat) (seen : Finset κ) (items : List α) :
    (takeFresh key room seen items).length ≤ room := by
  induction room generalizing seen items with
  | zero => exact Nat.le_refl _
  | succ room ih =>
      cases items with
      | nil => exact Nat.zero_le _
      | cons item items =>
          unfold takeFresh
          split
          · exact Nat.zero_le _
          · exact Nat.succ_le_succ (ih _ items)

variable {key} in
theorem takeFresh_new {room : Nat} {seen : Finset κ} {items : List α} {item : α}
    (taken : item ∈ takeFresh key room seen items) : key item ∉ seen := by
  induction room generalizing seen items with
  | zero => cases taken
  | succ room ih =>
      cases items with
      | nil => cases taken
      | cons head items =>
          unfold takeFresh at taken
          split at taken
          · cases taken
          · rename_i new
            rcases List.mem_cons.mp taken with same | later
            · rw [same]
              exact new
            · intro old
              exact ih later (Finset.mem_insert_of_mem old)

theorem takeFresh_nodup (room : Nat) (seen : Finset κ) (items : List α) :
    ((takeFresh key room seen items).map key).Nodup := by
  induction room generalizing seen items with
  | zero => exact List.nodup_nil
  | succ room ih =>
      cases items with
      | nil => exact List.nodup_nil
      | cons item items =>
          unfold takeFresh
          split
          · exact List.nodup_nil
          · rw [List.map_cons, List.nodup_cons]
            refine ⟨?_, ih _ items⟩
            intro again
            obtain ⟨other, taken, same⟩ := List.mem_map.mp again
            apply takeFresh_new taken
            rw [same]
            exact Finset.mem_insert_self _ _

variable {key} in
/-- What stops a run that has not used up its room: the end of the list or an
item with a key that is known by then. -/
theorem takeFresh_stop {room : Nat} {seen : Finset κ} {items : List α}
    (short : (takeFresh key room seen items).length < room) {item : α}
    (next : items[(takeFresh key room seen items).length]? = some item) :
    key item ∈ seen ∪ keysOf key (takeFresh key room seen items) := by
  induction room generalizing seen items with
  | zero => exact absurd short (Nat.not_lt_zero _)
  | succ room ih =>
      cases items with
      | nil => cases next
      | cons head items =>
          unfold takeFresh at short next ⊢
          split at short
          · rename_i old
            rw [if_pos old] at next ⊢
            cases next
            exact Finset.mem_union_left _ old
          · rename_i new
            rw [if_neg new] at next ⊢
            have member := ih (Nat.lt_of_succ_lt_succ short) next
            rw [keysOf_cons]
            simp only [Finset.mem_union, Finset.mem_insert] at member ⊢
            tauto

/-- Every item of the run has a key of its own, none of them in `seen`. -/
structure AllNew (seen : Finset κ) (run : List α) : Prop where
  new : ∀ item ∈ run, key item ∉ seen
  distinct : (run.map key).Nodup

theorem takeFresh_allNew (room : Nat) (seen : Finset κ) (items : List α) :
    AllNew key seen (takeFresh key room seen items) :=
  ⟨fun _ taken => takeFresh_new taken, takeFresh_nodup key room seen items⟩

/-! ### Stretches of new items -/

/-- No more than `bound` items in a row have keys that are neither in `seen`
nor those of items in front. -/
def StretchesAtMost (bound : Nat) (seen : Finset κ) (items : List α) : Prop :=
  ∀ earlier run later, items = earlier ++ run ++ later →
    AllNew key (seen ∪ keysOf key earlier) run → run.length ≤ bound

variable {key} in
theorem AllNew.not_mem_of_getElem? {seen : Finset κ} {earlier run later : List α}
    (allNew : AllNew key (seen ∪ keysOf key earlier) run) {k : Nat} (behind : earlier.length ≤ k)
    (inside : k < earlier.length + run.length) {item : α}
    (at_k : (earlier ++ run ++ later)[k]? = some item) :
    key item ∉ seen ∪ keysOf key ((earlier ++ run ++ later).take k) := by
  obtain ⟨j, rfl⟩ := Nat.exists_eq_add_of_le behind
  have short : j < run.length := Nat.lt_of_add_lt_add_left inside
  have taken : (earlier ++ run ++ later).take (earlier.length + j) = earlier ++ run.take j := by
    rw [List.append_assoc, List.take_length_add_append, List.take_append_of_le_length short.le]
  have at_j : run[j]? = some item := by
    rw [List.append_assoc, List.getElem?_append_right (Nat.le_add_right _ _),
      Nat.add_sub_cancel_left, List.getElem?_append_left short] at at_k
    exact at_k
  have distinct := allNew.distinct
  rw [taken, keysOf_append, ← Finset.union_assoc, Finset.mem_union, not_or]
  refine ⟨allNew.new item (List.mem_of_getElem? at_j), ?_⟩
  intro again
  obtain ⟨other, member, same⟩ := mem_keysOf.mp again
  obtain ⟨i, at_i⟩ := List.getElem?_of_mem member
  have before : i < j := by
    have small := (List.getElem?_eq_some_iff.mp at_i).1
    rw [List.length_take] at small
    omega
  rw [List.getElem?_take_of_lt before] at at_i
  have keys_i : (run.map key)[i]? = some (key item) := by
    rw [List.getElem?_map, at_i, Option.map_some, same]
  have keys_j : (run.map key)[j]? = some (key item) := by
    rw [List.getElem?_map, at_j, Option.map_some]
  have equal := (List.nodup_iff_getElem?_ne_getElem?.mp distinct) i j before
    (by rw [List.length_map]; exact short)
  exact equal (keys_i.trans keys_j.symm)

/-! ### The run at the end of a list -/

/-- The argument is the list of keys from the last one backwards. -/
def freshRun : List κ → Nat
  | [] => 0
  | k :: earlier => if k ∈ earlier then 0 else freshRun earlier + 1

theorem freshRun_cons_seen {k : κ} {earlier : List κ} (old : k ∈ earlier) :
    freshRun (k :: earlier) = 0 :=
  if_pos old

theorem freshRun_cons_new {k : κ} {earlier : List κ} (new : k ∉ earlier) :
    freshRun (k :: earlier) = freshRun earlier + 1 :=
  if_neg new

/-- How many items the list has behind the last one whose key occurs before. -/
def freshTail (items : List α) : Nat :=
  freshRun (items.map key).reverse

variable {key} in
theorem freshTail_snoc_seen {earlier : List α} {item : α}
    (old : key item ∈ keysOf key earlier) : freshTail key (earlier ++ [item]) = 0 := by
  unfold freshTail
  rw [List.map_append, List.reverse_append]
  apply freshRun_cons_seen
  simpa [keysOf] using old

variable {key} in
theorem freshTail_append_new {earlier run : List α}
    (allNew : AllNew key (keysOf key earlier) run) :
    freshTail key (earlier ++ run) = freshTail key earlier + run.length := by
  obtain ⟨new, distinct⟩ := allNew
  induction run using List.reverseRecOn with
  | nil => simp
  | append_singleton run item ih =>
      rw [List.map_append, List.nodup_append] at distinct
      have ihRun := ih (fun other member => new other (List.mem_append_left _ member)) distinct.1
      unfold freshTail at ihRun ⊢
      rw [← List.append_assoc, List.map_append, List.reverse_append]
      change freshRun (key item :: ((earlier ++ run).map key).reverse) = _
      rw [freshRun_cons_new, ihRun, List.length_append, List.length_singleton, Nat.add_assoc]
      rw [List.mem_reverse, List.map_append, List.mem_append]
      rintro (old | again)
      · apply new item (List.mem_append_right _ List.mem_cons_self)
        simpa [keysOf] using old
      · exact distinct.2.2 _ again (key item) (by simp) rfl

end ChangeSql.FreshRuns
