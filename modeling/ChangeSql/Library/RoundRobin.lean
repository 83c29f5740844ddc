/-
Items dealt out in turn.

A hand gets every item whose number leaves its own remainder. No item is lost
or dealt twice, each hand keeps the order, and the first hands have one item
more than the others.
-/

import Mathlib.Data.Int.CardIntervalMod
import Mathlib.Data.List.Nodup
import Mathlib.Data.List.Perm.Basic

namespace ChangeSql.RoundRobin

variable {α : Type} {hands hand : Nat} {dealt : List (List α)}

def dealFrom (hands : Nat) : Nat → List (List α) → List α → List (List α)
  | _, dealt, [] => dealt
  | start, dealt, item :: items =>
      dealFrom hands (start + 1) (dealt.modify (start % hands) (· ++ [item])) items

def shareFrom (hands hand start : Nat) (items : List α) : List α :=
  ((items.zipIdx start).filter fun entry => entry.2 % hands = hand).map Prod.fst

theorem shareFrom_cons (hands hand start : Nat) (item : α) (items : List α) :
    shareFrom hands hand start (item :: items) =
      (if start % hands = hand then [item] else []) ++ shareFrom hands hand (start + 1) items := by
  unfold shareFrom
  rw [List.zipIdx_cons, List.filter_cons]
  by_cases mine : start % hands = hand
  · simp [mine]
  · simp [mine]

theorem getElem?_dealFrom (start : Nat) (dealt : List (List α)) (items : List α) :
    (dealFrom hands start dealt items)[hand]? =
      dealt[hand]?.map (· ++ shareFrom hands hand start items) := by
  induction items generalizing start dealt with
  | nil =>
      change dealt[hand]? = dealt[hand]?.map (· ++ [])
      simp
  | cons item items ih =>
      unfold dealFrom
      rw [ih, shareFrom_cons, List.getElem?_modify]
      by_cases mine : start % hands = hand
      · simp [mine, Function.comp_def]
      · simp [mine]

theorem length_dealFrom (start : Nat) (dealt : List (List α)) (items : List α) :
    (dealFrom hands start dealt items).length = dealt.length := by
  induction items generalizing start dealt with
  | nil => rfl
  | cons item items ih =>
      unfold dealFrom
      rw [ih, List.length_modify]

theorem flatten_modify_perm {item : α} (inside : hand < dealt.length) :
    (dealt.modify hand (· ++ [item])).flatten.Perm (item :: dealt.flatten) := by
  induction dealt generalizing hand with
  | nil => cases inside
  | cons first dealt ih =>
      cases hand with
      | zero =>
          rw [List.modify_zero_cons, List.flatten_cons, List.append_assoc]
          exact List.perm_middle
      | succ hand =>
          rw [List.modify_succ_cons, List.flatten_cons]
          exact ((ih (Nat.lt_of_succ_lt_succ inside)).append_left first).trans List.perm_middle

theorem flatten_dealFrom_perm (some : 0 < hands) (start : Nat) (items : List α)
    (sized : dealt.length = hands) :
    (dealFrom hands start dealt items).flatten.Perm (dealt.flatten ++ items) := by
  induction items generalizing start dealt with
  | nil =>
      rw [List.append_nil]
      exact List.Perm.refl _
  | cons item items ih =>
      have inside : start % hands < dealt.length := by
        rw [sized]
        exact Nat.mod_lt start some
      have grown : (dealt.modify (start % hands) (· ++ [item])).length = hands := by
        rw [List.length_modify, sized]
      exact (ih (start + 1) grown).trans (((flatten_modify_perm inside).append_right items).trans
        List.perm_middle.symm)

/-- All items, from the first one on, to so many empty hands. -/
def deal (hands : Nat) (items : List α) : List (List α) :=
  dealFrom hands 0 (List.replicate hands []) items

def share (hands hand : Nat) (items : List α) : List α :=
  shareFrom hands hand 0 items

theorem length_deal (hands : Nat) (items : List α) : (deal hands items).length = hands :=
  (length_dealFrom 0 _ items).trans List.length_replicate

theorem getElem?_deal (inside : hand < hands) (items : List α) :
    (deal hands items)[hand]? = some (share hands hand items) := by
  unfold deal share
  rw [getElem?_dealFrom, List.getElem?_replicate_of_lt inside]
  rfl

theorem flatten_deal_perm (some : 0 < hands) (items : List α) :
    (deal hands items).flatten.Perm items := by
  have dealt : (deal hands items).flatten.Perm ((List.replicate hands []).flatten ++ items) :=
    flatten_dealFrom_perm some 0 items List.length_replicate
  rw [List.flatten_replicate_nil, List.nil_append] at dealt
  exact dealt

theorem length_shareFrom (hands hand start : Nat) (items : List α) :
    start.count (· % hands = hand) + (shareFrom hands hand start items).length =
      (start + items.length).count (· % hands = hand) := by
  induction items generalizing start with
  | nil => rfl
  | cons item items ih =>
      have rest := ih (start + 1)
      rw [Nat.count_succ] at rest
      rw [shareFrom_cons, List.length_append, List.length_cons,
        show start + (items.length + 1) = start + 1 + items.length by omega, ← rest,
        apply_ite List.length]
      change _ + ((if start % hands = hand then 1 else 0) + _) = _
      omega

/-- The loads differ by one item at most. -/
theorem length_share (inside : hand < hands) (items : List α) :
    (share hands hand items).length =
      items.length / hands + if hand < items.length % hands then 1 else 0 := by
  have counted := length_shareFrom hands hand 0 items
  have modulo : (fun k => k % hands = hand) = fun k => k ≡ hand [MOD hands] := by
    funext k
    rw [Nat.ModEq, Nat.mod_eq_of_lt inside]
  rw [Nat.count_zero, Nat.zero_add, Nat.zero_add] at counted
  unfold share
  rw [counted]
  simp only [modulo]
  rw [Nat.count_modEq_card items.length (Nat.zero_lt_of_lt inside), Nat.mod_eq_of_lt inside]

theorem loads_close (items : List α) {first second : List α} (firstDealt : first ∈ deal hands items)
    (secondDealt : second ∈ deal hands items) : first.length ≤ second.length + 1 := by
  have load : ∀ held ∈ deal hands items, items.length / hands ≤ held.length ∧
      held.length ≤ items.length / hands + 1 := by
    intro held member
    rcases List.getElem?_of_mem member with ⟨hand, atHand⟩
    have inside := (List.getElem?_eq_some_iff.mp atHand).1
    rw [length_deal] at inside
    rw [getElem?_deal inside, Option.some_inj] at atHand
    have size := length_share inside items
    rw [atHand] at size
    split at size
    · omega
    · omega
  have least := (load second secondDealt).1
  have most := (load first firstDealt).2
  omega

/-- An item that is there once is in the hand of one only. -/
theorem exists_hand {item : α} (once : dealt.flatten.Nodup) (member : item ∈ dealt.flatten) :
    ∃ hand < dealt.length, ∀ other held, dealt[other]? = some held →
      (item ∈ held ↔ other = hand) := by
  rcases List.mem_flatten.mp member with ⟨mine, inDealt, inMine⟩
  rcases List.getElem?_of_mem inDealt with ⟨hand, atHand⟩
  rcases List.getElem?_eq_some_iff.mp atHand with ⟨inside, handIs⟩
  have apart := List.pairwise_iff_getElem.mp (List.nodup_flatten.mp once).2
  refine ⟨hand, inside, ?_⟩
  intro other held atOther
  rcases List.getElem?_eq_some_iff.mp atOther with ⟨otherInside, otherIs⟩
  constructor
  · intro inHeld
    rw [← otherIs] at inHeld
    rw [← handIs] at inMine
    rcases Nat.lt_trichotomy other hand with below | same | above
    · exact absurd inMine (apart other hand otherInside inside below inHeld)
    · exact same
    · exact absurd inHeld (apart hand other inside otherInside above inMine)
  · rintro rfl
    rw [atHand, Option.some_inj] at atOther
    rw [← atOther]
    exact inMine

end ChangeSql.RoundRobin
