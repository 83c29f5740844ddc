/-
Slots of a table with open addressing that are kept in Robin Hood order.

An item sits at its home or a few slots behind it, and the slot says how far
behind. Along the slots this distance grows by at most one, so that a search
that starts at the home of a key can stop at the first slot that is closer to
home than the search. The slots end with a stop that holds no item.
-/

import Mathlib.Data.List.Perm.Basic

namespace ChangeSql.RobinHood

variable {α κ : Type}

inductive Slot (α : Type) where
  | free
  | taken (distance : Nat) (item : α)
  | stop
  deriving DecidableEq, Repr

def Slot.item? : Slot α → Option α
  | free => none
  | taken _ item => some item
  | stop => none

def items (slots : List (Slot α)) : List α :=
  slots.filterMap Slot.item?

theorem items_append (front slots : List (Slot α)) :
    items (front ++ slots) = items front ++ items slots :=
  List.filterMap_append

theorem items_taken (distance : Nat) (item : α) (slots : List (Slot α)) :
    items (.taken distance item :: slots) = item :: items slots := rfl

theorem mem_items_of_getElem? {slots : List (Slot α)} {i distance : Nat} {item : α}
    (here : slots[i]? = some (.taken distance item)) : item ∈ items slots :=
  List.mem_filterMap.mpr ⟨.taken distance item, List.mem_of_getElem? here, rfl⟩

/-- The slots from position `pos` on. A distance is below `limit`, and the
first one is at most `reach`. -/
inductive Arranged (home : α → Nat) (limit : Nat) : Nat → Nat → List (Slot α) → Prop where
  | stop {reach pos : Nat} : Arranged home limit reach pos [.stop]
  | free {reach pos : Nat} {slots : List (Slot α)}
      (rest : Arranged home limit 0 (pos + 1) slots) :
      Arranged home limit reach pos (.free :: slots)
  | taken {reach pos distance : Nat} {item : α} {slots : List (Slot α)}
      (placed : home item + distance = pos) (within : distance ≤ reach) (short : distance < limit)
      (rest : Arranged home limit (distance + 1) (pos + 1) slots) :
      Arranged home limit reach pos (.taken distance item :: slots)

section

variable {home : α → Nat} {limit reach pos : Nat} {slots : List (Slot α)}

theorem Arranged.mono (arranged : Arranged home limit reach pos slots) {further : Nat}
    (more : reach ≤ further) : Arranged home limit further pos slots := by
  cases arranged with
  | stop => exact .stop
  | free rest => exact .free rest
  | taken placed within short rest => exact .taken placed (Nat.le_trans within more) short rest

theorem Arranged.ne_nil (arranged : Arranged home limit reach pos slots) : slots ≠ [] := by
  cases arranged <;> exact List.cons_ne_nil _ _

theorem Arranged.getLast (arranged : Arranged home limit reach pos slots) :
    slots.getLast? = some .stop := by
  induction arranged with
  | stop => rfl
  | free rest ih => rw [List.getLast?_cons_of_ne_nil rest.ne_nil, ih]
  | taken placed within short rest ih => rw [List.getLast?_cons_of_ne_nil rest.ne_nil, ih]

theorem Arranged.split {front : List (Slot α)}
    (arranged : Arranged home limit reach pos (front ++ slots)) (some : slots ≠ []) :
    ∃ within ≤ reach + (items front).length,
      Arranged home limit within (pos + front.length) slots ∧
      ∀ others, Arranged home limit within (pos + front.length) others →
        Arranged home limit reach pos (front ++ others) := by
  induction front generalizing reach pos with
  | nil => exact ⟨reach, Nat.le_refl _, arranged, fun others arrangedOthers => arrangedOthers⟩
  | cons slot front ih =>
      rw [List.cons_append] at arranged
      generalize restIs : front ++ slots = others at arranged
      cases arranged with
      | stop => exact absurd (List.append_eq_nil_iff.mp restIs).2 some
      | free rest =>
          subst restIs
          rcases ih rest with ⟨within, crowd, behind, exchange⟩
          have further : within ≤ reach + (items (.free :: front)).length := by
            change within ≤ reach + (items front).length
            omega
          rw [List.length_cons, Nat.add_comm front.length, ← Nat.add_assoc]
          exact ⟨within, further, behind,
            fun others arrangedOthers => .free (exchange others arrangedOthers)⟩
      | taken placed bounded short rest =>
          subst restIs
          rcases ih rest with ⟨within, crowd, behind, exchange⟩
          rw [List.length_cons, Nat.add_comm front.length, ← Nat.add_assoc]
          refine ⟨within, ?_, behind, fun others arrangedOthers =>
            .taken placed bounded short (exchange others arrangedOthers)⟩
          rw [items_taken, List.length_cons]
          omega

theorem Arranged.replace {front behind : List (Slot α)} {distance : Nat} {old new : α}
    (arranged : Arranged home limit reach pos (front ++ .taken distance old :: behind))
    (same : home new = home old) :
    Arranged home limit reach pos (front ++ .taken distance new :: behind) := by
  rcases arranged.split (List.cons_ne_nil _ _) with ⟨within, _, here, exchange⟩
  apply exchange
  cases here with
  | taken placed bounded short rest => exact .taken (same ▸ placed) bounded short rest

theorem Arranged.home_lt {front : List (Slot α)}
    (arranged : Arranged home limit reach pos (front ++ slots)) {item : α}
    (member : item ∈ items front) : home item < pos + front.length := by
  induction front generalizing reach pos with
  | nil => cases member
  | cons slot front ih =>
      rw [List.cons_append] at arranged
      generalize restIs : front ++ slots = others at arranged
      rw [List.length_cons]
      cases arranged with
      | stop =>
          rw [(List.append_eq_nil_iff.mp restIs).1] at member
          cases member
      | free rest =>
          subst restIs
          have before := ih rest member
          omega
      | taken placed within short rest =>
          subst restIs
          rw [items_taken] at member
          rcases List.mem_cons.mp member with rfl | later
          · omega
          · have before := ih rest later
            omega

theorem Arranged.le_home (arranged : Arranged home limit reach pos slots) {item : α}
    (member : item ∈ items slots) : pos ≤ home item + reach := by
  induction arranged with
  | stop => cases member
  | free rest ih =>
      have later := ih member
      omega
  | taken placed within short rest ih =>
      rw [items_taken] at member
      rcases List.mem_cons.mp member with rfl | behind
      · omega
      · have later := ih behind
        omega

end

/-! ### Searching -/

/-- How a search ends: at an item with the key, at a slot that is closer to
home than the search, or at a slot that has nothing to compare. The first two
say how many slots were passed. -/
inductive Search where
  | found (passed : Nat)
  | missed (passed : Nat)
  | astray
  deriving DecidableEq, Repr

def Search.step : Search → Search
  | found passed => found (passed + 1)
  | missed passed => missed (passed + 1)
  | astray => astray

def search [DecidableEq κ] (key : α → κ) (k : κ) : Nat → List (Slot α) → Search
  | _, [] => .astray
  | _, .free :: _ => .missed 0
  | distance, .stop :: _ => if distance = 0 then .astray else .missed 0
  | distance, .taken other item :: slots =>
      if other < distance then .missed 0
      else if key item = k then .found 0
      else (search key k (distance + 1) slots).step

section

variable {key : α → κ} {home : κ → Nat} {limit reach pos distance : Nat} {slots : List (Slot α)} {k : κ}

/-- What an ended search has established. The slots from the one that it ends
at can be exchanged for others. -/
inductive Searched (key : α → κ) (home : α → Nat) (limit reach pos : Nat) (k : κ)
    (slots : List (Slot α)) (distance : Nat) : Search → Prop where
  | found (front : List (Slot α)) {behind : List (Slot α)} {other : Nat} {item : α}
      (split : slots = front ++ .taken other item :: behind) (same : key item = k) :
      Searched key home limit reach pos k slots distance (.found front.length)
  | missed (front : List (Slot α)) {behind : List (Slot α)} {within : Nat}
      (split : slots = front ++ behind)
      (absent : ∀ item ∈ items slots, key item ≠ k)
      (closer : ∀ other item later, behind = .taken other item :: later →
        other < distance + front.length)
      (reached : distance + front.length ≤ within) (bounded : distance + front.length ≤ limit)
      (crowd : within ≤ reach + (items front).length)
      (arranged : Arranged home limit within (pos + front.length) behind)
      (exchange : ∀ others, Arranged home limit within (pos + front.length) others →
        Arranged home limit reach pos (front ++ others)) :
      Searched key home limit reach pos k slots distance (.missed front.length)

variable {homeOf : α → Nat}

theorem Arranged.missed (arranged : Arranged homeOf limit reach pos slots)
    (within : distance ≤ reach) (bounded : distance ≤ limit)
    (absent : ∀ item ∈ items slots, key item ≠ k)
    (closer : ∀ other item later, slots = .taken other item :: later → other < distance) :
    Searched key homeOf limit reach pos k slots distance (.missed 0) :=
  .missed [] rfl absent closer within bounded (Nat.le_refl _) arranged
    fun _ arrangedOthers => arrangedOthers

theorem Searched.step {searched : Search} {other : Nat} {item : α} (different : key item ≠ k)
    (placed : homeOf item + other = pos) (bounded : other ≤ reach) (short : other < limit)
    (ended : Searched key homeOf limit (other + 1) (pos + 1) k slots (distance + 1) searched) :
    Searched key homeOf limit reach pos k (.taken other item :: slots) distance searched.step := by
  cases ended with
  | found front split same =>
      rw [split]
      exact .found (.taken other item :: front) rfl same
  | missed front split absent closer reached atMost crowd arranged exchange =>
      have shifted : pos + (Slot.taken other item :: front).length = pos + 1 + front.length := by
        rw [List.length_cons]
        omega
      refine .missed (.taken other item :: front) (congrArg _ split) ?_ ?_ ?_ ?_ ?_
        (shifted ▸ arranged) ?_
      · intro member inside
        rw [items_taken] at inside
        rcases List.mem_cons.mp inside with rfl | later
        · exact different
        · exact absent member later
      · intro other item later behindIs
        have before := closer other item later behindIs
        rw [List.length_cons]
        omega
      · rw [List.length_cons]
        omega
      · rw [List.length_cons]
        omega
      · rw [items_taken, List.length_cons]
        omega
      · intro others arrangedOthers
        rw [shifted] at arrangedOthers
        exact .taken placed bounded short (exchange others arrangedOthers)

/-- A search that starts at the home of its key comes to an end, and if it
does not find the key, then nothing has this key. -/
theorem Arranged.search [DecidableEq κ]
    (arranged : Arranged (fun item => home (key item)) limit reach pos slots)
    (from_home : home k + distance = pos) (within : distance ≤ reach) (bounded : distance ≤ limit)
    (room : home k + 1 < pos + slots.length) :
    Searched key (fun item => home (key item)) limit reach pos k slots distance
      (search key k distance slots) := by
  induction arranged generalizing distance with
  | @stop reach pos =>
      rw [List.length_singleton] at room
      have away : distance ≠ 0 := by omega
      rw [RobinHood.search, if_neg away]
      apply Arranged.missed .stop within bounded
      · intro item impossible
        cases impossible
      · intro other item later impossible
        cases impossible
  | @free reach pos slots rest ih =>
      apply Arranged.missed (.free rest) within bounded
      · intro item member same
        have late := rest.le_home member
        rw [same] at late
        omega
      · intro other item later impossible
        cases impossible
  | @taken reach pos other item slots placed otherWithin short rest ih =>
      rw [RobinHood.search]
      by_cases closer : other < distance
      · have here : Arranged (fun item => home (key item)) limit reach pos
            (.taken other item :: slots) := .taken placed otherWithin short rest
        rw [if_pos closer]
        apply here.missed within bounded
        · intro member inside same
          rw [items_taken] at inside
          rcases List.mem_cons.mp inside with rfl | later
          · rw [same] at placed
            omega
          · have late := rest.le_home later
            rw [same] at late
            omega
        · intro here atHere later slotIs
          cases slotIs
          exact closer
      · rw [if_neg closer]
        by_cases same : key item = k
        · rw [if_pos same]
          exact .found [] rfl same
        · rw [if_neg same]
          rw [List.length_cons] at room
          exact Searched.step same placed otherWithin short
            (ih (by omega) (by omega) (by omega) (by omega))

end

/-! ### Making room -/

/-- What comes of pushing items on to later slots: all of them have a slot, or
the last one pushed would come to sit too far from home, or a slot had no item
to push. -/
inductive Push (α : Type) where
  | settled (slots : List (Slot α))
  | crowded (slots : List (Slot α)) (left : α)
  | astray
  deriving DecidableEq, Repr

def Push.behind (slot : Slot α) : Push α → Push α
  | settled slots => settled (slot :: slots)
  | crowded slots left => crowded (slot :: slots) left
  | astray => astray

/-- Puts an item into the first slot that is closer to home than the item, and
goes on with the item that was there. -/
def push (limit : Nat) : Nat → α → List (Slot α) → Push α
  | _, _, [] => .astray
  | distance, item, .free :: slots => .settled (.taken distance item :: slots)
  | _, _, .stop :: _ => .astray
  | distance, item, .taken other pushed :: slots =>
      if other < distance then
        (push limit (other + 1) pushed slots).behind (.taken distance item)
      else if distance + 1 = limit then .crowded (.taken other pushed :: slots) item
      else (push limit (distance + 1) item slots).behind (.taken other pushed)

section

variable {home : α → Nat} {limit reach pos distance : Nat} {slots : List (Slot α)} {item : α}

inductive Pushed (home : α → Nat) (limit reach pos : Nat) (slots : List (Slot α)) (item : α) :
    Push α → Prop where
  | settled {others : List (Slot α)} (arranged : Arranged home limit reach pos others)
      (length : others.length = slots.length) (perm : (items others).Perm (item :: items slots)) :
      Pushed home limit reach pos slots item (.settled others)
  | crowded {others : List (Slot α)} {left : α} (length : others.length = slots.length)
      (last : others.getLast? = some .stop) (perm : (left :: items others).Perm (item :: items slots))
      (crowd : limit ≤ reach + (items slots).length) :
      Pushed home limit reach pos slots item (.crowded others left)

/-- Pushing keeps the order of the slots and loses no item. -/
theorem Arranged.push (arranged : Arranged home limit reach pos slots)
    (placed : home item + distance = pos) (within : distance ≤ reach) (short : distance < limit)
    (room : ∀ item, home item + limit < pos + slots.length) :
    Pushed home limit reach pos slots item (push limit distance item slots) := by
  induction arranged generalizing distance item with
  | @stop reach pos =>
      have before := room item
      rw [List.length_singleton] at before
      omega
  | @free reach pos slots rest ih =>
      rw [RobinHood.push]
      exact .settled (.taken placed within short (rest.mono (Nat.zero_le _))) rfl (List.Perm.refl _)
  | @taken reach pos other pushed slots otherPlaced bounded otherShort rest ih =>
      have roomBehind : ∀ item, home item + limit < pos + 1 + slots.length := by
        intro item
        have before := room item
        rw [List.length_cons] at before
        omega
      rw [RobinHood.push]
      by_cases closer : other < distance
      · rw [if_pos closer]
        have pushedPlaced : home pushed + (other + 1) = pos + 1 := by omega
        have behind := ih pushedPlaced (Nat.le_refl _) (by omega) roomBehind
        cases behindIs : RobinHood.push limit (other + 1) pushed slots with
        | astray =>
            rw [behindIs] at behind
            cases behind
        | settled others =>
            rw [behindIs] at behind
            cases behind with
            | settled arrangedOthers length perm =>
                refine .settled (.taken placed within short (arrangedOthers.mono (by omega))) ?_ ?_
                · rw [List.length_cons, length, List.length_cons]
                · rw [items_taken, items_taken]
                  exact perm.cons item
        | crowded others left =>
            rw [behindIs] at behind
            cases behind with
            | crowded length last perm crowd =>
                refine .crowded ?_ ?_ ?_ ?_
                · rw [List.length_cons, length, List.length_cons]
                · rw [List.getLast?_cons, last]
                  rfl
                · rw [items_taken, items_taken]
                  exact (List.Perm.swap item left _).trans (perm.cons item)
                · rw [items_taken, List.length_cons]
                  omega
      · rw [if_neg closer]
        by_cases crowded : distance + 1 = limit
        · rw [if_pos crowded]
          refine .crowded rfl ?_ (List.Perm.refl _) ?_
          · rw [List.getLast?_cons, rest.getLast]
            rfl
          · rw [items_taken, List.length_cons]
            omega
        · rw [if_neg crowded]
          have further : home item + (distance + 1) = pos + 1 := by omega
          have behind := ih further (by omega) (by omega) roomBehind
          cases behindIs : RobinHood.push limit (distance + 1) item slots with
          | astray =>
              rw [behindIs] at behind
              cases behind
          | settled others =>
              rw [behindIs] at behind
              cases behind with
              | settled arrangedOthers length perm =>
                  refine .settled (.taken otherPlaced bounded otherShort arrangedOthers) ?_ ?_
                  · rw [List.length_cons, length, List.length_cons]
                  · rw [items_taken, items_taken]
                    exact (perm.cons pushed).trans (List.Perm.swap item pushed _)
          | crowded others left =>
              rw [behindIs] at behind
              cases behind with
              | crowded length last perm crowd =>
                  refine .crowded ?_ ?_ ?_ ?_
                  · rw [List.length_cons, length, List.length_cons]
                  · rw [List.getLast?_cons, last]
                    rfl
                  · rw [items_taken, items_taken]
                    exact ((List.Perm.swap pushed left _).trans (perm.cons pushed)).trans
                      (List.Perm.swap item pushed _)
                  · rw [items_taken, List.length_cons]
                    omega

end

end ChangeSql.RobinHood
