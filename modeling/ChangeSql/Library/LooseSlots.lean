/-
Slots that are out of order.

When an insertion is broken off halfway an item can be left in a slot with the
distance of another one. The distances are in bounds all the same: each could
be that of an item with a home among the first `homes` slots. This is enough
for searching and pushing to stay within the slots, and neither loses an item.
-/

import ChangeSql.Library.RobinHood

namespace ChangeSql.RobinHood

variable {α κ : Type}

/-- The slots from position `pos` on. -/
inductive Loose (homes limit : Nat) : Nat → List (Slot α) → Prop where
  | stop {pos : Nat} (late : homes + limit ≤ pos + 1) : Loose homes limit pos [.stop]
  | free {pos : Nat} {slots : List (Slot α)} (rest : Loose homes limit (pos + 1) slots) :
      Loose homes limit pos (.free :: slots)
  | taken {pos distance : Nat} {item : α} {slots : List (Slot α)} (short : distance < limit)
      (near : pos < homes + distance) (rest : Loose homes limit (pos + 1) slots) :
      Loose homes limit pos (.taken distance item :: slots)

variable {homes limit pos distance : Nat} {slots : List (Slot α)} {item : α}

theorem Loose.getLast (loose : Loose homes limit pos slots) : slots.getLast? = some .stop := by
  have ne_nil {pos : Nat} {slots : List (Slot α)} (loose : Loose homes limit pos slots) :
      slots ≠ [] := by
    cases loose <;> exact List.cons_ne_nil _ _
  induction loose with
  | stop late => rfl
  | free rest ih => rw [List.getLast?_cons_of_ne_nil (ne_nil rest), ih]
  | taken short near rest ih => rw [List.getLast?_cons_of_ne_nil (ne_nil rest), ih]

theorem Loose.length (loose : Loose homes limit pos slots) : homes + limit ≤ pos + slots.length := by
  induction loose with
  | stop late => exact late
  | free rest ih =>
      rw [List.length_cons]
      omega
  | taken short near rest ih =>
      rw [List.length_cons]
      omega

theorem Loose.split {front : List (Slot α)} (loose : Loose homes limit pos (front ++ slots))
    (some : slots ≠ []) :
    Loose homes limit (pos + front.length) slots ∧
      ∀ others, Loose homes limit (pos + front.length) others →
        Loose homes limit pos (front ++ others) := by
  induction front generalizing pos with
  | nil => exact ⟨loose, fun others looseOthers => looseOthers⟩
  | cons slot front ih =>
      rw [List.cons_append] at loose
      rw [List.length_cons, Nat.add_comm front.length, ← Nat.add_assoc]
      generalize restIs : front ++ slots = others at loose
      cases loose with
      | stop late => exact absurd (List.append_eq_nil_iff.mp restIs).2 some
      | free rest =>
          subst restIs
          rcases ih rest with ⟨behind, exchange⟩
          exact ⟨behind, fun others looseOthers => .free (exchange others looseOthers)⟩
      | taken short near rest =>
          subst restIs
          rcases ih rest with ⟨behind, exchange⟩
          exact ⟨behind, fun others looseOthers => .taken short near (exchange others looseOthers)⟩

inductive LooseSearched (key : α → κ) (homes limit pos : Nat) (k : κ) (slots : List (Slot α))
    (distance : Nat) : Search → Prop where
  | found {passed : Nat} (here : ∃ item ∈ items slots, key item = k) :
      LooseSearched key homes limit pos k slots distance (.found passed)
  | missed (front : List (Slot α)) {behind : List (Slot α)} (split : slots = front ++ behind)
      (bounded : distance + front.length ≤ limit)
      (closer : ∀ other item later, behind = .taken other item :: later →
        other < distance + front.length)
      (loose : Loose homes limit (pos + front.length) behind)
      (exchange : ∀ others, Loose homes limit (pos + front.length) others →
        Loose homes limit pos (front ++ others)) :
      LooseSearched key homes limit pos k slots distance (.missed front.length)

theorem Loose.missed {key : α → κ} {k : κ} (loose : Loose homes limit pos slots)
    (bounded : distance ≤ limit)
    (closer : ∀ other item later, slots = .taken other item :: later → other < distance) :
    LooseSearched key homes limit pos k slots distance (.missed 0) :=
  .missed [] rfl bounded closer loose fun _ looseOthers => looseOthers

theorem Loose.search [DecidableEq κ] {key : α → κ} {k : κ} (loose : Loose homes limit pos slots)
    (some : 0 < limit) (bounded : distance ≤ limit) (near : pos < homes + distance) :
    LooseSearched key homes limit pos k slots distance (search key k distance slots) := by
  induction loose generalizing distance with
  | @stop pos late =>
      have away : distance ≠ 0 := by omega
      rw [RobinHood.search, if_neg away]
      apply Loose.missed (.stop late) bounded
      intro other item later impossible
      cases impossible
  | @free pos slots rest ih =>
      apply Loose.missed (.free rest) bounded
      intro other item later impossible
      cases impossible
  | @taken pos other item slots short otherNear rest ih =>
      rw [RobinHood.search]
      by_cases closer : other < distance
      · rw [if_pos closer]
        apply Loose.missed (.taken short otherNear rest) bounded
        intro here atHere later slotIs
        cases slotIs
        exact closer
      · rw [if_neg closer]
        by_cases same : key item = k
        · rw [if_pos same]
          exact .found ⟨item, List.mem_cons_self, same⟩
        · rw [if_neg same]
          have behind := ih (by omega : distance + 1 ≤ limit) (by omega)
          generalize search key k (distance + 1) slots = ended at behind
          cases behind with
          | found here =>
              rcases here with ⟨member, inside, sameKey⟩
              exact .found ⟨member, List.mem_cons_of_mem _ inside, sameKey⟩
          | missed front split atMost closerLater looseLater exchange =>
              have shifted : pos + (Slot.taken other item :: front).length =
                  pos + 1 + front.length := by
                rw [List.length_cons]
                omega
              have further : distance + (Slot.taken other item :: front).length =
                  distance + 1 + front.length := by
                rw [List.length_cons]
                omega
              refine .missed (.taken other item :: front) (congrArg _ split) ?_ ?_ ?_ ?_
              · rw [further]
                exact atMost
              · rw [further]
                exact closerLater
              · rw [shifted]
                exact looseLater
              · rw [shifted]
                intro others looseOthers
                exact .taken short otherNear (exchange others looseOthers)

inductive LoosePushed (homes limit pos : Nat) (slots : List (Slot α)) (item : α) :
    Push α → Prop where
  | settled {others : List (Slot α)} (loose : Loose homes limit pos others)
      (perm : (items others).Perm (item :: items slots)) :
      LoosePushed homes limit pos slots item (.settled others)
  | crowded {others : List (Slot α)} {left : α} (loose : Loose homes limit pos others)
      (perm : (left :: items others).Perm (item :: items slots)) :
      LoosePushed homes limit pos slots item (.crowded others left)

theorem LoosePushed.swap {pushed : α} {other : Nat} {result : Push α} (short : distance < limit)
    (near : pos < homes + distance)
    (behind : LoosePushed homes limit (pos + 1) slots pushed result) :
    LoosePushed homes limit pos (.taken other pushed :: slots) item
      (result.behind (.taken distance item)) := by
  cases behind with
  | settled loose perm => exact .settled (.taken short near loose) (perm.cons item)
  | @crowded others left loose perm =>
      refine .crowded (.taken short near loose) ?_
      exact (List.Perm.swap item left _).trans (perm.cons item)

theorem LoosePushed.pass {stays : α} {other : Nat} {result : Push α} (short : other < limit)
    (near : pos < homes + other)
    (behind : LoosePushed homes limit (pos + 1) slots item result) :
    LoosePushed homes limit pos (.taken other stays :: slots) item
      (result.behind (.taken other stays)) := by
  cases behind with
  | settled loose perm =>
      refine .settled (.taken short near loose) ?_
      exact (perm.cons stays).trans (List.Perm.swap item stays _)
  | @crowded others left loose perm =>
      refine .crowded (.taken short near loose) ?_
      exact ((List.Perm.swap stays left _).trans (perm.cons stays)).trans
        (List.Perm.swap item stays _)

theorem Loose.push (loose : Loose homes limit pos slots) (short : distance < limit)
    (near : pos < homes + distance) :
    LoosePushed homes limit pos slots item (push limit distance item slots) := by
  induction loose generalizing distance item with
  | @stop pos late => omega
  | @free pos slots rest ih =>
      rw [RobinHood.push]
      exact .settled (.taken short near rest) (List.Perm.refl _)
  | @taken pos other pushed slots otherShort otherNear rest ih =>
      rw [RobinHood.push]
      by_cases closer : other < distance
      · rw [if_pos closer]
        exact .swap short near (ih (by omega) (by omega))
      · rw [if_neg closer]
        by_cases crowded : distance + 1 = limit
        · rw [if_pos crowded]
          exact .crowded (.taken otherShort otherNear rest) (List.Perm.refl _)
        · rw [if_neg crowded]
          exact .pass otherShort otherNear (ih (by omega) (by omega))

end ChangeSql.RobinHood
