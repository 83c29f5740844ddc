/-
Hashes that take their input stripe by stripe, in blocks of so many stripes.

Each stripe is absorbed with its number in the block, and a full block is
followed by a scramble. A state is an accumulator and that number, so that
absorbing two lists of stripes is absorbing the first one and then the second.
-/

namespace ChangeSql.StripeHash

section

variable {α β : Type}

def pieces (size : Nat) : Nat → List β → List (List β)
  | 0, _ => []
  | count + 1, items => items.take size :: pieces size count (items.drop size)

theorem pieces_succ (size count : Nat) (items : List β) :
    pieces size (count + 1) items = items.take size :: pieces size count (items.drop size) :=
  rfl

theorem length_pieces (size count : Nat) (items : List β) :
    (pieces size count items).length = count := by
  induction count generalizing items with
  | zero => rfl
  | succ count ih =>
      unfold pieces
      rw [List.length_cons, ih]

theorem pieces_add (size first second : Nat) (items : List β) :
    pieces size (first + second) items =
      pieces size first items ++ pieces size second (items.drop (size * first)) := by
  induction first generalizing items with
  | zero =>
      rw [Nat.zero_add, Nat.mul_zero]
      rfl
  | succ first ih =>
      rw [Nat.add_right_comm, pieces_succ, pieces_succ, ih, List.drop_drop, List.cons_append,
        Nat.mul_succ, Nat.add_comm size]

theorem pieces_append {size count : Nat} {items : List β} (enough : size * count ≤ items.length)
    (more : List β) : pieces size count (items ++ more) = pieces size count items := by
  induction count generalizing items with
  | zero => rfl
  | succ count ih =>
      rw [Nat.mul_succ] at enough
      unfold pieces
      rw [List.take_append_of_le_length (by omega), List.drop_append_of_le_length (by omega), ih]
      rw [List.length_drop]
      omega

end

variable {α σ : Type} (absorb : α → Nat → σ → α) (scramble : α → α) (perBlock : Nat)

/-- The accumulator and the number of stripes in the current block. -/
def feed (state : α × Nat) (stripe : σ) : α × Nat :=
  let accumulated := absorb state.1 state.2 stripe
  if state.2 + 1 = perBlock then (scramble accumulated, 0) else (accumulated, state.2 + 1)

def feedAll (state : α × Nat) (stripes : List σ) : α × Nat :=
  stripes.foldl (feed absorb scramble perBlock) state

def within (soFar : Nat) (accumulated : α) : List σ → α
  | [] => accumulated
  | stripe :: stripes => within (soFar + 1) (absorb accumulated soFar stripe) stripes

variable {absorb scramble perBlock}

theorem feedAll_append (state : α × Nat) (first second : List σ) :
    feedAll absorb scramble perBlock state (first ++ second) =
      feedAll absorb scramble perBlock (feedAll absorb scramble perBlock state first) second :=
  List.foldl_append

theorem feedAll_within {soFar : Nat} {stripes : List σ} (room : soFar + stripes.length < perBlock)
    (accumulated : α) :
    feedAll absorb scramble perBlock (accumulated, soFar) stripes =
      (within absorb soFar accumulated stripes, soFar + stripes.length) := by
  induction stripes generalizing soFar accumulated with
  | nil => rfl
  | cons stripe stripes ih =>
      rw [List.length_cons] at room
      have fed : feed absorb scramble perBlock (accumulated, soFar) stripe =
          (absorb accumulated soFar stripe, soFar + 1) := if_neg (by dsimp only; omega)
      unfold feedAll at ih ⊢
      rw [List.foldl_cons, fed, ih (by omega), List.length_cons, within]
      congr 1
      omega

theorem feedAll_complete {soFar : Nat} {stripes : List σ} (some : stripes ≠ [])
    (full : soFar + stripes.length = perBlock) (accumulated : α) :
    feedAll absorb scramble perBlock (accumulated, soFar) stripes =
      (scramble (within absorb soFar accumulated stripes), 0) := by
  induction stripes generalizing soFar accumulated with
  | nil => exact absurd rfl some
  | cons stripe stripes ih =>
      rw [List.length_cons] at full
      cases stripes with
      | nil => exact if_pos full
      | cons next stripes =>
          rw [List.length_cons] at full
          have fed : feed absorb scramble perBlock (accumulated, soFar) stripe =
              (absorb accumulated soFar stripe, soFar + 1) := if_neg (by dsimp only; omega)
          unfold feedAll at ih ⊢
          rw [List.foldl_cons, fed, ih (List.cons_ne_nil _ _)]
          · rfl
          · rw [List.length_cons]
            omega

theorem feedAll_across {soFar : Nat} {first second : List σ} (some : first ≠ [])
    (full : soFar + first.length = perBlock) (room : second.length < perBlock) (accumulated : α) :
    feedAll absorb scramble perBlock (accumulated, soFar) (first ++ second) =
      (within absorb 0 (scramble (within absorb soFar accumulated first)) second,
        second.length) := by
  rw [feedAll_append, feedAll_complete some full, feedAll_within (by omega), Nat.zero_add]

theorem feedAll_bounded {state : α × Nat} (inside : state.2 < perBlock) (stripes : List σ) :
    (feedAll absorb scramble perBlock state stripes).2 < perBlock := by
  induction stripes generalizing state with
  | nil => exact inside
  | cons stripe stripes ih =>
      apply ih
      unfold feed
      dsimp only
      split
      · exact Nat.lt_of_le_of_lt (Nat.zero_le _) inside
      · dsimp only
        omega

end ChangeSql.StripeHash
