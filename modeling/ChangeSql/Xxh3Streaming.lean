/-
Feeding the hash in pieces comes to the same as hashing their concatenation.

Between two updates the accumulators have absorbed all stripes but those that
are still in the buffer, and the end of the buffer has the last stripe in
front of these. So it makes no difference which of its loops an update uses,
how a stripe is cut up, or what the state was used for before its reset.
-/

import ChangeSql.CsvFile
import ChangeSql.Library.StripeHash
import ChangeSql.Xxh3

namespace ChangeSql.Xxh3

open StripeHash

variable (kernel : Kernel)

/-! ### Stripes with the default secret -/

def absorbStripe (acc : Acc) (number : Nat) (stripe : Bytes) : Acc :=
  kernel.accumulate512 acc stripe (kSecret.drop (8 * number))

def scrambleEnd (acc : Acc) : Acc :=
  kernel.scrambleAcc acc (kSecret.drop 128)

def feeds (state : Acc × Nat) (stripes : List Bytes) : Acc × Nat :=
  feedAll (absorbStripe kernel) (scrambleEnd kernel) 16 state stripes

variable {kernel} {acc : Acc} {input message : Bytes} {soFar count consumed : Nat}

private theorem feeds_append (state : Acc × Nat) (first second : List Bytes) :
    feeds kernel state (first ++ second) = feeds kernel (feeds kernel state first) second :=
  feedAll_append state first second

private theorem feeds_bounded (kernel : Kernel) {state : Acc × Nat} (inside : state.2 < 16)
    (stripes : List Bytes) : (feeds kernel state stripes).2 < 16 :=
  feedAll_bounded inside stripes

private theorem accumulate_eq (count number : Nat) (acc : Acc) (input : Bytes) :
    accumulate kernel count acc input (kSecret.drop (8 * number)) =
      within (absorbStripe kernel) number acc (pieces 64 count input) := by
  induction count generalizing number acc input with
  | zero => rfl
  | succ count ih =>
      have further : (kSecret.drop (8 * number)).drop SECRET_CONSUME_RATE =
          kSecret.drop (8 * (number + 1)) := List.drop_drop
      unfold accumulate
      rw [further, ih]
      rfl

private theorem accumulate_start (count : Nat) (acc : Acc) (input : Bytes) :
    accumulate kernel count acc input kSecret =
      within (absorbStripe kernel) 0 acc (pieces 64 count input) :=
  accumulate_eq count 0 acc input

private theorem consumeStripes_eq (kernel : Kernel) (inside : soFar < 16) (few : count ≤ 16)
    (acc : Acc) (input : Bytes) :
    consumeStripes kernel acc soFar 16 input count kSecret 128 =
      feeds kernel (acc, soFar) (pieces 64 count input) := by
  unfold consumeStripes
  simp only [SECRET_CONSUME_RATE, STRIPE_LEN]
  rw [Nat.mul_comm soFar 8]
  split
  · rename_i completes
    have split : count = (16 - soFar) + (count - (16 - soFar)) := by omega
    conv => rhs; rw [split, pieces_add, Nat.mul_comm 64]
    rw [accumulate_eq, accumulate_start]
    unfold feeds
    rw [feedAll_across _ _ _ acc, length_pieces]
    · rfl
    · apply List.ne_nil_of_length_pos
      rw [length_pieces]
      omega
    · rw [length_pieces]
      omega
    · rw [length_pieces]
      omega
  · rename_i room
    rw [accumulate_eq]
    unfold feeds
    rw [feedAll_within _ acc, length_pieces]
    rw [length_pieces]
    omega

private theorem accumulate_block (acc : Acc) (input : Bytes) :
    feeds kernel (acc, 0) (pieces 64 16 input) =
      (scrambleEnd kernel (accumulate kernel 16 acc input kSecret), 0) := by
  rw [accumulate_start]
  apply feedAll_complete
  · exact List.cons_ne_nil _ _
  · rw [length_pieces]

/-! ### The input at once -/

set_option maxRecDepth 1024 in
private theorem length_kSecret : kSecret.length = 192 :=
  rfl

private theorem hashBlocks_succ (blocks : Nat) (acc : Acc) (input : Bytes) :
    hashBlocks kernel 16 kSecret (blocks + 1) acc input =
      hashBlocks kernel 16 kSecret blocks
        (scrambleEnd kernel (accumulate kernel 16 acc input kSecret)) (input.drop (64 * 16)) := by
  rw [hashBlocks, length_kSecret]
  rfl

private theorem hashBlocks_eq (kernel : Kernel) (blocks : Nat) (acc : Acc) (input : Bytes) :
    (hashBlocks kernel 16 kSecret blocks acc input).2 = input.drop (64 * (16 * blocks)) ∧
      feeds kernel (acc, 0) (pieces 64 (16 * blocks) input) =
        ((hashBlocks kernel 16 kSecret blocks acc input).1, 0) := by
  induction blocks generalizing acc input with
  | zero => exact ⟨rfl, rfl⟩
  | succ blocks ih =>
      have stripes : 16 * (blocks + 1) = 16 + 16 * blocks := by omega
      rw [hashBlocks_succ, stripes]
      constructor
      · rw [(ih _ _).1, List.drop_drop, Nat.mul_add 64]
      · rw [pieces_add, feeds_append, accumulate_block, (ih _ _).2]

/-- The last stripe has a secret of its own and may overlap the one in front. -/
def absorbLast (kernel : Kernel) (acc : Acc) (stripe : Bytes) : Acc :=
  kernel.accumulate512 acc stripe (kSecret.drop 121)

private theorem hashLongInternalLoop_eq (kernel : Kernel) (message : Bytes) :
    hashLongInternalLoop kernel initAcc message kSecret =
      absorbLast kernel
        (feeds kernel (initAcc, 0) (pieces 64 ((message.length - 1) / 64) message)).1
        (message.drop (message.length - 64)) := by
  rcases hashBlocks_eq kernel ((message.length - 1) / 1024) initAcc message with
    ⟨moved, fed⟩
  have split : (message.length - 1) / 64 = 16 * ((message.length - 1) / 1024) +
      (message.length - 1 - 1024 * ((message.length - 1) / 1024)) / 64 := by omega
  have room : (message.length - 1 - 1024 * ((message.length - 1) / 1024)) / 64 < 16 := by omega
  unfold hashLongInternalLoop
  dsimp only
  rw [length_kSecret]
  change absorbLast kernel (accumulate kernel
    ((message.length - 1 - 1024 * ((message.length - 1) / 1024)) / 64)
    (hashBlocks kernel 16 kSecret ((message.length - 1) / 1024) initAcc message).1
    (hashBlocks kernel 16 kSecret ((message.length - 1) / 1024) initAcc message).2 kSecret) _ = _
  rw [accumulate_start, moved, split, pieces_add, feeds_append, fed]
  unfold feeds
  rw [feedAll_within (by rw [length_pieces]; omega)]
  rfl

/-! ### The state between updates -/

/-- The members that no update changes, and the size of the buffer. -/
structure Default (state : State) : Prop where
  extSecret : state.extSecret = kSecret
  secretLimit : state.secretLimit = 128
  nbStripesPerBlock : state.nbStripesPerBlock = 16
  sized : state.buffer.length = 256

def previousStripe (message : Bytes) (consumed : Nat) : Bytes :=
  (message.drop (64 * consumed - 64)).take 64

/-- So many stripes of the message are consumed and the rest of it is in the
buffer. -/
structure Absorbed (kernel : Kernel) (message : Bytes) (state : State) (consumed : Nat) : Prop where
  default : Default state
  total : state.totalLen = UInt64.ofNat message.length
  length : 64 * consumed + state.bufferedSize = message.length
  bounded : state.bufferedSize ≤ 256
  fed : (state.acc, state.nbStripesSoFar) = feeds kernel (initAcc, 0) (pieces 64 consumed message)
  buffered : state.buffer.take state.bufferedSize = message.drop (64 * consumed)
  pending : consumed ≠ 0 → 0 < state.bufferedSize
  long : consumed ≠ 0 → 256 < message.length
  previous : consumed ≠ 0 → state.bufferedSize ≤ 192 →
    state.buffer.drop 192 = previousStripe message consumed

/-- So many stripes of a long message are consumed and the rest of it is still
in the input. -/
structure Flowing (kernel : Kernel) (message : Bytes) (state : State) (rest : Bytes)
    (consumed : Nat) : Prop where
  default : Default state
  total : state.totalLen = UInt64.ofNat message.length
  fed : (state.acc, state.nbStripesSoFar) = feeds kernel (initAcc, 0) (pieces 64 consumed message)
  restIs : rest = message.drop (64 * consumed)
  some : 64 * consumed < message.length
  long : 256 < message.length
  previous : consumed ≠ 0 → rest.length ≤ 192 →
    state.buffer.drop 192 = previousStripe message consumed

variable {state : State} {rest : Bytes}

theorem Absorbed.reset (kernel : Kernel) (sized : state.buffer.length = 256) :
    Absorbed kernel [] (reset state) 0 :=
  { default := ⟨rfl, rfl, rfl, sized⟩
    total := rfl
    length := rfl
    bounded := Nat.zero_le _
    fed := rfl
    buffered := rfl
    pending := fun impossible => absurd rfl impossible
    long := fun impossible => absurd rfl impossible
    previous := fun impossible => absurd rfl impossible }

private theorem Absorbed.soFar_lt (absorbed : Absorbed kernel message state consumed) :
    state.nbStripesSoFar < 16 := by
  have bounded := feeds_bounded kernel (show (initAcc, 0).2 < 16 by decide)
    (pieces 64 consumed message)
  rw [← absorbed.fed] at bounded
  exact bounded

private theorem length_memcpy {buffer bytes : Bytes} {pos : Nat}
    (fits : pos + bytes.length ≤ buffer.length) :
    (memcpy buffer pos bytes).length = buffer.length := by
  unfold memcpy
  rw [List.length_append, List.length_append, List.length_take, List.length_drop]
  omega

private theorem take_memcpy {buffer bytes : Bytes} {pos : Nat} (fits : pos ≤ buffer.length) :
    (memcpy buffer pos bytes).take (pos + bytes.length) = buffer.take pos ++ bytes := by
  unfold memcpy
  apply List.take_left'
  rw [List.length_append, List.length_take, Nat.min_eq_left fits]

private theorem drop_memcpy {buffer bytes : Bytes} {pos start : Nat} (fits : pos ≤ buffer.length)
    (behind : pos + bytes.length ≤ start) :
    (memcpy buffer pos bytes).drop start = buffer.drop start := by
  have front : (buffer.take pos ++ bytes).length = pos + bytes.length := by
    rw [List.length_append, List.length_take, Nat.min_eq_left fits]
  unfold memcpy
  rw [List.drop_append, front, List.drop_eq_nil_of_le (by omega), List.nil_append, List.drop_drop,
    Nat.add_sub_cancel' behind]

private theorem drop_memcpy_end {buffer bytes : Bytes} {pos : Nat}
    (fits : pos + bytes.length = buffer.length) : (memcpy buffer pos bytes).drop pos = bytes := by
  have inside : pos ≤ buffer.length := by omega
  unfold memcpy
  rw [fits, List.drop_length, List.append_nil]
  exact List.drop_left' (List.length_take_of_le inside)

/-! ### One update -/

theorem Absorbed.small (absorbed : Absorbed kernel message state consumed)
    (fits : state.bufferedSize + input.length ≤ 256) :
    Absorbed kernel (message ++ input)
      { state with
        totalLen := state.totalLen + UInt64.ofNat input.length
        buffer := memcpy state.buffer state.bufferedSize input
        bufferedSize := state.bufferedSize + input.length } consumed := by
  have sized := absorbed.default.sized
  have length := absorbed.length
  have inside : state.bufferedSize ≤ state.buffer.length := by omega
  refine
    { default :=
        { extSecret := absorbed.default.extSecret
          secretLimit := absorbed.default.secretLimit
          nbStripesPerBlock := absorbed.default.nbStripesPerBlock
          sized := by rw [length_memcpy (by omega), sized] }
      total := ?_
      length := ?_
      bounded := fits
      fed := ?_
      buffered := ?_
      pending := ?_
      long := ?_
      previous := ?_ }
  · rw [List.length_append, UInt64.ofNat_add, ← absorbed.total]
  · rw [List.length_append, ← length]
    exact (Nat.add_assoc _ _ _).symm
  · rw [pieces_append (by omega)]
    exact absorbed.fed
  · rw [take_memcpy inside, absorbed.buffered, List.drop_append_of_le_length (by omega)]
  · intro some
    exact Nat.lt_of_lt_of_le (absorbed.pending some) (Nat.le_add_right _ _)
  · intro some
    rw [List.length_append]
    exact Nat.lt_of_lt_of_le (absorbed.long some) (Nat.le_add_right _ _)
  · intro some room
    change state.bufferedSize + input.length ≤ 192 at room
    have pending := absorbed.pending some
    rw [drop_memcpy inside room, absorbed.previous some (by omega)]
    unfold previousStripe
    rw [List.drop_append_of_le_length (by omega), List.take_append_of_le_length]
    rw [List.length_drop]
    omega

private theorem pieces_take {size count : Nat} {items : Bytes} :
    pieces size count (items.take (size * count)) = pieces size count items := by
  conv => rhs; rw [← List.take_append_drop (size * count) items]
  by_cases enough : size * count ≤ items.length
  · rw [pieces_append]
    rw [List.length_take_of_le enough]
  · rw [List.drop_eq_nil_of_le (by omega), List.append_nil]

/-- The full buffer is the next 256 bytes of the message. -/
theorem Absorbed.filled (absorbed : Absorbed kernel message state consumed)
    (large : 256 < state.bufferedSize + input.length) :
    memcpy state.buffer state.bufferedSize (input.take (256 - state.bufferedSize)) =
      ((message ++ input).drop (64 * consumed)).take 256 := by
  have length := absorbed.length
  have bounded := absorbed.bounded
  have sized := absorbed.default.sized
  have some : 256 - state.bufferedSize ≤ input.length := by omega
  have left : (message.drop (64 * consumed)).length = state.bufferedSize := by
    rw [List.length_drop]
    omega
  unfold memcpy
  rw [List.length_take_of_le some, Nat.add_sub_cancel' bounded,
    List.drop_eq_nil_of_le (Nat.le_of_eq sized), List.append_nil, absorbed.buffered,
    List.drop_append_of_le_length (by omega), List.take_append, left,
    List.take_of_length_le (left.trans_le bounded)]

theorem Absorbed.complete (absorbed : Absorbed kernel message state consumed)
    (large : 256 < state.bufferedSize + input.length) :
    ∃ later, Flowing kernel (message ++ input)
      (completeBuffer kernel
        { state with totalLen := state.totalLen + UInt64.ofNat input.length } input).1
      (completeBuffer kernel
        { state with totalLen := state.totalLen + UInt64.ofNat input.length } input).2 later := by
  have length := absorbed.length
  have default := absorbed.default
  by_cases none : state.bufferedSize = 0
  · have first : consumed = 0 := by
      by_contra some
      have pending := absorbed.pending some
      omega
    have isEmpty : message = [] := by
      apply List.length_eq_zero_iff.mp
      omega
    have unchanged : completeBuffer kernel
        { state with totalLen := state.totalLen + UInt64.ofNat input.length } input =
          ({ state with totalLen := state.totalLen + UInt64.ofNat input.length }, input) :=
      if_neg (not_not_intro none)
    subst isEmpty first
    rw [unchanged]
    refine ⟨0, ⟨default.1, default.2, default.3, default.4⟩, ?_, absorbed.fed, rfl, ?_, ?_, ?_⟩
    · rw [absorbed.total, List.nil_append]
      exact UInt64.zero_add _
    · rw [List.nil_append]
      omega
    · rw [List.nil_append]
      omega
    · exact fun impossible => absurd rfl impossible
  · have bounded := absorbed.bounded
    have filled := absorbed.filled large
    have loaded : (input.take (256 - state.bufferedSize)).length = 256 - state.bufferedSize :=
      List.length_take_of_le (by omega)
    have whole : (message ++ input).length = message.length + input.length := List.length_append
    have consumes := consumeStripes_eq kernel absorbed.soFar_lt (show 4 ≤ 16 by decide)
      state.acc
      (memcpy state.buffer state.bufferedSize (input.take (256 - state.bufferedSize)))
    rw [filled, pieces_take, absorbed.fed, ← pieces_append (by omega) input, ← feeds_append,
      ← pieces_add] at consumes
    have completed : completeBuffer kernel
        { state with totalLen := state.totalLen + UInt64.ofNat input.length } input =
          ({ state with
              totalLen := state.totalLen + UInt64.ofNat input.length
              acc := (feeds kernel (initAcc, 0) (pieces 64 (consumed + 4) (message ++ input))).1
              buffer := ((message ++ input).drop (64 * consumed)).take 256
              nbStripesSoFar :=
                (feeds kernel (initAcc, 0) (pieces 64 (consumed + 4) (message ++ input))).2
              bufferedSize := 0 },
            input.drop (256 - state.bufferedSize)) := by
      have four : INTERNALBUFFER_STRIPES = 4 := rfl
      unfold completeBuffer
      rw [if_pos none]
      simp only [INTERNALBUFFER_SIZE, filled, default.nbStripesPerBlock, default.extSecret,
        default.secretLimit]
      rw [four, consumes]
    rw [completed]
    refine ⟨consumed + 4, ⟨default.1, default.2, default.3, ?_⟩, ?_, rfl, ?_, ?_, ?_, ?_⟩
    · rw [List.length_take_of_le]
      rw [List.length_drop]
      omega
    · rw [List.length_append, UInt64.ofNat_add, ← absorbed.total]
    · have start : 64 * (consumed + 4) = message.length + (256 - state.bufferedSize) := by omega
      change input.drop (256 - state.bufferedSize) = _
      rw [start, List.drop_append, List.drop_eq_nil_of_le (Nat.le_add_right _ _), List.nil_append,
        Nat.add_sub_cancel_left]
    · omega
    · omega
    · intro _ _
      have start : 64 * (consumed + 4) - 64 = 64 * consumed + 192 := by omega
      unfold previousStripe
      rw [start, ← List.drop_drop, List.drop_take]

private theorem consumeBlocks_eq (kernel : Kernel) (default : Default state) {turns : Nat}
    (enough : count ≤ turns) (acc : Acc) (input : Bytes) :
    ∃ blocks left : Nat, count = 16 * blocks + left ∧ left < 16 ∧
      consumeBlocks kernel state turns acc input count =
        ((feeds kernel (acc, 0) (pieces 64 (16 * blocks) input)).1,
          input.drop (64 * (16 * blocks)), left) ∧
      (feeds kernel (acc, 0) (pieces 64 (16 * blocks) input)).2 = 0 := by
  induction turns generalizing count acc input with
  | zero => exact ⟨0, count, by omega, by omega, rfl, rfl⟩
  | succ turns ih =>
      unfold consumeBlocks
      rw [default.nbStripesPerBlock, default.extSecret, default.secretLimit]
      split
      · rename_i full
        have fewer : count - 16 ≤ turns := by omega
        rcases ih fewer (scrambleEnd kernel (accumulate kernel 16 acc input kSecret))
          (input.drop (16 * STRIPE_LEN)) with ⟨blocks, left, countIs, short, consumed, aligned⟩
        have stripes : 16 * (blocks + 1) = 16 + 16 * blocks := by omega
        have moved : 16 * STRIPE_LEN = 64 * 16 := rfl
        rw [moved] at consumed aligned
        refine ⟨blocks + 1, left, by omega, short, ?_, ?_⟩
        · dsimp only
          rw [stripes, pieces_add, feeds_append, accumulate_block, Nat.mul_add 64, ← List.drop_drop]
          exact consumed
        · rw [stripes, pieces_add, feeds_append, accumulate_block]
          exact aligned
      · rename_i short
        exact ⟨0, count, by omega, by omega, rfl, rfl⟩

private theorem drop_keepPredecessor {buffer : Bytes} {stripes : Nat} (sized : buffer.length = 256)
    (restIs : rest = message.drop (64 * consumed)) (some : stripes ≠ 0)
    (inside : 64 * (consumed + stripes) ≤ message.length) :
    (keepPredecessor buffer rest (rest.drop (64 * stripes))).drop 192 =
        previousStripe message (consumed + stripes) ∧
      (keepPredecessor buffer rest (rest.drop (64 * stripes))).length = 256 := by
  have restLength : rest.length = message.length - 64 * consumed := by
    rw [restIs, List.length_drop]
  have start : rest.length - (rest.drop (64 * stripes)).length - STRIPE_LEN =
      64 * stripes - 64 := by
    rw [List.length_drop]
    change _ - 64 = _
    omega
  have stripe : (rest.drop (64 * stripes - 64)).take 64 =
      previousStripe message (consumed + stripes) := by
    unfold previousStripe
    rw [restIs, List.drop_drop]
    congr 2
    omega
  have full : (previousStripe message (consumed + stripes)).length = 64 := by
    unfold previousStripe
    rw [List.length_take_of_le]
    rw [List.length_drop]
    omega
  unfold keepPredecessor
  rw [start]
  change (memcpy buffer 192 ((rest.drop (64 * stripes - 64)).take 64)).drop 192 = _ ∧
    (memcpy buffer 192 ((rest.drop (64 * stripes - 64)).take 64)).length = 256
  rw [stripe]
  constructor
  · apply drop_memcpy_end
    rw [full, sized]
  · rw [length_memcpy, sized]
    rw [full, sized]

private theorem Flowing.soFar_lt (flowing : Flowing kernel message state rest consumed) :
    state.nbStripesSoFar < 16 := by
  have bounded := feeds_bounded kernel (show (initAcc, 0).2 < 16 by decide)
    (pieces 64 consumed message)
  rw [← flowing.fed] at bounded
  exact bounded

private theorem Flowing.rest_length (flowing : Flowing kernel message state rest consumed) :
    rest.length = message.length - 64 * consumed := by
  rw [flowing.restIs, List.length_drop]

private theorem Flowing.feeds_more (flowing : Flowing kernel message state rest consumed)
    (stripes : Nat) :
    feeds kernel (state.acc, state.nbStripesSoFar) (pieces 64 stripes rest) =
      feeds kernel (initAcc, 0) (pieces 64 (consumed + stripes) message) := by
  rw [flowing.fed, flowing.restIs, ← feeds_append, ← pieces_add]

def ingested (kernel : Kernel) (state : State) (rest : Bytes) (stripes : Nat) : State × Bytes :=
  let fed := feeds kernel (state.acc, state.nbStripesSoFar) (pieces 64 stripes rest)
  ({ state with
      acc := fed.1
      nbStripesSoFar := fed.2
      buffer := keepPredecessor state.buffer rest (rest.drop (64 * stripes)) },
    rest.drop (64 * stripes))

private theorem Flowing.ingested (flowing : Flowing kernel message state rest consumed)
    {stripes : Nat} (some : stripes ≠ 0) (inside : 64 * stripes < rest.length) :
    Flowing kernel message (Xxh3.ingested kernel state rest stripes).1
      (Xxh3.ingested kernel state rest stripes).2 (consumed + stripes) := by
  have default := flowing.default
  have restLength := flowing.rest_length
  rcases drop_keepPredecessor default.sized flowing.restIs some (by omega) with ⟨previous, sized⟩
  exact
    { default := ⟨default.1, default.2, default.3, sized⟩
      total := flowing.total
      fed := flowing.feeds_more stripes
      restIs := by
        change rest.drop (64 * stripes) = _
        rw [flowing.restIs, List.drop_drop, Nat.mul_add]
      some := by omega
      long := flowing.long
      previous := fun _ _ => previous }

private theorem ingestBlocks_eq (default : Default state) (inside : state.nbStripesSoFar < 16)
    (large : 1024 < rest.length) :
    ingestBlocks kernel state rest = ingested kernel state rest ((rest.length - 1) / 64) := by
  have joined : feeds kernel (state.acc, state.nbStripesSoFar)
      (pieces 64 (16 - state.nbStripesSoFar) rest) =
        (scrambleEnd kernel (accumulate kernel (16 - state.nbStripesSoFar) state.acc rest
          (kSecret.drop (8 * state.nbStripesSoFar))), 0) := by
    rw [accumulate_eq]
    apply feedAll_complete
    · apply List.ne_nil_of_length_pos
      rw [length_pieces]
      omega
    · rw [length_pieces]
      omega
  rcases consumeBlocks_eq kernel default
      (show (rest.length - 1) / 64 - (16 - state.nbStripesSoFar) ≤ (rest.length - 1) / 64 by omega)
      (scrambleEnd kernel (accumulate kernel (16 - state.nbStripesSoFar) state.acc rest
        (kSecret.drop (8 * state.nbStripesSoFar))))
      (rest.drop (64 * (16 - state.nbStripesSoFar))) with
    ⟨blocks, left, countIs, short, consumed, aligned⟩
  have stripes : (rest.length - 1) / 64 =
      16 - state.nbStripesSoFar + (16 * blocks + left) := by omega
  generalize scrambled : scrambleEnd kernel (accumulate kernel (16 - state.nbStripesSoFar)
    state.acc rest (kSecret.drop (8 * state.nbStripesSoFar))) = first at joined consumed aligned
  generalize behind : rest.drop (64 * (16 - state.nbStripesSoFar)) = later
    at consumed aligned
  generalize whole : feeds kernel (first, 0) (pieces 64 (16 * blocks) later) = middle
    at consumed aligned
  have middleIs : middle = (middle.1, 0) := Prod.ext rfl aligned
  have fed : feeds kernel (state.acc, state.nbStripesSoFar)
      (pieces 64 ((rest.length - 1) / 64) rest) =
        (accumulate kernel left middle.1 (later.drop (64 * (16 * blocks))) kSecret, left) := by
    rw [stripes, pieces_add, feeds_append, joined, behind, pieces_add, feeds_append, whole,
      middleIs, accumulate_start]
    unfold feeds
    rw [feedAll_within (by rw [length_pieces]; omega), length_pieces, Nat.zero_add]
  have restIs : (later.drop (64 * (16 * blocks))).drop (left * 64) =
      rest.drop (64 * ((rest.length - 1) / 64)) := by
    rw [← behind, List.drop_drop, List.drop_drop]
    congr 1
    omega
  unfold ingestBlocks ingested
  rw [fed]
  simp only [STRIPE_LEN, SECRET_CONSUME_RATE, default.nbStripesPerBlock, default.extSecret,
    default.secretLimit]
  rw [Nat.mul_comm state.nbStripesSoFar 8, Nat.mul_comm _ 64, behind]
  unfold scrambleEnd at scrambled
  rw [scrambled, consumed]
  simp only [restIs]

private theorem consumeBuffers_eq (kernel : Kernel) (default : Default state) {turns : Nat}
    (inside : soFar < 16) (some : 0 < input.length) (enough : input.length ≤ 256 + 256 * turns)
    (acc : Acc) :
    ∃ buffers : Nat, 256 * buffers < input.length ∧ input.length ≤ 256 + 256 * buffers ∧
      consumeBuffers kernel state turns acc soFar input =
        ((feeds kernel (acc, soFar) (pieces 64 (4 * buffers) input)).1,
          (feeds kernel (acc, soFar) (pieces 64 (4 * buffers) input)).2,
          input.drop (64 * (4 * buffers))) := by
  induction turns generalizing acc soFar input with
  | zero => exact ⟨0, some, enough, rfl⟩
  | succ turns ih =>
      unfold consumeBuffers
      rw [default.nbStripesPerBlock, default.extSecret, default.secretLimit]
      by_cases full : INTERNALBUFFER_SIZE < input.length
      · rw [if_pos full, consumeStripes_eq kernel inside (by decide)]
        change 256 < input.length at full
        have left : (input.drop 256).length = input.length - 256 := List.length_drop
        have remains : 0 < (input.drop 256).length := by omega
        have fewer : (input.drop 256).length ≤ 256 + 256 * turns := by omega
        have later : (feeds kernel (acc, soFar) (pieces 64 4 input)).2 < 16 :=
          feeds_bounded kernel inside _
        rcases ih later remains fewer (feeds kernel (acc, soFar) (pieces 64 4 input)).1 with
          ⟨buffers, further, short, consumed⟩
        rw [left] at further short
        have bounds : 256 * (buffers + 1) < input.length ∧
            input.length ≤ 256 + 256 * (buffers + 1) := by
          clear consumed later enough
          omega
        have stripes : 4 * (buffers + 1) = 4 + 4 * buffers := by omega
        refine ⟨buffers + 1, bounds.1, bounds.2, ?_⟩
        rw [stripes, pieces_add, feeds_append, Nat.mul_add 64, ← List.drop_drop]
        exact consumed
      · rw [if_neg full]
        exact ⟨0, some, Nat.le_of_not_lt full, rfl⟩

private theorem ingestBuffers_eq (kernel : Kernel) (default : Default state)
    (inside : state.nbStripesSoFar < 16) (large : 256 < rest.length) :
    ∃ buffers : Nat, buffers ≠ 0 ∧ 256 * buffers < rest.length ∧
      rest.length ≤ 256 + 256 * buffers ∧
      ingestBuffers kernel state rest = ingested kernel state rest (4 * buffers) := by
  rcases consumeBuffers_eq kernel default inside (by omega)
      (show rest.length ≤ 256 + 256 * rest.length by omega) state.acc with
    ⟨buffers, left, short, consumed⟩
  refine ⟨buffers, by omega, left, short, ?_⟩
  have full : INTERNALBUFFER_SIZE < rest.length := large
  unfold ingestBuffers
  rw [if_pos full, consumed]
  rfl

/-- Whichever way the input is ingested, the rest of it fits into the buffer. -/
theorem Flowing.ingest (flowing : Flowing kernel message state rest consumed) :
    ∃ later,
      Flowing kernel message
        (if state.nbStripesPerBlock * STRIPE_LEN < rest.length then ingestBlocks kernel state rest
        else ingestBuffers kernel state rest).1
        (if state.nbStripesPerBlock * STRIPE_LEN < rest.length then ingestBlocks kernel state rest
        else ingestBuffers kernel state rest).2 later ∧
      (if state.nbStripesPerBlock * STRIPE_LEN < rest.length then ingestBlocks kernel state rest
        else ingestBuffers kernel state rest).2.length ≤ 256 := by
  have default := flowing.default
  have inside := flowing.soFar_lt
  by_cases large : state.nbStripesPerBlock * STRIPE_LEN < rest.length
  · rw [if_pos large]
    rw [default.nbStripesPerBlock] at large
    change 1024 < rest.length at large
    rw [ingestBlocks_eq default inside large]
    refine ⟨_, flowing.ingested (by omega) (by omega), ?_⟩
    change (rest.drop _).length ≤ 256
    rw [List.length_drop]
    omega
  · rw [if_neg large]
    by_cases large : 256 < rest.length
    · rcases ingestBuffers_eq kernel default inside large with
        ⟨buffers, some, left, short, ingests⟩
      rw [ingests]
      refine ⟨_, flowing.ingested (by omega) (by omega), ?_⟩
      change (rest.drop _).length ≤ 256
      rw [List.length_drop]
      omega
    · have unchanged : ingestBuffers kernel state rest = (state, rest) := if_neg large
      rw [unchanged]
      exact ⟨consumed, flowing, Nat.le_of_not_lt large⟩

private theorem Flowing.absorbed (flowing : Flowing kernel message state rest consumed)
    (fits : rest.length ≤ 256) :
    Absorbed kernel message
      { state with
        buffer := memcpy state.buffer 0 rest
        bufferedSize := rest.length } consumed := by
  have default := flowing.default
  have restLength := flowing.rest_length
  have some := flowing.some
  have sized := default.sized
  refine
    { default := ⟨default.1, default.2, default.3, ?_⟩
      total := flowing.total
      length := ?_
      bounded := fits
      fed := flowing.fed
      buffered := ?_
      pending := ?_
      long := fun _ => flowing.long
      previous := ?_ }
  · rw [length_memcpy (by omega), sized]
  · change 64 * consumed + rest.length = message.length
    omega
  · rw [← flowing.restIs]
    have taken : (memcpy state.buffer 0 rest).take (0 + rest.length) = _ :=
      take_memcpy (Nat.zero_le state.buffer.length)
    rw [Nat.zero_add] at taken
    exact taken
  · intro _
    change 0 < rest.length
    omega
  · intro absorbed short
    change rest.length ≤ 192 at short
    rw [drop_memcpy (Nat.zero_le _) (by omega)]
    exact flowing.previous absorbed short

theorem Absorbed.update (absorbed : Absorbed kernel message state consumed) (input : Bytes) :
    ∃ later, Absorbed kernel (message ++ input) (Xxh3.update kernel state input) later := by
  unfold Xxh3.update
  dsimp only
  split
  · rename_i fits
    exact ⟨consumed, absorbed.small fits⟩
  · rename_i large
    rcases absorbed.complete (Nat.lt_of_not_le large) with ⟨completed, flowing⟩
    rcases flowing.ingest with ⟨later, further, fits⟩
    exact ⟨later, further.absorbed fits⟩

private theorem Absorbed.updates (absorbed : Absorbed kernel message state consumed)
    (inputs : List Bytes) :
    ∃ later, Absorbed kernel (message ++ inputs.flatten) (inputs.foldl (Xxh3.update kernel) state)
      later := by
  induction inputs generalizing message state consumed with
  | nil =>
      rw [List.flatten_nil, List.append_nil]
      exact ⟨consumed, absorbed⟩
  | cons input inputs ih =>
      rcases absorbed.update input with ⟨later, updated⟩
      rw [List.flatten_cons, ← List.append_assoc]
      exact ih updated

/-! ### The digest -/

private theorem Absorbed.digestLong_full (absorbed : Absorbed kernel message state consumed)
    (full : 64 ≤ state.bufferedSize) :
    digestLong kernel state kSecret = hashLongInternalLoop kernel initAcc message kSecret := by
  have length := absorbed.length
  have bounded := absorbed.bounded
  have sized := absorbed.default.sized
  have front : (state.buffer.take state.bufferedSize).length = state.bufferedSize :=
    List.length_take_of_le (by omega)
  have stripes : (message.length - 1) / 64 = consumed + (state.bufferedSize - 1) / 64 := by omega
  have buffered : pieces 64 ((state.bufferedSize - 1) / 64) state.buffer =
      pieces 64 ((state.bufferedSize - 1) / 64) (message.drop (64 * consumed)) := by
    rw [← absorbed.buffered]
    conv => lhs; rw [← List.take_append_drop state.bufferedSize state.buffer]
    rw [pieces_append]
    rw [front]
    omega
  have last : (state.buffer.drop (state.bufferedSize - 64)).take 64 =
      message.drop (message.length - 64) := by
    have start : message.length - 64 = 64 * consumed + (state.bufferedSize - 64) := by omega
    rw [start, ← List.drop_drop, ← absorbed.buffered, List.drop_take]
    congr 1
    omega
  rw [hashLongInternalLoop_eq, stripes, pieces_add, feeds_append, ← absorbed.fed]
  have enough : STRIPE_LEN ≤ state.bufferedSize := full
  unfold digestLong
  rw [if_pos enough, absorbed.default.nbStripesPerBlock, absorbed.default.secretLimit]
  have consumes := consumeStripes_eq kernel absorbed.soFar_lt
    (show (state.bufferedSize - 1) / 64 ≤ 16 by omega) state.acc state.buffer
  rw [buffered] at consumes
  change absorbLast kernel (consumeStripes kernel state.acc state.nbStripesSoFar 16 state.buffer
    ((state.bufferedSize - 1) / 64) kSecret 128).1
    ((state.buffer.drop (state.bufferedSize - 64)).take 64) = _
  rw [consumes, last]

private theorem Absorbed.digestLong_partial (absorbed : Absorbed kernel message state consumed)
    (few : state.bufferedSize < 64) (some : consumed ≠ 0) :
    digestLong kernel state kSecret = hashLongInternalLoop kernel initAcc message kSecret := by
  have length := absorbed.length
  have pending := absorbed.pending some
  have previous := absorbed.previous some (by omega)
  have stripes : (message.length - 1) / 64 = consumed := by omega
  have last : state.buffer.drop (192 + state.bufferedSize) ++ state.buffer.take state.bufferedSize =
      message.drop (message.length - 64) := by
    have start : message.length - 64 = 64 * consumed - 64 + state.bufferedSize := by omega
    have behind : 64 * consumed = 64 * consumed - 64 + state.bufferedSize +
        (64 - state.bufferedSize) := by omega
    rw [← List.drop_drop, previous, absorbed.buffered, start]
    unfold previousStripe
    rw [List.drop_take, List.drop_drop]
    conv => lhs; rhs; rw [behind, ← List.drop_drop]
    exact List.take_append_drop _ _
  have catchup : 256 - (64 - state.bufferedSize) = 192 + state.bufferedSize := by omega
  have notFull : ¬ STRIPE_LEN ≤ state.bufferedSize := Nat.not_le.mpr few
  rw [hashLongInternalLoop_eq, stripes, ← absorbed.fed]
  unfold digestLong
  rw [if_neg notFull, absorbed.default.secretLimit]
  change absorbLast kernel state.acc (state.buffer.drop (256 - (64 - state.bufferedSize)) ++
    state.buffer.take state.bufferedSize) = _
  rw [catchup, last]

theorem Absorbed.digest (absorbed : Absorbed kernel message state consumed)
    (countable : message.length < 2 ^ 64) : Xxh3.digest kernel state = hash64 kernel message := by
  have length := absorbed.length
  have total : state.totalLen.toNat = message.length := by
    rw [absorbed.total, UInt64.toNat_ofNat']
    exact Nat.mod_eq_of_lt countable
  unfold Xxh3.digest hash64
  rw [absorbed.default.extSecret, total, absorbed.total]
  by_cases long : MIDSIZE_MAX < message.length
  · have loops : digestLong kernel state kSecret =
        hashLongInternalLoop kernel initAcc message kSecret := by
      by_cases full : 64 ≤ state.bufferedSize
      · exact absorbed.digestLong_full full
      · apply absorbed.digestLong_partial (Nat.lt_of_not_le full)
        intro none
        change 240 < message.length at long
        omega
    have middling : ¬ message.length ≤ MIDSIZE_MAX := Nat.not_le.mpr long
    change 240 < message.length at long
    rw [if_pos (show MIDSIZE_MAX < message.length from long), loops]
    unfold hash64Internal hashLong
    dsimp only
    rw [if_neg (by omega), if_neg (by omega), if_neg middling]
  · have none : consumed = 0 := by
      by_contra some
      have more := absorbed.long some
      change ¬ 240 < message.length at long
      omega
    have buffered := absorbed.buffered
    rw [none, Nat.mul_zero, List.drop_zero] at buffered
    have size : state.bufferedSize = message.length := by omega
    rw [size] at buffered
    rw [if_neg long, buffered]

/-! ### Records -/

/-- `hash_record`, which leaves the state for the next record. -/
def hashRecord (kernel : Kernel) (hashState : State) (schema : Schema) (rec : Record) :
    UInt64 × State :=
  let hashState := (QueryBuilder.keyFields schema.uniqueMask 0 rec).foldl (update kernel)
    (reset hashState)
  (digest kernel hashState, hashState)

def hashRecords (kernel : Kernel) (schema : Schema) : State → List Record → List UInt64
  | _, [] => []
  | hashState, rec :: records =>
      let (hash, hashState) := hashRecord kernel hashState schema rec
      hash :: hashRecords kernel schema hashState records

end Xxh3

/-- The runtime in which the hash of the key fields is that of their concatenation. -/
def Runtime.withXxh3 (runtime : Runtime) (kernel : Xxh3.Kernel) : Runtime :=
  { runtime with xxh3 := fun fields => Xxh3.hash64 kernel fields.flatten }

namespace Xxh3

private theorem hashRecord_eq (kernel : Kernel) (runtime : Runtime) {hashState : State}
    (sized : hashState.buffer.length = INTERNALBUFFER_SIZE) (schema : Schema) {rec : Record}
    (countable : (QueryBuilder.keyFields schema.uniqueMask 0 rec).flatten.length < 2 ^ 64) :
    (hashRecord kernel hashState schema rec).1 =
        QueryBuilder.hashRecord (runtime.withXxh3 kernel) schema rec ∧
      (hashRecord kernel hashState schema rec).2.buffer.length = INTERNALBUFFER_SIZE := by
  rcases (Absorbed.reset kernel sized).updates (QueryBuilder.keyFields schema.uniqueMask 0 rec) with
    ⟨consumed, absorbed⟩
  rw [List.nil_append] at absorbed
  exact ⟨absorbed.digest countable, absorbed.default.sized⟩

/-- The hashes of all records that a state is used for are the ones that the
model has: they depend on the concatenated key fields only, not on where these
are cut, nor on the records hashed before. -/
theorem hashRecords_eq (kernel : Kernel) (runtime : Runtime) {hashState : State}
    (sized : hashState.buffer.length = INTERNALBUFFER_SIZE) (schema : Schema)
    {records : List Record}
    (countable : ∀ rec ∈ records,
      (QueryBuilder.keyFields schema.uniqueMask 0 rec).flatten.length < 2 ^ 64) :
    hashRecords kernel schema hashState records =
      records.map (QueryBuilder.hashRecord (runtime.withXxh3 kernel) schema) := by
  induction records generalizing hashState with
  | nil => rfl
  | cons rec records ih =>
      rcases hashRecord_eq kernel runtime sized schema (countable rec List.mem_cons_self) with
        ⟨hashIs, stillSized⟩
      unfold hashRecords
      rw [List.map_cons, ← hashIs, ← ih stillSized]
      intro other member
      exact countable other (List.mem_cons_of_mem _ member)

/-- A key of one field, and one that is cut and longer than the buffer. -/
theorem hashRecords_eq_sample :
    let hashState : State :=
      { acc := []
        buffer := List.replicate 256 7
        bufferedSize := 3
        nbStripesSoFar := 9
        totalLen := 77
        nbStripesPerBlock := 0
        secretLimit := 5
        extSecret := [] }
    let schema : Schema :=
      { table := [116]
        fieldNames := [[97], [98], [99]]
        uniqueMask := 3
        floatMask := 0 }
    let records : List Record :=
      [[[97], [], [49]], [List.replicate 300 97, List.replicate 1000 98, [50]]]
    hashRecords .scalar schema hashState records =
      records.map (QueryBuilder.hashRecord (sampleRuntime.withXxh3 .scalar) schema) := by
  have fields (first second : Bytes) :
      QueryBuilder.keyFields 3 0 [first, second, [50]] = [first, second] := rfl
  apply hashRecords_eq
  · exact List.length_replicate
  · intro rec member
    rcases List.mem_cons.mp member with rfl | member
    · decide
    · have second := List.mem_singleton.mp member
      subst second
      rw [fields, List.flatten_cons, List.flatten_singleton, List.length_append,
        List.length_replicate, List.length_replicate]
      decide

end ChangeSql.Xxh3
