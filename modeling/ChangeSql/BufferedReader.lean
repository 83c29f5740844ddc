/-
The buffered reader of one CSV file.

The first part follows `buffered_reader.cpp` cell by cell: the buffer keeps
stale bytes behind `bufEnd`, and nothing but a comparison of two indices tells
the reader that it has to refill. The second part says which position of the
file such a reader stands for, and that `peek`, `seek` and `getValue` act on
that position alone.
-/

import ChangeSql.Bytes

namespace ChangeSql

/-- `file` and `filePos` are the open file and its position. The length of
`readBuffer` is `BUFFER_SIZE`: the array is allocated once and only its cells
are overwritten. -/
structure BufferedReader where
  file : Bytes
  filePos : Nat
  readBuffer : Bytes
  bufEnd : Nat
  readIdx : Nat
  offset_ : Nat
  deriving DecidableEq, Repr

namespace BufferedReader

def bufferSize (reader : BufferedReader) : Nat :=
  reader.readBuffer.length

/-- The constructor. `memory` is what the allocated buffer happens to hold. -/
def create (memory file : Bytes) : BufferedReader :=
  { file := file
    filePos := 0
    readBuffer := memory
    bufEnd := memory.length
    readIdx := memory.length
    offset_ := 0 }

/-- `buf_end = fread(read_buffer, 1, BUFFER_SIZE, fd)` followed by
`read_idx = 0`. Only the cells that `fread` fills change. -/
def refill (reader : BufferedReader) : BufferedReader :=
  let chunk := (reader.file.drop reader.filePos).take reader.bufferSize
  { reader with
    filePos := reader.filePos + chunk.length
    readBuffer := chunk ++ reader.readBuffer.drop chunk.length
    bufEnd := chunk.length
    readIdx := 0 }

def cell (reader : BufferedReader) : Except Fault Byte :=
  match reader.readBuffer[reader.readIdx]? with
  | some byte => .ok byte
  | none => .error .outOfBounds

def peek (reader : BufferedReader) : Except Fault (Byte × BufferedReader) :=
  if reader.readIdx = reader.bufEnd then
    if reader.bufEnd = reader.bufferSize then
      let filled := reader.refill
      if filled.bufEnd = 0 then .ok (eof, filled)
      else filled.cell.map fun byte => (byte, filled)
    else .ok (eof, reader)
  else reader.cell.map fun byte => (byte, reader)

def seek (reader : BufferedReader) (offset : Nat) : BufferedReader :=
  { reader with
    filePos := offset
    offset_ := offset
    readIdx := reader.bufferSize
    bufEnd := reader.bufferSize }

def offset (reader : BufferedReader) : Nat :=
  reader.offset_

/-- `if (read_idx == buf_end) peek();` of `get_value`, which drops the answer. -/
def topUp (reader : BufferedReader) : Except Fault BufferedReader :=
  if reader.readIdx = reader.bufEnd then reader.peek.map Prod.snd else .ok reader

/-- The rest of one turn of the loop of `get_value`: `read_buffer[read_idx++]`
and `offset_++`. -/
def nextChar (reader : BufferedReader) : Except Fault (Byte × BufferedReader) := do
  let ready ← reader.topUp
  let byte ← ready.cell
  return (byte, { ready with readIdx := ready.readIdx + 1, offset_ := ready.offset_ + 1 })

def getValueLoop : Nat → BufferedReader → Bytes → Except Fault (Bytes × BufferedReader)
  | 0, _, _ => .error .outOfFuel
  | fuel + 1, reader, ret => do
      let (byte, next) ← reader.nextChar
      if byte = comma ∨ byte = newline then return (ret, next)
      else getValueLoop fuel next (ret ++ [byte])

/-- A turn reads a cell of the current window, of a later window, or a stale
cell behind the last window, so the fuel covers every turn there can be. -/
def getValue (reader : BufferedReader) : Except Fault (Bytes × BufferedReader) :=
  getValueLoop (reader.file.length + 2 * reader.bufferSize + 2) reader []

/-! ### The counter `offset_` -/

variable {before after : BufferedReader} {byte : Byte}

private theorem cell_map_snd
    (seen : before.cell.map (fun found => (found, before)) = .ok (byte, after)) :
    after = before := by
  cases inCell : before.cell with
  | error fault =>
      rw [inCell] at seen
      cases seen
  | ok found =>
      rw [inCell] at seen
      cases seen
      rfl

theorem peek_offset (peeked : before.peek = .ok (byte, after)) : after.offset = before.offset := by
  unfold peek at peeked
  split at peeked
  · split at peeked
    · dsimp only at peeked
      split at peeked
      · cases peeked
        rfl
      · rw [cell_map_snd peeked]
        rfl
    · cases peeked
      rfl
  · rw [cell_map_snd peeked]

private theorem topUp_offset (ready : before.topUp = .ok after) : after.offset = before.offset := by
  unfold topUp at ready
  split at ready
  · cases peeked : before.peek with
    | error fault =>
        rw [peeked] at ready
        cases ready
    | ok answer =>
        rw [peeked] at ready
        cases ready
        exact peek_offset peeked
  · cases ready
    rfl

private theorem nextChar_offset (stepped : before.nextChar = .ok (byte, after)) :
    after.offset = before.offset + 1 := by
  simp only [nextChar, bind, Except.bind] at stepped
  split at stepped
  · contradiction
  · rename_i ready toppedUp
    split at stepped
    · contradiction
    · cases stepped
      change ready.offset + 1 = before.offset + 1
      rw [topUp_offset toppedUp]

private theorem getValueLoop_offset {fuel : Nat} {ret value : Bytes}
    (looped : getValueLoop fuel before ret = .ok (value, after)) :
    before.offset < after.offset := by
  induction fuel generalizing before ret with
  | zero => cases looped
  | succ fuel ih =>
      simp only [getValueLoop, bind, Except.bind] at looped
      split at looped
      · contradiction
      · rename_i turn stepped
        have counted := nextChar_offset stepped
        split at looped
        · cases looped
          omega
        · have rest := ih looped
          omega

theorem getValue_offset {value : Bytes} (got : before.getValue = .ok (value, after)) :
    before.offset < after.offset :=
  getValueLoop_offset got

/-! ### The position a reader stands for -/

/-- `reader` is a reader of `content` with a buffer of at least one cell, and
its next byte is the one at `position`. -/
structure Represents (content : Bytes) (reader : BufferedReader) (position : Nat) : Prop where
  file : reader.file = content
  sized : 0 < reader.bufferSize
  offset : reader.offset_ = position
  window : reader.readIdx ≤ reader.bufEnd
  bound : reader.bufEnd ≤ reader.bufferSize
  ahead : reader.filePos = position + (reader.bufEnd - reader.readIdx)
  buffered : (reader.readBuffer.take reader.bufEnd).drop reader.readIdx =
    (content.drop position).take (reader.bufEnd - reader.readIdx)
  more : reader.bufEnd = reader.bufferSize ∨ content.length ≤ reader.filePos

variable {content : Bytes} {reader next : BufferedReader} {position : Nat}

theorem create_represents (memory : Bytes) (sized : 0 < memory.length) :
    Represents content (create memory content) 0 := by
  constructor <;> simp [create, bufferSize, sized]

theorem Represents.seek (represents : Represents content reader position) (target : Nat) :
    Represents content (reader.seek target) target := by
  have file := represents.file
  have sized := represents.sized
  constructor <;> simp_all [BufferedReader.seek, bufferSize]

theorem Represents.window_inside (represents : Represents content reader position)
    (unread : reader.readIdx ≠ reader.bufEnd) :
    position + (reader.bufEnd - reader.readIdx) ≤ content.length := by
  have window := represents.window
  have bound := represents.bound
  have lengths := congrArg List.length represents.buffered
  unfold bufferSize at bound
  simp only [List.length_drop, List.length_take] at lengths
  omega

private theorem Represents.cell_unread (represents : Represents content reader position)
    (unread : reader.readIdx ≠ reader.bufEnd) :
    ∃ byte, content[position]? = some byte ∧ reader.cell = .ok byte := by
  have window := represents.window
  have bound := represents.bound
  have inside := represents.window_inside unread
  unfold bufferSize at bound
  have inFile : position < content.length := by omega
  have inBuffer : reader.readIdx < reader.readBuffer.length := by omega
  refine ⟨content[position], List.getElem?_eq_getElem inFile, ?_⟩
  have heads := congrArg (fun bytes => bytes[0]?) represents.buffered
  simp only [List.getElem?_drop, List.getElem?_take, Nat.add_zero] at heads
  rw [if_pos (by omega), if_pos (by omega), List.getElem?_eq_getElem inBuffer,
    List.getElem?_eq_getElem inFile] at heads
  unfold cell
  rw [List.getElem?_eq_getElem inBuffer]
  exact congrArg Except.ok (Option.some.inj heads)

/-- Refilling a used up full window moves no position. -/
theorem Represents.refill (represents : Represents content reader position)
    (usedUp : reader.readIdx = reader.bufEnd) :
    Represents content reader.refill position := by
  have ahead := represents.ahead
  rw [usedUp, Nat.sub_self, Nat.add_zero] at ahead
  have chunkLength :
      ((content.drop position).take reader.bufferSize).length =
        min reader.bufferSize (content.length - position) := by
    rw [List.length_take, List.length_drop]
  have refillSize : reader.refill.bufferSize = reader.bufferSize := by
    simp only [BufferedReader.refill, bufferSize, List.length_append, List.length_drop,
      List.length_take]
    omega
  refine
    { file := represents.file
      sized := by rw [refillSize]; exact represents.sized
      offset := represents.offset
      window := Nat.zero_le _
      bound := ?_
      ahead := ?_
      buffered := ?_
      more := ?_ }
  · rw [refillSize]
    simp only [BufferedReader.refill, List.length_take]
    exact Nat.min_le_left _ _
  · simp only [BufferedReader.refill, ahead, Nat.sub_zero]
  · simp only [BufferedReader.refill, represents.file, ahead, List.drop_zero, Nat.sub_zero,
      List.take_left]
    rw [List.take_eq_take_iff, List.length_drop, chunkLength]
    omega
  · rw [refillSize]
    simp only [BufferedReader.refill, represents.file, ahead, chunkLength]
    omega

/-- What `peek` sees: the byte at the position, or `eof` behind the last
byte. A byte 0xFF of the file is not told apart from the latter. -/
theorem Represents.peek (represents : Represents content reader position) :
    ∃ next, reader.peek = .ok ((content[position]?).getD eof, next) ∧
      Represents content next position ∧
      (position < content.length → next.readIdx ≠ next.bufEnd) := by
  have ahead := represents.ahead
  unfold BufferedReader.peek
  by_cases usedUp : reader.readIdx = reader.bufEnd
  · rw [usedUp, Nat.sub_self, Nat.add_zero] at ahead
    rw [if_pos usedUp]
    by_cases full : reader.bufEnd = reader.bufferSize
    · rw [if_pos full]
      have filled := represents.refill usedUp
      have filledStart : reader.refill.readIdx = 0 := rfl
      have filledEnd : reader.refill.bufEnd =
          min reader.bufferSize (content.length - position) := by
        simp only [BufferedReader.refill, represents.file, ahead, List.length_take,
          List.length_drop]
      have sized := represents.sized
      by_cases empty : reader.refill.bufEnd = 0
      · have atEnd : content.length ≤ position := by omega
        refine ⟨reader.refill, ?_, filled, by omega⟩
        simp only [if_pos empty, List.getElem?_eq_none atEnd, Option.getD_none]
      · have unread : reader.refill.readIdx ≠ reader.refill.bufEnd := by
          rw [filledStart]
          exact Ne.symm empty
        obtain ⟨byte, atPosition, inCell⟩ := filled.cell_unread unread
        refine ⟨reader.refill, ?_, filled, fun _ => unread⟩
        simp only [if_neg empty, inCell, atPosition, Option.getD_some, Except.map]
    · rw [if_neg full]
      have atEnd : content.length ≤ position := by
        rw [← ahead]
        exact represents.more.resolve_left full
      refine ⟨reader, ?_, represents, by omega⟩
      rw [List.getElem?_eq_none atEnd, Option.getD_none]
  · rw [if_neg usedUp]
    obtain ⟨byte, atPosition, inCell⟩ := represents.cell_unread usedUp
    refine ⟨reader, ?_, represents, fun _ => usedUp⟩
    simp only [inCell, atPosition, Option.getD_some, Except.map]

theorem Represents.advance (represents : Represents content reader position)
    (unread : reader.readIdx ≠ reader.bufEnd) :
    Represents content
      { reader with readIdx := reader.readIdx + 1, offset_ := reader.offset_ + 1 }
      (position + 1) := by
  have window := represents.window
  have ahead := represents.ahead
  refine
    { file := represents.file
      sized := represents.sized
      offset := by rw [represents.offset]
      window := ?_
      bound := represents.bound
      ahead := ?_
      buffered := ?_
      more := represents.more }
  · change reader.readIdx + 1 ≤ reader.bufEnd
    omega
  · change reader.filePos = position + 1 + (reader.bufEnd - (reader.readIdx + 1))
    omega
  · change (reader.readBuffer.take reader.bufEnd).drop (reader.readIdx + 1) =
      (content.drop (position + 1)).take (reader.bufEnd - (reader.readIdx + 1))
    rw [← List.drop_drop, represents.buffered, List.drop_take, List.drop_drop, Nat.sub_sub]

theorem Represents.topUp (represents : Represents content reader position) :
    ∃ ready, reader.topUp = .ok ready ∧ Represents content ready position ∧
      (position < content.length → ready.readIdx ≠ ready.bufEnd) := by
  unfold BufferedReader.topUp
  by_cases usedUp : reader.readIdx = reader.bufEnd
  · obtain ⟨ready, peeked, readyRepresents, unread⟩ := represents.peek
    exact ⟨ready, by rw [if_pos usedUp, peeked]; rfl, readyRepresents, unread⟩
  · exact ⟨reader, if_neg usedUp, represents, fun _ => usedUp⟩

theorem Represents.nextChar (represents : Represents content reader position)
    {byte : Byte} (atPosition : content[position]? = some byte) :
    ∃ next, reader.nextChar = .ok (byte, next) ∧ Represents content next (position + 1) := by
  have inside : position < content.length := (List.getElem?_eq_some_iff.mp atPosition).1
  obtain ⟨ready, readyIs, readyRepresents, unread⟩ := represents.topUp
  obtain ⟨found, atFound, inCell⟩ := readyRepresents.cell_unread (unread inside)
  have same : found = byte := Option.some.inj (atFound.symm.trans atPosition)
  refine ⟨_, ?_, readyRepresents.advance (unread inside)⟩
  unfold BufferedReader.nextChar
  rw [readyIs, ← same]
  simp only [bind, Except.bind, inCell]
  rfl

/-- Induction on the bytes in front of the separator; each turn moves one of
them from the file to the result. -/
theorem Represents.getValueLoop {value rest : Bytes} {separator : Byte}
    (represents : Represents content reader position)
    (isSeparator : separator = comma ∨ separator = newline)
    (plain : ∀ byte ∈ value, ¬ (byte = comma ∨ byte = newline))
    (upcoming : content.drop position = value ++ separator :: rest)
    (fuel : Nat) (enough : value.length < fuel) (ret : Bytes) :
    ∃ next, BufferedReader.getValueLoop fuel reader ret = .ok (ret ++ value, next) ∧
      Represents content next (position + value.length + 1) := by
  induction value generalizing fuel reader position ret with
  | nil =>
      cases fuel with
      | zero => exact absurd enough (Nat.not_lt_zero _)
      | succ fuel =>
          have atPosition : content[position]? = some separator := by
            have heads := congrArg (fun bytes => bytes[0]?) upcoming
            simpa only [List.getElem?_drop, Nat.add_zero, List.nil_append,
              List.getElem?_cons_zero] using heads
          obtain ⟨next, stepped, represented⟩ := represents.nextChar atPosition
          refine ⟨next, ?_, represented⟩
          simp only [BufferedReader.getValueLoop, stepped, bind, Except.bind, if_pos isSeparator,
            List.append_nil]
          rfl
  | cons byte value ih =>
      cases fuel with
      | zero => exact absurd enough (Nat.not_lt_zero _)
      | succ fuel =>
          have atPosition : content[position]? = some byte := by
            have heads := congrArg (fun bytes => bytes[0]?) upcoming
            simpa only [List.getElem?_drop, Nat.add_zero, List.cons_append,
              List.getElem?_cons_zero] using heads
          have upcomingNext : content.drop (position + 1) = value ++ separator :: rest := by
            rw [← List.drop_drop, upcoming]
            rfl
          obtain ⟨next, stepped, represented⟩ := represents.nextChar atPosition
          obtain ⟨last, looped, lastRepresents⟩ := ih represented
            (fun other member => plain other (List.mem_cons_of_mem _ member)) upcomingNext fuel
            (Nat.lt_of_succ_lt_succ enough) (ret ++ [byte])
          refine ⟨last, ?_, ?_⟩
          · simp only [BufferedReader.getValueLoop, stepped, bind, Except.bind,
              if_neg (plain byte List.mem_cons_self), looped, List.append_assoc,
              List.singleton_append]
          · rw [List.length_cons, show position + (value.length + 1) + 1 =
              position + 1 + value.length + 1 by omega]
            exact lastRepresents

theorem Represents.getValue {value rest : Bytes} {separator : Byte}
    (represents : Represents content reader position)
    (isSeparator : separator = comma ∨ separator = newline)
    (plain : ∀ byte ∈ value, ¬ (byte = comma ∨ byte = newline))
    (upcoming : content.drop position = value ++ separator :: rest) :
    ∃ next, reader.getValue = .ok (value, next) ∧
      Represents content next (position + value.length + 1) := by
  have lengths := congrArg List.length upcoming
  simp only [List.length_drop, List.length_append, List.length_cons] at lengths
  have enough : value.length < reader.file.length + 2 * reader.bufferSize + 2 := by
    rw [represents.file]
    omega
  obtain ⟨next, looped, represented⟩ :=
    represents.getValueLoop isSeparator plain upcoming _ enough []
  exact ⟨next, looped, represented⟩

end BufferedReader

end ChangeSql
