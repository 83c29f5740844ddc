/-
Reading a file that may end anywhere.

`get_value` does not look at what `peek` answers, so it stops inside the file
only if the file has a separator left. A file is read safely if its fields,
taken as many at a time as a record has, run out just where a record would
begin.
-/

import ChangeSql.PlainCursor

namespace ChangeSql

namespace BufferedReader

open PlainCursor (isSeparator field Closed)

/-- `read_idx <= buf_end <= BUFFER_SIZE` -/
structure Bounded (reader : BufferedReader) : Prop where
  index : reader.readIdx ≤ reader.bufEnd
  size : reader.bufEnd ≤ reader.bufferSize

/-- `get_value` comes to a separator in so many turns, and each of them reads
a cell in front of `buf_end`. -/
def ReadsInside : Nat → BufferedReader → Prop
  | 0, _ => False
  | turns + 1, reader =>
      ∃ ready byte next, reader.topUp = .ok ready ∧ ready.Bounded ∧
        ready.readIdx < ready.bufEnd ∧ reader.nextChar = .ok (byte, next) ∧ next.Bounded ∧
        (isSeparator byte = true ∨ ReadsInside turns next)

variable {content : Bytes} {reader : BufferedReader} {position : Nat}

theorem Represents.bounded (represents : Represents content reader position) : reader.Bounded :=
  ⟨represents.window, represents.bound⟩

private theorem Represents.readsInside {text : Bytes}
    (represents : Represents content reader position)
    (upcoming : content.drop position = text) (closed : Closed text) :
    ∃ turns, ReadsInside turns reader := by
  induction text generalizing reader position with
  | nil =>
      rcases closed with ⟨separator, member, _⟩
      cases member
  | cons byte text ih =>
      have atPosition : content[position]? = some byte := by
        rw [← List.head?_drop, upcoming]
        rfl
      have within := (List.getElem?_eq_some_iff.mp atPosition).1
      rcases represents.topUp with ⟨ready, readyIs, readyRepresents, unread⟩
      rcases represents.nextChar atPosition with ⟨next, stepped, nextRepresents⟩
      have front : ready.readIdx < ready.bufEnd :=
        Nat.lt_of_le_of_ne readyRepresents.window (unread within)
      by_cases separates : isSeparator byte = true
      · exact ⟨1, ready, byte, next, readyIs, readyRepresents.bounded, front, stepped,
          nextRepresents.bounded, Or.inl separates⟩
      · have upcomingNext : content.drop (position + 1) = text := by
          rw [← List.drop_drop, upcoming]
          rfl
        have closedNext : Closed text := by
          rcases closed with ⟨separator, member, isSeparator⟩
          rcases List.mem_cons.mp member with rfl | later
          · exact absurd isSeparator separates
          · exact ⟨separator, later, isSeparator⟩
        rcases ih nextRepresents upcomingNext closedNext with ⟨turns, inTurns⟩
        exact ⟨turns + 1, ready, byte, next, readyIs, readyRepresents.bounded, front, stepped,
          nextRepresents.bounded, Or.inr inTurns⟩

/-- Behind the last separator a turn reads at `buf_end` at the latest. -/
theorem Represents.closed_of_readsInside (represents : Represents content reader position)
    {turns : Nat} (inTurns : ReadsInside turns reader) : Closed (content.drop position) := by
  induction turns generalizing reader position with
  | zero => exact inTurns.elim
  | succ turns ih =>
      rcases inTurns with ⟨ready, byte, next, readyIs, _, front, stepped, _, ends⟩
      rcases represents.topUp with ⟨same, sameIs, readyRepresents, _⟩
      rw [readyIs] at sameIs
      cases sameIs
      have unread : ready.readIdx ≠ ready.bufEnd := Nat.ne_of_lt front
      have within : position < content.length := by
        have window := readyRepresents.window_inside unread
        omega
      rcases represents.nextChar (List.getElem?_eq_getElem within) with
        ⟨other, otherStepped, otherRepresents⟩
      rw [stepped] at otherStepped
      cases otherStepped
      rw [List.drop_eq_getElem_cons within]
      rcases ends with separates | later
      · exact ⟨_, List.mem_cons_self, separates⟩
      · rcases ih otherRepresents later with ⟨separator, member, separates⟩
        exact ⟨separator, List.mem_cons_of_mem _ member, separates⟩

end BufferedReader

open BufferedReader (Represents ReadsInside)
open PlainCursor (isSeparator field Closed)

/-! ### Whole files -/

/-- A reader that is used as `next_record` does, and how many fields of the
current record it has still to read. -/
inductive Reads (count : Nat) (start : BufferedReader) : BufferedReader → Nat → Prop where
  | start : Reads count start start 0
  | peek {reader next : BufferedReader} {byte : Byte} (reads : Reads count start reader 0)
      (peeked : reader.peek = .ok (byte, next)) :
      Reads count start next (if byte = eof then 0 else count)
  | field {reader next : BufferedReader} {left : Nat} {value : Bytes}
      (reads : Reads count start reader (left + 1))
      (got : reader.getValue = .ok (value, next)) : Reads count start next left

/-- In every state the indices are in order, and every field that is read next
comes to its end inside the buffer and is the one that the file has there. -/
def ReadsOnlyFile (memory content : Bytes) (count : Nat) : Prop :=
  ∀ reader left, Reads count (.create memory content) reader left →
    reader.Bounded ∧
      (left ≠ 0 → (∃ turns, ReadsInside turns reader) ∧
        ∃ next, reader.getValue = .ok (field (content.drop reader.offset), next))

def afterFields : Nat → Bytes → Option Bytes
  | 0, text => some text
  | count + 1, text =>
      match text.dropWhile fun byte => !isSeparator byte with
      | [] => none
      | _ :: rest => afterFields count rest

/-- The text is a row of records with so many fields each, at least up to the
first that begins with the byte `EOF`. -/
inductive WholeRecords (count : Nat) : Bytes → Prop where
  | done : WholeRecords count []
  | cut (rest : Bytes) : WholeRecords count (eof :: rest)
  | record {text rest : Bytes} (starts : text.head? ≠ some eof)
      (closed : afterFields count text = some rest) (more : WholeRecords count rest) :
      WholeRecords count text

private theorem afterFields_closed {left : Nat} {text rest : Bytes}
    (closed : afterFields (left + 1) text = some rest) : Closed text := by
  unfold afterFields at closed
  split at closed
  · cases closed
  · rename_i separator behind split
    refine ⟨separator, ?_, ?_⟩
    · have suffix := List.dropWhile_suffix (fun byte => !isSeparator byte) (l := text)
      rw [split] at suffix
      exact suffix.subset List.mem_cons_self
    · have stops := List.head_dropWhile_not (fun byte => !isSeparator byte) (l := text)
        (by rw [split]; exact List.cons_ne_nil _ _)
      simpa only [split, List.head_cons, Bool.not_eq_false'] using stops

private theorem afterFields_succ {content rest : Bytes} {separator : Byte} {position : Nat}
    (left : Nat)
    (upcoming : content.drop position = field (content.drop position) ++ separator :: rest) :
    afterFields (left + 1) (content.drop position) =
      afterFields left
        (content.drop (position + (field (content.drop position)).length + 1)) := by
  have behind : (content.drop position).dropWhile (fun byte => !isSeparator byte) =
      separator :: rest := by
    have whole := List.takeWhile_append_dropWhile
      (p := fun byte => !isSeparator byte) (l := content.drop position)
    have same := whole.trans upcoming
    exact List.append_cancel_left same
  have restIs : content.drop (position + (field (content.drop position)).length + 1) = rest := by
    rw [Nat.add_assoc, ← List.drop_drop, upcoming, ← List.drop_drop]
    have front : (field (field (content.drop position) ++ separator :: rest)).length =
        (field (content.drop position)).length := by rw [← upcoming]
    rw [front, List.drop_left]
    rfl
  rw [restIs, afterFields, behind]

variable {memory content : Bytes} {count left position : Nat} {reader : BufferedReader}

theorem Represents.field (left : Nat) (represents : Represents content reader position)
    (closed : Closed (content.drop position)) :
    ∃ next, reader.getValue = .ok (field (content.drop position), next) ∧
      Represents content next (position + (field (content.drop position)).length + 1) ∧
      afterFields (left + 1) (content.drop position) = afterFields left
        (content.drop (position + (field (content.drop position)).length + 1)) := by
  rcases closed.split with ⟨separator, rest, separates, upcoming⟩
  rcases represents.getValue separates (PlainCursor.field_plain _) upcoming with
    ⟨next, got, nextRepresents⟩
  exact ⟨next, got, nextRepresents, afterFields_succ left upcoming⟩

/-! ### Files of whole records -/

theorem WholeRecords.closed {text : Bytes} (whole : WholeRecords count text)
    (more : text.head?.getD eof ≠ eof) :
    ∃ rest, afterFields count text = some rest ∧ WholeRecords count rest := by
  cases whole with
  | done => exact absurd rfl more
  | cut rest => exact absurd rfl more
  | record starts closed whole => exact ⟨_, closed, whole⟩

def Ahead (content : Bytes) (count : Nat) (reader : BufferedReader) (left : Nat) : Prop :=
  ∃ position rest, Represents content reader position ∧
    afterFields left (content.drop position) = some rest ∧ WholeRecords count rest

theorem Ahead.peek (ahead : Ahead content count reader 0) {byte : Byte} {next : BufferedReader}
    (peeked : reader.peek = .ok (byte, next)) :
    Ahead content count next (if byte = eof then 0 else count) := by
  rcases ahead with ⟨position, rest, represents, restIs, whole⟩
  cases restIs
  rcases represents.peek with ⟨same, samePeeked, nextRepresents, _⟩
  rw [peeked] at samePeeked
  cases samePeeked
  by_cases isEnd : (content[position]?).getD eof = eof
  · rw [if_pos isEnd]
    exact ⟨position, _, nextRepresents, rfl, whole⟩
  · rw [if_neg isEnd]
    rw [← List.head?_drop] at isEnd
    rcases whole.closed isEnd with ⟨rest, closed, more⟩
    exact ⟨position, rest, nextRepresents, closed, more⟩

theorem Ahead.field (ahead : Ahead content count reader (left + 1)) {value : Bytes}
    {next : BufferedReader} (got : reader.getValue = .ok (value, next)) :
    Ahead content count next left := by
  rcases ahead with ⟨position, rest, represents, restIs, whole⟩
  rcases Represents.field left represents (afterFields_closed restIs) with
    ⟨same, sameGot, nextRepresents, behind⟩
  rw [got] at sameGot
  cases sameGot
  rw [behind] at restIs
  exact ⟨_, rest, nextRepresents, restIs, whole⟩

theorem Reads.ahead (sized : 0 < memory.length) (whole : WholeRecords count content)
    (reads : Reads count (.create memory content) reader left) :
    Ahead content count reader left := by
  induction reads with
  | start => exact ⟨0, content, BufferedReader.create_represents memory sized, rfl, whole⟩
  | peek reads peeked ih => exact ih.peek peeked
  | field reads got ih => exact ih.field got

private theorem WholeRecords.readsOnlyFile (sized : 0 < memory.length)
    (whole : WholeRecords count content) : ReadsOnlyFile memory content count := by
  intro reader left reads
  rcases reads.ahead sized whole with ⟨position, rest, represents, restIs, _⟩
  apply And.intro represents.bounded
  intro some
  rcases Nat.exists_eq_succ_of_ne_zero some with ⟨others, rfl⟩
  have closed := afterFields_closed restIs
  rcases Represents.field others represents closed with ⟨next, got, _, _⟩
  have positionIs : reader.offset = position := represents.offset
  rw [positionIs]
  exact ⟨represents.readsInside rfl closed, next, got⟩

/-! ### Files that are read safely -/

theorem Reads.fields (only : ReadsOnlyFile memory content count)
    (reads : Reads count (.create memory content) reader left)
    (represents : Represents content reader position) :
    ∃ next final, Reads count (.create memory content) next 0 ∧
      Represents content next final ∧
      afterFields left (content.drop position) = some (content.drop final) ∧
      position + left ≤ final := by
  induction left generalizing reader position with
  | zero => exact ⟨reader, position, reads, represents, rfl, Nat.le_refl _⟩
  | succ left ih =>
      rcases (only reader _ reads).2 (Nat.succ_ne_zero left) with ⟨⟨turns, inTurns⟩, _⟩
      have closed := represents.closed_of_readsInside inTurns
      rcases Represents.field left represents closed with
        ⟨next, got, nextRepresents, behind⟩
      rcases ih (reads.field got) nextRepresents with
        ⟨last, final, lastReads, lastRepresents, restIs, further⟩
      rw [← behind] at restIs
      exact ⟨last, final, lastReads, lastRepresents, restIs, by omega⟩

/-- By induction on what is left of the file. -/
theorem Reads.wholeRecords (some : count ≠ 0) (only : ReadsOnlyFile memory content count)
    {size : Nat} (sizeIs : content.length - position = size)
    (reads : Reads count (.create memory content) reader 0)
    (represents : Represents content reader position) :
    WholeRecords count (content.drop position) := by
  induction size using Nat.strongRecOn generalizing reader position with
  | ind size ih =>
      cases textIs : content.drop position with
      | nil => exact .done
      | cons byte text =>
          by_cases isEnd : byte = eof
          · rw [isEnd]
            exact .cut text
          · rcases represents.peek with ⟨next, peeked, nextRepresents, _⟩
            have peekedByte : (content[position]?).getD eof = byte := by
              rw [← List.head?_drop, textIs]
              rfl
            have nextReads := reads.peek peeked
            rw [peekedByte, if_neg isEnd] at nextReads
            rcases nextReads.fields only nextRepresents with
              ⟨last, final, lastReads, lastRepresents, closed, further⟩
            have within : position < content.length := by
              have lengths := congrArg List.length textIs
              rw [List.length_drop, List.length_cons] at lengths
              omega
            have smaller : content.length - final < size := by omega
            rw [textIs] at closed
            apply WholeRecords.record ?_ closed (ih _ smaller rfl lastReads lastRepresents)
            intro first
            exact isEnd (Option.some.inj first)

/-- The reader keeps to the file exactly if the file ends where a record ends. -/
theorem readsOnlyFile_iff (sized : 0 < memory.length) (some : count ≠ 0) :
    ReadsOnlyFile memory content count ↔ WholeRecords count content := by
  constructor
  · intro only
    exact Reads.wholeRecords some only rfl .start
      (BufferedReader.create_represents memory sized)
  · exact WholeRecords.readsOnlyFile sized

theorem readsOnlyFile_iff_sample :
    ReadsOnlyFile [0, 0] (ascii "a,b\n") 2 ↔ WholeRecords 2 (ascii "a,b\n") :=
  readsOnlyFile_iff (by decide) (by decide)

/-- A file without a line end at its end: the last field is read on into
whatever the buffer holds. -/
theorem not_readsOnlyFile_unterminated :
    ¬ ReadsOnlyFile [0, 0, 0, 0, 0, 0, 0, 0] (ascii "a,b\nc,d") 2 := by
  intro only
  have created : Represents (ascii "a,b\nc,d") (.create _ _) 0 :=
    BufferedReader.create_represents [0, 0, 0, 0, 0, 0, 0, 0] (by decide)
  have whole := Reads.wholeRecords (by decide) only rfl .start created
  cases whole with
  | record starts closed more =>
      have firstLine : afterFields 2 (ascii "a,b\nc,d") = some (ascii "c,d") := by decide
      have lastLine : afterFields 2 (ascii "c,d") = none := by decide
      rw [List.drop_zero, firstLine] at closed
      cases closed
      cases more with
      | record starts closed more =>
          rw [lastLine] at closed
          cases closed

end ChangeSql
