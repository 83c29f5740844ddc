/-
The buffered reader against a cursor without a buffer.

The cursor is a position in the file and nothing else. The reader gives the
answers of the cursor as long as every value that is asked for is closed by a
separator, and no byte 0xFF stands where `peek` looks.
-/

import ChangeSql.BufferedReader
import ChangeSql.Library.Refinement
import Mathlib.Data.List.TakeWhile

namespace ChangeSql

inductive ReaderCall where
  | seek (offset : Nat)
  | peek
  | offset
  | getValue
  deriving DecidableEq, Repr

/-- A peek that compares equal to `EOF` has seen no byte. -/
inductive ReaderAnswer where
  | done
  | peeked (byte : Option Byte)
  | offset (position : Nat)
  | value (bytes : Bytes)
  deriving DecidableEq, Repr

def BufferedReader.respond (reader : BufferedReader) :
    ReaderCall → Except Fault (ReaderAnswer × BufferedReader)
  | .seek offset => .ok (.done, reader.seek offset)
  | .peek => do
      let (byte, reader) ← reader.peek
      return (.peeked (if byte = eof then none else some byte), reader)
  | .offset => .ok (.offset reader.offset, reader)
  | .getValue => do
      let (bytes, reader) ← reader.getValue
      return (.value bytes, reader)

namespace PlainCursor

def isSeparator (byte : Byte) : Bool :=
  byte = comma ∨ byte = newline

def field (text : Bytes) : Bytes :=
  text.takeWhile fun byte => !isSeparator byte

def respond (content : Bytes) (position : Nat) : ReaderCall → ReaderAnswer × Nat
  | .seek offset => (.done, offset)
  | .peek => (.peeked content[position]?, position)
  | .offset => (.offset position, position)
  | .getValue =>
      let bytes := field (content.drop position)
      (.value bytes, position + bytes.length + 1)

def Closed (text : Bytes) : Prop :=
  ∃ byte ∈ text, isSeparator byte = true

def Allows (content : Bytes) (position : Nat) : ReaderCall → Prop
  | .peek => content[position]? ≠ some eof
  | .getValue => Closed (content.drop position)
  | _ => True

instance (content : Bytes) (position : Nat) :
    (call : ReaderCall) → Decidable (Allows content position call)
  | .seek _ => isTrue trivial
  | .peek => inferInstanceAs (Decidable (content[position]? ≠ some eof))
  | .offset => isTrue trivial
  | .getValue =>
      inferInstanceAs (Decidable (∃ byte ∈ content.drop position, isSeparator byte = true))

private theorem isSeparator_iff {byte : Byte} :
    isSeparator byte = true ↔ byte = comma ∨ byte = newline :=
  decide_eq_true_iff

theorem field_plain (text : Bytes) :
    ∀ byte ∈ field text, ¬ (byte = comma ∨ byte = newline) := by
  intro byte member separates
  have kept := List.mem_takeWhile_imp member
  rw [isSeparator_iff.mpr separates] at kept
  cases kept

theorem Closed.split {text : Bytes} (closed : Closed text) :
    ∃ separator rest, (separator = comma ∨ separator = newline) ∧
      text = field text ++ separator :: rest := by
  rcases behindIs : text.dropWhile (fun byte => !isSeparator byte) with _ | ⟨separator, rest⟩
  · exfalso
    rcases closed with ⟨byte, member, separates⟩
    have plain := List.dropWhile_eq_nil_iff.mp behindIs byte member
    rw [separates] at plain
    cases plain
  · refine ⟨separator, rest, ?_, ?_⟩
    · have stops := List.head_dropWhile_not (fun byte => !isSeparator byte) (l := text)
        (by rw [behindIs]; exact List.cons_ne_nil _ _)
      simp only [behindIs, List.head_cons, Bool.not_eq_false'] at stops
      exact isSeparator_iff.mp stops
    · rw [← behindIs]
      exact List.takeWhile_append_dropWhile.symm

theorem refines (content : Bytes) :
    Refinement.Refines BufferedReader.respond (respond content) (Allows content)
      fun position reader => BufferedReader.Represents content reader position := by
  intro position reader call represents allowed
  cases call with
  | seek offset => exact ⟨_, rfl, represents.seek offset⟩
  | offset =>
      refine ⟨reader, ?_, represents⟩
      exact congrArg (fun found => Except.ok (ReaderAnswer.offset found, reader)) represents.offset
  | peek =>
      rcases represents.peek with ⟨next, peeked, nextRepresents, _⟩
      refine ⟨next, ?_, nextRepresents⟩
      simp only [BufferedReader.respond, peeked, bind, Except.bind, respond]
      cases here : content[position]? with
      | none => rfl
      | some byte =>
          have notEnd : byte ≠ eof := by
            intro same
            rw [same] at here
            exact allowed here
          simp only [Option.getD_some, if_neg notEnd]
          rfl
  | getValue =>
      rcases Closed.split allowed with ⟨separator, rest, isSeparator, upcoming⟩
      rcases represents.getValue isSeparator (field_plain _) upcoming with
        ⟨next, got, nextRepresents⟩
      refine ⟨next, ?_, nextRepresents⟩
      simp only [BufferedReader.respond, got, bind, Except.bind, respond]
      rfl

/-- Whatever is asked, in any order and with any buffer, the answers are those
of the cursor. -/
theorem bufferedReader_refines {memory : Bytes} (sized : 0 < memory.length) (content : Bytes)
    (calls : List ReaderCall)
    (allowed : Refinement.Allowed (respond content) (Allows content) 0 calls) :
    (Refinement.run BufferedReader.respond (BufferedReader.create memory content) calls).map
      Prod.fst = .ok (Refinement.specRun (respond content) 0 calls).1 := by
  have created : BufferedReader.Represents content (.create memory content) 0 :=
    BufferedReader.create_represents memory sized
  rcases (refines content).run created allowed with ⟨final, ran, _⟩
  rw [ran]
  rfl

/-- A buffer of two cells, a value over a refill, and a peek behind the end. -/
theorem bufferedReader_refines_sample :
    (Refinement.run BufferedReader.respond (BufferedReader.create [0, 0] (ascii "abc,d\n"))
      [.peek, .getValue, .offset, .getValue, .peek, .peek, .seek 1, .getValue]).map Prod.fst =
        .ok (Refinement.specRun (respond (ascii "abc,d\n")) 0
          [.peek, .getValue, .offset, .getValue, .peek, .peek, .seek 1, .getValue]).1 :=
  bufferedReader_refines (by decide) _ _ (by decide)

end PlainCursor

end ChangeSql
