/-
Bytes and the separator characters that the sources compare them with.

A file, a field value and a statement text are all lists of bytes. The
sources hold them as `char`, which is signed on the target, so the byte 0xFF
and the integer `EOF` are one and the same `char`.
-/

namespace ChangeSql

abbrev Byte := UInt8

abbrev Bytes := List Byte

def ascii (text : String) : Bytes :=
  text.toList.map fun char => UInt8.ofNat char.toNat

abbrev newline : Byte := 10
abbrev space : Byte := 32
abbrev quote : Byte := 39
abbrev openParen : Byte := 40
abbrev closeParen : Byte := 41
abbrev comma : Byte := 44
abbrev dot : Byte := 46
abbrev backslash : Byte := 92
abbrev backquote : Byte := 96

/-- The bytes of a text are looked at one by one, not all the bytes there are. -/
instance decidableEveryByte (text : Bytes) (property : Byte → Prop) [DecidablePred property] :
    Decidable (∀ byte ∈ text, property byte) :=
  List.decidableBAll property text

/-- `EOF`, the integer -1, as the `char` that `peek` returns for it. -/
abbrev eof : Byte := 255

/-- How a run of the program can go wrong: an index outside an array, an
exception that nothing catches, an exit with an error message, an `int` shifted
by its width or out of its range, or (shown not to happen) a loop of the model
that has used up its fuel. -/
inductive Fault where
  | outOfBounds
  | uncaughtException
  | exited
  | overflow
  | outOfFuel
  deriving DecidableEq, Repr

end ChangeSql
