import WindowVm.Bytecode
import WindowVm.Fault

/-!
# Reading bytecode

A cursor is a position in a byteword stream. A byteword read takes the byteword at the position;
a word read first rounds the position up to a multiple of four, skipping the padding, then takes
four bytewords. A read that would run past the end fails with `Fault.unexpectedEnd`, naming the
position, how many bytewords it needed and how many were left from where it started, and leaves
the cursor where it was.

Positions are 64-bit machine offsets: rounding up from one of the last three offsets below
2^64 comes back to zero (`wordStart`).
-/

namespace WindowVm

/-- A read position in a byteword stream. -/
structure Cursor where
  code : Array Byteword
  pos : Nat
deriving Repr

namespace Cursor

/-- A cursor at the start of a stream. -/
def start (c : Bytecode) : Cursor := ⟨c.words, 0⟩

/-- A cursor at a given position of a stream. -/
def ofPos (c : Bytecode) (pos : Nat) : Cursor := ⟨c.words, pos⟩

/-- True once the position is at or past the end of the stream. -/
def atEnd (c : Cursor) : Bool := c.code.size ≤ c.pos

/-- Moves the cursor to `pos`; no check is made. -/
def seek (c : Cursor) (pos : Nat) : Cursor := { c with pos }

/-- Where a word read at `pos` starts: the next multiple of four, modulo 2^64. -/
def wordStart (pos : Nat) : Nat := alignUp pos % 18446744073709551616

/-- Reads the byteword at the position. -/
def readHalf (c : Cursor) : Except Fault (Byteword × Cursor) :=
  if h : c.pos < c.code.size then
    .ok (c.code[c.pos], { c with pos := c.pos + 1 })
  else
    .error (.unexpectedEnd c.pos 1 (c.code.size - c.pos))

/-- Skips to the next word boundary and reads the word stored there. -/
def readWord (c : Cursor) : Except Fault (Word × Cursor) :=
  let s := wordStart c.pos
  if h : s + 4 ≤ c.code.size then
    .ok (Word.ofBytewords c.code[s] c.code[s + 1] c.code[s + 2] c.code[s + 3],
      { c with pos := s + 4 })
  else
    .error (.unexpectedEnd c.pos 4 (c.code.size - s))

/-- Reads a location operand: a word, taken as an unsigned offset. -/
def readPlace (c : Cursor) : Except Fault (Nat × Cursor) :=
  match c.readWord with
  | .ok (w, c') => .ok (w.toNat, c')
  | .error e => .error e

end Cursor

end WindowVm
