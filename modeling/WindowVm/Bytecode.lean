import WindowVm.Instruction.Basic

/-!
# Bytecode

A program is a flat array of bytewords. Bytewords are appended one at a time; a word is
appended at the next multiple of four, the gap filled with zero bytewords, and then takes four
bytewords, least significant first. Pushing an instruction writes its layout piece by piece.

Main statements: the size after each write (`size_writeHalf`, `size_writeWord`), and that the
size after a push does not depend on the values of the location operands (`size_push_map`).
-/

namespace WindowVm

/-- The least multiple of four at or above `n`: where a word written at `n` starts. -/
def alignUp (n : Nat) : Nat := (n + 3) / 4 * 4

/-- An instruction stream of bytewords. -/
structure Bytecode where
  words : Array Byteword := #[]
deriving DecidableEq, Repr, Inhabited

namespace Bytecode

def empty : Bytecode := {}

/-- The number of bytewords written so far. -/
def size (c : Bytecode) : Nat := c.words.size

def isEmpty (c : Bytecode) : Bool := c.words.isEmpty

/-- Appends one byteword (an opcode or syscall tag, a register or a 16-bit immediate). -/
def writeHalf (c : Bytecode) (b : Byteword) : Bytecode := ⟨c.words.push b⟩

/-- Pads with zero bytewords up to `alignUp c.size`, where the word then starts, and appends the
word's four bytewords. -/
def writeWord (c : Bytecode) (w : Word) : Bytecode :=
  ⟨c.words ++ Array.replicate (alignUp c.size - c.size) 0 ++ w.toBytewords.toArray⟩

/-- Appends one piece of an instruction whose locations are absolute offsets. -/
def writePiece (c : Bytecode) : Piece Nat → Bytecode
  | .half b => c.writeHalf b
  | .word w => c.writeWord w
  | .place l => c.writeWord (Word.ofNat l)

/-- Appends an instruction whose locations are absolute offsets. -/
def push (c : Bytecode) (i : Instruction Nat) : Bytecode := i.pieces.foldl writePiece c

/-- The bytecode of a list of instructions, in order. -/
def ofList (is : List (Instruction Nat)) : Bytecode := is.foldl push empty

theorem le_alignUp (n : Nat) : n ≤ alignUp n := by unfold alignUp; omega

@[simp] theorem size_writeHalf (c : Bytecode) (b : Byteword) :
    (c.writeHalf b).size = c.size + 1 := by
  simp [writeHalf, size]

@[simp] theorem size_writeWord (c : Bytecode) (w : Word) :
    (c.writeWord w).size = alignUp c.size + 4 := by
  unfold writeWord size
  have := le_alignUp c.words.size
  simp [Word.toBytewords]
  omega

/-- The size a piece leaves behind depends only on its kind and the size before it. -/
def pieceSize {L : Type} (n : Nat) : Piece L → Nat
  | .half _ => n + 1
  | .word _ => alignUp n + 4
  | .place _ => alignUp n + 4

@[simp] theorem size_writePiece (c : Bytecode) (p : Piece Nat) :
    (c.writePiece p).size = pieceSize c.size p := by
  cases p <;> simp [writePiece, pieceSize]

theorem size_foldl_writePiece (c : Bytecode) (ps : List (Piece Nat)) :
    (ps.foldl writePiece c).size = ps.foldl pieceSize c.size := by
  induction ps generalizing c with
  | nil => rfl
  | cons p ps ih => simp [List.foldl, ih]

theorem foldl_pieceSize_map {L L' : Type} (f : L → L') (n : Nat) (i : Instruction L) :
    (i.map f).pieces.foldl pieceSize n = i.pieces.foldl pieceSize n := by
  cases i with
  | sys c =>
    cases c <;> simp [Instruction.map, Instruction.pieces, pieceSize, SystemCall.registers]
  | _ => simp [Instruction.map, Instruction.pieces, pieceSize]

theorem size_push_map {L : Type} (c : Bytecode) (i : Instruction L) (f g : L → Nat) :
    (c.push (i.map f)).size = (c.push (i.map g)).size := by
  simp only [push, size_foldl_writePiece, foldl_pieceSize_map]

end Bytecode

end WindowVm
