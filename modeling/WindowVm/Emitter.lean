import WindowVm.Bytecode.Cursor

/-!
# The relocating emitter

An emitter builds bytecode whose jump and call targets are symbols rather than offsets. Symbols
are allocated as dense indices and each may be defined once, at the current write position.
An instruction is emitted with the index of its target symbol written in place of the target,
and the position of that word is recorded; finishing reads each recorded word back, in order,
and overwrites it with the offset where its symbol was defined. The first recorded reference to
a symbol that was never defined is the error.

A call that fails changes nothing: a second definition keeps the first, and an instruction
naming a symbol that was never allocated is not written.
-/

namespace WindowVm

/-- Overwrites the four bytewords from `pos` with a word. -/
def Bytecode.patchWord (c : Bytecode) (pos : Nat) (w : Word) : Bytecode :=
  ⟨(w.toBytewords.zipIdx).foldl (fun ws p => ws.setIfInBounds (pos + p.2) p.1) c.words⟩

/-- An emitter: the code so far, the offset of each defined symbol, and the positions of the
words that still hold a symbol index. -/
structure Emitter where
  code : Bytecode := {}
  locations : Array (Option Nat) := #[]
  references : Array Nat := #[]
deriving Repr

namespace Emitter

/-- Why an emitter call failed; symbols are named by their index. -/
inductive Error where
  /-- The symbol already has a location; it keeps it. -/
  | duplicateSymbol (symbol location : Nat)
  /-- A reference to a symbol that never received a location. -/
  | undefinedSymbol (symbol : Nat)
  /-- An index that this emitter never allocated. -/
  | unknownSymbol (symbol : Nat)
deriving DecidableEq, Repr

/-- The text that reports an error; symbols are written `#n`. -/
def Error.message : Error → String
  | .duplicateSymbol s l => s!"symbol #{s} is already defined at {l}"
  | .undefinedSymbol s => s!"symbol #{s} is referenced but never defined"
  | .unknownSymbol s => s!"symbol #{s} was not allocated by this emitter"

/-- The current write position. -/
def position (e : Emitter) : Nat := e.code.size

/-- Allocates a symbol with no location yet, and returns its index. -/
def newSymbol (e : Emitter) : Nat × Emitter :=
  (e.locations.size, { e with locations := e.locations.push none })

/-- The location of a symbol, if it is allocated and defined. -/
def location? (e : Emitter) (s : Nat) : Option Nat := (e.locations[s]?).join

/-- Defines a symbol at the current write position. -/
def define (e : Emitter) (s : Nat) : Except Error Emitter :=
  match e.locations[s]? with
  | none => .error (.unknownSymbol s)
  | some (some l) => .error (.duplicateSymbol s l)
  | some none => .ok { e with locations := e.locations.set! s (some e.position) }

/-- Writes one piece, recording where a symbol index is written. -/
def emitPiece (e : Emitter) : Piece Nat → Emitter
  | .place s =>
    { e with
      code := e.code.writeWord (Word.ofNat s)
      references := e.references.push (alignUp e.code.size) }
  | p => { e with code := e.code.writePiece p }

/-- Appends an instruction whose location operand is a symbol index. -/
def emit (e : Emitter) (i : Instruction Nat) : Except Error Emitter :=
  match i.location with
  | some s => if e.locations.size ≤ s then .error (.unknownSymbol s)
    else .ok (i.pieces.foldl emitPiece e)
  | none => .ok (i.pieces.foldl emitPiece e)

/-- The symbol index held by the word at `pos`; a word that cannot be read counts as the
largest index, which no emitter allocates. -/
def indexAt (c : Bytecode) (pos : Nat) : Nat :=
  match (Cursor.ofPos c pos).readWord with
  | .ok (w, _) => w.toNat
  | .error _ => 18446744073709551616 - 1

/-- Replaces every recorded symbol index by its symbol's location. -/
def finish (e : Emitter) : Except Error Bytecode :=
  e.references.foldlM (fun c pos =>
    let s := indexAt c pos
    match e.locations[s]? with
    | some (some l) => .ok (c.patchWord pos (Word.ofNat l))
    | some none => .error (.undefinedSymbol s)
    | none => .error (.unknownSymbol s)) e.code

end Emitter

end WindowVm
