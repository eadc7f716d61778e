import WindowVm.Assembly.Statement
import WindowVm.Emitter

/-!
# Assembling a text

The assembler reads the lines of a text in order and stops at the first error. It writes the
code through an emitter: every name, at its first occurrence as a label or as a label reference,
gets a symbol of the emitter, and the assembler keeps the name and the span of that occurrence.
A label line defines its symbol at the current position, and a symbol that is defined already
makes the label a duplicate. An instruction line is emitted with its reference replaced by the
reference's symbol. Finishing the emitter patches every reference with its symbol's location; a
symbol that was never defined is reported by the name and span of its first occurrence, and any
other error of the emitter as an invalid symbol at the end of the text.

A label line is checked in the order name, definition, trailing tokens; an instruction line in
the order mnemonic, operands, emission, trailing tokens.
-/

namespace WindowVm.Assembly

/-- The assembler's state: the emitter, the symbol of each name met so far, and the name and
first span of each symbol, by index. -/
structure Assembler where
  emitter : Emitter := {}
  symbols : List (String × Nat) := []
  names : Array Ref := #[]

namespace Assembler

/-- The symbol of a name; a name met for the first time gets a new symbol, with the span of this
occurrence. -/
def symbol (a : Assembler) (name : String) (span : Span) : Nat × Assembler :=
  match a.symbols.lookup name with
  | some s => (s, a)
  | none =>
    let (s, e) := a.emitter.newSymbol
    (s, { emitter := e, symbols := (name, s) :: a.symbols, names := a.names.push ⟨name, span⟩ })

/-- The instruction with its label reference replaced by the reference's symbol. -/
def place (a : Assembler) (i : Instruction Ref) : Instruction Nat × Assembler :=
  match i.location with
  | none => (i.map fun _ => 0, a)
  | some r =>
    let (s, a) := a.symbol r.name r.span
    (i.map fun _ => s, a)

/-- A label line: its token `t`, which is `:` and `n`, and the tokens after it. -/
def label (a : Assembler) (t : Token) (n : List Char) (rest : List Token) :
    Except Error Assembler :=
  if !isName n then .error (.invalidSymbol t.span)
  else
    let (s, a) := a.symbol (String.ofList n) t.span
    match a.emitter.define s with
    | .error _ => .error (.duplicateSymbol (String.ofList n) t.span)
    | .ok e => do
      expectEnd rest
      pure { a with emitter := e }

/-- An instruction line ending at `stop`: its mnemonic token `t` and the tokens after it. -/
def instruction (a : Assembler) (stop : Nat) (t : Token) (rest : List Token) :
    Except Error Assembler :=
  let op := if isMnemonic t.text then Opcode.ofMnemonic? (String.ofList t.text) else none
  match op with
  | none => .error (.invalidInstruction (String.ofList t.text) t.span)
  | some op => do
    let (i, rest) ← Operands.instruction stop op rest
    let (i, a) := a.place i
    match a.emitter.emit i with
    | .error _ => .error (.invalidSymbol t.span)
    | .ok e => do
      expectEnd rest
      pure { a with emitter := e }

/-- Reads one line: blank, a label, or an instruction. -/
def line (a : Assembler) (l : Line) : Except Error Assembler :=
  match l.tokens with
  | [] => .ok a
  | t :: rest =>
    match t.text with
    | ':' :: n => a.label t n rest
    | _ => a.instruction l.stop t rest

/-- Finishes the emitter. An undefined symbol is reported by its name and first span; a symbol
with no name, or another error of the emitter, is an invalid symbol at the end of the text,
which ends at `stop`. -/
def finish (a : Assembler) (stop : Nat) : Except Error Bytecode :=
  match a.emitter.finish with
  | .ok c => .ok c
  | .error (.undefinedSymbol s) =>
    match a.names[s]? with
    | some r => .error (.undefinedSymbol r.name r.span)
    | none => .error (.invalidSymbol (Span.point stop))
  | .error _ => .error (.invalidSymbol (Span.point stop))

end Assembler

/-- The bytecode of an assembly text, or the first error in it. -/
def assemble (src : String) : Except Error Bytecode := do
  let a ← (lines src).foldlM Assembler.line {}
  a.finish src.utf8ByteSize

end WindowVm.Assembly
