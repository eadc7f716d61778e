import WindowVm.Assembly.Statement
import WindowVm.Bytecode

/-!
# The layout of a text

What an assembly text means, computed without an emitter: the lines are parsed in order, and the
first line that is not a statement is the error; a label may not repeat a name defined on an
earlier line. The statements are then laid out: a label stands for the size of the code before
it, and the instructions are pushed in order with each label reference replaced by its offset.
The first reference, in order, to a name that no label defines is the error; as every earlier use
of that name would have failed first, this is the name's first use.

The assembler of `WindowVm.Assembly.Basic` works through the emitter's placeholders instead; it
computes this layout for every text whose code and symbols fit the emitter's 64-bit offsets.
-/

namespace WindowVm.Assembly

/-- Parses one more line against the names defined so far; the accumulator holds those names
and the statements read, both latest first. -/
def parseStep (acc : List String × List Statement) (l : Line) :
    Except Error (List String × List Statement) := do
  let s ← l.parse acc.1
  match s with
  | .label name _ => pure (name :: acc.1, s :: acc.2)
  | _ => pure (acc.1, s :: acc.2)

/-- The statements of a text, or the error of its first bad line. -/
def parse (src : String) : Except Error (List Statement) :=
  match (lines src).foldlM parseStep ([], []) with
  | .ok (_, ss) => .ok ss.reverse
  | .error e => .error e

/-- The offset of every label: the size of the code laid out before it, counting from `n`. -/
def labelOffsets : List Statement → Nat → List (String × Nat)
  | [], _ => []
  | .blank :: ss, n => labelOffsets ss n
  | .label name _ :: ss, n => (name, n) :: labelOffsets ss n
  | .instr i :: ss, n => labelOffsets ss (i.pieces.foldl Bytecode.pieceSize n)

/-- The instruction with its label reference replaced by the label's offset. -/
def resolve (offsets : List (String × Nat)) (i : Instruction Ref) :
    Except Error (Instruction Nat) :=
  match i.location with
  | none => .ok (i.map fun _ => 0)
  | some r =>
    match offsets.lookup r.name with
    | some n => .ok (i.map fun _ => n)
    | none => .error (.undefinedSymbol r.name r.span)

/-- Pushes the instruction of a statement, its reference resolved; other statements push
nothing. -/
def encodeStep (offsets : List (String × Nat)) (c : Bytecode) : Statement → Except Error Bytecode
  | .instr i => do pure (c.push (← resolve offsets i))
  | _ => pure c

/-- Pushes the instructions of the statements in order, references resolved. -/
def encode (ss : List Statement) : Except Error Bytecode :=
  ss.foldlM (encodeStep (labelOffsets ss 0)) Bytecode.empty

/-- The bytecode a text lays out to, or the first error in it. -/
def layout (src : String) : Except Error Bytecode := do
  encode (← parse src)

end WindowVm.Assembly
