import WindowVm.Instruction.Decode
import WindowVm.Instruction.Text

/-!
# Disassembly

A stream is decoded linearly from offset 0, each instruction starting where the previous one
ended, until the position reaches the end; the first decode fault is the answer. Every location
operand must then be an instruction start or the end of the stream, and otherwise the least
offending location is reported as `Fault.invalidJumpTarget`.

The text has one line per instruction, indented by four spaces, and a label line `:sN` before
the instruction at each offset `N` that some location operand names, and at the end when a
location names the end. The labels carry no names of their own, so they are made from offsets.
-/

namespace WindowVm.Disassembly

/-- Decodes from the cursor to the end: each instruction with its offset. Every instruction
takes at least one byteword, so `fuel` at the number of bytewords left is enough. -/
def decodeFrom : Nat → Cursor → Except Fault (List (Nat × Instruction Nat))
  | 0, _ => .ok []
  | fuel + 1, c =>
    if c.atEnd then .ok []
    else
      match Instruction.decode c with
      | .error e => .error e
      | .ok (i, c') =>
        match decodeFrom fuel c' with
        | .error e => .error e
        | .ok rest => .ok ((c.pos, i) :: rest)

/-- The linear decode of a stream from offset 0. -/
def listing (code : Bytecode) : Except Fault (List (Nat × Instruction Nat)) :=
  decodeFrom code.size (Cursor.start code)

/-- The locations named by the instructions of a listing. -/
def targets (l : List (Nat × Instruction Nat)) : List Nat :=
  l.filterMap fun p => p.2.location

/-- The least location that is neither an instruction start nor the end of the stream. -/
def strayTarget? (size : Nat) (l : List (Nat × Instruction Nat)) : Option Nat :=
  let starts := l.map Prod.fst
  (targets l).foldl (fun acc t =>
    if t = size || starts.contains t then acc
    else some (match acc with | some a => min a t | none => t)) none

/-- The label line for offset `n`. -/
def labelLine (n : Nat) : String := ":" ++ placeLabel n ++ "\n"

/-- The text of a checked listing. -/
def text (size : Nat) (l : List (Nat × Instruction Nat)) : String :=
  let ts := targets l
  let body := l.foldl (fun s p =>
    (if ts.contains p.1 then s ++ labelLine p.1 else s) ++ "    " ++ p.2.text ++ "\n") ""
  if ts.contains size then body ++ labelLine size else body

/-- The assembly text of a stream, or why it has none. -/
def render (code : Bytecode) : Except Fault String := do
  let l ← listing code
  match strayTarget? code.size l with
  | some t => throw (.invalidJumpTarget t)
  | none => pure (text code.size l)

end WindowVm.Disassembly
