import WindowVm.Assembly.Error
import WindowVm.Assembly.Token
import WindowVm.Assembly.Operand
import WindowVm.Instruction.Basic

/-!
# Statements

Each line of an assembly text is one statement: blank, a label `:name`, or an instruction, that
is a mnemonic followed by exactly the operands its table entry lists (for `sys`, a system call
mnemonic and that call's operands). Operands are read left to right, and the first token that
does not fit is the error: a missing operand is reported at the line end, a token after the last
operand as an invalid argument. A label is checked in the order name, then duplicate, then
trailing tokens.

Label references keep the name and the span of the `:name` token, so that an undefined name can
be reported where it is used.
-/

namespace WindowVm.Assembly

/-- A label reference: the name after `:`, and the span of the whole token. -/
structure Ref where
  name : String
  span : Span
deriving DecidableEq, Repr

/-- One parsed line. -/
inductive Statement where
  | blank
  | label (name : String) (span : Span)
  | instr (i : Instruction Ref)
deriving DecidableEq, Repr

/-- Operands still to be read from a line, with the line end for a missing-operand report. -/
abbrev Operands := StateT (List Token) (Except Error)

namespace Operands

/-- The next token, or a missing argument at the line end `stop`. -/
def next (stop : Nat) : Operands Token := fun
  | [] => .error (.missingArgument (Span.point stop))
  | t :: ts => .ok (t, ts)

/-- A 16-bit immediate. -/
def half (stop : Nat) : Operands Byteword := do
  let t ← next stop
  match parseHalf t.text with
  | some v => pure v
  | none => throw (.invalidArgument t.span)

/-- A register: `%` and a 16-bit index. -/
def register (stop : Nat) : Operands Register := do
  let t ← next stop
  match t.text with
  | '%' :: ds =>
    match parseHalf ds with
    | some v => pure v
    | none => throw (.invalidArgument t.span)
  | _ => throw (.invalidArgument t.span)

/-- A wide immediate: a signed 64-bit integer. -/
def wide (stop : Nat) : Operands Word := do
  let t ← next stop
  match parseInteger t.text with
  | some v => pure (Word.ofInt v)
  | none => throw (.invalidArgument t.span)

/-- A label reference `:name`. -/
def target (stop : Nat) : Operands Ref := do
  let t ← next stop
  match t.text with
  | ':' :: n =>
    if isName n then pure ⟨String.ofList n, t.span⟩ else throw (.invalidSymbol t.span)
  | _ => throw (.invalidArgument t.span)

/-- The system call mnemonic and its operands, after `sys`. -/
def systemCall (stop : Nat) : Operands SystemCall := do
  let t ← next stop
  let call := if isMnemonic t.text then Syscall.ofMnemonic? (String.ofList t.text) else none
  match call with
  | none => throw (.invalidSyscall (String.ofList t.text) t.span)
  | some .nop => pure .nop
  | some .exit => return .exit (← register stop)
  | some .hi => pure .hi
  | some .bye => pure .bye
  | some .dbg => return .dbg (← register stop)

/-- The operands of an opcode, in table order. -/
def instruction (stop : Nat) : Opcode → Operands (Instruction Ref)
  | .sys => return .sys (← systemCall stop)
  | .nop => pure .nop
  | .frm => return .frm (← half stop)
  | .arg => return .arg (← register stop)
  | .cas => return .cas (← target stop)
  | .res => return .res (← half stop)
  | .ret => return .ret (← register stop) (← half stop)
  | .sca => return .sca (← register stop) (← wide stop)
  | .loc => return .loc (← register stop) (← target stop)
  | .loa => return .loa (← register stop) (← register stop)
  | .sto => return .sto (← register stop) (← register stop)
  | .mov => return .mov (← register stop) (← register stop)
  | .jmp => return .jmp (← target stop)
  | .jnz => return .jnz (← target stop) (← register stop)
  | .equ => return .binary .equ (← register stop) (← register stop) (← register stop)
  | .neu => return .binary .neu (← register stop) (← register stop) (← register stop)
  | .geu => return .binary .geu (← register stop) (← register stop) (← register stop)
  | .gtu => return .binary .gtu (← register stop) (← register stop) (← register stop)
  | .adu => return .binary .adu (← register stop) (← register stop) (← register stop)

end Operands

/-- No token may follow a complete statement. -/
def expectEnd : List Token → Except Error Unit
  | [] => .ok ()
  | t :: _ => .error (.invalidArgument t.span)

/-- Parses one line; `defined` lists the names of the labels on earlier lines. -/
def Line.parse (defined : List String) (l : Line) : Except Error Statement :=
  match l.tokens with
  | [] => .ok .blank
  | t :: rest =>
    match t.text with
    | ':' :: n =>
      let name := String.ofList n
      if !isName n then .error (.invalidSymbol t.span)
      else if defined.contains name then .error (.duplicateSymbol name t.span)
      else do expectEnd rest; pure (.label name t.span)
    | m =>
      let op := if isMnemonic m then Opcode.ofMnemonic? (String.ofList m) else none
      match op with
      | none => .error (.invalidInstruction (String.ofList m) t.span)
      | some op => do
        let (i, rest) ← Operands.instruction l.stop op rest
        expectEnd rest
        pure (.instr i)

end WindowVm.Assembly
