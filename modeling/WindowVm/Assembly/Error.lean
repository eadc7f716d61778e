import WindowVm.Span

/-!
# Assembly errors

What stops an assembly, one constructor per cause. All but a failed read point at the text
through a span; each has a numeric code that rendered diagnostics show, with a missing and an
invalid argument sharing code 3.
-/

namespace WindowVm.Assembly

/-- Why an assembly text was refused. -/
inductive Error where
  /-- The first token of a line is not an opcode mnemonic. -/
  | invalidInstruction (mnemonic : String) (span : Span)
  /-- The token after `sys` is not a system call mnemonic. -/
  | invalidSyscall (mnemonic : String) (span : Span)
  /-- An operand of the wrong form, or a token after the last operand. -/
  | invalidArgument (span : Span)
  /-- The line ends before the last operand; the span is the empty span at the line end. -/
  | missingArgument (span : Span)
  /-- A label or label reference whose name is not a valid symbol name. -/
  | invalidSymbol (span : Span)
  /-- A second label line for the same name. -/
  | duplicateSymbol (name : String) (span : Span)
  /-- A label reference to a name that no label line defines, at its first use. -/
  | undefinedSymbol (name : String) (span : Span)
  /-- The text could not be read at all. -/
  | unreadable (path reason : String)
deriving DecidableEq, Repr

namespace Error

/-- The text that reports an error. -/
def message : Error → String
  | invalidInstruction m _ => "invalid instruction `" ++ m ++ "`"
  | invalidSyscall m _ => "invalid syscall `" ++ m ++ "`"
  | invalidArgument _ => "invalid argument"
  | missingArgument _ => "missing argument"
  | invalidSymbol _ => "invalid symbol"
  | duplicateSymbol n _ => "duplicate symbol `" ++ n ++ "`"
  | undefinedSymbol n _ => "undefined symbol `" ++ n ++ "`"
  | unreadable p r => "failed to read " ++ p ++ ": " ++ r

/-- The code shown as `E000n` in a rendered diagnostic. -/
def code : Error → Nat
  | invalidInstruction .. => 1
  | invalidSyscall .. => 2
  | invalidArgument _ => 3
  | missingArgument _ => 3
  | invalidSymbol _ => 4
  | duplicateSymbol .. => 5
  | undefinedSymbol .. => 6
  | unreadable .. => 7

/-- Where in the text the error lies; a failed read has no place. -/
def span? : Error → Option Span
  | invalidInstruction _ s | invalidSyscall _ s | invalidArgument s | missingArgument s
  | invalidSymbol s | duplicateSymbol _ s | undefinedSymbol _ s => some s
  | unreadable .. => none

end Error

end WindowVm.Assembly
