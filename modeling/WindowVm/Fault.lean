import WindowVm.Word

/-!
# Faults

A fault stops a decode of the byteword stream or a run of the machine. Each constructor is one
cause, with the positions and sizes that the message reports; `Fault.message` holds the
wording of all of them.
-/

namespace WindowVm

/-- Why a decode or a run stopped with an error. -/
inductive Fault where
  /-- A tag that names no opcode, at the offset of the tag. -/
  | invalidOpcode (opcode : Byteword) (offset : Nat)
  /-- A tag after `sys` that names no system call, at the offset of that tag. -/
  | invalidSyscall (syscall : Byteword) (offset : Nat)
  /-- The stream ended inside an instruction: `requested` bytewords were needed from the read
  start on, `available` were left there; `ip` is where the cursor stood. -/
  | unexpectedEnd (ip requested available : Nat)
  /-- The instruction pointer reached the end of the stream without `sys exit`. -/
  | ranOffEnd (ip : Nat)
  /-- The instruction pointer lies past the end of the stream. -/
  | invalidIp (ip len : Nat)
  /-- A location operand points into the middle of an instruction. -/
  | invalidJumpTarget (target : Nat)
  /-- A register index outside the current window. -/
  | registerOutOfWindow (index window : Nat)
  /-- A pointer outside the live part of the register stack. -/
  | invalidAddress (address size : Nat)
  /-- `cas` with no frame prepared by `frm`. -/
  | callWithoutFrame (ip : Nat)
  /-- `ret` in the outermost frame. -/
  | returnWithoutCall (ip : Nat)
  /-- `ret` asked for registers `start .. stop - 1`, past the window. -/
  | returnOutOfWindow (start stop window : Nat)
  /-- The run used up its instruction budget. -/
  | stepLimitExceeded (limit : Nat)
deriving DecidableEq, Repr

namespace Fault

/-- The text that reports a fault. -/
def message : Fault → String
  | invalidOpcode op pos => s!"invalid opcode {Text.hexPadded 6 op.toNat} at {pos}"
  | invalidSyscall call pos => s!"invalid syscall {Text.hexPadded 6 call.toNat} at {pos}"
  | unexpectedEnd ip need left =>
    s!"unexpected end of bytecode at {ip}: need {need} bytewords, {left} available"
  | ranOffEnd ip => s!"ran off the end of the instruction stream at {ip}"
  | invalidIp ip len => s!"invalid instruction pointer {ip} (stream length {len})"
  | invalidJumpTarget t => s!"jump target {t} is not an instruction boundary"
  | registerOutOfWindow r w =>
    s!"register %{r} is outside the current window of {w} registers"
  | invalidAddress a n => s!"invalid address {a} (live stack size {n})"
  | callWithoutFrame ip => s!"call at {ip} without a prepared frame"
  | returnWithoutCall ip => s!"return at {ip} without a matching call"
  | returnOutOfWindow s e w =>
    s!"return value %{s}..%{e} exceeds the window of {w} registers"
  | stepLimitExceeded l => s!"step limit of {l} instructions exceeded"

end Fault

end WindowVm
