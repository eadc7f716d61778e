import WindowVm.Machine.Stack
import WindowVm.Text.Hex

/-!
# Machine state, host calls and stops

The machine holds the instruction pointer, the register stack, the capture slot of a frame that
`frm` prepared and no `cas` has used yet, the number of active calls and the number of
instructions executed. A run talks to its host only through system calls, recorded as `Call`s,
and ends with a `Stop`: an exit code, a fault, or the underflow that aborts the host when a
return finds no room for a frame capture below the frame pointer.

The console of the host writes one line per call, `sys nop` excepted.
-/

namespace WindowVm

/-- The interpreter state. -/
structure Machine where
  ip : Nat := 0
  stack : Machine.Stack := {}
  /-- The capture slot written by the last `frm`, until a `cas` or `ret` consumes it. -/
  pending : Option Nat := none
  /-- The number of calls not yet returned from. -/
  depth : Nat := 0
  /-- The number of instructions executed. -/
  steps : Nat := 0
deriving Repr

/-- A system call as the host receives it. -/
inductive Call where
  | nop
  | exit (code : Int)
  | hi
  | bye
  /-- The register index as written in the instruction, and the register's value. -/
  | dbg (index : Nat) (value : Word)
deriving DecidableEq, Repr

namespace Call

/-- The line the console writes for a call; `sys nop` writes nothing. -/
def consoleLine : Call → String
  | nop => ""
  | exit c =>
    s!"[sys exit] program finished with exit code {c} ({Text.hex (Word.ofInt c).toNat})\n"
  | hi => "[sys hi]   Cough says hi!\n"
  | bye => "[sys bye]  Cough says bye!\n"
  | dbg i v => s!"[sys dbg]  {i}: {v.toNat} ({Text.hex v.toNat})\n"

/-- What the console shows for a sequence of calls. -/
def console (calls : Array Call) : String := calls.foldl (fun s c => s ++ c.consoleLine) ""

end Call

/-- How a run ended. -/
inductive Stop where
  /-- `sys exit` with the signed value of its register. -/
  | exit (code : Int)
  | fault (e : Fault)
  /-- `ret` at call depth above zero with a frame pointer below 2: the capture slot would lie
  below slot 0, and the host aborts. -/
  | underflow
deriving DecidableEq, Repr

/-- One step: the machine after it, the call it made, and whether the run ends there. -/
structure Transition where
  machine : Machine
  call : Option Call := none
  stop : Option Stop := none

end WindowVm
