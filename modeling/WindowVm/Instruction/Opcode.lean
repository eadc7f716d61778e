import WindowVm.Word

/-!
# Opcodes and system calls

The instruction set has nineteen opcodes, each with a byteword tag and a mnemonic of at most
eight lowercase letters, and `sys` is followed by one of five system calls with tags and
mnemonics of their own. Both tables are closed types here; looking a tag or a mnemonic up is a
search of the table's list, so the lookups and the tables cannot disagree.

Main statements: every tag and every mnemonic looks up to its own entry (`ofTag?_tag`,
`ofMnemonic?_mnemonic`, and the same for system calls).
-/

namespace WindowVm

/-- The operations of the machine, named by their mnemonics. -/
inductive Opcode where
  | sys | nop | frm | arg | cas | res | ret | sca | loc | loa | sto | mov | jmp | jnz
  | equ | neu | geu | gtu | adu
deriving DecidableEq, Repr

namespace Opcode

/-- The byteword that opens an instruction with this opcode. -/
def tag : Opcode → Byteword
  | nop => 0 | sys => 1 | frm => 2 | arg => 3 | cas => 4 | res => 5 | ret => 6 | sca => 7
  | loc => 8 | loa => 9 | sto => 10 | mov => 11 | jmp => 12 | jnz => 13 | equ => 14
  | neu => 15 | geu => 16 | gtu => 17 | adu => 18

/-- The assembly word for the opcode. -/
def mnemonic : Opcode → String
  | nop => "nop" | sys => "sys" | frm => "frm" | arg => "arg" | cas => "cas" | res => "res"
  | ret => "ret" | sca => "sca" | loc => "loc" | loa => "loa" | sto => "sto" | mov => "mov"
  | jmp => "jmp" | jnz => "jnz" | equ => "equ" | neu => "neu" | geu => "geu" | gtu => "gtu"
  | adu => "adu"

/-- Every opcode, `sys` first. -/
def all : List Opcode :=
  [sys, nop, frm, arg, cas, res, ret, sca, loc, loa, sto, mov, jmp, jnz, equ, neu, geu, gtu, adu]

/-- The opcode with the given tag, if any. -/
def ofTag? (t : Byteword) : Option Opcode := all.find? (·.tag == t)

/-- The opcode with the given mnemonic, if any; letters must match exactly, case included. -/
def ofMnemonic? (m : String) : Option Opcode := all.find? (·.mnemonic == m)

theorem mem_all (o : Opcode) : o ∈ all := by cases o <;> decide

theorem ofTag?_tag (o : Opcode) : ofTag? o.tag = some o := by cases o <;> decide

theorem ofMnemonic?_mnemonic (o : Opcode) : ofMnemonic? o.mnemonic = some o := by
  cases o <;> decide

end Opcode

/-- The services the host offers through `sys`. -/
inductive Syscall where
  | nop | exit | hi | bye | dbg
deriving DecidableEq, Repr

namespace Syscall

/-- The byteword that follows the `sys` tag. -/
def tag : Syscall → Byteword
  | nop => 0 | exit => 1 | hi => 2 | bye => 3 | dbg => 4

/-- The assembly word written after `sys`. -/
def mnemonic : Syscall → String
  | nop => "nop" | exit => "exit" | hi => "hi" | bye => "bye" | dbg => "dbg"

def all : List Syscall := [nop, exit, hi, bye, dbg]

/-- The system call with the given tag, if any. -/
def ofTag? (t : Byteword) : Option Syscall := all.find? (·.tag == t)

/-- The system call with the given mnemonic, if any; case-sensitive. -/
def ofMnemonic? (m : String) : Option Syscall := all.find? (·.mnemonic == m)

theorem ofTag?_tag (s : Syscall) : ofTag? s.tag = some s := by cases s <;> decide

theorem ofMnemonic?_mnemonic (s : Syscall) : ofMnemonic? s.mnemonic = some s := by
  cases s <;> decide

end Syscall

end WindowVm
