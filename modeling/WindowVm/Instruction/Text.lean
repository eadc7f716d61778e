import WindowVm.Instruction.Basic

/-!
# Instruction text

The assembly text of a placed instruction: the mnemonic, then each operand after one space.
A 16-bit immediate is a decimal number, a register is `%` and its index, a wide immediate is its
signed decimal reading, and a location is the label `:s` followed by the offset. A system call
reads `sys`, its mnemonic and its registers. This is the text the disassembler prints and the
assembler reads back.
-/

namespace WindowVm

/-- The name of the synthesised label that marks byteword offset `n`. -/
def placeLabel (n : Nat) : String := "s" ++ toString n

namespace SystemCall

/-- The text after `sys`, for example `exit %0`. -/
def text (c : SystemCall) : String :=
  c.registers.foldl (fun s r => s ++ " %" ++ toString r.toNat) c.syscall.mnemonic

end SystemCall

namespace Instruction

/-- A register operand, with the space before it. -/
def reg (r : Register) : String := " %" ++ toString r.toNat

/-- A 16-bit immediate operand, with the space before it. -/
def imm (n : Byteword) : String := " " ++ toString n.toNat

/-- A location operand, with the space before it. -/
def place (l : Nat) : String := " :" ++ placeLabel l

/-- The assembly text of an instruction, for example `jnz :s88 %2` or `sca %0 -1`. -/
def text (i : Instruction Nat) : String :=
  match i with
  | nop => "nop"
  | sys c => "sys " ++ c.text
  | frm n => "frm" ++ imm n
  | arg r => "arg" ++ reg r
  | cas l => "cas" ++ place l
  | res n => "res" ++ imm n
  | ret r n => "ret" ++ reg r ++ imm n
  | sca r w => "sca" ++ reg r ++ " " ++ toString w.toInt
  | loc r l => "loc" ++ reg r ++ place l
  | loa a b => "loa" ++ reg a ++ reg b
  | sto a b => "sto" ++ reg a ++ reg b
  | mov a b => "mov" ++ reg a ++ reg b
  | jmp l => "jmp" ++ place l
  | jnz l r => "jnz" ++ place l ++ reg r
  | binary op a b c => op.opcode.mnemonic ++ reg a ++ reg b ++ reg c

end Instruction

end WindowVm
