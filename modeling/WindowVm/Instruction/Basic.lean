import WindowVm.Instruction.Opcode

/-!
# Instructions

An instruction is an opcode with exactly the operands its table entry lists. The type is
generic in what a location operand holds: a symbol while a program is being emitted, an
absolute byteword offset once it is placed. The five two-register arithmetic and comparison
instructions share one constructor.

`Instruction.pieces` is the instruction's encoded layout: the tag, then each operand as a
byteword or as a word that starts on a word boundary. Writing, reading and rendering all follow
this one layout.
-/

namespace WindowVm

/-- The unsigned two-operand instructions. -/
inductive BinaryOp where
  | equ | neu | geu | gtu | adu
deriving DecidableEq, Repr

namespace BinaryOp

def opcode : BinaryOp → Opcode
  | equ => .equ | neu => .neu | geu => .geu | gtu => .gtu | adu => .adu

/-- Comparisons give `1` or `0`; `adu` adds modulo 2^64. -/
def apply : BinaryOp → Word → Word → Word
  | equ, a, b => Word.ofBool (a.bits == b.bits)
  | neu, a, b => Word.ofBool (a.bits != b.bits)
  | geu, a, b => Word.ofBool (a.bits ≥ b.bits)
  | gtu, a, b => Word.ofBool (a.bits > b.bits)
  | adu, a, b => ⟨a.bits + b.bits⟩

end BinaryOp

/-- A system call with its register operands. -/
inductive SystemCall where
  | nop
  | exit (code : Register)
  | hi
  | bye
  | dbg (reg : Register)
deriving DecidableEq, Repr

namespace SystemCall

def syscall : SystemCall → Syscall
  | nop => .nop | exit _ => .exit | hi => .hi | bye => .bye | dbg _ => .dbg

/-- The register operands, in table order. -/
def registers : SystemCall → List Register
  | exit r => [r]
  | dbg r => [r]
  | _ => []

end SystemCall

/-- An instruction whose location operands hold values of type `L`. -/
inductive Instruction (L : Type) where
  | nop
  | sys (call : SystemCall)
  | frm (argsz : Byteword)
  | arg (src : Register)
  | cas (func : L)
  | res (count : Byteword)
  | ret (val : Register) (len : Byteword)
  | sca (dst : Register) (imm : Word)
  | loc (dst : Register) (target : L)
  | loa (dst src : Register)
  | sto (dst src : Register)
  | mov (dst src : Register)
  | jmp (target : L)
  | jnz (target : L) (test : Register)
  | binary (op : BinaryOp) (dst op1 op2 : Register)
deriving DecidableEq, Repr

/-- One unit of an instruction's encoding: a byteword, a word, or a location, which is written
as a word. -/
inductive Piece (L : Type) where
  | half (b : Byteword)
  | word (w : Word)
  | place (l : L)
deriving DecidableEq, Repr

namespace Instruction

variable {L L' : Type}

def opcode : Instruction L → Opcode
  | nop => .nop | sys _ => .sys | frm _ => .frm | arg _ => .arg | cas _ => .cas
  | res _ => .res | ret .. => .ret | sca .. => .sca | loc .. => .loc | loa .. => .loa
  | sto .. => .sto | mov .. => .mov | jmp _ => .jmp | jnz .. => .jnz
  | binary op .. => op.opcode

/-- The location operand, if the instruction has one (it never has two). -/
def location : Instruction L → Option L
  | cas l | loc _ l | jmp l | jnz l _ => some l
  | _ => none

/-- The same instruction with `f` applied to its location operand. -/
def map (f : L → L') : Instruction L → Instruction L'
  | nop => nop | sys c => sys c | frm n => frm n | arg r => arg r | cas l => cas (f l)
  | res n => res n | ret r n => ret r n | sca r w => sca r w | loc r l => loc r (f l)
  | loa a b => loa a b | sto a b => sto a b | mov a b => mov a b | jmp l => jmp (f l)
  | jnz l r => jnz (f l) r | binary op a b c => binary op a b c

/-- The encoded layout: tag, then operands in table order. -/
def pieces : Instruction L → List (Piece L)
  | nop => [.half Opcode.nop.tag]
  | sys c => .half Opcode.sys.tag :: .half c.syscall.tag :: c.registers.map .half
  | frm n => [.half Opcode.frm.tag, .half n]
  | arg r => [.half Opcode.arg.tag, .half r]
  | cas l => [.half Opcode.cas.tag, .place l]
  | res n => [.half Opcode.res.tag, .half n]
  | ret r n => [.half Opcode.ret.tag, .half r, .half n]
  | sca r w => [.half Opcode.sca.tag, .half r, .word w]
  | loc r l => [.half Opcode.loc.tag, .half r, .place l]
  | loa a b => [.half Opcode.loa.tag, .half a, .half b]
  | sto a b => [.half Opcode.sto.tag, .half a, .half b]
  | mov a b => [.half Opcode.mov.tag, .half a, .half b]
  | jmp l => [.half Opcode.jmp.tag, .place l]
  | jnz l r => [.half Opcode.jnz.tag, .place l, .half r]
  | binary op a b c => [.half op.opcode.tag, .half a, .half b, .half c]

@[simp] theorem location_map (f : L → L') (i : Instruction L) :
    (i.map f).location = i.location.map f := by
  cases i <;> rfl

@[simp] theorem opcode_map (f : L → L') (i : Instruction L) : (i.map f).opcode = i.opcode := by
  cases i <;> rfl

end Instruction

end WindowVm
