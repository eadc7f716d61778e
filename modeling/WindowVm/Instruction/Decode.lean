import WindowVm.Bytecode.Cursor

/-!
# Decoding instructions

Decoding reads a tag at the cursor, looks it up in the opcode table and reads the operands the
entry lists, in order. An unknown tag fails with `Fault.invalidOpcode` at the tag's position; an
unknown system call after `sys` fails with `Fault.invalidSyscall` at the position of the system
call's tag; a stream that ends inside the instruction fails with `Fault.unexpectedEnd`.
-/

namespace WindowVm

namespace SystemCall

/-- Reads the system call that follows a `sys` tag. -/
def decode (c : Cursor) : Except Fault (SystemCall × Cursor) := do
  let offset := c.pos
  let (t, c) ← c.readHalf
  match Syscall.ofTag? t with
  | none => throw (.invalidSyscall t offset)
  | some .nop => pure (.nop, c)
  | some .exit => let (r, c) ← c.readHalf; pure (.exit r, c)
  | some .hi => pure (.hi, c)
  | some .bye => pure (.bye, c)
  | some .dbg => let (r, c) ← c.readHalf; pure (.dbg r, c)

end SystemCall

namespace Instruction

/-- Reads the three registers of a two-operand instruction. -/
def decodeBinary (op : BinaryOp) (c : Cursor) : Except Fault (Instruction Nat × Cursor) := do
  let (a, c) ← c.readHalf
  let (b, c) ← c.readHalf
  let (d, c) ← c.readHalf
  pure (.binary op a b d, c)

/-- Reads one instruction at the cursor. -/
def decode (c : Cursor) : Except Fault (Instruction Nat × Cursor) := do
  let offset := c.pos
  let (t, c) ← c.readHalf
  match Opcode.ofTag? t with
  | none => throw (.invalidOpcode t offset)
  | some .sys => let (s, c) ← SystemCall.decode c; pure (.sys s, c)
  | some .nop => pure (.nop, c)
  | some .frm => let (n, c) ← c.readHalf; pure (.frm n, c)
  | some .arg => let (r, c) ← c.readHalf; pure (.arg r, c)
  | some .cas => let (l, c) ← c.readPlace; pure (.cas l, c)
  | some .res => let (n, c) ← c.readHalf; pure (.res n, c)
  | some .ret =>
    let (r, c) ← c.readHalf
    let (n, c) ← c.readHalf
    pure (.ret r n, c)
  | some .sca =>
    let (r, c) ← c.readHalf
    let (w, c) ← c.readWord
    pure (.sca r w, c)
  | some .loc =>
    let (r, c) ← c.readHalf
    let (l, c) ← c.readPlace
    pure (.loc r l, c)
  | some .loa => let (a, c) ← c.readHalf; let (b, c) ← c.readHalf; pure (.loa a b, c)
  | some .sto => let (a, c) ← c.readHalf; let (b, c) ← c.readHalf; pure (.sto a b, c)
  | some .mov => let (a, c) ← c.readHalf; let (b, c) ← c.readHalf; pure (.mov a b, c)
  | some .jmp => let (l, c) ← c.readPlace; pure (.jmp l, c)
  | some .jnz =>
    let (l, c) ← c.readPlace
    let (r, c) ← c.readHalf
    pure (.jnz l r, c)
  | some .equ => decodeBinary .equ c
  | some .neu => decodeBinary .neu c
  | some .geu => decodeBinary .geu c
  | some .gtu => decodeBinary .gtu c
  | some .adu => decodeBinary .adu c

end Instruction

end WindowVm
