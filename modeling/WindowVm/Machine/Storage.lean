import WindowVm.Machine.Step

/-!
# The storage of the register stack

The register stack is kept in a vector of slots that starts with eight zero slots and grows on
demand. Making room for `n` slots leaves a vector of `n` slots or more as it is, and otherwise
grows it by half, or to `n` slots if that is more. Registers, pointers, frame captures and the
slots that `res` clears and `ret` copies index the vector directly, and an index past its end
aborts the host.

The machine reads the stack as an unbounded memory (`Stack.read`), so the vector's length is no
part of its state. This module records what an instruction does with the vector, in order and
up to its first failed check (`Machine.storageUses`), and the vector's length after a step
(`Machine.storageStep`).
-/

namespace WindowVm.Machine

/-- The number of slots the storage starts with. -/
def initialSlots : Nat := 8

/-- The length of the storage after making room for `need` slots. -/
def grow (len need : Nat) : Nat :=
  if need ≤ len then len else max (len + len / 2) need

theorem le_grow (len need : Nat) : len ≤ grow len need := by
  unfold grow
  split <;> omega

theorem le_grow_need (len need : Nat) : need ≤ grow len need := by
  unfold grow
  split <;> omega

/-- What an instruction does with the storage. -/
inductive Use where
  /-- Makes room for the slots below `n`. -/
  | reserve (n : Nat)
  /-- Indexes the slots from `lo` up to `hi`, `hi` excluded. -/
  | index (lo hi : Nat)
deriving DecidableEq, Repr

namespace Use

/-- Indexes the one slot `i`. -/
def slot (i : Nat) : Use := index i (i + 1)

/-- Writes slot `i` of a frame being set up: room for it first. -/
def put (i : Nat) : List Use := [reserve (i + 1), slot i]

/-- The storage length after the use, or `none` when it indexes past the end. -/
def apply : Use → Nat → Option Nat
  | reserve n, len => some (grow len n)
  | index lo hi, len => if lo ≤ hi ∧ hi ≤ len then some len else none

end Use

/-- The storage length after uses in order, or `none` once one indexes past the end. -/
def applyUses : List Use → Nat → Option Nat
  | [], len => some len
  | u :: us, len => (u.apply len).bind (applyUses us)

/-- Indexes the slot of register `r` and goes on with its value; nothing when `r` lies outside
the window, where the instruction fails before it indexes. -/
def viaRegister (s : Stack) (r : Register) (rest : Word → List Use) : List Use :=
  match s.slotOf r with
  | .ok i => Use.slot i :: rest (s.read i)
  | .error _ => []

/-- Indexes the live slot a pointer names and goes on; nothing when it is not live. -/
def viaPointer (s : Stack) (p : Word) (rest : List Use) : List Use :=
  match s.address p with
  | .ok i => Use.slot i :: rest
  | .error _ => []

/-- What `ret v n` does with the storage: after its checks it reads the capture below the
window, and when the caller's frame starts at or below the capture it copies the returned
registers down over it. A frame pointer below 2 aborts the host before any of this. -/
def returnUses (m : Machine) (v : Register) (n : Byteword) : List Use :=
  let s := m.stack
  if m.depth = 0 ∨ s.window < v.toNat + n.toNat ∨ s.fp < 2 then []
  else
    let k := s.fp - 2
    Use.slot k :: Use.slot (k + 1) ::
      if k < (s.read (k + 1)).toNat then []
      else [.index (s.fp + v.toNat) (s.fp + v.toNat + n.toNat), .index k (k + n.toNat)]

/-- What executing `i` from `m` does with the storage, in order, up to the first failed check. -/
def storageUses (m : Machine) : Instruction Nat → List Use
  | .nop | .jmp _ => []
  | .sys c =>
    match c with
    | .exit r | .dbg r => viaRegister m.stack r fun _ => []
    | .nop | .hi | .bye => []
  | .frm n =>
    .reserve (m.stack.sp + (2 + n.toNat)) :: Use.put m.stack.sp ++ Use.put (m.stack.sp + 1)
  | .arg r => viaRegister m.stack r fun _ => Use.put m.stack.ap
  | .cas _ =>
    match m.pending with
    | some k => Use.put k
    | none => []
  | .res n => [.reserve (m.stack.sp + n.toNat), .index m.stack.sp (m.stack.sp + n.toNat)]
  | .ret v n => returnUses m v n
  | .sca r _ | .loc r _ | .jnz _ r => viaRegister m.stack r fun _ => []
  | .loa d r =>
    viaRegister m.stack r fun p => viaPointer m.stack p (viaRegister m.stack d fun _ => [])
  | .sto d r =>
    viaRegister m.stack d fun p => viaRegister m.stack r fun _ => viaPointer m.stack p []
  | .mov d r => viaRegister m.stack r fun _ => viaRegister m.stack d fun _ => []
  | .binary _ d a b =>
    viaRegister m.stack a fun _ => viaRegister m.stack b fun _ => viaRegister m.stack d fun _ => []

/-- The storage length after the step from `m`, or `none` when the step indexes past the end.
A step that decodes no instruction leaves the storage alone. -/
def storageStep (code : Bytecode) (m : Machine) (len : Nat) : Option Nat :=
  match Instruction.decode (Cursor.ofPos code m.ip) with
  | .ok (i, _) => applyUses (storageUses m i) len
  | .error _ => some len

end WindowVm.Machine
