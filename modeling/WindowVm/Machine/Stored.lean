import WindowVm.Machine.Run
import WindowVm.Machine.Storage

/-!
# The machine on its stored stack

The machine reads its register stack as an unbounded memory of zero words. The host keeps the
stack in a vector of slots instead: eight zero slots at the start, grown when room is asked for
past its end, by half its length or to the length asked for if that is more, the new slots zero.
`frm` makes room for the capture and for as many arguments as its operand says; `frm`, `arg` and
`cas` make room for each frame slot they write; `res` makes room for the registers it adds and
clears them; `ret` copies the returned registers down with one move of the vector. Every other
access indexes the vector as it is, and an index past its end aborts the host.

This module is the machine with its stack kept that way: the same stack record, whose `cells`
are now the whole vector, each instruction doing with the vector what the host does, in the
host's order (`Stored.execute`). A step that aborts the host, by an index past the end of the
vector or by a `ret` whose capture would lie below slot 0, stops the run with `Stop.underflow`
(`Stored.step`).
-/

namespace WindowVm.Machine

namespace Stack

/-- Makes room for the slots below `len`: a shorter vector grows by half its length, or to `len`
slots if that is more, and the new slots are zero. -/
def ensure (s : Stack) (len : Nat) : Stack :=
  if len ≤ s.cells.size then s
  else
    { s with cells := s.cells ++
        Array.replicate (max (s.cells.size + s.cells.size / 2) len - s.cells.size) Word.zero }

/-- Makes room for `n` slots from `sp` on. -/
def reserve (s : Stack) (n : Nat) : Stack := s.ensure (s.sp + n)

/-- Slot `i` of the vector; `none` past its end, where the host aborts. -/
def slot? (s : Stack) (i : Nat) : Option Word := s.cells[i]?

/-- Writes slot `i` of the vector; `none` past its end. -/
def setSlot? (s : Stack) (i : Nat) (v : Word) : Option Stack :=
  if i < s.cells.size then some (s.write i v) else none

/-- Writes a frame slot, making room for it first. -/
def put (s : Stack) (i : Nat) (v : Word) : Option Stack := (s.ensure (i + 1)).setSlot? i v

/-- Reads a register of the window from the vector. -/
def get? (s : Stack) (r : Register) : Option (Except Fault Word) :=
  match s.slotOf r with
  | .ok i => (s.slot? i).map .ok
  | .error e => some (.error e)

/-- Reads from the vector the live slot a pointer names. -/
def load? (s : Stack) (p : Word) : Option (Except Fault Word) :=
  match s.address p with
  | .ok i => (s.slot? i).map .ok
  | .error e => some (.error e)

/-- Writes to the vector the live slot a pointer names. -/
def store? (s : Stack) (p : Word) (v : Word) : Option (Except Fault Stack) :=
  match s.address p with
  | .ok i => (s.setSlot? i v).map .ok
  | .error e => some (.error e)

/-- Adds `n` registers to the window: room for them, then each of them cleared. -/
def extendWindow (s : Stack) (n : Nat) : Option Stack :=
  let s := s.reserve n
  if s.sp + n ≤ s.cells.size then
    some { (List.range n).foldl (fun t k => t.write (s.sp + k) Word.zero) s with sp := s.sp + n }
  else none

/-- Copies the `len` slots from `src` on to the slots from `dst` on in one move: each slot
written takes what its source held before the copy. A range past the end of the vector aborts. -/
def copyWithin (s : Stack) (src len dst : Nat) : Option Stack :=
  if src + len ≤ s.cells.size ∧ dst + len ≤ s.cells.size then
    some { s with cells := Array.ofFn fun i : Fin s.cells.size =>
      if dst ≤ i.val ∧ i.val < dst + len then s.read (src + (i.val - dst)) else s.read i.val }
  else none

end Stack

/-- What a run shows: how it stopped, the calls it made, and the instruction pointer and the
number of steps where it ended. -/
def Run.outcome (r : Run) : Option Stop × Array Call × Nat × Nat :=
  (r.stop, r.calls, r.machine.ip, r.machine.steps)

namespace Stored

/-- The stack at the start of a run: eight zero slots, every pointer at slot 0. -/
def startStack : Stack := { cells := Array.replicate initialSlots Word.zero }

/-- The machine at the start of a run. -/
def start : Machine := { stack := startStack }

/-- Writes a register of the window. -/
def setRegister (m : Machine) (r : Register) (v : Word) : Option Transition :=
  match m.stack.slotOf r with
  | .error e => some (fault m e)
  | .ok i => (m.stack.setSlot? i v).map fun s => { machine := { m with stack := s } }

/-- `frm n`: room for the capture and `n` arguments, then the capture `{return offset, caller
fp}` at `sp`, arguments from just past it. -/
def prepare (m : Machine) (n : Byteword) : Option Machine := do
  let s := m.stack.reserve (2 + n.toNat)
  let capture := s.sp
  let s ← s.put capture (Word.ofNat m.ip)
  let s ← s.put (capture + 1) (Word.ofNat m.stack.fp)
  pure { m with stack := { s with ap := capture + 2 }, pending := some capture }

/-- `arg r`: copies a register into the next argument slot, making room for it. -/
def pass (m : Machine) (r : Register) : Option Transition := do
  match ← m.stack.get? r with
  | .error e => pure (fault m e)
  | .ok v =>
    let ap := m.stack.ap
    let s ← m.stack.put ap v
    pure { machine := { m with stack := { s with ap := ap + 1 } } }

/-- `cas f` at `offset`: enters the prepared frame. -/
def enter (m : Machine) (offset f : Nat) : Option Transition := do
  match m.pending with
  | none => pure (fault m (.callWithoutFrame offset))
  | some k =>
    let s ← m.stack.put k (Word.ofNat m.ip)
    let fp := k + 2
    let sp := max s.ap fp
    let s := { s with fp := fp, sp := sp, ap := sp }
    pure { machine := { m with ip := f, stack := s, pending := none, depth := m.depth + 1 } }

/-- `ret v n` at `offset`: the same checks as the machine's, then the capture read from the
vector and the returned registers moved down over it. A capture that would lie below slot 0
makes the host abort, and there is no transition. -/
def leave (m : Machine) (offset : Nat) (v : Register) (n : Byteword) : Option Transition :=
  let s := m.stack
  let start := v.toNat
  let len := n.toNat
  if m.depth = 0 then some (fault m (.returnWithoutCall offset))
  else if s.window < start + len then
    some (fault m (.returnOutOfWindow start (start + len) s.window))
  else if s.fp < 2 then none
  else do
    let k := s.fp - 2
    let back ← s.slot? k
    let callerFp ← s.slot? (k + 1)
    if k < callerFp.toNat then pure (fault m (.invalidAddress callerFp.toNat k))
    else do
      let s ← s.copyWithin (s.fp + start) len k
      let s := { s with fp := callerFp.toNat, sp := k + len, ap := k + len }
      let m := { m with ip := back.toNat, stack := s, pending := none, depth := m.depth - 1 }
      pure { machine := m }

/-- A system call: the host receives it, and `exit` ends the run. -/
def system (m : Machine) : SystemCall → Option Transition
  | .nop => some { machine := m, call := some .nop }
  | .hi => some { machine := m, call := some .hi }
  | .bye => some { machine := m, call := some .bye }
  | .exit r => (m.stack.get? r).map fun
    | .ok v => { machine := m, call := some (.exit v.toInt), stop := some (.exit v.toInt) }
    | .error e => fault m e
  | .dbg r => (m.stack.get? r).map fun
    | .ok v => { machine := m, call := some (.dbg r.toNat v) }
    | .error e => fault m e

/-- `loa d r`: loads the live slot that register `r` points to into register `d`. -/
def loadVia (m : Machine) (d r : Register) : Option Transition := do
  match ← m.stack.get? r with
  | .error e => pure (fault m e)
  | .ok p =>
    match ← m.stack.load? p with
    | .error e => pure (fault m e)
    | .ok v => setRegister m d v

/-- `sto d r`: stores register `r` into the live slot that register `d` points to. -/
def storeVia (m : Machine) (d r : Register) : Option Transition := do
  match ← m.stack.get? d with
  | .error e => pure (fault m e)
  | .ok p =>
    match ← m.stack.get? r with
    | .error e => pure (fault m e)
    | .ok v =>
      match ← m.stack.store? p v with
      | .error e => pure (fault m e)
      | .ok s => pure { machine := { m with stack := s } }

/-- A two-operand instruction: `d := op a b`. -/
def compute (m : Machine) (op : BinaryOp) (d a b : Register) : Option Transition := do
  match ← m.stack.get? a with
  | .error e => pure (fault m e)
  | .ok x =>
    match ← m.stack.get? b with
    | .error e => pure (fault m e)
    | .ok y => setRegister m d (op.apply x y)

/-- Executes an instruction that began at `offset`, on a machine already moved past it; `none`
when the host aborts. -/
def execute (m : Machine) (offset : Nat) : Instruction Nat → Option Transition
  | .nop => some { machine := m }
  | .sys c => system m c
  | .frm n => (prepare m n).map fun m => { machine := m }
  | .arg r => pass m r
  | .cas f => enter m offset f
  | .res n => (m.stack.extendWindow n.toNat).map fun s => { machine := { m with stack := s } }
  | .ret v n => leave m offset v n
  | .sca r w => setRegister m r w
  | .loc r l => setRegister m r (Word.ofNat l)
  | .loa d r => loadVia m d r
  | .sto d r => storeVia m d r
  | .mov d r => do
    match ← m.stack.get? r with
    | .error e => pure (fault m e)
    | .ok v => setRegister m d v
  | .jmp l => some { machine := { m with ip := l } }
  | .jnz l r => (m.stack.get? r).map fun
    | .error e => fault m e
    | .ok v => { machine := if v.isZero then m else { m with ip := l } }
  | .binary op d a b => compute m op d a b

/-- Fetches, decodes and executes the instruction at the instruction pointer. When the host
aborts, the run stops with `Stop.underflow` at the machine moved past the instruction. -/
def step (code : Bytecode) (m : Machine) : Transition :=
  let offset := m.ip
  if offset = code.size then fault m (.ranOffEnd offset)
  else if code.size < offset then fault m (.invalidIp offset code.size)
  else
    match Instruction.decode (Cursor.ofPos code offset) with
    | .error e => fault m e
    | .ok (i, c) =>
      let m := { m with ip := c.pos, steps := m.steps + 1 }
      (execute m offset i).getD { machine := m, stop := some .underflow }

/-- Runs at most `fuel` steps from `m`, with an optional step limit. -/
def run (code : Bytecode) (limit : Option Nat) : Nat → Machine → Array Call → Run
  | 0, m, calls => ⟨m, calls, none⟩
  | fuel + 1, m, calls =>
    match limit.filter (· ≤ m.steps) with
    | some l => ⟨m, calls, some (.fault (.stepLimitExceeded l))⟩
    | none =>
      let t := step code m
      let calls := match t.call with
        | some c => calls.push c
        | none => calls
      match t.stop with
      | some s => ⟨t.machine, calls, some s⟩
      | none => run code limit fuel t.machine calls

end Stored

end WindowVm.Machine
