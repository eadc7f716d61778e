import WindowVm.Machine.Basic
import WindowVm.Instruction.Decode

/-!
# One step of the machine

A step fetches the instruction at the instruction pointer: at the end of the stream the run has
run off it, past the end the pointer is invalid, and a decode fault stops the run; in these
cases nothing changes. Otherwise the pointer moves past the instruction, the step is counted,
and the instruction executes. An instruction that fails keeps that move and that count and
changes nothing else: every check of an instruction comes before its first write.

Calls take three instructions. `frm n` writes a frame capture at `sp`, the return offset and
the caller's `fp`, and points `ap` past it; each `arg r` copies a register to `ap`; `cas f`
stores the return offset in the capture, starts the callee's window just past the capture, with
the arguments as its registers, and jumps. `ret v n` copies registers `v .. v + n - 1` over the
capture, restores the caller's frame and returns to the stored offset, leaving the copied
values at the top of the caller's window. `res n` adds `n` zeroed registers to the window. The
operand `n` of `frm` reserves room and has no other effect: the stack grows by itself.

The writing operations take the machine apart before they change its stack, so that a machine
used only once is updated in place.
-/

namespace WindowVm.Machine

/-- The machine with its stack changed by `f`. -/
def withStack (m : Machine) (f : Stack → Stack) : Machine :=
  match m with
  | ⟨ip, s, pending, depth, steps⟩ => ⟨ip, f s, pending, depth, steps⟩

/-- A fault of the instruction being executed: the run stops with the machine as it is. -/
def fault (m : Machine) (e : Fault) : Transition := { machine := m, stop := some (.fault e) }

/-- Writes a value to the register `r` of the window. -/
def setRegister (m : Machine) (r : Register) (v : Word) : Transition :=
  match m.stack.slotOf r with
  | .error e => fault m e
  | .ok i => { machine := withStack m (·.write i v) }

/-- `frm`: a frame capture `{return offset, caller fp}` at `sp`, arguments from just past it. -/
def prepare (m : Machine) : Machine :=
  match m with
  | ⟨ip, s, _, depth, steps⟩ =>
    let sp := s.sp
    let fp := s.fp
    let s := (s.write sp (Word.ofNat ip)).write (sp + 1) (Word.ofNat fp)
    ⟨ip, { s with ap := sp + 2 }, some sp, depth, steps⟩

/-- `arg r`: copies a register into the next argument slot. -/
def pass (m : Machine) (r : Register) : Transition :=
  match m.stack.get r with
  | .error e => fault m e
  | .ok v =>
    { machine := withStack m fun s =>
        let ap := s.ap
        { s.write ap v with ap := ap + 1 } }

/-- `cas f` at `offset`: enters the prepared frame with capture slot `k`. -/
def enter (m : Machine) (offset f : Nat) : Transition :=
  match m with
  | ⟨ip, s, pending, depth, steps⟩ =>
    match pending with
    | none => fault ⟨ip, s, pending, depth, steps⟩ (.callWithoutFrame offset)
    | some k =>
      let s := s.write k (Word.ofNat ip)
      let fp := k + 2
      let sp := max s.ap fp
      { machine := ⟨f, { s with fp := fp, sp := sp, ap := sp }, none, depth + 1, steps⟩ }

/-- `ret v n` at `offset`: returns registers `v .. v + n - 1` to the caller. -/
def leave (m : Machine) (offset : Nat) (v : Register) (n : Byteword) : Transition :=
  let start := v.toNat
  let len := n.toNat
  let window := m.stack.window
  let fp := m.stack.fp
  if m.depth = 0 then fault m (.returnWithoutCall offset)
  else if window < start + len then fault m (.returnOutOfWindow start (start + len) window)
  else if fp < 2 then { machine := m, stop := some .underflow }
  else
    let k := fp - 2
    let back := (m.stack.read k).toNat
    let callerFp := (m.stack.read (k + 1)).toNat
    if k < callerFp then fault m (.invalidAddress callerFp k)
    else
      match m with
      | ⟨_, s, _, depth, steps⟩ =>
        let s := s.copyDown (fp + start) len k
        { machine := ⟨back, { s with fp := callerFp, sp := k + len, ap := k + len }, none,
            depth - 1, steps⟩ }

/-- A system call: the host receives it, and `exit` ends the run. -/
def system (m : Machine) : SystemCall → Transition
  | .nop => { machine := m, call := some .nop }
  | .hi => { machine := m, call := some .hi }
  | .bye => { machine := m, call := some .bye }
  | .exit r =>
    match m.stack.get r with
    | .ok v => { machine := m, call := some (.exit v.toInt), stop := some (.exit v.toInt) }
    | .error e => fault m e
  | .dbg r =>
    match m.stack.get r with
    | .ok v => { machine := m, call := some (.dbg r.toNat v) }
    | .error e => fault m e

/-- `loa d r`: loads the live slot that register `r` points to into register `d`. -/
def loadVia (m : Machine) (d r : Register) : Transition :=
  match m.stack.get r with
  | .error e => fault m e
  | .ok p =>
    match m.stack.load p with
    | .error e => fault m e
    | .ok v => setRegister m d v

/-- `sto d r`: stores register `r` into the live slot that register `d` points to. -/
def storeVia (m : Machine) (d r : Register) : Transition :=
  match m.stack.get d with
  | .error e => fault m e
  | .ok p =>
    match m.stack.get r with
    | .error e => fault m e
    | .ok v =>
      match m.stack.store p v with
      | .error e => fault m e
      | .ok s => { machine := { m with stack := s } }

/-- A two-operand instruction: `d := op a b`. -/
def compute (m : Machine) (op : BinaryOp) (d a b : Register) : Transition :=
  match m.stack.get a with
  | .error e => fault m e
  | .ok x =>
    match m.stack.get b with
    | .error e => fault m e
    | .ok y => setRegister m d (op.apply x y)

/-- Executes an instruction that began at `offset`, on a machine already moved past it. -/
def execute (m : Machine) (offset : Nat) : Instruction Nat → Transition
  | .nop => { machine := m }
  | .sys c => system m c
  | .frm _ => { machine := prepare m }
  | .arg r => pass m r
  | .cas f => enter m offset f
  | .res n => { machine := withStack m (·.extend n.toNat) }
  | .ret v n => leave m offset v n
  | .sca r w => setRegister m r w
  | .loc r l => setRegister m r (Word.ofNat l)
  | .loa d r => loadVia m d r
  | .sto d r => storeVia m d r
  | .mov d r =>
    match m.stack.get r with
    | .error e => fault m e
    | .ok v => setRegister m d v
  | .jmp l => { machine := { m with ip := l } }
  | .jnz l r =>
    match m.stack.get r with
    | .error e => fault m e
    | .ok v => { machine := if v.isZero then m else { m with ip := l } }
  | .binary op d a b => compute m op d a b

/-- Fetches, decodes and executes the instruction at the instruction pointer. -/
def step (code : Bytecode) (m : Machine) : Transition :=
  let offset := m.ip
  if offset = code.size then fault m (.ranOffEnd offset)
  else if code.size < offset then fault m (.invalidIp offset code.size)
  else
    match Instruction.decode (Cursor.ofPos code offset) with
    | .error e => fault m e
    | .ok (i, c) => execute { m with ip := c.pos, steps := m.steps + 1 } offset i

end WindowVm.Machine
