import WindowVm.Machine.Run
import WindowVm.Proofs.Transitions

/-!
# Where a fault arises and what it leaves

A run stops with a fault at one of two points of an iteration. Before an instruction executes,
the step limit, an instruction pointer at or past the end of the stream, or the decode can stop it
(`Fault.BeforeExecution`); while the instruction executes, a register outside the window, a
pointer outside the live stack, a `cas` with no prepared frame, or a `ret` with no call, with its
registers outside the window or with a caller frame above its capture can stop it
(`Fault.DuringExecution`). Every instruction makes all its checks before its first write and
before it calls the host (`Machine.execute_faultsAsIs`).

Main statement: an iteration that faults before execution leaves the machine exactly as it was,
one that faults during execution only moves the instruction pointer past the decoded instruction
and counts it, and neither makes a host call (`Machine.run_fault_atomic`).
-/

namespace WindowVm

namespace Fault

/-- The faults of fetching and decoding the instruction at the instruction pointer. -/
def OfFetch : Fault → Prop
  | ranOffEnd _ | invalidIp _ _ | invalidOpcode _ _ | invalidSyscall _ _ | unexpectedEnd _ _ _ =>
    True
  | _ => False

/-- The faults raised before an instruction executes: by the step limit, or by the fetch. -/
def BeforeExecution : Fault → Prop
  | stepLimitExceeded _ | ranOffEnd _ | invalidIp _ _ | invalidOpcode _ _ | invalidSyscall _ _
  | unexpectedEnd _ _ _ => True
  | _ => False

theorem OfFetch.beforeExecution {e : Fault} (h : e.OfFetch) : e.BeforeExecution := by
  cases e <;> simp only [OfFetch, BeforeExecution] at h ⊢

/-- The faults an instruction raises while it executes. -/
def DuringExecution : Fault → Prop
  | registerOutOfWindow _ _ | invalidAddress _ _ | callWithoutFrame _ | returnWithoutCall _
  | returnOutOfWindow _ _ _ => True
  | _ => False

end Fault

/-! ## Decode faults -/

namespace Cursor

theorem readHalf_error {c : Cursor} {e : Fault} (h : c.readHalf = .error e) :
    e.OfFetch := by
  unfold readHalf at h
  split at h
  · cases h
  · cases h; trivial

theorem readWord_error {c : Cursor} {e : Fault} (h : c.readWord = .error e) :
    e.OfFetch := by
  unfold readWord at h
  dsimp only at h
  split at h
  · cases h
  · cases h; trivial

theorem readPlace_error {c : Cursor} {e : Fault} (h : c.readPlace = .error e) :
    e.OfFetch := by
  unfold readPlace at h
  cases hw : c.readWord with
  | error e' =>
    simp only [hw, Except.error.injEq] at h
    exact h ▸ readWord_error hw
  | ok p => simp [hw] at h

end Cursor

open Cursor

theorem SystemCall.decode_error {c : Cursor} {e : Fault} (h : SystemCall.decode c = .error e) :
    e.OfFetch := by
  unfold SystemCall.decode at h
  rw [Except.bind_eq_error_iff] at h
  rcases h with h | ⟨⟨t, c₁⟩, -, h⟩
  · exact readHalf_error h
  cases ht : Syscall.ofTag? t with
  | none =>
    simp [ht, throw, throwThe, MonadExceptOf.throw] at h
    exact h ▸ trivial
  | some call =>
    cases call <;> simp only [ht, Except.bind_eq_error_iff, pure, Except.pure, reduceCtorEq,
      and_false, exists_false, or_false] at h <;> grind [→ readHalf_error]

theorem Instruction.decodeBinary_error {op : BinaryOp} {c : Cursor} {e : Fault}
    (h : Instruction.decodeBinary op c = .error e) : e.OfFetch := by
  simp only [Instruction.decodeBinary, Except.bind_eq_error_iff, pure, Except.pure, reduceCtorEq,
    and_false, exists_false, or_false] at h
  grind [→ readHalf_error]

/-- A decode fails only with a fault of the fetch: an unknown tag or a stream that ends inside
the instruction. -/
theorem Instruction.decode_error {c : Cursor} {e : Fault} (h : Instruction.decode c = .error e) :
    e.OfFetch := by
  unfold Instruction.decode at h
  rw [Except.bind_eq_error_iff] at h
  rcases h with h | ⟨⟨t, c₁⟩, -, h⟩
  · exact readHalf_error h
  cases hop : Opcode.ofTag? t with
  | none =>
    simp [hop, throw, throwThe, MonadExceptOf.throw] at h
    exact h ▸ trivial
  | some op =>
    cases op <;> simp only [hop, Except.bind_eq_error_iff, pure, Except.pure, reduceCtorEq,
      and_false, exists_false, or_false] at h <;>
      grind [→ readHalf_error, → readWord_error, → readPlace_error,
        → SystemCall.decode_error, → Instruction.decodeBinary_error]

/-! ## Execution faults -/

namespace Machine

open Stack

theorem Stack.slotOf_error {s : Stack} {r : Register} {e : Fault} (h : s.slotOf r = .error e) :
    e.DuringExecution := by
  unfold slotOf at h
  split at h
  · cases h
  · cases h; trivial

theorem Stack.get_error {s : Stack} {r : Register} {e : Fault} (h : s.get r = .error e) :
    e.DuringExecution := by
  unfold get at h
  split at h
  · cases h
  · cases h; exact slotOf_error ‹_›

theorem Stack.address_error {s : Stack} {p : Word} {e : Fault} (h : s.address p = .error e) :
    e.DuringExecution := by
  unfold address at h
  split at h
  · cases h
  · cases h; trivial

theorem Stack.load_error {s : Stack} {p : Word} {e : Fault} (h : s.load p = .error e) :
    e.DuringExecution := by
  unfold load at h
  split at h
  · cases h
  · cases h; exact address_error ‹_›

theorem Stack.store_error {s : Stack} {p v : Word} {e : Fault} (h : s.store p v = .error e) :
    e.DuringExecution := by
  unfold store at h
  split at h
  · cases h
  · cases h; exact address_error ‹_›

/-- A transition from `m` that, if it stops with a fault, stops with one raised during execution
and is `fault m e`: the machine `m` unchanged and no host call. -/
def FaultsAsIs (m : Machine) (t : Transition) : Prop :=
  ∀ e, t.stop = some (.fault e) → e.DuringExecution ∧ t = fault m e

theorem FaultsAsIs.fault {m : Machine} {e : Fault} (he : e.DuringExecution) :
    FaultsAsIs m (fault m e) := by
  intro e' h
  cases h
  exact ⟨he, rfl⟩

theorem FaultsAsIs.of_stop {m : Machine} {t : Transition}
    (h : ∀ s, t.stop = some s → ∀ e, s ≠ .fault e) : FaultsAsIs m t :=
  fun e he => absurd rfl (h _ he e)

theorem FaultsAsIs.goes {m : Machine} {t : Transition} (h : t.stop = none) : FaultsAsIs m t :=
  .of_stop fun s hs => by rw [h] at hs; cases hs

theorem setRegister_faultsAsIs (m : Machine) (r : Register) (v : Word) :
    FaultsAsIs m (setRegister m r v) := by
  unfold setRegister
  cases hs : m.stack.slotOf r with
  | error e => exact .fault (slotOf_error hs)
  | ok i => exact .goes rfl

theorem system_faultsAsIs (m : Machine) (c : SystemCall) : FaultsAsIs m (system m c) := by
  cases c with
  | nop | hi | bye => exact .goes rfl
  | exit r =>
    simp only [system]
    cases hg : m.stack.get r with
    | error e => exact .fault (get_error hg)
    | ok v => exact .of_stop fun s hs e => by cases hs; simp
  | dbg r =>
    simp only [system]
    cases hg : m.stack.get r with
    | error e => exact .fault (get_error hg)
    | ok v => exact .goes rfl

theorem pass_faultsAsIs (m : Machine) (r : Register) : FaultsAsIs m (pass m r) := by
  unfold pass
  cases hg : m.stack.get r with
  | error e => exact .fault (get_error hg)
  | ok v => exact .goes rfl

theorem enter_faultsAsIs (m : Machine) (o f : Nat) : FaultsAsIs m (enter m o f) := by
  obtain ⟨ip, s, pending, depth, steps⟩ := m
  cases pending with
  | none => exact .fault (by trivial)
  | some k => exact .goes rfl

/-- `ret` checks the depth, the window, the frame pointer and the caller's frame before it
writes; the abort below frame pointer 2 is no fault. -/
theorem leave_faultsAsIs (m : Machine) (o : Nat) (v : Register) (n : Byteword) :
    FaultsAsIs m (leave m o v n) := by
  obtain ⟨ip, s, pending, depth, steps⟩ := m
  dsimp only [leave]
  split_ifs
  · exact .fault (by trivial)
  · exact .fault (by trivial)
  · exact .of_stop fun s hs e => by cases hs; simp
  · exact .fault (by trivial)
  · exact .goes rfl

theorem loadVia_faultsAsIs (m : Machine) (d r : Register) : FaultsAsIs m (loadVia m d r) := by
  unfold loadVia
  split
  · exact .fault (get_error ‹_›)
  split
  · exact .fault (load_error ‹_›)
  · exact setRegister_faultsAsIs m d _

theorem storeVia_faultsAsIs (m : Machine) (d r : Register) : FaultsAsIs m (storeVia m d r) := by
  unfold storeVia
  split
  · exact .fault (get_error ‹_›)
  split
  · exact .fault (get_error ‹_›)
  split
  · exact .fault (store_error ‹_›)
  · exact .goes rfl

theorem compute_faultsAsIs (m : Machine) (op : BinaryOp) (d a b : Register) :
    FaultsAsIs m (compute m op d a b) := by
  unfold compute
  split
  · exact .fault (get_error ‹_›)
  split
  · exact .fault (get_error ‹_›)
  · exact setRegister_faultsAsIs m d _

/-- Every check of an instruction comes before its first write and its host call: an
instruction that faults leaves the machine it started from and calls nothing. -/
theorem execute_faultsAsIs (m : Machine) (o : Nat) (i : Instruction Nat) :
    FaultsAsIs m (execute m o i) := by
  cases i with
  | nop | frm _ | res _ | jmp _ => exact .goes rfl
  | sys c => exact system_faultsAsIs m c
  | arg r => exact pass_faultsAsIs m r
  | cas f => exact enter_faultsAsIs m o f
  | ret v n => exact leave_faultsAsIs m o v n
  | sca r w => exact setRegister_faultsAsIs m r w
  | loc r l => exact setRegister_faultsAsIs m r _
  | loa d r => exact loadVia_faultsAsIs m d r
  | sto d r => exact storeVia_faultsAsIs m d r
  | binary op d a b => exact compute_faultsAsIs m op d a b
  | mov d r =>
    simp only [execute]
    split
    · exact .fault (get_error ‹_›)
    · exact setRegister_faultsAsIs m d _
  | jnz l r =>
    simp only [execute]
    split
    · exact .fault (get_error ‹_›)
    · exact .goes rfl

/-- A step that faults does so before its instruction executes, with the machine as it was, or
while it executes, with the instruction pointer past the decoded instruction, the step counted
and nothing else changed. -/
theorem step_fault {code : Bytecode} {m : Machine} {e : Fault}
    (h : (step code m).stop = some (.fault e)) :
    (e.OfFetch ∧ step code m = fault m e) ∨
      (e.DuringExecution ∧ ∃ i c, Instruction.decode (Cursor.ofPos code m.ip) = .ok (i, c) ∧
        step code m = fault { m with ip := c.pos, steps := m.steps + 1 } e) := by
  cases hd : Instruction.decode (Cursor.ofPos code m.ip) with
  | error e' =>
    left
    simp only [step, hd] at h ⊢
    split_ifs at h ⊢ <;> cases h
    · exact ⟨trivial, rfl⟩
    · exact ⟨trivial, rfl⟩
    · exact ⟨Instruction.decode_error hd, rfl⟩
  | ok p =>
    obtain ⟨i, c⟩ := p
    rw [step_of_decode hd] at h ⊢
    obtain ⟨he, heq⟩ := execute_faultsAsIs _ m.ip i e h
    exact .inr ⟨he, i, c, rfl, heq⟩

/-- An iteration of a run that faults is atomic. A fault of the step limit, the fetch or the
decode leaves the machine exactly as it was; a fault of the executing instruction leaves it
with the instruction pointer past the decoded instruction and one more step counted, and
nothing else changed. Neither makes a host call. -/
theorem run_fault_atomic (code : Bytecode) (limit : Option Nat) (m : Machine) (calls : Array Call)
    {e : Fault} (h : (run code limit 1 m calls).stop = some (.fault e)) :
    (run code limit 1 m calls).calls = calls ∧
      ((e.BeforeExecution ∧ (run code limit 1 m calls).machine = m) ∨
        (e.DuringExecution ∧ ∃ i c, Instruction.decode (Cursor.ofPos code m.ip) = .ok (i, c) ∧
          (run code limit 1 m calls).machine = { m with ip := c.pos, steps := m.steps + 1 })) := by
  cases hlim : limit.filter (· ≤ m.steps) with
  | some l =>
    simp only [run, hlim, Option.some.injEq, Stop.fault.injEq] at h
    subst h
    refine ⟨?_, .inl ⟨trivial, ?_⟩⟩ <;> simp only [run, hlim]
  | none =>
    have hstep : (step code m).stop = some (.fault e) := by
      simp only [run, hlim] at h
      split at h <;> simp_all
    rcases step_fault hstep with ⟨he, heq⟩ | ⟨he, i, c, hd, heq⟩
    · refine ⟨?_, .inl ⟨he.beforeExecution, ?_⟩⟩ <;> simp only [run, hlim, heq, fault]
    · refine ⟨?_, .inr ⟨he, i, c, hd, ?_⟩⟩ <;> simp only [run, hlim, heq, fault]

/-- `res 2`, then `sys dbg %2`, one register past the window. -/
def dbgPastWindow : Bytecode := Bytecode.ofList [.res 2, .sys (.dbg 2)]

/-- `dbgPastWindow` after its `res`. -/
def dbgPastWindowReserved : Machine := (run dbgPastWindow none 1 {} #[]).machine

theorem dbgPastWindow_fault_atomic :
    (run dbgPastWindow none 1 dbgPastWindowReserved #[]).stop =
        some (.fault (.registerOutOfWindow 2 2)) ∧
      (run dbgPastWindow none 1 dbgPastWindowReserved #[]).calls = #[] ∧
      ((Fault.BeforeExecution (.registerOutOfWindow 2 2) ∧
          (run dbgPastWindow none 1 dbgPastWindowReserved #[]).machine = dbgPastWindowReserved) ∨
        (Fault.DuringExecution (.registerOutOfWindow 2 2) ∧
          ∃ i c, Instruction.decode (Cursor.ofPos dbgPastWindow dbgPastWindowReserved.ip) =
              .ok (i, c) ∧
            (run dbgPastWindow none 1 dbgPastWindowReserved #[]).machine =
              { dbgPastWindowReserved with
                ip := c.pos, steps := dbgPastWindowReserved.steps + 1 })) := by
  have h : (run dbgPastWindow none 1 dbgPastWindowReserved #[]).stop =
      some (.fault (.registerOutOfWindow 2 2)) := by rfl
  exact ⟨h, run_fault_atomic dbgPastWindow none dbgPastWindowReserved #[] h⟩

end Machine

end WindowVm
