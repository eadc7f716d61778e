import WindowVm.Machine.Step
import WindowVm.Proofs.RegisterStack
import WindowVm.Proofs.Encoding

/-!
# One step of the machine, instruction by instruction

A step that goes on decodes an instruction at the instruction pointer, moves past it and
executes it (`Machine.step_of_decode`); decoding never reads past the end of the stream
(`Instruction.decode_within`). For each instruction one lemma says what it leaves when the run
goes on: the instructions that write at most one register of the window keep everything outside
the window (`Machine.Executes.keepsOutside`), and `sto`, `frm`, `arg`, `cas`, `res` and `ret`
each have a lemma that gives the machine after them. The invariants of the machine are proved
from these lemmas, never from the step function itself.

Main statement: on every run from the start the frame pointer stays at or below the stack
pointer (`Machine.fp_le_sp_of_reaches`).
-/

namespace WindowVm

namespace Cursor

/-- `c'` reads the stream of `c` and stands no further than its end. -/
def Within (c c' : Cursor) : Prop := c'.code = c.code ∧ c'.pos ≤ c.code.size

theorem readHalf_within {c : Cursor} {p : Byteword × Cursor} (h : c.readHalf = .ok p) :
    c.pos < c.code.size ∧ c.Within p.2 := by
  unfold readHalf at h
  split at h
  · cases h
    exact ⟨‹_›, rfl, ‹c.pos < c.code.size›⟩
  · cases h

theorem readWord_within {c : Cursor} {p : Word × Cursor} (h : c.readWord = .ok p) :
    c.Within p.2 := by
  unfold readWord at h
  dsimp only at h
  split at h
  · cases h
    exact ⟨rfl, ‹_›⟩
  · cases h

theorem readPlace_within {c : Cursor} {p : Nat × Cursor} (h : c.readPlace = .ok p) :
    c.Within p.2 := by
  unfold readPlace at h
  cases hw : c.readWord with
  | error e => simp [hw] at h
  | ok q =>
    simp only [hw, Except.ok.injEq] at h
    exact h ▸ readWord_within hw

end Cursor

open Cursor

theorem SystemCall.decode_within {c : Cursor} {p : SystemCall × Cursor}
    (h : SystemCall.decode c = .ok p) : c.Within p.2 := by
  unfold SystemCall.decode at h
  rw [Except.bind_eq_ok_iff] at h
  obtain ⟨⟨t, c₁⟩, h₁, h⟩ := h
  have w₁ := (readHalf_within h₁).2
  cases ht : Syscall.ofTag? t with
  | none => simp [ht, throw, throwThe, MonadExceptOf.throw] at h
  | some call =>
    cases call <;> simp only [ht, Except.bind_eq_ok_iff, pure, Except.pure, Except.ok.injEq] at h <;>
      grind [Within, → readHalf_within]

theorem Instruction.decodeBinary_within {op : BinaryOp} {c : Cursor} {p : Instruction Nat × Cursor}
    (h : Instruction.decodeBinary op c = .ok p) : c.Within p.2 := by
  simp only [Instruction.decodeBinary, Except.bind_eq_ok_iff, pure, Except.pure,
    Except.ok.injEq] at h
  grind [Within, → readHalf_within]

/-- A decoded instruction starts inside the stream and ends by its end. -/
theorem Instruction.decode_within {c : Cursor} {p : Instruction Nat × Cursor}
    (h : Instruction.decode c = .ok p) : c.pos < c.code.size ∧ c.Within p.2 := by
  unfold Instruction.decode at h
  rw [Except.bind_eq_ok_iff] at h
  obtain ⟨⟨t, c₁⟩, h₁, h⟩ := h
  obtain ⟨hpos, w₁⟩ := readHalf_within h₁
  refine ⟨hpos, ?_⟩
  cases ht : Opcode.ofTag? t with
  | none => simp [ht, throw, throwThe, MonadExceptOf.throw] at h
  | some op =>
    cases op <;> simp only [ht, Except.bind_eq_ok_iff, pure, Except.pure, Except.ok.injEq] at h <;>
      grind [Within, → readHalf_within, → readWord_within, → readPlace_within,
        → SystemCall.decode_within, → Instruction.decodeBinary_within]

namespace Machine

open Stack

@[simp] theorem withStack_ip (m : Machine) (f : Stack → Stack) : (withStack m f).ip = m.ip := by
  cases m; rfl

@[simp] theorem withStack_stack (m : Machine) (f : Stack → Stack) :
    (withStack m f).stack = f m.stack := by
  cases m; rfl

@[simp] theorem withStack_pending (m : Machine) (f : Stack → Stack) :
    (withStack m f).pending = m.pending := by
  cases m; rfl

@[simp] theorem withStack_depth (m : Machine) (f : Stack → Stack) :
    (withStack m f).depth = m.depth := by
  cases m; rfl

@[simp] theorem fault_stop (m : Machine) (e : Fault) : (fault m e).stop = some (.fault e) := rfl

/-- A step from `m` that does not end the run, and the machine it leaves. -/
def Goes (code : Bytecode) (m m' : Machine) : Prop :=
  (step code m).stop = none ∧ (step code m).machine = m'

/-- At `m` the instruction `i` is decoded, ending at offset `next`, and executing it goes on to
`m'`. -/
def Executes (code : Bytecode) (m : Machine) (i : Instruction Nat) (next : Nat) (m' : Machine) :
    Prop :=
  Instruction.decode (Cursor.ofPos code m.ip) = .ok (i, Cursor.ofPos code next) ∧ Goes code m m'

/-- Once an instruction is decoded, the step moves past it, counts it and executes it. -/
theorem step_of_decode {code : Bytecode} {m : Machine} {i : Instruction Nat} {c : Cursor}
    (h : Instruction.decode (Cursor.ofPos code m.ip) = .ok (i, c)) :
    step code m = execute { m with ip := c.pos, steps := m.steps + 1 } m.ip i := by
  have hlt : m.ip < code.size := (Instruction.decode_within h).1
  simp [step, h, Nat.ne_of_lt hlt, Nat.not_lt.mpr (Nat.le_of_lt hlt)]

theorem Goes.executes {code : Bytecode} {m m' : Machine} (h : Goes code m m') :
    ∃ i next, Executes code m i next m' := by
  cases hd : Instruction.decode (Cursor.ofPos code m.ip) with
  | error e =>
    have hstop := h.1
    simp only [step, hd] at hstop
    split_ifs at hstop <;> simp at hstop
  | ok p =>
    obtain ⟨i, c⟩ := p
    have hc : c = Cursor.ofPos code c.pos := by
      have := (Instruction.decode_within hd).2.1
      cases c
      simp_all [Cursor.ofPos]
    exact ⟨i, c.pos, hc ▸ hd, h⟩

theorem Executes.decode {code : Bytecode} {m m' : Machine} {i : Instruction Nat} {next : Nat}
    (h : Executes code m i next m') :
    Instruction.decode (Cursor.ofPos code m.ip) = .ok (i, Cursor.ofPos code next) := h.1

theorem Executes.execute_goes {code : Bytecode} {m m' : Machine} {i : Instruction Nat} {next : Nat}
    (h : Executes code m i next m') :
    (execute { m with ip := next, steps := m.steps + 1 } m.ip i).stop = none ∧
      (execute { m with ip := next, steps := m.steps + 1 } m.ip i).machine = m' := by
  have hstep := step_of_decode h.1
  exact ⟨hstep ▸ h.2.1, hstep ▸ h.2.2⟩

/-- The decoded instruction ends by the end of the stream. -/
theorem Executes.next_le {code : Bytecode} {m m' : Machine} {i : Instruction Nat} {next : Nat}
    (h : Executes code m i next m') : next ≤ code.size :=
  (Instruction.decode_within h.1).2.2

/-! ## Instructions that write at most one register of the window -/

/-- The instructions that touch the stack only through one register of the window, if at all. -/
def writesWindow : Instruction Nat → Bool
  | .frm _ | .arg _ | .cas _ | .res _ | .ret _ _ | .sto _ _ => false
  | _ => true

/-- What a step that writes at most one register of the window keeps: the pointers, the pending
frame, the depth, and every slot outside the window. -/
structure KeepsOutside (m m' : Machine) : Prop where
  fp : m'.stack.fp = m.stack.fp
  sp : m'.stack.sp = m.stack.sp
  ap : m'.stack.ap = m.stack.ap
  pending : m'.pending = m.pending
  depth : m'.depth = m.depth
  read : ∀ j, (j < m.stack.fp ∨ m.stack.sp ≤ j) → m'.stack.read j = m.stack.read j

theorem KeepsOutside.of_stack {m m' : Machine} (hs : m'.stack = m.stack)
    (hp : m'.pending = m.pending) (hd : m'.depth = m.depth) : KeepsOutside m m' :=
  ⟨by rw [hs], by rw [hs], by rw [hs], hp, hd, fun _ _ => by rw [hs]⟩

theorem KeepsOutside.write {m : Machine} {j : Nat} {v : Word} (hlo : m.stack.fp ≤ j)
    (hhi : j < m.stack.sp) : KeepsOutside m (withStack m (·.write j v)) :=
  ⟨by simp, by simp, by simp, by simp, by simp, fun i hi => by
    rw [withStack_stack, read_write, if_neg (by omega)]⟩

theorem setRegister_keepsOutside {m : Machine} {r : Register} {v : Word}
    (h : (setRegister m r v).stop = none) : KeepsOutside m (setRegister m r v).machine := by
  unfold setRegister at h ⊢
  cases hs : m.stack.slotOf r with
  | error e => simp [hs] at h
  | ok j =>
    obtain ⟨rfl, hin⟩ := slotOf_eq_ok_iff.mp hs
    exact KeepsOutside.write (Nat.le_add_right _ _) hin

theorem execute_keepsOutside {m : Machine} {o : Nat} {i : Instruction Nat}
    (hi : writesWindow i = true) (h : (execute m o i).stop = none) :
    KeepsOutside m (execute m o i).machine := by
  have keep : KeepsOutside m m := KeepsOutside.of_stack rfl rfl rfl
  cases i with
  | frm _ | arg _ | cas _ | res _ | ret _ _ | sto _ _ => simp [writesWindow] at hi
  | nop | jmp _ => exact KeepsOutside.of_stack rfl rfl rfl
  | sys c =>
    cases c with
    | nop | hi | bye => exact keep
    | exit r =>
      simp only [execute, system] at h
      split at h <;> simp at h
    | dbg r =>
      simp only [execute, system] at h ⊢
      split
      · exact keep
      · simp_all
  | jnz l r =>
    simp only [execute] at h ⊢
    cases hg : m.stack.get r with
    | error e => simp [hg] at h
    | ok v =>
      by_cases hz : v.isZero = true
      · simp only [hz, if_true]
        exact keep
      · simp only [hz, Bool.false_eq_true, if_false]
        exact KeepsOutside.of_stack rfl rfl rfl
  | sca _ _ | loc _ _ => exact setRegister_keepsOutside h
  | mov d r =>
    simp only [execute] at h ⊢
    cases hg : m.stack.get r with
    | error e => simp [hg] at h
    | ok v => simp only [hg] at h ⊢; exact setRegister_keepsOutside h
  | loa d r =>
    simp only [execute, loadVia] at h ⊢
    cases hg : m.stack.get r with
    | error e => simp [hg] at h
    | ok p =>
      cases hl : m.stack.load p with
      | error e => simp [hg, hl] at h
      | ok v => simp only [hg, hl] at h ⊢; exact setRegister_keepsOutside h
  | binary op d a b =>
    simp only [execute, compute] at h ⊢
    cases ha : m.stack.get a with
    | error e => simp [ha] at h
    | ok x =>
      cases hb : m.stack.get b with
      | error e => simp [ha, hb] at h
      | ok y => simp only [ha, hb] at h ⊢; exact setRegister_keepsOutside h

theorem Executes.keepsOutside {code : Bytecode} {m m' : Machine} {i : Instruction Nat}
    {next : Nat} (h : Executes code m i next m') (hi : writesWindow i = true) :
    KeepsOutside m m' := by
  obtain ⟨hstop, rfl⟩ := h.execute_goes
  have keep := execute_keepsOutside hi hstop
  exact ⟨keep.fp, keep.sp, keep.ap, keep.pending, keep.depth, keep.read⟩

/-! ## The other instructions -/

theorem Executes.sto {code : Bytecode} {m m' : Machine} {d r : Register} {next : Nat}
    (h : Executes code m (.sto d r) next m') :
    ∃ p v, m.stack.get d = .ok p ∧ p.toNat < m.stack.sp ∧
      m'.stack = m.stack.write p.toNat v ∧ m'.pending = m.pending ∧ m'.depth = m.depth := by
  obtain ⟨hstop, rfl⟩ := h.execute_goes
  simp only [execute, storeVia, Stack.store] at hstop ⊢
  cases hd : m.stack.get d with
  | error e => simp [hd] at hstop
  | ok p =>
    cases hr : m.stack.get r with
    | error e => simp [hd, hr] at hstop
    | ok v =>
      cases ha : m.stack.address p with
      | error e => simp [hd, hr, ha] at hstop
      | ok j =>
        obtain ⟨rfl, hlt⟩ := address_eq_ok_iff.mp ha
        exact ⟨p, v, rfl, hlt, by simp [ha]⟩

theorem Executes.frm {code : Bytecode} {m m' : Machine} {n : Byteword} {next : Nat}
    (h : Executes code m (.frm n) next m') :
    m'.stack = { (m.stack.write m.stack.sp (Word.ofNat next)).write (m.stack.sp + 1)
        (Word.ofNat m.stack.fp) with ap := m.stack.sp + 2 } ∧
      m'.pending = some m.stack.sp ∧ m'.depth = m.depth := by
  obtain ⟨-, rfl⟩ := h.execute_goes
  exact ⟨rfl, rfl, rfl⟩

theorem Executes.arg {code : Bytecode} {m m' : Machine} {r : Register} {next : Nat}
    (h : Executes code m (.arg r) next m') :
    ∃ v, m.stack.get r = .ok v ∧
      m'.stack = { m.stack.write m.stack.ap v with ap := m.stack.ap + 1 } ∧
      m'.pending = m.pending ∧ m'.depth = m.depth := by
  obtain ⟨hstop, rfl⟩ := h.execute_goes
  simp only [execute, pass] at hstop ⊢
  cases hg : m.stack.get r with
  | error e => simp [hg] at hstop
  | ok v => exact ⟨v, rfl, by simp⟩

theorem Executes.cas {code : Bytecode} {m m' : Machine} {l next : Nat}
    (h : Executes code m (.cas l) next m') :
    ∃ k, m.pending = some k ∧ m'.ip = l ∧
      m'.stack = { m.stack.write k (Word.ofNat next) with
        fp := k + 2, sp := max m.stack.ap (k + 2), ap := max m.stack.ap (k + 2) } ∧
      m'.pending = none ∧ m'.depth = m.depth + 1 := by
  obtain ⟨hstop, rfl⟩ := h.execute_goes
  cases hp : m.pending with
  | none => simp [execute, enter, hp] at hstop
  | some k => exact ⟨k, rfl, by simp [execute, enter]⟩

theorem Executes.res {code : Bytecode} {m m' : Machine} {n : Byteword} {next : Nat}
    (h : Executes code m (.res n) next m') :
    m'.stack = m.stack.extend n.toNat ∧ m'.pending = m.pending ∧ m'.depth = m.depth := by
  obtain ⟨-, rfl⟩ := h.execute_goes
  simp [execute]

/-- `ret` in a call whose capture names a caller frame at or below it: it fails only when the
returned registers leave the window. -/
theorem leave_stop {m : Machine} {o : Nat} {v : Register} {n : Byteword} (hd : m.depth ≠ 0)
    (hfp : 2 ≤ m.stack.fp)
    (hcaller : (m.stack.read (m.stack.fp - 2 + 1)).toNat ≤ m.stack.fp - 2) :
    (leave m o v n).stop = none ∨
      (leave m o v n).stop =
        some (.fault (.returnOutOfWindow v.toNat (v.toNat + n.toNat) m.stack.window)) := by
  unfold leave
  simp only [hd, if_false, Nat.not_lt.mpr hfp, Nat.not_lt.mpr hcaller]
  split
  · exact .inr rfl
  · exact .inl rfl

theorem leave_goes {m : Machine} {o : Nat} {v : Register} {n : Byteword}
    (h : (leave m o v n).stop = none) :
    m.depth ≠ 0 ∧ v.toNat + n.toNat ≤ m.stack.window ∧ 2 ≤ m.stack.fp ∧
      (m.stack.read (m.stack.fp - 2 + 1)).toNat ≤ m.stack.fp - 2 ∧
      (leave m o v n).machine.ip = (m.stack.read (m.stack.fp - 2)).toNat ∧
      (leave m o v n).machine.stack =
        { m.stack.copyDown (m.stack.fp + v.toNat) n.toNat (m.stack.fp - 2) with
          fp := (m.stack.read (m.stack.fp - 2 + 1)).toNat
          sp := m.stack.fp - 2 + n.toNat, ap := m.stack.fp - 2 + n.toNat } ∧
      (leave m o v n).machine.pending = none ∧ (leave m o v n).machine.depth = m.depth - 1 := by
  unfold leave at h ⊢
  by_cases hd : m.depth = 0
  · simp [hd] at h
  by_cases hw : m.stack.window < v.toNat + n.toNat
  · simp [hd, hw] at h
  by_cases hfp : m.stack.fp < 2
  · simp [hd, hw, hfp] at h
  by_cases hcaller : m.stack.fp - 2 < (m.stack.read (m.stack.fp - 2 + 1)).toNat
  · simp [hd, hw, hfp, hcaller] at h
  simp only [hd, hw, hfp, hcaller, if_false]
  exact ⟨hd, by omega, by omega, by omega, trivial, trivial, trivial, trivial⟩

theorem Executes.ret {code : Bytecode} {m m' : Machine} {v : Register} {n : Byteword} {next : Nat}
    (h : Executes code m (.ret v n) next m') :
    m.depth ≠ 0 ∧ v.toNat + n.toNat ≤ m.stack.window ∧ 2 ≤ m.stack.fp ∧
      (m.stack.read (m.stack.fp - 2 + 1)).toNat ≤ m.stack.fp - 2 ∧
      m'.ip = (m.stack.read (m.stack.fp - 2)).toNat ∧
      m'.stack =
        { m.stack.copyDown (m.stack.fp + v.toNat) n.toNat (m.stack.fp - 2) with
          fp := (m.stack.read (m.stack.fp - 2 + 1)).toNat
          sp := m.stack.fp - 2 + n.toNat, ap := m.stack.fp - 2 + n.toNat } ∧
      m'.pending = none ∧ m'.depth = m.depth - 1 := by
  obtain ⟨hstop, rfl⟩ := h.execute_goes
  exact leave_goes hstop

/-! ## The frame pointer stays below the stack pointer -/

/-- One step keeps `fp ≤ sp`: `cas` starts a window that holds at least its capture's end, and
`ret` checks that the caller's frame starts at or below the capture it returns to. -/
theorem Goes.fp_le_sp {code : Bytecode} {m m' : Machine} (h : Goes code m m')
    (hle : m.stack.fp ≤ m.stack.sp) : m'.stack.fp ≤ m'.stack.sp := by
  obtain ⟨i, next, h⟩ := h.executes
  cases i with
  | nop | sys _ | sca _ _ | loc _ _ | loa _ _ | mov _ _ | jmp _ | jnz _ _ | binary _ _ _ _ =>
    have keep := h.keepsOutside rfl
    rw [keep.fp, keep.sp]
    exact hle
  | sto d r =>
    obtain ⟨p, v, -, -, hs, -⟩ := h.sto
    simpa [hs] using hle
  | frm n =>
    obtain ⟨hs, -⟩ := h.frm
    simpa [hs] using hle
  | arg r =>
    obtain ⟨v, -, hs, -⟩ := h.arg
    simpa [hs] using hle
  | res n =>
    obtain ⟨hs, -⟩ := h.res
    simp only [hs, extend_fp, extend_sp]
    omega
  | cas l =>
    obtain ⟨k, -, -, hs, -⟩ := h.cas
    simp [hs]
  | ret v n =>
    obtain ⟨-, -, -, hcaller, -, hs, -⟩ := h.ret
    simp only [hs]
    omega

theorem fp_le_sp_of_reaches {code : Bytecode} {m : Machine}
    (h : Relation.ReflTransGen (Goes code) {} m) : m.stack.fp ≤ m.stack.sp := by
  induction h with
  | refl => exact Nat.le_refl 0
  | tail _ hstep ih => exact hstep.fp_le_sp ih

end Machine

end WindowVm
