import WindowVm.Proofs.Capacity
import WindowVm.Proofs.StepLimit

/-!
# The operand of `frm` is unobservable

The machine's `frm` ignores its operand (`execute_withoutArgsz`); only the stored machine reads
it, to make room for the arguments, and room is unobservable (`Stored.run_outcome`). Two programs
of one length run alike as long as every decode the run of one makes finds in the other the same
instruction, but for the operand of `frm`, ending at the same offset (`DecodesAlike`,
`run_congr`).

Main statement (`Stored.outcome_ignores_capacity_and_argsz`): the stored machine's outcome is
the machine's; and a program whose `frm` operands were changed runs as the program does, as long
as every decode of the run reads them as operands. A jump into the operand of a `frm` decodes it
as an opcode, and there a change of the operand shows (`jumpIntoFrm_argsz_observable`).
-/

namespace WindowVm

/-- The instruction with the operand of `frm` cleared. -/
def Instruction.withoutArgsz : Instruction Nat → Instruction Nat
  | .frm _ => .frm 0
  | i => i

namespace Machine

/-- The machine ignores the operand of `frm`. -/
theorem execute_withoutArgsz (m : Machine) (o : Nat) (i : Instruction Nat) :
    execute m o i.withoutArgsz = execute m o i := by
  cases i <;> rfl

/-- At offset `q`, `code'` decodes what `code` decodes, but for the operand of `frm`, and the
decode ends at the same offset; or both fail with the same fault. -/
def DecodesAlike (code code' : Bytecode) (q : Nat) : Prop :=
  (Instruction.decode (Cursor.ofPos code' q)).map (fun p => (p.1.withoutArgsz, p.2.pos)) =
    (Instruction.decode (Cursor.ofPos code q)).map (fun p => (p.1.withoutArgsz, p.2.pos))

instance (code code' : Bytecode) (q : Nat) : Decidable (DecodesAlike code code' q) :=
  inferInstanceAs (Decidable (_ = _))

/-- A step from an offset that decodes alike in two programs of one length is the same step. -/
theorem step_congr {code code' : Bytecode} (hsize : code'.size = code.size) {m : Machine}
    (h : DecodesAlike code code' m.ip) : step code' m = step code m := by
  unfold step DecodesAlike at *
  dsimp only
  rw [hsize]
  split_ifs
  · rfl
  · rfl
  cases hd : Instruction.decode (Cursor.ofPos code m.ip) with
  | error e =>
    cases hd' : Instruction.decode (Cursor.ofPos code' m.ip) with
    | error e' =>
      simp only [hd, hd', Except.map, Except.error.injEq] at h
      rw [h]
    | ok p' => simp [hd, hd', Except.map] at h
  | ok p =>
    cases hd' : Instruction.decode (Cursor.ofPos code' m.ip) with
    | error e' => simp [hd, hd', Except.map] at h
    | ok p' =>
      obtain ⟨i, c⟩ := p
      obtain ⟨i', c'⟩ := p'
      simp only [hd, hd', Except.map, Except.ok.injEq, Prod.mk.injEq] at h
      obtain ⟨hi, hpos⟩ := h
      simp only
      rw [← execute_withoutArgsz, hi, hpos, execute_withoutArgsz]

/-- Two programs of one length run alike from `m` as long as every machine the run of `code`
reaches from `m` decodes alike in both. -/
theorem run_congr {code code' : Bytecode} (hsize : code'.size = code.size) (limit : Option Nat)
    (fuel : Nat) {m : Machine} (calls : Array Call)
    (halike : ∀ m', Relation.ReflTransGen (Goes code) m m' → DecodesAlike code code' m'.ip) :
    run code' limit fuel m calls = run code limit fuel m calls := by
  induction fuel generalizing m calls with
  | zero => rfl
  | succ fuel ih =>
    have hstep := step_congr hsize (halike m .refl)
    simp only [run, hstep]
    cases limit.filter (· ≤ m.steps) with
    | some l => rfl
    | none =>
      cases hs : (step code m).stop with
      | some s => rfl
      | none => exact ih _ fun m' h => halike m' (.head ⟨hs, rfl⟩ h)

/-- The stored machine's outcome is the machine's, whose stack is an unbounded memory of zero
words and whose `frm` ignores its operand. A program whose bytes were changed, its `frm`
operands among them, runs as the program does on the stored machine, as long as every machine
the run reaches decodes alike in both programs. -/
theorem Stored.outcome_ignores_capacity_and_argsz :
    (∀ (code : Bytecode) (limit : Option Nat) (fuel : Nat),
      (Stored.run code limit fuel Stored.start #[]).outcome =
        (Machine.run code limit fuel {} #[]).outcome) ∧
    ∀ code code' : Bytecode, code'.size = code.size →
      (∀ m, Relation.ReflTransGen (Goes code) {} m → DecodesAlike code code' m.ip) →
      ∀ (limit : Option Nat) (fuel : Nat),
        (Stored.run code' limit fuel Stored.start #[]).outcome =
          (Stored.run code limit fuel Stored.start #[]).outcome := by
  refine ⟨Stored.run_outcome, fun code code' hsize halike limit fuel => ?_⟩
  rw [Stored.run_outcome, Stored.run_outcome, run_congr hsize limit fuel #[] halike]

/-! ### The machines a run reaches -/

/-- Every machine reached from `m₀` is where the run without a step limit stands, not stopped,
after some number of iterations. -/
theorem exists_run_of_reaches {code : Bytecode} {m₀ m : Machine}
    (h : Relation.ReflTransGen (Goes code) m₀ m) (calls : Array Call) :
    ∃ k, (run code none k m₀ calls).stop = none ∧ (run code none k m₀ calls).machine = m := by
  induction h using Relation.ReflTransGen.head_induction_on generalizing calls with
  | refl => exact ⟨0, rfl, rfl⟩
  | @head a c hgo _ ih =>
    obtain ⟨hstop, hnext⟩ := hgo
    have hone : (run code none 1 a calls).stop = none ∧ (run code none 1 a calls).machine = c := by
      simp [run, hstop, hnext]
    obtain ⟨k, hk, hm⟩ := ih (run code none 1 a calls).calls
    refine ⟨1 + k, ?_⟩
    simp only [run_add, Run.resume, hone.1, hone.2]
    exact ⟨hk, hm⟩

/-- A run that stops within `n` iterations reaches only the machines of its first `n`. -/
theorem reaches_lt_of_stop {code : Bytecode} {n : Nat} (hn : (run code none n {} #[]).stop ≠ none)
    {m : Machine} (h : Relation.ReflTransGen (Goes code) {} m) :
    ∃ k < n, (run code none k {} #[]).machine = m := by
  obtain ⟨k, hk, hm⟩ := exists_run_of_reaches h #[]
  refine ⟨k, Nat.lt_of_not_le fun hle => hn ?_, hm⟩
  rw [← hk, show k = n + (k - n) by omega, run_add, Run.resume_of_stop hn]

/-- `res 1`, then a call, prepared for `n` arguments, of a function that returns at once, then
`sys exit %0`. -/
def callPrepared (n : Byteword) : Bytecode :=
  Bytecode.ofList [.res 1, .frm n, .cas 15, .sys (.exit 0), .ret 0 0]

theorem callPrepared_argsz_unobservable :
    (callPrepared 200).size = (callPrepared 0).size ∧
      (∀ m, Relation.ReflTransGen (Goes (callPrepared 0)) {} m →
        DecodesAlike (callPrepared 0) (callPrepared 200) m.ip) ∧
      ∀ (limit : Option Nat) (fuel : Nat),
        (Stored.run (callPrepared 200) limit fuel Stored.start #[]).outcome =
          (Stored.run (callPrepared 0) limit fuel Stored.start #[]).outcome := by
  have hsize : (callPrepared 200).size = (callPrepared 0).size := rfl
  have hstop : (run (callPrepared 0) none 5 {} #[]).stop = some (.exit 0) := by decide +kernel
  have halike : ∀ m, Relation.ReflTransGen (Goes (callPrepared 0)) {} m →
      DecodesAlike (callPrepared 0) (callPrepared 200) m.ip := by
    intro m hm
    obtain ⟨k, hk, rfl⟩ := reaches_lt_of_stop (n := 5) (by simp [hstop]) hm
    interval_cases k <;> decide +kernel
  exact ⟨hsize, halike, Stored.outcome_ignores_capacity_and_argsz.2 _ _ hsize halike⟩

/-- `frm n`, then a jump back into its operand, which the jump decodes as an opcode. -/
def jumpIntoFrm (n : Byteword) : Bytecode := Bytecode.ofList [.frm n, .jmp 1]

/-- With operand 0 the jump lands on `nop`, and the program spins until the step limit; with
operand 1 it lands on `sys`, which finds no system call 12. -/
theorem jumpIntoFrm_argsz_observable :
    (Stored.run (jumpIntoFrm 0) (some 10) 11 Stored.start #[]).outcome =
        (some (.fault (.stepLimitExceeded 10)), #[], 1, 10) ∧
      (Stored.run (jumpIntoFrm 1) (some 10) 11 Stored.start #[]).outcome =
        (some (.fault (.invalidSyscall 12 2)), #[], 1, 2) := by
  constructor <;> decide +kernel

end Machine

end WindowVm
