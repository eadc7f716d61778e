import WindowVm.Proofs.Faults

/-!
# The step limit

A run counts one instruction per step that decodes one, and checks the limit before each fetch.
Below the limit a limited run is the unlimited run (`Machine.run_limit_unreached`), so a run
limited to `l` instructions is the unlimited run after `l` iterations, stopped by the limit if
that run has not stopped yet (`Machine.runLimited_of_stopped`, `Machine.runLimited_of_running`).
Runs compose (`Machine.run_add`): a run for `a + b` iterations is the run for `a`, resumed for
`b` if it has not stopped, and a resumed run only appends host calls.

Main statement: the step limit is monotone (`Machine.stepLimit_monotone`).
-/

namespace WindowVm.Machine

/-- The run `r` continued for `fuel` more iterations, unless it has stopped. -/
def Run.resume (code : Bytecode) (limit : Option Nat) (fuel : Nat) (r : Run) : Run :=
  match r.stop with
  | none => run code limit fuel r.machine r.calls
  | some _ => r

theorem Run.resume_of_stop {code : Bytecode} {limit : Option Nat} {fuel : Nat} {r : Run}
    (h : r.stop ≠ none) : r.resume code limit fuel = r := by
  unfold Run.resume
  split
  · contradiction
  · rfl

/-- Running for `first + second` iterations runs `first`, then resumes for `second`. -/
theorem run_add (code : Bytecode) (limit : Option Nat) (first second : Nat) (m : Machine)
    (calls : Array Call) :
    run code limit (first + second) m calls =
      (run code limit first m calls).resume code limit second := by
  induction first generalizing m calls with
  | zero => simp [run, Run.resume]
  | succ first ih =>
    rw [Nat.add_right_comm]
    simp only [run]
    split
    · rfl
    · split
      · rfl
      · exact ih _ _

/-- No instruction touches the count of instructions: the step counts before it executes. -/
theorem execute_steps (m : Machine) (o : Nat) (i : Instruction Nat) :
    (execute m o i).machine.steps = m.steps := by
  obtain ⟨ip, s, pending, depth, steps⟩ := m
  cases i <;> simp only [execute, system, prepare, pass, enter, leave, setRegister, loadVia,
    storeVia, compute, fault, withStack] <;> (repeat' split) <;> rfl

/-- A step that goes on counts exactly one instruction. -/
theorem Goes.steps {code : Bytecode} {m m' : Machine} (h : Goes code m m') :
    m'.steps = m.steps + 1 := by
  obtain ⟨i, next, hex⟩ := h.executes
  obtain ⟨-, rfl⟩ := hex.execute_goes
  rw [execute_steps]

/-- A step counts at most one instruction: none when the fetch or the decode fails. -/
theorem step_steps_le (code : Bytecode) (m : Machine) :
    (step code m).machine.steps ≤ m.steps + 1 := by
  dsimp only [step]
  split_ifs
  · exact Nat.le_succ _
  · exact Nat.le_succ _
  · split
    · exact Nat.le_succ _
    · rw [execute_steps]

theorem run_steps_le (code : Bytecode) (limit : Option Nat) (fuel : Nat) (m : Machine)
    (calls : Array Call) : (run code limit fuel m calls).machine.steps ≤ m.steps + fuel := by
  induction fuel generalizing m calls with
  | zero => exact Nat.le_refl _
  | succ fuel ih =>
    simp only [run]
    split
    · dsimp only
      omega
    · split
      · exact Nat.le_trans (step_steps_le code m) (by omega)
      · rename_i hstop
        have hgo : Goes code m (step code m).machine := ⟨hstop, rfl⟩
        refine Nat.le_trans (ih _ _) ?_
        rw [hgo.steps]
        omega

/-- A run that has not stopped has counted one instruction per iteration. -/
theorem run_steps_of_running {code : Bytecode} {limit : Option Nat} {fuel : Nat} {m : Machine}
    {calls : Array Call} (h : (run code limit fuel m calls).stop = none) :
    (run code limit fuel m calls).machine.steps = m.steps + fuel := by
  induction fuel generalizing m calls with
  | zero => rfl
  | succ fuel ih =>
    cases hlim : limit.filter (· ≤ m.steps) with
    | some l => simp [run, hlim] at h
    | none =>
      cases hstop : (step code m).stop with
      | some s => simp [run, hlim, hstop] at h
      | none =>
        simp only [run, hlim, hstop] at h ⊢
        have hgo : Goes code m (step code m).machine := ⟨hstop, rfl⟩
        rw [ih h, hgo.steps]
        omega

/-- A run only appends host calls to those it started with. -/
theorem run_calls_prefix (code : Bytecode) (limit : Option Nat) (fuel : Nat) (m : Machine)
    (calls : Array Call) : calls.toList <+: (run code limit fuel m calls).calls.toList := by
  induction fuel generalizing m calls with
  | zero => exact List.prefix_refl _
  | succ fuel ih =>
    have hpush : ∀ c : Call, calls.toList <+: (calls.push c).toList := fun c => by simp
    cases hc : (step code m).call with
    | none =>
      simp only [run, hc]
      split
      · exact List.prefix_refl _
      · split
        · exact List.prefix_refl _
        · exact ih _ _
    | some c =>
      simp only [run, hc]
      split
      · exact List.prefix_refl _
      · split
        · exact hpush c
        · exact (hpush c).trans (ih _ _)

/-- The step limit never fires inside the step itself. -/
theorem step_stop_ne_stepLimit (code : Bytecode) (m : Machine) (l : Nat) :
    (step code m).stop ≠ some (.fault (.stepLimitExceeded l)) := by
  intro h
  rcases step_fault h with ⟨he, -⟩ | ⟨he, -⟩ <;> exact he

/-- Without a limit, no run stops by the step limit. -/
theorem run_unlimited_stop_ne_stepLimit (code : Bytecode) (fuel : Nat) (m : Machine)
    (calls : Array Call) (l : Nat) :
    (run code none fuel m calls).stop ≠ some (.fault (.stepLimitExceeded l)) := by
  induction fuel generalizing m calls with
  | zero => simp [run]
  | succ fuel ih =>
    cases hstop : (step code m).stop with
    | some s =>
      simp only [run, Option.filter_none, hstop]
      exact hstop ▸ step_stop_ne_stepLimit code m l
    | none =>
      simp only [run, Option.filter_none, hstop]
      exact ih _ _

/-- A limit that the run does not reach changes nothing. -/
theorem run_limit_unreached {code : Bytecode} {l fuel : Nat} {m : Machine} (calls : Array Call)
    (h : m.steps + fuel ≤ l) : run code (some l) fuel m calls = run code none fuel m calls := by
  induction fuel generalizing m calls with
  | zero => rfl
  | succ fuel ih =>
    have hfilter : (some l).filter (· ≤ m.steps) = none := by
      simp only [Option.filter_some, decide_eq_true_eq]
      rw [if_neg (by omega)]
    simp only [run, hfilter, Option.filter_none]
    split
    · rfl
    · rename_i hstop
      have hgo : Goes code m (step code m).machine := ⟨hstop, rfl⟩
      exact ih _ (by rw [hgo.steps]; omega)

theorem run_limit_reached {code : Bytecode} {l : Nat} (fuel : Nat) {m : Machine}
    (calls : Array Call) (h : l ≤ m.steps) :
    run code (some l) (fuel + 1) m calls =
      ⟨m, calls, some (.fault (.stepLimitExceeded l))⟩ := by
  have hfilter : (some l).filter (· ≤ m.steps) = some l := by simp [h]
  simp only [run, hfilter]

/-- A limited run that the unlimited run, with as many iterations as the limit, has finished:
the two are the same run. -/
theorem runLimited_of_stopped {code : Bytecode} {l : Nat}
    (h : (run code none l {} #[]).stop ≠ none) :
    runLimited code l = run code none l {} #[] := by
  rw [runLimited, run_add, run_limit_unreached _ (by simp), Run.resume_of_stop h]

/-- Otherwise the limit stops it, after exactly `l` instructions, where the unlimited run stands
after `l` iterations. -/
theorem runLimited_of_running {code : Bytecode} {l : Nat}
    (h : (run code none l {} #[]).stop = none) :
    runLimited code l =
      ⟨(run code none l {} #[]).machine, (run code none l {} #[]).calls,
        some (.fault (.stepLimitExceeded l))⟩ := by
  have hsteps := run_steps_of_running h
  rw [runLimited, run_add, run_limit_unreached _ (by simp), Run.resume, h]
  exact run_limit_reached 0 _ (by simp [hsteps])

theorem runLimited_machine (code : Bytecode) (l : Nat) :
    (runLimited code l).machine = (run code none l {} #[]).machine := by
  by_cases h : (run code none l {} #[]).stop = none
  · rw [runLimited_of_running h]
  · rw [runLimited_of_stopped h]

theorem runLimited_calls (code : Bytecode) (l : Nat) :
    (runLimited code l).calls = (run code none l {} #[]).calls := by
  by_cases h : (run code none l {} #[]).stop = none
  · rw [runLimited_of_running h]
  · rw [runLimited_of_stopped h]

/-- The step limit is monotone. A run limited to `l` instructions that stops for another reason
is the run under any larger limit and the unlimited run, with its result, host calls, step count
and instruction pointer. One that the limit stops has executed exactly `l` instructions, and its
host calls begin those of the run under any larger limit. No limited run executes more
instructions than its limit. -/
theorem stepLimit_monotone (code : Bytecode) {l l' : Nat} (hle : l ≤ l') :
    ((runLimited code l).stop ≠ some (.fault (.stepLimitExceeded l)) →
        runLimited code l' = runLimited code l ∧
          ∀ fuel, l ≤ fuel → run code none fuel {} #[] = runLimited code l) ∧
      ((runLimited code l).stop = some (.fault (.stepLimitExceeded l)) →
        (runLimited code l).machine.steps = l ∧
          (runLimited code l).calls.toList <+: (runLimited code l').calls.toList) ∧
      (runLimited code l).machine.steps ≤ l := by
  have hsplit : run code none l' {} #[] = (run code none l {} #[]).resume code none (l' - l) := by
    rw [← run_add, Nat.add_sub_cancel' hle]
  refine ⟨fun hne => ?_, fun hlim => ?_, ?_⟩
  · have hstop : (run code none l {} #[]).stop ≠ none := fun hrun =>
      hne (by rw [runLimited_of_running hrun])
    have hlater : ∀ fuel, l ≤ fuel → run code none fuel {} #[] = run code none l {} #[] := by
      intro fuel hfuel
      rw [← Nat.add_sub_cancel' hfuel, run_add, Run.resume_of_stop hstop]
    have hstop' : (run code none l' {} #[]).stop ≠ none := by rw [hlater l' hle]; exact hstop
    rw [runLimited_of_stopped hstop', runLimited_of_stopped hstop]
    exact ⟨hlater l' hle, hlater⟩
  · have hrun : (run code none l {} #[]).stop = none := by
      by_contra hstop
      rw [runLimited_of_stopped hstop] at hlim
      exact run_unlimited_stop_ne_stepLimit code l {} #[] l hlim
    refine ⟨by rw [runLimited_machine, run_steps_of_running hrun]; exact Nat.zero_add l, ?_⟩
    rw [runLimited_calls, runLimited_calls, hsplit, Run.resume, hrun]
    exact run_calls_prefix code none _ _ _
  · rw [runLimited_machine]
    simpa using run_steps_le code none l {} #[]

/-- A jump to itself: a run that never stops by itself. -/
def spin : Bytecode := Bytecode.ofList [.jmp 0]

theorem spin_stepLimit_monotone :
    3 ≤ 5 ∧
      ((runLimited spin 3).stop ≠ some (.fault (.stepLimitExceeded 3)) →
          runLimited spin 5 = runLimited spin 3 ∧
            ∀ fuel, 3 ≤ fuel → run spin none fuel {} #[] = runLimited spin 3) ∧
        ((runLimited spin 3).stop = some (.fault (.stepLimitExceeded 3)) →
          (runLimited spin 3).machine.steps = 3 ∧
            (runLimited spin 3).calls.toList <+: (runLimited spin 5).calls.toList) ∧
        (runLimited spin 3).machine.steps ≤ 3 :=
  ⟨by decide, stepLimit_monotone spin (by decide)⟩

end WindowVm.Machine
