import WindowVm.Machine.Step

/-!
# Runs

A run repeats steps from a machine until one stops it. With a step limit `l`, the run stops
with `Fault.stepLimitExceeded l` before any step once `l` instructions have executed. The run
is computed with explicit fuel, one unit per step, and an exhausted fuel is a run that has not
stopped yet (`stop = none`); from the start, `l + 1` units are enough for a limited run, since
every step that does not stop the run counts one instruction (`runLimited`).
-/

namespace WindowVm.Machine

/-- The state a run reached, the calls it made in order, and how it stopped, if it did. -/
structure Run where
  machine : Machine
  calls : Array Call
  stop : Option Stop

/-- Runs at most `fuel` steps from `m`, with an optional step limit. -/
def run (code : Bytecode) (limit : Option Nat) : Nat → Machine → Array Call → Run
  | 0, m, calls => ⟨m, calls, none⟩
  | fuel + 1, m, calls =>
    match limit.filter (· ≤ m.steps) with
    | some l => ⟨m, calls, some (.fault (.stepLimitExceeded l))⟩
    | none =>
      let t := step code m
      let calls := match t.call with
        | some c => calls.push c
        | none => calls
      match t.stop with
      | some s => ⟨t.machine, calls, some s⟩
      | none => run code limit fuel t.machine calls

/-- The run of a program from the start, limited to `l` instructions. -/
def runLimited (code : Bytecode) (l : Nat) : Run := run code (some l) (l + 1) {} #[]

end WindowVm.Machine
