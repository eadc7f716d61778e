import WindowVm.CommandLine
import Std.Time.DateTime.Timestamp

/-!
# The program

Reads the arguments, the three settings of the environment, the input file and the clock,
computes the command, writes its two streams and exits with its status. A run without a step
limit is computed with more and more fuel until its program stops.
-/

namespace WindowVm.CommandLine

/-- The command, with twice the fuel each time its program has not stopped yet. -/
partial def invokeUntilDone (w : World) (fuel : Nat) : Outcome :=
  match invoke fuel w with
  | some o => o
  | none => invokeUntilDone w (2 * fuel)

/-- What reading `p` finds. A path that names nothing, or that passes through something that
is not a directory, does not exist; one that exists but fails to read is `unreadable`. -/
def readEntry (p : String) : IO (Option Entry) := do
  try pure (some (.file (← IO.FS.readBinFile p)))
  catch
    | .noFileOrDirectory .. => pure none
    | .invalidArgument .. => pure none
    | .inappropriateType _ code _ => pure (if notDirectory code then none else some .unreadable)
    | _ => pure (some .unreadable)
where
  /-- Whether an error number says a path goes through something that is not a directory;
  some calls report it negated. -/
  notDirectory (code : UInt32) : Bool := code == 20 || code == 0 - 20

/-- The settings the command reads from the environment. -/
def settingNames : List String := ["COUGH_LOG_LEVEL", "COUGH_LOG_TIMESTAMP", "COUGH_MAX_STEPS"]

end WindowVm.CommandLine

open WindowVm.CommandLine in
def main (args : List String) : IO UInt32 := do
  let app := (← IO.appPath).toString
  let name := ((app.splitOn "/").getLast?).getD app
  let settings ← settingNames.mapM fun k => do pure (k, ← IO.getEnv k)
  let entry ← match args.head? with
    | some p => pure (some (p, ← readEntry p))
    | none => pure none
  let millis := (← Std.Time.Timestamp.now).toMillisecondsSinceUnixEpoch.val.toNat
  let world : World := {
    args := name :: args
    env := fun k => (settings.lookup k).join
    paths := fun p => match entry with
      | some (q, e) => if p == q then e else none
      | none => none
    millis }
  let o := invokeUntilDone world 1000000
  IO.print o.stdout
  IO.eprint o.stderr
  pure (UInt32.ofNat o.status)
