import WindowVm.Assembly.Basic
import WindowVm.Assembly.Diagnostic
import WindowVm.Disassembly
import WindowVm.Machine.Run
import WindowVm.Log

/-!
# The command line

`NAME FILE [OPTIONS]` assembles `FILE` and runs it, or prints its disassembly with `-d`. The
process status is the exit code of the program modulo 256, or 1 when the arguments, the
assembly or the run fail. The command is a function of what it sees: the arguments, the
environment, the paths that exist and what they name, and the time; it answers with the status
and the text written to standard output and standard error.

Arguments are checked first, in order, then the step limit from the environment, then that the
path exists; then the file is read, assembled, and disassembled or run. A path that exists but
does not read as a file, such as a directory, and a file that is not UTF-8 text end the command
with status 1 and no output. Log lines, the rendered diagnostic of
a failed assembly among them, and the console lines of system calls all go to standard error,
in the order they happen.

A run without a step limit may not stop; the command is computed with fuel for such a run, and
`none` means the fuel ran out before the program stopped.
-/

namespace WindowVm.CommandLine

/-- What a path that exists names, as far as reading it goes. -/
inductive Entry where
  /-- A file that reads, with its bytes. -/
  | file (bytes : ByteArray)
  /-- Something that exists but does not read as a file: a directory, or a file the command
  may not read. -/
  | unreadable

/-- What the command sees: its arguments (the program name first), the environment, what
each path that exists names, and the time in milliseconds since 1970-01-01 UTC. -/
structure World where
  args : List String
  env : String → Option String
  paths : String → Option Entry
  millis : Nat

/-- The process status and the two output streams. -/
structure Outcome where
  status : Nat
  stdout : String := ""
  stderr : String := ""
deriving DecidableEq, Repr, Inhabited

/-- The usage text, for the program name `name`. -/
def usage (name : String) : String :=
  "Usage: " ++ name ++ " <input.asm> [OPTIONS]\n\nOptions:\n" ++
    "  -d, --disassemble      Print the disassembly instead of running\n" ++
    "  -s, --max-steps <n>    Stop after n instructions (env: COUGH_MAX_STEPS)\n" ++
    "  -h, --help             Show this help\n"

/-- Reads a step limit: white space around it is ignored, then an optional `+` and decimal
digits whose value is below 2^64. -/
def parseSteps? (s : String) : Option Nat :=
  let cs := (Text.trimWhiteSpace s).toList
  let ds := match cs with
    | '+' :: r => r
    | r => r
  if ds.isEmpty || !ds.all Char.isDigit then none
  else
    let v := ds.foldl (fun n d => 10 * n + (d.toNat - '0'.toNat)) 0
    if v < 18446744073709551616 then some v else none

/-- What has been written so far, and how lines are logged. -/
structure Session where
  config : Log.Config
  millis : Nat
  stdout : String := ""
  stderr : String := ""

namespace Session

def log (s : Session) (l : Log.Level) (msg : String) : Session :=
  { s with stderr := s.stderr ++ s.config.line s.millis l msg }

def err (s : Session) (text : String) : Session := { s with stderr := s.stderr ++ text }

def out (s : Session) (text : String) : Session := { s with stdout := s.stdout ++ text }

def close (s : Session) (status : Nat) : Outcome := ⟨status, s.stdout, s.stderr⟩

end Session

/-- The options after the file name. -/
structure Options where
  disassemble : Bool := false
  steps : Option Nat := none

/-- Reads the options; a stop (usage, or a bad option) ends the command at once. -/
def readOptions (name : String) (s : Session) :
    List String → Options → Except Outcome Options
  | [], o => .ok o
  | a :: rest, o =>
    if a == "--disassemble" || a == "-d" then readOptions name s rest { o with disassemble := true }
    else if a == "--max-steps" || a == "-s" then
      match rest with
      | [] => .error ((s.log .error (a ++ " requires an argument")).close 1)
      | v :: rest =>
        match parseSteps? v with
        | some n => readOptions name s rest { o with steps := some n }
        | none =>
          let msg := "Invalid step limit: '" ++ v ++ "' is not a valid number"
          .error ((s.log .error msg).close 1)
    else if a == "--help" || a == "-h" then .error ((s.err (usage name)).close 0)
    else .error (((s.log .error ("Unexpected argument: " ++ a ++ "\n")).err (usage name)).close 1)

/-- The status of a process that exits with code `c`: its low eight bits. -/
def exitStatus (c : Int) : Nat := (c % 256).toNat

/-- Runs the assembled program and reports how it ended. -/
def execute (fuel : Nat) (path : String) (code : Bytecode) (limit : Option Nat) (s : Session) :
    Option Outcome :=
  let s := s.log .debug ("vm: running " ++ toString code.size ++ " bytewords")
  let r := match limit with
    | some l => Machine.runLimited code l
    | none => Machine.run code none fuel {} #[]
  let s := s.err (Call.console r.calls)
  match r.stop with
  | none => none
  | some (.exit c) =>
    let steps := toString r.machine.steps
    let s := s.log .debug ("vm: exit code " ++ toString c ++ " after " ++ steps ++ " steps")
    let s := s.log .info
      (path ++ " exited with code " ++ toString c ++ " after " ++ steps ++ " steps")
    some (s.close (exitStatus c))
  | some (.fault e) =>
    let msg := "Execution failed at ip " ++ toString r.machine.ip ++ ": " ++ e.message
    some ((s.log .error msg).close 1)
  | some .underflow => some (s.close 101)

/-- The command, with `fuel` steps for a run that has no step limit. -/
def invoke (fuel : Nat) (w : World) : Option Outcome :=
  let config := Log.Config.ofSettings (w.env "COUGH_LOG_LEVEL") (w.env "COUGH_LOG_TIMESTAMP")
  let s : Session := { config, millis := w.millis }
  let name := w.args.headD "cough"
  match w.args.drop 1 with
  | [] => some ((s.err (usage name)).close 1)
  | path :: rest =>
    if path == "--help" || path == "-h" then some ((s.err (usage name)).close 0)
    else
      match readOptions name s rest {} with
      | .error o => some o
      | .ok o =>
        let limit : Except Outcome (Option Nat) :=
          match o.steps, w.env "COUGH_MAX_STEPS" with
          | some n, _ => .ok (some n)
          | none, none => .ok none
          | none, some v =>
            match parseSteps? v with
            | some n => .ok (some n)
            | none => .error ((s.log .error
                ("Invalid step limit: '" ++ v ++ "' is not a valid number")).close 1)
        match limit with
        | .error out => some out
        | .ok limit =>
          match w.paths path with
          | none => some ((s.log .error ("Input file does not exist: " ++ path)).close 1)
          | some .unreadable => some (s.close 1)
          | some (.file bytes) =>
            match String.fromUTF8? bytes with
            | none => some (s.close 1)
            | some src =>
              match Assembly.assemble src with
              | .error e => some ((s.log .error (Assembly.render path src e)).close 1)
              | .ok code =>
                let s := s.log .debug
                  ("Assembled " ++ path ++ " (" ++ toString code.size ++ " bytewords)")
                if o.disassemble then
                  match Disassembly.render code with
                  | .ok text => some ((s.out text).close 0)
                  | .error e => some ((s.log .error ("Disassembly failed: " ++ e.message)).close 1)
                else execute fuel path code limit s

end WindowVm.CommandLine
