import WindowVm.Log.Calendar
import WindowVm.Text.WhiteSpace

/-!
# Log lines

Messages have a level, and a line is written only for messages at or above the configured
level. A line is the timestamp (unless switched off), the level label in brackets, a space, the
message and a line feed. The level and the timestamp switch are read from the environment,
trimmed of white space and compared without regard to ASCII case; a value that is not
understood leaves the default: level `info`, timestamps on.
-/

namespace WindowVm.Log

/-- The levels of a message, from least to most severe. -/
inductive Level where
  | debug | info | warn | error
deriving DecidableEq, Repr

namespace Level

def rank : Level → Nat
  | debug => 0 | info => 1 | warn => 2 | error => 3

/-- The label written in brackets. -/
def label : Level → String
  | debug => "DEBUG" | info => "INFO" | warn => "WARN" | error => "ERROR"

/-- A level name: `debug`, `info`, `warn` or `warning`, `error`, in any ASCII case and with
white space around it. -/
def parse? (s : String) : Option Level :=
  match (Text.trimWhiteSpace s).toList.map Char.toLower with
  | ['d', 'e', 'b', 'u', 'g'] => some debug
  | ['i', 'n', 'f', 'o'] => some info
  | ['w', 'a', 'r', 'n'] => some warn
  | ['w', 'a', 'r', 'n', 'i', 'n', 'g'] => some warn
  | ['e', 'r', 'r', 'o', 'r'] => some error
  | _ => none

end Level

/-- A switch: `1`, `true`, `yes`, `on` or `0`, `false`, `no`, `off`, in any ASCII case and with
white space around it. -/
def parseSwitch? (s : String) : Option Bool :=
  match String.ofList ((Text.trimWhiteSpace s).toList.map Char.toLower) with
  | "1" | "true" | "yes" | "on" => some true
  | "0" | "false" | "no" | "off" => some false
  | _ => none

/-- Which lines are written, and whether they are stamped. -/
structure Config where
  least : Level := .info
  stamped : Bool := true
deriving Repr

/-- The configuration named by the two settings, each absent or as given. -/
def Config.ofSettings (level stamp : Option String) : Config :=
  { least := (level.bind Level.parse?).getD .info
    stamped := (stamp.bind parseSwitch?).getD true }

/-- The line for a message at level `l`, at the instant `millis`; empty when the level is below
the configured one. -/
def Config.line (c : Config) (millis : Nat) (l : Level) (msg : String) : String :=
  if l.rank < c.least.rank then ""
  else (if c.stamped then stamp millis else "") ++ "[" ++ l.label ++ "] " ++ msg ++ "\n"

end WindowVm.Log
