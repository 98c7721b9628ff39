/-!
# Events

What the compiler reports about its work, one event at a time. An event has a level, a message and named
values.
-/

namespace DatalogRam

/-- How important an event is. -/
inductive Level where
  | error
  | warn
  | info
  | debug
  | trace
  deriving DecidableEq, Repr

namespace Level

/-- The most important level is zero. -/
def rank : Level → Nat
  | error => 0
  | warn => 1
  | info => 2
  | debug => 3
  | trace => 4

def text : Level → String
  | error => "ERROR"
  | warn => "WARN"
  | info => "INFO"
  | debug => "DEBUG"
  | trace => "TRACE"

/-- The name of a level in a setting. -/
def name : Level → String
  | error => "error"
  | warn => "warn"
  | info => "info"
  | debug => "debug"
  | trace => "trace"

/-- Whether a level is at least as important as a threshold. -/
def reaches (level threshold : Level) : Bool :=
  decide (level.rank ≤ threshold.rank)

end Level

structure Event where
  level : Level
  message : String
  fields : List (String × String)
  deriving DecidableEq, Repr

/-- The text of a truth value in an event. -/
def truthText (value : Bool) : String :=
  if value then "true" else "false"

end DatalogRam
