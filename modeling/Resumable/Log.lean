/-!
# Log lines

What the library reports about its work: a severity and a text. The texts stand beside the
operations that report them.
-/

namespace Resumable

/-- How much a log line matters, from the least to the most severe. -/
inductive Severity where
  | trace
  | debug
  | info
  | warn
  | error
deriving DecidableEq, Repr

namespace Severity

/-- Position in the order of severity. -/
def rank : Severity → Nat
  | .trace => 0
  | .debug => 1
  | .info => 2
  | .warn => 3
  | .error => 4

/-- Whether `s` is at least as severe as `least`. -/
def atLeast (s least : Severity) : Bool := least.rank ≤ s.rank

/-- The name of a severity as it is written. -/
def name : Severity → String
  | .trace => "TRACE"
  | .debug => "DEBUG"
  | .info => "INFO"
  | .warn => "WARN"
  | .error => "ERROR"

end Severity

/-- One reported line. -/
structure LogLine where
  severity : Severity
  text : String
deriving DecidableEq, Repr

end Resumable
