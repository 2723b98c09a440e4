import Resumable.Log
import Resumable.Pin
import Resumable.Wait

/-!
# Effects

What happens to the outside while a handler runs. A step of a routine can operate pins and report
lines; only the code around it reaches the table of waits.
-/

namespace Resumable

/-- What a step of a routine does to the outside. -/
inductive Output where
  | pin (op : PinOp)
  | log (line : LogLine)
deriving DecidableEq, Repr

/-- What a handler call or an operation of a dispatcher does to the outside. -/
inductive Effect where
  | pin (op : PinOp)
  | wait (event : Wait.Event)
  | log (line : LogLine)
deriving DecidableEq, Repr

/-- The effect of an output. -/
def Output.toEffect : Output → Effect
  | .pin op => .pin op
  | .log line => .log line

/-- The pin operation that an effect is, if it is one. -/
def Effect.pinOp? : Effect → Option PinOp
  | .pin op => some op
  | _ => none

/-- Report a line from a step. -/
def Output.report (severity : Severity) (text : String) : Output := .log ⟨severity, text⟩

/-- Report a line. -/
def Effect.report (severity : Severity) (text : String) : Effect := .log ⟨severity, text⟩

end Resumable
