import Resumable.Command.Reader
import Resumable.Reply

/-!
# Outcomes of a handler call

A handler call that does not fail has either answered or is waiting. A fault ends the session that
raised it, and that session only.
-/

namespace Resumable

/-- What a handler call that did not fail says. -/
inductive Status where
  /-- The reply is written and the command is done. -/
  | ok
  /-- A wait is registered: call again. -/
  | waiting
deriving DecidableEq, Repr

namespace Status

/-- The name of a status as it is written. -/
def name : Status → String
  | .ok => "OK"
  | .waiting => "WAITING"

/-- The numeric code of a status. -/
def code : Status → UInt8
  | .ok => 0
  | .waiting => 1

end Status

/-- Why a session ended without a reply. -/
inductive Fault where
  /-- The stored resume point stands for no label at which a session may continue. -/
  | protocolViolation (resumePoint : UInt8)
  | configuration (text : String)
  | command (cause : Truncated)
  | reply (cause : ReplyError)
deriving DecidableEq, Repr

namespace Fault

/-- The numeric code of a fault, apart from every status code. -/
def code : Fault → UInt8
  | .protocolViolation _ => 2
  | .configuration _ => 3
  | .command _ => 4
  | .reply _ => 5

/-- The text of a fault. -/
def message : Fault → String
  | .protocolViolation resumePoint => s!"no resume label {resumePoint}"
  | .configuration text => s!"bad configuration: {text}"
  | .command cause => cause.message
  | .reply cause => cause.message

end Fault

end Resumable
