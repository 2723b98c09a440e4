import Resumable.Command
import Resumable.Plugin

/-!
# Turns

What one session did when it was given a turn: the command that was admitted, the handler call with
its effects, and how it ended. A poll reports one turn; a tick reports the turn of every session
that had work, with a line before and after it.
-/

namespace Resumable

/-- The number of a session. -/
abbrev SessionId := UInt8

/-- A session as it is written. -/
def SessionId.text (s : SessionId) : String := s!"#{s}"

/-- Why a dispatcher refused a request, or how a polled session failed. -/
inductive DispatchError where
  | noSuchSession (session : SessionId)
  | commandTooLong (length : Nat)
  | queueFull
  /-- The session has nothing in flight and nothing queued. -/
  | idle (session : SessionId)
  | fault (cause : Fault)
deriving DecidableEq, Repr

/-- The text of a dispatch error. -/
def DispatchError.message : DispatchError → String
  | .noSuchSession session =>
    let name := session.text
    s!"no session {name}"
  | .commandTooLong length => s!"command too long ({length} bytes)"
  | .queueFull => "command queue full"
  | .idle session =>
    let name := session.text
    s!"session {name} is idle"
  | .fault cause => cause.message

/-- Bytes as they are written in a report: decimal, in brackets, parted by commas. -/
def bytesText (bytes : List UInt8) : String :=
  let items := ", ".intercalate (bytes.map fun b => s!"{b}")
  s!"[{items}]"

/-- How a command ended. -/
abbrev Ending := Except Fault Reply

instance : DecidableEq Ending
  | .ok r, .ok s => decidable_of_iff (r = s) (by rw [Except.ok.injEq])
  | .error f, .error g => decidable_of_iff (f = g) (by rw [Except.error.injEq])
  | .ok _, .error _ => isFalse nofun
  | .error _, .ok _ => isFalse nofun

/-- One turn of one session. -/
structure Turn where
  session : SessionId
  /-- The command that was admitted at the start of the turn, if one was. -/
  admitted : Option Command
  /-- What the handler was called with. -/
  call : Call
  /-- What happened from the handler call to the end of the turn. -/
  handling : List Effect
  /-- How the command ended, unless the session is suspended. -/
  ending : Option Ending
deriving Repr

namespace Turn

/-- What a poll answers: a reply, a fault, or nothing yet. -/
def answer (t : Turn) : Except DispatchError (Option Reply) :=
  match t.ending with
  | none => .ok none
  | some (.ok reply) => .ok (some reply)
  | some (.error fault) => .error (.fault fault)

variable {σ π : Type} (plugin : Plugin σ π)

/-- Reported when a command is admitted. -/
def admission (t : Turn) : List Effect :=
  match t.admitted with
  | none => []
  | some _ =>
    let name := t.session.text
    [plugin.report .debug s!"session {name} admitted"]

/-- Reported when a tick comes to a session. -/
def visit (t : Turn) : Effect :=
  let name := t.session.text
  plugin.report .trace s!"poll {name}"

/-- Reported when a command ends during a tick. -/
def conclusion (t : Turn) : List Effect :=
  let name := t.session.text
  match t.ending with
  | none => []
  | some (.ok reply) =>
    let bytes := bytesText reply.toList
    [plugin.report .info s!"{name} done, reply {bytes}"]
  | some (.error fault) =>
    let cause := fault.message
    [plugin.report .warn s!"{name} failed: {cause}"]

/-- The effects of a turn that a poll gave. -/
def pollEffects (t : Turn) : List Effect := t.admission plugin ++ t.handling

/-- The effects of a turn that a tick gave. -/
def tickEffects (t : Turn) : List Effect :=
  t.admission plugin ++ t.visit plugin :: t.handling ++ t.conclusion plugin

end Turn

/-! ### The turns of a tick -/

/-- A session and how its command ended. -/
structure Completion where
  session : SessionId
  ending : Ending
deriving DecidableEq, Repr

/-- The completion that a turn reports, if its command ended. -/
def Turn.completion? (t : Turn) : Option Completion := t.ending.map fun e => ⟨t.session, e⟩

/-- What a tick counts. -/
structure TickSummary where
  polled : Nat
  waiting : Nat
  completed : Nat
deriving DecidableEq, Repr

/-- The commands that ended in a series of turns. -/
def completions (turns : List Turn) : List Completion := turns.filterMap Turn.completion?

/-- How many turns there were, how many left a session waiting, how many ended a command. -/
def TickSummary.ofTurns (turns : List Turn) : TickSummary where
  polled := turns.length
  waiting := turns.countP fun t => t.ending.isNone
  completed := turns.countP fun t => t.ending.isSome

end Resumable
