import Resumable.Plugin

/-!
# Latch

Drive the output high and reply the count of the request, all in one call. There is no state of a
session; what outlives the sessions is a tally of the commands served.
-/

namespace Resumable.Latch

/-- How many commands were served, counted round at 32 bits. -/
structure Tally where
  served : UInt32 := 0
deriving DecidableEq, Repr

/-- The tally after a served call: only the first call of a command counts. -/
def Tally.count (tally : Tally) (call : Call) : Tally :=
  if call.first then ⟨tally.served + 1⟩ else tally

/-- Reported when a command is served. -/
def latched (count : UInt8) (tally : Tally) : Effect :=
  let served := tally.served
  .report .debug s!"latch: reply {count}, {served} served"

/-- One call: read the request, drive the output, reply. -/
def handle (pin : PinId) {m : Nat} (call : Call) (tally : Tally) (w : Workspace Unit m) :
    Traced Effect (Outcome × Tally × Workspace Unit m) :=
  match readRequest call.command with
  | .error fault => return (.error fault, tally, w)
  | .ok request => do
    Traced.emit (.pin (.write pin .high))
    match w.reply.push request.count with
    | .error cause => return (.error (.reply cause), tally, w)
    | .ok reply =>
      let tally := tally.count call
      Traced.emit (latched request.count tally)
      return (.ok .ok, tally, { w with reply })

/-- The plugin that latches one output high. -/
def plugin (pin : PinId) : Plugin Unit Tally where
  name := "latch"
  blank := ()
  initial := {}
  validate := Plugin.validateOutput pin
  prepare tally state := do
    Plugin.prepareOutput "latch" pin
    return (.ok (), tally, state)
  handle call := handle pin call

end Resumable.Latch
