import Resumable.Routine
import Resumable.Wait.Waiter

/-!
# Resuming a routine

One call of a handler. The stored resume point is read back to a label; a session that is not at
the entry first asks whether its wait is over and is left as it was while it is not; then one step
runs, and either its wait is registered and the label after it stored, or its result is written and
the session is fresh again. A call that fails leaves the progress of a new session.
-/

namespace Resumable

/-- What a handler call is given: the instant, the wait context of its session, the bytes of the
command, and whether it is the first call for that command. -/
structure Call where
  now : Instant
  context : Wait.Context
  command : List UInt8
  first : Bool
deriving DecidableEq, Repr

/-- What a handler call may change: the state of its session, the table of waits and the reply. -/
structure Workspace (σ : Type) (m : Nat) where
  state : σ
  waits : Wait.Table m
  reply : Reply
deriving DecidableEq, Repr

/-- The result of a handler call. -/
abbrev Outcome := Except Fault Status

namespace Routine

variable {L C : Type} [DecidableEq L] [Label L] [Inhabited C] {m : Nat}

/-! ### Reported lines -/

/-- Reported when a stored resume point stands for no label. -/
def noLabel (cx : Wait.Context) (point : ResumePoint) : Effect :=
  .report .warn s!"session {cx}: resume point {point} matches no label, resetting"

/-- Reported when a call finds its wait unfinished. -/
def stillWaiting (cx : Wait.Context) (l : L) : Effect :=
  let name := Label.name l
  .report .trace s!"session {cx}: still waiting at {name}"

/-- Reported when a step suspends the session. -/
def suspended (cx : Wait.Context) (l : L) (wait : Wait) : Effect :=
  let name := Label.name l
  let awaited := wait.text
  .report .debug s!"session {cx}: {name} -> suspend on {awaited}"

/-- Reported when a routine has written its result. -/
def finished (cx : Wait.Context) (result : UInt8) : Effect :=
  .report .debug s!"session {cx}: finished, reply {result}"

/-! ### One call -/

/-- End a call with a fault. The session starts anew. -/
def fail (fault : Fault) (w : Workspace (Progress C) m) : Outcome × Workspace (Progress C) m :=
  (.error fault, { w with state := Progress.fresh })

/-- Do what a step asked for. Suspending at the entry is refused, because the session would read
its command a second time. -/
def settle (call : Call) (w : Workspace (Progress C) m) :
    Step L → Traced Effect (Outcome × Workspace (Progress C) m)
  | .suspend resume wait =>
    if resume = Label.entry then
      pure (fail (.protocolViolation (Label.encode resume)) w)
    else do
      let waits ← w.waits.callArm call.now call.context wait
      Traced.emit (suspended call.context resume wait)
      return (.ok .waiting,
        { w with state := { w.state with resumePoint := Label.encode resume }, waits })
  | .finish result =>
    match w.reply.push result with
    | .error cause => pure (fail (.reply cause) w)
    | .ok reply => do
      Traced.emit (finished call.context result)
      return (.ok .ok, { w with state := { w.state with resumePoint := 0 }, reply })

/-- Run the step from a label whose wait is over. -/
def runFrom (routine : Routine L C) (l : L) (call : Call) (w : Workspace (Progress C) m) :
    Traced Effect (Outcome × Workspace (Progress C) m) := do
  let (asked, state) ← (routine.step l w.state call.command).mapTrace Output.toEffect
  match asked with
  | .error fault => return fail fault { w with state }
  | .ok step => settle call { w with state } step

/-- Continue a session at a label, unless its wait is still pending. -/
def continueAt (routine : Routine L C) (l : L) (call : Call) (w : Workspace (Progress C) m) :
    Traced Effect (Outcome × Workspace (Progress C) m) := do
  let (pending, waits) ← w.waits.callCheck call.now call.context
  if pending then
    Traced.emit (stillWaiting call.context l)
    return (.ok .waiting, { w with waits })
  else
    routine.runFrom l call { w with waits }

/-- One call of the handler that runs a routine. -/
def resume (routine : Routine L C) (call : Call) (w : Workspace (Progress C) m) :
    Traced Effect (Outcome × Workspace (Progress C) m) :=
  let point := w.state.resumePoint
  match (Label.decode point : Option L) with
  | none => do
    Traced.emit (noLabel call.context point)
    let waits ← w.waits.callCancel call.context
    return fail (.protocolViolation point) { w with waits }
  | some l =>
    if l = Label.entry then routine.runFrom l call w else routine.continueAt l call w

end Routine

end Resumable
