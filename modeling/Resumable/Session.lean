import Resumable.Plugin

/-!
# A session on its own

One session of a plugin with its own table of waits and a clock that moves only when it is told to.
A session can be called, made to sleep, and driven: called until its command ends, with the clock
moved to each deadline in between.
-/

namespace Resumable

/-- One session of a plugin, alone on its clock. -/
structure Session (σ π : Type) (m : Nat) where
  now : Instant
  context : Wait.Context
  persistent : π
  work : Workspace σ m

namespace Session

variable {σ π : Type} {m : Nat}

/-- A session that has not been prepared, at the start of its clock. -/
def start (plugin : Plugin σ π) (context : Wait.Context) : Session σ π m :=
  { now := 0, context, persistent := plugin.initial,
    work := ⟨plugin.blank, Wait.Table.empty, Reply.empty⟩ }

/-- Let the plugin make the session ready. -/
def prepare (s : Session σ π m) (plugin : Plugin σ π) :
    Traced Effect (Except Fault Unit × Session σ π m) := do
  let (ready, persistent, state) ←
    (plugin.prepare s.persistent s.work.state).mapTrace Output.toEffect
  return (ready, { s with persistent, work := { s.work with state } })

/-- Call the handler once. -/
def call (s : Session σ π m) (plugin : Plugin σ π) (command : List UInt8) (first : Bool) :
    Traced Effect (Outcome × Session σ π m) := do
  let (outcome, persistent, work) ←
    plugin.handle { now := s.now, context := s.context, command, first } s.persistent s.work
  return (outcome, { s with persistent, work })

/-- Let time pass. -/
def advance (s : Session σ π m) (length : Duration) : Except ClockError (Session σ π m) := do
  let now ← s.now.advance length
  return { s with now }

/-- Sleep to the next deadline of the table, if it lies ahead. -/
def sleep (s : Session σ π m) : Session σ π m :=
  { s with now := s.now.wake s.work.waits.nextDeadline }

/-- Register a wait for the session. -/
def arm (s : Session σ π m) (wait : Wait) : Traced Effect (Session σ π m) := do
  let waits ← s.work.waits.callArm s.now s.context wait
  return { s with work := { s.work with waits } }

/-- Remove the wait of the session. -/
def cancel (s : Session σ π m) : Traced Effect (Session σ π m) := do
  let waits ← s.work.waits.callCancel s.context
  return { s with work := { s.work with waits } }

/-- Report the end of a bus transfer to the session. -/
def signal (s : Session σ π m) (transfer : Transfer) : Traced Effect (Bool × Session σ π m) := do
  let (heard, waits) ← s.work.waits.callSignal s.context transfer
  return (heard, { s with work := { s.work with waits } })

/-- Call the handler until the command ends or nothing is left to sleep for, at most as often as
the first number says, and sleep between the calls. The outcomes are listed in order. -/
def drive (plugin : Plugin σ π) (command : List UInt8) :
    Nat → Bool → Session σ π m → Traced Effect (List Outcome × Session σ π m)
  | 0, _, s => return ([], s)
  | calls + 1, first, s => do
    let (outcome, s) ← s.call plugin command first
    match outcome, s.work.waits.nextDeadline with
    | .ok .waiting, some _ =>
      let (outcomes, s) ← drive plugin command calls false s.sleep
      return (outcome :: outcomes, s)
    | _, _ => return ([outcome], s)

end Session

end Resumable
