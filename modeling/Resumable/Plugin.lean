import Resumable.Board
import Resumable.Routine.Resume

/-!
# Plugins

What a dispatcher runs: a name, a check of the configuration, a preparation of each session, and
the handler. A plugin's configuration is fixed when it is made; what changes is the state of each
session and the persistent state that outlives them.
-/

namespace Resumable

/-- A plugin with session states `σ` and a persistent state `π`. -/
structure Plugin (σ π : Type) where
  name : String
  /-- The state of a session before it is prepared. -/
  blank : σ
  /-- The persistent state at registration. -/
  initial : π
  /-- Check the configuration, once, without touching a pin. -/
  validate : Except Fault Unit
  /-- Make a session ready, before its first call and after every reset. -/
  prepare : π → σ → Traced Output (Except Fault Unit × π × σ)
  /-- One call of the handler. -/
  handle : {m : Nat} → Call → π → Workspace σ m → Traced Effect (Outcome × π × Workspace σ m)

namespace Plugin

variable {L C π : Type} [DecidableEq L] [Label L] [Inhabited C] {m : Nat}

/-- The handler of a routine: one call resumes it and the persistent state stays. -/
def resumeRoutine (routine : Routine L C) (call : Call) (persistent : π)
    (w : Workspace (Progress C) m) :
    Traced Effect (Outcome × π × Workspace (Progress C) m) := do
  let (outcome, w) ← routine.resume call w
  return (outcome, persistent, w)

/-- Report a line under a plugin's name. -/
def report {σ : Type} (plugin : Plugin σ π) (severity : Severity) (text : String) : Effect :=
  let name := plugin.name
  .report severity s!"{name}: {text}"

/-! ### Plugins that drive one output -/

/-- Accept an output pin that a plugin may drive. -/
def validateOutput (pin : PinId) : Except Fault Unit :=
  match Board.validateOutput pin with
  | .ok () => .ok ()
  | .error rejection => .error (.configuration rejection.message)

/-- Make an output pin ready and report it under a plugin's name. -/
def prepareOutput (name : String) (pin : PinId) : Traced Output Unit := do
  Traced.emit (.pin (.init pin))
  Traced.emit (.pin (.setMode pin .output))
  Traced.emit (.report .info s!"{name}: pin {pin} ready")

end Plugin

end Resumable
