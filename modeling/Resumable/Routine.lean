import Resumable.Effect
import Resumable.Fault
import Resumable.Label
import Resumable.Traced

/-!
# Routines

A handler that would read as one sequence with waits in it is written as a routine: a set of
labels, one for each point that follows a wait, and a step that runs from a label to the next wait
or to the end. Between two steps only the progress of the session is kept: the resume point, the
request that was read and the counters of its loops.
-/

namespace Resumable

/-- What a session keeps between two steps. The default counters are those of a new session. -/
structure Progress (C : Type) where
  resumePoint : ResumePoint
  request : Request
  counters : C
deriving DecidableEq, Repr

namespace Progress

variable {C : Type}

/-- The progress of a session that has not started. -/
def fresh [Inhabited C] : Progress C := ⟨0, default, default⟩

instance [Inhabited C] : Inhabited (Progress C) := ⟨fresh⟩

/-- Whether the session would start at the entry. -/
def isFresh (p : Progress C) : Bool := p.resumePoint == 0

end Progress

/-- What a step asks for once it stops running. -/
inductive Step (L : Type) where
  /-- Register the wait and continue at the label once it is over. -/
  | suspend (resume : L) (wait : Wait)
  /-- Done: reply with this byte. -/
  | finish (result : UInt8)
deriving DecidableEq, Repr

/-- Sleep for a length of time and continue at a label. -/
def Step.sleep {L : Type} (resume : L) (length : Duration) : Step L :=
  .suspend resume (.timeout length)

/-- A step from each label. It sees the progress and the bytes of the command, and leaves its
outputs, the changed progress, and what it asks for or why it failed. -/
structure Routine (L C : Type) where
  step : L → Progress C → List UInt8 → Traced Output (Except Fault (Step L) × Progress C)

/-- Read the request at the start of a command. -/
def readRequest (command : List UInt8) : Except Fault Request :=
  match (Reader.ofBytes command).readRequest.1 with
  | .ok request => .ok request
  | .error cause => .error (.command cause)

/-- A written request is read back, whatever follows it. -/
theorem readRequest_encode (r : Request) (tail : List UInt8) :
    readRequest (r.encode ++ tail) = .ok r := by
  have hword := wordOfBytes_bytes r.delayMs
  show Except.ok (⟨r.count, wordOfBytes _ _⟩ : Request) = _
  rw [hword]

theorem readRequest_of_short {command : List UInt8} (h : command.length < 3) :
    readRequest command = .error (.command ⟨3, command.length⟩) := by
  match command, h with
  | [], _ => rfl
  | [_], _ => rfl
  | [_, _], _ => rfl
  | _ :: _ :: _ :: rest, h => exact absurd h (by simp)

end Resumable
