import Resumable.Plugin

/-!
# Blink

Drive the output high, wait, drive it low, wait, as often as the request says; reply the count.
-/

namespace Resumable.Blink

/-- The entry, and the points after the wait at each level. -/
inductive At where
  | entry
  | afterHigh
  | afterLow
deriving DecidableEq, Repr

instance : Label At where
  entry := .entry
  others := [.afterHigh, .afterLow]
  name
    | .entry => "Entry"
    | .afterHigh => "AfterHigh"
    | .afterLow => "AfterLow"
  nodup := by decide
  complete l := by cases l <;> decide
  few := by decide

/-- The number of blinks that are done. -/
structure Counters where
  i : UInt8 := 0
deriving DecidableEq, Repr

instance : Inhabited Counters := ⟨{}⟩

/-- The head of the loop: start the next blink, or leave. -/
def nextBlink (pin : PinId) (p : Progress Counters) :
    Traced Output (Except Fault (Step At) × Progress Counters) :=
  if p.counters.i < p.request.count then do
    Traced.emit (.pin (.write pin .high))
    return (.ok (.sleep .afterHigh p.request.delay), p)
  else
    return (.ok (.finish p.counters.i), p)

/-- The steps of a blinking session. -/
def routine (pin : PinId) : Routine At Counters where
  step
    | .entry, p, command =>
      match readRequest command with
      | .error fault => return (.error fault, p)
      | .ok request => nextBlink pin { p with request, counters := ⟨0⟩ }
    | .afterHigh, p, _ => do
      Traced.emit (.pin (.write pin .low))
      return (.ok (.sleep .afterLow p.request.delay), p)
    | .afterLow, p, _ => nextBlink pin { p with counters := ⟨p.counters.i + 1⟩ }

/-- The plugin that blinks one output. -/
def plugin (pin : PinId) : Plugin (Progress Counters) Unit where
  name := "blink"
  blank := Progress.fresh
  initial := ()
  validate := Plugin.validateOutput pin
  prepare _ _ := do
    Plugin.prepareOutput "blink" pin
    return (.ok (), (), Progress.fresh)
  handle call := Plugin.resumeRoutine (routine pin) call

end Resumable.Blink
