import Resumable.Plugin

/-!
# Ramp

Blink as often as the request says, then count a second counter up to the count and back down to
zero with a wait at each value; reply the final counter. The two loops have counters of their own,
and labels of their own.
-/

namespace Resumable.Ramp

/-- The entry, and the points after each kind of wait. -/
inductive At where
  | entry
  | afterHigh
  | afterLow
  | ascending
  | descending
deriving DecidableEq, Repr

instance : Label At where
  entry := .entry
  others := [.afterHigh, .afterLow, .ascending, .descending]
  name
    | .entry => "Entry"
    | .afterHigh => "AfterHigh"
    | .afterLow => "AfterLow"
    | .ascending => "Ascending"
    | .descending => "Descending"
  nodup := by decide
  complete l := by cases l <;> decide
  few := by decide

/-- The number of blinks that are done, and the height of the ramp. -/
structure Counters where
  i : UInt8 := 0
  i1 : UInt8 := 0
deriving DecidableEq, Repr

instance : Inhabited Counters := ⟨{}⟩

/-- What a step of the ramp leaves. -/
abbrev Result := Traced Output (Except Fault (Step At) × Progress Counters)

/-- One value further down, or the end at zero. -/
def descend (p : Progress Counters) : Result :=
  if 0 < p.counters.i1 then do
    let height := p.counters.i1 - 1
    Traced.emit (.report .trace s!"ramp: down {height}")
    return (.ok (.sleep .descending p.request.delay),
      { p with counters := { p.counters with i1 := height } })
  else
    return (.ok (.finish p.counters.i1), p)

/-- Wait at the present value on the way up, or turn round at the top. -/
def ascend (p : Progress Counters) : Result :=
  let height := p.counters.i1
  if height < p.request.count then do
    Traced.emit (.report .trace s!"ramp: up {height}")
    return (.ok (.sleep .ascending p.request.delay), p)
  else
    descend p

/-- The head of the blinking loop: start the next blink, or start the ramp. -/
def nextBlink (pin : PinId) (p : Progress Counters) : Result :=
  if p.counters.i < p.request.count then do
    Traced.emit (.pin (.write pin .high))
    return (.ok (.sleep .afterHigh p.request.delay), p)
  else
    ascend { p with counters := { p.counters with i1 := 0 } }

/-- The steps of a ramping session. -/
def routine (pin : PinId) : Routine At Counters where
  step
    | .entry, p, command =>
      match readRequest command with
      | .error fault => return (.error fault, p)
      | .ok request => nextBlink pin { p with request, counters := {} }
    | .afterHigh, p, _ => do
      Traced.emit (.pin (.write pin .low))
      return (.ok (.sleep .afterLow p.request.delay), p)
    | .afterLow, p, _ =>
      nextBlink pin { p with counters := { p.counters with i := p.counters.i + 1 } }
    | .ascending, p, _ => ascend { p with counters := { p.counters with i1 := p.counters.i1 + 1 } }
    | .descending, p, _ => descend p

/-- The plugin that ramps one output. -/
def plugin (pin : PinId) : Plugin (Progress Counters) Unit where
  name := "ramp"
  blank := Progress.fresh
  initial := ()
  validate := Plugin.validateOutput pin
  prepare _ _ := do
    Plugin.prepareOutput "ramp" pin
    return (.ok (), (), Progress.fresh)
  handle call := Plugin.resumeRoutine (routine pin) call

end Resumable.Ramp
