/-!
# Digital pins

Levels, modes and the three operations that a handler may ask of a pin.
-/

namespace Resumable

/-- The number of a pin on the board. -/
abbrev PinId := UInt16

/-- The level of a digital output. -/
inductive Level where
  | low
  | high
deriving DecidableEq, Repr

/-- The name of a level as it is written. -/
def Level.name : Level → String
  | .low => "LOW"
  | .high => "HIGH"

/-- The direction of a pin. -/
inductive PinMode where
  | output
  | input
deriving DecidableEq, Repr

/-- An operation on a pin. It has no result: a handler never learns whether it succeeded. -/
inductive PinOp where
  | init (pin : PinId)
  | setMode (pin : PinId) (mode : PinMode)
  | write (pin : PinId) (level : Level)
deriving DecidableEq, Repr

/-- The pin that an operation addresses. -/
def PinOp.pin : PinOp → PinId
  | .init pin => pin
  | .setMode pin _ => pin
  | .write pin _ => pin

end Resumable
