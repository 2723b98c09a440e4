import Resumable.Time

/-!
# Waits

What a suspended session waits for: the end of a length of time, or the end of a bus transfer. A
wait is registered under a context, one for each session.
-/

namespace Resumable

/-- The bus transfers that a session may wait for. -/
inductive Transfer where
  | spiSend
  | spiReceive
  | i2cSend
  | i2cReceive
deriving DecidableEq, Repr

/-- The name of a transfer as it is written. -/
def Transfer.name : Transfer → String
  | .spiSend => "spi send"
  | .spiReceive => "spi receive"
  | .i2cSend => "i2c send"
  | .i2cReceive => "i2c receive"

/-- What a suspended session waits for. -/
inductive Wait where
  | timeout (length : Duration)
  | transfer (awaited : Transfer)
deriving DecidableEq, Repr

namespace Wait

/-- The text of a wait: whole milliseconds, or the name of the transfer. -/
def text : Wait → String
  | .timeout length =>
    let millis := length.wholeMillis
    s!"{millis}ms"
  | .transfer awaited => awaited.name

/-- The number under which a session registers its wait. -/
abbrev Context := UInt8

/-- A call made of the table of waits, with the answer of a check. -/
inductive Event where
  | register (context : Context) (length : Duration)
  | transfer (context : Context) (awaited : Transfer)
  | check (context : Context) (pending : Bool)
  | cancel (context : Context)
deriving DecidableEq, Repr

/-- The event of registering a wait. -/
def registration (context : Context) : Wait → Event
  | .timeout length => .register context length
  | .transfer awaited => .transfer context awaited

end Wait

end Resumable
