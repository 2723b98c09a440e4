import Resumable.Pin

/-!
# The board's pins

Which pins exist, what they are wired to, and which of them a plugin may drive: all but the boot
strap, the flash bus and the two console lines.
-/

namespace Resumable.Board

/-- An inclusive range of pins. -/
structure PinRange where
  first : PinId
  last : PinId
deriving DecidableEq, Repr

/-- Whether a pin lies in the range. -/
def PinRange.contains (r : PinRange) (pin : PinId) : Bool :=
  r.first ≤ pin && pin ≤ r.last

/-- Pins are numbered from zero to below this count. -/
def pinCount : PinId := 22

/-! ### Outputs -/

/-- The light on the board. -/
def statusLed : PinId := 8

/-- The first free output. -/
def auxOut0 : PinId := 4

/-- The second free output. -/
def auxOut1 : PinId := 5

/-! ### Reserved pins -/

/-- Read when the board starts: driving it may stop the board from starting. -/
def bootStrap : PinId := 9

/-- The bus of the program memory. -/
def spiFlash : PinRange := ⟨11, 17⟩

/-- The two data lines of the serial console over USB. -/
def usb : PinRange := ⟨18, 19⟩

/-- The two lines of the console. -/
def uart0 : PinRange := ⟨20, 21⟩

/-- Why a pin may not be driven. -/
inductive Rejection where
  | outOfRange
  | bootStrap
  | spiFlash
  | console
deriving DecidableEq, Repr

/-- The text of a rejection. -/
def Rejection.message : Rejection → String
  | .outOfRange => "pin out of range"
  | .bootStrap => "pin is a boot strap"
  | .spiFlash => "pin is wired to SPI flash"
  | .console => "pin is a console line"

/-- Check that a pin exists and may be driven by a plugin. -/
def validateOutput (pin : PinId) : Except Rejection Unit :=
  if pinCount ≤ pin then .error .outOfRange
  else if pin = bootStrap then .error .bootStrap
  else if spiFlash.contains pin then .error .spiFlash
  else if usb.contains pin || uart0.contains pin then .error .console
  else .ok ()

end Resumable.Board
