/-!
# Commands

The raw bytes of a command that a session keeps while it is in flight. A command holds at most
sixteen bytes; what a longer one would mean is never asked, it is refused when it is submitted.
-/

namespace Resumable

/-- The most bytes that a command holds. -/
abbrev commandCapacity : Nat := 16

/-- The bytes of a command, at most sixteen of them. -/
structure Command where
  bytes : List UInt8
  fits : bytes.length ≤ commandCapacity
deriving DecidableEq, Repr

namespace Command

/-- The command without bytes. -/
def empty : Command := ⟨[], by decide⟩

instance : Inhabited Command := ⟨empty⟩

/-- The command with the given bytes, unless there are too many. -/
def ofBytes? (bytes : List UInt8) : Option Command :=
  if h : bytes.length ≤ commandCapacity then some ⟨bytes, h⟩ else none

end Command

end Resumable
