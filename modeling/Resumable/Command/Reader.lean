import Resumable.Request

/-!
# Reading a command

A reader walks through the bytes of a command. Each read takes a fixed number of bytes or, when
too few are left, takes none and says how many it would have needed.
-/

namespace Resumable

/-- A command ended before a read did. -/
structure Truncated where
  /-- Bytes that the command would have needed in all. -/
  needed : Nat
  /-- Bytes that the command has. -/
  got : Nat
deriving DecidableEq, Repr

/-- The text of a truncated command. -/
def Truncated.message (t : Truncated) : String :=
  let needed := t.needed
  let got := t.got
  s!"command truncated: need {needed} bytes, got {got}"

/-- A position in the bytes of a command. -/
structure Reader where
  input : List UInt8
  position : Nat := 0
deriving DecidableEq, Repr

namespace Reader

/-- A reader at the start of a command. -/
def ofBytes (input : List UInt8) : Reader := { input }

/-- The bytes still to be read. -/
def rest (r : Reader) : List UInt8 := r.input.drop r.position

/-- How many bytes are still to be read. -/
def remaining (r : Reader) : Nat := r.input.length - r.position

/-- The reader after `width` more bytes. -/
def skip (r : Reader) (width : Nat) : Reader := { r with position := r.position + width }

/-- What a read of `width` bytes reports when they are not there. -/
def truncated (r : Reader) (width : Nat) : Truncated :=
  { needed := r.position + width, got := r.input.length }

/-- Read one byte. -/
def readByte (r : Reader) : Except Truncated UInt8 × Reader :=
  match r.rest with
  | b :: _ => (.ok b, r.skip 1)
  | _ => (.error (r.truncated 1), r)

/-- Read one word, low byte first. -/
def readWord (r : Reader) : Except Truncated UInt16 × Reader :=
  match r.rest with
  | lo :: hi :: _ => (.ok (wordOfBytes lo hi), r.skip 2)
  | _ => (.error (r.truncated 2), r)

/-- Read one request: the whole of it or nothing. -/
def readRequest (r : Reader) : Except Truncated Request × Reader :=
  match r.rest with
  | count :: lo :: hi :: _ => (.ok ⟨count, wordOfBytes lo hi⟩, r.skip Request.width)
  | _ => (.error (r.truncated Request.width), r)

end Reader

end Resumable
