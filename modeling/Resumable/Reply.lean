/-!
# Replies

A reply is a short byte string in a fixed storage of eight bytes. Clearing a reply keeps what the
storage held, so two replies of equal bytes may differ past their ends, and equality sees it.
-/

namespace Resumable

/-- The most bytes that a reply holds. -/
abbrev replyCapacity : Nat := 8

/-- Why a byte cannot be added to a reply. -/
inductive ReplyError where
  | full
deriving DecidableEq, Repr

/-- The text of a reply error. -/
def ReplyError.message : ReplyError → String
  | .full => s!"reply buffer full ({replyCapacity} bytes)"

/-- A byte string of at most eight bytes, the first `length` bytes of a fixed storage. -/
structure Reply where
  storage : Vector UInt8 replyCapacity
  length : Nat
  fits : length ≤ replyCapacity
deriving DecidableEq, Repr

namespace Reply

/-- The reply without bytes over a storage of zeros. -/
def empty : Reply := ⟨Vector.replicate replyCapacity 0, 0, by decide⟩

instance : Inhabited Reply := ⟨empty⟩

/-- The bytes of a reply. -/
def toList (r : Reply) : List UInt8 := r.storage.toList.take r.length

/-- Add a byte at the end, unless the reply is full. -/
def push (r : Reply) (b : UInt8) : Except ReplyError Reply :=
  if h : r.length < replyCapacity then
    .ok ⟨r.storage.set r.length b h, r.length + 1, h⟩
  else
    .error .full

/-- Take all bytes out of the reply. The storage keeps what it held. -/
def clear (r : Reply) : Reply := { r with length := 0, fits := by decide }

/-! ### The bytes after each operation -/

@[simp] theorem toList_empty : empty.toList = [] := rfl

@[simp] theorem length_toList (r : Reply) : r.toList.length = r.length := by
  simp [toList, r.fits]

@[simp] theorem toList_clear (r : Reply) : r.clear.toList = [] := rfl

/-- A byte is added exactly when fewer than eight are held, and then stands last. -/
theorem toList_push {r s : Reply} {b : UInt8} (h : r.push b = .ok s) :
    s.toList = r.toList ++ [b] := by
  unfold push at h
  split at h
  case isTrue hlt =>
    cases h
    have hlen : r.length < r.storage.toList.length := by simpa using hlt
    simp only [toList, Vector.toList_set]
    rw [List.take_add_one, List.take_set_of_le (Nat.le_refl _), List.getElem?_set_self hlen]
    rfl
  case isFalse => cases h

end Reply

end Resumable
