import Resumable.Wait

/-!
# The table of waits

One optional record for each context. A timed record holds its deadline, so checking it is one
comparison with the clock; a transfer record stays pending until the transfer is signalled. A
record that is found satisfied is removed. Contexts past the end of the table hold nothing, and
operations on them change nothing.
-/

namespace Resumable.Wait

/-- What the table holds for one registered wait. -/
inductive Record where
  | deadline (instant : Instant)
  | transfer (awaited : Transfer) (done : Bool)
deriving DecidableEq, Repr

namespace Record

/-- The record of a wait that starts at `now`. -/
def start (now : Instant) : Wait → Record
  | .timeout length => .deadline (now.deadline length)
  | .transfer awaited => .transfer awaited false

/-- Whether the wait is still unsatisfied at `now`. -/
def isPending (now : Instant) : Record → Bool
  | .deadline instant => now < instant
  | .transfer _ done => !done

/-- The deadline of a timed record. -/
def deadline? : Record → Option Instant
  | .deadline instant => some instant
  | .transfer _ _ => none

end Record

/-- A table of `m` optional records, one for each context below `m`. -/
structure Table (m : Nat) where
  records : Vector (Option Record) m
deriving DecidableEq, Repr

namespace Table

variable {m : Nat}

/-- The table without records. -/
def empty : Table m := ⟨Vector.replicate m none⟩

instance : Inhabited (Table m) := ⟨empty⟩

/-- The record of a context, if it has one. -/
def record? (t : Table m) (cx : Context) : Option Record := (t.records[cx.toNat]?).join

/-- Replace what a context holds. Past the end of the table this changes nothing. -/
def update (t : Table m) (cx : Context) (record : Option Record) : Table m :=
  ⟨t.records.setIfInBounds cx.toNat record⟩

/-- Register a wait at `now`, in place of whatever the context held. -/
def arm (t : Table m) (now : Instant) (cx : Context) (wait : Wait) : Table m :=
  t.update cx (some (Record.start now wait))

/-- Remove the record of a context. -/
def cancel (t : Table m) (cx : Context) : Table m := t.update cx none

/-- Whether a context is still waiting at `now`. -/
def isWaiting (t : Table m) (now : Instant) (cx : Context) : Bool :=
  (t.record? cx).any (Record.isPending now)

/-- Ask whether a context is still waiting, and remove a record that is satisfied. -/
def check (t : Table m) (now : Instant) (cx : Context) : Bool × Table m :=
  if t.isWaiting now cx then (true, t) else (false, t.cancel cx)

/-- Report the end of a transfer to a context. The answer says whether the context was waiting for
that transfer; if not, the report is dropped. -/
def signal (t : Table m) (cx : Context) (transfer : Transfer) : Bool × Table m :=
  match t.record? cx with
  | some (.transfer awaited _) =>
    if awaited = transfer then (true, t.update cx (some (.transfer awaited true))) else (false, t)
  | _ => (false, t)

/-- How many contexts hold a record. -/
def pending (t : Table m) : Nat := t.records.toList.countP Option.isSome

/-- The earliest deadline in the table. -/
def nextDeadline (t : Table m) : Option Instant :=
  (t.records.toList.filterMap (Option.bind · Record.deadline?)).min?

/-! ### The record of a context after each operation -/

@[simp] theorem record?_empty (cx : Context) : (empty : Table m).record? cx = none := by
  simp only [record?, empty, Vector.getElem?_replicate]
  split <;> rfl

/-- A context below the size of the table holds what was stored; one past it holds nothing. -/
theorem record?_update (t : Table m) (cx : Context) (r : Option Record) :
    (t.update cx r).record? cx = if cx.toNat < m then r else none := by
  simp only [record?, update, Vector.getElem?_setIfInBounds_self]
  split <;> rfl

/-- An update of one context leaves every other context as it was. -/
theorem record?_update_other (t : Table m) {cx other : Context} (r : Option Record)
    (h : other ≠ cx) : (t.update cx r).record? other = t.record? other := by
  have hne : cx.toNat ≠ other.toNat := fun e => h (UInt8.toNat_inj.mp e.symm)
  simp only [record?, update, Vector.getElem?_setIfInBounds_ne hne]

end Table

end Resumable.Wait
