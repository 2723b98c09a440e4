import Resumable.Effect
import Resumable.Traced
import Resumable.Wait.Table

/-!
# Calls on the table of waits

The operations of a table as a handler and its surroundings use them: each leaves its event, and
one that misses its context reports it.
-/

namespace Resumable.Wait.Table

variable {m : Nat}

/-- Reported when a wait is registered past the end of a table of `m` records. -/
def outOfRange (cx : Context) (m : Nat) : Effect :=
  .report .warn s!"wait: context {cx} out of range ({m} slots)"

/-- Reported when a transfer ends for which a context was not waiting. -/
def notWaiting (cx : Context) (transfer : Transfer) : Effect :=
  let awaited := transfer.name
  .report .trace s!"wait: context {cx} not waiting on {awaited}"

/-- Register a wait. Past the end of the table nothing is registered and a warning is left. -/
def callArm (t : Table m) (now : Instant) (cx : Context) (wait : Wait) :
    Traced Effect (Table m) :=
  ⟨.wait (wait.registration cx) :: (if cx.toNat < m then [] else [outOfRange cx m]),
    t.arm now cx wait⟩

/-- Ask whether a context is still waiting. -/
def callCheck (t : Table m) (now : Instant) (cx : Context) : Traced Effect (Bool × Table m) :=
  let answer := t.check now cx
  ⟨[.wait (.check cx answer.1)], answer⟩

/-- Remove the record of a context. -/
def callCancel (t : Table m) (cx : Context) : Traced Effect (Table m) :=
  ⟨[.wait (.cancel cx)], t.cancel cx⟩

/-- Report the end of a transfer. A report that nobody waits for is noted and dropped. -/
def callSignal (t : Table m) (cx : Context) (transfer : Transfer) :
    Traced Effect (Bool × Table m) :=
  let answer := t.signal cx transfer
  ⟨if answer.1 then [] else [notWaiting cx transfer], answer⟩

end Resumable.Wait.Table
