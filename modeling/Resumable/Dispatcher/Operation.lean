import Resumable.Dispatcher.Serve

/-!
# Operations

Everything that can be asked of a registered dispatcher, as data: an operation is performed at an
instant and has an answer.
-/

namespace Resumable

/-- Something asked of a dispatcher. -/
inductive Operation (σ : Type) where
  | submit (session : SessionId) (bytes : List UInt8)
  | poll (session : SessionId)
  | tick
  | abandon (session : SessionId)
  | reset
  | signal (session : SessionId) (transfer : Transfer)
  | edit (session : SessionId) (change : σ → σ)

/-- What a dispatcher answers. -/
inductive Answer where
  | submitted (result : Except DispatchError Unit)
  | polled (result : Except DispatchError Turn)
  | ticked (turns : List Turn)
  | abandoned (result : Except DispatchError Unit)
  | wasReset (result : Except Fault Unit)
  | signalled (result : Except DispatchError Bool)
  | edited (exists? : Bool)

/-- Perform an operation at an instant. -/
def Dispatcher.perform {σ π : Type} {n m : Nat} (d : Dispatcher σ π n m) (now : Instant) :
    Operation σ → Traced Effect (Answer × Dispatcher σ π n m)
  | .submit s bytes => do
    let (result, d) ← d.submit s bytes
    return (.submitted result, d)
  | .poll s => do
    let (result, d) ← d.poll now s
    return (.polled result, d)
  | .tick => do
    let (turns, d) ← d.tick now
    return (.ticked turns, d)
  | .abandon s => do
    let (result, d) ← d.abandon s
    return (.abandoned result, d)
  | .reset => do
    let (result, d) ← d.reset
    return (.wasReset result, d)
  | .signal s transfer => do
    let (result, d) ← d.signal s transfer
    return (.signalled result, d)
  | .edit s change =>
    let (found, d) := d.edit s change
    return (.edited found, d)

end Resumable
