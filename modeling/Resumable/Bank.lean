import Resumable.Effect
import Resumable.Traced

/-!
# A bank of output pins

Output pins of a board, each under its number. An operation goes to the first pin with the number
that it names. The pins are outputs from the start, so preparing one only reports it, and a pin
that refuses a level is reported and otherwise ignored.
-/

namespace Resumable

/-- Why an output pin refused a level. -/
inductive DriveFailure where
  | other
deriving DecidableEq, Repr

/-- The name of a failure as it is written. -/
def DriveFailure.name : DriveFailure → String
  | .other => "Other"

/-- Pins that can be driven to a level, and may refuse it. -/
class OutputPin (P : Type) where
  drive : P → Level → Except DriveFailure Unit × P

/-- Output pins under their numbers. A number may occur more than once. -/
structure Bank (P : Type) where
  wires : List (PinId × P)
deriving Repr

namespace Bank

variable {P : Type}

/-- What is seen while effects are carried out on a bank. -/
inductive Event where
  /-- The pin at a position of the bank was driven, and took the level or refused it. -/
  | drive (position : Nat) (level : Level) (accepted : Bool)
  | wait (event : Wait.Event)
  | log (line : LogLine)
deriving DecidableEq, Repr

/-- Report a line. -/
def Event.report (severity : Severity) (text : String) : Event := .log ⟨severity, text⟩

/-- The first position that holds a pin number. -/
def position? (bank : Bank P) (pin : PinId) : Option (Fin bank.wires.length) :=
  bank.wires.findFinIdx? (·.1 == pin)

/-- Drive the pin at a position. -/
def driveAt [OutputPin P] (bank : Bank P) (i : Fin bank.wires.length) (pin : PinId)
    (level : Level) : Traced Event (Bank P) :=
  let wire := bank.wires[i]
  let driven := OutputPin.drive wire.2 level
  let after : Bank P := ⟨bank.wires.set i (wire.1, driven.2)⟩
  match driven.1 with
  | .ok () => ⟨[.drive i level true], after⟩
  | .error failure =>
    let wanted := level.name
    let cause := failure.name
    ⟨[.drive i level false, .report .warn s!"pin {pin}: write {wanted} failed: {cause}"], after⟩

/-- Carry out one operation on a pin. -/
def perform [OutputPin P] (bank : Bank P) : PinOp → Traced Event (Bank P)
  | .init pin =>
    match bank.position? pin with
    | none => ⟨[.report .warn s!"pin {pin}: not wired to this bank"], bank⟩
    | some _ => ⟨[.report .trace s!"pin {pin}: init"], bank⟩
  | .setMode pin .output => ⟨[.report .trace s!"pin {pin}: output"], bank⟩
  | .setMode pin .input =>
    ⟨[.report .warn s!"pin {pin}: bank is output-only, mode ignored"], bank⟩
  | .write pin level =>
    match bank.position? pin with
    | none =>
      let wanted := level.name
      ⟨[.report .warn s!"pin {pin}: write {wanted} to unknown pin"], bank⟩
    | some i => bank.driveAt i pin level

/-- Carry out one effect. What is not about a pin passes through. -/
def carryOut [OutputPin P] (bank : Bank P) : Effect → Traced Event (Bank P)
  | .pin op => bank.perform op
  | .wait event => ⟨[.wait event], bank⟩
  | .log line => ⟨[.log line], bank⟩

/-- Carry out effects in their order. -/
def carryOutAll [OutputPin P] (bank : Bank P) : List Effect → Traced Event (Bank P)
  | [] => pure bank
  | e :: rest => do
    let bank ← bank.carryOut e
    bank.carryOutAll rest

end Bank

end Resumable
