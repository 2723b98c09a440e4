import Resumable.Dispatcher.Turn
import Resumable.Fifo

/-!
# Dispatchers

A dispatcher runs one plugin for a fixed number of sessions. It holds a slot for each session, the
table of their waits, and one queue of commands for all of them. This module has its parts, its
registration and its reset.
-/

namespace Resumable

/-- The most commands that wait for admission, over all sessions. -/
abbrev queueCapacity : Nat := 8

/-- A command that waits for admission to a session. -/
structure Pending where
  session : SessionId
  command : Command
deriving DecidableEq, Repr

/-- What a dispatcher keeps for one session. -/
structure Slot (σ : Type) where
  state : σ
  /-- The command in flight, or the last one. -/
  command : Command
  reply : Reply
  /-- Whether a command is in flight. -/
  busy : Bool
  /-- Whether the handler has not yet been called for the command in flight. -/
  first : Bool
deriving DecidableEq, Repr

namespace Slot

variable {σ : Type}

/-- The slot of a session that has served nothing. -/
def blank (state : σ) : Slot σ := ⟨state, Command.empty, Reply.empty, false, false⟩

/-- The slot once a command is admitted to it. -/
def start (slot : Slot σ) (command : Command) : Slot σ :=
  { slot with command, reply := slot.reply.clear, busy := true, first := true }

end Slot

/-- A plugin at work in `n` sessions over a table of `m` waits. -/
structure Dispatcher (σ π : Type) (n m : Nat) where
  plugin : Plugin σ π
  persistent : π
  slots : Vector (Slot σ) n
  waits : Wait.Table m
  queue : Fifo Pending queueCapacity
  positive : 0 < n
  addressable : n ≤ 256
  roomy : n ≤ m

namespace Dispatcher

variable {σ π : Type} {n m : Nat}

/-- The number of the session in a slot, which is its wait context too. -/
def session (i : Fin n) : SessionId := UInt8.ofNat i

/-- The slot number of a session, if there is such a session. -/
def index (n : Nat) (s : SessionId) : Except DispatchError (Fin n) :=
  if h : s.toNat < n then .ok ⟨s.toNat, h⟩ else .error (.noSuchSession s)

/-- The slot of a session, if there is such a session. -/
def slot? (d : Dispatcher σ π n m) (s : SessionId) : Option (Slot σ) := d.slots[s.toNat]?

/-- The slot at a position. -/
def slot (d : Dispatcher σ π n m) (i : Fin n) : Slot σ := d.slots.get i

/-- Replace the slot at a position. -/
def setSlot (d : Dispatcher σ π n m) (i : Fin n) (slot : Slot σ) : Dispatcher σ π n m :=
  { d with slots := d.slots.set i slot i.isLt }

/-- Whether a session has a command in flight. -/
def isBusy (d : Dispatcher σ π n m) (s : SessionId) : Bool := (d.slot? s).any (·.busy)

/-- How many sessions have a command in flight. -/
def inFlight (d : Dispatcher σ π n m) : Nat := d.slots.toList.countP (·.busy)

/-! ### The slots after a replacement -/

@[simp] theorem slot_setSlot (d : Dispatcher σ π n m) (i : Fin n) (slot : Slot σ) :
    (d.setSlot i slot).slot i = slot := by
  show (d.slots.set i.val slot i.isLt)[i.val] = slot
  rw [Vector.getElem_set_self]

/-- Replacing one slot leaves every other slot as it was. -/
theorem slot_setSlot_other (d : Dispatcher σ π n m) {i j : Fin n} (slot : Slot σ) (h : j ≠ i) :
    (d.setSlot i slot).slot j = d.slot j := by
  have hne : i.val ≠ j.val := fun e => h (Fin.ext e.symm)
  show (d.slots.set i.val slot i.isLt)[j.val] = d.slots[j.val]
  rw [Vector.getElem_set_ne _ _ hne]

/-! ### Registration and reset -/

/-- Make one session ready: its slot is blank, the plugin has prepared its state, and it waits for
nothing. -/
def prepareSlot (d : Dispatcher σ π n m) (i : Fin n) :
    Traced Effect (Except Fault Unit × Dispatcher σ π n m) := do
  let (ready, persistent, state) ←
    (d.plugin.prepare d.persistent d.plugin.blank).mapTrace Output.toEffect
  let d := { d.setSlot i (Slot.blank state) with persistent }
  match ready with
  | .error fault => return (.error fault, d)
  | .ok () =>
    let waits ← d.waits.callCancel (session i)
    return (.ok (), { d with waits })

/-- Make sessions ready one after the other, up to the first that the plugin cannot prepare. -/
def prepareSlots (d : Dispatcher σ π n m) :
    List (Fin n) → Traced Effect (Except Fault Unit × Dispatcher σ π n m)
  | [] => return (.ok (), d)
  | i :: rest => do
    let (ready, d) ← d.prepareSlot i
    match ready with
    | .error fault => return (.error fault, d)
    | .ok () => d.prepareSlots rest

/-- Put a plugin to work in `n` sessions over a table of waits. A bad configuration is refused
before any pin is touched. -/
def register (plugin : Plugin σ π) (n : Nat) (waits : Wait.Table m) :
    Traced Effect (Except Fault (Dispatcher σ π n m)) :=
  if hn : 0 < n ∧ n ≤ 256 then
    if hm : n ≤ m then
      match plugin.validate with
      | .error fault => do
        let cause := fault.message
        Traced.emit (plugin.report .warn s!"rejected at registration: {cause}")
        return .error fault
      | .ok () => do
        let d : Dispatcher σ π n m :=
          { plugin, waits
            persistent := plugin.initial
            slots := Vector.replicate n (Slot.blank plugin.blank)
            queue := Fifo.empty (by decide)
            positive := hn.1
            addressable := hn.2
            roomy := hm }
        let (ready, d) ← d.prepareSlots (List.finRange n)
        match ready with
        | .error fault => return .error fault
        | .ok () =>
          Traced.emit (plugin.report .info s!"registered with {n} sessions")
          return .ok d
    else do
      Traced.emit (plugin.report .warn s!"waiter holds {m} contexts, {n} sessions requested")
      return .error (.configuration "waiter smaller than session count")
  else
    return .error (.configuration "session count must be 1..=256")

/-- Drop everything in flight and queued and make the sessions ready again. Outputs stay as they
were last driven. -/
def reset (d : Dispatcher σ π n m) : Traced Effect (Except Fault Unit × Dispatcher σ π n m) := do
  let busy := d.inFlight
  Traced.emitWhen (0 < busy) (d.plugin.report .warn s!"reset with {busy} sessions in flight")
  { d with queue := Fifo.empty (by decide) }.prepareSlots (List.finRange n)

end Dispatcher

end Resumable
