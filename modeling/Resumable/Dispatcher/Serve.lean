import Resumable.Dispatcher.Basic

/-!
# Serving sessions

Commands wait in the queue and are admitted to a session only while it is idle, so a session never
sees a second command before the first has ended. Nothing here blocks: a poll gives one session a
turn, a tick gives one to every session that has work, and a session whose wait is unfinished takes
its turn without running a step.
-/

namespace Resumable.Dispatcher

variable {σ π : Type} {n m : Nat}

/-! ### Commands -/

/-- Queue a command for a session. Commands of a session are admitted in the order in which they
were submitted. -/
def submit (d : Dispatcher σ π n m) (s : SessionId) (bytes : List UInt8) :
    Traced Effect (Except DispatchError Unit × Dispatcher σ π n m) :=
  match index n s with
  | .error e => return (.error e, d)
  | .ok _ =>
    match Command.ofBytes? bytes with
    | none => return (.error (.commandTooLong bytes.length), d)
    | some command =>
      match d.queue.push ⟨s, command⟩ with
      | none => return (.error .queueFull, d)
      | some queue => do
        let name := s.text
        Traced.emit (d.plugin.report .debug s!"queued command for {name}")
        return (.ok (), { d with queue })

/-- Whether a session has work, and whether the work is new. -/
inductive Admission where
  /-- Nothing is in flight and nothing queued. -/
  | idle
  /-- A command was in flight already. -/
  | inFlight
  /-- This command was the oldest one queued, and is in flight now. -/
  | started (command : Command)
deriving DecidableEq, Repr

/-- Give an idle session the oldest command that is queued for it. -/
def engage (d : Dispatcher σ π n m) (i : Fin n) : Admission × Dispatcher σ π n m :=
  if (d.slot i).busy then
    (.inFlight, d)
  else
    match d.queue.takeFirst (fun p => p.session.toNat == i.val) with
    | (none, queue) => (.idle, { d with queue })
    | (some next, queue) =>
      (.started next.command, { d.setSlot i ((d.slot i).start next.command) with queue })

/-! ### Turns -/

/-- What the handler of a session is called with. -/
def callOf (d : Dispatcher σ π n m) (now : Instant) (i : Fin n) : Call :=
  { now, context := session i, command := (d.slot i).command.bytes, first := (d.slot i).first }

/-- Call the handler of a session once. There is no ending while the session is suspended; a fault
leaves neither a reply nor a wait. -/
def run (d : Dispatcher σ π n m) (now : Instant) (i : Fin n) :
    Traced Effect (Option Ending × Dispatcher σ π n m) := do
  let slot := d.slot i
  let (outcome, persistent, w) ←
    d.plugin.handle (d.callOf now i) d.persistent ⟨slot.state, d.waits, slot.reply⟩
  let slot := { slot with state := w.state, reply := w.reply, first := false }
  match outcome with
  | .ok .waiting => return (none, { d.setSlot i slot with persistent, waits := w.waits })
  | .ok .ok =>
    return (some (.ok w.reply),
      { d.setSlot i { slot with busy := false } with persistent, waits := w.waits })
  | .error fault =>
    let waits ← w.waits.callCancel (session i)
    return (some (.error fault),
      { d.setSlot i { slot with busy := false, reply := w.reply.clear } with persistent, waits })

/-- The turn of a session with a command in flight. -/
def takeTurn (d : Dispatcher σ π n m) (now : Instant) (i : Fin n) (admitted : Option Command) :
    Turn × Dispatcher σ π n m :=
  let ran := d.run now i
  ({ session := session i, admitted, call := d.callOf now i,
     handling := ran.trace, ending := ran.value.1 },
    ran.value.2)

/-- Give a session a turn, if it has work. -/
def turn (d : Dispatcher σ π n m) (now : Instant) (i : Fin n) :
    Option Turn × Dispatcher σ π n m :=
  match d.engage i with
  | (.idle, d) => (none, d)
  | (.inFlight, d) =>
    let (t, d) := d.takeTurn now i none
    (some t, d)
  | (.started command, d) =>
    let (t, d) := d.takeTurn now i (some command)
    (some t, d)

/-- Give sessions a turn one after the other, and list the turns of those that had work. -/
def turns (d : Dispatcher σ π n m) (now : Instant) :
    List (Fin n) → List Turn × Dispatcher σ π n m
  | [] => ([], d)
  | i :: rest =>
    let (t, d) := d.turn now i
    let (ts, d) := d.turns now rest
    (t.toList ++ ts, d)

/-- Give one session a turn. -/
def poll (d : Dispatcher σ π n m) (now : Instant) (s : SessionId) :
    Traced Effect (Except DispatchError Turn × Dispatcher σ π n m) :=
  match index n s with
  | .error e => return (.error e, d)
  | .ok i =>
    match d.turn now i with
    | (none, after) => return (.error (.idle s), after)
    | (some t, after) => ⟨t.pollEffects d.plugin, .ok t, after⟩

/-- Give every session that has work a turn, in the order of their numbers. -/
def tick (d : Dispatcher σ π n m) (now : Instant) :
    Traced Effect (List Turn × Dispatcher σ π n m) :=
  let (ts, after) := d.turns now (List.finRange n)
  ⟨ts.flatMap (Turn.tickEffects d.plugin), ts, after⟩

/-! ### Interventions -/

/-- Stop driving a session. Its output stays as it was last driven, and the commands queued for it
stay queued. -/
def abandon (d : Dispatcher σ π n m) (s : SessionId) :
    Traced Effect (Except DispatchError Unit × Dispatcher σ π n m) :=
  match index n s with
  | .error e => return (.error e, d)
  | .ok i => do
    let name := s.text
    Traced.emitWhen (d.slot i).busy
      (d.plugin.report .warn s!"abandoning {name}, outputs left as last driven")
    let waits ← d.waits.callCancel s
    return (.ok (), { d.setSlot i (Slot.blank d.plugin.blank) with waits })

/-- Report the end of a bus transfer to a session. The answer says whether it was waiting for it. -/
def signal (d : Dispatcher σ π n m) (s : SessionId) (transfer : Transfer) :
    Traced Effect (Except DispatchError Bool × Dispatcher σ π n m) :=
  match index n s with
  | .error e => return (.error e, d)
  | .ok _ => do
    let (heard, waits) ← d.waits.callSignal s transfer
    return (.ok heard, { d with waits })

/-- Change the stored state of a session, for recovery. The answer says whether it exists. -/
def edit (d : Dispatcher σ π n m) (s : SessionId) (f : σ → σ) : Bool × Dispatcher σ π n m :=
  match index n s with
  | .error _ => (false, d)
  | .ok i => (true, d.setSlot i { d.slot i with state := f (d.slot i).state })

end Resumable.Dispatcher
