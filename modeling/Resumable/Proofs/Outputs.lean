import Resumable.Plugin.Latch
import Resumable.Plugin.Ramp
import Resumable.Proofs.Blocking
import Resumable.Proofs.Schedule

/-!
# Plugins keep to their pin

A plugin that drives one output checks the pin before it touches it. This module follows every
pin operation from the steps of a routine up to the runs of a dispatcher: a preparation makes the
pin an output, a handler call does nothing to pins but write to this one, and between resets nothing
but handler calls does anything to pins or waits. So a dispatcher that was registered at all never
touches a pin that the board needs for itself.
-/

namespace Resumable

variable {σ π : Type} {n m : Nat} {pin : PinId}

/-! ### Pins that may be driven -/

/-- The pin exists, and the board does not need it for itself. -/
structure Board.Free (pin : PinId) : Prop where
  exists_on_board : pin < Board.pinCount
  bootStrap : pin ≠ Board.bootStrap
  spiFlash : Board.spiFlash.contains pin = false
  usb : Board.usb.contains pin = false
  uart0 : Board.uart0.contains pin = false

theorem Board.validateOutput_ok_iff (pin : PinId) :
    Board.validateOutput pin = .ok () ↔ Board.Free pin := by
  unfold Board.validateOutput
  constructor
  · intro h
    split at h
    · cases h
    · split at h
      · cases h
      · split at h
        · cases h
        · split at h
          · cases h
          · rename_i hcount hstrap hflash hconsole
            rw [Bool.or_eq_true, not_or] at hconsole
            exact ⟨UInt16.not_le.mp hcount, hstrap, Bool.eq_false_iff.mpr hflash,
              Bool.eq_false_iff.mpr hconsole.1, Bool.eq_false_iff.mpr hconsole.2⟩
  · intro h
    simp [UInt16.not_le.mpr h.exists_on_board, h.bootStrap, h.spiFlash, h.usb, h.uart0]

theorem Plugin.validateOutput_ok_iff (pin : PinId) :
    Plugin.validateOutput pin = .ok () ↔ Board.validateOutput pin = .ok () := by
  unfold Plugin.validateOutput
  cases Board.validateOutput pin with
  | ok u => simp
  | error rejection => simp

/-! ### Pin operations in a trace -/

def pinOps (effects : List Effect) : List PinOp := effects.filterMap Effect.pinOp?

@[simp] theorem pinOps_append (first second : List Effect) :
    pinOps (first ++ second) = pinOps first ++ pinOps second :=
  List.filterMap_append ..

@[simp] theorem pinOps_wait (event : Wait.Event) : pinOps [.wait event] = [] := rfl

theorem pinOps_deeds (effects : List Effect) : pinOps (deeds effects) = pinOps effects := by
  rw [pinOps, deeds, List.filterMap_filter]
  refine congrArg (List.filterMap · effects) (funext fun effect => ?_)
  cases effect with
  | pin op => rfl
  | wait event => exact ite_self _
  | log line => rfl

/-- Making a pin an output, `k` times over. -/
def outputPairs (pin : PinId) (k : Nat) : List PinOp :=
  (List.replicate k [PinOp.init pin, PinOp.setMode pin .output]).flatten

/-- The trace does nothing to pins but write to this one. -/
def WritesOnly (pin : PinId) (effects : List Effect) : Prop :=
  ∀ op ∈ pinOps effects, ∃ level, op = .write pin level

theorem writesOnly_of_nil {effects : List Effect} (h : pinOps effects = []) :
    WritesOnly pin effects := by
  intro op hop
  rw [h] at hop
  cases hop

theorem writesOnly_append {first second : List Effect} :
    WritesOnly pin (first ++ second) ↔ WritesOnly pin first ∧ WritesOnly pin second := by
  simp only [WritesOnly, pinOps_append, List.mem_append, or_imp, forall_and]

/-! ### Routines -/

section Routine

variable {L C : Type} [DecidableEq L] [Label L] {routine : Routine L C}

/-- Every step does nothing to pins but write to this one, from whatever progress it starts. -/
def Routine.WritesOnly (routine : Routine L C) (pin : PinId) : Prop :=
  ∀ l progress command,
    Resumable.WritesOnly pin ((routine.step l progress command).trace.map Output.toEffect)

variable [Inhabited C] {l : L} {call : Call} {w : Workspace (Progress C) m}
  {x : Traced Effect (Outcome × Workspace (Progress C) m)}

theorem Routine.Ran.writesOnly (h : Routine.Ran routine l call w x)
    (hroutine : routine.WritesOnly pin) : Resumable.WritesOnly pin x.trace := by
  have houtputs := hroutine l w.state call.command
  cases h with
  | failed hstep =>
    rw [hstep] at houtputs
    exact houtputs
  | rewound hstep =>
    rw [hstep] at houtputs
    exact houtputs
  | suspended hstep =>
    rw [hstep] at houtputs
    refine writesOnly_append.mpr ⟨houtputs, writesOnly_of_nil ?_⟩
    rw [← pinOps_deeds, deeds_append, deeds_callArm]
    rfl
  | overfull hstep =>
    rw [hstep] at houtputs
    exact houtputs
  | finished hstep =>
    rw [hstep] at houtputs
    exact writesOnly_append.mpr ⟨houtputs, writesOnly_of_nil rfl⟩

/-- A call writes to no other pin, also when the resume point that it finds is no label's. -/
theorem Routine.resume_writesOnly (hroutine : routine.WritesOnly pin) (call : Call)
    (w : Workspace (Progress C) m) : Resumable.WritesOnly pin (routine.resume call w).trace := by
  have hresumed := Routine.resumed_resume routine call w
  generalize routine.resume call w = x at hresumed
  cases hresumed with
  | unknown => exact writesOnly_of_nil rfl
  | entered _ hran => exact hran.writesOnly hroutine
  | pending => exact writesOnly_of_nil rfl
  | elapsed _ _ _ hran =>
    exact writesOnly_append.mpr ⟨writesOnly_of_nil (pinOps_wait _), hran.writesOnly hroutine⟩

end Routine

theorem writesOnly_write (pin : PinId) (level : Level) :
    WritesOnly pin [.pin (.write pin level)] := by
  intro op hop
  obtain rfl := List.mem_singleton.mp hop
  exact ⟨level, rfl⟩

namespace Blink

theorem nextBlink_writesOnly (pin : PinId) (p : Progress Counters) :
    WritesOnly pin ((nextBlink pin p).trace.map Output.toEffect) := by
  unfold nextBlink
  split
  · exact writesOnly_write pin .high
  · exact writesOnly_of_nil rfl

theorem routine_writesOnly (pin : PinId) : (routine pin).WritesOnly pin := by
  intro l p command
  cases l with
  | entry =>
    simp only [routine]
    cases readRequest command with
    | error fault => exact writesOnly_of_nil rfl
    | ok request => exact nextBlink_writesOnly pin _
  | afterHigh => exact writesOnly_write pin .low
  | afterLow => exact nextBlink_writesOnly pin _

end Blink

namespace Ramp

theorem descend_pinOps (p : Progress Counters) :
    pinOps ((descend p).trace.map Output.toEffect) = [] := by
  unfold descend
  split <;> rfl

theorem ascend_pinOps (p : Progress Counters) :
    pinOps ((ascend p).trace.map Output.toEffect) = [] := by
  unfold ascend
  dsimp only
  split
  · rfl
  · exact descend_pinOps p

theorem nextBlink_writesOnly (pin : PinId) (p : Progress Counters) :
    WritesOnly pin ((nextBlink pin p).trace.map Output.toEffect) := by
  unfold nextBlink
  split
  · exact writesOnly_write pin .high
  · exact writesOnly_of_nil (ascend_pinOps _)

theorem routine_writesOnly (pin : PinId) : (routine pin).WritesOnly pin := by
  intro l p command
  cases l with
  | entry =>
    simp only [routine]
    cases readRequest command with
    | error fault => exact writesOnly_of_nil rfl
    | ok request => exact nextBlink_writesOnly pin _
  | afterHigh => exact writesOnly_write pin .low
  | afterLow => exact nextBlink_writesOnly pin _
  | ascending => exact writesOnly_of_nil (ascend_pinOps _)
  | descending => exact writesOnly_of_nil (descend_pinOps p)

end Ramp

/-! ### Plugins -/

/-- The plugin checks this pin, makes it an output whenever it prepares a session, which it never
refuses, and does nothing else to pins but write to this one. -/
structure Plugin.Drives (plugin : Plugin σ π) (pin : PinId) : Prop where
  validate : plugin.validate = Plugin.validateOutput pin
  ready : ∀ persistent state, (plugin.prepare persistent state).value.1 = .ok ()
  prepared : ∀ persistent state,
    pinOps ((plugin.prepare persistent state).trace.map Output.toEffect) =
      [.init pin, .setMode pin .output]
  handled : ∀ {m : Nat} (call : Call) (persistent : π) (w : Workspace σ m),
    WritesOnly pin (plugin.handle call persistent w).trace

theorem Plugin.resumeRoutine_writesOnly {L C : Type} [DecidableEq L] [Label L] [Inhabited C]
    {routine : Routine L C} (hroutine : routine.WritesOnly pin) (call : Call) (persistent : π)
    (w : Workspace (Progress C) m) :
    WritesOnly pin (Plugin.resumeRoutine routine call persistent w).trace :=
  writesOnly_append.mpr ⟨routine.resume_writesOnly hroutine call w, writesOnly_of_nil rfl⟩

theorem Blink.plugin_drives (pin : PinId) : (Blink.plugin pin).Drives pin where
  validate := rfl
  ready _ _ := rfl
  prepared _ _ := rfl
  handled := Plugin.resumeRoutine_writesOnly (Blink.routine_writesOnly pin)

theorem Ramp.plugin_drives (pin : PinId) : (Ramp.plugin pin).Drives pin where
  validate := rfl
  ready _ _ := rfl
  prepared _ _ := rfl
  handled := Plugin.resumeRoutine_writesOnly (Ramp.routine_writesOnly pin)

theorem Latch.handle_writesOnly (pin : PinId) (call : Call) (tally : Latch.Tally)
    (w : Workspace Unit m) : WritesOnly pin (Latch.handle pin call tally w).trace := by
  unfold Latch.handle
  cases readRequest call.command with
  | error fault => exact writesOnly_of_nil rfl
  | ok request =>
    cases hpush : w.reply.push request.count with
    | error cause =>
      simp only [hpush]
      exact writesOnly_write pin .high
    | ok reply =>
      simp only [hpush]
      exact writesOnly_append.mpr ⟨writesOnly_write pin .high, writesOnly_of_nil rfl⟩

theorem Latch.plugin_drives (pin : PinId) : (Latch.plugin pin).Drives pin where
  validate := rfl
  ready _ _ := rfl
  prepared _ _ := rfl
  handled := Latch.handle_writesOnly pin

/-- Blink, ramp or latch, at this pin. -/
inductive Plugin.StockOn (pin : PinId) : {σ π : Type} → Plugin σ π → Prop
  | blink : StockOn pin (Blink.plugin pin)
  | ramp : StockOn pin (Ramp.plugin pin)
  | latch : StockOn pin (Latch.plugin pin)

theorem Plugin.StockOn.drives {plugin : Plugin σ π} (h : plugin.StockOn pin) :
    plugin.Drives pin := by
  cases h with
  | blink => exact Blink.plugin_drives pin
  | ramp => exact Ramp.plugin_drives pin
  | latch => exact Latch.plugin_drives pin

/-! ### Turns -/

namespace Dispatcher

section Turns

variable {d : Dispatcher σ π n m} {now : Instant} {i : Fin n}

theorem Served.writesOnly {x : Traced Effect (Option Ending × Dispatcher σ π n m)}
    (h : Served d now i x) (hdrives : d.plugin.Drives pin) : WritesOnly pin x.trace := by
  have hhandle := hdrives.handled (d.callOf now i) d.persistent
    ⟨(d.slot i).state, d.waits, (d.slot i).reply⟩
  change WritesOnly pin (d.handled now i).trace at hhandle
  cases h with
  | suspended hhandled =>
    rw [hhandled] at hhandle
    exact hhandle
  | answered hhandled =>
    rw [hhandled] at hhandle
    exact hhandle
  | faulted hhandled =>
    rw [hhandled] at hhandle
    exact writesOnly_append.mpr ⟨hhandle, writesOnly_of_nil rfl⟩

theorem turn_writesOnly (hdrives : d.plugin.Drives pin) (now : Instant) (i : Fin n) {t : Turn}
    (ht : (d.turn now i).1 = some t) : WritesOnly pin t.handling := by
  have hturned := turned_turn d now i
  generalize d.turn now i = y at hturned ht
  cases hturned with
  | idle => cases ht
  | continued _ hserved =>
    cases ht
    exact hserved.writesOnly hdrives
  | begun _ _ _ _ hserved =>
    cases ht
    exact hserved.writesOnly hdrives

theorem turns_writesOnly (now : Instant) (sessions : List (Fin n)) (d : Dispatcher σ π n m)
    (hdrives : d.plugin.Drives pin) :
    ∀ t ∈ (d.turns now sessions).1, WritesOnly pin t.handling := by
  induction sessions generalizing d with
  | nil => exact nofun
  | cons i rest ih =>
    have hkept : (d.turn now i).2.plugin.Drives pin := by
      rw [(turned_turn d now i).plugin]
      exact hdrives
    intro t ht
    rw [turns_cons, List.mem_append] at ht
    rcases ht with ht | ht
    · exact turn_writesOnly hdrives now i (Option.mem_toList.mp ht)
    · exact ih (d.turn now i).2 hkept t ht

end Turns

/-! ### Preparation -/

theorem prepareSlot_pinOps (d : Dispatcher σ π n m) (hdrives : d.plugin.Drives pin) (i : Fin n) :
    (d.prepareSlot i).value.1 = .ok () ∧
      pinOps (d.prepareSlot i).trace = [.init pin, .setMode pin .output] := by
  have hready := hdrives.ready d.persistent d.plugin.blank
  have hpins := hdrives.prepared d.persistent d.plugin.blank
  unfold prepareSlot
  rcases hprepare : d.plugin.prepare d.persistent d.plugin.blank with
    ⟨trace, ready, persistent, state⟩
  rw [hprepare] at hready hpins
  change ready = .ok () at hready
  subst hready
  refine ⟨rfl, ?_⟩
  change pinOps (trace.map Output.toEffect ++ ([.wait (.cancel (session i))] ++ [])) = _
  simpa using hpins

theorem prepareSlots_pinOps (sessions : List (Fin n)) (d : Dispatcher σ π n m)
    (hdrives : d.plugin.Drives pin) :
    (d.prepareSlots sessions).value.1 = .ok () ∧
      pinOps (d.prepareSlots sessions).trace = outputPairs pin sessions.length := by
  induction sessions generalizing d with
  | nil => exact ⟨rfl, rfl⟩
  | cons i rest ih =>
    obtain ⟨hready, hpins⟩ := prepareSlot_pinOps d hdrives i
    have hplugin := (prepared_prepareSlot d i).plugin
    rcases hprepare : d.prepareSlot i with ⟨trace, ready, after⟩
    rw [hprepare] at hready hpins hplugin
    change ready = .ok () at hready
    change after.plugin = d.plugin at hplugin
    subst hready
    obtain ⟨hrest, hlater⟩ := ih after (hplugin ▸ hdrives)
    have hcons : d.prepareSlots (i :: rest) =
        ⟨trace ++ (after.prepareSlots rest).trace, (after.prepareSlots rest).value⟩ := by
      rw [prepareSlots, hprepare]
      rfl
    rw [hcons]
    refine ⟨hrest, ?_⟩
    rw [pinOps_append, hpins, hlater]
    rfl

end Dispatcher

/-! ### Registration -/

section Register

variable {plugin : Plugin σ π}

theorem register_accepted (hdrives : plugin.Drives pin) (waits : Wait.Table m)
    (hcount : 0 < n ∧ n ≤ 256) (hroom : n ≤ m) (hpin : Board.validateOutput pin = .ok ()) :
    (∃ d, (Dispatcher.register plugin n waits).value = .ok d) ∧
      pinOps (Dispatcher.register plugin n waits).trace = outputPairs pin n := by
  have hvalid : plugin.validate = .ok () := by
    rw [hdrives.validate, Plugin.validateOutput_ok_iff, hpin]
  let blank : Dispatcher σ π n m :=
    ⟨plugin, plugin.initial, Vector.replicate n (Slot.blank plugin.blank), waits,
      Fifo.empty (by decide), hcount.1, hcount.2, hroom⟩
  obtain ⟨hready, hpins⟩ := Dispatcher.prepareSlots_pinOps (List.finRange n) blank hdrives
  rcases hprepare : blank.prepareSlots (List.finRange n) with ⟨trace, ready, after⟩
  rw [hprepare] at hready hpins
  change ready = .ok () at hready
  subst hready
  have hregister : Dispatcher.register plugin n waits =
      ⟨trace ++ [plugin.report .info s!"registered with {n} sessions"], .ok after⟩ := by
    unfold Dispatcher.register
    rw [dif_pos hcount, dif_pos hroom, hvalid]
    change blank.prepareSlots (List.finRange n) >>= _ = _
    rw [hprepare]
    rfl
  rw [hregister]
  refine ⟨⟨after, rfl⟩, ?_⟩
  rw [pinOps_append, hpins, List.length_finRange]
  exact List.append_nil _

theorem register_refused (hdrives : plugin.Drives pin) (waits : Wait.Table m)
    (h : ¬ ((0 < n ∧ n ≤ 256) ∧ n ≤ m ∧ Board.validateOutput pin = .ok ())) :
    (∃ fault, (Dispatcher.register plugin n waits).value = .error fault) ∧
      pinOps (Dispatcher.register plugin n waits).trace = [] := by
  unfold Dispatcher.register
  by_cases hcount : 0 < n ∧ n ≤ 256
  · rw [dif_pos hcount]
    by_cases hroom : n ≤ m
    · rw [dif_pos hroom]
      cases hvalid : plugin.validate with
      | error fault => exact ⟨⟨fault, rfl⟩, rfl⟩
      | ok u =>
        rw [hdrives.validate, Plugin.validateOutput_ok_iff] at hvalid
        exact absurd ⟨hcount, hroom, hvalid⟩ h
    · rw [dif_neg hroom]
      exact ⟨⟨_, rfl⟩, rfl⟩
  · rw [dif_neg hcount]
    exact ⟨⟨_, rfl⟩, rfl⟩

end Register

/-! ### What is done in turns -/

def Moment.turns (y : Moment σ π n m) : List Turn := y.answer.toList.flatMap Answer.turns

theorem Device.turns_operate (x : Device σ π n m) (op : Operation σ) :
    (x.meet (.operate op)).turns = (x.dispatcher.perform x.now op).value.1.turns :=
  List.append_nil _

theorem Turn.deeds_admission (plugin : Plugin σ π) (t : Turn) :
    deeds (t.admission plugin) = [] := by
  unfold admission
  split <;> rfl

theorem Turn.deeds_conclusion (plugin : Plugin σ π) (t : Turn) :
    deeds (t.conclusion plugin) = [] := by
  unfold conclusion
  split <;> rfl

theorem Turn.deeds_pollEffects (plugin : Plugin σ π) (t : Turn) :
    deeds (t.pollEffects plugin) = deeds t.handling := by
  rw [pollEffects, deeds_append, deeds_admission, List.nil_append]

theorem Turn.deeds_tickEffects (plugin : Plugin σ π) (t : Turn) :
    deeds (t.tickEffects plugin) = deeds t.handling := by
  have hvisit : deeds (t.visit plugin :: t.handling) = deeds t.handling := rfl
  rw [tickEffects, deeds_append, deeds_append, deeds_admission, hvisit, deeds_conclusion,
    List.append_nil, List.nil_append]

namespace Dispatcher

variable (d : Dispatcher σ π n m) (now : Instant)

theorem deeds_submit (s : SessionId) (bytes : List UInt8) :
    deeds (d.submit s bytes).trace = [] := by
  unfold submit
  split
  · rfl
  · split
    · rfl
    · split <;> rfl

theorem deeds_abandon (s : SessionId) : deeds (d.abandon s).trace = [] := by
  unfold abandon
  split
  · rfl
  · cases (d.slot _).busy <;> rfl

theorem deeds_signal (s : SessionId) (transfer : Transfer) :
    deeds (d.signal s transfer).trace = [] := by
  unfold signal
  split
  · rfl
  · show deeds ((if (d.waits.signal s transfer).1 then [] else [_]) ++ []) = []
    split <;> rfl

theorem deeds_poll (s : SessionId) :
    deeds (d.poll now s).trace =
      (Answer.polled (d.poll now s).value.1).turns.flatMap fun t => deeds t.handling := by
  unfold poll
  split
  · rfl
  · split
    · rfl
    · exact (Turn.deeds_pollEffects _ _).trans (List.append_nil _).symm

theorem deeds_tick :
    deeds (d.tick now).trace = (d.tick now).value.1.flatMap fun t => deeds t.handling := by
  have hturn : (fun t => deeds (t.tickEffects d.plugin)) = fun t : Turn => deeds t.handling :=
    funext (Turn.deeds_tickEffects d.plugin)
  rw [← hturn]
  exact List.filter_flatMap

theorem deeds_perform {op : Operation σ} (hop : op ≠ .reset) :
    deeds (d.perform now op).trace =
      (d.perform now op).value.1.turns.flatMap fun t => deeds t.handling := by
  -- Giving the answer adds nothing to a trace.
  have hanswer : ∀ trace, deeds (trace ++ []) = deeds trace := by
    intro trace
    rw [List.append_nil]
  cases op with
  | submit s bytes => exact (hanswer _).trans (d.deeds_submit s bytes)
  | poll s => exact (hanswer _).trans (d.deeds_poll now s)
  | tick => exact (hanswer _).trans (d.deeds_tick now)
  | abandon s => exact (hanswer _).trans (d.deeds_abandon s)
  | reset => exact absurd rfl hop
  | signal s transfer => exact (hanswer _).trans (d.deeds_signal s transfer)
  | edit s change => rfl

end Dispatcher

/-- Pins are operated and waits registered in turns only, resets apart. -/
theorem Device.meet_deeds (x : Device σ π n m) (h : Happening σ)
    (hreset : (x.meet h).isReset = false) :
    deeds (x.meet h).effects = (x.meet h).turns.flatMap fun t => deeds t.handling := by
  cases h with
  | advance length => rfl
  | operate op =>
    have hop : op ≠ .reset := by
      rintro rfl
      cases hreset
    rw [x.turns_operate op]
    exact x.dispatcher.deeds_perform x.now hop

theorem Device.meet_pinOps (x : Device σ π n m) (h : Happening σ)
    (hreset : (x.meet h).isReset = false) :
    pinOps (x.meet h).effects = (x.meet h).turns.flatMap fun t => pinOps t.handling := by
  rw [← pinOps_deeds, x.meet_deeds h hreset, pinOps, List.filterMap_flatMap]
  exact congrArg (List.flatMap · _) (funext fun t => pinOps_deeds t.handling)

theorem Device.effects_of_isReset {x : Device σ π n m} {h : Happening σ}
    (hreset : (x.meet h).isReset = true) : (x.meet h).effects = x.dispatcher.reset.trace := by
  cases h with
  | advance length => cases hreset
  | operate op =>
    cases op with
    | reset => exact List.append_nil _
    | submit s bytes => cases hreset
    | poll s => cases hreset
    | tick => cases hreset
    | abandon s => cases hreset
    | signal s transfer => cases hreset
    | edit s change => cases hreset

/-! ### Runs -/

namespace Dispatcher

variable {d : Dispatcher σ π n m}

theorem reset_pinOps (hdrives : d.plugin.Drives pin) :
    pinOps d.reset.trace = outputPairs pin n := by
  have hpins := (prepareSlots_pinOps (List.finRange n) d.emptied hdrives).2
  rw [List.length_finRange] at hpins
  unfold reset
  rw [Traced.trace_bind, pinOps_append, Traced.trace_emitWhen]
  split
  · exact hpins
  · exact hpins

theorem perform_writesOnly (hdrives : d.plugin.Drives pin) (now : Instant) (op : Operation σ) :
    ∀ t ∈ (d.perform now op).value.1.turns, WritesOnly pin t.handling := by
  intro t ht
  cases op with
  | poll s =>
    change t ∈ (Answer.polled (d.poll now s).value.1).turns at ht
    rcases poll_cases d now s with hvalue | ⟨i, -, hvalue⟩
    · rw [hvalue] at ht
      cases ht
    · rw [hvalue, Device.turns_polled] at ht
      exact turn_writesOnly hdrives now i (Option.mem_toList.mp ht)
  | tick => exact turns_writesOnly now (List.finRange n) d hdrives t ht
  | submit s bytes => cases ht
  | abandon s => cases ht
  | reset => cases ht
  | signal s transfer => cases ht
  | edit s change => cases ht

end Dispatcher

/-- What a moment of a run may do to pins: a reset makes the pin an output once for each session,
and nothing else does more than write to it. -/
def Moment.KeepsTo (pin : PinId) (y : Moment σ π n m) : Prop :=
  if y.isReset then pinOps y.effects = outputPairs pin n else WritesOnly pin y.effects

theorem Device.turns_writesOnly (x : Device σ π n m) (hdrives : x.dispatcher.plugin.Drives pin)
    (h : Happening σ) : ∀ t ∈ (x.meet h).turns, WritesOnly pin t.handling := by
  intro t ht
  cases h with
  | advance length => cases ht
  | operate op =>
    rw [x.turns_operate op] at ht
    exact Dispatcher.perform_writesOnly hdrives x.now op t ht

theorem Device.meet_keepsTo (x : Device σ π n m) (hdrives : x.dispatcher.plugin.Drives pin)
    (h : Happening σ) : (x.meet h).KeepsTo pin := by
  unfold Moment.KeepsTo
  split
  case isTrue hreset =>
    rw [effects_of_isReset hreset]
    exact Dispatcher.reset_pinOps hdrives
  case isFalse hreset =>
    intro op hop
    rw [x.meet_pinOps h (Bool.eq_false_iff.mpr hreset)] at hop
    obtain ⟨t, ht, hop⟩ := List.mem_flatMap.mp hop
    exact x.turns_writesOnly hdrives h t ht op hop

theorem Device.run_keepsTo (happenings : List (Happening σ)) (x : Device σ π n m)
    (hdrives : x.dispatcher.plugin.Drives pin) : ∀ y ∈ x.run happenings, y.KeepsTo pin := by
  induction happenings generalizing x with
  | nil =>
    intro y hy
    cases hy
  | cons h rest ih =>
    intro y hy
    rcases List.mem_cons.mp hy with rfl | hy
    · exact x.meet_keepsTo hdrives h
    · refine ih (x.meet h).after ?_ y hy
      rw [x.meet_plugin h]
      exact hdrives

/-- A blink, ramp or latch is registered exactly when its sessions can be numbered, the table has
room for them and the pin is free for use. A registration that is refused touches no pin, one that
succeeds makes the pin an output once for each session, and whatever happens then, changes of a
stored state included, no other pin is ever touched. -/
theorem reserved_pins_untouched {plugin : Plugin σ π} (hstock : plugin.StockOn pin) (n : Nat)
    (waits : Wait.Table m) :
    let registered := Dispatcher.register plugin n waits
    (Board.validateOutput pin = .ok () ↔ Board.Free pin) ∧
      ((∃ d, registered.value = .ok d) ↔
        (1 ≤ n ∧ n ≤ 256) ∧ n ≤ m ∧ Board.validateOutput pin = .ok ()) ∧
      (∀ fault, registered.value = .error fault → pinOps registered.trace = []) ∧
      ∀ d, registered.value = .ok d →
        pinOps registered.trace = outputPairs pin n ∧
          ∀ (start : Instant) (happenings : List (Happening σ)),
            ∀ y ∈ (Device.mk start d).run happenings, y.KeepsTo pin := by
  intro registered
  have hdrives := hstock.drives
  refine ⟨Board.validateOutput_ok_iff pin, ?_⟩
  by_cases hsound : (0 < n ∧ n ≤ 256) ∧ n ≤ m ∧ Board.validateOutput pin = .ok ()
  · obtain ⟨⟨d, hd⟩, hpins⟩ := register_accepted hdrives waits hsound.1 hsound.2.1 hsound.2.2
    refine ⟨iff_of_true ⟨d, hd⟩ hsound, ?_, ?_⟩
    · intro fault hfault
      rw [hd] at hfault
      cases hfault
    · intro e he
      refine ⟨hpins, fun start happenings => ?_⟩
      refine Device.run_keepsTo happenings ⟨start, e⟩ ?_
      rw [(Dispatcher.idle_of_register he).1]
      exact hdrives
  · obtain ⟨⟨fault, hfault⟩, hpins⟩ := register_refused hdrives waits hsound
    have hnone : ∀ d, registered.value ≠ .ok d := by
      intro d hd
      rw [hfault] at hd
      cases hd
    refine ⟨iff_of_false (fun ⟨d, hd⟩ => hnone d hd) hsound, fun _ _ => hpins, ?_⟩
    intro d hd
    exact absurd hd (hnone d)

/-- Two ramps at pin 8, one of them sent to a label that does not exist; none at a pin of the
program memory. -/
theorem reserved_pins_untouched_ramp :
    (∃ fault, (Dispatcher.register (Ramp.plugin 12) 2 (Wait.Table.empty : Wait.Table 2)).value =
        .error fault ∧
      pinOps (Dispatcher.register (Ramp.plugin 12) 2 (Wait.Table.empty : Wait.Table 2)).trace =
        []) ∧
    ∃ d : Dispatcher (Progress Ramp.Counters) Unit 2 2,
      (Dispatcher.register (Ramp.plugin 8) 2 Wait.Table.empty).value = .ok d ∧
      let x : Device (Progress Ramp.Counters) Unit 2 2 := ⟨0, d⟩
      let happenings : List (Happening (Progress Ramp.Counters)) :=
        [.operate (.submit 0 [1, 5, 0]), .operate (.submit 1 [2, 0, 0]), .operate .tick,
          .operate (.edit 0 fun p => { p with resumePoint := 77 }), .operate .tick,
          .operate .reset]
      (x.run happenings).map (fun y => pinOps y.effects) =
        [[], [], [.write 8 .high, .write 8 .high], [], [.write 8 .low],
          outputPairs 8 2] ∧
      ∀ y ∈ x.run happenings, y.KeepsTo 8 := by
  have hrefused := reserved_pins_untouched (.ramp : (Ramp.plugin 12).StockOn 12) 2
    (Wait.Table.empty : Wait.Table 2)
  have haccepted := reserved_pins_untouched (.ramp : (Ramp.plugin 8).StockOn 8) 2
    (Wait.Table.empty : Wait.Table 2)
  refine ⟨⟨_, rfl, hrefused.2.2.1 _ rfl⟩, _, rfl, by decide, ?_⟩
  exact (haccepted.2.2.2 _ rfl).2 0 _

end Resumable
