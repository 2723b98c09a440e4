import Resumable.Proofs.Coherence
import Resumable.Proofs.Signals

/-!
# A used slot serves like a new one

Admission does not make a slot blank: the state of the session and the storage of its reply stay as
the last command left them. For routines whose entry overwrites the stored request and counters,
nothing of that can be seen. Two dispatchers that differ in one slot only, and there in leftovers
only, answer every operation alike; and once the session has had a turn or was cleared, they hold
the same state for it.
-/

namespace Resumable

variable {L C σ π : Type} [DecidableEq L] [Label L] {n m : Nat} {i j : Fin n}

/-! ### Leftovers in a reply -/

namespace Reply

/-- A reply that takes its first byte as the empty one does. -/
def Ready (r : Reply) : Prop := ∀ b, r.push b = empty.push b

theorem ready_empty : empty.Ready := fun _ => rfl

theorem push_empty (b : UInt8) :
    empty.push b = .ok ⟨empty.storage.set 0 b, 1, by decide⟩ := rfl

theorem ready_clear_of_push {r s : Reply} {b : UInt8} (hr : r.Ready) (h : r.push b = .ok s) :
    s.clear.Ready := by
  rw [hr, push_empty] at h
  cases h
  intro b'
  show Except.ok (⟨(empty.storage.set 0 b).set 0 b', 1, _⟩ : Reply) = _
  simp only [Vector.set_set]
  rfl

theorem Ready.clear {r : Reply} (hr : r.Ready) : r.clear.Ready := by
  have hpush := hr 0
  rw [push_empty] at hpush
  unfold push at hpush
  split at hpush
  case isTrue =>
    have hlength : r.length = 0 := by
      have hreply := Except.ok.inj hpush
      have hsucc := congrArg Reply.length hreply
      exact Nat.succ.inj hsucc
    obtain ⟨storage, length, fits⟩ := r
    cases hlength
    exact hr
  case isFalse => cases hpush

end Reply

/-! ### Slots that differ in leftovers -/

namespace Slot

/-- The reply is ready for the one byte that a routine writes, now or once it is cleared. -/
structure Tidy (slot : Slot σ) : Prop where
  cleared : slot.reply.clear.Ready
  ready : slot.busy = true → slot.reply.Ready

theorem tidy_of_idle {slot : Slot σ} (hbusy : slot.busy = false)
    (hcleared : slot.reply.clear.Ready) : slot.Tidy := by
  refine ⟨hcleared, fun h => ?_⟩
  rw [hbusy] at h
  cases h

theorem tidy_blank (state : σ) : (blank state).Tidy := tidy_of_idle rfl Reply.ready_empty

/-- Equal but for leftovers in the reply. -/
structure Same (used new : Slot σ) : Prop where
  state : new.state = used.state
  command : new.command = used.command
  busy : new.busy = used.busy
  first : new.first = used.first
  tidy : used.Tidy ∧ new.Tidy

theorem Same.refl {slot : Slot σ} (h : slot.Tidy) : slot.Same slot := ⟨rfl, rfl, rfl, rfl, h, h⟩

/-- Equal but for leftovers, of which an idle slot also has a state and a command. -/
inductive Alike (used new : Slot (Progress C)) : Prop
  | unused (hbusy : used.busy = false ∧ new.busy = false)
      (hpoint : used.state.resumePoint = 0 ∧ new.state.resumePoint = 0)
      (htidy : used.Tidy ∧ new.Tidy)
  | same (hsame : used.Same new)

/-- Two slots whose handler is about to be called. -/
structure Poised (used new : Slot (Progress C)) : Prop where
  state : new.state = used.state ∨ used.state.resumePoint = 0 ∧ new.state.resumePoint = 0
  command : new.command = used.command
  busy : new.busy = used.busy
  first : new.first = used.first
  ready : used.reply.Ready ∧ new.reply.Ready

variable {used new : Slot (Progress C)}

theorem Alike.busy_eq (h : used.Alike new) : new.busy = used.busy := by
  cases h with
  | unused hbusy => rw [hbusy.1, hbusy.2]
  | same hsame => exact hsame.busy

theorem Alike.poised (h : used.Alike new) (hbusy : used.busy = true) : used.Poised new := by
  cases h with
  | unused hidle => simp [hbusy] at hidle
  | same hsame =>
    exact ⟨.inl hsame.state, hsame.command, hsame.busy, hsame.first, hsame.tidy.1.ready hbusy,
      hsame.tidy.2.ready (hsame.busy.trans hbusy)⟩

theorem Alike.start (h : used.Alike new) (command : Command) :
    (used.start command).Poised (new.start command) := by
  cases h with
  | unused _ hpoint htidy =>
    exact ⟨.inr hpoint, rfl, rfl, rfl, htidy.1.cleared, htidy.2.cleared⟩
  | same hsame =>
    exact ⟨.inl hsame.state, rfl, rfl, rfl, hsame.tidy.1.cleared, hsame.tidy.2.cleared⟩

end Slot

/-! ### One call -/

namespace Routine

/-- Two progresses from which a step does the same, unless it fails for both alike. -/
def StepsAlike (routine : Routine L C) (l : L) (p q : Progress C) (command : List UInt8) : Prop :=
  routine.step l q command = routine.step l p command ∨
    ∃ outputs fault p' q', routine.step l p command = ⟨outputs, .error fault, p'⟩ ∧
      routine.step l q command = ⟨outputs, .error fault, q'⟩

/-- The entry overwrites the stored request and counters before anything reads them. -/
def Restarts (routine : Routine L C) : Prop :=
  ∀ (p q : Progress C) (command : List UInt8), q.resumePoint = p.resumePoint →
    routine.StepsAlike Label.entry p q command

theorem restarts_of_reads {routine : Routine L C}
    (next : Progress C → Traced Output (Except Fault (Step L) × Progress C)) (counters : C)
    (hentry : ∀ p command, routine.step Label.entry p command =
      match readRequest command with
      | .error fault => ⟨[], .error fault, p⟩
      | .ok request => next ⟨p.resumePoint, request, counters⟩) : routine.Restarts := by
  intro p q command hpoint
  unfold StepsAlike
  rw [hentry, hentry, hpoint]
  cases readRequest command with
  | error fault => exact .inr ⟨[], fault, p, q, rfl, rfl⟩
  | ok request => exact .inl rfl

/-- Results of two calls that were given replies `r` and `r'`: the same, but for the reply as long
as the routine has not finished. -/
inductive Twin (r r' : Reply) : Traced Effect (Outcome × Workspace σ m) →
    Traced Effect (Outcome × Workspace σ m) → Prop
  | finished {trace : List Effect} {w : Workspace σ m} (hready : w.reply.clear.Ready) :
      Twin r r' ⟨trace, .ok .ok, w⟩ ⟨trace, .ok .ok, w⟩
  | suspended {trace : List Effect} {state : σ} {waits : Wait.Table m} :
      Twin r r' ⟨trace, .ok .waiting, ⟨state, waits, r⟩⟩ ⟨trace, .ok .waiting, ⟨state, waits, r'⟩⟩
  | failed {trace : List Effect} {fault : Fault} {state : σ} {waits : Wait.Table m} :
      Twin r r' ⟨trace, .error fault, ⟨state, waits, r⟩⟩ ⟨trace, .error fault, ⟨state, waits, r'⟩⟩

variable {r r' : Reply}

theorem Twin.prepend {x y : Traced Effect (Outcome × Workspace σ m)} (h : Twin r r' x y)
    (trace : List Effect) :
    Twin r r' ⟨trace ++ x.trace, x.value⟩ ⟨trace ++ y.trace, y.value⟩ := by
  cases h with
  | finished hready => exact .finished hready
  | suspended => exact .suspended
  | failed => exact .failed

variable [Inhabited C]

theorem settle_twin (call : Call) (state : Progress C) (waits : Wait.Table m) (hr : r.Ready)
    (hr' : r'.Ready) (step : Step L) :
    Twin r r' (settle call ⟨state, waits, r⟩ step) (settle call ⟨state, waits, r'⟩ step) := by
  cases step with
  | suspend next wait =>
    simp only [settle]
    split
    · exact .failed
    · exact .suspended
  | finish result =>
    cases hpush : r.push result with
    | error cause =>
      rw [hr, Reply.push_empty] at hpush
      cases hpush
    | ok reply =>
      have hpush' : r'.push result = .ok reply := by rw [hr', ← hr, hpush]
      simp only [settle, hpush, hpush']
      exact .finished (Reply.ready_clear_of_push hr hpush)

theorem runFrom_twin {routine : Routine L C} {l : L} {call : Call} {p q : Progress C}
    (hsteps : routine.StepsAlike l p q call.command) (waits : Wait.Table m) (hr : r.Ready)
    (hr' : r'.Ready) :
    Twin r r' (routine.runFrom l call ⟨p, waits, r⟩) (routine.runFrom l call ⟨q, waits, r'⟩) := by
  rcases hsteps with hsame | ⟨outputs, fault, p', q', hp, hq⟩
  · rcases hp : routine.step l p call.command with ⟨outputs, asked, state⟩
    have hq := hsame.trans hp
    rw [runFrom_eq routine l call ⟨p, waits, r⟩ hp, runFrom_eq routine l call ⟨q, waits, r'⟩ hq]
    cases asked with
    | error fault => exact .failed
    | ok step => exact (settle_twin call state waits hr hr' step).prepend _
  · rw [runFrom_eq routine l call ⟨p, waits, r⟩ hp, runFrom_eq routine l call ⟨q, waits, r'⟩ hq]
    exact .failed

theorem resume_twin {routine : Routine L C} (hrestarts : routine.Restarts) (call : Call)
    {p q : Progress C} (hpq : q = p ∨ p.resumePoint = 0 ∧ q.resumePoint = 0)
    (waits : Wait.Table m) (hr : r.Ready) (hr' : r'.Ready) :
    Twin r r' (routine.resume call ⟨p, waits, r⟩) (routine.resume call ⟨q, waits, r'⟩) := by
  by_cases hzero : p.resumePoint = 0
  · have hpoint : q.resumePoint = p.resumePoint := by
      rcases hpq with rfl | ⟨hp, hq⟩
      · rfl
      · rw [hp, hq]
    have hzero' : q.resumePoint = 0 := hpoint.trans hzero
    rw [resume_of_fresh routine call (w := ⟨p, waits, r⟩) hzero,
      resume_of_fresh routine call (w := ⟨q, waits, r'⟩) hzero']
    exact runFrom_twin (hrestarts p q call.command hpoint) waits hr hr'
  · -- Only a command that starts can find another progress than its twin.
    obtain rfl : q = p := hpq.resolve_right fun h => hzero h.1
    cases hdecode : (Label.decode q.resumePoint : Option L) with
    | none =>
      rw [resume_of_unknown routine call (w := ⟨q, waits, r⟩) hdecode,
        resume_of_unknown routine call (w := ⟨q, waits, r'⟩) hdecode]
      exact .failed
    | some l =>
      have hpoint := Label.decode_eq_some_iff.mp hdecode
      have hl : l ≠ Label.entry := by
        rintro rfl
        exact hzero (hpoint.symm.trans Label.encode_entry)
      rw [resume_of_label routine call (w := ⟨q, waits, r⟩) hpoint hl,
        resume_of_label routine call (w := ⟨q, waits, r'⟩) hpoint hl]
      cases hwait : waits.isWaiting call.now call.context with
      | true =>
        rw [continueAt_of_waiting routine l (w := ⟨q, waits, r⟩) hwait,
          continueAt_of_waiting routine l (w := ⟨q, waits, r'⟩) hwait]
        exact .suspended
      | false =>
        rw [continueAt_of_over routine l (w := ⟨q, waits, r⟩) hwait,
          continueAt_of_over routine l (w := ⟨q, waits, r'⟩) hwait]
        exact (runFrom_twin (.inl rfl) (waits.cancel call.context) hr hr').prepend [_]

end Routine

theorem Blink.routine_restarts (pin : PinId) : (Blink.routine pin).Restarts :=
  Routine.restarts_of_reads (nextBlink pin) ⟨0⟩ fun _ _ => rfl

theorem Ramp.routine_restarts (pin : PinId) : (Ramp.routine pin).Restarts :=
  Routine.restarts_of_reads (nextBlink pin) {} fun _ _ => rfl

/-! ### Dispatchers that differ in one slot -/

namespace Dispatcher

section Frame

variable {d : Dispatcher σ π n m} (slot : Slot σ)

@[simp] theorem setSlot_slot (d : Dispatcher σ π n m) (i : Fin n) : d.setSlot i (d.slot i) = d := by
  have hslots : d.slots.set i.val (d.slot i) i.isLt = d.slots := Vector.set_getElem_self i.isLt
  unfold setSlot
  rw [hslots]

theorem setSlot_setSlot (slot' : Slot σ) :
    (d.setSlot i slot).setSlot i slot' = d.setSlot i slot' := by
  simp only [setSlot, Vector.set_set]

theorem setSlot_comm (slot' : Slot σ) (hj : j ≠ i) :
    (d.setSlot i slot).setSlot j slot' = (d.setSlot j slot').setSlot i slot := by
  have hne : i.val ≠ j.val := fun e => hj (Fin.ext e.symm)
  simp only [setSlot, Vector.set_comm _ _ hne]

theorem store_setSlot (slot' new : Slot σ) (persistent : π) (waits : Wait.Table m) :
    (d.setSlot i slot).store i new persistent waits =
      (d.store i slot' persistent waits).setSlot i new := by
  simp only [store, setSlot, Vector.set_set]

theorem store_setSlot_other (slot' : Slot σ) (persistent : π) (waits : Wait.Table m)
    (hj : j ≠ i) :
    (d.setSlot i slot).store j slot' persistent waits =
      (d.store j slot' persistent waits).setSlot i slot := by
  simp only [store, setSlot_comm slot slot' hj]
  rfl

theorem engage_setSlot_other (hj : j ≠ i) :
    (d.setSlot i slot).engage j = ((d.engage j).1, (d.engage j).2.setSlot i slot) := by
  have hqueue : (d.setSlot i slot).queue = d.queue := rfl
  unfold engage
  rw [slot_setSlot_other d slot hj, hqueue]
  cases (d.slot j).busy with
  | true => rfl
  | false =>
    rcases d.queue.takeFirst (fun p => p.session.toNat == j.val) with ⟨_ | next, queue⟩
    · rfl
    · simp only [setSlot_comm slot _ hj]
      rfl

def given (slot : Slot σ) : Admission → Slot σ
  | .started command => slot.start command
  | _ => slot

theorem engage_setSlot {slot : Slot σ} (hbusy : slot.busy = (d.slot i).busy) :
    (d.setSlot i slot).engage i =
      ((d.engage i).1, (d.engage i).2.setSlot i (given slot (d.engage i).1)) := by
  have hqueue : (d.setSlot i slot).queue = d.queue := rfl
  unfold engage
  rw [slot_setSlot, hbusy, hqueue]
  cases (d.slot i).busy with
  | true => rfl
  | false =>
    rcases d.queue.takeFirst (fun p => p.session.toNat == i.val) with ⟨_ | next, queue⟩
    · rfl
    · simp [setSlot, given]

theorem run_setSlot_other (now : Instant) (hj : j ≠ i) :
    (d.setSlot i slot).run now j =
      ⟨(d.run now j).trace, (d.run now j).value.1, (d.run now j).value.2.setSlot i slot⟩ := by
  have hslot := slot_setSlot_other d slot hj
  rcases hhandled : d.handled now j with ⟨trace, outcome, persistent, w⟩
  have hhandled' : (d.setSlot i slot).handled now j = ⟨trace, outcome, persistent, w⟩ := by
    rw [handled, callOf, hslot]
    exact hhandled
  rw [run_of_handled hhandled, run_of_handled hhandled', hslot]
  cases outcome with
  | error fault => simp only [store_setSlot_other slot _ _ _ hj]
  | ok status =>
    cases status with
    | waiting => simp only [store_setSlot_other slot _ _ _ hj]
    | ok => simp only [store_setSlot_other slot _ _ _ hj]

theorem takeTurn_setSlot_other (now : Instant) (admitted : Option Command) (hj : j ≠ i) :
    (d.setSlot i slot).takeTurn now j admitted =
      ((d.takeTurn now j admitted).1, (d.takeTurn now j admitted).2.setSlot i slot) := by
  simp only [takeTurn, run_setSlot_other slot now hj, callOf, slot_setSlot_other d slot hj]

/-- A turn of another session reads nothing of a slot and leaves it. -/
theorem turn_setSlot_other (now : Instant) (hj : j ≠ i) :
    (d.setSlot i slot).turn now j = ((d.turn now j).1, (d.turn now j).2.setSlot i slot) := by
  unfold turn
  rw [engage_setSlot_other slot hj]
  rcases d.engage j with ⟨_ | _ | command, e⟩
  · rfl
  · simp only [takeTurn_setSlot_other slot now none hj]
  · simp only [takeTurn_setSlot_other slot now (some command) hj]

theorem prepareSlot_setSlot_other (hj : j ≠ i) :
    (d.setSlot i slot).prepareSlot j =
      ⟨(d.prepareSlot j).trace, (d.prepareSlot j).value.1,
        (d.prepareSlot j).value.2.setSlot i slot⟩ := by
  unfold prepareSlot
  simp only [setSlot_comm slot _ hj]
  rcases hprepare : d.plugin.prepare d.persistent d.plugin.blank with
    ⟨trace, _ | _, persistent, state⟩
  · simp only [show (d.setSlot i slot).plugin = d.plugin from rfl,
      show (d.setSlot i slot).persistent = d.persistent from rfl, hprepare]
    rfl
  · simp only [show (d.setSlot i slot).plugin = d.plugin from rfl,
      show (d.setSlot i slot).persistent = d.persistent from rfl, hprepare]
    rfl

theorem prepareSlot_setSlot : (d.setSlot i slot).prepareSlot i = d.prepareSlot i := by
  unfold prepareSlot
  simp only [setSlot_setSlot]
  rfl

end Frame

/-! ### One turn of the session -/

section Own

variable {d d' : Dispatcher (Progress C) π n m} {new : Slot (Progress C)} {p q : Prop}

/-- The second dispatcher is the first with another slot for the session, alike in use and, once
`met`, of the same state. -/
def Reused (met : Prop) (i : Fin n) (d d' : Dispatcher (Progress C) π n m) : Prop :=
  ∃ new, d' = d.setSlot i new ∧ (d.slot i).Alike new ∧ (met → (d.slot i).Same new)

theorem Reused.mono (h : Reused p i d d') (hqp : q → p) : Reused q i d d' := by
  obtain ⟨new, hd', halike, hmet⟩ := h
  exact ⟨new, hd', halike, fun hq => hmet (hqp hq)⟩

theorem reused_of_same (p : Prop) (h : (d.slot i).Same new) : Reused p i d (d.setSlot i new) :=
  ⟨new, rfl, .same h, fun _ => h⟩

theorem reused_refl (p : Prop) (h : (d.slot i).Tidy) : Reused p i d d := by
  have hreused := reused_of_same p (Slot.Same.refl h)
  rwa [setSlot_slot] at hreused

theorem Reused.keep {e : Dispatcher (Progress C) π n m} (h : (d.slot i).Alike new)
    (hmet : p → (d.slot i).Same new) (hslot : e.slot i = d.slot i) :
    Reused p i e (e.setSlot i new) := by
  refine ⟨new, rfl, ?_, ?_⟩
  · rw [hslot]
    exact h
  · rw [hslot]
    exact hmet

variable [Inhabited C] {routine : Routine L C}

theorem run_poised (hruns : d.plugin.Runs routine) (hrestarts : routine.Restarts) (now : Instant)
    (h : (d.slot i).Poised new) :
    ∃ new', (d.setSlot i new).run now i =
        ⟨(d.run now i).trace, (d.run now i).value.1, (d.run now i).value.2.setSlot i new'⟩ ∧
      ((d.run now i).value.2.slot i).Same new' := by
  have htwin := Routine.resume_twin hrestarts (d.callOf now i) h.state d.waits h.ready.1 h.ready.2
  have hhandled := handled_eq hruns now i
  have hhandled' := handled_eq (d := d.setSlot i new) hruns now i
  have hresumed' : (d.setSlot i new).resumed routine now i =
      routine.resume (d.callOf now i) ⟨new.state, d.waits, new.reply⟩ := by
    rw [resumed, callOf, slot_setSlot, h.command, h.first]
    rfl
  rw [hresumed'] at hhandled'
  rw [resumed] at hhandled
  generalize routine.resume (d.callOf now i) ⟨(d.slot i).state, d.waits, (d.slot i).reply⟩ = x
    at htwin hhandled
  generalize routine.resume (d.callOf now i) ⟨new.state, d.waits, new.reply⟩ = y
    at htwin hhandled'
  rw [run_of_handled hhandled, run_of_handled hhandled', slot_setSlot]
  -- Whatever the outcome, what is stored differs in the reply at most.
  cases htwin with
  | finished hready =>
    refine ⟨_, congrArg (Traced.mk _ <| Prod.mk _ ·) (store_setSlot new _ _ _ _), ?_⟩
    rw [slot_store]
    exact ⟨rfl, h.command, rfl, rfl, Slot.tidy_of_idle rfl hready, Slot.tidy_of_idle rfl hready⟩
  | suspended =>
    refine ⟨_, congrArg (Traced.mk _ <| Prod.mk _ ·) (store_setSlot new _ _ _ _), ?_⟩
    rw [slot_store]
    exact ⟨rfl, h.command, h.busy, rfl, ⟨h.ready.1.clear, fun _ => h.ready.1⟩,
      ⟨h.ready.2.clear, fun _ => h.ready.2⟩⟩
  | failed =>
    refine ⟨_, congrArg (Traced.mk _ <| Prod.mk _ ·) (store_setSlot new _ _ _ _), ?_⟩
    rw [slot_store]
    exact ⟨rfl, h.command, rfl, rfl, Slot.tidy_of_idle rfl h.ready.1.clear,
      Slot.tidy_of_idle rfl h.ready.2.clear⟩

theorem takeTurn_poised (hruns : d.plugin.Runs routine) (hrestarts : routine.Restarts)
    (now : Instant) (admitted : Option Command) (h : (d.slot i).Poised new) :
    ∃ new', (d.setSlot i new).takeTurn now i admitted =
        ((d.takeTurn now i admitted).1, (d.takeTurn now i admitted).2.setSlot i new') ∧
      ((d.takeTurn now i admitted).2.slot i).Same new' := by
  obtain ⟨new', hrun, hsame⟩ := run_poised hruns hrestarts now h
  refine ⟨new', ?_, hsame⟩
  simp only [takeTurn, hrun, callOf, slot_setSlot, h.command, h.first]

theorem Reused.turn_own (h : Reused p i d d') (hruns : d.plugin.Runs routine)
    (hrestarts : routine.Restarts) (now : Instant) :
    (d'.turn now i).1 = (d.turn now i).1 ∧
      Reused (p ∨ (d.turn now i).1.isSome = true) i (d.turn now i).2 (d'.turn now i).2 := by
  obtain ⟨new, rfl, halike, hmet⟩ := h
  have hengaged := engaged_engage d i
  have hengage' := engage_setSlot (d := d) halike.busy_eq
  unfold Dispatcher.turn
  rw [hengage']
  generalize d.engage i = x at hengaged
  cases hengaged with
  | inFlight hbusy =>
    obtain ⟨new', hturn, hsame⟩ := takeTurn_poised hruns hrestarts now none (halike.poised hbusy)
    simp only [given, hturn]
    exact ⟨trivial, reused_of_same _ hsame⟩
  | idle => exact ⟨rfl, new, rfl, halike, fun hp => hmet (hp.resolve_right nofun)⟩
  | @started command _ queue =>
    have hpoised := halike.start command
    rw [← slot_started d i command queue] at hpoised
    obtain ⟨new', hturn, hsame⟩ := takeTurn_poised (d := d.started i command queue) hruns hrestarts
      now (some command) hpoised
    simp only [given, hturn]
    exact ⟨trivial, reused_of_same _ hsame⟩

theorem Reused.turn (h : Reused p i d d') (hruns : d.plugin.Runs routine)
    (hrestarts : routine.Restarts) (now : Instant) (j : Fin n) :
    (d'.turn now j).1 = (d.turn now j).1 ∧
      Reused (p ∨ ∃ t ∈ (d.turn now j).1, t.session = session i) i (d.turn now j).2
        (d'.turn now j).2 := by
  by_cases hj : j = i
  · subst hj
    obtain ⟨hturn, hafter⟩ := h.turn_own hruns hrestarts now
    refine ⟨hturn, hafter.mono ?_⟩
    rintro (hp | ⟨t, ht, -⟩)
    · exact .inl hp
    · exact .inr (by rw [Option.mem_def.mp ht]; rfl)
  · obtain ⟨new, rfl, halike, hmet⟩ := h
    have hturned := turned_turn d now j
    have hslot := hturned.slot_other (Ne.symm hj)
    rw [turn_setSlot_other new now hj]
    refine ⟨rfl, (Reused.keep halike hmet hslot).mono ?_⟩
    rintro (hp | ⟨t, ht, hsession⟩)
    · exact hp
    · rw [hturned.session_eq ht] at hsession
      exact absurd (session_injective d.addressable hsession) hj

theorem Reused.turns (h : Reused p i d d') (hruns : d.plugin.Runs routine)
    (hrestarts : routine.Restarts) (now : Instant) (sessions : List (Fin n)) :
    (d'.turns now sessions).1 = (d.turns now sessions).1 ∧
      Reused (p ∨ ∃ t ∈ (d.turns now sessions).1, t.session = session i) i
        (d.turns now sessions).2 (d'.turns now sessions).2 := by
  induction sessions generalizing d d' p with
  | nil => exact ⟨rfl, h.mono (·.resolve_right nofun)⟩
  | cons j rest ih =>
    have hkept : (d.turn now j).2.plugin.Runs routine := by
      rw [(turned_turn d now j).plugin]
      exact hruns
    obtain ⟨hturn, hnext⟩ := h.turn hruns hrestarts now j
    obtain ⟨hrest, hend⟩ := ih hnext hkept
    rw [turns_cons, turns_cons, hturn, hrest]
    refine ⟨rfl, hend.mono ?_⟩
    rintro (hp | ⟨t, ht, hsession⟩)
    · exact .inl (.inl hp)
    · rcases List.mem_append.mp ht with ht | ht
      · exact .inl (.inr ⟨t, Option.mem_toList.mp ht, hsession⟩)
      · exact .inr ⟨t, ht, hsession⟩

end Own

/-! ### Whole operations -/

section Operations

variable {α β : Type} {p q : Prop} {d d' : Dispatcher (Progress C) π n m}

/-- Two operations that do and answer the same on dispatchers that differ in leftovers. -/
structure Alongside (met : Prop) (i : Fin n)
    (x x' : Traced Effect (α × Dispatcher (Progress C) π n m)) : Prop where
  trace : x'.trace = x.trace
  answer : x'.value.1 = x.value.1
  after : Reused met i x.value.2 x'.value.2

theorem Alongside.answerWith {x x' : Traced Effect (α × Dispatcher (Progress C) π n m)}
    (h : Alongside p i x x') (f : α → β) (hqp : q → p) :
    Alongside q i (x >>= fun y => pure (f y.1, y.2)) (x' >>= fun y => pure (f y.1, y.2)) := by
  refine ⟨?_, congrArg f h.answer, h.after.mono hqp⟩
  simp only [Traced.trace_bind, Traced.trace_pure, h.trace]

theorem Reused.prepareSlot (h : Reused p i d d') (j : Fin n) :
    Alongside (p ∨ j = i) i (d.prepareSlot j) (d'.prepareSlot j) := by
  have hprepared := prepared_prepareSlot d j
  obtain ⟨new, rfl, halike, hmet⟩ := h
  by_cases hj : j = i
  · subst hj
    obtain ⟨state, hslot⟩ := hprepared.slot
    rw [prepareSlot_setSlot]
    refine ⟨rfl, rfl, reused_refl _ ?_⟩
    rw [hslot]
    exact Slot.tidy_blank state
  · rw [prepareSlot_setSlot_other new hj]
    exact ⟨rfl, rfl, (Reused.keep halike hmet (hprepared.slot_other (Ne.symm hj))).mono
      (·.resolve_right hj)⟩

theorem Reused.submit (h : Reused p i d d') (s : SessionId) (bytes : List UInt8) :
    Alongside p i (d.submit s bytes) (d'.submit s bytes) := by
  obtain ⟨new, rfl, halike, hmet⟩ := h
  unfold Dispatcher.submit
  rcases index n s with e | k
  · exact ⟨rfl, rfl, Reused.keep halike hmet rfl⟩
  · rcases Command.ofBytes? bytes with _ | command
    · exact ⟨rfl, rfl, Reused.keep halike hmet rfl⟩
    · cases hpush : d.queue.push ⟨s, command⟩ with
      | none =>
        have hpush' : (d.setSlot i new).queue.push ⟨s, command⟩ = none := hpush
        simp only [hpush, hpush']
        exact ⟨rfl, rfl, Reused.keep halike hmet rfl⟩
      | some queue =>
        have hpush' : (d.setSlot i new).queue.push ⟨s, command⟩ = some queue := hpush
        simp only [hpush, hpush']
        exact ⟨rfl, rfl, Reused.keep halike hmet rfl⟩

theorem Reused.signal (h : Reused p i d d') (s : SessionId) (transfer : Transfer) :
    Alongside p i (d.signal s transfer) (d'.signal s transfer) := by
  obtain ⟨new, rfl, halike, hmet⟩ := h
  unfold Dispatcher.signal
  rcases index n s with e | k
  · exact ⟨rfl, rfl, Reused.keep halike hmet rfl⟩
  · exact ⟨rfl, rfl, Reused.keep halike hmet rfl⟩

theorem Reused.abandon (h : Reused p i d d') (s : SessionId) :
    Alongside (p ∨ s = session i) i (d.abandon s) (d'.abandon s) := by
  obtain ⟨new, rfl, halike, hmet⟩ := h
  unfold Dispatcher.abandon
  rcases index_cases n s with ⟨k, rfl, hindex⟩ | ⟨hs, hindex⟩
  · rw [hindex]
    by_cases hk : k = i
    · subst hk
      simp only [slot_setSlot, halike.busy_eq, setSlot_setSlot]
      refine ⟨rfl, rfl, reused_refl _ ?_⟩
      show ((d.setSlot k (Slot.blank d.plugin.blank)).slot k).Tidy
      rw [slot_setSlot]
      exact Slot.tidy_blank _
    · simp only [slot_setSlot_other d new hk, setSlot_comm new _ hk]
      refine ⟨rfl, rfl, (Reused.keep (e := d.store k (Slot.blank d.plugin.blank) d.persistent
        (d.waits.cancel (session k))) halike hmet (slot_store_other d _ _ _ (Ne.symm hk))).mono ?_⟩
      exact (·.resolve_right fun e => hk (session_injective d.addressable e))
  · rw [hindex]
    refine ⟨rfl, rfl, (Reused.keep halike hmet rfl).mono (·.resolve_right ?_)⟩
    rintro rfl
    rw [session_toNat d.addressable] at hs
    exact absurd i.isLt (Nat.not_lt.mpr hs)

theorem Reused.busy_eq (h : Reused p i d d') (k : Fin n) : (d'.slot k).busy = (d.slot k).busy := by
  obtain ⟨new, rfl, halike, -⟩ := h
  by_cases hk : k = i
  · subst hk
    rw [slot_setSlot]
    exact halike.busy_eq
  · rw [slot_setSlot_other d new hk]

theorem Reused.isBusy_eq (h : Reused p i d d') (s : SessionId) : d'.isBusy s = d.isBusy s := by
  unfold isBusy slot?
  rcases Nat.lt_or_ge s.toNat n with hs | hs
  · rw [Vector.getElem?_eq_getElem hs, Vector.getElem?_eq_getElem hs]
    exact h.busy_eq ⟨s.toNat, hs⟩
  · rw [Vector.getElem?_eq_none hs, Vector.getElem?_eq_none hs]

theorem Reused.inFlight (h : Reused p i d d') : d'.inFlight = d.inFlight := by
  apply countP_eq_of_any_eq
  intro k
  rcases Nat.lt_or_ge k n with hk | hk
  · rw [slots_getElem? d' ⟨k, hk⟩, slots_getElem? d ⟨k, hk⟩]
    exact h.busy_eq ⟨k, hk⟩
  · rw [Vector.getElem?_toList, Vector.getElem?_toList, Vector.getElem?_eq_none hk,
      Vector.getElem?_eq_none hk]

variable [Inhabited C] {routine : Routine L C}

theorem Reused.prepareSlots (h : Reused p i d d') (hruns : d.plugin.Runs routine)
    (sessions : List (Fin n)) :
    Alongside (p ∨ i ∈ sessions) i (d.prepareSlots sessions) (d'.prepareSlots sessions) := by
  induction sessions generalizing d d' p with
  | nil => exact ⟨rfl, rfl, h.mono (·.resolve_right List.not_mem_nil)⟩
  | cons j rest ih =>
    have hprepared := prepared_prepareSlot d j
    obtain ⟨htrace, hready, hafter⟩ := h.prepareSlot j
    obtain ⟨persistent, state, -, hvalue⟩ := prepareSlot_of_runs hruns j
    rcases hfirst : d.prepareSlot j with ⟨trace, ready, e⟩
    rcases hfirst' : d'.prepareSlot j with ⟨trace', ready', e'⟩
    rw [hfirst] at hvalue hprepared
    rw [hfirst, hfirst'] at htrace hready hafter
    change trace' = trace at htrace
    change ready' = ready at hready
    change (ready, e) = _ at hvalue
    have hok : ready = .ok () := congrArg Prod.fst hvalue
    subst htrace hready hok
    have hkept : e.plugin.Runs routine := by
      rw [hprepared.plugin]
      exact hruns
    obtain ⟨hrest, hanswer, hend⟩ := ih hafter hkept
    simp only [Dispatcher.prepareSlots, hfirst, hfirst']
    refine ⟨congrArg (trace' ++ ·) hrest, hanswer, hend.mono ?_⟩
    rw [List.mem_cons]
    rintro (hp | rfl | hmem)
    · exact .inl (.inl hp)
    · exact .inl (.inr rfl)
    · exact .inr hmem

theorem Reused.reset (h : Reused p i d d') (hruns : d.plugin.Runs routine) :
    Alongside True i d.reset d'.reset := by
  have hcount := h.inFlight
  obtain ⟨new, rfl, halike, hmet⟩ := h
  have hempty : Reused p i d.emptied (d.setSlot i new).emptied :=
    Reused.keep (e := d.emptied) halike hmet rfl
  obtain ⟨htrace, hanswer, hafter⟩ := hempty.prepareSlots hruns (List.finRange n)
  refine ⟨?_, hanswer, hafter.mono fun _ => .inr (List.mem_finRange i)⟩
  unfold Dispatcher.reset
  rw [hcount]
  exact congrArg (_ ++ ·) htrace

theorem Reused.poll (h : Reused p i d d') (hruns : d.plugin.Runs routine)
    (hrestarts : routine.Restarts) (now : Instant) (s : SessionId) :
    Alongside (p ∨ ∃ t, (d.poll now s).value.1 = .ok t ∧ t.session = session i) i (d.poll now s)
      (d'.poll now s) := by
  unfold Dispatcher.poll
  rcases index n s with e | j
  · refine ⟨rfl, rfl, h.mono (·.resolve_right ?_)⟩
    rintro ⟨t, ⟨⟩, -⟩
  · have hplugin : d'.plugin = d.plugin := by
      obtain ⟨new, rfl, -, -⟩ := h
      rfl
    obtain ⟨hturn, hafter⟩ := h.turn hruns hrestarts now j
    rcases hd : d.turn now j with ⟨turn, e⟩
    rcases hd' : d'.turn now j with ⟨turn', e'⟩
    rw [hd, hd'] at hturn hafter
    change turn' = turn at hturn
    subst hturn
    simp only [hd, hd']
    cases turn' with
    | none =>
      refine ⟨rfl, rfl, hafter.mono ?_⟩
      rintro (hp | ⟨t, ⟨⟩, -⟩)
      exact .inl hp
    | some t =>
      refine ⟨by rw [hplugin], rfl, hafter.mono ?_⟩
      rintro (hp | ⟨t', ⟨⟩, hsession⟩)
      · exact .inl hp
      · exact .inr ⟨t, rfl, hsession⟩

theorem Reused.tick (h : Reused p i d d') (hruns : d.plugin.Runs routine)
    (hrestarts : routine.Restarts) (now : Instant) :
    Alongside (p ∨ ∃ t ∈ (d.tick now).value.1, t.session = session i) i (d.tick now)
      (d'.tick now) := by
  obtain ⟨hturns, hafter⟩ := h.turns hruns hrestarts now (List.finRange n)
  obtain ⟨new, rfl, -, -⟩ := h
  exact ⟨congrArg (List.flatMap (Turn.tickEffects d.plugin)) hturns, hturns, hafter⟩

/-- Whether an operation gave the session a turn, or cleared it. -/
def Touched (i : Fin n) (answer : Answer) : Operation σ → Prop
  | .poll _ | .tick => ∃ t ∈ answer.turns, t.session = session i
  | .abandon s => s = session i
  | .reset => True
  | _ => False

theorem Reused.perform (h : Reused p i d d') (hruns : d.plugin.Runs routine)
    (hrestarts : routine.Restarts) (now : Instant) {op : Operation (Progress C)}
    (hop : (Happening.operate op).isEdit = false) :
    Alongside (p ∨ Touched i (d.perform now op).value.1 op) i (d.perform now op)
      (d'.perform now op) := by
  cases op with
  | submit s bytes => exact (h.submit s bytes).answerWith Answer.submitted (·.resolve_right id)
  | poll s =>
    refine (h.poll hruns hrestarts now s).answerWith Answer.polled ?_
    rintro (hp | ⟨t, ht, hsession⟩)
    · exact .inl hp
    · change t ∈ (Answer.polled (d.poll now s).value.1).turns at ht
      rcases hresult : (d.poll now s).value.1 with e | t'
      · rw [hresult] at ht
        cases ht
      · rw [hresult] at ht
        obtain rfl := List.mem_singleton.mp ht
        exact .inr ⟨t, rfl, hsession⟩
  | tick => exact (h.tick hruns hrestarts now).answerWith Answer.ticked id
  | abandon s => exact (h.abandon s).answerWith Answer.abandoned id
  | reset => exact (h.reset hruns).answerWith Answer.wasReset fun _ => trivial
  | signal s transfer =>
    exact (h.signal s transfer).answerWith Answer.signalled (·.resolve_right id)
  | edit s change => cases hop

end Operations

/-! ### Sessions to reuse -/

section Reusable

variable [Inhabited C] {routine : Routine L C} {d : Dispatcher (Progress C) π n m}

theorem tidy_turn (hruns : d.plugin.Runs routine) (hrestarts : routine.Restarts) (now : Instant)
    (h : (d.slot i).Tidy) : ((d.turn now i).2.slot i).Tidy := by
  -- A dispatcher and itself are a case of two that differ in leftovers.
  obtain ⟨-, new, -, -, hsame⟩ := (reused_refl True h).turn_own hruns hrestarts now
  exact (hsame (.inl trivial)).tidy.1

/-- Every session is settled, and its reply holds no leftovers past its first byte. -/
structure Reusable (routine : Routine L C) (d : Dispatcher (Progress C) π n m) : Prop where
  resting : Resting routine d
  tidy : Each (fun slot _ => slot.Tidy) d

theorem Reusable.perform (h : Reusable routine d) (hrestarts : routine.Restarts) (now : Instant)
    {op : Operation (Progress C)} (hop : (Happening.operate op).isEdit = false) :
    Reusable routine (d.perform now op).value.2 := by
  refine ⟨h.resting.perform now hop, h.tidy.perform h.resting.runs now ?_ ?_ ?_ hop⟩
  · intro e i hruns htidy
    exact tidy_turn hruns hrestarts now htidy
  · intro state _
    exact Slot.tidy_blank state
  · intro slot record transfer htidy
    exact htidy

theorem reusable_of_register {plugin : Plugin (Progress C) π} {waits : Wait.Table m}
    (hruns : plugin.Runs routine) (h : (register plugin n waits).value = .ok d) :
    Reusable routine d :=
  ⟨resting_of_register hruns h, each_of_register hruns (fun state _ => Slot.tidy_blank state) h⟩

/-- Abandoning an idle session changes its slot only, and there only leftovers. -/
theorem Reusable.abandon (h : Reusable routine d) (hidle : (d.slot i).busy = false) :
    Reused False i d (d.abandon (session i)).value.2 := by
  obtain ⟨hpoint, hrecord⟩ := (h.resting.settled i).of_idle hidle
  refine ⟨Slot.blank d.plugin.blank, ?_,
    .unused ⟨hidle, rfl⟩ ⟨hpoint, h.resting.runs.blank⟩ ⟨h.tidy i, Slot.tidy_blank _⟩, nofun⟩
  unfold Dispatcher.abandon
  rw [index_session d.addressable]
  show ({ d.setSlot i (Slot.blank d.plugin.blank) with waits := d.waits.cancel (session i) } :
    Dispatcher (Progress C) π n m) = _
  rw [Wait.Table.cancel_of_none hrecord]
  rfl

end Reusable

end Dispatcher

/-! ### Runs -/

/-- What can be observed of a moment of a run, the stored states apart. -/
structure Shown where
  effects : List Effect
  answer : Option Answer
  busy : SessionId → Bool
  queued : Nat
  nextDeadline : Option Instant
  pending : Nat

def Moment.shown (x : Moment σ π n m) : Shown where
  effects := x.effects
  answer := x.answer
  busy := x.after.dispatcher.isBusy
  queued := x.after.dispatcher.queue.length
  nextDeadline := x.after.dispatcher.waits.nextDeadline
  pending := x.after.dispatcher.waits.pending

/-- Whether a moment admits a command to the session, or clears it. -/
def Moment.renews (i : Fin n) (x : Moment σ π n m) : Prop :=
  x.admitted i ≠ [] ∨ x.drops i = true

theorem Moment.touched_of_renews {x : Device σ π n m} {op : Operation σ}
    (h : (x.meet (.operate op)).renews i) :
    Dispatcher.Touched i (x.dispatcher.perform x.now op).value.1 op := by
  rcases h with hadmitted | hdrops
  · obtain ⟨bytes, hbytes⟩ := List.exists_mem_of_ne_nil _ hadmitted
    obtain ⟨t, ht, -⟩ := List.mem_filterMap.mp hbytes
    obtain ⟨hmem, hsession⟩ := List.mem_filter.mp ht
    rw [beq_iff_eq] at hsession
    change t ∈ (x.dispatcher.perform x.now op).value.1.turns ++ [] at hmem
    rw [List.append_nil] at hmem
    cases op with
    | poll s => exact ⟨t, hmem, hsession⟩
    | tick => exact ⟨t, hmem, hsession⟩
    | submit s bytes => cases hmem
    | abandon s => cases hmem
    | reset => cases hmem
    | signal s transfer => cases hmem
    | edit s change => cases hmem
  · cases op with
    | abandon s => exact beq_iff_eq.mp hdrops
    | reset => trivial
    | poll s => cases hdrops
    | tick => cases hdrops
    | submit s bytes => cases hdrops
    | signal s transfer => cases hdrops
    | edit s change => cases hdrops

namespace Device

/-- Two devices at one instant whose dispatchers differ in leftovers of the session. -/
structure Reused (met : Prop) (i : Fin n) (x y : Device (Progress C) π n m) : Prop where
  now : y.now = x.now
  dispatcher : Dispatcher.Reused met i x.dispatcher y.dispatcher

theorem shown_eq {p : Prop} {y z : Moment (Progress C) π n m} (heffects : z.effects = y.effects)
    (hanswer : z.answer = y.answer)
    (hafter : Dispatcher.Reused p i y.after.dispatcher z.after.dispatcher) :
    z.shown = y.shown := by
  have hbusy : z.after.dispatcher.isBusy = y.after.dispatcher.isBusy := funext hafter.isBusy_eq
  obtain ⟨new, hd', -, -⟩ := hafter
  rw [Moment.shown, Moment.shown, heffects, hanswer, hbusy, hd']
  rfl

variable [Inhabited C] {routine : Routine L C} {x y : Device (Progress C) π n m} {p : Prop}

theorem Reused.meet (hxy : Reused p i x y) (hruns : x.dispatcher.plugin.Runs routine)
    (hrestarts : routine.Restarts) {h : Happening (Progress C)} (hedit : h.isEdit = false) :
    (y.meet h).shown = (x.meet h).shown ∧
      Reused (p ∨ (x.meet h).renews i) i (x.meet h).after (y.meet h).after := by
  obtain ⟨now, d⟩ := x
  obtain ⟨now', d'⟩ := y
  obtain ⟨rfl, hreused⟩ := hxy
  cases h with
  | advance length =>
    refine ⟨shown_eq rfl rfl hreused, rfl, hreused.mono ?_⟩
    rintro (hp | hnone | hnone)
    · exact hp
    · exact absurd rfl hnone
    · cases hnone
  | operate op =>
    obtain ⟨htrace, hanswer, hafter⟩ := hreused.perform hruns hrestarts _ hedit
    refine ⟨shown_eq htrace (congrArg some hanswer) hafter, rfl, hafter.mono ?_⟩
    exact Or.imp_right Moment.touched_of_renews

theorem Reused.run (hxy : Reused p i x y) (hruns : x.dispatcher.plugin.Runs routine)
    (hrestarts : routine.Restarts) (later : List (Happening (Progress C)))
    (hedits : ∀ h ∈ later, h.isEdit = false) :
    (y.run later).map Moment.shown = (x.run later).map Moment.shown ∧
      Reused (p ∨ ∃ z ∈ x.run later, z.renews i) i (x.atEnd later) (y.atEnd later) := by
  induction later generalizing x y p with
  | nil =>
    refine ⟨rfl, hxy.now, hxy.dispatcher.mono ?_⟩
    rintro (hp | ⟨z, hz, -⟩)
    · exact hp
    · cases hz
  | cons h rest ih =>
    have hkept : (x.meet h).after.dispatcher.plugin.Runs routine := by
      rw [meet_plugin]
      exact hruns
    obtain ⟨hshown, hafter⟩ := hxy.meet hruns hrestarts (hedits h List.mem_cons_self)
    obtain ⟨hrest, hend⟩ := ih hafter hkept fun h' hh' => hedits h' (List.mem_cons_of_mem _ hh')
    refine ⟨?_, hend.now, hend.dispatcher.mono ?_⟩
    · show (y.meet h).shown :: _ = (x.meet h).shown :: _
      rw [hshown, hrest]
    · rintro (hp | ⟨z, hz, hrenews⟩)
      · exact .inl (.inl hp)
      · rcases List.mem_cons.mp hz with rfl | hz
        · exact .inl (.inr hrenews)
        · exact .inr ⟨z, hz, hrenews⟩

theorem reused_abandon {plugin : Plugin (Progress C) π} {waits : Wait.Table m}
    {d : Dispatcher (Progress C) π n m} (hruns : plugin.Runs routine)
    (hrestarts : routine.Restarts) (hregister : (Dispatcher.register plugin n waits).value = .ok d)
    (start : Instant) (happenings : List (Happening (Progress C)))
    (hedits : ∀ h ∈ happenings, h.isEdit = false) :
    let x := (Device.mk start d).atEnd happenings
    (x.dispatcher.slot i).busy = false →
      Reused False i x (x.meet (.operate (.abandon (Dispatcher.session i)))).after := by
  intro x hidle
  have hreusable : x.dispatcher.Reusable routine :=
    atEnd_keep happenings
      (fun e now op hop he => he.perform hrestarts now (hedits _ hop)) ⟨start, d⟩
      (Dispatcher.reusable_of_register hruns hregister)
  exact ⟨rfl, hreusable.abandon hidle⟩

end Device

inductive Plugin.BlinksOn (pin : PinId) : {C : Type} → Plugin (Progress C) Unit → Prop
  | blink : BlinksOn pin (Blink.plugin pin)
  | ramp : BlinksOn pin (Ramp.plugin pin)

theorem Plugin.BlinksOn.runs {pin : PinId} {plugin : Plugin (Progress C) Unit}
    (h : plugin.BlinksOn pin) :
    ∃ (L : Type) (_ : DecidableEq L) (_ : Label L) (_ : Inhabited C) (routine : Routine L C),
      plugin.Runs routine ∧ routine.Restarts := by
  cases h with
  | blink => exact ⟨_, _, _, _, _, Blink.plugin_runs pin, Blink.routine_restarts pin⟩
  | ramp => exact ⟨_, _, _, _, _, Ramp.plugin_runs pin, Ramp.routine_restarts pin⟩

/-- A slot that was used serves like a new one: whether or not an idle session is abandoned first
can be told from nothing that any continuation shows, and once a command is admitted to the session
or it is cleared, its stored state is the same too. -/
theorem used_slot_serves_like_new {pin : PinId} {plugin : Plugin (Progress C) Unit}
    (hplugin : plugin.BlinksOn pin) {waits : Wait.Table m}
    {d : Dispatcher (Progress C) Unit n m}
    (hregister : (Dispatcher.register plugin n waits).value = .ok d) (start : Instant)
    (happenings : List (Happening (Progress C))) (hedits : ∀ h ∈ happenings, h.isEdit = false)
    (i : Fin n) :
    let x := (Device.mk start d).atEnd happenings
    (x.dispatcher.slot i).busy = false →
      let y := (x.meet (.operate (.abandon (Dispatcher.session i)))).after
      ∀ later : List (Happening (Progress C)), (∀ h ∈ later, h.isEdit = false) →
        (y.run later).map Moment.shown = (x.run later).map Moment.shown ∧
          ((∃ z ∈ x.run later, z.renews i) →
            ((y.atEnd later).dispatcher.slot i).state =
              ((x.atEnd later).dispatcher.slot i).state) := by
  intro x hidle y later hlater
  obtain ⟨L, _, _, _, routine, hruns, hrestarts⟩ := hplugin.runs
  have hreused : Device.Reused False i x y :=
    Device.reused_abandon hruns hrestarts hregister start happenings hedits hidle
  have hruns' : x.dispatcher.plugin.Runs routine :=
    Device.atEnd_keep (P := fun e => e.plugin.Runs routine) happenings
      (fun e now op _ he => by rw [Dispatcher.perform_plugin]; exact he) ⟨start, d⟩
      (by rw [(Dispatcher.idle_of_register hregister).1]; exact hruns)
  obtain ⟨hshown, -, new, hend, -, hsame⟩ := hreused.run hruns' hrestarts later hlater
  refine ⟨hshown, fun hrenews => ?_⟩
  rw [hend, Dispatcher.slot_setSlot]
  exact (hsame (.inr hrenews)).state

/-- A blinking session has served one command, and its old counter is still stored. -/
theorem used_slot_serves_like_new_blink :
    ∃ d : Dispatcher (Progress Blink.Counters) Unit 1 1,
      (Dispatcher.register (Blink.plugin 8) 1 Wait.Table.empty).value = .ok d ∧
      let happenings : List (Happening (Progress Blink.Counters)) :=
        [.operate (.submit 0 [1, 0, 0]), .operate .tick, .operate .tick, .operate .tick]
      let later : List (Happening (Progress Blink.Counters)) :=
        [.operate (.submit 0 [3, 0, 0]), .operate (.poll 0)]
      let x := (Device.mk 0 d).atEnd happenings
      let y := (x.meet (.operate (.abandon 0))).after
      (x.dispatcher.slot 0).state = ⟨0, ⟨1, 0⟩, ⟨1⟩⟩ ∧
        (y.dispatcher.slot 0).state = ⟨0, ⟨0, 0⟩, ⟨0⟩⟩ ∧
        (y.run later).map Moment.shown = (x.run later).map Moment.shown ∧
        ((y.atEnd later).dispatcher.slot 0).state = ((x.atEnd later).dispatcher.slot 0).state := by
  refine ⟨_, rfl, ?_⟩
  intro happenings later x y
  have hregister : (Dispatcher.register (Blink.plugin 8) 1
      (Wait.Table.empty : Wait.Table 1)).value = .ok _ := rfl
  obtain ⟨hshown, hstate⟩ := used_slot_serves_like_new (.blink : (Blink.plugin 8).BlinksOn 8)
    hregister 0 happenings (by decide) 0 (by decide) later (by decide)
  refine ⟨by decide, by decide, hshown, hstate ?_⟩
  exact ⟨(x.meet _).after.meet _, .tail _ (.head _), .inl (by decide)⟩

end Resumable
