import Resumable.Proofs.Notices
import Resumable.Proofs.Running

/-!
# What a turn asks of the table of waits

A call of a routine asks the table whether its wait is over, unless it starts a command, and it
registers the next wait, if it suspends its session. This is read off the effects of a turn
(`Turn.notices`), and compared with what is stored for the session before and after: a turn is held
while the wait is unfinished, comes past it otherwise, or runs the first step of a command.
-/

namespace Resumable

/-! ### Calls of the table -/

def Effect.event? : Effect → Option Wait.Event
  | .wait event => some event
  | _ => none

def Wait.Event.wait? : Wait.Event → Option Wait
  | .register _ length => some (.timeout length)
  | .transfer _ awaited => some (.transfer awaited)
  | _ => none

theorem Wait.wait?_registration (cx : Wait.Context) (wait : Wait) :
    (wait.registration cx).wait? = some wait := by
  cases wait <;> rfl

namespace Turn

/-- The calls that a turn made of the table of waits. -/
def events (t : Turn) : List Wait.Event := t.handling.filterMap Effect.event?

/-- How a call found the wait of its session. -/
def found (point : ResumePoint) (t : Turn) : Notice :=
  match t.events with
  | .check _ true :: _ => .held
  | .check _ false :: _ => .passed point
  | _ => .entered

/-- The notices of a turn, by the resume points before and after it. -/
def notices (point point' : ResumePoint) (t : Turn) : List Notice :=
  t.found point :: (t.events.filterMap Wait.Event.wait?).map (.armed point')

/-- The notices of being given a turn. -/
def told (point point' : ResumePoint) : Option Turn → List Notice
  | none => [.idle]
  | some t => t.notices point point'

end Turn

variable {π : Type} {n m : Nat}

namespace Dispatcher

/-- How a call that ran a step ends: the calls that it made of the table of waits from the step on,
and what they leave. -/
inductive Ends {σ : Type} (now : Instant) (i : Fin n) (e : Dispatcher σ π n m) :
    List Wait.Event → Prop
  | answered (hbusy : (e.slot i).busy = false) : Ends now i e []
  | faulted (hbusy : (e.slot i).busy = false) : Ends now i e [.cancel (session i)]
  | suspended {wait : Wait} (hbusy : (e.slot i).busy = true)
      (hrecord : e.waits.record? (session i) = some (.start now wait)) :
      Ends now i e [wait.registration (session i)]

theorem Ends.entered {σ : Type} {now : Instant} {i : Fin n} {e : Dispatcher σ π n m} {t : Turn}
    (h : Ends now i e t.events) (point : ResumePoint) : t.found point = .entered := by
  unfold Turn.found
  generalize t.events = tail at h
  cases h with
  | answered => rfl
  | faulted => rfl
  | @suspended wait => cases wait <;> rfl

end Dispatcher

/-! ### Steps -/

theorem events_outputs (outputs : List Output) :
    (outputs.map Output.toEffect).filterMap Effect.event? = [] := by
  rw [List.filterMap_map, List.filterMap_eq_nil_iff]
  intro output _
  cases output <;> rfl

theorem events_callArm (waits : Wait.Table m) (now : Instant) (cx : Wait.Context) (wait : Wait) :
    (waits.callArm now cx wait).trace.filterMap Effect.event? = [wait.registration cx] := by
  unfold Wait.Table.callArm
  dsimp only
  split <;> rfl

variable {L C : Type} [DecidableEq L] [Label L] [Inhabited C] {routine : Routine L C} {l : L}
  {call : Call} {w : Workspace (Progress C) m}
  {x : Traced Effect (Outcome × Workspace (Progress C) m)}

/-- A step that suspends its session registers its wait, and another registers none. -/
theorem Routine.Ran.events (h : Routine.Ran routine l call w x) (hcx : call.context.toNat < m) :
    (x.value.1 ≠ .ok .waiting ∧ x.trace.filterMap Effect.event? = []) ∨
      ∃ wait, x.value.1 = .ok .waiting ∧
        x.trace.filterMap Effect.event? = [wait.registration call.context] ∧
        x.value.2.waits.record? call.context = some (.start call.now wait) := by
  cases h with
  | failed => exact .inl ⟨nofun, events_outputs _⟩
  | rewound => exact .inl ⟨nofun, events_outputs _⟩
  | @suspended outputs next wait state _ _ =>
    refine .inr ⟨wait, rfl, ?_, Wait.Table.record?_arm _ _ _ hcx⟩
    rw [List.filterMap_append, List.filterMap_append, events_outputs, events_callArm]
    rfl
  | overfull => exact .inl ⟨nofun, events_outputs _⟩
  | finished =>
    refine .inl ⟨nofun, ?_⟩
    rw [List.filterMap_append, events_outputs]
    rfl

/-! ### Turns -/

/-- What a turn does, by how it found the wait of its session: it does nothing but ask while that
is unfinished, and otherwise runs the step from the label that is stored. -/
inductive Turn.Shows (routine : Routine L C) (m : Nat) (state : Progress C) (t : Turn) :
    Notice → Prop
  | held {l : L} (hhandling : t.handling =
      [.wait (.check t.session true), Routine.stillWaiting t.session l]) :
      Shows routine m state t .held
  | passed {l : L} {w : Workspace (Progress C) m}
      {x : Traced Effect (Outcome × Workspace (Progress C) m)}
      (hpoint : Label.encode l = state.resumePoint) (hl : l ≠ Label.entry)
      (hstate : w.state = state) (hran : Routine.Ran routine l t.call w x)
      (hhandling : .wait (.check t.session false) :: x.trace <+: t.handling) :
      Shows routine m state t (.passed state.resumePoint)
  | entered {w : Workspace (Progress C) m}
      {x : Traced Effect (Outcome × Workspace (Progress C) m)} (hpoint : state.resumePoint = 0)
      (hstate : w.state = state) (hran : Routine.Ran routine Label.entry t.call w x)
      (hhandling : x.trace <+: t.handling) : Shows routine m state t .entered

namespace Dispatcher

variable {d : Dispatcher (Progress C) π n m} {now : Instant} {i : Fin n}

theorem Served.ends {y : Traced Effect (Option Ending × Dispatcher (Progress C) π n m)}
    (h : Served d now i y) (hruns : d.plugin.Runs routine) (hbusy : (d.slot i).busy = true)
    (before : List Effect) (hran : Routine.Ran routine l (d.callOf now i) w x)
    (hresumed : d.resumed routine now i = ⟨before ++ x.trace, x.value⟩) :
    before ++ x.trace <+: y.trace ∧
      ∃ tail, y.trace.filterMap Effect.event? = before.filterMap Effect.event? ++ tail ∧
        Ends now i y.value.2 tail := by
  have hevents := hran.events (session_lt d i)
  obtain ⟨state, reply, hslot⟩ := h.slot
  cases h with
  | suspended hhandled =>
    rw [(resumed_of_handled hruns hhandled).1] at hresumed
    obtain ⟨rfl, hvalue⟩ := Traced.mk.inj hresumed
    rw [← hvalue] at hevents
    rcases hevents with ⟨hended, -⟩ | ⟨wait, -, hregistered, hrecord⟩
    · exact absurd rfl hended
    · refine ⟨List.prefix_rfl, _, List.filterMap_append, ?_⟩
      rw [hregistered]
      exact .suspended (by rw [hslot]; exact hbusy) hrecord
  | answered hhandled =>
    rw [(resumed_of_handled hruns hhandled).1] at hresumed
    obtain ⟨rfl, hvalue⟩ := Traced.mk.inj hresumed
    rw [← hvalue] at hevents
    rcases hevents with ⟨-, hregistered⟩ | ⟨wait, hwaiting, -, -⟩
    · refine ⟨List.prefix_rfl, _, List.filterMap_append, ?_⟩
      rw [hregistered]
      exact .answered (by rw [hslot]; rfl)
    · cases hwaiting
  | faulted hhandled =>
    rw [(resumed_of_handled hruns hhandled).1] at hresumed
    obtain ⟨rfl, hvalue⟩ := Traced.mk.inj hresumed
    rw [← hvalue] at hevents
    rcases hevents with ⟨-, hregistered⟩ | ⟨wait, hwaiting, -, -⟩
    · refine ⟨List.prefix_append _ _, [.cancel (session i)], ?_,
        .faulted (by rw [hslot]; rfl)⟩
      rw [List.filterMap_append, List.filterMap_append, hregistered, List.append_nil]
      rfl
    · cases hwaiting

/-- How the turn of a settled session can go. -/
inductive Noticed (routine : Routine L C) (d : Dispatcher (Progress C) π n m) (now : Instant)
    (i : Fin n) : Option Turn × Dispatcher (Progress C) π n m → Prop
  | idle {queue : Fifo Pending queueCapacity} (hbusy : (d.slot i).busy = false) :
      Noticed routine d now i (none, { d with queue })
  | held {t : Turn} (hbusy : (d.slot i).busy = true)
      (hwaiting : d.waits.isWaiting now (session i) = true)
      (hevents : t.events = [.check (session i) true])
      (hshows : t.Shows routine m (d.slot i).state .held) :
      Noticed routine d now i
        (some t, d.store i { d.slot i with first := false } d.persistent d.waits)
  | passed {t : Turn} {e : Dispatcher (Progress C) π n m} {tail : List Wait.Event}
      (hbusy : (d.slot i).busy = true) (hover : d.waits.isWaiting now (session i) = false)
      (hevents : t.events = .check (session i) false :: tail) (hends : Ends now i e tail)
      (hshows : t.Shows routine m (d.slot i).state (.passed (d.slot i).state.resumePoint)) :
      Noticed routine d now i (some t, e)
  | entered {t : Turn} {e : Dispatcher (Progress C) π n m} (hbusy : (d.slot i).busy = false)
      (hends : Ends now i e t.events) (hshows : t.Shows routine m (d.slot i).state .entered) :
      Noticed routine d now i (some t, e)

theorem noticed_turn (hruns : d.plugin.Runs routine) (now : Instant)
    (hsettled : Settled L (d.slot i).busy (d.slot i).state (d.waits.record? (session i))) :
    Noticed routine d now i (d.turn now i) := by
  cases hsettled with
  | idle hbusy hpoint _ =>
    have hturned := turned_turn d now i
    generalize d.turn now i = y at hturned
    cases hturned with
    | idle => exact .idle hbusy
    | continued hbusy' =>
      rw [hbusy] at hbusy'
      cases hbusy'
    | @begun command _ queue _ x _ _ _ hcall hserved =>
      have hstate : ((d.started i command queue).slot i).state = (d.slot i).state := by
        rw [slot_started]
        rfl
      have hpoint' : ((d.started i command queue).slot i).state.resumePoint = 0 := by
        rw [hstate]
        exact hpoint
      have hran := resumed_of_fresh routine now hpoint'
      obtain ⟨htrace, tail, hevents, hends⟩ := hserved.ends hruns (by rw [slot_started]; rfl) []
        hran rfl
      have hcallOf := callOf_eq now (slot_started d i command queue)
      rw [hcallOf] at hran
      cases hcall
      cases hevents
      exact .entered hbusy hends (.entered hpoint hstate hran htrace)
  | suspended hbusy hpoint hl _ =>
    cases hwaiting : d.waits.isWaiting now (session i) with
    | true =>
      rw [turn_of_waiting hruns hbusy hpoint hl hwaiting]
      exact .held hbusy hwaiting rfl (.held rfl)
    | false =>
      obtain ⟨y, hran, hresumed⟩ := resumed_of_over routine hpoint hl hwaiting
      obtain ⟨htrace, tail, hevents, hends⟩ := (served_run d now i).ends hruns hbusy [_] hran
        hresumed
      rw [turn_of_busy d now hbusy]
      exact .passed hbusy hwaiting hevents hends (.passed hpoint hl rfl hran htrace)

theorem turn_shows (hruns : d.plugin.Runs routine) (now : Instant)
    (hsettled : Settled L (d.slot i).busy (d.slot i).state (d.waits.record? (session i)))
    {t : Turn} (ht : (d.turn now i).1 = some t) :
    t.Shows routine m (d.slot i).state (t.found (d.slot i).state.resumePoint) := by
  have hnoticed := noticed_turn hruns now hsettled
  generalize d.turn now i = y at hnoticed ht
  cases hnoticed with
  | idle => cases ht
  | held _ _ hevents hshows =>
    cases ht
    rw [Turn.found, hevents]
    exact hshows
  | passed _ _ hevents _ hshows =>
    cases ht
    rw [Turn.found, hevents]
    exact hshows
  | entered _ hends hshows =>
    cases ht
    rw [hends.entered]
    exact hshows

end Dispatcher

end Resumable
