import Resumable.Plugin.Blink
import Resumable.Plugin.Ramp
import Resumable.Proofs.Resume
import Resumable.Proofs.Serve

/-!
# Dispatchers that run a routine

Most plugins have no handler of their own: a call resumes a routine, and a preparation makes the
state fresh. This module says so once (`Plugin.Runs`), for blink and ramp as for any other, and
carries the facts about one resumed call over to a turn: it writes to no record but that of its
session, and after it the session is suspended on a wait, or idle and fresh.
-/

namespace Resumable

variable {L C π : Type} [DecidableEq L] [Label L] [Inhabited C] {n m : Nat}

/-- The handler of the plugin resumes a routine, and every session can be made ready for the entry
of it. -/
structure Plugin.Runs (plugin : Plugin (Progress C) π) (routine : Routine L C) : Prop where
  blank : plugin.blank.resumePoint = 0
  prepare : ∀ persistent state, ∃ persistent' state',
    (plugin.prepare persistent state).value = (.ok (), persistent', state') ∧
      state'.resumePoint = 0
  handle : ∀ {m : Nat} (call : Call) (persistent : π) (w : Workspace (Progress C) m),
    plugin.handle call persistent w = Plugin.resumeRoutine routine call persistent w

theorem Blink.plugin_runs (pin : PinId) : (Blink.plugin pin).Runs (Blink.routine pin) where
  blank := rfl
  prepare _ _ := ⟨(), Progress.fresh, rfl, rfl⟩
  handle _ _ _ := rfl

theorem Ramp.plugin_runs (pin : PinId) : (Ramp.plugin pin).Runs (Ramp.routine pin) where
  blank := rfl
  prepare _ _ := ⟨(), Progress.fresh, rfl, rfl⟩
  handle _ _ _ := rfl

/-- The handler writes to no record but that of the session it is called for. -/
def Plugin.Contained {σ : Type} (plugin : Plugin σ π) : Prop :=
  ∀ {m : Nat} (call : Call) (persistent : π) (w : Workspace σ m) {k : Nat},
    k ≠ call.context.toNat →
      (plugin.handle call persistent w).value.2.2.waits.cell? k = w.waits.cell? k

theorem Plugin.Runs.contained {plugin : Plugin (Progress C) π} {routine : Routine L C}
    (h : plugin.Runs routine) : plugin.Contained := by
  intro m call persistent w k hk
  rw [h.handle]
  exact (Routine.resumed_resume routine call w).cell?_other hk

/-! ### Where a call leaves its session -/

/-- A session between two calls: idle, fresh and without a wait, or suspended at a label other than
the entry with a wait registered. -/
inductive Settled (L : Type) [DecidableEq L] [Label L] (busy : Bool) (progress : Progress C)
    (record : Option Wait.Record) : Prop
  | idle (hbusy : busy = false) (hpoint : progress.resumePoint = 0) (hrecord : record = none)
  | suspended {l : L} (hbusy : busy = true) (hpoint : Label.encode l = progress.resumePoint)
      (hl : l ≠ Label.entry) (hrecord : record.isSome = true)

omit [Inhabited C] in
theorem Settled.fresh_record {busy : Bool} {progress : Progress C} {record : Option Wait.Record}
    (h : Settled L busy progress record) (hpoint : progress.resumePoint = 0) : record = none := by
  cases h with
  | idle _ _ hrecord => exact hrecord
  | suspended _ hencode hl _ =>
    rw [hpoint, Label.encode_eq_zero_iff] at hencode
    exact absurd hencode hl

omit [Inhabited C] in
theorem Settled.of_idle {busy : Bool} {progress : Progress C} {record : Option Wait.Record}
    (h : Settled L busy progress record) (hbusy : busy = false) :
    progress.resumePoint = 0 ∧ record = none := by
  cases h with
  | idle _ hpoint hrecord => exact ⟨hpoint, hrecord⟩
  | suspended hbusy' =>
    rw [hbusy] at hbusy'
    cases hbusy'

omit [Inhabited C] in
theorem Settled.of_busy {busy : Bool} {progress : Progress C} {record : Option Wait.Record}
    (h : Settled L busy progress record) (hbusy : busy = true) :
    ∃ l : L, Label.encode l = progress.resumePoint ∧ l ≠ Label.entry ∧
      record.isSome = true := by
  cases h with
  | idle hidle =>
    rw [hbusy] at hidle
    cases hidle
  | suspended _ hpoint hl hrecord => exact ⟨_, hpoint, hl, hrecord⟩

omit [Inhabited C] in
theorem Settled.signalled {busy : Bool} {progress : Progress C} {record : Option Wait.Record}
    (h : Settled L busy progress record) (transfer : Transfer) :
    Settled L busy progress (record.map (Wait.Record.signalled transfer)) := by
  cases h with
  | idle hbusy hpoint hrecord => exact .idle hbusy hpoint (by rw [hrecord]; rfl)
  | suspended hbusy hpoint hl hrecord =>
    exact .suspended hbusy hpoint hl (by rw [Option.isSome_map]; exact hrecord)

/-- What a call answers and what it leaves: suspended while it waits, and otherwise fresh. -/
inductive Routine.Leaves (L : Type) [DecidableEq L] [Label L] (cx : Wait.Context) :
    Outcome × Workspace (Progress C) m → Prop
  | waiting {l : L} {w : Workspace (Progress C) m}
      (hpoint : Label.encode l = w.state.resumePoint) (hl : l ≠ Label.entry)
      (hrecord : (w.waits.record? cx).isSome = true) : Leaves L cx (.ok .waiting, w)
  | answered {w : Workspace (Progress C) m} (hpoint : w.state.resumePoint = 0)
      (hrecord : w.waits.record? cx = none) : Leaves L cx (.ok .ok, w)
  | faulted {fault : Fault} {w : Workspace (Progress C) m} (hpoint : w.state.resumePoint = 0) :
      Leaves L cx (.error fault, w)

theorem Routine.Ran.leaves {routine : Routine L C} {l : L} {call : Call}
    {w : Workspace (Progress C) m} {x : Traced Effect (Outcome × Workspace (Progress C) m)}
    (h : Routine.Ran routine l call w x) (hcx : call.context.toNat < m)
    (hrecord : w.waits.record? call.context = none) :
    Routine.Leaves L call.context x.value := by
  cases h with
  | failed => exact .faulted rfl
  | rewound => exact .faulted rfl
  | suspended _ hnext =>
    refine .waiting rfl hnext ?_
    rw [Wait.Table.record?_arm _ _ _ hcx]
    rfl
  | overfull => exact .faulted rfl
  | finished => exact .answered rfl hrecord

theorem Routine.Resumed.leaves {routine : Routine L C} {call : Call}
    {w : Workspace (Progress C) m} {x : Traced Effect (Outcome × Workspace (Progress C) m)}
    (h : Routine.Resumed routine call w x) (hcx : call.context.toNat < m)
    (hfresh : w.state.resumePoint = 0 → w.waits.record? call.context = none) :
    Routine.Leaves L call.context x.value := by
  cases h with
  | unknown => exact .faulted rfl
  | entered hzero hran => exact hran.leaves hcx (hfresh hzero)
  | pending hpoint hl hwait => exact .waiting hpoint hl (Wait.Table.isSome_of_waiting hwait)
  | elapsed _ _ _ hran => exact hran.leaves hcx (Wait.Table.record?_cancel _ _)

namespace Dispatcher

variable {routine : Routine L C} {d : Dispatcher (Progress C) π n m} {now : Instant} {i : Fin n}
  {x : Traced Effect (Option Ending × Dispatcher (Progress C) π n m)}
  {y : Option Turn × Dispatcher (Progress C) π n m}

def resumed (d : Dispatcher (Progress C) π n m) (routine : Routine L C) (now : Instant)
    (i : Fin n) : Traced Effect (Outcome × Workspace (Progress C) m) :=
  routine.resume (d.callOf now i) ⟨(d.slot i).state, d.waits, (d.slot i).reply⟩

theorem handled_eq (hruns : d.plugin.Runs routine) (now : Instant) (i : Fin n) :
    d.handled now i = ⟨(d.resumed routine now i).trace, (d.resumed routine now i).value.1,
      d.persistent, (d.resumed routine now i).value.2⟩ := by
  rw [handled, hruns.handle]
  exact Traced.ext (List.append_nil _) rfl

theorem resumed_of_handled (hruns : d.plugin.Runs routine) {trace : List Effect}
    {outcome : Outcome} {persistent : π} {w : Workspace (Progress C) m}
    (h : d.handled now i = ⟨trace, outcome, persistent, w⟩) :
    d.resumed routine now i = ⟨trace, outcome, w⟩ ∧ persistent = d.persistent := by
  rw [handled_eq hruns] at h
  cases h
  exact ⟨rfl, rfl⟩

theorem resumed_of_waiting (routine : Routine L C) {l : L}
    (hpoint : Label.encode l = (d.slot i).state.resumePoint) (hl : l ≠ Label.entry)
    (hwaiting : d.waits.isWaiting now (session i) = true) :
    d.resumed routine now i =
      ⟨[.wait (.check (session i) true), Routine.stillWaiting (session i) l], .ok .waiting,
        ⟨(d.slot i).state, d.waits, (d.slot i).reply⟩⟩ := by
  rw [resumed, Routine.resume_of_label routine _ hpoint hl]
  exact Routine.continueAt_of_waiting routine l hwaiting

theorem resumed_of_over (routine : Routine L C) {l : L}
    (hpoint : Label.encode l = (d.slot i).state.resumePoint) (hl : l ≠ Label.entry)
    (hover : d.waits.isWaiting now (session i) = false) :
    ∃ y, Routine.Ran routine l (d.callOf now i)
        ⟨(d.slot i).state, d.waits.cancel (session i), (d.slot i).reply⟩ y ∧
      d.resumed routine now i = ⟨.wait (.check (session i) false) :: y.trace, y.value⟩ := by
  refine ⟨_, Routine.ran_runFrom routine l (d.callOf now i) _, ?_⟩
  rw [resumed, Routine.resume_of_label routine _ hpoint hl]
  exact Routine.continueAt_of_over routine l hover

theorem resumed_of_fresh (routine : Routine L C) (now : Instant)
    (hpoint : (d.slot i).state.resumePoint = 0) :
    Routine.Ran routine Label.entry (d.callOf now i)
      ⟨(d.slot i).state, d.waits, (d.slot i).reply⟩ (d.resumed routine now i) := by
  rw [resumed, Routine.resume_of_fresh routine _ hpoint]
  exact Routine.ran_runFrom routine Label.entry _ _

/-- A turn that finds the wait of its session unfinished runs no step and stores nothing new. -/
theorem turn_of_waiting (hruns : d.plugin.Runs routine) {l : L}
    (hbusy : (d.slot i).busy = true) (hpoint : Label.encode l = (d.slot i).state.resumePoint)
    (hl : l ≠ Label.entry) (hwaiting : d.waits.isWaiting now (session i) = true) :
    d.turn now i =
      (some ⟨session i, none, d.callOf now i,
          [.wait (.check (session i) true), Routine.stillWaiting (session i) l], none⟩,
        d.store i { d.slot i with first := false } d.persistent d.waits) := by
  have hhandled := handled_eq hruns now i
  rw [resumed_of_waiting routine hpoint hl hwaiting] at hhandled
  have hrun := run_of_handled hhandled
  rw [turn_of_busy d now hbusy, hrun]

/-- A preparation makes the session ready for the entry, since it is not refused. -/
theorem prepareSlot_of_runs (hruns : d.plugin.Runs routine) (i : Fin n) :
    ∃ persistent state, state.resumePoint = 0 ∧
      (d.prepareSlot i).value =
        (.ok (), d.store i (Slot.blank state) persistent (d.waits.cancel (session i))) := by
  obtain ⟨persistent, state, hready, hpoint⟩ := hruns.prepare d.persistent d.plugin.blank
  refine ⟨persistent, state, hpoint, ?_⟩
  have hprepared := prepared_prepareSlot d i
  generalize (d.prepareSlot i).value = y at hprepared
  cases hprepared with
  | ready hprepare =>
    rw [hready] at hprepare
    cases hprepare
    rfl
  | refused hprepare =>
    rw [hready] at hprepare
    cases hprepare

section Contained

variable {σ : Type} {d : Dispatcher σ π n m} {k : Nat}
  {x : Traced Effect (Option Ending × Dispatcher σ π n m)} {y : Option Turn × Dispatcher σ π n m}

theorem Served.cell?_other (h : Served d now i x) (hcontained : d.plugin.Contained)
    (hk : k ≠ i.val) : x.value.2.waits.cell? k = d.waits.cell? k := by
  have hcx : k ≠ (session i).toNat := by
    rw [session_toNat d.addressable]
    exact hk
  have hcell := hcontained (d.callOf now i) d.persistent
    ⟨(d.slot i).state, d.waits, (d.slot i).reply⟩ hcx
  change (d.handled now i).value.2.2.waits.cell? k = d.waits.cell? k at hcell
  cases h with
  | suspended hhandled =>
    rw [hhandled] at hcell
    exact hcell
  | answered hhandled =>
    rw [hhandled] at hcell
    exact hcell
  | faulted hhandled =>
    rw [hhandled] at hcell
    exact (Wait.Table.cell?_update_other _ _ hcx).trans hcell

theorem Turned.cell?_other (h : Turned d now i y) (hcontained : d.plugin.Contained)
    (hk : k ≠ i.val) : y.2.waits.cell? k = d.waits.cell? k := by
  cases h with
  | idle => rfl
  | continued _ hserved => exact hserved.cell?_other hcontained hk
  | begun _ _ _ _ hserved => exact hserved.cell?_other hcontained hk

end Contained

theorem Served.settled (h : Served d now i x) (hruns : d.plugin.Runs routine)
    (hbusy : (d.slot i).busy = true)
    (hfresh : (d.slot i).state.resumePoint = 0 → d.waits.record? (session i) = none) :
    Settled L (x.value.2.slot i).busy (x.value.2.slot i).state
      (x.value.2.waits.record? (session i)) := by
  have hcx := session_lt d i
  have hresumed := Routine.resumed_resume routine (d.callOf now i)
    ⟨(d.slot i).state, d.waits, (d.slot i).reply⟩
  have hleaves := hresumed.leaves hcx hfresh
  change Routine.Leaves L (session i) (d.resumed routine now i).value at hleaves
  cases h with
  | suspended hhandled =>
    rw [(resumed_of_handled hruns hhandled).1] at hleaves
    rw [slot_store]
    cases hleaves with
    | waiting hpoint hl hrecord => exact .suspended hbusy hpoint hl hrecord
  | answered hhandled =>
    rw [(resumed_of_handled hruns hhandled).1] at hleaves
    rw [slot_store]
    cases hleaves with
    | answered hpoint hrecord => exact .idle rfl hpoint hrecord
  | faulted hhandled =>
    rw [(resumed_of_handled hruns hhandled).1] at hleaves
    rw [slot_store]
    cases hleaves with
    | faulted hpoint =>
      -- The routine may leave a wait behind when it fails; the dispatcher removes it.
      exact .idle rfl hpoint (Wait.Table.record?_cancel _ _)

theorem Turned.settled (h : Turned d now i y) (hruns : d.plugin.Runs routine)
    (hsettled : Settled L (d.slot i).busy (d.slot i).state (d.waits.record? (session i))) :
    Settled L (y.2.slot i).busy (y.2.slot i).state (y.2.waits.record? (session i)) := by
  cases h with
  | idle => exact hsettled
  | continued hbusy hserved => exact hserved.settled hruns hbusy hsettled.fresh_record
  | begun _ _ _ _ hserved =>
    refine hserved.settled hruns (by rw [slot_started]; rfl) ?_
    rw [slot_started]
    exact hsettled.fresh_record

end Dispatcher

end Resumable
