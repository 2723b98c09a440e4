import Resumable.Proofs.Waits
import Resumable.Routine.Resume

/-!
# What one call of a routine can do

A call ends in one of a few ways, and this module lists them once: `Ran` has a case for each ending
of a step, `Resumed` one for each way in which a call comes to a step or does without. Every later
fact about calls is a case analysis over these two relations. The frame facts follow: a call
writes to no record but its own, and what it does depends on no other.
-/

namespace Resumable

theorem Label.eq_of_encode_eq {L : Type} [DecidableEq L] [Label L] {l l' : L}
    (h : Label.encode l = Label.encode l') : l = l' := by
  have hdecode := Label.decode_encode l
  rw [h, Label.decode_encode] at hdecode
  exact (Option.some.inj hdecode).symm

namespace Routine

variable {L C : Type} [DecidableEq L] [Label L] [Inhabited C] {m : Nat}

/-- How a step from a label can end the call that runs it. -/
inductive Ran (routine : Routine L C) (l : L) (call : Call) (w : Workspace (Progress C) m) :
    Traced Effect (Outcome × Workspace (Progress C) m) → Prop
  | failed {outputs : List Output} {fault : Fault} {state : Progress C}
      (hstep : routine.step l w.state call.command = ⟨outputs, .error fault, state⟩) :
      Ran routine l call w
        ⟨outputs.map Output.toEffect, .error fault, { w with state := Progress.fresh }⟩
  | rewound {outputs : List Output} {wait : Wait} {state : Progress C}
      (hstep : routine.step l w.state call.command
        = ⟨outputs, .ok (.suspend Label.entry wait), state⟩) :
      Ran routine l call w
        ⟨outputs.map Output.toEffect, .error (.protocolViolation 0),
          { w with state := Progress.fresh }⟩
  | suspended {outputs : List Output} {next : L} {wait : Wait} {state : Progress C}
      (hstep : routine.step l w.state call.command = ⟨outputs, .ok (.suspend next wait), state⟩)
      (hnext : next ≠ Label.entry) :
      Ran routine l call w
        ⟨outputs.map Output.toEffect ++
            ((w.waits.callArm call.now call.context wait).trace ++
              [suspended call.context next wait]),
          .ok .waiting,
          { w with
            state := { state with resumePoint := Label.encode next }
            waits := w.waits.arm call.now call.context wait }⟩
  | overfull {outputs : List Output} {result : UInt8} {cause : ReplyError} {state : Progress C}
      (hstep : routine.step l w.state call.command = ⟨outputs, .ok (.finish result), state⟩)
      (hpush : w.reply.push result = .error cause) :
      Ran routine l call w
        ⟨outputs.map Output.toEffect, .error (.reply cause), { w with state := Progress.fresh }⟩
  | finished {outputs : List Output} {result : UInt8} {reply : Reply} {state : Progress C}
      (hstep : routine.step l w.state call.command = ⟨outputs, .ok (.finish result), state⟩)
      (hpush : w.reply.push result = .ok reply) :
      Ran routine l call w
        ⟨outputs.map Output.toEffect ++ [finished call.context result], .ok .ok,
          { w with state := { state with resumePoint := 0 }, reply }⟩

theorem runFrom_eq (routine : Routine L C) (l : L) (call : Call) (w : Workspace (Progress C) m)
    {outputs : List Output} {asked : Except Fault (Step L)} {state : Progress C}
    (hstep : routine.step l w.state call.command = ⟨outputs, asked, state⟩) :
    routine.runFrom l call w =
      (⟨outputs.map Output.toEffect, ()⟩ : Traced Effect Unit) >>= fun _ =>
        match asked with
        | .error fault => pure (fail fault { w with state })
        | .ok step => settle call { w with state } step := by
  unfold runFrom
  rw [hstep]
  rfl

theorem ran_runFrom (routine : Routine L C) (l : L) (call : Call)
    (w : Workspace (Progress C) m) : Ran routine l call w (routine.runFrom l call w) := by
  rcases hstep : routine.step l w.state call.command with ⟨outputs, asked, state⟩
  rw [runFrom_eq routine l call w hstep]
  cases asked with
  | error fault =>
    have h := Ran.failed (m := m) hstep
    rw [← List.append_nil (outputs.map Output.toEffect)] at h
    exact h
  | ok step =>
    cases step with
    | suspend next wait =>
      by_cases hnext : next = Label.entry
      · subst hnext
        have h := Ran.rewound hstep
        rw [← List.append_nil (outputs.map Output.toEffect), ← Label.encode_entry (L := L)] at h
        simp only [settle, if_true]
        exact h
      · simp only [settle, if_neg hnext]
        exact .suspended hstep hnext
    | finish result =>
      cases hpush : w.reply.push result with
      | error cause =>
        have h := Ran.overfull hstep hpush
        rw [← List.append_nil (outputs.map Output.toEffect)] at h
        simp only [settle, hpush]
        exact h
      | ok reply =>
        simp only [settle, hpush]
        exact .finished hstep hpush

/-- How a call comes to a step, or ends without one. -/
inductive Resumed (routine : Routine L C) (call : Call) (w : Workspace (Progress C) m) :
    Traced Effect (Outcome × Workspace (Progress C) m) → Prop
  | unknown (hpoint : (Label.decode w.state.resumePoint : Option L) = none) :
      Resumed routine call w
        ⟨[noLabel call.context w.state.resumePoint, .wait (.cancel call.context)],
          .error (.protocolViolation w.state.resumePoint),
          { w with state := Progress.fresh, waits := w.waits.cancel call.context }⟩
  | entered {x : Traced Effect (Outcome × Workspace (Progress C) m)}
      (hpoint : w.state.resumePoint = 0) (hran : Ran routine Label.entry call w x) :
      Resumed routine call w x
  | pending {l : L} (hpoint : Label.encode l = w.state.resumePoint) (hl : l ≠ Label.entry)
      (hwait : w.waits.isWaiting call.now call.context = true) :
      Resumed routine call w
        ⟨[.wait (.check call.context true), stillWaiting call.context l], .ok .waiting, w⟩
  | elapsed {l : L} {x : Traced Effect (Outcome × Workspace (Progress C) m)}
      (hpoint : Label.encode l = w.state.resumePoint) (hl : l ≠ Label.entry)
      (hwait : w.waits.isWaiting call.now call.context = false)
      (hran : Ran routine l call { w with waits := w.waits.cancel call.context } x) :
      Resumed routine call w ⟨.wait (.check call.context false) :: x.trace, x.value⟩

theorem resume_of_unknown (routine : Routine L C) (call : Call) {w : Workspace (Progress C) m}
    (hpoint : (Label.decode w.state.resumePoint : Option L) = none) :
    routine.resume call w =
      ⟨[noLabel call.context w.state.resumePoint, .wait (.cancel call.context)],
        .error (.protocolViolation w.state.resumePoint),
        { w with state := Progress.fresh, waits := w.waits.cancel call.context }⟩ := by
  simp only [resume, hpoint]
  rfl

theorem resume_of_fresh (routine : Routine L C) (call : Call) {w : Workspace (Progress C) m}
    (hpoint : w.state.resumePoint = 0) :
    routine.resume call w = routine.runFrom Label.entry call w := by
  have hdecode : (Label.decode w.state.resumePoint : Option L) = some Label.entry := by
    rw [hpoint, ← Label.encode_entry (L := L), Label.decode_encode]
  simp only [resume, hdecode, if_true]

theorem resume_of_label (routine : Routine L C) (call : Call) {w : Workspace (Progress C) m}
    {l : L} (hpoint : Label.encode l = w.state.resumePoint) (hl : l ≠ Label.entry) :
    routine.resume call w = routine.continueAt l call w := by
  simp only [resume, ← hpoint, Label.decode_encode, if_neg hl]

theorem continueAt_of_waiting (routine : Routine L C) (l : L) {call : Call}
    {w : Workspace (Progress C) m} (hwait : w.waits.isWaiting call.now call.context = true) :
    routine.continueAt l call w =
      ⟨[.wait (.check call.context true), stillWaiting call.context l], .ok .waiting, w⟩ := by
  unfold continueAt Wait.Table.callCheck
  rw [Wait.Table.check_of_waiting hwait]
  rfl

theorem continueAt_of_over (routine : Routine L C) (l : L) {call : Call}
    {w : Workspace (Progress C) m} (hwait : w.waits.isWaiting call.now call.context = false) :
    routine.continueAt l call w =
      ⟨.wait (.check call.context false) ::
          (routine.runFrom l call { w with waits := w.waits.cancel call.context }).trace,
        (routine.runFrom l call { w with waits := w.waits.cancel call.context }).value⟩ := by
  unfold continueAt Wait.Table.callCheck
  rw [Wait.Table.check_of_over hwait]
  rfl

theorem resumed_resume (routine : Routine L C) (call : Call) (w : Workspace (Progress C) m) :
    Resumed routine call w (routine.resume call w) := by
  cases hdecode : (Label.decode w.state.resumePoint : Option L) with
  | none =>
    rw [resume_of_unknown routine call hdecode]
    exact .unknown hdecode
  | some l =>
    have hpoint := Label.decode_eq_some_iff.mp hdecode
    by_cases hl : l = Label.entry
    · have hzero : w.state.resumePoint = 0 := by rw [← hpoint, hl, Label.encode_entry]
      rw [resume_of_fresh routine call hzero]
      exact .entered hzero (ran_runFrom routine Label.entry call w)
    · rw [resume_of_label routine call hpoint hl]
      cases hwait : w.waits.isWaiting call.now call.context with
      | true =>
        rw [continueAt_of_waiting routine l hwait]
        exact .pending hpoint hl hwait
      | false =>
        rw [continueAt_of_over routine l hwait]
        exact .elapsed hpoint hl hwait (ran_runFrom routine l call _)

/-! ### A call keeps to its own record -/

theorem Ran.cell?_other {routine : Routine L C} {l : L} {call : Call}
    {w : Workspace (Progress C) m} {x : Traced Effect (Outcome × Workspace (Progress C) m)}
    (h : Ran routine l call w x) {k : Nat} (hk : k ≠ call.context.toNat) :
    x.value.2.waits.cell? k = w.waits.cell? k := by
  cases h with
  | failed => rfl
  | rewound => rfl
  | suspended => exact Wait.Table.cell?_update_other _ _ hk
  | overfull => rfl
  | finished => rfl

theorem Resumed.cell?_other {routine : Routine L C} {call : Call}
    {w : Workspace (Progress C) m} {x : Traced Effect (Outcome × Workspace (Progress C) m)}
    (h : Resumed routine call w x) {k : Nat} (hk : k ≠ call.context.toNat) :
    x.value.2.waits.cell? k = w.waits.cell? k := by
  cases h with
  | unknown => exact Wait.Table.cell?_update_other _ _ hk
  | entered _ hran => exact hran.cell?_other hk
  | pending => rfl
  | elapsed _ _ _ hran => exact (hran.cell?_other hk).trans (Wait.Table.cell?_update_other _ _ hk)

/-- Two workspaces that a call under one context cannot tell apart. -/
structure SameAt {σ : Type} (cx : Wait.Context) (w v : Workspace σ m) : Prop where
  state : w.state = v.state
  reply : w.reply = v.reply
  record : w.waits.record? cx = v.waits.record? cx

/-- Two results of a call that agree in all that can be seen under one context. -/
structure SameResult {σ : Type} (cx : Wait.Context)
    (x y : Traced Effect (Outcome × Workspace σ m)) : Prop where
  trace : x.trace = y.trace
  outcome : x.value.1 = y.value.1
  work : SameAt cx x.value.2 y.value.2

theorem SameAt.isWaiting {σ : Type} {cx : Wait.Context} {w v : Workspace σ m}
    (h : SameAt cx w v) (now : Instant) : w.waits.isWaiting now cx = v.waits.isWaiting now cx := by
  unfold Wait.Table.isWaiting
  rw [h.record]

theorem record?_update_same {t u : Wait.Table m} (cx : Wait.Context) (r : Option Wait.Record) :
    (t.update cx r).record? cx = (u.update cx r).record? cx := by
  rw [Wait.Table.record?_update, Wait.Table.record?_update]

theorem settle_same (call : Call) {w v : Workspace (Progress C) m} (h : SameAt call.context w v)
    (step : Step L) : SameResult call.context (settle call w step) (settle call v step) := by
  obtain ⟨state, waits, reply⟩ := w
  obtain ⟨state', waits', reply'⟩ := v
  obtain ⟨rfl, rfl, hrecord⟩ := h
  cases step with
  | suspend next wait =>
    simp only [settle]
    split
    · exact ⟨rfl, rfl, rfl, rfl, hrecord⟩
    · exact ⟨rfl, rfl, rfl, rfl, record?_update_same call.context _⟩
  | finish result =>
    simp only [settle]
    split
    · exact ⟨rfl, rfl, rfl, rfl, hrecord⟩
    · exact ⟨rfl, rfl, rfl, rfl, hrecord⟩

theorem runFrom_same (routine : Routine L C) (l : L) (call : Call)
    {w v : Workspace (Progress C) m} (h : SameAt call.context w v) :
    SameResult call.context (routine.runFrom l call w) (routine.runFrom l call v) := by
  rcases hstep : routine.step l w.state call.command with ⟨outputs, asked, state⟩
  have hstep' := hstep
  rw [h.state] at hstep'
  rw [runFrom_eq routine l call w hstep, runFrom_eq routine l call v hstep']
  have hwork : SameAt call.context { w with state } { v with state } :=
    ⟨rfl, h.reply, h.record⟩
  cases asked with
  | error fault => exact ⟨rfl, rfl, rfl, h.reply, h.record⟩
  | ok step =>
    have hsettle := settle_same call hwork step
    exact ⟨congrArg (outputs.map Output.toEffect ++ ·) hsettle.trace, hsettle.outcome,
      hsettle.work⟩

/-- What a call does, answers and leaves depends on its own record only. -/
theorem resume_same (routine : Routine L C) (call : Call) {w v : Workspace (Progress C) m}
    (h : SameAt call.context w v) :
    SameResult call.context (routine.resume call w) (routine.resume call v) := by
  have hcancel : SameAt call.context { w with waits := w.waits.cancel call.context }
      { v with waits := v.waits.cancel call.context } :=
    ⟨h.state, h.reply, record?_update_same call.context none⟩
  cases hdecode : (Label.decode w.state.resumePoint : Option L) with
  | none =>
    have hdecode' := hdecode
    rw [h.state] at hdecode'
    rw [resume_of_unknown routine call hdecode, resume_of_unknown routine call hdecode', h.state]
    exact ⟨rfl, rfl, rfl, h.reply, hcancel.record⟩
  | some l =>
    have hpoint := Label.decode_eq_some_iff.mp hdecode
    have hpoint' := hpoint
    rw [h.state] at hpoint'
    by_cases hl : l = Label.entry
    · have hzero : w.state.resumePoint = 0 := by rw [← hpoint, hl, Label.encode_entry]
      have hzero' : v.state.resumePoint = 0 := by rw [← h.state, hzero]
      rw [resume_of_fresh routine call hzero, resume_of_fresh routine call hzero']
      exact runFrom_same routine Label.entry call h
    · rw [resume_of_label routine call hpoint hl, resume_of_label routine call hpoint' hl]
      cases hwait : w.waits.isWaiting call.now call.context with
      | true =>
        rw [continueAt_of_waiting routine l hwait,
          continueAt_of_waiting routine l ((h.isWaiting call.now).symm.trans hwait)]
        exact ⟨rfl, rfl, h⟩
      | false =>
        rw [continueAt_of_over routine l hwait,
          continueAt_of_over routine l ((h.isWaiting call.now).symm.trans hwait)]
        have hrun := runFrom_same routine l call hcancel
        exact ⟨congrArg (_ :: ·) hrun.trace, hrun.outcome, hrun.work⟩

end Routine

end Resumable
