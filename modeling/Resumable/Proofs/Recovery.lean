import Resumable.Proofs.Outputs

/-!
# One call from any progress

A stored progress may have been forged or left over, and the table of waits may hold anything. Still
one call brings the session into order: a fault makes it fresh, an answer makes it enterable again,
and a session that is told to wait stands at a label with the wait that its last step asked for, or
was not touched at all. Nothing is assumed of the step that runs; what it wrote to the progress
before it failed is gone with the rest.
-/

namespace Resumable

variable {L C : Type} [DecidableEq L] [Label L] [Inhabited C] {m : Nat}

namespace Routine

variable {routine : Routine L C} {l : L} {call : Call} {w : Workspace (Progress C) m}
  {x : Traced Effect (Outcome × Workspace (Progress C) m)}

/-! ### Faults -/

theorem Ran.of_fault (h : Ran routine l call w x) {fault : Fault}
    (hout : x.value.1 = .error fault) :
    x.value.2.state = Progress.fresh ∧ x.value.2.reply = w.reply := by
  cases h with
  | failed => exact ⟨rfl, rfl⟩
  | rewound => exact ⟨rfl, rfl⟩
  | suspended => cases hout
  | overfull => exact ⟨rfl, rfl⟩
  | finished => cases hout

theorem Resumed.of_fault (h : Resumed routine call w x) {fault : Fault}
    (hout : x.value.1 = .error fault) :
    x.value.2.state = Progress.fresh ∧ x.value.2.reply = w.reply := by
  cases h with
  | unknown => exact ⟨rfl, rfl⟩
  | entered _ hran => exact hran.of_fault hout
  | pending => cases hout
  | elapsed _ _ _ hran => exact hran.of_fault hout

/-! ### Waits -/

/-- One step ran, from the stored label, and the session was suspended as it asked: its outputs are
those of the call, its progress is kept under the next label, and its wait is the one registered. -/
def SuspendsOnce (routine : Routine L C) (call : Call) (w : Workspace (Progress C) m)
    (x : Traced Effect (Outcome × Workspace (Progress C) m)) : Prop :=
  ∃ (l next : L) (wait : Wait) (outputs : List Output) (state : Progress C),
    Label.encode l = w.state.resumePoint ∧ next ≠ Label.entry ∧
      routine.step l w.state call.command = ⟨outputs, .ok (.suspend next wait), state⟩ ∧
      pinOps x.trace = pinOps (outputs.map Output.toEffect) ∧
      x.value.2.state = { state with resumePoint := Label.encode next } ∧
      x.value.2.reply = w.reply ∧
      (call.context.toNat < m →
        x.value.2.waits.record? call.context = some (Wait.Record.start call.now wait))

omit [Inhabited C] in
theorem SuspendsOnce.reply (h : SuspendsOnce routine call w x) : x.value.2.reply = w.reply := by
  obtain ⟨-, -, -, -, -, -, -, -, -, -, hreply, -⟩ := h
  exact hreply

theorem pinOps_callArm (waits : Wait.Table m) (now : Instant) (cx : Wait.Context) (wait : Wait) :
    pinOps (waits.callArm now cx wait).trace = [] := by
  rw [← pinOps_deeds, deeds_callArm]
  rfl

theorem Ran.of_waiting (h : Ran routine l call w x) (hpoint : Label.encode l = w.state.resumePoint)
    (hout : x.value.1 = .ok .waiting) : SuspendsOnce routine call w x := by
  cases h with
  | failed => cases hout
  | rewound => cases hout
  | suspended hstep hnext =>
    refine ⟨l, _, _, _, _, hpoint, hnext, hstep, ?_, rfl, rfl, fun hcx => ?_⟩
    · rw [pinOps_append, pinOps_append, pinOps_callArm]
      exact List.append_nil _
    · exact Wait.Table.record?_arm _ _ _ hcx
  | overfull => cases hout
  | finished => cases hout

theorem Resumed.of_waiting (h : Resumed routine call w x) (hout : x.value.1 = .ok .waiting) :
    x.value.2 = w ∧ pinOps x.trace = [] ∨ SuspendsOnce routine call w x := by
  cases h with
  | unknown => cases hout
  | entered hzero hran =>
    have hpoint : Label.encode (Label.entry : L) = w.state.resumePoint := by
      rw [hzero, Label.encode_entry]
    exact .inr (hran.of_waiting hpoint hout)
  | pending => exact .inl ⟨rfl, rfl⟩
  | elapsed hpoint _ _ hran => exact .inr (hran.of_waiting hpoint hout)

theorem Ran.label_of_waiting (h : Ran routine l call w x) (hout : x.value.1 = .ok .waiting) :
    ∃ next : L, Label.encode next = x.value.2.state.resumePoint ∧ next ≠ Label.entry := by
  cases h with
  | failed => cases hout
  | rewound => cases hout
  | suspended _ hnext => exact ⟨_, rfl, hnext⟩
  | overfull => cases hout
  | finished => cases hout

/-- A session that is told to wait stands at a label other than the entry. -/
theorem Resumed.label_of_waiting (h : Resumed routine call w x)
    (hout : x.value.1 = .ok .waiting) :
    ∃ next : L, Label.encode next = x.value.2.state.resumePoint ∧ next ≠ Label.entry := by
  cases h with
  | unknown => cases hout
  | entered _ hran => exact hran.label_of_waiting hout
  | pending hpoint hl => exact ⟨_, hpoint, hl⟩
  | elapsed _ _ _ hran => exact hran.label_of_waiting hout

/-! ### Answers -/

/-- One step ran, from the stored label, and finished: the reply has its result and the session can
be entered again. -/
def AnswersOnce (routine : Routine L C) (call : Call) (w : Workspace (Progress C) m)
    (x : Traced Effect (Outcome × Workspace (Progress C) m)) : Prop :=
  ∃ (l : L) (result : UInt8) (outputs : List Output) (state : Progress C),
    Label.encode l = w.state.resumePoint ∧
      routine.step l w.state call.command = ⟨outputs, .ok (.finish result), state⟩ ∧
      pinOps x.trace = pinOps (outputs.map Output.toEffect) ∧
      x.value.2.state = { state with resumePoint := 0 } ∧
      x.value.2.reply.toList = w.reply.toList ++ [result]

theorem Ran.of_ok (h : Ran routine l call w x) (hpoint : Label.encode l = w.state.resumePoint)
    (hout : x.value.1 = .ok .ok) : AnswersOnce routine call w x := by
  cases h with
  | failed => cases hout
  | rewound => cases hout
  | suspended => cases hout
  | overfull => cases hout
  | finished hstep hpush =>
    refine ⟨l, _, _, _, hpoint, hstep, ?_, rfl, Reply.toList_push hpush⟩
    rw [pinOps_append]
    exact List.append_nil _

theorem Resumed.of_ok (h : Resumed routine call w x) (hout : x.value.1 = .ok .ok) :
    AnswersOnce routine call w x := by
  cases h with
  | unknown => cases hout
  | entered hzero hran =>
    have hpoint : Label.encode (Label.entry : L) = w.state.resumePoint := by
      rw [hzero, Label.encode_entry]
    exact hran.of_ok hpoint hout
  | pending => cases hout
  | elapsed hpoint _ _ hran => exact hran.of_ok hpoint hout

/-! ### The record of the call -/

theorem Ran.waits_of_ended (h : Ran routine l call w x) (hout : x.value.1 ≠ .ok .waiting) :
    x.value.2.waits = w.waits := by
  cases h with
  | failed => rfl
  | rewound => rfl
  | suspended => exact absurd rfl hout
  | overfull => rfl
  | finished => rfl

/-- A call that ends a session which was not at the entry leaves no record behind: a stored point
that is no label's is cancelled, and a wait that is over was removed when it was found so. -/
theorem Resumed.record?_of_ended (h : Resumed routine call w x) (hpoint : w.state.resumePoint ≠ 0)
    (hout : x.value.1 ≠ .ok .waiting) : x.value.2.waits.record? call.context = none := by
  cases h with
  | unknown => exact Wait.Table.record?_cancel _ _
  | entered hzero => exact absurd hzero hpoint
  | pending => exact absurd rfl hout
  | elapsed _ _ _ hran =>
    rw [hran.waits_of_ended hout]
    exact Wait.Table.record?_cancel _ _

end Routine

/-- One call on any progress, table, reply and command. A fault leaves a fresh session and the bytes
of the reply. A session that is told to wait stands at a label other than the entry, with the reply
as it was; either nothing was done and nothing changed, or one step ran and the wait that it asked
for is registered. An answer is one more byte in the reply of a session that can be entered again. A
stored point that stands for no label is named in the fault, and no pin is touched. No other record
changes, and a session that was past its entry and ended keeps none. -/
theorem resume_heals (routine : Routine L C) (call : Call) (w : Workspace (Progress C) m) :
    let x := routine.resume call w
    (∀ fault, x.value.1 = .error fault →
        x.value.2.state = Progress.fresh ∧ x.value.2.reply = w.reply) ∧
      (x.value.1 = .ok .waiting →
        (∃ l : L, Label.decode x.value.2.state.resumePoint = some l ∧ l ≠ Label.entry) ∧
        x.value.2.reply = w.reply ∧
        (x.value.2 = w ∧ pinOps x.trace = [] ∨ routine.SuspendsOnce call w x)) ∧
      (x.value.1 = .ok .ok →
        x.value.2.state.resumePoint = 0 ∧
        (∃ result, x.value.2.reply.toList = w.reply.toList ++ [result]) ∧
        routine.AnswersOnce call w x) ∧
      ((Label.decode w.state.resumePoint : Option L) = none →
        x.value.1 = .error (.protocolViolation w.state.resumePoint) ∧ pinOps x.trace = []) ∧
      (∀ k, k ≠ call.context.toNat → x.value.2.waits.cell? k = w.waits.cell? k) ∧
      (w.state.resumePoint ≠ 0 → x.value.1 ≠ .ok .waiting →
        x.value.2.waits.record? call.context = none) := by
  intro x
  have hresumed : Routine.Resumed routine call w x := Routine.resumed_resume routine call w
  refine ⟨fun fault hout => hresumed.of_fault hout, fun hout => ?_, fun hout => ?_, fun hnone => ?_,
    fun k hk => hresumed.cell?_other hk, hresumed.record?_of_ended⟩
  · obtain ⟨next, hpoint, hnext⟩ := hresumed.label_of_waiting hout
    refine ⟨⟨next, Label.decode_eq_some_iff.mpr hpoint, hnext⟩, ?_, hresumed.of_waiting hout⟩
    rcases hresumed.of_waiting hout with ⟨hsame, -⟩ | hsuspends
    · rw [hsame]
    · exact hsuspends.reply
  · have hanswers := hresumed.of_ok hout
    obtain ⟨-, result, -, state, -, -, -, hstate, hreply⟩ := hanswers
    exact ⟨congrArg Progress.resumePoint hstate, ⟨result, hreply⟩, hresumed.of_ok hout⟩
  · have hx : x = _ := Routine.resume_of_unknown routine call hnone
    rw [hx]
    exact ⟨rfl, rfl⟩

/-- Forged sessions of a blink, with a byte in the reply and a record of nobody's: at a point that
is no label's, and at a label that was never reached. -/
theorem resume_heals_forged :
    let forged := fun point => (⟨⟨point, ⟨9, 2⟩, ⟨200⟩⟩, Wait.Table.empty.arm 0 0 (.timeout 10),
      ⟨#v[5, 0, 0, 0, 0, 0, 0, 0], 1, by decide⟩⟩ : Workspace (Progress Blink.Counters) 2)
    let call : Call := ⟨20, 0, [], false⟩
    let x := (Blink.routine 8).resume call (forged 7)
    let y := (Blink.routine 8).resume call (forged 1)
    x.value.1 = .error (.protocolViolation 7) ∧ x.value.2.state = Progress.fresh ∧
      x.value.2.reply.toList = [5] ∧ pinOps x.trace = [] ∧ x.value.2.waits.record? 0 = none ∧
      y.value.1 = .ok .waiting ∧ (Blink.routine 8).SuspendsOnce call (forged 1) y := by
  intro forged call x y
  have hunknown : (Label.decode (forged 7).state.resumePoint : Option Blink.At) = none := by decide
  have hwaiting : y.value.1 = .ok .waiting := rfl
  have hmoved : y.value.2.state.resumePoint ≠ (forged 1).state.resumePoint := by decide
  obtain ⟨hfault, -, -, hviolation, -, hrecord⟩ := resume_heals (Blink.routine 8) call (forged 7)
  obtain ⟨-, hwaits, -⟩ := resume_heals (Blink.routine 8) call (forged 1)
  obtain ⟨hout, hpins⟩ := hviolation hunknown
  obtain ⟨hstate, hreply⟩ := hfault _ hout
  have hended : x.value.1 ≠ .ok .waiting := by
    intro hok
    rw [hout] at hok
    cases hok
  refine ⟨hout, hstate, congrArg Reply.toList hreply, hpins, hrecord (by decide) hended, hwaiting,
    ?_⟩
  obtain ⟨-, -, ⟨hsame, -⟩ | hsuspends⟩ := hwaits hwaiting
  · exact absurd (congrArg (·.state.resumePoint) hsame) hmoved
  · exact hsuspends

end Resumable
