import Resumable.Proofs.Running

/-!
# What is left of a command

A routine dwindles when a number can be read off its label, request and counters that every step
makes smaller, and when it waits for nothing but time. Blink and ramp do, from any progress: the
counters are bytes and may wrap, and the numbers are chosen so that a counter that wraps is counted
from where it lands. At a dispatcher this bounds the steps that a session still has before it: a
call that runs a step leaves its slot with less.
-/

namespace Resumable

variable {L C : Type}

/-- A step that suspends asks for a time, and leaves less than the bound to do. -/
def AsksBelow (left : L → Request → C → Nat) (bound : Nat)
    (x : Traced Output (Except Fault (Step L) × Progress C)) : Prop :=
  ∀ next wait, x.value.1 = .ok (.suspend next wait) →
    (∃ length, wait = .timeout length) ∧
      left next x.value.2.request x.value.2.counters < bound

structure Routine.Dwindles [DecidableEq L] [Label L] (routine : Routine L C)
    (left : L → Request → C → Nat) (most : Nat) : Prop where
  entry : ∀ request counters, left Label.entry request counters = most
  step : ∀ l p command, AsksBelow left (left l p.request p.counters) (routine.step l p command)

theorem AsksBelow.mono {left : L → Request → C → Nat} {bound bound' : Nat}
    {x : Traced Output (Except Fault (Step L) × Progress C)} (h : AsksBelow left bound x)
    (hle : bound ≤ bound') : AsksBelow left bound' x := by
  intro next wait hasked
  obtain ⟨htime, hless⟩ := h next wait hasked
  exact ⟨htime, Nat.lt_of_lt_of_le hless hle⟩

theorem asksBelow_sleep {left : L → Request → C → Nat} {bound : Nat} (outputs : List Output)
    (l : L) (length : Duration) {p : Progress C} (h : left l p.request p.counters < bound) :
    AsksBelow left bound ⟨outputs, .ok (.sleep l length), p⟩ := by
  intro next wait hasked
  cases hasked
  exact ⟨⟨length, rfl⟩, h⟩

theorem asksBelow_finish {left : L → Request → C → Nat} {bound : Nat} (outputs : List Output)
    (result : UInt8) (p : Progress C) :
    AsksBelow left bound ⟨outputs, .ok (.finish result), p⟩ := by
  intro next wait hasked
  cases hasked

theorem asksBelow_error {left : L → Request → C → Nat} {bound : Nat} (outputs : List Output)
    (fault : Fault) (p : Progress C) : AsksBelow left bound ⟨outputs, .error fault, p⟩ := by
  intro next wait hasked
  cases hasked

theorem toNat_succ_of_lt {i count : UInt8} (h : i < count) :
    (i + 1).toNat = i.toNat + 1 ∧ i.toNat + 1 ≤ count.toNat := by
  have hi : i.toNat < count.toNat := UInt8.lt_iff_toNat_lt.mp h
  have hcount := count.toNat_lt
  have hsum := UInt8.toNat_add i 1
  have hone : (1 : UInt8).toNat = 1 := rfl
  omega

/-! ### Blink -/

namespace Blink

/-- Two waits for each blink that is not done, and one less behind the first of them. -/
def left : At → Request → Counters → Nat
  | .entry, _, _ => 512
  | .afterHigh, r, c => 2 * (r.count.toNat - (c.i + 1).toNat) + 2
  | .afterLow, r, c => 2 * (r.count.toNat - (c.i + 1).toNat) + 1

theorem nextBlink_asksBelow (pin : PinId) (p : Progress Counters) :
    AsksBelow left (2 * (p.request.count.toNat - p.counters.i.toNat) + 1) (nextBlink pin p) := by
  unfold nextBlink
  split
  case isTrue h =>
    obtain ⟨hsucc, hle⟩ := toNat_succ_of_lt h
    refine asksBelow_sleep _ _ _ ?_
    simp only [left, hsucc]
    omega
  case isFalse => exact asksBelow_finish _ _ _

theorem routine_dwindles (pin : PinId) : (routine pin).Dwindles left 512 where
  entry _ _ := rfl
  step l p command := by
    cases l with
    | entry =>
      simp only [routine]
      cases readRequest command with
      | error fault => exact asksBelow_error _ _ _
      | ok request =>
        refine (nextBlink_asksBelow pin _).mono ?_
        have hcount := request.count.toNat_lt
        simp only [left]
        omega
    | afterHigh =>
      refine asksBelow_sleep _ _ _ ?_
      simp only [left]
      omega
    | afterLow => exact nextBlink_asksBelow pin _

end Blink

/-! ### Ramp -/

namespace Ramp

/-- Behind the blinks, each value is waited for once on the way up and once on the way down. -/
def left : At → Request → Counters → Nat
  | .entry, _, _ => 1280
  | .afterHigh, r, c => 3 * r.count.toNat + 2 * (r.count.toNat - (c.i + 1).toNat) + 2
  | .afterLow, r, c => 3 * r.count.toNat + 2 * (r.count.toNat - (c.i + 1).toNat) + 1
  | .ascending, r, c => 3 * (r.count.toNat - (c.i1 + 1).toNat) + (c.i1 + 1).toNat + 1
  | .descending, _, c => c.i1.toNat + 1

theorem descend_asksBelow (p : Progress Counters) :
    AsksBelow left (p.counters.i1.toNat + 1) (descend p) := by
  unfold descend
  split
  case isTrue h =>
    have hpos : 0 < p.counters.i1.toNat := UInt8.lt_iff_toNat_lt.mp h
    have hpred : (p.counters.i1 - 1).toNat = p.counters.i1.toNat - 1 :=
      UInt8.toNat_sub_of_le _ _ (UInt8.le_iff_toNat_le.mpr hpos)
    refine asksBelow_sleep _ _ _ ?_
    simp only [left, hpred]
    omega
  case isFalse => exact asksBelow_finish _ _ _

theorem ascend_asksBelow (p : Progress Counters) :
    AsksBelow left
      (3 * (p.request.count.toNat - p.counters.i1.toNat) + p.counters.i1.toNat + 1)
      (ascend p) := by
  unfold ascend
  dsimp only
  split
  case isTrue h =>
    obtain ⟨hsucc, hle⟩ := toNat_succ_of_lt h
    refine asksBelow_sleep _ _ _ ?_
    simp only [left, hsucc]
    omega
  case isFalse =>
    refine (descend_asksBelow p).mono ?_
    omega

theorem nextBlink_asksBelow (pin : PinId) (p : Progress Counters) :
    AsksBelow left
      (3 * p.request.count.toNat + 2 * (p.request.count.toNat - p.counters.i.toNat) + 1)
      (nextBlink pin p) := by
  unfold nextBlink
  split
  case isTrue h =>
    obtain ⟨hsucc, hle⟩ := toNat_succ_of_lt h
    refine asksBelow_sleep _ _ _ ?_
    simp only [left, hsucc]
    omega
  case isFalse =>
    refine (ascend_asksBelow _).mono ?_
    have hzero : (0 : UInt8).toNat = 0 := rfl
    simp only [hzero]
    omega

theorem routine_dwindles (pin : PinId) : (routine pin).Dwindles left 1280 where
  entry _ _ := rfl
  step l p command := by
    cases l with
    | entry =>
      simp only [routine]
      cases readRequest command with
      | error fault => exact asksBelow_error _ _ _
      | ok request =>
        refine (nextBlink_asksBelow pin _).mono ?_
        have hcount := request.count.toNat_lt
        simp only [left]
        omega
    | afterHigh =>
      refine asksBelow_sleep _ _ _ ?_
      simp only [left]
      omega
    | afterLow => exact nextBlink_asksBelow pin _
    | ascending => exact ascend_asksBelow _
    | descending => exact descend_asksBelow p

end Ramp

/-! ### Steps of a session -/

section Steps

variable [DecidableEq L] [Label L] [Inhabited C] {π : Type} {n m : Nat} {routine : Routine L C}
  {l : L} {call : Call} {w : Workspace (Progress C) m}
  {x : Traced Effect (Outcome × Workspace (Progress C) m)}

def Progress.left (measure : L → Request → C → Nat) (p : Progress C) : Nat :=
  (Label.decode p.resumePoint).elim 0 fun l => measure l p.request p.counters

omit [Inhabited C] in
theorem Progress.left_of_label (measure : L → Request → C → Nat) {p : Progress C}
    (h : Label.encode l = p.resumePoint) : p.left measure = measure l p.request p.counters := by
  rw [left, ← h, Label.decode_encode]
  rfl

/-- A call that does not find its wait pending runs the step from its label. -/
theorem Routine.Resumed.ran (h : Routine.Resumed routine call w x)
    (hpoint : Label.encode l = w.state.resumePoint)
    (hover : l = Label.entry ∨ w.waits.isWaiting call.now call.context = false) :
    ∃ waits y, Routine.Ran routine l call { w with waits } y ∧ y.value = x.value := by
  cases h with
  | unknown hunknown =>
    rw [← hpoint, Label.decode_encode] at hunknown
    cases hunknown
  | entered hzero hran =>
    rw [hzero, Label.encode_eq_zero_iff] at hpoint
    subst hpoint
    exact ⟨w.waits, x, hran, rfl⟩
  | pending hpoint' hl hwait =>
    rw [← hpoint] at hpoint'
    rcases hover with rfl | hover
    · exact absurd (Label.eq_of_encode_eq hpoint') hl
    · rw [hwait] at hover
      cases hover
  | elapsed hpoint' _ _ hran =>
    rw [← hpoint] at hpoint'
    obtain rfl := Label.eq_of_encode_eq hpoint'
    exact ⟨_, _, hran, rfl⟩

theorem Routine.Ran.lighter {left : L → Request → C → Nat} {most : Nat}
    (h : Routine.Ran routine l call w x) (hdwindles : routine.Dwindles left most)
    (hwaiting : x.value.1 = .ok .waiting) :
    x.value.2.state.left left < left l w.state.request w.state.counters := by
  cases h with
  | failed => cases hwaiting
  | rewound => cases hwaiting
  | @suspended outputs next wait state hstep _ =>
    have hasks := hdwindles.step l w.state call.command
    rw [hstep] at hasks
    have hleft := Progress.left_of_label left (l := next)
      (p := { state with resumePoint := Label.encode next }) rfl
    rw [hleft]
    exact (hasks next wait rfl).2
  | overfull => cases hwaiting
  | finished => cases hwaiting

def Slot.load {σ : Type} (left : σ → Nat) (slot : Slot σ) : Nat :=
  if slot.busy then left slot.state + 1 else 0

namespace Dispatcher

variable {d : Dispatcher (Progress C) π n m} {now : Instant} {i : Fin n}
  {y : Traced Effect (Option Ending × Dispatcher (Progress C) π n m)}

theorem Served.lighter {left : L → Request → C → Nat} {most : Nat} (h : Served d now i y)
    (hruns : d.plugin.Runs routine) (hdwindles : routine.Dwindles left most)
    (hpoint : Label.encode l = (d.slot i).state.resumePoint)
    (hover : l = Label.entry ∨ d.waits.isWaiting now (session i) = false) :
    (y.value.2.slot i).load (Progress.left left) ≤ (d.slot i).state.left left := by
  have hresumed := Routine.resumed_resume routine (d.callOf now i)
    ⟨(d.slot i).state, d.waits, (d.slot i).reply⟩
  obtain ⟨waits, x, hran, hvalue⟩ := hresumed.ran hpoint hover
  have hless := hran.lighter hdwindles
  rw [hvalue] at hless
  change (d.resumed routine now i).value.1 = .ok .waiting →
    (d.resumed routine now i).value.2.state.left left <
      left l (d.slot i).state.request (d.slot i).state.counters at hless
  rw [Progress.left_of_label left hpoint]
  cases h with
  | suspended hhandled =>
    rw [(resumed_of_handled hruns hhandled).1] at hless
    rw [slot_store, Slot.load]
    split
    · exact hless rfl
    · exact Nat.zero_le _
  | answered => simp [Slot.load]
  | faulted => simp [Slot.load]

end Dispatcher

end Steps

end Resumable
