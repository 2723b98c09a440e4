import Resumable.Proofs.Recovery
import Resumable.Proofs.Running
import Resumable.Proofs.Workload

/-!
# Counting in a byte

The loops of blink and ramp count in bytes, and a byte that is counted past its end wraps. None of
them ever is: at each label where a session can be suspended its counters stand in a range that
leaves room for the next count, with the count of the request as its bound. The ranges hold from
the first call on, whatever the calls are and whatever the counters were before the entry.

Every call of the handler is given a table of waits and a reply of its own choice, so a run is a
list of such calls with nothing carried over but the progress of the session.
-/

namespace Resumable

/-! ### Runs of one session -/

/-- One call of a handler, with the waits and the reply that it finds. -/
structure Visit (m : Nat) where
  call : Call
  waits : Wait.Table m
  reply : Reply

/-- A session between two calls, with the command of the last call that found it at the entry. -/
structure Track (C : Type) where
  progress : Progress C
  entered : List UInt8

variable {L C : Type} {m : Nat}

/-- What a call of the handler answers and leaves. -/
def Plugin.visit (plugin : Plugin (Progress C) Unit) (x : Track C) (v : Visit m) :
    Outcome × Track C :=
  let called := (plugin.handle v.call () ⟨x.progress, v.waits, v.reply⟩).value
  (called.1, ⟨called.2.2.state, if x.progress.isFresh then v.call.command else x.entered⟩)

/-- Where the calls of a run leave a session. -/
def Plugin.track (plugin : Plugin (Progress C) Unit) (x : Track C) (visits : List (Visit m)) :
    Track C :=
  visits.foldl (fun x v => (plugin.visit x v).2) x

/-! ### Steps that keep the counters in range -/

/-- A step that suspends leaves counters in the range of the label at which the session will
continue, and a request of which a fact holds. -/
def SuspendsWithin (range : L → Request → C → Prop) (fact : Request → Prop)
    (x : Traced Output (Except Fault (Step L) × Progress C)) : Prop :=
  ∀ next wait, x.value.1 = .ok (.suspend next wait) →
    range next x.value.2.request x.value.2.counters ∧ fact x.value.2.request

section Steps

variable {range : L → Request → C → Prop} {fact : Request → Prop} {p : Progress C}

theorem suspendsWithin_sleep (outputs : List Output) (l : L) (length : Duration)
    (hfact : fact p.request) (h : range l p.request p.counters) :
    SuspendsWithin range fact ⟨outputs, .ok (.sleep l length), p⟩ := by
  intro next wait hasked
  cases hasked
  exact ⟨h, hfact⟩

theorem suspendsWithin_finish (outputs : List Output) (result : UInt8) :
    SuspendsWithin range fact ⟨outputs, .ok (.finish result), p⟩ := by
  intro next wait hasked
  cases hasked

theorem suspendsWithin_error (outputs : List Output) (fault : Fault) :
    SuspendsWithin range fact ⟨outputs, .error fault, p⟩ := by
  intro next wait hasked
  cases hasked

end Steps

section Runs

variable [DecidableEq L] [Label L]

/-- From the entry and from any counters in range, a step suspends with the counters in range. At
the entry the request is the one that is read there, and later it stays. -/
structure Routine.Confines (routine : Routine L C) (range : L → Request → C → Prop) : Prop where
  entry : ∀ p command, SuspendsWithin range (readRequest command = .ok ·)
    (routine.step Label.entry p command)
  later : ∀ {fact} l p command, l ≠ Label.entry → fact p.request → range l p.request p.counters →
    SuspendsWithin range fact (routine.step l p command)

/-- A session between two calls: at the entry, or suspended with its counters in range and under
the request that its command held. -/
inductive Track.Confined (range : L → Request → C → Prop) (x : Track C) : Prop
  | fresh (hpoint : x.progress.resumePoint = 0)
  | suspended {l : L} (hl : l ≠ Label.entry) (hpoint : Label.encode l = x.progress.resumePoint)
      (hrange : range l x.progress.request x.progress.counters)
      (hrequest : readRequest x.entered = .ok x.progress.request)

variable [Inhabited C] {routine : Routine L C} {range : L → Request → C → Prop}
  {plugin : Plugin (Progress C) Unit}

/-- A call that runs a step leaves the session at the entry or where the step suspended it. -/
theorem Routine.Ran.confined {l : L} {call : Call} {w : Workspace (Progress C) m}
    {x : Traced Effect (Outcome × Workspace (Progress C) m)} {entered : List UInt8}
    (h : Ran routine l call w x)
    (hstep : SuspendsWithin range (readRequest entered = .ok ·)
      (routine.step l w.state call.command)) :
    Track.Confined range ⟨x.value.2.state, entered⟩ := by
  cases h with
  | failed => exact .fresh rfl
  | rewound => exact .fresh rfl
  | suspended hran hnext =>
    rw [hran] at hstep
    obtain ⟨hrange, hrequest⟩ := hstep _ _ rfl
    exact .suspended hnext rfl hrange hrequest
  | overfull => exact .fresh rfl
  | finished => exact .fresh rfl

theorem Plugin.Runs.visit_eq (h : plugin.Runs routine) (x : Track C) (v : Visit m) :
    plugin.visit x v =
      ((routine.resume v.call ⟨x.progress, v.waits, v.reply⟩).value.1,
        ⟨(routine.resume v.call ⟨x.progress, v.waits, v.reply⟩).value.2.state,
          if x.progress.isFresh then v.call.command else x.entered⟩) := by
  simp only [Plugin.visit, h.handle]
  rfl

omit [Inhabited C] in
theorem Progress.isFresh_eq_false {p : Progress C} {l : L} (hl : l ≠ Label.entry)
    (hpoint : Label.encode l = p.resumePoint) : p.isFresh = false := by
  apply beq_eq_false_iff_ne.mpr
  rw [← hpoint]
  exact fun hzero => hl (Label.encode_eq_zero_iff.mp hzero)

theorem Plugin.Runs.confined_visit (h : plugin.Runs routine) (hstep : routine.Confines range)
    {x : Track C} (hx : x.Confined range) (v : Visit m) :
    (plugin.visit x v).2.Confined range := by
  rw [h.visit_eq]
  have hresumed := Routine.resumed_resume routine v.call ⟨x.progress, v.waits, v.reply⟩
  generalize routine.resume v.call ⟨x.progress, v.waits, v.reply⟩ = called at hresumed
  cases hresumed with
  | unknown => exact .fresh rfl
  | entered hpoint hran =>
    have hfresh : x.progress.isFresh = true := beq_iff_eq.mpr hpoint
    rw [hfresh]
    exact hran.confined (hstep.entry x.progress v.call.command)
  | pending hpoint hl =>
    rw [Progress.isFresh_eq_false hl hpoint]
    exact hx
  | elapsed hpoint hl _ hran =>
    rw [Progress.isFresh_eq_false hl hpoint]
    cases hx with
    | fresh hzero =>
      rw [hzero, Label.encode_eq_zero_iff] at hpoint
      exact absurd hpoint hl
    | suspended _ hpoint' hrange hrequest =>
      -- the label that is read back is the one at which the session was suspended
      have hsame := Label.eq_of_encode_eq (hpoint.trans hpoint'.symm)
      subst hsame
      exact hran.confined (hstep.later _ x.progress v.call.command hl hrequest hrange)

theorem Plugin.Runs.confined_track (h : plugin.Runs routine) (hstep : routine.Confines range)
    {x : Track C} (hx : x.Confined range) (visits : List (Visit m)) :
    (plugin.track x visits).Confined range := by
  induction visits generalizing x with
  | nil => exact hx
  | cons v visits ih => exact ih (h.confined_visit hstep hx v)

/-- A session that is told to wait is not at the entry. -/
theorem Plugin.Runs.point_of_waiting (h : plugin.Runs routine) {x : Track C} {v : Visit m}
    (hout : (plugin.visit x v).1 = .ok .waiting) :
    (plugin.visit x v).2.progress.resumePoint ≠ 0 := by
  rw [h.visit_eq] at hout ⊢
  have hresumed := Routine.resumed_resume routine v.call ⟨x.progress, v.waits, v.reply⟩
  obtain ⟨next, hpoint, hnext⟩ := hresumed.label_of_waiting hout
  intro hzero
  apply hnext
  rw [← Label.encode_eq_zero_iff, hpoint]
  exact hzero

end Runs

/-! ### Counts that wrap, and counts that are checked -/

/-- One up and one down in a byte, or nothing where that is refused. -/
structure Counting where
  up : UInt8 → Option UInt8
  down : UInt8 → Option UInt8

/-- Past either end the byte wraps. -/
def Counting.wrapping : Counting where
  up b := some (b + 1)
  down b := some (b - 1)

/-- Past either end there is no count. -/
def Counting.checked : Counting where
  up b := if b.toNat + 1 < 256 then some (b + 1) else none
  down b := if 0 < b.toNat then some (b - 1) else none

theorem Counting.checked_up {b bound : UInt8} (h : b < bound) :
    Counting.checked.up b = some (b + 1) := by
  obtain ⟨-, hle⟩ := toNat_succ_of_lt h
  have hbound := bound.toNat_lt
  exact if_pos (by omega)

/-- No count down from above zero is refused. -/
def Counting.Lowers (counting : Counting) : Prop :=
  ∀ b, 0 < b → counting.down b = some (b - 1)

theorem Counting.wrapping_lowers : Counting.wrapping.Lowers := fun _ _ => rfl

theorem Counting.checked_lowers : Counting.checked.Lowers := by
  intro b h
  exact if_pos (UInt8.lt_iff_toNat_lt.mp h)

theorem succ_le_of_lt {i count : UInt8} (h : i < count) : i + 1 ≤ count := by
  obtain ⟨hsucc, hle⟩ := toNat_succ_of_lt h
  rw [UInt8.le_iff_toNat_le, hsucc]
  exact hle

theorem eq_of_le_of_not_lt {i count : UInt8} (hle : i ≤ count) (h : ¬ i < count) : i = count := by
  rw [UInt8.le_iff_toNat_le] at hle
  rw [UInt8.lt_iff_toNat_lt] at h
  apply UInt8.toNat_inj.mp
  omega

/-! ### Blink -/

namespace Blink

/-- While a blink is under way its number is below the count. -/
def Range : At → Request → Counters → Prop
  | .entry, _, _ => True
  | .afterHigh, r, c => c.i < r.count
  | .afterLow, r, c => c.i < r.count

theorem nextBlink_suspendsWithin {fact : Request → Prop} (pin : PinId) {p : Progress Counters}
    (hfact : fact p.request) : SuspendsWithin Range fact (nextBlink pin p) := by
  unfold nextBlink
  split
  case isTrue h => exact suspendsWithin_sleep _ _ _ hfact h
  case isFalse => exact suspendsWithin_finish _ _

theorem routine_confines (pin : PinId) : (routine pin).Confines Range where
  entry p command := by
    simp only [Label.entry, routine]
    cases readRequest command with
    | error fault => exact suspendsWithin_error _ _
    | ok request => exact nextBlink_suspendsWithin pin rfl
  later l p command hl hfact h := by
    cases l with
    | entry => exact absurd rfl hl
    | afterHigh => exact suspendsWithin_sleep _ _ _ hfact h
    | afterLow => exact nextBlink_suspendsWithin pin hfact

/-- The steps of a blinking session, with its counter counted as is said. -/
def stepBy (counting : Counting) (pin : PinId) :
    At → Progress Counters → List UInt8 →
      Option (Traced Output (Except Fault (Step At) × Progress Counters))
  | .entry, p, command => some ((routine pin).step .entry p command)
  | .afterHigh, p, command => some ((routine pin).step .afterHigh p command)
  | .afterLow, p, _ => do
    let i ← counting.up p.counters.i
    return nextBlink pin { p with counters := ⟨i⟩ }

theorem stepBy_wrapping (pin : PinId) (l : At) (p : Progress Counters) (command : List UInt8) :
    stepBy .wrapping pin l p command = some ((routine pin).step l p command) := by
  cases l <;> rfl

theorem stepBy_checked (pin : PinId) {l : At} {p : Progress Counters} (command : List UInt8)
    (h : Range l p.request p.counters) :
    stepBy .checked pin l p command = some ((routine pin).step l p command) := by
  cases l with
  | entry => rfl
  | afterHigh => rfl
  | afterLow =>
    simp only [stepBy, Counting.checked_up h]
    rfl

end Blink

/-! ### Ramp -/

namespace Ramp

/-- While a blink is under way the height is zero; on the ramp all blinks are done, and the height
is below the count at every wait. -/
def Range : At → Request → Counters → Prop
  | .entry, _, _ => True
  | .afterHigh, r, c => c.i < r.count ∧ c.i1 = 0
  | .afterLow, r, c => c.i < r.count ∧ c.i1 = 0
  | .ascending, r, c => c.i = r.count ∧ c.i1 < r.count
  | .descending, r, c => c.i = r.count ∧ c.i1 < r.count

theorem pred_lt_of_le {height count : UInt8} (hpos : 0 < height) (hle : height ≤ count) :
    height - 1 < count := by
  have hpos' : 0 < height.toNat := UInt8.lt_iff_toNat_lt.mp hpos
  have hpred : (height - 1).toNat = height.toNat - 1 :=
    UInt8.toNat_sub_of_le _ _ (UInt8.le_iff_toNat_le.mpr hpos')
  rw [UInt8.le_iff_toNat_le] at hle
  rw [UInt8.lt_iff_toNat_lt, hpred]
  omega

section Steps

variable {fact : Request → Prop} {p : Progress Counters}

theorem descend_suspendsWithin (hfact : fact p.request) (hi : p.counters.i = p.request.count)
    (hle : p.counters.i1 ≤ p.request.count) : SuspendsWithin Range fact (descend p) := by
  unfold descend
  split
  case isTrue hpos =>
    apply suspendsWithin_sleep
    · exact hfact
    · exact ⟨hi, pred_lt_of_le hpos hle⟩
  case isFalse => exact suspendsWithin_finish _ _

theorem ascend_suspendsWithin (hfact : fact p.request) (hi : p.counters.i = p.request.count)
    (hle : p.counters.i1 ≤ p.request.count) : SuspendsWithin Range fact (ascend p) := by
  unfold ascend
  dsimp only
  split
  case isTrue h => exact suspendsWithin_sleep _ _ _ hfact ⟨hi, h⟩
  case isFalse => exact descend_suspendsWithin hfact hi hle

/-- The loop is left with all blinks done, which is where the ramp starts. -/
theorem nextBlink_suspendsWithin (pin : PinId) (hfact : fact p.request)
    (hi : p.counters.i ≤ p.request.count) (hheight : p.counters.i1 = 0) :
    SuspendsWithin Range fact (nextBlink pin p) := by
  unfold nextBlink
  split
  case isTrue h => exact suspendsWithin_sleep _ _ _ hfact ⟨h, hheight⟩
  case isFalse h =>
    apply ascend_suspendsWithin
    · exact hfact
    · exact eq_of_le_of_not_lt hi h
    · exact UInt8.le_iff_toNat_le.mpr (Nat.zero_le _)

end Steps

theorem routine_confines (pin : PinId) : (routine pin).Confines Range where
  entry p command := by
    simp only [Label.entry, routine]
    cases readRequest command with
    | error fault => exact suspendsWithin_error _ _
    | ok request =>
      have hzero : (0 : UInt8) ≤ request.count := UInt8.le_iff_toNat_le.mpr (Nat.zero_le _)
      exact nextBlink_suspendsWithin pin rfl hzero rfl
  later l p command hl hfact h := by
    cases l with
    | entry => exact absurd rfl hl
    | afterHigh => exact suspendsWithin_sleep _ _ _ hfact h
    | afterLow => exact nextBlink_suspendsWithin pin hfact (succ_le_of_lt h.1) h.2
    | ascending => exact ascend_suspendsWithin hfact h.1 (succ_le_of_lt h.2)
    | descending => exact descend_suspendsWithin hfact h.1 (UInt8.le_of_lt h.2)

/-! The steps of a ramping session, with its counters counted as is said. -/

def descendBy (counting : Counting) (p : Progress Counters) : Option Result :=
  if 0 < p.counters.i1 then do
    let height ← counting.down p.counters.i1
    return do
      Traced.emit (.report .trace s!"ramp: down {height}")
      return (.ok (.sleep .descending p.request.delay),
        { p with counters := { p.counters with i1 := height } })
  else
    some (return (.ok (.finish p.counters.i1), p))

def ascendBy (counting : Counting) (p : Progress Counters) : Option Result :=
  let height := p.counters.i1
  if height < p.request.count then
    some do
      Traced.emit (.report .trace s!"ramp: up {height}")
      return (.ok (.sleep .ascending p.request.delay), p)
  else
    descendBy counting p

def nextBlinkBy (counting : Counting) (pin : PinId) (p : Progress Counters) : Option Result :=
  if p.counters.i < p.request.count then
    some do
      Traced.emit (.pin (.write pin .high))
      return (.ok (.sleep .afterHigh p.request.delay), p)
  else
    ascendBy counting { p with counters := { p.counters with i1 := 0 } }

def stepBy (counting : Counting) (pin : PinId) :
    At → Progress Counters → List UInt8 → Option Result
  | .entry, p, command =>
    match readRequest command with
    | .error fault => some (return (.error fault, p))
    | .ok request => nextBlinkBy counting pin { p with request, counters := {} }
  | .afterHigh, p, _ =>
    some do
      Traced.emit (.pin (.write pin .low))
      return (.ok (.sleep .afterLow p.request.delay), p)
  | .afterLow, p, _ => do
    let i ← counting.up p.counters.i
    nextBlinkBy counting pin { p with counters := { p.counters with i } }
  | .ascending, p, _ => do
    let i1 ← counting.up p.counters.i1
    ascendBy counting { p with counters := { p.counters with i1 } }
  | .descending, p, _ => descendBy counting p

theorem descendBy_eq {counting : Counting} (hdown : counting.Lowers) (p : Progress Counters) :
    descendBy counting p = some (descend p) := by
  unfold descendBy descend
  split
  case isTrue hpos =>
    rw [hdown _ hpos]
    rfl
  case isFalse => rfl

theorem ascendBy_eq {counting : Counting} (hdown : counting.Lowers) (p : Progress Counters) :
    ascendBy counting p = some (ascend p) := by
  unfold ascendBy ascend
  dsimp only
  split
  case isTrue => rfl
  case isFalse => exact descendBy_eq hdown p

theorem nextBlinkBy_eq {counting : Counting} (hdown : counting.Lowers) (pin : PinId)
    (p : Progress Counters) : nextBlinkBy counting pin p = some (nextBlink pin p) := by
  unfold nextBlinkBy nextBlink
  split
  case isTrue => rfl
  case isFalse => exact ascendBy_eq hdown _

/-- The steps are those of the routine, if the counters that are counted up can be. -/
theorem stepBy_eq {counting : Counting} (hdown : counting.Lowers) (pin : PinId) {l : At}
    {p : Progress Counters} (command : List UInt8)
    (hblinks : l = .afterLow → counting.up p.counters.i = some (p.counters.i + 1))
    (hheight : l = .ascending → counting.up p.counters.i1 = some (p.counters.i1 + 1)) :
    stepBy counting pin l p command = some ((routine pin).step l p command) := by
  cases l with
  | entry =>
    simp only [stepBy, routine]
    cases readRequest command with
    | error fault => rfl
    | ok request => exact nextBlinkBy_eq hdown pin _
  | afterHigh => rfl
  | afterLow =>
    simp only [stepBy, hblinks rfl]
    exact nextBlinkBy_eq hdown pin _
  | ascending =>
    simp only [stepBy, hheight rfl]
    exact ascendBy_eq hdown _
  | descending => exact descendBy_eq hdown p

theorem stepBy_wrapping (pin : PinId) (l : At) (p : Progress Counters) (command : List UInt8) :
    stepBy .wrapping pin l p command = some ((routine pin).step l p command) :=
  stepBy_eq Counting.wrapping_lowers pin command (fun _ => rfl) (fun _ => rfl)

theorem stepBy_checked (pin : PinId) {l : At} {p : Progress Counters} (command : List UInt8)
    (h : Range l p.request p.counters) :
    stepBy .checked pin l p command = some ((routine pin).step l p command) := by
  apply stepBy_eq Counting.checked_lowers
  · rintro rfl
    exact Counting.checked_up h.1
  · rintro rfl
    exact Counting.checked_up h.2

end Ramp

/-! ### No count of a run wraps -/

/-- How a session stands at a point of a run. It is at a label whose range its counters are in, and
the step from there is the same whether its counts wrap or are checked; away from the entry its
request is the one it read there; and it is away from the entry after every call that suspends. -/
structure Track.Steady [DecidableEq L] [Label L] (m : Nat) (plugin : Plugin (Progress C) Unit)
    (routine : Routine L C) (range : L → Request → C → Prop)
    (stepBy : Counting → L → Progress C → List UInt8 →
      Option (Traced Output (Except Fault (Step L) × Progress C))) (x : Track C) : Prop where
  counters : ∃ l : L, Label.encode l = x.progress.resumePoint ∧
    range l x.progress.request x.progress.counters ∧
    ∀ command, stepBy .wrapping l x.progress command = some (routine.step l x.progress command) ∧
      stepBy .checked l x.progress command = some (routine.step l x.progress command)
  request : x.progress.resumePoint ≠ 0 → readRequest x.entered = .ok x.progress.request
  suspended : ∀ v : Visit m, (plugin.visit x v).1 = .ok .waiting →
    (plugin.visit x v).2.progress.resumePoint ≠ 0

theorem Track.Confined.steady [DecidableEq L] [Label L] [Inhabited C]
    {plugin : Plugin (Progress C) Unit} {routine : Routine L C} {range : L → Request → C → Prop}
    {stepBy : Counting → L → Progress C → List UInt8 →
      Option (Traced Output (Except Fault (Step L) × Progress C))} {x : Track C}
    (h : x.Confined range) (hruns : plugin.Runs routine)
    (hentry : ∀ request counters, range Label.entry request counters)
    (hwrapping : ∀ l p command, stepBy .wrapping l p command = some (routine.step l p command))
    (hchecked : ∀ {l p} command, range l p.request p.counters →
      stepBy .checked l p command = some (routine.step l p command)) :
    x.Steady m plugin routine range stepBy where
  counters := by
    cases h with
    | fresh hpoint =>
      refine ⟨Label.entry, ?_, hentry _ _, fun command => ⟨hwrapping _ _ _, ?_⟩⟩
      · rw [hpoint, Label.encode_entry]
      · exact hchecked command (hentry _ _)
    | suspended _ hpoint hrange _ =>
      exact ⟨_, hpoint, hrange, fun command => ⟨hwrapping _ _ _, hchecked command hrange⟩⟩
  request hpoint := by
    cases h with
    | fresh hzero => exact absurd hzero hpoint
    | suspended _ _ _ hrequest => exact hrequest
  suspended _ hout := hruns.point_of_waiting hout

/-- From the entry on, whatever the calls are, the counters of a session stay in range, and so no
count of a step wraps. -/
theorem counters_stay_in_range (pin : PinId) (visits : List (Visit m)) :
    (∀ p : Progress Blink.Counters, p.resumePoint = 0 →
      ((Blink.plugin pin).track ⟨p, []⟩ visits).Steady m (Blink.plugin pin) (Blink.routine pin)
        Blink.Range (Blink.stepBy · pin)) ∧
    (∀ p : Progress Ramp.Counters, p.resumePoint = 0 →
      ((Ramp.plugin pin).track ⟨p, []⟩ visits).Steady m (Ramp.plugin pin) (Ramp.routine pin)
        Ramp.Range (Ramp.stepBy · pin)) := by
  constructor
  · intro p hpoint
    have hruns := Blink.plugin_runs pin
    have hconfined := hruns.confined_track (Blink.routine_confines pin) (x := ⟨p, []⟩)
      (.fresh hpoint) visits
    exact hconfined.steady hruns (fun _ _ => trivial) (Blink.stepBy_wrapping pin)
      (Blink.stepBy_checked pin)
  · intro p hpoint
    have hruns := Ramp.plugin_runs pin
    have hconfined := hruns.confined_track (Ramp.routine_confines pin) (x := ⟨p, []⟩)
      (.fresh hpoint) visits
    exact hconfined.steady hruns (fun _ _ => trivial) (Ramp.stepBy_wrapping pin)
      (Ramp.stepBy_checked pin)

/-- A call at the start of time that finds no wait and an empty reply. -/
def Visit.bare (command : List UInt8) : Visit 1 where
  call := ⟨0, 0, command, true⟩
  waits := .empty
  reply := .empty

/-- Sessions whose counters stand at the last byte before the entry. The blink is in its second
round; the ramp, of height one, has turned round at the top and is about to finish. -/
theorem counters_stay_in_range_stale :
    ((Blink.plugin 2).track ⟨⟨0, ⟨9, 9⟩, ⟨255⟩⟩, []⟩
        (List.replicate 3 (Visit.bare [255, 0, 0]))).progress =
      ⟨Label.encode Blink.At.afterHigh, ⟨255, 0⟩, ⟨1⟩⟩ ∧
    ((Blink.plugin 2).track ⟨⟨0, ⟨9, 9⟩, ⟨255⟩⟩, []⟩
        (List.replicate 3 (Visit.bare [255, 0, 0]))).Steady 1 (Blink.plugin 2) (Blink.routine 2)
      Blink.Range (Blink.stepBy · 2) ∧
    ((Ramp.plugin 2).track ⟨⟨0, ⟨9, 9⟩, ⟨255, 255⟩⟩, []⟩
        (List.replicate 4 (Visit.bare [1, 0, 0]))).progress =
      ⟨Label.encode Ramp.At.descending, ⟨1, 0⟩, ⟨1, 0⟩⟩ ∧
    ((Ramp.plugin 2).track ⟨⟨0, ⟨9, 9⟩, ⟨255, 255⟩⟩, []⟩
        (List.replicate 4 (Visit.bare [1, 0, 0]))).Steady 1 (Ramp.plugin 2) (Ramp.routine 2)
      Ramp.Range (Ramp.stepBy · 2) :=
  ⟨by decide, (counters_stay_in_range 2 _).1 _ rfl, by decide,
    (counters_stay_in_range 2 _).2 _ rfl⟩

end Resumable
