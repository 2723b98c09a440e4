import Resumable.Plugin.Blink
import Resumable.Proofs.Resume
import Resumable.Session

/-!
# Resumed calls against a blocking execution

A routine could run in one go: each step from the label that the step before it returned, with
every wait sat out on the spot. A session instead is called again and again, at any time and with
signals in between, and most calls find their wait unfinished. The main statement is that the two
cannot be told apart by what they do: the calls that ran a step did what the first steps of the
blocking execution do, in the same order, and they end as it ends.
-/

namespace Resumable

variable {L C π : Type} [DecidableEq L] [Label L] {m : Nat}

/-! ### Deeds -/

def Effect.isDeed : Effect → Bool
  | .pin _ => true
  | .wait (.register _ _) => true
  | .wait (.transfer _ _) => true
  | _ => false

/-- The pin operations and the registered waits of a trace, in order. -/
def deeds (trace : List Effect) : List Effect := trace.filter Effect.isDeed

theorem deeds_append (first second : List Effect) :
    deeds (first ++ second) = deeds first ++ deeds second :=
  List.filter_append ..

theorem deeds_registration (cx : Wait.Context) (wait : Wait) :
    deeds [.wait (wait.registration cx)] = [.wait (wait.registration cx)] := by
  cases wait <;> rfl

theorem deeds_callArm (waits : Wait.Table m) (now : Instant) (cx : Wait.Context) (wait : Wait) :
    deeds (waits.callArm now cx wait).trace = [.wait (wait.registration cx)] := by
  unfold Wait.Table.callArm
  cases wait <;> dsimp only <;> split <;> rfl

/-! ### The blocking execution -/

/-- Where a blocking execution stands: before a step, or at its end with a result or a fault. -/
inductive Standing (L C : Type) where
  | before (l : L) (progress : Progress C)
  | ended (result : Except Fault UInt8)

def Standing.outcome : Standing L C → Outcome
  | .before _ _ => .ok .waiting
  | .ended (.ok _) => .ok .ok
  | .ended (.error fault) => .error fault

def Standing.replied : Standing L C → List UInt8
  | .ended (.ok result) => [result]
  | _ => []

/-- Run one step, register the wait that it asks for and take it as over. -/
def Routine.block (routine : Routine L C) (cx : Wait.Context) (command : List UInt8) :
    Standing L C → Traced Effect (Standing L C)
  | .ended result => return .ended result
  | .before l progress => do
    let (asked, progress) ← (routine.step l progress command).mapTrace Output.toEffect
    match asked with
    | .error fault => return .ended (.error fault)
    | .ok (.finish result) => return .ended (.ok result)
    | .ok (.suspend next wait) =>
      if next = Label.entry then
        return .ended (.error (.protocolViolation 0))
      else
        Traced.emit (.wait (wait.registration cx))
        return .before next { progress with resumePoint := Label.encode next }

section Block

variable {routine : Routine L C} {l : L} {progress state : Progress C} {command : List UInt8}
  {outputs : List Output}

theorem Routine.block_of_fault {fault : Fault} (cx : Wait.Context)
    (hstep : routine.step l progress command = ⟨outputs, .error fault, state⟩) :
    routine.block cx command (.before l progress) =
      ⟨outputs.map Output.toEffect, .ended (.error fault)⟩ := by
  simp only [Routine.block, hstep]
  exact Traced.ext (List.append_nil _) rfl

theorem Routine.block_of_finish {result : UInt8} (cx : Wait.Context)
    (hstep : routine.step l progress command = ⟨outputs, .ok (.finish result), state⟩) :
    routine.block cx command (.before l progress) =
      ⟨outputs.map Output.toEffect, .ended (.ok result)⟩ := by
  simp only [Routine.block, hstep]
  exact Traced.ext (List.append_nil _) rfl

theorem Routine.block_of_entry {wait : Wait} (cx : Wait.Context)
    (hstep : routine.step l progress command
      = ⟨outputs, .ok (.suspend Label.entry wait), state⟩) :
    routine.block cx command (.before l progress) =
      ⟨outputs.map Output.toEffect, .ended (.error (.protocolViolation 0))⟩ := by
  simp only [Routine.block, hstep]
  apply Traced.ext
  · simp
  · simp

theorem Routine.block_of_suspend {next : L} {wait : Wait} (cx : Wait.Context)
    (hstep : routine.step l progress command = ⟨outputs, .ok (.suspend next wait), state⟩)
    (hnext : next ≠ Label.entry) :
    routine.block cx command (.before l progress) =
      ⟨outputs.map Output.toEffect ++ [.wait (wait.registration cx)],
        .before next { state with resumePoint := Label.encode next }⟩ := by
  simp only [Routine.block, hstep]
  apply Traced.ext
  · simp only [Traced.trace_bind, Traced.trace_mapTrace, Traced.value_mapTrace, if_neg hnext]
    rfl
  · simp only [Traced.value_bind, Traced.value_mapTrace, if_neg hnext]
    rfl

end Block

def Routine.blocking (routine : Routine L C) (cx : Wait.Context) (command : List UInt8) :
    Nat → Standing L C → Traced Effect (Standing L C)
  | 0, standing => return standing
  | k + 1, standing => do
    let standing ← routine.block cx command standing
    routine.blocking cx command k standing

/-! ### Calls among other events -/

/-- What happens to a session: it is called, time passes, or a transfer ends. -/
inductive Stimulus where
  | call (command : List UInt8) (first : Bool)
  | pause (length : Duration)
  | signal (context : Wait.Context) (transfer : Transfer)

structure Answered where
  trace : List Effect
  outcome : Outcome

/-- Whether the call found its wait unfinished. -/
def Answered.stalled (cx : Wait.Context) (x : Answered) : Bool :=
  x.trace.contains (.wait (.check cx true))

namespace Session

variable [Inhabited C]

def resume (s : Session (Progress C) π m) (routine : Routine L C) (command : List UInt8)
    (first : Bool) : Traced Effect (Outcome × Session (Progress C) π m) := do
  let (outcome, work) ←
    routine.resume { now := s.now, context := s.context, command, first } s.work
  return (outcome, { s with work })

theorem resume_eq (s : Session (Progress C) π m) (routine : Routine L C) (command : List UInt8)
    (first : Bool) :
    let x := routine.resume { now := s.now, context := s.context, command, first } s.work
    s.resume routine command first = ⟨x.trace, x.value.1, { s with work := x.value.2 }⟩ :=
  Traced.ext (List.append_nil _) rfl

/-- Let time pass. A clock that would pass its last instant does not move. -/
def pause {σ : Type} (s : Session σ π m) (length : Duration) : Session σ π m :=
  { s with now := (s.now.after? length).getD s.now }

def hear {σ : Type} (s : Session σ π m) (cx : Wait.Context) (transfer : Transfer) :
    Session σ π m :=
  { s with work := { s.work with waits := (s.work.waits.signal cx transfer).2 } }

/-- Follow a session up to the first call that ends its command, and list the calls. -/
def follow (s : Session (Progress C) π m) (routine : Routine L C) :
    List Stimulus → List Answered × Session (Progress C) π m
  | [] => ([], s)
  | .pause length :: rest => (s.pause length).follow routine rest
  | .signal cx transfer :: rest => (s.hear cx transfer).follow routine rest
  | .call command first :: rest =>
    let x := s.resume routine command first
    match x.value.1 with
    | .ok .waiting =>
      let (calls, after) := x.value.2.follow routine rest
      (⟨x.trace, .ok .waiting⟩ :: calls, after)
    | outcome => ([⟨x.trace, outcome⟩], x.value.2)

end Session

/-! ### One call against one step -/

/-- What a call has left agrees with where the blocking execution stands. -/
structure Standing.Agrees (standing : Standing L C) (outcome : Outcome)
    (w : Workspace (Progress C) m) : Prop where
  outcome : outcome = standing.outcome
  reply : w.reply.toList = standing.replied
  state : ∀ l progress, standing = .before l progress →
    w.state = progress ∧ Label.encode l = w.state.resumePoint

theorem push_of_unanswered {reply : Reply} (h : reply.toList = []) (result : UInt8) :
    ∃ r, reply.push result = .ok r ∧ r.toList = [result] := by
  have hlength : reply.length = 0 := by rw [← Reply.length_toList, h, List.length_nil]
  cases hpush : reply.push result with
  | error cause => simp [Reply.push, hlength] at hpush
  | ok r => exact ⟨r, rfl, by rw [Reply.toList_push hpush, h, List.nil_append]⟩

theorem not_check_mem_outputs (outputs : List Output) (cx : Wait.Context) :
    Effect.wait (.check cx true) ∉ outputs.map Output.toEffect := by
  intro hmem
  obtain ⟨output, _, heq⟩ := List.mem_map.mp hmem
  cases output <;> cases heq

theorem not_check_mem_callArm (waits : Wait.Table m) (now : Instant) (cx : Wait.Context)
    (wait : Wait) : Effect.wait (.check cx true) ∉ (waits.callArm now cx wait).trace := by
  unfold Wait.Table.callArm
  cases wait <;> dsimp only <;> split <;>
    simp [Wait.registration, Wait.Table.outOfRange, Effect.report]

theorem Routine.Ran.blocks [Inhabited C] {routine : Routine L C} {l : L} {call : Call}
    {w : Workspace (Progress C) m} {x : Traced Effect (Outcome × Workspace (Progress C) m)}
    (h : Routine.Ran routine l call w x) (hreply : w.reply.toList = []) :
    deeds x.trace = deeds (routine.block call.context call.command (.before l w.state)).trace ∧
      (routine.block call.context call.command (.before l w.state)).value.Agrees
        x.value.1 x.value.2 ∧
      Effect.wait (.check call.context true) ∉ x.trace := by
  cases h with
  | failed hstep =>
    rw [Routine.block_of_fault call.context hstep]
    refine ⟨rfl, ⟨rfl, hreply, ?_⟩, not_check_mem_outputs _ _⟩
    intro l progress heq
    cases heq
  | rewound hstep =>
    rw [Routine.block_of_entry call.context hstep]
    refine ⟨rfl, ⟨rfl, hreply, ?_⟩, not_check_mem_outputs _ _⟩
    intro l progress heq
    cases heq
  | suspended hstep hnext =>
    rw [Routine.block_of_suspend call.context hstep hnext]
    refine ⟨?_, ⟨rfl, hreply, ?_⟩, ?_⟩
    · rw [deeds_append, deeds_append, deeds_append, deeds_callArm, deeds_registration]
      rfl
    · intro l progress heq
      cases heq
      exact ⟨rfl, rfl⟩
    · simp [not_check_mem_outputs, not_check_mem_callArm, Routine.suspended, Effect.report]
  | overfull hstep hpush =>
    obtain ⟨r, hr, _⟩ := push_of_unanswered hreply _
    rw [hpush] at hr
    cases hr
  | finished hstep hpush =>
    obtain ⟨r, hr, hview⟩ := push_of_unanswered hreply _
    rw [hpush] at hr
    cases hr
    rw [Routine.block_of_finish call.context hstep]
    refine ⟨?_, ⟨rfl, hview, ?_⟩, ?_⟩
    · rw [deeds_append]
      exact List.append_nil _
    · intro l progress heq
      cases heq
    · simp [not_check_mem_outputs, Routine.finished, Effect.report]

/-! ### All calls against the first steps -/

def stepsRun (cx : Wait.Context) (calls : List Answered) : Nat :=
  calls.countP fun x => !x.stalled cx

/-- The calls that a session has answered, against the first steps of a blocking execution: the
same deeds in the same order, every call but the last told to call again, and the last one told
what the blocking execution has come to. -/
structure Session.Tracks (routine : Routine L C) (cx : Wait.Context) (command : List UInt8)
    (start : Standing L C) (calls : List Answered) (s : Session (Progress C) π m) : Prop where
  same_deeds : deeds (calls.flatMap (·.trace)) =
    deeds (routine.blocking cx command (stepsRun cx calls) start).trace
  unended : ∀ j < stepsRun cx calls, ∃ l progress,
    (routine.blocking cx command j start).value = .before l progress
  earlier : ∀ x ∈ calls.dropLast, x.outcome = .ok .waiting
  last : ∀ x ∈ calls.getLast?, x.outcome =
    (routine.blocking cx command (stepsRun cx calls) start).value.outcome
  reply : s.work.reply.toList =
    (routine.blocking cx command (stepsRun cx calls) start).value.replied
  state : ∀ l progress,
    (routine.blocking cx command (stepsRun cx calls) start).value = .before l progress →
      s.work.state = progress ∧ Label.encode l = s.work.state.resumePoint

namespace Session.Tracks

variable {routine : Routine L C} {cx : Wait.Context} {command : List UInt8}
  {calls : List Answered} {s : Session (Progress C) π m} {x : Answered}

theorem earlier_cons (hx : x.outcome = .ok .waiting)
    (h : ∀ y ∈ calls.dropLast, y.outcome = .ok .waiting) :
    ∀ y ∈ (x :: calls).dropLast, y.outcome = .ok .waiting := by
  cases calls with
  | nil => simp
  | cons y calls =>
    rw [List.dropLast_cons_of_ne_nil (List.cons_ne_nil y calls)]
    intro z hz
    rcases List.mem_cons.mp hz with rfl | hz
    · exact hx
    · exact h z hz

theorem nil {l : L} (hpoint : Label.encode l = s.work.state.resumePoint)
    (hreply : s.work.reply.toList = []) :
    Tracks routine cx command (.before l s.work.state) [] s where
  same_deeds := rfl
  unended j hj := absurd hj (Nat.not_lt_zero j)
  earlier := by simp
  last := by simp
  reply := hreply
  state l' progress heq := by
    cases heq
    exact ⟨rfl, hpoint⟩

theorem cons_stalled {l : L} {progress : Progress C} (hx : x.outcome = .ok .waiting)
    (hstalled : x.stalled cx = true) (hdeeds : deeds x.trace = [])
    (h : Tracks routine cx command (.before l progress) calls s) :
    Tracks routine cx command (.before l progress) (x :: calls) s := by
  have hcount : stepsRun cx (x :: calls) = stepsRun cx calls := by
    simp [stepsRun, hstalled]
  obtain ⟨hsame, hunended, hearlier, hlast, hreply, hstate⟩ := h
  refine ⟨?_, ?_, earlier_cons hx hearlier, ?_, ?_, ?_⟩ <;> rw [hcount]
  · rw [List.flatMap_cons, deeds_append, hdeeds, List.nil_append, hsame]
  · exact hunended
  · cases calls with
    | nil =>
      intro y hy
      cases hy
      exact hx
    | cons y calls =>
      rw [List.getLast?_cons_cons]
      exact hlast
  · exact hreply
  · exact hstate

theorem cons_ran {l : L} {progress : Progress C} (hx : x.outcome = .ok .waiting)
    (hran : x.stalled cx = false)
    (hdeeds : deeds x.trace = deeds (routine.block cx command (.before l progress)).trace)
    (hout : x.outcome = (routine.block cx command (.before l progress)).value.outcome)
    (h : Tracks routine cx command (routine.block cx command (.before l progress)).value calls s) :
    Tracks routine cx command (.before l progress) (x :: calls) s := by
  have hcount : stepsRun cx (x :: calls) = stepsRun cx calls + 1 := by
    simp [stepsRun, hran]
  obtain ⟨hsame, hunended, hearlier, hlast, hreply, hstate⟩ := h
  refine ⟨?_, ?_, earlier_cons hx hearlier, ?_, ?_, ?_⟩ <;> rw [hcount]
  · rw [List.flatMap_cons, deeds_append, hdeeds, hsame]
    exact (deeds_append _ _).symm
  · intro j hj
    cases j with
    | zero => exact ⟨l, progress, rfl⟩
    | succ j => exact hunended j (by omega)
  · cases calls with
    | nil =>
      intro y hy
      cases hy
      exact hout
    | cons y calls =>
      rw [List.getLast?_cons_cons]
      exact hlast
  · exact hreply
  · exact hstate

theorem single_ran {l : L} {progress : Progress C} (hran : x.stalled cx = false)
    (hdeeds : deeds x.trace = deeds (routine.block cx command (.before l progress)).trace)
    (hagrees : (routine.block cx command (.before l progress)).value.Agrees x.outcome s.work) :
    Tracks routine cx command (.before l progress) [x] s := by
  have hcount : stepsRun cx [x] = 1 := by
    simp [stepsRun, hran]
  refine ⟨?_, ?_, by simp, ?_, ?_, ?_⟩ <;> rw [hcount]
  · rw [List.flatMap_singleton, hdeeds]
    exact congrArg deeds (List.append_nil _).symm
  · intro j hj
    have hj0 : j = 0 := by omega
    subst hj0
    exact ⟨l, progress, rfl⟩
  · intro y hy
    cases hy
    exact hagrees.outcome
  · exact hagrees.reply
  · exact hagrees.state

end Session.Tracks

theorem Answered.stalled_of_pending (cx : Wait.Context) (l : L) (outcome : Outcome) :
    Answered.stalled cx ⟨[.wait (.check cx true), Routine.stillWaiting cx l], outcome⟩ = true := by
  simp [Answered.stalled]

theorem Answered.stalled_eq_false {cx : Wait.Context} {trace : List Effect} (outcome : Outcome)
    (h : Effect.wait (.check cx true) ∉ trace) : Answered.stalled cx ⟨trace, outcome⟩ = false := by
  simpa [Answered.stalled] using h

theorem Session.resume_cases [Inhabited C] (routine : Routine L C) (command : List UInt8)
    (first : Bool) (s : Session (Progress C) π m) (l : L)
    (hpoint : Label.encode l = s.work.state.resumePoint) (hreply : s.work.reply.toList = []) :
    (l ≠ Label.entry ∧ s.work.waits.isWaiting s.now s.context = true ∧
      s.resume routine command first =
        ⟨[.wait (.check s.context true), Routine.stillWaiting s.context l], .ok .waiting, s⟩) ∨
    ((l = Label.entry ∨ s.work.waits.isWaiting s.now s.context = false) ∧
      deeds (s.resume routine command first).trace =
        deeds (routine.block s.context command (.before l s.work.state)).trace ∧
      (routine.block s.context command (.before l s.work.state)).value.Agrees
        (s.resume routine command first).value.1 (s.resume routine command first).value.2.work ∧
      Effect.wait (.check s.context true) ∉ (s.resume routine command first).trace) := by
  rw [resume_eq]
  have hresumed := Routine.resumed_resume routine
    { now := s.now, context := s.context, command, first } s.work
  generalize routine.resume { now := s.now, context := s.context, command, first } s.work = x
    at hresumed ⊢
  cases hresumed with
  | unknown hunknown =>
    rw [← hpoint, Label.decode_encode] at hunknown
    cases hunknown
  | entered hzero hran =>
    have hl : l = Label.entry := Label.encode_eq_zero_iff.mp (hpoint.trans hzero)
    subst hl
    obtain ⟨hdeeds, hagrees, hcheck⟩ := hran.blocks hreply
    exact .inr ⟨.inl rfl, hdeeds, hagrees, hcheck⟩
  | pending hpoint' hl hwait =>
    have hll := Label.eq_of_encode_eq (hpoint'.trans hpoint.symm)
    subst hll
    exact .inl ⟨hl, hwait, rfl⟩
  | elapsed hpoint' hl hwait hran =>
    have hll := Label.eq_of_encode_eq (hpoint'.trans hpoint.symm)
    subst hll
    obtain ⟨hdeeds, hagrees, hcheck⟩ := hran.blocks hreply
    refine .inr ⟨.inr hwait, hdeeds, hagrees, ?_⟩
    simpa using hcheck

/-! ### The main statement -/

theorem Session.follow_call_waiting [Inhabited C] (routine : Routine L C) (command : List UInt8)
    (first : Bool) (rest : List Stimulus) {s : Session (Progress C) π m}
    (h : (s.resume routine command first).value.1 = .ok .waiting) :
    s.follow routine (.call command first :: rest) =
      (⟨(s.resume routine command first).trace, .ok .waiting⟩ ::
          ((s.resume routine command first).value.2.follow routine rest).1,
        ((s.resume routine command first).value.2.follow routine rest).2) := by
  simp only [follow, h]

theorem Session.follow_call_ended [Inhabited C] (routine : Routine L C) (command : List UInt8)
    (first : Bool) (rest : List Stimulus) {s : Session (Progress C) π m}
    (h : (s.resume routine command first).value.1 ≠ .ok .waiting) :
    s.follow routine (.call command first :: rest) =
      ([⟨(s.resume routine command first).trace, (s.resume routine command first).value.1⟩],
        (s.resume routine command first).value.2) := by
  rw [follow]
  split
  · contradiction
  · rfl

theorem Session.follow_context [Inhabited C] (routine : Routine L C) (stimuli : List Stimulus)
    (s : Session (Progress C) π m) : (s.follow routine stimuli).2.context = s.context := by
  induction stimuli generalizing s with
  | nil => rfl
  | cons stimulus rest ih =>
    cases stimulus with
    | pause length => exact ih (s.pause length)
    | signal cx transfer => exact ih (s.hear cx transfer)
    | call bytes first =>
      by_cases hout : (s.resume routine bytes first).value.1 = .ok .waiting
      · rw [follow_call_waiting routine bytes first rest hout]
        exact ih (s.resume routine bytes first).value.2
      · rw [follow_call_ended routine bytes first rest hout]
        rfl

/-- The induction over the stimuli. It starts at any label, because after a suspension the rest of
the stimuli meets a session that stands at the next one. -/
theorem Session.tracks_follow [Inhabited C] (routine : Routine L C) (command : List UInt8)
    (stimuli : List Stimulus)
    (hsame : ∀ bytes first, Stimulus.call bytes first ∈ stimuli → bytes = command)
    (s : Session (Progress C) π m) (l : L) (hpoint : Label.encode l = s.work.state.resumePoint)
    (hreply : s.work.reply.toList = []) :
    Tracks routine s.context command (.before l s.work.state) (s.follow routine stimuli).1
      (s.follow routine stimuli).2 := by
  induction stimuli generalizing s l with
  | nil => exact .nil hpoint hreply
  | cons stimulus rest ih =>
    have hrest : ∀ bytes first, Stimulus.call bytes first ∈ rest → bytes = command :=
      fun bytes first hmem => hsame bytes first (List.mem_cons_of_mem _ hmem)
    cases stimulus with
    | pause length => exact ih hrest (s.pause length) l hpoint hreply
    | signal cx transfer => exact ih hrest (s.hear cx transfer) l hpoint hreply
    | call bytes first =>
      have hbytes := hsame bytes first (List.mem_cons_self ..)
      subst hbytes
      rcases s.resume_cases routine bytes first l hpoint hreply with
        ⟨hl, hwait, hx⟩ | ⟨hover, hdeeds, hagrees, hcheck⟩
      · rw [follow_call_waiting routine bytes first rest (by rw [hx]), hx]
        exact .cons_stalled rfl (Answered.stalled_of_pending s.context l _) rfl
          (ih hrest s l hpoint hreply)
      · have hran := Answered.stalled_eq_false (s.resume routine bytes first).value.1 hcheck
        by_cases hout : (s.resume routine bytes first).value.1 = .ok .waiting
        · rw [follow_call_waiting routine bytes first rest hout]
          rw [hout] at hran hagrees
          refine .cons_ran rfl hran hdeeds hagrees.outcome ?_
          -- a suspended step leaves the blocking execution before the next one
          cases hblock : (routine.block s.context bytes (.before l s.work.state)).value with
          | ended result =>
            have h := hagrees.outcome
            rw [hblock] at h
            cases result <;> cases h
          | before next progress =>
            obtain ⟨hstate, hnext⟩ := hagrees.state next progress hblock
            have h := ih hrest (s.resume routine bytes first).value.2 next hnext
            rw [hstate] at h
            have hempty := hagrees.reply
            rw [hblock] at hempty
            exact h hempty
        · rw [follow_call_ended routine bytes first rest hout]
          exact .single_ran hran hdeeds hagrees

/-- However a session is called, between pauses and signals, the calls that ran a step did what the
first `k` steps of the blocking execution do, and those steps are all there are to it so far. All
calls but the last were told to call again; the last was told what the blocking execution has come
to, and the reply says the same. Until the end, the next call runs the next step unless the table
still holds its wait as pending. -/
theorem calls_follow_blocking [Inhabited C] (routine : Routine L C) (command : List UInt8)
    (s : Session (Progress C) π m) (hpoint : s.work.state.resumePoint = 0)
    (hreply : s.work.reply.toList = []) (stimuli : List Stimulus)
    (hsame : ∀ bytes first, Stimulus.call bytes first ∈ stimuli → bytes = command) :
    let run := s.follow routine stimuli
    let k := stepsRun s.context run.1
    let blocking := fun j =>
      routine.blocking s.context command j (.before Label.entry s.work.state)
    deeds (run.1.flatMap (·.trace)) = deeds (blocking k).trace ∧
      (∀ j < k, ∃ l progress, (blocking j).value = .before l progress) ∧
      (∀ x ∈ run.1.dropLast, x.outcome = .ok .waiting) ∧
      (∀ x ∈ run.1.getLast?, x.outcome = (blocking k).value.outcome) ∧
      run.2.work.reply.toList = (blocking k).value.replied ∧
      (∀ l progress, (blocking k).value = .before l progress →
        run.2.work.state = progress ∧
        ∀ first, Answered.stalled s.context
            ⟨(run.2.resume routine command first).trace,
              (run.2.resume routine command first).value.1⟩ = true ↔
          l ≠ Label.entry ∧ run.2.work.waits.isWaiting run.2.now s.context = true) := by
  have hentry : Label.encode (Label.entry : L) = s.work.state.resumePoint := by
    rw [hpoint, Label.encode_entry]
  have htracks := s.tracks_follow routine command stimuli hsame Label.entry hentry hreply
  have hcontext := s.follow_context routine stimuli
  refine ⟨htracks.same_deeds, htracks.unended, htracks.earlier, htracks.last, htracks.reply, ?_⟩
  intro l progress hstanding
  obtain ⟨hstate, hl⟩ := htracks.state l progress hstanding
  refine ⟨hstate, fun first => ?_⟩
  have hunanswered := htracks.reply
  rw [hstanding] at hunanswered
  rw [← hcontext]
  rcases (s.follow routine stimuli).2.resume_cases routine command first l hl hunanswered with
    ⟨hne, hwait, hx⟩ | ⟨hover, _, _, hcheck⟩
  · rw [hx]
    exact iff_of_true (Answered.stalled_of_pending _ l _) ⟨hne, hwait⟩
  · rw [Answered.stalled_eq_false _ hcheck]
    refine iff_of_false Bool.false_ne_true ?_
    rintro ⟨hne, hwait⟩
    rcases hover with hl | hwait'
    · exact hne hl
    · rw [hwait'] at hwait
      cases hwait

/-- One blink of ten milliseconds, called twice too early, with a stray signal in between. -/
theorem calls_follow_blocking_blink :
    let s : Session (Progress Blink.Counters) Unit 1 := .start (Blink.plugin 8) 0
    let stimuli : List Stimulus :=
      [.call [1, 10, 0] true, .call [1, 10, 0] false, .signal 0 .spiSend, .pause 10000,
        .call [1, 10, 0] false, .call [1, 10, 0] false]
    let calls := (s.follow (Blink.routine 8) stimuli).1
    s.work.state.resumePoint = 0 ∧ s.work.reply.toList = [] ∧
      (∀ bytes first, Stimulus.call bytes first ∈ stimuli → bytes = [1, 10, 0]) ∧
      stepsRun 0 calls = 2 ∧
      deeds (calls.flatMap (·.trace)) =
        [.pin (.write 8 .high), .wait (.register 0 10000), .pin (.write 8 .low),
          .wait (.register 0 10000)] := by
  intro s stimuli calls
  have hsame : ∀ bytes first, Stimulus.call bytes first ∈ stimuli → bytes = [1, 10, 0] := by
    intro bytes first hmem
    simp only [stimuli, List.mem_cons, Stimulus.call.injEq, reduceCtorEq, List.not_mem_nil,
      false_or, or_false] at hmem
    rcases hmem with h | h | h | h <;> exact h.1
  have hrun : stepsRun 0 calls = 2 := by decide
  refine ⟨rfl, rfl, hsame, hrun, ?_⟩
  have hdeeds :=
    (calls_follow_blocking (Blink.routine 8) [1, 10, 0] s rfl rfl stimuli hsame).1
  rw [show stepsRun s.context (s.follow (Blink.routine 8) stimuli).1 = 2 from hrun] at hdeeds
  exact hdeeds

end Resumable
