import Resumable.Proofs.Recovery
import Resumable.Proofs.Running

/-!
# Routines that play a score

A score lists the suspensions of one command from its first to its last: the pins driven before
each, the wait, and what the session stores over it. A routine plays a score when every step leads
from one suspension to the next, whatever command the call brings. Then any schedule of calls plays
a beginning of the score, and finishes only when the whole of it was played.
-/

namespace Resumable

variable {L C π : Type} [DecidableEq L] [Label L] {m : Nat}

structure Stop (L C : Type) where
  driven : List PinOp
  wait : Wait
  label : L
  counters : C

structure Finale (C : Type) where
  result : UInt8
  counters : C

namespace Stop

def deeds (cx : Wait.Context) (stop : Stop L C) : List Effect :=
  stop.driven.map Effect.pin ++ [.wait (stop.wait.registration cx)]

def stored (request : Request) (stop : Stop L C) : Progress C :=
  ⟨Label.encode stop.label, request, stop.counters⟩

end Stop

namespace Routine

/-- What a step leads to: the next stop of the score, or its end if there is none. -/
def Continues (request : Request) (finale : Finale C) (point : ResumePoint) :
    List (Stop L C) → Traced Output (Except Fault (Step L) × Progress C) → Prop
  | [], x => ∃ outputs,
      x = ⟨outputs, .ok (.finish finale.result), ⟨point, request, finale.counters⟩⟩ ∧
        Resumable.deeds (outputs.map Output.toEffect) = []
  | stop :: _, x => stop.label ≠ Label.entry ∧ ∃ outputs,
      x = ⟨outputs, .ok (.suspend stop.label stop.wait), ⟨point, request, stop.counters⟩⟩ ∧
        Resumable.deeds (outputs.map Output.toEffect) = stop.driven.map Effect.pin

/-- From every suspension the routine goes on to the next, whatever command it is called with. -/
def Plays (routine : Routine L C) (request : Request) (finale : Finale C) :
    List (Stop L C) → Prop
  | [] => True
  | stop :: rest =>
    (∀ point command, Continues request finale point rest
      (routine.step stop.label ⟨point, request, stop.counters⟩ command)) ∧
    routine.Plays request finale rest

/-- Where a call that ran a step has come to. -/
inductive Landed (cx : Wait.Context) (request : Request) (finale : Finale C) :
    List (Stop L C) → Traced Effect (Outcome × Workspace (Progress C) m) → Prop
  | suspended {stop : Stop L C} {rest : List (Stop L C)} {trace : List Effect}
      {waits : Wait.Table m} {reply : Reply} (hdeeds : deeds trace = stop.deeds cx)
      (hlabel : stop.label ≠ Label.entry) (hreply : reply.toList = []) :
      Landed cx request finale (stop :: rest)
        ⟨trace, .ok .waiting, ⟨stop.stored request, waits, reply⟩⟩
  | finished {trace : List Effect} {waits : Wait.Table m} {reply : Reply}
      (hdeeds : deeds trace = []) (hreply : reply.toList = [finale.result]) :
      Landed cx request finale []
        ⟨trace, .ok .ok, ⟨⟨0, request, finale.counters⟩, waits, reply⟩⟩

variable {request : Request} {finale : Finale C} {stops : List (Stop L C)} {call : Call}
  {x : Traced Effect (Outcome × Workspace (Progress C) m)}

theorem Landed.after_check (h : Landed call.context request finale stops x) :
    Landed call.context request finale stops
      ⟨.wait (.check call.context false) :: x.trace, x.value⟩ := by
  cases h with
  | suspended hdeeds hlabel hreply => exact .suspended hdeeds hlabel hreply
  | finished hdeeds hreply => exact .finished hdeeds hreply

variable [Inhabited C] {routine : Routine L C} {l : L} {w : Workspace (Progress C) m}

/-- A step that goes on to a stop of the score drives its pins and registers its wait. -/
theorem Ran.at_stop {stop : Stop L C} {rest : List (Stop L C)} (h : Ran routine l call w x)
    (hnext : Continues request finale w.state.resumePoint (stop :: rest)
      (routine.step l w.state call.command)) :
    stop.label ≠ Label.entry ∧ ∃ trace, deeds trace = stop.deeds call.context ∧
      x = ⟨trace, .ok .waiting, ⟨stop.stored request,
        w.waits.arm call.now call.context stop.wait, w.reply⟩⟩ := by
  obtain ⟨hlabel, outputs, hstep, hdeeds⟩ := hnext
  refine ⟨hlabel, ?_⟩
  cases h with
  | suspended hstep' =>
    rw [hstep] at hstep'
    cases hstep'
    refine ⟨_, ?_, rfl⟩
    rw [deeds_append, deeds_append, hdeeds, deeds_callArm]
    rfl
  | rewound hstep' =>
    rw [hstep] at hstep'
    injection hstep' with _ hvalue
    exact absurd (Step.suspend.inj (Except.ok.inj (Prod.mk.inj hvalue).1)).1 hlabel
  | failed hstep' => cases hstep.symm.trans hstep'
  | overfull hstep' => cases hstep.symm.trans hstep'
  | finished hstep' => cases hstep.symm.trans hstep'

/-- A step past the last stop of the score writes the result. -/
theorem Ran.at_end (h : Ran routine l call w x) (hreply : w.reply.toList = [])
    (hnext : Continues request finale w.state.resumePoint []
      (routine.step l w.state call.command)) :
    ∃ trace reply, deeds trace = [] ∧ reply.toList = [finale.result] ∧
      x = ⟨trace, .ok .ok, ⟨⟨0, request, finale.counters⟩, w.waits, reply⟩⟩ := by
  obtain ⟨outputs, hstep, hdeeds⟩ := hnext
  cases h with
  | @finished _ _ reply _ hstep' hpush =>
    rw [hstep] at hstep'
    cases hstep'
    refine ⟨_, reply, ?_, ?_, rfl⟩
    · rw [deeds_append, hdeeds]
      rfl
    · rw [Reply.toList_push hpush, hreply, List.nil_append]
  | overfull hstep' hpush =>
    rw [hstep] at hstep'
    cases hstep'
    obtain ⟨r, hr, -⟩ := push_of_unanswered hreply finale.result
    rw [hpush] at hr
    cases hr
  | failed hstep' => cases hstep.symm.trans hstep'
  | rewound hstep' => cases hstep.symm.trans hstep'
  | suspended hstep' => cases hstep.symm.trans hstep'

theorem Ran.landed (h : Ran routine l call w x) (hreply : w.reply.toList = [])
    (hnext : Continues request finale w.state.resumePoint stops
      (routine.step l w.state call.command)) :
    Landed call.context request finale stops x := by
  cases stops with
  | nil =>
    obtain ⟨trace, reply, hdeeds, hanswer, rfl⟩ := h.at_end hreply hnext
    exact .finished hdeeds hanswer
  | cons stop rest =>
    obtain ⟨hlabel, trace, hdeeds, rfl⟩ := h.at_stop hnext
    exact .suspended hdeeds hlabel hreply

end Routine

/-! ### Calls -/

/-- Whether the call suspended the session, and did not find its wait unfinished. -/
def Answered.suspends (cx : Wait.Context) (x : Answered) : Bool :=
  match x.outcome with
  | .ok .waiting => !x.stalled cx
  | _ => false

def suspensions (cx : Wait.Context) (calls : List Answered) : Nat :=
  calls.countP (Answered.suspends cx)

theorem exists_ok_of_any {calls : List Answered}
    (h : calls.any (·.outcome.toOption == some .ok) = true) :
    ∃ x ∈ calls, x.outcome = .ok .ok := by
  obtain ⟨x, hx, hout⟩ := List.any_eq_true.mp h
  refine ⟨x, hx, ?_⟩
  cases houtcome : x.outcome with
  | error fault => simp [houtcome, Except.toOption] at hout
  | ok status => simpa [houtcome, Except.toOption] using hout

/-- How much of a score was played by the calls that a session answered, from the progress `p`. -/
inductive Session.Played (cx : Wait.Context) (request : Request) (finale : Finale C)
    (stops : List (Stop L C)) (p : Progress C) (calls : List Answered)
    (s : Session (Progress C) π m) : Prop
  | part {past left : List (Stop L C)} (hstops : stops = past ++ left)
      (hdeeds : deeds (calls.flatMap (·.trace)) = past.flatMap (Stop.deeds cx))
      (hcalls : ∀ x ∈ calls, x.outcome = .ok .waiting)
      (hcount : suspensions cx calls = past.length)
      (hreply : s.work.reply.toList = [])
      (hstate : s.work.state = (past.getLast?.map (Stop.stored request)).getD p)
  | whole {earlier : List Answered} {last : Answered} (hsplit : calls = earlier ++ [last])
      (hdeeds : deeds (calls.flatMap (·.trace)) = stops.flatMap (Stop.deeds cx))
      (hcalls : ∀ x ∈ earlier, x.outcome = .ok .waiting) (hlast : last.outcome = .ok .ok)
      (hcount : suspensions cx calls = stops.length)
      (hreply : s.work.reply.toList = [finale.result])
      (hstate : s.work.state = ⟨0, request, finale.counters⟩)

namespace Session

variable {cx : Wait.Context} {request : Request} {finale : Finale C} {stop : Stop L C}
  {stops : List (Stop L C)} {p : Progress C} {calls : List Answered} {x : Answered}
  {s : Session (Progress C) π m}

theorem Played.cons_stalled (h : Played cx request finale stops p calls s)
    (hout : x.outcome = .ok .waiting) (hstalled : x.stalled cx = true)
    (hx : deeds x.trace = []) : Played cx request finale stops p (x :: calls) s := by
  have hcount' : suspensions cx (x :: calls) = suspensions cx calls := by
    simp [suspensions, Answered.suspends, hout, hstalled]
  have hdeeds' : deeds ((x :: calls).flatMap (·.trace)) = deeds (calls.flatMap (·.trace)) := by
    rw [List.flatMap_cons, deeds_append, hx, List.nil_append]
  cases h with
  | part hstops hdeeds hcalls hcount hreply hstate =>
    exact .part hstops (hdeeds'.trans hdeeds) (List.forall_mem_cons.mpr ⟨hout, hcalls⟩)
      (hcount'.trans hcount) hreply hstate
  | whole hsplit hdeeds hcalls hlast hcount hreply hstate =>
    exact .whole (by rw [hsplit]; rfl) (hdeeds'.trans hdeeds)
      (List.forall_mem_cons.mpr ⟨hout, hcalls⟩) hlast (hcount'.trans hcount) hreply hstate

theorem Played.cons_stop (h : Played cx request finale stops (stop.stored request) calls s)
    (hout : x.outcome = .ok .waiting) (hran : x.stalled cx = false)
    (hx : deeds x.trace = stop.deeds cx) :
    Played cx request finale (stop :: stops) p (x :: calls) s := by
  have hcount' : suspensions cx (x :: calls) = suspensions cx calls + 1 := by
    simp [suspensions, Answered.suspends, hout, hran]
  have hdeeds' : deeds ((x :: calls).flatMap (·.trace)) =
      stop.deeds cx ++ deeds (calls.flatMap (·.trace)) := by
    rw [List.flatMap_cons, deeds_append, hx]
  cases h with
  | @part past left hstops hdeeds hcalls hcount hreply hstate =>
    have hstops' : stop :: stops = (stop :: past) ++ left := by
      rw [hstops, List.cons_append]
    refine .part hstops' ?_ (List.forall_mem_cons.mpr ⟨hout, hcalls⟩) ?_ hreply ?_
    · rw [hdeeds', hdeeds, List.flatMap_cons]
    · rw [hcount', hcount, List.length_cons]
    · rw [hstate, List.getLast?_cons]
      cases past.getLast? <;> rfl
  | whole hsplit hdeeds hcalls hlast hcount hreply hstate =>
    refine .whole (by rw [hsplit]; rfl) ?_ (List.forall_mem_cons.mpr ⟨hout, hcalls⟩) hlast ?_
      hreply hstate
    · rw [hdeeds', hdeeds, List.flatMap_cons]
    · rw [hcount', hcount, List.length_cons]

theorem played_nil (hreply : s.work.reply.toList = []) :
    Played cx request finale stops s.work.state [] s :=
  .part (List.nil_append stops).symm rfl nofun rfl hreply rfl

theorem played_finished (hout : x.outcome = .ok .ok) (hx : deeds x.trace = [])
    (hreply : s.work.reply.toList = [finale.result])
    (hstate : s.work.state = ⟨0, request, finale.counters⟩) :
    Played cx request finale ([] : List (Stop L C)) p [x] s := by
  refine .whole (List.nil_append [x]).symm ?_ nofun hout ?_ hreply hstate
  · rw [List.flatMap_singleton, hx]
    rfl
  · simp [suspensions, Answered.suspends, hout]

/-! ### What can be read off the calls -/

theorem Played.done_prefix (h : Played cx request finale stops p calls s) :
    deeds (calls.flatMap (·.trace)) <+: stops.flatMap (Stop.deeds cx) := by
  cases h with
  | @part past left hstops hdeeds =>
    rw [hdeeds, hstops, List.flatMap_append]
    exact List.prefix_append _ _
  | whole _ hdeeds => exact ⟨[], (List.append_nil _).trans hdeeds⟩

theorem Played.outcome (h : Played cx request finale stops p calls s) :
    ∀ x ∈ calls, x.outcome = .ok .waiting ∨ x.outcome = .ok .ok := by
  intro x hx
  cases h with
  | part _ _ hcalls => exact .inl (hcalls x hx)
  | whole hsplit _ hcalls hlast =>
    subst hsplit
    rcases List.mem_append.mp hx with hx | hx
    · exact .inl (hcalls x hx)
    · obtain rfl := List.mem_singleton.mp hx
      exact .inr hlast

theorem Played.of_ok (h : Played cx request finale stops p calls s)
    (hok : ∃ x ∈ calls, x.outcome = .ok .ok) :
    deeds (calls.flatMap (·.trace)) = stops.flatMap (Stop.deeds cx) ∧
      suspensions cx calls = stops.length ∧ s.work.reply.toList = [finale.result] ∧
      s.work.state = ⟨0, request, finale.counters⟩ := by
  cases h with
  | part _ _ hcalls =>
    obtain ⟨x, hx, hout⟩ := hok
    rw [hcalls x hx] at hout
    cases hout
  | whole _ hdeeds _ _ hcount hreply hstate => exact ⟨hdeeds, hcount, hreply, hstate⟩

/-- As long as every call is told to call again, a part of the score was played. -/
theorem Played.part_of_waiting (h : Played cx request finale stops p calls s)
    (hwaiting : ∀ x ∈ calls, x.outcome = .ok .waiting) :
    ∃ past left, stops = past ++ left ∧ suspensions cx calls = past.length ∧
      s.work.reply.toList = [] ∧
      s.work.state = (past.getLast?.map (Stop.stored request)).getD p := by
  cases h with
  | @part past left hstops _ _ hcount hreply hstate =>
    exact ⟨past, left, hstops, hcount, hreply, hstate⟩
  | @whole earlier last hsplit _ _ hlast =>
    have hmem : last ∈ calls := by
      rw [hsplit]
      exact List.mem_append_right _ (List.mem_singleton_self last)
    rw [hwaiting last hmem] at hlast
    cases hlast

/-- Then the session stores what the last suspension of the score so far says. -/
theorem Played.of_waiting (h : Played cx request finale stops p calls s)
    (hwaiting : ∀ x ∈ calls, x.outcome = .ok .waiting) :
    suspensions cx calls ≤ stops.length ∧
      ∀ k stop, suspensions cx calls = k + 1 → stops[k]? = some stop →
        s.work.state = stop.stored request := by
  obtain ⟨past, left, hstops, hcount, -, hstate⟩ := h.part_of_waiting hwaiting
  refine ⟨?_, ?_⟩
  · rw [hcount, hstops, List.length_append]
    exact Nat.le_add_right _ _
  · intro k stop hk hstop
    rw [hcount] at hk
    have hlast : past.getLast? = some stop := by
      rw [List.getLast?_eq_getElem?, hk, Nat.add_sub_cancel, ← hstop, hstops,
        List.getElem?_append_left (by omega)]
    rw [hstate, hlast]
    rfl

theorem suspensions_concat (cx : Wait.Context) (calls : List Answered) (x : Answered) :
    suspensions cx (calls ++ [x]) = suspensions cx calls + if x.suspends cx then 1 else 0 := by
  rw [suspensions, List.countP_append, List.countP_singleton]
  rfl

/-- A last call that ran a step was the end of the score or one more suspension of it. -/
theorem Played.outcome_of_last (h : Played cx request finale stops p (calls ++ [x]) s)
    (hwaiting : ∀ y ∈ calls, y.outcome = .ok .waiting) (hstalled : x.stalled cx = false) :
    x.outcome = if suspensions cx calls = stops.length then .ok .ok else .ok .waiting := by
  have hlast : x ∈ calls ++ [x] := List.mem_append_right calls (List.mem_singleton_self x)
  rcases h.outcome x hlast with hout | hout
  · have hall : ∀ y ∈ calls ++ [x], y.outcome = .ok .waiting := by
      simpa [or_imp, forall_and] using ⟨hwaiting, hout⟩
    have hcount := (h.of_waiting hall).1
    have hsuspends : x.suspends cx = true := by simp [Answered.suspends, hout, hstalled]
    rw [suspensions_concat, if_pos hsuspends] at hcount
    rw [if_neg (by omega), hout]
  · obtain ⟨-, hcount, -⟩ := h.of_ok ⟨x, hlast, hout⟩
    have hsuspends : ¬ x.suspends cx = true := by simp [Answered.suspends, hout]
    rw [suspensions_concat, if_neg hsuspends, Nat.add_zero] at hcount
    rw [if_pos hcount, hout]

/-! ### Calls against the score -/

variable [Inhabited C] {routine : Routine L C} {l : L}

theorem resume_landed (command : List UInt8) (first : Bool)
    (hpoint : Label.encode l = s.work.state.resumePoint) (hreply : s.work.reply.toList = [])
    (hnext : Routine.Continues request finale s.work.state.resumePoint stops
      (routine.step l s.work.state command)) :
    (l ≠ Label.entry ∧ s.resume routine command first =
      ⟨[.wait (.check s.context true), Routine.stillWaiting s.context l], .ok .waiting, s⟩) ∨
    ∃ x, Routine.Landed s.context request finale stops x ∧
      Effect.wait (.check s.context true) ∉ x.trace ∧
      s.resume routine command first = ⟨x.trace, x.value.1, { s with work := x.value.2 }⟩ := by
  rw [resume_eq]
  have hresumed := Routine.resumed_resume routine
    { now := s.now, context := s.context, command, first } s.work
  generalize routine.resume { now := s.now, context := s.context, command, first } s.work = x
    at hresumed ⊢
  cases hresumed with
  | unknown hunknown =>
    rw [← hpoint, Label.decode_encode] at hunknown
    cases hunknown
  | entered hzero hran =>
    obtain rfl : l = Label.entry := Label.encode_eq_zero_iff.mp (hpoint.trans hzero)
    exact .inr ⟨x, hran.landed hreply hnext, (hran.blocks hreply).2.2, rfl⟩
  | pending hpoint' hl =>
    obtain rfl := Label.eq_of_encode_eq (hpoint'.trans hpoint.symm)
    exact .inl ⟨hl, rfl⟩
  | elapsed hpoint' hl hwait hran =>
    obtain rfl := Label.eq_of_encode_eq (hpoint'.trans hpoint.symm)
    refine .inr ⟨_, (hran.landed hreply hnext).after_check, ?_, rfl⟩
    simpa using (hran.blocks hreply).2.2

/-- What the stimuli do to any session that stands at a suspension of the score. -/
def PlaysOn (routine : Routine L C) (request : Request) (finale : Finale C) (π : Type) (m : Nat)
    (stimuli : List Stimulus) : Prop :=
  ∀ (s : Session (Progress C) π m) (l : L) (stops : List (Stop L C)), l ≠ Label.entry →
    Label.encode l = s.work.state.resumePoint → s.work.reply.toList = [] →
    (∀ command, Routine.Continues request finale s.work.state.resumePoint stops
      (routine.step l s.work.state command)) →
    routine.Plays request finale stops →
    Played s.context request finale stops s.work.state (s.follow routine stimuli).1
      (s.follow routine stimuli).2

/-- One call, and then what the rest of the stimuli does from where it has come to. -/
theorem played_call {command : List UInt8} {first : Bool} {rest : List Stimulus}
    (hpoint : Label.encode l = s.work.state.resumePoint) (hreply : s.work.reply.toList = [])
    (hnext : Routine.Continues request finale s.work.state.resumePoint stops
      (routine.step l s.work.state command))
    (hplays : routine.Plays request finale stops)
    (hstalled : l ≠ Label.entry → Played s.context request finale stops s.work.state
      (s.follow routine rest).1 (s.follow routine rest).2)
    (hlater : PlaysOn routine request finale π m rest) :
    Played s.context request finale stops s.work.state
      (s.follow routine (.call command first :: rest)).1
      (s.follow routine (.call command first :: rest)).2 := by
  rcases s.resume_landed command first hpoint hreply hnext with ⟨hl, hx⟩ | ⟨x, hlanded, hcheck, hx⟩
  · -- The wait is unfinished: nothing was done, and the session is as it was.
    rw [follow_call_waiting routine command first rest (by rw [hx]), hx]
    exact (hstalled hl).cons_stalled rfl (Answered.stalled_of_pending s.context l _) rfl
  · cases hlanded with
    | @suspended stop later trace waits reply hdeeds hlabel hempty =>
      have hrest := hlater { s with work := ⟨stop.stored request, waits, reply⟩ } stop.label later
        hlabel rfl hempty (hplays.1 _) hplays.2
      rw [follow_call_waiting routine command first rest (by rw [hx]), hx]
      exact hrest.cons_stop rfl (Answered.stalled_eq_false _ hcheck) hdeeds
    | finished hdeeds hreplied =>
      rw [follow_call_ended routine command first rest (by rw [hx]; nofun), hx]
      exact played_finished rfl hdeeds hreplied rfl

theorem playsOn (stimuli : List Stimulus) : PlaysOn routine request finale π m stimuli := by
  -- Over the stimuli, for every session and every rest of the score.
  induction stimuli with
  | nil =>
    intro s l stops _ _ hreply _ _
    exact played_nil hreply
  | cons stimulus rest ih =>
    intro s l stops hl hpoint hreply hnext hplays
    cases stimulus with
    | pause length => exact ih (s.pause length) l stops hl hpoint hreply hnext hplays
    | signal cx transfer => exact ih (s.hear cx transfer) l stops hl hpoint hreply hnext hplays
    | call command first =>
      exact played_call hpoint hreply (hnext command) hplays
        (fun _ => ih s l stops hl hpoint hreply hnext hplays) ih

/-- A first call enters the routine with its command; the calls after it may bring any. -/
theorem played_from_entry {command : List UInt8} (first : Bool) (stimuli : List Stimulus)
    (hpoint : s.work.state.resumePoint = 0) (hreply : s.work.reply.toList = [])
    (hentry : Routine.Continues request finale 0 stops
      (routine.step Label.entry s.work.state command))
    (hplays : routine.Plays request finale stops) :
    Played s.context request finale stops s.work.state
      (s.follow routine (.call command first :: stimuli)).1
      (s.follow routine (.call command first :: stimuli)).2 := by
  refine played_call (l := Label.entry) ?_ hreply ?_ hplays (fun hl => absurd rfl hl)
    (playsOn stimuli)
  · rw [hpoint, Label.encode_entry]
  · rw [hpoint]
    exact hentry

/-! ### The next call -/

theorem follow_append (first rest : List Stimulus) {s : Session (Progress C) π m}
    (h : ∀ x ∈ (s.follow routine first).1, x.outcome = .ok .waiting) :
    s.follow routine (first ++ rest) =
      ((s.follow routine first).1 ++ ((s.follow routine first).2.follow routine rest).1,
        ((s.follow routine first).2.follow routine rest).2) := by
  induction first generalizing s with
  | nil => rfl
  | cons stimulus first ih =>
    cases stimulus with
    | pause length => exact ih (s := s.pause length) h
    | signal cx transfer => exact ih (s := s.hear cx transfer) h
    | call command again =>
      by_cases hout : (s.resume routine command again).value.1 = .ok .waiting
      · rw [follow_call_waiting routine command again first hout] at h ⊢
        rw [List.cons_append, follow_call_waiting routine command again (first ++ rest) hout,
          ih fun x hx => h x (List.mem_cons_of_mem _ hx)]
        rfl
      · rw [follow_call_ended routine command again first hout] at h
        exact absurd (h _ (List.mem_singleton_self _)) hout

theorem follow_single (s : Session (Progress C) π m) (routine : Routine L C)
    (command : List UInt8) (first : Bool) :
    s.follow routine [.call command first] =
      ([⟨(s.resume routine command first).trace, (s.resume routine command first).value.1⟩],
        (s.resume routine command first).value.2) := by
  by_cases hout : (s.resume routine command first).value.1 = .ok .waiting
  · rw [follow_call_waiting routine command first [] hout, hout]
    rfl
  · exact follow_call_ended routine command first [] hout

/-- The session stands at a label other than the entry. -/
def Suspended (L : Type) [DecidableEq L] [Label L] (s : Session (Progress C) π m) : Prop :=
  ∃ l : L, Label.encode l = s.work.state.resumePoint ∧ l ≠ Label.entry

theorem suspended_of_waiting {command : List UInt8} {first : Bool}
    (hout : (s.resume routine command first).value.1 = .ok .waiting) :
    (s.resume routine command first).value.2.Suspended L := by
  rw [resume_eq] at hout ⊢
  exact (Routine.resumed_resume routine _ s.work).label_of_waiting hout

theorem suspended_of_follow (stimuli : List Stimulus) (hs : s.Suspended L)
    (hwaiting : ∀ x ∈ (s.follow routine stimuli).1, x.outcome = .ok .waiting) :
    (s.follow routine stimuli).2.Suspended L := by
  induction stimuli generalizing s with
  | nil => exact hs
  | cons stimulus rest ih =>
    cases stimulus with
    | pause length => exact ih (s := s.pause length) hs hwaiting
    | signal cx transfer => exact ih (s := s.hear cx transfer) hs hwaiting
    | call command first =>
      by_cases hout : (s.resume routine command first).value.1 = .ok .waiting
      · rw [follow_call_waiting routine command first rest hout] at hwaiting ⊢
        exact ih (suspended_of_waiting hout) fun x hx => hwaiting x (List.mem_cons_of_mem _ hx)
      · rw [follow_call_ended routine command first rest hout] at hwaiting
        exact absurd (hwaiting _ (List.mem_singleton_self _)) hout

theorem suspended_of_calls {command : List UInt8} {first : Bool} {stimuli : List Stimulus}
    (hwaiting : ∀ x ∈ (s.follow routine (.call command first :: stimuli)).1,
      x.outcome = .ok .waiting) :
    (s.follow routine (.call command first :: stimuli)).2.Suspended L := by
  by_cases hout : (s.resume routine command first).value.1 = .ok .waiting
  · rw [follow_call_waiting routine command first stimuli hout] at hwaiting ⊢
    exact suspended_of_follow stimuli (suspended_of_waiting hout) fun x hx =>
      hwaiting x (List.mem_cons_of_mem _ hx)
  · rw [follow_call_ended routine command first stimuli hout] at hwaiting
    exact absurd (hwaiting _ (List.mem_singleton_self _)) hout

/-- A call that finds its wait unfinished does nothing and leaves the whole session as it was. -/
theorem resume_of_pending (hs : s.Suspended L)
    (hwait : s.work.waits.isWaiting s.now s.context = true) (command : List UInt8)
    (first : Bool) :
    (s.resume routine command first).value = (.ok .waiting, s) ∧
      deeds (s.resume routine command first).trace = [] := by
  obtain ⟨l, hl, hne⟩ := hs
  have hresume := Routine.resume_of_label routine ⟨s.now, s.context, command, first⟩ hl hne
  rw [Routine.continueAt_of_waiting routine l hwait] at hresume
  rw [resume_eq, hresume]
  exact ⟨rfl, rfl⟩

theorem stalled_of_over (routine : Routine L C) (hs : s.Suspended L)
    (hreply : s.work.reply.toList = []) (hwait : s.work.waits.isWaiting s.now s.context = false)
    (command : List UInt8) (first : Bool) :
    Answered.stalled s.context ⟨(s.resume routine command first).trace,
      (s.resume routine command first).value.1⟩ = false := by
  obtain ⟨l, hl, -⟩ := hs
  rcases s.resume_cases routine command first l hl hreply with ⟨-, hwait', -⟩ | ⟨-, -, -, hcheck⟩
  · rw [hwait] at hwait'
    cases hwait'
  · exact Answered.stalled_eq_false _ hcheck

/-- A call that finds its wait over goes on, and it answers exactly when the score is through. -/
theorem outcome_of_over {command : List UInt8} {first : Bool} {stimuli : List Stimulus}
    (hpoint : s.work.state.resumePoint = 0) (hreply : s.work.reply.toList = [])
    (hentry : Routine.Continues request finale 0 stops
      (routine.step Label.entry s.work.state command))
    (hplays : routine.Plays request finale stops)
    {run : List Answered × Session (Progress C) π m}
    (hrun : s.follow routine (.call command first :: stimuli) = run)
    (hwaiting : ∀ x ∈ run.1, x.outcome = .ok .waiting)
    (hwait : run.2.work.waits.isWaiting run.2.now s.context = false) (bytes : List UInt8)
    (again : Bool) :
    (run.2.resume routine bytes again).value.1 =
      if suspensions s.context run.1 = stops.length then .ok .ok else .ok .waiting := by
  have hplayed := played_from_entry first stimuli hpoint hreply hentry hplays
  have hcontext := s.follow_context routine (.call command first :: stimuli)
  have hsuspended : run.2.Suspended L := by
    rw [← hrun] at hwaiting ⊢
    exact suspended_of_calls hwaiting
  rw [hrun] at hplayed hcontext
  obtain ⟨-, -, -, -, hunanswered, -⟩ := hplayed.part_of_waiting hwaiting
  rw [← hcontext] at hwait
  have hstalled := stalled_of_over routine hsuspended hunanswered hwait bytes again
  rw [hcontext] at hstalled
  -- The run that ends with this call plays the same score, so its count of suspensions decides.
  have hlater :=
    played_from_entry first (stimuli ++ [.call bytes again]) hpoint hreply hentry hplays
  have hlonger := follow_append (.call command first :: stimuli) [.call bytes again]
    (by rw [hrun]; exact hwaiting)
  rw [hrun, follow_single] at hlonger
  rw [← List.cons_append, hlonger] at hlater
  exact hlater.outcome_of_last hwaiting hstalled

/-- The handler of a plugin that runs a routine does what resuming the routine does. -/
theorem call_eq_resume {plugin : Plugin (Progress C) π} (hruns : plugin.Runs routine)
    (s : Session (Progress C) π m) (command : List UInt8) (first : Bool) :
    s.call plugin command first = s.resume routine command first := by
  unfold call
  rw [hruns.handle]
  apply Traced.ext
  · simp only [Plugin.resumeRoutine, resume, Traced.trace_bind, Traced.trace_pure,
      List.append_nil]
  · rfl

end Session

end Resumable
