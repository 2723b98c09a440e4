import Resumable.Proofs.BlinkScore
import Resumable.Proofs.Delays
import Resumable.Proofs.RampScore
import Resumable.Proofs.Signals

/-!
# Waits end on time

The deadline of a wait is fixed when it is registered, from the clock of the turn that registers it
and the delay of the request. This module follows one command of a score from the turn that admits
it: what a moment can do to its session (`Met`), where a turn leaves it (`Stepped`), and so what the
turns of a whole run are. Whatever else happens in between, they keep the time of the request.
-/

namespace Resumable

variable {L C π : Type} {n m : Nat} {r : Request}

/-! ### The turns of a session in a run -/

namespace Device

variable {σ : Type} {x : Device σ π n m} {i : Fin n}

/-- What a moment can do to the session in a slot, if it changes no stored state: give it a turn,
drop what it has in flight, or leave its slot and its wait, which a transfer may have ended. -/
inductive Met (i : Fin n) (x : Device σ π n m) (y : Moment σ π n m) : Prop
  | turned (hturns : y.turnsOf i = (x.dispatcher.turn x.now i).1.toList)
      (hafter : Dispatcher.SameFor i (x.dispatcher.turn x.now i).2 y.after.dispatcher)
  | dropped (hturns : y.turnsOf i = []) (hbusy : (y.after.dispatcher.slot i).busy = false)
  | signalled (hturns : y.turnsOf i = [])
      (hslot : y.after.dispatcher.slot i = x.dispatcher.slot i) (transfer : Transfer)
      (hrecord : y.after.dispatcher.waits.record? (Dispatcher.session i) =
        (x.dispatcher.waits.record? (Dispatcher.session i)).map (Wait.Record.signalled transfer))
  | kept (hturns : y.turnsOf i = [])
      (hslot : y.after.dispatcher.slot i = x.dispatcher.slot i)
      (hrecord : y.after.dispatcher.waits.record? (Dispatcher.session i) =
        x.dispatcher.waits.record? (Dispatcher.session i))

theorem Met.turnsOf_cases {y : Moment σ π n m} (h : Met i x y) :
    y.turnsOf i = [] ∨ ∃ t, y.turnsOf i = [t] := by
  cases h with
  | turned hturns =>
    rcases hturn : (x.dispatcher.turn x.now i).1 with _ | t
    · exact .inl (by rw [hturns, hturn]; rfl)
    · exact .inr ⟨t, by rw [hturns, hturn]; rfl⟩
  | dropped hturns => exact .inl hturns
  | signalled hturns => exact .inl hturns
  | kept hturns => exact .inl hturns

theorem Met.of_mem {y : Moment σ π n m} (h : Met i x y) {t : Turn} (ht : t ∈ y.turnsOf i) :
    (x.dispatcher.turn x.now i).1 = some t ∧
      Dispatcher.SameFor i (x.dispatcher.turn x.now i).2 y.after.dispatcher := by
  cases h with
  | turned hturns hafter =>
    rw [hturns, Option.mem_toList] at ht
    exact ⟨ht, hafter⟩
  | dropped hturns =>
    rw [hturns] at ht
    cases ht
  | signalled hturns =>
    rw [hturns] at ht
    cases ht
  | kept hturns =>
    rw [hturns] at ht
    cases ht

theorem now_le_after (x : Device σ π n m) (h : Happening σ) :
    x.now ≤ (x.meet h).after.now := by
  cases h with
  | operate op => exact UInt64.le_refl _
  | advance length =>
    show x.now ≤ (x.now.after? length).getD x.now
    rw [UInt64.le_iff_toNat_le, Instant.after?]
    split
    case isTrue hfits =>
      simp only [UInt64.size] at hfits
      simp only [Option.getD_some, UInt64.toNat_add]
      omega
    case isFalse => exact Nat.le_refl _

/-- The turns of a session in a run, in the order in which they were given. -/
def turnsOf (x : Device σ π n m) (happenings : List (Happening σ))
    (i : Fin n) : List Turn :=
  (x.run happenings).flatMap (Moment.turnsOf i)

theorem turnsOf_cons (x : Device σ π n m) (h : Happening σ)
    (rest : List (Happening σ)) (i : Fin n) :
    x.turnsOf (h :: rest) i = (x.meet h).turnsOf i ++ (x.meet h).after.turnsOf rest i := rfl

theorem Met.turn_now {y : Moment σ π n m} (h : Met i x y) {t : Turn} (ht : t ∈ y.turnsOf i) :
    t.call.now = x.now := by
  have hturn := (h.of_mem ht).1
  have hturned := Dispatcher.turned_turn x.dispatcher x.now i
  generalize x.dispatcher.turn x.now i = z at hturned hturn
  cases hturned with
  | idle => cases hturn
  | continued =>
    cases hturn
    rfl
  | begun _ _ _ hcall =>
    cases hturn
    rw [hcall]

end Device

/-! ### A session at a stop -/

theorem pinOps_of_deeds {stop : Stop L C} {trace : List Effect} {cx : Wait.Context}
    (h : deeds trace = stop.deeds cx) : pinOps trace = stop.driven := by
  have hdriven : pinOps (stop.driven.map Effect.pin) = stop.driven := by
    rw [pinOps, List.filterMap_map]
    exact List.filterMap_some
  rw [← pinOps_deeds, h, Stop.deeds, pinOps_append, hdriven, pinOps_wait, List.append_nil]

section Score

variable [DecidableEq L] [Label L] [Inhabited C] {routine : Routine L C} {finale : Finale C}
  {stop : Stop L C} {stops rest : List (Stop L C)} {i : Fin n}

namespace Dispatcher

variable {d e : Dispatcher (Progress C) π n m} {now : Instant} {u : Instant}

/-- The session in a slot stands at a stop of a score and waits there since an instant. -/
structure PausedAt (i : Fin n) (r : Request) (stop : Stop L C) (u : Instant)
    (d : Dispatcher (Progress C) π n m) : Prop where
  busy : (d.slot i).busy = true
  state : (d.slot i).state = stop.stored r
  label : stop.label ≠ Label.entry
  reply : (d.slot i).reply.toList = []
  record : d.waits.record? (session i) = some (.deadline (u.deadline r.delay))

omit [Inhabited C] in
theorem PausedAt.same (h : PausedAt i r stop u d) (hslot : e.slot i = d.slot i)
    (hrecord : e.waits.record? (session i) = d.waits.record? (session i)) :
    PausedAt i r stop u e where
  busy := by rw [hslot]; exact h.busy
  state := by rw [hslot]; exact h.state
  label := h.label
  reply := by rw [hslot]; exact h.reply
  record := by rw [hrecord]; exact h.record

/-- What a turn that runs a step does, and where it leaves the session. -/
inductive Stepped (i : Fin n) (r : Request) (t : Turn) (e : Dispatcher (Progress C) π n m) :
    List (Stop L C) → Prop
  | suspended {stop : Stop L C} {rest : List (Stop L C)}
      (hpins : pinOps t.handling = stop.driven) (hrests : t.rests r = true)
      (hending : t.ending = none) (hpaused : PausedAt i r stop t.call.now e) :
      Stepped i r t e (stop :: rest)
  | finished (hpins : pinOps t.handling = []) (hsucceeds : t.Succeeds)
      (hbusy : (e.slot i).busy = false) : Stepped i r t e []

/-- A step of a session in flight that goes on in the score, after effects that do nothing. -/
theorem stepped_run (hruns : d.plugin.Runs routine) (hbusy : (d.slot i).busy = true)
    (hreply : (d.slot i).reply.toList = []) {l : L} {waits : Wait.Table m}
    {before : List Effect} {y : Traced Effect (Outcome × Workspace (Progress C) m)}
    (hbefore : deeds before = [])
    (hresumed : d.resumed routine now i = ⟨before ++ y.trace, y.value⟩)
    (hran : Routine.Ran routine l (d.callOf now i) ⟨(d.slot i).state, waits, (d.slot i).reply⟩ y)
    (hnext : Routine.Continues r finale (d.slot i).state.resumePoint stops
      (routine.step l (d.slot i).state (d.slot i).command.bytes))
    (hwaits : ∀ stop ∈ stops, stop.wait = .timeout r.delay) (admitted : Option Command) :
    Stepped i r ⟨session i, admitted, d.callOf now i, (d.run now i).trace, (d.run now i).value.1⟩
      (d.run now i).value.2 stops := by
  have hhandled := handled_eq hruns now i
  rw [hresumed] at hhandled
  cases stops with
  | cons stop rest =>
    obtain ⟨hlabel, trace, hdeeds, rfl⟩ := hran.at_stop hnext
    have hwait := hwaits stop List.mem_cons_self
    have hrecord : (waits.arm now (session i) stop.wait).record? (session i) =
        some (.deadline (now.deadline r.delay)) := by
      rw [Wait.Table.record?_arm waits now stop.wait (session_lt d i), hwait]
      rfl
    have hdone : deeds (before ++ trace) = stop.deeds (session i) := by
      rw [deeds_append, hbefore, List.nil_append]
      exact hdeeds
    have hrests : Effect.wait (.register (session i) r.delay) ∈ deeds (before ++ trace) := by
      rw [hdone, Stop.deeds, hwait]
      exact List.mem_append_right _ (List.mem_singleton_self _)
    rw [run_of_handled hhandled]
    refine .suspended (pinOps_of_deeds hdone)
      (List.contains_iff_mem.mpr (List.mem_filter.mp hrests).1) rfl ⟨?_, ?_, hlabel, ?_, hrecord⟩
    · rw [slot_store]
      exact hbusy
    · rw [slot_store]
    · rw [slot_store]
      exact hreply
  | nil =>
    obtain ⟨trace, reply, hdeeds, _, rfl⟩ := hran.at_end hreply hnext
    rw [run_of_handled hhandled]
    refine .finished ?_ ⟨_, rfl⟩ ?_
    · rw [← pinOps_deeds, deeds_append, hbefore, hdeeds]
      rfl
    · rw [slot_store]

theorem mem_run_of_resumed (hruns : d.plugin.Runs routine) {effect : Effect}
    (h : effect ∈ (d.resumed routine now i).trace) : effect ∈ (d.run now i).trace := by
  have hserved := served_run d now i
  generalize d.run now i = x at hserved
  cases hserved with
  | suspended hhandled =>
    rw [(resumed_of_handled hruns hhandled).1] at h
    exact h
  | answered hhandled =>
    rw [(resumed_of_handled hruns hhandled).1] at h
    exact h
  | faulted hhandled =>
    rw [(resumed_of_handled hruns hhandled).1] at h
    exact List.mem_append_left _ h

/-- A turn of a session at a stop. Before the deadline it changes nothing that counts; from then on
it goes on to the next stop of the score, or ends the command. -/
theorem PausedAt.turn (h : PausedAt i r stop u d) (hruns : d.plugin.Runs routine)
    (hplays : routine.Plays r finale (stop :: rest))
    (hwaits : ∀ stop ∈ rest, stop.wait = .timeout r.delay) (now : Instant) :
    ∃ t, (d.turn now i).1 = some t ∧ t.call.now = now ∧ t.admitted = none ∧
      ((now.toNat < r.due 1 u ∧ t.leaves = false ∧ pinOps t.handling = [] ∧ t.ending = none ∧
          PausedAt i r stop u (d.turn now i).2) ∨
        (r.due 1 u ≤ now.toNat ∧ t.leaves = true ∧ Stepped i r t (d.turn now i).2 rest)) := by
  have hpoint : Label.encode stop.label = (d.slot i).state.resumePoint := by
    rw [h.state]
    rfl
  have hwaiting : d.waits.isWaiting now (session i) = decide (now < u.deadline r.delay) := by
    rw [Wait.Table.isWaiting, h.record]
    rfl
  have hdue := r.toNat_deadline u
  by_cases hearly : now < u.deadline r.delay
  · rw [decide_eq_true hearly] at hwaiting
    have hturn := turn_of_waiting hruns h.busy hpoint h.label hwaiting
    rw [UInt64.lt_iff_toNat_lt, hdue] at hearly
    rw [hturn]
    refine ⟨_, rfl, rfl, rfl, .inl ⟨hearly, ?_, rfl, rfl, ?_⟩⟩
    · simp [Turn.leaves, Routine.stillWaiting, Effect.report]
    · exact ⟨by rw [slot_store]; exact h.busy, by rw [slot_store]; exact h.state, h.label,
        by rw [slot_store]; exact h.reply, h.record⟩
  · rw [decide_eq_false hearly] at hwaiting
    obtain ⟨y, hran, hresumed⟩ := resumed_of_over routine hpoint h.label hwaiting
    have hstate : (⟨(d.slot i).state.resumePoint, r, stop.counters⟩ : Progress C) =
        (d.slot i).state := by
      rw [h.state]
      rfl
    have hnext := hplays.1 (d.slot i).state.resumePoint (d.slot i).command.bytes
    rw [hstate] at hnext
    have hstepped := stepped_run hruns h.busy h.reply
      (show deeds [.wait (.check (session i) false)] = [] from rfl) hresumed hran hnext hwaits none
    have hleft : Effect.wait (.check (session i) false) ∈ (d.run now i).trace := by
      refine mem_run_of_resumed hruns ?_
      rw [hresumed]
      exact List.mem_cons_self
    rw [UInt64.lt_iff_toNat_lt, hdue, Nat.not_lt] at hearly
    rw [turn_of_busy d now h.busy]
    exact ⟨_, rfl, rfl, rfl, .inr ⟨hearly, List.contains_iff_mem.mpr hleft, hstepped⟩⟩

/-- The turn that admits a command enters the score, whatever the slot held before. -/
theorem stepped_first (hruns : d.plugin.Runs routine)
    (hsettled : Settled L (d.slot i).busy (d.slot i).state (d.waits.record? (session i)))
    {t : Turn} (ht : (d.turn now i).1 = some t) {command : Command}
    (hadmitted : t.admitted = some command)
    (hentry : ∀ p : Progress C, p.resumePoint = 0 →
      Routine.Continues r finale 0 stops (routine.step Label.entry p command.bytes))
    (hwaits : ∀ stop ∈ stops, stop.wait = .timeout r.delay) :
    Stepped i r t (d.turn now i).2 stops := by
  have hturned := turned_turn d now i
  generalize d.turn now i = y at hturned ht
  cases hturned with
  | idle => cases ht
  | continued =>
    cases ht
    cases hadmitted
  | @begun command' left queue call x hbusy _ _ hcall hserved =>
    cases ht
    cases hadmitted
    obtain rfl := hserved.eq_run
    have hslot := slot_started d i command queue
    have hpoint : ((d.started i command queue).slot i).state.resumePoint = 0 := by
      rw [hslot]
      exact (hsettled.of_idle hbusy).1
    have hran := resumed_of_fresh (d := d.started i command queue) routine now hpoint
    have hbytes : ((d.started i command queue).slot i).command.bytes = command.bytes := by
      rw [hslot]
      rfl
    have hnext : Routine.Continues r finale ((d.started i command queue).slot i).state.resumePoint
        stops (routine.step Label.entry ((d.started i command queue).slot i).state
          ((d.started i command queue).slot i).command.bytes) := by
      rw [hpoint, hbytes]
      exact hentry _ hpoint
    obtain rfl : call = (d.started i command queue).callOf now i :=
      hcall.trans (callOf_eq now hslot).symm
    exact stepped_run (d := d.started i command queue) hruns (by rw [hslot]; rfl)
      (by rw [hslot]; rfl) (show deeds [] = [] from rfl) rfl hran hnext hwaits (some command)

end Dispatcher

/-! ### Runs -/

namespace Device

variable {x : Device (Progress C) π n m} {happenings : List (Happening (Progress C))}

theorem runs_after (hruns : x.dispatcher.plugin.Runs routine) (h : Happening (Progress C)) :
    (x.meet h).after.dispatcher.plugin.Runs routine := by
  rw [x.meet_plugin]
  exact hruns

theorem met_other (hruns : x.dispatcher.plugin.Runs routine) {op : Operation (Progress C)}
    {s : SessionId} (hop : op.session? = some s) (hs : s ≠ Dispatcher.session i)
    (hturns : (x.meet (.operate op)).turnsOf i = []) : Met i x (x.meet (.operate op)) := by
  have hsame := Dispatcher.sameFor_perform_other hruns x.now op hop hs
  exact .kept hturns hsame.slot hsame.record

theorem met_meet (hruns : x.dispatcher.plugin.Runs routine) (h : Happening (Progress C))
    (hedit : h.isEdit = false) (i : Fin n) : Met i x (x.meet h) := by
  cases h with
  | advance length => exact .kept rfl rfl rfl
  | operate op =>
    cases op with
    | submit s bytes =>
      rcases Dispatcher.submit_cases x.dispatcher s bytes with
        ⟨e, hvalue⟩ | ⟨_, _, _, _, _, _, hvalue⟩
      · rw [x.meet_submit hvalue]
        exact .kept rfl rfl rfl
      · rw [x.meet_submit hvalue]
        exact .kept rfl rfl rfl
    | poll s =>
      by_cases hs : s = Dispatcher.session i
      · subst hs
        refine .turned ?_ ?_
        · rw [turnsOf_poll]
          exact (Dispatcher.turned_turn x.dispatcher x.now i).filter_session_own
        · rw [after_poll]
          exact Dispatcher.SameFor.refl i _
      · exact met_other hruns rfl hs (turnsOf_poll_other x hs)
    | tick =>
      have hown := Dispatcher.turns_own hruns x.now (List.finRange n) (List.nodup_finRange n)
        (List.mem_finRange i)
      refine .turned ?_ hown.2
      rw [turnsOf_tick]
      exact hown.1
    | abandon s =>
      by_cases hs : s = Dispatcher.session i
      · subst hs
        exact .dropped rfl (Dispatcher.busy_abandon x.dispatcher i)
      · exact met_other hruns rfl hs rfl
    | reset =>
      have hclears := Dispatcher.clears_of_runs hruns i
      exact .dropped rfl ((Dispatcher.slot_reset x.dispatcher i).1 hclears)
    | signal s transfer =>
      by_cases hs : s = Dispatcher.session i
      · subst hs
        rw [x.meet_signal (Dispatcher.signal_session x.dispatcher i transfer)]
        exact .signalled rfl rfl transfer (Wait.Table.record?_signal _ _ transfer)
      · exact met_other hruns rfl hs rfl
    | edit s change => cases hedit

theorem turnsOf_sorted (hedits : ∀ h ∈ happenings, h.isEdit = false)
    (hruns : x.dispatcher.plugin.Runs routine) (i : Fin n) :
    (x.turnsOf happenings i).Pairwise (fun t v => t.call.now ≤ v.call.now) ∧
      ∀ t ∈ x.turnsOf happenings i, x.now ≤ t.call.now := by
  induction happenings generalizing x with
  | nil => exact ⟨.nil, nofun⟩
  | cons h rest ih =>
    rw [List.forall_mem_cons] at hedits
    have hmet := met_meet hruns h hedits.1 i
    have hclock := x.now_le_after h
    have hkept := runs_after hruns h
    obtain ⟨hsorted, hlater⟩ := ih hedits.2 hkept
    rw [turnsOf_cons]
    refine ⟨List.pairwise_append.mpr ⟨?_, hsorted, fun t ht v hv => ?_⟩, fun t ht => ?_⟩
    · refine List.pairwise_of_forall_mem_list fun t ht v hv => ?_
      rw [hmet.turn_now ht, hmet.turn_now hv]
      exact UInt64.le_refl _
    · rw [hmet.turn_now ht]
      exact UInt64.le_trans hclock (hlater v hv)
    · rcases List.mem_append.mp ht with ht | ht
      · rw [hmet.turn_now ht]
        exact UInt64.le_refl _
      · exact UInt64.le_trans hclock (hlater t ht)

/-- After an idle session comes the turn that admits its next command. -/
theorem turnsOf_idle (hedits : ∀ h ∈ happenings, h.isEdit = false)
    (hruns : x.dispatcher.plugin.Runs routine) (hbusy : (x.dispatcher.slot i).busy = false) :
    (x.turnsOf happenings i).takeWhile (·.admitted.isNone) = [] := by
  induction happenings generalizing x with
  | nil => rfl
  | cons h rest ih =>
    rw [List.forall_mem_cons] at hedits
    have hkept := runs_after hruns h
    rw [turnsOf_cons]
    cases met_meet hruns h hedits.1 i with
    | turned hturns hafter =>
      have hturned := Dispatcher.turned_turn x.dispatcher x.now i
      rw [hturns]
      generalize x.dispatcher.turn x.now i = z at hturned hafter
      cases hturned with
      | idle => exact ih hedits.2 hkept (by rw [hafter.slot]; exact hbusy)
      | continued hbusy' =>
        rw [hbusy] at hbusy'
        cases hbusy'
      | begun => rfl
    | dropped hturns hidle =>
      rw [hturns]
      exact ih hedits.2 hkept hidle
    | signalled hturns hslot =>
      rw [hturns]
      exact ih hedits.2 hkept (by rw [hslot]; exact hbusy)
    | kept hturns hslot =>
      rw [hturns]
      exact ih hedits.2 hkept (by rw [hslot]; exact hbusy)

theorem kept_of_pausedAt {u : Instant} (hedits : ∀ h ∈ happenings, h.isEdit = false)
    (hruns : x.dispatcher.plugin.Runs routine) (hpaused : x.dispatcher.PausedAt i r stop u)
    (hplays : routine.Plays r finale (stop :: rest))
    (hscore : ∀ stop ∈ rest, stop.wait = .timeout r.delay ∧ stop.driven.length ≤ 1) :
    Kept r u rest.length ((x.turnsOf happenings i).takeWhile (·.admitted.isNone)) := by
  -- Over the run, for every stop at which the session may stand and every rest of the score.
  induction happenings generalizing x stop rest u with
  | nil => exact .nil
  | cons h later ih =>
    rw [List.forall_mem_cons] at hedits
    have hkept := runs_after hruns h
    rw [turnsOf_cons]
    cases met_meet hruns h hedits.1 i with
    | turned hturns hafter =>
      obtain ⟨t, ht, hnow, hadmitted, hcases⟩ :=
        hpaused.turn hruns hplays (fun s hs => (hscore s hs).1) x.now
      rw [hturns, ht, Option.toList_some, List.singleton_append,
        List.takeWhile_cons_of_pos (by rw [hadmitted]; rfl)]
      rcases hcases with ⟨hearly, hleaves, hpins, hending, hstill⟩ | ⟨hdue, hleaves, hstepped⟩
      · rw [← hnow] at hearly
        refine .held hearly hleaves hpins hending ?_
        exact ih hedits.2 hkept (hstill.same hafter.slot hafter.record) hplays hscore
      · rw [← hnow] at hdue
        cases hstepped with
        | @suspended next rest hpins hrests hending hnext =>
          rw [List.forall_mem_cons] at hscore
          refine .passed hdue hleaves (by rw [hpins]; exact hscore.1.2) hrests hending ?_
          exact ih hedits.2 hkept (hnext.same hafter.slot hafter.record) hplays.2 hscore.2
        | finished hpins hsucceeds hidle =>
          rw [turnsOf_idle hedits.2 hkept (by rw [hafter.slot]; exact hidle)]
          exact .finished hdue hleaves hpins hsucceeds
    | dropped hturns hidle =>
      rw [hturns, List.nil_append, turnsOf_idle hedits.2 hkept hidle]
      exact .nil
    | signalled hturns hslot transfer hrecord =>
      -- The end of a transfer does not shorten a timed wait.
      rw [hturns]
      refine ih hedits.2 hkept (hpaused.same hslot ?_) hplays hscore
      rw [hrecord, hpaused.record]
      rfl
    | kept hturns hslot hrecord =>
      rw [hturns]
      exact ih hedits.2 hkept (hpaused.same hslot hrecord) hplays hscore

/-- A session has at most one turn in a moment, so a turn of a run parts the run. -/
theorem turnsOf_split (hedits : ∀ h ∈ happenings, h.isEdit = false)
    (hruns : x.dispatcher.plugin.Runs routine) {before after : List Turn} {first : Turn}
    (hsplit : x.turnsOf happenings i = before ++ first :: after) :
    ∃ earlier h later, happenings = earlier ++ h :: later ∧
      first ∈ ((x.atEnd earlier).meet h).turnsOf i ∧
      after = ((x.atEnd earlier).meet h).after.turnsOf later i := by
  induction happenings generalizing x before with
  | nil => exact absurd hsplit (List.append_ne_nil_of_right_ne_nil _ (List.cons_ne_nil _ _)).symm
  | cons h rest ih =>
    rw [List.forall_mem_cons] at hedits
    have hkept := runs_after hruns h
    have hlater : ∀ {before}, (x.meet h).after.turnsOf rest i = before ++ first :: after →
        ∃ earlier h' later, h :: rest = earlier ++ h' :: later ∧
          first ∈ ((x.atEnd earlier).meet h').turnsOf i ∧
          after = ((x.atEnd earlier).meet h').after.turnsOf later i := by
      intro before hrest
      obtain ⟨earlier, h', later, rfl, hfirst, hafter⟩ := ih hedits.2 hkept hrest
      exact ⟨h :: earlier, h', later, rfl, hfirst, hafter⟩
    rw [turnsOf_cons] at hsplit
    have hmet := met_meet hruns h hedits.1 i
    rcases hmet.turnsOf_cases with hnone | ⟨t, hone⟩
    · rw [hnone] at hsplit
      exact hlater hsplit
    · rw [hone, List.singleton_append] at hsplit
      cases before with
      | nil =>
        obtain ⟨rfl, rfl⟩ := List.cons.inj hsplit
        exact ⟨[], h, rest, rfl, by rw [atEnd, hone]; exact List.mem_singleton_self t, rfl⟩
      | cons _ before => exact hlater (List.cons.inj hsplit).2

end Device

/-! ### Blinks and ramps -/

/-- From the entry, a command with this request waits so often for its delay and drives at most one
output before each wait. -/
def Routine.Scores (routine : Routine L C) (r : Request) (waits : Nat) : Prop :=
  ∃ (finale : Finale C) (stops : List (Stop L C)),
    (∀ (tail : List UInt8) (p : Progress C), p.resumePoint = 0 →
      Routine.Continues r finale 0 stops (routine.step Label.entry p (r.encode ++ tail))) ∧
    routine.Plays r finale stops ∧
    (∀ stop ∈ stops, stop.wait = .timeout r.delay ∧ stop.driven.length ≤ 1) ∧
    stops.length = waits

/-- The command that a turn of a run admits keeps its time. -/
theorem keepsTime_of_split {waits : Nat} (hscores : routine.Scores r waits)
    {x : Device (Progress C) π n m} (hresting : x.dispatcher.Resting routine)
    {happenings : List (Happening (Progress C))} (hedits : ∀ h ∈ happenings, h.isEdit = false)
    {before after : List Turn} {first : Turn} {command : Command} {tail : List UInt8}
    (hsplit : x.turnsOf happenings i = before ++ first :: after)
    (hadmitted : first.admitted = some command) (hbytes : command.bytes = r.encode ++ tail) :
    KeepsTime r waits first (after.takeWhile (·.admitted.isNone)) := by
  obtain ⟨finale, stops, hentry, hplays, hscore, rfl⟩ := hscores
  obtain ⟨earlier, h, later, rfl, hfirst, rfl⟩ := Device.turnsOf_split hedits hresting.runs hsplit
  have hthen : (x.atEnd earlier).dispatcher.Resting routine :=
    Device.atEnd_keep earlier (fun d now op hop hd =>
      hd.perform now (hedits _ (List.mem_append_left _ hop))) x hresting
  have hedit := hedits h (List.mem_append_right _ List.mem_cons_self)
  have hlater : ∀ h' ∈ later, h'.isEdit = false := fun h' hh' =>
    hedits h' (List.mem_append_right _ (List.mem_cons_of_mem h hh'))
  generalize x.atEnd earlier = z at hthen hfirst
  have hkept := Device.runs_after hthen.runs h
  obtain ⟨hturn, hafter⟩ := (Device.met_meet hthen.runs h hedit i).of_mem hfirst
  have hstepped := Dispatcher.stepped_first hthen.runs (hthen.settled i) hturn hadmitted
    (fun p hp => by rw [hbytes]; exact hentry tail p hp) (fun s hs => (hscore s hs).1)
  cases hstepped with
  | @suspended stop rest hpins hrests hending hpaused =>
    rw [List.forall_mem_cons] at hscore
    refine keepsTime_of_kept ?_ (by rw [hpins]; exact hscore.1.2) hrests hending ?_
    · exact Device.kept_of_pausedAt hlater hkept (hpaused.same hafter.slot hafter.record) hplays
        hscore.2
    · exact (Device.turnsOf_sorted hlater hkept i).1.sublist (List.takeWhile_sublist _)
  | finished hpins hsucceeds hidle =>
    rw [Device.turnsOf_idle hlater hkept (by rw [hafter.slot]; exact hidle)]
    exact keepsTime_at_once hpins hsucceeds

end Score

namespace Blink

theorem blinks_timed (pin : PinId) (r : Request) (left : Nat) :
    ∀ stop ∈ blinks pin r left, stop.wait = .timeout r.delay ∧ stop.driven.length ≤ 1 := by
  induction left with
  | zero => exact nofun
  | succ left ih => simpa [blinks, high, low] using ih

theorem routine_scores (pin : PinId) (r : Request) :
    (routine pin).Scores r (2 * r.count.toNat) :=
  ⟨finale r, score pin r, fun tail _ hp => entry_continues pin r tail hp,
    plays_blinks pin _ (Nat.le_refl _), blinks_timed pin r _, length_blinks pin _⟩

end Blink

namespace Ramp

theorem fall_timed (r : Request) (height : Nat) :
    ∀ stop ∈ fall r height, stop.wait = .timeout r.delay ∧ stop.driven.length ≤ 1 := by
  induction height with
  | zero => exact nofun
  | succ height ih => simpa [fall, rung] using ih

theorem climb_timed (r : Request) (left : Nat) :
    ∀ stop ∈ climb r left, stop.wait = .timeout r.delay ∧ stop.driven.length ≤ 1 := by
  induction left with
  | zero => exact fall_timed r r.count.toNat
  | succ left ih => simpa [climb, rung] using ih

theorem blinks_timed (pin : PinId) (r : Request) (left : Nat) :
    ∀ stop ∈ blinks pin r left, stop.wait = .timeout r.delay ∧ stop.driven.length ≤ 1 := by
  induction left with
  | zero => exact climb_timed r r.count.toNat
  | succ left ih => simpa [blinks, high, low] using ih

theorem routine_scores (pin : PinId) (r : Request) :
    (routine pin).Scores r (4 * r.count.toNat) :=
  ⟨finale r, score pin r, fun tail _ hp => entry_continues pin r tail hp,
    plays_blinks pin _ (Nat.le_refl _), blinks_timed pin r _, length_score pin r⟩

end Ramp

/-- How often a command of a blink or a ramp is suspended. -/
inductive Plugin.Suspends (pin : PinId) (r : Request) :
    {C : Type} → Plugin (Progress C) Unit → Nat → Prop
  | blink : Suspends pin r (Blink.plugin pin) (2 * r.count.toNat)
  | ramp : Suspends pin r (Ramp.plugin pin) (4 * r.count.toNat)

/-- No wait of a blink or a ramp ends early. In any run without changes of a stored state, from the
turn that admits a command to its last one, each suspension is left at least one delay after it
began, each write comes at least one delay after those before it, and the end comes after all of
its waits: exactly then, if the session is polled at each of its deadlines. -/
theorem no_wait_ends_early {C : Type} {plugin : Plugin (Progress C) Unit} {pin : PinId}
    {r : Request} {waits : Nat} (hplugin : plugin.Suspends pin r waits) {n m : Nat}
    {table : Wait.Table m} {d : Dispatcher (Progress C) Unit n m}
    (hregister : (Dispatcher.register plugin n table).value = .ok d) (start : Instant)
    (happenings : List (Happening (Progress C))) (hedits : ∀ h ∈ happenings, h.isEdit = false)
    (i : Fin n) {before after : List Turn} {first : Turn} {command : Command} {tail : List UInt8}
    (hturns : (Device.mk start d).turnsOf happenings i = before ++ first :: after)
    (hadmitted : first.admitted = some command) (hbytes : command.bytes = r.encode ++ tail) :
    KeepsTime r waits first (after.takeWhile (·.admitted.isNone)) := by
  cases hplugin with
  | blink =>
    have hresting := Dispatcher.resting_of_register (Blink.plugin_runs pin) hregister
    exact keepsTime_of_split (Blink.routine_scores pin r) hresting hedits hturns hadmitted hbytes
  | ramp =>
    have hresting := Dispatcher.resting_of_register (Ramp.plugin_runs pin) hregister
    exact keepsTime_of_split (Ramp.routine_scores pin r) hresting hedits hturns hadmitted hbytes

/-- A blink that starts seven thousand ticks before the end of the clock, polled too early and then
at its two deadlines, the second of which is held at the last instant. -/
theorem no_wait_ends_early_last_instant :
    ∃ d : Dispatcher (Progress Blink.Counters) Unit 2 2,
      (Dispatcher.register (Blink.plugin 8) 2 Wait.Table.empty).value = .ok d ∧
      let x : Device (Progress Blink.Counters) Unit 2 2 := ⟨18446744073709544615, d⟩
      let happenings : List (Happening (Progress Blink.Counters)) :=
        [.operate (.submit 1 [1, 5, 0, 9]), .operate (.submit 0 [2, 1, 0]), .operate .tick,
          .advance 2000, .operate (.poll 1), .advance 3000, .operate .tick, .advance 2000,
          .operate (.signal 1 .spiSend), .operate (.poll 1)]
      ∃ first later, x.turnsOf happenings 1 = first :: later ∧
        (first :: later).map (·.call.now.toNat) =
          [UInt64.size - 7001, UInt64.size - 5001, UInt64.size - 2001, UInt64.size - 1] ∧
        OnTime ⟨1, 5⟩ (first :: later) ∧ KeepsTime ⟨1, 5⟩ 2 first later ∧
        EndsAt (first :: later) (UInt64.size - 1) := by
  refine ⟨_, rfl, ?_⟩
  intro x happenings
  have hregister : (Dispatcher.register (Blink.plugin 8) 2
      (Wait.Table.empty : Wait.Table 2)).value = .ok x.dispatcher := rfl
  have htimes : (x.turnsOf happenings 1).map (·.call.now.toNat) =
      [UInt64.size - 7001, UInt64.size - 5001, UInt64.size - 2001, UInt64.size - 1] := by
    decide +kernel
  have hadmissions : (x.turnsOf happenings 1).map (fun t => t.admitted.map (·.bytes)) =
      [some [1, 5, 0, 9], none, none, none] := by decide +kernel
  have hontime : decide (OnTime ⟨1, 5⟩ (x.turnsOf happenings 1)) = true := by decide +kernel
  obtain ⟨first, later, hturns⟩ : ∃ first later, x.turnsOf happenings 1 = [] ++ first :: later :=
    List.exists_cons_of_ne_nil fun hnone => by
      rw [hnone] at htimes
      cases htimes
  rw [hturns] at htimes hadmissions hontime
  obtain ⟨hfirst, hlater⟩ := List.cons.inj hadmissions
  obtain ⟨command, hadmitted, hbytes⟩ := Option.map_eq_some_iff.mp hfirst
  have hrequest : command.bytes = (⟨1, 5⟩ : Request).encode ++ [9] := hbytes.trans (by decide)
  have hkeeps : KeepsTime ⟨1, 5⟩ 2 first (later.takeWhile (·.admitted.isNone)) :=
    no_wait_ends_early (.blink : (Blink.plugin 8).Suspends 8 ⟨1, 5⟩ _) hregister
      18446744073709544615 happenings (by decide) 1 hturns hadmitted hrequest
  -- The run holds one command only, so every later turn is a turn of it.
  have hall : later.takeWhile (·.admitted.isNone) = later := by
    rw [List.takeWhile_eq_self_iff]
    intro t ht
    have hnone : t.admitted.map (·.bytes) ∈ [none, none, none] :=
      hlater ▸ List.mem_map_of_mem ht
    simpa using hnone
  rw [hall] at hkeeps
  have hstart : first.call.now.toNat = UInt64.size - 7001 := (List.cons.inj htimes).1
  have hdue : Request.due ⟨1, 5⟩ 2 first.call.now = UInt64.size - 1 := by
    rw [Request.due, hstart]
    decide
  have hend := hkeeps.punctual (of_decide_eq_true hontime)
  rw [hdue] at hend
  exact ⟨first, later, hturns, htimes, of_decide_eq_true hontime, hkeeps, hend⟩

end Resumable
