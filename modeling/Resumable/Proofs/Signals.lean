import Resumable.Proofs.Checks
import Resumable.Proofs.Commands
import Resumable.Proofs.Isolation

/-!
# Signals reach the waits that they are for

The notices of a session are read off a run of its dispatcher: off its turns, off the answers to
signals, and off what drops it. For plugins that run a routine, what a session is suspended on by
its notices is what is stored for it (`Hold.Fits`). Every moment of a run keeps this, so that the
notices of a whole run are in order and signals are kept.
-/

namespace Resumable

/-! ### A wait and its record -/

structure Hold.Awaits (hold : Hold) (record : Wait.Record) : Prop where
  kind : ∀ transfer, record.awaits transfer = true ↔ hold.wait = .transfer transfer
  heard : ∀ transfer, .signalled transfer true ∈ hold.since ↔ record = .transfer transfer true

namespace Hold

variable {hold : Hold} {record : Wait.Record} {now : Instant}

theorem awaits_start (now : Instant) (point : ResumePoint) (wait : Wait) :
    Awaits ⟨point, wait, []⟩ (.start now wait) := by
  refine ⟨?_, ?_⟩
  · intro transfer
    cases wait <;> simp [Wait.Record.start, Wait.Record.awaits]
  · intro transfer
    cases wait <;> simp [Wait.Record.start]

theorem Awaits.held (h : hold.Awaits record) :
    Awaits { hold with since := hold.since ++ [.held] } record := by
  refine ⟨h.kind, ?_⟩
  intro transfer
  simp [h.heard]

theorem Awaits.signalled (h : hold.Awaits record) (transfer : Transfer) :
    Awaits { hold with since := hold.since ++ [.signalled transfer (record.awaits transfer)] }
      (record.signalled transfer) := by
  cases record with
  | deadline instant =>
    refine ⟨h.kind, ?_⟩
    intro transfer'
    simp [h.heard, Wait.Record.signalled, Wait.Record.awaits]
  | transfer awaited done =>
    refine ⟨h.kind, ?_⟩
    intro transfer'
    simp only [List.mem_append, h.heard, Wait.Record.signalled, Wait.Record.awaits]
    by_cases hown : awaited = transfer
    · subst hown
      grind
    · simp [hown]

theorem Awaits.due_held (h : hold.Awaits record) (hpending : record.isPending now = true) :
    Due (some hold) .held := by
  refine .held ?_
  intro transfer hheard
  rw [(h.heard transfer).mp hheard] at hpending
  cases hpending

theorem Awaits.due_passed (h : hold.Awaits record) (hover : record.isPending now = false) :
    Due (some hold) (.passed hold.point) := by
  refine .passed ?_
  intro transfer hwait
  have hkind := (h.kind transfer).mpr hwait
  cases record with
  | deadline instant => cases hkind
  | transfer awaited done =>
    refine (h.heard transfer).mpr ?_
    simp_all [Wait.Record.isPending, Wait.Record.awaits]

end Hold

/-! ### Notices against what is stored -/

namespace Hold

variable {C : Type}

/-- What a session is suspended on is what is stored for it. -/
def Fits (standing : Option Hold) (slot : Slot (Progress C)) (record : Option Wait.Record) :
    Prop :=
  match standing with
  | none => slot.busy = false
  | some hold => slot.busy = true ∧ hold.point = slot.state.resumePoint ∧
      ∃ r, record = some r ∧ hold.Awaits r

/-- The notices can follow one another from here on, and leave what fits. -/
def Hears (standing : Option Hold) (notices : List Notice) (slot : Slot (Progress C))
    (record : Option Wait.Record) : Prop :=
  Orderly standing notices ∧ Fits (notices.foldl Hold.after standing) slot record

variable {standing : Option Hold} {slot slot' : Slot (Progress C)}
  {record record' : Option Wait.Record}

theorem Hears.nil (h : Fits standing slot record) : Hears standing [] slot record := ⟨trivial, h⟩

theorem Hears.cons {e : Notice} {notices : List Notice} (hdue : Due standing e)
    (h : Hears (Hold.after standing e) notices slot record) :
    Hears standing (e :: notices) slot record := ⟨⟨hdue, h.1⟩, h.2⟩

theorem Hears.append {notices more : List Notice} (h : Hears standing notices slot record)
    (hmore : ∀ last, Fits last slot record → Hears last more slot' record') :
    Hears standing (notices ++ more) slot' record' := by
  obtain ⟨horderly, hfits⟩ := hmore _ h.2
  refine ⟨(orderly_append notices more standing).mpr ⟨h.1, horderly⟩, ?_⟩
  rw [List.foldl_append]
  exact hfits

theorem Fits.eq_none (h : Fits standing slot record) (hbusy : slot.busy = false) :
    standing = none := by
  cases standing with
  | none => rfl
  | some hold =>
    rw [Fits, hbusy] at h
    cases h.1

theorem Fits.exists_hold (h : Fits standing slot record) (hbusy : slot.busy = true) :
    ∃ hold r, standing = some hold ∧ hold.point = slot.state.resumePoint ∧ record = some r ∧
      hold.Awaits r := by
  cases standing with
  | none =>
    rw [Fits, hbusy] at h
    cases h
  | some hold =>
    obtain ⟨-, hpoint, r, hrecord, hawaits⟩ := h
    exact ⟨hold, r, rfl, hpoint, hrecord, hawaits⟩

theorem hears_dropped (hbusy : slot.busy = false) : Hears standing [.dropped] slot record :=
  .cons (.dropped standing) (.nil hbusy)

end Hold

section Notices

variable {C π : Type} {n m : Nat} {i : Fin n}

namespace Dispatcher

variable {e : Dispatcher (Progress C) π n m} {now : Instant}

theorem Ends.hears {tail : List Wait.Event} (h : Ends now i e tail) :
    Hold.Hears none ((tail.filterMap Wait.Event.wait?).map (.armed (e.slot i).state.resumePoint))
      (e.slot i) (e.waits.record? (session i)) := by
  cases h with
  | answered hbusy => exact .nil hbusy
  | faulted hbusy => exact .nil hbusy
  | @suspended wait hbusy hrecord =>
    rw [List.filterMap_cons_some (Wait.wait?_registration _ _)]
    exact .cons (.armed _ wait) (.nil ⟨hbusy, rfl, _, hrecord, Hold.awaits_start now _ wait⟩)

end Dispatcher

/-! ### Notices of a moment -/

/-- Whether the session is given a turn, if it has work. -/
def Moment.polls {σ : Type} (i : Fin n) (y : Moment σ π n m) : Bool :=
  match y.happening with
  | .operate (.poll s) => s == Dispatcher.session i
  | .operate .tick => true
  | _ => false

def Moment.reports {σ : Type} (i : Fin n) (y : Moment σ π n m) : List Notice :=
  match y.happening, y.answer with
  | .operate (.signal s transfer), some (.signalled (.ok heard)) =>
    if s = Dispatcher.session i then [.signalled transfer heard] else []
  | _, _ => []

def Moment.told (i : Fin n) (y : Moment (Progress C) π n m) : List Notice :=
  match y.turnsOf i with
  | [] => if y.polls i then [.idle] else []
  | turns => turns.flatMap (Turn.notices (y.before.dispatcher.slot i).state.resumePoint
      (y.after.dispatcher.slot i).state.resumePoint)

def Moment.notices (i : Fin n) (y : Moment (Progress C) π n m) : List Notice :=
  y.told i ++ y.reports i ++ if y.drops i then [.dropped] else []

namespace Device

theorem told_of_turn {y : Moment (Progress C) π n m} {t : Option Turn}
    (hturns : y.turnsOf i = t.toList) (hpolls : y.polls i = true) :
    y.told i = Turn.told (y.before.dispatcher.slot i).state.resumePoint
      (y.after.dispatcher.slot i).state.resumePoint t := by
  rw [Moment.told, hturns]
  cases t with
  | none => rw [Option.toList_none, hpolls]; rfl
  | some t => simp [Turn.told]

theorem notices_of_polls {y : Moment (Progress C) π n m} (h : y.polls i = true) :
    y.notices i = y.told i := by
  obtain ⟨before, happening, answer, after⟩ := y
  cases happening with
  | advance length => cases h
  | operate op =>
    cases op with
    | poll s => simp [Moment.notices, Moment.reports, Moment.drops]
    | tick => simp [Moment.notices, Moment.reports, Moment.drops]
    | submit s bytes => cases h
    | abandon s => cases h
    | reset => cases h
    | signal s transfer => cases h
    | edit s change => cases h

theorem notices_other (x : Device (Progress C) π n m) (op : Operation (Progress C))
    {s : SessionId} (hop : op.session? = some s) (hs : s ≠ Dispatcher.session i) :
    (x.meet (.operate op)).notices i = [] := by
  cases op with
  | submit s' bytes => rfl
  | poll s' =>
    cases hop
    have hpolls : (x.meet (.operate (.poll s))).polls i = false := by
      simpa [Moment.polls] using hs
    rw [Moment.notices, Moment.told, turnsOf_poll_other x hs, hpolls]
    rfl
  | tick => cases hop
  | abandon s' =>
    cases hop
    have hdrops : (x.meet (.operate (.abandon s))).drops i = false := by
      simpa [Moment.drops] using hs
    rw [Moment.notices, hdrops]
    rfl
  | reset => cases hop
  | signal s' transfer =>
    cases hop
    rcases Dispatcher.signal_cases x.dispatcher s transfer with hvalue | ⟨_, _, hvalue⟩
    · rw [x.meet_signal hvalue]
      rfl
    · rw [x.meet_signal hvalue]
      change [] ++ (if s = Dispatcher.session i then [_] else []) ++ [] = []
      rw [if_neg hs]
      rfl
  | edit s' change => rfl

end Device

end Notices

section Steps

variable {L C π : Type} [DecidableEq L] [Label L] [Inhabited C] {n m : Nat} {i : Fin n}
  {routine : Routine L C} {standing : Option Hold}

namespace Dispatcher

/-- Every session is idle and fresh, or suspended with its wait registered. -/
structure Resting (routine : Routine L C) (d : Dispatcher (Progress C) π n m) : Prop where
  runs : d.plugin.Runs routine
  settled : Each (fun slot record => Settled L slot.busy slot.state record) d

variable {d : Dispatcher (Progress C) π n m}

theorem Resting.perform (h : Resting routine d) (now : Instant) {op : Operation (Progress C)}
    (hop : (Happening.operate op).isEdit = false) :
    Resting routine (d.perform now op).value.2 := by
  refine ⟨by rw [perform_plugin]; exact h.runs, h.settled.perform h.runs now ?_ ?_ ?_ hop⟩
  · intro e i hruns hsettled
    exact (turned_turn e now i).settled hruns hsettled
  · intro state hpoint
    exact .idle rfl hpoint rfl
  · intro slot record transfer hsettled
    exact hsettled.signalled transfer

theorem resting_of_register {plugin : Plugin (Progress C) π} {waits : Wait.Table m}
    (hruns : plugin.Runs routine) (h : (register plugin n waits).value = .ok d) :
    Resting routine d := by
  refine ⟨by rw [(idle_of_register h).1]; exact hruns, each_of_register hruns ?_ h⟩
  intro state hpoint
  exact .idle rfl hpoint rfl

theorem turn_hears (hresting : Resting routine d) (now : Instant)
    (hfits : Hold.Fits standing (d.slot i) (d.waits.record? (session i))) :
    Hold.Hears standing
      (Turn.told (d.slot i).state.resumePoint ((d.turn now i).2.slot i).state.resumePoint
        (d.turn now i).1)
      ((d.turn now i).2.slot i) ((d.turn now i).2.waits.record? (session i)) := by
  have hnoticed := noticed_turn hresting.runs now (hresting.settled i)
  generalize d.turn now i = y at hnoticed
  cases hnoticed with
  | idle hbusy =>
    obtain rfl := hfits.eq_none hbusy
    exact .cons .idle (.nil hbusy)
  | held hbusy hwaiting hevents _ =>
    obtain ⟨hold, r, rfl, hpoint, hrecord, hawaits⟩ := hfits.exists_hold hbusy
    have hpending : r.isPending now = true := by
      simpa [Wait.Table.isWaiting, hrecord] using hwaiting
    rw [Turn.told, Turn.notices, Turn.found, hevents, slot_store]
    exact .cons (hawaits.due_held hpending) (.nil ⟨hbusy, hpoint, r, hrecord, hawaits.held⟩)
  | passed hbusy hover hevents hends _ =>
    obtain ⟨hold, r, rfl, hpoint, hrecord, hawaits⟩ := hfits.exists_hold hbusy
    have hdone : r.isPending now = false := by
      simpa [Wait.Table.isWaiting, hrecord] using hover
    rw [Turn.told, Turn.notices, Turn.found, hevents, ← hpoint]
    exact .cons (hawaits.due_passed hdone) hends.hears
  | entered hbusy hends _ =>
    obtain rfl := hfits.eq_none hbusy
    rw [Turn.told, Turn.notices, hends.entered]
    exact .cons .entered hends.hears

theorem signal_hears (hresting : Resting routine d) (transfer : Transfer)
    (hfits : Hold.Fits standing (d.slot i) (d.waits.record? (session i))) :
    Hold.Hears standing [.signalled transfer (d.waits.signal (session i) transfer).1]
      (d.slot i) ((d.waits.signal (session i) transfer).2.record? (session i)) := by
  rw [Wait.Table.signal_fst, Wait.Table.record?_signal]
  cases hresting.settled i with
  | idle hbusy _ hrecord =>
    obtain rfl := hfits.eq_none hbusy
    rw [hrecord]
    exact .cons (.unheard transfer) (.nil hbusy)
  | suspended hbusy =>
    obtain ⟨hold, r, rfl, hpoint, hrecord, hawaits⟩ := hfits.exists_hold hbusy
    rw [hrecord]
    exact .cons (.signalled (hawaits.kind transfer))
      (.nil ⟨hbusy, hpoint, _, rfl, hawaits.signalled transfer⟩)

theorem reached_of_runs (hruns : d.plugin.Runs routine) (sessions : List (Fin n)) :
    d.reached sessions = sessions := by
  induction sessions generalizing d with
  | nil => rfl
  | cons j rest ih =>
    obtain ⟨persistent, state, -, hvalue⟩ := prepareSlot_of_runs hruns j
    rw [reached, hvalue]
    exact congrArg (j :: ·) (ih hruns)

/-- A reset comes to every session, since none is refused. -/
theorem clears_of_runs (hruns : d.plugin.Runs routine) (i : Fin n) : d.clears i = true := by
  have hreached := reached_of_runs (d := d.emptied) hruns (List.finRange n)
  rw [clears, hreached]
  simp [Fin.val_inj]

end Dispatcher

namespace Device

variable {x : Device (Progress C) π n m}

/-- A session has the turn that it would have alone, whenever it is polled. -/
theorem turnsOf_eq (hruns : x.dispatcher.plugin.Runs routine) (h : Happening (Progress C))
    (i : Fin n) :
    (x.meet h).turnsOf i =
      if (x.meet h).polls i then (x.dispatcher.turn x.now i).1.toList else [] := by
  cases h with
  | advance length => rfl
  | operate op =>
    cases op with
    | poll s =>
      change _ = if s == Dispatcher.session i then _ else _
      by_cases hs : s = Dispatcher.session i
      · subst hs
        rw [if_pos (beq_self_eq_true _), turnsOf_poll]
        exact (Dispatcher.turned_turn x.dispatcher x.now i).filter_session_own
      · rw [if_neg (by simpa using hs)]
        exact turnsOf_poll_other x hs
    | tick =>
      rw [turnsOf_tick]
      exact (Dispatcher.turns_own hruns x.now (List.finRange n) (List.nodup_finRange n)
        (List.mem_finRange i)).1
    | submit s bytes => rfl
    | abandon s => rfl
    | reset => rfl
    | signal s transfer => rfl
    | edit s change => rfl

theorem polled_hears (hresting : x.dispatcher.Resting routine) (h : Happening (Progress C))
    (hpolls : (x.meet h).polls i = true)
    (hafter : Dispatcher.SameFor i (x.dispatcher.turn x.now i).2 (x.meet h).after.dispatcher)
    (hfits : Hold.Fits standing (x.dispatcher.slot i)
      (x.dispatcher.waits.record? (Dispatcher.session i))) :
    Hold.Hears standing ((x.meet h).notices i) ((x.meet h).after.dispatcher.slot i)
      ((x.meet h).after.dispatcher.waits.record? (Dispatcher.session i)) := by
  have hturns := turnsOf_eq hresting.runs h i
  rw [if_pos hpolls] at hturns
  rw [notices_of_polls hpolls, told_of_turn hturns hpolls, hafter.slot, hafter.record,
    meet_before]
  exact Dispatcher.turn_hears hresting x.now hfits

theorem other_hears (hresting : x.dispatcher.Resting routine) (op : Operation (Progress C))
    {s : SessionId} (hop : op.session? = some s) (hs : s ≠ Dispatcher.session i)
    (hfits : Hold.Fits standing (x.dispatcher.slot i)
      (x.dispatcher.waits.record? (Dispatcher.session i))) :
    Hold.Hears standing ((x.meet (.operate op)).notices i)
      ((x.meet (.operate op)).after.dispatcher.slot i)
      ((x.meet (.operate op)).after.dispatcher.waits.record? (Dispatcher.session i)) := by
  have hsame := Dispatcher.sameFor_perform_other hresting.runs x.now op hop hs
  rw [notices_other x op hop hs]
  refine .nil ?_
  change Hold.Fits standing ((x.dispatcher.perform x.now op).value.2.slot i)
    ((x.dispatcher.perform x.now op).value.2.waits.record? (Dispatcher.session i))
  rw [hsame.slot, hsame.record]
  exact hfits

theorem meet_hears (hresting : x.dispatcher.Resting routine) (h : Happening (Progress C))
    (hedit : h.isEdit = false)
    (hfits : Hold.Fits standing (x.dispatcher.slot i)
      (x.dispatcher.waits.record? (Dispatcher.session i))) :
    Hold.Hears standing ((x.meet h).notices i) ((x.meet h).after.dispatcher.slot i)
      ((x.meet h).after.dispatcher.waits.record? (Dispatcher.session i)) := by
  cases h with
  | advance length => exact .nil hfits
  | operate op =>
    cases op with
    | submit s bytes =>
      rcases Dispatcher.submit_cases x.dispatcher s bytes with
        ⟨e, hvalue⟩ | ⟨_, _, _, _, _, _, hvalue⟩
      · rw [x.meet_submit hvalue]
        exact .nil hfits
      · rw [x.meet_submit hvalue]
        exact .nil hfits
    | poll s =>
      by_cases hs : s = Dispatcher.session i
      · subst hs
        refine polled_hears hresting _ (beq_self_eq_true _) ?_ hfits
        rw [after_poll]
        exact Dispatcher.SameFor.refl i _
      · exact other_hears hresting (.poll s) rfl hs hfits
    | tick =>
      have hown := Dispatcher.turns_own hresting.runs x.now (List.finRange n) (List.nodup_finRange n)
        (List.mem_finRange i)
      exact polled_hears hresting _ rfl hown.2 hfits
    | abandon s =>
      by_cases hs : s = Dispatcher.session i
      · subst hs
        change Hold.Hears standing
          (if Dispatcher.session i == Dispatcher.session i then [.dropped] else []) _ _
        rw [if_pos (beq_self_eq_true _)]
        exact Hold.hears_dropped (Dispatcher.busy_abandon x.dispatcher i)
      · exact other_hears hresting (.abandon s) rfl hs hfits
    | reset =>
      have hclears := Dispatcher.clears_of_runs hresting.runs i
      change Hold.Hears standing (if x.dispatcher.clears i then [.dropped] else []) _ _
      rw [if_pos hclears]
      exact Hold.hears_dropped ((Dispatcher.slot_reset x.dispatcher i).1 hclears)
    | signal s transfer =>
      by_cases hs : s = Dispatcher.session i
      · subst hs
        rw [x.meet_signal (Dispatcher.signal_session x.dispatcher i transfer)]
        change Hold.Hears standing
          ([] ++ (if Dispatcher.session i = Dispatcher.session i then [_] else []) ++ []) _ _
        rw [if_pos rfl]
        exact Dispatcher.signal_hears hresting transfer hfits
      · exact other_hears hresting (.signal s transfer) rfl hs hfits
    | edit s change => cases hedit

/-! ### Runs -/

theorem run_hears (happenings : List (Happening (Progress C)))
    (hedits : ∀ h ∈ happenings, h.isEdit = false)
    (hresting : x.dispatcher.Resting routine)
    (hfits : Hold.Fits standing (x.dispatcher.slot i)
      (x.dispatcher.waits.record? (Dispatcher.session i))) :
    Hold.Hears standing ((x.run happenings).flatMap (Moment.notices i))
      ((x.atEnd happenings).dispatcher.slot i)
      ((x.atEnd happenings).dispatcher.waits.record? (Dispatcher.session i)) := by
  induction happenings generalizing x standing with
  | nil => exact .nil hfits
  | cons h rest ih =>
    have hedit := hedits h List.mem_cons_self
    have hfirst := meet_hears hresting h hedit hfits
    have hafter : Dispatcher.Resting routine (x.meet h).after.dispatcher := by
      cases h with
      | advance length => exact hresting
      | operate op => exact hresting.perform x.now hedit
    show Hold.Hears standing ((x.meet h :: (x.meet h).after.run rest).flatMap _) _ _
    rw [List.flatMap_cons]
    exact hfirst.append fun _ hlast =>
      ih (fun h' hh' => hedits h' (List.mem_cons_of_mem h hh')) hafter hlast

theorem resting_of_mem_run {happenings : List (Happening (Progress C))}
    (hedits : ∀ h ∈ happenings, h.isEdit = false)
    (hresting : x.dispatcher.Resting routine) {y : Moment (Progress C) π n m}
    (hy : y ∈ x.run happenings) :
    ∃ (z : Device (Progress C) π n m) (h : Happening (Progress C)),
      Dispatcher.Resting routine z.dispatcher ∧ y = z.meet h := by
  obtain ⟨first, h, rest, rfl, rfl⟩ := mem_run hy
  refine ⟨x.atEnd first, h, atEnd_keep first ?_ x hresting, rfl⟩
  intro e now op hop he
  exact he.perform now (hedits _ (List.mem_append_left _ hop))

theorem meet_shows (hresting : x.dispatcher.Resting routine)
    (h : Happening (Progress C)) {t : Turn} (ht : t ∈ (x.meet h).turnsOf i) :
    t.Shows routine m (x.dispatcher.slot i).state
      (t.found (x.dispatcher.slot i).state.resumePoint) := by
  rw [turnsOf_eq hresting.runs] at ht
  split at ht
  · exact Dispatcher.turn_shows hresting.runs x.now (hresting.settled i)
      (Option.mem_toList.mp ht)
  · cases ht

theorem meet_answers (hresting : x.dispatcher.Resting routine) (i : Fin n)
    (transfer : Transfer) :
    let y := x.meet (.operate (.signal (Dispatcher.session i) transfer))
    ∃ heard, y.answer = some (.signalled (.ok heard)) ∧
      (heard = true ↔ (x.dispatcher.slot i).busy = true ∧ ∃ done,
        x.dispatcher.waits.record? (Dispatcher.session i) = some (.transfer transfer done)) ∧
      (heard = false → y.after = x) := by
  intro y
  have hy : y = _ := x.meet_signal (Dispatcher.signal_session x.dispatcher i transfer)
  rw [hy]
  refine ⟨_, rfl, ?_, ?_⟩
  · rw [Wait.Table.signal_fst]
    cases hresting.settled i with
    | idle hbusy _ hrecord => simp [hbusy, hrecord]
    | suspended hbusy _ _ hrecord =>
      obtain ⟨r, hr⟩ := Option.isSome_iff_exists.mp hrecord
      cases r with
      | deadline instant => simp [hr, Wait.Record.awaits]
      | transfer awaited done => simp [hbusy, hr, Wait.Record.awaits]
  · intro hunheard
    have hwaits := Wait.Table.signal_of_unheard hunheard
    simp only [hwaits]

end Device

/-- Of every session of a plugin that runs a routine, over any table and in any run without changes
of a stored state: signals are kept; a signal is heard exactly when the session is suspended on a
wait for that transfer, and otherwise changes nothing; and a turn that is noticed as coming past a
wait runs the step that is stored for the session. -/
theorem signals_reach_their_waits {plugin : Plugin (Progress C) π} (hruns : plugin.Runs routine)
    {waits : Wait.Table m} {d : Dispatcher (Progress C) π n m}
    (hregister : (Dispatcher.register plugin n waits).value = .ok d) (start : Instant)
    (happenings : List (Happening (Progress C))) (hedits : ∀ h ∈ happenings, h.isEdit = false)
    (i : Fin n) :
    let moments := (Device.mk start d).run happenings
    SignalsKept (moments.flatMap (Moment.notices i)) ∧
      (∀ y ∈ moments, ∀ transfer,
        y.happening = .operate (.signal (Dispatcher.session i) transfer) →
        ∃ heard, y.answer = some (.signalled (.ok heard)) ∧
          (heard = true ↔ (y.before.dispatcher.slot i).busy = true ∧ ∃ done,
            y.before.dispatcher.waits.record? (Dispatcher.session i) =
              some (.transfer transfer done)) ∧
          (heard = false → y.after = y.before)) ∧
      ∀ y ∈ moments, ∀ t ∈ y.turnsOf i,
        t.Shows routine m (y.before.dispatcher.slot i).state
          (t.found (y.before.dispatcher.slot i).state.resumePoint) := by
  intro moments
  have hstart := Dispatcher.resting_of_register hruns hregister
  have hidle : Hold.Fits none (d.slot i) (d.waits.record? (Dispatcher.session i)) :=
    (Dispatcher.idle_of_register hregister).2.2 i
  refine ⟨?_, ?_, ?_⟩
  · exact signalsKept_of_orderly (Device.run_hears (x := ⟨start, d⟩) happenings hedits
      hstart hidle).1
  · intro y hy transfer hsignal
    obtain ⟨x, h, hresting, rfl⟩ := Device.resting_of_mem_run hedits hstart hy
    rw [Device.meet_happening] at hsignal
    subst hsignal
    exact Device.meet_answers hresting i transfer
  · intro y hy t ht
    obtain ⟨x, h, hresting, rfl⟩ := Device.resting_of_mem_run hedits hstart hy
    rw [Device.meet_before]
    exact Device.meet_shows hresting h ht

end Steps

/-! ### A routine that waits for a transfer -/

namespace Handshake

inductive At where
  | entry
  | sent
deriving DecidableEq

instance : Label At where
  entry := .entry
  others := [.sent]
  name
    | .entry => "Entry"
    | .sent => "Sent"
  nodup := by decide
  complete l := by cases l <;> decide
  few := by decide

/-- Waits once for the end of a transfer. -/
def routine : Routine At Unit where
  step
    | .entry, p, _ => return (.ok (.suspend .sent (.transfer .spiSend)), p)
    | .sent, p, _ => return (.ok (.finish 7), p)

def plugin : Plugin (Progress Unit) Unit where
  name := "handshake"
  blank := Progress.fresh
  initial := ()
  validate := .ok ()
  prepare _ _ := return (.ok (), (), Progress.fresh)
  handle call := Plugin.resumeRoutine routine call

theorem plugin_runs : plugin.Runs routine where
  blank := rfl
  prepare _ _ := ⟨(), Progress.fresh, rfl, rfl⟩
  handle _ _ _ := rfl

end Handshake

/-- A signal before the wait and one for another transfer are dropped, a turn in between is held,
and the turn after the signal that was heard comes past the wait. -/
theorem signals_reach_their_waits_handshake :
    ∃ d : Dispatcher (Progress Unit) Unit 2 2,
      (Dispatcher.register Handshake.plugin 2 Wait.Table.empty).value = .ok d ∧
      let moments := (Device.mk 0 d).run [.operate (.signal 1 .spiSend),
        .operate (.submit 1 []), .operate .tick, .operate (.signal 1 .i2cSend),
        .operate (.poll 1), .operate (.signal 1 .spiSend), .operate .tick]
      moments.flatMap (Moment.notices 1) =
        [.signalled .spiSend false, .entered, .armed 1 (.transfer .spiSend),
          .signalled .i2cSend false, .held, .signalled .spiSend true, .passed 1] ∧
      SignalsKept (moments.flatMap (Moment.notices 1)) ∧
      ∀ y ∈ moments, ∀ t ∈ y.turnsOf 1,
        t.Shows Handshake.routine 2 (y.before.dispatcher.slot 1).state
          (t.found (y.before.dispatcher.slot 1).state.resumePoint) := by
  refine ⟨_, rfl, ?_⟩
  intro moments
  have hregister : (Dispatcher.register Handshake.plugin 2
      (Wait.Table.empty : Wait.Table 2)).value = .ok _ := rfl
  have hreach := signals_reach_their_waits Handshake.plugin_runs hregister 0
    [.operate (.signal 1 .spiSend), .operate (.submit 1 []), .operate .tick,
      .operate (.signal 1 .i2cSend), .operate (.poll 1), .operate (.signal 1 .spiSend),
      .operate .tick] (by simp [Happening.isEdit]) 1
  exact ⟨by decide, hreach.1, hreach.2.2⟩

end Resumable
