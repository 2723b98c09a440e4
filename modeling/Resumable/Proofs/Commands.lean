import Mathlib.Data.List.DropRight
import Resumable.Plugin.Latch
import Resumable.Proofs.Schedule

/-!
# Every command is admitted once, in order and alone

For any plugin and any run. The first part follows the commands of one session through the queue
that all sessions share: in every moment, what was queued and what is accepted is what is admitted
and what is still queued. The second part follows the session itself: the marks that a run leaves on
it are admissions, handler calls, endings and interventions, and they come in the order in which
one command after the other is in flight. In between, every turn that a run reports is shown to be
one call of the handler, with the call that the turn names and from what was stored before it.
-/

namespace Resumable

variable {σ π : Type} {n m : Nat} {i j : Fin n}

/-! ### Commands in the queue -/

def Moment.accepted (i : Fin n) (x : Moment σ π n m) : List (List UInt8) :=
  match x.happening, x.answer with
  | .operate (.submit s bytes), some (.submitted (.ok ())) =>
    if s = Dispatcher.session i then [bytes] else []
  | _, _ => []

/-- The bytes of the commands that were admitted to the session. -/
def Moment.admitted (i : Fin n) (x : Moment σ π n m) : List (List UInt8) :=
  (x.turnsOf i).filterMap fun t => t.admitted.map (·.bytes)

def Dispatcher.waitingFor (d : Dispatcher σ π n m) (i : Fin n) : List (List UInt8) :=
  (d.queuedFor i).map (·.bytes)

theorem Command.bytes_of_ofBytes? {bytes : List UInt8} {command : Command}
    (h : Command.ofBytes? bytes = some command) : command.bytes = bytes := by
  unfold Command.ofBytes? at h
  split at h
  · cases h
    rfl
  · cases h

namespace Dispatcher

variable {d d' : Dispatcher σ π n m}

theorem waitingFor_eq (h : d'.queue.toList.filter (isFor i) = d.queue.toList.filter (isFor i)) :
    d'.waitingFor i = d.waitingFor i := by
  rw [waitingFor, waitingFor, queuedFor, queuedFor, h]

theorem waitingFor_push {command : Command} {queue : Fifo Pending queueCapacity}
    (hpush : d.queue.push ⟨session j, command⟩ = some queue) :
    waitingFor { d with queue } i =
      d.waitingFor i ++ if session j = session i then [command.bytes] else [] := by
  show ((queue.toList.filter (isFor i)).map (·.command)).map (·.bytes) =
    ((d.queue.toList.filter (isFor i)).map (·.command)).map (·.bytes) ++ _
  rw [Fifo.toList_push hpush, List.filter_append, List.map_append, List.map_append]
  by_cases hj : j = i
  · have hown : isFor i ⟨session j, command⟩ = true := (isFor_session d.addressable i j _).mpr hj
    rw [List.filter_cons_of_pos hown, if_pos (by rw [hj])]
    rfl
  · have hnot : ¬ isFor i ⟨session j, command⟩ = true := by
      rw [isFor_session d.addressable]
      exact hj
    have hsession : session j ≠ session i := fun e => hj (session_injective d.addressable e)
    rw [List.filter_cons_of_neg hnot, if_neg hsession]
    rfl

theorem turn_conserves (d : Dispatcher σ π n m) (now : Instant) (i j : Fin n) :
    d.waitingFor i =
      ((d.turn now j).1.toList.filter (·.session == session i)).filterMap
          (fun t => t.admitted.map (·.bytes)) ++
        (d.turn now j).2.waitingFor i := by
  have hturned := turned_turn d now j
  by_cases hj : i = j
  · subst hj
    generalize d.turn now i = y at hturned
    cases hturned with
    | idle _ _ hqueue => exact (waitingFor_eq (congrArg (List.filter (isFor i)) hqueue)).symm
    | continued _ hserved =>
      have hsame := waitingFor_eq (i := i) (congrArg (·.toList.filter (isFor i)) hserved.queue)
      rw [hsame]
      simp
    | @begun command rest queue call x _ hnext hqueue _ hserved =>
      have hsame := waitingFor_eq (i := i) (congrArg (·.toList.filter (isFor i)) hserved.queue)
      have hafter : queue.toList.filter (isFor i) = (d.queue.toList.filter (isFor i)).tail := by
        rw [hqueue, filter_eraseP_self]
      have hrest : (d.started i command queue).waitingFor i = rest.map (·.bytes) := by
        rw [waitingFor, queuedFor, queue_started, hafter, List.map_tail]
        change (d.queuedFor i).tail.map (·.bytes) = _
        rw [hnext, List.tail_cons]
      rw [hsame, hrest, waitingFor, hnext]
      simp
  · rw [hturned.filter_session_other d.addressable hj, waitingFor_eq (hturned.filter_other hj)]
    rfl

theorem turns_conserve (d : Dispatcher σ π n m) (now : Instant) (i : Fin n)
    (sessions : List (Fin n)) :
    d.waitingFor i =
      ((d.turns now sessions).1.filter (·.session == session i)).filterMap
          (fun t => t.admitted.map (·.bytes)) ++
        (d.turns now sessions).2.waitingFor i := by
  induction sessions generalizing d with
  | nil => rfl
  | cons j rest ih =>
    rw [turns_cons, List.filter_append, List.filterMap_append, List.append_assoc,
      ← ih (d.turn now j).2]
    exact turn_conserves d now i j

end Dispatcher

namespace Device

/-- In every moment but a reset, what was queued and what is accepted is what is admitted and what
is still queued. -/
theorem meet_conserves (x : Device σ π n m) (h : Happening σ) (i : Fin n)
    (hreset : (x.meet h).isReset = false) :
    x.dispatcher.waitingFor i ++ (x.meet h).accepted i =
      (x.meet h).admitted i ++ (x.meet h).after.dispatcher.waitingFor i := by
  have hquiet : ∀ {d' : Dispatcher σ π n m}, d'.queue = x.dispatcher.queue →
      x.dispatcher.waitingFor i ++ [] = [] ++ d'.waitingFor i := by
    intro d' hqueue
    rw [List.append_nil, List.nil_append]
    exact (Dispatcher.waitingFor_eq (by rw [hqueue])).symm
  cases h with
  | advance length => exact hquiet rfl
  | operate op =>
    cases op with
    | submit s bytes =>
      rcases Dispatcher.submit_cases x.dispatcher s bytes with
        ⟨e, hvalue⟩ | ⟨j, command, queue, rfl, hbytes, hpush, hvalue⟩
      · rw [x.meet_submit hvalue]
        exact hquiet rfl
      · rw [x.meet_submit hvalue]
        show x.dispatcher.waitingFor i ++ (if Dispatcher.session j = Dispatcher.session i
          then [bytes] else []) = Dispatcher.waitingFor { x.dispatcher with queue } i
        rw [Dispatcher.waitingFor_push hpush, Command.bytes_of_ofBytes? hbytes]
    | poll s =>
      rcases Dispatcher.poll_cases x.dispatcher x.now s with hvalue | ⟨j, rfl, _⟩
      · rw [x.meet_poll hvalue]
        exact hquiet rfl
      · rw [Moment.admitted, turnsOf_poll, after_poll]
        exact (List.append_nil _).trans (Dispatcher.turn_conserves x.dispatcher x.now i j)
    | tick =>
      rw [Moment.admitted, turnsOf_tick]
      exact (List.append_nil _).trans
        (Dispatcher.turns_conserve x.dispatcher x.now i (List.finRange n))
    | abandon s =>
      have hqueue : (x.dispatcher.abandon s).value.2.queue = x.dispatcher.queue := by
        rcases Dispatcher.abandon_cases x.dispatcher s with hvalue | ⟨_, _, hvalue⟩
        · rw [hvalue]
        · rw [hvalue]
          rfl
      exact hquiet hqueue
    | reset => cases hreset
    | signal s transfer =>
      have hqueue : (x.dispatcher.signal s transfer).value.2.queue = x.dispatcher.queue := by
        rcases Dispatcher.signal_cases x.dispatcher s transfer with hvalue | ⟨_, _, hvalue⟩
        · rw [hvalue]
        · rw [hvalue]
      exact hquiet hqueue
    | edit s change =>
      have hqueue : (x.dispatcher.edit s change).2.queue = x.dispatcher.queue := by
        unfold Dispatcher.edit
        split
        · rfl
        · rfl
      exact hquiet hqueue

theorem waitingFor_reset (d : Dispatcher σ π n m) (i : Fin n) :
    d.reset.value.2.waitingFor i = [] := by
  rw [Dispatcher.waitingFor, Dispatcher.queuedFor, Dispatcher.queue_reset]
  rfl

/-- Since the last reset, what was accepted for a session is what was admitted to it, in that
order, and then what is still queued. -/
theorem run_conserves (x : Device σ π n m) (happenings : List (Happening σ)) (i : Fin n)
    (hstart : x.dispatcher.waitingFor i = []) :
    ((x.run happenings).rtakeWhile fun y => !y.isReset).flatMap (Moment.accepted i) =
      ((x.run happenings).rtakeWhile fun y => !y.isReset).flatMap (Moment.admitted i) ++
        (x.atEnd happenings).dispatcher.waitingFor i := by
  induction happenings using List.reverseRecOn with
  | nil => exact hstart.symm
  | append_singleton happenings h ih =>
    rw [run_concat, atEnd_append]
    show _ = _ ++ ((x.atEnd happenings).meet h).after.dispatcher.waitingFor i
    cases hreset : ((x.atEnd happenings).meet h).isReset with
    | false =>
      have hmoment := meet_conserves (x.atEnd happenings) h i hreset
      rw [List.rtakeWhile_concat_pos _ _ _ (by rw [hreset]; rfl), List.flatMap_append,
        List.flatMap_append, List.flatMap_singleton, List.flatMap_singleton, ih,
        List.append_assoc, hmoment, List.append_assoc]
    | true =>
      rw [List.rtakeWhile_concat_neg _ _ _ (by rw [hreset]; decide)]
      rcases h with op | length
      · cases op with
        | reset => exact (waitingFor_reset _ i).symm
        | submit s bytes => cases hreset
        | poll s => cases hreset
        | tick => cases hreset
        | abandon s => cases hreset
        | signal s transfer => cases hreset
        | edit s change => cases hreset
      · cases hreset

end Device

/-! ### Turns and handler calls -/

/-- The dispatcher that a tick at this instant leaves to a session: after the turns of the sessions
before it. -/
def Dispatcher.beforeTurn (d : Dispatcher σ π n m) (now : Instant) (i : Fin n) :
    Dispatcher σ π n m :=
  (d.turns now ((List.finRange n).take i)).2

/-- The dispatcher before the turn that the session has in this moment, if it has one. -/
def Moment.beforeTurn (i : Fin n) (x : Moment σ π n m) : Dispatcher σ π n m :=
  match x.happening with
  | .operate .tick => x.before.dispatcher.beforeTurn x.before.now i
  | _ => x.before.dispatcher

/-- What the handler makes of the call that the turn reports, from what the dispatcher stores for
the session. The reply is emptied for a command that is admitted. -/
def Turn.called (t : Turn) (plugin : Plugin σ π) (d : Dispatcher σ π n m) (i : Fin n) :
    Traced Effect (Outcome × π × Workspace σ m) :=
  let reply := if t.admitted.isSome then (d.slot i).reply.clear else (d.slot i).reply
  plugin.handle t.call d.persistent ⟨(d.slot i).state, d.waits, reply⟩

/-- The turn of the session is one call of the handler, with the call that the turn reports and what
is stored before it: it did what the handler did, and ended as the handler said. Behind a fault the
wait of the session is cancelled, and nothing else is done. -/
def Turn.Faithful (t : Turn) (plugin : Plugin σ π) (d : Dispatcher σ π n m) (i : Fin n) : Prop :=
  let called := t.called plugin d i
  match called.value with
  | (.ok .waiting, _, _) => t.handling = called.trace ∧ t.ending = none
  | (.ok .ok, _, w) => t.handling = called.trace ∧ t.ending = some (.ok w.reply)
  | (.error fault, _, _) =>
    t.handling = called.trace ++ [.wait (.cancel (Dispatcher.session i))] ∧
      t.ending = some (.error fault)

namespace Dispatcher

theorem Served.faithful {d e : Dispatcher σ π n m} {now : Instant}
    {x : Traced Effect (Option Ending × Dispatcher σ π n m)} (h : Served e now i x) {t : Turn}
    {plugin : Plugin σ π} (hcalled : t.called plugin d i = e.handled now i)
    (hhandling : t.handling = x.trace) (hending : t.ending = x.value.1) :
    t.Faithful plugin d i := by
  rw [Turn.Faithful, hcalled, hhandling, hending]
  cases h with
  | suspended hhandled =>
    rw [hhandled]
    exact ⟨rfl, rfl⟩
  | answered hhandled =>
    rw [hhandled]
    exact ⟨rfl, rfl⟩
  | faulted hhandled =>
    rw [hhandled]
    exact ⟨rfl, rfl⟩

theorem turn_faithful (d : Dispatcher σ π n m) (now : Instant) (i : Fin n) {t : Turn}
    (ht : t ∈ (d.turn now i).1) : t.Faithful d.plugin d i := by
  have hturned := turned_turn d now i
  generalize d.turn now i = y at hturned ht
  cases hturned with
  | idle => cases ht
  | continued _ hserved =>
    cases ht
    exact hserved.faithful rfl rfl rfl
  | @begun command _ queue _ _ _ _ _ hcall hserved =>
    cases ht
    -- Admission stores the command and empties the reply, and the handler is called from there.
    refine hserved.faithful ?_ rfl rfl
    rw [handled, callOf_eq now (slot_started d i command queue), slot_started, Turn.called, hcall]
    rfl

/-- The sessions in front of one are those that a tick comes to before it. -/
theorem take_of_finRange_eq {first rest : List (Fin n)} {i : Fin n}
    (h : List.finRange n = first ++ i :: rest) : (List.finRange n).take i = first := by
  have hplace : (List.finRange n)[first.length]? = some i := by
    rw [h, List.getElem?_append_right (Nat.le_refl _), Nat.sub_self]
    rfl
  have hlength : first.length = i := by
    obtain ⟨hlt, hget⟩ := List.getElem?_eq_some_iff.mp hplace
    rw [List.getElem_finRange] at hget
    exact congrArg Fin.val hget
  rw [h, ← hlength, List.take_left]

/-- Every turn of a tick is the call of some session, from what the sessions before it left. -/
theorem tick_faithful (d : Dispatcher σ π n m) (now : Instant) {t : Turn}
    (ht : t ∈ (d.turns now (List.finRange n)).1) :
    ∃ i, t.session = session i ∧ t.Faithful d.plugin (d.beforeTurn now i) i := by
  obtain ⟨first, i, rest, hsessions, hturn⟩ := mem_turns ht
  have hplugin : (d.turns now first).2.plugin = d.plugin :=
    turns_keep (P := fun e => e.plugin = d.plugin) now
      (fun e j he => (turned_turn e now j).plugin.trans he) first d rfl
  refine ⟨i, (turned_turn _ now i).session_eq hturn, ?_⟩
  rw [beforeTurn, take_of_finRange_eq hsessions, ← hplugin]
  exact turn_faithful _ now i hturn

end Dispatcher

namespace Device

theorem meet_faithful (x : Device σ π n m) (h : Happening σ) (i : Fin n) {t : Turn}
    (ht : t ∈ (x.meet h).turnsOf i) :
    t.Faithful x.dispatcher.plugin ((x.meet h).beforeTurn i) i := by
  cases h with
  | advance length => cases ht
  | operate op =>
    cases op with
    | poll s =>
      by_cases hs : s = Dispatcher.session i
      · subst hs
        rw [turnsOf_poll] at ht
        have hturn := Option.mem_toList.mp (List.mem_filter.mp ht).1
        exact Dispatcher.turn_faithful x.dispatcher x.now i hturn
      · rw [turnsOf_poll_other x hs] at ht
        cases ht
    | tick =>
      rw [turnsOf_tick] at ht
      obtain ⟨hmem, hown⟩ := List.mem_filter.mp ht
      obtain ⟨j, hsession, hfaithful⟩ := x.dispatcher.tick_faithful x.now hmem
      obtain rfl : j = i := by
        refine Dispatcher.session_injective x.dispatcher.addressable ?_
        rw [← hsession]
        exact beq_iff_eq.mp hown
      exact hfaithful
    | submit s bytes => cases ht
    | abandon s => cases ht
    | reset => cases ht
    | signal s transfer => cases ht
    | edit s change => cases ht

theorem run_faithful (x : Device σ π n m) (happenings : List (Happening σ)) (i : Fin n)
    {y : Moment σ π n m} (hy : y ∈ x.run happenings) {t : Turn} (ht : t ∈ y.turnsOf i) :
    t.Faithful x.dispatcher.plugin (y.beforeTurn i) i := by
  induction happenings generalizing x with
  | nil => cases hy
  | cons h rest ih =>
    rcases List.mem_cons.mp hy with rfl | hrest
    · exact x.meet_faithful h i ht
    · rw [← x.meet_plugin h]
      exact ih (x.meet h).after hrest

end Device

/-! ### The life of a session -/

/-- What a run leaves on a session. -/
inductive Mark where
  | admitted (command : Command)
  /-- The handler was called, with these bytes and this notice of a first call. -/
  | called (bytes : List UInt8) (first : Bool)
  | ended
  /-- The session was abandoned or made ready again. -/
  | dropped
deriving DecidableEq

def Mark.isCall : Mark → Bool
  | .called _ _ => true
  | _ => false

def Turn.marks (t : Turn) : List Mark :=
  (t.admitted.map Mark.admitted).toList ++
    .called t.call.command t.call.first :: (t.ending.map fun _ => Mark.ended).toList

/-- Whether the session is abandoned, or a reset comes to it. -/
def Moment.drops (i : Fin n) (x : Moment σ π n m) : Bool :=
  match x.happening with
  | .operate (.abandon s) => s == Dispatcher.session i
  | .operate .reset => x.before.dispatcher.clears i
  | _ => false

def Moment.marks (i : Fin n) (x : Moment σ π n m) : List Mark :=
  (x.turnsOf i).flatMap Turn.marks ++ if x.drops i then [.dropped] else []

/-- What a session has in flight, and whether its handler has been called for it. -/
inductive Flight where
  | idle
  | flying (command : Command) (called : Bool)
deriving DecidableEq

/-- The flight after a mark, if the mark may come there. -/
def Flight.next : Flight → Mark → Option Flight
  | .idle, .admitted command => some (.flying command false)
  | .flying command called, .called bytes first =>
    if bytes = command.bytes ∧ first = !called then some (.flying command true) else none
  | .flying _ true, .ended => some .idle
  | _, .dropped => some .idle
  | _, _ => none

def Flight.Fits (flight : Flight) (slot : Slot σ) : Prop :=
  match flight with
  | .idle => slot.busy = false
  | .flying command called => slot.busy = true ∧ slot.command = command ∧ slot.first = !called

/-- The marks can follow one another from a flight on, and leave one that fits the slot. -/
def Flight.Reaches (flight : Flight) (marks : List Mark) (slot : Slot σ) : Prop :=
  ∃ last : Flight, marks.foldlM Flight.next flight = some last ∧ last.Fits slot

theorem Flight.Reaches.nil {flight : Flight} {slot : Slot σ} (h : flight.Fits slot) :
    flight.Reaches [] slot := ⟨flight, rfl, h⟩

theorem Flight.Reaches.append {flight : Flight} {marks more : List Mark} {slot slot' : Slot σ}
    (h : flight.Reaches marks slot)
    (hmore : ∀ last : Flight, last.Fits slot → last.Reaches more slot') :
    flight.Reaches (marks ++ more) slot' := by
  obtain ⟨middle, hmiddle, hfits⟩ := h
  obtain ⟨last, hlast, hend⟩ := hmore middle hfits
  refine ⟨last, ?_, hend⟩
  rw [List.foldlM_append, hmiddle]
  exact hlast

theorem Flight.reaches_dropped (flight : Flight) {slot : Slot σ} (hbusy : slot.busy = false) :
    flight.Reaches [.dropped] slot := by
  refine ⟨.idle, ?_, hbusy⟩
  cases flight with
  | idle => rfl
  | flying command called => cases called <;> rfl

namespace Dispatcher

theorem Served.reaches {d : Dispatcher σ π n m} {now : Instant}
    {x : Traced Effect (Option Ending × Dispatcher σ π n m)} (h : Served d now i x)
    {command : Command} {called : Bool} (hf : (Flight.flying command called).Fits (d.slot i)) :
    (Flight.flying command called).Reaches
      (.called (d.callOf now i).command (d.callOf now i).first ::
        (x.value.1.map fun _ => Mark.ended).toList) (x.value.2.slot i) := by
  obtain ⟨hbusy, hcommand, hfirst⟩ := hf
  obtain ⟨state, reply, hslot⟩ := h.slot
  have hcall : (Flight.flying command called).next
      (.called (d.callOf now i).command (d.callOf now i).first) =
        some (.flying command true) := by
    rw [callOf, hcommand, hfirst]
    simp [Flight.next]
  cases hending : x.value.1 with
  | none =>
    refine ⟨.flying command true, ?_, ?_⟩
    · rw [Option.map_none, Option.toList_none, List.foldlM_cons, hcall]
      rfl
    · rw [hslot, hending, hbusy, hcommand]
      exact ⟨rfl, rfl, rfl⟩
  | some ending =>
    refine ⟨.idle, ?_, ?_⟩
    · rw [Option.map_some, Option.toList_some, List.foldlM_cons, hcall]
      rfl
    · rw [hslot, hending]
      rfl

theorem turn_reaches (d : Dispatcher σ π n m) (now : Instant) (i j : Fin n) {flight : Flight}
    (hf : flight.Fits (d.slot i)) :
    flight.Reaches (((d.turn now j).1.toList.filter (·.session == session i)).flatMap Turn.marks)
      ((d.turn now j).2.slot i) := by
  have hturned := turned_turn d now j
  by_cases hj : i = j
  · subst hj
    generalize d.turn now i = y at hturned
    cases hturned with
    | idle => exact .nil hf
    | @continued x hbusy hserved =>
      cases flight with
      | idle =>
        rw [Flight.Fits, hbusy] at hf
        cases hf
      | flying command called =>
        have hreaches := hserved.reaches hf
        simpa [Turn.marks] using hreaches
    | @begun command rest queue call x hbusy _ _ hcall hserved =>
      have hstart : (Flight.flying command false).Fits ((d.started i command queue).slot i) := by
        rw [slot_started]
        exact ⟨rfl, rfl, rfl⟩
      obtain ⟨last, hlast, hfits⟩ := hserved.reaches hstart
      cases flight with
      | flying command' called =>
        rw [Flight.Fits, hbusy] at hf
        cases hf.1
      | idle =>
        refine ⟨last, ?_, hfits⟩
        have hcallOf : (d.started i command queue).callOf now i = call :=
          (callOf_eq now (slot_started d i command queue)).trans hcall.symm
        rw [hcallOf] at hlast
        simpa [Turn.marks, Flight.next] using hlast
  · rw [hturned.filter_session_other d.addressable hj, hturned.slot_other hj]
    exact .nil hf

theorem turns_reach (d : Dispatcher σ π n m) (now : Instant) (i : Fin n)
    (sessions : List (Fin n)) {flight : Flight} (hf : flight.Fits (d.slot i)) :
    flight.Reaches (((d.turns now sessions).1.filter (·.session == session i)).flatMap Turn.marks)
      ((d.turns now sessions).2.slot i) := by
  induction sessions generalizing d flight with
  | nil => exact .nil hf
  | cons j rest ih =>
    rw [turns_cons, List.filter_append, List.flatMap_append]
    exact (turn_reaches d now i j hf).append fun _ hlast => ih (d.turn now j).2 hlast

theorem busy_abandon (d : Dispatcher σ π n m) (i : Fin n) :
    ((d.abandon (session i)).value.2.slot i).busy = false := by
  unfold abandon
  rw [index_session d.addressable]
  exact congrArg Slot.busy (slot_setSlot d i (Slot.blank d.plugin.blank))

theorem slot_abandon_other (d : Dispatcher σ π n m) {s : SessionId} (hs : s ≠ session i) :
    (d.abandon s).value.2.slot i = d.slot i := by
  rcases abandon_cases d s with hvalue | ⟨j, rfl, hvalue⟩
  · rw [hvalue]
  · rw [hvalue]
    refine slot_store_other d _ _ _ ?_
    rintro rfl
    exact hs rfl

end Dispatcher

theorem Device.meet_reaches (x : Device σ π n m) (h : Happening σ) (i : Fin n) {flight : Flight}
    (hf : flight.Fits (x.dispatcher.slot i)) :
    flight.Reaches ((x.meet h).marks i) ((x.meet h).after.dispatcher.slot i) := by
  cases h with
  | advance length => exact .nil hf
  | operate op =>
    cases op with
    | submit s bytes =>
      rcases Dispatcher.submit_cases x.dispatcher s bytes with
        ⟨e, hvalue⟩ | ⟨_, _, _, _, _, _, hvalue⟩
      · rw [x.meet_submit hvalue]
        exact .nil hf
      · rw [x.meet_submit hvalue]
        exact .nil hf
    | poll s =>
      rcases Dispatcher.poll_cases x.dispatcher x.now s with hvalue | ⟨j, rfl, _⟩
      · rw [x.meet_poll hvalue]
        exact .nil hf
      · rw [Moment.marks, turnsOf_poll, after_poll]
        refine (Dispatcher.turn_reaches x.dispatcher x.now i j hf).append ?_
        exact fun _ hlast => .nil hlast
    | tick =>
      rw [Moment.marks, turnsOf_tick]
      refine (Dispatcher.turns_reach x.dispatcher x.now i (List.finRange n) hf).append ?_
      exact fun _ hlast => .nil hlast
    | abandon s =>
      show flight.Reaches (if s == Dispatcher.session i then [.dropped] else [])
        ((x.dispatcher.abandon s).value.2.slot i)
      by_cases hs : s = Dispatcher.session i
      · rw [hs, if_pos (beq_self_eq_true _)]
        exact Flight.reaches_dropped flight (Dispatcher.busy_abandon x.dispatcher i)
      · rw [if_neg (by simpa using hs), Dispatcher.slot_abandon_other x.dispatcher hs]
        exact .nil hf
    | reset =>
      obtain ⟨hcleared, hkept⟩ := Dispatcher.slot_reset x.dispatcher i
      show flight.Reaches (if x.dispatcher.clears i then [.dropped] else [])
        (x.dispatcher.reset.value.2.slot i)
      cases hclears : x.dispatcher.clears i with
      | true => exact Flight.reaches_dropped flight (hcleared hclears)
      | false =>
        rw [hkept hclears]
        exact .nil hf
    | signal s transfer =>
      have hslot : (x.dispatcher.signal s transfer).value.2.slot i = x.dispatcher.slot i := by
        rcases Dispatcher.signal_cases x.dispatcher s transfer with hvalue | ⟨_, _, hvalue⟩
        · rw [hvalue]
        · rw [hvalue]
          rfl
      exact .nil (hslot ▸ hf)
    | edit s change =>
      show flight.Reaches [] ((x.dispatcher.edit s change).2.slot i)
      unfold Dispatcher.edit
      rcases Dispatcher.index_cases n s with ⟨j, _, hindex⟩ | ⟨_, hindex⟩
      · rw [hindex]
        by_cases hj : i = j
        · subst hj
          refine .nil ?_
          show flight.Fits ((x.dispatcher.setSlot i _).slot i)
          rw [Dispatcher.slot_setSlot]
          exact hf
        · exact .nil (Dispatcher.slot_setSlot_other x.dispatcher _ hj ▸ hf)
      · rw [hindex]
        exact .nil hf

theorem Device.run_reaches (x : Device σ π n m) (happenings : List (Happening σ)) (i : Fin n)
    {flight : Flight} (hf : flight.Fits (x.dispatcher.slot i)) :
    flight.Reaches ((x.run happenings).flatMap (Moment.marks i))
      ((x.atEnd happenings).dispatcher.slot i) := by
  induction happenings generalizing x flight with
  | nil => exact .nil hf
  | cons h rest ih =>
    show flight.Reaches ((x.meet h :: (x.meet h).after.run rest).flatMap _) _
    rw [List.flatMap_cons]
    exact (x.meet_reaches h i hf).append fun _ hlast => ih (x.meet h).after hlast

/-! ### One command at a time -/

/-- The marks of a session in which one command after the other is in flight. Between an admission
and the call or ending that belongs to it, there are only calls for the same command. -/
structure OneAtATime (marks : List Mark) : Prop where
  called : ∀ before bytes first after, marks = before ++ .called bytes first :: after →
    ∃ earlier command since, before = earlier ++ .admitted command :: since ∧
      (∀ mark ∈ since, mark.isCall = true) ∧ bytes = command.bytes ∧ (first = true ↔ since = [])
  ended : ∀ before after, marks = before ++ .ended :: after →
    ∃ earlier command since, before = earlier ++ .admitted command :: since ∧
      ∀ mark ∈ since, mark.isCall = true
  admitted : ∀ before command after, marks = before ++ .admitted command :: after →
    ∀ earlier command' since, before = earlier ++ .admitted command' :: since →
      .ended ∈ since ∨ .dropped ∈ since

def Flight.Explained (marks : List Mark) : Flight → Prop
  | .idle => ∀ earlier command since, marks = earlier ++ .admitted command :: since →
      .ended ∈ since ∨ .dropped ∈ since
  | .flying command called => ∃ earlier since, marks = earlier ++ .admitted command :: since ∧
      (∀ mark ∈ since, mark.isCall = true) ∧ (called = true ↔ since ≠ [])

theorem mem_of_concat_eq {marks earlier since : List Mark} {last : Mark} {command : Command}
    (h : marks ++ [last] = earlier ++ .admitted command :: since)
    (hlast : last ≠ .admitted command) : last ∈ since := by
  have hend := congrArg List.getLast? h
  rw [List.getLast?_concat, List.getLast?_append, List.getLast?_cons] at hend
  cases hsince : since.getLast? with
  | none =>
    rw [hsince] at hend
    exact absurd (Option.some.inj hend) hlast
  | some mark =>
    rw [hsince] at hend
    cases hend
    exact List.mem_of_getLast? hsince

theorem Flight.Explained.next {marks : List Mark} {flight flight' : Flight} {mark : Mark}
    (h : flight.Explained marks) (hnext : flight.next mark = some flight') :
    flight'.Explained (marks ++ [mark]) := by
  cases flight with
  | idle =>
    cases mark with
    | admitted command =>
      cases hnext
      exact ⟨marks, [], rfl, nofun, by simp⟩
    | called bytes first => cases hnext
    | ended => cases hnext
    | dropped =>
      cases hnext
      intro earlier command since heq
      exact .inr (mem_of_concat_eq heq nofun)
  | flying command called =>
    obtain ⟨earlier, since, hmarks, hcalls, hcalled⟩ := h
    cases mark with
    | admitted command' => cases called <;> cases hnext
    | called bytes first =>
      simp only [Flight.next] at hnext
      split at hnext
      case isTrue =>
        cases hnext
        refine ⟨earlier, since ++ [.called bytes first], by simp [hmarks], ?_, by simp⟩
        intro mark hmark
        rcases List.mem_append.mp hmark with hsince | hsingle
        · exact hcalls mark hsince
        · rw [List.mem_singleton.mp hsingle]
          rfl
      case isFalse => cases hnext
    | ended =>
      cases called with
      | false => cases hnext
      | true =>
        cases hnext
        intro earlier' command' since' heq
        exact .inl (mem_of_concat_eq heq nofun)
    | dropped =>
      have hidle : flight' = .idle := by cases called <;> cases hnext <;> rfl
      subst hidle
      intro earlier' command' since' heq
      exact .inr (mem_of_concat_eq heq nofun)

theorem Flight.explained_of_follow (marks : List Mark) (flight : Flight)
    (h : marks.foldlM Flight.next .idle = some flight) : flight.Explained marks := by
  induction marks using List.reverseRecOn generalizing flight with
  | nil =>
    cases h
    intro earlier command since heq
    simp at heq
  | append_singleton marks mark ih =>
    rw [List.foldlM_append] at h
    obtain ⟨middle, hmiddle, hlast⟩ := Option.bind_eq_some_iff.mp h
    have hnext : middle.next mark = some flight := by simpa using hlast
    exact (ih middle hmiddle).next hnext

theorem Flight.next_of_follow {before after : List Mark} {mark : Mark} {last : Flight}
    (h : (before ++ mark :: after).foldlM Flight.next .idle = some last) :
    ∃ flight flight' : Flight, flight.Explained before ∧ flight.next mark = some flight' := by
  rw [List.foldlM_append] at h
  obtain ⟨flight, hbefore, hrest⟩ := Option.bind_eq_some_iff.mp h
  rw [List.foldlM_cons] at hrest
  obtain ⟨flight', hnext, _⟩ := Option.bind_eq_some_iff.mp hrest
  exact ⟨flight, flight', Flight.explained_of_follow before flight hbefore, hnext⟩

theorem oneAtATime_of_follow {marks : List Mark} {last : Flight}
    (h : marks.foldlM Flight.next .idle = some last) : OneAtATime marks where
  called before bytes first after hmarks := by
    rw [hmarks] at h
    obtain ⟨flight, flight', hexplained, hnext⟩ := Flight.next_of_follow h
    cases flight with
    | idle => cases hnext
    | flying command called =>
      obtain ⟨earlier, since, hbefore, hcalls, hcalled⟩ := hexplained
      simp only [Flight.next] at hnext
      split at hnext
      case isTrue hmark =>
        refine ⟨earlier, command, since, hbefore, hcalls, hmark.1, ?_⟩
        rw [hmark.2]
        cases called with
        | false => simpa using hcalled
        | true => simpa using hcalled
      case isFalse => cases hnext
  ended before after hmarks := by
    rw [hmarks] at h
    obtain ⟨flight, flight', hexplained, hnext⟩ := Flight.next_of_follow h
    cases flight with
    | idle => cases hnext
    | flying command called =>
      obtain ⟨earlier, since, hbefore, hcalls, _⟩ := hexplained
      exact ⟨earlier, command, since, hbefore, hcalls⟩
  admitted before command after hmarks := by
    rw [hmarks] at h
    obtain ⟨flight, flight', hexplained, hnext⟩ := Flight.next_of_follow h
    cases flight with
    | idle => exact hexplained
    | flying command' called => cases called <;> cases hnext

/-- What is accepted for a session is admitted to it in order, or still queued; its commands are in
flight one after the other; and every turn that is counted there is one call of the handler, from
what is stored for the session before it. -/
theorem commands_one_at_a_time {plugin : Plugin σ π} {waits : Wait.Table m}
    {d : Dispatcher σ π n m} (hregister : (Dispatcher.register plugin n waits).value = .ok d)
    (start : Instant) (happenings : List (Happening σ)) (i : Fin n) :
    let x : Device σ π n m := ⟨start, d⟩
    let recent := (x.run happenings).rtakeWhile fun y => !y.isReset
    recent.flatMap (Moment.accepted i) =
        recent.flatMap (Moment.admitted i) ++ (x.atEnd happenings).dispatcher.waitingFor i ∧
      OneAtATime ((x.run happenings).flatMap (Moment.marks i)) ∧
      ∀ y ∈ x.run happenings, ∀ t ∈ y.turnsOf i, t.Faithful plugin (y.beforeTurn i) i := by
  intro x recent
  obtain ⟨hplugin, hqueue, hbusy⟩ := Dispatcher.idle_of_register hregister
  have hstart : d.waitingFor i = [] := by
    rw [Dispatcher.waitingFor, Dispatcher.queuedFor, hqueue]
    rfl
  have hidle : Flight.idle.Fits (d.slot i) := hbusy i
  obtain ⟨last, hfollow, _⟩ := x.run_reaches happenings i hidle
  refine ⟨x.run_conserves happenings i hstart, oneAtATime_of_follow hfollow, ?_⟩
  intro y hy t ht
  rw [← hplugin]
  exact x.run_faithful happenings i hy ht

/-- Two commands for one of two latches, and a third after a reset. -/
theorem commands_one_at_a_time_latch :
    ∃ d : Dispatcher Unit Latch.Tally 2 2,
      (Dispatcher.register (Latch.plugin 8) 2 Wait.Table.empty).value = .ok d ∧
      let x : Device Unit Latch.Tally 2 2 := ⟨0, d⟩
      let happenings : List (Happening Unit) :=
        [.operate (.submit 1 [1, 0, 0]), .operate (.submit 1 [2, 0, 0]), .operate .tick,
          .operate .reset, .operate (.submit 1 [3, 0, 0]), .operate (.submit 1 [4, 0, 0]),
          .operate (.poll 1)]
      let recent := (x.run happenings).rtakeWhile fun y => !y.isReset
      recent.flatMap (Moment.accepted 1) = [[3, 0, 0], [4, 0, 0]] ∧
      recent.flatMap (Moment.accepted 1) =
        recent.flatMap (Moment.admitted 1) ++ (x.atEnd happenings).dispatcher.waitingFor 1 ∧
      OneAtATime ((x.run happenings).flatMap (Moment.marks 1)) ∧
      ∀ y ∈ x.run happenings, ∀ t ∈ y.turnsOf 1,
        t.Faithful (Latch.plugin 8) (y.beforeTurn 1) 1 := by
  refine ⟨_, rfl, ?_⟩
  intro x happenings recent
  have hregister : (Dispatcher.register (Latch.plugin 8) 2
      (Wait.Table.empty : Wait.Table 2)).value = .ok _ := rfl
  exact ⟨by decide, commands_one_at_a_time hregister 0 happenings 1⟩

end Resumable
