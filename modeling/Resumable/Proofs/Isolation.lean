import Resumable.Proofs.Running
import Resumable.Proofs.Schedule

/-!
# Sessions do not disturb each other

Sessions share one queue, one table of waits and one clock. Two dispatchers look the same to a
session when they agree on its slot, its record and what is queued for it. What is done to other
sessions changes nothing of that, and what is done to the session itself gives the same answers on
both sides. So a run can be purged of everything that concerns other sessions only.
-/

namespace Resumable

/-- An answer as the session in a slot sees it: of the turns of a tick only its own. -/
def Answer.own {n : Nat} (i : Fin n) : Answer → Answer
  | .ticked turns => .ticked (turns.filter (·.session == Dispatcher.session i))
  | answer => answer

namespace Dispatcher

variable {L C σ π : Type} [DecidableEq L] [Label L] [Inhabited C] {n m : Nat} {i : Fin n}

/-- Two dispatchers that the session in a slot cannot tell apart. -/
structure SameFor (i : Fin n) (d d' : Dispatcher σ π n m) : Prop where
  plugin : d'.plugin = d.plugin
  slot : d'.slot i = d.slot i
  record : d'.waits.record? (session i) = d.waits.record? (session i)
  queue : d'.queue.toList.filter (isFor i) = d.queue.toList.filter (isFor i)

section Relation

variable {d d' d'' : Dispatcher σ π n m}

theorem SameFor.refl (i : Fin n) (d : Dispatcher σ π n m) : SameFor i d d := ⟨rfl, rfl, rfl, rfl⟩

theorem SameFor.symm (h : SameFor i d d') : SameFor i d' d :=
  ⟨h.plugin.symm, h.slot.symm, h.record.symm, h.queue.symm⟩

theorem SameFor.trans (h : SameFor i d d') (h' : SameFor i d' d'') : SameFor i d d'' :=
  ⟨h'.plugin.trans h.plugin, h'.slot.trans h.slot, h'.record.trans h.record,
    h'.queue.trans h.queue⟩

theorem SameFor.queuedFor (h : SameFor i d d') : d'.queuedFor i = d.queuedFor i := by
  rw [Dispatcher.queuedFor, Dispatcher.queuedFor, h.queue]

def OnlyFor (i : Fin n) (d : Dispatcher σ π n m) : Prop :=
  ∀ p ∈ d.queue.toList, isFor i p = true

theorem SameFor.length_le (h : SameFor i d d') (honly : OnlyFor i d') :
    d'.queue.length ≤ d.queue.length := by
  have hself : d'.queue.toList.filter (isFor i) = d'.queue.toList := List.filter_eq_self.mpr honly
  have hle := List.length_filter_le (isFor i) d.queue.toList
  rw [← h.queue, hself, Fifo.length_toList, Fifo.length_toList] at hle
  exact hle

theorem OnlyFor.perform (h : OnlyFor i d) (now : Instant) (op : Operation σ)
    (hown : ∀ s, op.session? = some s → s = session i) :
    OnlyFor i (d.perform now op).value.2 := by
  refine perform_keep h ?_ ?_ (fun _ _ => h) nofun ?_ (fun _ _ _ => h)
    (fun _ _ _ => h)
  · rintro j bytes command queue rfl hpush p hp
    change p ∈ queue.toList at hp
    rw [Fifo.toList_push hpush, List.mem_append, List.mem_singleton] at hp
    rcases hp with hp | rfl
    · exact h p hp
    · rw [hown _ rfl]
      exact (isFor_session d.addressable i i command).mpr rfl
  · intro e j he p hp
    exact he p ((turned_turn e now j).mem_queue hp)
  · intro e j he p hp
    rw [(prepared_prepareSlot e j).queue] at hp
    exact he p hp

theorem SameFor.store (h : SameFor i d d') {slot slot' : Slot σ} {waits waits' : Wait.Table m}
    (persistent persistent' : π) (hslot : slot' = slot)
    (hrecord : waits'.record? (session i) = waits.record? (session i)) :
    SameFor i (d.store i slot persistent waits) (d'.store i slot' persistent' waits') := by
  refine ⟨h.plugin, ?_, hrecord, h.queue⟩
  rw [slot_store, slot_store, hslot]

theorem sameFor_store_other (d : Dispatcher σ π n m) {j : Fin n} (hj : i ≠ j) (slot : Slot σ)
    (persistent : π) {waits : Wait.Table m}
    (hrecord : waits.record? (session i) = d.waits.record? (session i)) :
    SameFor i d (d.store j slot persistent waits) :=
  ⟨rfl, slot_store_other d slot persistent waits hj, hrecord, rfl⟩

theorem record?_cancel_session {waits : Wait.Table m} (hn : n ≤ 256) {j : Fin n} (hj : i ≠ j) :
    (waits.cancel (session j)).record? (session i) = waits.record? (session i) :=
  Wait.Table.record?_cancel_other waits fun e => hj (session_injective hn e)

end Relation

theorem SameFor.engage {d d' : Dispatcher σ π n m} (h : SameFor i d d') :
    (d'.engage i).1 = (d.engage i).1 ∧ SameFor i (d.engage i).2 (d'.engage i).2 := by
  have hengaged := engaged_engage d i
  have hengaged' := engaged_engage d' i
  have hsame : (d'.slot i).busy = (d.slot i).busy := congrArg Slot.busy h.slot
  have hqueued := h.queuedFor
  generalize d.engage i = x at hengaged
  generalize d'.engage i = x' at hengaged'
  cases hengaged with
  | inFlight hbusy =>
    cases hengaged' with
    | inFlight => exact ⟨rfl, h⟩
    | idle hbusy' => simp [hbusy, hbusy'] at hsame
    | started hbusy' => simp [hbusy, hbusy'] at hsame
  | idle hbusy hnone hqueue =>
    cases hengaged' with
    | inFlight hbusy' => simp [hbusy, hbusy'] at hsame
    | idle _ _ hqueue' =>
      refine ⟨rfl, h.plugin, h.slot, h.record, ?_⟩
      show List.filter _ (Fifo.toList _) = List.filter _ (Fifo.toList _)
      rw [hqueue, hqueue', h.queue]
    | started _ hnext' => simp [hnone, hnext'] at hqueued
  | @started command _ _ hbusy hnext hqueue =>
    cases hengaged' with
    | inFlight hbusy' => simp [hbusy, hbusy'] at hsame
    | idle _ hnone' => simp [hnext, hnone'] at hqueued
    | @started command' _ _ _ hnext' hqueue' =>
      rw [hnext, hnext'] at hqueued
      obtain ⟨rfl, -⟩ := List.cons.inj hqueued
      refine ⟨rfl, h.plugin, ?_, h.record, ?_⟩
      · rw [slot_started, slot_started, h.slot]
      · rw [queue_started, queue_started, hqueue, hqueue', filter_eraseP_self, filter_eraseP_self,
          h.queue]

/-! ### Turns -/

section Turns

variable {routine : Routine L C} {d d' : Dispatcher (Progress C) π n m}

theorem sameFor_turn_other (hruns : d.plugin.Runs routine) (now : Instant) {j : Fin n}
    (hj : i ≠ j) : SameFor i d (d.turn now j).2 := by
  have hturned := turned_turn d now j
  have hk : (session i).toNat ≠ j.val := by
    rw [session_toNat d.addressable]
    exact fun e => hj (Fin.ext e)
  exact ⟨hturned.plugin, hturned.slot_other hj, hturned.cell?_other hruns.contained hk,
    hturned.filter_other hj⟩

theorem SameFor.resumed (h : SameFor i d d') (routine : Routine L C) (now : Instant) :
    Routine.SameResult (session i) (d.resumed routine now i) (d'.resumed routine now i) := by
  have hcall : d'.callOf now i = d.callOf now i := by
    rw [callOf, callOf, h.slot]
  rw [Dispatcher.resumed, Dispatcher.resumed, hcall, h.slot]
  exact Routine.resume_same routine (d.callOf now i) ⟨rfl, rfl, h.record.symm⟩

theorem SameFor.run (h : SameFor i d d') (hruns : d.plugin.Runs routine) (now : Instant) :
    (d'.run now i).trace = (d.run now i).trace ∧ (d'.run now i).value.1 = (d.run now i).value.1 ∧
      SameFor i (d.run now i).value.2 (d'.run now i).value.2 := by
  have hruns' : d'.plugin.Runs routine := by
    rw [h.plugin]
    exact hruns
  have hsame := h.resumed routine now
  rcases hhandled : d.handled now i with ⟨trace, outcome, persistent, w⟩
  rcases hhandled' : d'.handled now i with ⟨trace', outcome', persistent', w'⟩
  rw [(resumed_of_handled hruns hhandled).1, (resumed_of_handled hruns' hhandled').1] at hsame
  obtain ⟨htrace, houtcome, hstate, hreply, hrecord⟩ := hsame
  change trace = trace' at htrace
  change outcome = outcome' at houtcome
  change w.state = w'.state at hstate
  change w.reply = w'.reply at hreply
  subst htrace houtcome
  rw [run_of_handled hhandled, run_of_handled hhandled', h.slot, ← hstate, ← hreply]
  cases outcome with
  | error fault =>
    refine ⟨rfl, rfl, h.store _ _ rfl ?_⟩
    rw [Wait.Table.record?_cancel, Wait.Table.record?_cancel]
  | ok status =>
    cases status with
    | waiting => exact ⟨rfl, rfl, h.store _ _ rfl hrecord.symm⟩
    | ok => exact ⟨rfl, rfl, h.store _ _ rfl hrecord.symm⟩

theorem SameFor.takeTurn (h : SameFor i d d') (hruns : d.plugin.Runs routine) (now : Instant)
    (admitted : Option Command) :
    (d'.takeTurn now i admitted).1 = (d.takeTurn now i admitted).1 ∧
      SameFor i (d.takeTurn now i admitted).2 (d'.takeTurn now i admitted).2 := by
  obtain ⟨htrace, hending, hafter⟩ := h.run hruns now
  have hcall : d'.callOf now i = d.callOf now i := by
    rw [callOf, callOf, h.slot]
  refine ⟨?_, hafter⟩
  rw [Dispatcher.takeTurn, Dispatcher.takeTurn, hcall, htrace, hending]

theorem SameFor.turn (h : SameFor i d d') (hruns : d.plugin.Runs routine) (now : Instant) :
    (d'.turn now i).1 = (d.turn now i).1 ∧ SameFor i (d.turn now i).2 (d'.turn now i).2 := by
  obtain ⟨hadmission, hafter⟩ := h.engage
  have hengaged := engaged_engage d i
  unfold Dispatcher.turn
  rcases hengage' : d'.engage i with ⟨admission', e'⟩
  rw [hengage'] at hadmission hafter
  generalize d.engage i = x at hengaged hadmission hafter
  cases hengaged with
  | inFlight =>
    cases hadmission
    obtain ⟨hturn, hsame⟩ := hafter.takeTurn hruns now none
    exact ⟨congrArg some hturn, hsame⟩
  | idle =>
    cases hadmission
    exact ⟨rfl, hafter⟩
  | @started command =>
    cases hadmission
    obtain ⟨hturn, hsame⟩ := hafter.takeTurn hruns now (some command)
    exact ⟨congrArg some hturn, hsame⟩

theorem SameFor.turns (h : SameFor i d d') (hruns : d.plugin.Runs routine) (now : Instant)
    (sessions : List (Fin n)) :
    (d'.turns now sessions).1.filter (·.session == session i) =
        (d.turns now sessions).1.filter (·.session == session i) ∧
      SameFor i (d.turns now sessions).2 (d'.turns now sessions).2 := by
  induction sessions generalizing d d' with
  | nil => exact ⟨rfl, h⟩
  | cons j rest ih =>
    have hturned := turned_turn d now j
    have hturned' := turned_turn d' now j
    have hruns' : d'.plugin.Runs routine := by
      rw [h.plugin]
      exact hruns
    have hkept : (d.turn now j).2.plugin.Runs routine := by
      rw [hturned.plugin]
      exact hruns
    rw [turns_cons, turns_cons, List.filter_append, List.filter_append]
    by_cases hj : i = j
    · subst hj
      obtain ⟨hturn, hsame⟩ := h.turn hruns now
      obtain ⟨hrest, hend⟩ := ih hsame hkept
      rw [hturn, hrest]
      exact ⟨rfl, hend⟩
    · have hsame : SameFor i (d.turn now j).2 (d'.turn now j).2 :=
        ((sameFor_turn_other hruns now hj).symm.trans h).trans (sameFor_turn_other hruns' now hj)
      obtain ⟨hrest, hend⟩ := ih hsame hkept
      rw [hturned.filter_session_other d.addressable hj,
        hturned'.filter_session_other d.addressable hj, hrest]
      exact ⟨rfl, hend⟩

theorem sameFor_turns_other (hruns : d.plugin.Runs routine) (now : Instant)
    (sessions : List (Fin n)) (hi : i ∉ sessions) :
    SameFor i d (d.turns now sessions).2 := by
  induction sessions generalizing d with
  | nil => exact SameFor.refl i d
  | cons j rest ih =>
    have hkept : (d.turn now j).2.plugin.Runs routine := by
      rw [(turned_turn d now j).plugin]
      exact hruns
    rw [turns_cons]
    exact (sameFor_turn_other hruns now (List.ne_of_not_mem_cons hi)).trans
      (ih hkept (List.not_mem_of_not_mem_cons hi))

/-- Among the turns of several sessions, each of which has one, a session has the turn that it
would have alone. -/
theorem turns_own (hruns : d.plugin.Runs routine) (now : Instant) (sessions : List (Fin n))
    (hnodup : sessions.Nodup) (hi : i ∈ sessions) :
    (d.turns now sessions).1.filter (·.session == session i) = (d.turn now i).1.toList ∧
      SameFor i (d.turn now i).2 (d.turns now sessions).2 := by
  induction sessions generalizing d with
  | nil => cases hi
  | cons j rest ih =>
    obtain ⟨hj, hrest⟩ := List.nodup_cons.mp hnodup
    have hturned := turned_turn d now j
    have hkept : (d.turn now j).2.plugin.Runs routine := by
      rw [hturned.plugin]
      exact hruns
    rw [turns_cons, List.filter_append]
    by_cases hij : i = j
    · subst hij
      rw [hturned.filter_session_own, filter_turns_other now hj, List.append_nil]
      exact ⟨rfl, sameFor_turns_other hkept now rest hj⟩
    · obtain ⟨hturn, hsame⟩ := (sameFor_turn_other hruns now hij).turn hruns now
      obtain ⟨hlater, hend⟩ := ih hkept hrest ((List.mem_cons.mp hi).resolve_left hij)
      rw [hturned.filter_session_other d.addressable hij, hlater, hturn]
      exact ⟨rfl, hsame.trans hend⟩

end Turns

/-! ### Interventions and resets -/

section Operations

variable {d d' : Dispatcher σ π n m}

theorem SameFor.abandon (h : SameFor i d d') :
    (d'.abandon (session i)).value.1 = (d.abandon (session i)).value.1 ∧
      SameFor i (d.abandon (session i)).value.2 (d'.abandon (session i)).value.2 := by
  unfold Dispatcher.abandon
  rw [index_session d.addressable]
  refine ⟨rfl, h.store _ _ (by rw [h.plugin]) ?_⟩
  exact (Wait.Table.record?_cancel _ _).trans (Wait.Table.record?_cancel _ _).symm

theorem SameFor.signal (h : SameFor i d d') (transfer : Transfer) :
    (d'.signal (session i) transfer).value.1 = (d.signal (session i) transfer).value.1 ∧
      SameFor i (d.signal (session i) transfer).value.2
        (d'.signal (session i) transfer).value.2 := by
  have hheard := Wait.Table.signal_fst d.waits (session i) transfer
  have hheard' := Wait.Table.signal_fst d'.waits (session i) transfer
  have hrecord := Wait.Table.record?_signal d.waits (session i) transfer
  have hrecord' := Wait.Table.record?_signal d'.waits (session i) transfer
  rw [h.record] at hheard' hrecord'
  unfold Dispatcher.signal
  rw [index_session d.addressable]
  exact ⟨congrArg Except.ok (hheard'.trans hheard.symm), h.plugin, h.slot,
    hrecord'.trans hrecord.symm, h.queue⟩

theorem SameFor.edit (h : SameFor i d d') (change : σ → σ) :
    (d'.edit (session i) change).1 = (d.edit (session i) change).1 ∧
      SameFor i (d.edit (session i) change).2 (d'.edit (session i) change).2 := by
  unfold Dispatcher.edit
  rw [index_session d.addressable]
  refine ⟨rfl, h.store _ _ ?_ h.record⟩
  rw [h.slot]

/-- A command that was queued is queued on the other side too, if that side holds no more. -/
theorem SameFor.submit (h : SameFor i d d') (hroom : d'.queue.length ≤ d.queue.length)
    (bytes : List UInt8) (hfull : (d.submit (session i) bytes).value.1 ≠ .error .queueFull) :
    (d'.submit (session i) bytes).value.1 = (d.submit (session i) bytes).value.1 ∧
      SameFor i (d.submit (session i) bytes).value.2 (d'.submit (session i) bytes).value.2 := by
  unfold Dispatcher.submit at hfull ⊢
  rw [index_session d.addressable] at hfull ⊢
  cases hbytes : Command.ofBytes? bytes with
  | none => exact ⟨rfl, h⟩
  | some command =>
    cases hpush : d.queue.push ⟨session i, command⟩ with
    | none =>
      simp only [hbytes, hpush] at hfull
      exact absurd rfl hfull
    | some queue =>
      have hlt : d.queue.length < queueCapacity := by
        have hle := Fifo.length_le_cap queue
        rw [Fifo.toList_push hpush, List.length_append, Fifo.length_toList] at hle
        exact hle
      obtain ⟨queue', hpush', hqueue'⟩ := Fifo.exists_push (q := d'.queue)
        (⟨session i, command⟩ : Pending) (Nat.lt_of_le_of_lt hroom hlt)
      simp only [hpush, hpush']
      refine ⟨rfl, h.plugin, h.slot, h.record, ?_⟩
      show List.filter _ queue'.toList = List.filter _ queue.toList
      rw [hqueue', Fifo.toList_push hpush, List.filter_append, List.filter_append, h.queue]

end Operations

/-! ### Preparation and reset, of plugins that keep nothing between sessions -/

section Prepare

variable {d d' : Dispatcher σ Unit n m}

theorem sameFor_prepareSlot_other {d : Dispatcher σ π n m} {j : Fin n} (hj : i ≠ j) :
    SameFor i d (d.prepareSlot j).value.2 := by
  have hprepared := prepared_prepareSlot d j
  generalize (d.prepareSlot j).value = x at hprepared
  cases hprepared with
  | ready =>
    exact sameFor_store_other d hj _ _ (record?_cancel_session d.addressable hj)
  | refused => exact sameFor_store_other d hj _ _ rfl

theorem sameFor_prepareSlots_other (sessions : List (Fin n)) (d : Dispatcher σ π n m)
    (hi : i ∉ sessions) : SameFor i d (d.prepareSlots sessions).value.2 := by
  induction sessions generalizing d with
  | nil => exact SameFor.refl i d
  | cons j rest ih =>
    have hfirst := sameFor_prepareSlot_other (d := d) (List.ne_of_not_mem_cons hi)
    rw [prepareSlots_cons]
    rcases hvalue : (d.prepareSlot j).value with ⟨ready, after⟩
    rw [hvalue] at hfirst
    cases ready with
    | error fault => exact hfirst
    | ok u => exact hfirst.trans (ih after (List.not_mem_of_not_mem_cons hi))

theorem SameFor.prepareSlot (h : SameFor i d d') (j : Fin n) :
    (d'.prepareSlot j).value.1 = (d.prepareSlot j).value.1 ∧
      SameFor i (d.prepareSlot j).value.2 (d'.prepareSlot j).value.2 := by
  have hprepared := prepared_prepareSlot d j
  have hprepared' := prepared_prepareSlot d' j
  have hother : i ≠ j → SameFor i (d.prepareSlot j).value.2 (d'.prepareSlot j).value.2 := by
    intro hj
    exact ((sameFor_prepareSlot_other hj).symm.trans h).trans (sameFor_prepareSlot_other hj)
  generalize (d.prepareSlot j).value = x at hprepared hother
  generalize (d'.prepareSlot j).value = x' at hprepared' hother
  cases hprepared with
  | ready hprepare =>
    cases hprepared' with
    | ready hprepare' =>
      rw [h.plugin, hprepare] at hprepare'
      cases hprepare'
      refine ⟨rfl, ?_⟩
      by_cases hj : i = j
      · subst hj
        refine h.store _ _ rfl ?_
        rw [Wait.Table.record?_cancel, Wait.Table.record?_cancel]
      · exact hother hj
    | refused hprepare' =>
      rw [h.plugin, hprepare] at hprepare'
      cases hprepare'
  | refused hprepare =>
    cases hprepared' with
    | ready hprepare' =>
      rw [h.plugin, hprepare] at hprepare'
      cases hprepare'
    | refused hprepare' =>
      rw [h.plugin, hprepare] at hprepare'
      cases hprepare'
      refine ⟨rfl, ?_⟩
      by_cases hj : i = j
      · subst hj
        exact h.store _ _ rfl h.record
      · exact hother hj

theorem SameFor.prepareSlots (h : SameFor i d d') (sessions : List (Fin n)) :
    (d'.prepareSlots sessions).value.1 = (d.prepareSlots sessions).value.1 ∧
      SameFor i (d.prepareSlots sessions).value.2 (d'.prepareSlots sessions).value.2 := by
  induction sessions generalizing d d' with
  | nil => exact ⟨rfl, h⟩
  | cons j rest ih =>
    obtain ⟨hready, hsame⟩ := h.prepareSlot j
    rw [prepareSlots_cons, prepareSlots_cons]
    rcases hvalue : (d.prepareSlot j).value with ⟨ready, after⟩
    rcases hvalue' : (d'.prepareSlot j).value with ⟨ready', after'⟩
    rw [hvalue, hvalue'] at hready hsame
    change ready' = ready at hready
    subst hready
    cases ready' with
    | error fault => exact ⟨rfl, hsame⟩
    | ok u => exact ih hsame

theorem SameFor.reset (h : SameFor i d d') :
    d'.reset.value.1 = d.reset.value.1 ∧ SameFor i d.reset.value.2 d'.reset.value.2 := by
  have hempty : SameFor i d.emptied d'.emptied := ⟨h.plugin, h.slot, h.record, rfl⟩
  exact hempty.prepareSlots (List.finRange n)

end Prepare

/-! ### One operation -/

section Perform

variable {routine : Routine L C} {d d' : Dispatcher (Progress C) Unit n m}

theorem sameFor_perform_other {d : Dispatcher (Progress C) π n m}
    (hruns : d.plugin.Runs routine) (now : Instant) (op : Operation (Progress C))
    {s : SessionId} (hs : op.session? = some s) (hother : s ≠ session i) :
    SameFor i d (d.perform now op).value.2 := by
  have hne : ∀ {j : Fin n}, s = session j → i ≠ j := by
    rintro j rfl rfl
    exact hother rfl
  cases op with
  | submit s' bytes =>
    cases hs
    show SameFor i d (d.submit s bytes).value.2
    rcases submit_cases d s bytes with ⟨e, hvalue⟩ | ⟨j, command, queue, hj, _, hpush, hvalue⟩
    · rw [hvalue]
      exact SameFor.refl i d
    · rw [hvalue]
      refine ⟨rfl, rfl, rfl, ?_⟩
      have hnot : ¬ isFor i ⟨s, command⟩ = true := by
        rw [hj, isFor_session d.addressable]
        exact fun e => hne hj e.symm
      show List.filter _ queue.toList = _
      rw [Fifo.toList_push hpush, List.filter_append, List.filter_cons_of_neg hnot]
      exact List.append_nil _
  | poll s' =>
    cases hs
    show SameFor i d (d.poll now s).value.2
    rcases poll_cases d now s with hvalue | ⟨j, hj, hvalue⟩
    · rw [hvalue]
      exact SameFor.refl i d
    · rw [hvalue]
      exact sameFor_turn_other hruns now (hne hj)
  | tick => cases hs
  | abandon s' =>
    cases hs
    show SameFor i d (d.abandon s).value.2
    rcases abandon_cases d s with hvalue | ⟨j, hj, hvalue⟩
    · rw [hvalue]
      exact SameFor.refl i d
    · rw [hvalue]
      refine sameFor_store_other d (hne hj) _ _ ?_
      rw [hj]
      exact record?_cancel_session d.addressable (hne hj)
  | reset => cases hs
  | signal s' transfer =>
    cases hs
    show SameFor i d (d.signal s transfer).value.2
    rcases signal_cases d s transfer with hvalue | ⟨j, hj, hvalue⟩
    · rw [hvalue]
      exact SameFor.refl i d
    · rw [hvalue]
      exact ⟨rfl, rfl, Wait.Table.record?_signal_other d.waits transfer (Ne.symm hother), rfl⟩
  | edit s' change =>
    cases hs
    show SameFor i d (d.edit s change).2
    unfold Dispatcher.edit
    rcases index_cases n s with ⟨j, hj, hindex⟩ | ⟨_, hindex⟩
    · rw [hindex]
      exact sameFor_store_other d (hne hj) _ d.persistent rfl
    · rw [hindex]
      exact SameFor.refl i d

theorem SameFor.perform (h : SameFor i d d') (honly : OnlyFor i d')
    (hruns : d.plugin.Runs routine) (now : Instant) (op : Operation (Progress C))
    (hown : ∀ s, op.session? = some s → s = session i)
    (hfull : (d.perform now op).value.1 ≠ .submitted (.error .queueFull)) :
    (d'.perform now op).value.1.own i = (d.perform now op).value.1.own i ∧
      SameFor i (d.perform now op).value.2 (d'.perform now op).value.2 := by
  cases op with
  | submit s bytes =>
    obtain rfl := hown s rfl
    have hroom := h.length_le honly
    obtain ⟨hanswer, hsame⟩ := h.submit hroom bytes fun e => hfull (congrArg Answer.submitted e)
    exact ⟨congrArg Answer.submitted hanswer, hsame⟩
  | poll s =>
    obtain rfl := hown s rfl
    obtain ⟨hturn, hsame⟩ := h.turn hruns now
    have hpoll := poll_session d now i
    have hpoll' := poll_session d' now i
    show Answer.polled (d'.poll now (session i)).value.1 =
        Answer.polled (d.poll now (session i)).value.1 ∧
      SameFor i (d.poll now (session i)).value.2 (d'.poll now (session i)).value.2
    rw [hpoll, hpoll', hturn]
    exact ⟨rfl, hsame⟩
  | tick =>
    obtain ⟨hturns, hsame⟩ := h.turns hruns now (List.finRange n)
    exact ⟨congrArg Answer.ticked hturns, hsame⟩
  | abandon s =>
    obtain rfl := hown s rfl
    obtain ⟨hanswer, hsame⟩ := h.abandon
    exact ⟨congrArg Answer.abandoned hanswer, hsame⟩
  | reset =>
    obtain ⟨hanswer, hsame⟩ := h.reset
    exact ⟨congrArg Answer.wasReset hanswer, hsame⟩
  | signal s transfer =>
    obtain rfl := hown s rfl
    obtain ⟨hanswer, hsame⟩ := h.signal transfer
    exact ⟨congrArg Answer.signalled hanswer, hsame⟩
  | edit s change =>
    obtain rfl := hown s rfl
    obtain ⟨hanswer, hsame⟩ := h.edit change
    exact ⟨congrArg Answer.edited hanswer, hsame⟩

end Perform

/-! ### What holds of each session -/

section Each

variable {routine : Routine L C} {P : Slot (Progress C) → Option Wait.Record → Prop}
  {d e : Dispatcher (Progress C) π n m}

/-- Every session, with its slot and its wait, is as the predicate says. -/
def Each (P : Slot σ → Option Wait.Record → Prop) (d : Dispatcher σ π n m) : Prop :=
  ∀ i, P (d.slot i) (d.waits.record? (session i))

theorem Each.change {P : Slot σ → Option Wait.Record → Prop} {d e : Dispatcher σ π n m}
    (h : Each P d) (i : Fin n) (hother : ∀ j, j ≠ i → SameFor j d e)
    (hi : P (e.slot i) (e.waits.record? (session i))) : Each P e := by
  intro j
  by_cases hj : j = i
  · subst hj
    exact hi
  · rw [(hother j hj).slot, (hother j hj).record]
    exact h j

omit [Inhabited C] in
theorem blank_store (hblank : ∀ state, state.resumePoint = 0 → P (.blank state) none)
    (d : Dispatcher (Progress C) π n m) (i : Fin n) {state : Progress C}
    (hpoint : state.resumePoint = 0) (persistent : π) :
    let e := d.store i (Slot.blank state) persistent (d.waits.cancel (session i))
    P (e.slot i) (e.waits.record? (session i)) := by
  have hnone := Wait.Table.record?_cancel d.waits (session i)
  intro e
  change P (e.slot i) ((d.waits.cancel (session i)).record? (session i))
  rw [slot_store, hnone]
  exact hblank state hpoint

omit [Inhabited C] in
theorem Each.clear (h : Each P d) (hblank : ∀ state, state.resumePoint = 0 → P (.blank state) none)
    (i : Fin n) {state : Progress C} (hpoint : state.resumePoint = 0) (persistent : π) :
    Each P (d.store i (Slot.blank state) persistent (d.waits.cancel (session i))) := by
  refine h.change i ?_ (blank_store hblank d i hpoint persistent)
  intro j hj
  exact sameFor_store_other d hj _ _ (record?_cancel_session d.addressable hj)

/-- What holds of a blank session without a wait, and is kept by turns and signals of the session
itself, holds of each session after every operation but the change of a stored state. -/
theorem Each.perform (h : Each P d) (hruns : d.plugin.Runs routine) (now : Instant)
    (hturn : ∀ (e : Dispatcher (Progress C) π n m) i, e.plugin.Runs routine →
      P (e.slot i) (e.waits.record? (session i)) →
      P ((e.turn now i).2.slot i) ((e.turn now i).2.waits.record? (session i)))
    (hblank : ∀ state, state.resumePoint = 0 → P (.blank state) none)
    (hsignal : ∀ slot record transfer, P slot record →
      P slot (record.map (Wait.Record.signalled transfer)))
    {op : Operation (Progress C)} (hop : (Happening.operate op).isEdit = false) :
    Each P (d.perform now op).value.2 := by
  suffices hkept : (d.perform now op).value.2.plugin.Runs routine ∧
      Each P (d.perform now op).value.2 from hkept.2
  refine perform_keep (P := fun e => e.plugin.Runs routine ∧ Each P e) ⟨hruns, h⟩ ?_ ?_ ?_ ?_ ?_
    ?_ ?_
  · intro i bytes command queue _ _
    exact ⟨hruns, h⟩
  · rintro e i ⟨hruns', he⟩
    have hturned := turned_turn e now i
    refine ⟨by rw [hturned.plugin]; exact hruns', he.change i ?_ (hturn e i hruns' (he i))⟩
    intro j hj
    exact sameFor_turn_other hruns' now hj
  · intro i _
    exact ⟨hruns, h.clear hblank i hruns.blank d.persistent⟩
  · exact ⟨hruns, h⟩
  · rintro e i ⟨hruns', he⟩
    obtain ⟨persistent, state, hpoint, hvalue⟩ := prepareSlot_of_runs hruns' i
    rw [hvalue]
    exact ⟨hruns', he.clear hblank i hpoint persistent⟩
  · intro i transfer _
    refine ⟨hruns, h.change i ?_ ?_⟩
    · intro j hj
      have hsession : session j ≠ session i := fun hs => hj (session_injective d.addressable hs)
      exact ⟨rfl, rfl, Wait.Table.record?_signal_other d.waits transfer hsession, rfl⟩
    · change P (d.slot i) ((d.waits.signal (session i) transfer).2.record? (session i))
      rw [Wait.Table.record?_signal]
      exact hsignal _ _ transfer (h i)
  · rintro i change rfl
    cases hop

theorem each_prepareSlots (hblank : ∀ state, state.resumePoint = 0 → P (.blank state) none)
    (sessions : List (Fin n)) (d : Dispatcher (Progress C) π n m)
    (hruns : d.plugin.Runs routine)
    (h : ∀ i, i ∉ sessions → P (d.slot i) (d.waits.record? (session i))) :
    Each P (d.prepareSlots sessions).value.2 := by
  induction sessions generalizing d with
  | nil =>
    intro i
    exact h i List.not_mem_nil
  | cons j rest ih =>
    obtain ⟨persistent, state, hpoint, hvalue⟩ := prepareSlot_of_runs hruns j
    rw [prepareSlots_cons, hvalue]
    refine ih _ hruns ?_
    intro i hi
    by_cases hij : i = j
    · subst hij
      exact blank_store hblank d i hpoint persistent
    · have hsame := sameFor_store_other d hij (Slot.blank state) persistent
        (record?_cancel_session d.addressable hij)
      rw [hsame.slot, hsame.record]
      exact h i fun hmem => (List.mem_cons.mp hmem).elim hij hi

/-- Registration makes every session blank, whatever the table held. -/
theorem each_of_register {plugin : Plugin (Progress C) π} {waits : Wait.Table m}
    (hruns : plugin.Runs routine)
    (hblank : ∀ state, state.resumePoint = 0 → P (.blank state) none)
    (h : (register plugin n waits).value = .ok d) : Each P d := by
  obtain ⟨blank, hplugin, -, -, -, -, hvalue⟩ := prepared_of_register h
  have heach := each_prepareSlots hblank (List.finRange n) blank (hplugin ▸ hruns)
    fun i hi => absurd (List.mem_finRange i) hi
  rw [hvalue] at heach
  exact heach

end Each

end Dispatcher

/-! ### Runs -/

section Runs

variable {L C σ π : Type} [DecidableEq L] [Label L] [Inhabited C] {n m : Nat} {i : Fin n}

def Answer.isQueueFull : Answer → Bool
  | .submitted (.error .queueFull) => true
  | _ => false

/-- Whether a moment concerns the session in a slot: it happens to that session or to none in
particular, and is not a command that found the queue full. -/
def Moment.concerns (i : Fin n) (x : Moment σ π n m) : Bool :=
  x.happening.session?.all (· == Dispatcher.session i) && !x.answer.any Answer.isQueueFull

/-- What one session sees of a moment. -/
structure Seen (σ : Type) where
  answer : Option Answer
  /-- The pins that were operated in its turns. -/
  driven : List PinOp
  slot : Slot σ
  record : Option Wait.Record

def Moment.seenBy (i : Fin n) (x : Moment σ π n m) : Seen σ where
  answer := x.answer.map (Answer.own i)
  driven := ((x.answer.toList.flatMap fun a => (a.own i).turns).flatMap (·.handling)).filterMap
    Effect.pinOp?
  slot := x.after.dispatcher.slot i
  record := x.after.dispatcher.waits.record? (Dispatcher.session i)

/-- What remains of a run when all that does not concern a session is struck out. -/
def Device.purged (i : Fin n) (x : Device σ π n m) (happenings : List (Happening σ)) :
    List (Happening σ) :=
  ((x.run happenings).filter (Moment.concerns i)).map (·.happening)

/-- Two devices that go on alike for one session, the second with nothing queued for others. -/
structure Device.Alike (i : Fin n) (x y : Device σ π n m) : Prop where
  now : y.now = x.now
  same : Dispatcher.SameFor i x.dispatcher y.dispatcher
  only : Dispatcher.OnlyFor i y.dispatcher

theorem Moment.seenBy_eq {x y : Moment σ π n m}
    (hanswer : y.answer.map (Answer.own i) = x.answer.map (Answer.own i))
    (hsame : Dispatcher.SameFor i x.after.dispatcher y.after.dispatcher) :
    y.seenBy i = x.seenBy i := by
  have hturns : (y.answer.toList.flatMap fun a => (a.own i).turns) =
      x.answer.toList.flatMap fun a => (a.own i).turns := by
    have hboth := congrArg (fun a => a.toList.flatMap Answer.turns) hanswer
    simpa [Option.toList_map, List.flatMap_map] using hboth
  rw [seenBy, seenBy, hanswer, hturns, hsame.slot, hsame.record]

theorem Operation.own_or_other (op : Operation σ) (i : Fin n) :
    (∀ s, op.session? = some s → s = Dispatcher.session i) ∨
      ∃ s, op.session? = some s ∧ s ≠ Dispatcher.session i := by
  cases hs : op.session? with
  | none => exact .inl nofun
  | some s =>
    by_cases hown : s = Dispatcher.session i
    · subst hown
      refine .inl ?_
      rintro s ⟨rfl⟩
      rfl
    · exact .inr ⟨s, rfl, hown⟩

theorem Device.alike_of_register {plugin : Plugin σ π} {waits : Wait.Table m}
    {d : Dispatcher σ π n m} (h : (Dispatcher.register plugin n waits).value = .ok d)
    (start : Instant) (i : Fin n) : Alike i ⟨start, d⟩ ⟨start, d⟩ := by
  refine ⟨rfl, Dispatcher.SameFor.refl i d, ?_⟩
  intro p hp
  rw [(Dispatcher.idle_of_register h).2.1] at hp
  cases hp

section Step

variable {routine : Routine L C} {x y : Device (Progress C) Unit n m}

theorem Device.Alike.meet (hxy : Alike i x y) (hruns : x.dispatcher.plugin.Runs routine)
    {h : Happening (Progress C)} (hconcerns : (x.meet h).concerns i = true) :
    (y.meet h).seenBy i = (x.meet h).seenBy i ∧ Alike i (x.meet h).after (y.meet h).after := by
  obtain ⟨now, d⟩ := x
  obtain ⟨now', d'⟩ := y
  obtain ⟨hnow, hsame, honly⟩ := hxy
  change now' = now at hnow
  subst hnow
  cases h with
  | advance length => exact ⟨Moment.seenBy_eq rfl hsame, rfl, hsame, honly⟩
  | operate op =>
    simp only [Moment.concerns, Device.meet, Bool.and_eq_true, Bool.not_eq_true',
      Option.all_eq_true, beq_iff_eq, Option.any_some] at hconcerns
    obtain ⟨hown, hroom⟩ := hconcerns
    have hfull : (d.perform now' op).value.1 ≠ .submitted (.error .queueFull) := by
      intro hanswer
      rw [hanswer] at hroom
      cases hroom
    obtain ⟨hanswer, hafter⟩ := hsame.perform honly hruns now' op hown hfull
    exact ⟨Moment.seenBy_eq (congrArg some hanswer) hafter, rfl, hafter,
      honly.perform now' op hown⟩

theorem Device.Alike.skip (hxy : Alike i x y) (hruns : x.dispatcher.plugin.Runs routine)
    {h : Happening (Progress C)} (hconcerns : ¬ (x.meet h).concerns i = true) :
    Alike i (x.meet h).after y := by
  cases h with
  | advance length => simp [Moment.concerns, Happening.session?, Device.meet] at hconcerns
  | operate op =>
    have hsame : Dispatcher.SameFor i x.dispatcher (x.dispatcher.perform x.now op).value.2 := by
      rcases op.own_or_other i with hown | ⟨s, hs, hother⟩
      · -- The operation is about this session, so it is a command that was refused.
        have hfull : (x.dispatcher.perform x.now op).value.1.isQueueFull = true := by
          simp only [Moment.concerns, Device.meet, Bool.and_eq_true, Bool.not_eq_true',
            Option.all_eq_true, beq_iff_eq, Option.any_some, not_and] at hconcerns
          simpa using hconcerns hown
        cases op with
        | submit s bytes =>
          rcases Dispatcher.submit_cases x.dispatcher s bytes with
            ⟨e, hvalue⟩ | ⟨_, _, _, _, _, _, hvalue⟩
          · show Dispatcher.SameFor i x.dispatcher (x.dispatcher.submit s bytes).value.2
            rw [hvalue]
            exact Dispatcher.SameFor.refl i x.dispatcher
          · change (Answer.submitted (x.dispatcher.submit s bytes).value.1).isQueueFull = true
              at hfull
            rw [hvalue] at hfull
            cases hfull
        | poll s => cases hfull
        | tick => cases hfull
        | abandon s => cases hfull
        | reset => cases hfull
        | signal s transfer => cases hfull
        | edit s change => cases hfull
      · exact Dispatcher.sameFor_perform_other hruns x.now op hs hother
    exact ⟨hxy.now, hsame.symm.trans hxy.same, hxy.only⟩

/-- A run and its purged form are seen alike, moment by moment. -/
theorem Device.Alike.run (hxy : Alike i x y) (hruns : x.dispatcher.plugin.Runs routine)
    (happenings : List (Happening (Progress C))) :
    ((x.run happenings).filter (Moment.concerns i)).map (Moment.seenBy i) =
      (y.run (x.purged i happenings)).map (Moment.seenBy i) := by
  induction happenings generalizing x y with
  | nil => rfl
  | cons h rest ih =>
    have hkept : (x.meet h).after.dispatcher.plugin.Runs routine := by
      rw [meet_plugin]
      exact hruns
    show ((x.meet h :: (x.meet h).after.run rest).filter _).map _ =
      (y.run (((x.meet h :: (x.meet h).after.run rest).filter _).map _)).map _
    by_cases hconcerns : (x.meet h).concerns i = true
    · obtain ⟨hseen, hafter⟩ := hxy.meet hruns hconcerns
      rw [List.filter_cons_of_pos hconcerns, List.map_cons, List.map_cons, meet_happening,
        Device.run, List.map_cons, hseen, ih hafter hkept]
      rfl
    · rw [List.filter_cons_of_neg hconcerns]
      exact ih (hxy.skip hruns hconcerns) hkept

end Step

/-- What a session sees of a run does not depend on the other sessions: it sees the same, in
answers, pins, stored state and wait, when all that concerns only others is struck out. -/
theorem sessions_are_isolated (pin : PinId) :
    (∀ {n m : Nat} {waits : Wait.Table m} {d : Dispatcher (Progress Blink.Counters) Unit n m}
        (start : Instant) (happenings : List (Happening (Progress Blink.Counters))) (i : Fin n),
      (Dispatcher.register (Blink.plugin pin) n waits).value = .ok d →
      let x : Device (Progress Blink.Counters) Unit n m := ⟨start, d⟩
      ((x.run happenings).filter (Moment.concerns i)).map (Moment.seenBy i) =
        (x.run (x.purged i happenings)).map (Moment.seenBy i)) ∧
    (∀ {n m : Nat} {waits : Wait.Table m} {d : Dispatcher (Progress Ramp.Counters) Unit n m}
        (start : Instant) (happenings : List (Happening (Progress Ramp.Counters))) (i : Fin n),
      (Dispatcher.register (Ramp.plugin pin) n waits).value = .ok d →
      let x : Device (Progress Ramp.Counters) Unit n m := ⟨start, d⟩
      ((x.run happenings).filter (Moment.concerns i)).map (Moment.seenBy i) =
        (x.run (x.purged i happenings)).map (Moment.seenBy i)) := by
  refine ⟨?_, ?_⟩
  · intro n m waits d start happenings i hregister x
    have hruns : d.plugin.Runs (Blink.routine pin) := by
      rw [(Dispatcher.idle_of_register hregister).1]
      exact Blink.plugin_runs pin
    exact (Device.alike_of_register hregister start i).run hruns happenings
  · intro n m waits d start happenings i hregister x
    have hruns : d.plugin.Runs (Ramp.routine pin) := by
      rw [(Dispatcher.idle_of_register hregister).1]
      exact Ramp.plugin_runs pin
    exact (Device.alike_of_register hregister start i).run hruns happenings

/-- Session 0 is given a command and a stray resume point between the turns of session 1. -/
theorem sessions_are_isolated_pair :
    (∃ d : Dispatcher (Progress Blink.Counters) Unit 2 2,
      (Dispatcher.register (Blink.plugin 8) 2 Wait.Table.empty).value = .ok d ∧
      let x : Device (Progress Blink.Counters) Unit 2 2 := ⟨0, d⟩
      let happenings : List (Happening (Progress Blink.Counters)) :=
        [.operate (.submit 0 [1, 5, 0]), .operate (.submit 1 [1, 10, 0]), .operate .tick,
          .operate (.edit 0 fun p => { p with resumePoint := 77 }), .advance 10000,
          .operate .tick]
      (x.purged 1 happenings).length = 4 ∧
      ((x.run happenings).filter (Moment.concerns 1)).map (Moment.seenBy 1) =
        (x.run (x.purged 1 happenings)).map (Moment.seenBy 1)) ∧
    ∃ d : Dispatcher (Progress Ramp.Counters) Unit 2 2,
      (Dispatcher.register (Ramp.plugin 8) 2 Wait.Table.empty).value = .ok d ∧
      let x : Device (Progress Ramp.Counters) Unit 2 2 := ⟨0, d⟩
      let happenings : List (Happening (Progress Ramp.Counters)) :=
        [.operate (.submit 0 [1, 5, 0]), .operate (.submit 1 [1, 10, 0]), .operate .tick,
          .operate (.abandon 0), .operate (.poll 1)]
      (x.purged 1 happenings).length = 3 ∧
      ((x.run happenings).filter (Moment.concerns 1)).map (Moment.seenBy 1) =
        (x.run (x.purged 1 happenings)).map (Moment.seenBy 1) := by
  refine ⟨⟨_, rfl, ?_⟩, ⟨_, rfl, ?_⟩⟩
  · intro x happenings
    have hregister : (Dispatcher.register (Blink.plugin 8) 2
        (Wait.Table.empty : Wait.Table 2)).value = .ok _ := rfl
    exact ⟨by decide, (sessions_are_isolated 8).1 0 happenings 1 hregister⟩
  · intro x happenings
    have hregister : (Dispatcher.register (Ramp.plugin 8) 2
        (Wait.Table.empty : Wait.Table 2)).value = .ok _ := rfl
    exact ⟨by decide, (sessions_are_isolated 8).2 0 happenings 1 hregister⟩

end Runs

end Resumable
