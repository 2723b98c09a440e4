import Resumable.Proofs.Coherence
import Resumable.Proofs.Signals
import Resumable.Proofs.Tally
import Resumable.Proofs.Workload

/-!
# Turns that do something

A session is ready when a turn would do something for it: it is idle and a command is queued for
it, or the time that it waits for is over. What follows is about plugins whose sessions wait for
nothing but time (`Plugin.Paced`): the turn of a session that is not ready leaves everything as it
was, and the turn of one that is ready leaves it with less to do. Blink, ramp and latch are of this
kind, each with an invariant of its own.

A registration cancels the waits of its sessions only, and no operation reaches the other records of
the table. A deadline among them would stay when it is past, and be the earliest one from then on.
So nothing may be timed past the contexts of the sessions (`Wait.Table.UntimedFrom`) in the table
that a dispatcher is registered over. An empty table is one case.
-/

namespace Resumable

variable {σ π : Type} {n m : Nat}

/-- No record from this context on is a deadline. -/
def Wait.Table.UntimedFrom (n : Nat) (t : Wait.Table m) : Prop :=
  ∀ k deadline, n ≤ k → t.cell? k ≠ some (.deadline deadline)

theorem Wait.Table.untimedFrom_empty (n : Nat) :
    (Wait.Table.empty : Wait.Table m).UntimedFrom n := by
  intro k deadline _
  rw [cell?_empty]
  exact nofun

/-- The turn neither operated a pin nor ended a command. -/
structure Turn.Idle (t : Turn) : Prop where
  ending : t.ending = none
  driven : t.handling.filterMap Effect.pinOp? = []

namespace Dispatcher

variable {d e : Dispatcher σ π n m} {now : Instant} {i j : Fin n}

def ready (d : Dispatcher σ π n m) (now : Instant) (i : Fin n) : Bool :=
  if (d.slot i).busy then !d.waits.isWaiting now (session i) else !(d.queuedFor i).isEmpty

/-- What a session has left to do, with the commands that are queued for it. -/
def load (left : σ → Nat) (most : Nat) (d : Dispatcher σ π n m) (i : Fin n) : Nat :=
  (d.slot i).load left + (most + 1) * (d.queuedFor i).length

/-- Busy sessions wait for a time, idle ones for nothing, and nobody else waits for a time. -/
structure Timed (d : Dispatcher σ π n m) : Prop where
  busy : ∀ i, (d.slot i).busy = true →
    ∃ deadline, d.waits.record? (session i) = some (.deadline deadline)
  idle : ∀ i, (d.slot i).busy = false → d.waits.record? (session i) = none
  untimed : d.waits.UntimedFrom n
  addressed : ∀ p ∈ d.queue.toList, p.session.toNat < n

/-- All that is stored is as it was. The ring of the queue may have turned. -/
structure Same (d e : Dispatcher σ π n m) : Prop where
  slot : ∀ i, e.slot i = d.slot i
  waits : e.waits = d.waits
  queue : e.queue.toList = d.queue.toList

theorem Same.trans {f : Dispatcher σ π n m} (h : Same d e) (h' : Same e f) : Same d f :=
  ⟨fun i => (h'.slot i).trans (h.slot i), h'.waits.trans h.waits, h'.queue.trans h.queue⟩

theorem ready_eq (hslot : e.slot i = d.slot i)
    (hrecord : e.waits.record? (session i) = d.waits.record? (session i))
    (hqueued : e.queuedFor i = d.queuedFor i) : e.ready now i = d.ready now i := by
  have hwaiting : e.waits.isWaiting now (session i) = d.waits.isWaiting now (session i) := by
    rw [Wait.Table.isWaiting, Wait.Table.isWaiting, hrecord]
  rw [ready, ready, hslot, hqueued, hwaiting]

theorem Same.ready_eq (h : Same d e) (now : Instant) (i : Fin n) :
    e.ready now i = d.ready now i := by
  have hqueued : e.queuedFor i = d.queuedFor i := queuedFor_eq (by rw [h.queue])
  exact Dispatcher.ready_eq (h.slot i) (by rw [h.waits]) hqueued

theorem Same.load_eq (h : Same d e) (left : σ → Nat) (most : Nat) (i : Fin n) :
    e.load left most i = d.load left most i := by
  have hqueued : e.queuedFor i = d.queuedFor i := queuedFor_eq (by rw [h.queue])
  rw [load, load, h.slot, hqueued]

theorem load_turn_other (left : σ → Nat) (most : Nat) (d : Dispatcher σ π n m) (now : Instant)
    (hj : j ≠ i) : (d.turn now i).2.load left most j = d.load left most j := by
  have hturned := turned_turn d now i
  rw [load, load, hturned.slot_other hj, queuedFor_eq (hturned.filter_other hj)]

theorem turn_of_unqueued (now : Instant) (hbusy : (d.slot i).busy = false)
    (hnone : d.queuedFor i = []) :
    (d.turn now i).1 = none ∧ d.Same (d.turn now i).2 := by
  have hturned := turned_turn d now i
  generalize d.turn now i = y at hturned
  cases hturned with
  | idle _ _ hqueue => exact ⟨rfl, fun _ => rfl, rfl, hqueue⟩
  | continued hbusy' =>
    rw [hbusy] at hbusy'
    cases hbusy'
  | begun _ hnext =>
    rw [hnone] at hnext
    cases hnext

/-- The first command that is queued leaves the queue when it is admitted. -/
theorem load_begun {command : Command} {rest : List Command} {queue : Fifo Pending queueCapacity}
    {x : Traced Effect (Option Ending × Dispatcher σ π n m)} {left : σ → Nat} {most : Nat}
    (hnext : d.queuedFor i = command :: rest)
    (hqueue : queue.toList = d.queue.toList.eraseP (isFor i))
    (hserved : Served (d.started i command queue) now i x)
    (hload : (x.value.2.slot i).load left ≤ most) :
    x.value.2.load left most i < d.load left most i := by
  have hafter : x.value.2.queuedFor i = rest := by
    rw [queuedFor, hserved.queue, queue_started, hqueue, filter_eraseP_self, List.map_tail]
    change (d.queuedFor i).tail = rest
    rw [hnext, List.tail_cons]
  rw [load, load, hafter, hnext, List.length_cons, Nat.mul_succ]
  omega

/-! ### What every operation keeps -/

theorem untimed_perform (hcontained : d.plugin.Contained) (now : Instant) (op : Operation σ)
    (h : d.waits.UntimedFrom n) : (d.perform now op).value.2.waits.UntimedFrom n := by
  intro k deadline hk
  rw [cell?_perform_past hcontained now op hk]
  exact h k deadline hk

theorem untimed_of_register {plugin : Plugin σ π} {waits : Wait.Table m}
    (huntimed : waits.UntimedFrom n) (h : (register plugin n waits).value = .ok d) :
    d.waits.UntimedFrom n := by
  intro k deadline hk
  rw [cell?_register_past h hk]
  exact huntimed k deadline hk

theorem addressed_of_register {plugin : Plugin σ π} {waits : Wait.Table m}
    (h : (register plugin n waits).value = .ok d) : ∀ p ∈ d.queue.toList, p.session.toNat < n := by
  rw [(idle_of_register h).2.1]
  exact nofun

theorem addressed_perform (now : Instant) (op : Operation σ)
    (h : ∀ p ∈ d.queue.toList, p.session.toNat < n) :
    ∀ p ∈ (d.perform now op).value.2.queue.toList, p.session.toNat < n := by
  refine perform_keep (P := fun e => ∀ p ∈ e.queue.toList, p.session.toNat < n) h ?_ ?_ ?_ nofun
    ?_ ?_ ?_
  · intro i bytes command queue _ hpush p hp
    rw [Fifo.toList_push hpush, List.mem_append, List.mem_singleton] at hp
    rcases hp with hp | rfl
    · exact h p hp
    · rw [session_toNat d.addressable]
      exact i.isLt
  · intro e i he p hp
    exact he p ((turned_turn e now i).mem_queue hp)
  · intro i _
    exact h
  · intro e i he p hp
    rw [(prepared_prepareSlot e i).queue] at hp
    exact he p hp
  · intro i transfer _
    exact h
  · intro i change _
    exact h

end Dispatcher

/-- The sessions of the plugin wait for nothing but time, and have less to do after every turn that
does something. The invariant holds after a registration over a table that times nothing past the
sessions, and is kept by all operations but the change of a stored state. -/
structure Plugin.Paced (plugin : Plugin σ π) (Inv : Dispatcher σ π n m → Prop) (left : σ → Nat)
    (most : Nat) : Prop where
  registered : ∀ (waits : Wait.Table m) d, waits.UntimedFrom n →
    (Dispatcher.register plugin n waits).value = .ok d → Inv d
  perform : ∀ d now op, (Happening.operate op).isEdit = false → Inv d →
    Inv (d.perform now op).value.2
  timed : ∀ d, Inv d → d.Timed
  frame : ∀ d now i j, Inv d → j ≠ i → (d.turn now i).2.waits.record? (Dispatcher.session j) =
    d.waits.record? (Dispatcher.session j)
  rests : ∀ d now i, Inv d → d.ready now i = false →
    (∀ t ∈ (d.turn now i).1, t.Idle) ∧ d.Same (d.turn now i).2
  works : ∀ d now i, Inv d → d.ready now i = true →
    (d.turn now i).2.load left most i < d.load left most i

namespace Plugin.Paced

open Dispatcher

variable {plugin : Plugin σ π} {Inv : Dispatcher σ π n m → Prop} {left : σ → Nat} {most : Nat}
  {d : Dispatcher σ π n m}

theorem turn (h : plugin.Paced Inv left most) (now : Instant) (i : Fin n) (hd : Inv d) :
    Inv (d.turn now i).2 := by
  have hpoll := h.perform d now (.poll (session i)) rfl hd
  change Inv (d.poll now (session i)).value.2 at hpoll
  rw [poll_session] at hpoll
  exact hpoll

theorem ready_turn_other (h : plugin.Paced Inv left most) (now : Instant) {i j : Fin n}
    (hd : Inv d) (hj : j ≠ i) : (d.turn now i).2.ready now j = d.ready now j := by
  have hturned := turned_turn d now i
  exact ready_eq (hturned.slot_other hj) (h.frame d now i j hd hj)
    (queuedFor_eq (hturned.filter_other hj))

theorem load_turn_le (h : plugin.Paced Inv left most) (now : Instant) (i j : Fin n)
    (hd : Inv d) : (d.turn now i).2.load left most j ≤ d.load left most j := by
  by_cases hj : j = i
  · subst hj
    cases hready : d.ready now j with
    | false => exact Nat.le_of_eq ((h.rests d now j hd hready).2.load_eq left most j)
    | true => exact Nat.le_of_lt (h.works d now j hd hready)
  · exact Nat.le_of_eq (load_turn_other left most d now hj)

/-! ### Several turns -/

theorem turns_rest (h : plugin.Paced Inv left most) (now : Instant) (sessions : List (Fin n))
    (hd : Inv d) (hrest : ∀ i ∈ sessions, d.ready now i = false) :
    (∀ t ∈ (d.turns now sessions).1, t.Idle) ∧ d.Same (d.turns now sessions).2 := by
  induction sessions generalizing d with
  | nil => exact ⟨nofun, fun _ => rfl, rfl, rfl⟩
  | cons i rest ih =>
    obtain ⟨hidle, hsame⟩ := h.rests d now i hd (hrest i List.mem_cons_self)
    have hlater : ∀ j ∈ rest, (d.turn now i).2.ready now j = false := by
      intro j hj
      rw [hsame.ready_eq]
      exact hrest j (List.mem_cons_of_mem i hj)
    obtain ⟨hidle', hsame'⟩ := ih (h.turn now i hd) hlater
    rw [turns_cons]
    refine ⟨?_, hsame.trans hsame'⟩
    intro t ht
    rcases List.mem_append.mp ht with ht | ht
    · exact hidle t (Option.mem_toList.mp ht)
    · exact hidle' t ht

theorem turns_load_le (h : plugin.Paced Inv left most) (now : Instant) (sessions : List (Fin n))
    (hd : Inv d) (j : Fin n) : (d.turns now sessions).2.load left most j ≤ d.load left most j := by
  induction sessions generalizing d with
  | nil => exact Nat.le_refl _
  | cons i rest ih =>
    have hfirst := h.load_turn_le now i j hd
    have hlater := ih (h.turn now i hd)
    exact Nat.le_trans hlater hfirst

theorem turns_load_lt (h : plugin.Paced Inv left most) (now : Instant) (sessions : List (Fin n))
    (hd : Inv d) {j : Fin n} (hj : j ∈ sessions) (hready : d.ready now j = true) :
    (d.turns now sessions).2.load left most j < d.load left most j := by
  induction sessions generalizing d with
  | nil => cases hj
  | cons i rest ih =>
    have hfirst := h.load_turn_le now i j hd
    by_cases hij : j = i
    · subst hij
      have hless := h.works d now j hd hready
      have hlater := h.turns_load_le now rest (h.turn now j hd) j
      exact Nat.lt_of_le_of_lt hlater hless
    · -- The turns before its own leave a session ready.
      have hkept := h.ready_turn_other now hd hij
      have hlater := ih (h.turn now i hd) ((List.mem_cons.mp hj).resolve_left hij)
        (hkept.trans hready)
      exact Nat.lt_of_lt_of_le hlater hfirst

/-- What is reached by anything but changes of a stored state, from a registration over a table
that times nothing past the sessions. -/
theorem reached (h : plugin.Paced Inv left most) {waits : Wait.Table m}
    (huntimed : waits.UntimedFrom n)
    (hregister : (Dispatcher.register plugin n waits).value = .ok d) (start : Instant)
    (happenings : List (Happening σ)) (hedits : ∀ h ∈ happenings, h.isEdit = false) :
    Inv ((Device.mk start d).atEnd happenings).dispatcher := by
  refine Device.atEnd_keep happenings ?_ ⟨start, d⟩
    (h.registered waits d huntimed hregister)
  intro e now op hop he
  exact h.perform e now op (hedits _ hop) he

end Plugin.Paced

/-! ### Plugins that run a routine -/

section Routine

variable {L C : Type} [DecidableEq L] [Label L] [Inhabited C] {routine : Routine L C}
  {measure : L → Request → C → Nat} {most : Nat} {plugin : Plugin (Progress C) π}

namespace Dispatcher

variable {d : Dispatcher (Progress C) π n m} {now : Instant} {i : Fin n}

/-- The handler has been called for what is in flight, and the wait is one for a time. -/
structure Punctual (slot : Slot σ) (record : Option Wait.Record) : Prop where
  called : slot.first = false
  timed : ∀ r, record = some r → ∃ deadline, r = .deadline deadline

structure Clocked (routine : Routine L C) (d : Dispatcher (Progress C) π n m) : Prop where
  resting : Resting routine d
  punctual : Each Punctual d
  untimed : d.waits.UntimedFrom n
  addressed : ∀ p ∈ d.queue.toList, p.session.toNat < n

theorem Clocked.timed (h : Clocked routine d) : d.Timed where
  busy i hbusy := by
    obtain ⟨l, -, -, hrecord⟩ := (h.resting.settled i).of_busy hbusy
    obtain ⟨r, hr⟩ := Option.isSome_iff_exists.mp hrecord
    obtain ⟨deadline, rfl⟩ := (h.punctual i).timed r hr
    exact ⟨deadline, hr⟩
  idle i hidle := ((h.resting.settled i).of_idle hidle).2
  untimed := h.untimed
  addressed := h.addressed

end Dispatcher

theorem Routine.Ran.timed {l : L} {call : Call} {w : Workspace (Progress C) m}
    {x : Traced Effect (Outcome × Workspace (Progress C) m)} (h : Routine.Ran routine l call w x)
    (hdwindles : routine.Dwindles measure most) (hcx : call.context.toNat < m)
    (hw : ∀ r, w.waits.record? call.context = some r → ∃ deadline, r = .deadline deadline) :
    ∀ r, x.value.2.waits.record? call.context = some r → ∃ deadline, r = .deadline deadline := by
  cases h with
  | failed => exact hw
  | rewound => exact hw
  | @suspended outputs next wait state hstep _ =>
    intro r hr
    have hasks := hdwindles.step l w.state call.command
    rw [hstep] at hasks
    obtain ⟨⟨length, rfl⟩, -⟩ := hasks next wait rfl
    change (w.waits.arm call.now call.context (.timeout length)).record? call.context = some r
      at hr
    rw [Wait.Table.record?_arm _ _ _ hcx] at hr
    cases hr
    exact ⟨_, rfl⟩
  | overfull => exact hw
  | finished => exact hw

theorem Routine.Resumed.timed {call : Call} {w : Workspace (Progress C) m}
    {x : Traced Effect (Outcome × Workspace (Progress C) m)} (h : Routine.Resumed routine call w x)
    (hdwindles : routine.Dwindles measure most) (hcx : call.context.toNat < m)
    (hw : ∀ r, w.waits.record? call.context = some r → ∃ deadline, r = .deadline deadline) :
    ∀ r, x.value.2.waits.record? call.context = some r → ∃ deadline, r = .deadline deadline := by
  have hnone : ∀ r, (w.waits.cancel call.context).record? call.context = some r →
      ∃ deadline, r = .deadline deadline := by
    intro r hr
    rw [Wait.Table.record?_cancel] at hr
    cases hr
  cases h with
  | unknown => exact hnone
  | entered _ hran => exact hran.timed hdwindles hcx hw
  | pending => exact hw
  | elapsed _ _ _ hran => exact hran.timed hdwindles hcx hnone

namespace Dispatcher

variable {d : Dispatcher (Progress C) π n m} {now : Instant} {i : Fin n}

theorem Served.punctual {x : Traced Effect (Option Ending × Dispatcher (Progress C) π n m)}
    (h : Served d now i x) (hruns : d.plugin.Runs routine)
    (hdwindles : routine.Dwindles measure most)
    (hw : ∀ r, d.waits.record? (session i) = some r → ∃ deadline, r = .deadline deadline) :
    Punctual (x.value.2.slot i) (x.value.2.waits.record? (session i)) := by
  obtain ⟨state, reply, hslot⟩ := h.slot
  refine ⟨by rw [hslot], ?_⟩
  have hcx := session_lt d i
  have hresumed := Routine.resumed_resume routine (d.callOf now i)
    ⟨(d.slot i).state, d.waits, (d.slot i).reply⟩
  have htimed := hresumed.timed hdwindles hcx hw
  change ∀ r, (d.resumed routine now i).value.2.waits.record? (session i) = some r →
    ∃ deadline, r = .deadline deadline at htimed
  cases h with
  | suspended hhandled =>
    rw [(resumed_of_handled hruns hhandled).1] at htimed
    exact htimed
  | answered hhandled =>
    rw [(resumed_of_handled hruns hhandled).1] at htimed
    exact htimed
  | @faulted _ _ _ w _ =>
    intro r hr
    change (w.waits.cancel (session i)).record? (session i) = some r at hr
    rw [Wait.Table.record?_cancel] at hr
    cases hr

theorem Turned.punctual {y : Option Turn × Dispatcher (Progress C) π n m} (h : Turned d now i y)
    (hruns : d.plugin.Runs routine) (hdwindles : routine.Dwindles measure most)
    (hp : Punctual (d.slot i) (d.waits.record? (session i))) :
    Punctual (y.2.slot i) (y.2.waits.record? (session i)) := by
  cases h with
  | idle => exact hp
  | continued _ hserved => exact hserved.punctual hruns hdwindles hp.timed
  | begun _ _ _ _ hserved => exact hserved.punctual hruns hdwindles hp.timed

theorem Clocked.perform (h : Clocked routine d) (hdwindles : routine.Dwindles measure most)
    (now : Instant) {op : Operation (Progress C)} (hop : (Happening.operate op).isEdit = false) :
    Clocked routine (d.perform now op).value.2 := by
  refine ⟨h.resting.perform now hop, h.punctual.perform h.resting.runs now ?_ ?_ ?_ hop,
    untimed_perform h.resting.runs.contained now op h.untimed, addressed_perform now op h.addressed⟩
  · intro e i hruns hp
    exact (turned_turn e now i).punctual hruns hdwindles hp
  · intro state _
    exact ⟨rfl, nofun⟩
  · intro slot record transfer hp
    refine ⟨hp.called, ?_⟩
    intro r hr
    obtain ⟨r', hr', rfl⟩ := Option.map_eq_some_iff.mp hr
    obtain ⟨deadline, rfl⟩ := hp.timed r' hr'
    exact ⟨deadline, rfl⟩

theorem clocked_of_register (hruns : plugin.Runs routine) {waits : Wait.Table m}
    (huntimed : waits.UntimedFrom n) (h : (register plugin n waits).value = .ok d) :
    Clocked routine d :=
  ⟨resting_of_register hruns h, each_of_register hruns (fun _ _ => ⟨rfl, nofun⟩) h,
    untimed_of_register huntimed h, addressed_of_register h⟩

/-! ### A session whose time is not over -/

/-- Storing a slot that is as before changes nothing that is stored. -/
theorem same_store {slot : Slot σ} {d : Dispatcher σ π n m} {i : Fin n} (h : slot = d.slot i)
    (persistent : π) : d.Same (d.store i slot persistent d.waits) := by
  refine ⟨?_, rfl, rfl⟩
  intro j
  by_cases hj : j = i
  · subst hj
    rw [slot_store, h]
  · exact slot_store_other d _ _ _ hj

theorem Clocked.rests_waiting (h : Clocked routine d) (hbusy : (d.slot i).busy = true)
    (hwaiting : d.waits.isWaiting now (session i) = true) :
    (∀ t ∈ (d.turn now i).1, t.Idle) ∧ d.Same (d.turn now i).2 := by
  obtain ⟨l, hpoint, hl, -⟩ := (h.resting.settled i).of_busy hbusy
  have hcalled : { d.slot i with first := false } = d.slot i := by
    rw [← (h.punctual i).called]
  rw [turn_of_waiting h.resting.runs hbusy hpoint hl hwaiting]
  refine ⟨?_, same_store hcalled _⟩
  rintro t ⟨⟩
  exact ⟨rfl, rfl⟩

theorem Clocked.rests (h : Clocked routine d) (hready : d.ready now i = false) :
    (∀ t ∈ (d.turn now i).1, t.Idle) ∧ d.Same (d.turn now i).2 := by
  cases hbusy : (d.slot i).busy with
  | true =>
    have hwaiting : d.waits.isWaiting now (session i) = true := by
      simpa [ready, hbusy] using hready
    exact h.rests_waiting hbusy hwaiting
  | false =>
    have hnone : d.queuedFor i = [] := by simpa [ready, hbusy] using hready
    obtain ⟨hturn, hsame⟩ := turn_of_unqueued now hbusy hnone
    rw [hturn]
    exact ⟨nofun, hsame⟩

/-! ### A session that is ready -/

theorem Clocked.works_over (h : Clocked routine d) (hdwindles : routine.Dwindles measure most)
    (hbusy : (d.slot i).busy = true) (hover : d.waits.isWaiting now (session i) = false) :
    (d.turn now i).2.load (Progress.left measure) most i <
      d.load (Progress.left measure) most i := by
  obtain ⟨l, hpoint, -, -⟩ := (h.resting.settled i).of_busy hbusy
  have hserved := served_run d now i
  have hlighter := hserved.lighter h.resting.runs hdwindles hpoint (.inr hover)
  have hqueued : (d.run now i).value.2.queuedFor i = d.queuedFor i :=
    queuedFor_eq (by rw [hserved.queue])
  have hslot : (d.slot i).load (Progress.left measure) = (d.slot i).state.left measure + 1 := by
    rw [Slot.load, if_pos hbusy]
  rw [turn_of_busy d now hbusy]
  change (d.run now i).value.2.load (Progress.left measure) most i < _
  rw [load, load, hqueued, hslot]
  omega

theorem Clocked.works_queued (h : Clocked routine d) (hdwindles : routine.Dwindles measure most)
    (hbusy : (d.slot i).busy = false) (hqueued : d.queuedFor i ≠ []) :
    (d.turn now i).2.load (Progress.left measure) most i <
      d.load (Progress.left measure) most i := by
  have hpoint := ((h.resting.settled i).of_idle hbusy).1
  have hturned := turned_turn d now i
  generalize d.turn now i = y at hturned
  cases hturned with
  | idle _ hnone => exact absurd hnone hqueued
  | continued hbusy' =>
    rw [hbusy] at hbusy'
    cases hbusy'
  | @begun command _ queue _ _ _ hnext hqueue _ hserved =>
    have hentry : Label.encode (Label.entry : L) =
        ((d.started i command queue).slot i).state.resumePoint := by
      rw [slot_started, Label.encode_entry]
      exact hpoint.symm
    have hlighter := hserved.lighter h.resting.runs hdwindles hentry (.inl rfl)
    rw [Progress.left_of_label measure hentry, hdwindles.entry] at hlighter
    exact load_begun hnext hqueue hserved hlighter

theorem Clocked.works (h : Clocked routine d) (hdwindles : routine.Dwindles measure most)
    (hready : d.ready now i = true) :
    (d.turn now i).2.load (Progress.left measure) most i <
      d.load (Progress.left measure) most i := by
  cases hbusy : (d.slot i).busy with
  | true =>
    have hover : d.waits.isWaiting now (session i) = false := by
      simpa [ready, hbusy] using hready
    exact h.works_over hdwindles hbusy hover
  | false =>
    have hqueued : d.queuedFor i ≠ [] := by simpa [ready, hbusy] using hready
    exact h.works_queued hdwindles hbusy hqueued

end Dispatcher

theorem Plugin.Runs.paced (hruns : plugin.Runs routine)
    (hdwindles : routine.Dwindles measure most) :
    plugin.Paced (n := n) (m := m) (Dispatcher.Clocked routine) (Progress.left measure) most where
  registered _ _ huntimed h := Dispatcher.clocked_of_register hruns huntimed h
  perform _ now _ hop hd := hd.perform hdwindles now hop
  timed _ hd := hd.timed
  frame _ now _ _ hd hj := (Dispatcher.sameFor_turn_other hd.resting.runs now hj).record
  rests _ _ _ hd hready := hd.rests hready
  works _ _ _ hd hready := hd.works hdwindles hready

end Routine

/-! ### Latch -/

namespace Latch

/-- A latch has nothing in flight between two operations. -/
structure Still (pin : PinId) (d : Dispatcher Unit Tally n m) : Prop where
  rested : Open pin d.waits d
  free : ∀ i : Fin n, d.waits.record? (Dispatcher.session i) = none
  untimed : d.waits.UntimedFrom n
  addressed : ∀ p ∈ d.queue.toList, p.session.toNat < n

variable {pin : PinId} {d : Dispatcher Unit Tally n m} {now : Instant} {i : Fin n}

theorem Still.timed (h : Still pin d) : d.Timed where
  busy i hbusy := by
    rw [h.rested.idle i] at hbusy
    cases hbusy
  idle i _ := h.free i
  untimed := h.untimed
  addressed := h.addressed

theorem Still.perform (h : Still pin d) (now : Instant) (op : Operation Unit) :
    Still pin (d.perform now op).value.2 := by
  have hkept := (h.rested.perform h.free now op).still
  have haddressed := Dispatcher.addressed_perform now op h.addressed
  refine ⟨⟨hkept.plugin, hkept.idle, rfl⟩, ?_, ?_, haddressed⟩
  · rw [hkept.waits]
    exact h.free
  · rw [hkept.waits]
    exact h.untimed

theorem still_of_register {waits : Wait.Table m} (huntimed : waits.UntimedFrom n)
    (h : (Dispatcher.register (Latch.plugin pin) n waits).value = .ok d) : Still pin d := by
  obtain ⟨hrested, hfree, -⟩ := open_of_register h
  exact ⟨hrested, hfree, Dispatcher.untimed_of_register huntimed h,
    Dispatcher.addressed_of_register h⟩

theorem Still.rests (h : Still pin d) (hready : d.ready now i = false) :
    (∀ t ∈ (d.turn now i).1, t.Idle) ∧ d.Same (d.turn now i).2 := by
  have hnone : d.queuedFor i = [] := by simpa [Dispatcher.ready, h.rested.idle i] using hready
  obtain ⟨hturn, hsame⟩ := Dispatcher.turn_of_unqueued now (h.rested.idle i) hnone
  rw [hturn]
  exact ⟨nofun, hsame⟩

theorem Still.works (h : Still pin d) (hready : d.ready now i = true) :
    (d.turn now i).2.load (fun _ => 0) 0 i < d.load (fun _ => 0) 0 i := by
  have hqueued : d.queuedFor i ≠ [] := by simpa [Dispatcher.ready, h.rested.idle i] using hready
  have hafter := (h.rested.turn h.free now i).still.idle i
  have hturned := Dispatcher.turned_turn d now i
  generalize d.turn now i = y at hturned hafter
  cases hturned with
  | idle _ hnone => exact absurd hnone hqueued
  | continued hbusy =>
    rw [h.rested.idle i] at hbusy
    cases hbusy
  | begun _ hnext hqueue _ hserved =>
    refine Dispatcher.load_begun hnext hqueue hserved ?_
    rw [Slot.load, hafter]
    exact Nat.le_refl 0

theorem plugin_paced (pin : PinId) :
    (Latch.plugin pin).Paced (n := n) (m := m) (Still pin) (fun _ => 0) 0 where
  registered _ _ huntimed h := still_of_register huntimed h
  perform _ now op _ hd := hd.perform now op
  timed _ hd := hd.timed
  frame _ now i _ hd _ := by rw [(hd.rested.turn hd.free now i).still.waits]
  rests _ _ _ hd hready := hd.rests hready
  works _ _ _ hd hready := hd.works hready

end Latch

/-! ### The plugins of the library -/

/-- Blink, ramp or latch, at any pin. -/
inductive Plugin.Stock : {σ π : Type} → Plugin σ π → Prop
  | blink (pin : PinId) : Stock (Blink.plugin pin)
  | ramp (pin : PinId) : Stock (Ramp.plugin pin)
  | latch (pin : PinId) : Stock (Latch.plugin pin)

theorem Plugin.Stock.paced {plugin : Plugin σ π} (h : plugin.Stock) :
    ∃ (Inv : Dispatcher σ π n m → Prop) (left : σ → Nat) (most : Nat),
      plugin.Paced Inv left most := by
  cases h with
  | blink pin => exact ⟨_, _, _, (Blink.plugin_runs pin).paced (Blink.routine_dwindles pin)⟩
  | ramp pin => exact ⟨_, _, _, (Ramp.plugin_runs pin).paced (Ramp.routine_dwindles pin)⟩
  | latch pin => exact ⟨_, _, _, Latch.plugin_paced pin⟩

end Resumable
