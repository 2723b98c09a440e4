import Resumable.Plugin.Latch
import Resumable.Proofs.Running
import Resumable.Proofs.Schedule

/-!
# Sessions and their waits stay coherent

Whether a session is busy, where it is to resume and what it waits for are stored in three places.
In a coherent dispatcher they say the same, no other record is in the table, and nothing is queued
for a session that does not exist. Every operation works on one session at a time, so it is enough
to see what it leaves of that one.
-/

namespace Resumable

namespace Dispatcher

variable {L C π : Type} [DecidableEq L] [Label L] [Inhabited C] {n m : Nat}
  {routine : Routine L C} {d d' : Dispatcher (Progress C) π n m}

/-- The slots, the waits and the queue of a dispatcher that runs a routine agree. -/
structure Coherent (routine : Routine L C) (d : Dispatcher (Progress C) π n m) : Prop where
  runs : d.plugin.Runs routine
  settled : ∀ i, Settled L (d.slot i).busy (d.slot i).state (d.waits.record? (session i))
  unused : ∀ k, n ≤ k → d.waits.cell? k = none
  addressed : ∀ p ∈ d.queue.toList, p.session.toNat < n

/-- A change to one session keeps the dispatcher coherent if it leaves that session settled. -/
theorem Coherent.change (h : Coherent routine d) (i : Fin n) (hplugin : d'.plugin = d.plugin)
    (hslot : ∀ j, j ≠ i → d'.slot j = d.slot j)
    (hcell : ∀ k, k ≠ i.val → d'.waits.cell? k = d.waits.cell? k)
    (hqueue : ∀ p ∈ d'.queue.toList, p ∈ d.queue.toList)
    (hsettled : Settled L (d'.slot i).busy (d'.slot i).state (d'.waits.record? (session i))) :
    Coherent routine d' where
  runs := by
    rw [hplugin]
    exact h.runs
  settled j := by
    by_cases hj : j = i
    · subst hj
      exact hsettled
    · have hk : (session j).toNat ≠ i.val := by
        rw [session_toNat d.addressable]
        exact fun e => hj (Fin.ext e)
      have hrecord : d'.waits.record? (session j) = d.waits.record? (session j) := hcell _ hk
      rw [hslot j hj, hrecord]
      exact h.settled j
  unused k hk := by
    have hi := i.isLt
    rw [hcell k (by omega)]
    exact h.unused k hk
  addressed p hp := h.addressed p (hqueue p hp)

/-! ### One operation -/

theorem Coherent.turn (h : Coherent routine d) (now : Instant) (i : Fin n) :
    Coherent routine (d.turn now i).2 := by
  have hturned := turned_turn d now i
  exact h.change i hturned.plugin (fun _ hj => hturned.slot_other hj)
    (fun _ hk => hturned.cell?_other h.runs.contained hk) (fun _ hp => hturned.mem_queue hp)
    (hturned.settled h.runs (h.settled i))

theorem cell?_cancel_other {waits : Wait.Table m} {i : Fin n} (hn : n ≤ 256) {k : Nat}
    (hk : k ≠ i.val) : (waits.cancel (session i)).cell? k = waits.cell? k := by
  apply Wait.Table.cell?_update_other
  rw [session_toNat hn]
  exact hk

theorem Coherent.clear (h : Coherent routine d) (i : Fin n) {state : Progress C}
    (hpoint : state.resumePoint = 0) (persistent : π) :
    Coherent routine
      (d.store i (Slot.blank state) persistent (d.waits.cancel (session i))) := by
  refine h.change i rfl (fun _ hj => slot_store_other d _ _ _ hj)
    (fun _ hk => cell?_cancel_other d.addressable hk) (fun _ hp => hp) ?_
  rw [slot_store]
  exact .idle rfl hpoint (Wait.Table.record?_cancel _ _)

theorem Coherent.prepareSlot (h : Coherent routine d) (i : Fin n) :
    Coherent routine (d.prepareSlot i).value.2 := by
  obtain ⟨persistent, state, hpoint, hvalue⟩ := prepareSlot_of_runs h.runs i
  rw [hvalue]
  exact h.clear i hpoint persistent

theorem Coherent.signal (h : Coherent routine d) (i : Fin n) (transfer : Transfer) :
    Coherent routine { d with waits := (d.waits.signal (session i) transfer).2 } := by
  refine h.change i rfl (fun _ _ => rfl) ?_ (fun _ hp => hp) ?_
  · intro k hk
    apply Wait.Table.cell?_signal_other
    rw [session_toNat d.addressable]
    exact hk
  · show Settled L (d.slot i).busy (d.slot i).state _
    rw [Wait.Table.record?_signal]
    exact (h.settled i).signalled transfer

theorem Coherent.push (h : Coherent routine d) {i : Fin n} {command : Command}
    {queue : Fifo Pending queueCapacity}
    (hpush : d.queue.push ⟨session i, command⟩ = some queue) :
    Coherent routine { d with queue } := by
  refine ⟨h.runs, h.settled, h.unused, ?_⟩
  intro p hp
  change p ∈ queue.toList at hp
  rw [Fifo.toList_push hpush, List.mem_append, List.mem_singleton] at hp
  rcases hp with hp | rfl
  · exact h.addressed p hp
  · show (session i).toNat < n
    rw [session_toNat d.addressable]
    exact i.isLt

theorem Coherent.perform (h : Coherent routine d) (now : Instant) (op : Operation (Progress C))
    (hop : (Happening.operate op).isEdit = false) :
    Coherent routine (d.perform now op).value.2 := by
  refine perform_keep h ?_ ?_ ?_ ?_ ?_ ?_ ?_
  · intro i bytes command queue _ hpush
    exact h.push hpush
  · intro e i he
    exact he.turn now i
  · intro i _
    exact h.clear i h.runs.blank d.persistent
  · exact ⟨h.runs, h.settled, h.unused, nofun⟩
  · intro e i he
    exact he.prepareSlot i
  · intro i transfer _
    exact h.signal i transfer
  · rintro i change rfl
    cases hop

theorem coherent_of_register {plugin : Plugin (Progress C) π} (hruns : plugin.Runs routine)
    (h : (register plugin n Wait.Table.empty).value = .ok d) : Coherent routine d := by
  obtain ⟨blank, hplugin, hwaits, -, hqueue, hslots, hvalue⟩ := prepared_of_register h
  have hblank : Coherent routine blank := by
    refine ⟨hplugin ▸ hruns, ?_, ?_, ?_⟩
    · intro i
      rw [hslots i, hwaits, Wait.Table.record?_empty]
      exact .idle rfl hruns.blank rfl
    · intro k _
      rw [hwaits, Wait.Table.cell?_empty]
    · intro p hp
      rw [hqueue] at hp
      cases hp
  have hready := prepareSlots_keep (P := Coherent routine) (fun _ i he => he.prepareSlot i)
    (List.finRange n) blank hblank
  rw [hvalue] at hready
  exact hready

/-! ### Records past the sessions -/

section Past

variable {σ : Type} {d : Dispatcher σ π n m} {k : Nat}

theorem cell?_prepareSlot_past (d : Dispatcher σ π n m) (i : Fin n) (hk : n ≤ k) :
    (d.prepareSlot i).value.2.waits.cell? k = d.waits.cell? k := by
  have hi := i.isLt
  have hprepared := prepared_prepareSlot d i
  generalize (d.prepareSlot i).value = x at hprepared
  cases hprepared with
  | ready => exact cell?_cancel_other d.addressable (by omega)
  | refused => rfl

/-- No operation reaches the record of a context that is no session's. -/
theorem cell?_perform_past (hcontained : d.plugin.Contained) (now : Instant) (op : Operation σ)
    (hk : n ≤ k) : (d.perform now op).value.2.waits.cell? k = d.waits.cell? k := by
  suffices hkept : (d.perform now op).value.2.plugin.Contained ∧
      (d.perform now op).value.2.waits.cell? k = d.waits.cell? k from hkept.2
  refine perform_keep (P := fun e => e.plugin.Contained ∧ e.waits.cell? k = d.waits.cell? k)
    ⟨hcontained, rfl⟩ ?_ ?_ ?_ ⟨hcontained, rfl⟩ ?_ ?_ ?_
  · intro i bytes command queue _ _
    exact ⟨hcontained, rfl⟩
  · rintro e i ⟨hcontained', he⟩
    have hi := i.isLt
    have hturned := turned_turn e now i
    refine ⟨by rw [hturned.plugin]; exact hcontained', ?_⟩
    exact (hturned.cell?_other hcontained' (by omega)).trans he
  · intro i _
    have hi := i.isLt
    exact ⟨hcontained, cell?_cancel_other d.addressable (by omega)⟩
  · rintro e i ⟨hcontained', he⟩
    refine ⟨?_, (cell?_prepareSlot_past e i hk).trans he⟩
    rw [(prepared_prepareSlot e i).plugin]
    exact hcontained'
  · intro i transfer _
    have hi := i.isLt
    have hother : k ≠ (session i).toNat := by
      rw [session_toNat d.addressable]
      omega
    exact ⟨hcontained, Wait.Table.cell?_signal_other d.waits transfer hother⟩
  · intro i change _
    exact ⟨hcontained, rfl⟩

/-- Registration cancels the waits of the sessions and leaves all other records as they were. -/
theorem cell?_register_past {plugin : Plugin σ π} {waits : Wait.Table m}
    (h : (register plugin n waits).value = .ok d) (hk : n ≤ k) :
    d.waits.cell? k = waits.cell? k := by
  obtain ⟨blank, -, rfl, -, -, -, hvalue⟩ := prepared_of_register h
  have hready := prepareSlots_keep (P := fun e => e.waits.cell? k = blank.waits.cell? k)
    (fun e i he => (cell?_prepareSlot_past e i hk).trans he) (List.finRange n) blank rfl
  rw [hvalue] at hready
  exact hready

end Past

/-! ### Counting waits and busy sessions -/

theorem countP_eq_of_any_eq {α β : Type} (p : α → Bool) (q : β → Bool) (as : List α)
    (bs : List β) (h : ∀ k : Nat, (as[k]?).any p = (bs[k]?).any q) : as.countP p = bs.countP q := by
  induction as generalizing bs with
  | nil =>
    symm
    rw [List.countP_nil, List.countP_eq_zero]
    intro b hb
    obtain ⟨k, hk⟩ := List.mem_iff_getElem?.mp hb
    have hmark := h k
    rw [hk] at hmark
    simpa using hmark.symm
  | cons a as ih =>
    have hhead := h 0
    cases bs with
    | nil =>
      have htail : as.countP p = ([] : List β).countP q := by
        apply ih
        intro k
        simpa using h (k + 1)
      rw [List.countP_cons, htail]
      simpa using hhead
    | cons b bs =>
      have htail : as.countP p = bs.countP q := by
        apply ih
        intro k
        simpa using h (k + 1)
      have hab : p a = q b := by simpa using hhead
      rw [List.countP_cons, List.countP_cons, htail, hab]

theorem Coherent.busy_iff_record (h : Coherent routine d) (i : Fin n) :
    (d.slot i).busy = (d.waits.record? (session i)).isSome := by
  cases h.settled i with
  | idle hbusy _ hrecord => rw [hbusy, hrecord, Option.isSome_none]
  | suspended hbusy _ _ hrecord => rw [hbusy, hrecord]

/-- Every record belongs to a busy session, and every busy session has one. -/
theorem Coherent.pending_eq (h : Coherent routine d) : d.waits.pending = d.inFlight := by
  apply countP_eq_of_any_eq
  intro k
  have hcell : (d.waits.records.toList[k]?).any Option.isSome = (d.waits.cell? k).isSome := by
    rw [Vector.getElem?_toList, Wait.Table.cell?]
    cases d.waits.records[k]? with
    | none => rfl
    | some record => rfl
  rw [hcell]
  rcases Nat.lt_or_ge k n with hk | hk
  · have hslot := slots_getElem? d ⟨k, hk⟩
    have hbusy := h.busy_iff_record ⟨k, hk⟩
    rw [Wait.Table.record?_eq_cell?, session_toNat d.addressable] at hbusy
    rw [hslot, Option.any_some, hbusy]
  · have hslot : d.slots.toList[k]? = none := by
      rw [Vector.getElem?_toList, Vector.getElem?_eq_none hk]
    rw [h.unused k hk, hslot]
    rfl

end Dispatcher

/-! ### Sessions that are served in one call -/

namespace Latch

variable {n m : Nat} {pin : PinId} {d : Dispatcher Unit Tally n m}

/-- A latch ends every command in the call that begins it, and does not touch the waits. -/
theorem handle_ends (pin : PinId) (call : Call) (tally : Tally) (w : Workspace Unit m) :
    (handle pin call tally w).value.1 ≠ .ok .waiting ∧
      (handle pin call tally w).value.2.2.waits = w.waits := by
  unfold handle
  cases readRequest call.command with
  | error fault => exact ⟨nofun, rfl⟩
  | ok request =>
    cases hpush : w.reply.push request.count with
    | error cause =>
      simp only [hpush]
      exact ⟨nofun, rfl⟩
    | ok reply =>
      simp only [hpush]
      exact ⟨nofun, rfl⟩

structure Quiet (pin : PinId) (d : Dispatcher Unit Tally n m) : Prop where
  plugin : d.plugin = Latch.plugin pin
  idle : ∀ i, (d.slot i).busy = false
  bare : ∀ k, d.waits.cell? k = none

theorem cell?_cancel_bare {waits : Wait.Table m} (h : ∀ k, waits.cell? k = none)
    (cx : Wait.Context) (k : Nat) : (waits.cancel cx).cell? k = none := by
  by_cases hk : k = cx.toNat
  · rw [hk]
    exact Wait.Table.record?_cancel waits cx
  · rw [← h k]
    exact Wait.Table.cell?_update_other waits none hk

theorem quiet_of_served {i : Fin n} {now : Instant}
    {x : Traced Effect (Option Ending × Dispatcher Unit Tally n m)}
    (h : Dispatcher.Served d now i x) (hplugin : d.plugin = Latch.plugin pin)
    (hother : ∀ j, j ≠ i → (d.slot j).busy = false) (hbare : ∀ k, d.waits.cell? k = none) :
    Quiet pin x.value.2 := by
  have hhandle := handle_ends pin (d.callOf now i) d.persistent
    ⟨(d.slot i).state, d.waits, (d.slot i).reply⟩
  have hends : (d.handled now i).value.1 ≠ .ok .waiting ∧
      (d.handled now i).value.2.2.waits = d.waits := by
    rw [Dispatcher.handled, hplugin]
    exact hhandle
  have hidle : x.value.1.isNone = false → ∀ j, (x.value.2.slot j).busy = false := by
    intro hended j
    by_cases hj : j = i
    · obtain ⟨state, reply, hslot⟩ := h.slot
      rw [hj, hslot, hended]
      rfl
    · rw [h.slot_other hj]
      exact hother j hj
  cases h with
  | suspended hhandled =>
    rw [hhandled] at hends
    exact absurd rfl hends.1
  | answered hhandled =>
    rw [hhandled] at hends
    refine ⟨hplugin, hidle rfl, ?_⟩
    intro k
    exact (congrArg (·.cell? k) hends.2).trans (hbare k)
  | faulted hhandled =>
    rw [hhandled] at hends
    refine ⟨hplugin, hidle rfl, cell?_cancel_bare ?_ _⟩
    intro k
    exact (congrArg (·.cell? k) hends.2).trans (hbare k)

theorem Quiet.turn (h : Quiet pin d) (now : Instant) (i : Fin n) :
    Quiet pin (d.turn now i).2 := by
  have hturned := Dispatcher.turned_turn d now i
  generalize d.turn now i = y at hturned
  cases hturned with
  | idle => exact ⟨h.plugin, h.idle, h.bare⟩
  | continued hbusy hserved => exact quiet_of_served hserved h.plugin (fun j _ => h.idle j) h.bare
  | begun _ _ _ _ hserved =>
    refine quiet_of_served hserved h.plugin ?_ h.bare
    intro j hj
    rw [Dispatcher.slot_started_other d _ _ hj]
    exact h.idle j

theorem Quiet.clear (h : Quiet pin d) (i : Fin n) (slot : Slot Unit) (hslot : slot.busy = false)
    (tally : Tally) (waits : Wait.Table m) (hwaits : ∀ k, waits.cell? k = none) :
    Quiet pin (d.store i slot tally waits) := by
  refine ⟨h.plugin, ?_, hwaits⟩
  intro j
  by_cases hj : j = i
  · subst hj
    rw [Dispatcher.slot_store]
    exact hslot
  · rw [Dispatcher.slot_store_other d _ _ _ hj]
    exact h.idle j

theorem Quiet.prepareSlot (h : Quiet pin d) (i : Fin n) :
    Quiet pin (d.prepareSlot i).value.2 := by
  have hprepared := Dispatcher.prepared_prepareSlot d i
  generalize (d.prepareSlot i).value = x at hprepared
  cases hprepared with
  | ready => exact h.clear i _ rfl _ _ (cell?_cancel_bare h.bare _)
  | refused => exact h.clear i _ rfl _ _ h.bare

theorem cell?_signal_bare {waits : Wait.Table m} (h : ∀ k, waits.cell? k = none)
    (cx : Wait.Context) (transfer : Transfer) (k : Nat) :
    (waits.signal cx transfer).2.cell? k = none := by
  by_cases hk : k = cx.toNat
  · have hrecord := Wait.Table.record?_signal waits cx transfer
    rw [Wait.Table.record?_eq_cell?, Wait.Table.record?_eq_cell?, h] at hrecord
    rw [hk]
    exact hrecord
  · rw [Wait.Table.cell?_signal_other waits transfer hk]
    exact h k

theorem Quiet.perform (h : Quiet pin d) (now : Instant) (op : Operation Unit) :
    Quiet pin (d.perform now op).value.2 := by
  refine Dispatcher.perform_keep h ?_ ?_ ?_ ?_ ?_ ?_ ?_
  · intro i bytes command queue _ _
    exact ⟨h.plugin, h.idle, h.bare⟩
  · intro e i he
    exact he.turn now i
  · intro i _
    exact h.clear i _ rfl _ _ (cell?_cancel_bare h.bare _)
  · exact ⟨h.plugin, h.idle, h.bare⟩
  · intro e i he
    exact he.prepareSlot i
  · intro i transfer _
    exact ⟨h.plugin, h.idle, cell?_signal_bare h.bare _ transfer⟩
  · intro i change _
    exact h.clear i _ (h.idle i) _ _ h.bare

theorem quiet_of_register
    (h : (Dispatcher.register (Latch.plugin pin) n Wait.Table.empty).value = .ok d) :
    Quiet pin d := by
  obtain ⟨blank, hplugin, hwaits, _, _, hslots, hvalue⟩ := Dispatcher.prepared_of_register h
  have hblank : Quiet pin blank := by
    refine ⟨hplugin, ?_, ?_⟩
    · intro i
      rw [hslots i]
      rfl
    · intro k
      rw [hwaits, Wait.Table.cell?_empty]
  have hready := Dispatcher.prepareSlots_keep (P := Quiet pin) (fun _ i he => he.prepareSlot i)
    (List.finRange n) blank hblank
  rw [hvalue] at hready
  exact hready

end Latch

/-! ### Every reachable state -/

/-- What is reached from registration over an empty table, by anything but changes of a stored
state: a session is busy exactly when it has a label to resume at, and exactly when it waits. -/
theorem sessions_stay_coherent :
    (∀ {L C π : Type} [DecidableEq L] [Label L] [Inhabited C] {n m : Nat}
        {routine : Routine L C} {plugin : Plugin (Progress C) π}
        {d : Dispatcher (Progress C) π n m} (start : Instant)
        (happenings : List (Happening (Progress C))),
      plugin.Runs routine → (Dispatcher.register plugin n Wait.Table.empty).value = .ok d →
      (∀ h ∈ happenings, h.isEdit = false) →
      let e := ((Device.mk start d).atEnd happenings).dispatcher
      (∀ i : Fin n,
        ((e.slot i).busy = true ↔ (e.slot i).state.resumePoint ≠ 0) ∧
        ((e.slot i).state.resumePoint ≠ 0 ↔
          (e.waits.record? (Dispatcher.session i)).isSome = true) ∧
        ((e.slot i).busy = true →
          ∃ l : L, Label.decode (e.slot i).state.resumePoint = some l ∧ l ≠ Label.entry)) ∧
      (∀ k, n ≤ k → e.waits.cell? k = none) ∧
      e.waits.pending = e.inFlight ∧
      (∀ p ∈ e.queue.toList, p.session.toNat < n) ∧
      e.queue.toList.length ≤ 8) ∧
    (∀ {n m : Nat} {pin : PinId} {d : Dispatcher Unit Latch.Tally n m} (start : Instant)
        (happenings : List (Happening Unit)),
      (Dispatcher.register (Latch.plugin pin) n Wait.Table.empty).value = .ok d →
      let e := ((Device.mk start d).atEnd happenings).dispatcher
      (∀ i : Fin n, (e.slot i).busy = false) ∧ ∀ k, e.waits.cell? k = none) := by
  refine ⟨?_, ?_⟩
  · intro L C π _ _ _ n m routine plugin d start happenings hruns hregister hedits e
    have hstart := Dispatcher.coherent_of_register hruns hregister
    have hend : Dispatcher.Coherent routine e := by
      refine Device.atEnd_keep (P := Dispatcher.Coherent routine) happenings ?_ ⟨start, d⟩ hstart
      intro d' now op hop hd'
      exact hd'.perform now op (hedits _ hop)
    refine ⟨?_, hend.unused, hend.pending_eq, hend.addressed, Fifo.length_le_cap e.queue⟩
    intro i
    cases hend.settled i with
    | idle hbusy hpoint hrecord => simp [hbusy, hpoint, hrecord]
    | @suspended l hbusy hpoint hl hrecord =>
      have hne : (e.slot i).state.resumePoint ≠ 0 := by
        intro hzero
        rw [hzero, Label.encode_eq_zero_iff] at hpoint
        exact hl hpoint
      have hdecode := Label.decode_eq_some_iff.mpr hpoint
      exact ⟨by simp [hbusy, hne], by simp [hne, hrecord], fun _ => ⟨l, hdecode, hl⟩⟩
  · intro n m pin d start happenings hregister e
    have hstart := Latch.quiet_of_register hregister
    have hend : Latch.Quiet pin e :=
      Device.atEnd_keep (P := Latch.Quiet pin) happenings
        (fun d' now op _ hd' => hd'.perform now op) ⟨start, d⟩ hstart
    exact ⟨hend.idle, hend.bare⟩

/-- Two blinking sessions over three records, with one command in flight, and a latch that has
served one. -/
theorem sessions_stay_coherent_blink_latch :
    (∃ d : Dispatcher (Progress Blink.Counters) Unit 2 3,
      (Dispatcher.register (Blink.plugin 8) 2 Wait.Table.empty).value = .ok d ∧
      let e := ((Device.mk 0 d).atEnd
        [.operate (.submit 1 [2, 10, 0]), .operate .tick, .advance 10]).dispatcher
      (e.slot 1).busy = true ∧ (e.waits.record? 1).isSome = true ∧
        e.waits.pending = e.inFlight ∧ e.inFlight = 1) ∧
    ∃ d : Dispatcher Unit Latch.Tally 2 3,
      (Dispatcher.register (Latch.plugin 8) 2 Wait.Table.empty).value = .ok d ∧
      let e := ((Device.mk 0 d).atEnd
        [.operate (.submit 1 [2, 10, 0]), .operate .tick]).dispatcher
      e.persistent.served = 1 ∧ ∀ i : Fin 2, (e.slot i).busy = false := by
  refine ⟨⟨_, rfl, ?_⟩, ⟨_, rfl, ?_⟩⟩
  · intro e
    have hregister : (Dispatcher.register (Blink.plugin 8) 2
        (Wait.Table.empty : Wait.Table 3)).value = .ok _ := rfl
    have hcoherent := sessions_stay_coherent.1 0
      [.operate (.submit 1 [2, 10, 0]), .operate .tick, .advance 10]
      (Blink.plugin_runs 8) hregister (by simp [Happening.isEdit])
    have hbusy : (e.slot 1).busy = true := by decide
    have hone := hcoherent.1 1
    exact ⟨hbusy, hone.2.1.mp (hone.1.mp hbusy), hcoherent.2.2.1, by decide⟩
  · intro e
    have hregister : (Dispatcher.register (Latch.plugin 8) 2
        (Wait.Table.empty : Wait.Table 3)).value = .ok _ := rfl
    have hquiet := sessions_stay_coherent.2 0
      [.operate (.submit 1 [2, 10, 0]), .operate .tick] hregister
    exact ⟨by decide, hquiet.1⟩

end Resumable
