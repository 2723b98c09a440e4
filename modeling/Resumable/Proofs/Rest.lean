import Resumable.Proofs.Pace

/-!
# Ticks that change nothing

A loop around a dispatcher may sleep while a tick would do nothing. For the plugins of the library,
registered over a table in which no deadline is left that is no session's, this can be read off the
dispatcher: a tick does nothing exactly when no idle session has a command queued and the earliest
deadline of the table lies ahead.
-/

namespace Resumable

variable {σ π : Type} {n m : Nat}

/-! ### What a tick shows of its turns -/

theorem Turn.pinOps_tickEffects (plugin : Plugin σ π) (t : Turn) :
    (t.tickEffects plugin).filterMap Effect.pinOp? = t.handling.filterMap Effect.pinOp? := by
  have hadmission : (t.admission plugin).filterMap Effect.pinOp? = [] := by
    unfold admission
    split <;> rfl
  have hconclusion : (t.conclusion plugin).filterMap Effect.pinOp? = [] := by
    unfold conclusion
    split <;> rfl
  rw [tickEffects, List.filterMap_append, List.filterMap_append, hadmission, hconclusion,
    List.append_nil]
  rfl

theorem pinOps_of_idle (plugin : Plugin σ π) {turns : List Turn} (h : ∀ t ∈ turns, t.Idle) :
    (turns.flatMap (Turn.tickEffects plugin)).filterMap Effect.pinOp? = [] := by
  induction turns with
  | nil => rfl
  | cons t rest ih =>
    have hfirst := (h t List.mem_cons_self).driven
    have hrest := ih fun t' ht' => h t' (List.mem_cons_of_mem t ht')
    rw [List.flatMap_cons, List.filterMap_append, Turn.pinOps_tickEffects, hfirst, hrest]
    rfl

theorem completions_of_idle {turns : List Turn} (h : ∀ t ∈ turns, t.Idle) :
    completions turns = [] := by
  rw [completions, List.filterMap_eq_nil_iff]
  intro t ht
  rw [Turn.completion?, (h t ht).ending]
  rfl

namespace Dispatcher

variable {d : Dispatcher σ π n m}

/-- A tick at this instant operates no pin, ends no command and changes nothing that is stored. -/
structure RestsAt (d : Dispatcher σ π n m) (t : Instant) : Prop where
  undriven : (d.tick t).trace.filterMap Effect.pinOp? = []
  unreported : completions (d.tick t).value.1 = []
  same : d.Same (d.tick t).value.2

/-! ### When a session is ready -/

theorem Timed.waiting_iff (h : d.Timed) (t : Instant) {i : Fin n}
    (hbusy : (d.slot i).busy = true) :
    d.waits.isWaiting t (session i) = true ↔
      ∀ deadline, d.waits.cell? i = some (.deadline deadline) → t < deadline := by
  obtain ⟨deadline, hrecord⟩ := h.busy i hbusy
  have hcell : d.waits.cell? i = some (.deadline deadline) := by
    rw [Wait.Table.record?_eq_cell?, session_toNat d.addressable] at hrecord
    exact hrecord
  simp [Wait.Table.isWaiting, hrecord, hcell, Wait.Record.isPending]

/-- No session is ready before the earliest deadline, except an idle one with a command. -/
theorem Timed.none_ready_iff (h : d.Timed) (t : Instant) :
    (∀ i, d.ready t i = false) ↔
      (∀ i, (d.slot i).busy = false → d.queuedFor i = []) ∧
        ∀ deadline, d.waits.nextDeadline = some deadline → t < deadline := by
  rw [Wait.Table.lt_nextDeadline_iff]
  constructor
  · intro hready
    refine ⟨?_, ?_⟩
    · intro i hbusy
      simpa [ready, hbusy] using hready i
    · intro k deadline hcell
      have hk : k < n := by
        rcases Nat.lt_or_ge k n with hk | hk
        · exact hk
        · exact absurd hcell (h.untimed k deadline hk)
      -- A deadline in the table is that of a busy session, which is not ready before it.
      cases hbusy : (d.slot ⟨k, hk⟩).busy with
      | false =>
        have hnone := h.idle ⟨k, hk⟩ hbusy
        rw [Wait.Table.record?_eq_cell?, session_toNat d.addressable, hcell] at hnone
        cases hnone
      | true =>
        have hwaiting : d.waits.isWaiting t (session ⟨k, hk⟩) = true := by
          simpa [ready, hbusy] using hready ⟨k, hk⟩
        exact (h.waiting_iff t hbusy).mp hwaiting deadline hcell
  · rintro ⟨hqueued, hdeadline⟩ i
    cases hbusy : (d.slot i).busy with
    | false => simp [ready, hbusy, hqueued i hbusy]
    | true =>
      have hwaiting := (h.waiting_iff t hbusy).mpr (hdeadline i)
      simp [ready, hbusy, hwaiting]

end Dispatcher

/-! ### A tick -/

theorem Plugin.Paced.restsAt_iff {plugin : Plugin σ π} {Inv : Dispatcher σ π n m → Prop}
    {left : σ → Nat} {most : Nat} (h : plugin.Paced Inv left most) {d : Dispatcher σ π n m}
    (hd : Inv d) (t : Instant) : d.RestsAt t ↔ ∀ i, d.ready t i = false := by
  constructor
  · intro hrests i
    cases hready : d.ready t i with
    | false => rfl
    | true =>
      have hless := h.turns_load_lt t (List.finRange n) hd (List.mem_finRange i) hready
      have hsame : d.Same (d.turns t (List.finRange n)).2 := hrests.same
      rw [hsame.load_eq] at hless
      exact absurd hless (Nat.lt_irrefl _)
  · intro hready
    obtain ⟨hidle, hsame⟩ := h.turns_rest t (List.finRange n) hd fun i _ => hready i
    exact ⟨pinOps_of_idle d.plugin hidle, completions_of_idle hidle, hsame⟩

/-- Whatever has happened to a blink, ramp or latch dispatcher since its registration over an empty
table, apart from changes of a stored state, a tick does nothing exactly when no idle session has a
command queued and the instant lies before the earliest deadline, if there is one. -/
theorem tick_rests_iff {plugin : Plugin σ π} (hstock : plugin.Stock)
    {d : Dispatcher σ π n m}
    (hregister : (Dispatcher.register plugin n Wait.Table.empty).value = .ok d) (start : Instant)
    (happenings : List (Happening σ)) (hedits : ∀ h ∈ happenings, h.isEdit = false)
    (t : Instant) :
    let e := ((Device.mk start d).atEnd happenings).dispatcher
    e.RestsAt t ↔
      (∀ i, (e.slot i).busy = false → e.queuedFor i = []) ∧
        ∀ deadline, e.waits.nextDeadline = some deadline → t < deadline := by
  intro e
  obtain ⟨Inv, left, most, hpaced⟩ := hstock.paced (n := n) (m := m)
  have hreached : Inv e :=
    hpaced.reached (Wait.Table.untimedFrom_empty n) hregister start happenings hedits
  rw [hpaced.restsAt_iff hreached t]
  exact (hpaced.timed e hreached).none_ready_iff t

/-- One of two blinking sessions sleeps to tick 10000, with a second command queued for it. A tick
just before that instant does nothing, and one at it does something. -/
theorem tick_rests_iff_blink :
    ∃ d : Dispatcher (Progress Blink.Counters) Unit 2 3,
      (Dispatcher.register (Blink.plugin 8) 2 Wait.Table.empty).value = .ok d ∧
      let e := ((Device.mk 0 d).atEnd [.operate (.submit 1 [2, 10, 0]),
        .operate (.submit 1 [3, 20, 0]), .operate .tick]).dispatcher
      e.waits.nextDeadline = some 10000 ∧ e.queue.toList.length = 1 ∧
        e.RestsAt 9999 ∧ ¬ e.RestsAt 10000 := by
  refine ⟨_, rfl, ?_⟩
  intro e
  have hregister : (Dispatcher.register (Blink.plugin 8) 2
      (Wait.Table.empty : Wait.Table 3)).value = .ok _ := rfl
  have hrests := tick_rests_iff (.blink 8) hregister 0 [.operate (.submit 1 [2, 10, 0]),
    .operate (.submit 1 [3, 20, 0]), .operate .tick] (by simp [Happening.isEdit])
  have hnext : e.waits.nextDeadline = some 10000 := by decide
  have hqueued : ∀ i, (e.slot i).busy = false → e.queuedFor i = [] := by decide
  refine ⟨hnext, by decide, (hrests 9999).mpr ⟨hqueued, ?_⟩, ?_⟩
  · intro deadline hdeadline
    obtain rfl : 10000 = deadline := Option.some.inj (hnext.symm.trans hdeadline)
    decide
  · intro hrest
    have hlater := ((hrests 10000).mp hrest).2 10000 hnext
    exact absurd hlater (by decide)

end Resumable
