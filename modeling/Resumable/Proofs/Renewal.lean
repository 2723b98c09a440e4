import Resumable.Proofs.Coherence
import Resumable.Proofs.Outputs

/-!
# A reset renews a dispatcher

A reset keeps the table of waits and only cancels the records of the sessions. That nothing else is
left in the table is an invariant of every run, changes of a stored state included, since no
handler writes past the record of its own session. So a reset of a blink, ramp or latch leaves what
its registration over an empty table left, down to the ring of the queue, and only the persistent
state is older.
-/

namespace Resumable

variable {σ π : Type} {n m : Nat} {pin : PinId}

/-- The handler keeps to the record of its session; a preparation is never refused and leaves a
blank state, and the persistent state as it was. -/
structure Plugin.Renews (plugin : Plugin σ π) : Prop where
  contained : plugin.Contained
  prepare : ∀ persistent,
    (plugin.prepare persistent plugin.blank).value = (.ok (), persistent, plugin.blank)

theorem Latch.plugin_contained (pin : PinId) : (Latch.plugin pin).Contained := by
  intro m call tally w k _
  exact congrArg (·.cell? k) (Latch.handle_ends pin call tally w).2

theorem Plugin.StockOn.renews {plugin : Plugin σ π} (h : plugin.StockOn pin) : plugin.Renews := by
  cases h with
  | blink => exact ⟨(Blink.plugin_runs pin).contained, fun _ => rfl⟩
  | ramp => exact ⟨(Ramp.plugin_runs pin).contained, fun _ => rfl⟩
  | latch => exact ⟨Latch.plugin_contained pin, fun _ => rfl⟩

theorem Wait.Table.eq_of_cell? {t u : Wait.Table m} (h : ∀ k, t.cell? k = u.cell? k) : t = u := by
  obtain ⟨records⟩ := t
  obtain ⟨records'⟩ := u
  refine congrArg Wait.Table.mk (Vector.ext fun k hk => ?_)
  have hcell := h k
  rw [cell?, cell?, Vector.getElem?_eq_getElem hk, Vector.getElem?_eq_getElem hk] at hcell
  exact hcell

namespace Dispatcher

variable {d e : Dispatcher σ π n m}

/-! ### Records past the sessions -/

/-- No record is held for a context that is no session's. -/
structure Spare (d : Dispatcher σ π n m) : Prop where
  contained : d.plugin.Contained
  unused : ∀ k, n ≤ k → d.waits.cell? k = none

theorem Spare.prepareSlot (h : Spare d) (i : Fin n) : Spare (d.prepareSlot i).value.2 := by
  refine ⟨?_, fun k hk => (cell?_prepareSlot_past d i hk).trans (h.unused k hk)⟩
  rw [(prepared_prepareSlot d i).plugin]
  exact h.contained

theorem Spare.perform (h : Spare d) (now : Instant) (op : Operation σ) :
    Spare (d.perform now op).value.2 := by
  refine ⟨?_, fun k hk => (cell?_perform_past h.contained now op hk).trans (h.unused k hk)⟩
  rw [perform_plugin]
  exact h.contained

/-! ### Preparations -/

/-- Everything but the persistent state is as at registration over an empty table. -/
structure Fresh (d : Dispatcher σ π n m) : Prop where
  slot : ∀ i, d.slot i = Slot.blank d.plugin.blank
  cell : ∀ k, d.waits.cell? k = none
  queue : d.queue = Fifo.empty queueCapacity_pos

theorem prepareSlot_of_renews (hrenews : d.plugin.Renews) (i : Fin n) :
    (d.prepareSlot i).value = (.ok (),
      d.store i (Slot.blank d.plugin.blank) d.persistent (d.waits.cancel (session i))) := by
  have hready := hrenews.prepare d.persistent
  have hprepared := prepared_prepareSlot d i
  generalize (d.prepareSlot i).value = x at hprepared
  cases hprepared with
  | ready hprepare =>
    rw [hready] at hprepare
    cases hprepare
    rfl
  | refused hprepare =>
    rw [hready] at hprepare
    cases hprepare

/-- The session in a slot is as this plugin makes it ready. -/
structure BlankAt (plugin : Plugin σ π) (i : Fin n) (d : Dispatcher σ π n m) : Prop where
  same : d.plugin = plugin
  slot : d.slot i = Slot.blank plugin.blank
  cell : d.waits.cell? i = none

theorem blankAt_prepareSlot (hrenews : d.plugin.Renews) (i : Fin n) :
    BlankAt d.plugin i (d.prepareSlot i).value.2 := by
  rw [prepareSlot_of_renews hrenews]
  refine ⟨rfl, slot_store d i _ _ _, ?_⟩
  have hrecord := Wait.Table.record?_cancel d.waits (session i)
  rw [Wait.Table.record?_eq_cell?, session_toNat d.addressable] at hrecord
  exact hrecord

theorem BlankAt.prepareSlot {plugin : Plugin σ π} {i : Fin n} (h : BlankAt plugin i d)
    (hrenews : plugin.Renews) (j : Fin n) : BlankAt plugin i (d.prepareSlot j).value.2 := by
  obtain ⟨rfl, hslot, hcell⟩ := h
  by_cases hij : i = j
  · subst hij
    exact blankAt_prepareSlot hrenews i
  · rw [prepareSlot_of_renews hrenews]
    refine ⟨rfl, (slot_store_other d _ _ _ hij).trans hslot, ?_⟩
    exact (cell?_cancel_other d.addressable (Fin.val_ne_of_ne hij)).trans hcell

theorem blankAt_prepareSlots (hrenews : d.plugin.Renews) {i : Fin n} {sessions : List (Fin n)}
    (hi : i ∈ sessions) : BlankAt d.plugin i (d.prepareSlots sessions).value.2 := by
  induction sessions generalizing d with
  | nil => cases hi
  | cons j rest ih =>
    have hfirst := prepareSlot_of_renews hrenews j
    have hvalue := prepareSlots_cons d j rest
    rw [hfirst] at hvalue
    rw [hvalue]
    by_cases hrest : i ∈ rest
    · exact ih (d := d.store j _ _ _) hrenews hrest
    · obtain rfl : i = j := (List.mem_cons.mp hi).resolve_right hrest
      have hblank := blankAt_prepareSlot hrenews i
      rw [hfirst] at hblank
      exact prepareSlots_keep (fun e j he => he.prepareSlot hrenews j) rest _ hblank

/-- Preparing every session leaves a fresh dispatcher, from whatever the sessions were in. -/
theorem fresh_prepareSlots (hrenews : d.plugin.Renews) (hspare : Spare d)
    (hqueue : d.queue = Fifo.empty queueCapacity_pos) :
    let e := (d.prepareSlots (List.finRange n)).value.2
    Fresh e ∧ e.plugin = d.plugin ∧ e.persistent = d.persistent := by
  intro e
  have hblank : ∀ i, BlankAt d.plugin i e := fun i =>
    blankAt_prepareSlots hrenews (List.mem_finRange i)
  obtain ⟨hkept, hunused, hplugin, hpersistent⟩ := prepareSlots_keep
    (P := fun f => f.queue = d.queue ∧ Spare f ∧ f.plugin = d.plugin ∧
      f.persistent = d.persistent)
    (fun f i hf => by
      obtain ⟨hfqueue, hfspare, hfplugin, hfpersistent⟩ := hf
      have hnext := hfspare.prepareSlot i
      rw [prepareSlot_of_renews (hfplugin ▸ hrenews)] at hnext ⊢
      exact ⟨hfqueue, hnext, hfplugin, hfpersistent⟩)
    (List.finRange n) d ⟨rfl, hspare, rfl, rfl⟩
  refine ⟨⟨fun i => ?_, fun k => ?_, hkept.trans hqueue⟩, hplugin, hpersistent⟩
  · rw [hplugin]
    exact (hblank i).slot
  · rcases Nat.lt_or_ge k n with hk | hk
    · exact (hblank ⟨k, hk⟩).cell
    · exact hunused.unused k hk

theorem fresh_of_register {plugin : Plugin σ π} (hrenews : plugin.Renews)
    (h : (register plugin n (Wait.Table.empty : Wait.Table m)).value = .ok d) :
    Fresh d ∧ d.plugin = plugin := by
  obtain ⟨blank, rfl, hwaits, -, hqueue, -, hvalue⟩ := prepared_of_register h
  have hspare : Spare blank := by
    refine ⟨hrenews.contained, fun k _ => ?_⟩
    rw [hwaits, Wait.Table.cell?_empty]
  have hready := fresh_prepareSlots hrenews hspare hqueue
  rw [hvalue] at hready
  exact ⟨hready.1, hready.2.1⟩

theorem Fresh.spare (h : Fresh d) (hcontained : d.plugin.Contained) : Spare d :=
  ⟨hcontained, fun k _ => h.cell k⟩

/-- Fresh dispatchers of one plugin differ in their persistent state only. -/
theorem Fresh.eq_of_plugin (hd : Fresh d) (he : Fresh e) (hplugin : e.plugin = d.plugin) :
    e = { d with persistent := e.persistent } := by
  have hslots : e.slots = d.slots := by
    apply Vector.ext
    intro k hk
    have hslot := he.slot ⟨k, hk⟩
    rw [hplugin, ← hd.slot ⟨k, hk⟩] at hslot
    exact hslot
  have hwaits : e.waits = d.waits := Wait.Table.eq_of_cell? fun k => by
    rw [he.cell, hd.cell]
  have hqueue : e.queue = d.queue := he.queue.trans hd.queue.symm
  cases e
  cases d
  cases hplugin
  cases hslots
  cases hwaits
  cases hqueue
  rfl

theorem Spare.atEnd {x : Device σ π n m} (h : Spare x.dispatcher)
    (happenings : List (Happening σ)) : Spare (x.atEnd happenings).dispatcher :=
  Device.atEnd_keep happenings (fun _ now op _ hd => hd.perform now op) x h

end Dispatcher

theorem register_pinOps {plugin : Plugin σ π} (hdrives : plugin.Drives pin)
    {waits : Wait.Table m} {d : Dispatcher σ π n m}
    (h : (Dispatcher.register plugin n waits).value = .ok d) :
    pinOps (Dispatcher.register plugin n waits).trace = outputPairs pin n := by
  by_cases hsound : (0 < n ∧ n ≤ 256) ∧ n ≤ m ∧ Board.validateOutput pin = .ok ()
  · exact (register_accepted hdrives waits hsound.1 hsound.2.1 hsound.2.2).2
  · obtain ⟨⟨fault, hfault⟩, -⟩ := register_refused hdrives waits hsound
    rw [hfault] at h
    cases h

/-- Whatever has happened to a blink, ramp or latch since its registration over an empty table, a
reset succeeds, operates pins as the registration did, and leaves the dispatcher that registration
left, with the persistent state of now. -/
theorem reset_renews {plugin : Plugin σ π} (hstock : plugin.StockOn pin)
    {d : Dispatcher σ π n m}
    (hregister : (Dispatcher.register plugin n (Wait.Table.empty : Wait.Table m)).value = .ok d)
    (start : Instant) (happenings : List (Happening σ)) :
    let e := ((Device.mk start d).atEnd happenings).dispatcher
    e.reset.value = (.ok (), { d with persistent := e.persistent }) ∧
      pinOps e.reset.trace =
        pinOps (Dispatcher.register plugin n (Wait.Table.empty : Wait.Table m)).trace := by
  intro e
  have hrenews := hstock.renews
  obtain ⟨hfresh, hplugin⟩ := Dispatcher.fresh_of_register hrenews hregister
  have hspare : e.Spare :=
    Dispatcher.Spare.atEnd (hfresh.spare (hplugin ▸ hrenews.contained)) happenings
  have hsame : e.plugin = plugin :=
    Device.atEnd_keep (P := fun f => f.plugin = plugin) happenings
      (fun f now op _ hf => (f.perform_plugin now op).trans hf) ⟨start, d⟩ hplugin
  have hdrives : e.plugin.Drives pin := hsame ▸ hstock.drives
  refine ⟨?_, (Dispatcher.reset_pinOps hdrives).trans ?_⟩
  · have hready := (Dispatcher.prepareSlots_pinOps (List.finRange n) e.emptied hdrives).1
    obtain ⟨hafter, hkept, hpersistent⟩ := Dispatcher.fresh_prepareSlots (d := e.emptied)
      (hsame ▸ hrenews) ⟨hspare.contained, hspare.unused⟩ rfl
    have hrenewed := hfresh.eq_of_plugin hafter (hkept.trans (hsame.trans hplugin.symm))
    rw [hpersistent] at hrenewed
    rw [Dispatcher.reset_value]
    exact Prod.ext hready hrenewed
  · exact (register_pinOps hstock.drives hregister).symm

/-- Two ramps over a table of three waits, one of them sent astray and ended, the other in flight
with a command behind it. -/
theorem reset_renews_ramp :
    ∃ d : Dispatcher (Progress Ramp.Counters) Unit 2 3,
      (Dispatcher.register (Ramp.plugin 8) 2 (Wait.Table.empty : Wait.Table 3)).value = .ok d ∧
      let happenings : List (Happening (Progress Ramp.Counters)) :=
        [.operate (.submit 0 [1, 5, 0]), .operate (.submit 1 [2, 0, 0]), .operate .tick,
          .operate (.edit 0 fun p => { p with resumePoint := 77 }), .operate .tick,
          .operate (.submit 1 [3, 0, 0]), .operate (.edit 0 fun _ => ⟨2, ⟨9, 9⟩, ⟨200, 7⟩⟩)]
      let e := ((Device.mk 5 d).atEnd happenings).dispatcher
      e.inFlight = 1 ∧ e.queue.length = 1 ∧ e.waits.pending = 1 ∧
        (e.slot 0).state.resumePoint = 2 ∧
        e.reset.value = (.ok (), { d with persistent := e.persistent }) ∧
        pinOps e.reset.trace = pinOps (Dispatcher.register (Ramp.plugin 8) 2
          (Wait.Table.empty : Wait.Table 3)).trace := by
  refine ⟨_, rfl, ?_⟩
  intro happenings e
  obtain ⟨hvalue, hpins⟩ :=
    reset_renews (.ramp : (Ramp.plugin 8).StockOn 8) (n := 2) (m := 3) rfl 5 happenings
  exact ⟨by decide, by decide, by decide, by decide, hvalue, hpins⟩

end Resumable
