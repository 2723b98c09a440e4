import Mathlib.Algebra.Order.BigOperators.Group.Finset
import Resumable.Proofs.Commands
import Resumable.Proofs.Rest

/-!
# The idle loop drains

The loop around a dispatcher ticks, and then sleeps to the earliest deadline if that lies ahead. A
session that is found ready has less to do afterwards, and behind a sleep some session is ready
unless all are done, so the loop comes to rest. On the way every command that was in flight or
queued ends once.

This is so when the table timed nothing past the contexts of the sessions at registration. The loop
sleeps to the earliest deadline of the whole table, and a deadline that is no session's is never
cancelled. Once it is past, the loop does not sleep any more, and a session that is not ready then
never ends; the module closes with such a table.
-/

namespace Resumable

variable {σ π : Type} {n m : Nat}

/-! ### Commands that are still to end -/

def Turn.completed? (t : Turn) : Option (List UInt8) := t.completion?.map fun _ => t.call.command

/-- The bytes of the session's commands that ended, in order. -/
def Moment.completed (i : Fin n) (x : Moment σ π n m) : List (List UInt8) :=
  (x.turnsOf i).filterMap Turn.completed?

namespace Dispatcher

variable {d : Dispatcher σ π n m} {now : Instant} {i j : Fin n}

/-- The command of a session that is in flight, and then those that are queued for it. -/
def owed (d : Dispatcher σ π n m) (i : Fin n) : List (List UInt8) :=
  (if (d.slot i).busy then [(d.slot i).command.bytes] else []) ++ d.waitingFor i

theorem owed_of_idle (hbusy : (d.slot i).busy = false) : d.owed i = d.waitingFor i := by
  simp [owed, hbusy]

theorem Served.settles {x : Traced Effect (Option Ending × Dispatcher σ π n m)}
    (h : Served d now i x) (hbusy : (d.slot i).busy = true) :
    (d.slot i).command.bytes :: x.value.2.waitingFor i =
      (x.value.1.map fun _ => (d.slot i).command.bytes).toList ++ x.value.2.owed i := by
  obtain ⟨state, reply, hslot⟩ := h.slot
  cases hending : x.value.1 with
  | none => simp [owed, hslot, hending, hbusy]
  | some ending => simp [owed, hslot, hending]

theorem completed_own {t : Turn} (h : t.session = session i) :
    ((some t).toList.filter (·.session == session i)).filterMap Turn.completed? =
      (t.ending.map fun _ => t.call.command).toList := by
  cases hending : t.ending with
  | none => simp [h, Turn.completed?, Turn.completion?, hending]
  | some ending => simp [h, Turn.completed?, Turn.completion?, hending]

theorem turn_settles (d : Dispatcher σ π n m) (now : Instant) (i j : Fin n) :
    d.owed i = ((d.turn now j).1.toList.filter (·.session == session i)).filterMap
      Turn.completed? ++ (d.turn now j).2.owed i := by
  have hconserves := turn_conserves d now i j
  have hturned := turned_turn d now j
  by_cases hj : i = j
  · subst hj
    generalize d.turn now i = y at hturned hconserves
    cases hturned with
    | idle => exact congrArg (_ ++ ·) hconserves
    | @continued x hbusy hserved =>
      have hwaiting : d.waitingFor i = x.value.2.waitingFor i := by simpa using hconserves
      rw [completed_own rfl, owed, if_pos hbusy, hwaiting]
      exact hserved.settles hbusy
    | @begun command _ queue _ x hbusy hnext _ hcall hserved =>
      have hwaiting : d.waitingFor i = command.bytes :: x.value.2.waitingFor i := by
        simpa using hconserves
      have hsettles := hserved.settles (by rw [slot_started]; rfl)
      rw [slot_started] at hsettles
      rw [completed_own rfl, owed_of_idle hbusy, hwaiting, hcall]
      exact hsettles
  · have hwaiting := waitingFor_eq (hturned.filter_other hj)
    rw [hturned.filter_session_other d.addressable hj, owed, owed, hturned.slot_other hj, hwaiting]
    rfl

theorem turns_settle (d : Dispatcher σ π n m) (now : Instant) (i : Fin n)
    (sessions : List (Fin n)) :
    d.owed i = ((d.turns now sessions).1.filter (·.session == session i)).filterMap
      Turn.completed? ++ (d.turns now sessions).2.owed i := by
  induction sessions generalizing d with
  | nil => rfl
  | cons j rest ih =>
    rw [turns_cons, List.filter_append, List.filterMap_append, List.append_assoc,
      ← ih (d.turn now j).2]
    exact turn_settles d now i j

/-! ### Nothing left to do -/

structure Drained (d : Dispatcher σ π n m) : Prop where
  idle : ∀ i, (d.slot i).busy = false
  unqueued : d.queue.toList = []

theorem Drained.owed_eq (h : Drained d) (i : Fin n) : d.owed i = [] := by
  rw [owed_of_idle (h.idle i), waitingFor, queuedFor, h.unqueued]
  rfl

theorem Timed.unqueued (h : d.Timed) (hqueued : ∀ i, d.queuedFor i = []) :
    d.queue.toList = [] := by
  rw [List.eq_nil_iff_forall_not_mem]
  intro p hp
  have hown : p.command ∈ d.queuedFor ⟨p.session.toNat, h.addressed p hp⟩ := by
    refine List.mem_map.mpr ⟨p, List.mem_filter.mpr ⟨hp, ?_⟩, rfl⟩
    simp [isFor]
  rw [hqueued] at hown
  cases hown

/-- When nobody is ready although no deadline lies ahead, all is done. -/
theorem Timed.drained (h : d.Timed) {t : Instant}
    (hawake : ∀ deadline, d.waits.nextDeadline = some deadline → deadline ≤ t)
    (hready : ∀ i, d.ready t i = false) : d.Drained := by
  obtain ⟨hqueued, hahead⟩ := (h.none_ready_iff t).mp hready
  have hnone : d.waits.nextDeadline = none := by
    cases hnext : d.waits.nextDeadline with
    | none => rfl
    | some next => exact absurd (hahead next hnext) (UInt64.not_lt.mpr (hawake next hnext))
  have hidle : ∀ i, (d.slot i).busy = false := by
    intro i
    cases hbusy : (d.slot i).busy with
    | false => rfl
    | true =>
      obtain ⟨deadline, hrecord⟩ := h.busy i hbusy
      have hlater := (d.waits.lt_nextDeadline_iff deadline).mp (by rw [hnone]; exact nofun) _
        deadline hrecord
      exact absurd hlater (UInt64.lt_irrefl deadline)
  exact ⟨hidle, h.unqueued fun i => hqueued i (hidle i)⟩

end Dispatcher

/-! ### The loop -/

theorem Instant.after?_sub {now deadline : Instant} (h : now < deadline) :
    now.after? (deadline - now) = some deadline := by
  have hlt := UInt64.lt_iff_toNat_lt.mp h
  have hsub := UInt64.toNat_sub_of_le deadline now (UInt64.le_of_lt h)
  have hfits := deadline.toNat_lt
  have hroom : now.toNat + (deadline - now).toNat < UInt64.size := by
    rw [hsub, UInt64.size]
    omega
  have hsum : now + (deadline - now) = deadline := by grind
  rw [Instant.after?, if_pos hroom, hsum]

namespace Device

/-- Sleep to the earliest deadline, if it lies ahead. -/
def nap (x : Device σ π n m) : List (Happening σ) :=
  match x.dispatcher.waits.nextDeadline with
  | none => []
  | some deadline => if x.now < deadline then [.advance (deadline - x.now)] else []

def round (x : Device σ π n m) : List (Happening σ) :=
  .operate .tick :: (x.meet (.operate .tick)).after.nap

/-- What the idle loop does in a number of rounds. -/
def rounds : Nat → Device σ π n m → List (Happening σ)
  | 0, _ => []
  | k + 1, x => x.round ++ (x.atEnd x.round).rounds k

theorem nap_cases (x : Device σ π n m) :
    (x.nap = [] ∧ ∀ deadline, x.dispatcher.waits.nextDeadline = some deadline →
        deadline ≤ x.now) ∨
      ∃ deadline, x.dispatcher.waits.nextDeadline = some deadline ∧ x.now < deadline ∧
        x.nap = [.advance (deadline - x.now)] := by
  unfold nap
  cases hnext : x.dispatcher.waits.nextDeadline with
  | none => exact .inl ⟨rfl, nofun⟩
  | some deadline =>
    by_cases hahead : x.now < deadline
    · exact .inr ⟨deadline, rfl, hahead, if_pos hahead⟩
    · refine .inl ⟨if_neg hahead, ?_⟩
      rintro _ ⟨⟩
      exact UInt64.not_lt.mp hahead

theorem atEnd_nap (x : Device σ π n m) :
    (x.atEnd x.nap).dispatcher = x.dispatcher ∧
      ∀ deadline, x.dispatcher.waits.nextDeadline = some deadline →
        deadline ≤ (x.atEnd x.nap).now := by
  rcases x.nap_cases with ⟨hnap, hpast⟩ | ⟨deadline, hnext, hahead, hnap⟩
  · rw [hnap]
    exact ⟨rfl, hpast⟩
  · rw [hnap]
    refine ⟨rfl, ?_⟩
    intro deadline' hnext'
    obtain rfl : deadline = deadline' := Option.some.inj (hnext.symm.trans hnext')
    change deadline ≤ (x.now.after? (deadline - x.now)).getD x.now
    rw [Instant.after?_sub hahead]
    exact UInt64.le_refl deadline

/-! ### One round -/

theorem run_round (x : Device σ π n m) :
    x.run x.round = x.meet (.operate .tick) ::
      (x.meet (.operate .tick)).after.run (x.meet (.operate .tick)).after.nap := rfl

theorem atEnd_round (x : Device σ π n m) :
    (x.atEnd x.round).dispatcher = (x.dispatcher.turns x.now (List.finRange n)).2 :=
  (x.meet (.operate .tick)).after.atEnd_nap.1

theorem awake_round (x : Device σ π n m) {deadline : Instant}
    (h : (x.atEnd x.round).dispatcher.waits.nextDeadline = some deadline) :
    deadline ≤ (x.atEnd x.round).now := by
  rw [atEnd_round] at h
  exact (x.meet (.operate .tick)).after.atEnd_nap.2 deadline h

theorem round_settles (x : Device σ π n m) (i : Fin n) :
    x.dispatcher.owed i =
      (x.run x.round).flatMap (Moment.completed i) ++ (x.atEnd x.round).dispatcher.owed i := by
  have hnap : ∀ y : Device σ π n m, (y.run y.nap).flatMap (Moment.completed i) = [] := by
    intro y
    rcases y.nap_cases with ⟨hnap, -⟩ | ⟨deadline, -, -, hnap⟩
    · rw [hnap]
      rfl
    · rw [hnap]
      rfl
  rw [run_round, List.flatMap_cons, hnap, List.append_nil, atEnd_round, Moment.completed,
    turnsOf_tick]
  exact Dispatcher.turns_settle x.dispatcher x.now i (List.finRange n)

end Device

/-- If time passes in this moment, the clock moves, and to the deadline that was the earliest. -/
def Moment.Wakes (y : Moment σ π n m) : Prop :=
  ∀ length, y.happening = .advance length →
    y.before.now.advance length = .ok y.after.now ∧
      y.before.dispatcher.waits.nextDeadline = some y.after.now

namespace Device

theorem round_wakes (x : Device σ π n m) : ∀ y ∈ x.run x.round, y.Wakes := by
  intro y hy length hlength
  rw [run_round, List.mem_cons] at hy
  rcases hy with rfl | hy
  · cases hlength
  · generalize (x.meet (.operate .tick)).after = z at hy
    rcases z.nap_cases with ⟨hnap, -⟩ | ⟨deadline, hnext, hahead, hnap⟩
    · rw [hnap] at hy
      cases hy
    · rw [hnap] at hy
      obtain rfl := List.mem_singleton.mp hy
      cases hlength
      have hafter := Instant.after?_sub hahead
      change z.now.advance (deadline - z.now) = .ok ((z.now.after? (deadline - z.now)).getD z.now) ∧
        z.dispatcher.waits.nextDeadline = some ((z.now.after? (deadline - z.now)).getD z.now)
      rw [Instant.advance, hafter]
      exact ⟨rfl, hnext⟩

/-! ### All rounds -/

theorem rounds_settle (x : Device σ π n m) (k : Nat) (i : Fin n) :
    x.dispatcher.owed i =
      (x.run (x.rounds k)).flatMap (Moment.completed i) ++
        (x.atEnd (x.rounds k)).dispatcher.owed i := by
  induction k generalizing x with
  | zero => rfl
  | succ k ih =>
    rw [rounds, run_append, atEnd_append, List.flatMap_append, List.append_assoc,
      ← ih (x.atEnd x.round)]
    exact round_settles x i

theorem rounds_wake (x : Device σ π n m) (k : Nat) : ∀ y ∈ x.run (x.rounds k), y.Wakes := by
  induction k generalizing x with
  | zero =>
    intro y hy
    rw [rounds, run] at hy
    cases hy
  | succ k ih =>
    intro y hy
    rw [rounds, run_append, List.mem_append] at hy
    rcases hy with hy | hy
    · exact round_wakes x y hy
    · exact ih (x.atEnd x.round) y hy

end Device

namespace Plugin.Paced

variable {plugin : Plugin σ π} {Inv : Dispatcher σ π n m → Prop} {left : σ → Nat} {most : Nat}

theorem round (h : plugin.Paced Inv left most) {x : Device σ π n m} (hx : Inv x.dispatcher) :
    Inv (x.atEnd x.round).dispatcher := by
  rw [Device.atEnd_round]
  exact h.perform x.dispatcher x.now .tick rfl hx

theorem round_lighter (h : plugin.Paced Inv left most) {x : Device σ π n m}
    (hx : Inv x.dispatcher) {i : Fin n} (hready : x.dispatcher.ready x.now i = true) :
    ∑ j, (x.atEnd x.round).dispatcher.load left most j < ∑ j, x.dispatcher.load left most j := by
  rw [Device.atEnd_round]
  refine Finset.sum_lt_sum ?_ ⟨i, Finset.mem_univ i, ?_⟩
  · intro j _
    exact h.turns_load_le x.now (List.finRange n) hx j
  · exact h.turns_load_lt x.now (List.finRange n) hx (List.mem_finRange i) hready

theorem drains_awake (h : plugin.Paced Inv left most) (x : Device σ π n m)
    (hx : Inv x.dispatcher)
    (hawake : ∀ deadline, x.dispatcher.waits.nextDeadline = some deadline → deadline ≤ x.now) :
    ∃ k, (x.atEnd (x.rounds k)).dispatcher.Drained := by
  generalize hload : ∑ j, x.dispatcher.load left most j = load
  induction load using Nat.strong_induction_on generalizing x with
  | _ load ih =>
    by_cases hready : ∃ i, x.dispatcher.ready x.now i = true
    · obtain ⟨i, hi⟩ := hready
      have hless := h.round_lighter hx hi
      rw [hload] at hless
      obtain ⟨k, hk⟩ := ih _ hless (x.atEnd x.round) (h.round hx)
        (fun _ hnext => x.awake_round hnext) rfl
      refine ⟨k + 1, ?_⟩
      rw [Device.rounds, Device.atEnd_append]
      exact hk
    · refine ⟨0, (h.timed _ hx).drained hawake ?_⟩
      intro i
      cases hi : x.dispatcher.ready x.now i with
      | false => rfl
      | true => exact absurd ⟨i, hi⟩ hready

end Plugin.Paced

/-- Whatever has happened to a blink, ramp or latch dispatcher, apart from changes of a stored
state, since its registration over a table that timed nothing past the contexts of the sessions: the
idle loop comes to a state in which nothing is in flight or queued. It never moves a clock past its
last instant, and of every session exactly those commands end that were in flight or queued, each
once and in order. -/
theorem idle_loop_drains {plugin : Plugin σ π} (hstock : plugin.Stock) {waits : Wait.Table m}
    (huntimed : waits.UntimedFrom n) {d : Dispatcher σ π n m}
    (hregister : (Dispatcher.register plugin n waits).value = .ok d) (start : Instant)
    (happenings : List (Happening σ)) (hedits : ∀ h ∈ happenings, h.isEdit = false) :
    let x := (Device.mk start d).atEnd happenings
    ∃ k, (x.atEnd (x.rounds k)).dispatcher.Drained ∧
      (∀ y ∈ x.run (x.rounds k), y.Wakes) ∧
      ∀ i, (x.run (x.rounds k)).flatMap (Moment.completed i) = x.dispatcher.owed i := by
  intro x
  obtain ⟨Inv, left, most, hpaced⟩ := hstock.paced (n := n) (m := m)
  have hreached : Inv x.dispatcher := hpaced.reached huntimed hregister start happenings hedits
  obtain ⟨k, hk⟩ := hpaced.drains_awake (x.atEnd x.round) (hpaced.round hreached)
    fun _ hnext => x.awake_round hnext
  have hdrained : (x.atEnd (x.rounds (k + 1))).dispatcher.Drained := by
    rw [Device.rounds, Device.atEnd_append]
    exact hk
  refine ⟨k + 1, hdrained, x.rounds_wake (k + 1), ?_⟩
  intro i
  have hsettles := x.rounds_settle (k + 1) i
  rw [hdrained.owed_eq, List.append_nil] at hsettles
  exact hsettles.symm

/-- A ramp that is in flight shortly before the last instant, with two commands queued behind it.
The table came with a deadline for one of the sessions and a transfer for a context past them. -/
theorem idle_loop_drains_ramp :
    ∃ d : Dispatcher (Progress Ramp.Counters) Unit 2 3,
      let waits : Wait.Table 3 :=
        (Wait.Table.empty.arm 0 0 (.timeout 7)).arm 0 2 (.transfer .spiSend)
      waits.UntimedFrom 2 ∧
      (Dispatcher.register (Ramp.plugin 8) 2 waits).value = .ok d ∧
      let x := (Device.mk (Instant.last - 5000) d).atEnd [.operate (.submit 1 [1, 10, 0]),
        .operate (.submit 1 [2, 4, 0]), .operate .tick, .operate (.submit 0 [3, 0, 0])]
      x.dispatcher.owed 1 = [[1, 10, 0], [2, 4, 0]] ∧ x.dispatcher.owed 0 = [[3, 0, 0]] ∧
        ∃ k, (x.atEnd (x.rounds k)).dispatcher.Drained ∧
          (∀ y ∈ x.run (x.rounds k), y.Wakes) ∧
          (x.run (x.rounds k)).flatMap (Moment.completed 1) = [[1, 10, 0], [2, 4, 0]] ∧
          (x.run (x.rounds k)).flatMap (Moment.completed 0) = [[3, 0, 0]] := by
  have huntimed : ((Wait.Table.empty.arm 0 0 (.timeout 7)).arm 0 2 (.transfer .spiSend) :
      Wait.Table 3).UntimedFrom 2 := by
    intro k deadline hk hcell
    by_cases hlast : k = 2
    · subst hlast
      cases hcell
    · have hfirst : k ≠ 0 := by omega
      rw [Wait.Table.arm, Wait.Table.arm, Wait.Table.cell?_update_other _ _ hlast,
        Wait.Table.cell?_update_other _ _ hfirst, Wait.Table.cell?_empty] at hcell
      cases hcell
  refine ⟨_, huntimed, rfl, ?_⟩
  intro x
  have hone : x.dispatcher.owed 1 = [[1, 10, 0], [2, 4, 0]] := by decide
  have hzero : x.dispatcher.owed 0 = [[3, 0, 0]] := by decide
  obtain ⟨k, hdrained, hwakes, hcompleted⟩ := idle_loop_drains (.ramp 8) huntimed rfl
    (Instant.last - 5000) [.operate (.submit 1 [1, 10, 0]), .operate (.submit 1 [2, 4, 0]),
      .operate .tick, .operate (.submit 0 [3, 0, 0])] (by simp [Happening.isEdit])
  exact ⟨hone, hzero, k, hdrained, hwakes, (hcompleted 1).trans hone, (hcompleted 0).trans hzero⟩

/-! ### A deadline that nobody waits for -/

theorem Device.atEnd_rounds_of_still {x : Device σ π n m} (h : x.atEnd x.round = x) (k : Nat) :
    x.atEnd (x.rounds k) = x := by
  induction k with
  | zero => rfl
  | succ k ih => rw [rounds, atEnd_append, h, ih]

/-- One session over a table that was registered with a past deadline for context 1. The command of
the session sleeps to tick 5000, but the past deadline stays the earliest one: no round of the loop
moves the clock, and the command never ends. -/
theorem idle_loop_stalls_on_stale_deadline :
    ∃ d : Dispatcher (Progress Blink.Counters) Unit 1 2,
      (Dispatcher.register (Blink.plugin 8) 1
        ((Wait.Table.empty : Wait.Table 2).arm 0 1 (.timeout 0))).value = .ok d ∧
      let x := (Device.mk 0 d).atEnd [.operate (.submit 0 [1, 5, 0]), .operate .tick]
      x.dispatcher.owed 0 = [[1, 5, 0]] ∧
        x.dispatcher.waits.record? 0 = some (.deadline 5000) ∧
        x.dispatcher.waits.nextDeadline = some 0 ∧
        ∀ k, ¬ (x.atEnd (x.rounds k)).dispatcher.Drained ∧
          (x.atEnd (x.rounds k)).now = 0 ∧
          (x.run (x.rounds k)).flatMap (Moment.completed 0) = [] := by
  refine ⟨_, rfl, ?_⟩
  intro x
  have howed : x.dispatcher.owed 0 = [[1, 5, 0]] := by decide
  have hbusy : (x.dispatcher.slot 0).busy = true := by decide
  have hstill : x.atEnd x.round = x := rfl
  refine ⟨howed, by decide, by decide, ?_⟩
  intro k
  have hrounds := Device.atEnd_rounds_of_still hstill k
  have hsettles := x.rounds_settle k 0
  rw [hrounds] at hsettles ⊢
  refine ⟨?_, rfl, (List.self_eq_append_left.mp hsettles)⟩
  intro hdrained
  rw [hdrained.idle 0] at hbusy
  cases hbusy

end Resumable
