import Resumable.Dispatcher.Operation
import Resumable.Proofs.Queue
import Resumable.Proofs.Waits

/-!
# What the operations of a dispatcher can do

One list of cases for admission (`Engaged`), one for a handler call and what is made of its outcome
(`Served`), and one for a whole turn (`Turned`), for any plugin. Later modules take turns apart by
these cases and do not open the operations again. The frame facts say that a turn of one session
leaves the slots and the queued commands of all others as they were.
-/

namespace Resumable.Dispatcher

variable {σ π : Type} {n m : Nat}

/-! ### Sessions and their numbers -/

theorem session_toNat (hn : n ≤ 256) (i : Fin n) : (session i).toNat = i.val := by
  have hi := i.isLt
  simp only [session, UInt8.toNat_ofNat']
  exact Nat.mod_eq_of_lt (by omega)

theorem session_lt (d : Dispatcher σ π n m) (i : Fin n) : (session i).toNat < m := by
  rw [session_toNat d.addressable]
  exact Nat.lt_of_lt_of_le i.isLt d.roomy

theorem session_injective (hn : n ≤ 256) {i j : Fin n} (h : session i = session j) : i = j := by
  apply Fin.ext
  rw [← session_toNat hn i, h, session_toNat hn j]

theorem index_session (hn : n ≤ 256) (i : Fin n) : index n (session i) = .ok i := by
  have hi := session_toNat hn i
  unfold index
  rw [dif_pos (by rw [hi]; exact i.isLt)]
  exact congrArg Except.ok (Fin.ext hi)

theorem eq_session_of_index {s : SessionId} {i : Fin n} (h : index n s = .ok i) :
    s = session i := by
  unfold index at h
  split at h
  case isTrue hlt =>
    cases h
    simp [session]
  case isFalse => cases h

theorem index_cases (n : Nat) (s : SessionId) :
    (∃ i : Fin n, s = session i ∧ index n s = .ok i) ∨
      (n ≤ s.toNat ∧ index n s = .error (.noSuchSession s)) := by
  by_cases h : s.toNat < n
  · have hindex : index n s = .ok ⟨s.toNat, h⟩ := by
      unfold index
      rw [dif_pos h]
    exact .inl ⟨_, eq_session_of_index hindex, hindex⟩
  · refine .inr ⟨Nat.le_of_not_lt h, ?_⟩
    unfold index
    rw [dif_neg h]

theorem slots_getElem? (d : Dispatcher σ π n m) (i : Fin n) :
    d.slots.toList[i.val]? = some (d.slot i) := by
  rw [Vector.getElem?_toList, Vector.getElem?_eq_getElem i.isLt]
  rfl

/-! ### Queued commands, by session -/

def isFor (i : Fin n) (p : Pending) : Bool := p.session.toNat == i.val

/-- The commands queued for the session in a slot, the oldest first. -/
def queuedFor (d : Dispatcher σ π n m) (i : Fin n) : List Command :=
  (d.queue.toList.filter (isFor i)).map (·.command)

theorem queuedFor_eq {d e : Dispatcher σ π n m} {i : Fin n}
    (h : e.queue.toList.filter (isFor i) = d.queue.toList.filter (isFor i)) :
    e.queuedFor i = d.queuedFor i := by
  rw [queuedFor, queuedFor, h]

theorem isFor_session (hn : n ≤ 256) (i j : Fin n) (command : Command) :
    isFor i ⟨session j, command⟩ = true ↔ j = i := by
  simp only [isFor, session_toNat hn j, beq_iff_eq]
  exact ⟨fun h => Fin.ext h, fun h => congrArg Fin.val h⟩

theorem isFor_other {i j : Fin n} (h : j ≠ i) (p : Pending) (hp : isFor i p = true) :
    isFor j p = false := by
  simp only [isFor, beq_iff_eq] at hp
  simp only [isFor, hp, beq_eq_false_iff_ne, ne_eq]
  exact fun e => h (Fin.ext e.symm)

/-! ### What an operation stores -/

def store (d : Dispatcher σ π n m) (i : Fin n) (slot : Slot σ) (persistent : π)
    (waits : Wait.Table m) : Dispatcher σ π n m :=
  { d.setSlot i slot with persistent, waits }

@[simp] theorem slot_store (d : Dispatcher σ π n m) (i : Fin n) (slot : Slot σ) (persistent : π)
    (waits : Wait.Table m) : (d.store i slot persistent waits).slot i = slot :=
  slot_setSlot d i slot

theorem slot_store_other (d : Dispatcher σ π n m) {i j : Fin n} (slot : Slot σ) (persistent : π)
    (waits : Wait.Table m) (h : j ≠ i) :
    (d.store i slot persistent waits).slot j = d.slot j :=
  slot_setSlot_other d slot h

def started (d : Dispatcher σ π n m) (i : Fin n) (command : Command)
    (queue : Fifo Pending queueCapacity) : Dispatcher σ π n m :=
  { d.setSlot i ((d.slot i).start command) with queue }

@[simp] theorem slot_started (d : Dispatcher σ π n m) (i : Fin n) (command : Command)
    (queue : Fifo Pending queueCapacity) :
    (d.started i command queue).slot i = (d.slot i).start command :=
  slot_setSlot d i _

@[simp] theorem queue_started (d : Dispatcher σ π n m) (i : Fin n) (command : Command)
    (queue : Fifo Pending queueCapacity) : (d.started i command queue).queue = queue := rfl

theorem slot_started_other (d : Dispatcher σ π n m) {i j : Fin n} (command : Command)
    (queue : Fifo Pending queueCapacity) (h : j ≠ i) :
    (d.started i command queue).slot j = d.slot j :=
  slot_setSlot_other d _ h

/-! ### Admission -/

/-- How a session can be found, and what is admitted to it. -/
inductive Engaged (d : Dispatcher σ π n m) (i : Fin n) : Admission × Dispatcher σ π n m → Prop
  | inFlight (hbusy : (d.slot i).busy = true) : Engaged d i (.inFlight, d)
  | idle {queue : Fifo Pending queueCapacity} (hbusy : (d.slot i).busy = false)
      (hnone : d.queuedFor i = []) (hqueue : queue.toList = d.queue.toList) :
      Engaged d i (.idle, { d with queue })
  | started {command : Command} {rest : List Command} {queue : Fifo Pending queueCapacity}
      (hbusy : (d.slot i).busy = false) (hnext : d.queuedFor i = command :: rest)
      (hqueue : queue.toList = d.queue.toList.eraseP (isFor i)) :
      Engaged d i (.started command, d.started i command queue)

theorem engaged_engage (d : Dispatcher σ π n m) (i : Fin n) : Engaged d i (d.engage i) := by
  cases hbusy : (d.slot i).busy with
  | true =>
    unfold engage
    rw [hbusy]
    exact .inFlight hbusy
  | false =>
    have hfst := Fifo.takeFirst_fst d.queue (isFor i)
    have hsnd := Fifo.toList_takeFirst d.queue (isFor i)
    rcases htake : d.queue.takeFirst (isFor i) with ⟨found, queue⟩
    rw [htake, ← List.head?_filter] at hfst
    rw [htake] at hsnd
    unfold engage
    rw [hbusy, if_neg Bool.false_ne_true]
    change d.queue.takeFirst (fun p => p.session.toNat == i.val) = (found, queue) at htake
    rw [htake]
    cases hmine : d.queue.toList.filter (isFor i) with
    | nil =>
      rw [hmine] at hfst
      cases hfst
      have hfree : d.queue.toList.eraseP (isFor i) = d.queue.toList := by
        rw [List.eraseP_eq_self_iff]
        exact List.filter_eq_nil_iff.mp hmine
      exact .idle hbusy (by rw [queuedFor, hmine]; rfl) (hsnd.trans hfree)
    | cons next rest =>
      rw [hmine] at hfst
      cases hfst
      exact .started hbusy (by rw [queuedFor, hmine]; rfl) hsnd

/-! ### One handler call -/

def handled (d : Dispatcher σ π n m) (now : Instant) (i : Fin n) :
    Traced Effect (Outcome × π × Workspace σ m) :=
  d.plugin.handle (d.callOf now i) d.persistent ⟨(d.slot i).state, d.waits, (d.slot i).reply⟩

theorem run_of_handled {d : Dispatcher σ π n m} {now : Instant} {i : Fin n} {trace : List Effect}
    {outcome : Outcome} {persistent : π} {w : Workspace σ m}
    (h : d.handled now i = ⟨trace, outcome, persistent, w⟩) :
    d.run now i = match outcome with
      | .ok .waiting => ⟨trace, none, d.store i
          { d.slot i with state := w.state, reply := w.reply, first := false }
          persistent w.waits⟩
      | .ok .ok => ⟨trace, some (.ok w.reply), d.store i
          { d.slot i with state := w.state, reply := w.reply, first := false, busy := false }
          persistent w.waits⟩
      | .error fault => ⟨trace ++ [.wait (.cancel (session i))], some (.error fault), d.store i
          { d.slot i with state := w.state, reply := w.reply.clear, first := false, busy := false }
          persistent (w.waits.cancel (session i))⟩ := by
  have hhandle := h
  unfold handled at hhandle
  dsimp only [run]
  rw [hhandle]
  cases outcome with
  | error fault => rfl
  | ok status =>
    cases status with
    | waiting => exact Traced.ext (List.append_nil trace) rfl
    | ok => exact Traced.ext (List.append_nil trace) rfl

/-- What is made of the outcome of a handler call. -/
inductive Served (d : Dispatcher σ π n m) (now : Instant) (i : Fin n) :
    Traced Effect (Option Ending × Dispatcher σ π n m) → Prop
  | suspended {trace : List Effect} {persistent : π} {w : Workspace σ m}
      (hhandled : d.handled now i = ⟨trace, .ok .waiting, persistent, w⟩) :
      Served d now i ⟨trace, none, d.store i
        { d.slot i with state := w.state, reply := w.reply, first := false }
        persistent w.waits⟩
  | answered {trace : List Effect} {persistent : π} {w : Workspace σ m}
      (hhandled : d.handled now i = ⟨trace, .ok .ok, persistent, w⟩) :
      Served d now i ⟨trace, some (.ok w.reply), d.store i
        { d.slot i with state := w.state, reply := w.reply, first := false, busy := false }
        persistent w.waits⟩
  | faulted {trace : List Effect} {fault : Fault} {persistent : π} {w : Workspace σ m}
      (hhandled : d.handled now i = ⟨trace, .error fault, persistent, w⟩) :
      Served d now i ⟨trace ++ [.wait (.cancel (session i))], some (.error fault), d.store i
        { d.slot i with state := w.state, reply := w.reply.clear, first := false, busy := false }
        persistent (w.waits.cancel (session i))⟩

theorem served_run (d : Dispatcher σ π n m) (now : Instant) (i : Fin n) :
    Served d now i (d.run now i) := by
  rcases hhandled : d.handled now i with ⟨trace, outcome, persistent, w⟩
  rw [run_of_handled hhandled]
  cases outcome with
  | error fault => exact .faulted hhandled
  | ok status =>
    cases status with
    | waiting => exact .suspended hhandled
    | ok => exact .answered hhandled

theorem Served.eq_run {d : Dispatcher σ π n m} {now : Instant} {i : Fin n}
    {x : Traced Effect (Option Ending × Dispatcher σ π n m)} (h : Served d now i x) :
    x = d.run now i := by
  cases h with
  | suspended hhandled => rw [run_of_handled hhandled]
  | answered hhandled => rw [run_of_handled hhandled]
  | faulted hhandled => rw [run_of_handled hhandled]

/-! ### One turn -/

/-- How a turn of a session can go. -/
inductive Turned (d : Dispatcher σ π n m) (now : Instant) (i : Fin n) :
    Option Turn × Dispatcher σ π n m → Prop
  | idle {queue : Fifo Pending queueCapacity} (hbusy : (d.slot i).busy = false)
      (hnone : d.queuedFor i = []) (hqueue : queue.toList = d.queue.toList) :
      Turned d now i (none, { d with queue })
  | continued {x : Traced Effect (Option Ending × Dispatcher σ π n m)}
      (hbusy : (d.slot i).busy = true) (hserved : Served d now i x) :
      Turned d now i (some ⟨session i, none, d.callOf now i, x.trace, x.value.1⟩, x.value.2)
  | begun {command : Command} {rest : List Command} {queue : Fifo Pending queueCapacity}
      {call : Call} {x : Traced Effect (Option Ending × Dispatcher σ π n m)}
      (hbusy : (d.slot i).busy = false) (hnext : d.queuedFor i = command :: rest)
      (hqueue : queue.toList = d.queue.toList.eraseP (isFor i))
      (hcall : call = ⟨now, session i, command.bytes, true⟩)
      (hserved : Served (d.started i command queue) now i x) :
      Turned d now i (some ⟨session i, some command, call, x.trace, x.value.1⟩, x.value.2)

theorem callOf_eq {d : Dispatcher σ π n m} {i : Fin n} {slot : Slot σ} (now : Instant)
    (h : d.slot i = slot) :
    d.callOf now i = ⟨now, session i, slot.command.bytes, slot.first⟩ := by
  rw [callOf, h]

theorem turned_turn (d : Dispatcher σ π n m) (now : Instant) (i : Fin n) :
    Turned d now i (d.turn now i) := by
  have hengaged := engaged_engage d i
  unfold turn
  generalize d.engage i = x at hengaged
  cases hengaged with
  | inFlight hbusy => exact .continued hbusy (served_run d now i)
  | idle hbusy hnone hqueue => exact .idle hbusy hnone hqueue
  | started hbusy hnext hqueue =>
    exact .begun hbusy hnext hqueue (callOf_eq now (slot_started d i _ _)) (served_run _ now i)

theorem turn_of_busy (d : Dispatcher σ π n m) (now : Instant) {i : Fin n}
    (hbusy : (d.slot i).busy = true) :
    d.turn now i =
      (some ⟨session i, none, d.callOf now i, (d.run now i).trace, (d.run now i).value.1⟩,
        (d.run now i).value.2) := by
  unfold turn engage
  rw [if_pos hbusy]
  rfl

/-! ### Frame of a turn -/

section Frame

variable {d : Dispatcher σ π n m} {now : Instant} {i j : Fin n}
  {x : Traced Effect (Option Ending × Dispatcher σ π n m)} {y : Option Turn × Dispatcher σ π n m}

theorem Served.slot_other (h : Served d now i x) (hj : j ≠ i) :
    x.value.2.slot j = d.slot j := by
  cases h with
  | suspended => exact slot_store_other d _ _ _ hj
  | answered => exact slot_store_other d _ _ _ hj
  | faulted => exact slot_store_other d _ _ _ hj

theorem Served.queue (h : Served d now i x) : x.value.2.queue = d.queue := by
  cases h <;> rfl

theorem Served.plugin (h : Served d now i x) : x.value.2.plugin = d.plugin := by
  cases h <;> rfl

theorem Served.slot (h : Served d now i x) : ∃ state reply, x.value.2.slot i =
    ⟨state, (d.slot i).command, reply, x.value.1.isNone && (d.slot i).busy, false⟩ := by
  cases h with
  | suspended => exact ⟨_, _, slot_store d i _ _ _⟩
  | answered => exact ⟨_, _, slot_store d i _ _ _⟩
  | faulted => exact ⟨_, _, slot_store d i _ _ _⟩

theorem Turned.slot_other (h : Turned d now i y) (hj : j ≠ i) : y.2.slot j = d.slot j := by
  cases h with
  | idle => rfl
  | continued _ hserved => exact hserved.slot_other hj
  | begun _ _ _ _ hserved => exact (hserved.slot_other hj).trans (slot_started_other d _ _ hj)

theorem Turned.plugin (h : Turned d now i y) : y.2.plugin = d.plugin := by
  cases h with
  | idle => rfl
  | continued _ hserved => exact hserved.plugin
  | begun _ _ _ _ hserved => exact hserved.plugin

theorem Turned.filter_other (h : Turned d now i y) (hj : j ≠ i) :
    y.2.queue.toList.filter (isFor j) = d.queue.toList.filter (isFor j) := by
  cases h with
  | idle _ _ hqueue => exact congrArg (List.filter (isFor j)) hqueue
  | continued _ hserved => rw [hserved.queue]
  | begun _ _ hqueue _ hserved =>
    rw [hserved.queue, queue_started, hqueue, filter_eraseP_other (isFor_other hj)]

theorem Turned.mem_queue (h : Turned d now i y) {p : Pending} (hp : p ∈ y.2.queue.toList) :
    p ∈ d.queue.toList := by
  cases h with
  | idle _ _ hqueue =>
    rw [← hqueue]
    exact hp
  | continued _ hserved =>
    rw [hserved.queue] at hp
    exact hp
  | begun _ _ hqueue _ hserved =>
    rw [hserved.queue, queue_started, hqueue] at hp
    exact List.mem_of_mem_eraseP hp

theorem Turned.session_eq (h : Turned d now i y) {t : Turn} (ht : y.1 = some t) :
    t.session = session i := by
  cases h with
  | idle => cases ht
  | continued =>
    cases ht
    rfl
  | begun =>
    cases ht
    rfl

theorem Turned.filter_session_other (h : Turned d now i y) (hn : n ≤ 256) (hj : j ≠ i) :
    y.1.toList.filter (·.session == session j) = [] := by
  rw [List.filter_eq_nil_iff]
  intro t ht hsession
  rw [h.session_eq (Option.mem_toList.mp ht), beq_iff_eq] at hsession
  exact hj (session_injective hn hsession).symm

theorem Turned.filter_session_own (h : Turned d now i y) :
    y.1.toList.filter (·.session == session i) = y.1.toList := by
  rw [List.filter_eq_self]
  intro t ht
  rw [h.session_eq (Option.mem_toList.mp ht), beq_self_eq_true]

end Frame

theorem turns_cons (d : Dispatcher σ π n m) (now : Instant) (i : Fin n) (rest : List (Fin n)) :
    d.turns now (i :: rest) =
      ((d.turn now i).1.toList ++ ((d.turn now i).2.turns now rest).1,
        ((d.turn now i).2.turns now rest).2) := rfl

/-- Every turn of a series is given to what the turns of the sessions before it leave. -/
theorem mem_turns {now : Instant} {sessions : List (Fin n)} {d : Dispatcher σ π n m} {t : Turn}
    (ht : t ∈ (d.turns now sessions).1) :
    ∃ first i rest, sessions = first ++ i :: rest ∧
      t ∈ ((d.turns now first).2.turn now i).1 := by
  induction sessions generalizing d with
  | nil => cases ht
  | cons i rest ih =>
    rw [turns_cons] at ht
    rcases List.mem_append.mp ht with ht | ht
    · exact ⟨[], i, rest, rfl, Option.mem_toList.mp ht⟩
    · obtain ⟨first, j, rest', rfl, hturn⟩ := ih ht
      exact ⟨i :: first, j, rest', rfl, hturn⟩

theorem turns_keep {P : Dispatcher σ π n m → Prop} (now : Instant)
    (hturn : ∀ d i, P d → P (d.turn now i).2) (sessions : List (Fin n))
    (d : Dispatcher σ π n m) (hd : P d) : P (d.turns now sessions).2 := by
  induction sessions generalizing d with
  | nil => exact hd
  | cons i rest ih => exact ih (d.turn now i).2 (hturn d i hd)

theorem filter_turns_other (now : Instant) {sessions : List (Fin n)} {j : Fin n}
    (hj : j ∉ sessions) (d : Dispatcher σ π n m) :
    (d.turns now sessions).1.filter (·.session == session j) = [] := by
  induction sessions generalizing d with
  | nil => rfl
  | cons i rest ih =>
    rw [List.mem_cons, not_or] at hj
    have hhead := (turned_turn d now i).filter_session_other d.addressable hj.1
    rw [turns_cons, List.filter_append, hhead, ih hj.2]
    rfl

/-! ### Requests and interventions -/

theorem submit_cases (d : Dispatcher σ π n m) (s : SessionId) (bytes : List UInt8) :
    (∃ e, (d.submit s bytes).value = (.error e, d)) ∨
      ∃ (i : Fin n) (command : Command) (queue : Fifo Pending queueCapacity),
        s = session i ∧ Command.ofBytes? bytes = some command ∧
        d.queue.push ⟨s, command⟩ = some queue ∧
        (d.submit s bytes).value = (.ok (), { d with queue }) := by
  unfold submit
  rcases index_cases n s with ⟨i, hs, hindex⟩ | ⟨_, hindex⟩
  · rw [hindex]
    cases hcommand : Command.ofBytes? bytes with
    | none => exact .inl ⟨_, rfl⟩
    | some command =>
      cases hpush : d.queue.push ⟨s, command⟩ with
      | none => exact .inl ⟨.queueFull, by simp only [hpush]; rfl⟩
      | some queue =>
        refine .inr ⟨i, command, queue, hs, rfl, hpush, ?_⟩
        simp only [hpush]
        rfl
  · rw [hindex]
    exact .inl ⟨_, rfl⟩

theorem poll_session (d : Dispatcher σ π n m) (now : Instant) (i : Fin n) :
    (d.poll now (session i)).value =
      ((d.turn now i).1.elim (.error (.idle (session i))) .ok, (d.turn now i).2) := by
  unfold poll
  rw [index_session d.addressable]
  rcases hturn : d.turn now i with ⟨_ | t, after⟩
  · simp only [hturn]
    rfl
  · simp only [hturn]
    rfl

theorem poll_cases (d : Dispatcher σ π n m) (now : Instant) (s : SessionId) :
    (d.poll now s).value = (.error (.noSuchSession s), d) ∨
      ∃ i, s = session i ∧ (d.poll now s).value =
        ((d.turn now i).1.elim (.error (.idle s)) .ok, (d.turn now i).2) := by
  rcases index_cases n s with ⟨i, rfl, _⟩ | ⟨_, hindex⟩
  · exact .inr ⟨i, rfl, poll_session d now i⟩
  · unfold poll
    rw [hindex]
    exact .inl rfl

theorem abandon_cases (d : Dispatcher σ π n m) (s : SessionId) :
    (d.abandon s).value = (.error (.noSuchSession s), d) ∨
      ∃ i, s = session i ∧ (d.abandon s).value =
        (.ok (), d.store i (Slot.blank d.plugin.blank) d.persistent (d.waits.cancel s)) := by
  unfold abandon
  rcases index_cases n s with ⟨i, hs, hindex⟩ | ⟨_, hindex⟩
  · rw [hindex]
    exact .inr ⟨i, hs, rfl⟩
  · rw [hindex]
    exact .inl rfl

theorem signal_cases (d : Dispatcher σ π n m) (s : SessionId) (transfer : Transfer) :
    (d.signal s transfer).value = (.error (.noSuchSession s), d) ∨
      ∃ i : Fin n, s = session i ∧ (d.signal s transfer).value =
        (.ok (d.waits.signal s transfer).1, { d with waits := (d.waits.signal s transfer).2 }) := by
  unfold signal
  rcases index_cases n s with ⟨i, hs, hindex⟩ | ⟨_, hindex⟩
  · rw [hindex]
    exact .inr ⟨i, hs, rfl⟩
  · rw [hindex]
    exact .inl rfl

theorem signal_session (d : Dispatcher σ π n m) (i : Fin n) (transfer : Transfer) :
    (d.signal (session i) transfer).value =
      (.ok (d.waits.signal (session i) transfer).1,
        { d with waits := (d.waits.signal (session i) transfer).2 }) := by
  unfold signal
  rw [index_session d.addressable]
  rfl

/-! ### Preparation -/

/-- How the preparation of one session can go. -/
inductive Prepared (d : Dispatcher σ π n m) (i : Fin n) :
    Except Fault Unit × Dispatcher σ π n m → Prop
  | ready {persistent : π} {state : σ}
      (hprepare : (d.plugin.prepare d.persistent d.plugin.blank).value
        = (.ok (), persistent, state)) :
      Prepared d i
        (.ok (), d.store i (Slot.blank state) persistent (d.waits.cancel (session i)))
  | refused {fault : Fault} {persistent : π} {state : σ}
      (hprepare : (d.plugin.prepare d.persistent d.plugin.blank).value
        = (.error fault, persistent, state)) :
      Prepared d i (.error fault, d.store i (Slot.blank state) persistent d.waits)

theorem prepared_prepareSlot (d : Dispatcher σ π n m) (i : Fin n) :
    Prepared d i (d.prepareSlot i).value := by
  rcases hprepare : d.plugin.prepare d.persistent d.plugin.blank with
    ⟨trace, ready, persistent, state⟩
  have hvalue := congrArg Traced.value hprepare
  unfold prepareSlot
  rw [hprepare]
  cases ready with
  | error fault => exact .refused hvalue
  | ok u => exact .ready hvalue

theorem Prepared.slot {d : Dispatcher σ π n m} {i : Fin n}
    {x : Except Fault Unit × Dispatcher σ π n m} (h : Prepared d i x) :
    ∃ state, x.2.slot i = Slot.blank state := by
  cases h with
  | ready => exact ⟨_, slot_store d i _ _ _⟩
  | refused => exact ⟨_, slot_store d i _ _ _⟩

theorem Prepared.slot_other {d : Dispatcher σ π n m} {i j : Fin n}
    {x : Except Fault Unit × Dispatcher σ π n m} (h : Prepared d i x) (hj : j ≠ i) :
    x.2.slot j = d.slot j := by
  cases h with
  | ready => exact slot_store_other d _ _ _ hj
  | refused => exact slot_store_other d _ _ _ hj

theorem Prepared.queue {d : Dispatcher σ π n m} {i : Fin n}
    {x : Except Fault Unit × Dispatcher σ π n m} (h : Prepared d i x) : x.2.queue = d.queue := by
  cases h <;> rfl

theorem Prepared.plugin {d : Dispatcher σ π n m} {i : Fin n}
    {x : Except Fault Unit × Dispatcher σ π n m} (h : Prepared d i x) :
    x.2.plugin = d.plugin := by
  cases h <;> rfl

theorem prepareSlots_cons (d : Dispatcher σ π n m) (i : Fin n) (rest : List (Fin n)) :
    (d.prepareSlots (i :: rest)).value =
      match (d.prepareSlot i).value with
      | (.error fault, after) => (.error fault, after)
      | (.ok (), after) => (after.prepareSlots rest).value := by
  rcases hvalue : (d.prepareSlot i).value with ⟨ready, after⟩
  simp only [prepareSlots, Traced.value_bind, hvalue]
  cases ready <;> rfl

theorem prepareSlots_keep {P : Dispatcher σ π n m → Prop}
    (hprepare : ∀ d i, P d → P (d.prepareSlot i).value.2) (sessions : List (Fin n))
    (d : Dispatcher σ π n m) (hd : P d) : P (d.prepareSlots sessions).value.2 := by
  induction sessions generalizing d with
  | nil => exact hd
  | cons i rest ih =>
    have hnext := hprepare d i hd
    rw [prepareSlots_cons]
    rcases hvalue : (d.prepareSlot i).value with ⟨ready, after⟩
    rw [hvalue] at hnext
    cases ready with
    | error fault => exact hnext
    | ok u => exact ih after hnext

theorem queueCapacity_pos : 0 < queueCapacity := by decide

def emptied (d : Dispatcher σ π n m) : Dispatcher σ π n m :=
  { d with queue := Fifo.empty queueCapacity_pos }

theorem reset_value (d : Dispatcher σ π n m) :
    d.reset.value = (d.emptied.prepareSlots (List.finRange n)).value := rfl

theorem queue_reset (d : Dispatcher σ π n m) : d.reset.value.2.queue.toList = [] := by
  rw [reset_value]
  refine prepareSlots_keep (P := fun e => e.queue.toList = []) ?_ _ _ rfl
  intro e i he
  rw [(prepared_prepareSlot e i).queue]
  exact he

/-- The sessions that a series of preparations comes to, up to the first that fails. -/
def reached (d : Dispatcher σ π n m) : List (Fin n) → List (Fin n)
  | [] => []
  | i :: rest => i :: match (d.prepareSlot i).value with
    | (.error _, _) => []
    | (.ok (), after) => after.reached rest

def clears (d : Dispatcher σ π n m) (i : Fin n) : Bool :=
  (d.emptied.reached (List.finRange n)).any (·.val == i.val)

theorem slot_prepareSlots (d : Dispatcher σ π n m) (sessions : List (Fin n)) (i : Fin n) :
    (i ∈ d.reached sessions → ((d.prepareSlots sessions).value.2.slot i).busy = false) ∧
      (i ∉ d.reached sessions → (d.prepareSlots sessions).value.2.slot i = d.slot i) := by
  induction sessions generalizing d with
  | nil => exact ⟨nofun, fun _ => rfl⟩
  | cons j rest ih =>
    have hprepared := prepared_prepareSlot d j
    rw [prepareSlots_cons, reached]
    rcases hvalue : (d.prepareSlot j).value with ⟨ready, after⟩
    rw [hvalue] at hprepared
    have hcleared : i = j → (after.slot i).busy = false := by
      rintro rfl
      obtain ⟨state, hslot⟩ := hprepared.slot
      exact congrArg Slot.busy hslot
    have hother : i ≠ j → after.slot i = d.slot i := fun hij => hprepared.slot_other hij
    cases ready with
    | error fault =>
      refine ⟨fun hmem => hcleared (by simpa using hmem), fun hnot => hother ?_⟩
      simpa using hnot
    | ok u =>
      obtain ⟨hin, hout⟩ := ih after
      by_cases hrest : i ∈ after.reached rest
      · exact ⟨fun _ => hin hrest, fun hnot => absurd (List.mem_cons_of_mem j hrest) hnot⟩
      · have hsame := hout hrest
        refine ⟨fun hmem => ?_, fun hnot => ?_⟩
        · rcases List.mem_cons.mp hmem with hij | hmem'
          · exact (congrArg Slot.busy hsame).trans (hcleared hij)
          · exact absurd hmem' hrest
        · exact hsame.trans (hother fun hij => hnot (by rw [hij]; exact List.mem_cons_self))

theorem slot_reset (d : Dispatcher σ π n m) (i : Fin n) :
    (d.clears i = true → (d.reset.value.2.slot i).busy = false) ∧
      (d.clears i = false → d.reset.value.2.slot i = d.slot i) := by
  obtain ⟨hcleared, hkept⟩ := slot_prepareSlots d.emptied (List.finRange n) i
  have hclears : d.clears i = true ↔ i ∈ d.emptied.reached (List.finRange n) := by
    simp [clears, Fin.val_inj]
  refine ⟨fun h => hcleared (hclears.mp h), fun h => hkept fun hmem => ?_⟩
  rw [hclears.mpr hmem] at h
  cases h

/-! ### Any operation -/

/-- What is kept by queueing a command, by turns, by preparations and by what is done to one
session is kept by every operation. -/
theorem perform_keep {P : Dispatcher σ π n m → Prop} {d : Dispatcher σ π n m} {now : Instant}
    {op : Operation σ} (hd : P d)
    (hsubmit : ∀ (i : Fin n) bytes command queue, op = .submit (session i) bytes →
      d.queue.push ⟨session i, command⟩ = some queue → P { d with queue })
    (hturn : ∀ e i, P e → P (e.turn now i).2)
    (habandon : ∀ i, op = .abandon (session i) →
      P (d.store i (Slot.blank d.plugin.blank) d.persistent (d.waits.cancel (session i))))
    (hempty : P d.emptied)
    (hprepare : ∀ e i, P e → P (e.prepareSlot i).value.2)
    (hsignal : ∀ (i : Fin n) transfer, op = .signal (session i) transfer →
      P { d with waits := (d.waits.signal (session i) transfer).2 })
    (hedit : ∀ i change, op = .edit (session i) change →
      P (d.store i { d.slot i with state := change (d.slot i).state } d.persistent d.waits)) :
    P (d.perform now op).value.2 := by
  cases op with
  | submit s bytes =>
    show P (d.submit s bytes).value.2
    rcases submit_cases d s bytes with ⟨e, hvalue⟩ | ⟨i, command, queue, rfl, _, hpush, hvalue⟩
    · rw [hvalue]
      exact hd
    · rw [hvalue]
      exact hsubmit i bytes command queue rfl hpush
  | poll s =>
    show P (d.poll now s).value.2
    rcases poll_cases d now s with hvalue | ⟨i, _, hvalue⟩
    · rw [hvalue]
      exact hd
    · rw [hvalue]
      exact hturn d i hd
  | tick => exact turns_keep now hturn (List.finRange n) d hd
  | abandon s =>
    show P (d.abandon s).value.2
    rcases abandon_cases d s with hvalue | ⟨i, rfl, hvalue⟩
    · rw [hvalue]
      exact hd
    · rw [hvalue]
      exact habandon i rfl
  | reset => exact prepareSlots_keep hprepare (List.finRange n) _ hempty
  | signal s transfer =>
    show P (d.signal s transfer).value.2
    rcases signal_cases d s transfer with hvalue | ⟨i, rfl, hvalue⟩
    · rw [hvalue]
      exact hd
    · rw [hvalue]
      exact hsignal i transfer rfl
  | edit s change =>
    show P (d.edit s change).2
    unfold edit
    rcases index_cases n s with ⟨i, rfl, hindex⟩ | ⟨_, hindex⟩
    · rw [hindex]
      exact hedit i change rfl
    · rw [hindex]
      exact hd

theorem perform_plugin (d : Dispatcher σ π n m) (now : Instant) (op : Operation σ) :
    (d.perform now op).value.2.plugin = d.plugin := by
  refine perform_keep (P := fun e => e.plugin = d.plugin) rfl ?_ ?_ ?_ rfl ?_ ?_ ?_
  · intro i bytes command queue _ _
    rfl
  · intro e i he
    exact (turned_turn e now i).plugin.trans he
  · intro i _
    rfl
  · intro e i he
    exact (prepared_prepareSlot e i).plugin.trans he
  · intro i transfer _
    rfl
  · intro i change _
    rfl

end Resumable.Dispatcher
