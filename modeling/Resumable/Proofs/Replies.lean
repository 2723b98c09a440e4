import Resumable.Proofs.Outputs
import Resumable.Proofs.Reuse

/-!
# When replies compare equal

A reply that is cleared keeps its storage, and equality compares storages as a whole, so replies of
the same bytes may differ. They cannot where the bytes past both ends are zero. Two replies under
any series of writes, clearings and copies behave as byte lists of bounded length, whatever their
storages hold. In the runs of a blink, ramp or latch a command writes its one byte as it ends and
every command starts with a cleared reply, so only the first byte of a storage is ever written, and
the replies that are reported compare as their bytes do.
-/

namespace Resumable

variable {σ π : Type} {n m : Nat} {pin : PinId}

namespace Reply

variable {r s : Reply} {b : UInt8}

/-! ### Equality -/

/-- All bytes of the storage past the end are zero. -/
def ZeroPadded (r : Reply) : Prop := ∀ b ∈ r.storage.toList.drop r.length, b = 0

instance (r : Reply) : Decidable r.ZeroPadded :=
  List.decidableBAll (· = 0) (r.storage.toList.drop r.length)

theorem eq_iff_storage : r = s ↔ r.storage = s.storage ∧ r.length = s.length := by
  obtain ⟨storage, length, fits⟩ := r
  obtain ⟨storage', length', fits'⟩ := s
  rw [Reply.mk.injEq]

theorem ZeroPadded.storage_eq (h : r.ZeroPadded) :
    r.storage.toList = r.toList ++ List.replicate (replyCapacity - r.length) 0 := by
  have hpast : r.storage.toList.drop r.length = List.replicate (replyCapacity - r.length) 0 := by
    rw [List.eq_replicate_iff]
    exact ⟨by simp, h⟩
  rw [toList, ← hpast, List.take_append_drop]

/-- A storage of zeros past the end is determined by the bytes before it. -/
theorem ZeroPadded.eq_iff (hr : r.ZeroPadded) (hs : s.ZeroPadded) :
    r = s ↔ r.toList = s.toList := by
  refine ⟨congrArg toList, fun hbytes => ?_⟩
  have hlength : r.length = s.length := by
    rw [← length_toList r, hbytes, length_toList]
  have hstorage : r.storage.toList = s.storage.toList := by
    rw [hr.storage_eq, hs.storage_eq, hbytes, hlength]
  exact eq_iff_storage.mpr ⟨Vector.toList_inj.mp hstorage, hlength⟩

/-! ### Two replies -/

inductive Side where
  | first
  | second
deriving DecidableEq, Repr

/-- What can be done to one of two replies. -/
inductive Act where
  | push (b : UInt8)
  | clear
  /-- Become a copy of the other one. -/
  | copy
deriving DecidableEq, Repr

def act (r other : Reply) : Act → Except ReplyError Unit × Reply
  | .push b =>
    match r.push b with
    | .ok s => (.ok (), s)
    | .error cause => (.error cause, r)
  | .clear => (.ok (), r.clear)
  | .copy => (.ok (), other)

/-- What the same does to byte lists of at most eight bytes. -/
def actOnBytes (bytes other : List UInt8) : Act → Except ReplyError Unit × List UInt8
  | .push b =>
    if bytes.length = replyCapacity then (.error .full, bytes) else (.ok (), bytes ++ [b])
  | .clear => (.ok (), [])
  | .copy => (.ok (), other)

/-- Do one thing after the other to a pair, and list the answers. -/
def actAll {α : Type} (act : α → α → Act → Except ReplyError Unit × α) (pair : α × α) :
    List (Side × Act) → List (Except ReplyError Unit) × (α × α)
  | [] => ([], pair)
  | (.first, a) :: rest =>
    let (answer, changed) := act pair.1 pair.2 a
    let (answers, pair) := actAll act (changed, pair.2) rest
    (answer :: answers, pair)
  | (.second, a) :: rest =>
    let (answer, changed) := act pair.2 pair.1 a
    let (answers, pair) := actAll act (pair.1, changed) rest
    (answer :: answers, pair)

theorem push_cases (r : Reply) (b : UInt8) :
    (r.length = replyCapacity ∧ r.push b = .error .full) ∨
      r.length ≠ replyCapacity ∧ ∃ s, r.push b = .ok s := by
  have hfits := r.fits
  unfold push
  split
  case isTrue hroom => exact .inr ⟨by omega, _, rfl⟩
  case isFalse hfull => exact .inl ⟨by omega, rfl⟩

/-- A byte is refused exactly when eight are held, and then the storage is not touched. -/
theorem act_push_full_iff (r other : Reply) (b : UInt8) :
    r.act other (.push b) = (.error .full, r) ↔ r.toList.length = replyCapacity := by
  rw [length_toList]
  rcases r.push_cases b with ⟨hfull, hpush⟩ | ⟨hroom, s, hpush⟩
  · simp only [act, hpush, hfull]
  · simp [act, hpush, hroom]

theorem act_toList (r other : Reply) (a : Act) :
    actOnBytes r.toList other.toList a = ((r.act other a).1, (r.act other a).2.toList) := by
  cases a with
  | push b =>
    rcases r.push_cases b with ⟨hfull, hpush⟩ | ⟨hroom, s, hpush⟩
    · simp only [actOnBytes, act, length_toList, if_pos hfull, hpush]
    · simp only [actOnBytes, act, length_toList, if_neg hroom, hpush, toList_push hpush]
  | clear => rfl
  | copy => rfl

/-- Whatever the storages hold, a pair of replies answers as the pair of their bytes does, and
holds what that holds. -/
theorem actAll_toList (deeds : List (Side × Act)) (pair : Reply × Reply) :
    actAll actOnBytes (pair.1.toList, pair.2.toList) deeds =
      ((actAll act pair deeds).1, (actAll act pair deeds).2.1.toList,
        (actAll act pair deeds).2.2.toList) := by
  induction deeds generalizing pair with
  | nil => rfl
  | cons deed rest ih =>
    obtain ⟨side, a⟩ := deed
    cases side with
    | first =>
      have hrest := ih ((pair.1.act pair.2 a).2, pair.2)
      dsimp only at hrest
      simp only [actAll, act_toList, hrest]
    | second =>
      have hrest := ih (pair.1, (pair.2.act pair.1 a).2)
      dsimp only at hrest
      simp only [actAll, act_toList, hrest]

end Reply

/-! ### What a call writes -/

/-- What a call that was given the reply `r` leaves of it: a byte is written only as the command
ends, and then one. -/
inductive Wrote (r : Reply) : Outcome → Reply → Prop
  | waiting : Wrote r (.ok .waiting) r
  | faulted {fault : Fault} : Wrote r (.error fault) r
  | ended {b : UInt8} {s : Reply} (hpush : r.push b = .ok s) : Wrote r (.ok .ok) s

theorem Wrote.eq_of_ne {r s : Reply} {outcome : Outcome} (h : Wrote r outcome s)
    (hout : outcome ≠ .ok .ok) : s = r := by
  cases h with
  | waiting => rfl
  | faulted => rfl
  | ended => exact absurd rfl hout

def Plugin.RepliesOnce (plugin : Plugin σ π) : Prop :=
  ∀ {m : Nat} (call : Call) (persistent : π) (w : Workspace σ m),
    Wrote w.reply (plugin.handle call persistent w).value.1
      (plugin.handle call persistent w).value.2.2.reply

section Routine

variable {L C : Type} [DecidableEq L] [Label L] [Inhabited C] {routine : Routine L C}
  {call : Call} {w : Workspace (Progress C) m}
  {x : Traced Effect (Outcome × Workspace (Progress C) m)}

theorem Routine.Ran.wrote {l : L} (h : Routine.Ran routine l call w x) :
    Wrote w.reply x.value.1 x.value.2.reply := by
  cases h with
  | failed => exact .faulted
  | rewound => exact .faulted
  | suspended => exact .waiting
  | overfull => exact .faulted
  | finished _ hpush => exact .ended hpush

theorem Routine.Resumed.wrote (h : Routine.Resumed routine call w x) :
    Wrote w.reply x.value.1 x.value.2.reply := by
  cases h with
  | unknown => exact .faulted
  | entered _ hran => exact hran.wrote
  | pending => exact .waiting
  | elapsed _ _ _ hran => exact hran.wrote

theorem Plugin.Runs.repliesOnce {plugin : Plugin (Progress C) π} (h : plugin.Runs routine) :
    plugin.RepliesOnce := by
  intro m call persistent w
  rw [h.handle]
  exact (Routine.resumed_resume routine call w).wrote

end Routine

theorem Latch.plugin_repliesOnce (pin : PinId) : (Latch.plugin pin).RepliesOnce := by
  intro m call tally w
  show Wrote w.reply (handle pin call tally w).value.1 (handle pin call tally w).value.2.2.reply
  unfold handle
  cases readRequest call.command with
  | error fault => exact .faulted
  | ok request =>
    cases hpush : w.reply.push request.count with
    | error cause =>
      simp only [hpush]
      exact .faulted
    | ok reply =>
      simp only [hpush]
      exact .ended hpush

theorem Plugin.StockOn.repliesOnce {plugin : Plugin σ π} (h : plugin.StockOn pin) :
    plugin.RepliesOnce := by
  cases h with
  | blink => exact (Blink.plugin_runs pin).repliesOnce
  | ramp => exact (Ramp.plugin_runs pin).repliesOnce
  | latch => exact Latch.plugin_repliesOnce pin

/-! ### What a dispatcher reports -/

theorem Reply.zeroPadded_of_push {r s : Reply} {b : UInt8} (hr : r.Ready) (h : r.push b = .ok s) :
    s.ZeroPadded := by
  rw [hr, push_empty] at h
  cases h
  have hpast : (empty.storage.set 0 b).toList.drop 1 = List.replicate 7 0 := rfl
  intro c hc
  rw [hpast] at hc
  exact List.eq_of_mem_replicate hc

/-- The reply that ended the turn, if there is one, has zeros past its end. -/
def Turn.ZeroPadded (t : Turn) : Prop := ∀ r, t.ending = some (.ok r) → r.ZeroPadded

namespace Dispatcher

variable {d : Dispatcher σ π n m} {now : Instant} {i : Fin n}
  {x : Traced Effect (Option Ending × Dispatcher σ π n m)} {y : Option Turn × Dispatcher σ π n m}

/-- A handler that is called with a reply which is ready leaves a tidy slot, since it has written
one byte at most. -/
theorem Served.tidy (h : Served d now i x) (honce : d.plugin.RepliesOnce)
    (hready : (d.slot i).reply.Ready) :
    (x.value.2.slot i).Tidy ∧ ∀ r, x.value.1 = some (.ok r) → r.ZeroPadded := by
  have hwrote := honce (d.callOf now i) d.persistent ⟨(d.slot i).state, d.waits, (d.slot i).reply⟩
  change Wrote (d.slot i).reply (d.handled now i).value.1
    (d.handled now i).value.2.2.reply at hwrote
  cases h with
  | @suspended trace persistent w hhandled =>
    rw [hhandled] at hwrote
    have hreply : w.reply = (d.slot i).reply := hwrote.eq_of_ne nofun
    refine ⟨?_, nofun⟩
    rw [slot_store, hreply]
    exact ⟨hready.clear, fun _ => hready⟩
  | answered hhandled =>
    rw [hhandled] at hwrote
    cases hwrote with
    | ended hpush =>
      refine ⟨?_, ?_⟩
      · rw [slot_store]
        exact Slot.tidy_of_idle rfl (Reply.ready_clear_of_push hready hpush)
      · intro r hr
        cases hr
        exact Reply.zeroPadded_of_push hready hpush
  | @faulted trace fault persistent w hhandled =>
    rw [hhandled] at hwrote
    have hreply : w.reply = (d.slot i).reply := hwrote.eq_of_ne nofun
    refine ⟨?_, nofun⟩
    rw [slot_store, hreply]
    exact Slot.tidy_of_idle rfl hready.clear.clear

theorem Turned.tidy (h : Turned d now i y) (honce : d.plugin.RepliesOnce)
    (htidy : (d.slot i).Tidy) : (y.2.slot i).Tidy ∧ ∀ t ∈ y.1.toList, t.ZeroPadded := by
  cases h with
  | idle => exact ⟨htidy, nofun⟩
  | continued hbusy hserved =>
    obtain ⟨hslot, hreply⟩ := hserved.tidy honce (htidy.ready hbusy)
    exact ⟨hslot, List.forall_mem_singleton.mpr hreply⟩
  | begun _ _ _ _ hserved =>
    obtain ⟨hslot, hreply⟩ := hserved.tidy honce (by rw [slot_started]; exact htidy.cleared)
    exact ⟨hslot, List.forall_mem_singleton.mpr hreply⟩

/-- The handler writes one byte at most, and every slot is tidy. -/
structure Tidy (d : Dispatcher σ π n m) : Prop where
  once : d.plugin.RepliesOnce
  slot : ∀ i, (d.slot i).Tidy

theorem Tidy.store (h : d.Tidy) {slot : Slot σ} (hslot : slot.Tidy) (i : Fin n) (persistent : π)
    (waits : Wait.Table m) : (d.store i slot persistent waits).Tidy := by
  refine ⟨h.once, fun j => ?_⟩
  by_cases hj : j = i
  · subst hj
    rw [slot_store]
    exact hslot
  · rw [slot_store_other d _ _ _ hj]
    exact h.slot j

theorem Tidy.turn (h : d.Tidy) (now : Instant) (i : Fin n) :
    (d.turn now i).2.Tidy ∧ ∀ t ∈ (d.turn now i).1.toList, t.ZeroPadded := by
  have hturned := turned_turn d now i
  obtain ⟨hslot, hreplies⟩ := hturned.tidy h.once (h.slot i)
  refine ⟨⟨hturned.plugin ▸ h.once, fun j => ?_⟩, hreplies⟩
  by_cases hj : j = i
  · subst hj
    exact hslot
  · rw [hturned.slot_other hj]
    exact h.slot j

theorem Tidy.turns (h : d.Tidy) (now : Instant) (sessions : List (Fin n)) :
    ∀ t ∈ (d.turns now sessions).1, t.ZeroPadded := by
  induction sessions generalizing d with
  | nil =>
    intro t ht
    cases ht
  | cons i rest ih =>
    obtain ⟨hafter, hfirst⟩ := h.turn now i
    rw [turns_cons, List.forall_mem_append]
    exact ⟨hfirst, ih hafter⟩

theorem Tidy.prepareSlot (h : d.Tidy) (i : Fin n) : (d.prepareSlot i).value.2.Tidy := by
  have hprepared := prepared_prepareSlot d i
  generalize (d.prepareSlot i).value = x at hprepared
  cases hprepared with
  | ready => exact h.store (Slot.tidy_blank _) i _ _
  | refused => exact h.store (Slot.tidy_blank _) i _ _

/-- No operation makes a slot untidy, a change of the stored state included. -/
theorem Tidy.perform (h : d.Tidy) (now : Instant) (op : Operation σ) :
    (d.perform now op).value.2.Tidy := by
  refine perform_keep h ?_ ?_ ?_ ⟨h.once, h.slot⟩ ?_ ?_ ?_
  · intro i bytes command queue _ _
    exact ⟨h.once, h.slot⟩
  · intro e i he
    exact (he.turn now i).1
  · intro i _
    exact h.store (Slot.tidy_blank _) i _ _
  · intro e i he
    exact he.prepareSlot i
  · intro i transfer _
    exact ⟨h.once, h.slot⟩
  · intro i change _
    have hslot : Slot.Tidy { d.slot i with state := change (d.slot i).state } :=
      ⟨(h.slot i).cleared, (h.slot i).ready⟩
    exact h.store hslot i _ _

theorem Tidy.answer (h : d.Tidy) (now : Instant) (op : Operation σ) :
    ∀ t ∈ (d.perform now op).value.1.turns, t.ZeroPadded := by
  cases op with
  | poll s =>
    show ∀ t ∈ (Answer.polled (d.poll now s).value.1).turns, t.ZeroPadded
    rcases poll_cases d now s with hvalue | ⟨i, -, hvalue⟩
    · rw [hvalue]
      intro t ht
      cases ht
    · rw [hvalue, Device.turns_polled]
      exact (h.turn now i).2
  | tick => exact h.turns now (List.finRange n)
  | submit | abandon | reset | signal | edit =>
    intro t ht
    cases ht

theorem tidy_of_register {plugin : Plugin σ π} {waits : Wait.Table m}
    (honce : plugin.RepliesOnce) (h : (register plugin n waits).value = .ok d) : d.Tidy := by
  obtain ⟨blank, rfl, -, -, -, hslots, hvalue⟩ := prepared_of_register h
  have hblank : blank.Tidy := by
    refine ⟨honce, fun i => ?_⟩
    rw [hslots i]
    exact Slot.tidy_blank _
  have hready := prepareSlots_keep (fun e i he => he.prepareSlot i) (List.finRange n) blank hblank
  rw [hvalue] at hready
  exact hready

theorem Tidy.run {x : Device σ π n m} (h : x.dispatcher.Tidy) (happenings : List (Happening σ)) :
    ∀ y ∈ x.run happenings, ∀ t ∈ y.turns, t.ZeroPadded := by
  intro y hy
  obtain ⟨before, next, rest, -, rfl⟩ := Device.mem_run hy
  have hbefore : (x.atEnd before).dispatcher.Tidy :=
    Device.atEnd_keep before (fun _ now op _ hd => hd.perform now op) x h
  cases next with
  | operate op =>
    rw [Device.turns_operate]
    exact hbefore.answer _ op
  | advance length =>
    intro t ht
    cases ht

end Dispatcher

/-! ### Reports of a run -/

/-- The replies that an answer reports: that of a poll, or those of the commands that a tick
ended. -/
def Answer.replies : Answer → List Reply
  | .polled (.ok t) =>
    match t.answer with
    | .ok reply => reply.toList
    | .error _ => []
  | .ticked ts => (completions ts).filterMap (·.ending.toOption)
  | _ => []

theorem exists_turn_of_completion {turns : List Turn} {c : Completion}
    (h : c ∈ completions turns) : ∃ t ∈ turns, t.ending = some c.ending := by
  obtain ⟨t, ht, hcompletion⟩ := List.mem_filterMap.mp h
  obtain ⟨ending, hending, rfl⟩ := Option.map_eq_some_iff.mp hcompletion
  exact ⟨t, ht, hending⟩

theorem Answer.exists_turn_of_reply {a : Answer} {r : Reply} (h : r ∈ a.replies) :
    ∃ t ∈ a.turns, t.ending = some (.ok r) := by
  cases a with
  | polled result =>
    cases result with
    | error e => cases h
    | ok t =>
      refine ⟨t, List.mem_singleton_self t, ?_⟩
      unfold replies Turn.answer at h
      rcases hending : t.ending with _ | fault | reply
      · simp only [hending] at h
        cases h
      · simp only [hending] at h
        cases h
      · simp only [hending] at h
        rw [List.mem_singleton.mp h]
  | ticked turns =>
    obtain ⟨c, hc, hreply⟩ := List.mem_filterMap.mp h
    obtain ⟨t, ht, hending⟩ := exists_turn_of_completion hc
    refine ⟨t, ht, hending.trans ?_⟩
    rcases hended : c.ending with fault | reply
    · rw [hended] at hreply
      cases hreply
    · rw [hended] at hreply
      cases hreply
      rfl
  | submitted | abandoned | wasReset | signalled | edited => cases h

/-- A blink, ramp or latch that was put to work, and all that has happened to it since. -/
structure StockRun (σ π : Type) (n m : Nat) where
  pin : PinId
  plugin : Plugin σ π
  stock : plugin.StockOn pin
  waits : Wait.Table m
  dispatcher : Dispatcher σ π n m
  registered : (Dispatcher.register plugin n waits).value = .ok dispatcher
  start : Instant
  happenings : List (Happening σ)

namespace StockRun

def moments (run : StockRun σ π n m) : List (Moment σ π n m) :=
  (Device.mk run.start run.dispatcher).run run.happenings

/-- The replies that were reported, by polls and by ticks. -/
def replies (run : StockRun σ π n m) : List Reply :=
  run.moments.flatMap fun y => y.answer.toList.flatMap Answer.replies

/-- The commands that ended, in polls and in ticks. -/
def completions (run : StockRun σ π n m) : List Completion :=
  run.moments.flatMap fun y => Resumable.completions y.turns

theorem zeroPadded_turns (run : StockRun σ π n m) :
    ∀ y ∈ run.moments, ∀ t ∈ y.turns, t.ZeroPadded := by
  have hready := Dispatcher.tidy_of_register run.stock.repliesOnce run.registered
  exact Dispatcher.Tidy.run (x := ⟨run.start, run.dispatcher⟩) hready run.happenings

theorem zeroPadded_reply (run : StockRun σ π n m) {r : Reply} (h : r ∈ run.replies) :
    r.ZeroPadded := by
  obtain ⟨y, hy, h⟩ := List.mem_flatMap.mp h
  obtain ⟨a, ha, h⟩ := List.mem_flatMap.mp h
  obtain ⟨t, ht, hending⟩ := Answer.exists_turn_of_reply h
  exact run.zeroPadded_turns y hy t (List.mem_flatMap.mpr ⟨a, ha, ht⟩) r hending

theorem zeroPadded_completion (run : StockRun σ π n m) {c : Completion} (h : c ∈ run.completions)
    {r : Reply} (hr : c.ending = .ok r) : r.ZeroPadded := by
  obtain ⟨y, hy, h⟩ := List.mem_flatMap.mp h
  obtain ⟨t, ht, hending⟩ := exists_turn_of_completion h
  exact run.zeroPadded_turns y hy t ht r (hending.trans (congrArg some hr))

end StockRun

theorem Completion.eq_iff_bytes {c c' : Completion} {r r' : Reply} (hc : c.ending = .ok r)
    (hc' : c'.ending = .ok r') (hr : r.ZeroPadded) (hr' : r'.ZeroPadded) :
    c = c' ↔ c.session = c'.session ∧ r.toList = r'.toList := by
  obtain ⟨session, ending⟩ := c
  obtain ⟨session', ending'⟩ := c'
  cases hc
  cases hc'
  rw [Completion.mk.injEq, Except.ok.injEq, hr.eq_iff hr']

/-- Two replies under any series of writes, clearings and copies answer as byte lists do that hold
at most eight bytes, and hold what those hold; a refused write leaves the storage too as it was.
Equality compares storages and lengths. It says that the bytes are equal, and it says so of all
replies with equal bytes and only zeros past their ends. Every reply that a poll or a tick reports
in a run of a blink, ramp or latch has only zeros past its end, so that the completions of any two
runs, if successful, are equal exactly when their sessions and the bytes of their replies are. -/
theorem replies_compare_by_bytes :
    (∀ deeds : List (Reply.Side × Reply.Act),
      let (answers, a, b) := Reply.actAll Reply.act (Reply.empty, Reply.empty) deeds
      let (expected, held, held') := Reply.actAll Reply.actOnBytes ([], []) deeds
      answers = expected ∧ a.toList = held ∧ b.toList = held' ∧
        held.length ≤ replyCapacity ∧ held'.length ≤ replyCapacity ∧
        (∀ x, a.act b (.push x) = (.error .full, a) ↔ held.length = replyCapacity) ∧
        (∀ x, b.act a (.push x) = (.error .full, b) ↔ held'.length = replyCapacity) ∧
        ((a == b) = true ↔ a.storage = b.storage ∧ a.length = b.length) ∧
        ((a == b) = true → held = held') ∧
        (a.ZeroPadded → b.ZeroPadded → held = held' → (a == b) = true)) ∧
    (∀ {σ π : Type} {n m : Nat} (run : StockRun σ π n m), ∀ r ∈ run.replies, r.ZeroPadded) ∧
    ∀ {σ π σ' π' : Type} {n m n' m' : Nat} (run : StockRun σ π n m) (other : StockRun σ' π' n' m'),
      ∀ c ∈ run.completions, ∀ c' ∈ other.completions, ∀ r r',
        c.ending = .ok r → c'.ending = .ok r' →
          ((c == c') = true ↔ c.session = c'.session ∧ r.toList = r'.toList) := by
  refine ⟨fun deeds => ?_, fun run r hr => run.zeroPadded_reply hr, ?_⟩
  · have hbytes := Reply.actAll_toList deeds (Reply.empty, Reply.empty)
    rcases hpair : Reply.actAll Reply.act (Reply.empty, Reply.empty) deeds with ⟨answers, a, b⟩
    rw [hpair] at hbytes
    simp only [Reply.toList_empty] at hbytes
    rw [hbytes]
    simp only [beq_iff_eq]
    refine ⟨trivial, trivial, trivial, ?_, ?_, a.act_push_full_iff b, b.act_push_full_iff a,
      Reply.eq_iff_storage, congrArg Reply.toList, fun ha hb => (ha.eq_iff hb).mpr⟩
    · rw [Reply.length_toList]
      exact a.fits
    · rw [Reply.length_toList]
      exact b.fits
  · intro σ π σ' π' n m n' m' run other c hc c' hc' r r' hr hr'
    rw [beq_iff_eq]
    exact Completion.eq_iff_bytes hr hr' (run.zeroPadded_completion hc hr)
      (other.zeroPadded_completion hc' hr')

/-- Two replies of the same byte, one with a leftover past its end, differ. A latch has replied
seven, then failed, and then replied one: its slot was cleared but kept the seven until that was
written over, and the last completion equals the one that a blink gives. -/
theorem replies_compare_by_bytes_leftovers :
    let deeds : List (Reply.Side × Reply.Act) :=
      [(.first, .push 1), (.first, .push 2), (.first, .clear), (.first, .push 1),
        (.second, .push 1)]
    let pair := (Reply.actAll Reply.act (Reply.empty, Reply.empty) deeds).2
    let first : List (Happening Unit) :=
      [.operate (.submit 0 [7, 0, 0]), .operate .tick, .operate (.submit 0 [1]), .operate .tick]
    let later : List (Happening Unit) := [.operate (.submit 0 [1, 0, 0]), .operate (.poll 0)]
    let seven : Reply := ⟨#v[7, 0, 0, 0, 0, 0, 0, 0], 1, by decide⟩
    let one : Reply := ⟨#v[1, 0, 0, 0, 0, 0, 0, 0], 1, by decide⟩
    (pair.1.toList = [1] ∧ pair.2.toList = [1] ∧ ¬ pair.1.ZeroPadded ∧ pair.2.ZeroPadded ∧
      (pair.1 == pair.2) = false) ∧
    ∃ (latch : StockRun Unit Latch.Tally 1 1) (blink : StockRun (Progress Blink.Counters) Unit 1 1),
      latch.happenings = first ++ later ∧
      (((Device.mk 0 latch.dispatcher).atEnd first).dispatcher.slot 0).reply = seven.clear ∧
      latch.replies = [seven, one] ∧ (∀ r ∈ latch.replies, r.ZeroPadded) ∧
      latch.completions = [⟨0, .ok seven⟩, ⟨0, .error (.command ⟨3, 1⟩)⟩, ⟨0, .ok one⟩] ∧
      blink.completions = [⟨0, .ok one⟩] ∧
      ∀ c ∈ latch.completions, ∀ r, c.ending = .ok r →
        ((c == ⟨0, .ok one⟩) = true ↔ c.session = 0 ∧ r.toList = [1]) := by
  intro deeds pair first later seven one
  obtain ⟨hpair, hreplies, hcompare⟩ := replies_compare_by_bytes
  obtain ⟨-, ha, hb, -, -, -, -, hstorage, -, -⟩ := hpair deeds
  have hdiffer : pair.1.storage ≠ pair.2.storage := by decide
  obtain ⟨blink, hblinked⟩ : ∃ blink : StockRun (Progress Blink.Counters) Unit 1 1,
      blink.completions = [⟨0, .ok one⟩] :=
    ⟨⟨8, Blink.plugin 8, .blink, Wait.Table.empty, _, rfl, 0,
      [.operate (.submit 0 [1, 0, 0]), .operate .tick, .operate .tick, .operate .tick]⟩, by decide⟩
  have hone : ⟨0, .ok one⟩ ∈ blink.completions := by
    rw [hblinked]
    exact List.mem_singleton_self _
  refine ⟨⟨ha, hb, by decide, by decide, Bool.eq_false_iff.mpr fun h => hdiffer (hstorage.mp h).1⟩,
    ⟨8, Latch.plugin 8, .latch, Wait.Table.empty, _, rfl, 0, first ++ later⟩, blink, rfl, by decide,
    by decide, hreplies _, by decide, hblinked, ?_⟩
  intro c hc r hr
  exact hcompare _ blink c hc _ hone r one hr rfl

end Resumable
