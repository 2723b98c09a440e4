import Resumable.Proofs.Outputs
import Resumable.Proofs.Reset

/-!
# The account of a latch

A latch serves a command in the one turn that admits it, and counts it if it was long enough to be
read. The invariant of its dispatchers is that no session is ever in flight and the table of waits
never changes; `Tallied` says what a stretch of a run adds to the account, and stretches compose.
-/

namespace Resumable

variable {σ π : Type} {n m : Nat}

/-! ### One call of a latch -/

namespace Latch

/-- What a turn does with the command that it admits, on the configured pin. -/
structure Serves (pin : PinId) (t : Turn) : Prop where
  admitted : ∃ command, t.admitted = some command ∧ t.call.command = command.bytes
  ended : t.ending.isSome = true
  latched : ∀ count rest, t.call.command = count :: rest → 2 ≤ rest.length →
    deeds t.handling = [.pin (.write pin .high)] ∧
      ∃ reply, t.ending = some (.ok reply) ∧ reply.toList = [count]
  truncated : t.call.command.length < 3 →
    deeds t.handling = [] ∧ t.ending = some (.error (.command ⟨3, t.call.command.length⟩))

theorem handle_of_short (pin : PinId) {call : Call} (tally : Tally) (w : Workspace Unit m)
    (h : call.command.length < 3) :
    handle pin call tally w =
      ⟨[], .error (.command ⟨3, call.command.length⟩), tally, w⟩ := by
  unfold handle
  rw [readRequest_of_short h]
  rfl

theorem handle_of_long (pin : PinId) (call : Call) (tally : Tally) {w : Workspace Unit m}
    {count : UInt8} {rest : List UInt8} (h : call.command = count :: rest) (hrest : 2 ≤ rest.length)
    (hreply : w.reply.toList = []) :
    ∃ reply, reply.toList = [count] ∧ handle pin call tally w =
      ⟨[.pin (.write pin .high), latched count (tally.count call)], .ok .ok, tally.count call,
        { w with reply }⟩ := by
  obtain ⟨reply, hpush, hview⟩ := push_of_unanswered hreply count
  refine ⟨reply, hview, ?_⟩
  match rest, hrest with
  | lo :: hi :: rest, _ =>
    have hread : readRequest call.command = .ok ⟨count, wordOfBytes lo hi⟩ := by rw [h]; rfl
    unfold handle
    simp only [hread, hpush]
    rfl

/-- No session is in flight, and the table of waits is as it was registered. -/
structure Open (pin : PinId) (table : Wait.Table m) (d : Dispatcher Unit Tally n m) : Prop where
  plugin : d.plugin = Latch.plugin pin
  idle : ∀ i, (d.slot i).busy = false
  waits : d.waits = table

/-- How many of the commands that ended were served. -/
def successes (turns : List Turn) : Nat := (completions turns).countP (·.ending.isOk)

@[simp] theorem successes_append (first second : List Turn) :
    successes (first ++ second) = successes first + successes second := by
  simp [successes, completions]

/-- What the turns of a stretch of a run, from one dispatcher to another, did to the account. -/
structure Tallied (pin : PinId) (table : Wait.Table m) (d : Dispatcher Unit Tally n m)
    (turns : List Turn) (e : Dispatcher Unit Tally n m) : Prop where
  still : Open pin table e
  serves : ∀ t ∈ turns, Serves pin t
  served : e.persistent.served = d.persistent.served + UInt32.ofNat (successes turns)

variable {pin : PinId} {table : Wait.Table m} {d e f : Dispatcher Unit Tally n m}

theorem tallied_nil (h : Open pin table e) (htally : e.persistent = d.persistent) :
    Tallied pin table d [] e := by
  refine ⟨h, nofun, ?_⟩
  rw [htally]
  exact (UInt32.add_zero _).symm

theorem Tallied.append {first second : List Turn} (h : Tallied pin table d first e)
    (h' : Tallied pin table e second f) : Tallied pin table d (first ++ second) f := by
  refine ⟨h'.still, ?_, ?_⟩
  · intro t ht
    rcases List.mem_append.mp ht with ht | ht
    · exact h.serves t ht
    · exact h'.serves t ht
  · rw [h'.served, h.served, successes_append, UInt32.ofNat_add, UInt32.add_assoc]

theorem open_store {i : Fin n} {slot : Slot Unit} {waits : Wait.Table m} (tally : Tally)
    (hplugin : d.plugin = Latch.plugin pin) (hother : ∀ j, j ≠ i → (d.slot j).busy = false)
    (hslot : slot.busy = false) (hwaits : waits = table) :
    Open pin table (d.store i slot tally waits) := by
  refine ⟨hplugin, ?_, hwaits⟩
  intro j
  by_cases hj : j = i
  · subst hj
    rw [Dispatcher.slot_store]
    exact hslot
  · rw [Dispatcher.slot_store_other d _ _ _ hj]
    exact hother j hj

theorem Open.handled_started (h : Open pin table d) (now : Instant) (i : Fin n)
    (command : Command) (queue : Fifo Pending queueCapacity) :
    (d.started i command queue).handled now i =
      handle pin ⟨now, Dispatcher.session i, command.bytes, true⟩ d.persistent
        ⟨(), d.waits, (d.slot i).reply.clear⟩ := by
  have hplugin : (d.started i command queue).plugin = Latch.plugin pin := h.plugin
  rw [Dispatcher.handled, hplugin, Dispatcher.callOf, Dispatcher.slot_started]
  rfl

variable (hfree : ∀ i : Fin n, table.record? (Dispatcher.session i) = none)

include hfree

theorem Open.cancel (h : Open pin table d) (i : Fin n) :
    d.waits.cancel (Dispatcher.session i) = table := by
  rw [h.waits]
  exact Wait.Table.cancel_of_none (hfree i)

/-- A session that is given a command serves it in the same turn. -/
theorem Open.begun (h : Open pin table d) {now : Instant} {i : Fin n} {command : Command}
    {queue : Fifo Pending queueCapacity}
    {x : Traced Effect (Option Ending × Dispatcher Unit Tally n m)}
    (hserved : Dispatcher.Served (d.started i command queue) now i x) :
    Tallied pin table d
      [⟨Dispatcher.session i, some command, ⟨now, Dispatcher.session i, command.bytes, true⟩,
        x.trace, x.value.1⟩] x.value.2 := by
  have hplugin : (d.started i command queue).plugin = Latch.plugin pin := h.plugin
  have hother : ∀ j, j ≠ i → ((d.started i command queue).slot j).busy = false := by
    intro j hj
    rw [Dispatcher.slot_started_other d _ _ hj]
    exact h.idle j
  have hhandled := h.handled_started now i command queue
  rw [hserved.eq_run]
  rcases Nat.lt_or_ge command.bytes.length 3 with hshort | hlong
  · -- The fault makes the dispatcher cancel a wait, but there is none.
    rw [handle_of_short pin _ _ hshort] at hhandled
    rw [Dispatcher.run_of_handled hhandled]
    refine ⟨open_store _ hplugin hother rfl (h.cancel hfree i), ?_, (UInt32.add_zero _).symm⟩
    rw [List.forall_mem_singleton]
    refine ⟨⟨command, rfl, rfl⟩, rfl, ?_, fun _ => ⟨rfl, rfl⟩⟩
    intro count rest hbytes hrest
    change command.bytes = _ at hbytes
    rw [hbytes, List.length_cons] at hshort
    omega
  · obtain ⟨count, rest, hbytes⟩ :=
      List.exists_cons_of_length_pos (Nat.lt_of_lt_of_le (by decide) hlong)
    have hrest : 2 ≤ rest.length := by
      rw [hbytes, List.length_cons] at hlong
      omega
    obtain ⟨reply, hreply, hhandle⟩ := handle_of_long pin
      ⟨now, Dispatcher.session i, command.bytes, true⟩ d.persistent
      (w := ⟨(), d.waits, (d.slot i).reply.clear⟩) hbytes hrest (Reply.toList_clear _)
    rw [hhandle] at hhandled
    rw [Dispatcher.run_of_handled hhandled]
    refine ⟨open_store _ hplugin hother rfl h.waits, ?_, rfl⟩
    rw [List.forall_mem_singleton]
    refine ⟨⟨command, rfl, rfl⟩, rfl, ?_, fun hshort => absurd hshort (Nat.not_lt.mpr hlong)⟩
    intro count' rest' hbytes' _
    change command.bytes = _ at hbytes'
    rw [hbytes] at hbytes'
    obtain ⟨rfl, -⟩ := List.cons.inj hbytes'
    exact ⟨rfl, reply, rfl, hreply⟩

theorem Open.turn (h : Open pin table d) (now : Instant) (i : Fin n) :
    Tallied pin table d (d.turn now i).1.toList (d.turn now i).2 := by
  have hturned := Dispatcher.turned_turn d now i
  generalize d.turn now i = y at hturned
  cases hturned with
  | idle => exact tallied_nil ⟨h.plugin, h.idle, h.waits⟩ rfl
  | continued hbusy => simp [h.idle i] at hbusy
  | @begun command rest queue call x hbusy hnext hqueue hcall hserved =>
    subst hcall
    exact h.begun hfree hserved

theorem Open.turns (h : Open pin table d) (now : Instant) (sessions : List (Fin n)) :
    Tallied pin table d (d.turns now sessions).1 (d.turns now sessions).2 := by
  induction sessions generalizing d with
  | nil => exact tallied_nil h rfl
  | cons i rest ih =>
    have hfirst := h.turn hfree now i
    exact hfirst.append (ih hfirst.still)

theorem Open.prepareSlot (h : Open pin table d) (i : Fin n) :
    Tallied pin table d [] (d.prepareSlot i).value.2 := by
  have hprepared := Dispatcher.prepared_prepareSlot d i
  generalize (d.prepareSlot i).value = x at hprepared
  cases hprepared with
  | ready hprepare =>
    rw [h.plugin] at hprepare
    cases hprepare
    exact tallied_nil (open_store _ h.plugin (fun j _ => h.idle j) rfl (h.cancel hfree i)) rfl
  | refused hprepare =>
    rw [h.plugin] at hprepare
    cases hprepare

theorem Open.prepareSlots (h : Open pin table d) (sessions : List (Fin n)) :
    Tallied pin table d [] (d.prepareSlots sessions).value.2 := by
  induction sessions generalizing d with
  | nil => exact tallied_nil h rfl
  | cons i rest ih =>
    have hfirst := h.prepareSlot hfree i
    rw [Dispatcher.prepareSlots_cons]
    rcases hvalue : (d.prepareSlot i).value with ⟨ready, e⟩
    rw [hvalue] at hfirst
    cases ready with
    | error fault => exact hfirst
    | ok u => exact hfirst.append (ih hfirst.still)

theorem Open.perform (h : Open pin table d) (now : Instant) (op : Operation Unit) :
    Tallied pin table d (d.perform now op).value.1.turns (d.perform now op).value.2 := by
  cases op with
  | submit s bytes =>
    show Tallied pin table d [] (d.submit s bytes).value.2
    rcases Dispatcher.submit_cases d s bytes with ⟨e, hvalue⟩ | ⟨_, _, queue, _, _, _, hvalue⟩
    · rw [hvalue]
      exact tallied_nil h rfl
    · rw [hvalue]
      exact tallied_nil ⟨h.plugin, h.idle, h.waits⟩ rfl
  | poll s =>
    show Tallied pin table d (Answer.polled (d.poll now s).value.1).turns (d.poll now s).value.2
    rcases Dispatcher.poll_cases d now s with hvalue | ⟨i, _, hvalue⟩
    · rw [hvalue]
      exact tallied_nil h rfl
    · rw [hvalue, Device.turns_polled]
      exact h.turn hfree now i
  | tick => exact h.turns hfree now (List.finRange n)
  | abandon s =>
    show Tallied pin table d [] (d.abandon s).value.2
    rcases Dispatcher.abandon_cases d s with hvalue | ⟨i, rfl, hvalue⟩
    · rw [hvalue]
      exact tallied_nil h rfl
    · rw [hvalue]
      exact tallied_nil (open_store _ h.plugin (fun j _ => h.idle j) rfl (h.cancel hfree i)) rfl
  | reset =>
    have hempty : Open pin table d.emptied := ⟨h.plugin, h.idle, h.waits⟩
    have hfirst : Tallied pin table d [] d.emptied := tallied_nil hempty rfl
    exact hfirst.append (hempty.prepareSlots hfree (List.finRange n))
  | signal s transfer =>
    show Tallied pin table d [] (d.signal s transfer).value.2
    rcases Dispatcher.signal_cases d s transfer with hvalue | ⟨i, rfl, hvalue⟩
    · rw [hvalue]
      exact tallied_nil h rfl
    · have hunheard : (d.waits.signal (Dispatcher.session i) transfer).1 = false := by
        rw [Wait.Table.signal_fst, h.waits, hfree i]
        rfl
      rw [hvalue]
      exact tallied_nil
        ⟨h.plugin, h.idle, (Wait.Table.signal_of_unheard hunheard).trans h.waits⟩ rfl
  | edit s change =>
    show Tallied pin table d [] (d.edit s change).2
    unfold Dispatcher.edit
    rcases Dispatcher.index_cases n s with ⟨i, -, hindex⟩ | ⟨-, hindex⟩
    · rw [hindex]
      exact tallied_nil (open_store d.persistent h.plugin (fun j _ => h.idle j) (h.idle i) h.waits)
        rfl
    · rw [hindex]
      exact tallied_nil h rfl

theorem Open.run {x : Device Unit Tally n m} (h : Open pin table x.dispatcher)
    (happenings : List (Happening Unit)) :
    Tallied pin table x.dispatcher ((x.run happenings).flatMap Moment.turns)
      (x.atEnd happenings).dispatcher := by
  induction happenings generalizing x with
  | nil => exact tallied_nil h rfl
  | cons next rest ih =>
    have hfirst : Tallied pin table x.dispatcher (x.meet next).turns
        (x.meet next).after.dispatcher := by
      cases next with
      | operate op =>
        rw [x.turns_operate op]
        exact h.perform hfree x.now op
      | advance length => exact tallied_nil h rfl
    exact hfirst.append (ih hfirst.still)

omit hfree

theorem prepareSlot_persistent (h : d.plugin = Latch.plugin pin) (i : Fin n) :
    (d.prepareSlot i).value.2.persistent = d.persistent := by
  unfold Dispatcher.prepareSlot
  rw [h]
  rfl

/-- Registration leaves no wait to any session, whatever the table held, and a new tally. -/
theorem open_of_register {waits : Wait.Table m}
    (h : (Dispatcher.register (Latch.plugin pin) n waits).value = .ok d) :
    Open pin d.waits d ∧ (∀ i : Fin n, d.waits.record? (Dispatcher.session i) = none) ∧
      d.persistent = {} := by
  obtain ⟨hplugin, -, hidle⟩ := Dispatcher.idle_of_register h
  obtain ⟨blank, hblank, -, htally, -, -, hvalue⟩ := Dispatcher.prepared_of_register h
  have hkept : d.plugin = Latch.plugin pin ∧ d.persistent = {} := by
    have hready := Dispatcher.prepareSlots_keep
      (P := fun e => e.plugin = Latch.plugin pin ∧ e.persistent = {})
      (fun e i he => ⟨(Dispatcher.prepared_prepareSlot e i).plugin.trans he.1,
        (prepareSlot_persistent he.1 i).trans he.2⟩)
      (List.finRange n) blank ⟨hblank, htally⟩
    rw [hvalue] at hready
    exact hready
  refine ⟨⟨hplugin, hidle, rfl⟩, ?_, hkept.2⟩
  intro i
  exact (Dispatcher.prepareSlots_ok (List.finRange n) blank hvalue (List.mem_finRange i)).unwaiting

end Latch

theorem Device.polled_error {x : Device σ π n m} {h : Happening σ} {e : DispatchError}
    (hanswer : (x.meet h).answer = some (.polled (.error e))) :
    ∃ s, e = .noSuchSession s ∨ e = .idle s := by
  cases h with
  | advance length => cases hanswer
  | operate op =>
    cases op with
    | poll s =>
      have hpoll : (x.dispatcher.poll x.now s).value.1 = .error e :=
        Answer.polled.inj (Option.some.inj hanswer)
      refine ⟨s, ?_⟩
      rcases Dispatcher.poll_cases x.dispatcher x.now s with hvalue | ⟨i, -, hvalue⟩
      · rw [hvalue] at hpoll
        exact .inl (Except.error.inj hpoll).symm
      · rw [hvalue] at hpoll
        rcases hturn : (x.dispatcher.turn x.now i).1 with _ | t
        · rw [hturn] at hpoll
          exact .inr (Except.error.inj hpoll).symm
        · rw [hturn] at hpoll
          cases hpoll
    | submit s bytes => cases hanswer
    | tick => cases hanswer
    | abandon s => cases hanswer
    | reset => cases hanswer
    | signal s transfer => cases hanswer
    | edit s change => cases hanswer

/-- The account of a latch over any run. A poll that finds no work says so; every turn ends at once,
with one write and the count for a reply, or with the fault of a truncated command and nothing done.
Nothing else is done to pins or waits, resets apart, the table of waits never changes, and the tally
is the number of commands served since registration, counted round at 32 bits. -/
theorem latch_keeps_account {pin : PinId} {waits : Wait.Table m}
    {d : Dispatcher Unit Latch.Tally n m}
    (hregister : (Dispatcher.register (Latch.plugin pin) n waits).value = .ok d) (start : Instant)
    (happenings : List (Happening Unit)) :
    let x := Device.mk start d
    (∀ y ∈ x.run happenings,
      (∀ e, y.answer = some (.polled (.error e)) → ∃ s, e = .noSuchSession s ∨ e = .idle s) ∧
      (∀ t ∈ y.turns, Latch.Serves pin t) ∧
      (y.isReset = false → deeds y.effects = y.turns.flatMap fun t => deeds t.handling) ∧
      y.after.dispatcher.waits = d.waits) ∧
    (x.atEnd happenings).dispatcher.persistent.served.toNat =
      Latch.successes ((x.run happenings).flatMap Moment.turns) % UInt32.size := by
  intro x
  obtain ⟨hopen, hfree, htally⟩ := Latch.open_of_register hregister
  refine ⟨?_, ?_⟩
  · intro y hy
    obtain ⟨first, h, rest, -, rfl⟩ := Device.mem_run hy
    have hafter := hopen.run (x := x) hfree (first ++ [h])
    rw [Device.run_concat, List.flatMap_append] at hafter
    refine ⟨fun e => Device.polled_error, ?_, Device.meet_deeds _ h, ?_⟩
    · intro t ht
      exact hafter.serves t (List.mem_append_right _ (by simpa using ht))
    · rw [← hafter.still.waits, Device.atEnd_append]
      rfl
  · have hend := (hopen.run (x := x) hfree happenings).served
    rw [hend, show x.dispatcher.persistent = {} from htally, UInt32.zero_add]
    exact UInt32.toNat_ofNat' ..

/-- Two commands are served and one is too short, with an abandoned session and a reset between. -/
theorem latch_keeps_account_three_commands :
    ∃ d : Dispatcher Unit Latch.Tally 1 1,
      (Dispatcher.register (Latch.plugin 8) 1 Wait.Table.empty).value = .ok d ∧
      let happenings : List (Happening Unit) :=
        [.operate (.submit 0 [5, 0, 0, 9]), .operate (.submit 0 [7]), .operate .tick,
          .operate (.poll 0), .operate (.abandon 0), .operate .reset,
          .operate (.submit 0 [2, 1, 0]), .operate .tick]
      let x : Device Unit Latch.Tally 1 1 := ⟨0, d⟩
      let turns := (x.run happenings).flatMap Moment.turns
      turns.map (·.call.command) = [[5, 0, 0, 9], [7], [2, 1, 0]] ∧
        (∀ t ∈ turns, Latch.Serves 8 t) ∧ Latch.successes turns = 2 ∧
        (x.atEnd happenings).dispatcher.persistent.served.toNat = 2 := by
  refine ⟨_, rfl, ?_⟩
  intro happenings x turns
  have hregister : (Dispatcher.register (Latch.plugin 8) 1
      (Wait.Table.empty : Wait.Table 1)).value = .ok _ := rfl
  obtain ⟨hmoments, hserved⟩ := latch_keeps_account hregister 0 happenings
  have hsuccesses : Latch.successes turns = 2 := by decide
  have htally : 2 % UInt32.size = 2 := by decide
  refine ⟨by decide, ?_, hsuccesses, ?_⟩
  · intro t ht
    obtain ⟨y, hy, ht⟩ := List.mem_flatMap.mp ht
    exact (hmoments y hy).2.1 t ht
  · rw [hserved, hsuccesses, htally]

end Resumable
