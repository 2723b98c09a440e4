import Resumable.Proofs.Reuse

/-!
# Refused requests

A dispatcher refuses a request for one of four reasons, and each of them can be read off the
session number, the length of the command, the queue and the slot. A refusal leaves no effect, and
the dispatcher as it was but for one thing: the search for a command turns the whole ring, so after
a poll of an idle session the queued commands stand elsewhere in their cells. No operation can tell
two such dispatchers apart, so nothing that happens later can tell that the request was made.
-/

namespace Resumable

theorem Fifo.length_lt_of_push {α : Type} {cap : Nat} {q r : Fifo α cap} {a : α}
    (h : q.push a = some r) : q.length < cap := by
  have hle := q.length_le
  have hne : ¬ q.length = cap := by
    rw [← push_eq_none_iff (a := a), h]
    nofun
  omega

variable {σ π : Type} {n m : Nat}

namespace Dispatcher

/-! ### Dispatchers whose rings are turned -/

/-- The same dispatcher, with the same commands queued in the same order. -/
structure Unchanged (d e : Dispatcher σ π n m) : Prop where
  plugin : e.plugin = d.plugin
  persistent : e.persistent = d.persistent
  slots : e.slots = d.slots
  waits : e.waits = d.waits
  queue : e.queue.toList = d.queue.toList

theorem Unchanged.refl (d : Dispatcher σ π n m) : Unchanged d d := ⟨rfl, rfl, rfl, rfl, rfl⟩

theorem Unchanged.exists_queue {d e : Dispatcher σ π n m} (h : Unchanged d e) :
    ∃ queue, queue.toList = d.queue.toList ∧ e = { d with queue } := by
  obtain ⟨hplugin, hpersistent, hslots, hwaits, hqueue⟩ := h
  refine ⟨e.queue, hqueue, ?_⟩
  rw [← hplugin, ← hpersistent, ← hslots, ← hwaits]

theorem Unchanged.queue_length {d e : Dispatcher σ π n m} (h : Unchanged d e) :
    e.queue.length = d.queue.length := by
  rw [← Fifo.length_toList, h.queue, Fifo.length_toList]

/-- Two results of an operation that agree in all but the cells of the ring. -/
structure Alike {α : Type} (x y : Traced Effect (α × Dispatcher σ π n m)) : Prop where
  trace : y.trace = x.trace
  answer : y.value.1 = x.value.1
  after : Unchanged x.value.2 y.value.2

section Alike

variable {d e : Dispatcher σ π n m}

theorem Unchanged.run (h : Unchanged d e) (now : Instant) (i : Fin n) :
    Alike (d.run now i) (e.run now i) := by
  obtain ⟨queue, hqueue, rfl⟩ := h.exists_queue
  rcases hhandled : d.handled now i with ⟨trace, outcome, persistent, w⟩
  have hhandled' : handled { d with queue } now i = ⟨trace, outcome, persistent, w⟩ := hhandled
  rw [run_of_handled hhandled, run_of_handled hhandled']
  cases outcome with
  | error fault => exact ⟨rfl, rfl, rfl, rfl, rfl, rfl, hqueue⟩
  | ok status =>
    cases status with
    | waiting => exact ⟨rfl, rfl, rfl, rfl, rfl, rfl, hqueue⟩
    | ok => exact ⟨rfl, rfl, rfl, rfl, rfl, rfl, hqueue⟩

theorem Unchanged.slot (h : Unchanged d e) (i : Fin n) : e.slot i = d.slot i := by
  rw [Dispatcher.slot, h.slots]
  rfl

theorem Unchanged.queuedFor (h : Unchanged d e) (i : Fin n) : e.queuedFor i = d.queuedFor i :=
  queuedFor_eq (congrArg (List.filter (isFor i)) h.queue)

/-- The search for a command sees the items of the ring and not where they stand. -/
theorem Unchanged.engaged (h : Unchanged d e) {i : Fin n} {x y : Admission × Dispatcher σ π n m}
    (hx : Engaged d i x) (hy : Engaged e i y) : y.1 = x.1 ∧ Unchanged x.2 y.2 := by
  -- the slot and the commands queued for it decide the case, so both searches end in the same one
  have hslot := congrArg Slot.busy (h.slot i)
  have hnext := h.queuedFor i
  cases hx with
  | inFlight hbusy =>
    rw [hbusy] at hslot
    cases hy with
    | inFlight => exact ⟨rfl, h⟩
    | idle hidle => simp [hidle] at hslot
    | started hidle => simp [hidle] at hslot
  | idle hbusy hnone hqueue =>
    rw [hbusy] at hslot
    rw [hnone] at hnext
    cases hy with
    | inFlight hbusy' => simp [hbusy'] at hslot
    | idle _ _ hqueue' =>
      have hsame := hqueue'.trans (h.queue.trans hqueue.symm)
      exact ⟨rfl, h.plugin, h.persistent, h.slots, h.waits, hsame⟩
    | started _ hnext' => simp [hnext'] at hnext
  | started hbusy hsome hqueue =>
    rw [hbusy] at hslot
    rw [hsome] at hnext
    cases hy with
    | inFlight hbusy' => simp [hbusy'] at hslot
    | idle _ hnone' => simp [hnone'] at hnext
    | started _ hsome' hqueue' =>
      rw [hsome'] at hnext
      obtain ⟨rfl, -⟩ := List.cons.inj hnext
      obtain ⟨queue, -, rfl⟩ := h.exists_queue
      refine ⟨rfl, rfl, rfl, rfl, rfl, ?_⟩
      rw [queue_started, queue_started, hqueue, hqueue', h.queue]

theorem Unchanged.takeTurn (h : Unchanged d e) (now : Instant) (i : Fin n)
    (admitted : Option Command) :
    (e.takeTurn now i admitted).1 = (d.takeTurn now i admitted).1 ∧
      Unchanged (d.takeTurn now i admitted).2 (e.takeTurn now i admitted).2 := by
  obtain ⟨htrace, hending, hafter⟩ := h.run now i
  have hcall : e.callOf now i = d.callOf now i := callOf_eq now (h.slot i)
  refine ⟨?_, hafter⟩
  simp only [Dispatcher.takeTurn, hcall, htrace, hending]

theorem Unchanged.turn (h : Unchanged d e) (now : Instant) (i : Fin n) :
    (e.turn now i).1 = (d.turn now i).1 ∧ Unchanged (d.turn now i).2 (e.turn now i).2 := by
  obtain ⟨hsame, hafter⟩ := h.engaged (engaged_engage d i) (engaged_engage e i)
  unfold Dispatcher.turn
  rcases hd : d.engage i with ⟨admission, d'⟩
  rcases he : e.engage i with ⟨admission', e'⟩
  rw [hd, he] at hsame hafter
  cases hsame
  cases admission with
  | idle => exact ⟨rfl, hafter⟩
  | inFlight =>
    obtain ⟨hturn, hleft⟩ := hafter.takeTurn now i none
    exact ⟨congrArg some hturn, hleft⟩
  | started command =>
    obtain ⟨hturn, hleft⟩ := hafter.takeTurn now i (some command)
    exact ⟨congrArg some hturn, hleft⟩

theorem Unchanged.turns (h : Unchanged d e) (now : Instant) (sessions : List (Fin n)) :
    (e.turns now sessions).1 = (d.turns now sessions).1 ∧
      Unchanged (d.turns now sessions).2 (e.turns now sessions).2 := by
  induction sessions generalizing d e with
  | nil => exact ⟨rfl, h⟩
  | cons i rest ih =>
    obtain ⟨hturn, hafter⟩ := h.turn now i
    obtain ⟨hrest, hend⟩ := ih hafter
    rw [turns_cons, turns_cons, hturn, hrest]
    exact ⟨rfl, hend⟩

/-! ### Operations on such dispatchers -/

theorem Unchanged.submit (h : Unchanged d e) (s : SessionId) (bytes : List UInt8) :
    Alike (d.submit s bytes) (e.submit s bytes) := by
  have hlength := h.queue_length
  obtain ⟨queue, hqueue, rfl⟩ := h.exists_queue
  unfold Dispatcher.submit
  cases index n s with
  | error cause => exact ⟨rfl, rfl, h⟩
  | ok i =>
    cases Command.ofBytes? bytes with
    | none => exact ⟨rfl, rfl, h⟩
    | some command =>
      cases hpush : d.queue.push ⟨s, command⟩ with
      | none =>
        have hfull : queue.push ⟨s, command⟩ = none := by
          rw [Fifo.push_eq_none_iff, hlength]
          exact Fifo.push_eq_none_iff.mp hpush
        simp only [hpush, hfull]
        exact ⟨rfl, rfl, h⟩
      | some longer =>
        have hroom : queue.length < queueCapacity := by
          rw [hlength]
          exact Fifo.length_lt_of_push hpush
        obtain ⟨longer', hpush', hitems⟩ := Fifo.exists_push ⟨s, command⟩ hroom
        simp only [hpush, hpush']
        refine ⟨rfl, rfl, rfl, rfl, rfl, rfl, ?_⟩
        rw [Traced.value_bind, Traced.value_bind]
        exact hitems.trans ((congrArg (· ++ _) hqueue).trans (Fifo.toList_push hpush).symm)

theorem Unchanged.poll (h : Unchanged d e) (now : Instant) (s : SessionId) :
    Alike (d.poll now s) (e.poll now s) := by
  unfold Dispatcher.poll
  cases index n s with
  | error cause => exact ⟨rfl, rfl, h⟩
  | ok i =>
    obtain ⟨hturn, hafter⟩ := h.turn now i
    rcases hd : d.turn now i with ⟨taken, d'⟩
    rcases he : e.turn now i with ⟨taken', e'⟩
    rw [hd, he] at hturn hafter
    cases hturn
    cases taken with
    | none =>
      simp only [hd, he]
      exact ⟨rfl, rfl, hafter⟩
    | some t =>
      simp only [hd, he, h.plugin]
      exact ⟨rfl, rfl, hafter⟩

theorem Unchanged.tick (h : Unchanged d e) (now : Instant) : Alike (d.tick now) (e.tick now) := by
  obtain ⟨hturns, hafter⟩ := h.turns now (List.finRange n)
  refine ⟨?_, hturns, hafter⟩
  simp only [Dispatcher.tick, hturns, h.plugin]

theorem Unchanged.abandon (h : Unchanged d e) (s : SessionId) :
    Alike (d.abandon s) (e.abandon s) := by
  obtain ⟨queue, hqueue, rfl⟩ := h.exists_queue
  unfold Dispatcher.abandon
  cases index n s with
  | error cause => exact ⟨rfl, rfl, h⟩
  | ok i => exact ⟨rfl, rfl, rfl, rfl, rfl, rfl, hqueue⟩

theorem Unchanged.signal (h : Unchanged d e) (s : SessionId) (transfer : Transfer) :
    Alike (d.signal s transfer) (e.signal s transfer) := by
  obtain ⟨queue, hqueue, rfl⟩ := h.exists_queue
  unfold Dispatcher.signal
  cases index n s with
  | error cause => exact ⟨rfl, rfl, h⟩
  | ok i => exact ⟨rfl, rfl, rfl, rfl, rfl, rfl, hqueue⟩

theorem Unchanged.edit (h : Unchanged d e) (s : SessionId) (change : σ → σ) :
    (e.edit s change).1 = (d.edit s change).1 ∧
      Unchanged (d.edit s change).2 (e.edit s change).2 := by
  obtain ⟨queue, hqueue, rfl⟩ := h.exists_queue
  unfold Dispatcher.edit
  cases index n s with
  | error cause => exact ⟨rfl, h⟩
  | ok i => exact ⟨rfl, rfl, rfl, rfl, rfl, hqueue⟩

/-- A reset empties the queue before it does anything else. -/
theorem Unchanged.reset (h : Unchanged d e) : e.reset = d.reset := by
  obtain ⟨queue, -, rfl⟩ := h.exists_queue
  rfl

theorem Alike.answered {α : Type} {x y : Traced Effect (α × Dispatcher σ π n m)}
    (h : Alike x y) (answer : α → Answer) :
    Alike (x >>= fun r => pure (answer r.1, r.2)) (y >>= fun r => pure (answer r.1, r.2)) := by
  obtain ⟨htrace, hanswer, hafter⟩ := h
  exact ⟨congrArg (· ++ []) htrace, congrArg answer hanswer, hafter⟩

theorem Unchanged.perform (h : Unchanged d e) (now : Instant) (op : Operation σ) :
    Alike (d.perform now op) (e.perform now op) := by
  cases op with
  | submit s bytes => exact (h.submit s bytes).answered .submitted
  | poll s => exact (h.poll now s).answered .polled
  | tick => exact (h.tick now).answered .ticked
  | abandon s => exact (h.abandon s).answered .abandoned
  | reset =>
    simp only [Dispatcher.perform, h.reset]
    exact ⟨rfl, rfl, .refl _⟩
  | signal s transfer => exact (h.signal s transfer).answered .signalled
  | edit s change =>
    obtain ⟨hfound, hafter⟩ := h.edit s change
    exact ⟨rfl, congrArg Answer.edited hfound, hafter⟩

end Alike

end Dispatcher

/-! ### Runs of such dispatchers -/

namespace Device

/-- Two devices at one instant whose dispatchers differ in the cells of the ring only. -/
structure Unchanged (x y : Device σ π n m) : Prop where
  now : y.now = x.now
  dispatcher : x.dispatcher.Unchanged y.dispatcher

theorem shown_of_unchanged {y z : Moment σ π n m} (heffects : z.effects = y.effects)
    (hanswer : z.answer = y.answer) (hafter : y.after.dispatcher.Unchanged z.after.dispatcher) :
    z.shown = y.shown := by
  have hbusy : z.after.dispatcher.isBusy = y.after.dispatcher.isBusy := by
    funext s
    rw [Dispatcher.isBusy, Dispatcher.slot?, hafter.slots]
    rfl
  rw [Moment.shown, Moment.shown, heffects, hanswer, hbusy, hafter.queue_length, hafter.waits]

variable {x y : Device σ π n m}

theorem Unchanged.meet (hxy : Unchanged x y) (h : Happening σ) :
    (y.meet h).shown = (x.meet h).shown ∧ Unchanged (x.meet h).after (y.meet h).after := by
  obtain ⟨now, d⟩ := x
  obtain ⟨now', e⟩ := y
  obtain ⟨rfl, hd⟩ := hxy
  cases h with
  | operate op =>
    obtain ⟨htrace, hanswer, hafter⟩ := hd.perform now' op
    exact ⟨shown_of_unchanged htrace (congrArg some hanswer) hafter, rfl, hafter⟩
  | advance length => exact ⟨shown_of_unchanged rfl rfl hd, rfl, hd⟩

theorem Unchanged.run (hxy : Unchanged x y) (later : List (Happening σ)) :
    (y.run later).map Moment.shown = (x.run later).map Moment.shown ∧
      Unchanged (x.atEnd later) (y.atEnd later) := by
  induction later generalizing x y with
  | nil => exact ⟨rfl, hxy⟩
  | cons h rest ih =>
    obtain ⟨hshown, hafter⟩ := hxy.meet h
    obtain ⟨hrest, hend⟩ := ih hafter
    refine ⟨?_, hend⟩
    show (y.meet h).shown :: _ = (x.meet h).shown :: _
    rw [hshown, hrest]

end Device

/-! ### Which requests are refused -/

/-- The reasons for which a request is refused before anything is done. A fault is none of them: it
comes out of a handler that ran. -/
def DispatchError.isRefusal : DispatchError → Bool
  | .fault _ => false
  | _ => true

/-- The error that an operation answers with, if it does. -/
def Answer.error? : Answer → Option DispatchError
  | .submitted (.error cause) => some cause
  | .polled result =>
    match result.bind Turn.answer with
    | .error cause => some cause
    | .ok _ => none
  | .abandoned (.error cause) => some cause
  | .signalled (.error cause) => some cause
  | _ => none

theorem Turn.not_refusal {t : Turn} {cause : DispatchError} (h : t.answer = .error cause) :
    cause.isRefusal = false := by
  unfold Turn.answer at h
  split at h
  · cases h
  · cases h
  · cases h
    rfl

theorem Turn.not_refusal_of_polled {t : Turn} {cause : DispatchError}
    (h : (Answer.polled (.ok t)).error? = some cause) : cause.isRefusal = false := by
  change (match t.answer with
    | .error cause => some cause
    | .ok _ => none) = some cause at h
  split at h
  case h_1 hanswer =>
    cases h
    exact Turn.not_refusal hanswer
  case h_2 => cases h

namespace Dispatcher

theorem isBusy_session (d : Dispatcher σ π n m) (i : Fin n) :
    d.isBusy (session i) = (d.slot i).busy := by
  simp only [isBusy, slot?, session_toNat d.addressable, Vector.getElem?_eq_getElem i.isLt]
  rfl

theorem queuedFor_eq_nil_iff (d : Dispatcher σ π n m) (i : Fin n) :
    d.queuedFor i = [] ↔ ∀ p ∈ d.queue.toList, p.session ≠ session i := by
  simp only [queuedFor, List.map_eq_nil_iff, List.filter_eq_nil_iff, isFor, beq_iff_eq]
  constructor
  · intro h p hp hsession
    apply h p hp
    rw [hsession, session_toNat d.addressable]
  · intro h p hp hnumber
    apply h p hp
    apply UInt8.toNat_inj.mp
    rw [hnumber, session_toNat d.addressable]

theorem not_le_session (hn : n ≤ 256) (i : Fin n) : ¬ n ≤ (session i).toNat := by
  rw [session_toNat hn]
  exact Nat.not_le_of_lt i.isLt

theorem submit_answer (d : Dispatcher σ π n m) (s : SessionId) (bytes : List UInt8) :
    (d.submit s bytes).value.1 =
      if n ≤ s.toNat then .error (.noSuchSession s)
      else if commandCapacity < bytes.length then .error (.commandTooLong bytes.length)
      else if d.queue.toList.length = queueCapacity then .error .queueFull
      else .ok () := by
  unfold submit
  rcases index_cases n s with ⟨i, rfl, hindex⟩ | ⟨hle, hindex⟩
  · rw [hindex, if_neg (not_le_session d.addressable i)]
    by_cases hlong : commandCapacity < bytes.length
    · rw [if_pos hlong, Command.ofBytes?, dif_neg (Nat.not_le_of_lt hlong)]
      rfl
    · rw [if_neg hlong, Command.ofBytes?, dif_pos (Nat.le_of_not_lt hlong), Fifo.length_toList]
      cases hpush : d.queue.push ⟨session i, ⟨bytes, Nat.le_of_not_lt hlong⟩⟩ with
      | none =>
        simp only [hpush, if_pos (Fifo.push_eq_none_iff.mp hpush)]
        rfl
      | some queue =>
        simp only [hpush, if_neg (Nat.ne_of_lt (Fifo.length_lt_of_push hpush))]
        rfl
  · rw [hindex, if_pos hle]
    rfl

theorem abandon_answer (d : Dispatcher σ π n m) (s : SessionId) :
    (d.abandon s).value.1 = if n ≤ s.toNat then .error (.noSuchSession s) else .ok () := by
  unfold abandon
  rcases index_cases n s with ⟨i, rfl, hindex⟩ | ⟨hle, hindex⟩
  · rw [hindex, if_neg (not_le_session d.addressable i)]
    rfl
  · rw [hindex, if_pos hle]
    rfl

theorem signal_answer (d : Dispatcher σ π n m) (s : SessionId) (transfer : Transfer) :
    (d.signal s transfer).value.1 =
      if n ≤ s.toNat then .error (.noSuchSession s) else .ok (d.waits.signal s transfer).1 := by
  unfold signal
  rcases index_cases n s with ⟨i, rfl, hindex⟩ | ⟨hle, hindex⟩
  · rw [hindex, if_neg (not_le_session d.addressable i)]
    rfl
  · rw [hindex, if_pos hle]
    rfl

/-- Whether nothing is in flight and nothing queued for a session. -/
def Workless (d : Dispatcher σ π n m) (s : SessionId) : Prop :=
  d.isBusy s = false ∧ ∀ p ∈ d.queue.toList, p.session ≠ s

theorem workless_session (d : Dispatcher σ π n m) (i : Fin n) :
    d.Workless (session i) ↔ (d.slot i).busy = false ∧ d.queuedFor i = [] := by
  rw [Workless, isBusy_session, queuedFor_eq_nil_iff]

/-- How a poll is answered: there is no such session, it has nothing to do, or it took a turn. -/
inductive PolledAs (d : Dispatcher σ π n m) (s : SessionId) : Except DispatchError Turn → Prop
  | unknown (hnumber : n ≤ s.toNat) : PolledAs d s (.error (.noSuchSession s))
  | idle (hnumber : s.toNat < n) (hidle : d.Workless s) : PolledAs d s (.error (.idle s))
  | turned {t : Turn} (hnumber : s.toNat < n) (hwork : ¬ d.Workless s) : PolledAs d s (.ok t)

theorem polledAs_poll (d : Dispatcher σ π n m) (now : Instant) (s : SessionId) :
    PolledAs d s (d.poll now s).value.1 := by
  rcases index_cases n s with ⟨i, rfl, -⟩ | ⟨hle, hindex⟩
  · have hnumber := Nat.lt_of_not_le (not_le_session d.addressable i)
    have hidle := workless_session d i
    have hturned := turned_turn d now i
    rw [poll_session]
    generalize d.turn now i = y at hturned
    cases hturned with
    | idle hbusy hnone => exact .idle hnumber (hidle.mpr ⟨hbusy, hnone⟩)
    | continued hbusy =>
      refine .turned hnumber fun h => ?_
      simp [(hidle.mp h).1] at hbusy
    | begun _ hnext =>
      refine .turned hnumber fun h => ?_
      simp [(hidle.mp h).2] at hnext
  · unfold poll
    rw [hindex]
    exact .unknown hle

section Poll

variable {d : Dispatcher σ π n m} {s : SessionId} {result : Except DispatchError Turn}

theorem PolledAs.noSuchSession_iff (h : PolledAs d s result) :
    result.bind Turn.answer = .error (.noSuchSession s) ↔ n ≤ s.toNat := by
  cases h with
  | unknown hnumber => exact iff_of_true rfl hnumber
  | idle hnumber => exact iff_of_false nofun (Nat.not_le_of_lt hnumber)
  | turned hnumber =>
    refine iff_of_false (fun hanswer => ?_) (Nat.not_le_of_lt hnumber)
    cases Turn.not_refusal hanswer

theorem PolledAs.idle_iff (h : PolledAs d s result) :
    result.bind Turn.answer = .error (.idle s) ↔ s.toNat < n ∧ d.Workless s := by
  cases h with
  | unknown hnumber => exact iff_of_false nofun fun h => Nat.not_le_of_lt h.1 hnumber
  | idle hnumber hidle => exact iff_of_true rfl ⟨hnumber, hidle⟩
  | turned _ hwork =>
    refine iff_of_false (fun hanswer => ?_) fun h => hwork h.2
    cases Turn.not_refusal hanswer

theorem PolledAs.refusal (h : PolledAs d s result) {cause : DispatchError}
    (hanswer : result.bind Turn.answer = .error cause) (hrefusal : cause.isRefusal = true) :
    cause = .noSuchSession s ∨ cause = .idle s := by
  cases h with
  | unknown =>
    cases hanswer
    exact .inl rfl
  | idle =>
    cases hanswer
    exact .inr rfl
  | turned =>
    rw [Turn.not_refusal hanswer] at hrefusal
    cases hrefusal

end Poll

/-! ### What a refusal leaves -/

/-- Nothing was done: no effect, and the dispatcher as it was. -/
structure Untouched {α : Type} (d : Dispatcher σ π n m)
    (x : Traced Effect (α × Dispatcher σ π n m)) : Prop where
  trace : x.trace = []
  after : Unchanged d x.value.2

section Untouched

variable {d : Dispatcher σ π n m} {s : SessionId} {cause : DispatchError}

/-- A request that does nothing once it answers with an error does nothing when it is refused. -/
theorem Untouched.of_refusal {α : Type}
    {x : Traced Effect (Except DispatchError α × Dispatcher σ π n m)}
    (huntouched : ∀ {cause}, x.value.1 = .error cause → Untouched d x)
    {answer : Except DispatchError α → Answer}
    (hserved : ∀ a cause, (answer (.ok a)).error? = some cause → cause.isRefusal = false)
    (h : (answer x.value.1).error? = some cause) (hrefusal : cause.isRefusal = true) :
    Untouched d (x >>= fun r => pure (answer r.1, r.2)) := by
  cases hresult : x.value.1 with
  | error cause' =>
    obtain ⟨htrace, hafter⟩ := huntouched hresult
    exact ⟨congrArg (· ++ []) htrace, hafter⟩
  | ok a =>
    rw [hresult] at h
    rw [hserved a cause h] at hrefusal
    cases hrefusal

theorem submit_untouched {bytes : List UInt8} (h : (d.submit s bytes).value.1 = .error cause) :
    Untouched d (d.submit s bytes) := by
  revert h
  unfold submit
  cases index n s with
  | error cause => exact fun _ => ⟨rfl, .refl d⟩
  | ok i =>
    cases Command.ofBytes? bytes with
    | none => exact fun _ => ⟨rfl, .refl d⟩
    | some command =>
      cases hpush : d.queue.push ⟨s, command⟩ with
      | none =>
        simp only [hpush]
        exact fun _ => ⟨rfl, .refl d⟩
      | some queue =>
        simp only [hpush]
        intro hok
        cases hok

/-- Only the poll of an idle session changes anything at all: it turns the ring. -/
theorem poll_untouched {now : Instant} (h : (d.poll now s).value.1 = .error cause) :
    Untouched d (d.poll now s) := by
  revert h
  unfold poll
  cases index n s with
  | error cause => exact fun _ => ⟨rfl, .refl d⟩
  | ok i =>
    dsimp only
    have hturned := turned_turn d now i
    generalize d.turn now i = y at hturned
    cases hturned with
    | idle _ _ hqueue => exact fun _ => ⟨rfl, rfl, rfl, rfl, rfl, hqueue⟩
    | continued => nofun
    | begun => nofun

theorem abandon_untouched (h : (d.abandon s).value.1 = .error cause) :
    Untouched d (d.abandon s) := by
  revert h
  unfold abandon
  cases index n s with
  | error cause => exact fun _ => ⟨rfl, .refl d⟩
  | ok i => nofun

theorem signal_untouched {transfer : Transfer}
    (h : (d.signal s transfer).value.1 = .error cause) : Untouched d (d.signal s transfer) := by
  revert h
  unfold signal
  cases index n s with
  | error cause => exact fun _ => ⟨rfl, .refl d⟩
  | ok i => nofun

theorem perform_untouched {now : Instant} {op : Operation σ}
    (h : (d.perform now op).value.1.error? = some cause) (hrefusal : cause.isRefusal = true) :
    Untouched d (d.perform now op) := by
  cases op with
  | submit s bytes => exact .of_refusal submit_untouched nofun h hrefusal
  | poll s => exact .of_refusal poll_untouched (fun _ _ => Turn.not_refusal_of_polled) h hrefusal
  | tick => cases h
  | abandon s => exact .of_refusal abandon_untouched nofun h hrefusal
  | reset => cases h
  | signal s transfer => exact .of_refusal signal_untouched nofun h hrefusal
  | edit s change => cases h

end Untouched

/-! ### Refusals -/

/-- When each request to a dispatcher is refused, and for which of the four reasons. -/
structure Verdicts (d : Dispatcher σ π n m) : Prop where
  submit : ∀ s bytes, (d.submit s bytes).value.1 =
    if n ≤ s.toNat then .error (.noSuchSession s)
    else if commandCapacity < bytes.length then .error (.commandTooLong bytes.length)
    else if d.queue.toList.length = queueCapacity then .error .queueFull
    else .ok ()
  poll_unknown : ∀ now s,
    (d.poll now s).value.1.bind Turn.answer = .error (.noSuchSession s) ↔ n ≤ s.toNat
  poll_idle : ∀ now s,
    (d.poll now s).value.1.bind Turn.answer = .error (.idle s) ↔ s.toNat < n ∧ d.Workless s
  poll_refusal : ∀ now s cause, (d.poll now s).value.1.bind Turn.answer = .error cause →
    cause.isRefusal = true → cause = .noSuchSession s ∨ cause = .idle s
  abandon : ∀ s,
    (d.abandon s).value.1 = if n ≤ s.toNat then .error (.noSuchSession s) else .ok ()
  signal : ∀ s transfer, (d.signal s transfer).value.1 =
    if n ≤ s.toNat then .error (.noSuchSession s) else .ok (d.waits.signal s transfer).1

theorem verdicts (d : Dispatcher σ π n m) : d.Verdicts where
  submit := d.submit_answer
  poll_unknown now s := (d.polledAs_poll now s).noSuchSession_iff
  poll_idle now s := (d.polledAs_poll now s).idle_iff
  poll_refusal now s _ := (d.polledAs_poll now s).refusal
  abandon := d.abandon_answer
  signal := d.signal_answer

end Dispatcher

/-- A request is refused exactly for its reasons, and a refused request has no effect, leaves the
dispatcher as it was, and makes no difference to anything that happens later. -/
theorem refusals_are_exact_and_atomic (x : Device σ π n m) :
    x.dispatcher.Verdicts ∧
    ∀ (op : Operation σ) (cause : DispatchError),
      (x.dispatcher.perform x.now op).value.1.error? = some cause → cause.isRefusal = true →
        let y := (x.meet (.operate op)).after
        (x.meet (.operate op)).effects = [] ∧ x.Unchanged y ∧
          ∀ later, (y.run later).map Moment.shown = (x.run later).map Moment.shown ∧
            (x.atEnd later).Unchanged (y.atEnd later) := by
  refine ⟨x.dispatcher.verdicts, ?_⟩
  intro op cause hanswer hrefusal y
  have huntouched := Dispatcher.perform_untouched hanswer hrefusal
  have hsame : x.Unchanged y := ⟨rfl, huntouched.after⟩
  exact ⟨huntouched.trace, hsame, hsame.run⟩

/-- The one queued command is for the second session. A poll of the first is refused and moves that
command to the next cell of its ring, and a tick that follows starts it all the same. -/
theorem refusals_are_exact_and_atomic_turned_ring :
    ∃ d : Dispatcher (Progress Blink.Counters) Unit 2 2,
      (Dispatcher.register (Blink.plugin 8) 2 Wait.Table.empty).value = .ok d ∧
      let x := (Device.mk 0 d).atEnd [.operate (.submit 1 [1, 0, 0])]
      let y := (x.meet (.operate (.poll 0))).after
      (x.dispatcher.perform x.now (.poll 0)).value.1.error? = some (.idle 0) ∧
        x.dispatcher.queue.head = 0 ∧ y.dispatcher.queue.head = 1 ∧
        x.dispatcher.Verdicts ∧ x.Unchanged y ∧
        (y.run [.operate .tick]).map Moment.shown = (x.run [.operate .tick]).map Moment.shown := by
  refine ⟨_, rfl, ?_⟩
  intro x y
  have hidle : (x.dispatcher.perform x.now (.poll 0)).value.1.error? = some (.idle 0) := by decide
  obtain ⟨hverdicts, hatomic⟩ := refusals_are_exact_and_atomic x
  obtain ⟨-, hsame, hlater⟩ := hatomic _ _ hidle rfl
  exact ⟨hidle, by decide, by decide, hverdicts, hsame, (hlater _).1⟩

end Resumable
