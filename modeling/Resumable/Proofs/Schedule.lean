import Resumable.Proofs.Serve

/-!
# Runs of a dispatcher on its clock

A device is a dispatcher with the clock it runs on. What happens to it is an operation or the
passing of time, and a run is any finite list of these, in any order. Each moment of a run keeps
the device before and after it and the answer that was given, so that statements about whole runs
are statements about lists of moments.
-/

namespace Resumable

variable {σ π : Type} {n m : Nat}

/-- Something that happens to a dispatcher on its clock. -/
inductive Happening (σ : Type) where
  | operate (op : Operation σ)
  | advance (length : Duration)

def Happening.isEdit : Happening σ → Bool
  | .operate (.edit _ _) => true
  | _ => false

def Operation.session? : Operation σ → Option SessionId
  | .submit s _ | .poll s | .abandon s | .signal s _ | .edit s _ => some s
  | .tick | .reset => none

def Happening.session? : Happening σ → Option SessionId
  | .operate op => op.session?
  | .advance _ => none

def Answer.turns : Answer → List Turn
  | .polled (.ok t) => [t]
  | .ticked ts => ts
  | _ => []

structure Device (σ π : Type) (n m : Nat) where
  now : Instant
  dispatcher : Dispatcher σ π n m

/-- One moment of a run. Time that passes has no answer. -/
structure Moment (σ π : Type) (n m : Nat) where
  before : Device σ π n m
  happening : Happening σ
  answer : Option Answer
  after : Device σ π n m

def Moment.turnsOf (i : Fin n) (x : Moment σ π n m) : List Turn :=
  (x.answer.toList.flatMap Answer.turns).filter (·.session == Dispatcher.session i)

def Moment.isReset (x : Moment σ π n m) : Bool :=
  match x.happening with
  | .operate .reset => true
  | _ => false

/-- What the dispatcher did to the outside in this moment. -/
def Moment.effects (x : Moment σ π n m) : List Effect :=
  match x.happening with
  | .operate op => (x.before.dispatcher.perform x.before.now op).trace
  | .advance _ => []

namespace Device

/-- Let something happen. A clock that would pass its last instant does not move. -/
def meet (x : Device σ π n m) : Happening σ → Moment σ π n m
  | .operate op =>
    let performed := (x.dispatcher.perform x.now op).value
    ⟨x, .operate op, some performed.1, { x with dispatcher := performed.2 }⟩
  | .advance length => ⟨x, .advance length, none, { x with now := (x.now.after? length).getD x.now }⟩

def run (x : Device σ π n m) : List (Happening σ) → List (Moment σ π n m)
  | [] => []
  | h :: rest => x.meet h :: (x.meet h).after.run rest

def atEnd (x : Device σ π n m) : List (Happening σ) → Device σ π n m
  | [] => x
  | h :: rest => (x.meet h).after.atEnd rest

@[simp] theorem meet_happening (x : Device σ π n m) (h : Happening σ) :
    (x.meet h).happening = h := by
  cases h <;> rfl

@[simp] theorem meet_before (x : Device σ π n m) (h : Happening σ) : (x.meet h).before = x := by
  cases h <;> rfl

theorem meet_plugin (x : Device σ π n m) (h : Happening σ) :
    (x.meet h).after.dispatcher.plugin = x.dispatcher.plugin := by
  cases h with
  | operate op => exact Dispatcher.perform_plugin x.dispatcher x.now op
  | advance length => rfl

theorem run_append (x : Device σ π n m) (first second : List (Happening σ)) :
    x.run (first ++ second) = x.run first ++ (x.atEnd first).run second := by
  induction first generalizing x with
  | nil => rfl
  | cons h rest ih =>
    show x.meet h :: (x.meet h).after.run (rest ++ second) = _
    rw [ih]
    rfl

theorem run_concat (x : Device σ π n m) (happenings : List (Happening σ)) (h : Happening σ) :
    x.run (happenings ++ [h]) = x.run happenings ++ [(x.atEnd happenings).meet h] :=
  x.run_append happenings [h]

theorem atEnd_append (x : Device σ π n m) (first second : List (Happening σ)) :
    x.atEnd (first ++ second) = (x.atEnd first).atEnd second := by
  induction first generalizing x with
  | nil => rfl
  | cons h rest ih => exact ih (x.meet h).after

/-- What every operation of a run keeps holds at its end. Time changes no dispatcher. -/
theorem atEnd_keep {P : Dispatcher σ π n m → Prop} (happenings : List (Happening σ))
    (hperform : ∀ d now op, .operate op ∈ happenings → P d → P (d.perform now op).value.2)
    (x : Device σ π n m) (hx : P x.dispatcher) : P (x.atEnd happenings).dispatcher := by
  induction happenings generalizing x with
  | nil => exact hx
  | cons h rest ih =>
    refine ih (fun d now op hop => hperform d now op (List.mem_cons_of_mem _ hop)) _ ?_
    cases h with
    | operate op => exact hperform x.dispatcher x.now op (List.mem_cons_self ..) hx
    | advance length => exact hx

/-- Every moment of a run is met by what the happenings before it leave. -/
theorem mem_run {x : Device σ π n m} {happenings : List (Happening σ)} {y : Moment σ π n m}
    (hy : y ∈ x.run happenings) :
    ∃ first h rest, happenings = first ++ h :: rest ∧ y = (x.atEnd first).meet h := by
  induction happenings generalizing x with
  | nil => cases hy
  | cons h rest ih =>
    rcases List.mem_cons.mp hy with rfl | hy
    · exact ⟨[], h, rest, rfl, rfl⟩
    · obtain ⟨first, h', rest', rfl, rfl⟩ := ih hy
      exact ⟨h :: first, h', rest', rfl, rfl⟩

/-! ### The turns of a moment -/

theorem turns_polled (s : SessionId) (t : Option Turn) :
    (Answer.polled (t.elim (.error (.idle s)) .ok)).turns = t.toList := by
  cases t with
  | none => rfl
  | some t => rfl

theorem meet_submit (x : Device σ π n m) {s : SessionId} {bytes : List UInt8}
    {result : Except DispatchError Unit} {d : Dispatcher σ π n m}
    (h : (x.dispatcher.submit s bytes).value = (result, d)) :
    x.meet (.operate (.submit s bytes)) =
      ⟨x, .operate (.submit s bytes), some (.submitted result), { x with dispatcher := d }⟩ := by
  show (⟨x, _, some (.submitted (x.dispatcher.submit s bytes).value.1),
    { x with dispatcher := (x.dispatcher.submit s bytes).value.2 }⟩ : Moment σ π n m) = _
  rw [h]

theorem meet_poll (x : Device σ π n m) {s : SessionId} {result : Except DispatchError Turn}
    {d : Dispatcher σ π n m} (h : (x.dispatcher.poll x.now s).value = (result, d)) :
    x.meet (.operate (.poll s)) =
      ⟨x, .operate (.poll s), some (.polled result), { x with dispatcher := d }⟩ := by
  show (⟨x, _, some (.polled (x.dispatcher.poll x.now s).value.1),
    { x with dispatcher := (x.dispatcher.poll x.now s).value.2 }⟩ : Moment σ π n m) = _
  rw [h]

theorem meet_signal (x : Device σ π n m) {s : SessionId} {transfer : Transfer}
    {result : Except DispatchError Bool} {d : Dispatcher σ π n m}
    (h : (x.dispatcher.signal s transfer).value = (result, d)) :
    x.meet (.operate (.signal s transfer)) =
      ⟨x, .operate (.signal s transfer), some (.signalled result), { x with dispatcher := d }⟩ := by
  show (⟨x, _, some (.signalled (x.dispatcher.signal s transfer).value.1),
    { x with dispatcher := (x.dispatcher.signal s transfer).value.2 }⟩ : Moment σ π n m) = _
  rw [h]

theorem turnsOf_poll (x : Device σ π n m) (i j : Fin n) :
    (x.meet (.operate (.poll (Dispatcher.session j)))).turnsOf i =
      (x.dispatcher.turn x.now j).1.toList.filter (·.session == Dispatcher.session i) := by
  show List.filter _ ((Answer.polled
    (x.dispatcher.poll x.now (Dispatcher.session j)).value.1).turns ++ []) = _
  rw [Dispatcher.poll_session, turns_polled, List.append_nil]

theorem turnsOf_poll_other (x : Device σ π n m) {i : Fin n} {s : SessionId}
    (hs : s ≠ Dispatcher.session i) : (x.meet (.operate (.poll s))).turnsOf i = [] := by
  rcases Dispatcher.poll_cases x.dispatcher x.now s with hvalue | ⟨j, rfl, _⟩
  · rw [x.meet_poll hvalue]
    rfl
  · have hturned := Dispatcher.turned_turn x.dispatcher x.now j
    rw [turnsOf_poll]
    refine hturned.filter_session_other x.dispatcher.addressable ?_
    rintro rfl
    exact hs rfl

theorem turnsOf_tick (x : Device σ π n m) (i : Fin n) :
    (x.meet (.operate .tick)).turnsOf i =
      (x.dispatcher.turns x.now (List.finRange n)).1.filter
        (·.session == Dispatcher.session i) := by
  show List.filter _ ((x.dispatcher.turns x.now (List.finRange n)).1 ++ []) = _
  rw [List.append_nil]

theorem after_poll (x : Device σ π n m) (j : Fin n) :
    (x.meet (.operate (.poll (Dispatcher.session j)))).after.dispatcher =
      (x.dispatcher.turn x.now j).2 := by
  show (x.dispatcher.poll x.now (Dispatcher.session j)).value.2 = _
  rw [Dispatcher.poll_session]

end Device

/-! ### The start of a run -/

/-- A registered dispatcher comes from an empty one, whose sessions were then made ready. -/
theorem Dispatcher.prepared_of_register {plugin : Plugin σ π} {waits : Wait.Table m}
    {d : Dispatcher σ π n m} (h : (Dispatcher.register plugin n waits).value = .ok d) :
    ∃ blank : Dispatcher σ π n m, blank.plugin = plugin ∧ blank.waits = waits ∧
      blank.persistent = plugin.initial ∧ blank.queue = Fifo.empty queueCapacity_pos ∧
      (∀ i, blank.slot i = Slot.blank plugin.blank) ∧
      (blank.prepareSlots (List.finRange n)).value = (.ok (), d) := by
  unfold Dispatcher.register at h
  split at h
  case isFalse => cases h
  case isTrue hn =>
    split at h
    case isFalse => cases h
    case isTrue hm =>
      split at h
      case h_1 => cases h
      case h_2 =>
        refine ⟨⟨plugin, plugin.initial, Vector.replicate n (Slot.blank plugin.blank), waits,
          Fifo.empty (by decide), hn.1, hn.2, hm⟩, rfl, rfl, rfl, rfl, ?_, ?_⟩
        · intro i
          simp [Dispatcher.slot, Vector.get]
        · rcases hready : (Dispatcher.prepareSlots (⟨plugin, plugin.initial,
            Vector.replicate n (Slot.blank plugin.blank), waits,
            Fifo.empty (by decide), hn.1, hn.2, hm⟩ : Dispatcher σ π n m)
            (List.finRange n)).value with ⟨ready, after⟩
          simp only [Traced.value_bind, hready] at h
          cases ready with
          | error fault => cases h
          | ok u =>
            cases h
            rfl

theorem Dispatcher.idle_of_register {plugin : Plugin σ π} {waits : Wait.Table m}
    {d : Dispatcher σ π n m} (h : (Dispatcher.register plugin n waits).value = .ok d) :
    d.plugin = plugin ∧ d.queue.toList = [] ∧ ∀ i, (d.slot i).busy = false := by
  obtain ⟨blank, hplugin, _, _, hqueue, hslots, hvalue⟩ := prepared_of_register h
  have hready := prepareSlots_keep
    (P := fun e => e.plugin = plugin ∧ e.queue.toList = [] ∧ ∀ i, (e.slot i).busy = false)
    (fun e j he => by
      have hprepared := prepared_prepareSlot e j
      rw [hprepared.plugin, hprepared.queue]
      refine ⟨he.1, he.2.1, ?_⟩
      intro i
      by_cases hi : i = j
      · obtain ⟨state, hslot⟩ := hprepared.slot
        rw [hi, hslot]
        rfl
      · rw [hprepared.slot_other hi]
        exact he.2.2 i)
    (List.finRange n) blank ⟨hplugin, by rw [hqueue]; rfl, fun i => by rw [hslots i]; rfl⟩
  rw [hvalue] at hready
  exact hready

end Resumable
