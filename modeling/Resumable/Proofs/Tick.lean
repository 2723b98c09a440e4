import Resumable.Proofs.Commands
import Resumable.Proofs.Outputs

/-!
# A tick as a series of polls

A tick gives turns one after the other over one queue, one table and one persistent state. It is
compared with polls of the same sessions in the same order, and its effect on the queue with a
function on lists: for every session that was idle the oldest command leaves, wherever it stands,
and all others keep their order. Nothing is assumed of the plugin.
-/

namespace Resumable

variable {σ π : Type} {n m : Nat}

namespace Dispatcher

variable {d e f : Dispatcher σ π n m} {now : Instant} {i j : Fin n}

/-! ### Sessions with work -/

def hasWork (d : Dispatcher σ π n m) (i : Fin n) : Bool :=
  (d.slot i).busy || !(d.queuedFor i).isEmpty

/-- What decides the turn of a session under any plugin: its slot and the commands queued for it. -/
structure SameWork (i : Fin n) (d e : Dispatcher σ π n m) : Prop where
  slot : e.slot i = d.slot i
  queuedFor : e.queuedFor i = d.queuedFor i

theorem SameWork.trans (h : SameWork i d e) (h' : SameWork i e f) : SameWork i d f :=
  ⟨h'.slot.trans h.slot, h'.queuedFor.trans h.queuedFor⟩

theorem SameWork.hasWork (h : SameWork i d e) : e.hasWork i = d.hasWork i := by
  rw [Dispatcher.hasWork, Dispatcher.hasWork, h.slot, h.queuedFor]

theorem sameWork_turn_other (d : Dispatcher σ π n m) (now : Instant) (hj : j ≠ i) :
    SameWork j d (d.turn now i).2 := by
  have hturned := turned_turn d now i
  exact ⟨hturned.slot_other hj, queuedFor_eq (hturned.filter_other hj)⟩

theorem sameWork_turns_other (now : Instant) {sessions : List (Fin n)} (hj : j ∉ sessions)
    (d : Dispatcher σ π n m) : SameWork j d (d.turns now sessions).2 := by
  induction sessions generalizing d with
  | nil => exact ⟨rfl, rfl⟩
  | cons i rest ih =>
    rw [List.mem_cons, not_or] at hj
    rw [turns_cons]
    exact (sameWork_turn_other d now hj.1).trans (ih hj.2 _)

/-- In a series of turns a session has the turn that it would have alone, as far as its slot and
its commands decide it. -/
theorem turns_visit (now : Instant) {sessions : List (Fin n)} (hdistinct : sessions.Nodup)
    (hi : i ∈ sessions) (d : Dispatcher σ π n m) :
    ∃ e, SameWork i d e ∧
      (d.turns now sessions).1.filter (·.session == session i) = (e.turn now i).1.toList ∧
      SameWork i (e.turn now i).2 (d.turns now sessions).2 := by
  induction sessions generalizing d with
  | nil => cases hi
  | cons j rest ih =>
    obtain ⟨hj, hrest⟩ := List.nodup_cons.mp hdistinct
    have hturned := turned_turn d now j
    rw [turns_cons, List.filter_append]
    rcases List.mem_cons.mp hi with rfl | hlater
    · refine ⟨d, ⟨rfl, rfl⟩, ?_, sameWork_turns_other now hj _⟩
      rw [hturned.filter_session_own, filter_turns_other now hj, List.append_nil]
    · have hij : i ≠ j := ne_of_mem_of_not_mem hlater hj
      obtain ⟨e, hsame, hturns, hafter⟩ := ih hrest hlater (d.turn now j).2
      refine ⟨e, (sameWork_turn_other d now hij).trans hsame, ?_, hafter⟩
      rw [hturned.filter_session_other d.addressable hij, hturns, List.nil_append]

theorem turn_sessions (d : Dispatcher σ π n m) (now : Instant) (i : Fin n) :
    (d.turn now i).1.toList.map (·.session) = if d.hasWork i then [session i] else [] := by
  have hturned := turned_turn d now i
  generalize d.turn now i = y at hturned
  cases hturned with
  | idle hbusy hnone => simp [hasWork, hbusy, hnone]
  | continued hbusy => simp [hasWork, hbusy]
  | begun hbusy hnext => simp [hasWork, hnext]

theorem turns_sessions (now : Instant) {sessions : List (Fin n)} (hdistinct : sessions.Nodup)
    (d : Dispatcher σ π n m) :
    (d.turns now sessions).1.map (·.session) = (sessions.filter d.hasWork).map session := by
  induction sessions generalizing d with
  | nil => rfl
  | cons i rest ih =>
    obtain ⟨hi, hrest⟩ := List.nodup_cons.mp hdistinct
    -- The turn of this session changes nothing for those that follow.
    have hkept : rest.filter (d.turn now i).2.hasWork = rest.filter d.hasWork := by
      refine List.filter_congr fun j hj => (sameWork_turn_other d now ?_).hasWork
      rintro rfl
      exact hi hj
    rw [turns_cons, List.map_append, turn_sessions, ih hrest, hkept, List.filter_cons]
    split <;> rfl

/-! ### Sessions left waiting -/

theorem busy_turn (d : Dispatcher σ π n m) (now : Instant) (i : Fin n) :
    ((d.turn now i).2.slot i).busy = (d.turn now i).1.any (·.ending.isNone) := by
  have hturned := turned_turn d now i
  generalize d.turn now i = y at hturned
  cases hturned with
  | idle hbusy => exact hbusy
  | continued hbusy hserved =>
    obtain ⟨state, reply, hslot⟩ := hserved.slot
    simp [hslot, hbusy]
  | begun _ _ _ _ hserved =>
    obtain ⟨state, reply, hslot⟩ := hserved.slot
    simp [hslot, Slot.start]

theorem turns_waiting (now : Instant) {sessions : List (Fin n)} (hdistinct : sessions.Nodup)
    (d : Dispatcher σ π n m) :
    (d.turns now sessions).1.countP (fun t => t.ending.isNone) =
      sessions.countP fun i => ((d.turns now sessions).2.slot i).busy := by
  induction sessions generalizing d with
  | nil => rfl
  | cons i rest ih =>
    obtain ⟨hi, hrest⟩ := List.nodup_cons.mp hdistinct
    have hown := (sameWork_turns_other now hi (d.turn now i).2).slot
    rw [turns_cons, List.countP_append, ih hrest, List.countP_cons, hown, busy_turn]
    rcases (d.turn now i).1 with _ | t
    · simp
    · simp [Nat.add_comm]

theorem slots_toList (d : Dispatcher σ π n m) :
    d.slots.toList = (List.finRange n).map d.slot := by
  apply List.ext_getElem
  · simp
  · intro k hk _
    simp [slot, Vector.get]

theorem inFlight_eq (d : Dispatcher σ π n m) :
    d.inFlight = (List.finRange n).countP fun i => (d.slot i).busy := by
  rw [inFlight, slots_toList, List.countP_map]
  rfl

end Dispatcher

/-! ### Polls -/

/-- What a poll of a session answered: a reply, nothing yet, or an error. -/
structure Polled where
  session : SessionId
  result : Except DispatchError (Option Reply)

def Polled.completion? (p : Polled) : Option Completion :=
  match p.result with
  | .ok (some reply) => some ⟨p.session, .ok reply⟩
  | .error (.fault fault) => some ⟨p.session, .error fault⟩
  | _ => none

def Polled.isBlocked (p : Polled) : Bool :=
  match p.result with
  | .ok none => true
  | _ => false

def Moment.polled? (y : Moment σ π n m) : Option Polled :=
  match y.happening, y.answer with
  | .operate (.poll s), some (.polled result) => some ⟨s, result.bind Turn.answer⟩
  | _, _ => none

/-- A poll of each of these sessions, in this order. -/
def polls (sessions : List (Fin n)) : List (Happening σ) :=
  sessions.map fun i => .operate (.poll (Dispatcher.session i))

namespace Device

theorem polled?_poll (x : Device σ π n m) (i : Fin n) :
    (x.meet (.operate (.poll (Dispatcher.session i)))).polled? =
      some ⟨Dispatcher.session i, (x.dispatcher.turn x.now i).1.elim
        (.error (.idle (Dispatcher.session i))) Turn.answer⟩ := by
  have hvalue := Dispatcher.poll_session x.dispatcher x.now i
  rw [x.meet_poll hvalue]
  rcases (x.dispatcher.turn x.now i).1 with _ | t
  · rfl
  · rfl

theorem completion?_poll (x : Device σ π n m) (i : Fin n) :
    (x.meet (.operate (.poll (Dispatcher.session i)))).polled?.bind Polled.completion? =
      (x.dispatcher.turn x.now i).1.bind Turn.completion? := by
  have hturned := Dispatcher.turned_turn x.dispatcher x.now i
  rw [polled?_poll]
  rcases hturn : (x.dispatcher.turn x.now i).1 with _ | ⟨s, admitted, call, handling, ending⟩
  · rfl
  · obtain rfl : s = Dispatcher.session i := hturned.session_eq hturn
    match ending with
    | none => rfl
    | some (.ok reply) => rfl
    | some (.error fault) => rfl

theorem isBlocked_poll (x : Device σ π n m) (i : Fin n) :
    (x.meet (.operate (.poll (Dispatcher.session i)))).polled?.map Polled.isBlocked =
      some ((x.dispatcher.turn x.now i).1.any (·.ending.isNone)) := by
  rw [polled?_poll]
  rcases (x.dispatcher.turn x.now i).1 with _ | ⟨s, admitted, call, handling, ending⟩
  · rfl
  · match ending with
    | none => rfl
    | some (.ok reply) => rfl
    | some (.error fault) => rfl

theorem pinOps_poll (x : Device σ π n m) (i : Fin n) :
    pinOps (x.meet (.operate (.poll (Dispatcher.session i)))).effects =
      (x.dispatcher.turn x.now i).1.toList.flatMap fun t => pinOps t.handling := by
  rw [x.meet_pinOps _ rfl, x.turns_operate]
  show (Answer.polled (x.dispatcher.poll x.now (Dispatcher.session i)).value.1).turns.flatMap _ = _
  rw [Dispatcher.poll_session, turns_polled]

theorem meet_poll_after (x : Device σ π n m) (i : Fin n) :
    (x.meet (.operate (.poll (Dispatcher.session i)))).after =
      { x with dispatcher := (x.dispatcher.turn x.now i).2 } := by
  rw [x.meet_poll (Dispatcher.poll_session x.dispatcher x.now i)]

/-- Polls one after the other leave what the turns of these sessions leave. -/
theorem atEnd_polls (sessions : List (Fin n)) (x : Device σ π n m) :
    x.atEnd (polls sessions) =
      { x with dispatcher := (x.dispatcher.turns x.now sessions).2 } := by
  induction sessions generalizing x with
  | nil => rfl
  | cons i rest ih =>
    show (x.meet (.operate (.poll (Dispatcher.session i)))).after.atEnd (polls rest) = _
    rw [ih, meet_poll_after, Dispatcher.turns_cons]

theorem run_polls_cons (x : Device σ π n m) (i : Fin n) (rest : List (Fin n)) :
    x.run (polls (i :: rest)) = x.meet (.operate (.poll (Dispatcher.session i))) ::
      (Device.mk x.now (x.dispatcher.turn x.now i).2).run (polls rest) := by
  rw [← meet_poll_after]
  rfl

/-- What is seen in each poll is seen in the turns of these sessions. -/
theorem flatMap_run_polls {α : Type} {look : Moment σ π n m → List α} {shown : Turn → List α}
    (hlook : ∀ (x : Device σ π n m) (i : Fin n),
      look (x.meet (.operate (.poll (Dispatcher.session i)))) =
        (x.dispatcher.turn x.now i).1.toList.flatMap shown)
    (sessions : List (Fin n)) (x : Device σ π n m) :
    (x.run (polls sessions)).flatMap look =
      (x.dispatcher.turns x.now sessions).1.flatMap shown := by
  induction sessions generalizing x with
  | nil => rfl
  | cons i rest ih =>
    rw [run_polls_cons, List.flatMap_cons, hlook, ih, Dispatcher.turns_cons, List.flatMap_append]

theorem run_polls_sessions (sessions : List (Fin n)) (x : Device σ π n m) :
    ((x.run (polls sessions)).filterMap Moment.polled?).map (·.session) =
      sessions.map Dispatcher.session := by
  induction sessions generalizing x with
  | nil => rfl
  | cons i rest ih =>
    rw [run_polls_cons, List.filterMap_cons_some (x.polled?_poll i), List.map_cons, ih,
      List.map_cons]

theorem run_polls_completions (sessions : List (Fin n)) (x : Device σ π n m) :
    ((x.run (polls sessions)).filterMap Moment.polled?).filterMap Polled.completion? =
      completions (x.dispatcher.turns x.now sessions).1 := by
  rw [List.filterMap_filterMap, completions, List.filterMap_eq_flatMap_toList,
    List.filterMap_eq_flatMap_toList]
  refine flatMap_run_polls (fun y i => ?_) sessions x
  rw [completion?_poll]
  rcases (y.dispatcher.turn y.now i).1 with _ | t
  · rfl
  · exact (List.append_nil _).symm

theorem run_polls_blocked (sessions : List (Fin n)) (x : Device σ π n m) :
    ((x.run (polls sessions)).filterMap Moment.polled?).countP Polled.isBlocked =
      (x.dispatcher.turns x.now sessions).1.countP fun t => t.ending.isNone := by
  rw [List.countP_filterMap]
  induction sessions generalizing x with
  | nil => rfl
  | cons i rest ih =>
    rw [run_polls_cons, List.countP_cons, ih, isBlocked_poll, Dispatcher.turns_cons,
      List.countP_append, Nat.add_comm]
    rcases (x.dispatcher.turn x.now i).1 with _ | t
    · rfl
    · simp

end Device

/-! ### Ticks and polls -/

theorem session_strictMono (hn : n ≤ 256) {i j : Fin n} (h : i < j) :
    Dispatcher.session i < Dispatcher.session j := by
  rw [UInt8.lt_iff_toNat_lt, Dispatcher.session_toNat hn, Dispatcher.session_toNat hn]
  exact h

theorem Dispatcher.turns_increasing (d : Dispatcher σ π n m) (now : Instant) :
    ((d.turns now (List.finRange n)).1.map (·.session)).Pairwise (· < ·) := by
  rw [d.turns_sessions now (List.nodup_finRange n), List.pairwise_map]
  refine List.Pairwise.filter _ ((List.pairwise_lt_finRange n).imp fun h => ?_)
  exact session_strictMono d.addressable h

theorem completions_increasing {turns : List Turn}
    (h : (turns.map (·.session)).Pairwise (· < ·)) :
    (completions turns).Pairwise fun c c' => c.session < c'.session := by
  rw [completions, List.pairwise_filterMap]
  refine (List.pairwise_map.mp h).imp fun {t t'} hlt c hc c' hc' => ?_
  obtain ⟨_, _, rfl⟩ := Option.map_eq_some_iff.mp hc
  obtain ⟨_, _, rfl⟩ := Option.map_eq_some_iff.mp hc'
  exact hlt

theorem TickSummary.completed_ofTurns (turns : List Turn) :
    (TickSummary.ofTurns turns).completed = (completions turns).length := by
  rw [completions, List.length_filterMap_eq_countP]
  simp only [TickSummary.ofTurns, Turn.completion?, Option.isSome_map]

theorem TickSummary.polled_ofTurns (turns : List Turn) :
    (TickSummary.ofTurns turns).polled =
      (TickSummary.ofTurns turns).waiting + (TickSummary.ofTurns turns).completed := by
  have hsplit := List.length_eq_countP_add_countP (fun t : Turn => t.ending.isNone) (l := turns)
  simpa only [TickSummary.ofTurns, Bool.not_eq_true, Option.isNone_eq_false_iff,
    Bool.decide_eq_true] using hsplit

/-- One tick and the polls of all sessions in order leave the same dispatcher on the same clock and
operate pins alike. A tick reports the ends that the polls report, and its summary counts the polls
that were told to wait, those that ended a command, and the sessions that had work. -/
theorem tick_agrees_with_polls (d : Dispatcher σ π n m) (now : Instant) :
    let x : Device σ π n m := ⟨now, d⟩
    let ticked := x.meet (.operate .tick)
    let moments := x.run (polls (List.finRange n))
    let results := moments.filterMap Moment.polled?
    let summary := TickSummary.ofTurns ticked.turns
    results.map (·.session.toNat) = List.range n ∧
      ticked.after = x.atEnd (polls (List.finRange n)) ∧
      pinOps ticked.effects = moments.flatMap (fun y => pinOps y.effects) ∧
      completions ticked.turns = results.filterMap Polled.completion? ∧
      (completions ticked.turns).Pairwise (fun c c' => c.session < c'.session) ∧
      summary.waiting = results.countP Polled.isBlocked ∧
      summary.completed = (completions ticked.turns).length ∧
      summary.polled = summary.waiting + summary.completed ∧
      summary.polled = (List.finRange n).countP d.hasWork ∧
      ticked.after.dispatcher.inFlight = summary.waiting := by
  intro x ticked moments results summary
  have hturns : ticked.turns = (d.turns now (List.finRange n)).1 := x.turns_operate .tick
  have hafter : ticked.after = ⟨now, (d.turns now (List.finRange n)).2⟩ := rfl
  have hnodup := List.nodup_finRange n
  refine ⟨?_, ?_, ?_, ?_, ?_, ?_, TickSummary.completed_ofTurns _, TickSummary.polled_ofTurns _,
    ?_, ?_⟩
  · have hsessions := congrArg (List.map UInt8.toNat) (x.run_polls_sessions (List.finRange n))
    have hnumber : UInt8.toNat ∘ Dispatcher.session = (Fin.val : Fin n → Nat) :=
      funext (Dispatcher.session_toNat d.addressable)
    rw [List.map_map, List.map_map, hnumber, List.map_coe_finRange_eq_range] at hsessions
    exact hsessions
  · rw [hafter, Device.atEnd_polls]
  · rw [x.meet_pinOps _ rfl, hturns]
    exact (Device.flatMap_run_polls Device.pinOps_poll (List.finRange n) x).symm
  · rw [hturns]
    exact (x.run_polls_completions (List.finRange n)).symm
  · rw [hturns]
    exact completions_increasing (d.turns_increasing now)
  · show ticked.turns.countP _ = _
    rw [hturns]
    exact (x.run_polls_blocked (List.finRange n)).symm
  · show ticked.turns.length = _
    rw [hturns, ← List.length_map (·.session), d.turns_sessions now hnodup, List.length_map,
      List.countP_eq_length_filter]
  · show _ = ticked.turns.countP _
    rw [hafter, Dispatcher.inFlight_eq, hturns, d.turns_waiting now hnodup]

/-! ### The queue after a tick -/

/-- A queue without the oldest entry of each session that is picked. -/
def withoutOldest (picked : SessionId → Bool) : List Pending → List Pending
  | [] => []
  | p :: rest =>
    if picked p.session then withoutOldest (fun s => picked s && s != p.session) rest
    else p :: withoutOldest picked rest

theorem withoutOldest_none (queue : List Pending) :
    withoutOldest (fun _ => false) queue = queue := by
  induction queue with
  | nil => rfl
  | cons p rest ih => rw [withoutOldest, if_neg Bool.false_ne_true, ih]

/-- Taking the oldest entry of one more session, before or after the others, is picking it too. -/
theorem withoutOldest_eraseP {picked : SessionId → Bool} {s : SessionId} (hs : picked s = false)
    (queue : List Pending) :
    withoutOldest picked (queue.eraseP (·.session == s)) =
      withoutOldest (fun s' => s' == s || picked s') queue := by
  induction queue generalizing picked with
  | nil => rfl
  | cons p rest ih =>
    by_cases hp : p.session = s
    · -- This is the entry that is taken; behind it the session is not picked any more.
      have hpicked : (fun s' => (s' == s || picked s') && s' != p.session) = picked := by
        funext s'
        by_cases hs' : s' = s
        · simp [hp, hs', hs]
        · simp [hp, beq_eq_false_iff_ne.mpr hs', bne]
      rw [List.eraseP_cons_of_pos (by simp [hp]), withoutOldest, hpicked, if_pos (by simp [hp])]
    · have hrest := @ih (fun s' => picked s' && s' != p.session) (by simp [hs])
      have hpicked : (fun s' => s' == s || picked s' && s' != p.session) =
          fun s' => (s' == s || picked s') && s' != p.session := by
        funext s'
        by_cases hs' : s' = s
        · simp [hs', Ne.symm hp]
        · simp [beq_eq_false_iff_ne.mpr hs']
      rw [List.eraseP_cons_of_neg (by simp [hp]), withoutOldest, withoutOldest, hrest, hpicked,
        ih hs]
      simp only [beq_eq_false_iff_ne.mpr hp, Bool.false_or]

example : (withoutOldest (· != 1) ([1, 0, 2, 0, 1].map (⟨·, Command.empty⟩))).map (·.session) =
    [1, 0, 1] := by decide

namespace Dispatcher

def isIdle (d : Dispatcher σ π n m) (s : SessionId) : Bool := (d.slot? s).any (!·.busy)

theorem isFor_eq (hn : n ≤ 256) (i : Fin n) : isFor i = (·.session == session i) := by
  funext p
  have hnumber := session_toNat hn i
  rw [isFor, ← hnumber, Bool.eq_iff_iff, beq_iff_eq, beq_iff_eq, UInt8.toNat_inj]

theorem queue_turn (d : Dispatcher σ π n m) (now : Instant) (i : Fin n) :
    (d.turn now i).2.queue.toList =
      if (d.slot i).busy then d.queue.toList
      else d.queue.toList.eraseP (·.session == session i) := by
  have hturned := turned_turn d now i
  rw [← isFor_eq d.addressable]
  generalize d.turn now i = y at hturned
  cases hturned with
  | idle hbusy hnone hqueue =>
    have hfree : d.queue.toList.filter (isFor i) = [] := List.map_eq_nil_iff.mp hnone
    rw [hbusy, if_neg Bool.false_ne_true, List.eraseP_of_forall_not]
    · exact hqueue
    · exact List.filter_eq_nil_iff.mp hfree
  | continued hbusy hserved => rw [hbusy, if_pos rfl, hserved.queue]
  | begun hbusy _ hqueue _ hserved =>
    rw [hbusy, if_neg Bool.false_ne_true, hserved.queue, queue_started, hqueue]

theorem queue_turns (now : Instant) {sessions : List (Fin n)} (hdistinct : sessions.Nodup)
    (d : Dispatcher σ π n m) :
    (d.turns now sessions).2.queue.toList =
      withoutOldest (fun s => sessions.any fun i => s == session i && !(d.slot i).busy)
        d.queue.toList := by
  induction sessions generalizing d with
  | nil => exact (withoutOldest_none _).symm
  | cons i rest ih =>
    obtain ⟨hi, hrest⟩ := List.nodup_cons.mp hdistinct
    -- The sessions that follow are found as idle as they were before this turn.
    have hkept : (fun s => rest.any fun j => s == session j && !((d.turn now i).2.slot j).busy) =
        fun s => rest.any fun j => s == session j && !(d.slot j).busy := by
      funext s
      rw [Bool.eq_iff_iff, List.any_eq_true, List.any_eq_true]
      refine exists_congr fun j => and_congr_right fun hj => ?_
      rw [(sameWork_turn_other d now (ne_of_mem_of_not_mem hj hi)).slot]
    rw [turns_cons, ih hrest, hkept, queue_turn]
    simp only [List.any_cons]
    cases hbusy : (d.slot i).busy with
    | true => simp
    | false =>
      have hlater : (rest.any fun j => session i == session j && !(d.slot j).busy) = false := by
        rw [List.any_eq_false]
        intro j hj hpicked
        rw [Bool.and_eq_true, beq_iff_eq] at hpicked
        exact hi (session_injective d.addressable hpicked.1 ▸ hj)
      rw [if_neg Bool.false_ne_true, withoutOldest_eraseP hlater]
      simp

theorem isIdle_session (d : Dispatcher σ π n m) (i : Fin n) :
    d.isIdle (session i) = !(d.slot i).busy := by
  have hslot : d.slot? (session i) = some (d.slot i) := by
    rw [slot?, session_toNat d.addressable, Vector.getElem?_eq_getElem i.isLt]
    rfl
  rw [isIdle, hslot, Option.any_some]

theorem isIdle_eq (d : Dispatcher σ π n m) :
    (fun s => (List.finRange n).any fun i => s == session i && !(d.slot i).busy) = d.isIdle := by
  funext s
  rw [Bool.eq_iff_iff, List.any_eq_true]
  constructor
  · rintro ⟨i, _, hi⟩
    rw [Bool.and_eq_true, beq_iff_eq] at hi
    rw [hi.1, isIdle_session]
    exact hi.2
  · intro hidle
    rcases index_cases n s with ⟨i, rfl, _⟩ | ⟨hpast, _⟩
    · rw [isIdle_session] at hidle
      exact ⟨i, List.mem_finRange i, by rw [beq_self_eq_true, Bool.true_and, hidle]⟩
    · rw [isIdle, slot?, Vector.getElem?_eq_none hpast] at hidle
      cases hidle

/-- What a series of turns did for a session, by what was in flight and queued for it before. -/
def Attended (d : Dispatcher σ π n m) (turns : List Turn) (now : Instant) (i : Fin n)
    (e : Dispatcher σ π n m) : Prop :=
  match (d.slot i).busy, d.queuedFor i with
  | true, queued => e.queuedFor i = queued ∧
      ∃ t ∈ turns, t.session = session i ∧ t.admitted = none ∧
        t.call = ⟨now, session i, (d.slot i).command.bytes, (d.slot i).first⟩
  | false, [] => e.queuedFor i = [] ∧ ∀ t ∈ turns, t.session ≠ session i
  | false, command :: rest => e.queuedFor i = rest ∧ (e.slot i).command = command ∧
      ∃ t ∈ turns, t.session = session i ∧ t.admitted = some command ∧
        t.call = ⟨now, session i, command.bytes, true⟩

theorem attended_turns (now : Instant) {sessions : List (Fin n)} (hdistinct : sessions.Nodup)
    (hi : i ∈ sessions) (d : Dispatcher σ π n m) :
    d.Attended (d.turns now sessions).1 now i (d.turns now sessions).2 := by
  obtain ⟨e, hbefore, hturns, hafter⟩ := turns_visit now hdistinct hi d
  have hmem : ∀ t, (e.turn now i).1 = some t → t ∈ (d.turns now sessions).1 := by
    intro t ht
    refine (List.mem_filter.mp (?_ : t ∈ List.filter (·.session == session i) _)).1
    rw [hturns, ht]
    exact List.mem_singleton_self t
  have hturned := turned_turn e now i
  unfold Attended
  rw [← hbefore.slot, ← hbefore.queuedFor, hafter.queuedFor, hafter.slot]
  generalize e.turn now i = y at hturned hturns hmem
  cases hturned with
  | idle hbusy hnone hqueue =>
    rw [hbusy, hnone]
    refine ⟨(queuedFor_eq (by rw [hqueue])).trans hnone, fun t ht hsession => ?_⟩
    have hkept : t ∈ (d.turns now sessions).1.filter (·.session == session i) :=
      List.mem_filter.mpr ⟨ht, by rw [hsession, beq_self_eq_true]⟩
    rw [hturns] at hkept
    cases hkept
  | continued hbusy hserved =>
    rw [hbusy]
    exact ⟨queuedFor_eq (by rw [hserved.queue]), _, hmem _ rfl, rfl, rfl, rfl⟩
  | @begun command rest queue call x hbusy hnext hqueue hcall hserved =>
    obtain ⟨state, reply, hslot⟩ := hserved.slot
    rw [hbusy, hnext]
    refine ⟨?_, ?_, _, hmem _ rfl, rfl, rfl, hcall⟩
    · have hrest := filter_eraseP_self (isFor i) e.queue.toList
      rw [← hqueue] at hrest
      rw [queuedFor, hserved.queue, queue_started, hrest, List.map_tail]
      exact congrArg List.tail hnext
    · rw [hslot, slot_started]
      rfl

end Dispatcher

/-- A tick takes from the queue the oldest command of each session that was idle, wherever it
stands, and leaves the others in order. Each session has at most one turn, which is one call of the
handler, from what the turns of the sessions before it left. The command that was taken is the one
this call is given; a session that was busy goes on with its own, and what is queued for it stays,
also when its command ends. -/
theorem tick_admits_oldest (d : Dispatcher σ π n m) (now : Instant) :
    let turns := (d.tick now).value.1
    let after := (d.tick now).value.2
    after.queue.toList = withoutOldest d.isIdle d.queue.toList ∧
      (turns.map (·.session)).Nodup ∧
      (∀ t ∈ turns, ∃ i, t.session = Dispatcher.session i ∧
        t.Faithful d.plugin (d.beforeTurn now i) i) ∧
      ∀ i, d.Attended turns now i after := by
  intro turns after
  have hnodup := List.nodup_finRange n
  refine ⟨?_, ?_, ?_, ?_⟩
  · show (d.turns now (List.finRange n)).2.queue.toList = _
    rw [d.queue_turns now hnodup, Dispatcher.isIdle_eq]
  · exact (d.turns_increasing now).imp UInt8.ne_of_lt
  · intro t ht
    exact d.tick_faithful now ht
  · intro i
    exact d.attended_turns now hnodup (List.mem_finRange i)

end Resumable
