import Resumable.Proofs.Score

/-!
# The score of a blink

A blink of count `c` drives its output high and low `c` times, with a wait after each. As with any
score, what is left of the loop decides where a step goes on. The main statement compares every
schedule of calls with the blocking loop, and says of the next call what it will do: nothing while
the wait is unfinished, otherwise one more level or, after the last, the answer.
-/

namespace Resumable

namespace Blink

variable {pin : PinId} {r : Request}

def high (pin : PinId) (r : Request) (i : Nat) : Stop At Counters :=
  ⟨[.write pin .high], .timeout r.delay, .afterHigh, ⟨UInt8.ofNat i⟩⟩

def low (pin : PinId) (r : Request) (i : Nat) : Stop At Counters :=
  ⟨[.write pin .low], .timeout r.delay, .afterLow, ⟨UInt8.ofNat i⟩⟩

def finale (r : Request) : Finale Counters := ⟨r.count, ⟨r.count⟩⟩

/-- The last `left` blinks. -/
def blinks (pin : PinId) (r : Request) : Nat → List (Stop At Counters)
  | 0 => []
  | left + 1 => high pin r (r.count.toNat - (left + 1)) ::
      low pin r (r.count.toNat - (left + 1)) :: blinks pin r left

def score (pin : PinId) (r : Request) : List (Stop At Counters) := blinks pin r r.count.toNat

/-! ### The routine plays the score -/

theorem nextBlink_continues (pin : PinId) (point : ResumePoint) (left : Nat)
    (h : left ≤ r.count.toNat) :
    Routine.Continues r (finale r) point (blinks pin r left)
      (nextBlink pin ⟨point, r, ⟨UInt8.ofNat (r.count.toNat - left)⟩⟩) := by
  unfold nextBlink
  cases left with
  | zero =>
    simp only [Nat.sub_zero, UInt8.ofNat_toNat, UInt8.lt_irrefl, if_false]
    exact ⟨[], rfl, rfl⟩
  | succ left =>
    have hlt : UInt8.ofNat (r.count.toNat - (left + 1)) < r.count :=
      Request.ofNat_lt_count (by omega)
    simp only [hlt, if_true]
    exact ⟨nofun, _, rfl, rfl⟩

theorem plays_blinks (pin : PinId) (left : Nat) (h : left ≤ r.count.toNat) :
    (routine pin).Plays r (finale r) (blinks pin r left) := by
  induction left with
  | zero => trivial
  | succ left ih =>
    refine ⟨fun point _ => ⟨nofun, _, rfl, rfl⟩, fun point _ => ?_, ih (by omega)⟩
    have hnext := nextBlink_continues (r := r) pin point left (by omega)
    rw [← Request.ofNat_sub_succ (by omega)] at hnext
    exact hnext

theorem entry_continues (pin : PinId) (r : Request) (tail : List UInt8) {p : Progress Counters}
    (hpoint : p.resumePoint = 0) :
    Routine.Continues r (finale r) 0 (score pin r)
      ((routine pin).step .entry p (r.encode ++ tail)) := by
  obtain ⟨point, request, counters⟩ := p
  change point = 0 at hpoint
  subst hpoint
  have hnext := nextBlink_continues (r := r) pin 0 r.count.toNat (Nat.le_refl _)
  rw [Nat.sub_self] at hnext
  simp only [routine, readRequest_encode]
  exact hnext

/-! ### What the score does -/

/-- The writes and waits of the blocking program, `count` times over. -/
def reference (pin : PinId) (cx : Wait.Context) (r : Request) : List Effect :=
  (List.replicate r.count.toNat [.pin (.write pin .high), .wait (.register cx r.delay),
    .pin (.write pin .low), .wait (.register cx r.delay)]).flatten

theorem deeds_blinks (pin : PinId) (cx : Wait.Context) (left : Nat) :
    (blinks pin r left).flatMap (Stop.deeds cx) =
      (List.replicate left [.pin (.write pin .high), .wait (.register cx r.delay),
        .pin (.write pin .low), .wait (.register cx r.delay)]).flatten := by
  induction left with
  | zero => rfl
  | succ left ih =>
    rw [blinks, List.flatMap_cons, List.flatMap_cons, ih, List.replicate_succ, List.flatten_cons]
    rfl

theorem length_blinks (pin : PinId) (left : Nat) : (blinks pin r left).length = 2 * left := by
  induction left with
  | zero => rfl
  | succ left ih =>
    simp only [blinks, List.length_cons, ih]
    omega

theorem last_write_reference (pin : PinId) (cx : Wait.Context) (h : 0 < r.count.toNat) :
    (pinOps (reference pin cx r)).getLast? = some (.write pin .low) := by
  obtain ⟨c, hc⟩ : ∃ c, r.count.toNat = c + 1 := ⟨r.count.toNat - 1, by omega⟩
  rw [reference, hc, List.replicate_succ', List.flatten_append, pinOps_append, List.getLast?_append]
  rfl

/-- A command that is too short fails at the entry: nothing is driven, and the session is fresh. -/
theorem resume_of_short (pin : PinId) {m : Nat} {s : Session (Progress Counters) Unit m}
    (hpoint : s.work.state.resumePoint = 0) {command : List UInt8} (first : Bool)
    (h : command.length < 3) :
    s.resume (routine pin) command first = ⟨[], .error (.command ⟨3, command.length⟩),
      { s with work := { s.work with state := Progress.fresh } }⟩ := by
  have hstep : (routine pin).step .entry s.work.state command =
      ⟨[], .error (.command ⟨3, command.length⟩), s.work.state⟩ := by
    simp only [routine, readRequest_of_short h]
    rfl
  rw [Session.resume_eq, Routine.resume_of_fresh (routine pin) _ hpoint,
    Routine.runFrom_eq (routine pin) Label.entry _ s.work hstep]
  rfl

end Blink

/-- A blink under every schedule. After a first call with a request, the output is driven and the
waits are registered as by a beginning of the blocking program, whatever the later calls bring and
whenever they come. A call answers only once the whole was done, after two suspensions for each
count, with the count, and then the output is low if it was driven at all. Until then a call that
finds its wait unfinished changes nothing, and one that does not goes on. A first command without a
whole request fails at once and drives nothing. -/
theorem blink_plays_reference (pin : PinId) (r : Request) (tail : List UInt8) {m : Nat}
    (s : Session (Progress Blink.Counters) Unit m) (hpoint : s.work.state.resumePoint = 0)
    (hreply : s.work.reply.toList = []) (first : Bool) (stimuli : List Stimulus) :
    let run := s.follow (Blink.routine pin) (.call (r.encode ++ tail) first :: stimuli)
    let c := r.count.toNat
    let k := suspensions s.context run.1
    let done := deeds (run.1.flatMap (·.trace))
    (∀ (s' : Session (Progress Blink.Counters) Unit m) command first,
        s'.call (Blink.plugin pin) command first = s'.resume (Blink.routine pin) command first) ∧
      done <+: Blink.reference pin s.context r ∧
      (∀ x ∈ run.1, x.outcome = .ok .waiting ∨ x.outcome = .ok .ok) ∧
      ((∃ x ∈ run.1, x.outcome = .ok .ok) →
        done = Blink.reference pin s.context r ∧ k = 2 * c ∧
          run.2.work.reply.toList = [r.count] ∧ run.2.work.state = ⟨0, r, ⟨r.count⟩⟩ ∧
          (0 < c → (pinOps done).getLast? = some (.write pin .low))) ∧
      ((∀ x ∈ run.1, x.outcome = .ok .waiting) → k ≤ 2 * c ∧ ∀ command again,
        let next := run.2.call (Blink.plugin pin) command again
        (run.2.work.waits.isWaiting run.2.now s.context = true →
          next.value = (.ok .waiting, run.2) ∧ deeds next.trace = []) ∧
        (run.2.work.waits.isWaiting run.2.now s.context = false →
          next.value.1 = if k = 2 * c then .ok .ok else .ok .waiting)) ∧
      (∀ short : List UInt8, short.length < 3 →
        let failed := s.follow (Blink.routine pin) (.call short first :: stimuli)
        failed.1 = [⟨[], .error (.command ⟨3, short.length⟩)⟩] ∧
          failed.2.work.state = Progress.fresh ∧ failed.2.work.reply.toList = [] ∧
          failed.2.work.waits = s.work.waits) := by
  intro run c k done
  have hcall := Session.call_eq_resume (Blink.plugin_runs pin) (m := m)
  have hentry := Blink.entry_continues pin r tail hpoint
  have hplays := Blink.plays_blinks (r := r) pin r.count.toNat (Nat.le_refl _)
  have hplayed := Session.played_from_entry first stimuli hpoint hreply hentry hplays
  have hreference : (Blink.score pin r).flatMap (Stop.deeds s.context) =
    Blink.reference pin s.context r := Blink.deeds_blinks pin s.context r.count.toNat
  have hlength : (Blink.score pin r).length = 2 * c := Blink.length_blinks pin r.count.toNat
  refine ⟨hcall, ?_, hplayed.outcome, fun hok => ?_, fun hwaiting => ⟨?_, fun command again => ?_⟩,
    fun short hshort => ?_⟩
  · rw [← hreference]
    exact hplayed.done_prefix
  · obtain ⟨hdone, hcount, hanswer, hstate⟩ := hplayed.of_ok hok
    have hwhole : done = Blink.reference pin s.context r := hdone.trans hreference
    refine ⟨hwhole, hcount.trans hlength, hanswer, hstate, fun hpos => ?_⟩
    rw [hwhole]
    exact Blink.last_write_reference pin s.context hpos
  · rw [← hlength]
    exact (hplayed.of_waiting hwaiting).1
  · have hcontext : run.2.context = s.context := s.follow_context (Blink.routine pin) _
    rw [hcall, ← hlength]
    refine ⟨fun hwait => ?_, fun hwait => ?_⟩
    · rw [← hcontext] at hwait
      exact Session.resume_of_pending (Session.suspended_of_calls hwaiting) hwait command again
    · exact Session.outcome_of_over hpoint hreply hentry hplays rfl hwaiting hwait command again
  · have hresume := Blink.resume_of_short pin hpoint first hshort
    intro failed
    have hfailed : failed = _ := Session.follow_call_ended (Blink.routine pin) short first stimuli
      (by rw [hresume]; nofun)
    rw [hfailed, hresume]
    exact ⟨rfl, rfl, hreply, rfl⟩

/-- A blink of count one over a stale slot, called too early, late, and with other commands. -/
theorem blink_plays_reference_once :
    let s : Session (Progress Blink.Counters) Unit 1 :=
      ⟨0, 0, (), ⟨⟨0, ⟨7, 7⟩, ⟨3⟩⟩, Wait.Table.empty, Reply.empty⟩⟩
    let stimuli : List Stimulus :=
      [.call [] false, .pause 10000, .call [2, 0, 0] false, .call [9] true, .pause 20000,
        .call [] false]
    let run := s.follow (Blink.routine 8) (.call [1, 10, 0, 5] true :: stimuli)
    s.work.state.resumePoint = 0 ∧ s.work.reply.toList = [] ∧ run.1.length = 5 ∧
      suspensions 0 run.1 = 2 ∧
      deeds (run.1.flatMap (·.trace)) =
        [.pin (.write 8 .high), .wait (.register 0 10000), .pin (.write 8 .low),
          .wait (.register 0 10000)] ∧
      run.2.work.reply.toList = [1] ∧ run.2.work.state = ⟨0, ⟨1, 10⟩, ⟨1⟩⟩ := by
  intro s stimuli run
  have hbytes : (⟨1, 10⟩ : Request).encode ++ [5] = [1, 10, 0, 5] := by decide
  have hreference : Blink.reference 8 0 ⟨1, 10⟩ =
      [.pin (.write 8 .high), .wait (.register 0 10000), .pin (.write 8 .low),
        .wait (.register 0 10000)] := by
    decide
  have hlength : run.1.length = 5 := by decide +kernel
  have hanswered : run.1.any (·.outcome.toOption == some .ok) = true := by decide +kernel
  have hrun : run = s.follow (Blink.routine 8) (.call [1, 10, 0, 5] true :: stimuli) := rfl
  have hplays := blink_plays_reference 8 ⟨1, 10⟩ [5] s rfl rfl true stimuli
  -- From here on the run is only a name: unfolding it again would evaluate it.
  clear_value run
  rw [hbytes, ← hrun] at hplays
  obtain ⟨-, -, -, hended, -⟩ := hplays
  obtain ⟨hdone, hcount, hreply, hstate, -⟩ := hended (exists_ok_of_any hanswered)
  exact ⟨rfl, rfl, hlength, hcount, hdone.trans hreference, hreply, hstate⟩

end Resumable
