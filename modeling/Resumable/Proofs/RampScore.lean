import Resumable.Plugin.Ramp
import Resumable.Proofs.Score

/-!
# The score of a ramp

A ramp of count `c` blinks `c` times and then waits at every height from zero up to `c - 1` and down
again. The score is written by what is left of each loop, since that is what decides where a step
goes on: at the end of one loop the same step enters the next.
-/

namespace Resumable

namespace Ramp

variable {pin : PinId} {r : Request}

def high (pin : PinId) (r : Request) (i : Nat) : Stop At Counters :=
  ⟨[.write pin .high], .timeout r.delay, .afterHigh, ⟨UInt8.ofNat i, 0⟩⟩

def low (pin : PinId) (r : Request) (i : Nat) : Stop At Counters :=
  ⟨[.write pin .low], .timeout r.delay, .afterLow, ⟨UInt8.ofNat i, 0⟩⟩

/-- The wait at a height of the ramp. -/
def rung (r : Request) (label : At) (height : Nat) : Stop At Counters :=
  ⟨[], .timeout r.delay, label, ⟨r.count, UInt8.ofNat height⟩⟩

def finale (r : Request) : Finale Counters := ⟨0, ⟨r.count, 0⟩⟩

/-- The way down from a height. -/
def fall (r : Request) : Nat → List (Stop At Counters)
  | 0 => []
  | height + 1 => rung r .descending height :: fall r height

/-- The way up with `left` heights to go, and down again. -/
def climb (r : Request) : Nat → List (Stop At Counters)
  | 0 => fall r r.count.toNat
  | left + 1 => rung r .ascending (r.count.toNat - (left + 1)) :: climb r left

/-- The last `left` blinks, and the ramp. -/
def blinks (pin : PinId) (r : Request) : Nat → List (Stop At Counters)
  | 0 => climb r r.count.toNat
  | left + 1 => high pin r (r.count.toNat - (left + 1)) ::
      low pin r (r.count.toNat - (left + 1)) :: blinks pin r left

def score (pin : PinId) (r : Request) : List (Stop At Counters) := blinks pin r r.count.toNat

theorem ofNat_succ_pos {i : Nat} (h : i < 255) : 0 < UInt8.ofNat (i + 1) := by
  rw [UInt8.lt_iff_toNat_lt, UInt8.toNat_ofNat']
  simp only [UInt8.toNat_zero]
  omega

/-! ### Where each loop head goes on -/

theorem descend_continues (point : ResumePoint) (height : Nat) (h : height ≤ 255) :
    Routine.Continues r (finale r) point (fall r height)
      (descend ⟨point, r, ⟨r.count, UInt8.ofNat height⟩⟩) := by
  unfold descend
  cases height with
  | zero => exact ⟨[], rfl, rfl⟩
  | succ height =>
    have hdown : UInt8.ofNat (height + 1) - 1 = UInt8.ofNat height := by
      rw [UInt8.ofNat_add]
      exact UInt8.add_sub_cancel _ _
    simp only [ofNat_succ_pos (show height < 255 by omega), if_true, hdown]
    exact ⟨nofun, _, rfl, rfl⟩

theorem ascend_continues (point : ResumePoint) (left : Nat) (h : left ≤ r.count.toNat) :
    Routine.Continues r (finale r) point (climb r left)
      (ascend ⟨point, r, ⟨r.count, UInt8.ofNat (r.count.toNat - left)⟩⟩) := by
  have hcount := r.count.toNat_lt
  unfold ascend
  cases left with
  | zero =>
    -- At the top the same step turns and takes the first rung down.
    have hdescend := descend_continues (r := r) point r.count.toNat (by omega)
    rw [UInt8.ofNat_toNat] at hdescend
    simp only [Nat.sub_zero, UInt8.ofNat_toNat, UInt8.lt_irrefl, if_false]
    exact hdescend
  | succ left =>
    have hlt : UInt8.ofNat (r.count.toNat - (left + 1)) < r.count := Request.ofNat_lt_count (by omega)
    simp only [hlt, if_true]
    exact ⟨nofun, _, rfl, rfl⟩

theorem nextBlink_continues (pin : PinId) (point : ResumePoint) (left : Nat)
    (h : left ≤ r.count.toNat) :
    Routine.Continues r (finale r) point (blinks pin r left)
      (nextBlink pin ⟨point, r, ⟨UInt8.ofNat (r.count.toNat - left), 0⟩⟩) := by
  unfold nextBlink
  cases left with
  | zero =>
    have hascend := ascend_continues (r := r) point r.count.toNat (Nat.le_refl _)
    rw [Nat.sub_self] at hascend
    simp only [Nat.sub_zero, UInt8.ofNat_toNat, UInt8.lt_irrefl, if_false]
    exact hascend
  | succ left =>
    have hlt : UInt8.ofNat (r.count.toNat - (left + 1)) < r.count := Request.ofNat_lt_count (by omega)
    simp only [hlt, if_true]
    exact ⟨nofun, _, rfl, rfl⟩

/-! ### The routine plays the score -/

theorem plays_fall (pin : PinId) (height : Nat) (h : height ≤ 255) :
    (routine pin).Plays r (finale r) (fall r height) := by
  induction height with
  | zero => trivial
  | succ height ih =>
    exact ⟨fun point _ => descend_continues point height (by omega), ih (by omega)⟩

theorem plays_climb (pin : PinId) (left : Nat) (h : left ≤ r.count.toNat) :
    (routine pin).Plays r (finale r) (climb r left) := by
  induction left with
  | zero => exact plays_fall pin r.count.toNat (by have := r.count.toNat_lt; omega)
  | succ left ih =>
    refine ⟨fun point _ => ?_, ih (by omega)⟩
    have hascend := ascend_continues (r := r) point left (by omega)
    rw [← Request.ofNat_sub_succ (by omega)] at hascend
    exact hascend

theorem plays_blinks (pin : PinId) (left : Nat) (h : left ≤ r.count.toNat) :
    (routine pin).Plays r (finale r) (blinks pin r left) := by
  induction left with
  | zero => exact plays_climb pin r.count.toNat (Nat.le_refl _)
  | succ left ih =>
    refine ⟨fun point _ => ⟨nofun, _, rfl, rfl⟩, fun point _ => ?_, ih (by omega)⟩
    have hnext := nextBlink_continues (r := r) pin point left (by omega)
    rw [← Request.ofNat_sub_succ (by omega)] at hnext
    exact hnext

theorem entry_continues (pin : PinId) (r : Request) (tail : List UInt8) {p : Progress Counters}
    (hpoint : p.resumePoint = 0) :
    Routine.Continues r (finale r) 0 (score pin r)
      ((routine pin).step .entry p (r.encode ++ tail)) := by
  obtain ⟨point, request, counters⟩ := p
  change point = 0 at hpoint
  subst hpoint
  have hnext := nextBlink_continues (r := r) pin 0 r.count.toNat (Nat.le_refl _)
  rw [Nat.sub_self] at hnext
  simp only [routine, readRequest_encode]
  exact hnext

/-! ### What the score does -/

def pauseOf (cx : Wait.Context) (r : Request) : Effect := .wait (.register cx r.delay)

/-- The writes and waits of the blocking program: blink `count` times, wait up and down. -/
def reference (pin : PinId) (cx : Wait.Context) (r : Request) : List Effect :=
  (List.replicate r.count.toNat [.pin (.write pin .high), pauseOf cx r, .pin (.write pin .low),
    pauseOf cx r]).flatten ++ List.replicate (2 * r.count.toNat) (pauseOf cx r)

theorem deeds_fall (cx : Wait.Context) (height : Nat) :
    (fall r height).flatMap (Stop.deeds cx) = List.replicate height (pauseOf cx r) := by
  induction height with
  | zero => rfl
  | succ height ih => rw [fall, List.flatMap_cons, ih, List.replicate_succ]; rfl

theorem deeds_climb (cx : Wait.Context) (left : Nat) :
    (climb r left).flatMap (Stop.deeds cx) =
      List.replicate (left + r.count.toNat) (pauseOf cx r) := by
  induction left with
  | zero => rw [climb, deeds_fall, Nat.zero_add]
  | succ left ih =>
    rw [climb, List.flatMap_cons, ih, Nat.add_right_comm, List.replicate_succ]
    rfl

theorem deeds_blinks (pin : PinId) (cx : Wait.Context) (left : Nat) :
    (blinks pin r left).flatMap (Stop.deeds cx) =
      (List.replicate left [.pin (.write pin .high), pauseOf cx r, .pin (.write pin .low),
        pauseOf cx r]).flatten ++ List.replicate (2 * r.count.toNat) (pauseOf cx r) := by
  induction left with
  | zero => rw [blinks, deeds_climb, Nat.two_mul]; rfl
  | succ left ih =>
    rw [blinks, List.flatMap_cons, List.flatMap_cons, ih, List.replicate_succ, List.flatten_cons]
    rfl

theorem length_fall (height : Nat) : (fall r height).length = height := by
  induction height with
  | zero => rfl
  | succ height ih => rw [fall, List.length_cons, ih]

theorem length_climb (left : Nat) : (climb r left).length = left + r.count.toNat := by
  induction left with
  | zero => rw [climb, length_fall, Nat.zero_add]
  | succ left ih => rw [climb, List.length_cons, ih, Nat.add_right_comm]

theorem length_blinks (pin : PinId) (left : Nat) :
    (blinks pin r left).length = 2 * left + 2 * r.count.toNat := by
  induction left with
  | zero => rw [blinks, length_climb]; omega
  | succ left ih => rw [blinks, List.length_cons, List.length_cons, ih]; omega

theorem length_score (pin : PinId) (r : Request) : (score pin r).length = 4 * r.count.toNat := by
  rw [score, length_blinks]
  omega

/-! ### The stop at a position -/

theorem fall_getElem? {height k : Nat} (h : k < height) :
    (fall r height)[k]? = some (rung r .descending (height - 1 - k)) := by
  induction height generalizing k with
  | zero => omega
  | succ height ih =>
    cases k with
    | zero => rfl
    | succ k =>
      rw [fall, List.getElem?_cons_succ, ih (by omega)]
      congr 2
      omega

theorem climb_getElem? {left k : Nat} (hleft : left ≤ r.count.toNat) (h : k < left) :
    (climb r left)[k]? = some (rung r .ascending (r.count.toNat - left + k)) := by
  induction left generalizing k with
  | zero => omega
  | succ left ih =>
    cases k with
    | zero => rfl
    | succ k =>
      rw [climb, List.getElem?_cons_succ, ih (by omega) (by omega)]
      congr 2
      omega

theorem climb_getElem?_fall {left k : Nat} (h : left ≤ k) :
    (climb r left)[k]? = (fall r r.count.toNat)[k - left]? := by
  induction left generalizing k with
  | zero => rfl
  | succ left ih =>
    obtain ⟨k, rfl⟩ : ∃ j, k = j + 1 := ⟨k - 1, by omega⟩
    rw [climb, List.getElem?_cons_succ, ih (by omega), Nat.add_sub_add_right]

theorem blinks_getElem?_climb (pin : PinId) {left k : Nat} (h : 2 * left ≤ k) :
    (blinks pin r left)[k]? = (climb r r.count.toNat)[k - 2 * left]? := by
  induction left generalizing k with
  | zero => rfl
  | succ left ih =>
    obtain ⟨k, rfl⟩ : ∃ j, k = j + 2 := ⟨k - 2, by omega⟩
    rw [blinks, List.getElem?_cons_succ, List.getElem?_cons_succ, ih (by omega)]
    congr 1
    omega

theorem score_ascending (pin : PinId) {k : Nat} (hup : 2 * r.count.toNat ≤ k)
    (htop : k < 3 * r.count.toNat) :
    (score pin r)[k]? = some (rung r .ascending (k - 2 * r.count.toNat)) := by
  rw [score, blinks_getElem?_climb pin hup, climb_getElem? (Nat.le_refl _) (by omega)]
  congr 2
  omega

theorem score_descending (pin : PinId) {k : Nat} (htop : 3 * r.count.toNat ≤ k)
    (hend : k < 4 * r.count.toNat) :
    (score pin r)[k]? = some (rung r .descending (4 * r.count.toNat - 1 - k)) := by
  rw [score, blinks_getElem?_climb pin (by omega), climb_getElem?_fall (by omega),
    fall_getElem? (by omega)]
  congr 2
  omega

end Ramp

/-- A ramp under every schedule. After a first call with a request, the pins are driven and the
waits registered as by a beginning of the blocking program, whatever the later calls bring and
whenever they come. A call answers only once the whole was done, after four suspensions for each
count, with the byte zero. The last suspensions of a run so far hold the heights, going up and then
down. -/
theorem ramp_plays_reference (pin : PinId) (r : Request) (tail : List UInt8) {m : Nat}
    (s : Session (Progress Ramp.Counters) Unit m) (hpoint : s.work.state.resumePoint = 0)
    (hreply : s.work.reply.toList = []) (first : Bool) (stimuli : List Stimulus) :
    let run := s.follow (Ramp.routine pin) (.call (r.encode ++ tail) first :: stimuli)
    let c := r.count.toNat
    let k := suspensions s.context run.1
    let done := deeds (run.1.flatMap (·.trace))
    (∀ (s' : Session (Progress Ramp.Counters) Unit m) command first,
        s'.call (Ramp.plugin pin) command first = s'.resume (Ramp.routine pin) command first) ∧
      done <+: Ramp.reference pin s.context r ∧
      (∀ x ∈ run.1, x.outcome = .ok .waiting ∨ x.outcome = .ok .ok) ∧
      ((∃ x ∈ run.1, x.outcome = .ok .ok) →
        done = Ramp.reference pin s.context r ∧ k = 4 * c ∧ run.2.work.reply.toList = [0] ∧
          run.2.work.state = ⟨0, r, ⟨r.count, 0⟩⟩) ∧
      ((∀ x ∈ run.1, x.outcome = .ok .waiting) →
        k ≤ 4 * c ∧
        (2 * c < k → k ≤ 3 * c → run.2.work.state =
          ⟨Label.encode Ramp.At.ascending, r, ⟨r.count, UInt8.ofNat (k - 2 * c - 1)⟩⟩) ∧
        (3 * c < k → run.2.work.state =
          ⟨Label.encode Ramp.At.descending, r, ⟨r.count, UInt8.ofNat (4 * c - k)⟩⟩)) := by
  intro run c k done
  have hplayed := Session.played_from_entry first stimuli hpoint hreply
    (Ramp.entry_continues pin r tail hpoint) (Ramp.plays_blinks pin r.count.toNat (Nat.le_refl _))
  have hreference : (Ramp.score pin r).flatMap (Stop.deeds s.context) =
    Ramp.reference pin s.context r := Ramp.deeds_blinks pin s.context r.count.toNat
  have hlength := Ramp.length_score pin r
  refine ⟨Session.call_eq_resume (Ramp.plugin_runs pin), ?_, hplayed.outcome, fun hok => ?_,
    fun hwaiting => ?_⟩
  · rw [← hreference]
    exact hplayed.done_prefix
  · obtain ⟨hdone, hcount, hanswer, hstate⟩ := hplayed.of_ok hok
    exact ⟨hdone.trans hreference, hcount.trans hlength, hanswer, hstate⟩
  · obtain ⟨hcount, hstate⟩ := hplayed.of_waiting hwaiting
    have hend : k ≤ 4 * c := by
      rw [← hlength]
      exact hcount
    refine ⟨hend, fun hup htop => ?_, fun hdown => ?_⟩
    · have hlast : k = k - 1 + 1 := by omega
      have hstop := Ramp.score_ascending pin (r := r) (k := k - 1) (by omega) (by omega)
      rw [Nat.sub_right_comm] at hstop
      exact hstate (k - 1) _ hlast hstop
    · have hlast : k = k - 1 + 1 := by omega
      have hstop := Ramp.score_descending pin (r := r) (k := k - 1) (by omega) (by omega)
      rw [show 4 * r.count.toNat - 1 - (k - 1) = 4 * c - k by omega] at hstop
      exact hstate (k - 1) _ hlast hstop

/-- A ramp of count one over a stale slot, called too early, late, and with other commands. -/
theorem ramp_plays_reference_once :
    let s : Session (Progress Ramp.Counters) Unit 1 :=
      ⟨0, 0, (), ⟨⟨0, ⟨7, 7⟩, ⟨3, 4⟩⟩, Wait.Table.empty, Reply.empty⟩⟩
    let stimuli : List Stimulus :=
      [.call [] false, .pause 10000, .call [2, 0, 0] false, .pause 20000, .call [] false,
        .pause 10000, .call [9] true, .call [] false, .pause 10000, .call [] false]
    let run := s.follow (Ramp.routine 8) (.call [1, 10, 0, 5] true :: stimuli)
    s.work.state.resumePoint = 0 ∧ s.work.reply.toList = [] ∧ run.1.length = 7 ∧
      suspensions 0 run.1 = 4 ∧
      deeds (run.1.flatMap (·.trace)) =
        [.pin (.write 8 .high), .wait (.register 0 10000), .pin (.write 8 .low),
          .wait (.register 0 10000), .wait (.register 0 10000), .wait (.register 0 10000)] ∧
      run.2.work.reply.toList = [0] ∧ run.2.work.state = ⟨0, ⟨1, 10⟩, ⟨1, 0⟩⟩ := by
  intro s stimuli run
  have hbytes : (⟨1, 10⟩ : Request).encode ++ [5] = [1, 10, 0, 5] := by decide
  have hreference : Ramp.reference 8 0 ⟨1, 10⟩ =
      [.pin (.write 8 .high), .wait (.register 0 10000), .pin (.write 8 .low),
        .wait (.register 0 10000), .wait (.register 0 10000), .wait (.register 0 10000)] := by
    decide
  have hlength : run.1.length = 7 := by decide +kernel
  have hanswered : run.1.any (·.outcome.toOption == some .ok) = true := by decide +kernel
  have hrun : run = s.follow (Ramp.routine 8) (.call [1, 10, 0, 5] true :: stimuli) := rfl
  have hplays := ramp_plays_reference 8 ⟨1, 10⟩ [5] s rfl rfl true stimuli
  -- From here on the run is only a name: unfolding it again would evaluate it.
  clear_value run
  rw [hbytes, ← hrun] at hplays
  have hok : ∃ x ∈ run.1, x.outcome = .ok .ok := by
    obtain ⟨x, hx, hout⟩ := List.any_eq_true.mp hanswered
    rw [beq_iff_eq] at hout
    cases houtcome : x.outcome with
    | error fault => simp [houtcome, Except.toOption] at hout
    | ok status =>
      rw [houtcome] at hout
      cases hout
      exact ⟨x, hx, houtcome⟩
  obtain ⟨-, -, -, hended, -⟩ := hplays
  obtain ⟨hdone, hcount, hreply, hstate⟩ := hended hok
  exact ⟨rfl, rfl, hlength, hcount, hdone.trans hreference, hreply, hstate⟩

end Resumable
