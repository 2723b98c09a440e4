import Mathlib.Data.List.Chain
import Resumable.Proofs.Outputs

/-!
# The time that a command keeps

A request fixes the delay of every wait of its command. This module says what it is for the turns of
a command to keep that time: no suspension is left earlier than one delay after it began, so writes
and the end of the command keep their distances; and turns at each of the deadlines end it exactly
on time. `Kept` lists the turns that a suspended command can have, and each of these facts follows
from it. Instants are compared in ticks, held at the last one of the clock.
-/

namespace Resumable

variable {r : Request}

/-! ### Delays in ticks -/

namespace Request

/-- The tick at which `k` delays in a row are over that start at an instant. -/
def due (r : Request) (k : Nat) (u : Instant) : Nat :=
  min (u.toNat + k * (1000 * r.delayMs.toNat)) (UInt64.size - 1)

theorem toNat_delay (r : Request) : r.delay.toNat = 1000 * r.delayMs.toNat := by
  have hword := r.delayMs.toNat_lt
  have hmilli : ticksPerMilli.toNat = 1000 := by decide
  rw [delay, Duration.ofMillis, UInt64.toNat_mul, hmilli, UInt16.toNat_toUInt64]
  omega

theorem toNat_deadline (r : Request) (u : Instant) :
    (u.deadline r.delay).toNat = r.due 1 u := by
  rw [Instant.toNat_deadline, toNat_delay, due, Nat.one_mul]

theorem due_zero (r : Request) (u : Instant) : r.due 0 u = u.toNat := by
  have hu := u.toNat_lt
  simp only [due, UInt64.size]
  omega

theorem le_due (r : Request) (k : Nat) (u : Instant) : u.toNat ≤ r.due k u := by
  have hu := u.toNat_lt
  simp only [due, UInt64.size]
  omega

theorem due_succ_le {k : Nat} {u t : Instant} (h : r.due 1 u ≤ t.toNat) :
    r.due (k + 1) u ≤ r.due k t := by
  simp only [due, Nat.add_mul] at h ⊢
  omega

theorem due_succ_eq {k : Nat} {u t : Instant} (h : t.toNat = r.due 1 u) :
    r.due k t = r.due (k + 1) u := by
  simp only [due, Nat.add_mul] at h ⊢
  omega

end Request

/-! ### The turns of a command -/

namespace Turn

/-- The turn found the wait of its session over. -/
def leaves (t : Turn) : Bool := t.handling.contains (.wait (.check t.session false))

/-- The turn registered a wait for the delay of the request. -/
def rests (t : Turn) (r : Request) : Bool :=
  t.handling.contains (.wait (.register t.session r.delay))

def Succeeds (t : Turn) : Prop := ∃ reply, t.ending = some (.ok reply)

theorem not_succeeds {t : Turn} (h : t.ending = none) : ¬ t.Succeeds := by
  rintro ⟨reply, hreply⟩
  rw [h] at hreply
  cases hreply

end Turn

def writeTimes (turns : List Turn) : List Instant :=
  turns.flatMap fun t => (pinOps t.handling).map fun _ => t.call.now

/-- The command ends with a reply, at this tick. -/
def EndsAt (turns : List Turn) (tick : Nat) : Prop :=
  (∃ t ∈ turns, t.Succeeds) ∧ ∀ t ∈ turns, t.Succeeds → t.call.now.toNat = tick

theorem EndsAt.cons {t : Turn} {turns : List Turn} {tick : Nat} (h : EndsAt turns tick)
    (hending : t.ending = none) : EndsAt (t :: turns) tick := by
  obtain ⟨⟨e, he, hsucceeds⟩, hexact⟩ := h
  exact ⟨⟨e, List.mem_cons_of_mem t he, hsucceeds⟩,
    List.forall_mem_cons.mpr ⟨fun h => absurd h (Turn.not_succeeds hending), hexact⟩⟩

theorem endsAt_singleton {t : Turn} {tick : Nat} (hsucceeds : t.Succeeds)
    (hnow : t.call.now.toNat = tick) : EndsAt [t] tick := by
  refine ⟨⟨t, List.mem_singleton_self t, hsucceeds⟩, fun v hv _ => ?_⟩
  obtain rfl := List.mem_singleton.mp hv
  exact hnow

/-- Whenever a wait is registered, the session has a turn exactly at its deadline. -/
def OnTime (r : Request) : List Turn → Prop
  | [] => True
  | t :: rest =>
    (t.rests r = true → ∃ u ∈ rest, u.call.now.toNat = r.due 1 t.call.now) ∧ OnTime r rest

instance decidableOnTime (r : Request) : (turns : List Turn) → Decidable (OnTime r turns)
  | [] => .isTrue trivial
  | t :: rest =>
    have := decidableOnTime r rest
    inferInstanceAs (Decidable
      ((t.rests r = true → ∃ u ∈ rest, u.call.now.toNat = r.due 1 t.call.now) ∧ OnTime r rest))

/-- The turns of a command, the first of which admits it, keep the time of its request: no
suspension is left early, so the writes keep their distance, and so does the end, which comes after
`waits` suspensions, and on time if the session is polled on time. -/
structure KeepsTime (r : Request) (waits : Nat) (first : Turn) (later : List Turn) : Prop where
  leaves : (first.call.now :: (later.filter Turn.leaves).map (·.call.now)).IsChain
    fun u t => r.due 1 u ≤ t.toNat
  writes : (writeTimes (first :: later)).Pairwise fun u t => r.due 1 u ≤ t.toNat
  ends : ∀ t ∈ first :: later, t.Succeeds →
    (later.filter Turn.leaves).length = waits ∧ r.due waits first.call.now ≤ t.call.now.toNat
  punctual : OnTime r (first :: later) → EndsAt (first :: later) (r.due waits first.call.now)

/-- What the turns of a command can be that is suspended since an instant, with so many more
suspensions to come. -/
inductive Kept (r : Request) : Instant → Nat → List Turn → Prop
  | nil {u : Instant} {left : Nat} : Kept r u left []
  | held {u : Instant} {left : Nat} {t : Turn} {turns : List Turn}
      (hnow : t.call.now.toNat < r.due 1 u) (hleaves : t.leaves = false)
      (hpins : pinOps t.handling = []) (hending : t.ending = none) (hrest : Kept r u left turns) :
      Kept r u left (t :: turns)
  | passed {u : Instant} {left : Nat} {t : Turn} {turns : List Turn}
      (hnow : r.due 1 u ≤ t.call.now.toNat) (hleaves : t.leaves = true)
      (hpins : (pinOps t.handling).length ≤ 1) (hrests : t.rests r = true)
      (hending : t.ending = none) (hrest : Kept r t.call.now left turns) :
      Kept r u (left + 1) (t :: turns)
  | finished {u : Instant} {t : Turn} (hnow : r.due 1 u ≤ t.call.now.toNat)
      (hleaves : t.leaves = true) (hpins : pinOps t.handling = []) (hsucceeds : t.Succeeds) :
      Kept r u 0 [t]

theorem writeTimes_cons (t : Turn) (turns : List Turn) :
    writeTimes (t :: turns) = (pinOps t.handling).map (fun _ => t.call.now) ++ writeTimes turns :=
  rfl

/-- Writes that come after one of a turn with at most one write. -/
theorem pairwise_writeTimes_cons {t : Turn} {turns : List Turn}
    (hpins : (pinOps t.handling).length ≤ 1)
    (hlater : ∀ v ∈ writeTimes turns, r.due 1 t.call.now ≤ v.toNat)
    (hturns : (writeTimes turns).Pairwise fun u v => r.due 1 u ≤ v.toNat) :
    (writeTimes (t :: turns)).Pairwise fun u v => r.due 1 u ≤ v.toNat := by
  rw [writeTimes_cons]
  match hops : pinOps t.handling, hpins with
  | [], _ => exact hturns
  | [op], _ => exact List.pairwise_cons.mpr ⟨hlater, hturns⟩

namespace Kept

variable {u : Instant} {left : Nat} {turns : List Turn}

theorem leaves (h : Kept r u left turns) :
    (u :: (turns.filter Turn.leaves).map (·.call.now)).IsChain fun u t => r.due 1 u ≤ t.toNat := by
  induction h with
  | nil => exact .singleton _
  | held _ hleaves _ _ _ ih =>
    rw [List.filter_cons_of_neg (by simp [hleaves])]
    exact ih
  | passed hnow hleaves _ _ _ _ ih =>
    rw [List.filter_cons_of_pos hleaves, List.map_cons]
    exact .cons_cons hnow ih
  | finished hnow hleaves =>
    rw [List.filter_cons_of_pos hleaves, List.map_cons]
    exact .cons_cons hnow (.singleton _)

theorem writes_after (h : Kept r u left turns) :
    ∀ v ∈ writeTimes turns, r.due 1 u ≤ v.toNat := by
  induction h with
  | nil => exact nofun
  | held _ _ hpins _ _ ih =>
    rw [writeTimes_cons, hpins]
    exact ih
  | @passed u left t turns hnow _ _ _ _ _ ih =>
    intro v hv
    rw [writeTimes_cons, List.mem_append, List.mem_map] at hv
    rcases hv with ⟨_, _, rfl⟩ | hv
    · exact hnow
    · have hlater := ih v hv
      have hafter := r.le_due 1 t.call.now
      omega
  | finished _ _ hpins =>
    rw [writeTimes_cons, hpins]
    exact nofun

theorem writes (h : Kept r u left turns) :
    (writeTimes turns).Pairwise fun u v => r.due 1 u ≤ v.toNat := by
  induction h with
  | nil => exact .nil
  | held _ _ hpins _ _ ih =>
    rw [writeTimes_cons, hpins]
    exact ih
  | passed _ _ hpins _ _ hrest ih => exact pairwise_writeTimes_cons hpins hrest.writes_after ih
  | finished _ _ hpins =>
    rw [writeTimes_cons, hpins]
    exact .nil

/-- A command that ends has left all of its suspensions, one delay after the other. -/
theorem ends (h : Kept r u left turns) :
    ∀ t ∈ turns, t.Succeeds →
      (turns.filter Turn.leaves).length = left + 1 ∧ r.due (left + 1) u ≤ t.call.now.toNat := by
  induction h with
  | nil => exact nofun
  | held _ hleaves _ hending _ ih =>
    rw [List.filter_cons_of_neg (by simp [hleaves])]
    exact List.forall_mem_cons.mpr ⟨fun h => absurd h (Turn.not_succeeds hending), ih⟩
  | @passed u left t turns hnow hleaves _ _ hending _ ih =>
    rw [List.filter_cons_of_pos hleaves, List.length_cons]
    refine List.forall_mem_cons.mpr
      ⟨fun h => absurd h (Turn.not_succeeds hending), fun v hv hsucceeds => ?_⟩
    obtain ⟨hcount, hlater⟩ := ih v hv hsucceeds
    exact ⟨congrArg Nat.succ hcount, Nat.le_trans (Request.due_succ_le hnow) hlater⟩
  | finished hnow hleaves =>
    intro t ht _
    obtain rfl := List.mem_singleton.mp ht
    exact ⟨by rw [List.filter_cons_of_pos hleaves]; rfl, hnow⟩

/-- A first turn that is not early comes at the deadline, if some turn does. -/
theorem leaves_at_deadline {t : Turn}
    (hsorted : (t :: turns).Pairwise fun t v => t.call.now ≤ v.call.now)
    (hpolled : ∃ v ∈ t :: turns, v.call.now.toNat = r.due 1 u)
    (hnow : r.due 1 u ≤ t.call.now.toNat) : t.call.now.toNat = r.due 1 u := by
  obtain ⟨v, hv, hdue⟩ := hpolled
  rcases List.mem_cons.mp hv with rfl | hv
  · exact hdue
  · have hle := UInt64.le_iff_toNat_le.mp ((List.pairwise_cons.mp hsorted).1 v hv)
    omega

/-- Turns at every deadline leave every suspension exactly when it is over. -/
theorem punctual (h : Kept r u left turns)
    (hsorted : turns.Pairwise fun t v => t.call.now ≤ v.call.now)
    (hpolled : ∃ v ∈ turns, v.call.now.toNat = r.due 1 u) (hontime : OnTime r turns) :
    EndsAt turns (r.due (left + 1) u) := by
  induction h with
  | nil =>
    obtain ⟨v, hv, _⟩ := hpolled
    cases hv
  | @held u left t turns hnow _ _ hending _ ih =>
    obtain ⟨v, hv, hdue⟩ := hpolled
    -- The turn at the deadline is a later one.
    have hlater : v ∈ turns := by
      rcases List.mem_cons.mp hv with rfl | hv
      · omega
      · exact hv
    exact (ih hsorted.of_cons ⟨v, hlater, hdue⟩ hontime.2).cons hending
  | @passed u left t turns hnow _ _ hrests hending _ ih =>
    have hthen := leaves_at_deadline hsorted hpolled hnow
    have hend := ih hsorted.of_cons (hontime.1 hrests) hontime.2
    rw [Request.due_succ_eq hthen] at hend
    exact hend.cons hending
  | finished hnow _ _ hsucceeds =>
    exact endsAt_singleton hsucceeds (leaves_at_deadline hsorted hpolled hnow)

end Kept

/-- A command that is suspended by the turn that admits it. -/
theorem keepsTime_of_kept {first : Turn} {left : Nat} {later : List Turn}
    (hkept : Kept r first.call.now left later) (hpins : (pinOps first.handling).length ≤ 1)
    (hrests : first.rests r = true) (hending : first.ending = none)
    (hsorted : later.Pairwise fun t v => t.call.now ≤ v.call.now) :
    KeepsTime r (left + 1) first later where
  leaves := hkept.leaves
  writes := pairwise_writeTimes_cons hpins hkept.writes_after hkept.writes
  ends := List.forall_mem_cons.mpr
    ⟨fun hsucceeds => absurd hsucceeds (Turn.not_succeeds hending), hkept.ends⟩
  punctual hontime := (hkept.punctual hsorted (hontime.1 hrests) hontime.2).cons hending

/-- A command that ends in the turn that admits it. -/
theorem keepsTime_at_once {first : Turn} (hpins : pinOps first.handling = [])
    (hsucceeds : first.Succeeds) : KeepsTime r 0 first [] where
  leaves := .singleton _
  writes := by
    rw [writeTimes_cons, hpins]
    exact .nil
  ends := by
    intro t ht _
    obtain rfl := List.mem_singleton.mp ht
    exact ⟨rfl, Nat.le_of_eq (r.due_zero _)⟩
  punctual _ := endsAt_singleton hsucceeds (r.due_zero _).symm

end Resumable
