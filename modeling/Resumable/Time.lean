/-!
# Instants and durations

Time is counted in ticks of one microsecond in a 64-bit word. A deadline past the last instant is
held at the last instant; moving a clock past it is refused.
-/

namespace Resumable

/-- A point in time, in ticks since the clock started. -/
abbrev Instant := UInt64

/-- A length of time, in ticks. -/
abbrev Duration := UInt64

/-- Ticks in one millisecond. -/
def ticksPerMilli : UInt64 := 1000

/-- The last instant that a clock can show. -/
def Instant.last : Instant := UInt64.ofNat (UInt64.size - 1)

/-- The length of a whole number of milliseconds. -/
def Duration.ofMillis (ms : UInt16) : Duration := ticksPerMilli * ms.toUInt64

/-- Whole milliseconds in a duration, rounded down. -/
def Duration.wholeMillis (d : Duration) : Nat := d.toNat / ticksPerMilli.toNat

/-- The instant `d` after `now`, unless it lies past the last instant. -/
def Instant.after? (now : Instant) (d : Duration) : Option Instant :=
  if now.toNat + d.toNat < UInt64.size then some (now + d) else none

/-- The deadline of a wait of `d` that starts at `now`, held at the last instant. -/
def Instant.deadline (now : Instant) (d : Duration) : Instant :=
  (now.after? d).getD Instant.last

/-- Where a sleeper that may wake at `next` moves its clock: forward to it, never back. -/
def Instant.wake (now : Instant) (next : Option Instant) : Instant :=
  max now (next.getD now)

/-- Why a clock refuses to move. -/
inductive ClockError where
  | overflow
deriving DecidableEq, Repr

/-- The text of a clock error. -/
def ClockError.message : ClockError → String
  | .overflow => "overflow when adding duration to instant"

/-- Move a clock forward by `d`, refusing to pass the last instant. -/
def Instant.advance (now : Instant) (d : Duration) : Except ClockError Instant :=
  match now.after? d with
  | some later => .ok later
  | none => .error .overflow

/-! ### Laws in ticks -/

theorem Instant.toNat_last : Instant.last.toNat = UInt64.size - 1 := by decide

/-- A deadline is the sum of its start and length, held at the last instant. -/
theorem Instant.toNat_deadline (now : Instant) (d : Duration) :
    (now.deadline d).toNat = min (now.toNat + d.toNat) (UInt64.size - 1) := by
  have hn := now.toNat_lt
  have hd := d.toNat_lt
  unfold Instant.deadline Instant.after?
  split
  case isTrue h =>
    simp only [UInt64.size] at h
    simp only [Option.getD_some, UInt64.toNat_add, UInt64.size]
    omega
  case isFalse h =>
    simp only [UInt64.size] at h
    simp only [Option.getD_none, Instant.toNat_last, UInt64.size]
    omega

end Resumable
