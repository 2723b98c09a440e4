import Resumable.Wait.Waiter

/-!
# One context of the table of waits

Every operation of the table works on the record of one context. For each of them this module says
what it leaves there, that it leaves every other context alone, and that what it answers and leaves
depends on nothing else in the table.
-/

namespace Resumable.Wait

/-- What a signal does to the record that it finds. -/
def Record.signalled (transfer : Transfer) : Record → Record
  | .deadline instant => .deadline instant
  | .transfer awaited done => .transfer awaited (done || decide (awaited = transfer))

/-- Whether a record is of a wait for a transfer, signalled or not. -/
def Record.awaits (transfer : Transfer) : Record → Bool
  | .deadline _ => false
  | .transfer awaited _ => decide (awaited = transfer)

theorem Record.eq_of_deadline? {r : Record} {deadline : Instant}
    (h : r.deadline? = some deadline) : r = .deadline deadline := by
  cases r with
  | deadline instant =>
    cases h
    rfl
  | transfer awaited done => cases h

namespace Table

variable {m : Nat}

/-- The record in a cell of the table. Cells past the last context hold records of nobody. -/
def cell? (t : Table m) (k : Nat) : Option Record := (t.records[k]?).join

theorem record?_eq_cell? (t : Table m) (cx : Context) : t.record? cx = t.cell? cx.toNat := rfl

@[simp] theorem cell?_empty (k : Nat) : (empty : Table m).cell? k = none := by
  simp only [cell?, empty, Vector.getElem?_replicate]
  split <;> rfl

theorem cell?_update_other (t : Table m) {cx : Context} {k : Nat} (r : Option Record)
    (h : k ≠ cx.toNat) : (t.update cx r).cell? k = t.cell? k := by
  simp only [cell?, update, Vector.getElem?_setIfInBounds_ne (Ne.symm h)]

/-! ### Arming and cancelling -/

theorem record?_arm (t : Table m) (now : Instant) {cx : Context} (wait : Wait)
    (h : cx.toNat < m) : (t.arm now cx wait).record? cx = some (Record.start now wait) := by
  rw [arm, record?_update, if_pos h]

@[simp] theorem record?_cancel (t : Table m) (cx : Context) : (t.cancel cx).record? cx = none := by
  rw [cancel, record?_update, ite_self]

theorem record?_cancel_other (t : Table m) {cx other : Context} (h : other ≠ cx) :
    (t.cancel cx).record? other = t.record? other :=
  record?_update_other t _ h

theorem cancel_of_none {t : Table m} {cx : Context} (h : t.record? cx = none) :
    t.cancel cx = t := by
  have hrecords : t.records.setIfInBounds cx.toNat none = t.records := by
    apply Vector.ext
    intro k hk
    rw [Vector.getElem_setIfInBounds hk]
    split
    case isTrue hcx =>
      subst hcx
      rw [record?, Vector.getElem?_eq_getElem hk] at h
      exact h.symm
    case isFalse => rfl
  rw [cancel, update, hrecords]

/-! ### Checking -/

theorem check_of_waiting {t : Table m} {now : Instant} {cx : Context}
    (h : t.isWaiting now cx = true) : t.check now cx = (true, t) := by
  rw [check, if_pos h]

theorem check_of_over {t : Table m} {now : Instant} {cx : Context}
    (h : t.isWaiting now cx = false) : t.check now cx = (false, t.cancel cx) := by
  rw [check, h]
  rfl

theorem isSome_of_waiting {t : Table m} {now : Instant} {cx : Context}
    (h : t.isWaiting now cx = true) : (t.record? cx).isSome = true := by
  unfold isWaiting at h
  cases hr : t.record? cx with
  | none => simp [hr] at h
  | some r => rfl

/-! ### Signals -/

theorem lt_of_record? {t : Table m} {cx : Context} {r : Record} (h : t.record? cx = some r) :
    cx.toNat < m := by
  rcases Nat.lt_or_ge cx.toNat m with hlt | hge
  · exact hlt
  · simp [record?, Vector.getElem?_eq_none hge] at h

theorem signal_fst (t : Table m) (cx : Context) (transfer : Transfer) :
    (t.signal cx transfer).1 = (t.record? cx).any (Record.awaits transfer) := by
  unfold signal
  cases hr : t.record? cx with
  | none => rfl
  | some r =>
    cases r with
    | deadline instant => rfl
    | transfer awaited done =>
      by_cases h : awaited = transfer <;> simp [h, Record.awaits]

theorem record?_signal (t : Table m) (cx : Context) (transfer : Transfer) :
    (t.signal cx transfer).2.record? cx = (t.record? cx).map (Record.signalled transfer) := by
  cases hr : t.record? cx with
  | none => simp [signal, hr]
  | some r =>
    cases r with
    | deadline instant => simp [signal, hr, Record.signalled]
    | transfer awaited done =>
      by_cases h : awaited = transfer
      · simp [signal, hr, h, record?_update, lt_of_record? hr, Record.signalled]
      · simp [signal, hr, h, Record.signalled]

theorem signal_of_unheard {t : Table m} {cx : Context} {transfer : Transfer}
    (h : (t.signal cx transfer).1 = false) : (t.signal cx transfer).2 = t := by
  unfold signal at h ⊢
  split
  · split
    case isTrue awaited _ hrecord hown =>
      simp [hrecord, hown] at h
    case isFalse => rfl
  · rfl

/-- A signal writes to no cell but that of its context. -/
theorem cell?_signal_other (t : Table m) {cx : Context} {k : Nat} (transfer : Transfer)
    (h : k ≠ cx.toNat) : (t.signal cx transfer).2.cell? k = t.cell? k := by
  unfold signal
  split
  · split
    · exact cell?_update_other t _ h
    · rfl
  · rfl

theorem record?_signal_other (t : Table m) {cx other : Context} (transfer : Transfer)
    (h : other ≠ cx) : (t.signal cx transfer).2.record? other = t.record? other :=
  cell?_signal_other t transfer fun e => h (UInt8.toNat_inj.mp e)

/-! ### Deadlines -/

theorem mem_deadlines (t : Table m) (deadline : Instant) :
    deadline ∈ t.records.toList.filterMap (Option.bind · Record.deadline?) ↔
      ∃ k, t.cell? k = some (.deadline deadline) := by
  rw [List.mem_filterMap]
  constructor
  · rintro ⟨cell, hmem, hdeadline⟩
    obtain ⟨r, rfl, hr⟩ := Option.bind_eq_some_iff.mp hdeadline
    obtain rfl := Record.eq_of_deadline? hr
    obtain ⟨k, hk⟩ := List.mem_iff_getElem?.mp hmem
    refine ⟨k, ?_⟩
    rw [Vector.getElem?_toList] at hk
    simp [cell?, hk]
  · rintro ⟨k, hcell⟩
    have hk : t.records.toList[k]? = some (some (.deadline deadline)) := by
      rw [Vector.getElem?_toList]
      exact Option.join_eq_some_iff.mp hcell
    exact ⟨_, List.mem_iff_getElem?.mpr ⟨k, hk⟩, rfl⟩

/-- The earliest deadline lies ahead exactly when every deadline does. -/
theorem lt_nextDeadline_iff (t : Table m) (now : Instant) :
    (∀ deadline, t.nextDeadline = some deadline → now < deadline) ↔
      ∀ k deadline, t.cell? k = some (.deadline deadline) → now < deadline := by
  unfold nextDeadline
  constructor
  · intro h k deadline hcell
    have hmem := (mem_deadlines t deadline).mpr ⟨k, hcell⟩
    cases hnext : (t.records.toList.filterMap (Option.bind · Record.deadline?)).min? with
    | none =>
      rw [List.min?_eq_none_iff] at hnext
      rw [hnext] at hmem
      cases hmem
    | some next =>
      have hle : next ≤ deadline := (List.min?_eq_some_iff.mp hnext).2 deadline hmem
      have hlt : now < next := h next hnext
      exact UInt64.lt_of_lt_of_le hlt hle
  · intro h deadline hnext
    obtain ⟨k, hcell⟩ := (mem_deadlines t deadline).mp (List.min?_mem hnext)
    exact h k deadline hcell

end Table

end Resumable.Wait
