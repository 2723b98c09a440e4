/-!
# A bounded queue with selective removal

A ring of cells holds the items of a queue from a head position on, going round at the end of the
ring. The view `toList` lists the items, the oldest first. Items leave the queue by the first match
of a condition, which one full turn of the ring finds: every item is taken from the front and, the
match apart, put back behind the others.
-/

namespace Resumable

/-- A position on a ring of `cap` cells, at most one turn past the start. -/
def wrap (cap i : Nat) : Nat := if i < cap then i else i - cap

/-- What the cell `k` places behind the head of a ring holds. -/
def ringCell {α : Type} {cap : Nat} (cells : Vector (Option α) cap) (head k : Nat) : Option α :=
  (cells[wrap cap (head + k)]?).join

/-- A queue of at most `cap` items in a ring of cells. -/
structure Fifo (α : Type) (cap : Nat) where
  cells : Vector (Option α) cap
  head : Nat
  length : Nat
  head_lt : head < cap
  length_le : length ≤ cap
  filled : ∀ k < length, (ringCell cells head k).isSome

/-! ### Cells of a ring after a change -/

section Ring

variable {α : Type} {cap : Nat} (cells : Vector (Option α) cap) {head k l : Nat}

theorem wrap_lt (hhead : head < cap) (hk : k < cap) : wrap cap (head + k) < cap := by
  unfold wrap
  split <;> omega

theorem wrap_ne (hk : k < cap) (hl : l < cap) (hne : k ≠ l) :
    wrap cap (head + k) ≠ wrap cap (head + l) := by
  unfold wrap
  split <;> split <;> omega

theorem wrap_next (hhead : head < cap) (hk : k < cap) :
    wrap cap (wrap cap (head + 1) + k) = wrap cap (head + (k + 1)) := by
  unfold wrap
  split <;> split <;> split <;> omega

/-- The cell that was changed holds what was stored. -/
theorem ringCell_set (a : Option α) (hhead : head < cap) (hk : k < cap) :
    ringCell (cells.setIfInBounds (wrap cap (head + k)) a) head k = a := by
  simp [ringCell, wrap_lt hhead hk]

/-- Every other cell keeps what it held. -/
theorem ringCell_set_other (a : Option α) (hk : k < cap) (hl : l < cap) (hne : k ≠ l) :
    ringCell (cells.setIfInBounds (wrap cap (head + k)) a) head l = ringCell cells head l := by
  simp only [ringCell, Vector.getElem?_setIfInBounds_ne (wrap_ne hk hl hne)]

/-- Moving the head by one place brings every later cell one place closer. -/
theorem ringCell_next (hhead : head < cap) (hk : k < cap) :
    ringCell cells (wrap cap (head + 1)) k = ringCell cells head (k + 1) := by
  simp only [ringCell, wrap_next hhead hk]

end Ring

namespace Fifo

variable {α : Type} {cap : Nat}

/-- The queue without items. -/
def empty (positive : 0 < cap) : Fifo α cap where
  cells := Vector.replicate cap none
  head := 0
  length := 0
  head_lt := positive
  length_le := Nat.zero_le cap
  filled := by simp

/-- The item with `k` items before it. -/
def item (q : Fifo α cap) (k : Fin q.length) : α :=
  (ringCell q.cells q.head k).get (q.filled k k.isLt)

/-- The items of a queue, the oldest first. -/
def toList (q : Fifo α cap) : List α := List.ofFn q.item

/-- Put an item behind the others, unless the queue is full. -/
def push (q : Fifo α cap) (a : α) : Option (Fifo α cap) :=
  if h : q.length < cap then
    some {
      cells := q.cells.setIfInBounds (wrap cap (q.head + q.length)) (some a)
      head := q.head
      length := q.length + 1
      head_lt := q.head_lt
      length_le := h
      filled := by
        intro k hk
        by_cases hlast : k = q.length
        · subst hlast
          rw [ringCell_set _ _ q.head_lt h]
          rfl
        · rw [ringCell_set_other _ _ h (by omega) (Ne.symm hlast)]
          exact q.filled k (by omega) }
  else
    none

/-- Take the oldest item from the front, if there is one. -/
def pop (q : Fifo α cap) : Option (α × Fifo α cap) :=
  if h : 0 < q.length then
    some (q.item ⟨0, h⟩, {
      cells := q.cells.setIfInBounds (wrap cap (q.head + 0)) none
      head := wrap cap (q.head + 1)
      length := q.length - 1
      head_lt := by
        have hhead := q.head_lt
        unfold wrap
        split <;> omega
      length_le := Nat.le_trans (Nat.sub_le _ _) q.length_le
      filled := by
        intro k hk
        have hl := q.length_le
        have hhead := q.head_lt
        rw [ringCell_next _ hhead (by omega),
          ringCell_set_other _ _ (by omega) (by omega) (by omega)]
        exact q.filled (k + 1) (by omega) })
  else
    none

/-- Turn the ring by a number of items: keep the first match apart and put the others back. -/
def turn (p : α → Bool) : Nat → Option α → Fifo α cap → Option α × Fifo α cap
  | 0, found, q => (found, q)
  | k + 1, found, q =>
    match q.pop with
    | none => (found, q)
    | some (a, q) =>
      if found.isNone && p a then turn p k (some a) q
      else turn p k found ((q.push a).getD q)

/-- Take out the oldest item that satisfies a condition, and keep the order of the others. -/
def takeFirst (q : Fifo α cap) (p : α → Bool) : Option α × Fifo α cap := turn p q.length none q

/-! ### The items after each operation -/

@[simp] theorem toList_empty (positive : 0 < cap) :
    (empty positive : Fifo α cap).toList = [] := rfl

@[simp] theorem length_toList (q : Fifo α cap) : q.toList.length = q.length := by
  simp [toList]

/-- An item is refused exactly when the queue is full. -/
theorem push_eq_none_iff {q : Fifo α cap} {a : α} : q.push a = none ↔ q.length = cap := by
  have hl := q.length_le
  unfold push
  split
  · simp only [reduceCtorEq, false_iff]
    omega
  · simp only [true_iff]
    omega

/-- The view lists the cells from the head on, as many as there are items. -/
theorem getElem?_toList (q : Fifo α cap) (k : Nat) :
    q.toList[k]? = if k < q.length then ringCell q.cells q.head k else none := by
  simp only [toList, List.getElem?_ofFn, item]
  split <;> simp

/-- An item that is put in stands behind all others. -/
theorem toList_push {q r : Fifo α cap} {a : α} (h : q.push a = some r) :
    r.toList = q.toList ++ [a] := by
  unfold push at h
  split at h
  case isTrue hlt =>
    cases h
    apply List.ext_getElem?
    intro k
    rw [getElem?_toList, List.getElem?_append, length_toList, getElem?_toList]
    dsimp only
    by_cases hk : k < q.length
    · rw [if_pos hk, if_pos hk, if_pos (Nat.lt_succ_of_lt hk),
        ringCell_set_other _ _ hlt (by omega) (by omega)]
    · by_cases hlast : k = q.length
      · subst hlast
        simp [ringCell_set _ _ q.head_lt hlt]
      · rw [if_neg hk, if_neg (by omega), List.getElem?_eq_none (by simp; omega)]
  case isFalse => cases h

/-- The item that is taken out stood before all others. -/
theorem toList_pop {q r : Fifo α cap} {a : α} (h : q.pop = some (a, r)) :
    q.toList = a :: r.toList := by
  unfold pop at h
  split at h
  case isTrue hpos =>
    obtain ⟨rfl, rfl⟩ := Prod.mk.inj (Option.some.inj h)
    have hl := q.length_le
    apply List.ext_getElem?
    intro k
    cases k with
    | zero =>
      rw [List.getElem?_cons_zero, getElem?_toList, if_pos hpos]
      simp [item]
    | succ k =>
      rw [List.getElem?_cons_succ, getElem?_toList, getElem?_toList]
      dsimp only
      by_cases hk : k + 1 < q.length
      · rw [if_pos hk, if_pos (by omega), ringCell_next _ q.head_lt (by omega),
          ringCell_set_other _ _ (by omega) (by omega) (by omega)]
      · rw [if_neg hk, if_neg (by omega)]
  case isFalse => cases h

end Fifo

end Resumable
