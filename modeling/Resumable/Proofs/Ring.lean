import Resumable.Proofs.Queue

/-!
# The ring behind a queue

The items of a queue stand on a ring of cells between two places: the head, where the oldest one
stands, and the tail, where the next one will be put. Putting an item in moves the tail by one cell,
taking the oldest one out moves the head by one, and both go round at the end; taking out a match
moves them once for every item. The main statement is that the cells from the head on hold exactly
the items, also in the middle of such a turn, and that the whole serves as a list of bounded length.
-/

namespace Resumable

theorem wrap_eq_mod {cap i : Nat} (h : i < 2 * cap) : wrap cap i = i % cap := by
  unfold wrap
  split
  case isTrue hlt => rw [Nat.mod_eq_of_lt hlt]
  case isFalse hge =>
    have hle : cap ≤ i := by omega
    rw [Nat.mod_eq_sub_mod hle, Nat.mod_eq_of_lt (by omega)]

theorem setIfInBounds_of_lt {α : Type} {cap i : Nat} (cells : Vector α cap) (a : α) (h : i < cap) :
    cells.setIfInBounds i a = cells.set i a h := by
  apply Vector.ext
  intro j hj
  rw [Vector.getElem_setIfInBounds hj, Vector.getElem_set]

namespace Fifo

variable {α : Type} {cap : Nat} {q r : Fifo α cap} {a : α}

/-! ### Head and tail -/

def tail (q : Fifo α cap) : Nat := (q.head + q.length) % cap

theorem positive (q : Fifo α cap) : 0 < cap := Nat.zero_lt_of_lt q.head_lt

theorem tail_lt (q : Fifo α cap) : q.tail < cap := Nat.mod_lt _ q.positive

theorem wrap_head_add (q : Fifo α cap) {k : Nat} (h : k ≤ cap) :
    wrap cap (q.head + k) = (q.head + k) % cap := by
  have hhead := q.head_lt
  exact wrap_eq_mod (by omega)

/-- An item is put into the cell at the tail, and the tail moves on. -/
theorem push_at_tail (h : q.push a = some r) :
    r.cells = q.cells.set q.tail (some a) q.tail_lt ∧ r.head = q.head ∧
      r.tail = (q.tail + 1) % cap := by
  have hplace : wrap cap (q.head + q.length) = q.tail := q.wrap_head_add q.length_le
  unfold push at h
  split at h
  case isTrue =>
    cases h
    refine ⟨?_, rfl, ?_⟩
    · simp only [hplace]
      exact setIfInBounds_of_lt q.cells (some a) q.tail_lt
    · simp only [tail, Nat.mod_add_mod, Nat.add_assoc]
  case isFalse => cases h

/-- The item in the cell at the head is taken out, and the head moves on. -/
theorem pop_at_head (h : q.pop = some (a, r)) :
    q.cells.get ⟨q.head, q.head_lt⟩ = some a ∧ r.cells = q.cells.set q.head none q.head_lt ∧
      r.head = (q.head + 1) % cap ∧ r.tail = q.tail := by
  have hplace : wrap cap (q.head + 0) = q.head := by
    rw [q.wrap_head_add (Nat.zero_le cap), Nat.add_zero, Nat.mod_eq_of_lt q.head_lt]
  have hnext := q.wrap_head_add q.positive
  have hfront : q.toList[0]? = some a := by rw [toList_pop h, List.getElem?_cons_zero]
  unfold pop at h
  split at h
  case isTrue hpos =>
    obtain ⟨rfl, rfl⟩ := Prod.mk.inj (Option.some.inj h)
    refine ⟨?_, ?_, hnext, ?_⟩
    · rw [getElem?_toList, if_pos hpos, ringCell, hplace,
        Vector.getElem?_eq_getElem q.head_lt] at hfront
      exact hfront
    · simp only [hplace]
      exact setIfInBounds_of_lt q.cells none q.head_lt
    · have hsum : q.head + 1 + (q.length - 1) = q.head + q.length := by omega
      simp only [tail, hnext, Nat.mod_add_mod, hsum]
  case isFalse => cases h

/-! ### Free cells -/

/-- The cells behind the last item hold nothing. -/
def Clean (q : Fifo α cap) : Prop :=
  ∀ k, q.length ≤ k → k < cap → ringCell q.cells q.head k = none

theorem clean_empty (positive : 0 < cap) : (empty positive : Fifo α cap).Clean := by
  intro k _ _
  simp only [ringCell, empty, Vector.getElem?_replicate]
  split <;> rfl

theorem Clean.push (h : q.Clean) (hpush : q.push a = some r) : r.Clean := by
  unfold Fifo.push at hpush
  split at hpush
  case isTrue hlt =>
    cases hpush
    intro k hlength hk
    dsimp only at hlength ⊢
    rw [ringCell_set_other _ _ hlt hk (by omega)]
    exact h k (by omega) hk
  case isFalse => cases hpush

theorem Clean.pop (h : q.Clean) (hpop : q.pop = some (a, r)) : r.Clean := by
  have hhead := q.head_lt
  unfold Fifo.pop at hpop
  split at hpop
  case isTrue hpos =>
    obtain ⟨rfl, rfl⟩ := Prod.mk.inj (Option.some.inj hpop)
    intro k hlength hk
    dsimp only at hlength ⊢
    rw [ringCell_next _ hhead hk]
    by_cases hlast : k + 1 < cap
    · rw [ringCell_set_other _ _ q.positive hlast (by omega)]
      exact h (k + 1) (by omega) hlast
    · -- The cell before the new head is the one at the old head, a whole turn away.
      have hround : wrap cap (q.head + (k + 1)) = wrap cap (q.head + 0) := by
        unfold wrap
        split <;> split <;> omega
      have hfreed := ringCell_set q.cells (none : Option α) hhead q.positive
      rw [ringCell, hround]
      exact hfreed
  case isFalse => cases hpop

theorem Clean.turn (p : α → Bool) (places : Nat) (found : Option α) (h : q.Clean) :
    (turn p places found q).2.Clean := by
  induction places generalizing found q with
  | zero => exact h
  | succ places ih =>
    unfold Fifo.turn
    cases hpop : q.pop with
    | none => exact h
    | some item =>
      obtain ⟨a, r⟩ := item
      have hr := h.pop hpop
      dsimp only
      split
      · exact ih (some a) hr
      · cases hpush : r.push a with
        | none => exact ih found hr
        | some s => exact ih found (hr.push hpush)

/-! ### What can be asked of a queue -/

inductive Operation (α : Type) where
  | push (item : α)
  | takeFirst (p : α → Bool)
  | clear

inductive Answer (α : Type) where
  | accepted
  | refused (item : α)
  | taken (item : Option α)
  | cleared
deriving DecidableEq

def perform (q : Fifo α cap) : Operation α → Answer α × Fifo α cap
  | .push a =>
    match q.push a with
    | some r => (.accepted, r)
    | none => (.refused a, q)
  | .takeFirst p => (.taken (q.takeFirst p).1, (q.takeFirst p).2)
  | .clear => (.cleared, empty q.positive)

def after (q : Fifo α cap) (operations : List (Operation α)) : Fifo α cap :=
  operations.foldl (fun q operation => (q.perform operation).2) q

/-- What a list of at most `cap` items answers, and what it holds then. -/
inductive Serves (cap : Nat) : List α → Operation α → Answer α → List α → Prop
  | accepted {items : List α} {a : α} (h : items.length < cap) :
      Serves cap items (.push a) .accepted (items ++ [a])
  | refused {items : List α} {a : α} (h : items.length = cap) :
      Serves cap items (.push a) (.refused a) items
  | taken {before after : List α} {a : α} {p : α → Bool} (hbefore : ∀ b ∈ before, p b = false)
      (ha : p a = true) :
      Serves cap (before ++ a :: after) (.takeFirst p) (.taken (some a)) (before ++ after)
  | missed {items : List α} {p : α → Bool} (h : ∀ b ∈ items, p b = false) :
      Serves cap items (.takeFirst p) (.taken none) items
  | cleared {items : List α} : Serves cap items .clear .cleared []

theorem serves_push (q : Fifo α cap) (a : α) :
    Serves cap q.toList (.push a) (q.perform (.push a)).1 (q.perform (.push a)).2.toList := by
  have hlength := q.length_toList
  cases hpush : q.push a with
  | none =>
    have hfull := push_eq_none_iff.mp hpush
    simp only [perform, hpush]
    exact .refused (by omega)
  | some r =>
    have hroom : q.length < cap := by
      have hle := q.length_le
      have hne : ¬ q.length = cap := fun hfull => by simp [push_eq_none_iff.mpr hfull] at hpush
      omega
    simp only [perform, hpush, toList_push hpush]
    exact .accepted (by omega)

theorem serves_takeFirst (q : Fifo α cap) (p : α → Bool) :
    Serves cap q.toList (.takeFirst p) (q.perform (.takeFirst p)).1
      (q.perform (.takeFirst p)).2.toList := by
  simp only [perform, takeFirst_fst, toList_takeFirst]
  cases hfind : q.toList.find? p with
  | none =>
    have hnone : ∀ b ∈ q.toList, p b = false := by simpa using hfind
    rw [List.eraseP_of_forall_not (by simpa using hnone)]
    exact .missed hnone
  | some a =>
    obtain ⟨ha, before, after, hsplit, hbefore⟩ := List.find?_eq_some_iff_append.mp hfind
    have hbefore' : ∀ b ∈ before, p b = false := by simpa using hbefore
    rw [hsplit, List.eraseP_append_right _ (by simpa using hbefore'), List.eraseP_cons_of_pos ha]
    exact .taken hbefore' ha

/-- One operation does to the items what it does to a list. -/
theorem serves_perform (q : Fifo α cap) (operation : Operation α) :
    Serves cap q.toList operation (q.perform operation).1 (q.perform operation).2.toList := by
  cases operation with
  | push a => exact serves_push q a
  | takeFirst p => exact serves_takeFirst q p
  | clear => exact .cleared

theorem Clean.perform (h : q.Clean) (operation : Operation α) : (q.perform operation).2.Clean := by
  cases operation with
  | push a =>
    cases hpush : q.push a with
    | none =>
      simp only [Fifo.perform, hpush]
      exact h
    | some r =>
      simp only [Fifo.perform, hpush]
      exact h.push hpush
  | takeFirst p => exact h.turn p q.length none
  | clear => exact clean_empty q.positive

theorem Clean.after (h : q.Clean) (operations : List (Operation α)) :
    (q.after operations).Clean := by
  induction operations generalizing q with
  | nil => exact h
  | cons operation rest ih => exact ih (h.perform operation)

/-- How the items of a queue stand on its ring, and how the head and the tail move. -/
structure OnRing (q : Fifo α cap) : Prop where
  cells : ∀ k < cap, q.cells[(q.head + k) % cap]? = some q.toList[k]?
  put : ∀ a r, q.push a = some r → r.cells = q.cells.set q.tail (some a) q.tail_lt ∧
    r.head = q.head ∧ r.tail = (q.tail + 1) % cap
  taken : ∀ a r, q.pop = some (a, r) → q.cells.get ⟨q.head, q.head_lt⟩ = some a ∧
    r.cells = q.cells.set q.head none q.head_lt ∧ r.head = (q.head + 1) % cap ∧ r.tail = q.tail

theorem Clean.onRing (h : q.Clean) : q.OnRing where
  cells k hk := by
    have hcell : ringCell q.cells q.head k = q.toList[k]? := by
      rw [getElem?_toList]
      split
      case isTrue => rfl
      case isFalse hfree => exact h k (by omega) hk
    have hlt : (q.head + k) % cap < cap := Nat.mod_lt _ q.positive
    rw [ringCell, q.wrap_head_add (Nat.le_of_lt hk), Vector.getElem?_eq_getElem hlt] at hcell
    rw [Vector.getElem?_eq_getElem hlt, ← hcell]
    rfl
  put _ _ := push_at_tail
  taken _ _ := pop_at_head

end Fifo

/-- A queue of any capacity, after whatever was asked of it, holds a list of at most that many
items, from nothing on; whatever is asked next is answered as by that list and leaves what it leaves
there. All the time, and after every place of a turn that looks for a match, the cells from the head
on hold the items in their order and no other cell holds one, an item is put in at the tail and
taken out at the head, and both are places of the ring. -/
theorem queue_serves_as_bounded_list {α : Type} {cap : Nat} (positive : 0 < cap)
    (operations : List (Fifo.Operation α)) :
    let q := (Fifo.empty positive : Fifo α cap).after operations
    (Fifo.empty positive : Fifo α cap).toList = [] ∧
      q.toList.length = q.length ∧ q.length ≤ cap ∧
      (∀ operation, Fifo.Serves cap q.toList operation (q.perform operation).1
        (q.perform operation).2.toList) ∧
      q.OnRing ∧ ∀ p places, (Fifo.turn p places none q).2.OnRing := by
  intro q
  have hclean : q.Clean := (Fifo.clean_empty positive).after operations
  exact ⟨Fifo.toList_empty positive, q.length_toList, q.length_le, q.serves_perform, hclean.onRing,
    fun p places => (hclean.turn p places none).onRing⟩

/-- Three cells whose head has come to the last one: full, then without the item in the middle. -/
theorem queue_serves_as_bounded_list_rounded :
    let q := (Fifo.empty (by decide) : Fifo Nat 3).after
      [.push 1, .push 2, .takeFirst (· == 1), .push 3, .push 4]
    0 < 3 ∧ q.head = 2 ∧ q.tail = 2 ∧ q.toList.length = 3 ∧
      Fifo.Serves 3 [2, 3, 4] (.push 5) (.refused 5) [2, 3, 4] ∧
      Fifo.Serves 3 [2, 3, 4] (.takeFirst (· == 3)) (.taken (some 3)) [2, 4] ∧
      q.cells[(2 + 1) % 3]? = some (some 3) := by
  intro q
  have hitems : q.toList = [2, 3, 4] := by decide
  have hrefused : q.perform (.push 5) = (.refused 5, q) := rfl
  have htaken : (q.perform (.takeFirst (· == 3))).1 = .taken (some 3) := by decide
  have hleft : (q.perform (.takeFirst (· == 3))).2.toList = [2, 4] := by decide
  obtain ⟨-, hlength, -, hserves, hring, -⟩ := queue_serves_as_bounded_list (by decide : 0 < 3)
    [.push 1, .push 2, .takeFirst (· == 1), .push 3, .push 4]
  have hpush := hserves (.push 5)
  have htake := hserves (.takeFirst (· == 3))
  have hcell := hring.cells 1 (by decide)
  change Fifo.Serves 3 q.toList _ (q.perform _).1 (q.perform _).2.toList at hpush htake
  change q.cells[_]? = some q.toList[1]? at hcell
  rw [hrefused, hitems] at hpush
  rw [htaken, hleft, hitems] at htake
  rw [hitems] at hcell
  exact ⟨by decide, rfl, by decide, hlength, hpush, htake, hcell⟩

end Resumable
