import Resumable.Fifo

/-!
# What a full turn of the queue leaves

A full turn of the ring takes every item from the front and puts all but one of them back. Seen
through the list of items, it finds the first match and erases that one occurrence. The second half
splits a queue that several owners share: taking the first item of one owner takes the head of
its own items and leaves the items of every other owner as they were.
-/

namespace Resumable.Fifo

variable {α : Type} {cap : Nat}

theorem length_le_cap (q : Fifo α cap) : q.toList.length ≤ cap := by
  rw [length_toList]
  exact q.length_le

theorem exists_push {q : Fifo α cap} (a : α) (h : q.length < cap) :
    ∃ r, q.push a = some r ∧ r.toList = q.toList ++ [a] := by
  cases hpush : q.push a with
  | none =>
    have hfull := push_eq_none_iff.mp hpush
    omega
  | some r => exact ⟨r, rfl, toList_push hpush⟩

theorem exists_pop {q : Fifo α cap} {a : α} {rest : List α} (h : q.toList = a :: rest) :
    ∃ r, q.pop = some (a, r) ∧ r.toList = rest := by
  have hlen : q.length = rest.length + 1 := by
    rw [← length_toList, h, List.length_cons]
  cases hpop : q.pop with
  | none =>
    unfold pop at hpop
    split at hpop
    · cases hpop
    · omega
  | some ar =>
    obtain ⟨b, r⟩ := ar
    have hview := toList_pop hpop
    rw [h] at hview
    obtain ⟨rfl, rfl⟩ := List.cons.inj hview
    exact ⟨r, rfl, rfl⟩

/-! ### Turning the ring -/

/-- One place of the turn: the front item goes behind the others. -/
theorem exists_pop_push {q : Fifo α cap} {a : α} {rest : List α} (h : q.toList = a :: rest) :
    ∃ r, q.pop = some (a, r) ∧ r.toList = rest ∧
      ((r.push a).getD r).toList = rest ++ [a] := by
  obtain ⟨r, hpop, hr⟩ := exists_pop h
  have hroom : r.length < cap := by
    have hcap := length_le_cap q
    rw [h, List.length_cons, ← hr, length_toList] at hcap
    omega
  obtain ⟨s, hpush, hs⟩ := exists_push a hroom
  refine ⟨r, hpop, hr, ?_⟩
  rw [hpush, Option.getD_some, hs, hr]

theorem turn_found (p : α → Bool) (found : α) (front back : List α) (q : Fifo α cap)
    (h : q.toList = front ++ back) :
    (turn p front.length (some found) q).1 = some found ∧
      (turn p front.length (some found) q).2.toList = back ++ front := by
  induction front generalizing back q with
  | nil =>
    rw [List.nil_append] at h
    simp [turn, h]
  | cons a front ih =>
    rw [List.cons_append] at h
    obtain ⟨r, hpop, hr, hturned⟩ := exists_pop_push h
    have hstep : turn p (a :: front).length (some found) q
        = turn p front.length (some found) ((r.push a).getD r) := by
      simp [turn, hpop]
    rw [hstep]
    have hview : ((r.push a).getD r).toList = front ++ (back ++ [a]) := by
      rw [hturned, List.append_assoc]
    have hrest := ih (back ++ [a]) _ hview
    simpa using hrest

theorem turn_none (p : α → Bool) (front back : List α) (q : Fifo α cap)
    (h : q.toList = front ++ back) :
    (turn p front.length none q).1 = front.find? p ∧
      (turn p front.length none q).2.toList = back ++ front.eraseP p := by
  induction front generalizing back q with
  | nil =>
    rw [List.nil_append] at h
    simp [turn, h]
  | cons a front ih =>
    rw [List.cons_append] at h
    obtain ⟨r, hpop, hr, hturned⟩ := exists_pop_push h
    by_cases hp : p a = true
    · have hstep : turn p (a :: front).length none q = turn p front.length (some a) r := by
        simp [turn, hpop, hp]
      rw [hstep, List.find?_cons_of_pos hp, List.eraseP_cons_of_pos hp]
      exact turn_found p a front back r hr
    · have hstep : turn p (a :: front).length none q
          = turn p front.length none ((r.push a).getD r) := by
        simp [turn, hpop, hp]
      rw [hstep, List.find?_cons_of_neg hp, List.eraseP_cons_of_neg hp]
      have hview : ((r.push a).getD r).toList = front ++ (back ++ [a]) := by
        rw [hturned, List.append_assoc]
      have hrest := ih (back ++ [a]) _ hview
      simpa using hrest

/-- What is taken out is the first item that satisfies the condition. -/
theorem takeFirst_fst (q : Fifo α cap) (p : α → Bool) :
    (q.takeFirst p).1 = q.toList.find? p := by
  have h := turn_none p q.toList [] q (List.append_nil _).symm
  rw [length_toList] at h
  exact h.1

/-- The queue loses that one occurrence and keeps the order of the others. -/
theorem toList_takeFirst (q : Fifo α cap) (p : α → Bool) :
    (q.takeFirst p).2.toList = q.toList.eraseP p := by
  have h := turn_none p q.toList [] q (List.append_nil _).symm
  rw [length_toList, List.nil_append] at h
  exact h.2

end Resumable.Fifo

namespace Resumable

/-! ### A queue with several owners -/

section Owners

variable {α : Type} {mine theirs : α → Bool}

/-- Taking the first item of one owner leaves the items of the others. -/
theorem filter_eraseP_other (h : ∀ a, mine a = true → theirs a = false) (items : List α) :
    (items.eraseP mine).filter theirs = items.filter theirs := by
  induction items with
  | nil => rfl
  | cons a items ih =>
    by_cases ha : mine a = true
    · have hother : ¬ theirs a = true := by simp [h a ha]
      rw [List.eraseP_cons_of_pos ha, List.filter_cons_of_neg hother]
    · rw [List.eraseP_cons_of_neg ha, List.filter_cons, List.filter_cons, ih]

/-- Taking the first item of an owner takes the head of its items. -/
theorem filter_eraseP_self (mine : α → Bool) (items : List α) :
    (items.eraseP mine).filter mine = (items.filter mine).tail := by
  induction items with
  | nil => rfl
  | cons a items ih =>
    by_cases ha : mine a = true
    · rw [List.eraseP_cons_of_pos ha, List.filter_cons_of_pos ha, List.tail_cons]
    · rw [List.eraseP_cons_of_neg ha, List.filter_cons_of_neg ha, List.filter_cons_of_neg ha, ih]

end Owners

end Resumable
