import Resumable.Plugin.Blink
import Resumable.Proofs.Isolation

/-!
# How far a reset comes

A reset empties the queue and makes the sessions ready one after the other, up to the first one
that the plugin refuses to prepare. When none is refused, every session is idle and waits for
nothing. Otherwise the sessions before the refused one are, the refused one is idle but keeps its
wait, and the sessions behind it are as they were.
-/

namespace Resumable

namespace Dispatcher

variable {σ π : Type} {n m : Nat} {d e : Dispatcher σ π n m} {i : Fin n}

/-- The session in a slot is idle and waits for nothing. -/
structure Cleared (i : Fin n) (d : Dispatcher σ π n m) : Prop where
  idle : (d.slot i).busy = false
  unwaiting : d.waits.record? (session i) = none

theorem SameFor.cleared (h : SameFor i d e) (hd : Cleared i d) : Cleared i e := by
  refine ⟨?_, h.record.trans hd.unwaiting⟩
  rw [h.slot]
  exact hd.idle

theorem Prepared.cleared (h : Prepared d i (.ok (), e)) : Cleared i e := by
  obtain ⟨state, hslot⟩ := h.slot
  refine ⟨by rw [hslot]; rfl, ?_⟩
  cases h with
  | ready => exact Wait.Table.record?_cancel d.waits (session i)

theorem Prepared.refused_session {fault : Fault} (h : Prepared d i (.error fault, e)) :
    (e.slot i).busy = false ∧ e.waits.record? (session i) = d.waits.record? (session i) := by
  obtain ⟨state, hslot⟩ := h.slot
  refine ⟨by rw [hslot]; rfl, ?_⟩
  cases h with
  | refused => rfl

/-! ### A series of preparations -/

theorem prepareSlots_ok (sessions : List (Fin n)) (d : Dispatcher σ π n m)
    (h : (d.prepareSlots sessions).value = (.ok (), e)) (hi : i ∈ sessions) : Cleared i e := by
  induction sessions generalizing d with
  | nil => cases hi
  | cons j rest ih =>
    have hprepared := prepared_prepareSlot d j
    rw [prepareSlots_cons] at h
    rcases hvalue : (d.prepareSlot j).value with ⟨ready, after⟩
    rw [hvalue] at h hprepared
    cases ready with
    | error fault => cases h
    | ok u =>
      change (after.prepareSlots rest).value = (.ok (), e) at h
      by_cases hrest : i ∈ rest
      · exact ih after h hrest
      · obtain rfl : i = j := (List.mem_cons.mp hi).resolve_right hrest
        have hlater := sameFor_prepareSlots_other rest after hrest
        rw [h] at hlater
        exact hlater.cleared hprepared.cleared

/-- What a refusal leaves: what was prepared before it, and everything behind it as it was. -/
theorem prepareSlots_error {fault : Fault} (sessions : List (Fin n)) (hnodup : sessions.Nodup)
    (d : Dispatcher σ π n m) (h : (d.prepareSlots sessions).value = (.error fault, e)) :
    ∃ first k rest, sessions = first ++ k :: rest ∧
      (∀ i ∈ first, Cleared i e) ∧
      ((e.slot k).busy = false ∧ e.waits.record? (session k) = d.waits.record? (session k)) ∧
      ∀ i ∈ rest, SameFor i d e := by
  induction sessions generalizing d with
  | nil => cases h
  | cons j rest ih =>
    obtain ⟨hj, hrest⟩ := List.nodup_cons.mp hnodup
    have hprepared := prepared_prepareSlot d j
    have hsame : ∀ i ∈ rest, SameFor i d (d.prepareSlot j).value.2 := by
      intro i hi
      exact sameFor_prepareSlot_other fun hij => hj (hij ▸ hi)
    rw [prepareSlots_cons] at h
    rcases hvalue : (d.prepareSlot j).value with ⟨ready, after⟩
    rw [hvalue] at h hprepared hsame
    cases ready with
    | error fault' =>
      obtain rfl : after = e := congrArg Prod.snd h
      exact ⟨[], j, rest, rfl, nofun, hprepared.refused_session, hsame⟩
    | ok u =>
      change (after.prepareSlots rest).value = (.error fault, e) at h
      obtain ⟨first, k, later, hsplit, hfirst, hrefused, hlater⟩ := ih hrest after h
      have hkept := sameFor_prepareSlots_other rest after hj
      rw [h] at hkept
      refine ⟨j :: first, k, later, by rw [hsplit]; rfl, ?_, ?_, ?_⟩
      · intro i hi
        rcases List.mem_cons.mp hi with rfl | hi
        · exact hkept.cleared hprepared.cleared
        · exact hfirst i hi
      · have hk := hsame k (by simp [hsplit])
        exact ⟨hrefused.1, hrefused.2.trans hk.record⟩
      · intro i hi
        exact (hsame i (by simp [hsplit, hi])).trans (hlater i hi)

end Dispatcher

/-! ### Reset -/

variable {σ π : Type} {n m : Nat}

theorem finRange_split {first rest : List (Fin n)} {k : Fin n}
    (h : List.finRange n = first ++ k :: rest) (i : Fin n) :
    (i < k → i ∈ first) ∧ (k < i → i ∈ rest) := by
  have hsorted := List.pairwise_lt_finRange n
  have hmem := List.mem_finRange i
  rw [h, List.pairwise_append, List.pairwise_cons] at hsorted
  rw [h, List.mem_append, List.mem_cons] at hmem
  obtain ⟨-, ⟨hbehind, -⟩, hbefore⟩ := hsorted
  rcases hmem with hi | rfl | hi
  · have hlt := hbefore i hi k List.mem_cons_self
    exact ⟨fun _ => hi, fun hki => absurd hki (Fin.lt_asymm hlt)⟩
  · exact ⟨fun hik => absurd hik (Fin.lt_irrefl i), fun hki => absurd hki (Fin.lt_irrefl i)⟩
  · have hlt := hbehind i hi
    exact ⟨fun hik => absurd hik (Fin.lt_asymm hlt), fun _ => hi⟩

/-- A reset empties the queue. It clears every session, or those before the one that the plugin
refused; that one is idle and keeps its wait, and the sessions behind it keep all they had. -/
theorem reset_clears_up_to_refusal (d : Dispatcher σ π n m) :
    let after := d.reset.value.2
    after.queue.toList = [] ∧
      match d.reset.value.1 with
      | .ok () => ∀ i, after.Cleared i
      | .error _ => ∃ refused : Fin n,
          (∀ i < refused, after.Cleared i) ∧
          (after.slot refused).busy = false ∧
          after.waits.record? (Dispatcher.session refused) =
            d.waits.record? (Dispatcher.session refused) ∧
          ∀ i, refused < i → after.slot i = d.slot i ∧
            after.waits.record? (Dispatcher.session i) =
              d.waits.record? (Dispatcher.session i) := by
  intro after
  refine ⟨Dispatcher.queue_reset d, ?_⟩
  rcases hvalue : d.reset.value with ⟨result, e⟩
  have hafter : after = e := congrArg Prod.snd hvalue
  rw [Dispatcher.reset_value] at hvalue
  rw [hafter]
  cases result with
  | ok u =>
    intro i
    exact Dispatcher.prepareSlots_ok _ _ hvalue (List.mem_finRange i)
  | error fault =>
    obtain ⟨first, k, rest, hsplit, hfirst, hrefused, hrest⟩ :=
      Dispatcher.prepareSlots_error _ (List.nodup_finRange n) _ hvalue
    refine ⟨k, ?_, hrefused.1, hrefused.2, ?_⟩
    · intro i hik
      exact hfirst i ((finRange_split hsplit i).1 hik)
    · intro i hki
      have hsame := hrest i ((finRange_split hsplit i).2 hki)
      exact ⟨hsame.slot, hsame.record⟩

/-- Blinks, but refuses one preparation: the one with this number, counted from zero over all. -/
def Blink.refusing (pin : PinId) (number : Nat) : Plugin (Progress Blink.Counters) Nat where
  name := "blink"
  blank := Progress.fresh
  initial := 0
  validate := .ok ()
  prepare made _ :=
    if made = number then return (.error (.configuration "refused"), made + 1, Progress.fresh)
    else return (.ok (), made + 1, Progress.fresh)
  handle call := Plugin.resumeRoutine (Blink.routine pin) call

/-- A reset that is refused at its first session leaves the second in flight, and both waits. -/
theorem refused_reset_leaves_sessions_in_flight :
    ∃ d : Dispatcher (Progress Blink.Counters) Nat 2 2,
      (Dispatcher.register (Blink.refusing 8 2) 2 Wait.Table.empty).value = .ok d ∧
      let x := (Device.mk 0 d).atEnd
        [.operate (.submit 0 [1, 5, 0]), .operate (.submit 1 [4, 5, 0]), .operate .tick]
      let reset := x.dispatcher.reset.value
      reset.1 = .error (.configuration "refused") ∧
        (reset.2.slot 1).busy = true ∧ (reset.2.waits.record? 0).isSome = true ∧
        (reset.2.waits.record? 1).isSome = true := by
  refine ⟨_, rfl, ?_⟩
  intro x reset
  exact ⟨rfl, by decide, by decide, by decide⟩

end Resumable
