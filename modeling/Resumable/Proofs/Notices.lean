import Mathlib.Data.List.Induction
import Resumable.Label
import Resumable.Wait

/-!
# What a session notices of its waits

The notices of a session are a list: its turns, the waits that it registers, the reports of ended
transfers with their answers, and that it is dropped. The list says at any point what the session
is suspended on (`standing`), and with it which notices may come next (`Due`). Where no other ones
come, signals are kept: a session comes past a wait for a transfer only if the end of that transfer
was reported to it since it registered this wait; a report is answered with yes exactly when the
session is suspended on a wait for that transfer; and after such a report the next turn of the
session runs the step behind the wait, unless the session is dropped before.
-/

namespace Resumable

/-! ### Notices -/

/-- What a session notices of its waits. -/
inductive Notice where
  /-- It was given a turn and had nothing to do. -/
  | idle
  /-- A call ran the first step of a command. -/
  | entered
  /-- A call found the wait unfinished. -/
  | held
  /-- A call found the wait over and ran the step from this point. -/
  | passed (point : ResumePoint)
  /-- A call registered a wait, and the session is to resume at this point. -/
  | armed (point : ResumePoint) (wait : Wait)
  /-- The end of a transfer was reported, with this answer. -/
  | signalled (transfer : Transfer) (heard : Bool)
  /-- The session was abandoned or reset. -/
  | dropped
deriving DecidableEq

def Notice.isPoll : Notice → Bool
  | .idle | .entered | .held | .passed _ => true
  | _ => false

/-- Whether a suspended session is still suspended on the same wait afterwards. -/
def Notice.keeps : Notice → Bool
  | .held | .signalled _ _ => true
  | _ => false

/-- Of the notices of a session: where the last registered wait is neither passed nor dropped, the
session is suspended on it. -/
structure SignalsKept (notices : List Notice) : Prop where
  passed : ∀ before point after, notices = before ++ .passed point :: after →
    ∃ earlier wait since, before = earlier ++ .armed point wait :: since ∧
      (∀ e ∈ since, e.keeps = true) ∧
      ∀ transfer, wait = .transfer transfer → .signalled transfer true ∈ since
  answered : ∀ before transfer heard after,
    notices = before ++ .signalled transfer heard :: after →
    (heard = true ↔ ∃ earlier point since,
      before = earlier ++ .armed point (.transfer transfer) :: since ∧
        ∀ e ∈ since, e.keeps = true)
  heeded : ∀ before transfer between e after,
    notices = before ++ .signalled transfer true :: (between ++ e :: after) →
    (∀ e' ∈ between, e'.isPoll = false ∧ e' ≠ .dropped) → e.isPoll = true →
    ∃ earlier point since, before = earlier ++ .armed point (.transfer transfer) :: since ∧
      (∀ e' ∈ since, e'.keeps = true) ∧ e = .passed point

/-! ### What a session is suspended on -/

structure Hold where
  point : ResumePoint
  wait : Wait
  since : List Notice

def Hold.after (standing : Option Hold) : Notice → Option Hold
  | .armed point wait => some ⟨point, wait, []⟩
  | e => if e.keeps then standing.map fun hold => { hold with since := hold.since ++ [e] } else none

def standing (notices : List Notice) : Option Hold := notices.foldl Hold.after none

theorem standing_concat (notices : List Notice) (e : Notice) :
    standing (notices ++ [e]) = Hold.after (standing notices) e := by
  rw [standing, List.foldl_append]
  rfl

theorem Hold.after_of_keeps (standing : Option Hold) {e : Notice} (h : e.keeps = true) :
    Hold.after standing e = standing.map fun hold => { hold with since := hold.since ++ [e] } := by
  unfold Hold.after
  split
  · cases h
  · rw [if_pos h]

theorem Hold.after_cases {standing : Option Hold} {e : Notice} {hold : Hold}
    (h : Hold.after standing e = some hold) :
    e = .armed hold.point hold.wait ∧ hold.since = [] ∨
      ∃ since, standing = some { hold with since } ∧ e.keeps = true ∧
        hold.since = since ++ [e] := by
  unfold Hold.after at h
  split at h
  · cases h
    exact .inl ⟨rfl, rfl⟩
  · split at h
    case isTrue hkeeps =>
      obtain ⟨hold', hstanding, rfl⟩ := Option.map_eq_some_iff.mp h
      exact .inr ⟨hold'.since, hstanding, hkeeps, rfl⟩
    case isFalse => cases h

theorem armed_of_standing (notices : List Notice) {hold : Hold}
    (h : standing notices = some hold) :
    ∃ earlier, notices = earlier ++ .armed hold.point hold.wait :: hold.since ∧
      ∀ e ∈ hold.since, e.keeps = true := by
  induction notices using List.reverseRecOn generalizing hold with
  | nil => cases h
  | append_singleton notices e ih =>
    rw [standing_concat] at h
    rcases Hold.after_cases h with ⟨rfl, hsince⟩ | ⟨since, hbefore, hkeeps, hsince⟩
    · rw [hsince]
      exact ⟨notices, rfl, nofun⟩
    · obtain ⟨earlier, hnotices, hall⟩ := ih hbefore
      refine ⟨earlier, by simp [hnotices, hsince], ?_⟩
      intro e' he'
      rw [hsince, List.mem_append, List.mem_singleton] at he'
      rcases he' with he' | rfl
      · exact hall e' he'
      · exact hkeeps

theorem standing_of_armed (earlier since : List Notice) (point : ResumePoint) (wait : Wait)
    (h : ∀ e ∈ since, e.keeps = true) :
    standing (earlier ++ .armed point wait :: since) = some ⟨point, wait, since⟩ := by
  induction since using List.reverseRecOn with
  | nil =>
    rw [standing_concat]
    rfl
  | append_singleton since e ih =>
    have hbefore := ih fun e' he' => h e' (List.mem_append_left [e] he')
    have hlast := Hold.after_of_keeps (some ⟨point, wait, since⟩) (h e (by simp))
    have hsplit : earlier ++ .armed point wait :: (since ++ [e]) =
        (earlier ++ .armed point wait :: since) ++ [e] := by simp
    rw [hsplit, standing_concat, hbefore, hlast]
    rfl

/-! ### Which notice may come next -/

inductive Due : Option Hold → Notice → Prop
  | idle : Due none .idle
  | entered : Due none .entered
  | armed (point : ResumePoint) (wait : Wait) : Due none (.armed point wait)
  | unheard (transfer : Transfer) : Due none (.signalled transfer false)
  | held {hold : Hold} (h : ∀ transfer, .signalled transfer true ∉ hold.since) :
      Due (some hold) .held
  | passed {hold : Hold}
      (h : ∀ transfer, hold.wait = .transfer transfer → .signalled transfer true ∈ hold.since) :
      Due (some hold) (.passed hold.point)
  | signalled {hold : Hold} {transfer : Transfer} {heard : Bool}
      (h : heard = true ↔ hold.wait = .transfer transfer) :
      Due (some hold) (.signalled transfer heard)
  | dropped (hold : Option Hold) : Due hold .dropped

def Orderly (hold : Option Hold) : List Notice → Prop
  | [] => True
  | e :: rest => Due hold e ∧ Orderly (Hold.after hold e) rest

theorem orderly_append (first second : List Notice) (hold : Option Hold) :
    Orderly hold (first ++ second) ↔
      Orderly hold first ∧ Orderly (first.foldl Hold.after hold) second := by
  induction first generalizing hold with
  | nil => exact ⟨fun h => ⟨trivial, h⟩, fun h => h.2⟩
  | cons e rest ih =>
    change Due hold e ∧ Orderly (Hold.after hold e) (rest ++ second) ↔ _
    rw [ih]
    exact and_assoc.symm

theorem Orderly.due {before after : List Notice} {e : Notice}
    (h : Orderly none (before ++ e :: after)) : Due (standing before) e :=
  ((orderly_append before (e :: after) none).mp h).2.1

/-- A notice that only a suspended session can have comes behind the wait it is suspended on. -/
theorem Orderly.armed {before after : List Notice} {e : Notice}
    (h : Orderly none (before ++ e :: after)) (he : ¬ Due none e) :
    ∃ earlier hold, standing before = some hold ∧ Due (some hold) e ∧
      before = earlier ++ .armed hold.point hold.wait :: hold.since ∧
      ∀ e' ∈ hold.since, e'.keeps = true := by
  have hdue := h.due
  cases hstanding : standing before with
  | none =>
    rw [hstanding] at hdue
    exact absurd hdue he
  | some hold =>
    rw [hstanding] at hdue
    obtain ⟨earlier, hbefore, hkeeps⟩ := armed_of_standing before hstanding
    exact ⟨earlier, hold, rfl, hdue, hbefore, hkeeps⟩

/-- Until the next turn of the session, a signal that was heard is kept. -/
theorem Orderly.heard {hold : Hold} (transfer : Transfer) (between : List Notice)
    (h : Orderly (some hold) between) (hheard : .signalled transfer true ∈ hold.since)
    (hbetween : ∀ e ∈ between, e.isPoll = false ∧ e ≠ .dropped) :
    ∃ since, between.foldl Hold.after (some hold) = some { hold with since } ∧
      .signalled transfer true ∈ since := by
  induction between generalizing hold with
  | nil => exact ⟨hold.since, rfl, hheard⟩
  | cons e rest ih =>
    obtain ⟨hdue, hrest⟩ := h
    obtain ⟨hpoll, hdropped⟩ := hbetween e List.mem_cons_self
    have hlater : ∀ e' ∈ rest, e'.isPoll = false ∧ e' ≠ .dropped := by
      intro e' he'
      exact hbetween e' (List.mem_cons_of_mem e he')
    cases hdue with
    | held => cases hpoll
    | passed => cases hpoll
    | dropped => exact absurd rfl hdropped
    | signalled =>
      change Orderly (some { hold with since := hold.since ++ [_] }) rest at hrest
      exact ih hrest (List.mem_append_left _ hheard) hlater

theorem signalsKept_of_orderly {notices : List Notice} (h : Orderly none notices) :
    SignalsKept notices where
  passed before point after hnotices := by
    rw [hnotices] at h
    obtain ⟨earlier, hold, -, hdue, hbefore, hkeeps⟩ := h.armed nofun
    cases hdue with
    | passed hheard => exact ⟨earlier, hold.wait, hold.since, hbefore, hkeeps, hheard⟩
  answered before transfer heard after hnotices := by
    rw [hnotices] at h
    constructor
    · rintro rfl
      obtain ⟨earlier, hold, -, hdue, hbefore, hkeeps⟩ := h.armed nofun
      cases hdue with
      | signalled hwait =>
        rw [hwait.mp rfl] at hbefore
        exact ⟨earlier, hold.point, hold.since, hbefore, hkeeps⟩
    · rintro ⟨earlier, point, since, rfl, hkeeps⟩
      have hdue := h.due
      rw [standing_of_armed earlier since point _ hkeeps] at hdue
      cases hdue with
      | signalled hwait => exact hwait.mpr rfl
  heeded before transfer between e after hnotices hbetween hpoll := by
    rw [hnotices] at h
    obtain ⟨earlier, hold, hstanding, hdue, hbefore, hkeeps⟩ := h.armed nofun
    obtain ⟨-, -, hrest⟩ := (orderly_append before _ none).mp h
    change Orderly (Hold.after (standing before) _) (between ++ e :: after) at hrest
    rw [hstanding] at hrest
    obtain ⟨hfirst, hnext, -⟩ := (orderly_append between _ _).mp hrest
    obtain ⟨since, hlater, hheard⟩ := Orderly.heard transfer between hfirst
      (List.mem_append_right _ (List.mem_singleton.mpr rfl)) hbetween
    change Due (between.foldl Hold.after (some _)) e at hnext
    rw [hlater] at hnext
    cases hdue with
    | signalled hwait =>
      rw [hwait.mp rfl] at hbefore
      cases hnext with
      | held hunheard => exact absurd hheard (hunheard transfer)
      | passed => exact ⟨earlier, hold.point, hold.since, hbefore, hkeeps, rfl⟩
      | signalled => cases hpoll
      | dropped => cases hpoll

end Resumable
