import Resumable.Proofs.Waits

/-!
# The table of waits against its history

A table keeps one record for each context, and a record is replaced, marked, removed when it is
found satisfied, or cancelled. What the table answers can still be read off the plain list of what
was asked of it: for each context the last time that it was armed or cancelled, and what was asked
since. A check that removes a record changes no later answer, because the clock does not go back.
-/

namespace Resumable.Wait

/-! ### Histories -/

/-- What can be asked of a table. -/
inductive Ask where
  | arm (cx : Context) (wait : Wait)
  | cancel (cx : Context)
  | signal (cx : Context) (ended : Transfer)
  | check (cx : Context)
deriving DecidableEq

namespace Ask

def context : Ask → Context
  | .arm cx _ | .cancel cx | .signal cx _ | .check cx => cx

/-- Whether this arms or cancels the context. -/
def sets (cx : Context) : Ask → Bool
  | .arm other _ | .cancel other => other == cx
  | .signal _ _ | .check _ => false

/-- Whether this arms, cancels or signals the context. -/
def concerns (cx : Context) : Ask → Bool
  | .arm other _ | .cancel other | .signal other _ => other == cx
  | .check _ => false

end Ask

/-- Something asked of a table, and the instant of it. -/
structure Asked where
  now : Instant
  ask : Ask
deriving DecidableEq

/-- This is the last of the history that arms or cancels the context, with all that was asked
since. -/
def LastSet (cx : Context) (history : List Asked) (e : Asked) (since : List Asked) : Prop :=
  e.ask.sets cx = true ∧ (∀ u ∈ since, u.ask.sets cx = false) ∧
    ∃ earlier, history = earlier ++ e :: since

theorem exists_lastSet (cx : Context) (history : List Asked) :
    (∀ e ∈ history, e.ask.sets cx = false) ∨ ∃ e since, LastSet cx history e since := by
  induction history with
  | nil => exact .inl nofun
  | cons e history ih =>
    rcases ih with hnone | ⟨last, since, hset, hsince, earlier, rfl⟩
    · cases he : e.ask.sets cx with
      | false => exact .inl (List.forall_mem_cons.mpr ⟨he, hnone⟩)
      | true => exact .inr ⟨e, history, he, hnone, [], rfl⟩
    · exact .inr ⟨last, since, hset, hsince, e :: earlier, rfl⟩

namespace Table

variable {m : Nat} {t : Table m} {cx : Context} {e : Asked} {since : List Asked}

def serve (t : Table m) (e : Asked) : Table m :=
  match e.ask with
  | .arm cx wait => t.arm e.now cx wait
  | .cancel cx => t.cancel cx
  | .signal cx ended => (t.signal cx ended).2
  | .check cx => (t.check e.now cx).2

def after (t : Table m) (history : List Asked) : Table m := history.foldl serve t

theorem after_append (t : Table m) (first second : List Asked) :
    t.after (first ++ second) = (t.after first).after second :=
  List.foldl_append

theorem after_cons (t : Table m) (e : Asked) (rest : List Asked) :
    t.after (e :: rest) = (t.serve e).after rest := rfl

/-! ### One context under one question -/

theorem cell?_check_other (t : Table m) (now : Instant) {k : Nat} (h : k ≠ cx.toNat) :
    (t.check now cx).2.cell? k = t.cell? k := by
  unfold check
  split
  · rfl
  · exact cell?_update_other t none h

theorem check_fst (t : Table m) (now : Instant) (cx : Context) :
    (t.check now cx).1 = t.isWaiting now cx := by
  cases h : t.isWaiting now cx with
  | true => rw [check_of_waiting h]
  | false => rw [check_of_over h]

theorem record?_check (t : Table m) (now : Instant) (cx : Context) :
    (t.check now cx).2.record? cx = (t.record? cx).filter (Record.isPending now) := by
  unfold check isWaiting
  cases hr : t.record? cx with
  | none => simp
  | some r => cases hp : r.isPending now <;> simp [hr, hp, Option.filter]

theorem cell?_serve_other (t : Table m) (e : Asked) {k : Nat} (h : k ≠ e.ask.context.toNat) :
    (t.serve e).cell? k = t.cell? k := by
  unfold serve
  cases hask : e.ask with
  | arm other wait => rw [hask] at h; exact cell?_update_other t _ h
  | cancel other => rw [hask] at h; exact cell?_update_other t _ h
  | signal other ended => rw [hask] at h; exact cell?_signal_other t ended h
  | check other => rw [hask] at h; exact cell?_check_other t e.now h

theorem record?_serve_other (t : Table m) (e : Asked) (h : e.ask.context ≠ cx) :
    (t.serve e).record? cx = t.record? cx :=
  cell?_serve_other t e fun heq => h (UInt8.toNat_inj.mp heq).symm

/-- A cell that holds a record is the cell of a context. -/
theorem exists_context_of_cell? {history : List Asked} {k : Nat} {r : Record}
    (h : ((empty : Table m).after history).cell? k = some r) : ∃ cx : Context, cx.toNat = k := by
  by_cases hcx : ∃ cx : Context, cx.toNat = k
  · exact hcx
  · have hkept : ∀ t : Table m, (t.after history).cell? k = t.cell? k := by
      clear h
      induction history with
      | nil => exact fun _ => rfl
      | cons e history ih =>
        intro t
        have hne : k ≠ e.ask.context.toNat := fun hk => hcx ⟨_, hk.symm⟩
        rw [after_cons, ih, cell?_serve_other t e hne]
    rw [hkept, cell?_empty] at h
    cases h

/-! ### One context between two times that it is set -/

/-- What signals to a context and checks of it keep of its record is kept by a history in which it
is neither armed nor cancelled. -/
theorem after_keeps {P : Option Record → Prop} (hsince : ∀ u ∈ since, u.ask.sets cx = false)
    (hsignal : ∀ now ended, ⟨now, .signal cx ended⟩ ∈ since → ∀ r, P r →
      P (r.map (Record.signalled ended)))
    (hcheck : ∀ now, ⟨now, .check cx⟩ ∈ since → ∀ r, P r → P (r.filter (Record.isPending now)))
    (h : P (t.record? cx)) : P ((t.after since).record? cx) := by
  induction since generalizing t with
  | nil => exact h
  | cons e since ih =>
    have hstep : P ((t.serve e).record? cx) := by
      by_cases hcx : e.ask.context = cx
      · obtain ⟨now, ask⟩ := e
        have hset := hsince _ List.mem_cons_self
        cases ask with
        | arm other wait => simp [Ask.sets, show other = cx from hcx] at hset
        | cancel other => simp [Ask.sets, show other = cx from hcx] at hset
        | signal other ended =>
          obtain rfl : other = cx := hcx
          have hkept := hsignal now ended List.mem_cons_self _ h
          rw [← record?_signal] at hkept
          exact hkept
        | check other =>
          obtain rfl : other = cx := hcx
          have hkept := hcheck now List.mem_cons_self _ h
          rw [← record?_check] at hkept
          exact hkept
      · rw [record?_serve_other t e hcx]
        exact h
    exact ih (fun u hu => hsince u (List.mem_cons_of_mem e hu))
      (fun now ended hmem => hsignal now ended (List.mem_cons_of_mem e hmem))
      (fun now hmem => hcheck now (List.mem_cons_of_mem e hmem)) hstep

theorem after_none (hsince : ∀ u ∈ since, u.ask.sets cx = false) (h : t.record? cx = none) :
    (t.after since).record? cx = none := by
  refine after_keeps (P := (· = none)) hsince ?_ ?_ h
  · rintro now ended - r rfl
    rfl
  · rintro now - r rfl
    rfl

variable {deadline : Instant} {x : Transfer}

theorem after_deadline (hsince : ∀ u ∈ since, u.ask.sets cx = false)
    (hchecks : ∀ now, ⟨now, .check cx⟩ ∈ since → now < deadline)
    (h : t.record? cx = some (.deadline deadline)) :
    (t.after since).record? cx = some (.deadline deadline) := by
  refine after_keeps (P := (· = some (.deadline deadline))) hsince ?_ ?_ h
  · rintro now ended - r rfl
    rfl
  · rintro now hmem r rfl
    simp [Option.filter, Record.isPending, hchecks now hmem]

theorem after_deadline_seen {now : Instant} (hsince : ∀ u ∈ since, u.ask.sets cx = false)
    (hmem : ⟨now, .check cx⟩ ∈ since) (hover : ¬ now < deadline)
    (h : t.record? cx = some (.deadline deadline)) : (t.after since).record? cx = none := by
  obtain ⟨first, rest, rfl⟩ := List.append_of_mem hmem
  have hbefore : (t.after first).record? cx = none ∨
      (t.after first).record? cx = some (.deadline deadline) := by
    refine after_keeps (P := fun r => r = none ∨ r = some (.deadline deadline))
      (fun u hu => hsince u (List.mem_append_left _ hu)) ?_ ?_ (.inr h)
    · rintro now ended - r (rfl | rfl)
      · exact .inl rfl
      · exact .inr rfl
    · rintro now - r (rfl | rfl)
      · exact .inl rfl
      · by_cases hlt : now < deadline <;> simp [Option.filter, Record.isPending, hlt]
  rw [after_append, after_cons]
  refine after_none (fun u hu => hsince u (by simp [hu])) ?_
  change ((t.after first).check now cx).2.record? cx = none
  rw [record?_check]
  rcases hbefore with hbefore | hbefore
  · simp [hbefore]
  · simp [hbefore, Option.filter, Record.isPending, hover]

theorem after_awaiting (hsince : ∀ u ∈ since, u.ask.sets cx = false)
    (hsignals : ∀ now, ⟨now, .signal cx x⟩ ∉ since)
    (h : t.record? cx = some (.transfer x false)) :
    (t.after since).record? cx = some (.transfer x false) := by
  refine after_keeps (P := (· = some (.transfer x false))) hsince ?_ ?_ h
  · rintro now ended hmem r rfl
    have hne : x ≠ ended := by
      rintro rfl
      exact hsignals now hmem
    simp [Record.signalled, hne]
  · rintro now - r rfl
    rfl

theorem after_signalled {now : Instant} (hsince : ∀ u ∈ since, u.ask.sets cx = false)
    (hmem : ⟨now, .signal cx x⟩ ∈ since) (h : t.record? cx = some (.transfer x false)) :
    (t.after since).record? cx = none ∨ (t.after since).record? cx = some (.transfer x true) := by
  obtain ⟨first, rest, rfl⟩ := List.append_of_mem hmem
  have hbefore : (t.after first).record? cx = none ∨
      ∃ done, (t.after first).record? cx = some (.transfer x done) := by
    refine after_keeps (P := fun r => r = none ∨ ∃ done, r = some (.transfer x done))
      (fun u hu => hsince u (List.mem_append_left _ hu)) ?_ ?_ (.inr ⟨false, h⟩)
    · rintro now ended - r (rfl | ⟨done, rfl⟩)
      · exact .inl rfl
      · exact .inr ⟨_, rfl⟩
    · rintro now - r (rfl | ⟨done, rfl⟩)
      · exact .inl rfl
      · cases done <;> simp [Option.filter, Record.isPending]
  rw [after_append, after_cons]
  refine after_keeps (P := fun r => r = none ∨ r = some (.transfer x true))
    (fun u hu => hsince u (by simp [hu])) ?_ ?_ ?_
  · rintro now ended - r (rfl | rfl)
    · exact .inl rfl
    · exact .inr rfl
  · rintro now - r (rfl | rfl)
    · exact .inl rfl
    · exact .inl rfl
  · change ((t.after first).signal cx x).2.record? cx = none ∨
      ((t.after first).signal cx x).2.record? cx = some (.transfer x true)
    rw [record?_signal]
    rcases hbefore with hbefore | ⟨done, hbefore⟩
    · simp [hbefore]
    · simp [hbefore, Record.signalled]

/-! ### One context under a whole history -/

variable {history : List Asked} {start now : Instant}

theorem after_of_armed {wait : Wait} (hcx : cx.toNat < m)
    (h : LastSet cx history ⟨start, .arm cx wait⟩ since) :
    ∃ t : Table m, (empty : Table m).after history = t.after since ∧
      t.record? cx = some (Record.start start wait) := by
  obtain ⟨-, -, earlier, rfl⟩ := h
  refine ⟨(empty.after earlier).arm start cx wait, ?_, record?_arm _ start wait hcx⟩
  rw [after_append, after_cons]
  rfl

theorem record?_of_cancelled (h : LastSet cx history ⟨start, .cancel cx⟩ since) :
    ((empty : Table m).after history).record? cx = none := by
  obtain ⟨-, hsince, earlier, rfl⟩ := h
  rw [after_append, after_cons]
  exact after_none hsince (record?_cancel _ cx)

/-- A context that holds a record was armed when it was last set. -/
theorem exists_armed {r : Record} (h : ((empty : Table m).after history).record? cx = some r) :
    ∃ start wait since, LastSet cx history ⟨start, .arm cx wait⟩ since := by
  rcases exists_lastSet cx history with hnone | ⟨⟨start, ask⟩, since, hlast⟩
  · rw [after_none hnone (record?_empty cx)] at h
    cases h
  · have hset := hlast.1
    cases ask with
    | arm other wait =>
      obtain rfl : other = cx := by simpa [Ask.sets] using hset
      exact ⟨start, wait, since, hlast⟩
    | cancel other =>
      obtain rfl : other = cx := by simpa [Ask.sets] using hset
      rw [record?_of_cancelled hlast] at h
      cases h
    | signal other ended => cases hset
    | check other => cases hset

/-- The record of a timeout stands until a check finds it over. -/
theorem record?_eq_deadline_iff {length : Duration} (hcx : cx.toNat < m)
    (h : LastSet cx history ⟨start, .arm cx (.timeout length)⟩ since) (r : Record) :
    ((empty : Table m).after history).record? cx = some r ↔
      r = .deadline (start.deadline length) ∧
        ∀ now, ⟨now, .check cx⟩ ∈ since → now < start.deadline length := by
  obtain ⟨t, hafter, hrecord⟩ := after_of_armed hcx h
  change t.record? cx = some (.deadline (start.deadline length)) at hrecord
  rw [hafter]
  by_cases hchecks : ∀ now, ⟨now, .check cx⟩ ∈ since → now < start.deadline length
  · rw [after_deadline h.2.1 hchecks hrecord, Option.some.injEq]
    exact ⟨fun hr => ⟨hr.symm, hchecks⟩, fun hr => hr.1.symm⟩
  · obtain ⟨now, hmem, hover⟩ :
        ∃ now, ⟨now, .check cx⟩ ∈ since ∧ ¬ now < start.deadline length := by
      simpa using hchecks
    rw [after_deadline_seen h.2.1 hmem hover hrecord]
    exact ⟨nofun, fun hr => absurd hr.2 hchecks⟩

theorem record?_ne_deadline (hcx : cx.toNat < m)
    (h : LastSet cx history ⟨start, .arm cx (.transfer x)⟩ since) (deadline : Instant) :
    ((empty : Table m).after history).record? cx ≠ some (.deadline deadline) := by
  obtain ⟨t, hafter, hrecord⟩ := after_of_armed hcx h
  rw [hafter]
  refine after_keeps (P := (· ≠ some (.deadline deadline))) h.2.1 ?_ ?_ ?_
  · rintro now ended - (_ | _ | ⟨awaited, done⟩) hr
    · exact hr
    · exact hr
    · simp [Record.signalled]
  · intro now _ r hr hfilter
    exact hr (Option.filter_eq_some_iff.mp hfilter).1
  · rw [hrecord]
    simp [Record.start]

/-- A wait for a transfer is pending until the transfer is signalled to it. -/
theorem isWaiting_transfer_iff (hcx : cx.toNat < m)
    (h : LastSet cx history ⟨start, .arm cx (.transfer x)⟩ since) (now : Instant) :
    ((empty : Table m).after history).isWaiting now cx = true ↔
      ∀ u ∈ since, u.ask ≠ .signal cx x := by
  obtain ⟨t, hafter, hrecord⟩ := after_of_armed hcx h
  change t.record? cx = some (.transfer x false) at hrecord
  rw [hafter, isWaiting]
  by_cases hsignals : ∀ u ∈ since, u.ask ≠ .signal cx x
  · have hunheard : ∀ now, (⟨now, .signal cx x⟩ : Asked) ∉ since :=
      fun now hmem => hsignals _ hmem rfl
    rw [after_awaiting h.2.1 hunheard hrecord]
    exact iff_of_true rfl hsignals
  · obtain ⟨⟨signalledAt, ask⟩, hmem, rfl⟩ : ∃ u ∈ since, u.ask = .signal cx x := by
      simpa using hsignals
    refine iff_of_false ?_ hsignals
    rcases after_signalled h.2.1 hmem hrecord with hr | hr
    · simp [hr]
    · simp [hr, Record.isPending]

/-- A wait for a length of time is pending before its deadline, whether or not it was checked. -/
theorem isWaiting_timeout_iff {length : Duration} (hcx : cx.toNat < m)
    (hclock : ∀ u ∈ history, u.now ≤ now)
    (h : LastSet cx history ⟨start, .arm cx (.timeout length)⟩ since) :
    ((empty : Table m).after history).isWaiting now cx = true ↔ now < start.deadline length := by
  have hrecord := record?_eq_deadline_iff hcx h
  unfold isWaiting
  constructor
  · intro hwaits
    cases hr : ((empty : Table m).after history).record? cx with
    | none => simp [hr] at hwaits
    | some r =>
      obtain ⟨rfl, -⟩ := (hrecord r).mp hr
      simpa [hr, Record.isPending] using hwaits
  · intro hlt
    have hstands : ∀ seen, ⟨seen, .check cx⟩ ∈ since → seen < start.deadline length := by
      intro seen hmem
      -- Nothing was asked later than now, so no check can have found the wait over.
      obtain ⟨-, -, earlier, rfl⟩ := h
      have hseen : seen ≤ now := hclock ⟨seen, .check cx⟩ (by simp [hmem])
      exact UInt64.lt_of_le_of_lt hseen hlt
    rw [(hrecord _).mpr ⟨rfl, hstands⟩]
    simpa [Record.isPending] using hlt

end Table

/-! ### What a history says -/

/-- The context was last armed with a timeout, due at this tick, and this was asked since. -/
def Due (cx : Context) (history : List Asked) (tick : Nat) (since : List Asked) : Prop :=
  ∃ start length, LastSet cx history ⟨start, .arm cx (.timeout length)⟩ since ∧
    tick = min (start.toNat + length.toNat) (UInt64.size - 1)

/-- The context was last armed with a wait for this transfer, and this was asked since. -/
def Awaiting (cx : Context) (history : List Asked) (x : Transfer) (since : List Asked) : Prop :=
  ∃ start, LastSet cx history ⟨start, .arm cx (.transfer x)⟩ since

/-- By its history, a context of a table of `m` waits at `now`. -/
def Waits (m : Nat) (history : List Asked) (now : Instant) (cx : Context) : Prop :=
  cx.toNat < m ∧
    ((∃ tick since, Due cx history tick since ∧ now.toNat < tick) ∨
      ∃ x since, Awaiting cx history x since ∧ ∀ u ∈ since, u.ask ≠ .signal cx x)

/-- By its history, a table of `m` has a timeout due at this tick that no check has found over. -/
def Outstanding (m : Nat) (history : List Asked) (tick : Nat) : Prop :=
  ∃ cx since, cx.toNat < m ∧ Due cx history tick since ∧
    ∀ u ∈ since, u.ask = .check cx → u.now.toNat < tick

variable {m : Nat} {history other since : List Asked} {now : Instant} {cx : Context} {e : Asked}

theorem due_of_armed {start : Instant} {length : Duration}
    (h : LastSet cx history ⟨start, .arm cx (.timeout length)⟩ since) :
    Due cx history (start.deadline length).toNat since :=
  ⟨start, length, h, start.toNat_deadline length⟩

theorem Due.exists_armed {tick : Nat} (h : Due cx history tick since) :
    ∃ start length, LastSet cx history ⟨start, .arm cx (.timeout length)⟩ since ∧
      tick = (start.deadline length).toNat := by
  obtain ⟨start, length, hlast, htick⟩ := h
  exact ⟨start, length, hlast, htick.trans (start.toNat_deadline length).symm⟩

theorem isWaiting_iff (hclock : ∀ u ∈ history, u.now ≤ now) :
    ((Table.empty : Table m).after history).isWaiting now cx = true ↔ Waits m history now cx := by
  constructor
  · intro hwaits
    obtain ⟨r, hr⟩ := Option.isSome_iff_exists.mp (Table.isSome_of_waiting hwaits)
    have hcx := Table.lt_of_record? hr
    obtain ⟨start, wait, since, hlast⟩ := Table.exists_armed hr
    refine ⟨hcx, ?_⟩
    cases wait with
    | timeout length =>
      have hlt := (Table.isWaiting_timeout_iff hcx hclock hlast).mp hwaits
      exact .inl ⟨_, since, due_of_armed hlast, UInt64.lt_iff_toNat_lt.mp hlt⟩
    | transfer x =>
      have hunheard := (Table.isWaiting_transfer_iff hcx hlast now).mp hwaits
      exact .inr ⟨x, since, ⟨start, hlast⟩, hunheard⟩
  · rintro ⟨hcx, ⟨tick, since, hdue, hlt⟩ | ⟨x, since, ⟨start, hlast⟩, hunheard⟩⟩
    · obtain ⟨start, length, hlast, rfl⟩ := hdue.exists_armed
      exact (Table.isWaiting_timeout_iff hcx hclock hlast).mpr (UInt64.lt_iff_toNat_lt.mpr hlt)
    · exact (Table.isWaiting_transfer_iff hcx hlast now).mpr hunheard

/-! ### Histories that agree on one context -/

theorem Ask.concerns_of_sets {a : Ask} (h : a.sets cx = true) : a.concerns cx = true := by
  cases a with
  | arm other wait => exact h
  | cancel other => exact h
  | signal other ended => cases h
  | check other => cases h

/-- The last time that a context was set is the same in a history that agrees on it. -/
theorem LastSet.of_filter (h : LastSet cx history e since)
    (hsame : other.filter (·.ask.concerns cx) = history.filter (·.ask.concerns cx)) :
    ∃ after, LastSet cx other e after ∧
      after.filter (·.ask.concerns cx) = since.filter (·.ask.concerns cx) := by
  obtain ⟨hset, hsince, earlier, rfl⟩ := h
  have hconcerns : e.ask.concerns cx = true := Ask.concerns_of_sets hset
  rw [List.filter_append, List.filter_cons, if_pos hconcerns] at hsame
  obtain ⟨first, rest, rfl, -, hrest⟩ := List.filter_eq_append_iff.mp hsame
  obtain ⟨skipped, after, rfl, -, -, hafter⟩ := List.filter_eq_cons_iff.mp hrest
  refine ⟨after, ⟨hset, ?_, first ++ skipped, by simp⟩, hafter⟩
  intro u hu
  cases hsets : u.ask.sets cx with
  | false => rfl
  | true =>
    have hmem : u ∈ after.filter (·.ask.concerns cx) :=
      List.mem_filter.mpr ⟨hu, Ask.concerns_of_sets hsets⟩
    rw [hafter] at hmem
    rw [← hsets, hsince u (List.mem_filter.mp hmem).1]

theorem Waits.of_filter (h : Waits m history now cx)
    (hsame : other.filter (·.ask.concerns cx) = history.filter (·.ask.concerns cx)) :
    Waits m other now cx := by
  obtain ⟨hcx, ⟨tick, since, ⟨start, length, hlast, htick⟩, hlt⟩ |
    ⟨x, since, ⟨start, hlast⟩, hunheard⟩⟩ := h
  · obtain ⟨after, hother, -⟩ := hlast.of_filter hsame
    exact ⟨hcx, .inl ⟨tick, after, ⟨start, length, hother, htick⟩, hlt⟩⟩
  · obtain ⟨after, hother, hafter⟩ := hlast.of_filter hsame
    refine ⟨hcx, .inr ⟨x, after, ⟨start, hother⟩, ?_⟩⟩
    intro u hu hsignal
    have hmem : u ∈ after.filter (·.ask.concerns cx) :=
      List.mem_filter.mpr ⟨hu, by simp [hsignal, Ask.concerns]⟩
    rw [hafter] at hmem
    exact hunheard u (List.mem_filter.mp hmem).1 hsignal

/-! ### Deadlines that no check has found over -/

/-- A deadline in a table is the record of a context that was last armed with a timeout. -/
theorem Table.exists_armed_of_deadline {k : Nat} {deadline : Instant}
    (h : ((Table.empty : Table m).after history).cell? k = some (.deadline deadline)) :
    ∃ cx : Context, cx.toNat = k ∧
      ∃ start length since, LastSet cx history ⟨start, .arm cx (.timeout length)⟩ since := by
  obtain ⟨cx, rfl⟩ := Table.exists_context_of_cell? h
  refine ⟨cx, rfl, ?_⟩
  obtain ⟨start, wait, since, hlast⟩ := Table.exists_armed h
  cases wait with
  | timeout length => exact ⟨start, length, since, hlast⟩
  | transfer x =>
    exact absurd h (Table.record?_ne_deadline (Table.lt_of_record? h) hlast deadline)

theorem mem_deadlines_iff (deadline : Instant) :
    deadline ∈ ((Table.empty : Table m).after history).records.toList.filterMap
      (Option.bind · Record.deadline?) ↔ Outstanding m history deadline.toNat := by
  rw [Table.mem_deadlines]
  constructor
  · rintro ⟨k, hcell⟩
    obtain ⟨cx, rfl, start, length, since, hlast⟩ := Table.exists_armed_of_deadline hcell
    have hcx := Table.lt_of_record? hcell
    obtain ⟨hdeadline, hstands⟩ := (Table.record?_eq_deadline_iff hcx hlast _).mp hcell
    cases hdeadline
    refine ⟨cx, since, hcx, due_of_armed hlast, ?_⟩
    rintro ⟨seen, ask⟩ hmem rfl
    exact UInt64.lt_iff_toNat_lt.mp (hstands seen hmem)
  · rintro ⟨cx, since, hcx, hdue, hstands⟩
    obtain ⟨start, length, hlast, htick⟩ := hdue.exists_armed
    obtain rfl := UInt64.toNat_inj.mp htick
    refine ⟨cx.toNat, (Table.record?_eq_deadline_iff hcx hlast _).mpr ⟨rfl, ?_⟩⟩
    exact fun seen hmem => UInt64.lt_iff_toNat_lt.mpr (hstands _ hmem rfl)

theorem Outstanding.exists_deadline {tick : Nat} (h : Outstanding m history tick) :
    ∃ deadline : Instant, tick = deadline.toNat := by
  obtain ⟨cx, since, -, hdue, -⟩ := h
  obtain ⟨start, length, -, htick⟩ := hdue.exists_armed
  exact ⟨_, htick⟩

theorem nextDeadline_eq_some_iff (deadline : Instant) :
    ((Table.empty : Table m).after history).nextDeadline = some deadline ↔
      Outstanding m history deadline.toNat ∧
        ∀ tick, Outstanding m history tick → deadline.toNat ≤ tick := by
  rw [Table.nextDeadline, List.min?_eq_some_iff, mem_deadlines_iff]
  refine and_congr_right fun _ => ⟨?_, ?_⟩
  · intro hleast tick hout
    obtain ⟨later, rfl⟩ := hout.exists_deadline
    exact UInt64.le_iff_toNat_le.mp (hleast later ((mem_deadlines_iff later).mpr hout))
  · intro hleast later hmem
    exact UInt64.le_iff_toNat_le.mpr (hleast _ ((mem_deadlines_iff later).mp hmem))

theorem nextDeadline_eq_none_iff :
    ((Table.empty : Table m).after history).nextDeadline = none ↔
      ∀ tick, ¬ Outstanding m history tick := by
  rw [Table.nextDeadline, List.min?_eq_none_iff, List.eq_nil_iff_forall_not_mem]
  constructor
  · intro hnone tick hout
    obtain ⟨deadline, rfl⟩ := hout.exists_deadline
    exact hnone deadline ((mem_deadlines_iff deadline).mpr hout)
  · intro hnone deadline hmem
    exact hnone _ ((mem_deadlines_iff deadline).mp hmem)

/-! ### Every history -/

/-- After any history that was asked by `now`, a table answers for each context by what the history
says of that context, whatever was checked and whatever else was asked. Its earliest deadline is
the least of the timeouts that no check has found over. -/
theorem answers_follow_history (m : Nat) (history : List Asked) (now : Instant)
    (hclock : ∀ u ∈ history, u.now ≤ now) :
    let table := (Table.empty : Table m).after history
    (∀ cx, (table.check now cx).1 = true ↔ Waits m history now cx) ∧
    (∀ cx other, (∀ u ∈ other, u.now ≤ now) →
      other.filter (·.ask.concerns cx) = history.filter (·.ask.concerns cx) →
      (((Table.empty : Table m).after other).check now cx).1 = (table.check now cx).1) ∧
    (∀ deadline, table.nextDeadline = some deadline ↔ Outstanding m history deadline.toNat ∧
      ∀ tick, Outstanding m history tick → deadline.toNat ≤ tick) ∧
    (table.nextDeadline = none ↔ ∀ tick, ¬ Outstanding m history tick) := by
  refine ⟨fun cx => ?_, fun cx other hother hsame => ?_, nextDeadline_eq_some_iff,
    nextDeadline_eq_none_iff⟩
  · rw [Table.check_fst]
    exact isWaiting_iff hclock
  · rw [Table.check_fst, Table.check_fst, Bool.eq_iff_iff, isWaiting_iff hother,
      isWaiting_iff hclock]
    exact ⟨fun h => h.of_filter hsame.symm, fun h => h.of_filter hsame⟩

/-- Two timeouts, of which one was found over, a transfer that was not the one signalled, and a
context past the end of the table. -/
theorem answers_follow_history_mixed :
    let history : List Asked := [⟨100, .arm 0 (.timeout 50)⟩, ⟨100, .arm 2 (.timeout 10)⟩,
      ⟨105, .arm 1 (.transfer .spiSend)⟩, ⟨110, .check 2⟩, ⟨115, .arm 9 (.timeout 1)⟩,
      ⟨120, .signal 1 .i2cSend⟩, ⟨130, .check 0⟩]
    let table := (Table.empty : Table 3).after history
    (∀ u ∈ history, u.now ≤ 149) ∧ (table.check 149 0).1 = true ∧ (table.check 149 1).1 = true ∧
      ¬ Waits 3 history 149 2 ∧
      (((Table.empty : Table 3).after [⟨100, .arm 0 (.timeout 50)⟩]).check 149 0).1 =
        (table.check 149 0).1 ∧
      Outstanding 3 history 150 ∧ ∀ tick, Outstanding 3 history tick → 150 ≤ tick := by
  intro history table
  have hclock : ∀ u ∈ history, u.now ≤ 149 := by decide
  obtain ⟨hwaits, hsame, hnext, -⟩ := answers_follow_history 3 history 149 hclock
  have hdue : Due 0 history 150 (history.drop 1) := ⟨100, 50, ⟨rfl, by decide, [], rfl⟩, rfl⟩
  have hawaiting : Awaiting 1 history .spiSend (history.drop 3) :=
    ⟨105, rfl, by decide, history.take 2, rfl⟩
  obtain ⟨hout, hleast⟩ := (hnext 150).mp (by decide)
  refine ⟨hclock, (hwaits 0).mpr ⟨by decide, .inl ⟨150, _, hdue, by decide⟩⟩,
    (hwaits 1).mpr ⟨by decide, .inr ⟨.spiSend, _, hawaiting, by decide⟩⟩, ?_,
    hsame 0 _ (by decide) rfl, hout, hleast⟩
  rw [← hwaits 2]
  decide

end Resumable.Wait
