import Resumable.Bank

/-!
# Where the writes of a bank go

A bank may hold one number at several positions, and any of its pins may refuse a level. What the
pin at a position is asked is compared with the writes to its number alone, and what becomes of it
with a pin that stands alone: the first position of a number gets all of them in their order, the
others of that number get none, and nothing that another pin does or refuses makes a difference.
-/

namespace Resumable

/-- The level that an effect writes to a pin number, if it does. -/
def Effect.writeTo? (pin : PinId) : Effect → Option Level
  | .pin (.write number level) => if number = pin then some level else none
  | _ => none

/-- The levels that are written to a pin number, in order. -/
def writesTo (pin : PinId) (effects : List Effect) : List Level :=
  effects.filterMap (Effect.writeTo? pin)

/-- Drive one pin to levels in turn, and note which of them it took. -/
def driveAlone {P : Type} [OutputPin P] (p : P) : List Level → Traced (Level × Bool) P
  | [] => pure p
  | level :: rest => do
    Traced.emit (level, (OutputPin.drive p level).1.isOk)
    driveAlone (OutputPin.drive p level).2 rest

theorem levels_driveAlone {P : Type} [OutputPin P] (levels : List Level) (p : P) :
    (driveAlone p levels).trace.map Prod.fst = levels := by
  induction levels generalizing p with
  | nil => rfl
  | cons level rest ih => simp [driveAlone, ih]

theorem driveAlone_append {P : Type} [OutputPin P] (first second : List Level) (p : P) :
    driveAlone p (first ++ second) = driveAlone p first >>= (driveAlone · second) := by
  induction first generalizing p with
  | nil => rfl
  | cons level rest ih =>
    simp only [List.cons_append, driveAlone, ih, bind_assoc]

namespace Bank

variable {P : Type}

def Event.driveAt? (position : Nat) : Event → Option (Level × Bool)
  | .drive i level accepted => if i = position then some (level, accepted) else none
  | _ => none

/-- What the pin at a position was asked, and whether it took it. -/
def drivesAt (position : Nat) (trace : List Event) : List (Level × Bool) :=
  trace.filterMap (Event.driveAt? position)

def numbers (bank : Bank P) : List PinId := bank.wires.map Prod.fst

/-- The writes that are meant for the pin at a position: those to its number, unless the number
stands at an earlier position too. -/
def meantFor (bank : Bank P) (position : Nat) (effects : List Effect) : List Level :=
  match bank.numbers[position]? with
  | none => []
  | some pin => if pin ∈ bank.numbers.take position then [] else writesTo pin effects

variable {bank other : Bank P} {position : Nat} {wire : PinId × P} {e : Effect}

theorem drivesAt_append (position : Nat) (first second : List Event) :
    drivesAt position (first ++ second) = drivesAt position first ++ drivesAt position second :=
  List.filterMap_append

theorem number_of_wire (hwire : bank.wires[position]? = some wire) :
    bank.numbers[position]? = some wire.1 := by
  rw [numbers, List.getElem?_map, hwire]
  rfl

theorem meantFor_cons (bank : Bank P) (position : Nat) (e : Effect) (rest : List Effect) :
    bank.meantFor position (e :: rest) =
      bank.meantFor position [e] ++ bank.meantFor position rest := by
  unfold meantFor
  cases bank.numbers[position]? with
  | none => rfl
  | some pin =>
    dsimp only
    split
    · rfl
    · exact List.filterMap_append (l := [e])

theorem meantFor_of_numbers (h : other.numbers = bank.numbers) (effects : List Effect) :
    other.meantFor position effects = bank.meantFor position effects := by
  rw [meantFor, meantFor, h]

theorem meantFor_of_none (hwire : bank.wires[position]? = none) (effects : List Effect) :
    bank.meantFor position effects = [] := by
  have hnumber : bank.numbers[position]? = none := by
    rw [numbers, List.getElem?_map, hwire]
    rfl
  rw [meantFor, hnumber]

theorem meantFor_nil (bank : Bank P) (position : Nat) : bank.meantFor position [] = [] := by
  unfold meantFor
  split
  · rfl
  · split <;> rfl

theorem meantFor_quiet (hwrites : ∀ pin ∈ bank.numbers, e.writeTo? pin = none)
    (position : Nat) : bank.meantFor position [e] = [] := by
  unfold meantFor
  cases hnumber : bank.numbers[position]? with
  | none => rfl
  | some pin =>
    have hnone := hwrites pin (List.mem_of_getElem? hnumber)
    simp [writesTo, hnone]

theorem mem_take_of_getElem? {α : Type} {xs : List α} {a : α} {i k : Nat} (h : xs[i]? = some a)
    (hlt : i < k) : a ∈ xs.take k := by
  refine List.mem_of_getElem? (i := i) ?_
  rw [List.getElem?_take_of_lt hlt, h]

/-- A write is meant for the first position of its number. -/
theorem meantFor_write {i : Nat} {pin : PinId} (level : Level)
    (hnumber : bank.numbers[i]? = some pin) (hfirst : pin ∉ bank.numbers.take i) (position : Nat) :
    bank.meantFor position [.pin (.write pin level)] = if i = position then [level] else [] := by
  unfold meantFor
  cases hother : bank.numbers[position]? with
  | none =>
    have hi : i ≠ position := by
      rintro rfl
      rw [hnumber] at hother
      cases hother
    simp [hi]
  | some number =>
    by_cases hpin : pin = number
    · subst hpin
      -- a later position is shadowed by `i`, and an earlier one would shadow `i`
      rcases Nat.lt_trichotomy i position with hlt | rfl | hgt
      · simp [mem_take_of_getElem? hnumber hlt, Nat.ne_of_lt hlt]
      · simp [hfirst, writesTo, Effect.writeTo?]
      · exact absurd (mem_take_of_getElem? hother hgt) hfirst
    · have hi : i ≠ position := by
        rintro rfl
        rw [hnumber] at hother
        exact hpin (Option.some.inj hother)
      simp [writesTo, Effect.writeTo?, hpin, hi]

/-! ### One effect -/

variable [OutputPin P] {x : Traced Event (Bank P)}

/-- How a bank can carry out an effect: no pin is driven, and the effect writes to no number of the
bank; or the pin at the first position of a number is driven. -/
inductive Carried (bank : Bank P) : Effect → Traced Event (Bank P) → Prop
  | quiet {e : Effect} {trace : List Event} (hwrites : ∀ pin ∈ bank.numbers, e.writeTo? pin = none)
      (hdrives : ∀ position, drivesAt position trace = []) : Carried bank e ⟨trace, bank⟩
  | driven {i : Nat} {pin : PinId} {p : P} {level : Level} {trace : List Event}
      (hwire : bank.wires[i]? = some (pin, p)) (hfirst : pin ∉ bank.numbers.take i)
      (hdrives : ∀ position, drivesAt position trace =
        if i = position then [(level, (OutputPin.drive p level).1.isOk)] else []) :
      Carried bank (.pin (.write pin level))
        ⟨trace, ⟨bank.wires.set i (pin, (OutputPin.drive p level).2)⟩⟩

theorem carried_driveAt (bank : Bank P) {i : Fin bank.wires.length} {pin : PinId} (level : Level)
    (h : bank.position? pin = some i) :
    Carried bank (.pin (.write pin level)) (bank.driveAt i pin level) := by
  obtain ⟨hpin, hbefore⟩ := List.findFinIdx?_eq_some_iff.mp h
  have hpin' : bank.wires[i].1 = pin := beq_iff_eq.mp hpin
  have hwire : bank.wires[i.val]? = some (pin, bank.wires[i].2) := by
    rw [List.getElem?_eq_getElem i.isLt, ← hpin']
    rfl
  have hfirst : pin ∉ bank.numbers.take i := by
    rw [numbers, ← List.map_take, List.mem_map]
    rintro ⟨wire, hmem, hnumber⟩
    obtain ⟨k, hk, rfl⟩ := List.mem_take_iff_getElem.mp hmem
    have hlt : k < i.val := by omega
    exact hbefore ⟨k, by omega⟩ hlt (beq_iff_eq.mpr hnumber)
  unfold driveAt
  dsimp only
  rw [hpin']
  cases hdriven : (OutputPin.drive bank.wires[i].2 level).1 with
  | ok u =>
    refine .driven hwire hfirst fun position => ?_
    rw [hdriven]
    by_cases hi : i.val = position <;>
      simp [drivesAt, Event.driveAt?, hi, Except.isOk, Except.toBool]
  | error failure =>
    refine .driven hwire hfirst fun position => ?_
    rw [hdriven]
    by_cases hi : i.val = position <;>
      simp [drivesAt, Event.driveAt?, Event.report, hi, Except.isOk, Except.toBool]

theorem carried_perform (bank : Bank P) (op : PinOp) :
    Carried bank (.pin op) (bank.perform op) := by
  cases op with
  | init pin =>
    simp only [perform]
    split
    · exact .quiet (fun _ _ => rfl) fun _ => rfl
    · exact .quiet (fun _ _ => rfl) fun _ => rfl
  | setMode pin mode =>
    cases mode with
    | output => exact .quiet (fun _ _ => rfl) fun _ => rfl
    | input => exact .quiet (fun _ _ => rfl) fun _ => rfl
  | write pin level =>
    simp only [perform]
    cases hposition : bank.position? pin with
    | none =>
      refine .quiet (fun number hnumber => ?_) fun _ => rfl
      obtain ⟨wire, hmem, rfl⟩ := List.mem_map.mp hnumber
      have hother := List.findFinIdx?_eq_none_iff.mp hposition wire hmem
      rw [beq_iff_eq] at hother
      exact if_neg (Ne.symm hother)
    | some i => exact carried_driveAt bank level hposition

theorem carried_carryOut (bank : Bank P) (e : Effect) : Carried bank e (bank.carryOut e) := by
  cases e with
  | pin op => exact carried_perform bank op
  | wait event => exact .quiet (fun _ _ => rfl) fun _ => rfl
  | log line => exact .quiet (fun _ _ => rfl) fun _ => rfl

/-- One effect does to the pin at a position what is meant for it, and nothing else. -/
theorem Carried.at_position (h : Carried bank e x) (position : Nat) :
    drivesAt position x.trace = (bank.wires[position]?).elim []
        (fun wire => (driveAlone wire.2 (bank.meantFor position [e])).trace) ∧
      x.value.wires[position]? = (bank.wires[position]?).map
        fun wire => (wire.1, (driveAlone wire.2 (bank.meantFor position [e])).value) := by
  cases h with
  | quiet hwrites hdrives =>
    rw [hdrives, meantFor_quiet hwrites]
    cases bank.wires[position]? with
    | none => exact ⟨rfl, rfl⟩
    | some wire => exact ⟨rfl, rfl⟩
  | @driven i pin p level trace hwire hfirst hdrives =>
    rw [hdrives, meantFor_write level (number_of_wire hwire) hfirst, List.getElem?_set]
    by_cases hi : i = position
    · subst hi
      have hlt : i < bank.wires.length := (List.getElem?_eq_some_iff.mp hwire).1
      rw [hwire, if_pos rfl, if_pos rfl, if_pos rfl, if_pos hlt]
      exact ⟨rfl, rfl⟩
    · rw [if_neg hi, if_neg hi, if_neg hi]
      cases bank.wires[position]? with
      | none => exact ⟨rfl, rfl⟩
      | some wire => exact ⟨rfl, rfl⟩

theorem Carried.numbers (h : Carried bank e x) : x.value.numbers = bank.numbers := by
  apply List.ext_getElem?
  intro position
  rw [Bank.numbers, Bank.numbers, List.getElem?_map, List.getElem?_map, (h.at_position position).2]
  cases bank.wires[position]? with
  | none => rfl
  | some wire => rfl

theorem Carried.drives_iff (h : Carried bank e x) :
    (∃ position, drivesAt position x.trace ≠ []) ↔
      ∃ pin level, e = .pin (.write pin level) ∧ pin ∈ bank.numbers := by
  cases h with
  | quiet hwrites hdrives =>
    constructor
    · rintro ⟨position, hdriven⟩
      exact absurd (hdrives position) hdriven
    · rintro ⟨pin, level, rfl, hpin⟩
      have hnone := hwrites pin hpin
      simp [Effect.writeTo?] at hnone
  | @driven i pin p level trace hwire hfirst hdrives =>
    refine iff_of_true ⟨i, ?_⟩ ⟨pin, level, rfl, List.mem_of_getElem? (number_of_wire hwire)⟩
    simp [hdrives]

/-! ### Any series of effects -/

theorem numbers_carryOutAll (effects : List Effect) (bank : Bank P) :
    (bank.carryOutAll effects).value.numbers = bank.numbers := by
  induction effects generalizing bank with
  | nil => rfl
  | cons e rest ih => exact (ih (bank.carryOut e).value).trans (carried_carryOut bank e).numbers

theorem carryOutAll_at_position (effects : List Effect) (bank : Bank P) (position : Nat) :
    drivesAt position (bank.carryOutAll effects).trace = (bank.wires[position]?).elim []
        (fun wire => (driveAlone wire.2 (bank.meantFor position effects)).trace) ∧
      (bank.carryOutAll effects).value.wires[position]? = (bank.wires[position]?).map
        fun wire => (wire.1, (driveAlone wire.2 (bank.meantFor position effects)).value) := by
  induction effects generalizing bank with
  | nil =>
    rw [meantFor_nil]
    cases hwire : bank.wires[position]? with
    | none => exact ⟨rfl, hwire⟩
    | some wire => exact ⟨rfl, hwire⟩
  | cons e rest ih =>
    have hcarried := carried_carryOut bank e
    obtain ⟨hdrives, hwires⟩ := hcarried.at_position position
    obtain ⟨hdrives', hwires'⟩ := ih (bank.carryOut e).value
    rw [meantFor_of_numbers hcarried.numbers, hwires] at hdrives' hwires'
    rw [carryOutAll, Traced.trace_bind, Traced.value_bind, drivesAt_append, hdrives, hdrives',
      hwires', bank.meantFor_cons position e rest]
    cases bank.wires[position]? with
    | none => exact ⟨rfl, rfl⟩
    | some wire =>
      simp only [Option.elim_some, Option.map_some, driveAlone_append]
      exact ⟨rfl, rfl⟩

end Bank

/-- Where a bank sends its effects, whatever its pins do and refuse. The pin at a position is asked
for the levels written to its number, in their order, if that is the first position of the number,
and for none otherwise. How it takes them, and what it is handed back as, is how a pin that stands
alone would take them, so no refusal is felt by later writes or by other pins; the numbers stand as
they stood. Nothing but a write to a number of the bank drives a pin. -/
theorem bank_routes_writes {P : Type} [OutputPin P] (bank : Bank P) (effects : List Effect) :
    let x := bank.carryOutAll effects
    (∀ position, (Bank.drivesAt position x.trace).map Prod.fst = bank.meantFor position effects) ∧
      (∀ position, Bank.drivesAt position x.trace = (bank.wires[position]?).elim []
        fun wire => (driveAlone wire.2 (bank.meantFor position effects)).trace) ∧
      x.value.wires = bank.wires.mapIdx (fun position wire =>
        (wire.1, (driveAlone wire.2 (bank.meantFor position effects)).value)) ∧
      ∀ e, (∃ position, Bank.drivesAt position (x.value.carryOut e).trace ≠ []) ↔
        ∃ pin level, e = .pin (.write pin level) ∧ pin ∈ bank.numbers := by
  intro x
  have hat := fun position => Bank.carryOutAll_at_position effects bank position
  refine ⟨fun position => ?_, fun position => (hat position).1, ?_, fun e => ?_⟩
  · rw [(hat position).1]
    cases hwire : bank.wires[position]? with
    | none => exact (Bank.meantFor_of_none hwire effects).symm
    | some wire => exact levels_driveAlone _ wire.2
  · apply List.ext_getElem?
    intro position
    rw [(hat position).2, List.getElem?_mapIdx]
  · rw [(Bank.carried_carryOut x.value e).drives_iff, Bank.numbers_carryOutAll]

end Resumable
