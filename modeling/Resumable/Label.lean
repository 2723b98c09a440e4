/-!
# Labels and resume points

The points at which a routine may continue. Labels are listed in a fixed order, the entry first,
and a label is stored as its position in that list: the resume point, one byte. Zero stands for the
entry, that is for a session that has not started.
-/

namespace Resumable

/-- A stored label: its position in the list of labels. -/
abbrev ResumePoint := UInt8

/-- A finite type of labels with its entry and at most 255 others. -/
class Label (L : Type) [DecidableEq L] where
  entry : L
  others : List L
  name : L → String
  nodup : (entry :: others).Nodup
  complete : ∀ l : L, l ∈ entry :: others
  few : others.length ≤ 255

namespace Label

variable {L : Type} [DecidableEq L] [Label L]

/-- All labels, the entry first. -/
def all (L : Type) [DecidableEq L] [Label L] : List L := entry :: others

/-- The label of a resume point, if it has one. -/
def decode (point : ResumePoint) : Option L := (all L)[point.toNat]?

/-- The resume point of a label. -/
def encode (l : L) : ResumePoint := UInt8.ofNat ((all L).idxOf l)

/-! ### Storing a label and reading it back -/

theorem idxOf_lt (l : L) : (all L).idxOf l < 256 := by
  have h := List.idxOf_lt_length_of_mem (complete l)
  have hf := few (L := L)
  simp only [List.length_cons] at h
  exact Nat.lt_of_lt_of_le h (by omega)

theorem toNat_encode (l : L) : (encode l).toNat = (all L).idxOf l := by
  simp only [encode, UInt8.toNat_ofNat']
  exact Nat.mod_eq_of_lt (idxOf_lt l)

@[simp] theorem decode_encode (l : L) : decode (encode l) = some l := by
  have h : (all L).idxOf l < (all L).length := List.idxOf_lt_length_of_mem (complete l)
  rw [decode, toNat_encode, List.getElem?_eq_getElem h, List.getElem_idxOf h]

/-- A resume point stands for a label exactly when the label is stored as it. -/
theorem decode_eq_some_iff {point : ResumePoint} {l : L} :
    decode point = some l ↔ encode l = point := by
  constructor
  · intro h
    obtain ⟨hlt, heq⟩ := List.getElem?_eq_some_iff.mp h
    apply UInt8.toNat_inj.mp
    rw [toNat_encode, ← heq]
    exact List.Nodup.idxOf_getElem nodup _ hlt
  · rintro rfl
    exact decode_encode l

@[simp] theorem encode_entry : encode (entry : L) = 0 := by
  simp [encode, all]

/-- Zero is the resume point of the entry and of no other label. -/
theorem encode_eq_zero_iff {l : L} : encode l = 0 ↔ l = entry := by
  constructor
  · intro h
    have h1 := decode_eq_some_iff.mpr h
    have h2 := decode_eq_some_iff.mpr (encode_entry (L := L))
    exact Option.some.inj (h1.symm.trans h2)
  · rintro rfl
    exact encode_entry

end Label

end Resumable
