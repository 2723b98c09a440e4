import Resumable.Time

/-!
# Requests

What a command asks for: a count and a delay in milliseconds. A request is written as three bytes,
the count and then the delay with its low byte first.
-/

namespace Resumable

/-! ### Words as bytes -/

/-- The two bytes of a word, low byte first. -/
def wordBytes (w : UInt16) : List UInt8 := [UInt8.ofNat (w.toNat % 256), UInt8.ofNat (w.toNat / 256)]

/-- The word with the given low and high byte. -/
def wordOfBytes (lo hi : UInt8) : UInt16 := UInt16.ofNat (lo.toNat + 256 * hi.toNat)

theorem toNat_wordOfBytes (lo hi : UInt8) :
    (wordOfBytes lo hi).toNat = lo.toNat + 256 * hi.toNat := by
  have hlo := lo.toNat_lt
  have hhi := hi.toNat_lt
  simp only [wordOfBytes, UInt16.toNat_ofNat']
  omega

/-- The bytes of a word, put together, give the word. -/
theorem wordOfBytes_bytes (w : UInt16) :
    wordOfBytes (UInt8.ofNat (w.toNat % 256)) (UInt8.ofNat (w.toNat / 256)) = w := by
  have hw := w.toNat_lt
  apply UInt16.toNat_inj.mp
  simp only [toNat_wordOfBytes, UInt8.toNat_ofNat']
  omega

/-- The word of two bytes is written as these bytes. -/
theorem wordBytes_wordOfBytes (lo hi : UInt8) : wordBytes (wordOfBytes lo hi) = [lo, hi] := by
  have hlo := lo.toNat_lt
  have hhi := hi.toNat_lt
  have h1 : (lo.toNat + 256 * hi.toNat) % 256 = lo.toNat := by omega
  have h2 : (lo.toNat + 256 * hi.toNat) / 256 = hi.toNat := by omega
  simp [wordBytes, toNat_wordOfBytes, h1, h2]

/-! ### Requests -/

/-- How often, and with which delay in milliseconds. -/
structure Request where
  count : UInt8 := 0
  delayMs : UInt16 := 0
deriving DecidableEq, Repr

namespace Request

/-- Bytes in a written request. -/
def width : Nat := 3

instance : Inhabited Request := ⟨{}⟩

/-- The delay as a length of time. -/
def delay (r : Request) : Duration := Duration.ofMillis r.delayMs

/-- The written form of a request. -/
def encode (r : Request) : List UInt8 := r.count :: wordBytes r.delayMs

@[simp] theorem length_encode (r : Request) : r.encode.length = width := rfl

/-! ### Counting in bytes up to the count -/

theorem ofNat_lt_count {r : Request} {i : Nat} (h : i < r.count.toNat) :
    UInt8.ofNat i < r.count := by
  have hcount := r.count.toNat_lt
  rw [UInt8.lt_iff_toNat_lt, UInt8.toNat_ofNat']
  omega

theorem ofNat_sub_succ {r : Request} {left : Nat} (h : left < r.count.toNat) :
    UInt8.ofNat (r.count.toNat - (left + 1)) + 1 = UInt8.ofNat (r.count.toNat - left) := by
  have hstep : r.count.toNat - left = r.count.toNat - (left + 1) + 1 := by omega
  rw [hstep, UInt8.ofNat_add]
  rfl

end Request

end Resumable
