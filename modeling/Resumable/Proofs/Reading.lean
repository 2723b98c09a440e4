import Resumable.Command.Reader

/-!
# Reading a command to its end and back

A reader is asked for bytes, words and requests in any order. One list of cases says what a single
read does: it finds the written form of its value at its position, or too few bytes. From it follows
what every series of reads does, with failures anywhere in it: the written forms of the values that
were read, put together, are what was taken from the command so far.
-/

namespace Resumable

namespace Reader

/-- What can be asked of a reader. -/
inductive Item where
  | byte
  | word
  | request
deriving DecidableEq, Repr

/-- What a reader gives. -/
inductive Value where
  | byte (b : UInt8)
  | word (w : UInt16)
  | request (r : Request)
deriving DecidableEq, Repr

def Item.width : Item → Nat
  | .byte => 1
  | .word => 2
  | .request => 3

def Value.item : Value → Item
  | .byte _ => .byte
  | .word _ => .word
  | .request _ => .request

/-- The written form of a value. -/
def Value.bytes : Value → List UInt8
  | .byte b => [b]
  | .word w => wordBytes w
  | .request r => r.encode

def read (r : Reader) : Item → Except Truncated Value × Reader
  | .byte => (r.readByte.1.map .byte, r.readByte.2)
  | .word => (r.readWord.1.map .word, r.readWord.2)
  | .request => (r.readRequest.1.map .request, r.readRequest.2)

/-- Read one item after the other. A read that fails does not end the series. -/
def readAll (r : Reader) : List Item → List (Except Truncated Value) × Reader
  | [] => ([], r)
  | item :: rest => ((r.read item).1 :: ((r.read item).2.readAll rest).1,
      ((r.read item).2.readAll rest).2)

/-- The written forms of what was read, one behind the other. -/
def written (results : List (Except Truncated Value)) : List UInt8 :=
  (results.filterMap Except.toOption).flatMap Value.bytes

/-- A request read as its two parts, once it is clear that the whole of it is there. -/
def readParts (r : Reader) : Except Truncated Request × Reader :=
  if r.remaining < Request.width then
    (.error (r.truncated Request.width), r)
  else
    match r.readByte with
    | (.error cause, r) => (.error cause, r)
    | (.ok count, r) =>
      match r.readWord with
      | (.error cause, r) => (.error cause, r)
      | (.ok delayMs, r) => (.ok ⟨count, delayMs⟩, r)

variable {r : Reader} {item : Item} {x : Except Truncated Value × Reader}

theorem length_rest (r : Reader) : r.rest.length = r.remaining := List.length_drop

theorem rest_skip (r : Reader) (width : Nat) : (r.skip width).rest = r.rest.drop width := by
  simp only [rest, skip, List.drop_drop]

theorem Value.length_bytes (value : Value) : value.bytes.length = value.item.width := by
  cases value <;> rfl

/-! ### One read -/

/-- What a read can come to: a value whose written form stands next, or nothing. -/
inductive Took (r : Reader) (item : Item) : Except Truncated Value × Reader → Prop
  | value {value : Value} {later : List UInt8} (hitem : value.item = item)
      (hrest : r.rest = value.bytes ++ later) : Took r item (.ok value, r.skip item.width)
  | short (hshort : r.remaining < item.width) :
      Took r item (.error ⟨r.position + item.width, r.input.length⟩, r)

theorem took_byte (r : Reader) : Took r .byte (r.read .byte) := by
  have hlength := r.length_rest
  unfold read readByte
  match hrest : r.rest with
  | [] =>
    rw [hrest, List.length_nil] at hlength
    exact .short (by simp only [Item.width]; omega)
  | b :: later =>
    have hnext : r.rest = (Value.byte b).bytes ++ later := hrest
    exact .value rfl hnext

theorem took_word (r : Reader) : Took r .word (r.read .word) := by
  have hlength := r.length_rest
  unfold read readWord
  match hrest : r.rest with
  | [] | [_] =>
    simp only [hrest, List.length_cons, List.length_nil] at hlength
    exact .short (by simp only [Item.width]; omega)
  | lo :: hi :: later =>
    have hnext : r.rest = (Value.word (wordOfBytes lo hi)).bytes ++ later := by
      rw [hrest, Value.bytes, wordBytes_wordOfBytes]
      rfl
    exact .value rfl hnext

theorem took_request (r : Reader) : Took r .request (r.read .request) := by
  have hlength := r.length_rest
  unfold read readRequest
  match hrest : r.rest with
  | [] | [_] | [_, _] =>
    simp only [hrest, List.length_cons, List.length_nil] at hlength
    exact .short (by simp only [Item.width]; omega)
  | count :: lo :: hi :: later =>
    have hnext : r.rest = (Value.request ⟨count, wordOfBytes lo hi⟩).bytes ++ later := by
      rw [hrest, Value.bytes, Request.encode, wordBytes_wordOfBytes]
      rfl
    exact .value rfl hnext

theorem took_read (r : Reader) (item : Item) : Took r item (r.read item) := by
  cases item with
  | byte => exact took_byte r
  | word => exact took_word r
  | request => exact took_request r

/-- Reading a request at once is reading its parts: the check before them leaves no way in which
only the first is read. -/
theorem readRequest_eq_readParts (r : Reader) : r.readRequest = r.readParts := by
  have hlength := r.length_rest
  unfold readParts readRequest readByte
  match hrest : r.rest with
  | [] | [_] | [_, _] =>
    simp only [hrest, List.length_cons, List.length_nil] at hlength
    rw [if_pos (by simp only [Request.width]; omega)]
  | count :: lo :: hi :: later =>
    simp only [hrest, List.length_cons] at hlength
    rw [if_neg (by simp only [Request.width]; omega)]
    have hnext : (r.skip 1).rest = lo :: hi :: later := by rw [rest_skip, hrest]; rfl
    simp only [readWord, hnext]
    rfl

theorem readRequest_written (q : Request) (tail : List UInt8) :
    (Reader.ofBytes (q.encode ++ tail)).readRequest =
      (.ok q, (Reader.ofBytes (q.encode ++ tail)).skip Request.width) := by
  have hword := wordOfBytes_bytes q.delayMs
  show ((Except.ok ⟨q.count, wordOfBytes _ _⟩ : Except Truncated Request), _) = _
  rw [hword]

theorem remaining_written (q : Request) (tail : List UInt8) :
    ((Reader.ofBytes (q.encode ++ tail)).skip Request.width).remaining = tail.length := by
  simp only [remaining, skip, ofBytes, List.length_append, Request.length_encode]
  omega

theorem Took.input (h : Took r item x) : x.2.input = r.input := by
  cases h <;> rfl

/-- What a read takes is the written form of what it gives. -/
theorem Took.rest (h : Took r item x) :
    r.rest = written [x.1] ++ x.2.rest ∧ x.2.position = r.position + (written [x.1]).length := by
  cases h with
  | @value value later hitem hrest =>
    have hwritten : written [.ok value] = value.bytes := by
      simp [written, Except.toOption]
    have hlength := value.length_bytes
    rw [hitem] at hlength
    dsimp only
    rw [hwritten, rest_skip, hlength]
    refine ⟨?_, rfl⟩
    rw [hrest, ← hlength, List.drop_left]
  | short => exact ⟨rfl, rfl⟩

/-- A read fails exactly when fewer bytes are left than it takes. -/
theorem Took.exact (h : Took r item x) :
    (r.remaining < item.width ∧
        x = (.error ⟨r.position + item.width, r.input.length⟩, r)) ∨
      item.width ≤ r.remaining ∧ ∃ value, value.item = item ∧
        value.bytes = r.rest.take item.width ∧ x = (.ok value, r.skip item.width) := by
  cases h with
  | @value value later hitem hrest =>
    have hbytes := value.length_bytes
    have hroom := r.length_rest
    rw [hrest, List.length_append] at hroom
    rw [hitem] at hbytes
    refine .inr ⟨by omega, value, hitem, ?_, rfl⟩
    rw [hrest, ← hbytes, List.take_left]
  | short hshort => exact .inl ⟨hshort, rfl⟩

/-! ### Any series of reads -/

theorem written_cons (result : Except Truncated Value) (results : List (Except Truncated Value)) :
    written (result :: results) = written [result] ++ written results := by
  cases result with
  | error cause => rfl
  | ok value => simp [written, Except.toOption]

theorem readAll_rest (items : List Item) (r : Reader) :
    (r.readAll items).2.input = r.input ∧
      r.rest = written (r.readAll items).1 ++ (r.readAll items).2.rest ∧
      (r.readAll items).2.position = r.position + (written (r.readAll items).1).length := by
  induction items generalizing r with
  | nil => exact ⟨rfl, rfl, rfl⟩
  | cons item items ih =>
    have htook := took_read r item
    obtain ⟨hrest, hposition⟩ := htook.rest
    obtain ⟨hinput', hrest', hposition'⟩ := ih (r.read item).2
    rw [readAll, written_cons]
    refine ⟨hinput'.trans htook.input, ?_, ?_⟩
    · rw [List.append_assoc, ← hrest', ← hrest]
    · rw [hposition', hposition, List.length_append, Nat.add_assoc]

end Reader

/-- Whatever was read from a command, and however often too few bytes were left for it, the bytes
taken are the written forms of the values read, in their order, and no read has passed the end. The
next read fails exactly when fewer bytes are left than it takes; then it takes none and names the
bytes needed and those there are. A request is read as by reading its parts, and a written request
is read back whatever follows it, which is left to be read. -/
theorem reader_takes_what_it_gives (input : List UInt8) (items : List Reader.Item) :
    let r := ((Reader.ofBytes input).readAll items).2
    let taken := Reader.written ((Reader.ofBytes input).readAll items).1
    taken = input.take r.position ∧ r.position = taken.length ∧
      r.position ≤ input.length ∧ r.position + r.remaining = input.length ∧
      (∀ item, (r.remaining < item.width ∧
            r.read item = (.error ⟨taken.length + item.width, input.length⟩, r)) ∨
          item.width ≤ r.remaining ∧ ∃ value, value.item = item ∧
            value.bytes = (input.drop taken.length).take item.width ∧
            r.read item = (.ok value, { input, position := taken.length + item.width })) ∧
      r.readRequest = r.readParts ∧
      ∀ (q : Request) (tail : List UInt8),
        (Reader.ofBytes (q.encode ++ tail)).readRequest.1 = .ok q ∧
          (Reader.ofBytes (q.encode ++ tail)).readRequest.2.remaining = tail.length := by
  intro r taken
  obtain ⟨hinput, hrest, hposition⟩ := Reader.readAll_rest items (Reader.ofBytes input)
  change r.input = input at hinput
  change input.drop 0 = taken ++ r.rest at hrest
  change r.position = 0 + taken.length at hposition
  rw [List.drop_zero] at hrest
  rw [Nat.zero_add] at hposition
  have hnext : r.rest = input.drop taken.length := by rw [hrest, List.drop_left]
  have hlength : input.length = taken.length + r.remaining := by
    rw [← r.length_rest, hrest, List.length_append]
  refine ⟨?_, hposition, by omega, by omega, fun item => ?_, r.readRequest_eq_readParts,
    fun q tail => ?_⟩
  · rw [hposition, hrest, List.take_left]
  · have hexact := (Reader.took_read r item).exact
    rw [Reader.skip, hposition, hnext, hinput] at hexact
    exact hexact
  · rw [Reader.readRequest_written]
    exact ⟨rfl, Reader.remaining_written q tail⟩

example : ((Reader.ofBytes [3, 16]).readAll [.request, .byte, .word, .byte]).1 =
    [.error ⟨3, 2⟩, .ok (.byte 3), .error ⟨3, 2⟩, .ok (.byte 16)] := rfl

end Resumable
