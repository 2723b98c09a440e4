/-!
# Traced computations

A computation that leaves a trace: its value and the list of events that happened while it ran,
oldest first. Sequencing appends traces, so the order of events is the order of the text.
-/

namespace Resumable

/-- A value with the events that happened while it was computed, oldest first. -/
@[ext]
structure Traced (ε α : Type) where
  trace : List ε
  value : α
deriving DecidableEq, Repr

namespace Traced

variable {ε δ α β : Type}

instance : Monad (Traced ε) where
  pure a := ⟨[], a⟩
  bind x f :=
    let y := f x.value
    ⟨x.trace ++ y.trace, y.value⟩

/-- Record one event. -/
def emit (e : ε) : Traced ε Unit := ⟨[e], ()⟩

/-- Record one event under a condition. -/
def emitWhen (c : Bool) (e : ε) : Traced ε Unit := ⟨if c then [e] else [], ()⟩

/-- Rename every event and keep the value. -/
def mapTrace (f : ε → δ) (x : Traced ε α) : Traced δ α := ⟨x.trace.map f, x.value⟩

/-! ### What each operation does to the trace and the value -/

@[simp] theorem trace_pure (a : α) : (pure a : Traced ε α).trace = [] := rfl

@[simp] theorem value_pure (a : α) : (pure a : Traced ε α).value = a := rfl

@[simp] theorem trace_bind (x : Traced ε α) (f : α → Traced ε β) :
    (x >>= f).trace = x.trace ++ (f x.value).trace := rfl

@[simp] theorem value_bind (x : Traced ε α) (f : α → Traced ε β) :
    (x >>= f).value = (f x.value).value := rfl

@[simp] theorem trace_emit (e : ε) : (emit e).trace = [e] := rfl

@[simp] theorem value_emit (e : ε) : (emit e).value = () := rfl

@[simp] theorem trace_emitWhen (c : Bool) (e : ε) :
    (emitWhen c e).trace = if c then [e] else [] := rfl

@[simp] theorem value_emitWhen (c : Bool) (e : ε) : (emitWhen c e).value = () := rfl

@[simp] theorem trace_mapTrace (f : ε → δ) (x : Traced ε α) :
    (x.mapTrace f).trace = x.trace.map f := rfl

@[simp] theorem value_mapTrace (f : ε → δ) (x : Traced ε α) :
    (x.mapTrace f).value = x.value := rfl

instance : LawfulMonad (Traced ε) :=
  LawfulMonad.mk' _
    (fun x => by
      show (⟨x.trace ++ [], x.value⟩ : Traced ε _) = x
      rw [List.append_nil])
    (fun _ _ => rfl)
    (fun x f g => by
      show (⟨(x.trace ++ (f x.value).trace) ++ _, _⟩ : Traced ε _) = ⟨x.trace ++ _, _⟩
      rw [List.append_assoc]
      rfl)

end Traced

end Resumable
