import KernelIR.Intrinsic.Family
import KernelIR.Intrinsic.Site

/-!
# The log of a lowering

A lowering reports what it does as `Event`s; `Event.render` is the line of an event.  `Traced` is
a computation that reports events and ends with a value or a fault: what it ends with never
depends on what was reported, and the events up to a fault are kept.
-/

namespace KernelIR

/-- A step of a lowering that is worth a line in the log. -/
inductive Event where
  /-- The calls to a function of a family are about to be lowered. -/
  | lowering (count : Nat) (family : Family) (name : String)
  /-- A call is about to be lowered. -/
  | visit (callee : String) (site : Site)
  /-- An instruction is put in the place of a call. -/
  | emit (inst : Instruction)
  | zeroStores (count : Nat) (element : Ty)
  | emptyCopy
  | copies (count : Nat) (element : Ty) (destDepth srcDepth : Nat)
  /-- One of two types was unpacked; both are shown with their depths. -/
  | unpacked (dest : Ty) (destDepth : Nat) (src : Ty) (srcDepth : Nat)
  | unpackedBoth (bytes : Nat) (element : Ty)
  /-- A cast that is still read is not removed. -/
  | keptCast (cast : TempId) (function : String)
  | removedCasts (count : Nat) (name : String)
  | finished (name : String) (changed : Bool)

namespace Event

/-- The line of an event: its level, then its text. -/
def render : Event → String
  | .lowering count family name => s!"DEBUG Lowering {count} {family} call(s) to '{name}'"
  | .visit callee site => s!"TRACE {callee} @ {site}"
  | .emit inst => s!"TRACE   emit {inst}"
  | .zeroStores count element => s!"TRACE   {count} zero store(s) of {element}"
  | .emptyCopy => "TRACE   empty copy, nothing to emit"
  | .copies count element destDepth srcDepth =>
    s!"TRACE   {count} copy(ies) of {element}, unpacked {destDepth} (dst) / {srcDepth} (src)"
  | .unpacked dest destDepth src srcDepth =>
    s!"TRACE   unpacked to {dest} ({destDepth}) vs {src} ({srcDepth})"
  | .unpackedBoth bytes element =>
    s!"TRACE   copy of {bytes} bytes is smaller than one element, unpacked both to {element}"
  | .keptCast cast function => s!"DEBUG Keeping cast %{cast} in '{function}': still in use"
  | .removedCasts count name =>
    s!"DEBUG Removed {count} reinterpretation cast(s) feeding '{name}'"
  | .finished name changed =>
    s!"DEBUG replace-intrinsics on '{name}': changed = {changed}"

end Event

/-- A computation that reports events and ends with a value or a fault. -/
structure Traced (ε α : Type) where
  log : List Event
  result : Except ε α

namespace Traced

variable {ε δ α β : Type}

/-- Ends without reporting anything. -/
def ofExcept (x : Except ε α) : Traced ε α := ⟨[], x⟩

/-- Reports events, in order. -/
def report (events : List Event) : Traced ε Unit := ⟨events, .ok ()⟩

/-- Reports an event before all that `x` reports. -/
def after (event : Event) (x : Traced ε α) : Traced ε α := ⟨event :: x.log, x.result⟩

/-- Goes on with the value; a fault ends the computation. -/
def bind (x : Traced ε α) (f : α → Traced ε β) : Traced ε β :=
  match x.result with
  | .ok a =>
    let y := f a
    ⟨x.log ++ y.log, y.result⟩
  | .error e => ⟨x.log, .error e⟩

instance : Monad (Traced ε) where
  pure a := ⟨[], .ok a⟩
  bind := bind

/-- Gives another form to the fault. -/
def mapError (f : ε → δ) (x : Traced ε α) : Traced δ α := ⟨x.log, x.result.mapError f⟩

@[simp] theorem result_pure (a : α) : (pure a : Traced ε α).result = .ok a := rfl

@[simp] theorem result_ofExcept (x : Except ε α) : (ofExcept x).result = x := rfl

@[simp] theorem result_report (events : List Event) :
    (report events : Traced ε Unit).result = .ok () := rfl

@[simp] theorem result_after (event : Event) (x : Traced ε α) :
    (after event x).result = x.result := rfl

@[simp] theorem result_mapError (f : ε → δ) (x : Traced ε α) :
    (x.mapError f).result = x.result.mapError f := rfl

/-- The value does not depend on what is reported. -/
@[simp] theorem result_bind (x : Traced ε α) (f : α → Traced ε β) :
    (x >>= f).result = x.result >>= fun a => (f a).result := by
  show (x.bind f).result = _
  unfold Traced.bind
  cases x.result <;> rfl

/-- A computation in two steps succeeds when both do. -/
theorem result_bind_eq_ok {x : Traced ε α} {f : α → Traced ε β} {b : β} :
    (x >>= f).result = .ok b ↔ ∃ a, x.result = .ok a ∧ (f a).result = .ok b := by
  rw [result_bind]
  cases x.result with
  | ok a => exact ⟨fun h => ⟨a, rfl, h⟩, by rintro ⟨_, ⟨⟩, h⟩; exact h⟩
  | error e => exact ⟨fun h => (nomatch h), by rintro ⟨_, ⟨⟩, _⟩⟩

end Traced

end KernelIR
