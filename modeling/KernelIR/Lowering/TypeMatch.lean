import KernelIR.Lowering.Event
import KernelIR.Ty.Layout

/-!
# Matching the types of a copy

Copying from one type to another goes element by element, where the element is a type that both
unpack to.  `matchTypes` finds it: the larger of the two types is unpacked until they are equal,
then both while the element is larger than the copy.
-/

namespace KernelIR

/-- A type that two types unpack to, and how often each was unpacked. -/
structure TypeMatch where
  element : Ty
  destDepth : Nat
  srcDepth : Nat

/-- Why two types have no match. -/
inductive MatchFault where
  /-- The types at which neither could be unpacked further. -/
  | stuck (dest src : Ty)
  | overflow

namespace TypeMatch

/-- The size of a type on the way of unpacking `dest` and `src`. -/
def size (layout : DataLayout) (dest src t : Ty) : Except MatchFault Nat :=
  match layout.sizeInBits t with
  | .ok bits => .ok bits
  | .error .unsized => .error (.stuck dest src)
  | .error .overflow => .error .overflow

/-- Whether it is `dest` that has to be unpacked: it is the larger one, or as large as `src` and
not yet at its end. -/
def destFirst (layout : DataLayout) (dest src : Ty) : Except MatchFault Bool := do
  let destBits ← size layout dest src dest
  let srcBits ← size layout dest src src
  return srcBits < destBits || (srcBits == destBits && dest.descend?.isSome)

/-- Unpacks the larger type until both are equal. -/
def unpack (layout : DataLayout) (dest src : Ty) (destDepth srcDepth : Nat) :
    Traced MatchFault TypeMatch :=
  if dest = src then pure ⟨dest, destDepth, srcDepth⟩
  else
    match destFirst layout dest src with
    | .error e => .ofExcept (.error e)
    | .ok true =>
      match h : dest.descend? with
      | none => .ofExcept (.error (.stuck dest src))
      | some t =>
        have := Ty.sizeOf_lt_of_descend? h
        .after (.unpacked t (destDepth + 1) src srcDepth)
          (unpack layout t src (destDepth + 1) srcDepth)
    | .ok false =>
      match h : src.descend? with
      | none => .ofExcept (.error (.stuck dest src))
      | some t =>
        have := Ty.sizeOf_lt_of_descend? h
        .after (.unpacked dest destDepth t (srcDepth + 1))
          (unpack layout dest t destDepth (srcDepth + 1))
termination_by sizeOf dest + sizeOf src

/-- Unpacks a common type until it is no larger than the copy. -/
def shrink (layout : DataLayout) (bytes : Nat) (element : Ty) (destDepth srcDepth : Nat) :
    Traced MatchFault TypeMatch :=
  match size layout element element element with
  | .error e => .ofExcept (.error e)
  | .ok bits =>
    if bytes < bits / 8 then
      match h : element.descend? with
      | none => .ofExcept (.error (.stuck element element))
      | some t =>
        have := Ty.sizeOf_lt_of_descend? h
        .after (.unpackedBoth bytes t) (shrink layout bytes t (destDepth + 1) (srcDepth + 1))
    else pure ⟨element, destDepth, srcDepth⟩
termination_by sizeOf element

end TypeMatch

/-- The element in which a copy of `bytes` bytes from `src` to `dest` is done. -/
def matchTypes (layout : DataLayout) (dest src : Ty) (bytes : Nat) :
    Traced MatchFault TypeMatch := do
  let m ← TypeMatch.unpack layout dest src 0 0
  TypeMatch.shrink layout bytes m.element m.destDepth m.srcDepth

end KernelIR
