/-!
# JSON values

`Json` is a JSON document as it was written: the members of an object keep their order and may
repeat a key, and a number keeps whether it was written as an integer.
-/

namespace KernelIR

/-- A JSON value. -/
inductive Json where
  | null
  | bool (b : Bool)
  /-- A number written as an integer. -/
  | int (n : Int)
  /-- Any other number, as it was written: with a fraction, an exponent, or as `-0`. -/
  | real (text : String)
  | str (s : String)
  /-- A string, or an object with a key, that names one half of a surrogate pair alone.  It is
  well written but stands for no text. -/
  | loneSurrogate
  | arr (items : List Json)
  | obj (members : List (String × Json))

namespace Json

instance : Inhabited Json := ⟨.null⟩

mutual

/-- The depth to which brackets are nested. -/
def depth : Json → Nat
  | .arr items => depthItems items + 1
  | .obj members => depthMembers members + 1
  | _ => 0

/-- The largest depth of the items of an array. -/
def depthItems : List Json → Nat
  | [] => 0
  | j :: js => max j.depth (depthItems js)

/-- The largest depth of the members of an object. -/
def depthMembers : List (String × Json) → Nat
  | [] => 0
  | (_, j) :: ms => max j.depth (depthMembers ms)

end

end Json

end KernelIR
