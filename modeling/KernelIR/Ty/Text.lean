import KernelIR.Ty.Basic

/-!
# The text of a type

`Ty.render` is the form a type has in printed code and in messages; `Ty.mangle` is the compact
spelling that overloaded function names carry.
-/

namespace KernelIR

namespace Ty

mutual

/-- The printed form.  A named struct shows its name only. -/
def render : Ty → String
  | .void => "void"
  | .int bits => "i" ++ toString bits
  | .ptr t => t.render ++ "*"
  | .array size t => "[" ++ toString size ++ " x " ++ t.render ++ "]"
  | .vector lanes t => "<" ++ toString lanes ++ " x " ++ t.render ++ ">"
  | .function result params variadic =>
    result.render ++ " (" ++ ", ".intercalate (renderList params) ++
      (if variadic then ", ..." else "") ++ ")"
  | .struct (some name) _ _ => "%" ++ name
  | .struct none fields packed =>
    let body := "\x7b " ++ ", ".intercalate (renderList fields) ++ " \x7d"
    if packed then "<" ++ body ++ ">" else body

/-- The printed forms of several types. -/
def renderList : List Ty → List String
  | [] => []
  | t :: ts => t.render :: renderList ts

end

instance : ToString Ty := ⟨render⟩

mutual

/-- The spelling of a type inside a function name: `i32`, `p0i8`, `a4i32`, `v4i16`, `s.i32.i32`.
Function types all read `f`, and a named struct shows its name only. -/
def mangle : Ty → String
  | .void => "void"
  | .int bits => "i" ++ toString bits
  | .ptr t => "p0" ++ t.mangle
  | .array size t => "a" ++ toString size ++ t.mangle
  | .vector lanes t => "v" ++ toString lanes ++ t.mangle
  | .function .. => "f"
  | .struct (some name) _ _ => "s_" ++ name
  | .struct none fields _ => "s" ++ mangleFields fields

/-- The spellings of the fields of a struct, each after a dot. -/
def mangleFields : List Ty → String
  | [] => ""
  | t :: ts => "." ++ t.mangle ++ mangleFields ts

end

end Ty

end KernelIR
