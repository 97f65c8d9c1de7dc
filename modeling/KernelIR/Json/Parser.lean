import KernelIR.Json.Token

/-!
# Reading JSON

`Json.parse?` reads a text that is one JSON value.  It goes through the tokens once and keeps the
arrays and objects that are still open on a stack, so nesting may be of any depth.
-/

namespace KernelIR.Json

/-- An array or object that is still open, what was read of it last first. -/
inductive Frame where
  | arr (items : List Json)
  | obj (members : List (Option String × Json))
  /-- An object whose last key still waits for its value. -/
  | member (members : List (Option String × Json)) (key : Option String)

/-- What may come next. -/
inductive Expect where
  | value
  /-- A value, or the end of an array that has just begun. -/
  | firstItem
  | key
  /-- A key, or the end of an object that has just begun. -/
  | firstKey
  | colon (key : Option String)
  /-- A comma or the end of what is open. -/
  | separator
  | done (j : Json)

/-- The state of reading: what is open, innermost first, and what may come next. -/
structure Parser where
  stack : List Frame := []
  expect : Expect := .value

namespace Parser

/-- The object of the given members, last first. -/
def closeObj (members : List (Option String × Json)) : Json :=
  match members.reverse.mapM fun (k, j) => k.map (·, j) with
  | some ms => .obj ms
  | none => .loneSurrogate

/-- Puts a value where one was expected. -/
def put (stack : List Frame) (j : Json) : Option Parser :=
  match stack with
  | [] => some ⟨[], .done j⟩
  | .arr items :: fs => some ⟨.arr (j :: items) :: fs, .separator⟩
  | .member members key :: fs => some ⟨.obj ((key, j) :: members) :: fs, .separator⟩
  | .obj _ :: _ => none

/-- Ends the array or object that is open. -/
def close (stack : List Frame) (t : Token) : Option Parser :=
  match stack, t with
  | .arr items :: fs, .closeArr => put fs (.arr items.reverse)
  | .obj members :: fs, .closeObj => put fs (closeObj members)
  | _, _ => none

/-- Begins a value. -/
def begin (stack : List Frame) (t : Token) : Option Parser :=
  match t with
  | .openObj => some ⟨.obj [] :: stack, .firstKey⟩
  | .openArr => some ⟨.arr [] :: stack, .firstItem⟩
  | .str (some s) => put stack (.str s)
  | .str none => put stack .loneSurrogate
  | .word j => put stack j
  | _ => none

/-- Goes on after a comma. -/
def next (stack : List Frame) : Option Parser :=
  match stack with
  | .arr _ :: _ => some ⟨stack, .value⟩
  | .obj _ :: _ => some ⟨stack, .key⟩
  | _ => none

/-- Reads a token. -/
def step (s : Parser) (t : Token) : Option Parser :=
  match s.expect, t with
  | .value, t => begin s.stack t
  | .firstItem, .closeArr => close s.stack .closeArr
  | .firstItem, t => begin s.stack t
  | .firstKey, .closeObj => close s.stack .closeObj
  | .firstKey, .str k => some { s with expect := .colon k }
  | .key, .str k => some { s with expect := .colon k }
  | .colon k, .colon =>
    match s.stack with
    | .obj members :: fs => some ⟨.member members k :: fs, .value⟩
    | _ => none
  | .separator, .comma => next s.stack
  | .separator, t => close s.stack t
  | _, _ => none

/-- The value at the end of the tokens. -/
def finish (s : Parser) : Option Json :=
  match s.expect with
  | .done j => some j
  | _ => none

end Parser

/-- Reads a text that is one JSON value. -/
def parse? (text : String) : Option Json := do
  let ts ← tokens? text
  let s ← ts.foldlM Parser.step {}
  s.finish

end KernelIR.Json
