import KernelIR.Json.Parser
import KernelIR.Json.Record

/-!
# Values as JSON

A type with a `Codec` can be written as JSON and read from it.  `Codec.read?` reads a JSON value
of any depth; `Codec.parse?` reads a text, in which no more than 127 brackets may be nested, not
counting what is skipped.
-/

namespace KernelIR

/-- How the values of a type are written as JSON. -/
class Codec (α : Type) where
  encode : α → Json
  /-- Reads a value, opening at most the given number of nested brackets. -/
  decode? : Nat → Json → Option α

export Codec (encode decode?)

namespace Codec

variable {α β : Type}

/-- Reads a JSON value of any depth. -/
def read? [Codec α] (j : Json) : Option α := decode? j.depth j

/-- The number of nested brackets that may be opened in a text. -/
def maxDepth : Nat := 127

/-- Reads a JSON value with the limit of a text. -/
def limited? [Codec α] (j : Json) : Option α := decode? maxDepth j

/-- Reads a text. -/
def parse? [Codec α] (text : String) : Option α := (Json.parse? text).bind limited?

instance : Codec Bool where
  encode := .bool
  decode?
    | _, .bool b => some b
    | _, _ => none

instance : Codec String where
  encode := .str
  decode?
    | _, .str s => some s
    | _, _ => none

/-- An integer that is not negative and below a bound. -/
def natBelow? (bound : Nat) : Json → Option Nat
  | .int (.ofNat n) => if n < bound then some n else none
  | _ => none

instance : Codec UInt32 where
  encode n := .int (.ofNat n.toNat)
  decode? _ j := UInt32.ofNat <$> natBelow? UInt32.size j

instance : Codec UInt64 where
  encode n := .int (.ofNat n.toNat)
  decode? _ j := UInt64.ofNat <$> natBelow? UInt64.size j

instance : Codec Int64 where
  encode n := .int n.toInt
  decode?
    | _, .int (.ofNat n) => if n < Int64.size / 2 then some (Int64.ofInt n) else none
    | _, .int (.negSucc n) => if n < Int64.size / 2 then some (Int64.ofInt (.negSucc n)) else none
    | _, _ => none

instance [Codec α] : Codec (Option α) where
  encode
    | some a => encode a
    | none => .null
  decode?
    | _, .null => some none
    | budget, j => some <$> decode? budget j

instance [Codec α] : Codec (List α) where
  encode as := .arr (as.map encode)
  decode? := Json.list? decode?

instance [Codec α] [Codec β] : Codec (α × β) where
  encode p := .arr [encode p.1, encode p.2]
  decode?
    | budget + 1, .arr [a, b] => do return (← decode? budget a, ← decode? budget b)
    | _, _ => none

end Codec

end KernelIR
