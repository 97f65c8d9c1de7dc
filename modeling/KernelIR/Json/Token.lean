import KernelIR.Json.Basic

/-!
# The tokens of JSON

`tokens` cuts a text into punctuation, strings, and words, which are numbers and the three
literals.  Each kind is read by the strict grammar: no leading zeros, no control characters in
strings, no other escapes than the known ones.
-/

namespace KernelIR.Json

/-- A piece of JSON text.  A string without text names one half of a surrogate pair alone. -/
inductive Token where
  | openObj | closeObj | openArr | closeArr | colon | comma
  | str (s : Option String)
  /-- A number or a literal. -/
  | word (j : Json)

/-! ### Numbers and literals -/

/-- The value of a sequence of decimal digits. -/
def digitsValue (ds : List Char) : Nat := ds.foldl (fun n d => 10 * n + (d.toNat - '0'.toNat)) 0

/-- Whether the text is an exponent, with its mark. -/
def isExponent : List Char → Bool
  | mark :: cs =>
    let digits := match cs with
      | '+' :: ds | '-' :: ds => ds
      | ds => ds
    (mark == 'e' || mark == 'E') && !digits.isEmpty && digits.all Char.isDigit
  | [] => false

/-- Whether the text is what may follow the integer part of a number. -/
def isFraction : List Char → Bool
  | '.' :: cs =>
    let rest := cs.dropWhile Char.isDigit
    !(cs.takeWhile Char.isDigit).isEmpty && (rest.isEmpty || isExponent rest)
  | cs => isExponent cs

/-- Reads a number. -/
def number? (word : List Char) : Option Json :=
  let (negative, cs) := match word with
    | '-' :: cs => (true, cs)
    | cs => (false, cs)
  let digits := cs.takeWhile Char.isDigit
  let rest := cs.dropWhile Char.isDigit
  match digits with
  | [] => none
  | d :: ds =>
    if d = '0' ∧ ds ≠ [] then none
    else if rest.isEmpty then
      let n := digitsValue digits
      if negative then
        if n = 0 then some (.real "-0") else some (.int (-n))
      else some (.int n)
    else if isFraction rest then some (.real (String.ofList word))
    else none

/-- Reads a number or a literal. -/
def word? (word : List Char) : Option Json :=
  if word = "null".toList then some .null
  else if word = "true".toList then some (.bool true)
  else if word = "false".toList then some (.bool false)
  else number? word

/-! ### Strings -/

/-- The value of a hexadecimal digit. -/
def hexDigit? (c : Char) : Option Nat :=
  if c.isDigit then some (c.toNat - '0'.toNat)
  else if 'a' ≤ c ∧ c ≤ 'f' then some (c.toNat - 'a'.toNat + 10)
  else if 'A' ≤ c ∧ c ≤ 'F' then some (c.toNat - 'A'.toNat + 10)
  else none

/-- The character that a backslash and `c` stand for. -/
def escape? : Char → Option Char
  | '"' => some '"'
  | '\\' => some '\\'
  | '/' => some '/'
  | 'b' => some '\x08'
  | 'f' => some '\x0c'
  | 'n' => some '\n'
  | 'r' => some '\r'
  | 't' => some '\t'
  | _ => none

/-- The text between two quotes as numbers: of characters where they stand for themselves, of
UTF-16 units where they are escaped by number. -/
def units? : List Char → Option (List Nat)
  | [] => some []
  | '\\' :: 'u' :: a :: b :: c :: d :: cs => do
    let n := (((← hexDigit? a) * 16 + (← hexDigit? b)) * 16 + (← hexDigit? c)) * 16 + (← hexDigit? d)
    return n :: (← units? cs)
  | '\\' :: c :: cs => do
    let e ← escape? c
    return e.toNat :: (← units? cs)
  | c :: cs => do return c.toNat :: (← units? cs)

/-- Whether a UTF-16 unit is the first of a pair. -/
def isHigh (n : Nat) : Bool := 0xD800 ≤ n && n < 0xDC00

/-- Whether a UTF-16 unit is the second of a pair. -/
def isLow (n : Nat) : Bool := 0xDC00 ≤ n && n < 0xE000

/-- Joins the pairs of units; half a pair alone stands for no character. -/
def ofUnits? : List Nat → Option (List Char)
  | [] => some []
  | h :: l :: ns =>
    if isHigh h && isLow l then do
      return Char.ofNat (0x10000 + (h - 0xD800) * 0x400 + (l - 0xDC00)) :: (← ofUnits? ns)
    else if isHigh h || isLow h then none
    else do return Char.ofNat h :: (← ofUnits? (l :: ns))
  | [n] => if isHigh n || isLow n then none else some [Char.ofNat n]

/-- Reads what stands between two quotes. -/
def string? (raw : List Char) : Option (Option String) := do
  let ns ← units? raw
  return (ofUnits? ns).map String.ofList

/-! ### Text -/

/-- What the characters read last belong to. -/
inductive Pending where
  | none
  /-- The word so far, last character first. -/
  | word (read : List Char)
  /-- The string so far, last character first, and whether the last one is a backslash that
  escapes the next. -/
  | str (read : List Char) (escaped : Bool)

/-- The white space of JSON. -/
def isSpace (c : Char) : Bool := c == ' ' || c == '\t' || c == '\n' || c == '\r'

/-- The token of a punctuation mark. -/
def punctuation? : Char → Option Token
  | '\x7b' => some .openObj
  | '\x7d' => some .closeObj
  | '[' => some .openArr
  | ']' => some .closeArr
  | ':' => some .colon
  | ',' => some .comma
  | _ => none

/-- Whether the character goes on with a word. -/
def isWordChar (c : Char) : Bool := !isSpace c && c != '"' && (punctuation? c).isNone

/-- The tokens read so far, last token first, and what is being read. -/
structure Lexer where
  read : List Token := []
  pending : Pending := .none

namespace Lexer

/-- Reads a character that begins something new. -/
def start (read : List Token) (c : Char) : Lexer :=
  if isSpace c then ⟨read, .none⟩
  else if c = '"' then ⟨read, .str [] false⟩
  else match punctuation? c with
    | some t => ⟨t :: read, .none⟩
    | none => ⟨read, .word [c]⟩

/-- Reads a character. -/
def step (s : Lexer) (c : Char) : Option Lexer :=
  match s.pending with
  | .none => some (start s.read c)
  | .word cs =>
    if isWordChar c then some { s with pending := .word (c :: cs) }
    else do
      let j ← word? cs.reverse
      return start (.word j :: s.read) c
  | .str cs true => some { s with pending := .str (c :: cs) false }
  | .str cs false =>
    if c = '"' then do
      let text ← string? cs.reverse
      return ⟨.str text :: s.read, .none⟩
    else if c < ' ' then none
    else some { s with pending := .str (c :: cs) (c == '\\') }

/-- The tokens at the end of the text. -/
def finish (s : Lexer) : Option (List Token) :=
  match s.pending with
  | .none => some s.read.reverse
  | .word cs => do
    let j ← word? cs.reverse
    return (.word j :: s.read).reverse
  | .str .. => none

end Lexer

/-- The tokens of a text. -/
def tokens? (text : String) : Option (List Token) := do
  let s ← text.toList.foldlM Lexer.step {}
  s.finish

end KernelIR.Json
