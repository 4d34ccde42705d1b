import BlockFlow.Json.Literal

/-!
# Reading JSON

A reader of RFC 8259 texts. Blanks may stand around every token, and nothing but blanks after the
value. There are no comments and no trailing commas, a number has no leading zero, and a string has
no raw control character.
-/

namespace BlockFlow.Json

/-- The blanks of JSON. -/
def isBlank (c : Char) : Bool := c == ' ' || c == '\t' || c == '\n' || c == '\r'

/-- The text after its leading blanks. -/
def skipBlanks (cs : List Char) : List Char := cs.dropWhile isBlank

/-- The body of a string whose opening quote was read, and what follows its closing quote. -/
def stringBody? : List Char → Option (List Char × List Char)
  | '"' :: rest => some ([], rest)
  | '\\' :: 'u' :: a :: b :: c :: d :: rest => do
    let _ ← hexValue4? a b c d
    let (body, rest) ← stringBody? rest
    return ('\\' :: 'u' :: a :: b :: c :: d :: body, rest)
  | '\\' :: e :: rest => do
    let _ ← escaped? e
    let (body, rest) ← stringBody? rest
    return ('\\' :: e :: body, rest)
  | c :: rest => do
    guard (c ≠ '\\' ∧ 32 ≤ c.toNat)
    let (body, rest) ← stringBody? rest
    return (c :: body, rest)
  | [] => none

/-- One or more digits, and what follows them. -/
def digits? (cs : List Char) : Option (List Char × List Char) :=
  match cs.takeWhile Char.isDigit with
  | [] => none
  | digits => some (digits, cs.dropWhile Char.isDigit)

/-- The digits before a point: a lone zero, or digits that do not begin with one. -/
def integer? (cs : List Char) : Option (List Char × List Char) := do
  let (digits, rest) ← digits? cs
  guard (digits = ['0'] ∨ digits.head? ≠ some '0')
  return (digits, rest)

/-- The point and the digits after it, if there is a point. -/
def fraction? : List Char → Option (List Char × List Char)
  | '.' :: rest => do
    let (digits, rest) ← digits? rest
    return ('.' :: digits, rest)
  | rest => some ([], rest)

/-- The sign of an exponent, if it has one. -/
def exponentSign : List Char → List Char × List Char
  | '+' :: rest => (['+'], rest)
  | '-' :: rest => (['-'], rest)
  | rest => ([], rest)

/-- The exponent, if there is one. -/
def exponent? : List Char → Option (List Char × List Char)
  | [] => some ([], [])
  | e :: rest =>
    if e = 'e' ∨ e = 'E' then do
      let (sign, rest) := exponentSign rest
      let (digits, rest) ← digits? rest
      return (e :: (sign ++ digits), rest)
    else some ([], e :: rest)

/-- A number without its sign, and what follows it. -/
def unsigned? (cs : List Char) : Option (List Char × List Char) := do
  let (integer, rest) ← integer? cs
  let (fraction, rest) ← fraction? rest
  let (exponent, rest) ← exponent? rest
  return (integer ++ fraction ++ exponent, rest)

/-- A number, and what follows it. -/
def number? : List Char → Option (List Char × List Char)
  | '-' :: rest => do
    let (spelling, rest) ← unsigned? rest
    return ('-' :: spelling, rest)
  | rest => unsigned? rest

/-- The key of a member up to and including its colon, and what follows it. -/
def key? (cs : List Char) : Option (List Char × List Char) := do
  let '"' :: rest := skipBlanks cs | none
  let (key, rest) ← stringBody? rest
  let ':' :: rest := skipBlanks rest | none
  return (key, rest)

mutual

/-- A value, and what follows it. Nesting and length are bounded by `fuel`. -/
def value? : (fuel : Nat) → List Char → Option (Json × List Char)
  | 0, _ => none
  | fuel + 1, cs =>
    match skipBlanks cs with
    | 'n' :: 'u' :: 'l' :: 'l' :: rest => some (.null, rest)
    | 't' :: 'r' :: 'u' :: 'e' :: rest => some (.bool true, rest)
    | 'f' :: 'a' :: 'l' :: 's' :: 'e' :: rest => some (.bool false, rest)
    | '"' :: rest => do
      let (body, rest) ← stringBody? rest
      return (.string body, rest)
    | '[' :: rest =>
      match skipBlanks rest with
      | ']' :: rest => some (.array [], rest)
      | rest => do
        let (item, rest) ← value? fuel rest
        let (items, rest) ← items? fuel rest
        return (.array (item :: items), rest)
    | '\x7b' :: rest =>
      match skipBlanks rest with
      | '\x7d' :: rest => some (.object [], rest)
      | rest => do
        let (key, rest) ← key? rest
        let (value, rest) ← value? fuel rest
        let (members, rest) ← members? fuel rest
        return (.object ((key, value) :: members), rest)
    | rest => do
      let (spelling, rest) ← number? rest
      return (.number spelling, rest)

/-- The items after the first, up to the closing bracket, and what follows it. -/
def items? : (fuel : Nat) → List Char → Option (List Json × List Char)
  | 0, _ => none
  | fuel + 1, cs =>
    match skipBlanks cs with
    | ']' :: rest => some ([], rest)
    | ',' :: rest => do
      let (item, rest) ← value? fuel rest
      let (items, rest) ← items? fuel rest
      return (item :: items, rest)
    | _ => none

/-- The members after the first, up to the closing brace, and what follows it. -/
def members? : (fuel : Nat) → List Char → Option (List (List Char × Json) × List Char)
  | 0, _ => none
  | fuel + 1, cs =>
    match skipBlanks cs with
    | '\x7d' :: rest => some ([], rest)
    | ',' :: rest => do
      let (key, rest) ← key? rest
      let (value, rest) ← value? fuel rest
      let (members, rest) ← members? fuel rest
      return ((key, value) :: members, rest)
    | _ => none

end

/-- The value that a text writes. -/
def parse? (text : String) : Option Json := do
  let cs := text.toList
  let (json, rest) ← value? (cs.length + 1) cs
  guard (skipBlanks rest).isEmpty
  return json

end BlockFlow.Json
