import BlockFlow.Json
import BlockFlow.Text.Digits

/-!
# Strings and numbers of JSON

How a text is spelled between quotes and read back, and how a natural number is. A spelled string
may hold an escape for half of a surrogate pair: it is well written, and no text is spelled so.
-/

namespace BlockFlow.Json

/-- The hexadecimal digit of a number below sixteen, in lower case. -/
def hexDigit (n : Nat) : Char := Nat.digitChar n

/-- The value of four hexadecimal digits. -/
def hexValue4? (a b c d : Char) : Option Nat := Text.number? 16 [a, b, c, d]

/-- The character that a one-letter escape stands for. -/
def escaped? : Char → Option Char
  | '"' => some '"'
  | '\\' => some '\\'
  | '/' => some '/'
  | 'b' => some '\x08'
  | 'f' => some '\x0c'
  | 'n' => some '\n'
  | 'r' => some '\r'
  | 't' => some '\t'
  | _ => none

/-- The spelling of a character: a quote, a backslash and the control characters are escaped, by a
letter if there is one, and all else stands for itself. -/
def escapeChar (c : Char) : List Char :=
  if c = '"' then ['\\', '"']
  else if c = '\\' then ['\\', '\\']
  else if c = '\x08' then ['\\', 'b']
  else if c = '\x0c' then ['\\', 'f']
  else if c = '\n' then ['\\', 'n']
  else if c = '\r' then ['\\', 'r']
  else if c = '\t' then ['\\', 't']
  else if c.toNat < 32 then
    ['\\', 'u', '0', '0', hexDigit (c.toNat / 16), hexDigit (c.toNat % 16)]
  else [c]

/-- The spelling of a text. -/
def escape (text : List Char) : List Char := text.flatMap escapeChar

/-- A piece of a spelled string: a character, or half of a surrogate pair. -/
inductive Piece where
  | char (c : Char)
  | high (unit : Nat)
  | low (unit : Nat)
  deriving DecidableEq, Repr

/-- The piece that a four-digit escape stands for. -/
def Piece.ofUnit (unit : Nat) : Piece :=
  if 0xD800 ≤ unit ∧ unit < 0xDC00 then .high unit
  else if 0xDC00 ≤ unit ∧ unit < 0xE000 then .low unit
  else .char (Char.ofNat unit)

/-- The pieces of a spelled string, unless an escape is unknown. -/
def pieces? : List Char → Option (List Piece)
  | '\\' :: 'u' :: a :: b :: c :: d :: rest => do
    let unit ← hexValue4? a b c d
    return Piece.ofUnit unit :: (← pieces? rest)
  | '\\' :: e :: rest => do
    let c ← escaped? e
    return .char c :: (← pieces? rest)
  | c :: rest => do
    guard (c ≠ '\\')
    return .char c :: (← pieces? rest)
  | [] => some []

/-- The text of pieces, unless half of a pair has no partner. -/
def joinPieces? : List Piece → Option (List Char)
  | .char c :: rest => do return c :: (← joinPieces? rest)
  | .high high :: .low low :: rest => do
    let c := Char.ofNat (0x10000 + (high - 0xD800) * 0x400 + (low - 0xDC00))
    return c :: (← joinPieces? rest)
  | [] => some []
  | _ => none

/-- The text that is spelled so. -/
def unescape? (body : List Char) : Option (List Char) := (pieces? body).bind joinPieces?

/-- The string that spells a text. -/
def ofText (text : String) : Json := .string (escape text.toList)

/-- The text of a string. -/
def text? : Json → Option String
  | .string body => (unescape? body).map String.ofList
  | _ => none

/-- The number that spells a natural number. -/
def ofNat (n : Nat) : Json := .number (Nat.toDigits 10 n)

/-- The natural number that a number spells with digits alone, if it is at most `max`. A sign, a
point or an exponent is refused, also where the value would be a natural number. -/
def nat? (max : Nat) : Json → Option Nat
  | .number spelling => (Text.number? 10 spelling).filter (· ≤ max)
  | _ => none

end BlockFlow.Json
