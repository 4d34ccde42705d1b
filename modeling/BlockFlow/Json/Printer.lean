import BlockFlow.Json.Literal

/-!
# Writing JSON

The compact form has no blanks at all. The pretty form puts every item and member on a line of its
own, two blanks deeper than what holds it, and a blank after the colon; an empty list or object
stays on one line.
-/

namespace BlockFlow.Json

/-- A string between its quotes. -/
def quoted (body : List Char) : List Char := '"' :: (body ++ ['"'])

mutual

/-- The compact form of a value. -/
def compact : Json → List Char
  | .null => ['n', 'u', 'l', 'l']
  | .bool true => ['t', 'r', 'u', 'e']
  | .bool false => ['f', 'a', 'l', 's', 'e']
  | .number spelling => spelling
  | .string body => quoted body
  | .array [] => ['[', ']']
  | .array (item :: items) => '[' :: (item.compact ++ compactItems items)
  | .object [] => ['\x7b', '\x7d']
  | .object ((key, value) :: members) =>
    '\x7b' :: (quoted key ++ ':' :: (value.compact ++ compactMembers members))

/-- The compact form of the items after the first, up to the closing bracket. -/
def compactItems : List Json → List Char
  | [] => [']']
  | item :: items => ',' :: (item.compact ++ compactItems items)

/-- The compact form of the members after the first, up to the closing brace. -/
def compactMembers : List (List Char × Json) → List Char
  | [] => ['\x7d']
  | (key, value) :: members =>
    ',' :: (quoted key ++ ':' :: (value.compact ++ compactMembers members))

end

/-- A new line at a depth. -/
def indentation (depth : Nat) : List Char := '\n' :: List.replicate (2 * depth) ' '

mutual

/-- The pretty form of a value that stands at a depth. -/
def prettyAt (depth : Nat) : Json → List Char
  | .null => ['n', 'u', 'l', 'l']
  | .bool true => ['t', 'r', 'u', 'e']
  | .bool false => ['f', 'a', 'l', 's', 'e']
  | .number spelling => spelling
  | .string body => quoted body
  | .array [] => ['[', ']']
  | .array (item :: items) =>
    '[' :: (indentation (depth + 1) ++ item.prettyAt (depth + 1) ++ prettyItems depth items)
  | .object [] => ['\x7b', '\x7d']
  | .object ((key, value) :: members) =>
    '\x7b' :: (indentation (depth + 1) ++ quoted key ++
      ':' :: ' ' :: (value.prettyAt (depth + 1) ++ prettyMembers depth members))

/-- The pretty form of the items after the first, up to the closing bracket. -/
def prettyItems (depth : Nat) : List Json → List Char
  | [] => indentation depth ++ [']']
  | item :: items =>
    ',' :: (indentation (depth + 1) ++ item.prettyAt (depth + 1) ++ prettyItems depth items)

/-- The pretty form of the members after the first, up to the closing brace. -/
def prettyMembers (depth : Nat) : List (List Char × Json) → List Char
  | [] => indentation depth ++ ['\x7d']
  | (key, value) :: members =>
    ',' :: (indentation (depth + 1) ++ quoted key ++
      ':' :: ' ' :: (value.prettyAt (depth + 1) ++ prettyMembers depth members))

end

/-- The compact text of a value. -/
def render (json : Json) : String := String.ofList json.compact

/-- The pretty text of a value. -/
def pretty (json : Json) : String := String.ofList (json.prettyAt 0)

end BlockFlow.Json
