/-!
# JSON values

A JSON value as it is written. Strings and numbers keep their spelling: a string is what stands
between its quotes, escapes included, and a number is its digits. What they mean is asked when a
field is read, so that a value that nobody reads only has to be well written. Objects keep the
order and the repetitions of their members.
-/

namespace BlockFlow

/-- A JSON value. -/
inductive Json where
  | null
  | bool (value : Bool)
  /-- A number, by its characters. -/
  | number (spelling : List Char)
  /-- A string, by the characters between its quotes. -/
  | string (body : List Char)
  | array (items : List Json)
  | object (members : List (List Char × Json))
  deriving Inhabited

end BlockFlow
