import BlockFlow.Json.Literal
import BlockFlow.Fields

/-!
# Reading fields from JSON

How the parts of a JSON value become lists, records, truth values and choices.
-/

namespace BlockFlow.Json

variable {β : Type}

/-- A list, each item read by `read`. -/
def list? (read : Json → Option β) : Json → Option (List β)
  | .array items => items.mapM read
  | _ => none

/-- A value or `null`. -/
def orNull? (read : Json → Option β) : Json → Option (Option β)
  | .null => some none
  | json => (read json).map some

/-- A truth value. -/
def bool? : Json → Option Bool
  | .bool value => some value
  | _ => none

/-- A record, as an object or as the list of its fields. -/
def record? (fields : List String) (openness : Openness) : Json → Option (Fields Json)
  | .object members => do
    let members ← members.mapM fun (key, value) ↦ do
      let key ← unescape? key
      return (String.ofList key, value)
    Fields.ofMembers? fields openness members
  | .array items => Fields.ofItems? fields items
  | _ => none

/-- A choice: a name alone, which carries nothing, or an object whose one member is the name with
what it carries. -/
def choice? : Json → Option (String × Option Json)
  | .string body => (unescape? body).map fun name ↦ (String.ofList name, none)
  | .object [(key, payload)] => (unescape? key).map fun name ↦ (String.ofList name, some payload)
  | _ => none

/-- Nothing to carry: no payload, or `null`. -/
def carriesNothing : Option Json → Bool
  | none | some .null => true
  | _ => false

/-- An object with the given members in order. -/
def ofMembers (members : List (String × Json)) : Json :=
  .object (members.map fun (key, value) ↦ (escape key.toList, value))

/-- A list with each item written by `write`. -/
def ofList (write : β → Json) (items : List β) : Json := .array (items.map write)

end BlockFlow.Json
