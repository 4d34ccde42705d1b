import BlockFlow.Fields
import BlockFlow.Text.Digits
import BlockFlow.Yaml.Node

/-!
# Reading fields from YAML

A scalar has no type of its own: what it means depends on the field it is read for. A text takes any
scalar as it stands; numbers, truth values and absence have to be written plainly.
-/

namespace BlockFlow.Yaml.Node

variable {β : Type}

/-- A text: any scalar. -/
def text? : Node → Option String
  | .scalar _ text => some text
  | _ => none

/-- Whether a node says that there is no value. -/
def isNull : Node → Bool
  | .scalar .plain text => ["", "~", "null", "Null", "NULL"].contains text
  | _ => false

/-- A value, or the statement that there is none. -/
def orNull? (read : Node → Option β) (node : Node) : Option (Option β) :=
  if node.isNull then some none else (read node).map some

/-- Whether nothing is written where a collection could be. -/
def isBlank : Node → Bool
  | .scalar .plain text => text.isEmpty
  | _ => false

/-- A list, each item read by `read`. A list that is left out is empty. -/
def list? (read : Node → Option β) : Node → Option (List β)
  | .sequence items => items.mapM read
  | node => if node.isBlank then some [] else none

/-- A record. All its members have to be declared. -/
def record? (fields : List String) : Node → Option (Fields Node)
  | .mapping members => do
    let members ← members.mapM fun (key, value) ↦ do return (← key.text?, value)
    Fields.ofMembers? fields .closed members
  | node => if node.isBlank then Fields.ofMembers? fields .closed [] else none

/-- A truth value. -/
def bool? : Node → Option Bool
  | .scalar .plain text =>
    if ["true", "True", "TRUE"].contains text then some true
    else if ["false", "False", "FALSE"].contains text then some false
    else none
  | _ => none

/-- The natural number that a word writes: in the base that its first two characters name, or in
decimal without leading zeros. -/
def magnitude? : List Char → Option Nat
  | '0' :: 'x' :: digits => Text.number? 16 digits
  | '0' :: 'o' :: digits => Text.number? 8 digits
  | '0' :: 'b' :: digits => Text.number? 2 digits
  | '0' :: _ :: _ => none
  | digits => Text.number? 10 digits

/-- The natural number that a word writes, with an optional plus sign. -/
def unsigned? : List Char → Option Nat
  | '+' :: digits => magnitude? digits
  | digits => magnitude? digits

/-- A natural number that is at most `max`. -/
def nat? (max : Nat) : Node → Option Nat
  | .scalar .plain text => (unsigned? text.toList).filter (· ≤ max)
  | _ => none

end BlockFlow.Yaml.Node
