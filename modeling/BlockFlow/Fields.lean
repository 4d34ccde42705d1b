/-!
# Fields of records

A record is written as named members in any order, or, where the format allows it, as a list of its
fields in their declared order. A field given twice is a mistake; an unknown member is a mistake in
a closed record and is passed over in an open one.
-/

namespace BlockFlow

/-- Whether a record admits members that it does not declare. -/
inductive Openness where
  | closed
  | opened
  deriving DecidableEq, Repr

/-- The fields that a text gives for a record. -/
structure Fields (ν : Type) where
  given : List (String × ν)
  /-- Whether the fields were given by position. Then a field that is left out was not said to be
  absent, it is missing. -/
  positional : Bool

namespace Fields

variable {ν β : Type}

/-- The record written as named members. -/
def ofMembers? (fields : List String) (openness : Openness) (members : List (String × ν)) :
    Option (Fields ν) :=
  let known := members.filter (fields.contains ·.1)
  if openness = .closed ∧ known.length ≠ members.length then none
  else if (known.map Prod.fst).Nodup then some { given := known, positional := false }
  else none

/-- The record written as a list of its fields. -/
def ofItems? (fields : List String) (items : List ν) : Option (Fields ν) :=
  if items.length ≤ fields.length then some { given := fields.zip items, positional := true }
  else none

/-- The value given for a field. -/
def get? (r : Fields ν) (field : String) : Option ν := r.given.lookup field

/-- A field that has to be given. -/
def required (r : Fields ν) (field : String) (read : ν → Option β) : Option β :=
  (r.get? field).bind read

/-- A field that has a value where it is not given. -/
def withDefault (r : Fields ν) (field : String) (default : β) (read : ν → Option β) : Option β :=
  match r.get? field with
  | some value => read value
  | none => some default

/-- A field that may be absent. In a list of fields its place still has to be filled. -/
def optional (r : Fields ν) (field : String) (read : ν → Option (Option β)) : Option (Option β) :=
  match r.get? field with
  | some value => read value
  | none => if r.positional then none else some none

end Fields

end BlockFlow
