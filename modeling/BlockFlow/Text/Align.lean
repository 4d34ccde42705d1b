/-!
# Columns of text

A text is laid out in a column by cutting it to a precision and then padding it to a width. Both
count characters, not bytes and not display cells.
-/

namespace BlockFlow.Text

/-- Where the text stands in its column. -/
inductive Alignment where
  | left
  | right
  | center
  deriving DecidableEq, Repr

/-- The blanks before and after a text that leaves `missing` characters of its column empty; a
centred text has the odd blank after it. -/
def Alignment.split (missing : Nat) : Alignment → Nat × Nat
  | .left => (0, missing)
  | .right => (missing, 0)
  | .center => (missing / 2, missing - missing / 2)

/-- Pads with blanks to at least `width` characters. -/
def pad (align : Alignment) (width : Nat) (text : String) : String :=
  let (before, after) := align.split (width - text.length)
  String.ofList (List.replicate before ' ') ++ text ++ String.ofList (List.replicate after ' ')

/-- Keeps at most `precision` characters. -/
def truncate (precision : Nat) (text : String) : String :=
  String.ofList (text.toList.take precision)

/-- Cuts to the precision, if there is one, and then pads to the width. -/
def column (align : Alignment) (width : Nat) (precision : Option Nat) (text : String) : String :=
  pad align width ((precision.map (truncate · text)).getD text)

/-- The blanks of a padded text are exactly what it lacks of its width. -/
theorem Alignment.split_sum (align : Alignment) (missing : Nat) :
    (align.split missing).1 + (align.split missing).2 = missing := by
  cases align <;> simp [split]
  omega

/-- A padded text is as wide as its column, or wider if the text is. -/
theorem length_pad (align : Alignment) (width : Nat) (text : String) :
    (pad align width text).length = max width text.length := by
  have h := align.split_sum (width - text.length)
  simp only [pad, String.length_append, String.length_ofList, List.length_replicate]
  omega

end BlockFlow.Text
