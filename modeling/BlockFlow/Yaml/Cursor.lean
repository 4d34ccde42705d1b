/-!
# Places in a YAML text

Indentation decides what a YAML text means, so a reader has to know the column it stands at. A
cursor is the text still to be read together with the place where it begins.
-/

namespace BlockFlow.Yaml

/-- A blank within a line. -/
def isBlank (c : Char) : Bool := c == ' ' || c == '\t'

/-- A line break: line feed, carriage return, next line, line separator or paragraph separator. -/
def isBreak (c : Char) : Bool :=
  c == '\n' || c == '\r' || c == '\u0085' || c == '\u2028' || c == '\u2029'

/-- How a line break reads: the two separators stand for themselves, the others for a line feed. -/
def readBreak (c : Char) : Char := if c == '\u2028' || c == '\u2029' then c else '\n'

/-- Whether a text is at its end, at a blank or at a line break. -/
def atGap : List Char → Bool
  | [] => true
  | c :: _ => isBlank c || isBreak c

/-- The characters that a YAML text may hold. -/
def isAllowed (c : Char) : Bool :=
  c == '\t' || c == '\n' || c == '\r' || (' ' ≤ c && c ≤ '~') || c == '\u0085' ||
    ('\u00a0' ≤ c && c ≤ '\ufffd') || 0x10000 ≤ c.toNat

/-- A place in a text. -/
structure Place where
  line : Nat := 0
  column : Nat := 0
  /-- The number of characters before this place. -/
  index : Nat := 0
  deriving DecidableEq, Repr

namespace Place

/-- The place so many characters on in the same line. -/
def right (p : Place) (count : Nat) : Place :=
  { p with column := p.column + count, index := p.index + count }

/-- The start of the next line, after a line break of so many characters. -/
def down (p : Place) (count : Nat) : Place :=
  { line := p.line + 1, column := 0, index := p.index + count }

end Place

/-- The text still to be read and the place where it begins. -/
structure Cursor where
  rest : List Char
  place : Place := {}
  deriving Repr

namespace Cursor

/-- Passes over characters of one line. -/
def advance (c : Cursor) (count : Nat) : Cursor :=
  { rest := c.rest.drop count, place := c.place.right count }

/-- Passes over one line break; a carriage return and a line feed are one. -/
def skipBreak (c : Cursor) : Cursor :=
  match c.rest with
  | '\r' :: '\n' :: rest => { rest, place := c.place.down 2 }
  | rest => { rest := rest.drop 1, place := c.place.down 1 }

/-- Whether three hyphens or three dots stand alone at the start of a line. -/
def atDocumentMark (c : Cursor) : Bool :=
  c.place.column == 0 &&
    match c.rest with
    | '-' :: '-' :: '-' :: rest => atGap rest
    | '.' :: '.' :: '.' :: rest => atGap rest
    | _ => false

end Cursor

/-- White space between two words of a scalar. -/
structure Gap where
  /-- The blanks before the first line break. -/
  blanks : List Char := []
  /-- The line breaks, as they read. -/
  breaks : List Char := []
  deriving DecidableEq, Repr

namespace Gap

/-- Whether the gap holds a line break. -/
def isBroken (g : Gap) : Bool := !g.breaks.isEmpty

/-- What a gap contributes to a scalar: blanks within a line stand for themselves, a single line
feed reads as a blank, and of several breaks a line feed in front is dropped. -/
def text (g : Gap) : List Char :=
  match g.breaks with
  | [] => g.blanks
  | ['\n'] => [' ']
  | '\n' :: breaks => breaks
  | breaks => breaks

/-- The gap that begins with a line break before `g`. Blanks that follow a break are indentation. -/
def afterBreak (c : Char) (g : Gap) : Gap := { breaks := readBreak c :: g.breaks }

/-- The gap that begins with a blank before `g`. Blanks that precede a break are dropped. -/
def afterBlank (c : Char) (g : Gap) : Gap := if g.isBroken then g else { blanks := c :: g.blanks }

end Gap

/-- Reads blanks and line breaks. Once a line break was read, blanks are indentation, and a tab to
the left of the column `least` is refused. -/
def gapFrom? (least : Nat) : (broken : Bool) → Place → List Char → Option (Gap × Cursor)
  | _, p, [] => some ({}, ⟨[], p⟩)
  | _, p, '\r' :: '\n' :: rest => do
    let (gap, after) ← gapFrom? least true (p.down 2) rest
    return (gap.afterBreak '\n', after)
  | broken, p, c :: rest =>
    if isBreak c then do
      let (gap, after) ← gapFrom? least true (p.down 1) rest
      return (gap.afterBreak c, after)
    else if isBlank c then
      if broken ∧ c = '\t' ∧ p.column < least then none
      else do
        let (gap, after) ← gapFrom? least broken (p.right 1) rest
        return (if broken then gap else gap.afterBlank c, after)
    else some ({}, ⟨c :: rest, p⟩)

/-- The white space at a place, and the place after it. -/
def Cursor.gap? (c : Cursor) (least : Nat) (broken : Bool) : Option (Gap × Cursor) :=
  gapFrom? least broken c.place c.rest

/-- Passes over blanks, comments, line breaks and a byte order mark at the start of a line, which
takes up a column. A tab is passed over where no key may begin; after a line break outside flow
collections a key may begin again. -/
def skipSpaceFrom (inFlow : Bool) :
    (inComment keyAllowed : Bool) → Place → List Char → Cursor × Bool
  | _, keyAllowed, p, [] => (⟨[], p⟩, keyAllowed)
  | _, keyAllowed, p, '\r' :: '\n' :: rest =>
    skipSpaceFrom inFlow false (keyAllowed || !inFlow) (p.down 2) rest
  | inComment, keyAllowed, p, c :: rest =>
    if isBreak c then skipSpaceFrom inFlow false (keyAllowed || !inFlow) (p.down 1) rest
    else if inComment || c == '#' then skipSpaceFrom inFlow true keyAllowed (p.right 1) rest
    else if c == ' ' || (c == '\t' && (inFlow || !keyAllowed)) ||
        (c == '\ufeff' && p.column == 0) then
      skipSpaceFrom inFlow false keyAllowed (p.right 1) rest
    else (⟨c :: rest, p⟩, keyAllowed)

/-- The next place with a token, and whether a key may begin there. -/
def Cursor.skipSpace (c : Cursor) (inFlow keyAllowed : Bool) : Cursor × Bool :=
  skipSpaceFrom inFlow false keyAllowed c.place c.rest

end BlockFlow.Yaml
