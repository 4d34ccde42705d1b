import BlockFlow.Yaml.Scalar

/-!
# YAML tokens

A YAML text is cut into tokens: indicators, scalars, and marks for the collections that indentation
opens and closes. A mapping written without indicators shows itself only at the colon after its
first key, so the scanner remembers where a key may have begun and goes back to mark it.

The texts understood here have block and flow collections, plain and quoted scalars, comments and
the two document marks. Directives, tags, anchors, aliases and block scalars are refused.
-/

namespace BlockFlow.Yaml

/-- How a scalar is written. -/
inductive Style where
  | plain
  | quoted
  deriving DecidableEq, Repr

/-- A token. -/
inductive Token where
  | documentStart
  | documentEnd
  /-- A sequence or a mapping that indentation opens, and the end of either. -/
  | blockSequence
  | blockMapping
  | blockEnd
  | flowSequence
  | flowSequenceEnd
  | flowMapping
  | flowMappingEnd
  /-- A comma of a flow collection. -/
  | flowEntry
  /-- A hyphen of a block sequence. -/
  | blockEntry
  | key
  | value
  | scalar (style : Style) (text : String)
  deriving DecidableEq, Repr

/-- A place where a key may have begun. -/
structure KeyMark where
  /-- The number of tokens before it. -/
  tokens : Nat
  /-- Whether nothing but a key can stand there. -/
  required : Bool
  place : Place
  deriving Repr

/-- The longest distance between a key and its colon. -/
def keyReach : Nat := 1024

/-- A scanner at work. -/
structure Scanner where
  cursor : Cursor
  /-- The columns of the open block collections, innermost first. -/
  indents : List Nat := []
  /-- Whether a key may begin here. -/
  keyAllowed : Bool := true
  /-- Where a key may have begun at this level of flow collections. -/
  keyMark : Option KeyMark := none
  /-- The marks of the enclosing levels, innermost first: one for each open flow collection. -/
  outerMarks : List (Option KeyMark) := []
  /-- The tokens so far, the last one first. -/
  tokens : List Token := []
  /-- Their number. -/
  count : Nat := 0

namespace Scanner

/-- Whether a flow collection is open. -/
def inFlow (s : Scanner) : Bool := !s.outerMarks.isEmpty

/-- Adds a token. -/
def emit (s : Scanner) (token : Token) : Scanner :=
  { s with tokens := token :: s.tokens, count := s.count + 1 }

/-- Passes over characters of one line. -/
def advance (s : Scanner) (count : Nat) : Scanner := { s with cursor := s.cursor.advance count }

/-- Whether a column lies deeper than all open block collections. -/
def isDeeper (s : Scanner) (column : Nat) : Bool := s.indents.head?.all (· < column)

/-- Opens a block collection at a column that lies deeper. -/
def openBlock (s : Scanner) (column : Nat) (token : Token) : Scanner :=
  if !s.inFlow && s.isDeeper column then { s.emit token with indents := column :: s.indents }
  else s

/-- Closes the block collections of the columns that satisfy `left`. -/
def closeWhile (left : Nat → Bool) : List Nat → Scanner → Scanner
  | column :: outer, s =>
    if left column then closeWhile left outer { s.emit .blockEnd with indents := outer } else s
  | [], s => s

/-- Closes the block collections to the right of a column. -/
def closeBlocks (s : Scanner) (column : Nat) : Scanner :=
  if s.inFlow then s else closeWhile (column < ·) s.indents s

/-- Closes all block collections. -/
def closeAllBlocks (s : Scanner) : Scanner :=
  if s.inFlow then s else closeWhile (fun _ ↦ true) s.indents s

/-- Gives up the mark of this level, unless a key is required there. -/
def dropMark? (s : Scanner) : Option Scanner :=
  if s.keyMark.any KeyMark.required then none else some { s with keyMark := none }

/-- Marks this place, if a key may begin here. -/
def saveMark? (s : Scanner) : Option Scanner :=
  if s.keyAllowed then do
    let place := s.cursor.place
    let required := !s.inFlow && s.indents.head? == some place.column
    let s ← s.dropMark?
    return { s with keyMark := some { tokens := s.count, required, place } }
  else some s

/-- Whether a mark is on this line and not too far back. -/
def reaches (s : Scanner) (mark : KeyMark) : Bool :=
  let place := s.cursor.place
  mark.place.line == place.line && place.index ≤ mark.place.index + keyReach

/-- Gives up a mark that is out of reach, unless a key is required there. -/
def refreshMark? (s : Scanner) : Option KeyMark → Option (Option KeyMark)
  | none => some none
  | some mark =>
    if s.reaches mark then some (some mark)
    else if mark.required then none
    else some none

/-- Gives up all marks that are out of reach. -/
def refreshMarks? (s : Scanner) : Option Scanner := do
  let keyMark ← s.refreshMark? s.keyMark
  let outerMarks ← s.outerMarks.mapM s.refreshMark?
  return { s with keyMark, outerMarks }

/-- Goes on to the next token. -/
def skipSpace (s : Scanner) : Scanner :=
  let (cursor, keyAllowed) := s.cursor.skipSpace s.inFlow s.keyAllowed
  { s with cursor, keyAllowed }

/-- A document mark closes all blocks. -/
def documentMark? (s : Scanner) (token : Token) : Option Scanner := do
  let s ← s.closeAllBlocks.dropMark?
  return { s with keyAllowed := false }.advance 3 |>.emit token

/-- The opening bracket of a flow collection. -/
def openFlow? (s : Scanner) (token : Token) : Option Scanner := do
  let s ← s.saveMark?
  let s := { s with outerMarks := s.keyMark :: s.outerMarks, keyMark := none, keyAllowed := true }
  return s.advance 1 |>.emit token

/-- The closing bracket of a flow collection. -/
def closeFlow? (s : Scanner) (token : Token) : Option Scanner := do
  let s ← s.dropMark?
  let s :=
    match s.outerMarks with
    | mark :: outer => { s with keyMark := mark, outerMarks := outer }
    | [] => s
  return { s with keyAllowed := false }.advance 1 |>.emit token

/-- The comma of a flow collection. -/
def flowEntry? (s : Scanner) : Option Scanner := do
  let s ← s.dropMark?
  return { s with keyAllowed := true }.advance 1 |>.emit .flowEntry

/-- The hyphen of a block sequence. -/
def blockEntry? (s : Scanner) : Option Scanner := do
  guard (s.inFlow || s.keyAllowed)
  let s ← (s.openBlock s.cursor.place.column .blockSequence).dropMark?
  return { s with keyAllowed := true }.advance 1 |>.emit .blockEntry

/-- The question mark before a key. -/
def key? (s : Scanner) : Option Scanner := do
  guard (s.inFlow || s.keyAllowed)
  let s ← (s.openBlock s.cursor.place.column .blockMapping).dropMark?
  return { s with keyAllowed := !s.inFlow }.advance 1 |>.emit .key

/-- Puts a key, and the mapping that it opens, before the tokens since a mark. -/
def insertKey (s : Scanner) (mark : KeyMark) : Scanner :=
  let since := s.count - mark.tokens
  let before := { s with tokens := s.tokens.drop since, count := mark.tokens }
  let opened := (before.openBlock mark.place.column .blockMapping).emit .key
  { opened with tokens := s.tokens.take since ++ opened.tokens, count := opened.count + since }

/-- The colon between a key and its value. -/
def value? (s : Scanner) : Option Scanner :=
  match s.keyMark with
  | some mark =>
    let s := s.insertKey mark
    some ({ s with keyMark := none, keyAllowed := false }.advance 1 |>.emit .value)
  | none => do
    guard (s.inFlow || s.keyAllowed)
    let s := s.openBlock s.cursor.place.column .blockMapping
    return { s with keyAllowed := !s.inFlow }.advance 1 |>.emit .value

/-- A scalar, which may be a key. After a plain scalar that ends with its line a key may begin. -/
def scalar? (s : Scanner) (style : Style) (read : Cursor → Option Scanned) : Option Scanner := do
  let s ← s.saveMark?
  let scanned ← read s.cursor
  let s := { s with cursor := scanned.after, keyAllowed := scanned.broken }
  return s.emit (.scalar style (String.ofList scanned.text))

/-- The least column of the further lines of a plain scalar. -/
def continuation (s : Scanner) : Nat :=
  match s.indents with
  | column :: _ => column + 1
  | [] => 0

/-- A plain scalar. -/
def plainScalar? (s : Scanner) : Option Scanner :=
  s.scalar? .plain (plain? s.inFlow s.continuation)

/-- Whether a character cannot begin a plain scalar. -/
def isIndicator (c : Char) : Bool :=
  isFlowIndicator c || isBlank c || isBreak c ||
    c == '#' || c == '&' || c == '*' || c == '!' || c == '|' || c == '>' || c == '%' || c == '@' ||
    c.toNat == 0x60

/-- The token at a place that is not at the end and has no white space before it. -/
def token? (s : Scanner) (c : Char) (rest : List Char) : Option Scanner :=
  if s.cursor.atDocumentMark then
    s.documentMark? (if c = '-' then .documentStart else .documentEnd)
  else if c = '[' then s.openFlow? .flowSequence
  else if c = '\x7b' then s.openFlow? .flowMapping
  else if c = ']' then s.closeFlow? .flowSequenceEnd
  else if c = '\x7d' then s.closeFlow? .flowMappingEnd
  else if c = ',' then s.flowEntry?
  else if c = '-' && atGap rest then s.blockEntry?
  else if c = '?' && (s.inFlow || atGap rest) then s.key?
  else if c = ':' && (s.inFlow || atGap rest) then s.value?
  else if c = '\'' then s.scalar? .quoted (quoted? .single)
  else if c = '"' then s.scalar? .quoted (quoted? .double)
  else if isIndicator c then none
  else s.plainScalar?

/-- Scans to the end of the text. -/
def scanFrom? : (fuel : Nat) → Scanner → Option (List Token)
  | 0, _ => none
  | fuel + 1, s => do
    let s ← s.skipSpace.refreshMarks?
    match s.cursor.rest with
    | [] => return (← s.closeAllBlocks.dropMark?).tokens.reverse
    | c :: rest => scanFrom? fuel (← (s.closeBlocks s.cursor.place.column).token? c rest)

end Scanner

/-- The tokens of a text. -/
def Token.scan? (text : String) : Option (List Token) := do
  let cs := text.toList
  guard (cs.all isAllowed)
  Scanner.scanFrom? (cs.length + 1) { cursor := { rest := cs } }

end BlockFlow.Yaml
