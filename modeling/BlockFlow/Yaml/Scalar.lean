import BlockFlow.Text.Digits
import BlockFlow.Yaml.Cursor

/-!
# YAML scalars

A plain scalar ends where white space, a comment or an indicator ends it; a quoted scalar ends at
its closing quote. Both may run over several lines, which are then folded together.
-/

namespace BlockFlow.Yaml

/-- An indicator of flow collections. -/
def isFlowIndicator (c : Char) : Bool :=
  c == ',' || c == '[' || c == ']' || c == '\x7b' || c == '\x7d'

/-- Whether a colon before this text would be taken for a misplaced one in a flow collection. -/
def atMisplaced : List Char → Bool
  | c :: _ => isFlowIndicator c || c == '?'
  | [] => false

/-- The characters of a plain scalar up to white space or an indicator. A colon ends it before white
space; in a flow collection the indicators of flow collections do too. -/
def plainWord? (inFlow : Bool) : List Char → Option (List Char)
  | [] => some []
  | c :: rest =>
    if isBlank c || isBreak c then some []
    else if inFlow && c == ':' && atMisplaced rest then none
    else if c == ':' && atGap rest then some []
    else if inFlow && isFlowIndicator c then some []
    else (plainWord? inFlow rest).map (c :: ·)

/-- A scalar that has been read. -/
structure Scanned where
  text : List Char
  /-- The place after the scalar and the white space read with it. -/
  after : Cursor
  /-- Whether that white space holds a line break. -/
  broken : Bool

/-- The words of a plain scalar. `pending` is what the gap before this place contributes if another
word follows, and `broken` whether that gap holds a line break. Lines of a block scalar have to be
indented by at least `least`. -/
def plainWords? (inFlow : Bool) (least : Nat) :
    (fuel : Nat) → (pending : List Char) → (broken : Bool) → Cursor → Option Scanned
  | 0, _, _, _ => none
  | fuel + 1, pending, broken, c =>
    if c.atDocumentMark || c.rest.head? == some '#' then some ⟨[], c, broken⟩
    else do
      let word ← plainWord? inFlow c.rest
      if word.isEmpty then return ⟨[], c, broken⟩
      let afterWord := c.advance word.length
      let (gap, next) ← afterWord.gap? least false
      let read := pending ++ word
      if next.place == afterWord.place then return ⟨read, afterWord, false⟩
      else if !inFlow && next.place.column < least then return ⟨read, next, gap.isBroken⟩
      else
        let more ← plainWords? inFlow least fuel gap.text gap.isBroken next
        return { more with text := read ++ more.text }

/-- A plain scalar. -/
def plain? (inFlow : Bool) (least : Nat) (c : Cursor) : Option Scanned :=
  plainWords? inFlow least (c.rest.length + 1) [] false c

/-- The character of a code point given by hexadecimal digits. Surrogates are refused. -/
def codePoint? (digits : List Char) : Option Char := do
  let code ← Text.number? 16 digits
  guard code.isValidChar
  return Char.ofNat code

/-- The character that a one-letter escape stands for. -/
def escaped? : Char → Option Char
  | '0' => some '\x00'
  | 'a' => some '\x07'
  | 'b' => some '\x08'
  | 't' => some '\t'
  | '\t' => some '\t'
  | 'n' => some '\n'
  | 'v' => some '\x0b'
  | 'f' => some '\x0c'
  | 'r' => some '\r'
  | 'e' => some '\x1b'
  | ' ' => some ' '
  | '"' => some '"'
  | '/' => some '/'
  | '\\' => some '\\'
  | 'N' => some '\u0085'
  | '_' => some '\u00a0'
  | 'L' => some '\u2028'
  | 'P' => some '\u2029'
  | _ => none

/-- The number of hexadecimal digits that follow a letter. -/
def hexLength? : Char → Option Nat
  | 'x' => some 2
  | 'u' => some 4
  | 'U' => some 8
  | _ => none

/-- The character of the escape whose backslash was read, and the number of characters it takes. -/
def escapeAt? : List Char → Option (Char × Nat)
  | [] => none
  | e :: rest =>
    match hexLength? e with
    | some length => do
      guard (length ≤ rest.length)
      return (← codePoint? (rest.take length), length + 1)
    | none => (escaped? e).map (·, 1)

/-- The kind of quote around a scalar. -/
inductive Quote where
  | single
  | double
  deriving DecidableEq, Repr

/-- The character of a quote. -/
def Quote.char : Quote → Char
  | single => '\''
  | double => '"'

/-- The text of a quoted scalar up to white space, an escaped line break or the closing quote, and
the number of characters it takes. -/
def quotedRun? (q : Quote) : (fuel : Nat) → List Char → Option (List Char × Nat)
  | 0, _ => some ([], 0)
  | _ + 1, [] => some ([], 0)
  | fuel + 1, c :: rest =>
    if isBlank c || isBreak c then some ([], 0)
    else if q = .single ∧ c = '\'' ∧ rest.head? = some '\'' then do
      let (text, length) ← quotedRun? q fuel (rest.drop 1)
      return (c :: text, length + 2)
    else if c = q.char then some ([], 0)
    else if q = .double ∧ c = '\\' then
      if rest.head?.any isBreak then some ([], 0)
      else do
        let (d, width) ← escapeAt? rest
        let (text, length) ← quotedRun? q fuel (rest.drop width)
        return (d :: text, length + width + 1)
    else do
      let (text, length) ← quotedRun? q fuel rest
      return (c :: text, length + 1)

/-- The rest of a quoted scalar, and the place after its closing quote. An escaped line break and
the indentation after it are dropped. -/
def quotedRuns? (q : Quote) : (fuel : Nat) → Cursor → Option (List Char × Cursor)
  | 0, _ => none
  | fuel + 1, c =>
    if c.atDocumentMark then none
    else do
      let (text, length) ← quotedRun? q c.rest.length c.rest
      let c := c.advance length
      let d :: _ := c.rest | none
      if d = q.char then return (text, c.advance 1)
      else if d = '\\' then
        let (gap, next) ← (c.advance 1).skipBreak.gap? 0 true
        let (more, after) ← quotedRuns? q fuel next
        return (text ++ gap.breaks ++ more, after)
      else
        let (gap, next) ← c.gap? 0 false
        let (more, after) ← quotedRuns? q fuel next
        return (text ++ gap.text ++ more, after)

/-- A quoted scalar, from its opening quote on. -/
def quoted? (q : Quote) (c : Cursor) : Option Scanned := do
  let (text, after) ← quotedRuns? q (c.rest.length + 1) (c.advance 1)
  return ⟨text, after, false⟩

end BlockFlow.Yaml
