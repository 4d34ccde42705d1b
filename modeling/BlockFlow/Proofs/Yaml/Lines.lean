import BlockFlow.Proofs.Yaml.Words
import BlockFlow.Yaml.Token
import Mathlib.Data.List.TakeWhile

/-!
# Scanning lines of settings

A line of settings holds a key and a colon, after an indentation, and then a value or nothing; keys
and values are plain words. Main statement: of a text of such lines the scanner makes the tokens
that the outline of the lines says. A line that is indented deeper than the one before it opens a
mapping, and one that is indented less closes the mappings that it leaves.
-/

namespace BlockFlow.Yaml

/-- A line with a key and perhaps a value. -/
structure Line where
  indent : Nat
  key : Word
  value : Option Word
  /-- A key is not so long that its colon would be out of reach. -/
  reach : key.chars.length ≤ keyReach

namespace Line

/-- What stands between the colon and the end of the line. -/
def tail (l : Line) : List Char :=
  match l.value with
  | some value => ' ' :: value.chars
  | none => []

/-- The line without its indentation. -/
def body (l : Line) : List Char := l.key.chars ++ ':' :: (l.tail ++ ['\n'])

/-- The text of a line. -/
def text (l : Line) : List Char := List.replicate l.indent ' ' ++ l.body

/-- The tokens of a line in a mapping that is open. -/
def tokens (l : Line) : List Token :=
  [.key, .scalar .plain l.key.text, .value] ++
    l.value.toList.map fun value ↦ .scalar .plain value.text

end Line

/-- The text of lines. -/
def textOf (lines : List Line) : List Char := lines.flatMap Line.text

/-- The column at which the first line begins; the first one where there is no line. -/
def firstIndent : List Line → Nat
  | [] => 0
  | l :: _ => l.indent

/-- The text of lines without the first indentation. -/
def unindentedText : List Line → List Char
  | [] => []
  | l :: lines => l.body ++ textOf lines

theorem textOf_eq (lines : List Line) :
    textOf lines = List.replicate (firstIndent lines) ' ' ++ unindentedText lines := by
  cases lines with
  | nil => rfl
  | cons l lines => simp [textOf, firstIndent, unindentedText, Line.text]

/-- Behind the indentation lines begin with a word. -/
theorem atWord_unindentedText (lines : List Line) : AtWord (unindentedText lines) := by
  cases lines with
  | nil => rfl
  | cons l lines =>
    rw [unindentedText, Line.body, List.append_assoc]
    exact l.key.atWord _

/-- Lines hold nothing that may not stand in a text. -/
theorem all_isAllowed_textOf (lines : List Line) : (textOf lines).all isAllowed = true := by
  have hword (w : Word) : w.chars.all isAllowed = true :=
    List.all_eq_true.mpr fun c hc ↦ isAllowed_of_isPlain (w.plain c hc)
  have hline (l : Line) : l.text.all isAllowed = true := by
    have htail : l.tail.all isAllowed = true := by
      unfold Line.tail
      split
      · simp [hword, isAllowed]
      · rfl
    simp [Line.text, Line.body, hword, htail, isAllowed]
  simp [textOf, List.all_flatMap, hline]

/-- The scanner has a character for each of its steps on a line. -/
theorem Line.length_value_add_two_le (l : Line) :
    l.value.toList.length + 2 ≤ l.text.length := by
  have hkey : 0 < l.key.chars.length := List.length_pos_iff.mpr l.key.nonempty
  cases hvalue : l.value with
  | none => simp [text, body, tail, hvalue]; omega
  | some w => simp [text, body, tail, hvalue]; omega

/-! ### Tokens -/

/-- Lines of which none with a value stands before one that is indented deeper. -/
def Nested : List Line → Prop
  | [] => True
  | l :: lines => (l.value.isSome = true → firstIndent lines ≤ l.indent) ∧ Nested lines

/-- The open mappings that a line at a column is in. -/
def enclosing (indents : List Nat) (column : Nat) : List Nat := indents.dropWhile (column < ·)

/-- Whether a line at a column opens a mapping. -/
def opens (indents : List Nat) (column : Nat) : Bool :=
  (enclosing indents column).head?.all (· < column)

/-- The mappings that are open after a line at a column. -/
def enter (indents : List Nat) (column : Nat) : List Nat :=
  if opens indents column then column :: enclosing indents column else enclosing indents column

/-- The tokens in front of a line at a column: mappings that it leaves, and one that it opens. -/
def turn (indents : List Nat) (column : Nat) : List Token :=
  List.replicate (indents.takeWhile (column < ·)).length .blockEnd ++
    if opens indents column then [.blockMapping] else []

/-- The tokens of lines after others that have left mappings open. -/
def outline (indents : List Nat) : List Line → List Token
  | [] => List.replicate indents.length .blockEnd
  | l :: lines => turn indents l.indent ++ l.tokens ++ outline (enter indents l.indent) lines

theorem reverse_turn (indents : List Nat) (column : Nat) :
    (turn indents column).reverse = (if opens indents column then [.blockMapping] else []) ++
      List.replicate (indents.takeWhile (column < ·)).length .blockEnd := by
  simp [turn, apply_ite List.reverse]

/-- A line is at least as deep as the mappings that it is in. -/
theorem le_of_mem_head?_enclosing {indents : List Nat} {column : Nat} :
    ∀ outer ∈ (enclosing indents column).head?, outer ≤ column := by
  intro outer houter
  have hleft := List.head?_dropWhile_not (column < ·) indents
  rw [← enclosing, houter] at hleft
  simpa using hleft

/-- After a line the innermost mapping is its own. -/
theorem head?_enter (indents : List Nat) (column : Nat) :
    (enter indents column).head? = some column := by
  unfold enter
  split
  · rfl
  · next hopens =>
    cases hhead : (enclosing indents column).head? with
    | none => simp [opens, hhead] at hopens
    | some outer =>
      have hle := le_of_mem_head?_enclosing outer hhead
      have hge : column ≤ outer := by simpa [opens, hhead] using hopens
      rw [Nat.le_antisymm hle hge]

/-! ### Steps of the scanner -/

namespace Scanner

/-- A scanner outside of flow collections, with no key in sight. -/
def between (cursor : Cursor) (keyAllowed : Bool) (indents : List Nat) (tokens : List Token) :
    Scanner :=
  { cursor, indents, keyAllowed, tokens, count := tokens.length }

/-- A scanner behind a scalar, the last of its tokens, that stands at the given place and may be a
key. -/
def behindKey (cursor : Cursor) (p : Place) (indents : List Nat) (scalar : Token)
    (tokens : List Token) : Scanner where
  cursor := cursor
  indents := indents
  keyAllowed := false
  keyMark := some {
    tokens := tokens.length, required := indents.head? == some p.column, place := p }
  tokens := scalar :: tokens
  count := tokens.length + 1

/-- Mappings are closed from the innermost one on. -/
theorem closeWhile_between (left : Nat → Bool) (c : Cursor) (keyAllowed : Bool) (indents : List Nat)
    (tokens : List Token) :
    closeWhile left indents (between c keyAllowed indents tokens) =
      between c keyAllowed (indents.dropWhile left)
        (List.replicate (indents.takeWhile left).length .blockEnd ++ tokens) := by
  induction indents generalizing tokens with
  | nil => rfl
  | cons column outer ih =>
    by_cases hleft : left column = true
    · have hclosed := ih (.blockEnd :: tokens)
      simp only [between, List.length_cons] at hclosed
      rw [closeWhile, if_pos hleft]
      simp [between, emit, hclosed, hleft, List.replicate_succ']
    · simp [closeWhile, hleft]

/-- Nothing is closed where the innermost mapping stays open. -/
theorem closeWhile_of_head {left : Nat → Bool} {indents : List Nat}
    (h : ∀ column ∈ indents.head?, left column = false) (s : Scanner) :
    closeWhile left indents s = s := by
  cases indents with
  | nil => rfl
  | cons column outer => simp [closeWhile, h column rfl]

/-- White space is passed over between tokens. -/
theorem refreshMarks?_between {c c' : Cursor} {keyAllowed keyAllowed' : Bool}
    (h : c.skipSpace false keyAllowed = (c', keyAllowed')) (indents : List Nat)
    (tokens : List Token) :
    (between c keyAllowed indents tokens).skipSpace.refreshMarks? =
      some (between c' keyAllowed' indents tokens) := by
  simp [between, skipSpace, inFlow, h, refreshMarks?, refreshMark?]

/-- A word is a plain scalar. -/
theorem token?_of_isPlain {s : Scanner} {c : Char} {rest : List Char} (hc : isPlain c = true)
    (hmark : s.cursor.atDocumentMark = false) : s.token? c rest = s.plainScalar? := by
  have hgrave : c.toNat ≠ 0x60 := by
    intro h
    have hplain : isPlain (Char.ofNat c.toNat) = true := by rwa [Char.ofNat_toNat]
    rw [h] at hplain
    cases hplain
  have hindicator : isIndicator c = false := by
    simp [isIndicator, isFlowIndicator_of_isPlain hc, isBlank_of_isPlain hc, isBreak_of_isPlain hc,
      ne_of_isPlain hc (d := '#') rfl, ne_of_isPlain hc (d := '&') rfl,
      ne_of_isPlain hc (d := '*') rfl, ne_of_isPlain hc (d := '!') rfl,
      ne_of_isPlain hc (d := '|') rfl, ne_of_isPlain hc (d := '>') rfl,
      ne_of_isPlain hc (d := '%') rfl, ne_of_isPlain hc (d := '@') rfl, hgrave]
  simp [token?, hmark, ne_of_isPlain hc (d := '[') rfl, ne_of_isPlain hc (d := '\x7b') rfl,
    ne_of_isPlain hc (d := ']') rfl, ne_of_isPlain hc (d := '\x7d') rfl,
    ne_of_isPlain hc (d := ',') rfl, ne_of_isPlain hc (d := '-') rfl,
    ne_of_isPlain hc (d := '?') rfl, ne_of_isPlain hc (d := ':') rfl,
    ne_of_isPlain hc (d := '\'') rfl, ne_of_isPlain hc (d := '"') rfl, hindicator]

/-- A word is read as a scalar in the mappings that its column lies in. -/
theorem scanFrom?_word (w : Word) {rest : List Char} {c : Cursor} {p : Place}
    {keyAllowed keyAllowed' : Bool}
    (h : c.skipSpace false keyAllowed = (⟨w.chars ++ rest, p⟩, keyAllowed'))
    (indents : List Nat) (tokens : List Token) (fuel : Nat) :
    scanFrom? (fuel + 1) (between c keyAllowed indents tokens) =
      (between ⟨w.chars ++ rest, p⟩ keyAllowed' (enclosing indents p.column)
        (List.replicate (indents.takeWhile (p.column < ·)).length .blockEnd ++
          tokens)).plainScalar?.bind (scanFrom? fuel) := by
  obtain ⟨first, others, hchars, hfirst⟩ := w.exists_cons
  have hmark := w.not_atDocumentMark rest p
  rw [hchars, List.cons_append] at h hmark ⊢
  rw [scanFrom?, refreshMarks?_between h, Option.bind_eq_bind, Option.bind_some]
  have hclose : (between ⟨first :: (others ++ rest), p⟩ keyAllowed' indents tokens).closeBlocks
      p.column = _ := closeWhile_between (p.column < ·) _ keyAllowed' indents tokens
  change ((closeBlocks _ p.column).token? first (others ++ rest)).bind _ = _
  rw [hclose, token?_of_isPlain hfirst hmark]
  rfl

/-- A key is a scalar at a place that is marked. -/
theorem plainScalar?_key (w : Word) {rest : List Char} (hrest : atGap rest = true) (p : Place)
    (indents : List Nat) (tokens : List Token) :
    (between ⟨w.chars ++ ':' :: rest, p⟩ true indents tokens).plainScalar? =
      some (behindKey ⟨':' :: rest, p.right w.chars.length⟩ p indents (.scalar .plain w.text)
        tokens) := by
  simp [plainScalar?, scalar?, saveMark?, dropMark?, between, behindKey, inFlow,
    w.plain?_colon hrest, emit, Word.text]

/-- A value is a scalar up to the end of its line. -/
theorem plainScalar?_value (w : Word) {text : List Char} (htext : AtWord text) {indent : Nat}
    (p : Place) {column : Nat} (hindent : indent ≤ column) (outer : List Nat)
    (tokens : List Token) :
    (between ⟨w.chars ++ '\n' :: (List.replicate indent ' ' ++ text), p⟩ false (column :: outer)
      tokens).plainScalar? = some (between
        ⟨text, ((p.right w.chars.length).down 1).right indent⟩ true (column :: outer)
        (.scalar .plain w.text :: tokens)) := by
  simp [plainScalar?, scalar?, saveMark?, between, inFlow, continuation,
    w.plain?_newline htext (Nat.lt_succ_of_le hindent), emit, Word.text]

/-- A colon puts the key in front of its scalar, and a mapping in front of the key if it is the
first one at its column. -/
theorem value?_behindKey (c : Cursor) (p : Place) (indents : List Nat) (scalar : Token)
    (tokens : List Token) :
    (behindKey c p indents scalar tokens).value? =
      let isFirst := indents.head?.all (· < p.column)
      some (between (c.advance 1) false (if isFirst then p.column :: indents else indents)
        (.value :: scalar :: .key :: ((if isFirst then [.blockMapping] else []) ++ tokens))) := by
  by_cases hfirst : indents.head?.all (· < p.column) = true
  · simp [value?, behindKey, insertKey, openBlock, inFlow, isDeeper, emit, between, advance, hfirst]
  · simp [value?, behindKey, insertKey, openBlock, inFlow, isDeeper, emit, between, advance, hfirst]

/-- The colon after a key is found, unless the key is too long. -/
theorem scanFrom?_colon {rest : List Char} (hrest : atGap rest = true) {p : Place} {length : Nat}
    (hlength : length ≤ keyReach) {indents : List Nat}
    (hindents : ∀ column ∈ indents.head?, column ≤ p.column) (scalar : Token)
    (tokens : List Token) (fuel : Nat) :
    scanFrom? (fuel + 1) (behindKey ⟨':' :: rest, p.right length⟩ p indents scalar tokens) =
      let isFirst := indents.head?.all (· < p.column)
      scanFrom? fuel (between ⟨rest, p.right (length + 1)⟩ false
        (if isFirst then p.column :: indents else indents)
        (.value :: scalar :: .key :: ((if isFirst then [.blockMapping] else []) ++ tokens))) := by
  let s := behindKey ⟨':' :: rest, p.right length⟩ p indents scalar tokens
  have hspace : s.skipSpace = s := by
    simp [s, behindKey, skipSpace, Cursor.skipSpace, skipSpaceFrom, isBreak]
  have hmarks : s.refreshMarks? = some s := by
    simp [s, behindKey, refreshMarks?, refreshMark?, reaches, Place.right, hlength]
  have hclose : s.closeBlocks (p.right length).column = s := by
    apply closeWhile_of_head
    intro column hcolumn
    have hle : column ≤ (p.right length).column :=
      Nat.le_trans (hindents column hcolumn) (Nat.le_add_right p.column length)
    simpa using hle
  have htoken : s.token? ':' rest = s.value? := by
    simp [s, behindKey, token?, Cursor.atDocumentMark, hrest]
  change scanFrom? (fuel + 1) s = _
  rw [scanFrom?, hspace, hmarks, Option.bind_eq_bind, Option.bind_some]
  change ((s.closeBlocks (p.right length).column).token? ':' rest).bind _ = _
  rw [hclose, htoken, value?_behindKey, Option.bind_some]
  rfl

/-! ### Line by line -/

/-- The cursor is in front of lines, of which it may have passed the first indentation. -/
def Faces (c : Cursor) (keyAllowed : Bool) (lines : List Line) : Prop :=
  ∃ p, c.skipSpace false keyAllowed = (⟨unindentedText lines, p⟩, true) ∧
    p.column = firstIndent lines

namespace Faces

variable (lines : List Line)

theorem start : Faces ⟨textOf lines, {}⟩ true lines := by
  refine ⟨Place.right {} (firstIndent lines), ?_, by simp [Place.right]⟩
  rw [textOf_eq]
  exact skipSpaceFrom_indent (atWord_unindentedText lines) true {} (firstIndent lines)

theorem newline (keyAllowed : Bool) (p : Place) :
    Faces ⟨'\n' :: textOf lines, p⟩ keyAllowed lines := by
  refine ⟨(p.down 1).right (firstIndent lines), ?_, by simp [Place.right, Place.down]⟩
  rw [textOf_eq]
  exact skipSpaceFrom_newline (atWord_unindentedText lines) keyAllowed p (firstIndent lines)

theorem indented {p : Place} (h : p.column = firstIndent lines) :
    Faces ⟨unindentedText lines, p⟩ true lines :=
  ⟨p, skipSpaceFrom_of_atWord (atWord_unindentedText lines) true p, h⟩

end Faces

/-- The value of a line is read up to the next line. -/
theorem scanFrom?_value (w : Word) {lines : List Line} {column : Nat} {p : Place}
    (hcolumn : column ≤ p.column) (hnested : firstIndent lines ≤ column) {indents : List Nat}
    (hindents : indents.head? = some column) (tokens : List Token) (fuel : Nat) :
    ∃ c, Faces c true lines ∧
      scanFrom? (fuel + 1)
        (between ⟨' ' :: (w.chars ++ '\n' :: textOf lines), p⟩ false indents tokens) =
      scanFrom? fuel (between c true indents (.scalar .plain w.text :: tokens)) := by
  obtain ⟨outer, rfl⟩ := List.head?_eq_some_iff.mp hindents
  have hspace : (⟨' ' :: (w.chars ++ '\n' :: textOf lines), p⟩ : Cursor).skipSpace false false =
      (⟨w.chars ++ '\n' :: textOf lines, p.right 1⟩, false) := by
    rw [Cursor.skipSpace, skipSpaceFrom_blank]
    exact skipSpaceFrom_of_atWord (w.atWord _) false _
  have hkept : ¬(p.right 1).column < column :=
    Nat.not_lt.mpr (Nat.le_trans hcolumn (Nat.le_add_right p.column 1))
  have hread := plainScalar?_value w (atWord_unindentedText lines) (p.right 1) hnested outer tokens
  rw [← textOf_eq] at hread
  have hnext : ((((p.right 1).right w.chars.length).down 1).right (firstIndent lines)).column =
      firstIndent lines := by
    simp [Place.right, Place.down]
  refine ⟨_, Faces.indented lines hnext, ?_⟩
  rw [scanFrom?_word w hspace]
  simp only [enclosing, List.dropWhile_cons, List.takeWhile_cons, hkept, decide_false,
    Bool.false_eq_true, if_false, List.length_nil, List.replicate_zero, List.nil_append]
  rw [hread, Option.bind_some]

/-- A line is read up to its colon. -/
theorem scanFrom?_key {l : Line} {lines : List Line} {c : Cursor} {keyAllowed : Bool}
    (h : Faces c keyAllowed (l :: lines)) (indents : List Nat) (tokens : List Token) (fuel : Nat) :
    ∃ p : Place, l.indent ≤ p.column ∧
      scanFrom? (fuel + 2) (between c keyAllowed indents tokens) =
        scanFrom? fuel (between ⟨l.tail ++ '\n' :: textOf lines, p⟩ false (enter indents l.indent)
          (.value :: .scalar .plain l.key.text :: .key ::
            ((turn indents l.indent).reverse ++ tokens))) := by
  obtain ⟨p, hspace, hcolumn⟩ := h
  have htext : unindentedText (l :: lines) =
      l.key.chars ++ ':' :: (l.tail ++ '\n' :: textOf lines) := by
    simp [unindentedText, Line.body]
  have hgap : atGap (l.tail ++ '\n' :: textOf lines) = true := by
    unfold Line.tail
    cases l.value <;> rfl
  rw [htext] at hspace
  have hindent : l.indent = p.column := hcolumn.symm
  refine ⟨p.right (l.key.chars.length + 1), ?_, ?_⟩
  · rw [hindent]
    exact Nat.le_add_right _ _
  · rw [scanFrom?_word l.key hspace, plainScalar?_key l.key hgap, Option.bind_some,
      scanFrom?_colon hgap l.reach le_of_mem_head?_enclosing, reverse_turn, List.append_assoc,
      hindent]
    rfl

/-- A line is left with its tokens, in front of the next one. -/
theorem scanFrom?_line {l : Line} {lines : List Line} {c : Cursor} {keyAllowed : Bool}
    (h : Faces c keyAllowed (l :: lines))
    (hnested : l.value.isSome = true → firstIndent lines ≤ l.indent) (indents : List Nat)
    (tokens : List Token) (fuel : Nat) :
    ∃ c' keyAllowed', Faces c' keyAllowed' lines ∧
      scanFrom? (fuel + l.value.toList.length + 2) (between c keyAllowed indents tokens) =
        scanFrom? fuel (between c' keyAllowed' (enter indents l.indent)
          (l.tokens.reverse ++ ((turn indents l.indent).reverse ++ tokens))) := by
  obtain ⟨p, hp, hkey⟩ := scanFrom?_key h indents tokens (fuel + l.value.toList.length)
  rw [hkey]
  cases hvalue : l.value with
  | none =>
    refine ⟨_, false, Faces.newline lines false p, ?_⟩
    simp [Line.tail, Line.tokens, hvalue]
  | some w =>
    obtain ⟨c', hfaces, hread⟩ := scanFrom?_value w hp (hnested (by simp [hvalue]))
      (head?_enter indents l.indent) (.value :: .scalar .plain l.key.text :: .key ::
        ((turn indents l.indent).reverse ++ tokens)) fuel
    refine ⟨c', true, hfaces, ?_⟩
    simp [Line.tail, Line.tokens, hvalue, hread]

/-- At the end all mappings are closed. -/
theorem scanFrom?_end {c : Cursor} {keyAllowed : Bool} (h : Faces c keyAllowed [])
    (indents : List Nat) (tokens : List Token) (fuel : Nat) :
    scanFrom? (fuel + 1) (between c keyAllowed indents tokens) =
      some (tokens.reverse ++ outline indents []) := by
  obtain ⟨p, hspace, -⟩ := h
  have hclose : (between ⟨[], p⟩ true indents tokens).closeAllBlocks =
      between ⟨[], p⟩ true [] (List.replicate indents.length .blockEnd ++ tokens) := by
    have hall := closeWhile_between (fun _ ↦ true) ⟨[], p⟩ true indents tokens
    rwa [List.dropWhile_eq_nil_iff.mpr (by simp), List.takeWhile_eq_self_iff.mpr (by simp)] at hall
  rw [scanFrom?, refreshMarks?_between hspace, Option.bind_eq_bind, Option.bind_some]
  change (closeAllBlocks _).dropMark?.bind _ = _
  rw [unindentedText, hclose]
  simp [dropMark?, between, outline]

/-- Lines are left with their tokens. Each of them is in front of the scanner when its turn comes,
and the text of the lines that are left has a character for each step still to be made. -/
theorem scanFrom?_lines {lines : List Line} (hnested : Nested lines) {c : Cursor}
    {keyAllowed : Bool} (h : Faces c keyAllowed lines) (indents : List Nat) (tokens : List Token)
    {fuel : Nat} (hfuel : (textOf lines).length < fuel) :
    scanFrom? fuel (between c keyAllowed indents tokens) =
      some (tokens.reverse ++ outline indents lines) := by
  induction lines generalizing c keyAllowed indents tokens fuel with
  | nil =>
    obtain ⟨fuel, rfl⟩ := Nat.exists_eq_add_of_lt hfuel
    exact scanFrom?_end h indents tokens _
  | cons l lines ih =>
    have hlength : (textOf lines).length + (l.value.toList.length + 2) ≤
        (textOf (l :: lines)).length := by
      have hline := l.length_value_add_two_le
      simp only [textOf, List.flatMap_cons, List.length_append]
      omega
    obtain ⟨more, rfl⟩ : ∃ more, fuel = more + l.value.toList.length + 2 :=
      ⟨fuel - (l.value.toList.length + 2), by omega⟩
    obtain ⟨c', keyAllowed', hfaces, hline⟩ := scanFrom?_line h hnested.1 indents tokens more
    rw [hline, ih hnested.2 hfaces _ _ (by omega), outline]
    simp

end Scanner

/-- The tokens of a text of lines. -/
theorem scan?_textOf {lines : List Line} (h : Nested lines) :
    Token.scan? (String.ofList (textOf lines)) = some (outline [] lines) := by
  have hscan := Scanner.scanFrom?_lines h (.start lines) [] [] (Nat.lt_succ_self _)
  rw [Token.scan?, String.toList_ofList, all_isAllowed_textOf]
  exact hscan

end BlockFlow.Yaml
