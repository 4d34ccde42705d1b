import BlockFlow.Yaml.Scalar

/-!
# Plain words in YAML texts

A plain word is made of letters, digits and underscores. None of these is white space or an
indicator, so a word that stands where a token may begin is read as one plain scalar: up to the
colon after a key, or up to the end of the line after a value.
-/

namespace BlockFlow.Yaml

/-! ### Characters -/

/-- A character that has no meaning of its own in a YAML text. -/
def isPlain (c : Char) : Bool :=
  ('a' ≤ c && c ≤ 'z') || ('A' ≤ c && c ≤ 'Z') || ('0' ≤ c && c ≤ '9') || c == '_'

/-- A plain character is none of those that are not plain. -/
theorem ne_of_isPlain {c d : Char} (hc : isPlain c = true) (hd : isPlain d = false) : c ≠ d := by
  rintro rfl
  rw [hd] at hc
  cases hc

section Plain

variable {c : Char} (h : isPlain c = true)
include h

theorem isBlank_of_isPlain : isBlank c = false := by
  simp [isBlank, ne_of_isPlain h (d := ' ') rfl, ne_of_isPlain h (d := '\t') rfl]

theorem isBreak_of_isPlain : isBreak c = false := by
  simp [isBreak, ne_of_isPlain h (d := '\n') rfl, ne_of_isPlain h (d := '\r') rfl,
    ne_of_isPlain h (d := '\u0085') rfl, ne_of_isPlain h (d := '\u2028') rfl,
    ne_of_isPlain h (d := '\u2029') rfl]

theorem isFlowIndicator_of_isPlain : isFlowIndicator c = false := by
  simp [isFlowIndicator, ne_of_isPlain h (d := ',') rfl, ne_of_isPlain h (d := '[') rfl,
    ne_of_isPlain h (d := ']') rfl, ne_of_isPlain h (d := '\x7b') rfl,
    ne_of_isPlain h (d := '\x7d') rfl]

/-- Plain characters may stand in a text. -/
theorem isAllowed_of_isPlain : isAllowed c = true := by
  have hrange : ' ' ≤ c ∧ c ≤ '~' := by
    simp only [isPlain, Bool.or_eq_true, Bool.and_eq_true, decide_eq_true_eq, beq_iff_eq,
      Char.le_def, UInt32.le_iff_toNat_le] at h ⊢
    rcases h with h | rfl
    · simp at h ⊢
      omega
    · decide
  simp [isAllowed, hrange]

end Plain

/-- Whether a text is a plain word. -/
def isWord (text : String) : Bool := !text.toList.isEmpty && text.toList.all isPlain

/-- A plain word. -/
structure Word where
  chars : List Char
  nonempty : chars ≠ []
  plain : ∀ c ∈ chars, isPlain c = true

namespace Word

/-- A text that is a word. -/
def ofText (text : String) (h : isWord text = true) : Word where
  chars := text.toList
  nonempty hnil := by simp [isWord, hnil] at h
  plain := List.all_eq_true.mp (Bool.and_eq_true_iff.mp h).2

/-- The decimal digits of a number. -/
def ofNat (n : Nat) : Word where
  chars := Nat.toDigits 10 n
  nonempty := Nat.toDigits_ne_nil
  plain c hc := by
    have hdigit : c.isDigit = true := Nat.isDigit_of_mem_toDigits (by omega) (by omega) hc
    have hrange : '0' ≤ c ∧ c ≤ '9' := by simpa [Char.isDigit, Char.le_def] using hdigit
    simp [isPlain, hrange]

variable (w : Word)

/-- The text of a word. -/
def text : String := String.ofList w.chars

@[simp]
theorem text_ofText (text : String) (h : isWord text = true) : (ofText text h).text = text :=
  String.ofList_toList

@[simp]
theorem toList_text : w.text.toList = w.chars := String.toList_ofList

/-- The first character of a word, and the others. -/
theorem exists_cons : ∃ c cs, w.chars = c :: cs ∧ isPlain c = true := by
  obtain ⟨c, cs, h⟩ := List.exists_cons_of_ne_nil w.nonempty
  exact ⟨c, cs, h, w.plain c (by simp [h])⟩

end Word

/-! ### White space -/

theorem Place.right_right (p : Place) (count more : Nat) :
    (p.right count).right more = p.right (count + more) := by
  simp [right, Nat.add_assoc]

/-- A text at which reading goes on: at its end, or at a plain word. -/
def AtWord (text : List Char) : Prop := text.head?.all isPlain = true

theorem Word.atWord (w : Word) (rest : List Char) : AtWord (w.chars ++ rest) := by
  obtain ⟨c, cs, hchars, hc⟩ := w.exists_cons
  simp [AtWord, hchars, hc]

/-- No white space is passed over in front of a word. -/
theorem skipSpaceFrom_of_atWord {text : List Char} (h : AtWord text) (keyAllowed : Bool)
    (p : Place) : skipSpaceFrom false false keyAllowed p text = (⟨text, p⟩, keyAllowed) := by
  cases text with
  | nil => rfl
  | cons c rest =>
    have hc : isPlain c = true := h
    have hreturn : c ≠ '\r' := ne_of_isPlain hc rfl
    simp [skipSpaceFrom, hreturn, isBreak_of_isPlain hc, ne_of_isPlain hc (d := '#') rfl,
      ne_of_isPlain hc (d := ' ') rfl, ne_of_isPlain hc (d := '\t') rfl,
      ne_of_isPlain hc (d := '\ufeff') rfl]

/-- A blank is passed over. -/
theorem skipSpaceFrom_blank (keyAllowed : Bool) (p : Place) (text : List Char) :
    skipSpaceFrom false false keyAllowed p (' ' :: text) =
      skipSpaceFrom false false keyAllowed (p.right 1) text := by
  simp [skipSpaceFrom, isBreak]

/-- Indentation is passed over. -/
theorem skipSpaceFrom_indent {text : List Char} (h : AtWord text) (keyAllowed : Bool) (p : Place)
    (indent : Nat) :
    skipSpaceFrom false false keyAllowed p (List.replicate indent ' ' ++ text) =
      (⟨text, p.right indent⟩, keyAllowed) := by
  induction indent generalizing p with
  | zero => exact skipSpaceFrom_of_atWord h keyAllowed p
  | succ indent ih =>
    rw [List.replicate_succ, List.cons_append, skipSpaceFrom_blank, ih, Place.right_right,
      Nat.add_comm 1]

/-- After the end of a line a key may begin. -/
theorem skipSpaceFrom_newline {text : List Char} (h : AtWord text) (keyAllowed : Bool) (p : Place)
    (indent : Nat) :
    skipSpaceFrom false false keyAllowed p ('\n' :: (List.replicate indent ' ' ++ text)) =
      (⟨text, (p.down 1).right indent⟩, true) := by
  simp [skipSpaceFrom, isBreak, skipSpaceFrom_indent h]

/-- No white space is read in front of a word. -/
theorem gapFrom?_of_atWord {text : List Char} (h : AtWord text) (least : Nat) (broken : Bool)
    (p : Place) : gapFrom? least broken p text = some ({}, ⟨text, p⟩) := by
  cases text with
  | nil => simp [gapFrom?]
  | cons c rest =>
    have hc : isPlain c = true := h
    have hreturn : c ≠ '\r' := ne_of_isPlain hc rfl
    simp [gapFrom?, hreturn, isBreak_of_isPlain hc, isBlank_of_isPlain hc]

/-- Indentation is read as nothing. -/
theorem gapFrom?_indent {text : List Char} (h : AtWord text) (least : Nat) (p : Place)
    (indent : Nat) :
    gapFrom? least true p (List.replicate indent ' ' ++ text) =
      some ({}, ⟨text, p.right indent⟩) := by
  induction indent generalizing p with
  | zero => exact gapFrom?_of_atWord h least true p
  | succ indent ih =>
    simp [List.replicate_succ, gapFrom?, isBreak, isBlank, ih, Place.right_right, Nat.add_comm 1]

/-- The end of a line and the indentation after it. -/
theorem gapFrom?_newline {text : List Char} (h : AtWord text) (least : Nat) (p : Place)
    (indent : Nat) :
    gapFrom? least false p ('\n' :: (List.replicate indent ' ' ++ text)) =
      some ({ breaks := ['\n'] }, ⟨text, (p.down 1).right indent⟩) := by
  simp [gapFrom?, isBreak, gapFrom?_indent h, Gap.afterBreak, readBreak]

/-! ### Scalars -/

/-- A word is read up to where a word ends. -/
theorem plainWord?_append {cs : List Char} (h : ∀ c ∈ cs, isPlain c = true) {rest : List Char}
    (hrest : plainWord? false rest = some []) : plainWord? false (cs ++ rest) = some cs := by
  induction cs with
  | nil => exact hrest
  | cons c cs ih =>
    have hc : isPlain c = true := h c List.mem_cons_self
    have hcolon : c ≠ ':' := ne_of_isPlain hc rfl
    rw [List.cons_append, plainWord?, ih fun d hd ↦ h d (List.mem_cons_of_mem c hd)]
    simp [isBlank_of_isPlain hc, isBreak_of_isPlain hc, hcolon]

/-- No document mark begins with a word. -/
theorem Word.not_atDocumentMark (w : Word) (rest : List Char) (p : Place) :
    Cursor.atDocumentMark ⟨w.chars ++ rest, p⟩ = false := by
  obtain ⟨c, cs, hchars, hc⟩ := w.exists_cons
  have hhyphen : c ≠ '-' := ne_of_isPlain hc rfl
  have hdot : c ≠ '.' := ne_of_isPlain hc rfl
  simp [Cursor.atDocumentMark, hchars, hhyphen, hdot]

/-- A word is a scalar of its own if the white space after it is none, or leads out of the block. -/
theorem Word.plain?_append (w : Word) {rest : List Char} {least : Nat} {p : Place} {g : Gap}
    {next : Cursor} (hstop : plainWord? false rest = some [])
    (hgap : gapFrom? least false (p.right w.chars.length) rest = some (g, next))
    (hend : (g, next) = ({}, ⟨rest, p.right w.chars.length⟩) ∨
      next.place ≠ p.right w.chars.length ∧ next.place.column < least) :
    plain? false least ⟨w.chars ++ rest, p⟩ = some ⟨w.chars, next, g.isBroken⟩ := by
  have hword : plainWord? false (w.chars ++ rest) = some w.chars := plainWord?_append w.plain hstop
  have hhash : ((w.chars ++ rest).head? == some '#') = false := by
    obtain ⟨c, cs, hchars, hc⟩ := w.exists_cons
    simp [hchars, ne_of_isPlain hc (d := '#') rfl]
  have hafter : (⟨w.chars ++ rest, p⟩ : Cursor).advance w.chars.length =
      ⟨rest, p.right w.chars.length⟩ := by
    simp [Cursor.advance]
  rw [plain?, plainWords?]
  dsimp only
  rw [w.not_atDocumentMark, hhash, hword, Option.bind_eq_bind, Option.bind_some, hafter,
    Cursor.gap?, hgap]
  rcases hend with hnone | ⟨hplace, hcolumn⟩
  · obtain ⟨rfl, rfl⟩ := Prod.mk.inj hnone
    simp [w.nonempty, Gap.isBroken]
  · simp [w.nonempty, hplace, hcolumn]

/-- A word in front of a colon is a scalar. -/
theorem Word.plain?_colon (w : Word) {rest : List Char} (h : atGap rest = true) (least : Nat)
    (p : Place) :
    plain? false least ⟨w.chars ++ ':' :: rest, p⟩ =
      some ⟨w.chars, ⟨':' :: rest, p.right w.chars.length⟩, false⟩ := by
  refine w.plain?_append (g := {}) ?_ ?_ (.inl rfl)
  · simp [plainWord?, h]
  · simp [gapFrom?, isBreak, isBlank]

/-- A word at the end of a line is a scalar, if the next line is not indented by `least`. -/
theorem Word.plain?_newline (w : Word) {text : List Char} (h : AtWord text) {least indent : Nat}
    (hindent : indent < least) (p : Place) :
    plain? false least ⟨w.chars ++ '\n' :: (List.replicate indent ' ' ++ text), p⟩ =
      some ⟨w.chars, ⟨text, ((p.right w.chars.length).down 1).right indent⟩, true⟩ := by
  refine w.plain?_append ?_ (gapFrom?_newline h least _ indent) (.inr ⟨?_, ?_⟩)
  · simp [plainWord?, isBreak]
  · simp [Place.right, Place.down]
  · simpa [Place.right, Place.down] using hindent

end BlockFlow.Yaml
