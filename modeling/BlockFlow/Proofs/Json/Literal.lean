import Mathlib.Data.List.Basic
import Mathlib.Data.Option.Basic
import BlockFlow.Json.Reader

/-!
# Spelled texts and numbers are read back

A text is spelled character by character, and no spelling of a character is ended by a quote before
its own end. So the reader finds the closing quote where the printer put it, and the spelling means
the text that was spelled. A natural number is spelled with digits alone and no leading zero, so the
reader takes all of it, and its digits have its value.
-/

namespace BlockFlow

/-- A map over a list gives what it gives on each member. -/
theorem mapM_eq_some_map {α β : Type} {f : α → Option β} {g : α → β} {xs : List α}
    (h : ∀ x ∈ xs, f x = some (g x)) : xs.mapM f = some (xs.map g) := by
  induction xs with
  | nil => rfl
  | cons x xs ih => simp [h x (by simp), ih fun y hy ↦ h y (by simp [hy])]

/-- A map that undoes another restores the list. -/
theorem mapM_map_eq_some {α β : Type} {f : β → Option α} {g : α → β} {xs : List α}
    (h : ∀ x ∈ xs, f (g x) = some x) : (xs.map g).mapM f = some xs :=
  calc (xs.map g).mapM f
    _ = xs.mapM (f ∘ g) := List.mapM_map
    _ = some (xs.map id) := mapM_eq_some_map h
    _ = some xs := by rw [List.map_id]

namespace Json

/-! ### Characters -/

/-- The ways to spell a character between quotes: an escape with a letter, an escape with the digits
of a control character, or the character itself. -/
inductive Spelling (c : Char) : List Char → Prop
  | letter (e : Char) (hletter : e ≠ 'u') (h : escaped? e = some c) : Spelling c ['\\', e]
  | unit (a b x y : Char) (hcontrol : c.toNat < 32) (h : hexValue4? a b x y = some c.toNat) :
    Spelling c ['\\', 'u', a, b, x, y]
  | plain (hquote : c ≠ '"') (hescape : c ≠ '\\') (hcontrol : 32 ≤ c.toNat) : Spelling c [c]

/-- The digits of a control character have its value. -/
theorem hexValue4?_hexDigit :
    ∀ n < 32, hexValue4? '0' '0' (hexDigit (n / 16)) (hexDigit (n % 16)) = some n := by
  decide

/-- What the printer writes for a character spells it. -/
theorem spelling_escapeChar (c : Char) : Spelling c (escapeChar c) := by
  unfold escapeChar
  split
  case isTrue h => exact .letter '"' (by decide) (by rw [h]; rfl)
  split
  case isTrue h => exact .letter '\\' (by decide) (by rw [h]; rfl)
  split
  case isTrue h => exact .letter 'b' (by decide) (by rw [h]; rfl)
  split
  case isTrue h => exact .letter 'f' (by decide) (by rw [h]; rfl)
  split
  case isTrue h => exact .letter 'n' (by decide) (by rw [h]; rfl)
  split
  case isTrue h => exact .letter 'r' (by decide) (by rw [h]; rfl)
  split
  case isTrue h => exact .letter 't' (by decide) (by rw [h]; rfl)
  split
  case isTrue h => exact .unit _ _ _ _ h (hexValue4?_hexDigit c.toNat h)
  case isFalse hquote hescape _ _ _ _ _ hcontrol =>
    exact .plain hquote hescape (Nat.le_of_not_lt hcontrol)

/-- The reader of a string passes the spelling of a character. -/
theorem Spelling.stringBody? {c : Char} {spelling : List Char} (h : Spelling c spelling)
    {rest body tail : List Char} (hrest : stringBody? rest = some (body, tail)) :
    Json.stringBody? (spelling ++ rest) = some (spelling ++ body, tail) := by
  cases h with
  | letter e hletter h => simp [Json.stringBody?, hletter, h, hrest]
  | unit a b x y hcontrol h => simp [Json.stringBody?, h, hrest]
  | plain hquote hescape hcontrol => simp [Json.stringBody?, hescape, hcontrol, guard, hrest]

/-- The spelling of a character means that character. -/
theorem Spelling.pieces? {c : Char} {spelling : List Char} (h : Spelling c spelling)
    {rest : List Char} {pieces : List Piece} (hrest : pieces? rest = some pieces) :
    Json.pieces? (spelling ++ rest) = some (.char c :: pieces) := by
  cases h with
  | letter e hletter h => simp [Json.pieces?, hletter, h, hrest]
  | unit a b x y hcontrol h =>
    -- Control characters lie below the surrogates.
    have hunit : Piece.ofUnit c.toNat = .char c := by
      have hlow : ¬0xD800 ≤ c.toNat := by omega
      have hhigh : ¬0xDC00 ≤ c.toNat := by omega
      simp [Piece.ofUnit, hlow, hhigh, Char.ofNat_toNat]
    simp [Json.pieces?, h, hunit, hrest]
  | plain hquote hescape hcontrol => simp [Json.pieces?, hescape, guard, hrest]

/-! ### Texts -/

/-- The reader finds the closing quote of a spelled text. -/
theorem stringBody?_escape (text rest : List Char) :
    stringBody? (escape text ++ '"' :: rest) = some (escape text, rest) := by
  induction text with
  | nil => rfl
  | cons c text ih =>
    have hcons : escape (c :: text) = escapeChar c ++ escape text := rfl
    rw [hcons, List.append_assoc]
    exact (spelling_escapeChar c).stringBody? ih

/-- The spelling of a text has a piece for each of its characters. -/
theorem pieces?_escape (text : List Char) : pieces? (escape text) = some (text.map .char) := by
  induction text with
  | nil => rfl
  | cons c text ih =>
    exact (spelling_escapeChar c).pieces? ih

/-- Pieces that are characters make up their text. -/
theorem joinPieces?_map_char (text : List Char) : joinPieces? (text.map .char) = some text := by
  induction text with
  | nil => rfl
  | cons c text ih => simp [joinPieces?, ih]

/-- The spelling of a text means that text. -/
theorem unescape?_escape (text : List Char) : unescape? (escape text) = some text := by
  rw [unescape?, pieces?_escape, Option.bind_some, joinPieces?_map_char]

/-- A written text is read back. -/
@[simp]
theorem text?_ofText (text : String) : (ofText text).text? = some text := by
  simp [ofText, text?, unescape?_escape]

/-! ### Natural numbers -/

/-- A decimal digit has the value that its place among the digits gives it. -/
theorem hexValue?_of_isDigit {c : Char} (h : c.isDigit = true) :
    (Text.hexValue? c).filter (· < 10) = some (c.toNat - 48) := by
  have hrange : '0' ≤ c ∧ c ≤ '9' := by simpa [Char.isDigit, Char.le_def] using h
  have hle : c.toNat ≤ 57 := hrange.2
  have hlt : c.toNat - 48 < 10 := by omega
  simp [Text.hexValue?, hrange, hlt]

/-- The decimal digits of a number have its value. -/
theorem number?_toDigits (n : Nat) : Text.number? 10 (Nat.toDigits 10 n) = some n := by
  have hvalues : (Nat.toDigits 10 n).mapM (fun c ↦ (Text.hexValue? c).filter (· < 10)) =
      some ((Nat.toDigits 10 n).map (·.toNat - 48)) :=
    mapM_eq_some_map fun c hc ↦
      hexValue?_of_isDigit (Nat.isDigit_of_mem_toDigits (by omega) (by omega) hc)
  have hsum : (Nat.toDigits 10 n).foldl (fun sum c ↦ sum * 10 + (c.toNat - 48)) 0 = n := by
    simpa [Nat.ofDigitChars, Nat.mul_comm] using @Nat.ofDigitChars_ten_toDigits n
  simp [Text.number?, hvalues, List.foldl_map, hsum, guard]

/-- A written number is read back if it is not too large. -/
theorem nat?_ofNat {max n : Nat} (h : n ≤ max) : (ofNat n).nat? max = some n := by
  simp [ofNat, nat?, number?_toDigits, h]

/-- Only the spelling of zero begins with a zero. -/
theorem head?_toDigits {n : Nat} (h : 0 < n) : (Nat.toDigits 10 n).head? ≠ some '0' := by
  induction n using Nat.strongRecOn with
  | ind n ih =>
    by_cases hlt : n < 10
    · have hdigit : ∀ d < 10, 0 < d → Nat.digitChar d ≠ '0' := by decide
      simpa [Nat.toDigits_of_lt_base hlt] using hdigit n hlt h
    · -- The digits of `n / 10` come first, and `n / 10` is not zero either.
      have hle : 10 ≤ n := Nat.le_of_not_lt hlt
      rw [Nat.toDigits_of_base_le (by omega) hle, List.head?_append_of_ne_nil _ Nat.toDigits_ne_nil]
      exact ih (n / 10) (by omega) (by omega)

/-- What may follow a number without being taken for a part of it. -/
def EndsNumber (rest : List Char) : Prop :=
  ∀ c ∈ rest.head?, c.isDigit = false ∧ c ≠ '.' ∧ c ≠ 'e' ∧ c ≠ 'E'

/-- The reader takes the digits of a number and no more. -/
theorem digits?_toDigits (n : Nat) {rest : List Char} (h : EndsNumber rest) :
    digits? (Nat.toDigits 10 n ++ rest) = some (Nat.toDigits 10 n, rest) := by
  have hdigits : ∀ c ∈ Nat.toDigits 10 n, c.isDigit = true := fun c hc ↦
    Nat.isDigit_of_mem_toDigits (by omega) (by omega) hc
  have htake : rest.takeWhile Char.isDigit = [] := by
    cases rest with
    | nil => rfl
    | cons c rest => simp [(h c rfl).1]
  have hdrop : rest.dropWhile Char.isDigit = rest := by
    cases rest with
    | nil => rfl
    | cons c rest => simp [(h c rfl).1]
  rw [digits?, List.takeWhile_append_of_pos hdigits, List.dropWhile_append_of_pos hdigits, htake,
    hdrop, List.append_nil]
  cases hcons : Nat.toDigits 10 n with
  | nil => exact absurd hcons Nat.toDigits_ne_nil
  | cons d ds => rfl

/-- The reader takes a written number and no more. -/
theorem unsigned?_toDigits (n : Nat) {rest : List Char} (h : EndsNumber rest) :
    unsigned? (Nat.toDigits 10 n ++ rest) = some (Nat.toDigits 10 n, rest) := by
  have hlead : Nat.toDigits 10 n = ['0'] ∨ (Nat.toDigits 10 n).head? ≠ some '0' := by
    rcases Nat.eq_zero_or_pos n with rfl | hpos
    · exact .inl rfl
    · exact .inr (head?_toDigits hpos)
  have hinteger : integer? (Nat.toDigits 10 n ++ rest) = some (Nat.toDigits 10 n, rest) := by
    simp [integer?, digits?_toDigits n h, guard, hlead]
  have hfraction : fraction? rest = some ([], rest) := by
    cases rest with
    | nil => rfl
    | cons c rest => simp [fraction?, (h c rfl).2.1]
  have hexponent : exponent? rest = some ([], rest) := by
    cases rest with
    | nil => rfl
    | cons c rest => simp [exponent?, (h c rfl).2.2]
  simp [unsigned?, hinteger, hfraction, hexponent]

end Json

end BlockFlow
