import BlockFlow.Json.Fields
import BlockFlow.Json.Printer
import BlockFlow.Proofs.Json.Literal

/-!
# Compact JSON is read back

The rules by which the reader accepts lists and objects are stated first, for any texts that it
reads as their parts. By these rules a value that is printed in compact form is read back, whatever
follows it, as long as that does not extend a number. The length of the text is fuel enough.
-/

namespace BlockFlow.Json

/-! ### Rules of the reader -/

section Rules

variable {fuel : Nat} {cs rest rest' : List Char} {key : List Char} {item : Json}
  {items : List Json} {members : List (List Char × Json)}

/-- Skipping blanks twice is skipping them once. -/
@[simp]
theorem skipBlanks_skipBlanks (cs : List Char) : skipBlanks (skipBlanks cs) = skipBlanks cs := by
  induction cs with
  | nil => rfl
  | cons c cs ih =>
    by_cases h : isBlank c
    · simpa [skipBlanks, h] using ih
    · simp [skipBlanks, h]

/-- What does not begin with a blank has none to skip. -/
theorem skipBlanks_cons {c : Char} (h : isBlank c = false) (cs : List Char) :
    skipBlanks (c :: cs) = c :: cs := by
  simp [skipBlanks, h]

/-- The reader of a value skips blanks. -/
theorem value?_skipBlanks (fuel : Nat) (cs : List Char) :
    value? fuel (skipBlanks cs) = value? fuel cs := by
  cases fuel with
  | zero => simp [value?]
  | succ fuel => simp [value?]

/-- No value begins with a closing bracket. -/
theorem value?_closing (fuel : Nat) (cs : List Char) : value? fuel (']' :: cs) = none := by
  cases fuel with
  | zero => simp [value?]
  | succ fuel =>
    simp [value?, skipBlanks_cons, isBlank, number?, unsigned?, integer?, digits?]

/-- The reader of a key skips blanks. -/
theorem key?_skipBlanks (cs : List Char) : key? (skipBlanks cs) = key? cs := by
  simp [key?]

/-- No key begins with a closing brace. -/
theorem key?_closing (cs : List Char) : key? ('\x7d' :: cs) = none := by
  simp [key?, skipBlanks_cons, isBlank]

/-- A list begins with an item, and the others follow. -/
theorem value?_array (hitem : value? fuel cs = some (item, rest))
    (hitems : items? fuel rest = some (items, rest')) :
    value? (fuel + 1) ('[' :: cs) = some (.array (item :: items), rest') := by
  -- The list is not closed at once: the closing bracket would not have been read as an item.
  have hopen : ∀ cs', skipBlanks cs ≠ ']' :: cs' := by
    intro cs' h
    rw [← value?_skipBlanks, h, value?_closing] at hitem
    cases hitem
  have hbracket : skipBlanks ('[' :: cs) = '[' :: cs := skipBlanks_cons rfl cs
  simp [value?, hbracket, value?_skipBlanks, hitem, hitems]

/-- An object begins with a member, and the others follow. -/
theorem value?_object {rest'' : List Char} (hkey : key? cs = some (key, rest))
    (hvalue : value? fuel rest = some (item, rest'))
    (hmembers : members? fuel rest' = some (members, rest'')) :
    value? (fuel + 1) ('\x7b' :: cs) = some (.object ((key, item) :: members), rest'') := by
  have hopen : ∀ cs', skipBlanks cs ≠ '\x7d' :: cs' := by
    intro cs' h
    rw [← key?_skipBlanks, h, key?_closing] at hkey
    cases hkey
  have hbrace : skipBlanks ('\x7b' :: cs) = '\x7b' :: cs := skipBlanks_cons rfl cs
  simp [value?, hbrace, key?_skipBlanks, hkey, hvalue, hmembers]

/-- An item after the first follows a comma. -/
theorem items?_cons (hitem : value? fuel cs = some (item, rest))
    (hitems : items? fuel rest = some (items, rest')) :
    items? (fuel + 1) (',' :: cs) = some (item :: items, rest') := by
  have hcomma : skipBlanks (',' :: cs) = ',' :: cs := skipBlanks_cons rfl cs
  simp [items?, hcomma, hitem, hitems]

/-- A member after the first follows a comma. -/
theorem members?_cons {rest'' : List Char} (hkey : key? cs = some (key, rest))
    (hvalue : value? fuel rest = some (item, rest'))
    (hmembers : members? fuel rest' = some (members, rest'')) :
    members? (fuel + 1) (',' :: cs) = some ((key, item) :: members, rest'') := by
  have hcomma : skipBlanks (',' :: cs) = ',' :: cs := skipBlanks_cons rfl cs
  simp [members?, hcomma, hkey, hvalue, hmembers]

/-- A key is a spelled text before a colon. -/
theorem key?_quoted (text rest : List Char) :
    key? (quoted (escape text) ++ ':' :: rest) = some (escape text, rest) := by
  have hquote : skipBlanks ('"' :: (escape text ++ '"' :: ':' :: rest)) =
      '"' :: (escape text ++ '"' :: ':' :: rest) := skipBlanks_cons rfl _
  have hcolon : skipBlanks (':' :: rest) = ':' :: rest := skipBlanks_cons rfl rest
  simp [key?, quoted, hquote, hcolon, stringBody?_escape]

/-- What begins with a digit is read as a number. -/
theorem value?_of_isDigit {d : Char} (h : d.isDigit = true) {spelling : List Char}
    (hread : unsigned? (d :: cs) = some (spelling, rest)) :
    value? (fuel + 1) (d :: cs) = some (.number spelling, rest) := by
  -- The reader tries every other beginning before it tries a number.
  have hother : ∀ c : Char, c.isDigit = false → d ≠ c := by
    rintro c hc rfl
    rw [h] at hc
    cases hc
  have hblank : isBlank d = false := by simp [isBlank, hother]
  obtain ⟨hn, ht, hf, hquote, hbracket, hbrace, hminus⟩ :
      d ≠ 'n' ∧ d ≠ 't' ∧ d ≠ 'f' ∧ d ≠ '"' ∧ d ≠ '[' ∧ d ≠ '\x7b' ∧ d ≠ '-' := by
    simp [hother]
  have hnumber : number? (d :: cs) = unsigned? (d :: cs) := by simp [number?, hminus]
  rw [value?, skipBlanks_cons hblank]
  simp [hn, ht, hf, hquote, hbracket, hbrace, hnumber, hread]

end Rules

/-! ### Printed values -/

/-- The printed value is read back, whatever follows it that does not extend a number. -/
def ReadsBack (json : Json) : Prop :=
  ∀ fuel rest, EndsNumber rest → json.compact.length < fuel →
    value? fuel (json.compact ++ rest) = some (json, rest)

theorem readsBack_null : ReadsBack .null := by
  rintro (_ | fuel) rest - hfuel
  · cases hfuel
  · simp [compact, value?, skipBlanks_cons, isBlank]

@[simp]
theorem readsBack_ofText (text : String) : ReadsBack (ofText text) := by
  rintro (_ | fuel) rest - hfuel
  · cases hfuel
  · simp [ofText, compact, quoted, value?, skipBlanks_cons, isBlank, stringBody?_escape]

theorem readsBack_ofNat (n : Nat) : ReadsBack (ofNat n) := by
  rintro (_ | fuel) rest hrest hfuel
  · cases hfuel
  · have hread := unsigned?_toDigits n hrest
    have hcompact : (ofNat n).compact = Nat.toDigits 10 n := by simp [ofNat, compact]
    rw [hcompact, ofNat]
    cases hdigits : Nat.toDigits 10 n with
    | nil => exact absurd hdigits Nat.toDigits_ne_nil
    | cons d ds =>
      have hdigit : d.isDigit = true :=
        Nat.isDigit_of_mem_toDigits (by omega) (by omega) (hdigits ▸ List.mem_cons_self)
      rw [hdigits, List.cons_append] at hread
      exact value?_of_isDigit hdigit hread

/-- What follows an item does not extend a number. -/
theorem endsNumber_compactItems (items : List Json) (rest : List Char) :
    EndsNumber (compactItems items ++ rest) := by
  cases items with
  | nil => simp [EndsNumber, compactItems]
  | cons item items => simp [EndsNumber, compactItems]

/-- Items that are read back one by one are read back up to the closing bracket. -/
theorem items?_compactItems {items : List Json} (h : ∀ item ∈ items, ReadsBack item) {fuel : Nat}
    (hfuel : (compactItems items).length < fuel) (rest : List Char) :
    items? fuel (compactItems items ++ rest) = some (items, rest) := by
  induction items generalizing fuel with
  | nil =>
    cases fuel with
    | zero => cases hfuel
    | succ fuel => simp [compactItems, items?, skipBlanks_cons, isBlank]
  | cons item items ih =>
    cases fuel with
    | zero => cases hfuel
    | succ fuel =>
      -- The comma pays for the step: the rest of the text stays shorter than the rest of the fuel.
      simp only [compactItems, List.length_cons, List.length_append] at hfuel
      have hitem := h item (by simp) fuel _ (endsNumber_compactItems items rest) (by omega)
      have htail : (compactItems items).length < fuel := by omega
      have hitems := ih (fun other hother ↦ h other (by simp [hother])) htail
      simpa [compactItems] using items?_cons hitem hitems

/-- A list is read back if its items are. -/
theorem readsBack_array {items : List Json} (h : ∀ item ∈ items, ReadsBack item) :
    ReadsBack (.array items) := by
  rintro (_ | fuel) rest - hfuel
  · cases hfuel
  · cases items with
    | nil => simp [compact, value?, skipBlanks_cons, isBlank]
    | cons item items =>
      simp only [compact, List.length_cons, List.length_append] at hfuel
      have hitem := h item (by simp) fuel _ (endsNumber_compactItems items rest) (by omega)
      have htail : (compactItems items).length < fuel := by omega
      have hitems :=
        items?_compactItems (fun other hother ↦ h other (by simp [hother])) htail rest
      simpa [compact] using value?_array hitem hitems

/-- The member as it stands in an object. -/
def spelledMember (member : String × Json) : List Char × Json :=
  (escape member.1.toList, member.2)

theorem ofMembers_eq (members : List (String × Json)) :
    ofMembers members = .object (members.map spelledMember) := rfl

/-- What follows a member does not extend a number. -/
theorem endsNumber_compactMembers (members : List (List Char × Json)) (rest : List Char) :
    EndsNumber (compactMembers members ++ rest) := by
  cases members with
  | nil => simp [EndsNumber, compactMembers]
  | cons member members => simp [EndsNumber, compactMembers]

/-- Members that are read back one by one are read back up to the closing brace. -/
theorem members?_compactMembers {members : List (String × Json)}
    (h : ∀ member ∈ members, ReadsBack member.2) {fuel : Nat}
    (hfuel : (compactMembers (members.map spelledMember)).length < fuel) (rest : List Char) :
    members? fuel (compactMembers (members.map spelledMember) ++ rest) =
      some (members.map spelledMember, rest) := by
  induction members generalizing fuel with
  | nil =>
    cases fuel with
    | zero => cases hfuel
    | succ fuel => simp [compactMembers, members?, skipBlanks_cons, isBlank]
  | cons member members ih =>
    cases fuel with
    | zero => cases hfuel
    | succ fuel =>
      simp only [List.map_cons, spelledMember, compactMembers, List.length_cons,
        List.length_append] at hfuel
      have hvalue := h member (by simp) fuel _
        (endsNumber_compactMembers (members.map spelledMember) rest) (by omega)
      have htail : (compactMembers (members.map spelledMember)).length < fuel := by omega
      have hmembers := ih (fun other hother ↦ h other (by simp [hother])) htail
      have hkey := key?_quoted member.1.toList
        (member.2.compact ++ (compactMembers (members.map spelledMember) ++ rest))
      simpa [compactMembers, spelledMember] using members?_cons hkey hvalue hmembers

/-- An object is read back if the values of its members are. -/
theorem readsBack_ofMembers {members : List (String × Json)}
    (h : ∀ member ∈ members, ReadsBack member.2) : ReadsBack (ofMembers members) := by
  rw [ofMembers_eq]
  rintro (_ | fuel) rest - hfuel
  · cases hfuel
  · cases members with
    | nil => simp [compact, value?, skipBlanks_cons, isBlank]
    | cons member members =>
      simp only [List.map_cons, spelledMember, compact, List.length_cons,
        List.length_append] at hfuel
      have hvalue := h member (by simp) fuel _
        (endsNumber_compactMembers (members.map spelledMember) rest) (by omega)
      have htail : (compactMembers (members.map spelledMember)).length < fuel := by omega
      have hmembers :=
        members?_compactMembers (fun other hother ↦ h other (by simp [hother])) htail rest
      have hkey := key?_quoted member.1.toList
        (member.2.compact ++ (compactMembers (members.map spelledMember) ++ rest))
      simpa [compact, spelledMember] using value?_object hkey hvalue hmembers

/-- The text of a value that is read back has that value. -/
theorem parse?_render {json : Json} (h : ReadsBack json) : parse? json.render = some json := by
  have hends : EndsNumber [] := by simp [EndsNumber]
  have hread : value? (json.compact.length + 1) json.compact = some (json, []) := by
    simpa using h (json.compact.length + 1) [] hends (by omega)
  rw [parse?, render, String.toList_ofList, hread]
  rfl

end BlockFlow.Json
