import BlockFlow.Yaml.Token

/-!
# YAML nodes

The tokens of a text make up at most one document, whose root is a scalar, a sequence or a
mapping. A node that is left out is an empty plain scalar.
-/

namespace BlockFlow.Yaml

/-- A node of a document. -/
inductive Node where
  | scalar (style : Style) (text : String)
  | sequence (items : List Node)
  | mapping (members : List (Node × Node))
  deriving Inhabited

namespace Node

/-- The node that stands where none is written. -/
def absent : Node := .scalar .plain ""

/-- Whether a block sequence leaves out an item before this token. -/
def endsItem : Option Token → Bool
  | some .blockEntry | some .blockEnd => true
  | _ => false

/-- Whether a block mapping leaves out a key or a value before this token. -/
def endsMember : Option Token → Bool
  | some .key | some .value | some .blockEnd => true
  | _ => false

/-- Whether a sequence at the indentation of its key leaves out an item before this token. -/
def endsKeyItem (token : Option Token) : Bool := endsItem token || endsMember token

/-- Whether a flow collection leaves out a value before this token. -/
def endsFlow : Option Token → Bool
  | some .flowEntry | some .flowSequenceEnd | some .flowMappingEnd => true
  | _ => false

/-- Whether a flow collection leaves out a key before this token. -/
def endsFlowKey (token : Option Token) : Bool := token == some .value || endsFlow token

/-- The tokens after the comma that has to stand before every entry but the first. -/
def afterComma? (first : Bool) (tokens : List Token) : Option (List Token) :=
  if first then some tokens
  else
    match tokens with
    | .flowEntry :: rest => some rest
    | _ => none

mutual

/-- A node, and the tokens after it. A value of a block mapping may be a sequence at the
indentation of its key, which no token opens. -/
def node? : (fuel : Nat) → (ofMapping : Bool) → List Token → Option (Node × List Token)
  | 0, _, _ => none
  | fuel + 1, ofMapping, tokens =>
    match tokens with
    | .scalar style text :: rest => some (.scalar style text, rest)
    | .flowSequence :: rest => do
      let (items, rest) ← flowItems? fuel true rest
      return (.sequence items, rest)
    | .flowMapping :: rest => do
      let (members, rest) ← flowMembers? fuel true rest
      return (.mapping members, rest)
    | .blockSequence :: rest => do
      let (items, rest) ← blockItems? fuel rest
      return (.sequence items, rest)
    | .blockMapping :: rest => do
      let (members, rest) ← blockMembers? fuel rest
      return (.mapping members, rest)
    | .blockEntry :: _ =>
      if ofMapping then do
        let (items, rest) ← keyItems? fuel tokens
        return (.sequence items, rest)
      else none
    | _ => none

/-- A node that is left out where the next token satisfies `ends`. -/
def nodeUnless? : (fuel : Nat) → (ends : Option Token → Bool) → (ofMapping : Bool) →
    List Token → Option (Node × List Token)
  | 0, _, _, _ => none
  | fuel + 1, ends, ofMapping, tokens =>
    if ends tokens.head? then some (absent, tokens) else node? fuel ofMapping tokens

/-- The items of a block sequence, up to its end. -/
def blockItems? : (fuel : Nat) → List Token → Option (List Node × List Token)
  | 0, _ => none
  | fuel + 1, tokens =>
    match tokens with
    | .blockEnd :: rest => some ([], rest)
    | .blockEntry :: rest => do
      let (item, rest) ← nodeUnless? fuel endsItem false rest
      let (items, rest) ← blockItems? fuel rest
      return (item :: items, rest)
    | _ => none

/-- The items of a sequence at the indentation of its key, which ends where no hyphen follows. -/
def keyItems? : (fuel : Nat) → List Token → Option (List Node × List Token)
  | 0, _ => none
  | fuel + 1, tokens =>
    match tokens with
    | .blockEntry :: rest => do
      let (item, rest) ← nodeUnless? fuel endsKeyItem false rest
      let (items, rest) ← keyItems? fuel rest
      return (item :: items, rest)
    | _ => some ([], tokens)

/-- The members of a block mapping, up to its end. -/
def blockMembers? : (fuel : Nat) → List Token → Option (List (Node × Node) × List Token)
  | 0, _ => none
  | fuel + 1, tokens =>
    match tokens with
    | .blockEnd :: rest => some ([], rest)
    | .key :: rest => do
      let (key, rest) ← nodeUnless? fuel endsMember true rest
      let (value, rest) ← valueAfter? fuel endsMember true rest
      let (members, rest) ← blockMembers? fuel rest
      return ((key, value) :: members, rest)
    | _ => none

/-- The value of a key, which is left out where no colon follows. -/
def valueAfter? : (fuel : Nat) → (ends : Option Token → Bool) → (ofMapping : Bool) →
    List Token → Option (Node × List Token)
  | 0, _, _, _ => none
  | fuel + 1, ends, ofMapping, tokens =>
    match tokens with
    | .value :: rest => nodeUnless? fuel ends ofMapping rest
    | _ => some (absent, tokens)

/-- The items of a flow sequence, up to its closing bracket. A comma stands before every item but
the first, and may stand after the last. A key among the items makes a mapping of one member. -/
def flowItems? : (fuel : Nat) → (first : Bool) → List Token → Option (List Node × List Token)
  | 0, _, _ => none
  | fuel + 1, first, tokens =>
    match tokens with
    | .flowSequenceEnd :: rest => some ([], rest)
    | _ => do
      let tokens ← afterComma? first tokens
      match tokens with
      | .flowSequenceEnd :: rest => return ([], rest)
      | .key :: rest =>
        let (key, rest) ← nodeUnless? fuel endsFlowKey false rest
        let (value, rest) ← valueAfter? fuel endsFlow false rest
        let (items, rest) ← flowItems? fuel false rest
        return (.mapping [(key, value)] :: items, rest)
      | _ =>
        let (item, rest) ← node? fuel false tokens
        let (items, rest) ← flowItems? fuel false rest
        return (item :: items, rest)

/-- The members of a flow mapping, up to its closing brace. A node that is no key has no value. -/
def flowMembers? : (fuel : Nat) → (first : Bool) → List Token →
    Option (List (Node × Node) × List Token)
  | 0, _, _ => none
  | fuel + 1, first, tokens =>
    match tokens with
    | .flowMappingEnd :: rest => some ([], rest)
    | _ => do
      let tokens ← afterComma? first tokens
      match tokens with
      | .flowMappingEnd :: rest => return ([], rest)
      | .key :: rest =>
        let (key, rest) ← nodeUnless? fuel endsFlowKey false rest
        let (value, rest) ← valueAfter? fuel endsFlow false rest
        let (members, rest) ← flowMembers? fuel false rest
        return ((key, value) :: members, rest)
      | _ =>
        let (key, rest) ← node? fuel false tokens
        let (members, rest) ← flowMembers? fuel false rest
        return ((key, absent) :: members, rest)

end

/-- Whether a document that was opened by a mark has nothing in it. -/
def endsDocument : Option Token → Bool
  | none | some .documentStart | some .documentEnd => true
  | _ => false

/-- The root of the only document. -/
def ofTokens? (tokens : List Token) : Option Node := do
  let fuel := 4 * tokens.length + 4
  let (root, rest) ←
    match tokens with
    | [] => some (absent, [])
    | .documentStart :: rest => nodeUnless? fuel endsDocument false rest
    | _ => node? fuel false tokens
  guard (rest.all (· == .documentEnd))
  return root

/-- The root of the document that a text writes. -/
def parse? (text : String) : Option Node := (Token.scan? text).bind ofTokens?

end Node

end BlockFlow.Yaml
