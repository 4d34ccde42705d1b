import BlockFlow.Config.Yaml
import BlockFlow.Proofs.Json.Fields
import BlockFlow.Proofs.Json.Literal
import BlockFlow.Proofs.Yaml.Lines

/-!
# Configuration files are read back

A configuration file that is written consists of six lines of settings. Main statement: it is read
back as the configuration that it was written for, if that is valid, and otherwise its pass cap is
refused, whatever sixty-four bits it has.
-/

namespace BlockFlow

open Yaml (Line Word Node textOf)

namespace Yaml.Node

/-- Decimal digits are read as their number. -/
theorem nat?_ofNat {max n : Nat} (h : n ≤ max) :
    nat? max (.scalar .plain (Word.ofNat n).text) = some n := by
  have hplus : '+' ∉ Nat.toDigits 10 n := fun hmem ↦
    absurd (Nat.isDigit_of_mem_toDigits (by omega) (by omega) hmem) (by decide)
  have hunsigned : unsigned? (Nat.toDigits 10 n) = some n := by
    rcases Nat.eq_zero_or_pos n with rfl | hpos
    · rfl
    · have hhead := Json.head?_toDigits hpos
      have hnumber := Json.number?_toDigits n
      cases hdigits : Nat.toDigits 10 n with
      | nil => exact absurd hdigits Nat.toDigits_ne_nil
      | cons d ds =>
        rw [hdigits] at hplus hhead hnumber
        have hsign : d ≠ '+' := fun heq ↦ hplus (by simp [heq])
        have hzero : d ≠ '0' := fun heq ↦ hhead (by simp [heq])
        simpa [unsigned?, magnitude?, hsign, hzero] using hnumber
  simp [nat?, Word.ofNat, hunsigned, h]

/-- The mapping that writes named members. -/
def ofMembers (members : List (String × Node)) : Node :=
  .mapping (members.map fun member ↦ (.scalar .plain member.1, member.2))

/-- A mapping of members that are declared, each once, is the record that it writes. -/
theorem record?_ofMembers {fields : List String} {members : List (String × Node)}
    (hknown : ∀ member ∈ members, member.1 ∈ fields) (hnodup : (members.map Prod.fst).Nodup) :
    (ofMembers members).record? fields = some { given := members, positional := false } := by
  have hfilter : members.filter (fields.contains ·.1) = members := by
    simpa using hknown
  rw [ofMembers, record?, mapM_map_eq_some]
  · rw [Option.bind_eq_bind, Option.bind_some, Fields.ofMembers?, hfilter]
    simp [hnodup]
  · exact fun _ _ ↦ rfl

/-- Truth values are read as they are written. -/
theorem bool?_toString (b : Bool) : bool? (.scalar .plain (toString b)) = some b := by
  cases b <;> decide

end Yaml.Node

/-- The name of a strategy names it. -/
theorem Strategy.ofName?_name (s : Strategy) : Strategy.ofName? s.name = some s := by
  cases s <;> decide

namespace Config

/-- The lines of a configuration file. -/
def settings (c : Config) : List Line := [
  ⟨0, .ofText "version" (by decide), some (.ofText "1" (by decide)), by decide⟩,
  ⟨0, .ofText "value_numbering" (by decide), none, by decide⟩,
  ⟨2, .ofText "canonicalize_commutative" (by decide),
    some (.ofText (toString c.numbering.canonicalizeCommutative)
      (by cases c.numbering.canonicalizeCommutative <;> rfl)), by decide⟩,
  ⟨0, .ofText "liveness" (by decide), none, by decide⟩,
  ⟨2, .ofText "strategy" (by decide),
    some (.ofText c.liveness.strategy.name (by cases c.liveness.strategy <;> rfl)), by decide⟩,
  ⟨2, .ofText "max_passes" (by decide), some (.ofNat c.liveness.maxPasses), by decide⟩]

/-- A configuration file is the text of its settings. -/
theorem toYamlText_eq (c : Config) : c.toYamlText = String.ofList (textOf c.settings) := by
  rw [← String.toList_inj, String.toList_ofList]
  unfold toYamlText
  simp [settings, textOf, Line.text, Line.body, Line.tail, Word.ofText, Word.ofNat, toString]

/-- No setting with a value stands before one that is indented deeper. -/
theorem nested_settings (c : Config) : Yaml.Nested c.settings := by
  simp [settings, Yaml.Nested, Yaml.firstIndent]

/-- The node of a section about value numbering. -/
def numberingNode (c : NumberingConfig) : Node :=
  .ofMembers [
    ("canonicalize_commutative", .scalar .plain (toString c.canonicalizeCommutative))]

/-- The node of a section about liveness. -/
def livenessNode (s : Solver) : Node :=
  .ofMembers [
    ("strategy", .scalar .plain s.strategy.name),
    ("max_passes", .scalar .plain (Word.ofNat s.maxPasses).text)]

/-- The node of a configuration file. -/
def toNode (c : Config) : Node :=
  .ofMembers [
    ("version", .scalar .plain "1"),
    ("value_numbering", numberingNode c.numbering),
    ("liveness", livenessNode c.liveness)]

/-- What the parser makes of a configuration file. -/
theorem parse?_toYamlText (c : Config) : Node.parse? c.toYamlText = some c.toNode := by
  have houtline : Yaml.outline [] c.settings = [.blockMapping,
      .key, .scalar .plain "version", .value, .scalar .plain "1",
      .key, .scalar .plain "value_numbering", .value, .blockMapping,
      .key, .scalar .plain "canonicalize_commutative", .value,
        .scalar .plain (toString c.numbering.canonicalizeCommutative), .blockEnd,
      .key, .scalar .plain "liveness", .value, .blockMapping,
      .key, .scalar .plain "strategy", .value, .scalar .plain c.liveness.strategy.name,
      .key, .scalar .plain "max_passes", .value,
        .scalar .plain (Word.ofNat c.liveness.maxPasses).text, .blockEnd, .blockEnd] := by
    simp [Yaml.outline, settings, Yaml.turn, Yaml.enter, Yaml.opens, Yaml.enclosing, Line.tokens]
  rw [Node.parse?, toYamlText_eq, Yaml.scan?_textOf c.nested_settings, Option.bind_some, houtline]
  rfl

theorem numberingOfYaml?_numberingNode (c : NumberingConfig) :
    numberingOfYaml? (numberingNode c) = some c := by
  rw [numberingOfYaml?, numberingNode, Node.record?_ofMembers (by simp) (by simp)]
  simp [Fields.withDefault, Node.bool?_toString]

theorem livenessOfYaml?_livenessNode {s : Solver} (h : s.maxPasses ≤ Text.maxWord64) :
    livenessOfYaml? (livenessNode s) = some s := by
  rw [livenessOfYaml?, livenessNode, Node.record?_ofMembers (by simp) (by simp)]
  simp [Fields.withDefault, Node.text?, Strategy.ofName?_name, Node.nat?_ofNat h]

/-- A configuration file says everything that is set. -/
theorem ofYaml?_toNode {c : Config} (h : c.liveness.maxPasses ≤ Text.maxWord64) :
    Document.ofYaml? c.toNode = some ⟨some 1, some c.numbering, some c.liveness⟩ := by
  have hversion : Node.orNull? (Node.nat? Text.maxWord32) (.scalar .plain "1") =
      some (some 1) := by
    decide +kernel
  have hnumbering : Node.orNull? numberingOfYaml? (numberingNode c.numbering) =
      some (some c.numbering) := by
    rw [Node.orNull?, numberingOfYaml?_numberingNode]
    rfl
  have hliveness : Node.orNull? livenessOfYaml? (livenessNode c.liveness) =
      some (some c.liveness) := by
    rw [Node.orNull?, livenessOfYaml?_livenessNode h]
    rfl
  rw [Document.ofYaml?, toNode, Node.record?_ofMembers (by simp) (by simp)]
  simp [Fields.optional, hversion, hnumbering, hliveness]

/-- A configuration file is read as what it was written for. -/
theorem ofYamlText_toYamlText {c : Config} (h : c.liveness.maxPasses ≤ Text.maxWord64) :
    ofYamlText c.toYamlText = c.build := by
  rw [ofYamlText, Document.ofYamlText, parse?_toYamlText, Option.bind_some, ofYaml?_toNode h]
  rfl

/-- Every configuration whose pass cap has sixty-four bits can be written to a file. Read from the
file it is the same if the cap is in its range, and otherwise the cap is refused with its value;
nothing else can be wrong with the file. -/
theorem file_recovered (c : Config) (h : c.liveness.maxPasses ≤ Text.maxWord64) :
    (1 ≤ c.liveness.maxPasses ∧ c.liveness.maxPasses ≤ 100000 →
      ofYamlText c.toYamlText = .ok c) ∧
    (¬(1 ≤ c.liveness.maxPasses ∧ c.liveness.maxPasses ≤ 100000) →
      ofYamlText c.toYamlText = .error (.range "liveness.max_passes"
        (toString c.liveness.maxPasses) "1" "100000"
        "The fixpoint needs at least one pass and the cap must stay finite")) := by
  rw [ofYamlText_toYamlText h, build, validate, maxPassesLimit]
  constructor
  · intro hvalid
    rw [if_pos hvalid]
    rfl
  · intro hinvalid
    rw [if_neg hinvalid]
    rfl

/-- What is written to a file for a cap in its range, and for the largest cap of all. -/
theorem file_recovered_bounds :
    ofYamlText (toYamlText ⟨⟨true⟩, ⟨.worklist, 100000⟩⟩) = .ok ⟨⟨true⟩, ⟨.worklist, 100000⟩⟩ ∧
    ofYamlText (toYamlText ⟨⟨false⟩, ⟨.roundRobin, 18446744073709551615⟩⟩) =
      .error (.range "liveness.max_passes" "18446744073709551615" "1" "100000"
        "The fixpoint needs at least one pass and the cap must stay finite") := by
  have hvalid := (file_recovered ⟨⟨true⟩, ⟨.worklist, 100000⟩⟩ (by decide)).1 (by decide)
  have hlargest := (file_recovered ⟨⟨false⟩, ⟨.roundRobin, 18446744073709551615⟩⟩ (by decide)).2
    (by decide)
  exact ⟨hvalid, hlargest⟩

end Config

end BlockFlow
