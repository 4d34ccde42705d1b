import BlockFlow.Error
import BlockFlow.Proofs.Fallible

/-!
# Well-formed descriptions and first faults

A description is well formed if its blocks have different names, its edges lead to blocks, and no
instruction lacks an operand. These conditions are looked at one after the other, each from the
front: a fault that is reported is the first of its kind, and there is none of an earlier kind. Main
statement: a module is accepted exactly if all its procedures are well formed, and otherwise the
first fault of the first procedure that is not so is reported.
-/

namespace BlockFlow

/-- The number of operands that an instruction of a mnemonic cannot do without. -/
def operandsNeeded (mnemonic : String) : Nat :=
  if mnemonic = "load" then 1
  else if mnemonic ∈ ["store", "add", "sub", "mul", "udiv", "sdiv"] then 2
  else 0

/-- An opcode reads the operands that its mnemonic needs. -/
theorem arity_ofMnemonic (mnemonic : String) :
    (Opcode.ofMnemonic mnemonic).arity = operandsNeeded mnemonic := by
  unfold Opcode.ofMnemonic operandsNeeded
  repeat' split
  all_goals simp_all [Opcode.arity]

/-! ### The first member with a property -/

/-- The member has the property, and none in front of it has. -/
def FirstWith {α : Type} (P : α → Prop) (xs : List α) (x : α) : Prop :=
  ∃ pre post, xs = pre ++ x :: post ∧ P x ∧ ∀ y ∈ pre, ¬P y

private theorem findSome?_flatMap {α β γ : Type} (f : α → List β) (g : β → Option γ)
    (xs : List α) : (xs.flatMap f).findSome? g = xs.findSome? fun x ↦ (f x).findSome? g := by
  induction xs with
  | nil => rfl
  | cons x xs ih =>
    rw [List.flatMap_cons, List.findSome?_append, List.findSome?_cons, ih]
    cases (f x).findSome? g <;> rfl

/-- A search for what is wrong with a member stops at the first member with which something is. -/
private theorem findSome?_eq_some_iff_firstWith {α β : Type} {P : α → Prop} [DecidablePred P]
    {report : α → β} {xs : List α} {b : β} :
    (xs.findSome? fun x ↦ if P x then some (report x) else none) = some b ↔
      ∃ x, FirstWith P xs x ∧ report x = b := by
  rw [List.findSome?_eq_some_iff]
  constructor
  · rintro ⟨pre, x, post, hxs, hx, hpre⟩
    obtain ⟨hP, hreport⟩ := Option.ite_none_right_eq_some.mp hx
    refine ⟨x, ⟨pre, post, hxs, hP, ?_⟩, Option.some.inj hreport⟩
    intro y hy hbad
    simpa [hbad] using hpre y hy
  · rintro ⟨x, ⟨pre, post, hxs, hP, hpre⟩, rfl⟩
    exact ⟨pre, x, post, hxs, if_pos hP, fun y hy ↦ if_neg (hpre y hy)⟩

/-! ### Repeated names -/

/-- No name repeats exactly if all are different and none has been seen. -/
theorem firstRepeated?_eq_none_iff {seen names : List String} :
    firstRepeated? seen names = none ↔ names.Nodup ∧ ∀ name ∈ names, name ∉ seen := by
  induction names generalizing seen with
  | nil => simp [firstRepeated?]
  | cons name names ih =>
    by_cases hseen : name ∈ seen
    · simp [firstRepeated?, hseen]
    · rw [firstRepeated?, if_neg hseen, ih]
      simp only [List.nodup_cons, List.mem_cons, forall_eq_or_imp, hseen, not_false_eq_true,
        true_and]
      grind

/-- The first name that repeats is seen or stands in front of itself, and up to it names are new and
different. -/
theorem firstRepeated?_eq_some_iff {seen names : List String} {name : String} :
    firstRepeated? seen names = some name ↔
      ∃ pre post, names = pre ++ name :: post ∧ firstRepeated? seen pre = none ∧
        (name ∈ seen ∨ name ∈ pre) := by
  induction names generalizing seen with
  | nil => simp [firstRepeated?]
  | cons first names ih =>
    by_cases hseen : first ∈ seen
    · rw [firstRepeated?, if_pos hseen]
      constructor
      · rintro ⟨⟩
        exact ⟨[], names, rfl, rfl, .inl hseen⟩
      · rintro ⟨pre, post, hsplit, hpre, -⟩
        cases pre with
        | nil => exact congrArg some (List.cons.inj hsplit).1
        | cons other pre =>
          obtain ⟨rfl, -⟩ := List.cons.inj hsplit
          simp [firstRepeated?, hseen] at hpre
    · rw [firstRepeated?, if_neg hseen, ih]
      constructor
      · rintro ⟨pre, post, rfl, hpre, hname⟩
        refine ⟨first :: pre, post, rfl, ?_, ?_⟩
        · rw [firstRepeated?, if_neg hseen, hpre]
        · grind
      · rintro ⟨pre, post, hsplit, hpre, hname⟩
        cases pre with
        | nil =>
          obtain ⟨rfl, -⟩ := List.cons.inj hsplit
          exact absurd (hname.resolve_right List.not_mem_nil) hseen
        | cons other pre =>
          obtain ⟨rfl, rfl⟩ := List.cons.inj hsplit
          rw [firstRepeated?, if_neg hseen] at hpre
          exact ⟨pre, post, rfl, hpre, by grind⟩

/-! ### Procedures -/

namespace ProcedureDesc

variable (d : ProcedureDesc)

/-- The edges as they are described, each with the block that it leaves. -/
def edges : List (BlockDesc × String) :=
  d.blocks.flatMap fun b ↦ b.successors.map (b, ·)

/-- The described instructions, each with the block that it stands in. -/
def instructions : List (BlockDesc × InstructionDesc) :=
  d.blocks.flatMap fun b ↦ b.instructions.map (b, ·)

/-- A description from which a procedure can be assembled. -/
structure WellFormed : Prop where
  names : d.blockNames.Nodup
  successors : ∀ b ∈ d.blocks, ∀ successor ∈ b.successors, successor ∈ d.blockNames
  operands : ∀ b ∈ d.blocks, ∀ inst ∈ b.instructions,
    operandsNeeded inst.opcode ≤ inst.operands.length

/-- The edge leads to no block. -/
def Dangling (edge : BlockDesc × String) : Prop := edge.2 ∉ d.blockNames

/-- The instruction lacks an operand. -/
def Short (inst : BlockDesc × InstructionDesc) : Prop :=
  inst.2.operands.length < operandsNeeded inst.2.opcode

/-- The fault that is reported: the first one of its kind, where there is none of an earlier
kind. -/
inductive FirstFault : DescriptionFault → Prop
  | duplicateBlock {pre post : List BlockDesc} {b : BlockDesc}
    (hblocks : d.blocks = pre ++ b :: post) (hpre : (pre.map BlockDesc.name).Nodup)
    (hrepeated : b.name ∈ pre.map BlockDesc.name) : FirstFault (.duplicateBlock d.name b.name)
  | unknownSuccessor {b : BlockDesc} {successor : String} (hnames : d.blockNames.Nodup)
    (hfirst : FirstWith d.Dangling d.edges (b, successor)) :
    FirstFault (.unknownSuccessor d.name b.name successor)
  | tooFewOperands {b : BlockDesc} {inst : InstructionDesc} (hnames : d.blockNames.Nodup)
    (hedges : ∀ edge ∈ d.edges, ¬d.Dangling edge)
    (hfirst : FirstWith Short d.instructions (b, inst)) :
    FirstFault (.tooFewOperands d.name b.name inst.opcode (operandsNeeded inst.opcode)
      inst.operands.length)

variable {d}

theorem repeatedBlock?_eq_none_iff : d.repeatedBlock? = none ↔ d.blockNames.Nodup := by
  rw [repeatedBlock?, Option.map_eq_none_iff, firstRepeated?_eq_none_iff]
  simp

theorem repeatedBlock?_eq_some_iff {fault : DescriptionFault} :
    d.repeatedBlock? = some fault ↔ ∃ pre b post, d.blocks = pre ++ b :: post ∧
      (pre.map BlockDesc.name).Nodup ∧ b.name ∈ pre.map BlockDesc.name ∧
      .duplicateBlock d.name b.name = fault := by
  rw [repeatedBlock?, Option.map_eq_some_iff]
  constructor
  · rintro ⟨name, hname, rfl⟩
    obtain ⟨names, rest, hsplit, hnames, hrepeated⟩ := firstRepeated?_eq_some_iff.mp hname
    obtain ⟨pre, tail, hblocks, rfl, htail⟩ := List.map_eq_append_iff.mp hsplit
    obtain ⟨b, post, rfl, rfl, -⟩ := List.map_eq_cons_iff.mp htail
    exact ⟨pre, b, post, hblocks, (firstRepeated?_eq_none_iff.mp hnames).1,
      hrepeated.resolve_left List.not_mem_nil, rfl⟩
  · rintro ⟨pre, b, post, hblocks, hpre, hrepeated, rfl⟩
    refine ⟨b.name, ?_, rfl⟩
    rw [firstRepeated?_eq_some_iff]
    refine ⟨pre.map BlockDesc.name, post.map BlockDesc.name, ?_, ?_, .inr hrepeated⟩
    · rw [blockNames, hblocks, List.map_append, List.map_cons]
    · rw [firstRepeated?_eq_none_iff]
      exact ⟨hpre, fun _ _ ↦ List.not_mem_nil⟩

/-- Dangling edges are looked for in the order in which edges are described. -/
theorem danglingEdge?_eq : d.danglingEdge? = d.edges.findSome? fun edge ↦
    if edge.2 ∉ d.blockNames then some (.unknownSuccessor d.name edge.1.name edge.2) else none := by
  simp only [danglingEdge?, edges, findSome?_flatMap, List.findSome?_map, Function.comp_def,
    ite_not]

/-- Short instructions are looked for in the order in which they are described. -/
theorem shortInstruction?_eq : d.shortInstruction? = d.instructions.findSome? fun inst ↦
    if inst.2.operands.length < operandsNeeded inst.2.opcode then
      some (.tooFewOperands d.name inst.1.name inst.2.opcode (operandsNeeded inst.2.opcode)
        inst.2.operands.length)
    else none := by
  simp only [shortInstruction?, instructions, findSome?_flatMap, List.findSome?_map,
    Function.comp_def, arity_ofMnemonic, Opcode.mnemonic_ofMnemonic]

theorem danglingEdge?_eq_none_iff :
    d.danglingEdge? = none ↔ ∀ edge ∈ d.edges, ¬d.Dangling edge := by
  rw [danglingEdge?_eq, List.findSome?_eq_none_iff]
  simp [Dangling]

theorem shortInstruction?_eq_none_iff :
    d.shortInstruction? = none ↔ ∀ inst ∈ d.instructions, ¬Short inst := by
  rw [shortInstruction?_eq, List.findSome?_eq_none_iff]
  simp [Short]

/-- A description has no fault exactly if it is well formed. -/
theorem fault?_eq_none_iff : d.fault? = none ↔ d.WellFormed := by
  rw [fault?, Option.or_eq_none_iff, Option.or_eq_none_iff, repeatedBlock?_eq_none_iff,
    danglingEdge?_eq_none_iff, shortInstruction?_eq_none_iff]
  constructor
  · rintro ⟨hnames, hedges, hinsts⟩
    refine ⟨hnames, ?_, ?_⟩
    · intro b hb successor hs
      have hedge : (b, successor) ∈ d.edges :=
        List.mem_flatMap.mpr ⟨b, hb, List.mem_map_of_mem hs⟩
      exact Classical.not_not.mp (hedges _ hedge)
    · intro b hb inst hinst
      have hmem : (b, inst) ∈ d.instructions :=
        List.mem_flatMap.mpr ⟨b, hb, List.mem_map_of_mem hinst⟩
      exact Nat.le_of_not_lt (hinsts _ hmem)
  · rintro ⟨hnames, hsuccessors, hoperands⟩
    refine ⟨hnames, ?_, ?_⟩
    · intro edge hedge
      obtain ⟨b, hb, hedge⟩ := List.mem_flatMap.mp hedge
      obtain ⟨successor, hs, rfl⟩ := List.mem_map.mp hedge
      exact Classical.not_not.mpr (hsuccessors b hb successor hs)
    · intro placed hplaced
      obtain ⟨b, hb, hplaced⟩ := List.mem_flatMap.mp hplaced
      obtain ⟨inst, hinst, rfl⟩ := List.mem_map.mp hplaced
      exact Nat.not_lt_of_le (hoperands b hb inst hinst)

/-- The fault of a description is its first one. -/
theorem fault?_eq_some_iff {fault : DescriptionFault} :
    d.fault? = some fault ↔ d.FirstFault fault := by
  rw [fault?, Option.or_eq_some_iff, Option.or_eq_some_iff, repeatedBlock?_eq_some_iff,
    repeatedBlock?_eq_none_iff, danglingEdge?_eq_none_iff, danglingEdge?_eq,
    shortInstruction?_eq, findSome?_eq_some_iff_firstWith, findSome?_eq_some_iff_firstWith]
  constructor
  · rintro (⟨pre, b, post, hblocks, hpre, hrepeated, rfl⟩ |
      ⟨hnames, ⟨edge, hfirst, rfl⟩ | ⟨hedges, inst, hfirst, rfl⟩⟩)
    · exact .duplicateBlock hblocks hpre hrepeated
    · exact .unknownSuccessor hnames hfirst
    · exact .tooFewOperands hnames hedges hfirst
  · intro h
    cases h with
    | duplicateBlock hblocks hpre hrepeated => exact .inl ⟨_, _, _, hblocks, hpre, hrepeated, rfl⟩
    | unknownSuccessor hnames hfirst => exact .inr ⟨hnames, .inl ⟨_, hfirst, rfl⟩⟩
    | tooFewOperands hnames hedges hfirst =>
      exact .inr ⟨hnames, .inr ⟨hedges, _, hfirst, rfl⟩⟩

/-- A procedure is made of a description exactly if it is well formed. -/
theorem exists_toProcedure_iff : (∃ p, d.toProcedure = .ok p) ↔ d.WellFormed := by
  rw [← fault?_eq_none_iff, toProcedure]
  cases d.fault? <;> simp

/-- A description from which no procedure is made has a fault, and its first one is reported. -/
theorem toProcedure_eq_error_iff {fault : DescriptionFault} :
    d.toProcedure = .error fault ↔ d.FirstFault fault := by
  rw [← fault?_eq_some_iff, toProcedure]
  cases d.fault? <;> simp

end ProcedureDesc

/-! ### Modules -/

namespace ModuleDesc

/-- A module can be analyzed exactly if each of its procedures is well formed. If not, the input is
found invalid, on account of the first fault of the first procedure that is not well formed. -/
theorem analyzable_or_first_fault (m : ModuleDesc) :
    ((∃ procedures, m.analyzable = .ok procedures) ↔ ∀ d ∈ m.procedures, d.WellFormed) ∧
    ∀ error, m.analyzable = .error error ↔
      ∃ pre d post fault, m.procedures = pre ++ d :: post ∧ (∀ c ∈ pre, c.WellFormed) ∧
        d.FirstFault fault ∧ error = .invalidInput fault := by
  constructor
  · have hok : (∃ procedures, m.analyzable = .ok procedures) ↔
        ∃ procedures, m.toProcedures = .ok procedures := by
      unfold analyzable
      cases m.toProcedures <;> simp
    rw [hok]
    constructor
    · rintro ⟨procedures, h⟩ d hd
      obtain ⟨i, hi⟩ := List.mem_iff_getElem?.mp hd
      obtain ⟨p, hp, -⟩ := exists_getElem?_of_mapM h hi
      exact ProcedureDesc.exists_toProcedure_iff.mp ⟨p, hp⟩
    · intro h
      exact exists_mapM m.procedures fun d hd ↦ ProcedureDesc.exists_toProcedure_iff.mpr (h d hd)
  · intro error
    have herror : m.analyzable = .error error ↔
        ∃ fault, m.toProcedures = .error fault ∧ error = .invalidInput fault := by
      unfold analyzable
      cases m.toProcedures <;> simp [eq_comm]
    simp only [herror, toProcedures, mapM_eq_error_iff, ProcedureDesc.exists_toProcedure_iff,
      ProcedureDesc.toProcedure_eq_error_iff]
    constructor
    · rintro ⟨fault, ⟨pre, d, post, hsplit, hpre, hfault⟩, rfl⟩
      exact ⟨pre, d, post, fault, hsplit, hpre, hfault, rfl⟩
    · rintro ⟨pre, d, post, fault, hsplit, hpre, hfault, rfl⟩
      exact ⟨fault, ⟨pre, d, post, hsplit, hpre, hfault⟩, rfl⟩

/-- A block that may be repeated and has an operand more than it needs. -/
def sound : ProcedureDesc where
  name := "sound"
  blocks := [{ name := "a", successors := ["a", "a"]
               instructions := [{ opcode := "add", operands := ["x", "y", "z"] }] }]

/-- A short instruction in front of two dangling edges. -/
def unsound : ProcedureDesc where
  name := "unsound"
  blocks := [
    { name := "a", successors := ["b"], instructions := [{ opcode := "load" }] },
    { name := "b", successors := ["a", "c", "d"] }]

/-- The procedure with three faults stands between a sound one and one that repeats a block. -/
def muddle : ModuleDesc where
  procedures := [
    sound, unsound, { name := "repeated", blocks := [{ name := "a" }, { name := "a" }] }]

/-- Of all the faults of the muddle the first dangling edge is reported. -/
theorem muddle_first_fault :
    sound.WellFormed ∧ unsound.FirstFault (.unknownSuccessor "unsound" "b" "c") ∧
    muddle.analyzable = .error (.invalidInput (.unknownSuccessor "unsound" "b" "c")) ∧
    ¬∀ d ∈ muddle.procedures, d.WellFormed := by
  have hsound : sound.WellFormed := ⟨by decide, by decide, by decide⟩
  have hunsound : unsound.FirstFault (.unknownSuccessor "unsound" "b" "c") := by
    refine .unknownSuccessor (b := ⟨"b", ["a", "c", "d"], []⟩) (by decide) ?_
    unfold ProcedureDesc.Dangling
    exact ⟨unsound.edges.take 2, unsound.edges.drop 3, by decide, by decide, by decide⟩
  obtain ⟨hiff, herror⟩ := muddle.analyzable_or_first_fault
  have hfails := (herror _).mpr ⟨[sound], unsound, _, _, rfl, by simpa using hsound, hunsound, rfl⟩
  refine ⟨hsound, hunsound, hfails, ?_⟩
  intro hall
  obtain ⟨procedures, hok⟩ := hiff.mpr hall
  rw [hfails] at hok
  cases hok

end ModuleDesc

end BlockFlow
