import BlockFlow.Proofs.Description.Graph
import Mathlib.Data.List.Dedup

/-!
# What the names of operands stand for

Instructions are placed in the order in which they are described, and the operands of each are
resolved before its own name is given to its result. So at every instruction the scope gives a name
to the result of the latest earlier instruction of that name. A name that no earlier instruction
has is free; when it is first mentioned a value is allocated for it, which all free mentions share.
Main statement: operands are resolved in this way, and the arena holds the results and one value for
each free name, and nothing else.
-/

namespace BlockFlow

/-! ### Meanings of names -/

/-- A described instruction with the instruction that stands for it. -/
abbrev Placement := InstructionDesc × Instruction

/-- None of the instructions has the name. -/
def Unnamed (earlier : List Placement) (name : String) : Prop :=
  ∀ e ∈ earlier, e.1.name ≠ some name

theorem unnamed_concat {earlier : List Placement} {e : Placement} {name : String} :
    Unnamed (earlier ++ [e]) name ↔ Unnamed earlier name ∧ e.1.name ≠ some name := by
  simp [Unnamed, or_imp, forall_and]

/-- What a name stands for behind some instructions: the result of the latest one of that name, or
else a value of that name that is no result. -/
inductive Denotes (p : Procedure) (earlier : List Placement) (name : String) : ValueId → Prop
  | result {pre post : List Placement} {desc : InstructionDesc} {inst : Instruction}
    (hearlier : earlier = pre ++ (desc, inst) :: post) (hname : desc.name = some name)
    (hlatest : Unnamed post name) : Denotes p earlier name inst.result
  | shared {v : ValueId} (hunnamed : Unnamed earlier name)
    (hvalue : p.value? v = some ⟨some name, none⟩) : Denotes p earlier name v

/-- The operands of every instruction are what their names stand for behind the instructions before
it. -/
def OperandsResolved (p : Procedure) (placed : List Placement) : Prop :=
  ∀ pre e post, placed = pre ++ e :: post →
    List.Forall₂ (Denotes p pre) e.1.operands e.2.operands

/-- The results of the instructions have the described names. -/
def ResultsNamed (p : Procedure) (placed : List Placement) : Prop :=
  ∀ e ∈ placed, ∃ v, p.value? e.2.result = some v ∧ v.name = e.1.name

/-- The names that instructions mention while none before them has that name, as often as they do
so; some names are given from the start. -/
def freeMentions (given : List String) : List InstructionDesc → List String
  | [] => []
  | desc :: code =>
    desc.operands.filter (· ∉ given) ++ freeMentions (desc.name.toList ++ given) code

namespace ProcedureDesc

/-- The described instructions, in block order. -/
def code (d : ProcedureDesc) : List InstructionDesc := d.blocks.flatMap BlockDesc.instructions

/-- The names that are mentioned before an instruction has them, each once. -/
def freeNames (d : ProcedureDesc) : List String := (freeMentions [] d.code).dedup

end ProcedureDesc

/-- The last instruction adds the operands that no instruction before it has as a name. -/
theorem mem_freeMentions_concat (given : List String) (code : List InstructionDesc)
    (desc : InstructionDesc) (name : String) :
    name ∈ freeMentions given (code ++ [desc]) ↔ name ∈ freeMentions given code ∨
      name ∈ desc.operands ∧ name ∉ given ∧ ∀ e ∈ code, e.name ≠ some name := by
  induction code generalizing given with
  | nil => simp [freeMentions]
  | cons first code ih =>
    simp only [List.cons_append, freeMentions, List.mem_append, ih, List.mem_cons,
      forall_eq_or_imp, Option.mem_toList]
    grind

/-! ### Values stay -/

namespace Procedure

variable {p q r : Procedure}

/-- The values of a procedure are also those of the other. -/
def ValuesKept (p q : Procedure) : Prop := ∀ id v, p.value? id = some v → q.value? id = some v

theorem ValuesKept.trans (h : p.ValuesKept q) (h' : q.ValuesKept r) : p.ValuesKept r :=
  fun id v hv ↦ h' id v (h id v hv)

/-- A new value takes no other away. -/
theorem valuesKept_addValue (v : Value) : p.ValuesKept (p.addValue v).1 := by
  intro id w hw
  have hlt : id < p.values.size := (Array.getElem?_eq_some_iff.mp hw).1
  rw [value?, addValue, Array.getElem?_push, if_neg (Nat.ne_of_lt hlt)]
  exact hw

theorem valuesKept_append (block : BlockId) (opcode : Opcode) (operands : List ValueId)
    (name : Option String) : p.ValuesKept (p.append block opcode operands name).1 :=
  valuesKept_addValue _

theorem value?_addValue_self (v : Value) : (p.addValue v).1.value? p.values.size = some v := by
  simp [value?, addValue]

end Procedure

namespace Denotes

variable {p q : Procedure} {earlier : List Placement} {name : String} {v : ValueId}

/-- A name keeps its meaning as values are added. -/
theorem kept (h : Denotes p earlier name v) (hpq : p.ValuesKept q) : Denotes q earlier name v := by
  cases h with
  | result hearlier hname hlatest => exact .result hearlier hname hlatest
  | shared hunnamed hvalue => exact .shared hunnamed (hpq _ _ hvalue)

/-- A name keeps its meaning behind an instruction of another name. -/
theorem concat (h : Denotes p earlier name v) {e : Placement} (he : e.1.name ≠ some name) :
    Denotes p (earlier ++ [e]) name v := by
  cases h with
  | result hearlier hname hlatest =>
    subst hearlier
    exact .result (List.append_assoc ..) hname (unnamed_concat.mpr ⟨hlatest, he⟩)
  | shared hunnamed hvalue => exact .shared (unnamed_concat.mpr ⟨hunnamed, he⟩) hvalue

/-- The name of the last instruction stands for its result. -/
theorem last (desc : InstructionDesc) (inst : Instruction) (hname : desc.name = some name) :
    Denotes p (earlier ++ [(desc, inst)]) name inst.result :=
  .result rfl hname fun _ hx ↦ absurd hx List.not_mem_nil

end Denotes

section Placements

variable {p q : Procedure} {placed : List Placement} {e : Placement}

theorem OperandsResolved.kept (h : OperandsResolved p placed) (hpq : p.ValuesKept q) :
    OperandsResolved q placed := by
  intro pre e post hsplit
  exact (h pre e post hsplit).imp fun _ _ hid ↦ hid.kept hpq

/-- A last instruction does not change what the operands of the others stand for. -/
theorem OperandsResolved.concat (h : OperandsResolved p placed)
    (he : List.Forall₂ (Denotes p placed) e.1.operands e.2.operands) :
    OperandsResolved p (placed ++ [e]) := by
  intro pre e' post hsplit
  rcases List.eq_nil_or_concat post with rfl | ⟨rest, last, rfl⟩
  · obtain ⟨rfl, hlast⟩ := List.append_inj' hsplit rfl
    cases hlast
    exact he
  · rw [List.concat_eq_append, ← List.cons_append, ← List.append_assoc] at hsplit
    obtain ⟨hfront, -⟩ := List.append_inj' hsplit rfl
    exact h pre e' rest hfront

theorem ResultsNamed.kept (h : ResultsNamed p placed) (hpq : p.ValuesKept q) :
    ResultsNamed q placed := by
  intro e he
  obtain ⟨v, hv, hname⟩ := h e he
  exact ⟨v, hpq _ _ hv, hname⟩

theorem resultsNamed_concat : ResultsNamed p (placed ++ [e]) ↔
    ResultsNamed p placed ∧ ∃ v, p.value? e.2.result = some v ∧ v.name = e.1.name := by
  simp only [ResultsNamed, List.mem_append, List.mem_singleton, or_imp, forall_and, forall_eq]

end Placements

/-! ### Placing instructions -/

namespace Assembly

/-- Names stand for what they should behind the instructions placed so far, whose operands have been
resolved as they should; the values that are no results have been allocated for free names. -/
structure Named (earlier : List Placement) (free : List String) (a : Assembly) : Prop where
  nodup : free.Nodup
  unowned : a.procedure.values.toList.filter (fun v ↦ v.definedBy.isNone) =
    free.map fun name ↦ ⟨some name, none⟩
  known : ∀ name v, a.scope[name]? = some v → Denotes a.procedure earlier name v
  unknown : ∀ name, a.scope[name]? = none → name ∉ free ∧ Unnamed earlier name
  operands : OperandsResolved a.procedure earlier
  results : ResultsNamed a.procedure earlier

private theorem getElem?_insert_name (scope : Std.ExtTreeMap String ValueId compare)
    (name other : String) (v : ValueId) :
    (scope.insert name v)[other]? = if name = other then some v else scope[other]? := by
  simp [Std.ExtTreeMap.getElem?_insert]

/-- Behind an instruction its name stands for its result, and every other name for what it did. -/
theorem scope_place (a : Assembly) (block : BlockId) (desc : InstructionDesc) (name : String) :
    (a.place block desc).scope[name]? = if desc.name = some name
      then some (a.resolveAll desc.operands).1.procedure.values.size
      else (a.resolveAll desc.operands).1.scope[name]? := by
  unfold place
  cases desc.name with
  | none => simp
  | some result =>
    simp only [Option.some.injEq]
    exact getElem?_insert_name _ _ _ _

/-- The result of an instruction is allocated behind its operands. -/
theorem values_place (a : Assembly) (block : BlockId) (desc : InstructionDesc) :
    ∃ site, (a.place block desc).procedure.values =
      (a.resolveAll desc.operands).1.procedure.values.push ⟨desc.name, some site⟩ := by
  rw [procedure_place]
  exact ⟨_, rfl⟩

namespace Named

variable {a : Assembly} {earlier : List Placement} {free : List String}

/-- Values of a name that are no results are those of free names. -/
theorem mem_free_iff (h : Named earlier free a) {name : String} :
    name ∈ free ↔ ∃ v, a.procedure.value? v = some ⟨some name, none⟩ := by
  have hmem : name ∈ free ↔ (⟨some name, none⟩ : Value) ∈ a.procedure.values.toList.filter
      fun v ↦ v.definedBy.isNone := by
    rw [h.unowned]
    simp
  rw [hmem]
  simp [Procedure.value?, Array.mem_iff_getElem?]

/-- A name that stands for nothing yet becomes free, and stands for a new value. -/
theorem introduce (h : Named earlier free a) {name : String} (hscope : a.scope[name]? = none) :
    Named earlier (free ++ [name]) ⟨(a.procedure.addValue ⟨some name, none⟩).1,
      a.scope.insert name a.procedure.values.size⟩ := by
  obtain ⟨hfree, hunnamed⟩ := h.unknown name hscope
  have hkept := a.procedure.valuesKept_addValue ⟨some name, none⟩
  refine ⟨?_, ?_, ?_, ?_, h.operands.kept hkept, h.results.kept hkept⟩
  · simpa using h.nodup.concat hfree
  · rw [List.map_append, ← h.unowned]
    simp [Procedure.addValue]
  · intro x v hx
    rw [getElem?_insert_name] at hx
    by_cases hxname : name = x
    · subst hxname
      rw [if_pos rfl] at hx
      cases hx
      exact .shared hunnamed (Procedure.value?_addValue_self _)
    · rw [if_neg hxname] at hx
      exact (h.known x v hx).kept hkept
  · intro x hx
    rw [getElem?_insert_name] at hx
    by_cases hxname : name = x
    · simp [hxname] at hx
    · rw [if_neg hxname] at hx
      obtain ⟨hxfree, hxunnamed⟩ := h.unknown x hx
      exact ⟨by simp [hxfree, Ne.symm hxname], hxunnamed⟩

/-- A name that stands for something is free if no instruction has it. -/
theorem mem_free_of_known (h : Named earlier free a) {name : String} {id : ValueId}
    (hscope : a.scope[name]? = some id) (hunnamed : Unnamed earlier name) : name ∈ free := by
  cases h.known name id hscope with
  | result hearlier hname _ =>
    subst hearlier
    exact absurd hname (hunnamed _ (List.mem_append_right _ List.mem_cons_self))
  | shared _ hvalue => exact h.mem_free_iff.mpr ⟨id, hvalue⟩

/-- Resolving a name leads to what it stands for; it becomes free if no instruction has it. -/
theorem resolve (h : Named earlier free a) (name : String) :
    ∃ free', Named earlier free' (a.resolve name).1 ∧
      (∀ x, x ∈ free' ↔ x ∈ free ∨ x = name ∧ Unnamed earlier x) ∧
      a.procedure.ValuesKept (a.resolve name).1.procedure ∧
      Denotes (a.resolve name).1.procedure earlier name (a.resolve name).2 := by
  cases hscope : a.scope[name]? with
  | some id =>
    have hresolve : a.resolve name = (a, id) := by rw [Assembly.resolve, hscope]
    rw [hresolve]
    refine ⟨free, h, ?_, fun _ _ hv ↦ hv, h.known name id hscope⟩
    intro x
    constructor
    · exact .inl
    · rintro (hx | ⟨rfl, hunnamed⟩)
      · exact hx
      · exact h.mem_free_of_known hscope hunnamed
  | none =>
    have hunnamed := (h.unknown name hscope).2
    have hresolve : a.resolve name =
        (⟨(a.procedure.addValue ⟨some name, none⟩).1,
          a.scope.insert name a.procedure.values.size⟩, a.procedure.values.size) := by
      rw [Assembly.resolve, hscope]
      rfl
    rw [hresolve]
    refine ⟨free ++ [name], h.introduce hscope, ?_, a.procedure.valuesKept_addValue _,
      .shared hunnamed (Procedure.value?_addValue_self _)⟩
    intro x
    rw [List.mem_append, List.mem_singleton]
    constructor
    · rintro (hx | rfl)
      · exact .inl hx
      · exact .inr ⟨rfl, hunnamed⟩
    · exact fun hx ↦ hx.imp_right And.left

/-- The operands of an instruction are resolved one by one, and none changes what the others stand
for. -/
theorem resolveAll (h : Named earlier free a) (names : List String) :
    ∃ free', Named earlier free' (a.resolveAll names).1 ∧
      (∀ x, x ∈ free' ↔ x ∈ free ∨ x ∈ names ∧ Unnamed earlier x) ∧
      a.procedure.ValuesKept (a.resolveAll names).1.procedure ∧
      List.Forall₂ (Denotes (a.resolveAll names).1.procedure earlier) names
        (a.resolveAll names).2 := by
  induction names generalizing a free with
  | nil => exact ⟨free, h, by simp, fun _ _ hv ↦ hv, .nil⟩
  | cons name names ih =>
    obtain ⟨free₁, h₁, hfree₁, hkept₁, hid⟩ := h.resolve name
    obtain ⟨free₂, h₂, hfree₂, hkept₂, hids⟩ := ih h₁
    refine ⟨free₂, h₂, ?_, hkept₁.trans hkept₂, .cons (hid.kept hkept₂) hids⟩
    intro x
    rw [hfree₂, hfree₁, List.mem_cons, or_assoc, or_and_right]

/-- An instruction is placed: its operands stand for what they should behind the instructions before
it, and from then on its name stands for its result. -/
theorem place (h : Named earlier free a) (block : BlockId) (desc : InstructionDesc) :
    ∃ free', Named (earlier ++ [(desc, ⟨.ofMnemonic desc.opcode, (a.resolveAll desc.operands).2,
        (a.resolveAll desc.operands).1.procedure.values.size⟩)]) free' (a.place block desc) ∧
      ∀ x, x ∈ free' ↔ x ∈ free ∨ x ∈ desc.operands ∧ Unnamed earlier x := by
  obtain ⟨free', hresolved, hfree', -, hids⟩ := h.resolveAll desc.operands
  obtain ⟨site, hvalues⟩ := values_place a block desc
  have hkept : (a.resolveAll desc.operands).1.procedure.ValuesKept
      (a.place block desc).procedure := by
    rw [procedure_place]
    exact Procedure.valuesKept_append _ _ _ _
  refine ⟨free', ⟨hresolved.nodup, ?_, ?_, ?_, ?_, ?_⟩, hfree'⟩
  · rw [hvalues, ← hresolved.unowned]
    simp
  · intro x v hx
    rw [scope_place] at hx
    by_cases hname : desc.name = some x
    · rw [if_pos hname] at hx
      cases hx
      exact .last _ _ hname
    · rw [if_neg hname] at hx
      exact ((hresolved.known x v hx).kept hkept).concat hname
  · intro x hx
    rw [scope_place] at hx
    by_cases hname : desc.name = some x
    · simp [hname] at hx
    · rw [if_neg hname] at hx
      obtain ⟨hxfree, hxunnamed⟩ := hresolved.unknown x hx
      exact ⟨hxfree, unnamed_concat.mpr ⟨hxunnamed, hname⟩⟩
  · apply (hresolved.operands.kept hkept).concat
    exact hids.imp fun _ _ hid ↦ hid.kept hkept
  · apply resultsNamed_concat.mpr
    exact ⟨hresolved.results.kept hkept, ⟨desc.name, some site⟩,
      by simp [Procedure.value?, hvalues], rfl⟩

end Named

/-- Operands add nothing to a scan. -/
theorem scanned_resolveAll (a : Assembly) (names : List String) :
    (a.resolveAll names).1.procedure.scanned = a.procedure.scanned :=
  resolveAll_keeps (P := fun p ↦ p.scanned = a.procedure.scanned) (fun _ _ hp ↦ hp) rfl names

/-- Nothing has been placed or named. -/
structure Bare (a : Assembly) : Prop where
  scope : a.scope = ∅
  values : a.procedure.values = #[]
  code : ∀ b, a.procedure.code b = []

theorem Bare.named {a : Assembly} (ha : a.Bare) : Named [] [] a := by
  refine ⟨.nil, by simp [ha.values], ?_, ?_, ?_, ?_⟩
  · intro name v h
    simp [ha.scope] at h
  · intro name _
    exact ⟨List.not_mem_nil, fun _ he ↦ absurd he List.not_mem_nil⟩
  · intro pre e post h
    simp at h
  · intro e he
    exact absurd he List.not_mem_nil

/-- Instructions that are placed block by block follow each other in the scan, and their operands
stand for what they should. -/
theorem named_placeEach {a : Assembly} (ha : a.Bare) (placed : List (BlockId × InstructionDesc))
    (hplaced : ∀ e ∈ placed, e.1 < a.procedure.blocks.size)
    (hascending : placed.Pairwise fun e e' ↦ e.1 ≤ e'.1) :
    (a.placeEach placed).procedure.scanned.length = placed.length ∧
    ∃ free, Named ((placed.map Prod.snd).zip (a.placeEach placed).procedure.scanned) free
        (a.placeEach placed) ∧
      ∀ x, x ∈ free ↔ x ∈ freeMentions [] (placed.map Prod.snd) := by
  induction placed using List.reverseRecOn with
  | nil =>
    have hscanned : a.procedure.scanned = [] := by
      simp [Procedure.scanned, Procedure.codeFrom, Procedure.codeOf, ha.code]
    refine ⟨by simp [placeEach, hscanned], [], ?_, by simp [freeMentions]⟩
    exact ha.named
  | append_singleton placed e ih =>
    rw [List.pairwise_append] at hascending
    have hfront (e' : BlockId × InstructionDesc) (he' : e' ∈ placed) :
        e'.1 < a.procedure.blocks.size := hplaced e' (List.mem_append_left _ he')
    obtain ⟨hlength, free, hnamed, hfree⟩ := ih hfront hascending.1
    -- no block behind the one at hand has code yet
    have hbehind (b : BlockId) (hb : e.1 < b) :
        ((a.placeEach placed).resolveAll e.2.operands).1.procedure.code b = [] := by
      have hentries : entriesOf placed b = [] := by
        apply entriesOf_eq_nil
        intro e' he'
        have hle := hascending.2.2 e' he' e (List.mem_singleton_self e)
        exact Nat.ne_of_lt (Nat.lt_of_le_of_lt hle hb)
      have hshape := a.shape_placeEach ha.code placed hfront b
      rw [hentries, List.map_nil, List.map_eq_nil_iff] at hshape
      rw [code_resolveAll, hshape]
    have hblock : e.1 < (a.placeEach placed).procedure.blocks.size := by
      rw [size_blocks_placeEach]
      exact hplaced e (by simp)
    have hscanned := scanned_place hblock e.2 hbehind
    rw [scanned_resolveAll] at hscanned
    obtain ⟨free', hnamed', hfree'⟩ := hnamed.place e.1 e.2
    have hdescs : (placed.map Prod.snd).length = (a.placeEach placed).procedure.scanned.length := by
      rw [List.length_map, hlength]
    rw [placeEach_concat, hscanned, List.map_append, List.zip_append hdescs]
    refine ⟨by simp [hlength], free', hnamed', ?_⟩
    intro x
    have hunnamed : Unnamed ((placed.map Prod.snd).zip (a.placeEach placed).procedure.scanned) x ↔
        ∀ desc ∈ placed.map Prod.snd, desc.name ≠ some x := by
      conv_rhs => rw [← List.map_fst_zip (Nat.le_of_eq hdescs)]
      rw [List.forall_mem_map]
      rfl
    rw [hfree', hfree, List.map_singleton, mem_freeMentions_concat, hunnamed]
    simp

end Assembly

/-! ### The whole procedure -/

namespace Procedure

variable {p : Procedure}

/-- A name of a value is what texts call it. -/
theorem valueName_of_name {id : ValueId} {v : Value} {name : String} (h : p.value? id = some v)
    (hname : v.name = some name) : p.valueName id = name := by
  simp [valueName, h, hname]

/-- The values that are said to be defined somewhere are the results, in the order of the code. -/
theorem WellBuilt.results_eq (hp : p.WellBuilt) (hcode : InOrder p.scanned) :
    (List.range p.values.size).filter (fun id ↦ (p.site? id).isSome) =
      p.scanned.map Instruction.result := by
  -- both lists ascend, so it is enough to compare their members
  apply List.Pairwise.eq_of_mem_iff (r := (· < ·))
  · exact List.pairwise_lt_range.filter _
  · rw [List.pairwise_map]
    exact hcode.ascending
  · intro id
    rw [List.mem_filter, List.mem_range, List.mem_map]
    constructor
    · rintro ⟨-, hsite⟩
      obtain ⟨⟨b, i⟩, hsite⟩ := Option.isSome_iff_exists.mp hsite
      obtain ⟨v, hv, hdefined⟩ := Option.bind_eq_some_iff.mp hsite
      obtain ⟨inst, hinst, hresult⟩ := hp.definition_result id v b i hv hdefined
      exact ⟨inst, p.mem_scanned.mpr ⟨b, i, hinst⟩, hresult⟩
    · rintro ⟨inst, hinst, rfl⟩
      obtain ⟨b, i, hinst⟩ := p.mem_scanned.mp hinst
      obtain ⟨v, hv, hdefined⟩ := hp.result_defined b i inst hinst
      refine ⟨(Array.getElem?_eq_some_iff.mp hv).1, ?_⟩
      simp [site?, hv, hdefined]

end Procedure

/-- In code that is in order no operand is the result of the same or a later instruction. -/
theorem InOrder.result_notMem_operands {pre post : List Instruction} {inst later : Instruction}
    (h : InOrder (pre ++ inst :: post)) (hlater : later ∈ inst :: post) :
    later.result ∉ inst.operands := by
  intro hmem
  have hrest : InOrder (inst :: post) := h.sublist (List.sublist_append_right pre _)
  have hlt : later.result < inst.result := hrest.operands inst List.mem_cons_self _ hmem
  rcases List.mem_cons.mp hlater with rfl | hpost
  · exact Nat.lt_irrefl _ hlt
  · exact Nat.lt_asymm hlt ((List.pairwise_cons.mp hrest.ascending).1 later hpost)

/-- A value is called by the name that stands for it. -/
theorem Denotes.valueName_eq {p : Procedure} {earlier : List Placement} {name : String}
    {id : ValueId} (h : Denotes p earlier name id)
    (hresults : ResultsNamed p earlier) : p.valueName id = name := by
  cases h with
  | result hearlier hname _ =>
    subst hearlier
    obtain ⟨v, hv, hvname⟩ := hresults _ (List.mem_append_right _ List.mem_cons_self)
    exact Procedure.valueName_of_name hv (hvname.trans hname)
  | shared _ hvalue => exact Procedure.valueName_of_name hvalue rfl

namespace Assembly.Named

variable {a : Assembly} {earlier : List Placement} {free : List String}

/-- A free name has one value. -/
theorem shared_unique (h : Named earlier free a) {name : String} {id id' : ValueId}
    (hid : a.procedure.value? id = some ⟨some name, none⟩)
    (hid' : a.procedure.value? id' = some ⟨some name, none⟩) : id = id' := by
  have hnodup : (a.procedure.values.toList.filter fun v ↦ v.definedBy.isNone).Nodup := by
    rw [h.unowned]
    apply h.nodup.map
    intro x y hxy
    simpa using hxy
  rw [List.Nodup, List.pairwise_filter, List.pairwise_iff_getElem] at hnodup
  obtain ⟨hlt, hvalue⟩ := Array.getElem?_eq_some_iff.mp hid
  obtain ⟨hlt', hvalue'⟩ := Array.getElem?_eq_some_iff.mp hid'
  rcases Nat.lt_trichotomy id id' with hlt'' | heq | hlt''
  · have hne := hnodup id id' hlt hlt' hlt''
    simp [hvalue, hvalue'] at hne
  · exact heq
  · have hne := hnodup id' id hlt' hlt hlt''
    simp [hvalue, hvalue'] at hne

/-- Operands are called as described. -/
theorem operand_names (h : Named earlier free a) {e : Placement} (he : e ∈ earlier) :
    e.2.operands.map a.procedure.valueName = e.1.operands := by
  obtain ⟨pre, post, hsplit⟩ := List.append_of_mem he
  have hoperands := h.operands pre e post hsplit
  have hresults : ResultsNamed a.procedure pre := by
    intro e' he'
    apply h.results e'
    rw [hsplit]
    exact List.mem_append_left _ he'
  have hnames : List.Forall₂ (· = ·) e.1.operands (e.2.operands.map a.procedure.valueName) := by
    rw [List.forall₂_map_right_iff]
    exact hoperands.imp fun name id hid ↦ (hid.valueName_eq hresults).symm
  rw [List.forall₂_eq_eq_eq] at hnames
  exact hnames.symm

end Assembly.Named

namespace ProcedureDesc

/-- Names stand for the values of a procedure as the description says. -/
structure NamesResolved (d : ProcedureDesc) (p : Procedure) : Prop where
  /-- Every described instruction has an instruction at the same place of the code. -/
  length : p.scanned.length = d.code.length
  /-- An operand is the latest earlier result of its name, or else a value of that name that is no
  result. -/
  operands : OperandsResolved p (d.code.zip p.scanned)
  /-- There is only one such value of a name. -/
  shared : ∀ name id id', p.value? id = some ⟨some name, none⟩ →
    p.value? id' = some ⟨some name, none⟩ → id = id'
  operand_names : ∀ e ∈ d.code.zip p.scanned, e.2.operands.map p.valueName = e.1.operands
  result_names : ResultsNamed p (d.code.zip p.scanned)
  /-- The values that are defined somewhere are the results of the instructions. -/
  arena_results : (List.range p.values.size).filter (fun id ↦ (p.site? id).isSome) =
    p.scanned.map Instruction.result
  /-- The other values are those of the free names. -/
  arena_shared : (p.values.toList.filter fun v ↦ v.definedBy.isNone).Perm
    (d.freeNames.map fun name ↦ ⟨some name, none⟩)
  /-- No operand is the result of the same or a later instruction. -/
  backward : ∀ pre inst post, p.scanned = pre ++ inst :: post →
    ∀ later ∈ inst :: post, later.result ∉ inst.operands

variable (d : ProcedureDesc)

/-- Before the first instruction nothing has been placed or named. -/
theorem bare_linkAll_allocate : ({ procedure := d.linkAll d.allocate } : Assembly).Bare where
  scope := rfl
  values := by
    have hallocate : d.allocate.values = #[] :=
      List.foldlRecOn d.blocks (motive := fun p : Procedure ↦ p.values = #[]) _ rfl
        fun _ hp _ _ ↦ hp
    rw [linkAll_eq]
    apply linkEach_keeps (P := fun p ↦ p.values = #[]) _ hallocate
    intro p source target hp
    unfold Procedure.link
    split <;> exact hp
  code := d.code_linkAll_allocate

/-- What is placed is the described code. -/
theorem map_snd_entries : (d.entries BlockDesc.instructions).map Prod.snd = d.code := by
  have hblocks : d.blocks = d.blocks.zipIdx.map Prod.fst := (List.zipIdx_map_fst 0 d.blocks).symm
  rw [code, hblocks, entries, List.map_flatMap, List.flatMap_map]
  simp [Function.comp_def]

/-- In the assembled procedure operands stand for what they should. -/
theorem named_assemble :
    d.assemble.scanned.length = d.code.length ∧
    ∃ free, Assembly.Named (d.code.zip d.assemble.scanned) free
        (d.placeAll { procedure := d.linkAll d.allocate }) ∧
      ∀ x, x ∈ free ↔ x ∈ freeMentions [] d.code := by
  have hplaced : ∀ e ∈ d.entries BlockDesc.instructions,
      e.1 < (d.linkAll d.allocate).blocks.size := by
    intro e he
    rw [size_linkAll_allocate]
    exact d.fst_lt_of_mem_entries _ he
  have hnamed := Assembly.named_placeEach d.bare_linkAll_allocate _ hplaced (d.entries_ascending _)
  rw [map_snd_entries, ← Assembly.placeAll_eq, ← List.length_map Prod.snd,
    map_snd_entries] at hnamed
  exact hnamed

/-- In the procedure of an accepted description every operand stands for the latest earlier result
of its name, or for the one value of that name that is no result, and is called by that name; every
result has the name of its instruction. There is a value for each instruction and one for each name
that is mentioned before an instruction has it, and no operand refers forward. -/
theorem operands_resolved (d : ProcedureDesc) (p : Procedure) (h : d.toProcedure = .ok p) :
    d.NamesResolved p := by
  have hbuilt : p.WellBuilt := wellBuilt_of_toProcedure h
  have hcode : InOrder p.scanned := inOrder_of_toProcedure h
  obtain ⟨-, rfl⟩ := toProcedure_eq_ok_iff.mp h
  obtain ⟨hlength, free, hnamed, hfree⟩ := d.named_assemble
  refine ⟨hlength, hnamed.operands, fun _ _ _ ↦ hnamed.shared_unique,
    fun _ ↦ hnamed.operand_names, hnamed.results, hbuilt.results_eq hcode, ?_, ?_⟩
  · have hperm : free.Perm d.freeNames := by
      apply (List.perm_ext_iff_of_nodup hnamed.nodup (List.nodup_dedup _)).mpr
      intro x
      rw [hfree, List.mem_dedup]
    have hunowned := hnamed.unowned
    change (d.assemble.values.toList.filter fun v ↦ v.definedBy.isNone) = _ at hunowned
    rw [hunowned]
    exact hperm.map _
  · intro pre inst post hsplit later hlater
    rw [hsplit] at hcode
    exact hcode.result_notMem_operands hlater

/-- A name that is mentioned before, by and after the instructions that have it, and another one
that an instruction gets only after its first mention. -/
def eclipse : ProcedureDesc where
  name := "eclipse"
  blocks := [
    { name := "a", successors := ["b"]
      instructions := [
        { opcode := "store", operands := ["x", "x"] },
        { name := some "x", opcode := "add", operands := ["x", "p"] }] },
    { name := "b"
      instructions := [
        { name := some "x", opcode := "load", operands := ["x"] },
        { name := some "p", opcode := "phi" },
        { opcode := "call", operands := ["p", "x"] }] }]

/-- The procedure of the eclipse. -/
def eclipseProcedure : Procedure where
  name := "eclipse"
  values := #[⟨some "x", none⟩, ⟨none, some (0, 0)⟩, ⟨some "p", none⟩, ⟨some "x", some (0, 1)⟩,
    ⟨some "x", some (1, 0)⟩, ⟨some "p", some (1, 1)⟩, ⟨none, some (1, 2)⟩]
  blocks := #[
    { id := 0, name := "a", instructions := #[⟨.store, [0, 0], 1⟩, ⟨.add, [0, 2], 3⟩]
      successors := [1], predecessors := [] },
    { id := 1, name := "b"
      instructions := #[⟨.load, [3], 4⟩, ⟨.other "phi", [], 5⟩, ⟨.other "call", [5, 4], 6⟩]
      successors := [], predecessors := [0] }]

/-- The first two instructions of the eclipse share a value, the third mentions the result of the
second, and the last one those of the two before it. -/
theorem eclipse_resolved :
    eclipse.toProcedure = .ok eclipseProcedure ∧ eclipse.freeNames = ["x", "p"] ∧
    eclipse.NamesResolved eclipseProcedure ∧
    eclipseProcedure.scanned.map Instruction.operands = [[0, 0], [0, 2], [3], [], [5, 4]] ∧
    (eclipseProcedure.values.toList.filter fun v ↦ v.definedBy.isNone).Perm
      [⟨some "x", none⟩, ⟨some "p", none⟩] := by
  have heclipse : eclipse.toProcedure = .ok eclipseProcedure := by decide +kernel
  have hfree : eclipse.freeNames = ["x", "p"] := by decide +kernel
  have hresolved := operands_resolved eclipse eclipseProcedure heclipse
  have hshared := hresolved.arena_shared
  rw [hfree] at hshared
  exact ⟨heclipse, hfree, hresolved, by decide +kernel, hshared⟩

end ProcedureDesc

end BlockFlow
