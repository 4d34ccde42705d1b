import BlockFlow.Proofs.Description.Order
import BlockFlow.Proofs.Numbering.Scan
import BlockFlow.Proofs.Numbering.Substitution

/-!
# Redundancy on executions

An execution starts at the first block and follows successors; loads and stores copy, operators
compute, and an instruction that the analyses pass over gives its result any value. A record is
redundant by what the scan met before its instruction, whether an execution comes that way or not:
in the right branch of a fork a computation is marked for what only the left branch computes. Main
statement: what is marked when only a part of the code is numbered has been computed before on every
execution that has carried out that part, in the order of the scan and with nothing in between that
interferes with it. The blocks that an execution has just come through are such a part if they are
in block order, and so is the block of the instruction alone.
-/

namespace BlockFlow.Numbering

/-! ### Executions -/

/-- An instruction is carried out. -/
inductive Symbolic.Executes (s : Symbolic) (inst : Instruction) : Symbolic → Prop
  | known (h : ∀ name, inst.opcode ≠ .other name) : Executes s inst (s.step inst)
  | other (name : String) (h : inst.opcode = .other name) (value : Term) :
    Executes s inst (s.assign inst.result value)

/-- Instructions are carried out one after the other. -/
inductive Symbolic.ExecutesAll : Symbolic → List Instruction → Symbolic → Prop
  | nil (s : Symbolic) : ExecutesAll s [] s
  | cons {s mid s' : Symbolic} {inst : Instruction} {code : List Instruction} :
    Executes s inst mid → ExecutesAll mid code s' → ExecutesAll s (inst :: code) s'

/-- An execution has come to a position of a block, after it has carried out some instructions. -/
inductive Reaches (p : Procedure) (initial : ValueId → Term) :
    List Instruction → BlockId → Nat → Symbolic → Prop
  | enter : Reaches p initial [] 0 0 ⟨initial, []⟩
  | run {ran : List Instruction} {b : BlockId} {i : Nat} {s s' : Symbolic} {inst : Instruction} :
    Reaches p initial ran b i s → p.instruction? b i = some inst → s.Executes inst s' →
      Reaches p initial (ran ++ [inst]) b (i + 1) s'
  | jump {ran : List Instruction} {b target : BlockId} {s : Symbolic} :
    Reaches p initial ran b (p.code b).length s → target ∈ p.successors b →
      Reaches p initial ran target 0 s

namespace Symbolic.ExecutesAll

variable {s s' : Symbolic} {code more : List Instruction}

theorem append {mid : Symbolic} (h : ExecutesAll s code mid) (h' : ExecutesAll mid more s') :
    ExecutesAll s (code ++ more) s' := by
  induction h with
  | nil s => exact h'
  | cons hinst _ ih => exact .cons hinst (ih h')

/-- Code in two parts is carried out part by part. -/
theorem split (h : ExecutesAll s (code ++ more) s') :
    ∃ mid, ExecutesAll s code mid ∧ ExecutesAll mid more s' := by
  induction code generalizing s with
  | nil => exact ⟨s, .nil s, h⟩
  | cons inst code ih =>
    cases h with
    | cons hinst hrest =>
      obtain ⟨mid, hcode, hmore⟩ := ih hrest
      exact ⟨mid, .cons hinst hcode, hmore⟩

end Symbolic.ExecutesAll

/-! ### Parts of an execution -/

/-- The value that an instruction changes when it is carried out. -/
def written? (inst : Instruction) : Option ValueId :=
  match inst.opcode, inst.effect with
  | .other _, _ | _, .load _ | _, .compute _ _ _ => some inst.result
  | _, .store _ address => some address
  | _, .none => none

/-- The instruction has to do with the value. -/
def Mentions (inst : Instruction) (v : ValueId) : Prop := v ∈ inst.operands ∨ inst.result = v

/-- What an instruction does when it is carried out: nothing, or it changes one value, and may note
what it has computed. -/
theorem Symbolic.Executes.cases_written {s s' : Symbolic} {inst : Instruction}
    (h : s.Executes inst s') :
    s' = s ∨ ∃ v term, written? inst = some v ∧
      (s' = s.assign v term ∨ s' = (s.note term).assign v term) := by
  cases h with
  | known hknown =>
    rw [step_eq]
    unfold written?
    cases heffect : inst.effect with
    | load address => exact .inr ⟨_, _, by cases inst.opcode <;> rfl, .inl rfl⟩
    | store value address => exact .inr ⟨_, _, by grind, .inl rfl⟩
    | compute op lhs rhs => exact .inr ⟨_, _, by cases inst.opcode <;> rfl, .inr rfl⟩
    | none => exact .inl rfl
  | other name hother value =>
    exact .inr ⟨inst.result, value, by rw [written?, hother], .inl rfl⟩

/-- The kept instructions are among those that were carried out, in this order, and none of the
others has changed a value that the kept ones had mentioned by then. -/
inductive Weaves : List Instruction → List Instruction → Prop
  | nil : Weaves [] []
  | keep {kept ran : List Instruction} (inst : Instruction) :
    Weaves kept ran → Weaves (kept ++ [inst]) (ran ++ [inst])
  | pass {kept ran : List Instruction} (inst : Instruction) :
    Weaves kept ran → (∀ v, written? inst = some v → ∀ x ∈ kept, ¬Mentions x v) →
      Weaves kept (ran ++ [inst])

namespace Weaves

variable {kept ran : List Instruction}

/-- What follows may be kept. -/
theorem append (h : Weaves kept ran) (code : List Instruction) :
    Weaves (kept ++ code) (ran ++ code) := by
  induction code using List.reverseRecOn with
  | nil => simpa using h
  | append_singleton code inst ih => simpa using ih.keep inst

/-- Before the first kept instruction anything may be carried out. -/
theorem of_suffix (h : kept <:+ ran) : Weaves kept ran := by
  obtain ⟨front, rfl⟩ := h
  suffices hfront : Weaves [] front from hfront.append kept
  induction front using List.reverseRecOn with
  | nil => exact .nil
  | append_singleton front inst ih => exact ih.pass inst (by simp)

/-- On an execution the kept instructions do what they do in a scan, under a substitution that knows
the store they start from, what instructions without known effect give, and what those in between
change. -/
theorem exists_mirrors (h : Weaves kept ran) (hkept : InOrder kept) {s s' : Symbolic}
    (hran : Symbolic.ExecutesAll s ran s') :
    ∃ θ, Symbolic.Mirrors θ (Symbolic.start.after kept) s' := by
  induction h generalizing s' with
  | nil =>
    cases hran
    exact ⟨s.store, .of_start s⟩
  | @keep kept ran inst _ ih =>
    obtain ⟨mid, hfront, hlast⟩ := hran.split
    obtain ⟨θ, hmirrors⟩ := ih (hkept.sublist (List.sublist_append_left kept [inst])) hfront
    rcases hlast with _ | ⟨hinst, ⟨⟩⟩
    rw [Symbolic.after_concat]
    cases hinst with
    | known hknown => exact ⟨θ, hmirrors.step inst⟩
    | other name hother value =>
      -- the scan passes the instruction over: its result still stands for itself
      have hsame : (Symbolic.start.after kept).step inst = Symbolic.start.after kept := by
        rw [Symbolic.step_eq, Instruction.effect, hother]
      have hfresh : Symbolic.Fresh inst.result (Symbolic.start.after kept) := by
        refine (Symbolic.fresh_start inst.result).after ?_
        intro x hx
        have holder : x.result < inst.result :=
          (List.pairwise_append.mp hkept.ascending).2.2 x hx inst (by simp)
        refine ⟨fun hmem ↦ ?_, Nat.ne_of_lt holder⟩
        exact Nat.lt_asymm (hkept.operands x (by simp [hx]) _ hmem) holder
      rw [hsame]
      exact ⟨_, hmirrors.rebind hfresh value⟩
  | @pass kept ran inst _ hapart ih =>
    obtain ⟨mid, hfront, hlast⟩ := hran.split
    obtain ⟨θ, hmirrors⟩ := ih hkept hfront
    rcases hlast with _ | ⟨hinst, ⟨⟩⟩
    rcases hinst.cases_written with rfl | ⟨v, term, hwritten, hs'⟩
    · exact ⟨θ, hmirrors⟩
    · -- what is changed is fresh as far as the kept instructions are concerned
      have hfresh : Symbolic.Fresh v (Symbolic.start.after kept) :=
        (Symbolic.fresh_start v).after fun x hx ↦ not_or.mp (hapart v hwritten x hx)
      rcases hs' with rfl | rfl
      · exact ⟨_, hmirrors.rebind hfresh term⟩
      · exact ⟨_, (hmirrors.note_right term).rebind hfresh term⟩

end Weaves

namespace Reaches

variable {p : Procedure} {initial : ValueId → Term} {ran : List Instruction} {b : BlockId}
  {i : Nat} {s : Symbolic}

/-- An execution carries out the instructions it has come by. -/
theorem executesAll (h : Reaches p initial ran b i s) :
    Symbolic.ExecutesAll ⟨initial, []⟩ ran s := by
  induction h with
  | enter => exact .nil _
  | run _ _ hinst ih => exact ih.append (.cons hinst (.nil _))
  | jump _ _ ih => exact ih

/-- The last instructions of an execution are those of the block it is in. -/
theorem take_suffix (h : Reaches p initial ran b i s) : (p.code b).take i <:+ ran := by
  induction h with
  | enter => simp
  | @run ran b i s s' inst _ hinst _ ih =>
    rw [← p.getElem?_code] at hinst
    rw [List.take_add_one, hinst]
    obtain ⟨front, rfl⟩ := ih
    exact ⟨front, by simp⟩
  | jump => simp

/-- On an execution that has carried out code in order, what the code alone computes twice has been
computed before. -/
theorem knows_of_weaves (h : Reaches p initial ran b i s) {code : List Instruction}
    (hcode : InOrder code) (hran : Weaves code ran) {ordered : Bool} {inst : Instruction}
    (hknows : (Symbolic.start.after code).Knows ordered inst) : s.Knows ordered inst := by
  obtain ⟨θ, hmirrors⟩ := hran.exists_mirrors hcode h.executesAll
  exact hmirrors.knows hknows

end Reaches

/-! ### Records of instructions -/

/-- The report has a redundant record for the instruction. -/
def Flagged (ordered : Bool) (p : Procedure) (inst : Instruction) : Prop :=
  ∃ record ∈ (number ordered p).records, record.result = inst.result ∧ record.redundant = true

/-- The steps of a scan are those of its sites, each after those in front of it. -/
theorem mem_scan_iff (ordered : Bool) (sites : List Site) (step : Step) :
    step ∈ (scan ordered .empty sites).2 ↔ ∃ pre site post, sites = pre ++ site :: post ∧
      step = ⟨site, ((scan ordered .empty pre).1.assign ordered site.instruction.result
        site.instruction.effect).2⟩ := by
  induction sites using List.reverseRecOn with
  | nil => simp [scan]
  | append_singleton sites last ih =>
    rw [scan_append_singleton]
    simp only [List.mem_append, List.mem_singleton, ih]
    constructor
    · rintro (⟨pre, site, post, rfl, rfl⟩ | rfl)
      · exact ⟨pre, site, post ++ [last], by simp, rfl⟩
      · exact ⟨sites, last, [], rfl, rfl⟩
    · rintro ⟨pre, site, post, heq, rfl⟩
      rcases List.eq_nil_or_concat post with rfl | ⟨post, x, rfl⟩
      · obtain ⟨rfl, hlast⟩ := List.append_inj' heq rfl
        cases hlast
        exact .inr rfl
      · rw [List.concat_eq_append] at heq
        have hfront : sites ++ [last] = (pre ++ site :: post) ++ [x] := by simpa using heq
        exact .inl ⟨pre, site, post, (List.append_inj' hfront rfl).1, rfl⟩

/-- An instruction that computes a term is numbered. -/
theorem exists_assignment {s : Symbolic} {inst : Instruction} {term : Term}
    (h : s.computes? inst = some term) (ordered : Bool) (t : Table) :
    ∃ a, (t.assign ordered inst.result inst.effect).2 = some a := by
  rw [Symbolic.computes?_eq] at h
  cases heffect : inst.effect with
  | compute op lhs rhs => exact ⟨_, rfl⟩
  | load address => simp [heffect] at h
  | store value address => simp [heffect] at h
  | none => simp [heffect] at h

/-- In code that is in order, the record of an instruction is redundant exactly if what the
instruction computes was computed in front of it. -/
theorem flagged_iff {ordered : Bool} {p : Procedure} (hp : InOrder p.scanned)
    {pre post : List Instruction} {inst : Instruction}
    (hscanned : p.scanned = pre ++ inst :: post) :
    Flagged ordered p inst ↔ (Symbolic.start.after pre).Knows ordered inst := by
  constructor
  · rintro ⟨record, hrecord, hresult, hredundant⟩
    obtain ⟨step, hstep, hrecord⟩ := List.mem_filterMap.mp hrecord
    obtain ⟨before, site, behind, hsites, rfl⟩ := (mem_scan_iff ordered p.sites step).mp hstep
    obtain ⟨a, ha, rfl⟩ := Option.map_eq_some_iff.mp hrecord
    have hcode := p.map_instruction_sites
    rw [hsites, hscanned, List.map_append, List.map_cons] at hcode
    rw [hscanned] at hp
    obtain ⟨rfl, rfl⟩ := hp.eq_of_result hcode.symm hresult.symm
    obtain ⟨meaning, htracks⟩ := exists_tracks ordered before
    rw [← Symbolic.run_eq_after]
    exact ((htracks.assign site.instruction).2 a ha).redundant.mp hredundant
  · intro hknows
    obtain ⟨before, rest, hsites, rfl, hrest⟩ :=
      List.map_eq_append_iff.mp (p.map_instruction_sites.trans hscanned)
    obtain ⟨site, behind, rfl, rfl, -⟩ := List.map_eq_cons_iff.mp hrest
    rw [← Symbolic.run_eq_after] at hknows
    obtain ⟨meaning, htracks⟩ := exists_tracks ordered before
    have ⟨term, hterm, _⟩ := hknows
    obtain ⟨a, ha⟩ := exists_assignment hterm ordered (scan ordered .empty before).1
    have hstep := (mem_scan_iff ordered p.sites ⟨site, some a⟩).mpr
      ⟨before, site, behind, hsites, by rw [ha]⟩
    have hredundant := ((htracks.assign site.instruction).2 a ha).redundant.mpr hknows
    exact ⟨_, List.mem_filterMap.mpr ⟨_, hstep, rfl⟩, rfl, hredundant⟩

/-- What is marked as redundant when only a part of the code is numbered has been computed before on
an execution that has carried out that part. -/
theorem knows_of_flagged {p part : Procedure} (hp : InOrder p.scanned)
    (hpart : part.scanned.Sublist p.scanned) {ordered : Bool} {initial : ValueId → Term}
    {ran pre post : List Instruction} {b : BlockId} {i : Nat} {s : Symbolic} {inst : Instruction}
    (hreach : Reaches p initial ran b i s) (hscanned : part.scanned = pre ++ inst :: post)
    (hflag : Flagged ordered part inst) (hran : Weaves pre ran) : s.Knows ordered inst := by
  have horder : InOrder part.scanned := hp.sublist hpart
  have hknows := (flagged_iff horder hscanned).mp hflag
  rw [hscanned] at horder
  exact hreach.knows_of_weaves (horder.sublist (List.sublist_append_left _ _)) hran hknows

/-- What is redundant in a scan of the blocks from some block on is redundant in the whole scan. -/
theorem flagged_of_only {ordered : Bool} {p : Procedure} (hp : InOrder p.scanned)
    {first b : BlockId} (hfirst : first ≤ b) {i : Nat} {inst : Instruction}
    (hinst : p.instruction? b i = some inst)
    (h : Flagged ordered (p.only (List.range' first (b - first) ++ [b])) inst) :
    Flagged ordered p inst := by
  obtain ⟨post, hwhole⟩ := p.exists_scanned_eq hinst
  obtain ⟨rest, hscanned⟩ := p.exists_codeOf_eq (List.range' first (b - first)) hinst []
  rw [← p.scanned_only] at hscanned
  have hascending : (List.range' first (b - first) ++ [b]).Pairwise (· < ·) := by
    rw [List.pairwise_append]
    refine ⟨List.pairwise_lt_range' .., List.pairwise_singleton _ _, ?_⟩
    intro k hk
    have hlt : k < first + (b - first) := (List.mem_range'_1.mp hk).2
    simpa [Nat.add_sub_cancel' hfirst] using hlt
  have horder : InOrder (p.only (List.range' first (b - first) ++ [b])).scanned :=
    hp.sublist (p.scanned_only _ ▸ p.codeOf_sublist hascending)
  have hknows := (flagged_iff horder hscanned).mp h
  rw [flagged_iff hp hwhole, p.way_range_eq hfirst, Symbolic.after_append]
  exact ((Symbolic.Mirrors.of_start _).after _).knows hknows

/-- An execution of an accepted procedure comes to an instruction.

If the report marks the instruction as redundant, and the execution has carried out all that the
scan met before it, then what the instruction computes has been computed before on the execution.
The same holds of what is marked when only a part of the code is numbered: of some blocks in block
order that the execution has just come through, ending with that of the instruction, and of any code
that the execution has carried out in the order of the scan, with nothing in between that changes a
value which that code had mentioned by then. Of the block of the instruction alone, it holds always.
What is marked when the blocks from some block on are numbered is marked in the report. -/
theorem redundant_on_way {d : ProcedureDesc} {p : Procedure} (hd : d.toProcedure = .ok p)
    (ordered : Bool) {initial : ValueId → Term} {ran : List Instruction} {b : BlockId} {i : Nat}
    {s : Symbolic} {inst : Instruction} (hreach : Reaches p initial ran b i s)
    (hinst : p.instruction? b i = some inst) :
    (Flagged ordered p inst → Weaves (p.way (List.range b) b i) ran → s.Knows ordered inst) ∧
    (∀ before, (before ++ [b]).Pairwise (· < ·) → Flagged ordered (p.only (before ++ [b])) inst →
      before = [] ∨ p.way before b i <:+ ran → s.Knows ordered inst) ∧
    (∀ part pre post, part.scanned.Sublist p.scanned → part.scanned = pre ++ inst :: post →
      Flagged ordered part inst → Weaves pre ran → s.Knows ordered inst) ∧
    ∀ first ≤ b, Flagged ordered (p.only (List.range' first (b - first) ++ [b])) inst →
      Flagged ordered p inst := by
  have hp : InOrder p.scanned := ProcedureDesc.inOrder_of_toProcedure hd
  refine ⟨?_, ?_, ?_, fun first hfirst ↦ flagged_of_only hp hfirst hinst⟩
  · intro hflag hran
    obtain ⟨post, hscanned⟩ := p.exists_scanned_eq hinst
    exact knows_of_flagged hp (.refl _) hreach hscanned hflag hran
  · intro before hascending hflag hran
    have hway : p.way before b i <:+ ran := by
      rcases hran with rfl | hran
      · exact hreach.take_suffix
      · exact hran
    obtain ⟨post, hscanned⟩ := p.exists_codeOf_eq before hinst []
    have hpart := p.codeOf_sublist hascending
    rw [← p.scanned_only] at hscanned hpart
    exact knows_of_flagged hp hpart hreach hscanned hflag (.of_suffix hway)
  · intro part pre post hpart hscanned hflag hran
    exact knows_of_flagged hp hpart hreach hscanned hflag hran

/-- A sum that is computed in a block which may be passed by, and twice in the block after it. -/
def bypass : ProcedureDesc where
  name := "bypass"
  blocks := [
    { name := "entry", successors := ["side", "exit"] },
    { name := "side", successors := ["exit"]
      instructions := [{ opcode := "add", operands := ["x", "y"] }] },
    { name := "exit"
      instructions := [{ opcode := "add", operands := ["x", "y"] },
        { opcode := "add", operands := ["x", "y"] }] }]

/-- The procedure with a bypass. -/
def bypassProcedure : Procedure where
  name := "bypass"
  values := #[⟨some "x", none⟩, ⟨some "y", none⟩, ⟨none, some (1, 0)⟩, ⟨none, some (2, 0)⟩,
    ⟨none, some (2, 1)⟩]
  blocks := #[
    { id := 0, name := "entry", instructions := #[], successors := [1, 2], predecessors := [] },
    { id := 1, name := "side", instructions := #[⟨.add, [0, 1], 2⟩], successors := [2]
      predecessors := [0] },
    { id := 2, name := "exit", instructions := #[⟨.add, [0, 1], 3⟩, ⟨.add, [0, 1], 4⟩]
      successors := [], predecessors := [0, 1] }]

theorem bypass_toProcedure : bypass.toProcedure = .ok bypassProcedure := by decide +kernel

/-- An execution that comes by the bypass has computed nothing before. -/
theorem bypass_reaches : Reaches bypassProcedure .var [] 2 0 .start :=
  .jump (b := 0) .enter (by decide)

/-- The first sum of the last block is marked as redundant. -/
theorem bypass_flagged : Flagged false bypassProcedure ⟨.add, [0, 1], 3⟩ := by
  unfold Flagged
  decide +kernel

/-- On an execution that passes the side block by, the first sum of the last block is the first one
at all, and is marked as redundant all the same. -/
theorem bypass_redundant_unknown :
    ¬∀ (d : ProcedureDesc) (p : Procedure) (ordered : Bool) (initial : ValueId → Term)
      (ran : List Instruction) (b : BlockId) (i : Nat) (s : Symbolic) (inst : Instruction),
      d.toProcedure = .ok p → Reaches p initial ran b i s → p.instruction? b i = some inst →
        Flagged ordered p inst → s.Knows ordered inst := by
  intro hall
  obtain ⟨_, -, earlier, hearlier, -⟩ := hall bypass bypassProcedure false .var [] 2 0 .start
    ⟨.add, [0, 1], 3⟩ bypass_toProcedure bypass_reaches rfl bypass_flagged
  exact nomatch hearlier

/-- A sum in front of a fork and again behind it, in a block that may be repeated. -/
def fork : ProcedureDesc where
  name := "fork"
  blocks := [
    { name := "entry", successors := ["left", "right"]
      instructions := [{ opcode := "add", operands := ["x", "y"] }] },
    { name := "left", successors := ["join"]
      instructions := [{ opcode := "store", operands := ["z", "w"] }] },
    { name := "right", successors := ["join"]
      instructions := [{ opcode := "mul", operands := ["x", "y"] }] },
    { name := "join", successors := ["join"]
      instructions := [{ opcode := "add", operands := ["x", "y"] }] }]

/-- The procedure with a fork. -/
def forkProcedure : Procedure where
  name := "fork"
  values := #[⟨some "x", none⟩, ⟨some "y", none⟩, ⟨none, some (0, 0)⟩, ⟨some "z", none⟩,
    ⟨some "w", none⟩, ⟨none, some (1, 0)⟩, ⟨none, some (2, 0)⟩, ⟨none, some (3, 0)⟩]
  blocks := #[
    { id := 0, name := "entry", instructions := #[⟨.add, [0, 1], 2⟩], successors := [1, 2]
      predecessors := [] },
    { id := 1, name := "left", instructions := #[⟨.store, [3, 4], 5⟩], successors := [3]
      predecessors := [0] },
    { id := 2, name := "right", instructions := #[⟨.mul, [0, 1], 6⟩], successors := [3]
      predecessors := [0] },
    { id := 3, name := "join", instructions := #[⟨.add, [0, 1], 7⟩], successors := [3]
      predecessors := [1, 2, 3] }]

/-- The sum behind the fork is known when an execution first comes to it through the right branch,
and again when its block is repeated; and where a block of the other procedure was passed by, the
second sum of the block behind it is known for the first one. -/
theorem fork_redundant_known :
    fork.toProcedure = .ok forkProcedure ∧
    (∃ s, Reaches forkProcedure .var [⟨.add, [0, 1], 2⟩, ⟨.mul, [0, 1], 6⟩] 3 0 s ∧
      s.Knows false ⟨.add, [0, 1], 7⟩) ∧
    (∃ s, Reaches forkProcedure .var
        [⟨.add, [0, 1], 2⟩, ⟨.mul, [0, 1], 6⟩, ⟨.add, [0, 1], 7⟩] 3 0 s ∧
      s.Knows false ⟨.add, [0, 1], 7⟩) ∧
    ∃ s, Reaches bypassProcedure .var [⟨.add, [0, 1], 3⟩] 2 1 s ∧
      s.Knows false ⟨.add, [0, 1], 4⟩ := by
  have hadd : ∀ name, Opcode.add ≠ .other name := by simp
  have hmul : ∀ name, Opcode.mul ≠ .other name := by simp
  have hfork : fork.toProcedure = .ok forkProcedure := by decide +kernel
  have hright : Reaches forkProcedure .var [⟨.add, [0, 1], 2⟩] 2 0
      (Symbolic.start.step ⟨.add, [0, 1], 2⟩) :=
    .jump (b := 0) (.run .enter rfl (.known hadd)) (by decide)
  have hjoin : Reaches forkProcedure .var [⟨.add, [0, 1], 2⟩, ⟨.mul, [0, 1], 6⟩] 3 0 _ :=
    .jump (b := 2) (.run hright rfl (.known hmul)) (by decide)
  have hagain : Reaches forkProcedure .var
      [⟨.add, [0, 1], 2⟩, ⟨.mul, [0, 1], 6⟩, ⟨.add, [0, 1], 7⟩] 3 0 _ :=
    .jump (b := 3) (.run hjoin rfl (.known hadd)) (by decide)
  have hexit : Reaches bypassProcedure .var [⟨.add, [0, 1], 3⟩] 2 1
      (Symbolic.start.step ⟨.add, [0, 1], 3⟩) :=
    .run bypass_reaches rfl (.known hadd)
  -- the sum is marked for the blocks on the way, for its first and its last block, and alone
  have hbranch : Flagged false (forkProcedure.only [0, 2, 3]) ⟨.add, [0, 1], 7⟩ := by
    unfold Flagged
    decide +kernel
  have hends : Flagged false (forkProcedure.only [0, 3]) ⟨.add, [0, 1], 7⟩ := by
    unfold Flagged
    decide +kernel
  have halone : Flagged false (bypassProcedure.only [2]) ⟨.add, [0, 1], 4⟩ := by
    unfold Flagged
    decide +kernel
  have hwoven : Weaves [⟨.add, [0, 1], 2⟩]
      [⟨.add, [0, 1], 2⟩, ⟨.mul, [0, 1], 6⟩, ⟨.add, [0, 1], 7⟩] := by
    refine .pass _ (.pass _ (.keep _ .nil) ?_) ?_ <;> simp [written?, Instruction.effect, Mentions]
  obtain ⟨-, hblocks, -, -⟩ := redundant_on_way hfork false hjoin rfl
  obtain ⟨-, -, hpart, -⟩ := redundant_on_way hfork false hagain rfl
  obtain ⟨-, hown, -, -⟩ := redundant_on_way bypass_toProcedure false hexit rfl
  refine ⟨hfork, ⟨_, hjoin, ?_⟩, ⟨_, hagain, ?_⟩, ⟨_, hexit, ?_⟩⟩
  · exact hblocks [0, 2] (by decide) hbranch (.inr ⟨[], rfl⟩)
  · refine hpart (forkProcedure.only [0, 3]) _ [] ?_ ?_ hends hwoven
    · decide
    · rfl
  · exact hown [] (by decide) halone (.inl rfl)

end BlockFlow.Numbering
