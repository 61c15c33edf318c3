import Mathlib.Data.List.Zip
import Rejoin.Proofs.Dependence.Recoding
import Rejoin.Proofs.Listing.Lowering
import Rejoin.Report.Record

/-!
# Annotations do not interfere

Deleting annotations from a listing changes nothing in what the analysis reports, whatever values
they define or read and wherever they stand: `analyse_of_trimsTo`. Two functions with the same code
are both recoded to the function that has only this code, in which instructions are named by their
numbers, so what is found in one is found in the other.
-/

namespace Rejoin

namespace Func

variable {isa : Isa} {ν : InstId → InstId}

/-- The code of a labelled row. -/
def codeOf (isa : Isa) (row : String × List (Inst BlockId)) : String × List (Inst BlockId) :=
  (row.1, row.2.filter isa.isSubstantive)

/-- Numbers do not decide which instructions are code. -/
private theorem map_snd_filter_numberFrom (n : InstId) (insts : List (Inst BlockId)) :
    ((numberFrom n insts).filter fun entry => isa.isSubstantive entry.2).map Prod.snd =
      insts.filter isa.isSubstantive := by
  conv_rhs => rw [← map_snd_numberFrom n insts]
  rw [List.filter_map]
  rfl

/-- Numbering the code of a row is renaming it, if the new names are consecutive. -/
private theorem numberFrom_filter {insts : List (Inst BlockId)} {n m : InstId}
    (hν : (((numberFrom n insts).filter fun entry => isa.isSubstantive entry.2).map
        fun entry => ν entry.1) =
      List.range' m (insts.filter isa.isSubstantive).length) :
    numberFrom m (insts.filter isa.isSubstantive) =
      ((numberFrom n insts).filter fun entry => isa.isSubstantive entry.2).map
        fun entry => (ν entry.1, entry.2) := by
  rw [List.zip_of_prod (map_fst_numberFrom m _) (map_snd_numberFrom m _)]
  refine (List.zip_of_prod ?_ ?_).symm
  · rw [List.map_map, ← hν]
    rfl
  · rw [List.map_map, ← map_snd_filter_numberFrom n insts]
    rfl

/-- Laying out the code of rows is recoding the layout, if the new names are consecutive. -/
private theorem layFrom_codeOf {rows : List (String × List (Inst BlockId))} {n m : InstId}
    (hν : ((((layFrom n rows).flatMap Block.insts).filter fun entry =>
        isa.isSubstantive entry.2).map fun entry => ν entry.1) =
      List.range' m ((rows.flatMap Prod.snd).filter isa.isSubstantive).length) :
    layFrom m (rows.map (codeOf isa)) = (layFrom n rows).map (Block.recode isa ν) := by
  induction rows generalizing n m with
  | nil => rfl
  | cons row rest ih =>
    obtain ⟨label, insts⟩ := row
    rw [layFrom, List.flatMap_cons, List.filter_append, List.map_append, List.flatMap_cons,
      List.filter_append, List.length_append, ← List.range'_append_1] at hν
    have hlength : (((numberFrom n insts).filter fun entry => isa.isSubstantive entry.2).map
        fun entry => ν entry.1).length =
          (List.range' m (insts.filter isa.isSubstantive).length).length := by
      rw [List.length_map, List.length_range', ← map_snd_filter_numberFrom n insts,
        List.length_map]
    -- the names of the first row come before those of the others
    obtain ⟨hfirst, hrest⟩ := List.append_inj hν hlength
    have hblock : (⟨label, numberFrom m (insts.filter isa.isSubstantive)⟩ : Block) =
        Block.recode isa ν ⟨label, numberFrom n insts⟩ := by
      rw [numberFrom_filter hfirst]
      rfl
    exact congrArg₂ List.cons hblock (ih hrest)

/-- A function made of rows is recoded to the function made of their code, if every instruction of
the code is named by its number. -/
theorem recodes_ofBlocks {rows : List (String × List (Inst BlockId))} (h : WellFormedRows rows)
    (isa : Isa) (name : String) :
    ∃ ν, Recodes isa ν (ofBlocks name rows) (ofBlocks name (rows.map (codeOf isa))) := by
  have hwf := wellFormed_ofBlocks h name
  let order := (Numbering.ofFunc isa 0 (ofBlocks name rows)).order
  have hnodup : order.Nodup := Numbering.nodup_order_ofFunc hwf.nodup_ids
  -- named by their numbers, the instructions of the code are called 0, 1, 2 and so on
  have horder : order.map order.idxOf = List.range order.length := by
    refine List.ext_getElem (by simp) fun i hi _ => ?_
    rw [List.length_map] at hi
    rw [List.getElem_map, List.getElem_range, hnodup.idxOf_getElem]
  have hinsts : order = (((layFrom 0 rows).flatMap Block.insts).filter fun entry =>
      isa.isSubstantive entry.2).map Prod.fst := by
    rw [← blocks_ofBlocks name rows]
    exact Numbering.order_ofFunc isa 0 (ofBlocks name rows)
  have hlength : ((rows.flatMap Prod.snd).filter isa.isSubstantive).length = order.length := by
    rw [hinsts, flatMap_insts_layFrom, ← map_snd_filter_numberFrom 0, List.length_map,
      List.length_map]
  refine ⟨order.idxOf, hwf, (built_ofBlocks _ _).consistent, ?_, ?_, ?_⟩
  · rw [name_ofBlocks, name_ofBlocks]
  · rw [blocks_ofBlocks, blocks_ofBlocks]
    refine layFrom_codeOf ?_
    rw [hlength, ← List.range_eq_range', ← horder, hinsts, List.map_map]
    rfl
  · intro x y hx _ heq
    obtain ⟨inst, hinst, hsubstantive⟩ := hx
    have hmem : x ∈ order := Numbering.mem_order_ofFunc_iff.mpr
      ⟨inst, (inst?_eq_some_iff hwf.consistent).mp hinst, hsubstantive⟩
    exact (List.idxOf_inj hmem).mp heq

/-- The analysis finds the same in two functions, and their location tables are the same. -/
structure Agrees (isa : Isa) (f f' : Func) : Prop where
  /-- The findings are the same but for the names of instructions. -/
  findings : ∀ functionId,
    (f'.findings isa functionId).anonymous = (f.findings isa functionId).anonymous
  /-- The location tables are the same. -/
  locations : ∀ functionId, f'.locations isa functionId = f.locations isa functionId

/-- Functions with the same code agree. -/
theorem agrees_ofBlocks {rows rows' : List (String × List (Inst BlockId))}
    (h : WellFormedRows rows) (h' : WellFormedRows rows')
    (hcode : rows'.map (codeOf isa) = rows.map (codeOf isa)) (name : String) :
    Agrees isa (ofBlocks name rows) (ofBlocks name rows') := by
  obtain ⟨ν, hν⟩ := recodes_ofBlocks h isa name
  obtain ⟨ν', hν'⟩ := recodes_ofBlocks h' isa name
  rw [hcode] at hν'
  refine ⟨fun functionId => ?_, fun functionId => ?_⟩
  · rw [← hν.anonymous_findings, ← hν'.anonymous_findings]
  · rw [← hν.locations, ← hν'.locations]

end Func

/-! ## Listings with annotations deleted -/

namespace Listing

variable {isa : Isa} {labels : List String}

/-- Some annotations are deleted from a row of instructions. -/
inductive TrimsTo (isa : Isa) : List (Spanned LabelInst) → List (Spanned LabelInst) → Prop
  /-- Nothing is left to look at. -/
  | nil : TrimsTo isa [] []
  /-- The first instruction is kept. -/
  | keep {inst : Spanned LabelInst} {rest rest' : List (Spanned LabelInst)} :
      TrimsTo isa rest rest' → TrimsTo isa (inst :: rest) (inst :: rest')
  /-- The first instruction is an ordinary one whose opcode is an annotation, and is deleted. -/
  | delete {inst : Spanned LabelInst} {opcode : String} {operands : List Operand}
      {result : Option String} {rest rest' : List (Spanned LabelInst)} :
      inst.val = .op opcode operands result → isa.isMeta opcode = true →
        TrimsTo isa rest rest' → TrimsTo isa (inst :: rest) rest'

/-- Some annotations are deleted from a block. -/
def BlockDef.TrimsTo (isa : Isa) (block block' : BlockDef) : Prop :=
  block'.label = block.label ∧ Listing.TrimsTo isa block.insts block'.insts

/-- Some annotations are deleted from the blocks of a function. -/
def FuncDef.TrimsTo (isa : Isa) (func func' : FuncDef) : Prop :=
  func'.name = func.name ∧ List.Forall₂ (BlockDef.TrimsTo isa) func.blocks func'.blocks

/-- Some annotations are deleted from the functions of a listing. -/
def Tree.TrimsTo (isa : Isa) (listing listing' : Tree) : Prop :=
  List.Forall₂ (fun func func' => func'.span = func.span ∧ FuncDef.TrimsTo isa func.val func'.val)
    listing.functions listing'.functions

/-- A trimmed row is lowered to the same code. -/
theorem TrimsTo.lowerInsts {insts insts' : List (Spanned LabelInst)}
    {lowered : List (Inst BlockId)} (h : TrimsTo isa insts insts')
    (hlowered : Listing.lowerInsts labels insts = .ok lowered) :
    ∃ lowered', Listing.lowerInsts labels insts' = .ok lowered' ∧
      lowered'.filter isa.isSubstantive = lowered.filter isa.isSubstantive := by
  induction h generalizing lowered with
  | nil => exact ⟨lowered, hlowered, rfl⟩
  | @keep inst rest rest' htrims ih =>
    obtain ⟨first, others, hfirst, hlast, hothers, rfl⟩ := lowerInsts_cons_eq_ok_iff.mp hlowered
    obtain ⟨others', hothers', hsame⟩ := ih hothers
    refine ⟨first :: others', lowerInsts_cons_eq_ok_iff.mpr
      ⟨first, others', hfirst, fun hend => ?_, hothers', rfl⟩, ?_⟩
    · -- nothing follows the end of a block, so nothing is left of it after trimming
      obtain rfl := hlast hend
      cases htrims
      rfl
    · rw [List.filter_cons, List.filter_cons, hsame]
  | @delete inst opcode operands result rest rest' hop hmeta htrims ih =>
    obtain ⟨first, others, hfirst, -, hothers, rfl⟩ := lowerInsts_cons_eq_ok_iff.mp hlowered
    obtain ⟨others', hothers', hsame⟩ := ih hothers
    -- an ordinary instruction has no targets to resolve
    rw [hop] at hfirst
    obtain rfl := Except.ok.inj hfirst
    have hnot : isa.isSubstantive (Inst.op opcode operands result : Inst BlockId) = false := by
      simp [Isa.isSubstantive, Inst.isTerminator, Inst.op, hmeta]
    refine ⟨others', hothers', ?_⟩
    rw [hsame, List.filter_cons, hnot]
    rfl

/-- A trimmed function is lowered, and agrees with the function. -/
theorem FuncDef.TrimsTo.lower {func func' : FuncDef} {f : Func} (h : FuncDef.TrimsTo isa func func')
    (hf : func.lower = .ok f) : ∃ f', func'.lower = .ok f' ∧ Func.Agrees isa f f' := by
  obtain ⟨rows, rows', rfl, hf', hrows, hrows', hsame⟩ := FuncDef.lower_of_forall₂
    (fun _ _ hblock => hblock.1) (fun _ _ _ _ hblock => hblock.2.lowerInsts) h.1 h.2 hf
  have hcode : rows'.map (Func.codeOf isa) = rows.map (Func.codeOf isa) := by
    clear hrows hrows' hf' hf
    induction hsame with
    | nil => rfl
    | cons hrow _ ih =>
      rw [List.map_cons, List.map_cons, ih, Func.codeOf, Func.codeOf, hrow.1, hrow.2]
  exact ⟨_, hf', Func.agrees_ofBlocks hrows hrows' hcode _⟩

/-- A trimmed listing is lowered, and its functions agree with those of the listing. -/
theorem Tree.TrimsTo.lower {listing listing' : Tree} {program : Program}
    (h : Tree.TrimsTo isa listing listing') (hprogram : listing.lower = .ok program) :
    ∃ program', listing'.lower = .ok program' ∧
      List.Forall₂ (Func.Agrees isa) program.functions program'.functions :=
  Tree.lower_of_forall₂ (fun _ _ hfunc => hfunc.2.1) (fun _ _ _ hfunc hf => hfunc.2.lower hf) h
    hprogram

end Listing

/-- Deleting annotations from a listing that can be lowered gives one that can be lowered too. The
analysis of both succeeds, and finds the same but for the names of instructions: the same numbers,
blocks, points, dependents and totals for each function. So the reports and the location tables are
the same texts. -/
theorem analyse_of_trimsTo {isa : Isa} {listing listing' : Listing.Tree} {program : Program}
    (htrims : Listing.Tree.TrimsTo isa listing listing') (h : listing.lower = .ok program) :
    ∃ program' results results', listing'.lower = .ok program' ∧
      program.analyse isa = .ok results ∧ program'.analyse isa = .ok results' ∧
      results'.map Dependencies.anonymous = results.map Dependencies.anonymous ∧
      renderReport (results'.flatMap Dependencies.records) =
        renderReport (results.flatMap Dependencies.records) ∧
      renderLocations (program'.locations isa) = renderLocations (program.locations isa) := by
  obtain ⟨program', h', hagree⟩ := htrims.lower h
  have hresults := Program.analyse_eq_ok (Listing.Tree.wellFormed_of_lower h) isa
  have hresults' := Program.analyse_eq_ok (Listing.Tree.wellFormed_of_lower h') isa
  have hmap : ∀ functions : List Func,
      (functions.mapIdx fun i f => f.findings isa (functionId i)).map Dependencies.anonymous =
        functions.mapIdx fun i f => (f.findings isa (functionId i)).anonymous := by
    intro functions
    simp only [List.mapIdx_eq_zipIdx_map, List.map_map]
    rfl
  have hanonymous :
      (program'.functions.mapIdx fun i f => f.findings isa (functionId i)).map
        Dependencies.anonymous =
      (program.functions.mapIdx fun i f => f.findings isa (functionId i)).map
        Dependencies.anonymous := by
    rw [hmap, hmap]
    exact mapIdx_eq_of_agrees hagree fun i f f' hff' => hff'.findings (functionId i)
  -- a record does not name the branch instruction
  have hrecords : ∀ results : List Dependencies, results.flatMap Dependencies.records =
      (results.map Dependencies.anonymous).flatMap Dependencies.records := by
    intro results
    rw [List.flatMap_map]
    refine List.flatMap_congr fun deps _ => ?_
    simp only [Dependencies.records, Dependencies.anonymous, List.map_map]
    rfl
  have hlocations : ∀ p : Program, p.locations isa =
      (p.functions.mapIdx fun i f => f.locations isa (functionId i)).flatten := by
    intro p
    rw [Program.locations, List.mapIdx_eq_zipIdx_map, List.flatMap_def]
  refine ⟨program', _, _, h', hresults, hresults', hanonymous, ?_, ?_⟩
  · rw [hrecords, hanonymous, ← hrecords]
  · rw [hlocations, hlocations,
      mapIdx_eq_of_agrees hagree fun i f f' hff' => hff'.locations (functionId i)]

/-- A listing with an annotation between a compare and its branch that defines what the compare
reads, and one that is all there is in a block. -/
def annotatedListing : Listing.Tree :=
  let at0 {α : Type} (val : α) : Spanned α := ⟨val, ⟨0, 0⟩⟩
  ⟨[at0 ⟨at0 "@f",
    [⟨at0 "entry", [at0 (.op "cmp" [.value "%x", .int 0] none),
      at0 (.op "kill" [] (some "%x")), at0 (.branch none (at0 "then") (at0 "done"))]⟩,
     ⟨at0 "then", [at0 (.op "dbg.value" [.value "%x"] none)]⟩,
     ⟨at0 "done", [at0 (.ret none)]⟩]⟩]⟩

/-- The listing `annotatedListing` without its annotations. -/
def bareListing : Listing.Tree :=
  let at0 {α : Type} (val : α) : Spanned α := ⟨val, ⟨0, 0⟩⟩
  ⟨[at0 ⟨at0 "@f",
    [⟨at0 "entry", [at0 (.op "cmp" [.value "%x", .int 0] none),
      at0 (.branch none (at0 "then") (at0 "done"))]⟩,
     ⟨at0 "then", []⟩,
     ⟨at0 "done", [at0 (.ret none)]⟩]⟩]⟩

/-- Both annotations of `annotatedListing` can be deleted. -/
theorem analyse_of_trimsTo_annotatedListing :
    Listing.Tree.TrimsTo .x86 annotatedListing bareListing ∧
    ∃ program program' results results', annotatedListing.lower = .ok program ∧
      bareListing.lower = .ok program' ∧ program.analyse .x86 = .ok results ∧
      program'.analyse .x86 = .ok results' ∧
      results'.map Dependencies.anonymous = results.map Dependencies.anonymous ∧
      renderReport (results'.flatMap Dependencies.records) =
        renderReport (results.flatMap Dependencies.records) ∧
      renderLocations (program'.locations .x86) = renderLocations (program.locations .x86) := by
  have htrims : Listing.Tree.TrimsTo .x86 annotatedListing bareListing := by
    refine .cons ⟨rfl, rfl, .cons ⟨rfl, ?_⟩ (.cons ⟨rfl, ?_⟩ (.cons ⟨rfl, ?_⟩ .nil))⟩ .nil
    · exact .keep (.delete rfl (by decide +kernel) (.keep .nil))
    · exact .delete rfl (by decide +kernel) .nil
    · exact .keep .nil
  obtain ⟨program, h⟩ : ∃ program, annotatedListing.lower = .ok program := ⟨_, rfl⟩
  obtain ⟨program', results, results', h', hrest⟩ := analyse_of_trimsTo htrims h
  exact ⟨htrims, program, program', results, results', h, h', hrest⟩

end Rejoin
