import Rejoin.Machine.Printer
import Rejoin.Proofs.Dependence.Relabelling
import Rejoin.Proofs.Listing.Concatenation
import Rejoin.Proofs.Listing.Spelling

/-!
# Printed programs are listings

The text of a program is a listing of it in which every block is labelled by its number. A program
that was read from a text is therefore read again from its own text, with the same functions,
blocks, instructions and numbers, and only the labels are new. The analysis does not look at labels,
so it finds the same: `parse_render_program`.

* `Func.Listed` — a function as a listing gives it;
* `Func.Listed.reads_render` — its text is read as the tokens of a listing;
* `FuncDef.lower_of_printed` — and this listing is lowered to the function with its labels numbered.
-/

namespace Rejoin

/-- The text of a program, one function after the other. -/
def Program.render (program : Program) : String :=
  String.join (program.functions.map Func.render)

/-- The program with every block labelled by its number. -/
def Program.numberLabels (program : Program) : Program :=
  ⟨program.functions.map (Func.relabel blockName)⟩

/-- The instruction of a listing that a machine instruction is printed as. What ends a block is
printed without operands and result. -/
def Inst.toDef {τ : Type} (inst : Inst τ) : Listing.InstDef τ :=
  match inst.kind with
  | .op => .op inst.opcode inst.operands inst.result
  | .branch cond onTrue onFalse => .branch cond onTrue onFalse
  | .jump target => .jump target
  | .ret value => .ret value

namespace Listing

/-! ## Instructions that can be listed -/

/-- The machine instruction that an instruction of a listing describes. -/
def InstDef.build {τ : Type} : InstDef τ → Inst τ
  | op opcode operands result => .op opcode operands result
  | branch cond onTrue onFalse => .branch cond onTrue onFalse
  | jump target => .jump target
  | ret value => .ret value

/-- The instruction is as a listing describes it: what ends a block has the mnemonic of its kind and
neither operands nor a result. -/
def IsListed {τ : Type} (inst : Inst τ) : Prop :=
  inst.toDef.build = inst

@[simp]
theorem targets_build {τ : Type} (described : InstDef τ) :
    described.build.targets = described.targets := by
  cases described <;> rfl

/-- What lowering makes of an instruction can be listed. -/
theorem isListed_of_buildM {labels : List String} {inst : LabelInst} {lowered : Inst BlockId}
    (h : inst.buildM (resolve labels) = .ok lowered) : IsListed lowered := by
  cases inst with
  | op | ret =>
    obtain rfl := Except.ok.inj h
    rfl
  | branch cond onTrue onFalse =>
    obtain ⟨t, -, h⟩ := bind_eq_ok_iff.mp h
    obtain ⟨e, -, h⟩ := bind_eq_ok_iff.mp h
    obtain rfl := Except.ok.inj h
    rfl
  | jump label =>
    obtain ⟨t, -, h⟩ := bind_eq_ok_iff.mp h
    obtain rfl := Except.ok.inj h
    rfl

/-- The text of an instruction that can be listed is that of its description. -/
theorem toList_render_inst {τ : Type} (target : τ → String) {inst : Inst τ} (h : IsListed inst) :
    (inst.render target).toList = instText (inst.toDef.mapTargets target) := by
  have htext (described : InstDef τ) : described.build.render target = described.render target := by
    cases described with
    | op | jump => rfl
    | branch => rfl
    | ret value => cases value <;> rfl
  have hinst := htext inst.toDef
  rw [IsListed] at h
  rw [h] at hinst
  rw [hinst, toList_render]

/-! ## Names of blocks -/

theorem toList_blockName (b : BlockId) :
    (blockName b).toList = 'b' :: 'b' :: (decimal b).toList := by
  rw [blockName, String.toList_append]
  rfl

/-- The name a block is printed under can be read as a target. -/
theorem isFreeWord_blockName (b : BlockId) : IsFreeWord (blockName b) := by
  have hdigits : ∀ c ∈ (decimal b).toList, isWordChar c = true := fun c hc =>
    isWordChar_of_isDigit ((spells_decimal b).isDigit c hc)
  refine ⟨⟨'b', 'b' :: (decimal b).toList, toList_blockName b, by decide,
    List.forall_mem_cons.mpr ⟨by decide, hdigits⟩⟩, fun hreserved => ?_⟩
  -- no reserved word starts with these two letters
  have hletters : ∀ word ∈ ["br", "func", "jmp", "ret"], word.toList.take 2 ≠ ['b', 'b'] := by
    decide +kernel
  exact hletters _ hreserved (by rw [toList_blockName]; rfl)

/-- Different blocks are printed under different names. -/
theorem blockName_injective : Function.Injective blockName := by
  intro b c h
  have hdigits : (decimal b).toList = (decimal c).toList := by
    have hlist := congrArg String.toList h
    rw [toList_blockName, toList_blockName] at hlist
    exact (List.cons.inj (List.cons.inj hlist).2).2
  have hb := spells_decimal b
  rw [hdigits] at hb
  exact hb.unique (spells_decimal c)

/-! ## What a printed function says -/

/-- A row of instructions with the names of its targets. -/
def printedRow (row : String × List (Inst BlockId)) : PlainBlock :=
  (row.1, row.2.map fun inst => inst.toDef.mapTargets blockName)

/-- A function with the names of all targets. -/
def printedFunc (f : Func) : PlainFunc :=
  (f.name, f.rows.map printedRow)

end Listing

open Rejoin.Listing

/-- A function as a listing gives it. It is made of well-formed rows, and its names can be read. -/
structure Func.Listed (f : Func) : Prop where
  /-- It is made of its rows. -/
  made : f = Func.ofBlocks f.name f.rows
  /-- Its rows are well formed. -/
  wellFormed : Func.WellFormedRows f.rows
  /-- Its name is a symbol. -/
  name : IsSigned '@' f.name
  /-- Its labels are words. -/
  labels : ∀ row ∈ f.rows, IsWord row.1.toList
  /-- Its instructions are as a listing describes them. -/
  listed : ∀ row ∈ f.rows, ∀ inst ∈ row.2, IsListed inst
  /-- They can be read, once its blocks have names. -/
  insts : ∀ row ∈ f.rows, ∀ inst ∈ row.2, WellNamedInst (inst.toDef.mapTargets blockName)

namespace Listing

/-! ## Reading a printed program -/

/-- The text of a block. -/
def printedText (b : BlockId) (block : Block) : List Char :=
  ((blockName b).toList ++ [':']) ++ (' ' :: '/' :: '/' :: ' ' :: block.label.toList ++
    '\n' :: (block.insts.map fun entry => entry.2.toDef.mapTargets blockName).flatMap instLine)

/-- The characters of a printed block. -/
theorem toList_render_printed (b : BlockId) {block : Block}
    (h : ∀ entry ∈ block.insts, IsListed entry.2) :
    (block.render b).toList = printedText b block := by
  have hlines : (String.join (block.insts.map fun entry => "    " ++ entry.2.text ++ "\n")).toList =
      (block.insts.map fun entry => entry.2.toDef.mapTargets blockName).flatMap instLine := by
    rw [String.toList_join, List.flatMap_map, List.flatMap_map]
    refine List.flatMap_congr fun entry hentry => ?_
    simp [Inst.text, instLine, toList_render_inst blockName (h entry hentry)]
  simp [Block.render, printedText, hlines]

/-- A word may stand in a comment. -/
theorem isCommentChar_of_isWordChar {c : Char} (h : isWordChar c = true) :
    isCommentChar c = true := by
  have hmem : c ∉ ['\n', '\r'] := not_mem_of_class (by decide) h
  simpa [isCommentChar] using hmem

/-- The label in the comment is dropped, and the name of the block takes its place. -/
theorem reads_printedText {b : BlockId} {block : Block} (hlabel : IsWord block.label.toList)
    (hinsts : ∀ entry ∈ block.insts, WellNamedInst (entry.2.toDef.mapTargets blockName))
    (rest : List Char) :
    Reads (printedText b block)
      (blockTokens (blockName b, block.insts.map fun entry => entry.2.toDef.mapTargets blockName))
      rest := by
  have hname := IsLexeme.label (isFreeWord_blockName b).1
  rw [String.ofList_toList] at hname
  have hcomment : ∀ c ∈ ' ' :: block.label.toList, isCommentChar c = true :=
    List.forall_mem_cons.mpr
      ⟨by decide, fun c hc => isCommentChar_of_isWordChar (hlabel.isWordChar c hc)⟩
  have hlines := reads_flatMap
    (fun inst hinst => reads_instLine (List.forall_mem_map.mpr hinsts inst hinst)) rest
  refine hname.reads_append nofun (breaks_blank _) ?_
  exact (reads_comment hcomment rfl).spaced.append ((reads_newline _).append hlines)

/-- The text of a function. -/
theorem toList_render_func_printed {f : Func}
    (h : ∀ block ∈ f.blocks, ∀ entry ∈ block.insts, IsListed entry.2) :
    f.render.toList = "func".toList ++ ' ' :: (f.name.toList ++
      ' ' :: '\x7b' :: '\n' :: ((f.layout.flatMap fun entry => printedText entry.1 entry.2) ++
        ['\x7d', '\n'])) := by
  have hblocks : (f.layout.flatMap fun entry => (entry.2.render entry.1).toList) =
      f.layout.flatMap fun entry => printedText entry.1 entry.2 :=
    List.flatMap_congr fun entry hentry => toList_render_printed entry.1
      (h entry.2 (Func.mem_blocks_iff.mpr ⟨entry.1, hentry⟩))
  simp [Func.render, String.toList_join, List.flatMap_map, hblocks]

end Listing

/-- The text of a function is read as the function with its labels numbered. -/
theorem Func.Listed.reads_render {f : Func} (hf : f.Listed) (rest : List Char) :
    Reads f.render.toList (funcTokens (printedFunc (f.relabel blockName))) rest := by
  have hblocks : (printedFunc (f.relabel blockName)).2 = f.layout.map fun entry =>
      (blockName entry.1, entry.2.insts.map fun inst => inst.2.toDef.mapTargets blockName) := by
    simp [printedFunc, Func.rows, Func.blocks_relabel, printedRow, Block.relabel, Function.comp_def]
  have hrow : ∀ block ∈ f.blocks, (block.label, block.insts.map Prod.snd) ∈ f.rows :=
    fun block hblock => List.mem_map_of_mem hblock
  have hlisted : ∀ block ∈ f.blocks, ∀ entry ∈ block.insts, IsListed entry.2 :=
    fun block hblock entry hentry =>
      hf.listed _ (hrow block hblock) _ (List.mem_map_of_mem hentry)
  rw [toList_render_func_printed hlisted, funcTokens, hblocks, List.flatMap_map]
  refine reads_func hf.name (reads_flatMap fun entry hentry => ?_) rest
  have hblock := Func.mem_blocks_iff.mpr ⟨entry.1, hentry⟩
  exact reads_printedText (hf.labels _ (hrow entry.2 hblock)) fun inst hinst =>
    hf.insts _ (hrow entry.2 hblock) _ (List.mem_map_of_mem hinst)

namespace Listing

/-- The text of a program is parsed to what its functions say. -/
theorem exists_parseTree_render_program {program : Program}
    (h : ∀ f ∈ program.functions, f.Listed) :
    ∃ tree, parseTree program.render = .ok tree ∧
      tree.plain = program.functions.map fun f => printedFunc (f.relabel blockName) := by
  have hreads := reads_flatMap (fun f hf => (h f hf).reads_render) []
  refine exists_parseTree_of_reads ?_ (literalsFit_funcTokens _) (derives_funcTokens _)
  rw [List.flatMap_map, Program.render, String.toList_join, List.flatMap_map]
  exact hreads

/-! ## Lowering what a program says -/

section Lowering

variable {n : Nat}

/-- The name of a block is resolved to its number. -/
theorem resolve_blockName {b : BlockId} (hb : b < n) {label : Spanned String}
    (h : label.val = blockName b) : resolve ((List.range n).map blockName) label = .ok b := by
  have hplace : ((List.range n).map blockName).idxOf? label.val = some b := by
    rw [List.idxOf?_eq_some_iff]
    refine ⟨by simpa using hb, by simp [h], fun c hc heq => ?_⟩
    rw [List.getElem_map, List.getElem_range, h] at heq
    exact absurd (blockName_injective heq) hc.ne
  rw [resolve, hplace]

/-- A description of which the targets are named is built again from the names. -/
theorem buildM_resolve {inst : LabelInst} {described : InstDef BlockId}
    (h : inst.mapTargets Spanned.val = described.mapTargets blockName)
    (htargets : ∀ target ∈ described.targets, target < n) :
    inst.buildM (resolve ((List.range n).map blockName)) = .ok described.build := by
  cases inst <;> cases described <;> simp only [InstDef.mapTargets, reduceCtorEq,
    InstDef.op.injEq, InstDef.branch.injEq, InstDef.jump.injEq, InstDef.ret.injEq] at h
  case op.op =>
    obtain ⟨rfl, rfl, rfl⟩ := h
    rfl
  case branch.branch =>
    obtain ⟨rfl, htrue, hfalse⟩ := h
    simp only [InstDef.buildM, resolve_blockName (htargets _ (by simp [InstDef.targets])) htrue,
      resolve_blockName (htargets _ (by simp [InstDef.targets])) hfalse]
    rfl
  case jump.jump =>
    simp only [InstDef.buildM, resolve_blockName (htargets _ (by simp [InstDef.targets])) h]
    rfl
  case ret.ret =>
    subst h
    rfl

/-- Instructions that are read back are lowered to the instructions that were printed. -/
theorem lowerInsts_of_printed {insts : List (Spanned LabelInst)} {lowered : List (Inst BlockId)}
    (h : insts.map plainInst = lowered.map fun inst => inst.toDef.mapTargets blockName)
    (hlisted : ∀ inst ∈ lowered, IsListed inst)
    (hlast : ∀ inst ∈ lowered.dropLast, inst.isTerminator = false)
    (htargets : ∀ inst ∈ lowered, ∀ target ∈ inst.targets, target < n) :
    lowerInsts ((List.range n).map blockName) insts = .ok lowered := by
  induction lowered generalizing insts with
  | nil =>
    obtain rfl := List.map_eq_nil_iff.mp h
    rfl
  | cons first others ih =>
    cases insts with
    | nil => cases h
    | cons inst rest =>
      obtain ⟨hinst, hrest⟩ := List.cons.inj h
      obtain ⟨hlistedFirst, hlistedOthers⟩ := List.forall_mem_cons.mp hlisted
      obtain ⟨hfirst, hothers⟩ := List.forall_mem_cons.mp htargets
      have hbuilt := buildM_resolve hinst (by rwa [← targets_build, hlistedFirst])
      rw [hlistedFirst] at hbuilt
      -- an instruction that ends the block is the last of the row
      have hdrop : (first.isTerminator = true → others = []) ∧
          ∀ inst ∈ others.dropLast, inst.isTerminator = false := by
        cases others with
        | nil => exact ⟨fun _ => rfl, nofun⟩
        | cons second others =>
          rw [List.dropLast_cons_of_ne_nil (by simp), List.forall_mem_cons] at hlast
          exact ⟨fun hend => by simp [hend] at hlast, hlast.2⟩
      refine lowerInsts_cons_eq_ok_iff.mpr ⟨first, others, hbuilt, fun hend => ?_,
        ih hrest hlistedOthers hdrop.2 hothers, rfl⟩
      rw [hdrop.1 hend] at hrest
      exact List.map_eq_nil_iff.mp hrest

theorem lowerBlocks_of_printed {blocks : List BlockDef}
    {rows : List (String × List (Inst BlockId))}
    (h : blocks.map BlockDef.plain = rows.map printedRow)
    (hlisted : ∀ row ∈ rows, ∀ inst ∈ row.2, IsListed inst)
    (hlast : ∀ row ∈ rows, ∀ inst ∈ row.2.dropLast, inst.isTerminator = false)
    (htargets : ∀ row ∈ rows, ∀ inst ∈ row.2, ∀ target ∈ inst.targets, target < n) :
    lowerBlocks ((List.range n).map blockName) blocks = .ok rows := by
  induction rows generalizing blocks with
  | nil =>
    obtain rfl := List.map_eq_nil_iff.mp h
    rfl
  | cons row rest ih =>
    cases blocks with
    | nil => cases h
    | cons block others =>
      obtain ⟨hblock, hothers⟩ := List.cons.inj h
      obtain ⟨hlabel, hinsts⟩ := Prod.mk.inj hblock
      obtain ⟨hlistedRow, hlistedRest⟩ := List.forall_mem_cons.mp hlisted
      obtain ⟨hlastRow, hlastRest⟩ := List.forall_mem_cons.mp hlast
      obtain ⟨htargetsRow, htargetsRest⟩ := List.forall_mem_cons.mp htargets
      refine lowerBlocks_cons_eq_ok_iff.mpr ⟨row.2, rest,
        lowerInsts_of_printed hinsts hlistedRow hlastRow htargetsRow,
        ih hothers hlistedRest hlastRest htargetsRest, ?_⟩
      rw [hlabel]

end Lowering

/-- Among different names that are new no repetition is found. -/
theorem firstRepeat?_eq_none {seen : List String} {names : List (Spanned String)}
    (hnodup : (names.map Spanned.val).Nodup) (hseen : ∀ name ∈ names, name.val ∉ seen) :
    firstRepeat? seen names = none := by
  induction names generalizing seen with
  | nil => rfl
  | cons name rest ih =>
    obtain ⟨hname, hrest⟩ := List.forall_mem_cons.mp hseen
    obtain ⟨hnot, hnodup⟩ := List.nodup_cons.mp hnodup
    rw [firstRepeat?, if_neg hname]
    refine ih hnodup fun other hother hmem => ?_
    rcases List.mem_cons.mp hmem with heq | hmem
    · exact hnot (heq ▸ List.mem_map_of_mem hother)
    · exact hrest other hother hmem

end Listing

namespace Func.Listed

variable {f : Func} (hf : f.Listed)

include hf

theorem consistent : f.Consistent :=
  hf.made ▸ (Func.built_ofBlocks f.name f.rows).consistent

/-- The function with other labels is made of its rows too. -/
theorem relabel_eq (label : BlockId → String) :
    f.relabel label = Func.ofBlocks f.name (f.relabel label).rows := by
  rw [hf.consistent.rows_relabel, ← Func.relabel_ofBlocks, ← hf.made]

/-- Other labels leave the instructions of each row as they are. -/
theorem exists_row_of_relabel (label : BlockId → String) :
    ∀ row ∈ (f.relabel label).rows, ∃ other ∈ f.rows, other.2 = row.2 := by
  intro row hrow
  rw [hf.consistent.rows_relabel, List.mem_mapIdx] at hrow
  obtain ⟨b, hb, rfl⟩ := hrow
  exact ⟨f.rows[b], List.getElem_mem hb, rfl⟩

/-- Numbering the labels keeps what is said of instructions. -/
theorem wellFormedRows_relabel (label : BlockId → String) :
    Func.WellFormedRows (f.relabel label).rows := by
  have hlength : (f.relabel label).rows.length = f.rows.length := by
    rw [hf.consistent.rows_relabel, List.length_mapIdx]
  refine ⟨fun row hmem => ?_, fun row hmem => ?_⟩
  · obtain ⟨other, hother, heq⟩ := hf.exists_row_of_relabel label row hmem
    exact heq ▸ hf.wellFormed.terminator_last other hother
  · obtain ⟨other, hother, heq⟩ := hf.exists_row_of_relabel label row hmem
    exact hlength ▸ heq ▸ hf.wellFormed.targets_lt other hother

/-- In order, the rows have the new labels. -/
theorem map_fst_rows_relabel (label : BlockId → String) :
    (f.relabel label).rows.map Prod.fst =
      (List.range (f.relabel label).rows.length).map label := by
  rw [hf.consistent.rows_relabel]
  exact List.ext_getElem (by simp) (by simp)

end Func.Listed

namespace Listing

/-- What a function says, with its labels numbered, is lowered to the function. -/
theorem FuncDef.lower_of_printed {func : FuncDef} {f : Func} (hf : f.Listed)
    (h : func.plain = printedFunc (f.relabel blockName)) :
    func.lower = .ok (f.relabel blockName) := by
  obtain ⟨hname, hblocks⟩ := Prod.mk.inj h
  have hwell := hf.wellFormedRows_relabel blockName
  -- the labels of the listing are the names of the blocks in order, so none is repeated and a
  -- target is resolved to the number it was printed from
  have hlabels : (func.blocks.map fun block => block.label.val) =
      (List.range (f.relabel blockName).rows.length).map blockName := by
    have hfst := congrArg (List.map Prod.fst) hblocks
    rw [List.map_map, List.map_map] at hfst
    exact hfst.trans (hf.map_fst_rows_relabel blockName)
  refine FuncDef.lower_eq_ok_iff.mpr ⟨firstRepeat?_eq_none ?_ nofun, (f.relabel blockName).rows,
    ?_, ?_⟩
  · rw [List.map_map]
    exact hlabels ▸ List.nodup_range.map blockName_injective
  · rw [hlabels]
    refine lowerBlocks_of_printed hblocks (fun row hrow => ?_) hwell.terminator_last
      hwell.targets_lt
    obtain ⟨other, hother, heq⟩ := hf.exists_row_of_relabel blockName row hrow
    exact heq ▸ hf.listed other hother
  · rw [hname]
    exact hf.relabel_eq blockName

/-! ## Programs read from a text -/

/-- Resolving targets keeps the names in an instruction. -/
theorem WellNamedInst.of_buildM {labels : List String} {inst : LabelInst}
    {lowered : Inst BlockId} (h : WellNamedInst (inst.mapTargets Spanned.val))
    (hlowered : inst.buildM (resolve labels) = .ok lowered) :
    WellNamedInst (lowered.toDef.mapTargets blockName) := by
  cases inst with
  | op | ret =>
    obtain rfl := Except.ok.inj hlowered
    exact h
  | branch cond onTrue onFalse =>
    obtain ⟨t, -, hlowered⟩ := bind_eq_ok_iff.mp hlowered
    obtain ⟨e, -, hlowered⟩ := bind_eq_ok_iff.mp hlowered
    obtain rfl := Except.ok.inj hlowered
    exact ⟨h.1, isFreeWord_blockName t, isFreeWord_blockName e⟩
  | jump label =>
    obtain ⟨t, -, hlowered⟩ := bind_eq_ok_iff.mp hlowered
    obtain rfl := Except.ok.inj hlowered
    exact isFreeWord_blockName t

/-- Lowered instructions can be listed, and under names that can be read. -/
theorem wellNamed_of_lowerInsts {labels : List String} {insts : List (Spanned LabelInst)}
    {lowered : List (Inst BlockId)} (h : ∀ inst ∈ insts, WellNamedInst (plainInst inst))
    (hlowered : lowerInsts labels insts = .ok lowered) :
    ∀ inst ∈ lowered, IsListed inst ∧ WellNamedInst (inst.toDef.mapTargets blockName) := by
  induction insts generalizing lowered with
  | nil =>
    obtain rfl := Except.ok.inj hlowered
    exact nofun
  | cons inst rest ih =>
    obtain ⟨hinst, hrest⟩ := List.forall_mem_cons.mp h
    obtain ⟨first, others, hfirst, -, hothers, rfl⟩ := lowerInsts_cons_eq_ok_iff.mp hlowered
    exact List.forall_mem_cons.mpr ⟨⟨isListed_of_buildM hfirst, .of_buildM hinst hfirst⟩,
      ih hrest hothers⟩

theorem wellNamed_of_lowerBlocks {labels : List String} {blocks : List BlockDef}
    {rows : List (String × List (Inst BlockId))}
    (h : ∀ block ∈ blocks, WellNamedBlock block.plain)
    (hrows : lowerBlocks labels blocks = .ok rows) :
    ∀ row ∈ rows, IsWord row.1.toList ∧
      ∀ inst ∈ row.2, IsListed inst ∧ WellNamedInst (inst.toDef.mapTargets blockName) := by
  induction blocks generalizing rows with
  | nil =>
    obtain rfl := Except.ok.inj hrows
    exact nofun
  | cons block rest ih =>
    obtain ⟨hblock, hrest⟩ := List.forall_mem_cons.mp h
    obtain ⟨insts, others, hinsts, hothers, rfl⟩ := lowerBlocks_cons_eq_ok_iff.mp hrows
    exact List.forall_mem_cons.mpr ⟨⟨hblock.1, wellNamed_of_lowerInsts
      (List.forall_mem_map.mp hblock.2) hinsts⟩, ih hrest hothers⟩

/-- A function lowered from a listing whose names can be read. -/
theorem listed_of_lower {func : FuncDef} {f : Func} (hname : IsSigned '@' func.name.val)
    (hblocks : ∀ block ∈ func.blocks, WellNamedBlock block.plain) (h : func.lower = .ok f) :
    f.Listed := by
  obtain ⟨-, rows, hrows, rfl⟩ := FuncDef.lower_eq_ok_iff.mp h
  have hnamed := wellNamed_of_lowerBlocks hblocks hrows
  rw [← Func.rows_ofBlocks func.name.val rows] at hnamed
  refine ⟨?_, ?_, ?_, fun row hrow => (hnamed row hrow).1,
    fun row hrow inst hinst => ((hnamed row hrow).2 inst hinst).1,
    fun row hrow inst hinst => ((hnamed row hrow).2 inst hinst).2⟩
  · rw [Func.name_ofBlocks, Func.rows_ofBlocks]
  · rw [Func.rows_ofBlocks]
    exact wellFormedRows_of_lowerBlocks hrows
  · rwa [Func.name_ofBlocks]

/-- Every function of a program that was read from a text is as a listing gives it. -/
theorem listed_of_parse {text : String} {program : Program} (h : parse text = .ok program) :
    (∀ f ∈ program.functions, f.Listed) ∧ (program.functions.map Func.name).Nodup := by
  obtain ⟨tree, htree, hlower⟩ := parse_eq_ok_iff.mp h
  obtain ⟨hfunctions, hnodup, -⟩ := lowerFunctions_eq_ok_iff.mp (Tree.lower_eq_ok_iff.mp hlower)
  have hnamed := wellNamed_of_parseTree htree
  refine ⟨fun f hf => ?_, hnodup⟩
  obtain ⟨i, hi, rfl⟩ := List.getElem_of_mem hf
  have hi' : i < tree.functions.length := hfunctions.length_eq ▸ hi
  obtain ⟨hname, hblocks⟩ := hnamed _ (List.mem_map_of_mem (List.getElem_mem hi'))
  exact listed_of_lower hname (List.forall_mem_map.mp hblocks) (hfunctions.get hi' hi)

/-- A listing that says what a program says, with its labels numbered, is lowered to the program. -/
theorem Tree.lower_of_printed {tree : Tree} {program : Program}
    (hlisted : ∀ f ∈ program.functions, f.Listed) (hnodup : (program.functions.map Func.name).Nodup)
    (h : tree.plain = program.functions.map fun f => printedFunc (f.relabel blockName)) :
    tree.lower = .ok program.numberLabels := by
  refine Tree.lower_eq_ok_iff.mpr (lowerFunctions_eq_ok_iff.mpr ⟨?_, ?_, nofun⟩)
  · rw [Tree.plain, ← List.forall₂_eq_eq_eq, List.forall₂_map_left_iff,
      List.forall₂_map_right_iff] at h
    rw [Program.numberLabels, List.forall₂_map_right_iff]
    have hboth := (List.forall₂_and_left _ _).mpr ⟨hlisted, List.Forall₂.flip h⟩
    exact List.Forall₂.flip (hboth.imp fun f func hfunc => FuncDef.lower_of_printed hfunc.1 hfunc.2)
  · rw [Program.numberLabels, List.map_map]
    exact hnodup

end Listing

open Rejoin.Listing

/-- **Printed programs.** The text of a program that was read from a text is read again. It gives
the same functions with the same blocks, instructions and numbers, in which the block numbered `b`
is labelled `bb` and `b`. For either instruction set the analysis succeeds on both, with the same
result. -/
theorem parse_render_program {text : String} {program : Program}
    (h : parse text = .ok program) :
    parse program.render = .ok program.numberLabels ∧
      ∀ isa, ∃ results, program.analyse isa = .ok results ∧
        program.numberLabels.analyse isa = .ok results := by
  obtain ⟨hlisted, hnodup⟩ := listed_of_parse h
  obtain ⟨tree, htree, hplain⟩ := exists_parseTree_render_program hlisted
  have hparse : parse program.render = .ok program.numberLabels :=
    parse_eq_ok_iff.mpr ⟨tree, htree, Tree.lower_of_printed hlisted hnodup hplain⟩
  -- a well-formed program is analysed function by function, and labels do not count there
  refine ⟨hparse, fun isa => ⟨_, Program.analyse_eq_ok (wellFormed_of_parse h) isa, ?_⟩⟩
  rw [Program.analyse_eq_ok (wellFormed_of_parse hparse) isa]
  have hfunctions : List.Forall₂ (fun f f' => f' = f.relabel blockName) program.functions
      program.numberLabels.functions := by
    rw [Program.numberLabels, List.forall₂_map_right_iff, List.forall₂_same]
    exact fun f _ => rfl
  refine congrArg Except.ok (mapIdx_eq_of_agrees hfunctions ?_)
  rintro i f _ rfl
  exact f.findings_relabel blockName isa (functionId i)

/-- A listing with a reserved word for a label and a block without instructions. -/
def reservedLabelListing : String := "func @f \x7b br: br %c, x, e x: jmp e e: \x7d"

/-- The label is kept in the comment, where it is no name any more. -/
theorem parse_render_program_reservedLabelListing :
    ∃ program, parse reservedLabelListing = .ok program ∧
      program.render = "func @f \x7b\nbb0: // br\n    br %c, bb1, bb2\nbb1: // x\n    jmp bb2\n" ++
        "bb2: // e\n\x7d\n" ∧
      parse program.render = .ok ⟨[.ofBlocks "@f" [("bb0", [.branch (some (.value "%c")) 1 2]),
        ("bb1", [.jump 2]), ("bb2", [])]]⟩ ∧
      program.analyse .x86 =
        .ok [⟨10000, "@f", [⟨0, 0, 0, 2, [1], [], [1]⟩], [], ⟨2, 1, 0, 1, 1⟩⟩] := by
  have hparse : parse reservedLabelListing =
      .ok ⟨[.ofBlocks "@f" [("br", [.branch (some (.value "%c")) 1 2]), ("x", [.jump 2]),
        ("e", [])]]⟩ := by decide +kernel
  refine ⟨_, hparse, by decide +kernel, ?_, by decide +kernel⟩
  rw [(parse_render_program hparse).1]
  decide +kernel

end Rejoin
