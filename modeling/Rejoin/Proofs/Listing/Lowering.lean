import Rejoin.Listing.Lowering
import Rejoin.Proofs.Machine.WellFormed
import Rejoin.Proofs.Outcome

/-!
# Lowered listings

Lowering resolves every target and refuses an instruction after the end of its block, so every
function of a lowered listing is well formed: `Tree.wellFormed_of_lower`, and for texts
`wellFormed_of_parse`.
-/

namespace Rejoin.Listing

variable {labels : List String}

/-- A resolved label is the place of one of the labels. -/
theorem lt_length_of_resolve {label : Spanned String} {b : BlockId}
    (h : resolve labels label = .ok b) : b < labels.length := by
  rw [resolve] at h
  split at h
  next place hplace =>
    obtain rfl := Except.ok.inj h
    exact (List.idxOf?_eq_some_iff.mp hplace).1
  next => cases h

/-- Resolving targets keeps everything else of an instruction, and the targets are places of
labels. -/
theorem targets_lt_of_buildM {inst : LabelInst} {lowered : Inst BlockId}
    (h : inst.buildM (resolve labels) = .ok lowered) :
    ∀ target ∈ lowered.targets, target < labels.length := by
  cases inst with
  | op | ret =>
    obtain rfl := Except.ok.inj h
    simp
  | branch cond onTrue onFalse =>
    obtain ⟨t, ht, h⟩ := bind_eq_ok_iff.mp h
    obtain ⟨e, he, h⟩ := bind_eq_ok_iff.mp h
    obtain rfl := Except.ok.inj h
    intro target htarget
    simp only [Inst.targets_branch, List.mem_cons, List.not_mem_nil, or_false] at htarget
    rcases htarget with rfl | rfl
    · exact lt_length_of_resolve ht
    · exact lt_length_of_resolve he
  | jump label =>
    obtain ⟨t, ht, h⟩ := bind_eq_ok_iff.mp h
    obtain rfl := Except.ok.inj h
    intro target htarget
    obtain rfl : target = t := by simpa using htarget
    exact lt_length_of_resolve ht

/-- A row of instructions is lowered by lowering the first and then the others; nothing follows an
instruction that ends the block. -/
theorem lowerInsts_cons_eq_ok_iff {inst : Spanned LabelInst} {rest : List (Spanned LabelInst)}
    {insts : List (Inst BlockId)} :
    lowerInsts labels (inst :: rest) = .ok insts ↔
      ∃ lowered others, inst.val.buildM (resolve labels) = .ok lowered ∧
        (lowered.isTerminator = true → rest = []) ∧ lowerInsts labels rest = .ok others ∧
        insts = lowered :: others := by
  rw [lowerInsts, bind_eq_ok_iff]
  refine exists_congr fun lowered => ?_
  -- behind an instruction that ends its block nothing may follow
  cases hend : lowered.isTerminator with
  | false =>
    simp only [bind_eq_ok_iff]
    constructor
    · rintro ⟨hlowered, others, hothers, heq⟩
      exact ⟨others, hlowered, by simp, hothers, (Except.ok.inj heq).symm⟩
    · rintro ⟨others, hlowered, -, hothers, rfl⟩
      exact ⟨hlowered, others, hothers, rfl⟩
  | true =>
    cases rest with
    | nil =>
      simp only [bind_eq_ok_iff]
      constructor
      · rintro ⟨hlowered, others, hothers, heq⟩
        exact ⟨others, hlowered, by simp, hothers, (Except.ok.inj heq).symm⟩
      · rintro ⟨others, hlowered, -, hothers, rfl⟩
        exact ⟨hlowered, others, hothers, rfl⟩
    | cons next rest =>
      constructor
      · rintro ⟨-, h⟩
        cases h
      · rintro ⟨others, -, h, -⟩
        exact absurd (h rfl) (by simp)

/-- In a lowered row only the last instruction ends the block, and targets are places of
labels. -/
theorem lowerInsts_wellFormed {insts : List (Spanned LabelInst)} {lowered : List (Inst BlockId)}
    (h : lowerInsts labels insts = .ok lowered) :
    (∀ inst ∈ lowered.dropLast, inst.isTerminator = false) ∧
      ∀ inst ∈ lowered, ∀ target ∈ inst.targets, target < labels.length := by
  induction insts generalizing lowered with
  | nil =>
    obtain rfl := Except.ok.inj h
    simp
  | cons inst rest ih =>
    obtain ⟨first, others, hfirst, hlast, hothers, rfl⟩ := lowerInsts_cons_eq_ok_iff.mp h
    obtain ⟨hdrop, htargets⟩ := ih hothers
    refine ⟨?_, ?_⟩
    · cases others with
      | nil => simp
      | cons second others =>
        -- the first instruction is not the last one, so it does not end the block
        have hrest : rest ≠ [] := by
          rintro rfl
          cases hothers
        rw [List.dropLast_cons_of_ne_nil (by simp), List.forall_mem_cons]
        exact ⟨Bool.eq_false_iff.mpr fun hend => hrest (hlast hend), hdrop⟩
    · rw [List.forall_mem_cons]
      exact ⟨targets_lt_of_buildM hfirst, htargets⟩

/-- Blocks are lowered one after the other, each with its label. -/
theorem lowerBlocks_cons_eq_ok_iff {block : BlockDef} {rest : List BlockDef}
    {rows : List (String × List (Inst BlockId))} :
    lowerBlocks labels (block :: rest) = .ok rows ↔
      ∃ insts others, lowerInsts labels block.insts = .ok insts ∧
        lowerBlocks labels rest = .ok others ∧ rows = (block.label.val, insts) :: others := by
  rw [lowerBlocks]
  simp only [bind_eq_ok_iff]
  constructor
  · rintro ⟨insts, hinsts, others, hothers, heq⟩
    exact ⟨insts, others, hinsts, hothers, (Except.ok.inj heq).symm⟩
  · rintro ⟨insts, others, hinsts, hothers, rfl⟩
    exact ⟨insts, hinsts, others, hothers, rfl⟩

/-- Lowered blocks keep their labels. -/
theorem map_fst_of_lowerBlocks {blocks : List BlockDef}
    {rows : List (String × List (Inst BlockId))} (h : lowerBlocks labels blocks = .ok rows) :
    rows.map Prod.fst = blocks.map fun block => block.label.val := by
  induction blocks generalizing rows with
  | nil =>
    obtain rfl := Except.ok.inj h
    rfl
  | cons block rest ih =>
    obtain ⟨insts, others, -, hothers, rfl⟩ := lowerBlocks_cons_eq_ok_iff.mp h
    rw [List.map_cons, List.map_cons, ih hothers]

/-- Every lowered row comes from a block. -/
private theorem exists_lowerInsts_of_mem {blocks : List BlockDef}
    {rows : List (String × List (Inst BlockId))} (h : lowerBlocks labels blocks = .ok rows) :
    ∀ row ∈ rows, ∃ block ∈ blocks, lowerInsts labels block.insts = .ok row.2 := by
  induction blocks generalizing rows with
  | nil =>
    obtain rfl := Except.ok.inj h
    simp
  | cons block rest ih =>
    obtain ⟨insts, others, hinsts, hothers, rfl⟩ := lowerBlocks_cons_eq_ok_iff.mp h
    rw [List.forall_mem_cons]
    refine ⟨⟨block, List.mem_cons_self, hinsts⟩, fun row hrow => ?_⟩
    obtain ⟨other, hmem, heq⟩ := ih hothers row hrow
    exact ⟨other, List.mem_cons_of_mem block hmem, heq⟩

/-- The rows of a function are lowered with its own labels, which makes them well formed. -/
theorem wellFormedRows_of_lowerBlocks {blocks : List BlockDef}
    {rows : List (String × List (Inst BlockId))}
    (h : lowerBlocks (blocks.map fun block => block.label.val) blocks = .ok rows) :
    Func.WellFormedRows rows := by
  have hlength : (blocks.map fun block => block.label.val).length = rows.length := by
    rw [← map_fst_of_lowerBlocks h, List.length_map]
  refine ⟨fun row hrow => ?_, fun row hrow => ?_⟩
  · obtain ⟨block, -, hinsts⟩ := exists_lowerInsts_of_mem h row hrow
    exact (lowerInsts_wellFormed hinsts).1
  · obtain ⟨block, -, hinsts⟩ := exists_lowerInsts_of_mem h row hrow
    rw [← hlength]
    exact (lowerInsts_wellFormed hinsts).2

section RelatedBlocks

variable {R : BlockDef → BlockDef → Prop} {T : List (Inst BlockId) → List (Inst BlockId) → Prop}
  {blocks blocks' : List BlockDef} (h : List.Forall₂ R blocks blocks')
  (hlabel : ∀ block block', R block block' → block'.label = block.label)

include h hlabel

/-- Blocks that are related one by one have the same labels, if related blocks do. -/
theorem map_label_of_forall₂ : blocks'.map BlockDef.label = blocks.map BlockDef.label := by
  induction h with
  | nil => rfl
  | cons hblock _ ih => rw [List.map_cons, List.map_cons, hlabel _ _ hblock, ih]

/-- Blocks that are related one by one are lowered alike, if the instructions of related blocks
are. -/
theorem lowerBlocks_of_forall₂
    (hinsts : ∀ block block' insts, R block block' → lowerInsts labels block.insts = .ok insts →
      ∃ insts', lowerInsts labels block'.insts = .ok insts' ∧ T insts insts')
    {rows : List (String × List (Inst BlockId))} (hrows : lowerBlocks labels blocks = .ok rows) :
    ∃ rows', lowerBlocks labels blocks' = .ok rows' ∧
      List.Forall₂ (fun row row' => row'.1 = row.1 ∧ T row.2 row'.2) rows rows' := by
  induction h generalizing rows with
  | nil =>
    obtain rfl := Except.ok.inj hrows
    exact ⟨[], rfl, List.Forall₂.nil⟩
  | @cons block block' rest rest' hblock _ ih =>
    obtain ⟨insts, others, hfirst, hothers, rfl⟩ := lowerBlocks_cons_eq_ok_iff.mp hrows
    obtain ⟨insts', hfirst', hT⟩ := hinsts block block' insts hblock hfirst
    obtain ⟨others', hothers', hrest⟩ := ih hothers
    refine ⟨(block'.label.val, insts') :: others',
      lowerBlocks_cons_eq_ok_iff.mpr ⟨insts', others', hfirst', hothers', rfl⟩, ?_⟩
    exact List.Forall₂.cons ⟨congrArg Spanned.val (hlabel block block' hblock), hT⟩ hrest

end RelatedBlocks

/-- A function is lowered when its labels are distinct and its blocks are lowered. -/
theorem FuncDef.lower_eq_ok_iff {func : FuncDef} {f : Func} :
    func.lower = .ok f ↔ firstRepeat? [] (func.blocks.map BlockDef.label) = none ∧
      ∃ rows, lowerBlocks (func.blocks.map fun block => block.label.val) func.blocks = .ok rows ∧
        f = Func.ofBlocks func.name.val rows := by
  rw [FuncDef.lower]
  cases firstRepeat? [] (func.blocks.map BlockDef.label) with
  | some label => simp
  | none =>
    simp only [bind_eq_ok_iff, true_and]
    refine exists_congr fun rows => and_congr_right fun _ => ?_
    exact ⟨fun h => (Except.ok.inj h).symm, fun h => congrArg Except.ok h.symm⟩

/-- A function whose blocks are related to those of a lowered function is lowered too, if it has the
same name. -/
theorem FuncDef.lower_of_forall₂ {R : BlockDef → BlockDef → Prop}
    {T : List (Inst BlockId) → List (Inst BlockId) → Prop}
    (hlabel : ∀ block block', R block block' → block'.label = block.label)
    (hinsts : ∀ labels block block' insts, R block block' →
      lowerInsts labels block.insts = .ok insts →
        ∃ insts', lowerInsts labels block'.insts = .ok insts' ∧ T insts insts')
    {func func' : FuncDef} {f : Func} (hname : func'.name = func.name)
    (h : List.Forall₂ R func.blocks func'.blocks) (hf : func.lower = .ok f) :
    ∃ rows rows', f = Func.ofBlocks func.name.val rows ∧
      func'.lower = .ok (Func.ofBlocks func.name.val rows') ∧
      Func.WellFormedRows rows ∧ Func.WellFormedRows rows' ∧
      List.Forall₂ (fun row row' => row'.1 = row.1 ∧ T row.2 row'.2) rows rows' := by
  obtain ⟨hlabels, rows, hrows, rfl⟩ := FuncDef.lower_eq_ok_iff.mp hf
  have hsame := map_label_of_forall₂ h hlabel
  have hvalues : (func'.blocks.map fun block => block.label.val) =
      func.blocks.map fun block => block.label.val := by
    have hmap := congrArg (List.map Spanned.val) hsame
    rwa [List.map_map, List.map_map] at hmap
  obtain ⟨rows', hrows', hT⟩ := lowerBlocks_of_forall₂ h hlabel (hinsts _) hrows
  rw [← hvalues] at hrows'
  have hf' : func'.lower = .ok (Func.ofBlocks func.name.val rows') :=
    FuncDef.lower_eq_ok_iff.mpr ⟨hsame ▸ hlabels, rows', hrows', by rw [hname]⟩
  exact ⟨rows, rows', rfl, hf', wellFormedRows_of_lowerBlocks hrows,
    wellFormedRows_of_lowerBlocks hrows', hT⟩

/-- Functions are lowered one after the other, and each name must be new. -/
theorem lowerFunctions_cons_eq_ok_iff {seen : List String} {func : Spanned FuncDef}
    {rest : List (Spanned FuncDef)} {functions : List Func} :
    lowerFunctions seen (func :: rest) = .ok functions ↔ func.val.name.val ∉ seen ∧
      ∃ f others, func.val.lower = .ok f ∧
        lowerFunctions (func.val.name.val :: seen) rest = .ok others ∧ functions = f :: others := by
  rw [lowerFunctions]
  by_cases hseen : func.val.name.val ∈ seen
  · simp [hseen]
  · simp only [hseen, if_false, bind_eq_ok_iff, not_false_eq_true, true_and]
    constructor
    · rintro ⟨f, hf, others, hothers, heq⟩
      exact ⟨f, others, hf, hothers, (Except.ok.inj heq).symm⟩
    · rintro ⟨f, others, hf, hothers, rfl⟩
      exact ⟨f, hf, others, hothers, rfl⟩

theorem FuncDef.name_of_lower {func : FuncDef} {f : Func} (h : func.lower = .ok f) :
    f.name = func.name.val := by
  obtain ⟨-, rows, -, rfl⟩ := FuncDef.lower_eq_ok_iff.mp h
  exact Func.name_ofBlocks _ rows

/-- Functions are lowered one by one, and only their names are compared. -/
theorem lowerFunctions_eq_ok_iff {seen : List String} {funcs : List (Spanned FuncDef)}
    {functions : List Func} :
    lowerFunctions seen funcs = .ok functions ↔
      List.Forall₂ (fun func f => func.val.lower = .ok f) funcs functions ∧
        (functions.map Func.name).Nodup ∧ ∀ f ∈ functions, f.name ∉ seen := by
  -- the names seen so far grow by one with each function, so they are kept general
  induction funcs generalizing seen functions with
  | nil =>
    constructor
    · intro h
      obtain rfl := Except.ok.inj h
      simp
    · rintro ⟨hlower, -⟩
      cases hlower
      rfl
  | cons func rest ih =>
    rw [lowerFunctions_cons_eq_ok_iff]
    constructor
    · rintro ⟨hseen, f, others, hf, hothers, rfl⟩
      obtain ⟨hlower, hnodup, hnot⟩ := ih.mp hothers
      rw [← FuncDef.name_of_lower hf] at hseen hnot
      simp only [List.mem_cons, not_or] at hnot
      refine ⟨.cons hf hlower, ?_, ?_⟩
      · rw [List.map_cons, List.nodup_cons]
        refine ⟨fun hmem => ?_, hnodup⟩
        obtain ⟨g, hg, hname⟩ := List.mem_map.mp hmem
        exact (hnot g hg).1 hname
      · exact List.forall_mem_cons.mpr ⟨hseen, fun g hg => (hnot g hg).2⟩
    · rintro ⟨hlower, hnodup, hnot⟩
      cases hlower with
      | @cons _ f _ others hf hothers =>
        rw [List.map_cons, List.nodup_cons] at hnodup
        obtain ⟨hseen, hnot⟩ := List.forall_mem_cons.mp hnot
        rw [← FuncDef.name_of_lower hf]
        refine ⟨hseen, f, others, hf, ih.mpr ⟨hothers, hnodup.2, fun g hg hmem => ?_⟩, rfl⟩
        rcases List.mem_cons.mp hmem with hname | hmem
        · exact hnodup.1 (hname ▸ List.mem_map_of_mem hg)
        · exact hnot g hg hmem

/-- A listing is lowered function by function. -/
theorem Tree.lower_eq_ok_iff {listing : Tree} {program : Program} :
    listing.lower = .ok program ↔ lowerFunctions [] listing.functions = .ok program.functions := by
  obtain ⟨functions⟩ := program
  rw [Tree.lower, bind_eq_ok_iff]
  constructor
  · rintro ⟨lowered, hlowered, heq⟩
    obtain rfl : lowered = functions := congrArg Program.functions (Except.ok.inj heq)
    exact hlowered
  · intro h
    exact ⟨functions, h, rfl⟩

section Related

variable {R : Spanned FuncDef → Spanned FuncDef → Prop} {S : Func → Func → Prop}
  (hname : ∀ func func', R func func' → func'.val.name = func.val.name)
  (hlower : ∀ func func' f, R func func' → func.val.lower = .ok f →
    ∃ f', func'.val.lower = .ok f' ∧ S f f')

include hname hlower

/-- Functions that are related one by one are lowered alike, if related functions have the same name
and lowering keeps them related. -/
theorem lowerFunctions_of_forall₂ {funcs funcs' : List (Spanned FuncDef)} {seen : List String}
    {functions : List Func} (h : List.Forall₂ R funcs funcs')
    (hlowered : lowerFunctions seen funcs = .ok functions) :
    ∃ functions', lowerFunctions seen funcs' = .ok functions' ∧
      List.Forall₂ S functions functions' := by
  induction h generalizing seen functions with
  | nil =>
    obtain rfl := Except.ok.inj hlowered
    exact ⟨[], rfl, List.Forall₂.nil⟩
  | @cons func func' rest rest' hfunc _ ih =>
    obtain ⟨hseen, f, others, hf, hothers, rfl⟩ := lowerFunctions_cons_eq_ok_iff.mp hlowered
    obtain ⟨f', hf', hS⟩ := hlower func func' f hfunc hf
    obtain ⟨others', hothers', hrest⟩ := ih hothers
    rw [← hname func func' hfunc] at hseen hothers'
    exact ⟨f' :: others', lowerFunctions_cons_eq_ok_iff.mpr
      ⟨hseen, f', others', hf', hothers', rfl⟩, List.Forall₂.cons hS hrest⟩

/-- If functions that are related are lowered to functions that are related, so are listings. -/
theorem Tree.lower_of_forall₂ {listing listing' : Tree} {program : Program}
    (h : List.Forall₂ R listing.functions listing'.functions)
    (hprogram : listing.lower = .ok program) :
    ∃ program', listing'.lower = .ok program' ∧
      List.Forall₂ S program.functions program'.functions := by
  obtain ⟨functions', hlowered', hS⟩ :=
    lowerFunctions_of_forall₂ hname hlower h (Tree.lower_eq_ok_iff.mp hprogram)
  exact ⟨⟨functions'⟩, Tree.lower_eq_ok_iff.mpr hlowered', hS⟩

end Related

/-- Every function of a lowered listing is well formed. -/
theorem Tree.wellFormed_of_lower {listing : Tree} {program : Program}
    (h : listing.lower = .ok program) : ∀ f ∈ program.functions, f.WellFormed := by
  obtain ⟨hlower, -⟩ := lowerFunctions_eq_ok_iff.mp (Tree.lower_eq_ok_iff.mp h)
  intro f hf
  obtain ⟨i, hi, rfl⟩ := List.getElem_of_mem hf
  have hfunc := hlower.get (hlower.length_eq ▸ hi) hi
  obtain ⟨-, rows, hrows, heq⟩ := FuncDef.lower_eq_ok_iff.mp hfunc
  rw [List.get_eq_getElem] at heq
  rw [heq]
  exact Func.wellFormed_ofBlocks (wellFormedRows_of_lowerBlocks hrows) _

/-- A text is read by parsing it and lowering the result. -/
theorem parse_eq_ok_iff {text : String} {program : Program} :
    parse text = .ok program ↔
      ∃ listing, parseTree text = .ok listing ∧ listing.lower = .ok program := by
  rw [parse]
  cases parseTree text with
  | error error => simp
  | ok listing =>
    simp only [Except.ok.injEq, exists_eq_left']
    cases listing.lower with
    | error error => simp
    | ok lowered => simp

/-- Every function of a program read from a listing is well formed. -/
theorem wellFormed_of_parse {text : String} {program : Program} (h : parse text = .ok program) :
    ∀ f ∈ program.functions, f.WellFormed := by
  obtain ⟨listing, -, hlower⟩ := parse_eq_ok_iff.mp h
  exact Tree.wellFormed_of_lower hlower

end Rejoin.Listing
