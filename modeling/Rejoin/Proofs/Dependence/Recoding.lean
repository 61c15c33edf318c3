import Rejoin.Proofs.Dependence.Analysis
import Rejoin.Proofs.Dependence.DefUse
import Rejoin.Report.LocationTable

/-!
# Functions without their annotations

A function is recoded by leaving out its annotations and renaming the instructions that stay. Every
part of the analysis goes along with this: what it finds in the recoded function is what it finds in
the function, with instructions renamed, so numbers and blocks are the same. The search along data
is followed step by step, since what it finds depends on the order of its steps.

* `Func.Recodes` — one function is another one without annotations;
* `Func.Recodes.follow` — the search along data takes the same steps in both;
* `Func.Recodes.anonymous_findings` — the findings agree but for the names of instructions;
* `Func.Recodes.locations` — the location tables agree.
-/

namespace Rejoin

/-- The dependents of a branch without the name of the branch instruction. -/
def BranchDependents.anonymous (b : BranchDependents) : BranchDependents :=
  { b with inst := 0 }

/-- A skipped branch without the name of the branch instruction. -/
def SkippedBranch.anonymous (b : SkippedBranch) : SkippedBranch :=
  { b with inst := 0 }

/-- What an analysis finds, without the names of the branch instructions. What is left are numbers,
blocks and totals. -/
def Dependencies.anonymous (deps : Dependencies) : Dependencies :=
  { deps with
    branches := deps.branches.map BranchDependents.anonymous
    skipped := deps.skipped.map SkippedBranch.anonymous }

/-- The code of a block, with its instructions renamed. -/
def Block.recode (isa : Isa) (ν : InstId → InstId) (block : Block) : Block where
  label := block.label
  insts := (block.insts.filter fun entry => isa.isSubstantive entry.2).map fun entry =>
    (ν entry.1, entry.2)

namespace Func

variable {isa : Isa} {ν : InstId → InstId} {f f₀ : Func} {functionId : UInt32} {x y : InstId}

/-- The function `f₀` is the well-formed function `f` without annotations, where `ν` gives
different code different names. -/
structure Recodes (isa : Isa) (ν : InstId → InstId) (f f₀ : Func) : Prop where
  /-- The function is well formed. -/
  wellFormed : f.WellFormed
  /-- The parts of the other one agree. -/
  consistent : f₀.Consistent
  /-- The names of the functions are the same. -/
  name : f₀.name = f.name
  /-- Each block is recoded. -/
  blocks : f₀.blocks = f.blocks.map (Block.recode isa ν)
  /-- Different code gets different names. -/
  injective : ∀ x y, f.IsCode isa x → f.IsCode isa y → ν x = ν y → x = y

/-- A substantive instruction of the function is code. -/
theorem isCode_of_mem_insts (hf : f.WellFormed) {inst : Inst BlockId} (h : (x, inst) ∈ f.insts)
    (hcode : isa.isSubstantive inst = true) : f.IsCode isa x :=
  ⟨inst, (inst?_eq_some_iff hf.consistent).mpr h, hcode⟩

namespace Recodes

variable (h : Recodes isa ν f f₀)

include h

/-- The instructions of the recoded function. -/
theorem insts : f₀.insts = (f.insts.filter fun entry => isa.isSubstantive entry.2).map
    fun entry => (ν entry.1, entry.2) := by
  rw [Func.insts, h.blocks, Func.insts, List.flatMap_map, List.filter_flatMap, List.map_flatMap]
  rfl

/-- Renaming keeps the instruction. -/
theorem inst? (hx : f.IsCode isa x) : f₀.inst? (ν x) = f.inst? x := by
  obtain ⟨inst, hinst, hsubstantive⟩ := hx
  have hmem := (inst?_eq_some_iff h.wellFormed.consistent).mp hinst
  rw [hinst, inst?_eq_some_iff h.consistent, h.insts]
  exact List.mem_map.mpr ⟨(x, inst), List.mem_filter.mpr ⟨hmem, hsubstantive⟩, rfl⟩

/-- Code is in a recoded block exactly when it is in the block. -/
theorem mem_recode_iff {block : Block} (hblock : block ∈ f.blocks) (hx : f.IsCode isa x) :
    ν x ∈ (block.recode isa ν).insts.map Prod.fst ↔ x ∈ block.insts.map Prod.fst := by
  constructor
  · intro hmem
    obtain ⟨_, hentry, heq⟩ := List.mem_map.mp hmem
    obtain ⟨entry, hfilter, rfl⟩ := List.mem_map.mp hentry
    obtain ⟨hmem, hsubstantive⟩ := List.mem_filter.mp hfilter
    have hcode := isCode_of_mem_insts h.wellFormed
      (mem_insts_iff.mpr ⟨block, hblock, hmem⟩) hsubstantive
    -- both are code, where the renaming is injective
    rw [← h.injective _ _ hcode hx heq]
    exact List.mem_map_of_mem hmem
  · intro hmem
    obtain ⟨⟨_, inst⟩, hentry, rfl⟩ := List.mem_map.mp hmem
    obtain ⟨inst', hinst', hsubstantive⟩ := hx
    have hinst := (inst?_eq_some_iff h.wellFormed.consistent).mpr
      (mem_insts_iff.mpr ⟨block, hblock, hentry⟩)
    rw [hinst] at hinst'
    obtain rfl := Option.some.inj hinst'
    exact List.mem_map.mpr
      ⟨(_, inst), List.mem_map.mpr ⟨_, List.mem_filter.mpr ⟨hentry, hsubstantive⟩, rfl⟩, rfl⟩

/-- Every block has its recoded counterpart in the same place. -/
theorem block? (b : BlockId) : f₀.block? b = (f.block? b).map (Block.recode isa ν) := by
  rw [h.consistent.block?_eq_getElem?, h.wellFormed.consistent.block?_eq_getElem?, h.blocks,
    List.getElem?_map]

/-- Renaming keeps the block that owns an instruction. -/
theorem parent? (hx : f.IsCode isa x) : f₀.parent? (ν x) = f.parent? x := by
  ext b
  rw [parent?_eq_some_iff h.consistent, parent?_eq_some_iff h.wellFormed.consistent, h.block?]
  constructor
  · rintro ⟨_, hrecoded, hmem⟩
    obtain ⟨block, hblock, rfl⟩ := Option.map_eq_some_iff.mp hrecoded
    exact ⟨block, hblock, (h.mem_recode_iff (mem_blocks_of_block? hblock) hx).mp hmem⟩
  · rintro ⟨block, hblock, hmem⟩
    rw [hblock]
    exact ⟨_, rfl, (h.mem_recode_iff (mem_blocks_of_block? hblock) hx).mpr hmem⟩

/-- The owner of an instruction that is kept is recoded along with it. -/
theorem owner? (hx : f.IsCode isa x) :
    f₀.owner? (ν x) = (f.owner? x).map (Block.recode isa ν) := by
  rw [Func.owner?, Func.owner?, h.parent? hx, Option.map_bind]
  congr 1
  funext b
  exact h.block? b

/-! ### Neighbours -/

/-- The nearest code after another instruction is found among the code alone. -/
private theorem findAfter_recode {entries : List (InstId × Inst BlockId)}
    (hnodup : (entries.map Prod.fst).Nodup) (hentries : ∀ entry ∈ entries, entry ∈ f.insts)
    (hx : f.IsCode isa x) (hmem : x ∈ entries.map Prod.fst) :
    findAfter (ν x) isa.isSubstantive
        ((entries.filter fun entry => isa.isSubstantive entry.2).map
          fun entry => (ν entry.1, entry.2)) =
      (findAfter x isa.isSubstantive entries).map ν := by
  obtain ⟨⟨z, inst⟩, hentry, hz⟩ := List.mem_map.mp hmem
  obtain rfl : z = x := hz
  have hsubstantive : isa.isSubstantive inst = true := by
    obtain ⟨other, hother, hcode⟩ := hx
    rw [(inst?_eq_some_iff h.wellFormed.consistent).mpr (hentries _ hentry)] at hother
    exact Option.some.inj hother ▸ hcode
  obtain ⟨before, after, rfl⟩ := List.append_of_mem hentry
  have hbefore := not_mem_of_nodup_append hnodup
  -- no code before the instruction is renamed to the same name
  have hrenamed : ν z ∉ ((before.filter fun entry => isa.isSubstantive entry.2).map
      fun entry => (ν entry.1, entry.2)).map Prod.fst := by
    intro hmem
    obtain ⟨_, hentry, heq⟩ := List.mem_map.mp hmem
    obtain ⟨entry, hfilter, rfl⟩ := List.mem_map.mp hentry
    obtain ⟨hmem, hcode⟩ := List.mem_filter.mp hfilter
    have hentry := isCode_of_mem_insts h.wellFormed (hentries entry (by simp [hmem])) hcode
    have hsame := h.injective _ _ hentry hx heq
    exact hbefore (hsame ▸ List.mem_map_of_mem hmem)
  have hfilter : (((z, inst) :: after).filter fun entry => isa.isSubstantive entry.2) =
      (z, inst) :: after.filter fun entry => isa.isSubstantive entry.2 :=
    List.filter_cons_of_pos hsubstantive
  rw [findAfter_append_cons hbefore, List.filter_append, hfilter, List.map_append, List.map_cons,
    findAfter_append_cons hrenamed, List.find?_map, List.find?_filter, Option.map_map,
    Option.map_map]
  congr 1
  simp

/-- The next code after an instruction. -/
theorem next? (hx : f.IsCode isa x) :
    f₀.next? (ν x) isa.isSubstantive = (f.next? x isa.isSubstantive).map ν := by
  rw [Func.next?, Func.next?, h.owner? hx]
  cases howner : f.owner? x with
  | none => rfl
  | some block =>
    obtain ⟨hblock, hmem⟩ := (owner?_eq_some_iff h.wellFormed.consistent).mp howner
    exact h.findAfter_recode (nodup_ids_of_mem h.wellFormed.consistent hblock)
      (fun entry hentry => mem_insts_iff.mpr ⟨block, hblock, hentry⟩) hx hmem

/-- The nearest code before an instruction. -/
theorem prev? (hx : f.IsCode isa x) :
    f₀.prev? (ν x) isa.isSubstantive = (f.prev? x isa.isSubstantive).map ν := by
  rw [Func.prev?, Func.prev?, h.owner? hx]
  cases howner : f.owner? x with
  | none => rfl
  | some block =>
    obtain ⟨hblock, hmem⟩ := (owner?_eq_some_iff h.wellFormed.consistent).mp howner
    have hnodup : (block.insts.reverse.map Prod.fst).Nodup := by
      rw [List.map_reverse, List.nodup_reverse]
      exact nodup_ids_of_mem h.wellFormed.consistent hblock
    have hfind := h.findAfter_recode hnodup
      (fun entry hentry => mem_insts_iff.mpr ⟨block, hblock, List.mem_reverse.mp hentry⟩) hx
      (by simpa using hmem)
    rw [List.filter_reverse, List.map_reverse] at hfind
    exact hfind

/-! ### Numbers -/

omit h in
/-- What is numbered is code. -/
theorem isCode_of_mem_order (hf : f.WellFormed)
    (hx : x ∈ (Numbering.ofFunc isa functionId f).order) : f.IsCode isa x := by
  obtain ⟨inst, hmem, hsubstantive⟩ := Numbering.mem_order_ofFunc_iff.mp hx
  exact isCode_of_mem_insts hf hmem hsubstantive

/-- The instructions that are kept are numbered in the same order. -/
theorem order : (Numbering.ofFunc isa functionId f₀).order =
    (Numbering.ofFunc isa functionId f).order.map ν := by
  simp only [Numbering.order_ofFunc, h.insts, List.filter_map, List.map_map, Function.comp_def,
    List.filter_filter, Bool.and_self]

/-- As many instructions have numbers as before. -/
theorem size : (Numbering.ofFunc isa functionId f₀).size =
    (Numbering.ofFunc isa functionId f).size := by
  rw [Numbering.size, h.order, List.length_map, Numbering.size]

/-- Renaming keeps numbers. -/
theorem number? (hx : f.IsCode isa x) :
    (Numbering.ofFunc isa functionId f₀).number? (ν x) =
      (Numbering.ofFunc isa functionId f).number? x := by
  ext n
  rw [(Numbering.agrees_ofFunc isa functionId f₀).number?_eq_some_iff
      (Numbering.nodup_order_ofFunc h.consistent.nodup_ids),
    (Numbering.agrees_ofFunc isa functionId f).number?_eq_some_iff
      (Numbering.nodup_order_ofFunc h.wellFormed.nodup_ids),
    h.order, List.getElem?_map, Option.map_eq_some_iff]
  constructor
  · rintro ⟨y, hy, heq⟩
    have hcode := isCode_of_mem_order h.wellFormed (List.mem_of_getElem? hy)
    rw [hy, h.injective y x hcode hx heq]
  · intro hget
    exact ⟨x, hget, rfl⟩

/-- Membership is the same before and after renaming. -/
theorem contains_map {ids : List InstId} (hids : ∀ y ∈ ids, f.IsCode isa y)
    (hx : f.IsCode isa x) : (ids.map ν).contains (ν x) = ids.contains x := by
  rw [Bool.eq_iff_iff, List.contains_iff_mem, List.contains_iff_mem]
  constructor
  · intro hmem
    obtain ⟨y, hy, heq⟩ := List.mem_map.mp hmem
    exact h.injective y x (hids y hy) hx heq ▸ hy
  · intro hmem
    exact List.mem_map_of_mem hmem

/-- Renaming keeps the numbers that are collected. -/
theorem collect {ids : List InstId} (hids : ∀ y ∈ ids, f.IsCode isa y) :
    (Numbering.ofFunc isa functionId f₀).collect (ids.map ν) =
      (Numbering.ofFunc isa functionId f).collect ids := by
  have hentries : (Numbering.ofFunc isa functionId f₀).entries =
      (Numbering.ofFunc isa functionId f).entries.map fun entry => (entry.1, ν entry.2) := by
    simp only [Numbering.entries, h.order, List.zipIdx_map, List.map_map]
    rfl
  rw [Numbering.collect, Numbering.collect, hentries, List.filter_map, List.map_map]
  congr 1
  refine List.filter_congr fun entry hentry => ?_
  have horder : entry.2 ∈ (Numbering.ofFunc isa functionId f).order :=
    List.mem_of_getElem? (Numbering.mem_entries_iff.mp hentry)
  exact h.contains_map hids (isCode_of_mem_order h.wellFormed horder)

/-- An instruction that is kept has a number if it had one before. -/
theorem isNumbered (hx : f.IsCode isa x) :
    (f₀.ownSetting isa functionId).isNumbered (ν x) =
      (f.ownSetting isa functionId).isNumbered x := by
  exact congrArg Option.isSome (h.number? hx)

/-! ### Data -/

/-- The readers of a value are those that had a number, under their new names. -/
theorem readers (name : String) : DefUse.readers f₀ name =
    ((DefUse.readers f name).filter (f.ownSetting isa functionId).isNumbered).map ν := by
  have hnumbered : ∀ entry ∈ f.insts,
      (f.ownSetting isa functionId).isNumbered entry.1 = isa.isSubstantive entry.2 := by
    intro entry hentry
    rw [Bool.eq_iff_iff, isNumbered_ownSetting_iff h.wellFormed.toLinked]
    constructor
    · rintro ⟨inst, hinst, hsubstantive⟩
      rw [(inst?_eq_some_iff h.wellFormed.consistent).mpr hentry] at hinst
      exact Option.some.inj hinst ▸ hsubstantive
    · exact isCode_of_mem_insts h.wellFormed hentry
  -- filtering for readers and filtering for code commute
  simp only [DefUse.readers, DefUse.readersIn, h.insts, List.filter_map, List.map_map,
    List.filter_filter]
  congr 1
  refine List.filter_congr fun entry hentry => ?_
  simp only [Function.comp_apply, hnumbered entry hentry, Bool.and_comm]

/-- The consumers of an instruction in the recoded function are its numbered consumers. -/
theorem consumers (hx : f.IsCode isa x) : (f₀.ownSetting isa functionId).consumers (ν x) =
    (((f.ownSetting isa functionId).consumers x).filter
      (f.ownSetting isa functionId).isNumbered).map ν := by
  have hconsumers : ∀ (g : Func) y, (g.ownSetting isa functionId).consumers y =
      (DefUse.ofFunc g).consumers y := fun _ _ => rfl
  rw [hconsumers, hconsumers, DefUse.consumers_ofFunc h.consistent,
    DefUse.consumers_ofFunc h.wellFormed.consistent, h.inst? hx]
  cases (f.inst? x).bind Inst.result with
  | none => rfl
  | some name => exact h.readers name

omit h in
/-- Filtering an instruction after renaming it is filtering it before. -/
private theorem filter_map_eq {id? : Option InstId} {p q : InstId → Bool}
    (hpq : ∀ id ∈ id?, p (ν id) = q id) : (id?.map ν).filter p = (id?.filter q).map ν := by
  cases id? with
  | none => rfl
  | some id =>
    rw [Option.map_some, Option.filter_some, Option.filter_some, hpq id rfl]
    cases q id with
    | true => rfl
    | false => rfl

/-- Renaming keeps what an instruction is fused with. -/
theorem fusedBranch? (hx : f.IsCode isa x) : (f₀.ownSetting isa functionId).fusedBranch? (ν x) =
    ((f.ownSetting isa functionId).fusedBranch? x).map ν := by
  rw [fusedBranch?_ownSetting, fusedBranch?_ownSetting]
  cases isa.fuses with
  | false => rfl
  | true =>
    rw [if_pos rfl, if_pos rfl, h.next? hx]
    refine filter_map_eq fun k hk => ?_
    have hcode : f.IsCode isa k := ((next?_eq_some_iff h.wellFormed.consistent).mp hk).2
    have hbranch : (f₀.ownSetting isa functionId).isBranch (ν k) =
        (f.ownSetting isa functionId).isBranch k :=
      congrArg (Option.any Inst.isBranch) (h.inst? hcode)
    rw [hbranch, h.isNumbered hcode]

/-- Working through an instruction finds the same in both functions. -/
theorem found {processed : List InstId} (hprocessed : ∀ y ∈ processed, f.IsCode isa y)
    (hx : f.IsCode isa x) :
    (f₀.ownSetting isa functionId).found (processed.map ν) (ν x) =
      ((f.ownSetting isa functionId).found processed x).map ν := by
  have hall : ((f₀.ownSetting isa functionId).consumers (ν x)).filter
      (f₀.ownSetting isa functionId).isNumbered =
        (((f.ownSetting isa functionId).consumers x).filter
          (f.ownSetting isa functionId).isNumbered).map ν := by
    -- in the recoded function every instruction has a number
    rw [h.consumers hx, List.filter_eq_self]
    intro y hy
    obtain ⟨c, hc, rfl⟩ := List.mem_map.mp hy
    have hnumbered := (List.mem_filter.mp hc).2
    rw [h.isNumbered ((isNumbered_ownSetting_iff h.wellFormed.toLinked).mp hnumbered), hnumbered]
  rw [DataFlow.found, DataFlow.found, hall, List.flatMap_map, List.map_flatMap]
  refine List.flatMap_congr fun c hc => ?_
  have hcode := (isNumbered_ownSetting_iff h.wellFormed.toLinked).mp (List.mem_filter.mp hc).2
  have hfilter : ((f₀.ownSetting isa functionId).fusedBranch? (ν c)).filter
      (fun next => !(processed.map ν).contains next) =
        (((f.ownSetting isa functionId).fusedBranch? c).filter
          fun next => !processed.contains next).map ν := by
    rw [h.fusedBranch? hcode]
    refine filter_map_eq fun k hk => ?_
    -- the fused branch is found from `x` when nothing is processed, so it is code
    have hk : k ∈ (f.ownSetting isa functionId).found [] x :=
      DataFlow.mem_found_iff.mpr
        ⟨c, (List.mem_filter.mp hc).1, (List.mem_filter.mp hc).2, Or.inr ⟨hk, by simp⟩⟩
    rw [h.contains_map hprocessed
      ((isNumbered_ownSetting_iff h.wellFormed.toLinked).mp (DataFlow.isNumbered_of_mem_found hk))]
  rw [hfilter, List.map_cons]
  congr 1
  cases Option.filter _ _ with
  | none => rfl
  | some k => rfl

/-- The search along data takes the same steps in both functions. -/
theorem follow (fuel : Nat) {processed frontier : List InstId}
    (hprocessed : ∀ y ∈ processed, f.IsCode isa y) (hfrontier : ∀ y ∈ frontier, f.IsCode isa y) :
    (f₀.ownSetting isa functionId).follow fuel (processed.map ν) (frontier.map ν) =
      ((f.ownSetting isa functionId).follow fuel processed frontier).map ν := by
  -- on the fuel: after each step queue and members are still renamed copies, and all of them are
  -- code
  induction fuel generalizing processed frontier with
  | zero => rfl
  | succ fuel ih =>
    -- both runs skip the same part of the frontier
    have hdrop : (frontier.map ν).dropWhile (fun id => (processed.map ν).contains id) =
        (frontier.dropWhile fun id => processed.contains id).map ν := by
      clear ih
      induction frontier with
      | nil => rfl
      | cons id rest ih =>
        rw [List.map_cons, List.dropWhile_cons, List.dropWhile_cons,
          h.contains_map hprocessed (hfrontier id List.mem_cons_self)]
        cases processed.contains id with
        | true => exact ih fun y hy => hfrontier y (List.mem_cons_of_mem id hy)
        | false => rfl
    rw [DataFlow.follow, DataFlow.follow, hdrop]
    cases hrest : frontier.dropWhile fun id => processed.contains id with
    | nil => rfl
    | cons id rest =>
      have hsub : ∀ y ∈ id :: rest, f.IsCode isa y := by
        intro y hy
        rw [← hrest] at hy
        exact hfrontier y ((List.dropWhile_sublist _).subset hy)
      obtain ⟨hid, hrest⟩ := List.forall_mem_cons.mp hsub
      have hprocessed' : ∀ y ∈ id :: processed, f.IsCode isa y :=
        List.forall_mem_cons.mpr ⟨hid, hprocessed⟩
      have hnew : (f₀.ownSetting isa functionId).found ((id :: processed).map ν) (ν id) = _ :=
        h.found hprocessed' hid
      have hcode : ∀ y ∈ (f.ownSetting isa functionId).found (id :: processed) id,
          f.IsCode isa y := fun y hy =>
        (isNumbered_ownSetting_iff h.wellFormed.toLinked).mp (DataFlow.isNumbered_of_mem_found hy)
      -- what is found has a number, so it is code and the induction goes on
      have hnext := ih hprocessed' (List.forall_mem_append.mpr ⟨hrest, hcode⟩)
      rw [List.map_cons] at hnew hnext
      rw [List.map_append] at hnext
      simp only [List.map_cons, List.map_append, hnew, hnext]

/-- The closure of seeds is that of the renamed seeds. The queue and the members are the same step
by step. -/
theorem closure {seeds : List InstId} (hseeds : ∀ y ∈ seeds, f.IsCode isa y) :
    (f₀.ownSetting isa functionId).closure (seeds.map ν) =
      ((f.ownSetting isa functionId).closure seeds).map ν := by
  have hlength : (f₀.ownSetting isa functionId).numbering.numbers.length =
      (f.ownSetting isa functionId).numbering.numbers.length :=
    ((Numbering.agrees_ofFunc isa functionId f₀).length_numbers.trans h.size).trans
      (Numbering.agrees_ofFunc isa functionId f).length_numbers.symm
  rw [DataFlow.closure, DataFlow.closure, List.length_map, hlength]
  exact h.follow _ (List.forall_mem_nil _) hseeds

/-! ### Control flow -/

/-- A block ends as its code ends. -/
private theorem terminator?_recode {block : Block} (hblock : block ∈ f.blocks) :
    (block.recode isa ν).terminator? = block.terminator? := by
  have hlast := h.wellFormed.terminator_last block hblock
  rw [Block.terminator?, Block.terminator?, Block.recode]
  rcases List.eq_nil_or_concat block.insts with hinsts | ⟨init, entry, hinsts⟩
  · simp [hinsts]
  · rw [hinsts, List.concat_eq_append] at hlast ⊢
    rw [List.dropLast_concat] at hlast
    cases hend : entry.2.isTerminator with
    | true =>
      have hsubstantive : isa.isSubstantive entry.2 = true := by
        rw [Isa.isSubstantive, hend, Bool.true_or]
      simp [List.filter_append, hsubstantive]
    | false =>
      -- then no instruction of the block ends it
      have hnone : ∀ other ∈ init ++ [entry], other.2.isTerminator = false := by
        rw [List.forall_mem_append]
        exact ⟨hlast, by simpa using hend⟩
      have hright : (((init ++ [entry]).getLast?.map Prod.snd).filter Inst.isTerminator) =
          none := by
        simp [hend]
      rw [hright, Option.filter_eq_none_iff]
      intro inst hinst hterminator
      obtain ⟨last, hgetLast, rfl⟩ := Option.map_eq_some_iff.mp hinst
      obtain ⟨other, hother, rfl⟩ := List.mem_map.mp (List.mem_of_getLast? hgetLast)
      have hfalse := hnone other (List.mem_of_mem_filter hother)
      simp [hfalse] at hterminator

/-- Both functions have the same control flow. -/
theorem transfers : f₀.transfers = f.transfers := by
  have hlength : f₀.blocks.length = f.blocks.length := by rw [h.blocks, List.length_map]
  have hend : ∀ b, (f₀.block? b).bind Block.terminator? = (f.block? b).bind Block.terminator? := by
    intro b
    rw [h.block?]
    cases hblock : f.block? b with
    | none => rfl
    | some block =>
      exact h.terminator?_recode (mem_blocks_of_block? hblock)
  refine transfers_eq_of_ends h.wellFormed.consistent h.consistent hlength fun b => ?_
  rw [hend]

theorem graph : (f₀.ownSetting isa functionId).graph = (f.ownSetting isa functionId).graph :=
  congrArg Graph.ofBlocks h.transfers

theorem point? : (f₀.ownSetting isa functionId).point? = (f.ownSetting isa functionId).point? :=
  congrArg (fun blocks => (PostDominators.ofGraph (Graph.ofBlocks blocks)).immediate?) h.transfers

/-- A branch controls the same instructions in both functions. -/
theorem controlled (block point : BlockId) :
    (f₀.ownSetting isa functionId).controlled block point =
      ((f.ownSetting isa functionId).controlled block point).map ν := by
  -- the controlled instructions, block by block of the region
  have hdef : ∀ g : Func, (g.ownSetting isa functionId).controlled block point =
      (((g.ownSetting isa functionId).graph.region block point).flatMap fun b =>
        ((g.block? b).map fun owner => owner.insts.map Prod.fst).getD []).filter fun id =>
          (g.inst? id).any isa.isSubstantive := by
    intro g
    rw [Setting.controlled, Region.insts_ofBranch]
    rfl
  rw [hdef, hdef, h.graph, List.filter_flatMap, List.filter_flatMap, List.map_flatMap]
  refine List.flatMap_congr fun b _ => ?_
  rw [h.block?]
  cases hblock : f.block? b with
  | none => rfl
  | some owner =>
    have hinst : ∀ entry ∈ owner.insts, f.inst? entry.1 = some entry.2 := fun entry hentry =>
      (inst?_eq_some_iff h.wellFormed.consistent).mpr
        (mem_insts_iff.mpr ⟨owner, mem_blocks_of_block? hblock, hentry⟩)
    -- in the recoded block everything is code, and in the other one what is kept is
    have hleft : ((owner.recode isa ν).insts.map Prod.fst).filter (fun id =>
        (f₀.inst? id).any isa.isSubstantive) = (owner.recode isa ν).insts.map Prod.fst := by
      rw [List.filter_eq_self]
      intro id hid
      obtain ⟨_, hentry, rfl⟩ := List.mem_map.mp hid
      obtain ⟨entry, hfilter, rfl⟩ := List.mem_map.mp hentry
      obtain ⟨hmem, hsubstantive⟩ := List.mem_filter.mp hfilter
      rw [h.inst? ⟨entry.2, hinst entry hmem, hsubstantive⟩, hinst entry hmem]
      exact hsubstantive
    have hright : (owner.insts.map Prod.fst).filter (fun id =>
        (f.inst? id).any isa.isSubstantive) =
          (owner.insts.filter fun entry => isa.isSubstantive entry.2).map Prod.fst := by
      rw [List.filter_map]
      congr 1
      refine List.filter_congr fun entry hentry => ?_
      rw [Function.comp_apply, hinst entry hentry]
      rfl
    simp only [Option.map_some, Option.getD_some]
    rw [hleft, hright, Block.recode, List.map_map, List.map_map]
    rfl

/-- A branch controls code only. -/
theorem isCode_of_mem_controlled {block point : BlockId}
    (hx : x ∈ (f.ownSetting isa functionId).controlled block point) : f.IsCode isa x := by
  obtain ⟨-, -, -, hcode⟩ := (mem_controlled_iff h.wellFormed.toLinked).mp hx
  exact hcode

/-- The data search of a branch starts from the same instructions in both functions. -/
theorem seeds {branch : InstId} (hbranch : f.IsCode isa branch) (controlled : List InstId) :
    (f₀.ownSetting isa functionId).seeds (ν branch) (controlled.map ν) =
      ((f.ownSetting isa functionId).seeds branch controlled).map ν := by
  have hdef : ∀ (g : Func) y ids, (g.ownSetting isa functionId).seeds y ids =
      y :: (g.prev? y isa.isSubstantive).toList ++ ids := fun _ _ _ => rfl
  rw [hdef, hdef, h.prev? hbranch]
  cases f.prev? branch isa.isSubstantive with
  | none => rfl
  | some producer => rfl

/-- The seeds of a branch are code, with the compare it is fused with. -/
theorem isCode_of_mem_seeds {branch : InstId} (hbranch : f.IsCode isa branch)
    {controlled : List InstId} (hcontrolled : ∀ y ∈ controlled, f.IsCode isa y) :
    ∀ y ∈ (f.ownSetting isa functionId).seeds branch controlled, f.IsCode isa y := by
  intro y hy
  rcases (mem_seeds_iff h.wellFormed.toLinked).mp hy with rfl | ⟨-, hcode⟩ | hy
  · exact hbranch
  · exact hcode
  · exact hcontrolled y hy

/-- The same branches are found, under their new names. -/
theorem branchSites (point? : BlockId → Option BlockId) :
    Rejoin.branchSites f₀ point? =
      (Rejoin.branchSites f point?).map fun site => { site with inst := ν site.inst } := by
  have hlayout : f₀.layout = f.layout.map fun entry => (entry.1, entry.2.recode isa ν) := by
    rw [h.consistent.layout_eq_mapIdx, h.wellFormed.consistent.layout_eq_mapIdx, h.blocks,
      List.mapIdx_eq_zipIdx_map, List.mapIdx_eq_zipIdx_map, List.zipIdx_map, List.map_map,
      List.map_map]
    rfl
  rw [Rejoin.branchSites, Rejoin.branchSites, hlayout, List.flatMap_map, List.map_flatMap]
  refine List.flatMap_congr fun entry _ => ?_
  simp only [Block.recode, List.filter_map, List.map_map, List.filter_filter]
  have hbranch : ∀ inst : InstId × Inst BlockId,
      (inst.2.isBranch && isa.isSubstantive inst.2) = inst.2.isBranch := by
    intro inst
    cases hinst : inst.2.isBranch with
    | false => rfl
    | true => rw [Isa.isSubstantive_of_isBranch hinst, Bool.true_and]
  simp only [Function.comp_def, hbranch]

/-! ### Results -/

/-- A branch has the same outcome in both functions. -/
theorem outcome {site : BranchSite} (hsite : f.IsCode isa site.inst) :
    Sum.map BranchDependents.anonymous SkippedBranch.anonymous
        ((f₀.ownSetting isa functionId).outcome { site with inst := ν site.inst }) =
      Sum.map BranchDependents.anonymous SkippedBranch.anonymous
        ((f.ownSetting isa functionId).outcome site) := by
  have hnumber : (f₀.ownSetting isa functionId).numberOf (ν site.inst) =
      (f.ownSetting isa functionId).numberOf site.inst :=
    congrArg (Option.getD · 0) (h.number? hsite)
  rw [Setting.outcome, Setting.outcome]
  cases site.point with
  | none => simp only [Sum.map_inr, SkippedBranch.anonymous, hnumber]
  | some point =>
    have hcontrolled : ∀ y ∈ (f.ownSetting isa functionId).controlled site.block point,
        f.IsCode isa y := fun y hy => h.isCode_of_mem_controlled hy
    -- the closure is started from renamed seeds, so it finds renamed instructions
    have hfound : (f₀.ownSetting isa functionId).closure
        ((f₀.ownSetting isa functionId).seeds (ν site.inst)
          (((f.ownSetting isa functionId).controlled site.block point).map ν)) =
        ((f.ownSetting isa functionId).closure ((f.ownSetting isa functionId).seeds site.inst
          ((f.ownSetting isa functionId).controlled site.block point))).map ν := by
      rw [h.seeds hsite, h.closure (h.isCode_of_mem_seeds hsite hcontrolled)]
    have hfoundCode : ∀ y ∈ (f.ownSetting isa functionId).closure
        ((f.ownSetting isa functionId).seeds site.inst
          ((f.ownSetting isa functionId).controlled site.block point)),
        f.IsCode isa y := fun y hy =>
      (isNumbered_ownSetting_iff h.wellFormed.toLinked).mp (DataFlow.isNumbered_of_mem_closure hy)
    have hcollect : ∀ ids, (∀ y ∈ ids, f.IsCode isa y) →
        (f₀.ownSetting isa functionId).numbering.collect (ids.map ν) =
          (f.ownSetting isa functionId).numbering.collect ids := fun ids hids => h.collect hids
    simp only [Sum.map_inl, Setting.findingsOf, BranchDependents.anonymous, hnumber,
      h.controlled, hfound, ← List.map_append, hcollect _ hcontrolled, hcollect _ hfoundCode,
      hcollect _ (List.forall_mem_append.mpr ⟨hcontrolled, hfoundCode⟩)]

/-- The findings in both functions agree but for the names of instructions. -/
theorem anonymous_findings :
    (f₀.findings isa functionId).anonymous = (f.findings isa functionId).anonymous := by
  rw [findings, findings, h.name]
  refine Dependencies.mapBranches_ofOutcomes BranchDependents.anonymous SkippedBranch.anonymous
    (fun _ => rfl) (by rw [ownSetting, ownSetting, setting, setting]; simp) h.size ?_
  rw [h.branchSites, h.point?, List.map_map, List.map_map, List.map_map]
  refine List.map_congr_left fun site hsite => ?_
  obtain ⟨-, -, hbranch⟩ := (mem_branchSites_iff_isCondBranch h.wellFormed.consistent).mp hsite
  exact h.outcome hbranch.isCode

/-- The location tables of both functions agree. -/
theorem locations : f₀.locations isa functionId = f.locations isa functionId := by
  simp only [Func.locations, h.order, List.filterMap_map, h.name]
  refine List.filterMap_congr fun id hid => ?_
  have hcode := isCode_of_mem_order h.wellFormed hid
  have hlocation : (Numbering.ofFunc isa functionId f₀).location? (ν id) =
      (Numbering.ofFunc isa functionId f).location? id := by
    rw [Numbering.location?, Numbering.location?, h.number? hcode, Numbering.functionId_ofFunc,
      Numbering.functionId_ofFunc]
  have hlabel : (f₀.owner? (ν id)).map Block.label = (f.owner? id).map Block.label := by
    rw [h.owner? hcode, Option.map_map]
    rfl
  simp only [Function.comp_apply, hlocation, hlabel]

end Recodes

end Func

end Rejoin
