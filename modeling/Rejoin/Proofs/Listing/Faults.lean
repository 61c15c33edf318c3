import Mathlib.Data.List.Infix
import Rejoin.Proofs.Listing.Grammar
import Rejoin.Proofs.Listing.Lowering

/-!
# What keeps a listing from being a program

The faults of a listing, written down in the order in which they are looked for: functions in order;
in each the name, then the labels of its blocks, then its instructions; of an instruction first that
it stands behind the end of its block, then its targets. Lowering stops at the first of them, and a
listing without faults gives the program that it describes: `Tree.lower_exact`.
-/

namespace Rejoin

section InTurn

variable {α β : Type}

/-- What is collected from the elements of a list in turn, each with those before it. -/
def inTurn (collect : List α → α → List β) (xs : List α) : List β :=
  (xs.inits.zip xs).flatMap fun entry => collect entry.1 entry.2

theorem inTurn_cons (collect : List α → α → List β) (x : α) (xs : List α) :
    inTurn collect (x :: xs) = collect [] x ++ inTurn (fun before => collect (x :: before)) xs := by
  rw [inTurn, List.inits_cons, List.zip_cons_cons, List.zip_map_left, List.flatMap_cons,
    List.flatMap_map]
  rfl

/-- What is collected does not depend on the elements before if no single collection does. -/
theorem inTurn_const (collect : α → List β) (xs : List α) :
    inTurn (fun _ => collect) xs = xs.flatMap collect := by
  induction xs with
  | nil => rfl
  | cons x xs ih => rw [inTurn_cons, ih, List.flatMap_cons]

/-- Nothing is collected in turn if nothing is at any place. -/
theorem inTurn_eq_nil_iff {collect : List α → α → List β} {xs : List α} :
    inTurn collect xs = [] ↔
      ∀ before x after, xs = before ++ x :: after → collect before x = [] := by
  induction xs generalizing collect with
  | nil => simp [inTurn]
  | cons y xs ih =>
    rw [inTurn_cons, List.append_eq_nil_iff, ih]
    constructor
    · rintro ⟨hy, hxs⟩ before x after heq
      cases before with
      | nil =>
        obtain ⟨rfl, rfl⟩ := List.cons.inj heq
        exact hy
      | cons z before =>
        obtain ⟨rfl, rfl⟩ := List.cons.inj heq
        exact hxs before x after rfl
    · intro h
      refine ⟨h [] y xs rfl, fun before x after heq => h (y :: before) x after ?_⟩
      rw [heq, List.cons_append]

/-- What is collected first is the first that some element gives. -/
theorem exists_of_head?_inTurn {collect : List α → α → List β} {xs : List α} {b : β}
    (h : (inTurn collect xs).head? = some b) :
    ∃ before x after, xs = before ++ x :: after ∧ (collect before x).head? = some b := by
  induction xs generalizing collect with
  | nil => cases h
  | cons y xs ih =>
    rw [inTurn_cons, List.head?_append, Option.or_eq_some_iff] at h
    rcases h with hy | ⟨-, hxs⟩
    · exact ⟨[], y, xs, rfl, hy⟩
    · obtain ⟨before, x, after, rfl, hx⟩ := ih hxs
      exact ⟨y :: before, x, after, rfl, hx⟩

end InTurn

/-- Keys are distinct if none occurs before itself. -/
theorem nodup_map_iff {α β : Type} (key : α → β) (xs : List α) :
    (xs.map key).Nodup ↔ ∀ before x after, xs = before ++ x :: after →
      key x ∉ before.map key := by
  constructor
  · rintro h before x after rfl hmem
    rw [List.map_append, List.nodup_append] at h
    exact h.2.2 _ hmem _ (by simp) rfl
  · intro h
    induction xs with
    | nil => exact List.nodup_nil
    | cons y xs ih =>
      rw [List.map_cons, List.nodup_cons]
      refine ⟨fun hmem => ?_, ih fun before x after heq hmem => ?_⟩
      · obtain ⟨x, hx, hkey⟩ := List.mem_map.mp hmem
        obtain ⟨before, after, rfl⟩ := List.append_of_mem hx
        exact h (y :: before) x after rfl (by simp [hkey])
      · exact h (y :: before) x after (by rw [heq, List.cons_append])
          (List.mem_cons_of_mem _ hmem)

namespace Listing

namespace InstDef

variable {τ σ : Type} {R : τ → σ → Prop}

/-- A machine instruction is the one that the instruction of a listing describes, and the targets of
the two are related in order. -/
inductive Relates (R : τ → σ → Prop) : InstDef τ → Inst σ → Prop
  /-- Ordinary instructions agree. -/
  | op (opcode : String) (operands : List Operand) (result : Option String) :
      Relates R (.op opcode operands result) (.op opcode operands result)
  /-- The true targets are related, and the false targets are. -/
  | branch {t e : τ} {t' e' : σ} (cond : Option Operand) :
      R t t' → R e e' → Relates R (.branch cond t e) (.branch cond t' e')
  /-- The targets are related. -/
  | jump {t : τ} {t' : σ} : R t t' → Relates R (.jump t) (.jump t')
  /-- Returns agree. -/
  | ret (value : Option Operand) : Relates R (.ret value) (.ret value)

/-- The two end their block together. -/
theorem Relates.isTerminator {inst : InstDef τ} {inst' : Inst σ} (h : inst.Relates R inst') :
    inst'.isTerminator = inst.isTerminator := by
  cases h <;> rfl

theorem Relates.imp {S : τ → σ → Prop} {inst : InstDef τ} {inst' : Inst σ}
    (h : inst.Relates R inst') (himp : ∀ t t', R t t' → S t t') : inst.Relates S inst' := by
  cases h with
  | op => exact .op _ _ _
  | branch cond ht he => exact .branch cond (himp _ _ ht) (himp _ _ he)
  | jump ht => exact .jump (himp _ _ ht)
  | ret value => exact .ret value

end InstDef

/-! ## The faults of a listing -/

/-- The fault of a name behind earlier names, if it is one of them. -/
def repeatFaults (fault : Spanned String → LowerError) (earlier : List String)
    (name : Spanned String) : List LowerError :=
  if name.val ∈ earlier then [fault name] else []

/-- The fault of a target, if it is none of the labels. -/
def targetFaults (labels : List String) (target : Spanned String) : List LowerError :=
  if target.val ∈ labels then [] else [.unknownLabel target]

/-- The fault of an instruction behind earlier ones of its block, if one of them ends the block. -/
def endFaults (earlier : List (Spanned LabelInst)) (inst : Spanned LabelInst) : List LowerError :=
  if earlier.any fun inst => inst.val.isTerminator then [.afterTerminator inst.span] else []

/-- The faults of the instructions of a block, in a function with these labels. -/
def instFaults (labels : List String) : List (Spanned LabelInst) → List LowerError :=
  inTurn fun earlier inst =>
    endFaults earlier inst ++ inst.val.targets.flatMap (targetFaults labels)

/-- The labels of the blocks of a function. -/
def FuncDef.labels (func : FuncDef) : List String :=
  func.blocks.map fun block => block.label.val

/-- The faults of a function: those of its labels, then those of its instructions. -/
def FuncDef.faults (func : FuncDef) : List LowerError :=
  inTurn (fun earlier block => repeatFaults .duplicateLabel
      (earlier.map fun block => block.label.val) block.label) func.blocks ++
    func.blocks.flatMap fun block => instFaults func.labels block.insts

/-- The faults of a listing. -/
def Tree.faults (listing : Tree) : List LowerError :=
  inTurn (fun earlier func => repeatFaults .duplicateFunction
      (earlier.map fun func => func.val.name.val) func.val.name ++ func.val.faults)
    listing.functions

/-- A listing that describes a program. -/
structure Tree.Lowerable (listing : Tree) : Prop where
  /-- Functions have different names. -/
  names : (listing.functions.map fun func => func.val.name.val).Nodup
  /-- The blocks of a function have different labels. -/
  labels : ∀ func ∈ listing.functions, func.val.labels.Nodup
  /-- The targets in a function are labels of its blocks. -/
  targets : ∀ func ∈ listing.functions, ∀ block ∈ func.val.blocks, ∀ inst ∈ block.insts,
    ∀ target ∈ inst.val.targets, target.val ∈ func.val.labels
  /-- Nothing follows an instruction that ends its block. -/
  ends : ∀ func ∈ listing.functions, ∀ block ∈ func.val.blocks, ∀ before inst after,
    block.insts = before ++ inst :: after → inst.val.isTerminator = true → after = []

/-- A name is no fault if it is new. -/
@[simp]
theorem repeatFaults_eq_nil_iff {fault : Spanned String → LowerError} {earlier : List String}
    {name : Spanned String} : repeatFaults fault earlier name = [] ↔ name.val ∉ earlier := by
  simp [repeatFaults]

@[simp]
theorem targetFaults_eq_nil_iff {labels : List String} {target : Spanned String} :
    targetFaults labels target = [] ↔ target.val ∈ labels := by
  simp [targetFaults]

/-- An instruction is no fault behind instructions that do not end their block. -/
@[simp]
theorem endFaults_eq_nil_iff {earlier : List (Spanned LabelInst)} {inst : Spanned LabelInst} :
    endFaults earlier inst = [] ↔ ∀ inst ∈ earlier, inst.val.isTerminator = false := by
  simp [endFaults]

/-- A row of instructions is without faults if its targets are labels and only its last instruction
ends the block. -/
theorem instFaults_eq_nil_iff {labels : List String} {insts : List (Spanned LabelInst)} :
    instFaults labels insts = [] ↔
      (∀ inst ∈ insts, ∀ target ∈ inst.val.targets, target.val ∈ labels) ∧
        ∀ before inst after, insts = before ++ inst :: after → inst.val.isTerminator = true →
          after = [] := by
  simp only [instFaults, inTurn_eq_nil_iff, List.append_eq_nil_iff, List.flatMap_eq_nil_iff,
    endFaults_eq_nil_iff, targetFaults_eq_nil_iff]
  constructor
  · intro h
    refine ⟨fun inst hinst => ?_, fun before inst after heq hend => ?_⟩
    · obtain ⟨earlier, later, heq⟩ := List.append_of_mem hinst
      exact (h earlier inst later heq).2
    · cases after with
      | nil => rfl
      | cons next after =>
        have hnext := (h (before ++ [inst]) next after (by simpa using heq)).1 inst (by simp)
        rw [hend] at hnext
        cases hnext
  · rintro ⟨htargets, hends⟩ earlier inst later rfl
    -- an end among the earlier ones would be followed by this one
    refine ⟨fun other hother => ?_, htargets inst (by simp)⟩
    obtain ⟨before, between, rfl⟩ := List.append_of_mem hother
    by_contra hend
    have hnil := hends before other (between ++ inst :: later) (by simp) (by simpa using hend)
    simp at hnil

/-- A function is without faults if its labels differ and its blocks are without faults. -/
theorem FuncDef.faults_eq_nil_iff {func : FuncDef} :
    func.faults = [] ↔ func.labels.Nodup ∧
      ∀ block ∈ func.blocks, instFaults func.labels block.insts = [] := by
  simp only [FuncDef.faults, List.append_eq_nil_iff, inTurn_eq_nil_iff, repeatFaults_eq_nil_iff,
    List.flatMap_eq_nil_iff]
  rw [FuncDef.labels, nodup_map_iff]

/-- A listing without faults describes a program. -/
theorem Tree.faults_eq_nil_iff {listing : Tree} : listing.faults = [] ↔ listing.Lowerable := by
  simp only [Tree.faults, inTurn_eq_nil_iff, List.append_eq_nil_iff, repeatFaults_eq_nil_iff,
    FuncDef.faults_eq_nil_iff, instFaults_eq_nil_iff]
  constructor
  · intro h
    have hfunc : ∀ func ∈ listing.functions, _ := fun func hfunc =>
      have ⟨before, after, heq⟩ := List.append_of_mem hfunc
      (h before func after heq).2
    exact ⟨(nodup_map_iff _ _).mpr fun before func after heq => (h before func after heq).1,
      fun func hmem => (hfunc func hmem).1,
      fun func hmem block hblock => ((hfunc func hmem).2 block hblock).1,
      fun func hmem block hblock => ((hfunc func hmem).2 block hblock).2⟩
  · rintro ⟨hnames, hlabels, htargets, hends⟩ before func after heq
    have hmem : func ∈ listing.functions := by simp [heq]
    exact ⟨(nodup_map_iff _ _).mp hnames before func after heq, hlabels func hmem,
      fun block hblock => ⟨htargets func hmem block hblock, hends func hmem block hblock⟩⟩

/-! ## Lowering stops at the first fault -/

/-- Looking up a target fails with the fault of the target. -/
theorem failsFirst_resolve (labels : List String) (label : Spanned String) :
    FailsFirst (resolve labels label) (targetFaults labels label) := by
  rw [resolve, targetFaults]
  cases hfind : labels.idxOf? label.val with
  | none =>
    rw [if_neg (List.idxOf?_eq_none_iff.mp hfind)]
    exact .error
  | some b =>
    rw [if_pos (List.isSome_idxOf?.mp (by rw [hfind, Option.isSome_some]))]
    exact .ok

/-- An instruction fails with the first of its targets that is a fault. -/
theorem failsFirst_buildM (labels : List String) (inst : LabelInst) :
    FailsFirst (inst.buildM (resolve labels))
      (inst.targets.flatMap (targetFaults labels)) := by
  have hresolve := failsFirst_resolve labels
  cases inst with
  | op | ret => exact .ok
  | branch cond onTrue onFalse =>
    rw [InstDef.targets, List.flatMap_cons, List.flatMap_singleton]
    exact (hresolve onTrue).bind fun t _ => (hresolve onFalse).bind_pure _
  | jump target =>
    rw [InstDef.targets, List.flatMap_singleton]
    exact (hresolve target).bind_pure _

/-- A resolved label is the place of that label. -/
theorem getElem?_of_resolve {labels : List String} {label : Spanned String} {b : BlockId}
    (h : resolve labels label = .ok b) : labels[b]? = some label.val := by
  rw [resolve] at h
  split at h
  next place hplace =>
    obtain rfl := Except.ok.inj h
    obtain ⟨hlt, heq, -⟩ := List.idxOf?_eq_some_iff.mp hplace
    rw [List.getElem?_eq_getElem hlt, heq]
  next => cases h

/-- An instruction that is built is the one described, with each target at the place of its
label. -/
theorem relates_of_buildM {labels : List String} {inst : LabelInst} {lowered : Inst BlockId}
    (h : inst.buildM (resolve labels) = .ok lowered) :
    inst.Relates (fun label b => labels[b]? = some label.val) lowered := by
  cases inst with
  | op opcode operands result =>
    obtain rfl := Except.ok.inj h
    exact .op opcode operands result
  | branch cond onTrue onFalse =>
    obtain ⟨t, ht, h⟩ := bind_eq_ok_iff.mp h
    obtain ⟨e, he, h⟩ := bind_eq_ok_iff.mp h
    obtain rfl := Except.ok.inj h
    exact .branch cond (getElem?_of_resolve ht) (getElem?_of_resolve he)
  | jump target =>
    obtain ⟨t, ht, h⟩ := bind_eq_ok_iff.mp h
    obtain rfl := Except.ok.inj h
    exact .jump (getElem?_of_resolve ht)
  | ret value =>
    obtain rfl := Except.ok.inj h
    exact .ret value

/-- Behind an instruction that ends the block everything is a fault, and behind any other one the
faults are those of the rest. -/
theorem instFaults_cons (labels : List String) (inst : Spanned LabelInst)
    (rest : List (Spanned LabelInst)) :
    instFaults labels (inst :: rest) = inst.val.targets.flatMap (targetFaults labels) ++
      if inst.val.isTerminator then
        rest.flatMap fun next =>
          .afterTerminator next.span :: next.val.targets.flatMap (targetFaults labels)
      else instFaults labels rest := by
  rw [instFaults, inTurn_cons]
  cases hend : inst.val.isTerminator <;> simp [endFaults, hend, inTurn_const]

/-- A row of instructions fails with its first fault. -/
theorem failsFirst_lowerInsts (labels : List String) (insts : List (Spanned LabelInst)) :
    FailsFirst (lowerInsts labels insts) (instFaults labels insts) := by
  induction insts with
  | nil => exact .ok
  | cons inst rest ih =>
    rw [lowerInsts, instFaults_cons]
    refine (failsFirst_buildM labels inst.val).bind fun lowered hlowered => ?_
    rw [(relates_of_buildM hlowered).isTerminator]
    cases hend : inst.val.isTerminator with
    | false => exact ih.bind_pure _
    | true =>
      cases rest with
      | nil => exact ih.bind_pure _
      | cons next rest => exact .error

theorem failsFirst_lowerBlocks (labels : List String) (blocks : List BlockDef) :
    FailsFirst (lowerBlocks labels blocks)
      (blocks.flatMap fun block => instFaults labels block.insts) := by
  induction blocks with
  | nil => exact .ok
  | cons block rest ih =>
    rw [lowerBlocks, List.flatMap_cons]
    exact (failsFirst_lowerInsts labels block.insts).bind fun insts _ => ih.bind_pure _

/-- Only which names are earlier counts, not their order. -/
theorem repeatFaults_append_cons (fault : Spanned String → LowerError) (seen earlier : List String)
    (first : String) (name : Spanned String) :
    repeatFaults fault (seen ++ first :: earlier) name =
      repeatFaults fault (first :: seen ++ earlier) name := by
  simp [repeatFaults, or_left_comm]

/-- The first label that was there before is the first fault of the labels. -/
theorem head?_labelFaults (seen : List String) (blocks : List BlockDef) :
    (inTurn (fun earlier block => repeatFaults .duplicateLabel
        (seen ++ earlier.map fun block => block.label.val) block.label) blocks).head? =
      (firstRepeat? seen (blocks.map BlockDef.label)).map .duplicateLabel := by
  induction blocks generalizing seen with
  | nil => rfl
  | cons block rest ih =>
    rw [inTurn_cons, List.map_cons, firstRepeat?, List.map_nil, List.append_nil]
    simp only [List.map_cons, repeatFaults_append_cons]
    by_cases hseen : block.label.val ∈ seen
    · simp [repeatFaults, hseen]
    · rw [if_neg hseen, ← ih, repeatFaults_eq_nil_iff.mpr hseen, List.nil_append]

/-- A function fails with its first fault: labels come before instructions. -/
theorem failsFirst_lower (func : FuncDef) : FailsFirst func.lower func.faults := by
  have hhead := head?_labelFaults [] func.blocks
  simp only [List.nil_append] at hhead
  rw [FuncDef.lower, FuncDef.faults]
  cases hrepeat : firstRepeat? [] (func.blocks.map BlockDef.label) with
  | some label =>
    rw [hrepeat, Option.map_some] at hhead
    obtain ⟨others, heq⟩ := List.head?_eq_some_iff.mp hhead
    rw [heq]
    exact .error
  | none =>
    rw [hrepeat, Option.map_none] at hhead
    -- without a repeated label the faults are those of the instructions
    rw [List.head?_eq_none_iff.mp hhead]
    exact (failsFirst_lowerBlocks func.labels func.blocks).bind_pure _

/-- A listing fails with its first fault. The names of the functions before are carried along. -/
theorem failsFirst_lowerFunctions (seen : List String) (funcs : List (Spanned FuncDef)) :
    FailsFirst (lowerFunctions seen funcs) (inTurn (fun earlier func =>
      repeatFaults .duplicateFunction (seen ++ earlier.map fun func => func.val.name.val)
          func.val.name ++ func.val.faults) funcs) := by
  -- the names of the functions before are kept in the order of the listing
  induction funcs generalizing seen with
  | nil => exact .ok
  | cons func rest ih =>
    rw [lowerFunctions, inTurn_cons, List.map_nil, List.append_nil]
    simp only [List.map_cons, repeatFaults_append_cons]
    split
    next hseen =>
      rw [repeatFaults, if_pos hseen]
      exact .error
    next hseen =>
      rw [repeatFaults_eq_nil_iff.mpr hseen]
      exact (failsFirst_lower func.val).bind fun f _ => (ih _).bind_pure _

/-! ## The program of a listing -/

/-- A block of a listing and a block of a function have the same label and the same instructions in
the same order, with related targets. -/
def BlockDef.Describes (R : Spanned String → BlockId → Prop) (written : BlockDef) (block : Block) :
    Prop :=
  block.label = written.label.val ∧
    List.Forall₂ (fun inst entry => inst.val.Relates R entry.2) written.insts block.insts

/-- A function of a listing describes a machine function. -/
structure FuncDef.Describes (func : FuncDef) (f : Func) : Prop where
  /-- They have the same name. -/
  name : f.name = func.name.val
  /-- They have the same blocks in the same order, and a target is the block with that label. -/
  blocks : List.Forall₂ (BlockDef.Describes fun label b =>
    ∃ target, f.block? b = some target ∧ target.label = label.val) func.blocks f.blocks
  /-- Blocks are numbered from zero in order. -/
  blockIds : f.layout.map Prod.fst = List.range func.blocks.length
  /-- Instructions are numbered from zero in layout order. -/
  instIds : f.insts.map Prod.fst = List.range f.insts.length

/-- The instructions of a block and of its lowered form correspond in order. -/
theorem relates_of_lowerInsts {labels : List String} {insts : List (Spanned LabelInst)}
    {lowered : List (Inst BlockId)} (h : lowerInsts labels insts = .ok lowered) :
    List.Forall₂ (fun inst lowered =>
      inst.val.Relates (fun label b => labels[b]? = some label.val) lowered) insts lowered := by
  induction insts generalizing lowered with
  | nil =>
    obtain rfl := Except.ok.inj h
    exact .nil
  | cons inst rest ih =>
    obtain ⟨first, others, hfirst, -, hothers, rfl⟩ := lowerInsts_cons_eq_ok_iff.mp h
    exact .cons (relates_of_buildM hfirst) (ih hothers)

/-- Lowered blocks that are laid out, from any number on, are described by the listing. -/
theorem describes_layFrom_of_lowerBlocks {labels : List String} {blocks : List BlockDef}
    {rows : List (String × List (Inst BlockId))} (n : InstId)
    (h : lowerBlocks labels blocks = .ok rows) :
    List.Forall₂ (BlockDef.Describes fun label b => labels[b]? = some label.val) blocks
      (Func.layFrom n rows) := by
  -- the number of the first instruction of each block is carried along
  induction blocks generalizing rows n with
  | nil =>
    obtain rfl := Except.ok.inj h
    exact .nil
  | cons block rest ih =>
    obtain ⟨insts, others, hinsts, hothers, rfl⟩ := lowerBlocks_cons_eq_ok_iff.mp h
    refine .cons ⟨rfl, ?_⟩ (ih _ hothers)
    rw [← List.forall₂_map_right_iff (f := Prod.snd), map_snd_numberFrom]
    exact relates_of_lowerInsts hinsts

/-- What a function is lowered to is described by it. -/
theorem FuncDef.describes_of_lower {func : FuncDef} {f : Func} (h : func.lower = .ok f) :
    func.Describes f := by
  obtain ⟨-, rows, hrows, rfl⟩ := FuncDef.lower_eq_ok_iff.mp h
  have hblocks := describes_layFrom_of_lowerBlocks 0 hrows
  rw [← Func.blocks_ofBlocks func.name.val rows] at hblocks
  have hlabels : (Func.ofBlocks func.name.val rows).blocks.map Block.label = func.labels := by
    rw [FuncDef.labels, ← List.forall₂_eq_eq_eq, List.forall₂_map_left_iff,
      List.forall₂_map_right_iff]
    exact hblocks.flip.imp fun _ _ hblock => hblock.1
  refine ⟨Func.name_ofBlocks _ rows, hblocks.imp fun written block hblock => ?_, ?_, ?_⟩
  · -- the place of a label is the number of the block that carries it
    refine ⟨hblock.1, hblock.2.imp fun inst entry hinst => hinst.imp fun label b hb => ?_⟩
    change func.labels[b]? = some label.val at hb
    rw [(Func.built_ofBlocks _ rows).consistent.block?_eq_getElem?]
    rwa [← hlabels, List.getElem?_map, Option.map_eq_some_iff] at hb
  · rw [(Func.built_ofBlocks _ rows).consistent.map_fst_layout, hblocks.length_eq]
  · rw [Func.insts_ofBlocks, map_fst_numberFrom, length_numberFrom, List.range_eq_range']

/-- **Lowering accepts exactly the listings that describe a program.** It gives the program that is
described, and otherwise fails with the first fault of the listing. -/
theorem Tree.lower_exact (listing : Tree) :
    ((∃ program, listing.lower = .ok program) ↔ listing.Lowerable) ∧
      (∀ program, listing.lower = .ok program →
        List.Forall₂ (fun func f => func.val.Describes f) listing.functions program.functions) ∧
      ∀ e, listing.lower = .error e ↔ listing.faults.head? = some e := by
  have hfails : FailsFirst listing.lower listing.faults := by
    have h := (failsFirst_lowerFunctions [] listing.functions).bind_pure Program.mk
    simp only [List.nil_append] at h
    exact h
  refine ⟨hfails.exists_ok_iff.trans Tree.faults_eq_nil_iff, fun program h => ?_, hfails⟩
  obtain ⟨hlower, -⟩ := lowerFunctions_eq_ok_iff.mp (Tree.lower_eq_ok_iff.mp h)
  exact hlower.imp fun func f hf => FuncDef.describes_of_lower hf

/-- A repeated label comes before a jump to nowhere in an earlier block, and this jump before what
follows it. -/
example :
    let inst (val : LabelInst) (start : Nat) : Spanned LabelInst := ⟨val, ⟨start, start + 1⟩⟩
    let away : Spanned String := ⟨"away", ⟨4, 5⟩⟩
    let again : Spanned String := ⟨"a", ⟨8, 9⟩⟩
    let blocks : List BlockDef := [⟨⟨"a", ⟨2, 3⟩⟩, [inst (.jump away) 3, inst (.ret none) 6]⟩,
      ⟨again, []⟩]
    (⟨[⟨⟨⟨"@f", ⟨0, 1⟩⟩, blocks⟩, ⟨0, 9⟩⟩]⟩ : Tree).faults =
      [.duplicateLabel again, .unknownLabel away, .afterTerminator ⟨6, 7⟩] := by
  decide +kernel

end Listing

end Rejoin
