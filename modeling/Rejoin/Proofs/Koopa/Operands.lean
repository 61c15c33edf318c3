import Rejoin.Koopa.Lowering
import Rejoin.Proofs.Koopa.Check

/-!
# What checked instructions read

While a function is checked, what names stand for and the number of instructions so far have to fit
the instructions that have come out. A statement with a fault leaves both as they were, and a
definition is recorded together with the instruction that gives its value. So in a checked program
an instruction that reads a result reads that of an instruction which gives a value.

* `Triple` says what a check makes of a state, also where it ends at a fault; there is one rule for
  each way to build a check.
* `Progress.Fits` is the invariant between the instructions so far and the state of a check.
* `triple_stmt`, `triple_ending` — an instruction that comes out extends what fits the state.
* `operandsGiven_of_checkProgram` — results that are read are given by instructions.
-/

namespace Rejoin.Koopa

/-- The values that an operation has as operands. What it passes on to blocks is not among them. -/
def Operation.operands : Operation → List Value
  | .binary _ lhs rhs => [lhs, rhs]
  | .alloc => []
  | .load src => [src]
  | .store value dest => [value, dest]
  | .getPtr src index | .getElemPtr src index => [src, index]
  | .call _ args => args
  | .branch cond .. => [cond]
  | .jump .. => []
  | .ret value => value.toList

/-- The instruction gives a value: it has a result, and does not end its block. -/
def Inst.GivesValue (inst : Inst) : Prop :=
  inst.result ≠ .unit ∧ inst.operation.isEnd = false

/-- If the value is a result, it is that of an instruction which gives a value. -/
def Value.IsGiven (insts : List Inst) (value : Value) : Prop :=
  ∀ place, value = .inst place → ∃ inst, insts[place]? = some inst ∧ inst.GivesValue

/-- The results that the operation reads are given. -/
def Operation.IsGiven (insts : List Inst) (operation : Operation) : Prop :=
  ∀ value ∈ operation.operands, value.IsGiven insts

section IsGiven

variable {insts more : List Inst}

/-- A value stays given when instructions are added. -/
theorem Value.IsGiven.append {value : Value} (h : value.IsGiven insts) :
    value.IsGiven (insts ++ more) := by
  intro place hplace
  obtain ⟨inst, hinst, hgives⟩ := h place hplace
  obtain ⟨hlt, -⟩ := List.getElem?_eq_some_iff.mp hinst
  exact ⟨inst, by rwa [List.getElem?_append_left hlt], hgives⟩

theorem Operation.IsGiven.append {operation : Operation} (h : operation.IsGiven insts) :
    operation.IsGiven (insts ++ more) :=
  fun value hvalue => (h value hvalue).append

end IsGiven

/-! ## Rules for checks -/

/-- From a state with `P`, the check gives a result in a state with `Q`, or ends at a fault in a
state with `F`, or gives the text up. -/
def Triple {α : Type} (P : Progress → Prop) (check : Check α) (Q : α → Progress → Prop)
    (F : Progress → Prop) : Prop :=
  ∀ progress, P progress →
    match check.run.run progress with
    | (.ok result, after) => Q result after
    | (.error .rejected, after) => F after
    | (.error .aborted, _) => True

/-- The check keeps a condition on the state, and what comes out of it has a property. -/
def Keeps {α : Type} (I : Progress → Prop) (check : Check α) (R : α → Prop) : Prop :=
  Triple I check (fun result progress => R result ∧ I progress) I

namespace Triple

variable {α β : Type} {P F G : Progress → Prop} {Q : α → Progress → Prop}

theorem pure {a : α} (h : ∀ progress, P progress → Q a progress) :
    Triple P (Pure.pure a) Q F :=
  h

theorem fault (h : ∀ progress, P progress → F progress) : Triple P (Koopa.fault : Check α) Q F :=
  h

theorem abort : Triple P (throw .aborted : Check α) Q F :=
  fun _ _ => trivial

/-- The rule for a check that goes on with the result of another: a fault of the first is a fault of
both. -/
theorem bind {R : β → Progress → Prop} {check : Check β} {next : β → Check α}
    (hcheck : Triple P check R F) (hnext : ∀ b, Triple (R b) (next b) Q F) :
    Triple P (check >>= next) Q F := by
  intro progress hprogress
  have hfirst := hcheck progress hprogress
  rw [run_bind]
  cases houtcome : check.run.run progress with
  | mk outcome after =>
    rw [houtcome] at hfirst
    cases outcome with
    | ok b => exact hnext b after hfirst
    | error error => cases error <;> exact hfirst

/-- What is known after a check may be weakened. -/
theorem imp {S : α → Progress → Prop} {check : Check α} (h : Triple P check Q F)
    (hresult : ∀ a progress, Q a progress → S a progress)
    (hfault : ∀ progress, F progress → G progress) : Triple P check S G := by
  intro progress hprogress
  have hrun := h progress hprogress
  split at hrun
  · exact hresult _ _ hrun
  · exact hfault _ hrun
  · trivial

/-- A check that is carried out whether or not it ends at a fault does not end at one. -/
theorem attempt {check : Check α} (h : Triple P check Q F)
    (hF : ∀ progress faults, F progress → F { progress with faults }) :
    Triple P (Koopa.attempt check)
      (fun result progress => result.elim (F progress) fun a => Q a progress) G := by
  intro progress hprogress
  have hrun := h progress hprogress
  rw [run_attempt]
  cases houtcome : check.run.run progress with
  | mk outcome after =>
    rw [houtcome] at hrun
    cases outcome with
    | ok a => exact hrun
    | error error =>
      cases error with
      | rejected => exact hF after _ hrun
      | aborted => trivial

/-- After a check that keeps a condition, with the property of its result. -/
theorem after {I : Progress → Prop} {R : β → Prop} {check : Check β} {next : β → Check α}
    (hcheck : Keeps I check R) (hnext : ∀ b, R b → Triple I (next b) Q I) :
    Triple I (check >>= next) Q I :=
  bind hcheck fun b progress hprogress => hnext b hprogress.1 progress hprogress.2

end Triple

namespace Keeps

variable {α β : Type} {I : Progress → Prop} {R : α → Prop} {S : β → Prop}

theorem pure {a : α} (h : R a) : Keeps I (Pure.pure a) R :=
  Triple.pure fun _ hprogress => ⟨h, hprogress⟩

theorem fault : Keeps I Koopa.fault R :=
  Triple.fault fun _ => id

theorem abort : Keeps I (throw .aborted) R :=
  Triple.abort

/-- Checks in a row keep what each of them keeps. -/
theorem bind {check : Check α} {next : α → Check β} (hcheck : Keeps I check R)
    (hnext : ∀ a, R a → Keeps I (next a) S) : Keeps I (check >>= next) S :=
  Triple.after hcheck hnext

/-- What is always true of a result may be added to its property. -/
theorem and_ensures {check : Check α} {T : α → Prop} (h : Keeps I check R)
    (hensures : Ensures check T) : Keeps I check fun a => R a ∧ T a := by
  intro progress hprogress
  have hrun := h progress hprogress
  have hresult := hensures progress
  split at hrun
  next heq => exact ⟨⟨hrun.1, hresult _ (by rw [heq])⟩, hrun.2⟩
  · exact hrun
  · trivial

/-- A condition kept by each check is kept by the row of checks, and the results all have the
property. -/
theorem mapM {check : β → Check α} {xs : List β} (h : ∀ x ∈ xs, Keeps I (check x) R) :
    Keeps I (xs.mapM check) fun ys => ∀ y ∈ ys, R y := by
  induction xs with
  | nil => exact pure (by simp)
  | cons x xs ih =>
    rw [List.mapM_cons]
    rw [List.forall_mem_cons] at h
    exact bind h.1 fun y hy => bind (ih h.2) fun ys hys =>
      pure (List.forall_mem_cons.mpr ⟨hy, hys⟩)

theorem forM {check : β → Check PUnit} {xs : List β}
    (h : ∀ x ∈ xs, Keeps I (check x) fun _ => True) : Keeps I (xs.forM check) fun _ => True := by
  induction xs with
  | nil => exact pure trivial
  | cons x xs ih =>
    rw [List.forall_mem_cons] at h
    exact bind h.1 fun _ _ => ih h.2

end Keeps

/-! ## Instructions -/

/-- The state fits the instructions that have come out so far. -/
structure Progress.Fits (insts : List Inst) (progress : Progress) : Prop where
  /-- The instructions have been counted. -/
  count : progress.count = insts.length
  /-- Names that stand for results stand for those of instructions that give a value. -/
  definitions : ∀ d ∈ progress.definitions, d.value.IsGiven insts
  /-- Results that are read are given. -/
  operands : ∀ inst ∈ insts, inst.operation.IsGiven insts

/-- The invariant speaks of the definitions and of the count only. -/
theorem Progress.Fits.congr {insts : List Inst} {progress after : Progress}
    (h : progress.Fits insts) (hdefinitions : after.definitions = progress.definitions)
    (hcount : after.count = progress.count) : after.Fits insts :=
  ⟨hcount.trans h.count, by rw [hdefinitions]; exact h.definitions, h.operands⟩

section Keeps

variable {insts : List Inst}

/-- Faults and taken names are free to change. -/
theorem keeps_modify {change : Progress → Progress}
    (hdefinitions : ∀ progress, (change progress).definitions = progress.definitions)
    (hcount : ∀ progress, (change progress).count = progress.count) :
    Keeps (Progress.Fits insts) (modify change) fun _ => True :=
  fun progress hprogress =>
    ⟨trivial, hprogress.congr (hdefinitions progress) (hcount progress)⟩

theorem keeps_noteUnless (condition : Bool) :
    Keeps (Progress.Fits insts) (noteUnless condition) fun _ => True := by
  rw [noteUnless]
  split
  · exact .pure trivial
  · exact keeps_modify (fun _ => rfl) fun _ => rfl

theorem keeps_require (condition : Bool) :
    Keeps (Progress.Fits insts) (require condition) fun _ => True := by
  rw [require]
  split
  · exact .pure trivial
  · exact .fault

theorem keeps_insist (condition : Bool) :
    Keeps (Progress.Fits insts) (insist condition) fun _ => True := by
  rw [insist]
  split
  · exact .pure trivial
  · exact .abort

/-- Taking a name changes the faults and the taken names only. -/
theorem keeps_takeName (globals : Globals) (name : String) :
    Keeps (Progress.Fits insts) (takeName globals name) fun _ => True := by
  refine .bind (R := fun _ => True) (fun progress hprogress => ⟨trivial, hprogress⟩) fun _ _ => ?_
  exact .bind (keeps_noteUnless _) fun _ _ => keeps_modify (fun _ => rfl) fun _ => rfl

theorem keeps_elementType (count : Nat) (ty : Ty) :
    Keeps (Progress.Fits insts) (elementType count ty) fun _ => True := by
  cases ty with
  | array => exact .bind (keeps_noteUnless _) fun _ _ => .pure trivial
  | pointer => exact .pure trivial
  | _ => exact .fault

theorem keeps_arrayOf (types : List Ty) :
    Keeps (Progress.Fits insts) (arrayOf types) fun _ => True := by
  cases types with
  | nil => exact .fault
  | cons => exact .bind (keeps_insist _) fun _ _ => .pure trivial

mutual

/-- Typing an initializer defines nothing. -/
theorem keeps_typeAs (ty : Ty) (init : Init) :
    Keeps (Progress.Fits insts) (init.typeAs ty) fun _ => True := by
  cases init with
  | int =>
    rw [Init.typeAs]
    exact .bind (keeps_require _) fun _ _ => .pure trivial
  | undef | zeroinit =>
    rw [Init.typeAs]
    exact .pure trivial
  | aggregate elements =>
    rw [Init.typeAs]
    refine .bind (keeps_elementType _ _) fun element _ => ?_
    exact .bind (keeps_typesAs element elements) fun types _ => keeps_arrayOf types

/-- Neither does typing the elements of an aggregate, by the same recursion. -/
theorem keeps_typesAs (ty : Ty) (inits : List Init) :
    Keeps (Progress.Fits insts) (Init.typesAs ty inits) fun _ => True := by
  cases inits with
  | nil =>
    rw [Init.typesAs]
    exact .pure trivial
  | cons init rest =>
    rw [Init.typesAs]
    refine .bind (keeps_typeAs ty init) fun _ _ => ?_
    exact .bind (keeps_typesAs ty rest) fun _ _ => .pure trivial

end

end Keeps

/-- What a backward search finds, it has looked up in some block. -/
theorem findBackwardFrom_eq_some {α : Type} {before : Nat → List Nat} {look : Nat → Option α}
    {fuel : Nat} {visited pending : List Nat} {found : α}
    (h : findBackwardFrom before look fuel visited pending = some found) :
    ∃ b, look b = some found := by
  -- on the fuel: every step looks at one block and puts its predecessors on the list
  induction fuel generalizing visited pending with
  | zero => cases h
  | succ fuel ih =>
    rw [findBackwardFrom] at h
    split at h
    · cases h
    next b _ _ =>
      split at h
      next hlook => exact ⟨b, hlook.trans h⟩
      next => exact ih h

namespace Context

variable {ctx : Context} {block : Nat} {insts : List Inst}

/-- A name that is looked up stands for a given value. -/
theorem keeps_lookup (name : String) :
    Keeps (Progress.Fits insts) (ctx.lookup block name) fun found => found.1.IsGiven insts := by
  rw [lookup]
  split
  · exact .pure nofun
  · -- what is found is one of the definitions seen so far
    refine .bind (R := fun seen => ∀ d ∈ seen.definitions, d.value.IsGiven insts)
      (fun progress hprogress => ⟨hprogress.definitions, hprogress⟩) fun seen hseen => ?_
    dsimp only
    split
    next d hd =>
      obtain ⟨b, hb⟩ := findBackwardFrom_eq_some hd
      exact .pure (hseen d (List.mem_of_find?_eq_some hb))
    next => exact .fault

/-- What is read from an atom is a given value. -/
theorem keeps_readAs (ty : Ty) (atom : Atom) :
    Keeps (Progress.Fits insts) (ctx.readAs block ty atom) (Value.IsGiven insts) := by
  cases atom with
  | symbol name =>
    exact .bind (keeps_lookup name) fun _ hfound =>
      .bind (keeps_require _) fun _ _ => .pure hfound
  | int => exact .bind (keeps_require _) fun _ _ => .pure nofun
  | undef => exact .pure nofun

theorem keeps_readArgs (args : List Atom) (types : List Ty) :
    Keeps (Progress.Fits insts) (ctx.readArgs block args types) fun values =>
      ∀ value ∈ values, value.IsGiven insts :=
  .mapM fun _ _ => keeps_readAs _ _

/-- A pointer that is read is a given value. -/
theorem keeps_readPointer (name : String) :
    Keeps (Progress.Fits insts) (ctx.readPointer block name) fun found =>
      found.1.IsGiven insts := by
  refine .bind (keeps_lookup name) fun found hfound => ?_
  split
  · exact .pure hfound
  · exact .fault

/-- A call reads given values. -/
theorem keeps_call (callee : String) (args : List Atom) :
    Keeps (Progress.Fits insts) (ctx.call block callee args) fun called =>
      called.1.IsGiven insts := by
  rw [call]
  split
  · exact .fault
  · exact .bind (keeps_readArgs _ _) fun _ hvalues => .pure hvalues

theorem isGiven_pair {a b : Value} (ha : a.IsGiven insts) (hb : b.IsGiven insts) :
    ∀ value ∈ [a, b], value.IsGiven insts := by
  simpa using ⟨ha, hb⟩

/-- Whatever an expression reads is given, one case for each form of it. -/
theorem keeps_expr (value : Expr) :
    Keeps (Progress.Fits insts) (ctx.expr block value) fun defined =>
      defined.1.IsGiven insts := by
  cases value with
  | alloc => exact .bind (keeps_insist _) fun _ _ => .pure nofun
  | load =>
    exact .bind (keeps_readPointer _) fun _ hsrc => .pure (List.forall_mem_singleton.mpr hsrc)
  | getPtr =>
    exact .bind (keeps_readPointer _) fun _ hsrc => .bind (keeps_readAs _ _) fun _ hindex =>
      .pure (isGiven_pair hsrc hindex)
  | getElemPtr =>
    refine .bind (keeps_readPointer _) fun _ hsrc => ?_
    split
    · exact .bind (keeps_readAs _ _) fun _ hindex => .pure (isGiven_pair hsrc hindex)
    · exact .fault
  | binary =>
    exact .bind (keeps_readAs _ _) fun _ hlhs => .bind (keeps_readAs _ _) fun _ hrhs =>
      .pure (isGiven_pair hlhs hrhs)
  | call => exact keeps_call _ _

/-- A stored value is given; an initializer is no result at all. -/
theorem keeps_stored (target : Ty) (value : Stored) :
    Keeps (Progress.Fits insts) (ctx.stored block target value) (Value.IsGiven insts) := by
  cases value with
  | symbol name => exact keeps_readAs target (.symbol name)
  | init init =>
    refine .bind (keeps_typeAs target init) fun _ _ => .bind (keeps_insist _) fun _ _ => .pure ?_
    -- a constant stands for no instruction
    cases init <;> exact nofun

/-- The arguments passed on to a block are checked, but they are no operands. -/
theorem keeps_goto (goto : Goto) :
    Keeps (Progress.Fits insts) (ctx.goto block goto) fun _ => True := by
  rw [Context.goto]
  split
  · exact .abort
  · exact .bind (keeps_readArgs _ _) fun _ _ => .pure trivial

/-- An instruction whose operands are given extends what fits the state. -/
theorem fits_concat {progress : Progress} {inst : Inst} (h : progress.Fits insts)
    (hgiven : inst.operation.IsGiven insts) :
    { progress with count := progress.count + 1 }.Fits (insts ++ [inst]) where
  count := by simp [h.count]
  definitions d hd := (h.definitions d hd).append
  operands other hother := by
    rcases List.mem_append.mp hother with hother | hother
    · exact (h.operands other hother).append
    · obtain rfl := List.mem_singleton.mp hother
      exact hgiven.append

/-- An instruction that reads given values is added to those so far. -/
theorem triple_add {result : Result} {operation : Operation} (h : operation.IsGiven insts) :
    Triple (Progress.Fits insts) (add result operation)
      (fun inst => Progress.Fits (insts ++ [inst])) (Progress.Fits insts) :=
  fun _ hprogress => fits_concat hprogress h

/-- A definition has a result. -/
theorem resultOf_ne_unit (name : String) : resultOf name ≠ .unit := by
  rw [resultOf]
  split <;> exact nofun

/-- **A statement adds one instruction, or leaves all as it was.** -/
theorem triple_stmt (stmt : Stmt) :
    Triple (Progress.Fits insts) (ctx.stmt block stmt)
      (fun inst => Progress.Fits (insts ++ [inst])) (Progress.Fits insts) := by
  cases stmt with
  | define name value =>
    refine .after (keeps_takeName _ _) fun _ _ =>
      .after ((keeps_expr value).and_ensures ensures_expr) fun defined hdefined =>
      .after (keeps_require _) fun _ _ => ?_
    -- the name stands for the instruction that comes next
    intro progress hprogress
    let inst : Inst := { result := resultOf name, operation := defined.1 }
    have hfits := @fits_concat insts progress inst hprogress hdefined.1
    refine ⟨hfits.count, List.forall_mem_cons.mpr ⟨?_, hfits.definitions⟩, hfits.operands⟩
    -- its place is the number of instructions before it
    rintro place ⟨⟩
    refine ⟨inst, ?_, resultOf_ne_unit name, hdefined.2⟩
    rw [hprogress.count, List.getElem?_concat_length]
  | store value dest =>
    refine .after (keeps_readPointer dest) fun found hdest => ?_
    exact .after (keeps_stored found.2 value) fun v hvalue => triple_add (isGiven_pair hvalue hdest)
  | call callee args => exact .after (keeps_call callee args) fun _ hcalled => triple_add hcalled

/-- So does the end of a block. -/
theorem triple_ending (last : End) :
    Triple (Progress.Fits insts) (ctx.ending block last)
      (fun inst => Progress.Fits (insts ++ [inst])) (Progress.Fits insts) := by
  cases last with
  | br cond onTrue onFalse =>
    refine .after (keeps_readAs _ cond) fun c hcond => ?_
    refine .after (keeps_goto onTrue) fun _ _ => .after (keeps_goto onFalse) fun _ _ => ?_
    exact .after (keeps_insist _) fun _ _ => triple_add (List.forall_mem_singleton.mpr hcond)
  | jump target =>
    refine .after (keeps_goto target) fun _ _ => ?_
    exact .after (keeps_insist _) fun _ _ => triple_add nofun
  | ret value =>
    cases value with
    | none => exact .after (keeps_require _) fun _ _ => triple_add nofun
    | some value =>
      refine .after (keeps_require _) fun _ _ => .after (keeps_readAs _ value) fun v hvalue => ?_
      exact triple_add (List.forall_mem_singleton.mpr hvalue)

/-- What comes out of checks in a row extends what fits the state, one result after the other. -/
theorem triple_mapM {α β : Type} {check : β → Check α} {out : α → List Inst} {F : Progress → Prop}
    (h : ∀ x insts, Triple (Progress.Fits insts) (check x)
      (fun y => Progress.Fits (insts ++ out y)) F) (xs : List β) :
    Triple (Progress.Fits insts) (xs.mapM check)
      (fun ys => Progress.Fits (insts ++ ys.flatMap out)) F := by
  induction xs generalizing insts with
  | nil =>
    rw [List.mapM_nil]
    exact .pure fun progress hprogress => by rwa [List.flatMap_nil, List.append_nil]
  | cons x xs ih =>
    rw [List.mapM_cons]
    refine .bind (h x insts) fun y => .bind ih fun ys => .pure fun progress hprogress => ?_
    rwa [List.flatMap_cons, ← List.append_assoc]

/-- A check that has ended at a fault adds nothing. -/
theorem triple_attempt {check : Check Inst} {F : Progress → Prop}
    (h : Triple (Progress.Fits insts) check (fun inst => Progress.Fits (insts ++ [inst]))
      (Progress.Fits insts)) :
    Triple (Progress.Fits insts) (attempt check)
      (fun result => Progress.Fits (insts ++ result.toList)) F := by
  refine (h.attempt fun _ _ hfits => hfits.congr rfl rfl).imp ?_ fun _ => id
  intro result progress hprogress
  cases result with
  | none => rwa [Option.toList_none, List.append_nil]
  | some inst => exact hprogress

/-- A block adds the instructions of those of its statements that have no fault. -/
theorem triple_block {b : BlockDef} {F : Progress → Prop} :
    Triple (Progress.Fits insts) (ctx.block block b)
      (fun checked => Progress.Fits (insts ++ checked.insts)) F := by
  -- first the statements, then what ends the block; those with a fault leave nothing
  refine .bind (triple_mapM (fun stmt _ => triple_attempt (triple_stmt stmt)) _) fun stmts => ?_
  refine .bind (triple_mapM (fun last _ => triple_attempt (triple_ending last)) _) fun last => ?_
  refine .pure fun progress hprogress => ?_
  show progress.Fits (insts ++ (stmts ++ last).reduceOption)
  rwa [List.reduceOption, List.filterMap_eq_flatMap_toList, List.flatMap_append,
    ← List.append_assoc]

end Context

/-! ## Functions and programs -/

/-- Results that instructions of the function read are given by instructions of the function. -/
def Function.OperandsGiven (f : Function) : Prop :=
  ∀ inst ∈ f.insts, inst.operation.IsGiven f.insts

section Params

variable {insts : List Inst} {block place : Nat}

/-- Parameters are no results. -/
theorem isGiven_param : (Value.param place).IsGiven insts := by
  intro _ h
  cases h

theorem isGiven_blockParam : (Value.blockParam block place).IsGiven insts := by
  intro _ h
  cases h

end Params

/-- Names that are defined by parameters stand for given values. -/
theorem isGiven_of_mem_paramDefinitions {insts : List Inst} {owner : Nat} {value : Nat → Value}
    {params : List (String × Ty)} (h : ∀ place, (value place).IsGiven insts) :
    ∀ d ∈ paramDefinitions owner value params, d.value.IsGiven insts := by
  intro d hd
  obtain ⟨param, -, rfl⟩ := List.mem_map.mp hd
  exact h param.2

/-- The instructions of a checked function fit the state at its end. It starts with no instructions
and with the names of its parameters. -/
theorem triple_checkFunction {globals : Globals} {name : String} {params : List (String × Ty)}
    {ret : Ty} {blocks : List BlockDef} :
    Triple (Progress.Fits []) (checkFunction globals name params ret blocks)
      (fun f => Progress.Fits f.insts) (Progress.Fits []) := by
  rw [checkFunction]
  refine .after (keeps_modify (fun _ => rfl) fun _ => rfl) fun _ _ => ?_
  refine .after (keeps_insist _) fun _ _ => .after (keeps_noteUnless _) fun _ _ => ?_
  refine .after (.forM fun _ _ => .forM fun _ _ => .bind (keeps_insist _) fun _ _ =>
    keeps_takeName _ _) fun _ _ => ?_
  -- the names that are known at first are those of parameters
  refine .after (R := fun _ => True) (fun progress hprogress => ⟨trivial, hprogress.count, ?_,
    hprogress.operands⟩) fun _ _ => ?_
  · intro d hd
    rcases List.mem_append.mp (List.mem_reverse.mp hd) with hd | hd
    · exact isGiven_of_mem_paramDefinitions (fun _ => isGiven_param) d hd
    · obtain ⟨_, -, hd⟩ := List.mem_flatMap.mp hd
      exact isGiven_of_mem_paramDefinitions (fun _ => isGiven_blockParam) d hd
  · refine .bind (Context.triple_mapM (fun entry _ => Context.triple_block) _) fun checked => ?_
    exact .pure fun _ => id

theorem keeps_checkHeader (globals : Globals) (name : String) (params : List Ty) (ret : Ty) :
    Keeps (Progress.Fits []) (checkHeader globals name params ret) fun _ => True := by
  refine .bind (keeps_noteUnless _) fun _ _ => .bind (.forM fun _ _ => keeps_insist _) fun _ _ => ?_
  exact .bind (keeps_insist _) fun _ _ => .pure trivial

/-- The results that are read in a checked item are given. -/
theorem triple_checkItem {globals : Globals} {item : Item} :
    Triple (Progress.Fits []) (checkItem globals item)
      (fun checked _ => ∀ f, checked.2 = some f → f.OperandsGiven) (Progress.Fits []) := by
  cases item with
  | global =>
    refine .after (keeps_noteUnless _) fun _ _ => .after (keeps_insist _) fun _ _ => ?_
    exact .after (keeps_typeAs _ _) fun _ _ => .pure fun _ _ => by simp
  | decl =>
    refine .after (keeps_checkHeader _ _ _ _) fun _ _ => .pure fun _ _ => ?_
    rintro f ⟨⟩
    simp [Function.OperandsGiven, Function.insts]
  | func name params ret blocks =>
    refine .after (keeps_checkHeader _ _ _ _) fun _ _ => ?_
    refine .bind triple_checkFunction fun func => .pure fun progress hprogress => ?_
    rintro f ⟨⟩
    exact hprogress.operands

/-- Results that are read in a checked program are given by instructions. -/
theorem operandsGiven_of_checkProgram {readings : List Reading} {program : Program}
    (h : checkProgram readings = .ok program) : ∀ f ∈ program.functions, f.OperandsGiven := by
  refine forall_of_checkProgram (fun globals item checked hchecked => ?_) h
  -- each item is checked from an empty state, which fits no instructions
  have hrun := @triple_checkItem globals item {} ⟨rfl, by simp, by simp⟩
  split at hrun
  next heq =>
    rw [heq] at hchecked
    obtain rfl := Except.ok.inj hchecked
    exact hrun
  all_goals next heq =>
    rw [heq] at hchecked
    cases hchecked

end Rejoin.Koopa
