import Mathlib.Data.List.ReduceOption
import Mathlib.Tactic.Common
import Rejoin.Koopa.Check
import Rejoin.Proofs.Flow.Search
import Rejoin.Proofs.Outcome

/-!
# What comes out of a check

Whatever faults a Koopa text has, the functions that come out of its check are well formed: only the
last instruction of a block ends it, and targets are places of blocks in the layout. The targets of
a block that is reached are reached themselves, so they have a place.

* `Ensures` says that whatever comes out of a check has a property; there is one rule for each way
  to build a check.
* `ensures_checkFunction` — the functions that come out of a check are well formed.
* `wellFormed_of_checkProgram` — so are those of a checked program.
-/

namespace Rejoin.Koopa

/-- The operation ends a block. -/
def Operation.isEnd : Operation → Bool
  | binary .. | alloc | load _ | store .. | getPtr .. | getElemPtr .. | call .. => false
  | branch .. | jump .. | ret _ => true

/-- The places of the blocks that the operation leads to. -/
def Operation.targets : Operation → List Nat
  | binary .. | alloc | load _ | store .. | getPtr .. | getElemPtr .. | call .. | ret _ => []
  | branch _ onTrue _ onFalse _ => [onTrue, onFalse]
  | jump target _ => [target]

theorem Operation.targets_of_isEnd {operation : Operation} (h : operation.isEnd = false) :
    operation.targets = [] := by
  cases operation with
  | branch | jump => cases h
  | _ => rfl

/-- In a row of instructions only the last one ends its block, and targets are below `size`. -/
structure WellFormedRow (size : Nat) (insts : List Inst) : Prop where
  /-- Only the last instruction may end the block. -/
  end_last : ∀ inst ∈ insts.dropLast, inst.operation.isEnd = false
  /-- Targets are places of blocks. -/
  targets_lt : ∀ inst ∈ insts, ∀ target ∈ inst.operation.targets, target < size

/-- The blocks of the function are well formed. -/
def Function.WellFormed (f : Function) : Prop :=
  ∀ b ∈ f.blocks, WellFormedRow f.blocks.length b.insts

/-! ## Results of checks -/

section Run

variable {α β : Type}

/-- A check that follows another runs in the state the other has left, unless that has ended in an
error. -/
theorem run_bind (check : Check α) (next : α → Check β) (progress : Progress) :
    (check >>= next).run.run progress =
      match check.run.run progress with
      | (.ok a, after) => (next a).run.run after
      | (.error error, after) => (.error error, after) := by
  show (check.run >>= ExceptT.bindCont next).run progress = _
  rw [StateT.run_bind]
  cases check.run.run progress with
  | mk outcome after => cases outcome <;> rfl

/-- An attempt turns a fault into one more fault of the state. -/
theorem run_attempt (check : Check α) (progress : Progress) :
    (attempt check).run.run progress =
      match check.run.run progress with
      | (.ok a, after) => (.ok (some a), after)
      | (.error .rejected, after) => (.ok none, { after with faults := after.faults + 1 })
      | (.error .aborted, after) => (.error .aborted, after) := by
  rw [attempt, ExceptT.run_mk, StateT.run_bind]
  cases check.run.run progress with
  | mk outcome after =>
    cases outcome with
    | ok => rfl
    | error error => cases error <;> rfl

end Run

/-- Whatever comes out of the check has the property. -/
def Ensures {α : Type} (check : Check α) (P : α → Prop) : Prop :=
  ∀ progress result, (check.run.run progress).1 = .ok result → P result

namespace Ensures

variable {α β : Type} {P : α → Prop} {Q : β → Prop}

theorem pure {a : α} (h : P a) : Ensures (Pure.pure a) P := by
  intro progress result hrun
  obtain rfl := Except.ok.inj hrun
  exact h

theorem throw {error : Error} : Ensures (MonadExcept.throw error) P := by
  intro progress result hrun
  cases hrun

/-- What comes out of two checks in a row comes out of the second. -/
theorem bind {check : Check α} {next : α → Check β} (hcheck : Ensures check P)
    (hnext : ∀ a, P a → Ensures (next a) Q) : Ensures (check >>= next) Q := by
  intro progress result hrun
  have hfirst := hcheck progress
  rw [run_bind] at hrun
  cases houtcome : check.run.run progress with
  | mk outcome after =>
    rw [houtcome] at hrun hfirst
    cases outcome with
    | ok a => exact hnext a (hfirst a rfl) after result hrun
    | error error => cases hrun

/-- The second check alone may ensure the property. -/
theorem after {check : Check α} {next : α → Check β} (hnext : ∀ a, Ensures (next a) Q) :
    Ensures (check >>= next) Q :=
  bind (fun _ _ _ => trivial) fun a (_ : True) => hnext a

/-- A check that is carried out whether or not it ends at a fault may have no result. -/
theorem attempt {check : Check α} (h : Ensures check P) :
    Ensures (Koopa.attempt check) fun result => ∀ a, result = some a → P a := by
  intro progress result hrun a ha
  have hfirst := h progress
  rw [run_attempt] at hrun
  cases houtcome : check.run.run progress with
  | mk outcome after =>
    rw [houtcome] at hrun hfirst
    cases outcome with
    | ok b =>
      obtain rfl : b = a := Option.some.inj ((Except.ok.inj hrun).trans ha)
      exact hfirst b rfl
    | error error =>
      subst ha
      cases error <;> cases hrun

/-- A check for each element of a list has as many results, all of which have the property. -/
theorem mapM {xs : List α} {check : α → Check β} (h : ∀ x ∈ xs, Ensures (check x) Q) :
    Ensures (xs.mapM check) fun ys => ys.length = xs.length ∧ ∀ y ∈ ys, Q y := by
  induction xs with
  | nil => exact pure (by simp)
  | cons x xs ih =>
    rw [List.mapM_cons]
    rw [List.forall_mem_cons] at h
    refine bind h.1 fun y hy => bind (ih h.2) fun ys hys => pure ?_
    rw [List.length_cons, List.length_cons, hys.1, List.forall_mem_cons]
    exact ⟨rfl, hy, hys.2⟩

end Ensures

/-! ## Instructions -/

namespace Context

variable {ctx : Context} {block : Nat}

/-- The instruction that is added has the result and the operation it is asked to have. -/
theorem ensures_add {P : Inst → Prop} {result : Result} {operation : Operation}
    (h : P { result, operation }) : Ensures (add result operation) P :=
  .after fun _ => .pure h

theorem ensures_call {callee : String} {args : List Atom} :
    Ensures (ctx.call block callee args) fun called => called.1.isEnd = false := by
  rw [call]
  split
  · exact .throw
  · exact .after fun _ => .pure rfl

/-- No expression ends a block. -/
theorem ensures_expr {value : Expr} :
    Ensures (ctx.expr block value) fun defined => defined.1.isEnd = false := by
  cases value with
  | alloc | load => exact .after fun _ => .pure rfl
  | getPtr | binary => exact .after fun _ => .after fun _ => .pure rfl
  | getElemPtr =>
    refine .after fun pointer => ?_
    split
    · exact .after fun _ => .pure rfl
    · exact .throw
  | call => exact ensures_call

/-- A statement does not end its block. -/
theorem ensures_stmt {stmt : Stmt} :
    Ensures (ctx.stmt block stmt) fun inst => inst.operation.isEnd = false := by
  cases stmt with
  | define =>
    -- the name is taken before the value is looked at, and the definition recorded after it
    refine .after fun _ => .bind ensures_expr fun defined hdefined => ?_
    exact .after fun _ => .after fun _ => .after fun _ => ensures_add hdefined
  | store => exact .after fun _ => .after fun _ => ensures_add rfl
  | call => exact .bind ensures_call fun called hcalled => ensures_add hcalled

/-- The blocks that are named have places in the layout. -/
def Places (ctx : Context) (gotos : List Goto) : Prop :=
  ∀ goto ∈ gotos, ∀ i, findBlock? goto.target ctx.blocks = some i → i ∈ ctx.order

/-- The target of a jump is the place of a block that is kept. -/
theorem ensures_goto {goto : Goto} {gotos : List Goto} (h : ctx.Places gotos)
    (hgoto : goto ∈ gotos) :
    Ensures (ctx.goto block goto) fun target => target.1 < ctx.order.length := by
  rw [Context.goto]
  split
  · exact .throw
  next i hi => exact .after fun _ => .pure (List.idxOf_lt_length_of_mem (h goto hgoto i hi))

/-- The end of a block leads to places in the layout. -/
theorem ensures_ending {last : End} (h : ctx.Places last.gotos) :
    Ensures (ctx.ending block last) fun inst =>
      ∀ target ∈ inst.operation.targets, target < ctx.order.length := by
  cases last with
  | br cond onTrue onFalse =>
    refine .after fun _ => .bind (ensures_goto h (by simp [End.gotos])) fun t ht => ?_
    refine .bind (ensures_goto h (by simp [End.gotos])) fun e he => .after fun _ => ensures_add ?_
    simp only [Operation.targets, List.forall_mem_cons]
    exact ⟨ht, he, by simp⟩
  | jump goto =>
    refine .bind (ensures_goto h (by simp [End.gotos])) fun t ht => .after fun _ => ensures_add ?_
    simp only [Operation.targets, List.forall_mem_cons]
    exact ⟨ht, by simp⟩
  | ret value =>
    cases value with
    | none => exact .after fun _ => ensures_add (by simp [Operation.targets])
    | some value => exact .after fun _ => .after fun _ => ensures_add (by simp [Operation.targets])

/-- Statements and at most one end make a well-formed row. -/
private theorem wellFormedRow_append {size : Nat} {stmts last : List Inst}
    (hstmts : ∀ inst ∈ stmts, inst.operation.isEnd = false) (hlength : last.length ≤ 1)
    (hlast : ∀ inst ∈ last, ∀ target ∈ inst.operation.targets, target < size) :
    WellFormedRow size (stmts ++ last) where
  end_last := by
    intro inst hinst
    refine hstmts inst ?_
    cases last with
    | nil =>
      rw [List.append_nil] at hinst
      exact List.dropLast_subset stmts hinst
    | cons inst' rest =>
      obtain rfl : rest = [] := by simpa using hlength
      rwa [List.dropLast_concat] at hinst
  targets_lt := by
    intro inst hinst
    rcases List.mem_append.mp hinst with hinst | hinst
    · simp [Operation.targets_of_isEnd (hstmts inst hinst)]
    · exact hlast inst hinst

/-- A checked block has at most one end, behind its other instructions, and leads to blocks that are
kept. -/
theorem ensures_block {b : BlockDef} (h : ctx.Places b.gotos) :
    Ensures (ctx.block block b) fun checked => WellFormedRow ctx.order.length checked.insts := by
  have hending : ∀ last ∈ b.ending.toList, ctx.Places last.gotos := by
    intro last hlast
    rw [Option.mem_toList] at hlast
    rwa [BlockDef.gotos, hlast] at h
  refine .bind (.mapM fun stmt _ => .attempt ensures_stmt) fun stmts hstmts => ?_
  refine .bind (.mapM fun last hlast => .attempt (ensures_ending (hending last hlast)))
    fun last hlast => .pure ?_
  rw [List.reduceOption_append]
  -- no statement ends the block, and at most one instruction that does comes after them
  refine wellFormedRow_append ?_ ?_ ?_
  · intro inst hinst
    exact hstmts.2 _ (List.reduceOption_mem_iff.mp hinst) inst rfl
  · calc last.reduceOption.length
      _ ≤ last.length := List.reduceOption_length_le last
      _ = b.ending.toList.length := hlast.1
      _ ≤ 1 := Option.length_toList_le
  · intro inst hinst
    exact hlast.2 _ (List.reduceOption_mem_iff.mp hinst) inst rfl

end Context

/-! ## Functions -/

/-- A block that is found by its name is one of the blocks. -/
theorem lt_length_of_findBlock? {name : String} {blocks : List BlockDef} {i : Nat}
    (h : findBlock? name blocks = some i) : i < blocks.length := by
  induction blocks generalizing i with
  | nil => cases h
  | cons block rest ih =>
    rw [findBlock?] at h
    split at h
    next place hplace =>
      -- a later block of the name comes before the first one
      obtain rfl := Option.some.inj h
      exact Nat.succ_lt_succ (ih hplace)
    next =>
      split at h
      · obtain rfl := Option.some.inj h
        exact Nat.succ_pos _
      · cases h

section Layout

variable {blocks : List BlockDef} {entry i : Nat}

theorem size_blockGraph (blocks : List BlockDef) : (blockGraph blocks).size = blocks.length := by
  simp [blockGraph, Digraph.size]

/-- The successors of a block are the blocks that it names and that exist. -/
theorem next_blockGraph {b : BlockDef} (h : blocks[i]? = some b) :
    (blockGraph blocks).next i =
      b.gotos.filterMap fun goto => findBlock? goto.target blocks := by
  simp [blockGraph, Digraph.next, h]

/-- The blocks that a function reaches from the entry, in layout order. -/
def reachedFrom (blocks : List BlockDef) (entry : Nat) : List Nat :=
  (blockGraph blocks).sweep (blockGraph blocks).allFree [entry]

/-- The blocks that are kept are those a search from the entry enters. -/
theorem mem_reachedFrom_iff : i ∈ reachedFrom blocks entry ↔
    (blockGraph blocks).Enters (blockGraph blocks).allFree [entry] i :=
  Digraph.mem_sweep_iff (Digraph.size_allFree _)

/-- Only blocks of the text are reached. -/
theorem lt_length_of_mem_reachedFrom (h : i ∈ reachedFrom blocks entry) : i < blocks.length := by
  have hfree := (mem_reachedFrom_iff.mp h).isFree
  rwa [Digraph.isFree_allFree, size_blockGraph] at hfree

/-- Blocks that a reached block goes to are reached. -/
theorem mem_reachedFrom_of_goto {b : BlockDef} {goto : Goto} {target : Nat}
    (hi : i ∈ reachedFrom blocks entry) (hb : blocks[i]? = some b) (hgoto : goto ∈ b.gotos)
    (htarget : findBlock? goto.target blocks = some target) :
    target ∈ reachedFrom blocks entry := by
  rw [mem_reachedFrom_iff] at hi ⊢
  -- the search goes on from every block it enters, and a block of the text is never closed to it
  refine .step hi ?_ ?_
  · rw [next_blockGraph hb, List.mem_filterMap]
    exact ⟨goto, hgoto, htarget⟩
  · rw [Digraph.isFree_allFree, size_blockGraph]
    exact lt_length_of_findBlock? htarget

end Layout

/-- The functions that come out of a check are well formed. -/
theorem ensures_checkFunction {globals : Globals} {name : String} {params : List (String × Ty)}
    {ret : Ty} {blocks : List BlockDef} :
    Ensures (checkFunction globals name params ret blocks) Function.WellFormed := by
  let order := reachedFrom blocks (entryBlock blocks)
  let reached := order.filterMap fun i => (blocks[i]?).map fun b => (i, b)
  let ctx : Context := { globals, blocks, graph := blockGraph blocks, order, ret }
  have hreached : ∀ entry ∈ reached, entry.1 ∈ order ∧ blocks[entry.1]? = some entry.2 := by
    intro entry hentry
    obtain ⟨i, hi, heq⟩ := List.mem_filterMap.mp hentry
    obtain ⟨b, hb, rfl⟩ := Option.map_eq_some_iff.mp heq
    exact ⟨hi, hb⟩
  -- nothing is lost on the way from places in the text to blocks
  have hlength : reached.length = order.length := by
    refine List.filterMap_length_eq_length.mpr fun i hi => ?_
    simp [lt_length_of_mem_reachedFrom hi]
  have hblock : ∀ entry ∈ reached, Ensures (ctx.block entry.1 entry.2) fun checked =>
      WellFormedRow order.length checked.insts := by
    intro entry hentry
    obtain ⟨hi, hb⟩ := hreached entry hentry
    exact Context.ensures_block fun goto hgoto target htarget =>
      mem_reachedFrom_of_goto hi hb hgoto htarget
  rw [checkFunction]
  -- what comes before the blocks counts faults and takes names, and has no result
  refine .after fun _ => .after fun _ => .after fun _ => .after fun _ => .after fun _ => ?_
  refine .bind (.mapM hblock) fun checked hchecked => .pure fun b hb => ?_
  have hcount : checked.length = order.length := hchecked.1.trans hlength
  show WellFormedRow checked.length b.insts
  rw [hcount]
  exact hchecked.2 b hb

/-- A function that is checked is well formed. -/
theorem ensures_checkItem {globals : Globals} {item : Item} :
    Ensures (checkItem globals item) fun checked => ∀ f, checked.2 = some f → f.WellFormed := by
  cases item with
  | global => exact .after fun _ => .after fun _ => .after fun _ => .pure (by simp)
  | decl =>
    refine .after fun signature => .pure fun f hf => ?_
    obtain rfl := Option.some.inj hf
    simp [Function.WellFormed]
  | func name params ret blocks =>
    refine .after fun signature => .bind ensures_checkFunction fun func hfunc => .pure ?_
    rintro f ⟨⟩
    exact hfunc

/-! ## Programs -/

/-- Whatever function comes out of the check of an item has the property. -/
def CheckedItemsHave (P : Function → Prop) : Prop :=
  ∀ globals item checked, ((checkItem globals item).run.run {}).1 = .ok checked →
    ∀ f, checked.2 = some f → P f

namespace Survey

variable {survey next : Survey} {P : Function → Prop}

/-- Another item keeps a property of the functions. -/
theorem forall_of_add (hP : CheckedItemsHave P) {reading : Reading}
    (h : ∀ f ∈ survey.functions, P f) (hnext : survey.add reading = .ok next) :
    ∀ f ∈ next.functions, P f := by
  rw [add] at hnext
  split at hnext
  · obtain rfl := Except.ok.inj hnext
    exact h
  next item _ =>
    -- an item that has been attempted with success has been checked
    have hitem : ∀ checked, ((attempt (checkItem survey.globals item)).run.run {}).1 =
        .ok (some checked) → ∀ f, checked.2 = some f → P f := by
      intro checked hchecked
      rw [run_attempt] at hchecked
      refine hP survey.globals item checked ?_
      split at hchecked
      next a _ hrun =>
        rw [hrun]
        exact congrArg Except.ok (Option.some.inj (Except.ok.inj hchecked))
      all_goals cases hchecked
    split at hnext
    · cases hnext
    next result progress hrun =>
      obtain rfl := Except.ok.inj hnext
      intro f hf
      rcases List.mem_append.mp hf with hf | hf
      · cases result with
        | none => simp at hf
        | some checked =>
          rw [Option.mem_toList] at hf
          exact hitem checked (by rw [hrun]) f hf
      · exact h f hf

/-- What checking gives every function, all functions of a survey have. By induction on the
readings. -/
theorem forall_of_addAll (hP : CheckedItemsHave P) {readings : List Reading}
    (h : ∀ f ∈ survey.functions, P f) (hnext : survey.addAll readings = .ok next) :
    ∀ f ∈ next.functions, P f := by
  induction readings generalizing survey with
  | nil =>
    obtain rfl := Except.ok.inj hnext
    exact h
  | cons reading rest ih =>
    rw [addAll] at hnext
    split at hnext
    · obtain rfl := Except.ok.inj hnext
      exact h
    · obtain ⟨first, hfirst, hrest⟩ := bind_eq_ok_iff.mp hnext
      exact ih (forall_of_add hP h hfirst) hrest

end Survey

/-- What holds of the functions that come out of items holds of those of a checked program. -/
theorem forall_of_checkProgram {P : Function → Prop} (hP : CheckedItemsHave P)
    {readings : List Reading} {program : Program} (h : checkProgram readings = .ok program) :
    ∀ f ∈ program.functions, P f := by
  obtain ⟨survey, hsurvey, h⟩ := bind_eq_ok_iff.mp h
  split at h
  · obtain rfl := Except.ok.inj h
    intro f hf
    exact Survey.forall_of_addAll hP (by simp) hsurvey f (List.mem_reverse.mp hf)
  · cases h

/-- The functions of a checked program are well formed. -/
theorem wellFormed_of_checkProgram {readings : List Reading} {program : Program}
    (h : checkProgram readings = .ok program) : ∀ f ∈ program.functions, f.WellFormed :=
  forall_of_checkProgram (fun _ _ checked hchecked => ensures_checkItem {} checked hchecked) h

end Rejoin.Koopa
