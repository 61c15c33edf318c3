import Rejoin.Koopa.Parser
import Rejoin.Koopa.Scope

/-!
# Checked Koopa programs

Names are resolved and types are checked, item after item. Blocks are laid out in the order of a
breadth-first search from the first one, and blocks that are not reached are dropped without a look
at them. A name can be read where its definition has been seen before, in the same block or in one
that leads to it.

Faults are counted and the check goes on. A statement with a fault is left out, and so is a global
variable whose value has one; a name that is taken already, and a row of elements of another length
than the one asked for, count as faults but are used all the same. Once an item brings the faults
above `faultLimit`, the rest of the text is not looked at. A text with a fault gives no program.

Some texts have to be given up on the spot, whatever faults they have besides: those that go to a
block that does not exist, pass too few arguments to a block, use an array type of length zero, fill
an array with elements of different types, or store a row of elements whose type is not the one
asked for.

* `Check` is a check that counts faults, ends at a fault or gives a text up.
* `checkItem` checks an item.
* `checkProgram` checks what has been read of a text.
-/

namespace Rejoin.Koopa

/-- Why a Koopa text gives no program. -/
inductive Error where
  /-- The text has a fault. -/
  | rejected
  /-- The text has to be given up. -/
  | aborted
deriving DecidableEq, Repr, Inhabited

/-- An integer reduced to 32 bits. -/
def truncate (n : Int) : Int64 :=
  (Int32.ofInt n).toInt64

/-- The value of an initial value. -/
def Init.value : Init → Value
  | .int n => .int (truncate n)
  | .undef | .zeroinit => .blank
  | .aggregate _ => .aggregate

/-- What changes while an item is checked. -/
structure Progress where
  /-- The names that should not be defined any more. -/
  taken : List String := []
  /-- The definitions seen so far, the latest first. -/
  definitions : List Definition := []
  /-- The number of instructions so far. -/
  count : Nat := 0
  /-- The number of faults after which the check went on. -/
  faults : Nat := 0
deriving DecidableEq, Repr, Inhabited

/-- A check, which ends at a fault or where the text has to be given up. -/
abbrev Check := ExceptT Error (StateM Progress)

/-- There is a fault, and the check ends. -/
def fault {α : Type} : Check α :=
  throw .rejected

/-- There is a fault, and the check ends, unless a condition holds. -/
def require (condition : Bool) : Check Unit :=
  if condition then pure () else fault

/-- Count faults and go on. -/
def note (faults : Nat) : Check Unit :=
  modify fun p => { p with faults := p.faults + faults }

/-- Count a fault and go on, unless a condition holds. -/
def noteUnless (condition : Bool) : Check Unit :=
  if condition then pure () else note 1

/-- The text has to be given up unless a condition holds. -/
def insist (condition : Bool) : Check Unit :=
  if condition then pure () else throw .aborted

/-- Carry a check out and go on after it. If it ends at a fault, that is counted, and the check has
no result. -/
def attempt {α : Type} (check : Check α) : Check (Option α) :=
  ExceptT.mk do
    match ← check.run with
    | .ok result => pure (.ok (some result))
    | .error .rejected => do
      modify fun p => { p with faults := p.faults + 1 }
      pure (.ok none)
    | .error .aborted => pure (.error .aborted)

/-- The text has to be given up if a type has an array of length zero. -/
def checkType (ty : Ty) : Check Unit :=
  insist (!ty.hasEmptyArray)

/-- The type of the elements in a row of so many elements where a type is asked for. A pointer may
be filled like an array of any length. -/
def elementType (count : Nat) : Ty → Check Ty
  | .array element length => do
    noteUnless (length == count)
    pure element
  | .pointer target => pure target
  | .i32 | .unit | .arrow .. | .result _ => fault

/-- The type of an array with elements of the given types, which must be the same. -/
def arrayOf : List Ty → Check Ty
  | [] => fault
  | first :: rest => do
    insist (rest.all fun ty => ty == first)
    pure (.array first (rest.length + 1))

mutual

/-- The type an initial value gets where a type is asked for. Only a row of elements can get another
type than that. -/
def Init.typeAs (ty : Ty) : Init → Check Ty
  | .int _ => do
    require (ty == .i32)
    pure .i32
  | .undef | .zeroinit => pure ty
  | .aggregate elements => do
    let element ← elementType elements.length ty
    let types ← Init.typesAs element elements
    arrayOf types

/-- The types initial values get where a type is asked for. -/
def Init.typesAs (ty : Ty) : List Init → Check (List Ty)
  | [] => pure []
  | init :: rest => do
    let first ← init.typeAs ty
    let others ← Init.typesAs ty rest
    pure (first :: others)

end

/-- Take a name. It is a fault if the name is taken already or is that of a global variable. -/
def takeName (globals : Globals) (name : String) : Check Unit := do
  let taken := (← get).taken
  noteUnless (!globals.hasCell name && !taken.contains name)
  modify fun p => { p with taken := name :: p.taken }

/-- How many of the given names come again later. -/
def repeats : List String → Nat
  | [] => 0
  | name :: rest => if rest.contains name then repeats rest + 1 else repeats rest

/-- What does not change while the blocks of a function are checked. -/
structure Context where
  /-- What has been declared outside functions. -/
  globals : Globals
  /-- The blocks as they are written. -/
  blocks : List BlockDef
  /-- Which block goes to which. -/
  graph : Digraph
  /-- The blocks that are reached, in layout order. -/
  order : List Nat
  /-- The type of the function's result. -/
  ret : Ty

namespace Context

/-- The blocks from which control can come to a block, in layout order. -/
def before (ctx : Context) (block : Nat) : List Nat :=
  ctx.order.filter fun b => (ctx.graph.next b).contains block

/-- The value and the type that a name stands for in a block. -/
def lookup (ctx : Context) (block : Nat) (name : String) : Check (Value × Ty) := do
  match ctx.globals.cells.lookup name with
  | some ty => pure (.global (nameOf? name), ty)
  | none =>
    let definitions := (← get).definitions
    let look (b : Nat) : Option Definition :=
      definitions.find? fun d => d.owner == b && d.name == name
    match findBackward ctx.order.length ctx.before look block with
    | some d => pure (d.value, d.ty)
    | none => fault

/-- The value of an atom that has to have the given type. -/
def readAs (ctx : Context) (block : Nat) (ty : Ty) : Atom → Check Value
  | .symbol name => do
    let (value, found) ← ctx.lookup block name
    require (found == ty)
    pure value
  | .int n => do
    require (ty == .i32)
    pure (.int (truncate n))
  | .undef => pure .blank

/-- The values of arguments for parameters of the given types. Surplus arguments are dropped. -/
def readArgs (ctx : Context) (block : Nat) (args : List Atom) (types : List Ty) :
    Check (List Value) :=
  (args.zip types).mapM fun (arg, ty) => ctx.readAs block ty arg

/-- The pointer that a name stands for, and the type it points to. -/
def readPointer (ctx : Context) (block : Nat) (name : String) : Check (Value × Ty) := do
  match ← ctx.lookup block name with
  | (value, .pointer target) => pure (value, target)
  | _ => fault

/-- A call, and the type of its result. -/
def call (ctx : Context) (block : Nat) (callee : String) (args : List Atom) :
    Check (Operation × Ty) := do
  match ctx.globals.functions.lookup callee with
  | none => fault
  | some signature =>
    let values ← ctx.readArgs block args signature.params
    pure (.call callee values, signature.ret)

/-- The operation that defines a value, and the type of its result. -/
def expr (ctx : Context) (block : Nat) : Expr → Check (Operation × Ty)
  | .alloc ty => do
    checkType ty
    pure (.alloc, .pointer ty)
  | .load src => do
    let (value, target) ← ctx.readPointer block src
    pure (.load value, target)
  | .getPtr src index => do
    let (value, target) ← ctx.readPointer block src
    let i ← ctx.readAs block .i32 index
    pure (.getPtr value i, .pointer target)
  | .getElemPtr src index => do
    match ← ctx.readPointer block src with
    | (value, .array element _) =>
      let i ← ctx.readAs block .i32 index
      pure (.getElemPtr value i, .pointer element)
    | _ => fault
  | .binary op lhs rhs => do
    let l ← ctx.readAs block .i32 lhs
    let r ← ctx.readAs block .i32 rhs
    pure (.binary op l r, .i32)
  | .call callee args => ctx.call block callee args

/-- Add an instruction. -/
def add (result : Result) (operation : Operation) : Check Inst := do
  modify fun p => { p with count := p.count + 1 }
  pure { result, operation }

/-- What the result of an unnamed instruction of a type is called. -/
def anonymous (ty : Ty) : Result :=
  if ty = .unit then .unit else .unnamed

/-- What the result of an instruction that defines a symbol is called. -/
def resultOf (symbol : String) : Result :=
  match nameOf? symbol with
  | some name => .named name
  | none => .unnamed

/-- The value that is stored where the type `target` is asked for. -/
def stored (ctx : Context) (block : Nat) (target : Ty) : Stored → Check Value
  | .symbol name => ctx.readAs block target (.symbol name)
  | .init init => do
    let ty ← init.typeAs target
    insist (ty == target)
    pure init.value

/-- The instruction of a statement. A definition takes its name before its value is looked at, so
the name stays taken if the value has a fault. -/
def stmt (ctx : Context) (block : Nat) : Stmt → Check Inst
  | .define name value => do
    takeName ctx.globals name
    let (operation, ty) ← ctx.expr block value
    require (ty != .unit)
    let place := (← get).count
    let definition : Definition := { name, owner := block, value := .inst place, ty }
    modify fun p => { p with definitions := definition :: p.definitions }
    add (resultOf name) operation
  | .store value dest => do
    let (pointer, target) ← ctx.readPointer block dest
    let v ← ctx.stored block target value
    add .unit (.store v pointer)
  | .call callee args => do
    let (operation, ty) ← ctx.call block callee args
    add (anonymous ty) operation

/-- The types of the parameters of the block at a place in the text. -/
def paramTypes (ctx : Context) (i : Nat) : List Ty :=
  ((ctx.blocks[i]?).map fun b => b.params.map (·.2)).getD []

/-- The target of a transfer in the layout, the values of its arguments, and whether there are
enough of them. -/
def goto (ctx : Context) (block : Nat) (goto : Goto) : Check (Nat × List Value × Bool) := do
  match findBlock? goto.target ctx.blocks with
  | none => throw .aborted
  | some i =>
    let types := ctx.paramTypes i
    let values ← ctx.readArgs block goto.args types
    pure (ctx.order.idxOf i, values, types.length ≤ goto.args.length)

/-- The instruction that ends a block. -/
def ending (ctx : Context) (block : Nat) : End → Check Inst
  | .br cond onTrue onFalse => do
    let c ← ctx.readAs block .i32 cond
    let (t, trueArgs, enoughTrue) ← ctx.goto block onTrue
    let (e, falseArgs, enoughFalse) ← ctx.goto block onFalse
    insist (enoughTrue && enoughFalse)
    add .unit (.branch c t trueArgs e falseArgs)
  | .jump target => do
    let (t, args, enough) ← ctx.goto block target
    insist enough
    add .unit (.jump t args)
  | .ret none => do
    require (ctx.ret == .unit)
    add .unit (.ret none)
  | .ret (some value) => do
    require (ctx.ret != .unit)
    let v ← ctx.readAs block ctx.ret value
    add .unit (.ret (some v))

/-- A checked block. Statements with a fault are left out, and so is such an end. -/
def block (ctx : Context) (index : Nat) (b : BlockDef) : Check Block := do
  let insts ← b.stmts.mapM fun stmt => attempt (ctx.stmt index stmt)
  let last ← b.ending.toList.mapM fun last => attempt (ctx.ending index last)
  pure
    { name := nameOf? b.name
      params := b.params.map fun param => nameOf? param.1
      insts := (insts ++ last).reduceOption }

end Context

/-- A checked function, given what has been declared outside, itself included. The parameters of
the function take the place of those of its first block. It is a fault to go to that block. -/
def checkFunction (globals : Globals) (name : String) (params : List (String × Ty)) (ret : Ty)
    (blocks : List BlockDef) : Check Function := do
  note (repeats (params.map (·.1)) + repeats (blocks.map BlockDef.name))
  let entry := entryBlock blocks
  let graph := blockGraph blocks
  let order := graph.sweep graph.allFree [entry]
  let reached := order.filterMap fun i => (blocks[i]?).map fun b => (i, b)
  let targets := reached.flatMap fun (_, b) => b.gotos.map Goto.target
  insist (targets.all fun target => (findBlock? target blocks).isSome)
  noteUnless (targets.all fun target => findBlock? target blocks != some entry)
  reached.forM fun (_, b) => b.params.forM fun (param, ty) => do
    checkType ty
    takeName globals param
  let atEntry := paramDefinitions entry .param params
  let atOthers := (reached.zipIdx.drop 1).flatMap fun ((i, b), place) =>
    paramDefinitions i (.blockParam place) b.params
  modify fun p => { p with
    taken := params.map (·.1) ++ p.taken
    definitions := (atEntry ++ atOthers).reverse }
  let ctx : Context := { globals, blocks, graph, order, ret }
  let checked ← reached.mapM fun (i, b) => ctx.block i b
  pure { name, params := params.map fun param => nameOf? param.1, blocks := checked }

/-- The signature of a function. It is a fault if its name is taken outside functions. -/
def checkHeader (globals : Globals) (name : String) (params : List Ty) (ret : Ty) :
    Check Signature := do
  noteUnless (!globals.contains name)
  params.forM checkType
  checkType ret
  pure { params, ret }

/-- Check an item. Gives what is declared after it, and its function if it has one. -/
def checkItem (globals : Globals) : Item → Check (Globals × Option Function)
  | .global name ty init => do
    noteUnless (!globals.contains name)
    checkType ty
    let found ← init.typeAs ty
    pure (globals.addCell name (.pointer found), none)
  | .decl name params ret => do
    let signature ← checkHeader globals name params ret
    pure (globals.addFunction name signature,
      some { name, params := params.map fun _ => none, blocks := [] })
  | .func name params ret blocks => do
    let signature ← checkHeader globals name (params.map (·.2)) ret
    let globals := globals.addFunction name signature
    let func ← checkFunction globals name params ret blocks
    pure (globals, some func)

/-- What has come out of the items checked so far. -/
structure Survey where
  /-- What has been declared. -/
  globals : Globals := {}
  /-- The functions, the latest first. -/
  functions : List Function := []
  /-- The number of faults. -/
  faults : Nat := 0
deriving DecidableEq, Repr, Inhabited

/-- As many faults are borne; after one more the rest of a text is not looked at. -/
def faultLimit : Nat := 20

/-- Add what has been read in one round. Fails where the text has to be given up. -/
def Survey.add (survey : Survey) (reading : Reading) : Except Error Survey :=
  match reading.item with
  | none => .ok { survey with faults := survey.faults + reading.faults }
  | some item =>
    match (attempt (checkItem survey.globals item)).run.run {} with
    | (.error error, _) => .error error
    | (.ok result, progress) =>
      let (globals, func) := result.getD (survey.globals, none)
      .ok
        { globals
          functions := func.toList ++ survey.functions
          faults := survey.faults + reading.faults + progress.faults }

/-- Add what has been read, round after round, while the faults are borne. -/
def Survey.addAll (survey : Survey) : List Reading → Except Error Survey
  | [] => .ok survey
  | reading :: rest =>
    if faultLimit < survey.faults then .ok survey
    else do
      let next ← survey.add reading
      next.addAll rest

/-- The checked program of what has been read of a text. -/
def checkProgram (readings : List Reading) : Except Error Program := do
  let survey ← Survey.addAll {} readings
  if survey.faults == 0 then .ok { functions := survey.functions.reverse }
  else .error .rejected

end Rejoin.Koopa
