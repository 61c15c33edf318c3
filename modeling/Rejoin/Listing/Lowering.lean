import Rejoin.Listing.Parser
import Rejoin.Machine.Func

/-!
# From listings to programs

Labels become block numbers. All blocks of a function are known before its instructions are
looked at, so branches may name blocks that come later.
-/

namespace Rejoin.Listing

/-- Why a listing is no program. -/
inductive LowerError where
  /-- A function has the name of an earlier one. -/
  | duplicateFunction (name : Spanned String)
  /-- A block has the label of an earlier block of its function. -/
  | duplicateLabel (label : Spanned String)
  /-- A target is the label of no block of the function. -/
  | unknownLabel (label : Spanned String)
  /-- An instruction follows one that ends its block. -/
  | afterTerminator (span : Span)
deriving DecidableEq, Repr, Inhabited

/-- What is shown of a lowering error. -/
def LowerError.diagnostic : LowerError → Diagnostic
  | duplicateFunction name =>
    { message := "function `" ++ name.val ++ "` is defined more than once"
      code := "reconv::duplicate_function"
      labels := [Label.over name.span "redefined here"] }
  | duplicateLabel label =>
    { message := "label `" ++ label.val ++ "` is defined more than once"
      code := "reconv::duplicate_label"
      labels := [Label.over label.span "redefined here"] }
  | unknownLabel label =>
    { message := "unknown label `" ++ label.val ++ "`"
      code := "reconv::unknown_label"
      labels := [Label.over label.span "no block with this label"] }
  | afterTerminator span =>
    { message := "instruction after the end of a basic block"
      code := "reconv::inst_after_terminator"
      help := some "start a new block with a label before this instruction"
      labels := [Label.over span "unreachable instruction"] }

/-- The number of the block with a label. -/
def resolve (labels : List String) (label : Spanned String) : Except LowerError BlockId :=
  match labels.idxOf? label.val with
  | some b => .ok b
  | none => .error (.unknownLabel label)

/-- The machine instruction that an instruction of a listing stands for. Its targets are found
first, the true target before the false one. -/
def InstDef.buildM {τ σ : Type} {m : Type → Type} [Monad m] (find : τ → m σ) :
    InstDef τ → m (Inst σ)
  | op opcode operands result => pure (.op opcode operands result)
  | branch cond onTrue onFalse => do
    let t ← find onTrue
    let e ← find onFalse
    pure (.branch cond t e)
  | jump target => do
    let t ← find target
    pure (.jump t)
  | ret value => pure (.ret value)

/-- The machine instructions of a block. -/
def lowerInsts (labels : List String) :
    List (Spanned LabelInst) → Except LowerError (List (Inst BlockId))
  | [] => .ok []
  | inst :: rest => do
    let lowered ← inst.val.buildM (resolve labels)
    match lowered.isTerminator, rest with
    | true, next :: _ => .error (.afterTerminator next.span)
    | _, _ => do
      let others ← lowerInsts labels rest
      pure (lowered :: others)

/-- The first name that occurs among `seen` or before itself. -/
def firstRepeat? (seen : List String) : List (Spanned String) → Option (Spanned String)
  | [] => none
  | name :: rest =>
    if name.val ∈ seen then some name else firstRepeat? (name.val :: seen) rest

/-- The blocks of a function with their targets resolved. -/
def lowerBlocks (labels : List String) :
    List BlockDef → Except LowerError (List (String × List (Inst BlockId)))
  | [] => .ok []
  | block :: rest => do
    let insts ← lowerInsts labels block.insts
    let others ← lowerBlocks labels rest
    pure ((block.label.val, insts) :: others)

/-- A function of a listing as a machine function. -/
def FuncDef.lower (func : FuncDef) : Except LowerError Func :=
  match firstRepeat? [] (func.blocks.map BlockDef.label) with
  | some label => .error (.duplicateLabel label)
  | none => do
    let blocks ← lowerBlocks (func.blocks.map fun block => block.label.val) func.blocks
    pure (Func.ofBlocks func.name.val blocks)

/-- The functions of a listing as machine functions, `seen` being the names before them. -/
def lowerFunctions (seen : List String) :
    List (Spanned FuncDef) → Except LowerError (List Func)
  | [] => .ok []
  | func :: rest =>
    if func.val.name.val ∈ seen then .error (.duplicateFunction func.val.name)
    else do
      let lowered ← func.val.lower
      let others ← lowerFunctions (func.val.name.val :: seen) rest
      pure (lowered :: others)

/-- A listing as a program. -/
def Tree.lower (listing : Tree) : Except LowerError Program := do
  let functions ← lowerFunctions [] listing.functions
  pure { functions }

/-- Why a text is no program. -/
inductive Error where
  /-- It is not a listing. -/
  | parse (error : ParseError)
  /-- It is a listing that cannot be lowered. -/
  | lower (error : LowerError)
deriving DecidableEq, Repr, Inhabited

/-- What is shown of an error in a listing. -/
def Error.diagnostic : Error → Diagnostic
  | parse error => error.diagnostic
  | lower error => error.diagnostic

/-- Read a listing as a program. -/
def parse (text : String) : Except Error Program :=
  match parseTree text with
  | .error error => .error (.parse error)
  | .ok listing =>
    match listing.lower with
    | .error error => .error (.lower error)
    | .ok program => .ok program

end Rejoin.Listing
