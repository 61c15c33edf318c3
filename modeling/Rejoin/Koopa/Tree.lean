import Rejoin.Koopa.Token

/-!
# The tree of a Koopa text

Globals, declarations and functions as they are written, with names in place of values.
-/

namespace Rejoin.Koopa

/-- A type. The type of a function is built from its parameters and its result: `arrow` adds a
parameter in front, and `result` stands for no more parameters. -/
inductive Ty where
  /-- The type of 32-bit integers. -/
  | i32
  /-- The type of instructions without a result. -/
  | unit
  /-- The type of pointers. -/
  | pointer (target : Ty)
  /-- The type of arrays of a length. -/
  | array (element : Ty) (length : Int)
  /-- One more parameter. -/
  | arrow (param rest : Ty)
  /-- The result of a function. -/
  | result (ty : Ty)
deriving DecidableEq, Repr, Inhabited

/-- The type of a function. -/
def Ty.func (params : List Ty) (ret : Ty) : Ty :=
  params.foldr arrow (result ret)

/-- Whether an array type of length zero occurs in a type. -/
def Ty.hasEmptyArray : Ty → Bool
  | i32 | unit => false
  | pointer target => target.hasEmptyArray
  | array element length => length == 0 || element.hasEmptyArray
  | arrow param rest => param.hasEmptyArray || rest.hasEmptyArray
  | result ty => ty.hasEmptyArray

/-- What is written where a value is read. -/
inductive Atom where
  /-- A name. -/
  | symbol (name : String)
  /-- An integer. -/
  | int (n : Int)
  /-- Any value whatever. -/
  | undef
deriving DecidableEq, Repr, Inhabited

/-- What is written where memory is filled. -/
inductive Init where
  /-- An integer. -/
  | int (n : Int)
  /-- Any value whatever. -/
  | undef
  /-- Zeros. -/
  | zeroinit
  /-- The elements of an array. -/
  | aggregate (elements : List Init)
deriving Repr, Inhabited

/-- What defines a value. -/
inductive Expr where
  /-- Memory for a value of a type. -/
  | alloc (ty : Ty)
  /-- What a pointer points to. -/
  | load (src : String)
  /-- A pointer moved by an index. -/
  | getPtr (src : String) (index : Atom)
  /-- A pointer to an element of an array. -/
  | getElemPtr (src : String) (index : Atom)
  /-- The result of an operator. -/
  | binary (op : BinaryOp) (lhs rhs : Atom)
  /-- The result of a call. -/
  | call (callee : String) (args : List Atom)
deriving Repr, Inhabited

/-- What is stored. -/
inductive Stored where
  /-- A named value. -/
  | symbol (name : String)
  /-- An initial value. -/
  | init (init : Init)
deriving Repr, Inhabited

/-- A statement inside a block. -/
inductive Stmt where
  /-- The definition of a value. -/
  | define (name : String) (expr : Expr)
  /-- A store. -/
  | store (value : Stored) (dest : String)
  /-- A call whose result is not named. -/
  | call (callee : String) (args : List Atom)
deriving Repr, Inhabited

/-- A block to go to, and the arguments for its parameters. -/
structure Goto where
  /-- Name of the block. -/
  target : String
  /-- The arguments. -/
  args : List Atom
deriving Repr, Inhabited

/-- The end of a block. -/
inductive End where
  /-- A two-way branch. -/
  | br (cond : Atom) (onTrue onFalse : Goto)
  /-- A jump. -/
  | jump (goto : Goto)
  /-- A return. -/
  | ret (value : Option Atom)
deriving Repr, Inhabited

/-- The blocks that the end of a block names, the true target first. -/
def End.gotos : End → List Goto
  | br _ onTrue onFalse => [onTrue, onFalse]
  | jump goto => [goto]
  | ret _ => []

/-- A block. -/
structure BlockDef where
  /-- Name of the block. -/
  name : String
  /-- Its parameters. -/
  params : List (String × Ty)
  /-- Its statements. -/
  stmts : List Stmt
  /-- Its end, if that can be read. -/
  ending : Option End
deriving Repr, Inhabited

/-- The blocks that a block goes to, the true target first. -/
def BlockDef.gotos (block : BlockDef) : List Goto :=
  match block.ending with
  | some last => last.gotos
  | none => []

/-- A part of a Koopa text. -/
inductive Item where
  /-- A global variable. -/
  | global (name : String) (ty : Ty) (init : Init)
  /-- A declared function. -/
  | decl (name : String) (params : List Ty) (ret : Ty)
  /-- A function. -/
  | func (name : String) (params : List (String × Ty)) (ret : Ty) (blocks : List BlockDef)
deriving Repr, Inhabited

end Rejoin.Koopa
