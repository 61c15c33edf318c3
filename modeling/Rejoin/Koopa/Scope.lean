import Rejoin.Flow.Digraph
import Rejoin.Koopa.Program
import Rejoin.Koopa.Tree

/-!
# Names in Koopa texts

What has been declared outside functions, and what names stand for inside a function. Inside a
function a name is sought at the block that reads it and then, depth first, at the blocks that lead
to it, so the nearest definition along the first way back is the one that counts.

* `Globals` holds what has been declared outside functions.
* `blockGraph` is the graph of a function's blocks.
* `findBackward` is the search along the ways back.
-/

namespace Rejoin.Koopa

/-- The name a symbol gives to what it stands for: a percent sign followed by numerals gives
none. -/
def nameOf? (symbol : String) : Option String :=
  match symbol.toList with
  | '%' :: rest => if rest.all isNumeral then none else some symbol
  | _ => some symbol

/-- The types of a function's parameters and of its result. -/
structure Signature where
  /-- The types of the parameters. -/
  params : List Ty
  /-- The type of the result. -/
  ret : Ty
deriving DecidableEq, Repr, Inhabited

/-- What has been declared outside functions. -/
structure Globals where
  /-- The variables, with the types of pointers to them. -/
  cells : List (String × Ty) := []
  /-- The functions. -/
  functions : List (String × Signature) := []
deriving DecidableEq, Repr, Inhabited

namespace Globals

/-- Whether a name is that of a variable. -/
def hasCell (globals : Globals) (name : String) : Bool :=
  (globals.cells.lookup name).isSome

/-- Whether a name is taken outside functions. -/
def contains (globals : Globals) (name : String) : Bool :=
  globals.hasCell name || (globals.functions.lookup name).isSome

/-- Declare a variable to which there is a pointer of the given type. -/
def addCell (globals : Globals) (name : String) (ty : Ty) : Globals :=
  { globals with cells := (name, ty) :: globals.cells }

/-- Declare a function. -/
def addFunction (globals : Globals) (name : String) (signature : Signature) : Globals :=
  { globals with functions := (name, signature) :: globals.functions }

end Globals

/-- A definition inside a function. -/
structure Definition where
  /-- The name. -/
  name : String
  /-- The block it belongs to. -/
  owner : Nat
  /-- What the name stands for. -/
  value : Value
  /-- The type of the value. -/
  ty : Ty
deriving DecidableEq, Repr, Inhabited

/-- The definitions of parameters that belong to a block. -/
def paramDefinitions (owner : Nat) (value : Nat → Value) (params : List (String × Ty)) :
    List Definition :=
  params.zipIdx.map fun ((name, ty), place) => { name, owner, value := value place, ty }

/-- The place in the text of the last block with a name. -/
def findBlock? (name : String) : List BlockDef → Option Nat
  | [] => none
  | block :: rest =>
    match findBlock? name rest with
    | some place => some (place + 1)
    | none => if block.name == name then some 0 else none

/-- The place in the text of the block where a function starts: the last one with the name of the
first. -/
def entryBlock (blocks : List BlockDef) : Nat :=
  (blocks.head?.bind fun first => findBlock? first.name blocks).getD 0

/-- Which block goes to which, by their places in the text. Blocks that do not exist are left
out. -/
def blockGraph (blocks : List BlockDef) : Digraph :=
  ⟨(blocks.map fun b => b.gotos.filterMap fun goto => findBlock? goto.target blocks).toArray⟩

/-- Look at the first pending block that has not been visited, and then at the blocks before it,
for at most `fuel` blocks. -/
def findBackwardFrom {α : Type} (before : Nat → List Nat) (look : Nat → Option α) :
    Nat → List Nat → List Nat → Option α
  | 0, _, _ => none
  | fuel + 1, visited, pending =>
    match pending.dropWhile fun b => visited.contains b with
    | [] => none
    | b :: rest =>
      match look b with
      | some found => some found
      | none => findBackwardFrom before look fuel (b :: visited) (before b ++ rest)

/-- Look at `block` and then, depth first, at the blocks before it. Every round looks at another
block, so as many rounds as there are blocks are enough. -/
def findBackward {α : Type} (size : Nat) (before : Nat → List Nat) (look : Nat → Option α)
    (block : Nat) : Option α :=
  findBackwardFrom before look size [] [block]

end Rejoin.Koopa
