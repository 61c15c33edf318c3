import Rejoin.Koopa.Tree

/-!
# The parser of Koopa texts

One function for each rule of the grammar. Rules that repeat or nest take a bound on how often they
do so; the number of tokens is always enough, since every round reads a token.

Faults are counted, and reading goes on after them. Inside a block it goes on at the next token that
can start a statement, without the statement that has the fault. A fault anywhere else loses its
item, and reading goes on at the next token that can start one.

* `Cursor` is what is left to read, and the number of faults.
* `Parser.recovering` is the rule for going on after a fault.
* `parseItems` reads a text.
-/

namespace Rejoin.Koopa

/-- What is left to read, and the faults met so far. -/
structure Cursor where
  /-- The tokens that are left. The first of them is never an invalid one. -/
  tokens : List Lined
  /-- The number of faults. -/
  faults : Nat
deriving DecidableEq, Repr, Inhabited

namespace Cursor

/-- The next token. -/
def head? (cursor : Cursor) : Option Token :=
  cursor.tokens.head?.map Lined.token

/-- Pass over tokens up to one at which reading can go on. Every invalid token among them is a
fault. -/
def skipTo (stop : Token → Bool) (cursor : Cursor) : Cursor :=
  let skipped := cursor.tokens.takeWhile fun lined => !stop lined.token
  { tokens := cursor.tokens.dropWhile fun lined => !stop lined.token
    faults := cursor.faults + skipped.countP fun lined => lined.token == .invalid }

end Cursor

/-- A parser takes tokens from the front of a cursor, or fails. When it fails, the cursor stays
where the fault is. -/
abbrev Parser := OptionT (StateM Cursor)

namespace Parser

variable {α : Type}

/-- Fail, which is a fault. -/
def fail : Parser α := do
  modify fun cursor => { cursor with faults := cursor.faults + 1 }
  failure

/-- Pass over a token. This fails if the next one is invalid, which is dropped instead. -/
def advance : Parser Unit := do
  match (← get).tokens with
  | [] => fail
  | lined :: ⟨.invalid, _⟩ :: rest =>
    modify fun cursor => { cursor with tokens := lined :: rest }
    fail
  | _ :: rest => modify fun cursor => { cursor with tokens := rest }

/-- Look at the next token without taking it. -/
def peek? : Parser (Option Token) := do
  return (← get).head?

/-- Take a token that a selection accepts. -/
def take (select : Token → Option α) : Parser α := do
  match (← peek?).bind select with
  | some selected =>
    advance
    pure selected
  | none => fail

/-- Take the given token. -/
def expect (token : Token) : Parser Unit :=
  take fun found => if found = token then some () else none

/-- Take the given character. -/
def expectChar (c : Char) : Parser Unit :=
  expect (.other c)

/-- Take the given character if it is next, and say whether it was. -/
def acceptChar (c : Char) : Parser Bool := do
  if (← peek?) = some (.other c) then
    advance
    pure true
  else pure false

/-- Take a name. -/
def symbol : Parser String :=
  take fun
    | .symbol name => some name
    | _ => none

/-- Take an integer. -/
def integer : Parser Int :=
  take fun
    | .int n => some n
    | _ => none

/-- Take something; after a fault, pass over tokens up to one at which reading can go on. -/
def recovering (stop : Token → Bool) (parser : Parser α) : Parser (Option α) :=
  OptionT.mk do
    match ← parser.run with
    | some result => pure (some (some result))
    | none =>
      modify (Cursor.skipTo stop)
      pure (some none)

/-- Take one or more items separated by commas. -/
def commaList (item : Parser α) : Nat → Parser (List α)
  | 0 => fail
  | fuel + 1 => do
    let first ← item
    if ← acceptChar ',' then
      let others ← commaList item fuel
      pure (first :: others)
    else pure [first]

/-- Take items separated by commas, perhaps none, up to a closing parenthesis. -/
def closedList (item : Parser α) (fuel : Nat) : Parser (List α) := do
  if ← acceptChar ')' then pure []
  else
    let items ← commaList item fuel
    expectChar ')'
    pure items

/-- Take a type that a colon announces; without one there is no result. -/
def resultType (ty : Parser Ty) : Parser Ty := do
  if ← acceptChar ':' then ty else pure .unit

/-- Take a type. -/
def type : Nat → Parser Ty
  | 0 => fail
  | fuel + 1 => do
    match ← peek? with
    | some (.keyword .i32) => do
      advance
      pure .i32
    | some (.other '*') => do
      advance
      let target ← type fuel
      pure (.pointer target)
    | some (.other '[') => do
      advance
      let element ← type fuel
      expectChar ','
      let length ← integer
      expectChar ']'
      pure (.array element length)
    | some (.other '(') => do
      advance
      let params ← closedList (type fuel) fuel
      let ret ← resultType (type fuel)
      pure (.func params ret)
    | _ => fail

/-- Take what is read as a value. -/
def atom : Parser Atom :=
  take fun
    | .symbol name => some (.symbol name)
    | .int n => some (.int n)
    | .keyword .undef => some .undef
    | _ => none

/-- Take an initial value. -/
def init : Nat → Parser Init
  | 0 => fail
  | fuel + 1 => do
    match ← peek? with
    | some (.int n) => do
      advance
      pure (.int n)
    | some (.keyword .undef) => do
      advance
      pure .undef
    | some (.keyword .zeroinit) => do
      advance
      pure .zeroinit
    | some (.other '\x7b') => do
      advance
      let elements ← commaList (init fuel) fuel
      expectChar '\x7d'
      pure (.aggregate elements)
    | _ => fail

/-- Take the arguments of a call, after its keyword: the function and its arguments. -/
def callTail (fuel : Nat) : Parser (String × List Atom) := do
  let callee ← symbol
  expectChar '('
  let args ← closedList atom fuel
  pure (callee, args)

/-- Take what defines a value. -/
def expr (fuel : Nat) : Parser Expr := do
  match ← peek? with
  | some (.keyword .alloc) => do
    advance
    let ty ← type fuel
    pure (.alloc ty)
  | some (.keyword .load) => do
    advance
    let src ← symbol
    pure (.load src)
  | some (.keyword .getptr) => do
    advance
    let src ← symbol
    expectChar ','
    let index ← atom
    pure (.getPtr src index)
  | some (.keyword .getelemptr) => do
    advance
    let src ← symbol
    expectChar ','
    let index ← atom
    pure (.getElemPtr src index)
  | some (.operator op) => do
    advance
    let lhs ← atom
    expectChar ','
    let rhs ← atom
    pure (.binary op lhs rhs)
  | some (.keyword .call) => do
    advance
    let (callee, args) ← callTail fuel
    pure (.call callee args)
  | _ => fail

/-- Take what is stored. -/
def stored (fuel : Nat) : Parser Stored := do
  match ← peek? with
  | some (.symbol name) => do
    advance
    pure (.symbol name)
  | _ => do
    let value ← init fuel
    pure (.init value)

/-- Take a block name and the arguments for it. -/
def goto (fuel : Nat) : Parser Goto := do
  let target ← symbol
  let args ← if ← acceptChar '(' then closedList atom fuel else pure []
  pure { target, args }

/-- The line of the next token. -/
def line? : Parser (Option Nat) := do
  return (← get).tokens.head?.map Lined.line

/-- Take the value of a return on the given line: there is one exactly if another token starts on
that line. -/
def returned (line : Option Nat) : Parser (Option Atom) := do
  let next ← line?
  if next.isSome && next == line then
    let value ← atom
    pure (some value)
  else pure none

/-- Take a statement, or the end of a block. -/
def stmtOrEnd (fuel : Nat) : Parser (Stmt ⊕ End) := do
  let line ← line?
  match ← peek? with
  | some (.symbol name) => do
    advance
    expectChar '='
    let value ← expr fuel
    pure (.inl (.define name value))
  | some (.keyword .store) => do
    advance
    let value ← stored fuel
    expectChar ','
    let dest ← symbol
    pure (.inl (.store value dest))
  | some (.keyword .call) => do
    advance
    let (callee, args) ← callTail fuel
    pure (.inl (.call callee args))
  | some (.keyword .br) => do
    advance
    let cond ← atom
    expectChar ','
    let onTrue ← goto fuel
    expectChar ','
    let onFalse ← goto fuel
    pure (.inr (.br cond onTrue onFalse))
  | some (.keyword .jump) => do
    advance
    let target ← goto fuel
    pure (.inr (.jump target))
  | some (.keyword .ret) => do
    advance
    let value ← returned line
    pure (.inr (.ret value))
  | _ => fail

/-- Whether a token starts an item. -/
def startsItem : Token → Bool
  | .keyword .global | .keyword .decl | .keyword .func => true
  | _ => false

/-- Whether a token starts a statement or the end of a block. -/
def startsStmt : Token → Bool
  | .symbol _ | .keyword .store | .keyword .call => true
  | .keyword .br | .keyword .jump | .keyword .ret => true
  | _ => false

/-- Whether reading can go on at a token after a fault inside a block: at a statement, at the
closing brace of the function, or at another item. -/
def resumesBlock (token : Token) : Bool :=
  startsStmt token || token == .other '\x7d' || startsItem token

/-- Take the statements of a block and its end, in at most so many rounds. Statements with a fault
are left out. After a fault the closing brace ends a block that has no end of its own. -/
def blockBody (fuel : Nat) : Nat → Parser (List Stmt × Option End)
  | 0 => fail
  | rounds + 1 => do
    match ← recovering resumesBlock (stmtOrEnd fuel) with
    | some (.inl first) => do
      let (others, last) ← blockBody fuel rounds
      pure (first :: others, last)
    | some (.inr last) => pure ([], some last)
    | none => do
      match ← peek? with
      | some (.other '\x7d') => pure ([], none)
      | some token => if startsStmt token then blockBody fuel rounds else failure
      | none => failure

/-- Take a parameter with its type. -/
def param (fuel : Nat) : Parser (String × Ty) := do
  let name ← symbol
  expectChar ':'
  let ty ← type fuel
  pure (name, ty)

/-- Take a block. -/
def block (fuel : Nat) : Parser BlockDef := do
  let name ← symbol
  let params ← if ← acceptChar '(' then closedList (param fuel) fuel else pure []
  expectChar ':'
  let (stmts, last) ← blockBody fuel fuel
  pure { name, params, stmts, ending := last }

/-- Take one or more blocks up to a closing brace. -/
def blocks (fuel : Nat) : Nat → Parser (List BlockDef)
  | 0 => fail
  | rounds + 1 => do
    let first ← block fuel
    if ← acceptChar '\x7d' then pure [first]
    else
      let others ← blocks fuel rounds
      pure (first :: others)

/-- Take a global variable, a declaration or a function. -/
def item (fuel : Nat) : Parser Item := do
  match ← peek? with
  | some (.keyword .global) => do
    advance
    let name ← symbol
    expectChar '='
    expect (.keyword .alloc)
    let ty ← type fuel
    expectChar ','
    let value ← init fuel
    pure (.global name ty value)
  | some (.keyword .decl) => do
    advance
    let name ← symbol
    expectChar '('
    let params ← closedList (type fuel) fuel
    let ret ← resultType (type fuel)
    pure (.decl name params ret)
  | some (.keyword .func) => do
    advance
    let name ← symbol
    expectChar '('
    let params ← closedList (param fuel) fuel
    let ret ← resultType (type fuel)
    expectChar '\x7b'
    let body ← blocks fuel fuel
    pure (.func name params ret body)
  | _ => fail

end Parser

/-- What has been read of a text in one round. -/
structure Reading where
  /-- The item, if it could be read. -/
  item : Option Item
  /-- The number of faults met. -/
  faults : Nat
deriving Repr, Inhabited

/-- Read items until no token is left, in at most so many rounds. -/
def parseFrom (fuel : Nat) : Nat → List Lined → List Reading
  | _, [] => []
  | 0, _ => [⟨none, 1⟩]
  | rounds + 1, tokens =>
    let reader := Parser.recovering Parser.startsItem (Parser.item fuel)
    let (item, cursor) := reader.run ⟨tokens, 0⟩
    ⟨item.join, cursor.faults⟩ :: parseFrom fuel rounds cursor.tokens

/-- Read a Koopa text. Nothing is read of a text whose first token is invalid. -/
def parseItems (text : String) : List Reading :=
  match lex text with
  | ⟨.invalid, _⟩ :: _ => [⟨none, 1⟩]
  | tokens =>
    let bound := tokens.length + 1
    parseFrom bound bound tokens

end Rejoin.Koopa
