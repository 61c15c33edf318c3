/-!
# Tokens of a listing

A `Token` is what the lexer hands on. A `Terminal` is the class a token belongs to, which is all
that decides whether it may stand at a place.
-/

namespace Rejoin.Listing

/-- A token of a listing. Names include their sign, labels exclude their colon. -/
inductive Token where
  /-- The comma. -/
  | comma
  /-- The arrow before a defined value. -/
  | arrow
  /-- The word `br`. -/
  | br
  /-- The word `func`. -/
  | func
  /-- The word `jmp`. -/
  | jmp
  /-- The word `ret`. -/
  | ret
  /-- The opening brace. -/
  | opening
  /-- The closing brace. -/
  | closing
  /-- A value name, which starts with a percent sign. -/
  | value (name : String)
  /-- An integer literal of any size. -/
  | int (n : Int)
  /-- A symbol name, which starts with an at sign. -/
  | symbol (name : String)
  /-- A word that is none of the four above. -/
  | ident (name : String)
  /-- A word that a colon follows directly. -/
  | label (name : String)
deriving DecidableEq, Repr, Inhabited

/-- The classes of tokens. -/
inductive Terminal where
  | comma | arrow | br | func | jmp | ret | opening | closing | value | int | symbol | ident | label
deriving DecidableEq, Repr, Inhabited

/-- The class of a token. -/
def Token.terminal : Token → Terminal
  | comma => .comma
  | arrow => .arrow
  | br => .br
  | func => .func
  | jmp => .jmp
  | ret => .ret
  | opening => .opening
  | closing => .closing
  | value _ => .value
  | int _ => .int
  | symbol _ => .symbol
  | ident _ => .ident
  | label _ => .label

namespace Terminal

/-- All classes, in the order in which expectations are listed. -/
def all : List Terminal :=
  [comma, arrow, br, func, jmp, ret, opening, closing, value, int, symbol, ident, label]

/-- Some token of the class. -/
def sample : Terminal → Token
  | comma => .comma
  | arrow => .arrow
  | br => .br
  | func => .func
  | jmp => .jmp
  | ret => .ret
  | opening => .opening
  | closing => .closing
  | value => .value "%x"
  | int => .int 0
  | symbol => .symbol "@x"
  | ident => .ident "x"
  | label => .label "x"

/-- How a class is written in an expectation: fixed tokens in quotes, the others by the pattern of
their characters. -/
def describe : Terminal → String
  | comma => "\",\""
  | arrow => "\"->\""
  | br => "\"br\""
  | func => "\"func\""
  | jmp => "\"jmp\""
  | ret => "\"ret\""
  | opening => "\"\x7b\""
  | closing => "\"\x7d\""
  | value => "r#\"%[A-Za-z0-9_.]+\"#"
  | int => "r#\"-?[0-9]+\"#"
  | symbol => "r#\"@[A-Za-z0-9_.]+\"#"
  | ident => "r#\"[A-Za-z_][A-Za-z0-9_.]*\"#"
  | label => "r#\"[A-Za-z_][A-Za-z0-9_.]*:\"#"

/-- Whether a token of the class can show that an operand before it is complete. -/
def closesOperand : Terminal → Bool
  | comma | arrow | br | jmp | ret | closing | ident | label => true
  | func | opening | value | int | symbol => false

end Terminal

end Rejoin.Listing
