import Rejoin.Text.Numeral

/-!
# Tokens of Koopa texts

A Koopa text is read byte by byte, each byte being taken as the character with the same number. At
every place the longest token is taken, blanks and comments are dropped, and a token remembers the
line it starts on, because a line break decides whether a return has a value. Where no token can be
read there is an `invalid` one, and reading goes on after it.
-/

namespace Rejoin.Koopa

/-- The reserved words that are not operators. -/
inductive Keyword where
  | i32 | undef | zeroinit | global | alloc | load | store | getptr | getelemptr
  | br | jump | call | ret | func | decl
deriving DecidableEq, Repr, Inhabited

/-- The binary operators. -/
inductive BinaryOp where
  | ne | eq | gt | lt | ge | le | add | sub | mul | div | mod | and | or | xor | shl | shr | sar
deriving DecidableEq, Repr, Inhabited

/-- A token of a Koopa text. -/
inductive Token where
  /-- A name with its sign. -/
  | symbol (name : String)
  /-- An integer that fits 64 bits. -/
  | int (n : Int)
  /-- A reserved word. -/
  | keyword (word : Keyword)
  /-- A binary operator. -/
  | operator (op : BinaryOp)
  /-- Any other character. -/
  | other (c : Char)
  /-- A place that cannot be read. -/
  | invalid
deriving DecidableEq, Repr, Inhabited

/-- The reserved word with a spelling. -/
def Keyword.ofName? : String → Option Keyword
  | "i32" => some .i32
  | "undef" => some .undef
  | "zeroinit" => some .zeroinit
  | "global" => some .global
  | "alloc" => some .alloc
  | "load" => some .load
  | "store" => some .store
  | "getptr" => some .getptr
  | "getelemptr" => some .getelemptr
  | "br" => some .br
  | "jump" => some .jump
  | "call" => some .call
  | "ret" => some .ret
  | "fun" => some .func
  | "decl" => some .decl
  | _ => none

namespace BinaryOp

/-- The operator with a spelling. -/
def ofName? : String → Option BinaryOp
  | "ne" => some ne
  | "eq" => some eq
  | "gt" => some gt
  | "lt" => some lt
  | "ge" => some ge
  | "le" => some le
  | "add" => some add
  | "sub" => some sub
  | "mul" => some mul
  | "div" => some div
  | "mod" => some mod
  | "and" => some and
  | "or" => some or
  | "xor" => some xor
  | "shl" => some shl
  | "shr" => some shr
  | "sar" => some sar
  | _ => none

/-- The opcode of an operator: its spelling, but `noteq` for `ne`. -/
def opcode : BinaryOp → String
  | ne => "noteq"
  | eq => "eq"
  | gt => "gt"
  | lt => "lt"
  | ge => "ge"
  | le => "le"
  | add => "add"
  | sub => "sub"
  | mul => "mul"
  | div => "div"
  | mod => "mod"
  | and => "and"
  | or => "or"
  | xor => "xor"
  | shl => "shl"
  | shr => "shr"
  | sar => "sar"

end BinaryOp

/-- The blanks among the first 256 characters. -/
def isSpace (c : Char) : Bool :=
  let n := c.toNat
  (0x09 ≤ n && n ≤ 0x0D) || n == 0x20 || n == 0x85 || n == 0xA0

/-- The letters among the first 256 characters. -/
def isLetter (c : Char) : Bool :=
  let n := c.toNat
  c.isAlpha || n == 0xAA || n == 0xB5 || n == 0xBA ||
    (0xC0 ≤ n && n ≤ 0xFF && n != 0xD7 && n != 0xF7)

/-- The numerals among the first 256 characters: digits, superscripts and fractions. -/
def isNumeral (c : Char) : Bool :=
  let n := c.toNat
  c.isDigit || n == 0xB2 || n == 0xB3 || n == 0xB9 || (0xBC ≤ n && n ≤ 0xBE)

/-- Letters, numerals and the underscore. -/
def isNameChar (c : Char) : Bool :=
  isLetter c || isNumeral c || c == '_'

/-- Something to drop, or a token, with its number of characters. -/
inductive Lexeme where
  /-- A blank or a comment. -/
  | gap (length : Nat)
  /-- A token. -/
  | token (token : Token) (length : Nat)
deriving DecidableEq, Repr, Inhabited

/-- The number of characters up to the end of a comment that ends with a star and a slash. -/
def commentLength? : List Char → Option Nat
  | [] => none
  | '*' :: '/' :: _ => some 2
  | _ :: rest => (commentLength? rest).map (· + 1)

/-- Characters that cannot be read. -/
def invalidLexeme (length : Nat) : Lexeme :=
  .token .invalid length

/-- A name made of a sign and a body. A sign without a body cannot be read. -/
def nameLexeme (sign : Char) : List Char → Lexeme
  | [] => invalidLexeme 1
  | body => .token (.symbol (String.ofList (sign :: body))) (body.length + 1)

/-- The name that a sign starts. Names of numerals exist only with the percent sign, and a zero is
such a name by itself. -/
def symbolLexeme (sign : Char) (rest : List Char) : Lexeme :=
  match rest with
  | [] => invalidLexeme 1
  | c :: _ =>
    if isNumeral c then
      if sign == '@' then invalidLexeme 1
      else if c == '0' then nameLexeme sign ['0']
      else nameLexeme sign (rest.takeWhile isNumeral)
    else nameLexeme sign (rest.takeWhile isNameChar)

/-- The integer at the head of a text, whose first character is a minus sign or a numeral. One that
does not fit 64 bits cannot be read. -/
def intLexeme (first : Char) (rest : List Char) : Lexeme :=
  let text := first :: rest.takeWhile isNumeral
  match (readInt? text).bind int64? with
  | some n => .token (.int n.toInt) text.length
  | none => invalidLexeme text.length

/-- The reserved word or operator at the head of a text that starts with a letter. Other words
cannot be read. -/
def wordLexeme (text : List Char) : Lexeme :=
  let word := text.takeWhile fun c => isLetter c || isNumeral c
  let name := String.ofList word
  match Keyword.ofName? name, BinaryOp.ofName? name with
  | some keyword, _ => .token (.keyword keyword) word.length
  | none, some op => .token (.operator op) word.length
  | none, none => invalidLexeme word.length

/-- The lexeme at the head of a text, given its first character and the others. A comment that does
not end cannot be read, and neither can a slash that starts no comment. -/
def lexeme : Char → List Char → Lexeme
  | '/', '/' :: rest => .gap ((rest.takeWhile fun c => c != '\n' && c != '\r').length + 2)
  | '/', '*' :: rest =>
    match commentLength? rest with
    | some n => .gap (n + 2)
    | none => invalidLexeme (rest.length + 2)
  | '/', _ => invalidLexeme 1
  | c, rest =>
    if isSpace c then .gap 1
    else if c == '@' || c == '%' then symbolLexeme c rest
    else if isLetter c then wordLexeme (c :: rest)
    else if c == '-' || isNumeral c then intLexeme c rest
    else .token (.other c) 1

/-- A token and the line it starts on. -/
structure Lined where
  /-- The token. -/
  token : Token
  /-- The number of line feeds before it. -/
  line : Nat
deriving DecidableEq, Repr, Inhabited

/-- Read the tokens of a text whose first character is on the given line and whose first `skip`
characters belong to a lexeme already read. -/
def lexFrom (skip line : Nat) : List Char → List Lined
  | [] => []
  | c :: rest =>
    let after := if c == '\n' then line + 1 else line
    match skip with
    | skip + 1 => lexFrom skip after rest
    | 0 =>
      match lexeme c rest with
      | .gap length => lexFrom (length - 1) after rest
      | .token token length => ⟨token, line⟩ :: lexFrom (length - 1) after rest

/-- The bytes of a text as characters. -/
def byteChars (text : String) : List Char :=
  text.toUTF8.toList.map fun byte => Char.ofNat byte.toNat

/-- Read the tokens of a text. -/
def lex (text : String) : List Lined :=
  lexFrom 0 0 (byteChars text)

end Rejoin.Koopa
