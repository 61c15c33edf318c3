import Rejoin.Listing.Token
import Rejoin.Text.Numeral
import Rejoin.Text.Span

/-!
# The lexer of listings

At every place the longest token is taken. Blanks and comments, which run from two slashes to the
end of the line, stand between tokens and are dropped. Where no token starts the lexer stops and
says where.
-/

namespace Rejoin.Listing

/-- The blanks of a listing. -/
def isGapChar (c : Char) : Bool :=
  c == ' ' || c == '\t' || c == '\r' || c == '\n'

/-- The characters a comment may hold. -/
def isCommentChar (c : Char) : Bool :=
  c != '\n' && c != '\r'

/-- The characters a word may start with. -/
def isWordStart (c : Char) : Bool :=
  c.isAlpha || c == '_'

/-- The characters a word or a name may go on with. -/
def isWordChar (c : Char) : Bool :=
  c.isAlphanum || c == '_' || c == '.'

/-- The token a word is: four words are reserved. -/
def wordToken (word : List Char) : Token :=
  let name := String.ofList word
  if name = "br" then .br
  else if name = "func" then .func
  else if name = "jmp" then .jmp
  else if name = "ret" then .ret
  else .ident name

/-- What stands at the head of a text: something to drop, or a token. Both come with their number
of characters. -/
inductive Lexeme where
  /-- A blank or a comment. -/
  | gap (length : Nat)
  /-- A token. -/
  | token (token : Token) (length : Nat)
deriving DecidableEq, Repr, Inhabited

/-- A sign followed by a nonempty run of word characters. -/
def signedName? (make : String → Token) (sign : Char) (rest : List Char) : Option Lexeme :=
  match rest.takeWhile isWordChar with
  | [] => none
  | body => some (.token (make (String.ofList (sign :: body))) (body.length + 1))

/-- A run of digits, with the number of characters before it. -/
def integer? (sign : List Char) (rest : List Char) : Option Lexeme :=
  let digits := rest.takeWhile Char.isDigit
  (readInt? (sign ++ digits)).map fun n => .token (.int n) (sign.length + digits.length)

/-- A word, which is a label if a colon follows it directly. -/
def wordLexeme (text : List Char) : Lexeme :=
  let word := text.takeWhile isWordChar
  match text.dropWhile isWordChar with
  | ':' :: _ => .token (.label (String.ofList word)) (word.length + 1)
  | _ => .token (wordToken word) word.length

/-- The longest lexeme at the head of a text. -/
def lexeme? : List Char → Option Lexeme
  | [] => none
  | ',' :: _ => some (.token .comma 1)
  | '\x7b' :: _ => some (.token .opening 1)
  | '\x7d' :: _ => some (.token .closing 1)
  | '-' :: '>' :: _ => some (.token .arrow 2)
  | '-' :: rest => integer? ['-'] rest
  | '/' :: '/' :: rest => some (.gap ((rest.takeWhile isCommentChar).length + 2))
  | '%' :: rest => signedName? .value '%' rest
  | '@' :: rest => signedName? .symbol '@' rest
  | c :: rest =>
    if isGapChar c then some (.gap 1)
    else if c.isDigit then integer? [] (c :: rest)
    else if isWordStart c then some (wordLexeme (c :: rest))
    else none

/-- How a text ended for the lexer. -/
inductive Ending where
  /-- The whole text was read. -/
  | complete
  /-- At this byte no token starts. -/
  | invalid (position : Nat)
deriving DecidableEq, Repr, Inhabited

/-- What the lexer made of a text. -/
structure Lexed where
  /-- The tokens in order. -/
  tokens : List (Spanned Token)
  /-- What stopped the lexer. -/
  ending : Ending
deriving DecidableEq, Repr, Inhabited

/-- Read the tokens of a text whose first character is at byte `position` and whose first `skip`
characters belong to a lexeme already read. -/
def lexFrom (skip position : Nat) : List Char → Lexed
  | [] => ⟨[], .complete⟩
  | c :: rest =>
    match skip with
    | skip + 1 => lexFrom skip (position + c.utf8Size) rest
    | 0 =>
      match lexeme? (c :: rest) with
      | none => ⟨[], .invalid position⟩
      | some (.gap length) => lexFrom (length - 1) (position + c.utf8Size) rest
      | some (.token token length) =>
        let after := lexFrom (length - 1) (position + c.utf8Size) rest
        let stop := position + byteLength ((c :: rest).take length)
        ⟨⟨token, ⟨position, stop⟩⟩ :: after.tokens, after.ending⟩

/-- Read the tokens of a text. -/
def lex (text : List Char) : Lexed :=
  lexFrom 0 0 text

end Rejoin.Listing
