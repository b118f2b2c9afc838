import SchemaSql.Keyword
import SchemaSql.Text.Escape
import SchemaSql.Unicode.Uppercase

/-!
# Tokens — the words, literals and signs of a text

A token is what the lexer reads at one place of a text.  Blanks and comments are tokens too,
since some clauses keep the text they were written with.  `Token.text` writes a token: it is
the spelling that the lexer reads back, except that a sign with two spellings has one text.
-/

namespace SchemaSql

/-- A place in a text: line and column count from 1, columns in characters.  Line 0 stands
    for no place. -/
structure Location where
  line   : Nat := 0
  column : Nat := 0
  deriving DecidableEq, Repr, Inhabited

namespace Location

/-- The start of a text. -/
def start : Location := ⟨1, 1⟩

/-- The place after one more character. -/
def next (loc : Location) (c : Char) : Location :=
  if c = '\n' then ⟨loc.line + 1, 1⟩ else ⟨loc.line, loc.column + 1⟩

/-- The place after `cs`. -/
def advance (loc : Location) (cs : List Char) : Location := cs.foldl next loc

/-- How a message mentions the place; nothing is said about no place. -/
def text (loc : Location) : String :=
  if loc.line = 0 then ""
  else " at Line: " ++ toString loc.line ++ ", Column: " ++ toString loc.column

end Location

/-- A blank or a comment. -/
inductive Whitespace where
  | space
  | newline
  | tab
  /-- From `opener` to the end of the line, which belongs to `content` when there is one. -/
  | lineComment (content opener : String)
  /-- The text between the comment signs. -/
  | blockComment (content : String)
  deriving DecidableEq, Repr, Inhabited

/-- The text of a blank or a comment. -/
def Whitespace.text : Whitespace → String
  | .space => " "
  | .newline => "\n"
  | .tab => "\t"
  | .lineComment content opener => opener ++ content
  | .blockComment content => "/*" ++ content ++ "*/"

/-- The quote that closes what `quote` opens. -/
def closingQuote (quote : Char) : Char :=
  if quote = '[' then ']' else quote

/-- How messages and data name the keyword of a word; `none` is a word that is no keyword. -/
def Keyword.label : Option Keyword → String
  | some keyword => keyword.name
  | none => "NoKeyword"

/-- A word: an identifier between quotes, or a bare word, which may be a keyword. -/
structure Word where
  value   : String
  quote   : Option Char := none
  keyword : Option Keyword := none
  deriving DecidableEq, Repr, Inhabited

namespace Word

/-- The word with this spelling.  A bare word is a keyword when its upper-case form is the
    name of one; a quoted word never is. -/
def of (value : String) (quote : Option Char) : Word where
  value := value
  quote := quote
  keyword := if quote.isNone then Keyword.find? (Unicode.upper value) else none

/-- The text of a word, between its quotes if it has them. -/
def text (w : Word) : String :=
  match w.quote with
  | some q => q.toString ++ w.value ++ (closingQuote q).toString
  | none => w.value

end Word

/-- What the lexer reads at one place. -/
inductive Token where
  /-- The end of the text. -/
  | eof
  | word (w : Word)
  /-- Digits with at most one period, and whether an `L` follows them. -/
  | number (digits : String) (long : Bool)
  /-- A character that is nothing else. -/
  | char (c : Char)
  | singleQuoted (value : String)
  | doubleQuoted (value : String)
  | whitespace (ws : Whitespace)
  | comma
  | doubleEq
  | eq
  | neq
  | lt
  | gt
  | ltEq
  | gtEq
  | spaceship
  | plus
  | minus
  | mul
  | div
  | mod
  | concat
  | lparen
  | rparen
  | period
  | colon
  | doubleColon
  | semicolon
  | lbracket
  | rbracket
  | ampersand
  | pipe
  | caret
  | pipeArrow
  deriving DecidableEq, Repr, Inhabited

namespace Token

/-- The text of a token. -/
def text : Token → String
  | .eof => "EOF"
  | .word w => w.text
  | .number digits long => digits ++ (if long then "L" else "")
  | .char c => c.toString
  | .singleQuoted value => Text.enclose '\'' value
  | .doubleQuoted value => Text.enclose '"' value
  | .whitespace ws => ws.text
  | .comma => ","
  | .doubleEq => "=="
  | .eq => "="
  | .neq => "<>"
  | .lt => "<"
  | .gt => ">"
  | .ltEq => "<="
  | .gtEq => ">="
  | .spaceship => "<=>"
  | .plus => "+"
  | .minus => "-"
  | .mul => "*"
  | .div => "/"
  | .mod => "%"
  | .concat => "||"
  | .lparen => "("
  | .rparen => ")"
  | .period => "."
  | .colon => ":"
  | .doubleColon => "::"
  | .semicolon => ";"
  | .lbracket => "["
  | .rbracket => "]"
  | .ampersand => "&"
  | .pipe => "|"
  | .caret => "^"
  | .pipeArrow => "|>"

/-- Whether the token is a blank or a comment. -/
def isWhitespace : Token → Bool
  | .whitespace _ => true
  | _ => false

/-- The keyword of a word. -/
def keyword? : Token → Option Keyword
  | .word w => w.keyword
  | _ => none

/-- The keyword of a word without quotes. -/
def bareKeyword? : Token → Option Keyword
  | .word w => if w.quote.isNone then w.keyword else none
  | _ => none

end Token

/-- A token and the place where it starts. -/
structure Located where
  token    : Token
  location : Location := {}
  deriving DecidableEq, Repr, Inhabited

/-- The end of the text, which has no place. -/
def Located.eof : Located := { token := .eof }

end SchemaSql
