import SchemaSql.Dialect
import SchemaSql.Token

/-!
# The lexer — a text as located tokens

`Token.scan` reads one token: from the first character of a text it tells the token and how
many of the characters after the first belong to it.  `Token.lexFrom` repeats that from token
to token and keeps track of the place.  A text is refused for one of three reasons, all of
them about something opened and never closed.
-/

namespace SchemaSql

/-- What makes a text unreadable. -/
inductive LexFault where
  | unterminatedString
  | unclosedIdentifier (close : Char)
  | unclosedComment
  deriving DecidableEq, Repr, Inhabited

/-- What a message says about the fault. -/
def LexFault.text : LexFault → String
  | .unterminatedString => "Unterminated string literal"
  | .unclosedIdentifier close => "Expected close delimiter '" ++ close.toString ++ "' before EOF."
  | .unclosedComment => "Unexpected EOF while in a multi-line comment"

/-- A fault and its place: where the string or identifier opens, or where the text ends in a
    comment. -/
structure LexError where
  fault    : LexFault
  location : Location
  deriving DecidableEq, Repr, Inhabited

/-- The message for a text that cannot be read. -/
def LexError.message (e : LexError) : String := e.fault.text ++ e.location.text

/-! ## String literals -/

/-- The character that a backslash and the character behind it stand for. -/
def escapeValue : Char → Char
  | 'n' => '\n'
  | 't' => '\t'
  | 'r' => '\r'
  | '0' => '\x00'
  | c => c

/-- Reads a string literal behind its opening quote: its text, and how many characters were read,
    the closing quote included.  A quote is written twice, and where `backslash` escapes, a
    backslash and the character behind it are one character; with `unescape` the text has what
    they stand for, otherwise what was written. -/
def readString (unescape backslash : Bool) (quote : Char) : List Char → Option (List Char × Nat)
  | [] => none
  | [c] => if c = quote then some ([], 1) else none
  | c :: d :: rest =>
    if c = quote then
      if d = quote then
        push (if unescape then [quote] else [quote, quote]) 2 <$>
          readString unescape backslash quote rest
      else some ([], 1)
    else if c = '\\' && backslash then
      push (if unescape then [escapeValue d] else [c, d]) 2 <$>
        readString unescape backslash quote rest
    else push [c] 1 <$> readString unescape backslash quote (d :: rest)
where
  /-- Characters in front of a text, and how many were read for them. -/
  push (chars : List Char) (width : Nat) (found : List Char × Nat) : List Char × Nat :=
    (chars ++ found.1, found.2 + width)

/-! ## Comments -/

/-- The text of a comment up to the end of its line, which it includes. -/
def lineCommentContent : List Char → List Char
  | [] => []
  | c :: rest => if c = '\n' then [c] else c :: lineCommentContent rest

/-- The text of a block comment up to the slash that closes it, or `none` if the text ends
    first.  `inner` counts the comments open inside this one and `last` is the character
    before. -/
def blockCommentContent : (inner : Nat) → (last : Char) → List Char → Option (List Char)
  | _, _, [] => none
  | inner, last, c :: rest =>
    if last = '/' && c = '*' then (c :: ·) <$> blockCommentContent (inner + 1) c rest
    else if last = '*' && c = '/' then
      match inner with
      | 0 => some []
      | inner + 1 => (c :: ·) <$> blockCommentContent inner c rest
    else (c :: ·) <$> blockCommentContent inner c rest

namespace Token

/-- The number that starts with the digit `c`: digits, one period, digits, and an `L`. -/
def scanNumber (c : Char) (cs : List Char) : Token × Nat :=
  let whole := cs.takeWhile Char.isDigit
  let point := (cs.drop whole.length).head? == some '.'
  let fraction :=
    if point then (cs.drop (whole.length + 1)).takeWhile Char.isDigit else []
  let digits := if point then whole ++ '.' :: fraction else whole
  if (cs.drop digits.length).head? == some 'L' then
    (.number (String.ofList (c :: digits)) true, digits.length + 1)
  else (.number (String.ofList (c :: digits)) false, digits.length)

/-- The sign that starts with `c`, the longest one that fits. -/
def scanSign (c : Char) (cs : List Char) : Token × Nat :=
  match c, cs with
  | '(', _ => (.lparen, 0)
  | ')', _ => (.rparen, 0)
  | ',', _ => (.comma, 0)
  | '-', _ => (.minus, 0)
  | '/', _ => (.div, 0)
  | '+', _ => (.plus, 0)
  | '*', _ => (.mul, 0)
  | '%', _ => (.mod, 0)
  | '|', '|' :: _ => (.concat, 1)
  | '|', '>' :: _ => (.pipeArrow, 1)
  | '|', _ => (.pipe, 0)
  | '=', '=' :: _ => (.doubleEq, 1)
  | '=', _ => (.eq, 0)
  | '!', '=' :: _ => (.neq, 1)
  | '<', '=' :: '>' :: _ => (.spaceship, 2)
  | '<', '=' :: _ => (.ltEq, 1)
  | '<', '>' :: _ => (.neq, 1)
  | '<', _ => (.lt, 0)
  | '>', '=' :: _ => (.gtEq, 1)
  | '>', _ => (.gt, 0)
  | ':', ':' :: _ => (.doubleColon, 1)
  | ':', _ => (.colon, 0)
  | ';', _ => (.semicolon, 0)
  | '[', _ => (.lbracket, 0)
  | ']', _ => (.rbracket, 0)
  | '&', _ => (.ampersand, 0)
  | '^', _ => (.caret, 0)
  | '.', _ => (.period, 0)
  | _, _ => (.char c, 0)

/-- The string literal whose opening quote stands before `cs`. -/
def scanString (dialect : Dialect) (unescape : Bool) (quote : Char) (make : String → Token)
    (cs : List Char) : Except LexFault (Token × Nat) :=
  match readString unescape dialect.backslashEscape quote cs with
  | none => .error .unterminatedString
  | some (text, width) => .ok (make (String.ofList text), width)

/-- The quoted identifier whose opening quote stands before `cs`.  Its text is taken as it
    stands up to the closing quote. -/
def scanQuotedIdentifier (quote : Char) (cs : List Char) : Except LexFault (Token × Nat) :=
  let value := cs.takeWhile (· != closingQuote quote)
  if value.length < cs.length then
    .ok (.word (Word.of (String.ofList value) (some quote)), value.length + 1)
  else .error (.unclosedIdentifier (closingQuote quote))

/-- The block comment whose opening sign stands before `cs`, all but its first character. -/
def scanBlockComment (cs : List Char) : Except LexFault (Token × Nat) :=
  match blockCommentContent 0 ' ' cs with
  | none => .error .unclosedComment
  | some content =>
    .ok (.whitespace (.blockComment (String.ofList content.dropLast)), content.length + 2)

/-- The token at the start of `c :: cs`, and how many characters of `cs` belong to it.  Blanks
    come first, then bare words, so that a letter never starts anything else. -/
def scan (dialect : Dialect) (unescape : Bool) (c : Char) (cs : List Char) :
    Except LexFault (Token × Nat) :=
  if c = ' ' then .ok (.whitespace .space, 0)
  else if c = '\t' then .ok (.whitespace .tab, 0)
  else if c = '\n' then .ok (.whitespace .newline, 0)
  else if c = '\r' then .ok (.whitespace .newline, if cs.head? = some '\n' then 1 else 0)
  else if dialect.startsIdentifier c then
    let rest := cs.takeWhile dialect.continuesIdentifier
    .ok (.word (Word.of (String.ofList (c :: rest)) none), rest.length)
  else if c = '\'' then scanString dialect unescape c .singleQuoted cs
  else if dialect.opensQuotedIdentifier c then scanQuotedIdentifier c cs
  else if c = '"' then scanString dialect unescape c .doubleQuoted cs
  else if c.isDigit then .ok (scanNumber c cs)
  else match c, cs with
    | '-', '-' :: rest =>
      let content := lineCommentContent rest
      .ok (.whitespace (.lineComment (String.ofList content) "--"), content.length + 1)
    | '/', '*' :: rest => scanBlockComment rest
    | _, _ => .ok (scanSign c cs)

/-- The place where a fault found in `cs`, which starts at `loc`, is reported. -/
def faultLocation (loc : Location) (cs : List Char) : LexFault → Location
  | .unclosedComment => loc.advance cs
  | _ => loc

/-- The tokens of `cs`, which starts at `loc`. -/
def lexFrom (dialect : Dialect) (unescape : Bool) (loc : Location) :
    List Char → Except LexError (List Located)
  | [] => .ok []
  | c :: cs =>
    match scan dialect unescape c cs with
    | .error fault => .error ⟨fault, faultLocation loc (c :: cs) fault⟩
    | .ok (token, width) =>
      (⟨token, loc⟩ :: ·) <$>
        lexFrom dialect unescape (loc.advance (c :: cs.take width)) (cs.drop width)
termination_by cs => cs.length
decreasing_by simp only [List.length_drop, List.length_cons]; omega

/-- The tokens of a text.  With `unescape` a string literal holds the characters it stands
    for, otherwise those it is written with. -/
def lex (dialect : Dialect) (unescape : Bool) (text : String) : Except LexError (List Located) :=
  lexFrom dialect unescape .start text.toList

end Token

end SchemaSql
