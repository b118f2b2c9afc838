import SchemaSql.Alter.Parser
import SchemaSql.Explain.Parser
import SchemaSql.Statement
import SchemaSql.Synonym.Parser

/-!
# Reading statements

A text is a list of statements with semicolons between them.  A caller may put a reader of its
own in front, which is asked first at every statement; `Statement.noExtension` is the one that
never has an answer.
-/

namespace SchemaSql.Statement

open SchemaSql.Parser

/-- A reader for statements beyond the built-in ones: it takes a statement of its own, or
    nothing. -/
abbrev Extension := Parser (Option Statement)

/-- The extension that adds nothing. -/
def noExtension : Extension := return none

/-- Reads a built-in statement. -/
def parseBuiltin : Parser Statement := do
  let found ← next
  match found.token.keyword? with
  | some .alter => return .alter (← Alter.parse)
  | some .explain => return .explain (← Explain.parse .explain)
  | some .describe => return .explain (← Explain.parse .describe)
  | some .desc => return .explain (← Explain.parse .desc)
  | some .create => return .createSynonym (← CreateSynonym.parse)
  | some .select | some .from =>
    back
    return .query (← Query.parse)
  | _ => expected "an SQL statement" found

/-- Reads a statement, which counts as one level of nesting. -/
def parseWith (extension : Extension) : Parser Statement :=
  descend do
    match ← extension with
    | some statement => return statement
    | none => parseBuiltin

/-- Takes any number of semicolons; the answer is whether there was one. -/
def acceptSemicolons : Parser Bool := do
  let semicolons ← many do
    if ← accept .semicolon then return some () else return none
  return !semicolons.isEmpty

/-- Reads one more statement, unless the text ends.  Between two statements there has to be a
    semicolon; `first` says that there is no statement in front. -/
def parseNext (extension : Extension) (first : Bool) : Parser (Option Statement) := do
  let separated ← acceptSemicolons
  let found ← peek
  if found.token = .eof then return none
  if !first && !separated then expected "end of statement" found
  some <$> parseWith extension

/-- Reads all statements. -/
def parseAllWith (extension : Extension) : Parser (List Statement) :=
  List.reverse <$> iterate
    (fun statements => (·.map (· :: statements)) <$> parseNext extension statements.isEmpty) []

/-- Reads all statements of the built-in kinds. -/
def parseAll : Parser (List Statement) := parseAllWith noExtension

end SchemaSql.Statement

namespace SchemaSql

/-- The tokens of a text, lexed as the context says. -/
def Context.lex (context : Context) (text : String) : Except ParseError (List Located) :=
  match Token.lex context.dialect context.options.unescape text with
  | .ok tokens => .ok tokens
  | .error e => .error (.lexical e)

/-- What a reader makes of a list of tokens. -/
def Parser.runTokens {α : Type} (reader : Parser α) (context : Context) (tokens : List Located) :
    Except ParseError α :=
  match reader context (Cursor.ofTokens tokens) with
  | .ok value _ => .ok value
  | .error e _ => .error e

/-- What a reader makes of a text. -/
def Parser.runText {α : Type} (reader : Parser α) (context : Context) (text : String) :
    Except ParseError α := do
  reader.runTokens context (← context.lex text)

end SchemaSql
