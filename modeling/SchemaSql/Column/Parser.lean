import SchemaSql.Column
import SchemaSql.DataType.Parser
import SchemaSql.Expr.Parser

/-!
# Reading columns
-/

namespace SchemaSql

open SchemaSql.Parser

/-- Reads `COLUMN`, `COLUMNS` or nothing. -/
def ColumnKeyword.parse : Parser ColumnKeyword := do
  if ← acceptKeyword .column then return .column
  if ← acceptKeyword .columns then return .columns
  return .none

namespace ColumnDefinition

/-- Whether no type follows a column's name: the specification does, or no word at all. -/
def lacksType (token : Token) : Bool :=
  match token with
  | .word w => w.quote.isNone && w.keyword.any (· ∈ Keyword.startsColumnSpec)
  | _ => true

/-- Whether a token ends the specification of a column. -/
def endsSpecs (token : Token) : Bool :=
  match token with
  | .comma | .semicolon | .rparen | .eof => true
  | _ => false

/-- Reads the entries of a column's specification: single tokens and groups in parentheses. -/
def parseSpecs : Parser (List String) :=
  many do
    let found ← peek
    if endsSpecs found.token then return none
    if found.token = .lparen then return some (← groupText)
    return some (← next).token.text

/-- Reads a name, a type if there is one, and the specification. -/
def parse : Parser ColumnDefinition := do
  let name ← Ident.parse false
  let dataType ← if lacksType (← peek).token then pure none else some <$> DataType.parse
  return { name, dataType, specs := ← parseSpecs }

end ColumnDefinition

namespace ColumnAction

/-- Reads what is to be done to a column. -/
def parse : Parser ColumnAction := do
  if ← acceptKeyword .type then return .setDataType (← DataType.parse) false
  if ← acceptKeywords [.set, .data, .type] then return .setDataType (← DataType.parse) true
  if ← acceptKeywords [.set, .default] then return .setDefault (← Expr.parse)
  if ← acceptKeywords [.drop, .default] then return .dropDefault
  if ← acceptKeywords [.set, .not, .null] then return .setNotNull
  if ← acceptKeywords [.drop, .not, .null] then return .dropNotNull
  if ← acceptKeywords [.set, .visible] then return .setVisible true
  if ← acceptKeywords [.set, .invisible] then return .setVisible false
  if ← acceptKeywords [.set, .options] then return .setOptions (← groupText)
  expected "TYPE, SET or DROP after ALTER COLUMN" (← peek)

end ColumnAction

end SchemaSql
