import SchemaSql.Expr.Parser
import SchemaSql.Query

/-!
# Reading queries
-/

namespace SchemaSql

open SchemaSql.Parser

/-- Reads a table and its alias. -/
def TableRef.parse : Parser TableRef := do
  let name ← ObjectName.parseIn true
  return { name, asName := ← Ident.parseAlias Keyword.reservedForTableAlias }

/-- Reads one column of a result: `*`, or an expression and its alias. -/
def SelectItem.parse : Parser SelectItem := do
  if ← accept .mul then return .wildcard
  let e ← Expr.parse
  match ← Ident.parseAlias Keyword.reservedForColumnAlias with
  | some asName => return .aliased e asName
  | none => return .unnamed e

/-- Reads the columns of a result. -/
def SelectItem.parseList : Parser (List SelectItem) := commaSeparated SelectItem.parse

/-- Reads an expression that rows are sorted by, and the direction. -/
def OrderItem.parse : Parser OrderItem := do
  let expr ← Expr.parse
  match ← acceptOneOf [.asc, .desc] with
  | some .asc => return { expr, direction := some .ascending }
  | some _ => return { expr, direction := some .descending }
  | none => return { expr }

/-- Reads a column and its new name. -/
def Renaming.parse : Parser Renaming := do
  let name ← Ident.parse false
  let _ ← acceptKeyword .as
  return { name, newName := ← Ident.parse false }

/-- Reads a `SELECT` behind its first word. -/
def Select.parse : Parser Select := do
  let distinct ← acceptKeyword .distinct
  let projection ← SelectItem.parseList
  let source ← if ← acceptKeyword .from then some <$> TableRef.parse else pure none
  let selection ← if ← acceptKeyword .where then some <$> Expr.parse else pure none
  return { distinct, projection, source, selection }

namespace PipeOperator

/-- Whether a token ends the list of aggregates before it has started. -/
def endsAggregates (token : Token) : Bool :=
  token.keyword? == some .group ||
    match token with
    | .pipeArrow | .semicolon | .eof => true
    | _ => false

/-- Reads an operator behind `|>`. -/
def parse : Parser PipeOperator := do
  let found ← next
  match found.token.bareKeyword? with
  | some .where => return .where (← Expr.parse)
  | some .select => return .select (← SelectItem.parseList)
  | some .extend => return .extend (← SelectItem.parseList)
  | some .drop => return .drop (← commaSeparated (Ident.parse false))
  | some .as => return .as (← Ident.parse false)
  | some .limit =>
    let count ← Expr.parse
    let offset ← if ← acceptKeyword .offset then some <$> Expr.parse else pure none
    return .limit count offset
  | some .order =>
    let _ ← expectKeyword .by
    return .orderBy (← commaSeparated OrderItem.parse)
  | some .rename => return .rename (← commaSeparated Renaming.parse)
  | some .aggregate =>
    let items ← if endsAggregates (← peek).token then pure [] else SelectItem.parseList
    let groupBy ← if ← acceptKeywords [.group, .by] then SelectItem.parseList else pure []
    return .aggregate items groupBy
  | _ =>
    expected "one of WHERE, SELECT, EXTEND, DROP, AS, LIMIT, ORDER BY, RENAME or AGGREGATE" found

end PipeOperator

namespace Query

/-- Reads what a query starts with. -/
def parseBody : Parser QueryBody := do
  if ← acceptKeyword .select then return .select (← Select.parse)
  let _ ← expectKeyword .from
  return .from (← TableRef.parse)

/-- Reads the pipe operators of a query, in dialects that have them. -/
def parsePipes : Parser (List PipeOperator) := do
  if !(← read).dialect.pipeOperators then return []
  many do
    if ← accept .pipeArrow then some <$> PipeOperator.parse else return none

/-- Reads a query, which counts as one level of nesting. -/
def parse : Parser Query :=
  descend do
    let body ← parseBody
    return { body, pipes := ← parsePipes }

end Query

end SchemaSql
