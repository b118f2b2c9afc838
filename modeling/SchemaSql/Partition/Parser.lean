import SchemaSql.Expr.Parser
import SchemaSql.Parser.Capture
import SchemaSql.Partition

/-!
# Reading partitions
-/

namespace SchemaSql

open SchemaSql.Parser

namespace PartitionDefinition

/-- Reads the values of a partition. -/
def parseValues : Parser (List String) := parenthesizedList valueText

/-- Reads the bound of a partition behind `VALUES`. -/
def parseBound : Parser (PartitionBound × List String) := do
  if ← acceptKeywords [.less, .than] then
    if ← acceptKeyword .maxvalue then return (.lessThan, ["MAXVALUE"])
    return (.lessThan, ← parseValues)
  let _ ← expectKeyword .in
  return (.oneOf, ← parseValues)

/-- Reads what follows `ENGINE` in a partition; `storage` tells whether `STORAGE` stood in
    front. -/
def parseEngineName (storage : Bool) : Parser (Option PartitionEngine) := do
  let equals ← acceptEquals
  return some { storage, equals, name := ← Ident.parse false }

/-- Reads the engine of a partition if there is one.  Exactly one `ENGINE` is read, with and
    without `STORAGE`, so a second one is the name of the engine. -/
def parseEngine : Parser (Option PartitionEngine) := do
  if ← acceptSpelling "STORAGE" then
    let _ ← expectKeyword .engine
    return ← parseEngineName true
  if ← acceptKeyword .engine then return ← parseEngineName false
  return none

/-- Reads a partition. -/
def parse : Parser PartitionDefinition := do
  let _ ← expectKeyword .partition
  let name ← Ident.parse false
  let partition : PartitionDefinition ←
    if ← acceptKeyword .values then
      let (bound, values) ← parseBound
      pure { name, bound := some bound, values }
    else pure { name }
  return { partition with engine := ← parseEngine }

/-- Reads a list of partitions in parentheses. -/
def parseList : Parser (List PartitionDefinition) := parenthesizedList parse

end PartitionDefinition

namespace Partitioning

/-- Reads the method of a partitioning. -/
def parseMethod : Parser PartitionMethod := do
  match ← expectOneOf [.range, .list, .hash, .key] with
  | .range => return .range
  | .list => return .list
  | .hash => return .hash
  | _ => return .key

/-- Reads what rows are assigned by: columns behind `COLUMNS` or `KEY`, else an expression. -/
def parseKey (method : PartitionMethod) : Parser PartitionKey := do
  if ← acceptKeyword .columns then return .columns true (← Ident.parseList)
  if method = .key then return .columns false (← Ident.parseList)
  return .expression (← parenthesized Expr.parse)

/-- Reads a partitioning behind `PARTITION BY`. -/
def parse : Parser Partitioning := do
  let linear ← acceptKeyword .linear
  let method ← parseMethod
  let key ← parseKey method
  let count ← if ← acceptKeyword .partitions then some <$> Literal.parseCount else pure none
  let partitions ←
    if (← peek).token = .lparen then PartitionDefinition.parseList else pure []
  return { linear, method, key, count, partitions }

end Partitioning

end SchemaSql
