import SchemaSql.Explain
import SchemaSql.Query.Parser

/-!
# Reading EXPLAIN and DESCRIBE
-/

namespace SchemaSql

open SchemaSql.Parser

namespace ExplainOption

/-- Reads the value of a setting that can be on or off, if there is one. -/
def parseFlag : Parser (Option String) := do
  match ← acceptOneOf [.true, .false, .on] with
  | some keyword => return some keyword.name
  | none => if ← acceptSpelling "OFF" then return some "OFF" else return none

/-- Reads the name of an output format. -/
def parseFormat : Parser String := do
  let found ← next
  match found.token with
  | .word w => return w.value
  | _ => expected "an output format" found

/-- Reads a setting if there is one. -/
def parse : Parser (Option ExplainOption) := do
  match ← acceptOneOf [.analyze, .verbose, .costs, .buffers, .format, .plan] with
  | some .analyze => return some ⟨.analyze, ← parseFlag⟩
  | some .verbose => return some ⟨.verbose, ← parseFlag⟩
  | some .costs => return some ⟨.costs, ← parseFlag⟩
  | some .buffers => return some ⟨.buffers, ← parseFlag⟩
  | some .format => return some ⟨.format, some (← parseFormat)⟩
  | some _ => return some ⟨if ← acceptKeyword .for then .planFor else .plan, none⟩
  | none => return none

end ExplainOption

namespace Explain

/-- Reads what is explained: a query, or the name of a table. -/
def parseTarget : Parser ExplainTarget := do
  if (← peekKeyword .select) || (← peekKeyword .from) then return .query (← Query.parse)
  return .table (← ObjectName.parse)

/-- Reads a statement behind its first word. -/
def parse (keyword : ExplainKeyword) : Parser Explain := do
  let options ← many ExplainOption.parse
  let target ← parseTarget
  return options.foldl addOption { keyword, target }

end Explain

end SchemaSql
