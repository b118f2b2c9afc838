import SchemaSql.Ident.Parser
import SchemaSql.Synonym

/-!
# Reading CREATE SYNONYM
-/

namespace SchemaSql.CreateSynonym

open SchemaSql.Parser

/-- Reads a statement behind `CREATE`, in dialects that have synonyms. -/
def parse : Parser CreateSynonym := do
  if !(← read).dialect.synonyms then expected "an SQL statement" (← peek)
  let orReplace ← acceptKeywords [.or, .replace]
  let isPublic ← acceptKeyword .public
  let _ ← expectKeyword .synonym
  let synonym ← ObjectName.parse
  let _ ← expectKeyword .for
  return { orReplace, isPublic, synonym, object := ← ObjectName.parse }

end SchemaSql.CreateSynonym
