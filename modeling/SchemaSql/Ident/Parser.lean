import SchemaSql.Ident
import SchemaSql.Parser

/-!
# Reading identifiers

Any word names something, and so does a string.  In BigQuery a table name behind `FROM` may
have hyphens in it, as `my-project` does, if no blank stands around them.
-/

namespace SchemaSql

namespace Ident

open SchemaSql.Parser

/-- Reads one hyphen and the word or digits behind it, which go on with the bare name `name`. -/
def parseHyphenated (name : String) : Parser (Option String) := do
  if (← get).peekRaw.token ≠ .minus then return none
  let _ ← next
  let found := (← modifyGet Cursor.nextRaw).getD .eof
  match found.token with
  | .word w =>
    if w.quote.isNone then return some (name ++ "-" ++ w.value)
    else expected "continuation of hyphenated identifier" found
  | .number digits false =>
    if digits.toList.all Char.isDigit then return some (name ++ "-" ++ digits)
    else expected "continuation of hyphenated identifier" found
  | _ => expected "continuation of hyphenated identifier" found

/-- Reads an identifier; `inFrom` says whether it is part of a table name behind `FROM`. -/
def parse (inFrom : Bool) : Parser Ident := do
  let found ← next
  match found.token with
  | .word w =>
    if inFrom && w.quote.isNone && (← read).dialect.isVendor .bigquery then
      return { value := ← iterate parseHyphenated w.value }
    else return ofWord w
  | .singleQuoted value => return ⟨value, some '\''⟩
  | .doubleQuoted value => return ⟨value, some '"'⟩
  | _ => expected "identifier" found

/-- Reads a list of identifiers in parentheses. -/
def parseList : Parser (List Ident) := parenthesizedList (parse false)

/-- Reads an alias if there is one: any identifier behind `AS`, or one without it that is none
    of the reserved keywords. -/
def parseAlias (reserved : List Keyword) : Parser (Option Ident) := do
  let afterAs ← acceptKeyword .as
  let found ← next
  let refuse : Parser (Option Ident) := do
    if afterAs then expected "an identifier after AS" found
    back
    return none
  match found.token with
  | .word w =>
    if afterAs || !(w.keyword.any (· ∈ reserved)) then return some (ofWord w) else refuse
  | .singleQuoted value => return some ⟨value, some '\''⟩
  | .doubleQuoted value => return some ⟨value, some '"'⟩
  | _ => refuse

end Ident

namespace ObjectName

open SchemaSql.Parser

/-- Reads a path of identifiers; `inFrom` says whether it stands behind `FROM`. -/
def parseIn (inFrom : Bool) : Parser ObjectName := do
  let first ← Ident.parse inFrom
  let rest ← many do
    if ← accept .period then some <$> Ident.parse inFrom else return none
  return ⟨first :: rest⟩

/-- Reads a path of identifiers. -/
def parse : Parser ObjectName := parseIn false

end ObjectName

end SchemaSql
