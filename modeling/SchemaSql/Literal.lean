import SchemaSql.Token

/-!
# Literals — numbers, strings, truth values and NULL
-/

namespace SchemaSql

/-- A value written out in a statement. -/
inductive Literal where
  /-- A number as it is written, and whether an `L` follows it. -/
  | number (digits : String) (long : Bool)
  | singleQuoted (value : String)
  /-- A string between double quotes, in dialects where they do not enclose identifiers. -/
  | doubleQuoted (value : String)
  | boolean (b : Bool)
  | null
  deriving DecidableEq, Repr, Inhabited

/-- The text of a literal. -/
def Literal.text : Literal → String
  | .number digits long => digits ++ (if long then "L" else "")
  | .singleQuoted value => Text.enclose '\'' value
  | .doubleQuoted value => Text.enclose '"' value
  | .boolean b => if b then "TRUE" else "FALSE"
  | .null => "NULL"

end SchemaSql
